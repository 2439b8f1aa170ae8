import DocSchema.Context
import DocSchema.Date.Calendar
import DocSchema.Date.Instant
import DocSchema.Date.Timestamp
import DocSchema.DotPath
import DocSchema.Entries
import DocSchema.Issue
import DocSchema.Json.Printer
import DocSchema.Json.Record
import DocSchema.Json.Token
import DocSchema.Json.Tree
import DocSchema.Location
import DocSchema.Model.Basic
import DocSchema.Model.Config
import DocSchema.Model.Error
import DocSchema.Numeric.Double
import DocSchema.Numeric.Layout
import DocSchema.Numeric.Shortest
import DocSchema.Pattern.Basic
import DocSchema.Pattern.CharSet
import DocSchema.Pattern.Expr
import DocSchema.Pattern.Notation
import DocSchema.Pattern.Size
import DocSchema.Pattern.Table
import DocSchema.Proofs.Absence
import DocSchema.Proofs.Acceptance
import DocSchema.Proofs.Admission
import DocSchema.Proofs.Admits
import DocSchema.Proofs.Agreement
import DocSchema.Proofs.AppendedLists
import DocSchema.Proofs.Appends
import DocSchema.Proofs.Atomicity
import DocSchema.Proofs.Audit
import DocSchema.Proofs.BranchOrder
import DocSchema.Proofs.Calendar
import DocSchema.Proofs.CleanModels
import DocSchema.Proofs.Collects
import DocSchema.Proofs.Compiles
import DocSchema.Proofs.Conditions
import DocSchema.Proofs.Conjunction
import DocSchema.Proofs.Conservation
import DocSchema.Proofs.Consults
import DocSchema.Proofs.Creation
import DocSchema.Proofs.Dates
import DocSchema.Proofs.Direct
import DocSchema.Proofs.Distinct
import DocSchema.Proofs.Double
import DocSchema.Proofs.Drift
import DocSchema.Proofs.EmptyTexts
import DocSchema.Proofs.Enforcement
import DocSchema.Proofs.Entries
import DocSchema.Proofs.EqualitySelectors
import DocSchema.Proofs.Facets
import DocSchema.Proofs.Failures
import DocSchema.Proofs.Frames
import DocSchema.Proofs.Generated
import DocSchema.Proofs.Histories
import DocSchema.Proofs.HouseRules
import DocSchema.Proofs.Identity
import DocSchema.Proofs.Independence
import DocSchema.Proofs.IntegerEquality
import DocSchema.Proofs.Keywords
import DocSchema.Proofs.Merge
import DocSchema.Proofs.MergeCalls
import DocSchema.Proofs.ModelCalls
import DocSchema.Proofs.ModelMap
import DocSchema.Proofs.Outcome
import DocSchema.Proofs.Output
import DocSchema.Proofs.Overwriting
import DocSchema.Proofs.Parses
import DocSchema.Proofs.Parsing
import DocSchema.Proofs.Patches
import DocSchema.Proofs.PathWrites
import DocSchema.Proofs.Paths
import DocSchema.Proofs.PatternCache
import DocSchema.Proofs.Payloads
import DocSchema.Proofs.PlainRules
import DocSchema.Proofs.PlainUpdate
import DocSchema.Proofs.Relaxation
import DocSchema.Proofs.RelaxedFields
import DocSchema.Proofs.Reparsing
import DocSchema.Proofs.Rounding
import DocSchema.Proofs.Routing
import DocSchema.Proofs.Seeding
import DocSchema.Proofs.Selection
import DocSchema.Proofs.Sends
import DocSchema.Proofs.Sharing
import DocSchema.Proofs.Stamps
import DocSchema.Proofs.Storing
import DocSchema.Proofs.Timestamps
import DocSchema.Proofs.Tree
import DocSchema.Proofs.Unambiguous
import DocSchema.Proofs.Unrolling
import DocSchema.Proofs.Upsert
import DocSchema.Proofs.UpsertStore
import DocSchema.Proofs.Work
import DocSchema.Schema.Builder
import DocSchema.Schema.Check
import DocSchema.Schema.Field
import DocSchema.Schema.Intersect
import DocSchema.Schema.Lint
import DocSchema.Schema.Node
import DocSchema.Schema.Parse
import DocSchema.SchemaError
import DocSchema.Store.Apply
import DocSchema.Store.Basic
import DocSchema.Store.Collection
import DocSchema.Store.Edit
import DocSchema.Store.Error
import DocSchema.Store.Identifier
import DocSchema.Store.Selector
import DocSchema.Store.Settings
import DocSchema.Update.Modifier
import DocSchema.Update.Relax
import DocSchema.Validator.Check
import DocSchema.Validator.Document
import DocSchema.Validator.Rules
import DocSchema.Value.Basic
import DocSchema.Value.Compare
import DocSchema.Value.Date
import DocSchema.Value.Kind

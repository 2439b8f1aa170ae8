-- SUMMARY: Why a schema is unusable or a request is turned away, and the texts that say so.
import DocSchema.Issue

/-!
# Schema errors

A `SchemaError` is a cause, and the collection it arose for if that is known.
Causes found while a model is defined are fatal; causes found in a document or a
modifier reject that request. `SchemaError.message` words every cause.
-/

namespace DocSchema

/-- A construct that no validator can express. -/
inductive Unsupported where
  | emptyTuple
  | tupleArity (left right : Nat)
  | incompatible (left right : String)
  | literalOfContainer
  | never
  | stringCheck (name : String)
  | secondPattern
  | secondDivisor
  | integerOfOther
  | other (construct : String)
deriving DecidableEq

/-- What makes a schema meaningless. -/
inductive Invalid where
  | rootNotObject (kind : String)
  | modifierRootNotObject (kind : String)
  | modelNotObject (kind : String)
  | unionWithoutOptions
  | discriminatedWithoutOptions
  | optionNotObject (kind : String)
  | discriminatorNotLiteral (key : String)
  | repeatedDiscriminator (value : String)
  | enumWithoutValues
  | disjointEnums
  | divisorNotPositive
  | boundNotFinite (keyword : String)
  | validatorNotObject
  | unreadablePattern
  | other (reason : String)
deriving DecidableEq

/-- A house rule that a schema breaks. -/
inductive LintRule where
  | emptyUnion
  | emptyDiscriminated
  | optionNotObject (kind : String)
  | emptyEnum
  | repeatedEnumValue (value : String)
  | acceptsEmptyString
  | emptyName
  | dottedName
  | operatorName
  | other (rule : String)
deriving DecidableEq

/-- What is wrong with the shape of a modifier. -/
inductive ModifierFault where
  | notObject
  | mixed
  | payloadNotObject
  | operatorPayloadNotObject (operator : String)
  | unsupportedOperator (operator : String)
  | writtenTwice (key operator : String)
  | other (reason : String)
deriving DecidableEq

namespace SchemaError

inductive Cause where
  | unsupported (location : Location) (construct : Unsupported)
  | lint (location : Location) (rule : LintRule)
  | invalid (location : Location) (reason : Invalid)
  | rejected (issue : Issue)
  | modifier (fault : ModifierFault)
deriving DecidableEq

/-- Whether the error spoils a model or turns away one request. -/
inductive Severity where
  | fatal
  | reject
deriving DecidableEq

end SchemaError

structure SchemaError where
  cause : SchemaError.Cause
  collection : Option String
deriving DecidableEq

/-! ## Texts -/

def Unsupported.text : Unsupported → String
  | .emptyTuple => "mismatched tuple arity (empty tuple)"
  | .tupleArity l r => "mismatched tuple arity (" ++ toString l ++ " vs " ++ toString r ++ ")"
  | .incompatible l r => "intersection of " ++ l ++ " and " ++ r
  | .literalOfContainer => "non-scalar literal"
  | .never => "never has no BSON representation"
  | .stringCheck name => "string check '" ++ name ++ "'"
  | .secondPattern => "more than one pattern constraint on a string"
  | .secondDivisor => "more than one multipleOf constraint"
  | .integerOfOther => "integer constraint on a node without a numeric bsonType"
  | .other construct => construct

def Invalid.text : Invalid → String
  | .rootNotObject kind => "root must be an object, got " ++ kind
  | .modifierRootNotObject kind => "modifier schema root must be an object, got " ++ kind
  | .modelNotObject kind => "model schema must be an object, got " ++ kind
  | .unionWithoutOptions => "union without options"
  | .discriminatedWithoutOptions => "discriminated union without options"
  | .optionNotObject kind => "discriminated union option must be an object, got " ++ kind
  | .discriminatorNotLiteral key => "discriminator '" ++ key ++ "' must be a single literal"
  | .repeatedDiscriminator value => "duplicate discriminator value " ++ value
  | .enumWithoutValues => "enum without values"
  | .disjointEnums => "intersection of enums has no common value"
  | .divisorNotPositive => "multipleOf must be positive"
  | .boundNotFinite keyword => keyword ++ " must be finite"
  | .validatorNotObject => "validator must be an object"
  | .unreadablePattern => "pattern does not compile"
  | .other reason => reason

def LintRule.text : LintRule → String
  | .emptyUnion => "union must have at least one option"
  | .emptyDiscriminated => "discriminated union must have at least one option"
  | .optionNotObject kind => "discriminated union option must be an object, got " ++ kind
  | .emptyEnum => "enum must declare at least one value"
  | .repeatedEnumValue value => "enum value '" ++ value ++ "' is declared twice"
  | .acceptsEmptyString => "string accepts \"\"; require minLength(1) or mark it allow-empty"
  | .emptyName => "field name must not be empty"
  | .dottedName => "field name must not contain '.'"
  | .operatorName => "field name must not start with '$'"
  | .other rule => rule

def ModifierFault.text : ModifierFault → String
  | .notObject => "modifier must be an object"
  | .mixed => "modifier mixes update operators with plain fields"
  | .payloadNotObject => "operator payload must be an object"
  | .operatorPayloadNotObject operator => "payload of '" ++ operator ++ "' must be an object"
  | .unsupportedOperator operator => "unsupported operator '" ++ operator ++ "'"
  | .writtenTwice key operator => "'" ++ key ++ "' is written by both $set and " ++ operator
  | .other reason => reason

def SchemaError.Severity.text : SchemaError.Severity → String
  | .fatal => "FATAL"
  | .reject => "REJECT"

namespace SchemaError

/-! ## Building -/

def unsupported (location : Location) (construct : Unsupported) : SchemaError :=
  ⟨.unsupported location construct, none⟩

def lint (location : Location) (rule : LintRule) : SchemaError := ⟨.lint location rule, none⟩

def invalid (location : Location) (reason : Invalid) : SchemaError :=
  ⟨.invalid location reason, none⟩

def rejected (issue : Issue) : SchemaError := ⟨.rejected issue, none⟩

def modifier (fault : ModifierFault) : SchemaError := ⟨.modifier fault, none⟩

def inCollection (e : SchemaError) (collection : String) : SchemaError :=
  { e with collection := some collection }

/-! ## Reading -/

def code (e : SchemaError) : String :=
  match e.cause with
  | .unsupported .. => "AERO_SCHEMA_UNSUPPORTED"
  | .lint .. => "AERO_SCHEMA_LINT_VIOLATION"
  | .invalid .. => "AERO_SCHEMA_INVALID"
  | .rejected .. => "AERO_SCHEMA_VALIDATION_FAILED"
  | .modifier .. => "AERO_MODIFIER_INVALID"

def severity (e : SchemaError) : Severity :=
  match e.cause with
  | .unsupported .. | .lint .. | .invalid .. => .fatal
  | .rejected .. | .modifier .. => .reject

def isFatal (e : SchemaError) : Bool := e.severity == .fatal

/-- The place the error is about, as shown. -/
def path? (e : SchemaError) : Option String :=
  match e.cause with
  | .unsupported location _ | .lint location _ | .invalid location _ => some location.shown
  | .rejected issue => some issue.path
  | .modifier _ => none

/-- The issue that led to a rejection. -/
def issue? (e : SchemaError) : Option Issue :=
  match e.cause with
  | .rejected issue => some issue
  | _ => none

def message (e : SchemaError) : String :=
  match e.cause with
  | .unsupported location construct =>
    "Unsupported construct at '" ++ location.shown ++ "': " ++ construct.text
  | .lint location rule => "Schema rule violated at '" ++ location.shown ++ "': " ++ rule.text
  | .invalid location reason => "Invalid schema at '" ++ location.shown ++ "': " ++ reason.text
  | .rejected issue => "Document validation failed: " ++ issue.message
  | .modifier fault => "Invalid modifier: " ++ fault.text

/-- The message with severity and code in front and the collection behind. -/
def display (e : SchemaError) : String :=
  "[" ++ e.severity.text ++ "] " ++ e.code ++ ": " ++ e.message ++
    match e.collection with
    | some collection => " (collection '" ++ collection ++ "')"
    | none => ""

end SchemaError

end DocSchema

-- SUMMARY: Why a call to a model fails.
import DocSchema.SchemaError
import DocSchema.Store.Error

/-!
# Model errors

A document or modifier that the schema refuses is a `validation` error. A store
that refuses a document which the schema accepted shows that the two layers
disagree: that is a `consistency` error, a defect and no fault of the caller.
-/

namespace DocSchema

inductive ModelError where
  | validation (error : SchemaError)
  | consistency (collection : String) (issue : Issue)
  /-- The store refused a write that went past the schema. -/
  | storageRejected (collection : String) (issue : Issue)
  | storage (error : StorageError)
  | notFound (collection : String)
deriving DecidableEq

namespace ModelError

def message : ModelError → String
  | .validation error => error.display
  | .consistency collection issue =>
    "Schema layers disagree in '" ++ collection ++
      "': storage rejected an application-validated document: " ++ issue.message
  | .storageRejected collection issue =>
    "Storage rejected unvalidated write to '" ++ collection ++ "': " ++ issue.message
  | .storage error => "Storage error: " ++ error.message
  | .notFound collection => "No document in '" ++ collection ++ "' matches the selector"

/-- The issue behind the error, where there is one. -/
def issue? : ModelError → Option Issue
  | .validation error => error.issue?
  | .consistency _ issue => some issue
  | .storageRejected _ issue => some issue
  | .storage error => error.issue?
  | .notFound _ => none

def isConsistencyFailure : ModelError → Bool
  | .consistency .. => true
  | _ => false

end ModelError

end DocSchema

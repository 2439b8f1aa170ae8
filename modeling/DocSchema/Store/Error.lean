-- SUMMARY: Why the store refuses a call, and the texts that say so.
import DocSchema.Issue

/-!
# Storage errors

A `StorageError` is a refusal of the store: a document that fails the validator
of its collection, a key that is taken, a modifier that cannot be applied, or a
selector that cannot be read.
-/

namespace DocSchema

/-- Why a modifier cannot be applied to a document. -/
inductive ApplyFault where
  | notObject
  | payloadNotObject (operator : String)
  | unsupportedOperator (operator : String)
  | renameTarget (path : String)
  | emptySegment (path : String)
  | positional (path : String)
  | notIndex (segment path : String)
  | pastEnd (index : Nat) (path : String) (size : Nat)
  | notTraversable (segment path : String)
  | parentNotContainer (path : String)
  | operandNotNumber (path : String)
  | fieldNotNumber (path found : String)
  | notFinite (path : String)
  | notArray (path : String)
  | eachNotArray (path : String)
  | idImmutable
  | documentNotObject
  | other (reason : String)
deriving DecidableEq

/-- Why a selector cannot be read. -/
inductive SelectorFault where
  | notSelector (found : String)
  | unsupportedOperator (operator : String)
  | notSelectorList (operator : String)
  | notList (operator : String)
  | other (reason : String)
deriving DecidableEq

inductive StorageError where
  | documentRejected (collection : String) (issue : Issue)
  | duplicateKey (collection id : String)
  | modifier (fault : ApplyFault)
  | selector (fault : SelectorFault)
  | internal (reason : String)
deriving DecidableEq

def ApplyFault.text : ApplyFault → String
  | .notObject => "modifier must be an object"
  | .payloadNotObject operator => "payload of '" ++ operator ++ "' must be an object"
  | .unsupportedOperator operator => "unsupported operator '" ++ operator ++ "'"
  | .renameTarget path => "$rename target for '" ++ path ++ "' must be a string"
  | .emptySegment path => "empty segment in path '" ++ path ++ "'"
  | .positional path =>
    "positional path '" ++ path ++ "' is not supported by the in-memory store"
  | .notIndex segment path => "'" ++ segment ++ "' in '" ++ path ++ "' is not an array index"
  | .pastEnd index path size =>
    "index " ++ toString index ++ " in '" ++ path ++ "' is past the end of an array of " ++
      toString size ++ " elements"
  | .notTraversable segment path =>
    "cannot traverse '" ++ segment ++ "' in '" ++ path ++ "': not a container"
  | .parentNotContainer path => "cannot set '" ++ path ++ "': parent is not a container"
  | .operandNotNumber path => "operand for '" ++ path ++ "' must be a number"
  | .fieldNotNumber path found =>
    "cannot apply arithmetic to non-numeric field '" ++ path ++ "' (" ++ found ++ ")"
  | .notFinite path => "arithmetic on '" ++ path ++ "' is not finite"
  | .notArray path => "field '" ++ path ++ "' is not an array"
  | .eachNotArray path => "$each for '" ++ path ++ "' must be an array"
  | .idImmutable => "_id is immutable"
  | .documentNotObject => "document must be an object"
  | .other reason => reason

def SelectorFault.text : SelectorFault → String
  | .notSelector found => "selector must be an object or an id string, got " ++ found
  | .unsupportedOperator operator => "unsupported operator '" ++ operator ++ "'"
  | .notSelectorList operator => "'" ++ operator ++ "' takes an array of selectors"
  | .notList operator => "'" ++ operator ++ "' takes an array"
  | .other reason => reason

namespace StorageError

def message : StorageError → String
  | .documentRejected collection issue =>
    "Document failed validation in '" ++ collection ++ "': " ++ issue.message
  | .duplicateKey collection id => "Duplicate key in '" ++ collection ++ "': _id '" ++ id ++ "'"
  | .modifier fault => "Cannot apply modifier: " ++ fault.text
  | .selector fault => "Invalid selector: " ++ fault.text
  | .internal reason => "Internal storage error: " ++ reason

/-- Whether the validator of a collection refused a document. -/
def isValidationFailure : StorageError → Bool
  | .documentRejected .. => true
  | _ => false

def issue? : StorageError → Option Issue
  | .documentRejected _ issue => some issue
  | _ => none

end StorageError

end DocSchema

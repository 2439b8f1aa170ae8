-- SUMMARY: Selectors: which documents they match, and the fields they fix.
import DocSchema.DotPath
import DocSchema.Json.Printer
import DocSchema.Store.Error
import DocSchema.Value.Compare

/-!
# Selectors

A text selects by `_id`. An object selects the documents that meet all its
clauses: a plain value asks for equality, an object of operators for a
comparison, `$and` and `$or` combine selectors. A missing field equals null, and
an array field also equals each of its elements. Clauses are read in the order of
their names until one fails; a clause behind it is not read.
-/

namespace DocSchema

namespace Value

/-- The value at the end of a list of segments; array elements are reached by index. -/
def walk? (v : Value) : List String → Option Value
  | [] => some v
  | segment :: rest =>
    match v with
    | .object fields => (Entries.get? fields segment).bind fun child => child.walk? rest
    | .array items =>
      ((DotPath.index? segment).bind fun i => items[i]?).bind fun child => child.walk? rest
    | _ => none

/-- The value at the end of a dotted path. -/
def lookup? (v : Value) (path : String) : Option Value := v.walk? (DotPath.segments path)

end Value

namespace Selector

/-! ## Conditions on a field -/

/-- Whether a condition is an object of operators. Dates are plain values. -/
def isOperators (condition : Value) : Bool :=
  match condition with
  | .object fields =>
    !fields.isEmpty && fields.all (fun e => DotPath.isOperator e.1) && condition.instant?.isNone
  | _ => false

/-- Whether a field that is perhaps missing equals a value. -/
def equals (actual : Option Value) (expected : Value) : Bool :=
  match actual with
  | none => match expected with
    | .null => true
    | _ => false
  | some v =>
    v.alike expected || match v with
      | .array items => items.any fun item => item.alike expected
      | _ => false

/-- Whether a field compares to an operand in an accepted way. -/
def compares (actual : Option Value) (operand : Value) (accept : Ordering → Bool) : Bool :=
  (actual.bind fun v => v.compare? operand).any accept

def isInList (actual : Option Value) (operator : String) (operand : Value) :
    Except StorageError Bool :=
  match operand with
  | .array candidates => .ok (candidates.any fun c => equals actual c)
  | _ => .error (.selector (.notList operator))

/-- Whether a field meets one operator. -/
def meetsOperator (actual : Option Value) (operator : String) (operand : Value) :
    Except StorageError Bool :=
  match operator with
  | "$eq" => .ok (equals actual operand)
  | "$ne" => .ok (!equals actual operand)
  | "$in" => isInList actual operator operand
  | "$nin" => (isInList actual operator operand).map not
  | "$exists" => .ok (actual.isSome == operand.bool?.getD true)
  | "$gt" => .ok (compares actual operand (· == .gt))
  | "$gte" => .ok (compares actual operand (· != .lt))
  | "$lt" => .ok (compares actual operand (· == .lt))
  | "$lte" => .ok (compares actual operand (· != .gt))
  | other => .error (.selector (.unsupportedOperator other))

/-- Whether a field meets all operators; the first that fails ends the reading. -/
def meetsOperators (actual : Option Value) : Entries Value → Except StorageError Bool
  | [] => .ok true
  | (operator, operand) :: rest => do
    if ← meetsOperator actual operator operand then meetsOperators actual rest else .ok false

/-- Whether a field meets a condition. -/
def meets (actual : Option Value) (condition : Value) : Except StorageError Bool :=
  match condition with
  | .object operators =>
    if isOperators condition then meetsOperators actual operators
    else .ok (equals actual condition)
  | _ => .ok (equals actual condition)

/-! ## Matching -/

mutual
/-- Whether a selector matches a document. -/
def selects : Value → Value → Except StorageError Bool
  | .string id, doc => .ok ((doc.field? "_id").bind Value.string? == some id)
  | .object clauses, doc => meetsClauses clauses doc
  | other, _ => .error (.selector (.notSelector other.json))

/-- Whether a document meets all clauses. -/
def meetsClauses : List (String × Value) → Value → Except StorageError Bool
  | [], _ => .ok true
  | (key, condition) :: rest, doc => do
    let met ←
      if key = "$and" then meetsAll key condition doc
      else if key = "$or" then meetsAny key condition doc
      else if DotPath.isOperator key then .error (.selector (.unsupportedOperator key))
      else meets (doc.lookup? key) condition
    if met then meetsClauses rest doc else .ok false

/-- Whether all selectors of a list match; all are read. -/
def meetsAll : String → Value → Value → Except StorageError Bool
  | _, .array selectors, doc => do .ok ((← results selectors doc).all id)
  | key, _, _ => .error (.selector (.notSelectorList key))

/-- Whether some selector of a list matches; all are read. -/
def meetsAny : String → Value → Value → Except StorageError Bool
  | _, .array selectors, doc => do .ok ((← results selectors doc).any id)
  | key, _, _ => .error (.selector (.notSelectorList key))

/-- What each selector of a list says of a document. -/
def results : List Value → Value → Except StorageError (List Bool)
  | [], _ => .ok []
  | selector :: rest, doc => do .ok ((← selects selector doc) :: (← results rest doc))
end

/-! ## Fields that a selector fixes -/

mutual
/-- The fields that a selector asks to be equal to a value, in the order of the clauses. -/
def equalities : Value → List (String × Value)
  | .string id => [("_id", .string id)]
  | .object clauses => clauseEqualities clauses
  | _ => []

def clauseEqualities : List (String × Value) → List (String × Value)
  | [] => []
  | (key, condition) :: rest =>
    (if key = "$and" then listEqualities condition
    else if DotPath.isOperator key then []
    else if isOperators condition then
      match condition.field? "$eq" with
      | some v => [(key, v)]
      | none => []
    else [(key, condition)]) ++ clauseEqualities rest

def listEqualities : Value → List (String × Value)
  | .array selectors => itemEqualities selectors
  | _ => []

def itemEqualities : List Value → List (String × Value)
  | [] => []
  | selector :: rest => equalities selector ++ itemEqualities rest
end

end Selector

end DocSchema

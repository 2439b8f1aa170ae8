-- SUMMARY: Validator documents: a body with its patterns read once, compiled or given by hand.
import DocSchema.Validator.Check
import DocSchema.Validator.Rules

/-!
# Validator documents

A `Validator` is what a collection enforces. Every `pattern` keyword anywhere in
the body is read when the validator is made, and a body with a pattern that
cannot be read makes none. `Validator.validate` decides patterns by those read
beforehand, `Validator.validateDirectly` reads each pattern where it is met.
-/

namespace DocSchema

structure Validator where
  body : Rules
  /-- The patterns of the body under their texts. -/
  patterns : List (String × Pattern)

namespace Validator

/-! ## Collecting patterns -/

/-- Adds the pattern of a text unless it is there. -/
def addPattern (found : List (String × Pattern)) (source : String) (location : Location) :
    Except SchemaError (List (String × Pattern)) :=
  if (found.lookup source).isSome then .ok found
  else match Pattern.read? source with
    | some p => .ok ((source, p) :: found)
    | none => .error (.invalid location .unreadablePattern)

/-- Adds the pattern that an object holds under the keyword `pattern`. -/
def addOwnPattern (found : List (String × Pattern)) (rules : Entries Value)
    (location : Location) : Except SchemaError (List (String × Pattern)) :=
  match (Entries.get? rules "pattern").bind Value.string? with
  | some source => addPattern found source location
  | none => .ok found

mutual
/-- Adds the patterns of a value, whatever keywords lead to them. -/
def collect : Value → Location → List (String × Pattern) →
    Except SchemaError (List (String × Pattern))
  | .object rules, location, found => do
    collectEntries rules location (← addOwnPattern found rules location)
  | .array items, location, found => collectItems items location found
  | _, _, found => .ok found

def collectEntries : List (String × Value) → Location → List (String × Pattern) →
    Except SchemaError (List (String × Pattern))
  | [], _, found => .ok found
  | (name, v) :: rest, location, found => do
    collectEntries rest location (← collect v (location.entry name) found)

def collectItems : List Value → Location → List (String × Pattern) →
    Except SchemaError (List (String × Pattern))
  | [], _, found => .ok found
  | v :: rest, location, found => do collectItems rest location (← collect v location found)
end

/-! ## Making validators -/

/-- The validator of a body, which must be an object. -/
def ofBody (body : Value) : Except SchemaError Validator :=
  match body with
  | .object rules => do .ok ⟨rules, ← collect (.object rules) .root []⟩
  | _ => .error (.invalid .root .validatorNotObject)

/-- The body as the storage engine takes it. -/
def collectionValidator (v : Validator) : Value := .object [("$jsonSchema", .object v.body)]

/-! ## Validation -/

/-- Decides patterns by those collected; one that is not among them matches nothing. -/
def matching (v : Validator) : Matching := fun source text =>
  (v.patterns.lookup source).any (·.matchesIn text)

/-- Reports the first rule that a document breaks. -/
def validate (v : Validator) (document : Value) : Except Issue Unit :=
  check v.matching (.object v.body) document .root

def isValid (v : Validator) (document : Value) : Bool := (v.validate document).isOk

/-- Decides a pattern by reading its text. -/
def readAndMatch : Matching := fun source text =>
  (Pattern.read? source).any (·.matchesIn text)

/-- Validation without patterns read beforehand. -/
def validateDirectly (body : Rules) (document : Value) : Except Issue Unit :=
  check readAndMatch (.object body) document .root

end Validator

namespace Node

/-- The root of a schema: an intersection is merged, and the result must be an object. -/
def mergedRoot (root : Node) : Except SchemaError Node :=
  match root with
  | .intersection left right => left.intersect right .root
  | other => .ok other

/-- Compiles a schema to the validator that enforces it. -/
def compile (root : Node) : Except SchemaError Validator := do
  let merged ← root.mergedRoot
  if merged.isObject then Validator.ofBody (.object (← merged.rules .root))
  else .error (.invalid .root (.rootNotObject merged.kindName))

end Node

end DocSchema

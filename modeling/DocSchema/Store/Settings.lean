-- SUMMARY: How strictly a collection enforces its validator.
import DocSchema.Json.Record

/-!
# Validation settings

The level says which writes a validator checks, the action what becomes of a
write that it refuses.
-/

namespace DocSchema

/-- Which writes are checked. -/
inductive ValidationLevel where
  | off
  /-- Inserts, and updates of documents that passed before. -/
  | moderate
  | strict
deriving DecidableEq, Inhabited

/-- What becomes of a write that is refused. -/
inductive ValidationAction where
  | error
  /-- The write goes through. -/
  | warn
deriving DecidableEq, Inhabited

structure ValidationSettings where
  level : ValidationLevel
  action : ValidationAction
deriving DecidableEq, Inhabited

namespace ValidationLevel

def name : ValidationLevel → String
  | .off => "off"
  | .moderate => "moderate"
  | .strict => "strict"

def ofName? : String → Option ValidationLevel
  | "off" => some .off
  | "moderate" => some .moderate
  | "strict" => some .strict
  | _ => none

end ValidationLevel

namespace ValidationAction

def name : ValidationAction → String
  | .error => "error"
  | .warn => "warn"

def ofName? : String → Option ValidationAction
  | "error" => some .error
  | "warn" => some .warn
  | _ => none

end ValidationAction

namespace ValidationSettings

/-- All writes are checked, and refused writes fail. -/
def standard : ValidationSettings := ⟨.strict, .error⟩

def ofTree? (tree : Json.Tree) : Option ValidationSettings := do
  match ← tree.record? ["level", "action"] with
  | [level, action] =>
    let level ← Json.Tree.orDefault (·.choice? ValidationLevel.ofName?) .strict level
    let action ← Json.Tree.orDefault (·.choice? ValidationAction.ofName?) .error action
    some ⟨level, action⟩
  | _ => none

/-- Settings from a JSON text. -/
def read? (text : String) : Option ValidationSettings := (Json.Tree.read? text).bind ofTree?

end ValidationSettings

end DocSchema

-- SUMMARY: How a model enforces its schema.
import DocSchema.Store.Settings

/-!
# Model configuration

Besides the settings of the collection's validator, a configuration says whether
a schema without `_id` gets one.
-/

namespace DocSchema

structure ModelConfig where
  level : ValidationLevel
  action : ValidationAction
  addIdField : Bool
deriving DecidableEq, Inhabited

namespace ModelConfig

/-- All writes are checked, refused writes fail, and an `_id` is added. -/
def standard : ModelConfig := ⟨.strict, .error, true⟩

def settings (c : ModelConfig) : ValidationSettings := ⟨c.level, c.action⟩

def withAction (action : ValidationAction) : ModelConfig := { standard with action }

def ofTree? (tree : Json.Tree) : Option ModelConfig := do
  match ← tree.record? ["validation_level", "validation_action", "add_id_field"] with
  | [level, action, addIdField] =>
    let level ← Json.Tree.orDefault (·.choice? ValidationLevel.ofName?) .strict level
    let action ← Json.Tree.orDefault (·.choice? ValidationAction.ofName?) .error action
    let addIdField ← Json.Tree.orDefault Json.Tree.bool? true addIdField
    some ⟨level, action, addIdField⟩
  | _ => none

/-- A configuration from a JSON text. -/
def read? (text : String) : Option ModelConfig := (Json.Tree.read? text).bind ofTree?

end ModelConfig

end DocSchema

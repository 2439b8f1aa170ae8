-- SUMMARY: Reading records and choices from JSON trees, as settings are written.
import DocSchema.Json.Tree

/-!
# Records and choices

A record is an object of named fields, or an array of their values in the order
of declaration. Unknown names are passed over, a known name may stand once. A
choice is its name, or an object with that name and null.
-/

namespace DocSchema

namespace Json

namespace Tree

/-- The value that a choice stands for. -/
def choice? {α : Type} (byName : String → Option α) : Tree → Option α
  | .string (some name) => byName name
  | .object [(some name, .null)] => byName name
  | _ => none

def bool? : Tree → Option Bool
  | .bool b => some b
  | _ => none

/-- The field of a name, which may stand once; `some none` if it is not there. -/
def fieldOnce? (fields : List (Option String × Tree)) (name : String) : Option (Option Tree) :=
  match fields.filter fun f => f.1 = some name with
  | [] => some none
  | [f] => some (some f.2)
  | _ => none

/-- The fields of a record in the order of their declaration. -/
def record? (names : List String) : Tree → Option (List (Option Tree))
  | .object fields =>
    if fields.all fun f => f.1.isSome then names.mapM (fieldOnce? fields) else none
  | .array items =>
    if items.length ≤ names.length then
      some (items.map some ++ List.replicate (names.length - items.length) none)
    else none
  | _ => none

/-- A field that takes a default when it is not there. -/
def orDefault {α : Type} (read : Tree → Option α) (default : α) : Option Tree → Option α
  | some tree => read tree
  | none => some default

end Tree

end Json

end DocSchema

-- SUMMARY: Schema trees: the nodes, their heights, and what can be seen through wrappers.
import DocSchema.Context
import DocSchema.Schema.Check

/-!
# Schema nodes

A schema is declared once, as a tree of `Node`s. Everything else is derived from
the tree: the parser of documents, the validator that the store enforces, and
the schema that modifiers are checked against.

`Node.height` is the measure of recursions that go on with the merged branches
of an intersection, which are no part of the tree they came from.
-/

namespace DocSchema

/-- Gives a value for a field that was left out, or declines. -/
abbrev Default := Context → Option Value

/-- Rewrites a parsed value. An absent value is `none`, before and after; the
text of a failure is reported at the place of the field. -/
abbrev Transform := Option Value → Context → Except String (Option Value)

inductive Node where
  /-- Fields in declaration order, and the schema of undeclared entries. -/
  | object (fields : List (String × Node)) (catchall : Option Node)
  | array (item : Node)
  | tuple (items : List Node)
  | union (options : List Node)
  /-- A union of objects told apart by a literal field `key`. -/
  | discriminated (key : String) (options : List Node)
  | intersection (left right : Node)
  /-- An object with any names and values of one type. -/
  | record (value : Node)
  | optional (inner : Node)
  | nullable (inner : Node)
  | withDefault (inner : Node) (default : Default)
  | transform (inner : Node) (facet : Option Facet) (apply : Transform)
  | enum (values : List String)
  | literal (value : Value)
  /-- A string; `allowEmpty` marks the leaf that may hold the empty string. -/
  | string (checks : List StringCheck) (allowEmpty : Bool)
  | number (checks : List NumberCheck)
  | boolean
  | date
  | null
  | any
  | never

namespace Node

instance : Inhabited Node := ⟨.any⟩

def kindName : Node → String
  | .object .. => "object"
  | .array _ => "array"
  | .tuple _ => "tuple"
  | .union _ => "union"
  | .discriminated .. => "discriminated union"
  | .intersection .. => "intersection"
  | .record _ => "record"
  | .optional _ => "optional"
  | .nullable _ => "nullable"
  | .withDefault .. => "default"
  | .transform .. => "transform"
  | .enum _ => "enum"
  | .literal _ => "literal"
  | .string .. => "string"
  | .number _ => "number"
  | .boolean => "bool"
  | .date => "date"
  | .null => "null"
  | .any => "any"
  | .never => "never"

/-! ## Height -/

mutual
/-- The number of nodes on the longest way down, leaves not counted. -/
def height : Node → Nat
  | .object fields catchall => 1 + max (fieldsHeight fields) (catchallHeight catchall)
  | .array n | .record n | .optional n | .nullable n | .withDefault n _ | .transform n _ _ =>
    1 + n.height
  | .tuple ns | .union ns | .discriminated _ ns => 1 + listHeight ns
  | .intersection l r => 1 + max l.height r.height
  | .enum _ | .literal _ | .string _ _ | .number _ => 0
  | .boolean | .date | .null | .any | .never => 0

def fieldsHeight : List (String × Node) → Nat
  | [] => 0
  | (_, n) :: rest => max n.height (fieldsHeight rest)

def catchallHeight : Option Node → Nat
  | none => 0
  | some n => n.height

def listHeight : List Node → Nat
  | [] => 0
  | n :: rest => max n.height (listHeight rest)
end

theorem height_le_listHeight {n : Node} {ns : List Node} (h : n ∈ ns) :
    n.height ≤ listHeight ns := by
  induction ns with
  | nil => cases h
  | cons m ms ih =>
    rw [listHeight]
    cases h with
    | head => omega
    | tail _ h => have := ih h; omega

theorem height_le_fieldsHeight {f : String × Node} {fs : List (String × Node)} (h : f ∈ fs) :
    f.2.height ≤ fieldsHeight fs := by
  induction fs with
  | nil => cases h
  | cons g gs ih =>
    obtain ⟨name, m⟩ := g
    rw [fieldsHeight]
    cases h with
    | head => simp only; omega
    | tail _ h => have := ih h; omega

/-! ## Views -/

/-- The node declared under a name; of several the first. -/
def lookup (fields : List (String × Node)) (name : String) : Option Node := Entries.get? fields name

def isObject : Node → Bool
  | .object .. => true
  | _ => false

mutual
/-- Whether a field of this type may be left out. -/
def acceptsAbsent : Node → Bool
  | .optional _ | .withDefault .. | .any => true
  | .nullable inner | .transform inner _ _ => inner.acceptsAbsent
  | .union options => anyAcceptsAbsent options
  | .intersection left right => left.acceptsAbsent && right.acceptsAbsent
  | _ => false

def anyAcceptsAbsent : List Node → Bool
  | [] => false
  | n :: rest => n.acceptsAbsent || anyAcceptsAbsent rest
end

/-- The element type of an array, seen through wrappers. -/
def arrayItem? : Node → Option Node
  | .array item => some item
  | .optional inner | .nullable inner | .withDefault inner _ | .transform inner _ _ =>
    inner.arrayItem?
  | _ => none

/-- The literal that an option of a discriminated union carries under `key`. -/
def discriminator? (key : String) : Node → Option Value
  | .object fields _ =>
    match lookup fields key with
    | some (.literal v) => if v.isScalar then some v else none
    | _ => none
  | _ => none

end Node

end DocSchema

-- SUMMARY: The storage types of values and the names that validators give them.
import DocSchema.Value.Date

/-!
# Kinds

The storage engine tells integers by their width and dates from objects. A
validator names kinds by text; `number` is a name for all three numeric kinds.
-/

namespace DocSchema

inductive Kind where
  | null
  | bool
  | int
  | long
  | double
  | string
  | array
  | date
  | object
deriving DecidableEq, Inhabited

def Kind.name : Kind → String
  | .null => "null"
  | .bool => "bool"
  | .int => "int"
  | .long => "long"
  | .double => "double"
  | .string => "string"
  | .array => "array"
  | .date => "date"
  | .object => "object"

def Kind.isNumeric : Kind → Bool
  | .int | .long | .double => true
  | _ => false

/-- Integers of 32 bits, of 64 bits, and all other numbers. -/
def Number.kind (n : Number) : Kind :=
  match n.toInt64? with
  | some i => if -2147483648 ≤ i ∧ i ≤ 2147483647 then .int else .long
  | none => .double

def Value.kind (v : Value) : Kind :=
  match v with
  | .null => .null
  | .bool _ => .bool
  | .number n => n.kind
  | .string _ => .string
  | .array _ => .array
  | .object _ => if v.instant?.isSome then .date else .object

/-- Whether the value is of the named kind. -/
def Value.isOfKind (v : Value) (name : String) : Bool :=
  if name = "number" then v.kind.isNumeric else decide (v.kind.name = name)

end DocSchema

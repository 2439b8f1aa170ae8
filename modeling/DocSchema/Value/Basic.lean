-- SUMMARY: The dynamic values that documents, modifiers, selectors and validators are made of.
import DocSchema.Entries
import DocSchema.Numeric.Double

/-!
# Values

A document is a tree of JSON values. A number keeps its class: `1` is an integer
and `1.0` is not. `Value.beq` compares class and content, `Value.alike` (in
`DocSchema.Value.Compare`) compares numbers by size alone.
-/

namespace DocSchema

/-! ## Numbers -/

/-- A number of a document: an integer, or a finite double. -/
inductive Number where
  | int (value : Int)
  | double (value : Double) (finite : value.isFinite = true)

namespace Number

instance : Inhabited Number := ⟨.int 0⟩

/-- The nearest double. -/
def toDouble : Number → Double
  | .int i => .ofInt i
  | .double d _ => d

/-- The integer, if the number is one and fits 64 bits with a sign. -/
def toInt64? : Number → Option Int
  | .int i => if -9223372036854775808 ≤ i ∧ i ≤ 9223372036854775807 then some i else none
  | .double _ _ => none

/-- The natural number, if the number is one. -/
def toNat? : Number → Option Nat
  | .int i => i.toNat?
  | .double _ _ => none

/-- A double as a number; documents hold finite ones only. -/
def ofDouble? (d : Double) : Option Number :=
  if h : d.isFinite = true then some (.double d h) else none

/-- A double as the number a validator shows: an integer where it is whole and
smaller than `9e15`. -/
def ofBound? (d : Double) : Option Number :=
  match d.toInt? with
  | some i => if i.natAbs < 9000000000000000 then some (.int i) else ofDouble? d
  | none => ofDouble? d

/-- Same class and same number. -/
def beq : Number → Number → Bool
  | .int a, .int b => a == b
  | .double a _, .double b _ => a.beq b
  | _, _ => false

instance : BEq Number := ⟨beq⟩

end Number

/-! ## Values -/

inductive Value where
  | null
  | bool (value : Bool)
  | number (value : Number)
  | string (value : String)
  | array (items : List Value)
  /-- Entries in ascending order of their names, see `Value.Ordered`. -/
  | object (fields : List (String × Value))

namespace Value

instance : Inhabited Value := ⟨.null⟩

def int (i : Int) : Value := .number (.int i)

/-- The object without entries. -/
def empty : Value := .object []

mutual
/-- Every object in the value lists its names in ascending order. -/
def Ordered : Value → Prop
  | .array items => OrderedItems items
  | .object fields => Entries.Sorted fields ∧ OrderedFields fields
  | _ => True

def OrderedItems : List Value → Prop
  | [] => True
  | item :: rest => item.Ordered ∧ OrderedItems rest

def OrderedFields : List (String × Value) → Prop
  | [] => True
  | (_, value) :: rest => value.Ordered ∧ OrderedFields rest
end

mutual
/-- Equality of class and content, entry by entry. -/
def beq : Value → Value → Bool
  | .null, .null => true
  | .bool a, .bool b => a == b
  | .number a, .number b => a == b
  | .string a, .string b => a == b
  | .array xs, .array ys => beqItems xs ys
  | .object xs, .object ys => beqFields xs ys
  | _, _ => false

def beqItems : List Value → List Value → Bool
  | [], [] => true
  | x :: xs, y :: ys => x.beq y && beqItems xs ys
  | _, _ => false

def beqFields : List (String × Value) → List (String × Value) → Bool
  | [], [] => true
  | (a, x) :: xs, (b, y) :: ys => a == b && x.beq y && beqFields xs ys
  | _, _ => false
end

instance : BEq Value := ⟨beq⟩

/-! ## Views -/

def bool? : Value → Option Bool
  | .bool b => some b
  | _ => none

def number? : Value → Option Number
  | .number n => some n
  | _ => none

def string? : Value → Option String
  | .string s => some s
  | _ => none

def array? : Value → Option (List Value)
  | .array items => some items
  | _ => none

def object? : Value → Option (Entries Value)
  | .object fields => some fields
  | _ => none

def isObject (v : Value) : Bool := v.object?.isSome

def isArray (v : Value) : Bool := v.array?.isSome

/-- A value that holds no other value. -/
def isScalar (v : Value) : Bool := !v.isObject && !v.isArray

def toNat? (v : Value) : Option Nat := v.number?.bind Number.toNat?

def toInt64? (v : Value) : Option Int := v.number?.bind Number.toInt64?

def toDouble? (v : Value) : Option Double := v.number?.map Number.toDouble

/-- The value of a field; a value that is no object has none. -/
def field? (v : Value) (name : String) : Option Value :=
  v.object?.bind fun fields => Entries.get? fields name

end Value

end DocSchema

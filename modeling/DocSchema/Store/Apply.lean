-- SUMMARY: Applying modifiers to stored documents, operator by operator.
import DocSchema.Store.Edit

/-!
# Applying modifiers

Operators are applied in the order of their names, and the entries of a payload
in the order of their paths. The first fault ends the application; what was
changed before it stays changed.
-/

namespace DocSchema

namespace Apply

/-! ## Arithmetic -/

inductive Arithmetic where
  | add
  | multiply

def Arithmetic.onInts : Arithmetic → Int → Int → Int
  | .add, a, b => a + b
  | .multiply, a, b => a * b

def Arithmetic.onDoubles : Arithmetic → Double → Double → Double
  | .add, a, b => a.add b
  | .multiply, a, b => a.mul b

/-- The result on two integers of 64 bits, if it fits them. -/
def exactResult? (op : Arithmetic) (a b : Number) : Option Number :=
  match a.toInt64?, b.toInt64? with
  | some i, some j =>
    (Number.int (op.onInts i j)).toInt64?.map .int
  | _, _ => none

/-- The result on two numbers: exact on integers that fit, on doubles otherwise. -/
def result? (op : Arithmetic) (a b : Number) : Option Number :=
  exactResult? op a b <|> Number.ofDouble? (op.onDoubles a.toDouble b.toDouble)

/-- The new value of a field; a missing field counts as zero. -/
def arithmetic (op : Arithmetic) (current : Option Value) (operand : Value) (path : String) :
    Except ApplyFault Value :=
  match operand with
  | .number b =>
    match current.getD (.int 0) with
    | .number a =>
      match result? op a b with
      | some n => .ok (.number n)
      | none => .error (.notFinite path)
    | other => .error (.fieldNotNumber path other.json)
  | _ => .error (.operandNotNumber path)

/-! ## Lists -/

/-- What is appended to an array, where, and how the array is cut afterwards. -/
structure Append where
  values : List Value
  position : Option Int
  slice : Option Int

/-- An operand with `$each` appends several values, any other appends itself. -/
def Append.ofOperand (operand : Value) (path : String) : Except ApplyFault Append :=
  match operand.field? "$each" with
  | none => .ok ⟨[operand], none, none⟩
  | some (.array values) =>
    .ok ⟨values, (operand.field? "$position").bind Value.toInt64?,
      (operand.field? "$slice").bind Value.toInt64?⟩
  | some _ => .error (.eachNotArray path)

/-- The place where values go in: the end, or a position counted from either end
and kept inside the array. -/
def insertionPoint (size : Nat) : Option Int → Nat
  | none => size
  | some p => if p < 0 then size - p.natAbs else min p.toNat size

/-- Puts values in one behind the other; with `unique`, values that are there are
left out. -/
def insertEach (unique : Bool) : List Value → Nat → List Value → List Value
  | items, _, [] => items
  | items, point, v :: rest =>
    if unique && items.any fun item => item.alike v then insertEach unique items point rest
    else insertEach unique (items.insertIdx point v) (point + 1) rest

/-- Keeps the first `n` elements, or for negative `n` the last ones. -/
def cut (items : List Value) : Option Int → List Value
  | none => items
  | some n => if 0 ≤ n then items.take n.toNat else items.drop (items.length - n.natAbs)

/-- The array after an append. -/
def Append.onto (a : Append) (unique : Bool) (items : List Value) : List Value :=
  cut (insertEach unique items (insertionPoint items.length a.position) a.values) a.slice

/-- Whether a `$pull` takes an element away: it is alike the operand, or alike a
member of the operand's `$in`. -/
def isPulled (operand item : Value) : Bool :=
  match (operand.field? "$in").bind Value.array? with
  | some candidates => candidates.any fun c => c.alike item
  | none => operand.alike item

/-! ## Operators -/

/-- Replaces a field where the operand compares to it as wanted. -/
def bound (doc : Value) (path : String) (operand : Value) (wanted : Ordering) : Edited :=
  let replaces := match doc.lookup? path with
    | none => true
    | some current => operand.compare? current == some wanted
  if replaces then doc.setPath path operand else .done doc

def append (doc : Value) (path : String) (operand : Value) (unique : Bool) : Edited :=
  match Append.ofOperand operand path with
  | .ok a => doc.changeArray path (a.onto unique)
  | .error fault => .failed doc fault

def pull (doc : Value) (path : String) (operand : Value) : Edited :=
  if (doc.lookup? path).isNone then .done doc
  else doc.changeArray path fun items => items.filter fun item => !isPulled operand item

def calculate (op : Arithmetic) (doc : Value) (path : String) (operand : Value) : Edited :=
  match arithmetic op (doc.lookup? path) operand path with
  | .ok v => doc.setPath path v
  | .error fault => .failed doc fault

def unset (doc : Value) (path : String) : Edited :=
  match doc.removePath path with
  | .ok (some (_, left)) => .done left
  | .ok none => .done doc
  | .error fault => .failed doc fault

/-- Moves a field; it is gone also when its target cannot be set. -/
def rename (doc : Value) (path : String) (operand : Value) : Edited :=
  match operand with
  | .string target =>
    match doc.removePath path with
    | .ok (some (moved, left)) => left.setPath target moved
    | .ok none => .done doc
    | .error fault => .failed doc fault
  | _ => .failed doc (.renameTarget path)

/-- Applies one entry of a payload. -/
def entry (inserting : Bool) (operator : String) (doc : Value) (path : String) (operand : Value) :
    Edited :=
  match operator with
  | "$set" => doc.setPath path operand
  | "$setOnInsert" => if inserting then doc.setPath path operand else .done doc
  | "$unset" => unset doc path
  | "$inc" => calculate .add doc path operand
  | "$mul" => calculate .multiply doc path operand
  | "$min" => bound doc path operand .lt
  | "$max" => bound doc path operand .gt
  | "$push" => append doc path operand false
  | "$addToSet" => append doc path operand true
  | "$pull" => pull doc path operand
  | "$rename" => rename doc path operand
  | other => .failed doc (.unsupportedOperator other)

/-- Applies the entries of a payload up to the first fault. -/
def payload (inserting : Bool) (operator : String) (doc : Value) : Entries Value → Edited
  | [] => .done doc
  | (path, operand) :: rest =>
    (entry inserting operator doc path operand).andThen fun next =>
      payload inserting operator next rest

/-- Applies operators up to the first fault. -/
def operators (inserting : Bool) (doc : Value) : Entries Value → Edited
  | [] => .done doc
  | (operator, .object fields) :: rest =>
    (payload inserting operator doc fields).andThen fun next => operators inserting next rest
  | (operator, _) :: _ => .failed doc (.payloadNotObject operator)

/-- Applies a modifier to a document. `inserting` says that the document is being
created, which is when `$setOnInsert` takes effect. -/
def modifier (doc modifier : Value) (inserting : Bool) : Edited :=
  match modifier with
  | .object m => operators inserting doc m
  | _ => .failed doc .notObject

end Apply

end DocSchema

-- SUMMARY: Identifiers of documents: the keys they are stored under, and random ones.
import DocSchema.Json.Printer

/-!
# Identifiers

A document is stored under a text made from its `_id`: the `_id` itself if it is
a text, its JSON otherwise. A document without `_id` gets a random identifier of
version 4.
-/

namespace DocSchema

/-- The text a document with this `_id` is stored under. -/
def Value.idKey : Value → String
  | .string s => s
  | other => other.json

/-- A random identifier, given by 128 random bits, of which six are not used. -/
structure Uuid where
  high : UInt64
  low : UInt64
deriving DecidableEq, Inhabited

namespace Uuid

/-- The hexadecimal digit at a place of a word, places counted from the right. -/
def digitAt (word : UInt64) (place : Nat) : Nat := (word >>> UInt64.ofNat (4 * place)).toNat % 16

/-- The 32 digits: the thirteenth is the version `4`, the seventeenth one of `8` to `b`. -/
def digits (u : Uuid) : List Nat :=
  let high := (List.range 16).map fun i => digitAt u.high (15 - i)
  let low := (List.range 16).map fun i => digitAt u.low (15 - i)
  high.set 12 4 ++ low.set 0 (8 + digitAt u.low 15 % 4)

/-- The written form: groups of 8, 4, 4, 4 and 12 lower-case digits. -/
def text (u : Uuid) : String :=
  let cs := u.digits.map Nat.digitChar
  let group (start size : Nat) : List Char := (cs.drop start).take size
  String.ofList (group 0 8 ++ '-' :: group 8 4 ++ '-' :: group 12 4 ++ '-' :: group 16 4 ++
    '-' :: group 20 12)

end Uuid

end DocSchema

-- SUMMARY: Equality and order of values with numbers compared by size.
import DocSchema.Value.Date

/-!
# Comparison

Selectors, enumerations and list updates compare numbers by size, so `3` and
`3.0` are alike. Only the numbers compared themselves are taken by size: inside
arrays and objects class and content decide. Values of different types have no
order.
-/

namespace DocSchema

namespace Value

/-- Equality with numbers compared as doubles. -/
def alike : Value → Value → Bool
  | .number a, .number b => a.toDouble.beq b.toDouble
  | a, b => a == b

/-- The order of two numbers, texts, truth values or dates. -/
def compare? : Value → Value → Option Ordering
  | .number a, .number b => a.toDouble.compare? b.toDouble
  | .string a, .string b => some (compare a b)
  | .bool a, .bool b => some (compare a b)
  | a, b =>
    match a.instant?, b.instant? with
    | some s, some t => some (s.compare t)
    | _, _ => none

end Value

end DocSchema

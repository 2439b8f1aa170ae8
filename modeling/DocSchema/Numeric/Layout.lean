-- SUMMARY: How a number is laid out as text: inside JSON, and plainly inside a message.
import DocSchema.Numeric.Shortest

/-!
# Number layouts

A `NumberLayout` holds the decisions left once the shortest digits are known:
where positional notation ends, whether a whole number keeps a decimal point,
and which of two equally near decimals is taken. `NumberLayout.json` writes
numbers inside JSON, `NumberLayout.plain` inside messages about bounds.
-/

namespace DocSchema

structure NumberLayout where
  /-- The leading exponents written positionally, first and last; `none` for all. -/
  positional : Option (Int × Int)
  /-- What follows a whole number in positional notation. -/
  wholeMark : String
  tie : Tie

namespace NumberLayout

/-- JSON keeps a double apart from an integer: `1.0`, `1e+16`, `1e-6`. -/
def json : NumberLayout := ⟨some (-5, 15), ".0", .even⟩

/-- A message writes the bare number, never with an exponent: `5`, `0.0000001`. -/
def plain : NumberLayout := ⟨none, "", .up⟩

def zeros (n : Nat) : List Char := List.replicate n '0'

/-- The digits with a decimal point put in, zeros added where needed. -/
def positionalText (layout : NumberLayout) (d : Decimal) : String :=
  let digits := Decimal.digitsOf d.digits
  if 0 ≤ d.exponent then String.ofList (digits ++ zeros d.exponent.toNat) ++ layout.wholeMark
  else
    let places := (-d.exponent).toNat
    let padded := zeros (places + 1 - digits.length) ++ digits
    let whole := padded.length - places
    String.ofList (padded.take whole ++ ['.'] ++ padded.drop whole)

/-- One digit, the others behind a point, and an exponent with its sign. -/
def scientificText (d : Decimal) : String :=
  let exponent := d.leadingExponent
  let mantissa := match Decimal.digitsOf d.digits with
    | [] => []
    | [c] => [c]
    | c :: rest => c :: '.' :: rest
  let sign := if exponent < 0 then "e-" else "e+"
  String.ofList mantissa ++ sign ++ toString exponent.natAbs

/-- The text of a number in a layout. -/
def text (layout : NumberLayout) (d : Double) : String :=
  if d.isNaN then "NaN"
  else
    let sign := if d.isNegative then "-" else ""
    if d.isInfinite then sign ++ "inf"
    else
      let digits := d.shortest layout.tie
      let isPositional := match layout.positional with
        | none => true
        | some (first, last) =>
          d.isZero || decide (first ≤ digits.leadingExponent ∧ digits.leadingExponent ≤ last)
      sign ++ if isPositional then layout.positionalText digits else scientificText digits

end NumberLayout

end DocSchema

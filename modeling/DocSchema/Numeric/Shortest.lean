-- SUMMARY: The shortest decimal that reads back as a given double, found in exact arithmetic.
import DocSchema.Numeric.Double

/-!
# Shortest decimals

The reals that round to a double form an interval, closed exactly when the
significand is even. `Double.shortest` looks for the coarsest decimal grid, of
one significant digit up to seventeen, that has a point in that interval; of
two such points it takes the nearer one.
-/

namespace DocSchema

/-- The number `digits * 10 ^ exponent`. -/
structure Decimal where
  digits : Nat
  exponent : Int
deriving DecidableEq, Inhabited

/-- Which of two equally near decimals is taken. -/
inductive Tie where
  | even
  | up
deriving DecidableEq

namespace Decimal

/-- The decimal digits of a natural number, most significant first. -/
def digitsOf (n : Nat) : List Char := Nat.toDigits 10 n

/-- The exponent of the first digit: `2` for `512`, `-1` for `0.5`. -/
def leadingExponent (d : Decimal) : Int := (digitsOf d.digits).length - 1 + d.exponent

/-- The same number without trailing zeros among its digits; at most `fuel` are
taken away. -/
def trim : Nat → Decimal → Decimal
  | 0, d => d
  | fuel + 1, d =>
    if d.digits ≠ 0 ∧ d.digits % 10 = 0 then trim fuel ⟨d.digits / 10, d.exponent + 1⟩ else d

end Decimal

namespace Double

/-- The value and the two ends of its rounding interval, as numerators over one
common denominator. -/
structure Interval where
  low : Nat
  value : Nat
  high : Nat
  denominator : Nat
  closed : Bool

/-- The reals that round to the magnitude of a finite non-zero double. Below a
power of two the gap is half as wide. -/
def interval (d : Double) : Interval :=
  let m := d.significand
  let narrow := decide (m = hiddenBit ∧ 2 ≤ d.magnitude / hiddenBit)
  let e := d.exponent - 2
  let up := powerOfTwo e.toNat
  ⟨(4 * m - if narrow then 1 else 2) * up, 4 * m * up, (4 * m + 2) * up, powerOfTwo (-e).toNat,
    decide (m % 2 = 0)⟩

/-- Whether `num / den` lies in the interval. -/
def Interval.contains (i : Interval) (num den : Nat) : Bool :=
  let point := num * i.denominator
  let low := i.low * den
  let high := i.high * den
  if i.closed then decide (low ≤ point ∧ point ≤ high) else decide (low < point ∧ point < high)

/-- The exponent of the first decimal digit of `num / den`. -/
def leadingDigitExponent (num den : Nat) : Int :=
  if den ≤ num then (Decimal.digitsOf (num / den)).length - 1
  else
    let places := (Decimal.digitsOf (den / num)).length
    Int.negOfNat (if den ≤ num * powerOfTen (places - 1) then places - 1 else places)

/-- The better of the value's two neighbours on the grid of `10 ^ k`, if one
reads back. -/
def onGrid (i : Interval) (tie : Tie) (k : Int) : Option Nat :=
  let gridNum := powerOfTen k.toNat
  let gridDen := powerOfTen (-k).toNat
  let num := i.value * gridDen
  let den := i.denominator * gridNum
  let below := num / den
  let rest := 2 * (num % den)
  let reads (n : Nat) : Bool := i.contains (n * gridNum) gridDen
  let belowFirst : Bool :=
    decide (rest < den) || (decide (rest = den) && (tie == .even && below % 2 == 0))
  match reads below, reads (below + 1) with
  | true, true => some (if belowFirst then below else below + 1)
  | true, false => some below
  | false, true => some (below + 1)
  | false, false => none

/-- The shortest decimal that reads back as the magnitude of a finite double. -/
def shortest (d : Double) (tie : Tie) : Decimal :=
  if d.isZero then ⟨0, 0⟩
  else
    let i := d.interval
    let first := leadingDigitExponent i.value i.denominator
    let grids := (List.range 17).map fun (n : Nat) => first - (n : Int)
    match grids.findSome? fun k => (onGrid i tie k).map fun n => (⟨n, k⟩ : Decimal) with
    | some found => found.trim 20
    | none => ⟨i.value / i.denominator, 0⟩

end Double

end DocSchema

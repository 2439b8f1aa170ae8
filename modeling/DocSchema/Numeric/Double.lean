-- SUMMARY: Binary floating-point numbers as bit patterns: order, exact value, rounding, arithmetic.

/-!
# Doubles

A `Double` is the 64-bit pattern of a binary floating-point number. Order and
equality are read off an integer key, and the value of a finite double is the
exact product `significand * 2 ^ exponent`, so both are plain arithmetic on
`Nat` and `Int`. `Double.ofRatio` rounds a quotient of naturals to the nearest
double, ties to the even pattern.
-/

namespace DocSchema

/-- A floating-point number, given by its bit pattern. -/
structure Double where
  bits : UInt64
deriving DecidableEq, Inhabited

namespace Double

/-! ## Powers -/

def powerOfTwo (n : Nat) : Nat := Nat.pow 2 n

def powerOfTen (n : Nat) : Nat := Nat.pow 10 n

/-! ## Fields of the bit pattern -/

/-- The bit above all others, `2 ^ 63`. -/
def signBit : Nat := 9223372036854775808

/-- The leading bit of a significand of full length, `2 ^ 52`, left out of the pattern. -/
def hiddenBit : Nat := 4503599627370496

/-- The pattern without the sign bit. -/
def magnitude (d : Double) : Nat := d.bits.toNat % signBit

/-- Whether the sign bit is set; true of `-0` too. -/
def isNegative (d : Double) : Bool := decide (signBit ≤ d.bits.toNat)

/-- The magnitude of infinity; larger magnitudes are not numbers. -/
def infiniteMagnitude : Nat := 2047 * hiddenBit

def isNaN (d : Double) : Bool := decide (infiniteMagnitude < d.magnitude)

def isInfinite (d : Double) : Bool := decide (d.magnitude = infiniteMagnitude)

def isFinite (d : Double) : Bool := decide (d.magnitude < infiniteMagnitude)

def isZero (d : Double) : Bool := decide (d.magnitude = 0)

/-- The double of a sign and a magnitude. -/
def ofMagnitude (negative : Bool) (magnitude : Nat) : Double :=
  ⟨UInt64.ofNat (magnitude % signBit + if negative then signBit else 0)⟩

def nan : Double := ofMagnitude false (infiniteMagnitude + hiddenBit / 2)

def infinity (negative : Bool) : Double := ofMagnitude negative infiniteMagnitude

def zero : Double := ofMagnitude false 0

def neg (d : Double) : Double := ofMagnitude (!d.isNegative) d.magnitude

/-! ## Order

Both zeros have the key `0`; a pattern that is not a number has a key as well,
so the relations ask for numbers first. -/

/-- The place of a number on the line of all numbers. -/
def key (d : Double) : Int := if d.isNegative then -(d.magnitude : Int) else d.magnitude

def lt (a b : Double) : Bool := !a.isNaN && !b.isNaN && decide (a.key < b.key)

def le (a b : Double) : Bool := !a.isNaN && !b.isNaN && decide (a.key ≤ b.key)

/-- Numerical equality: the zeros are equal, and nothing equals what is not a number. -/
def beq (a b : Double) : Bool := !a.isNaN && !b.isNaN && decide (a.key = b.key)

/-- The order of two numbers, if both are numbers. -/
def compare? (a b : Double) : Option Ordering :=
  if a.isNaN || b.isNaN then none else some (compare a.key b.key)

/-! ## The exact value of a finite double -/

/-- The integer part of the value's representation, hidden bit included. -/
def significand (d : Double) : Nat :=
  if d.magnitude < hiddenBit then d.magnitude else d.magnitude % hiddenBit + hiddenBit

/-- The power of two that scales the significand. -/
def exponent (d : Double) : Int := (max (d.magnitude / hiddenBit) 1 : Nat) - 1075

/-- The value, if it is an integer. -/
def toInt? (d : Double) : Option Int :=
  if !d.isFinite then none
  else
    let signed (n : Nat) : Int := if d.isNegative then -(n : Int) else n
    if 0 ≤ d.exponent then some (signed (d.significand * powerOfTwo d.exponent.toNat))
    else
      let unit := powerOfTwo (-d.exponent).toNat
      if d.significand % unit = 0 then some (signed (d.significand / unit)) else none

/-! ## Rounding -/

/-- The quotient of two naturals, rounded to the nearest natural, ties to even. -/
def divNearestEven (num den : Nat) : Nat :=
  let quotient := num / den
  let rest := 2 * (num % den)
  if rest < den ∨ (rest = den ∧ quotient % 2 = 0) then quotient else quotient + 1

/-- `num * 2 ^ (-e)` over `den` as a quotient of naturals. -/
def scaleByPowerOfTwo (num den : Nat) (e : Int) : Nat × Nat :=
  if 0 ≤ e then (num, den * powerOfTwo e.toNat) else (num * powerOfTwo (-e).toNat, den)

/-- The exponent at which the significand of `num / den` has 53 bits, at least
that of the smallest doubles. -/
def ratioExponent (num den : Nat) : Int :=
  let guess : Int := (num.log2 : Int) - den.log2 - 52
  let (n, d) := scaleByPowerOfTwo num den guess
  max (if n / d < hiddenBit then guess - 1 else guess) (-1074)

/-- The double nearest to `num / den`, ties to the even pattern; too large a
quotient gives infinity. -/
def ofRatio (negative : Bool) (num den : Nat) : Double :=
  if num = 0 then ofMagnitude negative 0
  else
    let e := ratioExponent num den
    let (n, d) := scaleByPowerOfTwo num den e
    ofMagnitude negative (min ((e + 1074).toNat * hiddenBit + divNearestEven n d) infiniteMagnitude)

/-- The double nearest to an integer. -/
def ofInt (i : Int) : Double := ofRatio (decide (i < 0)) i.natAbs 1

/-! ## Arithmetic -/

/-- The number as a machine float. -/
def toFloat (d : Double) : Float := Float.ofBits d.bits

/-- The pattern of a machine float. -/
def ofFloat (x : Float) : Double := ⟨x.toBits⟩

def add (a b : Double) : Double := ofFloat (a.toFloat + b.toFloat)

def mul (a b : Double) : Double := ofFloat (a.toFloat * b.toFloat)

def div (a b : Double) : Double := ofFloat (a.toFloat / b.toFloat)

/-- Whether the number lies within one part in a thousand million of an integer.
The distance to the nearest integer is compared exactly with the double
`4835703278458517 * 2 ^ (-82)`, the one nearest to `10 ^ (-9)`. -/
def isNearlyIntegral (d : Double) : Bool :=
  if !d.isFinite then false
  else if 0 ≤ d.exponent then true
  else
    let unit := powerOfTwo (-d.exponent).toNat
    let above := d.significand % unit
    decide (min above (unit - above) * powerOfTwo 82 < 4835703278458517 * unit)

/-- Whether the number is a whole multiple of a divisor, up to rounding. Nothing
is a multiple of zero. -/
def isMultipleOf (d divisor : Double) : Bool :=
  !divisor.isZero && (d.div divisor).isNearlyIntegral

end Double

end DocSchema

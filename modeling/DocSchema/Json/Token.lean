-- SUMMARY: The tokens of a JSON text, found by a machine that takes one character at a time.
import DocSchema.Value.Basic

/-!
# Tokens

`Token.scan?` folds a machine over the characters of a text. It keeps the tokens
found so far and what it is in the middle of. A string that holds an unpaired
surrogate has no text, and a number too large for a double has no number; the
token is there all the same, since a reader may skip it.
-/

namespace DocSchema

namespace Json

inductive Token where
  | openArray
  | closeArray
  | openObject
  | closeObject
  | comma
  | colon
  | null
  | bool (value : Bool)
  | number (value : Option Number)
  | string (text : Option String)

/-! ## Numbers -/

/-- A power of ten as a double; the powers up to 308 are finite. -/
def tenTo (n : Nat) : Double := .ofRatio false (Double.powerOfTen n) 1

/-- `d` times `10 ^ exponent` by one multiplication or division. Deeper
exponents first go down by 308 at a time; `none` if the result is too large. -/
def scaleByTen : Nat → Double → Int → Option Double
  | 0, d, _ => some d
  | fuel + 1, d, exponent =>
    if exponent.natAbs ≤ 308 then
      if 0 ≤ exponent then
        let scaled := d.mul (tenTo exponent.natAbs)
        if scaled.isFinite then some scaled else none
      else some (d.div (tenTo exponent.natAbs))
    else if d.isZero then some d
    else if 0 ≤ exponent then none
    else scaleByTen fuel (d.div (tenTo 308)) (exponent + 308)

/-- The double of a sign, a significand of 64 bits and a decimal exponent. -/
def doubleOf? (negative : Bool) (significand : Nat) (exponent : Int) : Option Double :=
  let start := Double.ofRatio false significand 1
  -- three steps take any non-zero significand below the smallest double
  let scaled := scaleByTen 4 start (max exponent (-1000))
  scaled.map fun d => if negative then d.neg else d

/-- The digits that fit 64 bits, and the number of digits behind them. -/
def significandOf : List Nat → Nat → Nat × Nat
  | [], acc => (acc, 0)
  | d :: rest, acc =>
    if acc * 10 + d < UInt64.size then significandOf rest (acc * 10 + d) else (acc, rest.length + 1)

def digitsOf (cs : List Char) : List Nat :=
  cs.map fun c => c.toNat - '0'.toNat

/-- Splits off the digits at the front. -/
def spanDigits (cs : List Char) : List Nat × List Char :=
  (digitsOf (cs.takeWhile Char.isDigit), cs.dropWhile Char.isDigit)

/-- An exponent `e5`, `E+5`, `e-5`; no exponent is zero. -/
def exponentOf? (cs : List Char) : Option Int :=
  match cs with
  | [] => some 0
  | mark :: rest =>
    if mark ≠ 'e' ∧ mark ≠ 'E' then none
    else
      let (negative, digits) := match rest with
        | '-' :: digits => (true, digits)
        | '+' :: digits => (false, digits)
        | digits => (false, digits)
      if digits = [] ∨ ¬ digits.all Char.isDigit then none
      else
        let size : Nat := (digitsOf digits).foldl (fun n d => min (10 * n + d) 10000000000) 0
        some (if negative then -(size : Int) else size)

/-- The number that a token's characters denote: `none` if they are no number,
`some none` if the number is too large. A whole number that fits 64 bits is an
integer, any other is a double. -/
def numberOf? (cs : List Char) : Option (Option Number) := do
  let (negative, cs) := match cs with
    | '-' :: rest => (true, rest)
    | rest => (false, rest)
  let (whole, rest) := spanDigits cs
  if whole = [] ∨ (whole.head? = some 0 ∧ 2 ≤ whole.length) then none
  let (significand, dropped) := significandOf whole 0
  match rest with
  | [] =>
    if dropped = 0 ∧ ¬ (negative ∧ (significand = 0 ∨ Double.signBit < significand)) then
      some (some (.int (if negative then -(significand : Int) else significand)))
    else some ((doubleOf? negative significand dropped).bind Number.ofDouble?)
  | '.' :: rest =>
    let (places, rest) := spanDigits rest
    if places = [] then none
    let exponent ← exponentOf? rest
    let (significand, unread) := significandOf places significand
    let shift : Int := dropped - (places.length - unread : Nat)
    some ((doubleOf? negative significand (shift + exponent)).bind Number.ofDouble?)
  | rest =>
    let exponent ← exponentOf? rest
    some ((doubleOf? negative significand (dropped + exponent)).bind Number.ofDouble?)

/-! ## The machine -/

/-- What the machine is in the middle of. Characters of the token under way are
held last first; the text of a string is lost at an unpaired surrogate. -/
inductive Mode where
  | between
  | word (taken : List Char)
  | number (taken : List Char)
  | string (taken : Option (List Char)) (high : Option Nat)
  | backslash (taken : Option (List Char)) (high : Option Nat)
  | hex (taken : Option (List Char)) (high : Option Nat) (missing : Nat) (value : Nat)

structure Machine where
  /-- The tokens found, last first. -/
  found : List Token
  mode : Mode

namespace Machine

def start : Machine := ⟨[], .between⟩

def isBlank (c : Char) : Bool := c = ' ' ∨ c = '\n' ∨ c = '\t' ∨ c = '\r'

def punctuation? : Char → Option Token
  | '[' => some .openArray
  | ']' => some .closeArray
  | '\x7b' => some .openObject
  | '\x7d' => some .closeObject
  | ',' => some .comma
  | ':' => some .colon
  | _ => none

/-- The first character of a token, or a blank. -/
def begin? (found : List Token) (c : Char) : Option Machine :=
  if isBlank c then some ⟨found, .between⟩
  else if c = '"' then some ⟨found, .string (some []) none⟩
  else if c = '-' ∨ c.isDigit then some ⟨found, .number [c]⟩
  else if c.isLower then some ⟨found, .word [c]⟩
  else (punctuation? c).map fun token => ⟨token :: found, .between⟩

def word? (taken : List Char) : Option Token :=
  match String.ofList taken.reverse with
  | "null" => some .null
  | "true" => some (.bool true)
  | "false" => some (.bool false)
  | _ => none

def number? (taken : List Char) : Option Token := (numberOf? taken.reverse).map .number

def isNumberChar (c : Char) : Bool := c.isDigit ∨ c = '.' ∨ c = 'e' ∨ c = 'E' ∨ c = '+' ∨ c = '-'

/-- Adds a character to a string; a high surrogate before it stays unpaired. -/
def push (taken : Option (List Char)) (high : Option Nat) (c : Char) : Mode :=
  .string (if high.isSome then none else taken.map (c :: ·)) none

/-- Adds a 16-bit unit to a string, joining surrogate pairs. -/
def pushUnit (taken : Option (List Char)) (high : Option Nat) (unit : Nat) : Mode :=
  match high with
  | some h =>
    if 0xDC00 ≤ unit ∧ unit < 0xE000 then
      .string (taken.map (Char.ofNat (0x10000 + (h - 0xD800) * 0x400 + (unit - 0xDC00)) :: ·)) none
    else .string none none
  | none =>
    if 0xD800 ≤ unit ∧ unit < 0xDC00 then .string taken (some unit)
    else if 0xDC00 ≤ unit ∧ unit < 0xE000 then .string none none
    else .string (taken.map (Char.ofNat unit :: ·)) none

def escape? : Char → Option Char
  | '"' => some '"'
  | '\\' => some '\\'
  | '/' => some '/'
  | 'b' => some '\x08'
  | 'f' => some '\x0c'
  | 'n' => some '\n'
  | 'r' => some '\r'
  | 't' => some '\t'
  | _ => none

def hexValue? (c : Char) : Option Nat :=
  if c.isDigit then some (c.toNat - '0'.toNat)
  else if 'a' ≤ c ∧ c ≤ 'f' then some (c.toNat - 'a'.toNat + 10)
  else if 'A' ≤ c ∧ c ≤ 'F' then some (c.toNat - 'A'.toNat + 10)
  else none

/-- Takes one character. -/
def step? (m : Machine) (c : Char) : Option Machine :=
  match m.mode with
  | .between => begin? m.found c
  | .word taken =>
    if c.isLower then some ⟨m.found, .word (c :: taken)⟩
    else do begin? ((← word? taken) :: m.found) c
  | .number taken =>
    if isNumberChar c then some ⟨m.found, .number (c :: taken)⟩
    else do begin? ((← number? taken) :: m.found) c
  | .string taken high =>
    if c = '"' then
      let text := if high.isSome then none else taken
      some ⟨.string (text.map fun cs => String.ofList cs.reverse) :: m.found, .between⟩
    else if c = '\\' then some ⟨m.found, .backslash taken high⟩
    else if c.toNat < 32 then none
    else some ⟨m.found, push taken high c⟩
  | .backslash taken high =>
    if c = 'u' then some ⟨m.found, .hex taken high 4 0⟩
    else (escape? c).map fun e => ⟨m.found, push taken high e⟩
  | .hex taken high missing value => do
    let unit := value * 16 + (← hexValue? c)
    let next := if missing = 1 then pushUnit taken high unit
      else .hex taken high (missing - 1) unit
    some ⟨m.found, next⟩

/-- The tokens at the end of the text, first first. -/
def finish? (m : Machine) : Option (List Token) :=
  match m.mode with
  | .between => some m.found.reverse
  | .word taken => (word? taken).map fun token => (token :: m.found).reverse
  | .number taken => (number? taken).map fun token => (token :: m.found).reverse
  | _ => none

end Machine

/-- The tokens of a text. -/
def Token.scan? (text : String) : Option (List Token) := do
  (← text.toList.foldlM Machine.step? Machine.start).finish?

end Json

end DocSchema

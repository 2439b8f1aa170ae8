-- SUMMARY: The written form of an instant: reading timestamps, writing them in UTC.
import DocSchema.Date.Instant

/-!
# Timestamps

Reading takes `YYYY-MM-DD`, a separator (`T`, `t` or a space), `HH:MM:SS`, an
optional fraction and an offset (`Z`, `z` or `±HH:MM`). Second 60 is a leap
second. Writing gives UTC with three digits of milliseconds, cut and not
rounded; years of more than four digits and negative years carry a sign.
-/

namespace DocSchema

namespace Timestamp

/-! ## Writing -/

/-- The digits of a number, filled up with zeros on the left. -/
def padded (width n : Nat) : List Char :=
  let digits := Nat.toDigits 10 n
  List.replicate (width - digits.length) '0' ++ digits

def yearText (year : Int) : List Char :=
  if 0 ≤ year ∧ year ≤ 9999 then padded 4 year.toNat
  else (if year < 0 then '-' else '+') :: padded 4 year.natAbs

/-- The characters of a written instant. -/
def chars (t : Instant) : List Char :=
  let day := CalendarDay.ofDays (t.seconds / 86400)
  let second := (t.seconds % 86400).toNat
  yearText day.year ++ '-' :: padded 2 day.month ++ '-' :: padded 2 day.day ++
    'T' :: padded 2 (second / 3600) ++ ':' :: padded 2 (second / 60 % 60) ++
    ':' :: padded 2 (second % 60 + t.nanos / 1000000000) ++
    '.' :: padded 3 (t.nanos % 1000000000 / 1000000) ++ ['Z']

/-- The instant in UTC, such as `2023-11-14T22:13:20.123Z`. -/
def text (t : Instant) : String := String.ofList (chars t)

/-! ## Reading -/

def digit? (c : Char) : Option Nat :=
  if '0' ≤ c ∧ c ≤ '9' then some (c.toNat - '0'.toNat) else none

/-- The number `n` with `width` more digits behind its own, and the rest. -/
def digitsFrom? (n : Nat) : Nat → List Char → Option (Nat × List Char)
  | 0, cs => some (n, cs)
  | _ + 1, [] => none
  | width + 1, c :: cs => do digitsFrom? (10 * n + (← digit? c)) width cs

/-- A number of exactly `width` digits, and the rest. -/
def number? (width : Nat) (cs : List Char) : Option (Nat × List Char) := digitsFrom? 0 width cs

/-- The rest behind one of the given characters. -/
def skip? (allowed : List Char) : List Char → Option (List Char)
  | [] => none
  | c :: cs => if c ∈ allowed then some cs else none

/-- Nanoseconds of a fraction: nine digits count, further ones are dropped. -/
def fractionNanos (digits : List Nat) : Nat :=
  ((digits ++ List.replicate 9 0).take 9).foldl (fun n d => 10 * n + d) 0

/-- The fraction behind the seconds, if there is one; a point needs a digit. -/
def fraction? : List Char → Option (Nat × List Char)
  | '.' :: cs =>
    let digits := (cs.takeWhile fun c => (digit? c).isSome).filterMap digit?
    if digits = [] then none else some (fractionNanos digits, cs.drop digits.length)
  | cs => some (0, cs)

/-- Seconds that local time is ahead of UTC; the text must end behind it. -/
def offset? : List Char → Option Int
  | ['Z'] | ['z'] => some 0
  | sign :: cs => do
    let factor ← if sign = '+' then some 1 else if sign = '-' ∨ sign = '−' then some (-1) else none
    let (hours, cs) ← number? 2 cs
    let cs ← skip? [':'] cs
    let (minutes, cs) ← number? 2 cs
    if cs = [] ∧ hours ≤ 23 ∧ minutes ≤ 59 then
      some (factor * ((hours * 3600 + minutes * 60 : Nat) : Int))
    else none
  | [] => none

/-- The instant that the characters denote. -/
def ofChars? (cs : List Char) : Option Instant := do
  let (year, cs) ← number? 4 cs
  let cs ← skip? ['-'] cs
  let (month, cs) ← number? 2 cs
  let cs ← skip? ['-'] cs
  let (day, cs) ← number? 2 cs
  let cs ← skip? ['T', 't', ' '] cs
  let (hour, cs) ← number? 2 cs
  let cs ← skip? [':'] cs
  let (minute, cs) ← number? 2 cs
  let cs ← skip? [':'] cs
  let (second, cs) ← number? 2 cs
  let (nanos, cs) ← fraction? cs
  let offset ← offset? cs
  let date : CalendarDay := ⟨year, month, day⟩
  if date.Valid ∧ hour ≤ 23 ∧ minute ≤ 59 ∧ second ≤ 60 then
    let leap := if second = 60 then 1000000000 else 0
    let secondOfDay := ((hour * 3600 + minute * 60 + min second 59 : Nat) : Int)
    some ⟨date.toDays * 86400 + secondOfDay - offset, nanos + leap⟩
  else none

/-- The instant that a text denotes. -/
def read? (text : String) : Option Instant := ofChars? text.toList

end Timestamp

end DocSchema

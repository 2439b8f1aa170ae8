-- SUMMARY: Timestamps read back what was written, and everything that is read can be an instant.
import DocSchema.Proofs.Calendar
import DocSchema.Date.Timestamp
import Mathlib.Algebra.Group.Nat.Defs

/-!
# Written instants

A timestamp is a row of numbers of fixed width with marks between them. Each
number reads back in front of whatever follows (`number?_padded`), so the whole
row does (`ofChars?_fields`), and with the calendar the instant does, cut to
milliseconds (`read?_text`). What a timestamp denotes is always well formed
(`wellFormed_of_read?`), which makes the conditions of `Writable` exact: an
instant reads back from its written form if and only if it is well formed, a
whole number of milliseconds, and in a year of four digits (`read?_text_eq_iff`).
-/

namespace DocSchema

namespace Instant

/-- The year in UTC. -/
def year (t : Instant) : Int := (CalendarDay.ofDays (t.seconds / 86400)).year

/-- Nanoseconds stay below a second, but for a leap second, which goes on from the last second of
a minute. -/
def WellFormed (t : Instant) : Prop :=
  t.nanos < 1000000000 ∨ t.seconds % 60 = 59 ∧ t.nanos < 2000000000

/-- The instant is one that its written form tells all of. -/
structure Writable (t : Instant) : Prop where
  wellFormed : t.WellFormed
  millis : t.nanos % 1000000 = 0
  year : 0 ≤ t.year ∧ t.year ≤ 9999

theorem wellFormed_of_ofMillis? {millis : Int} {t : Instant} (h : ofMillis? millis = some t) :
    t.WellFormed := by
  unfold ofMillis? at h
  dsimp only at h
  split at h
  · cases h
    left
    dsimp only
    omega
  · cases h

end Instant

namespace Timestamp

/-! ## Numbers -/

theorem digit?_of_isDigit {c : Char} (h : c.isDigit = true) :
    digit? c = some (c.toNat - '0'.toNat) :=
  if_pos (Char.isDigit_iff_toNat.mp h)

theorem digit?_le {c : Char} {d : Nat} (h : digit? c = some d) : d ≤ 9 := by
  unfold digit? at h
  split at h
  · next hrange =>
    cases h
    have hlast : c.toNat ≤ 57 := hrange.2
    have hzero : '0'.toNat = 48 := rfl
    omega
  · cases h

theorem digitsFrom?_append {digits : List Char} (h : ∀ c ∈ digits, c.isDigit = true) (n : Nat)
    (rest : List Char) :
    digitsFrom? n digits.length (digits ++ rest) = some (Nat.ofDigitChars 10 digits n, rest) := by
  induction digits generalizing n with
  | nil => rfl
  | cons c cs ih =>
    obtain ⟨hc, hcs⟩ := List.forall_mem_cons.mp h
    rw [List.length_cons, List.cons_append, digitsFrom?, digit?_of_isDigit hc,
      Nat.ofDigitChars_cons]
    exact ih hcs _

theorem isDigit_of_mem_padded {width n : Nat} {c : Char} (h : c ∈ padded width n) :
    c.isDigit = true := by
  rcases List.mem_append.mp h with hzero | hdigit
  · rw [List.eq_of_mem_replicate hzero]
    rfl
  · exact Nat.isDigit_of_mem_toDigits (by omega) (by omega) hdigit

theorem ofDigitChars_padded (width n : Nat) : Nat.ofDigitChars 10 (padded width n) 0 = n := by
  have hzeros (k : Nat) : Nat.ofDigitChars 10 (List.replicate k '0') 0 = 0 := by
    induction k with
    | zero => rfl
    | succ k ih =>
      rw [List.replicate_succ, Nat.ofDigitChars_cons]
      exact ih
  unfold padded
  rw [Nat.ofDigitChars_append, hzeros, Nat.ofDigitChars_toDigits (by omega) (by omega)]

theorem length_padded {width n : Nat} (hwidth : 0 < width) (h : n < 10 ^ width) :
    (padded width n).length = width := by
  have hdigits := (Nat.length_toDigits_le_iff (by omega) hwidth).mpr h
  unfold padded
  rw [List.length_append, List.length_replicate]
  omega

/-- A number of fixed width reads back, whatever follows. -/
theorem number?_padded {width n : Nat} (hwidth : 0 < width) (h : n < 10 ^ width)
    (rest : List Char) : number? width (padded width n ++ rest) = some (n, rest) := by
  have hdigits : digitsFrom? 0 (padded width n).length (padded width n ++ rest) =
      some (Nat.ofDigitChars 10 (padded width n) 0, rest) :=
    digitsFrom?_append (fun c hc => isDigit_of_mem_padded hc) 0 rest
  rwa [length_padded hwidth h, ofDigitChars_padded] at hdigits

/-! ## Fractions -/

theorem fractionNanos_map {digits : List Char} (h : digits.length ≤ 9) :
    fractionNanos (digits.map fun c => c.toNat - '0'.toNat) =
      Nat.ofDigitChars 10 digits 0 * 10 ^ (9 - digits.length) := by
  have hzeros (n k : Nat) :
      (List.replicate k 0).foldl (fun n d => 10 * n + d) n = n * 10 ^ k := by
    induction k generalizing n with
    | zero => simp
    | succ k ih => rw [List.replicate_succ, List.foldl_cons, ih, Nat.pow_succ]; grind
  have htake : ((digits.map fun c : Char => c.toNat - '0'.toNat) ++ List.replicate 9 0).take 9 =
      (digits.map fun c : Char => c.toNat - '0'.toNat) ++
        List.replicate (9 - digits.length) 0 := by
    rw [List.take_append, List.take_of_length_le (by simpa using h), List.take_replicate,
      List.length_map, Nat.min_eq_left (by omega)]
  rw [fractionNanos, htake, List.foldl_append, hzeros, List.foldl_map]
  rfl

theorem filterMap_digit? {digits : List Char} (h : ∀ c ∈ digits, c.isDigit = true) :
    digits.filterMap digit? = digits.map fun c => c.toNat - '0'.toNat := by
  induction digits with
  | nil => rfl
  | cons c cs ih =>
    obtain ⟨hc, hcs⟩ := List.forall_mem_cons.mp h
    rw [List.filterMap_cons, digit?_of_isDigit hc, List.map_cons, ih hcs]

/-- A fraction ends where the digits do. -/
theorem fraction?_append {digits rest : List Char} (h : ∀ c ∈ digits, c.isDigit = true)
    (hne : digits ≠ []) (hlength : digits.length ≤ 9)
    (hrest : rest.takeWhile (fun c => (digit? c).isSome) = []) :
    fraction? ('.' :: (digits ++ rest)) =
      some (Nat.ofDigitChars 10 digits 0 * 10 ^ (9 - digits.length), rest) := by
  have htake : (digits ++ rest).takeWhile (fun c => (digit? c).isSome) = digits := by
    rw [List.takeWhile_append_of_pos fun c hc => by rw [digit?_of_isDigit (h c hc)]; rfl,
      hrest, List.append_nil]
  rw [fraction?, htake, filterMap_digit? h, if_neg (by simpa using hne),
    fractionNanos_map hlength, List.length_map, List.drop_left]

theorem fractionNanos_lt {digits : List Nat} (h : ∀ d ∈ digits, d ≤ 9) :
    fractionNanos digits < 1000000000 := by
  have hfold (ds : List Nat) (hds : ∀ d ∈ ds, d ≤ 9) (n : Nat) :
      ds.foldl (fun n d => 10 * n + d) n < (n + 1) * 10 ^ ds.length := by
    induction ds generalizing n with
    | nil => simp
    | cons d ds ih =>
      obtain ⟨hd, hrest⟩ := List.forall_mem_cons.mp hds
      calc ds.foldl (fun n d => 10 * n + d) (10 * n + d)
        _ < (10 * n + d + 1) * 10 ^ ds.length := ih hrest _
        _ ≤ (n + 1) * 10 * 10 ^ ds.length := Nat.mul_le_mul_right _ (by omega)
        _ = (n + 1) * 10 ^ (ds.length + 1) := by rw [Nat.pow_succ, Nat.mul_assoc, Nat.mul_comm 10]
  have hlength : ((digits ++ List.replicate 9 0).take 9).length = 9 := by
    rw [List.length_take, List.length_append, List.length_replicate]
    omega
  have hdigits : ∀ d ∈ (digits ++ List.replicate 9 0).take 9, d ≤ 9 := by
    intro d hd
    rcases List.mem_append.mp (List.mem_of_mem_take hd) with hd | hd
    · exact h d hd
    · rw [List.eq_of_mem_replicate hd]
      omega
  have hbound := hfold _ hdigits 0
  rwa [hlength] at hbound

theorem fraction?_lt {cs rest : List Char} {nanos : Nat} (h : fraction? cs = some (nanos, rest)) :
    nanos < 1000000000 := by
  unfold fraction? at h
  split at h
  · dsimp only at h
    split at h
    · cases h
    · cases h
      refine fractionNanos_lt fun d hd => ?_
      obtain ⟨c, -, hc⟩ := List.mem_filterMap.mp hd
      exact digit?_le hc
  · cases h
    omega

/-! ## Offsets -/

/-- Offsets are whole minutes. -/
theorem offset?_mod {cs : List Char} {offset : Int} (h : offset? cs = some offset) :
    offset % 60 = 0 := by
  unfold offset? at h
  split at h
  · cases h; rfl
  · cases h; rfl
  · next sign cs _ _ =>
    -- Both signs go on with the same two numbers.
    have minutes (factor : Int)
        (h : ((number? 2 cs).bind fun hours => (skip? [':'] hours.2).bind fun cs =>
          (number? 2 cs).bind fun minutes =>
            if minutes.2 = [] ∧ hours.1 ≤ 23 ∧ minutes.1 ≤ 59 then
              some (factor * ((hours.1 * 3600 + minutes.1 * 60 : Nat) : Int))
            else none) = some offset) : offset % 60 = 0 := by
      simp only [Option.bind_eq_some_iff] at h
      obtain ⟨hours, -, rest, -, minutes, -, h⟩ := h
      split at h
      · cases h
        exact Int.emod_eq_zero_of_dvd (Int.dvd_mul_of_dvd_right (by omega))
      · cases h
    simp only [Option.bind_eq_bind] at h
    split at h
    · exact minutes _ h
    · split at h
      · exact minutes _ h
      · cases h
  · cases h

/-! ## Instants -/

/-- A timestamp is read field by field, and each reads on where the one before it stopped. -/
theorem ofChars?_of_numbers
    {cs csMonth csDay csHour csMinute csSecond csFraction csOffset : List Char}
    {year month day hour minute second nanos : Nat} {offset : Int}
    (hyear : number? 4 cs = some (year, '-' :: csMonth))
    (hmonth : number? 2 csMonth = some (month, '-' :: csDay))
    (hday : number? 2 csDay = some (day, 'T' :: csHour))
    (hhour : number? 2 csHour = some (hour, ':' :: csMinute))
    (hminute : number? 2 csMinute = some (minute, ':' :: csSecond))
    (hsecond : number? 2 csSecond = some (second, csFraction))
    (hfraction : fraction? csFraction = some (nanos, csOffset))
    (hoffset : offset? csOffset = some offset)
    (hdate : (⟨year, month, day⟩ : CalendarDay).Valid)
    (htime : hour ≤ 23 ∧ minute ≤ 59 ∧ second ≤ 60) :
    ofChars? cs =
      some ⟨(⟨year, month, day⟩ : CalendarDay).toDays * 86400 +
          (hour * 3600 + minute * 60 + min second 59 : Nat) - offset,
        nanos + if second = 60 then 1000000000 else 0⟩ := by
  have skip (mark : Char) (marks rest : List Char) :
      skip? (mark :: marks) (mark :: rest) = some rest := if_pos List.mem_cons_self
  unfold ofChars?
  simp only [hyear, hmonth, hday, hhour, hminute, hsecond, hfraction, hoffset, skip,
    Option.bind_eq_bind, Option.bind_some]
  exact if_pos ⟨hdate, htime⟩

theorem fraction?_padded {millis : Nat} (h : millis < 10 ^ 3) :
    fraction? ('.' :: (padded 3 millis ++ ['Z'])) = some (millis * 1000000, ['Z']) := by
  have hlength : (padded 3 millis).length = 3 := length_padded (by omega) h
  have hne : padded 3 millis ≠ [] := List.ne_nil_of_length_pos (by omega)
  have hunit : 10 ^ (9 - 3) = 1000000 := rfl
  rw [fraction?_append (fun c hc => isDigit_of_mem_padded hc) hne (by omega) rfl, hlength,
    ofDigitChars_padded, hunit]

/-- The row of fields reads back. -/
theorem ofChars?_fields (date : CalendarDay) (year hour minute second millis : Nat)
    (hyear : date.year = year) (hdigits : year < 10 ^ 4) (hdate : date.Valid) (hhour : hour ≤ 23)
    (hminute : minute ≤ 59) (hsecond : second ≤ 60) (hmillis : millis < 10 ^ 3) :
    ofChars? (padded 4 year ++ '-' :: padded 2 date.month ++ '-' :: padded 2 date.day ++
      'T' :: padded 2 hour ++ ':' :: padded 2 minute ++ ':' :: padded 2 second ++
      '.' :: padded 3 millis ++ ['Z']) =
      some ⟨date.toDays * 86400 + (hour * 3600 + minute * 60 + min second 59 : Nat),
        millis * 1000000 + if second = 60 then 1000000000 else 0⟩ := by
  have hmonth : date.month < 10 ^ 2 := by
    have hlast := hdate.2.1
    omega
  have hday : date.day < 10 ^ 2 := by
    have hlast := hdate.2.2.2
    have hlength := CalendarDay.daysInMonth_le date.year date.month
    omega
  have two {n : Nat} (h : n < 10 ^ 2) (rest : List Char) :
      number? 2 (padded 2 n ++ rest) = some (n, rest) := number?_padded (by omega) h rest
  have hfields : (⟨year, date.month, date.day⟩ : CalendarDay) = date := by rw [← hyear]
  simp only [List.append_assoc, List.cons_append]
  rw [ofChars?_of_numbers (number?_padded (by omega) hdigits _) (two hmonth _) (two hday _)
    (two (by omega) _) (two (by omega) _) (two (by omega) _) (fraction?_padded hmillis) rfl
    (hfields.symm ▸ hdate) ⟨hhour, hminute, hsecond⟩, hfields, Int.sub_zero]

/-- An instant reads back from its written form cut to milliseconds. -/
theorem read?_text {t : Instant} (h : t.WellFormed) (hyear : 0 ≤ t.year ∧ t.year ≤ 9999) :
    read? (text t) = some ⟨t.seconds, t.nanos / 1000000 * 1000000⟩ := by
  unfold Instant.WellFormed at h
  have hfields := ofChars?_fields (CalendarDay.ofDays (t.seconds / 86400)) t.year.toNat
    ((t.seconds % 86400).toNat / 3600) ((t.seconds % 86400).toNat / 60 % 60)
    ((t.seconds % 86400).toNat % 60 + t.nanos / 1000000000) (t.nanos % 1000000000 / 1000000)
    (by rw [← Instant.year]; omega) (by omega) (CalendarDay.ofDays_valid _) (by omega) (by omega)
    (by omega) (by omega)
  have hyearText : yearText t.year = padded 4 t.year.toNat := if_pos hyear
  rw [CalendarDay.toDays_ofDays, ← hyearText] at hfields
  rw [read?, text, String.toList_ofList, chars]
  refine Eq.trans hfields ?_
  rw [Option.some.injEq, Instant.mk.injEq]
  constructor
  · omega
  · split <;> omega

/-- A year that does not have four digits is written with a sign, which is not read. -/
theorem read?_text_of_year {t : Instant} (h : ¬ (0 ≤ t.year ∧ t.year ≤ 9999)) :
    read? (text t) = none := by
  have hsign : digit? (if t.year < 0 then '-' else '+') = none := by split <;> rfl
  have hyearText : yearText t.year =
      (if t.year < 0 then '-' else '+') :: padded 4 t.year.natAbs := if_neg h
  unfold Instant.year at hsign hyearText
  rw [read?, text, String.toList_ofList, chars, hyearText]
  simp only [List.cons_append, ofChars?, number?, digitsFrom?, hsign, Option.bind_eq_bind,
    Option.bind_none]

/-- What a timestamp denotes is well formed. -/
theorem wellFormed_of_read? {s : String} {t : Instant} (h : read? s = some t) : t.WellFormed := by
  unfold read? ofChars? at h
  simp only [Option.bind_eq_bind, Option.bind_eq_some_iff] at h
  obtain ⟨⟨year, cs⟩, -, cs, -, ⟨month, cs⟩, -, cs, -, ⟨day, cs⟩, -, cs, -, ⟨hour, cs⟩, -, cs, -,
    ⟨minute, cs⟩, -, cs, -, ⟨second, cs⟩, -, ⟨nanos, cs⟩, hfraction, offset, hoffset, h⟩ := h
  have hnanos := fraction?_lt hfraction
  have hminutes := offset?_mod hoffset
  dsimp only at h
  split at h
  · cases h
    unfold Instant.WellFormed
    dsimp only
    split
    · right
      constructor <;> omega
    · left
      omega
  · cases h

/-- An instant reads back from its written form if and only if it is writable. -/
theorem read?_text_eq_iff {t : Instant} : read? (text t) = some t ↔ t.Writable := by
  constructor
  · intro h
    have hformed := wellFormed_of_read? h
    by_cases hyear : 0 ≤ t.year ∧ t.year ≤ 9999
    · rw [read?_text hformed hyear, Option.some.injEq] at h
      have hnanos : t.nanos / 1000000 * 1000000 = t.nanos := congrArg Instant.nanos h
      exact ⟨hformed, by omega, hyear⟩
    · rw [read?_text_of_year hyear] at h
      cases h
  · intro h
    have hmillis := h.millis
    rw [read?_text h.wellFormed h.year, Option.some.injEq]
    have hnanos : t.nanos / 1000000 * 1000000 = t.nanos := by omega
    rw [hnanos]

end Timestamp

end DocSchema

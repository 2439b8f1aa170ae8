-- SUMMARY: Laws of doubles: the order of numbers, and the way from a double to an integer and back.
import DocSchema.Value.Compare
import Mathlib.Algebra.Group.Nat.Defs

/-!
# Laws of doubles

Among doubles that are numbers, order and equality are those of the keys. A
validator shows a whole double as an integer; reading the integer gives a double
of the same key, and the very same double unless it is a zero. What equality of
documents overlooks is the sign of a zero, and nothing else.
-/

namespace DocSchema

namespace Double

/-! ## Magnitudes -/

theorem magnitude_lt (d : Double) : d.magnitude < signBit := Nat.mod_lt _ (by decide)

theorem toNat_bits_ofMagnitude (negative : Bool) (magnitude : Nat) :
    (ofMagnitude negative magnitude).bits.toNat =
      magnitude % signBit + if negative then signBit else 0 := by
  unfold ofMagnitude
  have hlt : magnitude % signBit < signBit := Nat.mod_lt _ (by decide)
  simp only [UInt64.toNat_ofNat']
  apply Nat.mod_eq_of_lt
  unfold signBit at hlt ⊢
  split <;> omega

theorem magnitude_ofMagnitude (negative : Bool) {m : Nat} (h : m < signBit) :
    (ofMagnitude negative m).magnitude = m := by
  unfold magnitude
  rw [toNat_bits_ofMagnitude]
  unfold signBit at h ⊢
  split <;> omega

/-- A double is its sign and its magnitude. -/
theorem ofMagnitude_magnitude (d : Double) : ofMagnitude d.isNegative d.magnitude = d := by
  have hbits : (ofMagnitude d.isNegative d.magnitude).bits.toNat = d.bits.toNat := by
    rw [toNat_bits_ofMagnitude, Nat.mod_eq_of_lt d.magnitude_lt]
    have hbound := d.bits.toNat_lt
    unfold isNegative magnitude signBit
    split <;> simp_all
    omega
  cases d
  exact congrArg Double.mk (UInt64.toNat_inj.mp hbits)

/-! ## Order -/

theorem isNaN_of_isFinite {d : Double} (h : d.isFinite = true) : d.isNaN = false := by
  simp only [isFinite, isNaN, decide_eq_true_eq, decide_eq_false_iff_not] at *
  omega

theorem lt_iff {a b : Double} (ha : a.isNaN = false) (hb : b.isNaN = false) :
    a.lt b = true ↔ a.key < b.key := by
  simp [lt, ha, hb]

theorem le_iff {a b : Double} (ha : a.isNaN = false) (hb : b.isNaN = false) :
    a.le b = true ↔ a.key ≤ b.key := by
  simp [le, ha, hb]

theorem beq_iff {a b : Double} (ha : a.isNaN = false) (hb : b.isNaN = false) :
    a.beq b = true ↔ a.key = b.key := by
  simp [beq, ha, hb]

theorem beq_iff' {a b : Double} :
    a.beq b = true ↔ a.isNaN = false ∧ b.isNaN = false ∧ a.key = b.key := by
  simp [beq, and_assoc]

theorem beq_symm {a b : Double} (h : a.beq b = true) : b.beq a = true := by
  rw [beq_iff'] at h ⊢
  exact ⟨h.2.1, h.1, h.2.2.symm⟩

theorem beq_trans {a b c : Double} (hab : a.beq b = true) (hbc : b.beq c = true) :
    a.beq c = true := by
  rw [beq_iff'] at hab hbc ⊢
  exact ⟨hab.1, hbc.2.1, hab.2.2.trans hbc.2.2⟩

theorem key_eq_zero_iff {d : Double} : d.key = 0 ↔ d.isZero = true := by
  unfold key isZero
  rw [decide_eq_true_eq]
  split <;> omega

/-- Doubles of one key are the same unless they are zeros. -/
theorem eq_of_key_eq {a b : Double} (h : a.key = b.key) (nonzero : b.key ≠ 0) : a = b := by
  have hsame : a.isNegative = b.isNegative ∧ a.magnitude = b.magnitude := by
    unfold key at h nonzero
    cases hna : a.isNegative <;> cases hnb : b.isNegative <;>
      simp only [hna, hnb, if_true, if_false, Bool.false_eq_true, reduceCtorEq, false_and,
        true_and] at h nonzero ⊢ <;> omega
  rw [← ofMagnitude_magnitude a, ← ofMagnitude_magnitude b, hsame.1, hsame.2]

/-! ## Rounding -/

theorem isNaN_ofRatio (negative : Bool) (num den : Nat) :
    (ofRatio negative num den).isNaN = false := by
  unfold ofRatio
  split
  · simp only [isNaN, decide_eq_false_iff_not]
    rw [magnitude_ofMagnitude _ (by decide)]
    decide
  · simp only [isNaN, decide_eq_false_iff_not, Nat.not_lt]
    rw [magnitude_ofMagnitude]
    · exact Nat.min_le_right _ _
    · exact Nat.lt_of_le_of_lt (Nat.min_le_right _ _) (by decide)

/-! ## Whole doubles -/

/-- A whole double below `2 ^ 53` that is not zero has the bits of a normal
number: its magnitude is given by the shift that brings the integer to 53 bits. -/
structure Shifted (magnitude n k : Nat) : Prop where
  shift : k ≤ 52
  lower : hiddenBit ≤ n * 2 ^ k
  upper : n * 2 ^ k < 2 * hiddenBit
  magnitude : magnitude = (1074 - k) * hiddenBit + n * 2 ^ k

theorem Shifted.log2 {m n k : Nat} (h : Shifted m n k) : n.log2 = 52 - k := by
  have hk := h.shift
  have hpow : 2 ^ (52 - k) * 2 ^ k = hiddenBit := by
    rw [← Nat.pow_add, Nat.sub_add_cancel hk]
    rfl
  have hpos : 0 < 2 ^ k := Nat.pow_pos (by decide)
  have hlow : 2 ^ (52 - k) ≤ n := by
    have := h.lower
    rw [← hpow] at this
    exact Nat.le_of_mul_le_mul_right this hpos
  have hhigh : n < 2 ^ (52 - k + 1) := by
    have := h.upper
    rw [← hpow, ← Nat.mul_assoc] at this
    rw [Nat.pow_succ, Nat.mul_comm _ 2]
    exact Nat.lt_of_mul_lt_mul_right this
  have hn : n ≠ 0 := by
    have : 0 < 2 ^ (52 - k) := Nat.pow_pos (by decide)
    omega
  have h1 : 52 - k ≤ n.log2 := (Nat.le_log2 hn).mpr hlow
  have h2 : n.log2 < 52 - k + 1 := (Nat.log2_lt hn).mpr hhigh
  omega

theorem scaleByPowerOfTwo_neg (n k : Nat) :
    scaleByPowerOfTwo n 1 (-(k : Int)) = (n * 2 ^ k, 1) := by
  unfold scaleByPowerOfTwo powerOfTwo
  cases k with
  | zero => simp
  | succ k =>
    rw [if_neg (by omega)]
    simp only [Int.neg_neg, Int.toNat_natCast]
    rfl

theorem ratioExponent_of_shifted {m n k : Nat} (h : Shifted m n k) :
    ratioExponent n 1 = -(k : Int) := by
  have hk := h.shift
  have hguess : (n.log2 : Int) - (Nat.log2 1 : Int) - 52 = -(k : Int) := by
    rw [h.log2, show Nat.log2 1 = 0 from rfl]
    omega
  unfold ratioExponent
  rw [hguess]
  simp only [scaleByPowerOfTwo_neg, Nat.div_one]
  rw [if_neg (Nat.not_lt.mpr h.lower)]
  omega

theorem ofRatio_of_shifted (negative : Bool) {m n k : Nat} (h : Shifted m n k)
    (hm : m < infiniteMagnitude) : ofRatio negative n 1 = ofMagnitude negative m := by
  have hn : n ≠ 0 := by
    rintro rfl
    have := h.lower
    simp [hiddenBit] at this
  have hnearest : divNearestEven (n * 2 ^ k) 1 = n * 2 ^ k := by
    simp [divNearestEven, Nat.mod_one]
  have hk := h.shift
  have hexp : (-(k : Int) + 1074).toNat = 1074 - k := by omega
  unfold ofRatio
  rw [if_neg hn, ratioExponent_of_shifted h]
  simp only [scaleByPowerOfTwo_neg, hnearest, hexp, ← h.magnitude]
  rw [Nat.min_eq_left (Nat.le_of_lt hm)]

/-- What `toInt?` says of the bits. -/
theorem toInt?_eq_some {d : Double} {i : Int} (h : d.toInt? = some i) :
    d.isFinite = true ∧ i = (if d.isNegative then -(i.natAbs : Int) else i.natAbs) ∧
      (0 ≤ d.exponent ∧ i.natAbs = d.significand * 2 ^ d.exponent.toNat ∨
        d.exponent < 0 ∧ d.significand = i.natAbs * 2 ^ (-d.exponent).toNat) := by
  unfold toInt? at h
  split at h
  · cases h
  · next hfinite =>
    have hsigned (n : Nat) (hi : (if d.isNegative then -(n : Int) else n) = i) :
        i.natAbs = n ∧ i = (if d.isNegative then -(n : Int) else n) := by
      subst hi
      split <;> simp
    refine ⟨by simpa using hfinite, ?_⟩
    dsimp only at h
    split at h
    · next hexp =>
      obtain ⟨hn, hi⟩ := hsigned _ (Option.some.inj h)
      exact ⟨by rw [hn]; exact hi, .inl ⟨hexp, hn⟩⟩
    · next hexp =>
      split at h
      · next hmod =>
        obtain ⟨hn, hi⟩ := hsigned _ (Option.some.inj h)
        refine ⟨by rw [hn]; exact hi, .inr ⟨Int.not_le.mp hexp, ?_⟩⟩
        rw [hn]
        exact (Nat.div_mul_cancel (Nat.dvd_of_mod_eq_zero hmod)).symm
      · cases h

theorem two_pow_le_of_le {k l : Nat} (h : k ≤ l) : 2 ^ k ≤ 2 ^ l :=
  Nat.pow_le_pow_right (by decide) h

theorem shifted_of_toInt? {d : Double} {i : Int} (h : d.toInt? = some i)
    (hsmall : i.natAbs < 9000000000000000) (hzero : i ≠ 0) :
    ∃ k, Shifted d.magnitude i.natAbs k := by
  obtain ⟨hfinite, -, hvalue⟩ := toInt?_eq_some h
  have hpos : 0 < i.natAbs := by omega
  by_cases hnormal : d.magnitude < hiddenBit
  · -- A subnormal number is smaller than one.
    have hsig : d.significand = d.magnitude := if_pos hnormal
    have hexp : d.exponent = -1074 := by
      unfold exponent
      rw [Nat.div_eq_of_lt hnormal]
      rfl
    rcases hvalue with ⟨hge, -⟩ | ⟨-, hs⟩
    · omega
    · have h53 : (2 : Nat) ^ 53 ≤ 2 ^ (-d.exponent).toNat := two_pow_le_of_le (by omega)
      have hle : 2 ^ (-d.exponent).toNat ≤ i.natAbs * 2 ^ (-d.exponent).toNat :=
        Nat.le_mul_of_pos_left _ hpos
      unfold hiddenBit at hnormal
      omega
  · have hsig : d.significand = d.magnitude % hiddenBit + hiddenBit := if_neg hnormal
    have hlow : hiddenBit ≤ d.significand := by rw [hsig]; exact Nat.le_add_left _ _
    have hhigh : d.significand < 2 * hiddenBit := by
      have : d.magnitude % hiddenBit < hiddenBit := Nat.mod_lt _ (by decide)
      omega
    have hquot : 1 ≤ d.magnitude / hiddenBit := by
      rw [Nat.le_div_iff_mul_le (by decide)]
      omega
    have hsplit : hiddenBit * (d.magnitude / hiddenBit) + d.magnitude % hiddenBit = d.magnitude :=
      Nat.div_add_mod _ _
    have hexp : d.exponent = (d.magnitude / hiddenBit : Nat) - 1075 := by
      unfold exponent
      rw [Nat.max_eq_left hquot]
    have shifted {k : Nat} (hs : d.significand = i.natAbs * 2 ^ k)
        (hk : d.exponent = -(k : Int)) : Shifted d.magnitude i.natAbs k := by
      have hshift : k ≤ 52 := by
        refine Nat.le_of_not_lt fun hlt => ?_
        have h53 : (2 : Nat) ^ 53 ≤ 2 ^ k := two_pow_le_of_le hlt
        have hle : 2 ^ k ≤ i.natAbs * 2 ^ k := Nat.le_mul_of_pos_left _ hpos
        unfold hiddenBit at hhigh
        omega
      refine ⟨hshift, by omega, by omega, ?_⟩
      have hplace : d.magnitude / hiddenBit = 1074 - k + 1 := by omega
      rw [hplace, Nat.mul_comm, Nat.add_mul] at hsplit
      omega
    rcases hvalue with ⟨hge, hn⟩ | ⟨hlt, hs⟩
    · -- Any larger exponent takes the number past `2 ^ 53`.
      have hone : d.exponent.toNat = 0 := by
        refine Nat.eq_zero_of_not_pos fun hlt => ?_
        have h2 : (2 : Nat) ^ 1 ≤ 2 ^ d.exponent.toNat := two_pow_le_of_le hlt
        have hle := Nat.mul_le_mul hlow h2
        unfold hiddenBit at hle
        omega
      exact ⟨0, shifted (by rw [hn, hone]; simp) (by omega)⟩
    · exact ⟨(-d.exponent).toNat, shifted hs (by omega)⟩

theorem ofInt_of_toInt? {d : Double} {i : Int} (h : d.toInt? = some i)
    (hsmall : i.natAbs < 9000000000000000) (hzero : i ≠ 0) : ofInt i = d := by
  obtain ⟨k, hk⟩ := shifted_of_toInt? h hsmall hzero
  obtain ⟨hfinite, hsign, -⟩ := toInt?_eq_some h
  have hneg : decide (i < 0) = d.isNegative := by
    cases hd : d.isNegative with
    | false =>
      rw [hd, if_neg Bool.false_ne_true] at hsign
      exact decide_eq_false (by omega)
    | true =>
      rw [hd, if_pos rfl] at hsign
      exact decide_eq_true (by omega)
  unfold ofInt
  rw [ofRatio_of_shifted _ hk (by simpa [isFinite] using hfinite), hneg, ofMagnitude_magnitude]

theorem key_of_toInt?_zero {d : Double} (h : d.toInt? = some 0) : d.key = 0 := by
  obtain ⟨-, -, hvalue⟩ := toInt?_eq_some h
  have hsig : d.significand = 0 := by
    rcases hvalue with ⟨-, hn⟩ | ⟨-, hs⟩
    · have hpos : 2 ^ d.exponent.toNat ≠ 0 := Nat.ne_of_gt (Nat.pow_pos (by decide))
      exact (Nat.mul_eq_zero.mp hn.symm).resolve_right hpos
    · simpa using hs
  have hmag : d.magnitude = 0 := by
    unfold significand at hsig
    split at hsig
    · exact hsig
    · simp [hiddenBit] at hsig
  simp [key, hmag]

end Double

namespace Number

theorem isNaN_toDouble (n : Number) : n.toDouble.isNaN = false := by
  cases n with
  | int i => exact Double.isNaN_ofRatio _ _ _
  | double d finite => exact Double.isNaN_of_isFinite finite

theorem isFinite_of_ofBound? {d : Double} {n : Number} (h : ofBound? d = some n) :
    d.isFinite = true := by
  have hofDouble {n : Number} (h : ofDouble? d = some n) : d.isFinite = true := by
    unfold ofDouble? at h
    split at h
    · assumption
    · cases h
  unfold ofBound? at h
  split at h
  · next hint => exact (Double.toInt?_eq_some hint).1
  · exact hofDouble h

/-- The number shown for a bound stands at the same place as the bound. -/
theorem key_toDouble_of_ofBound? {d : Double} {n : Number} (h : ofBound? d = some n) :
    n.toDouble.key = d.key := by
  have hofDouble {n : Number} (h : ofDouble? d = some n) : n.toDouble.key = d.key := by
    unfold ofDouble? at h
    split at h
    · cases h; rfl
    · cases h
  unfold ofBound? at h
  split at h
  · next i hint =>
    split at h
    · next hsmall =>
      cases h
      by_cases hzero : i = 0
      · subst hzero
        rw [Double.key_of_toInt?_zero hint]
        rfl
      · exact congrArg Double.key (Double.ofInt_of_toInt? hint hsmall hzero)
    · exact hofDouble h
  · exact hofDouble h

end Number

/-! ## Signs of zeros -/

/-- The double without the sign that a zero may have. -/
def Double.withoutZeroSign (d : Double) : Double := if d.isZero then .zero else d

theorem Double.isFinite_withoutZeroSign {d : Double} (h : d.isFinite = true) :
    d.withoutZeroSign.isFinite = true := by
  unfold withoutZeroSign
  split
  · decide
  · exact h

theorem Double.key_eq_iff {a b : Double} :
    a.key = b.key ↔ a.withoutZeroSign = b.withoutZeroSign := by
  have hzero : Double.zero.isZero = true := by decide
  unfold withoutZeroSign
  by_cases hb : b.isZero = true
  · rw [if_pos hb, key_eq_zero_iff.mpr hb, key_eq_zero_iff]
    split
    · next ha => exact iff_of_true ha rfl
    · next ha => exact iff_of_false ha fun heq => ha (heq ▸ hzero)
  · rw [if_neg hb]
    constructor
    · intro h
      obtain rfl := eq_of_key_eq h fun hkey => hb (key_eq_zero_iff.mp hkey)
      exact if_neg hb
    · split
      · exact fun heq => (hb (heq ▸ hzero)).elim
      · exact congrArg key

/-- The number without the sign that a zero may have. -/
def Number.withoutZeroSign : Number → Number
  | .int i => .int i
  | .double d finite => .double d.withoutZeroSign (Double.isFinite_withoutZeroSign finite)

theorem Number.beq_iff {a b : Number} :
    a.beq b = true ↔ a.withoutZeroSign = b.withoutZeroSign := by
  cases a with
  | int i => cases b <;> simp [beq, withoutZeroSign]
  | double d hd =>
    cases b with
    | int j => simp [beq, withoutZeroSign]
    | double e he =>
      rw [withoutZeroSign, withoutZeroSign, double.injEq, ← Double.key_eq_iff]
      exact Double.beq_iff (Double.isNaN_of_isFinite hd) (Double.isNaN_of_isFinite he)

namespace Value

mutual
/-- The value without the signs that zeros in it may have. -/
def withoutZeroSigns : Value → Value
  | .number n => .number n.withoutZeroSign
  | .array items => .array (itemsWithoutZeroSigns items)
  | .object fields => .object (fieldsWithoutZeroSigns fields)
  | v => v

def itemsWithoutZeroSigns : List Value → List Value
  | [] => []
  | v :: rest => v.withoutZeroSigns :: itemsWithoutZeroSigns rest

def fieldsWithoutZeroSigns : List (String × Value) → List (String × Value)
  | [] => []
  | (name, v) :: rest => (name, v.withoutZeroSigns) :: fieldsWithoutZeroSigns rest
end

mutual
/-- Values are equal if they are the same but for the signs of zeros. -/
theorem beq_iff : ∀ {v w : Value}, v.beq w = true ↔ v.withoutZeroSigns = w.withoutZeroSigns
  | .number a, .number b => by
    rw [withoutZeroSigns, withoutZeroSigns, number.injEq]
    exact Number.beq_iff
  | .array xs, .array ys => by
    rw [withoutZeroSigns, withoutZeroSigns, array.injEq]
    exact beqItems_iff
  | .object xs, .object ys => by
    rw [withoutZeroSigns, withoutZeroSigns, object.injEq]
    exact beqFields_iff
  | .null, w | .bool _, w | .string _, w => by
    cases w <;> simp [beq, withoutZeroSigns]
  | .number _, .null | .number _, .bool _ | .number _, .string _ | .number _, .array _
    | .number _, .object _ | .array _, .null | .array _, .bool _ | .array _, .number _
    | .array _, .string _ | .array _, .object _ | .object _, .null | .object _, .bool _
    | .object _, .number _ | .object _, .string _ | .object _, .array _ => by
    simp [beq, withoutZeroSigns]

theorem beqItems_iff : ∀ {xs ys : List Value},
    beqItems xs ys = true ↔ itemsWithoutZeroSigns xs = itemsWithoutZeroSigns ys
  | [], [] => by simp [beqItems]
  | [], _ :: _ | _ :: _, [] => by simp [beqItems, itemsWithoutZeroSigns]
  | _ :: _, _ :: _ => by
    rw [beqItems, Bool.and_eq_true, beq_iff, beqItems_iff, itemsWithoutZeroSigns,
      itemsWithoutZeroSigns, List.cons.injEq]

theorem beqFields_iff : ∀ {xs ys : List (String × Value)},
    beqFields xs ys = true ↔ fieldsWithoutZeroSigns xs = fieldsWithoutZeroSigns ys
  | [], [] => by simp [beqFields]
  | [], _ :: _ | _ :: _, [] => by simp [beqFields, fieldsWithoutZeroSigns]
  | (_, _) :: _, (_, _) :: _ => by
    rw [beqFields, Bool.and_eq_true, Bool.and_eq_true, beq_iff_eq, beq_iff, beqFields_iff,
      fieldsWithoutZeroSigns, fieldsWithoutZeroSigns, List.cons.injEq, Prod.mk.injEq]
end

/-! ## Values alike -/

/-- Two scalars that are both alike a third value are alike. -/
theorem alike_of_alike {a b v : Value} (ha : a.isScalar = true) (hb : b.isScalar = true)
    (hav : a.alike v = true) (hbv : b.alike v = true) : a.alike b = true := by
  cases a <;> cases v <;> cases b <;>
    simp_all [alike, isScalar, isObject, isArray, object?, array?, BEq.beq, beq]
  exact Double.beq_trans hav (Double.beq_symm hbv)

/-- Equal values are alike. -/
theorem alike_of_beq {v w : Value} (h : (v == w) = true) : v.alike w = true := by
  cases v with
  | number n =>
    cases w with
    | number n' =>
      cases n with
      | int i =>
        cases n' with
        | int j =>
          obtain rfl : i = j := by simpa [BEq.beq, beq, Number.beq] using h
          exact (Double.beq_iff (Number.isNaN_toDouble _) (Number.isNaN_toDouble _)).mpr rfl
        | double => cases h
      | double d _ =>
        cases n' with
        | int => cases h
        | double d' _ => exact h
    | _ => exact h
  | _ => exact h

theorem alike_refl (v : Value) : v.alike v = true := alike_of_beq (beq_iff.mpr rfl)

/-- Values that equal a third one are equal. -/
theorem beq_of_beq {a b c : Value} (hb : a.beq b = true) (hc : a.beq c = true) :
    b.beq c = true := beq_iff.mpr ((beq_iff.mp hb).symm.trans (beq_iff.mp hc))

/-- What is alike a value is alike an equal one. -/
theorem alike_of_beq_of_alike {v w x : Value} (hw : (v == w) = true) (hx : v.alike x = true) :
    w.alike x = true := by
  cases v with
  | number a =>
    have halike := alike_of_beq hw
    cases w with
    | number b =>
      cases x with
      | number c => exact Double.beq_trans (Double.beq_symm halike) hx
      | _ => cases hx
    | _ => cases hw
  | _ =>
    cases w with
    | number b => cases hw
    | _ => exact beq_of_beq hw hx

end Value

end DocSchema

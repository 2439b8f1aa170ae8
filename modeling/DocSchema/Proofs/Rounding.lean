-- SUMMARY: Which integers round to one double: none below `2 ^ 53` rounds to the double of another integer.
import DocSchema.Proofs.Double

/-!
# Rounding integers

An integer below `2 ^ 53` is a double: its magnitude is the one that `Shifted` describes,
from which the integer is read back. An integer of `2 ^ 53` or more rounds to a magnitude
above all of these. So two integers of which one is small round to different doubles.
-/

namespace DocSchema

namespace Double

variable {n n' m m' k k' : Nat} {a b : Int} {negative : Bool}

/-! ## Small integers -/

theorem exists_shifted (positive : n ≠ 0) (small : n < 2 ^ 53) : ∃ m k, Shifted m n k := by
  have hlow : 2 ^ n.log2 ≤ n := Nat.log2_self_le positive
  have hhigh : n < 2 ^ (n.log2 + 1) := Nat.lt_log2_self
  have hlog : n.log2 < 53 := (Nat.log2_lt positive).mpr small
  have hpow : 2 ^ n.log2 * 2 ^ (52 - n.log2) = hiddenBit := by
    rw [← Nat.pow_add, Nat.add_sub_cancel' (by omega)]
    rfl
  refine ⟨_, 52 - n.log2, Nat.sub_le _ _, ?_, ?_, rfl⟩
  · rw [← hpow]
    exact Nat.mul_le_mul_right _ hlow
  · rw [← hpow, ← Nat.mul_assoc, ← Nat.pow_succ']
    exact Nat.mul_lt_mul_of_pos_right hhigh (Nat.pow_pos (by decide))

/-- Small magnitudes lie between those of one half and of `2 ^ 53`. -/
theorem Shifted.bounds (h : Shifted m n k) : 1023 * hiddenBit ≤ m ∧ m < 1076 * hiddenBit := by
  have hshift := h.shift
  have hlower := h.lower
  have hupper := h.upper
  have hmagnitude := h.magnitude
  unfold hiddenBit at *
  omega

/-- The integer is read back from the magnitude. -/
theorem Shifted.unique (h : Shifted m n k) (h' : Shifted m n' k') : n = n' := by
  have hsum := h.magnitude.symm.trans h'.magnitude
  have hk : k = k' := by
    have := h.shift; have := h'.shift
    have := h.lower; have := h'.lower
    have := h.upper; have := h'.upper
    unfold hiddenBit at *
    omega
  subst hk
  exact Nat.eq_of_mul_eq_mul_right (Nat.pow_pos (by decide)) (Nat.add_left_cancel hsum)

theorem magnitude_ofRatio_of_shifted (h : Shifted m n k) :
    (ofRatio negative n 1).magnitude = m := by
  have hm : m < infiniteMagnitude := Nat.lt_trans h.bounds.2 (by decide)
  rw [ofRatio_of_shifted negative h hm, magnitude_ofMagnitude _ (Nat.lt_trans hm (by decide))]

/-! ## Large integers -/

theorem scaleByPowerOfTwo_natCast (n k : Nat) :
    scaleByPowerOfTwo n 1 (k : Int) = (n, 2 ^ k) := by
  rw [scaleByPowerOfTwo, if_pos (Int.natCast_nonneg k), Nat.one_mul]
  rfl

theorem hiddenBit_le_div (large : 2 ^ 53 ≤ n) :
    53 ≤ n.log2 ∧ hiddenBit ≤ n / 2 ^ (n.log2 - 52) := by
  have hpositive : n ≠ 0 := by
    rintro rfl
    exact absurd large (by decide)
  have hlog : 53 ≤ n.log2 := (Nat.le_log2 hpositive).mpr large
  refine ⟨hlog, (Nat.le_div_iff_mul_le (Nat.pow_pos (by decide))).mpr ?_⟩
  calc hiddenBit * 2 ^ (n.log2 - 52)
    _ = 2 ^ (52 + (n.log2 - 52)) := (Nat.pow_add 2 52 _).symm
    _ = 2 ^ n.log2 := by rw [Nat.add_sub_cancel' (by omega)]
    _ ≤ n := Nat.log2_self_le hpositive

theorem ratioExponent_of_large (large : 2 ^ 53 ≤ n) :
    ratioExponent n 1 = (n.log2 - 52 : Nat) := by
  obtain ⟨hlog, hquotient⟩ := hiddenBit_le_div large
  have hguess : (n.log2 : Int) - (Nat.log2 1 : Int) - 52 = (n.log2 - 52 : Nat) := by
    rw [show Nat.log2 1 = 0 from rfl]
    omega
  unfold ratioExponent
  rw [hguess]
  simp only [scaleByPowerOfTwo_natCast]
  rw [if_neg (Nat.not_lt.mpr hquotient)]
  omega

theorem div_le_divNearestEven (num den : Nat) : num / den ≤ divNearestEven num den := by
  unfold divNearestEven
  dsimp only
  split <;> omega

theorem le_magnitude_ofRatio (large : 2 ^ 53 ≤ n) :
    1076 * hiddenBit ≤ (ofRatio negative n 1).magnitude := by
  obtain ⟨hlog, hquotient⟩ := hiddenBit_le_div large
  have hnearest := Nat.le_trans hquotient (div_le_divNearestEven n (2 ^ (n.log2 - 52)))
  have hexponent : ((n.log2 - 52 : Nat) + 1074 : Int).toNat = n.log2 - 52 + 1074 := by omega
  have hlow : 1075 * hiddenBit ≤ (n.log2 - 52 + 1074) * hiddenBit :=
    Nat.mul_le_mul_right _ (by omega)
  have hpositive : n ≠ 0 := by
    rintro rfl
    exact absurd large (by decide)
  unfold ofRatio
  rw [if_neg hpositive, ratioExponent_of_large large]
  simp only [scaleByPowerOfTwo_natCast, hexponent]
  rw [magnitude_ofMagnitude _ (Nat.lt_of_le_of_lt (Nat.min_le_right _ _) (by decide))]
  refine Nat.le_min.mpr ⟨?_, by decide⟩
  unfold hiddenBit at *
  omega

/-! ## Integers of one double -/

theorem isNegative_ofMagnitude : (ofMagnitude negative m).isNegative = negative := by
  unfold isNegative
  rw [toNat_bits_ofMagnitude]
  have hlt : m % signBit < signBit := Nat.mod_lt _ (by decide)
  cases negative with
  | false => simpa using hlt
  | true => simp

theorem isNegative_ofInt : (ofInt a).isNegative = decide (a < 0) := by
  unfold ofInt ofRatio
  split <;> exact isNegative_ofMagnitude

theorem magnitude_ofInt_of_shifted (h : Shifted m a.natAbs k) : (ofInt a).magnitude = m :=
  magnitude_ofRatio_of_shifted h

theorem le_magnitude_ofInt (large : 2 ^ 53 ≤ a.natAbs) :
    1076 * hiddenBit ≤ (ofInt a).magnitude :=
  le_magnitude_ofRatio large

theorem magnitude_ofInt_eq_zero_iff : (ofInt a).magnitude = 0 ↔ a = 0 := by
  constructor
  · intro h
    refine Decidable.byContradiction fun hne => ?_
    have hpos : 0 < (ofInt a).magnitude := by
      by_cases hsmall : a.natAbs < 2 ^ 53
      · obtain ⟨m, k, hshifted⟩ := exists_shifted (Int.natAbs_ne_zero.mpr hne) hsmall
        rw [magnitude_ofInt_of_shifted hshifted]
        exact Nat.lt_of_lt_of_le (by decide) hshifted.bounds.1
      · exact Nat.lt_of_lt_of_le (by decide) (le_magnitude_ofInt (Nat.not_lt.mp hsmall))
    omega
  · rintro rfl
    decide

theorem isNaN_ofInt (a : Int) : (ofInt a).isNaN = false := isNaN_ofRatio _ _ _

/-- Integers are equal by size if and only if they round to the same double. -/
theorem beq_ofInt : (ofInt a).beq (ofInt b) = decide (ofInt a = ofInt b) := by
  rw [Bool.eq_iff_iff, beq_iff (isNaN_ofInt a) (isNaN_ofInt b), decide_eq_true_eq]
  refine ⟨fun h => ?_, congrArg key⟩
  by_cases hzero : (ofInt b).key = 0
  · have eq_zero {c : Int} (hc : (ofInt c).key = 0) : c = 0 := by
      rw [key_eq_zero_iff, isZero, decide_eq_true_eq] at hc
      exact magnitude_ofInt_eq_zero_iff.mp hc
    rw [eq_zero hzero, eq_zero (h.trans hzero)]
  · exact eq_of_key_eq h hzero

/-- No other integer rounds to the double of an integer below `2 ^ 53`. -/
theorem ofInt_injective (h : ofInt a = ofInt b) (small : a.natAbs < 2 ^ 53) : a = b := by
  have hsign : decide (a < 0) = decide (b < 0) := by rw [← isNegative_ofInt, h, isNegative_ofInt]
  have hzero : a = 0 ↔ b = 0 := by
    rw [← magnitude_ofInt_eq_zero_iff, h, magnitude_ofInt_eq_zero_iff]
  by_cases ha : a = 0
  · rw [ha, hzero.mp ha]
  · obtain ⟨m, k, hshifted⟩ := exists_shifted (Int.natAbs_ne_zero.mpr ha) small
    have hm : (ofInt b).magnitude = m := by rw [← h, magnitude_ofInt_of_shifted hshifted]
    have hsmall : b.natAbs < 2 ^ 53 := by
      refine Nat.lt_of_not_le fun hlarge => ?_
      have hle := le_magnitude_ofInt hlarge
      have hlt := hshifted.bounds.2
      omega
    obtain ⟨m', k', hshifted'⟩ := exists_shifted (Int.natAbs_ne_zero.mpr (mt hzero.mpr ha)) hsmall
    obtain rfl : m' = m := by rw [← hm, magnitude_ofInt_of_shifted hshifted']
    have habs := hshifted.unique hshifted'
    rw [decide_eq_decide] at hsign
    omega

end Double

end DocSchema

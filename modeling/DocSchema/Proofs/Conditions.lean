-- SUMMARY: Conditions on one field: equality and order go together except on two spellings of one instant.
import DocSchema.Proofs.EqualitySelectors

/-!
# Conditions on one field

A field meets `$lt`, `$eq` or `$gt` by two readings: order compares numbers, texts, truth
values and instants, equality compares numbers and otherwise contents. For values that can
be ordered the readings agree on every pair but one kind: two dates of the same instant
that are written differently are neither less, equal nor greater.
-/

namespace DocSchema

/-! ## Equality and order -/

theorem Instant.compare_eq_eq_iff {s t : Instant} : s.compare t = .eq ↔ s = t := by
  rw [Instant.compare, Ordering.then_eq_eq, Std.compare_eq_iff_eq, Std.compare_eq_iff_eq]
  cases s
  cases t
  simp

theorem Double.compare?_eq_some {d e : Double} {o : Ordering} (h : d.compare? e = some o) :
    d.beq e = true ↔ o = .eq := by
  unfold Double.compare? at h
  split at h
  · cases h
  · next hnumbers =>
    cases h
    rw [Bool.or_eq_true, not_or, Bool.not_eq_true, Bool.not_eq_true] at hnumbers
    rw [Double.beq_iff hnumbers.1 hnumbers.2, Std.compare_eq_iff_eq]

namespace Value

variable {a b : Value} {o : Ordering} {s t : Instant}

/-- Dates of one instant are written in the same way. -/
def SpelledAlike (a b : Value) : Prop := ∀ t, a.instant? = some t → b.instant? = some t → a = b

theorem eq_of_instant? (h : a.instant? = some t) :
    ∃ text, a = .object [(dateKey, .string text)] := by
  unfold instant? at h
  split at h
  · next key text =>
    split at h
    · next hkey => exact ⟨text, by rw [hkey]⟩
    · cases h
  · cases h

theorem compare?_of_instant? (ha : a.instant? = some s) (hb : b.instant? = some t) :
    a.compare? b = some (s.compare t) := by
  obtain ⟨text, rfl⟩ := eq_of_instant? ha
  rw [compare?, ha, hb]
  all_goals nofun

theorem alike_iff_of_instant? (ha : a.instant? = some s) (hb : b.instant? = some t) :
    a.alike b = true ↔ a = b := by
  obtain ⟨text, rfl⟩ := eq_of_instant? ha
  obtain ⟨text', rfl⟩ := eq_of_instant? hb
  simp [alike, BEq.beq, beq, beqFields]

/-- What can be ordered are two numbers, two texts, two truth values or two dates. -/
theorem alike_iff_of_compare? (h : a.compare? b = some o) :
    a.alike b = true ↔ o = .eq ∧ SpelledAlike a b := by
  have undated (ha : a.instant? = none) : SpelledAlike a b := by
    intro t ht
    cases ha.symm.trans ht
  unfold compare? at h
  split at h
  case h_1 m n =>
    rw [and_iff_left (undated rfl)]
    exact Double.compare?_eq_some h
  case h_2 x y =>
    cases h
    rw [and_iff_left (undated rfl), Std.compare_eq_iff_eq]
    simp [alike, BEq.beq, beq]
  case h_3 x y =>
    cases h
    rw [and_iff_left (undated rfl), Std.compare_eq_iff_eq]
    simp [alike, BEq.beq, beq]
  case h_4 =>
    split at h
    · next s t ha hb =>
      cases h
      rw [Instant.compare_eq_eq_iff]
      rw [alike_iff_of_instant? ha hb]
      constructor
      · rintro rfl
        exact ⟨Option.some.inj (ha.symm.trans hb), fun _ _ _ => rfl⟩
      · rintro ⟨rfl, spelled⟩
        exact spelled s ha hb
    · cases h

end Value

namespace Selector

variable {path operator : String} {condition doc a b : Value} {actual : Option Value}
  {o : Ordering}

/-! ## One condition -/

theorem selects_single (h : DotPath.isOperator path = false) :
    selects (.object [(path, condition)]) doc = meets (doc.lookup? path) condition := by
  obtain ⟨hand, hor⟩ := ne_logical_of_field h
  rw [selects, meetsClauses, if_neg hand, if_neg hor, h, if_neg Bool.false_ne_true]
  cases meets (doc.lookup? path) condition with
  | error fault => rfl
  | ok met => cases met <;> simp [meetsClauses, Bind.bind, Except.bind]

theorem meets_single (hoperator : DotPath.isOperator operator = true)
    (undated : operator ≠ dateKey) :
    meets actual (.object [(operator, b)]) = meetsOperator actual operator b := by
  rw [meets, if_pos (isOperators_single hoperator undated b), meetsOperators]
  cases meetsOperator actual operator b with
  | error fault => rfl
  | ok met => cases met <;> simp [meetsOperators, Bind.bind, Except.bind]

/-- The selector that puts one operator on the field at a path. -/
def asking (path operator : String) (operand : Value) : Value :=
  .object [(path, .object [(operator, operand)])]

theorem selects_asking (h : DotPath.isOperator path = false)
    (hoperator : DotPath.isOperator operator = true) (undated : operator ≠ dateKey) :
    selects (asking path operator b) doc = meetsOperator (doc.lookup? path) operator b := by
  rw [asking, selects_single h, meets_single hoperator undated]

theorem equals_of_not_array (single : a.isArray = false) : equals (some a) b = a.alike b := by
  unfold equals
  cases a with
  | array => cases single
  | _ => exact Bool.or_false _

theorem compares_of_compare? (h : a.compare? b = some o) (accept : Ordering → Bool) :
    compares (some a) b accept = accept o := by
  rw [compares, Option.bind_some, h, Option.any_some]

/-! ## Trichotomy -/

/-- Exactly one of less, equal and greater, and a weak order is the strict one or equality. -/
structure Trichotomous (lt le eq ge gt : Bool) : Prop where
  one : [lt, eq, gt].count true = 1
  le_eq : le = (lt || eq)
  ge_eq : ge = (gt || eq)

theorem trichotomous_iff {eq : Bool} :
    Trichotomous (o == .lt) (o != .gt) eq (o != .lt) (o == .gt) ↔ (eq = true ↔ o = .eq) := by
  constructor
  · rintro ⟨hone, -, -⟩
    cases o <;> cases eq <;> simp_all
  · intro h
    cases o <;> cases eq <;> first | exact ⟨rfl, rfl, rfl⟩ | simp_all

/-- For a value and an operand that can be ordered, the operators of order and equality go
together, unless they are dates of one instant that are written differently. -/
theorem comparisons_trichotomous_iff (field : DotPath.isOperator path = false)
    (found : doc.lookup? path = some a) (single : a.isArray = false)
    (ordered : (a.compare? b).isSome = true) :
    ∃ lt le eq ge gt,
      selects (asking path "$lt" b) doc = .ok lt ∧
      selects (asking path "$lte" b) doc = .ok le ∧
      selects (asking path "$eq" b) doc = .ok eq ∧
      selects (asking path "$gte" b) doc = .ok ge ∧
      selects (asking path "$gt" b) doc = .ok gt ∧
      (Trichotomous lt le eq ge gt ↔ a.SpelledAlike b) := by
  obtain ⟨o, ho⟩ := Option.isSome_iff_exists.mp ordered
  have horder (accept : Ordering → Bool) : compares (doc.lookup? path) b accept = accept o := by
    rw [found, compares_of_compare? ho]
  have hequal : equals (doc.lookup? path) b = a.alike b := by
    rw [found, equals_of_not_array single]
  have hselects {operator : String} (hoperator : DotPath.isOperator operator = true)
      (undated : operator ≠ dateKey) : selects (asking path operator b) doc =
        meetsOperator (doc.lookup? path) operator b := selects_asking field hoperator undated
  refine ⟨_, _, _, _, _, (hselects rfl (by decide)).trans (congrArg Except.ok (horder _)),
    (hselects rfl (by decide)).trans (congrArg Except.ok (horder _)),
    (hselects rfl (by decide)).trans (congrArg Except.ok hequal),
    (hselects rfl (by decide)).trans (congrArg Except.ok (horder _)),
    (hselects rfl (by decide)).trans (congrArg Except.ok (horder _)), ?_⟩
  rw [trichotomous_iff, Value.alike_iff_of_compare? ho]
  constructor
  · intro h t ha hb
    have heq : o = .eq := by
      rw [Value.compare?_of_instant? ha hb] at ho
      exact (Option.some.inj ho).symm.trans (Instant.compare_eq_eq_iff.mpr rfl)
    exact (h.mpr heq).2 t ha hb
  · exact fun spelled => and_iff_left spelled

/-- The start of a year, with a text for the fraction of its first second. -/
def newYear (year fraction : String) : Value :=
  .object [(dateKey, .string (year ++ "-01-01T00:00:00" ++ fraction ++ "Z"))]

def member : Value := .object [("joined", newYear "2024" ".0")]

/-- Two new years are in one order. -/
theorem joined_before_newYear : ∃ lt le eq ge gt,
    selects (asking "joined" "$lt" (newYear "2025" "")) member = .ok lt ∧
    selects (asking "joined" "$lte" (newYear "2025" "")) member = .ok le ∧
    selects (asking "joined" "$eq" (newYear "2025" "")) member = .ok eq ∧
    selects (asking "joined" "$gte" (newYear "2025" "")) member = .ok ge ∧
    selects (asking "joined" "$gt" (newYear "2025" "")) member = .ok gt ∧
    Trichotomous lt le eq ge gt := by
  have hjoined : (newYear "2024" ".0").instant? = some ⟨1704067200, 0⟩ := by decide
  have hoperand : (newYear "2025" "").instant? = some ⟨1735689600, 0⟩ := by decide
  have spelled : (newYear "2024" ".0").SpelledAlike (newYear "2025" "") := by
    intro t ht ht'
    cases hjoined.symm.trans ht
    cases hoperand.symm.trans ht'
  have ordered : ((newYear "2024" ".0").compare? (newYear "2025" "")).isSome = true := by
    rw [Value.compare?_of_instant? hjoined hoperand]
    rfl
  have found : member.lookup? "joined" = some (newYear "2024" ".0") := rfl
  obtain ⟨lt, le, eq, ge, gt, hlt, hle, heq, hge, hgt, hiff⟩ :=
    comparisons_trichotomous_iff rfl found rfl ordered
  exact ⟨lt, le, eq, ge, gt, hlt, hle, heq, hge, hgt, hiff.mpr spelled⟩

/-- A new year that is written with a fraction is not less than, equal to or greater than
itself without one, although it is at most and at least that. -/
theorem newYear_incomparable :
    selects (asking "joined" "$lt" (newYear "2024" "")) member = .ok false ∧
    selects (asking "joined" "$lte" (newYear "2024" "")) member = .ok true ∧
    selects (asking "joined" "$eq" (newYear "2024" "")) member = .ok false ∧
    selects (asking "joined" "$gte" (newYear "2024" "")) member = .ok true ∧
    selects (asking "joined" "$gt" (newYear "2024" "")) member = .ok false := by
  have hselects {operator : String} (hoperator : DotPath.isOperator operator = true)
      (undated : operator ≠ dateKey) :
      selects (asking "joined" operator (newYear "2024" "")) member =
        meetsOperator (some (newYear "2024" ".0")) operator (newYear "2024" "") :=
    selects_asking rfl hoperator undated
  refine ⟨?_, ?_, ?_, ?_, ?_⟩ <;> exact (hselects rfl (by decide)).trans rfl

end Selector

end DocSchema

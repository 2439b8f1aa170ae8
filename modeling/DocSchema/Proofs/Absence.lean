-- SUMMARY: Where a node accepts absence, and what merging keeps of it.
import DocSchema.Proofs.Acceptance

/-!
# Absence

A field may be left out because of a node somewhere below its wrappers: an optional
node, an `any`, or a union with such an option. Merging takes wrappers off one by
one and pairs nullable nodes only with nullable nodes, so that an optional node
meets only one under as many nullable nodes as itself. `SkipsAt` counts them: a merged
node accepts absence exactly at the depths where both nodes do. Where no nullable
node is around a node that accepts absence, two nodes that accept it always do so at
a common depth.
-/

namespace DocSchema

namespace Node

variable {ctx : Context} {l r m : Node}

/-! ## Depths -/

/-- The node accepts absence at a depth: under as many nullable nodes, or, for the
depth `none`, under any number of them. -/
def SkipsAt (ctx : Context) : Node → Option Nat → Prop
  | .optional inner, depth => depth = some 0 ∨ inner.SkipsAt ctx depth
  | .nullable inner, none => inner.SkipsAt ctx none
  | .nullable inner, some depth => ∃ k, depth = k + 1 ∧ inner.SkipsAt ctx (some k)
  | .any, _ => True
  | .union options, depth => depth = none ∧ Accepts ctx (.union options) none
  | .intersection left right, depth =>
    (∃ merged, Merges left right merged) ∧ left.SkipsAt ctx depth ∧ right.SkipsAt ctx depth
  | _, _ => False

/-- A node below optional nodes is not optional itself. -/
theorem not_skipsAt_zero {n : Node} (h : n.layer < 2) : ¬ n.SkipsAt ctx (some 0) := by
  cases n with
  | nullable inner =>
    rintro ⟨k, hk, -⟩
    cases hk
  | union options => exact fun hskips => nomatch hskips.1
  | optional | any | intersection => exact absurd h (by simp [layer])
  | _ => exact id

theorem not_skipsAt_some {n : Node} (h : n.layer < 1) (k : Nat) : ¬ n.SkipsAt ctx (some k) := by
  cases n with
  | union options => exact fun hskips => nomatch hskips.1
  | optional | nullable | any | intersection => exact absurd h (by simp [layer])
  | _ => exact id

/-- Next to a node that is not optional, an optional wrapper makes no difference. -/
theorem skipsAt_optional_iff {a other : Node} (h : other.layer < 2) (depth : Option Nat) :
    (optional a).SkipsAt ctx depth ∧ other.SkipsAt ctx depth ↔
      a.SkipsAt ctx depth ∧ other.SkipsAt ctx depth := by
  refine and_congr_left fun hother => ⟨?_, .inr⟩
  rintro (rfl | ha)
  · exact (not_skipsAt_zero h hother).elim
  · exact ha

/-- Next to a node without wrappers, a nullable wrapper makes no difference. -/
theorem skipsAt_nullable_iff {a other : Node} (h : other.layer < 1) (depth : Option Nat) :
    (nullable a).SkipsAt ctx depth ∧ other.SkipsAt ctx depth ↔
      a.SkipsAt ctx depth ∧ other.SkipsAt ctx depth := by
  refine and_congr_left fun hother => ?_
  cases depth with
  | none => exact Iff.rfl
  | some k => exact (not_skipsAt_some h k hother).elim

/-- A merged node accepts absence exactly at the depths where both nodes do. -/
theorem Merges.skipsAt_iff (h : Merges l r m) (depth : Option Nat) :
    m.SkipsAt ctx depth ↔ l.SkipsAt ctx depth ∧ r.SkipsAt ctx depth := by
  induction h generalizing depth with
  | intersectionLeft hinner _ ihInner ih =>
    rw [ih, ihInner]
    simp only [SkipsAt, and_iff_right (Exists.intro _ hinner)]
  | intersectionRight _ hinner _ ihInner ih =>
    rw [ih, ihInner]
    simp only [SkipsAt, and_iff_right (Exists.intro _ hinner)]
    exact and_comm
  | anyLeft => simp only [SkipsAt, true_and]
  | anyRight => simp only [SkipsAt, and_true]
  | optional _ ih =>
    simp only [SkipsAt, ih]
    exact or_and_left
  | optionalLeft hother _ ih => rw [ih, skipsAt_optional_iff hother]
  | optionalRight hother _ ih =>
    rw [ih, ← skipsAt_optional_iff hother]
    exact and_comm
  | nullable _ ih =>
    cases depth with
    | none => exact ih none
    | some k =>
      cases k with
      | zero => simp [SkipsAt]
      | succ k => simp [SkipsAt, ih]
  | nullableLeft hother _ ih => rw [ih, skipsAt_nullable_iff hother]
  | nullableRight hother _ ih =>
    rw [ih, ← skipsAt_nullable_iff hother]
    exact and_comm
  | object | string | number | enum | literal | array | tuple | record | boolean | date | null =>
    simp [SkipsAt]

/-- A node without defaults parses absence exactly if there is a depth at which it accepts it. -/
theorem accepts_none_iff {n : Node} (bare : Every Bare n) :
    Accepts ctx n none ↔ ∃ depth, n.SkipsAt ctx depth := by
  induction n using Node.inductionOn with
  | optional inner _ => exact iff_of_true ⟨none, parses_optional_none.mpr rfl⟩ ⟨some 0, .inl rfl⟩
  | any => exact iff_of_true ⟨none, parses_any_iff.mpr rfl⟩ ⟨none, trivial⟩
  | nullable inner ih =>
    have hinner : Accepts ctx (nullable inner) none ↔ Accepts ctx inner none := by
      simp only [Accepts, parses_nullable_of_ne (Option.some_ne_none _).symm]
    rw [hinner, ih (bare.inner rfl)]
    constructor
    · rintro ⟨depth, hdepth⟩
      cases depth with
      | none => exact ⟨none, hdepth⟩
      | some k => exact ⟨some (k + 1), k, rfl, hdepth⟩
    · rintro ⟨depth, hdepth⟩
      cases depth with
      | none => exact ⟨none, hdepth⟩
      | some k =>
        obtain ⟨j, -, hj⟩ := hdepth
        exact ⟨some j, hj⟩
  | union options _ => simp only [SkipsAt, exists_eq_left]
  | intersection left right ih =>
    have hmerged {merged : Node} (hm : Merges left right merged) :
        Accepts ctx merged none ↔ ∃ depth, merged.SkipsAt ctx depth :=
      ih merged hm (bare.merged keptByMerging_bare hm)
    constructor
    · rintro ⟨result, h⟩
      obtain ⟨merged, hm, hresult⟩ := parses_intersection_iff.mp h
      obtain ⟨depth, hdepth⟩ := (hmerged hm).mp ⟨result, hresult⟩
      exact ⟨depth, ⟨merged, hm⟩, (hm.skipsAt_iff depth).mp hdepth⟩
    · rintro ⟨depth, ⟨merged, hm⟩, hdepth⟩
      obtain ⟨result, hresult⟩ := (hmerged hm).mpr ⟨depth, (hm.skipsAt_iff depth).mpr hdepth⟩
      exact ⟨result, parses_intersection_iff.mpr ⟨merged, hm, hresult⟩⟩
  | withDefault | transform => exact bare.here.elim
  | object | array | tuple | discriminated | record | enum | literal | string | number | boolean
    | date | null =>
    simp [Accepts, SkipsAt, parses_object_iff, parses_array_iff, parses_tuple_iff,
      parses_discriminated_iff, parses_record_iff, parses_enum_iff, parses_literal_iff,
      parses_string_iff, parses_number_iff, parses_boolean_iff, parses_date_iff, parses_null_iff]
  | never => simp [Accepts, SkipsAt, not_parses_never]

/-- Two nodes accept absence at a common depth. -/
def SkipTogether (ctx : Context) (l r : Node) : Prop :=
  ∃ depth, l.SkipsAt ctx depth ∧ r.SkipsAt ctx depth

theorem Merges.accepts_none_iff (h : Merges l r m) (hl : Every Bare l) (hr : Every Bare r) :
    Accepts ctx m none ↔ SkipTogether ctx l r := by
  rw [Node.accepts_none_iff (h.every keptByMerging_bare hl hr)]
  simp only [h.skipsAt_iff]
  exact Iff.rfl

/-! ## Trees without absence below nullable nodes -/

/-- A nullable node is not around a node that accepts absence. -/
def Tight : Node → Prop
  | .nullable inner => inner.acceptsAbsent = false
  | _ => True

theorem keptByMerging_tight : KeptByMerging Tight := by
  refine ⟨fun n hn => ?_, fun a b m hm (ha : a.acceptsAbsent = false) _ => ?_,
    fun _ _ _ _ _ _ _ => trivial⟩
  · cases n with
    | nullable => cases hn
    | _ => trivial
  · refine Bool.eq_false_iff.mpr fun hmerged => ?_
    rw [(hm.acceptsAbsent hmerged).1] at ha
    cases ha

/-- The kinds of nodes that merge with nothing but `any`. -/
def isRigid : Node → Bool
  | .union _ | .discriminated .. | .withDefault .. | .transform .. | .never => true
  | _ => false

theorem Merges.eq_of_rigid {rigid : Node} (h : Merges l rigid m) (hrigid : rigid.isRigid = true) :
    m = rigid := by
  induction h with
  | intersectionLeft _ _ _ ih | optionalLeft _ _ ih | nullableLeft _ _ ih => exact ih hrigid
  | anyLeft => rfl
  | _ => cases hrigid

/-- A notion of accepting absence in tight trees: an optional node accepts it, a
nullable one does not, an intersection only if both parts or the merged node do, and
what merging pairs with its like does not. -/
structure AbsenceLaws (A : Node → Prop) : Prop where
  optional : ∀ inner, A (.optional inner)
  nullable : ∀ inner, Tight (.nullable inner) → ¬ A (.nullable inner)
  intersection : ∀ a b inner, Merges a b inner → A (.intersection a b) → A inner ∨ A a ∧ A b
  core : ∀ n, n.layer < 1 → A n → n.isRigid = true

/-- Below the optional nodes of a tight tree only a rigid node accepts absence. -/
theorem AbsenceLaws.rigid {A : Node → Prop} (laws : AbsenceLaws A) {n : Node} (hn : n.layer < 2)
    (tight : Every Tight n) (h : A n) : n.isRigid = true := by
  cases n with
  | nullable inner => exact (laws.nullable inner tight.here h).elim
  | optional | any | intersection => exact absurd hn (by simp [layer])
  | _ => exact laws.core _ Nat.one_pos h

/-- In tight trees, a merged node accepts absence where both nodes do. -/
theorem Merges.absence_of_tight {A : Node → Prop} (laws : AbsenceLaws A) (h : Merges l r m)
    (tightLeft : Every Tight l) (tightRight : Every Tight r) (hl : A l) (hr : A r) : A m := by
  induction h with
  | intersectionLeft hinner _ ihInner ih =>
    have hA := (laws.intersection _ _ _ hinner hl).elim id fun both =>
      ihInner tightLeft.left tightLeft.right both.1 both.2
    exact ih (hinner.every keptByMerging_tight tightLeft.left tightLeft.right) tightRight hA hr
  | intersectionRight _ hinner _ ihInner ih =>
    have hA := (laws.intersection _ _ _ hinner hr).elim id fun both =>
      ihInner tightRight.left tightRight.right both.1 both.2
    exact ih (hinner.every keptByMerging_tight tightRight.left tightRight.right) tightLeft hA hl
  | anyLeft => exact hr
  | anyRight => exact hl
  | optional => exact laws.optional _
  | optionalLeft hother hm _ =>
    rw [hm.eq_of_rigid (laws.rigid hother tightRight hr)]
    exact hr
  | optionalRight hother hm _ =>
    rw [hm.eq_of_rigid (laws.rigid hother tightLeft hl)]
    exact hl
  | nullable | nullableLeft => exact (laws.nullable _ tightLeft.here hl).elim
  | nullableRight => exact (laws.nullable _ tightRight.here hr).elim
  | object | string | number | enum | literal | array | tuple | record | boolean | date | null =>
    exact absurd (laws.core _ (by simp [layer]) hl) Bool.false_ne_true

theorem absenceLaws_acceptsAbsent : AbsenceLaws fun n => n.acceptsAbsent = true where
  optional _ := by simp [acceptsAbsent]
  nullable inner (tight : inner.acceptsAbsent = false) := by simp [acceptsAbsent, tight]
  intersection a b _ _ h := .inr (by simpa [acceptsAbsent] using h)
  core n hn h := by
    cases n with
    | optional | nullable | any | intersection => exact absurd hn (by simp [layer])
    | union | withDefault | transform => rfl
    | _ => simp [acceptsAbsent] at h

/-- What the parser takes as absent may be left out. -/
theorem Accepts.acceptsAbsent {n : Node} (h : Accepts ctx n none) : n.acceptsAbsent = true := by
  obtain ⟨result, h⟩ := h
  induction n using Node.inductionOn generalizing result with
  | optional | any | withDefault => simp [Node.acceptsAbsent]
  | nullable inner ih =>
    rw [Node.acceptsAbsent]
    exact ih result ((parses_nullable_of_ne (Option.some_ne_none _).symm).mp h)
  | transform inner facet apply ih =>
    obtain ⟨parsed, hparsed, -⟩ := parses_transform_iff.mp h
    rw [Node.acceptsAbsent]
    exact ih parsed hparsed
  | union options ih =>
    obtain ⟨before, option, after, rfl, -, hoption⟩ := parses_union_iff.mp h
    have hmem : option ∈ before ++ option :: after := by simp
    rw [Node.acceptsAbsent]
    exact anyAcceptsAbsent_iff.mpr ⟨option, hmem, ih option hmem result hoption⟩
  | intersection left right ih =>
    obtain ⟨merged, hm, hmerged⟩ := parses_intersection_iff.mp h
    obtain ⟨hleft, hright⟩ := hm.acceptsAbsent (ih merged hm result hmerged)
    simp [Node.acceptsAbsent, hleft, hright]
  | never => exact (not_parses_never h).elim
  | object | array | tuple | discriminated | record | enum | literal | string | number | boolean
    | date | null =>
    simp [parses_object_iff, parses_array_iff, parses_tuple_iff, parses_discriminated_iff,
      parses_record_iff, parses_enum_iff, parses_literal_iff, parses_string_iff, parses_number_iff,
      parses_boolean_iff, parses_date_iff, parses_null_iff] at h

theorem absenceLaws_accepts : AbsenceLaws fun n => Accepts ctx n none where
  optional _ := ⟨none, parses_optional_none.mpr rfl⟩
  nullable inner (tight : inner.acceptsAbsent = false) h := by
    have habsent := h.acceptsAbsent
    rw [acceptsAbsent, tight] at habsent
    cases habsent
  intersection a b inner hinner := by
    rintro ⟨result, h⟩
    obtain ⟨merged, hm, hresult⟩ := parses_intersection_iff.mp h
    cases hinner.unique hm
    exact .inl ⟨result, hresult⟩
  core n hn h := by
    have habsent := h.acceptsAbsent
    exact absenceLaws_acceptsAbsent.core n hn habsent

/-- In tight trees, a field of a merged type may be left out exactly where it may be by
both types. -/
theorem Merges.acceptsAbsent_eq_of_tight (h : Merges l r m) (tightLeft : Every Tight l)
    (tightRight : Every Tight r) : m.acceptsAbsent = (l.acceptsAbsent && r.acceptsAbsent) := by
  rw [Bool.eq_iff_iff, Bool.and_eq_true]
  exact ⟨h.acceptsAbsent, fun both =>
    h.absence_of_tight absenceLaws_acceptsAbsent tightLeft tightRight both.1 both.2⟩

theorem Merges.accepts_none_iff_of_tight (h : Merges l r m) (bareLeft : Every Bare l)
    (bareRight : Every Bare r) (tightLeft : Every Tight l) (tightRight : Every Tight r) :
    Accepts ctx m none ↔ Accepts ctx l none ∧ Accepts ctx r none := by
  constructor
  · intro hm
    obtain ⟨depth, hl, hr⟩ := (h.accepts_none_iff bareLeft bareRight).mp hm
    exact ⟨(Node.accepts_none_iff bareLeft).mpr ⟨depth, hl⟩,
      (Node.accepts_none_iff bareRight).mpr ⟨depth, hr⟩⟩
  · intro both
    exact h.absence_of_tight absenceLaws_accepts tightLeft tightRight both.1 both.2

end Node

end DocSchema

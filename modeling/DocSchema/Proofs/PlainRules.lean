-- SUMMARY: Rules with keywords of one group only, and rules that null joins.
import DocSchema.Proofs.Facets

/-!
# Plain rules

Most compiled rules have keywords of a single group, besides perhaps a kind, and
accept what meets that group. Null joins any rules in the way their shape
allows: as one more kind, as one more value, or as an alternative.
-/

namespace DocSchema

namespace Validator

variable {matching : Matching} {r : Entries Value} {keys : List String}

/-! ## Rules with few keywords -/

theorem AgreeOff.ofKind (hkey : "bsonType" ∈ keys) (name : String) :
    AgreeOff keys (Rules.ofKind name) [] := by
  intro key hkey'
  rw [Rules.ofKind, Entries.get?_cons, if_neg]
  rintro rfl
  exact hkey' hkey

theorem AgreeOff.ofList {entries : Entries Value} (h : ∀ e ∈ entries, e.1 ∈ keys) :
    AgreeOff keys (Entries.ofList entries) [] := by
  intro key hkey
  rw [Entries.get?_nil, Entries.get?_eq_none_iff, Entries.mem_keys_ofList]
  intro hmem
  obtain ⟨e, he, rfl⟩ := List.mem_map.mp hmem
  exact hkey (h e he)

theorem AgreeOff.cons {s : Entries Value} (h : AgreeOff keys r s) {e : String × Value}
    (he : e.1 ∈ keys) : AgreeOff keys (e :: r) s := by
  intro key hkey
  rw [Entries.get?_cons, if_neg]
  · exact h key hkey
  · rintro rfl
    exact hkey he

theorem fits_nil (matching : Matching) (v : Value) : Fits matching [] v := by
  refine ⟨?_, ?_, ?_, ?_, ?_⟩
  · intro expected h; cases h
  · intro allowed h; cases h
  · intro options h; cases h
  · intro options h; cases h
  · cases v with
    | string text =>
      refine ⟨?_, ?_, ?_⟩ <;> (intro _ h; cases h)
    | number n =>
      refine ⟨?_, ?_, ?_⟩ <;> (intro _ h; cases h)
    | array items =>
      refine ⟨?_, ?_, trivial⟩ <;> (intro _ h; cases h)
    | object fields =>
      refine fun _ => ⟨?_, fun e _ => trivial⟩
      intro _ h; cases h
    | _ => trivial

/-- Rules that only name kinds. -/
theorem fits_kind_iff (h : AgreeOff ["bsonType"] r []) (v : Value) :
    Fits matching r v ↔ KindFits r v := by
  have hnil := fits_nil matching v
  rw [fits_of_kind_change h (P := KindFits r v) (by simp [hnil.kind])]
  simp [hnil]

/-- Rules that only list values. -/
theorem fits_enum_iff (h : AgreeOff ["enum"] r []) (v : Value) :
    Fits matching r v ↔ EnumFits r v := by
  have hnil := fits_nil matching v
  refine ⟨fun hfits => hfits.enum, fun henum => ⟨?_, henum, ?_, ?_, ?_⟩⟩
  · exact (KindFits.congr h (by decide) v).mpr hnil.kind
  · exact (AnyOfFits.congr matching h (by decide) v).mpr hnil.anyOf
  · exact (OneOfFits.congr matching h (by decide) v).mpr hnil.oneOf
  · exact (ContentFits.congr matching h (by decide) v).mpr hnil.content

/-- Rules that only list alternatives. -/
theorem fits_anyOf_iff (h : AgreeOff ["anyOf"] r []) (v : Value) :
    Fits matching r v ↔ AnyOfFits matching r v := by
  have hnil := fits_nil matching v
  refine ⟨fun hfits => hfits.anyOf, fun hany => ⟨?_, ?_, hany, ?_, ?_⟩⟩
  · exact (KindFits.congr h (by decide) v).mpr hnil.kind
  · exact (EnumFits.congr h (by decide) v).mpr hnil.enum
  · exact (OneOfFits.congr matching h (by decide) v).mpr hnil.oneOf
  · exact (ContentFits.congr matching h (by decide) v).mpr hnil.content

theorem fits_oneOf_iff (h : AgreeOff ["oneOf"] r []) (v : Value) :
    Fits matching r v ↔ OneOfFits matching r v := by
  have hnil := fits_nil matching v
  refine ⟨fun hfits => hfits.oneOf, fun hone => ⟨?_, ?_, ?_, hone, ?_⟩⟩
  · exact (KindFits.congr h (by decide) v).mpr hnil.kind
  · exact (EnumFits.congr h (by decide) v).mpr hnil.enum
  · exact (AnyOfFits.congr matching h (by decide) v).mpr hnil.anyOf
  · exact (ContentFits.congr matching h (by decide) v).mpr hnil.content

/-- Rules of one kind with keywords for the content. -/
theorem fits_content_iff (h : AgreeOff keys r [])
    (hkeys : ∀ key ∈ ["enum", "anyOf", "oneOf"], key ∉ keys) (v : Value) :
    Fits matching r v ↔ KindFits r v ∧ ContentFits matching r v := by
  have hnil := fits_nil matching v
  refine ⟨fun hfits => ⟨hfits.kind, hfits.content⟩, fun ⟨hkind, hcontent⟩ =>
    ⟨hkind, ?_, ?_, ?_, hcontent⟩⟩
  · exact (EnumFits.congr h (hkeys _ (by decide)) v).mpr hnil.enum
  · exact (AnyOfFits.congr matching h (hkeys _ (by decide)) v).mpr hnil.anyOf
  · exact (OneOfFits.congr matching h (hkeys _ (by decide)) v).mpr hnil.oneOf

/-! ## Null -/

theorem null_alike_iff (v : Value) : Value.null.alike v = true ↔ v = .null := by
  cases v <;> simp [Value.alike, BEq.beq, Value.beq]

theorem enumFits_including {values : List Value}
    (h : Entries.get? r "enum" = some (.array values)) (v : Value) :
    EnumFits (Entries.insert r "enum" (.array (Rules.including values .null))) v ↔
      v = .null ∨ EnumFits r v := by
  have hmem (a : Value) : a ∈ Rules.including values .null ↔ a = .null ∨ a ∈ values := by
    unfold Rules.including
    split
    · next hnull =>
      rw [List.contains_iff_exists_mem_beq] at hnull
      obtain ⟨b, hb, hbeq⟩ := hnull
      have hb' : b = .null := by
        cases b <;> simp_all [BEq.beq, Value.beq]
      subst hb'
      constructor
      · exact .inr
      · rintro (rfl | ha)
        · exact hb
        · exact ha
    · simp [or_comm]
  unfold EnumFits
  simp only [Entries.get?_insert_self, h, Option.some.injEq, Value.array.injEq, forall_eq', hmem]
  constructor
  · rintro ⟨a, rfl | ha, halike⟩
    · exact .inl ((null_alike_iff v).mp halike)
    · exact .inr ⟨a, ha, halike⟩
  · rintro (rfl | ⟨a, ha, halike⟩)
    · exact ⟨.null, .inl rfl, (null_alike_iff _).mpr rfl⟩
    · exact ⟨a, .inr ha, halike⟩

theorem admitNullInEnum_iff (v : Value) :
    AgreeOff ["enum"] (Rules.admitNullInEnum r) r ∧
      (EnumFits (Rules.admitNullInEnum r) v ↔ v = .null ∨ EnumFits r v) := by
  unfold Rules.admitNullInEnum
  split
  · next values h => exact ⟨.insert List.mem_cons_self _, enumFits_including h v⟩
  · next h =>
    have hall : EnumFits r v := fun allowed hallowed => (h allowed hallowed).elim
    exact ⟨.refl, by simp [hall]⟩

/-- Rules of one kind that get a second kind accept the values of both. -/
theorem fits_widened_kind (hr : Shape r) {expected kinds : Value}
    (hget : Entries.get? r "bsonType" = some expected)
    (hkinds : ∀ v, kindMatches kinds v = true ↔ v = .null ∨ kindMatches expected v = true)
    (v : Value) :
    Fits matching (Entries.insert r "bsonType" kinds) v ↔ v = .null ∨ Fits matching r v := by
  have hagree : AgreeOff ["bsonType"] (Entries.insert r "bsonType" kinds) r :=
    .insert List.mem_cons_self _
  have halone (key : String) (hkey : key ∈ ["enum", "anyOf", "oneOf"]) :
      Entries.get? r key = none := hr.alone (by simp [hget]) key hkey
  by_cases hv : v = .null
  · -- Null has no content, and rules with a kind list nothing.
    subst hv
    simp only [true_or, iff_true]
    refine ⟨?_, ?_, ?_, ?_, trivial⟩
    · rw [kindFits_of_get? (Entries.get?_insert_self ..), hkinds]
      exact .inl rfl
    · rw [EnumFits.congr hagree (by decide)]
      intro allowed h
      rw [halone _ (by decide)] at h
      cases h
    · rw [AnyOfFits.congr matching hagree (by decide)]
      intro options h
      simp [alternatives?, halone "anyOf" (by decide)] at h
    · rw [OneOfFits.congr matching hagree (by decide)]
      intro options h
      simp [alternatives?, halone "oneOf" (by decide)] at h
  · have hkind : KindFits (Entries.insert r "bsonType" kinds) v ↔ KindFits r v ∧ True := by
      rw [kindFits_of_get? (Entries.get?_insert_self ..), kindFits_of_get? hget, hkinds]
      simp [hv]
    rw [fits_of_kind_change hagree hkind]
    simp [hv]

/-- Null joins the kinds of rules that name one. -/
theorem admitNull_of_kind (hr : Shape r) {expected : Value}
    (hget : Entries.get? r "bsonType" = some expected) :
    ∃ kinds, Rules.admitNull r = Entries.insert r "bsonType" kinds ∧ KindShape (some kinds) ∧
      ∀ v, kindMatches kinds v = true ↔ v = .null ∨ kindMatches expected v = true := by
  have henum : Entries.get? r "enum" = none := hr.alone (by simp [hget]) _ (by decide)
  have hwidened : Rules.admitNullInEnum r = r := by simp [Rules.admitNullInEnum, henum]
  have hne : r.isEmpty = false := by
    cases r with
    | nil => cases hget
    | cons e rest => rfl
  have hshape := hr.kind
  unfold Rules.admitNull
  rw [hwidened, hne]
  simp only [Bool.false_eq_true, if_false]
  rw [hget] at hshape ⊢
  cases hshape with
  | single name =>
    refine ⟨_, rfl, .nullable name, fun v => ?_⟩
    rw [kindMatches_two, isOfKind_null, or_comm]
    rfl
  | nullable name =>
    have hincluding : Rules.including [.string name, .string "null"] (.string "null") =
        [.string name, .string "null"] := by
      simp [Rules.including, List.contains_cons, string_beq_string]
    simp only [hincluding]
    refine ⟨_, rfl, .nullable name, fun v => ?_⟩
    rw [kindMatches_two, isOfKind_null]
    exact ⟨fun h => .inr h, fun h => h.elim .inr id⟩
  | integer =>
    have hincluding : Rules.including [.string "int", .string "long"] (.string "null") =
        [.string "int", .string "long", .string "null"] := rfl
    simp only [hincluding]
    refine ⟨_, rfl, .nullableInteger, fun v => ?_⟩
    rw [kindMatches_three, kindMatches_two, isOfKind_null, or_comm]
  | nullableInteger =>
    have hincluding : Rules.including [.string "int", .string "long", .string "null"]
        (.string "null") = [.string "int", .string "long", .string "null"] := rfl
    simp only [hincluding]
    refine ⟨_, rfl, .nullableInteger, fun v => ?_⟩
    rw [kindMatches_three, isOfKind_null]
    exact ⟨fun h => .inr h, fun h => h.elim .inr id⟩

/-- Null joins rules that name no kind as a value or as an alternative. -/
theorem admitNull_of_no_kind (matching : Matching) (hget : Entries.get? r "bsonType" = none) :
    Entries.get? (Rules.admitNull r) "bsonType" = none ∧
      ∀ v, Fits matching (Rules.admitNull r) v ↔ v = .null ∨ Fits matching r v := by
  unfold Rules.admitNull
  split
  · next hempty =>
    cases List.isEmpty_iff.mp hempty
    exact ⟨rfl, fun v => by simp [fits_nil]⟩
  · obtain ⟨hagree, -⟩ := admitNullInEnum_iff (r := r) .null
    have hkind : Entries.get? (Rules.admitNullInEnum r) "bsonType" = none := by
      rw [hagree _ (by decide), hget]
    dsimp only
    rw [hkind]
    dsimp only
    split
    · next honly =>
      -- Nothing but the listed values constrains these rules.
      refine ⟨hkind, fun v => ?_⟩
      obtain ⟨e, he⟩ := List.length_eq_one_iff.mp honly.1
      have hname : e.1 = "enum" := by
        have := Entries.contains_iff.mp honly.2
        rw [he] at this
        simpa [Entries.keys, eq_comm] using this
      have hwidened : AgreeOff ["enum"] (Rules.admitNullInEnum r) [] := by
        rw [he]
        exact AgreeOff.cons .refl (by simp [hname])
      have hplain : AgreeOff ["enum"] r [] :=
        fun key hkey => (hagree key hkey).symm.trans (hwidened key hkey)
      rw [fits_enum_iff hwidened, fits_enum_iff hplain]
      exact (admitNullInEnum_iff v).2
    · refine ⟨rfl, fun v => ?_⟩
      have hoptions : alternatives? [("anyOf", .array [.object (Rules.ofKind "null"),
          .object (Rules.admitNullInEnum r)])] "anyOf" =
          some [.object (Rules.ofKind "null"), .object (Rules.admitNullInEnum r)] := rfl
      have hnull : Fits matching (Rules.ofKind "null") v ↔ v = .null := by
        rw [fits_kind_iff (AgreeOff.ofKind (by decide) _), kindFits_of_get? rfl]
        exact isOfKind_null v
      have hrest : v ≠ .null →
          (Fits matching (Rules.admitNullInEnum r) v ↔ Fits matching r v) := by
        intro hv
        have henum : EnumFits (Rules.admitNullInEnum r) v ↔ EnumFits r v := by
          rw [(admitNullInEnum_iff v).2]
          simp [hv]
        have hkinds := KindFits.congr hagree (by decide) v
        have hany := AnyOfFits.congr matching hagree (by decide) v
        have hone := OneOfFits.congr matching hagree (by decide) v
        have hcontent := ContentFits.congr matching hagree (by decide) v
        constructor
        · rintro ⟨h1, h2, h3, h4, h5⟩
          exact ⟨hkinds.mp h1, henum.mp h2, hany.mp h3, hone.mp h4, hcontent.mp h5⟩
        · rintro ⟨h1, h2, h3, h4, h5⟩
          exact ⟨hkinds.mpr h1, henum.mpr h2, hany.mpr h3, hone.mpr h4, hcontent.mpr h5⟩
      rw [fits_anyOf_iff (AgreeOff.cons .refl (by simp)), AnyOfFits, hoptions]
      simp only [Option.some.injEq, forall_eq', List.mem_cons, List.not_mem_nil, or_false,
        exists_eq_or_imp, exists_eq_left, admits_object_iff, hnull]
      by_cases hv : v = .null
      · simp [hv]
      · simp [hv, hrest hv]

/-- Rules that admit null accept it besides what they accepted before. -/
theorem admitNull_iff (matching : Matching) (hr : Shape r) :
    Shape (Rules.admitNull r) ∧
      ∀ v, Fits matching (Rules.admitNull r) v ↔ v = .null ∨ Fits matching r v := by
  cases hget : Entries.get? r "bsonType" with
  | none =>
    obtain ⟨hnone, hfits⟩ := admitNull_of_no_kind matching hget
    refine ⟨⟨by rw [hnone]; exact .absent, fun hne => (hne hnone).elim⟩, hfits⟩
  | some expected =>
    obtain ⟨kinds, heq, hshape, hkinds⟩ := admitNull_of_kind hr hget
    rw [heq]
    exact ⟨hr.insert_kind (by simp [hget]) hshape, fits_widened_kind hr hget hkinds⟩

end Validator

end DocSchema

-- SUMMARY: What nodes accept: inputs under wrappers, and the parts of containers.
import DocSchema.Proofs.Collects
import DocSchema.Proofs.Relaxation

/-!
# Acceptance

`Accepts` forgets what a parser makes of an input and keeps that it succeeds. A present
value comes down through wrappers and intersections to the one node that looks at it,
and a container accepts it if the nodes below accept its parts.
-/

namespace DocSchema

namespace Node

variable {ctx : Context} {l r m : Node} {v : Value}

/-- The parser of the node succeeds on the input, which may be absent. -/
def Accepts (ctx : Context) (n : Node) (x : Option Value) : Prop := ∃ result, Parses ctx n x result

theorem isOk_parser_iff {n : Node} {x : Option Value} {location : Location} :
    (n.parser x ctx location).isOk = true ↔ Accepts ctx n x := by
  simp only [Outcome.isOk_iff, parser_eq_ok_iff, Accepts]

/-- No default and no transform, and an object declares each name once. -/
def Bare : Node → Prop
  | .withDefault .. | .transform .. => False
  | .object fields _ => (Entries.keys fields).Nodup
  | _ => True

theorem keptByMerging_bare : KeptByMerging Bare := by
  refine ⟨fun n hn => ?_, fun _ _ _ _ _ _ => trivial,
    fun shared gs c d m hl hr => nodup_keys_of_merged hl hr⟩
  cases n with
  | object | withDefault | transform => cases hn
  | _ => trivial

theorem Bare.untransformed {n : Node} (h : Bare n) : Untransformed n := by
  cases n with
  | transform => exact h
  | _ => trivial

/-! ## Values under wrappers -/

/-- The kinds of nodes that look at a value themselves. -/
def isCore : Node → Bool
  | .optional _ | .nullable _ | .intersection .. => false
  | _ => true

/-- The node below wrappers and intersections that a present value is checked by; a
nullable node takes `null` as `any` does. -/
inductive ComesTo (v : Value) : Node → Node → Prop where
  | core {n : Node} : n.isCore = true → ComesTo v n n
  | optional {inner core : Node} : ComesTo v inner core → ComesTo v (.optional inner) core
  | nullable {inner core : Node} :
    v ≠ .null → ComesTo v inner core → ComesTo v (.nullable inner) core
  | null {inner : Node} : v = .null → ComesTo v (.nullable inner) .any
  | intersection {l r m core : Node} :
    Merges l r m → ComesTo v m core → ComesTo v (.intersection l r) core

theorem ComesTo.eq_of_core {n core : Node} (h : ComesTo v n core) (hn : n.isCore = true) :
    core = n := by
  cases h with
  | core => rfl
  | _ => cases hn

theorem comesTo_optional_iff {n core : Node} : ComesTo v (.optional n) core ↔ ComesTo v n core := by
  refine ⟨fun h => ?_, .optional⟩
  cases h with
  | optional h => exact h
  | core hn => cases hn

theorem comesTo_nullable_iff {n core : Node} (hne : v ≠ .null) :
    ComesTo v (.nullable n) core ↔ ComesTo v n core := by
  refine ⟨fun h => ?_, .nullable hne⟩
  cases h with
  | nullable _ h => exact h
  | null heq => exact (hne heq).elim
  | core hn => cases hn

theorem comesTo_intersection_iff {core : Node} (hm : Merges l r m) :
    ComesTo v (.intersection l r) core ↔ ComesTo v m core := by
  refine ⟨fun h => ?_, .intersection hm⟩
  cases h with
  | intersection hm' h =>
    cases hm.unique hm'
    exact h
  | core hn => cases hn

theorem accepts_nullable_iff {n : Node} {x : Option Value} (h : x ≠ some .null) :
    Accepts ctx (.nullable n) x ↔ Accepts ctx n x := by
  simp only [Accepts, parses_nullable_of_ne h]

theorem accepts_nullable_null {n : Node} : Accepts ctx (.nullable n) (some .null) :=
  ⟨_, parses_nullable_null.mpr rfl⟩

theorem accepts_optional_some {n : Node} :
    Accepts ctx (.optional n) (some v) ↔ Accepts ctx n (some v) := by
  simp only [Accepts, parses_optional_some]

theorem accepts_any {x : Option Value} : Accepts ctx .any x := ⟨x, parses_any_iff.mpr rfl⟩

theorem accepts_intersection_iff {x : Option Value} (h : Merges l r m) :
    Accepts ctx (.intersection l r) x ↔ Accepts ctx m x := by
  constructor
  · rintro ⟨result, hresult⟩
    obtain ⟨merged, hm, hresult⟩ := parses_intersection_iff.mp hresult
    cases h.unique hm
    exact ⟨result, hresult⟩
  · rintro ⟨result, hresult⟩
    exact ⟨result, parses_intersection_iff.mpr ⟨m, h, hresult⟩⟩

theorem ComesTo.accepts_iff {n core : Node} (h : ComesTo v n core) :
    Accepts ctx n (some v) ↔ Accepts ctx core (some v) := by
  induction h with
  | core => exact Iff.rfl
  | optional _ ih => rw [accepts_optional_some, ih]
  | nullable hne _ ih => rw [accepts_nullable_iff fun heq => hne (Option.some.inj heq), ih]
  | null heq =>
    subst heq
    exact iff_of_true accepts_nullable_null accepts_any
  | intersection hm _ ih => rw [accepts_intersection_iff hm, ih]

/-- An accepted value is checked by some node. -/
theorem Accepts.exists_comesTo {n : Node} (h : Accepts ctx n (some v)) :
    ∃ core, ComesTo v n core := by
  induction n using Node.inductionOn with
  | optional inner ih =>
    obtain ⟨core, hcore⟩ := ih (accepts_optional_some.mp h)
    exact ⟨core, .optional hcore⟩
  | nullable inner ih =>
    by_cases hnull : v = .null
    · exact ⟨.any, .null hnull⟩
    · have hne : some v ≠ some .null := fun heq => hnull (Option.some.inj heq)
      obtain ⟨core, hcore⟩ := ih ((accepts_nullable_iff hne).mp h)
      exact ⟨core, .nullable hnull hcore⟩
  | intersection left right ih =>
    obtain ⟨result, h⟩ := h
    obtain ⟨merged, hm, hresult⟩ := parses_intersection_iff.mp h
    obtain ⟨core, hcore⟩ := ih merged hm ⟨result, hresult⟩
    exact ⟨core, .intersection hm hcore⟩
  | _ => exact ⟨_, .core rfl⟩

/-! ## What containers accept -/

theorem exists_some_iff {n : Node} (plain : Every Untransformed n) :
    (∃ w, Parses ctx n (some v) (some w)) ↔ Accepts ctx n (some v) := by
  constructor
  · rintro ⟨w, hw⟩
    exact ⟨_, hw⟩
  · rintro ⟨result, hresult⟩
    obtain ⟨w, rfl, -⟩ := hresult.sameForm plain
    exact ⟨w, hresult⟩

theorem accepts_array_iff {item : Node} (plain : Every Untransformed item) :
    Accepts ctx (.array item) (some v) ↔
      ∃ items, v = .array items ∧ ∀ w ∈ items, Accepts ctx item (some w) := by
  simp only [Accepts, parses_array_iff, Option.some.injEq]
  constructor
  · rintro ⟨_, items, parsed, rfl, hparsed, -⟩
    exact ⟨items, rfl, fun w hw =>
      (exists_some_iff plain).mp (exists_forall₂_iff.mp ⟨parsed, hparsed⟩ w hw)⟩
  · rintro ⟨items, rfl, each⟩
    obtain ⟨parsed, hparsed⟩ := exists_forall₂_iff.mpr fun w hw =>
      (exists_some_iff plain).mpr (each w hw)
    exact ⟨_, items, parsed, rfl, hparsed, rfl⟩

theorem accepts_tuple_iff {ns : List Node} (plain : ∀ n ∈ ns, Every Untransformed n) :
    Accepts ctx (.tuple ns) (some v) ↔ ∃ items, v = .array items ∧ items.length = ns.length ∧
      ∀ (i : Nat) (n : Node) (w : Value), ns[i]? = some n → items[i]? = some w →
        Accepts ctx n (some w) := by
  have each_iff (items : List Value) :
      (∃ parsed, List.Forall₂ (fun (e : Node × Value) w => Parses ctx e.1 (some e.2) (some w))
        (ns.zip items) parsed) ↔
      ∀ (i : Nat) (n : Node) (w : Value), ns[i]? = some n → items[i]? = some w →
        Accepts ctx n (some w) := by
    rw [exists_forall₂_iff]
    constructor
    · intro each i n w hn hw
      have hmem : (n, w) ∈ ns.zip items :=
        List.mem_of_getElem? (List.getElem?_zip_eq_some.mpr ⟨hn, hw⟩)
      exact (exists_some_iff (plain n (List.mem_of_getElem? hn))).mp (each (n, w) hmem)
    · intro each e he
      obtain ⟨i, hi⟩ := List.mem_iff_getElem?.mp he
      obtain ⟨hn, hw⟩ := List.getElem?_zip_eq_some.mp hi
      exact (exists_some_iff (plain e.1 (List.mem_of_getElem? hn))).mpr (each i _ _ hn hw)
  simp only [Accepts, parses_tuple_iff, Option.some.injEq] at each_iff ⊢
  constructor
  · rintro ⟨_, items, parsed, rfl, hlength, hparsed, -⟩
    exact ⟨items, rfl, hlength, (each_iff items).mp ⟨parsed, hparsed⟩⟩
  · rintro ⟨items, rfl, hlength, each⟩
    obtain ⟨parsed, hparsed⟩ := (each_iff items).mpr each
    exact ⟨_, items, parsed, rfl, hlength, hparsed, rfl⟩

theorem accepts_record_iff {n : Node} :
    Accepts ctx (.record n) (some v) ↔ ∃ input, v = .object input ∧
      (Value.object input).kind = .object ∧ ∀ e ∈ input, Accepts ctx n (some e.2) := by
  simp only [Accepts, parses_record_iff, Option.some.injEq]
  constructor
  · rintro ⟨_, input, out, rfl, plain, hout, -⟩
    exact ⟨input, rfl, plain, Collects.exists_iff.mp ⟨out, hout⟩⟩
  · rintro ⟨input, rfl, plain, each⟩
    obtain ⟨out, hout⟩ := Collects.exists_iff.mpr each
    exact ⟨_, input, out, rfl, plain, hout, rfl⟩

theorem accepts_object_iff {fields : List (String × Node)} {catchall : Option Node} :
    Accepts ctx (.object fields catchall) (some v) ↔ ∃ input, v = .object input ∧
      (Value.object input).kind = .object ∧
      (∀ f ∈ fields, Accepts ctx f.2 (Entries.get? input f.1)) ∧
      ∀ e ∈ input, lookup fields e.1 = none →
        ∃ rest, catchall = some rest ∧ Accepts ctx rest (some e.2) := by
  have others_iff (input : Entries Value) :
      (∃ extra, Collects (ParsesOthers ctx catchall) (undeclared fields input) extra) ↔
      ∀ e ∈ input, lookup fields e.1 = none →
        ∃ rest, catchall = some rest ∧ Accepts ctx rest (some e.2) := by
    simp only [Collects.exists_iff, mem_undeclared_iff, and_imp, ParsesOthers, Accepts, lookup,
      exists_comm (α := Option Value), exists_and_left]
  have fields_iff (input : Entries Value) :
      (∃ own, Collects (ParsesField ctx input) fields own) ↔
      ∀ f ∈ fields, Accepts ctx f.2 (Entries.get? input f.1) := Collects.exists_iff
  constructor
  · rintro ⟨result, h⟩
    obtain ⟨input, extra, own, hv, plain, hextra, hown, -⟩ := parses_object_iff.mp h
    exact ⟨input, Option.some.inj hv, plain, (fields_iff input).mp ⟨own, hown⟩,
      (others_iff input).mp ⟨extra, hextra⟩⟩
  · rintro ⟨input, rfl, plain, hfields, hothers⟩
    obtain ⟨own, hown⟩ := (fields_iff input).mpr hfields
    obtain ⟨extra, hextra⟩ := (others_iff input).mpr hothers
    exact ⟨_, parses_object_iff.mpr ⟨input, extra, own, rfl, plain, hextra, hown, rfl⟩⟩

/-! ## Nodes without objects -/

/-- No object, no default and no transform. -/
def Flat : Node → Prop
  | .object .. | .withDefault .. | .transform .. => False
  | _ => True

theorem keptByMerging_flat : KeptByMerging Flat := by
  refine ⟨fun n hn => ?_, fun _ _ _ _ _ _ => trivial, fun _ _ _ _ _ hl _ => hl.elim⟩
  cases n with
  | object | withDefault | transform => cases hn
  | _ => trivial

theorem Flat.untransformed {n : Node} (h : Flat n) : Untransformed n := by
  cases n with
  | object | withDefault | transform => exact h.elim
  | _ => trivial

theorem ComesTo.flat {n core : Node} (h : ComesTo v n core) (hn : Every Flat n) :
    Every Flat core := by
  induction h with
  | core => exact hn
  | optional _ ih | nullable _ _ ih => exact ih (hn.inner rfl)
  | null => exact .of_leaf trivial rfl
  | intersection hm _ ih => exact ih (hn.merged keptByMerging_flat hm)

end Node

end DocSchema

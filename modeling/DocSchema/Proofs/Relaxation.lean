-- SUMMARY: Schemas without transforms, what relaxing a field keeps, and what answers absence.
import DocSchema.Proofs.HouseRules
import DocSchema.Proofs.Parses
import DocSchema.Update.Relax
import DocSchema.Validator.Document

/-!
# Relaxed fields

Relaxing takes the defaults off the wrappers of a field and lets an array field
take single elements as well. Without transforms it changes nothing for a value
that the field accepts. For an absent field only the defaults count that it does
not reach: those below a union, an intersection or an array element, which are
what `Answers` is about.
-/

namespace DocSchema

namespace Node

/-! ## Properties of schemas -/

def Untransformed : Node → Prop
  | .transform .. => False
  | _ => True

/-- An object without a catchall. -/
def Closed : Node → Prop
  | .object _ catchall => catchall = none
  | _ => True

/-- A default that is the same in every context. -/
def Fixed : Node → Prop
  | .withDefault _ default => ∀ ctx ctx', default ctx = default ctx'
  | _ => True

/-- An object whose fields have names that the house rules allow. -/
def Named : Node → Prop
  | .object fields _ => ∀ f ∈ fields, nameRule? f.1 = none
  | _ => True

theorem keptByMerging_untransformed : KeptByMerging Untransformed := by
  refine ⟨fun n hn => ?_, fun _ _ _ _ _ _ => trivial, fun shared gs c d m _ _ => trivial⟩
  cases n with
  | transform => cases hn
  | _ => trivial

theorem keptByMerging_closed : KeptByMerging Closed := by
  refine ⟨fun n hn => ?_, fun _ _ _ _ _ _ => trivial, fun shared gs c d m hc _ => ?_⟩
  · cases n with
    | object => cases hn
    | _ => trivial
  · unfold Closed at hc ⊢
    rw [hc]
    rfl

theorem keptByMerging_fixed : KeptByMerging Fixed := by
  refine ⟨fun n hn => ?_, fun _ _ _ _ _ _ => trivial, fun shared gs c d m _ _ => trivial⟩
  cases n with
  | withDefault => cases hn
  | _ => trivial

theorem keptByMerging_named : KeptByMerging Named := by
  refine ⟨fun n hn => ?_, fun _ _ _ _ _ _ => trivial, fun shared gs c d m hl hr => ?_⟩
  · cases n with
    | object => cases hn
    | _ => trivial
  · intro f hf
    rcases List.mem_append.mp hf with hf | hf
    · obtain ⟨g, hg, rfl⟩ := List.mem_map.mp hf
      exact hl g.first (List.mem_map.mpr ⟨g, hg, rfl⟩)
    · exact hr f (List.mem_filter.mp hf).1

/-! ## House rules -/

/-- What obeys the house rules has allowed names only, and so have the nodes below. -/
theorem Obeys.named {inherited : List StringCheck} {n : Node} (h : Obeys inherited n) :
    Every Named n := by
  induction h with
  | object hnames _ _ ihFields ihCatchall => exact .of_object hnames ihFields ihCatchall
  | tuple _ ih => exact .intro trivial ih
  | union _ _ ih => exact .intro trivial ih
  | discriminated _ _ _ ih => exact .intro trivial ih
  | intersection _ _ ihLeft ihRight =>
    exact .intro trivial (List.forall_mem_cons.mpr ⟨ihLeft, List.forall_mem_singleton.mpr ihRight⟩)
  | array _ ih | record _ ih | optional _ ih | nullable _ ih | withDefault _ ih | transform _ ih =>
    exact .of_inner trivial rfl ih
  | _ => exact .of_leaf trivial rfl

theorem named_of_lint {root : Node} {u : Unit} (h : root.lint = .ok u) : Every Named root :=
  (lintAt_eq_ok_iff.mp h).named

/-! ## Values -/

variable {ctx : Context}

/-- The same value, or two arrays, or two objects. -/
inductive SameForm : Value → Value → Prop where
  | refl (v : Value) : SameForm v v
  | array (xs ys : List Value) : SameForm (.array xs) (.array ys)
  | object (fs gs : Entries Value) : SameForm (.object fs) (.object gs)

/-- Without transforms a value that is accepted gives a value of its form. -/
theorem Parses.sameForm {n : Node} (plain : Every Untransformed n) {v : Value}
    {result : Option Value} (h : Parses ctx n (some v) result) :
    ∃ w, result = some w ∧ SameForm v w := by
  induction n using Node.inductionOn generalizing v result with
  | object =>
    obtain ⟨_, _, _, hv, -, -, -, rfl⟩ := parses_object_iff.mp h
    cases hv
    exact ⟨_, rfl, .object _ _⟩
  | array =>
    obtain ⟨_, _, hv, -, rfl⟩ := parses_array_iff.mp h
    cases hv
    exact ⟨_, rfl, .array _ _⟩
  | tuple =>
    obtain ⟨_, _, hv, -, -, rfl⟩ := parses_tuple_iff.mp h
    cases hv
    exact ⟨_, rfl, .array _ _⟩
  | record =>
    obtain ⟨_, _, hv, -, -, rfl⟩ := parses_record_iff.mp h
    cases hv
    exact ⟨_, rfl, .object _ _⟩
  | union options ih =>
    obtain ⟨before, option, after, rfl, -, hoption⟩ := parses_union_iff.mp h
    have hmem : option ∈ before ++ option :: after := by simp
    exact ih option hmem (plain.child hmem) hoption
  | discriminated key options ih =>
    obtain ⟨_, _, option, -, -, -, hchosen, hoption⟩ := parses_discriminated_iff.mp h
    have hmem : option ∈ options := List.mem_of_find?_eq_some hchosen
    exact ih option hmem (plain.child hmem) hoption
  | intersection left right ih =>
    obtain ⟨merged, hmerges, hmerged⟩ := parses_intersection_iff.mp h
    exact ih merged hmerges (plain.merged keptByMerging_untransformed hmerges) hmerged
  | optional inner ih => exact ih (plain.inner rfl) (parses_optional_some.mp h)
  | nullable inner ih =>
    by_cases hnull : some v = some Value.null
    · cases hnull
      exact ⟨_, parses_nullable_null.mp h, .refl _⟩
    · exact ih (plain.inner rfl) ((parses_nullable_of_ne hnull).mp h)
  | withDefault inner default ih => exact ih (plain.inner rfl) (parses_withDefault_some.mp h)
  | transform => exact plain.here.elim
  | enum | literal | string | number | boolean | date | null | any | never =>
    exact ⟨v, h.leaf rfl, .refl v⟩

theorem Parses.some_of_untransformed {n : Node} (plain : Every Untransformed n) {v : Value}
    {result : Option Value} (h : Parses ctx n (some v) result) :
    ∃ w, result = some w ∧ w.isObject = v.isObject := by
  obtain ⟨w, rfl, hform⟩ := h.sameForm plain
  refine ⟨w, rfl, ?_⟩
  cases hform <;> rfl

/-- Without transforms and with fixed defaults all contexts are alike. -/
theorem Parses.of_fixed {ctx' : Context} {n : Node} (plain : Every Untransformed n)
    (fixed : Every Fixed n) {value result : Option Value} (h : Parses ctx n value result) :
    Parses ctx' n value result := by
  induction n using Node.inductionOn generalizing ctx ctx' value result with
  | object fields catchall ihFields ihCatchall =>
    obtain ⟨input, extra, own, hvalue, hkind, hextra, hown, hresult⟩ := parses_object_iff.mp h
    refine parses_object_iff.mpr ⟨input, extra, own, hvalue, hkind, hextra.imp ?_, hown.imp ?_,
      hresult⟩
    · rintro e - r ⟨rest, rfl, hr⟩
      exact ⟨rest, rfl, ihCatchall rest rfl plain.catchall fixed.catchall hr⟩
    · intro f hf r hr
      exact ihFields f hf (plain.field hf) (fixed.field hf) hr
  | array item ih =>
    obtain ⟨items, parsed, hvalue, hparsed, hresult⟩ := parses_array_iff.mp h
    exact parses_array_iff.mpr ⟨items, parsed, hvalue,
      hparsed.imp fun _ _ hr => ih (plain.inner rfl) (fixed.inner rfl) hr, hresult⟩
  | tuple items ih =>
    obtain ⟨vs, parsed, hvalue, hlength, hparsed, hresult⟩ := parses_tuple_iff.mp h
    refine parses_tuple_iff.mpr ⟨vs, parsed, hvalue, hlength, ?_, hresult⟩
    refine forall₂_imp_of_mem hparsed fun e he w hw => ?_
    have hitem := (List.of_mem_zip he).1
    exact ih e.1 hitem (plain.child hitem) (fixed.child hitem) hw
  | record inner ih =>
    obtain ⟨input, out, hvalue, hkind, hout, hresult⟩ := parses_record_iff.mp h
    exact parses_record_iff.mpr ⟨input, out, hvalue, hkind,
      hout.imp fun _ _ _ hr => ih (plain.inner rfl) (fixed.inner rfl) hr, hresult⟩
  | union options ih =>
    obtain ⟨before, option, after, rfl, hbefore, hoption⟩ := parses_union_iff.mp h
    have each {o : Node} (ho : o ∈ before ++ option :: after) {ctx ctx' : Context}
        {r : Option Value} (hr : Parses ctx o value r) : Parses ctx' o value r :=
      ih o ho (plain.child ho) (fixed.child ho) hr
    refine parses_union_iff.mpr ⟨before, option, after, rfl, fun earlier he r hr => ?_, ?_⟩
    · exact hbefore earlier he r (each (List.mem_append_left _ he) hr)
    · exact each (by simp) hoption
  | discriminated key options ih =>
    obtain ⟨input, tag, option, hvalue, hkind, htag, hchosen, hoption⟩ :=
      parses_discriminated_iff.mp h
    have hmem : option ∈ options := List.mem_of_find?_eq_some hchosen
    exact parses_discriminated_iff.mpr ⟨input, tag, option, hvalue, hkind, htag, hchosen,
      ih option hmem (plain.child hmem) (fixed.child hmem) hoption⟩
  | intersection left right ih =>
    obtain ⟨merged, hmerges, hmerged⟩ := parses_intersection_iff.mp h
    exact parses_intersection_iff.mpr ⟨merged, hmerges,
      ih merged hmerges (plain.merged keptByMerging_untransformed hmerges)
        (fixed.merged keptByMerging_fixed hmerges) hmerged⟩
  | optional inner ih =>
    cases value with
    | none => exact parses_optional_none.mpr (parses_optional_none.mp h)
    | some v =>
      exact parses_optional_some.mpr (ih (plain.inner rfl) (fixed.inner rfl)
        (parses_optional_some.mp h))
  | nullable inner ih =>
    by_cases hnull : value = some .null
    · subst hnull
      exact parses_nullable_null.mpr (parses_nullable_null.mp h)
    · exact (parses_nullable_of_ne hnull).mpr (ih (plain.inner rfl) (fixed.inner rfl)
        ((parses_nullable_of_ne hnull).mp h))
  | withDefault inner default ih =>
    cases value with
    | none =>
      rw [parses_withDefault_none] at h ⊢
      rw [← fixed.here ctx ctx']
      exact ih (plain.inner rfl) (fixed.inner rfl) h
    | some v =>
      exact parses_withDefault_some.mpr (ih (plain.inner rfl) (fixed.inner rfl)
        (parses_withDefault_some.mp h))
  | transform => exact plain.here.elim
  | enum => exact parses_enum_iff.mpr (parses_enum_iff.mp h)
  | literal => exact parses_literal_iff.mpr (parses_literal_iff.mp h)
  | string => exact parses_string_iff.mpr (parses_string_iff.mp h)
  | number => exact parses_number_iff.mpr (parses_number_iff.mp h)
  | boolean => exact parses_boolean_iff.mpr (parses_boolean_iff.mp h)
  | date => exact parses_date_iff.mpr (parses_date_iff.mp h)
  | null => exact parses_null_iff.mpr (parses_null_iff.mp h)
  | any => exact parses_any_iff.mpr (parses_any_iff.mp h)
  | never => exact (not_parses_never h).elim

/-! ## Relaxing -/

/-- A present value does not reach the defaults that are taken off. -/
theorem parser_stripDefaults_some (n : Node) (v : Value) (ctx : Context) (location : Location) :
    n.stripDefaults.parser (some v) ctx location = n.parser (some v) ctx location := by
  induction n using stripDefaults.induct with
  | case1 inner default ih => rw [stripDefaults, ih, parser, Parser.withDefault]
  | case2 inner ih => rw [stripDefaults, parser, parser, Parser.optional, ih, Parser.optional]
  | case3 inner ih =>
    rw [stripDefaults, parser, parser]
    cases v with
    | null => rfl
    | _ => exact ih
  | case4 inner facet apply ih =>
    rw [stripDefaults, parser, parser, Parser.transform, ih, Parser.transform]
  | case5 n => rw [stripDefaults] <;> assumption

theorem parses_stripDefaults_some {n : Node} {v : Value} {result : Option Value} :
    Parses ctx n.stripDefaults (some v) result ↔ Parses ctx n (some v) result := by
  unfold Parses Parser.Yields
  rw [parser_stripDefaults_some]

/-- An array field takes arrays, and null where a wrapper lets it. -/
theorem eq_array_or_null_of_arrayItem? {n item : Node} (h : n.arrayItem? = some item) {v : Value}
    {result : Option Value} (hparses : Parses ctx n (some v) result) :
    v = .null ∨ ∃ items, v = .array items := by
  induction n using arrayItem?.induct generalizing result with
  | case1 item' =>
    obtain ⟨items, _, hv, -, -⟩ := parses_array_iff.mp hparses
    cases hv
    exact .inr ⟨items, rfl⟩
  | case2 inner ih => exact ih h (parses_optional_some.mp hparses)
  | case3 inner ih =>
    by_cases hnull : some v = some Value.null
    · cases hnull
      exact .inl rfl
    · exact ih h ((parses_nullable_of_ne hnull).mp hparses)
  | case4 inner default ih => exact ih h (parses_withDefault_some.mp hparses)
  | case5 inner facet apply ih =>
    obtain ⟨_, hinner, -, -⟩ := parses_transform_iff.mp hparses
    exact ih h hinner
  | case6 n hother => rw [arrayItem?] at h <;> first | cases h | assumption

theorem Every.arrayItem {P : Node → Prop} {n item : Node} (h : Every P n)
    (hitem : n.arrayItem? = some item) : Every P item := by
  induction n using arrayItem?.induct with
  | case1 item' =>
    cases hitem
    exact h.inner rfl
  | case2 inner ih | case3 inner ih => exact ih (h.inner rfl) hitem
  | case4 inner default ih => exact ih (h.inner rfl) hitem
  | case5 inner facet apply ih => exact ih (h.inner rfl) hitem
  | case6 n hother => rw [arrayItem?] at hitem <;> first | cases hitem | assumption

theorem untransformed_stripDefaults {n : Node} (h : Every Untransformed n) :
    Every Untransformed n.stripDefaults := by
  induction n using stripDefaults.induct with
  | case1 inner default ih => exact ih (h.inner rfl)
  | case2 inner ih => exact .of_inner trivial rfl (ih (h.inner rfl))
  | case3 inner ih => exact .of_inner trivial rfl (ih (h.inner rfl))
  | case4 inner facet apply ih => exact h.here.elim
  | case5 n => rw [stripDefaults] <;> assumption

theorem untransformed_eachShape {item : Node} (h : Every Untransformed item) :
    Every Untransformed (eachShape item) := by
  have hoptional : Every Untransformed (.optional .integer) :=
    .of_inner trivial rfl (.of_leaf trivial rfl)
  refine .of_object trivial ?_ (by simp)
  simp only [List.forall_mem_cons, List.not_mem_nil, false_imp_iff, implies_true, and_true]
  exact ⟨.of_inner trivial rfl h, hoptional, hoptional⟩

theorem untransformed_relax {n : Node} (h : Every Untransformed n) :
    Every Untransformed n.relax := by
  unfold relax
  split
  · next item hitem =>
    refine .intro trivial (List.forall_mem_cons.mpr ⟨untransformed_stripDefaults h, ?_⟩)
    exact List.forall_mem_cons.mpr ⟨h.arrayItem hitem,
      List.forall_mem_singleton.mpr (untransformed_eachShape (h.arrayItem hitem))⟩
  · exact untransformed_stripDefaults h

theorem acceptsAbsent_relax_array (item : Node) :
    (array item).relax.acceptsAbsent = item.acceptsAbsent := by
  simp [relax, arrayItem?, acceptsAbsent, anyAcceptsAbsent, stripDefaults, eachShape]

/-- A relaxed field gives for a value what the field itself gives. -/
theorem parses_relax_some {n : Node} {v : Value} {result : Option Value}
    (h : Parses ctx n (some v) result) : Parses ctx n.relax (some v) result := by
  have hstripped := parses_stripDefaults_some.mpr h
  unfold relax
  split
  · exact parses_union_iff.mpr ⟨[], _, _, rfl, List.forall_mem_nil _, hstripped⟩
  · exact hstripped

/-! ## Absence -/

/-- A default that stayed on the node gives `v` for an absent field. -/
inductive Answers (ctx : Context) (v : Value) : Node → Prop where
  | given {inner : Node} {default : Default} {d : Value} :
    default ctx = some d → Parses ctx inner (some d) (some v) →
      Answers ctx v (.withDefault inner default)
  | declined {inner : Node} {default : Default} :
    default ctx = none → Answers ctx v inner → Answers ctx v (.withDefault inner default)
  | nullable {inner : Node} : Answers ctx v inner → Answers ctx v (.nullable inner)
  | union {before after : List Node} {option : Node} :
    (∀ earlier ∈ before, ∀ r, ¬ Parses ctx earlier none r) → Answers ctx v option →
      Answers ctx v (.union (before ++ option :: after))
  | intersection {left right merged : Node} :
    Merges left right merged → Answers ctx v merged → Answers ctx v (.intersection left right)

/-- Without transforms only a default makes a value out of absence. -/
theorem parses_none_some_iff {n : Node} (plain : Every Untransformed n) {v : Value} :
    Parses ctx n none (some v) ↔ Answers ctx v n := by
  induction n using Node.inductionOn with
  | object | array | tuple | discriminated | record | enum | literal | string | number | boolean
    | date | null =>
    refine iff_of_false ?_ (by rintro ⟨⟩)
    simp [parses_object_iff, parses_array_iff, parses_tuple_iff, parses_discriminated_iff,
      parses_record_iff, parses_enum_iff, parses_literal_iff, parses_string_iff,
      parses_number_iff, parses_boolean_iff, parses_date_iff, parses_null_iff]
  | never => exact iff_of_false not_parses_never (by rintro ⟨⟩)
  | any => exact iff_of_false (by simp [parses_any_iff]) (by rintro ⟨⟩)
  | optional => exact iff_of_false (by simp [parses_optional_none]) (by rintro ⟨⟩)
  | transform => exact plain.here.elim
  | nullable inner ih =>
    rw [parses_nullable_of_ne (Option.some_ne_none _).symm, ih (plain.inner rfl)]
    exact ⟨.nullable, fun | .nullable h => h⟩
  | withDefault inner default ih =>
    rw [parses_withDefault_none]
    constructor
    · intro h
      cases hd : default ctx with
      | none =>
        rw [hd] at h
        exact .declined hd ((ih (plain.inner rfl)).mp h)
      | some d =>
        rw [hd] at h
        exact .given hd h
    · intro h
      cases h with
      | given hd h => rw [hd]; exact h
      | declined hd h => rw [hd]; exact (ih (plain.inner rfl)).mpr h
  | union options ih =>
    constructor
    · intro h
      obtain ⟨before, option, after, rfl, hbefore, hoption⟩ := parses_union_iff.mp h
      have hmem : option ∈ before ++ option :: after := by simp
      exact .union hbefore ((ih option hmem (plain.child hmem)).mp hoption)
    · intro h
      cases h with
      | @union before after option hbefore hoption =>
        have hmem : option ∈ before ++ option :: after := by simp
        exact parses_union_iff.mpr ⟨before, option, after, rfl, hbefore,
          (ih option hmem (plain.child hmem)).mpr hoption⟩
  | intersection left right ih =>
    have hplain {merged : Node} (hmerges : Merges left right merged) : Every Untransformed merged :=
      plain.merged keptByMerging_untransformed hmerges
    constructor
    · intro h
      obtain ⟨merged, hmerges, hmerged⟩ := parses_intersection_iff.mp h
      exact .intersection hmerges ((ih merged hmerges (hplain hmerges)).mp hmerged)
    · intro h
      cases h with
      | @intersection _ _ merged hmerges hmerged =>
        exact parses_intersection_iff.mpr ⟨merged, hmerges,
          (ih merged hmerges (hplain hmerges)).mpr hmerged⟩

theorem Answers.acceptsAbsent {n : Node} {v : Value} (h : Answers ctx v n) :
    n.acceptsAbsent = true := by
  induction h with
  | given | declined => rw [Node.acceptsAbsent]
  | nullable _ ih => rw [Node.acceptsAbsent]; exact ih
  | union _ _ ih =>
    rw [Node.acceptsAbsent, anyAcceptsAbsent_iff]
    exact ⟨_, by simp, ih⟩
  | intersection hmerges _ ih =>
    rw [Node.acceptsAbsent]
    simp [hmerges.acceptsAbsent ih]

/-! ## Roots -/

/-- The root of a schema is the object, or an intersection that merges to it. -/
def ResolvesTo (root object : Node) : Prop :=
  root = object ∨ ∃ left right, root = .intersection left right ∧ Merges left right object

theorem ResolvesTo.every {P : Node → Prop} (kept : KeptByMerging P) {root object : Node}
    (h : root.ResolvesTo object) (hroot : Every P root) : Every P object := by
  rcases h with rfl | ⟨left, right, rfl, hmerges⟩
  · exact hroot
  · exact hroot.merged kept hmerges

theorem ResolvesTo.parses_iff {root object : Node} (h : root.ResolvesTo object)
    {value result : Option Value} :
    Parses ctx root value result ↔ Parses ctx object value result := by
  rcases h with rfl | ⟨left, right, rfl, hmerges⟩
  · exact Iff.rfl
  · rw [parses_intersection_iff]
    constructor
    · rintro ⟨merged, hmerged, h⟩
      exact hmerges.unique hmerged ▸ h
    · exact fun h => ⟨object, hmerges, h⟩

theorem mergedRoot_eq_ok {root merged : Node} (h : root.mergedRoot = .ok merged) :
    root.ResolvesTo merged := by
  unfold mergedRoot at h
  split at h
  · next left right => exact .inr ⟨left, right, rfl, intersect_eq_ok_iff.mp h⟩
  · cases h
    exact .inl rfl

/-- A schema is relaxed as the object that its root resolves to. -/
theorem relaxed_eq_ok {root : Node} {s : UpdateSchema} (h : root.relaxed = .ok s) :
    root.ResolvesTo (.object s.base s.catchall) := by
  unfold relaxed at h
  cases root with
  | object fields catchall =>
    cases h
    exact .inl rfl
  | intersection left right =>
    dsimp only at h
    rw [Outcome.bind_eq_ok] at h
    obtain ⟨merged, hmerged, h⟩ := h
    split at h
    · cases h
      exact .inr ⟨left, right, rfl, intersect_eq_ok_iff.mp hmerged⟩
    · cases h
  | _ => cases h

end Node

end DocSchema

-- SUMMARY: Schemas that leave every value that they accept as it is.
import DocSchema.Proofs.Agreement
import DocSchema.Proofs.Relaxation

/-!
# Direct schemas

Without unions, intersections, defaults and transforms a schema only says yes or
no: the parser gives back what it is given, and absence stays absence. The parser
and the compiled validator of such a schema accept the same documents.
-/

namespace DocSchema

namespace Node

variable {ctx : Context}

/-- A node that offers no choice and rewrites nothing. -/
def Direct : Node → Prop
  | .union _ | .intersection .. | .withDefault .. | .transform .. => False
  | _ => True

theorem untransformed_of_direct {n : Node} (h : Every Direct n) : Every Untransformed n := by
  induction n using of_children with
  | step n ih =>
    refine .intro ?_ fun child hc => ih child hc (h.child hc)
    cases n with
    | transform => exact h.here.elim
    | _ => trivial

theorem plain_of_direct {n : Node} (h : Every Direct n) : Every (Plain ctx) n := by
  induction n using of_children with
  | step n ih =>
    refine .intro ?_ fun child hc => ih child hc (h.child hc)
    cases n with
    | intersection | withDefault | transform => exact h.here.elim
    | _ => trivial

/-- No transform is asked where a direct field is absent. -/
theorem facetsAdmit_of_direct {n : Node} (h : Every Direct n) : FacetsAdmit ctx n := by
  intro inner facet apply sees
  generalize ht : Node.transform inner facet apply = t at sees
  induction sees with
  | here =>
    subst ht
    exact h.here.elim
  | nullable _ ih => exact ih (h.inner rfl)
  | transform | withDefault | union => exact h.here.elim

theorem admitsFilled_of_direct {n : Node} (h : Every Direct n) : Every (AdmitsFilled ctx) n := by
  induction n using of_children with
  | step n ih =>
    refine .intro ?_ fun child hc => ih child hc (h.child hc)
    cases n with
    | object fields catchall => exact fun f hf => facetsAdmit_of_direct (h.field hf)
    | _ => trivial

/-- The parser of the node accepts the value. -/
def Passes (ctx : Context) (n : Node) (v : Value) : Prop := ∃ result, Parses ctx n (some v) result

/-- What the parser of a direct schema accepts, its validator accepts, and conversely. -/
theorem isValid_iff_of_direct {schema : Node} {validator : Validator}
    (compiled : schema.compile = .ok validator) (direct : Every Direct schema)
    (distinct : Every Distinct schema) {document : Value} (ordered : document.Ordered) :
    validator.isValid document = true ↔ Passes ctx schema document := by
  obtain ⟨hcompiles, hvalid⟩ := compile_eq_ok compiled
  rw [hvalid]
  exact (agrees ⟨plain_of_direct direct, admitsFilled_of_direct direct, distinct⟩ ordered _
    hcompiles).symm

/-! ## Values -/

theorem eq_of_collects {entries out : Entries Value} {R : String × Value → Option Value → Prop}
    (h : Collects R entries out) (same : ∀ e ∈ entries, ∀ r, R e r → r = some e.2) :
    out = entries := by
  induction h with
  | nil => rfl
  | @keep e v rest out hr _ ih =>
    obtain ⟨hfirst, hrest⟩ := List.forall_mem_cons.mp same
    cases hfirst _ hr
    rw [ih hrest]
  | drop hr _ ih =>
    obtain ⟨hfirst, -⟩ := List.forall_mem_cons.mp same
    cases hfirst _ hr

/-- An object whose parts come out as they are comes out as it is. -/
theorem ofList_eq_of_collects {fields : List (String × Node)} {catchall : Option Node}
    {input extra own : Entries Value} (sorted : Entries.Sorted input)
    (hextra : Collects (ParsesOthers ctx catchall) (undeclared fields input) extra)
    (hown : Collects (ParsesField ctx input) fields own)
    (others : ∀ rest, catchall = some rest → ∀ e ∈ input, ∀ r, Parses ctx rest (some e.2) r →
      r = some e.2)
    (declared : ∀ f ∈ fields, ∀ r, Parses ctx f.2 (Entries.get? input f.1) r →
      r = Entries.get? input f.1) : Entries.ofList (extra ++ own) = input := by
  have hsame : extra = undeclared fields input := by
    refine eq_of_collects hextra fun e he r hr => ?_
    obtain ⟨rest, hrest, hr⟩ := hr
    exact others rest hrest e (mem_undeclared_iff.mp he).1 r hr
  refine (Entries.sorted_ofList _).ext sorted fun key => ?_
  refine Entries.get?_ofList_of_forall (fun v hv => ?_) fun hmissing => ?_
  · rcases List.mem_append.mp hv with hv | hv
    · rw [hsame] at hv
      exact Entries.get?_of_mem sorted.distinct (mem_undeclared_iff.mp hv).1
    · obtain ⟨f, hf, hname, hr⟩ := hown.source hv
      rw [← hname]
      exact (declared f hf _ hr).symm
  · rw [List.map_append, List.mem_append, not_or] at hmissing
    cases hget : Entries.get? fields key with
    | some n =>
      have hf := Entries.mem_of_get? hget
      rcases hown.target hf with hnone | ⟨v, -, hv⟩
      · exact (declared _ hf _ hnone).symm
      · exact (hmissing.2 (List.mem_map.mpr ⟨_, hv, rfl⟩)).elim
    | none =>
      cases hinput : Entries.get? input key with
      | none => rfl
      | some v =>
        refine (hmissing.1 (List.mem_map.mpr ⟨(key, v), ?_, rfl⟩)).elim
        rw [hsame]
        exact mem_undeclared_iff.mpr ⟨Entries.mem_of_get? hinput, hget⟩

/-- A direct schema leaves what it accepts as it is. -/
theorem Parses.eq_of_direct {n : Node} (direct : Every Direct n)
    {value result : Option Value} (ordered : ∀ v, value = some v → v.Ordered)
    (h : Parses ctx n value result) : result = value := by
  induction n using Node.inductionOn generalizing value result with
  | object fields catchall ihFields ihCatchall =>
    obtain ⟨input, extra, own, rfl, -, hextra, hown, rfl⟩ := parses_object_iff.mp h
    have hinput := ordered _ rfl
    have hsorted : Entries.Sorted input := (Value.ordered_object_iff.mp hinput).1
    have hvalues {key : String} {v : Value} (hv : Entries.get? input key = some v) : v.Ordered :=
      Value.ordered_of_mem_fields hinput (Entries.mem_of_get? hv)
    rw [ofList_eq_of_collects hsorted hextra hown]
    · rintro rest rfl e he r hr
      refine ihCatchall rest rfl direct.catchall (fun v hv => ?_) hr
      cases hv
      exact Value.ordered_of_mem_fields hinput he
    · intro f hf r hr
      exact ihFields f hf (direct.field hf) (fun v hv => hvalues hv) hr
  | array item ih =>
    obtain ⟨items, parsed, rfl, hparsed, rfl⟩ := parses_array_iff.mp h
    have heq : List.Forall₂ Eq items parsed := forall₂_imp_of_mem hparsed fun v hv w hw =>
      (Option.some.inj (ih (direct.inner rfl) (fun u hu => by
        cases hu
        exact Value.ordered_of_mem (ordered _ rfl) hv) hw)).symm
    rw [List.forall₂_eq_eq_eq] at heq
    rw [heq]
  | tuple items ih =>
    obtain ⟨vs, parsed, rfl, hlength, hparsed, rfl⟩ := parses_tuple_iff.mp h
    have heq : List.Forall₂ (fun e w => e.2 = w) (items.zip vs) parsed :=
      forall₂_imp_of_mem hparsed fun e he w hw => by
        obtain ⟨hitem, hvalue⟩ := List.of_mem_zip he
        exact (Option.some.inj (ih e.1 hitem (direct.child hitem)
          (fun u hu => by
            cases hu
            exact Value.ordered_of_mem (ordered _ rfl) hvalue) hw)).symm
    rw [← List.forall₂_map_left_iff, List.map_snd_zip (Nat.le_of_eq hlength),
      List.forall₂_eq_eq_eq] at heq
    rw [heq]
  | record inner ih =>
    obtain ⟨input, out, rfl, -, hout, rfl⟩ := parses_record_iff.mp h
    rw [eq_of_collects hout fun e he r hr => ih (direct.inner rfl)
      (fun v hv => by
        cases hv
        exact Value.ordered_of_mem_fields (ordered _ rfl) he) hr]
  | discriminated key options ih =>
    obtain ⟨_, _, option, -, -, -, hchosen, hoption⟩ := parses_discriminated_iff.mp h
    have hmem : option ∈ options := List.mem_of_find?_eq_some hchosen
    exact ih option hmem (direct.child hmem) ordered hoption
  | optional inner ih =>
    cases value with
    | none => exact parses_optional_none.mp h
    | some v => exact ih (direct.inner rfl) ordered (parses_optional_some.mp h)
  | nullable inner ih =>
    by_cases hnull : value = some .null
    · subst hnull
      exact parses_nullable_null.mp h
    · exact ih (direct.inner rfl) ordered ((parses_nullable_of_ne hnull).mp h)
  | union | intersection | withDefault | transform => exact direct.here.elim
  | enum | literal | string | number | boolean | date | null | any | never => exact h.leaf rfl

/-! ## Arrays -/

/-- A field of array type accepts the arrays whose elements the item type accepts. -/
theorem passes_array_iff {n item : Node} (direct : Every Direct n)
    (hitem : n.arrayItem? = some item) {items : List Value} :
    Passes ctx n (.array items) ↔ ∀ v ∈ items, Passes ctx item v := by
  unfold Passes
  induction n using arrayItem?.induct with
  | case1 item' =>
    cases hitem
    simp only [parses_array_iff]
    constructor
    · rintro ⟨_, items', parsed, hv, hparsed, -⟩ v hv'
      cases hv
      obtain ⟨w, -, hw⟩ := exists_of_mem_left hparsed hv'
      exact ⟨_, hw⟩
    · intro h
      have hsome : ∀ v ∈ items, ∃ w, Parses ctx item (some v) (some w) := fun v hv => by
        obtain ⟨r, hr⟩ := h v hv
        obtain ⟨w, rfl, -⟩ :=
          hr.some_of_untransformed (untransformed_of_direct (direct.inner rfl))
        exact ⟨w, hr⟩
      obtain ⟨parsed, hparsed⟩ := exists_forall₂_iff.mpr hsome
      exact ⟨_, items, parsed, rfl, hparsed, rfl⟩
  | case2 inner ih =>
    simp only [parses_optional_some]
    exact ih (direct.inner rfl) hitem
  | case3 inner ih =>
    have hne : some (Value.array items) ≠ some .null := by simp
    simp only [parses_nullable_of_ne hne]
    exact ih (direct.inner rfl) hitem
  | case4 | case5 => exact direct.here.elim
  | case6 n hother => rw [arrayItem?] at hitem <;> first | cases hitem | assumption

/-! ## Objects -/

theorem passes_object_iff {fields : List (String × Node)} {catchall : Option Node}
    {input : Entries Value} : Passes ctx (.object fields catchall) (.object input) ↔
      (Value.object input).kind = .object ∧
      (∀ e ∈ undeclared fields input, ∃ r, ParsesOthers ctx catchall e r) ∧
      ∀ f ∈ fields, ∃ r, ParsesField ctx input f r := by
  unfold Passes
  rw [← Collects.exists_iff, ← Collects.exists_iff]
  simp only [parses_object_iff]
  constructor
  · rintro ⟨_, input', extra, own, hinput, hkind, hextra, hown, -⟩
    cases hinput
    exact ⟨hkind, ⟨extra, hextra⟩, own, hown⟩
  · rintro ⟨hkind, ⟨extra, hextra⟩, own, hown⟩
    exact ⟨_, input, extra, own, rfl, hkind, hextra, hown, rfl⟩

theorem Passes.exists_object {fields : List (String × Node)} {catchall : Option Node} {v : Value}
    (h : Passes ctx (.object fields catchall) v) : ∃ input, v = .object input := by
  obtain ⟨_, hparses⟩ := h
  obtain ⟨input, _, _, hv, -⟩ := parses_object_iff.mp hparses
  exact ⟨input, Option.some.inj hv⟩

/-- An object with an array in it is no date. -/
theorem kind_insert_array (fields : Entries Value) (name : String) (items : List Value) :
    (Value.object (Entries.insert fields name (.array items))).kind = .object :=
  Value.kind_of_mem (Entries.mem_of_get? (Entries.get?_insert_self fields name (.array items)))
    fun _ h => by cases h

section Fields

variable {fields : List (String × Node)} {catchall : Option Node} {input : Entries Value}
  {name : String} {n : Node}

/-- What stands under a name passes the type of the name. -/
theorem Passes.field (h : Passes ctx (.object fields catchall) (.object input))
    (hn : (Entries.get? fields name).or catchall = some n) {v : Value}
    (hv : Entries.get? input name = some v) : Passes ctx n v := by
  obtain ⟨-, hothers, hfields⟩ := passes_object_iff.mp h
  cases hdeclared : Entries.get? fields name with
  | some n' =>
    rw [hdeclared, Option.some_or] at hn
    cases hn
    obtain ⟨r, hr⟩ := hfields _ (Entries.mem_of_get? hdeclared)
    unfold ParsesField at hr
    rw [hv] at hr
    exact ⟨r, hr⟩
  | none =>
    rw [hdeclared, Option.none_or] at hn
    have he : (name, v) ∈ undeclared fields input :=
      mem_undeclared_iff.mpr ⟨Entries.mem_of_get? hv, hdeclared⟩
    obtain ⟨r, rest, hrest, hr⟩ := hothers _ he
    cases hrest.symm.trans hn
    exact ⟨r, hr⟩

/-- An object passes also with another array in a field, if the type of the field
accepts the array. -/
theorem Passes.insert (distinct : (Entries.keys fields).Nodup)
    (h : Passes ctx (.object fields catchall) (.object input))
    (hn : (Entries.get? fields name).or catchall = some n) {items : List Value}
    (hitems : Passes ctx n (.array items)) :
    Passes ctx (.object fields catchall) (.object (Entries.insert input name (.array items))) := by
  obtain ⟨-, hothers, hfields⟩ := passes_object_iff.mp h
  refine passes_object_iff.mpr ⟨kind_insert_array .., fun e he => ?_, fun f hf => ?_⟩
  · obtain ⟨he, hundeclared⟩ := mem_undeclared_iff.mp he
    rcases Entries.mem_insert he with rfl | hold
    · rw [hundeclared, Option.none_or] at hn
      obtain ⟨r, hr⟩ := hitems
      exact ⟨r, n, hn, hr⟩
    · exact hothers e (mem_undeclared_iff.mpr ⟨hold, hundeclared⟩)
  · unfold ParsesField
    by_cases hname : name = f.1
    · subst hname
      rw [Entries.get?_of_mem distinct hf, Option.some_or] at hn
      cases hn
      rw [Entries.get?_insert_self]
      exact hitems
    · rw [Entries.get?_insert_of_ne hname]
      exact hfields f hf

end Fields

/-! ## Relaxing -/

theorem stripDefaults_of_direct {n : Node} (direct : Every Direct n) : n.stripDefaults = n := by
  induction n using stripDefaults.induct with
  | case1 | case4 => exact direct.here.elim
  | case2 inner ih | case3 inner ih => rw [stripDefaults, ih (direct.inner rfl)]
  | case5 n => rw [stripDefaults] <;> assumption

theorem direct_eachShape {item : Node} (direct : Every Direct item) :
    Every Direct (eachShape item) := by
  have hoptional : Every Direct (.optional .integer) := .of_inner trivial rfl (.of_leaf trivial rfl)
  refine .of_object trivial ?_ (by simp)
  simp only [List.forall_mem_cons, List.not_mem_nil, false_imp_iff, implies_true, and_true]
  exact ⟨.of_inner trivial rfl direct, hoptional, hoptional⟩

/-- A relaxed field, too, leaves what it accepts as it is. -/
theorem Parses.eq_of_relax {n : Node} (direct : Every Direct n) {value result : Option Value}
    (ordered : ∀ v, value = some v → v.Ordered) (h : Parses ctx n.relax value result) :
    result = value := by
  unfold relax at h
  rw [stripDefaults_of_direct direct] at h
  split at h
  · next item hitem =>
    have hall : ∀ option ∈ [n, item, eachShape item], Every Direct option := by
      simp only [List.forall_mem_cons, List.not_mem_nil, false_imp_iff, implies_true, and_true]
      exact ⟨direct, direct.arrayItem hitem, direct_eachShape (direct.arrayItem hitem)⟩
    obtain ⟨before, option, after, heq, -, hoption⟩ := parses_union_iff.mp h
    exact hoption.eq_of_direct (hall option (by simp [heq])) ordered
  · exact h.eq_of_direct direct ordered

/-- A relaxed array field takes an array, an element, or an object `$each: [...]`. -/
theorem passes_relax_iff {n item : Node} (hitem : n.arrayItem? = some item) {v : Value} :
    Passes ctx n.relax v ↔
      Passes ctx n v ∨ Passes ctx item v ∨ Passes ctx (eachShape item) v := by
  unfold relax Passes
  rw [hitem]
  simp only [exists_parses_union_iff, List.mem_cons, List.not_mem_nil, or_false,
    exists_eq_or_imp, exists_eq_left, parses_stripDefaults_some]

/-- The elements listed under `$each` are accepted one by one. -/
theorem each_of_passes {item : Node} {v : Value} (h : Passes ctx (eachShape item) v) :
    ∃ values, v.field? "$each" = some (.array values) ∧ ∀ x ∈ values, Passes ctx item x := by
  obtain ⟨_, hparses⟩ := h
  obtain ⟨input, _, own, hv, -, -, hown, -⟩ := parses_object_iff.mp hparses
  cases hv
  obtain ⟨r, hr⟩ := Collects.exists_iff.mp ⟨own, hown⟩ _ List.mem_cons_self
  obtain ⟨values, parsed, hvalues, hparsed, -⟩ := parses_array_iff.mp hr
  refine ⟨values, hvalues, fun x hx => ?_⟩
  obtain ⟨w, -, hw⟩ := exists_of_mem_left hparsed hx
  exact ⟨_, hw⟩

end Node

end DocSchema

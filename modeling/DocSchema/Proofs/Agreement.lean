-- SUMMARY: The parser and the compiled validator accept the same documents.
import DocSchema.Proofs.Distinct

/-!
# Parser and validator agree

The parser of a schema and the validator compiled from it are two readings of one
tree. They accept the same documents where nothing is rewritten on the way: no
transform changes a value and every default fits its field, which is `Plain`, and
no facet refuses what an absent field is given, which is `AdmitsFilled`.
-/

namespace DocSchema

/-! ## Ordered values -/

namespace Value

theorem ordered_of_mem {items : List Value} (h : (Value.array items).Ordered) {v : Value}
    (hv : v ∈ items) : v.Ordered := by
  rw [Ordered] at h
  induction items with
  | nil => cases hv
  | cons item rest ih =>
    rw [OrderedItems] at h
    rcases List.mem_cons.mp hv with rfl | hv
    · exact h.1
    · exact ih h.2 hv

theorem ordered_of_mem_fields {fields : Entries Value} (h : (Value.object fields).Ordered)
    {e : String × Value} (he : e ∈ fields) : e.2.Ordered := by
  rw [Ordered] at h
  have hfields := h.2
  clear h
  induction fields with
  | nil => cases he
  | cons f rest ih =>
    obtain ⟨name, v⟩ := f
    rw [OrderedFields] at hfields
    rcases List.mem_cons.mp he with rfl | he
    · exact hfields.1
    · exact ih he hfields.2

theorem ordered_array_iff {items : List Value} :
    (Value.array items).Ordered ↔ ∀ v ∈ items, v.Ordered := by
  refine ⟨fun h _ hv => ordered_of_mem h hv, fun h => ?_⟩
  rw [Ordered]
  induction items with
  | nil => trivial
  | cons item rest ih =>
    obtain ⟨hitem, hrest⟩ := List.forall_mem_cons.mp h
    exact ⟨hitem, ih hrest⟩

theorem ordered_object_iff {fields : Entries Value} :
    (Value.object fields).Ordered ↔ Entries.Sorted fields ∧ ∀ e ∈ fields, e.2.Ordered := by
  constructor
  · intro h
    refine ⟨?_, fun _ he => ordered_of_mem_fields h he⟩
    rw [Ordered] at h
    exact h.1
  · rintro ⟨hsorted, h⟩
    rw [Ordered]
    refine ⟨hsorted, ?_⟩
    clear hsorted
    induction fields with
    | nil => trivial
    | cons f rest ih =>
      obtain ⟨hf, hrest⟩ := List.forall_mem_cons.mp h
      exact ⟨hf, ih hrest⟩

theorem distinct_of_ordered {fields : Entries Value} (h : (Value.object fields).Ordered) :
    (Entries.keys fields).Nodup := (ordered_object_iff.mp h).1.distinct

theorem not_isScalar_array (items : List Value) : ¬ (Value.array items).isScalar = true :=
  Bool.false_ne_true

theorem not_isScalar_object (fields : Entries Value) : ¬ (Value.object fields).isScalar = true :=
  Bool.false_ne_true

/-! ## Dates -/

variable {fields : Entries Value}

theorem eq_of_kind_date (h : (Value.object fields).kind = .date) :
    ∃ text, fields = [(dateKey, .string text)] := by
  unfold kind at h
  dsimp only at h
  split at h
  · next hinstant =>
    unfold instant? at hinstant
    split at hinstant
    · next key text heq =>
      split at hinstant
      · next hkey =>
        subst hkey
        exact ⟨text, object.inj heq⟩
      · cases hinstant
    · cases hinstant
  · cases h

/-- Objects are dates or plain objects. -/
theorem kind_object (h : (Value.object fields).kind ≠ .date) :
    (Value.object fields).kind = .object := by
  unfold kind at h ⊢
  dsimp only at h ⊢
  split
  · next hinstant =>
    rw [if_pos hinstant] at h
    exact (h rfl).elim
  · rfl

/-- An object with an entry that no date has is no date. -/
theorem kind_of_mem {e : String × Value} (he : e ∈ fields)
    (hne : ∀ text, e ≠ (dateKey, .string text)) : (Value.object fields).kind = .object := by
  refine kind_object fun hdate => ?_
  obtain ⟨text, rfl⟩ := eq_of_kind_date hdate
  exact hne text (List.mem_singleton.mp he)

end Value

namespace Node

/-- Nothing is rewritten at a node: a transform is the identity, and a default gives
a value that fits or declines where the field may be absent. -/
def Plain (ctx : Context) : Node → Prop
  | .intersection .. => False
  | .withDefault inner default =>
    match default ctx with
    | some v => ∃ result, Parses ctx inner (some v) result
    | none => inner.acceptsAbsent = true
  | .transform _ _ apply => ∀ value, apply value ctx = .ok value
  | _ => True

/-- What a node is given reaches the nodes below it, and what they give is its result. -/
def Verbatim (ctx : Context) : Node → Prop
  | .intersection .. => False
  | .transform _ _ apply => ∀ value, apply value ctx = .ok value
  | _ => True

/-- The node `t` is asked for a value where a field of type `n` is absent. -/
inductive SeesAbsence (ctx : Context) (t : Node) : Node → Prop where
  | here : SeesAbsence ctx t t
  | nullable {inner : Node} : SeesAbsence ctx t inner → SeesAbsence ctx t (.nullable inner)
  | transform {inner : Node} {facet : Option Facet} {apply : Transform} :
    SeesAbsence ctx t inner → SeesAbsence ctx t (.transform inner facet apply)
  | withDefault {inner : Node} {default : Default} :
    default ctx = none → SeesAbsence ctx t inner → SeesAbsence ctx t (.withDefault inner default)
  | union {options : List Node} {option : Node} :
    option ∈ options → SeesAbsence ctx t option → SeesAbsence ctx t (.union options)

/-- The facets that an absent field of this type meets admit what is given for it. -/
def FacetsAdmit (ctx : Context) (n : Node) : Prop :=
  ∀ inner facet apply, SeesAbsence ctx (.transform inner facet apply) n →
    ∀ result, Parses ctx inner none result → FacetFits facet result

/-- The facets at the fields of an object admit what the fields are given if absent. -/
def AdmitsFilled (ctx : Context) : Node → Prop
  | .object fields _ => ∀ f ∈ fields, FacetsAdmit ctx f.2
  | _ => True

variable {ctx : Context}

/-! ## Absence -/

theorem exists_parses_union_iff {options : List Node} {value : Option Value} :
    (∃ result, Parses ctx (.union options) value result) ↔
      ∃ option ∈ options, ∃ result, Parses ctx option value result := by
  simp only [parses_union_iff]
  constructor
  · rintro ⟨result, before, option, after, rfl, -, hresult⟩
    exact ⟨option, by simp, result, hresult⟩
  · rintro ⟨option, hoption, result, hresult⟩
    induction options with
    | nil => cases hoption
    | cons head rest ih =>
      by_cases hhead : ∃ r, Parses ctx head value r
      · obtain ⟨r, hr⟩ := hhead
        exact ⟨r, [], head, rest, rfl, by simp, hr⟩
      · have hrest : option ∈ rest := by
          rcases List.mem_cons.mp hoption with rfl | hrest
          · exact (hhead ⟨result, hresult⟩).elim
          · exact hrest
        obtain ⟨r, before, chosen, after, rfl, hbefore, hr⟩ := ih hrest
        refine ⟨r, head :: before, chosen, after, rfl, ?_, hr⟩
        refine List.forall_mem_cons.mpr ⟨fun s hs => hhead ⟨s, hs⟩, hbefore⟩

/-- A plain schema parses an absent field exactly where a field may be absent. -/
theorem exists_parses_none_iff {n : Node} (plain : Every (Plain ctx) n)
    (admits : FacetsAdmit ctx n) :
    (∃ result, Parses ctx n none result) ↔ n.acceptsAbsent = true := by
  induction n using Node.inductionOn with
  | object | array | tuple | discriminated | record | enum | literal | string | number | boolean
    | date | null =>
    simp [acceptsAbsent, parses_object_iff, parses_array_iff, parses_tuple_iff,
      parses_discriminated_iff, parses_record_iff, parses_enum_iff, parses_literal_iff,
      parses_string_iff, parses_number_iff, parses_boolean_iff, parses_date_iff, parses_null_iff]
  | never => simp [acceptsAbsent, not_parses_never]
  | any => simp [acceptsAbsent, parses_any_iff]
  | optional inner _ => simp [acceptsAbsent, parses_optional_none]
  | intersection left right _ => exact plain.here.elim
  | union options ih =>
    rw [exists_parses_union_iff, acceptsAbsent, anyAcceptsAbsent_iff]
    have hadmits {option : Node} (hoption : option ∈ options) : FacetsAdmit ctx option :=
      fun _ _ _ h => admits _ _ _ (.union hoption h)
    constructor
    · rintro ⟨option, hoption, hresult⟩
      exact ⟨option, hoption, (ih option hoption (plain.child hoption) (hadmits hoption)).mp
        hresult⟩
    · rintro ⟨option, hoption, habsent⟩
      exact ⟨option, hoption, (ih option hoption (plain.child hoption) (hadmits hoption)).mpr
        habsent⟩
  | nullable inner ih =>
    simp only [parses_nullable_of_ne (Option.some_ne_none _).symm, acceptsAbsent]
    exact ih (plain.inner rfl) fun _ _ _ h => admits _ _ _ (.nullable h)
  | withDefault inner default ih =>
    have hdefault := plain.here
    simp only [parses_withDefault_none, acceptsAbsent, iff_true]
    simp only [Plain] at hdefault
    cases hctx : default ctx with
    | some v => rw [hctx] at hdefault; exact hdefault
    | none =>
      rw [hctx] at hdefault
      exact (ih (plain.inner rfl) fun _ _ _ h => admits _ _ _ (.withDefault hctx h)).mpr hdefault
  | transform inner facet apply ih =>
    have hinner := ih (plain.inner rfl) fun _ _ _ h => admits _ _ _ (.transform h)
    simp only [acceptsAbsent, ← hinner, parses_transform_iff]
    constructor
    · rintro ⟨_, parsed, hparsed, -, -⟩; exact ⟨parsed, hparsed⟩
    · rintro ⟨parsed, hparsed⟩
      exact ⟨parsed, parsed, hparsed, admits _ _ _ .here parsed hparsed, plain.here parsed⟩

/-! ## Scalars -/

theorem Plain.verbatim {n : Node} (h : Plain ctx n) : Verbatim ctx n := by
  cases n with
  | intersection | transform => exact h
  | _ => trivial

/-- Where nothing is rewritten a scalar stays as it is, and comes from nothing else. -/
theorem Parses.scalar_of_verbatim {n : Node} (verbatim : Every (Verbatim ctx) n) {v : Value}
    {result : Option Value} (h : Parses ctx n (some v) result) :
    ∃ w, result = some w ∧ (v.isScalar = true ∨ w.isScalar = true → w = v) := by
  induction n using Node.inductionOn generalizing v result with
  | object fields catchall _ _ =>
    obtain ⟨input, extra, own, hv, -, -, -, rfl⟩ := parses_object_iff.mp h
    cases hv
    exact ⟨_, rfl, by simp [Value.not_isScalar_object]⟩
  | array item _ =>
    obtain ⟨items, parsed, hv, -, rfl⟩ := parses_array_iff.mp h
    cases hv
    exact ⟨_, rfl, by simp [Value.not_isScalar_array]⟩
  | tuple items _ =>
    obtain ⟨vs, parsed, hv, -, -, rfl⟩ := parses_tuple_iff.mp h
    cases hv
    exact ⟨_, rfl, by simp [Value.not_isScalar_array]⟩
  | record value _ =>
    obtain ⟨input, out, hv, -, -, rfl⟩ := parses_record_iff.mp h
    cases hv
    exact ⟨_, rfl, by simp [Value.not_isScalar_object]⟩
  | union options ih =>
    obtain ⟨before, option, after, rfl, -, hoption⟩ := parses_union_iff.mp h
    have hmem : option ∈ before ++ option :: after := by simp
    exact ih option hmem (verbatim.child hmem) hoption
  | discriminated key options ih =>
    obtain ⟨input, tag, option, -, -, -, hchosen, hoption⟩ := parses_discriminated_iff.mp h
    have hmem : option ∈ options := List.mem_of_find?_eq_some hchosen
    exact ih option hmem (verbatim.child hmem) hoption
  | intersection left right _ => exact verbatim.here.elim
  | optional inner ih =>
    exact ih (verbatim.inner rfl) (parses_optional_some.mp h)
  | nullable inner ih =>
    by_cases hnull : v = .null
    · subst hnull
      exact ⟨_, parses_nullable_null.mp h, fun _ => rfl⟩
    · exact ih (verbatim.inner rfl)
        ((parses_nullable_of_ne (by simpa using hnull)).mp h)
  | withDefault inner default ih =>
    exact ih (verbatim.inner rfl) (parses_withDefault_some.mp h)
  | transform inner facet apply ih =>
    obtain ⟨parsed, hparsed, -, happly⟩ := parses_transform_iff.mp h
    rw [verbatim.here parsed] at happly
    cases happly
    exact ih (verbatim.inner rfl) hparsed
  | enum | literal | string | number | boolean | date | null | any | never =>
    exact ⟨v, h.leaf rfl, fun _ => rfl⟩

/-- A plain schema leaves a scalar as it is, and makes one from nothing else. -/
theorem Parses.scalar {n : Node} (plain : Every (Plain ctx) n) {v : Value} {result : Option Value}
    (h : Parses ctx n (some v) result) :
    ∃ w, result = some w ∧ (v.isScalar = true ∨ w.isScalar = true → w = v) :=
  h.scalar_of_verbatim (plain.imp fun _ => Plain.verbatim)

/-- A plain schema never drops a value. -/
theorem exists_parses_some_iff {n : Node} (plain : Every (Plain ctx) n) {v : Value} :
    (∃ w, Parses ctx n (some v) (some w)) ↔ ∃ result, Parses ctx n (some v) result := by
  constructor
  · rintro ⟨w, hw⟩; exact ⟨_, hw⟩
  · rintro ⟨result, hresult⟩
    obtain ⟨w, rfl, -⟩ := hresult.scalar plain
    exact ⟨w, hresult⟩

/-- A facet looks at strings and numbers, which a plain schema leaves as they are. -/
theorem facetFits_parsed_iff {n : Node} (plain : Every (Plain ctx) n) {facet : Option Facet}
    {v : Value} {result : Option Value} (h : Parses ctx n (some v) result) :
    FacetFits facet result ↔ FacetFits facet (some v) := by
  obtain ⟨w, rfl, hscalar⟩ := h.scalar plain
  by_cases hw : v.isScalar = true ∨ w.isScalar = true
  · rw [hscalar hw]
  · have holds_of_not_scalar (f : Facet) {u : Value} (hu : u.isScalar ≠ true) :
        f.holds u = true := by
      cases u with
      | array | object => cases f <;> rfl
      | _ => exact (hu rfl).elim
    obtain ⟨hv, hw⟩ := not_or.mp hw
    constructor <;> rintro - f u rfl ⟨⟩
    · exact holds_of_not_scalar f hv
    · exact holds_of_not_scalar f hw

/-! ## Agreement -/

/-- What a schema needs for its parser and its rules to agree. -/
structure Settled (ctx : Context) (n : Node) : Prop where
  plain : Every (Plain ctx) n
  admits : Every (AdmitsFilled ctx) n
  distinct : Every Distinct n

namespace Settled

theorem child {n child : Node} (h : Settled ctx n) (hc : child ∈ n.children) : Settled ctx child :=
  ⟨h.plain.child hc, h.admits.child hc, h.distinct.child hc⟩

theorem inner {n inner : Node} (h : Settled ctx n) (hc : n.children = [inner]) :
    Settled ctx inner :=
  ⟨h.plain.inner hc, h.admits.inner hc, h.distinct.inner hc⟩

theorem field {fields : List (String × Node)} {catchall : Option Node} {f : String × Node}
    (h : Settled ctx (.object fields catchall)) (hf : f ∈ fields) : Settled ctx f.2 :=
  ⟨h.plain.field hf, h.admits.field hf, h.distinct.field hf⟩

theorem catchall {fields : List (String × Node)} {rest : Node}
    (h : Settled ctx (.object fields (some rest))) : Settled ctx rest :=
  ⟨h.plain.catchall, h.admits.catchall, h.distinct.catchall⟩

end Settled

/-- Parsing the value succeeds exactly if the rules of the node accept it. -/
def Agrees (ctx : Context) (n : Node) (v : Value) : Prop :=
  ∀ r, Compiles n r → ((∃ result, Parses ctx n (some v) result) ↔ r.Accepts v)

section Entries

variable {fields : List (String × Node)} {catchall : Option Node} {parts : List (String × Rules)}
  {others : Option Rules} {e : String × Value}

theorem entryAccepted_declared_iff (hparts : CompilesFields fields parts) {n : Node}
    (hn : Entries.get? fields e.1 = some n) (hagrees : Agrees ctx n e.2) :
    EntryAccepted parts others e ↔ ∃ result, Parses ctx n (some e.2) result := by
  unfold EntryAccepted
  rcases hparts.lookup e.1 with ⟨n', s, hn', hs, hcompiles⟩ | ⟨hnone, -⟩
  · cases hn.symm.trans hn'
    rw [hs]
    exact (hagrees s hcompiles).symm
  · cases hn.symm.trans hnone

theorem entryAccepted_undeclared_iff (hparts : CompilesFields fields parts)
    (hothers : CompilesCatchall catchall others) (hn : Entries.get? fields e.1 = none)
    (hagrees : ∀ rest, catchall = some rest → Agrees ctx rest e.2) :
    EntryAccepted parts others e ↔ ∃ result, ParsesOthers ctx catchall e result := by
  unfold EntryAccepted ParsesOthers
  rcases hparts.lookup e.1 with ⟨n, s, hsome, -, -⟩ | ⟨-, hs⟩
  · cases hn.symm.trans hsome
  rw [hs]
  cases catchall with
  | none =>
    cases others with
    | none => simp
    | some s => exact hothers.elim
  | some rest =>
    cases others with
    | none => exact hothers.elim
    | some s =>
      simp only [Option.some.injEq, exists_eq_left']
      exact (hagrees rest rfl s hothers).symm

/-- The entries of an object parse exactly if its rules accept them. -/
theorem entries_parse_iff (settled : Settled ctx (.object fields catchall))
    (hparts : CompilesFields fields parts) (hothers : CompilesCatchall catchall others)
    {input : Entries Value}
    (ordered : (Entries.keys input).Nodup)
    (hfields : ∀ f ∈ fields, ∀ e ∈ input, Agrees ctx f.2 e.2)
    (hcatchall : ∀ rest, catchall = some rest → ∀ e ∈ input, Agrees ctx rest e.2) :
    ((∃ extra, Collects (ParsesOthers ctx catchall) (undeclared fields input) extra) ∧
      ∃ own, Collects (ParsesField ctx input) fields own) ↔
      (∀ f ∈ fields, f.2.acceptsAbsent = false → f.1 ∈ Entries.keys input) ∧
        ∀ e ∈ input, EntryAccepted parts others e := by
  rw [Collects.exists_iff, Collects.exists_iff]
  have habsent {f : String × Node} (hf : f ∈ fields) :=
    exists_parses_none_iff (settled.field hf).plain (settled.admits.here f hf)
  constructor
  · rintro ⟨hextra, hown⟩
    refine ⟨fun f hf hpresent => ?_, fun e he => ?_⟩
    · by_contra hmissing
      have hresult := hown f hf
      simp only [ParsesField, Entries.get?_eq_none_iff.mpr hmissing] at hresult
      rw [(habsent hf).mp hresult] at hpresent
      cases hpresent
    · cases hn : Entries.get? fields e.1 with
      | none =>
        exact (entryAccepted_undeclared_iff hparts hothers hn fun rest hrest =>
          hcatchall rest hrest e he).mpr (hextra e (mem_undeclared_iff.mpr ⟨he, hn⟩))
      | some n =>
        have hf := Entries.mem_of_get? hn
        have hresult := hown _ hf
        simp only [ParsesField, Entries.get?_of_mem ordered he] at hresult
        exact (entryAccepted_declared_iff hparts hn (hfields _ hf e he)).mpr hresult
  · rintro ⟨hrequired, haccepted⟩
    refine ⟨fun e he => ?_, fun f hf => ?_⟩
    · obtain ⟨he, hn⟩ := mem_undeclared_iff.mp he
      exact (entryAccepted_undeclared_iff hparts hothers hn fun rest hrest =>
        hcatchall rest hrest e he).mp (haccepted e he)
    · unfold ParsesField
      cases hget : Entries.get? input f.1 with
      | none =>
        refine (habsent hf).mpr (by_contra fun hnot => ?_)
        have hpresent := hrequired f hf (Bool.eq_false_iff.mpr hnot)
        exact Entries.get?_eq_none_iff.mp hget hpresent
      | some w =>
        have he := Entries.mem_of_get? hget
        exact (entryAccepted_declared_iff hparts (Entries.get?_of_mem settled.distinct.here hf)
          (hfields f hf _ he)).mp (haccepted _ he)

end Entries

/-! ## Leaves and lists -/

theorem agrees_leaf {n : Node} (hleaf : n.isLeaf = true) (v : Value) : Agrees ctx n v := by
  intro r h
  cases n with
  | string checks allowEmpty =>
    rw [h.string.2]
    simp only [parses_string_iff, Option.some.injEq]
    constructor
    · rintro ⟨_, text, hv, hall, -⟩; exact ⟨text, hv, hall⟩
    · rintro ⟨text, hv, hall⟩; exact ⟨_, text, hv, hall, rfl⟩
  | number checks =>
    rw [h.number.2]
    simp only [parses_number_iff, Option.some.injEq]
    constructor
    · rintro ⟨_, m, hv, hall, -⟩; exact ⟨m, hv, hall⟩
    · rintro ⟨m, hv, hall⟩; exact ⟨_, m, hv, hall, rfl⟩
  | enum values =>
    rw [h.enum.2]
    simp only [parses_enum_iff, Option.some.injEq]
    constructor
    · rintro ⟨_, text, hv, hmem, -⟩; exact ⟨text, hv, hmem⟩
    · rintro ⟨text, hv, hmem⟩; exact ⟨_, text, hv, hmem, rfl⟩
  | literal expected =>
    rw [h.literal.2.2]
    simp [parses_literal_iff]
  | boolean =>
    rw [h.boolean.2]
    simp [parses_boolean_iff]
  | date =>
    rw [h.date.2]
    simp [parses_date_iff]
  | null =>
    rw [h.null.2]
    simp [parses_null_iff]
  | any => exact iff_of_true ⟨_, parses_any_iff.mpr rfl⟩ (h.any.2 v)
  | never => exact (not_compiles_never h).elim
  | _ => cases hleaf

theorem agrees_array {item : Node} (settled : Settled ctx item) {v : Value} (ordered : v.Ordered)
    (hitem : ∀ w : Value, w.Ordered → Agrees ctx item w) : Agrees ctx (.array item) v := by
  intro r h
  obtain ⟨s, hs, -, haccepts⟩ := h.array
  rw [haccepts]
  simp only [parses_array_iff, Option.some.injEq]
  have hitems (items : List Value) (hv : (Value.array items).Ordered) :
      (∃ parsed, List.Forall₂ (fun v w => Parses ctx item (some v) (some w)) items parsed) ↔
        ∀ v ∈ items, s.Accepts v := by
    rw [exists_forall₂_iff]
    refine forall₂_congr fun w hw => ?_
    rw [exists_parses_some_iff settled.plain, hitem w (Value.ordered_of_mem hv hw) s hs]
  constructor
  · rintro ⟨_, items, parsed, rfl, hparsed, -⟩
    exact ⟨items, rfl, (hitems items ordered).mp ⟨parsed, hparsed⟩⟩
  · rintro ⟨items, rfl, haccepted⟩
    obtain ⟨parsed, hparsed⟩ := (hitems items ordered).mpr haccepted
    exact ⟨_, items, parsed, rfl, hparsed, rfl⟩

theorem agrees_tuple {items : List Node} (settled : ∀ item ∈ items, Settled ctx item) {v : Value}
    (ordered : v.Ordered) (hitem : ∀ item ∈ items, ∀ w : Value, w.Ordered → Agrees ctx item w) :
    Agrees ctx (.tuple items) v := by
  intro r h
  obtain ⟨parts, hparts, -, haccepts⟩ := h.tuple
  rw [haccepts]
  simp only [parses_tuple_iff, Option.some.injEq]
  have hitems (vs : List Value) (hv : (Value.array vs).Ordered) :
      (∃ parsed, List.Forall₂ (fun (e : Node × Value) w => Parses ctx e.1 (some e.2) (some w))
        (items.zip vs) parsed) ↔ ∀ e ∈ parts.zip vs, e.1.Accepts e.2 := by
    rw [exists_forall₂_iff]
    have hiff {item : Node} {s : Rules} (hs : Compiles item s) {w : Value}
        (hmem : (item, w) ∈ items.zip vs) :
        (∃ u, Parses ctx item (some w) (some u)) ↔ s.Accepts w := by
      obtain ⟨hmember, hw⟩ := List.of_mem_zip hmem
      rw [exists_parses_some_iff (settled item hmember).plain,
        hitem item hmember w (Value.ordered_of_mem hv hw) s hs]
    constructor
    · intro hparses e he
      obtain ⟨item, hs, hmem⟩ := exists_mem_zip hparts he
      exact (hiff hs hmem).mp (hparses _ hmem)
    · intro haccepted e he
      obtain ⟨s, hs, hmem⟩ := exists_mem_zip hparts.flip he
      exact (hiff hs he).mpr (haccepted _ hmem)
  constructor
  · rintro ⟨_, vs, parsed, rfl, hlength, hparsed, -⟩
    exact ⟨vs, rfl, hlength, (hitems vs ordered).mp ⟨parsed, hparsed⟩⟩
  · rintro ⟨vs, rfl, hlength, haccepted⟩
    obtain ⟨parsed, hparsed⟩ := (hitems vs ordered).mpr haccepted
    exact ⟨_, vs, parsed, rfl, hlength, hparsed, rfl⟩

/-! ## Wrappers and unions -/

section Wrappers

variable {inner : Node} {v : Value}

theorem Agrees.optional (h : Agrees ctx inner v) : Agrees ctx (.optional inner) v := by
  intro r hr
  simp only [parses_optional_some]
  exact h r hr.optional

theorem Agrees.withDefault (h : Agrees ctx inner v) (default : Default) :
    Agrees ctx (.withDefault inner default) v := by
  intro r hr
  simp only [parses_withDefault_some]
  exact h r hr.withDefault

theorem Agrees.nullable (h : Agrees ctx inner v) : Agrees ctx (.nullable inner) v := by
  intro r hr
  obtain ⟨s, hs, haccepts⟩ := hr.accepts_nullable
  rw [haccepts]
  by_cases hnull : v = .null
  · subst hnull
    exact iff_of_true ⟨_, parses_nullable_null.mpr rfl⟩ (.inl rfl)
  · have hne : some v ≠ some Value.null := by simpa using hnull
    simp only [parses_nullable_of_ne hne, hnull, false_or]
    exact h s hs

theorem agrees_union {options : List Node} (h : ∀ option ∈ options, Agrees ctx option v) :
    Agrees ctx (.union options) v := by
  intro r hr
  obtain ⟨parts, hparts, -, haccepts⟩ := hr.union
  rw [haccepts, exists_parses_union_iff]
  constructor
  · rintro ⟨option, hoption, hresult⟩
    obtain ⟨s, hs, hcompiles⟩ := exists_of_mem_left hparts hoption
    exact ⟨s, hs, (h option hoption s hcompiles).mp hresult⟩
  · rintro ⟨s, hs, haccepted⟩
    obtain ⟨option, hoption, hcompiles⟩ := exists_of_mem_right hparts hs
    exact ⟨option, hoption, (h option hoption s hcompiles).mpr haccepted⟩

end Wrappers

/-! ## All nodes -/

/-- A plain schema parses a value exactly if its rules accept it. -/
theorem agrees {n : Node} (settled : Settled ctx n) {v : Value} (ordered : v.Ordered) :
    Agrees ctx n v := by
  induction n using Node.inductionOn generalizing v with
  | string | number | enum | literal | boolean | date | null | any | never =>
    exact agrees_leaf rfl v
  | intersection left right _ => exact settled.plain.here.elim
  | optional inner ih => exact (ih (settled.inner rfl) ordered).optional
  | withDefault inner default ih => exact (ih (settled.inner rfl) ordered).withDefault default
  | nullable inner ih => exact (ih (settled.inner rfl) ordered).nullable
  | transform inner facet apply ih =>
    intro r h
    obtain ⟨s, hs, haccepts⟩ := h.accepts_transform
    have hsettled : Settled ctx inner := settled.inner rfl
    rw [haccepts, ← ih hsettled ordered s hs]
    simp only [parses_transform_iff, settled.plain.here _]
    constructor
    · rintro ⟨result, parsed, hparsed, hfits, -⟩
      exact ⟨⟨parsed, hparsed⟩, (facetFits_parsed_iff hsettled.plain hparsed).mp hfits⟩
    · rintro ⟨⟨parsed, hparsed⟩, hfits⟩
      exact ⟨parsed, parsed, hparsed, (facetFits_parsed_iff hsettled.plain hparsed).mpr hfits, rfl⟩
  | union options ih =>
    exact agrees_union fun option hoption => ih option hoption (settled.child hoption) ordered
  | discriminated key options ih =>
    intro r h
    have each : ∀ option ∈ options, option.Distinct := fun option hoption =>
      (settled.child hoption).distinct.here
    simp only [parses_discriminated_iff]
    constructor
    · rintro ⟨result, input, tag, option, -, -, -, hchosen, hresult⟩
      have hoption : option ∈ options := List.mem_of_find?_eq_some hchosen
      refine h.accepts_of_option settled.distinct.here each hoption fun s hs => ?_
      exact (ih option hoption (settled.child hoption) ordered s hs).mp
        ⟨result, hresult⟩
    · intro haccepted
      obtain ⟨option, hoption, s, hs, haccepted⟩ := h.exists_option haccepted
      obtain ⟨result, hresult⟩ :=
        (ih option hoption (settled.child hoption) ordered s hs).mpr haccepted
      obtain ⟨input, tag, rfl, hkind, htag, hchosen⟩ :=
        h.chosenOption settled.distinct.here each hoption hs haccepted
      exact ⟨result, input, tag, option, rfl, hkind, htag, hchosen, hresult⟩
  | array item ih =>
    exact agrees_array (settled.inner rfl) ordered fun w hw => ih (settled.inner rfl) hw
  | tuple items ih =>
    exact agrees_tuple (fun item hitem => settled.child hitem) ordered fun item hitem w hw =>
      ih item hitem (settled.child hitem) hw
  | record value ih =>
    intro r h
    obtain ⟨s, hs, -, haccepts⟩ := h.record
    rw [haccepts]
    simp only [parses_record_iff, Option.some.injEq]
    have hentries (input : Entries Value) (hv : (Value.object input).Ordered) :
        (∃ out, Collects (fun e r => Parses ctx value (some e.2) r) input out) ↔
          ∀ e ∈ input, s.Accepts e.2 := by
      rw [Collects.exists_iff]
      exact forall₂_congr fun e he =>
        ih (settled.inner rfl) (Value.ordered_of_mem_fields hv he) s hs
    constructor
    · rintro ⟨_, input, out, rfl, hkind, hout, -⟩
      exact ⟨input, rfl, hkind, (hentries input ordered).mp ⟨out, hout⟩⟩
    · rintro ⟨input, rfl, hkind, haccepted⟩
      obtain ⟨out, hout⟩ := (hentries input ordered).mpr haccepted
      exact ⟨_, input, out, rfl, hkind, hout, rfl⟩
  | object fields catchall ihFields ihCatchall =>
    intro r h
    obtain ⟨parts, others, hparts, hothers, haccepts⟩ := h.object settled.distinct.here
    rw [haccepts]
    have hentries (input : Entries Value) (hv : (Value.object input).Ordered) :=
      entries_parse_iff settled hparts hothers (Value.distinct_of_ordered hv)
        (fun f hf e he => ihFields f hf (settled.field hf)
          (Value.ordered_of_mem_fields hv he))
        (fun rest hrest e he => by
          subst hrest
          exact ihCatchall rest rfl settled.catchall
            (Value.ordered_of_mem_fields hv he))
    simp only [parses_object_iff, Option.some.injEq]
    constructor
    · rintro ⟨_, input, extra, own, rfl, hkind, hextra, hown, -⟩
      exact ⟨input, rfl, hkind, (hentries input ordered).mp ⟨⟨extra, hextra⟩, own, hown⟩⟩
    · rintro ⟨input, rfl, hkind, haccepted⟩
      obtain ⟨⟨extra, hextra⟩, own, hown⟩ := (hentries input ordered).mpr haccepted
      exact ⟨_, input, extra, own, rfl, hkind, hextra, hown, rfl⟩

/-! ## Documents -/

/-- The parser and the validator of a schema that is plain accept the same documents. -/
theorem isOk_parseDocument_eq_isValid {schema : Node} {validator : Validator}
    (compiled : schema.compile = .ok validator) (plain : Every (Plain ctx) schema)
    (admits : Every (AdmitsFilled ctx) schema) (distinct : Every Distinct schema)
    {document : Value} (ordered : document.Ordered) :
    (schema.parseDocument document ctx).isOk = validator.isValid document := by
  obtain ⟨hcompiles, hvalid⟩ := compile_eq_ok compiled
  rw [Bool.eq_iff_iff, hvalid, Outcome.isOk_iff,
    ← agrees ⟨plain, admits, distinct⟩ ordered _ hcompiles, ← exists_parses_some_iff plain]
  simp only [parseDocument_eq_ok_iff]

/-- An age that a facet keeps whole, and a name with a default. -/
def profile : Node :=
  .object [("age", .nullable (.transform (.number []) (some (.number [.integer]))
      fun value _ => .ok value)),
    ("name", .withDefault (.string [.minLength 1] false) fun _ => some (.string "anonymous"))] none

theorem profile_agrees : ∃ validator, profile.compile = .ok validator ∧
    (profile.parseDocument (.object [("age", .int 7)]) .detached).isOk =
      validator.isValid (.object [("age", .int 7)]) := by
  have hcompile : ∃ validator, profile.compile = .ok validator := by
    rw [profile, compile_object, rules_object]
    simp only [List.map, rules, acceptsAbsent]
    exact ⟨_, rfl⟩
  obtain ⟨validator, compiled⟩ := hcompile
  refine ⟨validator, compiled, isOk_parseDocument_eq_isValid compiled ?_ ?_ ?_ ?_⟩
  · have hdefault : ∃ result, Parses .detached (.string [.minLength 1] false)
        (some (.string "anonymous")) result :=
      ⟨_, parses_string_iff.mpr ⟨_, rfl, by decide, rfl⟩⟩
    refine .of_object trivial (List.forall_mem_cons.mpr ⟨?_, List.forall_mem_singleton.mpr ?_⟩)
      (by simp)
    · exact .of_inner trivial rfl (.of_inner (fun _ => rfl) rfl (.of_leaf trivial rfl))
    · exact .of_inner hdefault rfl (.of_leaf trivial rfl)
  · refine .of_object (List.forall_mem_cons.mpr ⟨?_, List.forall_mem_singleton.mpr ?_⟩)
      (List.forall_mem_cons.mpr ⟨?_, List.forall_mem_singleton.mpr ?_⟩) (by simp)
    · rintro inner facet apply (_ | h) result hresult
      cases h with
      | here => simp [parses_number_iff] at hresult
      | transform h => cases h
    · rintro inner facet apply (_ | _ | _ | hdefault)
      cases hdefault
    · exact .of_inner trivial rfl (.of_inner trivial rfl (.of_leaf trivial rfl))
    · exact .of_inner trivial rfl (.of_leaf trivial rfl)
  · refine .of_object (by simp [Distinct, Entries.keys])
      (List.forall_mem_cons.mpr ⟨?_, List.forall_mem_singleton.mpr ?_⟩) (by simp)
    · exact .of_inner trivial rfl (.of_inner trivial rfl (.of_leaf trivial rfl))
    · exact .of_inner trivial rfl (.of_leaf trivial rfl)
  · simp [Value.Ordered, Value.OrderedFields, Entries.Sorted, Value.int]

/-- A facet that refuses what the default below it gives. -/
def facetOverDefault : Node :=
  .object [("f", .transform (.withDefault (.string [] false) fun _ => some (.string "ab"))
    (some (.string [.minLength 3])) fun value _ => .ok value)] none

/-- Without the condition on facets the two part: the rules do not ask for the
field, and the parser checks the facet on what the default gives. -/
theorem facetOverDefault_disagrees :
    Every (Plain .detached) facetOverDefault ∧ Every Distinct facetOverDefault ∧
      Value.empty.Ordered ∧ ∃ validator, facetOverDefault.compile = .ok validator ∧
        (facetOverDefault.parseDocument Value.empty .detached).isOk = false ∧
          validator.isValid Value.empty = true := by
  have hcompile : ∃ validator, facetOverDefault.compile = .ok validator := by
    rw [facetOverDefault, compile_object, rules_object]
    simp only [List.map, rules, acceptsAbsent]
    exact ⟨_, rfl⟩
  obtain ⟨validator, compiled⟩ := hcompile
  refine ⟨?_, ?_, ?_, validator, compiled, ?_, ?_⟩
  · have hdefault : ∃ result, Parses .detached (.string [] false) (some (.string "ab")) result :=
      ⟨_, parses_string_iff.mpr ⟨_, rfl, by decide, rfl⟩⟩
    refine .of_object trivial (List.forall_mem_singleton.mpr ?_) (by simp)
    exact .of_inner (fun _ => rfl) rfl (.of_inner hdefault rfl (.of_leaf trivial rfl))
  · refine .of_object (by simp [Distinct, Entries.keys]) (List.forall_mem_singleton.mpr ?_)
      (by simp)
    exact .of_inner trivial rfl (.of_inner trivial rfl (.of_leaf trivial rfl))
  · simp [Value.empty, Value.Ordered, Value.OrderedFields, Entries.Sorted]
  · rw [facetOverDefault, parseDocument, parser_object]
    simp only [List.map, parser]
    rfl
  · obtain ⟨hcompiles, hvalid⟩ := compile_eq_ok compiled
    obtain ⟨parts, others, -, -, haccepts⟩ := hcompiles.object (by simp [Entries.keys])
    exact (hvalid _).mpr ((haccepts _).mpr ⟨[], rfl, rfl, by simp [acceptsAbsent], by simp⟩)

end Node

end DocSchema

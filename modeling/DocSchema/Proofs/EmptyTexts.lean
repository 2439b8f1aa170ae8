-- SUMMARY: Schemas that follow the house rules keep empty texts out of documents.
import DocSchema.Proofs.Paths

/-!
# Empty texts

The house rules ask every string leaf to refuse the empty text or to be marked. They look
at the leaf together with the facets around it, and at the two sides of an intersection
apart, while parsing checks the merged leaf first and each facet on what comes out of it.
Without marks both come to the same: no text in an accepted document is empty, and none in
what it is parsed to.
-/

namespace DocSchema

namespace Value

variable {part v w : Value} {items : List Value} {fields : Entries Value}

/-! ## Parts of values -/

/-- The value `part` stands somewhere in a value. -/
inductive Within (part : Value) : Value → Prop where
  | here : Within part part
  | item {items : List Value} {v : Value} : v ∈ items → Within part v → Within part (.array items)
  | entry {fields : Entries Value} {e : String × Value} :
    e ∈ fields → Within part e.2 → Within part (.object fields)

/-- No text in the value is empty. -/
def NoEmptyText (v : Value) : Prop := ¬ Within (.string "") v

theorem noEmptyText_string_iff {text : String} : (Value.string text).NoEmptyText ↔ text ≠ "" := by
  constructor
  · rintro h rfl
    exact h .here
  · rintro h ⟨⟩
    exact h rfl

theorem noEmptyText_array_iff : (Value.array items).NoEmptyText ↔ ∀ v ∈ items, v.NoEmptyText := by
  constructor
  · exact fun h v hv hwithin => h (.item hv hwithin)
  · intro h hwithin
    cases hwithin with
    | item hv hwithin => exact h _ hv hwithin

theorem noEmptyText_object_iff :
    (Value.object fields).NoEmptyText ↔ ∀ e ∈ fields, e.2.NoEmptyText := by
  constructor
  · exact fun h e he hwithin => h (.entry he hwithin)
  · intro h hwithin
    cases hwithin with
    | entry he hwithin => exact h _ he hwithin

/-- The values without texts. -/
theorem noEmptyText_of_scalar (scalar : v.isScalar = true) (h : ∀ text, v ≠ .string text) :
    v.NoEmptyText := by
  rintro ⟨⟩
  · exact h _ rfl
  · cases scalar
  · cases scalar

/-- The text of a date is not empty. -/
theorem noEmptyText_of_date (h : v.kind = .date) : v.NoEmptyText := by
  have hplain : (Value.object [(dateKey, .string "")]).kind = .object := by decide
  cases v with
  | object fields =>
    obtain ⟨text, rfl⟩ := eq_of_kind_date h
    rw [noEmptyText_object_iff, List.forall_mem_singleton, noEmptyText_string_iff]
    rintro rfl
    rw [hplain] at h
    cases h
  | string | array => cases h
  | _ => exact noEmptyText_of_scalar rfl nofun

/-! ## Texts of equal values -/

theorem exists_of_beqItems {xs ys : List Value} (h : beqItems xs ys = true) {y : Value}
    (hy : y ∈ ys) : ∃ x ∈ xs, x.beq y = true := by
  induction ys generalizing xs with
  | nil => cases hy
  | cons head rest ih =>
    cases xs with
    | nil => cases h
    | cons x more =>
      rw [beqItems, Bool.and_eq_true] at h
      rcases List.mem_cons.mp hy with rfl | hy
      · exact ⟨x, List.mem_cons_self, h.1⟩
      · obtain ⟨x', hx', hbeq⟩ := ih h.2 hy
        exact ⟨x', List.mem_cons_of_mem _ hx', hbeq⟩

theorem exists_of_beqFields {xs ys : Entries Value} (h : beqFields xs ys = true)
    {e : String × Value} (he : e ∈ ys) : ∃ x ∈ xs, x.2.beq e.2 = true := by
  induction ys generalizing xs with
  | nil => cases he
  | cons head rest ih =>
    cases xs with
    | nil => cases h
    | cons x more =>
      rw [beqFields, Bool.and_eq_true, Bool.and_eq_true] at h
      rcases List.mem_cons.mp he with rfl | he
      · exact ⟨x, List.mem_cons_self, h.1.2⟩
      · obtain ⟨x', hx', hbeq⟩ := ih h.2 he
        exact ⟨x', List.mem_cons_of_mem _ hx', hbeq⟩

/-- Equal values hold the same texts. -/
theorem within_of_beq {text : String} (h : w.beq v = true) (hwithin : Within (.string text) v) :
    Within (.string text) w := by
  induction hwithin generalizing w with
  | here =>
    cases w with
    | string t =>
      cases (beq_iff_eq.mp h : t = text)
      exact .here
    | _ => cases h
  | item hv _ ih =>
    cases w with
    | array xs =>
      obtain ⟨x, hx, hbeq⟩ := exists_of_beqItems h hv
      exact .item hx (ih hbeq)
    | _ => cases h
  | entry he _ ih =>
    cases w with
    | object xs =>
      obtain ⟨x, hx, hbeq⟩ := exists_of_beqFields h he
      exact .entry hx (ih hbeq)
    | _ => cases h

theorem NoEmptyText.of_alike {expected : Value} (h : expected.NoEmptyText)
    (halike : expected.alike v = true) : v.NoEmptyText := by
  cases expected with
  | number n =>
    cases v with
    | number => exact noEmptyText_of_scalar rfl nofun
    | _ => cases halike
  | _ => exact fun hwithin => h (within_of_beq halike hwithin)

end Value

/-! ## Facets -/

theorem Facet.fits_nil (result : Option Value) : FacetFits (some (.string [])) result := by
  rintro _ v ⟨⟩ -
  cases v <;> rfl

/-- The checks of a facet around a facet are checks of the inner one. -/
theorem Facet.fits_append {inherited : List StringCheck} {facet : Option Facet}
    {result : Option Value} (houter : FacetFits (some (.string inherited)) result)
    (hinner : FacetFits facet result) :
    FacetFits (some (.string (inherited ++ stringChecks facet))) result := by
  rintro _ v ⟨⟩ rfl
  have hinherited := houter _ v rfl rfl
  rcases facet with - | ⟨checks | checks⟩
  · rwa [stringChecks_none, List.append_nil]
  · have hchecks := hinner _ v rfl rfl
    cases v with
    | string text =>
      rw [holds, StringCheck.allHold] at hinherited hchecks ⊢
      rw [stringChecks_string, List.all_append, hinherited, hchecks, Bool.and_self]
    | _ => rfl
  · rwa [stringChecks_number, List.append_nil]

namespace Node

variable {ctx : Context}

/-! ## Schemas -/

/-- A node that has no mark for empty texts and lists none itself, with a transform only
for its facet. -/
def Unmarked : Node → Prop
  | .any => False
  | .string _ allowEmpty => allowEmpty = false
  | .enum values => "" ∉ values
  | .literal v => v.NoEmptyText
  | .transform _ _ apply => ∀ value ctx, apply value ctx = .ok value
  | _ => True

theorem mergeClosed_unmarked : MergeClosed Unmarked where
  rebuilt n hn := by
    cases n with
    | optional | number | array | tuple | record => trivial
    | _ => cases hn
  string _ _ _ _ hl _ := by
    rw [Unmarked] at hl ⊢
    rw [hl, Bool.false_and]
  enum _ _ hl _ := fun hmem => hl (List.mem_filter.mp hmem).1
  nullable _ _ _ _ _ _ := trivial
  object _ _ _ _ _ _ _ := trivial

/-! ## Parts of a run -/

/-- What a node was given holds no empty text, and neither does what it gave. -/
structure KeepsOut (x result : Option Value) : Prop where
  output : ∀ w, result = some w → w.NoEmptyText
  input : ∀ v, x = some v → v.Ordered → v.NoEmptyText

namespace KeepsOut

variable {input extra own out : Entries Value} {fields : List (String × Node)}

theorem same {v : Value} (hv : v.NoEmptyText) : KeepsOut (some v) (some v) := by
  constructor
  · rintro _ ⟨⟩
    exact hv
  · rintro _ ⟨⟩ -
    exact hv

theorem array {items parsed : List Value}
    (h : List.Forall₂ (fun v w => KeepsOut (some v) (some w)) items parsed) :
    KeepsOut (some (.array items)) (some (.array parsed)) := by
  constructor
  · rintro _ ⟨⟩
    refine Value.noEmptyText_array_iff.mpr fun w hw => ?_
    obtain ⟨v, -, hv⟩ := exists_of_mem_right h hw
    exact hv.output w rfl
  · rintro _ ⟨⟩ ordered
    refine Value.noEmptyText_array_iff.mpr fun v hv => ?_
    obtain ⟨w, -, hw⟩ := exists_of_mem_left h hv
    exact hw.input v rfl (Value.ordered_of_mem ordered hv)

theorem record (h : Collects (fun e r => KeepsOut (some e.2) r) input out) :
    KeepsOut (some (.object input)) (some (.object out)) := by
  constructor
  · rintro _ ⟨⟩
    refine Value.noEmptyText_object_iff.mpr fun e he => ?_
    obtain ⟨_, -, -, hr⟩ := h.source he
    exact hr.output e.2 rfl
  · rintro _ ⟨⟩ ordered
    refine Value.noEmptyText_object_iff.mpr fun e he => ?_
    obtain ⟨r, hr⟩ := Collects.exists_iff.mp ⟨out, h⟩ e he
    exact hr.input e.2 rfl (Value.ordered_of_mem_fields ordered he)

/-- Every entry of an object is declared or not, and every entry it gives comes from one. -/
theorem object
    (hextra : Collects (fun e r => KeepsOut (some e.2) r) (undeclared fields input) extra)
    (hown : Collects (fun f r => KeepsOut (Entries.get? input f.1) r) fields own) :
    KeepsOut (some (.object input)) (some (.object (Entries.ofList (extra ++ own)))) := by
  constructor
  · rintro _ ⟨⟩
    refine Value.noEmptyText_object_iff.mpr fun e he => ?_
    rcases List.mem_append.mp (Entries.mem_of_mem_ofList he) with he | he
    · obtain ⟨_, -, -, hr⟩ := hextra.source he
      exact hr.output e.2 rfl
    · obtain ⟨_, -, -, hr⟩ := hown.source he
      exact hr.output e.2 rfl
  · rintro _ ⟨⟩ ordered
    refine Value.noEmptyText_object_iff.mpr fun e he => ?_
    have heOrdered := Value.ordered_of_mem_fields ordered he
    have hget := Entries.get?_of_mem (Value.distinct_of_ordered ordered) he
    cases hname : Entries.get? fields e.1 with
    | some n =>
      have hmem := Entries.mem_of_get? hname
      obtain ⟨r, hr⟩ := Collects.exists_iff.mp ⟨own, hown⟩ _ hmem
      exact hr.input e.2 hget heOrdered
    | none =>
      have hmem := mem_undeclared_iff.mpr ⟨he, hname⟩
      obtain ⟨r, hr⟩ := Collects.exists_iff.mp ⟨extra, hextra⟩ e hmem
      exact hr.input e.2 rfl heOrdered

end KeepsOut

/-! ## Runs -/

variable {inherited : List StringCheck} {n : Node} {x result : Option Value}

/-- A leaf gives what it was given. -/
theorem Parses.keepsOut_leaf (leaf : n.isLeaf = true) (h : Parses ctx n x result)
    (obeys : Obeys inherited n) (unmarked : Unmarked n)
    (fits : FacetFits (some (.string inherited)) result) : KeepsOut x result := by
  cases n with
  | string checks allowEmpty =>
    obtain ⟨text, rfl, hall, rfl⟩ := parses_string_iff.mp h
    refine .same (Value.noEmptyText_string_iff.mpr ?_)
    rintro rfl
    have hrefused := obeys_string_iff.mp obeys
    have hinherited : StringCheck.allHold inherited "" = true := fits _ _ rfl rfl
    have hmark : allowEmpty = false := unmarked
    rw [admitsEmpty, hmark, hall, hinherited] at hrefused
    cases hrefused
  | enum values =>
    obtain ⟨text, rfl, hmem, rfl⟩ := parses_enum_iff.mp h
    refine .same (Value.noEmptyText_string_iff.mpr ?_)
    rintro rfl
    exact unmarked hmem
  | literal expected =>
    obtain ⟨v, rfl, halike, rfl⟩ := parses_literal_iff.mp h
    exact .same (Value.NoEmptyText.of_alike unmarked halike)
  | number checks =>
    obtain ⟨n, rfl, -, rfl⟩ := parses_number_iff.mp h
    exact .same (Value.noEmptyText_of_scalar rfl nofun)
  | boolean =>
    obtain ⟨v, rfl, hkind, rfl⟩ := parses_boolean_iff.mp h
    refine .same (Value.noEmptyText_of_scalar (Value.isScalar_of_kind (by simp [hkind])) ?_)
    rintro _ rfl
    cases hkind
  | null =>
    obtain ⟨v, rfl, hkind, rfl⟩ := parses_null_iff.mp h
    refine .same (Value.noEmptyText_of_scalar (Value.isScalar_of_kind (by simp [hkind])) ?_)
    rintro _ rfl
    cases hkind
  | date =>
    obtain ⟨v, rfl, hkind, rfl⟩ := parses_date_iff.mp h
    exact .same (Value.noEmptyText_of_date hkind)
  | any => exact unmarked.elim
  | never => exact (not_parses_never h).elim
  | _ => cases leaf

theorem Parses.keepsOut (h : Parses ctx n x result) (obeys : Obeys inherited n)
    (unmarked : Every Unmarked n) (fits : FacetFits (some (.string inherited)) result) :
    KeepsOut x result := by
  induction n using Node.inductionOn generalizing inherited x result with
  | array item ih =>
    obtain ⟨items, parsed, rfl, hparsed, rfl⟩ := parses_array_iff.mp h
    exact .array (hparsed.imp fun v w hv =>
      ih hv (obeys_array_iff.mp obeys) (unmarked.inner rfl) (Facet.fits_nil _))
  | tuple ns ih =>
    obtain ⟨items, parsed, rfl, hlength, hparsed, rfl⟩ := parses_tuple_iff.mp h
    have hpairs : List.Forall₂ (fun e w => KeepsOut (some e.2) (some w)) (ns.zip items) parsed := by
      refine forall₂_imp_of_mem hparsed fun e he w hw => ?_
      have hmem := (List.of_mem_zip he).1
      exact ih e.1 hmem hw (obeys_tuple_iff.mp obeys e.1 hmem) (unmarked.child hmem)
        (Facet.fits_nil _)
    rw [← List.map_snd_zip (Nat.le_of_eq hlength)]
    exact .array (List.forall₂_map_left_iff.mpr hpairs)
  | record value ih =>
    obtain ⟨input, out, rfl, -, hout, rfl⟩ := parses_record_iff.mp h
    exact .record (hout.imp fun e _ r hr =>
      ih hr (obeys_record_iff.mp obeys) (unmarked.inner rfl) (Facet.fits_nil _))
  | object fields catchall ihFields ihCatchall =>
    obtain ⟨input, extra, own, rfl, -, hextra, hown, rfl⟩ := parses_object_iff.mp h
    obtain ⟨⟨-, hfields⟩, hcatchall⟩ := obeys_object_iff.mp obeys
    refine .object (hextra.imp ?_) (hown.imp ?_)
    · rintro e - r ⟨rest, rfl, hr⟩
      exact ihCatchall rest rfl hr (hcatchall rest rfl) unmarked.catchall (Facet.fits_nil _)
    · intro f hf r hr
      exact ihFields f hf hr (hfields f hf) (unmarked.field hf) (Facet.fits_nil _)
  | union options ih =>
    obtain ⟨before, option, after, rfl, -, hoption⟩ := parses_union_iff.mp h
    have hmem : option ∈ before ++ option :: after := by simp
    exact ih option hmem hoption ((obeys_union_iff.mp obeys).2 option hmem) (unmarked.child hmem)
      fits
  | discriminated key options ih =>
    obtain ⟨_, _, option, -, -, -, hchosen, hoption⟩ := parses_discriminated_iff.mp h
    have hmem := List.mem_of_find?_eq_some hchosen
    exact ih option hmem hoption ((obeys_discriminated_iff.mp obeys).2.2 option hmem)
      (unmarked.child hmem) (Facet.fits_nil _)
  | intersection left right ih =>
    obtain ⟨merged, hm, hresult⟩ := parses_intersection_iff.mp h
    obtain ⟨hl, hr⟩ := obeys_intersection_iff.mp obeys
    exact ih merged hm hresult (hm.obeys hl hr)
      (hm.every_of_closed mergeClosed_unmarked unmarked.left unmarked.right) fits
  | optional inner ih =>
    cases x with
    | none =>
      cases parses_optional_none.mp h
      exact ⟨nofun, nofun⟩
    | some v =>
      exact ih (parses_optional_some.mp h) (obeys_optional_iff.mp obeys) (unmarked.inner rfl) fits
  | nullable inner ih =>
    by_cases hnull : x = some .null
    · subst hnull
      cases parses_nullable_null.mp h
      exact .same (Value.noEmptyText_of_scalar rfl nofun)
    · exact ih ((parses_nullable_of_ne hnull).mp h) (obeys_nullable_iff.mp obeys)
        (unmarked.inner rfl) fits
  | withDefault inner default ih =>
    have hobeys := obeys_withDefault_iff.mp obeys
    cases x with
    | none =>
      exact ⟨(ih (parses_withDefault_none.mp h) hobeys (unmarked.inner rfl) fits).output, nofun⟩
    | some v => exact ih (parses_withDefault_some.mp h) hobeys (unmarked.inner rfl) fits
  | transform inner facet apply ih =>
    obtain ⟨parsed, hparsed, hfacet, happly⟩ := parses_transform_iff.mp h
    -- The transform changes nothing, so the outer checks hold before it as well.
    obtain rfl : parsed = result := Except.ok.inj ((unmarked.here parsed ctx).symm.trans happly)
    exact ih hparsed (obeys_transform_iff.mp obeys) (unmarked.inner rfl)
      (Facet.fits_append fits hfacet)
  | enum | literal | string | number | boolean | date | null | any | never =>
    exact h.keepsOut_leaf rfl obeys unmarked.here fits

/-- A document that a schema with the house rules and without marks accepts holds no empty
text, and neither does what it is parsed to. -/
theorem empty_texts_kept_out {root : Node} {document parsed : Value} (clean : root.lint = .ok ())
    (unmarked : Every Unmarked root) (ordered : document.Ordered)
    (accepted : root.parseDocument document ctx = .ok parsed) :
    ¬ Value.Within (.string "") document ∧ ¬ Value.Within (.string "") parsed := by
  have hparses := parseDocument_eq_ok_iff.mp accepted
  have keepsOut := hparses.keepsOut (lintAt_eq_ok_iff.mp clean) unmarked (Facet.fits_nil _)
  exact ⟨keepsOut.input document rfl ordered, keepsOut.output parsed rfl⟩

/-- A title whose text is checked by a facet alone, and a language with a default. -/
def titled : List (String × Node) :=
  [("title", .transform (.nullable (.string [] false)) (some (.string [.minLength 1]))
      fun value _ => .ok value),
    ("language", .withDefault (.union [.enum ["en"], .number []]) fun _ => some (.string "en"))]

theorem title_not_empty :
    ¬ Value.Within (.string "") (.object [("title", .string "On texts")]) ∧
    ¬ Value.Within (.string "")
      (.object [("language", .string "en"), ("title", .string "On texts")]) := by
  have hunmarked : Every Unmarked (.object titled none) := by
    have title : Every Unmarked (.transform (.nullable (.string [] false))
        (some (.string [.minLength 1])) fun value _ => .ok value) :=
      .of_inner (fun _ _ => rfl) rfl (.of_inner trivial rfl (.of_leaf rfl rfl))
    have options : ∀ n ∈ [Node.enum ["en"], .number []], Every Unmarked n :=
      List.forall_mem_cons.mpr ⟨.of_leaf (by simp [Unmarked]) rfl,
        List.forall_mem_singleton.mpr (.of_leaf trivial rfl)⟩
    have language : Every Unmarked (.withDefault (.union [.enum ["en"], .number []])
        fun _ => some (.string "en")) :=
      .of_inner trivial rfl (.intro trivial options)
    exact .of_object trivial (List.forall_mem_cons.mpr
      ⟨title, List.forall_mem_singleton.mpr language⟩) (by simp)
  have haccepted : (Node.object titled none).parseDocument
      (.object [("title", .string "On texts")]) .detached =
      .ok (.object [("language", .string "en"), ("title", .string "On texts")]) := by
    simp only [parseDocument, titled, parser, List.map]
    rfl
  have hordered : (Value.object [("title", .string "On texts")]).Ordered := by
    simp [Value.Ordered, Value.OrderedFields, Entries.Sorted]
  exact empty_texts_kept_out rfl hunmarked hordered haccepted

end Node

end DocSchema

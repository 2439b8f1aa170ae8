-- SUMMARY: What the parser of a node gives, the parser accepts again.
import DocSchema.Proofs.Acceptance
import DocSchema.Proofs.Output

/-!
# Parsing what was parsed

Without transforms parsing fills in defaults and leaves the form of a value as it is.
So a node accepts what it gave itself: a filled default was accepted under its field, and
an option of a union is still there to accept what came out of it. Objects ask for two
things more. A name that is declared twice would be parsed by one declaration and checked
by both, and an object that comes out as a date is no object any more.
-/

namespace DocSchema

namespace Node

variable {ctx : Context}

/-! ## Properties of schemas -/

/-- A default gives values whose objects are in the order of their names. -/
def GivesOrdered (ctx : Context) : Node → Prop
  | .withDefault _ default => ∀ v, default ctx = some v → v.Ordered
  | _ => True

/-- An object declares each name once. -/
def NamesOnce : Node → Prop
  | .object fields _ => (Entries.keys fields).Nodup
  | _ => True

theorem keptByMerging_givesOrdered : KeptByMerging (GivesOrdered ctx) := by
  refine ⟨fun n hn => ?_, fun _ _ _ _ _ _ => trivial, fun shared gs c d m _ _ => trivial⟩
  cases n with
  | withDefault => cases hn
  | _ => trivial

theorem keptByMerging_namesOnce : KeptByMerging NamesOnce := by
  refine ⟨fun n hn => ?_, fun _ _ _ _ _ _ => trivial,
    fun shared gs c d m hl hr => nodup_keys_of_merged hl hr⟩
  cases n with
  | object => cases hn
  | _ => trivial

/-! ## Objects and dates -/

/-- What keeps the names of an object that is no date, and puts no text of its own under
`$date`, is no date. -/
theorem kind_ne_date_of_kept {input out : Entries Value} (sorted : Entries.Sorted input)
    (kind : (Value.object input).kind = .object)
    (kept : ∀ name ∈ Entries.keys input, name ∈ Entries.keys out)
    (same : ∀ text, (dateKey, .string text) ∈ out → (dateKey, .string text) ∈ input) :
    (Value.object out).kind ≠ .date := by
  intro hdate
  obtain ⟨text, rfl⟩ := Value.eq_of_kind_date hdate
  have hin := same text List.mem_cons_self
  have heq : input = [(dateKey, .string text)] := by
    refine sorted.ext (List.pairwise_singleton _ _) fun key => ?_
    rw [Entries.get?_cons]
    by_cases hkey : dateKey = key
    · subst hkey
      rw [if_pos rfl, Entries.get?_of_mem sorted.distinct hin]
    · rw [if_neg hkey]
      exact Entries.get?_eq_none_iff.mpr fun hmem =>
        hkey (List.mem_singleton.mp (kept key hmem)).symm
  rw [← heq, kind] at hdate
  cases hdate

/-- Without transforms a text that comes out is the text that was given. -/
theorem eq_of_parses_string {n : Node} (plain : Every Untransformed n) {v : Value} {text : String}
    (h : Parses ctx n (some v) (some (.string text))) : v = .string text := by
  obtain ⟨w, hw, hform⟩ := h.sameForm plain
  cases hw
  cases hform
  rfl

/-- Without transforms a value does not vanish. -/
theorem not_parses_some_none {n : Node} (plain : Every Untransformed n) {v : Value} :
    ¬ Parses ctx n (some v) none := by
  intro h
  obtain ⟨w, hw, -⟩ := h.sameForm plain
  cases hw

section Object

variable {fields : List (String × Node)} {catchall : Option Node} {input : Entries Value}
  {built : Value}

theorem kind_ne_date_of_object (plain : Every Untransformed (.object fields catchall))
    (named : Named (.object fields catchall)) (ordered : (Value.object input).Ordered)
    (h : Parses ctx (.object fields catchall) (some (.object input)) (some built)) :
    built.kind ≠ .date := by
  obtain ⟨_, extra, own, hinput, kind, hextra, hown, heq⟩ := parses_object_iff.mp h
  cases hinput
  cases heq
  have hsorted := (Value.ordered_object_iff.mp ordered).1
  refine kind_ne_date_of_kept hsorted kind (fun name hname => ?_) fun text htext => ?_
  · obtain ⟨e, he, rfl⟩ := List.mem_map.mp hname
    rw [Entries.mem_keys_ofList, List.map_append, List.mem_append]
    cases hget : Entries.get? fields e.1 with
    | none =>
      rcases hextra.target (mem_undeclared_iff.mpr ⟨he, hget⟩) with ⟨rest, rfl, hnone⟩ | ⟨v, -, hv⟩
      · exact (not_parses_some_none plain.catchall hnone).elim
      · exact .inl (List.mem_map.mpr ⟨_, hv, rfl⟩)
    | some n =>
      have hf := Entries.mem_of_get? hget
      rcases hown.target hf with hnone | ⟨v, -, hv⟩
      · rw [ParsesField, Entries.get?_of_mem hsorted.distinct he] at hnone
        exact (not_parses_some_none (plain.field hf) hnone).elim
      · exact .inr (List.mem_map.mpr ⟨_, hv, rfl⟩)
  · rcases List.mem_append.mp (Entries.mem_of_mem_ofList htext) with htext | htext
    · obtain ⟨⟨name, v⟩, he, rfl, rest, rfl, hparses⟩ := hextra.source htext
      cases eq_of_parses_string plain.catchall hparses
      exact (mem_undeclared_iff.mp he).1
    · -- No field is declared under `$date`.
      obtain ⟨f, hf, hname, -⟩ := hown.source htext
      have hrule : nameRule? dateKey = none := hname ▸ named f hf
      exact absurd hrule (by decide)

theorem kind_ne_date_of_record {n : Node} (plain : Every Untransformed n)
    (ordered : (Value.object input).Ordered)
    (h : Parses ctx (.record n) (some (.object input)) (some built)) : built.kind ≠ .date := by
  obtain ⟨_, out, hinput, kind, hout, heq⟩ := parses_record_iff.mp h
  cases hinput
  cases heq
  refine kind_ne_date_of_kept (Value.ordered_object_iff.mp ordered).1 kind (fun name hname => ?_)
    fun text htext => ?_
  · obtain ⟨e, he, rfl⟩ := List.mem_map.mp hname
    rcases hout.target he with hnone | ⟨v, -, hv⟩
    · exact (not_parses_some_none plain hnone).elim
    · exact List.mem_map.mpr ⟨_, hv, rfl⟩
  · obtain ⟨⟨name, v⟩, he, rfl, hparses⟩ := hout.source htext
    cases eq_of_parses_string plain hparses
    exact he

end Object

/-- No run of a schema without transforms is left with a date for an object. -/
theorem Builds.kind_ne_date {n : Node} (plain : Every Untransformed n) (named : Every Named n)
    (givesOrdered : Every (GivesOrdered ctx) n) {value : Option Value}
    (ordered : ∀ v, value = some v → v.Ordered) {built : Value} (h : Builds ctx n value built) :
    built.kind ≠ .date := by
  -- Each value along the run is in order: it is a part of the one before, or a default.
  induction h with
  | object h =>
    obtain ⟨input, _, _, rfl, -⟩ := parses_object_iff.mp h
    exact kind_ne_date_of_object plain named.here (ordered _ rfl) h
  | record h =>
    obtain ⟨input, _, rfl, -⟩ := parses_record_iff.mp h
    exact kind_ne_date_of_record (plain.inner rfl) (ordered _ rfl) h
  | field hf _ ih =>
    exact ih (plain.field hf) (named.field hf) (givesOrdered.field hf) fun v hv =>
      Value.ordered_of_mem_fields (ordered _ rfl) (Entries.mem_of_get? hv)
  | undeclared he _ ih =>
    refine ih plain.catchall named.catchall givesOrdered.catchall ?_
    rintro _ ⟨⟩
    exact Value.ordered_of_mem_fields (ordered _ rfl) (mem_undeclared_iff.mp he).1
  | entry he _ ih =>
    refine ih (plain.inner rfl) (named.inner rfl) (givesOrdered.inner rfl) ?_
    rintro _ ⟨⟩
    exact Value.ordered_of_mem_fields (ordered _ rfl) he
  | item hv _ ih =>
    refine ih (plain.inner rfl) (named.inner rfl) (givesOrdered.inner rfl) ?_
    rintro _ ⟨⟩
    exact Value.ordered_of_mem (ordered _ rfl) hv
  | position he _ ih =>
    obtain ⟨hitem, hvalue⟩ := List.of_mem_zip he
    refine ih (plain.child hitem) (named.child hitem) (givesOrdered.child hitem) ?_
    rintro _ ⟨⟩
    exact Value.ordered_of_mem (ordered _ rfl) hvalue
  | @union before after option _ _ _ _ ih =>
    have hmem : option ∈ before ++ option :: after := by simp
    exact ih (plain.child hmem) (named.child hmem) (givesOrdered.child hmem) ordered
  | discriminated _ hchosen _ ih =>
    have hmem := List.mem_of_find?_eq_some hchosen
    exact ih (plain.child hmem) (named.child hmem) (givesOrdered.child hmem) ordered
  | intersection hmerges _ ih =>
    exact ih (plain.merged keptByMerging_untransformed hmerges)
      (named.merged keptByMerging_named hmerges)
      (givesOrdered.merged keptByMerging_givesOrdered hmerges) ordered
  | transform => exact plain.here.elim
  | optional _ ih | withDefault _ ih =>
    exact ih (plain.inner rfl) (named.inner rfl) (givesOrdered.inner rfl) ordered
  | nullable _ _ ih =>
    exact ih (plain.inner rfl) (named.inner rfl) (givesOrdered.inner rfl) ordered
  | filled _ ih =>
    exact ih (plain.inner rfl) (named.inner rfl) (givesOrdered.inner rfl) givesOrdered.here

/-! ## Parsing again -/

/-- An object accepts what came out of it if the nodes below accept what came out of them. -/
theorem accepts_parsed_object {fields : List (String × Node)} {catchall : Option Node}
    {input extra own : Entries Value} (once : (Entries.keys fields).Nodup)
    (plain : ∀ f ∈ fields, Every Untransformed f.2)
    (kind : (Value.object (Entries.ofList (extra ++ own))).kind = .object)
    (hextra : Collects (ParsesOthers ctx catchall) (undeclared fields input) extra)
    (hown : Collects (ParsesField ctx input) fields own)
    (ihFields : ∀ f ∈ fields, ∀ w, ParsesField ctx input f (some w) → Accepts ctx f.2 (some w))
    (ihOthers : ∀ rest, catchall = some rest → ∀ e ∈ undeclared fields input, ∀ w,
      Parses ctx rest (some e.2) (some w) → Accepts ctx rest (some w)) :
    Accepts ctx (.object fields catchall) (some (.object (Entries.ofList (extra ++ own)))) := by
  refine accepts_object_iff.mpr ⟨_, rfl, kind, fun f hf => ?_, fun e he hundeclared => ?_⟩
  · have hfield := parses_declared hf (Entries.eq_of_mem once hf) hextra hown
    cases hget : Entries.get? (Entries.ofList (extra ++ own)) f.1 with
    | some w =>
      rw [hget] at hfield
      exact ihFields f hf w hfield
    | none =>
      -- Only absence leaves a field absent, and it will do so again.
      rw [hget] at hfield
      cases hinput : Entries.get? input f.1 with
      | none =>
        rw [hinput] at hfield
        exact ⟨none, hfield⟩
      | some v =>
        rw [hinput] at hfield
        exact (not_parses_some_none (plain f hf) hfield).elim
  · rcases List.mem_append.mp (Entries.mem_of_mem_ofList he) with he | he
    · obtain ⟨e', he', -, rest, hrest, hparses⟩ := hextra.source he
      exact ⟨rest, hrest, ihOthers rest hrest e' he' e.2 hparses⟩
    · obtain ⟨f, hf, hname, -⟩ := hown.source he
      exact (Entries.get?_eq_none_iff.mp hundeclared (hname ▸ Entries.mem_keys_of_mem hf)).elim

/-- The tag of an object is there when the object has been parsed. -/
theorem Parses.tag_kept {key : String} {option : Node} {literal tag : Value}
    (once : NamesOnce option) (hliteral : option.discriminator? key = some literal)
    {input : Entries Value} (htag : Entries.get? input key = some tag) {w : Value}
    (h : Parses ctx option (some (.object input)) (some w)) : w.field? key = some tag := by
  obtain ⟨-, fields, catchall, rfl, hlookup⟩ := discriminator?_eq_some hliteral
  obtain ⟨_, extra, own, hinput, -, hextra, hown, heq⟩ := parses_object_iff.mp h
  cases hinput
  cases heq
  have hdeclared := Entries.mem_of_get? hlookup
  have hfield := parses_declared hdeclared (Entries.eq_of_mem once hdeclared) hextra hown
  obtain ⟨v, hv, -, hsame⟩ := parses_literal_iff.mp hfield
  exact hsame.trans htag

/-- A node accepts what it gave, if no object came out as a date. -/
theorem Parses.accepts_again {n : Node} (plain : Every Untransformed n)
    (once : Every NamesOnce n) {value : Option Value} {w : Value} (h : Parses ctx n value (some w))
    (objects : ∀ built, Builds ctx n value built → built.kind ≠ .date) :
    Accepts ctx n (some w) := by
  induction n using Node.inductionOn generalizing value w with
  | object fields catchall ihFields ihCatchall =>
    obtain ⟨input, extra, own, rfl, -, hextra, hown, heq⟩ := parses_object_iff.mp h
    cases heq
    refine accepts_parsed_object once.here (fun f => plain.field)
      (Value.kind_object (objects _ (.object h))) hextra hown ?_ ?_
    · intro f hf w hw
      exact ihFields f hf (plain.field hf) (once.field hf) hw
        fun built hbuilt => objects built (.field hf hbuilt)
    · rintro rest rfl e he w hw
      exact ihCatchall rest rfl plain.catchall once.catchall hw
        fun built hbuilt => objects built (.undeclared he hbuilt)
  | record n ih =>
    obtain ⟨input, out, rfl, -, hout, heq⟩ := parses_record_iff.mp h
    cases heq
    refine accepts_record_iff.mpr ⟨out, rfl, Value.kind_object (objects _ (.record h)),
      fun e he => ?_⟩
    obtain ⟨e', he', -, hparses⟩ := hout.source he
    exact ih (plain.inner rfl) (once.inner rfl) hparses
      fun built hbuilt => objects built (.entry he' hbuilt)
  | array item ih =>
    obtain ⟨items, parsed, rfl, hparsed, heq⟩ := parses_array_iff.mp h
    cases heq
    refine (accepts_array_iff (plain.inner rfl)).mpr ⟨parsed, rfl, fun w hw => ?_⟩
    obtain ⟨v, hv, hparses⟩ := exists_of_mem_right hparsed hw
    exact ih (plain.inner rfl) (once.inner rfl) hparses
      fun built hbuilt => objects built (.item hv hbuilt)
  | tuple items ih =>
    obtain ⟨vs, parsed, rfl, hlength, hparsed, heq⟩ := parses_tuple_iff.mp h
    cases heq
    have hlength' : parsed.length = items.length := by
      rw [← hparsed.length_eq, List.length_zip, hlength, Nat.min_self]
    refine (accepts_tuple_iff fun n hn => plain.child hn).mpr ⟨parsed, rfl, hlength', ?_⟩
    intro i n w hn hw
    have hmem : (n, w) ∈ items.zip parsed :=
      List.mem_of_getElem? (List.getElem?_zip_eq_some.mpr ⟨hn, hw⟩)
    obtain ⟨v, hv, hparses⟩ := exists_mem_zip_of_pairs hparsed hmem
    have hitem := List.mem_of_getElem? hn
    exact ih n hitem (plain.child hitem) (once.child hitem) hparses
      fun built hbuilt => objects built (.position hv hbuilt)
  | union options ih =>
    obtain ⟨before, option, after, rfl, hbefore, hoption⟩ := parses_union_iff.mp h
    have hmem : option ∈ before ++ option :: after := by simp
    exact exists_parses_union_iff.mpr ⟨option, hmem, ih option hmem (plain.child hmem)
      (once.child hmem) hoption fun built hbuilt => objects built (.union hbefore hbuilt)⟩
  | discriminated key options ih =>
    obtain ⟨input, tag, option, rfl, -, htag, hchosen, hoption⟩ := parses_discriminated_iff.mp h
    have hmem : option ∈ options := List.mem_of_find?_eq_some hchosen
    have hagain := ih option hmem (plain.child hmem) (once.child hmem) hoption
      fun built hbuilt => objects built (.discriminated htag hchosen hbuilt)
    obtain ⟨⟨literal, hliteral, -⟩, -⟩ := chosenOption_eq_some_iff.mp hchosen
    have htag' := hoption.tag_kept (once.child hmem).here hliteral htag
    obtain ⟨-, fields, catchall, rfl, -⟩ := discriminator?_eq_some hliteral
    obtain ⟨out, rfl, kind, -⟩ := accepts_object_iff.mp hagain
    obtain ⟨result, hresult⟩ := hagain
    exact ⟨result, parses_discriminated_iff.mpr ⟨out, tag, _, rfl, kind, htag', hchosen, hresult⟩⟩
  | intersection left right ih =>
    obtain ⟨merged, hmerges, hmerged⟩ := parses_intersection_iff.mp h
    exact (accepts_intersection_iff hmerges).mpr <|
      ih merged hmerges (plain.merged keptByMerging_untransformed hmerges)
        (once.merged keptByMerging_namesOnce hmerges) hmerged
        fun built hbuilt => objects built (.intersection hmerges hbuilt)
  | optional inner ih =>
    cases value with
    | none => cases parses_optional_none.mp h
    | some v =>
      exact accepts_optional_some.mpr <| ih (plain.inner rfl) (once.inner rfl)
        (parses_optional_some.mp h) fun built hbuilt => objects built (.optional hbuilt)
  | nullable inner ih =>
    by_cases hw : w = .null
    · exact hw ▸ accepts_nullable_null
    · have hvalue : value ≠ some .null := by
        rintro rfl
        exact hw (Option.some.inj (parses_nullable_null.mp h))
      refine (accepts_nullable_iff (by simpa using hw)).mpr ?_
      exact ih (plain.inner rfl) (once.inner rfl) ((parses_nullable_of_ne hvalue).mp h)
        fun built hbuilt => objects built (.nullable hvalue hbuilt)
  | withDefault inner default ih =>
    have hinner : Accepts ctx inner (some w) := by
      cases value with
      | none =>
        exact ih (plain.inner rfl) (once.inner rfl) (parses_withDefault_none.mp h)
          fun built hbuilt => objects built (.filled hbuilt)
      | some v =>
        exact ih (plain.inner rfl) (once.inner rfl) (parses_withDefault_some.mp h)
          fun built hbuilt => objects built (.withDefault hbuilt)
    obtain ⟨result, hresult⟩ := hinner
    exact ⟨result, parses_withDefault_some.mpr hresult⟩
  | transform => exact plain.here.elim
  | enum | literal | string | number | boolean | date | null | any | never =>
    exact ⟨some w, (h.leaf rfl).symm ▸ h⟩

end Node

end DocSchema

-- SUMMARY: What the parser gives is accepted by the compiled validator.
import DocSchema.Proofs.Agreement

/-!
# The output of the parser

The validator of a schema accepts what its parser gives, although the parser fills
defaults, rewrites values and leaves entries out. `Takes n result` is the invariant:
a value that comes out of a node is accepted by its rules, and absence comes out
only where the rules of the object around do not ask for the field.

One thing is beyond the rules. An object whose only entry is a date text is a date
and not an object, and the parser may be left with such an object where it started
from another one. `Builds` is what object and record nodes give along a run.
-/

namespace DocSchema

namespace Node

/-! ## Runs -/

/-- A run of the node on the value has an object or record node give `built`. -/
inductive Builds (ctx : Context) : Node → Option Value → Value → Prop where
  | object {fields : List (String × Node)} {catchall : Option Node} {value : Option Value}
    {built : Value} :
    Parses ctx (.object fields catchall) value (some built) →
      Builds ctx (.object fields catchall) value built
  | record {n : Node} {value : Option Value} {built : Value} :
    Parses ctx (.record n) value (some built) → Builds ctx (.record n) value built
  | field {fields : List (String × Node)} {catchall : Option Node} {input : Entries Value}
    {f : String × Node} {built : Value} :
    f ∈ fields → Builds ctx f.2 (Entries.get? input f.1) built →
      Builds ctx (.object fields catchall) (some (.object input)) built
  | undeclared {fields : List (String × Node)} {rest : Node} {input : Entries Value}
    {e : String × Value} {built : Value} :
    e ∈ Node.undeclared fields input → Builds ctx rest (some e.2) built →
      Builds ctx (.object fields (some rest)) (some (.object input)) built
  | entry {n : Node} {input : Entries Value} {e : String × Value} {built : Value} :
    e ∈ input → Builds ctx n (some e.2) built →
      Builds ctx (.record n) (some (.object input)) built
  | item {n : Node} {items : List Value} {v built : Value} :
    v ∈ items → Builds ctx n (some v) built → Builds ctx (.array n) (some (.array items)) built
  | position {items : List Node} {vs : List Value} {e : Node × Value} {built : Value} :
    e ∈ items.zip vs → Builds ctx e.1 (some e.2) built →
      Builds ctx (.tuple items) (some (.array vs)) built
  | union {before after : List Node} {option : Node} {value : Option Value} {built : Value} :
    (∀ earlier ∈ before, ∀ r, ¬ Parses ctx earlier value r) → Builds ctx option value built →
      Builds ctx (.union (before ++ option :: after)) value built
  | discriminated {key : String} {options : List Node} {input : Entries Value} {tag : Value}
    {option : Node} {built : Value} :
    Entries.get? input key = some tag → chosenOption key options tag = some option →
      Builds ctx option (some (.object input)) built →
      Builds ctx (.discriminated key options) (some (.object input)) built
  | intersection {left right merged : Node} {value : Option Value} {built : Value} :
    Merges left right merged → Builds ctx merged value built →
      Builds ctx (.intersection left right) value built
  | optional {inner : Node} {v built : Value} :
    Builds ctx inner (some v) built → Builds ctx (.optional inner) (some v) built
  | nullable {inner : Node} {value : Option Value} {built : Value} :
    value ≠ some .null → Builds ctx inner value built → Builds ctx (.nullable inner) value built
  | withDefault {inner : Node} {default : Default} {v built : Value} :
    Builds ctx inner (some v) built → Builds ctx (.withDefault inner default) (some v) built
  | filled {inner : Node} {default : Default} {built : Value} :
    Builds ctx inner (default ctx) built → Builds ctx (.withDefault inner default) none built
  | transform {inner : Node} {facet : Option Facet} {apply : Transform} {value : Option Value}
    {built : Value} :
    Builds ctx inner value built → Builds ctx (.transform inner facet apply) value built

/-! ## The invariant -/

/-- The rules of the node accept the value, or let the field be absent. -/
def Takes (n : Node) : Option Value → Prop
  | some v => ∀ r, Compiles n r → r.Accepts v
  | none => n.acceptsAbsent = true

/-- A transform keeps to what the node below it and the facet take. -/
def Sound (ctx : Context) : Node → Prop
  | .transform inner facet apply => ∀ value result,
    (∀ v, value = some v → Takes inner value ∧ FacetFits facet value) →
      apply value ctx = .ok result → Takes inner result ∧ FacetFits facet result
  | _ => True

variable {ctx : Context}

theorem keptByMerging_sound : KeptByMerging (Sound ctx) := by
  refine ⟨fun n hn => ?_, fun _ _ _ _ _ _ => trivial, fun shared gs c d m _ _ => trivial⟩
  cases n with
  | transform => cases hn
  | _ => trivial

/-! ## Objects -/

section Object

variable {fields : List (String × Node)} {catchall : Option Node} {input extra own : Entries Value}

/-- What comes out of an object that takes all its parts. -/
theorem takes_object (distinct : (Entries.keys fields).Nodup)
    (hkind : (Value.object (Entries.ofList (extra ++ own))).kind = .object)
    (hextra : Collects (ParsesOthers ctx catchall) (undeclared fields input) extra)
    (hown : Collects (ParsesField ctx input) fields own)
    (hothers : ∀ rest, catchall = some rest → ∀ e ∈ undeclared fields input, ∀ result,
      Parses ctx rest (some e.2) result → Takes rest result)
    (hfields : ∀ f ∈ fields, ∀ result, ParsesField ctx input f result → Takes f.2 result) :
    Takes (.object fields catchall) (some (.object (Entries.ofList (extra ++ own)))) := by
  intro r h
  obtain ⟨parts, others, hparts, hcatchall, haccepts⟩ := h.object distinct
  refine (haccepts _).mpr ⟨_, rfl, hkind, fun f hf hpresent => ?_, fun e he => ?_⟩
  · rcases hown.target hf with habsent | ⟨v, -, hv⟩
    · rw [show f.2.acceptsAbsent = true from hfields f hf none habsent] at hpresent
      cases hpresent
    · exact Entries.mem_keys_ofList.mpr
        (List.mem_map.mpr ⟨_, List.mem_append_right _ hv, rfl⟩)
  · unfold EntryAccepted
    rcases List.mem_append.mp (Entries.mem_of_mem_ofList he) with he | he
    · obtain ⟨e', he', hname, rest, rfl, hparses⟩ := hextra.source he
      have hundeclared := (mem_undeclared_iff.mp he').2
      rw [hname] at hundeclared
      rcases hparts.lookup e.1 with ⟨n, s, hsome, -, -⟩ | ⟨-, hs⟩
      · cases hundeclared.symm.trans hsome
      cases others with
      | none => exact hcatchall.elim
      | some s =>
        rw [hs]
        exact ⟨s, rfl, hothers rest rfl e' he' _ hparses s hcatchall⟩
    · obtain ⟨f, hf, hname, hparses⟩ := hown.source he
      rcases hparts.lookup e.1 with ⟨n, s, hn, hs, hcompiles⟩ | ⟨hnone, -⟩
      · rw [← hname, Entries.get?_of_mem distinct hf] at hn
        cases hn
        rw [hs]
        exact hfields f hf _ hparses s hcompiles
      · rw [← hname] at hnone
        exact (Entries.get?_eq_none_iff.mp hnone (List.mem_map.mpr ⟨f, hf, rfl⟩)).elim

end Object

/-! ## Other nodes -/

section Nodes

variable {n inner option merged left right : Node} {items options : List Node}
  {result : Option Value} {input out : Entries Value} {parsed : List Value}

theorem takes_leaf (hleaf : n.isLeaf = true) {value : Option Value}
    (h : Parses ctx n value result) : Takes n result := by
  cases h.leaf hleaf
  cases result with
  | some v => exact fun r hr => (agrees_leaf hleaf v r hr).mp ⟨_, h⟩
  | none =>
    cases n with
    | any => simp [Takes, acceptsAbsent]
    | never => exact (not_parses_never h).elim
    | enum | literal | string | number | boolean | date | null =>
      simp [parses_enum_iff, parses_literal_iff, parses_string_iff, parses_number_iff,
        parses_boolean_iff, parses_date_iff, parses_null_iff] at h
    | _ => cases hleaf

theorem takes_record (hkind : (Value.object out).kind = .object)
    (h : Collects (fun _ result => Takes n result) input out) :
    Takes (.record n) (some (.object out)) := by
  intro r hr
  obtain ⟨s, hs, -, haccepts⟩ := hr.record
  refine (haccepts _).mpr ⟨out, rfl, hkind, fun e he => ?_⟩
  obtain ⟨_, -, -, htakes⟩ := h.source he
  exact htakes s hs

theorem takes_array (h : ∀ w ∈ parsed, Takes n (some w)) :
    Takes (.array n) (some (.array parsed)) := by
  intro r hr
  obtain ⟨s, hs, -, haccepts⟩ := hr.array
  exact (haccepts _).mpr ⟨parsed, rfl, fun w hw => h w hw s hs⟩

theorem takes_tuple (hlength : parsed.length = items.length)
    (h : ∀ e ∈ items.zip parsed, Takes e.1 (some e.2)) :
    Takes (.tuple items) (some (.array parsed)) := by
  intro r hr
  obtain ⟨parts, hparts, -, haccepts⟩ := hr.tuple
  refine (haccepts _).mpr ⟨parsed, rfl, hlength, fun e he => ?_⟩
  obtain ⟨item, hs, hmem⟩ := exists_mem_zip hparts he
  exact h _ hmem _ hs

theorem takes_union (hmem : option ∈ options) (h : Takes option result) :
    Takes (.union options) result := by
  cases result with
  | none =>
    unfold Takes
    rw [acceptsAbsent, anyAcceptsAbsent_iff]
    exact ⟨option, hmem, h⟩
  | some w =>
    intro r hr
    obtain ⟨parts, hparts, -, haccepts⟩ := hr.union
    obtain ⟨s, hs, hcompiles⟩ := exists_of_mem_left hparts hmem
    exact (haccepts w).mpr ⟨s, hs, h s hcompiles⟩

/-- Of the options only the chosen one takes what comes out of it. -/
theorem takes_discriminated {key : String} {tag : Value}
    (distinct : Distinct (.discriminated key options)) (each : ∀ o ∈ options, Distinct o)
    (hchosen : chosenOption key options tag = some option) (h : Takes option result) :
    Takes (.discriminated key options) result := by
  cases result with
  | none =>
    obtain ⟨⟨literal, hliteral, -⟩, -⟩ := chosenOption_eq_some_iff.mp hchosen
    obtain ⟨-, fields, catchall, rfl, -⟩ := discriminator?_eq_some hliteral
    simp [Takes, acceptsAbsent] at h
  | some w =>
    intro r hr
    exact hr.accepts_of_option distinct each (List.mem_of_find?_eq_some hchosen) h

theorem takes_intersection (hmerges : Merges left right merged) (h : Takes merged result) :
    Takes (.intersection left right) result := by
  cases result with
  | none => simp [Takes, acceptsAbsent, hmerges.acceptsAbsent h]
  | some w =>
    intro r hr
    obtain ⟨merged', hmerges', hcompiles⟩ := hr.intersection
    cases hmerges.unique hmerges'
    exact h r hcompiles

theorem takes_optional (h : ∀ w, result = some w → Takes inner (some w)) :
    Takes (.optional inner) result := by
  cases result with
  | none => simp [Takes, acceptsAbsent]
  | some w => exact fun r hr => h w rfl r hr.optional

theorem takes_withDefault {default : Default} (h : ∀ w, result = some w → Takes inner (some w)) :
    Takes (.withDefault inner default) result := by
  cases result with
  | none => simp [Takes, acceptsAbsent]
  | some w => exact fun r hr => h w rfl r hr.withDefault

theorem takes_null : Takes (.nullable inner) (some .null) := by
  intro r hr
  obtain ⟨s, -, haccepts⟩ := hr.accepts_nullable
  exact (haccepts _).mpr (.inl rfl)

theorem takes_nullable (h : Takes inner result) : Takes (.nullable inner) result := by
  cases result with
  | none =>
    unfold Takes
    rw [acceptsAbsent]
    exact h
  | some w =>
    intro r hr
    obtain ⟨s, hs, haccepts⟩ := hr.accepts_nullable
    exact (haccepts w).mpr (.inr (h s hs))

theorem takes_transform {facet : Option Facet} {apply : Transform} (h : Takes inner result)
    (fits : FacetFits facet result) : Takes (.transform inner facet apply) result := by
  cases result with
  | none =>
    unfold Takes
    rw [acceptsAbsent]
    exact h
  | some w =>
    intro r hr
    obtain ⟨s, hs, haccepts⟩ := hr.accepts_transform
    exact (haccepts w).mpr ⟨h s hs, fits⟩

end Nodes

/-! ## All nodes -/

/-- What comes out of a node is taken by it. -/
theorem Parses.takes {n : Node} (sound : Every (Sound ctx) n) (distinct : Every Distinct n)
    {value result : Option Value} (h : Parses ctx n value result)
    (objects : ∀ built, Builds ctx n value built → built.kind ≠ .date) : Takes n result := by
  induction n using Node.inductionOn generalizing value result with
  | object fields catchall ihFields ihCatchall =>
    obtain ⟨input, extra, own, rfl, -, hextra, hown, rfl⟩ := parses_object_iff.mp h
    have hkind := Value.kind_object (objects _ (.object h))
    refine takes_object distinct.here hkind hextra hown ?_ ?_
    · rintro rest rfl e he result hresult
      exact ihCatchall rest rfl sound.catchall distinct.catchall hresult
        fun built hbuilt => objects built (.undeclared he hbuilt)
    · intro f hf result hresult
      exact ihFields f hf (sound.field hf) (distinct.field hf) hresult
        fun built hbuilt => objects built (.field hf hbuilt)
  | record n ih =>
    obtain ⟨input, out, rfl, -, hout, rfl⟩ := parses_record_iff.mp h
    have hkind := Value.kind_object (objects _ (.record h))
    refine takes_record hkind (hout.imp fun e he result hresult => ?_)
    exact ih (sound.inner rfl) (distinct.inner rfl) hresult
      fun built hbuilt => objects built (.entry he hbuilt)
  | array item ih =>
    obtain ⟨items, parsed, rfl, hparsed, rfl⟩ := parses_array_iff.mp h
    refine takes_array fun w hw => ?_
    obtain ⟨v, hv, hparses⟩ := exists_of_mem_right hparsed hw
    exact ih (sound.inner rfl) (distinct.inner rfl) hparses
      fun built hbuilt => objects built (.item hv hbuilt)
  | tuple items ih =>
    obtain ⟨vs, parsed, rfl, hlength, hparsed, rfl⟩ := parses_tuple_iff.mp h
    have hlength' : parsed.length = items.length := by
      rw [← hparsed.length_eq, List.length_zip, hlength, Nat.min_self]
    refine takes_tuple hlength' fun e he => ?_
    obtain ⟨v, hv, hparses⟩ := exists_mem_zip_of_pairs hparsed he
    have hitem := (List.of_mem_zip hv).1
    exact ih e.1 hitem (sound.child hitem) (distinct.child hitem) hparses
      fun built hbuilt => objects built (.position hv hbuilt)
  | union options ih =>
    obtain ⟨before, option, after, rfl, hbefore, hoption⟩ := parses_union_iff.mp h
    have hmem : option ∈ before ++ option :: after := by simp
    exact takes_union hmem (ih option hmem (sound.child hmem) (distinct.child hmem) hoption
      fun built hbuilt => objects built (.union hbefore hbuilt))
  | discriminated key options ih =>
    obtain ⟨input, tag, option, rfl, -, htag, hchosen, hoption⟩ := parses_discriminated_iff.mp h
    have hmem : option ∈ options := List.mem_of_find?_eq_some hchosen
    have htakes := ih option hmem (sound.child hmem) (distinct.child hmem) hoption
      fun built hbuilt => objects built (.discriminated htag hchosen hbuilt)
    exact takes_discriminated distinct.here (fun o ho => (distinct.child ho).here) hchosen htakes
  | intersection left right ih =>
    obtain ⟨merged, hmerges, hparses⟩ := parses_intersection_iff.mp h
    exact takes_intersection hmerges (ih merged hmerges
      (sound.merged keptByMerging_sound hmerges) (distinct.merged keptByMerging_distinct hmerges)
      hparses fun built hbuilt => objects built (.intersection hmerges hbuilt))
  | optional inner ih =>
    refine takes_optional ?_
    rintro w rfl
    cases value with
    | none => cases parses_optional_none.mp h
    | some v =>
      exact ih (sound.inner rfl) (distinct.inner rfl) (parses_optional_some.mp h)
        fun built hbuilt => objects built (.optional hbuilt)
  | nullable inner ih =>
    by_cases hnull : value = some .null
    · subst hnull
      rw [parses_nullable_null.mp h]
      exact takes_null
    · exact takes_nullable (ih (sound.inner rfl) (distinct.inner rfl)
        ((parses_nullable_of_ne hnull).mp h)
        fun built hbuilt => objects built (.nullable hnull hbuilt))
  | withDefault inner default ih =>
    refine takes_withDefault ?_
    rintro w rfl
    cases value with
    | none =>
      exact ih (sound.inner rfl) (distinct.inner rfl) (parses_withDefault_none.mp h)
        fun built hbuilt => objects built (.filled hbuilt)
    | some v =>
      exact ih (sound.inner rfl) (distinct.inner rfl) (parses_withDefault_some.mp h)
        fun built hbuilt => objects built (.withDefault hbuilt)
  | transform inner facet apply ih =>
    obtain ⟨parsed, hparsed, hfits, happly⟩ := parses_transform_iff.mp h
    have htakes := ih (sound.inner rfl) (distinct.inner rfl) hparsed
      fun built hbuilt => objects built (.transform hbuilt)
    obtain ⟨htakes', hfits'⟩ := sound.here parsed result (fun _ _ => ⟨htakes, hfits⟩) happly
    exact takes_transform htakes' hfits'
  | enum | literal | string | number | boolean | date | null | any | never =>
    exact takes_leaf rfl h

/-! ## Documents -/

/-- The validator of a schema accepts what its parser gives, unless a node on the
way is left with a date for an object. -/
theorem isValid_of_parseDocument {schema : Node} {validator : Validator}
    (compiled : schema.compile = .ok validator) (sound : Every (Sound ctx) schema)
    (distinct : Every Distinct schema) {document parsed : Value}
    (objects : ∀ built, Builds ctx schema (some document) built → built.kind ≠ .date)
    (h : schema.parseDocument document ctx = .ok parsed) : validator.isValid parsed = true := by
  obtain ⟨hcompiles, hvalid⟩ := compile_eq_ok compiled
  have htakes := (parseDocument_eq_ok_iff.mp h).takes sound distinct objects
  exact (hvalid parsed).mpr (htakes validator.body hcompiles)

/-- A state that a transform settles where it is given. -/
def ticket : Node :=
  .object [("note", .withDefault (.string [] false) fun _ => some (.string "none")),
    ("state", .transform (.optional (.string [] false)) (some (.string [.minLength 1]))
      fun value _ => .ok (value.map fun _ => .string "open"))] none

theorem ticket_valid : ∃ validator, ticket.compile = .ok validator ∧
    ticket.parseDocument (.object [("state", .string "new")]) .detached =
      .ok (.object [("note", .string "none"), ("state", .string "open")]) ∧
    validator.isValid (.object [("note", .string "none"), ("state", .string "open")]) = true := by
  have hcompile : ∃ validator, ticket.compile = .ok validator := by
    rw [ticket, compile_object, rules_object]
    simp only [List.map, rules, acceptsAbsent]
    exact ⟨_, rfl⟩
  have hparse : ticket.parseDocument (.object [("state", .string "new")]) .detached =
      .ok (.object [("note", .string "none"), ("state", .string "open")]) := by
    rw [ticket, parseDocument, parser_object]
    simp only [List.map, parser]
    rfl
  obtain ⟨validator, compiled⟩ := hcompile
  refine ⟨validator, compiled, hparse, isValid_of_parseDocument compiled ?_ ?_ ?_ hparse⟩
  · have hsound : Sound .detached (.transform (.optional (.string [] false))
        (some (.string [.minLength 1])) fun value _ => .ok (value.map fun _ => .string "open")) := by
      rintro value result - ⟨⟩
      cases value with
      | none => exact ⟨by simp [Takes, acceptsAbsent], by simp [FacetFits]⟩
      | some v =>
        refine ⟨fun r hr => (hr.optional.string.2 _).mpr ⟨"open", rfl, rfl⟩, ?_⟩
        rintro f w ⟨⟩ ⟨⟩
        rfl
    refine .of_object trivial (List.forall_mem_cons.mpr ⟨?_, List.forall_mem_singleton.mpr ?_⟩)
      (by simp)
    · exact .of_inner trivial rfl (.of_leaf trivial rfl)
    · exact .of_inner hsound rfl (.of_inner trivial rfl (.of_leaf trivial rfl))
  · refine .of_object (by simp [Distinct, Entries.keys])
      (List.forall_mem_cons.mpr ⟨?_, List.forall_mem_singleton.mpr ?_⟩) (by simp)
    · exact .of_inner trivial rfl (.of_leaf trivial rfl)
    · exact .of_inner trivial rfl (.of_inner trivial rfl (.of_leaf trivial rfl))
  · intro built hbuilt
    cases hbuilt with
    | object h =>
      cases h.unique (parseDocument_eq_ok_iff.mp hparse)
      decide
    | field hf h =>
      simp only [List.mem_cons, List.not_mem_nil, or_false] at hf
      rcases hf with rfl | rfl
      · cases h with
        | filled h => cases h
      · cases h with
        | transform h =>
          cases h with
          | optional h => cases h

/-- An object from which a transform drops the entry beside `$date`. -/
def droppedBesideDate : Node :=
  .object [("$date", .string [] false), ("x", .transform (.optional .any) none fun _ _ => .ok none)]
    none

/-- Without the condition on objects a parsed document is refused: it is a date. -/
theorem droppedBesideDate_invalid :
    Every (Sound .detached) droppedBesideDate ∧ Every Distinct droppedBesideDate ∧
      ∃ validator, droppedBesideDate.compile = .ok validator ∧
        droppedBesideDate.parseDocument
          (.object [("$date", .string "2024-01-01T00:00:00Z"), ("x", .int 1)]) .detached =
            .ok (.object [("$date", .string "2024-01-01T00:00:00Z")]) ∧
          validator.isValid (.object [("$date", .string "2024-01-01T00:00:00Z")]) = false := by
  have hcompile : ∃ validator, droppedBesideDate.compile = .ok validator := by
    rw [droppedBesideDate, compile_object, rules_object]
    simp only [List.map, rules, acceptsAbsent]
    exact ⟨_, rfl⟩
  obtain ⟨validator, compiled⟩ := hcompile
  refine ⟨?_, ?_, validator, compiled, ?_, ?_⟩
  · have hsound : Sound .detached (.transform (.optional .any) none fun _ _ => .ok none) := by
      rintro value result - ⟨⟩
      exact ⟨by simp [Takes, acceptsAbsent], by simp [FacetFits]⟩
    refine .of_object trivial (List.forall_mem_cons.mpr ⟨?_, List.forall_mem_singleton.mpr ?_⟩)
      (by simp)
    · exact .of_leaf trivial rfl
    · exact .of_inner hsound rfl (.of_inner trivial rfl (.of_leaf trivial rfl))
  · refine .of_object (by simp [Distinct, Entries.keys])
      (List.forall_mem_cons.mpr ⟨?_, List.forall_mem_singleton.mpr ?_⟩) (by simp)
    · exact .of_leaf trivial rfl
    · exact .of_inner trivial rfl (.of_inner trivial rfl (.of_leaf trivial rfl))
  · rw [droppedBesideDate, parseDocument, parser_object]
    simp only [List.map, parser]
    rfl
  · obtain ⟨hcompiles, hvalid⟩ := compile_eq_ok compiled
    obtain ⟨parts, others, -, -, haccepts⟩ := hcompiles.object (by simp [Entries.keys])
    rw [Bool.eq_false_iff, ne_eq, hvalid, haccepts]
    rintro ⟨input, heq, hkind, -⟩
    cases heq
    revert hkind
    decide

end Node

end DocSchema

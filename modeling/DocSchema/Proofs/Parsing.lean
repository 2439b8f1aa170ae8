-- SUMMARY: Parsing as a relation without locations, characterized for each kind of node.
import DocSchema.Proofs.Collects
import DocSchema.Proofs.Merge
import DocSchema.Schema.Parse

/-!
# Parsing as a relation

`Parses ctx n value result` says that a node turns a value, or its absence, into
a result. The place where a value stands shows in errors only: whether a parser
succeeds, and with what, is the same everywhere (`Node.parser_isUniform`). Each
kind of node has a characterization of `Parses` in terms of the nodes below it,
which is what later proofs use; none of them opens a parser.
-/

namespace DocSchema

/-! ## Checks -/

theorem StringCheck.checkAll_eq_ok_iff {checks : List StringCheck} {text : String}
    {location : Location} {u : Unit} :
    StringCheck.checkAll checks text location = .ok u ↔
      StringCheck.allHold checks text = true := by
  unfold StringCheck.checkAll StringCheck.allHold
  rw [List.all_eq_true]
  split
  · next h => simpa using h
  · next failed h =>
    have hmem := List.mem_of_find?_eq_some h
    have hfails := List.find?_some h
    constructor
    · intro h'; cases h'
    · intro hall; simp [hall failed hmem] at hfails

theorem NumberCheck.checkAll_eq_ok_iff {checks : List NumberCheck} {n : Number}
    {location : Location} {u : Unit} :
    NumberCheck.checkAll checks n location = .ok u ↔ NumberCheck.allHold checks n = true := by
  unfold NumberCheck.checkAll NumberCheck.allHold
  rw [List.all_eq_true]
  split
  · next h => simpa using h
  · next failed h =>
    have hmem := List.mem_of_find?_eq_some h
    have hfails := List.find?_some h
    constructor
    · intro h'; cases h'
    · intro hall; simp [hall failed hmem] at hfails

/-- Whether a value meets a facet; values of another type do. -/
def Facet.holds (facet : Facet) (v : Value) : Bool :=
  match facet, v with
  | .string checks, .string text => StringCheck.allHold checks text
  | .number checks, .number n => NumberCheck.allHold checks n
  | _, _ => true

theorem Facet.check_eq_ok_iff {facet : Facet} {v : Value} {location : Location} {u : Unit} :
    facet.check v location = .ok u ↔ facet.holds v = true := by
  cases facet <;> cases v <;>
    simp [Facet.check, Facet.holds, StringCheck.checkAll_eq_ok_iff, NumberCheck.checkAll_eq_ok_iff]

/-- What a transform asks of the value it rewrites. -/
def FacetFits (facet : Option Facet) (value : Option Value) : Prop :=
  ∀ f v, facet = some f → value = some v → f.holds v = true

theorem Parser.checkFacet_eq_ok_iff {facet : Option Facet} {value : Option Value}
    {location : Location} {u : Unit} :
    Parser.checkFacet facet value location = .ok u ↔ FacetFits facet value := by
  cases facet with
  | none => simp [Parser.checkFacet, FacetFits]
  | some f =>
    cases value with
    | none => simp [Parser.checkFacet, FacetFits]
    | some v => simp [Parser.checkFacet, FacetFits, Facet.check_eq_ok_iff]

/-! ## Parsers that do not depend on the place -/

namespace Parser

/-- The outcome is the same at every place. -/
def Uniform (p : Parser) : Prop :=
  ∀ value ctx location result, p value ctx location = .ok result →
    ∀ other, p value ctx other = .ok result

/-- The result of a parser at the root. -/
def Yields (p : Parser) (ctx : Context) (value result : Option Value) : Prop :=
  p value ctx .root = .ok result

theorem Uniform.ok_iff {p : Parser} (h : p.Uniform) {value result : Option Value} {ctx : Context}
    {location : Location} : p value ctx location = .ok result ↔ p.Yields ctx value result :=
  ⟨fun hr => h _ _ _ _ hr .root, fun hr => h _ _ _ _ hr location⟩

theorem Yields.unique {p : Parser} {ctx : Context} {value r s : Option Value}
    (hr : p.Yields ctx value r) (hs : p.Yields ctx value s) : r = s := by
  unfold Yields at hr hs
  rw [hr] at hs
  exact Except.ok.inj hs

end Parser

namespace ValueParser

def Uniform (p : ValueParser) : Prop :=
  ∀ v ctx location result, p v ctx location = .ok result → ∀ other, p v ctx other = .ok result

def Yields (p : ValueParser) (ctx : Context) (v result : Value) : Prop := p v ctx .root = .ok result

theorem Uniform.ok_iff {p : ValueParser} (h : p.Uniform) {v result : Value} {ctx : Context}
    {location : Location} : p v ctx location = .ok result ↔ p.Yields ctx v result :=
  ⟨fun hr => h _ _ _ _ hr .root, fun hr => h _ _ _ _ hr location⟩

/-- A parser whose outcome has a description without places is uniform. -/
theorem Uniform.of_iff {p : ValueParser} {R : Context → Value → Value → Prop}
    (h : ∀ v ctx location w, p v ctx location = .ok w ↔ R ctx v w) : p.Uniform :=
  fun _ _ _ _ hr other => (h _ _ other _).mpr ((h _ _ _ _).mp hr)

end ValueParser

theorem Parser.Uniform.of_iff {p : Parser}
    {R : Context → Option Value → Option Value → Prop}
    (h : ∀ value ctx location w, p value ctx location = .ok w ↔ R ctx value w) : p.Uniform :=
  fun _ _ _ _ hr other => (h _ _ other _).mpr ((h _ _ _ _).mp hr)

/-! ## Values that must be there -/

theorem Parser.present_eq_ok_iff {p : ValueParser} (h : p.Uniform) (value : Option Value)
    (ctx : Context) (location : Location) (result : Option Value) :
    Parser.present p value ctx location = .ok result ↔
      ∃ v w, value = some v ∧ p.Yields ctx v w ∧ result = some w := by
  cases value with
  | none => simp [Parser.present]
  | some v =>
    simp only [Parser.present, Outcome.map_eq_ok, h.ok_iff, Option.some.injEq]
    constructor
    · rintro ⟨w, hw, rfl⟩; exact ⟨v, w, rfl, hw, rfl⟩
    · rintro ⟨v', w, rfl, hw, rfl⟩; exact ⟨w, hw, rfl⟩

theorem Parser.element_eq_ok_iff {p : Parser} (h : p.Uniform) {v w : Value} {ctx : Context}
    {location : Location} :
    p.element v ctx location = .ok w ↔ p.Yields ctx (some v) (some w) := by
  have hiff : p (some v) ctx location = .ok (some w) ↔ p.Yields ctx (some v) (some w) := h.ok_iff
  unfold Parser.element
  rw [Outcome.bind_eq_ok, ← hiff]
  constructor
  · rintro ⟨r, hr, heq⟩
    cases r with
    | none => cases heq
    | some w' => cases heq; exact hr
  · intro hr
    exact ⟨some w, hr, rfl⟩

/-! ## Leaves -/

namespace ValueParser

theorem expectObject_eq_ok_iff {v : Value} {location : Location} {fields : Entries Value} :
    expectObject v location = .ok fields ↔ v = .object fields ∧ v.kind = .object := by
  cases v with
  | object input =>
    simp only [expectObject]
    split
    · next hkind => simp [hkind]
    · next hkind => simp [hkind]
  | _ => simp [expectObject]

theorem expectArray_eq_ok_iff {v : Value} {location : Location} {items : List Value} :
    expectArray v location = .ok items ↔ v = .array items := by
  cases v <;> simp [expectArray]

theorem ofKind_eq_ok_iff (kind : Kind) (v : Value) (ctx : Context) (location : Location)
    (w : Value) : ofKind kind v ctx location = .ok w ↔ v.kind = kind ∧ w = v := by
  simp only [ofKind]
  split <;> simp_all [eq_comm]

theorem string_eq_ok_iff (checks : List StringCheck) (v : Value) (ctx : Context)
    (location : Location) (w : Value) :
    string checks v ctx location = .ok w ↔
      ∃ text, v = .string text ∧ StringCheck.allHold checks text = true ∧ w = v := by
  cases v with
  | string text =>
    simp only [string, Outcome.bind_eq_ok, StringCheck.checkAll_eq_ok_iff, Except.ok.injEq]
    constructor
    · rintro ⟨-, hall, rfl⟩; exact ⟨text, rfl, hall, rfl⟩
    · rintro ⟨text', heq, hall, rfl⟩; cases heq; exact ⟨(), hall, rfl⟩
  | _ => simp [string]

theorem number_eq_ok_iff (checks : List NumberCheck) (v : Value) (ctx : Context)
    (location : Location) (w : Value) :
    number checks v ctx location = .ok w ↔
      ∃ n, v = .number n ∧ NumberCheck.allHold checks n = true ∧ w = v := by
  cases v with
  | number n =>
    simp only [number, Outcome.bind_eq_ok, NumberCheck.checkAll_eq_ok_iff, Except.ok.injEq]
    constructor
    · rintro ⟨-, hall, rfl⟩; exact ⟨n, rfl, hall, rfl⟩
    · rintro ⟨n', heq, hall, rfl⟩; cases heq; exact ⟨(), hall, rfl⟩
  | _ => simp [number]

theorem enum_eq_ok_iff (values : List String) (v : Value) (ctx : Context) (location : Location)
    (w : Value) :
    enum values v ctx location = .ok w ↔ ∃ text, v = .string text ∧ text ∈ values ∧ w = v := by
  cases v with
  | string text =>
    simp only [enum]
    split
    · next hmem => simp [hmem, eq_comm (a := Value.string text)]
    · next hmem => simp [hmem]
  | _ => simp [enum]

theorem literal_eq_ok_iff (expected v : Value) (ctx : Context) (location : Location) (w : Value) :
    literal expected v ctx location = .ok w ↔ expected.alike v = true ∧ w = v := by
  simp only [literal]
  split
  · next halike => simp [halike, eq_comm (a := v)]
  · next halike => simp [halike]

theorem never_eq_ok_iff (v : Value) (ctx : Context) (location : Location) (w : Value) :
    never v ctx location = .ok w ↔ False := by
  simp [never]

/-! ## Containers -/

theorem elements_eq_ok_iff {p : Parser} (h : p.Uniform) {ctx : Context} {location : Location}
    {i : Nat} {items parsed : List Value} :
    elements p ctx location i items = .ok parsed ↔
      List.Forall₂ (fun v w => p.Yields ctx (some v) (some w)) items parsed := by
  induction items generalizing i parsed with
  | nil => simp [elements, eq_comm]
  | cons v rest ih =>
    simp only [elements, Outcome.bind_eq_ok, Parser.element_eq_ok_iff h, ih, Except.ok.injEq,
      List.forall₂_cons_left_iff]
    constructor
    · rintro ⟨w, hw, ws, hws, rfl⟩; exact ⟨w, ws, hw, hws, rfl⟩
    · rintro ⟨w, ws, hw, hws, rfl⟩; exact ⟨w, hw, ws, hws, rfl⟩

theorem array_eq_ok_iff {p : Parser} (h : p.Uniform) (v : Value) (ctx : Context)
    (location : Location) (w : Value) :
    array p v ctx location = .ok w ↔ ∃ items parsed, v = .array items ∧
      List.Forall₂ (fun v w => p.Yields ctx (some v) (some w)) items parsed ∧
      w = .array parsed := by
  simp only [array, Outcome.bind_eq_ok, expectArray_eq_ok_iff, elements_eq_ok_iff h,
    Except.ok.injEq]
  constructor
  · rintro ⟨items, hv, parsed, hparsed, hw⟩; exact ⟨items, parsed, hv, hparsed, hw.symm⟩
  · rintro ⟨items, parsed, hv, hparsed, hw⟩; exact ⟨items, hv, parsed, hparsed, hw.symm⟩

theorem positions_eq_ok_iff {ps : List Parser} (h : ∀ p ∈ ps, p.Uniform) {ctx : Context}
    {location : Location} {i : Nat} {items parsed : List Value} :
    positions ctx location i ps items = .ok parsed ↔
      List.Forall₂ (fun (e : Parser × Value) w => e.1.Yields ctx (some e.2) (some w))
        (ps.zip items) parsed := by
  induction ps generalizing i items parsed with
  | nil => simp [positions, eq_comm]
  | cons p ps ih =>
    cases items with
    | nil => simp [positions, eq_comm]
    | cons v rest =>
      obtain ⟨hp, hps⟩ := List.forall_mem_cons.mp h
      simp only [positions, Outcome.bind_eq_ok, Parser.element_eq_ok_iff hp, ih hps,
        Except.ok.injEq, List.zip_cons_cons, List.forall₂_cons_left_iff]
      constructor
      · rintro ⟨w, hw, ws, hws, rfl⟩; exact ⟨w, ws, hw, hws, rfl⟩
      · rintro ⟨w, ws, hw, hws, rfl⟩; exact ⟨w, hw, ws, hws, rfl⟩

theorem tuple_eq_ok_iff {ps : List Parser} (h : ∀ p ∈ ps, p.Uniform) (v : Value) (ctx : Context)
    (location : Location) (w : Value) :
    tuple ps v ctx location = .ok w ↔ ∃ items parsed, v = .array items ∧
      items.length = ps.length ∧
      List.Forall₂ (fun (e : Parser × Value) w => e.1.Yields ctx (some e.2) (some w))
        (ps.zip items) parsed ∧
      w = .array parsed := by
  simp only [tuple, Outcome.bind_eq_ok, expectArray_eq_ok_iff]
  constructor
  · rintro ⟨items, hv, hw⟩
    split at hw
    · next hlength =>
      simp only [Outcome.bind_eq_ok, positions_eq_ok_iff h, Except.ok.injEq] at hw
      obtain ⟨parsed, hparsed, rfl⟩ := hw
      exact ⟨items, parsed, hv, hlength, hparsed, rfl⟩
    · cases hw
  · rintro ⟨items, parsed, hv, hlength, hparsed, rfl⟩
    refine ⟨items, hv, ?_⟩
    rw [if_pos hlength]
    simp only [Outcome.bind_eq_ok, positions_eq_ok_iff h, Except.ok.injEq]
    exact ⟨parsed, hparsed, rfl⟩

theorem entries_eq_ok_iff {p : Parser} (h : p.Uniform) {ctx : Context} {location : Location}
    {input out : Entries Value} :
    entries p ctx location input = .ok out ↔
      Collects (fun e r => p.Yields ctx (some e.2) r) input out := by
  induction input generalizing out with
  | nil => rw [entries, Collects.nil_iff, Except.ok.injEq]
  | cons e rest ih =>
    obtain ⟨name, v⟩ := e
    simp only [entries, Outcome.bind_eq_ok, h.ok_iff, ih, Except.ok.injEq]
    refine Iff.trans ?_ Collects.cons_iff.symm
    exact Iff.rfl

theorem record_eq_ok_iff {p : Parser} (h : p.Uniform) (v : Value) (ctx : Context)
    (location : Location) (w : Value) :
    record p v ctx location = .ok w ↔ ∃ input out, v = .object input ∧ v.kind = .object ∧
      Collects (fun e r => p.Yields ctx (some e.2) r) input out ∧ w = .object out := by
  simp only [record, Outcome.bind_eq_ok, expectObject_eq_ok_iff, entries_eq_ok_iff h,
    Except.ok.injEq]
  constructor
  · rintro ⟨input, ⟨hv, hkind⟩, out, hout, hw⟩; exact ⟨input, out, hv, hkind, hout, hw.symm⟩
  · rintro ⟨input, out, hv, hkind, hout, hw⟩; exact ⟨input, ⟨hv, hkind⟩, out, hout, hw.symm⟩

theorem declared_eq_ok_iff {fields : List (String × Parser)} (h : ∀ f ∈ fields, f.2.Uniform)
    {input : Entries Value} {ctx : Context} {location : Location} {out : Entries Value} :
    declared input ctx location fields = .ok out ↔
      Collects (fun f r => f.2.Yields ctx (Entries.get? input f.1) r) fields out := by
  induction fields generalizing out with
  | nil => rw [declared, Collects.nil_iff, Except.ok.injEq]
  | cons f rest ih =>
    obtain ⟨name, p⟩ := f
    obtain ⟨hp, hrest⟩ := List.forall_mem_cons.mp h
    simp only [declared, Outcome.bind_eq_ok, Parser.Uniform.ok_iff hp, ih hrest, Except.ok.injEq]
    refine Iff.trans ?_ Collects.cons_iff.symm
    exact Iff.rfl

theorem uniform_refuseEntry : Parser.refuseEntry.Uniform := by
  intro value ctx location result h
  cases h

theorem object_eq_ok_iff {fields : List (String × Parser)} {catchall : Option Parser}
    (hfields : ∀ f ∈ fields, f.2.Uniform) (hcatchall : ∀ p, catchall = some p → p.Uniform)
    (v : Value) (ctx : Context) (location : Location) (w : Value) :
    object fields catchall v ctx location = .ok w ↔ ∃ input extra own, v = .object input ∧
      v.kind = .object ∧
      Collects (fun e r => ∃ p, catchall = some p ∧ p.Yields ctx (some e.2) r)
        (input.filter fun e => !Entries.contains fields e.1) extra ∧
      Collects (fun f r => f.2.Yields ctx (Entries.get? input f.1) r) fields own ∧
      w = .object (Entries.ofList (extra ++ own)) := by
  have hrest : (catchall.getD .refuseEntry).Uniform := by
    cases catchall with
    | none => exact uniform_refuseEntry
    | some p => exact hcatchall p rfl
  have hextra {e : String × Value} {r : Option Value} :
      (catchall.getD .refuseEntry).Yields ctx (some e.2) r ↔
        ∃ p, catchall = some p ∧ p.Yields ctx (some e.2) r := by
    cases catchall with
    | none => simp [Parser.Yields, Parser.refuseEntry]
    | some p => simp
  simp only [object, Outcome.bind_eq_ok, expectObject_eq_ok_iff, entries_eq_ok_iff hrest,
    declared_eq_ok_iff hfields, Except.ok.injEq, hextra]
  constructor
  · rintro ⟨input, ⟨hv, hkind⟩, extra, hextra, own, hown, hw⟩
    exact ⟨input, extra, own, hv, hkind, hextra, hown, hw.symm⟩
  · rintro ⟨input, extra, own, hv, hkind, hextra, hown, hw⟩
    exact ⟨input, ⟨hv, hkind⟩, extra, hextra, own, hown, hw.symm⟩

end ValueParser

/-! ## Wrappers -/

namespace Parser

theorem uniform_any : any.Uniform := by
  intro value ctx location result h other
  exact h

theorem uniform_present {p : ValueParser} (h : p.Uniform) : (present p).Uniform :=
  .of_iff (present_eq_ok_iff h)

theorem uniform_optional {p : Parser} (h : p.Uniform) : (optional p).Uniform := by
  intro value ctx location result hr other
  cases value with
  | none => exact hr
  | some v => exact h _ _ _ _ hr other

theorem uniform_withDefault {p : Parser} (h : p.Uniform) (default : Default) :
    (withDefault p default).Uniform := by
  intro value ctx location result hr other
  cases value with
  | none => exact h _ _ _ _ hr other
  | some v => exact h _ _ _ _ hr other

theorem nullable_of_ne_null {p : Parser} {value : Option Value} (hne : value ≠ some .null)
    (ctx : Context) (location : Location) :
    nullable p value ctx location = p value ctx location := by
  unfold nullable
  split
  · exact (hne rfl).elim
  · rfl

theorem uniform_nullable {p : Parser} (h : p.Uniform) : (nullable p).Uniform := by
  intro value ctx location result hr other
  by_cases hnull : value = some .null
  · subst hnull; exact hr
  · rw [nullable_of_ne_null hnull] at hr ⊢
    exact h _ _ _ _ hr other

theorem transform_eq_ok_iff {p : Parser} (h : p.Uniform) (facet : Option Facet)
    (apply : Transform) (value : Option Value) (ctx : Context) (location : Location)
    (result : Option Value) :
    transform p facet apply value ctx location = .ok result ↔
      ∃ parsed, p.Yields ctx value parsed ∧ FacetFits facet parsed ∧
        apply parsed ctx = .ok result := by
  simp only [transform, Outcome.bind_eq_ok, h.ok_iff, checkFacet_eq_ok_iff]
  constructor
  · rintro ⟨parsed, hparsed, -, hfits, happly⟩
    refine ⟨parsed, hparsed, hfits, ?_⟩
    split at happly
    · next hok => cases happly; exact hok
    · cases happly
  · rintro ⟨parsed, hparsed, hfits, happly⟩
    exact ⟨parsed, hparsed, (), hfits, by rw [happly]⟩

/-! ## Unions -/

theorem Uniform.toOption_eq {p : Parser} (h : p.Uniform) (value : Option Value) (ctx : Context)
    (location : Location) :
    (p value ctx location).toOption = (p value ctx .root).toOption := by
  apply Option.ext
  intro r
  rw [Outcome.toOption_eq_some, Outcome.toOption_eq_some]
  exact h.ok_iff

/-- The first parser that accepts, and the ones before it that do not. -/
def FirstYields (ps : List Parser) (ctx : Context) (value result : Option Value) : Prop :=
  ∃ before p after, ps = before ++ p :: after ∧ (∀ q ∈ before, ∀ r, ¬ q.Yields ctx value r) ∧
    p.Yields ctx value result

theorem firstAccepted_eq_some_iff {ps : List Parser} (h : ∀ p ∈ ps, p.Uniform)
    {value result : Option Value} {ctx : Context} {location : Location} :
    firstAccepted ps value ctx location = some result ↔ FirstYields ps ctx value result := by
  have hroot : firstAccepted ps value ctx location = firstAccepted ps value ctx .root := by
    unfold firstAccepted
    induction ps with
    | nil => rfl
    | cons p rest ih =>
      obtain ⟨hp, hrest⟩ := List.forall_mem_cons.mp h
      rw [List.findSome?_cons, List.findSome?_cons, hp.toOption_eq, ih hrest]
  have hnone {q : Parser} : (q value ctx .root).toOption = none ↔ ∀ r, ¬ q.Yields ctx value r := by
    rw [Option.eq_none_iff_forall_ne_some]
    simp only [ne_eq, Outcome.toOption_eq_some, Yields]
  rw [hroot]
  unfold firstAccepted FirstYields
  rw [List.findSome?_eq_some_iff]
  simp only [Outcome.toOption_eq_some, hnone]
  constructor
  · rintro ⟨before, p, after, rfl, hp, hbefore⟩
    exact ⟨before, p, after, rfl, hbefore, hp⟩
  · rintro ⟨before, p, after, rfl, hbefore, hp⟩
    exact ⟨before, p, after, rfl, hp, hbefore⟩

theorem FirstYields.singleton {p : Parser} {ctx : Context} {value result : Option Value} :
    FirstYields [p] ctx value result ↔ p.Yields ctx value result := by
  constructor
  · rintro ⟨before, q, after, heq, -, hq⟩
    cases before with
    | nil => cases heq; exact hq
    | cons b before => simp at heq
  · intro hp
    exact ⟨[], p, [], rfl, by simp, hp⟩

theorem union_eq_ok_iff {ps : List Parser} (h : ∀ p ∈ ps, p.Uniform) (value : Option Value)
    (ctx : Context) (location : Location) (result : Option Value) :
    union ps value ctx location = .ok result ↔ FirstYields ps ctx value result := by
  unfold union
  split
  · next p =>
    rw [FirstYields.singleton]
    exact (List.forall_mem_singleton.mp h).ok_iff
  · have hiff : firstAccepted ps value ctx location = some result ↔
        FirstYields ps ctx value result :=
      firstAccepted_eq_some_iff h
    rw [← hiff]
    split
    · next hfirst => rw [hfirst]; simp
    · next hfirst => rw [hfirst]; simp

theorem discriminated_eq_ok_iff {key : String} {options : List (Option Value × Parser)}
    (h : ∀ o ∈ options, o.2.Uniform) (value : Option Value) (ctx : Context) (location : Location)
    (result : Option Value) :
    discriminated key options value ctx location = .ok result ↔ ∃ input tag chosen,
      value = some (.object input) ∧ (Value.object input).kind = .object ∧
      Entries.get? input key = some tag ∧
      options.find? (fun o => o.1.any fun literal => literal.alike tag) = some chosen ∧
      chosen.2.Yields ctx value result := by
  cases value with
  | none => simp [discriminated]
  | some v =>
    simp only [discriminated, Outcome.bind_eq_ok, ValueParser.expectObject_eq_ok_iff]
    constructor
    · rintro ⟨input, ⟨rfl, hkind⟩, hr⟩
      split at hr
      · cases hr
      · next tag htag =>
        split at hr
        · next chosen hchosen =>
          exact ⟨input, tag, chosen, rfl, hkind, htag, hchosen,
            (h chosen (List.mem_of_find?_eq_some hchosen)).ok_iff.mp hr⟩
        · cases hr
    · rintro ⟨input, tag, chosen, hv, hkind, htag, hchosen, hr⟩
      cases hv
      refine ⟨input, ⟨rfl, hkind⟩, ?_⟩
      simp only [htag, hchosen]
      exact (h chosen (List.mem_of_find?_eq_some hchosen)).ok_iff.mpr hr

end Parser

end DocSchema

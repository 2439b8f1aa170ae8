-- SUMMARY: What each kind of schema node parses to, without locations.
import DocSchema.Proofs.Parsing
import DocSchema.Proofs.Tree

/-!
# Parsing by nodes

`Parses ctx n value result` is the outcome of the parser of a node. For each kind
of node it is characterized by the outcomes of the nodes below it.
-/

namespace DocSchema

namespace Node

/-- The parser of a node succeeds alike at every place. -/
theorem parser_isUniform (n : Node) : n.parser.Uniform := by
  induction n using Node.inductionOn with
  | object fields catchall ihFields ihCatchall =>
    rw [parser_object]
    refine Parser.uniform_present (.of_iff (ValueParser.object_eq_ok_iff ?_ ?_))
    · intro f hf
      obtain ⟨g, hg, rfl⟩ := List.mem_map.mp hf
      exact ihFields g hg
    · intro p hp
      obtain ⟨rest, rfl, rfl⟩ := Option.map_eq_some_iff.mp hp
      exact ihCatchall rest rfl
  | array item ih =>
    rw [parser]
    exact Parser.uniform_present (.of_iff (ValueParser.array_eq_ok_iff ih))
  | tuple items ih =>
    rw [parser]
    refine Parser.uniform_present (.of_iff (ValueParser.tuple_eq_ok_iff ?_))
    intro p hp
    obtain ⟨item, hitem, rfl⟩ := List.mem_map.mp hp
    exact ih item hitem
  | union options ih =>
    rw [parser]
    refine .of_iff (Parser.union_eq_ok_iff ?_)
    intro p hp
    obtain ⟨option, hoption, rfl⟩ := List.mem_map.mp hp
    exact ih option hoption
  | discriminated key options ih =>
    rw [parser]
    refine .of_iff (Parser.discriminated_eq_ok_iff ?_)
    intro o ho
    obtain ⟨option, hoption, rfl⟩ := List.mem_map.mp ho
    exact ih option hoption
  | intersection left right ih =>
    intro value ctx location result hr other
    cases hm : left.intersect right location with
    | error e => rw [parser_intersection_of_error hm] at hr; cases hr
    | ok merged =>
      have hmerges := intersect_eq_ok_iff.mp hm
      have hother : left.intersect right other = .ok merged := intersect_eq_ok_iff.mpr hmerges
      rw [parser_intersection_of_ok hm] at hr
      rw [parser_intersection_of_ok hother]
      exact ih merged hmerges _ _ _ _ hr other
  | record value ih =>
    rw [parser]
    exact Parser.uniform_present (.of_iff (ValueParser.record_eq_ok_iff ih))
  | optional inner ih => rw [parser]; exact Parser.uniform_optional ih
  | nullable inner ih => rw [parser]; exact Parser.uniform_nullable ih
  | withDefault inner default ih => rw [parser]; exact Parser.uniform_withDefault ih default
  | transform inner facet apply ih =>
    rw [parser]
    exact .of_iff (Parser.transform_eq_ok_iff ih facet apply)
  | enum values =>
    rw [parser]
    exact Parser.uniform_present (.of_iff (ValueParser.enum_eq_ok_iff values))
  | literal v =>
    rw [parser]
    exact Parser.uniform_present (.of_iff (ValueParser.literal_eq_ok_iff v))
  | string checks allowEmpty =>
    rw [parser]
    exact Parser.uniform_present (.of_iff (ValueParser.string_eq_ok_iff checks))
  | number checks =>
    rw [parser]
    exact Parser.uniform_present (.of_iff (ValueParser.number_eq_ok_iff checks))
  | boolean | date | null =>
    rw [parser]
    exact Parser.uniform_present (.of_iff (ValueParser.ofKind_eq_ok_iff _))
  | any => rw [parser]; exact Parser.uniform_any
  | never => rw [parser]; exact Parser.uniform_present (.of_iff ValueParser.never_eq_ok_iff)

/-- The node turns the value, or its absence, into the result. -/
def Parses (ctx : Context) (n : Node) (value result : Option Value) : Prop :=
  n.parser.Yields ctx value result

theorem parser_eq_ok_iff {n : Node} {value result : Option Value} {ctx : Context}
    {location : Location} :
    n.parser value ctx location = .ok result ↔ Parses ctx n value result :=
  n.parser_isUniform.ok_iff

theorem Parses.unique {ctx : Context} {n : Node} {value r s : Option Value}
    (hr : Parses ctx n value r) (hs : Parses ctx n value s) : r = s :=
  Parser.Yields.unique hr hs

variable {ctx : Context} {value result : Option Value}

/-! ## Leaves -/

theorem parses_string_iff {checks : List StringCheck} {allowEmpty : Bool} :
    Parses ctx (.string checks allowEmpty) value result ↔
      ∃ text, value = some (.string text) ∧ StringCheck.allHold checks text = true ∧
        result = value := by
  unfold Parses Parser.Yields
  rw [parser, Parser.present_eq_ok_iff (.of_iff (ValueParser.string_eq_ok_iff checks))]
  simp only [ValueParser.Yields, ValueParser.string_eq_ok_iff]
  constructor
  · rintro ⟨v, w, rfl, ⟨text, rfl, hall, rfl⟩, rfl⟩; exact ⟨text, rfl, hall, rfl⟩
  · rintro ⟨text, rfl, hall, rfl⟩; exact ⟨_, _, rfl, ⟨text, rfl, hall, rfl⟩, rfl⟩

theorem parses_number_iff {checks : List NumberCheck} :
    Parses ctx (.number checks) value result ↔
      ∃ n, value = some (.number n) ∧ NumberCheck.allHold checks n = true ∧ result = value := by
  unfold Parses Parser.Yields
  rw [parser, Parser.present_eq_ok_iff (.of_iff (ValueParser.number_eq_ok_iff checks))]
  simp only [ValueParser.Yields, ValueParser.number_eq_ok_iff]
  constructor
  · rintro ⟨v, w, rfl, ⟨n, rfl, hall, rfl⟩, rfl⟩; exact ⟨n, rfl, hall, rfl⟩
  · rintro ⟨n, rfl, hall, rfl⟩; exact ⟨_, _, rfl, ⟨n, rfl, hall, rfl⟩, rfl⟩

theorem parses_enum_iff {values : List String} :
    Parses ctx (.enum values) value result ↔
      ∃ text, value = some (.string text) ∧ text ∈ values ∧ result = value := by
  unfold Parses Parser.Yields
  rw [parser, Parser.present_eq_ok_iff (.of_iff (ValueParser.enum_eq_ok_iff values))]
  simp only [ValueParser.Yields, ValueParser.enum_eq_ok_iff]
  constructor
  · rintro ⟨v, w, rfl, ⟨text, rfl, hmem, rfl⟩, rfl⟩; exact ⟨text, rfl, hmem, rfl⟩
  · rintro ⟨text, rfl, hmem, rfl⟩; exact ⟨_, _, rfl, ⟨text, rfl, hmem, rfl⟩, rfl⟩

theorem parses_literal_iff {expected : Value} :
    Parses ctx (.literal expected) value result ↔
      ∃ v, value = some v ∧ expected.alike v = true ∧ result = value := by
  unfold Parses Parser.Yields
  rw [parser, Parser.present_eq_ok_iff (.of_iff (ValueParser.literal_eq_ok_iff expected))]
  simp only [ValueParser.Yields, ValueParser.literal_eq_ok_iff]
  constructor
  · rintro ⟨v, w, rfl, ⟨halike, rfl⟩, rfl⟩; exact ⟨_, rfl, halike, rfl⟩
  · rintro ⟨v, rfl, halike, rfl⟩; exact ⟨_, _, rfl, ⟨halike, rfl⟩, rfl⟩

theorem present_ofKind_iff {kind : Kind} :
    (Parser.present (.ofKind kind)).Yields ctx value result ↔
      ∃ v, value = some v ∧ v.kind = kind ∧ result = value := by
  unfold Parser.Yields
  rw [Parser.present_eq_ok_iff (.of_iff (ValueParser.ofKind_eq_ok_iff kind))]
  simp only [ValueParser.Yields, ValueParser.ofKind_eq_ok_iff]
  constructor
  · rintro ⟨v, w, rfl, ⟨hkind, rfl⟩, rfl⟩; exact ⟨_, rfl, hkind, rfl⟩
  · rintro ⟨v, rfl, hkind, rfl⟩; exact ⟨_, _, rfl, ⟨hkind, rfl⟩, rfl⟩

theorem parses_boolean_iff :
    Parses ctx .boolean value result ↔ ∃ v, value = some v ∧ v.kind = .bool ∧ result = value := by
  unfold Parses
  rw [parser, present_ofKind_iff]

theorem parses_date_iff :
    Parses ctx .date value result ↔ ∃ v, value = some v ∧ v.kind = .date ∧ result = value := by
  unfold Parses
  rw [parser, present_ofKind_iff]

theorem parses_null_iff :
    Parses ctx .null value result ↔ ∃ v, value = some v ∧ v.kind = .null ∧ result = value := by
  unfold Parses
  rw [parser, present_ofKind_iff]

theorem parses_any_iff : Parses ctx .any value result ↔ result = value := by
  unfold Parses Parser.Yields
  rw [parser]
  simp only [Parser.any, Except.ok.injEq]
  exact eq_comm

theorem not_parses_never : ¬ Parses ctx .never value result := by
  unfold Parses Parser.Yields
  rw [parser, Parser.present_eq_ok_iff (.of_iff ValueParser.never_eq_ok_iff)]
  simp only [ValueParser.Yields, ValueParser.never_eq_ok_iff]
  rintro ⟨_, _, _, h, _⟩
  exact h

/-- The kinds of nodes without nodes below them. -/
def isLeaf : Node → Bool
  | .enum _ | .literal _ | .string .. | .number _ | .boolean | .date | .null | .any | .never => true
  | _ => false

/-- A leaf leaves what it accepts as it is. -/
theorem Parses.leaf {n : Node} (h : Parses ctx n value result) (hleaf : n.isLeaf = true) :
    result = value := by
  cases n with
  | enum => obtain ⟨_, -, -, hresult⟩ := parses_enum_iff.mp h; exact hresult
  | literal => obtain ⟨_, -, -, hresult⟩ := parses_literal_iff.mp h; exact hresult
  | string => obtain ⟨_, -, -, hresult⟩ := parses_string_iff.mp h; exact hresult
  | number => obtain ⟨_, -, -, hresult⟩ := parses_number_iff.mp h; exact hresult
  | boolean => obtain ⟨_, -, -, hresult⟩ := parses_boolean_iff.mp h; exact hresult
  | date => obtain ⟨_, -, -, hresult⟩ := parses_date_iff.mp h; exact hresult
  | null => obtain ⟨_, -, -, hresult⟩ := parses_null_iff.mp h; exact hresult
  | any => exact parses_any_iff.mp h
  | never => exact (not_parses_never h).elim
  | _ => cases hleaf

/-! ## Containers -/

theorem parses_array_iff {item : Node} :
    Parses ctx (.array item) value result ↔ ∃ items parsed, value = some (.array items) ∧
      List.Forall₂ (fun v w => Parses ctx item (some v) (some w)) items parsed ∧
      result = some (.array parsed) := by
  unfold Parses
  have hitem := ValueParser.array_eq_ok_iff item.parser_isUniform
  rw [parser, Parser.Yields, Parser.present_eq_ok_iff (.of_iff hitem)]
  simp only [ValueParser.Yields, hitem]
  constructor
  · rintro ⟨v, w, rfl, ⟨items, parsed, rfl, hparsed, rfl⟩, rfl⟩
    exact ⟨items, parsed, rfl, hparsed, rfl⟩
  · rintro ⟨items, parsed, rfl, hparsed, rfl⟩
    exact ⟨_, _, rfl, ⟨items, parsed, rfl, hparsed, rfl⟩, rfl⟩

theorem parses_tuple_iff {items : List Node} :
    Parses ctx (.tuple items) value result ↔ ∃ vs parsed, value = some (.array vs) ∧
      vs.length = items.length ∧
      List.Forall₂ (fun (e : Node × Value) w => Parses ctx e.1 (some e.2) (some w))
        (items.zip vs) parsed ∧
      result = some (.array parsed) := by
  unfold Parses
  have huniform : ∀ p ∈ items.map parser, p.Uniform := by
    intro p hp
    obtain ⟨item, -, rfl⟩ := List.mem_map.mp hp
    exact item.parser_isUniform
  have hitems := ValueParser.tuple_eq_ok_iff huniform
  rw [parser, Parser.Yields, Parser.present_eq_ok_iff (.of_iff hitems)]
  simp only [ValueParser.Yields, hitems, List.length_map, List.zip_map_left,
    List.forall₂_map_left_iff, Prod.map]
  constructor
  · rintro ⟨v, w, rfl, ⟨vs, parsed, rfl, hlength, hparsed, rfl⟩, rfl⟩
    exact ⟨vs, parsed, rfl, hlength, hparsed, rfl⟩
  · rintro ⟨vs, parsed, rfl, hlength, hparsed, rfl⟩
    exact ⟨_, _, rfl, ⟨vs, parsed, rfl, hlength, hparsed, rfl⟩, rfl⟩

theorem parses_record_iff {n : Node} :
    Parses ctx (.record n) value result ↔ ∃ input out, value = some (.object input) ∧
      (Value.object input).kind = .object ∧
      Collects (fun e r => Parses ctx n (some e.2) r) input out ∧
      result = some (.object out) := by
  unfold Parses
  have hvalue := ValueParser.record_eq_ok_iff n.parser_isUniform
  rw [parser, Parser.Yields, Parser.present_eq_ok_iff (.of_iff hvalue)]
  simp only [ValueParser.Yields, hvalue]
  constructor
  · rintro ⟨v, w, rfl, ⟨input, out, rfl, hkind, hout, rfl⟩, rfl⟩
    exact ⟨input, out, rfl, hkind, hout, rfl⟩
  · rintro ⟨input, out, rfl, hkind, hout, rfl⟩
    exact ⟨_, _, rfl, ⟨input, out, rfl, hkind, hout, rfl⟩, rfl⟩

/-- The entries that an object does not declare. -/
def undeclared (fields : List (String × Node)) (input : Entries Value) : Entries Value :=
  input.filter fun e => !Entries.contains fields e.1

/-- The entries that an object does not declare are those not looked up. -/
theorem mem_undeclared_iff {fields : List (String × Node)} {input : Entries Value}
    {e : String × Value} :
    e ∈ undeclared fields input ↔ e ∈ input ∧ Entries.get? fields e.1 = none := by
  unfold undeclared
  rw [List.mem_filter, Bool.not_eq_true', Entries.contains_eq_false_iff]

/-- How the undeclared entries of an object are parsed. -/
def ParsesOthers (ctx : Context) (catchall : Option Node) (e : String × Value)
    (r : Option Value) : Prop := ∃ rest, catchall = some rest ∧ Parses ctx rest (some e.2) r

/-- How the declared fields of an object are parsed. -/
def ParsesField (ctx : Context) (input : Entries Value) (f : String × Node)
    (r : Option Value) : Prop := Parses ctx f.2 (Entries.get? input f.1) r

theorem parses_object_iff {fields : List (String × Node)} {catchall : Option Node} :
    Parses ctx (.object fields catchall) value result ↔ ∃ input extra own,
      value = some (.object input) ∧ (Value.object input).kind = .object ∧
      Collects (ParsesOthers ctx catchall) (undeclared fields input) extra ∧
      Collects (ParsesField ctx input) fields own ∧
      result = some (.object (Entries.ofList (extra ++ own))) := by
  have hfields : ∀ f ∈ fields.map (fun f => (f.1, f.2.parser)), f.2.Uniform := by
    intro f hf
    obtain ⟨g, -, rfl⟩ := List.mem_map.mp hf
    exact g.2.parser_isUniform
  have hcatchall : ∀ p, catchall.map parser = some p → p.Uniform := by
    intro p hp
    obtain ⟨rest, -, rfl⟩ := Option.map_eq_some_iff.mp hp
    exact rest.parser_isUniform
  have hcontains (name : String) : Entries.contains (fields.map fun f => (f.1, f.2.parser)) name =
      Entries.contains fields name := by
    simp only [Entries.contains, Entries.get?_map, Option.isSome_map]
  have hothers : (fun (e : String × Value) r =>
      ∃ p, catchall.map parser = some p ∧ p.Yields ctx (some e.2) r) =
      ParsesOthers ctx catchall := by
    funext e r
    simp [ParsesOthers, Parses, Option.map_eq_some_iff]
  have hobject := ValueParser.object_eq_ok_iff hfields hcatchall
  unfold Parses
  rw [parser_object, Parser.Yields, Parser.present_eq_ok_iff (.of_iff hobject)]
  simp only [ValueParser.Yields, hobject, hcontains, hothers, Collects.map_iff]
  constructor
  · rintro ⟨v, w, rfl, ⟨input, extra, own, rfl, hkind, hextra, hown, rfl⟩, rfl⟩
    exact ⟨input, extra, own, rfl, hkind, hextra, hown, rfl⟩
  · rintro ⟨input, extra, own, rfl, hkind, hextra, hown, rfl⟩
    exact ⟨_, _, rfl, ⟨input, extra, own, rfl, hkind, hextra, hown, rfl⟩, rfl⟩

/-- What an object has under a name after parsing is what the one declaration of the name
makes of what it had before. -/
theorem parses_declared {fields : List (String × Node)} {catchall : Option Node}
    {input extra own : Entries Value} {name : String} {n : Node} (declared : (name, n) ∈ fields)
    (unique : ∀ f ∈ fields, f.1 = name → f.2 = n)
    (hextra : Collects (ParsesOthers ctx catchall) (undeclared fields input) extra)
    (hown : Collects (ParsesField ctx input) fields own) :
    Parses ctx n (Entries.get? input name) (Entries.get? (Entries.ofList (extra ++ own)) name) := by
  have hagree {v : Value} (hv : (name, v) ∈ extra ++ own) :
      Parses ctx n (Entries.get? input name) (some v) := by
    rcases List.mem_append.mp hv with hv | hv
    · obtain ⟨e, he, hname, -⟩ := hextra.source hv
      have hundeclared := Entries.get?_eq_none_iff.mp (mem_undeclared_iff.mp he).2
      exact (hundeclared (hname ▸ Entries.mem_keys_of_mem declared)).elim
    · obtain ⟨f, hf, hname, hr⟩ := hown.source hv
      rwa [ParsesField, unique f hf hname, hname] at hr
  rcases hown.target declared with hnone | ⟨v, hv, hmem⟩
  · have hget : Entries.get? (Entries.ofList (extra ++ own)) name = none :=
      Entries.get?_ofList_of_forall (fun v hv => Parses.unique hnone (hagree hv)) fun _ => rfl
    rw [hget]
    exact hnone
  · have hget : Entries.get? (Entries.ofList (extra ++ own)) name = some v :=
      Entries.get?_ofList_of_forall (fun w hw => Parses.unique hv (hagree hw))
        fun hmissing => (hmissing (List.mem_map.mpr
          ⟨(name, v), List.mem_append_right _ hmem, rfl⟩)).elim
    rw [hget]
    exact hv

/-! ## Wrappers -/

theorem parses_optional_none {n : Node} : Parses ctx (.optional n) none result ↔ result = none := by
  unfold Parses Parser.Yields
  rw [parser]
  simp only [Parser.optional, Except.ok.injEq]
  exact eq_comm

theorem parses_optional_some {n : Node} {v : Value} :
    Parses ctx (.optional n) (some v) result ↔ Parses ctx n (some v) result := by
  unfold Parses Parser.Yields
  rw [parser]
  rfl

theorem parses_nullable_null {n : Node} :
    Parses ctx (.nullable n) (some .null) result ↔ result = some .null := by
  unfold Parses Parser.Yields
  rw [parser]
  simp only [Parser.nullable, Except.ok.injEq]
  exact eq_comm

theorem parses_nullable_of_ne {n : Node} (h : value ≠ some .null) :
    Parses ctx (.nullable n) value result ↔ Parses ctx n value result := by
  unfold Parses Parser.Yields
  rw [parser, Parser.nullable_of_ne_null h]

theorem parses_withDefault_none {n : Node} {default : Default} :
    Parses ctx (.withDefault n default) none result ↔ Parses ctx n (default ctx) result := by
  unfold Parses Parser.Yields
  rw [parser]
  rfl

theorem parses_withDefault_some {n : Node} {default : Default} {v : Value} :
    Parses ctx (.withDefault n default) (some v) result ↔ Parses ctx n (some v) result := by
  unfold Parses Parser.Yields
  rw [parser]
  rfl

theorem parses_transform_iff {n : Node} {facet : Option Facet} {apply : Transform} :
    Parses ctx (.transform n facet apply) value result ↔ ∃ parsed, Parses ctx n value parsed ∧
      FacetFits facet parsed ∧ apply parsed ctx = .ok result := by
  unfold Parses
  rw [parser]
  exact Parser.transform_eq_ok_iff n.parser_isUniform facet apply value ctx .root result

/-! ## Unions -/

theorem parses_union_iff {options : List Node} :
    Parses ctx (.union options) value result ↔ ∃ before option after,
      options = before ++ option :: after ∧
      (∀ earlier ∈ before, ∀ r, ¬ Parses ctx earlier value r) ∧
      Parses ctx option value result := by
  have huniform : ∀ p ∈ options.map parser, p.Uniform := by
    intro p hp
    obtain ⟨option, -, rfl⟩ := List.mem_map.mp hp
    exact option.parser_isUniform
  unfold Parses
  rw [parser, Parser.Yields, Parser.union_eq_ok_iff huniform]
  constructor
  · rintro ⟨before, p, after, heq, hbefore, hp⟩
    obtain ⟨before', rest, rfl, rfl, hrest⟩ := List.map_eq_append_iff.mp heq
    obtain ⟨option, after', rfl, rfl, rfl⟩ := List.map_eq_cons_iff.mp hrest
    exact ⟨before', option, after', rfl,
      fun earlier he => hbefore _ (List.mem_map.mpr ⟨earlier, he, rfl⟩), hp⟩
  · rintro ⟨before, option, after, rfl, hbefore, hoption⟩
    refine ⟨before.map parser, option.parser, after.map parser, by simp, ?_, hoption⟩
    intro q hq
    obtain ⟨earlier, he, rfl⟩ := List.mem_map.mp hq
    exact hbefore earlier he

/-- The option whose literal is alike a tag; of several the first. -/
def chosenOption (key : String) (options : List Node) (tag : Value) : Option Node :=
  options.find? fun option => (option.discriminator? key).any fun literal => literal.alike tag

theorem parses_discriminated_iff {key : String} {options : List Node} :
    Parses ctx (.discriminated key options) value result ↔ ∃ input tag option,
      value = some (.object input) ∧ (Value.object input).kind = .object ∧
      Entries.get? input key = some tag ∧ chosenOption key options tag = some option ∧
      Parses ctx option value result := by
  have huniform : ∀ o ∈ options.map fun option => (option.discriminator? key, option.parser),
      o.2.Uniform := by
    intro o ho
    obtain ⟨option, -, rfl⟩ := List.mem_map.mp ho
    exact option.parser_isUniform
  unfold Parses
  rw [parser, Parser.Yields, Parser.discriminated_eq_ok_iff huniform]
  simp only [List.find?_map, Option.map_eq_some_iff, chosenOption, Function.comp_def]
  constructor
  · rintro ⟨input, tag, chosen, hv, hkind, htag, ⟨option, hoption, rfl⟩, hr⟩
    exact ⟨input, tag, option, hv, hkind, htag, hoption, hr⟩
  · rintro ⟨input, tag, option, hv, hkind, htag, hoption, hr⟩
    exact ⟨input, tag, _, hv, hkind, htag, ⟨option, hoption, rfl⟩, hr⟩

/-! ## Intersections -/

theorem parses_intersection_iff {left right : Node} :
    Parses ctx (.intersection left right) value result ↔
      ∃ merged, Merges left right merged ∧ Parses ctx merged value result := by
  constructor
  · intro h
    unfold Parses Parser.Yields at h
    cases hm : left.intersect right .root with
    | error e => rw [parser_intersection_of_error hm] at h; cases h
    | ok merged =>
      rw [parser_intersection_of_ok hm] at h
      exact ⟨merged, intersect_eq_ok_iff.mp hm, h⟩
  · rintro ⟨merged, hm, h⟩
    unfold Parses Parser.Yields
    rw [parser_intersection_of_ok (intersect_eq_ok_iff.mpr hm)]
    exact h

/-! ## Documents -/

theorem parseDocument_eq_ok_iff {schema : Node} {document parsed : Value} :
    schema.parseDocument document ctx = .ok parsed ↔
      Parses ctx schema (some document) (some parsed) := by
  unfold parseDocument
  rw [Outcome.bind_eq_ok]
  constructor
  · rintro ⟨r, hr, heq⟩
    cases r with
    | none => cases heq
    | some w => cases heq; exact hr
  · intro h
    exact ⟨some parsed, h, rfl⟩

end Node

end DocSchema

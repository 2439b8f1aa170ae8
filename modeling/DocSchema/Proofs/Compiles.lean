-- SUMMARY: What the rules of each kind of node accept, in terms of the rules of the nodes below it.
import DocSchema.Proofs.PatternCache
import DocSchema.Proofs.PlainRules
import DocSchema.Proofs.Tree
import Mathlib.Data.List.Forall2

/-!
# What compiled rules accept

`Compiles n r` says that a node compiles to rules at some place, and `r.Accepts v`
that rules accept a value when patterns are read from their texts. Each kind of
node has a theorem that takes its rules apart: the rules of the nodes below it,
and which values the whole accepts in terms of those. Later proofs use these
theorems and never open the rules.
-/

namespace DocSchema

open Validator

/-- The rules accept the value. -/
def Rules.Accepts (r : Rules) (v : Value) : Prop := Fits readAndMatch r v

theorem Rules.accepts_iff {r : Rules} {v : Value} :
    r.Accepts v ↔ Admits readAndMatch (.object r) v :=
  admits_object_iff.symm

namespace Node

/-- The node compiles to the rules. -/
def Compiles (n : Node) (r : Rules) : Prop := ∃ location, n.rules location = .ok r

variable {r : Rules}

/-! ## Leaves -/

/-- Rules with a single kind and no values or alternatives. -/
theorem shape_of_kind {keys : List String} {name : String}
    (hkind : Entries.get? r "bsonType" = some (.string name)) (hagree : AgreeOff keys r [])
    (hkeys : ∀ key ∈ ["enum", "anyOf", "oneOf"], key ∉ keys) : Shape r :=
  ⟨by rw [hkind]; exact .single name, fun _ key hkey => hagree key (hkeys key hkey)⟩

theorem accepts_ofKind_iff (name : String) :
    Shape (Rules.ofKind name) ∧ ∀ v, (Rules.ofKind name).Accepts v ↔ v.isOfKind name = true := by
  have hagree : AgreeOff ["bsonType"] (Rules.ofKind name) [] := AgreeOff.ofKind (by decide) name
  refine ⟨shape_of_kind rfl hagree (by decide), fun v => ?_⟩
  unfold Rules.Accepts
  rw [fits_kind_iff hagree, kindFits_of_get? rfl]
  rfl

/-- Nodes that compile to the name of a kind accept the values of that kind. -/
theorem Compiles.of_kind {n : Node} {kind : Kind}
    (hrules : ∀ location, n.rules location = .ok (Rules.ofKind kind.name))
    (hkind : kind.name ≠ "number") (h : Compiles n r) :
    Shape r ∧ ∀ v, r.Accepts v ↔ v.kind = kind := by
  obtain ⟨location, h⟩ := h
  rw [hrules] at h
  cases h
  obtain ⟨hshape, haccepts⟩ := accepts_ofKind_iff _
  exact ⟨hshape, fun v => (haccepts v).trans (isOfKind_name v kind hkind)⟩

theorem Compiles.boolean (h : Compiles .boolean r) :
    Shape r ∧ ∀ v, r.Accepts v ↔ v.kind = .bool :=
  h.of_kind (fun location => by rw [rules]; rfl) (by decide)

theorem Compiles.date (h : Compiles .date r) :
    Shape r ∧ ∀ v, r.Accepts v ↔ v.kind = .date :=
  h.of_kind (fun location => by rw [rules]; rfl) (by decide)

theorem Compiles.null (h : Compiles .null r) :
    Shape r ∧ ∀ v, r.Accepts v ↔ v.kind = .null :=
  h.of_kind (fun location => by rw [rules]; rfl) (by decide)

theorem Compiles.any (h : Compiles .any r) : Shape r ∧ ∀ v, r.Accepts v := by
  obtain ⟨location, h⟩ := h
  rw [rules] at h
  cases h
  exact ⟨⟨.absent, fun hne => (hne rfl).elim⟩, fits_nil _⟩

theorem Compiles.string {checks : List StringCheck} {allowEmpty : Bool}
    (h : Compiles (.string checks allowEmpty) r) :
    Shape r ∧ ∀ v, r.Accepts v ↔
      ∃ text, v = .string text ∧ StringCheck.allHold checks text = true := by
  obtain ⟨location, h⟩ := h
  rw [rules] at h
  obtain ⟨hshape, haccepts⟩ := accepts_ofKind_iff "string"
  obtain ⟨hagree, hfits⟩ := addStringChecks_iff h
  refine ⟨hshape.of_agree hagree (by decide), fun v => ?_⟩
  unfold Rules.Accepts at haccepts ⊢
  rw [fits_of_string_change hagree hfits v, haccepts, isOfKind_string]
  constructor
  · rintro ⟨⟨text, rfl⟩, hall⟩; exact ⟨text, rfl, hall text rfl⟩
  · rintro ⟨text, rfl, hall⟩; exact ⟨⟨text, rfl⟩, fun text' heq => by cases heq; exact hall⟩

theorem numberKind_iff (checks : List NumberCheck) :
    Shape (RulesAt.numberKind checks) ∧ ∀ v, (RulesAt.numberKind checks).Accepts v ↔
      (∃ n, v = .number n) ∧
        (.integer ∈ checks → ∀ n, v = .number n → n.toInt64?.isSome = true) := by
  unfold RulesAt.numberKind
  by_cases hmem : NumberCheck.integer ∈ checks
  · rw [if_pos (by simpa using hmem)]
    have hagree : AgreeOff ["bsonType"]
        ([("bsonType", .array [.string "int", .string "long"])] : Entries Value) [] :=
      AgreeOff.cons .refl (by simp)
    refine ⟨⟨.integer, fun _ key hkey => hagree key ?_⟩, fun v => ?_⟩
    · revert hkey
      revert key
      decide
    · unfold Rules.Accepts
      rw [fits_kind_iff hagree, kindFits_of_get? rfl, kindMatches_two,
        isOfKind_integer, isInteger_iff]
      simp [hmem]
  · rw [if_neg (by simpa using hmem)]
    obtain ⟨hshape, haccepts⟩ := accepts_ofKind_iff "number"
    refine ⟨hshape, fun v => ?_⟩
    rw [haccepts, isOfKind_number]
    simp [hmem]

theorem Compiles.number {checks : List NumberCheck} (h : Compiles (.number checks) r) :
    Shape r ∧ ∀ v, r.Accepts v ↔
      ∃ n, v = .number n ∧ NumberCheck.allHold checks n = true := by
  obtain ⟨location, h⟩ := h
  rw [rules] at h
  obtain ⟨hshape, haccepts⟩ := numberKind_iff checks
  obtain ⟨hshape', hfits⟩ := addNumberChecks_iff readAndMatch hshape h
  refine ⟨hshape', fun v => ?_⟩
  unfold Rules.Accepts at haccepts ⊢
  rw [hfits v, haccepts]
  constructor
  · rintro ⟨⟨⟨n, rfl⟩, -⟩, hall⟩; exact ⟨n, rfl, hall n rfl⟩
  · rintro ⟨n, rfl, hall⟩
    refine ⟨⟨⟨n, rfl⟩, fun hmem n' heq => ?_⟩, fun n' heq => by cases heq; exact hall⟩
    cases heq
    exact List.all_eq_true.mp hall _ hmem

theorem accepts_values_iff (values : List Value) :
    Shape [("enum", .array values)] ∧
      ∀ v, Rules.Accepts [("enum", .array values)] v ↔ ∃ a ∈ values, a.alike v = true := by
  have hagree : AgreeOff ["enum"] ([("enum", .array values)] : Entries Value) [] :=
    AgreeOff.cons .refl (by simp)
  refine ⟨⟨.absent, fun hne => (hne rfl).elim⟩, fun v => ?_⟩
  unfold Rules.Accepts
  rw [fits_enum_iff hagree]
  constructor
  · intro h; exact h values rfl
  · intro h allowed hallowed; cases hallowed; exact h

theorem string_alike_iff (text : String) (v : Value) :
    (Value.string text).alike v = true ↔ v = .string text := by
  cases v <;> simp [Value.alike, BEq.beq, Value.beq, eq_comm]

theorem Compiles.enum {values : List String} (h : Compiles (.enum values) r) :
    Shape r ∧ ∀ v, r.Accepts v ↔ ∃ text, v = .string text ∧ text ∈ values := by
  obtain ⟨location, h⟩ := h
  rw [rules, RulesAt.enum] at h
  split at h
  · cases h
  · cases h
    obtain ⟨hshape, haccepts⟩ := accepts_values_iff (values.map .string)
    refine ⟨hshape, fun v => (haccepts v).trans ?_⟩
    constructor
    · rintro ⟨a, ha, halike⟩
      obtain ⟨text, htext, rfl⟩ := List.mem_map.mp ha
      exact ⟨text, (string_alike_iff text v).mp halike, htext⟩
    · rintro ⟨text, rfl, htext⟩
      exact ⟨_, List.mem_map.mpr ⟨text, htext, rfl⟩, (string_alike_iff text _).mpr rfl⟩

theorem Compiles.literal {expected : Value} (h : Compiles (.literal expected) r) :
    expected.isScalar = true ∧ Shape r ∧ ∀ v, r.Accepts v ↔ expected.alike v = true := by
  obtain ⟨location, h⟩ := h
  rw [rules, RulesAt.literal] at h
  split at h
  · next hscalar =>
    cases h
    obtain ⟨hshape, haccepts⟩ := accepts_values_iff [expected]
    exact ⟨hscalar, hshape, fun v => (haccepts v).trans (by simp)⟩
  · cases h

theorem not_compiles_never : ¬ Compiles .never r := by
  rintro ⟨location, h⟩
  rw [rules] at h
  cases h

/-! ## Arrays and tuples -/

theorem Compiles.array {item : Node} (h : Compiles (.array item) r) :
    ∃ s, Compiles item s ∧ Shape r ∧ ∀ v, r.Accepts v ↔
      ∃ items, v = .array items ∧ ∀ w ∈ items, s.Accepts w := by
  obtain ⟨location, h⟩ := h
  rw [rules] at h
  simp only [RulesAt.array, Outcome.bind_eq_ok, Except.ok.injEq] at h
  obtain ⟨s, hs, rfl⟩ := h
  have hagree : AgreeOff ["bsonType", "items"]
      (Entries.insert (Rules.ofKind "array") "items" (.object s)) [] :=
    (AgreeOff.insert (by decide) _).trans (AgreeOff.ofKind (by decide) _)
  have hkind : Entries.get? (Entries.insert (Rules.ofKind "array") "items" (.object s)) "bsonType" =
      some (.string "array") := by
    rw [Entries.get?_insert_of_ne (by decide)]
    rfl
  refine ⟨s, ⟨_, hs⟩, shape_of_kind hkind hagree (by decide), fun v => ?_⟩
  unfold Rules.Accepts
  rw [fits_content_iff hagree (by decide), kindFits_of_get? hkind, kindMatches,
    isOfKind_array]
  have hitems (items : List Value) :
      ContentFits readAndMatch (Entries.insert (Rules.ofKind "array") "items" (.object s))
        (.array items) ↔ ∀ w ∈ items, Fits readAndMatch s w := by
    have hmin := hagree "minItems" (by decide)
    have hmax := hagree "maxItems" (by decide)
    have helements : ElementsFit readAndMatch
        (Entries.insert (Rules.ofKind "array") "items" (.object s)) items ↔
        ∀ w ∈ items, Fits readAndMatch s w := by
      unfold ElementsFit
      rw [Entries.get?_insert_self]
      simp only [admits_object_iff]
    constructor
    · intro hfits; exact helements.mp hfits.elements
    · intro hall
      refine ⟨?_, ?_, helements.mpr hall⟩
      · rw [hmin]; intro least h; cases h
      · rw [hmax]; intro most h; cases h
  constructor
  · rintro ⟨⟨items, rfl⟩, hcontent⟩; exact ⟨items, rfl, (hitems items).mp hcontent⟩
  · rintro ⟨items, rfl, hall⟩; exact ⟨⟨items, rfl⟩, (hitems items).mpr hall⟩

theorem positions_eq_ok {items : List Node} {i : Nat} {location : Location} {out : List Value}
    (h : RulesAt.positions (items.map rules) i location = .ok out) :
    ∃ parts, List.Forall₂ Compiles items parts ∧ out = parts.map .object := by
  induction items generalizing i out with
  | nil =>
    cases h
    exact ⟨[], .nil, rfl⟩
  | cons item items ih =>
    simp only [List.map_cons, RulesAt.positions, Outcome.bind_eq_ok, Except.ok.injEq] at h
    obtain ⟨s, hs, rest, hrest, rfl⟩ := h
    obtain ⟨parts, hparts, rfl⟩ := ih hrest
    exact ⟨s :: parts, .cons ⟨_, hs⟩ hparts, rfl⟩

theorem Compiles.tuple {items : List Node} (h : Compiles (.tuple items) r) :
    ∃ parts, List.Forall₂ Compiles items parts ∧ Shape r ∧ ∀ v, r.Accepts v ↔
      ∃ vs, v = .array vs ∧ vs.length = items.length ∧ ∀ e ∈ parts.zip vs, e.1.Accepts e.2 := by
  obtain ⟨location, h⟩ := h
  rw [rules, RulesAt.tuple] at h
  split at h
  · cases h
  simp only [Outcome.bind_eq_ok, Except.ok.injEq, List.length_map] at h
  obtain ⟨out, hout, hr⟩ := h
  obtain ⟨parts, hparts, rfl⟩ := positions_eq_ok hout
  have hget (key : String) : Entries.get? r key = Entries.get? [("bsonType", .string "array"),
      ("items", .array (parts.map .object)), ("minItems", .int items.length),
      ("maxItems", .int items.length)] key := by
    rw [← hr, Entries.get?_ofList_of_nodup]
    simp [Entries.keys]
  have hagree : AgreeOff ("bsonType" :: arrayKeywords) r [] := by
    rw [← hr]
    exact AgreeOff.ofList (by simp [arrayKeywords])
  have hkind : Entries.get? r "bsonType" = some (.string "array") := hget _
  have hlength (vs : List Value) : ContentFits readAndMatch r (.array vs) ↔
      vs.length = items.length ∧ ∀ e ∈ parts.zip vs, Fits readAndMatch e.1 e.2 := by
    have hmin : Entries.get? r "minItems" = some (.int items.length) := hget _
    have hmax : Entries.get? r "maxItems" = some (.int items.length) := hget _
    have hitems : Entries.get? r "items" = some (.array (parts.map .object)) := hget _
    have helements : ElementsFit readAndMatch r vs ↔
        ∀ e ∈ parts.zip vs, Fits readAndMatch e.1 e.2 := by
      unfold ElementsFit
      rw [hitems]
      simp only [List.zip_map_left, List.forall_mem_map, Prod.map, id_eq, admits_object_iff]
    constructor
    · intro hfits
      have h1 := hfits.minItems items.length (by rw [hmin]; rfl)
      have h2 := hfits.maxItems items.length (by rw [hmax]; rfl)
      exact ⟨by omega, helements.mp hfits.elements⟩
    · rintro ⟨heq, hall⟩
      refine ⟨?_, ?_, helements.mpr hall⟩
      · rw [hmin]
        intro least hleast
        cases hleast
        omega
      · rw [hmax]
        intro most hmost
        cases hmost
        omega
  refine ⟨parts, hparts, shape_of_kind hkind hagree (by decide), fun v => ?_⟩
  unfold Rules.Accepts
  rw [fits_content_iff hagree (by decide), kindFits_of_get? hkind, kindMatches, isOfKind_array]
  constructor
  · rintro ⟨⟨vs, rfl⟩, hcontent⟩; exact ⟨vs, rfl, (hlength vs).mp hcontent⟩
  · rintro ⟨vs, rfl, hall⟩; exact ⟨⟨vs, rfl⟩, (hlength vs).mpr hall⟩

/-! ## Unions -/

theorem all_eq_ok {options : List Node} {location : Location} {out : List Value}
    (h : RulesAt.all (options.map rules) location = .ok out) :
    ∃ parts, List.Forall₂ Compiles options parts ∧ out = parts.map .object := by
  induction options generalizing out with
  | nil =>
    cases h
    exact ⟨[], .nil, rfl⟩
  | cons option options ih =>
    simp only [List.map_cons, RulesAt.all, Outcome.bind_eq_ok, Except.ok.injEq] at h
    obtain ⟨s, hs, rest, hrest, rfl⟩ := h
    obtain ⟨parts, hparts, rfl⟩ := ih hrest
    exact ⟨s :: parts, .cons ⟨_, hs⟩ hparts, rfl⟩

theorem Compiles.union {options : List Node} (h : Compiles (.union options) r) :
    ∃ parts, List.Forall₂ Compiles options parts ∧ Shape r ∧ ∀ v, r.Accepts v ↔
      ∃ s ∈ parts, s.Accepts v := by
  obtain ⟨location, h⟩ := h
  rw [rules, RulesAt.union] at h
  split at h
  · cases h
  simp only [Outcome.bind_eq_ok, Except.ok.injEq] at h
  obtain ⟨out, hout, rfl⟩ := h
  obtain ⟨parts, hparts, rfl⟩ := all_eq_ok hout
  refine ⟨parts, hparts, ⟨.absent, fun hne => (hne rfl).elim⟩, fun v => ?_⟩
  have hoptions : alternatives? [("anyOf", .array (parts.map .object))] "anyOf" =
      some (parts.map .object) := rfl
  unfold Rules.Accepts
  rw [fits_anyOf_iff (AgreeOff.cons .refl (by simp)), AnyOfFits, hoptions]
  simp only [Option.some.injEq, forall_eq']
  constructor
  · rintro ⟨o, ho, hadmits⟩
    obtain ⟨s, hs, rfl⟩ := List.mem_map.mp ho
    exact ⟨s, hs, admits_object_iff.mp hadmits⟩
  · rintro ⟨s, hs, hfits⟩
    exact ⟨_, List.mem_map.mpr ⟨s, hs, rfl⟩, admits_object_iff.mpr hfits⟩

/-- The literals of two options differ, by class or by content. -/
def LiteralsDiffer (key : String) (option other : Node) : Prop :=
  ∀ a, option.discriminator? key = some a → ∀ b, other.discriminator? key = some b → (b == a) = false

theorem discriminatedOptions_eq_ok {key : String} {options : List Node} {location : Location}
    {i : Nat} {seen out : List Value}
    (h : RulesAt.discriminatedOptions key location (options.map fun option =>
      ⟨option.kindName, option.isObject, option.discriminator? key, option.rules⟩) i seen =
        .ok out) :
    (∀ option ∈ options, ∃ literal, option.discriminator? key = some literal ∧
        seen.contains literal = false) ∧
      options.Pairwise (LiteralsDiffer key) ∧
      ∃ parts, List.Forall₂ Compiles options parts ∧ out = parts.map .object := by
  induction options generalizing i seen out with
  | nil =>
    cases h
    exact ⟨by simp, .nil, [], .nil, rfl⟩
  | cons option options ih =>
    simp only [List.map_cons, RulesAt.discriminatedOptions] at h
    split at h
    · cases h
    split at h
    · cases h
    next literal hliteral =>
    split at h
    · cases h
    next hseen =>
    simp only [Outcome.bind_eq_ok, Except.ok.injEq] at h
    obtain ⟨s, hs, rest, hrest, rfl⟩ := h
    obtain ⟨hall, hdiffer, parts, hparts, rfl⟩ := ih hrest
    -- The literals that follow are new even after this one has been seen.
    have hnew : ∀ other ∈ options, ∃ l, other.discriminator? key = some l ∧
        (l == literal) = false ∧ seen.contains l = false := by
      simpa only [List.contains_cons, Bool.or_eq_false_iff] using hall
    refine ⟨List.forall_mem_cons.mpr ⟨⟨literal, hliteral, Bool.eq_false_iff.mpr hseen⟩, ?_⟩,
      .cons ?_ hdiffer, s :: parts, .cons ⟨_, hs⟩ hparts, rfl⟩
    · intro other hother
      obtain ⟨l, hl, -, hlseen⟩ := hnew other hother
      exact ⟨l, hl, hlseen⟩
    · intro other hother a ha b hb
      obtain ⟨l, hl, hne, -⟩ := hnew other hother
      cases hliteral.symm.trans ha
      cases hl.symm.trans hb
      exact hne

theorem Compiles.discriminated_parts {key : String} {options : List Node}
    (h : Compiles (.discriminated key options) r) :
    (∀ option ∈ options, (option.discriminator? key).isSome = true) ∧
      options.Pairwise (LiteralsDiffer key) ∧
      ∃ parts, List.Forall₂ Compiles options parts ∧
        r = [("oneOf", .array (parts.map .object))] := by
  obtain ⟨location, h⟩ := h
  rw [rules, RulesAt.discriminated] at h
  split at h
  · cases h
  simp only [Outcome.bind_eq_ok, Except.ok.injEq] at h
  obtain ⟨out, hout, rfl⟩ := h
  obtain ⟨hall, hdiffer, parts, hparts, rfl⟩ := discriminatedOptions_eq_ok hout
  refine ⟨fun option hoption => ?_, hdiffer, parts, hparts, rfl⟩
  obtain ⟨literal, hliteral, -⟩ := hall option hoption
  exact Option.isSome_iff_exists.mpr ⟨literal, hliteral⟩

theorem accepts_oneOf_iff {parts : List Rules} {v : Value} :
    Rules.Accepts [("oneOf", .array (parts.map .object))] v ↔
      ExactlyOne (fun s : Rules => s.Accepts v) parts := by
  have hoptions : alternatives? [("oneOf", .array (parts.map .object))] "oneOf" =
      some (parts.map .object) := rfl
  unfold Rules.Accepts
  rw [fits_oneOf_iff (AgreeOff.cons .refl (by simp)), OneOfFits, hoptions]
  simp only [Option.some.injEq, forall_eq', exactlyOne_map, admits_object_iff]

theorem Compiles.discriminated {key : String} {options : List Node}
    (h : Compiles (.discriminated key options) r) :
    (∀ option ∈ options, (option.discriminator? key).isSome = true) ∧
      ∃ parts, List.Forall₂ Compiles options parts ∧ Shape r ∧ ∀ v, r.Accepts v ↔
        ExactlyOne (fun s : Rules => s.Accepts v) parts := by
  obtain ⟨hall, -, parts, hparts, rfl⟩ := h.discriminated_parts
  exact ⟨hall, parts, hparts, ⟨.absent, fun hne => (hne rfl).elim⟩, fun v => accepts_oneOf_iff⟩

/-! ## Wrappers -/

theorem Compiles.optional {inner : Node} (h : Compiles (.optional inner) r) : Compiles inner r := by
  obtain ⟨location, h⟩ := h
  rw [rules] at h
  exact ⟨location, h⟩

theorem Compiles.withDefault {inner : Node} {default : Default}
    (h : Compiles (.withDefault inner default) r) : Compiles inner r := by
  obtain ⟨location, h⟩ := h
  rw [rules] at h
  exact ⟨location, h⟩

theorem Compiles.nullable {inner : Node} (h : Compiles (.nullable inner) r) :
    ∃ s, Compiles inner s ∧ r = Rules.admitNull s := by
  obtain ⟨location, h⟩ := h
  rw [rules] at h
  simp only [Outcome.bind_eq_ok, Except.ok.injEq] at h
  obtain ⟨s, hs, rfl⟩ := h
  exact ⟨s, ⟨location, hs⟩, rfl⟩

theorem Compiles.transform {inner : Node} {facet : Option Facet} {apply : Transform}
    (h : Compiles (.transform inner facet apply) r) :
    ∃ s location, Compiles inner s ∧ Rules.addFacet s facet location = .ok r := by
  obtain ⟨location, h⟩ := h
  rw [rules] at h
  simp only [Outcome.bind_eq_ok] at h
  obtain ⟨s, hs, hfacet⟩ := h
  exact ⟨s, location, ⟨location, hs⟩, hfacet⟩

theorem Compiles.intersection {left right : Node} (h : Compiles (.intersection left right) r) :
    ∃ merged, Merges left right merged ∧ Compiles merged r := by
  obtain ⟨location, h⟩ := h
  cases hm : left.intersect right location with
  | error e => rw [rules_intersection_of_error hm] at h; cases h
  | ok merged =>
    rw [rules_intersection_of_ok hm] at h
    exact ⟨merged, intersect_eq_ok_iff.mp hm, location, h⟩

/-! ## Objects and records -/

theorem Compiles.record {n : Node} (h : Compiles (.record n) r) :
    ∃ s, Compiles n s ∧ Shape r ∧ ∀ v, r.Accepts v ↔ ∃ fields, v = .object fields ∧
      (Value.object fields).kind = .object ∧ ∀ e ∈ fields, s.Accepts e.2 := by
  obtain ⟨location, h⟩ := h
  rw [rules] at h
  simp only [RulesAt.record, Outcome.bind_eq_ok, Except.ok.injEq] at h
  obtain ⟨s, hs, hr⟩ := h
  have hagree : AgreeOff ["bsonType", "additionalProperties"] r [] := by
    rw [← hr]
    exact (AgreeOff.insert (by decide) _).trans (AgreeOff.ofKind (by decide) _)
  have hkind : Entries.get? r "bsonType" = some (.string "object") := by
    rw [← hr, Entries.get?_insert_of_ne (by decide)]
    rfl
  have hothers : Entries.get? r "additionalProperties" = some (.object s) := by
    rw [← hr, Entries.get?_insert_self]
  have hentries (fields : Entries Value) :
      EntriesFit readAndMatch r fields ↔ ∀ e ∈ fields, Fits readAndMatch s e.2 := by
    have hrequired := hagree "required" (by decide)
    have hproperties := hagree "properties" (by decide)
    have hentry (name : String) (v : Value) :
        EntryFits readAndMatch r name v ↔ Fits readAndMatch s v := by
      simp only [EntryFits, entryRule, declaredProperties, hproperties, Entries.get?_nil, hothers,
        admits_object_iff]
    constructor
    · intro hfits e he; exact (hentry _ _).mp (hfits.entries e he)
    · intro hall
      refine ⟨?_, fun e he => (hentry _ _).mpr (hall e he)⟩
      rw [hrequired]
      intro names h
      cases h
  refine ⟨s, ⟨_, hs⟩, shape_of_kind hkind hagree (by decide), fun v => ?_⟩
  unfold Rules.Accepts
  rw [fits_content_iff hagree (by decide), kindFits_of_get? hkind, kindMatches, isOfKind_object]
  constructor
  · rintro ⟨hobject, hcontent⟩
    obtain ⟨fields, rfl⟩ := eq_object_of_kind hobject
    exact ⟨fields, rfl, hobject, (hentries fields).mp (hcontent hobject)⟩
  · rintro ⟨fields, rfl, hobject, hall⟩
    exact ⟨hobject, fun _ => (hentries fields).mpr hall⟩

/-- The declared fields of an object and the rules they compile to. -/
def CompilesFields (fields : List (String × Node)) (parts : List (String × Rules)) : Prop :=
  List.Forall₂ (fun f p => f.1 = p.1 ∧ Compiles f.2 p.2) fields parts

theorem properties_eq_ok {fields : List (String × Node)} {done out : Entries Value}
    {location : Location}
    (h : RulesAt.properties (fields.map fun f => ⟨f.1, !f.2.acceptsAbsent, f.2.rules⟩) done
      location = .ok out) :
    ∃ parts, CompilesFields fields parts ∧
      out = Entries.insertAll done (parts.map fun p => (p.1, .object p.2)) := by
  induction fields generalizing done with
  | nil =>
    cases h
    exact ⟨[], .nil, rfl⟩
  | cons f fields ih =>
    simp only [List.map_cons, RulesAt.properties, Outcome.bind_eq_ok] at h
    obtain ⟨s, hs, hrest⟩ := h
    obtain ⟨parts, hparts, rfl⟩ := ih hrest
    exact ⟨(f.1, s) :: parts, .cons ⟨rfl, _, hs⟩ hparts, rfl⟩

/-- The schema of undeclared entries, or the flag that refuses them. -/
def othersRule (others : Option Rules) : Value :=
  match others with
  | some s => .object s
  | none => .bool false

/-- What the rules of undeclared entries have to do with the catchall. -/
def CompilesCatchall (catchall : Option Node) (others : Option Rules) : Prop :=
  match catchall, others with
  | some rest, some s => Compiles rest s
  | none, none => True
  | _, _ => False

theorem Compiles.object_parts {fields : List (String × Node)} {catchall : Option Node}
    (h : Compiles (.object fields catchall) r) :
    ∃ parts others, CompilesFields fields parts ∧ CompilesCatchall catchall others ∧
      r = Entries.ofList ([("bsonType", .string "object"),
        ("properties", .object (Entries.ofList (parts.map fun p => (p.1, .object p.2))))] ++
        (if (fields.filter fun f => !f.2.acceptsAbsent).isEmpty then []
          else [("required", .array ((fields.filter fun f => !f.2.acceptsAbsent).map
            fun f => .string f.1))]) ++
        [("additionalProperties", othersRule others)]) := by
  obtain ⟨location, h⟩ := h
  rw [rules_object] at h
  simp only [RulesAt.object, Outcome.bind_eq_ok] at h
  obtain ⟨out, hout, hrest⟩ := h
  obtain ⟨parts, hparts, rfl⟩ := properties_eq_ok hout
  have hnames : RulesAt.requiredNames
      (fields.map fun f => ⟨f.1, !f.2.acceptsAbsent, f.2.rules⟩) =
      (fields.filter fun f => !f.2.acceptsAbsent).map fun f => .string f.1 := by
    simp only [RulesAt.requiredNames, List.filter_map, List.map_map]
    rfl
  rw [hnames, List.isEmpty_map] at hrest
  cases catchall with
  | none => exact ⟨parts, none, hparts, trivial, (Except.ok.inj hrest).symm⟩
  | some rest =>
    simp only [Option.map_some, Outcome.bind_eq_ok, Outcome.map_eq_ok] at hrest
    obtain ⟨_, ⟨s, hs, rfl⟩, hr⟩ := hrest
    exact ⟨parts, some s, hparts, ⟨_, hs⟩, (Except.ok.inj hr).symm⟩

/-- An entry of an object by the rules of its own field or of undeclared entries. -/
def EntryAccepted (parts : List (String × Rules)) (others : Option Rules) (e : String × Value) :
    Prop :=
  match Entries.get? parts e.1 with
  | some s => s.Accepts e.2
  | none => ∃ s, others = some s ∧ s.Accepts e.2

/-- The keywords of the rules of an object. -/
structure ObjectRules (r : Rules) (required : List String) (parts : List (String × Rules))
    (others : Option Rules) : Prop where
  kind : Entries.get? r "bsonType" = some (.string "object")
  properties : Entries.get? r "properties" =
    some (.object (Entries.ofList (parts.map fun p => (p.1, .object p.2))))
  required : Entries.get? r "required" =
    if required.isEmpty then none else some (.array (required.map .string))
  others : Entries.get? r "additionalProperties" = some (othersRule others)
  agree : AgreeOff ("bsonType" :: objectKeywords) r []

theorem objectRules (required : List String) (parts : List (String × Rules))
    (others : Option Rules) :
    ObjectRules (Entries.ofList ([("bsonType", .string "object"),
      ("properties", .object (Entries.ofList (parts.map fun p => (p.1, .object p.2))))] ++
      (if required.isEmpty then [] else [("required", .array (required.map .string))]) ++
      [("additionalProperties", othersRule others)])) required parts others := by
  refine ⟨?_, ?_, ?_, ?_, AgreeOff.ofList ?_⟩
  · rw [Entries.get?_ofList]; split <;> rfl
  · rw [Entries.get?_ofList]; split <;> rfl
  · rw [Entries.get?_ofList]; split <;> rfl
  · rw [Entries.get?_ofList]; split <;> rfl
  · intro e he
    simp only [List.mem_append, List.mem_cons, List.not_mem_nil, or_false] at he
    rcases he with ((rfl | rfl) | he) | rfl
    · exact List.mem_cons_self
    · simp [objectKeywords]
    · split at he
      · cases he
      · cases List.mem_singleton.mp he
        simp [objectKeywords]
    · simp [objectKeywords]

theorem ObjectRules.shape {required : List String} {parts : List (String × Rules)}
    {others : Option Rules} (h : ObjectRules r required parts others) : Shape r :=
  shape_of_kind h.kind h.agree (by decide)

/-- Of several declarations of a name the last one counts. -/
theorem ObjectRules.entriesFit_iff {required : List String} {parts : List (String × Rules)}
    {others : Option Rules} (h : ObjectRules r required parts others) (fields : Entries Value) :
    EntriesFit readAndMatch r fields ↔
      (∀ name ∈ required, name ∈ Entries.keys fields) ∧
        ∀ e ∈ fields, EntryAccepted parts.reverse others e := by
  have hrequired : (∀ names, Entries.get? r "required" = some (.array names) →
      ∀ name ∈ names.filterMap Value.string?, Entries.contains fields name = true) ↔
      ∀ name ∈ required, name ∈ Entries.keys fields := by
    have hnames : (required.map Value.string).filterMap Value.string? = required := by
      rw [List.filterMap_map]
      exact List.filterMap_some
    rw [h.required]
    simp only [Entries.contains_iff]
    constructor
    · intro hall name hname
      refine hall _ ?_ name (by rwa [hnames])
      cases required with
      | nil => cases hname
      | cons first rest => rfl
    · intro hall names heq name hname
      split at heq
      · cases heq
      · cases heq
        exact hall name (by rwa [hnames] at hname)
  have hentry (e : String × Value) :
      EntryFits readAndMatch r e.1 e.2 ↔ EntryAccepted parts.reverse others e := by
    have hdeclared : Entries.get? (declaredProperties r) e.1 =
        (Entries.get? parts.reverse e.1).map .object := by
      unfold declaredProperties
      rw [h.properties]
      dsimp only
      rw [Entries.get?_ofList, ← List.map_reverse, Entries.get?_map]
    unfold EntryFits EntryAccepted entryRule
    rw [hdeclared, h.others]
    cases Entries.get? parts.reverse e.1 with
    | some s => exact admits_object_iff
    | none =>
      cases others with
      | some s => simp [othersRule, Rules.accepts_iff]
      | none => simp [othersRule]
  constructor
  · intro hfits
    exact ⟨hrequired.mp hfits.required, fun e he => (hentry e).mp (hfits.entries e he)⟩
  · rintro ⟨hall, hentries⟩
    exact ⟨hrequired.mpr hall, fun e he => (hentry e).mpr (hentries e he)⟩

theorem CompilesFields.keys_eq {fields : List (String × Node)} {parts : List (String × Rules)}
    (h : CompilesFields fields parts) : Entries.keys parts = Entries.keys fields := by
  induction h with
  | nil => rfl
  | cons hp _ ih =>
    simp only [Entries.keys, List.map_cons] at ih ⊢
    rw [ih, hp.1]

/-- A name is declared by a field and by its rules, or by neither. -/
theorem CompilesFields.lookup {fields : List (String × Node)} {parts : List (String × Rules)}
    (h : CompilesFields fields parts) (name : String) :
    (∃ n s, Entries.get? fields name = some n ∧ Entries.get? parts name = some s ∧ Compiles n s) ∨
      Entries.get? fields name = none ∧ Entries.get? parts name = none := by
  induction h with
  | nil => exact .inr ⟨rfl, rfl⟩
  | @cons f p _ _ hp _ ih =>
    rw [Entries.get?_cons, Entries.get?_cons, ← hp.1]
    by_cases hname : f.1 = name
    · rw [if_pos hname, if_pos hname]
      exact .inl ⟨f.2, p.2, rfl, rfl, hp.2⟩
    · rw [if_neg hname, if_neg hname]
      exact ih

/-- What the rules of an object accept; of several declarations of a name the last
one counts. -/
theorem Compiles.object_last {fields : List (String × Node)} {catchall : Option Node}
    (h : Compiles (.object fields catchall) r) :
    ∃ parts others, CompilesFields fields parts ∧ CompilesCatchall catchall others ∧
      ∀ v, r.Accepts v ↔ ∃ input, v = .object input ∧ (Value.object input).kind = .object ∧
        (∀ f ∈ fields, f.2.acceptsAbsent = false → f.1 ∈ Entries.keys input) ∧
        ∀ e ∈ input, EntryAccepted parts.reverse others e := by
  obtain ⟨parts, others, hparts, hothers, hr⟩ := h.object_parts
  have hrules : ObjectRules r ((fields.filter fun f => !f.2.acceptsAbsent).map Prod.fst) parts
      others := by
    have := objectRules ((fields.filter fun f => !f.2.acceptsAbsent).map Prod.fst) parts others
    rwa [List.isEmpty_map, List.map_map, Function.comp_def, ← hr] at this
  have hrequired (input : Entries Value) :
      (∀ name ∈ (fields.filter fun f => !f.2.acceptsAbsent).map Prod.fst,
        name ∈ Entries.keys input) ↔
      ∀ f ∈ fields, f.2.acceptsAbsent = false → f.1 ∈ Entries.keys input := by
    simp only [List.forall_mem_map, List.mem_filter, Bool.not_eq_true', and_imp]
  refine ⟨parts, others, hparts, hothers, fun v => ?_⟩
  unfold Rules.Accepts
  rw [fits_content_iff hrules.agree (by decide), kindFits_of_get? hrules.kind, kindMatches,
    isOfKind_object]
  constructor
  · rintro ⟨hobject, hcontent⟩
    obtain ⟨input, rfl⟩ := eq_object_of_kind hobject
    obtain ⟨hall, haccepted⟩ := (hrules.entriesFit_iff input).mp (hcontent hobject)
    exact ⟨input, rfl, hobject, (hrequired input).mp hall, haccepted⟩
  · rintro ⟨input, rfl, hobject, hall, haccepted⟩
    exact ⟨hobject,
      fun _ => (hrules.entriesFit_iff input).mpr ⟨(hrequired input).mpr hall, haccepted⟩⟩

theorem Compiles.object {fields : List (String × Node)} {catchall : Option Node}
    (h : Compiles (.object fields catchall) r) (distinct : (Entries.keys fields).Nodup) :
    ∃ parts others, CompilesFields fields parts ∧ CompilesCatchall catchall others ∧
      ∀ v, r.Accepts v ↔ ∃ input, v = .object input ∧ (Value.object input).kind = .object ∧
        (∀ f ∈ fields, f.2.acceptsAbsent = false → f.1 ∈ Entries.keys input) ∧
        ∀ e ∈ input, EntryAccepted parts others e := by
  obtain ⟨parts, others, hparts, hothers, haccepts⟩ := h.object_last
  have hlast (e : String × Value) :
      EntryAccepted parts.reverse others e = EntryAccepted parts others e := by
    unfold EntryAccepted
    rw [Entries.get?_reverse_of_nodup (hparts.keys_eq ▸ distinct)]
  refine ⟨parts, others, hparts, hothers, ?_⟩
  simpa only [hlast] using haccepts

/-! ## Shapes -/

theorem Compiles.shape {n : Node} (h : Compiles n r) : Shape r := by
  induction n using Node.inductionOn generalizing r with
  | object fields catchall =>
    obtain ⟨parts, others, -, -, hr⟩ := h.object_parts
    have := objectRules ((fields.filter fun f => !f.2.acceptsAbsent).map Prod.fst) parts others
    rw [List.isEmpty_map, List.map_map, Function.comp_def, ← hr] at this
    exact this.shape
  | array item =>
    obtain ⟨_, _, hshape, _⟩ := h.array
    exact hshape
  | tuple items =>
    obtain ⟨_, _, hshape, _⟩ := h.tuple
    exact hshape
  | union options =>
    obtain ⟨_, _, hshape, _⟩ := h.union
    exact hshape
  | discriminated key options =>
    obtain ⟨_, _, _, hshape, _⟩ := h.discriminated
    exact hshape
  | intersection left right ih =>
    obtain ⟨merged, hm, hr⟩ := h.intersection
    exact ih merged hm hr
  | record value =>
    obtain ⟨_, _, hshape, _⟩ := h.record
    exact hshape
  | optional inner ih => exact ih h.optional
  | nullable inner ih =>
    obtain ⟨s, hs, rfl⟩ := h.nullable
    exact (admitNull_iff readAndMatch (ih hs)).1
  | withDefault inner default ih => exact ih h.withDefault
  | transform inner facet apply ih =>
    obtain ⟨s, location, hs, hfacet⟩ := h.transform
    exact (addFacet_iff (ih hs) hfacet).1
  | enum values => exact h.enum.1
  | literal v => exact h.literal.2.1
  | string checks allowEmpty => exact h.string.1
  | number checks => exact h.number.1
  | boolean => exact h.boolean.1
  | date => exact h.date.1
  | null => exact h.null.1
  | any => exact h.any.1
  | never => exact (not_compiles_never h).elim

theorem Compiles.accepts_nullable {inner : Node} (h : Compiles (.nullable inner) r) :
    ∃ s, Compiles inner s ∧ ∀ v, r.Accepts v ↔ v = .null ∨ s.Accepts v := by
  obtain ⟨s, hs, rfl⟩ := h.nullable
  exact ⟨s, hs, (admitNull_iff readAndMatch hs.shape).2⟩

theorem Compiles.accepts_transform {inner : Node} {facet : Option Facet} {apply : Transform}
    (h : Compiles (.transform inner facet apply) r) :
    ∃ s, Compiles inner s ∧ ∀ v, r.Accepts v ↔ s.Accepts v ∧ FacetFits facet (some v) := by
  obtain ⟨s, location, hs, hfacet⟩ := h.transform
  exact ⟨s, hs, (addFacet_iff hs.shape hfacet).2⟩

/-! ## Schemas -/

theorem compile_object (fields : List (String × Node)) (catchall : Option Node) :
    (Node.object fields catchall).compile =
      (Node.object fields catchall).rules .root >>= fun r => ofBody (.object r) := rfl

/-- A compiled validator goes by the rules of its schema. -/
theorem compile_eq_ok {schema : Node} {validator : Validator}
    (h : schema.compile = .ok validator) :
    Compiles schema validator.body ∧
      ∀ document, validator.isValid document = true ↔ validator.body.Accepts document := by
  unfold compile at h
  simp only [Outcome.bind_eq_ok] at h
  obtain ⟨merged, hmerged, h⟩ := h
  split at h
  · simp only [Outcome.bind_eq_ok] at h
    obtain ⟨r, hr, h⟩ := h
    obtain ⟨hbody, -⟩ := ofBody_agrees h
    cases hbody
    refine ⟨?_, fun document => ?_⟩
    · unfold mergedRoot at hmerged
      split at hmerged
      · exact ⟨.root, (rules_intersection_of_ok hmerged).trans hr⟩
      · cases hmerged
        exact ⟨.root, hr⟩
    · unfold isValid
      rw [Outcome.isOk_iff]
      simp only [validate_eq_ok_iff h]
      exact exists_const Unit
  · cases h

end Node

end DocSchema

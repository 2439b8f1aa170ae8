-- SUMMARY: What relaxing a field keeps, and what a relaxed array field lets in besides.
import DocSchema.Proofs.Acceptance
import DocSchema.Proofs.Agreement

/-!
# What relaxing lets in

The defaults that relaxing takes off are out of reach of a value that is there, so under
its wrappers a field parses such a value as before. An array field becomes a union that
tries the field first. The other two options only let more values in: single elements,
and objects that append several elements at once.
-/

namespace DocSchema

namespace Node

variable {ctx : Context} {n item : Node} {v : Value}

/-! ## Integers -/

theorem accepts_integer_iff : Accepts ctx .integer (some v) ↔ ∃ i, v.toInt64? = some i := by
  simp only [Accepts, integer, parses_number_iff, NumberCheck.allHold, List.all_cons, List.all_nil,
    Bool.and_true, NumberCheck.holds, Option.isSome_iff_exists]
  constructor
  · rintro ⟨_, number, heq, hinteger, -⟩
    cases heq
    exact hinteger
  · rintro ⟨i, hi⟩
    obtain ⟨number, hnumber, hinteger⟩ := Option.bind_eq_some_iff.mp hi
    cases v with
    | number =>
      cases hnumber
      exact ⟨_, number, rfl, ⟨i, hinteger⟩, rfl⟩
    | _ => cases hnumber

/-- An integer that may be left out. -/
theorem accepts_optional_integer_iff {x : Option Value} :
    Accepts ctx (.optional .integer) x ↔ ∀ w, x = some w → ∃ i, w.toInt64? = some i := by
  cases x with
  | none => exact iff_of_true ⟨none, parses_optional_none.mpr rfl⟩ (by rintro _ ⟨⟩)
  | some w =>
    rw [accepts_optional_some, accepts_integer_iff]
    exact ⟨fun h _ hw => Option.some.inj hw ▸ h, fun h => h w rfl⟩

/-! ## Several elements at once -/

/-- The fields of an object that appends several elements. -/
def appendFields : List String := ["$each", "$position", "$slice"]

/-- The value appends several elements: it has under `$each` an array of values that the
type of the elements parses, and besides at most a position and a slice. -/
def AppendsSeveral (ctx : Context) (item : Node) (v : Value) : Prop :=
  ∃ fields items, v = .object fields ∧ (∀ name ∈ Entries.keys fields, name ∈ appendFields) ∧
    Entries.get? fields "$each" = some (.array items) ∧
    (∀ w ∈ items, ∃ parsed, Parses ctx item (some w) (some parsed)) ∧
    ∀ name ∈ ["$position", "$slice"], ∀ w, Entries.get? fields name = some w →
      ∃ i, w.toInt64? = some i

theorem accepts_elements_iff {x : Option Value} :
    Accepts ctx (.array item) x ↔ ∃ items, x = some (.array items) ∧
      ∀ w ∈ items, ∃ parsed, Parses ctx item (some w) (some parsed) := by
  simp only [Accepts, parses_array_iff, ← exists_forall₂_iff]
  constructor
  · rintro ⟨_, items, parsed, rfl, hparsed, -⟩
    exact ⟨items, rfl, parsed, hparsed⟩
  · rintro ⟨items, rfl, parsed, hparsed⟩
    exact ⟨_, items, parsed, rfl, hparsed, rfl⟩

theorem accepts_eachShape_iff :
    Accepts ctx (eachShape item) (some v) ↔ AppendsSeveral ctx item v := by
  have declared (name : String) :
      lookup [("$each", .array item), ("$position", .optional .integer),
        ("$slice", .optional .integer)] name = none ↔ name ∉ appendFields := by
    rw [lookup, Entries.get?_eq_none_iff]
    rfl
  rw [eachShape, accepts_object_iff]
  simp only [declared, List.forall_mem_cons, accepts_elements_iff, accepts_optional_integer_iff,
    reduceCtorEq, false_and, exists_false, imp_false, not_not]
  constructor
  · rintro ⟨fields, rfl, -, ⟨⟨items, heach, hitems⟩, hposition, hslice, -⟩, hkeys⟩
    refine ⟨fields, items, rfl, fun name hname => ?_, heach, hitems,
      List.forall_mem_cons.mpr ⟨hposition, List.forall_mem_singleton.mpr hslice⟩⟩
    obtain ⟨e, he, rfl⟩ := List.mem_map.mp hname
    exact hkeys e he
  · rintro ⟨fields, items, rfl, hkeys, heach, hitems, hintegers⟩
    obtain ⟨hposition, hintegers⟩ := List.forall_mem_cons.mp hintegers
    have hdate : "$each" ≠ dateKey := by decide
    have hplain : (Value.object fields).kind = .object :=
      Value.kind_of_mem (Entries.mem_of_get? heach) fun _ heq => hdate (Prod.mk.inj heq).1
    exact ⟨fields, rfl, hplain, ⟨⟨items, heach, hitems⟩, hposition,
      List.forall_mem_singleton.mp hintegers, List.forall_mem_nil _⟩,
      fun e he => hkeys e.1 (Entries.mem_keys_of_mem he)⟩

/-! ## Relaxed fields -/

theorem parser_relax_some (hitem : n.arrayItem? = none) (v : Value) (ctx : Context)
    (location : Location) :
    n.relax.parser (some v) ctx location = n.parser (some v) ctx location := by
  rw [relax, hitem]
  exact parser_stripDefaults_some n v ctx location

theorem accepts_relax_iff (hitem : n.arrayItem? = some item) :
    Accepts ctx n.relax (some v) ↔
      Accepts ctx n (some v) ∨ Accepts ctx item (some v) ∨ AppendsSeveral ctx item v := by
  have hstripped : Accepts ctx n.stripDefaults (some v) ↔ Accepts ctx n (some v) := by
    simp only [Accepts, parses_stripDefaults_some]
  rw [relax, hitem]
  refine exists_parses_union_iff.trans ?_
  change (∃ option ∈ _, Accepts ctx option (some v)) ↔ _
  simp only [List.mem_cons, List.not_mem_nil, or_false, exists_eq_or_imp, exists_eq_left,
    hstripped, accepts_eachShape_iff]

/-- A relaxed field gives for a present value what the field gives, and a field that is no
array also its issues. What a relaxed array field accepts besides are the elements, and
the objects that append several of them. -/
theorem relax_conservative_and_exact (n : Node) (ctx : Context) (v : Value) (location : Location) :
    (∀ result, n.parser (some v) ctx location = .ok result →
      n.relax.parser (some v) ctx location = .ok result) ∧
    (n.arrayItem? = none →
      n.relax.parser (some v) ctx location = n.parser (some v) ctx location) ∧
    ∀ item, n.arrayItem? = some item →
      ((n.relax.parser (some v) ctx location).isOk = true ↔
        (n.parser (some v) ctx location).isOk = true ∨
        (item.parser (some v) ctx location).isOk = true ∨ AppendsSeveral ctx item v) := by
  refine ⟨fun result h => ?_, fun hitem => parser_relax_some hitem v ctx location,
    fun item hitem => ?_⟩
  · exact parser_eq_ok_iff.mpr (parses_relax_some (parser_eq_ok_iff.mp h))
  · simp only [isOk_parser_iff]
    exact accepts_relax_iff hitem

end Node

end DocSchema

-- SUMMARY: Merging keeps to the house rules, and so does the merged root of a model.
import DocSchema.Proofs.UpsertStore

/-!
# Clean models

A model checks its schema against the house rules as the schema is written, before the
root is merged and before an `_id` is added, and never checks it again. The merge of two
clean nodes is clean, so the schema that is enforced is clean as well, and so is the
object that the validator and the update schema are made of.
-/

namespace DocSchema

open Node

/-! ## Roots -/

theorem Node.ResolvesTo.obeys {root merged : Node} {inherited : List StringCheck}
    (h : root.ResolvesTo merged) (hroot : Obeys inherited root) : Obeys inherited merged := by
  rcases h with rfl | ⟨left, right, rfl, hmerged⟩
  · exact hroot
  · rw [obeys_intersection_iff] at hroot
    exact hmerged.obeys hroot.1 hroot.2

theorem Field.obeys_idField : Obeys [] (.optional nonEmptyString) :=
  .optional (.string rfl)

/-- The added `_id` breaks no house rule, and what it is added to is a merged root. -/
theorem Node.withIdField_obeys {root schema : Node} (h : root.withIdField = .ok schema)
    (hroot : Obeys [] root) : Obeys [] schema := by
  obtain ⟨fields, catchall, hmerged, hschema⟩ := withIdField_eq_ok h
  have hobject : Obeys [] (.object fields catchall) := (mergedRoot_eq_ok hmerged).obeys hroot
  rcases hschema with ⟨-, rfl⟩ | ⟨-, rfl⟩
  · exact hobject
  · obtain ⟨⟨hnames, hfields⟩, hcatchall⟩ := obeys_object_iff.mp hobject
    exact .object (List.forall_mem_cons.mpr ⟨by decide, hnames⟩)
      (List.forall_mem_cons.mpr ⟨Field.obeys_idField, hfields⟩) hcatchall

namespace Model

/-- The schema that a model enforces obeys, although only the schema it was defined from
has been checked. -/
theorem obeys_of_ofSchema {collection : String} {root : Node} {config : ModelConfig}
    {model : Model} (defined : ofSchema collection root config = .ok model) :
    Obeys [] model.schema := by
  obtain ⟨hlint, hschema, -⟩ := ofSchema_eq_ok defined
  have hroot : Obeys [] root := lintAt_eq_ok_iff.mp hlint
  rcases hschema with heq | hadded
  · exact heq ▸ hroot
  · exact withIdField_obeys hadded hroot

end Model

/-- Merging two nodes that the linter lets pass below the same checks gives a node that it
lets pass there. So the linter has no complaint about the schema of any model, nor about
the merge of its root. -/
theorem merging_keeps_house_rules :
    (∀ (l r merged : Node) (inherited : List StringCheck) (location place : Location),
      l.lintAt inherited location = .ok () → r.lintAt inherited location = .ok () →
      l.intersect r place = .ok merged → merged.lintAt inherited location = .ok ()) ∧
    ∀ (collection : String) (root : Node) (config : ModelConfig) (model : Model),
      Model.ofSchema collection root config = .ok model → model.schema.lint = .ok () ∧
        ∀ merged, model.schema.mergedRoot = .ok merged → merged.lint = .ok () := by
  constructor
  · intro l r merged inherited location place hl hr hmerged
    rw [lintAt_eq_ok_iff] at hl hr ⊢
    exact (intersect_eq_ok_iff.mp hmerged).obeys hl hr
  · intro collection root config model defined
    have hschema : Obeys [] model.schema := Model.obeys_of_ofSchema defined
    refine ⟨lintAt_eq_ok_iff.mpr hschema, fun merged hmerged => lintAt_eq_ok_iff.mpr ?_⟩
    exact (mergedRoot_eq_ok hmerged).obeys hschema

/-- A name that may be empty, and that may be empty nowhere: the two merge to the latter.
Without the mark, the checks of the facets around are what a text has to pass. -/
theorem marked_and_required_name :
    (Node.string [.maxLength 40] false).lintAt [.minLength 1] .root = .ok () ∧
    ∃ model, Model.ofSchema "guests" (.intersection (.object [("name", .string [] true)] none)
      (.object [("name", Field.nonEmptyString)] none)) .standard = .ok model ∧
        model.schema.lint = .ok () := by
  have hstring : Merges (.string [] true) (.string [.maxLength 40] false)
      (.string [.maxLength 40] false) := .string
  have hname : Merges (.string [] true) Field.nonEmptyString Field.nonEmptyString := .string
  have hmerges : Merges (.object [("name", .string [] true)] none)
      (.object [("name", Field.nonEmptyString)] none)
      (.object [("name", Field.nonEmptyString)] none) := by
    refine .object (m := .any) [⟨"name", .string [] true, some Field.nonEmptyString,
      Field.nonEmptyString⟩] ?_ ?_ ?_ ?_
    · simp [lookup, Entries.get?]
    · simpa using hname
    · simp
    · simp
  have hidentified : (Node.intersection (.object [("name", .string [] true)] none)
      (.object [("name", Field.nonEmptyString)] none)).withIdField =
        .ok (.object (Model.guests Field.nonEmptyString) none) := by
    rw [withIdField, mergedRoot, intersect_eq_ok_iff.mpr hmerges]
    rfl
  have hcompile : ∃ validator,
      (Node.object (Model.guests Field.nonEmptyString) none).compile = .ok validator := by
    rw [Model.guests, compile_object, rules_object]
    simp only [List.map, rules, acceptsAbsent, Field.nonEmptyString]
    exact ⟨_, rfl⟩
  obtain ⟨validator, compiled⟩ := hcompile
  have hmodel : Model.ofSchema "guests" _ .standard = .ok _ :=
    Model.ofSchema_of_identified "guests" rfl rfl hidentified compiled rfl
  obtain ⟨hmerging, hmodels⟩ := merging_keeps_house_rules
  refine ⟨?_, _, hmodel, (hmodels _ _ _ _ hmodel).1⟩
  exact hmerging _ _ _ [.minLength 1] .root .root rfl rfl (intersect_eq_ok_iff.mpr hstring)

end DocSchema

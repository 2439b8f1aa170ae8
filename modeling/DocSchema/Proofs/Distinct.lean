-- SUMMARY: Schemas that tell fields and tags apart, and what their discriminated unions accept.
import DocSchema.Proofs.Collects
import DocSchema.Proofs.Compiles
import DocSchema.Proofs.Double
import DocSchema.Proofs.Parses

/-!
# Distinct names and tags

A schema is `Distinct` where each object declares a name once and the literals of
a discriminated union are pairwise not alike. Merging keeps that. The rules of a
discriminated union then accept a value exactly if the option chosen by its tag
does, although they ask that exactly one of all options accepts.
-/

namespace DocSchema

open Validator

namespace Node

/-- Names and tags are told apart at a node. -/
def Distinct : Node → Prop
  | .object fields _ => (Entries.keys fields).Nodup
  | .discriminated key options =>
    (options.filterMap fun option => option.discriminator? key).Pairwise fun a b =>
      a.alike b = false
  | _ => True

theorem keptByMerging_distinct : KeptByMerging Distinct := by
  refine ⟨fun n hn => ?_, fun _ _ _ _ _ _ => trivial,
    fun shared gs c d m hl hr => nodup_keys_of_merged hl hr⟩
  cases n with
  | object | discriminated => cases hn
  | _ => trivial

/-! ## Tags -/

theorem discriminator?_eq_some {key : String} {option : Node} {literal : Value}
    (h : option.discriminator? key = some literal) :
    literal.isScalar = true ∧ ∃ fields catchall, option = .object fields catchall ∧
      lookup fields key = some (.literal literal) := by
  unfold discriminator? at h
  split at h
  · next fields catchall =>
    split at h
    · next v hlookup =>
      split at h
      · next hscalar => cases h; exact ⟨hscalar, fields, catchall, rfl, hlookup⟩
      · cases h
    · cases h
  · cases h

/-- All declarations of a name in an object are the one that is looked up. -/
def TagFixed (key : String) : Node → Prop
  | .object fields _ => ∀ n, (key, n) ∈ fields → lookup fields key = some n
  | _ => True

theorem Distinct.tagFixed {option : Node} (h : option.Distinct) (key : String) :
    option.TagFixed key := by
  cases option with
  | object fields catchall => exact fun n hn => Entries.get?_of_mem h hn
  | _ => trivial

/-- An object that an option accepts carries a tag alike the option's literal. -/
theorem Compiles.tag {key : String} {option : Node} {literal : Value} {s : Rules}
    (h : Compiles option s) (fixed : option.TagFixed key)
    (hliteral : option.discriminator? key = some literal) {v : Value} (hv : s.Accepts v) :
    ∃ input tag, v = .object input ∧ (Value.object input).kind = .object ∧
      Entries.get? input key = some tag ∧ literal.alike tag = true := by
  obtain ⟨-, fields, catchall, rfl, hlookup⟩ := discriminator?_eq_some hliteral
  have hdeclared := Entries.mem_of_get? hlookup
  obtain ⟨parts, others, hparts, -, haccepts⟩ := h.object_last
  obtain ⟨input, rfl, hkind, hrequired, hentries⟩ := (haccepts v).mp hv
  have hpresent : key ∈ Entries.keys input := hrequired _ hdeclared (by simp [acceptsAbsent])
  obtain ⟨tag, htag⟩ := Option.isSome_iff_exists.mp (Entries.contains_iff.mpr hpresent)
  refine ⟨input, tag, rfl, hkind, htag, ?_⟩
  have hentry := hentries _ (Entries.mem_of_get? htag)
  unfold EntryAccepted at hentry
  cases hlast : Entries.get? parts.reverse key with
  | none =>
    have hkey : key ∈ Entries.keys parts := hparts.keys_eq ▸ Entries.mem_keys_of_mem hdeclared
    rw [Entries.get?_eq_none_iff, Entries.keys, List.map_reverse, List.mem_reverse] at hlast
    exact (hlast hkey).elim
  | some s =>
    -- The rules that count come from the last declaration, which is the literal too.
    obtain ⟨f, hf, hname, hcompiles⟩ := exists_of_mem_right hparts
      (List.mem_reverse.mp (Entries.mem_of_get? hlast))
    obtain ⟨name, n⟩ := f
    cases hname
    cases (fixed n hf).symm.trans hlookup
    rw [hlast] at hentry
    exact (hcompiles.literal.2.2 tag).mp hentry

theorem chosenOption_eq_some_iff {key : String} {options : List Node} {tag : Value}
    {option : Node} :
    chosenOption key options tag = some option ↔
      (∃ literal, option.discriminator? key = some literal ∧ literal.alike tag = true) ∧
        ∃ before after, options = before ++ option :: after ∧
          ∀ other ∈ before, ∀ literal, other.discriminator? key = some literal →
            literal.alike tag = false := by
  unfold chosenOption
  rw [List.find?_eq_some_iff_append]
  simp only [Option.any_eq_true, Bool.not_eq_true', Option.any_eq_false]

/-! ## Discriminated unions -/

section Discriminated

variable {key : String} {options : List Node} {r : Rules}
  (h : Compiles (.discriminated key options) r) (distinct : Distinct (.discriminated key options))
  (each : ∀ option ∈ options, option.Distinct)
include h distinct each

/-- The tag of an object that an option accepts chooses that option. -/
theorem Compiles.chosenOption {option : Node} {s : Rules} {v : Value} (hmem : option ∈ options)
    (hs : Compiles option s) (hv : s.Accepts v) :
    ∃ input tag, v = .object input ∧ (Value.object input).kind = .object ∧
      Entries.get? input key = some tag ∧ Node.chosenOption key options tag = some option := by
  obtain ⟨hliterals, -⟩ := h.discriminated
  obtain ⟨literal, hliteral⟩ := Option.isSome_iff_exists.mp (hliterals option hmem)
  obtain ⟨input, tag, rfl, hkind, htag, halike⟩ := hs.tag ((each option hmem).tagFixed key) hliteral hv
  refine ⟨input, tag, rfl, hkind, htag, ?_⟩
  obtain ⟨before, after, rfl⟩ := List.append_of_mem hmem
  refine chosenOption_eq_some_iff.mpr ⟨⟨literal, hliteral, halike⟩, before, after, rfl, ?_⟩
  intro other hother l hl
  have hnot := (List.pairwise_append.mp (List.pairwise_filterMap.mp distinct)).2.2 other hother
    option (by simp) l hl literal hliteral
  refine Bool.eq_false_iff.mpr fun hlt => ?_
  rw [Value.alike_of_alike (discriminator?_eq_some hl).1 (discriminator?_eq_some hliteral).1 hlt
    halike] at hnot
  cases hnot

omit distinct each in
theorem Compiles.exists_option {v : Value} (hv : r.Accepts v) :
    ∃ option ∈ options, ∃ s, Compiles option s ∧ s.Accepts v := by
  obtain ⟨-, parts, hparts, -, haccepts⟩ := h.discriminated
  obtain ⟨before, s, after, rfl, hs, -⟩ := (haccepts v).mp hv
  obtain ⟨option, hmem, hcompiles⟩ := exists_of_mem_right hparts (List.mem_append_cons_self)
  exact ⟨option, hmem, s, hcompiles, hs⟩

/-- No second option accepts what one accepts: they would share a tag. -/
theorem Compiles.accepts_of_option {option : Node} {v : Value} (hmem : option ∈ options)
    (hv : ∀ s, Compiles option s → s.Accepts v) : r.Accepts v := by
  obtain ⟨hliterals, parts, hparts, -, haccepts⟩ := h.discriminated
  obtain ⟨before, after, rfl⟩ := List.append_of_mem hmem
  obtain ⟨before', s, after', rfl, hbefore, hcompiles, hafter⟩ := forall₂_split hparts
  refine (haccepts v).mpr ⟨before', s, after', rfl, hv s hcompiles, fun t ht haccepted => ?_⟩
  obtain ⟨other, hother, hcompiles'⟩ : ∃ other ∈ before ++ after, Compiles other t := by
    rcases List.mem_append.mp ht with ht | ht
    · obtain ⟨other, hother, hcompiles'⟩ := exists_of_mem_right hbefore ht
      exact ⟨other, List.mem_append_left _ hother, hcompiles'⟩
    · obtain ⟨other, hother, hcompiles'⟩ := exists_of_mem_right hafter ht
      exact ⟨other, List.mem_append_right _ hother, hcompiles'⟩
  have hmem' : other ∈ before ++ option :: after := by
    rcases List.mem_append.mp hother with hother | hother <;> simp [hother]
  obtain ⟨input, tag, rfl, -, htag, hchosen⟩ :=
    h.chosenOption distinct each hmem hcompiles (hv s hcompiles)
  obtain ⟨input', tag', heq, -, htag', hchosen'⟩ :=
    h.chosenOption distinct each hmem' hcompiles' haccepted
  cases heq
  cases htag.symm.trans htag'
  cases hchosen.symm.trans hchosen'
  obtain ⟨⟨literal, hliteral, halike⟩, -⟩ := chosenOption_eq_some_iff.mp hchosen
  have hscalar := (discriminator?_eq_some hliteral).1
  have hself := Value.alike_of_alike hscalar hscalar halike halike
  have hpairwise := List.pairwise_append.mp (List.pairwise_filterMap.mp distinct)
  rcases List.mem_append.mp hother with hother | hother
  · rw [hpairwise.2.2 option hother option (by simp) literal hliteral literal hliteral] at hself
    cases hself
  · rw [(List.pairwise_cons.mp hpairwise.2.1).1 option hother literal hliteral literal hliteral]
      at hself
    cases hself

end Discriminated

end Node

end DocSchema

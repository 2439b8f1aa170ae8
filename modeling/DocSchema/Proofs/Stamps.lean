-- SUMMARY: What a write puts under a field that its caller leaves to the field's type.
import DocSchema.Proofs.Creation

/-!
# Stamped fields

A caller leaves a field to its type by not giving it: the document of an insert
has no such entry, and no write of a modifier leads into it. The field then gets
what its type makes of absence: under `$set` what the relaxed type gives, and in
an upsert that inserts the default, where the type begins with one.
-/

namespace DocSchema

namespace Field

open Node

variable {ctx : Context} {result : Option Value}

/-! ## The types of times -/

theorem parses_mapped_optional_none {n : Node} {f : Option Value → Context → Option Value} :
    Parses ctx ((Node.optional n).mapped f) none result ↔ f none ctx = result := by
  simp only [parses_mapped_iff, parses_optional_none, exists_eq_left]

theorem acceptsAbsent_mapped_optional {n : Node} {f : Option Value → Context → Option Value} :
    ((Node.optional n).mapped f).acceptsAbsent = true := by
  simp only [mapped, acceptsAbsent]

/-- The time of creation is nothing that a `$set` fills in. -/
theorem createdTimestamp_relax_absent :
    Parses ctx createdTimestamp.relax none result ↔ result = none := by
  have hrelax : createdTimestamp.relax =
      (Node.optional .date).mapped fun v ctx => if ctx.isUpdate then none else v := rfl
  rw [hrelax, parses_mapped_optional_none, ite_self]
  exact eq_comm

theorem createdTimestamp_default {v : Value} (notUpdate : ctx.isUpdate = false)
    (h : Parses ctx ((Node.optional .date).mapped
      fun v ctx => if ctx.isUpdate then none else v) (some v) result) : result = some v := by
  obtain ⟨parsed, hparsed, heq⟩ := parses_mapped_iff.mp h
  rw [← heq, notUpdate, if_neg Bool.false_ne_true]
  exact (parses_optional_some.mp hparsed).leaf rfl

theorem createdTimestamp_absent (notUpdate : ctx.isUpdate = false)
    (h : Parses ctx createdTimestamp none result) : result = some (now ctx) :=
  createdTimestamp_default notUpdate (parses_withDefault_none.mp h)

theorem updatedTimestamp_absent : Parses ctx updatedTimestamp none result ↔
    result = if ctx.isUpdate then some (now ctx) else none := by
  unfold updatedTimestamp
  rw [parses_mapped_optional_none]
  exact eq_comm

theorem lastWriteTimestamp_absent : Parses ctx lastWriteTimestamp none result ↔
    result = ctx.kind.map fun _ => now ctx := by
  unfold lastWriteTimestamp
  rw [parses_mapped_optional_none]
  exact eq_comm

theorem relax_updatedTimestamp : updatedTimestamp.relax = updatedTimestamp := rfl

theorem relax_lastWriteTimestamp : lastWriteTimestamp.relax = lastWriteTimestamp := rfl

end Field

/-! ## Inserted documents -/

namespace UpdateSchema

variable {s : UpdateSchema} {name : String} {n : Node} {ctx : Context}

/-- A field of a parsed document is what its type makes of the field of the document. -/
theorem Declares.parses_field (declares : s.Declares name n) {doc parsed : Value}
    (h : Node.Parses ctx (.object s.base s.catchall) (some doc) (some parsed)) :
    n.Parses ctx (doc.field? name) (parsed.field? name) := by
  obtain ⟨input, extra, own, hdoc, -, hextra, hown, hparsed⟩ := Node.parses_object_iff.mp h
  cases hdoc
  cases hparsed
  change n.Parses ctx (Entries.get? input name) (Entries.get? (Entries.ofList (extra ++ own)) name)
  exact Node.parses_declared declares.declared declares.unique hextra hown

/-- A field that an inserted document does not give is what its type makes of absence. -/
theorem Declares.parses_absent (declares : s.Declares name n) {doc parsed : Value}
    (h : Node.Parses ctx (.object s.base s.catchall) (some doc) (some parsed))
    (absent : doc.field? name = none) : n.Parses ctx none (parsed.field? name) :=
  absent ▸ declares.parses_field h

end UpdateSchema

/-! ## Modified documents -/

namespace Collection

/-- A field that a selector does not fix is not there at the start. -/
theorem absent_of_seed {selector doc : Value} {name : String} (h : seed selector = .done doc)
    (silent : ∀ e ∈ Selector.equalities selector, DotPath.rootOf e.1 ≠ name) :
    doc.isObject = true ∧ doc.field? name = none := by
  rw [seed_eq_writes] at h
  refine ⟨(Apply.isObject_of_writes h).trans rfl, ?_⟩
  refine (Apply.field?_of_writes h fun w hw hreaches => ?_).trans rfl
  obtain ⟨e, he, rfl⟩ := List.mem_map.mp hw
  have hset : "$set" ≠ "$rename" := by decide
  exact silent e he ((Write.mem_roots_iff hset).mp hreaches.1)

end Collection

namespace Modifier

variable {s : UpdateSchema} {ctx : Context} {name : String} {n : Node} {modifier : Value}
  {upsert : Bool} {sent m : Modifier}

/-- No write that the modifier asks for leads into the field. -/
def Avoids (modifier : Value) (name : String) : Prop :=
  ∀ w ∈ writesOf modifier, name ∉ w.roots

theorem Avoids.of_normalize (avoids : Avoids modifier name) (normal : normalize s modifier = .ok m)
    {w : Write} (hw : w ∈ writes m) : name ∉ w.roots := by
  rcases writesOf_of_normalize normal hw with hasked | ⟨happends, hasked⟩
  · exact avoids w hasked
  · have hrename : w.operator ≠ "$rename" := by
      rcases happends with happends | happends <;> rw [happends] <;> decide
    have hset : "$set" ≠ "$rename" := by decide
    have hroot := avoids _ hasked
    rw [Write.mem_roots_iff hset] at hroot
    rwa [Write.mem_roots_iff hrename]

theorem Avoids.untouched (avoids : Avoids modifier name) (normal : normalize s modifier = .ok m) :
    name ∉ touchedRoots m := by
  intro htouched
  obtain ⟨w, hw, hroot⟩ := mem_roots_of_touched htouched
  exact avoids.of_normalize normal hw hroot

/-- A write that is sent and leads into a field that the modifier avoids is what the
type of the field makes of absence, or the default of the field. -/
theorem write_of_avoids (named : ∀ f ∈ s.base, Node.nameRule? f.1 = none)
    (declares : s.Declares name n) (avoids : Avoids modifier name)
    (parsed : parse s modifier upsert ctx = .ok sent) {w : Write} (hw : w ∈ writes sent)
    (hroot : name ∈ w.roots) : w.path = name ∧
      (w.operator = "$set" ∧ n.relax.Parses ctx none (some w.operand) ∨
        w.operator = "$setOnInsert" ∧ ∃ inner default, n = .withDefault inner default ∧
          Remembers ctx ⟨name, inner, default⟩ w.operand) := by
  obtain ⟨m, hm, hsends⟩ := sends_of_parse parsed
  have root_of_base {f : String × Node} (hf : f ∈ s.base) {operator : String} {v : Value}
      (hoperator : operator ≠ "$rename") (hroot : name ∈ (Write.mk operator f.1 v).roots) :
      f.1 = name := by
    rwa [Write.mem_roots_iff hoperator,
      DotPath.rootOf_of_not_hasDot (nameRule?_eq_none (named f hf)).2.1] at hroot
  cases hsends w hw with
  | @parsed operator path v operand hmem hoperator _ =>
    have hrename := ne_rename_of_parsed hoperator
    have hpath := (Write.mem_roots_iff hrename).mp hroot
    exact (avoids.of_normalize hm hmem ((Write.mem_roots_iff hrename).mpr hpath)).elim
  | passed hmem => exact (avoids.of_normalize hm hmem hroot).elim
  | @filled f v hf _ hfills =>
    have hname := root_of_base hf (by decide) hroot
    rw [FillsField, declares.unique f hf hname] at hfills
    exact ⟨hname, .inl ⟨rfl, hfills⟩⟩
  | @remembered field v _ hfield hgives =>
    obtain ⟨f, hf, hsome⟩ := List.mem_filterMap.mp hfield
    obtain ⟨fname, fnode⟩ := f
    cases fnode with
    | withDefault inner default =>
      cases hsome
      have hname := root_of_base hf (by decide) hroot
      dsimp only at hname
      subst hname
      exact ⟨rfl, .inr ⟨rfl, inner, default, (declares.unique _ hf rfl).symm, hgives⟩⟩
    | _ => cases hsome

/-! ### What becomes of a field -/

theorem mem_roots_of_named {operator : String} {v : Value} (named : Node.nameRule? name = none) :
    name ∈ (Write.mk operator name v).roots := by
  unfold Write.roots
  rw [DotPath.rootOf_of_not_hasDot (nameRule?_eq_none named).2.1]
  exact List.mem_cons_self

variable {current next v : Value} {inserting : Bool}

/-- A field that the modifier avoids stays as it is where its type makes nothing of
absence, unless a default is written for an insertion. -/
theorem field?_of_vanishes (named : ∀ f ∈ s.base, Node.nameRule? f.1 = none)
    (declares : s.Declares name n) (avoids : Avoids modifier name)
    (parsed : parse s modifier upsert ctx = .ok sent)
    (applied : Apply.modifier current (.object sent) inserting = .done next)
    (vanishes : ∀ r, n.relax.Parses ctx none r → r = none)
    (undefaulted : inserting = true → ∀ inner default, n ≠ .withDefault inner default) :
    next.field? name = current.field? name := by
  refine Apply.field?_of_writes (Apply.writes_of_operators applied) fun w hw hreaches => ?_
  obtain ⟨-, ⟨-, hfills⟩ | ⟨hoperator, inner, default, hn, -⟩⟩ :=
    write_of_avoids named declares avoids parsed hw hreaches.1
  · cases vanishes _ hfills
  · exact undefaulted (hreaches.2 hoperator) inner default hn

/-- A field that the modifier avoids gets what its type makes of absence. -/
theorem field?_of_fills (named : ∀ f ∈ s.base, Node.nameRule? f.1 = none)
    (declares : s.Declares name n) (avoids : Avoids modifier name)
    (parsed : parse s modifier upsert ctx = .ok sent) (object : current.isObject = true)
    (applied : Apply.modifier current (.object sent) inserting = .done next)
    (fills : n.relax.Parses ctx none (some v)) (absent : n.relax.acceptsAbsent = true)
    (undefaulted : ∀ inner default, n ≠ .withDefault inner default) :
    next.field? name = some v := by
  obtain ⟨m, hm, -⟩ := sends_of_parse parsed
  have puts {w : Write} (hw : w ∈ writes sent) (hroot : name ∈ w.roots) :
      w.Puts inserting name v := by
    obtain ⟨hpath, ⟨hoperator, hfills⟩ | ⟨-, inner, default, hn, -⟩⟩ :=
      write_of_avoids named declares avoids parsed hw hroot
    · cases fills.unique hfills
      exact ⟨hpath, rfl, .inl hoperator⟩
    · exact (undefaulted inner default hn).elim
  obtain ⟨v', hv'⟩ :=
    exists_write_of_fills parsed hm declares.declared (avoids.untouched hm) absent fills
  have hname := named _ declares.declared
  have hroot : name ∈ (Write.mk "$set" name v').roots := mem_roots_of_named hname
  exact Apply.field?_of_puts hname object (Apply.writes_of_operators applied)
    (fun w hw hreaches => puts hw hreaches.1) (.inr ⟨_, hv', puts hv' hroot⟩)

/-- A field that the modifier avoids gets its default in an upsert that inserts,
where its relaxed type makes nothing of absence. -/
theorem field?_of_default (named : ∀ f ∈ s.base, Node.nameRule? f.1 = none) {inner : Node}
    {default : Default} (declares : s.Declares name (.withDefault inner default))
    (avoids : Avoids modifier name) (parsed : parse s modifier true ctx = .ok sent)
    (object : current.isObject = true)
    (applied : Apply.modifier current (.object sent) true = .done next)
    (vanishes : ∀ r, (Node.withDefault inner default).relax.Parses ctx none r → r = none)
    (given : default ctx = some v) (stays : ∀ r, inner.Parses ctx (some v) r → r = some v) :
    next.field? name = some v := by
  obtain ⟨m, hm, -⟩ := sends_of_parse parsed
  have puts {w : Write} (hw : w ∈ writes sent) (hroot : name ∈ w.roots) : w.Puts true name v := by
    obtain ⟨hpath, ⟨-, hfills⟩ | ⟨hoperator, inner', default', hn, d, hd, hgives⟩⟩ :=
      write_of_avoids named declares avoids parsed hw hroot
    · cases vanishes _ hfills
    · cases hn
      cases given.symm.trans hd
      exact ⟨hpath, Option.some.inj (stays _ hgives), .inr ⟨hoperator, rfl⟩⟩
  have huntargeted : name ∉ targetedRoots m := fun htargeted =>
    avoids.untouched hm (List.mem_append_right _ htargeted)
  have hname := named _ declares.declared
  have hunset : ∀ w ∈ writes sent, w.operator = "$set" → DotPath.rootOf w.path ≠ name := by
    intro w hw hoperator hroot
    have hmem : name ∈ w.roots := hroot ▸ List.mem_cons_self
    obtain ⟨-, ⟨-, hfills⟩ | ⟨honInsert, -⟩⟩ := write_of_avoids named declares avoids parsed hw hmem
    · cases vanishes _ hfills
    · rw [hoperator] at honInsert
      exact absurd honInsert (by decide)
  have hfield : ⟨name, inner, default⟩ ∈ s.defaults :=
    List.mem_filterMap.mpr ⟨_, declares.declared, rfl⟩
  obtain ⟨v', hv'⟩ := exists_write_of_default parsed hm hfield huntargeted hunset given
    fun hnone => by cases stays _ hnone
  exact Apply.field?_of_puts hname object (Apply.writes_of_operators applied)
    (fun w hw hreaches => puts hw hreaches.1)
    (.inr ⟨_, hv', puts hv' (mem_roots_of_named hname)⟩)

end Modifier

end DocSchema

-- SUMMARY: What an attached validator guarantees over every history of its collection.
import DocSchema.Proofs.Histories

/-!
# Enforcement

`Guarded` relates an earlier and a later state of the documents of a collection
whose validator refuses writes. It holds of every step, and chains of steps keep
it. Under the moderate level a document that fails may be replaced by another
one, but none that passes is ever replaced by one that fails.
-/

namespace DocSchema

namespace Collection

variable {c c' : Collection} {name : String} {v : Validator} {level : ValidationLevel}

/-! ## Checks -/

/-- Only the level `off` and failing documents under the moderate level escape the check. -/
theorem isChecked_of_valid {previous : Option Value} (on : level ≠ .off)
    (passed : ∀ old, previous = some old → v.isValid old = true) :
    isChecked v level previous = true := by
  cases level with
  | off => exact (on rfl).elim
  | strict => rfl
  | moderate =>
    cases previous with
    | none => rfl
    | some old => exact passed old rfl

/-- A document that is stored after a check is valid. -/
theorem isValid_of_enforce {doc : Value} {previous : Option Value}
    (attached : c.validator = some (v, ⟨level, .error⟩))
    (checked : isChecked v level previous = true)
    (h : c.enforce name doc previous = .ok ()) : v.isValid doc = true := by
  unfold enforce at h
  rw [attached] at h
  dsimp only at h
  rw [if_pos checked] at h
  unfold Validator.isValid
  cases hvalid : v.validate doc with
  | ok u => rfl
  | error issue =>
    rw [hvalid] at h
    cases h

/-! ## Guarded changes -/

/-- What a validator that refuses writes lets happen between two states of the
documents of its collection. -/
structure Guarded (v : Validator) (level : ValidationLevel) (old new : Entries Value) : Prop where
  /-- A document that passes is never replaced by one that fails. -/
  passing : ∀ key before after, Entries.get? old key = some before → v.isValid before = true →
    Entries.get? new key = some after → v.isValid after = true
  /-- No failing document is added. -/
  added : ∀ key doc, Entries.get? old key = none → Entries.get? new key = some doc →
    v.isValid doc = true
  /-- Under the strict level a failing document is one that was there, unchanged. -/
  failing : level = .strict → ∀ key doc, Entries.get? new key = some doc →
    v.isValid doc = false → Entries.get? old key = some doc

namespace Guarded

theorem refl (docs : Entries Value) : Guarded v level docs docs := by
  refine ⟨fun key before after hbefore hvalid hafter => ?_, fun key doc hnone hdoc => ?_,
    fun _ key doc hdoc _ => hdoc⟩
  · cases hbefore.symm.trans hafter
    exact hvalid
  · cases hnone.symm.trans hdoc

theorem trans {old mid new : Entries Value} (h : Guarded v level old mid)
    (h' : Guarded v level mid new) : Guarded v level old new := by
  refine ⟨fun key before after hbefore hvalid hafter => ?_, fun key doc hnone hdoc => ?_,
    fun strict key doc hdoc hinvalid => ?_⟩
  · cases hmid : Entries.get? mid key with
    | none => exact h'.added key after hmid hafter
    | some between =>
      exact h'.passing key between after hmid (h.passing key before between hbefore hvalid hmid)
        hafter
  · cases hmid : Entries.get? mid key with
    | none => exact h'.added key doc hmid hdoc
    | some between =>
      exact h'.passing key between doc hmid (h.added key between hnone hmid) hdoc
  · exact h.failing strict key doc (h'.failing strict key doc hdoc hinvalid) hinvalid

/-- Where all documents pass, all pass afterwards. -/
theorem all_valid {old new : Entries Value} (h : Guarded v level old new)
    (all : ∀ key doc, Entries.get? old key = some doc → v.isValid doc = true) (key : String)
    (doc : Value) (hdoc : Entries.get? new key = some doc) : v.isValid doc = true := by
  cases hold : Entries.get? old key with
  | none => exact h.added key doc hold hdoc
  | some before => exact h.passing key before doc hold (all key before hold) hdoc

end Guarded

theorem Step.guarded (step : Step name c c') (attached : c.validator = some (v, ⟨level, .error⟩))
    (on : level ≠ .off) : Guarded v level c.documents c'.documents := by
  cases step with
  | kept => exact .refl _
  | @stored key doc henforce =>
    -- The document that is stored is valid unless it replaces a failing one unchecked.
    have hvalid (passed : ∀ old, Entries.get? c.documents key = some old → v.isValid old = true) :
        v.isValid doc = true :=
      isValid_of_enforce attached (isChecked_of_valid on passed) henforce
    refine ⟨fun k before after hbefore hpasses hafter => ?_, fun k added hnone hadded => ?_,
      fun strict k failing hfailing hinvalid => ?_⟩
    · rw [Entries.get?_insert] at hafter
      split at hafter
      · next heq =>
        cases hafter
        refine hvalid fun old hold => ?_
        cases hold.symm.trans (heq ▸ hbefore)
        exact hpasses
      · cases hbefore.symm.trans hafter
        exact hpasses
    · rw [Entries.get?_insert] at hadded
      split at hadded
      · next heq =>
        cases hadded
        refine hvalid fun old hold => ?_
        cases hold.symm.trans (heq ▸ hnone)
      · cases hnone.symm.trans hadded
    · rw [Entries.get?_insert] at hfailing
      split at hfailing
      · cases hfailing
        rw [isValid_of_enforce attached (by rw [strict]; rfl) henforce] at hinvalid
        cases hinvalid
      · exact hfailing
  | removed stays =>
    have hkept {k : String} {doc : Value}
        (h : Entries.get? (c.documents.filter fun e => stays e.1) k = some doc) :
        Entries.get? c.documents k = some doc := by
      rw [Entries.get?_filter] at h
      split at h
      · exact h
      · cases h
    refine ⟨fun k before after hbefore hpasses hafter => ?_, fun k doc hnone hdoc => ?_,
      fun _ k doc hdoc _ => hkept hdoc⟩
    · cases hbefore.symm.trans (hkept hafter)
      exact hpasses
    · cases hnone.symm.trans (hkept hdoc)

theorem guarded_of_steps (steps : Relation.ReflTransGen (Step name) c c')
    (attached : c.validator = some (v, ⟨level, .error⟩)) (on : level ≠ .off) :
    Guarded v level c.documents c'.documents := by
  induction steps with
  | refl => exact .refl _
  | tail steps step ih =>
    exact ih.trans (step.guarded ((validator_eq_of_steps steps).trans attached) on)

end Collection

namespace Store

variable {s : Store} {name : String} {v : Validator} {level : ValidationLevel}

theorem guarded_run (attached : (s.collection name).validator = some (v, ⟨level, .error⟩))
    (on : level ≠ .off) (sorted : Entries.Sorted (s.collection name).documents) {calls : List Call}
    (keep : ∀ call ∈ calls, ¬ call.Attaches name) :
    Collection.Guarded v level (s.collection name).documents
      ((s.run calls).collection name).documents :=
  Collection.guarded_of_steps (steps_run sorted keep) attached on

/-- A validator that is attached at the strict or the moderate level and refuses
writes guards the documents of its collection through every history that attaches
no other one: between any two later states, and from the time it was attached. -/
theorem attached_validator_guards (s : Store) (name : String) (v : Validator)
    (level : ValidationLevel) (on : level ≠ .off)
    (sorted : Entries.Sorted (s.collection name).documents) (before later : List Call)
    (keep : ∀ call ∈ before ++ later, ¬ call.Attaches name) :
    Collection.Guarded v level (s.collection name).documents
      (((s.setValidator name v ⟨level, .error⟩).run before).collection name).documents ∧
    Collection.Guarded v level
      (((s.setValidator name v ⟨level, .error⟩).run before).collection name).documents
      (((s.setValidator name v ⟨level, .error⟩).run (before ++ later)).collection name).documents ∧
    ((∀ e ∈ (s.collection name).documents, v.isValid e.2 = true) →
      ∀ e ∈ (((s.setValidator name v ⟨level, .error⟩).run before).collection name).documents,
        v.isValid e.2 = true) := by
  obtain ⟨hbefore, hlater⟩ := List.forall_mem_append.mp keep
  obtain ⟨attached, hattached⟩ : ∃ t, t = s.setValidator name v ⟨level, .error⟩ := ⟨_, rfl⟩
  have hcollection : attached.collection name =
      { s.collection name with validator := some (v, ⟨level, .error⟩) } :=
    hattached ▸ s.collection_setValidator name v _
  have hdocuments : (attached.collection name).documents = (s.collection name).documents := by
    rw [hcollection]
  have hvalidator : (attached.collection name).validator = some (v, ⟨level, .error⟩) := by
    rw [hcollection]
  rw [← hattached, run_append, ← hdocuments]
  have hsorted : Entries.Sorted (attached.collection name).documents := hdocuments ▸ sorted
  have steps := steps_run hsorted hbefore
  have hfirst := Collection.guarded_of_steps steps hvalidator on
  have hmiddle : ((attached.run before).collection name).validator = some (v, ⟨level, .error⟩) ∧
      Entries.Sorted ((attached.run before).collection name).documents :=
    ⟨(Collection.validator_eq_of_steps steps).trans hvalidator,
      Collection.sorted_of_steps steps hsorted⟩
  refine ⟨hfirst, guarded_run hmiddle.1 on hmiddle.2 hlater, fun all e he => ?_⟩
  refine hfirst.all_valid (fun key doc hdoc => ?_) e.1 e.2
    (Entries.get?_of_mem hmiddle.2.distinct he)
  exact all _ (Entries.mem_of_get? hdoc)

/-- The validator of documents that have a name. -/
def nameRequired : Validator := ⟨[("required", .array [.string "name"])], []⟩

def ada : Value := .object [("_id", .string "ada"), ("name", .string "Ada")]

/-- Ada is stored, and no update takes the name away. -/
theorem ada_stays_named :
    ((((empty.setValidator "guests" nameRequired .standard).run
      [.insertOne "guests" ada default])).collection "guests").documents = [("ada", ada)] ∧
    ∀ selector modifier upsert fresh, Collection.Guarded nameRequired .strict [("ada", ada)]
      (((empty.setValidator "guests" nameRequired .standard).run
        [.insertOne "guests" ada default,
          .updateOne "guests" selector modifier upsert fresh]).collection "guests").documents := by
  have hvalid : nameRequired.validate ada = .ok () := by
    unfold Validator.validate nameRequired ada
    rw [Validator.check_object]
    rfl
  have hinsert : (Collection.insert "guests" ada default).run
      ((empty.setValidator "guests" nameRequired .standard).collection "guests") =
        .ok "ada" ⟨[("ada", ada)], some (nameRequired, .standard)⟩ :=
    Collection.insert_eq_ok_iff.mpr ⟨rfl, rfl, Collection.enforce_of_validate rfl hvalid _, rfl⟩
  have hstored : ((((empty.setValidator "guests" nameRequired .standard).run
      [.insertOne "guests" ada default])).collection "guests").documents = [("ada", ada)] :=
    congrArg Collection.documents (collection_perform_of_ok hinsert)
  refine ⟨hstored, fun selector modifier upsert fresh => ?_⟩
  have hguarded := (attached_validator_guards empty "guests" nameRequired .strict (by decide)
    List.Pairwise.nil [.insertOne "guests" ada default]
    [.updateOne "guests" selector modifier upsert fresh] (by simp [Call.Attaches])).2.1
  exact hstored ▸ hguarded

end Store

end DocSchema

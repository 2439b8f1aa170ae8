-- SUMMARY: Histories of store calls, and what one call can do to one collection.
import DocSchema.Proofs.Frames
import Mathlib.Logic.Relation

/-!
# Histories of the store

A history is a list of calls. Whatever a call is, it makes at most one `Change` to
each collection to which it attaches no validator: a document that was checked is
inserted or replaces another one, or documents are taken away. A `Step` is a
change without the identifiers. What all steps keep, all histories keep.
-/

namespace DocSchema

namespace Collection

variable {c c' : Collection} {name : String}

/-! ## Single operations -/

theorem mem_of_firstMatch {selector : Value} {documents : Entries Value} {key : String}
    {doc : Value} (h : firstMatch selector documents = .ok (some (key, doc))) :
    (key, doc) ∈ documents := by
  induction documents with
  | nil => cases h
  | cons e rest ih =>
    obtain ⟨k, d⟩ := e
    rw [firstMatch, Outcome.bind_eq_ok] at h
    obtain ⟨found, -, h⟩ := h
    cases found with
    | true =>
      cases h
      exact List.mem_cons_self
    | false => exact List.mem_cons_of_mem _ (ih h)

/-- A valid document passes the check, whatever the settings. -/
theorem enforce_of_validate {doc : Value} {v : Validator} {settings : ValidationSettings}
    (attached : c.validator = some (v, settings)) (valid : v.validate doc = .ok ())
    (previous : Option Value) : c.enforce name doc previous = .ok () := by
  unfold enforce
  rw [attached]
  dsimp only
  rw [valid]
  split <;> rfl

/-- The check fails with what the validator says of the document. -/
theorem rejected_of_enforce {doc : Value} {previous : Option Value} {e : StorageError}
    (h : c.enforce name doc previous = .error e) :
    ∃ v settings issue, c.validator = some (v, settings) ∧ v.validate doc = .error issue ∧
      e = .documentRejected name issue := by
  unfold enforce at h
  split at h
  · cases h
  · next v settings attached =>
    split at h
    · cases hvalidate : v.validate doc with
      | ok u =>
        rw [hvalidate] at h
        cases h
      | error issue =>
        rw [hvalidate] at h
        cases haction : settings.action with
        | error =>
          rw [haction] at h
          cases h
          exact ⟨v, settings, issue, attached, hvalidate, rfl⟩
        | warn =>
          rw [haction] at h
          cases h
    · cases h

/-- Only objects are inserted. -/
theorem object_of_insert {doc : Value} {fresh : Uuid} {key : String}
    (h : (insert name doc fresh).run c = .ok key c') : ∃ fields, doc = .object fields := by
  cases doc with
  | object fields => exact ⟨fields, rfl⟩
  | _ => cases h

/-- What an update that comes to its end did. -/
inductive Updates (c : Collection) (name : String) (selector modifier : Value) (upsert : Bool)
    (fresh : Uuid) : UpdateOutcome → Collection → Prop where
  | matched {key : String} {current next : Value} :
    firstMatch selector c.documents = .ok (some (key, current)) →
    Apply.modifier current modifier false = .done next →
    (next.field? "_id" == current.field? "_id") = true →
    c.enforce name next (some current) = .ok () →
    Updates c name selector modifier upsert fresh ⟨1, if next == current then 0 else 1, none⟩
      { c with documents := Entries.insert c.documents key next }
  | inserted {doc : Value} {key : String} {c' : Collection} :
    firstMatch selector c.documents = .ok none → upsert = true →
    seeded selector modifier = .done doc → (insert name doc fresh).run c = .ok key c' →
    Updates c name selector modifier upsert fresh ⟨0, 0, some key⟩ c'
  | unmatched :
    firstMatch selector c.documents = .ok none → upsert = false →
    Updates c name selector modifier upsert fresh ⟨0, 0, none⟩ c

theorem replace_eq_ok_iff {key : String} {current modifier : Value} {outcome : UpdateOutcome} :
    (replace name key current modifier).run c = .ok outcome c' ↔
      ∃ next, Apply.modifier current modifier false = .done next ∧
        (next.field? "_id" == current.field? "_id") = true ∧
        c.enforce name next (some current) = .ok () ∧
        outcome = ⟨1, if next == current then 0 else 1, none⟩ ∧
        c' = { c with documents := Entries.insert c.documents key next } := by
  unfold replace
  rw [Work.edited_bind_eq_ok]
  refine exists_congr fun next => and_congr_right fun _ => ?_
  by_cases hid : (next.field? "_id" == current.field? "_id") = true
  · rw [if_pos hid, Work.run_get_bind, Work.liftExcept_bind_eq_ok]
    constructor
    · rintro ⟨_, henforce, ⟨⟩⟩
      exact ⟨hid, henforce, rfl, rfl⟩
    · rintro ⟨-, henforce, rfl, rfl⟩
      exact ⟨(), henforce, rfl⟩
  · rw [if_neg hid]
    exact iff_of_false (by rintro ⟨⟩) fun h => hid h.1

theorem update_eq_ok_iff {selector modifier : Value} {upsert : Bool} {fresh : Uuid}
    {outcome : UpdateOutcome} :
    (update name selector modifier upsert fresh).run c = .ok outcome c' ↔
      Updates c name selector modifier upsert fresh outcome c' := by
  unfold update
  rw [Work.run_get_bind, Work.liftExcept_bind_eq_ok]
  constructor
  · rintro ⟨found, hfound, h⟩
    cases found with
    | some e =>
      obtain ⟨next, hnext, hid, henforce, rfl, rfl⟩ := replace_eq_ok_iff.mp h
      exact .matched hfound hnext hid henforce
    | none =>
      cases upsert with
      | true =>
        obtain ⟨doc, key, hdoc, hinsert, rfl⟩ := insertSeeded_eq_ok_iff.mp h
        exact .inserted hfound rfl hdoc hinsert
      | false =>
        cases h
        exact .unmatched hfound rfl
  · intro h
    cases h with
    | matched hfound hnext hid henforce =>
      exact ⟨_, hfound, replace_eq_ok_iff.mpr ⟨_, hnext, hid, henforce, rfl, rfl⟩⟩
    | inserted hfound hupsert hdoc hinsert =>
      subst hupsert
      exact ⟨none, hfound, insertSeeded_eq_ok_iff.mpr ⟨_, _, hdoc, hinsert, rfl⟩⟩
    | unmatched hfound hupsert =>
      subst hupsert
      exact ⟨none, hfound, rfl⟩

theorem remove_eq_ok_iff {selector : Value} {n : Nat} :
    (remove selector).run c = .ok n c' ↔
      ∃ doomed, matching selector c.documents = .ok doomed ∧ n = doomed.length ∧
        c' = { c with
          documents := c.documents.filter fun e => !Entries.contains doomed e.1 } := by
  unfold remove
  rw [Work.run_get_bind, Work.liftExcept_bind_eq_ok]
  refine exists_congr fun doomed => and_congr_right fun _ => ?_
  rw [EStateM.run_bind, run_forM_discard]
  constructor
  · rintro ⟨⟩
    exact ⟨rfl, rfl⟩
  · rintro ⟨rfl, rfl⟩
    rfl

/-! ## Steps -/

/-- What a call that attaches no validator does to a collection: nothing, or it
stores one document that was checked against the one before it under its key, or
it takes documents away. -/
inductive Step (name : String) (c : Collection) : Collection → Prop where
  | kept : Step name c c
  | stored {key : String} {doc : Value} :
    c.enforce name doc (Entries.get? c.documents key) = .ok () →
    Step name c { c with documents := Entries.insert c.documents key doc }
  | removed (stays : String → Bool) :
    Step name c { c with documents := c.documents.filter fun e => stays e.1 }

/-- The same with the identifiers: a document is stored under the key of its `_id`
where nothing was, or in the place of one with an equal `_id`. -/
inductive Change (name : String) (c : Collection) : Collection → Prop where
  | kept : Change name c c
  | inserted {fields : Entries Value} {id : Value} :
    Entries.get? fields "_id" = some id → Entries.get? c.documents id.idKey = none →
    c.enforce name (.object fields) none = .ok () →
    Change name c { c with documents := Entries.insert c.documents id.idKey (.object fields) }
  | replaced {key : String} {current next : Value} :
    Entries.get? c.documents key = some current →
    (next.field? "_id" == current.field? "_id") = true →
    c.enforce name next (some current) = .ok () →
    Change name c { c with documents := Entries.insert c.documents key next }
  | removed (stays : String → Bool) :
    Change name c { c with documents := c.documents.filter fun e => stays e.1 }

theorem Change.step (h : Change name c c') : Step name c c' := by
  cases h with
  | kept => exact .kept
  | inserted _ hfree henforce => exact .stored (by rw [hfree]; exact henforce)
  | replaced hfound _ henforce => exact .stored (by rw [hfound]; exact henforce)
  | removed stays => exact .removed stays

theorem exists_id_identified (fields : Entries Value) (fresh : Uuid) :
    ∃ id, Entries.get? (identified fields fresh).1 "_id" = some id ∧
      (identified fields fresh).2 = id.idKey := by
  unfold identified
  cases hid : Entries.get? fields "_id" with
  | some id => exact ⟨id, hid, rfl⟩
  | none => exact ⟨.string fresh.text, Entries.get?_insert_self _ _ _, rfl⟩

theorem Change.of_insert {doc : Value} {fresh : Uuid} {key : String}
    (h : (insert name doc fresh).run c = .ok key c') : Change name c c' := by
  obtain ⟨fields, rfl⟩ := object_of_insert h
  obtain ⟨rfl, hfree, henforce, rfl⟩ := insert_eq_ok_iff.mp h
  obtain ⟨id, hid, hkey⟩ := exists_id_identified fields fresh
  rw [hkey] at hfree ⊢
  exact .inserted hid (Entries.contains_eq_false_iff.mp hfree) henforce

theorem Change.of_update {selector modifier : Value} {upsert : Bool} {fresh : Uuid}
    {outcome : UpdateOutcome} (sorted : Entries.Sorted c.documents)
    (h : (update name selector modifier upsert fresh).run c = .ok outcome c') :
    Change name c c' := by
  cases update_eq_ok_iff.mp h with
  | matched hfound _ hid henforce =>
    -- Under distinct keys the document that was found is the one that is replaced.
    exact .replaced (Entries.get?_of_mem sorted.distinct (mem_of_firstMatch hfound)) hid henforce
  | inserted _ _ _ hinsert => exact .of_insert hinsert
  | unmatched => exact .kept

theorem removed_of_remove {selector : Value} {n : Nat} (h : (remove selector).run c = .ok n c') :
    ∃ stays : String → Bool,
      c' = { c with documents := c.documents.filter fun e => stays e.1 } := by
  obtain ⟨doomed, -, -, rfl⟩ := remove_eq_ok_iff.mp h
  exact ⟨fun key => !Entries.contains doomed key, rfl⟩

theorem Change.of_remove {selector : Value} {n : Nat} (h : (remove selector).run c = .ok n c') :
    Change name c c' := by
  obtain ⟨stays, rfl⟩ := removed_of_remove h
  exact .removed stays

theorem Step.validator_eq (h : Step name c c') : c'.validator = c.validator := by
  cases h <;> rfl

theorem Step.sorted (h : Step name c c') (sorted : Entries.Sorted c.documents) :
    Entries.Sorted c'.documents := by
  cases h with
  | kept => exact sorted
  | stored => exact Entries.sorted_insert sorted _ _
  | removed => exact sorted.sublist List.filter_sublist

theorem validator_eq_of_steps (steps : Relation.ReflTransGen (Step name) c c') :
    c'.validator = c.validator := by
  induction steps with
  | refl => rfl
  | tail _ step ih => exact step.validator_eq.trans ih

theorem sorted_of_steps (steps : Relation.ReflTransGen (Step name) c c')
    (sorted : Entries.Sorted c.documents) : Entries.Sorted c'.documents := by
  induction steps with
  | refl => exact sorted
  | tail _ step ih => exact step.sorted ih

end Collection

namespace Store

variable {s : Store} {name : String}

/-! ## Calls -/

theorem collection_setValidator (s : Store) (name : String) (v : Validator)
    (settings : ValidationSettings) : (s.setValidator name v settings).collection name =
      { s.collection name with validator := some (v, settings) } :=
  s.collection_withCollection name _

theorem collection_setValidator_of_ne (s : Store) {name other : String} (h : name ≠ other)
    (v : Validator) (settings : ValidationSettings) :
    (s.setValidator name v settings).collection other = s.collection other :=
  s.collection_withCollection_of_ne h _

/-- A removal takes documents away, or changes nothing. -/
theorem remove_cases (s : Store) (name : String) (selector : Value) :
    (s.remove name selector).store.collection name = s.collection name ∨
      ∃ stays : String → Bool, (s.remove name selector).store.collection name =
        { s.collection name with
          documents := (s.collection name).documents.filter fun e => stays e.1 } := by
  unfold remove
  cases hget : Entries.get? s.collections name with
  | none => exact .inl rfl
  | some c =>
    rcases s.perform_cases name (Collection.traceless_remove selector) with
      ⟨n, c', hremove, -, hstore⟩ | ⟨-, hstore⟩
    · obtain ⟨stays, rfl⟩ := Collection.removed_of_remove hremove
      exact .inr ⟨stays, hstore⟩
    · exact .inl hstore

/-! ## Histories -/

/-- A call to a store, with all that it is given. -/
inductive Call where
  | setValidator (collection : String) (validator : Validator) (settings : ValidationSettings)
  | insertOne (collection : String) (doc : Value) (fresh : Uuid)
  | updateOne (collection : String) (selector modifier : Value) (upsert : Bool) (fresh : Uuid)
  | find (collection : String) (selector : Value)
  | findOne (collection : String) (selector : Value)
  | remove (collection : String) (selector : Value)

/-- The store that a call leaves behind. -/
def after (s : Store) : Call → Store
  | .setValidator collection validator settings => s.setValidator collection validator settings
  | .insertOne collection doc fresh => (s.insertOne collection doc fresh).store
  | .updateOne collection selector modifier upsert fresh =>
    (s.updateOne collection selector modifier upsert fresh).store
  | .find .. | .findOne .. => s
  | .remove collection selector => (s.remove collection selector).store

/-- The store that a history leaves behind. -/
def run (s : Store) (calls : List Call) : Store := calls.foldl after s

/-- The call attaches a validator to the collection. -/
def Call.Attaches (name : String) : Call → Prop
  | .setValidator collection _ _ => collection = name
  | _ => False

/-- Work on one collection is a change of it, and leaves the others alone. -/
theorem change_perform {α : Type} {work : Collection.Work α} (s : Store) {operated : String}
    (traceless : work.Traceless) (change : operated = name → ∀ answer c,
      work.run (s.collection operated) = .ok answer c →
        Collection.Change operated (s.collection operated) c) :
    Collection.Change name (s.collection name)
      ((s.perform operated work).store.collection name) := by
  by_cases h : operated = name
  · subst h
    rcases s.perform_cases operated traceless with ⟨answer, c, hwork, -, hstore⟩ | ⟨-, hstore⟩
    · rw [hstore]
      exact change rfl answer c hwork
    · rw [hstore]
      exact .kept
  · rw [s.collection_perform_of_ne h]
    exact .kept

/-- A call is a change of each collection that it attaches no validator to. -/
theorem change_after {call : Call} (sorted : Entries.Sorted (s.collection name).documents)
    (keeps : ¬ call.Attaches name) :
    Collection.Change name (s.collection name) ((s.after call).collection name) := by
  cases call with
  | setValidator collection v settings =>
    unfold after
    rw [s.collection_setValidator_of_ne keeps]
    exact .kept
  | insertOne collection doc fresh =>
    exact change_perform s (Collection.traceless_insert _ _ _) fun _ key c h => .of_insert h
  | updateOne collection selector modifier upsert fresh =>
    refine change_perform s (Collection.traceless_update _ _ _ _ _) fun heq outcome c h => ?_
    subst heq
    exact .of_update sorted h
  | find | findOne => exact .kept
  | remove collection selector =>
    unfold after Store.remove
    dsimp only
    cases hget : Entries.get? s.collections collection with
    | none => exact .kept
    | some c =>
      exact change_perform s (Collection.traceless_remove _) fun _ n c' h => .of_remove h

/-- A history is a chain of changes of each collection that it attaches no validator to. -/
theorem changes_run {calls : List Call} (sorted : Entries.Sorted (s.collection name).documents)
    (keep : ∀ call ∈ calls, ¬ call.Attaches name) :
    Relation.ReflTransGen (Collection.Change name) (s.collection name)
      ((s.run calls).collection name) := by
  induction calls generalizing s with
  | nil => exact .refl
  | cons call rest ih =>
    obtain ⟨hcall, hrest⟩ := List.forall_mem_cons.mp keep
    have change := change_after sorted hcall
    exact .head change (ih (change.step.sorted sorted) hrest)

theorem steps_run {calls : List Call} (sorted : Entries.Sorted (s.collection name).documents)
    (keep : ∀ call ∈ calls, ¬ call.Attaches name) :
    Relation.ReflTransGen (Collection.Step name) (s.collection name)
      ((s.run calls).collection name) :=
  Relation.ReflTransGen.mono (fun _ _ => Collection.Change.step) _ _ (changes_run sorted keep)

theorem run_append (s : Store) (before later : List Call) :
    s.run (before ++ later) = (s.run before).run later := List.foldl_append

/-- The documents of a collection are in order after every call, if they were before. -/
theorem sorted_after {call : Call} (sorted : Entries.Sorted (s.collection name).documents) :
    Entries.Sorted ((s.after call).collection name).documents := by
  by_cases h : call.Attaches name
  · cases call with
    | setValidator collection v settings =>
      cases h
      unfold after
      rw [collection_setValidator]
      exact sorted
    | _ => cases h
  · exact (change_after sorted h).step.sorted sorted

/-- In every store that calls lead to, the documents of each collection are in order. -/
theorem sorted_run (calls : List Call) (name : String) :
    Entries.Sorted ((empty.run calls).collection name).documents := by
  have from_sorted (s : Store) (sorted : Entries.Sorted (s.collection name).documents) :
      Entries.Sorted ((s.run calls).collection name).documents := by
    induction calls generalizing s with
    | nil => exact sorted
    | cons call rest ih => exact ih _ (sorted_after sorted)
  exact from_sorted empty List.Pairwise.nil

end Store

end DocSchema

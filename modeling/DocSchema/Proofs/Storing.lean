-- SUMMARY: What an insert and an upsert that inserts do to the store.
import DocSchema.Model.Basic
import DocSchema.Proofs.Payloads
import DocSchema.Proofs.Work

/-!
# Inserting and upserting

An upsert that finds no document assembles one: the fields that the selector
fixes, then `$set`, then `$setOnInsert`. Field names that the house rules allow
are set at the top of the document, so that the result is a build from entries.
An upsert leaves the store that an insert leaves exactly if both documents are
the same.
-/

namespace DocSchema

/-! ## Assembling a document -/

/-- Setting a path of one segment is an insertion. -/
theorem setPath_of_name {name : String} (h : Node.nameRule? name = none) (fields : Entries Value)
    (v : Value) :
    (Value.object fields).setPath name v = .done (.object (Entries.insert fields name v)) := by
  obtain ⟨hempty, hdot, hoperator⟩ := nameRule?_eq_none h
  have heditable : DotPath.editable name = .ok [name] := by
    simp [DotPath.editable, DotPath.segments_of_not_hasDot hdot, hempty, hoperator]
  unfold Value.setPath
  rw [heditable]
  rfl

namespace Apply

theorem payload_of_names (operator : String)
    (sets : ∀ doc path operand, entry true operator doc path operand = doc.setPath path operand)
    {entries : Entries Value} (named : ∀ e ∈ entries, Node.nameRule? e.1 = none)
    (fields : Entries Value) :
    payload true operator (.object fields) entries =
      .done (.object (Entries.insertAll fields entries)) := by
  induction entries generalizing fields with
  | nil => rfl
  | cons e rest ih =>
    obtain ⟨name, v⟩ := e
    obtain ⟨hname, hrest⟩ := List.forall_mem_cons.mp named
    rw [payload, sets, setPath_of_name hname]
    exact ih hrest _

theorem andThen_done (e : Edited) : e.andThen .done = e := by
  obtain ⟨doc, fault⟩ := e
  cases fault <;> rfl

/-- An upsert applies its `$set` and then its `$setOnInsert`, each if there is one. -/
theorem operators_of_put (doc : Value) (set onInsert : Entries Value) :
    operators true doc (Modifier.put (Modifier.put [] "$setOnInsert" onInsert) "$set" set) =
      (payload true "$set" doc set).andThen fun next =>
        payload true "$setOnInsert" next onInsert := by
  cases set with
  | nil =>
    cases onInsert with
    | nil => rfl
    | cons f rest => exact andThen_done _
  | cons e set =>
    cases onInsert with
    | nil => rfl
    | cons f rest =>
      change ((payload true "$set" doc (e :: set)).andThen fun next =>
        (payload true "$setOnInsert" next (f :: rest)).andThen .done) = _
      simp only [andThen_done]

theorem modifier_of_put {set onInsert : Entries Value}
    (hset : ∀ e ∈ set, Node.nameRule? e.1 = none)
    (honInsert : ∀ e ∈ onInsert, Node.nameRule? e.1 = none) (fields : Entries Value) :
    modifier (.object fields)
      (.object (Modifier.put (Modifier.put [] "$setOnInsert" onInsert) "$set" set)) true =
        .done (.object (Entries.insertAll (Entries.insertAll fields set) onInsert)) := by
  rw [modifier, operators_of_put, payload_of_names "$set" (fun _ _ _ => rfl) hset]
  exact payload_of_names "$setOnInsert" (fun _ _ _ => rfl) honInsert _

end Apply

namespace Selector

/-- The selector of a document by its `_id`. -/
def byId (k : Value) : Value := .object [("_id", k)]

/-- A selector by `_id` fixes the `_id`, or nothing if it is an object of operators. -/
theorem equalities_byId (k : Value) :
    equalities (byId k) = [] ∧ isOperators k = true ∨ ∃ v, equalities (byId k) = [("_id", v)] := by
  have hoperator : DotPath.isOperator "_id" = false := by decide
  unfold byId
  rw [equalities, clauseEqualities, clauseEqualities, List.append_nil, if_neg (by decide),
    hoperator, if_neg Bool.false_ne_true]
  by_cases hk : isOperators k = true
  · rw [if_pos hk]
    cases k.field? "$eq" with
    | none => exact .inl ⟨rfl, hk⟩
    | some v => exact .inr ⟨v, rfl⟩
  · rw [if_neg hk]
    exact .inr ⟨k, rfl⟩

theorem sorted_equalities_byId (k : Value) : Entries.Sorted (equalities (byId k)) := by
  rcases equalities_byId k with ⟨h, -⟩ | ⟨v, h⟩
  · rw [h]
    exact List.Pairwise.nil
  · rw [h]
    exact List.pairwise_singleton _ _

theorem get?_equalities_byId {k : Value} {name : String} (h : name ≠ "_id") :
    Entries.get? (equalities (byId k)) name = none := by
  rcases equalities_byId k with ⟨hk, -⟩ | ⟨v, hk⟩
  · rw [hk]
    rfl
  · rw [hk, Entries.get?_cons, if_neg h.symm]
    rfl

theorem isObject_of_isOperators {k : Value} (h : isOperators k = true) : k.isObject = true := by
  cases k with
  | object => rfl
  | _ => cases h

end Selector

namespace Collection

theorem seed_byId (k : Value) :
    seed (Selector.byId k) = .done (.object (Selector.equalities (Selector.byId k))) := by
  unfold seed
  rcases Selector.equalities_byId k with ⟨h, -⟩ | ⟨v, h⟩
  · rw [h]
    rfl
  · have hname : Node.nameRule? "_id" = none := by decide
    rw [h]
    simp only [List.foldl_cons, List.foldl_nil, Edited.andThen, Edited.done, Value.empty]
    rw [setPath_of_name hname]
    rfl

theorem seeded_of_put (k : Value) {set onInsert : Entries Value}
    (hset : ∀ e ∈ set, Node.nameRule? e.1 = none)
    (honInsert : ∀ e ∈ onInsert, Node.nameRule? e.1 = none) :
    seeded (Selector.byId k)
      (.object (Modifier.put (Modifier.put [] "$setOnInsert" onInsert) "$set" set)) =
        .done (.object (Entries.insertAll
          (Entries.insertAll (Selector.equalities (Selector.byId k)) set) onInsert)) := by
  unfold seeded
  rw [seed_byId]
  exact Apply.modifier_of_put hset honInsert _

theorem identified_of_get? {fields : Entries Value} {id : Value}
    (hid : Entries.get? fields "_id" = some id) (fresh : Uuid) :
    identified fields fresh = (fields, id.idKey) := by
  unfold identified
  rw [hid]

theorem get?_identified_of_ne {name : String} (h : name ≠ "_id") (fields : Entries Value)
    (fresh : Uuid) : Entries.get? (identified fields fresh).1 name = Entries.get? fields name := by
  unfold identified
  split
  · rfl
  · exact Entries.get?_insert_of_ne h.symm fields _

/-- A document is stored with its `_id`, if it may be stored. -/
theorem insert_eq_ok_iff {c c' : Collection} {name key : String} {fields : Entries Value}
    {fresh : Uuid} :
    (insert name (.object fields) fresh).run c = .ok key c' ↔
      key = (identified fields fresh).2 ∧ Entries.contains c.documents key = false ∧
        c.enforce name (.object (identified fields fresh).1) none = .ok () ∧
        c' = { c with documents :=
          Entries.insert c.documents key (.object (identified fields fresh).1) } := by
  rw [insert_object, Work.run_get_bind]
  by_cases hcontains : Entries.contains c.documents (identified fields fresh).2 = true
  · rw [if_pos hcontains]
    refine iff_of_false (by rintro ⟨⟩) ?_
    rintro ⟨rfl, habsent, -⟩
    rw [hcontains] at habsent
    cases habsent
  · rw [if_neg hcontains, Work.liftExcept_bind_eq_ok]
    constructor
    · rintro ⟨_, henforce, ⟨⟩⟩
      exact ⟨rfl, Bool.eq_false_iff.mpr hcontains, henforce, rfl⟩
    · rintro ⟨rfl, -, henforce, rfl⟩
      exact ⟨(), henforce, rfl⟩

/-- An insertion fails for its key or for what the validator says. -/
theorem insert_eq_error_iff {c : Collection} {name : String} {fields : Entries Value}
    {fresh : Uuid} {e : StorageError} :
    (insert name (.object fields) fresh).run c = .error e c ↔
      Entries.contains c.documents (identified fields fresh).2 = true ∧
        e = .duplicateKey name (identified fields fresh).2 ∨
      Entries.contains c.documents (identified fields fresh).2 = false ∧
        c.enforce name (.object (identified fields fresh).1) none = .error e := by
  rw [insert_object, Work.run_get_bind]
  by_cases hcontains : Entries.contains c.documents (identified fields fresh).2 = true
  · rw [if_pos hcontains]
    constructor
    · rintro ⟨⟩
      exact .inl ⟨hcontains, rfl⟩
    · rintro (⟨-, rfl⟩ | ⟨habsent, -⟩)
      · rfl
      · rw [hcontains] at habsent
        cases habsent
  · rw [if_neg hcontains, EStateM.run_bind, Work.run_liftExcept]
    have habsent := Bool.eq_false_iff.mpr hcontains
    cases henforce : c.enforce name (.object (identified fields fresh).1) none with
    | ok u =>
      refine iff_of_false (by rintro ⟨⟩) ?_
      rintro (⟨h, -⟩ | ⟨-, ⟨⟩⟩)
      exact hcontains h
    | error e' =>
      constructor
      · rintro ⟨⟩
        exact .inr ⟨habsent, rfl⟩
      · rintro (⟨h, -⟩ | ⟨-, ⟨⟩⟩)
        · exact (hcontains h).elim
        · rfl

theorem ne_of_insert_eq_ok {c c' : Collection} {name key : String} {fields : Entries Value}
    {fresh : Uuid} (h : (insert name (.object fields) fresh).run c = .ok key c') : c' ≠ c := by
  obtain ⟨-, hfree, -, rfl⟩ := insert_eq_ok_iff.mp h
  intro heq
  have hget := congrArg (fun c : Collection => Entries.get? c.documents key) heq
  simp [Entries.contains_eq_false_iff.mp hfree] at hget

/-- Two documents that leave the same collection behind are stored alike. -/
theorem identified_eq_of_insert {c c' : Collection} {name key key' : String} {xs ys : Entries Value}
    {fresh fresh' : Uuid} (hx : (insert name (.object xs) fresh).run c = .ok key c')
    (hy : (insert name (.object ys) fresh').run c = .ok key' c') :
    (identified xs fresh).1 = (identified ys fresh').1 := by
  obtain ⟨-, hfree, -, rfl⟩ := insert_eq_ok_iff.mp hx
  obtain ⟨-, -, -, heq⟩ := insert_eq_ok_iff.mp hy
  have hget := congrArg (fun c : Collection => Entries.get? c.documents key) heq
  simp only [Entries.get?_insert_self, Entries.get?_insert,
    Entries.contains_eq_false_iff.mp hfree] at hget
  split at hget
  · exact Value.object.inj (Option.some.inj hget)
  · cases hget

theorem insertSeeded_eq_ok_iff {c c' : Collection} {name : String} {selector modifier : Value}
    {fresh : Uuid} {outcome : UpdateOutcome} :
    (insertSeeded name selector modifier fresh).run c = .ok outcome c' ↔
      ∃ doc key, seeded selector modifier = .done doc ∧
        (insert name doc fresh).run c = .ok key c' ∧ outcome = ⟨0, 0, some key⟩ := by
  unfold insertSeeded
  rw [Work.edited_bind_eq_ok]
  constructor
  · rintro ⟨doc, hdoc, h⟩
    obtain ⟨key, _, hinsert, ⟨⟩⟩ := Work.bind_eq_ok.mp h
    exact ⟨doc, key, hdoc, hinsert, rfl⟩
  · rintro ⟨doc, key, hdoc, hinsert, rfl⟩
    exact ⟨doc, hdoc, Work.bind_eq_ok.mpr ⟨key, c', hinsert, rfl⟩⟩

/-- Where no document matches, an upsert inserts the document that it assembles. -/
theorem update_of_unmatched {c : Collection} {selector : Value}
    (unmatched : firstMatch selector c.documents = .ok none) (name : String) (modifier : Value)
    (fresh : Uuid) : (update name selector modifier true fresh).run c =
      (insertSeeded name selector modifier fresh).run c := by
  unfold update
  rw [Work.run_get_bind, unmatched]
  rfl

/-- Where no document matches, an upsert leaves the collection that an insert leaves
exactly if it assembles the same document. -/
theorem update_eq_insert_iff {c c' : Collection} {name key : String} {selector modifier : Value}
    {doc fields : Entries Value} {id : Value} {fresh fresh' : Uuid}
    (unmatched : firstMatch selector c.documents = .ok none)
    (inserted : (insert name (.object doc) fresh).run c = .ok key c')
    (identifier : Entries.get? doc "_id" = some id)
    (assembled : seeded selector modifier = .done (.object fields))
    (given : Entries.get? fields "_id" = none → id.isObject = true) :
    (∃ outcome, (update name selector modifier true fresh').run c = .ok outcome c') ↔
      fields = doc := by
  have hupdate (outcome : UpdateOutcome) :
      (update name selector modifier true fresh').run c = .ok outcome c' ↔
        ∃ key', (insert name (.object fields) fresh').run c = .ok key' c' ∧
          outcome = ⟨0, 0, some key'⟩ := by
    rw [update_of_unmatched unmatched, insertSeeded_eq_ok_iff]
    constructor
    · rintro ⟨_, key', hdoc, hinsert, rfl⟩
      cases assembled.symm.trans hdoc
      exact ⟨key', hinsert, rfl⟩
    · rintro ⟨key', hinsert, rfl⟩
      exact ⟨_, key', assembled, hinsert, rfl⟩
  simp only [hupdate]
  constructor
  · rintro ⟨outcome, key', h, -⟩
    have heq := identified_eq_of_insert inserted h
    rw [identified_of_get? identifier] at heq
    cases hget : Entries.get? fields "_id" with
    | some other =>
      rw [identified_of_get? hget] at heq
      exact heq.symm
    | none =>
      -- The identifier that is made up is a string.
      unfold identified at heq
      rw [hget] at heq
      dsimp only at heq
      rw [heq, Entries.get?_insert_self] at identifier
      cases identifier
      cases given hget
  · rintro rfl
    rw [insert_eq_ok_iff, identified_of_get? identifier] at inserted
    exact ⟨⟨0, 0, some key⟩, key, insert_eq_ok_iff.mpr
      (by rw [identified_of_get? identifier]; exact inserted), rfl⟩

end Collection

namespace Store

theorem collection_withCollection (s : Store) (name : String) (c : Collection) :
    (s.withCollection name c).collection name = c := by
  unfold collection withCollection
  rw [Entries.get?_insert_self]
  rfl

theorem collection_withCollection_of_ne (s : Store) {name other : String} (h : name ≠ other)
    (c : Collection) : (s.withCollection name c).collection other = s.collection other := by
  unfold collection withCollection
  rw [Entries.get?_insert_of_ne h]

variable {α : Type} {s : Store} {name : String} {work : Collection.Work α} {answer : α}
  {c : Collection} {e : StorageError}

theorem perform_of_ok (h : work.run (s.collection name) = .ok answer c) :
    s.perform name work = ⟨.ok answer, s.withCollection name c⟩ := by
  rw [perform, h]

theorem perform_of_error (h : work.run (s.collection name) = .error e c) :
    s.perform name work = ⟨.error e, s.withCollection name c⟩ := by
  rw [perform, h]

theorem collection_perform_of_ok (h : work.run (s.collection name) = .ok answer c) :
    (s.perform name work).store.collection name = c := by
  rw [perform_of_ok h]
  exact s.collection_withCollection name c

theorem result_perform_eq_error_iff (traceless : work.Traceless) :
    (s.perform name work).result = .error e ↔
      work.run (s.collection name) = .error e (s.collection name) := by
  cases h : work.run (s.collection name) with
  | ok answer c =>
    rw [perform_of_ok h]
    exact iff_of_false (by rintro ⟨⟩) (by rintro ⟨⟩)
  | error e' c =>
    rw [perform_of_error h, traceless _ _ _ h]
    constructor <;> rintro ⟨⟩ <;> rfl

theorem collection_perform_of_ne (s : Store) {operated name : String} (h : operated ≠ name)
    (work : Collection.Work α) :
    (s.perform operated work).store.collection name = s.collection name := by
  unfold perform
  split
  · exact s.collection_withCollection_of_ne h _
  · exact s.collection_withCollection_of_ne h _

/-- Work that fails leaves all collections as they were. -/
theorem collection_perform_of_error (traceless : work.Traceless)
    (h : work.run (s.collection name) = .error e c) (other : String) :
    (s.perform name work).store.collection other = s.collection other := by
  by_cases hother : name = other
  · subst hother
    rw [perform_of_error h, traceless _ _ _ h]
    exact s.collection_withCollection name _
  · exact s.collection_perform_of_ne hother work

/-- Traceless work comes to its end, or fails and leaves the collection as it was. -/
theorem perform_cases (s : Store) (name : String) (traceless : work.Traceless) :
    (∃ answer c, work.run (s.collection name) = .ok answer c ∧
      (s.perform name work).result = .ok answer ∧
      (s.perform name work).store.collection name = c) ∨
    (∃ e, (s.perform name work).result = .error e) ∧
      (s.perform name work).store.collection name = s.collection name := by
  cases h : work.run (s.collection name) with
  | ok answer c =>
    exact .inl ⟨answer, c, rfl, by rw [perform_of_ok h], collection_perform_of_ok h⟩
  | error e c =>
    exact .inr ⟨⟨e, by rw [perform_of_error h]⟩, collection_perform_of_error traceless h name⟩

end Store

end DocSchema

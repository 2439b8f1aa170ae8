-- SUMMARY: Calls that fail leave no trace, neither in a collection nor in any later answer.
import DocSchema.Proofs.Histories

/-!
# Calls that fail

Every call is work on one collection, and the store keeps what the work leaves
behind. All work is traceless (`Call.traceless_perform`): a modifier that stops half
way, a document that was assembled in vain, a scan that cannot read its selector and
a collection that was created for a call that fails leave nothing behind. `Same`
stores hold the same collections; no history of calls tells them apart.
-/

namespace DocSchema

namespace Store

/-! ## Answers -/

/-- What a call says that comes to its end. -/
inductive Answer where
  | attached
  | inserted (key : String)
  | updated (outcome : UpdateOutcome)
  | found (documents : List Value)
  | foundOne (document : Option Value)
  | removed (count : Nat)

/-- The answer of a call, or its error. -/
def answer (s : Store) : Call → Except StorageError Answer
  | .setValidator .. => .ok .attached
  | .insertOne collection doc fresh => (s.insertOne collection doc fresh).result.map .inserted
  | .updateOne collection selector modifier upsert fresh =>
    (s.updateOne collection selector modifier upsert fresh).result.map .updated
  | .find collection selector => (s.find collection selector).map .found
  | .findOne collection selector => (s.findOne collection selector).map .foundOne
  | .remove collection selector => (s.remove collection selector).result.map .removed

/-- The answers of a history, in order. -/
def answers (s : Store) : List Call → List (Except StorageError Answer)
  | [] => []
  | call :: rest => s.answer call :: (s.after call).answers rest

/-! ## Calls as work on a collection -/

namespace Call

/-- The collection that a call is about. -/
def target : Call → String
  | .setValidator collection .. | .insertOne collection .. | .updateOne collection ..
  | .find collection .. | .findOne collection .. | .remove collection .. => collection

/-- What a call does to the collection that it is about. -/
def perform : Call → Collection.Work Answer
  | .setValidator _ v settings => do
    modify fun c => { c with validator := some (v, settings) }
    return .attached
  | .insertOne name doc fresh => do return .inserted (← Collection.insert name doc fresh)
  | .updateOne name selector modifier upsert fresh => do
    return .updated (← Collection.update name selector modifier upsert fresh)
  | .find _ selector => do
    let c ← get
    return .found (← liftExcept (c.find selector))
  | .findOne _ selector => do
    let c ← get
    return .foundOne (← liftExcept (c.findOne selector))
  | .remove _ selector => do return .removed (← Collection.remove selector)

open Collection Collection.Work

theorem traceless_perform (call : Call) : Traceless call.perform := by
  cases call with
  | setValidator name v settings => exact Succeeds.traceless fun c => ⟨_, _, rfl⟩
  | insertOne name doc fresh => exact (traceless_insert _ _ _).bind fun _ => succeeds_pure _
  | updateOne name selector modifier upsert fresh =>
    exact (traceless_update _ _ _ _ _).bind fun _ => succeeds_pure _
  | find name selector | findOne name selector =>
    exact reads_get.bind fun c => (reads_liftExcept _).bind fun _ => (succeeds_pure _).traceless
  | remove name selector => exact (traceless_remove _).bind fun _ => succeeds_pure _

end Call

/-- The answer and the collection that work has come to. -/
inductive Performed : EStateM.Result StorageError Collection Answer →
    Except StorageError Answer → Collection → Prop where
  | ok (a : Answer) (c : Collection) : Performed (.ok a c) (.ok a) c
  | error (e : StorageError) (c : Collection) : Performed (.error e c) (.error e) c

variable {c c₁ c₂ : Collection} {outcome : EStateM.Result StorageError Collection Answer}

/-- The work decides the answer and the collection. -/
theorem Performed.unique {a b : Except StorageError Answer} (first : Performed outcome a c₁)
    (second : Performed outcome b c₂) : a = b ∧ c₁ = c₂ := by
  cases first with
  | ok => cases second; exact ⟨rfl, rfl⟩
  | error => cases second; exact ⟨rfl, rfl⟩

theorem Performed.eq_error {e : StorageError} (h : Performed outcome (.error e) c) :
    outcome = .error e c := by
  cases h
  rfl

theorem Performed.perform {α : Type} (s : Store) (name : String) (work : Collection.Work α)
    (f : α → Answer) :
    Performed ((do return f (← work) : Collection.Work Answer).run (s.collection name))
      ((s.perform name work).result.map f) ((s.perform name work).store.collection name) := by
  rw [EStateM.run_bind]
  cases h : work.run (s.collection name) with
  | ok a c =>
    rw [perform_of_ok h, s.collection_withCollection name]
    exact .ok _ _
  | error e c =>
    rw [perform_of_error h, s.collection_withCollection name]
    exact .error _ _

theorem Performed.read {α : Type} (c : Collection) (x : Except StorageError α) (f : α → Answer) :
    Performed ((do return f (← liftExcept x) : Collection.Work Answer).run c) (x.map f) c := by
  cases x with
  | ok a => exact .ok _ _
  | error e => exact .error _ _

/-- Every call performs its work on the collection that it is about. A missing
collection takes part as an empty one. -/
theorem performed (s : Store) (call : Call) :
    Performed (call.perform.run (s.collection call.target)) (s.answer call)
      ((s.after call).collection call.target) := by
  cases call with
  | setValidator name v settings =>
    change Performed _ _ ((s.setValidator name v settings).collection name)
    rw [s.collection_setValidator]
    exact .ok _ _
  | insertOne name doc fresh => exact .perform s name (Collection.insert name doc fresh) .inserted
  | updateOne name selector modifier upsert fresh =>
    exact .perform s name (Collection.update name selector modifier upsert fresh) .updated
  | find name selector => exact .read _ ((s.collection name).find selector) .found
  | findOne name selector => exact .read _ ((s.collection name).findOne selector) .foundOne
  | remove name selector =>
    unfold answer after Call.target Store.remove
    dsimp only
    cases hget : Entries.get? s.collections name with
    | none =>
      have hempty : s.collection name = .empty := by
        unfold collection
        rw [hget]
        rfl
      rw [hempty]
      exact .ok (.removed 0) .empty
    | some c => exact .perform s name (Collection.remove selector) .removed

/-- The other collections stay as they are. -/
theorem collection_after_of_ne (s : Store) {call : Call} {name : String} (h : name ≠ call.target) :
    (s.after call).collection name = s.collection name := by
  cases call with
  | setValidator collection v settings => exact s.collection_setValidator_of_ne h.symm v settings
  | insertOne collection doc fresh => exact s.collection_perform_of_ne h.symm _
  | updateOne collection selector modifier upsert fresh =>
    exact s.collection_perform_of_ne h.symm _
  | find | findOne => rfl
  | remove collection selector =>
    unfold after Store.remove
    dsimp only
    cases Entries.get? s.collections collection with
    | none => rfl
    | some c => exact s.collection_perform_of_ne h.symm _

/-! ## Stores that hold the same -/

/-- The collections of two stores have the same documents and validators. -/
def Same (s t : Store) : Prop := ∀ name, s.collection name = t.collection name

variable {s t : Store}

/-- One call gives the same answer in both stores, and leaves the same behind. -/
theorem Same.step (same : Same s t) (call : Call) :
    s.answer call = t.answer call ∧ Same (s.after call) (t.after call) := by
  have hs := s.performed call
  have ht := t.performed call
  rw [← same call.target] at ht
  obtain ⟨hanswer, htarget⟩ := hs.unique ht
  refine ⟨hanswer, fun name => ?_⟩
  by_cases h : name = call.target
  · rw [h]
    exact htarget
  · rw [s.collection_after_of_ne h, t.collection_after_of_ne h]
    exact same name

/-- No history tells the stores apart. -/
theorem Same.run (same : Same s t) (calls : List Call) :
    s.answers calls = t.answers calls ∧ Same (s.run calls) (t.run calls) := by
  induction calls generalizing s t with
  | nil => exact ⟨rfl, same⟩
  | cons call rest ih =>
    obtain ⟨hanswer, hafter⟩ := same.step call
    obtain ⟨hrest, hrun⟩ := ih hafter
    refine ⟨?_, hrun⟩
    unfold answers
    rw [hanswer, hrest]

/-- A call that fails leaves every collection as it was. -/
theorem same_of_failed {call : Call} {e : StorageError} (failed : s.answer call = .error e) :
    Same (s.after call) s := by
  intro name
  by_cases h : name = call.target
  · have hs := s.performed call
    rw [failed] at hs
    rw [h]
    exact call.traceless_perform _ _ _ hs.eq_error
  · exact s.collection_after_of_ne h

/-- Whatever the call and its error, every collection has the documents and the
validator that it had, and every history that follows gives the answers and leaves
the collections of a history without the call. -/
theorem failed_call_leaves_no_trace (s : Store) (call : Call) (e : StorageError)
    (failed : s.answer call = .error e) :
    (∀ name, ((s.after call).collection name).documents = (s.collection name).documents ∧
      ((s.after call).collection name).validator = (s.collection name).validator) ∧
    ∀ later, (s.after call).answers later = s.answers later ∧
      ∀ name, ((s.after call).run later).collection name = (s.run later).collection name := by
  have same := same_of_failed failed
  refine ⟨fun name => ?_, same.run⟩
  rw [same name]
  exact ⟨rfl, rfl⟩

/-- A counter beside a field that is renamed. -/
def counted : Value := .object [("_id", .string "a"), ("n", .number (.int 1)), ("x", .string "y")]

/-- The counter goes up and the field is taken from its place before its new name
is refused. -/
def countAndRename : Value :=
  .object [("$inc", .object [("n", .number (.int 1))]), ("$rename", .object [("x", .string "$x")])]

def countedStore : Store := ⟨[("counters", ⟨[("a", counted)], none⟩)]⟩

/-- The document that the modifier stops at has the counter raised and lacks the field. -/
theorem half_of_countAndRename : Apply.modifier counted countAndRename false =
    .failed (.object [("_id", .string "a"), ("n", .number (.int 2))]) (.positional "$x") := rfl

/-- The document in the store has neither change. -/
theorem half_update_leaves_no_trace :
    countedStore.answer (.updateOne "counters" (.string "a") countAndRename false default) =
      .error (.modifier (.positional "$x")) ∧
    ((countedStore.after (.updateOne "counters" (.string "a") countAndRename false
      default)).collection "counters").documents = [("a", counted)] := by
  have hfound : Collection.firstMatch (.string "a") [("a", counted)] =
      .ok (some ("a", counted)) := by
    rw [Collection.firstMatch, Selector.selects]
    rfl
  have hupdate : (Collection.update "counters" (.string "a") countAndRename false default).run
      (countedStore.collection "counters") =
        .error (.modifier (.positional "$x")) (countedStore.collection "counters") := by
    unfold Collection.update
    rw [Collection.Work.run_get_bind]
    change EStateM.run (liftExcept (Collection.firstMatch _ [("a", counted)]) >>= _) _ = _
    rw [hfound]
    change (Collection.replace "counters" "a" counted countAndRename).run _ = _
    unfold Collection.replace
    rw [half_of_countAndRename]
    rfl
  have hfailed : countedStore.answer (.updateOne "counters" (.string "a") countAndRename false
      default) = .error (.modifier (.positional "$x")) := by
    rw [answer, updateOne, perform_of_error hupdate]
    rfl
  exact ⟨hfailed, ((failed_call_leaves_no_trace countedStore _ _ hfailed).1 "counters").1⟩

end Store

end DocSchema

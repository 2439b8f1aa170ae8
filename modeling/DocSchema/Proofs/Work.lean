-- SUMMARY: Work on a collection: its steps where it succeeds, and that it changes nothing where it fails.
import DocSchema.Proofs.Entries
import DocSchema.Proofs.Outcome
import DocSchema.Store.Collection

/-!
# Work on collections

A step of work goes on from the collection that the step before it left. Success is
read off as the results of the steps (`Work.bind_eq_ok`). That failed work has changed
nothing depends on the order of its steps: those that may fail only read (`Reads`), and
those that change the collection do not fail (`Succeeds`). A chain of the first sort and
then the second is `Traceless`, and every operation on a collection is such a chain.
-/

namespace DocSchema

theorem Edited.result_eq_ok_iff {e : Edited} {doc : Value} :
    e.result = .ok doc ↔ e = .done doc := by
  obtain ⟨d, fault⟩ := e
  cases fault <;> simp [result, done]

namespace Collection

namespace Work

variable {α β : Type} {w : Work α} {f : α → Work β} {x : Except StorageError α} {a : α} {b : β}
  {c c' : Collection} {e : StorageError}

/-! ## Steps -/

theorem bind_eq_ok :
    (w >>= f).run c = .ok b c' ↔ ∃ a c₁, w.run c = .ok a c₁ ∧ (f a).run c₁ = .ok b c' := by
  rw [EStateM.run_bind]
  cases w.run c with
  | ok a c₁ => exact ⟨fun h => ⟨a, c₁, rfl, h⟩, by rintro ⟨_, _, ⟨⟩, h⟩; exact h⟩
  | error e c₁ => exact iff_of_false (by rintro ⟨⟩) (by rintro ⟨_, _, ⟨⟩, -⟩)

theorem bind_eq_error : (w >>= f).run c = .error e c' ↔
    w.run c = .error e c' ∨ ∃ a c₁, w.run c = .ok a c₁ ∧ (f a).run c₁ = .error e c' := by
  rw [EStateM.run_bind]
  cases w.run c with
  | ok a c₁ =>
    constructor
    · exact fun h => .inr ⟨a, c₁, rfl, h⟩
    · rintro (h | ⟨_, _, ⟨⟩, h⟩)
      · cases h
      · exact h
  | error e' c₁ =>
    constructor
    · rintro ⟨⟩
      exact .inl rfl
    · rintro (h | ⟨_, _, h, -⟩)
      · cases h
        rfl
      · cases h

theorem run_get_bind {f : Collection → Work β} : (get >>= f).run c = (f c).run c := rfl

theorem run_liftExcept (x : Except StorageError α) (c : Collection) :
    (liftExcept x : Work α).run c = match x with
      | .ok a => .ok a c
      | .error e => .error e c := by
  cases x <;> rfl

/-- A step that reads and the rest go on from the same collection. -/
theorem liftExcept_bind_eq_ok :
    (liftExcept x >>= f).run c = .ok b c' ↔ ∃ a, x = .ok a ∧ (f a).run c = .ok b c' := by
  rw [EStateM.run_bind, run_liftExcept]
  cases x with
  | ok a => exact ⟨fun h => ⟨a, rfl, h⟩, by rintro ⟨_, ⟨⟩, h⟩; exact h⟩
  | error e => exact iff_of_false (by rintro ⟨⟩) (by rintro ⟨_, ⟨⟩, -⟩)

/-- Work with the result of an edit needs the edit to come to its end. -/
theorem edited_bind_eq_ok {edited : Edited} {f : Value → Work β} :
    (liftExcept (edited.result.mapError StorageError.modifier) >>= f).run c = .ok b c' ↔
      ∃ doc, edited = .done doc ∧ (f doc).run c = .ok b c' := by
  simp only [liftExcept_bind_eq_ok, Outcome.mapError_eq_ok, Edited.result_eq_ok_iff]

/-! ## Failures -/

/-- The work changes nothing. -/
structure Reads (w : Work α) : Prop where
  of_ok : ∀ c a c', w.run c = .ok a c' → c' = c
  of_error : ∀ c e c', w.run c = .error e c' → c' = c

/-- The work does not fail. -/
def Succeeds (w : Work α) : Prop := ∀ c, ∃ a c', w.run c = .ok a c'

/-- Where the work fails it has changed nothing. -/
def Traceless (w : Work α) : Prop := ∀ c e c', w.run c = .error e c' → c' = c

theorem reads_get : Reads (get : Work Collection) :=
  ⟨by rintro c _ _ ⟨⟩; rfl, by rintro c _ _ ⟨⟩⟩

theorem reads_liftExcept (x : Except StorageError α) : Reads (liftExcept x : Work α) := by
  constructor
  · intro c a c' h
    rw [run_liftExcept] at h
    cases x <;> cases h
    rfl
  · intro c e c' h
    rw [run_liftExcept] at h
    cases x <;> cases h
    rfl

theorem succeeds_pure (a : α) : Succeeds (pure a : Work α) := fun c => ⟨a, c, rfl⟩

theorem succeeds_put (key : String) (doc : Value) : Succeeds (put key doc) := fun _ => ⟨(), _, rfl⟩

theorem succeeds_discard (key : String) : Succeeds (discard key) := fun _ => ⟨(), _, rfl⟩

theorem Succeeds.bind (hw : Succeeds w) (hf : ∀ a, Succeeds (f a)) : Succeeds (w >>= f) := by
  intro c
  obtain ⟨a, c₁, hc⟩ := hw c
  obtain ⟨b, c₂, hc₁⟩ := hf a c₁
  exact ⟨b, c₂, bind_eq_ok.mpr ⟨a, c₁, hc, hc₁⟩⟩

theorem Succeeds.forM {ι : Type} {step : ι → Work Unit} (h : ∀ i, Succeeds (step i))
    (list : List ι) : Succeeds (list.forM step) := by
  induction list with
  | nil => exact succeeds_pure ()
  | cons i rest ih => exact (h i).bind fun _ => ih

theorem traceless_throw (e : StorageError) : Traceless (throw e : Work α) := by
  rintro c _ _ ⟨⟩
  rfl

theorem Succeeds.traceless (h : Succeeds w) : Traceless w := by
  intro c e c' herror
  obtain ⟨a, c₁, hok⟩ := h c
  rw [hok] at herror
  cases herror

/-- A step that reads leaves to the rest what there was. -/
theorem Reads.bind (hw : Reads w) (hf : ∀ a, Traceless (f a)) : Traceless (w >>= f) := by
  intro c e c' h
  rcases bind_eq_error.mp h with h | ⟨a, c₁, hok, h⟩
  · exact hw.of_error c e c' h
  · rw [hf a c₁ e c' h, hw.of_ok c a c₁ hok]

/-- What the first step changed would stay if a later one failed. -/
theorem Traceless.bind (hw : Traceless w) (hf : ∀ a, Succeeds (f a)) : Traceless (w >>= f) := by
  intro c e c' h
  rcases bind_eq_error.mp h with h | ⟨a, c₁, -, h⟩
  · exact hw c e c' h
  · obtain ⟨b, c₂, hok⟩ := hf a c₁
    rw [hok] at h
    cases h

end Work

open Work

/-! ## Operations -/

theorem insert_object (name : String) (fields : Entries Value) (fresh : Uuid) :
    insert name (.object fields) fresh = do
      let c ← get
      if Entries.contains c.documents (identified fields fresh).2 then
        throw (.duplicateKey name (identified fields fresh).2)
      else
        liftExcept (c.enforce name (.object (identified fields fresh).1) none)
        put (identified fields fresh).2 (.object (identified fields fresh).1)
        return (identified fields fresh).2 := rfl

theorem traceless_insert (name : String) (doc : Value) (fresh : Uuid) :
    Traceless (insert name doc fresh) := by
  cases doc with
  | object fields =>
    rw [insert_object]
    refine reads_get.bind fun c => ?_
    split
    · exact traceless_throw _
    · refine (reads_liftExcept _).bind fun _ => ?_
      exact ((succeeds_put _ _).bind fun _ => succeeds_pure _).traceless
  | _ => exact traceless_throw _

theorem traceless_replace (name key : String) (current modifier : Value) :
    Traceless (replace name key current modifier) := by
  refine (reads_liftExcept _).bind fun next => ?_
  split
  · refine reads_get.bind fun c => (reads_liftExcept _).bind fun _ => ?_
    exact ((succeeds_put _ _).bind fun _ => succeeds_pure _).traceless
  · exact traceless_throw _

theorem traceless_insertSeeded (name : String) (selector modifier : Value) (fresh : Uuid) :
    Traceless (insertSeeded name selector modifier fresh) :=
  (reads_liftExcept _).bind fun doc =>
    (traceless_insert name doc fresh).bind fun _ => succeeds_pure _

theorem traceless_update (name : String) (selector modifier : Value) (upsert : Bool)
    (fresh : Uuid) : Traceless (update name selector modifier upsert fresh) := by
  refine reads_get.bind fun c => (reads_liftExcept _).bind fun found => ?_
  split
  · exact traceless_replace _ _ _ _
  · split
    · exact traceless_insertSeeded _ _ _ _
    · exact (succeeds_pure _).traceless

theorem traceless_remove (selector : Value) : Traceless (remove selector) := by
  refine reads_get.bind fun c => (reads_liftExcept _).bind fun doomed => ?_
  exact ((Succeeds.forM (fun e => succeeds_discard _) doomed).bind fun _ =>
    succeeds_pure _).traceless

/-- Taking documents away one by one leaves those whose keys are not named. -/
theorem run_forM_discard (doomed : Entries Value) (c : Collection) :
    (doomed.forM fun e => discard e.1).run c =
      .ok () { c with documents := c.documents.filter fun e => !Entries.contains doomed e.1 } := by
  induction doomed generalizing c with
  | nil =>
    have hall : (c.documents.filter fun e => !Entries.contains ([] : Entries Value) e.1) =
        c.documents := List.filter_eq_self.mpr fun _ _ => rfl
    rw [hall]
    rfl
  | cons e rest ih =>
    obtain ⟨key, doc⟩ := e
    have hkeys : (Entries.erase c.documents key).filter (fun e => !Entries.contains rest e.1) =
        c.documents.filter fun e => !Entries.contains ((key, doc) :: rest) e.1 := by
      rw [Entries.erase, List.filter_filter]
      refine List.filter_congr fun e _ => ?_
      rw [Entries.contains, Entries.contains, Entries.get?_cons]
      by_cases h : key = e.1
      · simp [h]
      · simp [h, Ne.symm h]
    rw [← hkeys]
    exact ih { c with documents := Entries.erase c.documents key }

end Collection

end DocSchema

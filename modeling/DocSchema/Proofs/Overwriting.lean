-- SUMMARY: What stands at the end of a path after a write there, and what a second write makes of it.
import DocSchema.Proofs.PathWrites

/-!
# Overwriting

A value that is set at a path is found there, and one that is set there later takes its
place. So the edits that first look for something and then replace it, and the change of
an array that is perhaps to be created first, come to the same as setting the new value.
-/

namespace DocSchema

namespace Value

variable {v v' doc child old new x y : Value} {segment path : String} {p rest : List String}

/-! ## One segment -/

/-- What a write below a segment goes on with: what stands there, or an empty object. -/
def under (v : Value) (segment : String) : Value :=
  match v with
  | .object fields => (Entries.get? fields segment).getD .empty
  | .array items => ((DotPath.index? segment).map (elementOrEmpty items)).getD .empty
  | _ => .empty

theorem elementOrEmpty_of_container {items : List Value} {i : Nat} (h : items[i]? = some child)
    (container : child.isScalar = false) : elementOrEmpty items i = child := by
  rw [elementOrEmpty, h]
  cases child with
  | null => cases container
  | _ => rfl

/-- What a path leads into is a container. -/
theorem isScalar_of_walk? (h : v.walk? (segment :: rest) = some old) : v.isScalar = false := by
  cases v with
  | object | array => rfl
  | _ => cases h

theorem setOrAppend_setOrAppend {items : List Value} {i : Nat} (h : i ≤ items.length) :
    setOrAppend (setOrAppend items i x) i y = setOrAppend items i y := by
  unfold setOrAppend
  by_cases hlt : i < items.length
  · simp [hlt]
  · obtain rfl : i = items.length := by omega
    simp

/-! ## Setting -/

/-- A write below a segment is a write into what stands there, which is then put back. -/
theorem setAt_cons_eq_done_iff : setAt path new (segment :: rest) v = .done v' ↔
    ∃ w, setAt path new rest (v.under segment) = .done w ∧ Puts segment w v v' := by
  cases v with
  | object fields =>
    rw [setAt, under]
    constructor
    · intro h
      obtain ⟨rfl, hfault⟩ := Edited.mk.inj h
      exact ⟨_, congrArg (Edited.mk _) hfault, .entry fields⟩
    · rintro ⟨w, hw, ⟨⟩⟩
      rw [hw]
      rfl
  | array items =>
    rw [setAt, under]
    cases hi : DotPath.index? segment with
    | none =>
      refine iff_of_false (by rintro ⟨⟩) ?_
      rintro ⟨w, -, puts⟩
      cases puts with
      | element hi' => cases hi.symm.trans hi'
    | some i =>
      dsimp only [Option.map_some, Option.getD_some]
      constructor
      · intro h
        split at h
        · next hbound =>
          obtain ⟨rfl, hfault⟩ := Edited.mk.inj h
          exact ⟨_, congrArg (Edited.mk _) hfault, .element hi hbound⟩
        · cases h
      · rintro ⟨w, hw, puts⟩
        cases puts with
        | element hi' hbound =>
          cases hi.symm.trans hi'
          rw [if_pos hbound, hw]
          rfl
  | _ =>
    refine iff_of_false ?_ (by rintro ⟨w, -, ⟨⟩⟩)
    cases rest <;> rintro ⟨⟩

/-- A value that was set at a path is found there. -/
theorem walk?_of_setAt (h : setAt path new p v = .done v') : v'.walk? p = some new := by
  induction p generalizing v v' with
  | nil =>
    cases h
    rfl
  | cons segment rest ih =>
    obtain ⟨w, hw, puts⟩ := setAt_cons_eq_done_iff.mp h
    rw [walk?_cons, puts.walk?_self, Option.bind_some, ih hw]

theorem lookup?_of_setPath (h : doc.setPath path new = .done v') : v'.lookup? path = some new :=
  walk?_of_setAt (setAt_of_setPath h).2

/-- Of two values that are set at one path the later one stays. -/
theorem setAt_of_setAt (h : setAt path x p v = .done v') :
    setAt path y p v' = setAt path y p v := by
  induction p generalizing v v' with
  | nil => rfl
  | cons segment rest ih =>
    cases v with
    | object fields =>
      rw [setAt] at h
      obtain ⟨rfl, hfault⟩ := Edited.mk.inj h
      rw [setAt, setAt, Entries.get?_insert_self, Option.getD_some, Entries.insert_insert,
        ih (congrArg (Edited.mk _) hfault)]
    | array items =>
      obtain ⟨w, hw, puts⟩ := setAt_cons_eq_done_iff.mp h
      obtain - | ⟨hi, hbound⟩ := puts
      rename_i i
      have hbelow : setAt path y rest (elementOrEmpty (setOrAppend items i w) i) =
          setAt path y rest (elementOrEmpty items i) := by
        cases rest with
        | nil => rfl
        | cons next more =>
          rw [under, hi, Option.map_some, Option.getD_some] at hw
          have hcontainer : w.isScalar = false := by
            obtain ⟨_, -, below⟩ := setAt_cons_eq_done_iff.mp hw
            exact below.isScalar
          rw [elementOrEmpty_of_container _ hcontainer, ih hw]
          rw [getElem?_setOrAppend hbound, if_pos rfl]
      have hlength : i ≤ (setOrAppend items i w).length := by
        unfold setOrAppend
        split <;> simp <;> omega
      rw [setAt, setAt, hi]
      dsimp only
      rw [if_pos hlength, if_pos hbound, hbelow, setOrAppend_setOrAppend hbound]
    | _ =>
      cases rest <;> cases h

theorem setPath_setPath (h : doc.setPath path x = .done v') :
    v'.setPath path y = doc.setPath path y := by
  unfold setPath at h ⊢
  cases hparts : DotPath.editable path with
  | error fault =>
    rw [hparts] at h
    cases h
  | ok parts =>
    rw [hparts] at h
    exact setAt_of_setAt h

/-- Whether a path can be set, and how far a write gets, does not depend on the value. -/
theorem setAt_of_fault {fault : ApplyFault} (h : (setAt path x p v).fault = some fault) :
    setAt path y p v = setAt path x p v := by
  induction p generalizing v with
  | nil => cases h
  | cons segment rest ih =>
    cases v with
    | object fields =>
      rw [setAt] at h
      rw [setAt, setAt, ih h]
    | array items =>
      rw [setAt] at h
      rw [setAt, setAt]
      cases hi : DotPath.index? segment with
      | none => rfl
      | some i =>
        rw [hi] at h
        dsimp only at h ⊢
        split
        · next hbound =>
          rw [if_pos hbound] at h
          rw [ih h]
        · rfl
    | _ => cases rest <;> rfl

/-! ## Replacing -/

/-- Replacing what stands at a path is setting it. -/
theorem setAt_of_walk? (h : v.walk? p = some old) :
    setAt path new p v = .done (replaceAt new p v) := by
  induction p generalizing v with
  | nil => rfl
  | cons segment rest ih =>
    rw [walk?_cons] at h
    obtain ⟨child, hchild, hrest⟩ := Option.bind_eq_some_iff.mp h
    cases v with
    | object fields =>
      rw [walk?_object] at hchild
      rw [setAt, replaceAt, hchild, Option.getD_some, ih hrest]
      rfl
    | array items =>
      rw [walk?_array] at hchild
      obtain ⟨i, hi, hget⟩ := Option.bind_eq_some_iff.mp hchild
      have hlt : i < items.length := (List.getElem?_eq_some_iff.mp hget).1
      have hbelow : setAt path new rest (elementOrEmpty items i) =
          .done (replaceAt new rest child) := by
        cases rest with
        | nil => rfl
        | cons next more =>
          rw [elementOrEmpty_of_container hget (isScalar_of_walk? hrest), ih hrest]
      rw [setAt, replaceAt, hi]
      simp only [Option.bind_some, hget, Option.map_some]
      rw [if_pos (Nat.le_of_lt hlt), hbelow, setOrAppend, if_pos hlt]
      rfl
    | _ => cases hchild

/-- What stands at a path that an edit can follow can be set. -/
theorem exists_setPath_of_lookup? (edited : DotPath.editable path = .ok (DotPath.segments path))
    (found : doc.lookup? path = some old) (new : Value) :
    ∃ after, doc.setPath path new = .done after := by
  rw [setPath, edited]
  exact ⟨_, setAt_of_walk? found⟩

/-! ## Changing arrays -/

variable {change : List Value → List Value} {items : List Value}

/-- The items that a change of the array at a path starts from. -/
def Holds (doc : Value) (path : String) (items : List Value) : Prop :=
  doc.lookup? path = some (.array items) ∨ doc.lookup? path = none ∧ items = []

theorem changeArrayAt_eq_setAt (h : doc.walk? p = some (.array items)) :
    changeArrayAt path change p doc = setAt path (.array (change items)) p doc := by
  rw [changeArrayAt, h, setAt_of_walk? h]

/-- Changing an array, which perhaps is created first, is setting the changed one. -/
theorem changeArray_eq_setPath (edited : DotPath.editable path = .ok p)
    (holds : doc.Holds path items) :
    doc.changeArray path change = doc.setPath path (.array (change items)) := by
  have hset (v : Value) : doc.setPath path v = setAt path v p doc := by rw [setPath, edited]
  have hsegments := DotPath.eq_segments_of_editable edited
  unfold changeArray
  rw [edited, hset]
  dsimp only
  rcases holds with hitems | ⟨hnone, rfl⟩
  · have hwalk : doc.walk? p = some (.array items) := by rwa [hsegments]
    rw [hitems, if_neg (by simp)]
    exact (changeArrayAt_eq_setAt hwalk).trans (hset _).symm
  · rw [hnone, Option.isNone_none, if_pos rfl, hset]
    generalize hmid : setAt path (.array []) p doc = mid
    obtain ⟨next, fault⟩ := mid
    cases fault with
    | some fault => exact hmid.symm.trans (setAt_of_fault (by rw [hmid])).symm
    | none => exact (changeArrayAt_eq_setAt (walk?_of_setAt hmid)).trans (setAt_of_setAt hmid)

/-- Nothing is changed at a path that no edit can follow. -/
theorem changeArray_of_not_editable {fault : ApplyFault}
    (refused : DotPath.editable path = .error fault) :
    doc.changeArray path change = .failed doc fault := by
  unfold changeArray setPath
  rw [refused]
  cases doc.lookup? path <;> rfl

/-- What is there and is no array is not changed. -/
theorem changeArray_of_other (h : doc.lookup? path = some old) (other : old.isArray = false) :
    ∃ fault, doc.changeArray path change = .failed doc fault := by
  unfold changeArray
  rw [h, if_neg (by simp)]
  dsimp only [Edited.andThen, Edited.done]
  cases hparts : DotPath.editable path with
  | error fault => exact ⟨fault, rfl⟩
  | ok parts =>
    have hwalk : doc.walk? parts = some old := by rwa [DotPath.eq_segments_of_editable hparts]
    refine ⟨.notArray path, ?_⟩
    dsimp only
    rw [changeArrayAt, hwalk]
    cases old with
    | array => cases other
    | _ => rfl

end Value

end DocSchema

-- SUMMARY: A failed edit changes nothing, and a write at a path leaves other paths alone.
import DocSchema.Proofs.Independence
import DocSchema.Proofs.Seeding

/-!
# Atomicity of edits

Setting a path creates objects on its way before it is known whether the way can be gone
to its end. But what is created is an empty object, into which any path can be set, so a
fault means that nothing has been created yet. A write that comes to its end is found at
its path, and is not seen at any path that parts from it.
-/

namespace DocSchema

namespace Value

/-! ## Paths that part -/

/-- Two segments lead to different parts of what stands at a place: to different elements
of an array, and to differently named entries of anything else, also of what is missing. -/
def PartsAt : Option Value → String → String → Prop
  | some (.array _), segment, other => DotPath.index? segment ≠ DotPath.index? other
  | _, segment, other => segment ≠ other

/-- Two paths go together to some place in a document and part there. -/
def Diverge (doc : Value) (p q : List String) : Prop :=
  ∃ common segment other rest more, p = common ++ segment :: rest ∧ q = common ++ other :: more ∧
    PartsAt (doc.walk? common) segment other

variable {v v' w new doc : Value} {place : Option Value} {segment other path : String}
  {p rest more common : List String}

theorem partsAt_array_iff {items : List Value} : PartsAt (some (.array items)) segment other ↔
    DotPath.index? segment ≠ DotPath.index? other := Iff.rfl

theorem partsAt_iff_of_not_array (h : ∀ items, place ≠ some (.array items)) :
    PartsAt place segment other ↔ segment ≠ other := by
  unfold PartsAt
  split
  · next items => exact (h items rfl).elim
  · exact Iff.rfl

theorem PartsAt.ne (h : PartsAt place segment other) : segment ≠ other := by
  rintro rfl
  unfold PartsAt at h
  split at h <;> exact h rfl

/-- What parts at a place parts in what an edit finds or creates there. -/
theorem PartsAt.under (h : PartsAt (v.walk? [path]) segment other) :
    PartsAt (some (v.under path)) segment other := by
  by_cases harray : ∃ items, v.under path = .array items
  · obtain ⟨items, hitems⟩ := harray
    rwa [hitems, ← walk?_of_under_eq_array hitems]
  · refine (partsAt_iff_of_not_array fun items heq => harray ⟨items, ?_⟩).mpr h.ne
    exact Option.some.inj heq

/-! ## A write is not seen elsewhere -/

theorem Puts.walk?_of_partsAt (h : Puts segment w v v') (parts : PartsAt (some v) segment other) :
    v'.walk? [other] = v.walk? [other] := by
  refine h.walk?_other parts.ne fun harray i hi hj => ?_
  cases v with
  | array items => exact partsAt_array_iff.mp parts (hi.trans hj.symm)
  | _ => cases harray

/-- By induction on the way that the paths have in common. -/
theorem walk?_of_setAt_apart (h : setAt path new (common ++ segment :: rest) v = .done v')
    (parts : PartsAt (v.walk? common) segment other) :
    v'.walk? (common ++ other :: more) = v.walk? (common ++ other :: more) := by
  induction common generalizing v v' with
  | nil =>
    obtain ⟨w, -, puts⟩ := setAt_cons_eq_done_iff.mp h
    rw [List.nil_append, walk?_cons, puts.walk?_of_partsAt parts, ← walk?_cons]
  | cons first common ih =>
    obtain ⟨w, hw, puts⟩ := setAt_cons_eq_done_iff.mp h
    have hparts : PartsAt ((v.under first).walk? common) segment other := by
      cases common with
      | nil => exact parts.under
      | cons next others => rwa [← walk?_under (List.cons_ne_nil next others)]
    have hbelow : w.walk? (common ++ other :: more) =
        (v.under first).walk? (common ++ other :: more) := ih hw hparts
    rw [List.cons_append, walk?_cons, puts.walk?_self, Option.bind_some, hbelow, walk?_under]
    simp

theorem lookup?_of_setPath_apart {q : String} (h : doc.setPath path new = .done v')
    (diverge : doc.Diverge (DotPath.segments path) (DotPath.segments q)) :
    v'.lookup? q = doc.lookup? q := by
  obtain ⟨common, segment, other, rest, more, hp, hq, parts⟩ := diverge
  have hset := (setAt_of_setPath h).2
  rw [hp] at hset
  rw [lookup?, lookup?, hq]
  exact walk?_of_setAt_apart hset parts

/-! ## A fault leaves no trace -/

theorem fault_setAt_empty (path : String) (new : Value) (p : List String) :
    (setAt path new p .empty).fault = none := ((open_empty p).setAt path new).1

/-- An edit goes on with an element as it is, or with what it creates in its place. -/
theorem elementOrEmpty_cases (items : List Value) (i : Nat) :
    elementOrEmpty items i = .empty ∨ items[i]? = some (elementOrEmpty items i) := by
  unfold elementOrEmpty
  cases items[i]? with
  | none => exact .inl rfl
  | some v =>
    cases v with
    | null => exact .inl rfl
    | _ => exact .inr rfl

theorem setOrAppend_of_getElem? {items : List Value} {i : Nat} (h : items[i]? = some v) :
    setOrAppend items i v = items := by
  obtain ⟨hlt, rfl⟩ := List.getElem?_eq_some_iff.mp h
  rw [setOrAppend, if_pos hlt, List.set_getElem_self]

/-- A write that ends in a fault has changed nothing: what it creates on its way is empty,
and no write into what is empty fails. -/
theorem doc_setAt_of_fault {fault : ApplyFault} (ordered : v.Ordered)
    (h : (setAt path new p v).fault = some fault) : (setAt path new p v).doc = v := by
  induction p generalizing v with
  | nil => cases h
  | cons segment rest ih =>
    cases v with
    | object fields =>
      rw [setAt] at h ⊢
      cases hchild : Entries.get? fields segment with
      | none =>
        rw [hchild, Option.getD_none, fault_setAt_empty] at h
        cases h
      | some child =>
        rw [hchild, Option.getD_some] at h
        have hbelow : (setAt path new rest child).doc = child :=
          ih (ordered_of_mem_fields ordered (Entries.mem_of_get? hchild)) h
        rw [Option.getD_some, hbelow,
          Entries.insert_of_get? (ordered_object_iff.mp ordered).1 hchild]
    | array items =>
      rw [setAt] at h ⊢
      cases hi : DotPath.index? segment with
      | none => rfl
      | some i =>
        rw [hi] at h
        dsimp only at h ⊢
        split
        · next hbound =>
          rw [if_pos hbound] at h
          dsimp only at h ⊢
          rcases elementOrEmpty_cases items i with hempty | hget
          · rw [hempty, fault_setAt_empty] at h
            cases h
          · rw [ih (ordered_of_mem ordered (List.mem_of_getElem? hget)) h,
              setOrAppend_of_getElem? hget]
        · rfl
    | _ => cases rest <;> rfl

end Value

/-- The outcome of an edit of a document: it came to its end, or changed nothing. -/
def Edited.AllOrNothing (doc : Value) (e : Edited) : Prop :=
  ∀ fault, e.fault = some fault → e.doc = doc

namespace Apply

open Value

variable {doc operand : Value} {path operator : String}

theorem allOrNothing_done (v : Value) : (Edited.done v).AllOrNothing doc := nofun

theorem allOrNothing_failed (fault : ApplyFault) : (Edited.failed doc fault).AllOrNothing doc :=
  fun _ _ => rfl

theorem allOrNothing_setPath (ordered : doc.Ordered) (new : Value) :
    (doc.setPath path new).AllOrNothing doc := by
  unfold setPath
  split
  · exact fun _ => doc_setAt_of_fault ordered
  · exact allOrNothing_failed _

/-- An array that is created is changed without fault. -/
theorem allOrNothing_changeArray (ordered : doc.Ordered) (change : List Value → List Value) :
    (doc.changeArray path change).AllOrNothing doc := by
  cases hparts : DotPath.editable path with
  | error fault =>
    rw [changeArray_of_not_editable hparts]
    exact allOrNothing_failed fault
  | ok parts =>
    by_cases holds : ∃ items, doc.Holds path items
    · obtain ⟨items, holds⟩ := holds
      rw [changeArray_eq_setPath hparts holds]
      exact allOrNothing_setPath ordered _
    · cases hfound : doc.lookup? path with
      | none => exact (holds ⟨[], .inr ⟨hfound, rfl⟩⟩).elim
      | some old =>
        have other : old.isArray = false := by
          cases old with
          | array items => exact (holds ⟨items, .inl hfound⟩).elim
          | _ => rfl
        obtain ⟨fault, hfailed⟩ : ∃ fault, doc.changeArray path change = .failed doc fault :=
          changeArray_of_other hfound other
        rw [hfailed]
        exact allOrNothing_failed fault

theorem allOrNothing_bound (ordered : doc.Ordered) (wanted : Ordering) :
    (bound doc path operand wanted).AllOrNothing doc := by
  unfold bound
  extract_lets replaces
  cases replaces with
  | true => exact allOrNothing_setPath ordered operand
  | false => exact allOrNothing_done doc

theorem allOrNothing_calculate (ordered : doc.Ordered) (op : Arithmetic) :
    (calculate op doc path operand).AllOrNothing doc := by
  unfold calculate
  split
  · exact allOrNothing_setPath ordered _
  · exact allOrNothing_failed _

theorem allOrNothing_append (ordered : doc.Ordered) (unique : Bool) :
    (append doc path operand unique).AllOrNothing doc := by
  unfold append
  split
  · exact allOrNothing_changeArray ordered _
  · exact allOrNothing_failed _

theorem allOrNothing_pull (ordered : doc.Ordered) : (pull doc path operand).AllOrNothing doc := by
  unfold pull
  split
  · exact allOrNothing_done doc
  · exact allOrNothing_changeArray ordered _

theorem allOrNothing_unset : (unset doc path).AllOrNothing doc := by
  unfold unset
  split
  · exact allOrNothing_done _
  · exact allOrNothing_done doc
  · exact allOrNothing_failed _

/-- A `$rename` alone has removed a value when its target turns out not to be settable. -/
theorem allOrNothing_entry (ordered : doc.Ordered) (inserting : Bool)
    (other : operator ≠ "$rename") :
    (entry inserting operator doc path operand).AllOrNothing doc := by
  unfold entry
  split
  · exact allOrNothing_setPath ordered _
  · split
    · exact allOrNothing_setPath ordered _
    · exact allOrNothing_done doc
  · exact allOrNothing_unset
  · exact allOrNothing_calculate ordered .add
  · exact allOrNothing_calculate ordered .multiply
  · exact allOrNothing_bound ordered .lt
  · exact allOrNothing_bound ordered .gt
  · exact allOrNothing_append ordered false
  · exact allOrNothing_append ordered true
  · exact allOrNothing_pull ordered
  · exact (other rfl).elim
  · exact allOrNothing_failed _

/-- A modifier with one operator and at most one entry is that entry, and does nothing if
there is none. -/
theorem allOrNothing_modifier (ordered : doc.Ordered) (inserting : Bool)
    (other : operator ≠ "$rename") {payload : Value}
    (single : ∀ entries, payload = .object entries → entries.length ≤ 1) :
    (modifier doc (.object [(operator, payload)]) inserting).AllOrNothing doc := by
  rw [modifier]
  cases payload with
  | object entries =>
    have hsingle : entries.length ≤ 1 := single entries rfl
    rw [operators]
    cases entries with
    | nil => exact allOrNothing_done doc
    | cons e rest =>
      obtain ⟨path, operand⟩ := e
      have hrest : rest.length = 0 := Nat.le_zero.mp (Nat.le_of_succ_le_succ hsingle)
      obtain rfl := List.length_eq_zero_iff.mp hrest
      have hentry : (entry inserting operator doc path operand).AllOrNothing doc :=
        allOrNothing_entry ordered inserting other
      rw [Apply.payload]
      generalize entry inserting operator doc path operand = e at hentry ⊢
      obtain ⟨after, fault⟩ := e
      cases fault with
      | none => exact allOrNothing_done after
      | some fault => exact hentry
  | _ => exact allOrNothing_failed _

/-- Setting a path either fails and leaves the document as it was, or puts the value at the
path and leaves every path alone that parts from it. So does a modifier with one entry
leave the document as it was when it fails, unless it moves a value. -/
theorem set_path_atomic_and_framed {doc : Value} (ordered : doc.Ordered) :
    (∀ path new, (∀ after fault, doc.setPath path new = .failed after fault → after = doc) ∧
      ∀ after, doc.setPath path new = .done after → after.lookup? path = some new ∧
        ∀ other, doc.Diverge (DotPath.segments path) (DotPath.segments other) →
          after.lookup? other = doc.lookup? other) ∧
    ∀ inserting operator payload after fault, operator ≠ "$rename" →
      (∀ entries, payload = .object entries → entries.length ≤ 1) →
      modifier doc (.object [(operator, payload)]) inserting = .failed after fault →
        after = doc := by
  refine ⟨fun path new => ⟨fun after fault h => ?_, fun after h => ?_⟩, ?_⟩
  · have hset : (doc.setPath path new).AllOrNothing doc := allOrNothing_setPath ordered new
    rw [h] at hset
    exact hset fault rfl
  · exact ⟨lookup?_of_setPath h, fun other => lookup?_of_setPath_apart h⟩
  · intro inserting operator payload after fault other single h
    have hmodifier := allOrNothing_modifier ordered inserting other single
    rw [h] at hmodifier
    exact hmodifier fault rfl

/-- The second mark is set without regard to the first one. No mark can be set far behind
the end, and nothing can be added to a name. -/
theorem journal_marked_or_kept :
    (∃ after, journal.setPath "marks.1.seen" (.number (.int 2)) = .done after ∧
      after.lookup? "marks.1.seen" = some (.number (.int 2)) ∧
      after.lookup? "marks.0" = some (.number (.int 1))) ∧
    (∃ after, journal.setPath "marks.7.seen" (.number (.int 2)) =
      .failed after (.pastEnd 7 "marks.7.seen" 2) ∧ after = journal) ∧
    ∃ after fault, modifier journal
      (.object [("$inc", .object [("old", .number (.int 1))])]) false = .failed after fault ∧
        after = journal := by
  obtain ⟨hset, hmodifier⟩ := set_path_atomic_and_framed journal_ordered
  have hdiverge : journal.Diverge (DotPath.segments "marks.1.seen") (DotPath.segments "marks.0") :=
    ⟨["marks"], "1", "0", ["seen"], [], by decide, by decide,
      show DotPath.index? "1" ≠ DotPath.index? "0" by decide⟩
  obtain ⟨-, hkept⟩ := hset "marks.1.seen" (.number (.int 2))
  obtain ⟨after, hafter⟩ : ∃ after,
      journal.setPath "marks.1.seen" (.number (.int 2)) = .done after := ⟨_, rfl⟩
  obtain ⟨kept, fault, hfault⟩ : ∃ kept fault, modifier journal
      (.object [("$inc", .object [("old", .number (.int 1))])]) false = .failed kept fault :=
    ⟨_, _, rfl⟩
  refine ⟨⟨after, hafter, ?_⟩, ⟨_, rfl, (hset "marks.7.seen" _).1 _ _ rfl⟩,
    ⟨kept, fault, hfault, ?_⟩⟩
  · obtain ⟨hfound, hframe⟩ := hkept after hafter
    exact ⟨hfound, (hframe "marks.0" hdiverge).trans rfl⟩
  · refine hmodifier _ _ _ _ _ (by decide) ?_ hfault
    rintro _ ⟨⟩
    exact Nat.le_refl 1

/-- A value that is moved is gone even if it can be put nowhere. -/
example : (modifier journal (.object [("$rename",
    .object [("old", .string "marks.7.name")])]) false).doc.lookup? "old" = none := rfl

end Apply

end DocSchema

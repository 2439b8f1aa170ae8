-- SUMMARY: Fields put into an empty document one by one, and what keeps them there.
import DocSchema.Proofs.PathWrites

/-!
# Seeding

A path is held by a document if it leads through objects only and to a value at its end,
and it is open if objects lead along it as far as there is anything. Setting an open path
succeeds and makes it held. Edits at paths apart from a path, neither of which begins
with the other, leave it held or open as it was: on the way that the paths have in common
there are objects, whatever the segments look like. So paths that are pairwise apart can
be put into an empty document one after the other, and all of them are held in the end.
-/

namespace DocSchema

namespace DotPath

/-- The segments are names that an edit can follow. -/
def Named (path : String) : Prop := ∀ segment ∈ segments path, segment ≠ "" ∧ isOperator segment = false

instance (path : String) : Decidable (Named path) :=
  inferInstanceAs (Decidable (∀ segment ∈ segments path, _))

theorem editable_of_named {path : String} (named : Named path) :
    editable path = .ok (segments path) := by
  have hempty : (segments path).any (· = "") = false :=
    List.any_eq_false.mpr fun segment h => by simpa using (named segment h).1
  have hoperator : (segments path).any isOperator = false :=
    List.any_eq_false.mpr fun segment h => by simpa using (named segment h).2
  unfold editable
  dsimp only
  rw [hempty, hoperator, if_neg Bool.false_ne_true, if_neg Bool.false_ne_true]

end DotPath

namespace Value

variable {p q rest : List String} {segment other path : String} {v new doc child child' : Value}
  {fields : Entries Value}

/-! ## Held paths -/

/-- The segments lead through objects to the value. -/
inductive Held (v : Value) : List String → Value → Prop where
  | here : Held v [] v
  | field {segment : String} {rest : List String} {fields : Entries Value} {child : Value} :
    Entries.get? fields segment = some child → Held v rest child →
      Held v (segment :: rest) (.object fields)

theorem Held.walk? (h : Held v q doc) : doc.walk? q = some v := by
  induction h with
  | here => rfl
  | field hchild _ ih => rw [walk?_cons, walk?_object, hchild, Option.bind_some, ih]

theorem Held.insert_of_ne (h : Held v (other :: rest) (.object fields)) (hne : segment ≠ other)
    (w : Value) : Held v (other :: rest) (.object (Entries.insert fields segment w)) := by
  cases h with
  | field hchild hrest => exact .field ((Entries.get?_insert_of_ne hne _ _).trans hchild) hrest

theorem Held.insert_self (h : Held v rest child) :
    Held v (segment :: rest) (.object (Entries.insert fields segment child)) :=
  .field (Entries.get?_insert_self _ _ _) h

theorem Held.setAt (h : Held v q doc) (hpq : ¬ p <+: q) (hqp : ¬ q <+: p) :
    Held v q (setAt path new p doc).doc := by
  induction p generalizing q doc with
  | nil => exact (hpq List.nil_prefix).elim
  | cons segment rest ih =>
    cases h with
    | here => exact (hqp List.nil_prefix).elim
    | @field other below fields child hchild hbelow =>
      rw [Value.setAt]
      by_cases heq : segment = other
      · subst heq
        rw [List.prefix_cons_inj] at hpq hqp
        rw [hchild]
        exact (ih hbelow hpq hqp).insert_self
      · exact (Held.field hchild hbelow).insert_of_ne heq _

theorem Held.removeAt {removed left : Value} (h : Held v q doc) (hpq : ¬ p <+: q) (hqp : ¬ q <+: p)
    (hleft : removeAt p doc = some (removed, left)) : Held v q left := by
  induction p generalizing q doc left with
  | nil => cases hleft
  | cons segment rest ih =>
    cases h with
    | here => exact (hqp List.nil_prefix).elim
    | @field other below fields child hchild hbelow =>
      cases rest with
      | nil =>
        have hne : segment ≠ other := fun heq =>
          hpq (List.cons_prefix_cons.mpr ⟨heq, List.nil_prefix⟩)
        simp only [Value.removeAt, Option.map_eq_some_iff] at hleft
        obtain ⟨_, -, heq⟩ := hleft
        cases heq
        refine .field ?_ hbelow
        rw [Entries.get?_erase, if_neg hne, hchild]
      | cons next more =>
        simp only [Value.removeAt, bind, Option.bind_eq_some_iff] at hleft
        obtain ⟨child', hchild', ⟨_, below'⟩, hremoved, heq⟩ := hleft
        cases heq
        by_cases hsame : segment = other
        · subst hsame
          cases hchild.symm.trans hchild'
          rw [List.prefix_cons_inj] at hpq hqp
          exact (ih hbelow hpq hqp hremoved).insert_self
        · exact (Held.field hchild hbelow).insert_of_ne hsame _

theorem Held.replaceAt (h : Held v q doc) (hpq : ¬ p <+: q) (hqp : ¬ q <+: p) :
    Held v q (replaceAt new p doc) := by
  induction p generalizing q doc with
  | nil => exact (hpq List.nil_prefix).elim
  | cons segment rest ih =>
    cases h with
    | here => exact (hqp List.nil_prefix).elim
    | @field other below fields child hchild hbelow =>
      rw [Value.replaceAt]
      split
      · next child' hchild' =>
        by_cases heq : segment = other
        · subst heq
          cases hchild.symm.trans hchild'
          rw [List.prefix_cons_inj] at hpq hqp
          exact (ih hbelow hpq hqp).insert_self
        · exact (Held.field hchild hbelow).insert_of_ne heq _
      · exact .field hchild hbelow

/-- Edits at a path keep a path held that is apart from it. -/
theorem keptAt_held (hpq : ¬ DotPath.segments path <+: q) (hqp : ¬ q <+: DotPath.segments path) :
    Apply.KeptAt (Held v q) path := by
  have hset {doc : Value} (h : Held v q doc) (new : Value) : Held v q (doc.setPath path new).doc := by
    unfold setPath
    split
    · next parts hparts =>
      rw [DotPath.eq_segments_of_editable hparts]
      exact h.setAt hpq hqp
    · exact h
  refine ⟨hset, fun {doc removed left} h hleft => ?_, fun {doc} h change => ?_⟩
  · unfold removePath at hleft
    rw [Outcome.map_eq_ok] at hleft
    obtain ⟨parts, hparts, hleft⟩ := hleft
    rw [DotPath.eq_segments_of_editable hparts] at hleft
    exact h.removeAt hpq hqp hleft
  · refine Edited.andThen_doc ?_ fun mid hmid => ?_
    · split
      · exact hset h _
      · exact h
    · cases hparts : DotPath.editable path with
      | error fault => exact hmid
      | ok parts =>
        dsimp only
        rw [DotPath.eq_segments_of_editable hparts]
        unfold changeArrayAt
        split
        · exact hmid.replaceAt hpq hqp
        · exact hmid

/-! ## Open paths -/

/-- The segments lead through objects as far as there is anything. -/
inductive Open : List String → Value → Prop where
  | here (doc : Value) : Open [] doc
  | missing {segment : String} {rest : List String} {fields : Entries Value} :
    Entries.get? fields segment = none → Open (segment :: rest) (.object fields)
  | field {segment : String} {rest : List String} {fields : Entries Value} {child : Value} :
    Entries.get? fields segment = some child → Open rest child →
      Open (segment :: rest) (.object fields)

theorem open_empty (q : List String) : Open q .empty := by
  cases q with
  | nil => exact .here _
  | cons segment rest => exact .missing rfl

/-- Below an open path the way is open, also where it goes on in an object to be created. -/
theorem Open.inner (h : Open (segment :: rest) (.object fields)) :
    Open rest ((Entries.get? fields segment).getD .empty) := by
  cases h with
  | missing hnone => rw [hnone]; exact open_empty rest
  | field hchild hrest => rw [hchild]; exact hrest

/-- An open path can be set, and is held then. -/
theorem Open.setAt (h : Open p doc) (path : String) (new : Value) :
    (Value.setAt path new p doc).fault = none ∧ Held new p (Value.setAt path new p doc).doc := by
  induction p generalizing doc with
  | nil => exact ⟨rfl, .here⟩
  | cons segment rest ih =>
    cases doc with
    | object fields =>
      obtain ⟨hfault, hheld⟩ := ih h.inner
      exact ⟨hfault, hheld.insert_self⟩
    | _ => cases h

/-- Setting an open path leaves paths open that are apart from it. -/
theorem Open.setAt_apart (h : Open q doc) (hp : Open p doc) (hpq : ¬ p <+: q) (hqp : ¬ q <+: p) :
    Open q (Value.setAt path new p doc).doc := by
  induction p generalizing q doc with
  | nil => exact (hpq List.nil_prefix).elim
  | cons segment rest ih =>
    cases doc with
    | object fields =>
      rw [Value.setAt]
      cases q with
      | nil => exact .here _
      | cons other below =>
        by_cases heq : segment = other
        · subst heq
          rw [List.prefix_cons_inj] at hpq hqp
          exact .field (Entries.get?_insert_self _ _ _) (ih h.inner hp.inner hpq hqp)
        · have hsame := Entries.get?_insert_of_ne heq fields
            (Value.setAt path new rest ((Entries.get? fields segment).getD .empty)).doc
          cases h with
          | missing hnone => exact .missing (hsame.trans hnone)
          | field hchild hrest => exact .field (hsame.trans hchild) hrest
    | _ => cases hp

/-- Setting an open path of names comes to its end. -/
theorem Open.setPath (h : Open (DotPath.segments path) doc) (named : DotPath.Named path)
    (new : Value) : ∃ next, doc.setPath path new = .done next ∧
      Held new (DotPath.segments path) next ∧
      ∀ other, DotPath.Apart path other → Open (DotPath.segments other) doc →
        Open (DotPath.segments other) next := by
  obtain ⟨hfault, hheld⟩ := h.setAt path new
  refine ⟨_, ?_, hheld, fun other apart hother => hother.setAt_apart h apart.1 apart.2⟩
  unfold Value.setPath
  rw [DotPath.editable_of_named named]
  exact congrArg (Edited.mk _) hfault

/-! ## Documents that carry values -/

/-- The document has each of the values at the end of its path. -/
def Carries (es : List (String × Value)) (doc : Value) : Prop :=
  ∀ e ∈ es, Held e.2 (DotPath.segments e.1) doc

variable {es : List (String × Value)}

/-- Writes at paths that are apart from those of the values leave the document carrying them. -/
theorem Carries.writes {inserting : Bool} {ws : List Write} {after : Value} (h : Carries es doc)
    (apart : ∀ w ∈ ws, ∀ p ∈ w.paths, ∀ e ∈ es, DotPath.Apart p e.1)
    (applied : Apply.writes inserting doc ws = .done after) : Carries es after := by
  refine Apply.kept_by_writes applied (fun w hw before next hbefore happly e he => ?_) h
  have hkept := Apply.kept_by_apply inserting
    (fun p hp => keptAt_held (apart w hw p hp e he).1 (apart w hw p hp e he).2) (hbefore e he)
  rwa [happly] at hkept

/-- Values at open paths that are pairwise apart are put in one after the other, and the
document carries all of them in the end. -/
theorem carries_of_sets (named : ∀ e ∈ es, DotPath.Named e.1)
    (apart : es.Pairwise fun a b => DotPath.Apart a.1 b.1)
    (opened : ∀ e ∈ es, Open (DotPath.segments e.1) doc) :
    ∃ after, Apply.writes true doc (es.map fun e => ⟨"$set", e.1, e.2⟩) = .done after ∧
      Carries es after := by
  induction es generalizing doc with
  | nil => exact ⟨doc, rfl, List.forall_mem_nil _⟩
  | cons e rest ih =>
    obtain ⟨hnamed, hrestNamed⟩ := List.forall_mem_cons.mp named
    obtain ⟨hapart, hrestApart⟩ := List.pairwise_cons.mp apart
    obtain ⟨hopen, hrestOpen⟩ := List.forall_mem_cons.mp opened
    obtain ⟨next, hnext, hheld, hother⟩ := hopen.setPath hnamed e.2
    obtain ⟨after, hafter, hcarries⟩ := ih hrestNamed hrestApart fun e' he' =>
      hother e'.1 (hapart e' he') (hrestOpen e' he')
    have hfirst : Carries [e] next := List.forall_mem_singleton.mpr hheld
    have hkept : Carries [e] after := by
      refine hfirst.writes (fun w hw p hp => List.forall_mem_singleton.mpr ?_) hafter
      obtain ⟨e', he', rfl⟩ := List.mem_map.mp hw
      cases List.mem_singleton.mp hp
      exact (hapart e' he').symm
    exact ⟨after, Edited.andThen_eq_done_iff.mpr ⟨next, hnext, hafter⟩,
      List.forall_mem_cons.mpr ⟨hkept e List.mem_cons_self, hcarries⟩⟩

/-- An `_id` is made up only where there is none, so that it is in the way of no path. -/
theorem Carries.identified (h : Carries es (.object fields)) (fresh : Uuid) :
    Carries es (.object (Collection.identified fields fresh).1) := by
  unfold Collection.identified
  cases hid : Entries.get? fields "_id" with
  | some id => exact h
  | none =>
    intro e he
    have hheld := h e he
    obtain ⟨rest, hsegments⟩ := DotPath.segments_eq_cons e.1
    rw [hsegments] at hheld ⊢
    refine hheld.insert_of_ne (fun heq => ?_) _
    cases hheld with
    | field hchild =>
      rw [← heq, hid] at hchild
      cases hchild

end Value

end DocSchema

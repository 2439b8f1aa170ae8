-- SUMMARY: Which top-level fields applying a modifier leaves alone, and what it puts under a field.
import DocSchema.Proofs.Storing

/-!
# Frames of edits

An edit at a path changes a document only below the first segment of the path,
the root. Applying a modifier is a run of single writes; a write leaves all
fields alone that are not among its roots, and `$setOnInsert` all fields unless
a document is being created. This holds up to a fault as well.
-/

namespace DocSchema

/-! ## Edits that come to their end -/

namespace Edited

variable {e : Edited} {doc : Value}

theorem andThen_eq_done_iff {next : Value → Edited} :
    e.andThen next = .done doc ↔ ∃ mid, e = .done mid ∧ next mid = .done doc := by
  obtain ⟨d, fault⟩ := e
  cases fault <;> simp [andThen, done]

/-- What both edits keep, the two of them keep. -/
theorem andThen_doc {P : Value → Prop} {next : Value → Edited} (he : P e.doc)
    (hnext : ∀ mid, P mid → P (next mid).doc) : P (e.andThen next).doc := by
  obtain ⟨d, fault⟩ := e
  cases fault with
  | none => exact hnext d he
  | some f => exact he

end Edited

/-! ## Roots of paths -/

namespace DotPath

theorem splitDots_ne_nil (cs : List Char) : splitDots cs ≠ [] := by
  cases cs with
  | nil => simp [splitDots]
  | cons c cs =>
    rw [splitDots]
    split
    · simp
    · split <;> simp

theorem segments_eq_cons (path : String) : ∃ rest, segments path = rootOf path :: rest := by
  unfold rootOf segments
  cases h : splitDots path.toList with
  | nil => exact (splitDots_ne_nil _ h).elim
  | cons segment rest => exact ⟨rest.map String.ofList, rfl⟩

/-- What can be edited are the segments. -/
theorem eq_segments_of_editable {path : String} {parts : List String}
    (h : editable path = .ok parts) : parts = segments path := by
  unfold editable at h
  dsimp only at h
  split at h
  · cases h
  · split at h
    · cases h
    · cases h
      rfl

end DotPath

/-! ## Edits at a path -/

namespace Value

/-- The documents differ at most in the fields that are named. -/
structure ChangedIn (roots : List String) (before after : Value) : Prop where
  object : after.isObject = before.isObject
  field : ∀ name, name ∉ roots → after.field? name = before.field? name

namespace ChangedIn

variable {roots : List String} {before mid after : Value}

theorem refl (roots : List String) (doc : Value) : ChangedIn roots doc doc := ⟨rfl, fun _ _ => rfl⟩

theorem trans (h : ChangedIn roots before mid) (h' : ChangedIn roots mid after) :
    ChangedIn roots before after :=
  ⟨h'.object.trans h.object, fun name hname => (h'.field name hname).trans (h.field name hname)⟩

theorem mono {more : List String} (h : ChangedIn roots before after) (hsubset : roots ⊆ more) :
    ChangedIn more before after :=
  ⟨h.object, fun name hname => h.field name fun hmem => hname (hsubset hmem)⟩

theorem insert (fields : Entries Value) (name : String) (v : Value) :
    ChangedIn [name] (.object fields) (.object (Entries.insert fields name v)) :=
  ⟨rfl, fun _ hother =>
    Entries.get?_insert_of_ne (fun heq => hother (List.mem_singleton.mpr heq.symm)) fields v⟩

theorem erase (fields : Entries Value) (name : String) :
    ChangedIn [name] (.object fields) (.object (Entries.erase fields name)) :=
  ⟨rfl, fun _ hother => (Entries.get?_erase fields name _).trans
    (if_neg fun heq => hother (List.mem_singleton.mpr heq.symm))⟩

/-- Arrays have no fields. -/
theorem array (roots : List String) (items items' : List Value) :
    ChangedIn roots (.array items) (.array items') := ⟨rfl, fun _ _ => rfl⟩

end ChangedIn

variable {segment path : String} {rest : List String} {doc new : Value}

theorem changedIn_setAt : ChangedIn [segment] doc (setAt path new (segment :: rest) doc).doc := by
  cases doc with
  | object fields => exact .insert fields segment _
  | array items =>
    rw [setAt]
    cases DotPath.index? segment with
    | none => exact .refl _ _
    | some i =>
      dsimp only
      split
      · exact .array _ _ _
      · exact .refl _ _
  | _ => cases rest <;> exact .refl _ _

theorem changedIn_setPath : ChangedIn [DotPath.rootOf path] doc (doc.setPath path new).doc := by
  obtain ⟨rest, hsegments⟩ := DotPath.segments_eq_cons path
  unfold setPath
  cases hparts : DotPath.editable path with
  | error fault => exact .refl _ _
  | ok parts =>
    rw [DotPath.eq_segments_of_editable hparts, hsegments]
    exact changedIn_setAt

theorem changedIn_removeAt {removed left : Value}
    (h : removeAt (segment :: rest) doc = some (removed, left)) :
    ChangedIn [segment] doc left := by
  cases doc with
  | object fields =>
    cases rest with
    | nil =>
      simp only [removeAt, Option.map_eq_some_iff] at h
      obtain ⟨v, -, heq⟩ := h
      cases heq
      exact .erase fields segment
    | cons next rest =>
      simp only [removeAt, bind, Option.bind_eq_some_iff] at h
      obtain ⟨child, -, v, -, heq⟩ := h
      cases heq
      exact .insert fields segment _
  | array items =>
    cases rest with
    | nil =>
      simp only [removeAt, bind, Option.bind_eq_some_iff] at h
      obtain ⟨i, -, v, -, heq⟩ := h
      cases heq
      exact .array _ _ _
    | cons next rest =>
      simp only [removeAt, bind, Option.bind_eq_some_iff] at h
      obtain ⟨i, -, child, -, v, -, heq⟩ := h
      cases heq
      exact .array _ _ _
  | _ => cases rest <;> cases h

theorem changedIn_removePath {removed left : Value}
    (h : doc.removePath path = .ok (some (removed, left))) :
    ChangedIn [DotPath.rootOf path] doc left := by
  obtain ⟨rest, hsegments⟩ := DotPath.segments_eq_cons path
  unfold removePath at h
  rw [Outcome.map_eq_ok] at h
  obtain ⟨parts, hparts, h⟩ := h
  rw [DotPath.eq_segments_of_editable hparts, hsegments] at h
  exact changedIn_removeAt h

theorem changedIn_replaceAt : ChangedIn [segment] doc (replaceAt new (segment :: rest) doc) := by
  cases doc with
  | object fields =>
    rw [replaceAt]
    split
    · exact .insert fields segment _
    · exact .refl _ _
  | array items =>
    rw [replaceAt]
    split <;> exact .array _ _ _
  | _ => exact .refl _ _

theorem changedIn_changeArray {change : List Value → List Value} :
    ChangedIn [DotPath.rootOf path] doc (doc.changeArray path change).doc := by
  obtain ⟨rest, hsegments⟩ := DotPath.segments_eq_cons path
  refine Edited.andThen_doc ?_ fun mid hmid => ?_
  · split
    · exact changedIn_setPath
    · exact .refl _ _
  · cases hparts : DotPath.editable path with
    | error fault => exact hmid
    | ok parts =>
      dsimp only
      rw [DotPath.eq_segments_of_editable hparts, hsegments]
      unfold changeArrayAt
      split
      · exact hmid.trans changedIn_replaceAt
      · exact hmid

end Value

/-! ## Writes -/

/-- One entry of a modifier: an operator, a path and an operand. -/
structure Write where
  operator : String
  path : String
  operand : Value

namespace Write

/-- The top-level fields that a write leads into; a `$rename` also leads to its target. -/
def roots (w : Write) : List String :=
  DotPath.rootOf w.path ::
    if w.operator = "$rename" then (w.operand.string?.map DotPath.rootOf).toList else []

/-- The paths that a write names; a `$rename` also names its target. -/
def paths (w : Write) : List String :=
  w.path :: if w.operator = "$rename" then w.operand.string?.toList else []

/-- A write leads into the fields that its paths begin with. -/
theorem rootOf_mem_roots {w : Write} {path : String} (h : path ∈ w.paths) :
    DotPath.rootOf path ∈ w.roots := by
  unfold paths at h
  unfold roots
  rcases List.mem_cons.mp h with rfl | h
  · exact List.mem_cons_self
  · refine List.mem_cons_of_mem _ ?_
    split at h
    · next hrename =>
      rw [if_pos hrename, Option.mem_toList, Option.mem_toList.mp h]
      rfl
    · cases h

/-- Applies a write. -/
def apply (inserting : Bool) (w : Write) (doc : Value) : Edited :=
  Apply.entry inserting w.operator doc w.path w.operand

/-- A write reaches the fields that it leads into, unless it is for insertions only
and nothing is inserted. -/
def Reaches (inserting : Bool) (name : String) (w : Write) : Prop :=
  name ∈ w.roots ∧ (w.operator = "$setOnInsert" → inserting = true)

/-- A write that puts a value under a top-level field. -/
def Puts (inserting : Bool) (name : String) (v : Value) (w : Write) : Prop :=
  w.path = name ∧ w.operand = v ∧
    (w.operator = "$set" ∨ w.operator = "$setOnInsert" ∧ inserting = true)

end Write

/-- The writes of a modifier, operator by operator. -/
def Modifier.writes (m : Modifier) : List Write :=
  m.flatMap fun e =>
    match e.2 with
    | .object payload => payload.map fun f => ⟨e.1, f.1, f.2⟩
    | _ => []

namespace Apply

variable {inserting : Bool} {path : String} {operand doc : Value}

/-- What edits at a path keep of a document. -/
structure KeptAt (P : Value → Prop) (path : String) : Prop where
  set : ∀ {doc : Value}, P doc → ∀ new, P (doc.setPath path new).doc
  remove : ∀ {doc removed left : Value}, P doc →
    doc.removePath path = .ok (some (removed, left)) → P left
  change : ∀ {doc : Value}, P doc → ∀ change, P (doc.changeArray path change).doc

section Kept

variable {P : Value → Prop}

theorem KeptAt.bound (kept : KeptAt P path) (h : P doc) (wanted : Ordering) :
    P (bound doc path operand wanted).doc := by
  unfold Apply.bound
  dsimp only
  split <;> split
  · exact kept.set h operand
  · exact h
  · exact kept.set h operand
  · exact h

theorem KeptAt.append (kept : KeptAt P path) (h : P doc) (unique : Bool) :
    P (append doc path operand unique).doc := by
  unfold Apply.append
  split
  · exact kept.change h _
  · exact h

theorem KeptAt.pull (kept : KeptAt P path) (h : P doc) : P (pull doc path operand).doc := by
  unfold Apply.pull
  split
  · exact h
  · exact kept.change h _

theorem KeptAt.calculate (kept : KeptAt P path) (h : P doc) (op : Arithmetic) :
    P (calculate op doc path operand).doc := by
  unfold Apply.calculate
  split
  · exact kept.set h _
  · exact h

theorem KeptAt.unset (kept : KeptAt P path) (h : P doc) : P (unset doc path).doc := by
  unfold Apply.unset
  split
  · next hleft => exact kept.remove h hleft
  · exact h
  · exact h

/-- A field that is moved is gone from its path also when its target cannot be set. -/
theorem kept_by_rename (kept : ∀ p ∈ (Write.mk "$rename" path operand).paths, KeptAt P p)
    (h : P doc) : P (rename doc path operand).doc := by
  obtain ⟨hpath, htarget⟩ := List.forall_mem_cons.mp kept
  unfold rename
  split
  · next target =>
    split
    · next moved left hleft =>
      exact (htarget target (by simp [Value.string?])).set (hpath.remove h hleft) moved
    · exact h
    · exact h
  · exact h

/-- A write keeps what edits at its paths keep. -/
theorem kept_by_apply (inserting : Bool) {w : Write} (kept : ∀ p ∈ w.paths, KeptAt P p)
    (h : P doc) : P (w.apply inserting doc).doc := by
  obtain ⟨operator, path, operand⟩ := w
  have hpath : KeptAt P path := kept path List.mem_cons_self
  unfold Write.apply entry
  dsimp only
  split
  · exact hpath.set h operand
  · split
    · exact hpath.set h operand
    · exact h
  · exact hpath.unset h
  · exact hpath.calculate h .add
  · exact hpath.calculate h .multiply
  · exact hpath.bound h .lt
  · exact hpath.bound h .gt
  · exact hpath.append h false
  · exact hpath.append h true
  · exact hpath.pull h
  · exact kept_by_rename kept h
  · exact h

end Kept

theorem changedIn_write (inserting : Bool) (w : Write) (doc : Value) :
    Value.ChangedIn w.roots doc (w.apply inserting doc).doc := by
  refine kept_by_apply inserting (fun path hpath => ?_) (Value.ChangedIn.refl w.roots doc)
  have below {before after : Value} (h : Value.ChangedIn [DotPath.rootOf path] before after) :
      Value.ChangedIn w.roots before after :=
    h.mono (List.cons_subset.mpr ⟨Write.rootOf_mem_roots hpath, List.nil_subset _⟩)
  exact ⟨fun h _ => h.trans (below Value.changedIn_setPath),
    fun h hleft => h.trans (below (Value.changedIn_removePath hleft)),
    fun h _ => h.trans (below Value.changedIn_changeArray)⟩

/-- A write leaves every field alone that it does not reach. -/
theorem field?_apply {w : Write} {name : String} (doc : Value) (h : ¬ w.Reaches inserting name) :
    (w.apply inserting doc).doc.field? name = doc.field? name := by
  by_cases hmem : name ∈ w.roots
  · have hoperator : w.operator = "$setOnInsert" ∧ inserting = false := by
      by_contra hnot
      refine h ⟨hmem, fun heq => ?_⟩
      by_contra hinserting
      exact hnot ⟨heq, Bool.eq_false_iff.mpr hinserting⟩
    unfold Write.apply
    rw [hoperator.1, hoperator.2]
    rfl
  · exact (changedIn_write inserting w doc).field name hmem

/-! ## Runs of writes -/

/-- Applies writes up to the first fault. -/
def writes (inserting : Bool) (doc : Value) : List Write → Edited
  | [] => .done doc
  | w :: rest => (w.apply inserting doc).andThen fun next => writes inserting next rest

theorem writes_append (ws rest : List Write) (doc : Value) :
    writes inserting doc (ws ++ rest) =
      (writes inserting doc ws).andThen fun next => writes inserting next rest := by
  induction ws generalizing doc with
  | nil => rfl
  | cons w ws ih =>
    rw [List.cons_append, writes, writes]
    generalize w.apply inserting doc = e
    obtain ⟨d, fault⟩ := e
    cases fault with
    | none => exact ih d
    | some f => rfl

theorem payload_eq_writes (operator : String) (payload : Entries Value) (doc : Value) :
    Apply.payload inserting operator doc payload =
      writes inserting doc (payload.map fun f => ⟨operator, f.1, f.2⟩) := by
  induction payload generalizing doc with
  | nil => rfl
  | cons f rest ih =>
    obtain ⟨path, operand⟩ := f
    rw [Apply.payload, List.map_cons, writes]
    simp only [ih]
    rfl

/-- Operators that are applied to their end are a run of their writes. -/
theorem writes_of_operators {m : Modifier} {doc after : Value}
    (h : operators inserting doc m = .done after) :
    writes inserting doc m.writes = .done after := by
  induction m generalizing doc with
  | nil => exact h
  | cons e rest ih =>
    obtain ⟨operator, payload⟩ := e
    cases payload with
    | object fields =>
      rw [operators, Edited.andThen_eq_done_iff] at h
      obtain ⟨mid, hmid, h⟩ := h
      change writes inserting doc ((fields.map fun f => ⟨operator, f.1, f.2⟩) ++
        Modifier.writes rest) = _
      rw [writes_append, ← payload_eq_writes, hmid]
      exact ih h
    | _ => cases h

variable {after : Value} {ws : List Write}

/-- What every write of a run keeps, the run keeps. -/
theorem kept_by_writes {P : Value → Prop} (h : writes inserting doc ws = .done after)
    (step : ∀ w ∈ ws, ∀ before next, P before → w.apply inserting before = .done next → P next)
    (holds : P doc) : P after := by
  induction ws generalizing doc with
  | nil =>
    cases h
    exact holds
  | cons w rest ih =>
    obtain ⟨hw, hrest⟩ := List.forall_mem_cons.mp step
    rw [writes, Edited.andThen_eq_done_iff] at h
    obtain ⟨mid, hmid, h⟩ := h
    exact ih h hrest (hw doc mid holds hmid)

theorem isObject_of_writes (h : writes inserting doc ws = .done after) :
    after.isObject = doc.isObject := by
  refine kept_by_writes (P := fun v => v.isObject = doc.isObject) h
    (fun w _ before next hb hw => ?_) rfl
  have hobject := (changedIn_write inserting w before).object
  rw [hw] at hobject
  exact hobject.trans hb

/-- A field that no write reaches stays as it is. -/
theorem field?_of_writes {name : String} (h : writes inserting doc ws = .done after)
    (unreached : ∀ w ∈ ws, ¬ w.Reaches inserting name) : after.field? name = doc.field? name := by
  refine kept_by_writes (P := fun v => v.field? name = doc.field? name) h
    (fun w hw before next hb happly => ?_) rfl
  have hfield := field?_apply before (unreached w hw)
  rw [happly] at hfield
  exact hfield.trans hb

theorem field?_of_puts_apply {name : String} {v : Value} {w : Write}
    (named : Node.nameRule? name = none) (puts : w.Puts inserting name v) {fields : Entries Value}
    (h : w.apply inserting (.object fields) = .done after) : after.field? name = some v := by
  obtain ⟨operator, path, operand⟩ := w
  obtain ⟨rfl, rfl, hoperator⟩ := puts
  have hset : (Write.mk operator path operand).apply inserting (.object fields) =
      (Value.object fields).setPath path operand := by
    rcases hoperator with rfl | ⟨rfl, rfl⟩ <;> rfl
  rw [hset, setPath_of_name named] at h
  cases h
  exact Entries.get?_insert_self fields path operand

/-- Where all writes that reach a field put one value there, the field has it in the
end, if some write does or it had it before. -/
theorem field?_of_puts {name : String} {v : Value} (named : Node.nameRule? name = none)
    (object : doc.isObject = true) (h : writes inserting doc ws = .done after)
    (puts : ∀ w ∈ ws, w.Reaches inserting name → w.Puts inserting name v)
    (found : doc.field? name = some v ∨ ∃ w ∈ ws, w.Puts inserting name v) :
    after.field? name = some v := by
  induction ws generalizing doc with
  | nil =>
    cases h
    simpa using found
  | cons w rest ih =>
    obtain ⟨hw, hrest⟩ := List.forall_mem_cons.mp puts
    rw [writes, Edited.andThen_eq_done_iff] at h
    obtain ⟨mid, hmid, h⟩ := h
    have hchanged := changedIn_write inserting w doc
    rw [hmid] at hchanged
    refine ih (hchanged.object.trans object) h hrest ?_
    by_cases hputs : w.Puts inserting name v
    · cases doc with
      | object fields => exact .inl (field?_of_puts_apply named hputs hmid)
      | _ => cases object
    · have hfield := field?_apply doc fun hreaches => hputs (hw hreaches)
      rw [hmid] at hfield
      rcases found with hsome | ⟨w', hmem, hw'⟩
      · exact .inl (hfield.trans hsome)
      · rcases List.mem_cons.mp hmem with rfl | hmem
        · exact (hputs hw').elim
        · exact .inr ⟨w', hmem, hw'⟩

end Apply

namespace Collection

/-- A document that an upsert inserts starts from what the selector sets. -/
theorem seed_eq_writes (selector : Value) : seed selector =
    Apply.writes true .empty ((Selector.equalities selector).map fun e => ⟨"$set", e.1, e.2⟩) := by
  have fold (es : List (String × Value)) (edited : Edited) :
      es.foldl (fun edited e => edited.andThen fun doc => doc.setPath e.1 e.2) edited =
        edited.andThen fun doc => Apply.writes true doc (es.map fun e => ⟨"$set", e.1, e.2⟩) := by
    induction es generalizing edited with
    | nil => exact (Apply.andThen_done edited).symm
    | cons e rest ih =>
      rw [List.foldl_cons, ih]
      obtain ⟨doc, fault⟩ := edited
      cases fault <;> rfl
  exact fold _ _

end Collection

end DocSchema

-- SUMMARY: Bringing a modifier into explicit form loses no entry and invents none.
import DocSchema.Proofs.Generated
import DocSchema.Proofs.Routing

/-!
# Conservation of entries

The entries of a modifier are counted as writes: an operator, a key and a value. Moving
one entry adds one write, and taking the appends out of a `$set` removes as many as are
moved afterwards. So the explicit form has the writes that were given, up to their order,
and only those appends under another operator. It exists if every operator that is moved
to takes its entry in, and it is its own explicit form.
-/

namespace DocSchema

/-- The write under the operator that appends it, if it is an entry of a `$set` that appends. -/
def Write.routed (s : UpdateSchema) (w : Write) : Write :=
  if w.operator = "$set" then
    { w with operator := (Modifier.appendOperator? s w.path w.operand).getD "$set" }
  else w

/-- The operator and the path of a write. -/
def Write.place (w : Write) : String × String := (w.operator, w.path)

namespace Modifier

variable {s : UpdateSchema} {m m' given : Modifier} {modifier payload : Value}
  {operator key : String} {v : Value} {w : Write} {fields : Entries Value}
  {moved : List (String × String × Value)}

/-! ## Spelling the operators out -/

/-- A modifier without operators is read as the body of a `$set`, one of operators as it is. -/
inductive Spelled : Value → Modifier → Prop where
  | body {fields : Entries Value} :
    (∀ name ∈ Entries.keys fields, DotPath.isOperator name = false) →
      Spelled (.object fields) [("$set", .object fields)]
  | operators {m : Modifier} :
    m ≠ [] → (∀ name ∈ Entries.keys m, DotPath.isOperator name = true) → Spelled (.object m) m

theorem explicit_eq_ok_iff : explicit modifier = .ok given ↔ Spelled modifier given := by
  constructor
  · intro h
    unfold explicit at h
    split at h
    · next fields =>
      split at h
      · next hplain =>
        cases h
        refine .body fun name hname => ?_
        obtain ⟨e, he, rfl⟩ := List.mem_map.mp hname
        simpa using List.all_eq_true.mp hplain e he
      · next hplain =>
        split at h
        · next hoperators =>
          cases h
          refine .operators (fun hnil => hplain (hnil ▸ rfl)) fun name hname => ?_
          obtain ⟨e, he, rfl⟩ := List.mem_map.mp hname
          exact List.all_eq_true.mp hoperators e he
        · cases h
    · cases h
  · intro h
    cases h with
    | @body fields hplain =>
      have hall : (fields.all fun e => !DotPath.isOperator e.1) = true :=
        List.all_eq_true.mpr fun e he => by rw [hplain e.1 (Entries.mem_keys_of_mem he)]; rfl
      rw [explicit, if_pos hall]
    | operators hne hoperators =>
      obtain ⟨e, rest, rfl⟩ := List.exists_cons_of_ne_nil hne
      have hhead : DotPath.isOperator e.1 = true := hoperators e.1 List.mem_cons_self
      have hall : ((e :: rest).all fun e => DotPath.isOperator e.1) = true :=
        List.all_eq_true.mpr fun e he => hoperators e.1 (Entries.mem_keys_of_mem he)
      rw [explicit, if_neg (by simp [hhead]), if_pos hall]

/-- The operators of a modifier that is spelled out. -/
theorem Spelled.isOperator (h : Spelled modifier given) :
    ∀ name ∈ Entries.keys given, DotPath.isOperator name = true := by
  have hset : DotPath.isOperator "$set" = true := by decide
  cases h with
  | body => exact List.forall_mem_singleton.mpr hset
  | operators _ hoperators => exact hoperators

/-! ## Writes of payloads -/

/-- The writes under one operator. -/
def payloadWrites (operator : String) (payload : Value) : List Write :=
  match payload with
  | .object fields => fields.map fun f => ⟨operator, f.1, f.2⟩
  | _ => []

theorem writes_cons (e : String × Value) (rest : Modifier) :
    writes (e :: rest) = payloadWrites e.1 e.2 ++ writes rest := rfl

theorem writes_insert (sorted : Entries.Sorted m) (operator : String) (payload : Value) :
    (writes (Entries.insert m operator payload)).Perm
      (payloadWrites operator payload ++ writes (Entries.erase m operator)) :=
  (Entries.perm_insert sorted operator payload).flatMap_right _

/-- The writes under an operator and those under all others. -/
theorem writes_split (sorted : Entries.Sorted m) (operator : String) :
    (writes m).Perm (payloadWrites operator ((Entries.get? m operator).getD .empty) ++
      writes (Entries.erase m operator)) := by
  cases hget : Entries.get? m operator with
  | some payload => exact (Entries.perm_of_get? sorted hget).flatMap_right _
  | none =>
    rw [Entries.erase_of_not_mem (Entries.get?_eq_none_iff.mp hget)]
    exact .refl _

/-- No two writes have the operator and the path in common. -/
theorem nodup_places (ordered : (Value.object m).Ordered) :
    ((writes m).map Write.place).Nodup := by
  obtain ⟨hsorted, hpayloads⟩ := Value.ordered_object_iff.mp ordered
  induction m with
  | nil => exact .nil
  | cons e rest ih =>
    obtain ⟨hbefore, hrest⟩ := List.pairwise_cons.mp hsorted
    obtain ⟨hpayload, hothers⟩ := List.forall_mem_cons.mp hpayloads
    have hown : ((payloadWrites e.1 e.2).map Write.place).Nodup := by
      unfold payloadWrites
      split
      · next fields hfields =>
        have hdistinct : (Entries.keys fields).Nodup := Value.distinct_of_ordered (hfields ▸ hpayload)
        rw [List.map_map]
        exact List.Nodup.of_map Prod.snd (by rwa [List.map_map])
      · exact .nil
    have hlater := ih (Value.ordered_object_iff.mpr ⟨hrest, hothers⟩) hrest hothers
    rw [writes_cons, List.map_append]
    refine List.nodup_append.mpr ⟨hown, hlater, ?_⟩
    rintro _ hplace _ hplace' rfl
    obtain ⟨w, hw, rfl⟩ := List.mem_map.mp hplace
    obtain ⟨w', hw', heq⟩ := List.mem_map.mp hplace'
    obtain ⟨payload, hmem, -⟩ := mem_writes.mp hw'
    have hoperator : w.operator = e.1 := by
      unfold payloadWrites at hw
      split at hw
      · obtain ⟨f, -, rfl⟩ := List.mem_map.mp hw
        rfl
      · cases hw
    have hless := hbefore _ hmem
    rw [(Prod.mk.inj heq).1, hoperator] at hless
    exact String.lt_irrefl _ hless

/-! ## Moving entries -/

/-- The write that a moved entry becomes. -/
def movedWrite (e : String × String × Value) : Write := ⟨e.1, e.2.1, e.2.2⟩

/-- The payload of the operator is an object without the key, or missing. -/
def TakesIn (m : Modifier) (operator key : String) : Prop :=
  ∃ fields, (Entries.get? m operator).getD .empty = .object fields ∧
    Entries.contains fields key = false

theorem exists_moveEntry_iff : (∃ m', moveEntry m operator key v = .ok m') ↔
    TakesIn m operator key := by
  simp only [moveEntry_eq_ok_iff, TakesIn]
  constructor
  · rintro ⟨_, fields, hfields, hfree, -⟩
    exact ⟨fields, hfields, hfree⟩
  · rintro ⟨fields, hfields, hfree⟩
    exact ⟨_, fields, hfields, hfree, rfl⟩

/-- A moved entry is in the way of entries under its own key only. -/
theorem takesIn_of_moveEntry (h : moveEntry m operator key v = .ok m') {other name : String}
    (hne : name ≠ key) : TakesIn m' other name ↔ TakesIn m other name := by
  obtain ⟨fields, hfields, -, rfl⟩ := moveEntry_eq_ok_iff.mp h
  unfold TakesIn
  by_cases hother : operator = other
  · subst hother
    simp only [Entries.get?_insert_self, Option.getD_some, hfields, Value.object.injEq,
      exists_eq_left', Entries.contains, Entries.get?_insert_of_ne hne.symm]
  · rw [Entries.get?_insert_of_ne hother]

theorem exists_moveEntries_iff (distinct : (moved.map fun e => e.2.1).Nodup) :
    (∃ m', moveEntries m moved = .ok m') ↔ ∀ e ∈ moved, TakesIn m e.1 e.2.1 := by
  induction moved generalizing m with
  | nil => exact iff_of_true ⟨m, rfl⟩ (List.forall_mem_nil _)
  | cons e rest ih =>
    obtain ⟨operator, key, v⟩ := e
    obtain ⟨hnew, hrest⟩ := List.nodup_cons.mp distinct
    have hkeys : ∀ e ∈ rest, e.2.1 ≠ key := fun e he heq => hnew (List.mem_map.mpr ⟨e, he, heq⟩)
    simp only [moveEntries, Outcome.bind_eq_ok]
    rw [List.forall_mem_cons]
    constructor
    · rintro ⟨m', next, hnext, h⟩
      refine ⟨exists_moveEntry_iff.mp ⟨next, hnext⟩, fun e he => ?_⟩
      exact (takesIn_of_moveEntry hnext (hkeys e he)).mp ((ih hrest).mp ⟨m', h⟩ e he)
    · rintro ⟨htakes, hothers⟩
      obtain ⟨next, hnext⟩ := exists_moveEntry_iff.mpr htakes
      obtain ⟨m', h⟩ := (ih hrest).mpr fun e he =>
        (takesIn_of_moveEntry hnext (hkeys e he)).mpr (hothers e he)
      exact ⟨m', next, hnext, h⟩

/-- Moving an entry adds its write. -/
theorem writes_of_moveEntry (ordered : (Value.object m).Ordered)
    (h : moveEntry m operator key v = .ok m') :
    (writes m').Perm (⟨operator, key, v⟩ :: writes m) := by
  obtain ⟨fields, hfields, hfree, rfl⟩ := moveEntry_eq_ok_iff.mp h
  have hsorted := (Value.ordered_object_iff.mp ordered).1
  have hpayload : (Value.object fields).Ordered := hfields ▸ ordered_payload ordered operator
  have hperm : (Entries.insert fields key v).Perm ((key, v) :: fields) := by
    have hinsert := Entries.perm_insert (Value.ordered_object_iff.mp hpayload).1 key v
    rwa [Entries.erase_of_not_mem
      (Entries.get?_eq_none_iff.mp (Entries.contains_eq_false_iff.mp hfree))] at hinsert
  have hsplit := writes_split hsorted operator
  rw [hfields] at hsplit
  have hpayloads : (payloadWrites operator (.object (Entries.insert fields key v))).Perm
      (⟨operator, key, v⟩ :: payloadWrites operator (.object fields)) := hperm.map _
  calc List.Perm (writes (Entries.insert m operator (.object (Entries.insert fields key v))))
        (payloadWrites operator (.object (Entries.insert fields key v)) ++
          writes (Entries.erase m operator)) := writes_insert hsorted _ _
    List.Perm _ (⟨operator, key, v⟩ :: (payloadWrites operator (.object fields) ++
          writes (Entries.erase m operator))) := hpayloads.append_right _
    List.Perm _ (⟨operator, key, v⟩ :: writes m) := hsplit.symm.cons _

theorem writes_of_moveEntries (ordered : (Value.object m).Ordered)
    (values : ∀ e ∈ moved, e.2.2.Ordered) (h : moveEntries m moved = .ok m') :
    (writes m').Perm (moved.map movedWrite ++ writes m) := by
  induction moved generalizing m with
  | nil =>
    cases h
    exact .refl _
  | cons e rest ih =>
    obtain ⟨operator, key, v⟩ := e
    obtain ⟨hv, hvalues⟩ := List.forall_mem_cons.mp values
    rw [moveEntries, Outcome.bind_eq_ok] at h
    obtain ⟨next, hnext, h⟩ := h
    have hlater := ih (ordered_of_moveEntry ordered hv hnext) hvalues h
    calc List.Perm (writes m') (rest.map movedWrite ++ writes next) := hlater
      List.Perm _ (rest.map movedWrite ++ ⟨operator, key, v⟩ :: writes m) :=
        (writes_of_moveEntry ordered hnext).append_left _
      List.Perm _ (⟨operator, key, v⟩ :: (rest.map movedWrite ++ writes m)) := List.perm_middle

theorem mem_keys_of_moveEntries (h : moveEntries m moved = .ok m') {name : String} :
    name ∈ Entries.keys m' ↔ (∃ e ∈ moved, e.1 = name) ∨ name ∈ Entries.keys m := by
  induction moved generalizing m with
  | nil =>
    cases h
    simp
  | cons e rest ih =>
    obtain ⟨operator, key, v⟩ := e
    rw [moveEntries, Outcome.bind_eq_ok] at h
    obtain ⟨next, hnext, h⟩ := h
    obtain ⟨_, -, -, rfl⟩ := moveEntry_eq_ok_iff.mp hnext
    rw [ih h, Entries.mem_keys_insert]
    simp only [List.mem_cons, exists_eq_or_imp, @eq_comm _ name]
    rw [or_assoc, or_left_comm]

/-- Where something else than an object stands under an operator, nothing is moved. -/
theorem get?_of_moveEntries (h : moveEntries m moved = .ok m') (hpayload : payload.isObject = false) :
    Entries.get? m' operator = some payload ↔ Entries.get? m operator = some payload := by
  refine kept_by_moveEntries (P := fun m' => Entries.get? m' operator = some payload ↔
    Entries.get? m operator = some payload) h (fun e _ before next hbefore hnext => ?_) Iff.rfl
  obtain ⟨fields, hfields, -, rfl⟩ := moveEntry_eq_ok_iff.mp hnext
  rw [← hbefore]
  by_cases htarget : e.1 = operator
  · subst htarget
    rw [Entries.get?_insert_self]
    constructor
    · rintro ⟨⟩
      cases hpayload
    · intro hget
      rw [hget] at hfields
      cases hfields
      cases hpayload
  · rw [Entries.get?_insert_of_ne htarget]

/-! ## The entries of a `$set` -/

theorem isOperator_of_appendOperator? (h : appendOperator? s key v = some operator) :
    DotPath.isOperator operator = true := by
  rcases appendOperator?_eq_some h with rfl | rfl
  · decide
  · decide

theorem keys_movedEntries (s : UpdateSchema) (fields : Entries Value) :
    ((movedEntries s fields).map fun e => e.2.1).Sublist (Entries.keys fields) := by
  induction fields with
  | nil => exact .refl _
  | cons e rest ih =>
    unfold movedEntries at ih ⊢
    cases happend : appendOperator? s e.1 e.2 with
    | some operator =>
      rw [List.filterMap_cons_some (by rw [happend]; rfl)]
      exact ih.cons_cons _
    | none =>
      rw [List.filterMap_cons_none (by rw [happend]; rfl)]
      exact ih.cons _

/-- Every entry is either moved or kept. -/
theorem perm_movedEntries (s : UpdateSchema) (fields : Entries Value) :
    ((payloadWrites "$set" (.object fields)).map (Write.routed s)).Perm
      ((movedEntries s fields).map movedWrite ++
        payloadWrites "$set" (.object (keptEntries s fields))) := by
  have hrouted (e : String × Value) : Write.routed s ⟨"$set", e.1, e.2⟩ =
      ⟨(appendOperator? s e.1 e.2).getD "$set", e.1, e.2⟩ := if_pos rfl
  induction fields with
  | nil => exact .refl _
  | cons e rest ih =>
    simp only [payloadWrites, List.map_cons, hrouted, movedEntries, keptEntries] at ih ⊢
    cases happend : appendOperator? s e.1 e.2 with
    | some operator =>
      rw [List.filterMap_cons_some (by rw [happend]; rfl),
        List.filter_cons_of_neg (by simp [happend])]
      exact ih.cons _
    | none =>
      rw [List.filterMap_cons_none (by rw [happend]; rfl),
        List.filter_cons_of_pos (by simp [happend])]
      exact (ih.cons _).trans List.perm_middle.symm

theorem writes_withoutMoved (ordered : (Value.object m).Ordered) (fields : Entries Value) :
    (writes (withoutMoved s m fields)).Perm
      (payloadWrites "$set" (.object (keptEntries s fields)) ++
        writes (Entries.erase m "$set")) := by
  unfold withoutMoved
  split
  · next hempty =>
    rw [Bool.and_eq_true, List.isEmpty_iff] at hempty
    rw [hempty.1]
    exact .refl _
  · exact writes_insert (Value.ordered_object_iff.mp ordered).1 _ _

theorem get?_withoutMoved (hne : operator ≠ "$set") :
    Entries.get? (withoutMoved s m fields) operator = Entries.get? m operator := by
  unfold withoutMoved
  split
  · rw [Entries.get?_erase, if_neg hne.symm]
  · rw [Entries.get?_insert_of_ne hne.symm]

theorem keys_withoutMoved (hset : Entries.get? m "$set" = some (.object fields)) :
    Entries.keys (withoutMoved s m fields) ⊆ Entries.keys m := by
  have hmem := Entries.mem_keys_of_mem (Entries.mem_of_get? hset)
  unfold withoutMoved
  split
  · exact (List.filter_sublist.map Prod.fst).subset
  · intro name hname
    rcases Entries.mem_keys_insert.mp hname with rfl | hname
    · exact hmem
    · exact hname

/-! ## Routing as a whole -/

theorem map_routed {ws : List Write} (h : ∀ w ∈ ws, w.operator ≠ "$set") :
    ws.map (Write.routed s) = ws :=
  (List.map_congr_left fun w hw => if_neg (h w hw)).trans (List.map_id ws)

/-- The writes are those that were given, the appends among them under the operators
that append. -/
theorem writes_of_routeAppends (ordered : (Value.object given).Ordered)
    (h : routeAppends s given = .ok m) : (writes m).Perm ((writes given).map (Write.routed s)) := by
  have hsorted := (Value.ordered_object_iff.mp ordered).1
  rcases routeAppends_cases h with ⟨fields, hset, h⟩ | ⟨hset, rfl⟩
  · have hothers : (writes (Entries.erase given "$set")).map (Write.routed s) =
        writes (Entries.erase given "$set") := by
      refine map_routed fun w hw => ?_
      obtain ⟨payload, hmem, -⟩ := mem_writes.mp hw
      exact of_decide_eq_true (List.mem_filter.mp hmem).2
    have hgiven := (writes_split hsorted "$set").map (Write.routed s)
    rw [hset, Option.getD_some, List.map_append, hothers] at hgiven
    calc List.Perm (writes m)
          ((movedEntries s fields).map movedWrite ++ writes (withoutMoved s given fields)) :=
          writes_of_moveEntries (ordered_withoutMoved ordered hset)
            (ordered_of_mem_movedEntries ordered hset) h
      List.Perm _ ((movedEntries s fields).map movedWrite ++
          (payloadWrites "$set" (.object (keptEntries s fields)) ++
            writes (Entries.erase given "$set"))) := (writes_withoutMoved ordered fields).append_left _
      List.Perm _ ((payloadWrites "$set" (.object fields)).map (Write.routed s) ++
          writes (Entries.erase given "$set")) := by
        rw [← List.append_assoc]
        exact (perm_movedEntries s fields).symm.append_right _
      List.Perm _ ((writes given).map (Write.routed s)) := hgiven.symm
  · rw [map_routed fun w hw hoperator => ?_]
    obtain ⟨payload, hmem, -⟩ := mem_writes.mp hw
    exact hset payload (Entries.get?_of_mem hsorted.distinct (hoperator ▸ hmem))

/-- Payloads that are no objects stay where they are. -/
theorem get?_of_routeAppends (h : routeAppends s given = .ok m) (hpayload : payload.isObject = false) :
    Entries.get? m operator = some payload ↔ Entries.get? given operator = some payload := by
  rcases routeAppends_cases h with ⟨fields, hset, h⟩ | ⟨-, rfl⟩
  · rw [get?_of_moveEntries h hpayload]
    by_cases hoperator : operator = "$set"
    · subst hoperator
      refine iff_of_false (fun hget => ?_) fun hget => ?_
      · unfold withoutMoved at hget
        split at hget
        · rw [Entries.get?_erase, if_pos rfl] at hget
          cases hget
        · rw [Entries.get?_insert_self] at hget
          cases hget
          cases hpayload
      · rw [hset] at hget
        cases hget
        cases hpayload
    · rw [get?_withoutMoved hoperator]
  · exact Iff.rfl

/-- Routing keeps a modifier of operators one. -/
theorem spelled_of_routeAppends (spelled : Spelled modifier given)
    (h : routeAppends s given = .ok m) : Spelled (.object m) m := by
  have hgiven := spelled.isOperator
  rcases routeAppends_cases h with ⟨fields, hset, h⟩ | ⟨hset, rfl⟩
  · refine .operators (fun hnil => ?_) fun name hname => ?_
    · -- Either an entry was moved, or there still is a `$set`.
      have hempty (name : String) : name ∉ Entries.keys m := by
        rw [hnil]
        exact List.not_mem_nil
      simp only [mem_keys_of_moveEntries h, not_or] at hempty
      have hmoved : movedEntries s fields = [] :=
        List.eq_nil_iff_forall_not_mem.mpr fun e he => (hempty e.1).1 ⟨e, he, rfl⟩
      refine (hempty "$set").2 ?_
      rw [withoutMoved, hmoved, List.isEmpty_nil, Bool.not_true, Bool.and_false,
        if_neg Bool.false_ne_true]
      exact Entries.mem_keys_insert.mpr (.inl rfl)
    · rcases (mem_keys_of_moveEntries h).mp hname with ⟨⟨operator, key, v⟩, he, rfl⟩ | hname
      · exact isOperator_of_appendOperator? (mem_movedEntries.mp he).2
      · exact hgiven name (keys_withoutMoved hset hname)
  · cases spelled with
    | body => exact (hset _ rfl).elim
    | operators hne => exact .operators hne hgiven

/-- A modifier whose `$set` has no appends is routed to itself. -/
theorem routeAppends_of_kept (sorted : Entries.Sorted m)
    (kept : ∀ e ∈ m.setEntries, appendOperator? s e.1 e.2 = none) : routeAppends s m = .ok m := by
  by_cases hset : ∃ fields, Entries.get? m "$set" = some (.object fields)
  · obtain ⟨fields, hset⟩ := hset
    rw [setEntries_of_get? hset] at kept
    rw [routeAppends_of_all_kept hset kept, Entries.insert_of_get? sorted hset]
  · exact routeAppends_of_ne fun fields heq => hset ⟨fields, heq⟩

theorem exists_routeAppends_iff (ordered : (Value.object given).Ordered) :
    (∃ m, routeAppends s given = .ok m) ↔ ∀ e ∈ given.setEntries, ∀ operator,
      appendOperator? s e.1 e.2 = some operator → TakesIn given operator e.1 := by
  by_cases hset : ∃ fields, Entries.get? given "$set" = some (.object fields)
  · obtain ⟨fields, hset⟩ := hset
    have hdistinct : (Entries.keys fields).Nodup := Value.distinct_of_ordered
      (Value.ordered_of_mem_fields ordered (Entries.mem_of_get? hset))
    rw [routeAppends_of_get? hset, setEntries_of_get? hset,
      exists_moveEntries_iff (hdistinct.sublist (keys_movedEntries s fields))]
    -- What is moved does not go back to the `$set`.
    have htakes {operator key : String} {v : Value} (h : appendOperator? s key v = some operator) :
        TakesIn (withoutMoved s given fields) operator key ↔ TakesIn given operator key := by
      rw [TakesIn, get?_withoutMoved (appendOperator?_ne_set h), TakesIn]
    constructor
    · intro hall e he operator hoperator
      exact (htakes hoperator).mp (hall (operator, e.1, e.2) (mem_movedEntries.mpr ⟨he, hoperator⟩))
    · rintro hall ⟨operator, key, v⟩ he
      obtain ⟨he, hoperator⟩ := mem_movedEntries.mp he
      exact (htakes hoperator).mpr (hall (key, v) he operator hoperator)
  · refine iff_of_true ⟨given, routeAppends_of_ne fun fields heq => hset ⟨fields, heq⟩⟩ ?_
    intro e he
    obtain ⟨fields, hfields⟩ := exists_set_of_mem he
    exact (hset ⟨fields, hfields⟩).elim

/-- The explicit form of a modifier has the entries that were given, once each and
unchanged, under the operator that appends them if they stood under `$set`, and else
where they stood; bringing it into explicit form again leaves it as it is. There is one
if every entry that appends finds an object without its key, or nothing, under the
operator that it goes to. -/
theorem normalize_conserves (ordered : modifier.Ordered) :
    (∀ m, normalize s modifier = .ok m → ∃ given, Spelled modifier given ∧
      (writes m).Perm ((writes given).map (Write.routed s)) ∧
      ((writes m).map Write.place).Nodup ∧
      (∀ operator payload, payload.isObject = false →
        (Entries.get? m operator = some payload ↔ Entries.get? given operator = some payload)) ∧
      normalize s (.object m) = .ok m) ∧
    ((∃ m, normalize s modifier = .ok m) ↔ ∃ given, Spelled modifier given ∧
      ∀ e ∈ given.setEntries, ∀ operator, appendOperator? s e.1 e.2 = some operator →
        TakesIn given operator e.1) := by
  have hordered {given : Modifier} (spelled : Spelled modifier given) :
      (Value.object given).Ordered := ordered_of_explicit ordered (explicit_eq_ok_iff.mpr spelled)
  constructor
  · intro m h
    have hm := ordered_of_normalize ordered h
    obtain ⟨given, hgiven, hroute⟩ := Outcome.bind_eq_ok.mp h
    have hspelled := explicit_eq_ok_iff.mp hgiven
    refine ⟨given, hspelled, writes_of_routeAppends (hordered hspelled) hroute, nodup_places hm,
      fun _ _ hpayload => get?_of_routeAppends hroute hpayload, ?_⟩
    have hkept : ∀ e ∈ m.setEntries, appendOperator? s e.1 e.2 = none := by
      rw [(setEntries_of_routeAppends hroute).1]
      exact fun e he => Option.isNone_iff_eq_none.mp (List.mem_filter.mp he).2
    exact Outcome.bind_eq_ok.mpr ⟨m, explicit_eq_ok_iff.mpr (spelled_of_routeAppends hspelled hroute),
      routeAppends_of_kept (Value.ordered_object_iff.mp hm).1 hkept⟩
  · constructor
    · rintro ⟨m, h⟩
      obtain ⟨given, hgiven, hroute⟩ := Outcome.bind_eq_ok.mp h
      have hspelled := explicit_eq_ok_iff.mp hgiven
      exact ⟨given, hspelled, (exists_routeAppends_iff (hordered hspelled)).mp ⟨m, hroute⟩⟩
    · rintro ⟨given, hspelled, htakes⟩
      obtain ⟨m, hroute⟩ := (exists_routeAppends_iff (hordered hspelled)).mpr htakes
      exact ⟨m, Outcome.bind_eq_ok.mpr ⟨given, explicit_eq_ok_iff.mpr hspelled, hroute⟩⟩

/-- A row and a title to set. -/
def rowAndTitle : Entries Value := [("rows", .string "x"), ("title", .string "y")]

/-- The row is pushed, the title is set. -/
theorem rowAndTitle_conserved : ∃ m, normalize ⟨sheet, none⟩ (.object rowAndTitle) = .ok m ∧
    (writes m).Perm [⟨"$push", "rows", .string "x"⟩, ⟨"$set", "title", .string "y"⟩] ∧
    normalize ⟨sheet, none⟩ (.object m) = .ok m := by
  have hordered : (Value.object rowAndTitle).Ordered := by
    have hless : "rows" < "title" := by decide
    exact ⟨List.pairwise_pair.mpr hless, trivial, trivial, trivial⟩
  have hspelled : Spelled (.object rowAndTitle) [("$set", .object rowAndTitle)] :=
    .body (by decide)
  have hrow : appendOperator? ⟨sheet, none⟩ "rows" (.string "x") = some "$push" := by
    unfold appendOperator?
    rw [baseNodeFor?_rows]
    rfl
  have htitle : appendOperator? ⟨sheet, none⟩ "title" (.string "y") = none := by
    unfold appendOperator?
    rw [UpdateSchema.baseNodeFor?_of_top rfl]
    rfl
  obtain ⟨hconserves, haccepts⟩ := normalize_conserves (s := ⟨sheet, none⟩) hordered
  have htakes : ∀ e ∈ rowAndTitle, ∀ operator,
      appendOperator? ⟨sheet, none⟩ e.1 e.2 = some operator →
        TakesIn [("$set", .object rowAndTitle)] operator e.1 := by
    refine List.forall_mem_cons.mpr ⟨fun operator h => ?_,
      List.forall_mem_singleton.mpr fun operator h => ?_⟩
    · cases hrow.symm.trans h
      exact ⟨[], rfl, rfl⟩
    · cases htitle.symm.trans h
  obtain ⟨m, hm⟩ := haccepts.mpr ⟨_, hspelled, htakes⟩
  obtain ⟨given, hgiven, hperm, -, -, hagain⟩ := hconserves m hm
  cases (explicit_eq_ok_iff.mpr hspelled).symm.trans (explicit_eq_ok_iff.mpr hgiven)
  refine ⟨m, hm, ?_, hagain⟩
  simpa [writes, rowAndTitle, Write.routed, hrow, htitle] using hperm

end Modifier

end DocSchema

-- SUMMARY: Where the writes of a parsed modifier come from.
import DocSchema.Proofs.Frames
import DocSchema.Proofs.PlainUpdate

/-!
# The writes that are sent

Every write of a parsed modifier goes back to one of the modifier that was
given, or to a field that the given one does not touch. `Sends` lists the ways, and
`Origin` says in addition what the entries that parsing adds are kept off.
Bringing a modifier into explicit form changes neither paths nor operands, and
of the operators only a `$set` that appends.
-/

namespace DocSchema

namespace Write

theorem mem_roots_iff {w : Write} {name : String} (h : w.operator ≠ "$rename") :
    name ∈ w.roots ↔ DotPath.rootOf w.path = name := by
  unfold roots
  rw [if_neg h, List.mem_singleton, eq_comm]

end Write

namespace Modifier

variable {s : UpdateSchema} {ctx : Context} {m : Modifier} {w : Write}

theorem mem_writes : w ∈ writes m ↔
    ∃ payload, (w.operator, .object payload) ∈ m ∧ (w.path, w.operand) ∈ payload := by
  unfold writes
  rw [List.mem_flatMap]
  constructor
  · rintro ⟨⟨operator, payload⟩, he, hw⟩
    cases payload with
    | object fields =>
      obtain ⟨f, hf, rfl⟩ := List.mem_map.mp hw
      exact ⟨fields, he, hf⟩
    | _ => cases hw
  · rintro ⟨payload, he, hw⟩
    exact ⟨_, he, List.mem_map.mpr ⟨_, hw, rfl⟩⟩

/-! ## Touched fields -/

theorem ne_rename_of_parsed {operator : String} (h : operator ∈ parsedOperators) :
    operator ≠ "$rename" := by
  rintro rfl
  revert h
  decide

section Touched

variable {name : String}

/-- The fields that operators other than `$set` lead into. -/
theorem mem_targetedRoots_iff :
    name ∈ targetedRoots m ↔ ∃ w ∈ writes m, w.operator ≠ "$set" ∧ name ∈ w.roots := by
  have roots_of_payload (operator : String) (payload : Entries Value) :
      name ∈ writtenRoots payload ++ (if operator = "$rename" then targetRoots payload else []) ↔
        ∃ e ∈ payload, name ∈ (Write.mk operator e.1 e.2).roots := by
    by_cases hrename : operator = "$rename"
    · simp only [writtenRoots, targetRoots, Write.roots, if_pos hrename, List.mem_append,
        List.mem_map, List.mem_filterMap, List.mem_cons, Option.mem_toList,
        and_or_left, exists_or, @eq_comm _ name]
    · simp only [writtenRoots, Write.roots, if_neg hrename, List.append_nil, List.mem_map,
        List.mem_singleton, @eq_comm _ name]
  unfold targetedRoots
  rw [List.mem_flatMap]
  constructor
  · rintro ⟨⟨operator, payload⟩, he, hname⟩
    split at hname
    · cases hname
    · next hset =>
      cases payload with
      | object fields =>
        obtain ⟨e, hmem, hroot⟩ := (roots_of_payload operator fields).mp hname
        exact ⟨⟨operator, e.1, e.2⟩, mem_writes.mpr ⟨fields, he, hmem⟩, hset, hroot⟩
      | _ => cases hname
  · rintro ⟨w, hw, hset, hroot⟩
    obtain ⟨fields, he, hmem⟩ := mem_writes.mp hw
    refine ⟨_, he, ?_⟩
    rw [if_neg hset]
    exact (roots_of_payload w.operator fields).mpr ⟨_, hmem, hroot⟩

theorem mem_roots_of_touched (h : name ∈ touchedRoots m) : ∃ w ∈ writes m, name ∈ w.roots := by
  rcases List.mem_append.mp h with h | h
  · cases hget : Entries.get? m "$set" with
    | none =>
      rw [hget] at h
      cases h
    | some payload =>
      rw [hget] at h
      cases payload with
      | object fields =>
        obtain ⟨e, he, rfl⟩ := List.mem_map.mp h
        exact ⟨⟨"$set", e.1, e.2⟩, mem_writes.mpr ⟨fields, Entries.mem_of_get? hget, he⟩,
          List.mem_cons_self⟩
      | _ => cases h
  · obtain ⟨w, hw, -, hroot⟩ := mem_targetedRoots_iff.mp h
    exact ⟨w, hw, hroot⟩

theorem mem_touchedRoots (distinct : (Entries.keys m).Nodup) (hw : w ∈ writes m)
    (h : name ∈ w.roots) : name ∈ touchedRoots m := by
  by_cases hset : w.operator = "$set"
  · obtain ⟨payload, he, hmem⟩ := mem_writes.mp hw
    rw [hset] at he
    have hrename : w.operator ≠ "$rename" := by
      rw [hset]
      decide
    refine List.mem_append_left _ ?_
    rw [Entries.get?_of_mem distinct he]
    exact List.mem_map.mpr ⟨_, hmem, (Write.mem_roots_iff hrename).mp h⟩
  · exact List.mem_append_right _ (mem_targetedRoots_iff.mpr ⟨w, hw, hset, h⟩)

end Touched

/-! ## Explicit form -/

/-- The writes that a modifier asks for. -/
def writesOf (modifier : Value) : List Write :=
  match explicit modifier with
  | .ok m => writes m
  | .error _ => []

theorem mem_writes_of_moveEntry {m' : Modifier} {operator key : String} {v : Value}
    (h : moveEntry m operator key v = .ok m') (hw : w ∈ writes m') :
    w = ⟨operator, key, v⟩ ∨ w ∈ writes m := by
  obtain ⟨fields, hfields, -, rfl⟩ := moveEntry_eq_ok_iff.mp h
  obtain ⟨payload, hpayload, hmem⟩ := mem_writes.mp hw
  rcases Entries.mem_insert hpayload with heq | hold
  · obtain ⟨hoperator, hobject⟩ := Prod.mk.inj heq
    cases hobject
    rcases Entries.mem_insert hmem with heq | hmem
    · obtain ⟨hpath, hoperand⟩ := Prod.mk.inj heq
      left
      rw [← hoperator, ← hpath, ← hoperand]
    · -- Another entry of the payload was there before.
      cases hget : Entries.get? m operator with
      | none =>
        rw [hget] at hfields
        cases hfields
        cases hmem
      | some old =>
        rw [hget] at hfields
        cases hfields
        exact .inr (mem_writes.mpr ⟨fields, hoperator ▸ Entries.mem_of_get? hget, hmem⟩)
  · exact .inr (mem_writes.mpr ⟨payload, hold, hmem⟩)

theorem mem_writes_of_moveEntries {m' : Modifier} {moved : List (String × String × Value)}
    (h : moveEntries m moved = .ok m') (hw : w ∈ writes m') :
    (w.operator, w.path, w.operand) ∈ moved ∨ w ∈ writes m := by
  refine kept_by_moveEntries (P := fun m' => ∀ w ∈ writes m',
    (w.operator, w.path, w.operand) ∈ moved ∨ w ∈ writes m) h ?_ (fun _ => .inr) w hw
  intro e he before next hbefore hnext w hw
  rcases mem_writes_of_moveEntry hnext hw with rfl | hw
  · exact .inl he
  · exact hbefore w hw

/-- A write of the explicit form was asked for, or is a `$set` that appends. -/
theorem writesOf_of_normalize {modifier : Value} (h : normalize s modifier = .ok m)
    (hw : w ∈ writes m) : w ∈ writesOf modifier ∨
      (w.operator = "$push" ∨ w.operator = "$addToSet") ∧
        ⟨"$set", w.path, w.operand⟩ ∈ writesOf modifier := by
  unfold normalize at h
  rw [Outcome.bind_eq_ok] at h
  obtain ⟨given, hgiven, h⟩ := h
  have hwrites : writesOf modifier = writes given := by
    unfold writesOf
    rw [hgiven]
  rw [hwrites]
  rcases routeAppends_cases h with ⟨fields, hset, h⟩ | ⟨-, rfl⟩
  · have hpayload := Entries.mem_of_get? hset
    rcases mem_writes_of_moveEntries h hw with hmoved | hkept
    · obtain ⟨he, hoperator⟩ := mem_movedEntries.mp hmoved
      exact .inr ⟨appendOperator?_eq_some hoperator, mem_writes.mpr ⟨fields, hpayload, he⟩⟩
    · obtain ⟨payload, hkept, hmem⟩ := mem_writes.mp hkept
      refine .inl (mem_writes.mpr ?_)
      unfold withoutMoved at hkept
      split at hkept
      · exact ⟨payload, (List.mem_filter.mp hkept).1, hmem⟩
      · rcases Entries.mem_insert hkept with heq | hold
        · obtain ⟨hoperator, hobject⟩ := Prod.mk.inj heq
          cases hobject
          exact ⟨fields, hoperator ▸ hpayload, (List.mem_filter.mp hmem).1⟩
        · exact ⟨payload, hold, hmem⟩
  · exact .inl hw

/-- Bringing a modifier that sets nothing into explicit form leaves its writes. -/
theorem mem_writes_iff_of_normalize {modifier : Value} (h : normalize s modifier = .ok m)
    (unset : ∀ w ∈ writesOf modifier, w.operator ≠ "$set") :
    w ∈ writes m ↔ w ∈ writesOf modifier := by
  unfold normalize at h
  rw [Outcome.bind_eq_ok] at h
  obtain ⟨given, hgiven, h⟩ := h
  have hwrites : writesOf modifier = writes given := by
    unfold writesOf
    rw [hgiven]
  rw [hwrites] at unset ⊢
  rcases routeAppends_cases h with ⟨fields, hset, h⟩ | ⟨-, rfl⟩
  · -- Nothing is moved: there is at most an empty `$set`.
    have hnil : fields = [] := List.eq_nil_iff_forall_not_mem.mpr fun e he =>
      unset ⟨"$set", e.1, e.2⟩ (mem_writes.mpr ⟨fields, Entries.mem_of_get? hset, he⟩) rfl
    subst hnil
    cases h
    constructor
    · intro hw
      obtain ⟨payload, hpayload, hmem⟩ := mem_writes.mp hw
      rcases Entries.mem_insert hpayload with heq | hold
      · cases Value.object.inj (Prod.mk.inj heq).2
        cases hmem
      · exact mem_writes.mpr ⟨payload, hold, hmem⟩
    · intro hw
      obtain ⟨payload, hpayload, hmem⟩ := mem_writes.mp hw
      exact mem_writes.mpr ⟨payload, Entries.mem_insert_of_ne hpayload (unset w hw), hmem⟩
  · exact Iff.rfl

/-! ## Parsed payloads -/

theorem mem_writes_of_put {operator : String} {fields : Entries Value}
    (hw : w ∈ writes (put m operator fields)) :
    w.operator = operator ∧ (w.path, w.operand) ∈ fields ∨ w ∈ writes m := by
  obtain ⟨payload, hpayload, hmem⟩ := mem_writes.mp hw
  unfold put at hpayload
  split at hpayload
  · exact .inr (mem_writes.mpr ⟨payload, (List.mem_filter.mp hpayload).1, hmem⟩)
  · rcases Entries.mem_insert hpayload with heq | hold
    · obtain ⟨hoperator, hobject⟩ := Prod.mk.inj heq
      cases hobject
      exact .inl ⟨hoperator, hmem⟩
    · exact .inr (mem_writes.mpr ⟨payload, hold, hmem⟩)

theorem mem_writes_put_of_ne {operator : String} {fields : Entries Value} (hw : w ∈ writes m)
    (hne : w.operator ≠ operator) : w ∈ writes (put m operator fields) := by
  obtain ⟨payload, hpayload, hmem⟩ := mem_writes.mp hw
  refine mem_writes.mpr ⟨payload, ?_, hmem⟩
  unfold put
  split
  · exact List.mem_filter.mpr ⟨hpayload, by simpa using hne⟩
  · exact Entries.mem_insert_of_ne hpayload hne

theorem get?_put_of_mem {operator : String} {fields : Entries Value} {e : String × Value}
    (he : e ∈ fields) : Entries.get? (put m operator fields) operator = some (.object fields) := by
  unfold put
  cases fields with
  | nil => cases he
  | cons f rest => simp

theorem get?_put_of_ne {operator other : String} (h : operator ≠ other) {fields : Entries Value} :
    Entries.get? (put m operator fields) other = Entries.get? m other := by
  unfold put
  split
  · rw [Entries.get?_erase, if_neg h]
  · exact Entries.get?_insert_of_ne h m _

theorem mem_writes_put {operator : String} {fields : Entries Value} {e : String × Value}
    (he : e ∈ fields) : ⟨operator, e.1, e.2⟩ ∈ writes (put m operator fields) :=
  mem_writes.mpr ⟨fields, Entries.mem_of_get? (get?_put_of_mem he), he⟩

theorem mem_onInsert {e : String × Value} (he : e ∈ m.onInsert) :
    ⟨"$setOnInsert", e.1, e.2⟩ ∈ writes m := by
  unfold onInsert at he
  split at he
  · next fields hget => exact mem_writes.mpr ⟨fields, Entries.mem_of_get? hget, he⟩
  · cases he

theorem parseOperators_mem {others : Modifier} (h : parseOperators s ctx m = .ok others)
    {e : String × Value} (he : e ∈ others) :
    e.1 ≠ "$set" ∧ ∃ payload, (e.1, payload) ∈ m ∧
      parseOperator s e.1 payload ctx = .ok e.2 := by
  induction m generalizing others with
  | nil =>
    cases h
    cases he
  | cons first rest ih =>
    obtain ⟨operator, payload⟩ := first
    rw [parseOperators] at h
    split at h
    · obtain ⟨hne, payload', hmem, hparsed⟩ := ih h he
      exact ⟨hne, payload', List.mem_cons_of_mem _ hmem, hparsed⟩
    · next hset =>
      simp only [Outcome.bind_eq_ok, Except.ok.injEq] at h
      obtain ⟨parsed, hparsed, others', hothers, rfl⟩ := h
      rcases List.mem_cons.mp he with rfl | he
      · exact ⟨hset, payload, List.mem_cons_self, hparsed⟩
      · obtain ⟨hne, payload', hmem, hparsed'⟩ := ih hothers he
        exact ⟨hne, payload', List.mem_cons_of_mem _ hmem, hparsed'⟩

theorem mem_parseOperators {others : Modifier} (h : parseOperators s ctx m = .ok others)
    {operator : String} {payload : Value} (he : (operator, payload) ∈ m)
    (unset : operator ≠ "$set") :
    ∃ parsed, (operator, parsed) ∈ others ∧ parseOperator s operator payload ctx = .ok parsed := by
  induction m generalizing others with
  | nil => cases he
  | cons first rest ih =>
    obtain ⟨operator', payload'⟩ := first
    rw [parseOperators] at h
    split at h
    · next hset =>
      rcases List.mem_cons.mp he with heq | he
      · exact (unset ((Prod.mk.inj heq).1.trans hset)).elim
      · exact ih h he
    · simp only [Outcome.bind_eq_ok, Except.ok.injEq] at h
      obtain ⟨parsed, hparsed, others', hothers, rfl⟩ := h
      rcases List.mem_cons.mp he with heq | he
      · cases heq
        exact ⟨parsed, List.mem_cons_self, hparsed⟩
      · obtain ⟨parsed', hmem, hparsed'⟩ := ih hothers he
        exact ⟨parsed', List.mem_cons_of_mem _ hmem, hparsed'⟩

/-- What is written under an operator was parsed at its key, or passed unchanged. -/
theorem writes_of_parseOperators {others : Modifier} (h : parseOperators s ctx m = .ok others)
    (hw : w ∈ writes others) :
    (w.operator ∈ parsedOperators ∧ ∃ v, ⟨w.operator, w.path, v⟩ ∈ writes m ∧
      ParsesEntry s ctx (w.path, v) (some w.operand)) ∨
    (w.operator ∈ passedOperators ∧ w ∈ writes m) := by
  obtain ⟨out, hout, hmem⟩ := mem_writes.mp hw
  obtain ⟨-, payload, hpayload, hparsed⟩ := parseOperators_mem h hout
  unfold parseOperator at hparsed
  dsimp only at hpayload hparsed
  split at hparsed
  · next hoperator =>
    simp only [Outcome.map_eq_ok, parsePayload, Outcome.bind_eq_ok, parseEntries_eq_ok_iff]
      at hparsed
    obtain ⟨_, ⟨fields, hfields, hcollects⟩, heq⟩ := hparsed
    cases heq
    unfold payloadEntries at hfields
    split at hfields
    · cases hfields
      obtain ⟨e, he, hname, hparses⟩ := hcollects.source hmem
      refine .inl ⟨hoperator, e.2, mem_writes.mpr ⟨_, hpayload, ?_⟩, ?_⟩
      · rw [← hname]
        exact he
      · rw [← hname]
        exact hparses
    · cases hfields
  · split at hparsed
    · next hoperator =>
      split at hparsed
      · cases hparsed
        exact .inr ⟨hoperator, mem_writes.mpr ⟨out, hpayload, hmem⟩⟩
      · cases hparsed
    · cases hparsed

/-- What is asked for under an operator whose payload is parsed is parsed at its key, and
written if something comes out. -/
theorem exists_parsesEntry_of_parseOperators {others : Modifier}
    (h : parseOperators s ctx m = .ok others) (hw : w ∈ writes m) (unset : w.operator ≠ "$set")
    (hoperator : w.operator ∈ parsedOperators) : ∃ r, ParsesEntry s ctx (w.path, w.operand) r ∧
      ∀ v, r = some v → ⟨w.operator, w.path, v⟩ ∈ writes others := by
  obtain ⟨payload, hpayload, hmem⟩ := mem_writes.mp hw
  obtain ⟨out, hout, hparsed⟩ := mem_parseOperators h hpayload unset
  unfold parseOperator at hparsed
  simp only [if_pos hoperator, Outcome.map_eq_ok, parsePayload, payloadEntries,
    Outcome.bind_eq_ok, Except.ok.injEq, exists_eq_left', parseEntries_eq_ok_iff] at hparsed
  obtain ⟨fields, hcollects, rfl⟩ := hparsed
  rcases hcollects.target hmem with hnone | ⟨v, hv, hfield⟩
  · exact ⟨none, hnone, fun v hv => by cases hv⟩
  · refine ⟨some v, hv, fun v' heq => ?_⟩
    cases heq
    exact mem_writes.mpr ⟨fields, hout, hfield⟩

/-! ## Remembered defaults -/

/-- The default of a field gives a value. -/
def Remembers (ctx : Context) (field : DefaultField) (v : Value) : Prop :=
  ∃ d, field.default ctx = some d ∧ field.inner.Parses ctx (some d) (some v)

/-- A default is put among the entries unless it is supplied, there already, or
gives nothing. -/
theorem addDefaults_cons {supplied : List String} {field : DefaultField}
    {rest : List DefaultField} {onInsert out : Entries Value}
    (h : addDefaults ctx supplied (field :: rest) onInsert = .ok out) :
    ∃ next, addDefaults ctx supplied rest next = .ok out ∧
      (field.name ∉ supplied ∧
          (∃ v, Remembers ctx field v ∧ next = Entries.insert onInsert field.name v) ∨
        next = onInsert ∧ (supplied.contains field.name = true ∨
          field.name ∈ Entries.keys onInsert ∨
          ∀ d, field.default ctx = some d → field.inner.Parses ctx (some d) none)) := by
  rw [addDefaults] at h
  split at h
  · next hskip =>
    rw [Bool.or_eq_true, Entries.contains_iff] at hskip
    exact ⟨onInsert, h, .inr ⟨rfl, hskip.imp_right .inl⟩⟩
  · next hadded =>
    split at h
    · next hd =>
      refine ⟨onInsert, h, .inr ⟨rfl, .inr (.inr fun d hd' => ?_)⟩⟩
      cases hd.symm.trans hd'
    · next d hd =>
      simp only [Outcome.bind_eq_ok, Outcome.mapError_eq_ok, Node.parser_eq_ok_iff] at h
      obtain ⟨r, hr, h⟩ := h
      cases r with
      | some v =>
        have hleft : field.name ∉ supplied := fun hmem => hadded (by simp [hmem])
        exact ⟨_, h, .inl ⟨hleft, v, ⟨d, hd, hr⟩, rfl⟩⟩
      | none =>
        refine ⟨onInsert, h, .inr ⟨rfl, .inr (.inr fun d' hd' => ?_)⟩⟩
        cases hd.symm.trans hd'
        exact hr

/-- What is added to the entries for an insertion is what the default of a field gives
that is not supplied. -/
theorem mem_of_addDefaults {supplied : List String} {fields : List DefaultField}
    {onInsert out : Entries Value} (h : addDefaults ctx supplied fields onInsert = .ok out)
    {e : String × Value} (he : e ∈ out) :
    e ∈ onInsert ∨
      ∃ field ∈ fields, field.name = e.1 ∧ field.name ∉ supplied ∧ Remembers ctx field e.2 := by
  induction fields generalizing onInsert with
  | nil =>
    cases h
    exact .inl he
  | cons field rest ih =>
    obtain ⟨next, hrest, hnext⟩ := addDefaults_cons h
    rcases ih hrest with hmem | ⟨field', hfield', hgives⟩
    · rcases hnext with ⟨hleft, v, hv, rfl⟩ | ⟨rfl, -⟩
      · rcases Entries.mem_insert hmem with rfl | hold
        · exact .inr ⟨field, List.mem_cons_self, rfl, hleft, hv⟩
        · exact .inl hold
      · exact .inl hmem
    · exact .inr ⟨field', List.mem_cons_of_mem _ hfield', hgives⟩

theorem keys_subset_addDefaults {supplied : List String} {fields : List DefaultField}
    {onInsert out : Entries Value} (h : addDefaults ctx supplied fields onInsert = .ok out) :
    Entries.keys onInsert ⊆ Entries.keys out := by
  induction fields generalizing onInsert with
  | nil =>
    cases h
    exact List.Subset.refl _
  | cons field rest ih =>
    obtain ⟨next, hrest, hnext⟩ := addDefaults_cons h
    rcases hnext with ⟨-, v, -, rfl⟩ | ⟨rfl, -⟩
    · have hinsert : Entries.keys onInsert ⊆ Entries.keys (Entries.insert onInsert field.name v) :=
        fun name hname => Entries.mem_keys_insert.mpr (.inr hname)
      exact List.Subset.trans hinsert (ih hrest)
    · exact ih hrest

/-- A default that does not vanish is there in the end unless it is supplied. -/
theorem mem_keys_of_addDefaults {supplied : List String} {fields : List DefaultField}
    {onInsert out : Entries Value} (h : addDefaults ctx supplied fields onInsert = .ok out)
    {field : DefaultField} (hfield : field ∈ fields)
    (left : supplied.contains field.name = false) {d : Value} (given : field.default ctx = some d)
    (stays : ¬ field.inner.Parses ctx (some d) none) : field.name ∈ Entries.keys out := by
  induction fields generalizing onInsert with
  | nil => cases hfield
  | cons first rest ih =>
    obtain ⟨next, hrest, hnext⟩ := addDefaults_cons h
    rcases List.mem_cons.mp hfield with rfl | hfield
    · refine keys_subset_addDefaults hrest ?_
      rcases hnext with ⟨-, w, -, hinsert⟩ | ⟨hsame, hsupplied | hthere | hnone⟩
      · exact hinsert ▸ Entries.mem_keys_insert.mpr (.inl rfl)
      · rw [left] at hsupplied
        cases hsupplied
      · exact hsame ▸ hthere
      · exact (stays (hnone d given)).elim
    · exact ih hrest hfield

/-! ## Whole modifiers -/

theorem parse_eq_ok {modifier : Value} {upsert : Bool} {out : Modifier}
    (h : parse s modifier upsert ctx = .ok out) : ∃ m others set, normalize s modifier = .ok m ∧
      parseOperators s ctx m = .ok others ∧
      parseAndFill s ((Entries.get? m "$set").getD .empty) (targetedRoots m) ctx = .ok set ∧
      ((upsert = false ∧ out = put others "$set" set) ∨ upsert = true ∧ ∃ remembered,
        addDefaults ctx (targetedRoots m ++ writtenRoots set) s.defaults others.onInsert =
          .ok remembered ∧
        out = put (put others "$setOnInsert" remembered) "$set" set) := by
  simp only [parse, Outcome.bind_eq_ok] at h
  obtain ⟨m, hm, others, hothers, set, hset, h⟩ := h
  refine ⟨m, others, set, hm, hothers, hset, ?_⟩
  cases upsert with
  | false =>
    simp only [Bool.false_eq_true, if_false] at h
    obtain ⟨_, rfl, rfl⟩ := h
    exact .inl ⟨rfl, rfl⟩
  | true =>
    simp only [if_true, Outcome.bind_eq_ok, Except.ok.injEq] at h
    obtain ⟨remembered, hremembered, _, rfl, rfl⟩ := h
    exact .inr ⟨rfl, remembered, hremembered, rfl⟩

/-- The ways in which a parsed modifier comes to a write, from the modifier `m` in
explicit form. -/
inductive Sends (ctx : Context) (s : UpdateSchema) (m : Modifier) (upsert : Bool) :
    Write → Prop where
  /-- A write was parsed at its key. -/
  | parsed {operator path : String} {v operand : Value} :
    ⟨operator, path, v⟩ ∈ writes m → operator ∈ parsedOperators →
      ParsesEntry s ctx (path, v) (some operand) → Sends ctx s m upsert ⟨operator, path, operand⟩
  /-- A write passed unchanged. -/
  | passed {w : Write} : w ∈ writes m → w.operator ∈ passedOperators → Sends ctx s m upsert w
  /-- A field that the modifier does not touch was run as absent. -/
  | filled {f : String × Node} {v : Value} : f ∈ s.base → f.1 ∉ touchedRoots m →
      FillsField ctx f (some v) → Sends ctx s m upsert ⟨"$set", f.1, v⟩
  /-- An upsert remembered the default of a field. -/
  | remembered {field : DefaultField} {v : Value} : upsert = true → field ∈ s.defaults →
      Remembers ctx field v → Sends ctx s m upsert ⟨"$setOnInsert", field.name, v⟩

/-- The write is what became of the entry that the modifier has under its operator and
path. -/
def Stems (s : UpdateSchema) (ctx : Context) (m : Modifier) (w : Write) : Prop :=
  ∃ v, ⟨w.operator, w.path, v⟩ ∈ writes m ∧
    (w.operator ∈ parsedOperators ∧ ParsesEntry s ctx (w.path, v) (some w.operand) ∨
      w.operator ∈ passedOperators ∧ v = w.operand)

/-- The ways again, with the payloads `set` and `onInsert` that are sent, and with what
parsing keeps the entries off that it adds. -/
inductive Origin (ctx : Context) (s : UpdateSchema) (m : Modifier) (upsert : Bool)
    (set onInsert : Entries Value) : Write → Prop where
  | asked {w : Write} : Stems s ctx m w → (w.operator = "$set" → (w.path, w.operand) ∈ set) →
      Origin ctx s m upsert set onInsert w
  | filled {f : String × Node} {v : Value} : f ∈ s.base → f.1 ∉ touchedRoots m →
      FillsField ctx f (some v) → (f.1, v) ∈ set →
      Origin ctx s m upsert set onInsert ⟨"$set", f.1, v⟩
  | remembered {field : DefaultField} {v : Value} : upsert = true → field ∈ s.defaults →
      field.name ∉ targetedRoots m → field.name ∉ writtenRoots set → Remembers ctx field v →
      (field.name, v) ∈ onInsert →
      Origin ctx s m upsert set onInsert ⟨"$setOnInsert", field.name, v⟩

theorem Origin.sends {upsert : Bool} {set onInsert : Entries Value}
    (h : Origin ctx s m upsert set onInsert w) : Sends ctx s m upsert w := by
  cases h with
  | asked hstems _ =>
    obtain ⟨v, hv, ⟨hoperator, hparses⟩ | ⟨hoperator, rfl⟩⟩ := hstems
    · exact .parsed hv hoperator hparses
    · exact .passed hv hoperator
  | filled hf huntouched hfills _ => exact .filled hf huntouched hfills
  | remembered hupsert hfield _ _ hgives _ => exact .remembered hupsert hfield hgives

section Origin

variable {upsert : Bool} {set onInsert : Entries Value}

/-- What the parsed `$set` writes. -/
theorem origin_of_parseAndFill
    (h : parseAndFill s ((Entries.get? m "$set").getD .empty) (targetedRoots m) ctx = .ok set)
    (hoperator : w.operator = "$set") (hmem : (w.path, w.operand) ∈ set) :
    Origin ctx s m upsert set onInsert w := by
  obtain ⟨operator, path, operand⟩ := w
  dsimp only at hoperator hmem
  subst hoperator
  obtain ⟨input, parsed, filled, hinput, hparsed, hfilled, rfl⟩ := parseAndFill_eq_ok_iff.mp h
  rcases Entries.mem_insertAll hmem with he | he
  · obtain ⟨e', he', hname, hparses⟩ := hparsed.source he
    subst hname
    have hoperator : "$set" ∈ parsedOperators := by decide
    refine .asked ⟨e'.2, mem_writes.mpr ⟨input, ?_, he'⟩, .inl ⟨hoperator, hparses⟩⟩ fun _ => hmem
    cases hget : Entries.get? m "$set" with
    | none =>
      rw [hget] at hinput
      cases hinput
      cases he'
    | some payload =>
      rw [hget] at hinput
      cases hinput
      exact Entries.mem_of_get? hget
  · obtain ⟨f, hf, hname, hfills⟩ := hfilled.source he
    obtain ⟨hbase, hcondition⟩ := List.mem_filter.mp hf
    simp only [Bool.and_eq_true, Bool.not_eq_true', List.contains_eq_mem,
      decide_eq_false_iff_not] at hcondition
    subst hname
    exact .filled hbase (touchedRoots_eq hinput ▸ hcondition.1) hfills hmem

theorem origin_of_parseOperators {others : Modifier} (h : parseOperators s ctx m = .ok others)
    (hw : w ∈ writes others) : Origin ctx s m upsert set onInsert w := by
  have hunset : w.operator ≠ "$set" := by
    obtain ⟨payload, hpayload, -⟩ := mem_writes.mp hw
    exact (parseOperators_mem h hpayload).1
  refine .asked ?_ fun hset => (hunset hset).elim
  rcases writes_of_parseOperators h hw with ⟨hoperator, v, hv, hparses⟩ | ⟨hoperator, hw⟩
  · exact ⟨v, hv, .inl ⟨hoperator, hparses⟩⟩
  · exact ⟨w.operand, hw, .inr ⟨hoperator, rfl⟩⟩

end Origin

/-- Every write of a parsed modifier has an origin. -/
theorem origin_of_parse {modifier : Value} {upsert : Bool} {out : Modifier}
    (h : parse s modifier upsert ctx = .ok out) :
    ∃ m others set onInsert, normalize s modifier = .ok m ∧ parseOperators s ctx m = .ok others ∧
      parseAndFill s ((Entries.get? m "$set").getD .empty) (targetedRoots m) ctx = .ok set ∧
      (upsert = true → addDefaults ctx (targetedRoots m ++ writtenRoots set) s.defaults
        others.onInsert = .ok onInsert) ∧
      ∀ w ∈ writes out, Origin ctx s m upsert set onInsert w := by
  obtain ⟨m, others, set, hm, hothers, hset, hout⟩ := parse_eq_ok h
  rcases hout with ⟨rfl, rfl⟩ | ⟨hupsert, remembered, hremembered, rfl⟩
  · refine ⟨m, others, set, [], hm, hothers, hset, (fun h => by cases h), fun w hw => ?_⟩
    rcases mem_writes_of_put hw with ⟨hoperator, hmem⟩ | hw
    · exact origin_of_parseAndFill hset hoperator hmem
    · exact origin_of_parseOperators hothers hw
  · refine ⟨m, others, set, remembered, hm, hothers, hset, fun _ => hremembered, fun w hw => ?_⟩
    rcases mem_writes_of_put hw with ⟨hoperator, hmem⟩ | hw
    · exact origin_of_parseAndFill hset hoperator hmem
    rcases mem_writes_of_put hw with ⟨hoperator, hmem⟩ | hw
    · obtain ⟨operator, path, operand⟩ := w
      dsimp only at hoperator hmem
      subst hoperator
      rcases mem_of_addDefaults hremembered hmem with hold | ⟨field, hfield, hname, hleft, hgives⟩
      · exact origin_of_parseOperators hothers (mem_onInsert hold)
      · dsimp only at hname
        subst hname
        rw [List.mem_append, not_or] at hleft
        exact .remembered hupsert hfield hleft.1 hleft.2 hgives hmem
    · exact origin_of_parseOperators hothers hw

theorem sends_of_parse {modifier : Value} {upsert : Bool} {out : Modifier}
    (h : parse s modifier upsert ctx = .ok out) :
    ∃ m, normalize s modifier = .ok m ∧ ∀ w ∈ writes out, Sends ctx s m upsert w := by
  obtain ⟨m, others, set, onInsert, hm, -, -, -, horigin⟩ := origin_of_parse h
  exact ⟨m, hm, fun w hw => (horigin w hw).sends⟩

/-- A field that the modifier does not touch is written if its type makes a value
of absence. -/
theorem exists_write_of_fills {modifier : Value} {upsert : Bool} {out : Modifier}
    (h : parse s modifier upsert ctx = .ok out) (normal : normalize s modifier = .ok m)
    {f : String × Node} (hf : f ∈ s.base) (untouched : f.1 ∉ touchedRoots m)
    (absent : f.2.relax.acceptsAbsent = true) {v : Value} (fills : FillsField ctx f (some v)) :
    ∃ v', ⟨"$set", f.1, v'⟩ ∈ writes out := by
  obtain ⟨m', others, set, hm', -, hset, hout⟩ := parse_eq_ok h
  cases hm'.symm.trans normal
  obtain ⟨input, parsed, filled, hinput, -, hfilled, rfl⟩ := parseAndFill_eq_ok_iff.mp hset
  have hunwritten : f ∈ unwritten s (writtenRoots input ++ targetedRoots m) := by
    refine List.mem_filter.mpr ⟨hf, ?_⟩
    rw [← touchedRoots_eq hinput]
    simp [absent, untouched]
  have hkey : f.1 ∈ Entries.keys (Entries.insertAll parsed filled) := by
    refine Entries.mem_keys_insertAll.mpr (.inr ?_)
    rcases hfilled.target hunwritten with hnone | ⟨w, -, hw⟩
    · cases fills.unique hnone
    · exact Entries.mem_keys_of_mem hw
  obtain ⟨e, he, hname⟩ := List.mem_map.mp hkey
  refine ⟨e.2, ?_⟩
  rcases hout with ⟨-, rfl⟩ | ⟨-, remembered, -, rfl⟩
  · exact hname ▸ mem_writes_put he
  · exact hname ▸ mem_writes_put he

/-- An upsert writes a default that does not vanish, unless the modifier writes the field. -/
theorem exists_write_of_default {modifier : Value} {out : Modifier}
    (h : parse s modifier true ctx = .ok out) (normal : normalize s modifier = .ok m)
    {field : DefaultField} (hfield : field ∈ s.defaults)
    (untargeted : field.name ∉ targetedRoots m)
    (unset : ∀ w ∈ writes out, w.operator = "$set" → DotPath.rootOf w.path ≠ field.name)
    {d : Value} (given : field.default ctx = some d)
    (stays : ¬ field.inner.Parses ctx (some d) none) :
    ∃ v', ⟨"$setOnInsert", field.name, v'⟩ ∈ writes out := by
  obtain ⟨m', others, set, hm', -, -, hout⟩ := parse_eq_ok h
  cases hm'.symm.trans normal
  rcases hout with ⟨hfalse, -⟩ | ⟨-, remembered, hremembered, rfl⟩
  · cases hfalse
  · have hleft : (targetedRoots m ++ writtenRoots set).contains field.name = false := by
      rw [List.contains_eq_mem, decide_eq_false_iff_not, List.mem_append, not_or]
      refine ⟨untargeted, fun hwritten => ?_⟩
      obtain ⟨e, he, hroot⟩ := List.mem_map.mp hwritten
      exact unset _ (mem_writes_put he) rfl hroot
    obtain ⟨e, he, hname⟩ := List.mem_map.mp (mem_keys_of_addDefaults hremembered hfield hleft given
      stays)
    refine ⟨e.2, ?_⟩
    have hpayload : Entries.get? (put others "$setOnInsert" remembered) "$setOnInsert" =
        some (.object remembered) := get?_put_of_mem he
    refine hname ▸ mem_writes.mpr ⟨remembered, ?_, he⟩
    have hne : "$set" ≠ "$setOnInsert" := by decide
    exact Entries.mem_of_get? ((get?_put_of_ne hne).trans hpayload)

end Modifier

end DocSchema

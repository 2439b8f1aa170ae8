-- SUMMARY: What parsing a modifier does to each payload, key by key.
import DocSchema.Proofs.Collects
import DocSchema.Proofs.Relaxation
import DocSchema.Update.Modifier

/-!
# Payloads of modifiers

Bringing a modifier into explicit form moves the appends out of its `$set` one by
one, or does nothing. Parsing a payload collects the results of its keys, and filling
collects the results of the absent fields; `HasKey` is what of a modifier the keys
are. Field names that the house rules allow are paths of one segment.
-/

namespace DocSchema

/-! ## Names without dots -/

namespace DotPath

theorem splitDots_of_not_mem {cs : List Char} (h : '.' ∉ cs) : splitDots cs = [cs] := by
  induction cs with
  | nil => rfl
  | cons c cs ih =>
    rw [List.mem_cons, not_or] at h
    rw [splitDots, if_neg (Ne.symm h.1), ih h.2]

theorem segments_of_not_hasDot {name : String} (h : hasDot name = false) :
    segments name = [name] := by
  have hmem : '.' ∉ name.toList := by simpa [hasDot] using h
  rw [segments, splitDots_of_not_mem hmem]
  simp

theorem rootOf_of_not_hasDot {name : String} (h : hasDot name = false) : rootOf name = name := by
  rw [rootOf, segments_of_not_hasDot h]
  rfl

end DotPath

theorem nameRule?_eq_none {name : String} (h : Node.nameRule? name = none) :
    name ≠ "" ∧ DotPath.hasDot name = false ∧ DotPath.isOperator name = false := by
  unfold Node.nameRule? at h
  split at h
  · cases h
  · next hempty =>
    split at h
    · cases h
    · next hdot =>
      split at h
      · cases h
      · next hoperator =>
        exact ⟨hempty, Bool.eq_false_iff.mpr hdot, Bool.eq_false_iff.mpr hoperator⟩

/-! ## Nodes of keys -/

namespace UpdateSchema

variable {s : UpdateSchema} {path : String}

theorem baseNodeFor?_of_top (top : DotPath.hasDot path = false) :
    s.baseNodeFor? path = (Entries.get? s.base path).or s.catchall := by
  unfold baseNodeFor?
  rw [DotPath.segments_of_not_hasDot top, Node.walk?, Node.step?]
  simp [Node.walk?, Node.lookup]

theorem nodeFor?_of_top (top : DotPath.hasDot path = false) :
    s.nodeFor? path = (s.baseNodeFor? path).map Node.relax := by
  unfold nodeFor? field? fields Node.lookup
  rw [top, if_neg Bool.false_ne_true, baseNodeFor?_of_top top, Entries.get?_map]
  cases Entries.get? s.base path <;> simp

theorem nodeFor?_eq_map_relax (key : String) :
    s.nodeFor? key = (s.baseNodeFor? key).map Node.relax := by
  cases hdot : DotPath.hasDot key with
  | false => exact nodeFor?_of_top hdot
  | true =>
    unfold nodeFor? resolve?
    rw [if_pos hdot]

end UpdateSchema

namespace Modifier

variable {s : UpdateSchema} {ctx : Context}

/-! ## Appends -/

/-- No value of another field is an append, and no array and no null. -/
theorem appendOperator?_eq_none_iff {key : String} {n : Node} {v : Value}
    (hn : s.baseNodeFor? key = some n) :
    appendOperator? s key v = none ↔
      n.arrayItem? = none ∨ v = .null ∨ v.isArray = true := by
  unfold appendOperator?
  rw [hn, Option.bind_some]
  cases n.arrayItem? with
  | none => simp
  | some item =>
    cases v with
    | object fields =>
      dsimp only
      split
      · split <;> simp [Value.isArray, Value.array?]
      · simp [Value.isArray, Value.array?]
    | _ => simp [Value.isArray, Value.array?]

theorem appendOperator?_eq_some {key operator : String} {v : Value}
    (h : appendOperator? s key v = some operator) :
    operator = "$push" ∨ operator = "$addToSet" := by
  unfold appendOperator? at h
  split at h
  · cases h
  · split at h
    · cases h
    · cases h
    · split at h
      · split at h <;> cases h
        · exact .inl rfl
        · exact .inr rfl
      · cases h
        exact .inl rfl
    · cases h
      exact .inl rfl

theorem appendOperator?_ne_set {key operator : String} {v : Value}
    (h : appendOperator? s key v = some operator) : operator ≠ "$set" := by
  rcases appendOperator?_eq_some h with rfl | rfl
  · decide
  · decide

/-! ## Moving entries -/

section Moving

variable {m m' : Modifier}

/-- An entry is moved into a payload that has no entry under its key. -/
theorem moveEntry_eq_ok_iff {operator key : String} {v : Value} :
    moveEntry m operator key v = .ok m' ↔
      ∃ fields, (Entries.get? m operator).getD .empty = .object fields ∧
        Entries.contains fields key = false ∧
        m' = Entries.insert m operator (.object (Entries.insert fields key v)) := by
  unfold moveEntry
  split
  · next fields hfields =>
    constructor
    · intro h
      split at h
      · cases h
      · next hfree =>
        cases h
        exact ⟨fields, hfields, Bool.eq_false_iff.mpr hfree, rfl⟩
    · rintro ⟨fields', heq, hfree, rfl⟩
      cases hfields.symm.trans heq
      rw [hfree]
      rfl
  · next hother =>
    constructor
    · intro h
      cases h
    · rintro ⟨fields, heq, -, -⟩
      exact (hother fields heq).elim

/-- What moving each entry keeps, moving all of them keeps. -/
theorem kept_by_moveEntries {P : Modifier → Prop} {moved : List (String × String × Value)}
    (h : moveEntries m moved = .ok m')
    (step : ∀ e ∈ moved, ∀ before next, P before →
      moveEntry before e.1 e.2.1 e.2.2 = .ok next → P next)
    (holds : P m) : P m' := by
  induction moved generalizing m with
  | nil =>
    cases h
    exact holds
  | cons e rest ih =>
    obtain ⟨hfirst, hrest⟩ := List.forall_mem_cons.mp step
    obtain ⟨operator, key, v⟩ := e
    rw [moveEntries, Outcome.bind_eq_ok] at h
    obtain ⟨next, hnext, h⟩ := h
    exact ih h hrest (hfirst m next holds hnext)

end Moving

/-! ## Routing appends -/

section Routing

variable {m given : Modifier} {fields : Entries Value}

/-- The entries of a `$set` that are moved, with their operators. -/
def movedEntries (s : UpdateSchema) (fields : Entries Value) : List (String × String × Value) :=
  fields.filterMap fun e => (appendOperator? s e.1 e.2).map fun operator => (operator, e.1, e.2)

/-- The entries of a `$set` that stay. -/
def keptEntries (s : UpdateSchema) (fields : Entries Value) : Entries Value :=
  fields.filter fun e => (appendOperator? s e.1 e.2).isNone

/-- The modifier without the entries that are moved; a `$set` that they empty goes. -/
def withoutMoved (s : UpdateSchema) (m : Modifier) (fields : Entries Value) : Modifier :=
  if (keptEntries s fields).isEmpty && !(movedEntries s fields).isEmpty then Entries.erase m "$set"
  else Entries.insert m "$set" (.object (keptEntries s fields))

theorem mem_movedEntries {operator key : String} {v : Value} :
    (operator, key, v) ∈ movedEntries s fields ↔
      (key, v) ∈ fields ∧ appendOperator? s key v = some operator := by
  unfold movedEntries
  rw [List.mem_filterMap]
  constructor
  · rintro ⟨e, he, hsome⟩
    obtain ⟨_, hoperator, heq⟩ := Option.map_eq_some_iff.mp hsome
    cases heq
    exact ⟨he, hoperator⟩
  · rintro ⟨he, hoperator⟩
    exact ⟨(key, v), he, by rw [hoperator]; rfl⟩

theorem routeAppends_of_get? (hset : Entries.get? m "$set" = some (.object fields)) :
    routeAppends s m = moveEntries (withoutMoved s m fields) (movedEntries s fields) := by
  unfold routeAppends
  rw [hset]
  rfl

theorem routeAppends_of_ne (hset : ∀ fields, Entries.get? m "$set" ≠ some (.object fields)) :
    routeAppends s m = .ok m := by
  unfold routeAppends
  split
  · next fields heq => exact (hset fields heq).elim
  · rfl

/-- Entries are moved out of a `$set`, or nothing is done. -/
theorem routeAppends_cases (h : routeAppends s given = .ok m) :
    (∃ fields, Entries.get? given "$set" = some (.object fields) ∧
      moveEntries (withoutMoved s given fields) (movedEntries s fields) = .ok m) ∨
    (∀ fields, Entries.get? given "$set" ≠ some (.object fields)) ∧ m = given := by
  by_cases hset : ∃ fields, Entries.get? given "$set" = some (.object fields)
  · obtain ⟨fields, hset⟩ := hset
    exact .inl ⟨fields, hset, (routeAppends_of_get? hset).symm.trans h⟩
  · have hne : ∀ fields, Entries.get? given "$set" ≠ some (.object fields) :=
      fun fields heq => hset ⟨fields, heq⟩
    exact .inr ⟨hne, Except.ok.inj (h.symm.trans (routeAppends_of_ne hne))⟩

/-- A `$set` without appends is taken out and put back. -/
theorem routeAppends_of_all_kept (hset : Entries.get? m "$set" = some (.object fields))
    (kept : ∀ e ∈ fields, appendOperator? s e.1 e.2 = none) :
    routeAppends s m = .ok (Entries.insert m "$set" (.object fields)) := by
  have hmoved : movedEntries s fields = [] :=
    List.filterMap_eq_nil_iff.mpr fun e he => by rw [kept e he]; rfl
  have hkept : keptEntries s fields = fields :=
    List.filter_eq_self.mpr fun e he => by rw [kept e he]; rfl
  rw [routeAppends_of_get? hset, withoutMoved, hmoved, hkept, List.isEmpty_nil, Bool.not_true,
    Bool.and_false, if_neg Bool.false_ne_true]
  rfl

/-- A modifier that is a `$set` without appends is in explicit form. -/
theorem normalize_of_kept {modifier : Value}
    (h : explicit modifier = .ok [("$set", .object fields)])
    (kept : ∀ e ∈ fields, appendOperator? s e.1 e.2 = none) :
    normalize s modifier = .ok [("$set", .object fields)] := by
  have hset : Entries.get? ([("$set", .object fields)] : Modifier) "$set" =
      some (.object fields) := rfl
  unfold normalize
  rw [h]
  exact routeAppends_of_all_kept hset kept

end Routing

/-! ## Keys -/

/-- The key stands under the operator. -/
def HasKey (m : Modifier) (operator key : String) : Prop :=
  ∃ payload, Entries.get? m operator = some (.object payload) ∧ key ∈ Entries.keys payload

/-- What `put` puts under an operator are the entries, if there are any. -/
theorem hasKey_put {m : Modifier} {operator other key : String} {fields : Entries Value} :
    HasKey (put m operator fields) other key ↔
      if operator = other then key ∈ Entries.keys fields else HasKey m other key := by
  unfold HasKey put
  cases fields with
  | nil =>
    rw [List.isEmpty_nil, if_pos rfl, Entries.get?_erase]
    by_cases h : operator = other
    · simp [h, Entries.keys]
    · simp [h]
  | cons e rest =>
    rw [List.isEmpty_cons, if_neg Bool.false_ne_true, Entries.get?_insert]
    by_cases h : operator = other
    · simp [h]
    · simp [h]

theorem writtenRoots_of_named {payload : Entries Value}
    (named : ∀ e ∈ payload, Node.nameRule? e.1 = none) :
    writtenRoots payload = Entries.keys payload :=
  List.map_congr_left fun e he =>
    DotPath.rootOf_of_not_hasDot (nameRule?_eq_none (named e he)).2.1

/-! ## Parsing entries -/

/-- How the entries of a payload are parsed. -/
def ParsesEntry (s : UpdateSchema) (ctx : Context) (e : String × Value) (r : Option Value) : Prop :=
  ∃ n, s.nodeFor? e.1 = some n ∧ n.Parses ctx (some e.2) r

theorem parseEntries_eq_ok_iff {entries out : Entries Value} :
    parseEntries s ctx entries = .ok out ↔ Collects (ParsesEntry s ctx) entries out := by
  induction entries generalizing out with
  | nil => rw [parseEntries, Collects.nil_iff, Except.ok.injEq]
  | cons e rest ih =>
    obtain ⟨key, v⟩ := e
    rw [parseEntries]
    split
    · next hnode => simp [Collects.cons_iff, ParsesEntry, hnode]
    · next n hnode =>
      have hentry (r : Option Value) :
          ParsesEntry s ctx (key, v) r ↔ n.Parses ctx (some v) r := by
        simp [ParsesEntry, hnode]
      simp only [Outcome.bind_eq_ok, Outcome.mapError_eq_ok, Node.parser_eq_ok_iff, ih,
        Except.ok.injEq]
      refine Iff.trans ?_ Collects.cons_iff.symm
      exact exists_congr fun r => and_congr_left' (hentry r).symm

/-! ## Filling absent fields -/

/-- The fields that are run as absent, unless written. -/
def unwritten (s : UpdateSchema) (written : List String) : List (String × Node) :=
  s.base.filter fun f => !written.contains f.1 && f.2.relax.acceptsAbsent

theorem unwritten_eq_nil (required : ∀ f ∈ s.base, f.2.relax.acceptsAbsent = false)
    {written : List String} : unwritten s written = [] :=
  List.filter_eq_nil_iff.mpr fun f hf => by simp [required f hf]

/-- What an absent field gets from its relaxed type. -/
def FillsField (ctx : Context) (f : String × Node) (r : Option Value) : Prop :=
  f.2.relax.Parses ctx none r

theorem fillAbsent_eq_ok_iff {written : List String} {out : Entries Value} :
    fillAbsent ctx written s.fields = .ok out ↔
      Collects (FillsField ctx) (unwritten s written) out := by
  unfold UpdateSchema.fields unwritten
  induction s.base generalizing out with
  | nil => rw [List.map_nil, fillAbsent, List.filter_nil, Collects.nil_iff, Except.ok.injEq]
  | cons f rest ih =>
    have hnot : (!written.contains f.1 && f.2.relax.acceptsAbsent) =
        !(written.contains f.1 || !f.2.relax.acceptsAbsent) := by
      rw [Bool.not_or, Bool.not_not]
    rw [List.map_cons, fillAbsent, List.filter_cons, hnot]
    by_cases hskip : (written.contains f.1 || !f.2.relax.acceptsAbsent) = true
    · rw [if_pos hskip, hskip, Bool.not_true, if_neg Bool.false_ne_true, ih]
    · rw [if_neg hskip, Bool.eq_false_iff.mpr hskip, Bool.not_false, if_pos rfl]
      simp only [Outcome.bind_eq_ok, Outcome.mapError_eq_ok, Node.parser_eq_ok_iff, ih,
        Except.ok.injEq]
      refine Iff.trans ?_ Collects.cons_iff.symm
      exact Iff.rfl

theorem parseAndFill_eq_ok_iff {payload : Value} {skip : List String} {out : Entries Value} :
    parseAndFill s payload skip ctx = .ok out ↔ ∃ input parsed filled,
      payload = .object input ∧ Collects (ParsesEntry s ctx) input parsed ∧
        Collects (FillsField ctx) (unwritten s (writtenRoots input ++ skip)) filled ∧
        out = Entries.insertAll parsed filled := by
  simp only [parseAndFill, Outcome.bind_eq_ok, parseEntries_eq_ok_iff, fillAbsent_eq_ok_iff,
    Except.ok.injEq]
  constructor
  · rintro ⟨input, hinput, parsed, hparsed, filled, hfilled, rfl⟩
    unfold payloadEntries at hinput
    split at hinput
    · cases hinput
      exact ⟨_, parsed, filled, rfl, hparsed, hfilled, rfl⟩
    · cases hinput
  · rintro ⟨input, parsed, filled, rfl, hparsed, hfilled, rfl⟩
    exact ⟨input, rfl, parsed, hparsed, filled, hfilled, rfl⟩

/-! ## Other operators -/

/-- No operator gets a key that its payload did not have. -/
theorem parseOperator_eq_ok {operator : String} {payload parsed : Value}
    (h : parseOperator s operator payload ctx = .ok parsed) :
    ∃ fields out, payload = .object fields ∧ parsed = .object out ∧
      Entries.keys out ⊆ Entries.keys fields := by
  unfold parseOperator at h
  split at h
  · simp only [Outcome.map_eq_ok, parsePayload, Outcome.bind_eq_ok, parseEntries_eq_ok_iff] at h
    obtain ⟨out, ⟨fields, hfields, hout⟩, rfl⟩ := h
    unfold payloadEntries at hfields
    split at hfields
    · cases hfields
      exact ⟨_, out, rfl, rfl, hout.sublist_keys.subset⟩
    · cases hfields
  · split at h
    · split at h
      · next hobject =>
        cases h
        cases payload with
        | object fields => exact ⟨fields, fields, rfl, rfl, List.Subset.refl _⟩
        | _ => cases hobject
      · cases h
    · cases h

theorem hasKey_of_parseOperators {m out : Modifier} (h : parseOperators s ctx m = .ok out)
    {operator key : String} (hkey : HasKey out operator key) :
    operator ≠ "$set" ∧ HasKey m operator key := by
  induction m generalizing out with
  | nil =>
    cases h
    obtain ⟨_, hget, -⟩ := hkey
    cases hget
  | cons e rest ih =>
    obtain ⟨name, payload⟩ := e
    rw [parseOperators] at h
    split at h
    · next hset =>
      obtain ⟨hne, payload', hget, hmem⟩ := ih h hkey
      refine ⟨hne, payload', ?_, hmem⟩
      have hne' : name ≠ operator := fun heq => hne (heq.symm.trans hset)
      rw [Entries.get?_cons, if_neg hne']
      exact hget
    · next hset =>
      simp only [Outcome.bind_eq_ok, Except.ok.injEq] at h
      obtain ⟨parsed, hparsed, others, hothers, rfl⟩ := h
      obtain ⟨payload', hget, hmem⟩ := hkey
      rw [Entries.get?_cons] at hget
      by_cases hname : name = operator
      · subst hname
        rw [if_pos rfl] at hget
        obtain ⟨fields, out, rfl, rfl, hsubset⟩ := parseOperator_eq_ok hparsed
        cases hget
        exact ⟨hset, fields, by rw [Entries.get?_cons, if_pos rfl], hsubset hmem⟩
      · rw [if_neg hname] at hget
        obtain ⟨hne, payload'', hget', hmem'⟩ := ih hothers ⟨payload', hget, hmem⟩
        exact ⟨hne, payload'', by rw [Entries.get?_cons, if_neg hname]; exact hget', hmem'⟩

/-! ## Remembered defaults -/

/-- What a default that is the outermost wrapper of a field gives to an insertion. -/
def DefaultGives (ctx : Context) (f : String × Node) (r : Option Value) : Prop :=
  match f.2 with
  | .withDefault inner default =>
    match default ctx with
    | some v => inner.Parses ctx (some v) r
    | none => r = none
  | _ => r = none

/-- A default that is not supplied is parsed and put among the entries. -/
theorem addDefaults_cons_iff {supplied : List String} {field : DefaultField}
    {rest : List DefaultField} {onInsert out : Entries Value}
    (left : supplied.contains field.name = false)
    (new : Entries.contains onInsert field.name = false) :
    addDefaults ctx supplied (field :: rest) onInsert = .ok out ↔
      ∃ r, DefaultGives ctx (field.name, .withDefault field.inner field.default) r ∧
        addDefaults ctx supplied rest (r.elim onInsert (Entries.insert onInsert field.name)) =
          .ok out := by
  rw [addDefaults, left, new, Bool.or_false, if_neg Bool.false_ne_true]
  unfold DefaultGives
  dsimp only
  cases field.default ctx with
  | none => simp
  | some v =>
    simp only [Outcome.bind_eq_ok, Outcome.mapError_eq_ok, Node.parser_eq_ok_iff]
    refine exists_congr fun r => and_congr_right' ?_
    cases r with
    | none => exact Iff.rfl
    | some w => exact Iff.rfl

theorem addDefaults_eq_ok_iff {base : List (String × Node)} {catchall : Option Node}
    (distinct : (Entries.keys base).Nodup) {supplied : List String} {onInsert out : Entries Value}
    (apart : ∀ f ∈ base, f.1 ∉ Entries.keys onInsert) :
    addDefaults ctx supplied (UpdateSchema.defaults ⟨base, catchall⟩) onInsert = .ok out ↔
      ∃ filled, Collects (DefaultGives ctx) (base.filter fun f => !supplied.contains f.1) filled ∧
        out = Entries.insertAll onInsert filled := by
  unfold UpdateSchema.defaults
  dsimp only
  induction base generalizing onInsert with
  | nil =>
    simp only [List.filterMap_nil, addDefaults, Except.ok.injEq, List.filter_nil, Collects.nil_iff]
    constructor
    · rintro rfl; exact ⟨[], rfl, rfl⟩
    · rintro ⟨_, rfl, rfl⟩; rfl
  | cons f rest ih =>
    obtain ⟨hf, hrest⟩ := List.forall_mem_cons.mp apart
    obtain ⟨hnew, hdistinct⟩ := List.nodup_cons.mp distinct
    have hskip := ih hdistinct hrest
    rw [List.filter_cons]
    obtain ⟨name, n⟩ := f
    cases n with
    | withDefault inner default =>
      rw [List.filterMap_cons]
      dsimp only
      cases hsupplied : supplied.contains name with
      | true =>
        rw [addDefaults, hsupplied, Bool.true_or, if_pos rfl, Bool.not_true,
          if_neg Bool.false_ne_true]
        exact hskip
      | false =>
        have hcontains : Entries.contains onInsert name = false :=
          Bool.eq_false_iff.mpr fun h => hf (Entries.contains_iff.mp h)
        have hinsert (r : Option Value) :
            ∀ g ∈ rest, g.1 ∉ Entries.keys (r.elim onInsert (Entries.insert onInsert name)) := by
          intro g hg hmem
          cases r with
          | none => exact hrest g hg hmem
          | some w =>
            rcases Entries.mem_keys_insert.mp hmem with heq | hmem
            · exact hnew (List.mem_map.mpr ⟨g, hg, heq⟩)
            · exact hrest g hg hmem
        rw [addDefaults_cons_iff hsupplied hcontains, Bool.not_false, if_pos rfl]
        simp only [Collects.cons_iff]
        constructor
        · rintro ⟨r, hr, h⟩
          obtain ⟨filled, hfilled, rfl⟩ := (ih hdistinct (hinsert r)).mp h
          exact ⟨_, ⟨r, hr, filled, hfilled, rfl⟩, by cases r <;> rfl⟩
        · rintro ⟨_, ⟨r, hr, filled, hfilled, rfl⟩, rfl⟩
          exact ⟨r, hr, (ih hdistinct (hinsert r)).mpr ⟨filled, hfilled, by cases r <;> rfl⟩⟩
    | _ =>
      rw [List.filterMap_cons_none rfl, hskip]
      -- A field without a default gives nothing, whether it is supplied or not.
      split
      · simp [Collects.cons_iff, DefaultGives]
      · exact Iff.rfl

end Modifier

end DocSchema

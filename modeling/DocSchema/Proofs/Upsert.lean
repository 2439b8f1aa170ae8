-- SUMMARY: When an upsert that inserts stores the document that an insert stores.
import DocSchema.Proofs.Storing
import Mathlib.Data.List.Nodup

/-!
# Upserts that insert

An insert parses the whole document. An upsert parses the fields it is given
against their relaxed types, runs the other fields as absent, and adds the
defaults that are remembered, which are those of outermost wrappers. The fields
that are given come out alike; a field that is left out gets what `UpsertGives`
says, and this need not be what the parser of the document gives it.
-/

namespace DocSchema

namespace Node

/-! ## The inserted document -/

/-- The document that a closed object makes of its input. -/
structure Gives (ctx : Context) (base : List (String × Node)) (input doc : Entries Value) :
    Prop where
  declared : ∀ e ∈ input, e.1 ∈ Entries.keys base
  field : ∀ f ∈ base, ParsesField ctx input f (Entries.get? doc f.1)
  others : ∀ name, name ∉ Entries.keys base → Entries.get? doc name = none
  sorted : Entries.Sorted doc

theorem gives_of_parses {ctx : Context} {base : List (String × Node)} {catchall : Option Node}
    {input : Entries Value} {parsed : Value} (closed : Closed (.object base catchall))
    (distinct : (Entries.keys base).Nodup)
    (h : Parses ctx (.object base catchall) (some (.object input)) (some parsed)) :
    ∃ doc, parsed = .object doc ∧ Gives ctx base input doc := by
  obtain ⟨input', extra, own, hinput, -, hextra, hown, hparsed⟩ := parses_object_iff.mp h
  cases hinput
  cases hparsed
  have hdeclared : ∀ e ∈ input, e.1 ∈ Entries.keys base := by
    intro e he
    by_contra hnot
    have hundeclared := mem_undeclared_iff.mpr ⟨he, Entries.get?_eq_none_iff.mpr hnot⟩
    obtain ⟨r, rest, hrest, -⟩ := Collects.exists_iff.mp ⟨extra, hextra⟩ e hundeclared
    rw [show catchall = none from closed] at hrest
    cases hrest
  have hnone : undeclared base input = [] := by
    refine List.eq_nil_iff_forall_not_mem.mpr fun e he => ?_
    obtain ⟨he, hget⟩ := mem_undeclared_iff.mp he
    exact Entries.get?_eq_none_iff.mp hget (hdeclared e he)
  rw [hnone] at hextra
  cases hextra
  rw [List.nil_append]
  have hget (name : String) : Entries.get? (Entries.ofList own) name = Entries.get? own name :=
    Entries.get?_ofList_of_nodup (hown.nodup_keys distinct) name
  refine ⟨_, rfl, hdeclared, fun f hf => ?_, fun name hname => ?_, Entries.sorted_ofList own⟩
  · rw [hget]
    exact hown.get?_of_mem distinct hf
  · rw [hget]
    exact hown.get?_eq_none hname

end Node

namespace Modifier

variable {s : UpdateSchema} {ctx : Context}

/-! ## The assembled document -/

/-- What an upsert that inserts gives for a field that its modifier leaves out. -/
inductive UpsertGives (ctx : Context) (f : String × Node) : Option Value → Prop where
  | filled {v : Value} : FillsField ctx f (some v) → UpsertGives ctx f (some v)
  | remembered {r : Option Value} :
    (f.2.relax.acceptsAbsent = true → FillsField ctx f none) → DefaultGives ctx f r →
      UpsertGives ctx f r

theorem DefaultGives.unique {f : String × Node} {r r' : Option Value} (h : DefaultGives ctx f r)
    (h' : DefaultGives ctx f r') : r = r' := by
  obtain ⟨name, n⟩ := f
  cases n with
  | withDefault inner default =>
    cases hd : default ctx with
    | none =>
      simp only [DefaultGives, hd] at h h'
      rw [h, h']
    | some v =>
      simp only [DefaultGives, hd] at h h'
      exact h.unique h'
  | _ => exact Eq.trans h (Eq.symm h')

/-- A modifier without operators becomes a `$set` and what is remembered. -/
theorem parse_upsert_eq_ok_iff {modifier : Value} {fields : Entries Value} {out : Modifier}
    (normal : normalize s modifier = .ok [("$set", .object fields)]) :
    parse s modifier true ctx = .ok out ↔ ∃ set remembered,
      parseAndFill s (.object fields) [] ctx = .ok set ∧
      addDefaults ctx (writtenRoots set) s.defaults [] = .ok remembered ∧
      out = put (put [] "$setOnInsert" remembered) "$set" set := by
  have hoperators : parseOperators s ctx [("$set", .object fields)] = .ok [] := rfl
  have htargeted : targetedRoots [("$set", .object fields)] = [] := rfl
  have hset : (Entries.get? ([("$set", .object fields)] : Modifier) "$set").getD .empty =
      .object fields := rfl
  have hnothing : onInsert [] = [] := rfl
  simp only [parse, Outcome.bind_eq_ok, normal, Except.ok.injEq, exists_eq_left', hoperators,
    htargeted, hset, hnothing, if_true, List.nil_append]
  constructor
  · rintro ⟨set, hset, remembered, hremembered, rfl⟩
    exact ⟨set, remembered, hset, hremembered, rfl⟩
  · rintro ⟨set, remembered, hset, hremembered, rfl⟩
    exact ⟨set, hset, remembered, hremembered, rfl⟩

/-- The setting in which an insert of `m` with the key `k` gives `doc`. -/
structure Setting (ctx : Context) (s : UpdateSchema) (k : Value) (m doc : Entries Value) :
    Prop where
  plain : Node.Every Node.Untransformed (.object s.base s.catchall)
  named : ∀ f ∈ s.base, Node.nameRule? f.1 = none
  distinct : (Entries.keys s.base).Nodup
  ordered : Entries.Sorted m
  unidentified : Entries.get? m "_id" = none
  gives : Node.Gives ctx s.base (Entries.insert m "_id" k) doc

namespace Setting

variable {k : Value} {m doc : Entries Value} (setting : Setting ctx s k m doc)
include setting

/-- A key of the modifier is a field, whose type takes the value. -/
theorem exists_field {e : String × Value} (he : e ∈ m) :
    ∃ n, Entries.get? s.base e.1 = some n ∧ Node.nameRule? e.1 = none ∧
      n.Parses ctx (some e.2) (Entries.get? doc e.1) := by
  have hget : Entries.get? m e.1 = some e.2 := Entries.get?_of_mem setting.ordered.distinct he
  have hid : "_id" ≠ e.1 := by
    intro heq
    have hnone := setting.unidentified
    rw [heq, hget] at hnone
    cases hnone
  have hinput : Entries.get? (Entries.insert m "_id" k) e.1 = some e.2 := by
    rw [Entries.get?_insert_of_ne hid, hget]
  have hdeclared := setting.gives.declared e (Entries.mem_of_get? hinput)
  obtain ⟨f, hf, hname⟩ := List.mem_map.mp hdeclared
  have hfield := setting.gives.field f hf
  rw [Node.ParsesField, hname, hinput] at hfield
  exact ⟨f.2, hname ▸ Entries.get?_of_mem setting.distinct hf, hname ▸ setting.named f hf, hfield⟩

theorem nodeFor? {e : String × Value} (he : e ∈ m) :
    ∃ n, s.nodeFor? e.1 = some n ∧ n.Parses ctx (some e.2) (Entries.get? doc e.1) := by
  obtain ⟨n, hn, hname, hparses⟩ := setting.exists_field he
  have top := (nameRule?_eq_none hname).2.1
  refine ⟨n.relax, ?_, Node.parses_relax_some hparses⟩
  rw [UpdateSchema.nodeFor?_of_top top, UpdateSchema.baseNodeFor?_of_top top, hn]
  rfl

/-- Nothing of the modifier is an append: an array field has an array or null. -/
theorem appendOperator? {e : String × Value} (he : e ∈ m) :
    Modifier.appendOperator? s e.1 e.2 = none := by
  obtain ⟨n, hn, hname, hparses⟩ := setting.exists_field he
  have hbase : s.baseNodeFor? e.1 = some n := by
    rw [UpdateSchema.baseNodeFor?_of_top (nameRule?_eq_none hname).2.1, hn]
    rfl
  refine (Modifier.appendOperator?_eq_none_iff hbase).mpr ?_
  cases hitem : n.arrayItem? with
  | none => exact .inl rfl
  | some item =>
    rcases Node.eq_array_or_null_of_arrayItem? hitem hparses with hv | ⟨items, hv⟩
    · exact .inr (.inl hv)
    · exact .inr (.inr (hv ▸ rfl))

theorem normalize : Modifier.normalize s (.object m) = .ok [("$set", .object m)] := by
  have hexplicit : Modifier.explicit (.object m) = .ok [("$set", .object m)] := by
    unfold Modifier.explicit
    dsimp only
    rw [if_pos]
    refine List.all_eq_true.mpr fun e he => ?_
    obtain ⟨n, -, hname, -⟩ := setting.exists_field he
    rw [(nameRule?_eq_none hname).2.2]
    rfl
  exact normalize_of_kept hexplicit fun e => setting.appendOperator?

/-- The fields that the modifier gives come out as in the inserted document. -/
theorem parsesEntry {e : String × Value} (he : e ∈ m) {r : Option Value} :
    ParsesEntry s ctx e r ↔ r = Entries.get? doc e.1 := by
  obtain ⟨n, hn, hparses⟩ := setting.nodeFor? he
  constructor
  · rintro ⟨n', hn', hr⟩
    cases hn.symm.trans hn'
    exact hr.unique hparses
  · rintro rfl
    exact ⟨n, hn, hparses⟩

theorem exists_given {e : String × Value} (he : e ∈ m) : ∃ v, Entries.get? doc e.1 = some v := by
  obtain ⟨n, hn, -, hparses⟩ := setting.exists_field he
  obtain ⟨v, hv, -⟩ := hparses.some_of_untransformed (setting.plain.field (Entries.mem_of_get? hn))
  exact ⟨v, hv⟩

theorem fillsField_some {f : String × Node} (hf : f ∈ s.base) {v : Value}
    (h : FillsField ctx f (some v)) : f.2.relax.acceptsAbsent = true := by
  have hplain := Node.untransformed_relax (setting.plain.field hf)
  exact ((Node.parses_none_some_iff hplain).mp h).acceptsAbsent

/-! ### The set fields -/

theorem mem_unwritten_iff {f : String × Node} :
    f ∈ unwritten s (writtenRoots m ++ []) ↔
      f ∈ s.base ∧ f.1 ∉ Entries.keys m ∧ f.2.relax.acceptsAbsent = true := by
  have hroots : writtenRoots m = Entries.keys m := writtenRoots_of_named fun e he => by
    obtain ⟨n, -, hname, -⟩ := setting.exists_field he
    exact hname
  rw [List.append_nil, hroots, unwritten, List.mem_filter]
  simp

/-- What a parsed `$set` has: the given fields, and what answers for absent ones. -/
structure Sets (ctx : Context) (s : UpdateSchema) (m doc set : Entries Value) : Prop where
  ordered : Entries.Sorted set
  given : ∀ e ∈ m, Entries.get? set e.1 = Entries.get? doc e.1
  absent : ∀ f ∈ s.base, f.1 ∉ Entries.keys m →
    if f.2.relax.acceptsAbsent then FillsField ctx f (Entries.get? set f.1)
    else Entries.get? set f.1 = none
  others : ∀ name, name ∉ Entries.keys s.base → Entries.get? set name = none

theorem sets_of_parseAndFill {set : Entries Value}
    (h : parseAndFill s (.object m) [] ctx = .ok set) : Sets ctx s m doc set := by
  obtain ⟨_, parsed, filled, hm, hparsed, hfilled, rfl⟩ := parseAndFill_eq_ok_iff.mp h
  cases hm
  have hunwritten : (Entries.keys (unwritten s (writtenRoots m ++ []))).Nodup :=
    setting.distinct.sublist (List.filter_sublist.map Prod.fst)
  have hget (name : String) : Entries.get? (Entries.insertAll parsed filled) name =
      (Entries.get? filled name).or (Entries.get? parsed name) :=
    Entries.get?_insertAll_of_nodup parsed (hfilled.nodup_keys hunwritten) name
  have hunfilled {name : String} (hname : ∀ f ∈ unwritten s (writtenRoots m ++ []), f.1 ≠ name) :
      Entries.get? filled name = none := by
    refine hfilled.get?_eq_none fun hmem => ?_
    obtain ⟨f, hf, heq⟩ := List.mem_map.mp hmem
    exact hname f hf heq
  refine ⟨Entries.sorted_insertAll (hparsed.sorted setting.ordered) filled, fun e he => ?_,
    fun f hf hnew => ?_, fun name hname => ?_⟩
  · have hmem := Entries.mem_keys_of_mem he
    rw [hget, hunfilled fun f hf heq => (setting.mem_unwritten_iff.mp hf).2.1 (heq ▸ hmem),
      Option.none_or]
    exact (setting.parsesEntry he).mp (hparsed.get?_of_mem setting.ordered.distinct he)
  · rw [hget, hparsed.get?_eq_none hnew, Option.or_none]
    split
    · next habsent =>
      exact hfilled.get?_of_mem hunwritten (setting.mem_unwritten_iff.mpr ⟨hf, hnew, habsent⟩)
    · next hpresent =>
      refine hunfilled fun g hg heq => hpresent ?_
      obtain ⟨hg, -, habsent⟩ := setting.mem_unwritten_iff.mp hg
      rw [← List.inj_on_of_nodup_map setting.distinct hg hf heq]
      exact habsent
  · rw [hget, hunfilled fun f hf heq => ?_, Option.none_or]
    · refine hparsed.get?_eq_none fun hmem => ?_
      obtain ⟨e, he, rfl⟩ := List.mem_map.mp hmem
      obtain ⟨n, hn, -⟩ := setting.exists_field he
      exact hname (Entries.mem_keys_of_mem (Entries.mem_of_get? hn))
    · exact hname (heq ▸ Entries.mem_keys_of_mem (setting.mem_unwritten_iff.mp hf).1)

theorem exists_parseAndFill
    (gives : ∀ f ∈ s.base, f.1 ∉ Entries.keys m → ∃ r, UpsertGives ctx f r) :
    ∃ set, parseAndFill s (.object m) [] ctx = .ok set := by
  obtain ⟨parsed, hparsed⟩ := Collects.exists_iff.mpr fun e he =>
    ⟨_, (setting.parsesEntry (e := e) he).mpr rfl⟩
  have hfills : ∀ f ∈ unwritten s (writtenRoots m ++ []), ∃ r, FillsField ctx f r := by
    intro f hf
    obtain ⟨hf, hnew, habsent⟩ := setting.mem_unwritten_iff.mp hf
    obtain ⟨_, hgives⟩ := gives f hf hnew
    cases hgives with
    | filled h => exact ⟨_, h⟩
    | remembered h _ => exact ⟨_, h habsent⟩
  obtain ⟨filled, hfilled⟩ := Collects.exists_iff.mpr hfills
  exact ⟨_, parseAndFill_eq_ok_iff.mpr ⟨m, parsed, filled, rfl, hparsed, hfilled, rfl⟩⟩

/-! ### What is written -/

/-- What the parsed modifier writes under a name. -/
def written (set remembered : Entries Value) (name : String) : Option Value :=
  (Entries.get? remembered name).or (Entries.get? set name)

/-- What an upsert that inserts writes, next to what an insert stores. -/
structure Writes (ctx : Context) (s : UpdateSchema) (m doc : Entries Value)
    (written : String → Option Value) : Prop where
  given : ∀ e ∈ m, written e.1 = Entries.get? doc e.1
  absent : ∀ f ∈ s.base, f.1 ∉ Entries.keys m → UpsertGives ctx f (written f.1)
  others : ∀ name, name ∉ Entries.keys s.base → written name = none

theorem named_of_declared {entries : Entries Value}
    (declared : ∀ name, name ∉ Entries.keys s.base → Entries.get? entries name = none) :
    ∀ e ∈ entries, Node.nameRule? e.1 = none := by
  intro e he
  have hdeclared : e.1 ∈ Entries.keys s.base := by
    by_contra hnot
    exact Entries.get?_eq_none_iff.mp (declared e.1 hnot) (Entries.mem_keys_of_mem he)
  obtain ⟨f, hf, hname⟩ := List.mem_map.mp hdeclared
  exact hname ▸ setting.named f hf

theorem mem_supplied_iff {set : Entries Value} (sets : Sets ctx s m doc set) {name : String} :
    (writtenRoots set).contains name = true ↔ name ∈ Entries.keys set := by
  rw [writtenRoots_of_named (setting.named_of_declared sets.others), List.contains_iff_mem]

theorem writes_of_parse {set remembered : Entries Value} (sets : Sets ctx s m doc set)
    (h : addDefaults ctx (writtenRoots set) s.defaults [] = .ok remembered) :
    Writes ctx s m doc (written set remembered) ∧ (Entries.keys remembered).Nodup := by
  obtain ⟨defaults, hdefaults, rfl⟩ :=
    (addDefaults_eq_ok_iff setting.distinct (by simp [Entries.keys])).mp h
  have hunsupplied : (Entries.keys (s.base.filter
      fun f => !(writtenRoots set).contains f.1)).Nodup :=
    setting.distinct.sublist (List.filter_sublist.map Prod.fst)
  have hget (name : String) : Entries.get? (Entries.insertAll [] defaults) name =
      Entries.get? defaults name := by
    rw [Entries.get?_insertAll_of_nodup [] (hdefaults.nodup_keys hunsupplied), Entries.get?_nil,
      Option.or_none]
  -- What the set has is not looked up among the defaults.
  have hset {name : String} (hname : name ∈ Entries.keys set) :
      written set (Entries.insertAll [] defaults) name = Entries.get? set name := by
    have hnone : Entries.get? defaults name = none := by
      refine hdefaults.get?_eq_none fun hmem => ?_
      obtain ⟨f, hf, rfl⟩ := List.mem_map.mp hmem
      have hfree := (List.mem_filter.mp hf).2
      rw [(setting.mem_supplied_iff sets).mpr hname] at hfree
      cases hfree
    rw [written, hget, hnone, Option.none_or]
  have hnew {f : String × Node} (hf : f ∈ s.base) (hname : Entries.get? set f.1 = none) :
      DefaultGives ctx f (written set (Entries.insertAll [] defaults) f.1) := by
    rw [written, hget, hname, Option.or_none]
    refine hdefaults.get?_of_mem hunsupplied (List.mem_filter.mpr ⟨hf, ?_⟩)
    rw [Bool.not_eq_true', Bool.eq_false_iff, Ne, setting.mem_supplied_iff sets]
    exact Entries.get?_eq_none_iff.mp hname
  refine ⟨⟨fun e he => ?_, fun f hf hleft => ?_, fun name hname => ?_⟩,
    (Entries.sorted_insertAll List.Pairwise.nil defaults).distinct⟩
  · obtain ⟨v, hv⟩ := setting.exists_given he
    have hgiven := (sets.given e he).trans hv
    rw [hset (Entries.mem_keys_of_mem (Entries.mem_of_get? hgiven)), hgiven, hv]
  · have habsent := sets.absent f hf hleft
    cases hname : Entries.get? set f.1 with
    | none =>
      refine .remembered (fun haccepts => ?_) (hnew hf hname)
      rw [haccepts, if_pos rfl, hname] at habsent
      exact habsent
    | some v =>
      rw [hset (Entries.mem_keys_of_mem (Entries.mem_of_get? hname)), hname]
      split at habsent
      · exact .filled (hname ▸ habsent)
      · rw [hname] at habsent
        cases habsent
  · rw [written, hget, sets.others name hname, Option.or_none]
    refine hdefaults.get?_eq_none fun hmem => hname ?_
    obtain ⟨f, hf, rfl⟩ := List.mem_map.mp hmem
    exact Entries.mem_keys_of_mem (List.mem_filter.mp hf).1

theorem upsertGives_unique {f : String × Node} (hf : f ∈ s.base) {r r' : Option Value}
    (h : UpsertGives ctx f r) (h' : UpsertGives ctx f r') : r = r' := by
  have apart {v : Value} (hv : FillsField ctx f (some v))
      (hnone : f.2.relax.acceptsAbsent = true → FillsField ctx f none) : False := by
    cases hv.unique (hnone (setting.fillsField_some hf hv))
  cases h with
  | filled hv =>
    cases h' with
    | filled hv' => exact hv.unique hv'
    | remembered hnone => exact (apart hv hnone).elim
  | remembered hnone hd =>
    cases h' with
    | filled hv' => exact (apart hv' hnone).elim
    | remembered _ hd' => exact hd.unique hd'

theorem exists_addDefaults {set : Entries Value} (sets : Sets ctx s m doc set)
    (gives : ∀ f ∈ s.base, f.1 ∉ Entries.keys m → ∃ r, UpsertGives ctx f r) :
    ∃ remembered, addDefaults ctx (writtenRoots set) s.defaults [] = .ok remembered := by
  have hdefault : ∀ f ∈ s.base.filter fun f => !(writtenRoots set).contains f.1,
      ∃ r, DefaultGives ctx f r := by
    intro f hf
    obtain ⟨hf, hfree⟩ := List.mem_filter.mp hf
    rw [Bool.not_eq_true', Bool.eq_false_iff, Ne, setting.mem_supplied_iff sets] at hfree
    have hnone := Entries.get?_eq_none_iff.mpr hfree
    have hleft : f.1 ∉ Entries.keys m := by
      intro hmem
      obtain ⟨e, he, hname⟩ := List.mem_map.mp hmem
      obtain ⟨v, hv⟩ := setting.exists_given he
      rw [← sets.given e he, hname, hnone] at hv
      cases hv
    obtain ⟨_, hgives⟩ := gives f hf hleft
    cases hgives with
    | remembered _ hd => exact ⟨_, hd⟩
    | filled hv =>
      have habsent := sets.absent f hf hleft
      rw [setting.fillsField_some hf hv, if_pos rfl, hnone] at habsent
      cases hv.unique habsent
  obtain ⟨defaults, hdefaults⟩ := Collects.exists_iff.mpr hdefault
  exact ⟨_, (addDefaults_eq_ok_iff setting.distinct (by simp [Entries.keys])).mpr
    ⟨defaults, hdefaults, rfl⟩⟩

/-- The modifier is parsed if every field that it leaves out gets something, and only then. -/
theorem exists_parse_iff :
    (∃ sent, parse s (.object m) true ctx = .ok sent) ↔
      ∀ f ∈ s.base, f.1 ∉ Entries.keys m → ∃ r, UpsertGives ctx f r := by
  constructor
  · rintro ⟨sent, hsent⟩ f hf hleft
    obtain ⟨set, remembered, hset, hremembered, -⟩ :=
      (parse_upsert_eq_ok_iff setting.normalize).mp hsent
    have hwrites := (setting.writes_of_parse (setting.sets_of_parseAndFill hset) hremembered).1
    exact ⟨_, hwrites.absent f hf hleft⟩
  · intro gives
    obtain ⟨set, hset⟩ := setting.exists_parseAndFill gives
    obtain ⟨remembered, hremembered⟩ :=
      setting.exists_addDefaults (setting.sets_of_parseAndFill hset) gives
    exact ⟨_, (parse_upsert_eq_ok_iff setting.normalize).mpr
      ⟨set, remembered, hset, hremembered, rfl⟩⟩

/-- The assembled document is the inserted one if the fields that the modifier leaves out agree. -/
theorem assembled_eq_iff {seed set remembered : Entries Value} (hseed : Entries.Sorted seed)
    (seeds : ∀ name, name ∉ Entries.keys s.base → Entries.get? seed name = none)
    (hset : Entries.Sorted set) (hremembered : (Entries.keys remembered).Nodup)
    (writes : Writes ctx s m doc (written set remembered)) :
    Entries.insertAll (Entries.insertAll seed set) remembered = doc ↔
      ∀ f ∈ s.base, f.1 ∉ Entries.keys m → ∃ r, UpsertGives ctx f r ∧
        r.or (Entries.get? seed f.1) = Entries.get? doc f.1 := by
  have hget (name : String) :
      Entries.get? (Entries.insertAll (Entries.insertAll seed set) remembered) name =
        (written set remembered name).or (Entries.get? seed name) := by
    rw [Entries.get?_insertAll_of_nodup _ hremembered, Entries.get?_insertAll_of_nodup _
      hset.distinct, ← Option.or_assoc, written]
  constructor
  · rintro heq f hf hleft
    exact ⟨_, writes.absent f hf hleft, by rw [← hget, heq]⟩
  · intro h
    refine (Entries.sorted_insertAll (Entries.sorted_insertAll hseed set) remembered).ext
      setting.gives.sorted fun name => ?_
    rw [hget]
    by_cases hgiven : name ∈ Entries.keys m
    · obtain ⟨e, he, rfl⟩ := List.mem_map.mp hgiven
      obtain ⟨v, hv⟩ := setting.exists_given he
      rw [writes.given e he, hv, Option.some_or]
    · by_cases hdeclared : name ∈ Entries.keys s.base
      · obtain ⟨f, hf, rfl⟩ := List.mem_map.mp hdeclared
        obtain ⟨r, hr, heq⟩ := h f hf hgiven
        rw [setting.upsertGives_unique hf (writes.absent f hf hgiven) hr, heq]
      · rw [writes.others name hdeclared, seeds name hdeclared,
          setting.gives.others name hdeclared, Option.none_or]

/-! ### The stored document -/

theorem exists_id : ∃ f ∈ s.base, f.1 = "_id" ∧
    ∃ id, Entries.get? doc "_id" = some id ∧ id.isObject = k.isObject := by
  have hmem : ("_id", k) ∈ Entries.insert m "_id" k :=
    Entries.mem_of_get? (Entries.get?_insert_self m "_id" k)
  obtain ⟨f, hf, hname⟩ := List.mem_map.mp (setting.gives.declared _ hmem)
  dsimp only at hname
  have hfield := setting.gives.field f hf
  rw [Node.ParsesField, hname, Entries.get?_insert_self] at hfield
  exact ⟨f, hf, hname, hfield.some_of_untransformed (setting.plain.field hf)⟩

/-- The update of a parsed modifier gives the collection that the insertion of the
document gives exactly if the fields that the modifier leaves out agree. -/
theorem update_eq_insert_iff {sent : Modifier} (parsed : parse s (.object m) true ctx = .ok sent)
    {c c' : Collection} {name key : String} {fresh fresh' : Uuid}
    (unmatched : Collection.firstMatch (Selector.byId k) c.documents = .ok none)
    (inserted : (Collection.insert name (.object doc) fresh).run c = .ok key c') :
    (∃ outcome, (Collection.update name (Selector.byId k) (.object sent) true fresh').run c =
      .ok outcome c') ↔
      ∀ f ∈ s.base, f.1 ∉ Entries.keys m → ∃ r, UpsertGives ctx f r ∧
        r.or (Entries.get? (Selector.equalities (Selector.byId k)) f.1) = Entries.get? doc f.1 := by
  obtain ⟨set, remembered, hset, hremembered, rfl⟩ :=
    (parse_upsert_eq_ok_iff setting.normalize).mp parsed
  have sets := setting.sets_of_parseAndFill hset
  obtain ⟨writes, hdistinct⟩ := setting.writes_of_parse sets hremembered
  obtain ⟨g, hg, hid, id, hget, hkind⟩ := setting.exists_id
  have hremembers (name : String) (hname : name ∉ Entries.keys s.base) :
      Entries.get? remembered name = none := (Option.or_eq_none_iff.mp (writes.others name hname)).1
  have hassembled := Collection.seeded_of_put k (setting.named_of_declared sets.others)
    (setting.named_of_declared hremembers)
  have hobject (hnone : Entries.get? (Entries.insertAll (Entries.insertAll
      (Selector.equalities (Selector.byId k)) set) remembered) "_id" = none) :
      id.isObject = true := by
    rcases Selector.equalities_byId k with ⟨-, hoperators⟩ | ⟨v, hseed⟩
    · rw [hkind]
      exact Selector.isObject_of_isOperators hoperators
    · exact (Entries.get?_eq_none_iff.mp hnone (Entries.mem_keys_insertAll.mpr
        (.inl (Entries.mem_keys_insertAll.mpr (.inl (by simp [hseed, Entries.keys])))))).elim
  refine (Collection.update_eq_insert_iff unmatched inserted hget hassembled hobject).trans ?_
  refine setting.assembled_eq_iff (Selector.sorted_equalities_byId k) (fun name hname => ?_)
    sets.ordered hdistinct writes
  refine Selector.get?_equalities_byId fun heq => hname ?_
  rw [heq, ← hid]
  exact Entries.mem_keys_of_mem hg

end Setting

end Modifier

end DocSchema

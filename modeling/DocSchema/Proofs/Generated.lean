-- SUMMARY: Why the entries that parsing adds to a modifier stay apart from all others.
import DocSchema.Proofs.Appends
import DocSchema.Proofs.Stamps
import DocSchema.Proofs.Upsert

/-!
# Generated entries

Parsing adds two kinds of entries to a modifier. A `$set` gets the values that
absent fields make for themselves, and an upsert gets defaults under
`$setOnInsert`. Both go to fields that nothing else in the modifier leads into:
the first are kept off all that the modifier in explicit form touches, the second
off all that it targets and all that the parsed `$set` writes. So the order in
which a store applies the entries does not matter for them.
-/

namespace DocSchema

/-! ## Ordered modifiers -/

namespace Value

variable {fields : Entries Value}

theorem Ordered.insert (h : (object fields).Ordered) {v : Value} (hv : v.Ordered) (key : String) :
    (object (Entries.insert fields key v)).Ordered := by
  obtain ⟨hsorted, hfields⟩ := ordered_object_iff.mp h
  refine ordered_object_iff.mpr ⟨Entries.sorted_insert hsorted key v, fun e he => ?_⟩
  rcases Entries.mem_insert he with rfl | he
  · exact hv
  · exact hfields e he

theorem Ordered.filter (h : (object fields).Ordered) (p : String × Value → Bool) :
    (object (fields.filter p)).Ordered := by
  obtain ⟨hsorted, hfields⟩ := ordered_object_iff.mp h
  exact ordered_object_iff.mpr
    ⟨hsorted.filter p, fun e he => hfields e (List.mem_filter.mp he).1⟩

end Value

namespace Modifier

variable {s : UpdateSchema} {ctx : Context} {upsert : Bool} {m m' out : Modifier}
  {modifier : Value} {w : Write} {name : String}

theorem ordered_payload (ordered : (Value.object m).Ordered) (operator : String) :
    ((Entries.get? m operator).getD .empty).Ordered := by
  cases hget : Entries.get? m operator with
  | none => exact ⟨.nil, trivial⟩
  | some payload => exact Value.ordered_of_mem_fields ordered (Entries.mem_of_get? hget)

theorem ordered_of_moveEntry (ordered : (Value.object m).Ordered) {operator key : String} {v : Value}
    (hv : v.Ordered) (h : moveEntry m operator key v = .ok m') : (Value.object m').Ordered := by
  obtain ⟨fields, hfields, -, rfl⟩ := moveEntry_eq_ok_iff.mp h
  have hpayload : (Value.object fields).Ordered := hfields ▸ ordered_payload ordered operator
  exact ordered.insert (hpayload.insert hv key) operator

theorem ordered_of_moveEntries {moved : List (String × String × Value)}
    (ordered : (Value.object m).Ordered) (values : ∀ e ∈ moved, e.2.2.Ordered)
    (h : moveEntries m moved = .ok m') : (Value.object m').Ordered :=
  kept_by_moveEntries (P := fun m => (Value.object m).Ordered) h
    (fun e he _ _ hbefore hnext => ordered_of_moveEntry hbefore (values e he) hnext) ordered

theorem ordered_withoutMoved (ordered : (Value.object m).Ordered) {fields : Entries Value}
    (hset : Entries.get? m "$set" = some (.object fields)) :
    (Value.object (withoutMoved s m fields)).Ordered := by
  have hfields : (Value.object fields).Ordered :=
    Value.ordered_of_mem_fields ordered (Entries.mem_of_get? hset)
  unfold withoutMoved
  split
  · exact ordered.filter _
  · exact ordered.insert (hfields.filter _) "$set"

theorem ordered_of_mem_movedEntries (ordered : (Value.object m).Ordered) {fields : Entries Value}
    (hset : Entries.get? m "$set" = some (.object fields)) :
    ∀ e ∈ movedEntries s fields, e.2.2.Ordered := by
  rintro ⟨operator, key, v⟩ he
  exact Value.ordered_of_mem_fields
    (Value.ordered_of_mem_fields ordered (Entries.mem_of_get? hset)) (mem_movedEntries.mp he).1

/-- The explicit form of an ordered modifier is ordered. -/
theorem ordered_of_normalize (ordered : modifier.Ordered) (h : normalize s modifier = .ok m) :
    (Value.object m).Ordered := by
  unfold normalize at h
  rw [Outcome.bind_eq_ok] at h
  obtain ⟨given, hgiven, h⟩ := h
  have hordered := ordered_of_explicit ordered hgiven
  rcases routeAppends_cases h with ⟨fields, hset, h⟩ | ⟨-, rfl⟩
  · exact ordered_of_moveEntries (ordered_withoutMoved hordered hset)
      (ordered_of_mem_movedEntries hordered hset) h
  · exact hordered

/-! ## Sorted payloads -/

theorem sorted_of_parseAndFill (ordered : (Value.object m).Ordered) {skip : List String}
    {set : Entries Value}
    (h : parseAndFill s ((Entries.get? m "$set").getD .empty) skip ctx = .ok set) :
    Entries.Sorted set := by
  obtain ⟨input, parsed, filled, hinput, hparsed, -, rfl⟩ := parseAndFill_eq_ok_iff.mp h
  have hsorted : Entries.Sorted input :=
    (Value.ordered_object_iff.mp (hinput ▸ ordered_payload ordered "$set")).1
  exact Entries.sorted_insertAll (hparsed.sorted hsorted) filled

theorem sorted_onInsert (ordered : (Value.object m).Ordered) {others : Modifier}
    (h : parseOperators s ctx m = .ok others) : Entries.Sorted others.onInsert := by
  unfold onInsert
  split
  · next fields hget =>
    obtain ⟨-, payload, hpayload, hparsed⟩ := parseOperators_mem h (Entries.mem_of_get? hget)
    have hoperator : "$setOnInsert" ∈ parsedOperators := by decide
    simp only [parseOperator, if_pos hoperator, Outcome.map_eq_ok, parsePayload,
      Outcome.bind_eq_ok, parseEntries_eq_ok_iff] at hparsed
    obtain ⟨_, ⟨input, hinput, hcollects⟩, heq⟩ := hparsed
    cases heq
    cases payload with
    | object given =>
      cases hinput
      exact hcollects.sorted
        (Value.ordered_object_iff.mp (Value.ordered_of_mem_fields ordered hpayload)).1
    | _ => cases hinput
  · exact .nil

theorem sorted_of_addDefaults {supplied : List String} {fields : List DefaultField}
    {onInsert remembered : Entries Value} (sorted : Entries.Sorted onInsert)
    (h : addDefaults ctx supplied fields onInsert = .ok remembered) :
    Entries.Sorted remembered := by
  induction fields generalizing onInsert with
  | nil =>
    cases h
    exact sorted
  | cons field rest ih =>
    obtain ⟨next, hrest, ⟨-, v, -, rfl⟩ | ⟨rfl, -⟩⟩ := addDefaults_cons h
    · exact ih (Entries.sorted_insert sorted field.name v) hrest
    · exact ih sorted hrest

/-! ## Where the entries come from -/

/-- The modifier in explicit form has no entry under the operator and path of the write. -/
def Unasked (m : Modifier) (w : Write) : Prop := ∀ v, ⟨w.operator, w.path, v⟩ ∉ writes m

/-- A field that was run as absent, or a default that an upsert remembered. -/
inductive Generated (ctx : Context) (s : UpdateSchema) (upsert : Bool) : Write → Prop where
  | filled {f : String × Node} {v : Value} : f ∈ s.base → FillsField ctx f (some v) →
      Generated ctx s upsert ⟨"$set", f.1, v⟩
  | remembered {field : DefaultField} {v : Value} : upsert = true → field ∈ s.defaults →
      Remembers ctx field v → Generated ctx s upsert ⟨"$setOnInsert", field.name, v⟩

/-! ### Fields that are led into -/

/-- A write that stems from an entry leads into the fields that the entry leads into. -/
theorem Stems.exists_write (h : Stems s ctx m w) :
    ∃ given ∈ writes m, given.operator = w.operator ∧ given.roots = w.roots := by
  obtain ⟨v, hv, ⟨hoperator, -⟩ | ⟨-, rfl⟩⟩ := h
  · have hrename := ne_rename_of_parsed hoperator
    refine ⟨_, hv, rfl, ?_⟩
    unfold Write.roots
    rw [if_neg hrename, if_neg hrename]
  · exact ⟨w, hv, rfl, rfl⟩

theorem Stems.touched (h : Stems s ctx m w) (distinct : (Entries.keys m).Nodup)
    (hname : name ∈ w.roots) : name ∈ touchedRoots m := by
  obtain ⟨given, hgiven, -, hroots⟩ := h.exists_write
  exact mem_touchedRoots distinct hgiven (hroots ▸ hname)

theorem Stems.targeted (h : Stems s ctx m w) (unset : w.operator ≠ "$set")
    (hname : name ∈ w.roots) : name ∈ targetedRoots m := by
  obtain ⟨given, hgiven, hoperator, hroots⟩ := h.exists_write
  exact mem_targetedRoots_iff.mpr ⟨given, hgiven, hoperator ▸ unset, hroots ▸ hname⟩

theorem roots_of_named {operator : String} {v : Value} (named : Node.nameRule? name = none)
    (unrenamed : operator ≠ "$rename") : (Write.mk operator name v).roots = [name] := by
  unfold Write.roots
  rw [if_neg unrenamed, DotPath.rootOf_of_not_hasDot (nameRule?_eq_none named).2.1]

theorem nameRule?_of_default (named : ∀ f ∈ s.base, Node.nameRule? f.1 = none)
    {field : DefaultField} (h : field ∈ s.defaults) : Node.nameRule? field.name = none := by
  obtain ⟨⟨name, n⟩, hf, hsome⟩ := List.mem_filterMap.mp h
  cases n with
  | withDefault inner default =>
    cases hsome
    exact named _ hf
  | _ => cases hsome

/-! ## Entries that keep apart -/

section Sent

variable {set onInsert : Entries Value} (named : ∀ f ∈ s.base, Node.nameRule? f.1 = none)

/-- What is sent under `$set` leads into a field that the parsed `$set` writes. -/
theorem Origin.written (h : Origin ctx s m upsert set onInsert w) (hset : w.operator = "$set")
    (hname : name ∈ w.roots) : name ∈ writtenRoots set := by
  have hmem : (w.path, w.operand) ∈ set := by
    cases h with
    | asked _ hset' => exact hset' hset
    | filled _ _ _ hmem => exact hmem
    | remembered => exact absurd hset (by decide : "$setOnInsert" ≠ "$set")
  have hrename : w.operator ≠ "$rename" := by
    rw [hset]
    decide
  exact List.mem_map.mpr ⟨_, hmem, (Write.mem_roots_iff hrename).mp hname⟩

include named

/-- Nothing else that is sent leads into a field that was run as absent. -/
theorem not_mem_roots_of_filled (distinct : (Entries.keys m).Nodup) (sorted : Entries.Sorted set)
    (rule : Node.nameRule? name = none) {v : Value} (untouched : name ∉ touchedRoots m)
    (hmem : (name, v) ∈ set) (h : Origin ctx s m upsert set onInsert w)
    (other : w ≠ ⟨"$set", name, v⟩) : name ∉ w.roots := by
  intro hroot
  cases h with
  | asked hstems _ => exact untouched (hstems.touched distinct hroot)
  | @filled f v' hf _ _ hmem' =>
    rw [roots_of_named (named f hf) (by decide), List.mem_singleton] at hroot
    have hv : v' = v := Entries.eq_of_mem sorted.distinct hmem _ hmem' hroot.symm
    exact other (by rw [hroot, hv])
  | @remembered field v' _ hfield _ hunset _ _ =>
    rw [roots_of_named (nameRule?_of_default named hfield) (by decide), List.mem_singleton] at hroot
    refine hunset (List.mem_map.mpr ⟨_, hmem, ?_⟩)
    rw [DotPath.rootOf_of_not_hasDot (nameRule?_eq_none rule).2.1, hroot]

/-- Nothing else that is sent leads into a field whose default was remembered. -/
theorem not_mem_roots_of_remembered (sorted : Entries.Sorted onInsert) {v : Value}
    (untargeted : name ∉ targetedRoots m) (unset : name ∉ writtenRoots set)
    (hmem : (name, v) ∈ onInsert) (h : Origin ctx s m upsert set onInsert w)
    (other : w ≠ ⟨"$setOnInsert", name, v⟩) : name ∉ w.roots := by
  intro hroot
  by_cases hset : w.operator = "$set"
  · exact unset (h.written hset hroot)
  · cases h with
    | asked hstems _ => exact untargeted (hstems.targeted hset hroot)
    | filled => exact hset rfl
    | @remembered field v' _ hfield _ _ _ hmem' =>
      rw [roots_of_named (nameRule?_of_default named hfield) (by decide),
        List.mem_singleton] at hroot
      have hv : v' = v := Entries.eq_of_mem sorted.distinct hmem _ hmem' hroot.symm
      exact other (by rw [hroot, hv])

/-- A write that is sent stems from an entry of the modifier, or it is generated and
nothing else that is sent leads into its field. -/
theorem Origin.apart (distinct : (Entries.keys m).Nodup) (sortedSet : Entries.Sorted set)
    (sortedOnInsert : upsert = true → Entries.Sorted onInsert)
    (h : Origin ctx s m upsert set onInsert w) :
    Stems s ctx m w ∨ Unasked m w ∧ Generated ctx s upsert w ∧
      Node.nameRule? w.path = none ∧
      ∀ w', Origin ctx s m upsert set onInsert w' → w' ≠ w → w.path ∉ w'.roots := by
  cases h with
  | asked hstems _ => exact .inl hstems
  | @filled f v hf huntouched hfills hmem =>
    refine .inr ⟨fun v' hv' => huntouched (mem_touchedRoots distinct hv' ?_), .filled hf hfills,
      named f hf, fun w' h' hne => ?_⟩
    · exact mem_roots_of_named (named f hf)
    · exact not_mem_roots_of_filled named distinct sortedSet (named f hf) huntouched hmem h' hne
  | @remembered field v hupsert hfield huntargeted hunset hgives hmem =>
    have hrule := nameRule?_of_default named hfield
    refine .inr ⟨fun v' hv' => huntargeted (mem_targetedRoots_iff.mpr ⟨_, hv', ?_, ?_⟩),
      .remembered hupsert hfield hgives, hrule, fun w' h' hne => ?_⟩
    · exact (by decide : "$setOnInsert" ≠ "$set")
    · exact mem_roots_of_named hrule
    · exact not_mem_roots_of_remembered named (sortedOnInsert hupsert) huntargeted hunset hmem h' hne

end Sent

/-- A write and another one with another name that does not lead into its field: whatever
the document, neither changes a field that the other leads into. -/
structure Apart (w other : Write) : Prop where
  name : other.path ≠ w.path
  root : w.path ∉ other.roots
  kept : ∀ inserting doc, (other.apply inserting doc).doc.field? w.path = doc.field? w.path
  keeps : ∀ inserting doc, ∀ name ∈ other.roots,
    (w.apply inserting doc).doc.field? name = doc.field? name

theorem Generated.operator (h : Generated ctx s upsert w) :
    w.operator = "$set" ∨ w.operator = "$setOnInsert" := by
  cases h with
  | filled => exact .inl rfl
  | remembered => exact .inr rfl

theorem Generated.roots (h : Generated ctx s upsert w) (rule : Node.nameRule? w.path = none) :
    w.roots = [w.path] :=
  roots_of_named rule (by rcases h.operator with h | h <;> rw [h] <;> decide)

theorem Apart.of_not_mem_roots {other : Write} (single : w.roots = [w.path])
    (h : w.path ∉ other.roots) : Apart w other where
  name heq := h (by
    rw [← (List.cons.inj single).1, ← heq]
    exact List.mem_cons_self)
  root := h
  kept inserting doc := (Apply.changedIn_write inserting other doc).field _ h
  keeps inserting doc name hname := by
    refine (Apply.changedIn_write inserting w doc).field name ?_
    rw [single, List.mem_singleton]
    rintro rfl
    exact h hname

/-- What parsing adds to a modifier keeps apart from everything else that is sent: each
entry is what became of one of the modifier in explicit form, or it is generated, and
then it has a field for itself, which gets the generated value. -/
theorem generated_entries_apart {root : Node} (clean : root.lint = .ok ())
    (relaxed : root.relaxed = .ok s) (ordered : modifier.Ordered)
    (parsed : parse s modifier upsert ctx = .ok out) :
    ∃ m, normalize s modifier = .ok m ∧ ∀ w ∈ writes out, Stems s ctx m w ∨
      Unasked m w ∧ Generated ctx s upsert w ∧ (∀ w' ∈ writes out, w' ≠ w → Apart w w') ∧
        ∀ inserting doc next, doc.isObject = true →
          Apply.modifier doc (.object out) inserting = .done next →
          (w.operator = "$setOnInsert" → inserting = true) →
          next.field? w.path = some w.operand := by
  have named := ((Node.relaxed_eq_ok relaxed).every Node.keptByMerging_named
    (Node.named_of_lint clean)).here
  obtain ⟨m, others, set, onInsert, hm, hothers, hset, honInsert, horigin⟩ := origin_of_parse parsed
  have hordered := ordered_of_normalize ordered hm
  have hsortedOnInsert (hupsert : upsert = true) : Entries.Sorted onInsert :=
    sorted_of_addDefaults (sorted_onInsert hordered hothers) (honInsert hupsert)
  refine ⟨m, hm, fun w hw => ?_⟩
  rcases (horigin w hw).apart named (Value.distinct_of_ordered hordered)
    (sorted_of_parseAndFill hordered hset) hsortedOnInsert with
    hstems | ⟨hunasked, hgenerated, hrule, hclear⟩
  · exact .inl hstems
  have hapart : ∀ w' ∈ writes out, w' ≠ w → Apart w w' := fun w' hw' hne =>
    .of_not_mem_roots (hgenerated.roots hrule) (hclear w' (horigin w' hw') hne)
  refine .inr ⟨hunasked, hgenerated, hapart, fun inserting doc next hobject happly hinserts => ?_⟩
  have hputs : w.Puts inserting w.path w.operand :=
    ⟨rfl, rfl, hgenerated.operator.imp_right fun h => ⟨h, hinserts h⟩⟩
  refine Apply.field?_of_puts hrule hobject (Apply.writes_of_operators happly)
    (fun w' hw' hreaches => ?_) (.inr ⟨w, hw, hputs⟩)
  by_cases hsame : w' = w
  · exact hsame ▸ hputs
  · exact ((hapart w' hw' hsame).root hreaches.1).elim

/-- Tickets with a state to start from and the user who wrote last. -/
def tickets : List (String × Node) :=
  [("state", .withDefault Field.nonEmptyString fun _ => some (.string "open")),
    ("title", Field.nonEmptyString), ("updatedBy", Field.updatedUser)]

/-- What Ann's upsert of a title sends. -/
def annsTicket : Modifier :=
  [("$set", .object [("title", .string "Lamp"), ("updatedBy", .string "ann")]),
    ("$setOnInsert", .object [("state", .string "open")])]

theorem baseNodeFor?_title :
    UpdateSchema.baseNodeFor? ⟨tickets, none⟩ "title" = some Field.nonEmptyString := by
  rw [UpdateSchema.baseNodeFor?_of_top rfl]
  rfl

theorem normalize_lamp : normalize ⟨tickets, none⟩ (.object [("title", .string "Lamp")]) =
    .ok [("$set", .object [("title", .string "Lamp")])] := by
  have hexplicit : explicit (.object [("title", .string "Lamp")]) =
      .ok [("$set", .object [("title", .string "Lamp")])] := rfl
  exact normalize_of_kept hexplicit (List.forall_mem_singleton.mpr
    ((appendOperator?_eq_none_iff baseNodeFor?_title).mpr (.inl rfl)))

theorem parse_lamp : parse ⟨tickets, none⟩ (.object [("title", .string "Lamp")]) true
    ⟨some .upsert, .epoch, some "ann"⟩ = .ok annsTicket := by
  refine (parse_upsert_eq_ok_iff normalize_lamp).mpr
    ⟨[("title", .string "Lamp"), ("updatedBy", .string "ann")], [("state", .string "open")],
      ?_, ?_, rfl⟩
  · refine parseAndFill_eq_ok_iff.mpr ⟨_, [("title", .string "Lamp")], [("updatedBy", .string "ann")],
      rfl, .keep ⟨Field.nonEmptyString.relax, ?_, ?_⟩ .nil,
      .keep ?_ .nil, rfl⟩
    · rw [UpdateSchema.nodeFor?_eq_map_relax, baseNodeFor?_title]
      rfl
    · exact Node.parses_relax_some (parses_label (by decide))
    · exact Field.parses_mapped_optional_none.mpr rfl
  · have distinct : (Entries.keys tickets).Nodup := by decide
    exact (addDefaults_eq_ok_iff distinct fun _ _ h => by cases h).mpr
      ⟨_, .keep (parses_label (by decide)) .nil, rfl⟩

def openTicket : Value :=
  .object [("state", .string "open"), ("title", .string "Lamp"), ("updatedBy", .string "ann")]

/-- The ticket that is inserted has the state and the user that were generated for it. -/
theorem ticket_opened : Apply.modifier .empty (.object annsTicket) true = .done openTicket ∧
    openTicket.field? "state" = some (.string "open") ∧
    openTicket.field? "updatedBy" = some (.string "ann") := by
  have hordered : (Value.object [("title", .string "Lamp")]).Ordered := by
    simp [Value.Ordered, Value.OrderedFields, Entries.Sorted]
  have hclean : (Node.object tickets none).lint = .ok () := rfl
  have happly : Apply.modifier .empty (.object annsTicket) true = .done openTicket := rfl
  obtain ⟨m, hm, hall⟩ := generated_entries_apart hclean rfl hordered parse_lamp
  cases hm.symm.trans normalize_lamp
  have gets {w : Write} (hw : w ∈ writes annsTicket) (unasked : w.path ≠ "title") :
      openTicket.field? w.path = some w.operand := by
    rcases hall w hw with ⟨given, hgiven, -⟩ | ⟨-, -, -, hgets⟩
    · exact (unasked (congrArg Write.path (List.mem_singleton.mp hgiven))).elim
    · exact hgets true .empty openTicket rfl happly fun _ => rfl
  have hstate : ⟨"$setOnInsert", "state", .string "open"⟩ ∈ writes annsTicket := by
    simp [writes, annsTicket]
  have huser : ⟨"$set", "updatedBy", .string "ann"⟩ ∈ writes annsTicket := by
    simp [writes, annsTicket]
  exact ⟨happly, gets hstate (by decide), gets huser (by decide)⟩

end Modifier

end DocSchema

-- SUMMARY: Which entries of a `$set` stay under it, and whether their fields accept them.
import DocSchema.Proofs.Appends
import DocSchema.Proofs.Paths
import DocSchema.Proofs.Reparsing

/-!
# The entries that stay under `$set`

Of the entries of a `$set`, those of array fields leave for an appending operator unless
their value is an array or null. The others are parsed by the relaxed type of their field,
which for an array field takes single elements as well. So what stays is a value of its
field, unless it is an element and an array or null at once: the form of the value is
taken for that of a whole array, and its type is not.
-/

namespace DocSchema

namespace Node

variable {ctx : Context}

/-! ## Values of relaxed array fields -/

/-- What an array field makes of a value that is no object, its own type or else the type
of its elements makes of it. -/
theorem parses_relax_array {n item : Node} (hitem : n.arrayItem? = some item) {v : Value}
    (hv : v.isObject = false) {result : Option Value} (h : Parses ctx n.relax (some v) result) :
    Parses ctx n (some v) result ∨
      ¬ Accepts ctx n (some v) ∧ Parses ctx item (some v) result := by
  rw [relax, hitem] at h
  obtain ⟨before, option, after, heq, hbefore, hoption⟩ := parses_union_iff.mp h
  rcases before with - | ⟨first, - | ⟨second, rest⟩⟩
  · obtain ⟨rfl, -⟩ := List.cons.inj heq
    exact .inl (parses_stripDefaults_some.mp hoption)
  · cases heq
    refine .inr ⟨?_, hoption⟩
    rintro ⟨r, hr⟩
    exact hbefore _ List.mem_cons_self r (parses_stripDefaults_some.mpr hr)
  · -- What is left is the object that appends several elements.
    obtain ⟨-, heq⟩ := List.cons.inj heq
    obtain ⟨-, heq⟩ := List.cons.inj heq
    have hmem : option ∈ [eachShape item] := heq ▸ (by simp : option ∈ rest ++ option :: after)
    cases List.mem_singleton.mp hmem
    obtain ⟨_, _, _, hobject, -⟩ := parses_object_iff.mp hoption
    cases hobject
    cases hv

/-- The value is an element of the array field, and no value of the field itself. -/
def OnlyElement (ctx : Context) (n : Node) (v : Value) : Prop :=
  ∃ item element, n.arrayItem? = some item ∧ Parses ctx item (some v) (some element) ∧
    ¬ Accepts ctx n (some v) ∧ ¬ Accepts ctx n (some element)

/-- What the relaxed type makes of a value in the form of its field, the field accepts
unless the value is only an element. -/
theorem accepts_relaxed_iff {n : Node} (plain : Every Untransformed n) (once : Every NamesOnce n)
    (named : Every Named n) (givesOrdered : Every (GivesOrdered ctx) n) {v r : Value}
    (ordered : v.Ordered) (form : n.arrayItem? = none ∨ v = .null ∨ v.isArray = true)
    (h : Parses ctx n.relax (some v) (some r)) :
    Accepts ctx n (some r) ↔ ¬ OnlyElement ctx n v := by
  have again (hown : Parses ctx n (some v) (some r)) : Accepts ctx n (some r) :=
    hown.accepts_again plain once fun built hbuilt =>
      hbuilt.kind_ne_date plain named givesOrdered (by rintro _ ⟨⟩; exact ordered)
  cases hitem : n.arrayItem? with
  | none =>
    rw [relax, hitem] at h
    refine iff_of_true (again (parses_stripDefaults_some.mp h)) ?_
    rintro ⟨item, _, hsome, -⟩
    cases hitem.symm.trans hsome
  | some item =>
    have hv : v.isObject = false := by
      rw [hitem] at form
      rcases form with ⟨⟨⟩⟩ | rfl | harray
      · rfl
      · cases v with
        | array => rfl
        | _ => cases harray
    rcases parses_relax_array hitem hv h with hown | ⟨hrefused, helement⟩
    · refine iff_of_true (again hown) ?_
      rintro ⟨_, _, -, -, hrefused, -⟩
      exact hrefused ⟨_, hown⟩
    · constructor
      · rintro haccepts ⟨item', element, hitem', helement', -, hnot⟩
        cases hitem.symm.trans hitem'
        cases helement.unique helement'
        exact hnot haccepts
      · intro hnot
        by_contra hrefused'
        exact hnot ⟨item, r, hitem, helement, hrefused, hrefused'⟩

end Node

namespace Modifier

variable {s : UpdateSchema} {ctx : Context} {m m' given out : Modifier} {modifier : Value}
  {operator key : String} {v : Value} {n : Node} {upsert : Bool}

/-! ## Entries that move -/

/-- The entries under `$set`. -/
def setEntries (m : Modifier) : Entries Value :=
  ((Entries.get? m "$set").bind Value.object?).getD []

theorem setEntries_of_get? {fields : Entries Value}
    (h : Entries.get? m "$set" = some (.object fields)) : m.setEntries = fields := by
  rw [setEntries, h]
  rfl

theorem exists_set_of_mem {e : String × Value} (h : e ∈ m.setEntries) :
    ∃ fields, Entries.get? m "$set" = some (.object fields) := by
  unfold setEntries at h
  cases hset : (Entries.get? m "$set").bind Value.object? with
  | none =>
    rw [hset] at h
    cases h
  | some fields =>
    obtain ⟨payload, hget, hpayload⟩ := Option.bind_eq_some_iff.mp hset
    cases payload with
    | object =>
      cases hpayload
      exact ⟨fields, hget⟩
    | _ => cases hpayload

theorem hasKey_of_moveEntry (h : moveEntry m operator key v = .ok m') :
    HasKey m' operator key ∧ ∀ other name, HasKey m other name → HasKey m' other name := by
  obtain ⟨fields, hfields, -, rfl⟩ := moveEntry_eq_ok_iff.mp h
  refine ⟨⟨_, Entries.get?_insert_self m _ _, Entries.mem_keys_insert.mpr (.inl rfl)⟩, ?_⟩
  rintro other name ⟨payload, hpayload, hname⟩
  by_cases hother : operator = other
  · subst hother
    rw [hpayload] at hfields
    cases hfields
    exact ⟨_, Entries.get?_insert_self m _ _, Entries.mem_keys_insert.mpr (.inr hname)⟩
  · exact ⟨payload, (Entries.get?_insert_of_ne hother m _).trans hpayload, hname⟩

theorem hasKey_of_moveEntries {moved : List (String × String × Value)}
    (h : moveEntries m moved = .ok m') :
    (∀ e ∈ moved, HasKey m' e.1 e.2.1) ∧
      ∀ other name, HasKey m other name → HasKey m' other name := by
  induction moved generalizing m with
  | nil =>
    cases h
    exact ⟨List.forall_mem_nil _, fun _ _ => id⟩
  | cons e rest ih =>
    obtain ⟨operator, key, v⟩ := e
    rw [moveEntries, Outcome.bind_eq_ok] at h
    obtain ⟨next, hnext, h⟩ := h
    obtain ⟨hnew, hold⟩ := hasKey_of_moveEntry hnext
    obtain ⟨hmoved, hkept⟩ := ih h
    exact ⟨List.forall_mem_cons.mpr ⟨hkept _ _ hnew, hmoved⟩,
      fun other name hname => hkept _ _ (hold other name hname)⟩

theorem get?_set_of_moveEntries {moved : List (String × String × Value)}
    (h : moveEntries m moved = .ok m') (elsewhere : ∀ e ∈ moved, e.1 ≠ "$set") :
    Entries.get? m' "$set" = Entries.get? m "$set" := by
  refine kept_by_moveEntries (P := fun m' => Entries.get? m' "$set" = Entries.get? m "$set") h
    (fun e he before next hbefore hnext => ?_) rfl
  obtain ⟨_, -, -, rfl⟩ := moveEntry_eq_ok_iff.mp hnext
  rw [Entries.get?_insert_of_ne (elsewhere e he), hbefore]

/-- The entries that do not append stay, the others stand under the operator that appends them. -/
theorem setEntries_of_routeAppends (h : routeAppends s given = .ok m) :
    m.setEntries = given.setEntries.filter (fun e => (appendOperator? s e.1 e.2).isNone) ∧
      ∀ e ∈ given.setEntries, ∀ operator, appendOperator? s e.1 e.2 = some operator →
        HasKey m operator e.1 := by
  rcases routeAppends_cases h with ⟨fields, hset, h⟩ | ⟨hset, rfl⟩
  · rw [setEntries_of_get? hset]
    have helsewhere : ∀ e ∈ movedEntries s fields, e.1 ≠ "$set" := by
      rintro ⟨operator, key, v⟩ he
      exact appendOperator?_ne_set (mem_movedEntries.mp he).2
    refine ⟨?_, fun e he operator hoperator => ?_⟩
    · rw [setEntries, get?_set_of_moveEntries h helsewhere, withoutMoved]
      split
      · next hempty =>
        rw [Bool.and_eq_true, List.isEmpty_iff] at hempty
        rw [Entries.get?_erase, if_pos rfl]
        exact hempty.1.symm
      · rw [Entries.get?_insert_self]
        rfl
    · exact (hasKey_of_moveEntries h).1 (operator, e.1, e.2) (mem_movedEntries.mpr ⟨he, hoperator⟩)
  · have hnone : m.setEntries = [] := List.eq_nil_iff_forall_not_mem.mpr fun e he => by
      obtain ⟨fields, hfields⟩ := exists_set_of_mem he
      exact hset fields hfields
    rw [hnone]
    exact ⟨rfl, List.forall_mem_nil _⟩

/-! ## Entries that are sent -/

theorem setEntries_put {fields : Entries Value} :
    (put m "$set" fields).setEntries = fields := by
  cases fields with
  | nil =>
    rw [setEntries, put, List.isEmpty_nil, if_pos rfl, Entries.get?_erase, if_pos rfl]
    rfl
  | cons e rest => exact setEntries_of_get? (Entries.get?_insert_self m _ _)

theorem setEntries_eq_of_payload {input : Entries Value}
    (h : (Entries.get? m "$set").getD .empty = .object input) : m.setEntries = input := by
  cases hget : Entries.get? m "$set" with
  | some payload =>
    rw [hget] at h
    cases h
    exact setEntries_of_get? hget
  | none =>
    rw [hget] at h
    cases h
    rw [setEntries, hget]
    rfl

/-- What is sent under `$set`: the entries parsed, and fields that nothing touches. -/
theorem setEntries_of_parse (h : parse s modifier upsert ctx = .ok out) :
    ∃ given m parsed filled, explicit modifier = .ok given ∧ routeAppends s given = .ok m ∧
      touchedRoots m = writtenRoots m.setEntries ++ targetedRoots m ∧
      Collects (ParsesEntry s ctx) m.setEntries parsed ∧
      Collects (FillsField ctx) (unwritten s (touchedRoots m)) filled ∧
      out.setEntries = Entries.insertAll parsed filled := by
  obtain ⟨m, others, set, hm, -, hset, hout⟩ := parse_eq_ok h
  obtain ⟨input, parsed, filled, hinput, hparsed, hfilled, rfl⟩ := parseAndFill_eq_ok_iff.mp hset
  obtain ⟨given, hgiven, hroute⟩ := Outcome.bind_eq_ok.mp hm
  have htouched := touchedRoots_eq hinput
  rw [← setEntries_eq_of_payload hinput] at hparsed hfilled htouched
  refine ⟨given, m, parsed, filled, hgiven, hroute, htouched, hparsed, ?_, ?_⟩
  · rw [htouched]
    exact hfilled
  · rcases hout with ⟨-, rfl⟩ | ⟨-, remembered, -, rfl⟩
    · exact setEntries_put
    · exact setEntries_put

theorem mem_targetedRoots (h : HasKey m operator key) (hne : operator ≠ "$set") :
    DotPath.rootOf key ∈ targetedRoots m := by
  obtain ⟨payload, hpayload, hkey⟩ := h
  obtain ⟨e, he, rfl⟩ := List.mem_map.mp hkey
  exact mem_targetedRoots_iff.mpr
    ⟨⟨operator, e.1, e.2⟩, mem_writes.mpr ⟨payload, Entries.mem_of_get? hpayload, he⟩, hne,
      List.mem_cons_self⟩

/-- A key of the modifier is no field that is filled in. -/
theorem not_mem_keys_of_touched (named : Node.Named (.object s.base s.catchall))
    (touched : DotPath.rootOf key ∈ touchedRoots m) {filled : Entries Value}
    (h : Collects (FillsField ctx) (unwritten s (touchedRoots m)) filled) :
    key ∉ Entries.keys filled := by
  intro hkey
  obtain ⟨f, hf, hname⟩ := List.mem_map.mp (h.sublist_keys.subset hkey)
  obtain ⟨hbase, hcondition⟩ := List.mem_filter.mp hf
  simp only [Bool.and_eq_true, Bool.not_eq_true', List.contains_eq_mem,
    decide_eq_false_iff_not] at hcondition
  have hroot := DotPath.rootOf_of_not_hasDot (nameRule?_eq_none (named f hbase)).2.1
  rw [← hname, hroot] at touched
  exact hcondition.1 touched

/-- An entry of a `$set` leaves it if it is to be appended, and else comes out as it is
parsed at its key. -/
theorem sent_of_given (named : Node.Named (.object s.base s.catchall))
    (h : parse s modifier upsert ctx = .ok out) (hgiven : explicit modifier = .ok given)
    (distinct : (Entries.keys given.setEntries).Nodup)
    (hv : Entries.get? given.setEntries key = some v) :
    (∀ operator, appendOperator? s key v = some operator →
      Entries.get? out.setEntries key = none) ∧
    (appendOperator? s key v = none →
      ParsesEntry s ctx (key, v) (Entries.get? out.setEntries key)) := by
  obtain ⟨given', m, parsed, filled, hgiven', hroute, htouched, hparsed, hfilled, hout⟩ :=
    setEntries_of_parse h
  cases hgiven.symm.trans hgiven'
  obtain ⟨hkept, hmoved⟩ := setEntries_of_routeAppends hroute
  have hmem := Entries.mem_of_get? hv
  have hget (touched : DotPath.rootOf key ∈ touchedRoots m) :
      Entries.get? out.setEntries key = Entries.get? parsed key := by
    have hnot := not_mem_keys_of_touched named touched hfilled
    have hnone : Entries.get? filled.reverse key = none :=
      Entries.get?_eq_none_iff.mpr (by simpa [Entries.keys] using hnot)
    rw [hout, Entries.get?_insertAll, hnone, Option.none_or]
  have hsublist : (Entries.keys m.setEntries).Sublist (Entries.keys given.setEntries) :=
    hkept ▸ List.filter_sublist.map Prod.fst
  constructor
  · intro operator hoperator
    have htargeted :=
      mem_targetedRoots (hmoved _ hmem _ hoperator) (appendOperator?_ne_set hoperator)
    rw [hget (List.mem_append_right _ htargeted)]
    refine hparsed.get?_eq_none fun hkey => ?_
    obtain ⟨e, he, rfl⟩ := List.mem_map.mp hkey
    obtain ⟨hgiven, hnone⟩ := List.mem_filter.mp (hkept ▸ he)
    -- The name stands once in the `$set` that was given.
    cases (Entries.get?_of_mem distinct hgiven).symm.trans hv
    rw [hoperator] at hnone
    cases hnone
  · intro hnone
    have hstays : (key, v) ∈ m.setEntries := by
      rw [hkept]
      exact List.mem_filter.mpr ⟨hmem, by rw [hnone]; rfl⟩
    have hwritten : DotPath.rootOf key ∈ writtenRoots m.setEntries :=
      List.mem_map.mpr ⟨_, hstays, rfl⟩
    rw [hget (htouched ▸ List.mem_append_left _ hwritten)]
    exact hparsed.get?_of_mem (distinct.sublist hsublist) hstays

/-! ## Values that stay -/

theorem exists_node_of_appends (h : appendOperator? s key v = some operator) :
    ∃ n, s.baseNodeFor? key = some n := by
  unfold appendOperator? at h
  cases hn : s.baseNodeFor? key with
  | some n => exact ⟨n, rfl⟩
  | none =>
    rw [hn] at h
    cases h

theorem exists_node_of_parsesEntry {result : Option Value}
    (h : ParsesEntry s ctx (key, v) result) :
    ∃ n, s.baseNodeFor? key = some n ∧ n.relax.Parses ctx (some v) result := by
  obtain ⟨relaxed, hrelaxed, hparses⟩ := h
  rw [UpdateSchema.nodeFor?_eq_map_relax] at hrelaxed
  obtain ⟨n, hn, rfl⟩ := Option.map_eq_some_iff.mp hrelaxed
  exact ⟨n, hn, hparses⟩

theorem ordered_setEntries (ordered : modifier.Ordered) (h : explicit modifier = .ok given) :
    (Value.object given.setEntries).Ordered := by
  cases hget : Entries.get? given "$set" with
  | none =>
    rw [setEntries, hget]
    exact ⟨.nil, trivial⟩
  | some payload =>
    have hpayload : payload.Ordered :=
      Value.ordered_of_mem_fields (ordered_of_explicit ordered h) (Entries.mem_of_get? hget)
    cases payload with
    | object fields =>
      rw [setEntries_of_get? hget]
      exact hpayload
    | _ =>
      rw [setEntries, hget]
      exact ⟨.nil, trivial⟩

/-- Of the entries of a `$set`, the values of array fields that are neither arrays nor null
leave it. What stays is sent as a value that its field accepts, unless the value that was
given is only an element of its field. -/
theorem kept_sets_accepted_iff {root : Node} (clean : root.lint = .ok ())
    (plain : Node.Every Node.Untransformed root) (once : Node.Every Node.NamesOnce root)
    (givesOrdered : Node.Every (Node.GivesOrdered ctx) root) (relaxed : root.relaxed = .ok s)
    (ordered : modifier.Ordered) (written : explicit modifier = .ok given)
    (parsed : parse s modifier upsert ctx = .ok out) :
    ∀ key v, Entries.get? given.setEntries key = some v → ∃ n, s.baseNodeFor? key = some n ∧
      (Entries.contains out.setEntries key = true ↔
        n.arrayItem? = none ∨ v = .null ∨ v.isArray = true) ∧
      ∀ r, Entries.get? out.setEntries key = some r → ∀ place,
        ((n.parser (some r) ctx place).isOk = true ↔ ¬ n.OnlyElement ctx v) := by
  intro key v hv
  have hroot := Node.relaxed_eq_ok relaxed
  have named := hroot.every Node.keptByMerging_named (Node.named_of_lint clean)
  have hgiven := ordered_setEntries ordered written
  obtain ⟨hleaves, hstays⟩ := sent_of_given named.here parsed written
    (Value.ordered_object_iff.mp hgiven).1.distinct hv
  cases happend : appendOperator? s key v with
  | some operator =>
    obtain ⟨n, hn⟩ := exists_node_of_appends happend
    have hnone := hleaves operator happend
    refine ⟨n, hn, ?_, fun r hr => ?_⟩
    · rw [← appendOperator?_eq_none_iff hn, happend, Entries.contains, hnone]
      simp
    · cases hnone.symm.trans hr
  | none =>
    obtain ⟨n, hn, hparses⟩ := exists_node_of_parsesEntry (hstays happend)
    have hform := (appendOperator?_eq_none_iff hn).mp happend
    have below {P : Node → Prop} (kept : Node.KeptByMerging P) (unions : ∀ ns, P (.union ns))
        (hP : Node.Every P root) : Node.Every P n :=
      (hroot.every kept hP).of_walk kept unions hn
    have hplain := below Node.keptByMerging_untransformed (fun _ => trivial) plain
    refine ⟨n, hn, iff_of_true ?_ hform, fun r hr place => ?_⟩
    · obtain ⟨r, hr, -⟩ := hparses.sameForm (Node.untransformed_relax hplain)
      rw [Entries.contains, hr, Option.isSome_some]
    · rw [hr] at hparses
      rw [Node.isOk_parser_iff]
      exact Node.accepts_relaxed_iff hplain
        (below Node.keptByMerging_namesOnce (fun _ => trivial) once)
        (below Node.keptByMerging_named (fun _ => trivial) (Node.named_of_lint clean))
        (below Node.keptByMerging_givesOrdered (fun _ => trivial) givesOrdered)
        (Value.ordered_of_mem_fields hgiven (Entries.mem_of_get? hv)) hform hparses

/-- Rows of texts. -/
def rowsNode : Node := .array (.array Field.nonEmptyString)

def sheet : List (String × Node) := [("rows", rowsNode)]

/-- The modifier that sets the rows, in explicit form. -/
def setRows (rows : List Value) : Modifier := [("$set", .object [("rows", .array rows)])]

theorem baseNodeFor?_rows : UpdateSchema.baseNodeFor? ⟨sheet, none⟩ "rows" = some rowsNode := by
  rw [UpdateSchema.baseNodeFor?_of_top rfl]
  rfl

theorem every_sheet {P : Node → Prop} (object : P (.object sheet none)) (rows : P rowsNode)
    (row : P (.array Field.nonEmptyString)) (text : P Field.nonEmptyString) :
    Node.Every P (.object sheet none) :=
  .of_object object (List.forall_mem_singleton.mpr
    (.of_inner rows rfl (.of_inner row rfl (.of_leaf text rfl)))) (by simp)

theorem plain_sheet : Node.Every Node.Untransformed (.object sheet none) :=
  every_sheet trivial trivial trivial trivial

theorem once_sheet : Node.Every Node.NamesOnce (.object sheet none) :=
  every_sheet (by simp [Node.NamesOnce, sheet, Entries.keys]) trivial trivial trivial

theorem givesOrdered_sheet : Node.Every (Node.GivesOrdered ctx) (.object sheet none) :=
  every_sheet trivial trivial trivial trivial

theorem explicit_setRows (rows : List Value) :
    explicit (.object [("rows", .array rows)]) = .ok (setRows rows) := by
  have hoperator : DotPath.isOperator "rows" = false := rfl
  simp [explicit, setRows, hoperator]

/-- Rows that the relaxed type takes as they are stay under `$set`. -/
theorem parse_setRows {rows : List Value}
    (h : rowsNode.relax.Parses ctx (some (.array rows)) (some (.array rows))) :
    parse ⟨sheet, none⟩ (.object [("rows", .array rows)]) false ctx = .ok (setRows rows) := by
  have hstays : appendOperator? ⟨sheet, none⟩ "rows" (.array rows) = none :=
    (appendOperator?_eq_none_iff baseNodeFor?_rows).mpr (.inr (.inr rfl))
  have hnormal : normalize ⟨sheet, none⟩ (.object [("rows", .array rows)]) =
      .ok (setRows rows) :=
    normalize_of_kept (explicit_setRows rows) (List.forall_mem_singleton.mpr hstays)
  refine parse_plain_eq_ok_iff.mpr ⟨setRows rows, [], [("rows", .array rows)], hnormal, rfl,
    ?_, rfl⟩
  refine parseAndFill_eq_ok_iff.mpr ⟨[("rows", .array rows)], _, [], rfl, ?_, ?_, rfl⟩
  · refine .keep ⟨_, ?_, h⟩ .nil
    rw [UpdateSchema.nodeFor?_eq_map_relax, baseNodeFor?_rows]
    rfl
  · have required : ∀ f ∈ sheet, f.2.relax.acceptsAbsent = false :=
      List.forall_mem_singleton.mpr (Node.acceptsAbsent_relax_array _)
    rw [unwritten_eq_nil required]
    exact .nil

/-- Rows are set as a whole. -/
theorem rows_stay : ∃ n, UpdateSchema.baseNodeFor? ⟨sheet, none⟩ "rows" = some n ∧
    ∀ place, (n.parser (some (.array [.array [.string "x"]])) .detached place).isOk = true := by
  have hrows : rowsNode.Parses .detached (some (.array [.array [.string "x"]]))
      (some (.array [.array [.string "x"]])) := by
    refine Node.parses_array_iff.mpr ⟨_, _, rfl, .cons ?_ .nil, rfl⟩
    exact Node.parses_array_iff.mpr ⟨_, _, rfl, .cons (parses_label (by decide)) .nil, rfl⟩
  have hordered : (Value.object [("rows", .array [.array [.string "x"]])]).Ordered := by
    simp [Value.Ordered, Value.OrderedFields, Value.OrderedItems, Entries.Sorted]
  obtain ⟨n, hn, -, haccepts⟩ := kept_sets_accepted_iff rfl plain_sheet once_sheet
    givesOrdered_sheet rfl hordered (explicit_setRows _)
    (parse_setRows (Node.parses_relax_some hrows)) "rows" _ rfl
  refine ⟨n, hn, fun place => (haccepts _ rfl place).mpr ?_⟩
  cases baseNodeFor?_rows.symm.trans hn
  rintro ⟨_, _, -, -, hrefused, -⟩
  exact hrefused ⟨_, hrows⟩

/-- A row by itself is set as well, in place of all rows. -/
theorem row_stays : (Node.object sheet none).lint = .ok () ∧
    Node.Every Node.Untransformed (.object sheet none) ∧
    Node.Every Node.NamesOnce (.object sheet none) ∧
    (Node.object sheet none).relaxed = .ok ⟨sheet, none⟩ ∧
    parse ⟨sheet, none⟩ (.object [("rows", .array [.string "x"])]) false .detached =
      .ok [("$set", .object [("rows", .array [.string "x"])])] ∧
    UpdateSchema.baseNodeFor? ⟨sheet, none⟩ "rows" = some rowsNode ∧
    ∀ place, (rowsNode.parser (some (.array [.string "x"])) .detached place).isOk = false := by
  have hrefused : ¬ rowsNode.Accepts .detached (some (.array [.string "x"])) := by
    have plain : Node.Every Node.Untransformed (.array Field.nonEmptyString) :=
      .of_inner trivial rfl (.of_leaf trivial rfl)
    rw [rowsNode, Node.accepts_array_iff plain]
    rintro ⟨_, ⟨⟩, heach⟩
    obtain ⟨_, htext⟩ := heach _ List.mem_cons_self
    obtain ⟨_, _, heq, -⟩ := Node.parses_array_iff.mp htext
    cases heq
  refine ⟨rfl, plain_sheet, once_sheet, rfl, parse_setRows ?_, baseNodeFor?_rows, fun place => ?_⟩
  · refine Node.parses_union_iff.mpr ⟨[_], _, [_], rfl, List.forall_mem_singleton.mpr ?_, ?_⟩
    · intro r hr
      exact hrefused ⟨r, Node.parses_stripDefaults_some.mp hr⟩
    · exact Node.parses_array_iff.mpr ⟨_, _, rfl, .cons (parses_label (by decide)) .nil, rfl⟩
  · rw [← Bool.not_eq_true, Node.isOk_parser_iff]
    exact hrefused

end Modifier

end DocSchema

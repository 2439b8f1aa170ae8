-- SUMMARY: Which appends keep a document valid.
import DocSchema.Proofs.Direct
import DocSchema.Proofs.Sends
import Mathlib.Data.List.InsertIdx

/-!
# Appending to arrays

An operand that is appended is read twice. The relaxed type of an array field
takes it as the whole array, as one element, or as an object `$each: [...]`; the
store appends the elements listed under `$each`, and any other operand as one
element. Appends keep a valid document valid where the second reading, too,
comes to elements that the array accepts, which is `Write.ReadAlike`.
-/

namespace DocSchema

/-! ## Arrays after an append -/

namespace Apply

variable {unique : Bool} {items values : List Value} {point : Nat} {v : Value} {a : Append}

theorem mem_of_mem_insertEach (h : v ∈ insertEach unique items point values) :
    v ∈ items ∨ v ∈ values := by
  induction values generalizing items point with
  | nil => exact .inl h
  | cons w rest ih =>
    rw [insertEach] at h
    split at h
    · exact (ih h).imp_right (List.mem_cons_of_mem _)
    · rcases ih h with h | h
      · rcases List.eq_or_mem_of_mem_insertIdx h with rfl | h
        · exact .inr List.mem_cons_self
        · exact .inl h
      · exact .inr (List.mem_cons_of_mem _ h)

/-- Nothing gets lost on the way in, unless duplicates are left out. -/
theorem mem_insertEach (hpoint : point ≤ items.length) (h : v ∈ items ∨ v ∈ values) :
    v ∈ insertEach false items point values := by
  induction values generalizing items point with
  | nil => exact h.resolve_right (List.not_mem_nil)
  | cons w rest ih =>
    rw [insertEach, Bool.false_and, if_neg Bool.false_ne_true]
    refine ih (by rw [List.length_insertIdx_of_le_length hpoint]; omega) ?_
    rw [List.mem_insertIdx hpoint]
    rcases h with h | h
    · exact .inl (.inr h)
    · exact (List.mem_cons.mp h).imp_left .inl

theorem insertionPoint_le (size : Nat) (position : Option Int) :
    insertionPoint size position ≤ size := by
  unfold insertionPoint
  split
  · exact Nat.le_refl _
  · split <;> omega

theorem mem_of_mem_onto (h : v ∈ a.onto unique items) : v ∈ items ∨ v ∈ a.values := by
  unfold Append.onto cut at h
  split at h
  · exact mem_of_mem_insertEach h
  · split at h
    · exact mem_of_mem_insertEach (List.mem_of_mem_take h)
    · exact mem_of_mem_insertEach (List.mem_of_mem_drop h)

theorem mem_onto (uncut : a.slice = none) (h : v ∈ items ∨ v ∈ a.values) :
    v ∈ a.onto false items := by
  unfold Append.onto
  rw [uncut]
  exact mem_insertEach (insertionPoint_le _ _) h

/-- The elements that are appended are parts of the operand. -/
theorem ordered_of_ofOperand {operand : Value} {path : String} (ordered : operand.Ordered)
    (h : Append.ofOperand operand path = .ok a) (hv : v ∈ a.values) : v.Ordered := by
  unfold Append.ofOperand at h
  split at h
  · cases h
    cases List.mem_singleton.mp hv
    exact ordered
  · next listed heach =>
    cases h
    cases operand with
    | object fields =>
      have hlisted := Value.ordered_of_mem_fields ordered (Entries.mem_of_get? heach)
      exact Value.ordered_of_mem hlisted hv
    | _ => cases heach
  · cases h

end Apply

/-! ## Changing a top-level array -/

namespace Value

variable {fields : Entries Value} {path : String}

/-- The elements of the array under a name; without an array there are none. -/
def itemsAt (doc : Value) (name : String) : List Value :=
  ((doc.field? name).bind array?).getD []

theorem itemsAt_insert_self (items : List Value) :
    (Value.object (Entries.insert fields path (.array items))).itemsAt path = items := by
  simp [itemsAt, field?, object?, array?]

theorem itemsAt_insert_of_ne {name : String} (h : path ≠ name) (v : Value) :
    (Value.object (Entries.insert fields path v)).itemsAt name =
      (Value.object fields).itemsAt name := by
  simp [itemsAt, field?, object?, Entries.get?_insert_of_ne h]

theorem field?_of_mem_itemsAt {doc v : Value} {name : String} (h : v ∈ doc.itemsAt name) :
    doc.field? name = some (.array (doc.itemsAt name)) := by
  unfold itemsAt at h ⊢
  cases hfield : doc.field? name with
  | none => simp [hfield] at h
  | some w => cases w <;> simp_all [array?]

theorem changeArray_eq_done (top : DotPath.hasDot path = false)
    {change : List Value → List Value} {after : Value}
    (h : (Value.object fields).changeArray path change = .done after) :
    after = .object
      (Entries.insert fields path (.array (change ((Value.object fields).itemsAt path)))) := by
  have hsegments := DotPath.segments_of_not_hasDot top
  unfold changeArray at h
  rw [Edited.andThen_eq_done_iff] at h
  obtain ⟨mid, hmid, h⟩ := h
  cases hparts : DotPath.editable path with
  | error fault =>
    rw [hparts] at h
    cases h
  | ok parts =>
    cases (DotPath.eq_segments_of_editable hparts).trans hsegments
    rw [hparts] at h
    have hwalk (fields : Entries Value) : (Value.object fields).walk? [path] =
        Entries.get? fields path := by
      rw [walk?]
      cases Entries.get? fields path <;> rfl
    have hlookup : (Value.object fields).lookup? path = Entries.get? fields path := by
      rw [lookup?, hsegments, hwalk]
    rw [hlookup] at hmid
    cases hget : Entries.get? fields path with
    | none =>
      -- The array is created first, and empty.
      rw [hget, Option.isNone_none, if_pos rfl, setPath, hparts] at hmid
      cases hmid
      have hitems : (Value.object fields).itemsAt path = [] := by
        simp [itemsAt, field?, object?, hget]
      simp only [changeArrayAt, setAt, hwalk, Entries.get?_insert_self, replaceAt,
        Entries.insert_insert] at h
      cases h
      rw [hitems]
    | some v =>
      rw [hget, Option.isNone_some, if_neg Bool.false_ne_true] at hmid
      cases hmid
      dsimp only at h
      unfold changeArrayAt at h
      rw [hwalk, hget] at h
      cases v with
      | array items =>
        have hitems : (Value.object fields).itemsAt path = items := by
          simp [itemsAt, field?, object?, array?, hget]
        simp only [replaceAt, hget] at h
        cases h
        rw [hitems]
      | _ => cases h

end Value

/-! ## Writes that append -/

namespace UpdateSchema

variable {s : UpdateSchema} {path : String}

theorem direct_of_top {n : Node} (direct : Node.Every Node.Direct (.object s.base s.catchall))
    (hn : (Entries.get? s.base path).or s.catchall = some n) : Node.Every Node.Direct n := by
  rcases Option.or_eq_some_iff.mp hn with hdeclared | ⟨-, hcatchall⟩
  · exact direct.field (Entries.mem_of_get? hdeclared)
  · rw [hcatchall] at direct
    exact direct.catchall

end UpdateSchema

namespace Write

variable {ctx : Context} {s : UpdateSchema} {item : Node} {w : Write}

/-- The write appends to a top-level field. -/
structure Appends (w : Write) : Prop where
  operator : w.operator = "$push" ∨ w.operator = "$addToSet"
  top : DotPath.hasDot w.path = false

/-- The write appends to a top-level field that is an array of items of the type. -/
structure AppendsTo (s : UpdateSchema) (item : Node) (w : Write) : Prop extends w.Appends where
  item : (s.baseNodeFor? w.path).bind Node.arrayItem? = some item

/-- Read as what is appended, the operand comes to accepted elements where its
acceptance as a modifier does not say so: an array or null is appended as one
element, and an element that has an `$each` is not appended itself. -/
def ReadAlike (ctx : Context) (item : Node) (w : Write) : Prop :=
  match w.operand with
  | .array _ | .null => item.Passes ctx w.operand
  | operand => ∀ values, operand.field? "$each" = some (.array values) →
    item.Passes ctx operand → ∀ v ∈ values, item.Passes ctx v

namespace AppendsTo

theorem exists_node (h : w.AppendsTo s item) :
    ∃ n, (Entries.get? s.base w.path).or s.catchall = some n ∧ n.arrayItem? = some item ∧
      s.nodeFor? w.path = some n.relax := by
  obtain ⟨n, hn, hitem⟩ := Option.bind_eq_some_iff.mp h.item
  refine ⟨n, (UpdateSchema.baseNodeFor?_of_top h.top).symm.trans hn, hitem, ?_⟩
  rw [UpdateSchema.nodeFor?_of_top h.top, hn]
  rfl

theorem unique (h : w.AppendsTo s item) {item' : Node} (h' : w.AppendsTo s item') :
    item = item' := Option.some.inj (h.item.symm.trans h'.item)

end AppendsTo

/-- Of an operand that the relaxed field takes, everything that is appended is accepted
exactly if it is read alike. -/
theorem readAlike_iff {n : Node} (hitem : n.arrayItem? = some item)
    (taken : n.relax.Passes ctx w.operand) {a : Apply.Append}
    (ha : Apply.Append.ofOperand w.operand w.path = .ok a) :
    w.ReadAlike ctx item ↔ ∀ v ∈ a.values, item.Passes ctx v := by
  have whole (h : n.Passes ctx w.operand) : w.operand = .null ∨ ∃ items, w.operand = .array items :=
    h.elim fun _ hr => Node.eq_array_or_null_of_arrayItem? hitem hr
  have cases := (Node.passes_relax_iff hitem).mp taken
  obtain ⟨operator, path, operand⟩ := w
  dsimp only at *
  unfold Apply.Append.ofOperand at ha
  split at ha
  · next heach =>
    cases ha
    rw [List.forall_mem_singleton]
    unfold ReadAlike
    dsimp only
    split
    · exact Iff.rfl
    · exact Iff.rfl
    · next harray hnull =>
      refine iff_of_true (fun values hvalues => ?_) ?_
      · cases heach.symm.trans hvalues
      · rcases cases with h | h | h
        · rcases whole h with heq | ⟨items, heq⟩
          · exact (hnull heq).elim
          · exact (harray items heq).elim
        · exact h
        · obtain ⟨values, hvalues, -⟩ := Node.each_of_passes h
          cases heach.symm.trans hvalues
  · next values heach =>
    cases ha
    cases operand with
    | object fields =>
      change (∀ listed, (Value.object fields).field? "$each" = some (.array listed) → _ →
        ∀ v ∈ listed, _) ↔ _
      constructor
      · intro h
        rcases cases with hwhole | hitem | heach'
        · rcases whole hwhole with heq | ⟨items, heq⟩ <;> cases heq
        · exact h values heach hitem
        · obtain ⟨listed, hlisted, hall⟩ := Node.each_of_passes heach'
          cases heach.symm.trans hlisted
          exact hall
      · intro h listed hlisted _
        cases heach.symm.trans hlisted
        exact h
    | _ => cases heach
  · cases ha

/-- What a write that appends leaves. -/
theorem Appends.apply_eq_done (appends : w.Appends) {inserting : Bool} {fields : Entries Value}
    {after : Value} (h : w.apply inserting (.object fields) = .done after) :
    ∃ a, Apply.Append.ofOperand w.operand w.path = .ok a ∧
      after = .object (Entries.insert fields w.path (.array
        (a.onto (w.operator == "$addToSet") ((Value.object fields).itemsAt w.path)))) := by
  have happend : Apply.append (.object fields) w.path w.operand (w.operator == "$addToSet") =
      .done after := by
    rw [← h]
    have hoperator := appends.operator
    obtain ⟨_, path, operand⟩ := w
    rcases hoperator with rfl | rfl <;> rfl
  unfold Apply.append at happend
  split at happend
  · next a ha => exact ⟨a, ha, Value.changeArray_eq_done appends.top happend⟩
  · cases happend

end Write

/-! ## Appends that are accepted -/

namespace Apply

variable {ctx : Context} {s : UpdateSchema} {inserting : Bool} {ws : List Write}
  {doc after : Value}

/-- The elements of the array at a path are accepted one by one. -/
theorem passes_of_mem_itemsAt {w : Write} {item : Node} (appends : w.AppendsTo s item)
    (direct : Node.Every Node.Direct (.object s.base s.catchall))
    (h : (Node.object s.base s.catchall).Passes ctx doc) {v : Value}
    (hv : v ∈ doc.itemsAt w.path) : item.Passes ctx v := by
  obtain ⟨n, hn, hitem, -⟩ := appends.exists_node
  have hfield := Value.field?_of_mem_itemsAt hv
  cases doc with
  | object fields =>
    exact (Node.passes_array_iff (UpdateSchema.direct_of_top direct hn) hitem).mp
      (h.field hn hfield) v hv
  | _ => cases hfield

/-- Appending what the item type accepts keeps a document acceptable. -/
theorem passes_of_apply (direct : Node.Every Node.Direct (.object s.base s.catchall))
    (distinct : (Entries.keys s.base).Nodup) {w : Write} {item : Node}
    (appends : w.AppendsTo s item)
    (accepted : ∀ a, Append.ofOperand w.operand w.path = .ok a → ∀ v ∈ a.values, item.Passes ctx v)
    (passes : (Node.object s.base s.catchall).Passes ctx doc)
    (h : w.apply inserting doc = .done after) :
    (Node.object s.base s.catchall).Passes ctx after := by
  obtain ⟨input, rfl⟩ := passes.exists_object
  obtain ⟨a, ha, rfl⟩ := appends.apply_eq_done h
  obtain ⟨n, hn, hitem, -⟩ := appends.exists_node
  refine passes.insert distinct hn ?_
  refine (Node.passes_array_iff (UpdateSchema.direct_of_top direct hn) hitem).mpr fun v hv => ?_
  rcases mem_of_mem_onto hv with hold | hnew
  · exact passes_of_mem_itemsAt appends direct passes hold
  · exact accepted a ha v hnew

theorem ordered_of_apply {w : Write} (appends : w.Appends) (operand : w.operand.Ordered)
    {fields : Entries Value} (ordered : (Value.object fields).Ordered)
    (h : w.apply inserting (.object fields) = .done after) :
    after.isObject = true ∧ after.Ordered := by
  obtain ⟨a, ha, rfl⟩ := appends.apply_eq_done h
  obtain ⟨hsorted, hvalues⟩ := Value.ordered_object_iff.mp ordered
  refine ⟨rfl, Value.ordered_object_iff.mpr ⟨Entries.sorted_insert hsorted _ _, fun e he => ?_⟩⟩
  rcases Entries.mem_insert he with rfl | hold
  · refine Value.ordered_array_iff.mpr fun v hv => ?_
    rcases mem_of_mem_onto hv with hold | hnew
    · have hfield := Value.field?_of_mem_itemsAt hold
      exact Value.ordered_of_mem (hvalues _ (Entries.mem_of_get? hfield)) hold
    · exact ordered_of_ofOperand operand ha hnew
  · exact hvalues e hold

theorem ordered_of_writes (appends : ∀ w ∈ ws, w.Appends ∧ w.operand.Ordered)
    {fields : Entries Value} (ordered : (Value.object fields).Ordered)
    (h : writes inserting (.object fields) ws = .done after) : after.Ordered := by
  refine (kept_by_writes (P := fun v => v.isObject = true ∧ v.Ordered) h
    (fun w hw before next hb happly => ?_) ⟨rfl, ordered⟩).2
  cases before with
  | object fields => exact ordered_of_apply (appends w hw).1 (appends w hw).2 hb.2 happly
  | _ => cases hb.1

/-! ## Pushes that are not cut -/

/-- A push without `$slice` to a top-level field. -/
structure Pushes (w : Write) : Prop extends w.Appends where
  push : w.operator = "$push"
  uncut : w.operand.field? "$slice" = none

theorem slice_of_ofOperand {operand : Value} {path : String} {a : Append}
    (uncut : operand.field? "$slice" = none) (h : Append.ofOperand operand path = .ok a) :
    a.slice = none := by
  unfold Append.ofOperand at h
  split at h
  · cases h
    rfl
  · cases h
    simp [uncut]
  · cases h

/-- After a push its field holds what it held and what was appended. -/
theorem itemsAt_of_apply {w : Write} (pushes : Pushes w) {fields : Entries Value}
    (h : w.apply inserting (.object fields) = .done after) :
    (∀ name, (Value.object fields).itemsAt name ⊆ after.itemsAt name) ∧
      ∃ a, Append.ofOperand w.operand w.path = .ok a ∧ a.values ⊆ after.itemsAt w.path := by
  obtain ⟨a, ha, rfl⟩ := pushes.apply_eq_done h
  have hslice := slice_of_ofOperand pushes.uncut ha
  have hunique : (w.operator == "$addToSet") = false := by
    rw [pushes.push]
    rfl
  rw [hunique]
  refine ⟨fun name v hv => ?_, a, ha, fun v hv => ?_⟩
  · by_cases hname : w.path = name
    · subst hname
      rw [Value.itemsAt_insert_self]
      exact mem_onto hslice (.inl hv)
    · rw [Value.itemsAt_insert_of_ne hname]
      exact hv
  · rw [Value.itemsAt_insert_self]
    exact mem_onto hslice (.inr hv)

theorem itemsAt_of_writes (pushes : ∀ w ∈ ws, Pushes w) {fields : Entries Value}
    (h : writes inserting (.object fields) ws = .done after) :
    (∀ name, (Value.object fields).itemsAt name ⊆ after.itemsAt name) ∧
      ∀ w ∈ ws, ∃ a, Append.ofOperand w.operand w.path = .ok a ∧
        a.values ⊆ after.itemsAt w.path := by
  induction ws generalizing fields with
  | nil =>
    cases h
    exact ⟨fun _ => List.Subset.refl _, List.forall_mem_nil _⟩
  | cons w rest ih =>
    obtain ⟨hw, hrest⟩ := List.forall_mem_cons.mp pushes
    rw [writes, Edited.andThen_eq_done_iff] at h
    obtain ⟨mid, hmid, h⟩ := h
    obtain ⟨hgrows, a, ha, hvalues⟩ := itemsAt_of_apply hw hmid
    obtain ⟨_, -, rfl⟩ := hw.apply_eq_done hmid
    obtain ⟨hgrows', hrest'⟩ := ih hrest h
    refine ⟨fun name => List.Subset.trans (hgrows name) (hgrows' name), ?_⟩
    exact List.forall_mem_cons.mpr
      ⟨⟨a, ha, List.Subset.trans hvalues (hgrows' w.path)⟩, hrest'⟩

end Apply

/-! ## Modifiers that append -/

namespace Modifier

variable {s : UpdateSchema} {ctx : Context} {modifier : Value} {sent : Modifier} {w : Write}

theorem ordered_of_explicit {m : Modifier} (ordered : modifier.Ordered)
    (h : explicit modifier = .ok m) : (Value.object m).Ordered := by
  unfold explicit at h
  cases modifier with
  | object fields =>
    dsimp only at h
    split at h
    · cases h
      exact Value.ordered_object_iff.mpr
        ⟨List.pairwise_singleton _ _, List.forall_mem_singleton.mpr ordered⟩
    · split at h
      · cases h
        exact ordered
      · cases h
  | _ => cases h

theorem ordered_of_mem_writesOf (ordered : modifier.Ordered) (hw : w ∈ writesOf modifier) :
    w.operand.Ordered := by
  unfold writesOf at hw
  split at hw
  · next m heq =>
    obtain ⟨payload, hpayload, hmem⟩ := mem_writes.mp hw
    exact Value.ordered_of_mem_fields
      (Value.ordered_of_mem_fields (ordered_of_explicit ordered heq) hpayload) hmem
  · cases hw

section Direct

variable (direct : Node.Every Node.Direct (.object s.base s.catchall))
  (ordered : modifier.Ordered)
  (appends : ∀ w ∈ writesOf modifier, ∃ item, w.AppendsTo s item)
  (parsed : parse s modifier false ctx = .ok sent)
include direct ordered appends parsed

omit direct ordered parsed in
theorem ne_set_of_appends (hw : w ∈ writesOf modifier) : w.operator ≠ "$set" := by
  obtain ⟨item, hitem⟩ := appends w hw
  rcases hitem.operator with h | h <;> rw [h] <;> decide

/-- An append that is asked for is accepted by the relaxed type of its field, and sent
as it is. -/
theorem sent_of_appends (hw : w ∈ writesOf modifier) : w ∈ writes sent ∧
    ∀ item, w.AppendsTo s item → ∃ n : Node, n.arrayItem? = some item ∧
      n.relax.Passes ctx w.operand := by
  obtain ⟨m, others, set, hm, hothers, -, hout⟩ := parse_eq_ok parsed
  obtain ⟨item, hitem⟩ := appends w hw
  obtain ⟨n, hn, harray, hnode⟩ := hitem.exists_node
  have hset : w.operator ≠ "$set" := ne_set_of_appends appends hw
  have hoperator : w.operator ∈ parsedOperators := by
    rcases hitem.operator with h | h <;> rw [h] <;> decide
  have hasked := (mem_writes_iff_of_normalize hm fun _ => ne_set_of_appends appends).mpr hw
  obtain ⟨r, ⟨n', hn', hparses⟩, hsent⟩ :=
    exists_parsesEntry_of_parseOperators hothers hasked hset hoperator
  cases hn'.symm.trans hnode
  have hr : r = some w.operand := by
    refine hparses.eq_of_relax (UpdateSchema.direct_of_top direct hn) fun v hv => ?_
    cases hv
    exact ordered_of_mem_writesOf ordered hw
  constructor
  · rcases hout with ⟨-, rfl⟩ | ⟨hupsert, -⟩
    · exact mem_writes_put_of_ne (hsent _ hr) hset
    · cases hupsert
  · intro item' hitem'
    cases hitem.unique hitem'
    exact ⟨n, harray, r, hparses⟩

/-- Nothing else is sent. -/
theorem asked_of_appends (hw : w ∈ writes sent) : w ∈ writesOf modifier := by
  obtain ⟨m, hm, hsends⟩ := sends_of_parse parsed
  have hasked {w : Write} : w ∈ writes m ↔ w ∈ writesOf modifier :=
    mem_writes_iff_of_normalize hm fun _ => ne_set_of_appends appends
  cases hsends w hw with
  | @parsed operator path v operand hmem _ hparses =>
    obtain ⟨item, hitem⟩ := appends _ (hasked.mp hmem)
    obtain ⟨n, hn, -, hnode⟩ := hitem.exists_node
    obtain ⟨n', hn', hparses⟩ := hparses
    cases hn'.symm.trans hnode
    have hoperand : some operand = some v :=
      hparses.eq_of_relax (UpdateSchema.direct_of_top direct hn) fun u hu => by
        cases hu
        exact ordered_of_mem_writesOf ordered (hasked.mp hmem)
    cases hoperand
    exact hasked.mp hmem
  | passed hmem _ => exact hasked.mp hmem
  | @filled f v hf _ hfills =>
    cases Node.Parses.eq_of_relax (direct.field hf) (fun _ hv => by cases hv) hfills
  | remembered hupsert => cases hupsert

end Direct

/-- Accepted appends keep a valid document valid if every operand is read alike; for pushes
without `$slice` also only if. -/
theorem appends_keep_valid {schema : Node} {validator : Validator}
    (direct : Node.Every Node.Direct schema) (distinct : Node.Every Node.Distinct schema)
    (compiled : schema.compile = .ok validator) (relaxed : schema.relaxed = .ok s)
    (ordered : modifier.Ordered) (appends : ∀ w ∈ writesOf modifier, ∃ item, w.AppendsTo s item)
    (parsed : parse s modifier false ctx = .ok sent) {doc next : Value} (hdoc : doc.Ordered)
    (valid : validator.isValid doc = true)
    (applied : Apply.modifier doc (.object sent) false = .done next) :
    ((∀ w ∈ writesOf modifier, ∀ item, w.AppendsTo s item → w.ReadAlike ctx item) →
      validator.isValid next = true) ∧
    ((∀ w ∈ writesOf modifier, w.operator = "$push" ∧ w.operand.field? "$slice" = none) →
      validator.isValid next = true →
      ∀ w ∈ writesOf modifier, ∀ item, w.AppendsTo s item → w.ReadAlike ctx item) := by
  have hroot : schema = .object s.base s.catchall := by
    rcases Node.relaxed_eq_ok relaxed with h | ⟨left, right, rfl, -⟩
    · exact h
    · exact direct.here.elim
  subst hroot
  have hwrites := Apply.writes_of_operators applied
  have agrees {v : Value} (hv : v.Ordered) :
      validator.isValid v = true ↔ (Node.object s.base s.catchall).Passes ctx v :=
    Node.isValid_iff_of_direct compiled direct distinct hv
  have hpasses := (agrees hdoc).mp valid
  obtain ⟨fields, rfl⟩ := hpasses.exists_object
  have hnext : next.Ordered := by
    refine Apply.ordered_of_writes (fun w hw => ?_) hdoc hwrites
    have hasked := asked_of_appends direct ordered appends parsed hw
    obtain ⟨item, hitem⟩ := appends w hasked
    exact ⟨hitem.toAppends, ordered_of_mem_writesOf ordered hasked⟩
  rw [agrees hnext]
  have alike_iff {w : Write} (hw : w ∈ writesOf modifier) {item : Node} (hitem : w.AppendsTo s item)
      {a : Apply.Append} (ha : Apply.Append.ofOperand w.operand w.path = .ok a) :
      w.ReadAlike ctx item ↔ ∀ v ∈ a.values, item.Passes ctx v := by
    obtain ⟨n, harray, taken⟩ := (sent_of_appends direct ordered appends parsed hw).2 item hitem
    exact Write.readAlike_iff harray taken ha
  constructor
  · intro alike
    refine Apply.kept_by_writes hwrites (fun w hw before after hbefore happly => ?_) hpasses
    have hasked := asked_of_appends direct ordered appends parsed hw
    obtain ⟨item, hitem⟩ := appends w hasked
    exact Apply.passes_of_apply direct distinct.here hitem
      (fun a ha => (alike_iff hasked hitem ha).mp (alike w hasked item hitem)) hbefore happly
  · intro pushes hvalid w hw item hitem
    have hpushes : ∀ w ∈ writes sent, Apply.Pushes w := by
      intro w hw
      have hasked := asked_of_appends direct ordered appends parsed hw
      obtain ⟨item, hitem⟩ := appends w hasked
      exact ⟨hitem.toAppends, (pushes w hasked).1, (pushes w hasked).2⟩
    obtain ⟨-, happended⟩ := Apply.itemsAt_of_writes hpushes hwrites
    obtain ⟨a, ha, hvalues⟩ := happended w (sent_of_appends direct ordered appends parsed hw).1
    exact (alike_iff hw hitem ha).mpr fun v hv =>
      Apply.passes_of_mem_itemsAt hitem direct hvalid (hvalues hv)

/-- Labels that must not be empty. -/
def labels : List (String × Node) := [("labels", .array Field.nonEmptyString)]

def labelled (vs : List Value) : Value := .object [("labels", .array vs)]

/-- The modifier that pushes an operand to the labels. -/
def pushLabel (operand : Value) : Modifier := [("$push", .object [("labels", operand)])]

theorem explicit_pushLabel (v : Value) : explicit (.object (pushLabel v)) = .ok (pushLabel v) := by
  have hoperator : DotPath.isOperator "$push" = true := rfl
  simp [explicit, pushLabel, hoperator]

theorem direct_labels : Node.Every Node.Direct (.object labels none) :=
  .of_object trivial (List.forall_mem_singleton.mpr (.of_inner trivial rfl (.of_leaf trivial rfl)))
    (by simp)

theorem distinct_labels : Node.Every Node.Distinct (.object labels none) :=
  .of_object (by simp [Node.Distinct, labels, Entries.keys])
    (List.forall_mem_singleton.mpr (.of_inner trivial rfl (.of_leaf trivial rfl))) (by simp)

theorem compile_labels : ∃ validator, (Node.object labels none).compile = .ok validator := by
  rw [labels, Node.compile_object, Node.rules_object]
  simp only [List.map, Node.rules, Node.acceptsAbsent, Field.nonEmptyString]
  exact ⟨_, rfl⟩

theorem parses_label {text : String} (h : StringCheck.allHold [.minLength 1] text = true) :
    Field.nonEmptyString.Parses ctx (some (.string text)) (some (.string text)) :=
  Node.parses_string_iff.mpr ⟨text, rfl, h, rfl⟩

/-- Labels are valid if each of them is. -/
theorem isValid_labelled_iff {validator : Validator}
    (compiled : (Node.object labels none).compile = .ok validator) {vs : List Value}
    (ordered : (labelled vs).Ordered) : validator.isValid (labelled vs) = true ↔
      ∀ v ∈ vs, Field.nonEmptyString.Passes .detached v := by
  have harray : Node.Every Node.Direct (.array Field.nonEmptyString) :=
    .of_inner trivial rfl (.of_leaf trivial rfl)
  have hvalid : validator.isValid (labelled vs) = true ↔
      (Node.object labels none).Passes .detached (labelled vs) :=
    Node.isValid_iff_of_direct compiled direct_labels distinct_labels ordered
  have hdeclared : Entries.get? labels "labels" = some (.array Field.nonEmptyString) := rfl
  rw [hvalid, ← Node.passes_array_iff harray rfl]
  constructor
  · exact fun h => h.field (by rw [hdeclared, Option.some_or]) rfl
  · intro h
    refine Node.passes_object_iff.mpr ⟨rfl, ?_, List.forall_mem_singleton.mpr h⟩
    intro e he
    obtain ⟨he, hnone⟩ := Node.mem_undeclared_iff.mp he
    cases List.mem_singleton.mp he
    cases hnone

/-- What the relaxed labels take, a push of it sends. -/
theorem parse_pushLabel {v : Value}
    (h : (Node.array Field.nonEmptyString).relax.Parses ctx (some v) (some v)) :
    parse ⟨labels, none⟩ (.object (pushLabel v)) false ctx = .ok (pushLabel v) := by
  have hnode : UpdateSchema.nodeFor? ⟨labels, none⟩ "labels" =
      some (Node.array Field.nonEmptyString).relax := by
    rw [UpdateSchema.nodeFor?_of_top rfl, UpdateSchema.baseNodeFor?_of_top rfl]
    rfl
  have hentries : parseEntries ⟨labels, none⟩ ctx [("labels", v)] = .ok [("labels", v)] :=
    parseEntries_eq_ok_iff.mpr (.keep ⟨_, hnode, h⟩ .nil)
  have hnormal : normalize ⟨labels, none⟩ (.object (pushLabel v)) = .ok (pushLabel v) := by
    unfold normalize
    rw [explicit_pushLabel]
    rfl
  refine parse_plain_eq_ok_iff.mpr ⟨pushLabel v, pushLabel v, [], hnormal, ?_, ?_, rfl⟩
  · have hpush : parseOperator ⟨labels, none⟩ "$push" (.object [("labels", v)]) ctx =
        .ok (.object [("labels", v)]) := by
      rw [parseOperator, if_pos (by decide), parsePayload, payloadEntries]
      change (parseEntries _ ctx _).map Value.object = _
      rw [hentries]
      rfl
    unfold pushLabel
    rw [parseOperators, if_neg (by decide), hpush]
    rfl
  · refine parseAndFill_eq_ok_iff.mpr ⟨[], [], [], rfl, .nil, ?_, rfl⟩
    have required : ∀ f ∈ labels, f.2.relax.acceptsAbsent = false :=
      List.forall_mem_singleton.mpr (Node.acceptsAbsent_relax_array _)
    rw [unwritten_eq_nil required]
    exact .nil

theorem pushLabel_appends {v : Value} : ∀ w ∈ writesOf (.object (pushLabel v)),
    ∃ item, w.AppendsTo ⟨labels, none⟩ item := by
  intro w hw
  unfold writesOf at hw
  rw [explicit_pushLabel] at hw
  cases List.mem_singleton.mp hw
  have top : DotPath.hasDot "labels" = false := rfl
  refine ⟨Field.nonEmptyString, ⟨⟨.inl rfl, top⟩, ?_⟩⟩
  rw [UpdateSchema.baseNodeFor?_of_top top]
  rfl

theorem ordered_labelled {vs : List Value} (h : ∀ v ∈ vs, v.Ordered) : (labelled vs).Ordered :=
  Value.ordered_object_iff.mpr ⟨List.pairwise_singleton _ _,
    List.forall_mem_singleton.mpr (Value.ordered_array_iff.mpr h)⟩

/-- A label that is pushed alone joins the others. -/
theorem label_pushed : ∃ validator, (Node.object labels none).compile = .ok validator ∧
    validator.isValid (labelled [.string "a", .string "b"]) = true := by
  obtain ⟨validator, compiled⟩ := compile_labels
  have hmodifier : (Value.object (pushLabel (.string "b"))).Ordered := by
    simp [pushLabel, Value.Ordered, Value.OrderedFields, Entries.Sorted]
  have hparsed : parse ⟨labels, none⟩ (.object (pushLabel (.string "b"))) false .detached =
      .ok (pushLabel (.string "b")) := by
    refine parse_pushLabel ?_
    refine Node.parses_union_iff.mpr ⟨[_], _, [_], rfl, List.forall_mem_singleton.mpr ?_, ?_⟩
    · simp [Node.stripDefaults, Node.parses_array_iff]
    · exact parses_label (by decide)
  have hordered : (labelled [.string "a"]).Ordered := ordered_labelled (by simp [Value.Ordered])
  have hvalid : validator.isValid (labelled [.string "a"]) = true :=
    (isValid_labelled_iff compiled hordered).mpr
      (List.forall_mem_singleton.mpr ⟨_, parses_label (by decide)⟩)
  refine ⟨validator, compiled, (appends_keep_valid direct_labels distinct_labels compiled rfl
    hmodifier pushLabel_appends hparsed hordered hvalid rfl).1 ?_⟩
  intro w hw item _
  cases List.mem_singleton.mp hw
  intro values heach
  cases heach

/-- A list of labels is accepted, and pushed as one label. -/
theorem labels_nested : (Node.object labels none).lint = .ok () ∧
    Node.Every Node.Direct (.object labels none) ∧
    Node.Every Node.Distinct (.object labels none) ∧
    (∀ w ∈ writesOf (.object (pushLabel (.array [.string "b"]))),
      ∃ item, w.AppendsTo ⟨labels, none⟩ item) ∧
    parse ⟨labels, none⟩ (.object (pushLabel (.array [.string "b"]))) false .detached =
      .ok (pushLabel (.array [.string "b"])) ∧
    Apply.modifier (labelled [.string "a"]) (.object (pushLabel (.array [.string "b"]))) false =
      .done (labelled [.string "a", .array [.string "b"]]) ∧
    ∃ validator, (Node.object labels none).compile = .ok validator ∧
      validator.isValid (labelled [.string "a"]) = true ∧
      validator.isValid (labelled [.string "a", .array [.string "b"]]) = false := by
  obtain ⟨validator, compiled⟩ := compile_labels
  refine ⟨rfl, direct_labels, distinct_labels, pushLabel_appends, ?_, rfl, validator, compiled,
    ?_, ?_⟩
  · refine parse_pushLabel ?_
    refine Node.parses_union_iff.mpr ⟨[], _, _, rfl, List.forall_mem_nil _, ?_⟩
    refine Node.parses_array_iff.mpr ⟨_, _, rfl, .cons (parses_label ?_) .nil, rfl⟩
    decide
  · exact (isValid_labelled_iff compiled (ordered_labelled (by simp [Value.Ordered]))).mpr
      (List.forall_mem_singleton.mpr ⟨_, parses_label (by decide)⟩)
  · have hordered : (labelled [.string "a", .array [.string "b"]]).Ordered :=
      ordered_labelled (by simp [Value.Ordered, Value.OrderedItems])
    rw [← Bool.not_eq_true, isValid_labelled_iff compiled hordered]
    intro h
    obtain ⟨_, hparses⟩ := h (.array [.string "b"]) (by simp)
    obtain ⟨_, heq, -⟩ := Node.parses_string_iff.mp hparses
    cases heq

end Modifier

end DocSchema

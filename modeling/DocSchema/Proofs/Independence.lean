-- SUMMARY: Two entries of a modifier whose paths do not lead to each other can be applied in either order.
import DocSchema.Proofs.Agreement
import DocSchema.Proofs.Patches

/-!
# Independent entries

An entry of a modifier looks at the value at its own path and at nothing else, and then
comes to a few patches: the plan of the write. A write at paths apart from these leaves
that value alone, so that the plan is the same before and after it, and patches at places
apart from each other commute. So do, therefore, the writes.
-/

namespace DocSchema

/-! ## Documents and paths -/

namespace Value

variable {v doc : Value} {segment : String} {p rest : List String}

/-- The path enters each array of the document by the canonical index of an element. -/
def EntersElements (v : Value) (segments : List String) : Prop :=
  ∀ before segment items, before ++ [segment] <+: segments →
    v.walk? before = some (.array items) →
      DotPath.IsCanonical segment ∧ ∃ i, DotPath.index? segment = some i ∧ i < items.length

theorem ordered_under (ordered : v.Ordered) : (v.under segment).Ordered := by
  have hempty : Value.empty.Ordered := ordered_object_iff.mpr ⟨.nil, List.forall_mem_nil _⟩
  cases v with
  | object fields =>
    rw [under]
    cases h : Entries.get? fields segment with
    | none => exact hempty
    | some child => exact ordered_of_mem_fields ordered (Entries.mem_of_get? h)
  | array items =>
    rw [under]
    cases DotPath.index? segment with
    | none => exact hempty
    | some i =>
      rw [Option.map_some, Option.getD_some, elementOrEmpty]
      split
      · exact hempty
      · exact hempty
      · next h => exact ordered_of_mem ordered (List.mem_of_getElem? h)
  | _ => exact hempty

/-- An array that an edit goes on with stands there already. -/
theorem walk?_of_under_eq_array {items : List Value} (h : v.under segment = .array items) :
    v.walk? [segment] = some (.array items) := by
  cases v with
  | object fields =>
    rw [under] at h
    rw [walk?_object]
    cases hchild : Entries.get? fields segment with
    | none => rw [hchild] at h; cases h
    | some child => rw [hchild] at h; exact congrArg some h
  | array others =>
    rw [under] at h
    rw [walk?_array]
    cases hi : DotPath.index? segment with
    | none => rw [hi] at h; cases h
    | some i =>
      rw [hi, Option.map_some, Option.getD_some, elementOrEmpty] at h
      rw [Option.bind_some]
      split at h
      · cases h
      · cases h
      · next hget => rw [hget, h]
  | _ => cases h

theorem EntersElements.nil : v.EntersElements [] := by
  intro before last items hprefix
  have hnil := List.append_eq_nil_iff.mp (List.prefix_nil.mp hprefix)
  exact (List.cons_ne_nil _ _ hnil.2).elim

theorem EntersElements.cons
    (head : ∀ items, v = .array items →
      DotPath.IsCanonical segment ∧ ∃ i, DotPath.index? segment = some i ∧ i < items.length)
    (tail : ∀ child, v.walk? [segment] = some child → child.EntersElements rest) :
    v.EntersElements (segment :: rest) := by
  intro before last items hprefix hitems
  cases before with
  | nil =>
    cases (List.cons_prefix_cons.mp hprefix).1
    exact head items (Option.some.inj hitems)
  | cons first before =>
    rw [List.cons_append, List.cons_prefix_cons] at hprefix
    obtain ⟨rfl, hprefix⟩ := hprefix
    rw [walk?_cons] at hitems
    obtain ⟨child, hchild, hitems⟩ := Option.bind_eq_some_iff.mp hitems
    exact tail child hchild before last items hprefix hitems

theorem EntersElements.under (h : v.EntersElements (segment :: rest)) :
    (v.under segment).EntersElements rest := by
  intro before last items hprefix hitems
  refine h (segment :: before) last items (List.cons_prefix_cons.mpr ⟨rfl, hprefix⟩) ?_
  by_cases hbefore : before = []
  · subst hbefore
    exact walk?_of_under_eq_array (Option.some.inj hitems)
  · rw [walk?_under hbefore, hitems]

/-- A path fits a document in key order if it enters arrays by indices of elements. -/
theorem fits_of_ordered (ordered : v.Ordered) (h : v.EntersElements p) : Fits p v := by
  induction p generalizing v with
  | nil => trivial
  | cons segment rest ih =>
    refine ⟨?_, ih (ordered_under ordered) h.under⟩
    cases v with
    | object fields => exact (ordered_object_iff.mp ordered).1
    | array items => exact h [] segment items (List.prefix_append [segment] rest) rfl
    | _ => trivial

end Value

namespace Edited

theorem toOption_result {e : Edited} {doc : Value} :
    e.result.toOption = some doc ↔ e = .done doc := by
  rw [Outcome.toOption_eq_some, result_eq_ok_iff]

theorem toOption_result_andThen (e : Edited) (next : Value → Edited) :
    (e.andThen next).result.toOption =
      e.result.toOption.bind fun doc => (next doc).result.toOption := by
  obtain ⟨doc, fault⟩ := e
  cases fault <;> rfl

theorem fault_of_toOption {e : Edited} (h : e.result.toOption = none) : e.fault.isSome = true := by
  obtain ⟨doc, fault⟩ := e
  cases fault with
  | none => cases h
  | some fault => rfl

end Edited

namespace Apply

variable {inserting : Bool} {path : String} {doc v : Value} {current : Option Value}
  {change : List Value → List Value} {operand : Value} {w : Write} {patches : List Patch}

/-! ## Plans -/

/-- The patch that puts content at a path, if the path can be edited. -/
def placing (path : String) (content : Option Value) : Option (List Patch) :=
  (DotPath.editable path).toOption.map fun parts => [⟨parts, content⟩]

/-- The patches that change the array at a path. -/
def changing (path : String) (change : List Value → List Value) :
    Option Value → Option (List Patch)
  | none => placing path (some (.array (change [])))
  | some (.array items) => placing path (some (.array (change items)))
  | some _ => none

/-- The patches that move what stands at a path to another one. -/
def moving (path target : String) (current : Option Value) : Option (List Patch) :=
  (DotPath.editable path).toOption.bind fun parts =>
    match current with
    | none => some []
    | some moved => (DotPath.editable target).toOption.map fun targetParts =>
      [⟨parts, none⟩, ⟨targetParts, some moved⟩]

/-- The patches that a write comes to, by the value at its path; `none` if it fails. -/
def plan (inserting : Bool) (w : Write) (current : Option Value) : Option (List Patch) :=
  match w.operator with
  | "$set" => placing w.path (some w.operand)
  | "$setOnInsert" => if inserting then placing w.path (some w.operand) else some []
  | "$unset" => (placing w.path none).map fun patches => if current.isSome then patches else []
  | "$inc" =>
    (arithmetic .add current w.operand w.path).toOption.bind fun v => placing w.path (some v)
  | "$mul" =>
    (arithmetic .multiply current w.operand w.path).toOption.bind fun v => placing w.path (some v)
  | "$min" => if current.all fun v => w.operand.compare? v == some .lt then
      placing w.path (some w.operand) else some []
  | "$max" => if current.all fun v => w.operand.compare? v == some .gt then
      placing w.path (some w.operand) else some []
  | "$push" => (Append.ofOperand w.operand w.path).toOption.bind fun a =>
      changing w.path (a.onto false) current
  | "$addToSet" => (Append.ofOperand w.operand w.path).toOption.bind fun a =>
      changing w.path (a.onto true) current
  | "$pull" => if current.isNone then some [] else
      changing w.path (fun items => items.filter fun item => !isPulled w.operand item) current
  | "$rename" => w.operand.string?.bind fun target => moving w.path target current
  | _ => none

/-! ## What writes come to -/

theorem run_placing (content : Option Value) :
    ((placing path content).bind fun patches => Patch.runAll patches doc) =
      (DotPath.editable path).toOption.bind fun parts => Value.put content parts doc := by
  rw [placing]
  cases DotPath.editable path with
  | error => rfl
  | ok parts => exact Option.bind_fun_some _

section Fits

variable (fits : doc.Fits (DotPath.segments path))

include fits

theorem result_setPath : (doc.setPath path v).result.toOption =
    (placing path (some v)).bind fun patches => Patch.runAll patches doc := by
  rw [run_placing]
  unfold Value.setPath
  cases hparts : DotPath.editable path with
  | error => rfl
  | ok parts =>
    cases DotPath.eq_segments_of_editable hparts
    refine Option.ext fun next => ?_
    dsimp only
    rw [Edited.toOption_result]
    change _ ↔ Value.put _ _ _ = some next
    rw [Value.put, Option.join_eq_some_iff, Value.putAt_eq_some_iff path fits]
    simp

theorem result_changeArray : (doc.changeArray path change).result.toOption =
    (changing path change (doc.lookup? path)).bind fun patches => Patch.runAll patches doc := by
  cases hparts : DotPath.editable path with
  | error fault =>
    rw [Value.changeArray_of_not_editable hparts]
    have hplacing (content : Option Value) : placing path content = none := by
      rw [placing, hparts]
      rfl
    cases doc.lookup? path with
    | none => rw [changing, hplacing]; rfl
    | some old =>
      cases old with
      | array => rw [changing, hplacing]; rfl
      | _ => rfl
  | ok parts =>
    cases hcurrent : doc.lookup? path with
    | none =>
      rw [Value.changeArray_eq_setPath hparts (.inr ⟨hcurrent, rfl⟩), result_setPath fits]
      rfl
    | some old =>
      cases old with
      | array items =>
        rw [Value.changeArray_eq_setPath hparts (.inl hcurrent), result_setPath fits]
        rfl
      | _ =>
        obtain ⟨fault, hfault⟩ := Value.changeArray_of_other hcurrent rfl
        rw [hfault]
        rfl

theorem result_bound (operand : Value) (wanted : Ordering) :
    (bound doc path operand wanted).result.toOption =
      (if (doc.lookup? path).all fun v => operand.compare? v == some wanted then
        placing path (some operand) else some []).bind fun patches => Patch.runAll patches doc := by
  have hbound : bound doc path operand wanted =
      if (doc.lookup? path).all fun v => operand.compare? v == some wanted then
        doc.setPath path operand else .done doc := by
    unfold bound
    cases doc.lookup? path <;> rfl
  rw [hbound]
  split
  · exact result_setPath fits
  · rfl

theorem result_calculate (op : Arithmetic) (operand : Value) :
    (calculate op doc path operand).result.toOption =
      ((arithmetic op (doc.lookup? path) operand path).toOption.bind fun v =>
        placing path (some v)).bind fun patches => Patch.runAll patches doc := by
  unfold calculate
  cases arithmetic op (doc.lookup? path) operand path with
  | error => rfl
  | ok v => exact result_setPath fits

theorem result_append (operand : Value) (unique : Bool) :
    (append doc path operand unique).result.toOption =
      ((Append.ofOperand operand path).toOption.bind fun a =>
        changing path (a.onto unique) (doc.lookup? path)).bind fun patches =>
          Patch.runAll patches doc := by
  unfold append
  cases Append.ofOperand operand path with
  | error => rfl
  | ok a => exact result_changeArray fits

theorem result_pull (operand : Value) :
    (pull doc path operand).result.toOption =
      (if (doc.lookup? path).isNone then some [] else
        changing path (fun items => items.filter fun item => !isPulled operand item)
          (doc.lookup? path)).bind fun patches => Patch.runAll patches doc := by
  unfold pull
  split
  · rfl
  · exact result_changeArray fits

end Fits

theorem segments_ne_nil (path : String) : DotPath.segments path ≠ [] := by
  obtain ⟨rest, hsegments⟩ := DotPath.segments_eq_cons path
  rw [hsegments]
  exact List.cons_ne_nil _ _

theorem removePath_of_editable {parts : List String} (edited : DotPath.editable path = .ok parts) :
    doc.removePath path = .ok ((doc.lookup? path).bind fun removed =>
      (Value.put none parts doc).map fun left => (removed, left)) := by
  cases DotPath.eq_segments_of_editable edited
  unfold Value.removePath
  rw [edited]
  exact congrArg Except.ok (Value.removeAt_eq (segments_ne_nil path))

/-- What stands at a path can be removed. -/
theorem removePath_of_some {parts : List String} (edited : DotPath.editable path = .ok parts)
    (h : doc.lookup? path = some v) :
    ∃ left, Value.put none parts doc = some left ∧ doc.removePath path = .ok (some (v, left)) := by
  obtain ⟨left, hleft⟩ : ∃ left, Value.put none parts doc = some left := by
    rw [DotPath.eq_segments_of_editable edited]
    exact Value.exists_put_of_walk? h (segments_ne_nil path)
  refine ⟨left, hleft, ?_⟩
  rw [removePath_of_editable edited, h, Option.bind_some, hleft]
  rfl

theorem result_unset : (unset doc path).result.toOption =
    ((placing path none).map fun patches =>
      if (doc.lookup? path).isSome then patches else []).bind fun patches =>
        Patch.runAll patches doc := by
  unfold unset placing
  cases hparts : DotPath.editable path with
  | error fault =>
    unfold Value.removePath
    rw [hparts]
    rfl
  | ok parts =>
    cases hcurrent : doc.lookup? path with
    | none =>
      rw [removePath_of_editable hparts, hcurrent]
      rfl
    | some removed =>
      obtain ⟨left, hleft, hremove⟩ := removePath_of_some hparts hcurrent
      rw [hremove]
      exact (congrArg (Option.bind · some) hleft).symm

/-- A target is fitted by what is left when something has been removed. -/
theorem result_rename (fits : ∀ p ∈ (Write.mk "$rename" path operand).paths,
      doc.Fits (DotPath.segments p)) : (rename doc path operand).result.toOption =
    (operand.string?.bind fun target => moving path target (doc.lookup? path)).bind fun patches =>
      Patch.runAll patches doc := by
  cases operand with
  | string target =>
    rw [Value.string?, Option.bind_some]
    unfold rename moving
    dsimp only
    cases hparts : DotPath.editable path with
    | error fault =>
      unfold Value.removePath
      rw [hparts]
      rfl
    | ok parts =>
      cases hcurrent : doc.lookup? path with
      | none =>
        rw [removePath_of_editable hparts, hcurrent]
        rfl
      | some moved =>
        obtain ⟨left, hleft, hremove⟩ := removePath_of_some hparts hcurrent
        have hfits : left.Fits (DotPath.segments target) := by
          refine (fits target (by simp [Write.paths, Value.string?])).putAt ?_ (fun _ => rfl)
            (Value.putAt_of_put hleft)
          rw [DotPath.eq_segments_of_editable hparts]
          exact fits path List.mem_cons_self
        rw [hremove]
        dsimp only
        rw [result_setPath hfits, run_placing]
        cases DotPath.editable target with
        | error => rfl
        | ok targetParts =>
          change _ = (Value.put none parts doc).bind _
          rw [hleft]
          exact (Option.bind_fun_some _).symm
  | _ => rfl

/-- A write comes to its plan for the value at its path. -/
theorem result_apply (fits : ∀ p ∈ w.paths, doc.Fits (DotPath.segments p)) :
    (w.apply inserting doc).result.toOption =
      (plan inserting w (doc.lookup? w.path)).bind fun patches => Patch.runAll patches doc := by
  obtain ⟨operator, path, operand⟩ := w
  have hpath : doc.Fits (DotPath.segments path) := fits path List.mem_cons_self
  unfold Write.apply plan
  dsimp only
  split
  · exact result_setPath hpath
  · cases inserting with
    | true => exact result_setPath hpath
    | false => rfl
  · exact result_unset
  · exact result_calculate hpath .add operand
  · exact result_calculate hpath .multiply operand
  · exact result_bound hpath operand .lt
  · exact result_bound hpath operand .gt
  · exact result_append hpath operand false
  · exact result_append hpath operand true
  · exact result_pull hpath operand
  · exact result_rename fits
  · unfold entry
    split
    any_goals contradiction
    rfl

/-! ## The patches of a plan -/

theorem placing_eq_some {content : Option Value} (h : placing path content = some patches) :
    patches = [⟨DotPath.segments path, content⟩] := by
  obtain ⟨parts, hparts, rfl⟩ := Option.map_eq_some_iff.mp h
  rw [DotPath.eq_segments_of_editable (Outcome.toOption_eq_some.mp hparts)]

theorem changing_eq_some (h : changing path change current = some patches) :
    ∃ content, patches = [⟨DotPath.segments path, content⟩] := by
  unfold changing at h
  split at h
  · exact ⟨_, placing_eq_some h⟩
  · exact ⟨_, placing_eq_some h⟩
  · cases h

theorem moving_eq_some {target : String} (h : moving path target current = some patches) :
    patches = [] ∨ ∃ content, patches =
      [⟨DotPath.segments path, none⟩, ⟨DotPath.segments target, content⟩] := by
  obtain ⟨parts, hparts, h⟩ := Option.bind_eq_some_iff.mp h
  rw [DotPath.eq_segments_of_editable (Outcome.toOption_eq_some.mp hparts)] at h
  split at h
  · exact .inl (Option.some.inj h).symm
  · obtain ⟨targetParts, htarget, rfl⟩ := Option.map_eq_some_iff.mp h
    rw [DotPath.eq_segments_of_editable (Outcome.toOption_eq_some.mp htarget)]
    exact .inr ⟨_, rfl⟩

/-- A write makes at most one patch at its path, or removes what stands there and puts it at
its target. -/
theorem plan_eq_some (h : plan inserting w current = some patches) :
    patches = [] ∨ (∃ content, patches = [⟨DotPath.segments w.path, content⟩]) ∨
      ∃ target ∈ w.paths, ∃ content, patches =
        [⟨DotPath.segments w.path, none⟩, ⟨DotPath.segments target, content⟩] := by
  obtain ⟨operator, path, operand⟩ := w
  have hnone (h : some [] = some patches) : patches = [] := (Option.some.inj h).symm
  have hplacing {content : Option Value} (h : placing path content = some patches) :
      ∃ content, patches = [⟨DotPath.segments path, content⟩] := ⟨_, placing_eq_some h⟩
  unfold plan at h
  dsimp only at h
  split at h
  · exact .inr (.inl (hplacing h))
  · split at h
    · exact .inr (.inl (hplacing h))
    · exact .inl (hnone h)
  · obtain ⟨ps, hps, rfl⟩ := Option.map_eq_some_iff.mp h
    split
    · exact .inr (.inl ⟨_, placing_eq_some hps⟩)
    · exact .inl rfl
  · obtain ⟨v, -, h⟩ := Option.bind_eq_some_iff.mp h
    exact .inr (.inl (hplacing h))
  · obtain ⟨v, -, h⟩ := Option.bind_eq_some_iff.mp h
    exact .inr (.inl (hplacing h))
  · split at h
    · exact .inr (.inl (hplacing h))
    · exact .inl (hnone h)
  · split at h
    · exact .inr (.inl (hplacing h))
    · exact .inl (hnone h)
  · obtain ⟨a, -, h⟩ := Option.bind_eq_some_iff.mp h
    exact .inr (.inl (changing_eq_some h))
  · obtain ⟨a, -, h⟩ := Option.bind_eq_some_iff.mp h
    exact .inr (.inl (changing_eq_some h))
  · split at h
    · exact .inl (hnone h)
    · exact .inr (.inl (changing_eq_some h))
  · obtain ⟨target, htarget, h⟩ := Option.bind_eq_some_iff.mp h
    refine (moving_eq_some h).imp_right fun hmoved => .inr ⟨target, ?_, hmoved⟩
    simp [Write.paths, htarget]
  · cases h

theorem exists_path_of_plan (h : plan inserting w current = some patches) {p : Patch}
    (hp : p ∈ patches) : ∃ path ∈ w.paths, p.path = DotPath.segments path := by
  have hown : w.path ∈ w.paths := List.mem_cons_self
  rcases plan_eq_some h with rfl | ⟨_, rfl⟩ | ⟨target, htarget, _, rfl⟩
  · cases hp
  · cases List.mem_singleton.mp hp
    exact ⟨_, hown, rfl⟩
  · rcases List.mem_pair.mp hp with rfl | rfl
    · exact ⟨_, hown, rfl⟩
    · exact ⟨_, htarget, rfl⟩

theorem allFit_of_plan (h : plan inserting w current = some patches)
    (fits : ∀ p ∈ w.paths, doc.Fits (DotPath.segments p)) : Patch.AllFit patches doc := by
  have hown := fits w.path List.mem_cons_self
  rcases plan_eq_some h with rfl | ⟨_, rfl⟩ | ⟨target, htarget, _, rfl⟩
  · trivial
  · exact ⟨hown, fun _ _ => trivial⟩
  · exact ⟨hown, fun next hnext =>
      ⟨Patch.fits_of_run (fits target htarget) hown (fun _ => rfl) hnext, fun _ _ => trivial⟩⟩

/-! ## Two writes -/

section Two

variable {a b : Write} (ha : ∀ p ∈ a.paths, doc.Fits (DotPath.segments p))
  (hb : ∀ p ∈ b.paths, doc.Fits (DotPath.segments p))
  (apart : ∀ p ∈ a.paths, ∀ q ∈ b.paths, DotPath.Apart p q)

include ha hb apart

/-- Behind a write apart from it, a write goes by the plan that it has in front of it. -/
theorem result_apply_apply :
    ((a.apply inserting doc).andThen (b.apply inserting)).result.toOption =
      (plan inserting a (doc.lookup? a.path)).bind fun ps =>
        (plan inserting b (doc.lookup? b.path)).bind fun qs =>
          (Patch.runAll ps doc).bind (Patch.runAll qs) := by
  rw [Edited.toOption_result_andThen, result_apply ha, Option.bind_assoc]
  refine Option.bind_congr fun ps hps => ?_
  have hrun (mid : Value) (hmid : Patch.runAll ps doc = some mid) {q : String} (hq : q ∈ b.paths) :
      mid.Fits (DotPath.segments q) ∧ mid.lookup? q = doc.lookup? q := by
    refine Patch.walk?_of_runAll (allFit_of_plan hps ha) (hb q hq) (fun p hp => ?_) hmid
    obtain ⟨path, hpath, heq⟩ := exists_path_of_plan hps hp
    rw [heq]
    exact apart path hpath q hq
  have hsame : ∀ mid, Patch.runAll ps doc = some mid → (b.apply inserting mid).result.toOption =
      (plan inserting b (doc.lookup? b.path)).bind fun qs => Patch.runAll qs mid := by
    intro mid hmid
    rw [result_apply fun q hq => (hrun mid hmid hq).1, (hrun mid hmid List.mem_cons_self).2]
  rw [Option.bind_congr hsame, Option.bind_comm]

theorem apply_comm : ((a.apply inserting doc).andThen (b.apply inserting)).result.toOption =
    ((b.apply inserting doc).andThen (a.apply inserting)).result.toOption := by
  rw [result_apply_apply ha hb apart,
    result_apply_apply hb ha fun q hq p hp => (apart p hp q hq).symm, Option.bind_comm]
  refine Option.bind_congr fun qs hqs => Option.bind_congr fun ps hps => ?_
  refine Patch.runAll_comm (allFit_of_plan hps ha) (allFit_of_plan hqs hb) fun p hp q hq => ?_
  obtain ⟨path, hpath, heq⟩ := exists_path_of_plan hps hp
  obtain ⟨path', hpath', heq'⟩ := exists_path_of_plan hqs hq
  unfold Patch.Apart
  rw [heq, heq']
  exact apart path hpath path' hpath'

end Two

/-- Two entries of which no path leads to a path of the other one, and whose paths enter the
arrays of the document by indices of elements, end in the same document in either order, or
in a fault in both. -/
theorem independent_entries_commute {a b : Write} (ordered : doc.Ordered)
    (apart : ∀ p ∈ a.paths, ∀ q ∈ b.paths, DotPath.Apart p q)
    (enters : ∀ p ∈ a.paths ++ b.paths, doc.EntersElements (DotPath.segments p)) :
    (∃ after, (a.apply inserting doc).andThen (b.apply inserting) = .done after ∧
      (b.apply inserting doc).andThen (a.apply inserting) = .done after) ∨
    ((a.apply inserting doc).andThen (b.apply inserting)).fault.isSome = true ∧
      ((b.apply inserting doc).andThen (a.apply inserting)).fault.isSome = true := by
  obtain ⟨ha, hb⟩ := List.forall_mem_append.mp enters
  have hcomm : ((a.apply inserting doc).andThen (b.apply inserting)).result.toOption =
      ((b.apply inserting doc).andThen (a.apply inserting)).result.toOption :=
    apply_comm (fun p hp => Value.fits_of_ordered ordered (ha p hp))
      (fun q hq => Value.fits_of_ordered ordered (hb q hq)) apart
  cases hafter : ((a.apply inserting doc).andThen (b.apply inserting)).result.toOption with
  | some after =>
    exact .inl ⟨after, Edited.toOption_result.mp hafter, Edited.toOption_result.mp (hcomm ▸ hafter)⟩
  | none =>
    exact .inr ⟨Edited.fault_of_toOption hafter, Edited.fault_of_toOption (hcomm ▸ hafter)⟩

/-- A journal whose second mark holds nothing. -/
def journal : Value :=
  .object [("marks", .array [.number (.int 1), .null]), ("old", .string "Ada")]

/-- The move of a name into an object that it makes. -/
def nameMoved : Write := ⟨"$rename", "old", .string "new.name"⟩

/-- A mark in an object that takes the place of nothing. -/
def secondMarked : Write := ⟨"$push", "marks.1.seen", .number (.int 2)⟩

theorem journal_ordered : journal.Ordered := by
  refine Value.ordered_object_iff.mpr ⟨List.pairwise_pair.mpr (by decide), ?_⟩
  simp [Value.Ordered, Value.OrderedItems]

theorem journal_enters : ∀ p ∈ nameMoved.paths ++ secondMarked.paths,
    journal.EntersElements (DotPath.segments p) := by
  have hsegments : (nameMoved.paths ++ secondMarked.paths).map DotPath.segments =
      [["old"], ["new", "name"], ["marks", "1", "seen"]] := by decide
  have hindex : DotPath.IsCanonical "1" ∧ DotPath.index? "1" = some 1 := by decide
  rw [← List.forall_mem_map, hsegments]
  refine List.forall_mem_cons.mpr ⟨?old, List.forall_mem_cons.mpr ⟨?name,
    List.forall_mem_singleton.mpr ?seen⟩⟩
  case old => exact .cons nofun fun _ _ => .nil
  case name => exact .cons nofun fun _ hchild => nomatch hchild
  case seen =>
    refine .cons nofun fun marks hmarks => ?_
    cases hmarks
    refine .cons (fun items hitems => ?_) fun mark hmark => ?_
    · cases hitems
      exact ⟨hindex.1, 1, hindex.2, by decide⟩
    · rw [Value.walk?_array, hindex.2] at hmark
      cases hmark
      exact .cons nofun fun _ _ => .nil

/-- Both orders make the two objects. -/
theorem journal_moved_and_marked : ∃ after,
    (nameMoved.apply false journal).andThen (secondMarked.apply false) = .done after ∧
      (secondMarked.apply false journal).andThen (nameMoved.apply false) = .done after := by
  refine (independent_entries_commute journal_ordered (by decide) journal_enters).resolve_right ?_
  rintro ⟨hfault, -⟩
  cases hfault

end Apply

end DocSchema

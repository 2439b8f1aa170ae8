-- SUMMARY: Properties of all nodes of a tree, and what merging keeps of them.
import DocSchema.Proofs.Entries
import DocSchema.Proofs.Merge
import DocSchema.Schema.Parse

/-!
# Properties of trees

`Every P n` says that `P` holds of a node and of all nodes below it. A merged
node is made of parts of the two trees and of wrappers around merged parts, so a
property that the few merged constructors keep holds of it everywhere as well.
-/

namespace DocSchema

namespace Node

/-! ## Induction -/

/-- Induction along what a schema is read as: an intersection goes on with the
merged node, every other node with the nodes below it. -/
@[elab_as_elim]
theorem inductionOn {motive : Node → Prop} (n : Node)
    (object : ∀ fields catchall, (∀ f ∈ fields, motive f.2) →
      (∀ rest, catchall = some rest → motive rest) → motive (.object fields catchall))
    (array : ∀ item, motive item → motive (.array item))
    (tuple : ∀ items, (∀ item ∈ items, motive item) → motive (.tuple items))
    (union : ∀ options, (∀ option ∈ options, motive option) → motive (.union options))
    (discriminated : ∀ key options, (∀ option ∈ options, motive option) →
      motive (.discriminated key options))
    (intersection : ∀ left right, (∀ merged, Merges left right merged → motive merged) →
      motive (.intersection left right))
    (record : ∀ value, motive value → motive (.record value))
    (optional : ∀ inner, motive inner → motive (.optional inner))
    (nullable : ∀ inner, motive inner → motive (.nullable inner))
    (withDefault : ∀ inner default, motive inner → motive (.withDefault inner default))
    (transform : ∀ inner facet apply, motive inner → motive (.transform inner facet apply))
    (enum : ∀ values, motive (.enum values))
    (literal : ∀ v, motive (.literal v))
    (string : ∀ checks allowEmpty, motive (.string checks allowEmpty))
    (number : ∀ checks, motive (.number checks))
    (boolean : motive .boolean)
    (date : motive .date)
    (null : motive .null)
    (any : motive .any)
    (never : motive .never) : motive n := by
  refine Node.parser.induct motive ?_ array tuple union discriminated ?_ record optional nullable
    withDefault transform enum literal string number boolean date null any never n
  · intro fields catchall hfields hcatchall
    refine object fields catchall hfields ?_
    intro rest hrest
    subst hrest
    exact hcatchall
  · intro left right ih
    exact intersection left right fun merged hm => ih .root merged (intersect_eq_ok_iff.mpr hm)

/-! ## Nodes below a node -/

/-- The nodes directly below a node. -/
def children : Node → List Node
  | .object fields catchall => fields.map Prod.snd ++ catchall.toList
  | .array n | .record n | .optional n | .nullable n | .withDefault n _ | .transform n _ _ => [n]
  | .tuple ns | .union ns | .discriminated _ ns => ns
  | .intersection l r => [l, r]
  | _ => []

theorem height_lt_of_child {n child : Node} (h : child ∈ n.children) : child.height < n.height := by
  cases n with
  | object fields catchall =>
    rw [height]
    rcases List.mem_append.mp h with h | h
    · obtain ⟨f, hf, rfl⟩ := List.mem_map.mp h
      have := height_le_fieldsHeight hf
      omega
    · cases Option.mem_toList.mp h
      simp only [catchallHeight]
      omega
  | tuple ns | union ns | discriminated _ ns =>
    have hle : child.height ≤ listHeight ns := height_le_listHeight h
    rw [height]
    omega
  | intersection left right =>
    rw [height]
    rcases List.mem_cons.mp h with rfl | h
    · omega
    · cases List.mem_singleton.mp h
      omega
  | array | record | optional | nullable | withDefault | transform =>
    cases List.mem_singleton.mp h
    rw [height]
    omega
  | _ => cases h

/-- A property that a node has wherever the nodes below it do. -/
theorem of_children {motive : Node → Prop}
    (step : ∀ n, (∀ child ∈ n.children, motive child) → motive n) (n : Node) : motive n :=
  step n fun child _ => of_children step child
termination_by n.height
decreasing_by exact height_lt_of_child ‹_›

/-- A property of a node and of all nodes below it. -/
inductive Every (P : Node → Prop) : Node → Prop where
  | intro {n : Node} : P n → (∀ child ∈ n.children, Every P child) → Every P n

namespace Every

variable {P : Node → Prop}

theorem of_leaf {n : Node} (h : P n) (hc : n.children = []) : Every P n :=
  .intro h (by rw [hc]; exact List.forall_mem_nil _)

theorem of_inner {n inner : Node} (h : P n) (hc : n.children = [inner]) (hinner : Every P inner) :
    Every P n :=
  .intro h (by rw [hc]; exact List.forall_mem_singleton.mpr hinner)

theorem of_object {fields : List (String × Node)} {catchall : Option Node}
    (h : P (.object fields catchall)) (hfields : ∀ f ∈ fields, Every P f.2)
    (hcatchall : ∀ rest, catchall = some rest → Every P rest) :
    Every P (.object fields catchall) := by
  refine .intro h fun child hc => ?_
  rcases List.mem_append.mp hc with hc | hc
  · obtain ⟨f, hf, rfl⟩ := List.mem_map.mp hc
    exact hfields f hf
  · exact hcatchall child (Option.mem_toList.mp hc)

theorem here {n : Node} (h : Every P n) : P n := by
  cases h with
  | intro here _ => exact here

theorem imp {Q : Node → Prop} {n : Node} (h : Every P n) (himp : ∀ n, P n → Q n) : Every Q n := by
  induction h with
  | intro here _ ih => exact .intro (himp _ here) ih

theorem and {Q : Node → Prop} {n : Node} (hP : Every P n) (hQ : Every Q n) :
    Every (fun n => P n ∧ Q n) n := by
  induction hP with
  | intro here _ ih =>
    cases hQ with
    | intro here' below' => exact .intro ⟨here, here'⟩ fun c hc => ih c hc (below' c hc)

theorem child {n child : Node} (h : Every P n) (hc : child ∈ n.children) : Every P child := by
  cases h with
  | intro _ below => exact below child hc

theorem inner {n inner : Node} (h : Every P n) (hc : n.children = [inner]) : Every P inner :=
  h.child (by rw [hc]; exact List.mem_singleton.mpr rfl)

theorem field {fields : List (String × Node)} {catchall : Option Node} {f : String × Node}
    (h : Every P (.object fields catchall)) (hf : f ∈ fields) : Every P f.2 :=
  h.child (List.mem_append_left _ (List.mem_map.mpr ⟨f, hf, rfl⟩))

theorem catchall {fields : List (String × Node)} {rest : Node}
    (h : Every P (.object fields (some rest))) : Every P rest :=
  h.child (List.mem_append_right _ (List.mem_singleton.mpr rfl))

theorem of_lookup {fields : List (String × Node)} {catchall : Option Node} {name : String}
    {n : Node} (h : Every P (.object fields catchall)) (hn : lookup fields name = some n) :
    Every P n :=
  h.field (Entries.mem_of_get? hn)

theorem left {l r : Node} (h : Every P (.intersection l r)) : Every P l :=
  h.child List.mem_cons_self

theorem right {l r : Node} (h : Every P (.intersection l r)) : Every P r :=
  h.child (List.mem_cons_of_mem _ List.mem_cons_self)

end Every

/-! ## Properties of merged nodes -/

/-- The kinds of nodes, besides objects and nullable nodes, that merging makes anew. -/
def isMade : Node → Bool
  | .optional _ | .string .. | .number _ | .enum _ | .array _ | .tuple _ | .record _ => true
  | _ => false

/-- The nodes among them that merging makes around merged nodes, and numbers. -/
def isRebuilt : Node → Bool
  | .optional _ | .number _ | .array _ | .tuple _ | .record _ => true
  | _ => false

/-- A property that merged nodes have if the nodes that they are merged from have it. -/
structure MergeClosed (P : Node → Prop) : Prop where
  rebuilt : ∀ n : Node, n.isRebuilt = true → P n
  string : ∀ (cs ds : List StringCheck) (e f : Bool),
    P (.string cs e) → P (.string ds f) → P (.string (cs ++ ds) (e && f))
  enum : ∀ vs ws : List String,
    P (.enum vs) → P (.enum ws) → P (.enum (vs.filter fun v => ws.contains v))
  nullable : ∀ a b m : Node, Merges a b m → P (.nullable a) → P (.nullable b) → P (.nullable m)
  object : ∀ (shared : List FieldMerge) (gs : List (String × Node)) (c d : Option Node) (m : Node),
    P (.object (shared.map FieldMerge.first) c) → P (.object gs d) →
      P (.object (shared.map FieldMerge.result ++ ownFields (shared.map FieldMerge.first) gs)
        (ifBoth c d m))

/-- A property that is kept where merging makes a node. -/
structure KeptByMerging (P : Node → Prop) : Prop where
  made : ∀ n : Node, n.isMade = true → P n
  nullable : ∀ a b m : Node, Merges a b m → P (.nullable a) → P (.nullable b) → P (.nullable m)
  object : ∀ (shared : List FieldMerge) (gs : List (String × Node)) (c d : Option Node) (m : Node),
    P (.object (shared.map FieldMerge.first) c) → P (.object gs d) →
      P (.object (shared.map FieldMerge.result ++ ownFields (shared.map FieldMerge.first) gs)
        (ifBoth c d m))

theorem KeptByMerging.closed {P : Node → Prop} (h : KeptByMerging P) : MergeClosed P where
  rebuilt n hn := by
    refine h.made n ?_
    cases n with
    | optional | number | array | tuple | record => rfl
    | _ => cases hn
  string _ _ _ _ _ _ := h.made _ rfl
  enum _ _ _ _ := h.made _ rfl
  nullable := h.nullable
  object := h.object

theorem KeptByMerging.and {P Q : Node → Prop} (hP : KeptByMerging P) (hQ : KeptByMerging Q) :
    KeptByMerging fun n => P n ∧ Q n where
  made n hn := ⟨hP.made n hn, hQ.made n hn⟩
  nullable a b m hm ha hb := ⟨hP.nullable a b m hm ha.1 hb.1, hQ.nullable a b m hm ha.2 hb.2⟩
  object shared gs c d m hl hr :=
    ⟨hP.object shared gs c d m hl.1 hr.1, hQ.object shared gs c d m hl.2 hr.2⟩

theorem children_of_merged_object {shared : List FieldMerge} {gs : List (String × Node)}
    {c d : Option Node} {m child : Node}
    (h : child ∈ (object (shared.map FieldMerge.result ++ ownFields (shared.map FieldMerge.first) gs)
      (ifBoth c d m)).children) :
    (∃ f ∈ shared, child = f.merged) ∨ (∃ g ∈ gs, child = g.2) ∨
      (∃ a b, c = some a ∧ d = some b ∧ child = m) := by
  simp only [children, List.map_append, List.mem_append, List.map_map] at h
  rcases h with (h | h) | h
  · obtain ⟨f, hf, rfl⟩ := List.mem_map.mp h
    exact .inl ⟨f, hf, rfl⟩
  · obtain ⟨g, hg, rfl⟩ := List.mem_map.mp h
    exact .inr (.inl ⟨g, (List.mem_filter.mp hg).1, rfl⟩)
  · cases c with
    | none => simp [ifBoth] at h
    | some a =>
      cases d with
      | none => simp [ifBoth] at h
      | some b => exact .inr (.inr ⟨a, b, rfl, rfl, by simpa [ifBoth] using h⟩)

theorem Merges.every_of_closed {P : Node → Prop} {l r m : Node} (h : Merges l r m)
    (closed : MergeClosed P) (hl : Every P l) (hr : Every P r) : Every P m := by
  induction h with
  | intersectionLeft _ _ ihInner ih =>
    exact ih (ihInner hl.left hl.right) hr
  | intersectionRight _ _ _ ihInner ih =>
    exact ih (ihInner hr.left hr.right) hl
  | anyLeft => exact hr
  | anyRight => exact hl
  | optional _ ih =>
    exact .of_inner (closed.rebuilt _ rfl) rfl (ih (hl.inner rfl) (hr.inner rfl))
  | optionalLeft _ _ ih => exact ih (hl.inner rfl) hr
  | optionalRight _ _ ih => exact ih (hr.inner rfl) hl
  | nullable hm ih =>
    exact .of_inner (closed.nullable _ _ _ hm hl.here hr.here) rfl (ih (hl.inner rfl) (hr.inner rfl))
  | nullableLeft _ _ ih => exact ih (hl.inner rfl) hr
  | nullableRight _ _ ih => exact ih (hr.inner rfl) hl
  | @object gs c d m shared looked _ alone _ ihBoth ihCatchall =>
    refine .intro (closed.object shared gs c d m hl.here hr.here) ?_
    intro child hchild
    rcases children_of_merged_object hchild with ⟨f, hf, rfl⟩ | ⟨g, hg, rfl⟩ | ⟨a, b, rfl, rfl, rfl⟩
    · have hleft : Every P f.left := hl.field (f := f.first) (List.mem_map.mpr ⟨f, hf, rfl⟩)
      cases hright : f.right? with
      | none =>
        rw [alone f hf hright]
        exact hleft
      | some other =>
        have hother := looked f hf
        rw [hright] at hother
        exact ihBoth f hf other hright hleft (hr.of_lookup hother.symm)
    · exact hr.field hg
    · exact ihCatchall a b rfl rfl hl.catchall hr.catchall
  | string => exact .of_leaf (closed.string _ _ _ _ hl.here hr.here) rfl
  | number => exact .of_leaf (closed.rebuilt _ rfl) rfl
  | enum => exact .of_leaf (closed.enum _ _ hl.here hr.here) rfl
  | literal => exact hl
  | array _ ih =>
    exact .of_inner (closed.rebuilt _ rfl) rfl (ih (hl.inner rfl) (hr.inner rfl))
  | tuple parts _ ih =>
    refine .intro (closed.rebuilt _ rfl) ?_
    intro child hchild
    obtain ⟨p, hp, rfl⟩ := List.mem_map.mp hchild
    exact ih p hp (hl.child (List.mem_map.mpr ⟨p, hp, rfl⟩))
      (hr.child (List.mem_map.mpr ⟨p, hp, rfl⟩))
  | record _ ih =>
    exact .of_inner (closed.rebuilt _ rfl) rfl (ih (hl.inner rfl) (hr.inner rfl))
  | boolean => exact hl
  | date => exact hl
  | null => exact hl

theorem Merges.every {P : Node → Prop} {l r m : Node} (h : Merges l r m) (kept : KeptByMerging P)
    (hl : Every P l) (hr : Every P r) : Every P m := h.every_of_closed kept.closed hl hr

/-- What holds in an intersection holds in the node that it merges to. -/
theorem Every.merged {P : Node → Prop} {l r m : Node} (h : Every P (.intersection l r))
    (kept : KeptByMerging P) (hm : Merges l r m) : Every P m := hm.every kept h.left h.right

theorem anyAcceptsAbsent_iff {options : List Node} :
    anyAcceptsAbsent options = true ↔ ∃ option ∈ options, option.acceptsAbsent = true := by
  induction options with
  | nil => simp [anyAcceptsAbsent]
  | cons head rest ih => simp [anyAcceptsAbsent, ih]

/-- A merged node may be absent only where both nodes may. -/
theorem Merges.acceptsAbsent {l r m : Node} (h : Merges l r m) (hm : m.acceptsAbsent = true) :
    l.acceptsAbsent = true ∧ r.acceptsAbsent = true := by
  induction h with
  | intersectionLeft _ _ ihInner ih =>
    obtain ⟨hinner, hother⟩ := ih hm
    obtain ⟨ha, hb⟩ := ihInner hinner
    exact ⟨by simp [Node.acceptsAbsent, ha, hb], hother⟩
  | intersectionRight _ _ _ ihInner ih =>
    obtain ⟨hinner, hother⟩ := ih hm
    obtain ⟨ha, hb⟩ := ihInner hinner
    exact ⟨hother, by simp [Node.acceptsAbsent, ha, hb]⟩
  | anyLeft => exact ⟨by simp [Node.acceptsAbsent], hm⟩
  | anyRight => exact ⟨hm, by simp [Node.acceptsAbsent]⟩
  | optional => exact ⟨by simp [Node.acceptsAbsent], by simp [Node.acceptsAbsent]⟩
  | optionalLeft _ _ ih => exact ⟨by simp [Node.acceptsAbsent], (ih hm).2⟩
  | optionalRight _ _ ih => exact ⟨(ih hm).2, by simp [Node.acceptsAbsent]⟩
  | nullable _ ih =>
    simp only [Node.acceptsAbsent] at hm ⊢
    exact ih hm
  | nullableLeft _ _ ih =>
    simp only [Node.acceptsAbsent]
    exact ih hm
  | nullableRight _ _ ih =>
    simp only [Node.acceptsAbsent]
    exact (ih hm).symm
  | object | string | number | enum | literal | array | tuple | record | boolean | date | null =>
    simp [Node.acceptsAbsent] at hm

/-- Merged objects declare each name once if both objects do. -/
theorem nodup_keys_of_merged {shared : List FieldMerge} {gs : List (String × Node)}
    (hfs : (Entries.keys (shared.map FieldMerge.first)).Nodup) (hgs : (Entries.keys gs).Nodup) :
    (Entries.keys (shared.map FieldMerge.result ++
      ownFields (shared.map FieldMerge.first) gs)).Nodup := by
  have hnames : Entries.keys (shared.map FieldMerge.result) =
      Entries.keys (shared.map FieldMerge.first) := by
    simp [Entries.keys, FieldMerge.result, FieldMerge.first, Function.comp_def]
  unfold Entries.keys at hnames hfs hgs ⊢
  rw [List.map_append, List.nodup_append, hnames]
  refine ⟨hfs, ?_, ?_⟩
  · exact hgs.sublist (List.filter_sublist.map Prod.fst)
  · intro name hname other hother heq
    subst heq
    obtain ⟨g, hg, rfl⟩ := List.mem_map.mp hother
    have habsent := (List.mem_filter.mp hg).2
    rw [Option.isNone_iff_eq_none] at habsent
    exact Entries.get?_eq_none_iff.mp habsent hname

end Node

end DocSchema

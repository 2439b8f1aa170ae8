-- SUMMARY: The calls that merging makes of itself, and how deep they go.
import DocSchema.Proofs.Merge
import Mathlib.Logic.Function.Iterate

/-!
# The calls of merging

Merging calls itself on parts of the two nodes, and for an intersection on its merged
branches, which are no part of anything. `mergeWith self` is one level of merging, with
`self` for the calls that it makes. The calls cannot go on for ever: the merge of an
intersection is lower than the intersection, whatever fields it repeats. So that many
levels are all there is, and what `self` does below them is never asked for.
-/

namespace DocSchema

namespace Node

/-! ## Calls and their depth -/

/-- `MergeCall p q`: merging the nodes of `q` may call for merging the nodes of `p`. -/
inductive MergeCall : Node × Node → Node × Node → Prop where
  | branchesLeft {a b other : Node} : MergeCall (a, b) (.intersection a b, other)
  | branchesRight {a b other : Node} : MergeCall (a, b) (other, .intersection a b)
  | mergedLeft {a b inner other : Node} {location : Location} :
    a.intersect b location = .ok inner → MergeCall (inner, other) (.intersection a b, other)
  | mergedRight {a b inner other : Node} {location : Location} :
    a.intersect b location = .ok inner → MergeCall (inner, other) (other, .intersection a b)
  | optional {a b : Node} : MergeCall (a, b) (.optional a, .optional b)
  | optionalLeft {a other : Node} : MergeCall (a, other) (.optional a, other)
  | optionalRight {b other : Node} : MergeCall (b, other) (other, .optional b)
  | nullable {a b : Node} : MergeCall (a, b) (.nullable a, .nullable b)
  | nullableLeft {a other : Node} : MergeCall (a, other) (.nullable a, other)
  | nullableRight {b other : Node} : MergeCall (b, other) (other, .nullable b)
  | field {fs gs : List (String × Node)} {c d : Option Node} {f : String × Node} {other : Node} :
    f ∈ fs → lookup gs f.1 = some other → MergeCall (f.2, other) (.object fs c, .object gs d)
  | catchall {fs gs : List (String × Node)} {a b : Node} :
    MergeCall (a, b) (.object fs (some a), .object gs (some b))
  | array {a b : Node} : MergeCall (a, b) (.array a, .array b)
  | item {as bs : List Node} {a b : Node} :
    (a, b) ∈ as.zip bs → MergeCall (a, b) (.tuple as, .tuple bs)
  | record {a b : Node} : MergeCall (a, b) (.record a, .record b)

/-- A bound on how deep the calls go: each of them lowers the higher node, or keeps within
the height of the higher node and lowers the sum of the heights. -/
def mergeDepth (p : Node × Node) : Nat :=
  max p.1.height p.2.height * max p.1.height p.2.height + (p.1.height + p.2.height)

theorem mergeDepth_lt {p q : Node × Node}
    (h : max p.1.height p.2.height < max q.1.height q.2.height ∨
      max p.1.height p.2.height ≤ max q.1.height q.2.height ∧
        p.1.height + p.2.height < q.1.height + q.2.height) : mergeDepth p < mergeDepth q := by
  unfold mergeDepth
  have hsum : p.1.height + p.2.height ≤ 2 * max p.1.height p.2.height := by omega
  generalize max p.1.height p.2.height = low at h hsum ⊢
  generalize max q.1.height q.2.height = high at h ⊢
  rcases h with hlow | ⟨hlow, hless⟩
  · -- The square of a lower height makes room for any two heights below it.
    have hsquare : (low + 1) * (low + 1) ≤ high * high := Nat.mul_self_le_mul_self hlow
    have hexpand : (low + 1) * (low + 1) = low * low + 2 * low + 1 := by
      rw [Nat.add_mul, Nat.mul_add]
      omega
    omega
  · have hsquare : low * low ≤ high * high := Nat.mul_self_le_mul_self hlow
    omega

theorem MergeCall.depth_lt {p q : Node × Node} (h : MergeCall p q) :
    mergeDepth p < mergeDepth q := by
  apply mergeDepth_lt
  cases h with
  | branchesLeft | branchesRight =>
    simp only [height]
    omega
  | mergedLeft hn | mergedRight hn =>
    have hlower := height_le_of_intersect hn
    simp only [height]
    omega
  | optional | optionalLeft | optionalRight | nullable | nullableLeft | nullableRight | array
  | record =>
    simp only [height]
    omega
  | field hmem hlook =>
    have hleft := height_le_fieldsHeight hmem
    have hright := height_le_of_lookup hlook
    simp only [height] at hleft ⊢
    omega
  | catchall =>
    simp only [height, catchallHeight]
    omega
  | item hmem =>
    have hleft := height_le_listHeight (List.of_mem_zip hmem).1
    have hright := height_le_listHeight (List.of_mem_zip hmem).2
    simp only [height]
    omega

/-- No calls of merging go on for ever. -/
theorem wellFounded_mergeCall : WellFounded MergeCall :=
  Subrelation.wf MergeCall.depth_lt (measure mergeDepth).wf

/-! ## One level of merging -/

abbrev Merging := Node → Node → Location → Except SchemaError Node

variable {self : Merging}

def mergeFieldsWith (self : Merging) (fs gs : List (String × Node)) (location : Location) :
    Except SchemaError (List (String × Node)) :=
  match fs with
  | [] => .ok []
  | (name, n) :: rest => do
    let m ← match lookup gs name with
      | some other => self n other (location.entry name)
      | none => .ok n
    .ok ((name, m) :: (← mergeFieldsWith self rest gs location))

def mergeCatchallWith (self : Merging) (c d : Option Node) (location : Location) :
    Except SchemaError (Option Node) :=
  match c, d with
  | some a, some b => do .ok (some (← self a b location))
  | _, _ => .ok none

def mergeItemsWith (self : Merging) (as bs : List Node) (i : Nat) (location : Location) :
    Except SchemaError (List Node) :=
  match as, bs with
  | a :: as, b :: bs => do
    let m ← self a b (location.item i)
    .ok (m :: (← mergeItemsWith self as bs (i + 1) location))
  | _, _ => .ok []

/-- Merges two nodes, with `self` for the merges that this calls for. -/
def mergeWith (self : Merging) : Merging := fun l r location =>
  match l, r with
  | .intersection a b, other => do self (← self a b location) other location
  | other, .intersection a b => do self (← self a b location) other location
  | .any, other => .ok other
  | other, .any => .ok other
  | .optional a, .optional b => do .ok (.optional (← self a b location))
  | .optional a, other => self a other location
  | other, .optional b => self b other location
  | .nullable a, .nullable b => do .ok (.nullable (← self a b location))
  | .nullable a, other => self a other location
  | other, .nullable b => self b other location
  | .object fs c, .object gs d => do
    let shared ← mergeFieldsWith self fs gs location
    let catchall ← mergeCatchallWith self c d location.others
    .ok (.object (shared ++ ownFields fs gs) catchall)
  | .string cs e, .string ds f => .ok (.string (cs ++ ds) (e && f))
  | .number cs, .number ds => .ok (.number (cs ++ ds))
  | .enum vs, .enum ws => do .ok (.enum (← meetEnum vs ws location))
  | .literal v, .literal w =>
    if v == w then .ok (.literal v)
    else .error (.unsupported location (.incompatible "literal" "literal"))
  | .array a, .array b => do .ok (.array (← self a b location.items))
  | .tuple as, .tuple bs =>
    if as.length = bs.length then do .ok (.tuple (← mergeItemsWith self as bs 0 location))
    else .error (.unsupported location (.tupleArity as.length bs.length))
  | .record a, .record b => do .ok (.record (← self a b location.others))
  | .boolean, .boolean => .ok .boolean
  | .date, .date => .ok .date
  | .null, .null => .ok .null
  | l, r => .error (.unsupported location (.incompatible l.kindName r.kindName))

/-! ## Merging is what its calls come to -/

variable {self : Merging} {l r : Node} {location : Location}

theorem mergeFieldsWith_eq {fs gs : List (String × Node)}
    (agree : ∀ f ∈ fs, ∀ other, lookup gs f.1 = some other →
      ∀ place, self f.2 other place = f.2.intersect other place) :
    mergeFieldsWith self fs gs location = (meetFields fs gs location).map Subtype.val := by
  induction fs with
  | nil => rw [mergeFieldsWith, meetFields]; rfl
  | cons f rest ih =>
    obtain ⟨name, n⟩ := f
    obtain ⟨hf, hrest⟩ := List.forall_mem_cons.mp agree
    rw [mergeFieldsWith, meetFields, ih hrest]
    split
    · next other hother =>
      rw [hf other hother]
      split
      · next other' hother' =>
        cases hother.symm.trans hother'
        rw [intersect]
        cases n.meet other (location.entry name) with
        | error e => rfl
        | ok m => cases meetFields rest gs location <;> rfl
      · next hnone => cases hother.symm.trans hnone
    · next hnone =>
      split
      · next other hother => cases hnone.symm.trans hother
      · cases meetFields rest gs location <;> rfl

theorem mergeCatchallWith_eq {c d : Option Node}
    (agree : ∀ a b, c = some a → d = some b → ∀ place, self a b place = a.intersect b place) :
    mergeCatchallWith self c d location = (meetCatchall c d location).map Subtype.val := by
  cases c with
  | none => simp [mergeCatchallWith, meetCatchall, Except.map]
  | some a =>
    cases d with
    | none => simp [mergeCatchallWith, meetCatchall, Except.map]
    | some b =>
      rw [mergeCatchallWith, meetCatchall, agree a b rfl rfl, intersect]
      cases a.meet b location <;> rfl

theorem mergeItemsWith_eq {as bs : List Node} {i : Nat}
    (agree : ∀ e ∈ as.zip bs, ∀ place, self e.1 e.2 place = e.1.intersect e.2 place) :
    mergeItemsWith self as bs i location = (meetItems as bs i location).map Subtype.val := by
  induction as generalizing bs i with
  | nil => simp [mergeItemsWith, meetItems, Except.map]
  | cons a as ih =>
    cases bs with
    | nil => simp [mergeItemsWith, meetItems, Except.map]
    | cons b bs =>
      obtain ⟨hfirst, hrest⟩ := List.forall_mem_cons.mp agree
      rw [mergeItemsWith, meetItems, hfirst, ih hrest, intersect]
      cases a.meet b (location.item i) with
      | error e => rfl
      | ok m => cases meetItems as bs (i + 1) location <;> rfl

theorem intersect_intersection_left (a b r : Node) (location : Location) :
    (intersection a b).intersect r location = (do
      let inner ← a.intersect b location
      inner.intersect r location) := by
  rw [intersect, intersect, meet]
  cases a.meet b location with
  | error e => rfl
  | ok inner =>
    change Except.map Subtype.val (inner.val.meet r location >>= _) = inner.val.intersect r location
    rw [intersect]
    cases inner.val.meet r location <;> rfl

theorem intersect_intersection_right {l : Node} (hi : ∀ a b, l = .intersection a b → False)
    (a b : Node) (location : Location) :
    l.intersect (intersection a b) location = (do
      let inner ← a.intersect b location
      inner.intersect l location) := by
  rw [intersect, intersect, Node.meet.eq_2 _ _ _ _ hi]
  cases a.meet b location with
  | error e => rfl
  | ok inner =>
    change Except.map Subtype.val (inner.val.meet l location >>= _) = inner.val.intersect l location
    rw [intersect]
    cases inner.val.meet l location <;> rfl

/-- One level of merging comes to the merge if `self` agrees with merging on the calls. -/
theorem mergeWith_eq (agree : ∀ a b, MergeCall (a, b) (l, r) →
    ∀ place, self a b place = a.intersect b place) :
    mergeWith self l r location = l.intersect r location := by
  unfold mergeWith
  split
  case h_1 a b =>
    -- The second call is on what the first one gives, so the first is settled before it.
    rw [agree a b .branchesLeft, intersect_intersection_left]
    cases hinner : a.intersect b location with
    | error e => rfl
    | ok inner => exact agree inner r (.mergedLeft hinner) location
  case h_2 a b hi =>
    rw [agree a b .branchesRight, intersect_intersection_right hi]
    cases hinner : a.intersect b location with
    | error e => rfl
    | ok inner => exact agree inner l (.mergedRight hinner) location
  case h_3 hi => rw [intersect, Node.meet.eq_3 _ _ hi]; rfl
  case h_4 hi ha => rw [intersect, Node.meet.eq_4 _ _ hi ha]; rfl
  case h_5 a b =>
    rw [agree a b .optional, intersect, intersect, meet]
    cases a.meet b location <;> rfl
  case h_6 a hi ha ho =>
    rw [agree a r .optionalLeft, intersect, intersect, Node.meet.eq_6 _ _ _ hi ha ho]
    cases a.meet r location <;> rfl
  case h_7 b hi ha ho =>
    rw [agree b l .optionalRight, intersect, intersect, Node.meet.eq_7 _ _ _ hi ha ho]
    cases b.meet l location <;> rfl
  case h_8 a b =>
    rw [agree a b .nullable, intersect, intersect, meet]
    cases a.meet b location <;> rfl
  case h_9 a hi ha ho hn =>
    rw [agree a r .nullableLeft, intersect, intersect, Node.meet.eq_9 _ _ _ hi ha ho hn]
    cases a.meet r location <;> rfl
  case h_10 b hi ha ho hn =>
    rw [agree b l .nullableRight, intersect, intersect, Node.meet.eq_10 _ _ _ hi ha ho hn]
    cases b.meet l location <;> rfl
  case h_11 fs c gs d =>
    have hfields : mergeFieldsWith self fs gs location = _ :=
      mergeFieldsWith_eq fun f hf other hother => agree f.2 other (.field hf hother)
    have hcatchall : mergeCatchallWith self c d location.others = _ :=
      mergeCatchallWith_eq fun a b hc hd => agree a b (hc ▸ hd ▸ .catchall)
    rw [hfields, hcatchall, intersect, meet]
    cases meetFields fs gs location with
    | error e => rfl
    | ok shared => cases meetCatchall c d location.others <;> rfl
  case h_12 => rw [intersect, meet]; rfl
  case h_13 => rw [intersect, meet]; rfl
  case h_14 vs ws =>
    rw [intersect, meet]
    cases meetEnum vs ws location <;> rfl
  case h_15 v w =>
    rw [intersect, meet]
    split <;> rfl
  case h_16 a b =>
    rw [agree a b .array, intersect, intersect, meet]
    cases a.meet b location.items <;> rfl
  case h_17 as bs =>
    have hitems : mergeItemsWith self as bs 0 location = _ :=
      mergeItemsWith_eq fun e he => agree e.1 e.2 (.item he)
    rw [hitems, intersect, meet]
    split
    · cases meetItems as bs 0 location <;> rfl
    · rfl
  case h_18 a b =>
    rw [agree a b .record, intersect, intersect, meet]
    cases a.meet b location.others <;> rfl
  case h_19 => rw [intersect, meet]; rfl
  case h_20 => rw [intersect, meet]; rfl
  case h_21 => rw [intersect, meet]; rfl
  case h_22 =>
    rw [intersect, Node.meet.eq_22]
    · rfl
    all_goals assumption

/-- Below its depth merging does not go: whatever stands in for it there is not asked for. -/
theorem iterate_mergeWith (self : Merging) {k : Nat} (h : mergeDepth (l, r) < k)
    (location : Location) : (mergeWith^[k] self) l r location = l.intersect r location := by
  induction k generalizing l r location with
  | zero => cases h
  | succ k ih =>
    rw [Function.iterate_succ_apply']
    refine mergeWith_eq fun a b hcall place => ih ?_ place
    have hdepth : mergeDepth (a, b) < mergeDepth (l, r) := hcall.depth_lt
    omega

end Node

end DocSchema

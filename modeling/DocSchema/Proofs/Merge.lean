-- SUMMARY: The merge of two nodes as a relation without locations.
import DocSchema.Proofs.Outcome
import DocSchema.Schema.Intersect

/-!
# The merge of two nodes

`Merges l r m` says that `m` stands for both `l` and `r`. The relation has one
rule for each way of merging and mentions no location, so that properties of
merged nodes are proved by induction on its rules. `intersect_eq_ok_iff` says
that merging computes exactly this relation, at every location.
-/

namespace DocSchema

namespace Node

/-! ## The relation -/

/-- The order in which merging takes off wrappers, the outermost ones first. -/
def layer : Node → Nat
  | .intersection .. => 4
  | .any => 3
  | .optional _ => 2
  | .nullable _ => 1
  | _ => 0

/-- A field of the first object, the field of its name in the second, and what
becomes of them. -/
structure FieldMerge where
  name : String
  left : Node
  right? : Option Node
  merged : Node

def FieldMerge.first (f : FieldMerge) : String × Node := (f.name, f.left)

def FieldMerge.result (f : FieldMerge) : String × Node := (f.name, f.merged)

/-- The parts of two tuples at one position, and their merge. -/
structure ItemMerge where
  left : Node
  right : Node
  merged : Node

/-- A node that is there only if two others are. -/
def ifBoth (c d : Option Node) (m : Node) : Option Node :=
  match c, d with
  | some _, some _ => some m
  | _, _ => none

/-- The fields of the second object that the first one lacks. -/
def ownFields (fs gs : List (String × Node)) : List (String × Node) :=
  gs.filter fun g => (lookup fs g.1).isNone

inductive Merges : Node → Node → Node → Prop where
  | intersectionLeft {a b inner other m : Node} :
    Merges a b inner → Merges inner other m → Merges (.intersection a b) other m
  | intersectionRight {a b inner other m : Node} :
    other.layer < 4 → Merges a b inner → Merges inner other m → Merges other (.intersection a b) m
  | anyLeft {other : Node} : other.layer < 4 → Merges .any other other
  | anyRight {other : Node} : other.layer < 3 → Merges other .any other
  | optional {a b m : Node} : Merges a b m → Merges (.optional a) (.optional b) (.optional m)
  | optionalLeft {a other m : Node} :
    other.layer < 2 → Merges a other m → Merges (.optional a) other m
  | optionalRight {b other m : Node} :
    other.layer < 2 → Merges b other m → Merges other (.optional b) m
  | nullable {a b m : Node} : Merges a b m → Merges (.nullable a) (.nullable b) (.nullable m)
  | nullableLeft {a other m : Node} :
    other.layer < 1 → Merges a other m → Merges (.nullable a) other m
  | nullableRight {b other m : Node} :
    other.layer < 1 → Merges b other m → Merges other (.nullable b) m
  | object {gs : List (String × Node)} {c d : Option Node} {m : Node} (shared : List FieldMerge)
    (looked : ∀ f ∈ shared, f.right? = lookup gs f.name)
    (both : ∀ f ∈ shared, ∀ other, f.right? = some other → Merges f.left other f.merged)
    (alone : ∀ f ∈ shared, f.right? = none → f.merged = f.left)
    (catchall : ∀ a b, c = some a → d = some b → Merges a b m) :
    Merges (.object (shared.map FieldMerge.first) c) (.object gs d)
      (.object (shared.map FieldMerge.result ++ ownFields (shared.map FieldMerge.first) gs)
        (ifBoth c d m))
  | string {cs ds : List StringCheck} {e f : Bool} :
    Merges (.string cs e) (.string ds f) (.string (cs ++ ds) (e && f))
  | number {cs ds : List NumberCheck} : Merges (.number cs) (.number ds) (.number (cs ++ ds))
  | enum {vs ws : List String} (common : vs.filter (fun v => ws.contains v) ≠ []) :
    Merges (.enum vs) (.enum ws) (.enum (vs.filter fun v => ws.contains v))
  | literal {v w : Value} : (v == w) = true → Merges (.literal v) (.literal w) (.literal v)
  | array {a b m : Node} : Merges a b m → Merges (.array a) (.array b) (.array m)
  | tuple (parts : List ItemMerge) (each : ∀ p ∈ parts, Merges p.left p.right p.merged) :
    Merges (.tuple (parts.map (·.left))) (.tuple (parts.map (·.right)))
      (.tuple (parts.map (·.merged)))
  | record {a b m : Node} : Merges a b m → Merges (.record a) (.record b) (.record m)
  | boolean : Merges .boolean .boolean .boolean
  | date : Merges .date .date .date
  | null : Merges .null .null .null

/-! ## Merging computes the relation -/

theorem layer_lt_four {n : Node} (hi : ∀ a b, n = .intersection a b → False) : n.layer < 4 := by
  cases n with
  | intersection a b => exact (hi a b rfl).elim
  | _ => simp [layer]

theorem layer_lt_three {n : Node} (hi : ∀ a b, n = .intersection a b → False)
    (ha : n = .any → False) : n.layer < 3 := by
  cases n with
  | intersection a b => exact (hi a b rfl).elim
  | any => exact (ha rfl).elim
  | _ => simp [layer]

theorem layer_lt_two {n : Node} (hi : ∀ a b, n = .intersection a b → False)
    (ha : n = .any → False) (ho : ∀ a, n = .optional a → False) : n.layer < 2 := by
  cases n with
  | intersection a b => exact (hi a b rfl).elim
  | any => exact (ha rfl).elim
  | optional a => exact (ho a rfl).elim
  | _ => simp [layer]

theorem layer_lt_one {n : Node} (hi : ∀ a b, n = .intersection a b → False)
    (ha : n = .any → False) (ho : ∀ a, n = .optional a → False)
    (hn : ∀ a, n = .nullable a → False) : n.layer < 1 := by
  cases n with
  | intersection a b => exact (hi a b rfl).elim
  | any => exact (ha rfl).elim
  | optional a => exact (ho a rfl).elim
  | nullable a => exact (hn a rfl).elim
  | _ => simp [layer]

/-- What merging two lists of fields gives. -/
def FieldsMerge (fs gs ms : List (String × Node)) : Prop :=
  ∃ shared : List FieldMerge, fs = shared.map FieldMerge.first ∧ ms = shared.map FieldMerge.result ∧
    (∀ f ∈ shared, f.right? = lookup gs f.name) ∧
    (∀ f ∈ shared, ∀ other, f.right? = some other → Merges f.left other f.merged) ∧
    (∀ f ∈ shared, f.right? = none → f.merged = f.left)

theorem FieldsMerge.cons {fs gs ms : List (String × Node)} (f : FieldMerge)
    (looked : f.right? = lookup gs f.name)
    (both : ∀ other, f.right? = some other → Merges f.left other f.merged)
    (alone : f.right? = none → f.merged = f.left) (rest : FieldsMerge fs gs ms) :
    FieldsMerge (f.first :: fs) gs (f.result :: ms) := by
  obtain ⟨shared, rfl, rfl, hlooked, hboth, halone⟩ := rest
  refine ⟨f :: shared, rfl, rfl, ?_, ?_, ?_⟩
  · exact List.forall_mem_cons.mpr ⟨looked, hlooked⟩
  · exact List.forall_mem_cons.mpr ⟨both, hboth⟩
  · exact List.forall_mem_cons.mpr ⟨alone, halone⟩

/-- What merging two lists of nodes of one length gives. -/
def ItemsMerge (as bs ms : List Node) : Prop :=
  ∃ parts : List ItemMerge, as = parts.map (·.left) ∧ bs = parts.map (·.right) ∧
    ms = parts.map (·.merged) ∧ ∀ p ∈ parts, Merges p.left p.right p.merged

/-- What merging two catchalls gives. -/
def CatchallMerge (c d m : Option Node) : Prop :=
  ∃ e, m = ifBoth c d e ∧ ∀ a b, c = some a → d = some b → Merges a b e

/-! ### What the functions give is related

There is a lemma for each arm of the four functions. It assumes what the calls of the arm
give, so that the induction over the calls only puts the arms together. -/

/-- What merging two nodes at a location gives stands for both. -/
def MeetRelates (l r : Node) (location : Location) : Prop :=
  ∀ m, l.meet r location = .ok m → Merges l r m.val

def ItemsRelate (as bs : List Node) (i : Nat) (location : Location) : Prop :=
  ∀ ms, meetItems as bs i location = .ok ms → as.length = bs.length → ItemsMerge as bs ms.val

def CatchallRelates (c d : Option Node) (location : Location) : Prop :=
  ∀ m, meetCatchall c d location = .ok m → CatchallMerge c d m.val

def FieldsRelate (fs gs : List (String × Node)) (location : Location) : Prop :=
  ∀ ms, meetFields fs gs location = .ok ms → FieldsMerge fs gs ms.val

section Arms

variable {a b n other : Node} {as bs : List Node} {c d : Option Node} {i : Nat} {name : String}
  {fs gs : List (String × Node)} {location : Location}

theorem ItemsRelate.cons (head : MeetRelates a b (location.item i))
    (rest : ItemsRelate as bs (i + 1) location) :
    ItemsRelate (a :: as) (b :: bs) i location := by
  intro ms h hlength
  simp only [meetItems, Outcome.bind_eq_ok, Except.ok.injEq] at h
  obtain ⟨m, hm, ms', hms, rfl⟩ := h
  obtain ⟨parts, rfl, rfl, hresult, heach⟩ := rest ms' hms (Nat.succ.inj hlength)
  refine ⟨⟨a, b, m.val⟩ :: parts, rfl, rfl, ?_, ?_⟩
  · exact congrArg (m.val :: ·) hresult
  · exact List.forall_mem_cons.mpr ⟨head m hm, heach⟩

/-- Two lists of one length end together. -/
theorem ItemsRelate.of_end
    (ended : ∀ a as' b bs', as = a :: as' → bs = b :: bs' → False) :
    ItemsRelate as bs i location := by
  intro ms h hlength
  rw [Node.meetItems.eq_2 _ _ _ _ ended] at h
  cases h
  cases as with
  | nil =>
    cases List.length_eq_zero_iff.mp hlength.symm
    exact ⟨[], rfl, rfl, rfl, by simp⟩
  | cons a as =>
    cases bs with
    | nil => cases hlength
    | cons b bs => exact (ended a as b bs rfl rfl).elim

theorem CatchallRelates.both (h : MeetRelates a b location) :
    CatchallRelates (some a) (some b) location := by
  intro m hm
  simp only [meetCatchall, Outcome.bind_eq_ok, Except.ok.injEq] at hm
  obtain ⟨m', hm, rfl⟩ := hm
  refine ⟨m'.val, rfl, ?_⟩
  rintro _ _ ⟨⟩ ⟨⟩
  exact h m' hm

theorem CatchallRelates.of_lacking (lacking : ∀ a b, c = some a → d = some b → False) :
    CatchallRelates c d location := by
  intro m h
  rw [Node.meetCatchall.eq_2 _ _ _ lacking] at h
  cases h
  refine ⟨.any, ?_, fun a b ha hb => (lacking a b ha hb).elim⟩
  cases c with
  | none => rfl
  | some a =>
    cases d with
    | none => rfl
    | some b => exact (lacking a b rfl rfl).elim

theorem FieldsRelate.nil : FieldsRelate [] gs location := by
  intro ms h
  simp only [meetFields, Except.ok.injEq] at h
  subst h
  exact ⟨[], rfl, rfl, by simp, by simp, by simp⟩

theorem FieldsRelate.shared (looked : lookup gs name = some other)
    (head : MeetRelates n other (location.entry name)) (rest : FieldsRelate fs gs location) :
    FieldsRelate ((name, n) :: fs) gs location := by
  intro ms h
  rw [meetFields] at h
  split at h
  · next other' hlook =>
    cases looked.symm.trans hlook
    simp only [Outcome.bind_eq_ok, Except.ok.injEq] at h
    obtain ⟨m, hm, ms', hms, rfl⟩ := h
    refine FieldsMerge.cons ⟨name, n, some other, m.val⟩ looked.symm ?_ ?_ (rest ms' hms)
    · rintro _ ⟨⟩
      exact head m hm
    · rintro ⟨⟩
  · next hlook => cases looked.symm.trans hlook

theorem FieldsRelate.alone (looked : lookup gs name = none) (rest : FieldsRelate fs gs location) :
    FieldsRelate ((name, n) :: fs) gs location := by
  intro ms h
  rw [meetFields] at h
  split at h
  · next other' hlook => cases looked.symm.trans hlook
  · next hlook =>
    simp only [Outcome.bind_eq_ok, Except.ok.injEq] at h
    obtain ⟨ms', hms, rfl⟩ := h
    refine FieldsMerge.cons ⟨name, n, none, n⟩ looked.symm ?_ (fun _ => rfl) (rest ms' hms)
    rintro _ ⟨⟩

namespace MeetRelates

theorem object (fields : FieldsRelate fs gs location)
    (catchall : CatchallRelates c d location.others) :
    MeetRelates (.object fs c) (.object gs d) location := by
  intro m h
  simp only [meet, Outcome.bind_eq_ok, Except.ok.injEq] at h
  obtain ⟨ms, hms, e, he, rfl⟩ := h
  obtain ⟨shared, rfl, hresult, hlooked, hboth, halone⟩ := fields ms hms
  obtain ⟨rest, hrest, hcatchall⟩ := catchall e he
  simp only [hresult, hrest]
  exact .object shared hlooked hboth halone hcatchall

theorem tuple (length : as.length = bs.length) (items : ItemsRelate as bs 0 location) :
    MeetRelates (.tuple as) (.tuple bs) location := by
  intro m h
  simp only [meet, length, if_true, Outcome.bind_eq_ok, Except.ok.injEq] at h
  obtain ⟨ms, hms, rfl⟩ := h
  obtain ⟨parts, rfl, rfl, hresult, heach⟩ := items ms hms length
  simp only [hresult]
  exact .tuple parts heach

theorem enum {vs ws : List String} : MeetRelates (.enum vs) (.enum ws) location := by
  intro m h
  simp only [meet, Outcome.bind_eq_ok, Except.ok.injEq] at h
  obtain ⟨common, hcommon, rfl⟩ := h
  unfold meetEnum at hcommon
  split at hcommon
  · cases hcommon
  · next hne =>
    cases hcommon
    exact .enum hne

theorem literal {v w : Value} : MeetRelates (.literal v) (.literal w) location := by
  intro m h
  by_cases heq : (v == w) = true
  · simp only [meet, heq, if_true, Except.ok.injEq] at h
    subst h
    exact .literal heq
  · rw [meet, if_neg heq] at h
    cases h

theorem intersectionLeft (inner : MeetRelates a b location)
    (rest : ∀ m : Meet a b, MeetRelates m.val other location) :
    MeetRelates (.intersection a b) other location := by
  intro m h
  simp only [meet, Outcome.bind_eq_ok, Except.ok.injEq] at h
  obtain ⟨between, hbetween, m', hm, rfl⟩ := h
  exact .intersectionLeft (inner between hbetween) (rest between m' hm)

theorem intersectionRight (hi : ∀ a b, other = .intersection a b → False)
    (inner : MeetRelates a b location)
    (rest : ∀ m : Meet a b, MeetRelates m.val other location) :
    MeetRelates other (.intersection a b) location := by
  intro m h
  simp only [Node.meet.eq_2 _ _ _ _ hi, Outcome.bind_eq_ok, Except.ok.injEq] at h
  obtain ⟨between, hbetween, m', hm, rfl⟩ := h
  exact .intersectionRight (layer_lt_four hi) (inner between hbetween) (rest between m' hm)

theorem optionalLeft (hi : ∀ a b, other = .intersection a b → False) (ha : other = .any → False)
    (ho : ∀ a, other = .optional a → False) (h : MeetRelates a other location) :
    MeetRelates (.optional a) other location := by
  intro m hm
  simp only [Node.meet.eq_6 _ _ _ hi ha ho, Outcome.bind_eq_ok, Except.ok.injEq] at hm
  obtain ⟨m', hm, rfl⟩ := hm
  exact .optionalLeft (layer_lt_two hi ha ho) (h m' hm)

theorem optionalRight (hi : ∀ a b, other = .intersection a b → False) (ha : other = .any → False)
    (ho : ∀ a, other = .optional a → False) (h : MeetRelates b other location) :
    MeetRelates other (.optional b) location := by
  intro m hm
  simp only [Node.meet.eq_7 _ _ _ hi ha ho, Outcome.bind_eq_ok, Except.ok.injEq] at hm
  obtain ⟨m', hm, rfl⟩ := hm
  exact .optionalRight (layer_lt_two hi ha ho) (h m' hm)

theorem nullableLeft (hi : ∀ a b, other = .intersection a b → False) (ha : other = .any → False)
    (ho : ∀ a, other = .optional a → False) (hn : ∀ a, other = .nullable a → False)
    (h : MeetRelates a other location) : MeetRelates (.nullable a) other location := by
  intro m hm
  simp only [Node.meet.eq_9 _ _ _ hi ha ho hn, Outcome.bind_eq_ok, Except.ok.injEq] at hm
  obtain ⟨m', hm, rfl⟩ := hm
  exact .nullableLeft (layer_lt_one hi ha ho hn) (h m' hm)

theorem nullableRight (hi : ∀ a b, other = .intersection a b → False) (ha : other = .any → False)
    (ho : ∀ a, other = .optional a → False) (hn : ∀ a, other = .nullable a → False)
    (h : MeetRelates b other location) : MeetRelates other (.nullable b) location := by
  intro m hm
  simp only [Node.meet.eq_10 _ _ _ hi ha ho hn, Outcome.bind_eq_ok, Except.ok.injEq] at hm
  obtain ⟨m', hm, rfl⟩ := hm
  exact .nullableRight (layer_lt_one hi ha ho hn) (h m' hm)

end MeetRelates

end Arms

theorem merges_of_meet (l r : Node) (location : Location) : MeetRelates l r location := by
  apply Node.meet.induct MeetRelates ItemsRelate CatchallRelates FieldsRelate
  case case1 => exact fun _ _ _ _ inner rest => .intersectionLeft inner rest
  case case2 => exact fun _ _ _ _ hi inner rest => .intersectionRight hi inner rest
  case case3 =>
    intro location other hi m h
    simp only [Node.meet.eq_3 _ _ hi, Except.ok.injEq] at h
    subst h
    exact .anyLeft (layer_lt_four hi)
  case case4 =>
    intro location other hi ha m h
    simp only [Node.meet.eq_4 _ _ hi ha, Except.ok.injEq] at h
    subst h
    exact .anyRight (layer_lt_three hi ha)
  case case6 => exact fun _ _ _ hi ha ho h => .optionalLeft hi ha ho h
  case case7 => exact fun _ _ _ hi ha ho h => .optionalRight hi ha ho h
  case case9 => exact fun _ _ _ hi ha ho hn h => .nullableLeft hi ha ho hn h
  case case10 => exact fun _ _ _ hi ha ho hn h => .nullableRight hi ha ho hn h
  -- Two wrappers of one kind are merged inside.
  case case5 | case8 | case17 | case20 =>
    intro location a b ih m h
    simp only [meet, Outcome.bind_eq_ok, Except.ok.injEq] at h
    obtain ⟨m', hm, rfl⟩ := h
    constructor
    exact ih m' hm
  case case11 => exact fun _ _ _ _ _ fields catchall => .object fields catchall
  case case14 => exact fun _ _ _ => .enum
  case case15 | case16 => exact fun _ _ _ _ => .literal
  case case18 => exact fun _ _ _ length items => .tuple length items
  case case19 =>
    intro location as bs hlength m h
    rw [meet, if_neg hlength] at h
    cases h
  -- Leaves of one kind have nothing inside to merge.
  case case12 | case13 | case21 | case22 | case23 =>
    intros
    intro m h
    simp only [meet, Except.ok.injEq] at h
    subst h
    constructor
  case case24 =>
    -- No way of merging fits: the merge is refused.
    intros
    intro m h
    rw [Node.meet.eq_22] at h
    · cases h
    all_goals assumption
  case case25 => exact fun _ _ _ _ _ _ head rest => .cons head rest
  case case26 => exact fun _ _ _ _ ended => .of_end ended
  case case27 => exact fun _ _ _ h => .both h
  case case28 => exact fun _ _ _ lacking => .of_lacking lacking
  case case29 => exact fun _ _ => .nil
  case case30 => exact fun _ _ _ _ _ _ looked _ head rest => .shared looked head rest
  case case31 => exact fun _ _ _ _ _ looked rest => .alone looked rest

/-- Merging gives this node, wherever it is done. -/
def MeetsTo (l r m : Node) : Prop := ∀ location, ∃ s, l.meet r location = .ok s ∧ s.val = m

theorem not_intersection {n : Node} (h : n.layer < 4) (a b : Node) :
    n = .intersection a b → False := by
  rintro rfl
  exact Nat.lt_irrefl 4 h

theorem not_any {n : Node} (h : n.layer < 3) : n = .any → False := by
  rintro rfl
  exact Nat.lt_irrefl 3 h

theorem not_optional {n : Node} (h : n.layer < 2) (a : Node) : n = .optional a → False := by
  rintro rfl
  exact Nat.lt_irrefl 2 h

theorem not_nullable {n : Node} (h : n.layer < 1) (a : Node) : n = .nullable a → False := by
  rintro rfl
  exact Nat.lt_irrefl 1 h

theorem meetFields_of_meetsTo {gs : List (String × Node)} (shared : List FieldMerge)
    (looked : ∀ f ∈ shared, f.right? = lookup gs f.name)
    (both : ∀ f ∈ shared, ∀ other, f.right? = some other → MeetsTo f.left other f.merged)
    (alone : ∀ f ∈ shared, f.right? = none → f.merged = f.left) (location : Location) :
    ∃ ms, meetFields (shared.map FieldMerge.first) gs location = .ok ms ∧
      ms.val = shared.map FieldMerge.result := by
  induction shared with
  | nil => exact ⟨⟨[], Nat.zero_le _⟩, by rw [List.map_nil, meetFields], rfl⟩
  | cons f rest ih =>
    obtain ⟨hlook, hlooks⟩ := List.forall_mem_cons.mp looked
    obtain ⟨hboth, hboths⟩ := List.forall_mem_cons.mp both
    obtain ⟨halone, halones⟩ := List.forall_mem_cons.mp alone
    obtain ⟨ms, hms, hresult⟩ := ih hlooks hboths halones
    change ∃ ms, meetFields ((f.name, f.left) :: rest.map FieldMerge.first) gs location = .ok ms ∧ _
    rw [meetFields]
    cases hright : f.right? with
    | some other =>
      obtain ⟨m, hm, hmerged⟩ := hboth other hright (location.entry f.name)
      rw [hright] at hlook
      split
      · next other' hlook' =>
        cases hlook.trans hlook'
        refine ⟨_, Outcome.bind_eq_ok.mpr ⟨m, hm, Outcome.bind_eq_ok.mpr ⟨ms, hms, rfl⟩⟩, ?_⟩
        simp only [hmerged, hresult, List.map_cons, FieldMerge.result]
      · next hlook' => cases hlook.trans hlook'
    | none =>
      rw [hright] at hlook
      split
      · next other' hlook' => cases hlook.trans hlook'
      · next hlook' =>
        refine ⟨_, Outcome.bind_eq_ok.mpr ⟨ms, hms, rfl⟩, ?_⟩
        simp only [← halone hright, hresult, List.map_cons, FieldMerge.result]

theorem meetItems_of_meetsTo (parts : List ItemMerge)
    (each : ∀ p ∈ parts, MeetsTo p.left p.right p.merged) (i : Nat) (location : Location) :
    ∃ ms, meetItems (parts.map (·.left)) (parts.map (·.right)) i location = .ok ms ∧
      ms.val = parts.map (·.merged) := by
  induction parts generalizing i with
  | nil => exact ⟨⟨[], Nat.zero_le _⟩, by rw [List.map_nil, List.map_nil, meetItems]; simp, rfl⟩
  | cons p rest ih =>
    obtain ⟨hhead, hrest⟩ := List.forall_mem_cons.mp each
    obtain ⟨m, hm, hmerged⟩ := hhead (location.item i)
    obtain ⟨ms, hms, hresult⟩ := ih hrest (i + 1)
    change ∃ ms, meetItems (p.left :: rest.map (·.left)) (p.right :: rest.map (·.right)) i location =
      .ok ms ∧ _
    rw [meetItems]
    refine ⟨_, Outcome.bind_eq_ok.mpr ⟨m, hm, Outcome.bind_eq_ok.mpr ⟨ms, hms, rfl⟩⟩, ?_⟩
    simp only [hmerged, hresult, List.map_cons]

theorem meetCatchall_of_meetsTo {c d : Option Node} {m : Node}
    (both : ∀ a b, c = some a → d = some b → MeetsTo a b m) (location : Location) :
    ∃ e, meetCatchall c d location = .ok e ∧ e.val = ifBoth c d m := by
  cases c with
  | none => exact ⟨⟨none, by simp [catchallHeight]⟩, by simp [meetCatchall], rfl⟩
  | some a =>
    cases d with
    | none => exact ⟨⟨none, by simp [catchallHeight]⟩, by simp [meetCatchall], rfl⟩
    | some b =>
      obtain ⟨m', hm, hmerged⟩ := both a b rfl rfl location
      rw [meetCatchall]
      refine ⟨_, Outcome.bind_eq_ok.mpr ⟨m', hm, rfl⟩, ?_⟩
      simp only [hmerged, ifBoth]

theorem Merges.meetsTo {l r m : Node} (h : Merges l r m) : MeetsTo l r m := by
  intro location
  induction h generalizing location with
  | intersectionLeft _ _ ihInner ih =>
    obtain ⟨inner, hinner, rfl⟩ := ihInner location
    obtain ⟨m, hm, rfl⟩ := ih location
    rw [meet]
    exact ⟨_, Outcome.bind_eq_ok.mpr ⟨inner, hinner, Outcome.bind_eq_ok.mpr ⟨m, hm, rfl⟩⟩, rfl⟩
  | intersectionRight hi _ _ ihInner ih =>
    obtain ⟨inner, hinner, rfl⟩ := ihInner location
    obtain ⟨m, hm, rfl⟩ := ih location
    rw [Node.meet.eq_2 _ _ _ _ (not_intersection hi)]
    exact ⟨_, Outcome.bind_eq_ok.mpr ⟨inner, hinner, Outcome.bind_eq_ok.mpr ⟨m, hm, rfl⟩⟩, rfl⟩
  | anyLeft hi => exact ⟨_, Node.meet.eq_3 _ _ (not_intersection hi), rfl⟩
  | anyRight ha =>
    exact ⟨_, Node.meet.eq_4 _ _ (not_intersection (Nat.lt_succ_of_lt ha)) (not_any ha), rfl⟩
  | optional _ ih =>
    obtain ⟨m, hm, rfl⟩ := ih location
    rw [meet]
    exact ⟨_, Outcome.bind_eq_ok.mpr ⟨m, hm, rfl⟩, rfl⟩
  | optionalLeft ho _ ih =>
    obtain ⟨m, hm, rfl⟩ := ih location
    rw [Node.meet.eq_6 _ _ _ (not_intersection (by omega)) (not_any (by omega)) (not_optional ho)]
    exact ⟨_, Outcome.bind_eq_ok.mpr ⟨m, hm, rfl⟩, rfl⟩
  | optionalRight ho _ ih =>
    obtain ⟨m, hm, rfl⟩ := ih location
    rw [Node.meet.eq_7 _ _ _ (not_intersection (by omega)) (not_any (by omega)) (not_optional ho)]
    exact ⟨_, Outcome.bind_eq_ok.mpr ⟨m, hm, rfl⟩, rfl⟩
  | nullable _ ih =>
    obtain ⟨m, hm, rfl⟩ := ih location
    rw [meet]
    exact ⟨_, Outcome.bind_eq_ok.mpr ⟨m, hm, rfl⟩, rfl⟩
  | nullableLeft hn _ ih =>
    obtain ⟨m, hm, rfl⟩ := ih location
    rw [Node.meet.eq_9 _ _ _ (not_intersection (by omega)) (not_any (by omega))
      (not_optional (by omega)) (not_nullable hn)]
    exact ⟨_, Outcome.bind_eq_ok.mpr ⟨m, hm, rfl⟩, rfl⟩
  | nullableRight hn _ ih =>
    obtain ⟨m, hm, rfl⟩ := ih location
    rw [Node.meet.eq_10 _ _ _ (not_intersection (by omega)) (not_any (by omega))
      (not_optional (by omega)) (not_nullable hn)]
    exact ⟨_, Outcome.bind_eq_ok.mpr ⟨m, hm, rfl⟩, rfl⟩
  | object shared looked _ alone _ ihBoth ihCatchall =>
    obtain ⟨ms, hms, hresult⟩ := meetFields_of_meetsTo shared looked
      (fun f hf other heq location => ihBoth f hf other heq location) alone location
    obtain ⟨e, he, hcatchall⟩ := meetCatchall_of_meetsTo
      (fun a b ha hb location => ihCatchall a b ha hb location) location.others
    rw [meet]
    refine ⟨_, Outcome.bind_eq_ok.mpr ⟨ms, hms, Outcome.bind_eq_ok.mpr ⟨e, he, rfl⟩⟩, ?_⟩
    simp only [hresult, hcatchall, ownFields]
  | string => exact ⟨_, by rw [meet], rfl⟩
  | number => exact ⟨_, by rw [meet], rfl⟩
  | @enum vs ws common =>
    have hcommon : meetEnum vs ws location = .ok (vs.filter fun v => ws.contains v) := by
      unfold meetEnum
      split
      · next hnil => exact (common hnil).elim
      · rfl
    rw [meet]
    exact ⟨_, Outcome.bind_eq_ok.mpr ⟨_, hcommon, rfl⟩, rfl⟩
  | literal heq =>
    rw [meet, if_pos heq]
    exact ⟨_, rfl, rfl⟩
  | array _ ih =>
    obtain ⟨m, hm, rfl⟩ := ih location.items
    rw [meet]
    exact ⟨_, Outcome.bind_eq_ok.mpr ⟨m, hm, rfl⟩, rfl⟩
  | tuple parts _ ih =>
    obtain ⟨ms, hms, hresult⟩ := meetItems_of_meetsTo parts
      (fun p hp location => ih p hp location) 0 location
    rw [meet, if_pos (by simp)]
    refine ⟨_, Outcome.bind_eq_ok.mpr ⟨ms, hms, rfl⟩, ?_⟩
    simp only [hresult]
  | record _ ih =>
    obtain ⟨m, hm, rfl⟩ := ih location.others
    rw [meet]
    exact ⟨_, Outcome.bind_eq_ok.mpr ⟨m, hm, rfl⟩, rfl⟩
  | boolean => exact ⟨_, by rw [meet], rfl⟩
  | date => exact ⟨_, by rw [meet], rfl⟩
  | null => exact ⟨_, by rw [meet], rfl⟩

/-- Merging succeeds exactly with the node that stands for both. -/
theorem intersect_eq_ok_iff {l r m : Node} {location : Location} :
    l.intersect r location = .ok m ↔ Merges l r m := by
  unfold intersect
  rw [Outcome.map_eq_ok]
  constructor
  · rintro ⟨s, hs, rfl⟩
    exact merges_of_meet l r location s hs
  · intro h
    exact h.meetsTo location

theorem Merges.unique {l r m m' : Node} (h : Merges l r m) (h' : Merges l r m') : m = m' := by
  have hm : l.intersect r .root = .ok m := intersect_eq_ok_iff.mpr h
  rw [intersect_eq_ok_iff.mpr h'] at hm
  exact (Except.ok.inj hm).symm

/-- No intersection is left at the top of a merged node. -/
theorem Merges.layer_lt_four {l r m : Node} (h : Merges l r m) : m.layer < 4 := by
  induction h with
  | intersectionLeft _ _ _ ih | intersectionRight _ _ _ _ ih => exact ih
  | anyLeft hother => exact hother
  | anyRight hother => exact Nat.lt_succ_of_lt hother
  | optionalLeft _ _ ih | optionalRight _ _ ih => exact ih
  | nullableLeft _ _ ih | nullableRight _ _ ih => exact ih
  | _ => simp [layer]

end Node

end DocSchema

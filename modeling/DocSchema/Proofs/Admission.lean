-- SUMMARY: What it is for two nodes to admit one input, objects field by field.
import DocSchema.Proofs.Acceptance

/-!
# Joint admission

`BothAdmit` says what it is for two nodes to accept one input: each accepts it, but
an object asks a field of only one of the two, and an entry that neither declares of
the catchalls of both. What it is to accept an absent input is left open as the
relation `absent`. Where there are no objects, both admit what each of them accepts.
-/

namespace DocSchema

namespace Node

variable {ctx : Context} {l r : Node} {v : Value}

/-! ## What both nodes admit -/

/-- Two nodes of one kind that have nodes below them for the parts of a value. -/
def pairsParts : Node → Node → Bool
  | .object .., .object .. | .array _, .array _ | .tuple _, .tuple _ | .record _, .record _ => true
  | _, _ => false

theorem pairsParts_comm (c d : Node) : pairsParts c d = pairsParts d c := by
  cases c <;> cases d <;> rfl

/-- Both nodes admit the input, with objects read field by field: a field that one of
them declares is checked by that one, a field that both declare by both, and an
entry that neither declares by both catchalls. -/
inductive BothAdmit (ctx : Context) (absent : Node → Node → Prop) :
    Node → Node → Option Value → Prop where
  | absent {l r : Node} : absent l r → BothAdmit ctx absent l r none
  | object {l r : Node} {fs gs : List (String × Node)} {c d : Option Node} {input : Entries Value}
    (comesLeft : ComesTo (.object input) l (.object fs c))
    (comesRight : ComesTo (.object input) r (.object gs d))
    (plain : (Value.object input).kind = .object)
    (left : ∀ name n, lookup fs name = some n → lookup gs name = none →
      Accepts ctx n (Entries.get? input name))
    (right : ∀ name n, lookup fs name = none → lookup gs name = some n →
      Accepts ctx n (Entries.get? input name))
    (shared : ∀ name a b, lookup fs name = some a → lookup gs name = some b →
      BothAdmit ctx absent a b (Entries.get? input name))
    (catchalls : ∀ e ∈ input, lookup fs e.1 = none → lookup gs e.1 = none →
      c.isSome = true ∧ d.isSome = true)
    (undeclared : ∀ e ∈ input, lookup fs e.1 = none → lookup gs e.1 = none →
      ∀ a b, c = some a → d = some b → BothAdmit ctx absent a b (some e.2)) :
    BothAdmit ctx absent l r (some (.object input))
  | array {l r a b : Node} {items : List Value}
    (comesLeft : ComesTo (.array items) l (.array a))
    (comesRight : ComesTo (.array items) r (.array b))
    (each : ∀ w ∈ items, BothAdmit ctx absent a b (some w)) :
    BothAdmit ctx absent l r (some (.array items))
  | tuple {l r : Node} {as bs : List Node} {items : List Value}
    (comesLeft : ComesTo (.array items) l (.tuple as))
    (comesRight : ComesTo (.array items) r (.tuple bs))
    (lengthLeft : items.length = as.length) (lengthRight : items.length = bs.length)
    (each : ∀ (i : Nat) (a b : Node) (w : Value), as[i]? = some a → bs[i]? = some b →
      items[i]? = some w → BothAdmit ctx absent a b (some w)) :
    BothAdmit ctx absent l r (some (.array items))
  | record {l r a b : Node} {input : Entries Value}
    (comesLeft : ComesTo (.object input) l (.record a))
    (comesRight : ComesTo (.object input) r (.record b))
    (plain : (Value.object input).kind = .object)
    (each : ∀ e ∈ input, BothAdmit ctx absent a b (some e.2)) :
    BothAdmit ctx absent l r (some (.object input))
  | others {l r c d : Node} {v : Value} (comesLeft : ComesTo v l c) (comesRight : ComesTo v r d)
    (apart : pairsParts c d = false) (left : Accepts ctx c (some v))
    (right : Accepts ctx d (some v)) : BothAdmit ctx absent l r (some v)

namespace BothAdmit

variable {absent : Node → Node → Prop}

theorem none_iff : BothAdmit ctx absent l r none ↔ absent l r :=
  ⟨fun h => by cases h; assumption, .absent⟩

theorem symm (symmetric : ∀ l r, absent l r → absent r l) {x : Option Value}
    (h : BothAdmit ctx absent l r x) : BothAdmit ctx absent r l x := by
  induction h with
  | absent h => exact .absent (symmetric _ _ h)
  | object comesLeft comesRight plain left right _ catchalls _ ihShared ihUndeclared =>
    exact .object comesRight comesLeft plain (fun name n hg hf => right name n hf hg)
      (fun name n hg hf => left name n hf hg) (fun name b a hb ha => ihShared name a b ha hb)
      (fun e he hg hf => (catchalls e he hf hg).symm)
      (fun e he hg hf b a hb ha => ihUndeclared e he hf hg a b ha hb)
  | array comesLeft comesRight _ ih => exact .array comesRight comesLeft ih
  | tuple comesLeft comesRight lengthLeft lengthRight _ ih =>
    exact .tuple comesRight comesLeft lengthRight lengthLeft
      fun i b a w hb ha hw => ih i a b w ha hb hw
  | record comesLeft comesRight plain _ ih => exact .record comesRight comesLeft plain ih
  | others comesLeft comesRight apart left right =>
    exact .others comesRight comesLeft ((pairsParts_comm _ _).trans apart) right left

/-- Nodes that come to the same for a value admit it alike. -/
theorem mono {l' r' : Node} (hl : ∀ core, ComesTo v l core → ComesTo v l' core)
    (hr : ∀ core, ComesTo v r core → ComesTo v r' core)
    (h : BothAdmit ctx absent l r (some v)) : BothAdmit ctx absent l' r' (some v) := by
  cases h with
  | object comesLeft comesRight plain left right shared catchalls undeclared =>
    exact .object (hl _ comesLeft) (hr _ comesRight) plain left right shared catchalls undeclared
  | array comesLeft comesRight each => exact .array (hl _ comesLeft) (hr _ comesRight) each
  | tuple comesLeft comesRight lengthLeft lengthRight each =>
    exact .tuple (hl _ comesLeft) (hr _ comesRight) lengthLeft lengthRight each
  | record comesLeft comesRight plain each =>
    exact .record (hl _ comesLeft) (hr _ comesRight) plain each
  | others comesLeft comesRight apart left right =>
    exact .others (hl _ comesLeft) (hr _ comesRight) apart left right

theorem symm_iff (symmetric : ∀ l r, absent l r → absent r l) {x : Option Value} :
    BothAdmit ctx absent l r x ↔ BothAdmit ctx absent r l x :=
  ⟨symm symmetric, symm symmetric⟩

/-! ### Wrappers -/

theorem optional_left {a : Node} :
    BothAdmit ctx absent (.optional a) r (some v) ↔ BothAdmit ctx absent a r (some v) :=
  ⟨mono (fun _ => comesTo_optional_iff.mp) fun _ => id,
    mono (fun _ => comesTo_optional_iff.mpr) fun _ => id⟩

theorem optional_both {a b : Node} :
    BothAdmit ctx absent (.optional a) (.optional b) (some v) ↔
      BothAdmit ctx absent a b (some v) :=
  ⟨mono (fun _ => comesTo_optional_iff.mp) fun _ => comesTo_optional_iff.mp,
    mono (fun _ => comesTo_optional_iff.mpr) fun _ => comesTo_optional_iff.mpr⟩

theorem nullable_left {a : Node} (hne : v ≠ .null) :
    BothAdmit ctx absent (.nullable a) r (some v) ↔ BothAdmit ctx absent a r (some v) :=
  ⟨mono (fun _ => (comesTo_nullable_iff hne).mp) fun _ => id,
    mono (fun _ => (comesTo_nullable_iff hne).mpr) fun _ => id⟩

theorem nullable_both {a b : Node} (hne : v ≠ .null) :
    BothAdmit ctx absent (.nullable a) (.nullable b) (some v) ↔
      BothAdmit ctx absent a b (some v) :=
  ⟨mono (fun _ => (comesTo_nullable_iff hne).mp) fun _ => (comesTo_nullable_iff hne).mp,
    mono (fun _ => (comesTo_nullable_iff hne).mpr) fun _ => (comesTo_nullable_iff hne).mpr⟩

theorem intersection_left {a b inner : Node} (hm : Merges a b inner) :
    BothAdmit ctx absent (.intersection a b) r (some v) ↔
      BothAdmit ctx absent inner r (some v) :=
  ⟨mono (fun _ => (comesTo_intersection_iff hm).mp) fun _ => id,
    mono (fun _ => (comesTo_intersection_iff hm).mpr) fun _ => id⟩

theorem accepts_right_of_null (h : BothAdmit ctx absent l r (some .null)) :
    Accepts ctx r (some .null) := by
  cases h with
  | others _ comesRight _ _ right => exact comesRight.accepts_iff.mpr right

/-- Next to a node that takes a value as `any` does, what the other accepts is admitted. -/
theorem of_accepts_any (hany : ComesTo v l .any) (h : Accepts ctx r (some v)) :
    BothAdmit ctx absent l r (some v) := by
  obtain ⟨core, hcore⟩ := h.exists_comesTo
  refine .others hany hcore ?_ accepts_any (hcore.accepts_iff.mp h)
  cases core <;> rfl

theorem nullable_null {a : Node} :
    BothAdmit ctx absent (.nullable a) r (some .null) ↔ Accepts ctx r (some .null) :=
  ⟨accepts_right_of_null, of_accepts_any (.null rfl)⟩

theorem any_left : BothAdmit ctx absent .any r (some v) ↔ Accepts ctx r (some v) := by
  refine ⟨fun h => ?_, of_accepts_any (.core rfl)⟩
  cases h with
  | others _ comesRight _ _ right => exact comesRight.accepts_iff.mpr right
  | object comesLeft | array comesLeft | tuple comesLeft | record comesLeft =>
    cases comesLeft.eq_of_core rfl

/-! ### Nodes of one kind -/

theorem array_iff {a b : Node} : BothAdmit ctx absent (.array a) (.array b) (some v) ↔
    ∃ items, v = .array items ∧ ∀ w ∈ items, BothAdmit ctx absent a b (some w) := by
  constructor
  · intro h
    cases h with
    | array comesLeft comesRight each =>
      cases comesLeft.eq_of_core rfl
      cases comesRight.eq_of_core rfl
      exact ⟨_, rfl, each⟩
    | others comesLeft comesRight apart =>
      cases comesLeft.eq_of_core rfl
      cases comesRight.eq_of_core rfl
      cases apart
    | object comesLeft | tuple comesLeft | record comesLeft => cases comesLeft.eq_of_core rfl
  · rintro ⟨items, rfl, each⟩
    exact .array (.core rfl) (.core rfl) each

theorem tuple_iff {as bs : List Node} : BothAdmit ctx absent (.tuple as) (.tuple bs) (some v) ↔
    ∃ items, v = .array items ∧ items.length = as.length ∧ items.length = bs.length ∧
      ∀ (i : Nat) (a b : Node) (w : Value), as[i]? = some a → bs[i]? = some b →
        items[i]? = some w → BothAdmit ctx absent a b (some w) := by
  constructor
  · intro h
    cases h with
    | tuple comesLeft comesRight lengthLeft lengthRight each =>
      cases comesLeft.eq_of_core rfl
      cases comesRight.eq_of_core rfl
      exact ⟨_, rfl, lengthLeft, lengthRight, each⟩
    | others comesLeft comesRight apart =>
      cases comesLeft.eq_of_core rfl
      cases comesRight.eq_of_core rfl
      cases apart
    | object comesLeft | array comesLeft | record comesLeft => cases comesLeft.eq_of_core rfl
  · rintro ⟨items, rfl, lengthLeft, lengthRight, each⟩
    exact .tuple (.core rfl) (.core rfl) lengthLeft lengthRight each

theorem record_iff {a b : Node} : BothAdmit ctx absent (.record a) (.record b) (some v) ↔
    ∃ input, v = .object input ∧ (Value.object input).kind = .object ∧
      ∀ e ∈ input, BothAdmit ctx absent a b (some e.2) := by
  constructor
  · intro h
    cases h with
    | record comesLeft comesRight plain each =>
      cases comesLeft.eq_of_core rfl
      cases comesRight.eq_of_core rfl
      exact ⟨_, rfl, plain, each⟩
    | others comesLeft comesRight apart =>
      cases comesLeft.eq_of_core rfl
      cases comesRight.eq_of_core rfl
      cases apart
    | object comesLeft | array comesLeft | tuple comesLeft => cases comesLeft.eq_of_core rfl
  · rintro ⟨input, rfl, plain, each⟩
    exact .record (.core rfl) (.core rfl) plain each

end BothAdmit

/-- The entries of an object as two declarations of objects admit them, with `both`
for what both check. -/
structure FieldsAdmit (ctx : Context) (both : Node → Node → Option Value → Prop)
    (fs gs : List (String × Node)) (c d : Option Node) (input : Entries Value) : Prop where
  left : ∀ name n, lookup fs name = some n → lookup gs name = none →
    Accepts ctx n (Entries.get? input name)
  right : ∀ name n, lookup fs name = none → lookup gs name = some n →
    Accepts ctx n (Entries.get? input name)
  shared : ∀ name a b, lookup fs name = some a → lookup gs name = some b →
    both a b (Entries.get? input name)
  catchalls : ∀ e ∈ input, lookup fs e.1 = none → lookup gs e.1 = none →
    c.isSome = true ∧ d.isSome = true
  undeclared : ∀ e ∈ input, lookup fs e.1 = none → lookup gs e.1 = none →
    ∀ a b, c = some a → d = some b → both a b (some e.2)

theorem BothAdmit.object_iff {absent : Node → Node → Prop} {fs gs : List (String × Node)}
    {c d : Option Node} : BothAdmit ctx absent (.object fs c) (.object gs d) (some v) ↔
      ∃ input, v = .object input ∧ (Value.object input).kind = .object ∧
        FieldsAdmit ctx (BothAdmit ctx absent) fs gs c d input := by
  constructor
  · intro h
    cases h with
    | object comesLeft comesRight plain left right shared catchalls undeclared =>
      cases comesLeft.eq_of_core rfl
      cases comesRight.eq_of_core rfl
      exact ⟨_, rfl, plain, left, right, shared, catchalls, undeclared⟩
    | others comesLeft comesRight apart =>
      cases comesLeft.eq_of_core rfl
      cases comesRight.eq_of_core rfl
      cases apart
    | array comesLeft | tuple comesLeft | record comesLeft => cases comesLeft.eq_of_core rfl
  · rintro ⟨input, rfl, plain, h⟩
    exact .object (.core rfl) (.core rfl) plain h.left h.right h.shared h.catchalls h.undeclared

/-- Nodes without parts that merge admit what each of them accepts. -/
theorem BothAdmit.cores_iff {absent : Node → Node → Prop} {c d : Node} (hc : c.isCore = true)
    (hd : d.isCore = true) (apart : pairsParts c d = false) :
    BothAdmit ctx absent c d (some v) ↔ Accepts ctx c (some v) ∧ Accepts ctx d (some v) := by
  constructor
  · intro h
    cases h with
    | others comesLeft comesRight _ left right =>
      cases comesLeft.eq_of_core hc
      cases comesRight.eq_of_core hd
      exact ⟨left, right⟩
    | object comesLeft comesRight | array comesLeft comesRight | tuple comesLeft comesRight
      | record comesLeft comesRight =>
      cases comesLeft.eq_of_core hc
      cases comesRight.eq_of_core hd
      cases apart
  · rintro ⟨left, right⟩
    exact .others (.core hc) (.core hd) apart left right

/-! ## Nodes without objects -/

namespace BothAdmit

variable {absent : Node → Node → Prop}

/-- Where there are no objects, both nodes accept what both admit. -/
theorem accepts_both (absence : ∀ l r, absent l r → Accepts ctx l none ∧ Accepts ctx r none)
    {x : Option Value} (h : BothAdmit ctx absent l r x) (hl : Every Flat l) (hr : Every Flat r) :
    Accepts ctx l x ∧ Accepts ctx r x := by
  induction h with
  | absent h => exact absence _ _ h
  | object comesLeft => exact (comesLeft.flat hl).here.elim
  | array comesLeft comesRight _ ih =>
    have ha := (comesLeft.flat hl).inner rfl
    have hb := (comesRight.flat hr).inner rfl
    rw [comesLeft.accepts_iff, comesRight.accepts_iff,
      accepts_array_iff (ha.imp fun _ => Flat.untransformed),
      accepts_array_iff (hb.imp fun _ => Flat.untransformed)]
    exact ⟨⟨_, rfl, fun w hw => (ih w hw ha hb).1⟩, ⟨_, rfl, fun w hw => (ih w hw ha hb).2⟩⟩
  | @tuple _ _ as bs items comesLeft comesRight lengthLeft lengthRight _ ih =>
    have ha : ∀ n ∈ as, Every Flat n := fun n hn => (comesLeft.flat hl).child hn
    have hb : ∀ n ∈ bs, Every Flat n := fun n hn => (comesRight.flat hr).child hn
    rw [comesLeft.accepts_iff, comesRight.accepts_iff,
      accepts_tuple_iff fun n hn => (ha n hn).imp fun _ => Flat.untransformed,
      accepts_tuple_iff fun n hn => (hb n hn).imp fun _ => Flat.untransformed]
    have hlength : as.length = bs.length := lengthLeft.symm.trans lengthRight
    refine ⟨⟨_, rfl, lengthLeft, fun i a w hi hw => ?_⟩,
      ⟨_, rfl, lengthRight, fun i b w hi hw => ?_⟩⟩
    · obtain ⟨b, hb'⟩ : ∃ b, bs[i]? = some b := by
        obtain ⟨hlt, -⟩ := List.getElem?_eq_some_iff.mp hi
        exact ⟨_, List.getElem?_eq_getElem (hlength ▸ hlt)⟩
      exact (ih i a b w hi hb' hw (ha a (List.mem_of_getElem? hi))
        (hb b (List.mem_of_getElem? hb'))).1
    · obtain ⟨a, ha'⟩ : ∃ a, as[i]? = some a := by
        obtain ⟨hlt, -⟩ := List.getElem?_eq_some_iff.mp hi
        exact ⟨_, List.getElem?_eq_getElem (hlength ▸ hlt)⟩
      exact (ih i a b w ha' hi hw (ha a (List.mem_of_getElem? ha'))
        (hb b (List.mem_of_getElem? hi))).2
  | record comesLeft comesRight plain _ ih =>
    have ha := (comesLeft.flat hl).inner rfl
    have hb := (comesRight.flat hr).inner rfl
    rw [comesLeft.accepts_iff, comesRight.accepts_iff, accepts_record_iff, accepts_record_iff]
    exact ⟨⟨_, rfl, plain, fun e he => (ih e he ha hb).1⟩,
      ⟨_, rfl, plain, fun e he => (ih e he ha hb).2⟩⟩
  | others comesLeft comesRight _ left right =>
    exact ⟨comesLeft.accepts_iff.mpr left, comesRight.accepts_iff.mpr right⟩

/-- Where there are no objects, both nodes admit a value that both accept. -/
theorem of_accepts (hl : Every Flat l) (hr : Every Flat r) (left : Accepts ctx l (some v))
    (right : Accepts ctx r (some v)) : BothAdmit ctx absent l r (some v) := by
  induction hsize : sizeOf v using Nat.strongRecOn generalizing v l r with
  | ind size ih =>
  subst hsize
  obtain ⟨c, hc⟩ := left.exists_comesTo
  obtain ⟨d, hd⟩ := right.exists_comesTo
  have hcflat := hc.flat hl
  have hdflat := hd.flat hr
  have left' := hc.accepts_iff.mp left
  have right' := hd.accepts_iff.mp right
  by_cases apart : pairsParts c d = false
  · exact .others hc hd apart left' right'
  unfold pairsParts at apart
  split at apart
  · exact hcflat.here.elim
  · have ha := hcflat.inner rfl
    have hb := hdflat.inner rfl
    obtain ⟨items, rfl, hitems⟩ :=
      (accepts_array_iff (ha.imp fun _ => Flat.untransformed)).mp left'
    obtain ⟨_, ⟨⟩, hitems'⟩ :=
      (accepts_array_iff (hb.imp fun _ => Flat.untransformed)).mp right'
    refine .array hc hd fun w hw => ih (sizeOf w) ?_ ha hb (hitems w hw) (hitems' w hw) rfl
    have := List.sizeOf_lt_of_mem hw
    simp only [Value.array.sizeOf_spec]
    omega
  · next as bs =>
    have ha : ∀ n ∈ as, Every Flat n := fun n hn => hcflat.child hn
    have hb : ∀ n ∈ bs, Every Flat n := fun n hn => hdflat.child hn
    obtain ⟨items, rfl, hlength, hitems⟩ :=
      (accepts_tuple_iff fun n hn => (ha n hn).imp fun _ => Flat.untransformed).mp left'
    obtain ⟨_, ⟨⟩, hlength', hitems'⟩ :=
      (accepts_tuple_iff fun n hn => (hb n hn).imp fun _ => Flat.untransformed).mp right'
    refine .tuple hc hd hlength hlength' fun i a b w hi hi' hw => ?_
    refine ih (sizeOf w) ?_ (ha a (List.mem_of_getElem? hi)) (hb b (List.mem_of_getElem? hi'))
      (hitems i a w hi hw) (hitems' i b w hi' hw) rfl
    have := List.sizeOf_lt_of_mem (List.mem_of_getElem? hw)
    simp only [Value.array.sizeOf_spec]
    omega
  · obtain ⟨input, rfl, plain, hentries⟩ := accepts_record_iff.mp left'
    obtain ⟨_, ⟨⟩, -, hentries'⟩ := accepts_record_iff.mp right'
    refine .record hc hd plain fun e he => ih (sizeOf e.2) ?_ (hcflat.inner rfl)
      (hdflat.inner rfl) (hentries e he) (hentries' e he) rfl
    have := List.sizeOf_lt_of_mem he
    obtain ⟨name, w⟩ := e
    simp only [Value.object.sizeOf_spec, Prod.mk.sizeOf_spec] at this ⊢
    omega
  · exact (apart rfl).elim

end BothAdmit

end Node

end DocSchema

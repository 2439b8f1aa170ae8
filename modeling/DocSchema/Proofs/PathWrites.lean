-- SUMMARY: A `$set` of fitting values at paths of an accepted document keeps it accepted.
import DocSchema.Proofs.Frames
import DocSchema.Proofs.Paths

/-!
# Writing at paths

A write at the end of a path changes one entry or element of each container on the way.
Where the containers are there already and the node for the path accepts the new value,
each of them is still accepted by its own node. Paths of which none begins with another
part at some container, and there one write leaves alone what the other leads into,
provided that an element of an array has one index only.
-/

namespace DocSchema

namespace DotPath

/-- An index is written in one way, as the digits of its number. -/
def IsCanonical (segment : String) : Prop := ∀ i, index? segment = some i → segment = toString i

instance (segment : String) : Decidable (IsCanonical segment) :=
  match h : index? segment with
  | none => isTrue fun i hi => by rw [h] at hi; cases hi
  | some i => decidable_of_iff (segment = toString i)
    ⟨fun heq j hj => by rw [h] at hj; cases hj; exact heq, fun hall => hall i h⟩

theorem IsCanonical.index?_ne {segment other : String} (h : IsCanonical segment)
    (hother : IsCanonical other) (hne : segment ≠ other) {i j : Nat} (hi : index? segment = some i)
    (hj : index? other = some j) : i ≠ j := by
  rintro rfl
  exact hne ((h i hi).trans (hother i hj).symm)

/-- Neither path leads to the other one. -/
def Apart (path other : String) : Prop :=
  ¬ segments path <+: segments other ∧ ¬ segments other <+: segments path

instance (path other : String) : Decidable (Apart path other) :=
  inferInstanceAs (Decidable (_ ∧ _))

theorem not_isOperator_of_editable {path : String} {parts : List String}
    (h : editable path = .ok parts) : ∀ segment ∈ parts, isOperator segment = false := by
  cases eq_segments_of_editable h
  unfold editable at h
  dsimp only at h
  split at h
  · cases h
  · split at h
    · cases h
    · next hnone =>
      simpa only [List.any_eq_true, not_exists, not_and, Bool.not_eq_true] using hnone

end DotPath

namespace Value

variable {v v' w child new : Value} {segment other path : String} {segments rest : List String}

/-! ## One container -/

theorem getElem?_setOrAppend {items : List Value} {i : Nat} (h : i ≤ items.length) (j : Nat) :
    (setOrAppend items i w)[j]? = if i = j then some w else items[j]? := by
  unfold setOrAppend
  split
  · next hlt =>
    rw [List.getElem?_set, if_pos hlt]
  · next hge =>
    obtain rfl : i = items.length := by omega
    rw [List.getElem?_append]
    split
    · next hlt => rw [if_neg (by omega)]
    · next hle =>
      by_cases heq : items.length = j
      · simp [heq]
      · rw [if_neg heq, List.getElem?_eq_none (by simp; omega),
          List.getElem?_eq_none (by omega)]

theorem mem_of_mem_setOrAppend {items : List Value} {i : Nat} {x : Value}
    (h : x ∈ setOrAppend items i w) : x ∈ items ∨ x = w := by
  unfold setOrAppend at h
  split at h
  · exact List.mem_or_eq_of_mem_set h
  · exact (List.mem_append.mp h).imp_right List.mem_singleton.mp

/-- An object with a name that is not marked is no date. -/
theorem kind_insert {fields : Entries Value} (named : DotPath.isOperator segment = false) :
    (Value.object (Entries.insert fields segment w)).kind = .object := by
  refine kind_of_mem (Entries.mem_of_get? (Entries.get?_insert_self fields segment w)) ?_
  rintro text heq
  have hmarked : DotPath.isOperator dateKey = true := by decide
  rw [← (Prod.mk.inj heq).1, named] at hmarked
  cases hmarked

/-- A container and what it is with a value put under a segment. -/
inductive Puts (segment : String) (w : Value) : Value → Value → Prop where
  | entry (fields : Entries Value) :
    Puts segment w (.object fields) (.object (Entries.insert fields segment w))
  | element {items : List Value} {i : Nat} :
    DotPath.index? segment = some i → i ≤ items.length →
      Puts segment w (.array items) (.array (setOrAppend items i w))

theorem Puts.isScalar (h : Puts segment w v v') : v'.isScalar = false := by
  cases h <;> rfl

theorem Puts.isArray (h : Puts segment w v v') : v'.isArray = v.isArray := by
  cases h <;> rfl

theorem Puts.walk?_self (h : Puts segment w v v') : v'.walk? [segment] = some w := by
  cases h with
  | entry fields => rw [walk?_object, Entries.get?_insert_self]
  | element hi hbound =>
    rw [walk?_array, hi, Option.bind_some, getElem?_setOrAppend hbound, if_pos rfl]

/-- What stands under another segment stays; an element of an array, if its index is another. -/
theorem Puts.walk?_other (h : Puts segment w v v') (hne : segment ≠ other)
    (hindex : v.isArray = true → ∀ i, DotPath.index? segment = some i →
      DotPath.index? other ≠ some i) : v'.walk? [other] = v.walk? [other] := by
  cases h with
  | entry fields => rw [walk?_object, walk?_object, Entries.get?_insert_of_ne hne]
  | @element items i hi hbound =>
    rw [walk?_array, walk?_array]
    cases hj : DotPath.index? other with
    | none => rfl
    | some j =>
      have hij : i ≠ j := by
        rintro rfl
        exact hindex rfl i hi hj
      rw [Option.bind_some, Option.bind_some, getElem?_setOrAppend hbound, if_neg hij]

theorem Puts.walk?_of_ne (h : Puts segment w v v') (hne : segment ≠ other)
    (canonical : v.isArray = true → DotPath.IsCanonical segment)
    (canonical' : v.isArray = true → DotPath.IsCanonical other) :
    v'.walk? [other] = v.walk? [other] :=
  h.walk?_other hne fun harray _ hi hj =>
    (canonical harray).index?_ne (canonical' harray) hne hi hj rfl

theorem puts_of_setAt_last (h : setAt path new [segment] v = .done v') : Puts segment new v v' := by
  cases v with
  | object fields =>
    cases h
    exact .entry fields
  | array items =>
    rw [setAt] at h
    cases hi : DotPath.index? segment with
    | none =>
      rw [hi] at h
      cases h
    | some i =>
      rw [hi] at h
      dsimp only at h
      split at h
      · next hbound =>
        cases h
        exact .element hi hbound
      · cases h
  | _ => cases h

/-- A write below a container changes what stands there and puts it back. -/
theorem puts_of_setAt (h : setAt path new (segment :: rest) v = .done v')
    (hchild : v.walk? [segment] = some child) (container : child.isScalar = false) :
    ∃ w, setAt path new rest child = .done w ∧ Puts segment w v v' := by
  cases v with
  | object fields =>
    rw [walk?_object] at hchild
    rw [setAt, hchild, Option.getD_some] at h
    obtain ⟨rfl, hfault⟩ := Edited.mk.inj h
    exact ⟨_, congrArg (Edited.mk _) hfault, .entry fields⟩
  | array items =>
    rw [walk?_array] at hchild
    obtain ⟨i, hi, hget⟩ := Option.bind_eq_some_iff.mp hchild
    have helement : elementOrEmpty items i = child := by
      rw [elementOrEmpty, hget]
      cases child with
      | null => cases container
      | _ => rfl
    rw [setAt, hi] at h
    dsimp only at h
    rw [helement] at h
    split at h
    · next hbound =>
      obtain ⟨rfl, hfault⟩ := Edited.mk.inj h
      exact ⟨_, congrArg (Edited.mk _) hfault, .element hi hbound⟩
    · cases h
  | _ => cases hchild

theorem setAt_of_setPath (h : v.setPath path new = .done v') :
    (∀ segment ∈ DotPath.segments path, DotPath.isOperator segment = false) ∧
      setAt path new (DotPath.segments path) v = .done v' := by
  unfold setPath at h
  split at h
  · next parts hparts =>
    have hnamed := DotPath.not_isOperator_of_editable hparts
    cases DotPath.eq_segments_of_editable hparts
    exact ⟨hnamed, h⟩
  · cases h

/-! ## Whole paths -/

/-- The segments lead through containers that are there, and into the last of them; the
indices of arrays on the way are canonical. -/
inductive Leads : List String → Value → Prop where
  | last {segment : String} {v : Value} : v.isScalar = false →
    (v.isArray = true → DotPath.IsCanonical segment) → Leads [segment] v
  | step {segment : String} {rest : List String} {v child : Value} :
    v.walk? [segment] = some child → (v.isArray = true → DotPath.IsCanonical segment) →
    Leads rest child → Leads (segment :: rest) v

theorem Leads.isScalar (h : Leads segments v) : v.isScalar = false := by
  cases h with
  | last container => exact container
  | step hchild =>
    cases v with
    | object | array => rfl
    | _ => cases hchild

theorem Leads.canonical (h : Leads (segment :: rest) v) :
    v.isArray = true → DotPath.IsCanonical segment := by
  cases h with
  | last _ canonical | step _ canonical => exact canonical

theorem Leads.ne_nil (h : Leads segments v) : segments ≠ [] := by
  cases h <;> exact List.cons_ne_nil _ _

/-- The segments under which elements of arrays are reached are canonical. -/
def IndexedBy (v : Value) (segments : List String) : Prop :=
  ∀ before segment items, before ++ [segment] <+: segments →
    v.walk? before = some (.array items) → DotPath.IsCanonical segment

/-- Segments lead on if their parent is a container. -/
theorem leads_of_walk (hne : segments ≠ []) (hparent : v.walk? segments.dropLast = some child)
    (container : child.isScalar = false)
    (canonical : v.IndexedBy segments) : Leads segments v := by
  induction segments generalizing v with
  | nil => exact (hne rfl).elim
  | cons segment rest ih =>
    have hfirst : v.isArray = true → DotPath.IsCanonical segment := by
      intro harray
      cases v with
      | array items => exact canonical [] segment items (List.prefix_append [segment] rest) rfl
      | _ => cases harray
    cases rest with
    | nil =>
      cases hparent
      exact .last container hfirst
    | cons next more =>
      rw [List.dropLast_cons_cons, walk?_cons] at hparent
      obtain ⟨below, hbelow, hparent⟩ := Option.bind_eq_some_iff.mp hparent
      refine .step hbelow hfirst (ih (List.cons_ne_nil _ _) hparent ?_)
      intro before last items hprefix hitems
      refine canonical (segment :: before) last items (List.cons_prefix_cons.mpr ⟨rfl, hprefix⟩) ?_
      rw [walk?_cons, hbelow]
      exact hitems

/-- A change under another segment leaves the way as it is. -/
theorem Leads.of_puts (h : Leads (other :: rest) v) (puts : Puts segment w v v')
    (hne : segment ≠ other) (canonical : v.isArray = true → DotPath.IsCanonical segment) :
    Leads (other :: rest) v' := by
  have hcanonical : v'.isArray = true → DotPath.IsCanonical other := by
    rw [puts.isArray]
    exact h.canonical
  cases h with
  | last => exact .last puts.isScalar hcanonical
  | step hchild canonical' hrest =>
    exact .step ((puts.walk?_of_ne hne canonical canonical').trans hchild) hcanonical hrest

/-- A write leaves the ways alone that neither begin with its own nor lead to it. -/
theorem Leads.setAt (h : Leads segments v) {others : List String} (hothers : Leads others v)
    (apart : ¬ segments <+: others) (apart' : ¬ others <+: segments)
    (hset : Value.setAt path new segments v = .done v') : Leads others v' := by
  induction h generalizing others v' with
  | @last segment v _ canonical =>
    obtain _ | ⟨other, rest⟩ := others
    · exact (hothers.ne_nil rfl).elim
    · have hne : segment ≠ other := fun heq =>
        apart (List.cons_prefix_cons.mpr ⟨heq, List.nil_prefix⟩)
      exact hothers.of_puts (puts_of_setAt_last hset) hne canonical
  | @step segment tail v child hchild canonical hrest ih =>
    obtain ⟨w, hw, puts⟩ := puts_of_setAt hset hchild hrest.isScalar
    obtain _ | ⟨other, rest⟩ := others
    · exact (hothers.ne_nil rfl).elim
    · by_cases heq : segment = other
      · subst heq
        have hcanonical : v'.isArray = true → DotPath.IsCanonical segment := by
          rwa [puts.isArray]
        cases hothers with
        | last => exact (apart' (List.cons_prefix_cons.mpr ⟨rfl, List.nil_prefix⟩)).elim
        | step hchild' _ hbelow =>
          cases hchild.symm.trans hchild'
          refine .step puts.walk?_self hcanonical (ih hbelow ?_ ?_ hw)
          · exact fun hprefix => apart (List.cons_prefix_cons.mpr ⟨rfl, hprefix⟩)
          · exact fun hprefix => apart' (List.cons_prefix_cons.mpr ⟨rfl, hprefix⟩)
      · exact hothers.of_puts puts heq canonical

end Value

namespace Node

variable {ctx : Context} {n child : Node} {v v' w new : Value} {segment path : String}
  {segments : List String}

/-! ## Schemas -/

/-- A node that looks at its value in one way and leaves it as it is; an object declares
each name once. -/
def Straight : Node → Prop
  | .union _ | .discriminated .. | .intersection .. | .withDefault .. | .transform .. => False
  | .object fields _ => (Entries.keys fields).Nodup
  | _ => True

theorem Straight.untransformed {n : Node} (h : Straight n) : Untransformed n := by
  cases n with
  | transform => exact h
  | _ => trivial

/-- The part of an accepted value under a segment is accepted by the node for it. -/
theorem Accepts.below (h : Accepts ctx n (some v)) (straight : Every Straight n)
    (hchild : n.step? segment = some child) (hw : v.walk? [segment] = some w) :
    Every Straight child ∧ Accepts ctx child (some w) := by
  induction n using Node.inductionOn with
  | object fields catchall =>
    obtain ⟨input, rfl, -⟩ := accepts_object_iff.mp h
    obtain ⟨_, hsome, haccepts⟩ := h.entry (Value.walk?_object.symm.trans hw)
    cases hchild.symm.trans hsome
    refine ⟨?_, haccepts⟩
    rw [step?_object] at hchild
    split at hchild
    · next hdeclared =>
      cases hchild
      exact straight.of_lookup hdeclared
    · subst hchild
      exact straight.catchall
  | record value =>
    obtain ⟨input, rfl, -⟩ := accepts_record_iff.mp h
    rw [step?] at hchild
    cases hchild
    exact ⟨straight.inner rfl, h.record_entry (Value.walk?_object.symm.trans hw)⟩
  | array item =>
    obtain ⟨_, hresult⟩ := id h
    obtain ⟨items, _, ⟨⟩, -⟩ := parses_array_iff.mp hresult
    rw [Value.walk?_array] at hw
    obtain ⟨i, -, hw⟩ := Option.bind_eq_some_iff.mp hw
    rw [step?] at hchild
    split at hchild
    · cases hchild
      exact ⟨straight.inner rfl, h.element (List.mem_of_getElem? hw)⟩
    · cases hchild
  | tuple ns =>
    obtain ⟨_, hresult⟩ := id h
    obtain ⟨items, _, ⟨⟩, -⟩ := parses_tuple_iff.mp hresult
    rw [Value.walk?_array] at hw
    obtain ⟨i, hi, hw⟩ := Option.bind_eq_some_iff.mp hw
    obtain ⟨_, hsome, haccepts⟩ := h.position hw
    rw [step?, positionOf?, hi] at hchild
    cases hsome.symm.trans hchild
    exact ⟨straight.child (List.mem_of_getElem? hsome), haccepts⟩
  | optional inner ih =>
    rw [step?] at hchild
    exact ih (accepts_optional_some.mp h) (straight.inner rfl) hchild
  | nullable inner ih =>
    have hne : some v ≠ some .null := by
      rintro ⟨⟩
      cases hw
    rw [step?] at hchild
    exact ih ((accepts_nullable_iff hne).mp h) (straight.inner rfl) hchild
  | any =>
    rw [step?] at hchild
    cases hchild
    exact ⟨straight, accepts_any⟩
  | union | discriminated | intersection | withDefault | transform => exact straight.here.elim
  | _ => simp [step?] at hchild

/-- An accepted container takes a value under a segment that the node for it accepts. An
object stays one, since no path leads to the entry of a date. -/
theorem Accepts.puts (h : Accepts ctx n (some v)) (straight : Every Straight n)
    (hchild : n.step? segment = some child) (hw : Accepts ctx child (some w))
    (named : DotPath.isOperator segment = false) (puts : Value.Puts segment w v v') :
    Accepts ctx n (some v') := by
  induction n using Node.inductionOn with
  | object fields catchall =>
    obtain ⟨_, rfl, -, declared, others⟩ := accepts_object_iff.mp h
    cases puts
    rw [step?_object] at hchild
    refine accepts_object_iff.mpr ⟨_, rfl, Value.kind_insert named, fun f hf => ?_, fun e he hundeclared => ?_⟩
    · by_cases hname : segment = f.1
      · have hdeclared := Entries.get?_of_mem straight.here hf
        rw [hname, hdeclared] at hchild
        cases hchild
        rw [hname, Entries.get?_insert_self]
        exact hw
      · rw [Entries.get?_insert_of_ne hname]
        exact declared f hf
    · rcases Entries.mem_insert he with rfl | he
      · rw [show Entries.get? fields segment = none from hundeclared] at hchild
        exact ⟨child, hchild, hw⟩
      · exact others e he hundeclared
  | record value =>
    obtain ⟨_, rfl, -, each⟩ := accepts_record_iff.mp h
    cases puts
    rw [step?] at hchild
    cases hchild
    refine accepts_record_iff.mpr ⟨_, rfl, Value.kind_insert named, fun e he => ?_⟩
    rcases Entries.mem_insert he with rfl | he
    · exact hw
    · exact each e he
  | array item =>
    have hitem := (straight.inner rfl).imp fun _ => Straight.untransformed
    obtain ⟨items, rfl, each⟩ := (accepts_array_iff hitem).mp h
    obtain - | ⟨hi, hbound⟩ := puts
    rw [step?] at hchild
    split at hchild
    · cases hchild
      refine (accepts_array_iff hitem).mpr ⟨_, rfl, fun x hx => ?_⟩
      rcases Value.mem_of_mem_setOrAppend hx with hx | rfl
      · exact each x hx
      · exact hw
    · cases hchild
  | tuple ns =>
    have hitems : ∀ n ∈ ns, Every Untransformed n :=
      fun n hn => (straight.child hn).imp fun _ => Straight.untransformed
    obtain ⟨items, rfl, hlength, each⟩ := (accepts_tuple_iff hitems).mp h
    obtain - | ⟨hi, hbound⟩ := puts
    rw [step?, positionOf?, hi] at hchild
    have hlt := (List.getElem?_eq_some_iff.mp hchild).1
    refine (accepts_tuple_iff hitems).mpr ⟨_, rfl, ?_, fun j m x hm hx => ?_⟩
    · rw [Value.setOrAppend, if_pos (hlength ▸ hlt), List.length_set, hlength]
    · rw [Value.getElem?_setOrAppend hbound] at hx
      split at hx
      · next heq =>
        subst heq
        cases hx
        cases hchild.symm.trans hm
        exact hw
      · exact each j m x hm hx
  | optional inner ih =>
    rw [step?] at hchild
    exact accepts_optional_some.mpr
      (ih (accepts_optional_some.mp h) (straight.inner rfl) hchild)
  | nullable inner ih =>
    have hne : some v ≠ some .null := by
      rintro ⟨⟩
      cases puts
    have hne' : some v' ≠ some .null := by
      rintro ⟨⟩
      cases puts
    rw [step?] at hchild
    exact (accepts_nullable_iff hne').mpr
      (ih ((accepts_nullable_iff hne).mp h) (straight.inner rfl) hchild)
  | any => exact accepts_any
  | union | discriminated | intersection | withDefault | transform => exact straight.here.elim
  | _ => simp [step?] at hchild

/-! ## Writes -/

/-- A write of a value that the node for its path accepts, into containers that are there. -/
theorem Accepts.setAt (h : Accepts ctx n (some v)) (straight : Every Straight n)
    (hchild : n.walk? segments = some child) (hnew : Accepts ctx child (some new))
    (named : ∀ segment ∈ segments, DotPath.isOperator segment = false)
    (leads : Value.Leads segments v) (hset : Value.setAt path new segments v = .done v') :
    Accepts ctx n (some v') := by
  induction leads generalizing n v' with
  | last =>
    rw [walk?] at hchild
    obtain ⟨_, hstep, ⟨⟩⟩ := Option.bind_eq_some_iff.mp hchild
    exact h.puts straight hstep hnew (named _ List.mem_cons_self) (Value.puts_of_setAt_last hset)
  | step hbelow _ hrest ih =>
    obtain ⟨hsegment, hnamed⟩ := List.forall_mem_cons.mp named
    rw [walk?] at hchild
    obtain ⟨next, hnext, hchild⟩ := Option.bind_eq_some_iff.mp hchild
    obtain ⟨w, hw, puts⟩ := Value.puts_of_setAt hset hbelow hrest.isScalar
    obtain ⟨hstraight, haccepts⟩ := h.below straight hnext hbelow
    exact h.puts straight hnext (ih haccepts hstraight hchild hnamed hw) hsegment puts

/-- Writes at paths that part from each other, of values that the nodes for the paths accept. -/
theorem Accepts.payload {inserting : Bool} {payload : Entries Value} (h : Accepts ctx n (some v))
    (straight : Every Straight n)
    (apart : payload.Pairwise fun a b => DotPath.Apart a.1 b.1)
    (fits : ∀ e ∈ payload, ∃ child, n.walk? (DotPath.segments e.1) = some child ∧
      Accepts ctx child (some e.2))
    (leads : ∀ e ∈ payload, Value.Leads (DotPath.segments e.1) v)
    (applied : Apply.payload inserting "$set" v payload = .done v') : Accepts ctx n (some v') := by
  induction payload generalizing v with
  | nil =>
    cases applied
    exact h
  | cons e rest ih =>
    obtain ⟨path, new⟩ := e
    obtain ⟨hapart, hrestApart⟩ := List.pairwise_cons.mp apart
    obtain ⟨⟨child, hchild, hnew⟩, hrestFits⟩ := List.forall_mem_cons.mp fits
    obtain ⟨hlead, hrestLeads⟩ := List.forall_mem_cons.mp leads
    rw [Apply.payload] at applied
    obtain ⟨next, hnext, happlied⟩ := Edited.andThen_eq_done_iff.mp applied
    obtain ⟨hnamed, hset⟩ := Value.setAt_of_setPath hnext
    refine ih (h.setAt straight hchild hnew hnamed hlead hset) hrestApart hrestFits ?_ happlied
    intro e he
    exact hlead.setAt (hrestLeads e he) (hapart e he).1 (hapart e he).2 hset

/-- A `$set` of values that fit at paths into containers that are there keeps a document of
a straight schema accepted, if none of its paths begins with another one. -/
theorem set_keeps_accepted {root : Node} {s : UpdateSchema} {document after : Value}
    {payload : Entries Value} {inserting : Bool} (straight : Every Straight root)
    (relaxed : root.relaxed = .ok s) (accepted : (root.parseDocument document ctx).isOk = true)
    (apart : payload.Pairwise fun a b => DotPath.Apart a.1 b.1)
    (fits : ∀ e ∈ payload, ∃ n, s.baseNodeFor? e.1 = some n ∧
      (n.parser (some e.2) ctx .root).isOk = true)
    (parents : ∀ e ∈ payload, ∃ container,
      document.walk? (DotPath.segments e.1).dropLast = some container ∧ container.isScalar = false)
    (canonical : ∀ e ∈ payload, document.IndexedBy (DotPath.segments e.1))
    (applied : (Apply.modifier document (.object [("$set", .object payload)]) inserting).result =
      .ok after) :
    (root.parseDocument after ctx).isOk = true := by
  have hroot : root = .object s.base s.catchall := by
    rcases relaxed_eq_ok relaxed with hroot | ⟨_, _, rfl, -⟩
    · exact hroot
    · exact straight.here.elim
  subst hroot
  obtain ⟨parsed, hparsed⟩ := Outcome.isOk_iff.mp accepted
  have hdone : Apply.payload inserting "$set" document payload = .done after := by
    rw [← Apply.andThen_done (Apply.payload inserting "$set" document payload)]
    exact Edited.result_eq_ok_iff.mp applied
  have haccepts : Accepts ctx (.object s.base s.catchall) (some after) := by
    refine Accepts.payload ⟨_, parseDocument_eq_ok_iff.mp hparsed⟩ straight apart ?_ ?_ hdone
    · intro e he
      obtain ⟨child, hchild, hfits⟩ := fits e he
      exact ⟨child, hchild, isOk_parser_iff.mp hfits⟩
    · intro e he
      obtain ⟨container, hcontainer, hscalar⟩ := parents e he
      obtain ⟨rest, hsegments⟩ := DotPath.segments_eq_cons e.1
      refine Value.leads_of_walk ?_ hcontainer hscalar (canonical e he)
      rw [hsegments]
      exact List.cons_ne_nil _ _
  obtain ⟨result, hresult⟩ := haccepts
  obtain ⟨_, _, _, -, -, -, -, rfl⟩ := parses_object_iff.mp hresult
  exact Outcome.isOk_iff.mpr ⟨_, parseDocument_eq_ok_iff.mpr hresult⟩

/-- A person by name, with tags. -/
def card : List (String × Node) :=
  [("name", .object [("first", .optional Field.nonEmptyString)] none),
    ("tags", .array Field.nonEmptyString)]

/-- A name to be filled in and a tag to be appended. -/
def cardChanges : Entries Value := [("name.first", .string "Ada"), ("tags.1", .string "y")]

theorem straight_card : Every Straight (.object card none) := by
  have text : Every Straight Field.nonEmptyString := .of_leaf trivial rfl
  have name : Every Straight (.object [("first", .optional Field.nonEmptyString)] none) :=
    .of_object (by simp [Straight, Entries.keys])
      (List.forall_mem_singleton.mpr (.of_inner trivial rfl text)) (by simp)
  refine .of_object (by simp [Straight, card, Entries.keys]) ?_ (by simp)
  exact List.forall_mem_cons.mpr ⟨name, List.forall_mem_singleton.mpr (.of_inner trivial rfl text)⟩

theorem cardChanges_fit : ∀ e ∈ cardChanges, ∃ n,
    UpdateSchema.baseNodeFor? ⟨card, none⟩ e.1 = some n ∧
      (n.parser (some e.2) .detached .root).isOk = true := by
  refine List.forall_mem_cons.mpr ⟨⟨.optional Field.nonEmptyString, ?_, ?_⟩,
    List.forall_mem_singleton.mpr ⟨Field.nonEmptyString, ?_, ?_⟩⟩
  · have hsegments : DotPath.segments "name.first" = ["name", "first"] := by decide
    simp [UpdateSchema.baseNodeFor?, hsegments, card, walk?, step?_object, Entries.get?]
  · simp only [Field.nonEmptyString, parser]
    rfl
  · have hsegments : DotPath.segments "tags.1" = ["tags", "1"] := by decide
    have helement : DotPath.isElement "1" = true := by decide
    simp [UpdateSchema.baseNodeFor?, hsegments, card, walk?, step?_object, step?, helement,
      Entries.get?]
  · simp only [Field.nonEmptyString, parser]
    rfl

/-- Both changes go into containers that are there. -/
theorem card_stays_accepted : ((Node.object card none).parseDocument
    (.object [("name", .object [("first", .string "Ada")]),
      ("tags", .array [.string "x", .string "y"])]) .detached).isOk = true := by
  have haccepted : ((Node.object card none).parseDocument
      (.object [("name", .empty), ("tags", .array [.string "x"])]) .detached).isOk = true := by
    simp only [parseDocument, card, Field.nonEmptyString, parser, List.map]
    rfl
  have hapart : cardChanges.Pairwise fun a b => DotPath.Apart a.1 b.1 := by decide
  have hcanonical : ∀ e ∈ cardChanges, ∀ segment ∈ DotPath.segments e.1,
      DotPath.IsCanonical segment := by decide
  refine set_keeps_accepted straight_card rfl haccepted hapart cardChanges_fit ?_ ?_
    (show (Apply.modifier _ _ false).result = _ from rfl)
  · exact List.forall_mem_cons.mpr ⟨⟨_, rfl, rfl⟩, List.forall_mem_singleton.mpr ⟨_, rfl, rfl⟩⟩
  · exact fun e he _ segment _ hbefore _ => hcanonical e he segment (hbefore.subset (by simp))

end Node

end DocSchema

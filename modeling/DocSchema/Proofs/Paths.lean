-- SUMMARY: Paths through schemas and through documents lead to nodes and values that fit.
import DocSchema.Proofs.Acceptance
import DocSchema.Proofs.Agreement
import DocSchema.Schema.Field
import DocSchema.Store.Selector
import DocSchema.Update.Relax

/-!
# Paths

A dotted path is followed twice: through a document by its entries and elements, and
through a schema by the nodes for them. Where the schema accepts the document and both
walks read a segment alike, the walk through the schema keeps up with the one through the
document, and the node that it comes to accepts the value that stands there.
-/

namespace DocSchema

namespace DotPath

/-- Segments that documents and schemas read alike. A sign before the digits of an index
is read in documents alone, and operators mark dates. -/
def IsPlain (segment : String) : Prop :=
  isOperator segment = false ∧ segment.toList.head? ≠ some '+'

instance (segment : String) : Decidable (IsPlain segment) := inferInstanceAs (Decidable (_ ∧ _))

/-- An index without a sign stands for an element of an array. -/
theorem isElement_of_index? {segment : String} {i : Nat}
    (unsigned : segment.toList.head? ≠ some '+') (h : index? segment = some i) :
    isElement segment = true := by
  unfold index? at h
  unfold isElement
  cases hchars : segment.toList with
  | nil => simp [hchars] at h
  | cons c cs =>
    have hdigits : (c :: cs).all Char.isDigit = true := by
      rw [hchars] at h unsigned
      dsimp only at h
      split at h
      · next _ _ heq => exact (unsigned (by rw [heq]; rfl)).elim
      · split at h
        · cases h
        · next hsome => exact not_not.mp (not_or.mp hsome).2
    have hmark : c ≠ '$' := by
      rintro rfl
      simp at hdigits
    split
    · next heq => cases heq
    · next heq => exact (hmark (List.cons.inj heq).1).elim
    · next heq => exact (hmark (List.cons.inj heq).1).elim
    · next heq => exact (hmark (List.cons.inj heq).1).elim
    · exact hdigits

end DotPath

namespace Value

variable {v w : Value} {segment : String}

/-! ## Values at the ends of paths -/

theorem walk?_cons {rest : List String} :
    v.walk? (segment :: rest) = (v.walk? [segment]).bind fun child => child.walk? rest := by
  cases v with
  | object fields =>
    rw [walk?, walk?]
    cases Entries.get? fields segment <;> rfl
  | array items =>
    rw [walk?, walk?]
    cases (DotPath.index? segment).bind fun i => items[i]? <;> rfl
  | _ => rfl

theorem walk?_object {fields : Entries Value} :
    (Value.object fields).walk? [segment] = Entries.get? fields segment := by
  rw [walk?]
  cases Entries.get? fields segment <;> rfl

theorem walk?_array {items : List Value} :
    (Value.array items).walk? [segment] = (DotPath.index? segment).bind fun i => items[i]? := by
  rw [walk?]
  cases (DotPath.index? segment).bind fun i => items[i]? <;> rfl

/-- Nothing stands below a scalar. -/
theorem walk?_scalar (h : v.isScalar = true) : v.walk? [segment] = none := by
  cases v with
  | object | array => cases h
  | _ => rfl

theorem isScalar_of_alike {expected : Value} (scalar : expected.isScalar = true)
    (h : expected.alike v = true) : v.isScalar = true := by
  cases v with
  | object | array =>
    cases expected with
    | object | array => cases scalar
    | _ => simp [alike, BEq.beq, beq] at h
  | _ => rfl

theorem isScalar_of_kind (h : v.kind ≠ .array ∧ v.kind ≠ .object ∧ v.kind ≠ .date) :
    v.isScalar = true := by
  cases v with
  | array => exact (h.1 rfl).elim
  | object => exact (h.2.1 (kind_object h.2.2)).elim
  | _ => rfl

/-- The one entry of a date is marked as an operator. -/
theorem walk?_date (h : v.kind = .date) (plain : DotPath.IsPlain segment) :
    v.walk? [segment] = none := by
  cases v with
  | object fields =>
    obtain ⟨text, rfl⟩ := eq_of_kind_date h
    rw [walk?_object, Entries.get?_cons, if_neg, Entries.get?_nil]
    intro heq
    have hmarked : DotPath.isOperator dateKey = true := by decide
    rw [show dateKey = segment from heq, plain.1] at hmarked
    cases hmarked
  | array => cases h
  | _ => rfl

end Value

namespace Node

variable {P : Node → Prop} {ctx : Context} {n child : Node} {v w : Value} {segment : String}

/-! ## Nodes at the ends of paths -/

theorem step?_object {fields : List (String × Node)} {catchall : Option Node} (name : String) :
    (object fields catchall).step? name =
      match Entries.get? fields name with
      | some n => some n
      | none => catchall := by
  rw [step?, lookup]
  cases Entries.get? fields name <;> rfl

theorem Every.of_unionOf? (unions : ∀ ns, P (.union ns)) {ns : List Node}
    (h : ∀ n ∈ ns, Every P n) (hn : unionOf? ns = some n) : Every P n := by
  unfold unionOf? at hn
  split at hn
  · cases hn
  · cases hn
    exact h _ (List.mem_singleton.mpr rfl)
  · cases hn
    exact .intro (unions _) h

/-- A step goes to a node of the tree, to a merged one, or to a union of such nodes. -/
theorem Every.of_step (kept : KeptByMerging P) (unions : ∀ ns, P (.union ns)) (h : Every P n)
    (hchild : n.step? segment = some child) : Every P child := by
  induction n using Node.inductionOn generalizing child with
  | object fields catchall =>
    rw [step?] at hchild
    cases hdeclared : lookup fields segment with
    | some n =>
      rw [hdeclared] at hchild
      cases hchild
      exact h.of_lookup hdeclared
    | none =>
      rw [hdeclared] at hchild
      have hcatchall : catchall = some child := hchild
      subst hcatchall
      exact h.catchall
  | array item =>
    rw [step?] at hchild
    split at hchild
    · cases hchild
      exact h.inner rfl
    · cases hchild
  | tuple items =>
    rw [step?, positionOf?] at hchild
    split at hchild
    · exact h.child (List.mem_of_getElem? hchild)
    · split at hchild
      · cases hchild
        exact .intro (unions _) fun item => h.child
      · cases hchild
  | union options ih | discriminated _ options ih =>
    rw [step?] at hchild
    refine .of_unionOf? unions (fun n hn => ?_) hchild
    obtain ⟨option, hoption, hstep⟩ := List.mem_filterMap.mp hn
    exact ih option hoption (h.child hoption) hstep
  | intersection left right ih =>
    rw [step?] at hchild
    split at hchild
    · next merged hmerged =>
      have hmerges := intersect_eq_ok_iff.mp hmerged
      exact ih merged hmerges (h.merged kept hmerges) hchild
    · cases hchild
  | record =>
    rw [step?] at hchild
    cases hchild
    exact h.inner rfl
  | optional _ ih | nullable _ ih | withDefault _ _ ih | transform _ _ _ ih =>
    rw [step?] at hchild
    exact ih (h.inner rfl) hchild
  | any =>
    rw [step?] at hchild
    cases hchild
    exact h
  | _ => simp [step?] at hchild

theorem Every.of_walk (kept : KeptByMerging P) (unions : ∀ ns, P (.union ns))
    {path : List String} (h : Every P n) (hchild : n.walk? path = some child) :
    Every P child := by
  induction path generalizing n with
  | nil =>
    cases hchild
    exact h
  | cons segment rest ih =>
    obtain ⟨next, hnext, hrest⟩ := Option.bind_eq_some_iff.mp hchild
    exact ih (h.of_step kept unions hnext) hrest

theorem step?_intersection {l r m : Node} (h : Merges l r m) (segment : String) :
    (intersection l r).step? segment = m.step? segment := by
  rw [step?]
  split
  · next merged hmerged => rw [h.unique (intersect_eq_ok_iff.mp hmerged)]
  · next _ herror => cases (intersect_eq_ok_iff.mpr h).symm.trans herror

/-! ## Parts of containers -/

/-- The entries of an accepted object are accepted, each by the node for its name. -/
theorem Accepts.entry {fields : List (String × Node)} {catchall : Option Node}
    {input : Entries Value} (h : Accepts ctx (.object fields catchall) (some (.object input)))
    (hw : Entries.get? input segment = some w) :
    ∃ child, (object fields catchall).step? segment = some child ∧
      Accepts ctx child (some w) := by
  obtain ⟨_, ⟨⟩, -, declared, others⟩ := accepts_object_iff.mp h
  rw [step?_object]
  cases hdeclared : Entries.get? fields segment with
  | some child =>
    have haccepts := declared _ (Entries.mem_of_get? hdeclared)
    rw [hw] at haccepts
    exact ⟨child, rfl, haccepts⟩
  | none => exact others _ (Entries.mem_of_get? hw) hdeclared

theorem Accepts.record_entry {value : Node} {input : Entries Value}
    (h : Accepts ctx (.record value) (some (.object input)))
    (hw : Entries.get? input segment = some w) : Accepts ctx value (some w) := by
  obtain ⟨_, ⟨⟩, -, each⟩ := accepts_record_iff.mp h
  exact each _ (Entries.mem_of_get? hw)

theorem Accepts.element {item : Node} {items : List Value}
    (h : Accepts ctx (.array item) (some (.array items))) (hw : w ∈ items) :
    Accepts ctx item (some w) := by
  obtain ⟨_, hresult⟩ := h
  obtain ⟨_, parsed, ⟨⟩, hparsed, -⟩ := parses_array_iff.mp hresult
  obtain ⟨r, hr⟩ := exists_forall₂_iff.mp ⟨parsed, hparsed⟩ w hw
  exact ⟨_, hr⟩

theorem Accepts.position {ns : List Node} {items : List Value} {i : Nat}
    (h : Accepts ctx (.tuple ns) (some (.array items))) (hw : items[i]? = some w) :
    ∃ child, ns[i]? = some child ∧ Accepts ctx child (some w) := by
  obtain ⟨_, hresult⟩ := h
  obtain ⟨_, parsed, ⟨⟩, hlength, hparsed, -⟩ := parses_tuple_iff.mp hresult
  have hi : i < ns.length := hlength ▸ (List.getElem?_eq_some_iff.mp hw).1
  have hmem : (ns[i], w) ∈ ns.zip items :=
    List.mem_of_getElem? (List.getElem?_zip_eq_some.mpr ⟨List.getElem?_eq_getElem hi, hw⟩)
  obtain ⟨r, hr⟩ := exists_forall₂_iff.mp ⟨parsed, hparsed⟩ _ hmem
  exact ⟨ns[i], List.getElem?_eq_getElem hi, _, hr⟩

/-! ## One segment -/

/-- No literal is an array or an object. -/
def ScalarLiterals : Node → Prop
  | .literal expected => expected.isScalar = true
  | _ => True

theorem keptByMerging_scalarLiterals : KeptByMerging ScalarLiterals := by
  refine ⟨fun n hn => ?_, fun _ _ _ _ _ _ => trivial, fun _ _ _ _ _ _ _ => trivial⟩
  cases n with
  | literal => cases hn
  | _ => trivial

/-- A plain segment leads nowhere in a value that a leaf accepts. -/
theorem Accepts.walk?_leaf (h : Accepts ctx n (some v)) (leaf : n.isLeaf = true) (hany : n ≠ .any)
    (scalars : ScalarLiterals n) (plain : DotPath.IsPlain segment) :
    v.walk? [segment] = none := by
  obtain ⟨result, hresult⟩ := h
  cases n with
  | string =>
    obtain ⟨_, ⟨⟩, -⟩ := parses_string_iff.mp hresult
    rfl
  | number =>
    obtain ⟨_, ⟨⟩, -⟩ := parses_number_iff.mp hresult
    rfl
  | enum =>
    obtain ⟨_, ⟨⟩, -⟩ := parses_enum_iff.mp hresult
    rfl
  | literal =>
    obtain ⟨_, ⟨⟩, halike, -⟩ := parses_literal_iff.mp hresult
    exact Value.walk?_scalar (Value.isScalar_of_alike scalars halike)
  | boolean =>
    obtain ⟨_, ⟨⟩, hkind, -⟩ := parses_boolean_iff.mp hresult
    exact Value.walk?_scalar (Value.isScalar_of_kind (by simp [hkind]))
  | null =>
    obtain ⟨_, ⟨⟩, hkind, -⟩ := parses_null_iff.mp hresult
    exact Value.walk?_scalar (Value.isScalar_of_kind (by simp [hkind]))
  | date =>
    obtain ⟨_, ⟨⟩, hkind, -⟩ := parses_date_iff.mp hresult
    exact Value.walk?_date hkind plain
  | any => exact (hany rfl).elim
  | never => exact (not_parses_never hresult).elim
  | _ => cases leaf

theorem accepts_union_iff {options : List Node} {x : Option Value} :
    Accepts ctx (.union options) x ↔ ∃ option ∈ options, Accepts ctx option x :=
  exists_parses_union_iff

/-- The union of some nodes accepts what one of them does. -/
theorem Accepts.unionOf? {ns : List Node} {x : Option Value} (hn : n ∈ ns)
    (h : Accepts ctx n x) : ∃ m, unionOf? ns = some m ∧ Accepts ctx m x := by
  unfold Node.unionOf?
  split
  · cases hn
  · rw [← List.mem_singleton.mp hn]
    exact ⟨n, rfl, h⟩
  · exact ⟨_, rfl, accepts_union_iff.mpr ⟨n, hn, h⟩⟩

/-- Where a document has something under a segment, the schema has a node for it that
accepts what is there. -/
theorem Accepts.step (h : Accepts ctx n (some v)) (scalars : Every ScalarLiterals n)
    (plain : DotPath.IsPlain segment) (hw : v.walk? [segment] = some w) :
    ∃ child, n.step? segment = some child ∧ Accepts ctx child (some w) := by
  induction n using Node.inductionOn with
  | object fields catchall =>
    obtain ⟨input, rfl, -⟩ := accepts_object_iff.mp h
    exact h.entry (Value.walk?_object.symm.trans hw)
  | record value =>
    obtain ⟨input, rfl, -⟩ := accepts_record_iff.mp h
    exact ⟨value, by rw [step?], h.record_entry (Value.walk?_object.symm.trans hw)⟩
  | array item =>
    obtain ⟨_, hresult⟩ := id h
    obtain ⟨items, _, ⟨⟩, -⟩ := parses_array_iff.mp hresult
    rw [Value.walk?_array] at hw
    obtain ⟨i, hi, hw⟩ := Option.bind_eq_some_iff.mp hw
    refine ⟨item, ?_, h.element (List.mem_of_getElem? hw)⟩
    rw [step?, if_pos (DotPath.isElement_of_index? plain.2 hi)]
  | tuple ns =>
    obtain ⟨_, hresult⟩ := id h
    obtain ⟨items, _, ⟨⟩, -⟩ := parses_tuple_iff.mp hresult
    rw [Value.walk?_array] at hw
    obtain ⟨i, hi, hw⟩ := Option.bind_eq_some_iff.mp hw
    obtain ⟨child, hchild, haccepts⟩ := h.position hw
    refine ⟨child, ?_, haccepts⟩
    rw [step?, positionOf?, hi]
    exact hchild
  | union options ih =>
    obtain ⟨option, hoption, haccepts⟩ := accepts_union_iff.mp h
    obtain ⟨child, hchild, hchildAccepts⟩ := ih option hoption haccepts (scalars.child hoption)
    rw [step?]
    exact hchildAccepts.unionOf? (List.mem_filterMap.mpr ⟨option, hoption, hchild⟩)
  | discriminated key options ih =>
    obtain ⟨result, hresult⟩ := h
    obtain ⟨_, _, option, -, -, -, hchosen, hresult⟩ := parses_discriminated_iff.mp hresult
    have hoption := List.mem_of_find?_eq_some hchosen
    obtain ⟨child, hchild, hchildAccepts⟩ :=
      ih option hoption ⟨result, hresult⟩ (scalars.child hoption)
    rw [step?]
    exact hchildAccepts.unionOf? (List.mem_filterMap.mpr ⟨option, hoption, hchild⟩)
  | intersection left right ih =>
    obtain ⟨result, hresult⟩ := h
    obtain ⟨merged, hm, hresult⟩ := parses_intersection_iff.mp hresult
    rw [step?_intersection hm]
    exact ih merged hm ⟨result, hresult⟩ (scalars.merged keptByMerging_scalarLiterals hm)
  | optional inner ih =>
    rw [step?]
    exact ih (accepts_optional_some.mp h) (scalars.inner rfl)
  | nullable inner ih =>
    have hne : some v ≠ some .null := by
      rintro ⟨⟩
      cases hw
    rw [step?]
    exact ih ((accepts_nullable_iff hne).mp h) (scalars.inner rfl)
  | withDefault inner default ih =>
    obtain ⟨result, hresult⟩ := h
    rw [step?]
    exact ih ⟨result, parses_withDefault_some.mp hresult⟩ (scalars.inner rfl)
  | transform inner facet apply ih =>
    obtain ⟨result, hresult⟩ := h
    obtain ⟨parsed, hparsed, -⟩ := parses_transform_iff.mp hresult
    rw [step?]
    exact ih ⟨parsed, hparsed⟩ (scalars.inner rfl)
  | any => exact ⟨.any, by rw [step?], accepts_any⟩
  | _ =>
    rw [h.walk?_leaf rfl (by rintro ⟨⟩) scalars.here plain] at hw
    cases hw

/-! ## Whole paths -/

/-- The walk through the schema keeps up with the one through the document. -/
theorem Accepts.walk {path : List String} (h : Accepts ctx n (some v))
    (scalars : Every ScalarLiterals n) (plain : ∀ segment ∈ path, DotPath.IsPlain segment)
    (hw : v.walk? path = some w) :
    ∃ child, n.walk? path = some child ∧ Accepts ctx child (some w) := by
  induction path generalizing n v with
  | nil =>
    cases hw
    exact ⟨n, rfl, h⟩
  | cons segment rest ih =>
    obtain ⟨hsegment, hrest⟩ := List.forall_mem_cons.mp plain
    rw [Value.walk?_cons] at hw
    obtain ⟨next, hnext, hw⟩ := Option.bind_eq_some_iff.mp hw
    obtain ⟨below, hbelow, haccepts⟩ := h.step scalars hsegment hnext
    have hscalars := scalars.of_step keptByMerging_scalarLiterals (fun _ => trivial) hbelow
    obtain ⟨child, hchild, hchildAccepts⟩ := ih haccepts hscalars hrest hw
    exact ⟨child, by rw [walk?, hbelow]; exact hchild, hchildAccepts⟩

/-- What an accepted document has at the end of a path, the schema has a node for, and the
node accepts it. -/
theorem accepts_lookup {root : Node} {s : UpdateSchema} {document found : Value} {path : String}
    (scalars : Every ScalarLiterals root) (relaxed : root.relaxed = .ok s)
    (accepted : (root.parseDocument document ctx).isOk = true)
    (plain : ∀ segment ∈ DotPath.segments path, DotPath.IsPlain segment)
    (hfound : document.lookup? path = some found) :
    ∃ n, s.baseNodeFor? path = some n ∧
      ∀ place, (n.parser (some found) ctx place).isOk = true := by
  have hroot := relaxed_eq_ok relaxed
  obtain ⟨parsed, hparsed⟩ := Outcome.isOk_iff.mp accepted
  have haccepts : Accepts ctx (.object s.base s.catchall) (some document) :=
    ⟨_, hroot.parses_iff.mp (parseDocument_eq_ok_iff.mp hparsed)⟩
  obtain ⟨n, hn, hfits⟩ := haccepts.walk (hroot.every keptByMerging_scalarLiterals scalars) plain
    hfound
  exact ⟨n, hn, fun _ => isOk_parser_iff.mpr hfits⟩

/-- A payment by card or from an account. -/
def paidBy : Node :=
  .union [.object [("card", Field.nonEmptyString)] none,
    .object [("account", Field.nonEmptyString)] none]

/-- The path leads through the option for the account alone. -/
theorem account_found : ∃ n, UpdateSchema.baseNodeFor? ⟨[("paid", paidBy)], none⟩ "paid.account" =
      some n ∧
    ∀ place, (n.parser (some (.string "K1")) .detached place).isOk = true := by
  have hscalars : Every ScalarLiterals (.object [("paid", paidBy)] none) := by
    have option (name : String) :
        Every ScalarLiterals (.object [(name, Field.nonEmptyString)] none) :=
      .of_object trivial (List.forall_mem_singleton.mpr (.of_leaf trivial rfl)) (by simp)
    have hpaid : Every ScalarLiterals paidBy :=
      .intro trivial (List.forall_mem_cons.mpr ⟨option _, List.forall_mem_singleton.mpr (option _)⟩)
    exact .of_object trivial (List.forall_mem_singleton.mpr hpaid) (by simp)
  have haccepted : ((Node.object [("paid", paidBy)] none).parseDocument
      (.object [("paid", .object [("account", .string "K1")])]) .detached).isOk = true := by
    simp only [parseDocument, paidBy, Field.nonEmptyString, parser, List.map]
    rfl
  exact accepts_lookup hscalars rfl haccepted (by decide) rfl

end Node

end DocSchema

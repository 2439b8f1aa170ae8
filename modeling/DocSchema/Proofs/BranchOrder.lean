-- SUMMARY: The branches of an intersection can be merged in either order.
import DocSchema.Proofs.Conjunction
import DocSchema.Proofs.Reparsing

/-!
# The order of the branches

Merging the branches of an intersection the other way round gives another tree: fields,
checks and enumerated values come in another order, and of two equal literals the other
one stays. Parsers cannot tell the two trees apart, provided that each object declares a
name once; a name that is declared twice is merged with the first declaration only.
-/

namespace DocSchema

namespace Node

variable {ctx : Context} {l r m m' n : Node} {value result : Option Value}

/-! ## Interchangeable nodes -/

/-- Two nodes whose parsers make the same of every value and of its absence, and which the
validator lets be absent alike. -/
structure Interchangeable (m n : Node) : Prop where
  absent : m.acceptsAbsent = n.acceptsAbsent
  parses : ∀ {ctx : Context} {value result : Option Value},
    Parses ctx m value result ↔ Parses ctx n value result

namespace Interchangeable

theorem refl (n : Node) : Interchangeable n n := ⟨rfl, Iff.rfl⟩

theorem symm (h : Interchangeable m n) : Interchangeable n m := ⟨h.absent.symm, h.parses.symm⟩

theorem parser_toOption (h : Interchangeable m n) (value : Option Value) (ctx : Context)
    (location : Location) :
    (m.parser value ctx location).toOption = (n.parser value ctx location).toOption := by
  refine Option.ext fun result => ?_
  rw [Outcome.toOption_eq_some, Outcome.toOption_eq_some, parser_eq_ok_iff, parser_eq_ok_iff]
  exact h.parses

/-! ## Wrappers and containers -/

theorem optional (h : Interchangeable m n) : Interchangeable (.optional m) (.optional n) := by
  refine ⟨by simp [acceptsAbsent], fun {ctx value result} => ?_⟩
  cases value with
  | none => rw [parses_optional_none, parses_optional_none]
  | some v => rw [parses_optional_some, parses_optional_some, h.parses]

theorem nullable (h : Interchangeable m n) : Interchangeable (.nullable m) (.nullable n) := by
  refine ⟨by simp only [acceptsAbsent, h.absent], fun {ctx value result} => ?_⟩
  by_cases hnull : value = some .null
  · rw [hnull, parses_nullable_null, parses_nullable_null]
  · rw [parses_nullable_of_ne hnull, parses_nullable_of_ne hnull, h.parses]

theorem array (h : Interchangeable m n) : Interchangeable (.array m) (.array n) :=
  ⟨by simp [acceptsAbsent], by simp only [parses_array_iff, h.parses, implies_true]⟩

theorem record (h : Interchangeable m n) : Interchangeable (.record m) (.record n) :=
  ⟨by simp [acceptsAbsent], by simp only [parses_record_iff, h.parses, implies_true]⟩

theorem forall₂_zip {items others : List Node} (h : List.Forall₂ Interchangeable items others)
    {vs parsed : List Value} :
    List.Forall₂ (fun (e : Node × Value) w => Parses ctx e.1 (some e.2) (some w))
      (items.zip vs) parsed ↔
    List.Forall₂ (fun (e : Node × Value) w => Parses ctx e.1 (some e.2) (some w))
      (others.zip vs) parsed := by
  induction h generalizing vs parsed with
  | nil => exact Iff.rfl
  | cons hitem _ ih =>
    cases vs with
    | nil => exact Iff.rfl
    | cons v vs =>
      cases parsed with
      | nil => simp
      | cons w parsed =>
        simp only [List.zip_cons_cons, List.forall₂_cons]
        exact and_congr hitem.parses ih

theorem tuple {items others : List Node} (h : List.Forall₂ Interchangeable items others) :
    Interchangeable (.tuple items) (.tuple others) :=
  ⟨by simp [acceptsAbsent], by
    simp only [parses_tuple_iff, h.length_eq, forall₂_zip h, implies_true]⟩

/-! ## Leaves -/

theorem string (cs ds : List StringCheck) (e f : Bool) :
    Interchangeable (.string (cs ++ ds) (e && f)) (.string (ds ++ cs) (f && e)) := by
  have hall (text : String) : StringCheck.allHold (cs ++ ds) text =
      StringCheck.allHold (ds ++ cs) text := by
    simp only [StringCheck.allHold, List.all_append, Bool.and_comm]
  exact ⟨by simp [acceptsAbsent], by simp only [parses_string_iff, hall, implies_true]⟩

theorem number (cs ds : List NumberCheck) :
    Interchangeable (.number (cs ++ ds)) (.number (ds ++ cs)) := by
  have hall (x : Number) : NumberCheck.allHold (cs ++ ds) x =
      NumberCheck.allHold (ds ++ cs) x := by
    simp only [NumberCheck.allHold, List.all_append, Bool.and_comm]
  exact ⟨by simp [acceptsAbsent], by simp only [parses_number_iff, hall, implies_true]⟩

/-- Enumerations of the same values, in whatever order and number. -/
theorem enum {vs ws : List String} (h : ∀ text, text ∈ vs ↔ text ∈ ws) :
    Interchangeable (.enum vs) (.enum ws) :=
  ⟨by simp [acceptsAbsent], by simp only [parses_enum_iff, h, implies_true]⟩

theorem literal {v w : Value} (h : (v == w) = true) :
    Interchangeable (.literal v) (.literal w) := by
  have hback : (w == v) = true := Value.beq_iff.mpr (Value.beq_iff.mp h).symm
  have halike (x : Value) : v.alike x = true ↔ w.alike x = true :=
    ⟨Value.alike_of_beq_of_alike h, Value.alike_of_beq_of_alike hback⟩
  exact ⟨by simp [acceptsAbsent], by simp only [parses_literal_iff, halike, implies_true]⟩

/-! ## Objects -/

/-- Each field of the first list has one of its name in the second that it can be
interchanged with. -/
def Covered (fs gs : List (String × Node)) : Prop :=
  ∀ f ∈ fs, ∃ g ∈ gs, g.1 = f.1 ∧ Interchangeable f.2 g.2

section Object

variable {fs gs : List (String × Node)} {c d : Option Node} {input own own' : Entries Value}

theorem Covered.subset_keys (h : Covered fs gs) : Entries.keys fs ⊆ Entries.keys gs := by
  intro name hname
  obtain ⟨f, hf, rfl⟩ := List.mem_map.mp hname
  obtain ⟨g, hg, hsame, -⟩ := h f hf
  exact hsame ▸ Entries.mem_keys_of_mem hg

theorem undeclared_eq (h : Covered fs gs) (h' : Covered gs fs) :
    undeclared fs input = undeclared gs input := by
  have hcontains (name : String) : Entries.contains fs name = Entries.contains gs name := by
    rw [Bool.eq_iff_iff, Entries.contains_iff, Entries.contains_iff]
    exact ⟨fun hname => h.subset_keys hname, fun hname => h'.subset_keys hname⟩
  simp only [undeclared, hcontains]

theorem parsesOthers_iff (h : Option.Rel Interchangeable c d) {e : String × Value} :
    ParsesOthers ctx c e result ↔ ParsesOthers ctx d e result := by
  cases h with
  | none => exact Iff.rfl
  | some h => simp only [ParsesOthers, Option.some.injEq, exists_eq_left', h.parses]

theorem Covered.exists_own (h : Covered gs fs) (hown : Collects (ParsesField ctx input) fs own) :
    ∃ own', Collects (ParsesField ctx input) gs own' := by
  refine Collects.exists_iff.mpr fun g hg => ?_
  obtain ⟨f, hf, hname, halike⟩ := h g hg
  obtain ⟨r, hr⟩ := Collects.exists_iff.mp ⟨own, hown⟩ f hf
  rw [ParsesField, hname, ← halike.parses] at hr
  exact ⟨r, hr⟩

/-- Interchangeable fields leave the same under each name. -/
theorem Covered.get?_own (distinct : (Entries.keys fs).Nodup) (distinct' : (Entries.keys gs).Nodup)
    (h : Covered fs gs) (h' : Covered gs fs) (hown : Collects (ParsesField ctx input) fs own)
    (hown' : Collects (ParsesField ctx input) gs own') (name : String) :
    Entries.get? own name = Entries.get? own' name := by
  by_cases hname : name ∈ Entries.keys fs
  · obtain ⟨f, hf, rfl⟩ := List.mem_map.mp hname
    obtain ⟨g, hg, hsame, halike⟩ := h f hf
    have hfirst : ParsesField ctx input f (Entries.get? own f.1) := hown.get?_of_mem distinct hf
    have hsecond : ParsesField ctx input g (Entries.get? own' g.1) := hown'.get?_of_mem distinct' hg
    rw [ParsesField, hsame, ← halike.parses] at hsecond
    exact hfirst.unique hsecond
  · have hname' : name ∉ Entries.keys gs := fun hmem => hname (h'.subset_keys hmem)
    rw [hown.get?_eq_none hname, hown'.get?_eq_none hname']

theorem parses_object_of_covered (distinct : (Entries.keys fs).Nodup)
    (distinct' : (Entries.keys gs).Nodup) (h : Covered fs gs) (h' : Covered gs fs)
    (hcatchall : Option.Rel Interchangeable c d)
    (hparses : Parses ctx (.object fs c) value result) :
    Parses ctx (.object gs d) value result := by
  obtain ⟨input, extra, own, rfl, kind, hextra, hown, rfl⟩ := parses_object_iff.mp hparses
  obtain ⟨own', hown'⟩ := h'.exists_own hown
  have hextra' : Collects (ParsesOthers ctx d) (undeclared gs input) extra := by
    rw [← undeclared_eq h h']
    exact hextra.imp fun e _ r => (parsesOthers_iff hcatchall).mp
  have hsame : Entries.ofList (extra ++ own) = Entries.ofList (extra ++ own') := by
    refine (Entries.sorted_ofList _).ext (Entries.sorted_ofList _) fun name => ?_
    rw [Entries.get?_ofList, Entries.get?_ofList, List.reverse_append, List.reverse_append,
      Entries.get?_append, Entries.get?_append,
      Entries.get?_reverse_of_nodup (hown.nodup_keys distinct),
      Entries.get?_reverse_of_nodup (hown'.nodup_keys distinct'),
      h.get?_own distinct distinct' h' hown hown']
  exact parses_object_iff.mpr ⟨input, extra, own', rfl, kind, hextra', hown', by rw [hsame]⟩

theorem object (distinct : (Entries.keys fs).Nodup) (distinct' : (Entries.keys gs).Nodup)
    (h : Covered fs gs) (h' : Covered gs fs) (hcatchall : Option.Rel Interchangeable c d) :
    Interchangeable (.object fs c) (.object gs d) := by
  have hback : Option.Rel Interchangeable d c := by
    cases hcatchall with
    | none => exact .none
    | some hrest => exact .some hrest.symm
  exact ⟨by simp [acceptsAbsent], fun {_ _ _} =>
    ⟨parses_object_of_covered distinct distinct' h h' hcatchall,
      parses_object_of_covered distinct' distinct h' h hback⟩⟩

end Object

end Interchangeable

/-! ## Merging the other way round -/

/-- The nodes merge the other way round as well, to a node that can be interchanged with
the merge. -/
def Swapped (l r m : Node) : Prop := ∃ m', Merges r l m' ∧ Interchangeable m m'

theorem Swapped.interchangeable (h : Swapped l r m) (hm : Merges r l m') :
    Interchangeable m m' := by
  obtain ⟨m'', hm'', halike⟩ := h
  exact hm.unique hm'' ▸ halike

section Fields

variable {shared shared' : List FieldMerge} {fs gs : List (String × Node)} {c d : Option Node}

/-- The fields of an object can be merged with those of another if the shared ones can. -/
theorem exists_fieldsMerge (each : ∀ g ∈ gs, ∀ other, lookup fs g.1 = some other →
    ∃ m, Merges g.2 other m) : ∃ ms, FieldsMerge gs fs ms := by
  induction gs with
  | nil => exact ⟨[], [], rfl, rfl, by simp, by simp, by simp⟩
  | cons g rest ih =>
    obtain ⟨hg, hrest⟩ := List.forall_mem_cons.mp each
    obtain ⟨ms, hms⟩ := ih hrest
    cases hlook : lookup fs g.1 with
    | none => exact ⟨_, hms.cons ⟨g.1, g.2, none, g.2⟩ hlook.symm nofun fun _ => rfl⟩
    | some other =>
      obtain ⟨m, hm⟩ := hg other hlook
      refine ⟨_, hms.cons ⟨g.1, g.2, some other, m⟩ hlook.symm ?_ nofun⟩
      rintro _ ⟨⟩
      exact hm

/-- Shared fields are interchangeable as their merges are, and the other fields are the same. -/
theorem covered_of_swapped (distinct : (Entries.keys (shared.map FieldMerge.first)).Nodup)
    (looked : ∀ k ∈ shared, k.right? = lookup (shared'.map FieldMerge.first) k.name)
    (looked' : ∀ k ∈ shared', k.right? = lookup (shared.map FieldMerge.first) k.name)
    (alone : ∀ k ∈ shared, k.right? = none → k.merged = k.left)
    (alone' : ∀ k ∈ shared', k.right? = none → k.merged = k.left)
    (swapped : ∀ k ∈ shared, ∀ k' ∈ shared', k.right? = some k'.left → k'.right? = some k.left →
      Interchangeable k.merged k'.merged) :
    Interchangeable.Covered
      (shared.map FieldMerge.result ++
        ownFields (shared.map FieldMerge.first) (shared'.map FieldMerge.first))
      (shared'.map FieldMerge.result ++
        ownFields (shared'.map FieldMerge.first) (shared.map FieldMerge.first)) := by
  intro f hf
  rcases List.mem_append.mp hf with hf | hf
  · obtain ⟨k, hk, rfl⟩ := List.mem_map.mp hf
    have hfirst : k.first ∈ shared.map FieldMerge.first := List.mem_map.mpr ⟨k, hk, rfl⟩
    cases hright : k.right? with
    | none =>
      have hnone : lookup (shared'.map FieldMerge.first) k.name = none :=
        (looked k hk).symm.trans hright
      have hown : k.first ∈
          ownFields (shared'.map FieldMerge.first) (shared.map FieldMerge.first) :=
        List.mem_filter.mpr ⟨hfirst, Option.isNone_iff_eq_none.mpr hnone⟩
      refine ⟨k.first, List.mem_append_right _ hown, rfl, ?_⟩
      rw [FieldMerge.result, alone k hk hright]
      exact .refl _
    | some other =>
      have hlook : lookup (shared'.map FieldMerge.first) k.name = some other :=
        (looked k hk).symm.trans hright
      obtain ⟨k', hk', heq⟩ := List.mem_map.mp (Entries.mem_of_get? hlook)
      obtain ⟨hname, hleft⟩ := Prod.mk.inj heq
      have hback : k'.right? = some k.left := by
        rw [looked' k' hk', hname]
        exact Entries.get?_of_mem distinct hfirst
      refine ⟨k'.result, List.mem_append_left _ (List.mem_map.mpr ⟨k', hk', rfl⟩), hname, ?_⟩
      exact swapped k hk k' hk' (hleft ▸ hright) hback
  · obtain ⟨hmem, hnew⟩ := List.mem_filter.mp hf
    obtain ⟨k', hk', rfl⟩ := List.mem_map.mp hmem
    have hnone : k'.right? = none := (looked' k' hk').trans (Option.isNone_iff_eq_none.mp hnew)
    refine ⟨k'.result, List.mem_append_left _ (List.mem_map.mpr ⟨k', hk', rfl⟩), rfl, ?_⟩
    rw [FieldMerge.result, alone' k' hk' hnone]
    exact .refl _

theorem rel_ifBoth (h : ∀ a b, c = some a → d = some b → Interchangeable m m') :
    Option.Rel Interchangeable (ifBoth c d m) (ifBoth d c m') := by
  cases c with
  | none => cases d <;> exact .none
  | some a =>
    cases d with
    | none => exact .none
    | some b => exact .some (h a b rfl rfl)

theorem swapped_object (distinct : (Entries.keys (shared.map FieldMerge.first)).Nodup)
    (distinct' : (Entries.keys gs).Nodup)
    (looked : ∀ k ∈ shared, k.right? = lookup gs k.name)
    (alone : ∀ k ∈ shared, k.right? = none → k.merged = k.left)
    (both : ∀ k ∈ shared, ∀ other, k.right? = some other → Swapped k.left other k.merged)
    (catchall : ∀ a b, c = some a → d = some b → Swapped a b m) :
    Swapped (.object (shared.map FieldMerge.first) c) (.object gs d)
      (.object (shared.map FieldMerge.result ++ ownFields (shared.map FieldMerge.first) gs)
        (ifBoth c d m)) := by
  have hfields : ∃ ms, FieldsMerge gs (shared.map FieldMerge.first) ms := by
    refine exists_fieldsMerge fun g hg other hother => ?_
    obtain ⟨k, hk, heq⟩ := List.mem_map.mp (Entries.mem_of_get? hother)
    obtain ⟨hname, hleft⟩ := Prod.mk.inj heq
    have hright : k.right? = some g.2 := by
      rw [looked k hk, hname]
      exact Entries.get?_of_mem distinct' hg
    obtain ⟨m', hm', -⟩ := both k hk g.2 hright
    exact ⟨m', hleft ▸ hm'⟩
  have hcatchall : ∃ m', (∀ b a, d = some b → c = some a → Merges b a m') ∧
      ∀ a b, c = some a → d = some b → Interchangeable m m' := by
    cases c with
    | none => exact ⟨m, nofun, nofun⟩
    | some a =>
      cases d with
      | none => exact ⟨m, nofun, nofun⟩
      | some b =>
        obtain ⟨m', hm', halike⟩ := catchall a b rfl rfl
        refine ⟨m', ?_, fun _ _ _ _ => halike⟩
        rintro _ _ ⟨⟩ ⟨⟩
        exact hm'
  obtain ⟨_, shared', rfl, -, looked', both', alone'⟩ := hfields
  obtain ⟨m', hm', halike⟩ := hcatchall
  have hswapped : ∀ k ∈ shared, ∀ k' ∈ shared', k.right? = some k'.left →
      k'.right? = some k.left → Interchangeable k.merged k'.merged := fun k hk k' hk' h h' =>
    (both k hk k'.left h).interchangeable (both' k' hk' k.left h')
  refine ⟨_, .object shared' looked' both' alone' hm', ?_⟩
  refine .object (nodup_keys_of_merged distinct distinct') (nodup_keys_of_merged distinct' distinct)
    ?_ ?_ (rel_ifBoth halike)
  · exact covered_of_swapped distinct looked looked' alone alone' hswapped
  · exact covered_of_swapped distinct' looked' looked alone' alone
      fun k' hk' k hk h' h => (hswapped k hk k' hk' h h').symm

end Fields

theorem swapped_tuple {parts : List ItemMerge}
    (each : ∀ p ∈ parts, Swapped p.left p.right p.merged) :
    Swapped (.tuple (parts.map (·.left))) (.tuple (parts.map (·.right)))
      (.tuple (parts.map (·.merged))) := by
  have hparts : ∃ parts' : List ItemMerge, parts'.map (·.left) = parts.map (·.right) ∧
      parts'.map (·.right) = parts.map (·.left) ∧
      (∀ p ∈ parts', Merges p.left p.right p.merged) ∧
      List.Forall₂ Interchangeable (parts.map (·.merged)) (parts'.map (·.merged)) := by
    induction parts with
    | nil => exact ⟨[], rfl, rfl, by simp, .nil⟩
    | cons p rest ih =>
      obtain ⟨⟨m, hm, halike⟩, hrest⟩ := List.forall_mem_cons.mp each
      obtain ⟨parts', hleft, hright, hmerges, hsame⟩ := ih hrest
      exact ⟨⟨p.right, p.left, m⟩ :: parts', congrArg (p.right :: ·) hleft,
        congrArg (p.left :: ·) hright, List.forall_mem_cons.mpr ⟨hm, hmerges⟩, .cons halike hsame⟩
  obtain ⟨parts', hleft, hright, hmerges, hsame⟩ := hparts
  rw [← hleft, ← hright]
  exact ⟨_, .tuple parts' hmerges, .tuple hsame⟩

/-- The two orders agree. Where the second node alone is an intersection, it is merged
itself and then with the first node, and these two orders agree as well. -/
structure Swaps (l r m : Node) : Prop where
  swapped : Swapped l r m
  inner : l.layer < 4 → ¬ r.layer < 4 →
    ∃ a b inner, r = .intersection a b ∧ Merges a b inner ∧ Swapped inner l m

theorem Swapped.swaps (h : Swapped l r m) (hr : r.layer < 4) : Swaps l r m :=
  ⟨h, fun _ hlayer => (hlayer hr).elim⟩

/-- Below an intersection the merge goes on with a merged node and not with a branch, so
the induction is on the merge. -/
theorem Merges.swaps (h : Merges l r m) (hl : Every NamesOnce l) (hr : Every NamesOnce r) :
    Swaps l r m := by
  induction h with
  | @intersectionLeft a b inner other m hinner hm _ ih =>
    obtain ⟨-, hread⟩ := ih (hl.merged keptByMerging_namesOnce hinner) hr
    refine ⟨?_, fun hlayer => absurd hlayer (by simp [layer])⟩
    by_cases hother : other.layer < 4
    · exact ⟨m, .intersectionRight hother hinner hm, .refl m⟩
    · -- Both nodes are intersections: each is merged itself before the other.
      obtain ⟨c, d, inner', rfl, hinner', m', hm', halike⟩ := hread hinner.layer_lt_four hother
      exact ⟨m', .intersectionLeft hinner'
        (.intersectionRight hinner'.layer_lt_four hinner hm'), halike⟩
  | @intersectionRight a b inner other m hother hinner hm _ ih =>
    obtain ⟨hswapped, -⟩ := ih (hr.merged keptByMerging_namesOnce hinner) hl
    exact ⟨⟨m, .intersectionLeft hinner hm, .refl m⟩,
      fun _ _ => ⟨a, b, inner, rfl, hinner, hswapped⟩⟩
  | @anyLeft other hother =>
    refine Swapped.swaps ⟨other, ?_, .refl other⟩ hother
    by_cases hany : other.layer < 3
    · exact .anyRight hany
    · cases other with
      | any => exact .anyLeft hother
      | _ => simp [layer] at hany hother
  | @anyRight other hother =>
    exact Swapped.swaps ⟨other, .anyLeft (Nat.lt_succ_of_lt hother), .refl other⟩ (by simp [layer])
  | optional _ ih =>
    obtain ⟨m', hm', halike⟩ := (ih (hl.inner rfl) (hr.inner rfl)).swapped
    exact Swapped.swaps ⟨_, .optional hm', halike.optional⟩ (by simp [layer])
  | optionalLeft hother hm =>
    exact Swapped.swaps ⟨_, .optionalRight hother hm, .refl _⟩ (by omega)
  | optionalRight hother hm =>
    exact Swapped.swaps ⟨_, .optionalLeft hother hm, .refl _⟩ (by simp [layer])
  | nullable _ ih =>
    obtain ⟨m', hm', halike⟩ := (ih (hl.inner rfl) (hr.inner rfl)).swapped
    exact Swapped.swaps ⟨_, .nullable hm', halike.nullable⟩ (by simp [layer])
  | nullableLeft hother hm =>
    exact Swapped.swaps ⟨_, .nullableRight hother hm, .refl _⟩ (by omega)
  | nullableRight hother hm =>
    exact Swapped.swaps ⟨_, .nullableLeft hother hm, .refl _⟩ (by simp [layer])
  | @object gs c d m shared looked both alone catchall ihBoth ihCatchall =>
    refine Swapped.swaps (swapped_object hl.here hr.here looked alone ?_ ?_) (by simp [layer])
    · intro k hk other hright
      have hother : lookup gs k.name = some other := (looked k hk).symm.trans hright
      exact (ihBoth k hk other hright (hl.field (List.mem_map.mpr ⟨k, hk, rfl⟩))
        (hr.of_lookup hother)).swapped
    · rintro a b rfl rfl
      exact (ihCatchall a b rfl rfl hl.catchall hr.catchall).swapped
  | string => exact Swapped.swaps ⟨_, .string, .string _ _ _ _⟩ (by simp [layer])
  | number => exact Swapped.swaps ⟨_, .number, .number _ _⟩ (by simp [layer])
  | @enum vs ws common =>
    have hsame (text : String) : text ∈ vs.filter (fun v => ws.contains v) ↔
        text ∈ ws.filter fun v => vs.contains v := by
      simp [List.mem_filter, and_comm]
    have common' : ws.filter (fun v => vs.contains v) ≠ [] := by
      obtain ⟨text, htext⟩ := List.exists_mem_of_ne_nil _ common
      exact List.ne_nil_of_mem ((hsame text).mp htext)
    exact Swapped.swaps ⟨_, .enum common', .enum hsame⟩ (by simp [layer])
  | literal heq =>
    have hback := Value.beq_iff.mpr (Value.beq_iff.mp heq).symm
    exact Swapped.swaps ⟨_, .literal hback, .literal heq⟩ (by simp [layer])
  | array _ ih =>
    obtain ⟨m', hm', halike⟩ := (ih (hl.inner rfl) (hr.inner rfl)).swapped
    exact Swapped.swaps ⟨_, .array hm', halike.array⟩ (by simp [layer])
  | tuple parts _ ih =>
    refine Swapped.swaps (swapped_tuple fun p hp => ?_) (by simp [layer])
    exact (ih p hp (hl.child (List.mem_map.mpr ⟨p, hp, rfl⟩))
      (hr.child (List.mem_map.mpr ⟨p, hp, rfl⟩))).swapped
  | record _ ih =>
    obtain ⟨m', hm', halike⟩ := (ih (hl.inner rfl) (hr.inner rfl)).swapped
    exact Swapped.swaps ⟨_, .record hm', halike.record⟩ (by simp [layer])
  | boolean => exact Swapped.swaps ⟨_, .boolean, .refl _⟩ (by simp [layer])
  | date => exact Swapped.swaps ⟨_, .date, .refl _⟩ (by simp [layer])
  | null => exact Swapped.swaps ⟨_, .null, .refl _⟩ (by simp [layer])

/-- The order of two branches in which each object declares a name once does not matter: they
merge in both orders or in neither, and parsers of the two merged nodes accept the same and
make the same of it. -/
theorem intersect_order_irrelevant (hl : Every NamesOnce l) (hr : Every NamesOnce r)
    (location : Location) : (l.intersect r location).isOk = (r.intersect l location).isOk ∧
    ∀ m m', l.intersect r location = .ok m → r.intersect l location = .ok m' →
      m.acceptsAbsent = m'.acceptsAbsent ∧ ∀ value ctx place,
        (m.parser value ctx place).toOption = (m'.parser value ctx place).toOption := by
  constructor
  · rw [Bool.eq_iff_iff, Outcome.isOk_iff, Outcome.isOk_iff]
    simp only [intersect_eq_ok_iff]
    constructor
    · rintro ⟨m, hm⟩
      obtain ⟨m', hm', -⟩ := (hm.swaps hl hr).swapped
      exact ⟨m', hm'⟩
    · rintro ⟨m, hm⟩
      obtain ⟨m', hm', -⟩ := (hm.swaps hr hl).swapped
      exact ⟨m', hm'⟩
  · intro m m' hm hm'
    rw [intersect_eq_ok_iff] at hm hm'
    have halike : Interchangeable m m' := (hm.swaps hl hr).swapped.interchangeable hm'
    exact ⟨halike.absent, halike.parser_toOption⟩

/-- The fields of a guest with a badge come in another order than those of a badge with a
guest, and no input shows it. -/
theorem guest_and_badge_either_way : ∃ m m', guest.intersect badge .root = .ok m ∧
    badge.intersect guest .root = .ok m' ∧ m ≠ m' ∧ m.acceptsAbsent = m'.acceptsAbsent ∧
    ∀ value ctx place,
      (m.parser value ctx place).toOption = (m'.parser value ctx place).toOption := by
  have hguest : Every NamesOnce guest := by
    refine .of_object (by simp [NamesOnce, Entries.keys]) (List.forall_mem_cons.mpr ⟨?_,
      List.forall_mem_singleton.mpr (.of_leaf trivial rfl)⟩) (by simp)
    exact .of_inner trivial rfl (.of_leaf trivial rfl)
  have hbadge : Every NamesOnce badge := by
    refine .of_object (by simp [NamesOnce, Entries.keys]) (List.forall_mem_cons.mpr ⟨?_,
      List.forall_mem_singleton.mpr (.of_leaf trivial rfl)⟩) (by simp)
    exact .of_inner trivial rfl (.of_inner trivial rfl (.of_leaf trivial rfl))
  have hname : Merges guestName badgeName guestName :=
    .optional (.nullableRight (by decide) .string)
  have hname' : Merges badgeName guestName guestName :=
    .optional (.nullableLeft (by decide) .string)
  have hm : Merges guest badge
      (.object [("name", guestName), ("seat", .number []), ("desk", .boolean)] none) := by
    refine .object (m := .any) [⟨"name", guestName, some badgeName, guestName⟩,
      ⟨"seat", .number [], none, .number []⟩] ?_ ?_ ?_ ?_
    · simp [lookup, Entries.get?]
    · simpa using hname
    · simp
    · simp
  have hm' : Merges badge guest
      (.object [("name", guestName), ("desk", .boolean), ("seat", .number [])] none) := by
    refine .object (m := .any) [⟨"name", badgeName, some guestName, guestName⟩,
      ⟨"desk", .boolean, none, .boolean⟩] ?_ ?_ ?_ ?_
    · simp [lookup, Entries.get?]
    · simpa using hname'
    · simp
    · simp
  have merged : guest.intersect badge .root = .ok _ := intersect_eq_ok_iff.mpr hm
  have merged' : badge.intersect guest .root = .ok _ := intersect_eq_ok_iff.mpr hm'
  exact ⟨_, _, merged, merged', by simp,
    (intersect_order_irrelevant hguest hbadge .root).2 _ _ merged merged'⟩

end Node

end DocSchema

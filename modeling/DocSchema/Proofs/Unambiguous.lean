-- SUMMARY: When two options of a compiled discriminated union accept one value.
import DocSchema.Proofs.Distinct

/-!
# Ambiguity of discriminated unions

The literals of the options are told apart by class and content when a union is
compiled, and by size when a value is checked. So two options accept one value only
if both literals are numbers of the size of its tag. The rules of the union, which
ask that exactly one option accepts, follow the option that the tag chooses wherever
no two literals collide in that way.
-/

namespace DocSchema

open Validator

namespace Node

variable {key : String} {options : List Node} {r : Rules}

/-! ## Literals -/

/-- Scalars that are alike although they differ are two numbers of one size. -/
theorem numbers_of_alike {a b tag : Value} (ha : a.isScalar = true) (hb : b.isScalar = true)
    (hatag : a.alike tag = true) (hbtag : b.alike tag = true) (hne : (b == a) = false) :
    ∃ m n, a = .number m ∧ b = .number n := by
  have hab := Value.alike_of_alike ha hb hatag hbtag
  cases a <;> cases b <;>
    simp_all [Value.alike, Value.isScalar, Value.isObject, Value.isArray, Value.object?,
      Value.array?, BEq.beq, Value.beq]

/-! ## Options that accept one value -/

/-- The literals of two options are different numbers, and the tag of a value is a
number of the size of both. -/
def Collide (key : String) (v : Value) (option other : Node) : Prop :=
  ∃ m n tag, option.discriminator? key = some (.number m) ∧
    other.discriminator? key = some (.number n) ∧ (n == m) = false ∧
    v.field? key = some tag ∧ (Value.number m).alike tag = true ∧
    (Value.number n).alike tag = true

/-- Of the options and their rules, any two that accept a value collide on it. -/
theorem collide_of_accepts (h : Compiles (.discriminated key options) r)
    (fixed : ∀ option ∈ options, option.TagFixed key) {parts : List Rules}
    (hparts : List.Forall₂ Compiles options parts) (v : Value) :
    (options.zip parts).Pairwise fun x y =>
      x.2.Accepts v → y.2.Accepts v → Collide key v x.1 y.1 := by
  obtain ⟨hliterals, hdiffer, -⟩ := h.discriminated_parts
  have tag_of {x : Node × Rules} (hx : x ∈ options.zip parts) (hv : x.2.Accepts v) :
      ∃ literal tag, x.1.discriminator? key = some literal ∧ v.field? key = some tag ∧
        literal.alike tag = true := by
    have hoption := (List.of_mem_zip hx).1
    have hcompiles : Compiles x.1 x.2 := (List.forall₂_iff_zip.mp hparts).2 hx
    obtain ⟨literal, hliteral⟩ := Option.isSome_iff_exists.mp (hliterals _ hoption)
    obtain ⟨input, tag, rfl, -, htag, halike⟩ := hcompiles.tag (fixed _ hoption) hliteral hv
    exact ⟨literal, tag, hliteral, htag, halike⟩
  rw [← List.map_fst_zip (Nat.le_of_eq hparts.length_eq), List.pairwise_map] at hdiffer
  refine hdiffer.imp_of_mem fun {x y} hx hy hne hxv hyv => ?_
  obtain ⟨a, tag, ha, htag, hatag⟩ := tag_of hx hxv
  obtain ⟨b, tag', hb, htag', hbtag⟩ := tag_of hy hyv
  cases htag.symm.trans htag'
  obtain ⟨m, n, rfl, rfl⟩ := numbers_of_alike (discriminator?_eq_some ha).1
    (discriminator?_eq_some hb).1 hatag hbtag (hne a ha b hb)
  exact ⟨m, n, tag, ha, hb, hne _ ha _ hb, htag, hatag, hbtag⟩

/-- One accepted position among at most one is the exactly one. -/
theorem exactlyOne_of_pairwise {α : Type} {P : α → Prop} {xs : List α}
    (atMost : xs.Pairwise fun x y => ¬ (P x ∧ P y)) {x : α} (hx : x ∈ xs) (hP : P x) :
    ExactlyOne P xs := by
  obtain ⟨before, after, rfl⟩ := List.append_of_mem hx
  obtain ⟨-, hafter, hbetween⟩ := List.pairwise_append.mp atMost
  refine ⟨before, x, after, rfl, hP, fun y hy hPy => ?_⟩
  rcases List.mem_append.mp hy with hy | hy
  · exact hbetween y hy x List.mem_cons_self ⟨hPy, hP⟩
  · exact (List.pairwise_cons.mp hafter).1 y hy ⟨hP, hPy⟩

theorem accepts_iff_validateDirectly {s : Rules} {v : Value} :
    validateDirectly s v = .ok () ↔ s.Accepts v :=
  Rules.accepts_iff.symm

/-- Any two options of a compiled union that accept one value collide on it. Where
none do, at most one option accepts the value, and the union does if the option does
that the tag chooses. -/
theorem discriminated_follows_tag {location : Location}
    (compiled : (Node.discriminated key options).rules location = .ok r)
    (fixed : ∀ option ∈ options, option.TagFixed key) :
    ∃ parts, List.Forall₂ Compiles options parts ∧ r = [("oneOf", .array (parts.map .object))] ∧
      ∀ v,
        (options.zip parts).Pairwise (fun x y =>
          validateDirectly x.2 v = .ok () → validateDirectly y.2 v = .ok () →
            Collide key v x.1 y.1) ∧
        ((∀ option ∈ options, ∀ other ∈ options, ¬ Collide key v option other) →
          parts.Pairwise (fun p q =>
            ¬ (validateDirectly p v = .ok () ∧ validateDirectly q v = .ok ())) ∧
          ∀ tag option p, v.field? key = some tag → chosenOption key options tag = some option →
            (option, p) ∈ options.zip parts → validateDirectly p v = .ok () →
              validateDirectly r v = .ok ()) := by
  have h : Compiles (.discriminated key options) r := ⟨location, compiled⟩
  obtain ⟨-, -, parts, hparts, rfl⟩ := h.discriminated_parts
  refine ⟨parts, hparts, rfl, fun v => ?_⟩
  simp only [accepts_iff_validateDirectly]
  have hcollide := collide_of_accepts h fixed hparts v
  refine ⟨hcollide, fun apart => ?_⟩
  have hatMost : parts.Pairwise fun p q => ¬ (p.Accepts v ∧ q.Accepts v) := by
    rw [← List.map_snd_zip (Nat.le_of_eq hparts.length_eq.symm), List.pairwise_map]
    refine hcollide.imp_of_mem fun {x y} hx hy hboth ⟨hxv, hyv⟩ => ?_
    exact apart _ (List.of_mem_zip hx).1 _ (List.of_mem_zip hy).1 (hboth hxv hyv)
  refine ⟨hatMost, fun tag option p _ _ hp haccepts => ?_⟩
  exact accepts_oneOf_iff.mpr (exactlyOne_of_pairwise hatMost (List.of_mem_zip hp).2 haccepts)

/-- An option that asks for nothing but its tag. -/
def tagOption (tag : Value) : Node := .object [("kind", .literal tag)] none

def ofTag (tag : Value) : Value := .object [("kind", tag)]

theorem tagFixed_tagOption (tag : Value) : (tagOption tag).TagFixed "kind" := by
  intro n hn
  cases List.mem_singleton.mp hn
  rfl

theorem Compiles.accepts_tagOption_iff {literal tag : Value} {s : Rules}
    (h : Compiles (tagOption literal) s) (hkind : (ofTag tag).kind = .object) :
    s.Accepts (ofTag tag) ↔ literal.alike tag = true := by
  obtain ⟨parts, others, hparts, -, haccepts⟩ := h.object (by simp [Entries.keys])
  obtain ⟨p, rest, hp, hrest, rfl⟩ := List.forall₂_cons_left_iff.mp hparts
  cases hrest
  obtain ⟨name, s'⟩ := p
  obtain ⟨rfl, hliteral⟩ := hp
  have hentry : EntryAccepted [("kind", s')] others ("kind", tag) ↔ literal.alike tag = true :=
    hliteral.literal.2.2 tag
  rw [haccepts, ← hentry]
  constructor
  · rintro ⟨input, heq, -, -, hentries⟩
    cases heq
    exact hentries _ List.mem_cons_self
  · intro haccepted
    exact ⟨_, rfl, hkind, by simp [Entries.keys], List.forall_mem_singleton.mpr haccepted⟩

/-- Literals of two sizes: the value of the first kind is accepted. -/
theorem one_or_two_accepted : ∃ r, (Node.discriminated "kind"
      [tagOption (.int 1), tagOption (.int 2)]).rules .root = .ok r ∧
    validateDirectly r (ofTag (.int 1)) = .ok () := by
  have hcompile : ∃ r, (Node.discriminated "kind"
      [tagOption (.int 1), tagOption (.int 2)]).rules .root = .ok r := by
    simp only [rules, tagOption, List.map]
    exact ⟨_, rfl⟩
  obtain ⟨r, compiled⟩ := hcompile
  have fixed : ∀ option ∈ [tagOption (.int 1), tagOption (.int 2)], option.TagFixed "kind" :=
    List.forall_mem_cons.mpr
      ⟨tagFixed_tagOption _, List.forall_mem_singleton.mpr (tagFixed_tagOption _)⟩
  obtain ⟨parts, hparts, -, hall⟩ := discriminated_follows_tag compiled fixed
  have apart : ∀ option ∈ [tagOption (.int 1), tagOption (.int 2)],
      ∀ other ∈ [tagOption (.int 1), tagOption (.int 2)],
        ¬ Collide "kind" (ofTag (.int 1)) option other := by
    have one {option : Node} {m : Number}
        (hoption : option ∈ [tagOption (.int 1), tagOption (.int 2)])
        (hm : option.discriminator? "kind" = some (.number m))
        (halike : (Value.number m).alike (.int 1) = true) : m = .int 1 := by
      rcases List.mem_pair.mp hoption with rfl | rfl
      · cases hm
        rfl
      · cases hm
        exact absurd halike (by decide +kernel)
    rintro option hoption other hother ⟨m, n, tag, hm, hn, hne, htag, hmtag, hntag⟩
    cases htag
    rw [one hoption hm hmtag, one hother hn hntag] at hne
    cases hne
  obtain ⟨p, rest, hp, -, rfl⟩ := List.forall₂_cons_left_iff.mp hparts
  refine ⟨r, compiled, ((hall _).2 apart).2 (.int 1) (tagOption (.int 1)) p rfl ?_ ?_ ?_⟩
  · rfl
  · exact List.mem_cons_self
  · exact accepts_iff_validateDirectly.mpr ((hp.accepts_tagOption_iff rfl).mpr (by decide +kernel))

/-- The integer `1` and the double `1.0` as the tags of two options. -/
def oneOrOne : List Node :=
  [tagOption (.int 1), tagOption (.number (.double ⟨0x3FF0000000000000⟩ rfl))]

/-- Literals of one size that differ in class: both options accept the value, the
first one is chosen, and the union refuses it. -/
theorem one_or_one_refused : ∃ parts, List.Forall₂ Compiles oneOrOne parts ∧
    (Node.discriminated "kind" oneOrOne).rules .root =
      .ok [("oneOf", .array (parts.map .object))] ∧
    chosenOption "kind" oneOrOne (.int 1) = some (tagOption (.int 1)) ∧
    (∀ p ∈ parts, validateDirectly p (ofTag (.int 1)) = .ok ()) ∧
    validateDirectly [("oneOf", .array (parts.map .object))] (ofTag (.int 1)) ≠ .ok () := by
  have hcompile : ∃ r, (Node.discriminated "kind" oneOrOne).rules .root = .ok r := by
    simp only [rules, oneOrOne, tagOption, List.map]
    exact ⟨_, rfl⟩
  obtain ⟨r, compiled⟩ := hcompile
  obtain ⟨-, -, parts, hparts, rfl⟩ := Compiles.discriminated_parts ⟨_, compiled⟩
  have hchosen : chosenOption "kind" oneOrOne (.int 1) = some (tagOption (.int 1)) := by rfl
  refine ⟨parts, hparts, compiled, hchosen, ?_⟩
  obtain ⟨p, _, hp, hmore, rfl⟩ := List.forall₂_cons_left_iff.mp hparts
  obtain ⟨q, _, hq, hnone, rfl⟩ := List.forall₂_cons_left_iff.mp hmore
  cases hnone
  simp only [accepts_iff_validateDirectly]
  have hpone : p.Accepts (ofTag (.int 1)) := (hp.accepts_tagOption_iff rfl).mpr (by decide +kernel)
  have hqone : q.Accepts (ofTag (.int 1)) := (hq.accepts_tagOption_iff rfl).mpr (by decide +kernel)
  refine ⟨List.forall_mem_cons.mpr ⟨hpone, List.forall_mem_singleton.mpr hqone⟩, ?_⟩
  rw [Ne, accepts_iff_validateDirectly, accepts_oneOf_iff]
  rintro ⟨before, x, after, heq, -, hothers⟩
  cases before with
  | nil =>
    cases heq
    exact hothers q List.mem_cons_self hqone
  | cons first before =>
    obtain ⟨rfl, -⟩ := List.cons.inj heq
    exact hothers p List.mem_cons_self hpone

end Node

end DocSchema

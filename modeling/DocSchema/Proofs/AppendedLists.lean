-- SUMMARY: The list that an append leaves: what stood before the place, what is new, and what stood behind it.
import DocSchema.Proofs.Appends
import DocSchema.Proofs.Double
import DocSchema.Proofs.Overwriting
import Mathlib.Data.List.DropRight

/-!
# Appended lists

Values are inserted one by one, each at a place behind the one before, and into a set only
if nothing in the list is alike. What comes of it is the list with the values that are new
put in as one block; this is the array that stands at the path afterwards. The place never
lies past the end of the list, and adding to a set what was added changes nothing.
-/

namespace DocSchema

namespace Apply

variable {unique : Bool} {items seen seen' before behind values old : List Value} {point : Nat}
  {v operand doc : Value} {a : Append} {path name : String} {inserting : Bool}

/-! ## Values that are new -/

/-- The values without each that is alike something seen or an earlier value that is kept. -/
def novel : List Value → List Value → List Value
  | _, [] => []
  | seen, v :: rest =>
    if seen.any fun item => item.alike v then novel seen rest else v :: novel (v :: seen) rest

theorem novel_perm (h : seen.Perm seen') : novel seen values = novel seen' values := by
  induction values generalizing seen seen' with
  | nil => rfl
  | cons v rest ih => rw [novel, novel, h.any_eq, ih h, ih (h.cons v)]

/-- Of each value something alike was seen or is new. -/
theorem exists_alike_of_novel (h : v ∈ values) :
    ∃ item ∈ seen ++ novel seen values, item.alike v = true := by
  induction values generalizing seen with
  | nil => cases h
  | cons w rest ih =>
    rw [novel]
    split
    · next hseen =>
      rcases List.mem_cons.mp h with rfl | h
      · obtain ⟨item, hitem, halike⟩ := List.any_eq_true.mp hseen
        exact ⟨item, List.mem_append_left _ hitem, halike⟩
      · exact ih h
    · rcases List.mem_cons.mp h with rfl | h
      · exact ⟨v, by simp, v.alike_refl⟩
      · obtain ⟨item, hitem, halike⟩ : ∃ item ∈ w :: seen ++ novel (w :: seen) rest,
            item.alike v = true := ih h
        exact ⟨item, List.perm_middle.symm.subset hitem, halike⟩

theorem novel_eq_nil (h : ∀ v ∈ values, ∃ item ∈ seen, item.alike v = true) :
    novel seen values = [] := by
  induction values with
  | nil => rfl
  | cons v rest ih =>
    obtain ⟨hv, hrest⟩ := List.forall_mem_cons.mp h
    rw [novel, if_pos (List.any_eq_true.mpr hv), ih hrest]

/-! ## The list that is described -/

/-- The place of a position, which counts from the end if it is negative, on a list of a
given size. -/
def place (size : Nat) : Option Int → Nat
  | none => size
  | some p => (max 0 (min (if p < 0 then size + p else p) size)).toNat

/-- The list with new values in their place. -/
def Append.spliced (a : Append) (unique : Bool) (old : List Value) : List Value :=
  old.take (place old.length a.position) ++ (if unique then novel old a.values else a.values) ++
    old.drop (place old.length a.position)

/-- The list with new values in their place, cut to its first or its last elements. -/
def Append.described (a : Append) (unique : Bool) (old : List Value) : List Value :=
  match a.slice with
  | none => a.spliced unique old
  | some n => if 0 ≤ n then (a.spliced unique old).take n.toNat
    else (a.spliced unique old).rtake n.natAbs

theorem insertionPoint_eq_place (size : Nat) (position : Option Int) :
    insertionPoint size position = place size position := by
  cases position with
  | none => rfl
  | some p =>
    rw [insertionPoint, place]
    split <;> omega

theorem insertIdx_length_append :
    (before ++ behind).insertIdx before.length v = before ++ v :: behind := by
  induction before with
  | nil => rfl
  | cons w rest ih => exact congrArg (w :: ·) ih

/-- What is inserted one by one stands in one block. -/
theorem insertEach_append (before behind values : List Value) :
    insertEach unique (before ++ behind) before.length values =
      before ++ (if unique then novel (before ++ behind) values else values) ++ behind := by
  induction values generalizing before with
  | nil => cases unique <;> simp [insertEach, novel]
  | cons v rest ih =>
    have hinsert : (before ++ behind).insertIdx before.length v = before ++ [v] ++ behind := by
      rw [insertIdx_length_append, List.append_assoc, List.singleton_append]
    have hrest := ih (before ++ [v])
    rw [List.length_append, List.length_singleton] at hrest
    have hseen : (before ++ [v] ++ behind).Perm (v :: (before ++ behind)) := by
      rw [List.append_assoc]
      exact List.perm_middle
    rw [insertEach, hinsert, hrest, ih]
    cases unique with
    | false => simp
    | true =>
      rw [novel_perm hseen, Bool.true_and, novel]
      split <;> simp

theorem place_le (size : Nat) (position : Option Int) : place size position ≤ size := by
  rw [← insertionPoint_eq_place]
  exact insertionPoint_le size position

theorem insertEach_eq_spliced :
    insertEach unique old (place old.length a.position) a.values = a.spliced unique old := by
  have hlength : (old.take (place old.length a.position)).length = place old.length a.position :=
    List.length_take_of_le (place_le _ _)
  calc insertEach unique old (place old.length a.position) a.values
    _ = insertEach unique (old.take (place old.length a.position) ++
          old.drop (place old.length a.position))
          (old.take (place old.length a.position)).length a.values := by
      rw [List.take_append_drop, hlength]
    _ = a.spliced unique old := by
      rw [insertEach_append, List.take_append_drop, Append.spliced]

theorem onto_eq_described : a.onto unique old = a.described unique old := by
  unfold Append.onto Append.described
  rw [insertionPoint_eq_place, insertEach_eq_spliced]
  cases a.slice <;> rfl

/-! ## The place stays inside the list -/

/-- Puts values in one behind the other as `insertEach` does; `none` if a place lies past
the end of the list, where nothing can be put in. -/
def insertEach? (unique : Bool) : List Value → Nat → List Value → Option (List Value)
  | items, _, [] => some items
  | items, point, v :: rest =>
    if unique && items.any fun item => item.alike v then insertEach? unique items point rest
    else if point ≤ items.length then insertEach? unique (items.insertIdx point v) (point + 1) rest
    else none

theorem insertEach?_eq_some (h : point ≤ items.length) :
    insertEach? unique items point values = some (insertEach unique items point values) := by
  induction values generalizing items point with
  | nil => rfl
  | cons v rest ih =>
    rw [insertEach?, insertEach]
    split
    · exact ih h
    · exact ih (by rw [List.length_insertIdx_of_le_length h]; omega)

/-! ## Adding to a set again -/

theorem perm_spliced : (a.spliced true old).Perm (old ++ novel old a.values) := by
  have hsplit := List.take_append_drop (place old.length a.position) old
  unfold Append.spliced
  rw [if_pos rfl, List.append_assoc]
  refine (List.perm_append_comm.append_left _).trans ?_
  rw [← List.append_assoc, hsplit]

/-- What was added to a set is not new. -/
theorem described_described (uncut : a.slice = none) :
    a.described true (a.described true old) = a.described true old := by
  have hnothing : novel (a.spliced true old) a.values = [] := by
    rw [novel_perm perm_spliced]
    exact novel_eq_nil fun v hv => exists_alike_of_novel hv
  unfold Append.described
  rw [uncut]
  dsimp only
  rw [Append.spliced, if_pos rfl, hnothing, List.append_nil, List.take_append_drop]

/-! ## What an operand says -/

/-- The integer of 64 bits that an operand has under a name. -/
def IntegerAt (operand : Value) (name : String) (n : Int) : Prop :=
  operand.field? name = some (.number (.int n)) ∧
    -9223372036854775808 ≤ n ∧ n ≤ 9223372036854775807

/-- What an operand says to append. Without `$each` it is itself the one value, put at the
end and not cut. With `$each` it lists the values, and the position and the slice are the
integers of 64 bits under `$position` and `$slice`, where it has them. -/
inductive Append.SaidBy (operand : Value) : Append → Prop where
  | itself : operand.field? "$each" = none → SaidBy operand ⟨[operand], none, none⟩
  | listed {a : Append} :
    operand.field? "$each" = some (.array a.values) →
    (∀ n, a.position = some n ↔ IntegerAt operand "$position" n) →
    (∀ n, a.slice = some n ↔ IntegerAt operand "$slice" n) → SaidBy operand a

/-- An operand says one thing. -/
theorem Append.eq_of_saidBy {b : Append} (h : SaidBy operand a) (h' : SaidBy operand b) :
    a = b := by
  cases h with
  | itself hnone =>
    cases h' with
    | itself => rfl
    | listed heach => cases hnone.symm.trans heach
  | listed heach hposition hslice =>
    cases h' with
    | itself hnone => cases hnone.symm.trans heach
    | listed heach' hposition' hslice' =>
      have hvalues : a.values = b.values :=
        Value.array.inj (Option.some.inj (heach.symm.trans heach'))
      have heqPosition : a.position = b.position :=
        Option.ext fun n => (hposition n).trans (hposition' n).symm
      have heqSlice : a.slice = b.slice :=
        Option.ext fun n => (hslice n).trans (hslice' n).symm
      obtain ⟨_, _, _⟩ := a
      obtain ⟨_, _, _⟩ := b
      rw [Append.mk.injEq]
      exact ⟨hvalues, heqPosition, heqSlice⟩

theorem toInt64?_eq_some_iff {n : Int} : (operand.field? name).bind Value.toInt64? = some n ↔
    IntegerAt operand name n := by
  have hbounds (i : Int) : Number.toInt64? (.int i) = some n ↔
      i = n ∧ -9223372036854775808 ≤ n ∧ n ≤ 9223372036854775807 := by
    simp only [Number.toInt64?]
    split
    · rw [Option.some.injEq]
      omega
    · exact iff_of_false (by rintro ⟨⟩) (by omega)
  unfold IntegerAt
  cases operand.field? name with
  | none => exact iff_of_false (by rintro ⟨⟩) (by rintro ⟨⟨⟩, -⟩)
  | some v =>
    cases v with
    | number x =>
      cases x with
      | int i =>
        change Number.toInt64? (.int i) = some n ↔ _
        rw [hbounds, Option.some.injEq, Value.number.injEq, Number.int.injEq]
      | double d finite => exact iff_of_false (by rintro ⟨⟩) (by rintro ⟨⟨⟩, -⟩)
    | _ => exact iff_of_false (by rintro ⟨⟩) (by rintro ⟨⟨⟩, -⟩)

theorem Append.saidBy_of_ofOperand (h : ofOperand operand path = .ok a) : SaidBy operand a := by
  unfold ofOperand at h
  split at h
  · next hnone =>
    cases h
    exact .itself hnone
  · next values heach =>
    cases h
    exact .listed heach (fun _ => toInt64?_eq_some_iff) (fun _ => toInt64?_eq_some_iff)
  · cases h

/-! ## The array afterwards -/

/-- The write that appends an operand, as values of a set or of a list. -/
def appending (unique : Bool) (path : String) (operand : Value) : Write :=
  ⟨if unique then "$addToSet" else "$push", path, operand⟩

theorem apply_appending : (appending unique path operand).apply inserting doc =
    append doc path operand unique := by
  cases unique <;> rfl

/-- An edit can follow the path: no segment is empty or begins with the mark of operators. -/
def Followable (path : String) : Prop :=
  ∀ part ∈ DotPath.segments path, part ≠ "" ∧ part.toList.head? ≠ some '$'

/-- An operand is appended to the elements at a path: an edit can follow the path, an array
stands there or can be created, and an `$each` lists what to append. -/
structure Appendable (doc : Value) (path : String) (operand : Value) (old : List Value) :
    Prop where
  followable : Followable path
  holds : doc.Holds path old
  creatable : doc.lookup? path = none → (doc.setPath path (.array [])).fault = none
  listed : ∀ each, operand.field? "$each" = some each → each.isArray = true

theorem followable_iff : Followable path ↔ (DotPath.editable path).isOk = true := by
  have hparts (empty : (DotPath.segments path).any (· = "") = false)
      (plain : (DotPath.segments path).any DotPath.isOperator = false) : Followable path := by
    intro part hpart
    refine ⟨?_, ?_⟩
    · simpa using List.any_eq_false.mp empty part hpart
    · simpa [DotPath.isOperator] using List.any_eq_false.mp plain part hpart
  unfold DotPath.editable
  dsimp only
  split
  · next hempty =>
    obtain ⟨part, hpart, hempty⟩ := List.any_eq_true.mp hempty
    exact iff_of_false (fun h => (h part hpart).1 (of_decide_eq_true hempty)) nofun
  · next hempty =>
    split
    · next hmarked =>
      obtain ⟨part, hpart, hmarked⟩ := List.any_eq_true.mp hmarked
      exact iff_of_false (fun h => (h part hpart).2 (beq_iff_eq.mp hmarked)) nofun
    · next hplain =>
      exact iff_of_true (hparts (Bool.not_eq_true _ ▸ hempty) (Bool.not_eq_true _ ▸ hplain)) rfl

theorem Followable.edited (h : Followable path) :
    DotPath.editable path = .ok (DotPath.segments path) := by
  obtain ⟨parts, hparts⟩ := Outcome.isOk_iff.mp (followable_iff.mp h)
  rw [hparts, DotPath.eq_segments_of_editable hparts]

theorem append_eq_setPath (edited : DotPath.editable path = .ok (DotPath.segments path))
    (holds : doc.Holds path old) (ha : Append.ofOperand operand path = .ok a) :
    append doc path operand unique = doc.setPath path (.array (a.described unique old)) := by
  rw [append, ha]
  exact (Value.changeArray_eq_setPath edited holds).trans (by rw [onto_eq_described])

namespace Appendable

variable (h : Appendable doc path operand old)

include h

theorem exists_ofOperand : ∃ a, Append.ofOperand operand path = .ok a := by
  unfold Append.ofOperand
  cases heach : operand.field? "$each" with
  | none => exact ⟨_, rfl⟩
  | some each =>
    cases each with
    | array values => exact ⟨_, rfl⟩
    | _ => cases h.listed _ heach

theorem exists_setPath (v : Value) : ∃ after, doc.setPath path v = .done after := by
  have hset (w : Value) : doc.setPath path w = Value.setAt path w (DotPath.segments path) doc := by
    rw [Value.setPath, h.followable.edited]
  rcases h.holds with hitems | ⟨hnone, -⟩
  · exact Value.exists_setPath_of_lookup? h.followable.edited hitems v
  · have hcreated := h.creatable hnone
    rw [hset] at hcreated ⊢
    cases hfault : (Value.setAt path v (DotPath.segments path) doc).fault with
    | none => exact ⟨_, congrArg (Edited.mk _) hfault⟩
    | some fault =>
      rw [Value.setAt_of_fault hfault, hfault] at hcreated
      cases hcreated

end Appendable

/-- Where an edit cannot follow the path, or an `$each` lists nothing, the document stays
as it is. -/
theorem append_refused (h : ¬ Followable path ∨
    ∃ each, operand.field? "$each" = some each ∧ each.isArray = false) :
    ∃ fault, append doc path operand unique = .failed doc fault := by
  unfold append
  cases ha : Append.ofOperand operand path with
  | error fault => exact ⟨fault, rfl⟩
  | ok a =>
    have hpath : ¬ Followable path := by
      refine h.resolve_right ?_
      rintro ⟨each, heach, other⟩
      unfold Append.ofOperand at ha
      rw [heach] at ha
      cases each with
      | array => cases other
      | _ => cases ha
    cases hparts : DotPath.editable path with
    | error fault => exact ⟨fault, Value.changeArray_of_not_editable hparts⟩
    | ok parts => exact (hpath (followable_iff.mpr (Outcome.isOk_iff.mpr ⟨parts, hparts⟩))).elim

/-- A push or an addition to a set leaves the list that its operand describes, inserts at no
place past the end, and as an addition changes nothing when it is made again. Where an edit
cannot follow the path, or an `$each` is no list, it changes nothing at all. -/
theorem appended_as_described (unique inserting : Bool) (path : String) (operand doc : Value) :
    (∀ old, Appendable doc path operand old → ∃ a after,
      Append.SaidBy operand a ∧
      (appending unique path operand).apply inserting doc = .done after ∧
      after.lookup? path = some (.array (a.described unique old)) ∧
      doc.setPath path (.array (a.described unique old)) = .done after ∧
      insertEach? unique old (place old.length a.position) a.values =
        some (a.spliced unique old) ∧
      (unique = true → a.slice = none →
        (appending unique path operand).apply inserting after = .done after)) ∧
    (¬ Followable path ∨
        (∃ each, operand.field? "$each" = some each ∧ each.isArray = false) →
      ∃ fault, (appending unique path operand).apply inserting doc = .failed doc fault) := by
  constructor
  · intro old h
    obtain ⟨a, ha⟩ := h.exists_ofOperand
    obtain ⟨after, hafter⟩ := h.exists_setPath (.array (a.described unique old))
    have hlookup := Value.lookup?_of_setPath hafter
    refine ⟨a, after, Append.saidBy_of_ofOperand ha, ?_, hlookup, hafter, ?_, ?_⟩
    · rw [apply_appending, append_eq_setPath h.followable.edited h.holds ha, hafter]
    · rw [insertEach?_eq_some (place_le _ _), insertEach_eq_spliced]
    · rintro rfl uncut
      rw [apply_appending, append_eq_setPath h.followable.edited (.inl hlookup) ha,
        described_described uncut, Value.setPath_setPath hafter, hafter]
  · intro h
    rw [apply_appending]
    exact append_refused h

/-- Grades from one to three, and an addition of two values before the last one that keeps
the last three. -/
def grades (name : String) : Value :=
  .object [(name, .array [.number (.int 1), .number (.int 2), .number (.int 3)])]

def gradesAdded : Value :=
  .object [("$each", .array [.number (.int 2), .number (.int 4)]),
    ("$position", .number (.int (-1))), ("$slice", .number (.int (-3)))]

/-- The value that is there stays where it is. -/
theorem grades_appended : ∃ after,
    (appending true "t" gradesAdded).apply false (grades "t") = .done after ∧
      after.lookup? "t" =
        some (.array [.number (.int 2), .number (.int 4), .number (.int 3)]) := by
  have happendable : Appendable (grades "t") "t" gradesAdded
      [.number (.int 1), .number (.int 2), .number (.int 3)] := by
    refine ⟨followable_iff.mpr rfl, .inl rfl, nofun, ?_⟩
    rintro _ ⟨⟩
    rfl
  have hsaid : Append.SaidBy gradesAdded
      ⟨[.number (.int 2), .number (.int 4)], some (-1), some (-3)⟩ :=
    Append.saidBy_of_ofOperand (show Append.ofOperand gradesAdded "t" = _ from rfl)
  obtain ⟨a, after, said, hafter, hlookup, -⟩ :=
    (appended_as_described true false "t" gradesAdded (grades "t")).1 _ happendable
  cases Append.eq_of_saidBy said hsaid
  exact ⟨after, hafter, hlookup⟩

/-- An array under a name that starts with `$` is found there, and not appended to. -/
theorem positional_grades_refused :
    (grades "$t").lookup? "$t" =
      some (.array [.number (.int 1), .number (.int 2), .number (.int 3)]) ∧
    (appending false "$t" (.number (.int 4))).apply false (grades "$t") =
      .failed (grades "$t") (.positional "$t") ∧
    (appending false "t" (.object [("$each", .number (.int 4))])).apply false (grades "t") =
      .failed (grades "t") (.eachNotArray "t") :=
  ⟨rfl, rfl, rfl⟩

end Apply

end DocSchema

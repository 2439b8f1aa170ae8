-- SUMMARY: Selectors, sets, removals and literals tell two integers apart exactly if their doubles differ.
import DocSchema.Proofs.AppendedLists
import DocSchema.Proofs.Conditions
import DocSchema.Proofs.Rounding
import DocSchema.Proofs.Unambiguous

/-!
# Equality of integers

One comparison decides what a selector finds, what a set has already, what a `$pull` takes
away and what a literal accepts, and it compares the doubles that numbers round to. Below
`2 ^ 53` these are the numbers themselves; above, neighbours share a double, and an integer
is taken for another one.
-/

namespace DocSchema

variable {a b : Int} {bs : List Int} {path : String} {doc : Value} {inserting : Bool}

theorem Value.alike_int (a b : Int) :
    (Value.int a).alike (.int b) = decide (Double.ofInt a = Double.ofInt b) :=
  Double.beq_ofInt

namespace Selector

/-- The selectors for a number: by itself, under `$eq`, and in the list of an `$in`. -/
def forNumber (path : String) (a : Value) : List Value :=
  [.object [(path, a)], asking path "$eq" a, asking path "$in" (.array [a])]

theorem selects_int (field : DotPath.isOperator path = false)
    (found : doc.lookup? path = some (.int b)) {selector : Value}
    (h : selector ∈ forNumber path (.int a)) :
    selects selector doc = .ok (decide (Double.ofInt a = Double.ofInt b)) := by
  have hequals : equals (some (.int b)) (.int a) = decide (Double.ofInt a = Double.ofInt b) := by
    rw [equals_of_not_array rfl, Value.alike_int, decide_eq_decide]
    exact eq_comm
  simp only [forNumber, List.mem_cons, List.not_mem_nil, or_false] at h
  rcases h with rfl | rfl | rfl
  · rw [selects_single field, found]
    exact congrArg Except.ok hequals
  · rw [selects_asking field rfl (by decide), found]
    exact congrArg Except.ok hequals
  · rw [selects_asking field rfl (by decide), found]
    refine congrArg Except.ok ?_
    rw [List.any_cons, List.any_nil, Bool.or_false, hequals]

end Selector

namespace Apply

variable (edited : DotPath.editable path = .ok (DotPath.segments path))
  (found : doc.lookup? path = some (.array (bs.map .int)))

/-- A set that has an integer of the same double does not take another one. -/
theorem described_int : Append.described ⟨[.int a], none, none⟩ true (bs.map .int) =
    (if ∃ b ∈ bs, Double.ofInt a = Double.ofInt b then bs else bs ++ [a]).map .int := by
  have hany : ((bs.map Value.int).any fun item => item.alike (.int a)) =
      decide (∃ b ∈ bs, Double.ofInt a = Double.ofInt b) := by
    rw [List.any_map, Bool.eq_iff_iff, List.any_eq_true, decide_eq_true_eq]
    refine exists_congr fun b => and_congr_right fun _ => ?_
    rw [Function.comp_apply, Value.alike_int, decide_eq_true_eq]
    exact eq_comm
  rw [Append.described, Append.spliced, place, List.take_length, List.drop_length,
    List.append_nil, if_pos rfl, novel, novel, hany]
  by_cases hsame : ∃ b ∈ bs, Double.ofInt a = Double.ofInt b
  · simp [hsame]
  · simp [hsame, novel]

theorem isPulled_int : isPulled (.int a) (.int b) = decide (Double.ofInt a = Double.ofInt b) :=
  Value.alike_int a b

include edited found

theorem added_int :
    ∃ added, (Write.mk "$addToSet" path (.int a)).apply inserting doc = .done added ∧
      added.lookup? path = some (.array
        ((if ∃ b ∈ bs, Double.ofInt a = Double.ofInt b then bs else bs ++ [a]).map .int)) := by
  have hoperand : Append.ofOperand (.int a) path = .ok ⟨[.int a], none, none⟩ := rfl
  have hadd : append doc path (.int a) true = doc.setPath path (.array
      ((if ∃ b ∈ bs, Double.ofInt a = Double.ofInt b then bs else bs ++ [a]).map .int)) := by
    rw [append_eq_setPath edited (.inl found) hoperand, described_int]
  obtain ⟨added, hadded⟩ := Value.exists_setPath_of_lookup? edited found (.array _)
  exact ⟨added, hadd.trans hadded, Value.lookup?_of_setPath hadded⟩

theorem pulled_int :
    ∃ left, (Write.mk "$pull" path (.int a)).apply inserting doc = .done left ∧
      left.lookup? path = some (.array
        ((bs.filter fun b => Double.ofInt a ≠ Double.ofInt b).map .int)) := by
  have hkept : ((bs.map Value.int).filter fun item => !isPulled (.int a) item) =
      (bs.filter fun b => Double.ofInt a ≠ Double.ofInt b).map .int := by
    rw [List.filter_map]
    refine congrArg (List.map Value.int) (List.filter_congr fun b _ => ?_)
    rw [Function.comp_apply, isPulled_int, decide_not]
  have hpull : pull doc path (.int a) = doc.setPath path (.array
      ((bs.filter fun b => Double.ofInt a ≠ Double.ofInt b).map .int)) := by
    rw [pull, found, if_neg (by simp), Value.changeArray_eq_setPath edited (.inl found), hkept]
  obtain ⟨left, hleft⟩ := Value.exists_setPath_of_lookup? edited found (.array _)
  exact ⟨left, hpull.trans hleft, Value.lookup?_of_setPath hleft⟩

end Apply

namespace Node

theorem isOk_parser_literal_int (ctx : Context) (location : Location) :
    ((Node.literal (.int a)).parser (some (.int b)) ctx location).isOk =
      decide (Double.ofInt a = Double.ofInt b) := by
  rw [Bool.eq_iff_iff, isOk_parser_iff, Accepts]
  simp only [parses_literal_iff]
  simp [Value.alike_int]

theorem rules_literal_int (location : Location) :
    ∃ r, (Node.literal (.int a)).rules location = .ok r ∧ ∀ b,
      Validator.validateDirectly r (.int b) = .ok () ↔ Double.ofInt a = Double.ofInt b := by
  refine ⟨[("enum", .array [.int a])], by rw [rules]; rfl, fun b => ?_⟩
  rw [accepts_iff_validateDirectly, (accepts_values_iff _).2]
  simp [Value.alike_int]

end Node

/-- Wherever integers are compared for equality, one passes for another exactly if both round
to the same double; none does if one of them is below `2 ^ 53`. -/
theorem integers_equal_iff_same_double (a : Int) :
    (∀ b path doc, DotPath.isOperator path = false → doc.lookup? path = some (.int b) →
      ∀ selector ∈ Selector.forNumber path (.int a),
        Selector.selects selector doc = .ok (decide (Double.ofInt a = Double.ofInt b))) ∧
    (∀ bs path doc inserting, DotPath.editable path = .ok (DotPath.segments path) →
      doc.lookup? path = some (.array (bs.map .int)) →
      (∃ added, (Write.mk "$addToSet" path (.int a)).apply inserting doc = .done added ∧
        added.lookup? path = some (.array
          ((if ∃ b ∈ bs, Double.ofInt a = Double.ofInt b then bs else bs ++ [a]).map .int))) ∧
      ∃ left, (Write.mk "$pull" path (.int a)).apply inserting doc = .done left ∧
        left.lookup? path = some (.array
          ((bs.filter fun b => Double.ofInt a ≠ Double.ofInt b).map .int))) ∧
    (∀ b ctx location, ((Node.literal (.int a)).parser (some (.int b)) ctx location).isOk =
      decide (Double.ofInt a = Double.ofInt b)) ∧
    (∀ location, ∃ r, (Node.literal (.int a)).rules location = .ok r ∧ ∀ b,
      Validator.validateDirectly r (.int b) = .ok () ↔ Double.ofInt a = Double.ofInt b) ∧
    ∀ b, a ≠ b → a.natAbs < 2 ^ 53 ∨ b.natAbs < 2 ^ 53 → Double.ofInt a ≠ Double.ofInt b := by
  refine ⟨fun b path doc field found selector => Selector.selects_int field found,
    fun bs path doc inserting edited found =>
      ⟨Apply.added_int edited found, Apply.pulled_int edited found⟩,
    fun b => Node.isOk_parser_literal_int, Node.rules_literal_int, fun b hne small heq => ?_⟩
  rcases small with ha | hb
  · exact hne (Double.ofInt_injective heq ha)
  · exact hne (Double.ofInt_injective heq.symm hb).symm

/-- The integer `2 ^ 53` as a count, and in a list of counts. -/
def counts : Value :=
  .object [("before", .array [.int 9007199254740992]), ("n", .int 9007199254740992)]

/-- The last integer below `2 ^ 53` is not taken for the next one. -/
theorem last_small_told_apart :
    (∀ selector ∈ Selector.forNumber "n" (.int 9007199254740991),
      Selector.selects selector counts = .ok false) ∧
    ∃ added, (Write.mk "$addToSet" "before" (.int 9007199254740991)).apply false counts =
        .done added ∧
      added.lookup? "before" = some (.array [.int 9007199254740992, .int 9007199254740991]) := by
  obtain ⟨hselects, hwrites, -, -, hdiffer⟩ := integers_equal_iff_same_double 9007199254740991
  have hdoubles := hdiffer 9007199254740992 (by decide) (.inl (by decide))
  constructor
  · intro selector h
    rw [hselects 9007199254740992 "n" _ rfl rfl selector h, decide_eq_false hdoubles]
  · obtain ⟨added, hadded, hfound⟩ := (hwrites [9007199254740992] "before" counts false rfl rfl).1
    refine ⟨added, hadded, hfound.trans ?_⟩
    rw [if_neg (by simpa using hdoubles)]
    rfl

/-- Of `2 ^ 53` and the integer after it, each passes for the other. -/
theorem neighbours_confused : (9007199254740993 : Int) ≠ 9007199254740992 ∧
    (∀ selector ∈ Selector.forNumber "n" (.int 9007199254740993),
      Selector.selects selector counts = .ok true) ∧
    (∃ added, (Write.mk "$addToSet" "before" (.int 9007199254740993)).apply false counts =
        .done added ∧
      added.lookup? "before" = some (.array [.int 9007199254740992])) ∧
    (∃ left, (Write.mk "$pull" "before" (.int 9007199254740993)).apply false counts =
        .done left ∧
      left.lookup? "before" = some (.array [])) ∧
    ((Node.literal (.int 9007199254740993)).parser (some (.int 9007199254740992)) .detached
      .root).isOk = true ∧
    ∃ r, (Node.literal (.int 9007199254740993)).rules .root = .ok r ∧
      Validator.validateDirectly r (.int 9007199254740992) = .ok () := by
  have hsame : Double.ofInt 9007199254740993 = Double.ofInt 9007199254740992 := by decide
  have edited : DotPath.editable "before" = .ok (DotPath.segments "before") := rfl
  have found : counts.lookup? "before" = some (.array ([9007199254740992].map .int)) := rfl
  refine ⟨by decide, fun selector h => ?_, ?_, ?_, ?_, ?_⟩
  · rw [Selector.selects_int (b := 9007199254740992) rfl rfl h, decide_eq_true hsame]
  · obtain ⟨added, hadded, hfound⟩ := Apply.added_int (a := 9007199254740993) edited found
    refine ⟨added, hadded, hfound.trans ?_⟩
    rw [if_pos (by simpa using hsame)]
    rfl
  · obtain ⟨left, hleft, hfound⟩ := Apply.pulled_int (a := 9007199254740993) edited found
    refine ⟨left, hleft, hfound.trans ?_⟩
    rw [List.filter_cons_of_neg (by simpa using hsame)]
    rfl
  · rw [Node.isOk_parser_literal_int, decide_eq_true hsame]
  · obtain ⟨r, compiled, haccepts⟩ := Node.rules_literal_int (a := 9007199254740993) .root
    exact ⟨r, compiled, (haccepts _).mpr hsame⟩

end DocSchema

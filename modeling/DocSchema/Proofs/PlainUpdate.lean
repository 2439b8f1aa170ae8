-- SUMMARY: When a plain update keeps to the keys that its modifier has.
import DocSchema.Proofs.Payloads
import DocSchema.Schema.Field

/-!
# Plain updates

An update that inserts nothing runs the fields that its modifier leaves alone as
absent, so that a default that relaxing did not reach gives such a field a value.
Without transforms this is the only way in which a key is added.
-/

namespace DocSchema

namespace Modifier

variable {s : UpdateSchema} {ctx : Context}

/-- The top-level fields that a modifier writes or targets. -/
def touchedRoots (m : Modifier) : List String :=
  (match Entries.get? m "$set" with
    | some (.object fields) => writtenRoots fields
    | _ => []) ++ targetedRoots m

theorem touchedRoots_eq {m : Modifier} {input : Entries Value}
    (h : (Entries.get? m "$set").getD .empty = .object input) :
    touchedRoots m = writtenRoots input ++ targetedRoots m := by
  unfold touchedRoots
  cases hget : Entries.get? m "$set" with
  | none =>
    rw [hget] at h
    cases h
    rfl
  | some payload =>
    rw [hget] at h
    cases h
    rfl

theorem parse_plain_eq_ok_iff {modifier : Value} {out : Modifier} :
    parse s modifier false ctx = .ok out ↔ ∃ m others set, normalize s modifier = .ok m ∧
      parseOperators s ctx m = .ok others ∧
      parseAndFill s ((Entries.get? m "$set").getD .empty) (targetedRoots m) ctx = .ok set ∧
      out = put others "$set" set := by
  simp only [parse, Outcome.bind_eq_ok, Bool.false_eq_true, if_false, Except.ok.injEq]
  constructor
  · rintro ⟨m, hm, others, hothers, set, hset, _, rfl, rfl⟩
    exact ⟨m, others, set, hm, hothers, hset, rfl⟩
  · rintro ⟨m, others, set, hm, hothers, hset, rfl⟩
    exact ⟨m, hm, others, hothers, set, hset, others, rfl, rfl⟩

/-- Every key of the parsed `$set` was there before, or is a field that answers absence. -/
theorem mem_keys_parseAndFill_iff {m : Modifier} {set : Entries Value}
    (named : Node.Named (.object s.base s.catchall))
    (plain : ∀ f ∈ s.base, Node.Every Node.Untransformed f.2)
    (h : parseAndFill s ((Entries.get? m "$set").getD .empty) (targetedRoots m) ctx = .ok set) :
    (∀ key ∈ Entries.keys set, HasKey m "$set" key) ↔
      ∀ f ∈ s.base, f.1 ∉ touchedRoots m → ∀ v, ¬ Node.Answers ctx v f.2.relax := by
  obtain ⟨input, parsed, filled, hpayload, hparsed, hfilled, rfl⟩ := parseAndFill_eq_ok_iff.mp h
  have hkey (key : String) : HasKey m "$set" key ↔ key ∈ Entries.keys input := by
    unfold HasKey
    cases hget : Entries.get? m "$set" with
    | none =>
      rw [hget] at hpayload
      cases hpayload
      simp [Entries.keys]
    | some payload =>
      rw [hget] at hpayload
      cases hpayload
      simp
  rw [touchedRoots_eq hpayload]
  constructor
  · intro hkeys f hf huntouched v hanswers
    have hunwritten : f ∈ unwritten s (writtenRoots input ++ targetedRoots m) := by
      refine List.mem_filter.mpr ⟨hf, ?_⟩
      simp only [hanswers.acceptsAbsent, Bool.and_true, Bool.not_eq_true', List.contains_eq_mem,
        decide_eq_false_iff_not]
      exact huntouched
    have hparses := (Node.parses_none_some_iff (Node.untransformed_relax (plain f hf))).mpr hanswers
    rcases hfilled.target hunwritten with hnone | ⟨w, -, hw⟩
    · cases hparses.unique hnone
    · -- The name has no dot, so a key of that name would have been a written root.
      have hset := hkeys f.1 (Entries.mem_keys_insertAll.mpr
        (.inr (List.mem_map.mpr ⟨_, hw, rfl⟩)))
      obtain ⟨e, he, hname⟩ := List.mem_map.mp ((hkey f.1).mp hset)
      refine huntouched (List.mem_append_left _ (List.mem_map.mpr ⟨e, he, ?_⟩))
      rw [hname, DotPath.rootOf_of_not_hasDot (nameRule?_eq_none (named f hf)).2.1]
  · intro hsilent key hmem
    rw [hkey]
    rcases Entries.mem_keys_insertAll.mp hmem with hmem | hmem
    · exact hparsed.sublist_keys.subset hmem
    · obtain ⟨e, he, rfl⟩ := List.mem_map.mp hmem
      obtain ⟨f, hf, -, hfills⟩ := hfilled.source he
      obtain ⟨hbase, hcondition⟩ := List.mem_filter.mp hf
      simp only [Bool.and_eq_true, Bool.not_eq_true', List.contains_eq_mem,
        decide_eq_false_iff_not] at hcondition
      exact (hsilent f hbase hcondition.1 e.2 ((Node.parses_none_some_iff
        (Node.untransformed_relax (plain f hbase))).mp hfills)).elim

theorem normalize_empty {m : Modifier} (h : normalize s .empty = .ok m) :
    m = [("$set", .empty)] := by
  cases h
  rfl

/-- A plain update keeps to the keys of its modifier exactly if no field that the
modifier leaves alone answers absence; the empty modifier then stays empty. -/
theorem plain_update_adds_no_key_iff {root : Node} (clean : root.lint = .ok ())
    (plain : Node.Every Node.Untransformed root) (relaxed : root.relaxed = .ok s)
    {modifier : Value} {m out : Modifier} (normal : normalize s modifier = .ok m)
    (parsed : parse s modifier false ctx = .ok out) :
    ((∀ operator key, HasKey out operator key → HasKey m operator key) ↔
      ∀ f ∈ s.base, f.1 ∉ touchedRoots m → ∀ v, ¬ Node.Answers ctx v f.2.relax) ∧
    (modifier = .empty → (out = [] ↔ ∀ f ∈ s.base, ∀ v, ¬ Node.Answers ctx v f.2.relax)) := by
  have hroot := Node.relaxed_eq_ok relaxed
  have named := (hroot.every Node.keptByMerging_named (Node.named_of_lint clean)).here
  have hplain : ∀ f ∈ s.base, Node.Every Node.Untransformed f.2 := fun f hf =>
    (hroot.every Node.keptByMerging_untransformed plain).field hf
  obtain ⟨m', others, set, hm', hothers, hset, rfl⟩ := parse_plain_eq_ok_iff.mp parsed
  cases hm'.symm.trans normal
  have hsilent := mem_keys_parseAndFill_iff named hplain hset
  have hkeys : (∀ operator key, HasKey (put others "$set" set) operator key →
      HasKey m operator key) ↔ ∀ key ∈ Entries.keys set, HasKey m "$set" key := by
    constructor
    · intro h key hkey
      refine h "$set" key ?_
      rw [hasKey_put, if_pos rfl]
      exact hkey
    · intro h operator key hkey
      rw [hasKey_put] at hkey
      by_cases hop : "$set" = operator
      · rw [if_pos hop] at hkey
        exact hop ▸ h key hkey
      · rw [if_neg hop] at hkey
        exact (hasKey_of_parseOperators hothers hkey).2
  refine ⟨hkeys.trans hsilent, ?_⟩
  rintro rfl
  cases normalize_empty normal
  cases hothers
  have huntouched : touchedRoots [("$set", Value.empty)] = [] := rfl
  have hnone (key : String) : ¬ HasKey [("$set", Value.empty)] "$set" key := by
    rintro ⟨payload, hget, hmem⟩
    cases hget
    cases hmem
  simp only [huntouched, List.not_mem_nil, not_false_eq_true, forall_const] at hsilent
  rw [← hsilent]
  cases set with
  | nil => exact iff_of_true rfl (by simp [Entries.keys])
  | cons e rest =>
    refine iff_of_false (by simp [put, Entries.insert]) fun h => ?_
    exact hnone e.1 (h e.1 List.mem_cons_self)

/-- A name with a default that relaxing takes off. -/
def greeting : List (String × Node) :=
  [("name", .withDefault Field.nonEmptyString fun _ => some (.string "anonymous"))]

theorem greeting_silent : parse ⟨greeting, none⟩ .empty false .detached = .ok [] ∧
    ∀ f ∈ greeting, ∀ v, ¬ Node.Answers .detached v f.2.relax := by
  have hparse : parse ⟨greeting, none⟩ .empty false .detached = .ok [] :=
    parse_plain_eq_ok_iff.mpr ⟨[("$set", .empty)], [], [], rfl, rfl, rfl, rfl⟩
  have hplain : Node.Every Node.Untransformed (.object greeting none) :=
    .of_object trivial (List.forall_mem_singleton.mpr
      (.of_inner trivial rfl (.of_leaf trivial rfl))) (by simp)
  have hclean : (Node.object greeting none).lint = .ok () := rfl
  exact ⟨hparse, ((plain_update_adds_no_key_iff hclean hplain rfl rfl hparse).2 rfl).mp rfl⟩

/-- Tags whose elements have a default, which relaxing leaves on them. -/
def tagged : List (String × Node) :=
  [("tags", .array (.withDefault Field.nonEmptyString fun _ => some (.string "x")))]

/-- The empty modifier sets the tags to the default of an element. -/
theorem tagged_answers : (Node.object tagged none).lint = .ok () ∧
    Node.Every Node.Untransformed (.object tagged none) ∧
    (Node.object tagged none).relaxed = .ok ⟨tagged, none⟩ ∧
    parse ⟨tagged, none⟩ .empty false .detached =
      .ok [("$set", .object [("tags", .string "x")])] := by
  refine ⟨rfl, ?_, rfl, ?_⟩
  · exact .of_object trivial (List.forall_mem_singleton.mpr
      (.of_inner trivial rfl (.of_inner trivial rfl (.of_leaf trivial rfl)))) (by simp)
  · refine parse_plain_eq_ok_iff.mpr ⟨[("$set", .empty)], [], [("tags", .string "x")], rfl, rfl,
      ?_, rfl⟩
    refine parseAndFill_eq_ok_iff.mpr ⟨[], [], [("tags", .string "x")], rfl, .nil, ?_, rfl⟩
    refine .keep ?_ .nil
    -- The array itself is no answer, its element is.
    refine Node.parses_union_iff.mpr ⟨[_], _, [_], rfl, List.forall_mem_singleton.mpr ?_, ?_⟩
    · simp [Node.stripDefaults, Node.parses_array_iff]
    · exact Node.parses_withDefault_none.mpr (Node.parses_string_iff.mpr ⟨"x", rfl, by decide, rfl⟩)

end Modifier

end DocSchema

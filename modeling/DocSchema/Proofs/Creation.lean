-- SUMMARY: Which updates leave the fields of creation alone.
import DocSchema.Proofs.ModelCalls
import DocSchema.Proofs.Sends

/-!
# The fields of creation

The types of creation drop every value that an update gives them, and no path
leads below them. An update therefore reaches such a field only by an operator
that is passed on unparsed: those can take the field away or change its value.
-/

namespace DocSchema

/-! ## Declared fields -/

namespace DotPath

theorem splitDots_of_mem {cs : List Char} (h : '.' ∈ cs) :
    ∃ first second rest, splitDots cs = first :: second :: rest := by
  induction cs with
  | nil => cases h
  | cons c cs ih =>
    rw [splitDots]
    split
    · cases hrest : splitDots cs with
      | nil => exact (splitDots_ne_nil cs hrest).elim
      | cons second rest => exact ⟨[], second, rest, rfl⟩
    · next hne =>
      obtain ⟨first, second, rest, heq⟩ := ih ((List.mem_cons.mp h).resolve_left (Ne.symm hne))
      rw [heq]
      exact ⟨c :: first, second, rest, rfl⟩

theorem segments_of_hasDot {path : String} (h : hasDot path = true) :
    ∃ second rest, segments path = rootOf path :: second :: rest := by
  have hmem : '.' ∈ path.toList := by simpa [hasDot] using h
  obtain ⟨first, second, rest, heq⟩ := splitDots_of_mem hmem
  refine ⟨String.ofList second, rest.map String.ofList, ?_⟩
  unfold rootOf segments
  rw [heq]
  rfl

end DotPath

namespace Node

/-- No segment leads below the node. -/
def Shut (n : Node) : Prop := ∀ segment, n.step? segment = none

end Node

namespace UpdateSchema

/-- The schema declares a field of the name, and all its fields of the name are of
one type. -/
structure Declares (s : UpdateSchema) (name : String) (n : Node) : Prop where
  declared : (name, n) ∈ s.base
  unique : ∀ f ∈ s.base, f.1 = name → f.2 = n

namespace Declares

variable {s : UpdateSchema} {name : String} {n : Node}

theorem of_distinct (distinct : (Entries.keys s.base).Nodup) (h : (name, n) ∈ s.base) :
    s.Declares name n := ⟨h, Entries.eq_of_mem distinct h⟩

theorem get?_base (declares : s.Declares name n) : Entries.get? s.base name = some n := by
  cases h : Entries.get? s.base name with
  | none => exact (Entries.get?_eq_none_iff.mp h (Entries.mem_keys_of_mem declares.declared)).elim
  | some n' => exact congrArg some (declares.unique _ (Entries.mem_of_get? h) rfl)

/-- A key that leads into a field that is shut is its name. -/
theorem eq_of_nodeFor? (declares : s.Declares name n) (shut : n.Shut) {path : String} {n' : Node}
    (root : DotPath.rootOf path = name) (h : s.nodeFor? path = some n') :
    path = name ∧ n' = n.relax := by
  unfold nodeFor? at h
  split at h
  · next hdot =>
    obtain ⟨second, rest, hsegments⟩ := DotPath.segments_of_hasDot hdot
    obtain ⟨below, hbelow, -⟩ := Option.map_eq_some_iff.mp h
    unfold baseNodeFor? at hbelow
    rw [hsegments, root, Node.walk?, Node.step?, Node.lookup, declares.get?_base] at hbelow
    simp only [Option.orElse_eq_orElse, Option.orElse_eq_or, Option.some_or, Option.bind_some,
      Node.walk?, shut second, Option.bind_none] at hbelow
    cases hbelow
  · next hdot =>
    have hpath : path = name :=
      (DotPath.rootOf_of_not_hasDot (Bool.eq_false_iff.mpr hdot)).symm.trans root
    subst hpath
    refine ⟨rfl, ?_⟩
    unfold field? fields Node.lookup at h
    rw [Entries.get?_map, declares.get?_base] at h
    exact (Option.some.inj h).symm

end Declares

end UpdateSchema

/-! ## Fields of creation -/

namespace Field

open Node

theorem parses_mapped_iff {ctx : Context} {n : Node} {f : Option Value → Context → Option Value}
    {value result : Option Value} : Parses ctx (n.mapped f) value result ↔
      ∃ parsed, Parses ctx n value parsed ∧ f parsed ctx = result := by
  unfold mapped
  rw [parses_transform_iff]
  simp [FacetFits]

theorem shut_of_creation {n : Node} (creation : n = createdTimestamp ∨ n = createdUser) :
    n.Shut := by
  intro segment
  rcases creation with rfl | rfl
  · simp [createdTimestamp, mapped, defaultWith, step?]
  · simp [createdUser, nonEmptyString, mapped, step?]

/-- An update drops what it is given for a field of creation. -/
theorem eq_none_of_creation {n : Node} (creation : n = createdTimestamp ∨ n = createdUser)
    {ctx : Context} (update : ctx.isUpdate = true) {value result : Option Value}
    (h : Parses ctx n.relax value result) : result = none := by
  have dropped {inner : Node} (hrelax : n.relax =
      inner.mapped fun v ctx => if ctx.isUpdate then none else v) : result = none := by
    rw [hrelax] at h
    obtain ⟨parsed, -, heq⟩ := parses_mapped_iff.mp h
    rw [← heq, update, if_pos rfl]
  rcases creation with rfl | rfl
  · exact dropped rfl
  · exact dropped rfl

end Field

namespace Modifier

/-- An update that is parsed reaches a field of creation only by what it passes on
unparsed. -/
theorem not_reaches_creation {s : UpdateSchema} {ctx : Context} {name : String} {n : Node}
    {modifier : Value} {sent : Modifier} (named : ∀ f ∈ s.base, Node.nameRule? f.1 = none)
    (declares : s.Declares name n)
    (creation : n = Field.createdTimestamp ∨ n = Field.createdUser)
    (update : ctx.isUpdate = true) (parsed : parse s modifier false ctx = .ok sent)
    (unpassed : ∀ w ∈ writesOf modifier, w.operator ∈ passedOperators → name ∉ w.roots) :
    ∀ w ∈ writes sent, ¬ w.Reaches false name := by
  obtain ⟨m, hm, hsends⟩ := sends_of_parse parsed
  rintro w hw ⟨hroot, -⟩
  cases hsends w hw with
  | @parsed operator path v operand _ hoperator hparses =>
    have hrename := ne_rename_of_parsed hoperator
    obtain ⟨n', hn', hparses⟩ := hparses
    obtain ⟨-, rfl⟩ := declares.eq_of_nodeFor? (Field.shut_of_creation creation)
      ((Write.mem_roots_iff hrename).mp hroot) hn'
    cases Field.eq_none_of_creation creation update hparses
  | passed hmem hoperator =>
    rcases writesOf_of_normalize hm hmem with hasked | ⟨happends, -⟩
    · exact unpassed w hasked hoperator hroot
    · rcases happends with happends | happends <;> rw [happends] at hoperator <;>
        exact absurd hoperator (by decide)
  | @filled f v hf _ hfills =>
    have hname : f.1 = name := by
      have hset : "$set" ≠ "$rename" := by decide
      have hroot := (Write.mem_roots_iff hset).mp hroot
      rwa [DotPath.rootOf_of_not_hasDot (nameRule?_eq_none (named f hf)).2.1] at hroot
    rw [FillsField, declares.unique f hf hname] at hfills
    cases Field.eq_none_of_creation creation update hfills
  | remembered hupsert => cases hupsert

end Modifier

namespace Model

/-- A field of creation that a document holds stays as it is through every update,
unless an operator that is passed on unparsed leads into it. -/
theorem update_keeps_creation {collection : String} {root : Node} {config : ModelConfig} {m : Model}
    (defined : ofSchema collection root config = .ok m) {name : String} {n : Node}
    (declares : m.relaxed.Declares name n)
    (creation : n = Field.createdTimestamp ∨ n = Field.createdUser) (store : Store)
    (sorted : Entries.Sorted (store.collection m.collection).documents) {key : String}
    {doc v : Value} (stored : Entries.get? (store.collection m.collection).documents key = some doc)
    (held : doc.field? name = some v) (selector modifier : Value) (a : Ambient)
    (unpassed : ∀ w ∈ Modifier.writesOf modifier, w.operator ∈ Modifier.passedOperators →
      name ∉ w.roots) :
    ∃ doc', Entries.get? ((m.update store selector modifier false false a).store.collection
        m.collection).documents key = some doc' ∧ doc'.field? name = some v := by
  have named : ∀ f ∈ m.relaxed.base, Node.nameRule? f.1 = none :=
    ((Node.relaxed_eq_ok (ofSchema_eq_ok defined).2.2).every Node.keptByMerging_named
      (named_of_ofSchema defined)).here
  rcases m.update_cases store a selector modifier false with
    ⟨sent, outcome, c, hsent, hupdates, -, hstore⟩ | ⟨-, hstore⟩
  · rw [hstore]
    cases hupdates with
    | @matched key' current next hfound happly _ _ =>
      dsimp only
      rw [Entries.get?_insert]
      split
      · next hkey =>
        subst hkey
        cases (Entries.get?_of_mem sorted.distinct
          (Collection.mem_of_firstMatch hfound)).symm.trans stored
        refine ⟨next, rfl, ?_⟩
        rw [Apply.field?_of_writes (Apply.writes_of_operators happly)
          (Modifier.not_reaches_creation named declares creation rfl hsent unpassed), held]
      · exact ⟨doc, stored, held⟩
    | inserted _ hupsert => cases hupsert
    | unmatched => exact ⟨doc, stored, held⟩
  · rw [hstore]
    exact ⟨doc, stored, held⟩

/-- Notes with an `_id` and their author. -/
def notes : List (String × Node) :=
  [("_id", .optional Field.nonEmptyString), ("createdBy", Field.createdUser)]

def nonEmptyText : Value := .object [("bsonType", .string "string"), ("minLength", .int 1)]

theorem check_nonEmptyText (matching : Validator.Matching) (location : Location) :
    Validator.check matching nonEmptyText (.string "a") location = .ok () := by
  rw [nonEmptyText, Validator.check_object]
  rfl

def notesValidator : Validator :=
  ⟨[("additionalProperties", .bool false), ("bsonType", .string "object"),
    ("properties", .object [("_id", nonEmptyText), ("createdBy", nonEmptyText)])], []⟩

def notesModel : Model :=
  ⟨"notes", .object notes none, ⟨notes, none⟩, notesValidator, .standard⟩

theorem ofSchema_notes : ofSchema "notes" (.object notes none) .standard = .ok notesModel := by
  refine ofSchema_of_eq_ok "notes" rfl rfl ?_ rfl
  rw [notes, Node.compile_object, Node.rules_object]
  simp only [List.map, Node.rules, Node.acceptsAbsent, Field.createdUser, Node.mapped,
    Field.nonEmptyString]
  rfl

theorem notes_declare : notesModel.relaxed.Declares "createdBy" Field.createdUser :=
  .of_distinct (by decide) (by simp [notesModel, notes])

/-- A store with one note, by Ann. -/
def annsNote : Store :=
  ⟨[("notes", ⟨[("a", .object [("_id", .string "a"), ("createdBy", .string "ann")])],
    some (notesValidator, .standard)⟩)]⟩

/-- Setting the author of a note changes nothing. -/
theorem author_kept : ∃ doc, Entries.get? ((notesModel.update annsNote (.string "a")
      (.object [("$set", .object [("createdBy", .string "eve")])]) false false default).store.collection
        "notes").documents "a" = some doc ∧ doc.field? "createdBy" = some (.string "ann") :=
  update_keeps_creation ofSchema_notes notes_declare (.inr rfl) annsNote
    (List.pairwise_singleton _ _) rfl rfl (.string "a")
    (.object [("$set", .object [("createdBy", .string "eve")])]) default (by
      intro w hw hoperator
      cases List.mem_singleton.mp hw
      revert hoperator
      decide)

/-- An update takes the author of a note away by `$unset`. -/
theorem author_unset : ofSchema "notes" (.object notes none) .standard = .ok notesModel ∧
    notesModel.relaxed.Declares "createdBy" Field.createdUser ∧
    notesModel.update annsNote (.string "a")
      (.object [("$unset", .object [("createdBy", .string "")])]) false false default =
        ⟨.ok ⟨1, 1, none⟩, ⟨[("notes", ⟨[("a", .object [("_id", .string "a")])],
          some (notesValidator, .standard)⟩)]⟩⟩ := by
  refine ⟨ofSchema_notes, notes_declare, ?_⟩
  have hsent (ctx : Context) : Modifier.parse ⟨notes, none⟩
      (.object [("$unset", .object [("createdBy", .string "")])]) false ctx =
        .ok [("$unset", .object [("createdBy", .string "")])] := by
    refine Modifier.parse_plain_eq_ok_iff.mpr ⟨_, _, [], rfl, rfl, ?_, rfl⟩
    refine Modifier.parseAndFill_eq_ok_iff.mpr ⟨[], [], [], rfl, .nil, ?_, rfl⟩
    exact .drop (Node.parses_optional_none.mpr rfl) .nil
  have hmatch : Collection.firstMatch (.string "a") (annsNote.collection "notes").documents =
      .ok (some ("a", .object [("_id", .string "a"), ("createdBy", .string "ann")])) := by
    change Collection.firstMatch (.string "a") [_] = _
    rw [Collection.firstMatch, Selector.selects]
    rfl
  have hvalid : notesValidator.validate (.object [("_id", .string "a")]) = .ok () := by
    unfold Validator.validate
    rw [Validator.check_object]
    change (do Validator.check notesValidator.matching nonEmptyText (.string "a") _; .ok ()) = _
    rw [check_nonEmptyText]
    rfl
  have henforce : (annsNote.collection "notes").enforce "notes" (.object [("_id", .string "a")])
      (some (.object [("_id", .string "a"), ("createdBy", .string "ann")])) = .ok () :=
    Collection.enforce_of_validate rfl hvalid _
  exact (update_of_updates (m := notesModel) (hsent _) (.matched hmatch rfl rfl henforce)).trans rfl

end Model

end DocSchema

-- SUMMARY: Identities of stored documents: the key of an `_id`, and values that are alike.
import DocSchema.Proofs.Double
import DocSchema.Proofs.Histories
import Mathlib.Data.List.Induction

/-!
# Identities

Three notions of sameness meet in a collection: a document is stored under the key
of its `_id`, an update may put an equal `_id` in its place, and a selector finds
what is alike. Equal values are alike, but two values may have one key and not be
alike, or be alike and have two keys. Over a class of identifiers on which keys and
likeness agree, and over no other, every history keeps the identities of documents.
-/

namespace DocSchema

namespace Value

theorem eq_string_of_beq {v : Value} {text : String} (h : (v == .string text) = true) :
    v = .string text := by
  cases v with
  | string text' => exact congrArg Value.string (beq_iff_eq.mp h)
  | _ => cases h

end Value

namespace Collection

variable {c c' : Collection} {name : String} {fits : String → Value → Prop}

/-! ## Keys -/

/-- Each document is an object with an `_id` that fits the key. -/
def KeyedBy (fits : String → Value → Prop) (documents : Entries Value) : Prop :=
  ∀ key doc, Entries.get? documents key = some doc →
    ∃ id, doc.field? "_id" = some id ∧ fits key id

/-- The value is the `_id` of a document. -/
def Holds (documents : Entries Value) (id : Value) : Prop :=
  ∃ key doc, Entries.get? documents key = some doc ∧ doc.field? "_id" = some id

theorem KeyedBy.insert {documents : Entries Value} (keyed : KeyedBy fits documents) {key : String}
    {doc id : Value} (hid : doc.field? "_id" = some id) (hfits : fits key id) :
    KeyedBy fits (Entries.insert documents key doc) := by
  intro other held hheld
  rw [Entries.get?_insert] at hheld
  split at hheld
  · next hkey =>
    cases hheld
    exact ⟨id, hid, hkey ▸ hfits⟩
  · exact keyed other held hheld

/-- A document that may replace another one has an `_id` if that one had. -/
theorem exists_equal_id {current next old : Value}
    (hequal : (next.field? "_id" == current.field? "_id") = true)
    (hold : current.field? "_id" = some old) :
    ∃ new, next.field? "_id" = some new ∧ (new == old) = true := by
  rw [hold] at hequal
  cases hnew : next.field? "_id" with
  | none =>
    rw [hnew] at hequal
    cases hequal
  | some new =>
    rw [hnew] at hequal
    exact ⟨new, rfl, hequal⟩

/-- A change keeps documents keyed if what is inserted fits its key, and what replaces
an equal `_id` fits where that one did. -/
theorem Change.keyedBy (h : Change name c c') (keyed : KeyedBy fits c.documents)
    (inserted : ∀ fields id, Entries.get? fields "_id" = some id →
      c.enforce name (.object fields) none = .ok () → fits id.idKey id)
    (replaced : ∀ key old new, Holds c.documents old → Holds c'.documents new →
      (new == old) = true → fits key old → fits key new) : KeyedBy fits c'.documents := by
  cases h with
  | kept => exact keyed
  | @inserted fields id hid _ henforce => exact keyed.insert hid (inserted fields id hid henforce)
  | @replaced key current next hcurrent hequal _ =>
    obtain ⟨old, hold, hfits⟩ := keyed key current hcurrent
    obtain ⟨new, hnew, hsame⟩ := exists_equal_id hequal hold
    have hheld : Holds (Entries.insert c.documents key next) new :=
      ⟨key, next, Entries.get?_insert_self _ _ _, hnew⟩
    exact keyed.insert hnew (replaced key old new ⟨key, current, hcurrent, hold⟩ hheld hsame hfits)
  | removed stays =>
    intro key doc hdoc
    dsimp only at hdoc
    rw [Entries.get?_filter] at hdoc
    split at hdoc
    · exact keyed key doc hdoc
    · cases hdoc

/-! ## Duplicates -/

/-- An insertion fails for its key exactly if the key is taken. -/
theorem insert_duplicate_iff {fields : Entries Value} {id : Value}
    (hid : Entries.get? fields "_id" = some id) (fresh : Uuid) :
    (insert name (.object fields) fresh).run c = .error (.duplicateKey name id.idKey) c ↔
      ∃ doc, Entries.get? c.documents id.idKey = some doc := by
  rw [← Option.isSome_iff_exists, insert_eq_error_iff, identified_of_get? hid]
  constructor
  · rintro (⟨hcontains, -⟩ | ⟨-, henforce⟩)
    · exact hcontains
    · obtain ⟨_, _, _, -, -, ⟨⟩⟩ := rejected_of_enforce henforce
  · exact fun hcontains => .inl ⟨hcontains, rfl⟩

end Collection

namespace Store

variable {s : Store} {name : String}

/-! ## Histories -/

/-- A call that attaches a validator to a collection leaves its documents alone. -/
theorem documents_after_attaches {call : Call} (attaches : call.Attaches name) :
    ((s.after call).collection name).documents = (s.collection name).documents := by
  cases call with
  | setValidator collection v settings =>
    cases attaches
    unfold after
    rw [collection_setValidator]
  | _ => cases attaches

/-- What the documents of a collection are identified by. -/
structure Identified (Ids : Value → Prop) (s : Store) (name : String) : Prop where
  /-- Each document is an object under the key of its own `_id`. -/
  keyed : Collection.KeyedBy (fun key id => id.idKey = key) (s.collection name).documents
  /-- Documents whose identifiers are alike are one. -/
  unique : ∀ key key' doc doc' id id', Entries.get? (s.collection name).documents key = some doc →
    Entries.get? (s.collection name).documents key' = some doc' →
    doc.field? "_id" = some id → doc'.field? "_id" = some id' → id.alike id' = true → key = key'
  /-- A document is a duplicate exactly if some stored `_id` is alike its own. -/
  refused : ∀ fields id fresh, Ids id → Entries.get? fields "_id" = some id →
    ((s.insertOne name (.object fields) fresh).result = .error (.duplicateKey name id.idKey) ↔
      ∃ other, Collection.Holds (s.collection name).documents other ∧ other.alike id = true)

/-- On the class, values have one key exactly if they are alike. -/
def KeysAgree (Ids : Value → Prop) : Prop :=
  ∀ a b, Ids a → Ids b → (a.idKey = b.idKey ↔ a.alike b = true)

/-- The identifiers that are stored in the course of a history are of the class. -/
def Confined (Ids : Value → Prop) (name : String) (calls : List Call) : Prop :=
  ∀ earlier, earlier <+: calls →
    ∀ id, Collection.Holds ((empty.run earlier).collection name).documents id → Ids id

theorem keyed_run {Ids : Value → Prop} (agree : KeysAgree Ids) {calls : List Call}
    (confined : Confined Ids name calls) : Collection.KeyedBy (fun key id => id.idKey = key)
      ((empty.run calls).collection name).documents := by
  induction calls using List.reverseRecOn with
  | nil => rintro key doc ⟨⟩
  | append_singleton earlier call ih =>
    have hkeyed := ih fun before h => confined before (h.trans (List.prefix_append _ _))
    have hrun : empty.run (earlier ++ [call]) = (empty.run earlier).after call :=
      run_append empty earlier [call]
    have hbefore := confined earlier (List.prefix_append _ _)
    have hafter := confined _ (List.prefix_refl _)
    rw [hrun] at hafter ⊢
    by_cases attaches : call.Attaches name
    · rw [documents_after_attaches attaches]
      exact hkeyed
    · refine (change_after (sorted_run earlier name) attaches).keyedBy hkeyed
        (fun _ _ _ _ => rfl) fun key old new hold hnew hequal hkey => ?_
      -- Equal identifiers are alike, so that the class gives them one key.
      exact ((agree new old (hafter new hnew) (hbefore old hold)).mpr
        (Value.alike_of_beq hequal)).trans hkey

theorem insertOne_duplicate_iff {fields : Entries Value} {id : Value} (fresh : Uuid)
    (hid : Entries.get? fields "_id" = some id) :
    (s.insertOne name (.object fields) fresh).result = .error (.duplicateKey name id.idKey) ↔
      ∃ doc, Entries.get? (s.collection name).documents id.idKey = some doc := by
  rw [← Collection.insert_duplicate_iff hid fresh]
  exact result_perform_eq_error_iff (Collection.traceless_insert _ _ _)

theorem identified_of_keyed {Ids : Value → Prop} (agree : KeysAgree Ids)
    (keyed : Collection.KeyedBy (fun key id => id.idKey = key) (s.collection name).documents)
    (confined : ∀ id, Collection.Holds (s.collection name).documents id → Ids id) :
    Identified Ids s name := by
  have key_of_id {key : String} {doc id : Value}
      (hdoc : Entries.get? (s.collection name).documents key = some doc)
      (hid : doc.field? "_id" = some id) : id.idKey = key := by
    obtain ⟨id', hid', hkey⟩ := keyed key doc hdoc
    cases hid.symm.trans hid'
    exact hkey
  refine ⟨keyed, fun key key' doc doc' id id' hdoc hdoc' hid hid' halike => ?_,
    fun fields id fresh hclass hid => ?_⟩
  · have hsame := (agree id id' (confined id ⟨key, doc, hdoc, hid⟩)
      (confined id' ⟨key', doc', hdoc', hid'⟩)).mpr halike
    rw [← key_of_id hdoc hid, hsame, key_of_id hdoc' hid']
  · rw [insertOne_duplicate_iff fresh hid]
    constructor
    · rintro ⟨doc, hdoc⟩
      obtain ⟨other, hother, hkey⟩ := keyed id.idKey doc hdoc
      have hheld : Collection.Holds (s.collection name).documents other :=
        ⟨id.idKey, doc, hdoc, hother⟩
      exact ⟨other, hheld, (agree other id (confined other hheld) hclass).mp hkey⟩
    · rintro ⟨other, ⟨key, doc, hdoc, hother⟩, halike⟩
      have hsame := (agree other id (confined other ⟨key, doc, hdoc, hother⟩) hclass).mpr halike
      rw [← hsame, key_of_id hdoc hother]
      exact ⟨doc, hdoc⟩

/-- A document with nothing but its `_id`. -/
def bare (id : Value) : Value := .object [("_id", id)]

theorem collection_insert_bare (name : String) (id : Value) :
    (empty.run [.insertOne name (bare id) default]).collection name =
      ⟨[(id.idKey, bare id)], none⟩ := by
  have hinsert : (Collection.insert name (bare id) default).run (empty.collection name) =
      .ok id.idKey ⟨[(id.idKey, bare id)], none⟩ :=
    Collection.insert_eq_ok_iff.mpr ⟨rfl, rfl, rfl, rfl⟩
  exact collection_perform_of_ok hinsert

theorem holds_bare_iff {key : String} {id id' : Value} :
    Collection.Holds [(key, bare id)] id' ↔ id = id' := by
  constructor
  · rintro ⟨key', doc, hdoc, hid⟩
    rw [Entries.get?_cons] at hdoc
    split at hdoc
    · cases hdoc
      exact Option.some.inj hid
    · cases hdoc
  · rintro rfl
    exact ⟨key, bare id, by simp [Entries.get?], rfl⟩

theorem confined_insert_bare {Ids : Value → Prop} {id : Value} (h : Ids id) (name : String) :
    Confined Ids name [.insertOne name (bare id) default] := by
  intro earlier hprefix id' hid
  rcases List.prefix_cons_iff.mp hprefix with rfl | ⟨rest, rfl, hrest⟩
  · obtain ⟨key, doc, hdoc, -⟩ := hid
    cases hdoc
  · cases List.prefix_nil.mp hrest
    rw [collection_insert_bare] at hid
    exact holds_bare_iff.mp hid ▸ h

/-- Every history whose identifiers are of a class keeps the documents of a collection
identified, exactly if keys and likeness agree on the class. -/
theorem keysAgree_iff_identified (Ids : Value → Prop) (name : String) :
    KeysAgree Ids ↔
      ∀ calls, Confined Ids name calls → Identified Ids (empty.run calls) name := by
  refine ⟨fun agree calls confined => ?_, fun identified a b ha hb => ?_⟩
  · exact identified_of_keyed agree (keyed_run agree confined)
      (confined calls (List.prefix_refl _))
  · -- Whether a document with the `_id` `b` is refused after one with `a` says both.
    have hrefused := (identified _ (confined_insert_bare ha name)).refused [("_id", b)] b default
      hb rfl
    rw [insertOne_duplicate_iff default rfl, collection_insert_bare] at hrefused
    simp only [holds_bare_iff, exists_eq_left'] at hrefused
    rw [← hrefused, Entries.get?_cons]
    by_cases hkey : a.idKey = b.idKey
    · simp [hkey]
    · simp [hkey]

/-! ### Texts and numbers -/

def IsText (v : Value) : Prop := ∃ text, v = .string text

theorem keysAgree_isText : KeysAgree IsText := by
  rintro _ _ ⟨a, rfl⟩ ⟨b, rfl⟩
  exact beq_iff_eq.symm

/-- A guest book with one text for an `_id` is identified. -/
theorem ada_identified :
    Identified IsText (empty.run [.insertOne "guests" (bare (.string "ada")) default]) "guests" :=
  (keysAgree_iff_identified IsText "guests").mp keysAgree_isText _
    (confined_insert_bare ⟨"ada", rfl⟩ "guests")

def oneDouble : Value := .number (.double ⟨0x3FF0000000000000⟩ (by decide))

def zeroDouble : Value := .number (.double ⟨0⟩ (by decide))

def minusZero : Value := .number (.double ⟨0x8000000000000000⟩ (by decide))

/-- A text may have the key of a number, alike numbers may have two keys, and an update
may put an equal number with another key in the place of one. -/
theorem numbers_not_identified :
    (((empty.run [.insertOne "c" (bare (.string "1")) default]).insertOne "c" (bare (.int 1))
        default).result = .error (.duplicateKey "c" "1") ∧
      (Value.string "1").alike (.int 1) = false) ∧
    (((empty.run [.insertOne "c" (bare (.int 1)) default,
        .insertOne "c" (bare oneDouble) default]).collection "c").documents =
          [("1", bare (.int 1)), ("1.0", bare oneDouble)] ∧
      (Value.int 1).alike oneDouble = true) ∧
    (((empty.run [.insertOne "c" (bare zeroDouble) default, .updateOne "c" (.object [])
        (.object [("$set", bare minusZero)]) false default]).collection "c").documents =
          [("0.0", bare minusZero)] ∧
      minusZero.idKey = "-0.0") := by
  have hone : (Value.int 1).idKey = "1" := by decide +kernel
  have honeDouble : oneDouble.idKey = "1.0" := by decide +kernel
  have hzero : zeroDouble.idKey = "0.0" := by decide +kernel
  refine ⟨⟨?_, rfl⟩, ⟨?_, by decide +kernel⟩, ?_, by decide +kernel⟩
  · rw [← hone]
    refine (insertOne_duplicate_iff default rfl).mpr ⟨bare (.string "1"), ?_⟩
    rw [collection_insert_bare, hone]
    rfl
  · have hinsert : (Collection.insert "c" (bare oneDouble) default).run
        ((empty.run [.insertOne "c" (bare (.int 1)) default]).collection "c") =
          .ok "1.0" ⟨[("1", bare (.int 1)), ("1.0", bare oneDouble)], none⟩ := by
      rw [collection_insert_bare, hone]
      refine Collection.insert_eq_ok_iff.mpr ?_
      rw [Collection.identified_of_get? rfl, honeDouble]
      exact ⟨rfl, rfl, rfl, rfl⟩
    exact congrArg Collection.documents (collection_perform_of_ok hinsert)
  · have hfound : Collection.firstMatch (.object []) [("0.0", bare zeroDouble)] =
        .ok (some ("0.0", bare zeroDouble)) := by
      rw [Collection.firstMatch, Selector.selects, Selector.meetsClauses]
      rfl
    have hset : Apply.modifier (bare zeroDouble) (.object [("$set", bare minusZero)]) false =
        .done (bare minusZero) := by rfl
    have hequal : ((bare minusZero).field? "_id" == (bare zeroDouble).field? "_id") = true := by
      decide +kernel
    have hupdate : (Collection.update "c" (.object []) (.object [("$set", bare minusZero)]) false
        default).run ((empty.run [.insertOne "c" (bare zeroDouble) default]).collection "c") =
          .ok ⟨1, if bare minusZero == bare zeroDouble then 0 else 1, none⟩
            ⟨Entries.insert [("0.0", bare zeroDouble)] "0.0" (bare minusZero), none⟩ := by
      rw [collection_insert_bare, hzero]
      exact Collection.update_eq_ok_iff.mpr (.matched hfound hset hequal rfl)
    exact congrArg Collection.documents (collection_perform_of_ok hupdate)

end Store

end DocSchema

-- SUMMARY: A model as a finite map from the texts of `_id` to documents.
import DocSchema.Proofs.Identity
import DocSchema.Proofs.Sharing

/-!
# Models as finite maps

A model whose schema leaves `_id` to the configuration stores each document under
its `_id`, a text that is not empty: the validator sees to it where a document is
inserted, past the parser or not, and updates leave `_id` alone. Selecting by such a
text finds the document under it, so that inserting, reading and removing are what
they are of a finite map.
-/

namespace DocSchema

/-! ## The field that is added -/

namespace UpdateSchema

variable {s : UpdateSchema} {name : String} {n : Node}

open Node Validator

/-- Among compiled fields, the rules under the name of a declared field are those of its type. -/
theorem Declares.get?_properties (declares : s.Declares name n) {parts : List (String × Rules)}
    (h : CompilesFields s.base parts) :
    ∃ r, Entries.get? (Entries.ofList (parts.map fun p => (p.1, Value.object p.2))) name =
      some (.object r) ∧ Compiles n r := by
  have of_get? {v : Value} (hget : Entries.get?
      (Entries.ofList (parts.map fun p => (p.1, Value.object p.2))) name = some v) :
      ∃ r, v = .object r ∧ Compiles n r := by
    obtain ⟨p, hp, heq⟩ := List.mem_map.mp
      (Entries.mem_of_mem_ofList (Entries.mem_of_get? hget))
    cases heq
    obtain ⟨f, hf, hname, hcompiles⟩ := exists_of_mem_right h hp
    exact ⟨p.2, rfl, declares.unique f hf hname ▸ hcompiles⟩
  cases hget : Entries.get? (Entries.ofList (parts.map fun p => (p.1, Value.object p.2))) name with
  | some v =>
    obtain ⟨r, rfl, hcompiles⟩ := of_get? hget
    exact ⟨r, rfl, hcompiles⟩
  | none =>
    have hmem : name ∈ Entries.keys (parts.map fun p => (p.1, Value.object p.2)) := by
      rw [Entries.keys_map, h.keys_eq]
      exact Entries.mem_keys_of_mem declares.declared
    exact (Entries.get?_eq_none_iff.mp hget (Entries.mem_keys_ofList.mpr hmem)).elim

/-- A field of a document that the rules of an object accept is accepted by the rules
of its type. -/
theorem Declares.accepts_field (declares : s.Declares name n) {r : Rules}
    (h : Compiles (.object s.base s.catchall) r) {doc v : Value} (accepted : r.Accepts doc)
    (held : doc.field? name = some v) : ∃ p : Rules, Compiles n p ∧ p.Accepts v := by
  obtain ⟨parts, others, hparts, -, hr⟩ := h.object_parts
  have hrules := objectRules ((s.base.filter fun f => !f.2.acceptsAbsent).map Prod.fst) parts others
  rw [List.isEmpty_map, List.map_map, Function.comp_def, ← hr] at hrules
  unfold Rules.Accepts at accepted
  rw [fits_content_iff hrules.agree (by decide), kindFits_of_get? hrules.kind, kindMatches,
    isOfKind_object] at accepted
  obtain ⟨hobject, hcontent⟩ := accepted
  obtain ⟨input, rfl⟩ := eq_object_of_kind hobject
  have hentry := (hcontent hobject).entries (name, v) (Entries.mem_of_get? held)
  obtain ⟨p, hget, hcompiles⟩ := declares.get?_properties hparts
  refine ⟨p, hcompiles, Rules.accepts_iff.mpr ?_⟩
  unfold EntryFits entryRule declaredProperties at hentry
  rw [hrules.properties] at hentry
  dsimp only at hentry
  rwa [hget] at hentry

end UpdateSchema

namespace Model

variable {collection : String} {root : Node} {config : ModelConfig} {m : Model} {store : Store}
  {a : Ambient}

/-- The schema is an object that declares `_id` as an optional text that is not empty. -/
def IdentifiedByText (m : Model) (s : UpdateSchema) : Prop :=
  m.schema = .object s.base s.catchall ∧ s.Declares "_id" (.optional Field.nonEmptyString)

/-- A schema that declares no `_id` gets that field, and no other of the name. -/
theorem identifiedByText_of_ofSchema (defined : ofSchema collection root config = .ok m)
    (added : config.addIdField = true)
    (undeclared : ∀ fields catchall, root.mergedRoot = .ok (.object fields catchall) →
      Entries.get? fields "_id" = none) : ∃ s, m.IdentifiedByText s := by
  have hschema : root.withIdField = .ok m.schema := by
    unfold ofSchema at defined
    rw [Outcome.bind_eq_ok] at defined
    obtain ⟨_, -, defined⟩ := defined
    rw [if_pos added] at defined
    simp only [Outcome.bind_eq_ok] at defined
    obtain ⟨schema, hschema, _, -, _, -, heq⟩ := defined
    cases heq
    exact hschema
  obtain ⟨fields, catchall, hmerged, ⟨⟨n, hn⟩, -⟩ | ⟨hnone, heq⟩⟩ := Node.withIdField_eq_ok hschema
  · cases (undeclared fields catchall hmerged).symm.trans hn
  · refine ⟨⟨("_id", .optional Field.nonEmptyString) :: fields, catchall⟩, heq,
      List.mem_cons_self, fun f hf hname => ?_⟩
    rcases List.mem_cons.mp hf with rfl | hf
    · rfl
    · exact (Entries.get?_eq_none_iff.mp hnone (hname ▸ Entries.mem_keys_of_mem hf)).elim

variable {s : UpdateSchema}

/-- The `_id` of a document that the validator accepts is a text that is not empty. -/
theorem IdentifiedByText.text_of_isValid (identified : m.IdentifiedByText s)
    (compiled : m.schema.compile = .ok m.validator) {doc id : Value}
    (valid : m.validator.isValid doc = true) (held : doc.field? "_id" = some id) :
    ∃ text, id = .string text ∧ text ≠ "" := by
  obtain ⟨hcompiles, hvalid⟩ := Node.compile_eq_ok compiled
  rw [identified.1] at hcompiles
  obtain ⟨p, hp, haccepts⟩ := identified.2.accepts_field hcompiles ((hvalid doc).mp valid) held
  obtain ⟨text, rfl, hchecks⟩ := (hp.optional.string.2 id).mp haccepts
  refine ⟨text, rfl, ?_⟩
  rintro rfl
  revert hchecks
  decide

/-- The parser leaves an `_id` that is a text as it is. -/
theorem IdentifiedByText.id_of_parseDocument (identified : m.IdentifiedByText s) {ctx : Context}
    {doc parsed : Value} {id : String} (h : m.schema.parseDocument doc ctx = .ok parsed)
    (given : doc.field? "_id" = some (.string id)) : parsed.field? "_id" = some (.string id) := by
  have hparses := Node.parseDocument_eq_ok_iff.mp h
  rw [identified.1] at hparses
  have hfield := identified.2.parses_field hparses
  rw [given] at hfield
  exact (Node.parses_optional_some.mp hfield).leaf rfl

end Model

/-! ## Selecting by text -/

namespace Collection

variable {documents : Entries Value} {selector : Value}

/-- The document under a key is an object that carries the key as its `_id`. -/
def Texted (key : String) (id : Value) : Prop := key ≠ "" ∧ id = .string key

/-- The selectors that ask for a text as `_id`. -/
def SelectsText (id : String) (selector : Value) : Prop :=
  selector = .string id ∨ selector = Selector.byId (.string id)

theorem selects_of_text {id key : String} {doc : Value} (h : SelectsText id selector)
    (held : doc.field? "_id" = some (.string key)) :
    Selector.selects selector doc = .ok (key == id) := by
  rcases h with rfl | rfl
  · rw [Selector.selects, held]
    rfl
  · have hlookup : doc.lookup? "_id" = some (.string key) := by
      cases doc with
      | object fields =>
        change ((Entries.get? fields "_id").bind fun child => child.walk? []) = _
        rw [show Entries.get? fields "_id" = _ from held]
        rfl
      | _ => cases held
    have hmeets : Selector.meets (some (.string key)) (.string id) = .ok (key == id) :=
      congrArg Except.ok (Bool.or_false _)
    rw [Selector.byId, Selector.selects, Selector.meetsClauses, Selector.meetsClauses,
      if_neg (by decide), if_neg (by decide), if_neg (by decide), hlookup, hmeets]
    cases key == id <;> rfl

/-- A selector that asks for keys finds the document under its key. -/
theorem firstMatch_of_selects {id : String}
    (h : ∀ e ∈ documents, Selector.selects selector e.2 = .ok (e.1 == id)) :
    firstMatch selector documents = .ok ((Entries.get? documents id).map fun doc => (id, doc)) := by
  induction documents with
  | nil => rfl
  | cons e rest ih =>
    obtain ⟨key, doc⟩ := e
    obtain ⟨hdoc, hrest⟩ := List.forall_mem_cons.mp h
    rw [firstMatch, hdoc, Entries.get?_cons]
    by_cases hkey : key = id
    · subst hkey
      simp only [beq_self_eq_true, if_pos]
      rfl
    · rw [if_neg hkey, ← ih hrest, beq_false_of_ne hkey]
      rfl

theorem matching_of_selects {id : String}
    (h : ∀ e ∈ documents, Selector.selects selector e.2 = .ok (e.1 == id)) :
    matching selector documents = .ok (documents.filter fun e => e.1 == id) := by
  induction documents with
  | nil => rfl
  | cons e rest ih =>
    obtain ⟨key, doc⟩ := e
    obtain ⟨hdoc, hrest⟩ := List.forall_mem_cons.mp h
    rw [matching, hdoc, ih hrest, List.filter_cons]
    rfl

/-- A removal by a selector that asks for keys leaves what is under other keys. -/
theorem remove_of_selects {c : Collection} {id : String}
    (h : ∀ e ∈ c.documents, Selector.selects selector e.2 = .ok (e.1 == id)) :
    ∃ n left, (remove selector).run c = .ok n { c with documents := left } ∧
      ∀ key, Entries.get? left key = if key = id then none else Entries.get? c.documents key := by
  have hremove : (remove selector).run c = .ok (c.documents.filter fun e => e.1 == id).length
      { c with documents := c.documents.filter fun e =>
        !Entries.contains (c.documents.filter fun e => e.1 == id) e.1 } :=
    remove_eq_ok_iff.mpr ⟨_, matching_of_selects h, rfl, rfl⟩
  refine ⟨_, _, hremove, fun key => ?_⟩
  have hdoomed : Entries.contains (c.documents.filter fun e => e.1 == id) key =
      (key == id && (Entries.get? c.documents key).isSome) := by
    unfold Entries.contains
    rw [Entries.get?_filter (fun name => name == id)]
    cases key == id <;> rfl
  rw [Entries.get?_filter (fun name =>
    !Entries.contains (c.documents.filter fun e => e.1 == id) name), hdoomed]
  by_cases hkey : key = id
  · rw [if_pos hkey, hkey]
    cases Entries.get? c.documents id <;> simp
  · rw [if_neg hkey, beq_false_of_ne hkey]
    simp

end Collection

/-! ## States -/

namespace Model

variable {m : Model} {s : UpdateSchema} {c c' : Collection} {store : Store}

/-- The collection enforces the validator of the model, and its documents are in the
order of the texts that they carry as `_id`. -/
structure KeepsTexts (m : Model) (c : Collection) : Prop where
  attached : c.validator = some (m.validator, m.config.settings)
  sorted : Entries.Sorted c.documents
  keyed : Collection.KeyedBy Collection.Texted c.documents

/-- A model that keeps its documents under texts: its schema has an `_id` of text, and
its validator refuses what fails. -/
structure GuardsTexts (m : Model) (s : UpdateSchema) : Prop where
  identified : m.IdentifiedByText s
  compiled : m.schema.compile = .ok m.validator
  on : m.config.level ≠ .off
  refuses : m.config.action = .error

namespace KeepsTexts

/-- A document that is inserted carries a text that is not empty. -/
theorem texted_of_enforce (h : m.KeepsTexts c) (guards : m.GuardsTexts s) {doc id : Value}
    (held : doc.field? "_id" = some id) (enforced : c.enforce m.collection doc none = .ok ()) :
    Collection.Texted id.idKey id := by
  have hsettings : m.config.settings = ⟨m.config.level, .error⟩ := by
    rw [ModelConfig.settings, guards.refuses]
  have hvalid : m.validator.isValid doc = true :=
    Collection.isValid_of_enforce (hsettings ▸ h.attached)
      (Collection.isChecked_of_valid guards.on fun _ hnone => by cases hnone) enforced
  obtain ⟨text, rfl, hne⟩ := guards.identified.text_of_isValid guards.compiled hvalid held
  exact ⟨hne, rfl⟩

theorem change (h : m.KeepsTexts c) (guards : m.GuardsTexts s)
    (change : Collection.Change m.collection c c') : m.KeepsTexts c' := by
  refine ⟨change.step.validator_eq.trans h.attached, change.step.sorted h.sorted, ?_⟩
  refine change.keyedBy h.keyed (fun fields id hid henforce => ?_) ?_
  · exact h.texted_of_enforce guards (show (Value.object fields).field? "_id" = some id from hid)
      henforce
  · rintro key old new - - hequal ⟨hne, rfl⟩
    exact ⟨hne, Value.eq_string_of_beq hequal⟩

theorem changes (h : m.KeepsTexts c) (guards : m.GuardsTexts s)
    (changes : Relation.ReflTransGen (Collection.Change m.collection) c c') : m.KeepsTexts c' := by
  induction changes with
  | refl => exact h
  | tail _ change ih => exact ih.change guards change

theorem after (h : m.KeepsTexts (store.collection m.collection)) (guards : m.GuardsTexts s)
    (call : Call) : m.KeepsTexts ((m.after store call).collection m.collection) :=
  h.changes guards (m.changes_after call h.sorted)

theorem run (h : m.KeepsTexts (store.collection m.collection)) (guards : m.GuardsTexts s)
    (calls : List Call) : m.KeepsTexts ((calls.foldl m.after store).collection m.collection) := by
  induction calls generalizing store with
  | nil => exact h
  | cons call rest ih => exact ih (h.after guards call)

/-! ## Calls -/

theorem selects (h : m.KeepsTexts c) {id : String} {selector : Value}
    (text : Collection.SelectsText id selector) :
    ∀ e ∈ c.documents, Selector.selects selector e.2 = .ok (e.1 == id) := by
  intro e he
  obtain ⟨_, hid, -, rfl⟩ := h.keyed e.1 e.2 (Entries.get?_of_mem h.sorted.distinct he)
  exact Collection.selects_of_text text hid

/-- Reading gives the document under the text, which must be there. -/
theorem get_eq (h : m.KeepsTexts (store.collection m.collection)) {id : String} {selector : Value}
    (text : Collection.SelectsText id selector) :
    m.get store selector =
      match Entries.get? (store.collection m.collection).documents id with
      | some doc => .ok doc
      | none => .error (.notFound m.collection) := by
  have hmatch := Collection.firstMatch_of_selects (h.selects text)
  have hfind : m.findOne store selector =
      .ok (Entries.get? (store.collection m.collection).documents id) := by
    unfold Model.findOne Store.findOne Collection.findOne
    rw [hmatch]
    cases Entries.get? (store.collection m.collection).documents id <;> rfl
  unfold Model.get
  rw [hfind]
  cases Entries.get? (store.collection m.collection).documents id <;> rfl

/-- Removing by a text takes the document under it away, and no other. -/
theorem remove_eq (h : m.KeepsTexts (store.collection m.collection)) {id : String}
    {selector : Value} (text : Collection.SelectsText id selector) :
    (∃ n, (m.remove store selector).result = .ok n) ∧
      ∀ key, Entries.get? ((m.remove store selector).store.collection m.collection).documents key =
        if key = id then none else Entries.get? (store.collection m.collection).documents key := by
  unfold Model.remove Store.remove
  cases hget : Entries.get? store.collections m.collection with
  | none =>
    have hempty : store.collection m.collection = .empty := by
      unfold Store.collection
      rw [hget]
      rfl
    dsimp only [Reply.mapError]
    rw [hempty]
    exact ⟨⟨0, rfl⟩, fun key => (ite_self none).symm⟩
  | some c =>
    obtain ⟨n, left, hremove, hleft⟩ := Collection.remove_of_selects (h.selects text)
    dsimp only [Reply.mapError]
    rw [Store.perform_of_ok hremove]
    refine ⟨⟨n, rfl⟩, fun key => ?_⟩
    rw [Store.collection_withCollection]
    exact hleft key

end KeepsTexts

/-! ## Finite maps -/

/-- A document under an id: as it is if it carries the id, with the id put in if it
carries none. -/
inductive WithId (id : String) (fields : Entries Value) : Entries Value → Prop where
  | given : Entries.get? fields "_id" = some (.string id) → WithId id fields fields
  | added : Entries.get? fields "_id" = none →
    WithId id fields (Entries.insert fields "_id" (.string id))

/-- In a store, the model is a finite map from texts to the documents that carry them. -/
structure IsMap (m : Model) (store : Store) : Prop where
  /-- A document is stored under its `_id`, a text that is not empty. -/
  keyed : ∀ key doc, Entries.get? (store.collection m.collection).documents key = some doc →
    key ≠ "" ∧ doc.field? "_id" = some (.string key)
  /-- An insert that gives an id puts what was sent under the id, where nothing was, and
  leaves all other documents alone. -/
  inserted : ∀ doc bypass a id, (m.insert store doc bypass a).result = .ok id →
    Entries.get? (store.collection m.collection).documents id = none ∧
    (∃ sent written, m.parseInsert doc bypass a = .ok (.object sent) ∧ WithId id sent written ∧
      ∀ selector, Collection.SelectsText id selector →
        m.get (m.insert store doc bypass a).store selector = .ok (.object written)) ∧
    ∀ key, key ≠ id →
      Entries.get? ((m.insert store doc bypass a).store.collection m.collection).documents key =
        Entries.get? (store.collection m.collection).documents key
  /-- An insert of an id that is taken fails for it, if the document may be sent at all,
  and changes nothing. -/
  duplicate : ∀ doc bypass a id sent, m.parseInsert doc bypass a = .ok sent →
    doc.field? "_id" = some (.string id) →
    (Entries.get? (store.collection m.collection).documents id).isSome →
    (m.insert store doc bypass a).result = .error (.storage (.duplicateKey m.collection id)) ∧
      ∀ name, (m.insert store doc bypass a).store.collection name = store.collection name
  /-- A removal by an id succeeds; nothing is found under the id afterwards, and all other
  documents are left alone. -/
  removed : ∀ id, (∃ n, (m.remove store (Selector.byId (.string id))).result = .ok n) ∧
    (∀ selector, Collection.SelectsText id selector →
      m.get (m.remove store (Selector.byId (.string id))).store selector =
        .error (.notFound m.collection)) ∧
    ∀ key, key ≠ id →
      Entries.get? ((m.remove store (Selector.byId (.string id))).store.collection
        m.collection).documents key = Entries.get? (store.collection m.collection).documents key

namespace KeepsTexts

variable {doc : Value} {bypass : Bool} {a : Ambient} {id : String}

theorem withId_identified (h : m.KeepsTexts c) (guards : m.GuardsTexts s) {fields : Entries Value}
    {fresh : Uuid} (enforced : c.enforce m.collection
      (.object (Collection.identified fields fresh).1) none = .ok ()) :
    WithId (Collection.identified fields fresh).2 fields (Collection.identified fields fresh).1 := by
  unfold Collection.identified at enforced ⊢
  cases hid : Entries.get? fields "_id" with
  | some id =>
    rw [hid] at enforced
    obtain ⟨-, htext⟩ := h.texted_of_enforce guards
      (show (Value.object fields).field? "_id" = some id from hid) enforced
    exact .given (hid.trans (congrArg some htext))
  | none => exact .added hid

theorem insert_ok (h : m.KeepsTexts (store.collection m.collection)) (guards : m.GuardsTexts s)
    (inserted : (m.insert store doc bypass a).result = .ok id) :
    ∃ sent written, m.parseInsert doc bypass a = .ok (.object sent) ∧ WithId id sent written ∧
      Entries.get? (store.collection m.collection).documents id = none ∧
      m.KeepsTexts ((m.insert store doc bypass a).store.collection m.collection) ∧
      ((m.insert store doc bypass a).store.collection m.collection).documents =
        Entries.insert (store.collection m.collection).documents id (.object written) := by
  rcases m.insert_commits store a doc bypass with
    ⟨sent, key, c, hsent, hinsert, hresult, hstore⟩ | ⟨⟨e, hresult⟩, -⟩
  · cases hresult.symm.trans inserted
    rw [hstore]
    have hkeeps := h.change guards (.of_insert hinsert)
    obtain ⟨fields, rfl⟩ := Collection.object_of_insert hinsert
    obtain ⟨rfl, hfree, henforce, rfl⟩ := Collection.insert_eq_ok_iff.mp hinsert
    exact ⟨fields, _, hsent, h.withId_identified guards henforce,
      Entries.contains_eq_false_iff.mp hfree, hkeeps, rfl⟩
  · cases hresult.symm.trans inserted

/-- A document that is sent carries the text that was given as its `_id`. -/
theorem GuardsTexts.id_of_parseInsert (guards : m.GuardsTexts s) {sent : Value}
    (hsent : m.parseInsert doc bypass a = .ok sent) (given : doc.field? "_id" = some (.string id)) :
    sent.field? "_id" = some (.string id) := by
  cases bypass with
  | true =>
    obtain ⟨-, rfl⟩ := (m.parseInsert_bypass_iff a).mp hsent
    exact given
  | false =>
    exact guards.identified.id_of_parseDocument ((m.parseInsert_parsed_iff a).mp hsent) given

theorem isMap (h : m.KeepsTexts (store.collection m.collection)) (guards : m.GuardsTexts s) :
    m.IsMap store := by
  refine ⟨fun key doc hdoc => ?_, fun doc bypass a id hok => ?_,
    fun doc bypass a id sent hsent given taken => ?_, fun id => ?_⟩
  · obtain ⟨_, hid, hne, rfl⟩ := h.keyed key doc hdoc
    exact ⟨hne, hid⟩
  · obtain ⟨sent, written, hsent, hwritten, hfree, hkeeps, hdocuments⟩ := h.insert_ok guards hok
    refine ⟨hfree, ⟨sent, written, hsent, hwritten, fun selector text => ?_⟩, fun key hkey => ?_⟩
    · rw [hkeeps.get_eq text, hdocuments, Entries.get?_insert_self]
    · rw [hdocuments, Entries.get?_insert_of_ne (Ne.symm hkey)]
  · have hid := GuardsTexts.id_of_parseInsert guards hsent given
    obtain ⟨fields, rfl⟩ : ∃ fields, sent = .object fields := by
      cases sent with
      | object fields => exact ⟨fields, rfl⟩
      | _ => cases hid
    have hinsert : (Collection.insert m.collection (.object fields) a.fresh).run
        (store.collection m.collection) = .error (.duplicateKey m.collection id) _ :=
      (Collection.insert_duplicate_iff hid a.fresh).mpr (Option.isSome_iff_exists.mp taken)
    unfold Model.insert
    rw [hsent]
    dsimp only [Store.insertOne, Reply.mapError]
    refine ⟨by rw [Store.perform_of_error hinsert]; rfl, fun name => ?_⟩
    exact Store.collection_perform_of_error (Collection.traceless_insert _ _ _) hinsert name
  · obtain ⟨hresult, hdocuments⟩ := h.remove_eq (show Collection.SelectsText id _ from .inr rfl)
    refine ⟨hresult, fun selector text => ?_, fun key hkey => ?_⟩
    · have hkeeps : m.KeepsTexts ((m.remove store (Selector.byId (.string id))).store.collection
          m.collection) := h.after guards (.remove (Selector.byId (.string id)))
      rw [hkeeps.get_eq text]
      rw [hdocuments, if_pos rfl]
    · rw [hdocuments, if_neg hkey]

end KeepsTexts

/-- A model with an added `_id` whose validator refuses what fails is a finite map after
every run from the fresh store that it was defined over. -/
theorem run_isMap {collection : String} {root : Node} {config : ModelConfig}
    (defined : define collection root config .empty = ⟨.ok m, store⟩)
    (added : config.addIdField = true) (on : config.level ≠ .off) (refuses : config.action = .error)
    (undeclared : ∀ fields catchall, root.mergedRoot = .ok (.object fields catchall) →
      Entries.get? fields "_id" = none) (calls : List Call) :
    m.IsMap (calls.foldl m.after store) := by
  obtain ⟨hschema, rfl⟩ := define_eq_ok_iff.mp defined
  obtain ⟨rfl, rfl, compiled⟩ := bound_of_ofSchema hschema
  obtain ⟨s, identified⟩ := identifiedByText_of_ofSchema hschema added undeclared
  have guards : m.GuardsTexts s := ⟨identified, compiled, on, refuses⟩
  have start : m.KeepsTexts ((Store.empty.setValidator m.collection m.validator
      m.config.settings).collection m.collection) := by
    rw [Store.collection_setValidator]
    exact ⟨rfl, List.Pairwise.nil, fun key doc hdoc => by cases hdoc⟩
  exact (start.run guards calls).isMap guards

/-- The guests' names, without an `_id`. -/
def nameOnly : Node := .object [("name", Field.nonEmptyString)] none

theorem define_nameOnly : define "guests" nameOnly .standard .empty =
    ⟨.ok (Shared.guestList .strict),
      Store.empty.setValidator "guests" Shared.guestRules .standard⟩ :=
  define_eq_ok_iff.mpr
    ⟨ofSchema_of_identified "guests" rfl rfl rfl Shared.compile_guestSchema rfl, rfl⟩

/-- The guest list is a map after a guest came in past the parser and left again. -/
theorem guestList_isMap :
    define "guests" nameOnly .standard .empty =
      ⟨.ok (Shared.guestList .strict),
        Store.empty.setValidator "guests" Shared.guestRules .standard⟩ ∧
    (Shared.guestList .strict).IsMap ([Call.insert Shared.named true default,
      .remove (.string "a")].foldl (Shared.guestList .strict).after
        (Store.empty.setValidator "guests" Shared.guestRules .standard)) := by
  refine ⟨define_nameOnly, run_isMap define_nameOnly rfl ValidationLevel.noConfusion rfl ?_ _⟩
  rintro fields catchall ⟨⟩
  rfl

end Model

end DocSchema

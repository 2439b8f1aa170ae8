-- SUMMARY: Models that share a store, and the check that a bypassed write still meets.
import DocSchema.Proofs.Audit
import DocSchema.Proofs.Enforcement

/-!
# Models that share a store

Any number of models may be defined over one store, also on one collection. What
a collection enforces is what the model that was defined last on it asks for,
whichever model writes. A write that bypasses the parser is refused by the level
of the model that writes it, and checked at the level of the model defined last:
so it is checked exactly if that level is not off.
-/

namespace DocSchema

namespace Collection

/-- The document was checked on its way to the place of `previous`: the validator
is at the strict or the moderate level, and the document passes it, unless the
level asks for no check of this replacement or the action lets failing documents
through. -/
def Checked (c : Collection) (previous : Option Value) (doc : Value) : Prop :=
  ∃ v settings, c.validator = some (v, settings) ∧ settings.level ≠ .off ∧
    (isChecked v settings.level previous = true → v.isValid doc = true ∨ settings.action = .warn)

/-- What passes the check of a validator that is not off was checked. -/
theorem checked_of_enforce {c : Collection} {name : String} {v : Validator}
    {settings : ValidationSettings} {previous : Option Value} {doc : Value}
    (attached : c.validator = some (v, settings)) (on : settings.level ≠ .off)
    (h : c.enforce name doc previous = .ok ()) : c.Checked previous doc := by
  refine ⟨v, settings, attached, on, fun checked => ?_⟩
  obtain ⟨level, action⟩ := settings
  cases action with
  | warn => exact .inr rfl
  | error => exact .inl (isValid_of_enforce attached checked h)

end Collection

namespace Model

variable {m : Model} {store : Store}

/-! ## Calls -/

/-- A call of a model is at most one call of its store, which attaches no validator. -/
theorem after_eq_run (m : Model) (store : Store) (call : Call) :
    ∃ calls : List Store.Call, (∀ c ∈ calls, ∀ name, ¬ c.Attaches name) ∧
      m.after store call = store.run calls := by
  have unsent : ∀ c ∈ ([] : List Store.Call), ∀ name, ¬ c.Attaches name := List.forall_mem_nil _
  have sent {c : Store.Call} (h : ∀ name, ¬ c.Attaches name) :
      ∀ c' ∈ [c], ∀ name, ¬ c'.Attaches name := List.forall_mem_singleton.mpr h
  have update (selector modifier : Value) (bypass upsert : Bool) (a : Ambient) :
      ∃ calls : List Store.Call, (∀ c ∈ calls, ∀ name, ¬ c.Attaches name) ∧
        (m.update store selector modifier bypass upsert a).store = store.run calls := by
    unfold Model.update
    cases m.parseUpdate modifier bypass upsert a with
    | error e => exact ⟨[], unsent, rfl⟩
    | ok modifier =>
      exact ⟨[.updateOne m.collection selector (.object modifier) upsert a.fresh],
        sent fun _ => id, rfl⟩
  cases call with
  | insert doc bypass a =>
    unfold after Model.insert
    dsimp only
    cases m.parseInsert doc bypass a with
    | error e => exact ⟨[], unsent, rfl⟩
    | ok parsed => exact ⟨[.insertOne m.collection parsed a.fresh], sent fun _ => id, rfl⟩
  | update selector modifier bypass a => exact update selector modifier bypass false a
  | upsert selector modifier bypass a => exact update selector modifier bypass true a
  | find => exact ⟨[], unsent, rfl⟩
  | remove selector => exact ⟨[.remove m.collection selector], sent fun _ => id, rfl⟩

theorem changes_after (m : Model) (call : Call) {name : String}
    (sorted : Entries.Sorted (store.collection name).documents) :
    Relation.ReflTransGen (Collection.Change name) (store.collection name)
      ((m.after store call).collection name) := by
  obtain ⟨calls, keep, hafter⟩ := m.after_eq_run store call
  rw [hafter]
  exact Store.changes_run sorted fun c hc => keep c hc name

theorem steps_after (m : Model) (call : Call) {name : String}
    (sorted : Entries.Sorted (store.collection name).documents) :
    Relation.ReflTransGen (Collection.Step name) (store.collection name)
      ((m.after store call).collection name) :=
  Relation.ReflTransGen.mono (fun _ _ => Collection.Change.step) _ _ (m.changes_after call sorted)

/-- The call is a write that bypasses the parser. -/
def Call.Bypasses : Call → Prop
  | .insert _ bypass _ | .update _ _ bypass _ | .upsert _ _ bypass _ => bypass = true
  | .find _ | .remove _ => False

/-! ### What a call stores -/

/-- A call either says nothing of any document and adds none, or it stores one that
the collection let through in the place of the one before it. -/
inductive Wrote (m : Model) (before after : Collection) : Option Event → Prop where
  | nothing : (∀ key doc, Entries.get? after.documents key = some doc →
      Entries.get? before.documents key = some doc) → Wrote m before after none
  | document (e : Event) (doc : Value) :
    after.documents = Entries.insert before.documents e.key doc →
    before.enforce m.collection doc (Entries.get? before.documents e.key) = .ok () →
    Wrote m before after (some e)

theorem Wrote.of_insert {before after : Collection} {doc : Value} {fresh : Uuid} {e : Event}
    (h : (Collection.insert m.collection doc fresh).run before = .ok e.key after) :
    Wrote m before after (some e) := by
  obtain ⟨fields, rfl⟩ := Collection.object_of_insert h
  obtain ⟨-, hfree, henforce, rfl⟩ := Collection.insert_eq_ok_iff.mp h
  refine .document e _ rfl ?_
  rw [Entries.contains_eq_false_iff.mp hfree]
  exact henforce

theorem wrote_of_update (selector modifier : Value) (bypass upsert : Bool) (a : Ambient)
    (kind : EventKind) (sorted : Entries.Sorted (store.collection m.collection).documents) :
    Wrote m (store.collection m.collection)
      ((m.update store selector modifier bypass upsert a).store.collection m.collection)
      ((m.update store selector modifier bypass upsert a).result.toOption.bind
        (modified kind (m.matchedKey store selector) a.clock.now)) := by
  rcases m.update_commits store a selector modifier bypass upsert with
    ⟨sent, outcome, c, -, hupdates, hresult, hstore⟩ | ⟨⟨e, hresult⟩, hstore⟩
  · rw [hresult, hstore]
    cases hupdates with
    | @matched key current next hfound _ _ henforce =>
      have hkey : m.matchedKey store selector = some key := by
        unfold matchedKey
        rw [hfound]
      rw [hkey]
      refine .document ⟨key, kind, a.clock.now⟩ next rfl ?_
      rw [Entries.get?_of_mem sorted.distinct (Collection.mem_of_firstMatch hfound)]
      exact henforce
    | @inserted doc key c _ _ _ hinsert =>
      exact .of_insert (e := ⟨key, .created, a.clock.now⟩) hinsert
    | unmatched => exact .nothing fun _ _ h => h
  · rw [hresult, hstore]
    exact .nothing fun _ _ h => h

theorem wrote_after (call : Call)
    (sorted : Entries.Sorted (store.collection m.collection).documents) :
    Wrote m (store.collection m.collection) ((m.after store call).collection m.collection)
      (m.event? store call) := by
  cases call with
  | insert doc bypass a =>
    simp only [event?, after]
    rcases m.insert_commits store a doc bypass with
      ⟨parsed, key, c, -, hinsert, hresult, hstore⟩ | ⟨⟨e, hresult⟩, hstore⟩
    · rw [hresult, hstore]
      exact .of_insert (e := ⟨key, .created, a.clock.now⟩) hinsert
    · rw [hresult, hstore]
      exact .nothing fun _ _ h => h
  | update selector modifier bypass a => exact wrote_of_update _ _ _ _ _ _ sorted
  | upsert selector modifier bypass a => exact wrote_of_update _ _ _ _ _ _ sorted
  | find => exact .nothing fun _ _ h => h
  | remove selector =>
    simp only [event?, after]
    refine .nothing fun key doc hdoc => ?_
    rcases store.remove_cases m.collection selector with hsame | ⟨stays, hfilter⟩
    · exact hsame ▸ hdoc
    · rw [show (m.remove store selector).store.collection m.collection = _ from hfilter] at hdoc
      dsimp only at hdoc
      rw [Entries.get?_filter] at hdoc
      split at hdoc
      · exact hdoc
      · cases hdoc

/-- The call stores the document under the key: the document was not there before, or
the call was about that key. -/
def Stores (m : Model) (store : Store) (call : Call) (key : String) (doc : Value) : Prop :=
  Entries.get? ((m.after store call).collection m.collection).documents key = some doc ∧
    (Entries.get? (store.collection m.collection).documents key ≠ some doc ∨
      ∃ e, m.event? store call = some e ∧ e.key = key)

/-- A document that is stored was let through in the place of the one before it. -/
theorem enforced_of_stores {call : Call} {key : String} {doc : Value}
    (sorted : Entries.Sorted (store.collection m.collection).documents)
    (h : m.Stores store call key doc) :
    (m.event? store call).isSome ∧ (store.collection m.collection).enforce m.collection doc
      (Entries.get? (store.collection m.collection).documents key) = .ok () := by
  obtain ⟨hafter, hstored⟩ := h
  generalize hevent : m.event? store call = event at hstored
  have hwrote := hevent ▸ wrote_after call sorted
  cases hwrote with
  | nothing hkept =>
    rcases hstored with hnew | ⟨e, ⟨⟩, -⟩
    exact absurd (hkept key doc hafter) hnew
  | document e stored hdocuments henforce =>
    rw [hdocuments, Entries.get?_insert] at hafter
    split at hafter
    · next hkey =>
      cases hafter
      exact ⟨rfl, hkey ▸ henforce⟩
    · next hkey =>
      rcases hstored with hnew | ⟨e', ⟨⟩, hkey'⟩
      · exact absurd hafter hnew
      · exact absurd hkey' hkey

/-- A write that bypasses the parser stores nothing for a model whose validator is off. -/
theorem on_of_event {call : Call} (bypassed : call.Bypasses)
    (h : (m.event? store call).isSome) : m.config.level ≠ .off := by
  have update {selector modifier : Value} {upsert : Bool} {kind : EventKind} {a : Ambient}
      (h : ((m.update store selector modifier true upsert a).result.toOption.bind
        (modified kind (m.matchedKey store selector) a.clock.now)).isSome) :
      m.config.level ≠ .off := by
    rcases m.update_commits store a selector modifier true upsert with
      ⟨sent, outcome, c, hsent, -⟩ | ⟨⟨e, hresult⟩, -⟩
    · exact m.on_of_parseUpdate a hsent
    · rw [hresult] at h
      cases h
  cases call with
  | insert doc bypass a =>
    cases bypassed
    simp only [event?] at h
    rcases m.insert_commits store a doc true with
      ⟨parsed, key, c, hparsed, -⟩ | ⟨⟨e, hresult⟩, -⟩
    · exact ((m.parseInsert_bypass_iff a).mp hparsed).1
    · rw [hresult] at h
      cases h
  | update selector modifier bypass a =>
    cases bypassed
    exact update h
  | upsert selector modifier bypass a =>
    cases bypassed
    exact update h
  | find | remove => cases bypassed

end Model

/-! ## Shared stores -/

/-- A store, and the models that were defined over it, latest first. -/
structure Shared where
  store : Store
  models : List Model

namespace Shared

variable {s s' : Shared}

/-- The model that was defined last on a collection. -/
def latest? (s : Shared) (name : String) : Option Model :=
  s.models.find? fun m => m.collection = name

/-- What happens to a store: somebody defines a model over it, which may be refused,
or calls a model. -/
inductive Step : Shared → Shared → Prop where
  | define (s : Shared) (collection : String) (root : Node) (config : ModelConfig) :
    Step s ⟨(Model.define collection root config s.store).store,
      (Model.define collection root config s.store).result.toOption.toList ++ s.models⟩
  | call {s : Shared} {m : Model} (defined : m ∈ s.models) (call : Model.Call) :
    Step s ⟨m.after s.store call, s.models⟩

/-- Each collection is in order, and enforces what the model defined last on it asks for. -/
structure Enforcing (s : Shared) : Prop where
  sorted : ∀ name, Entries.Sorted (s.store.collection name).documents
  attached : ∀ name m, s.latest? name = some m →
    (s.store.collection name).validator = some (m.validator, m.config.settings)

theorem Enforcing.step (h : Enforcing s) (step : Step s s') : Enforcing s' := by
  cases step with
  | define collection root config =>
    unfold Model.define
    cases hschema : Model.ofSchema collection root config with
    | error e => exact h
    | ok m =>
      obtain ⟨hcollection, hconfig, -⟩ := Model.bound_of_ofSchema hschema
      refine ⟨fun name => ?_, fun name latest hlatest => ?_⟩
      · exact (Store.sorted_after (h.sorted name) : Entries.Sorted ((s.store.after
          (.setValidator collection m.validator config.settings)).collection name).documents)
      · by_cases hname : collection = name
        · -- The new model is the latest one.
          have hm : m = latest := by
            have hfirst : latest? ⟨s.store, m :: s.models⟩ name = some m := by
              simp [latest?, hcollection, hname]
            exact Option.some.inj (hfirst.symm.trans hlatest)
          subst hname hm
          dsimp only
          rw [Store.collection_setValidator, hconfig]
        · have hbefore : s.latest? name = some latest := by
            have hskip : latest? ⟨s.store, m :: s.models⟩ name = s.latest? name := by
              simp [latest?, hcollection, hname]
            exact hskip.symm.trans hlatest
          dsimp only
          rw [Store.collection_setValidator_of_ne _ hname]
          exact h.attached name latest hbefore
  | @call m defined call =>
    refine ⟨fun name => ?_, fun name latest hlatest => ?_⟩
    · exact Collection.sorted_of_steps (m.steps_after call (h.sorted name)) (h.sorted name)
    · exact (Collection.validator_eq_of_steps (m.steps_after call (h.sorted name))).trans
        (h.attached name latest hlatest)

theorem enforcing_of_steps {start : Store}
    (sorted : ∀ name, Entries.Sorted (start.collection name).documents)
    (steps : Relation.ReflTransGen Step ⟨start, []⟩ s) : Enforcing s := by
  induction steps with
  | refl => exact ⟨sorted, fun _ _ h => by cases h⟩
  | tail _ step ih => exact ih.step step

/-- A collection on which some model is defined has a latest one. -/
theorem exists_latest {m : Model} (defined : m ∈ s.models) :
    ∃ latest, s.latest? m.collection = some latest := by
  unfold latest?
  exact Option.isSome_iff_exists.mp (List.find?_isSome.mpr ⟨m, defined, by simp⟩)

/-- However models share a store, a write that bypasses the parser and stores a
document is a call of a model whose own validator is on, and the document was checked
in that call exactly if the validator of the model defined last on the collection is
on too. -/
theorem bypassed_write_checked_iff {start : Store}
    (sorted : ∀ name, Entries.Sorted (start.collection name).documents)
    (history : Relation.ReflTransGen Step ⟨start, []⟩ s) {m : Model} (defined : m ∈ s.models)
    {call : Model.Call} (bypassed : call.Bypasses) {key : String} {doc : Value}
    (stored : m.Stores s.store call key doc) :
    m.config.level ≠ .off ∧ ∃ latest, s.latest? m.collection = some latest ∧
      ((s.store.collection m.collection).Checked
          (Entries.get? (s.store.collection m.collection).documents key) doc ↔
        latest.config.level ≠ .off) := by
  have henforcing := enforcing_of_steps sorted history
  obtain ⟨latest, hlatest⟩ := exists_latest defined
  have hattached := henforcing.attached _ _ hlatest
  obtain ⟨hevent, henforce⟩ := Model.enforced_of_stores (henforcing.sorted _) stored
  refine ⟨Model.on_of_event bypassed hevent, latest, hlatest, ?_, fun on => ?_⟩
  · rintro ⟨v, settings, hv, on, -⟩
    cases hattached.symm.trans hv
    exact on
  · exact Collection.checked_of_enforce hattached on henforce

/-! ### Two guest lists -/

/-- The validator of guests that have a name. -/
def guestRules : Validator :=
  ⟨[("additionalProperties", .bool false), ("bsonType", .string "object"),
    ("properties", .object [("_id", Model.nonEmptyText), ("name", Model.nonEmptyText)]),
    ("required", .array [.string "name"])], []⟩

def guestSchema : Node := .object (Model.guests Field.nonEmptyString) none

/-- The guests' model at a level. -/
def guestList (level : ValidationLevel) : Model :=
  ⟨"guests", guestSchema, ⟨Model.guests Field.nonEmptyString, none⟩, guestRules,
    ⟨level, .error, true⟩⟩

theorem compile_guestSchema : guestSchema.compile = .ok guestRules := by
  rw [guestSchema, Model.guests, Node.compile_object, Node.rules_object]
  simp only [List.map, Node.rules, Node.acceptsAbsent, Field.nonEmptyString]
  rfl

theorem define_guestList (level : ValidationLevel) (store : Store) :
    Model.define "guests" guestSchema ⟨level, .error, true⟩ store =
      ⟨.ok (guestList level), store.setValidator "guests" guestRules ⟨level, .error⟩⟩ :=
  Model.define_eq_ok_iff.mpr
    ⟨Model.ofSchema_of_identified "guests" rfl rfl rfl compile_guestSchema rfl, rfl⟩

/-- The store of the guests when they are defined strictly first and then at a level. -/
def redefined (level : ValidationLevel) : Shared :=
  ⟨(Store.empty.setValidator "guests" guestRules .standard).setValidator "guests" guestRules
    ⟨level, .error⟩, [guestList level, guestList .strict]⟩

theorem steps_redefined (level : ValidationLevel) :
    Relation.ReflTransGen Step ⟨.empty, []⟩ (redefined level) := by
  have strict := Step.define ⟨.empty, []⟩ "guests" guestSchema ⟨.strict, .error, true⟩
  rw [define_guestList] at strict
  have again := Step.define ⟨Store.empty.setValidator "guests" guestRules .standard,
    [guestList .strict]⟩ "guests" guestSchema ⟨level, .error, true⟩
  rw [define_guestList] at again
  exact .tail (.single strict) again

/-- The strict list admits a guest past the parser. -/
def admitted (guest : Value) : Model.Call := .insert guest true default

def named : Value := .object [("_id", .string "a"), ("name", .string "a")]

def unnamed : Value := .object [("_id", .string "a")]

theorem validate_named : guestRules.validate named = .ok () := by
  unfold Validator.validate named
  rw [Validator.check_object]
  change (do
    Validator.check guestRules.matching Model.nonEmptyText (.string "a") _
    Validator.check guestRules.matching Model.nonEmptyText (.string "a") _
    .ok ()) = _
  rw [Model.check_nonEmptyText, Model.check_nonEmptyText]
  rfl

/-- A guest that was let in is stored. -/
theorem stores_admitted {level : ValidationLevel} {fields : Entries Value}
    (hid : Entries.get? fields "_id" = some (.string "a"))
    (henforce : ((redefined level).store.collection "guests").enforce "guests" (.object fields)
      none = .ok ()) :
    (guestList .strict).Stores (redefined level).store (admitted (.object fields)) "a"
      (.object fields) := by
  have hparse : (guestList .strict).parseInsert (.object fields) true default =
      .ok (.object fields) :=
    (Model.parseInsert_bypass_iff _ _).mpr ⟨ValidationLevel.noConfusion, rfl⟩
  have hinsert : (Collection.insert "guests" (.object fields) (default : Ambient).fresh).run
      ((redefined level).store.collection "guests") =
        .ok "a" ⟨[("a", .object fields)], some (guestRules, ⟨level, .error⟩)⟩ := by
    refine Collection.insert_eq_ok_iff.mpr ?_
    rw [Collection.identified_of_get? hid]
    exact ⟨rfl, rfl, henforce, rfl⟩
  have hafter : (guestList .strict).after (redefined level).store (admitted (.object fields)) = _ :=
    congrArg Reply.store (Model.insert_of_commits (m := guestList .strict) hparse hinsert)
  exact ⟨by rw [hafter]; rfl, .inl (by rintro ⟨⟩)⟩

/-- A guest with a name is checked: the strict list lets it past the parser, and the
list that was defined later is moderate. -/
theorem named_checked : Relation.ReflTransGen Step ⟨.empty, []⟩ (redefined .moderate) ∧
    (guestList .strict).Stores (redefined .moderate).store (admitted named) "a" named ∧
    ((redefined .moderate).store.collection "guests").Checked none named := by
  have sorted (name : String) : Entries.Sorted (Store.empty.collection name).documents :=
    List.Pairwise.nil
  have stored : (guestList .strict).Stores (redefined .moderate).store (admitted named) "a" named :=
    stores_admitted rfl (Collection.enforce_of_validate rfl validate_named _)
  obtain ⟨-, latest, hlatest, hchecked⟩ := bypassed_write_checked_iff sorted
    (steps_redefined .moderate) (by simp [redefined]) (show (admitted named).Bypasses from rfl)
    stored
  cases hlatest
  exact ⟨steps_redefined .moderate, stored, hchecked.mpr ValidationLevel.noConfusion⟩

/-- A guest without a name is stored unchecked once a later definition is off. -/
theorem unnamed_unchecked : Relation.ReflTransGen Step ⟨.empty, []⟩ (redefined .off) ∧
    guestList .strict ∈ (redefined .off).models ∧ (admitted unnamed).Bypasses ∧
    (guestList .strict).Stores (redefined .off).store (admitted unnamed) "a" unnamed ∧
    (guestList .strict).validator.isValid unnamed = false ∧
    ¬ ((redefined .off).store.collection "guests").Checked none unnamed := by
  refine ⟨steps_redefined .off, by simp [redefined], rfl, stores_admitted rfl rfl, ?_, ?_⟩
  · change (guestRules.validate unnamed).isOk = false
    unfold Validator.validate unnamed
    rw [Validator.check_object]
    rfl
  · rintro ⟨v, settings, hv, on, -⟩
    cases hv
    exact on rfl

end Shared

end DocSchema

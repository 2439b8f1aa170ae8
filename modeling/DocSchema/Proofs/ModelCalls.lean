-- SUMMARY: What the calls of a model do to the collection of the model.
import DocSchema.Proofs.Histories
import DocSchema.Proofs.UpsertStore

/-!
# Calls of models

A definition attaches the validator of the model. An insert and an update that
come to their end are an insertion and an update of the model's collection, with
the document or the modifier that the parser gave, or that went past it. All
others leave the collection as it was.
-/

namespace DocSchema

namespace Model

/-! ## Definition -/

section Definition

variable {collection : String} {root : Node} {config : ModelConfig} {m : Model} {store : Store}

theorem bound_of_ofSchema (defined : ofSchema collection root config = .ok m) :
    m.collection = collection ∧ m.config = config ∧ m.schema.compile = .ok m.validator := by
  unfold ofSchema at defined
  rw [Outcome.bind_eq_ok] at defined
  obtain ⟨_, -, defined⟩ := defined
  split at defined
  all_goals
    simp only [Outcome.bind_eq_ok] at defined
    obtain ⟨schema, -, validator, hcompile, relaxed, -, heq⟩ := defined
    cases heq
    exact ⟨rfl, rfl, hcompile⟩

/-- A definition that succeeds attaches the validator of the new model. -/
theorem define_eq_ok_iff {after : Store} :
    define collection root config store = ⟨.ok m, after⟩ ↔
      ofSchema collection root config = .ok m ∧
        after = store.setValidator collection m.validator config.settings := by
  unfold define
  cases hschema : ofSchema collection root config with
  | error e => exact iff_of_false (by rintro ⟨⟩) (by rintro ⟨⟨⟩, -⟩)
  | ok model =>
    constructor
    · rintro ⟨⟩
      exact ⟨rfl, rfl⟩
    · rintro ⟨⟨⟩, rfl⟩
      rfl

end Definition

variable (m : Model) (store : Store) (a : Ambient)

/-! ## What is sent -/

theorem checkBypass_eq_ok_iff {bypass : Bool} :
    m.checkBypass bypass = .ok () ↔ (bypass = true → m.config.level ≠ .off) := by
  unfold checkBypass
  cases bypass with
  | false => exact iff_of_true rfl (by rintro ⟨⟩)
  | true =>
    by_cases h : m.config.level = .off
    · simp [h]
    · simp [h]

theorem parseInsert_bypass_iff {doc parsed : Value} :
    m.parseInsert doc true a = .ok parsed ↔ m.config.level ≠ .off ∧ parsed = doc := by
  unfold parseInsert
  rw [Outcome.bind_eq_ok]
  constructor
  · rintro ⟨⟨⟩, hcheck, ⟨⟩⟩
    exact ⟨m.checkBypass_eq_ok_iff.mp hcheck rfl, rfl⟩
  · rintro ⟨hon, rfl⟩
    exact ⟨(), m.checkBypass_eq_ok_iff.mpr fun _ => hon, rfl⟩

theorem parseInsert_parsed_iff {doc parsed : Value} :
    m.parseInsert doc false a = .ok parsed ↔
      m.schema.parseDocument doc (a.context .insert) = .ok parsed := Outcome.mapError_eq_ok

theorem parseUpdate_parsed_iff {modifier : Value} {upsert : Bool} {sent : Modifier} :
    m.parseUpdate modifier false upsert a = .ok sent ↔ Modifier.parse m.relaxed modifier upsert
      (a.context (if upsert then .upsert else .update)) = .ok sent := Outcome.mapError_eq_ok

/-- A write that bypasses the parser needs a model whose validator is on. -/
theorem on_of_parseUpdate {modifier : Value} {upsert : Bool} {sent : Modifier}
    (h : m.parseUpdate modifier true upsert a = .ok sent) : m.config.level ≠ .off := by
  unfold parseUpdate at h
  rw [Outcome.bind_eq_ok] at h
  obtain ⟨⟨⟩, hcheck, -⟩ := h
  exact m.checkBypass_eq_ok_iff.mp hcheck rfl

/-! ## What is stored -/

theorem insert_commits (doc : Value) (bypass : Bool) :
    (∃ parsed key c, m.parseInsert doc bypass a = .ok parsed ∧
      (Collection.insert m.collection parsed a.fresh).run (store.collection m.collection) =
        .ok key c ∧
      (m.insert store doc bypass a).result = .ok key ∧
      (m.insert store doc bypass a).store.collection m.collection = c) ∨
    (∃ e, (m.insert store doc bypass a).result = .error e) ∧
      (m.insert store doc bypass a).store.collection m.collection =
        store.collection m.collection := by
  unfold insert
  cases hparsed : m.parseInsert doc bypass a with
  | error e => exact .inr ⟨⟨e, rfl⟩, rfl⟩
  | ok parsed =>
    dsimp only [Store.insertOne, Reply.mapError]
    rcases store.perform_cases m.collection
      (Collection.traceless_insert m.collection parsed a.fresh) with
      ⟨key, c, hinsert, hresult, hstore⟩ | ⟨⟨e, hresult⟩, hstore⟩
    · exact .inl ⟨parsed, key, c, rfl, hinsert, by rw [hresult]; rfl, hstore⟩
    · exact .inr ⟨⟨_, by rw [hresult]; rfl⟩, hstore⟩

theorem insert_cases (doc : Value) :
    (∃ parsed key c, m.schema.parseDocument doc (a.context .insert) = .ok parsed ∧
      (Collection.insert m.collection parsed a.fresh).run (store.collection m.collection) =
        .ok key c ∧
      (m.insert store doc false a).result = .ok key ∧
      (m.insert store doc false a).store.collection m.collection = c) ∨
    (∃ e, (m.insert store doc false a).result = .error e) ∧
      (m.insert store doc false a).store.collection m.collection =
        store.collection m.collection := by
  simpa only [parseInsert_parsed_iff] using m.insert_commits store a doc false

theorem update_commits (selector modifier : Value) (bypass upsert : Bool) :
    (∃ sent outcome c, m.parseUpdate modifier bypass upsert a = .ok sent ∧
      (store.collection m.collection).Updates m.collection selector (.object sent) upsert a.fresh
        outcome c ∧
      (m.update store selector modifier bypass upsert a).result = .ok outcome ∧
      (m.update store selector modifier bypass upsert a).store.collection m.collection = c) ∨
    (∃ e, (m.update store selector modifier bypass upsert a).result = .error e) ∧
      (m.update store selector modifier bypass upsert a).store.collection m.collection =
        store.collection m.collection := by
  unfold update
  cases hparsed : m.parseUpdate modifier bypass upsert a with
  | error e => exact .inr ⟨⟨e, rfl⟩, rfl⟩
  | ok sent =>
    dsimp only [Store.updateOne, Reply.mapError]
    rcases store.perform_cases m.collection
      (Collection.traceless_update m.collection selector (.object sent) upsert a.fresh) with
      ⟨outcome, c, hupdate, hresult, hstore⟩ | ⟨⟨e, hresult⟩, hstore⟩
    · exact .inl ⟨sent, outcome, c, rfl, Collection.update_eq_ok_iff.mp hupdate,
        by rw [hresult]; rfl, hstore⟩
    · exact .inr ⟨⟨_, by rw [hresult]; rfl⟩, hstore⟩

theorem update_cases (selector modifier : Value) (upsert : Bool) :
    (∃ sent outcome c, Modifier.parse m.relaxed modifier upsert
        (a.context (if upsert then .upsert else .update)) = .ok sent ∧
      (store.collection m.collection).Updates m.collection selector (.object sent) upsert a.fresh
        outcome c ∧
      (m.update store selector modifier false upsert a).result = .ok outcome ∧
      (m.update store selector modifier false upsert a).store.collection m.collection = c) ∨
    (∃ e, (m.update store selector modifier false upsert a).result = .error e) ∧
      (m.update store selector modifier false upsert a).store.collection m.collection =
        store.collection m.collection := by
  simpa only [parseUpdate_parsed_iff] using m.update_commits store a selector modifier false upsert

variable {m store a}

theorem insert_of_commits {doc parsed : Value} {bypass : Bool} {key : String} {c : Collection}
    (hparse : m.parseInsert doc bypass a = .ok parsed)
    (h : (Collection.insert m.collection parsed a.fresh).run (store.collection m.collection) =
      .ok key c) :
    m.insert store doc bypass a = ⟨.ok key, store.withCollection m.collection c⟩ := by
  unfold insert
  rw [hparse]
  dsimp only [Store.insertOne]
  rw [Store.perform_of_ok h]
  rfl

theorem insert_of_insert {doc parsed : Value} {key : String} {c : Collection}
    (hparsed : m.schema.parseDocument doc (a.context .insert) = .ok parsed)
    (h : (Collection.insert m.collection parsed a.fresh).run (store.collection m.collection) =
      .ok key c) :
    m.insert store doc false a = ⟨.ok key, store.withCollection m.collection c⟩ :=
  insert_of_commits ((m.parseInsert_parsed_iff a).mpr hparsed) h

theorem update_of_updates {selector modifier : Value} {upsert : Bool} {sent : Modifier}
    {outcome : UpdateOutcome} {c : Collection}
    (hsent : Modifier.parse m.relaxed modifier upsert
      (a.context (if upsert then .upsert else .update)) = .ok sent)
    (h : (store.collection m.collection).Updates m.collection selector (.object sent) upsert
      a.fresh outcome c) :
    m.update store selector modifier false upsert a =
      ⟨.ok outcome, store.withCollection m.collection c⟩ := by
  unfold update
  rw [(m.parseUpdate_parsed_iff a).mpr hsent]
  dsimp only [Store.updateOne]
  rw [Store.perform_of_ok (Collection.update_eq_ok_iff.mpr h)]
  rfl

end Model

end DocSchema

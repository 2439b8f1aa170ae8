-- SUMMARY: Models: a schema bound to a collection, with checked writes and plain reads.
import DocSchema.Model.Config
import DocSchema.Model.Error
import DocSchema.Schema.Field
import DocSchema.Schema.Lint
import DocSchema.Store.Basic
import DocSchema.Update.Modifier

/-!
# Models

Defining a model checks its schema, compiles it, and attaches the validator to
the collection. Every write is then checked twice: by the parser, and by the
store against the validator. A write may bypass the parser, unless the validator
of the model is off. Reads give documents as stored.
-/

namespace DocSchema

structure Model where
  collection : String
  /-- The schema as enforced, with an `_id` that was added. -/
  schema : Node
  relaxed : UpdateSchema
  validator : Validator
  config : ModelConfig

/-- What a call takes from around it: the clock, who acts, and an identifier for
a document that has none. -/
structure Ambient where
  clock : Clock
  actor : Option String
  fresh : Uuid
deriving Inhabited

def Ambient.context (a : Ambient) (kind : OperationKind) : Context :=
  (Operation.begin (some kind) a.actor).context a.clock

namespace Node

/-- Adds an optional `_id` to the root of a schema that declares none. -/
def withIdField (schema : Node) : Except SchemaError Node := do
  match ← schema.mergedRoot with
  | .object fields catchall =>
    if (lookup fields "_id").isSome then .ok (.object fields catchall)
    else .ok (.object (("_id", .optional Field.nonEmptyString) :: fields) catchall)
  | other => .error (.invalid .root (.modelNotObject other.kindName))

end Node

namespace Model

/-! ## Definition -/

/-- The parts of a model that its schema determines. -/
def ofSchema (collection : String) (schema : Node) (config : ModelConfig) :
    Except SchemaError Model := do
  schema.lint
  let schema ← if config.addIdField then schema.withIdField else .ok schema
  let validator ← schema.compile
  let relaxed ← schema.relaxed
  .ok ⟨collection, schema, relaxed, validator, config⟩

/-- Defines a model and attaches its validator to the collection. -/
def define (collection : String) (schema : Node) (config : ModelConfig) (store : Store) :
    Reply ModelError Model :=
  match ofSchema collection schema config with
  | .ok m => ⟨.ok m, store.setValidator collection m.validator config.settings⟩
  | .error e => ⟨.error (.validation (e.inCollection collection)), store⟩

/-! ## Writes -/

def rejected (m : Model) (e : SchemaError) : ModelError :=
  .validation (e.inCollection m.collection)

/-- A write that bypasses the parser must still meet the validator. -/
def checkBypass (m : Model) (bypass : Bool) : Except ModelError Unit :=
  if bypass && m.config.level == .off then
    .error (m.rejected (.rejected
      (.mismatch .root "storage validation for a bypassed write" "validation level off")))
  else .ok ()

/-- What a refusal of the store means for a write that was parsed or not. -/
def storageError (bypass : Bool) : StorageError → ModelError
  | .documentRejected collection issue =>
    if bypass then .storageRejected collection issue else .consistency collection issue
  | other => .storage other

/-- The document that an insert sends to the store. -/
def parseInsert (m : Model) (doc : Value) (bypass : Bool) (a : Ambient) :
    Except ModelError Value := do
  m.checkBypass bypass
  if bypass then .ok doc
  else (m.schema.parseDocument doc (a.context .insert)).mapError fun issue =>
    m.rejected (.rejected issue)

/-- Inserts a document and gives its key. -/
def insert (m : Model) (store : Store) (doc : Value) (bypass : Bool) (a : Ambient) :
    Reply ModelError String :=
  match m.parseInsert doc bypass a with
  | .ok parsed => (store.insertOne m.collection parsed a.fresh).mapError (storageError bypass)
  | .error e => ⟨.error e, store⟩

/-- The modifier that an update sends to the store. -/
def parseUpdate (m : Model) (modifier : Value) (bypass upsert : Bool) (a : Ambient) :
    Except ModelError Modifier := do
  m.checkBypass bypass
  let parsed :=
    if bypass then Modifier.normalize m.relaxed modifier
    else Modifier.parse m.relaxed modifier upsert (a.context (if upsert then .upsert else .update))
  parsed.mapError m.rejected

/-- Applies a modifier to the first document that a selector matches; with
`upsert`, inserts one if none does. -/
def update (m : Model) (store : Store) (selector modifier : Value) (bypass upsert : Bool)
    (a : Ambient) : Reply ModelError UpdateOutcome :=
  match m.parseUpdate modifier bypass upsert a with
  | .ok sent =>
    (store.updateOne m.collection selector (.object sent) upsert a.fresh).mapError
      (storageError bypass)
  | .error e => ⟨.error e, store⟩

/-- Updates the first match or inserts a document, with defaults for the fields
that the modifier leaves out. -/
def upsert (m : Model) (store : Store) (selector modifier : Value) (bypass : Bool) (a : Ambient) :
    Reply ModelError UpdateOutcome := m.update store selector modifier bypass true a

/-! ## Reads and removal -/

def findOne (m : Model) (store : Store) (selector : Value) : Except ModelError (Option Value) :=
  (store.findOne m.collection selector).mapError .storage

/-- The first match, which must exist. -/
def get (m : Model) (store : Store) (selector : Value) : Except ModelError Value := do
  match ← m.findOne store selector with
  | some doc => .ok doc
  | none => .error (.notFound m.collection)

def find (m : Model) (store : Store) (selector : Value) : Except ModelError (List Value) :=
  (store.find m.collection selector).mapError .storage

/-- Removes all documents that a selector matches and counts them. -/
def remove (m : Model) (store : Store) (selector : Value) : Reply ModelError Nat :=
  (store.remove m.collection selector).mapError .storage

end Model

end DocSchema

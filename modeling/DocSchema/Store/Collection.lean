-- SUMMARY: One collection: its documents, its validator, and the operations on it.
import DocSchema.Store.Apply
import DocSchema.Store.Identifier
import DocSchema.Store.Settings
import DocSchema.Validator.Document

/-!
# Collections

A collection holds documents under their keys and perhaps a validator. A write
works on the collection in place: it prepares a document, checks it against the
validator, and then stores it. Where it fails, the collection stands as the write
has left it.
-/

namespace DocSchema

structure Collection where
  /-- Documents under the keys of their identifiers. -/
  documents : Entries Value
  validator : Option (Validator × ValidationSettings)

/-- What an update did. -/
structure UpdateOutcome where
  /-- Documents that matched, at most one. -/
  matched : Nat
  /-- Documents whose content changed, at most one. -/
  modified : Nat
  /-- The key of the document that was inserted. -/
  upsertedId : Option String
deriving DecidableEq, Inhabited

namespace Collection

def empty : Collection := ⟨[], none⟩

/-- Whether the settings ask for a check of a document that replaces another. -/
def isChecked (validator : Validator) (level : ValidationLevel) (previous : Option Value) : Bool :=
  match level, previous with
  | .off, _ => false
  | .moderate, some old => validator.isValid old
  | _, _ => true

/-- Checks a document that is about to be stored under the name of the collection. -/
def enforce (c : Collection) (name : String) (doc : Value) (previous : Option Value) :
    Except StorageError Unit :=
  match c.validator with
  | none => .ok ()
  | some (validator, settings) =>
    if isChecked validator settings.level previous then
      match validator.validate doc, settings.action with
      | .error issue, .error => .error (.documentRejected name issue)
      | _, _ => .ok ()
    else .ok ()

/-! ## Reading -/

/-- The first document that a selector matches, with its key. -/
def firstMatch (selector : Value) : Entries Value → Except StorageError (Option (String × Value))
  | [] => .ok none
  | (key, doc) :: rest => do
    if ← Selector.selects selector doc then .ok (some (key, doc)) else firstMatch selector rest

/-- The documents that a selector matches, with their keys. -/
def matching (selector : Value) : Entries Value → Except StorageError (Entries Value)
  | [] => .ok []
  | (key, doc) :: rest => do
    let found ← Selector.selects selector doc
    let others ← matching selector rest
    .ok (if found then (key, doc) :: others else others)

def findOne (c : Collection) (selector : Value) : Except StorageError (Option Value) := do
  .ok ((← firstMatch selector c.documents).map Prod.snd)

def find (c : Collection) (selector : Value) : Except StorageError (List Value) := do
  .ok (Entries.values (← matching selector c.documents))

/-! ## Writing -/

/-- Work on a collection. It may fail, and what it changed until then stays changed. -/
abbrev Work := EStateM StorageError Collection

/-- Puts a document under a key. -/
def put (key : String) (doc : Value) : Work Unit :=
  modify fun c => { c with documents := Entries.insert c.documents key doc }

/-- Takes the document under a key away. -/
def discard (key : String) : Work Unit :=
  modify fun c => { c with documents := Entries.erase c.documents key }

/-- The fields of a document with its `_id`, which is made up if there is none. -/
def identified (fields : Entries Value) (fresh : Uuid) : Entries Value × String :=
  match Entries.get? fields "_id" with
  | some id => (fields, id.idKey)
  | none => (Entries.insert fields "_id" (.string fresh.text), fresh.text)

/-- Inserts a document and gives its key. -/
def insert (name : String) (doc : Value) (fresh : Uuid) : Work String := do
  match doc with
  | .object fields =>
    let (fields, key) := identified fields fresh
    let c ← get
    if Entries.contains c.documents key then throw (.duplicateKey name key)
    else
      liftExcept (c.enforce name (.object fields) none)
      put key (.object fields)
      return key
  | _ => throw (.modifier .documentNotObject)

/-- Replaces a document by the modified one. -/
def replace (name key : String) (current modifier : Value) : Work UpdateOutcome := do
  let edited := Apply.modifier current modifier false
  let next ← liftExcept (edited.result.mapError StorageError.modifier)
  if next.field? "_id" == current.field? "_id" then
    let c ← get
    liftExcept (c.enforce name next (some current))
    put key next
    return ⟨1, if next == current then 0 else 1, none⟩
  else throw (.modifier .idImmutable)

/-- The document that the equalities of a selector describe. -/
def seed (selector : Value) : Edited :=
  (Selector.equalities selector).foldl
    (fun edited e => edited.andThen fun doc => doc.setPath e.1 e.2) (.done .empty)

/-- The document that a selector and a modifier describe. -/
def seeded (selector modifier : Value) : Edited :=
  (seed selector).andThen fun doc => Apply.modifier doc modifier true

/-- Inserts the document that a selector and a modifier describe. -/
def insertSeeded (name : String) (selector modifier : Value) (fresh : Uuid) :
    Work UpdateOutcome := do
  let doc ← liftExcept ((seeded selector modifier).result.mapError StorageError.modifier)
  let key ← insert name doc fresh
  return ⟨0, 0, some key⟩

/-- Modifies the first document that a selector matches; with `upsert`, inserts
one if none does. -/
def update (name : String) (selector modifier : Value) (upsert : Bool) (fresh : Uuid) :
    Work UpdateOutcome := do
  let c ← get
  match ← liftExcept (firstMatch selector c.documents) with
  | some (key, current) => replace name key current modifier
  | none => if upsert then insertSeeded name selector modifier fresh else return ⟨0, 0, none⟩

/-- Removes the documents that a selector matches, one by one, and counts them. -/
def remove (selector : Value) : Work Nat := do
  let c ← get
  let doomed ← liftExcept (matching selector c.documents)
  doomed.forM fun e => discard e.1
  return doomed.length

end Collection

end DocSchema

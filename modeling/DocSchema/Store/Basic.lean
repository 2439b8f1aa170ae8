-- SUMMARY: The store: collections by name, and the calls that reach them.
import DocSchema.Store.Collection

/-!
# The store

A store is a finite map from names to collections. A collection that has not
been written to is empty and has no validator. Every call that may write gives a
`Reply`: its result and the store it leaves behind, also where it fails.
-/

namespace DocSchema

structure Store where
  collections : Entries Collection

/-- The result of a call, and the store it leaves behind. -/
structure Reply (ε α : Type) where
  result : Except ε α
  store : Store

def Reply.mapError {ε δ α : Type} (r : Reply ε α) (f : ε → δ) : Reply δ α :=
  ⟨r.result.mapError f, r.store⟩

namespace Store

def empty : Store := ⟨[]⟩

def collection (s : Store) (name : String) : Collection :=
  (Entries.get? s.collections name).getD .empty

def withCollection (s : Store) (name : String) (c : Collection) : Store :=
  ⟨Entries.insert s.collections name c⟩

/-- Works on a collection, which is created if there is none. The store keeps it as the
work leaves it, also where the work fails. -/
def perform {α : Type} (s : Store) (name : String) (work : Collection.Work α) :
    Reply StorageError α :=
  match work.run (s.collection name) with
  | .ok answer c => ⟨.ok answer, s.withCollection name c⟩
  | .error e c => ⟨.error e, s.withCollection name c⟩

/-- Attaches a validator to a collection, in place of the one it had. -/
def setValidator (s : Store) (name : String) (v : Validator) (settings : ValidationSettings) :
    Store :=
  s.withCollection name { s.collection name with validator := some (v, settings) }

/-- Inserts a document and gives its key. -/
def insertOne (s : Store) (name : String) (doc : Value) (fresh : Uuid) :
    Reply StorageError String :=
  s.perform name (Collection.insert name doc fresh)

/-- Applies a modifier to the first document that a selector matches. -/
def updateOne (s : Store) (name : String) (selector modifier : Value) (upsert : Bool)
    (fresh : Uuid) : Reply StorageError UpdateOutcome :=
  s.perform name (Collection.update name selector modifier upsert fresh)

def findOne (s : Store) (name : String) (selector : Value) : Except StorageError (Option Value) :=
  (s.collection name).findOne selector

def find (s : Store) (name : String) (selector : Value) : Except StorageError (List Value) :=
  (s.collection name).find selector

/-- Removes all documents that a selector matches and counts them. -/
def remove (s : Store) (name : String) (selector : Value) : Reply StorageError Nat :=
  match Entries.get? s.collections name with
  | some _ => s.perform name (Collection.remove selector)
  | none => ⟨.ok 0, s⟩

end Store

end DocSchema

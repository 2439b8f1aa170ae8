-- SUMMARY: Editing a document at a dotted path: setting, removing, and changing an array.
import DocSchema.Store.Selector

/-!
# Edits

Paths of modifiers have non-empty segments without `$`. Setting creates the
objects that are missing on the way; an array takes an index up to its length,
where it grows by one. An edit works its way down from the root and changes what
it passes, so its result is a document also where it ends in a fault.
-/

namespace DocSchema

/-! ## Results -/

/-- A document after some edits, and the fault that ended them. What was changed
before the fault stays changed. -/
structure Edited where
  doc : Value
  fault : Option ApplyFault

namespace Edited

def done (doc : Value) : Edited := ⟨doc, none⟩

def failed (doc : Value) (fault : ApplyFault) : Edited := ⟨doc, some fault⟩

/-- Goes on with the document unless there was a fault. -/
def andThen (e : Edited) (next : Value → Edited) : Edited :=
  match e.fault with
  | none => next e.doc
  | some _ => e

/-- The document of an edit that came to its end. -/
def result (e : Edited) : Except ApplyFault Value :=
  match e.fault with
  | none => .ok e.doc
  | some fault => .error fault

end Edited

/-! ## Paths -/

namespace DotPath

/-- The segments of a path that an edit can follow. -/
def editable (path : String) : Except ApplyFault (List String) :=
  let parts := segments path
  if parts.any (· = "") then .error (.emptySegment path)
  else if parts.any isOperator then .error (.positional path)
  else .ok parts

end DotPath

namespace Value

/-! ## Setting -/

/-- Puts a value into an array, at the end if the index is the length. -/
def setOrAppend (items : List Value) (i : Nat) (v : Value) : List Value :=
  if i < items.length then items.set i v else items ++ [v]

/-- The element an edit goes on with: null and missing elements become objects. -/
def elementOrEmpty (items : List Value) (i : Nat) : Value :=
  match items[i]? with
  | none | some .null => .empty
  | some v => v

/-- Puts `new` at the end of the segments; `path` is named in faults. -/
def setAt (path : String) (new : Value) : List String → Value → Edited
  | [], _ => .done new
  | segment :: rest, .object fields =>
    let child := setAt path new rest ((Entries.get? fields segment).getD .empty)
    ⟨.object (Entries.insert fields segment child.doc), child.fault⟩
  | segment :: rest, .array items =>
    match DotPath.index? segment with
    | none => .failed (.array items) (.notIndex segment path)
    | some i =>
      if i ≤ items.length then
        let child := setAt path new rest (elementOrEmpty items i)
        ⟨.array (setOrAppend items i child.doc), child.fault⟩
      else .failed (.array items) (.pastEnd i path items.length)
  | [_], doc => .failed doc (.parentNotContainer path)
  | segment :: _, doc => .failed doc (.notTraversable segment path)

/-- Puts a value at a path. -/
def setPath (doc : Value) (path : String) (new : Value) : Edited :=
  match DotPath.editable path with
  | .ok parts => setAt path new parts doc
  | .error fault => .failed doc fault

/-! ## Removing -/

/-- Takes away the value at the end of the segments, if there is one: the value
and what is left. An element of an array leaves null behind. -/
def removeAt : List String → Value → Option (Value × Value)
  | [], _ => none
  | [last], .object fields =>
    (Entries.get? fields last).map fun v => (v, .object (Entries.erase fields last))
  | [last], .array items => do
    let i ← DotPath.index? last
    let v ← items[i]?
    some (v, .array (items.set i .null))
  | segment :: rest, .object fields => do
    let child ← Entries.get? fields segment
    let (v, left) ← removeAt rest child
    some (v, .object (Entries.insert fields segment left))
  | segment :: rest, .array items => do
    let i ← DotPath.index? segment
    let child ← items[i]?
    let (v, left) ← removeAt rest child
    some (v, .array (items.set i left))
  | _, _ => none

/-- Takes away the value at a path. -/
def removePath (doc : Value) (path : String) : Except ApplyFault (Option (Value × Value)) :=
  (DotPath.editable path).map fun parts => removeAt parts doc

/-! ## Changing an array -/

/-- Puts `new` in the place of the value at the end of the segments, if there is one. -/
def replaceAt (new : Value) : List String → Value → Value
  | [], _ => new
  | segment :: rest, .object fields =>
    match Entries.get? fields segment with
    | some child => .object (Entries.insert fields segment (replaceAt new rest child))
    | none => .object fields
  | segment :: rest, .array items =>
    match (DotPath.index? segment).bind fun i => items[i]?.map fun child => (i, child) with
    | some (i, child) => .array (items.set i (replaceAt new rest child))
    | none => .array items
  | _ :: _, doc => doc

/-- Changes the array at the end of the segments, which must be one. -/
def changeArrayAt (path : String) (change : List Value → List Value) (parts : List String)
    (doc : Value) : Edited :=
  match doc.walk? parts with
  | some (.array items) => .done (replaceAt (.array (change items)) parts doc)
  | _ => .failed doc (.notArray path)

/-- Changes the array at a path; a missing one is created empty first. -/
def changeArray (doc : Value) (path : String) (change : List Value → List Value) : Edited :=
  let prepared := if (doc.lookup? path).isNone then doc.setPath path (.array []) else .done doc
  prepared.andThen fun doc =>
    match DotPath.editable path with
    | .ok parts => changeArrayAt path change parts doc
    | .error fault => .failed doc fault

end Value

end DocSchema

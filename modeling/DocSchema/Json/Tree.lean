-- SUMMARY: JSON texts as trees that keep order and repeated names, and the values they denote.
import DocSchema.Json.Token
import DocSchema.Json.Printer

/-!
# JSON trees

A `Tree` keeps what a text says: entries stand in written order and a name may
be repeated. `Tree.value?` is the value it denotes, with entries in order of
their names and the last of repeated names kept; it fails where a string or a
number cannot be represented.
-/

namespace DocSchema

namespace Json

inductive Tree where
  | null
  | bool (value : Bool)
  /-- A number; `none` if it is too large for a double. -/
  | number (value : Option Number)
  /-- A string; `none` if it holds an unpaired surrogate. -/
  | string (text : Option String)
  | array (items : List Tree)
  | object (fields : List (Option String × Tree))

namespace Tree

instance : Inhabited Tree := ⟨.null⟩

/-! ## Building trees from tokens -/

/-- A container under way; what it holds so far stands last first. -/
inductive Frame where
  | array (items : List Tree)
  | object (fields : List (Option String × Tree)) (name : Option String)

/-- What may come next, inside the containers that are open. -/
inductive Expecting where
  /-- A value; right behind `[` the array may also end. -/
  | value (opened : Bool) (frames : List Frame)
  /-- A name; right behind the opening brace the object may also end. -/
  | name (opened : Bool) (fields : List (Option String × Tree)) (frames : List Frame)
  | colon (fields : List (Option String × Tree)) (name : Option String) (frames : List Frame)
  /-- A comma or the end of the innermost container, behind a complete value. -/
  | separator (last : Tree) (frames : List Frame)

/-- Takes one token. -/
def step? : Expecting → Token → Option Expecting
  | .value opened frames, token =>
    match token with
    | .openArray => some (.value true (.array [] :: frames))
    | .openObject => some (.name true [] frames)
    | .null => some (.separator .null frames)
    | .bool b => some (.separator (.bool b) frames)
    | .number n => some (.separator (.number n) frames)
    | .string s => some (.separator (.string s) frames)
    | .closeArray =>
      match opened, frames with
      | true, .array _ :: outer => some (.separator (.array []) outer)
      | _, _ => none
    | _ => none
  | .name opened fields frames, token =>
    match token with
    | .string name => some (.colon fields name frames)
    | .closeObject => if opened then some (.separator (.object []) frames) else none
    | _ => none
  | .colon fields name frames, .colon => some (.value false (.object fields name :: frames))
  | .colon _ _ _, _ => none
  | .separator last frames, token =>
    match token, frames with
    | .comma, .array items :: outer => some (.value false (.array (last :: items) :: outer))
    | .comma, .object fields name :: outer => some (.name false ((name, last) :: fields) outer)
    | .closeArray, .array items :: outer => some (.separator (.array (last :: items).reverse) outer)
    | .closeObject, .object fields name :: outer =>
      some (.separator (.object ((name, last) :: fields).reverse) outer)
    | _, _ => none

/-- The tree of a text that holds one JSON value and nothing else. -/
def read? (text : String) : Option Tree := do
  let tokens ← Token.scan? text
  match ← tokens.foldlM step? (.value false []) with
  | .separator tree [] => some tree
  | _ => none

/-! ## The value of a tree -/

mutual
def value? : Tree → Option Value
  | .null => some .null
  | .bool b => some (.bool b)
  | .number n => n.map .number
  | .string s => s.map .string
  | .array items => (itemValues? items).map .array
  | .object fields => (fieldValues? fields).map fun fs => .object (Entries.ofList fs)

def itemValues? : List Tree → Option (List Value)
  | [] => some []
  | item :: rest => do some ((← item.value?) :: (← itemValues? rest))

def fieldValues? : List (Option String × Tree) → Option (List (String × Value))
  | [] => some []
  | (name, item) :: rest => do some ((← name, ← item.value?) :: (← fieldValues? rest))
end

end Tree

end Json

/-- The value that a JSON text denotes. -/
def Value.read? (text : String) : Option Value := (Json.Tree.read? text).bind Json.Tree.value?

end DocSchema

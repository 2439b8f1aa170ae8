-- SUMMARY: Dotted paths, by which selectors and modifiers address places in a document.

/-!
# Dotted paths

A path such as `profile.tags.0` is read as its segments between the dots. A
segment that denotes a natural number of 64 bits can index an array; `$`, `$[]`
and `$[name]` stand for elements chosen by a query.
-/

namespace DocSchema

namespace DotPath

/-- Splits characters at the dots. -/
def splitDots : List Char → List (List Char)
  | [] => [[]]
  | c :: cs =>
    if c = '.' then [] :: splitDots cs
    else match splitDots cs with
      | [] => [[c]]
      | segment :: rest => (c :: segment) :: rest

/-- The segments of a path; a path without dots has one. -/
def segments (path : String) : List String := (splitDots path.toList).map String.ofList

/-- The first segment: the top-level entry that a path leads into. -/
def rootOf (path : String) : String := (segments path).headD path

def hasDot (path : String) : Bool := path.toList.contains '.'

/-- Whether a name begins with the mark of operators. -/
def isOperator (name : String) : Bool := name.toList.head? == some '$'

/-- The array index that a segment denotes: digits, perhaps behind a plus sign. -/
def index? (segment : String) : Option Nat :=
  let digits := match segment.toList with
    | '+' :: rest => rest
    | cs => cs
  if digits = [] ∨ ¬ digits.all Char.isDigit then none
  else
    let n : Nat := digits.foldl (fun n c => 10 * n + (c.toNat - '0'.toNat)) 0
    if n < UInt64.size then some n else none

/-- Whether a segment stands for an element of an array: digits, `$`, `$[]` or
`$[name]`. -/
def isElement (segment : String) : Bool :=
  match segment.toList with
  | [] => false
  | ['$'] => true
  | ['$', '[', ']'] => true
  | '$' :: '[' :: rest =>
    match rest.reverse with
    | ']' :: name => name != [] && name.all fun c => c.isAlphanum || c = '_'
    | _ => false
  | cs => cs.all Char.isDigit

end DotPath

end DocSchema

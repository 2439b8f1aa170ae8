-- SUMMARY: Pattern expressions and the places in a text where they can end.
import DocSchema.Pattern.CharSet

/-!
# Pattern expressions

`Expr.ends` takes the set of places where a match may begin and gives the set of
places where it may end, so a text is searched in one pass and alternatives are
never retried. Places are counted in characters.
-/

namespace DocSchema

namespace Pattern

/-- Expressions. A `group` matches what is inside; it only counts for the size
of the expression. -/
inductive Expr where
  | empty
  | textStart
  | textEnd
  | lineStart
  | lineEnd
  | wordEdge
  | noWordEdge
  | char (set : CharSet)
  | seq (first second : Expr)
  | alt (left right : Expr)
  | group (inner : Expr)
  | repeated (inner : Expr) (least : Nat) (most : Option Nat)

/-- One expression behind another; an empty one leaves no trace. -/
def Expr.andThen : Expr → Expr → Expr
  | .empty, second => second
  | first, .empty => first
  | first, second => .seq first second

/-- Merges two ascending lists of places. -/
def mergePlaces (a b : List Nat) : List Nat := (a.merge b).eraseReps

/-- Marks the places reached by going on from the newest ones, at most `fuel`
times, where `reached` marks all places so far. Every place is gone on from once. -/
def markReached (next : List Nat → List Nat) : Nat → List Nat → Array Bool → Array Bool
  | 0, _, reached => reached
  | fuel + 1, newest, reached =>
    let further := (next newest).filter fun p => !reached.getD p false
    if further = [] then reached
    else
      let reached := further.foldl (fun marks p => marks.setIfInBounds p true) reached
      markReached next fuel further reached

/-- The places, of those up to `last`, reached by going on at most `fuel` times. -/
def closure (next : List Nat → List Nat) (last fuel : Nat) (places : List Nat) : List Nat :=
  let unmarked := Array.replicate (last + 1) false
  let start := places.foldl (fun marks p => marks.setIfInBounds p true) unmarked
  let reached := markReached next fuel places start
  (List.range (last + 1)).filter fun p => reached.getD p false

/-- The places reached by going on exactly `n` times; once a step changes
nothing, no further one does. -/
def exactly (next : List Nat → List Nat) : Nat → List Nat → List Nat
  | 0, places => places
  | n + 1, places =>
    let further := next places
    if further = places then places else exactly next n further

/-- Whether exactly one side of a place is a word character. -/
def atWordEdge (text : Array Char) (place : Nat) : Bool :=
  let isWord (c : Option Char) : Bool := c.any fun c => CharSet.word.mem c.toNat
  let before := if place = 0 then none else text[place - 1]?
  isWord before != isWord text[place]?

/-- The places where a match that begins at one of the given places can end. -/
def Expr.ends (text : Array Char) : Expr → List Nat → List Nat
  | .empty, places => places
  | .textStart, places => places.filter (· = 0)
  | .textEnd, places => places.filter (· = text.size)
  | .lineStart, places => places.filter fun p => p = 0 || text[p - 1]? = some '\n'
  | .lineEnd, places => places.filter fun p => p = text.size || text[p]? = some '\n'
  | .wordEdge, places => places.filter (atWordEdge text)
  | .noWordEdge, places => places.filter fun p => !atWordEdge text p
  | .char set, places =>
    places.filterMap fun p => if (text[p]?).any fun c => set.mem c.toNat then some (p + 1) else none
  | .seq first second, places => second.ends text (first.ends text places)
  | .alt left right, places => mergePlaces (left.ends text places) (right.ends text places)
  | .group inner, places => inner.ends text places
  | .repeated inner least most, places =>
    let start := exactly (inner.ends text) least places
    match most with
    | none => closure (inner.ends text) text.size (text.size + 1) start
    | some most => closure (inner.ends text) text.size (most - least) start

/-- Whether the expression matches somewhere in the text. -/
def Expr.matchesIn (e : Expr) (text : String) : Bool :=
  let chars := text.toList.toArray
  e.ends chars (List.range (chars.size + 1)) != []

end Pattern

end DocSchema

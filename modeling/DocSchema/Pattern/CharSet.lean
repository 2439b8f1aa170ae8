-- SUMMARY: Sets of characters, as patterns describe them.
import DocSchema.Pattern.Table

/-!
# Character sets

A `CharSet` is a description; `CharSet.mem` decides membership. `folded` makes a
set insensitive to case: a character belongs to it when some character with the
same case folding belongs to the set described.
-/

namespace DocSchema

namespace Pattern

def inRanges (ranges : Array (Nat × Nat)) (n : Nat) : Bool :=
  ranges.any fun (low, high) => decide (low ≤ n ∧ n ≤ high)

/-- The code point that a row of the folding table sends `n` to. -/
def foldBy (n : Nat) : Nat × Nat × Nat × Int → Option Nat
  | (first, last, step, offset) =>
    if first ≤ n ∧ n ≤ last ∧ (n - first) % step = 0 then some (n + offset).toNat else none

/-- The code point that a row of the folding table sends to `n`. -/
def unfoldBy (n : Nat) : Nat × Nat × Nat × Int → Option Nat
  | (first, last, step, offset) =>
    let source := (n - offset).toNat
    if first ≤ source ∧ source ≤ last ∧ (source - first) % step = 0 then some source else none

/-- Simple case folding. -/
def fold (n : Nat) : Nat := (foldRows.findSome? (foldBy n)).getD n

/-- All code points with the same case folding. -/
def caseVariants (n : Nat) : List Nat :=
  let folded := fold n
  folded :: foldRows.toList.filterMap (unfoldBy folded)

inductive CharSet where
  | empty
  | range (low high : Nat)
  | digit
  | blank
  | word
  | union (left right : CharSet)
  | complement (set : CharSet)
  | folded (set : CharSet)

namespace CharSet

def single (c : Char) : CharSet := .range c.toNat c.toNat

def inter (left right : CharSet) : CharSet :=
  .complement (.union (.complement left) (.complement right))

def unionAll (sets : List CharSet) : CharSet := sets.foldl .union .empty

/-- Whether the code point belongs to the set. -/
def mem : CharSet → Nat → Bool
  | .empty, _ => false
  | .range low high, n => decide (low ≤ n ∧ n ≤ high)
  | .digit, n => inRanges digitRanges n
  | .blank, n => inRanges blankRanges n
  | .word, n => inRanges wordRanges n
  | .union left right, n => left.mem n || right.mem n
  | .complement set, n => !set.mem n
  | .folded set, n => (caseVariants n).any set.mem

end CharSet

end Pattern

end DocSchema

-- SUMMARY: The room that a pattern takes once its repetitions are written out.
import DocSchema.Pattern.Expr

/-!
# Size of patterns

A pattern stands for an automaton that reads a text byte by byte, and counted
repetitions are written out in it: `x{1000}` takes a thousand states. `Expr.size`
is the room of that automaton in bytes: a state takes 32, a way out of a state
that has several takes 4, and a byte range of a state that has several takes 8.
A set beyond the ASCII characters takes one state for every distinct beginning of
the byte sequences that encode it. An expression above `sizeLimit` is no pattern.
-/

namespace DocSchema

namespace Pattern

-- ---------------------------------------------------------------------------
-- Ranges of a set
-- ---------------------------------------------------------------------------

/-- Joins ranges in ascending order where they overlap or touch; the range under
way is given by its ends. -/
def joinFrom (low high : Nat) : List (Nat × Nat) → List (Nat × Nat)
  | [] => [(low, high)]
  | (a, b) :: rest =>
    if a ≤ high + 1 then joinFrom low (max high b) rest else (low, high) :: joinFrom a b rest

/-- The code points of both lists, as ranges in ascending order that stand apart. -/
def unionRanges (left right : List (Nat × Nat)) : List (Nat × Nat) :=
  match left.merge right fun a b => a.1 ≤ b.1 with
  | [] => []
  | (low, high) :: rest => joinFrom low high rest

/-- The code points from `next` on that are in none of the ranges. -/
def gapsFrom (next : Nat) : List (Nat × Nat) → List (Nat × Nat)
  | [] => if next ≤ 0x10ffff then [(next, 0x10ffff)] else []
  | (low, high) :: rest =>
    if next < low then (next, low - 1) :: gapsFrom (high + 1) rest else gapsFrom (high + 1) rest

/-- The pairs of a code point and its case folding in a row of the folding table. -/
def foldPairs : Nat × Nat × Nat × Int → List (Nat × Nat)
  | (first, last, step, offset) =>
    (List.range ((last - first) / step + 1)).map fun i =>
      (first + i * step, (first + i * step + offset).toNat)

/-- The ranges together with the partners of their members. -/
def addPartners (pairs : List (Nat × Nat)) (ranges : List (Nat × Nat)) : List (Nat × Nat) :=
  let members := ranges.toArray
  let partners := pairs.filterMap fun (a, b) => if inRanges members a then some (b, b) else none
  unionRanges ranges (partners.mergeSort fun a b => a.1 ≤ b.1)

/-- The members of a set, as ranges in ascending order that stand apart. -/
def CharSet.ranges : CharSet → List (Nat × Nat)
  | .empty => []
  | .range low high => [(low, high)]
  | .digit => digitRanges.toList
  | .blank => blankRanges.toList
  | .word => wordRanges.toList
  | .union left right => unionRanges left.ranges right.ranges
  | .complement set => gapsFrom 0 set.ranges
  | .folded set =>
    let pairs := foldRows.toList.flatMap foldPairs
    addPartners (pairs.map Prod.swap) (addPartners pairs set.ranges)

-- ---------------------------------------------------------------------------
-- Byte sequences of a set
-- ---------------------------------------------------------------------------

/-- The sequences of byte ranges for the numbers from `low` to `high`, written
with so many bytes of six bits behind a first one. -/
def byteSequences : Nat → Nat → Nat → List (List (Nat × Nat))
  | 0, low, high => [[(low, high)]]
  | n + 1, low, high =>
    let block := Nat.pow 64 (n + 1)
    let (a, b) := (low / block, high / block)
    if a = b then (byteSequences n (low % block) (high % block)).map ((a, a) :: ·)
    else
      let whole := List.replicate (n + 1) (0, 63)
      let below := if low % block = 0 then []
        else (byteSequences n (low % block) (block - 1)).map ((a, a) :: ·)
      let above := if high % block = block - 1 then []
        else (byteSequences n 0 (high % block)).map ((b, b) :: ·)
      let first := if below = [] then a else a + 1
      let last := if above = [] then b else b - 1
      below ++ (if first ≤ last then [(first, last) :: whole] else []) ++ above

/-- The stretches of code points that are encoded with one number of bytes, and
the number of bytes behind the first. Surrogates are not encoded. -/
def encodingStretches : List (Nat × Nat × Nat) :=
  [(0, 0x7f, 0), (0x80, 0x7ff, 1), (0x800, 0xd7ff, 2), (0xe000, 0xffff, 2), (0x10000, 0x10ffff, 3)]

/-- The byte sequences of a range of code points. Sequences of different lengths
begin differently. -/
def encodings (low high : Nat) : List (Nat × List (Nat × Nat)) :=
  encodingStretches.flatMap fun (first, last, n) =>
    let (a, b) := (max low first, min high last)
    if a ≤ b then (byteSequences n a b).map (n, ·) else []

/-- How many elements two lists have in common at their beginning. -/
def commonLength : List (Nat × Nat) → List (Nat × Nat) → Nat
  | a :: as, b :: bs => if a = b then commonLength as bs + 1 else 0
  | _, _ => 0

/-- The number of different beginnings of sequences in ascending order. -/
def beginnings : List (Nat × List (Nat × Nat)) → Nat
  | (n, first) :: (m, second) :: rest =>
    (first.length - if n = m then commonLength first second else 0) +
      beginnings ((m, second) :: rest)
  | [(_, last)] => last.length
  | [] => 0

/-- The room of one character out of a set. -/
def CharSet.size (set : CharSet) : Nat :=
  match set.ranges with
  | [] => 32
  | ranges =>
    let sequences := ranges.flatMap fun (low, high) => encodings low high
    match ranges with
    | [(low, high)] => if low = high then 32 * beginnings sequences else several ranges sequences
    | _ => several ranges sequences
where
  several (ranges : List (Nat × Nat)) (sequences : List (Nat × List (Nat × Nat))) : Nat :=
    if ranges.all fun r => r.2 < 128 then 64 + 8 * ranges.length
    else 64 + 4 * sequences.length + 32 * beginnings sequences

-- ---------------------------------------------------------------------------
-- Expressions
-- ---------------------------------------------------------------------------

namespace Expr

/-- Whether every match is empty. -/
def isZeroWidth : Expr → Bool
  | .char _ => false
  | .seq first second => first.isZeroWidth && second.isZeroWidth
  | .alt left right => left.isZeroWidth && right.isZeroWidth
  | .group inner => inner.isZeroWidth
  | .repeated inner _ most => inner.isZeroWidth || most == some 0
  | _ => true

/-- Whether no match is empty. -/
def takesSomething : Expr → Bool
  | .char _ => true
  | .seq first second => first.takesSomething || second.takesSomething
  | .alt left right => left.takesSomething && right.takesSomething
  | .group inner => inner.takesSomething
  | .repeated inner least _ => inner.takesSomething && least != 0
  | _ => false

/-- The set of an expression that is one character, or a choice among characters. -/
def charSet? : Expr → Option CharSet
  | .char set => some set
  | .alt left right => do some (.union (← left.charSet?) (← right.charSet?))
  | _ => none

/-- The room of a repetition whose inner expression takes `inner`. -/
def repeatedSize (inner : Nat) (takesSomething : Bool) : Nat → Option Nat → Nat
  | _, some 0 => 32
  | 0, some 1 => inner + 72
  | 0, none => if takesSomething then inner + 40 else inner + 112
  | least, none => least * inner + 40
  | least, some most =>
    if least = most then least * inner
    else (if least = 0 then 32 else least * inner) + 32 + (most - least) * (inner + 40)

/-- The room of an expression. Characters to choose from are one set, and what
can only match emptily is repeated at most once. -/
def size : Expr → Nat
  | .char set => set.size
  | .seq first second => first.size + second.size
  | .alt left right =>
    match charSet? left, charSet? right with
    | some left, some right => (left.union right).size
    | _, _ =>
      let isChoice := match left with
        | .alt .. => (charSet? left).isNone
        | _ => false
      (if isChoice then 4 else 72) + left.size + right.size
  | .group inner => 64 + inner.size
  | .repeated inner least most =>
    if inner.isZeroWidth then
      repeatedSize inner.size false (min least 1) (some (min (most.getD 1) 1))
    else repeatedSize inner.size inner.takesSomething least most
  | _ => 32

end Expr

/-- The room that a pattern may take: ten mebibytes, less what every automaton
takes for its start and its end. -/
def sizeLimit : Nat := 10 * 1024 * 1024 - 208

end Pattern

end DocSchema

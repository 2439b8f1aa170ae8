-- SUMMARY: Reading patterns from their written form.
import DocSchema.Pattern.Size

/-!
# Written patterns

Alternatives are separated by `|`, items stand one after another, and an item
may be followed by `*`, `+`, `?` or `{m,n}`. Items are characters, `.`, classes
in brackets, `\d \w \s` and their complements, anchors, and groups. Look-around
and references back to a group are not part of the notation. Reading fails where
the text does not follow it, where it is nested too deeply, where two groups have
one name, and where the expression is too large.

Some of the notation is left out, and a text that uses it counts as no pattern:
classes by a property of characters (`\p{Greek}`, `\PL`), the assertions of one
edge of a word (`\b{start}`, `\b{end}`, their halves, `\<` and `\>`), and the flags
`x` for blanks and comments in a pattern, `R` for line ends of two characters and
`-u` for ASCII classes. Names of groups are made of word characters, `.`, `[` and
`]`.
-/

namespace DocSchema

namespace Pattern

/-! ## Escapes -/

/-- What a backslash and the character behind it stand for. -/
inductive Escape where
  | char (c : Char)
  | set (s : CharSet)
  | place (e : Expr)

def hexDigit? (c : Char) : Option Nat :=
  if c.isDigit then some (c.toNat - '0'.toNat)
  else if 'a' ≤ c ∧ c ≤ 'f' then some (c.toNat - 'a'.toNat + 10)
  else if 'A' ≤ c ∧ c ≤ 'F' then some (c.toNat - 'A'.toNat + 10)
  else none

/-- The character of a list of hexadecimal digits. -/
def hexChar? (digits : List Char) : Option Char := do
  if digits = [] then none
  let n ← digits.foldlM (fun n c => (hexDigit? c).map fun d => min (16 * n + d) 0x110000) 0
  if n.isValidChar then some (Char.ofNat n) else none

/-- A code point behind `\x`, `\u` or `\U`: so many digits, or any number in braces. -/
def codePoint? (width : Nat) : List Char → Option (Char × List Char)
  | '\x7b' :: cs =>
    let digits := cs.takeWhile (· ≠ '\x7d')
    match cs.drop digits.length with
    | _ :: rest => (hexChar? digits).map (·, rest)
    | [] => none
  | cs => if width ≤ cs.length then (hexChar? (cs.take width)).map (·, cs.drop width) else none

def isPunctuation (c : Char) : Bool :=
  decide (c.toNat < 128) && !c.isAlphanum && c != '<' && c != '>'

/-- An escape, read behind its backslash. -/
def escape? : List Char → Option (Escape × List Char)
  | [] => none
  | c :: cs =>
    match c with
    | 'd' => some (.set .digit, cs)
    | 'D' => some (.set (.complement .digit), cs)
    | 's' => some (.set .blank, cs)
    | 'S' => some (.set (.complement .blank), cs)
    | 'w' => some (.set .word, cs)
    | 'W' => some (.set (.complement .word), cs)
    | 'a' => some (.char '\x07', cs)
    | 'f' => some (.char '\x0c', cs)
    | 't' => some (.char '\t', cs)
    | 'n' => some (.char '\n', cs)
    | 'r' => some (.char '\r', cs)
    | 'v' => some (.char '\x0b', cs)
    | 'A' => some (.place .textStart, cs)
    | 'z' => some (.place .textEnd, cs)
    | 'b' => some (.place .wordEdge, cs)
    | 'B' => some (.place .noWordEdge, cs)
    | 'x' => (codePoint? 2 cs).map fun (c, cs) => (.char c, cs)
    | 'u' => (codePoint? 4 cs).map fun (c, cs) => (.char c, cs)
    | 'U' => (codePoint? 8 cs).map fun (c, cs) => (.char c, cs)
    | c => if isPunctuation c then some (.char c, cs) else none

/-! ## Classes in brackets -/

/-- The named classes, written `[:alpha:]` inside brackets. -/
def namedClass? : String → Option (List (Char × Char))
  | "alnum" => some [('0', '9'), ('A', 'Z'), ('a', 'z')]
  | "alpha" => some [('A', 'Z'), ('a', 'z')]
  | "ascii" => some [('\x00', '\x7f')]
  | "blank" => some [('\t', '\t'), (' ', ' ')]
  | "cntrl" => some [('\x00', '\x1f'), ('\x7f', '\x7f')]
  | "digit" => some [('0', '9')]
  | "graph" => some [('!', '~')]
  | "lower" => some [('a', 'z')]
  | "print" => some [(' ', '~')]
  | "punct" => some [('!', '/'), (':', '@'), ('[', '\x60'), ('\x7b', '~')]
  | "space" => some [('\t', '\r'), (' ', ' ')]
  | "upper" => some [('A', 'Z')]
  | "word" => some [('0', '9'), ('A', 'Z'), ('_', '_'), ('a', 'z')]
  | "xdigit" => some [('0', '9'), ('A', 'F'), ('a', 'f')]
  | _ => none

/-- The set itself, or with all case variants of its members. -/
def foldedIf (ignoreCase : Bool) (set : CharSet) : CharSet :=
  if ignoreCase then .folded set else set

/-- A named class, read behind its `[`. Case is ignored before the complement
is taken. -/
def named? (ignoreCase : Bool) : List Char → Option (CharSet × List Char)
  | ':' :: cs =>
    let (negated, cs) := match cs with
      | '^' :: rest => (true, rest)
      | rest => (false, rest)
    let name := cs.takeWhile Char.isLower
    match cs.drop name.length, namedClass? (String.ofList name) with
    | ':' :: ']' :: rest, some ranges =>
      let members := CharSet.unionAll (ranges.map fun (a, b) => .range a.toNat b.toNat)
      let set := foldedIf ignoreCase members
      some (if negated then .complement set else set, rest)
    | _, _ => none
  | _ => none

/-- An operator between two parts of a class. -/
inductive ClassOp where
  | both
  | minus
  | either

def ClassOp.apply : ClassOp → CharSet → CharSet → CharSet
  | .both, a, b => .inter a b
  | .minus, a, b => .inter a (.complement b)
  | .either, a, b => .inter (.union a b) (.complement (.inter a b))

/-- A part of a class between two operators: its members, how many items it has,
and how deeply the deepest of them is nested. -/
structure ClassPart where
  set : CharSet
  count : Nat
  depth : Nat

def ClassPart.start : ClassPart := ⟨.empty, 0, 0⟩

def ClassPart.add (part : ClassPart) (set : CharSet) (depth : Nat) : ClassPart :=
  ⟨.union part.set set, part.count + 1, max part.depth depth⟩

/-- Items that stand side by side are one level deeper than a single one. -/
def ClassPart.height (part : ClassPart) : Nat :=
  if part.count ≤ 1 then part.depth else part.depth + 1

/-- What stands before an operator: its set and depth, and the operator. -/
structure ClassLeft where
  set : CharSet
  depth : Nat
  op : ClassOp

/-- The part read last, joined to the parts before it. Case is ignored in every
part on its own. -/
def ClassPart.join (ignoreCase : Bool) (left : Option ClassLeft) (part : ClassPart) :
    CharSet × Nat :=
  let set := foldedIf ignoreCase part.set
  match left with
  | none => (set, part.height)
  | some left => (left.op.apply left.set set, max left.depth part.height + 1)

/-- Everything read so far, as the left side of an operator. -/
def ClassPart.before (ignoreCase : Bool) (left : Option ClassLeft) (part : ClassPart)
    (op : ClassOp) : ClassLeft :=
  let (set, depth) := part.join ignoreCase left
  ⟨set, depth, op⟩

/-- One character or escape of a class. -/
def classItem? : List Char → Option (Escape × List Char)
  | [] => none
  | '\\' :: cs => escape? cs
  | c :: cs => some (.char c, cs)

/-- A character, a range or a set of a class. -/
def classRange? (cs : List Char) : Option (CharSet × List Char) := do
  let (first, cs) ← classItem? cs
  let alone : Option (CharSet × List Char) := match first with
    | .char c => some (.single c, cs)
    | .set s => some (s, cs)
    | .place _ => none
  match cs with
  | [] => none
  | ['-'] => none
  | '-' :: next :: _ =>
    if next = ']' ∨ next = '-' then alone
    else do
      let (last, rest) ← classItem? (cs.drop 1)
      match first, last with
      | .char a, .char b => if a ≤ b then some (.range a.toNat b.toNat, rest) else none
      | _, _ => none
  | _ => alone

mutual
/-- A class, read behind its `[`: its set, its depth and the rest. -/
def class? (ignoreCase : Bool) : Nat → List Char → Option (CharSet × Nat × List Char)
  | 0, _ => none
  | fuel + 1, cs => do
    let (negated, cs) := match cs with
      | '^' :: rest => (true, rest)
      | rest => (false, rest)
    let dashes := cs.takeWhile (· = '-')
    let cs := cs.drop dashes.length
    let (opening, cs) := match dashes, cs with
      | [], ']' :: rest => ([']'], rest)
      | dashes, cs => (dashes, cs)
    let part := opening.foldl (fun part c => part.add (.single c) 0) ClassPart.start
    let (set, depth, rest) ← classBody? ignoreCase fuel none part cs
    some (if negated then .complement set else set, depth + 1, rest)

/-- The inside of a class up to its `]`. -/
def classBody? (ignoreCase : Bool) :
    Nat → Option ClassLeft → ClassPart → List Char → Option (CharSet × Nat × List Char)
  | 0, _, _, _ => none
  | fuel + 1, left, part, cs =>
    match cs with
    | [] => none
    | ']' :: rest =>
      let (set, depth) := part.join ignoreCase left
      some (set, depth, rest)
    | '[' :: rest =>
      match named? ignoreCase rest with
      | some (inner, rest) => classBody? ignoreCase fuel left (part.add inner 0) rest
      | none => do
        let (inner, depth, rest) ← class? ignoreCase fuel rest
        classBody? ignoreCase fuel left (part.add inner depth) rest
    | '&' :: '&' :: rest =>
      classBody? ignoreCase fuel (some (part.before ignoreCase left .both)) .start rest
    | '-' :: '-' :: rest =>
      classBody? ignoreCase fuel (some (part.before ignoreCase left .minus)) .start rest
    | '~' :: '~' :: rest =>
      classBody? ignoreCase fuel (some (part.before ignoreCase left .either)) .start rest
    | cs => do
      let (inner, rest) ← classRange? cs
      classBody? ignoreCase fuel left (part.add inner 0) rest
end

/-! ## Repetition -/

/-- A decimal number with blanks around it. -/
def count? (cs : List Char) : Option (Nat × List Char) :=
  let cs := cs.dropWhile isBlank
  let digits := cs.takeWhile Char.isDigit
  let n : Nat := digits.foldl (fun n c => 10 * n + (c.toNat - '0'.toNat)) 0
  if digits = [] ∨ UInt32.size ≤ n then none
  else some (n, (cs.drop digits.length).dropWhile isBlank)
where
  isBlank (c : Char) : Bool := CharSet.blank.mem c.toNat

/-- The bounds of a counted repetition, read behind its opening brace. -/
def bounds? (cs : List Char) : Option ((Nat × Option Nat) × List Char) := do
  let (least, cs) ← count? cs
  match cs with
  | '\x7d' :: rest => some ((least, some least), rest)
  | ',' :: '\x7d' :: rest => some ((least, none), rest)
  | ',' :: cs => do
    let (most, cs) ← count? cs
    match cs with
    | '\x7d' :: rest => if least ≤ most then some ((least, some most), rest) else none
    | _ => none
  | _ => none

/-- A repetition mark, if there is one: its bounds. Whether it is lazy makes no
difference to where a match exists. -/
def repetition? : List Char → Option (Option ((Nat × Option Nat) × List Char))
  | '*' :: cs => some (some ((0, none), lazy cs))
  | '+' :: cs => some (some ((1, none), lazy cs))
  | '?' :: cs => some (some ((0, some 1), lazy cs))
  | '\x7b' :: cs => some ((bounds? cs).map fun (b, cs) => (b, lazy cs))
  | _ => none
where
  lazy : List Char → List Char
    | '?' :: cs => cs
    | cs => cs

/-! ## Groups and sequences -/

structure Flags where
  ignoreCase : Bool
  multiLine : Bool
  dotAll : Bool

def Flags.none : Flags := ⟨false, false, false⟩

/-- Flags up to `)` or `:`; the rest still begins with that character. No flag
is given twice, and a `-` turns off at least one. -/
def flags? (on any : Bool) (seen : List Char) (flags : Flags) :
    List Char → Option (Flags × List Char)
  | [] => none
  | c :: cs =>
    if c = ')' ∨ c = ':' then if any then some (flags, c :: cs) else none
    else if c ∈ seen then none
    else
      let seen := c :: seen
      match c with
      | '-' => flags? false false seen flags cs
      | 'i' => flags? on true seen { flags with ignoreCase := on } cs
      | 'm' => flags? on true seen { flags with multiLine := on } cs
      | 's' => flags? on true seen { flags with dotAll := on } cs
      | 'u' => if on then flags? on true seen flags cs else none
      | 'U' => flags? on true seen flags cs
      | _ => none

/-- Letters and `_` begin the name of a group. -/
def isNameStart (c : Char) : Bool :=
  c = '_' || CharSet.word.mem c.toNat && !CharSet.digit.mem c.toNat

def isNameChar (c : Char) : Bool :=
  CharSet.word.mem c.toNat || c = '.' || c = '[' || c = ']'

/-- The name of a group and the rest behind its `>`. -/
def groupName? (cs : List Char) : Option (String × List Char) :=
  let name := cs.takeWhile isNameChar
  match name, cs.drop name.length with
  | c :: _, '>' :: rest => if isNameStart c then some (String.ofList name, rest) else none
  | _, _ => none

/-- What an opening parenthesis begins: a group that is counted, with the name it
may have; a group that is not; or a change of flags for the rest of the group
under way. -/
inductive GroupHead where
  | counted (name : Option String)
  | plain (inside : Flags)
  | flags (changed : Flags)

/-- The head of a group, read behind its `(`. -/
def groupHead? (flags : Flags) : List Char → Option (GroupHead × List Char)
  | '?' :: ':' :: cs => some (.plain flags, cs)
  | '?' :: 'P' :: '<' :: cs => named cs
  | '?' :: '<' :: cs => named cs
  | '?' :: cs => do
    match ← flags? true false [] flags cs with
    | (changed, ')' :: rest) => some (.flags changed, rest)
    | (changed, _ :: rest) => some (.plain changed, rest)
    | _ => none
  | cs => some (.counted none, cs)
where
  named (cs : List Char) : Option (GroupHead × List Char) :=
    (groupName? cs).map fun (name, rest) => (.counted (some name), rest)

/-- A single character under the flags. -/
def Flags.char (flags : Flags) (c : Char) : Expr :=
  .char (foldedIf flags.ignoreCase (.single c))

/-- A part of a pattern that has been read: its expression, how deeply groups,
repetitions, classes and the like are nested in it, and the names of its groups. -/
structure Item where
  expr : Expr
  depth : Nat
  names : List String

def Item.simple (e : Expr) : Item := ⟨e, 0, []⟩

/-- An item that takes no further reading, and the rest. -/
def item? (flags : Flags) (fuel : Nat) : List Char → Option (Item × List Char)
  | [] => none
  | '.' :: cs =>
    some (.simple (.char (.complement (if flags.dotAll then .empty else .single '\n'))), cs)
  | '^' :: cs => some (.simple (if flags.multiLine then .lineStart else .textStart), cs)
  | '$' :: cs => some (.simple (if flags.multiLine then .lineEnd else .textEnd), cs)
  | '[' :: cs =>
    (class? flags.ignoreCase fuel cs).map fun (set, depth, cs) => (⟨.char set, depth, []⟩, cs)
  | '\\' :: cs => (escape? cs).map fun
    | (.char c, cs) => (.simple (flags.char c), cs)
    | (.set s, cs) => (.simple (.char s), cs)
    | (.place e, cs) => (.simple e, cs)
  | c :: cs => some (.simple (flags.char c), cs)

/-- The group around what has been read. Only a counted group shows in the
expression. -/
def Item.inGroup (inner : Item) : GroupHead → Item
  | .counted name => ⟨.group inner.expr, inner.depth + 1, name.toList ++ inner.names⟩
  | _ => { inner with depth := inner.depth + 1 }

/-- The sequence of items under way: the items before the last, the last item,
and how many items and changes of flags there are. There is no last item at the
start and behind a change of flags. -/
structure Sequence where
  done : Item
  last : Option Item
  count : Nat

def Sequence.start : Sequence := ⟨.simple .empty, none, 0⟩

/-- All items as one, with the depth of the deepest. -/
def Sequence.joined (s : Sequence) : Item :=
  match s.last with
  | none => s.done
  | some last =>
    ⟨s.done.expr.andThen last.expr, max s.done.depth last.depth, s.done.names ++ last.names⟩

/-- Items that stand one after another are one level deeper than a single one. -/
def Sequence.whole (s : Sequence) : Item :=
  if s.count ≤ 1 then s.joined else { s.joined with depth := s.joined.depth + 1 }

def Sequence.push (s : Sequence) (item : Item) : Sequence := ⟨s.joined, some item, s.count + 1⟩

def Sequence.changeFlags (s : Sequence) : Sequence := ⟨s.joined, none, s.count + 1⟩

/-- The last item, repeated; there has to be one. -/
def Sequence.repeatLast? (s : Sequence) (least : Nat) (most : Option Nat) : Option Sequence :=
  s.last.map fun last =>
    ⟨s.done, some ⟨.repeated last.expr least most, last.depth + 1, last.names⟩, s.count⟩

/-- One more alternative behind the earlier ones; all of them are one level
deeper than a sequence on its own. -/
def Item.orElse (earlier : Option Item) (last : Item) : Item :=
  match earlier with
  | none => { last with depth := last.depth + 1 }
  | some e => ⟨.alt e.expr last.expr, max e.depth (last.depth + 1), e.names ++ last.names⟩

/-- Alternatives up to the end of the text or the `)` that closes the group
under way; the rest still begins with it. -/
def alternatives? : Nat → Flags → Option Item → Sequence → List Char → Option (Item × List Char)
  | 0, _, _, _, _ => none
  | fuel + 1, flags, earlier, items, cs =>
    let finished := if earlier.isSome then Item.orElse earlier items.whole else items.whole
    match cs with
    | [] => some (finished, [])
    | ')' :: rest => some (finished, ')' :: rest)
    | '|' :: rest => alternatives? fuel flags (some (Item.orElse earlier items.whole)) .start rest
    | '(' :: rest => do
      match ← groupHead? flags rest with
      | (.flags changed, rest) => alternatives? fuel changed earlier items.changeFlags rest
      | (head, rest) =>
        let inside := match head with
          | .plain inside => inside
          | _ => flags
        let (inner, close) ← alternatives? fuel inside none .start rest
        match close with
        | ')' :: rest => alternatives? fuel flags earlier (items.push (inner.inGroup head)) rest
        | _ => none
    | cs =>
      match repetition? cs with
      | some reading => do
        let ((least, most), rest) ← reading
        let items ← items.repeatLast? least most
        alternatives? fuel flags earlier items rest
      | none => do
        let (item, rest) ← item? flags fuel cs
        alternatives? fuel flags earlier (items.push item) rest

/-- How deeply the parts of a pattern may be nested. -/
def depthLimit : Nat := 250

/-- The expression that a written pattern stands for. -/
def Expr.read? (text : String) : Option Expr :=
  let cs := text.toList
  match alternatives? (2 * cs.length + 2) .none none .start cs with
  | some (item, []) =>
    if item.depth ≤ depthLimit ∧ item.names.Nodup ∧ item.expr.size ≤ sizeLimit then some item.expr
    else none
  | _ => none

end Pattern

end DocSchema

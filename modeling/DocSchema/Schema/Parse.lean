-- SUMMARY: Parsing documents against a schema: checks, defaults and transforms.
import DocSchema.Schema.Intersect
import DocSchema.Value.Compare

/-!
# Parsing

A schema is read as a `Parser`: a function from a value, or its absence, to the
value to store, or its absence. Each kind of node has a combinator that says how
its parser is made from the parsers of its parts, and `Node.parser` puts them
together along the tree. An intersection is parsed as its merged node.

Parsing stops at the first issue. Undeclared entries of an object are met before
declared ones, the former in the order of their names, the latter as declared.
-/

namespace DocSchema

/-- Checks and rewrites the value of a field; `none` is an absent field. -/
abbrev Parser := Option Value → Context → Location → Except Issue (Option Value)

/-- Checks and rewrites a value that is there. -/
abbrev ValueParser := Value → Context → Location → Except Issue Value

namespace Parser

/-! ## Values that must be there -/

/-- A field that cannot be absent. -/
def present (p : ValueParser) : Parser := fun value ctx location =>
  match value with
  | none => .error (.missing location)
  | some v => (p v ctx location).map some

/-- A place that has no absent form, such as an element of an array. -/
def element (p : Parser) : ValueParser := fun v ctx location => do
  match ← p (some v) ctx location with
  | some parsed => .ok parsed
  | none => .error (.mismatch location "a value" "absent after transform")

/-- Every value, and absence. -/
def any : Parser := fun value _ _ => .ok value

/-- Refuses every entry. -/
def refuseEntry : Parser := fun _ _ location => .error (.undeclared location)

end Parser

namespace ValueParser

/-! ## Expected kinds -/

/-- The entries of a plain object. -/
def expectObject (v : Value) (location : Location) : Except Issue (Entries Value) :=
  match v with
  | .object fields =>
    if v.kind = .object then .ok fields else .error (.mismatch location "object" v.kind.name)
  | _ => .error (.mismatch location "object" v.kind.name)

def expectArray (v : Value) (location : Location) : Except Issue (List Value) :=
  match v with
  | .array items => .ok items
  | _ => .error (.mismatch location "array" v.kind.name)

/-- Values of one kind, unchanged. -/
def ofKind (kind : Kind) : ValueParser := fun v _ location =>
  if v.kind = kind then .ok v else .error (.mismatch location kind.name v.kind.name)

/-! ## Leaves -/

def string (checks : List StringCheck) : ValueParser := fun v _ location =>
  match v with
  | .string text => do
    StringCheck.checkAll checks text location
    .ok v
  | _ => .error (.mismatch location "string" v.kind.name)

def number (checks : List NumberCheck) : ValueParser := fun v _ location =>
  match v with
  | .number n => do
    NumberCheck.checkAll checks n location
    .ok v
  | _ => .error (.mismatch location "number" v.kind.name)

def enum (values : List String) : ValueParser := fun v _ location =>
  let refusal := Issue.mismatch location ("one of [" ++ ", ".intercalate values ++ "]") v.describe
  match v with
  | .string text => if text ∈ values then .ok v else .error refusal
  | _ => .error refusal

def literal (expected : Value) : ValueParser := fun v _ location =>
  if expected.alike v then .ok v
  else .error (.mismatch location ("literal " ++ expected.json) v.describe)

def never : ValueParser := fun v _ location => .error (.mismatch location "nothing" v.describe)

/-! ## Containers -/

/-- Parses the elements of an array, counted from `i`. -/
def elements (p : Parser) (ctx : Context) (location : Location) :
    Nat → List Value → Except Issue (List Value)
  | _, [] => .ok []
  | i, v :: rest => do
    let parsed ← p.element v ctx (location.item i)
    .ok (parsed :: (← elements p ctx location (i + 1) rest))

def array (p : Parser) : ValueParser := fun v ctx location => do
  .ok (.array (← elements p ctx location 0 (← expectArray v location)))

/-- Parses elements position by position, counted from `i`. -/
def positions (ctx : Context) (location : Location) :
    Nat → List Parser → List Value → Except Issue (List Value)
  | i, p :: ps, v :: rest => do
    let parsed ← p.element v ctx (location.item i)
    .ok (parsed :: (← positions ctx location (i + 1) ps rest))
  | _, _, _ => .ok []

def tuple (ps : List Parser) : ValueParser := fun v ctx location => do
  let items ← expectArray v location
  if items.length = ps.length then .ok (.array (← positions ctx location 0 ps items))
  else .error (.mismatch location ("exactly " ++ toString ps.length ++ " items")
    (toString items.length ++ " items"))

/-- Parses entries one by one; an entry whose value vanishes is left out. -/
def entries (p : Parser) (ctx : Context) (location : Location) :
    Entries Value → Except Issue (Entries Value)
  | [] => .ok []
  | (name, v) :: rest => do
    let parsed ← p (some v) ctx (location.entry name)
    let others ← entries p ctx location rest
    .ok (match parsed with
      | some v => (name, v) :: others
      | none => others)

def record (p : Parser) : ValueParser := fun v ctx location => do
  .ok (.object (← entries p ctx location (← expectObject v location)))

/-- Parses the declared fields in order; a field that stays absent is left out. -/
def declared (input : Entries Value) (ctx : Context) (location : Location) :
    List (String × Parser) → Except Issue (List (String × Value))
  | [] => .ok []
  | (name, p) :: rest => do
    let parsed ← p (Entries.get? input name) ctx (location.entry name)
    let others ← declared input ctx location rest
    .ok (match parsed with
      | some v => (name, v) :: others
      | none => others)

/-- The undeclared entries by the catchall, then the declared fields. -/
def object (fields : List (String × Parser)) (catchall : Option Parser) : ValueParser :=
  fun v ctx location => do
    let input ← expectObject v location
    let undeclared := input.filter fun e => !Entries.contains fields e.1
    let extra ← entries (catchall.getD .refuseEntry) ctx location undeclared
    let own ← declared input ctx location fields
    .ok (.object (Entries.ofList (extra ++ own)))

end ValueParser

namespace Parser

/-! ## Wrappers -/

def optional (p : Parser) : Parser := fun value ctx location =>
  match value with
  | none => .ok none
  | some v => p (some v) ctx location

/-- An absent value is replaced by what the default gives. -/
def withDefault (p : Parser) (default : Default) : Parser := fun value ctx location =>
  match value with
  | some v => p (some v) ctx location
  | none => p (default ctx) ctx location

def nullable (p : Parser) : Parser := fun value ctx location =>
  match value with
  | some .null => .ok (some .null)
  | other => p other ctx location

/-- Checks a present value against the facet. -/
def checkFacet (facet : Option Facet) (value : Option Value) (location : Location) :
    Except Issue Unit :=
  match facet, value with
  | some f, some v => f.check v location
  | _, _ => .ok ()

/-- The facet is checked on the parsed value, then the transform runs. -/
def transform (p : Parser) (facet : Option Facet) (apply : Transform) : Parser :=
  fun value ctx location => do
    let parsed ← p value ctx location
    checkFacet facet parsed location
    match apply parsed ctx with
    | .ok result => .ok result
    | .error reason => .error (.mismatch location reason "rejected by transform")

/-! ## Unions -/

/-- The result of the first parser that accepts. -/
def firstAccepted (ps : List Parser) (value : Option Value) (ctx : Context) (location : Location) :
    Option (Option Value) :=
  ps.findSome? fun p => (p value ctx location).toOption

/-- The first option that accepts; a union of one option reports that option's issue. -/
def union (ps : List Parser) : Parser := fun value ctx location =>
  match ps with
  | [p] => p value ctx location
  | ps =>
    match firstAccepted ps value ctx location with
    | some parsed => .ok parsed
    | none =>
      .error (.mismatch location
        ("a match for any of " ++ toString ps.length ++ " alternatives")
        (match value with
          | none => "missing"
          | some v => v.describe))

/-- Options with their literals; the first one alike the tag is chosen. -/
def discriminated (key : String) (options : List (Option Value × Parser)) : Parser :=
  fun value ctx location =>
    match value with
    | none => .error (.missing location)
    | some v => do
      let input ← ValueParser.expectObject v location
      match Entries.get? input key with
      | none => .error (.missing (location.entry key))
      | some tag =>
        match options.find? fun o => o.1.any fun literal => literal.alike tag with
        | some chosen => chosen.2 (some v) ctx location
        | none => .error (.mismatch (location.entry key) "a known discriminator value" tag.describe)

end Parser

namespace Node

/-- The parser that a schema stands for. -/
def parser (n : Node) : Parser :=
  match n with
  | .object fields catchall =>
    .present (.object (fields.map fun f => (f.1, f.2.parser))
      (match catchall with
        | none => none
        | some rest => some rest.parser))
  | .array item => .present (.array item.parser)
  | .tuple items => .present (.tuple (items.map fun item => item.parser))
  | .union options => .union (options.map fun option => option.parser)
  | .discriminated key options =>
    .discriminated key (options.map fun option => (option.discriminator? key, option.parser))
  | .intersection left right => fun value ctx location =>
    match _h : left.intersect right location with
    | .ok merged => merged.parser value ctx location
    | .error e => .error (.mismatch location "a mergeable intersection" e.message)
  | .record value => .present (.record value.parser)
  | .optional inner => .optional inner.parser
  | .nullable inner => .nullable inner.parser
  | .withDefault inner default => .withDefault inner.parser default
  | .transform inner facet apply => .transform inner.parser facet apply
  | .enum values => .present (.enum values)
  | .literal v => .present (.literal v)
  | .string checks _ => .present (.string checks)
  | .number checks => .present (.number checks)
  | .boolean => .present (.ofKind .bool)
  | .date => .present (.ofKind .date)
  | .null => .present (.ofKind .null)
  | .any => .any
  | .never => .present .never
termination_by n.height
decreasing_by
  all_goals simp only [height, catchallHeight]
  all_goals first
    | omega
    | (have bound := height_le_fieldsHeight ‹_ ∈ _›; omega)
    | (have bound := height_le_listHeight ‹_ ∈ _›; omega)
    | (have bound := height_le_of_intersect ‹_›; omega)

theorem parser_object (fields : List (String × Node)) (catchall : Option Node) :
    (Node.object fields catchall).parser =
      .present (.object (fields.map fun f => (f.1, f.2.parser)) (catchall.map parser)) := by
  cases catchall <;> simp [parser]

theorem parser_intersection_of_ok {left right merged : Node} {location : Location}
    (h : left.intersect right location = .ok merged) (value : Option Value) (ctx : Context) :
    (Node.intersection left right).parser value ctx location =
      merged.parser value ctx location := by
  rw [parser]
  dsimp only
  split
  · next h' => rw [h] at h'; cases h'; rfl
  · next h' => rw [h] at h'; cases h'

theorem parser_intersection_of_error {left right : Node} {e : SchemaError} {location : Location}
    (h : left.intersect right location = .error e) (value : Option Value) (ctx : Context) :
    (Node.intersection left right).parser value ctx location =
      .error (.mismatch location "a mergeable intersection" e.message) := by
  rw [parser]
  dsimp only
  split
  · next h' => rw [h] at h'; cases h'
  · next h' => rw [h] at h'; cases h'; rfl

/-- Parses a document as a whole. -/
def parseDocument (schema : Node) (document : Value) (ctx : Context) : Except Issue Value := do
  match ← schema.parser (some document) ctx .root with
  | some parsed => .ok parsed
  | none => .error (.missing .root)

end Node

end DocSchema

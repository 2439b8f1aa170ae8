-- SUMMARY: The rules of a validator: the keywords that a schema node compiles to.
import DocSchema.Schema.Intersect

/-!
# Validator rules

`Node.rules` turns a schema node into the keywords that the storage engine
enforces:

- objects: `properties`, `required`, `additionalProperties`; records the last
- arrays and tuples: `items`, with `minItems` and `maxItems` for tuples
- unions: `anyOf`; discriminated unions: `oneOf`; intersections: the merged node
- enumerations and literals: `enum`
- all others: `bsonType` and the keywords of their checks

Optional fields, defaults and transforms compile to what is inside them, and
`null` joins whatever a nullable node accepts. Several checks of one kind fold
into the strictest keyword. A construct without a faithful keyword is an error,
never dropped.
-/

namespace DocSchema

/-- Keywords of a validator and their values. -/
abbrev Rules := Entries Value

/-- The rules of a node at a place, which only errors mention. -/
abbrev RulesAt := Location → Except SchemaError Rules

namespace Rules

def ofKind (name : String) : Rules := [("bsonType", .string name)]

/-! ## Strings -/

/-- Raises a lower bound, unless it is at least as high already. -/
def raise (rules : Rules) (keyword : String) (n : Nat) : Rules :=
  match (Entries.get? rules keyword).bind Value.toNat? with
  | some current => if current < n then Entries.insert rules keyword (.int n) else rules
  | none => Entries.insert rules keyword (.int n)

/-- Lowers an upper bound, unless it is at least as low already. -/
def lower (rules : Rules) (keyword : String) (n : Nat) : Rules :=
  match (Entries.get? rules keyword).bind Value.toNat? with
  | some current => if n < current then Entries.insert rules keyword (.int n) else rules
  | none => Entries.insert rules keyword (.int n)

/-- There is room for one pattern only. -/
def setPattern (rules : Rules) (source : String) (location : Location) :
    Except SchemaError Rules :=
  match (Entries.get? rules "pattern").bind Value.string? with
  | some current =>
    if current = source then .ok rules else .error (.unsupported location .secondPattern)
  | none => .ok (Entries.insert rules "pattern" (.string source))

def addStringCheck (location : Location) (rules : Rules) (check : StringCheck) :
    Except SchemaError Rules :=
  match check with
  | .minLength n => .ok (rules.raise "minLength" n)
  | .maxLength n => .ok (rules.lower "maxLength" n)
  | .length n => .ok ((rules.raise "minLength" n).lower "maxLength" n)
  | .pattern p => rules.setPattern p.source location
  | .email => rules.setPattern Pattern.emailSource location
  | .uuid => rules.setPattern Pattern.uuidSource location
  | .url | .startsWith _ | .endsWith _ | .includes _ =>
    .error (.unsupported location (.stringCheck check.name))

def addStringChecks (rules : Rules) (checks : List StringCheck) (location : Location) :
    Except SchemaError Rules :=
  checks.foldlM (addStringCheck location) rules

/-! ## Numbers -/

/-- A list of kinds with `number` replaced by the two integer kinds. -/
def narrowKinds : List Value → List Value → List Value
  | done, [] => done
  | done, kind :: rest =>
    if kind == .string "number" then narrowKinds (done ++ [.string "int", .string "long"]) rest
    else if done.contains kind then narrowKinds done rest
    else narrowKinds (done ++ [kind]) rest

/-- Narrows a numeric kind to integers; other kinds cannot be narrowed. -/
def narrowToInteger (rules : Rules) (location : Location) : Except SchemaError Rules :=
  match Entries.get? rules "bsonType" with
  | some (.string "number") =>
    .ok (Entries.insert rules "bsonType" (.array [.string "int", .string "long"]))
  | some (.array kinds) =>
    if kinds.contains (.string "number") then
      .ok (Entries.insert rules "bsonType" (.array (narrowKinds [] kinds)))
    else if kinds.contains (.string "int") then .ok rules
    else .error (.unsupported location .integerOfOther)
  | _ => .error (.unsupported location .integerOfOther)

/-- A bound on numbers as a pair of keywords: the limit, and the flag that
excludes the limit itself. -/
structure Bound where
  keyword : String
  exclusiveKeyword : String
  /-- Whether the first limit is stricter than the second. -/
  stricter : Double → Double → Bool

def Bound.lower : Bound := ⟨"minimum", "exclusiveMinimum", fun new old => old.lt new⟩

def Bound.upper : Bound := ⟨"maximum", "exclusiveMaximum", fun new old => new.lt old⟩

def isExclusive (rules : Rules) (bound : Bound) : Bool :=
  (Entries.get? rules bound.exclusiveKeyword).any (· == .bool true)

/-- Keeps the stricter one of two bounds; of two with the same limit the
exclusive one is stricter. -/
def setBound (rules : Rules) (bound : Bound) (limit : Double) (exclusive : Bool)
    (location : Location) : Except SchemaError Rules :=
  match Number.ofBound? limit with
  | none => .error (.invalid location (.boundNotFinite bound.keyword))
  | some shown =>
    let replaces := match (Entries.get? rules bound.keyword).bind Value.toDouble? with
      | none => true
      | some current =>
        bound.stricter limit current ||
          (limit.beq current && exclusive && !rules.isExclusive bound)
    if replaces then
      let limited := Entries.insert rules bound.keyword (.number shown)
      .ok (if exclusive then Entries.insert limited bound.exclusiveKeyword (.bool true)
        else Entries.erase limited bound.exclusiveKeyword)
    else .ok rules

/-- There is room for one divisor only. -/
def setDivisor (rules : Rules) (divisor : Double) (location : Location) :
    Except SchemaError Rules :=
  if divisor.le .zero then .error (.invalid location .divisorNotPositive)
  else match Number.ofBound? divisor with
    | none => .error (.invalid location (.boundNotFinite "multipleOf"))
    | some shown =>
      match Entries.get? rules "multipleOf" with
      | some current =>
        if current == .number shown then .ok (Entries.insert rules "multipleOf" (.number shown))
        else .error (.unsupported location .secondDivisor)
      | none => .ok (Entries.insert rules "multipleOf" (.number shown))

def addNumberCheck (location : Location) (rules : Rules) (check : NumberCheck) :
    Except SchemaError Rules :=
  match check with
  | .integer => rules.narrowToInteger location
  | .min limit => rules.setBound .lower limit false location
  | .exclusiveMin limit => rules.setBound .lower limit true location
  | .max limit => rules.setBound .upper limit false location
  | .exclusiveMax limit => rules.setBound .upper limit true location
  | .multipleOf divisor => rules.setDivisor divisor location

def addNumberChecks (rules : Rules) (checks : List NumberCheck) (location : Location) :
    Except SchemaError Rules :=
  checks.foldlM (addNumberCheck location) rules

def addFacet (rules : Rules) (facet : Option Facet) (location : Location) :
    Except SchemaError Rules :=
  match facet with
  | some (.string checks) => rules.addStringChecks checks location
  | some (.number checks) => rules.addNumberChecks checks location
  | none => .ok rules

/-! ## Null -/

/-- Appends a value to a list that lacks it. -/
def including (values : List Value) (v : Value) : List Value :=
  if values.contains v then values else values ++ [v]

/-- Adds `null` to the values of an enumeration. -/
def admitNullInEnum (rules : Rules) : Rules :=
  match Entries.get? rules "enum" with
  | some (.array values) => Entries.insert rules "enum" (.array (including values .null))
  | _ => rules

/-- Adds `null` to whatever the rules accept. -/
def admitNull (rules : Rules) : Rules :=
  if rules.isEmpty then rules
  else
    let widened := rules.admitNullInEnum
    match Entries.get? widened "bsonType" with
    | some (.string kind) =>
      Entries.insert widened "bsonType" (.array [.string kind, .string "null"])
    | some (.array kinds) =>
      Entries.insert widened "bsonType" (.array (including kinds (.string "null")))
    | _ =>
      if widened.length = 1 ∧ Entries.contains widened "enum" then widened
      else [("anyOf", .array [.object (ofKind "null"), .object widened])]

end Rules

namespace RulesAt

/-! ## Containers -/

/-- The rules of several nodes at one place. -/
def all (parts : List RulesAt) (location : Location) : Except SchemaError (List Value) :=
  match parts with
  | [] => .ok []
  | part :: rest => do .ok (.object (← part location) :: (← all rest location))

/-- The rules of several nodes at the positions of a tuple, counted from `i`. -/
def positions (parts : List RulesAt) (i : Nat) (location : Location) :
    Except SchemaError (List Value) :=
  match parts with
  | [] => .ok []
  | part :: rest => do
    .ok (.object (← part (location.item i)) :: (← positions rest (i + 1) location))

def array (item : RulesAt) : RulesAt := fun location => do
  .ok (Entries.insert (Rules.ofKind "array") "items" (.object (← item location.items)))

def tuple (parts : List RulesAt) : RulesAt := fun location =>
  if parts.isEmpty then .error (.unsupported location .emptyTuple)
  else do
    let items ← positions parts 0 location
    .ok (Entries.ofList [("bsonType", .string "array"), ("items", .array items),
      ("minItems", .int parts.length), ("maxItems", .int parts.length)])

def union (parts : List RulesAt) : RulesAt := fun location =>
  if parts.isEmpty then .error (.invalid location .unionWithoutOptions)
  else do .ok [("anyOf", .array (← all parts location))]

def record (value : RulesAt) : RulesAt := fun location => do
  .ok (Entries.insert (Rules.ofKind "object") "additionalProperties"
    (.object (← value location.others)))

/-- A declared field as the rules of its object see it. -/
structure FieldRules where
  name : String
  required : Bool
  rules : RulesAt

/-- The rules of the declared fields; a name declared again replaces the earlier one. -/
def properties : List FieldRules → Entries Value → Location → Except SchemaError (Entries Value)
  | [], done, _ => .ok done
  | field :: rest, done, location => do
    let compiled ← field.rules (location.entry field.name)
    properties rest (Entries.insert done field.name (.object compiled)) location

/-- The names that a document must have, if there are any. -/
def requiredNames (fields : List FieldRules) : List Value :=
  (fields.filter (·.required)).map fun field => .string field.name

def object (fields : List FieldRules) (catchall : Option RulesAt) : RulesAt := fun location => do
  let compiled ← properties fields [] location
  let others ← match catchall with
    | some rules => (rules location.others).map .object
    | none => .ok (.bool false)
  let names := requiredNames fields
  .ok (Entries.ofList ([("bsonType", .string "object"), ("properties", .object compiled)] ++
    (if names.isEmpty then [] else [("required", .array names)]) ++
    [("additionalProperties", others)]))

/-! ## Discriminated unions -/

/-- An option as the rules of its union see it. -/
structure OptionRules where
  kindName : String
  isObject : Bool
  literal : Option Value
  rules : RulesAt

/-- The rules of the options, whose literals must be there and all different. -/
def discriminatedOptions (key : String) (location : Location) :
    List OptionRules → Nat → List Value → Except SchemaError (List Value)
  | [], _, _ => .ok []
  | option :: rest, i, seen => do
    if !option.isObject then
      .error (.invalid (location.option i) (.optionNotObject option.kindName))
    else match option.literal with
      | none => .error (.invalid (location.option i) (.discriminatorNotLiteral key))
      | some literal =>
        if seen.contains literal then
          .error (.invalid (location.option i) (.repeatedDiscriminator literal.json))
        else do
          let compiled ← option.rules location
          .ok (.object compiled ::
            (← discriminatedOptions key location rest (i + 1) (literal :: seen)))

def discriminated (key : String) (options : List OptionRules) : RulesAt := fun location =>
  if options.isEmpty then .error (.invalid location .discriminatedWithoutOptions)
  else do .ok [("oneOf", .array (← discriminatedOptions key location options 0 []))]

/-! ## Values -/

def enum (values : List String) : RulesAt := fun location =>
  if values.isEmpty then .error (.invalid location .enumWithoutValues)
  else .ok [("enum", .array (values.map .string))]

def literal (v : Value) : RulesAt := fun location =>
  if v.isScalar then .ok [("enum", .array [v])]
  else .error (.unsupported location .literalOfContainer)

def string (checks : List StringCheck) : RulesAt := fun location =>
  Rules.addStringChecks (Rules.ofKind "string") checks location

/-- Integers by their two kinds, all other numbers by the common name. -/
def numberKind (checks : List NumberCheck) : Rules :=
  if checks.contains .integer then [("bsonType", .array [.string "int", .string "long"])]
  else Rules.ofKind "number"

def number (checks : List NumberCheck) : RulesAt := fun location =>
  Rules.addNumberChecks (numberKind checks) checks location

end RulesAt

namespace Node

/-- The rules that a schema node compiles to. -/
def rules (n : Node) : RulesAt :=
  match n with
  | .object fields catchall =>
    .object (fields.map fun f => ⟨f.1, !f.2.acceptsAbsent, f.2.rules⟩)
      (match catchall with
        | none => none
        | some rest => some rest.rules)
  | .array item => .array item.rules
  | .tuple items => .tuple (items.map fun item => item.rules)
  | .union options => .union (options.map fun option => option.rules)
  | .discriminated key options =>
    .discriminated key (options.map fun option =>
      ⟨option.kindName, option.isObject, option.discriminator? key, option.rules⟩)
  | .intersection left right => fun location =>
    match _h : left.intersect right location with
    | .ok merged => merged.rules location
    | .error e => .error e
  | .record value => .record value.rules
  | .optional inner => inner.rules
  | .withDefault inner _ => inner.rules
  | .nullable inner => fun location => do .ok (← inner.rules location).admitNull
  | .transform inner facet _ => fun location => do
    (← inner.rules location).addFacet facet location
  | .enum values => .enum values
  | .literal v => .literal v
  | .string checks _ => .string checks
  | .number checks => .number checks
  | .boolean => fun _ => .ok (Rules.ofKind "bool")
  | .date => fun _ => .ok (Rules.ofKind "date")
  | .null => fun _ => .ok (Rules.ofKind "null")
  | .any => fun _ => .ok []
  | .never => fun location => .error (.unsupported location .never)
termination_by n.height
decreasing_by
  all_goals simp only [height, catchallHeight]
  all_goals first
    | omega
    | (have bound := height_le_fieldsHeight ‹_ ∈ _›; omega)
    | (have bound := height_le_listHeight ‹_ ∈ _›; omega)
    | (have bound := height_le_of_intersect ‹_›; omega)

theorem rules_object (fields : List (String × Node)) (catchall : Option Node) :
    (Node.object fields catchall).rules =
      .object (fields.map fun f => ⟨f.1, !f.2.acceptsAbsent, f.2.rules⟩) (catchall.map rules) := by
  cases catchall <;> simp [rules]

theorem rules_intersection_of_ok {left right merged : Node} {location : Location}
    (h : left.intersect right location = .ok merged) :
    (Node.intersection left right).rules location = merged.rules location := by
  rw [rules]
  dsimp only
  split
  · next h' => rw [h] at h'; cases h'; rfl
  · next h' => rw [h] at h'; cases h'

theorem rules_intersection_of_error {left right : Node} {e : SchemaError} {location : Location}
    (h : left.intersect right location = .error e) :
    (Node.intersection left right).rules location = .error e := by
  rw [rules]
  dsimp only
  split
  · next h' => rw [h] at h'; cases h'
  · next h' => rw [h] at h'; cases h'; rfl

end Node

end DocSchema

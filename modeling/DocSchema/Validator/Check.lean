-- SUMMARY: Evaluating the body of a validator on a document.
import DocSchema.Issue
import DocSchema.Json.Printer
import DocSchema.Schema.Check
import DocSchema.Value.Compare

/-!
# Evaluating validators

`Validator.check` interprets a validator body directly, whatever it came from:
the kind first, then `enum`, `anyOf` and `oneOf`, then the keywords of the
value's own type. Keywords with a value of the wrong type mean nothing. Patterns
are decided by a function from the pattern's text and the string, so that the
evaluation does not depend on how patterns are stored. `check_object` is the
equation to reason with.
-/

namespace DocSchema

namespace Validator

/-- Whether the pattern of a text matches a string. -/
abbrev Matching := String → String → Bool

/-! ## Kinds and values -/

/-- Whether a value is of the kind, or of one of the kinds, that a keyword names. -/
def kindMatches (expected v : Value) : Bool :=
  match expected with
  | .string name => v.isOfKind name
  | .array names => (names.filterMap Value.string?).any v.isOfKind
  | _ => true

def kindNames (expected : Value) : String :=
  match expected with
  | .array names => "|".intercalate (names.filterMap Value.string?)
  | other => other.string?.getD ""

def checkKind (rules : Entries Value) (v : Value) (location : Location) : Except Issue Unit :=
  match Entries.get? rules "bsonType" with
  | some expected =>
    if kindMatches expected v then .ok ()
    else .error (.mismatch location (kindNames expected) v.kind.name)
  | none => .ok ()

def checkEnum (rules : Entries Value) (v : Value) (location : Location) : Except Issue Unit :=
  match Entries.get? rules "enum" with
  | some (.array allowed) =>
    if allowed.any fun a => a.alike v then .ok ()
    else .error (.mismatch location ("one of " ++ (Value.array allowed).json) v.describe)
  | _ => .ok ()

/-! ## Strings and numbers -/

def checkMinLength (rules : Entries Value) (text : String) (location : Location) :
    Except Issue Unit :=
  match (Entries.get? rules "minLength").bind Value.toNat? with
  | some least =>
    if text.length < least then
      .error (.mismatch location ("length >= " ++ toString least)
        ("length " ++ toString text.length))
    else .ok ()
  | none => .ok ()

def checkMaxLength (rules : Entries Value) (text : String) (location : Location) :
    Except Issue Unit :=
  match (Entries.get? rules "maxLength").bind Value.toNat? with
  | some most =>
    if most < text.length then
      .error (.mismatch location ("length <= " ++ toString most)
        ("length " ++ toString text.length))
    else .ok ()
  | none => .ok ()

def checkPattern (matching : Matching) (rules : Entries Value) (text : String)
    (location : Location) : Except Issue Unit :=
  match (Entries.get? rules "pattern").bind Value.string? with
  | some source =>
    if matching source text then .ok ()
    else .error (.mismatch location ("match for /" ++ source ++ "/") ("\"" ++ text ++ "\""))
  | none => .ok ()

def checkString (matching : Matching) (rules : Entries Value) (text : String)
    (location : Location) : Except Issue Unit := do
  checkMinLength rules text location
  checkMaxLength rules text location
  checkPattern matching rules text location

/-- Whether a flag stands in the rules and is set. -/
def isSet (rules : Entries Value) (keyword : String) : Bool :=
  (Entries.get? rules keyword).any (· == .bool true)

def checkMinimum (rules : Entries Value) (n : Double) (location : Location) : Except Issue Unit :=
  match (Entries.get? rules "minimum").bind Value.toDouble? with
  | some limit =>
    let exclusive := isSet rules "exclusiveMinimum"
    if n.lt limit || (exclusive && n.beq limit) then
      .error (.mismatch location
        ((if exclusive then "> " else ">= ") ++ NumberLayout.plain.text limit)
        (NumberLayout.plain.text n))
    else .ok ()
  | none => .ok ()

def checkMaximum (rules : Entries Value) (n : Double) (location : Location) : Except Issue Unit :=
  match (Entries.get? rules "maximum").bind Value.toDouble? with
  | some limit =>
    let exclusive := isSet rules "exclusiveMaximum"
    if limit.lt n || (exclusive && n.beq limit) then
      .error (.mismatch location
        ((if exclusive then "< " else "<= ") ++ NumberLayout.plain.text limit)
        (NumberLayout.plain.text n))
    else .ok ()
  | none => .ok ()

def checkDivisor (rules : Entries Value) (n : Double) (location : Location) : Except Issue Unit :=
  match (Entries.get? rules "multipleOf").bind Value.toDouble? with
  | some divisor =>
    if n.isMultipleOf divisor then .ok ()
    else .error (.mismatch location ("multiple of " ++ NumberLayout.plain.text divisor)
      (NumberLayout.plain.text n))
  | none => .ok ()

def checkNumber (rules : Entries Value) (n : Double) (location : Location) : Except Issue Unit := do
  checkMinimum rules n location
  checkMaximum rules n location
  checkDivisor rules n location

/-! ## Arrays and objects -/

def checkMinItems (rules : Entries Value) (count : Nat) (location : Location) :
    Except Issue Unit :=
  match (Entries.get? rules "minItems").bind Value.toNat? with
  | some least =>
    if count < least then
      .error (.mismatch location ("at least " ++ toString least ++ " items")
        (toString count ++ " items"))
    else .ok ()
  | none => .ok ()

def checkMaxItems (rules : Entries Value) (count : Nat) (location : Location) :
    Except Issue Unit :=
  match (Entries.get? rules "maxItems").bind Value.toNat? with
  | some most =>
    if most < count then
      .error (.mismatch location ("at most " ++ toString most ++ " items")
        (toString count ++ " items"))
    else .ok ()
  | none => .ok ()

/-- Checks elements by the checks at their positions, counted from `i`; elements
beyond the checks pass. -/
def checkPositions (location : Location) :
    Nat → List (Value → Location → Except Issue Unit) → List Value → Except Issue Unit
  | i, check :: checks, v :: rest => do
    check v (location.item i)
    checkPositions location (i + 1) checks rest
  | _, _, _ => .ok ()

/-- Checks every element alike, counted from `i`. -/
def checkElements (check : Value → Location → Except Issue Unit) (location : Location) :
    Nat → List Value → Except Issue Unit
  | _, [] => .ok ()
  | i, v :: rest => do
    check v (location.item i)
    checkElements check location (i + 1) rest

def checkRequired (rules : Entries Value) (fields : Entries Value) (location : Location) :
    Except Issue Unit :=
  match Entries.get? rules "required" with
  | some (.array names) =>
    match (names.filterMap Value.string?).find? fun name => !Entries.contains fields name with
    | some name => .error (.missing (location.entry name))
    | none => .ok ()
  | _ => .ok ()

/-- Checks every entry by its name and value. -/
def checkEntries (check : String → Value → Location → Except Issue Unit) (location : Location) :
    Entries Value → Except Issue Unit
  | [] => .ok ()
  | (name, v) :: rest => do
    check name v (location.entry name)
    checkEntries check location rest

/-! ## Nested schemas -/

/-- The alternatives that `anyOf` or `oneOf` lists. -/
def alternatives? (rules : Entries Value) (keyword : String) : Option (List Value) :=
  match Entries.get? rules keyword with
  | some (.array options) => some options
  | _ => none

/-- Some alternative must accept; `verdicts` says which ones do. -/
def checkAnyOf (verdicts : List Bool) (location : Location) : Except Issue Unit :=
  if verdicts.any id then .ok ()
  else .error (.mismatch location
    ("a match for any of " ++ toString verdicts.length ++ " alternatives")
    "no alternative matched")

/-- Exactly one alternative must accept; `verdicts` says which ones do. -/
def checkOneOf (verdicts : List Bool) (location : Location) : Except Issue Unit :=
  let matched := verdicts.count true
  if matched = 1 then .ok ()
  else .error (.mismatch location
    ("a match for exactly one of " ++ toString verdicts.length ++ " alternatives")
    (toString matched ++ " matched"))

/-- The schemas of declared entries. -/
def declaredProperties (rules : Entries Value) : Entries Value :=
  match Entries.get? rules "properties" with
  | some (.object properties) => properties
  | _ => []

/-- What the rules of an object say of one of its entries. -/
inductive EntryRule where
  | schema (schema : Value)
  | refused
  | free

/-- A declared entry has a schema of its own, all others have that of
`additionalProperties`, if there is one. -/
def entryRule (rules : Entries Value) (name : String) : EntryRule :=
  match Entries.get? (declaredProperties rules) name with
  | some schema => .schema schema
  | none =>
    match Entries.get? rules "additionalProperties" with
    | some (.bool false) => .refused
    | some (.object inner) => .schema (.object inner)
    | _ => .free

/-! ## Sizes -/

theorem sizeOf_lt_of_get? {entries : Entries Value} {key : String} {v : Value}
    (h : Entries.get? entries key = some v) : sizeOf v < sizeOf entries := by
  induction entries with
  | nil => cases h
  | cons e rest ih =>
    obtain ⟨name, w⟩ := e
    rw [Entries.get?] at h
    simp only [List.cons.sizeOf_spec, Prod.mk.sizeOf_spec]
    split at h
    · cases h; omega
    · have := ih h; omega

theorem sizeOf_lt_of_mem_array {entries : Entries Value} {key : String} {items : List Value}
    {v : Value} (h : Entries.get? entries key = some (.array items)) (hm : v ∈ items) :
    sizeOf v < sizeOf entries := by
  have := sizeOf_lt_of_get? h
  have := List.sizeOf_lt_of_mem hm
  simp only [Value.array.sizeOf_spec] at *
  omega

theorem sizeOf_lt_of_mem_alternatives? {rules : Entries Value} {keyword : String}
    {options : List Value} {option : Value} (h : alternatives? rules keyword = some options)
    (hm : option ∈ options) : sizeOf option < sizeOf rules := by
  unfold alternatives? at h
  split at h
  · next h' =>
    cases h
    exact sizeOf_lt_of_mem_array h' hm
  · cases h

theorem sizeOf_lt_of_entryRule {rules : Entries Value} {name : String} {schema : Value}
    (h : entryRule rules name = .schema schema) : sizeOf schema < sizeOf rules := by
  unfold entryRule declaredProperties at h
  split at h
  · next h' =>
    cases h
    split at h'
    · next hp =>
      have := sizeOf_lt_of_get? h'
      have := sizeOf_lt_of_get? hp
      simp only [Value.object.sizeOf_spec] at *
      omega
    · cases h'
  · split at h
    · cases h
    · next h' => cases h; exact sizeOf_lt_of_get? h'
    · cases h

/-! ## The evaluation -/

/-- Reports the first rule of a body that a value breaks. -/
def check (matching : Matching) (schema v : Value) (location : Location) : Except Issue Unit :=
  match schema with
  | .bool true => .ok ()
  | .object rules => do
    checkKind rules v location
    checkEnum rules v location
    (match _h : alternatives? rules "anyOf" with
      | some options =>
        checkAnyOf (options.attach.map fun ⟨option, _⟩ => (check matching option v location).isOk)
          location
      | none => .ok ())
    (match _h : alternatives? rules "oneOf" with
      | some options =>
        checkOneOf (options.attach.map fun ⟨option, _⟩ => (check matching option v location).isOk)
          location
      | none => .ok ())
    match v with
    | .string text => checkString matching rules text location
    | .number n => checkNumber rules n.toDouble location
    | .array items => do
      checkMinItems rules items.length location
      checkMaxItems rules items.length location
      (match _h : Entries.get? rules "items" with
        | some (.array positional) =>
          checkPositions location 0
            (positional.attach.map fun ⟨schema, _⟩ => check matching schema) items
        | some schema => checkElements (check matching schema) location 0 items
        | none => .ok ())
    | .object fields =>
      if v.kind = .object then do
        checkRequired rules fields location
        checkEntries (fun name v location =>
          match _h : entryRule rules name with
          | .schema schema => check matching schema v location
          | .refused => .error (.undeclared location)
          | .free => .ok ()) location fields
      else .ok ()
    | _ => .ok ()
  | _ => .error (.mismatch location "nothing" v.describe)
termination_by sizeOf schema
decreasing_by
  all_goals simp only [Value.object.sizeOf_spec]
  all_goals first
    | (have bound := sizeOf_lt_of_mem_alternatives? ‹_› ‹_ ∈ _›; omega)
    | (have bound := sizeOf_lt_of_entryRule ‹_›; omega)
    | (have bound := sizeOf_lt_of_get? ‹Entries.get? _ _ = some _›
       try have member := List.sizeOf_lt_of_mem ‹_ ∈ _›
       simp only [Value.array.sizeOf_spec] at *
       omega)
    | (have bound := sizeOf_lt_of_get? ‹Entries.get? _ _ = some _›; omega)

/-- The keywords that apply to values of one type. -/
def checkContent (matching : Matching) (rules : Entries Value) (v : Value) (location : Location) :
    Except Issue Unit :=
  match v with
  | .string text => checkString matching rules text location
  | .number n => checkNumber rules n.toDouble location
  | .array items => do
    checkMinItems rules items.length location
    checkMaxItems rules items.length location
    match Entries.get? rules "items" with
    | some (.array positional) => checkPositions location 0 (positional.map (check matching)) items
    | some schema => checkElements (check matching schema) location 0 items
    | none => .ok ()
  | .object fields =>
    if v.kind = .object then do
      checkRequired rules fields location
      checkEntries (fun name v location =>
        match entryRule rules name with
        | .schema schema => check matching schema v location
        | .refused => .error (.undeclared location)
        | .free => .ok ()) location fields
    else .ok ()
  | _ => .ok ()

/-- The evaluation of an object of rules, without the bookkeeping that shows it ends. -/
theorem check_object (matching : Matching) (rules : Entries Value) (v : Value)
    (location : Location) :
    check matching (.object rules) v location = (do
      checkKind rules v location
      checkEnum rules v location
      (match alternatives? rules "anyOf" with
        | some options =>
          checkAnyOf (options.map fun option => (check matching option v location).isOk) location
        | none => .ok ())
      (match alternatives? rules "oneOf" with
        | some options =>
          checkOneOf (options.map fun option => (check matching option v location).isOk) location
        | none => .ok ())
      checkContent matching rules v location) := by
  rw [check.eq_def]
  dsimp only
  have verdicts (options : List Value) :
      (options.attach.map fun x => (check matching x.1 v location).isOk) =
        options.map fun option => (check matching option v location).isOk := by simp
  congr 1; funext _
  congr 1; funext _
  congr 1
  · split <;> simp_all
  · funext _
    congr 1
    · split <;> simp_all
    · funext _
      unfold checkContent
      cases v with
      | array items =>
        dsimp only
        congr 1; funext _
        congr 1; funext _
        split <;> simp_all
      | object fields =>
        dsimp only
        split
        · congr 1; funext _
          congr 1; funext name v location
          split <;> simp_all
        · rfl
      | _ => rfl

end Validator

end DocSchema

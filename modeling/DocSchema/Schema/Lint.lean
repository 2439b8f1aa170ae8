-- SUMMARY: House rules that a schema must follow before a model is defined on it.
import DocSchema.DotPath
import DocSchema.Schema.Node
import DocSchema.SchemaError

/-!
# House rules

A string leaf that accepts the empty string must be marked; names of fields are
not empty, hold no dot and do not begin with `$`; enumerations and unions are
not empty, and enumerations name no value twice; options of discriminated unions
are objects. The first rule broken is reported.

Checks of the facets around a leaf constrain the same value as its own checks,
so they are handed down as `inherited`.
-/

namespace DocSchema

namespace Node

/-- The house rule that the name of a field breaks. -/
def nameRule? (name : String) : Option LintRule :=
  if name = "" then some .emptyName
  else if DotPath.hasDot name then some .dottedName
  else if DotPath.isOperator name then some .operatorName
  else none

def lintName (name : String) (location : Location) : Except SchemaError Unit :=
  match nameRule? name with
  | some rule => .error (.lint (location.entry name) rule)
  | none => .ok ()

/-- The first value that stands in a list a second time. -/
def repeated? : List String → List String → Option String
  | _, [] => none
  | seen, v :: rest => if v ∈ seen then some v else repeated? (v :: seen) rest

def lintEnum (values : List String) (location : Location) : Except SchemaError Unit :=
  if values = [] then .error (.lint location .emptyEnum)
  else match repeated? [] values with
    | some v => .error (.lint location (.repeatedEnumValue v))
    | none => .ok ()

/-- Whether a string leaf is unmarked and yet accepts the empty string. -/
def admitsEmpty (checks inherited : List StringCheck) (allowEmpty : Bool) : Bool :=
  !allowEmpty && StringCheck.allHold checks "" && StringCheck.allHold inherited ""

mutual
/-- Reports the first house rule that a tree breaks. -/
def lintAt : Node → List StringCheck → Location → Except SchemaError Unit
  | .object fields catchall, _, location => do
    lintFields fields location
    lintCatchall catchall location.others
  | .array item, _, location => item.lintAt [] location.items
  | .tuple items, _, location => lintItems items 0 location
  | .union options, inherited, location =>
    if options.isEmpty then .error (.lint location .emptyUnion)
    else lintOptions options inherited location
  | .discriminated _ options, _, location =>
    if options.isEmpty then .error (.lint location .emptyDiscriminated)
    else lintDiscriminated options 0 location
  | .intersection left right, inherited, location => do
    left.lintAt inherited location
    right.lintAt inherited location
  | .record value, _, location => value.lintAt [] location.others
  | .optional inner, inherited, location => inner.lintAt inherited location
  | .nullable inner, inherited, location => inner.lintAt inherited location
  | .withDefault inner _, inherited, location => inner.lintAt inherited location
  | .transform inner (some (.string checks)) _, inherited, location =>
    inner.lintAt (inherited ++ checks) location
  | .transform inner _ _, inherited, location => inner.lintAt inherited location
  | .enum values, _, location => lintEnum values location
  | .string checks allowEmpty, inherited, location =>
    if admitsEmpty checks inherited allowEmpty then .error (.lint location .acceptsEmptyString)
    else .ok ()
  | .literal _, _, _ => .ok ()
  | .number _, _, _ => .ok ()
  | .boolean, _, _ => .ok ()
  | .date, _, _ => .ok ()
  | .null, _, _ => .ok ()
  | .any, _, _ => .ok ()
  | .never, _, _ => .ok ()

def lintFields : List (String × Node) → Location → Except SchemaError Unit
  | [], _ => .ok ()
  | (name, n) :: rest, location => do
    lintName name location
    n.lintAt [] (location.entry name)
    lintFields rest location

def lintCatchall : Option Node → Location → Except SchemaError Unit
  | none, _ => .ok ()
  | some n, location => n.lintAt [] location

def lintItems : List Node → Nat → Location → Except SchemaError Unit
  | [], _, _ => .ok ()
  | n :: rest, i, location => do
    n.lintAt [] (location.item i)
    lintItems rest (i + 1) location

def lintOptions : List Node → List StringCheck → Location → Except SchemaError Unit
  | [], _, _ => .ok ()
  | n :: rest, inherited, location => do
    n.lintAt inherited location
    lintOptions rest inherited location

def lintDiscriminated : List Node → Nat → Location → Except SchemaError Unit
  | [], _, _ => .ok ()
  | n :: rest, i, location =>
    if n.isObject then do
      n.lintAt [] location
      lintDiscriminated rest (i + 1) location
    else .error (.lint (location.option i) (.optionNotObject n.kindName))
end

/-- Reports the first house rule that a schema breaks. -/
def lint (root : Node) : Except SchemaError Unit := root.lintAt [] .root

end Node

end DocSchema

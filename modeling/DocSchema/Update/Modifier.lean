-- SUMMARY: Modifiers: bringing them into explicit form and parsing their payloads.
import DocSchema.Schema.Parse
import DocSchema.Update.Relax

/-!
# Modifiers

A modifier maps operators to payloads; one without operators is a `$set`. Inside
`$set`, a value that can only be appended to an array field moves to the
operator that appends it. The payloads of `$set`, `$setOnInsert`, `$push` and
`$addToSet` are parsed key by key against the relaxed schema; seven further
operators pass unchanged, all others are refused.

Fields that a `$set` leaves out are run as absent, so that transforms can fill
them in, and an upsert also gets the defaults of fields that nothing else
writes, under `$setOnInsert`.
-/

namespace DocSchema

/-- Operators and their payloads. -/
abbrev Modifier := Entries Value

namespace Modifier

def parsedOperators : List String := ["$set", "$setOnInsert", "$push", "$addToSet"]

def passedOperators : List String :=
  ["$unset", "$inc", "$pull", "$min", "$max", "$mul", "$rename"]

/-! ## Explicit form -/

/-- The modifier with all operators written out, before appends are moved. -/
def explicit (modifier : Value) : Except SchemaError Modifier :=
  match modifier with
  | .object fields =>
    if fields.all fun e => !DotPath.isOperator e.1 then .ok [("$set", modifier)]
    else if fields.all fun e => DotPath.isOperator e.1 then .ok fields
    else .error (.modifier .mixed)
  | _ => .error (.modifier .notObject)

/-- The operator that appends a value to the array field under a key, if the
value has the shape of an append. -/
def appendOperator? (s : UpdateSchema) (key : String) (v : Value) : Option String :=
  match (s.baseNodeFor? key).bind Node.arrayItem? with
  | none => none
  | some _ =>
    match v with
    | .array _ | .null => none
    | .object fields =>
      if Entries.contains fields "$each" then
        if Entries.contains fields "$position" || Entries.contains fields "$slice" then some "$push"
        else some "$addToSet"
      else some "$push"
    | _ => some "$push"

/-- Puts an entry under an operator, whose payload must be an object without it. -/
def moveEntry (m : Modifier) (operator key : String) (v : Value) : Except SchemaError Modifier :=
  match (Entries.get? m operator).getD .empty with
  | .object fields =>
    if Entries.contains fields key then .error (.modifier (.writtenTwice key operator))
    else .ok (Entries.insert m operator (.object (Entries.insert fields key v)))
  | _ => .error (.modifier (.operatorPayloadNotObject operator))

def moveEntries (m : Modifier) : List (String × String × Value) → Except SchemaError Modifier
  | [] => .ok m
  | (operator, key, v) :: rest => do moveEntries (← moveEntry m operator key v) rest

/-- Moves the appends of a `$set` to the operators that append. -/
def routeAppends (s : UpdateSchema) (m : Modifier) : Except SchemaError Modifier :=
  match Entries.get? m "$set" with
  | some (.object fields) =>
    let moved := fields.filterMap fun e =>
      (appendOperator? s e.1 e.2).map fun operator => (operator, e.1, e.2)
    let kept := fields.filter fun e => (appendOperator? s e.1 e.2).isNone
    let rest :=
      if kept.isEmpty && !moved.isEmpty then Entries.erase m "$set"
      else Entries.insert m "$set" (.object kept)
    moveEntries rest moved
  | _ => .ok m

/-- The explicit form of a modifier. -/
def normalize (s : UpdateSchema) (modifier : Value) : Except SchemaError Modifier := do
  routeAppends s (← explicit modifier)

/-! ## Payloads -/

/-- The first segments of the keys of a payload. -/
def writtenRoots (payload : Entries Value) : List String :=
  payload.map fun e => DotPath.rootOf e.1

/-- The first segments of the targets of a `$rename`. -/
def targetRoots (payload : Entries Value) : List String :=
  payload.filterMap fun e => e.2.string?.map DotPath.rootOf

/-- The top-level fields that operators other than `$set` write. -/
def targetedRoots (m : Modifier) : List String :=
  m.flatMap fun e =>
    if e.1 = "$set" then []
    else match e.2 with
      | .object payload =>
        writtenRoots payload ++ if e.1 = "$rename" then targetRoots payload else []
      | _ => []

/-- Parses the entries of a payload; an entry whose value vanishes is left out. -/
def parseEntries (s : UpdateSchema) (ctx : Context) :
    Entries Value → Except SchemaError (Entries Value)
  | [] => .ok []
  | (key, v) :: rest =>
    match s.nodeFor? key with
    | none => .error (.rejected (.undeclared key))
    | some n => do
      let parsed ← (n.parser (some v) ctx key).mapError SchemaError.rejected
      let others ← parseEntries s ctx rest
      .ok (match parsed with
        | some v => (key, v) :: others
        | none => others)

/-- The values that absent fields get from their own type, except the fields named. -/
def fillAbsent (ctx : Context) (written : List String) :
    List (String × Node) → Except SchemaError (List (String × Value))
  | [] => .ok []
  | (name, n) :: rest =>
    if written.contains name || !n.acceptsAbsent then fillAbsent ctx written rest
    else do
      let parsed ← (n.parser none ctx name).mapError SchemaError.rejected
      let others ← fillAbsent ctx written rest
      .ok (match parsed with
        | some v => (name, v) :: others
        | none => others)

/-- The entries of a payload. -/
def payloadEntries (payload : Value) : Except SchemaError (Entries Value) :=
  match payload with
  | .object fields => .ok fields
  | _ => .error (.modifier .payloadNotObject)

/-- Parses a payload as it stands. -/
def parsePayload (s : UpdateSchema) (payload : Value) (ctx : Context) :
    Except SchemaError (Entries Value) := do
  parseEntries s ctx (← payloadEntries payload)

/-- Parses a payload and fills in absent fields, except those named in `skip`. -/
def parseAndFill (s : UpdateSchema) (payload : Value) (skip : List String) (ctx : Context) :
    Except SchemaError (Entries Value) := do
  let input ← payloadEntries payload
  let parsed ← parseEntries s ctx input
  let filled ← fillAbsent ctx (writtenRoots input ++ skip) s.fields
  .ok (filled.foldl (fun done e => Entries.insert done e.1 e.2) parsed)

/-- Parses the payload of a single operator. -/
def parseOperation (s : UpdateSchema) (payload : Value) (ctx : Context) :
    Except SchemaError (Entries Value) := parseAndFill s payload [] ctx

/-! ## Whole modifiers -/

/-- Parses what stands under one operator other than `$set`. -/
def parseOperator (s : UpdateSchema) (operator : String) (payload : Value) (ctx : Context) :
    Except SchemaError Value :=
  if operator ∈ parsedOperators then (parsePayload s payload ctx).map .object
  else if operator ∈ passedOperators then
    if payload.isObject then .ok payload
    else .error (.modifier (.operatorPayloadNotObject operator))
  else .error (.modifier (.unsupportedOperator operator))

def parseOperators (s : UpdateSchema) (ctx : Context) : Modifier → Except SchemaError Modifier
  | [] => .ok []
  | (operator, payload) :: rest =>
    if operator = "$set" then parseOperators s ctx rest
    else do
      let parsed ← parseOperator s operator payload ctx
      .ok ((operator, parsed) :: (← parseOperators s ctx rest))

/-- Adds the defaults of fields that are not supplied to the entries for an insertion. -/
def addDefaults (ctx : Context) (supplied : List String) :
    List DefaultField → Entries Value → Except SchemaError (Entries Value)
  | [], onInsert => .ok onInsert
  | field :: rest, onInsert =>
    if supplied.contains field.name || Entries.contains onInsert field.name then
      addDefaults ctx supplied rest onInsert
    else match field.default ctx with
      | none => addDefaults ctx supplied rest onInsert
      | some v => do
        match ← (field.inner.parser (some v) ctx field.name).mapError SchemaError.rejected with
        | some parsed => addDefaults ctx supplied rest (Entries.insert onInsert field.name parsed)
        | none => addDefaults ctx supplied rest onInsert

/-- The entries under `$setOnInsert`. -/
def onInsert (m : Modifier) : Entries Value :=
  match Entries.get? m "$setOnInsert" with
  | some (.object fields) => fields
  | _ => []

/-- Puts entries under an operator, which is left out when there are none. -/
def put (m : Modifier) (operator : String) (fields : Entries Value) : Modifier :=
  if fields.isEmpty then Entries.erase m operator
  else Entries.insert m operator (.object fields)

/-- Parses a modifier to the one that is sent to the store. -/
def parse (s : UpdateSchema) (modifier : Value) (isUpsert : Bool) (ctx : Context) :
    Except SchemaError Modifier := do
  let explicit ← normalize s modifier
  let others ← parseOperators s ctx explicit
  let targeted := targetedRoots explicit
  let set ← parseAndFill s ((Entries.get? explicit "$set").getD .empty) targeted ctx
  let others ←
    if isUpsert then do
      let filled ← addDefaults ctx (targeted ++ writtenRoots set) s.defaults others.onInsert
      .ok (put others "$setOnInsert" filled)
    else .ok others
  .ok (put others "$set" set)

end Modifier

end DocSchema

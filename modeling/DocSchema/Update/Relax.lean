-- SUMMARY: The schema that modifiers are checked against, derived from the schema of documents.
import DocSchema.DotPath
import DocSchema.Schema.Builder
import DocSchema.Schema.Intersect

/-!
# Relaxation

A modifier writes single fields of a document that is there already. Relative to
the schema of documents, defaults are taken off, so that an update does not
apply them again, and array fields also take one element or an object
`$each: [...]`. Keys with dots lead through the unrelaxed tree to the node they
address.
-/

namespace DocSchema

namespace Node

/-- Takes the defaults off the wrappers of a node. -/
def stripDefaults : Node → Node
  | .withDefault inner _ => inner.stripDefaults
  | .optional inner => .optional inner.stripDefaults
  | .nullable inner => .nullable inner.stripDefaults
  | .transform inner facet apply => .transform inner.stripDefaults facet apply
  | other => other

/-- The object that appends several elements at once. -/
def eachShape (item : Node) : Node :=
  .object
    [("$each", .array item), ("$position", .optional .integer), ("$slice", .optional .integer)] none

/-- The type of a field as modifiers see it. -/
def relax (n : Node) : Node :=
  match n.arrayItem? with
  | some item => .union [n.stripDefaults, item, eachShape item]
  | none => n.stripDefaults

/-- The only candidate, or the union of several. -/
def unionOf? : List Node → Option Node
  | [] => none
  | [n] => some n
  | ns => some (.union ns)

/-- The node that a tuple has under a segment. -/
def positionOf? (items : List Node) (segment : String) : Option Node :=
  match DotPath.index? segment with
  | some i => items[i]?
  | none => if DotPath.isElement segment && !items.isEmpty then some (.union items) else none

/-- The node one segment below a node. -/
def step? (n : Node) (segment : String) : Option Node :=
  match n with
  | .optional inner => inner.step? segment
  | .nullable inner => inner.step? segment
  | .withDefault inner _ => inner.step? segment
  | .transform inner _ _ => inner.step? segment
  | .object fields catchall => lookup fields segment <|> catchall
  | .record value => some value
  | .array item => if DotPath.isElement segment then some item else none
  | .tuple items => positionOf? items segment
  | .union options => unionOf? (options.filterMap fun option => option.step? segment)
  | .discriminated _ options => unionOf? (options.filterMap fun option => option.step? segment)
  | .intersection left right =>
    match _h : left.intersect right .root with
    | .ok merged => merged.step? segment
    | .error _ => none
  | .any => some .any
  | _ => none
termination_by n.height
decreasing_by
  all_goals simp only [height]
  all_goals first
    | omega
    | (have bound := height_le_listHeight ‹_ ∈ _›; omega)
    | (have bound := height_le_of_intersect ‹_›; omega)

/-- The node at the end of a list of segments. -/
def walk? (n : Node) : List String → Option Node
  | [] => some n
  | segment :: rest => (n.step? segment).bind fun child => child.walk? rest

end Node

/-- The fields and the catchall of the document schema that modifiers write to. -/
structure UpdateSchema where
  base : List (String × Node)
  catchall : Option Node

/-- A field with a default: its name, the node inside the default, and the default. -/
structure DefaultField where
  name : String
  inner : Node
  default : Default

namespace UpdateSchema

/-- The relaxed fields in declaration order. -/
def fields (s : UpdateSchema) : List (String × Node) := s.base.map fun f => (f.1, f.2.relax)

/-- The relaxed type of a top-level field. -/
def field? (s : UpdateSchema) (name : String) : Option Node := Node.lookup s.fields name

/-- The top-level fields whose outermost wrapper is a default. -/
def defaults (s : UpdateSchema) : List DefaultField :=
  s.base.filterMap fun f =>
    match f.2 with
    | .withDefault inner default => some ⟨f.1, inner, default⟩
    | _ => none

/-- The unrelaxed node that a key addresses. -/
def baseNodeFor? (s : UpdateSchema) (key : String) : Option Node :=
  (Node.object s.base s.catchall).walk? (DotPath.segments key)

/-- The relaxed node that a dotted path addresses. -/
def resolve? (s : UpdateSchema) (path : String) : Option Node :=
  (s.baseNodeFor? path).map Node.relax

/-- The relaxed node that a key of a modifier addresses, with or without dots. -/
def nodeFor? (s : UpdateSchema) (key : String) : Option Node :=
  if DotPath.hasDot key then s.resolve? key
  else s.field? key <|> s.catchall.map Node.relax

end UpdateSchema

namespace Node

/-- Derives the schema of modifiers from a schema of documents. -/
def relaxed (root : Node) : Except SchemaError UpdateSchema := do
  let merged ← match root with
    | .intersection left right => left.intersect right .root
    | other => .ok other
  match merged with
  | .object fields catchall => .ok ⟨fields, catchall⟩
  | other => .error (.invalid .root (.modifierRootNotObject other.kindName))

end Node

end DocSchema

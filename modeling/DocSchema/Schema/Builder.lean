-- SUMMARY: Ways to build schema nodes from others: defaults, transforms, checks.
import DocSchema.Schema.Node

/-!
# Building nodes

The constructors of `Node` build plain nodes. The functions here add defaults,
transforms and checks; a check put on a node of the wrong kind leaves the node
as it is.
-/

namespace DocSchema

namespace Node

/-! ## Defaults -/

/-- A default that is always the same value. -/
def defaultValue (n : Node) (v : Value) : Node := .withDefault n fun _ => some v

/-- A default that never declines. -/
def defaultWith (n : Node) (f : Context → Value) : Node := .withDefault n fun ctx => some (f ctx)

/-! ## Transforms -/

/-- A transform that never fails. -/
def mapped (n : Node) (f : Option Value → Context → Option Value) : Node :=
  .transform n none fun v ctx => .ok (f v ctx)

/-- A transform of present values only. -/
def mapValue (n : Node) (f : Value → Value) : Node := n.mapped fun v _ => v.map f

/-- Gives a transform its facet; any other node is wrapped in one that changes nothing. -/
def validated (n : Node) (facet : Facet) : Node :=
  match n with
  | .transform inner _ apply => .transform inner (some facet) apply
  | other => .transform other (some facet) fun v _ => .ok v

/-! ## Objects and leaves -/

/-- Lets undeclared entries of an object through when they match the schema. -/
def withCatchall (n : Node) (catchall : Node) : Node :=
  match n with
  | .object fields _ => .object fields (some catchall)
  | other => other

def withStringCheck (n : Node) (check : StringCheck) : Node :=
  match n with
  | .string checks allowEmpty => .string (checks ++ [check]) allowEmpty
  | other => other

def withNumberCheck (n : Node) (check : NumberCheck) : Node :=
  match n with
  | .number checks => .number (checks ++ [check])
  | other => other

/-- Marks a string as one that may be empty. -/
def allowingEmpty (n : Node) : Node :=
  match n with
  | .string checks _ => .string checks true
  | other => other

/-- A string without checks. -/
def text : Node := .string [] false

def integer : Node := .number [.integer]

end Node

end DocSchema

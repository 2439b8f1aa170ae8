-- SUMMARY: Patterns as checks on strings, and the ready-made ones for addresses and identifiers.
import DocSchema.Pattern.Notation

/-!
# Patterns

A `Pattern` is a written pattern together with the expression it stands for, so
only texts that can be read make one, and two patterns with one text match the
same strings.
-/

namespace DocSchema

structure Pattern where
  source : String
  expr : Pattern.Expr
  reads : Pattern.Expr.read? source = some expr

namespace Pattern

/-- The pattern of a text, if the text can be read. -/
def read? (source : String) : Option Pattern :=
  match h : Expr.read? source with
  | some expr => some ⟨source, expr, h⟩
  | none => none

/-- Whether the pattern matches somewhere in the text. -/
def matchesIn (p : Pattern) (text : String) : Bool := p.expr.matchesIn text

def emailSource : String :=
  "^[A-Za-z0-9._%+-]+@[A-Za-z0-9-]+(\\.[A-Za-z0-9-]+)*\\.[A-Za-z]\x7b2,\x7d$"

def uuidSource : String :=
  "^[0-9a-fA-F]\x7b8\x7d-[0-9a-fA-F]\x7b4\x7d-[0-9a-fA-F]\x7b4\x7d-[0-9a-fA-F]\x7b4\x7d-" ++
    "[0-9a-fA-F]\x7b12\x7d$"

def urlSource : String := "^[A-Za-z][A-Za-z0-9+.-]*://[^\\s/?#]+[^\\s]*$"

/-- Mail addresses. -/
def email : Option Pattern := read? emailSource

/-- Unique identifiers in their written form. -/
def uuid : Option Pattern := read? uuidSource

/-- Web addresses. -/
def url : Option Pattern := read? urlSource

end Pattern

end DocSchema

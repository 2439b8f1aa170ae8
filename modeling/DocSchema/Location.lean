-- SUMMARY: Names of places in schemas and documents, as errors report them.

/-!
# Locations

A `Location` names a place by the way that leads to it from the root:
`profile.tags[2]`, `tags[]` for the elements of an array in general, `extra.*`
for undeclared entries, `shape<1>` for an option of a union. The root itself is
the empty text and is shown as `$root`.
-/

namespace DocSchema

abbrev Location := String

namespace Location

def root : Location := ""

/-- A named entry below a place. -/
def entry (location : Location) (name : String) : Location :=
  if location = "" then name else location ++ "." ++ name

/-- One element of an array. -/
def item (location : Location) (i : Nat) : Location := location ++ "[" ++ toString i ++ "]"

/-- The elements of an array. -/
def items (location : Location) : Location := location ++ "[]"

/-- The entries of an object that are not declared by name. -/
def others (location : Location) : Location := location ++ ".*"

/-- One option of a union. -/
def option (location : Location) (i : Nat) : Location := location ++ "<" ++ toString i ++ ">"

/-- The text shown for a place. -/
def shown (location : Location) : String := if location = "" then "$root" else location

end Location

end DocSchema

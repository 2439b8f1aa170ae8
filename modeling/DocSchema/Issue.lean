-- SUMMARY: A single reason why a value is refused.
import DocSchema.Location

/-!
# Issues

An `Issue` says where a value was refused, what was expected there and what was
found. Both the schema and the validator report the first issue they meet.
-/

namespace DocSchema

structure Issue where
  /-- The place as shown, see `Location.shown`. -/
  path : String
  expected : String
  actual : String
deriving DecidableEq, Inhabited

namespace Issue

def mismatch (location : Location) (expected actual : String) : Issue :=
  ⟨location.shown, expected, actual⟩

/-- A required entry is not there. -/
def missing (location : Location) : Issue := .mismatch location "field to be present" "missing"

/-- An entry is there that is not declared. -/
def undeclared (location : Location) : Issue :=
  .mismatch location "no undeclared fields" "extra field present"

def message (i : Issue) : String :=
  "field '" ++ i.path ++ "': expected " ++ i.expected ++ ", got " ++ i.actual

end Issue

end DocSchema

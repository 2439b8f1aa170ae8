-- SUMMARY: Constraints on strings and numbers, and how a failed one is reported.
import DocSchema.Issue
import DocSchema.Json.Printer
import DocSchema.Pattern.Basic
import DocSchema.Value.Kind

/-!
# Checks

String and number leaves carry lists of checks; a transform may carry one list
as its facet. A list is checked in order and the first failure is reported.
-/

namespace DocSchema

/-- A constraint on a string. Lengths count characters. -/
inductive StringCheck where
  | minLength (n : Nat)
  | maxLength (n : Nat)
  | length (n : Nat)
  | pattern (p : Pattern)
  | email
  | uuid
  | url
  | startsWith (part : String)
  | endsWith (part : String)
  | includes (part : String)

/-- A constraint on a number. -/
inductive NumberCheck where
  | min (bound : Double)
  | exclusiveMin (bound : Double)
  | max (bound : Double)
  | exclusiveMax (bound : Double)
  | integer
  | multipleOf (divisor : Double)
deriving DecidableEq

/-- The constraints that a transform puts on a present value before it runs. -/
inductive Facet where
  | string (checks : List StringCheck)
  | number (checks : List NumberCheck)

/-! ## Strings -/

/-- Whether `part` occurs among the characters. -/
def occursIn (part : List Char) : List Char → Bool
  | [] => part.isEmpty
  | c :: cs => part.isPrefixOf (c :: cs) || occursIn part cs

namespace StringCheck

def name : StringCheck → String
  | .minLength _ => "minLength"
  | .maxLength _ => "maxLength"
  | .length _ => "length"
  | .pattern _ => "pattern"
  | .email => "email"
  | .uuid => "uuid"
  | .url => "url"
  | .startsWith _ => "startsWith"
  | .endsWith _ => "endsWith"
  | .includes _ => "includes"

def holds (check : StringCheck) (text : String) : Bool :=
  match check with
  | .minLength n => decide (n ≤ text.length)
  | .maxLength n => decide (text.length ≤ n)
  | .length n => decide (text.length = n)
  | .pattern p => p.matchesIn text
  | .email => Pattern.email.any (·.matchesIn text)
  | .uuid => Pattern.uuid.any (·.matchesIn text)
  | .url => Pattern.url.any (·.matchesIn text)
  | .startsWith part => part.toList.isPrefixOf text.toList
  | .endsWith part => part.toList.isSuffixOf text.toList
  | .includes part => occursIn part.toList text.toList

def expectation : StringCheck → String
  | .minLength n => "length >= " ++ toString n
  | .maxLength n => "length <= " ++ toString n
  | .length n => "length == " ++ toString n
  | .pattern p => "match for /" ++ p.source ++ "/"
  | .startsWith part => "string starting with \"" ++ part ++ "\""
  | .endsWith part => "string ending with \"" ++ part ++ "\""
  | .includes part => "string containing \"" ++ part ++ "\""
  | .email => "valid email"
  | .uuid => "valid uuid"
  | .url => "valid url"

/-- Whether all checks hold. -/
def allHold (checks : List StringCheck) (text : String) : Bool := checks.all (·.holds text)

/-- Reports the first check that does not hold. -/
def checkAll (checks : List StringCheck) (text : String) (location : Location) :
    Except Issue Unit :=
  match checks.find? fun c => !c.holds text with
  | none => .ok ()
  | some failed => .error (.mismatch location failed.expectation ("\"" ++ text ++ "\""))

end StringCheck

/-! ## Numbers -/

namespace NumberCheck

def holds (check : NumberCheck) (n : Number) : Bool :=
  match check with
  | .min bound => bound.le n.toDouble
  | .exclusiveMin bound => bound.lt n.toDouble
  | .max bound => n.toDouble.le bound
  | .exclusiveMax bound => n.toDouble.lt bound
  | .integer => n.toInt64?.isSome
  | .multipleOf divisor => n.toDouble.isMultipleOf divisor

def expectation : NumberCheck → String
  | .min bound => ">= " ++ NumberLayout.plain.text bound
  | .exclusiveMin bound => "> " ++ NumberLayout.plain.text bound
  | .max bound => "<= " ++ NumberLayout.plain.text bound
  | .exclusiveMax bound => "< " ++ NumberLayout.plain.text bound
  | .integer => "integer"
  | .multipleOf divisor => "multiple of " ++ NumberLayout.plain.text divisor

def allHold (checks : List NumberCheck) (n : Number) : Bool := checks.all (·.holds n)

/-- Reports the first check that does not hold. -/
def checkAll (checks : List NumberCheck) (n : Number) (location : Location) :
    Except Issue Unit :=
  match checks.find? fun c => !c.holds n with
  | none => .ok ()
  | some failed => .error (.mismatch location failed.expectation n.json)

end NumberCheck

/-! ## Facets -/

/-- Checks a value against a facet; values of another type pass. -/
def Facet.check (facet : Facet) (v : Value) (location : Location) : Except Issue Unit :=
  match facet, v with
  | .string checks, .string text => StringCheck.checkAll checks text location
  | .number checks, .number n => NumberCheck.checkAll checks n location
  | _, _ => .ok ()

/-- How a message describes a value: containers by kind, all others in full. -/
def Value.describe (v : Value) : String := if v.isScalar then v.json else v.kind.name

end DocSchema

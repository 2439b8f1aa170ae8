-- SUMMARY: The compact JSON text of a value, as written into answers and quoted inside messages.
import DocSchema.Numeric.Layout
import DocSchema.Value.Basic

/-!
# JSON text

Values are written without blanks, entries in the order of the object. Strings
escape the quote, the backslash and control characters below U+0020, nothing
else; doubles follow `NumberLayout.json`.
-/

namespace DocSchema

namespace Json

def hexDigit (n : Nat) : Char := (Nat.digitChar n)

/-- A character as it stands inside a quoted string. -/
def escaped (c : Char) : List Char :=
  if c = '"' then ['\\', '"']
  else if c = '\\' then ['\\', '\\']
  else if c = '\n' then ['\\', 'n']
  else if c = '\r' then ['\\', 'r']
  else if c = '\t' then ['\\', 't']
  else if c = '\x08' then ['\\', 'b']
  else if c = '\x0c' then ['\\', 'f']
  else if c.toNat < 32 then ['\\', 'u', '0', '0', hexDigit (c.toNat / 16), hexDigit (c.toNat % 16)]
  else [c]

def quoted (s : String) : String := "\"" ++ String.ofList (s.toList.flatMap escaped) ++ "\""

end Json

def Number.json : Number → String
  | .int i => toString i
  | .double d _ => NumberLayout.json.text d

namespace Value

mutual
/-- The compact JSON text of a value. -/
def json : Value → String
  | .null => "null"
  | .bool true => "true"
  | .bool false => "false"
  | .number n => n.json
  | .string s => Json.quoted s
  | .array items => "[" ++ ",".intercalate (jsonItems items) ++ "]"
  | .object fields => "\x7b" ++ ",".intercalate (jsonFields fields) ++ "\x7d"

def jsonItems : List Value → List String
  | [] => []
  | item :: rest => item.json :: jsonItems rest

def jsonFields : List (String × Value) → List String
  | [] => []
  | (name, value) :: rest => (Json.quoted name ++ ":" ++ value.json) :: jsonFields rest
end

end Value

end DocSchema

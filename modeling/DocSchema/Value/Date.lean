-- SUMMARY: Dates among the values: objects with the single entry `$date`.
import DocSchema.Value.Basic
import DocSchema.Date.Timestamp

/-!
# Dates as values

A date is an object whose only entry is `$date` and holds a timestamp. Every
other object is a plain object, also one with a second entry beside `$date`.
-/

namespace DocSchema

/-- The entry that marks a date. -/
def dateKey : String := "$date"

/-- The value of an instant. -/
def Value.ofInstant (t : Instant) : Value := .object [(dateKey, .string (Timestamp.text t))]

/-- The instant, if the value is a date. -/
def Value.instant? : Value → Option Instant
  | .object [(key, .string text)] => if key = dateKey then Timestamp.read? text else none
  | _ => none

end DocSchema

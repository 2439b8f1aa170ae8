-- SUMMARY: Points in time: seconds and nanoseconds, their order, and the range that dates cover.
import DocSchema.Date.Calendar

/-!
# Instants

An `Instant` counts seconds from the epoch and nanoseconds within the second.
Nanoseconds beyond a thousand million stand for a leap second, which belongs to
the second before it.
-/

namespace DocSchema

structure Instant where
  seconds : Int
  nanos : Nat
deriving DecidableEq, Inhabited

namespace Instant

/-- 1970-01-01, midnight. -/
def epoch : Instant := ⟨0, 0⟩

/-- By seconds, then by nanoseconds. -/
def compare (a b : Instant) : Ordering :=
  (Ord.compare a.seconds b.seconds).then (Ord.compare a.nanos b.nanos)

/-- Milliseconds from the epoch, rounded down. A leap second counts as a
thousand milliseconds on top of the second it belongs to. -/
def toMillis (t : Instant) : Int := t.seconds * 1000 + (t.nanos / 1000000 : Nat)

/-- The first day a date may have. -/
def firstDay : Int := CalendarDay.toDays ⟨-262143, 1, 1⟩

/-- The last day a date may have. -/
def lastDay : Int := CalendarDay.toDays ⟨262142, 12, 31⟩

/-- Whether the instant lies on a day that a date may have. -/
def InRange (t : Instant) : Prop := firstDay ≤ t.seconds / 86400 ∧ t.seconds / 86400 ≤ lastDay

instance (t : Instant) : Decidable t.InRange := by unfold InRange; infer_instance

/-- The instant a number of milliseconds from the epoch, if dates reach so far. -/
def ofMillis? (millis : Int) : Option Instant :=
  let t : Instant := ⟨millis / 1000, (millis % 1000).toNat * 1000000⟩
  if t.InRange then some t else none

end Instant

end DocSchema

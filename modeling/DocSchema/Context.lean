-- SUMMARY: What a write knows about itself: its kind, the time on the clock, and the actor.
import DocSchema.Date.Instant

/-!
# Operation contexts

Defaults and transforms see the operation that runs them through a `Context`:
its kind, one reading of the clock, and who acts. Outside any operation there is
no kind and no actor. An `Operation` is a context whose clock has perhaps not
been read yet; the first reading is kept.
-/

namespace DocSchema

inductive OperationKind where
  | insert
  | update
  | upsert
deriving DecidableEq, Inhabited

def OperationKind.name : OperationKind → String
  | .insert => "insert"
  | .update => "update"
  | .upsert => "upsert"

structure Context where
  kind : Option OperationKind
  now : Instant
  actor : Option String
deriving DecidableEq, Inhabited

/-- The context outside any operation. -/
def Context.detached : Context := ⟨none, .epoch, none⟩

def Context.isInsert (ctx : Context) : Bool := ctx.kind == some .insert

def Context.isUpdate (ctx : Context) : Bool := ctx.kind == some .update

def Context.isUpsert (ctx : Context) : Bool := ctx.kind == some .upsert

/-! ## Clocks -/

/-- A clock that is set and moved by hand, in milliseconds from the epoch. -/
structure Clock where
  millis : Int64
deriving DecidableEq, Inhabited

namespace Clock

/-- The clock's time; a time that no date reaches reads as the epoch. -/
def now (c : Clock) : Instant := (Instant.ofMillis? c.millis.toInt).getD .epoch

/-- Moves the clock; past either end of 64 bits it goes on at the other. -/
def advance (c : Clock) (millis : Int64) : Clock := ⟨c.millis + millis⟩

end Clock

/-! ## Operations under way -/

structure Operation where
  kind : Option OperationKind
  actor : Option String
  /-- The first reading of the clock, once there is one. -/
  reading : Option Instant
deriving DecidableEq, Inhabited

namespace Operation

def begin (kind : Option OperationKind) (actor : Option String) : Operation := ⟨kind, actor, none⟩

/-- The time of the operation, read from the clock the first time it is asked for. -/
def now (o : Operation) (clock : Clock) : Instant := o.reading.getD clock.now

/-- The operation once its time has been asked for. -/
def read (o : Operation) (clock : Clock) : Operation := { o with reading := some (o.now clock) }

/-- What defaults and transforms see of the operation. -/
def context (o : Operation) (clock : Clock) : Context := ⟨o.kind, o.now clock, o.actor⟩

end Operation

end DocSchema

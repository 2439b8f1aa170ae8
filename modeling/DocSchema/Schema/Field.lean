-- SUMMARY: Ready-made fields: non-empty strings, references, and fields that a write fills in.
import DocSchema.Schema.Builder

/-!
# Ready-made fields

| field                | insert | update | upsert that inserts |
|----------------------|--------|--------|---------------------|
| `createdTimestamp`   | now    | absent | now                 |
| `updatedTimestamp`   | absent | now    | absent              |
| `lastWriteTimestamp` | now    | now    | now                 |
| `createdUser`        | actor  | absent | actor               |
| `updatedUser`        | absent | actor  | actor               |

A value that the caller gives is kept, except that the fields of creation are
dropped by an update, so that history cannot be rewritten.
-/

namespace DocSchema

namespace Field

def nonEmptyString : Node := .string [.minLength 1] false

def allowedEmptyString : Node := .string [] true

/-- The `_id` of a document in another collection. -/
def foreignKey : Node := nonEmptyString

def now (ctx : Context) : Value := .ofInstant ctx.now

def actor (ctx : Context) : Option Value := ctx.actor.map .string

def createdTimestamp : Node :=
  ((Node.optional .date).mapped fun v ctx => if ctx.isUpdate then none else v).defaultWith now

def updatedTimestamp : Node :=
  (Node.optional .date).mapped fun v ctx =>
    v <|> if ctx.isUpdate then some (now ctx) else none

def lastWriteTimestamp : Node :=
  (Node.optional .date).mapped fun v ctx => v <|> ctx.kind.map fun _ => now ctx

def createdUser : Node :=
  .withDefault ((Node.optional nonEmptyString).mapped fun v ctx => if ctx.isUpdate then none else v)
    actor

def updatedUser : Node :=
  (Node.optional nonEmptyString).mapped fun v ctx =>
    v <|> if ctx.isUpdate || ctx.isUpsert then actor ctx else none

end Field

end DocSchema

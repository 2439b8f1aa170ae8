-- SUMMARY: Audit fields over whole runs of a model: when documents were created, updated, written.
import DocSchema.Proofs.Stamps

/-!
# Audit fields

A run of a model leaves a log of events: which document a call created, updated
or touched by an upsert, and at what time its clock stood. The life of a document
is what the log says of its key since its creation. Where callers leave the audit
fields alone, every stored document carries the times of its own life.
-/

namespace DocSchema

namespace Model

/-! ## Runs -/

/-- A call of a model. A write has the clock, the actor and the fresh identifier of
its own call. -/
inductive Call where
  | insert (doc : Value) (bypass : Bool) (a : Ambient)
  | update (selector modifier : Value) (bypass : Bool) (a : Ambient)
  | upsert (selector modifier : Value) (bypass : Bool) (a : Ambient)
  | find (selector : Value)
  | remove (selector : Value)

/-- The store that a call leaves behind. -/
def after (m : Model) (store : Store) : Call → Store
  | .insert doc bypass a => (m.insert store doc bypass a).store
  | .update selector modifier bypass a => (m.update store selector modifier bypass false a).store
  | .upsert selector modifier bypass a => (m.upsert store selector modifier bypass a).store
  | .find _ => store
  | .remove selector => (m.remove store selector).store

inductive EventKind where
  | created
  | updated
  | touched
deriving DecidableEq

/-- What a call did to the document under a key, and when. -/
structure Event where
  key : String
  kind : EventKind
  time : Instant

/-- The event of an update or an upsert: the document that it inserted was created,
the one that it matched was what `kind` says. -/
def modified (kind : EventKind) (matched : Option String) (time : Instant)
    (outcome : UpdateOutcome) : Option Event :=
  match outcome.upsertedId with
  | some key => some ⟨key, .created, time⟩
  | none => if outcome.matched = 0 then none else matched.map fun key => ⟨key, kind, time⟩

/-- The key of the document that a selector finds first. -/
def matchedKey (m : Model) (store : Store) (selector : Value) : Option String :=
  match Collection.firstMatch selector (store.collection m.collection).documents with
  | .ok (some e) => some e.1
  | _ => none

/-- The event of a call that comes to its end. -/
def event? (m : Model) (store : Store) : Call → Option Event
  | .insert doc bypass a =>
    (m.insert store doc bypass a).result.toOption.map fun key => ⟨key, .created, a.clock.now⟩
  | .update selector modifier bypass a =>
    (m.update store selector modifier bypass false a).result.toOption.bind
      (modified .updated (m.matchedKey store selector) a.clock.now)
  | .upsert selector modifier bypass a =>
    (m.upsert store selector modifier bypass a).result.toOption.bind
      (modified .touched (m.matchedKey store selector) a.clock.now)
  | .find _ | .remove _ => none

/-- A store and the log that led to it, latest event first. -/
structure Recorded where
  store : Store
  log : List Event

def record (m : Model) (r : Recorded) (call : Call) : Recorded :=
  ⟨m.after r.store call, (m.event? r.store call).toList ++ r.log⟩

/-- A run of calls from a store. -/
def run (m : Model) (store : Store) (calls : List Call) : Recorded :=
  calls.foldl m.record ⟨store, []⟩

/-- The events of the document under a key. -/
def Recorded.past (r : Recorded) (key : String) : List Event := r.log.filter fun e => e.key = key

/-! ## Audited documents -/

/-- The document carries the times of its life, which began with `first` and went on
with `later`, latest event first. -/
structure Carries (later : List Event) (first : Event) (doc : Value) : Prop where
  created : doc.field? "createdAt" = some (.ofInstant first.time)
  written : doc.field? "lastWrittenAt" = some (.ofInstant (later.headD first).time)
  updated : doc.field? "updatedAt" =
    (later.find? fun e => e.kind = .updated).map fun e => .ofInstant e.time

/-- The document carries the times of the life that ends a past: the events since its
last creation. -/
def Audited (past : List Event) (doc : Value) : Prop :=
  ∃ later first earlier, past = later ++ first :: earlier ∧ first.kind = .created ∧
    (∀ e ∈ later, e.kind ≠ .created) ∧ Carries later first doc

def auditFields : List String := ["createdAt", "updatedAt", "lastWrittenAt"]

/-- The call passes the parser and says nothing of the audit fields. -/
def Call.Silent : Call → Prop
  | .insert doc bypass _ => bypass = false ∧ ∀ name ∈ auditFields, doc.field? name = none
  | .update _ modifier bypass _ => bypass = false ∧
    ∀ name ∈ auditFields, Modifier.Avoids modifier name
  | .upsert selector modifier bypass _ => bypass = false ∧
    ∀ name ∈ auditFields, Modifier.Avoids modifier name ∧
      ∀ e ∈ Selector.equalities selector, DotPath.rootOf e.1 ≠ name
  | .find _ | .remove _ => True

/-- The schema of a model with the audit fields. -/
structure AuditedSchema (s : UpdateSchema) : Prop where
  named : ∀ f ∈ s.base, Node.nameRule? f.1 = none
  createdAt : s.Declares "createdAt" Field.createdTimestamp
  updatedAt : s.Declares "updatedAt" Field.updatedTimestamp
  lastWrittenAt : s.Declares "lastWrittenAt" Field.lastWriteTimestamp

/-! ## Single documents -/

section Documents

variable {past : List Event} {e : Event} {current next doc : Value}

theorem Audited.of_created (created : e.kind = .created)
    (createdAt : doc.field? "createdAt" = some (.ofInstant e.time))
    (updatedAt : doc.field? "updatedAt" = none)
    (lastWrittenAt : doc.field? "lastWrittenAt" = some (.ofInstant e.time)) :
    Audited (e :: past) doc :=
  ⟨[], e, past, rfl, created, List.forall_mem_nil _, ⟨createdAt, lastWrittenAt, updatedAt⟩⟩

/-- A document lives on through an update or an upsert that matches it. -/
theorem Audited.modified (h : Audited past current) (later : e.kind ≠ .created)
    (createdAt : next.field? "createdAt" = current.field? "createdAt")
    (updatedAt : next.field? "updatedAt" =
      if e.kind = .updated then some (.ofInstant e.time) else current.field? "updatedAt")
    (lastWrittenAt : next.field? "lastWrittenAt" = some (.ofInstant e.time)) :
    Audited (e :: past) next := by
  obtain ⟨events, first, earlier, rfl, hfirst, hevents, hcarries⟩ := h
  refine ⟨e :: events, first, earlier, rfl, hfirst, List.forall_mem_cons.mpr ⟨later, hevents⟩,
    createdAt.trans hcarries.created, lastWrittenAt, ?_⟩
  rw [updatedAt, List.find?_cons]
  by_cases hkind : e.kind = .updated
  · simp [hkind]
  · simp [hkind, hcarries.updated]

end Documents

/-! ## Steps -/

/-- All stored documents are audited. -/
structure AuditedStore (m : Model) (r : Recorded) : Prop where
  sorted : Entries.Sorted (r.store.collection m.collection).documents
  audited : ∀ key doc, Entries.get? (r.store.collection m.collection).documents key = some doc →
    Audited (r.past key) doc

namespace AuditedStore

variable {m : Model} {r : Recorded}

theorem stored (h : AuditedStore m r) {store : Store} {e : Event} {doc : Value}
    (documents : (store.collection m.collection).documents =
      Entries.insert (r.store.collection m.collection).documents e.key doc)
    (audited : Audited (e :: r.past e.key) doc) : AuditedStore m ⟨store, e :: r.log⟩ := by
  refine ⟨?_, fun key other hother => ?_⟩
  · dsimp only
    rw [documents]
    exact Entries.sorted_insert h.sorted _ _
  · dsimp only at hother
    rw [documents, Entries.get?_insert] at hother
    have hpast : Recorded.past ⟨store, e :: r.log⟩ key =
        if e.key = key then e :: r.past key else r.past key := by
      simp [Recorded.past, List.filter_cons]
    rw [hpast]
    split at hother
    · next hkey =>
      cases hother
      rw [if_pos hkey, ← hkey]
      exact audited
    · next hkey =>
      rw [if_neg hkey]
      exact h.audited key other hother

/-- Documents that are left over stay audited. -/
theorem left (h : AuditedStore m r) {store : Store} {stays : String → Bool}
    (documents : (store.collection m.collection).documents =
      (r.store.collection m.collection).documents.filter fun e => stays e.1) :
    AuditedStore m ⟨store, r.log⟩ := by
  refine ⟨?_, fun key doc hdoc => ?_⟩
  · dsimp only
    rw [documents]
    exact h.sorted.sublist List.filter_sublist
  · dsimp only at hdoc
    rw [documents, Entries.get?_filter] at hdoc
    split at hdoc
    · exact h.audited key doc hdoc
    · cases hdoc

theorem kept (h : AuditedStore m r) {store : Store}
    (collection : store.collection m.collection = r.store.collection m.collection) :
    AuditedStore m ⟨store, r.log⟩ := by
  refine ⟨?_, fun key doc hdoc => ?_⟩
  · dsimp only
    rw [collection]
    exact h.sorted
  · dsimp only at hdoc
    rw [collection] at hdoc
    exact h.audited key doc hdoc

theorem insert (schema : AuditedSchema m.relaxed)
    (resolves : m.schema.ResolvesTo (.object m.relaxed.base m.relaxed.catchall))
    (h : AuditedStore m r) {doc : Value} {a : Ambient} (silent : (Call.insert doc false a).Silent) :
    AuditedStore m (m.record r (.insert doc false a)) := by
  unfold record
  simp only [after, event?]
  rcases m.insert_cases r.store a doc with
    ⟨parsed, key, c, hparsed, hinsert, hresult, hstore⟩ | ⟨⟨e, hresult⟩, hstore⟩
  · rw [hresult]
    have hparses := resolves.parses_iff.mp (Node.parseDocument_eq_ok_iff.mp hparsed)
    obtain ⟨fields, rfl⟩ := Collection.object_of_insert hinsert
    obtain ⟨-, -, -, rfl⟩ := Collection.insert_eq_ok_iff.mp hinsert
    have notUpdate : (a.context .insert).isUpdate = false := rfl
    have absent (name : String) (hname : name ∈ auditFields) : doc.field? name = none :=
      silent.2 name hname
    have hcreated := Field.createdTimestamp_absent notUpdate
      (schema.createdAt.parses_absent hparses (absent "createdAt" (by decide)))
    have hupdated := Field.updatedTimestamp_absent.mp
      (schema.updatedAt.parses_absent hparses (absent "updatedAt" (by decide)))
    have hwritten := Field.lastWriteTimestamp_absent.mp
      (schema.lastWrittenAt.parses_absent hparses (absent "lastWrittenAt" (by decide)))
    rw [notUpdate, if_neg Bool.false_ne_true] at hupdated
    have stored (name : String) (hid : name ≠ "_id") :
        (Value.object (Collection.identified fields a.fresh).1).field? name =
          (Value.object fields).field? name := Collection.get?_identified_of_ne hid _ _
    exact h.stored (e := ⟨key, .created, a.clock.now⟩) (by rw [hstore]) (.of_created rfl
      ((stored "createdAt" (by decide)).trans hcreated)
      ((stored "updatedAt" (by decide)).trans hupdated)
      ((stored "lastWrittenAt" (by decide)).trans hwritten))
  · rw [hresult]
    exact h.kept hstore

/-! ### Updates and upserts -/

section Modified

variable {modifier current next : Value} {upsert inserting : Bool} {sent : Modifier} {a : Ambient}

/-- The operation of an update or an upsert. -/
def operation (upsert : Bool) : OperationKind := if upsert then .upsert else .update

theorem lastWrittenAt_of_modified (schema : AuditedSchema m.relaxed)
    (avoids : ∀ name ∈ auditFields, Modifier.Avoids modifier name)
    (parsed : Modifier.parse m.relaxed modifier upsert (a.context (operation upsert)) = .ok sent)
    (object : current.isObject = true)
    (applied : Apply.modifier current (.object sent) inserting = .done next) :
    next.field? "lastWrittenAt" = some (.ofInstant a.clock.now) := by
  refine Modifier.field?_of_fills schema.named schema.lastWrittenAt
    (avoids "lastWrittenAt" (by decide)) parsed object applied ?_ ?_ ?_
  · rw [Field.relax_lastWriteTimestamp]
    exact Field.lastWriteTimestamp_absent.mpr rfl
  · rw [Field.relax_lastWriteTimestamp]
    exact Field.acceptsAbsent_mapped_optional
  · rintro inner default ⟨⟩

theorem updatedAt_of_updated (schema : AuditedSchema m.relaxed)
    (avoids : ∀ name ∈ auditFields, Modifier.Avoids modifier name)
    (parsed : Modifier.parse m.relaxed modifier false (a.context (operation false)) = .ok sent)
    (object : current.isObject = true)
    (applied : Apply.modifier current (.object sent) inserting = .done next) :
    next.field? "updatedAt" = some (.ofInstant a.clock.now) := by
  refine Modifier.field?_of_fills schema.named schema.updatedAt
    (avoids "updatedAt" (by decide)) parsed object applied ?_ ?_ ?_
  · rw [Field.relax_updatedTimestamp]
    exact Field.updatedTimestamp_absent.mpr rfl
  · rw [Field.relax_updatedTimestamp]
    exact Field.acceptsAbsent_mapped_optional
  · rintro inner default ⟨⟩

theorem updatedAt_of_upserted (schema : AuditedSchema m.relaxed)
    (avoids : ∀ name ∈ auditFields, Modifier.Avoids modifier name)
    (parsed : Modifier.parse m.relaxed modifier true (a.context (operation true)) = .ok sent)
    (applied : Apply.modifier current (.object sent) inserting = .done next) :
    next.field? "updatedAt" = current.field? "updatedAt" := by
  refine Modifier.field?_of_vanishes schema.named schema.updatedAt
    (avoids "updatedAt" (by decide)) parsed applied (fun r hr => ?_) ?_
  · rw [Field.relax_updatedTimestamp] at hr
    exact Field.updatedTimestamp_absent.mp hr
  · rintro - inner default ⟨⟩

theorem createdAt_of_matched (schema : AuditedSchema m.relaxed)
    (avoids : ∀ name ∈ auditFields, Modifier.Avoids modifier name)
    (parsed : Modifier.parse m.relaxed modifier upsert (a.context (operation upsert)) = .ok sent)
    (applied : Apply.modifier current (.object sent) false = .done next) :
    next.field? "createdAt" = current.field? "createdAt" :=
  Modifier.field?_of_vanishes schema.named schema.createdAt (avoids "createdAt" (by decide)) parsed
    applied (fun _ hr => Field.createdTimestamp_relax_absent.mp hr) (fun h => by cases h)

theorem createdAt_of_inserted (schema : AuditedSchema m.relaxed)
    (avoids : ∀ name ∈ auditFields, Modifier.Avoids modifier name)
    (parsed : Modifier.parse m.relaxed modifier true (a.context (operation true)) = .ok sent)
    (object : current.isObject = true)
    (applied : Apply.modifier current (.object sent) true = .done next) :
    next.field? "createdAt" = some (.ofInstant a.clock.now) :=
  Modifier.field?_of_default schema.named schema.createdAt (avoids "createdAt" (by decide)) parsed
    object applied (fun _ hr => Field.createdTimestamp_relax_absent.mp hr) rfl
    (fun _ hr => Field.createdTimestamp_default rfl hr)

theorem modify (schema : AuditedSchema m.relaxed) (h : AuditedStore m r) {selector : Value}
    (avoids : ∀ name ∈ auditFields, Modifier.Avoids modifier name)
    (seeds : upsert = true → ∀ name ∈ auditFields,
      ∀ e ∈ Selector.equalities selector, DotPath.rootOf e.1 ≠ name) :
    AuditedStore m ⟨(m.update r.store selector modifier false upsert a).store,
      ((m.update r.store selector modifier false upsert a).result.toOption.bind
        (modified (if upsert then .touched else .updated) (m.matchedKey r.store selector)
          a.clock.now)).toList ++ r.log⟩ := by
  rcases m.update_cases r.store a selector modifier upsert with
    ⟨sent, outcome, c, hsent, hupdates, hresult, hstore⟩ | ⟨⟨e, hresult⟩, hstore⟩
  · rw [hresult]
    cases hupdates with
    | @matched key current next hfound happly _ _ =>
      have hkey : m.matchedKey r.store selector = some key := by
        unfold matchedKey
        rw [hfound]
      have haudited : Audited (r.past key) current :=
        h.audited key current (Entries.get?_of_mem h.sorted.distinct
          (Collection.mem_of_firstMatch hfound))
      have hobject : current.isObject = true := by
        obtain ⟨_, _, _, -, -, -, hcarries⟩ := haudited
        cases current with
        | object => rfl
        | _ => cases hcarries.created
      rw [hkey]
      refine h.stored (e := ⟨key, if upsert then .touched else .updated, a.clock.now⟩)
        (by rw [hstore]) (haudited.modified ?_ (createdAt_of_matched schema avoids hsent happly) ?_
          (lastWrittenAt_of_modified schema avoids hsent hobject happly))
      · cases upsert <;> simp
      · cases upsert with
        | false => exact updatedAt_of_updated schema avoids hsent hobject happly
        | true => exact updatedAt_of_upserted schema avoids hsent happly
    | @inserted doc key c' _ hupsert hseeded hinsert =>
      subst hupsert
      obtain ⟨seed, hseed, happly⟩ := Edited.andThen_eq_done_iff.mp hseeded
      obtain ⟨fields, rfl⟩ := Collection.object_of_insert hinsert
      obtain ⟨-, -, -, rfl⟩ := Collection.insert_eq_ok_iff.mp hinsert
      obtain ⟨hobject, hnone⟩ := Collection.absent_of_seed hseed (seeds rfl "updatedAt" (by decide))
      have stored (name : String) (hid : name ≠ "_id") :
          (Value.object (Collection.identified fields a.fresh).1).field? name =
            (Value.object fields).field? name := Collection.get?_identified_of_ne hid _ _
      exact h.stored (e := ⟨key, .created, a.clock.now⟩) (by rw [hstore]) (.of_created rfl
        ((stored "createdAt" (by decide)).trans
          (createdAt_of_inserted schema avoids hsent hobject happly))
        ((stored "updatedAt" (by decide)).trans
          ((updatedAt_of_upserted schema avoids hsent happly).trans hnone))
        ((stored "lastWrittenAt" (by decide)).trans
          (lastWrittenAt_of_modified schema avoids hsent hobject happly)))
    | unmatched => exact h.kept hstore
  · rw [hresult]
    exact h.kept hstore

end Modified

theorem remove (h : AuditedStore m r) (selector : Value) :
    AuditedStore m (m.record r (.remove selector)) := by
  rcases Store.remove_cases r.store m.collection selector with hsame | ⟨stays, hfilter⟩
  · exact h.kept hsame
  · exact h.left (congrArg Collection.documents hfilter)

/-- A call that leaves the audit fields alone keeps all documents audited. -/
theorem step (schema : AuditedSchema m.relaxed)
    (resolves : m.schema.ResolvesTo (.object m.relaxed.base m.relaxed.catchall))
    (h : AuditedStore m r) {call : Call} (silent : call.Silent) :
    AuditedStore m (m.record r call) := by
  cases call with
  | insert doc bypass a =>
    obtain ⟨rfl, hdoc⟩ := silent
    exact h.insert schema resolves ⟨rfl, hdoc⟩
  | update selector modifier bypass a =>
    obtain ⟨rfl, avoids⟩ := silent
    exact h.modify schema avoids fun hfalse => by cases hfalse
  | upsert selector modifier bypass a =>
    obtain ⟨rfl, hfields⟩ := silent
    exact h.modify schema (fun name hname => (hfields name hname).1)
      fun _ name hname => (hfields name hname).2
  | find => exact h.kept rfl
  | remove selector => exact h.remove selector

theorem run (schema : AuditedSchema m.relaxed)
    (resolves : m.schema.ResolvesTo (.object m.relaxed.base m.relaxed.catchall))
    (h : AuditedStore m r) {calls : List Call} (silent : ∀ call ∈ calls, call.Silent) :
    AuditedStore m (calls.foldl m.record r) := by
  induction calls generalizing r with
  | nil => exact h
  | cons call rest ih =>
    obtain ⟨hcall, hrest⟩ := List.forall_mem_cons.mp silent
    exact ih (h.step schema resolves hcall) hrest

end AuditedStore

/-- Over every run of a model from a fresh store, by calls that pass the parser and
say nothing of the audit fields, each stored document carries the times of its life:
the time of the call that created it, of the last call that wrote it, and of the
last update that was no upsert, if there was one. -/
theorem stored_documents_are_audited {collection : String} {root : Node} {config : ModelConfig}
    {m : Model} {store : Store} (defined : define collection root config .empty = ⟨.ok m, store⟩)
    (createdAt : m.relaxed.Declares "createdAt" Field.createdTimestamp)
    (updatedAt : m.relaxed.Declares "updatedAt" Field.updatedTimestamp)
    (lastWrittenAt : m.relaxed.Declares "lastWrittenAt" Field.lastWriteTimestamp)
    (calls : List Call) (silent : ∀ call ∈ calls, call.Silent) (key : String) (doc : Value)
    (stored : Entries.get? ((m.run store calls).store.collection m.collection).documents key =
      some doc) : Audited ((m.run store calls).past key) doc := by
  obtain ⟨hschema, rfl⟩ : ofSchema collection root config = .ok m ∧
      store = Store.empty.setValidator collection m.validator config.settings := by
    unfold define at defined
    split at defined
    · next heq =>
      cases defined
      exact ⟨heq, rfl⟩
    · cases defined
  have resolves := Node.relaxed_eq_ok (ofSchema_eq_ok hschema).2.2
  have named : ∀ f ∈ m.relaxed.base, Node.nameRule? f.1 = none :=
    (resolves.every Node.keptByMerging_named (named_of_ofSchema hschema)).here
  have start : AuditedStore m
      ⟨Store.empty.setValidator collection m.validator config.settings, []⟩ := by
    have hempty : ((Store.empty.setValidator collection m.validator config.settings).collection
        m.collection).documents = [] := by
      by_cases h : collection = m.collection
      · rw [← h, Store.collection_setValidator]
        rfl
      · rw [Store.collection_setValidator_of_ne _ h]
        rfl
    refine ⟨?_, fun key doc hdoc => ?_⟩
    · dsimp only
      rw [hempty]
      exact List.Pairwise.nil
    · dsimp only at hdoc
      rw [hempty] at hdoc
      cases hdoc
  exact (start.run ⟨named, createdAt, updatedAt, lastWrittenAt⟩ resolves silent).audited key doc
    stored

/-! ### A journal -/

/-- Pages with the audit fields. -/
def pages : List (String × Node) :=
  [("_id", .optional Field.nonEmptyString), ("createdAt", Field.createdTimestamp),
    ("updatedAt", Field.updatedTimestamp), ("lastWrittenAt", Field.lastWriteTimestamp)]

def dateOnly : Value := .object [("bsonType", .string "date")]

def pagesValidator : Validator :=
  ⟨[("additionalProperties", .bool false), ("bsonType", .string "object"),
    ("properties", .object [("_id", nonEmptyText), ("createdAt", dateOnly),
      ("lastWrittenAt", dateOnly), ("updatedAt", dateOnly)])], []⟩

def journal : Model := ⟨"journal", .object pages none, ⟨pages, none⟩, pagesValidator, .standard⟩

/-- The journal's store with some pages. -/
def journalStore (documents : Entries Value) : Store :=
  ⟨[("journal", ⟨documents, some (pagesValidator, .standard)⟩)]⟩

def clockAt (millis : Int64) : Ambient := ⟨⟨millis⟩, none, default⟩

def stamp (millis : Int64) : Value := .ofInstant (Clock.now ⟨millis⟩)

def written : Value :=
  .object [("_id", .string "a"), ("createdAt", stamp 0), ("lastWrittenAt", stamp 0)]

def rewritten : Value :=
  .object [("_id", .string "a"), ("createdAt", stamp 0), ("lastWrittenAt", stamp 1000),
    ("updatedAt", stamp 1000)]

theorem define_journal : define "journal" (.object pages none) .standard .empty =
    ⟨.ok journal, journalStore []⟩ := by
  have hschema : ofSchema "journal" (.object pages none) .standard = .ok journal := by
    refine ofSchema_of_eq_ok "journal" rfl rfl ?_ rfl
    rw [pages, Node.compile_object, Node.rules_object]
    simp only [List.map, Node.rules, Node.acceptsAbsent, Field.createdTimestamp,
      Field.updatedTimestamp, Field.lastWriteTimestamp, Node.mapped, Node.defaultWith,
      Field.nonEmptyString]
    rfl
  unfold define
  rw [hschema]
  rfl

theorem insert_page : journal.insert (journalStore []) (.object [("_id", .string "a")]) false
    (clockAt 0) = ⟨.ok "a", journalStore [("a", written)]⟩ := by
  have hparse : (Node.object pages none).parseDocument (.object [("_id", .string "a")])
      ((clockAt 0).context .insert) = .ok written := by
    refine Node.parseDocument_eq_ok_iff.mpr (Node.parses_object_iff.mpr ⟨_, [],
      [("_id", .string "a"), ("createdAt", stamp 0), ("lastWrittenAt", stamp 0)], rfl, rfl, .nil,
      ?_, rfl⟩)
    have hdate : (stamp 0).kind = .date := by decide +kernel
    refine .keep (Node.parses_optional_some.mpr
      (Node.parses_string_iff.mpr ⟨"a", rfl, by decide, rfl⟩)) ?_
    refine .keep (Node.parses_withDefault_none.mpr (Field.parses_mapped_iff.mpr ⟨some (stamp 0),
      Node.parses_optional_some.mpr (Node.parses_date_iff.mpr ⟨_, rfl, hdate, rfl⟩), rfl⟩)) ?_
    exact .drop (Field.updatedTimestamp_absent.mpr rfl)
      (.keep (Field.lastWriteTimestamp_absent.mpr rfl) .nil)
  have hdate (location : Location) :
      Validator.check pagesValidator.matching dateOnly (stamp 0) location = .ok () := by
    rw [dateOnly, Validator.check_object]
    rfl
  have hvalid : pagesValidator.validate written = .ok () := by
    unfold Validator.validate
    rw [Validator.check_object]
    change (do
      Validator.check pagesValidator.matching nonEmptyText (.string "a") _
      Validator.check pagesValidator.matching dateOnly (stamp 0) _
      Validator.check pagesValidator.matching dateOnly (stamp 0) _
      .ok ()) = _
    rw [check_nonEmptyText, hdate, hdate]
    rfl
  exact (insert_of_insert hparse (Collection.insert_eq_ok_iff.mpr
    ⟨rfl, rfl, Collection.enforce_of_validate rfl hvalid _, rfl⟩)).trans rfl

theorem update_page : journal.update (journalStore [("a", written)]) (.string "a") (.object [])
    false false (clockAt 1000) = ⟨.ok ⟨1, 1, none⟩, journalStore [("a", rewritten)]⟩ := by
  have hparse : Modifier.parse ⟨pages, none⟩ (.object []) false
      ((clockAt 1000).context .update) =
        .ok [("$set", .object [("lastWrittenAt", stamp 1000), ("updatedAt", stamp 1000)])] := by
    refine Modifier.parse_plain_eq_ok_iff.mpr
      ⟨_, _, [("lastWrittenAt", stamp 1000), ("updatedAt", stamp 1000)], rfl, rfl, ?_, rfl⟩
    refine Modifier.parseAndFill_eq_ok_iff.mpr ⟨[], [],
      [("updatedAt", stamp 1000), ("lastWrittenAt", stamp 1000)], rfl, .nil, ?_, rfl⟩
    refine .drop (Node.parses_optional_none.mpr rfl)
      (.drop (Field.createdTimestamp_relax_absent.mpr rfl) ?_)
    exact .keep (Field.updatedTimestamp_absent.mpr rfl)
      (.keep (Field.lastWriteTimestamp_absent.mpr rfl) .nil)
  have hdate (millis : Int64) (known : millis = 0 ∨ millis = 1000) (location : Location) :
      Validator.check pagesValidator.matching dateOnly (stamp millis) location = .ok () := by
    rw [dateOnly, Validator.check_object]
    rcases known with rfl | rfl <;> rfl
  have hvalid : pagesValidator.validate rewritten = .ok () := by
    unfold Validator.validate
    rw [Validator.check_object]
    change (do
      Validator.check pagesValidator.matching nonEmptyText (.string "a") _
      Validator.check pagesValidator.matching dateOnly (stamp 0) _
      Validator.check pagesValidator.matching dateOnly (stamp 1000) _
      Validator.check pagesValidator.matching dateOnly (stamp 1000) _
      .ok ()) = _
    rw [check_nonEmptyText, hdate 0 (.inl rfl), hdate 1000 (.inr rfl), hdate 1000 (.inr rfl)]
    rfl
  have hmatch : Collection.firstMatch (.string "a") [("a", written)] =
      .ok (some ("a", written)) := by
    rw [Collection.firstMatch, Selector.selects]
    rfl
  exact (update_of_updates (m := journal) hparse (.matched hmatch rfl rfl
    (Collection.enforce_of_validate rfl hvalid _))).trans rfl

/-- A page that is inserted and then updated carries the times of both. -/
theorem page_audited : define "journal" (.object pages none) .standard .empty =
      ⟨.ok journal, journalStore []⟩ ∧
    Audited ((journal.run (journalStore []) [.insert (.object [("_id", .string "a")]) false
      (clockAt 0), .update (.string "a") (.object []) false (clockAt 1000)]).past "a")
      rewritten := by
  refine ⟨define_journal,
    stored_documents_are_audited define_journal ?_ ?_ ?_ _ ?_ "a" rewritten ?_⟩
  · exact .of_distinct (by decide) (by simp [journal, pages])
  · exact .of_distinct (by decide) (by simp [journal, pages])
  · exact .of_distinct (by decide) (by simp [journal, pages])
  · refine List.forall_mem_cons.mpr ⟨⟨rfl, ?_⟩, List.forall_mem_singleton.mpr ⟨rfl, ?_⟩⟩
    · simp [auditFields, Value.field?, Value.object?, Entries.get?]
    · intro name _ w hw
      cases hw
  · change Entries.get? ((journal.update (journal.insert (journalStore []) _ _ _).store _ _ _ _
      _).store.collection "journal").documents "a" = _
    rw [insert_page, update_page]
    rfl

end Model

end DocSchema

-- SUMMARY: When the store refuses a document that the parser of its model accepted.
import DocSchema.Proofs.Direct
import DocSchema.Proofs.ModelMap
import DocSchema.Proofs.Paths
import DocSchema.Proofs.Reparsing

/-!
# Drift between the layers

Of a schema without transforms, intersections and discriminated unions the validator
accepts what the parser gives: no value is rewritten, and no object is left as a date.
The document that is checked is another one, though. Between the two checks the store
puts an `_id` into a document that has none. So an insert is reported as drift exactly
if the schema does not admit, as an `_id`, the text that is put in.
-/

namespace DocSchema

namespace Node

variable {ctx : Context}

/-! ## Simple schemas -/

/-- A node that does not rewrite what it is given and does not look at a tag. -/
def Simple : Node → Prop
  | .transform .. | .intersection .. | .discriminated .. => False
  | _ => True

theorem keptByMerging_simple : KeptByMerging Simple := by
  refine ⟨fun n hn => ?_, fun _ _ _ _ _ _ => trivial, fun shared gs c d m _ _ => trivial⟩
  cases n with
  | transform | intersection | discriminated => cases hn
  | _ => trivial

theorem Simple.untransformed {n : Node} (h : Simple n) : Untransformed n := by
  cases n with
  | transform => exact h
  | _ => trivial

theorem Simple.sound {n : Node} (h : Simple n) : Sound ctx n := by
  cases n with
  | transform => exact h.elim
  | _ => trivial

/-! ## Scalars -/

/-- On a scalar the parser and the rules of a simple schema agree, whatever its defaults. -/
theorem agrees_scalar {n : Node} (simple : Every Simple n) (distinct : Every Distinct n)
    {v : Value} (scalar : v.isScalar = true) : Agrees ctx n v := by
  induction n using Node.inductionOn with
  | string | number | enum | literal | boolean | date | null | any | never =>
    exact agrees_leaf rfl v
  | transform | intersection | discriminated => exact simple.here.elim
  | optional inner ih => exact (ih (simple.inner rfl) (distinct.inner rfl)).optional
  | withDefault inner default ih =>
    exact (ih (simple.inner rfl) (distinct.inner rfl)).withDefault default
  | nullable inner ih => exact (ih (simple.inner rfl) (distinct.inner rfl)).nullable
  | union options ih =>
    exact agrees_union fun option hoption =>
      ih option hoption (simple.child hoption) (distinct.child hoption)
  | object fields catchall =>
    intro r h
    obtain ⟨_, _, -, -, haccepts⟩ := h.object distinct.here
    rw [haccepts, exists_congr fun _ => parses_object_iff]
    refine iff_of_false ?_ ?_
    · rintro ⟨_, _, _, _, ⟨⟩, -⟩
      cases scalar
    · rintro ⟨_, rfl, -⟩
      cases scalar
  | record value =>
    intro r h
    obtain ⟨_, -, -, haccepts⟩ := h.record
    rw [haccepts, exists_congr fun _ => parses_record_iff]
    refine iff_of_false ?_ ?_
    · rintro ⟨_, _, _, ⟨⟩, -⟩
      cases scalar
    · rintro ⟨_, rfl, -⟩
      cases scalar
  | array item =>
    intro r h
    obtain ⟨_, -, -, haccepts⟩ := h.array
    rw [haccepts, exists_congr fun _ => parses_array_iff]
    refine iff_of_false ?_ ?_
    · rintro ⟨_, _, _, ⟨⟩, -⟩
      cases scalar
    · rintro ⟨_, rfl, -⟩
      cases scalar
  | tuple items =>
    intro r h
    obtain ⟨_, -, -, haccepts⟩ := h.tuple
    rw [haccepts, exists_congr fun _ => parses_tuple_iff]
    refine iff_of_false ?_ ?_
    · rintro ⟨_, _, _, ⟨⟩, -⟩
      cases scalar
    · rintro ⟨_, rfl, -⟩
      cases scalar

/-! ## Entries that are put in -/

section Insert

variable {fields : List (String × Node)} {catchall : Option Node}

theorem Every.of_step? {P : Node → Prop} (h : Every P (object fields catchall)) {name : String}
    {n : Node} (hn : (object fields catchall).step? name = some n) : Every P n := by
  rw [step?_object] at hn
  split at hn
  · next n' hget =>
    cases hn
    exact h.of_lookup hget
  · subst hn
    exact h.catchall

/-- The rules of an object accept an entry exactly if the node under its name, or for
what is not declared, parses it. -/
theorem entryAccepted_iff {parts : List (String × Rules)} {others : Option Rules}
    (hparts : CompilesFields fields parts) (hothers : CompilesCatchall catchall others)
    {e : String × Value}
    (agrees : ∀ n, (object fields catchall).step? e.1 = some n → Agrees ctx n e.2) :
    EntryAccepted parts others e ↔
      ∃ n, (object fields catchall).step? e.1 = some n ∧ Passes ctx n e.2 := by
  rw [step?_object] at agrees ⊢
  cases hget : Entries.get? fields e.1 with
  | some n =>
    rw [hget] at agrees
    rw [entryAccepted_declared_iff hparts hget (agrees n rfl)]
    simp [Passes]
  | none =>
    rw [hget] at agrees
    rw [entryAccepted_undeclared_iff hparts hothers hget agrees]
    constructor
    · rintro ⟨r, rest, hrest, hparses⟩
      exact ⟨rest, hrest, r, hparses⟩
    · rintro ⟨rest, hrest, r, hparses⟩
      exact ⟨r, rest, hrest, hparses⟩

/-- Of an entry put into an object that is accepted, only the node for it matters. -/
theorem Compiles.accepts_insert_iff {r : Rules} (h : Compiles (.object fields catchall) r)
    (distinct : (Entries.keys fields).Nodup) {input : Entries Value} {name : String} {v : Value}
    (accepted : r.Accepts (.object input)) (hname : name ≠ dateKey)
    (agrees : ∀ n, (Node.object fields catchall).step? name = some n → Agrees ctx n v) :
    r.Accepts (.object (Entries.insert input name v)) ↔
      ∃ n, (Node.object fields catchall).step? name = some n ∧ Passes ctx n v := by
  obtain ⟨parts, others, hparts, hothers, haccepts⟩ := h.object distinct
  rw [← entryAccepted_iff (e := (name, v)) hparts hothers agrees, haccepts]
  have hmem : (name, v) ∈ Entries.insert input name v :=
    Entries.mem_of_get? (Entries.get?_insert_self input name v)
  constructor
  · rintro ⟨_, heq, -, -, hentries⟩
    cases heq
    exact hentries _ hmem
  · intro hentry
    obtain ⟨_, heq, -, hrequired, hentries⟩ := (haccepts _).mp accepted
    cases heq
    refine ⟨_, rfl, Value.kind_of_mem hmem ?_, fun f hf hpresent => ?_, fun e he => ?_⟩
    · rintro text ⟨⟩
      exact hname rfl
    · exact Entries.mem_keys_insert.mpr (.inr (hrequired f hf hpresent))
    · rcases Entries.mem_insert he with rfl | he
      · exact hentry
      · exact hentries e he

end Insert

end Node

theorem Uuid.text_ne_empty (u : Uuid) : u.text ≠ "" := by
  intro h
  have hchars := congrArg String.toList h
  simp [Uuid.text] at hchars

namespace Collection

variable {c : Collection} {name : String} {v : Validator} {settings : ValidationSettings}

theorem identified_of_absent {fields : Entries Value} (h : Entries.get? fields "_id" = none)
    (fresh : Uuid) : identified fields fresh =
      (Entries.insert fields "_id" (.string fresh.text), fresh.text) := by
  unfold identified
  rw [h]

theorem enforce_rejected_iff (attached : c.validator = some (v, settings))
    (on : settings.level ≠ .off) (name : String) (doc : Value) :
    (∃ named issue, c.enforce name doc none = .error (.documentRejected named issue)) ↔
      settings.action = .error ∧ v.isValid doc = false := by
  have hchecked : isChecked v settings.level none = true :=
    isChecked_of_valid on fun _ hnone => by cases hnone
  simp only [enforce, attached, if_pos hchecked]
  unfold Validator.isValid
  cases v.validate doc with
  | ok u => exact iff_of_false (by rintro ⟨_, _, ⟨⟩⟩) (by rintro ⟨-, ⟨⟩⟩)
  | error issue =>
    cases settings.action with
    | error => exact iff_of_true ⟨name, issue, rfl⟩ ⟨rfl, rfl⟩
    | warn => exact iff_of_false (by rintro ⟨_, _, ⟨⟩⟩) (by rintro ⟨⟨⟩, -⟩)

/-- The store refuses a new document exactly if its validator does and asks for that. -/
theorem insert_rejected_iff (attached : c.validator = some (v, settings))
    (on : settings.level ≠ .off) (fields : Entries Value) (fresh : Uuid) :
    (∃ named issue, (insert name (.object fields) fresh).run c =
        .error (.documentRejected named issue) c) ↔
      settings.action = .error ∧
        Entries.get? c.documents (identified fields fresh).2 = none ∧
        v.isValid (.object (identified fields fresh).1) = false := by
  have henforce := enforce_rejected_iff attached on name (.object (identified fields fresh).1)
  simp only [insert_eq_error_iff, reduceCtorEq, and_false, false_or, exists_and_left, henforce,
    Entries.contains_eq_false_iff]
  exact and_left_comm

end Collection

namespace Model

open Node

variable {collection : String} {root : Node} {config : ModelConfig} {m : Model} {store : Store}
  {a : Ambient} {ctx : Context} {doc : Value}

/-! ## Regular models -/

/-- A model whose schema is a simple object with distinct names that the house rules
allow, and defaults that are in order. -/
structure Regular (m : Model) (ctx : Context) : Prop where
  simple : Every Simple m.schema
  distinct : Every Distinct m.schema
  named : Every Named m.schema
  givesOrdered : Every (GivesOrdered ctx) m.schema
  compiled : m.schema.compile = .ok m.validator
  object : ∃ fields catchall, m.schema = .object fields catchall

/-- An `_id` is only added where none is declared, which keeps names distinct. -/
theorem distinct_of_ofSchema (defined : ofSchema collection root config = .ok m)
    (distinct : Every Distinct root) : Every Distinct m.schema := by
  rcases (ofSchema_eq_ok defined).2.1 with heq | hadded
  · exact heq ▸ distinct
  · obtain ⟨fields, catchall, hmerged, hschema⟩ := withIdField_eq_ok hadded
    have hobject := (mergedRoot_eq_ok hmerged).every keptByMerging_distinct distinct
    rcases hschema with ⟨-, heq⟩ | ⟨hnone, heq⟩
    · exact heq ▸ hobject
    · rw [heq]
      refine .of_object ?_ (List.forall_mem_cons.mpr ⟨every_idField trivial trivial, ?_⟩) ?_
      · exact List.nodup_cons.mpr ⟨Entries.get?_eq_none_iff.mp hnone, hobject.here⟩
      · exact fun f hf => hobject.field hf
      · rintro rest rfl
        exact hobject.catchall

theorem regular_of_ofSchema (defined : ofSchema collection root config = .ok m)
    (simple : Every Simple root) (distinct : Every Distinct root)
    (givesOrdered : Every (GivesOrdered ctx) root) : m.Regular ctx := by
  have hsimple : Every Simple m.schema := every_of_ofSchema keptByMerging_simple
    ⟨every_idField trivial trivial, fun _ _ _ => trivial⟩ defined simple
  have hordered : Every (GivesOrdered ctx) m.schema := every_of_ofSchema keptByMerging_givesOrdered
    ⟨every_idField trivial trivial, fun _ _ _ => trivial⟩ defined givesOrdered
  refine ⟨hsimple, distinct_of_ofSchema defined distinct, named_of_ofSchema defined, hordered,
    (bound_of_ofSchema defined).2.2, ?_⟩
  rcases relaxed_eq_ok (ofSchema_eq_ok defined).2.2 with heq | ⟨left, right, heq, -⟩
  · exact ⟨_, _, heq⟩
  · rw [heq] at hsimple
    exact hsimple.here.elim

/-- The schema has a place for an `_id`, declared or not, that takes the text. -/
def AdmitsId (m : Model) (ctx : Context) (id : String) : Prop :=
  ∃ n, m.schema.step? "_id" = some n ∧ Passes ctx n (.string id)

/-- A schema with an added `_id` admits all texts that are not empty. -/
theorem IdentifiedByText.admitsId {s : UpdateSchema} (identified : m.IdentifiedByText s)
    {id : String} (hne : id ≠ "") : m.AdmitsId ctx id := by
  refine ⟨.optional Field.nonEmptyString, ?_, some (.string id), ?_⟩
  · rw [identified.1, step?_object, identified.2.get?_base]
  · refine parses_optional_some.mpr (parses_string_iff.mpr ⟨id, rfl, ?_, rfl⟩)
    have hlength : id.length ≠ 0 := by simpa using hne
    simpa [StringCheck.allHold, StringCheck.holds] using Nat.one_le_iff_ne_zero.mpr hlength

namespace Regular

/-- The validator accepts what the parser gives. -/
theorem isValid_of_parsed (regular : m.Regular ctx) (ordered : doc.Ordered) {parsed : Value}
    (hparsed : m.schema.parseDocument doc ctx = .ok parsed) :
    m.validator.isValid parsed = true := by
  obtain ⟨hcompiles, hvalid⟩ := compile_eq_ok regular.compiled
  have htakes := (parseDocument_eq_ok_iff.mp hparsed).takes
    (regular.simple.imp fun _ => Simple.sound) regular.distinct fun built hbuilt =>
      hbuilt.kind_ne_date (regular.simple.imp fun _ => Simple.untransformed) regular.named
        regular.givesOrdered (by rintro _ ⟨⟩; exact ordered)
  exact (hvalid parsed).mpr (htakes _ hcompiles)

theorem object_of_parseDocument (regular : m.Regular ctx) {parsed : Value}
    (hparsed : m.schema.parseDocument doc ctx = .ok parsed) :
    ∃ fields, parsed = .object fields := by
  obtain ⟨fields, catchall, hschema⟩ := regular.object
  rw [hschema, parseDocument_eq_ok_iff] at hparsed
  obtain ⟨_, _, _, -, -, -, -, heq⟩ := parses_object_iff.mp hparsed
  exact ⟨_, Option.some.inj heq⟩

/-- The validator accepts what the parser gives with the `_id` that the store puts in
exactly if none is put in or the schema admits it. -/
theorem isValid_identified_iff (regular : m.Regular ctx) (ordered : doc.Ordered)
    {fields : Entries Value} (hparsed : m.schema.parseDocument doc ctx = .ok (.object fields))
    (fresh : Uuid) :
    m.validator.isValid (.object (Collection.identified fields fresh).1) = true ↔
      (Entries.get? fields "_id" = none → m.AdmitsId ctx fresh.text) := by
  have hvalid := regular.isValid_of_parsed ordered hparsed
  cases hid : Entries.get? fields "_id" with
  | some id =>
    rw [Collection.identified_of_get? hid]
    exact iff_of_true hvalid (by rintro ⟨⟩)
  | none =>
    rw [Collection.identified_of_absent hid, imp_iff_right rfl]
    obtain ⟨hcompiles, hvalid_iff⟩ := compile_eq_ok regular.compiled
    rw [hvalid_iff] at hvalid ⊢
    obtain ⟨declared, catchall, hschema⟩ := regular.object
    have hsimple := regular.simple
    have hdistinct := regular.distinct
    unfold AdmitsId
    rw [hschema] at hcompiles hsimple hdistinct ⊢
    -- What is put in is a scalar, on which the layers agree without a word on defaults.
    exact hcompiles.accepts_insert_iff hdistinct.here hvalid (by decide) fun n hn =>
      agrees_scalar (hsimple.of_step? hn) (hdistinct.of_step? hn) rfl

end Regular

/-! ## Drift -/

/-- An insert of the document is reported as a disagreement of the two layers. -/
def Drifts (m : Model) (store : Store) (doc : Value) (a : Ambient) : Prop :=
  ∃ e, (m.insert store doc false a).result = .error e ∧ e.isConsistencyFailure = true

/-- Drift is what a refusal by the store's validator is reported as. -/
theorem drifts_iff : m.Drifts store doc a ↔
    ∃ parsed, m.schema.parseDocument doc (a.context .insert) = .ok parsed ∧
      ∃ named issue, (Collection.insert m.collection parsed a.fresh).run
        (store.collection m.collection) =
          .error (.documentRejected named issue) (store.collection m.collection) := by
  have hparse : m.parseInsert doc false a =
      (m.schema.parseDocument doc (a.context .insert)).mapError fun issue =>
        m.rejected (.rejected issue) := rfl
  unfold Drifts insert
  rw [hparse]
  cases m.schema.parseDocument doc (a.context .insert) with
  | error issue =>
    refine iff_of_false ?_ (by rintro ⟨_, ⟨⟩, -⟩)
    rintro ⟨_, ⟨⟩, ⟨⟩⟩
  | ok parsed =>
    dsimp only [Except.mapError, Store.insertOne, Reply.mapError]
    simp only [Except.ok.injEq, exists_eq_left',
      ← Store.result_perform_eq_error_iff (Collection.traceless_insert _ _ _)]
    cases (store.perform m.collection (Collection.insert m.collection parsed a.fresh)).result with
    | ok answer => exact iff_of_false (by rintro ⟨_, ⟨⟩, -⟩) (by rintro ⟨_, _, ⟨⟩⟩)
    | error e =>
      cases e with
      | documentRejected named issue => exact iff_of_true ⟨_, rfl, rfl⟩ ⟨named, issue, rfl⟩
      | _ => exact iff_of_false (by rintro ⟨_, ⟨⟩, ⟨⟩⟩) (by rintro ⟨_, _, ⟨⟩⟩)

/-- An insert into a collection that enforces a regular model drifts exactly if the store
puts in an `_id` that is free and that the schema does not admit. -/
theorem Regular.drifts_iff (regular : m.Regular (a.context .insert))
    (attached : (store.collection m.collection).validator = some (m.validator, m.config.settings))
    (on : m.config.level ≠ .off) (ordered : doc.Ordered) :
    m.Drifts store doc a ↔ m.config.action = .error ∧
      ∃ fields, m.schema.parseDocument doc (a.context .insert) = .ok (.object fields) ∧
        Entries.get? fields "_id" = none ∧
        Entries.get? (store.collection m.collection).documents a.fresh.text = none ∧
        ¬ m.AdmitsId (a.context .insert) a.fresh.text := by
  rw [Model.drifts_iff]
  have hrejected (fields : Entries Value) :
      (∃ named issue, (Collection.insert m.collection (.object fields) a.fresh).run
        (store.collection m.collection) = .error (.documentRejected named issue) _) ↔ _ :=
    Collection.insert_rejected_iff attached on fields a.fresh
  have hinvalid {fields : Entries Value}
      (hparsed : m.schema.parseDocument doc (a.context .insert) = .ok (.object fields)) :
      m.validator.isValid (.object (Collection.identified fields a.fresh).1) = false ↔
        Entries.get? fields "_id" = none ∧ ¬ m.AdmitsId (a.context .insert) a.fresh.text := by
    rw [← Bool.not_eq_true, regular.isValid_identified_iff ordered hparsed, Classical.not_imp]
  constructor
  · rintro ⟨parsed, hparsed, hrefused⟩
    obtain ⟨fields, rfl⟩ := regular.object_of_parseDocument hparsed
    obtain ⟨hrefuses, hfree, hfails⟩ := (hrejected fields).mp hrefused
    obtain ⟨hid, hnot⟩ := (hinvalid hparsed).mp hfails
    rw [Collection.identified_of_absent hid] at hfree
    exact ⟨hrefuses, fields, hparsed, hid, hfree, hnot⟩
  · rintro ⟨hrefuses, fields, hparsed, hid, hfree, hnot⟩
    refine ⟨_, hparsed, (hrejected fields).mpr ⟨hrefuses, ?_, (hinvalid hparsed).mpr ⟨hid, hnot⟩⟩⟩
    rw [Collection.identified_of_absent hid]
    exact hfree

/-- After its definition and any calls that attach no other validator, the collection
enforces the model. -/
theorem attached_of_define {before calls : List Store.Call} {start : Store}
    (defined : define collection root config (Store.empty.run before) = ⟨.ok m, start⟩)
    (keep : ∀ call ∈ calls, ¬ call.Attaches collection) :
    ((start.run calls).collection m.collection).validator =
      some (m.validator, m.config.settings) := by
  obtain ⟨hschema, rfl⟩ := define_eq_ok_iff.mp defined
  obtain ⟨rfl, rfl, -⟩ := bound_of_ofSchema hschema
  have hstart := Store.collection_setValidator (Store.empty.run before) m.collection m.validator
    m.config.settings
  have steps := Store.steps_run (s := (Store.empty.run before).setValidator m.collection
    m.validator m.config.settings) (by rw [hstart]; exact Store.sorted_run before _) keep
  rw [Collection.validator_eq_of_steps steps, hstart]

section Histories

variable {before calls : List Store.Call} {start : Store}

/-- When an insert of a model drifts, after any calls before and since its definition:
the document that the parser gives has no `_id`, and the schema does not admit the
text that the store puts in. -/
theorem insert_drifts_iff
    (defined : define collection root config (Store.empty.run before) = ⟨.ok m, start⟩)
    (keep : ∀ call ∈ calls, ¬ call.Attaches collection)
    (simple : Every Simple root) (distinct : Every Distinct root)
    (givesOrdered : Every (GivesOrdered (a.context .insert)) root) (on : config.level ≠ .off)
    (ordered : doc.Ordered) :
    (∃ e, (m.insert (start.run calls) doc false a).result = .error e ∧
        e.isConsistencyFailure = true) ↔
      config.action = .error ∧
      ∃ fields, m.schema.parseDocument doc (a.context .insert) = .ok (.object fields) ∧
        Entries.get? fields "_id" = none ∧
        Entries.get? ((start.run calls).collection collection).documents a.fresh.text = none ∧
        ¬ m.AdmitsId (a.context .insert) a.fresh.text := by
  have attached := attached_of_define defined keep
  obtain ⟨hschema, -⟩ := define_eq_ok_iff.mp defined
  obtain ⟨rfl, rfl, -⟩ := bound_of_ofSchema hschema
  exact (regular_of_ofSchema hschema simple distinct givesOrdered).drifts_iff attached on ordered

/-- With an `_id` that was added to the schema no insert drifts. -/
theorem not_drifts_of_added
    (defined : define collection root config (Store.empty.run before) = ⟨.ok m, start⟩)
    (keep : ∀ call ∈ calls, ¬ call.Attaches collection)
    (simple : Every Simple root) (distinct : Every Distinct root)
    (givesOrdered : Every (GivesOrdered (a.context .insert)) root) (on : config.level ≠ .off)
    (added : config.addIdField = true)
    (undeclared : ∀ fields catchall, root.mergedRoot = .ok (.object fields catchall) →
      Entries.get? fields "_id" = none)
    (ordered : doc.Ordered) : ¬ m.Drifts (start.run calls) doc a := by
  have attached := attached_of_define defined keep
  obtain ⟨hschema, -⟩ := define_eq_ok_iff.mp defined
  obtain ⟨s, identified⟩ := identifiedByText_of_ofSchema hschema added undeclared
  obtain ⟨rfl, rfl, -⟩ := bound_of_ofSchema hschema
  intro hdrifts
  obtain ⟨-, _, -, -, -, hnot⟩ := ((regular_of_ofSchema hschema simple distinct
    givesOrdered).drifts_iff attached on ordered).mp hdrifts
  exact hnot (identified.admitsId a.fresh.text_ne_empty)

end Histories

/-! ### Guests without an `_id` -/

theorem every_nameOnly {P : Node → Prop} (object : P nameOnly) (string : P Field.nonEmptyString) :
    Every P nameOnly :=
  .of_object object (List.forall_mem_singleton.mpr (.of_leaf string rfl)) (by simp)

def adaByName : Value := .object [("name", .string "Ada")]

theorem ordered_adaByName : adaByName.Ordered := by
  simp [adaByName, Value.Ordered, Value.OrderedFields, Entries.Sorted]

/-- Ada gets an `_id` that the guest list has a place for. -/
theorem ada_identified_agrees :
    define "guests" nameOnly .standard (Store.empty.run []) =
      ⟨.ok (Shared.guestList .strict),
        Store.empty.setValidator "guests" Shared.guestRules .standard⟩ ∧
    ¬ ∃ e, ((Shared.guestList .strict).insert ((Store.empty.setValidator "guests"
        Shared.guestRules .standard).run []) adaByName false default).result = .error e ∧
      e.isConsistencyFailure = true := by
  have defined : define "guests" nameOnly .standard (Store.empty.run []) =
      ⟨.ok (Shared.guestList .strict),
        Store.empty.setValidator "guests" Shared.guestRules .standard⟩ := define_nameOnly
  have keep : ∀ call ∈ ([] : List Store.Call), ¬ call.Attaches "guests" := List.forall_mem_nil _
  refine ⟨defined, fun hdrifts => ?_⟩
  obtain ⟨-, _, -, -, -, hnot⟩ := (insert_drifts_iff defined keep (every_nameOnly trivial trivial)
    (every_nameOnly (by simp [Distinct, Entries.keys, nameOnly]) trivial)
    (every_nameOnly trivial trivial) ValidationLevel.noConfusion ordered_adaByName).mp hdrifts
  have identified : (Shared.guestList .strict).IdentifiedByText
      ⟨guests Field.nonEmptyString, none⟩ :=
    ⟨rfl, .of_distinct (by simp [guests, Entries.keys]) List.mem_cons_self⟩
  exact hnot (identified.admitsId (Uuid.text_ne_empty _))

/-- Guests with a name, and with a number if they bring one. -/
def numberedGuests : List (String × Node) :=
  [("_id", .optional (.number [])), ("name", Field.nonEmptyString)]

def numberedRules : Validator :=
  ⟨[("additionalProperties", .bool false), ("bsonType", .string "object"),
    ("properties", .object [("_id", .object [("bsonType", .string "number")]),
      ("name", nonEmptyText)]),
    ("required", .array [.string "name"])], []⟩

def numberedList : Model :=
  ⟨"guests", .object numberedGuests none, ⟨numberedGuests, none⟩, numberedRules, .standard⟩

theorem define_numberedList : define "guests" (.object numberedGuests none) .standard .empty =
    ⟨.ok numberedList, Store.empty.setValidator "guests" numberedRules .standard⟩ := by
  have hcompile : (Node.object numberedGuests none).compile = .ok numberedRules := by
    rw [numberedGuests, compile_object, rules_object]
    simp only [List.map, rules, acceptsAbsent, Field.nonEmptyString]
    rfl
  exact define_eq_ok_iff.mpr ⟨ofSchema_of_eq_ok "guests" rfl rfl hcompile rfl, rfl⟩

theorem every_numberedGuests {P : Node → Prop} (object : P (.object numberedGuests none))
    (optional : P (.optional (.number []))) (number : P (.number []))
    (string : P Field.nonEmptyString) : Every P (.object numberedGuests none) :=
  .of_object object (List.forall_mem_cons.mpr ⟨.of_inner optional rfl (.of_leaf number rfl),
    List.forall_mem_singleton.mpr (.of_leaf string rfl)⟩) (by simp)

/-- The text that Ada gets as her `_id` is no number: her insert drifts, although the
parser accepts her without an `_id`. -/
theorem ada_unnumbered_drifts :
    define "guests" (.object numberedGuests none) .standard .empty =
      ⟨.ok numberedList, Store.empty.setValidator "guests" numberedRules .standard⟩ ∧
    Every Simple (.object numberedGuests none) ∧ Every Distinct (.object numberedGuests none) ∧
    adaByName.Ordered ∧
    ∃ e, (numberedList.insert (Store.empty.setValidator "guests" numberedRules .standard)
        adaByName false default).result = .error e ∧ e.isConsistencyFailure = true := by
  have simple : Every Simple (.object numberedGuests none) :=
    every_numberedGuests trivial trivial trivial trivial
  have distinct : Every Distinct (.object numberedGuests none) :=
    every_numberedGuests (by simp [Distinct, Entries.keys, numberedGuests]) trivial trivial trivial
  have regular : numberedList.Regular ((default : Ambient).context .insert) :=
    regular_of_ofSchema (define_eq_ok_iff.mp define_numberedList).1 simple distinct
      (every_numberedGuests trivial trivial trivial trivial)
  have hparse : (Node.object numberedGuests none).parseDocument adaByName
      ((default : Ambient).context .insert) = .ok adaByName := by
    rw [numberedGuests, parseDocument, parser_object]
    simp only [List.map, parser, Field.nonEmptyString]
    rfl
  refine ⟨define_numberedList, simple, distinct, ordered_adaByName, ?_⟩
  refine (regular.drifts_iff rfl ValidationLevel.noConfusion ordered_adaByName).mpr
    ⟨rfl, _, hparse, rfl, rfl, ?_⟩
  rintro ⟨n, hn, r, hr⟩
  rw [numberedList, step?_object] at hn
  cases hn
  obtain ⟨_, hnumber, -⟩ := parses_number_iff.mp (parses_optional_some.mp hr)
  cases hnumber

end Model

end DocSchema

-- SUMMARY: When an upsert that inserts leaves the store that an insert leaves.
import DocSchema.Proofs.Compiles
import DocSchema.Proofs.Upsert

/-!
# Upserts and inserts of models

A model's insert and its upsert of a document that is not there take different
ways through the schema and through the store. They leave the same store exactly
if each top-level field that the modifier leaves out gets from its relaxed type,
or from the default that is remembered, what the parser of the document gives it.
Defaults below the outermost wrapper are not remembered, so that this may fail.
-/

namespace DocSchema

namespace Node

/-! ## Models -/

/-- A property that an added `_id` does not disturb. -/
structure KeptByIdField (P : Node → Prop) : Prop where
  field : Every P (.optional Field.nonEmptyString)
  object : ∀ fields catchall, P (.object fields catchall) →
    P (.object (("_id", .optional Field.nonEmptyString) :: fields) catchall)

/-- A schema with its `_id` is the object that the root resolves to, with the field put
in front if the object declares none. -/
theorem withIdField_eq_ok {root schema : Node} (h : root.withIdField = .ok schema) :
    ∃ fields catchall, root.mergedRoot = .ok (.object fields catchall) ∧
      ((∃ n, Entries.get? fields "_id" = some n) ∧ schema = .object fields catchall ∨
        Entries.get? fields "_id" = none ∧
          schema = .object (("_id", .optional Field.nonEmptyString) :: fields) catchall) := by
  unfold withIdField lookup at h
  simp only [Outcome.bind_eq_ok] at h
  obtain ⟨merged, hmerged, h⟩ := h
  split at h
  · next fields catchall =>
    refine ⟨fields, catchall, hmerged, ?_⟩
    split at h
    · next hdeclared =>
      cases h
      exact .inl ⟨Option.isSome_iff_exists.mp hdeclared, rfl⟩
    · next hundeclared =>
      cases h
      exact .inr ⟨by simpa using hundeclared, rfl⟩
  · cases h

theorem every_withIdField {P : Node → Prop} (kept : KeptByMerging P) (added : KeptByIdField P)
    {root schema : Node} (hroot : Every P root) (h : root.withIdField = .ok schema) :
    Every P schema := by
  obtain ⟨fields, catchall, hmerged, hschema⟩ := withIdField_eq_ok h
  have hevery := (mergedRoot_eq_ok hmerged).every kept hroot
  rcases hschema with ⟨-, rfl⟩ | ⟨-, rfl⟩
  · exact hevery
  · refine .of_object (added.object _ _ hevery.here)
      (List.forall_mem_cons.mpr ⟨added.field, ?_⟩) ?_
    · exact fun f hf => hevery.field hf
    · exact fun c hc => hevery.child (by simp [children, hc])

end Node

namespace Model

open Node

theorem ofSchema_eq_ok {collection : String} {root : Node} {config : ModelConfig} {model : Model}
    (defined : ofSchema collection root config = .ok model) :
    root.lint = .ok () ∧ (model.schema = root ∨ root.withIdField = .ok model.schema) ∧
      model.schema.relaxed = .ok model.relaxed := by
  unfold ofSchema at defined
  rw [Outcome.bind_eq_ok] at defined
  obtain ⟨_, hlint, defined⟩ := defined
  split at defined
  · simp only [Outcome.bind_eq_ok] at defined
    obtain ⟨schema, hschema, validator, -, relaxed, hrelaxed, heq⟩ := defined
    cases heq
    exact ⟨hlint, .inr hschema, hrelaxed⟩
  · simp only [Outcome.bind_eq_ok] at defined
    obtain ⟨schema, hschema, validator, -, relaxed, hrelaxed, heq⟩ := defined
    cases heq
    cases hschema
    exact ⟨hlint, .inl rfl, hrelaxed⟩

/-- What holds of every node of a schema holds of the schema that is enforced. -/
theorem every_of_ofSchema {P : Node → Prop} (kept : KeptByMerging P) (added : KeptByIdField P)
    {collection : String} {root : Node} {config : ModelConfig} {model : Model}
    (defined : ofSchema collection root config = .ok model) (hroot : Every P root) :
    Every P model.schema := by
  obtain ⟨-, hschema, -⟩ := ofSchema_eq_ok defined
  rcases hschema with heq | hadded
  · exact heq ▸ hroot
  · exact every_withIdField kept added hroot hadded

theorem every_idField {P : Node → Prop} (hoptional : P (.optional Field.nonEmptyString))
    (hstring : P Field.nonEmptyString) : Every P (.optional Field.nonEmptyString) :=
  .of_inner hoptional rfl (.of_leaf hstring rfl)

theorem named_of_ofSchema {collection : String} {root : Node} {config : ModelConfig} {model : Model}
    (defined : ofSchema collection root config = .ok model) : Every Named model.schema :=
  every_of_ofSchema keptByMerging_named ⟨every_idField trivial trivial, fun _ _ h =>
    List.forall_mem_cons.mpr ⟨by decide, h⟩⟩ defined (named_of_lint (ofSchema_eq_ok defined).1)

/-- A model whose schema has no transforms and no catchalls, whose defaults are the
same in every context, and whose names the house rules allow. -/
structure Static (model : Model) : Prop where
  untransformed : Every Untransformed model.schema
  closed : Every Closed model.schema
  fixed : Every Fixed model.schema
  named : Every Named model.schema
  relaxed : model.schema.ResolvesTo (.object model.relaxed.base model.relaxed.catchall)

theorem static_of_ofSchema {collection : String} {root : Node} {config : ModelConfig} {model : Model}
    (defined : ofSchema collection root config = .ok model)
    (untransformed : Every Untransformed root) (closed : Every Closed root)
    (fixed : Every Fixed root) : model.Static := by
  have every {P : Node → Prop} (kept : KeptByMerging P)
      (added : P (.optional Field.nonEmptyString) ∧ P Field.nonEmptyString)
      (object : ∀ fields catchall, P (.object fields catchall) →
        P (.object (("_id", .optional Field.nonEmptyString) :: fields) catchall))
      (hroot : Every P root) : Every P model.schema :=
    every_of_ofSchema kept ⟨every_idField added.1 added.2, object⟩ defined hroot
  exact ⟨every keptByMerging_untransformed ⟨trivial, trivial⟩ (fun _ _ h => h) untransformed,
    every keptByMerging_closed ⟨trivial, trivial⟩ (fun _ _ h => h) closed,
    every keptByMerging_fixed ⟨trivial, trivial⟩ (fun _ _ h => h) fixed,
    named_of_ofSchema defined, relaxed_eq_ok (ofSchema_eq_ok defined).2.2⟩

/-! ## Writes -/

variable {model : Model} {store : Store} {k : Value} {m : Entries Value} {key : String}
  {a b : Ambient}

theorem insert_eq_ok {doc : Value} (h : (model.insert store doc false a).result = .ok key) :
    ∃ parsed c, model.schema.parseDocument doc (a.context .insert) = .ok parsed ∧
      (Collection.insert model.collection parsed a.fresh).run
        (store.collection model.collection) = .ok key c ∧
      (model.insert store doc false a).store = store.withCollection model.collection c := by
  unfold insert at h ⊢
  split at h
  · next parsed hparsed =>
    have hparsed := Outcome.mapError_eq_ok.mp hparsed
    unfold Store.insertOne at h ⊢
    cases hc : (Collection.insert model.collection parsed a.fresh).run
        (store.collection model.collection) with
    | error e c =>
      rw [Store.perform_of_error hc] at h
      cases h
    | ok answer c =>
      rw [Store.perform_of_ok hc] at h ⊢
      cases h
      exact ⟨parsed, c, hparsed, hc, rfl⟩
  · cases h

/-- An upsert leaves a store with a new collection exactly if its modifier is
parsed and the store's update gives that collection. -/
theorem upsert_store_iff {selector modifier : Value} {c : Collection}
    (changed : c ≠ store.collection model.collection) :
    (model.upsert store selector modifier false b).store =
        store.withCollection model.collection c ↔
      ∃ sent, Modifier.parse model.relaxed modifier true (b.context .upsert) = .ok sent ∧
        ∃ outcome, (Collection.update model.collection selector (.object sent) true b.fresh).run
          (store.collection model.collection) = .ok outcome c := by
  have hget {other : Collection} : store.withCollection model.collection other =
      store.withCollection model.collection c ↔ other = c := by
    refine ⟨fun heq => ?_, fun heq => heq ▸ rfl⟩
    have := congrArg (fun s : Store => s.collection model.collection) heq
    simpa only [Store.collection_withCollection] using this
  have hunchanged {other : Store}
      (hother : other.collection model.collection = store.collection model.collection) :
      other ≠ store.withCollection model.collection c := by
    rintro rfl
    exact changed ((Store.collection_withCollection _ _ _).symm.trans hother)
  unfold upsert update parseUpdate
  simp only [checkBypass, Bool.false_and, Bool.false_eq_true, if_false, if_true]
  cases Modifier.parse model.relaxed modifier true (b.context .upsert) with
  | error e =>
    refine iff_of_false (hunchanged rfl) ?_
    rintro ⟨_, ⟨⟩, -⟩
  | ok sent =>
    have hstore : (store.perform model.collection
        (Collection.update model.collection selector (.object sent) true b.fresh)).store =
          store.withCollection model.collection c ↔
        ∃ outcome, (Collection.update model.collection selector (.object sent) true b.fresh).run
          (store.collection model.collection) = .ok outcome c := by
      cases hwork : (Collection.update model.collection selector (.object sent) true b.fresh).run
          (store.collection model.collection) with
      | error e c' =>
        rw [Store.perform_of_error hwork, Collection.traceless_update _ _ _ _ _ _ _ _ hwork]
        refine iff_of_false (hunchanged (store.collection_withCollection _ _)) ?_
        rintro ⟨_, ⟨⟩⟩
      | ok outcome c' =>
        rw [Store.perform_of_ok hwork]
        refine hget.trans ?_
        simp
    simp only [Except.ok.injEq, exists_eq_left']
    exact hstore

/-! ## Insertions -/

theorem Static.setting (static : model.Static) (distinct : (Entries.keys model.relaxed.base).Nodup)
    (ordered : Entries.Sorted m) (unidentified : Entries.get? m "_id" = none) {parsed : Value}
    {ctx ctx' : Context}
    (h : model.schema.parseDocument (.object (Entries.insert m "_id" k)) ctx = .ok parsed) :
    ∃ doc, parsed = .object doc ∧ Modifier.Setting ctx' model.relaxed k m doc := by
  have hparses : Parses ctx' model.schema (some (.object (Entries.insert m "_id" k)))
      (some parsed) :=
    (parseDocument_eq_ok_iff.mp h).of_fixed static.untransformed static.fixed
  obtain ⟨doc, rfl, hgives⟩ := gives_of_parses (static.relaxed.every keptByMerging_closed
    static.closed).here distinct (static.relaxed.parses_iff.mp hparses)
  exact ⟨doc, rfl, static.relaxed.every keptByMerging_untransformed static.untransformed,
    (static.relaxed.every keptByMerging_named static.named).here, distinct, ordered, unidentified,
    hgives⟩

/-- An upsert of a document that is not there leaves the store that its insertion
leaves exactly if each field that the modifier leaves out gets the same from both. -/
theorem upsert_store_eq_insert_store_iff {collection : String} {root : Node} {config : ModelConfig}
    (defined : ofSchema collection root config = .ok model)
    (untransformed : Every Untransformed root) (closed : Every Closed root)
    (fixed : Every Fixed root) (distinct : (Entries.keys model.relaxed.base).Nodup)
    (ordered : Entries.Sorted m) (unidentified : Entries.get? m "_id" = none)
    (inserted : (model.insert store (.object (Entries.insert m "_id" k)) false a).result = .ok key)
    (missing : store.findOne model.collection (Selector.byId k) = .ok none) :
    (model.upsert store (Selector.byId k) (.object m) false b).store =
        (model.insert store (.object (Entries.insert m "_id" k)) false a).store ↔
      ∀ f ∈ model.relaxed.base, f.1 ∉ Entries.keys m →
        ∀ r, ParsesField (b.context .upsert) (Entries.insert m "_id" k) f r →
          ∃ r', Modifier.UpsertGives (b.context .upsert) f r' ∧
            r'.or (Entries.get? (Selector.equalities (Selector.byId k)) f.1) = r := by
  obtain ⟨parsed, c, hparsed, hinsert, hstore⟩ := insert_eq_ok inserted
  have static := static_of_ofSchema defined untransformed closed fixed
  obtain ⟨doc, rfl, setting⟩ : ∃ doc, parsed = .object doc ∧
      Modifier.Setting (b.context .upsert) model.relaxed k m doc :=
    static.setting distinct ordered unidentified hparsed
  have hunmatched : Collection.firstMatch (Selector.byId k)
      (store.collection model.collection).documents = .ok none := by
    unfold Store.findOne Collection.findOne at missing
    simpa using missing
  have hfields : (∀ f ∈ model.relaxed.base, f.1 ∉ Entries.keys m →
      ∀ r, ParsesField (b.context .upsert) (Entries.insert m "_id" k) f r →
        ∃ r', Modifier.UpsertGives (b.context .upsert) f r' ∧
          r'.or (Entries.get? (Selector.equalities (Selector.byId k)) f.1) = r) ↔
      ∀ f ∈ model.relaxed.base, f.1 ∉ Entries.keys m →
        ∃ r', Modifier.UpsertGives (b.context .upsert) f r' ∧
          r'.or (Entries.get? (Selector.equalities (Selector.byId k)) f.1) =
            Entries.get? doc f.1 := by
    refine forall₃_congr fun f hf hleft => ⟨fun h => h _ (setting.gives.field f hf), ?_⟩
    rintro h r hr
    exact hr.unique (setting.gives.field f hf) ▸ h
  rw [hstore, upsert_store_iff (Collection.ne_of_insert_eq_ok hinsert), hfields]
  constructor
  · rintro ⟨sent, hsent, houtcome⟩
    exact (setting.update_eq_insert_iff hsent hunmatched hinsert).mp houtcome
  · intro h
    obtain ⟨sent, hsent⟩ := setting.exists_parse_iff.mpr fun f hf hleft => by
      obtain ⟨r, hr, -⟩ := h f hf hleft
      exact ⟨r, hr⟩
    exact ⟨sent, hsent, (setting.update_eq_insert_iff hsent hunmatched hinsert).mpr h⟩

def anonymous : Node := .withDefault Field.nonEmptyString fun _ => some (.string "anonymous")

/-- Guests with an `_id` and a name. -/
def guests (name : Node) : List (String × Node) :=
  [("_id", .optional Field.nonEmptyString), ("name", name)]

/-- A clean schema is enforced with its `_id`. -/
theorem ofSchema_of_identified (collection : String) {root schema : Node} {config : ModelConfig}
    {s : UpdateSchema} {validator : Validator} (added : config.addIdField = true)
    (clean : root.lint = .ok ()) (identified : root.withIdField = .ok schema)
    (compiled : schema.compile = .ok validator) (relaxed : schema.relaxed = .ok s) :
    ofSchema collection root config = .ok ⟨collection, schema, s, validator, config⟩ := by
  simp [ofSchema, added, clean, identified, compiled, relaxed, Outcome.bind_eq_ok]

theorem ofSchema_of_eq_ok (collection : String) {root : Node} {s : UpdateSchema}
    {validator : Validator} (clean : root.lint = .ok ()) (identified : root.withIdField = .ok root)
    (compiled : root.compile = .ok validator) (relaxed : root.relaxed = .ok s) :
    ofSchema collection root .standard = .ok ⟨collection, root, s, validator, .standard⟩ :=
  ofSchema_of_identified collection rfl clean identified compiled relaxed

theorem every_guests {P : Node → Prop} {name : Node} (object : P (.object (guests name) none))
    (optional : P (.optional Field.nonEmptyString)) (string : P Field.nonEmptyString)
    (hname : Every P name) : Every P (.object (guests name) none) :=
  .of_object object (List.forall_mem_cons.mpr ⟨.of_inner optional rfl (.of_leaf string rfl),
    List.forall_mem_singleton.mpr hname⟩) (by simp)

/-- The default of a name is remembered if it is the outermost wrapper. -/
theorem guests_upserted : ∃ model, ofSchema "guests" (.object (guests anonymous) none) .standard =
      .ok model ∧
    (model.insert .empty (.object [("_id", .string "ada")]) false default).result = .ok "ada" ∧
    (model.upsert .empty (Selector.byId (.string "ada")) (.object []) false default).store =
      (model.insert .empty (.object [("_id", .string "ada")]) false default).store := by
  have hcompile : ∃ validator, (Node.object (guests anonymous) none).compile = .ok validator := by
    rw [guests, compile_object, rules_object]
    simp only [List.map, rules, acceptsAbsent, anonymous, Field.nonEmptyString]
    exact ⟨_, rfl⟩
  obtain ⟨validator, compiled⟩ := hcompile
  have hmodel := ofSchema_of_eq_ok "guests" rfl rfl compiled rfl
  have hinsert : (insert ⟨"guests", .object (guests anonymous) none, ⟨guests anonymous, none⟩,
      validator, .standard⟩ .empty (.object [("_id", .string "ada")]) false default).result =
        .ok "ada" := by
    have hparse (ctx : Context) : (Node.object (guests anonymous) none).parseDocument
        (.object [("_id", .string "ada")]) ctx =
          .ok (.object [("_id", .string "ada"), ("name", .string "anonymous")]) := by
      rw [parseDocument, parser_object]
      simp only [List.map, guests, anonymous, parser, Field.nonEmptyString]
      rfl
    unfold insert parseInsert
    dsimp only
    rw [hparse]
    rfl
  have hstring {P : Node → Prop} (here : P anonymous) (h : P Field.nonEmptyString) :
      Every P anonymous := .of_inner here rfl (.of_leaf h rfl)
  refine ⟨_, hmodel, hinsert, (upsert_store_eq_insert_store_iff hmodel
    (every_guests trivial trivial trivial (hstring trivial trivial))
    (every_guests rfl trivial trivial (hstring trivial trivial))
    (every_guests trivial trivial trivial (hstring (fun _ _ => rfl) trivial))
    (by simp [guests, Entries.keys]) List.Pairwise.nil rfl hinsert rfl).mpr ?_⟩
  refine List.forall_mem_cons.mpr ⟨fun _ r hr => ?_, List.forall_mem_singleton.mpr fun _ r hr => ?_⟩
  · have hid : r = some (.string "ada") := (parses_optional_some.mp hr).leaf rfl
    subst hid
    exact ⟨none, .remembered (fun _ => parses_optional_none.mpr rfl) rfl, rfl⟩
  · have hname : Parses _ Field.nonEmptyString (some (.string "anonymous")) r :=
      parses_withDefault_none.mp hr
    exact ⟨r, .remembered (fun h => by cases h) hname, by cases r <;> rfl⟩

/-- A default inside a nullable name is not remembered, and the name is missing. -/
theorem nullableName_missing : ∃ model,
    ofSchema "guests" (.object (guests (.nullable anonymous)) none) .standard = .ok model ∧
    Every Untransformed (.object (guests (.nullable anonymous)) none) ∧
    Every Closed (.object (guests (.nullable anonymous)) none) ∧
    Every Fixed (.object (guests (.nullable anonymous)) none) ∧
    (model.insert .empty (.object [("_id", .string "ada")]) false default).result = .ok "ada" ∧
    Store.empty.findOne model.collection (Selector.byId (.string "ada")) = .ok none ∧
    (model.upsert .empty (Selector.byId (.string "ada")) (.object []) false default).store ≠
      (model.insert .empty (.object [("_id", .string "ada")]) false default).store := by
  have hcompile : ∃ validator,
      (Node.object (guests (.nullable anonymous)) none).compile = .ok validator := by
    rw [guests, compile_object, rules_object]
    simp only [List.map, rules, acceptsAbsent, anonymous, Field.nonEmptyString]
    exact ⟨_, rfl⟩
  obtain ⟨validator, compiled⟩ := hcompile
  have hmodel := ofSchema_of_eq_ok "guests" rfl rfl compiled rfl
  have hname {P : Node → Prop} (nullable : P (.nullable anonymous)) (here : P anonymous)
      (string : P Field.nonEmptyString) : Every P (.nullable anonymous) :=
    .of_inner nullable rfl (.of_inner here rfl (.of_leaf string rfl))
  have hparse (ctx : Context) : (Node.object (guests (.nullable anonymous)) none).parseDocument
      (.object [("_id", .string "ada")]) ctx =
        .ok (.object [("_id", .string "ada"), ("name", .string "anonymous")]) := by
    rw [parseDocument, parser_object]
    simp only [List.map, guests, anonymous, parser, Field.nonEmptyString]
    rfl
  have hsent (ctx : Context) : Modifier.parse ⟨guests (.nullable anonymous), none⟩ (.object [])
      true ctx = .ok [] := by
    refine (Modifier.parse_upsert_eq_ok_iff rfl).mpr ⟨[], [], ?_, rfl, rfl⟩
    refine Modifier.parseAndFill_eq_ok_iff.mpr ⟨[], [], [], rfl, .nil, ?_, rfl⟩
    exact .drop (parses_optional_none.mpr rfl) .nil
  have hinsert : insert ⟨"guests", .object (guests (.nullable anonymous)) none,
      ⟨guests (.nullable anonymous), none⟩, validator, .standard⟩ .empty
      (.object [("_id", .string "ada")]) false default = ⟨.ok "ada", ⟨[("guests", ⟨[("ada",
        .object [("_id", .string "ada"), ("name", .string "anonymous")])], none⟩)]⟩⟩ := by
    unfold insert parseInsert
    dsimp only
    rw [hparse]
    rfl
  have hupsert : upsert ⟨"guests", .object (guests (.nullable anonymous)) none,
      ⟨guests (.nullable anonymous), none⟩, validator, .standard⟩ .empty
      (Selector.byId (.string "ada")) (.object []) false default = ⟨.ok ⟨0, 0, some "ada"⟩,
        ⟨[("guests", ⟨[("ada", .object [("_id", .string "ada")])], none⟩)]⟩⟩ := by
    unfold upsert update parseUpdate
    dsimp only
    rw [hsent]
    rfl
  refine ⟨_, hmodel, every_guests trivial trivial trivial (hname trivial trivial trivial),
    every_guests rfl trivial trivial (hname trivial trivial trivial),
    every_guests trivial trivial trivial (hname trivial (fun _ _ => rfl) trivial), ?_, rfl, ?_⟩
  · rw [hinsert]
  · rw [hinsert, hupsert]
    simp

end Model

end DocSchema

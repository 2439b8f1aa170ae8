-- SUMMARY: Selectors that ask for values only, and upserts that insert what they select.
import DocSchema.Proofs.Seeding
import DocSchema.Proofs.Selection

/-!
# Equality selectors

A selector made only of equality clauses is read in two ways: matching looks the values
up in a document, and an upsert puts them into a new one. Both go by the same list of
paths and values. A document that carries the values is selected; the seed of an upsert
carries them if the paths do not get in each other's way, and a modifier that stays away
from the paths leaves them in place. So once an upsert has inserted a document, the same
upsert finds it for ever.
-/

namespace DocSchema

open Value (Carries)

namespace Selector

variable {selector doc v : Value} {key : String} {selectors : List Value}
  {rest : List (String × Value)} {es more : List (String × Value)}

/-! ## What a selector asks for -/

/-- The selector is made only of equality clauses, and asks for these values at these paths. -/
inductive Asks : Value → List (String × Value) → Prop where
  | id (id : String) : Asks (.string id) [("_id", .string id)]
  | nil : Asks (.object []) []
  | field {key : String} {v : Value} {rest es : List (String × Value)} :
    DotPath.isOperator key = false → isOperators v = false → Asks (.object rest) es →
      Asks (.object ((key, v) :: rest)) ((key, v) :: es)
  | eq {key : String} {v : Value} {rest es : List (String × Value)} :
    DotPath.isOperator key = false → Asks (.object rest) es →
      Asks (.object ((key, .object [("$eq", v)]) :: rest)) ((key, v) :: es)
  | allNil {rest es : List (String × Value)} :
    Asks (.object rest) es → Asks (.object (("$and", .array []) :: rest)) es
  | allCons {selector : Value} {selectors : List Value} {rest es more : List (String × Value)} :
    Asks selector es → Asks (.object (("$and", .array selectors) :: rest)) more →
      Asks (.object (("$and", .array (selector :: selectors)) :: rest)) (es ++ more)

/-- The values that a selector asks for are at paths of names that are pairwise apart. -/
structure Fixes (selector : Value) (es : List (String × Value)) : Prop where
  asks : Asks selector es
  named : ∀ e ∈ es, DotPath.Named e.1
  apart : es.Pairwise fun a b => DotPath.Apart a.1 b.1

theorem ne_logical_of_field (h : DotPath.isOperator key = false) : key ≠ "$and" ∧ key ≠ "$or" := by
  constructor <;> rintro rfl <;> cases h

/-! ## Reading it for a new document -/

theorem clauseEqualities_of_field (h : DotPath.isOperator key = false) :
    clauseEqualities ((key, v) :: rest) =
      (if isOperators v then ((v.field? "$eq").map fun w => (key, w)).toList else [(key, v)]) ++
        clauseEqualities rest := by
  rw [clauseEqualities, if_neg (ne_logical_of_field h).1, h, if_neg Bool.false_ne_true]
  cases v.field? "$eq" <;> rfl

theorem isOperators_single {operator : String} (hoperator : DotPath.isOperator operator = true)
    (undated : operator ≠ dateKey) (v : Value) :
    isOperators (.object [(operator, v)]) = true := by
  have hinstant : (Value.object [(operator, v)]).instant? = none := by
    cases v <;> simp [Value.instant?, undated]
  simp [isOperators, hoperator, hinstant]

theorem isOperators_eq (v : Value) : isOperators (.object [("$eq", v)]) = true :=
  isOperators_single (by decide) (by decide) v

/-- The fields that an equality selector fixes are all that it asks for. -/
theorem Asks.equalities (h : Asks selector es) : equalities selector = es := by
  induction h with
  | id => rw [Selector.equalities]
  | nil => rw [Selector.equalities, clauseEqualities]
  | field hkey hv _ ih =>
    rw [Selector.equalities] at ih ⊢
    rw [clauseEqualities_of_field hkey, hv, ih]
    rfl
  | eq hkey _ ih =>
    rw [Selector.equalities] at ih ⊢
    rw [clauseEqualities_of_field hkey, isOperators_eq, ih]
    rfl
  | allNil _ ih =>
    rw [Selector.equalities] at ih ⊢
    rw [clauseEqualities, if_pos rfl, listEqualities, itemEqualities, ih]
    rfl
  | allCons _ _ ih ihmore =>
    rw [Selector.equalities, clauseEqualities, if_pos rfl, listEqualities] at ihmore ⊢
    rw [itemEqualities, ih, List.append_assoc, ihmore]

/-! ## Reading it against a document -/

theorem selects_of_field (h : DotPath.isOperator key = false)
    (met : meets (doc.lookup? key) v = .ok true) :
    selects (.object ((key, v) :: rest)) doc = selects (.object rest) doc := by
  obtain ⟨hand, hor⟩ := ne_logical_of_field h
  rw [selects, selects, meetsClauses, if_neg hand, if_neg hor, h, if_neg Bool.false_ne_true, met]
  rfl

theorem selects_all_nil : selects (.object (("$and", .array []) :: rest)) doc =
    selects (.object rest) doc := by
  rw [selects, selects, meetsClauses, if_pos rfl, meetsAll, results]
  rfl

/-- One more selector in the list is no obstacle if it selects the document. -/
theorem selects_all_cons (hfirst : selects selector doc = .ok true) :
    selects (.object (("$and", .array (selector :: selectors)) :: rest)) doc =
      selects (.object (("$and", .array selectors) :: rest)) doc := by
  rw [selects, selects, meetsClauses, meetsClauses, if_pos rfl, if_pos rfl, meetsAll, meetsAll,
    results, hfirst]
  cases results selectors doc <;> rfl

theorem equals_self (v : Value) : equals (some v) v = true :=
  Bool.or_eq_true_iff.mpr (.inl v.alike_refl)

theorem meets_of_plain (h : isOperators v = false) : meets (some v) v = .ok true := by
  unfold meets
  split
  · rw [h, if_neg Bool.false_ne_true, equals_self]
  · rw [equals_self]

theorem meets_eq (v : Value) : meets (some v) (.object [("$eq", v)]) = .ok true := by
  have heq : meetsOperator (some v) "$eq" v = .ok true := congrArg Except.ok (equals_self v)
  unfold meets
  dsimp only
  rw [isOperators_eq, if_pos rfl, meetsOperators, heq]
  rfl

/-- A document that carries the values is selected. -/
theorem Asks.selects (h : Asks selector es) (carries : Carries es doc) :
    selects selector doc = .ok true := by
  have lookup {key : String} {v : Value} {es : List (String × Value)}
      (carries : Carries ((key, v) :: es) doc) : doc.lookup? key = some v :=
    (carries (key, v) List.mem_cons_self).walk?
  induction h with
  | id id =>
    have hsegments : DotPath.segments "_id" = ["_id"] := by decide
    have hid := carries ("_id", .string id) List.mem_cons_self
    rw [hsegments] at hid
    cases hid with
    | field hchild hrest =>
      cases hrest
      rw [Selector.selects, Value.field?, Value.object?, Option.bind_some, hchild,
        Option.bind_some, Value.string?, beq_self_eq_true]
  | nil => rw [Selector.selects, meetsClauses]
  | field hkey hv _ ih =>
    rw [selects_of_field hkey (lookup carries ▸ meets_of_plain hv)]
    exact ih (List.forall_mem_cons.mp carries).2
  | eq hkey _ ih =>
    rw [selects_of_field hkey (lookup carries ▸ meets_eq _)]
    exact ih (List.forall_mem_cons.mp carries).2
  | allNil _ ih =>
    rw [selects_all_nil]
    exact ih carries
  | allCons _ _ ih ihmore =>
    obtain ⟨hes, hmore⟩ := List.forall_mem_append.mp carries
    rw [selects_all_cons (ih hes)]
    exact ihmore hmore

end Selector

/-! ## Modifiers that stay away from the values -/

/-- No path or target of the modifier leads to the path of a value or beyond, or begins it. -/
def Modifier.Spares (modifier : Value) (es : List (String × Value)) : Prop :=
  ∀ m, modifier = .object m → ∀ w ∈ Modifier.writes m, ∀ p ∈ w.paths, ∀ e ∈ es,
    DotPath.Apart p e.1

theorem Value.Carries.modified {es : List (String × Value)} {doc modifier after : Value}
    {inserting : Bool} (h : Carries es doc) (spares : Modifier.Spares modifier es)
    (applied : Apply.modifier doc modifier inserting = .done after) : Carries es after := by
  cases modifier with
  | object m => exact h.writes (spares m rfl) (Apply.writes_of_operators applied)
  | _ => cases applied

namespace Collection

variable {c c' : Collection} {name key : String} {selector modifier doc : Value} {upsert : Bool}
  {fresh : Uuid} {outcome : UpdateOutcome} {es : List (String × Value)}

/-! ## The inserted document -/

/-- A new document starts with all values that the selector asks for. -/
theorem seed_of_fixes (fixes : Selector.Fixes selector es) :
    ∃ doc, seed selector = .done doc ∧ Carries es doc := by
  rw [seed_eq_writes, fixes.asks.equalities]
  exact Value.carries_of_sets fixes.named fixes.apart fun e _ => Value.open_empty _

/-- Under the key stands a document that carries the values. -/
def CarriedAt (documents : Entries Value) (key : String) (es : List (String × Value)) : Prop :=
  ∃ doc, Entries.get? documents key = some doc ∧ Carries es doc

theorem carriedAt_of_insert (fixes : Selector.Fixes selector es)
    (spares : Modifier.Spares modifier es) (seeded : seeded selector modifier = .done doc)
    (inserted : (insert name doc fresh).run c = .ok key c') : CarriedAt c'.documents key es := by
  obtain ⟨start, hstart, hcarries⟩ := seed_of_fixes fixes
  rw [Collection.seeded, hstart] at seeded
  obtain ⟨fields, rfl⟩ := object_of_insert inserted
  obtain ⟨rfl, -, -, rfl⟩ := insert_eq_ok_iff.mp inserted
  exact ⟨_, Entries.get?_insert_self _ _ _, (hcarries.modified spares seeded).identified fresh⟩

/-! ## Further updates -/

/-- The first match is found if there is any. -/
theorem firstMatch_ne_none {documents : Entries Value} (hmem : (key, doc) ∈ documents)
    (selected : Selector.selects selector doc = .ok true) :
    firstMatch selector documents ≠ .ok none := by
  induction documents with
  | nil => cases hmem
  | cons e rest ih =>
    obtain ⟨other, before⟩ := e
    intro hnone
    rw [firstMatch, Outcome.bind_eq_ok] at hnone
    obtain ⟨found, hfound, hnone⟩ := hnone
    cases found with
    | true => cases hnone
    | false =>
      rcases List.mem_cons.mp hmem with heq | hmem
      · cases heq
        cases hfound.symm.trans selected
      · exact ih hmem hnone

/-- An update by a selector whose values some document carries is a match, and leaves
the values with that document. -/
theorem Updates.carriedAt (h : Updates c name selector modifier upsert fresh outcome c')
    (sorted : Entries.Sorted c.documents) (asks : Selector.Asks selector es)
    (spares : Modifier.Spares modifier es) (carried : CarriedAt c.documents key es) :
    outcome.matched = 1 ∧ outcome.upsertedId = none ∧
      Entries.keys c'.documents = Entries.keys c.documents ∧ CarriedAt c'.documents key es := by
  obtain ⟨doc, hdoc, hcarries⟩ := carried
  have hsome : firstMatch selector c.documents ≠ .ok none :=
    firstMatch_ne_none (Entries.mem_of_get? hdoc) (asks.selects hcarries)
  cases h with
  | @matched found current next hfound hnext _ _ =>
    have hmem := mem_of_firstMatch hfound
    refine ⟨rfl, rfl, Entries.keys_insert_of_mem sorted (Entries.mem_keys_of_mem hmem) next, ?_⟩
    by_cases hkey : found = key
    · subst hkey
      cases hdoc.symm.trans (Entries.get?_of_mem sorted.distinct hmem)
      exact ⟨next, Entries.get?_insert_self _ _ _, hcarries.modified spares hnext⟩
    · exact ⟨doc, (Entries.get?_insert_of_ne hkey _ _).trans hdoc, hcarries⟩
  | inserted hnone _ _ _ => exact (hsome hnone).elim
  | unmatched hnone _ => exact (hsome hnone).elim

end Collection

namespace Store

variable {s : Store} {name key : String} {selector modifier : Value} {upsert : Bool} {fresh : Uuid}
  {outcome : UpdateOutcome} {es : List (String × Value)}

/-! ## Repeated upserts -/

/-- What holds of a collection after an upsert has inserted a document under the key. -/
structure Settled (s : Store) (name key : String) (es : List (String × Value))
    (keys : List String) : Prop where
  sorted : Entries.Sorted (s.documents name)
  keys : Entries.keys (s.documents name) = keys
  carried : Collection.CarriedAt (s.documents name) key es

variable {keys : List String}

/-- The same update leaves a collection settled, whether it fails or not. -/
theorem Settled.again (h : s.Settled name key es keys) (asks : Selector.Asks selector es)
    (spares : Modifier.Spares modifier es) (fresh : Uuid) :
    (s.after (.updateOne name selector modifier upsert fresh)).Settled name key es keys := by
  have hsorted : Entries.Sorted
      ((s.after (.updateOne name selector modifier upsert fresh)).documents name) :=
    sorted_after h.sorted
  rcases s.updateOne_cases name selector modifier upsert fresh with
    ⟨outcome, c, hupdates, -, hdocuments⟩ | ⟨-, hdocuments⟩
  · obtain ⟨-, -, hkeys, hcarried⟩ := hupdates.carriedAt h.sorted asks spares h.carried
    rw [← hdocuments] at hkeys hcarried
    exact ⟨hsorted, hkeys.trans h.keys, hcarried⟩
  · have hkeys := h.keys
    have hcarried := h.carried
    rw [← hdocuments] at hkeys hcarried
    exact ⟨hsorted, hkeys, hcarried⟩

/-- The same upsert, called once with each of the identifiers. -/
def repeated (s : Store) (name : String) (selector modifier : Value) (freshes : List Uuid) :
    Store :=
  s.run (freshes.map fun fresh => .updateOne name selector modifier true fresh)

theorem Settled.repeated (h : s.Settled name key es keys) (asks : Selector.Asks selector es)
    (spares : Modifier.Spares modifier es) (freshes : List Uuid) :
    (s.repeated name selector modifier freshes).Settled name key es keys := by
  induction freshes generalizing s with
  | nil => exact h
  | cons fresh rest ih => exact ih (h.again asks spares fresh)

theorem settled_of_inserted {after : Store} (sorted : Entries.Sorted (s.documents name))
    (fixes : Selector.Fixes selector es) (spares : Modifier.Spares modifier es)
    (updated : s.updateOne name selector modifier true fresh = ⟨.ok outcome, after⟩)
    (inserted : outcome.upsertedId = some key) :
    after.Settled name key es (Entries.keys (after.documents name)) := by
  have hafter : Entries.Sorted ((s.after (.updateOne name selector modifier true fresh)).documents
      name) := sorted_after sorted
  rw [Store.after, updated] at hafter
  refine ⟨hafter, rfl, ?_⟩
  have hcases := s.updateOne_cases name selector modifier true fresh
  rw [updated] at hcases
  rcases hcases with ⟨answer, c, hupdates, hresult, hdocuments⟩ | ⟨⟨e, hresult⟩, -⟩
  · cases hresult
    rw [hdocuments]
    cases hupdates with
    | inserted _ _ hseeded hinsert =>
      cases inserted
      exact Collection.carriedAt_of_insert fixes spares hseeded hinsert
    | _ => cases inserted
  · cases hresult

/-- The selector selects the document under the key. -/
def SelectsAt (s : Store) (name : String) (selector : Value) (key : String) : Prop :=
  ∃ doc, Entries.get? (s.documents name) key = some doc ∧ Selector.selects selector doc = .ok true

theorem Settled.selectsAt (h : s.Settled name key es keys) (asks : Selector.Asks selector es) :
    s.SelectsAt name selector key := by
  obtain ⟨doc, hdoc, hcarries⟩ := h.carried
  exact ⟨doc, hdoc, asks.selects hcarries⟩

/-- The seed of an upsert by equalities can be made and is selected. A document that the
upsert inserts is selected, and stays so, however often the same upsert is called again:
every further call that comes to its end takes a document that is there. -/
theorem upsert_inserts_once (fixes : Selector.Fixes selector es)
    (spares : Modifier.Spares modifier es) :
    (∃ doc, Collection.seed selector = .done doc ∧ Selector.selects selector doc = .ok true) ∧
    ∀ (s after : Store) (name : String) (fresh : Uuid) (outcome : UpdateOutcome) (key : String),
      Entries.Sorted (s.documents name) →
      s.updateOne name selector modifier true fresh = ⟨.ok outcome, after⟩ →
      outcome.upsertedId = some key →
      after.SelectsAt name selector key ∧
      ∀ freshes later, after.repeated name selector modifier freshes = later →
        later.SelectsAt name selector key ∧
        Entries.keys (later.documents name) = Entries.keys (after.documents name) ∧
        ∀ fresh outcome, (later.updateOne name selector modifier true fresh).result = .ok outcome →
          outcome.matched = 1 ∧ outcome.upsertedId = none := by
  obtain ⟨start, hstart, hcarries⟩ := Collection.seed_of_fixes fixes
  refine ⟨⟨start, hstart, fixes.asks.selects hcarries⟩, ?_⟩
  intro s after name fresh outcome key sorted updated inserted
  have settled := settled_of_inserted sorted fixes spares updated inserted
  refine ⟨settled.selectsAt fixes.asks, ?_⟩
  rintro freshes _ rfl
  have hlater := settled.repeated fixes.asks spares freshes
  refine ⟨hlater.selectsAt fixes.asks, hlater.keys, fun fresh outcome hresult => ?_⟩
  rcases updateOne_cases _ name selector modifier true fresh with
    ⟨answer, c, hupdates, hanswer, -⟩ | ⟨⟨e, herror⟩, -⟩
  · cases hanswer.symm.trans hresult
    obtain ⟨hmatched, hnone, -, -⟩ :=
      hupdates.carriedAt hlater.sorted fixes.asks spares hlater.carried
    exact ⟨hmatched, hnone⟩
  · cases herror.symm.trans hresult

/-- A selector with clauses of each form. -/
def adaInLondon : Value := .object [("$and", .array [.object [("age", .int 36)]]),
  ("city", .string "London"), ("name.first", .object [("$eq", .string "Ada")])]

/-- A modifier that writes next to what the selector asks for. -/
def adaVisits : Value := .object [("$inc", .object [("visits", .int 1)]),
  ("$set", .object [("name.last", .string "Lovelace")])]

theorem ada_inserted_once : ∃ after,
    empty.updateOne "guests" adaInLondon adaVisits true default =
      ⟨.ok ⟨0, 0, some (default : Uuid).text⟩, after⟩ ∧
    after.SelectsAt "guests" adaInLondon (default : Uuid).text ∧
    ∀ freshes, Entries.keys ((after.repeated "guests" adaInLondon adaVisits freshes).documents
      "guests") = [(default : Uuid).text] := by
  have hfixes : Selector.Fixes adaInLondon
      [("age", .int 36), ("city", .string "London"), ("name.first", .string "Ada")] := by
    have hage : DotPath.isOperator "age" = false := by decide
    have hcity : DotPath.isOperator "city" = false := by decide
    have hname : DotPath.isOperator "name.first" = false := by decide
    refine ⟨?_, by decide, by decide⟩
    exact .allCons (.field hage rfl .nil) (.allNil (.field hcity rfl (.eq hname .nil)))
  have hspares : Modifier.Spares adaVisits
      [("age", .int 36), ("city", .string "London"), ("name.first", .string "Ada")] := by
    rintro _ ⟨⟩
    decide
  have hseeded : Collection.seeded adaInLondon adaVisits = .done (.object [("age", .int 36),
      ("city", .string "London"),
      ("name", .object [("first", .string "Ada"), ("last", .string "Lovelace")]),
      ("visits", .int 1)]) := by
    unfold Collection.seeded Collection.seed
    rw [hfixes.asks.equalities]
    rfl
  have hupdated : empty.updateOne "guests" adaInLondon adaVisits true default =
      ⟨.ok ⟨0, 0, some (default : Uuid).text⟩, ⟨[("guests", ⟨[((default : Uuid).text, .object [
        ("_id", .string (default : Uuid).text), ("age", .int 36), ("city", .string "London"),
        ("name", .object [("first", .string "Ada"), ("last", .string "Lovelace")]),
        ("visits", .int 1)])], none⟩)]⟩⟩ := by
    have hupdate : (Collection.update "guests" adaInLondon adaVisits true default).run
        (empty.collection "guests") = .ok ⟨0, 0, some (default : Uuid).text⟩ _ :=
      Collection.update_eq_ok_iff.mpr (.inserted rfl rfl hseeded rfl)
    rw [updateOne, perform_of_ok hupdate]
    rfl
  obtain ⟨-, hinserts⟩ := upsert_inserts_once hfixes hspares
  obtain ⟨hselects, hrepeated⟩ := hinserts empty _ "guests" _ _ _ List.Pairwise.nil hupdated rfl
  exact ⟨_, hupdated, hselects, fun freshes => (hrepeated freshes _ rfl).2.1⟩

end Store

end DocSchema

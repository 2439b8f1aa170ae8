-- SUMMARY: All operations of a store agree on the documents that a selector selects.
import DocSchema.Proofs.Identity

/-!
# Selection

Finding all documents, finding one, updating one and removing go through a collection
each in its own way, and only finding all and removing read the selector against every
document. Where that succeeds, the documents found are those of a filter, the first of
them is the one that is found alone and that an update takes, and those that are left
after a removal are the others.
-/

namespace DocSchema

namespace Collection

variable {selector : Value} {documents found : Entries Value} {c c' : Collection}

/-! ## The documents that a selector selects -/

/-- The selector can be read against the document, and selects it. -/
def picks (selector doc : Value) : Bool :=
  match Selector.selects selector doc with
  | .ok selected => selected
  | .error _ => false

theorem picks_of_selects {doc : Value} {b : Bool} (h : Selector.selects selector doc = .ok b) :
    picks selector doc = b := by
  rw [picks, h]

theorem selects_of_readable {doc : Value} (h : (Selector.selects selector doc).isOk = true) :
    Selector.selects selector doc = .ok (picks selector doc) := by
  obtain ⟨b, hb⟩ := Outcome.isOk_iff.mp h
  rw [picks_of_selects hb, hb]

/-- All documents that are selected are found if the selector can be read against every one. -/
theorem matching_eq_ok_iff : matching selector documents = .ok found ↔
    (∀ e ∈ documents, (Selector.selects selector e.2).isOk = true) ∧
      found = documents.filter fun e => picks selector e.2 := by
  induction documents generalizing found with
  | nil => exact ⟨fun h => ⟨List.forall_mem_nil _, (Except.ok.inj h).symm⟩, fun h => by rw [h.2]; rfl⟩
  | cons e rest ih =>
    obtain ⟨key, doc⟩ := e
    simp only [matching, Outcome.bind_eq_ok, ih, List.forall_mem_cons, List.filter_cons]
    constructor
    · rintro ⟨selected, hselected, others, ⟨hrest, rfl⟩, heq⟩
      rw [picks_of_selects hselected]
      exact ⟨⟨Outcome.isOk_iff.mpr ⟨_, hselected⟩, hrest⟩, (Except.ok.inj heq).symm⟩
    · rintro ⟨⟨hdoc, hrest⟩, rfl⟩
      exact ⟨_, selects_of_readable hdoc, _, ⟨hrest, rfl⟩, rfl⟩

/-- The first match is the first of the documents that are found. -/
theorem firstMatch_of_matching (h : matching selector documents = .ok found) :
    firstMatch selector documents = .ok found.head? := by
  obtain ⟨hreadable, rfl⟩ := matching_eq_ok_iff.mp h
  clear h
  induction documents with
  | nil => rfl
  | cons e rest ih =>
    obtain ⟨key, doc⟩ := e
    obtain ⟨hdoc, hrest⟩ := List.forall_mem_cons.mp hreadable
    have hselects : Selector.selects selector doc = .ok (picks selector doc) :=
      selects_of_readable hdoc
    rw [firstMatch, hselects, List.filter_cons]
    cases picks selector doc with
    | true => rfl
    | false => exact ih hrest

/-- A document is among those found by its content alone. -/
theorem mem_values_of_matching (h : matching selector documents = .ok found) {key : String}
    {doc : Value} (hmem : (key, doc) ∈ documents) :
    doc ∈ Entries.values found ↔ picks selector doc = true := by
  obtain ⟨-, rfl⟩ := matching_eq_ok_iff.mp h
  constructor
  · intro hdoc
    obtain ⟨e, he, rfl⟩ := List.mem_map.mp hdoc
    exact (List.mem_filter.mp he).2
  · exact fun hpicks => List.mem_map.mpr ⟨(key, doc), List.mem_filter.mpr ⟨hmem, hpicks⟩, rfl⟩

/-! ## Removal -/

/-- What is left are the documents that were not found. -/
theorem remove_of_matching (sorted : Entries.Sorted c.documents)
    (h : matching selector c.documents = .ok found) :
    (remove selector).run c = .ok found.length
      { c with documents := c.documents.filter fun e => !picks selector e.2 } := by
  have hleft : (c.documents.filter fun e => !Entries.contains found e.1) =
      c.documents.filter fun e => !picks selector e.2 := by
    refine List.filter_congr fun e he => congrArg not (Bool.eq_iff_iff.mpr ?_)
    rw [Entries.contains_iff]
    obtain ⟨-, rfl⟩ := matching_eq_ok_iff.mp h
    constructor
    · intro hkey
      obtain ⟨e', he', hname⟩ := List.mem_map.mp hkey
      obtain ⟨hmem, hpicks⟩ := List.mem_filter.mp he'
      rwa [Entries.eq_of_mem sorted.distinct he e' hmem hname] at hpicks
    · exact fun hpicks => Entries.mem_keys_of_mem (List.mem_filter.mpr ⟨he, hpicks⟩)
  exact remove_eq_ok_iff.mpr ⟨found, h, rfl, by rw [hleft]⟩

theorem matching_after_remove (h : matching selector documents = .ok found) :
    matching selector (documents.filter fun e => !picks selector e.2) = .ok [] := by
  obtain ⟨hreadable, -⟩ := matching_eq_ok_iff.mp h
  refine matching_eq_ok_iff.mpr ⟨fun e he => hreadable e (List.mem_filter.mp he).1, ?_⟩
  refine (List.filter_eq_nil_iff.mpr fun e he => ?_).symm
  have hleft := (List.mem_filter.mp he).2
  rw [Bool.not_eq_true'] at hleft
  rw [hleft]
  exact Bool.false_ne_true

end Collection

namespace Store

variable {s : Store} {name : String} {selector : Value} {list : List Value}

/-- The documents of a collection. -/
def documents (s : Store) (name : String) : Entries Value := (s.collection name).documents

theorem find_eq_ok_iff : s.find name selector = .ok list ↔
    ∃ found, Collection.matching selector (s.documents name) = .ok found ∧
      list = Entries.values found := by
  simp only [find, Collection.find, Outcome.bind_eq_ok, Except.ok.injEq, documents,
    @eq_comm _ (Entries.values _)]

/-! ## What a call does to the documents -/

/-- An update of one document comes to its end, or fails and changes no document. -/
theorem updateOne_cases (s : Store) (name : String) (selector modifier : Value) (upsert : Bool)
    (fresh : Uuid) :
    (∃ outcome c, Collection.Updates (s.collection name) name selector modifier upsert fresh
        outcome c ∧ (s.updateOne name selector modifier upsert fresh).result = .ok outcome ∧
      (s.updateOne name selector modifier upsert fresh).store.documents name = c.documents) ∨
    (∃ e, (s.updateOne name selector modifier upsert fresh).result = .error e) ∧
      (s.updateOne name selector modifier upsert fresh).store.documents name =
        s.documents name := by
  unfold updateOne
  rcases s.perform_cases name
      (Collection.traceless_update name selector modifier upsert fresh) with
    ⟨outcome, c, hupdate, hresult, hstore⟩ | ⟨herror, hstore⟩
  · exact .inl ⟨outcome, c, Collection.update_eq_ok_iff.mp hupdate, hresult,
      congrArg Collection.documents hstore⟩
  · exact .inr ⟨herror, congrArg Collection.documents hstore⟩

/-- Under the key stood the first of the documents in the list; another document stands
there now, and nothing else is different. -/
structure ReplacesFirst (list : List Value) (before after : Entries Value) (key : String)
    (head next : Value) : Prop where
  held : Entries.get? before key = some head
  first : ∀ other doc, Entries.get? before other = some doc → doc ∈ list → ¬ other < key
  stored : Entries.get? after key = some next
  keys : Entries.keys after = Entries.keys before
  others : ∀ other, other ≠ key → Entries.get? after other = Entries.get? before other

/-- One document is there that was not, and nothing else is different. -/
structure AddsOne (before after : Entries Value) (key : String) (doc : Value) : Prop where
  free : Entries.get? before key = none
  stored : Entries.get? after key = some doc
  others : ∀ other, other ≠ key → Entries.get? after other = Entries.get? before other

theorem replacesFirst_insert {before found : Entries Value} (sorted : Entries.Sorted before)
    (h : Collection.matching selector before = .ok found) {key : String} {head : Value}
    (hhead : found.head? = some (key, head)) (next : Value) :
    ReplacesFirst (Entries.values found) before (Entries.insert before key next) key head next := by
  obtain ⟨-, rfl⟩ := Collection.matching_eq_ok_iff.mp h
  obtain ⟨rest, hfound⟩ := List.head?_eq_some_iff.mp hhead
  have hmem : (key, head) ∈ before :=
    (List.mem_filter.mp (hfound ▸ List.mem_cons_self)).1
  refine ⟨Entries.get?_of_mem sorted.distinct hmem, fun other doc hdoc hlist => ?_,
    Entries.get?_insert_self _ _ _, ?_, fun other hne => Entries.get?_insert_of_ne hne.symm _ _⟩
  · -- The documents found are sorted as well, and the first one has the least key.
    have hpicks := (Collection.mem_values_of_matching h (Entries.mem_of_get? hdoc)).mp hlist
    have hother : (other, doc) ∈ before.filter fun e => Collection.picks selector e.2 :=
      List.mem_filter.mpr ⟨Entries.mem_of_get? hdoc, hpicks⟩
    have hsorted : Entries.Sorted ((key, head) :: rest) := hfound ▸ sorted.filter _
    rw [hfound] at hother
    rcases List.mem_cons.mp hother with heq | hlater
    · cases heq
      exact String.lt_irrefl _
    · exact String.lt_asymm ((List.pairwise_cons.mp hsorted).1 _ hlater)
  · exact Entries.keys_insert_of_mem sorted (Entries.mem_keys_of_mem hmem) next

/-! ## Agreement -/

section Found

variable {found : Entries Value}
  (h : Collection.matching selector (s.documents name) = .ok found)

include h

theorem findOne_of_matching : s.findOne name selector = .ok (Entries.values found).head? := by
  have hfirst : Collection.firstMatch selector (s.collection name).documents = .ok found.head? :=
    Collection.firstMatch_of_matching h
  unfold findOne Collection.findOne
  rw [hfirst, Entries.values, List.head?_map]
  rfl

/-- An update takes the first of the documents found, if there is one, and inserts one
only if there is none. -/
theorem updateOne_of_matching (sorted : Entries.Sorted (s.documents name)) {modifier : Value}
    {upsert : Bool} {fresh : Uuid} {outcome : UpdateOutcome}
    (updated : (s.updateOne name selector modifier upsert fresh).result = .ok outcome) :
    (∃ key head next, found.head? = some (key, head) ∧
      outcome = ⟨1, if next == head then 0 else 1, none⟩ ∧
      ReplacesFirst (Entries.values found) (s.documents name)
        ((s.updateOne name selector modifier upsert fresh).store.documents name) key head next) ∨
    (∃ key doc, found = [] ∧ upsert = true ∧ outcome = ⟨0, 0, some key⟩ ∧
      AddsOne (s.documents name)
        ((s.updateOne name selector modifier upsert fresh).store.documents name) key doc) ∨
    found = [] ∧ upsert = false ∧ outcome = ⟨0, 0, none⟩ ∧
      (s.updateOne name selector modifier upsert fresh).store.documents name =
        s.documents name := by
  have hfirst : Collection.firstMatch selector (s.collection name).documents = .ok found.head? :=
    Collection.firstMatch_of_matching h
  rcases s.updateOne_cases name selector modifier upsert fresh with
    ⟨answer, c, hupdates, hresult, hdocuments⟩ | ⟨⟨e, hresult⟩, -⟩
  · cases hresult.symm.trans updated
    rw [hdocuments]
    cases hupdates with
    | @matched key head next hmatch _ _ _ =>
      have hhead := Except.ok.inj (hfirst.symm.trans hmatch)
      exact .inl ⟨key, head, next, hhead, rfl, replacesFirst_insert sorted h hhead next⟩
    | @inserted doc key _ hmatch hupsert _ hinsert =>
      have hnil := List.head?_eq_none_iff.mp (Except.ok.inj (hfirst.symm.trans hmatch))
      obtain ⟨fields, rfl⟩ := Collection.object_of_insert hinsert
      obtain ⟨rfl, hfree, -, rfl⟩ := Collection.insert_eq_ok_iff.mp hinsert
      exact .inr (.inl ⟨_, _, hnil, hupsert, rfl, Entries.contains_eq_false_iff.mp hfree,
        Entries.get?_insert_self _ _ _, fun other hne => Entries.get?_insert_of_ne hne.symm _ _⟩)
    | unmatched hmatch hupsert =>
      have hnil := List.head?_eq_none_iff.mp (Except.ok.inj (hfirst.symm.trans hmatch))
      exact .inr (.inr ⟨hnil, hupsert, rfl, rfl⟩)
  · cases hresult.symm.trans updated

/-- A removal takes the documents found away. -/
theorem remove_of_matching (sorted : Entries.Sorted (s.documents name)) :
    (s.remove name selector).result = .ok found.length ∧
      (s.remove name selector).store.documents name =
        (s.documents name).filter fun e => !Collection.picks selector e.2 := by
  unfold remove
  cases hget : Entries.get? s.collections name with
  | some c =>
    have hremove : (Collection.remove selector).run (s.collection name) = .ok found.length _ :=
      Collection.remove_of_matching sorted h
    refine ⟨?_, congrArg Collection.documents (collection_perform_of_ok hremove)⟩
    dsimp only
    rw [perform_of_ok hremove]
  | none =>
    have hnone : s.documents name = [] := by
      unfold documents collection
      rw [hget]
      rfl
    rw [hnone] at h ⊢
    cases h
    exact ⟨rfl, rfl⟩

end Found

/-- Where the selector can be read against every document, a find for one gives the first
of the documents found, an update takes that one and leaves all others alone, an upsert
inserts only if there is none, and a removal takes all of them away and no other. An
update counts as a modification if the document changes in more than the signs of zeros. -/
theorem selections_agree (sorted : Entries.Sorted (s.documents name))
    (found : s.find name selector = .ok list) :
    s.findOne name selector = .ok list.head? ∧
    (∀ modifier upsert fresh outcome,
      (s.updateOne name selector modifier upsert fresh).result = .ok outcome →
        outcome.matched = min 1 list.length ∧
        (∀ head rest, list = head :: rest → ∃ key next,
          ReplacesFirst list (s.documents name)
            ((s.updateOne name selector modifier upsert fresh).store.documents name) key head next ∧
          outcome.upsertedId = none ∧ outcome.modified ≤ 1 ∧
          (outcome.modified = 1 ↔ next.withoutZeroSigns ≠ head.withoutZeroSigns)) ∧
        (list = [] → outcome.modified = 0 ∧
          (upsert = true → ∃ key doc, outcome.upsertedId = some key ∧
            AddsOne (s.documents name)
              ((s.updateOne name selector modifier upsert fresh).store.documents name) key doc) ∧
          (upsert = false → outcome.upsertedId = none ∧
            (s.updateOne name selector modifier upsert fresh).store.documents name =
              s.documents name))) ∧
    (s.remove name selector).result = .ok list.length ∧
    (∀ key doc, Entries.get? ((s.remove name selector).store.documents name) key = some doc ↔
      Entries.get? (s.documents name) key = some doc ∧ doc ∉ list) ∧
    (s.remove name selector).store.find name selector = .ok [] := by
  obtain ⟨entries, h, rfl⟩ := find_eq_ok_iff.mp found
  refine ⟨findOne_of_matching h, fun modifier upsert fresh outcome updated => ?_, ?_⟩
  · rcases updateOne_of_matching h sorted updated with
      ⟨key, head, next, hhead, rfl, hreplaces⟩ | ⟨key, doc, rfl, rfl, rfl, hadds⟩ |
        ⟨rfl, rfl, rfl, hsame⟩
    · obtain ⟨rest, rfl⟩ := List.head?_eq_some_iff.mp hhead
      refine ⟨by simp [Entries.values], ?_, fun hnil => by cases hnil⟩
      rintro _ _ ⟨⟩
      refine ⟨key, next, hreplaces, rfl, ?_, ?_⟩
      · dsimp only
        split <;> decide
      · have hbeq : (next == head) = true ↔ next.withoutZeroSigns = head.withoutZeroSigns :=
          Value.beq_iff
        rw [ne_eq, ← hbeq]
        split <;> simp_all
    · exact ⟨rfl, fun _ _ hcons => (by cases hcons), fun _ =>
        ⟨rfl, fun _ => ⟨key, doc, rfl, hadds⟩, fun hfalse => by cases hfalse⟩⟩
    · exact ⟨rfl, fun _ _ hcons => (by cases hcons), fun _ =>
        ⟨rfl, fun htrue => (by cases htrue), fun _ => ⟨rfl, hsame⟩⟩⟩
  · obtain ⟨hresult, hleft⟩ := remove_of_matching h sorted
    have hlength : (Entries.values entries).length = entries.length := List.length_map _
    refine ⟨hlength ▸ hresult, fun key doc => ?_, ?_⟩
    · have hpicks {key : String} {doc : Value} (hmem : (key, doc) ∈ s.documents name) :
          (!Collection.picks selector doc) = true ↔ doc ∉ Entries.values entries := by
        rw [Collection.mem_values_of_matching h hmem, Bool.not_eq_true', Bool.not_eq_true]
      have hdistinct := sorted.distinct
      rw [hleft]
      constructor
      · intro hget
        obtain ⟨hmem, hnot⟩ := List.mem_filter.mp (Entries.mem_of_get? hget)
        exact ⟨Entries.get?_of_mem hdistinct hmem, (hpicks hmem).mp hnot⟩
      · rintro ⟨hget, hnot⟩
        have hmem := Entries.mem_of_get? hget
        exact Entries.get?_of_mem (hdistinct.sublist (List.filter_sublist.map Prod.fst))
          (List.mem_filter.mpr ⟨hmem, (hpicks hmem).mpr hnot⟩)
    · rw [find_eq_ok_iff]
      exact ⟨[], hleft ▸ Collection.matching_after_remove h, rfl⟩

/-- A document with a number. -/
def numbered (id : String) (n : Value) : Value := .object [("_id", .string id), ("n", n)]

/-- A store of two documents. -/
def twoNumbers : Store :=
  ⟨[("c", ⟨[("a", numbered "a" zeroDouble), ("b", numbered "b" (.int 1))], none⟩)]⟩

/-- The modifier that sets the number. -/
def setNumber (n : Value) : Value := .object [("$set", .object [("n", n)])]

/-- The second document is found, an update replaces it and counts a modification, and
removing it leaves the first. -/
theorem second_selected : twoNumbers.findOne "c" (.string "b") = .ok (some (numbered "b" (.int 1))) ∧
    (twoNumbers.updateOne "c" (.string "b") (setNumber (.int 2)) false default).result =
      .ok ⟨1, 1, none⟩ ∧
    (∃ key next, ReplacesFirst [numbered "b" (.int 1)] (twoNumbers.documents "c")
        ((twoNumbers.updateOne "c" (.string "b") (setNumber (.int 2)) false default).store.documents
          "c") key (numbered "b" (.int 1)) next ∧
      next.withoutZeroSigns ≠ (numbered "b" (.int 1)).withoutZeroSigns) ∧
    (twoNumbers.remove "c" (.string "b")).result = .ok 1 ∧
    (twoNumbers.remove "c" (.string "b")).store.find "c" (.string "b") = .ok [] := by
  have hsorted : Entries.Sorted (twoNumbers.documents "c") := by
    have hless : "a" < "b" := by decide
    exact List.pairwise_pair.mpr hless
  have hmatching : Collection.matching (.string "b") (twoNumbers.collection "c").documents =
      .ok [("b", numbered "b" (.int 1))] := by
    simp only [collection, twoNumbers, Entries.get?, if_true, Option.getD_some,
      Collection.matching, Selector.selects]
    rfl
  have hfind : twoNumbers.find "c" (.string "b") = .ok [numbered "b" (.int 1)] :=
    find_eq_ok_iff.mpr ⟨_, hmatching, rfl⟩
  have hset : Apply.modifier (numbered "b" (.int 1)) (setNumber (.int 2)) false =
      .done (numbered "b" (.int 2)) := by
    rfl
  have hupdate : (Collection.update "c" (.string "b") (setNumber (.int 2)) false default).run
      (twoNumbers.collection "c") = .ok ⟨1, 1, none⟩ _ :=
    Collection.update_eq_ok_iff.mpr
      (.matched (Collection.firstMatch_of_matching hmatching) hset rfl rfl)
  have hresult : (twoNumbers.updateOne "c" (.string "b") (setNumber (.int 2)) false
      default).result = .ok ⟨1, 1, none⟩ := by
    rw [updateOne, perform_of_ok hupdate]
  obtain ⟨hone, hagree, hremove, -, hgone⟩ := selections_agree hsorted hfind
  obtain ⟨-, hhead, -⟩ := hagree _ _ _ _ hresult
  obtain ⟨key, next, hreplaces, -, -, hmodified⟩ := hhead _ _ rfl
  exact ⟨hone, hresult, ⟨key, next, hreplaces, hmodified.mp rfl⟩, hremove, hgone⟩

/-- A store of one document. -/
def oneNumber (n : Value) : Store := ⟨[("c", ⟨[("a", numbered "a" n)], none⟩)]⟩

theorem matching_oneNumber (n : Value) : Collection.matching (.object [])
    ((oneNumber n).documents "c") = .ok [("a", numbered "a" n)] := by
  simp only [documents, collection, oneNumber, Entries.get?, if_true, Option.getD_some,
    Collection.matching, Selector.selects, Selector.meetsClauses]
  rfl

theorem find_oneNumber (n : Value) :
    (oneNumber n).find "c" (.object []) = .ok [numbered "a" n] :=
  find_eq_ok_iff.mpr ⟨_, matching_oneNumber n, rfl⟩

/-- An update that changes no more than the sign of a zero changes what is found, and
counts no modification. -/
theorem sign_of_zero_uncounted :
    empty.run [.insertOne "c" (numbered "a" zeroDouble) default] = oneNumber zeroDouble ∧
    (oneNumber zeroDouble).find "c" (.object []) = .ok [numbered "a" zeroDouble] ∧
    (oneNumber zeroDouble).updateOne "c" (.object [])
      (.object [("$set", .object [("n", minusZero)])]) false default =
        ⟨.ok ⟨1, 0, none⟩, oneNumber minusZero⟩ ∧
    (oneNumber minusZero).find "c" (.object []) = .ok [numbered "a" minusZero] ∧
    numbered "a" minusZero ≠ numbered "a" zeroDouble := by
  refine ⟨rfl, find_oneNumber _, ?_, find_oneNumber _, ?_⟩
  · have hset : Apply.modifier (numbered "a" zeroDouble)
        (.object [("$set", .object [("n", minusZero)])]) false = .done (numbered "a" minusZero) := by
      rfl
    have hfound : Collection.firstMatch (.object [])
        ((oneNumber zeroDouble).collection "c").documents =
          .ok (some ("a", numbered "a" zeroDouble)) :=
      Collection.firstMatch_of_matching (matching_oneNumber zeroDouble)
    have hequal : (numbered "a" minusZero == numbered "a" zeroDouble) = true := by decide +kernel
    have hupdate : (Collection.update "c" (.object []) (.object [("$set",
        .object [("n", minusZero)])]) false default).run ((oneNumber zeroDouble).collection "c") =
          .ok ⟨1, if numbered "a" minusZero == numbered "a" zeroDouble then 0 else 1, none⟩
            ⟨[("a", numbered "a" minusZero)], none⟩ :=
      Collection.update_eq_ok_iff.mpr (.matched hfound hset rfl rfl)
    rw [updateOne, perform_of_ok hupdate, hequal]
    rfl
  · simp [numbered, minusZero, zeroDouble]

end Store

end DocSchema

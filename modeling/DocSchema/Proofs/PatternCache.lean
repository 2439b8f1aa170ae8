-- SUMMARY: Patterns read when a validator is made decide like patterns read where they are met.
import DocSchema.Proofs.Consults
import DocSchema.Validator.Document

/-!
# The patterns of a validator

Making a validator reads every `pattern` keyword anywhere in its body, whatever
leads there; an evaluation comes to some of them, by way of the keywords that it
knows and of the document. What it consults stands in the body
(`Consults.patternIn`) and so has been read: a validator decides as if each
pattern were read where it is met (`validate_eq_validateDirectly`), and what it
would do with a pattern that has not been read never shows (`no_pattern_missed`).
Of patterns only this is used, that the text determines the pattern: nothing here
depends on which texts are patterns and what they match.
-/

namespace DocSchema

namespace Validator

/-! ## Patterns in a body -/

/-- The text stands under the keyword `pattern` somewhere in the value. -/
inductive PatternIn (source : String) : Value → Prop where
  | here {rules : Entries Value} :
    (Entries.get? rules "pattern").bind Value.string? = some source →
      PatternIn source (.object rules)
  | entry {rules : Entries Value} {e : String × Value} :
    e ∈ rules → PatternIn source e.2 → PatternIn source (.object rules)
  | item {items : List Value} {v : Value} :
    v ∈ items → PatternIn source v → PatternIn source (.array items)

/-- Two ways to decide patterns are the same on those in a schema. -/
def AgreeOn (m m' : Matching) (schema : Value) : Prop :=
  ∀ source, PatternIn source schema → ∀ text, m source text = m' source text

/-- An evaluation consults patterns that stand in the schema. -/
theorem Consults.patternIn {source text : String} {schema v : Value}
    (h : Consults source text schema v) : PatternIn source schema := by
  induction h with
  | pattern hsource => exact .here hsource
  | alternative _ hoptions hmem _ ih =>
    unfold alternatives? at hoptions
    split at hoptions
    · next hget =>
      cases hoptions
      exact .entry (Entries.mem_of_get? hget) (.item hmem ih)
    · cases hoptions
  | position hget he _ ih =>
    exact .entry (Entries.mem_of_get? hget) (.item (List.of_mem_zip he).1 ih)
  | element hget _ _ _ ih => exact .entry (Entries.mem_of_get? hget) ih
  | entry _ _ hrule _ ih =>
    unfold entryRule declaredProperties at hrule
    split at hrule
    · next hdeclared =>
      cases hrule
      split at hdeclared
      · next hproperties =>
        exact .entry (Entries.mem_of_get? hproperties) (.entry (Entries.mem_of_get? hdeclared) ih)
      · cases hdeclared
    · split at hrule
      · cases hrule
      · next hothers =>
        cases hrule
        exact .entry (Entries.mem_of_get? hothers) ih
      · cases hrule

/-- The result of an evaluation depends on the patterns in the schema only. -/
theorem AgreeOn.check_eq {m m' : Matching} {schema : Value} (h : AgreeOn m m' schema) (v : Value)
    (location : Location) : check m schema v location = check m' schema v location :=
  check_eq_of_consults (fun source text hin => h source hin.patternIn text) location

/-! ## Collecting patterns -/

/-- The collected patterns are those of their texts. -/
def Faithful (found : List (String × Pattern)) : Prop :=
  ∀ source p, found.lookup source = some p → Pattern.read? source = some p

/-- Patterns once collected stay. -/
def Extends (found more : List (String × Pattern)) : Prop :=
  ∀ source, (found.lookup source).isSome = true → (more.lookup source).isSome = true

/-- What collecting from a value guarantees. -/
structure Collected (P : String → Prop) (found more : List (String × Pattern)) : Prop where
  faithful : Faithful found → Faithful more
  kept : Extends found more
  covers : ∀ source, P source → (more.lookup source).isSome = true

theorem addPattern_collected {found more : List (String × Pattern)} {source : String}
    {location : Location} (h : addPattern found source location = .ok more) :
    Collected (· = source) found more := by
  unfold addPattern at h
  split at h
  · next hpresent =>
    cases h
    exact ⟨id, fun _ => id, fun other heq => heq ▸ hpresent⟩
  · split at h
    · next p hp =>
      cases h
      refine ⟨fun hfaithful other q hq => ?_, fun other hother => ?_, fun other heq => ?_⟩
      · rw [List.lookup_cons] at hq
        split at hq
        · next heq => cases hq; rw [beq_iff_eq.mp heq]; exact hp
        · exact hfaithful other q hq
      · rw [List.lookup_cons]
        split
        · rfl
        · exact hother
      · subst heq
        simp
    · cases h

theorem Collected.refl {P : String → Prop} {found : List (String × Pattern)}
    (h : ∀ source, ¬ P source) : Collected P found found :=
  ⟨id, fun _ => id, fun source hP => (h source hP).elim⟩

/-- Collecting from one part and then from another. -/
theorem Collected.trans {P Q R : String → Prop} {found next more : List (String × Pattern)}
    (h : Collected P found next) (h' : Collected Q next more)
    (hR : ∀ source, R source → P source ∨ Q source) : Collected R found more := by
  refine ⟨fun hfaithful => h'.faithful (h.faithful hfaithful),
    fun source hsource => h'.kept source (h.kept source hsource), fun source hsource => ?_⟩
  rcases hR source hsource with hP | hQ
  · exact h'.kept source (h.covers source hP)
  · exact h'.covers source hQ

theorem addOwnPattern_collected {found more : List (String × Pattern)} {rules : Entries Value}
    {location : Location} (h : addOwnPattern found rules location = .ok more) :
    Collected (fun source => (Entries.get? rules "pattern").bind Value.string? = some source) found
      more := by
  unfold addOwnPattern at h
  split at h
  · next source hsource =>
    obtain ⟨hfaithful, hkept, hcovers⟩ := addPattern_collected h
    refine ⟨hfaithful, hkept, fun other hother => hcovers other ?_⟩
    rw [hsource] at hother
    exact (Option.some.inj hother).symm
  · next hnone =>
    cases h
    exact .refl fun source hsource => by rw [hnone] at hsource; cases hsource

mutual
theorem collect_collected (v : Value) {location : Location} {found more : List (String × Pattern)}
    (h : collect v location found = .ok more) :
    Collected (fun source => PatternIn source v) found more := by
  cases v with
  | object rules =>
    rw [collect, Outcome.bind_eq_ok] at h
    obtain ⟨next, hown, hrest⟩ := h
    refine (addOwnPattern_collected hown).trans (collectEntries_collected rules hrest) ?_
    intro source hsource
    cases hsource with
    | here hhere => exact .inl hhere
    | entry he hin => exact .inr ⟨_, he, hin⟩
  | array items =>
    rw [collect] at h
    obtain ⟨hfaithful, hkept, hcovers⟩ := collectItems_collected items h
    refine ⟨hfaithful, hkept, fun source hsource => ?_⟩
    cases hsource with
    | item hmem hin => exact hcovers source ⟨_, hmem, hin⟩
  | _ =>
    rw [collect] at h
    · cases h
      exact .refl fun source hsource => by cases hsource
    all_goals (intros; contradiction)

theorem collectEntries_collected (rules : List (String × Value)) {location : Location}
    {found more : List (String × Pattern)} (h : collectEntries rules location found = .ok more) :
    Collected (fun source => ∃ e ∈ rules, PatternIn source e.2) found more := by
  cases rules with
  | nil =>
    rw [collectEntries] at h
    cases h
    exact .refl fun source ⟨e, he, _⟩ => by cases he
  | cons e rest =>
    rw [collectEntries, Outcome.bind_eq_ok] at h
    obtain ⟨next, hhead, hrest⟩ := h
    refine (collect_collected e.2 hhead).trans (collectEntries_collected rest hrest) ?_
    rintro source ⟨e', he', hin⟩
    rcases List.mem_cons.mp he' with rfl | he'
    · exact .inl hin
    · exact .inr ⟨e', he', hin⟩

theorem collectItems_collected (items : List Value) {location : Location}
    {found more : List (String × Pattern)} (h : collectItems items location found = .ok more) :
    Collected (fun source => ∃ v ∈ items, PatternIn source v) found more := by
  cases items with
  | nil =>
    rw [collectItems] at h
    cases h
    exact .refl fun source ⟨v, hv, _⟩ => by cases hv
  | cons v rest =>
    rw [collectItems, Outcome.bind_eq_ok] at h
    obtain ⟨next, hhead, hrest⟩ := h
    refine (collect_collected v hhead).trans (collectItems_collected rest hrest) ?_
    rintro source ⟨w, hw, hin⟩
    rcases List.mem_cons.mp hw with rfl | hw
    · exact .inl hin
    · exact .inr ⟨w, hw, hin⟩
end

/-! ## Validators -/

theorem ofBody_collected {body : Value} {validator : Validator} (h : ofBody body = .ok validator) :
    body = .object validator.body ∧
      Collected (fun source => PatternIn source body) [] validator.patterns := by
  unfold ofBody at h
  split at h
  · next rules =>
    simp only [Outcome.bind_eq_ok, Except.ok.injEq] at h
    obtain ⟨patterns, hpatterns, rfl⟩ := h
    exact ⟨rfl, collect_collected _ hpatterns⟩
  · cases h

/-- Every pattern of the body is found, as the pattern of its text. -/
theorem lookup_of_patternIn {body : Value} {validator : Validator}
    (h : ofBody body = .ok validator) {source : String} (hsource : PatternIn source body) :
    ∃ p, validator.patterns.lookup source = some p ∧ Pattern.read? source = some p := by
  obtain ⟨-, hcollected⟩ := ofBody_collected h
  obtain ⟨p, hp⟩ := Option.isSome_iff_exists.mp (hcollected.covers source hsource)
  exact ⟨p, hp, hcollected.faithful (fun _ _ h => by cases h) source p hp⟩

theorem ofBody_agrees {body : Value} {validator : Validator} (h : ofBody body = .ok validator) :
    body = .object validator.body ∧ AgreeOn validator.matching readAndMatch body := by
  refine ⟨(ofBody_collected h).1, fun source hsource text => ?_⟩
  obtain ⟨p, hp, hread⟩ := lookup_of_patternIn h hsource
  simp only [matching, readAndMatch, hp, hread]

/-- A validator gives the result that its body gives when patterns are read directly. -/
theorem validate_eq_validateDirectly {body : Value} {validator : Validator}
    (h : ofBody body = .ok validator) (document : Value) :
    validator.validate document = validateDirectly validator.body document := by
  obtain ⟨rfl, hagree⟩ := ofBody_agrees h
  exact hagree.check_eq document .root

/-- A validator accepts what its body accepts when patterns are read directly. -/
theorem validate_eq_ok_iff {body : Value} {validator : Validator}
    (h : ofBody body = .ok validator) {document : Value} {u : Unit} :
    validator.validate document = .ok u ↔ Fits readAndMatch validator.body document := by
  rw [validate_eq_validateDirectly h, ← admits_object_iff]
  rfl

/-! ## Patterns that are missed -/

/-- Decides patterns by those collected, and one that is not among them by `fallback`. -/
def matchingElse (v : Validator) (fallback : Matching) : Matching := fun source text =>
  match v.patterns.lookup source with
  | some p => p.matchesIn text
  | none => fallback source text

/-- A validator gives the result, and the issue, that its body gives when each pattern is read
where it is met. What it does with a pattern that it has not collected makes no difference:
every pattern that an evaluation may consult is found, as the pattern of its text. -/
theorem no_pattern_missed {body : Value} {validator : Validator}
    (h : ofBody body = .ok validator) (document : Value) :
    body = .object validator.body ∧
    validator.validate document = validateDirectly validator.body document ∧
    (∀ fallback, check (validator.matchingElse fallback) body document .root =
      validator.validate document) ∧
    ∀ source text, Consults source text body document →
      ∃ p, validator.patterns.lookup source = some p ∧ Pattern.read? source = some p := by
  have hbody := (ofBody_collected h).1
  refine ⟨hbody, validate_eq_validateDirectly h document, fun fallback => ?_,
    fun source text hin => lookup_of_patternIn h hin.patternIn⟩
  rw [validate, ← hbody]
  refine check_eq_of_consults (fun source text hin => ?_) .root
  obtain ⟨p, hp, -⟩ := lookup_of_patternIn h hin.patternIn
  simp only [matchingElse, matching, hp, Option.any_some]

/-- A text that begins with `a`, or an object with a name of `ab`s and `c`s whose other entries
are lists that begin with a text that ends on `b`. -/
def contactRules : Value := .object [
  ("anyOf", .array [
    .object [("bsonType", .string "string"), ("pattern", .string "^a")],
    .object [
      ("additionalProperties", .object [("items", .array [.object [("pattern", .string "b$")]])]),
      ("bsonType", .string "object"),
      ("properties", .object [("name", .object [("pattern", .string "^(ab|c)*$")])])]])]

def tags : Value := .array [.string "ab", .string "x"]

def contact : Value := .object [("name", .string "abc"), ("tags", tags)]

/-- The pattern for the first element of an undeclared entry is consulted, and found. -/
theorem contact_pattern_found : ∃ validator, ofBody contactRules = .ok validator ∧
    validator.validate contact = validateDirectly validator.body contact ∧
    (∀ fallback, check (validator.matchingElse fallback) contactRules contact .root =
      validator.validate contact) ∧
    Consults "b$" "ab" contactRules contact ∧
    ∃ p, validator.patterns.lookup "b$" = some p ∧ Pattern.read? "b$" = some p := by
  have reads : (ofBody contactRules).isOk = true := by decide +kernel
  obtain ⟨validator, h⟩ := Outcome.isOk_iff.mp reads
  obtain ⟨-, hvalidate, hfallback, hfound⟩ := no_pattern_missed h contact
  have consulted : Consults "b$" "ab" contactRules contact := by
    refine .alternative (.inl rfl) rfl (List.mem_cons_of_mem _ List.mem_cons_self) ?_
    refine .entry (e := ("tags", tags)) rfl (List.mem_cons_of_mem _ List.mem_cons_self) rfl ?_
    exact .position rfl List.mem_cons_self (.pattern rfl)
  exact ⟨validator, h, hvalidate, hfallback, consulted, hfound _ _ consulted⟩

end Validator

end DocSchema

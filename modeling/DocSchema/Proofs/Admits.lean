-- SUMMARY: What the body of a validator admits, keyword by keyword and without locations.
import DocSchema.Proofs.Entries
import DocSchema.Proofs.Outcome
import DocSchema.Validator.Check

/-!
# What validators admit

`Admits matching schema v` says that a schema of a validator accepts a value. As
with parsing, the place of the value shows in errors only. An object of rules
accepts what meets each of its keywords; `Fits` is that conjunction, with one
condition for each keyword that reads no other keyword.
-/

namespace DocSchema

namespace Validator

/-- The schema accepts the value. -/
def Admits (matching : Matching) (schema v : Value) : Prop :=
  check matching schema v .root = .ok ()

/-! ## Keywords -/

/-- The value is of one of the kinds. -/
def KindFits (rules : Entries Value) (v : Value) : Prop :=
  ∀ expected, Entries.get? rules "bsonType" = some expected → kindMatches expected v = true

/-- The value is alike one of those listed. -/
def EnumFits (rules : Entries Value) (v : Value) : Prop :=
  ∀ allowed, Entries.get? rules "enum" = some (.array allowed) →
    ∃ a ∈ allowed, a.alike v = true

def AnyOfFits (matching : Matching) (rules : Entries Value) (v : Value) : Prop :=
  ∀ options, alternatives? rules "anyOf" = some options → ∃ o ∈ options, Admits matching o v

/-- Exactly one position of a list has the property. -/
def ExactlyOne {α : Type} (P : α → Prop) (xs : List α) : Prop :=
  ∃ before x after, xs = before ++ x :: after ∧ P x ∧ ∀ y ∈ before ++ after, ¬ P y

theorem exactlyOne_map {α β : Type} {P : β → Prop} {f : α → β} {xs : List α} :
    ExactlyOne P (xs.map f) ↔ ExactlyOne (fun x => P (f x)) xs := by
  constructor
  · rintro ⟨before, y, after, heq, hy, hothers⟩
    obtain ⟨before', rest, rfl, rfl, hrest⟩ := List.map_eq_append_iff.mp heq
    obtain ⟨x, after', rfl, rfl, rfl⟩ := List.map_eq_cons_iff.mp hrest
    refine ⟨before', x, after', rfl, hy, fun z hz => hothers (f z) ?_⟩
    rw [← List.map_append]
    exact List.mem_map.mpr ⟨z, hz, rfl⟩
  · rintro ⟨before, x, after, rfl, hx, hothers⟩
    refine ⟨before.map f, f x, after.map f, by simp, hx, ?_⟩
    rw [← List.map_append]
    exact List.forall_mem_map.mpr hothers

def OneOfFits (matching : Matching) (rules : Entries Value) (v : Value) : Prop :=
  ∀ options, alternatives? rules "oneOf" = some options →
    ExactlyOne (fun o => Admits matching o v) options

structure StringFits (matching : Matching) (rules : Entries Value) (text : String) : Prop where
  minLength : ∀ least, (Entries.get? rules "minLength").bind Value.toNat? = some least →
    least ≤ text.length
  maxLength : ∀ most, (Entries.get? rules "maxLength").bind Value.toNat? = some most →
    text.length ≤ most
  pattern : ∀ source, (Entries.get? rules "pattern").bind Value.string? = some source →
    matching source text = true

structure NumberFits (rules : Entries Value) (n : Double) : Prop where
  minimum : ∀ limit, (Entries.get? rules "minimum").bind Value.toDouble? = some limit →
    (n.lt limit || (isSet rules "exclusiveMinimum" && n.beq limit)) = false
  maximum : ∀ limit, (Entries.get? rules "maximum").bind Value.toDouble? = some limit →
    (limit.lt n || (isSet rules "exclusiveMaximum" && n.beq limit)) = false
  multipleOf : ∀ divisor, (Entries.get? rules "multipleOf").bind Value.toDouble? = some divisor →
    n.isMultipleOf divisor = true

/-- Elements by one schema for all, or by a schema for each position. -/
def ElementsFit (matching : Matching) (rules : Entries Value) (items : List Value) : Prop :=
  match Entries.get? rules "items" with
  | some (.array positional) => ∀ e ∈ positional.zip items, Admits matching e.1 e.2
  | some schema => ∀ v ∈ items, Admits matching schema v
  | none => True

structure ItemsFit (matching : Matching) (rules : Entries Value) (items : List Value) :
    Prop where
  minItems : ∀ least, (Entries.get? rules "minItems").bind Value.toNat? = some least →
    least ≤ items.length
  maxItems : ∀ most, (Entries.get? rules "maxItems").bind Value.toNat? = some most →
    items.length ≤ most
  elements : ElementsFit matching rules items

/-- An entry by its own schema or by the one for undeclared entries. -/
def EntryFits (matching : Matching) (rules : Entries Value) (name : String) (v : Value) : Prop :=
  match entryRule rules name with
  | .schema schema => Admits matching schema v
  | .refused => False
  | .free => True

structure EntriesFit (matching : Matching) (rules : Entries Value) (fields : Entries Value) :
    Prop where
  required : ∀ names, Entries.get? rules "required" = some (.array names) →
    ∀ name ∈ names.filterMap Value.string?, Entries.contains fields name = true
  entries : ∀ e ∈ fields, EntryFits matching rules e.1 e.2

/-- The keywords that apply to values of one type. -/
def ContentFits (matching : Matching) (rules : Entries Value) : Value → Prop
  | .string text => StringFits matching rules text
  | .number n => NumberFits rules n.toDouble
  | .array items => ItemsFit matching rules items
  | .object fields => (Value.object fields).kind = .object → EntriesFit matching rules fields
  | _ => True

/-- The value meets all keywords. -/
structure Fits (matching : Matching) (rules : Entries Value) (v : Value) : Prop where
  kind : KindFits rules v
  enum : EnumFits rules v
  anyOf : AnyOfFits matching rules v
  oneOf : OneOfFits matching rules v
  content : ContentFits matching rules v

/-! ## Checks of single keywords -/

section

variable {matching : Matching} {rules : Entries Value} {location : Location} {u : Unit}

theorem ite_error_eq_ok_iff {c : Prop} [Decidable c] {i : Issue} :
    (if c then (Except.ok () : Except Issue Unit) else .error i) = .ok u ↔ c := by
  split <;> simp_all

theorem checkKind_eq_ok_iff {v : Value} :
    checkKind rules v location = .ok u ↔ KindFits rules v := by
  unfold checkKind KindFits
  split
  · next expected h => simp [h]
  · next h => simp [h]

theorem checkEnum_eq_ok_iff {v : Value} :
    checkEnum rules v location = .ok u ↔ EnumFits rules v := by
  unfold checkEnum EnumFits
  split
  · next allowed h => simp [h]
  · next h => simpa using fun allowed h' => (h allowed h').elim

theorem checkAnyOf_eq_ok_iff {α : Type} {f : α → Bool} {xs : List α} :
    checkAnyOf (xs.map f) location = .ok u ↔ ∃ x ∈ xs, f x = true := by
  unfold checkAnyOf
  rw [ite_error_eq_ok_iff, List.any_map, List.any_eq_true]
  rfl

theorem count_true_eq_one_iff {α : Type} {f : α → Bool} {xs : List α} :
    (xs.map f).count true = 1 ↔ ExactlyOne (fun x => f x = true) xs := by
  have none_iff {ys : List α} : (ys.map f).count true = 0 ↔ ∀ y ∈ ys, ¬ f y = true := by
    rw [List.count_eq_zero]
    simp
  constructor
  · intro h
    induction xs with
    | nil => simp at h
    | cons x xs ih =>
      rw [List.map_cons, List.count_cons] at h
      by_cases hx : f x = true
      · refine ⟨[], x, xs, rfl, hx, ?_⟩
        rw [List.nil_append]
        apply none_iff.mp
        simpa [hx] using h
      · obtain ⟨before, y, after, rfl, hy, hothers⟩ := ih (by simpa [hx] using h)
        exact ⟨x :: before, y, after, rfl, hy, List.forall_mem_cons.mpr ⟨hx, hothers⟩⟩
  · rintro ⟨before, x, after, rfl, hx, hothers⟩
    obtain ⟨hbefore, hafter⟩ := List.forall_mem_append.mp hothers
    rw [List.map_append, List.map_cons, List.count_append, List.count_cons,
      none_iff.mpr hbefore, none_iff.mpr hafter]
    simp [hx]

theorem checkOneOf_eq_ok_iff {α : Type} {f : α → Bool} {xs : List α} :
    checkOneOf (xs.map f) location = .ok u ↔ ExactlyOne (fun x => f x = true) xs := by
  unfold checkOneOf
  dsimp only
  rw [ite_error_eq_ok_iff, count_true_eq_one_iff]

theorem checkString_eq_ok_iff {text : String} :
    checkString matching rules text location = .ok u ↔ StringFits matching rules text := by
  have hmin : checkMinLength rules text location = .ok () ↔
      ∀ least, (Entries.get? rules "minLength").bind Value.toNat? = some least →
        least ≤ text.length := by
    unfold checkMinLength
    split
    · next least h => simp [h]
    · next h => simp [h]
  have hmax : checkMaxLength rules text location = .ok () ↔
      ∀ most, (Entries.get? rules "maxLength").bind Value.toNat? = some most →
        text.length ≤ most := by
    unfold checkMaxLength
    split
    · next most h => simp [h]
    · next h => simp [h]
  have hpattern : checkPattern matching rules text location = .ok () ↔
      ∀ source, (Entries.get? rules "pattern").bind Value.string? = some source →
        matching source text = true := by
    unfold checkPattern
    split
    · next source h => simp [h]
    · next h => simp [h]
  unfold checkString
  simp only [Outcome.bind_eq_ok]
  constructor
  · rintro ⟨_, h1, _, h2, h3⟩
    exact ⟨hmin.mp h1, hmax.mp h2, hpattern.mp h3⟩
  · rintro ⟨h1, h2, h3⟩
    exact ⟨(), hmin.mpr h1, (), hmax.mpr h2, hpattern.mpr h3⟩

theorem checkNumber_eq_ok_iff {n : Double} :
    checkNumber rules n location = .ok u ↔ NumberFits rules n := by
  have hmin : checkMinimum rules n location = .ok () ↔
      ∀ limit, (Entries.get? rules "minimum").bind Value.toDouble? = some limit →
        (n.lt limit || (isSet rules "exclusiveMinimum" && n.beq limit)) = false := by
    unfold checkMinimum
    split
    · next limit h => simp [h]
    · next h => simp [h]
  have hmax : checkMaximum rules n location = .ok () ↔
      ∀ limit, (Entries.get? rules "maximum").bind Value.toDouble? = some limit →
        (limit.lt n || (isSet rules "exclusiveMaximum" && n.beq limit)) = false := by
    unfold checkMaximum
    split
    · next limit h => simp [h]
    · next h => simp [h]
  have hdivisor : checkDivisor rules n location = .ok () ↔
      ∀ divisor, (Entries.get? rules "multipleOf").bind Value.toDouble? = some divisor →
        n.isMultipleOf divisor = true := by
    unfold checkDivisor
    split
    · next divisor h => simp [h]
    · next h => simp [h]
  unfold checkNumber
  simp only [Outcome.bind_eq_ok]
  constructor
  · rintro ⟨_, h1, _, h2, h3⟩
    exact ⟨hmin.mp h1, hmax.mp h2, hdivisor.mp h3⟩
  · rintro ⟨h1, h2, h3⟩
    exact ⟨(), hmin.mpr h1, (), hmax.mpr h2, hdivisor.mpr h3⟩

theorem checkRequired_eq_ok_iff {fields : Entries Value} :
    checkRequired rules fields location = .ok u ↔
      ∀ names, Entries.get? rules "required" = some (.array names) →
        ∀ name ∈ names.filterMap Value.string?, Entries.contains fields name = true := by
  unfold checkRequired
  split
  · next names h =>
    rw [h]
    split
    · next name hfind =>
      have hmem := List.mem_of_find?_eq_some hfind
      have habsent := List.find?_some hfind
      constructor
      · intro h'; cases h'
      · intro hall
        simp [hall names rfl name hmem] at habsent
    · next hfind =>
      rw [List.find?_eq_none] at hfind
      simpa using hfind
  · next h => simpa using fun names h' => (h names h').elim

theorem checkMinItems_eq_ok_iff {count : Nat} :
    checkMinItems rules count location = .ok u ↔
      ∀ least, (Entries.get? rules "minItems").bind Value.toNat? = some least → least ≤ count := by
  unfold checkMinItems
  split
  · next least h => simp [h]
  · next h => simp [h]

theorem checkMaxItems_eq_ok_iff {count : Nat} :
    checkMaxItems rules count location = .ok u ↔
      ∀ most, (Entries.get? rules "maxItems").bind Value.toNat? = some most → count ≤ most := by
  unfold checkMaxItems
  split
  · next most h => simp [h]
  · next h => simp [h]

end

/-! ## The evaluation -/

/-- The schema accepts alike at every place. -/
def Uniform (matching : Matching) (schema : Value) : Prop :=
  ∀ v location u, check matching schema v location = .ok u ↔ Admits matching schema v

theorem checkPositions_eq_ok_iff {matching : Matching} {schemas items : List Value}
    (h : ∀ schema ∈ schemas, Uniform matching schema) {i : Nat} {location : Location} {u : Unit} :
    checkPositions location i (schemas.map (check matching)) items = .ok u ↔
      ∀ e ∈ schemas.zip items, Admits matching e.1 e.2 := by
  induction schemas generalizing i items with
  | nil => simp [checkPositions]
  | cons schema schemas ih =>
    cases items with
    | nil => simp [checkPositions]
    | cons v rest =>
      obtain ⟨hschema, hschemas⟩ := List.forall_mem_cons.mp h
      simp only [List.map_cons, checkPositions, Outcome.bind_eq_ok, List.zip_cons_cons,
        List.forall_mem_cons, ih hschemas, hschema v _ _, exists_const]

theorem checkElements_eq_ok_iff {matching : Matching} {schema : Value} {items : List Value}
    (h : Uniform matching schema) {i : Nat} {location : Location} {u : Unit} :
    checkElements (check matching schema) location i items = .ok u ↔
      ∀ v ∈ items, Admits matching schema v := by
  induction items generalizing i with
  | nil => simp [checkElements]
  | cons v rest ih =>
    simp only [checkElements, Outcome.bind_eq_ok, List.forall_mem_cons, ih, h v _ _, exists_const]

/-- The check of one entry of an object. -/
def checkEntry (matching : Matching) (rules : Entries Value) (name : String) (v : Value)
    (location : Location) : Except Issue Unit :=
  match entryRule rules name with
  | .schema schema => check matching schema v location
  | .refused => .error (.undeclared location)
  | .free => .ok ()

theorem checkEntry_eq_ok_iff {matching : Matching} {rules : Entries Value} {name : String}
    (h : ∀ schema, entryRule rules name = .schema schema → Uniform matching schema) {v : Value}
    {location : Location} {u : Unit} :
    checkEntry matching rules name v location = .ok u ↔ EntryFits matching rules name v := by
  unfold checkEntry EntryFits
  split
  · next schema hrule => simpa [hrule] using h schema hrule v location u
  · simp
  · simp

theorem checkEntries_eq_ok_iff {matching : Matching} {rules fields : Entries Value}
    (h : ∀ name schema, entryRule rules name = .schema schema → Uniform matching schema)
    {location : Location} {u : Unit} :
    checkEntries (checkEntry matching rules) location fields = .ok u ↔
      ∀ e ∈ fields, EntryFits matching rules e.1 e.2 := by
  induction fields with
  | nil => simp [checkEntries]
  | cons e rest ih =>
    obtain ⟨name, v⟩ := e
    simp only [checkEntries, Outcome.bind_eq_ok, List.forall_mem_cons, ih,
      checkEntry_eq_ok_iff (h name), exists_const]

theorem checkContent_eq_ok_iff {matching : Matching} {rules : Entries Value}
    (h : ∀ schema, sizeOf schema < sizeOf rules → Uniform matching schema) {v : Value}
    {location : Location} {u : Unit} :
    checkContent matching rules v location = .ok u ↔ ContentFits matching rules v := by
  cases v with
  | string text => exact checkString_eq_ok_iff
  | number n => exact checkNumber_eq_ok_iff
  | array items =>
    have helements : (match Entries.get? rules "items" with
        | some (.array positional) =>
          checkPositions location 0 (positional.map (check matching)) items
        | some schema => checkElements (check matching schema) location 0 items
        | none => .ok ()) = .ok u ↔ ElementsFit matching rules items := by
      unfold ElementsFit
      split
      · next positional hitems =>
        exact checkPositions_eq_ok_iff fun schema hschema =>
          h schema (sizeOf_lt_of_mem_array hitems hschema)
      · next schema _ hitems => exact checkElements_eq_ok_iff (h schema (sizeOf_lt_of_get? hitems))
      · simp
    simp only [checkContent, Outcome.bind_eq_ok, checkMinItems_eq_ok_iff, checkMaxItems_eq_ok_iff]
    constructor
    · rintro ⟨_, hleast, _, hmost, hitems⟩
      exact ⟨hleast, hmost, helements.mp hitems⟩
    · intro hfits
      exact ⟨(), hfits.minItems, (), hfits.maxItems, helements.mpr hfits.elements⟩
  | object fields =>
    have hentries : checkEntries (checkEntry matching rules) location fields = .ok u ↔ _ :=
      checkEntries_eq_ok_iff fun name schema hrule => h schema (sizeOf_lt_of_entryRule hrule)
    simp only [checkContent, ContentFits]
    split
    · next hkind =>
      rw [Outcome.bind_eq_ok]
      simp only [checkRequired_eq_ok_iff]
      constructor
      · rintro ⟨_, hrequired, hall⟩ _
        exact ⟨hrequired, hentries.mp hall⟩
      · intro hfits
        exact ⟨(), (hfits hkind).required, hentries.mpr (hfits hkind).entries⟩
    · next hkind => simp [hkind]
  | _ => simp [checkContent, ContentFits]

/-- The verdict on a keyword that lists alternatives. -/
def verdictOf (keyword : String) (combine : List Bool → Location → Except Issue Unit)
    (matching : Matching) (rules : Entries Value) (v : Value) (location : Location) :
    Except Issue Unit :=
  match alternatives? rules keyword with
  | some options =>
    combine (options.map fun option => (check matching option v location).isOk) location
  | none => .ok ()

/-- The evaluation of an object of rules, with the verdicts on alternatives by their keywords. -/
theorem check_object_eq (matching : Matching) (rules : Entries Value) (v : Value)
    (location : Location) :
    check matching (.object rules) v location = (do
      checkKind rules v location
      checkEnum rules v location
      verdictOf "anyOf" checkAnyOf matching rules v location
      verdictOf "oneOf" checkOneOf matching rules v location
      checkContent matching rules v location) :=
  check_object matching rules v location

section Object

variable {matching : Matching} {rules : Entries Value}
  (h : ∀ schema, sizeOf schema < sizeOf rules → Uniform matching schema) {v : Value}
  {location : Location}
include h

theorem isOk_check_of_mem {keyword : String} {options : List Value}
    (hoptions : alternatives? rules keyword = some options) (o : Value) (ho : o ∈ options) :
    (check matching o v location).isOk = true ↔ Admits matching o v := by
  have huniform := h o (sizeOf_lt_of_mem_alternatives? hoptions ho)
  rw [Outcome.isOk_iff]
  simp only [huniform v location, exists_const]

theorem verdictOf_anyOf_eq_ok_iff :
    verdictOf "anyOf" checkAnyOf matching rules v location = .ok () ↔
      AnyOfFits matching rules v := by
  unfold verdictOf AnyOfFits
  split
  · next options hoptions =>
    rw [checkAnyOf_eq_ok_iff, hoptions]
    simp only [Option.some.injEq, forall_eq']
    constructor
    · rintro ⟨o, ho, hok⟩; exact ⟨o, ho, (isOk_check_of_mem h hoptions o ho).mp hok⟩
    · rintro ⟨o, ho, hadmits⟩; exact ⟨o, ho, (isOk_check_of_mem h hoptions o ho).mpr hadmits⟩
  · next hoptions => simp [hoptions]

theorem verdictOf_oneOf_eq_ok_iff :
    verdictOf "oneOf" checkOneOf matching rules v location = .ok () ↔
      OneOfFits matching rules v := by
  unfold verdictOf OneOfFits
  split
  · next options hoptions =>
    rw [checkOneOf_eq_ok_iff, hoptions]
    simp only [Option.some.injEq, forall_eq']
    constructor
    · rintro ⟨before, o, after, rfl, ho, hothers⟩
      refine ⟨before, o, after, rfl, (isOk_check_of_mem h hoptions o (by simp)).mp ho, ?_⟩
      intro y hy hadmits
      refine hothers y hy ((isOk_check_of_mem h hoptions y ?_).mpr hadmits)
      rcases List.mem_append.mp hy with hy | hy <;> simp [hy]
    · rintro ⟨before, o, after, rfl, ho, hothers⟩
      refine ⟨before, o, after, rfl, (isOk_check_of_mem h hoptions o (by simp)).mpr ho, ?_⟩
      intro y hy hok
      refine hothers y hy ((isOk_check_of_mem h hoptions y ?_).mp hok)
      rcases List.mem_append.mp hy with hy | hy <;> simp [hy]
  · next hoptions => simp [hoptions]

theorem check_object_eq_ok_iff {u : Unit} :
    check matching (.object rules) v location = .ok u ↔ Fits matching rules v := by
  rw [check_object_eq]
  simp only [Outcome.bind_eq_ok, checkKind_eq_ok_iff, checkEnum_eq_ok_iff,
    verdictOf_anyOf_eq_ok_iff h, verdictOf_oneOf_eq_ok_iff h, checkContent_eq_ok_iff h]
  constructor
  · rintro ⟨_, hkind, _, henum, _, hany, _, hone, hcontent⟩
    exact ⟨hkind, henum, hany, hone, hcontent⟩
  · intro hfits
    exact ⟨(), hfits.kind, (), hfits.enum, (), hfits.anyOf, (), hfits.oneOf, hfits.content⟩

end Object

theorem uniform (matching : Matching) (schema : Value) : Uniform matching schema := by
  have of_iff {schema : Value} {P : Value → Prop}
      (h : ∀ v location u, check matching schema v location = .ok u ↔ P v) :
      Uniform matching schema := fun v location u => (h v location u).trans (h v .root ()).symm
  induction hsize : sizeOf schema using Nat.strongRecOn generalizing schema with
  | ind size ih =>
    subst hsize
    cases schema with
    | object rules =>
      refine of_iff fun v location u => check_object_eq_ok_iff fun inner hinner => ih _ ?_ inner rfl
      simp only [Value.object.sizeOf_spec]
      omega
    | bool b =>
      refine of_iff (P := fun _ => b = true) fun v location u => ?_
      cases b <;> simp [check]
    | _ =>
      refine of_iff (P := fun _ => False) fun v location u => ?_
      simp [check]

/-- What an object of rules accepts. -/
theorem admits_object_iff {matching : Matching} {rules : Entries Value} {v : Value} :
    Admits matching (.object rules) v ↔ Fits matching rules v :=
  check_object_eq_ok_iff fun schema _ => uniform matching schema

end Validator

end DocSchema

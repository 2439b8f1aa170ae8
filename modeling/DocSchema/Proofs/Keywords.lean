-- SUMMARY: Groups of keywords, what a change of one group leaves alone, and kinds that rules name.
import DocSchema.Proofs.Admits
import DocSchema.Validator.Rules

/-!
# Groups of keywords

Each condition of `Fits` reads the keywords of one group. A change of the rules
inside one group is felt by the values which that group speaks about, and by no
others. `Shape` says which kinds compiled rules name; changes of other keywords
keep it.
-/

namespace DocSchema

/-- The entries agree except under some names. -/
def AgreeOff (keys : List String) (r s : Entries Value) : Prop :=
  ∀ key, key ∉ keys → Entries.get? r key = Entries.get? s key

namespace AgreeOff

variable {keys : List String} {r s t : Entries Value}

theorem refl : AgreeOff keys r r := fun _ _ => rfl

theorem trans (h : AgreeOff keys r s) (h' : AgreeOff keys s t) : AgreeOff keys r t :=
  fun key hkey => (h key hkey).trans (h' key hkey)

theorem insert {key : String} (hkey : key ∈ keys) (v : Value) :
    AgreeOff keys (Entries.insert r key v) r := by
  intro other hother
  refine Entries.get?_insert_of_ne ?_ r v
  rintro rfl
  exact hother hkey

theorem erase {key : String} (hkey : key ∈ keys) : AgreeOff keys (Entries.erase r key) r := by
  intro other hother
  rw [Entries.get?_erase, if_neg]
  rintro rfl
  exact hother hkey

theorem on {group : List String} (h : AgreeOff keys r s) (hgroup : ∀ key ∈ group, key ∉ keys) :
    ∀ key ∈ group, Entries.get? r key = Entries.get? s key :=
  fun key hkey => h key (hgroup key hkey)

end AgreeOff

namespace Validator

variable {matching : Matching} {r s : Entries Value} {keys : List String}

/-! ## Keywords read separately -/

theorem KindFits.congr (h : AgreeOff keys r s) (hkey : "bsonType" ∉ keys) (v : Value) :
    KindFits r v ↔ KindFits s v := by
  unfold KindFits
  rw [h _ hkey]

theorem EnumFits.congr (h : AgreeOff keys r s) (hkey : "enum" ∉ keys) (v : Value) :
    EnumFits r v ↔ EnumFits s v := by
  unfold EnumFits
  rw [h _ hkey]

theorem AnyOfFits.congr (matching : Matching) (h : AgreeOff keys r s) (hkey : "anyOf" ∉ keys)
    (v : Value) : AnyOfFits matching r v ↔ AnyOfFits matching s v := by
  unfold AnyOfFits alternatives?
  rw [h _ hkey]

theorem OneOfFits.congr (matching : Matching) (h : AgreeOff keys r s) (hkey : "oneOf" ∉ keys)
    (v : Value) : OneOfFits matching r v ↔ OneOfFits matching s v := by
  unfold OneOfFits alternatives?
  rw [h _ hkey]

def stringKeywords : List String := ["minLength", "maxLength", "pattern"]

def numberKeywords : List String :=
  ["minimum", "exclusiveMinimum", "maximum", "exclusiveMaximum", "multipleOf"]

def arrayKeywords : List String := ["minItems", "maxItems", "items"]

def objectKeywords : List String := ["required", "properties", "additionalProperties"]

theorem StringFits.congr (hget : ∀ key ∈ stringKeywords, Entries.get? r key = Entries.get? s key)
    (text : String) : StringFits matching r text ↔ StringFits matching s text := by
  have h1 := hget "minLength" (by decide)
  have h2 := hget "maxLength" (by decide)
  have h3 := hget "pattern" (by decide)
  constructor
  · rintro ⟨hmin, hmax, hpattern⟩
    exact ⟨by rwa [← h1], by rwa [← h2], by rwa [← h3]⟩
  · rintro ⟨hmin, hmax, hpattern⟩
    exact ⟨by rwa [h1], by rwa [h2], by rwa [h3]⟩

theorem NumberFits.congr (hget : ∀ key ∈ numberKeywords, Entries.get? r key = Entries.get? s key)
    (n : Double) : NumberFits r n ↔ NumberFits s n := by
  have hset (key : String) (hkey : key ∈ numberKeywords) : isSet r key = isSet s key := by
    unfold isSet
    rw [hget key hkey]
  have h1 := hget "minimum" (by decide)
  have h2 := hset "exclusiveMinimum" (by decide)
  have h3 := hget "maximum" (by decide)
  have h4 := hset "exclusiveMaximum" (by decide)
  have h5 := hget "multipleOf" (by decide)
  constructor
  · rintro ⟨hmin, hmax, hdivisor⟩
    exact ⟨by rwa [← h1, ← h2], by rwa [← h3, ← h4], by rwa [← h5]⟩
  · rintro ⟨hmin, hmax, hdivisor⟩
    exact ⟨by rwa [h1, h2], by rwa [h3, h4], by rwa [h5]⟩

theorem ItemsFit.congr (hget : ∀ key ∈ arrayKeywords, Entries.get? r key = Entries.get? s key)
    (items : List Value) : ItemsFit matching r items ↔ ItemsFit matching s items := by
  have helements : ElementsFit matching r items ↔ ElementsFit matching s items := by
    unfold ElementsFit
    rw [hget "items" (by decide)]
  have h1 := hget "minItems" (by decide)
  have h2 := hget "maxItems" (by decide)
  constructor
  · rintro ⟨hmin, hmax, hitems⟩
    exact ⟨by rwa [← h1], by rwa [← h2], helements.mp hitems⟩
  · rintro ⟨hmin, hmax, hitems⟩
    exact ⟨by rwa [h1], by rwa [h2], helements.mpr hitems⟩

theorem EntriesFit.congr (hget : ∀ key ∈ objectKeywords, Entries.get? r key = Entries.get? s key)
    (fields : Entries Value) : EntriesFit matching r fields ↔ EntriesFit matching s fields := by
  have hentry (name : String) (v : Value) :
      EntryFits matching r name v ↔ EntryFits matching s name v := by
    unfold EntryFits entryRule declaredProperties
    rw [hget "properties" (by decide), hget "additionalProperties" (by decide)]
  have h1 := hget "required" (by decide)
  constructor
  · rintro ⟨hrequired, hentries⟩
    exact ⟨by rwa [← h1], fun e he => (hentry _ _).mp (hentries e he)⟩
  · rintro ⟨hrequired, hentries⟩
    exact ⟨by rwa [h1], fun e he => (hentry _ _).mpr (hentries e he)⟩

/-- The keywords that the content of a value is checked against. -/
def contentKeywords : List String :=
  stringKeywords ++ numberKeywords ++ arrayKeywords ++ objectKeywords

theorem ContentFits.congr (matching : Matching) (h : AgreeOff keys r s)
    (hkeys : ∀ key ∈ contentKeywords, key ∉ keys) (v : Value) :
    ContentFits matching r v ↔ ContentFits matching s v := by
  have hon {group : List String} (hgroup : ∀ key ∈ group, key ∈ contentKeywords) :
      ∀ key ∈ group, Entries.get? r key = Entries.get? s key :=
    h.on fun key hkey => hkeys key (hgroup key hkey)
  cases v with
  | string text => exact StringFits.congr (hon (by decide)) text
  | number n => exact NumberFits.congr (hon (by decide)) n.toDouble
  | array items => exact ItemsFit.congr (hon (by decide)) items
  | object fields => simp only [ContentFits, EntriesFit.congr (hon (by decide)) fields]
  | _ => exact Iff.rfl

/-- A change that only the content of a value feels. -/
theorem fits_of_content_change (h : AgreeOff keys r s)
    (hkeys : ∀ key ∈ ["bsonType", "enum", "anyOf", "oneOf"], key ∉ keys) {v : Value} {P : Prop}
    (hcontent : ContentFits matching r v ↔ ContentFits matching s v ∧ P) :
    Fits matching r v ↔ Fits matching s v ∧ P := by
  have hkind := KindFits.congr h (hkeys _ (by decide)) v
  have henum := EnumFits.congr h (hkeys _ (by decide)) v
  have hany := AnyOfFits.congr matching h (hkeys _ (by decide)) v
  have hone := OneOfFits.congr matching h (hkeys _ (by decide)) v
  constructor
  · rintro ⟨h1, h2, h3, h4, h5⟩
    obtain ⟨hfits, hP⟩ := hcontent.mp h5
    exact ⟨⟨hkind.mp h1, henum.mp h2, hany.mp h3, hone.mp h4, hfits⟩, hP⟩
  · rintro ⟨⟨h1, h2, h3, h4, h5⟩, hP⟩
    exact ⟨hkind.mpr h1, henum.mpr h2, hany.mpr h3, hone.mpr h4, hcontent.mpr ⟨h5, hP⟩⟩

/-- A change of string keywords is felt by strings only. -/
theorem fits_of_string_change (h : AgreeOff stringKeywords r s) {P : String → Prop}
    (hstring : ∀ text, StringFits matching r text ↔ StringFits matching s text ∧ P text)
    (v : Value) :
    Fits matching r v ↔ Fits matching s v ∧ ∀ text, v = .string text → P text := by
  refine fits_of_content_change h (by decide) ?_
  cases v with
  | string text => simpa [ContentFits] using hstring text
  | number n => simpa [ContentFits] using NumberFits.congr (h.on (by decide)) n.toDouble
  | array items => simpa [ContentFits] using ItemsFit.congr (h.on (by decide)) items
  | object fields => simp [ContentFits, EntriesFit.congr (h.on (by decide)) fields]
  | _ => simp [ContentFits]

/-- A change of number keywords is felt by numbers only. -/
theorem fits_of_number_change (h : AgreeOff numberKeywords r s) {P : Number → Prop}
    (hnumber : ∀ n : Number, NumberFits r n.toDouble ↔ NumberFits s n.toDouble ∧ P n) (v : Value) :
    Fits matching r v ↔ Fits matching s v ∧ ∀ n, v = .number n → P n := by
  refine fits_of_content_change h (by decide) ?_
  cases v with
  | string text => simpa [ContentFits] using StringFits.congr (h.on (by decide)) text
  | number n => simpa [ContentFits] using hnumber n
  | array items => simpa [ContentFits] using ItemsFit.congr (h.on (by decide)) items
  | object fields => simp [ContentFits, EntriesFit.congr (h.on (by decide)) fields]
  | _ => simp [ContentFits]

/-- A change of the kinds is felt by nothing else. -/
theorem fits_of_kind_change (h : AgreeOff ["bsonType"] r s) {v : Value} {P : Prop}
    (hkind : KindFits r v ↔ KindFits s v ∧ P) : Fits matching r v ↔ Fits matching s v ∧ P := by
  have henum := EnumFits.congr h (by decide) v
  have hany := AnyOfFits.congr matching h (by decide) v
  have hone := OneOfFits.congr matching h (by decide) v
  have hcontent := ContentFits.congr matching h (by decide) v
  constructor
  · rintro ⟨h1, h2, h3, h4, h5⟩
    obtain ⟨hfits, hP⟩ := hkind.mp h1
    exact ⟨⟨hfits, henum.mp h2, hany.mp h3, hone.mp h4, hcontent.mp h5⟩, hP⟩
  · rintro ⟨⟨h1, h2, h3, h4, h5⟩, hP⟩
    exact ⟨hkind.mpr ⟨h1, hP⟩, henum.mpr h2, hany.mpr h3, hone.mpr h4, hcontent.mpr h5⟩

/-! ## Kinds -/

theorem isOfKind_name (v : Value) (kind : Kind) (hkind : kind.name ≠ "number") :
    v.isOfKind kind.name = true ↔ v.kind = kind := by
  unfold Value.isOfKind
  rw [if_neg hkind, decide_eq_true_eq]
  constructor
  · intro h
    cases hv : v.kind <;> cases kind <;> simp_all [Kind.name]
  · rintro rfl
    rfl

theorem isOfKind_number (v : Value) : v.isOfKind "number" = true ↔ ∃ n, v = .number n := by
  have h : v.isOfKind "number" = v.kind.isNumeric := if_pos rfl
  rw [h]
  cases v with
  | number n =>
    simp only [Value.kind, Number.kind, Value.number.injEq, exists_eq', iff_true]
    split
    · split <;> rfl
    · rfl
  | object fields =>
    simp only [Value.kind]
    split <;> simp [Kind.isNumeric]
  | _ => simp [Value.kind, Kind.isNumeric]

theorem kind_eq_null_iff (v : Value) : v.kind = .null ↔ v = .null := by
  cases v with
  | number n =>
    simp only [Value.kind, Number.kind]
    split
    · split <;> simp
    · simp
  | object fields =>
    simp only [Value.kind]
    split <;> simp
  | _ => simp [Value.kind]

theorem kind_eq_string_iff (v : Value) : v.kind = .string ↔ ∃ text, v = .string text := by
  cases v with
  | number n =>
    simp only [Value.kind, Number.kind]
    split
    · split <;> simp
    · simp
  | object fields =>
    simp only [Value.kind]
    split <;> simp
  | _ => simp [Value.kind]

theorem kind_eq_array_iff (v : Value) : v.kind = .array ↔ ∃ items, v = .array items := by
  cases v with
  | number n =>
    simp only [Value.kind, Number.kind]
    split
    · split <;> simp
    · simp
  | object fields =>
    simp only [Value.kind]
    split <;> simp
  | _ => simp [Value.kind]

theorem eq_object_of_kind {v : Value} (h : v.kind = .object) : ∃ fields, v = .object fields := by
  cases v with
  | number n =>
    simp only [Value.kind, Number.kind] at h
    split at h
    · split at h <;> cases h
    · cases h
  | object fields => exact ⟨fields, rfl⟩
  | _ => cases h

theorem kind_number (n : Number) :
    ((Value.number n).kind = .int ∨ (Value.number n).kind = .long) ↔ n.toInt64?.isSome = true := by
  simp only [Value.kind, Number.kind]
  cases n.toInt64? with
  | none => simp
  | some i => simp only [Option.isSome_some, iff_true]; split <;> simp

/-- Whether a value is an integer that the storage engine has a kind for. -/
def IsInteger (v : Value) : Prop := v.kind = .int ∨ v.kind = .long

theorem isInteger_iff (v : Value) :
    IsInteger v ↔ (∃ n, v = .number n) ∧ ∀ n, v = .number n → n.toInt64?.isSome = true := by
  unfold IsInteger
  cases v with
  | number n => rw [kind_number]; simp
  | object fields =>
    simp only [Value.kind]
    split <;> simp
  | _ => simp [Value.kind]

theorem isOfKind_null (v : Value) : v.isOfKind "null" = true ↔ v = .null :=
  (isOfKind_name v .null (by decide)).trans (kind_eq_null_iff v)

theorem isOfKind_string (v : Value) : v.isOfKind "string" = true ↔ ∃ text, v = .string text :=
  (isOfKind_name v .string (by decide)).trans (kind_eq_string_iff v)

theorem isOfKind_array (v : Value) : v.isOfKind "array" = true ↔ ∃ items, v = .array items :=
  (isOfKind_name v .array (by decide)).trans (kind_eq_array_iff v)

theorem isOfKind_object (v : Value) : v.isOfKind "object" = true ↔ v.kind = .object :=
  isOfKind_name v .object (by decide)

theorem isOfKind_integer (v : Value) :
    v.isOfKind "int" = true ∨ v.isOfKind "long" = true ↔ IsInteger v :=
  or_congr (isOfKind_name v .int (by decide)) (isOfKind_name v .long (by decide))

theorem kindFits_of_get? {expected : Value} (h : Entries.get? r "bsonType" = some expected)
    (v : Value) : KindFits r v ↔ kindMatches expected v = true := by
  simp [KindFits, h]

theorem string_beq_string (a b : String) : (Value.string a == Value.string b) = (a == b) := rfl

theorem kindMatches_names (names : List String) (v : Value) :
    kindMatches (.array (names.map .string)) v = true ↔ ∃ name ∈ names, v.isOfKind name = true := by
  have hnames : (names.map Value.string).filterMap Value.string? = names := by
    rw [List.filterMap_map]
    exact List.filterMap_some
  simp only [kindMatches, hnames, List.any_eq_true]

theorem kindMatches_two (a b : String) (v : Value) :
    kindMatches (.array [.string a, .string b]) v = true ↔
      v.isOfKind a = true ∨ v.isOfKind b = true :=
  (kindMatches_names [a, b] v).trans (by simp)

theorem kindMatches_three (a b c : String) (v : Value) :
    kindMatches (.array [.string a, .string b, .string c]) v = true ↔
      (v.isOfKind a = true ∨ v.isOfKind b = true) ∨ v.isOfKind c = true :=
  (kindMatches_names [a, b, c] v).trans (by simp [or_assoc])

/-- The kinds that a compiled body names. -/
inductive KindShape : Option Value → Prop where
  | absent : KindShape none
  | single (name : String) : KindShape (some (.string name))
  | nullable (name : String) : KindShape (some (.array [.string name, .string "null"]))
  | integer : KindShape (some (.array [.string "int", .string "long"]))
  | nullableInteger :
    KindShape (some (.array [.string "int", .string "long", .string "null"]))

/-- Compiled rules name their kinds in one of a few ways, and rules that name a
kind list no values and no alternatives. -/
structure Shape (rules : Entries Value) : Prop where
  kind : KindShape (Entries.get? rules "bsonType")
  alone : Entries.get? rules "bsonType" ≠ none → ∀ key ∈ ["enum", "anyOf", "oneOf"],
    Entries.get? rules key = none

theorem Shape.of_agree (h : AgreeOff keys r s)
    (hkeys : ∀ key ∈ ["bsonType", "enum", "anyOf", "oneOf"], key ∉ keys) (hs : Shape s) :
    Shape r := by
  have hkind := h _ (hkeys "bsonType" (by decide))
  refine ⟨by rw [hkind]; exact hs.kind, fun hpresent key hkey => ?_⟩
  rw [h key (hkeys key (List.mem_cons_of_mem _ hkey))]
  exact hs.alone (by rwa [← hkind]) key hkey

/-- Rules that get other kinds keep their shape. -/
theorem Shape.insert_kind {expected : Value} (hs : Shape r)
    (hpresent : Entries.get? r "bsonType" ≠ none) (hshape : KindShape (some expected)) :
    Shape (Entries.insert r "bsonType" expected) := by
  refine ⟨by rw [Entries.get?_insert_self]; exact hshape, fun _ key hkey => ?_⟩
  rw [Entries.get?_insert_of_ne]
  · exact hs.alone hpresent key hkey
  · rintro rfl
    revert hkey
    decide

end Validator

end DocSchema

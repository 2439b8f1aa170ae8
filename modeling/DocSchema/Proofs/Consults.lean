-- SUMMARY: The patterns that an evaluation may look up, and that its result depends on no others.
import DocSchema.Proofs.Admits

/-!
# Patterns that are consulted

Evaluating a schema on a value goes down the alternatives, the elements and the
entries that both have, and looks a pattern up where it comes to a text.
`Consults` lists these look-ups. An evaluation may stop before it makes all of
them; it makes no others: two ways to decide patterns that answer them alike
give one result, with the same issue at the same place (`check_eq_of_consults`).
-/

namespace DocSchema

namespace Validator

/-- Evaluating the schema on the value may look the pattern `source` up, to match it with
`text`. -/
inductive Consults (source text : String) : Value → Value → Prop where
  | pattern {rules : Entries Value} :
    (Entries.get? rules "pattern").bind Value.string? = some source →
      Consults source text (.object rules) (.string text)
  | alternative {rules : Entries Value} {keyword : String} {options : List Value}
      {option v : Value} :
    keyword = "anyOf" ∨ keyword = "oneOf" → alternatives? rules keyword = some options →
      option ∈ options → Consults source text option v → Consults source text (.object rules) v
  | position {rules : Entries Value} {positional items : List Value} {e : Value × Value} :
    Entries.get? rules "items" = some (.array positional) → e ∈ positional.zip items →
      Consults source text e.1 e.2 → Consults source text (.object rules) (.array items)
  | element {rules : Entries Value} {schema v : Value} {items : List Value} :
    Entries.get? rules "items" = some schema → schema.isArray = false → v ∈ items →
      Consults source text schema v → Consults source text (.object rules) (.array items)
  | entry {rules fields : Entries Value} {e : String × Value} {schema : Value} :
    (Value.object fields).kind = .object → e ∈ fields → entryRule rules e.1 = .schema schema →
      Consults source text schema e.2 → Consults source text (.object rules) (.object fields)

/-! ## Checks of parts -/

section

variable {location : Location}

theorem checkPositions_congr {f g : Value → Value → Location → Except Issue Unit}
    {schemas items : List Value} {i : Nat}
    (h : ∀ e ∈ schemas.zip items, ∀ location, f e.1 e.2 location = g e.1 e.2 location) :
    checkPositions location i (schemas.map f) items =
      checkPositions location i (schemas.map g) items := by
  induction schemas generalizing i items with
  | nil => rfl
  | cons schema schemas ih =>
    cases items with
    | nil => rfl
    | cons v rest =>
      obtain ⟨hhead, hrest⟩ := List.forall_mem_cons.mp h
      simp only [List.map_cons, checkPositions, hhead, ih hrest]

theorem checkElements_congr {f g : Value → Location → Except Issue Unit} {items : List Value}
    {i : Nat} (h : ∀ v ∈ items, ∀ location, f v location = g v location) :
    checkElements f location i items = checkElements g location i items := by
  induction items generalizing i with
  | nil => rfl
  | cons v rest ih =>
    obtain ⟨hhead, hrest⟩ := List.forall_mem_cons.mp h
    simp only [checkElements, hhead, ih hrest]

theorem checkEntries_congr {f g : String → Value → Location → Except Issue Unit}
    {fields : Entries Value}
    (h : ∀ e ∈ fields, ∀ location, f e.1 e.2 location = g e.1 e.2 location) :
    checkEntries f location fields = checkEntries g location fields := by
  induction fields with
  | nil => rfl
  | cons e rest ih =>
    obtain ⟨hhead, hrest⟩ := List.forall_mem_cons.mp h
    simp only [checkEntries, hhead, ih hrest]

end

/-! ## The evaluation -/

/-- Two ways to decide patterns answer alike what an evaluation may ask. -/
def AnswerAlike (m m' : Matching) (schema v : Value) : Prop :=
  ∀ source text, Consults source text schema v → m source text = m' source text

section

variable {m m' : Matching} {rules : Entries Value} {v : Value} {location : Location}

theorem checkPattern_eq_of_consults {text : String}
    (h : AnswerAlike m m' (.object rules) (.string text)) :
    checkPattern m rules text location = checkPattern m' rules text location := by
  unfold checkPattern
  split
  · next source hsource => rw [h source text (.pattern hsource)]
  · rfl

/-- Smaller schemas are evaluated alike where the answers that they may ask for are alike. -/
def AlikeBelow (m m' : Matching) (rules : Entries Value) : Prop :=
  ∀ schema v, sizeOf schema < sizeOf rules → AnswerAlike m m' schema v →
    ∀ location, check m schema v location = check m' schema v location

theorem verdictOf_eq_of_consults {keyword : String}
    {combine : List Bool → Location → Except Issue Unit}
    (below : AlikeBelow m m' rules) (h : AnswerAlike m m' (.object rules) v)
    (hkeyword : keyword = "anyOf" ∨ keyword = "oneOf") :
    verdictOf keyword combine m rules v location =
      verdictOf keyword combine m' rules v location := by
  unfold verdictOf
  split
  · next options hoptions =>
    have verdicts : (options.map fun option => (check m option v location).isOk) =
        options.map fun option => (check m' option v location).isOk := by
      refine List.map_congr_left fun option hmem => ?_
      rw [below option v (sizeOf_lt_of_mem_alternatives? hoptions hmem)
        fun source text hin => h source text (.alternative hkeyword hoptions hmem hin)]
    rw [verdicts]
  · rfl

theorem checkContent_eq_of_consults (below : AlikeBelow m m' rules)
    (h : AnswerAlike m m' (.object rules) v) :
    checkContent m rules v location = checkContent m' rules v location := by
  cases v with
  | string text => simp only [checkContent, checkString, checkPattern_eq_of_consults h]
  | array items =>
    simp only [checkContent]
    congr 1; funext _
    congr 1; funext _
    split
    · next positional hget =>
      exact checkPositions_congr fun e he => below e.1 e.2
        (sizeOf_lt_of_mem_array hget (List.of_mem_zip he).1)
        fun source text hin => h source text (.position hget he hin)
    · next schema hne hget =>
      have single : schema.isArray = false := by
        cases schema with
        | array positional => exact (hne positional rfl).elim
        | _ => rfl
      exact checkElements_congr fun w hw => below schema w (sizeOf_lt_of_get? hget)
        fun source text hin => h source text (.element hget single hw hin)
    · rfl
  | object fields =>
    simp only [checkContent]
    split
    · next hkind =>
      congr 1
      funext _
      refine checkEntries_congr fun e he location => ?_
      split
      · next schema hrule =>
        exact below schema e.2 (sizeOf_lt_of_entryRule hrule)
          (fun source text hin => h source text (.entry hkind he hrule hin)) location
      · rfl
      · rfl
    · rfl
  | _ => rfl

end

/-- The result of an evaluation depends on the patterns that it consults only. -/
theorem check_eq_of_consults {m m' : Matching} {schema v : Value} (h : AnswerAlike m m' schema v)
    (location : Location) : check m schema v location = check m' schema v location := by
  induction hsize : sizeOf schema using Nat.strongRecOn generalizing schema v location with
  | ind size ih =>
    subst hsize
    cases schema with
    | object rules =>
      have below : AlikeBelow m m' rules := by
        intro schema w hsmall halike location
        refine ih _ ?_ halike location rfl
        simp only [Value.object.sizeOf_spec]
        omega
      rw [check_object_eq, check_object_eq, checkContent_eq_of_consults below h,
        verdictOf_eq_of_consults below h (.inl rfl), verdictOf_eq_of_consults below h (.inr rfl)]
    | bool b => cases b <;> simp [check]
    | _ => simp [check]

end Validator

end DocSchema

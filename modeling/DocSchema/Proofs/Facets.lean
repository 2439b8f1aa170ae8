-- SUMMARY: How the checks of a leaf or a facet fold into keywords.
import DocSchema.Proofs.Double
import DocSchema.Proofs.Keywords
import DocSchema.Proofs.Parsing
import DocSchema.Validator.Document

/-!
# Checks as keywords

Rules grow check by check. Each step changes the keywords of one group and makes
the rules accept exactly the values that met them before and also meet the
check: the strictest bound stands for all bounds, and a narrowed kind for the
demand of an integer.
-/

namespace DocSchema

namespace Validator

variable {matching : Matching} {r : Entries Value} {keys : List String}

/-! ## Checks of strings -/

theorem toNat?_int (n : Nat) : Value.toNat? (.int n) = some n := rfl

/-- A raised bound stands for both bounds. -/
theorem raise_iff (rules : Rules) (keyword : String) (n length : Nat) :
    (∀ least, (Entries.get? (rules.raise keyword n) keyword).bind Value.toNat? = some least →
      least ≤ length) ↔
    (∀ least, (Entries.get? rules keyword).bind Value.toNat? = some least → least ≤ length) ∧
      n ≤ length := by
  unfold Rules.raise
  split
  · next current hcurrent =>
    split
    · next hlt =>
      simp only [Entries.get?_insert_self, hcurrent, Option.bind_some, toNat?_int,
        Option.some.injEq, forall_eq']
      omega
    · next hge =>
      simp only [hcurrent, Option.some.injEq, forall_eq']
      omega
  · next hcurrent =>
    simp [Entries.get?_insert_self, hcurrent, toNat?_int]

/-- A lowered bound stands for both bounds. -/
theorem lower_iff (rules : Rules) (keyword : String) (n length : Nat) :
    (∀ most, (Entries.get? (rules.lower keyword n) keyword).bind Value.toNat? = some most →
      length ≤ most) ↔
    (∀ most, (Entries.get? rules keyword).bind Value.toNat? = some most → length ≤ most) ∧
      length ≤ n := by
  unfold Rules.lower
  split
  · next current hcurrent =>
    split
    · next hlt =>
      simp only [Entries.get?_insert_self, hcurrent, Option.bind_some, toNat?_int,
        Option.some.injEq, forall_eq']
      omega
    · next hge =>
      simp only [hcurrent, Option.some.injEq, forall_eq']
      omega
  · next hcurrent =>
    simp [Entries.get?_insert_self, hcurrent, toNat?_int]

theorem agreeOff_raise {keyword : String} (hkey : keyword ∈ keys) (n : Nat) :
    AgreeOff keys (Rules.raise r keyword n) r := by
  unfold Rules.raise
  split
  · split
    · exact .insert hkey _
    · exact .refl
  · exact .insert hkey _

theorem agreeOff_lower {keyword : String} (hkey : keyword ∈ keys) (n : Nat) :
    AgreeOff keys (Rules.lower r keyword n) r := by
  unfold Rules.lower
  split
  · split
    · exact .insert hkey _
    · exact .refl
  · exact .insert hkey _

theorem raise_minLength_iff (n : Nat) (text : String) :
    StringFits matching (Rules.raise r "minLength" n) text ↔
      StringFits matching r text ∧ n ≤ text.length := by
  have hagree : AgreeOff ["minLength"] (Rules.raise r "minLength" n) r :=
    agreeOff_raise List.mem_cons_self n
  have hbound := raise_iff r "minLength" n text.length
  have h2 := hagree "maxLength" (by decide)
  have h3 := hagree "pattern" (by decide)
  constructor
  · rintro ⟨hmin, hmax, hpattern⟩
    exact ⟨⟨(hbound.mp hmin).1, by rwa [← h2], by rwa [← h3]⟩, (hbound.mp hmin).2⟩
  · rintro ⟨⟨hmin, hmax, hpattern⟩, hn⟩
    exact ⟨hbound.mpr ⟨hmin, hn⟩, by rwa [h2], by rwa [h3]⟩

theorem lower_maxLength_iff (n : Nat) (text : String) :
    StringFits matching (Rules.lower r "maxLength" n) text ↔
      StringFits matching r text ∧ text.length ≤ n := by
  have hagree : AgreeOff ["maxLength"] (Rules.lower r "maxLength" n) r :=
    agreeOff_lower List.mem_cons_self n
  have hbound := lower_iff r "maxLength" n text.length
  have h1 := hagree "minLength" (by decide)
  have h3 := hagree "pattern" (by decide)
  constructor
  · rintro ⟨hmin, hmax, hpattern⟩
    exact ⟨⟨by rwa [← h1], (hbound.mp hmax).1, by rwa [← h3]⟩, (hbound.mp hmax).2⟩
  · rintro ⟨⟨hmin, hmax, hpattern⟩, hn⟩
    exact ⟨by rwa [h1], hbound.mpr ⟨hmax, hn⟩, by rwa [h3]⟩

theorem setPattern_iff (matching : Matching) {source : String} {location : Location}
    {rules : Rules} (h : Rules.setPattern r source location = .ok rules) :
    AgreeOff ["pattern"] rules r ∧ ∀ text,
      StringFits matching rules text ↔ StringFits matching r text ∧ matching source text = true := by
  unfold Rules.setPattern at h
  split at h
  · next current hcurrent =>
    split at h
    · next hsame =>
      cases h
      refine ⟨.refl, fun text => ⟨fun hfits => ⟨hfits, ?_⟩, fun hfits => hfits.1⟩⟩
      exact hfits.pattern source (by rw [hcurrent, hsame])
    · cases h
  · next hcurrent =>
    cases h
    have hagree : AgreeOff ["pattern"] (Entries.insert r "pattern" (.string source)) r :=
      .insert List.mem_cons_self _
    have h1 := hagree "minLength" (by decide)
    have h2 := hagree "maxLength" (by decide)
    refine ⟨hagree, fun text => ⟨?_, ?_⟩⟩
    · rintro ⟨hmin, hmax, hpattern⟩
      refine ⟨⟨by rwa [← h1], by rwa [← h2], ?_⟩, hpattern source ?_⟩
      · intro other hother
        rw [hcurrent] at hother
        cases hother
      · rw [Entries.get?_insert_self]
        rfl
    · rintro ⟨⟨hmin, hmax, -⟩, hmatch⟩
      refine ⟨by rwa [h1], by rwa [h2], ?_⟩
      intro other hother
      rw [Entries.get?_insert_self] at hother
      cases hother
      exact hmatch

/-- Reading the text of a pattern gives the pattern back. -/
theorem read?_source (p : Pattern) : Pattern.read? p.source = some p := by
  unfold Pattern.read?
  split
  · next expr h =>
    obtain ⟨source, expr', hreads⟩ := p
    simp only at h ⊢
    cases hreads.symm.trans h
    rfl
  · next h =>
    rw [p.reads] at h
    cases h

theorem addStringCheck_iff {rules : Rules} {check : StringCheck} {location : Location}
    (h : Rules.addStringCheck location r check = .ok rules) :
    AgreeOff stringKeywords rules r ∧ ∀ text, StringFits readAndMatch rules text ↔
      StringFits readAndMatch r text ∧ check.holds text = true := by
  have pattern_change {source : String} (hset : Rules.setPattern r source location = .ok rules) :
      AgreeOff stringKeywords rules r ∧ ∀ text, StringFits readAndMatch rules text ↔
        StringFits readAndMatch r text ∧ readAndMatch source text = true := by
    obtain ⟨hagree, hfits⟩ := setPattern_iff readAndMatch hset
    exact ⟨fun key hkey => hagree key fun hmem => hkey (by
      cases List.mem_singleton.mp hmem
      decide), hfits⟩
  cases check with
  | minLength n =>
    cases h
    refine ⟨agreeOff_raise (by decide) n, fun text => ?_⟩
    rw [raise_minLength_iff]
    simp [StringCheck.holds]
  | maxLength n =>
    cases h
    refine ⟨agreeOff_lower (by decide) n, fun text => ?_⟩
    rw [lower_maxLength_iff]
    simp [StringCheck.holds]
  | length n =>
    cases h
    refine ⟨(agreeOff_lower (by decide) n).trans (agreeOff_raise (by decide) n), fun text => ?_⟩
    rw [lower_maxLength_iff, raise_minLength_iff, and_assoc]
    have hlength : n ≤ text.length ∧ text.length ≤ n ↔ text.length = n := by omega
    simp [StringCheck.holds, hlength]
  | pattern p =>
    obtain ⟨hagree, hfits⟩ := pattern_change h
    refine ⟨hagree, fun text => (hfits text).trans ?_⟩
    simp [readAndMatch, read?_source, StringCheck.holds]
  | email => exact pattern_change h
  | uuid => exact pattern_change h
  | url | startsWith | endsWith | includes => cases h

/-- The rules after a list of checks accept what they accepted before, as far as
strings meet the checks. -/
theorem addStringChecks_iff {rules : Rules} {checks : List StringCheck} {location : Location}
    (h : Rules.addStringChecks r checks location = .ok rules) :
    AgreeOff stringKeywords rules r ∧ ∀ text, StringFits readAndMatch rules text ↔
      StringFits readAndMatch r text ∧ StringCheck.allHold checks text = true := by
  unfold Rules.addStringChecks at h
  induction checks generalizing r with
  | nil =>
    cases h
    exact ⟨.refl, by simp [StringCheck.allHold]⟩
  | cons check checks ih =>
    rw [List.foldlM_cons, Outcome.bind_eq_ok] at h
    obtain ⟨next, hnext, hrest⟩ := h
    obtain ⟨hagree, hfits⟩ := addStringCheck_iff hnext
    obtain ⟨hagrees, hall⟩ := ih hrest
    refine ⟨hagrees.trans hagree, fun text => ?_⟩
    rw [hall, hfits, and_assoc]
    simp [StringCheck.allHold]

/-! ## Bounds on numbers -/

/-- The value respects the bound that stands in the rules. -/
def BoundFits (rules : Rules) (bound : Rules.Bound) (n : Double) : Prop :=
  ∀ limit, (Entries.get? rules bound.keyword).bind Value.toDouble? = some limit →
    (bound.stricter limit n || (isSet rules bound.exclusiveKeyword && n.beq limit)) = false

/-- A direction in which the limits of a bound get stricter. -/
structure Directed (bound : Rules.Bound) (place : Double → Int) : Prop where
  stricter_iff : ∀ {a b : Double}, a.isNaN = false → b.isNaN = false →
    (bound.stricter a b = true ↔ place b < place a)
  place_inj : ∀ {a b : Double}, place a = place b ↔ a.key = b.key
  keywords_ne : bound.keyword ≠ bound.exclusiveKeyword

theorem directed_lower : Directed .lower Double.key :=
  ⟨fun ha hb => Double.lt_iff hb ha, Iff.rfl, by decide⟩

theorem directed_upper : Directed .upper fun d => -d.key := by
  refine ⟨fun ha hb => ?_, fun {a b} => ?_, by decide⟩
  · rw [Rules.Bound.upper]
    dsimp only
    rw [Double.lt_iff ha hb]
    omega
  · omega

theorem isNaN_of_toDouble? {v : Option Value} {d : Double}
    (h : v.bind Value.toDouble? = some d) : d.isNaN = false := by
  obtain ⟨w, -, hw⟩ := Option.bind_eq_some_iff.mp h
  obtain ⟨n, -, rfl⟩ := Option.map_eq_some_iff.mp hw
  exact n.isNaN_toDouble

theorem Directed.boundFits_iff {bound : Rules.Bound} {place : Double → Int}
    (hd : Directed bound place) {rules : Rules} {n : Double} (hn : n.isNaN = false) :
    BoundFits rules bound n ↔
      ∀ limit, (Entries.get? rules bound.keyword).bind Value.toDouble? = some limit →
        place limit ≤ place n ∧
          (isSet rules bound.exclusiveKeyword = true → place limit ≠ place n) := by
  unfold BoundFits
  refine forall_congr' fun limit => forall_congr' fun hlimit => ?_
  have hlimit := isNaN_of_toDouble? hlimit
  have hstrict := hd.stricter_iff hlimit hn
  have hbeq := Double.beq_iff hn hlimit
  rw [Bool.or_eq_false_iff, Bool.and_eq_false_iff, ← Bool.not_eq_true, ← Bool.not_eq_true,
    ← Bool.not_eq_true, hstrict, hbeq, ← hd.place_inj]
  constructor
  · rintro ⟨hle, hne⟩
    exact ⟨by omega, fun hset heq => hne.elim (fun h => h hset) fun h => h heq.symm⟩
  · rintro ⟨hle, hne⟩
    refine ⟨by omega, ?_⟩
    by_cases hset : isSet rules bound.exclusiveKeyword = true
    · exact .inr fun heq => hne hset heq.symm
    · exact .inl hset

/-- The rules with a new limit in place of the old one. -/
def withLimit (rules : Rules) (bound : Rules.Bound) (shown : Number) (exclusive : Bool) : Rules :=
  if exclusive then
    Entries.insert (Entries.insert rules bound.keyword (.number shown)) bound.exclusiveKeyword
      (.bool true)
  else Entries.erase (Entries.insert rules bound.keyword (.number shown)) bound.exclusiveKeyword

theorem agreeOff_withLimit (bound : Rules.Bound) (shown : Number) (exclusive : Bool) :
    AgreeOff [bound.keyword, bound.exclusiveKeyword] (withLimit r bound shown exclusive) r := by
  unfold withLimit
  split
  · exact (AgreeOff.insert (by simp) _).trans (.insert (by simp) _)
  · exact (AgreeOff.erase (by simp)).trans (.insert (by simp) _)

theorem boundFits_withLimit {bound : Rules.Bound} {place : Double → Int}
    (hd : Directed bound place) (shown : Number) (exclusive : Bool) {n : Double}
    (hn : n.isNaN = false) :
    BoundFits (withLimit r bound shown exclusive) bound n ↔
      place shown.toDouble ≤ place n ∧
        (exclusive = true → place shown.toDouble ≠ place n) := by
  have hkeyword : Entries.get? (withLimit r bound shown exclusive) bound.keyword =
      some (.number shown) := by
    unfold withLimit
    split
    · rw [Entries.get?_insert_of_ne hd.keywords_ne.symm, Entries.get?_insert_self]
    · rw [Entries.get?_erase, if_neg hd.keywords_ne.symm, Entries.get?_insert_self]
  have hflag : isSet (withLimit r bound shown exclusive) bound.exclusiveKeyword = exclusive := by
    unfold isSet withLimit
    split
    · next hex => rw [Entries.get?_insert_self, hex]; rfl
    · next hex => simp [Entries.get?_erase, hex]
  have hdouble : (some (Value.number shown)).bind Value.toDouble? = some shown.toDouble := rfl
  rw [hd.boundFits_iff hn, hkeyword, hflag, hdouble]
  simp only [Option.some.injEq, forall_eq']

/-- What a new limit has to do with the rules it is added to. -/
theorem setBound_cases {bound : Rules.Bound} {limit : Double} {exclusive : Bool}
    {location : Location} {rules : Rules}
    (h : Rules.setBound r bound limit exclusive location = .ok rules) :
    ∃ shown, Number.ofBound? limit = some shown ∧
      ((rules = withLimit r bound shown exclusive ∧
        ∀ current, (Entries.get? r bound.keyword).bind Value.toDouble? = some current →
          bound.stricter limit current = true ∨
            limit.beq current = true ∧ exclusive = true ∧
              isSet r bound.exclusiveKeyword = false) ∨
      (rules = r ∧ ∃ current, (Entries.get? r bound.keyword).bind Value.toDouble? = some current ∧
        ¬ bound.stricter limit current = true ∧
          (limit.beq current = true → exclusive = true →
            isSet r bound.exclusiveKeyword = true))) := by
  unfold Rules.setBound at h
  split at h
  · cases h
  next shown hshown =>
  refine ⟨shown, hshown, ?_⟩
  have hset : Rules.isExclusive r bound = isSet r bound.exclusiveKeyword := rfl
  cases hcurrent : (Entries.get? r bound.keyword).bind Value.toDouble? with
  | none =>
    simp only [hcurrent, if_true] at h
    cases h
    exact .inl ⟨rfl, fun current hsome => by cases hsome⟩
  | some current =>
    simp only [hcurrent, hset] at h
    split at h
    · next hreplaces =>
      cases h
      refine .inl ⟨rfl, fun other hother => ?_⟩
      cases hother
      simpa [and_assoc] using hreplaces
    · next hreplaces =>
      cases h
      simp only [Bool.or_eq_true, Bool.and_eq_true, Bool.not_eq_true', not_or, not_and,
        Bool.not_eq_false] at hreplaces
      exact .inr ⟨rfl, current, rfl, hreplaces.1, fun heq hex => hreplaces.2 ⟨heq, hex⟩⟩

/-- Of two bounds the stricter one is kept, and it stands for both. -/
theorem setBound_iff {bound : Rules.Bound} {place : Double → Int} (hd : Directed bound place)
    {limit : Double} {exclusive : Bool} {location : Location} {rules : Rules}
    (h : Rules.setBound r bound limit exclusive location = .ok rules) :
    limit.isNaN = false ∧ AgreeOff [bound.keyword, bound.exclusiveKeyword] rules r ∧
      ∀ n : Double, n.isNaN = false → (BoundFits rules bound n ↔ BoundFits r bound n ∧
        place limit ≤ place n ∧ (exclusive = true → place limit ≠ place n)) := by
  obtain ⟨shown, hshown, hcases⟩ := setBound_cases h
  have hlimit := Double.isNaN_of_isFinite (Number.isFinite_of_ofBound? hshown)
  have hplace : place shown.toDouble = place limit :=
    hd.place_inj.mpr (Number.key_toDouble_of_ofBound? hshown)
  refine ⟨hlimit, ?_⟩
  rcases hcases with ⟨rfl, hreplaces⟩ | ⟨rfl, current, hcurrent, hnot, hkept⟩
  · refine ⟨agreeOff_withLimit bound shown exclusive, fun n hn => ?_⟩
    rw [boundFits_withLimit hd shown exclusive hn, hd.boundFits_iff hn, hplace]
    refine ⟨fun hnew => ⟨fun current hcurrent => ?_, hnew⟩, fun hboth => hboth.2⟩
    -- The old limit is not above the new one, and no stricter at the same place.
    have hnan := isNaN_of_toDouble? hcurrent
    rcases hreplaces current hcurrent with hlt | ⟨heq, hex, hfree⟩
    · rw [hd.stricter_iff hlimit hnan] at hlt
      exact ⟨by omega, fun _ => by omega⟩
    · rw [Double.beq_iff hlimit hnan, ← hd.place_inj] at heq
      exact ⟨by omega, fun hflag => by simp [hfree] at hflag⟩
  · refine ⟨.refl, fun n hn => ⟨fun hfits => ⟨hfits, ?_⟩, fun hboth => hboth.1⟩⟩
    -- The new limit is not above the old one, and no stricter at the same place.
    have hnan := isNaN_of_toDouble? hcurrent
    obtain ⟨hle, hne⟩ := (hd.boundFits_iff hn).mp hfits current hcurrent
    rw [hd.stricter_iff hlimit hnan] at hnot
    rw [Double.beq_iff hlimit hnan, ← hd.place_inj] at hkept
    refine ⟨by omega, fun hex heq => ?_⟩
    have hsame : place limit = place current := by omega
    exact hne (hkept hsame hex) (by omega)

/-! ## Divisors -/

theorem toDouble_eq_of_beq {m shown : Number} {divisor : Double}
    (hkey : shown.toDouble.key = divisor.key) (hpositive : 0 < divisor.key)
    (hbeq : (m == shown) = true) : m.toDouble = divisor := by
  have hkey' : m.toDouble.key = divisor.key := by
    cases m with
    | int a =>
      cases shown with
      | int b =>
        have hab : a = b := by simpa [BEq.beq, Number.beq] using hbeq
        rw [hab, hkey]
      | double b _ => cases hbeq
    | double a _ =>
      cases shown with
      | int b => cases hbeq
      | double b _ =>
        have hab : a.key = b.key := (Double.beq_iff'.mp hbeq).2.2
        exact hab.trans hkey
  exact Double.eq_of_key_eq hkey' (Int.ne_of_gt hpositive)

theorem setDivisor_iff {divisor : Double} {location : Location} {rules : Rules}
    (h : Rules.setDivisor r divisor location = .ok rules) :
    AgreeOff ["multipleOf"] rules r ∧ ∀ n : Double,
      ((∀ d, (Entries.get? rules "multipleOf").bind Value.toDouble? = some d →
        n.isMultipleOf d = true) ↔
      (∀ d, (Entries.get? r "multipleOf").bind Value.toDouble? = some d →
        n.isMultipleOf d = true) ∧ n.isMultipleOf divisor = true) := by
  unfold Rules.setDivisor at h
  split at h
  · cases h
  next hle =>
  split at h
  · cases h
  next shown hshown =>
  have hnan := Double.isNaN_of_isFinite (Number.isFinite_of_ofBound? hshown)
  have hpositive : 0 < divisor.key := by
    rw [Double.le_iff hnan (by decide)] at hle
    exact Int.not_le.mp hle
  have hkey := Number.key_toDouble_of_ofBound? hshown
  have hshown : shown.toDouble = divisor := Double.eq_of_key_eq hkey (Int.ne_of_gt hpositive)
  have hnew : (Entries.get? (Entries.insert r "multipleOf" (.number shown)) "multipleOf").bind
      Value.toDouble? = some divisor := by
    rw [Entries.get?_insert_self, ← hshown]
    rfl
  split at h
  · next current hcurrent =>
    split at h
    · next hsame =>
      cases h
      refine ⟨.insert List.mem_cons_self _, fun n => ?_⟩
      have hold : (Entries.get? r "multipleOf").bind Value.toDouble? = some divisor := by
        rw [hcurrent]
        cases current with
        | number m =>
          have hm : m.toDouble = divisor := toDouble_eq_of_beq hkey hpositive hsame
          exact congrArg some hm
        | _ => cases hsame
      rw [hnew, hold]
      simp
    · cases h
  · next hcurrent =>
    cases h
    refine ⟨.insert List.mem_cons_self _, fun n => ?_⟩
    rw [hnew, hcurrent]
    simp

/-! ## Checks of numbers -/

/-- The value respects the divisor that stands in the rules. -/
def DivisorFits (rules : Rules) (n : Double) : Prop :=
  ∀ d, (Entries.get? rules "multipleOf").bind Value.toDouble? = some d → n.isMultipleOf d = true

theorem numberFits_iff {n : Double} :
    NumberFits r n ↔ BoundFits r .lower n ∧ BoundFits r .upper n ∧ DivisorFits r n :=
  ⟨fun h => ⟨h.minimum, h.maximum, h.multipleOf⟩, fun h => ⟨h.1, h.2.1, h.2.2⟩⟩

theorem BoundFits.congr {s : Entries Value} {bound : Rules.Bound} (h : AgreeOff keys r s)
    (hkeys : ∀ key ∈ [bound.keyword, bound.exclusiveKeyword], key ∉ keys) (n : Double) :
    BoundFits r bound n ↔ BoundFits s bound n := by
  unfold BoundFits isSet
  rw [h _ (hkeys _ (by simp)), h _ (hkeys _ (by simp))]

theorem DivisorFits.congr {s : Entries Value} (h : AgreeOff keys r s) (hkey : "multipleOf" ∉ keys)
    (n : Double) : DivisorFits r n ↔ DivisorFits s n := by
  unfold DivisorFits
  rw [h _ hkey]

theorem AgreeOff.mono {s : Entries Value} {more : List String} (h : AgreeOff keys r s)
    (hkeys : ∀ key ∈ keys, key ∈ more) : AgreeOff more r s :=
  fun key hkey => h key fun hmem => hkey (hkeys key hmem)

theorem setBound_lower_iff {limit : Double} {exclusive : Bool} {location : Location}
    {rules : Rules} (h : Rules.setBound r .lower limit exclusive location = .ok rules) :
    limit.isNaN = false ∧ AgreeOff numberKeywords rules r ∧ ∀ n : Double, n.isNaN = false →
      (NumberFits rules n ↔
        NumberFits r n ∧ limit.key ≤ n.key ∧ (exclusive = true → limit.key ≠ n.key)) := by
  obtain ⟨hlimit, hagree, hfits⟩ := setBound_iff directed_lower h
  refine ⟨hlimit, AgreeOff.mono hagree (by decide), fun n hn => ?_⟩
  rw [numberFits_iff, numberFits_iff, hfits n hn, BoundFits.congr hagree (by decide),
    DivisorFits.congr hagree (by decide), and_right_comm]

theorem setBound_upper_iff {limit : Double} {exclusive : Bool} {location : Location}
    {rules : Rules} (h : Rules.setBound r .upper limit exclusive location = .ok rules) :
    limit.isNaN = false ∧ AgreeOff numberKeywords rules r ∧ ∀ n : Double, n.isNaN = false →
      (NumberFits rules n ↔
        NumberFits r n ∧ n.key ≤ limit.key ∧ (exclusive = true → limit.key ≠ n.key)) := by
  obtain ⟨hlimit, hagree, hfits⟩ := setBound_iff directed_upper h
  refine ⟨hlimit, AgreeOff.mono hagree (by decide), fun n hn => ?_⟩
  have hplaces : -limit.key ≤ -n.key ∧ (exclusive = true → -limit.key ≠ -n.key) ↔
      n.key ≤ limit.key ∧ (exclusive = true → limit.key ≠ n.key) := by
    constructor <;> (rintro ⟨hle, hne⟩; exact ⟨by omega, fun hex => by have := hne hex; omega⟩)
  rw [numberFits_iff, numberFits_iff, hfits n hn, hplaces, BoundFits.congr hagree (by decide),
    DivisorFits.congr hagree (by decide)]
  constructor
  · rintro ⟨h1, ⟨h2, h3⟩, h4⟩; exact ⟨⟨h1, h2, h4⟩, h3⟩
  · rintro ⟨⟨h1, h2, h4⟩, h3⟩; exact ⟨h1, ⟨h2, h3⟩, h4⟩

/-- An integer of 64 bits, if a number at all. -/
def Integral (v : Value) : Prop := ∀ n, v = .number n → n.toInt64?.isSome = true

theorem integerKinds_iff (v : Value) :
    v.isOfKind "int" = true ∨ v.isOfKind "long" = true ↔
      v.isOfKind "number" = true ∧ Integral v := by
  unfold Integral
  rw [isOfKind_number, ← isInteger_iff]
  exact isOfKind_integer v

theorem integral_of_null {v : Value} (h : v.isOfKind "null" = true) : Integral v := by
  rintro n rfl
  cases (isOfKind_null _).mp h

/-- The kinds of the rules are those before, as far as integers go. -/
def Narrows (r rules : Rules) : Prop :=
  Shape rules ∧ AgreeOff ["bsonType"] rules r ∧ ∀ v, KindFits rules v ↔ KindFits r v ∧ Integral v

theorem Narrows.insert (hr : Shape r) {expected kinds : Value}
    (hpresent : Entries.get? r "bsonType" = some expected) (hshape : KindShape (some kinds))
    (hiff : ∀ v, kindMatches kinds v = true ↔ kindMatches expected v = true ∧ Integral v) :
    Narrows r (Entries.insert r "bsonType" kinds) := by
  refine ⟨hr.insert_kind (by simp [hpresent]) hshape, .insert List.mem_cons_self _, fun v => ?_⟩
  rw [kindFits_of_get? (Entries.get?_insert_self ..), kindFits_of_get? hpresent]
  exact hiff v

theorem Narrows.keep (hr : Shape r) {kinds : Value}
    (hpresent : Entries.get? r "bsonType" = some kinds)
    (himp : ∀ v, kindMatches kinds v = true → Integral v) : Narrows r r := by
  refine ⟨hr, .refl, fun v => ?_⟩
  rw [kindFits_of_get? hpresent]
  exact ⟨fun hv => ⟨hv, himp v hv⟩, fun hv => hv.1⟩

/-- Narrowing takes away the numbers that are no integers of 64 bits. -/
theorem narrowToInteger_iff {location : Location} {rules : Rules} (hr : Shape r)
    (h : Rules.narrowToInteger r location = .ok rules) : Narrows r rules := by
  unfold Rules.narrowToInteger at h
  have hshape := hr.kind
  cases hget : Entries.get? r "bsonType" with
  | none => rw [hget] at h; cases h
  | some expected =>
    rw [hget] at hshape h
    cases hshape with
    | single name =>
      split at h
      · next heq =>
        cases heq
        cases h
        refine .insert hr hget .integer fun v => ?_
        rw [kindMatches_two]
        exact integerKinds_iff v
      · next heq => cases heq
      · cases h
    | nullable name =>
      dsimp only at h
      split at h
      · next hname =>
        have hname : "number" = name := by
          simpa [List.contains_cons, string_beq_string] using hname
        subst hname
        have hnarrow : Rules.narrowKinds [] [.string "number", .string "null"] =
            [.string "int", .string "long", .string "null"] := rfl
        rw [hnarrow] at h
        cases h
        refine .insert hr hget .nullableInteger fun v => ?_
        rw [kindMatches_three, kindMatches_two, integerKinds_iff v]
        constructor
        · rintro (⟨hnumber, hint⟩ | hv)
          · exact ⟨.inl hnumber, hint⟩
          · exact ⟨.inr hv, integral_of_null hv⟩
        · rintro ⟨hnumber | hv, hint⟩
          · exact .inl ⟨hnumber, hint⟩
          · exact .inr hv
      · split at h
        · next hname =>
          have hname : "int" = name := by
            simpa [List.contains_cons, string_beq_string] using hname
          subst hname
          cases h
          refine .keep hr hget fun v hv => ?_
          rw [kindMatches_two] at hv
          rcases hv with hv | hv
          · exact ((integerKinds_iff v).mp (.inl hv)).2
          · exact integral_of_null hv
        · cases h
    | integer =>
      cases h
      refine .keep hr hget fun v hv => ?_
      rw [kindMatches_two] at hv
      exact ((integerKinds_iff v).mp hv).2
    | nullableInteger =>
      cases h
      refine .keep hr hget fun v hv => ?_
      rw [kindMatches_three] at hv
      rcases hv with hv | hv
      · exact ((integerKinds_iff v).mp hv).2
      · exact integral_of_null hv

theorem addNumberCheck_iff {rules : Rules} {check : NumberCheck} {location : Location}
    (hr : Shape r) (h : Rules.addNumberCheck location r check = .ok rules) :
    Shape rules ∧ ∀ v, Fits matching rules v ↔
      Fits matching r v ∧ ∀ n, v = .number n → check.holds n = true := by
  have bounded {P : Number → Prop} (hagree : AgreeOff numberKeywords rules r)
      (hfits : ∀ n : Number, NumberFits rules n.toDouble ↔ NumberFits r n.toDouble ∧ P n)
      (hP : ∀ n, P n ↔ check.holds n = true) :
      Shape rules ∧ ∀ v, Fits matching rules v ↔
        Fits matching r v ∧ ∀ n, v = .number n → check.holds n = true := by
    refine ⟨hr.of_agree hagree (by decide), fun v => ?_⟩
    rw [fits_of_number_change hagree hfits v]
    simp only [hP]
  cases check with
  | min limit =>
    obtain ⟨hlimit, hagree, hfits⟩ := setBound_lower_iff h
    refine bounded hagree (fun n => hfits _ n.isNaN_toDouble) fun n => ?_
    simp [NumberCheck.holds, Double.le_iff hlimit n.isNaN_toDouble]
  | exclusiveMin limit =>
    obtain ⟨hlimit, hagree, hfits⟩ := setBound_lower_iff h
    refine bounded hagree (fun n => hfits _ n.isNaN_toDouble) fun n => ?_
    simp only [NumberCheck.holds, Double.lt_iff hlimit n.isNaN_toDouble, true_implies]
    omega
  | max limit =>
    obtain ⟨hlimit, hagree, hfits⟩ := setBound_upper_iff h
    refine bounded hagree (fun n => hfits _ n.isNaN_toDouble) fun n => ?_
    simp [NumberCheck.holds, Double.le_iff n.isNaN_toDouble hlimit]
  | exclusiveMax limit =>
    obtain ⟨hlimit, hagree, hfits⟩ := setBound_upper_iff h
    refine bounded hagree (fun n => hfits _ n.isNaN_toDouble) fun n => ?_
    simp only [NumberCheck.holds, Double.lt_iff n.isNaN_toDouble hlimit, true_implies]
    omega
  | integer =>
    obtain ⟨hshape, hagree, hkind⟩ := narrowToInteger_iff hr h
    exact ⟨hshape, fun v => fits_of_kind_change hagree (hkind v)⟩
  | multipleOf divisor =>
    obtain ⟨hagree, hfits⟩ := setDivisor_iff h
    refine bounded (AgreeOff.mono hagree (by decide)) (fun n => ?_) fun n => Iff.rfl
    rw [numberFits_iff, numberFits_iff, BoundFits.congr hagree (by decide),
      BoundFits.congr hagree (by decide), DivisorFits, hfits n.toDouble, and_assoc, and_assoc]
    rfl

theorem addNumberChecks_iff (matching : Matching) {rules : Rules} {checks : List NumberCheck}
    {location : Location} (hr : Shape r) (h : Rules.addNumberChecks r checks location = .ok rules) :
    Shape rules ∧ ∀ v, Fits matching rules v ↔
      Fits matching r v ∧ ∀ n, v = .number n → NumberCheck.allHold checks n = true := by
  unfold Rules.addNumberChecks at h
  induction checks generalizing r with
  | nil =>
    cases h
    exact ⟨hr, by simp [NumberCheck.allHold]⟩
  | cons check checks ih =>
    rw [List.foldlM_cons, Outcome.bind_eq_ok] at h
    obtain ⟨next, hnext, hrest⟩ := h
    obtain ⟨hshape, hfits⟩ := addNumberCheck_iff hr hnext
    obtain ⟨hshapes, hall⟩ := ih hshape hrest
    refine ⟨hshapes, fun v => ?_⟩
    rw [hall, hfits, and_assoc]
    simp only [NumberCheck.allHold, List.all_cons, Bool.and_eq_true, ← forall_and]

/-! ## Facets -/

/-- A facet takes away the values that do not meet it. -/
theorem addFacet_iff {rules : Rules} {facet : Option Facet} {location : Location} (hr : Shape r)
    (h : Rules.addFacet r facet location = .ok rules) :
    Shape rules ∧ ∀ v, Fits readAndMatch rules v ↔
      Fits readAndMatch r v ∧ FacetFits facet (some v) := by
  cases facet with
  | none =>
    cases h
    exact ⟨hr, by simp [FacetFits]⟩
  | some facet =>
    cases facet with
    | string checks =>
      obtain ⟨hagree, hfits⟩ := addStringChecks_iff h
      refine ⟨hr.of_agree hagree (by decide), fun v => ?_⟩
      rw [fits_of_string_change hagree hfits v]
      cases v <;> simp [FacetFits, Facet.holds]
    | number checks =>
      obtain ⟨hshape, hfits⟩ := addNumberChecks_iff readAndMatch hr h
      refine ⟨hshape, fun v => ?_⟩
      rw [hfits v]
      cases v <;> simp [FacetFits, Facet.holds]

end Validator

end DocSchema

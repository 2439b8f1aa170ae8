-- SUMMARY: The house rules as a relation between nodes and inherited checks, and merging.
import DocSchema.Proofs.Tree
import DocSchema.Schema.Lint

/-!
# House rules

`Obeys inherited n` is the verdict of the linter on a node below facets with the given
checks, without the places that it reports. A merged node obeys under the checks that
both nodes obey under: its strings are checked by what both strings were checked by.
-/

namespace DocSchema

/-- The checks of a facet on strings. -/
def Facet.stringChecks : Option Facet → List StringCheck
  | some (.string checks) => checks
  | _ => []

@[simp] theorem Facet.stringChecks_none : stringChecks none = [] := rfl

@[simp] theorem Facet.stringChecks_string (checks : List StringCheck) :
    stringChecks (some (.string checks)) = checks := rfl

@[simp] theorem Facet.stringChecks_number (checks : List NumberCheck) :
    stringChecks (some (.number checks)) = [] := rfl

namespace Node

variable {inherited : List StringCheck} {location : Location}

/-! ## Names and enumerations -/

theorem lintName_eq_ok_iff {name : String} :
    lintName name location = .ok () ↔ nameRule? name = none := by
  unfold lintName
  cases nameRule? name <;> simp

theorem repeated?_eq_none_iff {seen values : List String} :
    repeated? seen values = none ↔ values.Nodup ∧ ∀ v ∈ values, v ∉ seen := by
  induction values generalizing seen with
  | nil => simp [repeated?]
  | cons v rest ih =>
    rw [repeated?]
    split
    · next hseen => simp [hseen]
    · next hnew =>
      rw [ih, List.nodup_cons, List.forall_mem_cons]
      simp only [List.mem_cons, not_or]
      constructor
      · rintro ⟨hrest, hall⟩
        exact ⟨⟨fun hv => (hall v hv).1 rfl, hrest⟩, hnew, fun w hw => (hall w hw).2⟩
      · rintro ⟨⟨hv, hrest⟩, -, hall⟩
        exact ⟨hrest, fun w hw => ⟨fun heq => hv (heq ▸ hw), hall w hw⟩⟩

theorem lintEnum_eq_ok_iff {values : List String} :
    lintEnum values location = .ok () ↔ values ≠ [] ∧ values.Nodup := by
  have hrepeated : repeated? [] values = none ↔ values.Nodup := by simp [repeated?_eq_none_iff]
  unfold lintEnum
  split
  · next hnil => simp [hnil]
  · next hne =>
    rw [← hrepeated]
    cases repeated? [] values <;> simp [hne]

/-! ## The relation -/

/-- The house rules let a node pass below facets with the inherited checks. -/
inductive Obeys : List StringCheck → Node → Prop where
  | object {inherited : List StringCheck} {fields : List (String × Node)}
    {catchall : Option Node} : (∀ f ∈ fields, nameRule? f.1 = none) →
    (∀ f ∈ fields, Obeys [] f.2) → (∀ rest, catchall = some rest → Obeys [] rest) →
    Obeys inherited (.object fields catchall)
  | array {inherited : List StringCheck} {item : Node} :
    Obeys [] item → Obeys inherited (.array item)
  | tuple {inherited : List StringCheck} {items : List Node} :
    (∀ item ∈ items, Obeys [] item) → Obeys inherited (.tuple items)
  | union {inherited : List StringCheck} {options : List Node} :
    options ≠ [] → (∀ option ∈ options, Obeys inherited option) →
    Obeys inherited (.union options)
  | discriminated {inherited : List StringCheck} {key : String} {options : List Node} :
    options ≠ [] → (∀ option ∈ options, option.isObject = true) →
    (∀ option ∈ options, Obeys [] option) → Obeys inherited (.discriminated key options)
  | intersection {inherited : List StringCheck} {l r : Node} :
    Obeys inherited l → Obeys inherited r → Obeys inherited (.intersection l r)
  | record {inherited : List StringCheck} {value : Node} :
    Obeys [] value → Obeys inherited (.record value)
  | optional {inherited : List StringCheck} {inner : Node} :
    Obeys inherited inner → Obeys inherited (.optional inner)
  | nullable {inherited : List StringCheck} {inner : Node} :
    Obeys inherited inner → Obeys inherited (.nullable inner)
  | withDefault {inherited : List StringCheck} {inner : Node} {default : Default} :
    Obeys inherited inner → Obeys inherited (.withDefault inner default)
  | transform {inherited : List StringCheck} {inner : Node} {facet : Option Facet}
    {apply : Transform} : Obeys (inherited ++ Facet.stringChecks facet) inner →
    Obeys inherited (.transform inner facet apply)
  | enum {inherited : List StringCheck} {values : List String} :
    values ≠ [] → values.Nodup → Obeys inherited (.enum values)
  | string {inherited checks : List StringCheck} {allowEmpty : Bool} :
    admitsEmpty checks inherited allowEmpty = false → Obeys inherited (.string checks allowEmpty)
  | literal {inherited : List StringCheck} {v : Value} : Obeys inherited (.literal v)
  | number {inherited : List StringCheck} {checks : List NumberCheck} :
    Obeys inherited (.number checks)
  | boolean {inherited : List StringCheck} : Obeys inherited .boolean
  | date {inherited : List StringCheck} : Obeys inherited .date
  | null {inherited : List StringCheck} : Obeys inherited .null
  | any {inherited : List StringCheck} : Obeys inherited .any
  | never {inherited : List StringCheck} : Obeys inherited .never

section Laws

variable {n l r : Node}

theorem obeys_object_iff {fields : List (String × Node)} {catchall : Option Node} :
    Obeys inherited (.object fields catchall) ↔
      ((∀ f ∈ fields, nameRule? f.1 = none) ∧ ∀ f ∈ fields, Obeys [] f.2) ∧
        ∀ rest, catchall = some rest → Obeys [] rest :=
  ⟨fun | .object hnames hfields hcatchall => ⟨⟨hnames, hfields⟩, hcatchall⟩,
    fun h => .object h.1.1 h.1.2 h.2⟩

theorem obeys_array_iff : Obeys inherited (.array n) ↔ Obeys [] n :=
  ⟨fun | .array h => h, .array⟩

theorem obeys_tuple_iff {items : List Node} :
    Obeys inherited (.tuple items) ↔ ∀ item ∈ items, Obeys [] item :=
  ⟨fun | .tuple h => h, .tuple⟩

theorem obeys_union_iff {options : List Node} : Obeys inherited (.union options) ↔
    options ≠ [] ∧ ∀ option ∈ options, Obeys inherited option :=
  ⟨fun | .union hne h => ⟨hne, h⟩, fun h => .union h.1 h.2⟩

theorem obeys_discriminated_iff {key : String} {options : List Node} :
    Obeys inherited (.discriminated key options) ↔ options ≠ [] ∧
      (∀ option ∈ options, option.isObject = true) ∧ ∀ option ∈ options, Obeys [] option :=
  ⟨fun | .discriminated hne hobjects h => ⟨hne, hobjects, h⟩,
    fun h => .discriminated h.1 h.2.1 h.2.2⟩

theorem obeys_intersection_iff :
    Obeys inherited (.intersection l r) ↔ Obeys inherited l ∧ Obeys inherited r :=
  ⟨fun | .intersection hl hr => ⟨hl, hr⟩, fun h => .intersection h.1 h.2⟩

theorem obeys_record_iff : Obeys inherited (.record n) ↔ Obeys [] n :=
  ⟨fun | .record h => h, .record⟩

theorem obeys_optional_iff : Obeys inherited (.optional n) ↔ Obeys inherited n :=
  ⟨fun | .optional h => h, .optional⟩

theorem obeys_nullable_iff : Obeys inherited (.nullable n) ↔ Obeys inherited n :=
  ⟨fun | .nullable h => h, .nullable⟩

theorem obeys_withDefault_iff {default : Default} :
    Obeys inherited (.withDefault n default) ↔ Obeys inherited n :=
  ⟨fun | .withDefault h => h, .withDefault⟩

theorem obeys_transform_iff {facet : Option Facet} {apply : Transform} :
    Obeys inherited (.transform n facet apply) ↔
      Obeys (inherited ++ Facet.stringChecks facet) n :=
  ⟨fun | .transform h => h, .transform⟩

theorem obeys_enum_iff {values : List String} :
    Obeys inherited (.enum values) ↔ values ≠ [] ∧ values.Nodup :=
  ⟨fun | .enum hne hnodup => ⟨hne, hnodup⟩, fun h => .enum h.1 h.2⟩

theorem obeys_string_iff {checks : List StringCheck} {allowEmpty : Bool} :
    Obeys inherited (.string checks allowEmpty) ↔
      admitsEmpty checks inherited allowEmpty = false :=
  ⟨fun | .string h => h, .string⟩

end Laws

/-! ## The linter decides the relation -/

theorem lintFields_eq_ok_iff {fields : List (String × Node)}
    (each : ∀ f ∈ fields, ∀ location, f.2.lintAt [] location = .ok () ↔ Obeys [] f.2) :
    lintFields fields location = .ok () ↔
      (∀ f ∈ fields, nameRule? f.1 = none) ∧ ∀ f ∈ fields, Obeys [] f.2 := by
  induction fields with
  | nil => simp [lintFields]
  | cons f rest ih =>
    obtain ⟨name, n⟩ := f
    obtain ⟨hn, hrest⟩ := List.forall_mem_cons.mp each
    simp only [lintFields, Outcome.check_bind_eq_ok, lintName_eq_ok_iff, hn, ih hrest,
      List.forall_mem_cons]
    rw [← and_assoc, and_and_and_comm]

theorem lintCatchall_eq_ok_iff {catchall : Option Node}
    (each : ∀ rest, catchall = some rest → ∀ location,
      rest.lintAt [] location = .ok () ↔ Obeys [] rest) :
    lintCatchall catchall location = .ok () ↔ ∀ rest, catchall = some rest → Obeys [] rest := by
  cases catchall with
  | none => simp [lintCatchall]
  | some rest => simp [lintCatchall, each rest rfl]

theorem lintItems_eq_ok_iff {items : List Node} {i : Nat}
    (each : ∀ n ∈ items, ∀ location, n.lintAt [] location = .ok () ↔ Obeys [] n) :
    lintItems items i location = .ok () ↔ ∀ n ∈ items, Obeys [] n := by
  induction items generalizing i with
  | nil => simp [lintItems]
  | cons n rest ih =>
    obtain ⟨hn, hrest⟩ := List.forall_mem_cons.mp each
    simp only [lintItems, Outcome.check_bind_eq_ok, hn, ih hrest, List.forall_mem_cons]

theorem lintOptions_eq_ok_iff {options : List Node}
    (each : ∀ n ∈ options, n.lintAt inherited location = .ok () ↔ Obeys inherited n) :
    lintOptions options inherited location = .ok () ↔ ∀ n ∈ options, Obeys inherited n := by
  induction options with
  | nil => simp [lintOptions]
  | cons n rest ih =>
    obtain ⟨hn, hrest⟩ := List.forall_mem_cons.mp each
    simp only [lintOptions, Outcome.check_bind_eq_ok, hn, ih hrest, List.forall_mem_cons]

theorem lintDiscriminated_eq_ok_iff {options : List Node} {i : Nat}
    (each : ∀ n ∈ options, n.lintAt [] location = .ok () ↔ Obeys [] n) :
    lintDiscriminated options i location = .ok () ↔
      (∀ n ∈ options, n.isObject = true) ∧ ∀ n ∈ options, Obeys [] n := by
  induction options generalizing i with
  | nil => simp [lintDiscriminated]
  | cons n rest ih =>
    obtain ⟨hn, hrest⟩ := List.forall_mem_cons.mp each
    rw [lintDiscriminated]
    split
    · next hobject =>
      simp only [Outcome.check_bind_eq_ok, hn, ih hrest, List.forall_mem_cons, hobject, true_and]
      exact and_left_comm
    · next hobject => simp [hobject]

theorem lintAt_transform {inner : Node} {facet : Option Facet} {apply : Transform} :
    (Node.transform inner facet apply).lintAt inherited location =
      inner.lintAt (inherited ++ Facet.stringChecks facet) location := by
  rcases facet with - | ⟨- | -⟩
  · rw [lintAt, Facet.stringChecks_none, List.append_nil]
    exact nofun
  · rw [lintAt, Facet.stringChecks_string]
  · rw [lintAt, Facet.stringChecks_number, List.append_nil]
    exact nofun

/-- The linter lets a node pass, at any place, exactly if the node obeys. -/
theorem lintAt_eq_ok_iff {n : Node} :
    n.lintAt inherited location = .ok () ↔ Obeys inherited n := by
  induction n using of_children generalizing inherited location with
  | step n ih =>
  cases n with
  | object fields catchall =>
    rw [lintAt, Outcome.check_bind_eq_ok, lintFields_eq_ok_iff, lintCatchall_eq_ok_iff,
      obeys_object_iff]
    · rintro rest rfl location
      exact ih rest (List.mem_append_right _ (List.mem_singleton.mpr rfl))
    · exact fun f hf location => ih f.2 (List.mem_append_left _ (List.mem_map.mpr ⟨f, hf, rfl⟩))
  | array item => rw [lintAt, ih item List.mem_cons_self, obeys_array_iff]
  | tuple items =>
    rw [lintAt, lintItems_eq_ok_iff fun n (hn : n ∈ items) _ => ih n hn, obeys_tuple_iff]
  | union options =>
    have hoptions : lintOptions options inherited location = .ok () ↔ _ :=
      lintOptions_eq_ok_iff fun n hn => ih n hn
    rw [lintAt, obeys_union_iff, ← hoptions]
    cases options <;> simp
  | discriminated key options =>
    have hoptions : lintDiscriminated options 0 location = .ok () ↔ _ :=
      lintDiscriminated_eq_ok_iff fun n hn => ih n hn
    rw [lintAt, obeys_discriminated_iff, ← hoptions]
    cases options <;> simp
  | intersection left right =>
    rw [lintAt, Outcome.check_bind_eq_ok, ih left List.mem_cons_self,
      ih right (List.mem_cons_of_mem _ List.mem_cons_self), obeys_intersection_iff]
  | record value => rw [lintAt, ih value List.mem_cons_self, obeys_record_iff]
  | optional inner => rw [lintAt, ih inner List.mem_cons_self, obeys_optional_iff]
  | nullable inner => rw [lintAt, ih inner List.mem_cons_self, obeys_nullable_iff]
  | withDefault inner => rw [lintAt, ih inner List.mem_cons_self, obeys_withDefault_iff]
  | transform inner facet apply =>
    rw [lintAt_transform, ih inner List.mem_cons_self, obeys_transform_iff]
  | enum values => rw [lintAt, lintEnum_eq_ok_iff, obeys_enum_iff]
  | string checks allowEmpty =>
    rw [lintAt, obeys_string_iff]
    cases admitsEmpty checks inherited allowEmpty <;> simp
  | literal => exact iff_of_true (by rw [lintAt]) .literal
  | number => exact iff_of_true (by rw [lintAt]) .number
  | boolean => exact iff_of_true (by rw [lintAt]) .boolean
  | date => exact iff_of_true (by rw [lintAt]) .date
  | null => exact iff_of_true (by rw [lintAt]) .null
  | any => exact iff_of_true (by rw [lintAt]) .any
  | never => exact iff_of_true (by rw [lintAt]) .never

/-! ## Merging -/

theorem admitsEmpty_append {cs ds : List StringCheck} {e f : Bool}
    (hl : admitsEmpty cs inherited e = false) (hr : admitsEmpty ds inherited f = false) :
    admitsEmpty (cs ++ ds) inherited (e && f) = false := by
  unfold admitsEmpty StringCheck.allHold at *
  rw [List.all_append]
  cases e <;> cases f <;> simp_all

/-- The merge of two nodes obeys under the checks that both of them obey under. -/
theorem Merges.obeys {l r m : Node} (h : Merges l r m) (hl : Obeys inherited l)
    (hr : Obeys inherited r) : Obeys inherited m := by
  induction h generalizing inherited with
  | intersectionLeft _ _ ihInner ih =>
    rw [obeys_intersection_iff] at hl
    exact ih (ihInner hl.1 hl.2) hr
  | intersectionRight _ _ _ ihInner ih =>
    rw [obeys_intersection_iff] at hr
    exact ih (ihInner hr.1 hr.2) hl
  | anyLeft => exact hr
  | anyRight => exact hl
  | optional _ ih =>
    rw [obeys_optional_iff] at hl hr ⊢
    exact ih hl hr
  | optionalLeft _ _ ih => exact ih (obeys_optional_iff.mp hl) hr
  | optionalRight _ _ ih => exact ih (obeys_optional_iff.mp hr) hl
  | nullable _ ih =>
    rw [obeys_nullable_iff] at hl hr ⊢
    exact ih hl hr
  | nullableLeft _ _ ih => exact ih (obeys_nullable_iff.mp hl) hr
  | nullableRight _ _ ih => exact ih (obeys_nullable_iff.mp hr) hl
  | @object gs c d m shared looked _ alone _ ihBoth ihCatchall =>
    rw [obeys_object_iff] at hl hr ⊢
    obtain ⟨⟨hnames, hfields⟩, hcatchall⟩ := hl
    obtain ⟨⟨hnames', hfields'⟩, hcatchall'⟩ := hr
    refine ⟨⟨fun f hf => ?_, fun f hf => ?_⟩, fun rest hrest => ?_⟩
    · rcases List.mem_append.mp hf with hf | hf
      · obtain ⟨g, hg, rfl⟩ := List.mem_map.mp hf
        exact hnames g.first (List.mem_map.mpr ⟨g, hg, rfl⟩)
      · exact hnames' f (List.mem_filter.mp hf).1
    · rcases List.mem_append.mp hf with hf | hf
      · obtain ⟨g, hg, rfl⟩ := List.mem_map.mp hf
        have hleft : Obeys [] g.left := hfields g.first (List.mem_map.mpr ⟨g, hg, rfl⟩)
        rw [FieldMerge.result]
        cases hright : g.right? with
        | none =>
          rw [alone g hg hright]
          exact hleft
        | some other =>
          have hother := looked g hg
          rw [hright] at hother
          exact ihBoth g hg other hright hleft (hfields' _ (Entries.mem_of_get? hother.symm))
      · exact hfields' f (List.mem_filter.mp hf).1
    · cases c with
      | none => cases hrest
      | some a =>
        cases d with
        | none => cases hrest
        | some b =>
          cases hrest
          exact ihCatchall a b rfl rfl (hcatchall a rfl) (hcatchall' b rfl)
  | string => exact .string (admitsEmpty_append (obeys_string_iff.mp hl) (obeys_string_iff.mp hr))
  | number => exact .number
  | enum common =>
    exact .enum common ((obeys_enum_iff.mp hl).2.sublist List.filter_sublist)
  | literal => exact hl
  | array _ ih =>
    rw [obeys_array_iff] at hl hr ⊢
    exact ih hl hr
  | tuple parts _ ih =>
    rw [obeys_tuple_iff] at hl hr ⊢
    intro item hitem
    obtain ⟨p, hp, rfl⟩ := List.mem_map.mp hitem
    exact ih p hp (hl _ (List.mem_map.mpr ⟨p, hp, rfl⟩)) (hr _ (List.mem_map.mpr ⟨p, hp, rfl⟩))
  | record _ ih =>
    rw [obeys_record_iff] at hl hr ⊢
    exact ih hl hr
  | boolean => exact .boolean
  | date => exact .date
  | null => exact .null

end Node

end DocSchema

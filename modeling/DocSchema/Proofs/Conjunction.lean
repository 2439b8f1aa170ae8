-- SUMMARY: A merged node accepts what both nodes admit.
import DocSchema.Proofs.Absence
import DocSchema.Proofs.Admission
import DocSchema.Proofs.Double

/-!
# Merging as conjunction

A merged node accepts exactly what both nodes admit, whatever the input, once it is
settled what it is for both to admit absence. Merging settles it as accepting absence
at a common depth, which is less than each accepting it unless no nullable node is
around a node that accepts absence.
-/

namespace DocSchema

namespace Node

variable {ctx : Context} {l r m : Node} {v : Value}

/-! ## Merged nodes -/

/-- A node without wrappers that takes `null` is merged into one that does. -/
theorem Merges.accepts_null (h : Merges l r m) (hr : r.layer < 1)
    (hnull : Accepts ctx r (some .null)) : Accepts ctx m (some .null) := by
  induction h with
  | intersectionLeft _ _ _ ih | optionalLeft _ _ ih | nullableLeft _ _ ih => exact ih hr hnull
  | anyLeft | null => exact hnull
  | anyRight | optional | optionalRight | nullable | nullableRight | intersectionRight =>
    exact absurd hr (by simp [layer])
  | @literal a b heq =>
    obtain ⟨result, hb⟩ := hnull
    obtain ⟨_, ⟨⟩, halike, -⟩ := parses_literal_iff.mp hb
    cases b with
    | null =>
      cases a with
      | null => exact ⟨_, parses_literal_iff.mpr ⟨_, rfl, rfl, rfl⟩⟩
      | _ => cases heq
    | _ => cases halike
  | object | array | tuple | record | string | number | enum =>
    obtain ⟨result, hresult⟩ := hnull
    simp [parses_object_iff, parses_array_iff, parses_tuple_iff, parses_record_iff,
      parses_string_iff, parses_number_iff, parses_enum_iff] at hresult
  | boolean =>
    obtain ⟨result, hresult⟩ := hnull
    obtain ⟨_, ⟨⟩, ⟨⟩, -⟩ := parses_boolean_iff.mp hresult
  | date =>
    obtain ⟨result, hresult⟩ := hnull
    obtain ⟨_, ⟨⟩, ⟨⟩, -⟩ := parses_date_iff.mp hresult

/-- Next to a node without wrappers, a nullable wrapper changes nothing: where its
`null` matters, the other node takes `null` itself. -/
theorem Merges.accepts_nullable {absent : Node → Node → Prop} (h : Merges l r m)
    (hr : r.layer < 1) (present : Accepts ctx m (some v) ↔ BothAdmit ctx absent l r (some v)) :
    Accepts ctx m (some v) ↔ BothAdmit ctx absent (.nullable l) r (some v) := by
  by_cases hnull : v = .null
  · subst hnull
    rw [BothAdmit.nullable_null]
    exact ⟨fun haccepted => (present.mp haccepted).accepts_right_of_null, h.accepts_null hr⟩
  · rwa [BothAdmit.nullable_left hnull]

section Objects

variable {shared : List FieldMerge} {gs : List (String × Node)} {c d : Option Node}

theorem exists_of_lookup_first {name : String} {n : Node}
    (h : lookup (shared.map FieldMerge.first) name = some n) :
    ∃ f ∈ shared, f.name = name ∧ f.left = n := by
  obtain ⟨f, hf, heq⟩ := List.mem_map.mp (Entries.mem_of_get? h)
  cases heq
  exact ⟨f, hf, rfl, rfl⟩

theorem lookup_first_of_mem (distinct : (Entries.keys (shared.map FieldMerge.first)).Nodup)
    {f : FieldMerge} (hf : f ∈ shared) :
    lookup (shared.map FieldMerge.first) f.name = some f.left :=
  Entries.get?_of_mem distinct (List.mem_map.mpr ⟨f, hf, rfl⟩)

/-- A merged object declares what one of the two objects declares. -/
theorem lookup_merged_eq_none_iff {name : String} :
    lookup (shared.map FieldMerge.result ++ ownFields (shared.map FieldMerge.first) gs) name =
      none ↔ lookup (shared.map FieldMerge.first) name = none ∧ lookup gs name = none := by
  have hnames : Entries.keys (shared.map FieldMerge.result) =
      Entries.keys (shared.map FieldMerge.first) := by
    simp [Entries.keys, FieldMerge.result, FieldMerge.first, Function.comp_def]
  simp only [lookup, Entries.get?_append, Option.or_eq_none_iff, Entries.get?_eq_none_iff, hnames]
  refine and_congr_right fun hleft => not_congr ?_
  simp only [Entries.keys, ownFields, List.mem_map, List.mem_filter]
  constructor
  · rintro ⟨g, ⟨hg, -⟩, rfl⟩
    exact ⟨g, hg, rfl⟩
  · rintro ⟨g, hg, rfl⟩
    refine ⟨g, ⟨hg, ?_⟩, rfl⟩
    rw [Option.isNone_iff_eq_none]
    exact Entries.get?_eq_none_iff.mpr hleft

/-- A merged object accepts what the two declarations of objects admit. -/
theorem accepts_merged_object_iff {both : Node → Node → Option Value → Prop} {m : Node}
    (looked : ∀ f ∈ shared, f.right? = lookup gs f.name)
    (alone : ∀ f ∈ shared, f.right? = none → f.merged = f.left)
    (distinctLeft : (Entries.keys (shared.map FieldMerge.first)).Nodup)
    (distinctRight : (Entries.keys gs).Nodup)
    (fields : ∀ f ∈ shared, ∀ other, f.right? = some other → ∀ x,
      Accepts ctx f.merged x ↔ both f.left other x)
    (catchall : ∀ a b, c = some a → d = some b → ∀ x, Accepts ctx m x ↔ both a b x) :
    Accepts ctx (.object (shared.map FieldMerge.result ++
        ownFields (shared.map FieldMerge.first) gs) (ifBoth c d m)) (some v) ↔
      ∃ input, v = .object input ∧ (Value.object input).kind = .object ∧
        FieldsAdmit ctx both (shared.map FieldMerge.first) gs c d input := by
  rw [accepts_object_iff]
  refine exists_congr fun input => and_congr_right fun _ => and_congr_right fun _ => ?_
  simp only [lookup_merged_eq_none_iff, List.forall_mem_append, List.forall_mem_map]
  constructor
  · rintro ⟨⟨hshared, hown⟩, hothers⟩
    refine ⟨fun name n hleft hright => ?_, fun name n hleft hright => ?_,
      fun name a b hleft hright => ?_, fun e he hleft hright => ?_,
      fun e he hleft hright a b hc hd => ?_⟩
    · obtain ⟨f, hf, rfl, rfl⟩ := exists_of_lookup_first hleft
      have haccepted := hshared f hf
      rwa [FieldMerge.result, alone f hf ((looked f hf).trans hright)] at haccepted
    · refine hown (name, n) (List.mem_filter.mpr ⟨Entries.mem_of_get? hright, ?_⟩)
      exact Option.isNone_iff_eq_none.mpr hleft
    · obtain ⟨f, hf, rfl, rfl⟩ := exists_of_lookup_first hleft
      exact (fields f hf b ((looked f hf).trans hright) _).mp (hshared f hf)
    · obtain ⟨rest, hrest, -⟩ := hothers e he ⟨hleft, hright⟩
      cases c <;> cases d <;> first | exact ⟨rfl, rfl⟩ | cases hrest
    · subst hc hd
      obtain ⟨rest, hrest, haccepted⟩ := hothers e he ⟨hleft, hright⟩
      cases hrest
      exact (catchall a b rfl rfl _).mp haccepted
  · intro h
    refine ⟨⟨fun f hf => ?_, fun g hg => ?_⟩, fun e he hnone => ?_⟩
    · have hleft := lookup_first_of_mem distinctLeft hf
      cases hright : f.right? with
      | none =>
        rw [FieldMerge.result, alone f hf hright]
        exact h.left f.name f.left hleft ((looked f hf).symm.trans hright)
      | some other =>
        exact (fields f hf other hright _).mpr
          (h.shared f.name f.left other hleft ((looked f hf).symm.trans hright))
    · obtain ⟨hmem, habsent⟩ := List.mem_filter.mp hg
      exact h.right g.1 g.2 (Option.isNone_iff_eq_none.mp habsent)
        (Entries.get?_of_mem distinctRight hmem)
    · obtain ⟨hc, hd⟩ := h.catchalls e he hnone.1 hnone.2
      obtain ⟨a, rfl⟩ := Option.isSome_iff_exists.mp hc
      obtain ⟨b, rfl⟩ := Option.isSome_iff_exists.mp hd
      exact ⟨m, rfl, (catchall a b rfl rfl _).mpr (h.undeclared e he hnone.1 hnone.2 a b rfl rfl)⟩

end Objects

section

variable {Q : Node → Prop} {absent : Node → Node → Prop}

/-- A merged tuple accepts what both tuples admit, position by position. -/
theorem accepts_merged_tuple_iff {parts : List ItemMerge}
    (untransformed : ∀ p ∈ parts, Every Untransformed p.merged)
    (each : ∀ p ∈ parts, ∀ v,
      Accepts ctx p.merged (some v) ↔ BothAdmit ctx absent p.left p.right (some v)) (v : Value) :
    Accepts ctx (.tuple (parts.map (·.merged))) (some v) ↔
      BothAdmit ctx absent (.tuple (parts.map (·.left))) (.tuple (parts.map (·.right)))
        (some v) := by
  rw [BothAdmit.tuple_iff, accepts_tuple_iff (List.forall_mem_map.mpr untransformed)]
  simp only [List.length_map, List.getElem?_map, Option.map_eq_some_iff]
  refine exists_congr fun items => and_congr_right fun _ => ?_
  constructor
  · rintro ⟨hlength, hitems⟩
    refine ⟨hlength, hlength, ?_⟩
    rintro i _ _ w ⟨p, hp, rfl⟩ ⟨p', hp', rfl⟩ hw
    cases hp.symm.trans hp'
    exact (each p (List.mem_of_getElem? hp) w).mp (hitems i _ w ⟨p, hp, rfl⟩ hw)
  · rintro ⟨hlength, -, hitems⟩
    refine ⟨hlength, ?_⟩
    rintro i _ w ⟨p, hp, rfl⟩ hw
    exact (each p (List.mem_of_getElem? hp) w).mpr
      (hitems i _ _ w ⟨p, hp, rfl⟩ ⟨p, hp, rfl⟩ hw)

theorem Merges.accepts_some_iff (kept : KeptByMerging Q) (bare : ∀ n, Q n → Bare n)
    (symmetric : ∀ l r, absent l r → absent r l)
    (absence : ∀ l r m, Merges l r m → Every Q l → Every Q r → (Accepts ctx m none ↔ absent l r))
    (h : Merges l r m) (hl : Every Q l) (hr : Every Q r) :
    ∀ v, Accepts ctx m (some v) ↔ BothAdmit ctx absent l r (some v) := by
  have all {a b n : Node} (hm : Merges a b n) (ha : Every Q a) (hb : Every Q b)
      (present : ∀ v, Accepts ctx n (some v) ↔ BothAdmit ctx absent a b (some v)) :
      ∀ x, Accepts ctx n x ↔ BothAdmit ctx absent a b x
    | some v => present v
    | none => (absence a b n hm ha hb).trans BothAdmit.none_iff.symm
  induction h with
  | intersectionLeft hinner _ _ ih =>
    intro v
    rw [BothAdmit.intersection_left hinner]
    exact ih (hinner.every kept hl.left hl.right) hr v
  | intersectionRight _ hinner _ _ ih =>
    intro v
    rw [BothAdmit.symm_iff symmetric, BothAdmit.intersection_left hinner]
    exact ih (hinner.every kept hr.left hr.right) hl v
  | anyLeft => exact fun v => BothAdmit.any_left.symm
  | anyRight =>
    intro v
    rw [BothAdmit.symm_iff symmetric]
    exact BothAdmit.any_left.symm
  | optional _ ih =>
    intro v
    rw [accepts_optional_some, BothAdmit.optional_both]
    exact ih (hl.inner rfl) (hr.inner rfl) v
  | optionalLeft _ _ ih =>
    intro v
    rw [BothAdmit.optional_left]
    exact ih (hl.inner rfl) hr v
  | optionalRight _ _ ih =>
    intro v
    rw [BothAdmit.symm_iff symmetric, BothAdmit.optional_left]
    exact ih (hr.inner rfl) hl v
  | nullable _ ih =>
    intro v
    by_cases hnull : v = .null
    · subst hnull
      exact iff_of_true accepts_nullable_null (BothAdmit.nullable_null.mpr accepts_nullable_null)
    · rw [accepts_nullable_iff fun heq => hnull (Option.some.inj heq),
        BothAdmit.nullable_both hnull]
      exact ih (hl.inner rfl) (hr.inner rfl) v
  | nullableLeft hother hm ih => exact fun v => hm.accepts_nullable hother (ih (hl.inner rfl) hr v)
  | nullableRight hother hm ih =>
    intro v
    rw [BothAdmit.symm_iff symmetric]
    exact hm.accepts_nullable hother (ih (hr.inner rfl) hl v)
  | @object gs c d m shared looked both alone catchall ihBoth ihCatchall =>
    intro v
    rw [BothAdmit.object_iff]
    refine accepts_merged_object_iff looked alone (bare _ hl.here) (bare _ hr.here) ?_ ?_
    · intro f hf other hright
      have hleft : Every Q f.left := hl.field (f := f.first) (List.mem_map.mpr ⟨f, hf, rfl⟩)
      have hother : Every Q other := hr.of_lookup ((looked f hf).symm.trans hright)
      exact all (both f hf other hright) hleft hother (ihBoth f hf other hright hleft hother)
    · rintro a b rfl rfl
      exact all (catchall a b rfl rfl) hl.catchall hr.catchall
        (ihCatchall a b rfl rfl hl.catchall hr.catchall)
  | array hm ih =>
    intro v
    have hitem := (hm.every kept (hl.inner rfl) (hr.inner rfl)).imp
      fun n hn => (bare n hn).untransformed
    rw [BothAdmit.array_iff, accepts_array_iff hitem]
    simp only [ih (hl.inner rfl) (hr.inner rfl)]
  | tuple parts each ih =>
    have hleft (p : ItemMerge) (hp : p ∈ parts) : Every Q p.left :=
      hl.child (List.mem_map.mpr ⟨p, hp, rfl⟩)
    have hright (p : ItemMerge) (hp : p ∈ parts) : Every Q p.right :=
      hr.child (List.mem_map.mpr ⟨p, hp, rfl⟩)
    refine accepts_merged_tuple_iff (fun p hp => ?_) fun p hp => ih p hp (hleft p hp) (hright p hp)
    exact ((each p hp).every kept (hleft p hp) (hright p hp)).imp
      fun n hn => (bare n hn).untransformed
  | record _ ih =>
    intro v
    rw [BothAdmit.record_iff, accepts_record_iff]
    simp only [ih (hl.inner rfl) (hr.inner rfl)]
  | string =>
    intro v
    rw [BothAdmit.cores_iff rfl rfl rfl]
    cases v <;> simp [Accepts, parses_string_iff, StringCheck.allHold, List.all_append]
  | number =>
    intro v
    rw [BothAdmit.cores_iff rfl rfl rfl]
    cases v <;> simp [Accepts, parses_number_iff, NumberCheck.allHold, List.all_append]
  | enum =>
    intro v
    rw [BothAdmit.cores_iff rfl rfl rfl]
    cases v <;> simp [Accepts, parses_enum_iff]
  | literal heq =>
    intro v
    rw [BothAdmit.cores_iff rfl rfl rfl]
    simp only [Accepts, parses_literal_iff, Option.some.injEq, exists_eq_left', exists_and_left,
      exists_eq, and_true]
    exact ⟨fun halike => ⟨halike, Value.alike_of_beq_of_alike heq halike⟩, And.left⟩
  | boolean | date | null =>
    intro v
    rw [BothAdmit.cores_iff rfl rfl rfl, and_self_iff]

/-- A merged node accepts exactly what both nodes admit. -/
theorem Merges.accepts_iff (kept : KeptByMerging Q) (bare : ∀ n, Q n → Bare n)
    (symmetric : ∀ l r, absent l r → absent r l)
    (absence : ∀ l r m, Merges l r m → Every Q l → Every Q r → (Accepts ctx m none ↔ absent l r))
    (h : Merges l r m) (hl : Every Q l) (hr : Every Q r) (x : Option Value) :
    Accepts ctx m x ↔ BothAdmit ctx absent l r x := by
  cases x with
  | none => exact (absence l r m h hl hr).trans BothAdmit.none_iff.symm
  | some v => exact h.accepts_some_iff kept bare symmetric absence hl hr v

end

/-! ## Intersections -/

/-- Two nodes accept absence, each on its own. -/
def SkipBoth (ctx : Context) (l r : Node) : Prop := Accepts ctx l none ∧ Accepts ctx r none

/-- A merged node accepts what both nodes admit, absence where they accept it at a
common depth; what the validator takes for absent is never more. Where no nullable
node is around a node that accepts absence, accepting absence at a common depth is
accepting it, in both readings. Without objects both nodes admit what both accept. -/
theorem intersect_is_conjunction {location : Location} (bareLeft : Every Bare l)
    (bareRight : Every Bare r) (merged : l.intersect r location = .ok m) (ctx : Context) :
    (∀ x place, (m.parser x ctx place).isOk = true ↔ BothAdmit ctx (SkipTogether ctx) l r x) ∧
    (m.acceptsAbsent = true → l.acceptsAbsent = true ∧ r.acceptsAbsent = true) ∧
    (Every Tight l → Every Tight r →
      (∀ x place, (m.parser x ctx place).isOk = true ↔ BothAdmit ctx (SkipBoth ctx) l r x) ∧
      m.acceptsAbsent = (l.acceptsAbsent && r.acceptsAbsent) ∧
      (Every Flat l → Every Flat r → ∀ x place,
        (m.parser x ctx place).isOk =
          ((l.parser x ctx place).isOk && (r.parser x ctx place).isOk))) := by
  have h := intersect_eq_ok_iff.mp merged
  have together (x : Option Value) : Accepts ctx m x ↔ BothAdmit ctx (SkipTogether ctx) l r x :=
    h.accepts_iff keptByMerging_bare (fun _ => id) (fun _ _ ⟨depth, hl, hr⟩ => ⟨depth, hr, hl⟩)
      (fun _ _ _ hm hl hr => hm.accepts_none_iff hl hr) bareLeft bareRight x
  refine ⟨fun x place => isOk_parser_iff.trans (together x), h.acceptsAbsent,
    fun tightLeft tightRight => ?_⟩
  have apart (x : Option Value) : Accepts ctx m x ↔ BothAdmit ctx (SkipBoth ctx) l r x :=
    h.accepts_iff (keptByMerging_bare.and keptByMerging_tight) (fun _ => And.left)
      (fun _ _ => And.symm)
      (fun _ _ _ hm hl hr => hm.accepts_none_iff_of_tight (hl.imp fun _ => And.left)
        (hr.imp fun _ => And.left) (hl.imp fun _ => And.right) (hr.imp fun _ => And.right))
      (bareLeft.and tightLeft) (bareRight.and tightRight) x
  refine ⟨fun x place => isOk_parser_iff.trans (apart x),
    h.acceptsAbsent_eq_of_tight tightLeft tightRight, fun flatLeft flatRight x place => ?_⟩
  rw [Bool.eq_iff_iff, Bool.and_eq_true, isOk_parser_iff, isOk_parser_iff, isOk_parser_iff, apart]
  constructor
  · intro hboth
    exact hboth.accepts_both (fun _ _ => id) flatLeft flatRight
  · rintro ⟨hl, hr⟩
    cases x with
    | none => exact .absent ⟨hl, hr⟩
    | some v => exact .of_accepts flatLeft flatRight hl hr

def guestName : Node := .optional (.string [.minLength 1] false)

/-- The name on a badge may be null. -/
def badgeName : Node := .optional (.nullable (.string [] true))

def guest : Node := .object [("name", guestName), ("seat", .number [])] none

def badge : Node := .object [("name", badgeName), ("desk", .boolean)] none

def seated : Entries Value := [("desk", .bool true), ("seat", .int 3)]

/-- A guest with a badge is accepted without a name. -/
theorem guest_with_badge_accepted : ∃ m, guest.intersect badge .root = .ok m ∧
    (m.parser (some (.object seated)) .detached .root).isOk = true := by
  have hname : Merges guestName badgeName guestName :=
    .optional (.nullableRight (by decide) .string)
  have hmerges : ∃ m, Merges guest badge m := by
    refine ⟨_, .object (m := .any) [⟨"name", guestName, some badgeName, guestName⟩,
      ⟨"seat", .number [], none, .number []⟩] ?_ ?_ ?_ ?_⟩
    · simp [lookup, Entries.get?]
    · simpa using hname
    · simp
    · simp
  obtain ⟨m, hm⟩ := hmerges
  have merged : guest.intersect badge .root = .ok m := intersect_eq_ok_iff.mpr hm
  have bareGuest : Every Bare guest := by
    refine .of_object (by simp [Bare, Entries.keys]) (List.forall_mem_cons.mpr ⟨?_,
      List.forall_mem_singleton.mpr (.of_leaf trivial rfl)⟩) (by simp)
    exact .of_inner trivial rfl (.of_leaf trivial rfl)
  have bareBadge : Every Bare badge := by
    refine .of_object (by simp [Bare, Entries.keys]) (List.forall_mem_cons.mpr ⟨?_,
      List.forall_mem_singleton.mpr (.of_leaf trivial rfl)⟩) (by simp)
    exact .of_inner trivial rfl (.of_inner trivial rfl (.of_leaf trivial rfl))
  have tightGuest : Every Tight guest := by
    refine .of_object trivial (List.forall_mem_cons.mpr ⟨?_,
      List.forall_mem_singleton.mpr (.of_leaf trivial rfl)⟩) (by simp)
    exact .of_inner trivial rfl (.of_leaf trivial rfl)
  have tightBadge : Every Tight badge := by
    refine .of_object trivial (List.forall_mem_cons.mpr ⟨?_,
      List.forall_mem_singleton.mpr (.of_leaf trivial rfl)⟩) (by simp)
    exact .of_inner trivial rfl (.of_inner (by simp [Tight, acceptsAbsent]) rfl
      (.of_leaf trivial rfl))
  refine ⟨m, merged, (((intersect_is_conjunction bareGuest bareBadge merged .detached).2.2
    tightGuest tightBadge).1 _ _).mpr ?_⟩
  have hseat : Accepts .detached (.number []) (some (.int 3)) :=
    ⟨_, parses_number_iff.mpr ⟨_, rfl, rfl, rfl⟩⟩
  have hdesk : Accepts .detached .boolean (some (.bool true)) :=
    ⟨_, parses_boolean_iff.mpr ⟨_, rfl, rfl, rfl⟩⟩
  have hmissing : BothAdmit .detached (SkipBoth .detached) guestName badgeName none :=
    .absent ⟨⟨_, parses_optional_none.mpr rfl⟩, ⟨_, parses_optional_none.mpr rfl⟩⟩
  refine .object (.core rfl) (.core rfl) rfl ?_ ?_ ?_ ?_ ?_
  · intro name n hguest hbadge
    rcases List.mem_pair.mp (Entries.mem_of_get? hguest) with heq | heq <;> cases heq
    · cases hbadge
    · exact hseat
  · intro name n hguest hbadge
    rcases List.mem_pair.mp (Entries.mem_of_get? hbadge) with heq | heq <;> cases heq
    · cases hguest
    · exact hdesk
  · intro name a b hguest hbadge
    rcases List.mem_pair.mp (Entries.mem_of_get? hguest) with heq | heq <;> cases heq
    · cases hbadge
      exact hmissing
    · cases hbadge
  · intro e he hguest hbadge
    rcases List.mem_pair.mp he with rfl | rfl
    · cases hbadge
    · cases hguest
  · rintro e he hguest hbadge a b ⟨⟩

/-- Two ways to say that a text may be absent: both accept absence, their merge does not. -/
theorem optional_text_refused :
    (Node.optional (.string [] false)).intersect (.nullable (.optional (.string [] false))) .root =
      .ok (.string [] false) ∧
    ((Node.optional (.string [] false)).parser none .detached .root).isOk = true ∧
    ((Node.nullable (.optional (.string [] false))).parser none .detached .root).isOk = true ∧
    ((Node.string [] false).parser none .detached .root).isOk = false ∧
    (Node.optional (.string [] false)).acceptsAbsent = true ∧
    (Node.nullable (.optional (.string [] false))).acceptsAbsent = true ∧
    (Node.string [] false).acceptsAbsent = false := by
  have hm : Merges (.optional (.string [] false)) (.nullable (.optional (.string [] false)))
      (.string [] false) :=
    .optionalLeft (by decide) (.nullableRight (by decide) (.optionalLeft (by decide) .string))
  refine ⟨intersect_eq_ok_iff.mpr hm, ?_, ?_, ?_, by simp [acceptsAbsent], by simp [acceptsAbsent],
    by simp [acceptsAbsent]⟩
  · exact isOk_parser_iff.mpr ⟨_, parses_optional_none.mpr rfl⟩
  · refine isOk_parser_iff.mpr ((accepts_nullable_iff (by simp)).mpr ?_)
    exact ⟨_, parses_optional_none.mpr rfl⟩
  · rw [Bool.eq_false_iff, Ne, isOk_parser_iff]
    rintro ⟨_, h⟩
    simp [parses_string_iff] at h

end Node

end DocSchema

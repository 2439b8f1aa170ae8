-- SUMMARY: Merging, parsing, compiling and stepping come to an end on every tree.
import DocSchema.Proofs.MergeCalls
import DocSchema.Proofs.Tree
import DocSchema.Update.Relax
import DocSchema.Validator.Rules
import Mathlib.Data.List.Basic

/-!
# Readings of trees

The parser, the compiler and the steps of paths read a tree from the top. Most nodes are
read by way of the nodes below them, but an intersection by way of its merged node, which
is no part of the tree. `parserWith self`, `rulesWith self` and `stepWith self` are one
level of each reading. The merged node is lower than the intersection, so a tree is read
by as many levels as it is high and one more, whatever `self` makes of the rest.
-/

namespace DocSchema

namespace Node

variable {n child : Node}

/-! ## Reading on -/

/-- `ReadsOn child n`: reading a node may go on with reading another one. -/
inductive ReadsOn : Node → Node → Prop where
  | child {n child : Node} : n.layer < 4 → child ∈ n.children → ReadsOn child n
  | merged {l r m : Node} {location : Location} :
    l.intersect r location = .ok m → ReadsOn m (.intersection l r)

theorem ReadsOn.height_lt (h : ReadsOn child n) : child.height < n.height := by
  cases h with
  | child _ hchild => exact height_lt_of_child hchild
  | merged hmerged =>
    have hlower := height_le_of_intersect hmerged
    rw [height]
    omega

/-- No reading goes on for ever. -/
theorem wellFounded_readsOn : WellFounded ReadsOn :=
  Subrelation.wf ReadsOn.height_lt (measure height).wf

/-- A reading is what as many levels come to as the node is high and one more, if a level
asks for nothing but the nodes that it reads on with. -/
theorem iterate_reading {β : Type} {readWith : (Node → β) → Node → β} {read : Node → β}
    (level : ∀ self n, (∀ child, ReadsOn child n → self child = read child) →
      readWith self n = read n) (self : Node → β) {k : Nat} (h : n.height < k) :
    (readWith^[k] self) n = read n := by
  induction k generalizing n with
  | zero => cases h
  | succ k ih =>
    rw [Function.iterate_succ_apply']
    refine level _ n fun child hchild => ih ?_
    have hheight : child.height < n.height := hchild.height_lt
    omega

section Parts

variable {β : Type} {self read : Node → β}

theorem ReadsOn.inner {inner : Node} (hlayer : n.layer < 4) (h : n.children = [inner]) :
    ReadsOn inner n :=
  .child hlayer (by rw [h]; exact List.mem_singleton.mpr rfl)

theorem map_eq_of_agree (hlayer : n.layer < 4)
    (agree : ∀ child, ReadsOn child n → self child = read child) :
    n.children.map self = n.children.map read :=
  List.map_congr_left fun child hchild => agree child (.child hlayer hchild)

theorem eq_of_agree_field {fields : List (String × Node)} {catchall : Option Node}
    (agree : ∀ child, ReadsOn child (.object fields catchall) → self child = read child)
    {f : String × Node} (hf : f ∈ fields) : self f.2 = read f.2 :=
  agree f.2 (.child (by simp [layer]) (List.mem_append_left _ (List.mem_map.mpr ⟨f, hf, rfl⟩)))

theorem map_eq_of_agree_catchall {fields : List (String × Node)} {catchall : Option Node}
    (agree : ∀ child, ReadsOn child (.object fields catchall) → self child = read child) :
    catchall.map self = catchall.map read := by
  cases catchall with
  | none => rfl
  | some rest =>
    exact congrArg some (agree rest (.child (by simp [layer])
      (List.mem_append_right _ (List.mem_singleton.mpr rfl))))

end Parts

/-! ## Parsing -/

/-- One level of parsing, with `self` for the parsers of the nodes that are read on with. -/
def parserWith (self : Node → Parser) : Node → Parser
  | .object fields catchall =>
    .present (.object (fields.map fun f => (f.1, self f.2)) (catchall.map self))
  | .array item => .present (.array (self item))
  | .tuple items => .present (.tuple (items.map self))
  | .union options => .union (options.map self)
  | .discriminated key options =>
    .discriminated key (options.map fun option => (option.discriminator? key, self option))
  | .intersection left right => fun value ctx location =>
    match left.intersect right location with
    | .ok merged => self merged value ctx location
    | .error e => .error (.mismatch location "a mergeable intersection" e.message)
  | .record value => .present (.record (self value))
  | .optional inner => .optional (self inner)
  | .nullable inner => .nullable (self inner)
  | .withDefault inner default => .withDefault (self inner) default
  | .transform inner facet apply => .transform (self inner) facet apply
  | .enum values => .present (.enum values)
  | .literal v => .present (.literal v)
  | .string checks _ => .present (.string checks)
  | .number checks => .present (.number checks)
  | .boolean => .present (.ofKind .bool)
  | .date => .present (.ofKind .date)
  | .null => .present (.ofKind .null)
  | .any => .any
  | .never => .present .never

theorem parserWith_eq (self : Node → Parser) (n : Node)
    (agree : ∀ child, ReadsOn child n → self child = child.parser) :
    parserWith self n = n.parser := by
  cases n with
  | object fields catchall =>
    have hfields : fields.map (fun f => (f.1, self f.2)) = fields.map fun f => (f.1, f.2.parser) :=
      List.map_congr_left fun f hf => congrArg (f.1, ·) (eq_of_agree_field agree hf)
    rw [parserWith, parser_object, hfields, map_eq_of_agree_catchall agree]
  | tuple items | union items =>
    have hitems : items.map self = items.map parser := map_eq_of_agree (by simp [layer]) agree
    rw [parserWith, parser, hitems]
  | discriminated key options =>
    have hoptions : options.map (fun option => (option.discriminator? key, self option)) =
        options.map fun option => (option.discriminator? key, option.parser) :=
      List.map_congr_left fun option hoption =>
        congrArg (option.discriminator? key, ·) (agree option (.child (by simp [layer]) hoption))
    rw [parserWith, parser, hoptions]
  | intersection left right =>
    funext value ctx location
    rw [parserWith]
    dsimp only
    cases hmerged : left.intersect right location with
    | error e => rw [parser_intersection_of_error hmerged]
    | ok merged =>
      rw [parser_intersection_of_ok hmerged]
      exact congrFun (congrFun (congrFun (agree merged (.merged hmerged)) value) ctx) location
  | array | record | optional | nullable | withDefault | transform =>
    rw [parserWith, parser, agree _ (.inner (by simp [layer]) rfl)]
  | enum | literal | string | number | boolean | date | null | any | never =>
    rw [parserWith, parser]

/-! ## Compiling -/

/-- One level of compiling, with `self` for the rules of the nodes that are read on with. -/
def rulesWith (self : Node → RulesAt) : Node → RulesAt
  | .object fields catchall =>
    .object (fields.map fun f => ⟨f.1, !f.2.acceptsAbsent, self f.2⟩) (catchall.map self)
  | .array item => .array (self item)
  | .tuple items => .tuple (items.map self)
  | .union options => .union (options.map self)
  | .discriminated key options =>
    .discriminated key (options.map fun option =>
      ⟨option.kindName, option.isObject, option.discriminator? key, self option⟩)
  | .intersection left right => fun location =>
    match left.intersect right location with
    | .ok merged => self merged location
    | .error e => .error e
  | .record value => .record (self value)
  | .optional inner => self inner
  | .withDefault inner _ => self inner
  | .nullable inner => fun location => do .ok (← self inner location).admitNull
  | .transform inner facet _ => fun location => do (← self inner location).addFacet facet location
  | .enum values => .enum values
  | .literal v => .literal v
  | .string checks _ => .string checks
  | .number checks => .number checks
  | .boolean => fun _ => .ok (Rules.ofKind "bool")
  | .date => fun _ => .ok (Rules.ofKind "date")
  | .null => fun _ => .ok (Rules.ofKind "null")
  | .any => fun _ => .ok []
  | .never => fun location => .error (.unsupported location .never)

theorem rulesWith_eq (self : Node → RulesAt) (n : Node)
    (agree : ∀ child, ReadsOn child n → self child = child.rules) :
    rulesWith self n = n.rules := by
  cases n with
  | object fields catchall =>
    have hfields : fields.map (fun f => RulesAt.FieldRules.mk f.1 (!f.2.acceptsAbsent) (self f.2)) =
        fields.map fun f => ⟨f.1, !f.2.acceptsAbsent, f.2.rules⟩ :=
      List.map_congr_left fun f hf =>
        congrArg (RulesAt.FieldRules.mk f.1 (!f.2.acceptsAbsent)) (eq_of_agree_field agree hf)
    rw [rulesWith, rules_object, hfields, map_eq_of_agree_catchall agree]
  | tuple items | union items =>
    have hitems : items.map self = items.map rules := map_eq_of_agree (by simp [layer]) agree
    rw [rulesWith, rules, hitems]
  | discriminated key options =>
    have hoptions : options.map (fun option => RulesAt.OptionRules.mk option.kindName
          option.isObject (option.discriminator? key) (self option)) =
        options.map fun option =>
          ⟨option.kindName, option.isObject, option.discriminator? key, option.rules⟩ :=
      List.map_congr_left fun option hoption =>
        congrArg (RulesAt.OptionRules.mk option.kindName option.isObject
          (option.discriminator? key)) (agree option (.child (by simp [layer]) hoption))
    rw [rulesWith, rules, hoptions]
  | intersection left right =>
    funext location
    rw [rulesWith]
    dsimp only
    cases hmerged : left.intersect right location with
    | error e => rw [rules_intersection_of_error hmerged]
    | ok merged =>
      rw [rules_intersection_of_ok hmerged]
      exact congrFun (agree merged (.merged hmerged)) location
  | array | record | optional | nullable | withDefault | transform =>
    rw [rulesWith, rules, agree _ (.inner (by simp [layer]) rfl)]
  | enum | literal | string | number | boolean | date | null | any | never => rw [rulesWith, rules]

/-! ## Stepping -/

/-- One level of stepping, with `self` for the steps of the nodes that are read on with. -/
def stepWith (self : Node → String → Option Node) : Node → String → Option Node
  | .optional inner, segment => self inner segment
  | .nullable inner, segment => self inner segment
  | .withDefault inner _, segment => self inner segment
  | .transform inner _ _, segment => self inner segment
  | .object fields catchall, segment => lookup fields segment <|> catchall
  | .record value, _ => some value
  | .array item, segment => if DotPath.isElement segment then some item else none
  | .tuple items, segment => positionOf? items segment
  | .union options, segment => unionOf? (options.filterMap fun option => self option segment)
  | .discriminated _ options, segment =>
    unionOf? (options.filterMap fun option => self option segment)
  | .intersection left right, segment =>
    match left.intersect right .root with
    | .ok merged => self merged segment
    | .error _ => none
  | .any, _ => some .any
  | _, _ => none

theorem stepWith_eq (self : Node → String → Option Node) (n : Node)
    (agree : ∀ child, ReadsOn child n → self child = child.step?) :
    stepWith self n = n.step? := by
  funext segment
  cases n with
  | optional | nullable | withDefault | transform =>
    rw [stepWith, step?, agree _ (.inner (by simp [layer]) rfl)]
  | union options | discriminated _ options =>
    have hoptions : options.filterMap (fun option => self option segment) =
        options.filterMap fun option => option.step? segment :=
      List.filterMap_congr fun option hoption =>
        congrFun (agree option (.child (by simp [layer]) hoption)) segment
    rw [stepWith, step?, hoptions]
  | intersection left right =>
    rw [stepWith, step?]
    cases hmerged : left.intersect right .root with
    | error e => rfl
    | ok merged => exact congrFun (agree merged (.merged hmerged)) segment
  | object | record | array | tuple | any => rw [stepWith, step?]
  | enum | literal | string | number | boolean | date | null | never => simp [stepWith, step?]

/-! ## Everything ends -/

/-- Merging comes to an end on any two nodes, also on objects that repeat a name: its calls
are well-founded and go no deeper than `mergeDepth`. What it gives is no intersection, and
no higher than the higher one of the nodes. So the readings that go on with merged nodes
come to an end on every tree, after as many levels as the tree is high and one more. -/
theorem merging_and_readings_end :
    (WellFounded MergeCall ∧ ∀ (self : Merging) (l r : Node) (k : Nat), mergeDepth (l, r) < k →
      ∀ location, (mergeWith^[k] self) l r location = l.intersect r location) ∧
    (∀ (l r m : Node) (location : Location), l.intersect r location = .ok m →
      (∀ a b, m ≠ .intersection a b) ∧ m.height ≤ max l.height r.height) ∧
    WellFounded ReadsOn ∧ ∀ (n : Node) (k : Nat), n.height < k →
      (∀ self, (parserWith^[k] self) n = n.parser) ∧
      (∀ self, (rulesWith^[k] self) n = n.rules) ∧
      ∀ self, (stepWith^[k] self) n = n.step? := by
  refine ⟨⟨wellFounded_mergeCall, fun self l r k hdepth => iterate_mergeWith self hdepth⟩, ?_,
    wellFounded_readsOn, fun n k hheight => ⟨fun self => ?_, fun self => ?_, fun self => ?_⟩⟩
  · intro l r m location hm
    have hlayer : m.layer < 4 := (intersect_eq_ok_iff.mp hm).layer_lt_four
    exact ⟨fun a b => not_intersection hlayer a b, height_le_of_intersect hm⟩
  · exact iterate_reading parserWith_eq self hheight
  · exact iterate_reading rulesWith_eq self hheight
  · exact iterate_reading stepWith_eq self hheight

/-- An intersection of objects that declare a name twice, each of which is merged with the
first one of that name. -/
def twiceNamed : Node :=
  .intersection (.object [("x", .any), ("x", .nullable .any)] none)
    (.object [("x", .optional .boolean), ("x", .null)] none)

theorem twiceNamed_ends : ∃ m, twiceNamed.intersect .any .root = .ok m ∧
    (∀ a b, m ≠ .intersection a b) ∧ m.height ≤ 3 ∧
    (∀ self, (mergeWith^[13] self) twiceNamed .any .root = .ok m) ∧
    ∀ self, (parserWith^[4] self) twiceNamed = twiceNamed.parser := by
  have hheight : twiceNamed.height = 3 := by
    simp [twiceNamed, height, fieldsHeight, catchallHeight]
  have hdepth : mergeDepth (twiceNamed, .any) = 12 := by
    rw [mergeDepth, hheight, height]
    rfl
  obtain ⟨⟨-, hmerging⟩, hmerged, -, hreading⟩ := merging_and_readings_end
  have hfirst : Merges .any (.optional .boolean) (.optional .boolean) := .anyLeft (by decide)
  have hsecond : Merges (.nullable .any) (.optional .boolean) .boolean :=
    .optionalRight (by decide) (.nullableRight (by decide) (.anyLeft (by decide)))
  have hbranches : ∃ inner, Merges (.object [("x", .any), ("x", .nullable .any)] none)
      (.object [("x", .optional .boolean), ("x", .null)] none) inner ∧ inner.layer < 3 := by
    refine ⟨_, .object (m := .any) [⟨"x", .any, some (.optional .boolean), .optional .boolean⟩,
      ⟨"x", .nullable .any, some (.optional .boolean), .boolean⟩] ?_ ?_ ?_ ?_, by simp [layer]⟩
    · simp [lookup, Entries.get?]
    · simp [hfirst, hsecond]
    · simp
    · simp
  obtain ⟨m, hinner, hlayer⟩ := hbranches
  have hm : twiceNamed.intersect .any .root = .ok m :=
    intersect_eq_ok_iff.mpr (.intersectionLeft hinner (.anyRight hlayer))
  obtain ⟨hcore, hlower⟩ := hmerged _ _ _ _ hm
  rw [hheight] at hlower
  refine ⟨m, hm, hcore, hlower, fun self => ?_, (hreading twiceNamed 4 (by omega)).1⟩
  rw [hmerging self twiceNamed .any 13 (by omega), hm]

end Node

end DocSchema

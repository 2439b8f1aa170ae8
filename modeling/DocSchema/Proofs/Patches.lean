-- SUMMARY: Changes of a document at one place, and why those at places apart from each other commute.
import DocSchema.Proofs.Overwriting

/-!
# Patches

A patch says what is to stand at the end of a path: a value, or nothing. Setting a path and
removing what is there are patches, as long as the path fits the document, so that every
array is entered by the canonical index of an element that it has. Paths apart from each
other part at some container, and there one patch leaves alone what the other one reads
and changes: the two commute, and each succeeds after the other exactly if it does before.
-/

namespace DocSchema

namespace Entries

variable {α : Type} {entries : Entries α} {key other : String} {content content' : Option α}

/-! ## Assignment -/

/-- Puts a value under a name, or takes the name away. -/
def assign (entries : Entries α) (key : String) : Option α → Entries α
  | some v => insert entries key v
  | none => erase entries key

theorem get?_assign : get? (assign entries key content) other =
    if key = other then content else get? entries other := by
  cases content with
  | some v => exact get?_insert entries key v other
  | none => exact get?_erase entries key other

theorem sorted_assign (sorted : Sorted entries) : Sorted (assign entries key content) := by
  cases content with
  | some v => exact sorted_insert sorted key v
  | none => exact List.Pairwise.filter _ sorted

theorem assign_comm (sorted : Sorted entries) (hne : key ≠ other) :
    assign (assign entries key content) other content' =
      assign (assign entries other content') key content := by
  refine Sorted.ext (sorted_assign (sorted_assign sorted)) (sorted_assign (sorted_assign sorted))
    fun name => ?_
  simp only [get?_assign]
  by_cases hkey : key = name
  · rw [if_pos hkey, if_neg fun hother => hne (hkey.trans hother.symm), if_pos hkey]
  · rw [if_neg hkey, if_neg hkey]

end Entries

namespace Value

variable {v v' w doc next : Value} {segment other path : String} {p q rest : List String}
  {content content' : Option Value}

/-! ## One container -/

/-- The container with other content under a segment. An array keeps its length; what is
taken away from it leaves null behind. -/
def putUnder (v : Value) (segment : String) (content : Option Value) : Option Value :=
  match v with
  | .object fields => some (.object (Entries.assign fields segment content))
  | .array items =>
    (DotPath.index? segment).bind fun i =>
      if i < items.length then some (.array (items.set i (content.getD .null))) else none
  | _ => none

theorem putUnder_array {items : List Value} {i : Nat} (hi : DotPath.index? segment = some i)
    (hlt : i < items.length) : (Value.array items).putUnder segment content =
      some (.array (items.set i (content.getD .null))) := by
  rw [putUnder, hi, Option.bind_some, if_pos hlt]

theorem putUnder_cases (h : v.putUnder segment content = some v') :
    (∃ fields, v = .object fields ∧ v' = .object (Entries.assign fields segment content)) ∨
    (∃ items i, v = .array items ∧ DotPath.index? segment = some i ∧ i < items.length ∧
      v' = .array (items.set i (content.getD .null))) := by
  cases v with
  | object fields => exact .inl ⟨fields, rfl, (Option.some.inj h).symm⟩
  | array items =>
    rw [putUnder] at h
    obtain ⟨i, hi, h⟩ := Option.bind_eq_some_iff.mp h
    split at h
    · next hlt => exact .inr ⟨items, i, rfl, hi, hlt, (Option.some.inj h).symm⟩
    · cases h
  | _ => cases h

/-- Where something stands, something else can stand. -/
theorem exists_putUnder (h : v.walk? [segment] = some w) :
    ∃ v', v.putUnder segment content = some v' := by
  cases v with
  | object fields => exact ⟨_, rfl⟩
  | array items =>
    rw [walk?_array] at h
    obtain ⟨i, hi, hget⟩ := Option.bind_eq_some_iff.mp h
    exact ⟨_, putUnder_array hi (List.getElem?_eq_some_iff.mp hget).1⟩
  | _ => cases h

/-- Whether a container can be changed does not depend on the content. -/
theorem putUnder_eq_none (h : v.putUnder segment content = none) :
    v.putUnder segment content' = none := by
  refine Option.eq_none_iff_forall_ne_some.mpr fun v' h' => ?_
  obtain ⟨fields, rfl, -⟩ | ⟨items, i, rfl, hi, hlt, -⟩ := putUnder_cases h'
  · cases h
  · rw [putUnder_array hi hlt] at h
    cases h

theorem isScalar_of_putUnder (h : v.putUnder segment content = some v') : v'.isScalar = false := by
  obtain ⟨fields, rfl, rfl⟩ | ⟨items, i, rfl, -, -, rfl⟩ := putUnder_cases h <;> rfl

theorem walk?_of_putUnder (h : v.putUnder segment (some w) = some v') :
    v'.walk? [segment] = some w := by
  obtain ⟨fields, rfl, rfl⟩ | ⟨items, i, rfl, hi, hlt, rfl⟩ := putUnder_cases h
  · rw [walk?_object, Entries.get?_assign, if_pos rfl]
  · rw [walk?_array, hi]
    simp [hlt]

theorem under_of_walk? (h : v.walk? [segment] = some w) (container : w.isScalar = false) :
    v.under segment = w := by
  cases v with
  | object fields =>
    rw [walk?_object] at h
    rw [under, h, Option.getD_some]
  | array items =>
    rw [walk?_array] at h
    obtain ⟨i, hi, hget⟩ := Option.bind_eq_some_iff.mp h
    rw [under, hi, Option.map_some, Option.getD_some, elementOrEmpty_of_container hget container]
  | _ => cases h

/-- Where something was taken away, an edit starts from nothing. -/
theorem under_of_putUnder_none (h : v.putUnder segment none = some v') :
    v'.under segment = .empty := by
  obtain ⟨fields, rfl, rfl⟩ | ⟨items, i, rfl, hi, hlt, rfl⟩ := putUnder_cases h
  · rw [under, Entries.get?_assign, if_pos rfl]
    rfl
  · simp [under, hi, elementOrEmpty, hlt]

/-- Under one segment a later change takes the place of an earlier one. -/
theorem putUnder_of_putUnder (h : v.putUnder segment (some w) = some v') (w' : Value) :
    v'.putUnder segment (some w') = v.putUnder segment (some w') := by
  obtain ⟨fields, rfl, rfl⟩ | ⟨items, i, rfl, hi, hlt, rfl⟩ := putUnder_cases h
  · exact congrArg (some ∘ Value.object) (Entries.insert_insert fields segment w w')
  · rw [putUnder_array hi hlt, putUnder_array hi (by rwa [List.length_set]), List.set_set]

/-- Below the first of several segments the walk goes on in what an edit would go on with. -/
theorem walk?_under (hne : rest ≠ []) :
    v.walk? (segment :: rest) = (v.under segment).walk? rest := by
  obtain ⟨next, more, rfl⟩ := List.exists_cons_of_ne_nil hne
  rw [walk?_cons]
  cases v with
  | object fields =>
    rw [walk?_object, under]
    cases Entries.get? fields segment <;> rfl
  | array items =>
    rw [walk?_array, under]
    cases DotPath.index? segment with
    | none => rfl
    | some i =>
      rw [Option.bind_some, Option.map_some, Option.getD_some, elementOrEmpty]
      cases items[i]? with
      | none => rfl
      | some child => cases child <;> rfl
  | _ => rfl

/-! ## Different segments of one container -/

/-- The segment is one under which the container can be changed without regard to others: an
object has its names in order, and an array is entered by the canonical index of an element. -/
def Takes (v : Value) (segment : String) : Prop :=
  match v with
  | .object fields => Entries.Sorted fields
  | .array items => DotPath.IsCanonical segment ∧
      ∃ i, DotPath.index? segment = some i ∧ i < items.length
  | _ => True

section Different

variable (takes : v.Takes segment) (takes' : v.Takes other)

include takes takes'

theorem takes_of_putUnder (h : v.putUnder segment content = some v') : v'.Takes other := by
  obtain ⟨fields, rfl, rfl⟩ | ⟨items, i, rfl, hi, hlt, rfl⟩ := putUnder_cases h
  · exact Entries.sorted_assign takes'
  · obtain ⟨canonical, j, hj, hbound⟩ := takes'
    exact ⟨canonical, j, hj, by rwa [List.length_set]⟩

variable (hne : segment ≠ other)

include hne

/-- Different segments enter an array at different elements. -/
theorem exists_indices {items : List Value} (hv : v = .array items) :
    ∃ i j, DotPath.index? segment = some i ∧ i < items.length ∧
      DotPath.index? other = some j ∧ j < items.length ∧ i ≠ j := by
  subst hv
  obtain ⟨canonical, i, hi, hlt⟩ := takes
  obtain ⟨canonical', j, hj, hlt'⟩ := takes'
  exact ⟨i, j, hi, hlt, hj, hlt', canonical.index?_ne canonical' hne hi hj⟩

theorem walk?_of_putUnder_ne (h : v.putUnder segment content = some v') :
    v'.walk? [other] = v.walk? [other] := by
  obtain ⟨fields, rfl, rfl⟩ | ⟨items, i, rfl, hi, hlt, rfl⟩ := putUnder_cases h
  · rw [walk?_object, walk?_object, Entries.get?_assign, if_neg hne]
  · obtain ⟨i', j, hi', -, hj, -, hij⟩ := exists_indices takes takes' hne rfl
    cases hi.symm.trans hi'
    rw [walk?_array, walk?_array, hj, Option.bind_some, Option.bind_some, List.getElem?_set_ne hij]

theorem under_of_putUnder_ne (h : v.putUnder segment content = some v') :
    v'.under other = v.under other := by
  obtain ⟨fields, rfl, rfl⟩ | ⟨items, i, rfl, hi, hlt, rfl⟩ := putUnder_cases h
  · rw [under, under, Entries.get?_assign, if_neg hne]
  · obtain ⟨i', j, hi', -, hj, -, hij⟩ := exists_indices takes takes' hne rfl
    cases hi.symm.trans hi'
    simp only [under, hj, Option.map_some, Option.getD_some, elementOrEmpty,
      List.getElem?_set_ne hij]

theorem putUnder_comm : (v.putUnder segment content).bind (·.putUnder other content') =
    (v.putUnder other content').bind (·.putUnder segment content) := by
  cases v with
  | object fields =>
    exact congrArg (some ∘ Value.object) (Entries.assign_comm takes hne)
  | array items =>
    obtain ⟨i, j, hi, hlt, hj, hlt', hij⟩ := exists_indices takes takes' hne rfl
    rw [putUnder_array hi hlt, putUnder_array hj hlt', Option.bind_some, Option.bind_some,
      putUnder_array hj (by rwa [List.length_set]), putUnder_array hi (by rwa [List.length_set]),
      List.set_comm _ _ hij]
  | _ => rfl

end Different

/-! ## Whole paths -/

/-- Every container on the way can be changed under the segment that leads on. -/
def Fits : List String → Value → Prop
  | [], _ => True
  | segment :: rest, v => v.Takes segment ∧ Fits rest (v.under segment)

/-- What stands at a place after content has been put at the end of the segments below it;
objects on the way are created. -/
def putAt (content : Option Value) : List String → Value → Option (Option Value)
  | [], _ => some content
  | segment :: rest, v =>
    ((putAt content rest (v.under segment)).bind (v.putUnder segment)).map some

theorem fits_empty (p : List String) : Fits p .empty := by
  induction p with
  | nil => trivial
  | cons segment rest ih => exact ⟨List.Pairwise.nil, ih⟩

theorem putAt_cons_eq_some_iff {x : Option Value} :
    putAt content (segment :: rest) v = some x ↔ ∃ y v',
      putAt content rest (v.under segment) = some y ∧ v.putUnder segment y = some v' ∧
        x = some v' := by
  simp only [putAt, Option.map_eq_some_iff, Option.bind_eq_some_iff, @eq_comm _ (some _) x]
  grind

/-- Behind several segments content is put into a container. -/
theorem exists_container_of_putAt {x : Option Value} (h : putAt content p v = some x)
    (hne : p ≠ []) : ∃ w, x = some w ∧ w.isScalar = false := by
  obtain ⟨segment, rest, rfl⟩ := List.exists_cons_of_ne_nil hne
  obtain ⟨y, v', -, hput, rfl⟩ := putAt_cons_eq_some_iff.mp h
  exact ⟨v', rfl, isScalar_of_putUnder hput⟩

/-- Paths keep fitting after content was put at another place, unless that lies on the way
and something else stands there now. -/
theorem Fits.putAt (hq : Fits q v) (hp : Fits p v) (away : p <+: q → content = none)
    (hput : putAt content p v = some (some v')) : Fits q v' := by
  induction p generalizing q v v' with
  | nil =>
    cases Option.some.inj hput
    cases away List.nil_prefix
  | cons segment rest ih =>
    obtain ⟨y, _, hy, hunder, heq⟩ := putAt_cons_eq_some_iff.mp hput
    cases heq
    cases q with
    | nil => trivial
    | cons other more =>
      refine ⟨takes_of_putUnder hp.1 hq.1 hunder, ?_⟩
      by_cases hsame : segment = other
      · subst hsame
        cases y with
        | none =>
          rw [under_of_putUnder_none hunder]
          exact fits_empty more
        | some w =>
          cases more with
          | nil => trivial
          | cons next more =>
            have hcontainer : w.isScalar = false := by
              cases rest with
              | nil =>
                cases away (List.cons_prefix_cons.mpr ⟨rfl, List.nil_prefix⟩)
                cases hy
              | cons =>
                obtain ⟨_, heq, hcontainer⟩ := exists_container_of_putAt hy (List.cons_ne_nil _ _)
                cases heq
                exact hcontainer
            rw [under_of_walk? (walk?_of_putUnder hunder) hcontainer]
            exact ih hq.2 hp.2
              (fun hprefix => away (List.cons_prefix_cons.mpr ⟨rfl, hprefix⟩)) hy
      · rw [under_of_putUnder_ne hp.1 hq.1 hsame hunder]
        exact hq.2

theorem ne_nil_of_apart (h : ¬ p <+: q) : p ≠ [] := by
  rintro rfl
  exact h List.nil_prefix

section Apart

variable (hp : Fits p v) (hq : Fits q v) (hpq : ¬ p <+: q) (hqp : ¬ q <+: p)

include hp hq hpq hqp

/-- What stands at a path apart stays there. -/
theorem walk?_of_putAt (hput : putAt content p v = some (some v')) : v'.walk? q = v.walk? q := by
  induction p generalizing q v v' with
  | nil => exact (hpq List.nil_prefix).elim
  | cons segment rest ih =>
    obtain ⟨y, _, hy, hunder, heq⟩ := putAt_cons_eq_some_iff.mp hput
    cases heq
    cases q with
    | nil => exact (hqp List.nil_prefix).elim
    | cons other more =>
      by_cases hsame : segment = other
      · subst hsame
        rw [List.prefix_cons_inj] at hpq hqp
        have hmore : more ≠ [] := ne_nil_of_apart hqp
        obtain ⟨w, rfl, hcontainer⟩ := exists_container_of_putAt hy (ne_nil_of_apart hpq)
        rw [walk?_under hmore, walk?_under hmore,
          under_of_walk? (walk?_of_putUnder hunder) hcontainer]
        exact ih hp.2 hq.2 hpq hqp hy
      · rw [walk?_cons, walk?_of_putUnder_ne hp.1 hq.1 hsame hunder, ← walk?_cons]

end Apart

/-! ## Commutation -/

/-- The document after content has been put at the end of the segments. -/
def put (content : Option Value) (p : List String) (v : Value) : Option Value :=
  (putAt content p v).join

theorem put_cons : put content (segment :: rest) v =
    (putAt content rest (v.under segment)).bind (v.putUnder segment) := by
  rw [put, putAt]
  cases (putAt content rest (v.under segment)).bind (v.putUnder segment) <;> rfl

theorem putAt_eq_map_put (hne : p ≠ []) : putAt content p v = (put content p v).map some := by
  cases h : putAt content p v with
  | none => rw [put, h]; rfl
  | some x =>
    obtain ⟨w, rfl, -⟩ := exists_container_of_putAt h hne
    rw [put, h]
    rfl

theorem putAt_of_put (h : put content p v = some v') : putAt content p v = some (some v') :=
  Option.join_eq_some_iff.mp h

/-- Where something stands at the end of a path, anything else can be put. -/
theorem exists_put_of_walk? (h : v.walk? p = some w) (hne : p ≠ []) :
    ∃ v', put content p v = some v' := by
  induction p generalizing v with
  | nil => exact (hne rfl).elim
  | cons segment rest ih =>
    rw [walk?_cons] at h
    obtain ⟨child, hchild, hrest⟩ := Option.bind_eq_some_iff.mp h
    rw [put_cons]
    cases rest with
    | nil => exact exists_putUnder hchild
    | cons next more =>
      obtain ⟨left, hleft⟩ := ih hrest (List.cons_ne_nil _ _)
      rw [under_of_walk? hchild (isScalar_of_walk? hrest), putAt_of_put hleft]
      exact exists_putUnder hchild

/-- Two changes below one segment are made in what stands there. -/
theorem put_put_of_same (hrest : rest ≠ []) (hq : q ≠ []) :
    (put content (segment :: rest) v).bind (put content' (segment :: q)) =
      ((put content rest (v.under segment)).bind (put content' q)).bind fun w =>
        v.putUnder segment (some w) := by
  rw [put_cons, putAt_eq_map_put hrest]
  cases hw : put content rest (v.under segment) with
  | none => rfl
  | some w =>
    obtain ⟨_, heq, hcontainer⟩ := exists_container_of_putAt (putAt_of_put hw) hrest
    cases heq
    simp only [Option.map_some, Option.bind_some]
    cases hunder : v.putUnder segment (some w) with
    | none => simp [putUnder_eq_none hunder]
    | some v' =>
      rw [Option.bind_some, put_cons, putAt_eq_map_put hq,
        under_of_walk? (walk?_of_putUnder hunder) hcontainer]
      cases put content' q w with
      | none => rfl
      | some w' => exact putUnder_of_putUnder hunder w'

/-- Two changes below different segments are made in what stood there before. -/
theorem put_put_of_ne (takes : v.Takes segment) (takes' : v.Takes other) (hne : segment ≠ other) :
    (put content (segment :: p) v).bind (put content' (other :: q)) =
      (putAt content p (v.under segment)).bind fun x =>
        (putAt content' q (v.under other)).bind fun y =>
          (v.putUnder segment x).bind fun v' => v'.putUnder other y := by
  rw [put_cons, Option.bind_assoc]
  refine Option.bind_congr fun x _ => ?_
  cases hunder : v.putUnder segment x with
  | none => cases putAt content' q (v.under other) <;> rfl
  | some v' =>
    rw [Option.bind_some, put_cons, under_of_putUnder_ne takes takes' hne hunder]
    rfl

/-- Changes at places apart from each other commute: both orders come to the same document,
or none of them can be gone through. -/
theorem put_comm (hp : Fits p v) (hq : Fits q v) (hpq : ¬ p <+: q) (hqp : ¬ q <+: p) :
    (put content p v).bind (put content' q) = (put content' q v).bind (put content p) := by
  induction p generalizing q v with
  | nil => exact (hpq List.nil_prefix).elim
  | cons segment rest ih =>
    cases q with
    | nil => exact (hqp List.nil_prefix).elim
    | cons other more =>
      by_cases hsame : segment = other
      · subst hsame
        rw [List.prefix_cons_inj] at hpq hqp
        rw [put_put_of_same (ne_nil_of_apart hpq) (ne_nil_of_apart hqp),
          put_put_of_same (ne_nil_of_apart hqp) (ne_nil_of_apart hpq),
          ih hp.2 hq.2 hpq hqp]
      · rw [put_put_of_ne hp.1 hq.1 hsame, put_put_of_ne hq.1 hp.1 (Ne.symm hsame),
          Option.bind_comm]
        refine Option.bind_congr fun y _ => Option.bind_congr fun x _ => ?_
        exact putUnder_comm hp.1 hq.1 hsame

/-! ## Setting and removing -/

theorem puts_iff_putUnder (takes : v.Takes segment) :
    Puts segment w v v' ↔ v.putUnder segment (some w) = some v' := by
  cases v with
  | object fields =>
    constructor
    · rintro ⟨⟩
      rfl
    · rintro ⟨⟩
      exact .entry fields
  | array items =>
    obtain ⟨-, i, hi, hlt⟩ := takes
    rw [putUnder_array hi hlt]
    constructor
    · rintro (- | ⟨hi', -⟩)
      cases hi.symm.trans hi'
      rw [setOrAppend, if_pos hlt]
      rfl
    · rintro ⟨⟩
      have hset := Puts.element (w := w) hi (Nat.le_of_lt hlt)
      rwa [setOrAppend, if_pos hlt] at hset
  | _ => exact iff_of_false (by rintro ⟨⟩) (by rintro ⟨⟩)

/-- Where a path fits, setting a value there is putting it there. -/
theorem putAt_eq_some_iff (path : String) {new : Value} {x : Option Value} (fits : Fits p v) :
    putAt (some new) p v = some x ↔ ∃ w, x = some w ∧ setAt path new p v = .done w := by
  induction p generalizing v x with
  | nil =>
    constructor
    · rintro ⟨⟩
      exact ⟨new, rfl, rfl⟩
    · rintro ⟨w, rfl, ⟨⟩⟩
      rfl
  | cons segment rest ih =>
    rw [putAt_cons_eq_some_iff]
    constructor
    · rintro ⟨y, v', hy, hunder, rfl⟩
      obtain ⟨w, rfl, hw⟩ := (ih fits.2).mp hy
      exact ⟨v', rfl, setAt_cons_eq_done_iff.mpr ⟨w, hw, (puts_iff_putUnder fits.1).mpr hunder⟩⟩
    · rintro ⟨v', rfl, hset⟩
      obtain ⟨w, hw, puts⟩ := setAt_cons_eq_done_iff.mp hset
      exact ⟨some w, v', (ih fits.2).mpr ⟨w, rfl, hw⟩, (puts_iff_putUnder fits.1).mp puts, rfl⟩

theorem removeAt_cons (hne : rest ≠ []) : removeAt (segment :: rest) v =
    (v.walk? [segment]).bind fun child => (removeAt rest child).bind fun r =>
      (v.putUnder segment (some r.2)).map fun left => (r.1, left) := by
  obtain ⟨next, more, rfl⟩ := List.exists_cons_of_ne_nil hne
  cases v with
  | object fields =>
    rw [walk?_object, removeAt]
    · rfl
    · exact hne
  | array items =>
    rw [walk?_array, removeAt, Option.bind_assoc]
    · refine Option.bind_congr fun i hi => Option.bind_congr fun child hchild => ?_
      have hlt := (List.getElem?_eq_some_iff.mp hchild).1
      simp only [putUnder_array hi hlt]
      rfl
    · exact hne
  | _ => rfl

/-- Removing a path gives what stands there, and puts nothing in its place. -/
theorem removeAt_eq (hne : p ≠ []) : removeAt p v =
    (v.walk? p).bind fun removed => (put none p v).map fun left => (removed, left) := by
  induction p generalizing v with
  | nil => exact (hne rfl).elim
  | cons segment rest ih =>
    by_cases hrest : rest = []
    · subst hrest
      rw [put_cons, putAt, Option.bind_some]
      cases v with
      | object fields =>
        rw [walk?_object, removeAt]
        cases Entries.get? fields segment <;> rfl
      | array items =>
        rw [walk?_array, removeAt, Option.bind_assoc]
        refine Option.bind_congr fun i hi => Option.bind_congr fun removed hremoved => ?_
        rw [putUnder_array hi (List.getElem?_eq_some_iff.mp hremoved).1]
        rfl
      | _ => rfl
    · have hwalk : v.walk? (segment :: rest) = _ := walk?_cons
      rw [removeAt_cons hrest, hwalk, Option.bind_assoc]
      refine Option.bind_congr fun child hchild => ?_
      rw [ih hrest, Option.bind_assoc]
      refine Option.bind_congr fun removed hremoved => ?_
      have hcontainer : child.isScalar = false := by
        obtain ⟨next, more, rfl⟩ := List.exists_cons_of_ne_nil hrest
        exact isScalar_of_walk? hremoved
      have hput : put none (segment :: rest) v = _ := put_cons
      rw [hput, under_of_walk? hchild hcontainer, putAt_eq_map_put hrest]
      cases put none rest child <;> rfl

end Value

/-! ## Runs of patches -/

/-- What is to stand at the end of some segments: a value, or nothing. -/
structure Patch where
  path : List String
  content : Option Value

namespace Patch

open Value (Fits put)

variable {patches more : List Patch} {p : Patch} {doc next : Value}

/-- The document after a patch, if it can be made. -/
def run (p : Patch) (doc : Value) : Option Value := put p.content p.path doc

/-- The document after several patches, if all of them can be made. -/
def runAll : List Patch → Value → Option Value
  | [], doc => some doc
  | p :: rest, doc => (p.run doc).bind (runAll rest)

/-- Each patch of a run fits the document that it comes to. -/
def AllFit : List Patch → Value → Prop
  | [], _ => True
  | p :: rest, doc => Fits p.path doc ∧ ∀ next, p.run doc = some next → AllFit rest next

/-- Neither place leads to the other one. -/
def Apart (p q : Patch) : Prop := ¬ p.path <+: q.path ∧ ¬ q.path <+: p.path

theorem fits_of_run {q : List String} (hq : Fits q doc) (hp : Fits p.path doc)
    (away : p.path <+: q → p.content = none) (h : p.run doc = some next) : Fits q next :=
  hq.putAt hp away (Value.putAt_of_put h)

theorem run_comm {q : Patch} (hp : Fits p.path doc) (hq : Fits q.path doc) (apart : p.Apart q) :
    (p.run doc).bind q.run = (q.run doc).bind p.run :=
  Value.put_comm hp hq apart.1 apart.2

/-- A run leaves alone what stands at a path apart, and a path that fits still fits. -/
theorem walk?_of_runAll {q : List String} (h : AllFit patches doc) (hq : Fits q doc)
    (apart : ∀ p ∈ patches, ¬ p.path <+: q ∧ ¬ q <+: p.path)
    (hrun : runAll patches doc = some next) : Fits q next ∧ next.walk? q = doc.walk? q := by
  induction patches generalizing doc with
  | nil =>
    cases hrun
    exact ⟨hq, rfl⟩
  | cons p rest ih =>
    obtain ⟨hp, hrest⟩ := h
    obtain ⟨hapart, hothers⟩ := List.forall_mem_cons.mp apart
    obtain ⟨mid, hmid, hrun⟩ := Option.bind_eq_some_iff.mp hrun
    have hfits := fits_of_run hq hp (fun hprefix => (hapart.1 hprefix).elim) hmid
    obtain ⟨hnext, hwalk⟩ := ih (hrest mid hmid) hfits hothers hrun
    exact ⟨hnext, hwalk.trans
      (Value.walk?_of_putAt hp hq hapart.1 hapart.2 (Value.putAt_of_put hmid))⟩

/-- A run still fits after a patch apart from it. -/
theorem AllFit.of_run (h : AllFit patches doc) (hp : Fits p.path doc)
    (apart : ∀ q ∈ patches, p.Apart q) (hnext : p.run doc = some next) : AllFit patches next := by
  induction patches generalizing doc next with
  | nil => trivial
  | cons q rest ih =>
    obtain ⟨hq, hrest⟩ := h
    obtain ⟨hapart, hothers⟩ := List.forall_mem_cons.mp apart
    have hfits := fits_of_run hq hp (fun hprefix => (hapart.1 hprefix).elim) hnext
    refine ⟨hfits, fun after hafter => ?_⟩
    -- The patch can be made behind the first one of the run as well, and comes to the same.
    have hcomm := run_comm hp hq hapart
    rw [hnext, Option.bind_some, hafter] at hcomm
    obtain ⟨mid, hmid, hlast⟩ := Option.bind_eq_some_iff.mp hcomm.symm
    exact ih (hrest mid hmid) (fits_of_run hp hq (fun hprefix => (hapart.2 hprefix).elim) hmid)
      hothers hlast

/-- A patch apart from a run can be made before it or behind it. -/
theorem run_runAll_comm (hp : Fits p.path doc) (h : AllFit patches doc)
    (apart : ∀ q ∈ patches, p.Apart q) :
    (p.run doc).bind (runAll patches) = (runAll patches doc).bind p.run := by
  induction patches generalizing doc with
  | nil => exact Option.bind_fun_some _
  | cons q rest ih =>
    obtain ⟨hq, hrest⟩ := h
    obtain ⟨hapart, hothers⟩ := List.forall_mem_cons.mp apart
    calc (p.run doc).bind (runAll (q :: rest))
        = ((p.run doc).bind q.run).bind (runAll rest) := (Option.bind_assoc _ _ _).symm
      _ = (q.run doc).bind fun mid => (p.run mid).bind (runAll rest) := by
        rw [run_comm hp hq hapart, Option.bind_assoc]
      _ = (q.run doc).bind fun mid => (runAll rest mid).bind p.run :=
        Option.bind_congr fun mid hmid => ih
          (fits_of_run hp hq (fun hprefix => (hapart.2 hprefix).elim) hmid) (hrest mid hmid) hothers
      _ = (runAll (q :: rest) doc).bind p.run := (Option.bind_assoc _ _ _).symm

/-- Runs apart from each other commute. -/
theorem runAll_comm (h : AllFit patches doc) (hmore : AllFit more doc)
    (apart : ∀ p ∈ patches, ∀ q ∈ more, p.Apart q) :
    (runAll patches doc).bind (runAll more) = (runAll more doc).bind (runAll patches) := by
  induction patches generalizing doc with
  | nil => exact (Option.bind_fun_some _).symm
  | cons p rest ih =>
    obtain ⟨hp, hrest⟩ := h
    obtain ⟨hapart, hothers⟩ := List.forall_mem_cons.mp apart
    calc (runAll (p :: rest) doc).bind (runAll more)
        = (p.run doc).bind fun mid => (runAll rest mid).bind (runAll more) :=
          Option.bind_assoc _ _ _
      _ = (p.run doc).bind fun mid => (runAll more mid).bind (runAll rest) :=
        Option.bind_congr fun mid hmid =>
          ih (hrest mid hmid) (hmore.of_run hp hapart hmid) hothers
      _ = ((p.run doc).bind (runAll more)).bind (runAll rest) := (Option.bind_assoc _ _ _).symm
      _ = (runAll more doc).bind (runAll (p :: rest)) := by
        rw [run_runAll_comm hp hmore hapart, Option.bind_assoc]
        rfl

end Patch

end DocSchema

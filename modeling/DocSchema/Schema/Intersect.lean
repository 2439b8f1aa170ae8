-- SUMMARY: Intersections: merging two schema nodes into one that both layers read.
import DocSchema.Schema.Node
import DocSchema.SchemaError

/-!
# Intersections

The parser and the validator read an intersection as one merged node: objects
join their fields, strings and numbers their checks, enumerations keep the
common values, and what is required by one branch is required. `Node.meet`
merges with a bound on the height of the result; the bound is what makes merging
end, since the merge of a nested intersection is merged again.
-/

namespace DocSchema

namespace Node

/-- A node that is no higher than the higher one of two others. -/
abbrev Meet (l r : Node) := { m : Node // m.height ≤ max l.height r.height }

/-- The enumeration of the common values. -/
def meetEnum (vs ws : List String) (location : Location) : Except SchemaError (List String) :=
  match vs.filter fun v => ws.contains v with
  | [] => .error (.invalid location .disjointEnums)
  | common => .ok common

theorem fieldsHeight_append (fs gs : List (String × Node)) :
    fieldsHeight (fs ++ gs) = max (fieldsHeight fs) (fieldsHeight gs) := by
  induction fs with
  | nil => simp [fieldsHeight]
  | cons f fs ih =>
    obtain ⟨name, n⟩ := f
    simp only [List.cons_append, fieldsHeight, ih]
    omega

theorem fieldsHeight_filter_le (p : String × Node → Bool) (fs : List (String × Node)) :
    fieldsHeight (fs.filter p) ≤ fieldsHeight fs := by
  induction fs with
  | nil => simp [fieldsHeight]
  | cons f fs ih =>
    obtain ⟨name, n⟩ := f
    rw [List.filter_cons]
    split <;> simp only [fieldsHeight] <;> omega

theorem height_le_of_lookup {fs : List (String × Node)} {name : String} {n : Node}
    (h : lookup fs name = some n) : n.height ≤ fieldsHeight fs := by
  induction fs with
  | nil => simp [lookup, Entries.get?] at h
  | cons f fs ih =>
    obtain ⟨key, m⟩ := f
    simp only [lookup, Entries.get?] at h ih
    rw [fieldsHeight]
    split at h
    · cases h; omega
    · have := ih h; omega

/-- Descent of the measure below: the first number that changes goes down. -/
theorem lex_descent {a a' b b' c c' : Nat}
    (h : a < a' ∨ a ≤ a' ∧ (b < b' ∨ b ≤ b' ∧ c < c')) :
    Prod.Lex (· < ·) (Prod.Lex (· < ·) (· < ·)) (a, b, c) (a', b', c') := by
  rcases h with h | ⟨ha, h⟩
  · exact .left _ _ h
  · rcases Nat.lt_or_eq_of_le ha with h' | rfl
    · exact .left _ _ h'
    · apply Prod.Lex.right
      rcases h with h | ⟨hb, h⟩
      · exact .left _ _ h
      · rcases Nat.lt_or_eq_of_le hb with h' | rfl
        · exact .left _ _ h'
        · exact .right _ h

mutual
/-- Merges two nodes, with a bound on the height of the result. -/
def meet (l r : Node) (location : Location) : Except SchemaError (Meet l r) :=
  match l, r with
  | .intersection a b, other => do
    let inner ← a.meet b location
    have := inner.property
    let m ← inner.val.meet other location
    .ok ⟨m.val, by have := m.property; have := inner.property; simp only [height]; omega⟩
  | other, .intersection a b => do
    let inner ← a.meet b location
    have := inner.property
    let m ← inner.val.meet other location
    .ok ⟨m.val, by have := m.property; have := inner.property; simp only [height]; omega⟩
  | .any, other => .ok ⟨other, by omega⟩
  | other, .any => .ok ⟨other, by omega⟩
  | .optional a, .optional b => do
    let m ← a.meet b location
    .ok ⟨.optional m.val, by have := m.property; simp only [height]; omega⟩
  | .optional a, other => do
    let m ← a.meet other location
    .ok ⟨m.val, by have := m.property; simp only [height]; omega⟩
  | other, .optional b => do
    let m ← b.meet other location
    .ok ⟨m.val, by have := m.property; simp only [height]; omega⟩
  | .nullable a, .nullable b => do
    let m ← a.meet b location
    .ok ⟨.nullable m.val, by have := m.property; simp only [height]; omega⟩
  | .nullable a, other => do
    let m ← a.meet other location
    .ok ⟨m.val, by have := m.property; simp only [height]; omega⟩
  | other, .nullable b => do
    let m ← b.meet other location
    .ok ⟨m.val, by have := m.property; simp only [height]; omega⟩
  | .object fs c, .object gs d => do
    let shared ← meetFields fs gs location
    let own := gs.filter fun g => (lookup fs g.1).isNone
    let catchall ← meetCatchall c d location.others
    .ok ⟨.object (shared.val ++ own) catchall.val, by
      have := shared.property
      have := catchall.property
      have : fieldsHeight own ≤ fieldsHeight gs := fieldsHeight_filter_le _ _
      simp only [height, fieldsHeight_append]
      omega⟩
  | .string cs e, .string ds f => .ok ⟨.string (cs ++ ds) (e && f), by simp [height]⟩
  | .number cs, .number ds => .ok ⟨.number (cs ++ ds), by simp [height]⟩
  | .enum vs, .enum ws => do
    let common ← meetEnum vs ws location
    .ok ⟨.enum common, by simp [height]⟩
  | .literal v, .literal w =>
    if v == w then .ok ⟨.literal v, by simp [height]⟩
    else .error (.unsupported location (.incompatible "literal" "literal"))
  | .array a, .array b => do
    let m ← a.meet b location.items
    .ok ⟨.array m.val, by have := m.property; simp only [height]; omega⟩
  | .tuple as, .tuple bs =>
    if as.length = bs.length then do
      let ms ← meetItems as bs 0 location
      .ok ⟨.tuple ms.val, by have := ms.property; simp only [height]; omega⟩
    else .error (.unsupported location (.tupleArity as.length bs.length))
  | .record a, .record b => do
    let m ← a.meet b location.others
    .ok ⟨.record m.val, by have := m.property; simp only [height]; omega⟩
  | .boolean, .boolean => .ok ⟨.boolean, by simp [height]⟩
  | .date, .date => .ok ⟨.date, by simp [height]⟩
  | .null, .null => .ok ⟨.null, by simp [height]⟩
  | l, r => .error (.unsupported location (.incompatible l.kindName r.kindName))
termination_by (max l.height r.height, l.height + r.height, 0)
decreasing_by all_goals (apply lex_descent; simp only [height]; omega)

/-- The fields of the first object, each merged with the field of that name in
the second. -/
def meetFields (fs gs : List (String × Node)) (location : Location) :
    Except SchemaError
      { ms : List (String × Node) // fieldsHeight ms ≤ max (fieldsHeight fs) (fieldsHeight gs) } :=
  match fs with
  | [] => .ok ⟨[], by simp [fieldsHeight]⟩
  | (name, n) :: rest =>
    match h : lookup gs name with
    | some other => do
      have := height_le_of_lookup h
      let m ← n.meet other (location.entry name)
      let ms ← meetFields rest gs location
      .ok ⟨(name, m.val) :: ms.val, by
        have := m.property
        have := ms.property
        simp only [fieldsHeight]
        omega⟩
    | none => do
      let ms ← meetFields rest gs location
      .ok ⟨(name, n) :: ms.val, by have := ms.property; simp only [fieldsHeight]; omega⟩
termination_by (max (fieldsHeight fs) (fieldsHeight gs), fieldsHeight fs + fieldsHeight gs,
  fs.length + 1)
decreasing_by all_goals (apply lex_descent; simp only [fieldsHeight, List.length_cons]; omega)

/-- Undeclared entries must be admitted by both objects. -/
def meetCatchall (c d : Option Node) (location : Location) :
    Except SchemaError
      { m : Option Node // catchallHeight m ≤ max (catchallHeight c) (catchallHeight d) } :=
  match c, d with
  | some a, some b => do
    let m ← a.meet b location
    .ok ⟨some m.val, by have := m.property; simp only [catchallHeight]; omega⟩
  | _, _ => .ok ⟨none, by simp [catchallHeight]⟩
termination_by (max (catchallHeight c) (catchallHeight d), catchallHeight c + catchallHeight d, 1)
decreasing_by all_goals (apply lex_descent; simp only [catchallHeight]; omega)

/-- Merges two lists of one length position by position, counted from `i`. -/
def meetItems (as bs : List Node) (i : Nat) (location : Location) :
    Except SchemaError { ms : List Node // listHeight ms ≤ max (listHeight as) (listHeight bs) } :=
  match as, bs with
  | a :: as, b :: bs => do
    let m ← a.meet b (location.item i)
    let ms ← meetItems as bs (i + 1) location
    .ok ⟨m.val :: ms.val, by
      have := m.property
      have := ms.property
      simp only [listHeight]
      omega⟩
  | _, _ => .ok ⟨[], by simp [listHeight]⟩
termination_by (max (listHeight as) (listHeight bs), listHeight as + listHeight bs, as.length + 1)
decreasing_by all_goals (apply lex_descent; simp only [listHeight, List.length_cons]; omega)
end

/-- Merges two nodes into one that stands for both. -/
def intersect (l r : Node) (location : Location) : Except SchemaError Node :=
  (l.meet r location).map Subtype.val

theorem height_le_of_intersect {l r m : Node} {location : Location}
    (h : l.intersect r location = .ok m) : m.height ≤ max l.height r.height := by
  unfold intersect at h
  cases hm : l.meet r location with
  | error e => rw [hm] at h; cases h
  | ok s => rw [hm] at h; cases h; exact s.property

end Node

end DocSchema

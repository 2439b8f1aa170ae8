-- SUMMARY: Laws of named entries: what a look-up finds after each operation.
import DocSchema.Entries

/-!
# Laws of entries

A look-up is the view of a list of entries. Each operation is described by what
a look-up finds afterwards; none of these laws asks for the list to be sorted.
Two sorted lists with the same look-ups are equal.
-/

namespace DocSchema

namespace Entries

variable {α β : Type}

/-! ## Look-ups -/

@[simp] theorem get?_nil (key : String) : get? ([] : Entries α) key = none := rfl

theorem get?_cons (e : String × α) (rest : Entries α) (key : String) :
    get? (e :: rest) key = if e.1 = key then some e.2 else get? rest key := rfl

theorem mem_of_get? {entries : Entries α} {key : String} {v : α} (h : get? entries key = some v) :
    (key, v) ∈ entries := by
  induction entries with
  | nil => cases h
  | cons e rest ih =>
    rw [get?_cons] at h
    split at h
    · next hname => cases h; subst hname; exact List.mem_cons_self
    · exact List.mem_cons_of_mem _ (ih h)

theorem mem_keys_of_mem {entries : Entries α} {e : String × α} (h : e ∈ entries) :
    e.1 ∈ keys entries := List.mem_map_of_mem h

theorem get?_eq_none_iff {entries : Entries α} {key : String} :
    get? entries key = none ↔ key ∉ keys entries := by
  induction entries with
  | nil => simp [keys]
  | cons e rest ih =>
    rw [get?_cons]
    by_cases hname : e.1 = key
    · simp [hname, keys]
    · rw [if_neg hname, ih]
      simp only [keys, List.map_cons, List.mem_cons, not_or]
      exact ⟨fun h => ⟨fun heq => hname heq.symm, h⟩, fun h => h.2⟩

theorem contains_iff {entries : Entries α} {key : String} :
    contains entries key = true ↔ key ∈ keys entries := by
  unfold contains
  cases h : get? entries key with
  | none =>
    have absent := get?_eq_none_iff.mp h
    simp [absent]
  | some v =>
    have member : key ∈ keys entries := List.mem_map.mpr ⟨(key, v), mem_of_get? h, rfl⟩
    simp [member]

theorem contains_eq_false_iff {entries : Entries α} {key : String} :
    contains entries key = false ↔ get? entries key = none := by
  simp [contains]

/-- Under distinct names a look-up finds every entry. -/
theorem get?_of_mem {entries : Entries α} {key : String} {v : α} (distinct : (keys entries).Nodup)
    (h : (key, v) ∈ entries) : get? entries key = some v := by
  induction entries with
  | nil => cases h
  | cons e rest ih =>
    simp only [keys, List.map_cons, List.nodup_cons] at distinct
    rw [get?_cons]
    cases h with
    | head => simp
    | tail _ h =>
      have hname : e.1 ≠ key := by
        rintro rfl
        exact distinct.1 (List.mem_map.mpr ⟨(e.1, v), h, rfl⟩)
      rw [if_neg hname]
      exact ih distinct.2 h

/-- Under distinct names an entry is the only one of its name. -/
theorem eq_of_mem {entries : Entries α} {key : String} {v : α} (distinct : (keys entries).Nodup)
    (h : (key, v) ∈ entries) : ∀ e ∈ entries, e.1 = key → e.2 = v := fun _ he hname =>
  Option.some.inj ((get?_of_mem distinct (hname ▸ he)).symm.trans (get?_of_mem distinct h))

theorem get?_append (xs ys : Entries α) (key : String) :
    get? (xs ++ ys) key = (get? xs key).or (get? ys key) := by
  induction xs with
  | nil => simp
  | cons e rest ih =>
    rw [List.cons_append, get?_cons, get?_cons, ih]
    split <;> simp

theorem get?_map (f : α → β) (entries : Entries α) (key : String) :
    get? (entries.map fun e => (e.1, f e.2)) key = (get? entries key).map f := by
  induction entries with
  | nil => rfl
  | cons e rest ih =>
    rw [List.map_cons, get?_cons, get?_cons, ih]
    split <;> simp

theorem keys_map (f : α → β) (entries : Entries α) :
    keys (entries.map fun e => (e.1, f e.2)) = keys entries := by
  simp [keys, Function.comp_def]

/-! ## Operations -/

theorem get?_insert (entries : Entries α) (key : String) (v : α) (other : String) :
    get? (insert entries key v) other = if key = other then some v else get? entries other := by
  induction entries with
  | nil => simp [insert, get?_cons]
  | cons e rest ih =>
    obtain ⟨name, w⟩ := e
    simp only [insert]
    split
    · next hname => subst hname; simp only [get?_cons]; split <;> rfl
    · next hname =>
      split
      · simp only [get?_cons]
      · simp only [get?_cons, ih]
        by_cases hother : name = other
        · subst hother; simp [Ne.symm hname]
        · simp [hother]

@[simp] theorem get?_insert_self (entries : Entries α) (key : String) (v : α) :
    get? (insert entries key v) key = some v := by
  simp [get?_insert]

theorem get?_insert_of_ne {key other : String} (h : key ≠ other) (entries : Entries α) (v : α) :
    get? (insert entries key v) other = get? entries other := by
  simp [get?_insert, h]

theorem get?_filter (p : String → Bool) (entries : Entries α) (key : String) :
    get? (entries.filter fun e => p e.1) key = if p key then get? entries key else none := by
  induction entries with
  | nil => simp
  | cons e rest ih =>
    rw [List.filter_cons]
    by_cases hname : e.1 = key
    · subst hname
      by_cases hp : p e.1 <;> simp [hp, ih, get?_cons]
    · by_cases hp : p e.1 <;> simp [hp, ih, get?_cons, hname]

theorem get?_erase (entries : Entries α) (key other : String) :
    get? (erase entries key) other = if key = other then none else get? entries other := by
  have := get?_filter (fun name => decide (name ≠ key)) entries other
  unfold erase
  rw [this]
  by_cases h : key = other
  · simp [h]
  · simp [h, Ne.symm h]

/-- Names of an insertion are the old ones and the new one. -/
theorem mem_keys_insert {entries : Entries α} {key : String} {v : α} {name : String} :
    name ∈ keys (insert entries key v) ↔ name = key ∨ name ∈ keys entries := by
  rw [← contains_iff, ← contains_iff]
  simp only [contains, get?_insert]
  by_cases h : key = name
  · simp [h]
  · simp [h, Ne.symm h]

@[simp] theorem insert_insert (entries : Entries α) (key : String) (v w : α) :
    insert (insert entries key v) key w = insert entries key w := by
  induction entries with
  | nil => simp [insert]
  | cons e rest ih =>
    obtain ⟨name, u⟩ := e
    by_cases hname : name = key
    · simp [insert, hname]
    · by_cases hlt : key < name
      · simp [insert, hname, hlt]
      · simp [insert, hname, hlt, ih]

theorem mem_insert {entries : Entries α} {key : String} {v : α} {e : String × α}
    (h : e ∈ insert entries key v) : e = (key, v) ∨ e ∈ entries := by
  induction entries with
  | nil => simpa [insert] using h
  | cons e' rest ih =>
    obtain ⟨name, w⟩ := e'
    simp only [insert] at h
    split at h
    · rcases List.mem_cons.mp h with rfl | h
      · exact .inl rfl
      · exact .inr (List.mem_cons_of_mem _ h)
    · split at h
      · exact List.mem_cons.mp h
      · rcases List.mem_cons.mp h with rfl | h
        · exact .inr List.mem_cons_self
        · exact (ih h).imp_right (List.mem_cons_of_mem _)

theorem mem_insert_of_ne {entries : Entries α} {key : String} {v : α} {e : String × α}
    (he : e ∈ entries) (hne : e.1 ≠ key) : e ∈ insert entries key v := by
  induction entries with
  | nil => cases he
  | cons e' rest ih =>
    obtain ⟨name, w⟩ := e'
    simp only [insert]
    split
    · next hname =>
      rcases List.mem_cons.mp he with rfl | he
      · exact (hne hname).elim
      · exact List.mem_cons_of_mem _ he
    · split
      · exact List.mem_cons_of_mem _ he
      · rcases List.mem_cons.mp he with rfl | he
        · exact List.mem_cons_self
        · exact List.mem_cons_of_mem _ (ih he)

/-! ## Building from a list -/

/-- Puts the entries of a list in one after the other. -/
def insertAll (done : Entries α) (entries : List (String × α)) : Entries α :=
  entries.foldl (fun done e => insert done e.1 e.2) done

/-- Of two entries with one name the later one is found. -/
theorem get?_insertAll (done : Entries α) (entries : List (String × α)) (key : String) :
    get? (insertAll done entries) key = (get? entries.reverse key).or (get? done key) := by
  induction entries generalizing done with
  | nil => rfl
  | cons e rest ih =>
    have step : insertAll done (e :: rest) = insertAll (insert done e.1 e.2) rest := rfl
    rw [step, ih, List.reverse_cons, get?_append, get?_insert, get?_cons, get?_nil]
    cases get? rest.reverse key with
    | some v => rfl
    | none => split <;> simp

theorem get?_reverse_of_nodup {entries : Entries α} (distinct : (keys entries).Nodup)
    (key : String) : get? entries.reverse key = get? entries key := by
  cases h : get? entries key with
  | none =>
    rw [get?_eq_none_iff] at h ⊢
    simpa [keys] using h
  | some v =>
    refine get?_of_mem ?_ (List.mem_reverse.mpr (mem_of_get? h))
    unfold keys List.Nodup at distinct ⊢
    rw [List.map_reverse, List.pairwise_reverse]
    exact distinct.imp Ne.symm

/-- Under distinct names the entries take precedence over those that were there. -/
theorem get?_insertAll_of_nodup (done : Entries α) {entries : List (String × α)}
    (distinct : (keys entries).Nodup) (key : String) :
    get? (insertAll done entries) key = (get? entries key).or (get? done key) := by
  rw [get?_insertAll, get?_reverse_of_nodup distinct]

theorem get?_ofList (entries : List (String × α)) (key : String) :
    get? (ofList entries) key = get? entries.reverse key := by
  have := get?_insertAll ([] : Entries α) entries key
  simpa [insertAll, ofList] using this

theorem mem_insertAll {done : Entries α} {entries : List (String × α)} {e : String × α}
    (h : e ∈ insertAll done entries) : e ∈ done ∨ e ∈ entries := by
  induction entries generalizing done with
  | nil => exact .inl h
  | cons e' rest ih =>
    have h' : e ∈ insertAll (insert done e'.1 e'.2) rest := h
    rcases ih h' with h | h
    · rcases mem_insert h with rfl | h
      · exact .inr List.mem_cons_self
      · exact .inl h
    · exact .inr (List.mem_cons_of_mem _ h)

theorem mem_keys_insertAll {done : Entries α} {entries : List (String × α)} {key : String} :
    key ∈ keys (insertAll done entries) ↔ key ∈ keys done ∨ key ∈ keys entries := by
  rw [← contains_iff, contains, get?_insertAll, Option.isSome_or, Bool.or_eq_true, ← contains,
    ← contains, contains_iff, contains_iff, or_comm]
  simp [keys]

theorem mem_of_mem_ofList {entries : List (String × α)} {e : String × α}
    (h : e ∈ ofList entries) : e ∈ entries := by
  have h' : e ∈ insertAll [] entries := h
  exact (mem_insertAll h').resolve_left (by simp)

theorem mem_keys_ofList {entries : List (String × α)} {key : String} :
    key ∈ keys (ofList entries) ↔ key ∈ entries.map Prod.fst := by
  rw [← contains_iff, contains, get?_ofList, ← contains, contains_iff]
  simp [keys]

/-- Where all entries of a name agree, a list without the name finds nothing, any
other that value. -/
theorem get?_ofList_of_forall {entries : List (String × α)} {key : String} {r : Option α}
    (agree : ∀ v, (key, v) ∈ entries → r = some v)
    (missing : key ∉ entries.map Prod.fst → r = none) : get? (ofList entries) key = r := by
  rw [get?_ofList]
  cases h : get? entries.reverse key with
  | none =>
    refine (missing fun hmem => ?_).symm
    rw [get?_eq_none_iff] at h
    exact h (by simpa [keys] using hmem)
  | some v => exact (agree v (List.mem_reverse.mp (mem_of_get? h))).symm

/-- Under distinct names every entry of the list is found. -/
theorem get?_ofList_of_nodup {entries : List (String × α)} (distinct : (keys entries).Nodup)
    (key : String) : get? (ofList entries) key = get? entries key := by
  rw [get?_ofList, get?_reverse_of_nodup distinct]

/-! ## Order -/

theorem sorted_iff {entries : Entries α} :
    Sorted entries ↔ (keys entries).Pairwise fun a b => a < b := by
  unfold Sorted keys
  rw [List.pairwise_map]

theorem Sorted.distinct {entries : Entries α} (h : Sorted entries) : (keys entries).Nodup := by
  refine (sorted_iff.mp h).imp ?_
  intro a b hlt heq
  rw [heq] at hlt
  exact String.lt_irrefl _ hlt

theorem sorted_insert {entries : Entries α} (h : Sorted entries) (key : String) (v : α) :
    Sorted (insert entries key v) := by
  induction entries with
  | nil => exact List.pairwise_singleton _ _
  | cons e rest ih =>
    obtain ⟨name, w⟩ := e
    have hrest := List.pairwise_cons.mp h
    simp only [insert]
    split
    · next hname => subst hname; exact List.pairwise_cons.mpr hrest
    · next hname =>
      split
      · next hlt =>
        refine List.pairwise_cons.mpr ⟨fun e he => ?_, h⟩
        rcases List.mem_cons.mp he with rfl | he
        · exact hlt
        · exact String.lt_trans hlt (hrest.1 e he)
      · next hlt =>
        refine List.pairwise_cons.mpr ⟨fun e he => ?_, ih hrest.2⟩
        rcases mem_insert he with rfl | he
        · exact Std.lt_of_le_of_ne (String.not_lt.mp hlt) hname
        · exact hrest.1 e he

theorem sorted_insertAll {done : Entries α} (h : Sorted done) (entries : List (String × α)) :
    Sorted (insertAll done entries) := by
  induction entries generalizing done with
  | nil => exact h
  | cons e rest ih => exact ih (sorted_insert h e.1 e.2)

theorem sorted_ofList (entries : List (String × α)) : Sorted (ofList entries) :=
  sorted_insertAll List.Pairwise.nil entries

/-- Sorted entries are determined by what look-ups find in them. -/
theorem Sorted.ext {xs ys : Entries α} (hxs : Sorted xs) (hys : Sorted ys)
    (h : ∀ key, get? xs key = get? ys key) : xs = ys := by
  induction xs generalizing ys with
  | nil =>
    cases ys with
    | nil => rfl
    | cons y ys => simpa [get?_cons] using h y.1
  | cons x xs ih =>
    have hx := List.pairwise_cons.mp hxs
    cases ys with
    | nil => simpa [get?_cons] using h x.1
    | cons y ys =>
      have hy := List.pairwise_cons.mp hys
      -- Each head is found in the other list, so neither name is below the other.
      have hxy : x ∈ y :: ys := mem_of_get? (by rw [← h]; simp [get?_cons])
      have hyx : y ∈ x :: xs := mem_of_get? (by rw [h]; simp [get?_cons])
      have heq : x = y := by
        rcases List.mem_cons.mp hxy with heq | hmem
        · exact heq
        · rcases List.mem_cons.mp hyx with heq | hmem'
          · exact heq.symm
          · exact absurd (hx.1 y hmem') (String.lt_asymm (hy.1 x hmem))
      subst heq
      congr 1
      refine ih hx.2 hy.2 fun key => ?_
      by_cases hkey : x.1 = key
      · have absent {zs : Entries α} (hz : ∀ z ∈ zs, x.1 < z.1) : get? zs key = none := by
          rw [get?_eq_none_iff]
          intro hmem
          obtain ⟨z, hz', rfl⟩ := List.mem_map.mp hmem
          exact String.lt_irrefl _ (hkey ▸ hz z hz')
        rw [absent hx.1, absent hy.1]
      · simpa [get?_cons, hkey] using h key

/-- Putting in what is there already changes nothing. -/
theorem insert_of_get? {entries : Entries α} (sorted : Sorted entries) {key : String} {v : α}
    (h : get? entries key = some v) : insert entries key v = entries := by
  refine Sorted.ext (sorted_insert sorted key v) sorted fun other => ?_
  rw [get?_insert]
  split
  · next hother => exact (hother ▸ h).symm
  · rfl

/-- Putting something else under a name that is there leaves the names as they are. -/
theorem keys_insert_of_mem {entries : Entries α} (sorted : Sorted entries) {key : String}
    (h : key ∈ keys entries) (v : α) : keys (insert entries key v) = keys entries := by
  induction entries with
  | nil => cases h
  | cons e rest ih =>
    obtain ⟨name, w⟩ := e
    obtain ⟨hlt, hrest⟩ := List.pairwise_cons.mp sorted
    simp only [insert]
    split
    · next hname => simp [keys, hname]
    · next hname =>
      have hlater : key ∈ keys rest := (List.mem_cons.mp h).resolve_left fun heq => hname heq.symm
      obtain ⟨e, he, rfl⟩ := List.mem_map.mp hlater
      rw [if_neg (String.lt_asymm (hlt e he))]
      exact congrArg (name :: ·) (ih hrest hlater)

theorem erase_of_not_mem {entries : Entries α} {key : String} (h : key ∉ keys entries) :
    erase entries key = entries := by
  refine List.filter_eq_self.mpr fun e he => decide_eq_true fun hname => ?_
  exact h (hname ▸ mem_keys_of_mem he)

/-- An insertion has the new entry and those of other names. -/
theorem perm_insert {entries : Entries α} (sorted : Sorted entries) (key : String) (v : α) :
    (insert entries key v).Perm ((key, v) :: erase entries key) := by
  induction entries with
  | nil => exact .refl _
  | cons e rest ih =>
    obtain ⟨name, w⟩ := e
    obtain ⟨hlt, hrest⟩ := List.pairwise_cons.mp sorted
    simp only [insert]
    split
    · next hname =>
      subst hname
      have habsent : name ∉ keys rest := (List.nodup_cons.mp sorted.distinct).1
      rw [erase, List.filter_cons_of_neg (by simp)]
      exact .of_eq (congrArg _ (erase_of_not_mem habsent).symm)
    · next hname =>
      split
      · next hless =>
        have habsent : key ∉ keys ((name, w) :: rest) := by
          intro hmem
          obtain ⟨e, he, rfl⟩ := List.mem_map.mp hmem
          rcases List.mem_cons.mp he with rfl | he
          · exact hname rfl
          · exact String.lt_asymm hless (hlt e he)
        rw [erase_of_not_mem habsent]
      · rw [erase, List.filter_cons_of_pos (by simpa using hname)]
        exact ((ih hrest).cons _).trans (.swap _ _ _)

theorem perm_of_get? {entries : Entries α} (sorted : Sorted entries) {key : String} {v : α}
    (h : get? entries key = some v) : entries.Perm ((key, v) :: erase entries key) :=
  (List.Perm.of_eq (insert_of_get? sorted h).symm).trans (perm_insert sorted key v)

end Entries

end DocSchema

-- SUMMARY: Lists related member by member: values kept under names, and plain lists.
import DocSchema.Proofs.Entries
import DocSchema.Value.Basic
import Mathlib.Data.List.Forall2

/-!
# Collected entries

Parsing goes through a list of entries and keeps, under the name of each entry,
the value that comes out, or leaves it out if none does. `Collects` is that walk
for any relation between an entry and its value or absence.
-/

namespace DocSchema

/-- Each entry is related to a value or to absence; the values are kept under the
names of their entries. -/
inductive Collects {α : Type} (R : String × α → Option Value → Prop) :
    List (String × α) → Entries Value → Prop where
  | nil : Collects R [] []
  | keep {e : String × α} {v : Value} {rest : List (String × α)} {out : Entries Value} :
    R e (some v) → Collects R rest out → Collects R (e :: rest) ((e.1, v) :: out)
  | drop {e : String × α} {rest : List (String × α)} {out : Entries Value} :
    R e none → Collects R rest out → Collects R (e :: rest) out

namespace Collects

variable {α : Type} {R S : String × α → Option Value → Prop} {entries : List (String × α)}
  {out : Entries Value}

theorem nil_iff : Collects R [] out ↔ [] = out := by
  constructor
  · intro h; cases h; rfl
  · rintro rfl; exact .nil

theorem cons_iff {e : String × α} {rest : List (String × α)} :
    Collects R (e :: rest) out ↔ ∃ r, R e r ∧ ∃ others, Collects R rest others ∧
      (match r with
        | some v => (e.1, v) :: others
        | none => others) = out := by
  constructor
  · intro h
    cases h with
    | keep hr h => exact ⟨_, hr, _, h, rfl⟩
    | drop hr h => exact ⟨_, hr, _, h, rfl⟩
  · rintro ⟨r, hr, others, h, rfl⟩
    cases r with
    | none => exact .drop hr h
    | some v => exact .keep hr h

theorem source (h : Collects R entries out) {name : String} {v : Value} (hv : (name, v) ∈ out) :
    ∃ e ∈ entries, e.1 = name ∧ R e (some v) := by
  induction h with
  | nil => cases hv
  | @keep e w rest out hr _ ih =>
    rcases List.mem_cons.mp hv with heq | hv
    · cases heq
      exact ⟨e, List.mem_cons_self, rfl, hr⟩
    · obtain ⟨e', he', hname, hr'⟩ := ih hv
      exact ⟨e', List.mem_cons_of_mem _ he', hname, hr'⟩
  | drop _ _ ih =>
    obtain ⟨e', he', hname, hr'⟩ := ih hv
    exact ⟨e', List.mem_cons_of_mem _ he', hname, hr'⟩

theorem target (h : Collects R entries out) {e : String × α} (he : e ∈ entries) :
    R e none ∨ ∃ v, R e (some v) ∧ (e.1, v) ∈ out := by
  induction h with
  | nil => cases he
  | @keep e' w rest out hr _ ih =>
    rcases List.mem_cons.mp he with rfl | he
    · exact .inr ⟨w, hr, List.mem_cons_self⟩
    · exact (ih he).imp_right fun ⟨v, hv, hmem⟩ => ⟨v, hv, List.mem_cons_of_mem _ hmem⟩
  | drop hr _ ih =>
    rcases List.mem_cons.mp he with rfl | he
    · exact .inl hr
    · exact ih he

theorem sublist_keys (h : Collects R entries out) :
    (Entries.keys out).Sublist (entries.map Prod.fst) := by
  induction h with
  | nil => exact List.Sublist.slnil
  | keep _ _ ih => exact ih.cons_cons _
  | drop _ _ ih => exact ih.cons _

theorem nodup_keys (h : Collects R entries out) (distinct : (Entries.keys entries).Nodup) :
    (Entries.keys out).Nodup :=
  distinct.sublist h.sublist_keys

theorem sorted {entries : Entries α} {R : String × α → Option Value → Prop}
    (h : Collects R entries out) (ordered : Entries.Sorted entries) : Entries.Sorted out :=
  Entries.sorted_iff.mpr ((Entries.sorted_iff.mp ordered).sublist h.sublist_keys)

/-- Under distinct names a look-up finds what an entry was related to. -/
theorem get?_of_mem (h : Collects R entries out) (distinct : (Entries.keys entries).Nodup)
    {e : String × α} (he : e ∈ entries) : R e (Entries.get? out e.1) := by
  induction h with
  | nil => cases he
  | @keep e' w rest out hr _ ih =>
    obtain ⟨hnew, hdistinct⟩ := List.nodup_cons.mp distinct
    rw [Entries.get?_cons]
    rcases List.mem_cons.mp he with rfl | he
    · rw [if_pos rfl]
      exact hr
    · have hne : e'.1 ≠ e.1 := fun heq => hnew (heq ▸ List.mem_map.mpr ⟨e, he, rfl⟩)
      rw [if_neg hne]
      exact ih hdistinct he
  | @drop e' rest out hr hrest ih =>
    obtain ⟨hnew, hdistinct⟩ := List.nodup_cons.mp distinct
    rcases List.mem_cons.mp he with rfl | he
    · have hnone : Entries.get? out e.1 = none :=
        Entries.get?_eq_none_iff.mpr fun hmem => hnew (hrest.sublist_keys.subset hmem)
      rw [hnone]
      exact hr
    · exact ih hdistinct he

theorem get?_eq_none (h : Collects R entries out) {name : String}
    (hname : name ∉ Entries.keys entries) : Entries.get? out name = none :=
  Entries.get?_eq_none_iff.mpr fun hmem => hname (h.sublist_keys.subset hmem)

theorem imp (h : Collects R entries out) (himp : ∀ e ∈ entries, ∀ r, R e r → S e r) :
    Collects S entries out := by
  induction h with
  | nil => exact .nil
  | keep hr _ ih =>
    exact .keep (himp _ List.mem_cons_self _ hr)
      (ih fun e he => himp e (List.mem_cons_of_mem _ he))
  | drop hr _ ih =>
    exact .drop (himp _ List.mem_cons_self _ hr)
      (ih fun e he => himp e (List.mem_cons_of_mem _ he))

theorem exists_iff : (∃ out, Collects R entries out) ↔ ∀ e ∈ entries, ∃ r, R e r := by
  constructor
  · rintro ⟨out, h⟩ e he
    rcases h.target he with hr | ⟨v, hr, -⟩
    · exact ⟨_, hr⟩
    · exact ⟨_, hr⟩
  · intro h
    induction entries with
    | nil => exact ⟨[], .nil⟩
    | cons e rest ih =>
      obtain ⟨out, hout⟩ := ih fun e he => h e (List.mem_cons_of_mem _ he)
      obtain ⟨r, hr⟩ := h e List.mem_cons_self
      cases r with
      | none => exact ⟨out, .drop hr hout⟩
      | some v => exact ⟨(e.1, v) :: out, .keep hr hout⟩

theorem map_iff {β : Type} (f : α → β) {T : String × β → Option Value → Prop} :
    Collects T (entries.map fun e => (e.1, f e.2)) out ↔
      Collects (fun e r => T (e.1, f e.2) r) entries out := by
  induction entries generalizing out with
  | nil => constructor <;> (intro h; cases h; exact .nil)
  | cons e rest ih =>
    constructor
    · intro h
      cases h with
      | keep hr h => exact .keep (e := e) hr (ih.mp h)
      | drop hr h => exact .drop hr (ih.mp h)
    · intro h
      cases h with
      | keep hr h => exact .keep (e := (e.1, f e.2)) hr (ih.mpr h)
      | drop hr h => exact .drop hr (ih.mpr h)

end Collects

/-- A list is related to some other one if all its members are. -/
theorem exists_forall₂_iff {α β : Type} {R : α → β → Prop} {xs : List α} :
    (∃ ys, List.Forall₂ R xs ys) ↔ ∀ x ∈ xs, ∃ y, R x y := by
  constructor
  · rintro ⟨ys, h⟩
    induction h with
    | nil => intro x hx; cases hx
    | cons hr _ ih => exact List.forall_mem_cons.mpr ⟨⟨_, hr⟩, ih⟩
  · intro h
    induction xs with
    | nil => exact ⟨[], .nil⟩
    | cons x xs ih =>
      obtain ⟨ys, hys⟩ := ih fun x hx => h x (List.mem_cons_of_mem _ hx)
      obtain ⟨y, hy⟩ := h x List.mem_cons_self
      exact ⟨y :: ys, .cons hy hys⟩

/-- A member of the first list has a related member at its place in the second. -/
theorem forall₂_split {α β : Type} {R : α → β → Prop} {before after : List α} {x : α}
    {ys : List β} (h : List.Forall₂ R (before ++ x :: after) ys) :
    ∃ before' y after', ys = before' ++ y :: after' ∧ List.Forall₂ R before before' ∧ R x y ∧
      List.Forall₂ R after after' := by
  induction before generalizing ys with
  | nil =>
    obtain ⟨y, after', hr, hrest, rfl⟩ := List.forall₂_cons_left_iff.mp h
    exact ⟨[], y, after', rfl, .nil, hr, hrest⟩
  | cons b before ih =>
    obtain ⟨b', ys', hb, hrest, rfl⟩ := List.forall₂_cons_left_iff.mp h
    obtain ⟨before', y, after', rfl, hbefore, hr, hafter⟩ := ih hrest
    exact ⟨b' :: before', y, after', rfl, .cons hb hbefore, hr, hafter⟩

theorem forall₂_split_right {α β : Type} {R : α → β → Prop} {before after : List β} {y : β}
    {xs : List α} (h : List.Forall₂ R xs (before ++ y :: after)) :
    ∃ before' x after', xs = before' ++ x :: after' ∧ List.Forall₂ R before' before ∧ R x y ∧
      List.Forall₂ R after' after := by
  obtain ⟨before', x, after', rfl, hbefore, hr, hafter⟩ := forall₂_split h.flip
  exact ⟨before', x, after', rfl, hbefore.flip, hr, hafter.flip⟩

theorem exists_of_mem_right {α β : Type} {R : α → β → Prop} {xs : List α} {ys : List β}
    (h : List.Forall₂ R xs ys) {y : β} (hy : y ∈ ys) : ∃ x ∈ xs, R x y := by
  obtain ⟨before, after, rfl⟩ := List.append_of_mem hy
  obtain ⟨before', x, after', rfl, -, hr, -⟩ := forall₂_split_right h
  exact ⟨x, by simp, hr⟩

theorem exists_of_mem_left {α β : Type} {R : α → β → Prop} {xs : List α} {ys : List β}
    (h : List.Forall₂ R xs ys) {x : α} (hx : x ∈ xs) : ∃ y ∈ ys, R x y := by
  obtain ⟨before, after, rfl⟩ := List.append_of_mem hx
  obtain ⟨before', y, after', rfl, -, hr, -⟩ := forall₂_split h
  exact ⟨y, by simp, hr⟩

theorem forall₂_imp_of_mem {α β : Type} {R S : α → β → Prop} {xs : List α} {ys : List β}
    (h : List.Forall₂ R xs ys) (himp : ∀ x ∈ xs, ∀ y, R x y → S x y) : List.Forall₂ S xs ys := by
  induction h with
  | nil => exact .nil
  | cons hr _ ih =>
    exact .cons (himp _ List.mem_cons_self _ hr)
      (ih fun x hx => himp x (List.mem_cons_of_mem _ hx))

/-- At its place in the second list a member has a related one in the first. -/
theorem exists_mem_zip {α β γ : Type} {R : α → β → Prop} {xs : List α} {ys : List β}
    {zs : List γ} (h : List.Forall₂ R xs ys) {e : β × γ} (he : e ∈ ys.zip zs) :
    ∃ x, R x e.1 ∧ (x, e.2) ∈ xs.zip zs := by
  induction h generalizing zs with
  | nil => simp at he
  | @cons x y xs ys hr _ ih =>
    cases zs with
    | nil => simp at he
    | cons z zs =>
      rcases List.mem_cons.mp he with rfl | he
      · exact ⟨x, hr, List.mem_cons_self⟩
      · obtain ⟨x', hr', hmem⟩ := ih he
        exact ⟨x', hr', List.mem_cons_of_mem _ hmem⟩

/-- Where pairs are related to a third list, the place of a first and a third has a second. -/
theorem exists_mem_zip_of_pairs {α β γ : Type} {R : α × β → γ → Prop} {xs : List α} {ys : List β}
    {zs : List γ} (h : List.Forall₂ R (xs.zip ys) zs) {e : α × γ} (he : e ∈ xs.zip zs) :
    ∃ y, (e.1, y) ∈ xs.zip ys ∧ R (e.1, y) e.2 := by
  induction xs generalizing ys zs with
  | nil => simp at he
  | cons x xs ih =>
    cases ys with
    | nil =>
      cases h
      simp at he
    | cons y ys =>
      obtain ⟨z, zs', hr, hrest, rfl⟩ := List.forall₂_cons_left_iff.mp h
      rcases List.mem_cons.mp he with rfl | he
      · exact ⟨y, List.mem_cons_self, hr⟩
      · obtain ⟨y', hmem, hr'⟩ := ih hrest he
        exact ⟨y', List.mem_cons_of_mem _ hmem, hr'⟩

end DocSchema

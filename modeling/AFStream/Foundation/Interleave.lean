/-
# Interleavings of lists and orders of arrival

An interleaving of a family of lists takes the heads of the lists one by one until
all of them are used up, so it keeps the order within each list and has every
element exactly once. When every element names the list it comes from, it is enough
to look at the sublist of each name.

Where nothing is known about the order in which elements arrive, a property that is only
looked at when certain elements arrive, and that more elements can only make true, is seen
in all orders exactly when those elements alone make it true.
-/

import Mathlib.Tactic

namespace AFStream.Foundation

universe u v

/-- The list takes the heads of the family one by one until nothing is left. -/
inductive Interleaves {ι : Type u} [DecidableEq ι] {α : Type v} :
    (ι → List α) → List α → Prop
  | nil {lists : ι → List α} (hempty : ∀ i, lists i = []) : Interleaves lists []
  | cons {lists : ι → List α} {i : ι} {x : α} {rest merged : List α}
      (hhead : lists i = x :: rest)
      (htail : Interleaves (Function.update lists i rest) merged) :
      Interleaves lists (x :: merged)

variable {α : Type v} {n : ℕ} {source : α → ℕ}

/-- A list whose elements name their sources interleaves its sublists by source. -/
theorem interleaves_of_filter {lists : Fin n → List α} {merged : List α}
    (hsource : ∀ x ∈ merged, source x < n)
    (hfilter : ∀ i : Fin n, merged.filter (fun x => source x = i) = lists i) :
    Interleaves lists merged := by
  induction merged generalizing lists with
  | nil => exact .nil fun i => (hfilter i).symm
  | cons x merged ih =>
      have hx : source x < n := hsource x (List.mem_cons_self ..)
      have hhead : lists ⟨source x, hx⟩ = x :: merged.filter (fun y => source y = source x) := by
        rw [← hfilter ⟨source x, hx⟩]
        simp
      apply Interleaves.cons hhead
      apply ih
      · intro y hy
        exact hsource y (List.mem_cons_of_mem _ hy)
      · intro i
        by_cases hi : i = ⟨source x, hx⟩
        · subst hi
          simp
        · have hne : source x ≠ i := fun h => hi (Fin.ext h.symm)
          rw [Function.update_of_ne hi, ← hfilter i]
          simp [hne]

/-! ## Orders of arrival -/

/-- A property holds of what has arrived up to some selected element. -/
def SeenAt (selected : α → Bool) (P : List α → Prop) (arrivals : List α) : Prop :=
  ∃ before x after, arrivals = before ++ x :: after ∧ selected x = true ∧ P (before ++ [x])

theorem not_seenAt_nil (selected : α → Bool) (P : List α → Prop) : ¬ SeenAt selected P [] := by
  rintro ⟨before, x, after, hnil, -, -⟩
  exact List.append_ne_nil_of_right_ne_nil before (List.cons_ne_nil x after) hnil.symm

/-- One more arrival. -/
theorem seenAt_concat {selected : α → Bool} {P : List α → Prop} {arrivals : List α} {x : α} :
    SeenAt selected P (arrivals ++ [x]) ↔
      SeenAt selected P arrivals ∨ selected x = true ∧ P (arrivals ++ [x]) := by
  constructor
  · rintro ⟨before, y, after, heq, hy, hP⟩
    rcases List.eq_nil_or_concat after with rfl | ⟨after', z, rfl⟩
    · obtain ⟨rfl, hxy⟩ := List.append_inj' heq rfl
      obtain rfl := List.singleton_inj.mp hxy
      exact .inr ⟨hy, hP⟩
    · rw [List.concat_eq_append, ← List.cons_append, ← List.append_assoc] at heq
      obtain ⟨rfl, -⟩ := List.append_inj' heq rfl
      exact .inl ⟨before, y, after', rfl, hy, hP⟩
  · rintro (⟨before, y, after, rfl, hy, hP⟩ | ⟨hx, hP⟩)
    · exact ⟨before, y, after ++ [x], by rw [List.append_assoc, List.cons_append], hy, hP⟩
    · exact ⟨arrivals, x, [], rfl, hx, hP⟩

/-- The last selected element. -/
theorem exists_last_selected {selected : α → Bool} {arrivals : List α}
    (hselected : ∃ x ∈ arrivals, selected x = true) :
    ∃ before x after, arrivals = before ++ x :: after ∧ selected x = true ∧
      after.filter selected = [] := by
  induction arrivals with
  | nil =>
      obtain ⟨x, hx, -⟩ := hselected
      exact absurd hx List.not_mem_nil
  | cons y rest ih =>
      by_cases hrest : ∃ x ∈ rest, selected x = true
      · obtain ⟨before, x, after, rfl, hx, hafter⟩ := ih hrest
        exact ⟨y :: before, x, after, rfl, hx, hafter⟩
      · have hnone : rest.filter selected = [] := by
          rw [List.filter_eq_nil_iff]
          exact fun x hx hsel => hrest ⟨x, hx, hsel⟩
        obtain ⟨x, hx, hsel⟩ := hselected
        rcases List.mem_cons.mp hx with rfl | htail
        · exact ⟨[], x, rest, rfl, hsel, hnone⟩
        · exact absurd ⟨x, htail, hsel⟩ hrest

/-- What is seen in all orders of arrival. -/
theorem forall_perm_seenAt_iff {selected : α → Bool} {P : List α → Prop} {elements : List α}
    (hmono : ∀ {first second : List α}, first.Subperm second → second.Subperm elements →
      P first → P second)
    (hselected : ∃ x ∈ elements, selected x = true) :
    (∀ arrivals : List α, arrivals.Perm elements → SeenAt selected P arrivals) ↔
      P (elements.filter selected) := by
  constructor
  · intro hall
    -- the order in which the selected elements arrive first
    obtain ⟨before, x, after, heq, hx, hP⟩ :=
      hall _ (List.filter_append_perm selected elements)
    have hnot : x ∉ elements.filter fun y => !selected y := by
      intro hmem
      have hunselected := (List.mem_filter.mp hmem).2
      rw [hx] at hunselected
      cases hunselected
    refine hmono ?_ List.filter_sublist.subperm hP
    rcases List.append_eq_append_iff.mp heq with ⟨rest, -, hafter⟩ | ⟨rest, hfilter, hafter⟩
    · refine absurd ?_ hnot
      rw [hafter]
      exact List.mem_append_right rest List.mem_cons_self
    · cases rest with
      | nil =>
          refine absurd ?_ hnot
          rw [List.nil_append] at hafter
          exact hafter ▸ List.mem_cons_self
      | cons y rest =>
          obtain ⟨rfl, -⟩ := List.cons_eq_cons.mp hafter
          rw [hfilter, List.append_cons before x rest]
          exact (List.sublist_append_left _ _).subperm
  · intro hP arrivals harrivals
    obtain ⟨x, hx, hsel⟩ := hselected
    obtain ⟨before, y, after, rfl, hy, hafter⟩ :=
      exists_last_selected ⟨x, harrivals.mem_iff.mpr hx, hsel⟩
    have hfilter : ((before ++ [y]).filter selected).Perm (elements.filter selected) := by
      have hall := harrivals.filter selected
      rwa [List.append_cons, List.filter_append, hafter, List.append_nil] at hall
    refine ⟨before, y, after, rfl, hy, hmono ?_ ?_ hP⟩
    · exact hfilter.symm.subperm.trans List.filter_sublist.subperm
    · rw [List.append_cons] at harrivals
      exact (List.sublist_append_left _ _).subperm.trans harrivals.subperm

end AFStream.Foundation

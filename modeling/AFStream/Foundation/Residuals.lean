/-
# Residuals that are settled one at a time

A family of nonnegative residuals below a bound has a total, and a set of indices that
are outstanding. One residual may be changed, or the largest one settled. The lemmas say
what both do to the total and to the outstanding indices, and that settling the largest
residual makes up for whatever one change added.
-/

import Mathlib.Tactic

namespace AFStream.Foundation

universe u

variable {α : Type u} [AddCommGroup α] [LinearOrder α]

/-- The sum of the residuals below a bound. -/
def residualTotal (bound : ℕ) (residual : ℕ → α) : α :=
  ∑ i ∈ Finset.range bound, residual i

/-- The indices below a bound whose residual is not zero. -/
def outstanding (bound : ℕ) (residual : ℕ → α) : Finset ℕ :=
  (Finset.range bound).filter fun i => residual i ≠ 0

/-- No residual below the bound is larger than the one at an index. -/
def IsLargest (bound : ℕ) (residual : ℕ → α) (index : ℕ) : Prop :=
  index < bound ∧ ∀ i < bound, residual i ≤ residual index

variable {bound index : ℕ} {residual : ℕ → α}

omit [LinearOrder α] in
/-- One residual is replaced. -/
theorem residualTotal_update (hindex : index < bound) (value : α) :
    residualTotal bound (Function.update residual index value) =
      residualTotal bound residual - residual index + value := by
  have hmem : index ∈ Finset.range bound := Finset.mem_range.mpr hindex
  rw [residualTotal, residualTotal, Finset.sum_update_of_mem hmem, ← Finset.add_sum_erase _ _ hmem,
    Finset.sdiff_singleton_eq_erase]
  abel

theorem mem_outstanding {i : ℕ} : i ∈ outstanding bound residual ↔ i < bound ∧ residual i ≠ 0 := by
  rw [outstanding, Finset.mem_filter, Finset.mem_range]

/-- A settled residual is no longer outstanding. -/
theorem outstanding_settle (index : ℕ) :
    outstanding bound (Function.update residual index 0) =
      (outstanding bound residual).erase index := by
  ext i
  rw [Finset.mem_erase, mem_outstanding, mem_outstanding]
  by_cases hi : i = index
  · simp [hi]
  · simp [hi]

/-- Without outstanding residuals the total is zero. -/
theorem residualTotal_of_outstanding (hnone : outstanding bound residual = ∅) :
    residualTotal bound residual = 0 := by
  apply Finset.sum_eq_zero
  intro i hi
  by_contra hne
  have hmem : i ∈ outstanding bound residual :=
    mem_outstanding.mpr ⟨Finset.mem_range.mp hi, hne⟩
  rw [hnone] at hmem
  exact absurd hmem (Finset.notMem_empty i)

/-- While something is outstanding the largest residual is. -/
theorem IsLargest.mem_outstanding (hlargest : IsLargest bound residual index)
    (hnonneg : ∀ i, 0 ≤ residual i) (hsome : (outstanding bound residual).Nonempty) :
    index ∈ outstanding bound residual := by
  obtain ⟨i, hi⟩ := hsome
  obtain ⟨hbound, hne⟩ := Foundation.mem_outstanding.mp hi
  apply Foundation.mem_outstanding.mpr
  refine ⟨hlargest.1, ne_of_gt ?_⟩
  calc
    0 < residual i := lt_of_le_of_ne (hnonneg i) (Ne.symm hne)
    _ ≤ residual index := hlargest.2 i hbound

variable [IsOrderedAddMonoid α]

/-- Settling the largest residual makes up for any change of one of them. -/
theorem IsLargest.total_settle_le {changed : ℕ} {value : α} (hchanged : changed < bound)
    (hnonneg : 0 ≤ residual changed)
    (hlargest : IsLargest bound (Function.update residual changed value) index) :
    residualTotal bound (Function.update (Function.update residual changed value) index 0) ≤
      residualTotal bound residual := by
  have hvalue : value ≤ Function.update residual changed value index := by
    have hle := hlargest.2 changed hchanged
    rwa [Function.update_self] at hle
  rw [residualTotal_update hlargest.1, residualTotal_update hchanged, add_zero]
  calc
    residualTotal bound residual - residual changed + value -
          Function.update residual changed value index ≤
        residualTotal bound residual - residual changed := by
      rw [add_sub_assoc]
      exact add_le_of_nonpos_right (sub_nonpos.mpr hvalue)
    _ ≤ residualTotal bound residual := sub_le_self _ hnonneg

end AFStream.Foundation

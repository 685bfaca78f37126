/-
# Runs within an error budget

A machine that loses something now and then runs beside an ideal that follows the same actions and
loses nothing. If what the ideal does to its state brings no two states farther apart, an error
that was made once is not amplified, and the distance between the machine and the ideal is at most
the sum of the errors that the actions made. States are compared as vectors of a `p`-norm, so that
the sum, the square and the maximum of differences are the same notion.
-/

import AFStream.Foundation.Machine
import Mathlib.Analysis.Normed.Lp.PiLp

namespace AFStream.Foundation

open scoped ENNReal

universe u v w

/-! ## The budget rule -/

namespace Machine

variable {State : Type u} {Action : Type v} {Ideal : Type w} {M : Machine State Action}

/-- What the actions cost, one after the other, while the ideal follows them. -/
def totalCost (follow : Ideal → Action → Ideal) (cost : Ideal → Action → ℝ) :
    Ideal → List Action → ℝ
  | _, [] => 0
  | ideal, action :: rest => cost ideal action + totalCost follow cost (follow ideal action) rest

/-- **Budget rule.** If in every state of an invariant the actions at hand can be performed, keep
it and bring the state no farther from the ideal than they cost, then they can be performed one
after the other, and the distance is at most what all of them cost. -/
theorem exists_runFrom_within_budget (follow : Ideal → Action → Ideal) (cost : Ideal → Action → ℝ)
    (Inv : State → Prop) (error : State → Ideal → ℝ) {actions : List Action}
    (hstep : ∀ {state ideal}, ∀ action ∈ actions, Inv state →
      ∃ next, M.step state action = some next ∧ Inv next ∧
        error next (follow ideal action) ≤ error state ideal + cost ideal action)
    {start : State} (hstart : Inv start) (ideal : Ideal) :
    ∃ target, M.runFrom start actions = some target ∧ Inv target ∧
      error target (actions.foldl follow ideal) ≤
        error start ideal + totalCost follow cost ideal actions := by
  induction actions generalizing start ideal with
  | nil => exact ⟨start, rfl, hstart, (add_zero _).ge⟩
  | cons action rest ih =>
      obtain ⟨next, hnext, hinv, herror⟩ := hstep action List.mem_cons_self hstart
      obtain ⟨target, htarget, hinv', herror'⟩ :=
        ih (fun other hother => hstep other (List.mem_cons_of_mem action hother)) hinv
          (follow ideal action)
      refine ⟨target, ?_, hinv', ?_⟩
      · rw [runFrom_cons, hnext]
        exact htarget
      · calc
          error target (rest.foldl follow (follow ideal action)) ≤
              error next (follow ideal action) + totalCost follow cost (follow ideal action) rest :=
            herror'
          _ ≤ error start ideal + cost ideal action +
                totalCost follow cost (follow ideal action) rest :=
            add_le_add_left herror _
          _ = error start ideal + totalCost follow cost ideal (action :: rest) := add_assoc _ _ _

end Machine

/-! ## Vectors -/

section Vectors

variable (p : ℝ≥0∞) (n : ℕ)

/-- The first elements of an array, as a vector of the `p`-norm. -/
noncomputable def vector (a : ℕ → ℤ) : PiLp p fun _ : Fin n => ℝ := WithLp.toLp p fun i => (a i : ℝ)

variable {p n} {a b c d : ℕ → ℤ} {i : ℕ}

theorem dist_vector_one : dist (vector 1 n a) (vector 1 n b) =
    ((∑ i ∈ Finset.range n, |a i - b i| : ℤ) : ℝ) := by
  rw [PiLp.dist_eq_of_L1, ← Fin.sum_univ_eq_sum_range]
  push_cast
  rfl

theorem dist_vector_two : dist (vector 2 n a) (vector 2 n b) =
    √((∑ i ∈ Finset.range n, (a i - b i) ^ 2 : ℤ) : ℝ) := by
  rw [PiLp.dist_eq_of_L2, ← Fin.sum_univ_eq_sum_range]
  push_cast
  refine congrArg Real.sqrt (Finset.sum_congr rfl fun i _ => ?_)
  exact sq_abs _

theorem dist_vector_top_le {r : ℝ} (hr : 0 ≤ r) (h : ∀ i < n, ((|a i - b i| : ℤ) : ℝ) ≤ r) :
    dist (vector ∞ n a) (vector ∞ n b) ≤ r := by
  rw [PiLp.dist_eq_iSup]
  refine Real.iSup_le (fun i => ?_) hr
  have hi := h i i.isLt
  push_cast at hi
  exact hi

variable [Fact (1 ≤ p)]

/-- No element differs by more than the vectors do. -/
theorem abs_sub_le_dist_vector (hi : i < n) (a b : ℕ → ℤ) :
    ((|a i - b i| : ℤ) : ℝ) ≤ dist (vector p n a) (vector p n b) := by
  have helement := PiLp.dist_apply_le (vector p n a) (vector p n b) ⟨i, hi⟩
  push_cast
  exact helement

/-- A change of one element. -/
theorem dist_vector_update (hi : i < n) (a : ℕ → ℤ) (x : ℤ) :
    dist (vector p n (Function.update a i x)) (vector p n a) = ((|x - a i| : ℤ) : ℝ) := by
  have hsub : vector p n (Function.update a i x) - vector p n a =
      PiLp.single p (⟨i, hi⟩ : Fin n) ((x : ℝ) - (a i : ℝ)) := by
    refine congrArg (WithLp.toLp p) (funext fun j => ?_)
    change ((Function.update a i x j : ℤ) : ℝ) - (a j : ℝ) = _
    by_cases hj : j = ⟨i, hi⟩
    · subst hj
      rw [Pi.single_eq_same, Function.update_self]
    · have hne : (j : ℕ) ≠ i := fun hval => hj (Fin.ext hval)
      rw [Pi.single_eq_of_ne hj, Function.update_of_ne hne, sub_self]
  rw [dist_eq_norm, hsub, PiLp.norm_single, Real.norm_eq_abs]
  push_cast
  rfl

/-- Vectors whose elements are closer are closer. -/
theorem dist_vector_le (h : ∀ i < n, |a i - b i| ≤ |c i - d i|) :
    dist (vector p n a) (vector p n b) ≤ dist (vector p n c) (vector p n d) := by
  have helement : ∀ i : Fin n, dist (vector p n a i) (vector p n b i) ≤
      dist (vector p n c i) (vector p n d i) := by
    intro i
    have hi : ((|a i - b i| : ℤ) : ℝ) ≤ ((|c i - d i| : ℤ) : ℝ) := Int.cast_le.mpr (h i i.isLt)
    push_cast at hi
    exact hi
  rcases eq_or_ne p ∞ with rfl | hp
  · rw [PiLp.dist_eq_iSup, PiLp.dist_eq_iSup]
    exact ciSup_mono (Set.finite_range _).bddAbove helement
  · have hpos : 0 < p.toReal :=
      ENNReal.toReal_pos (zero_lt_one.trans_le (Fact.out : 1 ≤ p)).ne' hp
    rw [PiLp.dist_eq_sum hpos, PiLp.dist_eq_sum hpos]
    gcongr with i
    exact helement i

/-- **No amplification.** The same change of one element, by a function that brings no two values
farther apart. -/
theorem dist_vector_update_le {change : ℤ → ℤ} (hchange : ∀ x y, |change x - change y| ≤ |x - y|)
    (i : ℕ) (a b : ℕ → ℤ) :
    dist (vector p n (Function.update a i (change (a i))))
        (vector p n (Function.update b i (change (b i)))) ≤
      dist (vector p n a) (vector p n b) := by
  refine dist_vector_le fun j _ => ?_
  by_cases hj : j = i
  · rw [hj, Function.update_self, Function.update_self]
    exact hchange _ _
  · rw [Function.update_of_ne hj, Function.update_of_ne hj]

end Vectors

end AFStream.Foundation

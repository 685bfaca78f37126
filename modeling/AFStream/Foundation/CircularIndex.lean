/-
# Positions on a circular array

Indices of a circular array of `size` cells are compared by the number of steps
from one to the other, which is at most `size - 1`. The three operations below
wrap at most once, so every fact about them is linear; ordering statements about
several wrapped indices become chains of inequalities between distances from a
common base.
-/

import Mathlib.Tactic

namespace AFStream.Foundation.Circular

variable {size a b c k j : ℕ}

/-- The next cell, wrapping at the end. -/
def advance (size i : ℕ) : ℕ := if size ≤ i + 1 then 0 else i + 1

/-- Steps from cell `a` forwards to cell `b`. -/
def dist (size a b : ℕ) : ℕ := if a ≤ b then b - a else b + size - a

/-- The cell `k` steps after `base`. -/
def shift (size base k : ℕ) : ℕ := if base + k < size then base + k else base + k - size

@[simp]
theorem dist_self (size a : ℕ) : dist size a a = 0 := by simp [dist]

@[simp]
theorem shift_zero (ha : a < size) : shift size a 0 = a := by simp [shift, ha]

theorem advance_lt (ha : a < size) : advance size a < size := by
  unfold advance; split_ifs <;> omega

theorem shift_lt (ha : a < size) (hk : k < size) : shift size a k < size := by
  unfold shift; split_ifs <;> omega

theorem dist_lt (ha : a < size) (hb : b < size) : dist size a b < size := by
  unfold dist; split_ifs <;> omega

/-- Distances along the circle are exactly the shifts. -/
@[simp]
theorem shift_dist (ha : a < size) (hb : b < size) : shift size a (dist size a b) = b := by
  unfold shift dist; split_ifs <;> omega

@[simp]
theorem dist_shift (ha : a < size) (hk : k < size) : dist size a (shift size a k) = k := by
  unfold shift dist; split_ifs <;> omega

theorem dist_eq_zero_iff (ha : a < size) : dist size a b = 0 ↔ a = b := by
  unfold dist; split_ifs <;> omega

/-- Different offsets name different cells. -/
theorem shift_injective (ha : a < size) (hk : k < size) (hj : j < size)
    (heq : shift size a k = shift size a j) : k = j := by
  rw [← dist_shift ha hk, heq, dist_shift ha hj]

theorem shift_ne (ha : a < size) (hk : k < size) (hj : j < size) (hne : k ≠ j) :
    shift size a k ≠ shift size a j :=
  fun heq => hne (shift_injective ha hk hj heq)

/-- One more step, unless the circle closes. -/
theorem dist_advance (ha : a < size) (hb : b < size) (hne : advance size b ≠ a) :
    dist size a (advance size b) = dist size a b + 1 := by
  unfold advance dist at *; split_ifs at * <;> omega

/-- The circle closes after exactly `size` steps. -/
theorem dist_of_advance_eq (hb : b < size) (heq : advance size b = a) :
    dist size a b + 1 = size := by
  unfold advance dist at *; split_ifs at * <;> omega

theorem shift_advance (ha : a < size) (hk : k + 1 < size) :
    shift size (advance size a) k = shift size a (k + 1) := by
  unfold advance shift; split_ifs <;> omega

theorem dist_advance_left (ha : a < size) (hb : b < size) (hne : a ≠ b) :
    dist size (advance size a) b + 1 = dist size a b := by
  unfold advance dist; split_ifs <;> omega

/-- Moving the base forwards over `b` subtracts the steps it took. -/
theorem dist_rebase (ha : a < size) (hb : b < size) (hc : c < size)
    (hle : dist size a b ≤ dist size a c) :
    dist size b c = dist size a c - dist size a b := by
  unfold dist at *; split_ifs at * <;> omega

end AFStream.Foundation.Circular

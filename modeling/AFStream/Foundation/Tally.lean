/-
# Counters with a bound

A list of increments is added to counters, one after the other, and an addition that
leaves a range is undefined. For increments that are not negative the order does not
matter: everything is defined exactly when the totals are within the range. A loop over
richer states that performs such additions is related to the counters by a simulation
rule for partial folds.
-/

import AFStream.Foundation.PartialLoops

namespace AFStream.Foundation

universe u v w

theorem sum_map_eq_of_forall₂ {α : Type u} {β : Type v} {f : α → ℤ} {g : β → ℤ} {first : List α}
    {second : List β} (h : List.Forall₂ (fun a b => g b = f a) first second) :
    (second.map g).sum = (first.map f).sum := by
  induction h with
  | nil => rfl
  | cons hb _ ih => rw [List.map_cons, List.sum_cons, List.map_cons, List.sum_cons, hb, ih]

section Tally

variable {ι : Type u} [DecidableEq ι]

/-- What a list of increments adds at a position. -/
def tally (increments : List (ι × ℤ)) (position : ι) : ℤ :=
  ((increments.filter fun increment => increment.1 = position).map Prod.snd).sum

/-- One increment, undefined where the sum leaves the range. -/
def addAt (low high : ℤ) (counters : ι → ℤ) (increment : ι × ℤ) : Option (ι → ℤ) :=
  if low ≤ counters increment.1 + increment.2 ∧ counters increment.1 + increment.2 < high then
    some (Function.update counters increment.1 (counters increment.1 + increment.2))
  else none

@[simp]
theorem tally_nil (position : ι) : tally [] position = 0 := rfl

theorem tally_cons (increment : ι × ℤ) (rest : List (ι × ℤ)) (position : ι) :
    tally (increment :: rest) position =
      (if increment.1 = position then increment.2 else 0) + tally rest position := by
  by_cases hposition : increment.1 = position
  · simp [tally, hposition]
  · simp [tally, hposition]

theorem tally_append (first second : List (ι × ℤ)) (position : ι) :
    tally (first ++ second) position = tally first position + tally second position := by
  rw [tally, List.filter_append, List.map_append, List.sum_append]
  rfl

/-- One more increment. -/
theorem tally_concat (increments : List (ι × ℤ)) (increment : ι × ℤ) :
    tally (increments ++ [increment]) =
      Function.update (tally increments) increment.1
        (tally increments increment.1 + increment.2) := by
  funext position
  rw [tally_append, tally_cons, tally_nil, add_zero]
  by_cases hposition : increment.1 = position
  · rw [← hposition, if_pos rfl, Function.update_self]
  · rw [if_neg hposition, add_zero, Function.update_of_ne (Ne.symm hposition)]

theorem tally_perm {first second : List (ι × ℤ)} (hperm : first.Perm second) (position : ι) :
    tally first position = tally second position :=
  ((hperm.filter _).map Prod.snd).sum_eq

theorem tally_nonneg {increments : List (ι × ℤ)}
    (hnonneg : ∀ increment ∈ increments, 0 ≤ increment.2) (position : ι) :
    0 ≤ tally increments position := by
  apply List.sum_nonneg
  intro value hvalue
  obtain ⟨increment, hincrement, rfl⟩ := List.mem_map.mp hvalue
  exact hnonneg increment (List.mem_filter.mp hincrement).1

theorem tally_eq_zero {increments : List (ι × ℤ)} {position : ι}
    (hnone : ∀ increment ∈ increments, increment.1 ≠ position) : tally increments position = 0 := by
  have hfilter : increments.filter (fun increment => increment.1 = position) = [] := by
    rw [List.filter_eq_nil_iff]
    intro increment hincrement
    simpa using hnone increment hincrement
  rw [tally, hfilter]
  rfl

/-- A positive total has a positive increment. -/
theorem tally_pos_iff {increments : List (ι × ℤ)}
    (hnonneg : ∀ increment ∈ increments, 0 ≤ increment.2) {position : ι} :
    0 < tally increments position ↔
      ∃ increment ∈ increments, increment.1 = position ∧ 0 < increment.2 := by
  induction increments with
  | nil => simp
  | cons increment rest ih =>
      rw [List.forall_mem_cons] at hnonneg
      have hrest := tally_nonneg hnonneg.2 position
      simp only [tally_cons, List.mem_cons, exists_eq_or_imp, ← ih hnonneg.2]
      by_cases hposition : increment.1 = position
      · rw [if_pos hposition]
        simp only [hposition, true_and]
        have hfirst := hnonneg.1
        omega
      · rw [if_neg hposition]
        simp [hposition]

theorem tally_flatMap {Input : Type v} (inputs : List Input) (expand : Input → List (ι × ℤ))
    (position : ι) :
    tally (inputs.flatMap expand) position =
      (inputs.map fun input => tally (expand input) position).sum := by
  induction inputs with
  | nil => rfl
  | cons input rest ih => rw [List.flatMap_cons, tally_append, ih, List.map_cons, List.sum_cons]

/-- Positions that are merged do not lose increments. -/
theorem tally_le_tally_map {κ : Type v} [DecidableEq κ] {increments : List (ι × ℤ)}
    (hnonneg : ∀ increment ∈ increments, 0 ≤ increment.2) (merge : ι → κ) (position : ι) :
    tally increments position ≤
      tally (increments.map fun increment => (merge increment.1, increment.2))
        (merge position) := by
  induction increments with
  | nil => exact le_rfl
  | cons increment rest ih =>
      rw [List.forall_mem_cons] at hnonneg
      rw [List.map_cons, tally_cons, tally_cons]
      apply add_le_add _ (ih hnonneg.2)
      by_cases hposition : increment.1 = position
      · rw [if_pos hposition, if_pos (congrArg merge hposition)]
      · rw [if_neg hposition]
        dsimp only
        split_ifs
        · exact hnonneg.1
        · exact le_rfl

theorem tally_le_sum {increments : List (ι × ℤ)}
    (hnonneg : ∀ increment ∈ increments, 0 ≤ increment.2) (position : ι) :
    tally increments position ≤ (increments.map Prod.snd).sum := by
  induction increments with
  | nil => exact le_rfl
  | cons increment rest ih =>
      rw [List.forall_mem_cons] at hnonneg
      rw [tally_cons, List.map_cons, List.sum_cons]
      apply add_le_add _ (ih hnonneg.2)
      split_ifs
      · exact le_rfl
      · exact hnonneg.1

/-- Counters that have been incremented are in the range. -/
theorem foldlM_addAt_range {low high : ℤ} {increments : List (ι × ℤ)} {counters result : ι → ℤ}
    (hcounters : ∀ x, low ≤ counters x ∧ counters x < high)
    (h : increments.foldlM (addAt low high) counters = some result) (x : ι) :
    low ≤ result x ∧ result x < high := by
  induction increments generalizing counters with
  | nil =>
      obtain rfl := Option.some.inj h
      exact hcounters x
  | cons increment rest ih =>
      rw [List.foldlM_cons] at h
      obtain ⟨next, hnext, hrest⟩ := Option.bind_eq_some_iff.mp h
      unfold addAt at hnext
      split_ifs at hnext with hrange
      obtain rfl := Option.some.inj hnext
      apply ih _ hrest
      intro y
      by_cases hy : y = increment.1
      · subst hy
        rw [Function.update_self]
        exact hrange
      · rw [Function.update_of_ne hy]
        exact hcounters y

/-- Each position once, with the value of a function. -/
theorem tally_graph {positions : List ι} (hnodup : positions.Nodup) (value : ι → ℤ) (position : ι) :
    tally (positions.map fun x => (x, value x)) position =
      if position ∈ positions then value position else 0 := by
  induction positions with
  | nil => rfl
  | cons first rest ih =>
      obtain ⟨hnot, hrest⟩ := List.nodup_cons.mp hnodup
      rw [List.map_cons, tally_cons, ih hrest]
      by_cases hfirst : first = position
      · subst hfirst
        simp [hnot]
      · simp [hfirst, Ne.symm hfirst]

/-- **Increments that are not negative.** They can be added exactly when no total leaves the
range, and the counters are the totals then. -/
theorem foldlM_addAt_eq_some {low high : ℤ} (hlow : low ≤ 0) {increments : List (ι × ℤ)}
    (hnonneg : ∀ increment ∈ increments, 0 ≤ increment.2) {counters : ι → ℤ}
    (hcounters : ∀ x, 0 ≤ counters x ∧ counters x < high) {result : ι → ℤ} :
    increments.foldlM (addAt low high) counters = some result ↔
      (∀ x, counters x + tally increments x < high) ∧
        result = fun x => counters x + tally increments x := by
  induction increments generalizing counters with
  | nil =>
      simp only [List.foldlM_nil, Option.pure_def, Option.some.injEq, tally_nil, add_zero]
      exact ⟨fun hsame => ⟨fun x => (hcounters x).2, hsame.symm⟩, fun h => h.2.symm⟩
  | cons increment rest ih =>
      rw [List.forall_mem_cons] at hnonneg
      have hrest := tally_nonneg hnonneg.2
      rw [List.foldlM_cons, addAt]
      by_cases hhigh : counters increment.1 + increment.2 < high
      · have hpos := hcounters increment.1
        have htotal : ∀ x, Function.update counters increment.1
            (counters increment.1 + increment.2) x + tally rest x =
              counters x + tally (increment :: rest) x := by
          intro x
          rw [tally_cons]
          by_cases hx : increment.1 = x
          · subst hx
            rw [Function.update_self, if_pos rfl, add_assoc]
          · rw [Function.update_of_ne (Ne.symm hx), if_neg hx, zero_add]
        rw [if_pos ⟨by linarith [hnonneg.1], hhigh⟩, Option.bind_eq_bind, Option.bind_some,
          ih hnonneg.2]
        · simp only [htotal]
        · intro x
          by_cases hx : x = increment.1
          · subst hx
            rw [Function.update_self]
            exact ⟨add_nonneg hpos.1 hnonneg.1, hhigh⟩
          · rw [Function.update_of_ne hx]
            exact hcounters x
      · rw [if_neg fun h => hhigh h.2]
        refine iff_of_false (by simp) ?_
        rintro ⟨hbound, -⟩
        have hlt := hbound increment.1
        rw [tally_cons, if_pos rfl] at hlt
        exact hhigh (by linarith [hrest increment.1])

end Tally

end AFStream.Foundation

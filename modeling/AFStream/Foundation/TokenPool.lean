/-
# Tokens that move between places

A fixed stock of distinct tokens is spread over finitely many places. A step that
takes one token out of one place and puts it into another leaves the stock alone,
and as long as the stock has no duplicates every token is in exactly one place.
-/

import Mathlib.Algebra.BigOperators.Group.Finset.Basic
import Mathlib.Data.Multiset.Fintype
import Mathlib.Tactic

namespace AFStream.Foundation.TokenPool

universe u v

variable {Place : Type u} {Token : Type v} [Fintype Place] {held held' : Place → Multiset Token}

/-- All tokens, wherever they are. -/
def stock (held : Place → Multiset Token) : Multiset Token := ∑ place, held place

theorem mem_stock_iff {token : Token} : token ∈ stock held ↔ ∃ place, token ∈ held place := by
  simp [stock, Multiset.mem_sum]

theorem held_le_stock (place : Place) : held place ≤ stock held :=
  Finset.single_le_sum (fun _ _ => Multiset.zero_le _) (Finset.mem_univ place)

/-- Moving one token from `source` to `target` keeps the stock. -/
theorem stock_move [DecidableEq Place] {source target : Place} {token : Token}
    (hne : source ≠ target)
    (hsource : held source = token ::ₘ held' source)
    (htarget : held' target = token ::ₘ held target)
    (hframe : ∀ place, place ≠ source → place ≠ target → held' place = held place) :
    stock held' = stock held := by
  have split (family : Place → Multiset Token) : stock family =
      family source + (family target +
        ∑ place ∈ (Finset.univ.erase source).erase target, family place) := by
    have hmem : target ∈ Finset.univ.erase source :=
      Finset.mem_erase.mpr ⟨hne.symm, Finset.mem_univ _⟩
    rw [stock, ← Finset.add_sum_erase _ _ (Finset.mem_univ source),
      ← Finset.add_sum_erase _ _ hmem]
  have hrest : ∑ place ∈ (Finset.univ.erase source).erase target, held' place =
      ∑ place ∈ (Finset.univ.erase source).erase target, held place := by
    refine Finset.sum_congr rfl fun place hplace => ?_
    obtain ⟨hnotTarget, hplace⟩ := Finset.mem_erase.mp hplace
    exact hframe place (Finset.mem_erase.mp hplace).1 hnotTarget
  rw [split held', split held, hsource, htarget, hrest, Multiset.cons_add, Multiset.cons_add,
    Multiset.add_cons]

section Redistribution

variable {Index : Type*} [Fintype Index] {places : Index → Place}

/-- Some of the places, apart from the others. -/
theorem stock_eq_add [DecidableEq Place] (hinj : Function.Injective places)
    (held : Place → Multiset Token) :
    stock held = ∑ i, held (places i) +
      ∑ place ∈ (Finset.univ.image places)ᶜ, held place := by
  rw [stock, ← Finset.sum_add_sum_compl (Finset.univ.image places) held,
    Finset.sum_image hinj.injOn]

/-- Tokens that some places redistribute among themselves keep the stock. -/
theorem stock_redistribute [DecidableEq Place] (hinj : Function.Injective places)
    (hsum : ∑ i, held' (places i) = ∑ i, held (places i))
    (hframe : ∀ place, (∀ i, place ≠ places i) → held' place = held place) :
    stock held' = stock held := by
  rw [stock_eq_add hinj held', stock_eq_add hinj held, hsum]
  congr 1
  refine Finset.sum_congr rfl fun place hplace => hframe place ?_
  rintro i rfl
  exact Finset.mem_compl.mp hplace (Finset.mem_image_of_mem places (Finset.mem_univ i))

/-- Several places together hold no token twice. -/
theorem nodup_sum_held [DecidableEq Place] (hinj : Function.Injective places)
    (hnodup : (stock held).Nodup) : (∑ i, held (places i)).Nodup := by
  rw [stock_eq_add hinj held] at hnodup
  exact (Multiset.nodup_add.mp hnodup).1

end Redistribution

/-- A place holds no token twice. -/
theorem nodup_held (hnodup : (stock held).Nodup) (place : Place) : (held place).Nodup :=
  Multiset.nodup_of_le (held_le_stock place) hnodup

/-- **Exclusive ownership.** When the stock has no duplicates every token of it is in
exactly one place. -/
theorem existsUnique_place [DecidableEq Place] (hnodup : (stock held).Nodup) {token : Token}
    (hmem : token ∈ stock held) : ∃! place, token ∈ held place := by
  obtain ⟨place, hplace⟩ := mem_stock_iff.mp hmem
  refine ⟨place, hplace, fun other hother => ?_⟩
  by_contra hne
  have hpair : held place + held other ≤ stock held := by
    have hmem : other ∈ Finset.univ.erase place :=
      Finset.mem_erase.mpr ⟨hne, Finset.mem_univ _⟩
    rw [stock, ← Finset.add_sum_erase _ _ (Finset.mem_univ place)]
    refine Multiset.le_iff_exists_add.mpr
      ⟨∑ x ∈ (Finset.univ.erase place).erase other, held x, ?_⟩
    rw [← Finset.add_sum_erase _ _ hmem, add_assoc]
  have hdisjoint := (Multiset.nodup_add.mp (Multiset.nodup_of_le hpair hnodup)).2.2
  exact Multiset.disjoint_left.mp hdisjoint hplace hother

end AFStream.Foundation.TokenPool

/-
# Memory blocks that are allocated and freed

A heap maps addresses to the blocks that are allocated there. Access to a block that is not
allocated, and freeing such a block, are undefined, so that an operation that is defined makes no
use of freed memory and frees nothing twice. An allocator is free to return any address that is
not in use, also one that was in use before.
-/

import Mathlib.Logic.Function.Basic
import Mathlib.Tactic

namespace AFStream.Foundation

universe u v

/-- The allocated blocks by address. -/
structure Heap (V : Type u) where
  block : ℕ → Option V

namespace Heap

variable {V : Type u}

/-- Nothing is allocated. -/
def empty : Heap V := ⟨fun _ => none⟩

/-- The address is in use. -/
def Live (h : Heap V) (a : ℕ) : Prop := ∃ v, h.block a = some v

instance (h : Heap V) (a : ℕ) : Decidable (h.Live a) :=
  match hblock : h.block a with
  | some v => isTrue ⟨v, hblock⟩
  | none => isFalse fun ⟨_, hv⟩ => Option.some_ne_none _ (hv.symm.trans hblock)

/-- A new block at an address that the allocator has chosen. -/
def alloc (h : Heap V) (a : ℕ) (v : V) : Heap V := ⟨Function.update h.block a (some v)⟩

/-- Change a block. -/
def modify (h : Heap V) (a : ℕ) (f : V → V) : Option (Heap V) :=
  (h.block a).map fun v => ⟨Function.update h.block a (some (f v))⟩

/-- Free a block. -/
def free (h : Heap V) (a : ℕ) : Option (Heap V) :=
  (h.block a).map fun _ => ⟨Function.update h.block a none⟩

/-- Free a block, where a null pointer is ignored. -/
def freePtr (h : Heap V) : Option ℕ → Option (Heap V)
  | none => some h
  | some a => h.free a

variable {h h' : Heap V} {a b : ℕ} {v : V} {f : V → V}

@[simp]
theorem block_empty (a : ℕ) : (empty : Heap V).block a = none := rfl

@[simp]
theorem block_alloc_self (h : Heap V) (a : ℕ) (v : V) : (h.alloc a v).block a = some v := by
  simp [alloc]

theorem block_alloc_of_ne (h : Heap V) (v : V) (hne : b ≠ a) :
    (h.alloc a v).block b = h.block b := by
  simp [alloc, hne]

theorem not_live_iff : ¬ h.Live a ↔ h.block a = none := by
  simp [Live, Option.eq_none_iff_forall_not_mem, Option.mem_def]

theorem live_alloc_iff : (h.alloc a v).Live b ↔ h.Live b ∨ b = a := by
  by_cases hb : b = a
  · subst hb
    simp [Live]
  · simp [Live, block_alloc_of_ne h v hb, hb]

/-- A block that is allocated can be changed. -/
theorem exists_modify (hlive : h.Live a) (f : V → V) : ∃ h', h.modify a f = some h' := by
  obtain ⟨v, hv⟩ := hlive
  exact ⟨_, by rw [modify, hv]; rfl⟩

/-- A change leaves the other blocks as they are. -/
theorem block_modify (hmodify : h.modify a f = some h') (b : ℕ) :
    h'.block b = if b = a then (h.block a).map f else h.block b := by
  obtain ⟨v, hv, rfl⟩ := Option.map_eq_some_iff.mp hmodify
  by_cases hb : b = a
  · simp [hb, hv]
  · simp [hb]

theorem live_modify_iff (hmodify : h.modify a f = some h') : h'.Live b ↔ h.Live b := by
  rw [Live, Live, block_modify hmodify]
  split_ifs with hb
  · simp [hb]
  · exact Iff.rfl

/-- A change that keeps what `g` reads of a block keeps it everywhere. -/
theorem map_block_modify {W : Type v} {g : V → W} (hmodify : h.modify a f = some h')
    (hg : ∀ v, g (f v) = g v) (b : ℕ) : (h'.block b).map g = (h.block b).map g := by
  rw [block_modify hmodify]
  split_ifs with hb
  · rw [Option.map_map, hb]
    congr 1
    funext v
    exact hg v
  · rfl

/-- A block that is allocated can be freed. -/
theorem exists_free (hlive : h.Live a) : ∃ h', h.free a = some h' := by
  obtain ⟨v, hv⟩ := hlive
  exact ⟨_, by rw [free, hv]; rfl⟩

/-- Freeing a block leaves the other blocks as they are. -/
theorem block_free (hfree : h.free a = some h') (b : ℕ) :
    h'.block b = if b = a then none else h.block b := by
  obtain ⟨v, -, rfl⟩ := Option.map_eq_some_iff.mp hfree
  by_cases hb : b = a
  · simp [hb]
  · simp [hb]

theorem block_freePtr {ptr : Option ℕ} (hfree : h.freePtr ptr = some h') (b : ℕ) :
    h'.block b = if ptr = some b then none else h.block b := by
  cases ptr with
  | none =>
      obtain rfl : h = h' := Option.some.inj hfree
      simp
  | some a =>
      rw [block_free hfree]
      simp [eq_comm]

theorem exists_freePtr {ptr : Option ℕ} (hlive : ∀ a, ptr = some a → h.Live a) :
    ∃ h', h.freePtr ptr = some h' := by
  cases ptr with
  | none => exact ⟨h, rfl⟩
  | some a => exact exists_free (hlive a rfl)

end Heap

end AFStream.Foundation

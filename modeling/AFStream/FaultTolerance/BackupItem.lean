/-
# Backup items

A `BackupItem` is what travels from a compute thread to the backup server and back: who
saved it, a length and a key, and a block of which only the given length has been
written. The rest of the block is whatever the buffer held before, so every copy of an
item agrees with the original in the head and in the written bytes only.
-/

import AFStream.Foundation.Bytes

namespace AFStream.FaultTolerance

open AFStream.Foundation

/-- `MAX_BACKUP_ITEM_DATA_LEN` -/
def maxBackupItemDataLen : ℕ := 256

/-- `BackupInfo` -/
structure BackupInfo where
  /-- 0: write, 1: read len, 2: read data. -/
  backupOp : UInt32
  workerId : UInt32
  threadId : UInt16
  opIndex : UInt16
  seq : UInt64
  deriving DecidableEq

/-- `BackupData`, with the members of its `BackupMeta`. -/
structure BackupData where
  len : UInt32
  key : UInt64
  data : Block maxBackupItemDataLen
  deriving DecidableEq

/-- `BackupItem` -/
structure BackupItem where
  info : BackupInfo
  data : BackupData
  deriving DecidableEq

/-- `sizeof(BackupItem)`: the structures are packed. -/
def sizeofBackupItem : ℕ := 20 + 12 + maxBackupItemDataLen

namespace BackupData

/-- The bytes that have been written. -/
def written (data : BackupData) : List UInt8 := data.data.bytes.take data.len.toNat

end BackupData

namespace BackupItem

/-- The written bytes fit into the block. -/
def Fits (item : BackupItem) : Prop := item.data.len.toNat ≤ maxBackupItemDataLen

instance (item : BackupItem) : Decidable item.Fits := inferInstanceAs (Decidable (_ ≤ _))

/-- Memory that has been cleared. -/
def zero : BackupItem where
  info := ⟨0, 0, 0, 0, 0⟩
  data := ⟨0, 0, .zero⟩

/-- `CopyBackupItem`, and also what a send of `size()` bytes writes into the buffer of
the receiver. -/
def copyBackupItem (dst src : BackupItem) : BackupItem where
  info := src.info
  data :=
    { len := src.data.len
      key := src.data.key
      data := dst.data.data.copy src.data.data src.data.len.toNat }

/-- An item with the head and the written bytes of a proper one. -/
structure Carries (item item' : BackupItem) : Prop where
  info_eq : item.info = item'.info
  len_eq : item.data.len = item'.data.len
  key_eq : item.data.key = item'.data.key
  written_eq : item.data.written = item'.data.written
  fits : item'.Fits

theorem Carries.refl {item : BackupItem} (hfits : item.Fits) : item.Carries item :=
  ⟨rfl, rfl, rfl, rfl, hfits⟩

/-- A copy loses nothing that was written. -/
theorem copyBackupItem_carries (dst : BackupItem) {src : BackupItem} (hfits : src.Fits) :
    (dst.copyBackupItem src).Carries src where
  info_eq := rfl
  len_eq := rfl
  key_eq := rfl
  written_eq := Block.take_copy _ _ hfits
  fits := hfits

/-- Neither does a copy of a copy. -/
theorem Carries.copy {item item' : BackupItem} (h : item.Carries item') (dst : BackupItem) :
    (dst.copyBackupItem item).Carries item' := by
  have hfits : item.Fits := by
    rw [Fits, h.len_eq]
    exact h.fits
  have hcopy := copyBackupItem_carries dst hfits
  exact ⟨hcopy.info_eq.trans h.info_eq, hcopy.len_eq.trans h.len_eq, hcopy.key_eq.trans h.key_eq,
    hcopy.written_eq.trans h.written_eq, h.fits⟩

end BackupItem

/-! ## Recovery items -/

/-- `RecoveryItem`: a count and the slots that lie inside the allocated memory. -/
structure RecoveryItem where
  count : ℕ
  slots : List BackupItem

namespace RecoveryItem

/-- `size()`, a `uint32_t`. -/
def size (count : ℕ) : ℕ := (4 + sizeofBackupItem * count) % 2 ^ 32

/-- The constructor; the memory is not initialised. -/
def create (garbage : ℕ → BackupItem) (count : ℕ) : RecoveryItem where
  count := count
  slots := (List.range ((size count - 4) / sizeofBackupItem)).map garbage

/-- The first slots carry the given items. -/
structure Filled (r : RecoveryItem) (total : ℕ) (items : List BackupItem) : Prop where
  length_eq : r.slots.length = total
  carries : ∀ (i : ℕ) (item : BackupItem), items[i]? = some item →
    ∃ slot : BackupItem, r.slots[i]? = some slot ∧ slot.Carries item

/-- A count that the size can represent has room for all its slots. -/
theorem create_filled (garbage : ℕ → BackupItem) {count : ℕ}
    (hcount : 4 + sizeofBackupItem * count < 2 ^ 32) :
    (create garbage count).Filled count [] where
  length_eq := by
    rw [create, List.length_map, List.length_range, size, Nat.mod_eq_of_lt hcount,
      Nat.add_sub_cancel_left, Nat.mul_div_cancel_left _ (by decide)]
  carries := by
    intro i item hitem
    cases hitem

/-- One more slot is written. -/
theorem Filled.set {r : RecoveryItem} {total : ℕ} {items : List BackupItem}
    (h : r.Filled total items) (hroom : items.length < total) {slot item : BackupItem}
    (hslot : slot.Carries item) :
    Filled { r with slots := r.slots.set items.length slot } total (items ++ [item]) where
  length_eq := by
    rw [List.length_set, h.length_eq]
  carries := by
    intro i other hother
    rw [List.getElem?_append] at hother
    show ∃ slot' : BackupItem, (r.slots.set items.length slot)[i]? = some slot' ∧ _
    rw [List.getElem?_set]
    by_cases hi : i < items.length
    · rw [if_pos hi] at hother
      rw [if_neg (Nat.ne_of_gt hi)]
      exact h.carries i other hother
    · rw [if_neg hi, List.getElem?_singleton] at hother
      have hlast : i = items.length := by
        by_contra hne
        rw [if_neg (by omega)] at hother
        cases hother
      rw [if_pos (by omega)] at hother
      obtain rfl := Option.some.inj hother
      rw [if_pos hlast.symm, if_pos (by rw [h.length_eq]; exact hroom)]
      exact ⟨slot, rfl, hslot⟩

end RecoveryItem

end AFStream.FaultTolerance

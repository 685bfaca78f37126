/-
# The slot table of one operator

The backup server keeps a `BackupContent` for every operator that has saved something:
a map from the keys of the items to slots and an array of slots that grows by doubling.
Memory that has not been written holds arbitrary bytes. The table refines a store with
keyed slots, in which every key holds the item that was saved last.
-/

import AFStream.FaultTolerance.BackupItem
import AFStream.Foundation.KeyedSlots

namespace AFStream.FaultTolerance

open AFStream.Foundation

/-- `BackupContent` -/
structure BackupContent where
  map : KeyedSlots UInt64 ℕ
  slots : List BackupItem
  usedSlots : ℕ
  maxSlots : ℕ

namespace BackupContent

/-- The constructor. -/
def create : BackupContent where
  map := .empty
  slots := [.zero]
  usedSlots := 0
  maxSlots := 1

variable (garbage : ℕ → BackupItem)

/-- `Expand`. `realloc` keeps the old slots and does not initialise the new ones. -/
def expand (c : BackupContent) : BackupContent :=
  let maxSlots := c.maxSlots * 2 % 2 ^ 32
  { c with
    maxSlots := maxSlots
    slots := (List.range maxSlots).map fun i => c.slots.getD i (garbage i) }

/-- `SelectSlot` -/
def selectSlot (c : BackupContent) (item : BackupItem) : ℕ × BackupContent :=
  let bakKey := item.data.key
  match c.map.get? bakKey with
  | none =>
    let ret := c.usedSlots
    let c := { c with
      usedSlots := (c.usedSlots + 1) % 2 ^ 32
      map := c.map.put bakKey ret }
    (ret, if ret = c.maxSlots then c.expand garbage else c)
  | some ret => (ret, c)

/-- `SaveBackup`, undefined if the slot is outside the array. -/
def saveBackup (c : BackupContent) (item : BackupItem) : Option BackupContent :=
  let (index, c) := c.selectSlot garbage item
  c.slots[index]?.map fun slot =>
    { c with slots := c.slots.set index (slot.copyBackupItem item) }

/-- `GetCount` -/
def getCount (c : BackupContent) : ℕ := c.usedSlots

/-- The body of the loop in `AppendRecoveryItem`, undefined if a slot is outside the
memory of the item. -/
def appendSlot (c : BackupContent) (curCount : ℕ) (ret : RecoveryItem) (i : ℕ) :
    Option RecoveryItem :=
  let index := (curCount + i) % 2 ^ 32
  ret.slots[index]?.bind fun dst =>
    c.slots[i]?.map fun src =>
      { ret with slots := ret.slots.set index (dst.copyBackupItem src) }

/-- `AppendRecoveryItem` -/
def appendRecoveryItem (c : BackupContent) (ret : RecoveryItem) (curCount : ℕ) :
    Option RecoveryItem :=
  (List.range c.usedSlots).foldlM (c.appendSlot curCount) ret

/-! ## Refinement -/

/-- The table holds the items of a store with keyed slots, slot by slot. -/
structure Refines (c : BackupContent) (store : KeyedSlots UInt64 BackupItem) : Prop where
  keys_eq : c.map.entries.map Prod.fst = store.entries.map Prod.fst
  slots_eq : c.map.entries.map Prod.snd = List.range c.usedSlots
  used_le : c.usedSlots ≤ c.maxSlots
  length_slots : c.slots.length = c.maxSlots
  max_pos : 0 < c.maxSlots
  max_le : c.maxSlots ≤ 2 * c.usedSlots + 1
  items : ∀ (i : ℕ) (key : UInt64) (item : BackupItem), store.entries[i]? = some (key, item) →
    ∃ slot : BackupItem, c.slots[i]? = some slot ∧ slot.Carries item

variable {garbage} {c : BackupContent} {store : KeyedSlots UInt64 BackupItem}

theorem Refines.used_eq (h : c.Refines store) : c.usedSlots = store.entries.length := by
  have hslots := congrArg List.length h.slots_eq
  have hkeys := congrArg List.length h.keys_eq
  rw [List.length_map, List.length_range] at hslots
  rw [List.length_map, List.length_map] at hkeys
  exact hslots.symm.trans hkeys

/-- A consistent table: the map is a bijection between its keys and the used slots. -/
structure WellFormed (c : BackupContent) : Prop where
  used_eq : c.usedSlots = c.map.entries.length
  used_le : c.usedSlots ≤ c.maxSlots
  injective : ∀ key key' slot, c.map.get? key = some slot → c.map.get? key' = some slot →
    key = key'
  onto : ∀ slot, (∃ key, c.map.get? key = some slot) ↔ slot < c.usedSlots

theorem Refines.wellFormed (h : c.Refines store) : c.WellFormed where
  used_eq := by
    have hlength := congrArg List.length h.slots_eq
    rw [List.length_map, List.length_range] at hlength
    exact hlength.symm
  used_le := h.used_le
  injective := by
    intro key key' slot hkey hkey'
    rw [← KeyedSlots.mem_entries_iff] at hkey hkey'
    have hnodup : (c.map.entries.map Prod.snd).Nodup := by
      rw [h.slots_eq]
      exact List.nodup_range
    exact congrArg Prod.fst (List.inj_on_of_nodup_map hnodup hkey hkey' rfl)
  onto := by
    intro slot
    rw [← List.mem_range, ← h.slots_eq, List.mem_map]
    constructor
    · rintro ⟨key, hkey⟩
      exact ⟨(key, slot), c.map.mem_entries_iff.mpr hkey, rfl⟩
    · rintro ⟨⟨key, slot'⟩, hentry, rfl⟩
      exact ⟨key, c.map.mem_entries_iff.mp hentry⟩

theorem create_refines : create.Refines .empty where
  keys_eq := rfl
  slots_eq := rfl
  used_le := Nat.zero_le 1
  length_slots := rfl
  max_pos := Nat.one_pos
  max_le := le_rfl
  items := by
    intro i key item h
    cases h

/-- The slot of a known key. -/
theorem Refines.get?_of_mem (h : c.Refines store) {key : UInt64}
    (hmem : key ∈ store.entries.map Prod.fst) :
    c.map.get? key = some ((store.entries.map Prod.fst).idxOf key) := by
  have hlt := List.idxOf_lt_length_of_mem hmem
  rw [List.length_map, ← h.used_eq] at hlt
  rw [c.map.get?_eq_getElem?, h.keys_eq, h.slots_eq, List.getElem?_range hlt]

theorem Refines.get?_of_not_mem (h : c.Refines store) {key : UInt64}
    (hmem : key ∉ store.entries.map Prod.fst) : c.map.get? key = none := by
  have hidx := List.idxOf_eq_length hmem
  rw [List.length_map, ← h.used_eq] at hidx
  rw [c.map.get?_eq_getElem?, h.keys_eq, h.slots_eq, hidx, List.getElem?_eq_none]
  rw [List.length_range]

/-- The slots that a larger array keeps. -/
theorem getElem?_expand {i : ℕ} (hlength : c.slots.length = c.maxSlots)
    (hmax : c.maxSlots < 2 ^ 31) (hi : i < c.maxSlots) :
    (c.expand garbage).slots[i]? = c.slots[i]? := by
  have hrange : i < c.maxSlots * 2 % 2 ^ 32 := by omega
  rw [expand, List.getElem?_map, List.getElem?_range hrange, Option.map_some,
    List.getD_eq_getElem?_getD, List.getElem?_eq_getElem (by omega), Option.getD_some]

variable (garbage) in
/-- A known key: its slot is overwritten. -/
theorem Refines.saveBackup_of_mem (h : c.Refines store) {item saved : BackupItem}
    (hitem : item.Carries saved) (hmem : saved.data.key ∈ store.entries.map Prod.fst) :
    ∃ c', c.saveBackup garbage item = some c' ∧ c'.Refines (store.put saved.data.key saved) := by
  have hselect : c.selectSlot garbage item =
      ((store.entries.map Prod.fst).idxOf saved.data.key, c) := by
    simp only [selectSlot, hitem.key_eq, h.get?_of_mem hmem]
  have hlt := List.idxOf_lt_length_of_mem hmem
  obtain ⟨index, hindex⟩ :
      ∃ index, index = (store.entries.map Prod.fst).idxOf saved.data.key := ⟨_, rfl⟩
  rw [← hindex] at hselect hlt
  rw [List.length_map, ← h.used_eq] at hlt
  have hslot : index < c.slots.length := by
    rw [h.length_slots]
    exact hlt.trans_le h.used_le
  refine ⟨{ c with slots := c.slots.set index ((c.slots.get ⟨index, hslot⟩).copyBackupItem item) },
    ?_, ?_⟩
  · simp only [saveBackup, hselect, List.getElem?_eq_getElem hslot, Option.map_some]
    rfl
  · have hput := store.entries_put_of_mem hmem saved
    rw [← hindex] at hput
    constructor
    · rw [store.keys_put_eq, if_pos hmem]
      exact h.keys_eq
    · exact h.slots_eq
    · exact h.used_le
    · simpa using h.length_slots
    · exact h.max_pos
    · exact h.max_le
    · intro i key other hother
      rw [hput, List.getElem?_set] at hother
      rw [List.getElem?_set]
      by_cases hi : index = i
      · rw [if_pos hi] at hother ⊢
        rw [if_pos (h.used_eq ▸ hlt)] at hother
        obtain ⟨-, rfl⟩ := Prod.mk.inj (Option.some.inj hother)
        exact ⟨_, if_pos hslot, hitem.copy _⟩
      · rw [if_neg hi] at hother ⊢
        exact h.items i key other hother

variable (garbage) in
/-- `SelectSlot` for a new key: the next slot, in a larger array if needed. -/
theorem Refines.selectSlot_of_not_mem (h : c.Refines store) {item : BackupItem}
    (hroom : store.entries.length < 2 ^ 30)
    (hmem : item.data.key ∉ store.entries.map Prod.fst) :
    ∃ c', c.selectSlot garbage item = (c.usedSlots, c') ∧
      c'.map = c.map.put item.data.key c.usedSlots ∧ c'.usedSlots = c.usedSlots + 1 ∧
      c.usedSlots < c'.maxSlots ∧ c'.slots.length = c'.maxSlots ∧
      c'.maxSlots ≤ 2 * c.usedSlots + 1 ∧ ∀ i < c.usedSlots, c'.slots[i]? = c.slots[i]? := by
  have hused := h.used_eq
  have hle := h.used_le
  have hpos := h.max_pos
  have hmax := h.max_le
  have hlength := h.length_slots
  have hnext : (c.usedSlots + 1) % 2 ^ 32 = c.usedSlots + 1 := by omega
  by_cases hfull : c.usedSlots = c.maxSlots
  · have hdouble : c.maxSlots * 2 % 2 ^ 32 = c.maxSlots * 2 := by omega
    refine ⟨expand garbage { c with
      usedSlots := c.usedSlots + 1
      map := c.map.put item.data.key c.usedSlots }, ?_, rfl, rfl, ?_, ?_, ?_, ?_⟩
    · simp only [selectSlot, h.get?_of_not_mem hmem, if_pos hfull, hnext]
    · change c.usedSlots < c.maxSlots * 2 % 2 ^ 32
      omega
    · simp [expand]
    · change c.maxSlots * 2 % 2 ^ 32 ≤ 2 * c.usedSlots + 1
      omega
    · intro i hi
      exact getElem?_expand hlength (by dsimp only; omega) (hi.trans_le hle)
  · refine ⟨{ c with usedSlots := c.usedSlots + 1, map := c.map.put item.data.key c.usedSlots },
      ?_, rfl, rfl, ?_, hlength, hmax, fun _ _ => rfl⟩
    · simp only [selectSlot, h.get?_of_not_mem hmem, if_neg hfull, hnext]
    · exact lt_of_le_of_ne hle hfull

variable (garbage) in
/-- A new key: the next slot is written. -/
theorem Refines.saveBackup_of_not_mem (h : c.Refines store) {item saved : BackupItem}
    (hitem : item.Carries saved) (hroom : store.entries.length < 2 ^ 30)
    (hmem : saved.data.key ∉ store.entries.map Prod.fst) :
    ∃ c', c.saveBackup garbage item = some c' ∧ c'.Refines (store.put saved.data.key saved) := by
  rw [← hitem.key_eq] at hmem ⊢
  obtain ⟨c₁, hselect, hmap, hused, hlt, hlength, hmax, hslots⟩ :=
    h.selectSlot_of_not_mem garbage hroom hmem
  have hslot : c.usedSlots < c₁.slots.length := by
    rw [hlength]
    exact hlt
  have hmem' : item.data.key ∉ c.map.entries.map Prod.fst := by
    rw [h.keys_eq]
    exact hmem
  refine ⟨{ c₁ with
    slots := c₁.slots.set c.usedSlots
      ((c₁.slots.get ⟨c.usedSlots, hslot⟩).copyBackupItem item) }, ?_, ?_⟩
  · simp only [saveBackup, hselect, List.getElem?_eq_getElem hslot, Option.map_some]
    rfl
  · constructor
    · change c₁.map.entries.map Prod.fst = _
      rw [hmap, c.map.keys_put_eq, store.keys_put_eq, if_neg hmem, if_neg hmem', h.keys_eq]
    · change c₁.map.entries.map Prod.snd = List.range c₁.usedSlots
      rw [hmap, c.map.entries_put_of_not_mem hmem', List.map_append, h.slots_eq, hused,
        List.range_succ]
      rfl
    · change c₁.usedSlots ≤ c₁.maxSlots
      omega
    · change (c₁.slots.set _ _).length = c₁.maxSlots
      rw [List.length_set, hlength]
    · exact Nat.zero_lt_of_lt hlt
    · change c₁.maxSlots ≤ 2 * c₁.usedSlots + 1
      omega
    · intro i key other hother
      rw [store.entries_put_of_not_mem hmem, List.getElem?_append] at hother
      change ∃ slot : BackupItem, (c₁.slots.set _ _)[i]? = some slot ∧ slot.Carries other
      rw [List.getElem?_set]
      by_cases hi : i < store.entries.length
      · rw [if_pos hi] at hother
        rw [← h.used_eq] at hi
        rw [if_neg (Nat.ne_of_gt hi), hslots i hi]
        exact h.items i key other hother
      · rw [if_neg hi, List.getElem?_singleton] at hother
        have hlast : i = c.usedSlots := by
          rw [h.used_eq]
          by_contra hne
          rw [if_neg (by omega)] at hother
          cases hother
        rw [if_pos (by rw [h.used_eq] at hlast; omega)] at hother
        obtain ⟨-, rfl⟩ := Prod.mk.inj (Option.some.inj hother)
        rw [if_pos hlast.symm, if_pos (hlast ▸ hslot)]
        exact ⟨_, rfl, hitem.copy _⟩

variable (garbage) in
/-- **Refinement.** A save is a put in the store with keyed slots. -/
theorem Refines.saveBackup (h : c.Refines store) {item saved : BackupItem}
    (hitem : item.Carries saved) (hroom : store.entries.length < 2 ^ 30) :
    ∃ c', c.saveBackup garbage item = some c' ∧ c'.Refines (store.put saved.data.key saved) := by
  by_cases hmem : saved.data.key ∈ store.entries.map Prod.fst
  · exact h.saveBackup_of_mem garbage hitem hmem
  · exact h.saveBackup_of_not_mem garbage hitem hroom hmem

/-- One iteration of the loop appends the next item of the store. -/
theorem Refines.appendSlot (h : c.Refines store) {ret : RecoveryItem} {total i curCount : ℕ}
    {items : List BackupItem} (hfilled : ret.Filled total items)
    (hindex : items.length = curCount + i) (hroom : items.length < total) (htotal : total < 2 ^ 32)
    {key : UInt64} {item : BackupItem} (hitem : store.entries[i]? = some (key, item)) :
    ∃ ret', c.appendSlot curCount ret i = some ret' ∧ ret'.count = ret.count ∧
      ret'.Filled total (items ++ [item]) := by
  obtain ⟨src, hsrc, hcarries⟩ := h.items i key item hitem
  have hmod : (curCount + i) % 2 ^ 32 = items.length := by omega
  obtain ⟨dst, hdst⟩ : ∃ dst, ret.slots[items.length]? = some dst :=
    ⟨_, List.getElem?_eq_getElem (by rw [hfilled.length_eq]; exact hroom)⟩
  refine ⟨{ ret with slots := ret.slots.set items.length (dst.copyBackupItem src) }, ?_, rfl,
    hfilled.set hroom (hcarries.copy dst)⟩
  simp only [BackupContent.appendSlot, hmod, hdst, hsrc, Option.bind_some, Option.map_some]

/-- The items of the table are appended, one slot after the other. -/
theorem Refines.appendRecoveryItem (h : c.Refines store) {ret : RecoveryItem} {total : ℕ}
    {items : List BackupItem} (hfilled : ret.Filled total items)
    (hroom : items.length + store.entries.length ≤ total) (htotal : total < 2 ^ 32) :
    ∃ ret', c.appendRecoveryItem ret items.length = some ret' ∧ ret'.count = ret.count ∧
      ret'.Filled total (items ++ store.entries.map Prod.snd) := by
  -- after `n` iterations the first `n` items of the store have been appended
  have hloop : ∀ n ≤ store.entries.length, ∃ ret',
      (List.range n).foldlM (c.appendSlot items.length) ret = some ret' ∧
        ret'.count = ret.count ∧
        ret'.Filled total (items ++ (store.entries.map Prod.snd).take n) := by
    intro n
    induction n with
    | zero =>
        intro _
        exact ⟨ret, rfl, rfl, by simpa using hfilled⟩
    | succ n ih =>
        intro hn
        obtain ⟨ret₁, hfold, hcount, hfilled₁⟩ := ih (Nat.le_of_succ_le hn)
        have hitem : store.entries[n]? = some (store.entries.get ⟨n, hn⟩) :=
          List.getElem?_eq_getElem hn
        have hlength : (items ++ (store.entries.map Prod.snd).take n).length =
            items.length + n := by
          rw [List.length_append, List.length_take, List.length_map]
          omega
        obtain ⟨ret₂, hstep, hcount₂, hfilled₂⟩ :=
          h.appendSlot hfilled₁ hlength (by omega) htotal hitem
        refine ⟨ret₂, ?_, hcount₂.trans hcount, ?_⟩
        · rw [List.range_succ, List.foldlM_append, hfold]
          simpa using hstep
        · rw [List.append_assoc] at hfilled₂
          rwa [List.take_add_one, List.getElem?_map, hitem]
  obtain ⟨ret', hfold, hcount, hfilled'⟩ := hloop store.entries.length le_rfl
  refine ⟨ret', ?_, hcount, ?_⟩
  · rw [BackupContent.appendRecoveryItem, h.used_eq, hfold]
  · rwa [← List.length_map Prod.snd, List.take_length] at hfilled'

end BackupContent

end AFStream.FaultTolerance

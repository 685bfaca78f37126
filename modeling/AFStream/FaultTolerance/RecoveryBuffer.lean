/-
# The memory of a recovery item

The server and a recovering worker both build a `RecoveryItem` for a number of items and
walk over its slots. The offset of a slot is a product with 64 bits, the size of the
memory the same product cut off to 32 bits, and the number of items a sum over tables
that is cut off as well. The worker allocates its memory with the count of the first reply
and walks over it up to the count that the second reply has written into it. The module
finds exactly when all these accesses stay inside the memory, in all states that the
server can be in at the two requests.
-/

import AFStream.FaultTolerance.WorkerIdentity

namespace AFStream.FaultTolerance

open AFStream.Foundation

namespace RecoveryItem

/-- `GetSlot`, as an offset into `raw`. -/
def getSlot (i : ℕ) : ℕ := 4 + sizeofBackupItem * i

/-- The offset behind a slot. -/
def slotEnd (i : ℕ) : ℕ := getSlot i + sizeofBackupItem

/-- The memory for a number of items reaches the end of the last slot. -/
def Covers (count : ℕ) : Prop := 0 < count → slotEnd (count - 1) ≤ size count

variable {garbage : ℕ → BackupItem} {count i : ℕ}

theorem slotEnd_eq (i : ℕ) : slotEnd i = 4 + sizeofBackupItem * (i + 1) := by
  rw [slotEnd, getSlot, Nat.mul_succ, Nat.add_assoc]

theorem size_lt (count : ℕ) : size count < 2 ^ 32 := Nat.mod_lt _ (Nat.two_pow_pos 32)

theorem size_eq (hcount : 4 + sizeofBackupItem * count < 2 ^ 32) :
    size count = 4 + sizeofBackupItem * count := Nat.mod_eq_of_lt hcount

/-- The slots of the model are those that end inside the memory. -/
theorem lt_length_create :
    i < (create garbage count).slots.length ↔ slotEnd i ≤ size count := by
  rw [create, List.length_map, List.length_range, slotEnd_eq, sizeofBackupItem,
    maxBackupItemDataLen]
  omega

/-- The memory suffices exactly when its size needs no more than 32 bits. -/
theorem covers_iff : Covers count ↔ 4 + sizeofBackupItem * count < 2 ^ 32 := by
  constructor
  · intro hcovers
    rcases Nat.eq_zero_or_pos count with rfl | hpos
    · decide
    · have hend := hcovers hpos
      rw [slotEnd_eq, Nat.sub_add_cancel hpos] at hend
      exact hend.trans_lt (size_lt count)
  · intro hcount hpos
    rw [slotEnd_eq, Nat.sub_add_cancel hpos, size_eq hcount]

theorem length_create_lt (garbage : ℕ → BackupItem) (count : ℕ) :
    (create garbage count).slots.length < 2 ^ 32 := by
  rw [create, List.length_map, List.length_range]
  exact (Nat.div_le_self _ _).trans_lt ((Nat.sub_le _ _).trans_lt (size_lt count))

theorem length_create (garbage : ℕ → BackupItem) (hcount : 4 + sizeofBackupItem * count < 2 ^ 32) :
    (create garbage count).slots.length = count := (create_filled garbage hcount).length_eq

end RecoveryItem

/-! ## Tables -/

namespace BackupContent

/-- The used slots lie inside the array of the table and hold items that fit into their
blocks. -/
structure Allocated (c : BackupContent) : Prop where
  length_slots : c.slots.length = c.maxSlots
  max_lt : c.maxSlots < 2 ^ 32
  used_le : c.usedSlots ≤ c.maxSlots
  fits : ∀ i < c.usedSlots, ∀ slot, c.slots[i]? = some slot → slot.Fits

variable {garbage : ℕ → BackupItem} {c c' : BackupContent} {item : BackupItem}

theorem create_allocated : create.Allocated where
  length_slots := rfl
  max_lt := by decide
  used_le := Nat.zero_le 1
  fits := by
    intro i hi
    cases hi

/-- The slots that a larger array keeps hold what they held. -/
theorem Allocated.fits_expand (h : c.Allocated) {i : ℕ} (hi : i < c.usedSlots) {slot : BackupItem}
    (hslot : (c.expand garbage).slots[i]? = some slot) : slot.Fits := by
  have hlt : i < c.slots.length := by
    rw [h.length_slots]
    exact hi.trans_le h.used_le
  rw [expand, List.getElem?_map, Option.map_eq_some_iff] at hslot
  obtain ⟨j, hj, rfl⟩ := hslot
  obtain ⟨-, rfl⟩ := List.getElem?_eq_some_iff.mp hj
  rw [List.getElem_range, List.getD_eq_getElem?_getD, List.getElem?_eq_getElem hlt,
    Option.getD_some]
  exact h.fits i hi _ (List.getElem?_eq_getElem hlt)

/-- If the slot that `SelectSlot` returns exists, then all used slots do. -/
theorem Allocated.selectSlot (h : c.Allocated) {index : ℕ}
    (hselect : c.selectSlot garbage item = (index, c')) (hindex : index < c'.slots.length) :
    c'.slots.length = c'.maxSlots ∧ c'.maxSlots < 2 ^ 32 ∧ c'.usedSlots ≤ c'.maxSlots ∧
      c.usedSlots ≤ c'.usedSlots ∧
      ∀ i < c'.usedSlots, i ≠ index → ∀ slot, c'.slots[i]? = some slot → slot.Fits := by
  have hmax := h.max_lt
  have hnext : (c.usedSlots + 1) % 2 ^ 32 ≤ c.usedSlots + 1 := Nat.mod_le _ _
  have hbefore : ∀ i < (c.usedSlots + 1) % 2 ^ 32, i ≠ c.usedSlots → i < c.usedSlots := by
    omega
  cases hkey : c.map.get? item.data.key with
  | some ret =>
      simp only [BackupContent.selectSlot, hkey, Prod.mk.injEq] at hselect
      obtain ⟨rfl, rfl⟩ := hselect
      exact ⟨h.length_slots, hmax, h.used_le, le_rfl, fun i hi _ => h.fits i hi⟩
  | none =>
      simp only [BackupContent.selectSlot, hkey, Prod.mk.injEq] at hselect
      obtain ⟨rfl, rfl⟩ := hselect
      by_cases hfull : c.usedSlots = c.maxSlots
      · rw [if_pos hfull] at hindex ⊢
        have hlength : c.usedSlots < c.maxSlots * 2 % 2 ^ 32 := by simpa [expand] using hindex
        refine ⟨by simp [expand], Nat.mod_lt _ (Nat.two_pow_pos 32), hnext.trans hlength, ?_, ?_⟩
        · change c.usedSlots ≤ (c.usedSlots + 1) % 2 ^ 32
          omega
        intro i hi hne slot hslot
        exact h.fits_expand (hbefore i hi hne) hslot
      · rw [if_neg hfull] at hindex ⊢
        have hlt := lt_of_le_of_ne h.used_le hfull
        refine ⟨h.length_slots, hmax, hnext.trans hlt, ?_, ?_⟩
        · change c.usedSlots ≤ (c.usedSlots + 1) % 2 ^ 32
          omega
        intro i hi hne slot hslot
        exact h.fits i (hbefore i hi hne) slot hslot

/-- A save of an item that fits keeps all this, if it does not leave the array. No item is
lost. -/
theorem Allocated.saveBackup (h : c.Allocated) (hfits : item.Fits)
    (hsave : c.saveBackup garbage item = some c') :
    c'.Allocated ∧ c.getCount ≤ c'.getCount := by
  obtain ⟨⟨index, c₁⟩, hselect⟩ : ∃ result, c.selectSlot garbage item = result := ⟨_, rfl⟩
  simp only [BackupContent.saveBackup, hselect] at hsave
  obtain ⟨slot, hslot, rfl⟩ := Option.map_eq_some_iff.mp hsave
  have hindex := (List.getElem?_eq_some_iff.mp hslot).1
  obtain ⟨hlength, hmax, hused, hgrows, hothers⟩ := h.selectSlot hselect hindex
  refine ⟨⟨(List.length_set ..).trans hlength, hmax, hused, ?_⟩, hgrows⟩
  intro i hi other hother
  by_cases hi' : i = index
  · subst hi'
    rw [List.getElem?_set_self hindex] at hother
    obtain rfl := Option.some.inj hother
    exact hfits
  · rw [List.getElem?_set_ne (Ne.symm hi')] at hother
    exact hothers i hi hi' other hother

/-! ## The loops of the server -/

/-- One iteration of `AppendRecoveryItem`: defined if both slots exist. -/
theorem appendSlot_of_lt {ret : RecoveryItem} {room curCount i : ℕ}
    (hlength : ret.slots.length = room) (hroom : room < 2 ^ 32) (hindex : curCount + i < room)
    (hi : i < c.slots.length) :
    ∃ ret', c.appendSlot curCount ret i = some ret' ∧ ret'.slots.length = room := by
  have hmod : (curCount + i) % 2 ^ 32 = curCount + i := Nat.mod_eq_of_lt (hindex.trans hroom)
  obtain ⟨dst, hdst⟩ : ∃ dst, ret.slots[curCount + i]? = some dst :=
    ⟨_, List.getElem?_eq_getElem (hlength.symm ▸ hindex)⟩
  obtain ⟨src, hsrc⟩ : ∃ src, c.slots[i]? = some src := ⟨_, List.getElem?_eq_getElem hi⟩
  refine ⟨{ ret with slots := ret.slots.set (curCount + i) (dst.copyBackupItem src) }, ?_, ?_⟩
  · simp only [appendSlot, hmod, hdst, hsrc, Option.bind_some, Option.map_some]
  · rwa [List.length_set]

/-- The first slot behind the memory ends the loop. -/
theorem appendSlot_eq_none {ret : RecoveryItem} {room curCount i : ℕ}
    (hlength : ret.slots.length = room) (hroom : room < 2 ^ 32) (hindex : curCount + i = room) :
    c.appendSlot curCount ret i = none := by
  have hmod : (curCount + i) % 2 ^ 32 = room := by
    rw [hindex, Nat.mod_eq_of_lt hroom]
  simp only [appendSlot, hmod, List.getElem?_eq_none hlength.le, Option.bind_none]

/-- `AppendRecoveryItem` neither changes the count of the item nor its memory. -/
theorem appendRecoveryItem_shape {ret ret' : RecoveryItem} {curCount : ℕ}
    (happend : c.appendRecoveryItem ret curCount = some ret') :
    ret'.count = ret.count ∧ ret'.slots.length = ret.slots.length := by
  refine foldlM_preserves (P := fun item : RecoveryItem =>
    item.count = ret.count ∧ item.slots.length = ret.slots.length) ?_ ⟨rfl, rfl⟩ happend
  intro item i next hitem hnext
  obtain ⟨dst, -, hcopy⟩ := Option.bind_eq_some_iff.mp hnext
  obtain ⟨src, -, rfl⟩ := Option.map_eq_some_iff.mp hcopy
  exact ⟨hitem.1, (List.length_set ..).trans hitem.2⟩

/-- `AppendRecoveryItem` stays inside the memory exactly when there is room for all used
slots. -/
theorem Allocated.appendRecoveryItem (h : c.Allocated) {ret : RecoveryItem} {room curCount : ℕ}
    (hlength : ret.slots.length = room) (hroom : room < 2 ^ 32) (hcur : curCount ≤ room) :
    (curCount + c.getCount ≤ room → ∃ ret', c.appendRecoveryItem ret curCount = some ret' ∧
      ret'.slots.length = room) ∧
    (¬ curCount + c.getCount ≤ room → c.appendRecoveryItem ret curCount = none) := by
  have hslots : c.usedSlots ≤ c.slots.length := by
    rw [h.length_slots]
    exact h.used_le
  -- after `n` iterations the slots up to `cur_count + n` have been written
  have hloop : ∀ n ≤ c.usedSlots,
      (curCount + n ≤ room → ∃ ret', (List.range n).foldlM (c.appendSlot curCount) ret = some ret' ∧
        ret'.slots.length = room) ∧
      (¬ curCount + n ≤ room → (List.range n).foldlM (c.appendSlot curCount) ret = none) := by
    intro n
    induction n with
    | zero => exact fun _ => ⟨fun _ => ⟨ret, rfl, hlength⟩, fun hlarge => absurd hcur hlarge⟩
    | succ n ih =>
        intro hn
        obtain ⟨hsome, hnone⟩ := ih (Nat.le_of_succ_le hn)
        rw [List.range_succ, List.foldlM_append]
        by_cases hbefore : curCount + n ≤ room
        · obtain ⟨ret₁, hfold, hlength₁⟩ := hsome hbefore
          rw [hfold, Option.bind_eq_bind, Option.bind_some, List.foldlM_cons]
          constructor
          · intro hnext
            obtain ⟨ret₂, hstep, hlength₂⟩ :=
              appendSlot_of_lt (c := c) hlength₁ hroom hnext (hn.trans hslots)
            exact ⟨ret₂, by rw [hstep]; rfl, hlength₂⟩
          · intro hnext
            rw [appendSlot_eq_none hlength₁ hroom (by omega)]
            rfl
        · rw [hnone hbefore]
          exact ⟨fun hnext => absurd hnext (by omega), fun _ => rfl⟩
  exact hloop c.usedSlots le_rfl

end BackupContent

namespace BackupServer

/-- The loop over all tables stays inside the memory exactly when there is room for all
items. -/
theorem appendAll_room {contents : List BackupContent}
    (hallocated : ∀ content ∈ contents, content.Allocated) {ret : RecoveryItem}
    {room curCount : ℕ} (hlength : ret.slots.length = room) (hroom : room < 2 ^ 32)
    (hcur : curCount ≤ room) :
    (∃ state, appendAll contents (ret, curCount) = some state) ↔
      curCount + itemCount contents ≤ room := by
  induction contents generalizing ret curCount with
  | nil => exact ⟨fun _ => hcur, fun _ => ⟨_, rfl⟩⟩
  | cons content contents ih =>
      obtain ⟨hsome, hnone⟩ :=
        (hallocated content List.mem_cons_self).appendRecoveryItem hlength hroom hcur
      rw [itemCount_cons, appendAll, List.foldlM_cons]
      by_cases hfirst : curCount + content.getCount ≤ room
      · obtain ⟨ret', happend, hlength'⟩ := hsome hfirst
        have hmod : (curCount + content.getCount) % 2 ^ 32 = curCount + content.getCount :=
          Nat.mod_eq_of_lt (hfirst.trans_lt hroom)
        rw [happend, Option.map_some, Option.bind_eq_bind, Option.bind_some, hmod,
          ← Nat.add_assoc]
        exact ih (fun other hother => hallocated other (List.mem_cons_of_mem _ hother))
          hlength' hfirst
      · rw [hnone hfirst]
        constructor
        · rintro ⟨state, hstate⟩
          cases hstate
        · intro hall
          omega

/-- The loop over all tables neither changes the count of the item nor its memory. -/
theorem appendAll_shape {contents : List BackupContent} {start state : RecoveryItem × ℕ}
    (happend : appendAll contents start = some state) :
    state.1.count = start.1.count ∧ state.1.slots.length = start.1.slots.length := by
  refine foldlM_preserves (P := fun state : RecoveryItem × ℕ =>
    state.1.count = start.1.count ∧ state.1.slots.length = start.1.slots.length)
    ?_ ⟨rfl, rfl⟩ happend
  intro state content next hstate hnext
  obtain ⟨ret, hret, rfl⟩ := Option.map_eq_some_iff.mp hnext
  obtain ⟨hcount, hlength⟩ := BackupContent.appendRecoveryItem_shape hret
  exact ⟨hcount.trans hstate.1, hlength.trans hstate.2⟩

/-! ## Every state of the server -/

/-- All tables are allocated. -/
def Allocated (s : BackupServer) : Prop := ∀ content ∈ s.contents, content.Allocated

variable {garbage : ℕ → BackupItem} {numSender : ℕ} {s s' : BackupServer} {r : BackupItem}

/-- The number of items in the table at an address. -/
def countAt (s : BackupServer) (address : ℕ) : ℕ :=
  s.contents[address]?.elim 0 BackupContent.getCount

/-- A server whose tables keep their places and their items. -/
structure Grows (s s' : BackupServer) : Prop where
  counts : ∀ address, s.countAt address ≤ s'.countAt address
  tables : ∀ worker, s.workerOpsNew worker <+: s'.workerOpsNew worker

theorem Grows.of_eq (hcontents : s'.contents = s.contents)
    (htables : s'.workerOpsNew = s.workerOpsNew) : s.Grows s' := by
  constructor
  · intro address
    rw [countAt, countAt, hcontents]
  · intro worker
    rw [htables]

theorem Grows.refl (s : BackupServer) : s.Grows s := .of_eq rfl rfl

theorem Grows.trans {s₁ s₂ s₃ : BackupServer} (h : s₁.Grows s₂) (h' : s₂.Grows s₃) :
    s₁.Grows s₃ :=
  ⟨fun address => (h.counts address).trans (h'.counts address),
    fun worker => (h.tables worker).trans (h'.tables worker)⟩

theorem itemCount_workerContents (s : BackupServer) (worker : UInt16) :
    itemCount (s.workerContents worker) = ((s.workerOpsNew worker).map s.countAt).sum := by
  rw [workerContents]
  induction s.workerOpsNew worker with
  | nil => rfl
  | cons address rest ih =>
      rw [List.map_cons, List.sum_cons, ← ih, countAt]
      cases hcontent : s.contents[address]? with
      | none => rw [List.filterMap_cons_none hcontent, Option.elim_none, Nat.zero_add]
      | some content =>
          rw [List.filterMap_cons_some hcontent, itemCount_cons, Option.elim_some]

/-- Every worker has at least as many items as before. -/
theorem Grows.itemCount_le (h : s.Grows s') (worker : UInt16) :
    itemCount (s.workerContents worker) ≤ itemCount (s'.workerContents worker) := by
  obtain ⟨added, hadded⟩ := h.tables worker
  rw [itemCount_workerContents, itemCount_workerContents, ← hadded, List.map_append,
    List.sum_append]
  exact (List.sum_le_sum fun address _ => h.counts address).trans (Nat.le_add_right _ _)

/-- The table that is found or created leaves the buffer and the other tables alone. -/
theorem Allocated.findContent (h : s.Allocated) :
    s.findContent.2.Allocated ∧ s.findContent.2.backupItem = s.backupItem ∧
      s.Grows s.findContent.2 := by
  rw [BackupServer.findContent]
  cases s.ops s.backupItem.opKey with
  | some address => exact ⟨h, rfl, .refl s⟩
  | none =>
      refine ⟨?_, rfl, ?_, ?_⟩
      · intro content hcontent
        rcases List.mem_append.mp hcontent with hold | hnew
        · exact h content hold
        · rw [List.mem_singleton.mp hnew]
          exact BackupContent.create_allocated
      · intro address
        rw [countAt, countAt]
        cases hcontent : s.contents[address]? with
        | none => exact Nat.zero_le _
        | some content =>
            rw [List.getElem?_append_left (List.getElem?_eq_some_iff.mp hcontent).1, hcontent]
      · intro worker
        by_cases hsame : worker = s.backupItem.info.workerId.toUInt16
        · subst hsame
          simp only [Function.update_self]
          exact List.prefix_append _ _
        · simp only [Function.update_of_ne hsame]
          exact List.prefix_rfl

theorem Allocated.save (h : s.Allocated) (hfits : s.backupItem.Fits)
    (hsave : s.save garbage = some s') : s'.Allocated ∧ s.Grows s' := by
  obtain ⟨hallocated, hbuffer, hgrows⟩ := h.findContent
  obtain ⟨⟨found, s₁⟩, hfind⟩ : ∃ result, s.findContent = result := ⟨_, rfl⟩
  simp only [hfind] at hallocated hbuffer hgrows
  simp only [BackupServer.save, hfind] at hsave
  obtain ⟨content, hcontent, hmap⟩ := Option.bind_eq_some_iff.mp hsave
  obtain ⟨content', hcontent', rfl⟩ := Option.map_eq_some_iff.mp hmap
  have hold := hallocated content (List.mem_of_getElem? hcontent)
  rw [← hbuffer] at hfits
  obtain ⟨hnew, hcount⟩ := hold.saveBackup hfits hcontent'
  refine ⟨?_, hgrows.trans ⟨?_, fun worker => List.prefix_rfl⟩⟩
  · intro other hother
    rcases List.mem_or_eq_of_mem_set hother with hkept | rfl
    · exact hallocated other hkept
    · exact hnew
  · intro address
    rw [countAt, countAt, List.getElem?_set]
    by_cases hsame : found = address
    · subst hsame
      rw [if_pos rfl, if_pos (List.getElem?_eq_some_iff.mp hcontent).1, hcontent]
      exact hcount
    · rw [if_neg hsame]

/-- Every request keeps all tables allocated and their items. -/
theorem Allocated.handle (h : s.Allocated) (hfits : r.IsSave → r.Fits) {reply : Reply}
    (hhandle : s.handle garbage numSender r = some (reply, s')) : s'.Allocated ∧ s.Grows s' := by
  have hreceive : (s.receive r).Allocated := h
  have hsame : s.Grows (s.receive r) := .of_eq rfl rfl
  simp only [BackupServer.handle] at hhandle
  split_ifs at hhandle with hleft hop hlen hop₁ hop₂
  · obtain ⟨-, rfl⟩ := Prod.mk.inj (Option.some.inj hhandle)
    exact ⟨h, .of_eq rfl rfl⟩
  · obtain ⟨s₁, hsave, hreply⟩ := Option.map_eq_some_iff.mp hhandle
    obtain ⟨-, rfl⟩ := Prod.mk.inj hreply
    have hfits' : (s.receive r).backupItem.Fits := hfits (show r.IsSave from ⟨hop, hlen⟩)
    exact (hreceive.save hfits' hsave).imp_right hsame.trans
  · obtain ⟨-, rfl⟩ := Prod.mk.inj (Option.some.inj hhandle)
    exact ⟨h, hsame⟩
  · obtain ⟨s₁, -, hreply⟩ := Option.map_eq_some_iff.mp hhandle
    obtain ⟨-, rfl⟩ := Prod.mk.inj hreply
    exact ⟨h, hsame⟩

/-- So does every sequence of requests whose saves fit. -/
theorem Allocated.runFrom {requests : List BackupItem} (h : s.Allocated)
    (hfits : ∀ r ∈ requests, r.IsSave → r.Fits)
    (hrun : (machine garbage numSender).runFrom s requests = some s') :
    s'.Allocated ∧ s.Grows s' := by
  induction requests generalizing s with
  | nil =>
      obtain rfl := Option.some.inj hrun
      exact ⟨h, .refl s⟩
  | cons r rest ih =>
      rw [Machine.runFrom_cons] at hrun
      obtain ⟨middle, hstep, hrest⟩ := Option.bind_eq_some_iff.mp hrun
      obtain ⟨⟨reply, next⟩, hhandle, rfl⟩ := Option.map_eq_some_iff.mp hstep
      obtain ⟨hnext, hgrows⟩ := h.handle (hfits r List.mem_cons_self) hhandle
      obtain ⟨hfinal, hgrows'⟩ :=
        ih hnext (fun r hr => hfits r (List.mem_cons_of_mem _ hr)) hrest
      exact ⟨hfinal, hgrows.trans hgrows'⟩

theorem create_allocated : create.Allocated := by
  intro content hcontent
  cases hcontent

theorem Allocated.workerContents (h : s.Allocated) (worker : UInt16) :
    ∀ content ∈ s.workerContents worker, content.Allocated := by
  intro content hcontent
  obtain ⟨address, -, haddress⟩ := List.mem_filterMap.mp hcontent
  exact h content (List.mem_of_getElem? haddress)

/-- Everything that a recovering worker and the server touch in the memory of their recovery
items lies inside of it. The server is in the first state at the count request and in the
second one at the data request. -/
structure RecoversInside (garbage : ℕ → BackupItem) (counted s : BackupServer)
    (worker : UInt16) : Prop where
  /-- The memory of the server reaches the end of its last slot. -/
  covers : RecoveryItem.Covers (totCount (s.workerContents worker))
  /-- So does the memory of the worker. -/
  covers_counted : RecoveryItem.Covers (totCount (counted.workerContents worker))
  /-- The loop over all tables finds all its slots. -/
  server : ∃ state, appendAll (s.workerContents worker)
    (.create garbage (totCount (s.workerContents worker)), 0) = some state
  /-- What it copies fits into a slot. -/
  fits : ∀ content ∈ s.workerContents worker, ∀ i < content.usedSlots,
    ∀ slot, content.slots[i]? = some slot → slot.Fits
  /-- `RecoverOps` walks up to the count that it finds in the memory. -/
  client : ∀ reply, s.recoveryData garbage worker = some (.data reply) →
    ∀ i < (receiveData (totCount (counted.workerContents worker)) reply).count,
      RecoveryItem.slotEnd i ≤ RecoveryItem.size (totCount (counted.workerContents worker))
  /-- It does not run into the end of what has been received. -/
  recoverOps : ∀ reply, s.recoveryData garbage worker = some (.data reply) →
    ∀ tracker : OperatorTracker,
      tracker.recoverOps (receiveData (totCount (counted.workerContents worker)) reply) ≠
        .error .overrun

end BackupServer

/-- `RecoverOps` does not leave memory that has all its slots. -/
theorem OperatorTracker.recoverOps_ne_overrun (tracker : OperatorTracker)
    {recoveryItem : RecoveryItem} (hslots : recoveryItem.count ≤ recoveryItem.slots.length) :
    tracker.recoverOps recoveryItem ≠ .error .overrun := by
  have hstep : ∀ i < recoveryItem.slots.length,
      tracker.recoverOp recoveryItem i ≠ .error .overrun := by
    intro i hi hstep
    rw [OperatorTracker.recoverOp, List.getElem?_eq_getElem hi] at hstep
    dsimp only at hstep
    split_ifs at hstep
    cases hstep
  exact mapM_ne_error fun i hi => hstep i ((List.mem_range.mp hi).trans_le hslots)

namespace BackupServer

variable {garbage : ℕ → BackupItem} {numSender : ℕ} {counted s s' : BackupServer} {r : BackupItem}

/-- The reply to a data request has the count of the server, and a slot for each item. -/
theorem shape_of_recoveryData {worker : UInt16} {reply : RecoveryItem}
    (hreply : s.recoveryData garbage worker = some (.data reply)) :
    reply.count = totCount (s.workerContents worker) ∧
      reply.slots.length =
        (RecoveryItem.create garbage (totCount (s.workerContents worker))).slots.length ∧
      RecoveryItem.size (totCount (s.workerContents worker)) < 2 ^ 31 := by
  obtain ⟨state, happend, hwrite⟩ := Option.bind_eq_some_iff.mp hreply
  rw [zWrite] at hwrite
  split_ifs at hwrite with hsize
  obtain ⟨hcount, hlength⟩ := appendAll_shape happend
  cases hwrite
  exact ⟨hcount, hlength, hsize⟩

/-- The server can fill the memory that it allocates exactly when its size has at most
32 bits. -/
theorem Allocated.appendAll_iff (h : s.Allocated) (garbage : ℕ → BackupItem) (worker : UInt16) :
    RecoveryItem.Covers (totCount (s.workerContents worker)) ∧
      (∃ state, appendAll (s.workerContents worker)
        (.create garbage (totCount (s.workerContents worker)), 0) = some state) ↔
      4 + sizeofBackupItem * itemCount (s.workerContents worker) < 2 ^ 32 := by
  have hallocated := h.workerContents worker
  have htot := totCount_eq (s.workerContents worker)
  have hrange := RecoveryItem.length_create_lt garbage (totCount (s.workerContents worker))
  rw [appendAll_room hallocated rfl hrange (Nat.zero_le _), RecoveryItem.covers_iff, Nat.zero_add]
  constructor
  · rintro ⟨hcovers, hroom⟩
    rw [Nat.mod_eq_of_lt (hroom.trans_lt hrange)] at htot
    rwa [← htot]
  · intro hsize
    rw [Nat.mod_eq_of_lt (by rw [sizeofBackupItem, maxBackupItemDataLen] at hsize; omega)] at htot
    rw [← htot] at hsize ⊢
    exact ⟨hsize, (RecoveryItem.length_create garbage hsize).ge⟩

/-- The server sends its reply if the size fits into an `int`. -/
theorem Allocated.exists_recoveryData (h : s.Allocated) {worker : UInt16}
    (hsize : 4 + sizeofBackupItem * itemCount (s.workerContents worker) < 2 ^ 31) :
    ∃ reply, s.recoveryData garbage worker = some (.data reply) := by
  have hsize' := hsize.trans (show 2 ^ 31 < 2 ^ 32 by decide)
  obtain ⟨-, state, hstate⟩ := (h.appendAll_iff garbage worker).mpr hsize'
  have htot := totCount_eq (s.workerContents worker)
  rw [Nat.mod_eq_of_lt (by rw [sizeofBackupItem, maxBackupItemDataLen] at hsize; omega)] at htot
  have hwrite : RecoveryItem.size (totCount (s.workerContents worker)) < 2 ^ 31 := by
    rw [htot, RecoveryItem.size_eq hsize']
    exact hsize
  refine ⟨state.1, ?_⟩
  simp only [recoveryData, hstate, Option.bind_some, zWrite, if_pos hwrite]

/-- The accesses for a worker stay inside the memory exactly when the size that all its items
need has at most 32 bits and, if the server can send them, none of them is new since the count
request. -/
theorem Allocated.inside_iff (h : s.Allocated) (hgrows : counted.Grows s) (worker : UInt16) :
    RecoversInside garbage counted s worker ↔
      4 + sizeofBackupItem * itemCount (s.workerContents worker) < 2 ^ 32 ∧
      (4 + sizeofBackupItem * itemCount (s.workerContents worker) < 2 ^ 31 →
        itemCount (s.workerContents worker) = itemCount (counted.workerContents worker)) := by
  have hle := hgrows.itemCount_le worker
  have htot := totCount_eq (s.workerContents worker)
  have htot' := totCount_eq (counted.workerContents worker)
  -- up to the bound no sum overflows, and the client's memory has room for what was counted
  have hsmall : 4 + sizeofBackupItem * itemCount (s.workerContents worker) < 2 ^ 32 →
      totCount (s.workerContents worker) = itemCount (s.workerContents worker) ∧
      totCount (counted.workerContents worker) = itemCount (counted.workerContents worker) ∧
      4 + sizeofBackupItem * itemCount (counted.workerContents worker) < 2 ^ 32 := by
    intro hsize
    rw [sizeofBackupItem, maxBackupItemDataLen] at hsize ⊢
    rw [htot, htot']
    omega
  constructor
  · intro hinside
    have hsize := (h.appendAll_iff garbage worker).mp ⟨hinside.covers, hinside.server⟩
    refine ⟨hsize, fun hsend => ?_⟩
    obtain ⟨heq, heq', hsize'⟩ := hsmall hsize
    obtain ⟨reply, hreply⟩ := h.exists_recoveryData hsend
    by_contra hne
    have hlt := lt_of_le_of_ne hle (Ne.symm hne)
    have hend := hinside.client reply hreply (itemCount (counted.workerContents worker)) (by
      rw [receiveData, (shape_of_recoveryData hreply).1, heq]
      exact hlt)
    rw [heq', RecoveryItem.size_eq hsize', RecoveryItem.slotEnd_eq, sizeofBackupItem,
      maxBackupItemDataLen] at hend
    omega
  · rintro ⟨hsize, hnew⟩
    obtain ⟨heq, heq', hsize'⟩ := hsmall hsize
    obtain ⟨hcovers, hserver⟩ := (h.appendAll_iff garbage worker).mpr hsize
    -- a reply that arrives has as many items as the worker has counted
    have hsame : ∀ reply, s.recoveryData garbage worker = some (.data reply) →
        itemCount (s.workerContents worker) = itemCount (counted.workerContents worker) := by
      intro reply hreply
      have hwrite := (shape_of_recoveryData hreply).2.2
      rw [heq, RecoveryItem.size_eq hsize] at hwrite
      exact hnew hwrite
    refine ⟨hcovers, ?_, hserver, fun content hcontent => (h.workerContents worker content
      hcontent).fits, ?_, ?_⟩
    · rw [heq']
      exact RecoveryItem.covers_iff.mpr hsize'
    · intro reply hreply i hi
      rw [receiveData, (shape_of_recoveryData hreply).1, heq, hsame reply hreply] at hi
      rw [heq', RecoveryItem.slotEnd_eq, RecoveryItem.size_eq hsize']
      exact Nat.add_le_add_left (Nat.mul_le_mul_left _ hi) 4
    · intro reply hreply tracker
      obtain ⟨hcount, hlength, -⟩ := shape_of_recoveryData hreply
      apply tracker.recoverOps_ne_overrun
      have hroom : (RecoveryItem.size (itemCount (counted.workerContents worker)) - 4) /
          sizeofBackupItem = itemCount (counted.workerContents worker) := by
        rw [RecoveryItem.size_eq hsize', Nat.add_sub_cancel_left,
          Nat.mul_div_cancel_left _ (by decide)]
      rw [receiveData, List.length_take, hlength, hcount, heq, heq',
        RecoveryItem.length_create garbage hsize, hroom, hsame reply hreply, min_self]

/-- **Recovery buffers.** The memory for a count covers all its slots exactly when its size
has at most 32 bits. A worker asks for its count after some requests and for its items after
some more, with saves that fit into their blocks, and the server has served them all. Then all
accesses to the memory of the two recovery items stay inside of it exactly when this holds of
the number of items at the second request, and, if their reply can be sent at all, this is
the number at the first request. -/
theorem recoversInside_iff (garbage : ℕ → BackupItem) (numSender : ℕ)
    (before between : List BackupItem) (hfits : ∀ r ∈ before ++ between, r.IsSave → r.Fits)
    (hcounted : (machine garbage numSender).runFrom create before = some counted)
    (hrun : (machine garbage numSender).runFrom counted between = some s) (worker : UInt16) :
    (∀ count : UInt32, RecoveryItem.Covers count.toNat ↔
      4 + sizeofBackupItem * count.toNat < 2 ^ 32) ∧
    (RecoversInside garbage counted s worker ↔
      4 + sizeofBackupItem * itemCount (s.workerContents worker) < 2 ^ 32 ∧
      (4 + sizeofBackupItem * itemCount (s.workerContents worker) < 2 ^ 31 →
        itemCount (s.workerContents worker) = itemCount (counted.workerContents worker))) := by
  obtain ⟨hallocated, -⟩ := create_allocated.runFrom
    (fun r hr => hfits r (List.mem_append_left _ hr)) hcounted
  obtain ⟨hallocated', hgrows⟩ := hallocated.runFrom
    (fun r hr => hfits r (List.mem_append_right _ hr)) hrun
  exact ⟨fun _ => RecoveryItem.covers_iff, hallocated'.inside_iff hgrows worker⟩

/-- Saves under different keys, up to one more than the size of a reply can count. -/
theorem run_keySaves_succ (garbage : ℕ → BackupItem) (numSender : ℕ) {bound : ℕ}
    (hbound : sizeofBackupItem * bound < 2 ^ 32) :
    ∃ s, (machine garbage numSender).runFrom create (keySaves (bound + 1)) = some s ∧
      s.Allocated ∧ itemCount (s.workerContents 0) = bound + 1 := by
  have hvalid : ∀ r ∈ keySaves (bound + 1), r.ValidRequest :=
    fun r hr => (isSave_of_mem_keySaves hr).1
  obtain ⟨haccepted, s, hs⟩ := run_keySaves garbage numSender hbound
  have hlast : keySaves (bound + 1) = keySaves bound ++ [keySave bound] := by
    rw [keySaves, List.range_succ, List.map_append]
    rfl
  have hmem : keySave bound ∈ keySaves (bound + 1) := by
    rw [hlast]
    exact List.mem_append_right _ List.mem_cons_self
  obtain ⟨s', hs', hinv⟩ := (Inv.run garbage numSender haccepted hs).handle_save garbage numSender
    haccepted (hvalid _ hmem) (isSave_of_mem_keySaves hmem).2
  have hrun : (machine garbage numSender).runFrom create (keySaves (bound + 1)) = some s' := by
    rw [hlast]
    refine Machine.runFrom_concat_eq_some.mpr ⟨s, hs, ?_⟩
    change (s.handle garbage numSender (keySave bound)).map Prod.snd = some s'
    rw [hs']
    rfl
  refine ⟨s', hrun, (create_allocated.runFrom
    (fun r hr hsave => ((hvalid r hr).save hsave.1).2) hrun).1, ?_⟩
  rw [← hlast] at hinv
  obtain ⟨ids, hids, hrefines⟩ := hinv.workerContents 0
  have hsmall : bound + 1 < 2 ^ 64 := by
    rw [sizeofBackupItem, maxBackupItemDataLen] at hbound
    omega
  have hcount := itemCount_eq hrefines
  rwa [hids.length_storeItems hvalid (by decide), card_savedIds_keySaves hsmall] at hcount

/-- With two items, one of them saved again between the two requests, all accesses stay
inside. -/
theorem recoversInside_iff_two_saves :
    ∃ counted s, (machine (fun _ => .zero) 1).runFrom create (keySaves 2) = some counted ∧
      (machine (fun _ => .zero) 1).runFrom counted [keySave 1] = some s ∧
      RecoversInside (fun _ => .zero) counted s 0 := by
  have hcounts : ((machine (fun _ => .zero) 1).runFrom create (keySaves 2)).bind (fun counted =>
      ((machine (fun _ => .zero) 1).runFrom counted [keySave 1]).map fun s =>
        (itemCount (counted.workerContents 0), itemCount (s.workerContents 0))) = some (2, 2) := by
    decide +kernel
  obtain ⟨counted, hcounted, hrest⟩ := Option.bind_eq_some_iff.mp hcounts
  obtain ⟨s, hs, hpair⟩ := Option.map_eq_some_iff.mp hrest
  obtain ⟨hfirst, hsecond⟩ := Prod.mk.inj hpair
  have hfits : ∀ r ∈ keySaves 2 ++ [keySave 1], r.IsSave → r.Fits := by
    decide +kernel
  refine ⟨counted, s, hcounted, hs, (recoversInside_iff _ 1 _ _ hfits hcounted hs 0).2.mpr ?_⟩
  rw [hfirst, hsecond]
  exact ⟨by decide, fun _ => rfl⟩

/-- With 14913081 items the size is cut off to 36 bytes: they do not even hold the first
slot. -/
theorem not_recoversInside_large :
    RecoveryItem.size 14913081 = 36 ∧ ¬ RecoveryItem.Covers 14913081 ∧
      ∃ s, (machine (fun _ => .zero) 1).runFrom create (keySaves 14913081) = some s ∧
        ¬ RecoversInside (fun _ => .zero) s s 0 := by
  refine ⟨by decide, fun hcovers => ?_, ?_⟩
  · exact absurd (RecoveryItem.covers_iff.mp hcovers) (by decide)
  · obtain ⟨s, hs, hallocated, hcount⟩ := run_keySaves_succ (fun _ => .zero) 1
      (show sizeofBackupItem * 14913080 < 2 ^ 32 by decide)
    refine ⟨s, hs, fun hinside => ?_⟩
    have hsize := ((hallocated.inside_iff (.refl s) 0).mp hinside).1
    rw [hcount] at hsize
    exact absurd hsize (by decide)

end BackupServer

end AFStream.FaultTolerance

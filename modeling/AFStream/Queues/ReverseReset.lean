/-
# Resetting the reverse channel

`FlushReverseWriter` empties the free rings of a writer and fills them again: `Clean` pops as
many slots as `clean_cnt` leaves over, and `Init` pushes all slots into ring `0`. The counter
is not initialised and grows with each `Init`, and a cell of a ring can be used again only
when the batch it was popped in is complete. The module determines when the reset ends, and
ends with every slot in its place, in all runs of the channel with any number of resets.
-/

import AFStream.Queues.Channel

namespace AFStream.Queues

open AFStream.Foundation

universe u

/-! ## Popping a ring empty -/

namespace ZeroRingBuffer

variable {T : Type u} {q q' : ZeroRingBuffer T}

/-- The reader's batch counter is below the batch size. -/
def Counted (q : ZeroRingBuffer T) : Prop := q.batchSize = rbBatch ∧ q.rBatchCount < rbBatch

theorem counted_freshRing (zero : T) (uninit : ℕ) :
    (LockFreeQueue.freshRing zero uninit).Counted := ⟨rfl, Nat.succ_pos 49⟩

theorem Counted.extract (h : q.Counted) : q.extract.1.Counted := by
  unfold ZeroRingBuffer.extract
  split_ifs <;> exact h

theorem Counted.flush (h : q.Counted) : q.flush.Counted := h

/-- `Ack` counts, and publishes its position when the counter starts again. -/
theorem rBatchCount_ack (h : q.Counted) :
    q.ack.batchSize = q.batchSize ∧ q.ack.rBatchCount = (q.rBatchCount + 1) % rbBatch := by
  obtain ⟨hsize, hcount⟩ := h
  simp only [ack]
  split_ifs with hfull
  · have hlast : q.rBatchCount + 1 = rbBatch := Nat.le_antisymm hcount (hsize ▸ hfull)
    rw [hlast, Nat.mod_self]
    exact ⟨rfl, rfl⟩
  · rw [Nat.mod_eq_of_lt (Nat.not_le.mp (hsize ▸ hfull))]
    exact ⟨rfl, rfl⟩

theorem Counted.ack (h : q.Counted) : q.ack.Counted := by
  obtain ⟨hsize, hcount⟩ := rBatchCount_ack h
  refine ⟨hsize.trans h.1, ?_⟩
  rw [hcount]
  exact Nat.mod_lt _ (by decide)

theorem Counted.insert (h : q.Counted) {data : T} (hins : q.insert data = some q') :
    q'.Counted := by
  obtain ⟨p, hres, rfl⟩ := Option.map_eq_some_iff.mp hins
  have hp : p.Counted := by
    obtain ⟨-, rfl⟩ | ⟨-, -, rfl⟩ := reserve_cases hres
    · exact h
    · exact h
  unfold completeWrite
  dsimp only
  split
  · exact hp
  · exact hp

/-- Behind an `Ack` all cells are released exactly when the counter starts again. -/
theorem WellFormed.unreleased_ack (hq : q.WellFormed)
    (hseen : q.nextReadIndex ≠ q.localWriteIndex) :
    q.ack.unreleased = 0 ↔ q.ack.rBatchCount = 0 := by
  have hacked := hq.ack hseen
  have hunreleased := hacked.wellFormed.unreleased_eq
  have hpending := hacked.wellFormed.pending_eq
  have hlength := congrArg List.length hacked.contents_eq
  rw [List.length_cons, length_contents, length_contents, hq.pending_eq] at hlength
  have hwrite := hacked.wellFormed.nextRead_le_nextWrite
  have hread := hq.read_le
  revert hunreleased hpending hlength hwrite
  simp only [ZeroRingBuffer.ack]
  split_ifs with hfull
  · intros
    exact ⟨fun _ => rfl, fun _ => Circular.dist_self _ _⟩
  · intro hunreleased hpending hlength hwrite
    dsimp only [gap] at *
    refine ⟨fun hzero => ?_, fun hzero => hzero.elim⟩
    omega

/-- All cells of a ring will be released when its values have been popped: there are none and
all are released, or the values complete a batch. -/
def ReleasesAll (q : ZeroRingBuffer T) : Prop :=
  if q.pending = 0 then q.unreleased = 0 else (q.rBatchCount + q.pending) % rbBatch = 0

instance (q : ZeroRingBuffer T) : Decidable q.ReleasesAll :=
  inferInstanceAs (Decidable (if q.pending = 0 then _ else _))

/-- A ring whose values can all be seen, after `k` of them have been popped. -/
structure Taken (q : ZeroRingBuffer T) (k : ℕ) (q' : ZeroRingBuffer T) : Prop where
  wellFormed : q'.WellFormed
  counted : q'.Counted
  max_eq : q'.max = q.max
  contents_eq : q'.contents = q.contents.drop k
  visible_eq : q'.visible = q'.pending
  count_eq : q'.rBatchCount = (q.rBatchCount + k) % rbBatch
  released_iff : q'.unreleased = 0 ↔
    if k = 0 then q.unreleased = 0 else (q.rBatchCount + k) % rbBatch = 0

theorem Taken.zero (hq : q.WellFormed) (h : q.Counted) (hvisible : q.visible = q.pending) :
    Taken q 0 q where
  wellFormed := hq
  counted := h
  max_eq := rfl
  contents_eq := rfl
  visible_eq := hvisible
  count_eq := (Nat.mod_eq_of_lt h.2).symm
  released_iff := by rw [if_pos rfl]

/-- One more value is popped. -/
theorem Taken.next {k : ℕ} (h : Taken q k q') (hvisible : 0 < q'.visible) :
    Taken q (k + 1) q'.extract.1.ack := by
  have hacked := h.wellFormed.extract_ack hvisible
  obtain ⟨addr, haddr⟩ : ∃ addr, q'.extract.2 = some addr := by
    rw [← Option.isSome_iff_exists, Option.isSome_iff_ne_none, Ne,
      h.wellFormed.extract_eq_none_iff]
    omega
  obtain ⟨-, hwf, -, -, hsame⟩ := h.wellFormed.extract haddr
  have hcounted := h.counted.extract
  have hcount : q'.extract.1.ack.rBatchCount = (q.rBatchCount + (k + 1)) % rbBatch := by
    have hold : q'.extract.1.rBatchCount = q'.rBatchCount := by rw [hsame]
    rw [(rBatchCount_ack hcounted).2, hold, h.count_eq, ← Nat.add_assoc, Nat.mod_add_mod]
  refine ⟨hacked.wellFormed, hcounted.ack, hacked.max_eq.trans h.max_eq, ?_, ?_, hcount, ?_⟩
  · have htail := congrArg List.tail hacked.contents_eq
    rw [h.contents_eq, List.tail_cons, List.tail_drop] at htail
    exact htail.symm
  · have hlength := congrArg List.length hacked.contents_eq
    rw [List.length_cons, length_contents, length_contents] at hlength
    have hold := h.visible_eq
    have hnew := hacked.visible_eq
    omega
  · rw [if_neg (Nat.succ_ne_zero k), hwf.unreleased_ack (extract_seen haddr), hcount]

/-- A ring that has been popped empty. -/
theorem Taken.releasesAll_iff {k : ℕ} (h : Taken q k q') (hk : k ≤ q.pending)
    (hempty : q'.pending = 0) : q'.unreleased = 0 ↔ q.ReleasesAll := by
  have hlength := congrArg List.length h.contents_eq
  rw [length_contents, List.length_drop, length_contents, hempty] at hlength
  obtain rfl : k = q.pending := by omega
  exact h.released_iff

end ZeroRingBuffer

/-! ## `Clean` and `Init` -/

namespace Mesh

variable {T : Type u}

/-- The loop of `Clean` with `n` slots to pop, undefined while it would spin. -/
def cleanLoop (w : ℕ) : ℕ → Mesh T → Option (Mesh T)
  | 0, m => some m
  | n + 1, m => (m.getSlot w).bind fun (_, m) => cleanLoop w n m

/-- `MPSCWriter::Clean` for a value of `clean_cnt`. -/
def clean (m : Mesh T) (w : ℕ) (cleanCnt : ℤ) : Option (Mesh T) :=
  cleanLoop w ((rbSize : ℤ) - 1 - cleanCnt).toNat m

/-- `FlushReverseWriter`: `Flush`, `Clean` and `Init`. -/
def flushReverseWriter (m : Mesh T) (w : ℕ) (cleanCnt : ℤ) : Option (Mesh T) :=
  ((m.flush (.writer w)).clean w cleanCnt).bind fun m => m.initWriter w

variable {m m' m'' : Mesh T} {w k : ℕ}

/-- The meshes differ in the free rings of writer `w` and in round-robin positions only. -/
structure SameBut (w : ℕ) (m m' : Mesh T) : Prop where
  other : ∀ queue i, queue ≠ .writer w → m'.ringAt queue i = m.ringAt queue i
  numQueue_eq : ∀ queue, (m'.own queue).numQueue = (m.own queue).numQueue
  peers_eq : m'.peers = m.peers
  writerId_eq : m'.writerId = m.writerId
  readerId_eq : m'.readerId = m.readerId
  slots_eq : m'.slots = m.slots

theorem SameBut.refl (m : Mesh T) : SameBut w m m :=
  ⟨fun _ _ _ => rfl, fun _ => rfl, rfl, rfl, rfl, rfl⟩

theorem SameBut.replaced (h : SameBut w m m') {i : ℕ} {ring : ZeroRingBuffer SlotAddr}
    (hrep : Replaced m' (.writer w) i ring m'') : SameBut w m m'' where
  other := by
    intro queue j hne
    rw [hrep.other queue j (.inl hne)]
    exact h.other queue j hne
  numQueue_eq := fun queue => (hrep.numQueue_eq queue).trans (h.numQueue_eq queue)
  peers_eq := hrep.peers_eq.trans h.peers_eq
  writerId_eq := hrep.writerId_eq.trans h.writerId_eq
  readerId_eq := hrep.readerId_eq.trans h.readerId_eq
  slots_eq := hrep.slots_eq.trans h.slots_eq

/-- Replacing the same ring twice. -/
theorem Replaced.trans {queue : QueueId} {i : ℕ} {ring ring' : ZeroRingBuffer SlotAddr}
    (h : Replaced m queue i ring m') (h' : Replaced m' queue i ring' m'') :
    Replaced m queue i ring' m'' where
  ring_eq := h'.ring_eq
  other := fun queue' j hne => (h'.other queue' j hne).trans (h.other queue' j hne)
  numQueue_eq := fun queue' => (h'.numQueue_eq queue').trans (h.numQueue_eq queue')
  peers_eq := h'.peers_eq.trans h.peers_eq
  writerId_eq := h'.writerId_eq.trans h.writerId_eq
  readerId_eq := h'.readerId_eq.trans h.readerId_eq
  slots_eq := h'.slots_eq.trans h.slots_eq

/-- While `Clean` runs: `taken r` of the slots of each free ring have been popped. -/
structure Cleaning (w k : ℕ) (m : Mesh T) (taken : ℕ → ℕ) (m' : Mesh T) : Prop where
  same : SameBut w m m'
  taken_ring : ∀ r < k, (m.ringAt (.writer w) r).Taken (taken r) (m'.ringAt (.writer w) r)
  taken_le : ∀ r < k, taken r ≤ (m.ringAt (.writer w) r).pending

theorem Cleaning.pending_eq {taken : ℕ → ℕ} (h : Cleaning w k m taken m') {r : ℕ} (hr : r < k) :
    (m'.ringAt (.writer w) r).pending = (m.ringAt (.writer w) r).pending - taken r := by
  have hlength := congrArg List.length (h.taken_ring r hr).contents_eq
  rwa [ZeroRingBuffer.length_contents, List.length_drop, ZeroRingBuffer.length_contents]
    at hlength

theorem Cleaning.wellFormed {taken : ℕ → ℕ} (h : Cleaning w k m taken m')
    (hcount : (m.own (.writer w)).numQueue = k) : (m'.own (.writer w)).WellFormed := by
  intro r hr
  rw [h.same.numQueue_eq, hcount] at hr
  exact (h.taken_ring r hr).wellFormed

/-- Everything has been popped. -/
theorem Cleaning.taken_eq {taken : ℕ → ℕ} (h : Cleaning w k m taken m')
    (hsum : ∑ r ∈ Finset.range k, taken r =
      ∑ r ∈ Finset.range k, (m.ringAt (.writer w) r).pending) {r : ℕ} (hr : r < k) :
    taken r = (m.ringAt (.writer w) r).pending := by
  have hle : ∀ r ∈ Finset.range k, taken r ≤ (m.ringAt (.writer w) r).pending :=
    fun r hr => h.taken_le r (Finset.mem_range.mp hr)
  exact (Finset.sum_eq_sum_iff_of_le hle).mp hsum r (Finset.mem_range.mpr hr)

/-- One iteration of `Clean`: it spins when everything has been popped, else one more slot of
some ring has been popped. -/
theorem Cleaning.getSlot {taken : ℕ → ℕ} (h : Cleaning w k m taken m')
    (hcount : (m.own (.writer w)).numQueue = k) :
    (m'.getSlot w = none ∧ ∀ r < k, taken r = (m.ringAt (.writer w) r).pending) ∨
      ∃ addr next, m'.getSlot w = some (addr, next) ∧
        ∃ r < k, Cleaning w k m (Function.update taken r (taken r + 1)) next := by
  have hwf := h.wellFormed hcount
  cases hget : m'.getSlot w with
  | none =>
      refine .inl ⟨rfl, fun r hr => ?_⟩
      have hvisible := (getSlot_eq_none_iff hwf).mp hget r
        (by rwa [h.same.numQueue_eq, hcount])
      rw [(h.taken_ring r hr).visible_eq, h.pending_eq hr] at hvisible
      exact Nat.le_antisymm (h.taken_le r hr) (Nat.sub_eq_zero_iff_le.mp hvisible)
  | some result =>
      obtain ⟨addr, next⟩ := result
      obtain ⟨r, hr, hvisible, -, hrep⟩ := getSlot_cases hwf hget
      rw [h.same.numQueue_eq, hcount] at hr
      refine .inr ⟨addr, next, rfl, r, hr, h.same.replaced hrep, ?_, ?_⟩
      · intro r' hr'
        by_cases hsame : r' = r
        · subst hsame
          rw [hrep.ring_eq, Function.update_self]
          exact (h.taken_ring r' hr').next hvisible
        · rw [hrep.other _ _ (.inr hsame), Function.update_of_ne hsame]
          exact h.taken_ring r' hr'
      · intro r' hr'
        by_cases hsame : r' = r
        · subst hsame
          rw [(h.taken_ring r' hr').visible_eq, h.pending_eq hr'] at hvisible
          rw [Function.update_self]
          omega
        · rw [Function.update_of_ne hsame]
          exact h.taken_le r' hr'

/-- The whole loop: it spins when it has to pop more slots than there are, else it pops as
many as it should. -/
theorem Cleaning.cleanLoop (hcount : (m.own (.writer w)).numQueue = k) (n : ℕ) {taken : ℕ → ℕ}
    (h : Cleaning w k m taken m') :
    (Mesh.cleanLoop w n m' = none ∧
      ∑ r ∈ Finset.range k, (m.ringAt (.writer w) r).pending <
        ∑ r ∈ Finset.range k, taken r + n) ∨
    ∃ next taken', Mesh.cleanLoop w n m' = some next ∧ Cleaning w k m taken' next ∧
      ∑ r ∈ Finset.range k, taken' r = ∑ r ∈ Finset.range k, taken r + n := by
  induction n generalizing m' taken with
  | zero => exact .inr ⟨m', taken, rfl, h, rfl⟩
  | succ n ih =>
      rcases h.getSlot hcount with ⟨hnone, hall⟩ | ⟨addr, next, hsome, r, hr, hnext⟩
      · refine .inl ⟨by rw [Mesh.cleanLoop, hnone, Option.bind_none], ?_⟩
        have hsum : ∑ r ∈ Finset.range k, (m.ringAt (.writer w) r).pending =
            ∑ r ∈ Finset.range k, taken r :=
          Finset.sum_congr rfl fun r hr => (hall r (Finset.mem_range.mp hr)).symm
        omega
      · have hmem := Finset.mem_range.mpr hr
        have hsum : ∑ i ∈ Finset.range k, Function.update taken r (taken r + 1) i =
            ∑ i ∈ Finset.range k, taken i + 1 := by
          rw [Finset.sum_update_of_mem hmem, Finset.sum_eq_add_sum_sdiff_singleton_of_mem hmem]
          omega
        have hrest := ih hnext
        rw [hsum, Nat.add_assoc, Nat.add_comm 1 n] at hrest
        rwa [Mesh.cleanLoop, hsome, Option.bind_some]

/-- The pushes of `Init` into ring `0`, from any contents of the ring: they spin when the
cells that are not released do not leave room for all of them. -/
theorem pushes_cases (hring : (m.ringAt (.writer w) 0).WellFormed)
    (hcounted : (m.ringAt (.writer w) 0).Counted) (ds : List ℕ) :
    (ds.foldlM (fun m d => m.pushTo (.writer w) 0 (.slot w d)) m = none ∧
      (m.ringAt (.writer w) 0).max ≤
        (m.ringAt (.writer w) 0).pending + (m.ringAt (.writer w) 0).unreleased + ds.length) ∨
    ∃ m' ring, ds.foldlM (fun m d => m.pushTo (.writer w) 0 (.slot w d)) m = some m' ∧
      Replaced m (.writer w) 0 ring m' ∧ ring.WellFormed ∧ ring.Counted ∧
      ring.max = (m.ringAt (.writer w) 0).max ∧
      ring.contents = (m.ringAt (.writer w) 0).contents ++ ds.map (.slot w) ∧
      (m.ringAt (.writer w) 0).pending + (m.ringAt (.writer w) 0).unreleased + ds.length <
        (m.ringAt (.writer w) 0).max := by
  induction ds generalizing m with
  | nil =>
      refine .inr ⟨m, m.ringAt (.writer w) 0, rfl, ?_, hring, hcounted, rfl, ?_, ?_⟩
      · exact ⟨rfl, fun _ _ _ => rfl, fun _ => rfl, rfl, rfl, rfl, rfl⟩
      · rw [List.map_nil, List.append_nil]
      · exact hring.pending_add_unreleased_lt_max
  | cons d ds ih =>
      rw [List.foldlM_cons]
      cases hpush : m.pushTo (.writer w) 0 (.slot w d) with
      | none =>
          refine .inl ⟨rfl, ?_⟩
          have hins : (m.ringAt (.writer w) 0).insert (.slot w d) = none := by
            simpa [pushTo, LockFreeQueue.push, ringAt] using hpush
          have hfull := (hring.insert_eq_none_iff _).mp hins
          rw [List.length_cons]
          omega
      | some next =>
          obtain ⟨ring, hins, hrep⟩ := pushTo_cases hpush
          have hinserted := hring.insert hins
          have hpending := hinserted.pending_eq
          have hunreleased := hinserted.unreleased_eq
          have hmax := hinserted.max_eq
          have hnext := hrep.ring_eq
          have hrest := @ih next (hnext ▸ hinserted.wellFormed) (hnext ▸ hcounted.insert hins)
          rw [hnext, hpending, hunreleased, hmax] at hrest
          rw [List.length_cons]
          rcases hrest with ⟨hnone, hfull⟩ | ⟨m', ring', hsome, hrep', hring', hcounted', hmax',
            hcontents, hroom⟩
          · exact .inl ⟨hnone, by omega⟩
          · refine .inr ⟨m', ring', hsome, hrep.trans hrep', hring', hcounted', hmax', ?_, ?_⟩
            · rw [hcontents, hinserted.contents_eq, List.append_assoc]
              rfl
            · omega

end Mesh

/-! ## A reset of a settled channel -/

namespace Channel

variable {T : Type u} {numWriter numReader w : ℕ} {s s' : Channel T}

variable (numReader) in
/-- The addresses in the free queue of writer `w`, whichever ring they are in. -/
def freeQueue (s : Channel T) (w : ℕ) : Multiset SlotAddr :=
  ∑ r ∈ Finset.range numReader, (s.freeSlots w r : Multiset SlotAddr)

variable (numReader) in
/-- The readers have read, acknowledged and flushed everything of writer `w`, and the writer
is between two calls of `EmitReverseData`. -/
def Settled (s : Channel T) (w : ℕ) : Prop :=
  s.writerHeld w = [] ∧ ∀ r < numReader, s.inTransit w r = [] ∧
    (∀ i < rbSize - 1, .slot w i ∉ s.readerHeld r) ∧
    (s.mesh.ringAt (.writer w) r).visible = (s.mesh.ringAt (.writer w) r).pending

instance (s : Channel T) (w : ℕ) : Decidable (s.Settled numReader w) :=
  inferInstanceAs (Decidable (_ ∧ _))

variable (numWriter numReader) in
/-- Each slot of writer `w` is exactly once in the writer's own free queue and nowhere else. -/
def ResetOk (s : Channel T) (w : ℕ) : Prop :=
  ∀ i < rbSize - 1, (s.freeQueue numReader w).count (.slot w i) = 1 ∧
    ∀ place : Place numWriter numReader, .slot w i ∈ s.slotsAt place →
      ∃ (w' : Fin numWriter) (r : Fin numReader), w' = w ∧ place = .free w' r

variable (numWriter numReader) in
/-- The batch counters of all free rings. -/
def FreeCounted (m : Mesh T) : Prop :=
  ∀ w < numWriter, ∀ r < numReader, (m.ringAt (.writer w) r).Counted

theorem freeQueue_eq_sum (s : Channel T) (w : Fin numWriter) :
    s.freeQueue numReader w =
      ∑ r : Fin numReader, (s.slotsAt (.free w r) : Multiset SlotAddr) :=
  Finset.sum_range _

theorem mem_freeQueue_iff {addr : SlotAddr} :
    addr ∈ s.freeQueue numReader w ↔ ∃ r < numReader, addr ∈ s.freeSlots w r := by
  simp [freeQueue, Multiset.mem_sum]

theorem free_injective (w : Fin numWriter) :
    Function.Injective (Place.free w : Fin numReader → Place numWriter numReader) :=
  fun _ _ hsame => (Place.free.inj hsame).2

theorem mem_allSlots_of_slot {addr : SlotAddr} :
    addr ∈ Mesh.allSlots w ↔ ∃ i < rbSize - 1, addr = .slot w i := by
  simp [Mesh.allSlots, eq_comm]

theorem nodup_allSlots (w : ℕ) : (Mesh.allSlots w).Nodup :=
  List.nodup_range.map fun i j h => by simpa using h

/-- In a settled channel every slot of the writer is free. -/
theorem Inv.freeQueue_eq (hs : s.Inv numWriter numReader) (hw : w < numWriter)
    (hsettled : s.Settled numReader w) :
    s.freeQueue numReader w = (Mesh.allSlots w : Multiset SlotAddr) := by
  have hnodup : (s.freeQueue numReader w).Nodup := by
    have hall := allSlots_nodup numWriter
    rw [← hs.stock_eq] at hall
    rw [freeQueue_eq_sum s ⟨w, hw⟩]
    have hinj : Function.Injective
        (Place.free ⟨w, hw⟩ : Fin numReader → Place numWriter numReader) := free_injective _
    have hfree := TokenPool.nodup_sum_held hinj hall
    exact hfree
  refine (Multiset.Nodup.ext hnodup (Multiset.coe_nodup.mpr (nodup_allSlots w))).mpr ?_
  intro addr
  rw [mem_freeQueue_iff, Multiset.mem_coe, mem_allSlots_of_slot]
  constructor
  · rintro ⟨r, hr, haddr⟩
    have hplace : addr ∈ s.slotsAt (.free ⟨w, hw⟩ ⟨r, hr⟩ : Place numWriter numReader) := haddr
    obtain ⟨i, rfl⟩ := hs.admits _ addr hplace
    obtain ⟨w', -, j, hj, hsame⟩ := mem_allSlots_iff.mp (hs.mem_allSlots hplace)
    exact ⟨i, (SlotAddr.slot.inj hsame).2 ▸ hj, rfl⟩
  · rintro ⟨i, hi, rfl⟩
    have hslot := mem_allSlots_iff.mpr ⟨w, hw, i, hi, rfl⟩
    obtain ⟨place, hplace, -⟩ := hs.existsUnique_place hslot
    have hadmits := hs.admits place _ hplace
    cases place with
    | free w' r =>
        obtain ⟨j, hj⟩ := hadmits
        obtain rfl : w = w' := (SlotAddr.slot.inj hj).1
        exact ⟨r, r.isLt, hplace⟩
    | writer w' =>
        obtain ⟨j, hj⟩ := hadmits
        obtain rfl : w = w' := (SlotAddr.slot.inj hj).1
        rw [slotsAt, hsettled.1] at hplace
        cases hplace
    | transit w' r =>
        obtain ⟨⟨j, hj⟩, -⟩ := hadmits
        obtain rfl : w = w' := (SlotAddr.slot.inj hj).1
        rw [slotsAt, (hsettled.2 r r.isLt).1] at hplace
        cases hplace
    | reader r => exact absurd hplace ((hsettled.2 r r.isLt).2.1 i hi)

theorem Inv.sum_pending (hs : s.Inv numWriter numReader) (hw : w < numWriter)
    (hsettled : s.Settled numReader w) :
    ∑ r ∈ Finset.range numReader, (s.mesh.ringAt (.writer w) r).pending = rbSize - 1 := by
  have hcard := congrArg Multiset.card (hs.freeQueue_eq hw hsettled)
  rw [freeQueue, Multiset.card_sum] at hcard
  simpa [Mesh.allSlots, freeSlots] using hcard

/-- A free queue that has been emptied in part and then filled by `Init`. -/
theorem freeQueue_refilled (hpos : 0 < numReader) {rest : ℕ → List SlotAddr}
    (hzero : s'.freeSlots w 0 = rest 0 ++ Mesh.allSlots w)
    (hother : ∀ r < numReader, r ≠ 0 → s'.freeSlots w r = rest r) :
    s'.freeQueue numReader w =
      ∑ r ∈ Finset.range numReader, (rest r : Multiset SlotAddr) + Mesh.allSlots w := by
  have hsplit (r : ℕ) (hr : r ∈ Finset.range numReader) :
      (s'.freeSlots w r : Multiset SlotAddr) =
        rest r + if r = 0 then (Mesh.allSlots w : Multiset SlotAddr) else 0 := by
    by_cases hr0 : r = 0
    · subst hr0
      rw [hzero, if_pos rfl, Multiset.coe_add]
    · rw [hother r (Finset.mem_range.mp hr) hr0, if_neg hr0, add_zero]
  rw [freeQueue, Finset.sum_congr rfl hsplit, Finset.sum_add_distrib, Finset.sum_ite_eq',
    if_pos (Finset.mem_range.mpr hpos)]

/-- Slots of the writer that are left over when `Init` runs are there twice afterwards. -/
theorem Inv.duplicated (hs : s.Inv numWriter numReader) (hw : w < numWriter)
    (hsettled : s.Settled numReader w) {taken : ℕ → ℕ}
    (hlt : ∑ r ∈ Finset.range numReader, taken r < rbSize - 1)
    (hqueue : s'.freeQueue numReader w =
      ∑ r ∈ Finset.range numReader, ((s.freeSlots w r).drop (taken r) : Multiset SlotAddr) +
        Mesh.allSlots w) :
    ∃ i < rbSize - 1, 2 ≤ (s'.freeQueue numReader w).count (.slot w i) := by
  obtain ⟨r, hr, hleft⟩ : ∃ r < numReader, taken r < (s.freeSlots w r).length := by
    by_contra hnone
    push Not at hnone
    have hle : ∑ r ∈ Finset.range numReader, (s.mesh.ringAt (.writer w) r).pending ≤
        ∑ r ∈ Finset.range numReader, taken r := by
      refine Finset.sum_le_sum fun r hr => ?_
      rw [← ZeroRingBuffer.length_contents]
      exact hnone r (Finset.mem_range.mp hr)
    rw [hs.sum_pending hw hsettled] at hle
    omega
  obtain ⟨addr, haddr⟩ := List.exists_mem_of_length_pos
    (show 0 < ((s.freeSlots w r).drop (taken r)).length by rw [List.length_drop]; omega)
  have hfree : addr ∈ s.freeQueue numReader w :=
    mem_freeQueue_iff.mpr ⟨r, hr, List.mem_of_mem_drop haddr⟩
  rw [hs.freeQueue_eq hw hsettled, Multiset.mem_coe] at hfree
  obtain ⟨i, hi, rfl⟩ := mem_allSlots_of_slot.mp hfree
  have hrest : .slot w i ∈ ∑ r ∈ Finset.range numReader,
      ((s.freeSlots w r).drop (taken r) : Multiset SlotAddr) :=
    Multiset.mem_sum.mpr ⟨r, Finset.mem_range.mpr hr, Multiset.mem_coe.mpr haddr⟩
  refine ⟨i, hi, ?_⟩
  rw [hqueue, Multiset.count_add]
  have hone := Multiset.one_le_count_iff_mem.mpr hrest
  have htwo := Multiset.one_le_count_iff_mem.mpr (Multiset.mem_coe.mpr hfree)
  omega

/-- `Clean` on a settled channel: it spins only when `clean_cnt` is negative. -/
theorem Inv.clean_cases (hs : s.Inv numWriter numReader)
    (hcounted : FreeCounted numWriter numReader s.mesh) (hw : w < numWriter)
    (hsettled : s.Settled numReader w) (cleanCnt : ℤ) :
    (s.mesh.clean w cleanCnt = none ∧ cleanCnt < 0) ∨
    ∃ m taken, s.mesh.clean w cleanCnt = some m ∧
      Mesh.Cleaning w numReader s.mesh taken m ∧
      ∑ r ∈ Finset.range numReader, taken r = ((rbSize : ℤ) - 1 - cleanCnt).toNat ∧
      0 ≤ cleanCnt := by
  have hstart : Mesh.Cleaning w numReader s.mesh (fun _ => 0) s.mesh := by
    refine ⟨.refl _, ?_, fun _ _ => Nat.zero_le _⟩
    intro r hr
    exact .zero (hs.rings.writer_ring w hw r hr).1 (hcounted w hw r hr) (hsettled.2 r hr).2.2
  have htotal := hs.sum_pending hw hsettled
  have hsize : rbSize = 2000 := rfl
  rcases hstart.cleanLoop (hs.rings.writer_count w hw) ((rbSize : ℤ) - 1 - cleanCnt).toNat with
    ⟨hnone, hmore⟩ | ⟨m, taken, hsome, hcleaned, hsum⟩
  · rw [Finset.sum_const_zero] at hmore
    exact .inl ⟨hnone, by omega⟩
  · rw [Finset.sum_const_zero, Nat.zero_add] at hsum
    refine .inr ⟨m, taken, hsome, hcleaned, hsum, ?_⟩
    have hle : ∑ r ∈ Finset.range numReader, taken r ≤
        ∑ r ∈ Finset.range numReader, (s.mesh.ringAt (.writer w) r).pending :=
      Finset.sum_le_sum fun r hr => hcleaned.taken_le r (Finset.mem_range.mp hr)
    omega

/-- What `Clean` and `Init` do to a settled channel. Either they spin, or all free rings are in
order again; the slots are then in their places when `clean_cnt` is `0` and ring `0` has
released its cells, and else some slot is there twice. -/
theorem Inv.cleanInit_cases (hs : s.Inv numWriter numReader)
    (hcounted : FreeCounted numWriter numReader s.mesh) (hpos : 0 < numReader)
    (hw : w < numWriter) (hsettled : s.Settled numReader w) (cleanCnt : ℤ) :
    ((s.mesh.clean w cleanCnt).bind (fun m => m.initWriter w) = none ∧
      ¬(cleanCnt = 0 ∧ (s.mesh.ringAt (.writer w) 0).ReleasesAll)) ∨
    ∃ m', (s.mesh.clean w cleanCnt).bind (fun m => m.initWriter w) = some m' ∧
      Mesh.SameBut w s.mesh m' ∧
      (∀ r < numReader, RingOk (m'.ringAt (.writer w) r) ∧ (m'.ringAt (.writer w) r).Counted) ∧
      if cleanCnt = 0 ∧ (s.mesh.ringAt (.writer w) 0).ReleasesAll then
        freeQueue numReader { s with mesh := m' } w = Mesh.allSlots w
      else
        ∃ i < rbSize - 1, 2 ≤ (freeQueue numReader { s with mesh := m' } w).count (.slot w i) := by
  have hsize : rbSize = 2000 := rfl
  rcases hs.clean_cases hcounted hw hsettled cleanCnt with
    ⟨hnone, hneg⟩ | ⟨m, taken, hsome, hcleaned, hsum, hnonneg⟩
  · exact .inl ⟨by rw [hnone, Option.bind_none], fun h => absurd h.1 (ne_of_lt hneg)⟩
  have hring := hcleaned.taken_ring 0 hpos
  have hpending := hcleaned.pending_eq hpos
  have hmax : (m.ringAt (.writer w) 0).max = rbSize :=
    hring.max_eq.trans (hs.rings.writer_ring w hw 0 hpos).2
  -- `clean_cnt = 0` makes the loop pop everything
  have hall (hzero : cleanCnt = 0) {r : ℕ} (hr : r < numReader) :
      taken r = (s.mesh.ringAt (.writer w) r).pending := by
    apply hcleaned.taken_eq _ hr
    rw [hsum, hs.sum_pending hw hsettled, hzero]
    rfl
  have hreleases (hzero : cleanCnt = 0) : (m.ringAt (.writer w) 0).unreleased = 0 ↔
      (s.mesh.ringAt (.writer w) 0).ReleasesAll := by
    apply hring.releasesAll_iff (hcleaned.taken_le 0 hpos)
    rw [hpending, hall hzero hpos, Nat.sub_self]
  rw [hsome, Option.bind_some]
  rcases Mesh.pushes_cases hring.wellFormed hring.counted (List.range (rbSize - 1)) with
    ⟨hnone, hfull⟩ | ⟨m', ring, hfilled, hrep, hwf, hcounted', hmax', hcontents, hroom⟩
  · refine .inl ⟨hnone, ?_⟩
    rintro ⟨hzero, hreleased⟩
    have hunreleased := (hreleases hzero).mpr hreleased
    have htaken := hall hzero hpos
    rw [hmax, List.length_range] at hfull
    omega
  · refine .inr ⟨m', hfilled, hcleaned.same.replaced hrep, ?_, ?_⟩
    · intro r hr
      by_cases hr0 : r = 0
      · subst hr0
        rw [hrep.ring_eq]
        exact ⟨⟨hwf, hmax'.trans hmax⟩, hcounted'⟩
      · rw [hrep.other _ _ (.inr hr0)]
        have htaken := hcleaned.taken_ring r hr
        exact ⟨⟨htaken.wellFormed, htaken.max_eq.trans (hs.rings.writer_ring w hw r hr).2⟩,
          htaken.counted⟩
    have hqueue : freeQueue numReader { s with mesh := m' } w =
        ∑ r ∈ Finset.range numReader, ((s.freeSlots w r).drop (taken r) : Multiset SlotAddr) +
          Mesh.allSlots w := by
      apply freeQueue_refilled hpos
      · rw [freeSlots, hrep.ring_eq, hcontents, hring.contents_eq]
        rfl
      · intro r hr hr0
        rw [freeSlots, hrep.other _ _ (.inr hr0), (hcleaned.taken_ring r hr).contents_eq]
        rfl
    by_cases hzero : cleanCnt = 0
    · rw [hmax, List.length_range] at hroom
      rw [if_pos ⟨hzero, (hreleases hzero).mp (by omega)⟩, hqueue, Finset.sum_eq_zero, zero_add]
      intro r hr
      rw [hall hzero (Finset.mem_range.mp hr), ← ZeroRingBuffer.length_contents]
      simp [freeSlots]
    · rw [if_neg fun h => hzero h.1]
      exact hs.duplicated hw hsettled (by omega) hqueue

/-- The invariant behind a reset that leaves the slots in their places. -/
theorem Inv.of_reset (hs : s.Inv numWriter numReader) (hw : w < numWriter)
    (hsettled : s.Settled numReader w) {m' : Mesh T} (hsame : Mesh.SameBut w s.mesh m')
    (hrings : ∀ r < numReader, RingOk (m'.ringAt (.writer w) r))
    (hqueue : freeQueue numReader { s with mesh := m' } w = Mesh.allSlots w) :
    Inv numWriter numReader { s with mesh := m' } := by
  have hframe (place : Place numWriter numReader) (hplace : ∀ r, place ≠ .free ⟨w, hw⟩ r) :
      slotsAt { s with mesh := m' } place = s.slotsAt place := by
    cases place with
    | free w' r =>
        have hne : QueueId.writer w' ≠ .writer w := by
          intro h
          exact hplace r (by simp [Fin.ext_iff, QueueId.writer.inj h])
        simp only [slotsAt, freeSlots, hsame.other _ _ hne]
    | writer w' => rfl
    | transit w' r =>
        simp only [slotsAt, inTransit, hsame.other (.reader r) _ (QueueId.reader_ne_writer _ _)]
    | reader r => rfl
  refine ⟨hs.wired.congr hsame.peers_eq hsame.writerId_eq hsame.readerId_eq,
    ⟨?_, ?_, ?_, ?_⟩, ?_, ?_, ?_⟩
  · intro w' hw'
    exact (hsame.numQueue_eq _).trans (hs.rings.writer_count w' hw')
  · intro r hr
    exact (hsame.numQueue_eq _).trans (hs.rings.reader_count r hr)
  · intro w' hw' r hr
    by_cases hself : w' = w
    · subst hself
      exact hrings r hr
    · rw [hsame.other _ _ fun h => hself (QueueId.writer.inj h)]
      exact hs.rings.writer_ring w' hw' r hr
  · intro r hr w' hw'
    rw [hsame.other (.reader r) w' (QueueId.reader_ne_writer _ _)]
    exact hs.rings.reader_ring r hr w' hw'
  · rw [← hs.stock_eq]
    apply TokenPool.stock_redistribute (free_injective ⟨w, hw⟩)
    · have hold := hs.freeQueue_eq hw hsettled
      rw [freeQueue_eq_sum _ ⟨w, hw⟩] at hold hqueue
      exact hqueue.trans hold.symm
    · intro place hplace
      rw [hframe place hplace]
  · intro place addr haddr
    change Admits numWriter numReader m'.slots addr place
    rw [hsame.slots_eq]
    by_cases hplace : ∃ r, place = .free ⟨w, hw⟩ r
    · obtain ⟨r, rfl⟩ := hplace
      have hmem : addr ∈ freeQueue numReader { s with mesh := m' } w :=
        mem_freeQueue_iff.mpr ⟨r, r.isLt, haddr⟩
      rw [hqueue, Multiset.mem_coe] at hmem
      obtain ⟨i, -, rfl⟩ := mem_allSlots_of_slot.mp hmem
      exact ⟨i, rfl⟩
    · rw [hframe place (not_exists.mp hplace)] at haddr
      exact hs.admits place addr haddr
  · intro w' hw' r hr
    have htransit : inTransit { s with mesh := m' } w' r = s.inTransit w' r :=
      hframe (.transit ⟨w', hw'⟩ ⟨r, hr⟩) fun _ h => by cases h
    rw [htransit, hsame.slots_eq]
    exact hs.written_eq w' hw' r hr

theorem Inv.resetOk (hs : s.Inv numWriter numReader) (hw : w < numWriter)
    (hqueue : s.freeQueue numReader w = Mesh.allSlots w) : s.ResetOk numWriter numReader w := by
  intro i hi
  have hmem : .slot w i ∈ s.freeQueue numReader w := by
    rw [hqueue, Multiset.mem_coe]
    exact mem_allSlots_of_slot.mpr ⟨i, hi, rfl⟩
  constructor
  · rw [hqueue] at hmem ⊢
    exact Multiset.count_eq_one_of_mem (Multiset.coe_nodup.mpr (nodup_allSlots w)) hmem
  · intro place hplace
    obtain ⟨r, hr, hfree⟩ := mem_freeQueue_iff.mp hmem
    have hfree : .slot w i ∈ s.slotsAt (.free ⟨w, hw⟩ ⟨r, hr⟩ : Place numWriter numReader) :=
      hfree
    exact ⟨⟨w, hw⟩, ⟨r, hr⟩, rfl, hs.place_unique hplace hfree⟩

/-- `Flush` of a writer touches no free ring. -/
theorem Inv.ringAt_flushWriter (hs : s.Inv numWriter numReader) (hw : w < numWriter) (w' r : ℕ) :
    (s.mesh.flush (.writer w)).ringAt (.writer w') r = s.mesh.ringAt (.writer w') r := by
  have hpeer : QueueId.writer w' ∉ s.mesh.peers (.writer w) := by
    simp [hs.wired.writer_peers w hw]
  simp [Mesh.ringAt, Mesh.flush_own, hpeer]

/-- A writer that flushes a settled channel leaves it settled. -/
theorem Inv.settled_flushWriter (hs : s.Inv numWriter numReader) (hw : w < numWriter)
    (hsettled : s.Settled numReader w) :
    Settled numReader { s with mesh := s.mesh.flush (.writer w) } w := by
  refine ⟨hsettled.1, fun r hr => ?_⟩
  obtain ⟨htransit, hheld, hvisible⟩ := hsettled.2 r hr
  have hkept : inTransit { s with mesh := s.mesh.flush (.writer w) } w r = s.inTransit w r :=
    (hs.flush (.writer w)).2.places (.transit ⟨w, hw⟩ ⟨r, hr⟩)
  refine ⟨hkept.trans htransit, hheld, ?_⟩
  change ((s.mesh.flush (.writer w)).ringAt (.writer w) r).visible =
    ((s.mesh.flush (.writer w)).ringAt (.writer w) r).pending
  rw [hs.ringAt_flushWriter hw]
  exact hvisible

/-- **One reset.** On a settled channel `FlushReverseWriter` returns with every slot of the
writer in its place exactly when `clean_cnt` is `0` and ring `0` releases its cells, and the
channel is then in order again. -/
theorem Inv.flushReverseWriter (hs : s.Inv numWriter numReader)
    (hcounted : FreeCounted numWriter numReader s.mesh) (hpos : 0 < numReader)
    (hw : w < numWriter) (hsettled : s.Settled numReader w) (cleanCnt : ℤ) :
    ((cleanCnt = 0 ∧ (s.mesh.ringAt (.writer w) 0).ReleasesAll) ↔
      ∃ m', s.mesh.flushReverseWriter w cleanCnt = some m' ∧
        ResetOk numWriter numReader { s with mesh := m' } w) ∧
    ∀ m', s.mesh.flushReverseWriter w cleanCnt = some m' →
      ResetOk numWriter numReader { s with mesh := m' } w →
      Inv numWriter numReader { s with mesh := m' } ∧ FreeCounted numWriter numReader m' := by
  have hflushed := (hs.flush (.writer w)).1
  have hring := hs.ringAt_flushWriter hw
  have hcounted' : FreeCounted numWriter numReader (s.mesh.flush (.writer w)) := by
    intro w' hw' r hr
    rw [hring]
    exact hcounted w' hw' r hr
  have hsettled' := hs.settled_flushWriter hw hsettled
  have hcases := hflushed.cleanInit_cases hcounted' hpos hw hsettled' cleanCnt
  dsimp only at hcases
  rw [hring w 0] at hcases
  rcases hcases with ⟨hnone, hbad⟩ | ⟨m', hsome, hsame, hrings, hif⟩
  · refine ⟨⟨fun h => absurd h hbad, ?_⟩, ?_⟩
    · rintro ⟨m', hsome, -⟩
      exact absurd (hnone.symm.trans hsome) nofun
    · intro m' hsome
      exact absurd (hnone.symm.trans hsome) nofun
  have hdone : s.mesh.flushReverseWriter w cleanCnt = some m' := hsome
  by_cases hright : cleanCnt = 0 ∧ (s.mesh.ringAt (.writer w) 0).ReleasesAll
  · rw [if_pos hright] at hif
    have hinv := hflushed.of_reset hw hsettled' hsame (fun r hr => (hrings r hr).1) hif
    refine ⟨⟨fun _ => ⟨m', hdone, hinv.resetOk hw hif⟩, fun _ => hright⟩, ?_⟩
    intro m'' hdone' _
    obtain rfl := Option.some.inj (hdone.symm.trans hdone')
    refine ⟨hinv, fun w' hw' r hr => ?_⟩
    by_cases hself : w' = w
    · subst hself
      exact (hrings r hr).2
    · rw [hsame.other _ _ fun h => hself (QueueId.writer.inj h)]
      exact hcounted' w' hw' r hr
  · rw [if_neg hright] at hif
    obtain ⟨i, hi, htwice⟩ := hif
    have hnot : ¬ResetOk numWriter numReader { s with mesh := m' } w := by
      intro hok
      have honce := (hok i hi).1
      exact absurd (honce ▸ htwice) (by decide)
    refine ⟨⟨fun h => absurd h hright, ?_⟩, ?_⟩
    · rintro ⟨m'', hdone', hok⟩
      obtain rfl := Option.some.inj (hdone.symm.trans hdone')
      exact absurd hok hnot
    · intro m'' hdone' hok
      obtain rfl := Option.some.inj (hdone.symm.trans hdone')
      exact absurd hok hnot

/-! ## The batch counters along a run -/

theorem FreeCounted.replaced {m m' : Mesh T} (h : FreeCounted numWriter numReader m)
    {queue : QueueId} {i : ℕ} {ring : ZeroRingBuffer SlotAddr}
    (hrep : Mesh.Replaced m queue i ring m') (hring : (m.ringAt queue i).Counted → ring.Counted) :
    FreeCounted numWriter numReader m' := by
  intro w hw r hr
  by_cases hsame : QueueId.writer w = queue ∧ r = i
  · obtain ⟨rfl, rfl⟩ := hsame
    rw [hrep.ring_eq]
    exact hring (h w hw r hr)
  · rw [hrep.other _ _ (not_and_or.mp hsame)]
    exact h w hw r hr

theorem FreeCounted.pushTo {m m' : Mesh T} (h : FreeCounted numWriter numReader m)
    {queue : QueueId} {i : ℕ} {addr : SlotAddr} (hpush : m.pushTo queue i addr = some m') :
    FreeCounted numWriter numReader m' := by
  obtain ⟨ring, hins, hrep⟩ := Mesh.pushTo_cases hpush
  exact h.replaced hrep fun hcounted => hcounted.insert hins

theorem FreeCounted.flush {m : Mesh T} (h : FreeCounted numWriter numReader m) (self : QueueId) :
    FreeCounted numWriter numReader (m.flush self) := by
  intro w hw r hr
  rcases Mesh.ringAt_flush (m := m) self (.writer w) r with hring | hring
  · rw [hring]
    exact (h w hw r hr).flush
  · rw [hring]
    exact h w hw r hr

/-- A queue of a reader is not looked at. -/
theorem FreeCounted.congr {m m' : Mesh T} (h : FreeCounted numWriter numReader m)
    (hown : ∀ w, m'.own (.writer w) = m.own (.writer w)) : FreeCounted numWriter numReader m' := by
  intro w hw r hr
  rw [Mesh.ringAt, hown]
  exact h w hw r hr

/-- Every call keeps the counters. -/
theorem Inv.freeCounted_step (hs : s.Inv numWriter numReader)
    (h : FreeCounted numWriter numReader s.mesh) {call : Call T}
    (hstep : Channel.step numWriter numReader s call = some s') :
    FreeCounted numWriter numReader s'.mesh := by
  cases call with
  | getSlot w =>
      simp only [Channel.step] at hstep
      split_ifs at hstep with hw
      obtain ⟨⟨addr, mesh⟩, hget, rfl⟩ := Option.map_eq_some_iff.mp hstep
      obtain ⟨r, -, -, -, hrep⟩ := Mesh.getSlot_cases (hs.rings.writer_wellFormed hw) hget
      exact h.replaced hrep fun hcounted => hcounted.extract.ack
  | fill w addr item =>
      simp only [Channel.step] at hstep
      split_ifs at hstep
      obtain rfl := Option.some.inj hstep
      exact h.congr fun _ => rfl
  | write w r addr =>
      simp only [Channel.step] at hstep
      split_ifs at hstep with hguard
      obtain ⟨mesh, hwrite, rfl⟩ := Option.map_eq_some_iff.mp hstep
      obtain ⟨ring, hins, hrep⟩ := hs.wired.write_cases hguard.1 hguard.2.1 hwrite
      exact h.replaced hrep fun hcounted => hcounted.insert hins
  | flushWriter w =>
      simp only [Channel.step] at hstep
      split_ifs at hstep
      obtain rfl := Option.some.inj hstep
      exact h.flush _
  | read r =>
      have hread : FreeCounted numWriter numReader (s.mesh.read r).2 :=
        h.congr fun w => by
          simp [Mesh.read]
      rcases step_read_cases hstep with ⟨-, ⟨-, rfl⟩ | ⟨addr, -, rfl⟩⟩
      · exact hread
      · exact hread
  | ack r addr =>
      simp only [Channel.step] at hstep
      split_ifs at hstep with hguard
      obtain ⟨mesh, hack, rfl⟩ := Option.map_eq_some_iff.mp hstep
      obtain ⟨queue, -, hqueue⟩ := Option.bind_eq_some_iff.mp hack
      obtain ⟨id, -, hpush⟩ := Option.bind_eq_some_iff.mp hqueue
      exact h.pushTo hpush
  | flushReader r =>
      simp only [Channel.step] at hstep
      split_ifs at hstep
      obtain rfl := Option.some.inj hstep
      exact h.flush _

/-- A loop that may spin keeps what its body keeps. -/
theorem FreeCounted.foldlM {α : Type} {body : Mesh T → α → Option (Mesh T)}
    (hbody : ∀ {m a m'}, FreeCounted numWriter numReader m → body m a = some m' →
      FreeCounted numWriter numReader m') {l : List α} {m m' : Mesh T}
    (h : FreeCounted numWriter numReader m) (hloop : l.foldlM body m = some m') :
    FreeCounted numWriter numReader m' := by
  induction l generalizing m with
  | nil =>
      obtain rfl := Option.some.inj hloop
      exact h
  | cons a l ih =>
      rw [List.foldlM_cons] at hloop
      obtain ⟨next, hnext, hrest⟩ := Option.bind_eq_some_iff.mp hloop
      exact ih (hbody h hnext) hrest

theorem freeCounted_of_start {cleared : WrapItem T} {uninit : ℕ} {m : Mesh T}
    (hstart : Mesh.start cleared uninit numWriter numReader = some m) :
    FreeCounted numWriter numReader m := by
  have hfresh : FreeCounted numWriter numReader
      (Mesh.connect cleared uninit numWriter numReader) := by
    intro w hw r hr
    rw [Mesh.ringAt, (Mesh.connect_connecting cleared uninit numWriter numReader).writer_own w]
    exact ZeroRingBuffer.counted_freshRing _ _
  refine FreeCounted.foldlM (fun h hinit => ?_) hfresh hstart
  exact FreeCounted.foldlM (fun h hpush => h.pushTo hpush) h hinit

end Channel

/-! ## Any number of resets -/

/-- What the last reset came to. -/
inductive ResetStatus
  | /-- The last call was not a reset. -/
    idle
  | /-- `FlushReverseWriter` of writer `w` has just returned. -/
    returned (w : ℕ)
  | /-- `FlushReverseWriter` of writer `w` never returns. -/
    spinning (w : ℕ)
  deriving DecidableEq

/-- The channel with the counters `clean_cnt`. -/
structure ReverseChannel (T : Type u) where
  channel : Channel T
  cleanCnt : ℕ → ℤ
  status : ResetStatus

namespace ReverseChannel

variable {T : Type u}

/-- A call of the channel or a reset. -/
inductive Call (T : Type u)
  | channel (call : Channel.Call T)
  | flushReverseWriter (w : ℕ)

/-- One call. A writer resets only a settled channel; nothing happens after a reset that
spins. `Init` adds one to `clean_cnt`. -/
def step (numWriter numReader : ℕ) (s : ReverseChannel T) (call : Call T) :
    Option (ReverseChannel T) :=
  match s.status, call with
  | .spinning _, _ => none
  | _, .channel call =>
      (s.channel.step numWriter numReader call).map fun channel =>
        { s with channel := channel, status := .idle }
  | _, .flushReverseWriter w =>
      if w < numWriter ∧ s.channel.Settled numReader w then
        match s.channel.mesh.flushReverseWriter w (s.cleanCnt w) with
        | some mesh =>
            some
              { channel := { s.channel with mesh := mesh }
                cleanCnt := Function.update s.cleanCnt w (s.cleanCnt w + 1)
                status := .returned w }
        | none => some { s with status := .spinning w }
      else none

/-- Every interleaving of calls and resets, from a mesh whose writers have run `Init` on
the arbitrary values `uninitCnt` of their counters. -/
def machine (numWriter numReader : ℕ) (mesh : Mesh T) (uninitCnt : ℕ → ℤ) :
    Machine (ReverseChannel T) (Call T) where
  init :=
    { channel := (Channel.machine numWriter numReader mesh).init
      cleanCnt := fun w => uninitCnt w + 1
      status := .idle }
  step := step numWriter numReader

variable (numWriter numReader : ℕ)

/-- A reset has returned with the slots of its writer in their places. -/
def Sound (s : ReverseChannel T) : Prop :=
  match s.status with
  | .idle => True
  | .returned w => s.channel.ResetOk numWriter numReader w
  | .spinning _ => False

/-- The writer's counter is `0`, and popping the slots of ring `0` releases its cells. -/
def Resets (s : ReverseChannel T) : Call T → Prop
  | .channel _ => True
  | .flushReverseWriter w =>
      s.cleanCnt w = 0 ∧ (s.channel.mesh.ringAt (.writer w) 0).ReleasesAll

/-- What the calls and the resets preserve that leave the slots in their places. -/
structure Inv (s : ReverseChannel T) : Prop where
  channel : s.channel.Inv numWriter numReader
  counted : Channel.FreeCounted numWriter numReader s.channel.mesh

variable {numWriter numReader} {s s' : ReverseChannel T}

theorem Inv.init (cleared : WrapItem T) (uninit : ℕ) (hpos : 0 < numReader) {mesh : Mesh T}
    (hstart : Mesh.start cleared uninit numWriter numReader = some mesh) (uninitCnt : ℕ → ℤ) :
    (machine numWriter numReader mesh uninitCnt).init.Inv numWriter numReader where
  channel := .init (Mesh.started_of_start hstart) hpos
  counted := Channel.freeCounted_of_start hstart

/-- The inversion of a call of the channel. -/
theorem step_channel_cases {call : Channel.Call T}
    (hstep : step numWriter numReader s (.channel call) = some s') :
    ∃ channel, s.channel.step numWriter numReader call = some channel ∧
      s' = { s with channel := channel, status := .idle } := by
  unfold step at hstep
  split at hstep
  · cases hstep
  next hcall _ =>
      cases hcall
      obtain ⟨channel, hchannel, rfl⟩ := Option.map_eq_some_iff.mp hstep
      exact ⟨channel, hchannel, rfl⟩
  next hcall _ => cases hcall

/-- The inversion of a reset. -/
theorem step_flushReverseWriter_cases {w : ℕ}
    (hstep : step numWriter numReader s (.flushReverseWriter w) = some s') :
    w < numWriter ∧ s.channel.Settled numReader w ∧
      ((s.channel.mesh.flushReverseWriter w (s.cleanCnt w) = none ∧
          s' = { s with status := .spinning w }) ∨
        ∃ mesh, s.channel.mesh.flushReverseWriter w (s.cleanCnt w) = some mesh ∧
          s' =
            { channel := { s.channel with mesh := mesh }
              cleanCnt := Function.update s.cleanCnt w (s.cleanCnt w + 1)
              status := .returned w }) := by
  unfold step at hstep
  split at hstep
  · cases hstep
  next hcall _ => cases hcall
  next hcall _ =>
      cases hcall
      split_ifs at hstep with hguard
      refine ⟨hguard.1, hguard.2, ?_⟩
      split at hstep
      next mesh hmesh => exact .inr ⟨mesh, hmesh, (Option.some.inj hstep).symm⟩
      next hnone => exact .inl ⟨hnone, (Option.some.inj hstep).symm⟩

/-- One step from a state in order: its target is sound exactly when the step is no reset or
a reset that meets the condition. -/
theorem Inv.sound_iff (hs : s.Inv numWriter numReader) (hpos : 0 < numReader) {call : Call T}
    (hstep : step numWriter numReader s call = some s') :
    (s'.Sound numWriter numReader ↔ s.Resets call) ∧
      (s'.Sound numWriter numReader → s'.Inv numWriter numReader) := by
  cases call with
  | channel call =>
      obtain ⟨channel, hchannel, rfl⟩ := step_channel_cases hstep
      refine ⟨⟨fun _ => trivial, fun _ => trivial⟩, fun _ => ?_⟩
      exact ⟨hs.channel.step hchannel, hs.channel.freeCounted_step hs.counted hchannel⟩
  | flushReverseWriter w =>
      obtain ⟨hw, hsettled, hresult⟩ := step_flushReverseWriter_cases hstep
      obtain ⟨hiff, hinv⟩ :=
        hs.channel.flushReverseWriter hs.counted hpos hw hsettled (s.cleanCnt w)
      rcases hresult with ⟨hnone, rfl⟩ | ⟨mesh, hmesh, rfl⟩
      · refine ⟨⟨False.elim, fun hresets => ?_⟩, False.elim⟩
        obtain ⟨mesh, hmesh, -⟩ := hiff.mp hresets
        exact absurd (hnone.symm.trans hmesh) nofun
      · refine ⟨⟨fun hok => hiff.mpr ⟨mesh, hmesh, hok⟩, fun hresets => ?_⟩, fun hok => ?_⟩
        · obtain ⟨mesh', hmesh', hok⟩ := hiff.mp hresets
          obtain rfl := Option.some.inj (hmesh.symm.trans hmesh')
          exact hok
        · obtain ⟨hchannel, hcounted⟩ := hinv mesh hmesh hok
          exact ⟨hchannel, hcounted⟩

/-- A writer can always reset a settled channel, though it may not return. -/
theorem exists_step_flushReverseWriter {w : ℕ} (hidle : s.status = .idle) (hw : w < numWriter)
    (hsettled : s.channel.Settled numReader w) :
    ∃ s', step numWriter numReader s (.flushReverseWriter w) = some s' := by
  unfold step
  rw [hidle]
  dsimp only
  rw [if_pos ⟨hw, hsettled⟩]
  cases s.channel.mesh.flushReverseWriter w (s.cleanCnt w) with
  | some mesh => exact ⟨_, rfl⟩
  | none => exact ⟨_, rfl⟩

/-- Right after the start the channel is settled as soon as a reader has flushed. -/
theorem settled_flushReader {mesh : Mesh T} (hm : mesh.Started numWriter numReader) {w r : ℕ}
    (hw : w < numWriter) (hr : r < numReader) :
    Channel.Settled numReader
      { (Channel.machine numWriter numReader mesh).init with
        mesh := mesh.flush (.reader r) } w := by
  have hs := Channel.Inv.init hm (Nat.zero_lt_of_lt hr)
  refine ⟨rfl, fun r' hr' => ⟨?_, fun _ _ => List.not_mem_nil, ?_⟩⟩
  · have hkept := (hs.flush (.reader r)).2.places (.transit ⟨w, hw⟩ ⟨r', hr'⟩)
    exact hkept.trans ((hm.reader_queue r' hr').2 w).contents_eq
  · change ((mesh.flush (.reader r)).ringAt (.writer w) r').visible =
      ((mesh.flush (.reader r)).ringAt (.writer w) r').pending
    have hring := hs.ringAt_flushReader hr hw hr'
    have hflush := (hs.rings.writer_ring w hw r' hr').1.flush
    have hpending : ((mesh.ringAt (.writer w) r').flush).pending =
        (mesh.ringAt (.writer w) r').pending := rfl
    exact hring ▸ hflush.2.2.1.trans hpending.symm

/-- **When a reset works.** Along every run of writers and readers with any number of resets,
from any initial values of the counters, every reset returns with the slots of its writer each
exactly once in the writer's free queue and nowhere else, if and only if before every reset
the writer's `clean_cnt` is `0` and the slots of its ring `0` complete a batch of pops (or the
ring is empty and has released its cells). -/
theorem reset_right_iff (cleared : WrapItem T) (uninit : ℕ) {numWriter numReader : ℕ}
    (hpos : 0 < numReader) {mesh : Mesh T}
    (hstart : Mesh.start cleared uninit numWriter numReader = some mesh) (uninitCnt : ℕ → ℤ)
    (calls : List (Call T)) :
    (machine numWriter numReader mesh uninitCnt).Always (Sound numWriter numReader)
        (machine numWriter numReader mesh uninitCnt).init calls ↔
      (machine numWriter numReader mesh uninitCnt).AlwaysStep Resets
        (machine numWriter numReader mesh uninitCnt).init calls := by
  apply Machine.always_iff_alwaysStep (Inv numWriter numReader)
  · intro state call next hstate _ hstep
    exact hstate.sound_iff hpos hstep
  · exact .init cleared uninit hpos hstart uninitCnt
  · exact trivial

/-- A batch of messages from one writer, of which the first goes to one reader and the others to a
second one, until all their slots have come back. -/
def batchCycle : List (Channel.Call ℕ) :=
  ((List.range rbBatch).flatMap fun i => [Channel.Call.getSlot 0,
    .fill 0 (.slot 0 i) ⟨.normal, i, 7, 0, 5⟩, .write 0 (if i = 0 then 0 else 1) (.slot 0 i)]) ++
  [Channel.Call.flushWriter 0, .read 0, .ack 0 (.slot 0 0), .flushReader 0] ++
  ((List.range (rbBatch - 1)).flatMap fun i => [Channel.Call.read 1, .ack 1 (.slot 0 (i + 1))]) ++
  [Channel.Call.flushReader 1]

/-- Behind the batch a reset finds the slots that complete it. -/
theorem exists_batchCycle :
    ∃ (mesh : Mesh ℕ) (s : ReverseChannel ℕ),
      Mesh.start ⟨.normal, 0, 0, 0, 0⟩ 0 1 2 = some mesh ∧
      (machine 1 2 mesh fun _ => -1).runFrom (machine 1 2 mesh fun _ => -1).init
        (batchCycle.map .channel) = some s ∧
      s.status = .idle ∧ s.channel.Settled 2 0 ∧ s.Resets (.flushReverseWriter 0) := by
  have hrun : ((Mesh.start (T := ℕ) ⟨.normal, 0, 0, 0, 0⟩ 0 1 2).bind fun mesh =>
      ((machine 1 2 mesh fun _ => -1).runFromVia
        (fun s next => s.channel.mesh.compute [.writer 0, .reader 0, .reader 1] fun mesh =>
          next { s with channel := { s.channel with mesh := mesh } })
        (machine 1 2 mesh fun _ => -1).init (batchCycle.map .channel)).map
          fun s => (s.status, s.channel.writerHeld 0,
            decide (∀ r < (2 : ℕ), s.channel.inTransit 0 r = [] ∧ s.channel.readerHeld r = [] ∧
              (s.channel.mesh.ringAt (.writer 0) r).visible =
                (s.channel.mesh.ringAt (.writer 0) r).pending),
            s.cleanCnt 0, decide (s.channel.mesh.ringAt (.writer 0) 0).ReleasesAll)) =
      some (.idle, [], true, 0, true) := by
    rw [Mesh.start_eq_filled]
    decide +kernel
  obtain ⟨mesh, hstart, hmapped⟩ := Option.bind_eq_some_iff.mp hrun
  obtain ⟨s, hs, hall⟩ := Option.map_eq_some_iff.mp hmapped
  rw [Machine.runFromVia_eq (fun s next => Mesh.compute_eq _ s.channel.mesh _)] at hs
  obtain ⟨hidle, hheld, hreaders, hcount, hreleases⟩ : _ ∧ _ ∧ _ ∧ _ ∧ _ := by
    simpa only [Prod.mk.injEq, decide_eq_true_eq] using hall
  refine ⟨mesh, s, hstart, hs, hidle, ⟨hheld, fun r hr => ?_⟩, hcount, hreleases⟩
  obtain ⟨htransit, hread, hvisible⟩ := hreaders r hr
  exact ⟨htransit, fun _ _ => hread ▸ List.not_mem_nil, hvisible⟩

/-- With `-1` in the memory of the counter a reset behind this batch is right. -/
theorem reset_right_iff_batch_cycle :
    ∃ (mesh : Mesh ℕ) (s : ReverseChannel ℕ),
      Mesh.start ⟨.normal, 0, 0, 0, 0⟩ 0 1 2 = some mesh ∧
      (machine 1 2 mesh fun _ => -1).runFrom (machine 1 2 mesh fun _ => -1).init
        (batchCycle.map Call.channel ++ [Call.flushReverseWriter 0]) = some s ∧
      s.status = .returned 0 ∧ s.channel.ResetOk 1 2 0 := by
  obtain ⟨mesh, middle, hstart, hmiddle, hidle, hsettled, hresets⟩ := exists_batchCycle
  obtain ⟨s, hlast⟩ := exists_step_flushReverseWriter hidle Nat.one_pos hsettled
  have hs := Machine.runFrom_concat_eq_some.mpr ⟨middle, hmiddle, hlast⟩
  have hcalls : ∀ call ∈ batchCycle.map Call.channel, ∀ state : ReverseChannel ℕ,
      state.Resets call := by
    intro call hcall state
    obtain ⟨_, -, rfl⟩ := List.mem_map.mp hcall
    exact trivial
  have hsteps := (Machine.AlwaysStep.of_forall hcalls _).concat fun other hother =>
    Option.some.inj (hmiddle.symm.trans hother) ▸ hresets
  have hsound := ((reset_right_iff _ _ Nat.two_pos hstart _ _).mpr hsteps).of_runFrom hs
  obtain ⟨-, -, ⟨-, rfl⟩ | ⟨_, -, rfl⟩⟩ := step_flushReverseWriter_cases hlast
  · exact hsound.elim
  · exact ⟨mesh, _, hstart, hs, rfl, hsound⟩

/-- When the memory of the counter happens to be zero, already the first reset of the smallest
channel goes wrong. -/
theorem first_reset_wrong :
    ∃ mesh : Mesh ℕ, Mesh.start ⟨.normal, 0, 0, 0, 0⟩ 0 1 1 = some mesh ∧
      ¬(machine 1 1 mesh fun _ => 0).Always (Sound 1 1) (machine 1 1 mesh fun _ => 0).init
        [.channel (.flushReader 0), .flushReverseWriter 0] := by
  obtain ⟨mesh, hstart, hm⟩ := Mesh.start_eq_some (T := ℕ) ⟨.normal, 0, 0, 0, 0⟩ 0 1 1
  refine ⟨mesh, hstart, ?_⟩
  rintro ⟨-, halways⟩
  have hinit := Inv.init _ _ Nat.one_pos hstart (fun _ => 0)
  obtain ⟨next, hnext, hidle, hcount, hsettled⟩ : ∃ next,
      step 1 1 (machine 1 1 mesh fun _ => 0).init (.channel (.flushReader 0)) = some next ∧
        next.status = .idle ∧ next.cleanCnt 0 = 1 ∧ next.channel.Settled 1 0 :=
    ⟨_, rfl, rfl, rfl, settled_flushReader hm Nat.one_pos Nat.one_pos⟩
  have hgood : next.Sound 1 1 := (halways next hnext).1
  have hinv := (hinit.sound_iff Nat.one_pos hnext).2 hgood
  obtain ⟨last, hlast⟩ := exists_step_flushReverseWriter hidle Nat.one_pos hsettled
  have hresets := (hinv.sound_iff Nat.one_pos hlast).1.mp ((halways next hnext).2 last hlast)
  exact absurd (hcount.symm.trans hresets.1) (by decide)

end ReverseChannel

end AFStream.Queues

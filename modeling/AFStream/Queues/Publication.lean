/-
# Batched publication and starvation

A ring shows its values to the other side in batches, so without a `Flush` some slots
sit where nobody can see them: messages that a writer has inserted for a reader,
acknowledged slots on their way back, and the last slots that `Init` inserted. The
module counts them. When every reader has taken all that it can see, only messages and
the rest of the first fill are invisible, and a writer can run out of slots only if
there are enough readers to hide all the others.
-/

import AFStream.Queues.Channel

namespace AFStream.Queues

open AFStream.Foundation

universe u

namespace ZeroRingBuffer

variable {T : Type u} {q q' : ZeroRingBuffer T}

/-- A ring that has never been flushed, after `n` insertions: whatever is not visible is
counted by `wBatchCount`. -/
structure Batched (q : ZeroRingBuffer T) (n : ℕ) : Prop where
  batchSize_eq : q.batchSize = rbBatch
  count_eq : q.wBatchCount = n % rbBatch
  pending_eq : q.pending = q.visible + q.wBatchCount

theorem batched_freshRing (zero : T) (uninit : ℕ) :
    (LockFreeQueue.freshRing zero uninit).Batched 0 := ⟨rfl, rfl, rfl⟩

/-- `Insert` counts one more value, and starts again when the batch is full. -/
theorem insert_wBatchCount {data : T} (hins : q.insert data = some q') :
    q'.batchSize = q.batchSize ∧
      q'.wBatchCount = if q.wBatchCount + 1 ≥ q.batchSize then 0 else q.wBatchCount + 1 := by
  obtain ⟨p, hres, rfl⟩ := Option.map_eq_some_iff.mp hins
  have hsame : p.batchSize = q.batchSize ∧ p.wBatchCount = q.wBatchCount := by
    simp only [reserve] at hres
    split_ifs at hres
    · obtain rfl := Option.some.inj hres
      exact ⟨rfl, rfl⟩
    · obtain rfl := Option.some.inj hres
      exact ⟨rfl, rfl⟩
  rw [← hsame.1, ← hsame.2]
  by_cases hfull : p.wBatchCount + 1 ≥ p.batchSize
  · simp [completeWrite, fill, hfull]
  · simp [completeWrite, fill, hfull]

theorem Batched.insert {n : ℕ} (h : q.Batched n) (hq : q.WellFormed) {data : T}
    (hins : q.insert data = some q') : q'.Batched (n + 1) := by
  obtain ⟨hsize, hcount⟩ := insert_wBatchCount hins
  have hinserted := hq.insert hins
  have hvisible := hinserted.visible_eq
  have hpending := hinserted.pending_eq
  have hold := h.pending_eq
  rw [h.batchSize_eq, h.count_eq] at hcount
  rw [h.count_eq] at hold
  have hmod := Nat.mod_lt n (show 0 < rbBatch by decide)
  have hnext : (n + 1) % rbBatch = if n % rbBatch + 1 ≥ rbBatch then 0 else n % rbBatch + 1 := by
    rw [Nat.add_mod, Nat.mod_eq_of_lt (show 1 < rbBatch by decide)]
    split_ifs with hfull
    · rw [show n % rbBatch + 1 = rbBatch by omega, Nat.mod_self]
    · exact Nat.mod_eq_of_lt (by omega)
  refine ⟨hsize.trans h.batchSize_eq, hcount.trans hnext.symm, ?_⟩
  split_ifs at hcount with hfull
  · rw [if_pos hcount] at hvisible
    omega
  · rw [if_neg (by omega)] at hvisible
    omega

theorem extract_ack_wBatchCount :
    q.extract.1.ack.batchSize = q.batchSize ∧ q.extract.1.ack.wBatchCount = q.wBatchCount := by
  simp only [ack, extract]
  split_ifs <;> exact ⟨rfl, rfl⟩

theorem Batched.extract_ack {n : ℕ} (h : q.Batched n) (hq : q.WellFormed)
    (hvisible : 0 < q.visible) : q.extract.1.ack.Batched n := by
  obtain ⟨hsize, hcount⟩ := extract_ack_wBatchCount (q := q)
  have hacked := hq.extract_ack hvisible
  refine ⟨hsize.trans h.batchSize_eq, hcount.trans h.count_eq, ?_⟩
  have hlength := congrArg List.length hacked.contents_eq
  rw [List.length_cons, length_contents, length_contents] at hlength
  have hpending := h.pending_eq
  have hvisible' := hacked.visible_eq
  omega

/-- Fewer than a batch of values are invisible. -/
theorem Batched.pending_of_visible_eq_zero {n : ℕ} (h : q.Batched n) (hzero : q.visible = 0) :
    q.pending = n % rbBatch := by
  rw [h.pending_eq, hzero, h.count_eq, Nat.zero_add]

end ZeroRingBuffer

namespace Mesh

variable {T : Type u} {m m' : Mesh T} {uninit numWriter numReader : ℕ}

/-- The insertions of `Init`. -/
theorem batched_foldlM_pushTo {w n : ℕ} (indices : List ℕ)
    (hbatched : (m.ringAt (.writer w) 0).Batched n) (hwf : (m.ringAt (.writer w) 0).WellFormed)
    (hrun : indices.foldlM (fun m d => m.pushTo (.writer w) 0 (.slot w d)) m = some m') :
    (m'.ringAt (.writer w) 0).Batched (n + indices.length) := by
  induction indices generalizing m n with
  | nil =>
      obtain rfl := Option.some.inj hrun
      exact hbatched
  | cons d rest ih =>
      rw [List.foldlM_cons] at hrun
      obtain ⟨m₁, hpush, hrest⟩ := Option.bind_eq_some_iff.mp hrun
      obtain ⟨ring, hins, hrep⟩ := pushTo_cases hpush
      rw [List.length_cons, ← Nat.add_assoc, Nat.add_right_comm]
      apply ih _ _ hrest
      · rw [hrep.ring_eq]
        exact hbatched.insert hwf hins
      · rw [hrep.ring_eq]
        exact (hwf.insert hins).wellFormed

/-- The rings after `Init`: ring `0` of a writer has received its slots, and no other ring
has been used. -/
structure StartedRings (m : Mesh T) (uninit numWriter numReader : ℕ) : Prop where
  filled : ∀ w < numWriter, (m.ringAt (.writer w) 0).Batched (rbSize - 1)
  unreturned : ∀ w < numWriter, ∀ r, r ≠ 0 →
    m.ringAt (.writer w) r = LockFreeQueue.freshRing .null uninit
  unwritten : ∀ r < numReader, ∀ w,
    m.ringAt (.reader r) w = LockFreeQueue.freshRing .null uninit

/-- `Init` of the first `j` writers. -/
theorem batched_initWriters (hm : m.Connecting uninit numWriter numReader 0) {j : ℕ}
    (hj : j ≤ numWriter)
    (hrun : (List.range j).foldlM (fun m w => m.initWriter w) m = some m') :
    ∀ w < j, (m'.ringAt (.writer w) 0).Batched (rbSize - 1) := by
  induction j generalizing m' with
  | zero => exact fun w hw => absurd hw (Nat.not_lt_zero w)
  | succ j ih =>
      obtain ⟨own, hbefore, -, hrest, -⟩ := initWriters_eq_some hm (Nat.le_of_succ_le hj)
      have hfresh : ({ m with own := own } : Mesh T).own (.writer j) =
          freshQueue uninit numReader := by
        change own (.writer j) = _
        rw [hrest j le_rfl, hm.writer_own j, if_pos (by omega)]
      obtain ⟨q, -, hinit⟩ := initWriter_eq_some hfresh
      rw [List.range_succ, List.foldlM_append, hbefore] at hrun
      simp only [Option.bind_eq_bind, Option.bind_some, List.foldlM_cons, List.foldlM_nil,
        hinit] at hrun
      obtain rfl := Option.some.inj hrun
      intro w hw
      by_cases hwj : w = j
      · subst hwj
        have hring : ({ m with own := own } : Mesh T).ringAt (.writer w) 0 =
            LockFreeQueue.freshRing .null uninit := by
          rw [ringAt, hfresh]
          rfl
        have hempty : (({ m with own := own } : Mesh T).ringAt (.writer w) 0).Batched 0 := by
          rw [hring]
          exact ZeroRingBuffer.batched_freshRing _ _
        have hwf : (({ m with own := own } : Mesh T).ringAt (.writer w) 0).WellFormed := by
          rw [hring]
          exact (freshRing_holds uninit).wellFormed
        unfold initWriter at hinit
        have hbatched := batched_foldlM_pushTo _ hempty hwf hinit
        rwa [List.length_range, Nat.zero_add] at hbatched
      · have hold := ih (Nat.le_of_succ_le hj) hbefore w (by omega)
        simpa [ringAt, hwj] using hold

/-- The rings of the writers that one call leaves alone. -/
theorem Replaced.other_writer {w r w' r' : ℕ} {ring : ZeroRingBuffer SlotAddr}
    (hrep : Replaced m (.writer w) r ring m') (hne : ¬(w' = w ∧ r' = r)) :
    m'.ringAt (.writer w') r' = m.ringAt (.writer w') r' := by
  apply hrep.other
  rw [Ne, QueueId.writer.injEq]
  exact not_and_or.mp hne

/-- The rings of the readers that one call leaves alone. -/
theorem Replaced.other_reader {w r w' r' : ℕ} {ring : ZeroRingBuffer SlotAddr}
    (hrep : Replaced m (.reader r) w ring m') (hne : ¬(w' = w ∧ r' = r)) :
    m'.ringAt (.reader r') w' = m.ringAt (.reader r') w' := by
  apply hrep.other
  rw [Ne, QueueId.reader.injEq]
  exact (not_and_or.mp hne).symm

theorem startedRings_of_start {cleared : WrapItem T}
    (hstart : start cleared uninit numWriter numReader = some m) :
    m.StartedRings uninit numWriter numReader := by
  have hwiring := connect_connecting cleared uninit numWriter numReader
  obtain ⟨own, hrun, hfilled, -, hreaders⟩ := initWriters_eq_some hwiring le_rfl
  have hbatched := batched_initWriters hwiring le_rfl hstart
  obtain rfl := Option.some.inj (hrun.symm.trans hstart)
  refine ⟨hbatched, ?_, ?_⟩
  · intro w hw r hr
    exact (hfilled w hw).others r hr
  · intro r hr w
    change (own (.reader r)).rings w = _
    rw [hreaders r, hwiring.reader_own r hr]
    rfl

end Mesh

namespace Channel

variable {T : Type u}

/-- `Flush` by either side. -/
def Call.isFlush : Call T → Bool
  | .flushWriter _ => true
  | .flushReader _ => true
  | _ => false

/-- Every interleaving of calls other than `Flush` on a started mesh. -/
def unflushed (numWriter numReader : ℕ) (mesh : Mesh T) : Machine (Channel T) (Call T) where
  init := (machine numWriter numReader mesh).init
  step := fun s call => if call.isFlush then none else step numWriter numReader s call

/-- How many of the slots belong to writer `w`. -/
def countOf (w : ℕ) (addrs : List SlotAddr) : ℕ :=
  addrs.countP fun addr => match addr with
    | .null => false
    | .slot w' _ => w' == w

theorem countOf_append (w : ℕ) (first second : List SlotAddr) :
    countOf w (first ++ second) = countOf w first + countOf w second := List.countP_append

theorem countOf_singleton (w w' i : ℕ) :
    countOf w [.slot w' i] = if w' = w then 1 else 0 := by
  simp [countOf, List.countP_cons]

theorem countOf_erase {w w' i : ℕ} {addrs : List SlotAddr} (hmem : .slot w' i ∈ addrs) :
    countOf w addrs = countOf w (addrs.erase (.slot w' i)) + if w' = w then 1 else 0 := by
  rw [countOf, (List.perm_cons_erase hmem).countP_eq, List.countP_cons]
  simp [countOf]

/-- What a call other than `Flush` does to the rings and the logs. -/
inductive Circulates (numWriter numReader : ℕ) (s s' : Channel T) : Prop
  | still (hrings : ∀ queue i, s'.mesh.ringAt queue i = s.mesh.ringAt queue i)
      (hheld : s'.readerHeld = s.readerHeld) (hwritten : s'.written = s.written)
      (hreceived : s'.received = s.received)
  | gotSlot (w r : ℕ) (hw : w < numWriter) (hr : r < numReader)
      (hvisible : 0 < (s.mesh.ringAt (.writer w) r).visible)
      (hrep : Mesh.Replaced s.mesh (.writer w) r (s.mesh.ringAt (.writer w) r).extract.1.ack
        s'.mesh)
      (hheld : s'.readerHeld = s.readerHeld) (hwritten : s'.written = s.written)
      (hreceived : s'.received = s.received)
  | wrote (w r : ℕ) (hw : w < numWriter) (hr : r < numReader) (addr : SlotAddr)
      (ring : ZeroRingBuffer SlotAddr) (hins : (s.mesh.ringAt (.reader r) w).insert addr = some ring)
      (hrep : Mesh.Replaced s.mesh (.reader r) w ring s'.mesh)
      (hheld : s'.readerHeld = s.readerHeld) (item : WrapItem T)
      (hwritten : s'.written = log s.written w r item) (hreceived : s'.received = s.received)
  | gotMessage (w r i : ℕ) (hw : w < numWriter) (hr : r < numReader)
      (hvisible : 0 < (s.mesh.ringAt (.reader r) w).visible)
      (hrep : Mesh.Replaced s.mesh (.reader r) w (s.mesh.ringAt (.reader r) w).extract.1.ack
        s'.mesh)
      (hheld : s'.readerHeld =
        Function.update s.readerHeld r (s.readerHeld r ++ [.slot w i]))
      (hwritten : s'.written = s.written) (item : WrapItem T)
      (hreceived : s'.received = log s.received r w item)
  | returned (w r i : ℕ) (hw : w < numWriter) (hr : r < numReader)
      (hmem : .slot w i ∈ s.readerHeld r) (ring : ZeroRingBuffer SlotAddr)
      (hins : (s.mesh.ringAt (.writer w) r).insert (.slot w i) = some ring)
      (hrep : Mesh.Replaced s.mesh (.writer w) r ring s'.mesh)
      (hheld : s'.readerHeld =
        Function.update s.readerHeld r ((s.readerHeld r).erase (.slot w i)))
      (hwritten : s'.written = s.written) (hreceived : s'.received = s.received)

variable {numWriter numReader uninit : ℕ} {s s' : Channel T} {m : Mesh T}

theorem Inv.circulates_getSlot (hs : s.Inv numWriter numReader) {w : ℕ}
    (hstep : Channel.step numWriter numReader s (.getSlot w) = some s') :
    Circulates numWriter numReader s s' := by
  simp only [Channel.step] at hstep
  split_ifs at hstep with hw
  obtain ⟨⟨addr, mesh⟩, hget, rfl⟩ := Option.map_eq_some_iff.mp hstep
  obtain ⟨r, hr, hvisible, -, hrep⟩ := Mesh.getSlot_cases (hs.rings.writer_wellFormed hw) hget
  rw [hs.rings.writer_count w hw] at hr
  exact .gotSlot w r hw hr hvisible hrep rfl rfl rfl

theorem Inv.circulates_write (hs : s.Inv numWriter numReader) {w r : ℕ} {addr : SlotAddr}
    (hstep : Channel.step numWriter numReader s (.write w r addr) = some s') :
    Circulates numWriter numReader s s' := by
  simp only [Channel.step] at hstep
  split_ifs at hstep with hguard
  obtain ⟨hw, hr, -, -⟩ := hguard
  obtain ⟨mesh, hwrite, rfl⟩ := Option.map_eq_some_iff.mp hstep
  obtain ⟨ring, hins, hrep⟩ := hs.wired.write_cases hw hr hwrite
  exact .wrote w r hw hr addr ring hins hrep rfl _ rfl rfl

theorem Inv.circulates_read (hs : s.Inv numWriter numReader) {r : ℕ}
    (hstep : Channel.step numWriter numReader s (.read r) = some s') :
    Circulates numWriter numReader s s' := by
  rcases step_read_cases hstep with ⟨hr, ⟨hnone, rfl⟩ | ⟨addr, haddr, rfl⟩⟩
  · obtain ⟨-, cur, hmesh⟩ := Mesh.read_none_cases (hs.rings.reader_wellFormed hr) hnone
    refine .still ?_ rfl rfl rfl
    intro queue i
    dsimp only
    rw [hmesh]
    by_cases hqueue : queue = .reader r
    · subst hqueue
      simp [Mesh.ringAt]
    · simp [Mesh.ringAt, hqueue]
  · obtain ⟨w, hw, hvisible, hoffset, hrep⟩ :=
      Mesh.read_some_cases (hs.rings.reader_wellFormed hr) haddr
    rw [hs.rings.reader_count r hr] at hw
    have hmem : addr ∈ s.inTransit w r := by
      rw [inTransit, ((hs.rings.reader_ring r hr w hw).taken hvisible).2, ← hoffset]
      exact List.mem_cons_self ..
    obtain ⟨⟨i, rfl⟩, hsource⟩ := hs.admits (.transit ⟨w, hw⟩ ⟨r, hr⟩) addr hmem
    refine .gotMessage w r i hw hr hvisible hrep rfl rfl (s.mesh.slots (.slot w i)) ?_
    dsimp only
    rw [hsource]

theorem Inv.circulates_ack (hs : s.Inv numWriter numReader) {r : ℕ} {addr : SlotAddr}
    (hstep : Channel.step numWriter numReader s (.ack r addr) = some s') :
    Circulates numWriter numReader s s' := by
  simp only [Channel.step] at hstep
  split_ifs at hstep with hguard
  obtain ⟨hr, hmem⟩ := hguard
  obtain ⟨mesh, hack, rfl⟩ := Option.map_eq_some_iff.mp hstep
  obtain ⟨w, hw, ⟨i, rfl⟩, hsource⟩ := hs.admits (.reader ⟨r, hr⟩) addr hmem
  rw [hsource] at hack
  obtain ⟨ring, hins, hrep⟩ := hs.wired.ack_cases hw hr hack
  exact .returned w r i hw hr hmem ring hins hrep rfl rfl rfl

/-- The inversion of a call other than `Flush`. -/
theorem Inv.circulates (hs : s.Inv numWriter numReader) {call : Call T}
    (hcall : call.isFlush = false) (hstep : Channel.step numWriter numReader s call = some s') :
    Circulates numWriter numReader s s' := by
  cases call with
  | getSlot w => exact hs.circulates_getSlot hstep
  | fill w addr item =>
      simp only [Channel.step] at hstep
      split_ifs at hstep
      obtain rfl := Option.some.inj hstep
      exact .still (fun _ _ => rfl) rfl rfl rfl
  | write w r addr => exact hs.circulates_write hstep
  | flushWriter w => cases hcall
  | read r => exact hs.circulates_read hstep
  | ack r addr => exact hs.circulates_ack hstep
  | flushReader r => cases hcall

/-! ## How many slots are invisible -/

variable (numWriter numReader) in
/-- Without a `Flush` the rings count what has gone through them: the messages written, and
the slots of the first fill and those that the reader has returned. -/
structure BatchInv (s : Channel T) : Prop where
  messages : ∀ w < numWriter, ∀ r < numReader,
    (s.mesh.ringAt (.reader r) w).Batched (s.written w r).length
  free : ∀ w < numWriter, ∀ r < numReader, ∃ returned,
    (s.mesh.ringAt (.writer w) r).Batched ((if r = 0 then rbSize - 1 else 0) + returned) ∧
      returned + countOf w (s.readerHeld r) = (s.received r w).length

theorem BatchInv.init (hm : m.StartedRings uninit numWriter numReader) :
    (machine numWriter numReader m).init.BatchInv numWriter numReader where
  messages := by
    intro w _ r hr
    change (m.ringAt (.reader r) w).Batched 0
    rw [hm.unwritten r hr w]
    exact ZeroRingBuffer.batched_freshRing _ _
  free := by
    intro w hw r _
    refine ⟨0, ?_, rfl⟩
    change (m.ringAt (.writer w) r).Batched _
    by_cases hr : r = 0
    · subst hr
      exact hm.filled w hw
    · rw [hm.unreturned w hw r hr, if_neg hr]
      exact ZeroRingBuffer.batched_freshRing _ _

/-- Reading one more message, or returning one. -/
theorem countOf_update_append {readerHeld : ℕ → List SlotAddr} {received : ℕ → ℕ → List (WrapItem T)}
    {returned w r i w' r' : ℕ} {item : WrapItem T}
    (hcount : returned + countOf w' (readerHeld r') = (received r' w').length) :
    returned + countOf w' (Function.update readerHeld r (readerHeld r ++ [.slot w i]) r') =
      (log received r w item r' w').length := by
  by_cases hr : r' = r
  · subst hr
    rw [Function.update_self, countOf_append, countOf_singleton]
    by_cases hw : w' = w
    · subst hw
      rw [log_self, List.length_append, List.length_singleton, if_pos rfl]
      omega
    · rw [log_of_ne fun _ => hw, if_neg (Ne.symm hw)]
      exact hcount
  · rw [Function.update_of_ne hr, log_of_ne fun h => absurd h hr]
    exact hcount

/-- Every call other than `Flush` keeps the counts. -/
theorem BatchInv.circulates (hb : s.BatchInv numWriter numReader)
    (hs : s.Inv numWriter numReader) (hstep : Circulates numWriter numReader s s') :
    s'.BatchInv numWriter numReader := by
  cases hstep with
  | still hrings hheld hwritten hreceived =>
      refine ⟨?_, ?_⟩
      · simp only [hrings, hwritten]
        exact hb.messages
      · simp only [hrings, hheld, hreceived]
        exact hb.free
  | gotSlot w r hw hr hvisible hrep hheld hwritten hreceived =>
      refine ⟨?_, ?_⟩
      · intro w' hw' r' hr'
        rw [hrep.other (.reader r') w' (.inl (QueueId.reader_ne_writer _ _)), hwritten]
        exact hb.messages w' hw' r' hr'
      · intro w' hw' r' hr'
        rw [hheld, hreceived]
        obtain ⟨returned, hbatched, hcount⟩ := hb.free w' hw' r' hr'
        refine ⟨returned, ?_, hcount⟩
        by_cases hsame : w' = w ∧ r' = r
        · obtain ⟨rfl, rfl⟩ := hsame
          rw [hrep.ring_eq]
          exact hbatched.extract_ack (hs.rings.writer_ring w' hw r' hr).1 hvisible
        · rwa [hrep.other_writer hsame]
  | wrote w r hw hr addr ring hins hrep hheld item hwritten hreceived =>
      refine ⟨?_, ?_⟩
      · intro w' hw' r' hr'
        rw [hwritten]
        by_cases hsame : w' = w ∧ r' = r
        · obtain ⟨rfl, rfl⟩ := hsame
          rw [hrep.ring_eq, log_self, List.length_append, List.length_singleton]
          exact (hb.messages w' hw' r' hr').insert (hs.rings.reader_ring r' hr w' hw).1 hins
        · rw [hrep.other_reader hsame, log_of_ne (not_and.mp hsame)]
          exact hb.messages w' hw' r' hr'
      · intro w' hw' r' hr'
        rw [hrep.other (.writer w') r' (.inl (QueueId.writer_ne_reader _ _)), hheld, hreceived]
        exact hb.free w' hw' r' hr'
  | gotMessage w r i hw hr hvisible hrep hheld hwritten item hreceived =>
      refine ⟨?_, ?_⟩
      · intro w' hw' r' hr'
        rw [hwritten]
        by_cases hsame : w' = w ∧ r' = r
        · obtain ⟨rfl, rfl⟩ := hsame
          rw [hrep.ring_eq]
          exact (hb.messages w' hw' r' hr').extract_ack (hs.rings.reader_ring r' hr w' hw).1
            hvisible
        · rw [hrep.other_reader hsame]
          exact hb.messages w' hw' r' hr'
      · intro w' hw' r' hr'
        rw [hrep.other (.writer w') r' (.inl (QueueId.writer_ne_reader _ _)), hheld, hreceived]
        obtain ⟨returned, hbatched, hcount⟩ := hb.free w' hw' r' hr'
        exact ⟨returned, hbatched, countOf_update_append hcount⟩
  | returned w r i hw hr hmem ring hins hrep hheld hwritten hreceived =>
      refine ⟨?_, ?_⟩
      · intro w' hw' r' hr'
        rw [hrep.other (.reader r') w' (.inl (QueueId.reader_ne_writer _ _)), hwritten]
        exact hb.messages w' hw' r' hr'
      · intro w' hw' r' hr'
        rw [hheld, hreceived]
        obtain ⟨returned, hbatched, hcount⟩ := hb.free w' hw' r' hr'
        by_cases hsame : w' = w ∧ r' = r
        · obtain ⟨rfl, rfl⟩ := hsame
          refine ⟨returned + 1, ?_, ?_⟩
          · rw [hrep.ring_eq, ← Nat.add_assoc]
            exact hbatched.insert (hs.rings.writer_ring w' hw r' hr).1 hins
          · rw [Function.update_self]
            rw [countOf_erase hmem, if_pos rfl] at hcount
            omega
        · refine ⟨returned, by rwa [hrep.other_writer hsame], ?_⟩
          by_cases hr' : r' = r
          · subst hr'
            have hne : w ≠ w' := fun h => hsame ⟨h.symm, rfl⟩
            rw [Function.update_self]
            rw [countOf_erase hmem, if_neg hne] at hcount
            exact hcount
          · rw [Function.update_of_ne hr']
            exact hcount

/-- The counts in every state that is reached without a `Flush`. -/
theorem Inv.reachable_unflushed {cleared : WrapItem T} (hpos : 0 < numReader)
    (hstart : Mesh.start cleared uninit numWriter numReader = some m)
    (hreach : (unflushed numWriter numReader m).Reachable s) :
    s.Inv numWriter numReader ∧ s.BatchInv numWriter numReader := by
  refine Machine.Reachable.invariant
    (fun s => s.Inv numWriter numReader ∧ s.BatchInv numWriter numReader)
    ⟨Inv.init (Mesh.started_of_start hstart) hpos,
      BatchInv.init (Mesh.startedRings_of_start hstart)⟩ ?_ hreach
  rintro s call s' ⟨hs, hb⟩ hstep
  change (if call.isFlush then none else Channel.step numWriter numReader s call) = some s' at hstep
  split_ifs at hstep with hflush
  exact ⟨hs.step hstep, hb.circulates hs (hs.circulates (Bool.eq_false_iff.mpr hflush) hstep)⟩

/-- Every slot of a writer is in one of its rings, with it, on the way to a reader or with
a reader. -/
theorem Inv.slots_le (hs : s.Inv numWriter numReader) {w : ℕ} (hw : w < numWriter) :
    rbSize - 1 ≤ ∑ r ∈ Finset.range numReader, ((s.freeSlots w r).length +
      (s.inTransit w r).length + (s.readerHeld r).length) + (s.writerHeld w).length := by
  have hsubset : Mesh.allSlots w ⊆ (List.range numReader).flatMap (fun r =>
      s.freeSlots w r ++ s.inTransit w r ++ s.readerHeld r) ++ s.writerHeld w := by
    intro addr haddr
    obtain ⟨i, hi, rfl⟩ := List.mem_map.mp haddr
    obtain ⟨place, hmem, -⟩ := hs.existsUnique_place
      (mem_allSlots_iff.mpr ⟨w, hw, i, List.mem_range.mp hi, rfl⟩)
    have hadmits := hs.admits place _ hmem
    rw [List.mem_append, List.mem_flatMap]
    cases place with
    | free w' r =>
        obtain ⟨j, hj⟩ := hadmits
        obtain rfl := (SlotAddr.slot.inj hj).1
        refine .inl ⟨r, List.mem_range.mpr r.isLt, ?_⟩
        exact List.mem_append_left _ (List.mem_append_left _ hmem)
    | writer w' =>
        obtain ⟨j, hj⟩ := hadmits
        obtain rfl := (SlotAddr.slot.inj hj).1
        exact .inr hmem
    | transit w' r =>
        obtain ⟨⟨j, hj⟩, -⟩ := hadmits
        obtain rfl := (SlotAddr.slot.inj hj).1
        refine .inl ⟨r, List.mem_range.mpr r.isLt, ?_⟩
        exact List.mem_append_left _ (List.mem_append_right _ hmem)
    | reader r =>
        refine .inl ⟨r, List.mem_range.mpr r.isLt, ?_⟩
        exact List.mem_append_right _ hmem
  have hnodup : (Mesh.allSlots w).Nodup := List.nodup_range.map fun i j h => by simpa using h
  have hle := (List.subperm_of_subset hnodup hsubset).length_le
  simp only [Mesh.allSlots, List.length_map, List.length_range, List.length_append,
    List.length_flatMap] at hle
  exact hle

variable (numReader) in
/-- Every reader has read and acknowledged all that it can see. -/
structure Drained (s : Channel T) : Prop where
  read : ∀ r < numReader, (s.mesh.read r).1 = none
  acked : ∀ r < numReader, s.readerHeld r = []

/-- The messages that a reader cannot see are less than a batch. -/
theorem Drained.length_inTransit (hd : s.Drained numReader) (hs : s.Inv numWriter numReader)
    (hb : s.BatchInv numWriter numReader) {w r : ℕ} (hw : w < numWriter) (hr : r < numReader) :
    (s.inTransit w r).length = (s.written w r).length % rbBatch := by
  rw [inTransit, ZeroRingBuffer.length_contents]
  apply (hb.messages w hw r hr).pending_of_visible_eq_zero
  exact (hs.read_none hr (hd.read r hr)).2.2 w hw

/-- The slots that a writer cannot see are those left over from the first fill: readers
have returned whole batches. -/
theorem Drained.length_freeSlots (hd : s.Drained numReader) (hs : s.Inv numWriter numReader)
    (hb : s.BatchInv numWriter numReader) {w r : ℕ} (hw : w < numWriter) (hr : r < numReader)
    (hzero : (s.mesh.ringAt (.writer w) r).visible = 0) :
    (s.freeSlots w r).length = if r = 0 then rbBatch - 1 else 0 := by
  obtain ⟨returned, hbatched, hcount⟩ := hb.free w hw r hr
  have htransit := hd.length_inTransit hs hb hw hr
  have hwritten := congrArg List.length (hs.written_eq w hw r hr)
  rw [List.length_append, List.length_map, htransit] at hwritten
  rw [hd.acked r hr] at hcount
  have hwhole : returned % rbBatch = 0 := by
    have hreturned : returned =
        (s.written w r).length - (s.written w r).length % rbBatch := by
      rw [show countOf w [] = 0 from rfl] at hcount
      omega
    rw [hreturned]
    exact Nat.sub_mod_eq_zero_of_mod_eq (Nat.mod_mod _ _).symm
  rw [freeSlots, ZeroRingBuffer.length_contents, hbatched.pending_of_visible_eq_zero hzero,
    Nat.add_mod, hwhole, Nat.add_zero, Nat.mod_mod]
  split_ifs
  · rfl
  · rfl

/-- With few readers a writer always sees a slot or holds one. -/
theorem Drained.getSlot_ne_none (hd : s.Drained numReader) (hs : s.Inv numWriter numReader)
    (hb : s.BatchInv numWriter numReader) {w : ℕ} (hw : w < numWriter)
    (hbound : (rbBatch - 1) * (numReader + 1) < rbSize - 1) (hheld : s.writerHeld w = []) :
    s.mesh.getSlot w ≠ none := by
  intro hnone
  rw [Mesh.getSlot_eq_none_iff (hs.rings.writer_wellFormed hw), hs.rings.writer_count w hw]
    at hnone
  have htotal := hs.slots_le hw
  have hterm : ∀ r ∈ Finset.range numReader, (s.freeSlots w r).length +
      (s.inTransit w r).length + (s.readerHeld r).length ≤
      (rbBatch - 1) + if r = 0 then rbBatch - 1 else 0 := by
    intro r hmem
    have hr := Finset.mem_range.mp hmem
    have hmod := Nat.mod_lt (s.written w r).length (show 0 < rbBatch by decide)
    rw [hd.length_freeSlots hs hb hw hr (hnone r hr), hd.length_inTransit hs hb hw hr,
      hd.acked r hr, List.length_nil]
    omega
  have hsum : ∑ r ∈ Finset.range numReader,
      ((rbBatch - 1) + if r = 0 then rbBatch - 1 else 0) ≤ (rbBatch - 1) * (numReader + 1) := by
    rw [Finset.sum_add_distrib, Finset.sum_const, Finset.card_range, smul_eq_mul,
      Finset.sum_ite_eq', Nat.mul_add, Nat.mul_one, Nat.mul_comm]
    apply Nat.add_le_add_left
    split_ifs
    · exact le_rfl
    · exact Nat.zero_le _
  have hall := (Finset.sum_le_sum hterm).trans hsum
  rw [hheld, List.length_nil] at htotal
  omega

/-! ## A run that hides all slots -/

theorem reachable_unflushed_step {call : Call T} (hcall : call.isFlush = false)
    (hreach : (unflushed numWriter numReader m).Reachable s)
    (hstep : step numWriter numReader s call = some s') :
    (unflushed numWriter numReader m).Reachable s' := by
  have hstep' : (unflushed numWriter numReader m).step s call = some s' := by
    simpa [unflushed, hcall] using hstep
  exact hreach.step hstep'

/-- `Write` succeeds while the writer's ring at the reader has room. -/
theorem Inv.write_eq_some (hs : s.Inv numWriter numReader) {w r : ℕ} {addr : SlotAddr}
    (hw : w < numWriter) (hr : r < numReader) (hmem : addr ∈ s.writerHeld w)
    (hsource : (s.mesh.slots addr).thrSource = w)
    (hroom : (s.inTransit w r).length + (s.mesh.ringAt (.reader r) w).unreleased + 1 < rbSize) :
    ∃ s', Channel.step numWriter numReader s (.write w r addr) = some s' := by
  have hring := hs.rings.reader_ring r hr w hw
  obtain ⟨ring, hins⟩ : ∃ ring, (s.mesh.ringAt (.reader r) w).insert addr = some ring := by
    rw [inTransit, ZeroRingBuffer.length_contents] at hroom
    rw [← Option.isSome_iff_exists, Option.isSome_iff_ne_none, Ne,
      hring.1.insert_eq_none_iff, hring.2]
    omega
  obtain ⟨q, hpush⟩ : ∃ q, (s.mesh.own (.reader r)).push w addr = some q :=
    ⟨_, LockFreeQueue.push_eq_some_iff.mpr ⟨ring, hins, rfl⟩⟩
  have hpeer : (s.mesh.peers (.writer w))[r]? = some (.reader r) := by
    simp [hs.wired.writer_peers w hw, hr]
  have hwrite : s.mesh.write w r addr =
      some { s.mesh with own := Function.update s.mesh.own (.reader r) q } := by
    simp only [Mesh.write, hpeer, hs.wired.writer_id w hw (by omega), Option.bind_some,
      Mesh.pushTo, hpush, Option.map_some]
  exact ⟨_, by rw [Channel.step, if_pos ⟨hw, hr, hmem, hsource⟩, hwrite, Option.map_some]⟩

/-- After `k` messages of the first writer, which gives each reader one message less than a
batch before it turns to the next reader. -/
structure Hiding (numWriter numReader : ℕ) (m : Mesh T) (s : Channel T) (k : ℕ) : Prop where
  reach : (unflushed numWriter numReader m).Reachable s
  first : (s.mesh.ringAt (.writer 0) 0).visible + k = rbSize - rbBatch
  others : ∀ r < numReader, r ≠ 0 → (s.mesh.ringAt (.writer 0) r).visible = 0
  unread : ∀ r < numReader, (s.mesh.ringAt (.reader r) 0).unreleased = 0
  held : s.writerHeld 0 = []
  quiet : ∀ r, s.readerHeld r = []
  unreceived : ∀ r w, s.received r w = []
  written : ∀ r, (s.written 0 r).length = min (rbBatch - 1) (k - (rbBatch - 1) * r)
  silent : ∀ w, w ≠ 0 → ∀ r, s.written w r = []

/-- What has been written is still in transit. -/
theorem Hiding.length_inTransit {k : ℕ} (h : Hiding numWriter numReader m s k)
    (hs : s.Inv numWriter numReader) {w r : ℕ} (hw : w < numWriter) (hr : r < numReader) :
    (s.inTransit w r).length = (s.written w r).length := by
  rw [hs.written_eq w hw r hr, h.unreceived, List.nil_append, List.length_map]

theorem Hiding.length_written_le {k : ℕ} (h : Hiding numWriter numReader m s k) (w r : ℕ) :
    (s.written w r).length ≤ rbBatch - 1 := by
  by_cases hw : w = 0
  · subst hw
    rw [h.written r]
    exact min_le_left _ _
  · rw [h.silent w hw r]
    exact Nat.zero_le _

theorem Hiding.init {cleared : WrapItem T} (hwriter : 0 < numWriter)
    (hstart : Mesh.start cleared uninit numWriter numReader = some m) :
    Hiding numWriter numReader m (machine numWriter numReader m).init 0 := by
  have hrings := Mesh.startedRings_of_start hstart
  have hfilled := hrings.filled 0 hwriter
  have hholds := ((Mesh.started_of_start hstart).writer_queue 0 hwriter).2 0
  refine ⟨Machine.reachable_init, ?_, ?_, ?_, rfl, fun _ => rfl, fun _ _ => rfl, ?_,
    fun _ _ _ => rfl⟩
  · have hlength : (m.ringAt (.writer 0) 0).pending = rbSize - 1 := by
      rw [← ZeroRingBuffer.length_contents, Mesh.ringAt, hholds.contents_eq, if_pos rfl]
      simp [Mesh.allSlots]
    have hpending := hfilled.pending_eq
    rw [hlength, hfilled.count_eq] at hpending
    change (m.ringAt (.writer 0) 0).visible + 0 = _
    have hrest : (rbSize - 1) % rbBatch = rbBatch - 1 := rfl
    have hsize : rbSize = 2000 := rfl
    have hbatch : rbBatch = 50 := rfl
    omega
  · intro r _ hr
    change (m.ringAt (.writer 0) r).visible = 0
    rw [hrings.unreturned 0 hwriter r hr]
    rfl
  · intro r hr
    change (m.ringAt (.reader r) 0).unreleased = 0
    rw [hrings.unwritten r hr 0]
    rfl
  · intro r
    rw [Nat.zero_sub, Nat.min_zero]
    rfl

/-- One more message goes to the reader whose turn it is. -/
theorem written_succ (k r : ℕ) :
    min (rbBatch - 1) (k + 1 - (rbBatch - 1) * r) =
      min (rbBatch - 1) (k - (rbBatch - 1) * r) + if r = k / (rbBatch - 1) then 1 else 0 := by
  rw [show rbBatch - 1 = 49 from rfl]
  split_ifs <;> omega

/-- `GetSlot` of the first writer takes from its ring `0`. -/
theorem Hiding.getSlot {k : ℕ} (h : Hiding numWriter numReader m s k)
    (hs : s.Inv numWriter numReader) (hwriter : 0 < numWriter) (hpos : 0 < numReader)
    (hk : k < rbSize - rbBatch) :
    ∃ addr mesh, s.mesh.getSlot 0 = some (addr, mesh) ∧
      Mesh.Replaced s.mesh (.writer 0) 0 (s.mesh.ringAt (.writer 0) 0).extract.1.ack mesh ∧
      (s.mesh.ringAt (.writer 0) 0).visible = (mesh.ringAt (.writer 0) 0).visible + 1 := by
  have hwf := hs.rings.writer_wellFormed hwriter
  have hcount := hs.rings.writer_count 0 hwriter
  have hfirst := h.first
  obtain ⟨⟨addr, mesh⟩, hget⟩ : ∃ result, s.mesh.getSlot 0 = some result := by
    rw [← Option.ne_none_iff_exists', Ne, Mesh.getSlot_eq_none_iff hwf, hcount]
    intro hempty
    rw [hempty 0 hpos] at hfirst
    omega
  obtain ⟨r, hr, hvisible, -, hrep⟩ := Mesh.getSlot_cases hwf hget
  rw [hcount] at hr
  obtain rfl : r = 0 := by
    by_contra hne
    rw [h.others r hr hne] at hvisible
    cases hvisible
  refine ⟨addr, mesh, hget, hrep, ?_⟩
  rw [hrep.ring_eq]
  exact ((hs.rings.writer_ring 0 hwriter 0 hpos).1.extract_ack hvisible).visible_eq

/-- `GetSlot` and a store into the slot. -/
theorem Hiding.prepared {k : ℕ} (h : Hiding numWriter numReader m s k)
    (hs : s.Inv numWriter numReader) (hwriter : 0 < numWriter) (hpos : 0 < numReader)
    (hk : k < rbSize - rbBatch) (item : WrapItem T) :
    ∃ addr s', (unflushed numWriter numReader m).Reachable s' ∧ s'.writerHeld 0 = [addr] ∧
      (s'.mesh.slots addr).thrSource = 0 ∧
      s'.readerHeld = s.readerHeld ∧ s'.written = s.written ∧ s'.received = s.received ∧
      (s.mesh.ringAt (.writer 0) 0).visible = (s'.mesh.ringAt (.writer 0) 0).visible + 1 ∧
      (∀ r, r ≠ 0 → s'.mesh.ringAt (.writer 0) r = s.mesh.ringAt (.writer 0) r) ∧
      ∀ r w, s'.mesh.ringAt (.reader r) w = s.mesh.ringAt (.reader r) w := by
  obtain ⟨addr, mesh, hget, hrep, hvisible⟩ := h.getSlot hs hwriter hpos hk
  have hgot : step numWriter numReader s (.getSlot 0) = some { s with
      mesh := mesh
      writerHeld := Function.update s.writerHeld 0 (s.writerHeld 0 ++ [addr]) } := by
    rw [step, if_pos hwriter, hget]
    rfl
  have hheld : Function.update s.writerHeld 0 (s.writerHeld 0 ++ [addr]) 0 = [addr] := by
    rw [Function.update_self, h.held, List.nil_append]
  have hfilled : step numWriter numReader
      { s with
        mesh := mesh
        writerHeld := Function.update s.writerHeld 0 (s.writerHeld 0 ++ [addr]) }
      (.fill 0 addr item) = some { s with
        mesh := mesh.store addr { item with thrSource := 0 }
        writerHeld := Function.update s.writerHeld 0 (s.writerHeld 0 ++ [addr]) } := by
    have hmem : addr ∈ Function.update s.writerHeld 0 (s.writerHeld 0 ++ [addr]) 0 := by
      rw [hheld]
      exact List.mem_cons_self ..
    rw [step, if_pos ⟨hwriter, hmem⟩]
  refine ⟨addr, _, reachable_unflushed_step rfl (reachable_unflushed_step rfl h.reach hgot)
    hfilled, hheld, ?_, rfl, rfl, rfl, hvisible, ?_, ?_⟩
  · simp [Mesh.store]
  · intro r hr
    exact hrep.other _ _ (.inr hr)
  · intro r w
    exact hrep.other _ _ (.inl (QueueId.reader_ne_writer _ _))

/-- The next message: the prepared slot goes to the reader whose turn it is. -/
theorem Hiding.next {cleared : WrapItem T} {k : ℕ} (h : Hiding numWriter numReader m s k)
    (hwriter : 0 < numWriter) (hpos : 0 < numReader)
    (hstart : Mesh.start cleared uninit numWriter numReader = some m)
    (hk : k < rbSize - rbBatch) (hturn : k / (rbBatch - 1) < numReader) :
    ∃ s', Hiding numWriter numReader m s' (k + 1) := by
  obtain ⟨hs, -⟩ := Inv.reachable_unflushed hpos hstart h.reach
  obtain ⟨addr, s₁, hreach₁, hheld, hsource, hquiet, hwritten, hreceived, hvisible, hfree,
    hmessages⟩ := h.prepared hs hwriter hpos hk cleared
  have hs₁ := (Inv.reachable_unflushed hpos hstart hreach₁).1
  have hfirst := h.first
  obtain ⟨s₂, hwrote⟩ : ∃ s₂, step numWriter numReader s₁
      (.write 0 (k / (rbBatch - 1)) addr) = some s₂ := by
    apply hs₁.write_eq_some hwriter hturn (by rw [hheld]; exact List.mem_cons_self ..) hsource
    rw [inTransit, hmessages, h.unread _ hturn, ← inTransit, h.length_inTransit hs hwriter hturn]
    have hle := h.length_written_le 0 (k / (rbBatch - 1))
    have hsize : rbSize = 2000 := rfl
    have hbatch : rbBatch = 50 := rfl
    omega
  have hreach₂ := reachable_unflushed_step rfl hreach₁ hwrote
  simp only [step] at hwrote
  split_ifs at hwrote
  obtain ⟨mesh, hwrite, rfl⟩ := Option.map_eq_some_iff.mp hwrote
  obtain ⟨ring, hins, hrep⟩ := hs₁.wired.write_cases hwriter hturn hwrite
  refine ⟨_, hreach₂, ?_, ?_, ?_, ?_, ?_, ?_, ?_, ?_⟩
  · change (mesh.ringAt (.writer 0) 0).visible + (k + 1) = _
    rw [hrep.other (.writer 0) 0 (.inl (QueueId.writer_ne_reader _ _))]
    omega
  · intro r hr hne
    change (mesh.ringAt (.writer 0) r).visible = 0
    rw [hrep.other (.writer 0) r (.inl (QueueId.writer_ne_reader _ _)), hfree r hne]
    exact h.others r hr hne
  · intro r hr
    change (mesh.ringAt (.reader r) 0).unreleased = 0
    by_cases hsame : r = k / (rbBatch - 1)
    · have hinserted := (hs₁.rings.reader_ring _ hturn 0 hwriter).1.insert hins
      rw [hsame, hrep.ring_eq, hinserted.unreleased_eq, hmessages]
      exact h.unread _ hturn
    · rw [hrep.other_reader fun h => hsame h.2, hmessages]
      exact h.unread r hr
  · change Function.update s₁.writerHeld 0 ((s₁.writerHeld 0).erase addr) 0 = []
    rw [Function.update_self, hheld, List.erase_cons_head]
  · intro r
    change s₁.readerHeld r = []
    rw [hquiet]
    exact h.quiet r
  · intro r w
    change s₁.received r w = []
    rw [hreceived]
    exact h.unreceived r w
  · intro r
    change (log s₁.written 0 (k / (rbBatch - 1)) _ 0 r).length = _
    rw [written_succ, ← h.written r, hwritten]
    by_cases hsame : r = k / (rbBatch - 1)
    · subst hsame
      rw [log_self, List.length_append, List.length_singleton, if_pos rfl]
    · rw [log_of_ne fun _ => hsame, if_neg hsame, Nat.add_zero]
  · intro w hw r
    change log s₁.written 0 (k / (rbBatch - 1)) _ w r = []
    rw [log_of_ne fun h => absurd h hw, hwritten]
    exact h.silent w hw r

/-- The run up to any number of messages that the readers can hide. -/
theorem exists_hiding {cleared : WrapItem T} (hwriter : 0 < numWriter) (hpos : 0 < numReader)
    (hstart : Mesh.start cleared uninit numWriter numReader = some m)
    (hbound : rbSize - rbBatch ≤ (rbBatch - 1) * numReader) {k : ℕ} (hk : k ≤ rbSize - rbBatch) :
    ∃ s, Hiding numWriter numReader m s k := by
  induction k with
  | zero => exact ⟨_, Hiding.init hwriter hstart⟩
  | succ k ih =>
      obtain ⟨s, hs⟩ := ih (by omega)
      apply hs.next hwriter hpos hstart (by omega)
      rw [Nat.div_lt_iff_lt_mul (by decide), Nat.mul_comm]
      omega

/-- No reader sees any of the messages. -/
theorem Hiding.drained {k : ℕ} (h : Hiding numWriter numReader m s k)
    (hs : s.Inv numWriter numReader) (hb : s.BatchInv numWriter numReader) :
    s.Drained numReader := by
  refine ⟨?_, fun r _ => h.quiet r⟩
  intro r hr
  cases hread : (s.mesh.read r).1 with
  | none => rfl
  | some addr =>
      obtain ⟨w, hw, hvisible, -⟩ :=
        Mesh.read_some_cases (hs.rings.reader_wellFormed hr) hread
      rw [hs.rings.reader_count r hr] at hw
      have hbatched := hb.messages w hw r hr
      have hpending := hbatched.pending_eq
      rw [hbatched.count_eq, ← ZeroRingBuffer.length_contents] at hpending
      have htransit := h.length_inTransit hs hw hr
      rw [inTransit] at htransit
      have hle := h.length_written_le w r
      rw [htransit, Nat.mod_eq_of_lt (by
        have hbatch : rbBatch = 50 := rfl
        omega)] at hpending
      omega

/-- With many readers there is a state in which nobody can do anything but wait. -/
theorem exists_starved {cleared : WrapItem T} (hwriter : 0 < numWriter) (hpos : 0 < numReader)
    (hstart : Mesh.start cleared uninit numWriter numReader = some m)
    (hbound : rbSize - 1 ≤ (rbBatch - 1) * (numReader + 1)) :
    ∃ s, (unflushed numWriter numReader m).Reachable s ∧ s.Drained numReader ∧
      s.mesh.getSlot 0 = none ∧ s.writerHeld 0 = [] := by
  have henough : rbSize - rbBatch ≤ (rbBatch - 1) * numReader := by
    rw [Nat.mul_add, Nat.mul_one] at hbound
    have hsize : rbSize = 2000 := rfl
    have hbatch : rbBatch = 50 := rfl
    omega
  obtain ⟨s, h⟩ := exists_hiding hwriter hpos hstart henough le_rfl
  obtain ⟨hs, hb⟩ := Inv.reachable_unflushed hpos hstart h.reach
  refine ⟨s, h.reach, h.drained hs hb, ?_, h.held⟩
  rw [Mesh.getSlot_eq_none_iff (hs.rings.writer_wellFormed hwriter),
    hs.rings.writer_count 0 hwriter]
  intro r hr
  by_cases hzero : r = 0
  · subst hzero
    have hfirst := h.first
    omega
  · exact h.others r hr hzero

/-- **When batched publication cannot starve a writer.** On a started mesh without a
`Flush`, in every reachable state in which every reader has read and acknowledged all that
it can see, each writer sees a free slot or holds one; this is so exactly when the slots of
a writer are more than one batch less one for each reader and one for the first fill. With
the constants of the source that is up to 39 readers. -/
theorem getSlot_never_starves_iff (cleared : WrapItem T) (uninit : ℕ) {numWriter numReader : ℕ}
    (hwriter : 0 < numWriter) (hpos : 0 < numReader) {m : Mesh T}
    (hstart : Mesh.start cleared uninit numWriter numReader = some m) :
    (∀ s, (unflushed numWriter numReader m).Reachable s → s.Drained numReader →
      ∀ w < numWriter, s.mesh.getSlot w ≠ none ∨ s.writerHeld w ≠ []) ↔
      (rbBatch - 1) * (numReader + 1) < rbSize - 1 := by
  constructor
  · intro hnever
    by_contra hmany
    obtain ⟨s, hreach, hdrained, hget, hheld⟩ :=
      exists_starved hwriter hpos hstart (Nat.not_lt.mp hmany)
    rcases hnever s hreach hdrained 0 hwriter with hsees | hholds
    · exact hsees hget
    · exact hholds hheld
  · intro hbound s hreach hdrained w hw
    obtain ⟨hs, hb⟩ := Inv.reachable_unflushed hpos hstart hreach
    by_cases hheld : s.writerHeld w = []
    · exact .inl (hdrained.getSlot_ne_none hs hb hw hbound hheld)
    · exact .inr hheld

/-- Two writers and 39 readers. -/
theorem getSlot_never_starves_iff_39 :
    ∃ m : Mesh ℕ, Mesh.start ⟨.normal, 0, 0, 0, 0⟩ 0 2 39 = some m ∧
      ∀ s, (unflushed 2 39 m).Reachable s → s.Drained 39 →
        ∀ w < 2, s.mesh.getSlot w ≠ none ∨ s.writerHeld w ≠ [] := by
  obtain ⟨m, hstart, -⟩ := Mesh.start_eq_some (T := ℕ) ⟨.normal, 0, 0, 0, 0⟩ 0 2 39
  exact ⟨m, hstart,
    (getSlot_never_starves_iff _ _ (by decide) (by decide) hstart).mpr (by decide)⟩

/-- One writer and 40 readers: the writer hides 49 messages from each of 39 readers and 39
from the last one, the other 49 slots are the rest of the first fill. -/
theorem getSlot_starves_40 :
    ∃ m : Mesh ℕ, Mesh.start ⟨.normal, 0, 0, 0, 0⟩ 0 1 40 = some m ∧
      ∃ s, (unflushed 1 40 m).Reachable s ∧ s.Drained 40 ∧
        ¬(s.mesh.getSlot 0 ≠ none ∨ s.writerHeld 0 ≠ []) := by
  obtain ⟨m, hstart, -⟩ := Mesh.start_eq_some (T := ℕ) ⟨.normal, 0, 0, 0, 0⟩ 0 1 40
  obtain ⟨s, hreach, hdrained, hget, hheld⟩ :=
    exists_starved (by decide) (by decide) hstart (by decide)
  exact ⟨m, hstart, s, hreach, hdrained, by simp [hget, hheld]⟩

end Channel

end AFStream.Queues

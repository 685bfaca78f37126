/-
# Writers and readers connected by rings

Each `MPSCWriter` owns a queue with one ring for each reader, in which its free
slots come back; each `MPSCReader` owns a queue with one ring for each writer, in
which the addresses of written slots arrive. Both sides hold references to the
queues of their peers in the order in which they were connected, and a call names
a peer by its position in that order. This module models the objects, the wiring
that `Worker::Start` performs and the filling of the free rings by `Init`, and
shows that positions and identities agree afterwards.
-/

import AFStream.Foundation.Machine
import AFStream.Queues.LockFreeQueue
import AFStream.WrapItem

namespace AFStream.Queues

open AFStream.Foundation

universe u v

/-- The address of a slot: the null pointer of cleared memory, or `slots + index` of
one writer. -/
inductive SlotAddr
  | null
  | slot (writer index : ℕ)
  deriving DecidableEq

/-- A reference to the queue that a writer or a reader owns. -/
inductive QueueId
  | writer (w : ℕ)
  | reader (r : ℕ)
  deriving DecidableEq

theorem QueueId.reader_ne_writer (r w : ℕ) : reader r ≠ writer w := by
  intro h
  cases h

theorem QueueId.writer_ne_reader (w r : ℕ) : writer w ≠ reader r :=
  (reader_ne_writer r w).symm

/-- The objects of one mesh: every owned queue, every vector of peers, the two kinds
of identity (`none` before it is set) and the memory behind the slots. -/
structure Mesh (T : Type u) where
  own : QueueId → LockFreeQueue SlotAddr
  peers : QueueId → List QueueId
  writerId : ℕ → Option ℕ
  readerId : ℕ → Option ℕ
  slots : SlotAddr → WrapItem T

namespace Mesh

variable {T : Type u}

/-- New writers and readers with cleared slots. -/
def create (cleared : WrapItem T) (uninit : ℕ) : Mesh T where
  own := fun _ => .create .null uninit
  peers := fun _ => []
  writerId := fun _ => none
  readerId := fun _ => none
  slots := fun _ => cleared

variable (m : Mesh T)

/-- `MPSCObject::ConnectPeer` -/
def connectPeer (uninit : ℕ) (self peer : QueueId) : Mesh T :=
  { m with
    own := Function.update m.own self ((m.own self).addQueue .null uninit)
    peers := Function.update m.peers self (m.peers self ++ [peer]) }

/-- `SetWriterId` -/
def setWriterId (w : ℕ) : Mesh T :=
  { m with writerId := Function.update m.writerId w (some w) }

/-- `SetReaderId` -/
def setReaderId (r : ℕ) : Mesh T :=
  { m with readerId := Function.update m.readerId r (some r) }

/-- One iteration of `ConnectDownThread` for the thread with id `w`. -/
def connectReader (uninit w r : ℕ) : Mesh T :=
  ((((m.setWriterId w).connectPeer uninit (.writer w) (.reader r)).setReaderId r).connectPeer
    uninit (.reader r) (.writer w))

/-- `ConnectDownThread` -/
def connectDownThread (uninit numReader w : ℕ) : Mesh T :=
  (List.range numReader).foldl (fun m r => m.connectReader uninit w r) m

/-- The wiring loop of `Worker::Start`. -/
def connect (cleared : WrapItem T) (uninit numWriter numReader : ℕ) : Mesh T :=
  (List.range numWriter).foldl (fun m w => m.connectDownThread uninit numReader w)
    (create cleared uninit)

/-- Push an address into one ring of a queue. -/
def pushTo (queue : QueueId) (ring : ℕ) (addr : SlotAddr) : Option (Mesh T) :=
  ((m.own queue).push ring addr).map fun q => { m with own := Function.update m.own queue q }

/-- `MPSCWriter::Init` for writer `w`: all slots but one go into its ring `0`. -/
def initWriter (w : ℕ) : Option (Mesh T) :=
  (List.range (rbSize - 1)).foldlM (fun m d => m.pushTo (.writer w) 0 (.slot w d)) m

/-- The mesh after the wiring and after every writer has run `Init`. -/
def start (cleared : WrapItem T) (uninit numWriter numReader : ℕ) : Option (Mesh T) :=
  (List.range numWriter).foldlM (fun m w => m.initWriter w)
    (connect cleared uninit numWriter numReader)

/-- `MPSCWriter::GetSlot`, undefined while it would spin. -/
def getSlot (w : ℕ) : Option (SlotAddr × Mesh T) :=
  match (m.own (.writer w)).pop with
  | (some addr, q) => some (addr, { m with own := Function.update m.own (.writer w) q })
  | (none, _) => none

/-- `MPSCWriter::Write` -/
def write (w r : ℕ) (addr : SlotAddr) : Option (Mesh T) :=
  (m.peers (.writer w))[r]?.bind fun queue =>
    (m.writerId w).bind fun id => m.pushTo queue id addr

/-- `MPSCReader::Read`, `none` standing for `NULL`. -/
def read (r : ℕ) : Option SlotAddr × Mesh T :=
  match (m.own (.reader r)).pop with
  | (addr, q) => (addr, { m with own := Function.update m.own (.reader r) q })

/-- `MPSCReader::Ack` -/
def ack (r writer : ℕ) (addr : SlotAddr) : Option (Mesh T) :=
  (m.peers (.reader r))[writer]?.bind fun queue =>
    (m.readerId r).bind fun id => m.pushTo queue id addr

/-- `Flush` of a writer or a reader: every ring of every peer's queue. -/
def flush (self : QueueId) : Mesh T :=
  (m.peers self).foldl
    (fun m peer => { m with own := Function.update m.own peer (m.own peer).flush }) m

/-- A store through the pointer to a slot. -/
def store (addr : SlotAddr) (item : WrapItem T) : Mesh T :=
  { m with slots := Function.update m.slots addr item }

/-! ## The wiring -/

/-- A queue with `k` new rings. -/
def freshQueue (uninit k : ℕ) : LockFreeQueue SlotAddr :=
  { LockFreeQueue.create .null uninit with numQueue := k }

theorem addQueue_freshQueue (uninit k : ℕ) :
    (freshQueue uninit k).addQueue .null uninit = freshQueue uninit (k + 1) := by
  have hrings : Function.update (freshQueue uninit k).rings (freshQueue uninit k).numQueue
      (LockFreeQueue.freshRing .null uninit) = (freshQueue uninit k).rings :=
    Function.update_eq_self _ _
  simp only [LockFreeQueue.addQueue, hrings]
  rfl

/-- Positions in the peer vectors, identities and ring counts agree for the first
`numWriter` writers and the first `numReader` readers. -/
structure Wired (m : Mesh T) (numWriter numReader : ℕ) : Prop where
  writer_peers : ∀ w < numWriter, m.peers (.writer w) = (List.range numReader).map .reader
  reader_peers : ∀ r < numReader, m.peers (.reader r) = (List.range numWriter).map .writer
  writer_id : ∀ w < numWriter, 0 < numReader → m.writerId w = some w
  reader_id : ∀ r < numReader, 0 < numWriter → m.readerId r = some r

/-- The state of the wiring loops after `numWriter` threads are connected to all
readers and, of the next thread, the first `k` iterations have run. -/
structure Connecting (m : Mesh T) (uninit numWriter numReader k : ℕ) : Prop where
  writer_peers : ∀ w, m.peers (.writer w) =
    (List.range (if w < numWriter then numReader else if w = numWriter then k else 0)).map
      .reader
  reader_peers : ∀ r < numReader, m.peers (.reader r) =
    (List.range (if r < k then numWriter + 1 else numWriter)).map .writer
  writer_own : ∀ w, m.own (.writer w) =
    freshQueue uninit (if w < numWriter then numReader else if w = numWriter then k else 0)
  reader_own : ∀ r < numReader, m.own (.reader r) =
    freshQueue uninit (if r < k then numWriter + 1 else numWriter)
  writer_id : ∀ w, (if w < numWriter then numReader else if w = numWriter then k else 0) ≠ 0 →
    m.writerId w = some w
  reader_id : ∀ r < numReader, (0 < numWriter ∨ r < k) → m.readerId r = some r

variable {m} {uninit numWriter numReader k : ℕ}

theorem create_connecting (cleared : WrapItem T) :
    (create cleared uninit).Connecting uninit 0 numReader 0 where
  writer_peers := by intro w; simp [create]
  reader_peers := by intro r _; simp [create]
  writer_own := by intro w; simp [create, freshQueue, LockFreeQueue.create]
  reader_own := by intro r _; simp [create, freshQueue, LockFreeQueue.create]
  writer_id := by intro w; simp
  reader_id := by intro r _; simp

/-- One iteration of the inner loop. -/
theorem Connecting.connectReader (hm : m.Connecting uninit numWriter numReader k)
    (hk : k < numReader) :
    (m.connectReader uninit numWriter k).Connecting uninit numWriter numReader (k + 1) where
  writer_peers := by
    intro w
    by_cases hw : w = numWriter
    · subst hw
      simp [Mesh.connectReader, Mesh.connectPeer, setWriterId, setReaderId, hm.writer_peers,
        List.range_succ]
    · simp [Mesh.connectReader, Mesh.connectPeer, setWriterId, setReaderId, hm.writer_peers, hw]
  reader_peers := by
    intro r hr
    by_cases hrk : r = k
    · subst hrk
      simp [Mesh.connectReader, Mesh.connectPeer, setWriterId, setReaderId,
        hm.reader_peers r hr, List.range_succ]
    · have hlt : (r < k + 1) = (r < k) := by
        rw [eq_iff_iff]
        omega
      simp [Mesh.connectReader, Mesh.connectPeer, setWriterId, setReaderId,
        hm.reader_peers r hr, hrk, hlt]
  writer_own := by
    intro w
    by_cases hw : w = numWriter
    · subst hw
      simp [Mesh.connectReader, Mesh.connectPeer, setWriterId, setReaderId, hm.writer_own,
        addQueue_freshQueue]
    · simp [Mesh.connectReader, Mesh.connectPeer, setWriterId, setReaderId, hm.writer_own, hw]
  reader_own := by
    intro r hr
    by_cases hrk : r = k
    · subst hrk
      simp [Mesh.connectReader, Mesh.connectPeer, setWriterId, setReaderId,
        hm.reader_own r hr, addQueue_freshQueue]
    · have hlt : (r < k + 1) = (r < k) := by
        rw [eq_iff_iff]
        omega
      simp [Mesh.connectReader, Mesh.connectPeer, setWriterId, setReaderId,
        hm.reader_own r hr, hrk, hlt]
  writer_id := by
    intro w hw
    by_cases hself : w = numWriter
    · subst hself
      simp [Mesh.connectReader, Mesh.connectPeer, setWriterId, setReaderId]
    · have hold := hm.writer_id w (by simpa [hself] using hw)
      simpa [Mesh.connectReader, Mesh.connectPeer, setWriterId, setReaderId, hself] using hold
  reader_id := by
    intro r hr hset
    by_cases hrk : r = k
    · subst hrk
      simp [Mesh.connectReader, Mesh.connectPeer, setWriterId, setReaderId]
    · have hold := hm.reader_id r hr (by omega)
      simpa [Mesh.connectReader, Mesh.connectPeer, setWriterId, setReaderId, hrk] using hold

/-- The whole inner loop connects one more thread. -/
theorem Connecting.connectDownThread (hm : m.Connecting uninit numWriter numReader 0) :
    (m.connectDownThread uninit numReader numWriter).Connecting uninit (numWriter + 1)
      numReader 0 := by
  have hloop : ∀ j ≤ numReader,
      ((List.range j).foldl (fun m r => m.connectReader uninit numWriter r) m).Connecting
        uninit numWriter numReader j := by
    intro j hj
    induction j with
    | zero => exact hm
    | succ j ih =>
        rw [List.range_succ, List.foldl_append]
        exact (ih (by omega)).connectReader (by omega)
  have hdone : (m.connectDownThread uninit numReader numWriter).Connecting uninit numWriter
      numReader numReader := hloop numReader le_rfl
  have hcount (w : ℕ) :
      (if w < numWriter then numReader else if w = numWriter then numReader else 0) =
        if w < numWriter + 1 then numReader else if w = numWriter + 1 then 0 else 0 := by
    split_ifs <;> omega
  refine ⟨?_, ?_, ?_, ?_, ?_, ?_⟩
  · intro w
    rw [← hcount]
    exact hdone.writer_peers w
  · intro r hr
    simpa [hr] using hdone.reader_peers r hr
  · intro w
    rw [← hcount]
    exact hdone.writer_own w
  · intro r hr
    simpa [hr] using hdone.reader_own r hr
  · intro w hw
    exact hdone.writer_id w (by rwa [hcount])
  · intro r hr _
    exact hdone.reader_id r hr (.inr hr)

/-- `Worker::Start` wires every writer to every reader, in thread-id order. -/
theorem connect_connecting (cleared : WrapItem T) (uninit numWriter numReader : ℕ) :
    (connect cleared uninit numWriter numReader).Connecting uninit numWriter numReader 0 := by
  induction numWriter with
  | zero => exact create_connecting cleared
  | succ n ih =>
      have hsnoc : connect cleared uninit (n + 1) numReader =
          (connect cleared uninit n numReader).connectDownThread uninit numReader n := by
        simp [connect, List.range_succ]
      rw [hsnoc]
      exact ih.connectDownThread

theorem Connecting.wired (hm : m.Connecting uninit numWriter numReader 0) :
    m.Wired numWriter numReader where
  writer_peers := by
    intro w hw
    simpa [hw] using hm.writer_peers w
  reader_peers := by
    intro r hr
    simpa using hm.reader_peers r hr
  writer_id := by
    intro w hw hpos
    exact hm.writer_id w (by simp only [hw, if_true]; omega)
  reader_id := by
    intro r hr hpos
    exact hm.reader_id r hr (.inl hpos)

/-! ## The free slots -/

/-- The slots that `Init` hands out; the last cell of the array is never used. -/
def allSlots (w : ℕ) : List SlotAddr := (List.range (rbSize - 1)).map (.slot w)

/-- A ring in order, of the source's capacity, with the given contents. -/
structure Holds (ring : ZeroRingBuffer SlotAddr) (addrs : List SlotAddr) : Prop where
  wellFormed : ring.WellFormed
  max_eq : ring.max = rbSize
  contents_eq : ring.contents = addrs

theorem freshRing_holds (uninit : ℕ) : Holds (LockFreeQueue.freshRing .null uninit) [] :=
  ⟨ZeroRingBuffer.create_wellFormed (by decide) _ _ _, rfl, ZeroRingBuffer.create_contents _ _ _ _⟩

/-- The queue of writer `w` while `Init` runs: ring `0` has received the first slots,
nothing has been released or taken. -/
structure Filling (q : LockFreeQueue SlotAddr) (uninit numReader w d : ℕ) : Prop where
  numQueue_eq : q.numQueue = numReader
  filled : Holds (q.rings 0) ((List.range d).map (.slot w))
  unreleased_eq : (q.rings 0).unreleased = 0
  others : ∀ r, r ≠ 0 → q.rings r = LockFreeQueue.freshRing .null uninit

theorem freshQueue_filling (uninit numReader w : ℕ) :
    Filling (freshQueue uninit numReader) uninit numReader w 0 where
  numQueue_eq := rfl
  filled := freshRing_holds uninit
  unreleased_eq := by
    simp [freshQueue, LockFreeQueue.create, LockFreeQueue.freshRing, ZeroRingBuffer.create,
      ZeroRingBuffer.unreleased, ZeroRingBuffer.gap]
  others := fun _ _ => rfl

/-- One iteration of `Init` never spins. -/
theorem Filling.push {q : LockFreeQueue SlotAddr} {w d : ℕ}
    (hq : Filling q uninit numReader w d) (hd : d < rbSize - 1) :
    ∃ q', q.push 0 (.slot w d) = some q' ∧ Filling q' uninit numReader w (d + 1) := by
  have hpending : (q.rings 0).pending = d := by
    rw [← ZeroRingBuffer.length_contents, hq.filled.contents_eq]
    simp
  obtain ⟨ring, hins⟩ : ∃ ring, (q.rings 0).insert (.slot w d) = some ring := by
    rw [← Option.isSome_iff_exists, Option.isSome_iff_ne_none, Ne,
      hq.filled.wellFormed.insert_eq_none_iff, hpending, hq.unreleased_eq, hq.filled.max_eq]
    omega
  have hinserted := hq.filled.wellFormed.insert hins
  refine ⟨{ q with rings := Function.update q.rings 0 ring },
    LockFreeQueue.push_eq_some_iff.mpr ⟨ring, hins, rfl⟩, hq.numQueue_eq, ?_, ?_, ?_⟩
  · refine ⟨by simpa using hinserted.wellFormed, ?_, ?_⟩
    · simpa using hinserted.max_eq.trans hq.filled.max_eq
    · simp [hinserted.contents_eq, hq.filled.contents_eq, List.range_succ]
  · simpa using hinserted.unreleased_eq.trans hq.unreleased_eq
  · intro r hr
    simpa [hr] using hq.others r hr

/-- `Init` succeeds and touches only the writer's own queue. -/
theorem initWriter_eq_some {w : ℕ} (hown : m.own (.writer w) = freshQueue uninit numReader) :
    ∃ q, Filling q uninit numReader w (rbSize - 1) ∧
      m.initWriter w = some { m with own := Function.update m.own (.writer w) q } := by
  have hloop : ∀ d ≤ rbSize - 1, ∃ q, Filling q uninit numReader w d ∧
      (List.range d).foldlM (fun m d => m.pushTo (.writer w) 0 (.slot w d)) m =
        some { m with own := Function.update m.own (.writer w) q } := by
    intro d hd
    induction d with
    | zero =>
        refine ⟨freshQueue uninit numReader, freshQueue_filling _ _ _, ?_⟩
        simp [← hown]
    | succ d ih =>
        obtain ⟨q, hq, hrun⟩ := ih (by omega)
        obtain ⟨q', hpush, hq'⟩ := hq.push (by omega)
        refine ⟨q', hq', ?_⟩
        rw [List.range_succ, List.foldlM_append, hrun]
        simp [pushTo, hpush]
  exact hloop _ le_rfl

/-- The mesh after `Init`: wired, all slots of each writer in its ring `0` and every
other ring empty. -/
structure Started (m : Mesh T) (numWriter numReader : ℕ) : Prop where
  wired : m.Wired numWriter numReader
  writer_queue : ∀ w < numWriter, (m.own (.writer w)).numQueue = numReader ∧
    ∀ r, Holds ((m.own (.writer w)).rings r) (if r = 0 then allSlots w else [])
  reader_queue : ∀ r < numReader, (m.own (.reader r)).numQueue = numWriter ∧
    ∀ w, Holds ((m.own (.reader r)).rings w) []

theorem Filling.holds {q : LockFreeQueue SlotAddr} {w : ℕ}
    (hq : Filling q uninit numReader w (rbSize - 1)) (r : ℕ) :
    Holds (q.rings r) (if r = 0 then allSlots w else []) := by
  by_cases hr : r = 0
  · subst hr
    exact hq.filled
  · rw [hq.others r hr, if_neg hr]
    exact freshRing_holds uninit

/-- After the first `j` writers have run `Init`, their queues are filled and nothing
else has changed. -/
theorem initWriters_eq_some (hm : m.Connecting uninit numWriter numReader 0) {j : ℕ}
    (hj : j ≤ numWriter) :
    ∃ own, (List.range j).foldlM (fun m w => m.initWriter w) m =
        some { m with own := own } ∧
      (∀ w < j, Filling (own (.writer w)) uninit numReader w (rbSize - 1)) ∧
      (∀ w, j ≤ w → own (.writer w) = m.own (.writer w)) ∧
      ∀ r, own (.reader r) = m.own (.reader r) := by
  induction j with
  | zero =>
      exact ⟨m.own, rfl, fun w hw => absurd hw (Nat.not_lt_zero w), fun _ _ => rfl,
        fun _ => rfl⟩
  | succ j ih =>
      obtain ⟨own, hrun, hfilled, hrest, hreaders⟩ := ih (by omega)
      have hfresh : ({ m with own := own } : Mesh T).own (.writer j) =
          freshQueue uninit numReader := by
        change own (.writer j) = _
        rw [hrest j le_rfl, hm.writer_own j, if_pos (by omega)]
      obtain ⟨q, hq, hinit⟩ := initWriter_eq_some hfresh
      refine ⟨Function.update own (.writer j) q, ?_, ?_, ?_, ?_⟩
      · rw [List.range_succ, List.foldlM_append, hrun]
        simp [hinit]
      · intro w hw
        by_cases hwj : w = j
        · subst hwj
          simpa using hq
        · simpa [hwj] using hfilled w (by omega)
      · intro w hw
        have hwj : w ≠ j := by omega
        simpa [hwj] using hrest w (by omega)
      · intro r
        simpa using hreaders r

/-- The start-up of a worker never blocks, and leaves the mesh as described. -/
theorem start_eq_some (cleared : WrapItem T) (uninit numWriter numReader : ℕ) :
    ∃ m, start cleared uninit numWriter numReader = some m ∧
      m.Started numWriter numReader := by
  have hwiring := connect_connecting cleared uninit numWriter numReader
  obtain ⟨own, hrun, hfilled, -, hreaders⟩ := initWriters_eq_some hwiring le_rfl
  have hwired := hwiring.wired
  refine ⟨_, hrun, ⟨hwired.1, hwired.2, hwired.3, hwired.4⟩, ?_, ?_⟩
  · intro w hw
    exact ⟨(hfilled w hw).numQueue_eq, (hfilled w hw).holds⟩
  · intro r hr
    have hqueue : own (.reader r) = freshQueue uninit numWriter := by
      rw [hreaders r, hwiring.reader_own r hr]
      rfl
    change (own (.reader r)).numQueue = numWriter ∧ ∀ w, Holds ((own (.reader r)).rings w) []
    rw [hqueue]
    exact ⟨rfl, fun _ => freshRing_holds uninit⟩

/-- Whatever `start` returns is the started mesh. -/
theorem started_of_start {cleared : WrapItem T}
    (hstart : start cleared uninit numWriter numReader = some m) :
    m.Started numWriter numReader := by
  obtain ⟨m', hstart', hm'⟩ := start_eq_some cleared uninit numWriter numReader
  obtain rfl : m' = m := Option.some.inj (hstart'.symm.trans hstart)
  exact hm'

/-! ## The start-up in closed form -/

/-- Ring `0` of writer `w` after `d` iterations of `Init`: a batch is published at a time. -/
def filledRing (uninit w d : ℕ) : ZeroRingBuffer SlotAddr :=
  { LockFreeQueue.freshRing SlotAddr.null uninit with
    nextWriteIndex := d
    afterNextWriteIndex := if d = 0 then uninit else d
    writeIndex := d / rbBatch * rbBatch
    wBatchCount := d % rbBatch
    buffer := fun i => if i < d then .slot w i else .null }

theorem filledRing_zero (uninit w : ℕ) :
    filledRing uninit w 0 = LockFreeQueue.freshRing .null uninit := by
  simp [filledRing, LockFreeQueue.freshRing, ZeroRingBuffer.create]

/-- One iteration of `Init`. -/
theorem insert_filledRing (uninit w : ℕ) {d : ℕ} (hd : d < rbSize - 1) :
    (filledRing uninit w d).insert (.slot w d) = some (filledRing uninit w (d + 1)) := by
  have hnext : (filledRing uninit w d).nextVal (filledRing uninit w d).nextWriteIndex = d + 1 := by
    rw [rbSize] at hd
    exact if_neg (show ¬d + 1 ≥ 2000 by omega)
  have hreserve : (filledRing uninit w d).reserve =
      some { filledRing uninit w d with afterNextWriteIndex := d + 1 } := by
    simp only [ZeroRingBuffer.reserve, hnext]
    exact if_neg (Nat.succ_ne_zero d)
  have hcells : Function.update (filledRing uninit w d).buffer d (.slot w d) =
      (filledRing uninit w (d + 1)).buffer := by
    funext i
    by_cases hi : i = d
    · subst hi
      simp [filledRing]
    · have hlt : i < d + 1 ↔ i < d := by omega
      simp only [filledRing, Function.update_of_ne hi, hlt]
  rw [ZeroRingBuffer.insert, hreserve, Option.map_some, ZeroRingBuffer.fill]
  change some (ZeroRingBuffer.completeWrite { filledRing uninit w d with
    afterNextWriteIndex := d + 1
    buffer := Function.update (filledRing uninit w d).buffer d (.slot w d) }) = _
  rw [hcells]
  refine congrArg some ?_
  rw [ZeroRingBuffer.completeWrite]
  dsimp only [filledRing, LockFreeQueue.freshRing, ZeroRingBuffer.create]
  rw [if_neg (Nat.succ_ne_zero d)]
  have hbatch : d % rbBatch + 1 = rbBatch ∧ (d + 1) / rbBatch * rbBatch = d + 1 ∧
        (d + 1) % rbBatch = 0 ∨
      d % rbBatch + 1 < rbBatch ∧ (d + 1) / rbBatch = d / rbBatch ∧
        (d + 1) % rbBatch = d % rbBatch + 1 := by
    rw [rbBatch]
    omega
  rcases hbatch with ⟨hfull, hwrite, hcount⟩ | ⟨hless, hwrite, hcount⟩
  · rw [hwrite, hcount]
    exact if_pos hfull.ge
  · rw [hwrite, hcount]
    exact if_neg (Nat.not_le.mpr hless)

/-- The mesh after `Init` of writer `w`. -/
def filled (m : Mesh T) (uninit w : ℕ) : Mesh T :=
  { m with
    own := Function.update m.own (.writer w)
      { m.own (.writer w) with
        rings := Function.update (m.own (.writer w)).rings 0
          (filledRing uninit w (rbSize - 1)) } }

/-- `Init` on a new ring. -/
theorem initWriter_eq_filled {w : ℕ}
    (hfresh : (m.own (.writer w)).rings 0 = LockFreeQueue.freshRing .null uninit) :
    m.initWriter w = some (m.filled uninit w) := by
  have hloop : ∀ d ≤ rbSize - 1,
      (List.range d).foldlM (fun m d => m.pushTo (.writer w) 0 (.slot w d)) m =
        some { m with
          own := Function.update m.own (.writer w)
            { m.own (.writer w) with
              rings := Function.update (m.own (.writer w)).rings 0 (filledRing uninit w d) } } := by
    intro d hd
    induction d with
    | zero =>
        rw [filledRing_zero, ← hfresh, Function.update_eq_self]
        simp
    | succ d ih =>
        rw [List.range_succ, List.foldlM_append, ih (by omega)]
        simp [pushTo, LockFreeQueue.push, insert_filledRing uninit w (show d < rbSize - 1 by omega)]
  exact hloop _ le_rfl

/-- The start-up in closed form, so that a run on a started mesh can be evaluated without the
loops of `Init`. -/
theorem start_eq_filled (cleared : WrapItem T) (uninit numWriter numReader : ℕ) :
    start cleared uninit numWriter numReader =
      some ((List.range numWriter).foldl (fun m w => m.filled uninit w)
        (connect cleared uninit numWriter numReader)) := by
  have hwiring := connect_connecting cleared uninit numWriter numReader
  rw [start]
  generalize connect cleared uninit numWriter numReader = m at hwiring
  have hloop : ∀ j ≤ numWriter, (List.range j).foldlM (fun m w => m.initWriter w) m =
        some ((List.range j).foldl (fun m w => m.filled uninit w) m) ∧
      ∀ w, j ≤ w → ((List.range j).foldl (fun m w => m.filled uninit w) m).own (.writer w) =
        m.own (.writer w) := by
    intro j hj
    induction j with
    | zero => exact ⟨rfl, fun _ _ => rfl⟩
    | succ j ih =>
        obtain ⟨hrun, hrest⟩ := ih (by omega)
        have hfresh : (((List.range j).foldl (fun m w => m.filled uninit w) m).own
            (.writer j)).rings 0 = LockFreeQueue.freshRing .null uninit := by
          rw [hrest j le_rfl, hwiring.writer_own j]
          rfl
        rw [List.range_succ, List.foldl_append, List.foldlM_append, hrun]
        refine ⟨by simp [initWriter_eq_filled hfresh], fun w hw => ?_⟩
        have hwj : w ≠ j := by omega
        simpa [filled, hwj] using hrest w (by omega)
  exact (hloop numWriter le_rfl).1

/-! ## What each call does to the rings -/

/-- One ring of a queue. -/
def ringAt (m : Mesh T) (queue : QueueId) (i : ℕ) : ZeroRingBuffer SlotAddr :=
  (m.own queue).rings i

/-- The mesh `m'` differs from `m` in one ring and in round-robin positions only. -/
structure Replaced (m : Mesh T) (queue : QueueId) (i : ℕ) (ring : ZeroRingBuffer SlotAddr)
    (m' : Mesh T) : Prop where
  ring_eq : m'.ringAt queue i = ring
  other : ∀ queue' j, queue' ≠ queue ∨ j ≠ i → m'.ringAt queue' j = m.ringAt queue' j
  numQueue_eq : ∀ queue', (m'.own queue').numQueue = (m.own queue').numQueue
  peers_eq : m'.peers = m.peers
  writerId_eq : m'.writerId = m.writerId
  readerId_eq : m'.readerId = m.readerId
  slots_eq : m'.slots = m.slots

/-- Replacing one ring of one owned queue. -/
theorem replaced_update (m : Mesh T) (queue : QueueId) (i cur : ℕ)
    (ring : ZeroRingBuffer SlotAddr) :
    Replaced m queue i ring { m with
      own := Function.update m.own queue
        ⟨Function.update (m.own queue).rings i ring, (m.own queue).numQueue, cur⟩ } where
  ring_eq := by simp [ringAt]
  other := by
    intro queue' j hne
    by_cases hqueue : queue' = queue
    · subst hqueue
      have hj : j ≠ i := hne.resolve_left (fun h => h rfl)
      simp [ringAt, hj]
    · simp [ringAt, hqueue]
  numQueue_eq := by
    intro queue'
    by_cases hqueue : queue' = queue
    · subst hqueue
      simp
    · simp [hqueue]
  peers_eq := rfl
  writerId_eq := rfl
  readerId_eq := rfl
  slots_eq := rfl

/-- The inversion of `pushTo`. -/
theorem pushTo_cases {queue : QueueId} {i : ℕ} {addr : SlotAddr} {m' : Mesh T}
    (hpush : m.pushTo queue i addr = some m') :
    ∃ ring, (m.ringAt queue i).insert addr = some ring ∧ Replaced m queue i ring m' := by
  obtain ⟨q, hq, rfl⟩ := Option.map_eq_some_iff.mp hpush
  obtain ⟨ring, hins, rfl⟩ := LockFreeQueue.push_eq_some_iff.mp hq
  exact ⟨ring, hins, replaced_update m queue i _ ring⟩

/-- What a successful `pop` of an owned queue does. -/
theorem pop_some_cases {queue : QueueId} (hwf : (m.own queue).WellFormed) {addr : SlotAddr}
    (hsome : (m.own queue).pop.1 = some addr) :
    ∃ i < (m.own queue).numQueue, 0 < (m.ringAt queue i).visible ∧
      addr = (m.ringAt queue i).buffer (m.ringAt queue i).nextReadIndex ∧
      Replaced m queue i (m.ringAt queue i).extract.1.ack
        { m with own := Function.update m.own queue (m.own queue).pop.2 } := by
  rcases LockFreeQueue.pop_cases hwf with ⟨cur, hnone, -⟩ | ⟨i, hi, hvisible, hpop⟩
  · rw [hnone] at hsome
    cases hsome
  · rw [hpop] at hsome ⊢
    exact ⟨i, hi, hvisible, (Option.some.inj hsome).symm, replaced_update m queue i _ _⟩

/-- What an unsuccessful `pop` does. -/
theorem pop_none_cases {queue : QueueId} (hwf : (m.own queue).WellFormed)
    (hnone : (m.own queue).pop.1 = none) :
    (∀ i < (m.own queue).numQueue, (m.ringAt queue i).visible = 0) ∧
      ∃ cur, (m.own queue).pop.2 = { m.own queue with cur := cur } := by
  rcases LockFreeQueue.pop_cases hwf with ⟨cur, hpop, hempty⟩ | ⟨i, -, -, hpop⟩
  · exact ⟨hempty, cur, by rw [hpop]⟩
  · rw [hpop] at hnone
    cases hnone

/-- `GetSlot` takes the oldest address of one of the writer's free rings. -/
theorem getSlot_cases {w : ℕ} (hwf : (m.own (.writer w)).WellFormed) {addr : SlotAddr}
    {m' : Mesh T} (hget : m.getSlot w = some (addr, m')) :
    ∃ i < (m.own (.writer w)).numQueue, 0 < (m.ringAt (.writer w) i).visible ∧
      addr = (m.ringAt (.writer w) i).buffer (m.ringAt (.writer w) i).nextReadIndex ∧
      Replaced m (.writer w) i (m.ringAt (.writer w) i).extract.1.ack m' := by
  have hsome := @pop_some_cases T m (.writer w) hwf addr
  unfold getSlot at hget
  split at hget
  next popped q hpop =>
      obtain ⟨rfl, rfl⟩ := Prod.mk.inj (Option.some.inj hget)
      rw [hpop] at hsome
      exact hsome rfl
  next q hpop => cases hget

/-- `GetSlot` spins exactly when none of the writer's rings shows a slot. -/
theorem getSlot_eq_none_iff {w : ℕ} (hwf : (m.own (.writer w)).WellFormed) :
    m.getSlot w = none ↔
      ∀ i < (m.own (.writer w)).numQueue, (m.ringAt (.writer w) i).visible = 0 := by
  unfold getSlot
  rcases LockFreeQueue.pop_cases hwf with ⟨cur, hpop, hempty⟩ | ⟨i, hi, hvisible, hpop⟩
  · rw [hpop]
    exact ⟨fun _ => hempty, fun _ => rfl⟩
  · rw [hpop]
    refine ⟨nofun, fun hempty => ?_⟩
    exact absurd (hempty i hi) (Nat.pos_iff_ne_zero.mp hvisible)

/-- `Read` takes the oldest address of one of the reader's rings. -/
theorem read_some_cases {r : ℕ} (hwf : (m.own (.reader r)).WellFormed) {addr : SlotAddr}
    (hread : (m.read r).1 = some addr) :
    ∃ i < (m.own (.reader r)).numQueue, 0 < (m.ringAt (.reader r) i).visible ∧
      addr = (m.ringAt (.reader r) i).buffer (m.ringAt (.reader r) i).nextReadIndex ∧
      Replaced m (.reader r) i (m.ringAt (.reader r) i).extract.1.ack (m.read r).2 :=
  pop_some_cases hwf hread

/-- `Read` answers `NULL` only when no ring of the reader shows an address, and then
moves only the round-robin position. -/
theorem read_none_cases {r : ℕ} (hwf : (m.own (.reader r)).WellFormed)
    (hread : (m.read r).1 = none) :
    (∀ i < (m.own (.reader r)).numQueue, (m.ringAt (.reader r) i).visible = 0) ∧
      ∃ cur, (m.read r).2 = { m with
        own := Function.update m.own (.reader r) { m.own (.reader r) with cur := cur } } := by
  obtain ⟨hempty, cur, hcur⟩ := pop_none_cases hwf hread
  refine ⟨hempty, cur, ?_⟩
  rw [← hcur]
  rfl

/-- In a wired mesh `Write` inserts into the writer's ring of the named reader. -/
theorem Wired.write_cases (hm : m.Wired numWriter numReader) {w r : ℕ} {addr : SlotAddr}
    {m' : Mesh T} (hw : w < numWriter) (hr : r < numReader)
    (hwrite : m.write w r addr = some m') :
    ∃ ring, (m.ringAt (.reader r) w).insert addr = some ring ∧
      Replaced m (.reader r) w ring m' := by
  have hpeer : (m.peers (.writer w))[r]? = some (.reader r) := by
    simp [hm.writer_peers w hw, hr]
  simp only [write, hpeer, hm.writer_id w hw (by omega), Option.bind_some] at hwrite
  exact pushTo_cases hwrite

/-- In a wired mesh `Ack` returns the slot to the reader's ring of the named writer. -/
theorem Wired.ack_cases (hm : m.Wired numWriter numReader) {r w : ℕ} {addr : SlotAddr}
    {m' : Mesh T} (hw : w < numWriter) (hr : r < numReader)
    (hack : m.ack r w addr = some m') :
    ∃ ring, (m.ringAt (.writer w) r).insert addr = some ring ∧
      Replaced m (.writer w) r ring m' := by
  have hpeer : (m.peers (.reader r))[w]? = some (.writer w) := by
    simp [hm.reader_peers r hr, hw]
  simp only [ack, hpeer, hm.reader_id r hr (by omega), Option.bind_some] at hack
  exact pushTo_cases hack

theorem Wired.congr (hm : m.Wired numWriter numReader) {m' : Mesh T}
    (hpeers : m'.peers = m.peers) (hwriter : m'.writerId = m.writerId)
    (hreader : m'.readerId = m.readerId) : m'.Wired numWriter numReader where
  writer_peers := by
    rw [hpeers]
    exact hm.writer_peers
  reader_peers := by
    rw [hpeers]
    exact hm.reader_peers
  writer_id := by
    rw [hwriter]
    exact hm.writer_id
  reader_id := by
    rw [hreader]
    exact hm.reader_id

/-- `Flush` acts ring by ring on the peers' queues. -/
theorem flush_own (self queue : QueueId) :
    (m.flush self).own queue =
      if queue ∈ m.peers self then (m.own queue).flush else m.own queue := by
  have hloop (peers : List QueueId) (m : Mesh T) :
      (peers.foldl (fun m peer =>
        { m with own := Function.update m.own peer (m.own peer).flush }) m).own queue =
        if queue ∈ peers then (m.own queue).flush else m.own queue := by
    induction peers generalizing m with
    | nil => simp
    | cons peer rest ih =>
        rw [List.foldl_cons, ih]
        by_cases hqueue : queue = peer
        · subst hqueue
          have htwice : (m.own queue).flush.flush = (m.own queue).flush := by
            simp only [LockFreeQueue.flush]
            congr 1
            funext i
            split_ifs <;> rfl
          simp [htwice]
        · simp [hqueue]
  exact hloop _ _

/-- Everything that `Flush` leaves alone. -/
theorem flush_frame (self : QueueId) :
    (m.flush self).peers = m.peers ∧ (m.flush self).writerId = m.writerId ∧
      (m.flush self).readerId = m.readerId ∧ (m.flush self).slots = m.slots := by
  have hloop (peers : List QueueId) (m : Mesh T) :
      let m' := peers.foldl (fun m peer =>
        { m with own := Function.update m.own peer (m.own peer).flush }) m
      m'.peers = m.peers ∧ m'.writerId = m.writerId ∧ m'.readerId = m.readerId ∧
        m'.slots = m.slots := by
    induction peers generalizing m with
    | nil => exact ⟨rfl, rfl, rfl, rfl⟩
    | cons peer rest ih => exact ih _
  exact hloop _ _

/-- A flushed ring or an untouched one. -/
theorem ringAt_flush (self queue : QueueId) (i : ℕ) :
    (m.flush self).ringAt queue i = (m.ringAt queue i).flush ∨
      (m.flush self).ringAt queue i = m.ringAt queue i := by
  simp only [ringAt, flush_own]
  split_ifs
  · simp only [LockFreeQueue.flush]
    split_ifs
    · exact .inl rfl
    · exact .inr rfl
  · exact .inr rfl

end Mesh

/-! ## Evaluating a run -/

variable {T : Type u} {β : Type v}

/-- Hand on a ring whose positions and counters have been computed. -/
def ZeroRingBuffer.compute (q : ZeroRingBuffer T) (next : ZeroRingBuffer T → β) : β :=
  Machine.compute q.nextReadIndex fun nextReadIndex =>
    Machine.compute q.rBatchCount fun rBatchCount =>
      Machine.compute q.nextWriteIndex fun nextWriteIndex =>
        Machine.compute q.wBatchCount fun wBatchCount =>
          next { q with nextReadIndex, rBatchCount, nextWriteIndex, wBatchCount }

theorem ZeroRingBuffer.compute_eq (q : ZeroRingBuffer T) (next : ZeroRingBuffer T → β) :
    q.compute next = next q := by
  simp [ZeroRingBuffer.compute]

/-- Hand on a queue of which the first rings have been computed. -/
def LockFreeQueue.computeRings :
    ℕ → LockFreeQueue T → (LockFreeQueue T → β) → β
  | 0, q, next => next q
  | i + 1, q, next =>
    (q.rings i).compute fun ring =>
      computeRings i { q with rings := Function.update q.rings i ring } next

theorem LockFreeQueue.computeRings_eq (i : ℕ) (q : LockFreeQueue T) (next : LockFreeQueue T → β) :
    q.computeRings i next = next q := by
  induction i generalizing q with
  | zero => rfl
  | succ i ih => rw [computeRings, ZeroRingBuffer.compute_eq, Function.update_eq_self, ih]

/-- Hand on a queue that has been computed. -/
def LockFreeQueue.compute (q : LockFreeQueue T) (next : LockFreeQueue T → β) : β :=
  Machine.compute q.cur fun cur => { q with cur }.computeRings q.numQueue next

theorem LockFreeQueue.compute_eq (q : LockFreeQueue T) (next : LockFreeQueue T → β) :
    q.compute next = next q := by
  rw [compute, Machine.compute_eq, computeRings_eq]

/-- Hand on a mesh of which the given queues have been computed. -/
def Mesh.compute : List QueueId → Mesh T → (Mesh T → β) → β
  | [], m, next => next m
  | queue :: rest, m, next =>
    (m.own queue).compute fun own =>
      compute rest { m with own := Function.update m.own queue own } next

theorem Mesh.compute_eq (queues : List QueueId) (m : Mesh T) (next : Mesh T → β) :
    m.compute queues next = next m := by
  induction queues generalizing m with
  | nil => rfl
  | cons queue rest ih => rw [compute, LockFreeQueue.compute_eq, Function.update_eq_self, ih]

end AFStream.Queues

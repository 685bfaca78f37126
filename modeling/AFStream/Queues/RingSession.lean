/-
# One producer and one consumer on a ring

A session is a ring together with what its two users have done so far: the cell
the producer holds between `GetSlot` and `CompleteWrite`, the address the consumer
holds between `Extract` and `Ack`, and the history of completed insertions and
acknowledgements. The history of every session is a run of the bounded queue of
`max - 1` places, and the remaining guarantees of the ring follow from the
relation between the two.
-/

import AFStream.Foundation.BoundedFifo
import AFStream.Queues.ZeroRingBuffer

namespace AFStream.Queues

open AFStream.Foundation

universe u

/-- The ring and its two users. -/
structure RingSession (T : Type u) where
  ring : ZeroRingBuffer T
  /-- The cell that `GetSlot` returned and `CompleteWrite` has not yet committed. -/
  slot : Option ℕ
  /-- The address that `Extract` returned and `Ack` has not yet released. -/
  extracted : Option ℕ
  /-- Completed insertions and acknowledgements, in order. -/
  history : List (QueueEvent T)
  /-- How many values had been inserted when `writeIndex` was last assigned. -/
  published : ℕ

namespace RingSession

variable {T : Type u}

/-- The calls of the two sides. `fill` is the producer's store through the pointer
it got from `GetSlot`; `flush` may come from either side. -/
inductive Call (T : Type u)
  | insert (data : T)
  | getSlot
  | fill (data : T)
  | completeWrite
  | extract
  | ack
  | flush

/-- The values inserted so far. -/
def inserted (s : RingSession T) : List T := QueueEvent.puts s.history

/-- The values extracted and acknowledged so far. -/
def acked (s : RingSession T) : List T := QueueEvent.takes s.history

/-- Record a completed insertion. The batch counter is zero after it exactly when
the call assigned `writeIndex`. -/
def commit (s : RingSession T) (ring : ZeroRingBuffer T) (data : T) : RingSession T :=
  { s with
    ring := ring
    slot := none
    history := s.history ++ [.put data]
    published := if ring.wBatchCount = 0 then s.inserted.length + 1 else s.published }

/-- One call. A producer call that finds the ring full is not enabled; neither is
`Ack` without a preceding successful `Extract`. -/
def step (s : RingSession T) : Call T → Option (RingSession T)
  | .insert data =>
      match s.slot with
      | some _ => none
      | none => (s.ring.insert data).map fun ring => s.commit ring data
  | .getSlot =>
      match s.slot with
      | some _ => none
      | none => s.ring.getSlot.map fun (ring, cell) => { s with ring := ring, slot := some cell }
  | .fill data => s.slot.map fun cell => { s with ring := s.ring.fill cell data }
  | .completeWrite => s.slot.map fun cell => s.commit s.ring.completeWrite (s.ring.buffer cell)
  | .extract => some { s with ring := s.ring.extract.1, extracted := s.ring.extract.2 }
  | .ack => s.extracted.map fun addr =>
      { s with
        ring := s.ring.ack
        extracted := none
        history := s.history ++ [.take (s.ring.buffer addr)] }
  | .flush => some { s with ring := s.ring.flush, published := s.inserted.length }

/-- Every interleaving of the two sides on a new ring. -/
def machine (max batchSize : ℕ) (zero : T) (uninit : ℕ) :
    Machine (RingSession T) (Call T) where
  init :=
    { ring := .create max batchSize zero uninit
      slot := none
      extracted := none
      history := []
      published := 0 }
  step := step

/-- What every interleaving preserves. -/
structure Inv (capacity : ℕ) (s : RingSession T) : Prop where
  wellFormed : s.ring.WellFormed
  max_eq : s.ring.max = capacity + 1
  /-- The history is a run of the bounded queue that ends in the ring's contents. -/
  refines : (boundedFifo T capacity).runFrom [] s.history = some s.ring.contents
  /-- The producer's cell is free, and `CompleteWrite` will step over it. -/
  slot_free : ∀ cell, s.slot = some cell →
    cell = s.ring.nextWriteIndex ∧
      s.ring.afterNextWriteIndex = s.ring.nextVal s.ring.nextWriteIndex ∧
      s.ring.afterNextWriteIndex ≠ s.ring.localReadIndex
  /-- The consumer's address holds the oldest published value. -/
  extracted_seen : ∀ addr, s.extracted = some addr →
    addr = s.ring.nextReadIndex ∧ s.ring.nextReadIndex ≠ s.ring.localWriteIndex
  published_eq : s.published = s.acked.length + s.ring.visible

variable {capacity : ℕ} {s s' : RingSession T}

theorem Inv.refines_snoc {events : List (QueueEvent T)} {contents next : List T}
    {event : QueueEvent T}
    (hrun : (boundedFifo T capacity).runFrom [] events = some contents)
    (hstep : (boundedFifo T capacity).step contents event = some next) :
    (boundedFifo T capacity).runFrom [] (events ++ [event]) = some next :=
  Machine.runFrom_concat_eq_some.mpr ⟨contents, hrun, hstep⟩

/-- Inserted values are the acknowledged ones followed by the ring's contents. -/
theorem Inv.inserted_eq (hs : s.Inv capacity) : s.inserted = s.acked ++ s.ring.contents :=
  boundedFifo.puts_eq hs.refines

theorem Inv.length_inserted (hs : s.Inv capacity) :
    s.inserted.length = s.acked.length + s.ring.pending := by
  rw [hs.inserted_eq, List.length_append, ZeroRingBuffer.length_contents]

/-- A completed insertion, by `Insert` or by `CompleteWrite`, keeps the invariant. -/
theorem Inv.commit (hs : s.Inv capacity) {ring : ZeroRingBuffer T} {data : T}
    (hins : ZeroRingBuffer.Inserted s.ring data ring) : (s.commit ring data).Inv capacity where
  wellFormed := hins.wellFormed
  max_eq := hins.max_eq.trans hs.max_eq
  refines := by
    change (boundedFifo T capacity).runFrom [] (s.history ++ [.put data]) = some ring.contents
    rw [hins.contents_eq]
    refine Inv.refines_snoc hs.refines (boundedFifo.step_put ?_ data)
    have hlt : ring.contents.length < ring.max := by
      rw [ZeroRingBuffer.length_contents]
      exact hins.wellFormed.pending_lt_max
    rw [hins.contents_eq, hins.max_eq, hs.max_eq, List.length_append,
      List.length_singleton] at hlt
    omega
  slot_free := by
    intro cell hcell
    simp [RingSession.commit] at hcell
  extracted_seen := by
    intro addr haddr
    change addr = ring.nextReadIndex ∧ ring.nextReadIndex ≠ ring.localWriteIndex
    rw [hins.nextRead_eq, hins.localWrite_eq]
    exact hs.extracted_seen addr haddr
  published_eq := by
    have hacked : (s.commit ring data).acked = s.acked := by
      simp [acked, RingSession.commit]
    have hlength := hs.length_inserted
    have hpublished := hs.published_eq
    rw [hacked]
    simp only [RingSession.commit, hins.visible_eq]
    split_ifs <;> omega

/-- Every call keeps the invariant. -/
theorem Inv.step (hs : s.Inv capacity) {call : Call T} (hstep : s.step call = some s') :
    s'.Inv capacity := by
  cases call with
  | insert data =>
      simp only [RingSession.step] at hstep
      split at hstep
      · cases hstep
      · obtain ⟨ring, hins, rfl⟩ := Option.map_eq_some_iff.mp hstep
        exact hs.commit (hs.wellFormed.insert hins)
  | getSlot =>
      simp only [RingSession.step] at hstep
      split at hstep
      · cases hstep
      · obtain ⟨⟨ring, cell⟩, hslot, rfl⟩ := Option.map_eq_some_iff.mp hstep
        obtain ⟨p, hres, hpair⟩ := Option.map_eq_some_iff.mp hslot
        obtain ⟨rfl, rfl⟩ := Prod.mk.inj hpair
        obtain ⟨hwf, hafter, hroom, hcontents, hvisible, hsame⟩ := hs.wellFormed.reserve hres
        refine ⟨hwf, ?_, ?_, ?_, ?_, ?_⟩
        · change p.max = _
          rw [hsame]
          exact hs.max_eq
        · change (boundedFifo T capacity).runFrom [] s.history = some p.contents
          rw [hcontents]
          exact hs.refines
        · intro cell hcell
          obtain rfl := Option.some.inj hcell
          exact ⟨rfl, hafter, hroom⟩
        · intro addr haddr
          change addr = p.nextReadIndex ∧ p.nextReadIndex ≠ p.localWriteIndex
          rw [hsame]
          exact hs.extracted_seen addr haddr
        · change s.published = s.acked.length + p.visible
          rw [hvisible]
          exact hs.published_eq
  | fill data =>
      obtain ⟨cell, hcell, rfl⟩ := Option.map_eq_some_iff.mp hstep
      obtain ⟨rfl, hafter, hroom⟩ := hs.slot_free cell hcell
      have hq := hs.wellFormed
      refine ⟨⟨hq.1, hq.2, hq.3, hq.4, hq.5, hq.6, hq.7, hq.8, hq.9, hq.10, hq.11⟩,
        hs.max_eq, ?_, ?_, hs.extracted_seen, hs.published_eq⟩
      · change (boundedFifo T capacity).runFrom [] s.history = some _
        rw [hq.contents_fill]
        exact hs.refines
      · exact hs.slot_free
  | completeWrite =>
      obtain ⟨cell, hcell, rfl⟩ := Option.map_eq_some_iff.mp hstep
      obtain ⟨rfl, hafter, hroom⟩ := hs.slot_free cell hcell
      exact hs.commit (hs.wellFormed.completeWrite hafter hroom)
  | extract =>
      obtain rfl := Option.some.inj hstep
      cases haddr : s.ring.extract.2 with
      | none =>
          rw [ZeroRingBuffer.extract_of_none haddr]
          refine ⟨hs.wellFormed, hs.max_eq, hs.refines, hs.slot_free, ?_, hs.published_eq⟩
          intro addr hsome
          cases hsome
      | some addr =>
          obtain ⟨rfl, hwf, hcontents, hvisible, hsame⟩ := hs.wellFormed.extract haddr
          refine ⟨hwf, ?_, ?_, ?_, ?_, ?_⟩
          · rw [hsame]
            exact hs.max_eq
          · change (boundedFifo T capacity).runFrom [] s.history = some s.ring.extract.1.contents
            rw [hcontents]
            exact hs.refines
          · rw [hsame]
            exact hs.slot_free
          · intro addr hsome
            obtain rfl := Option.some.inj hsome
            refine ⟨?_, ZeroRingBuffer.extract_seen haddr⟩
            rw [hsame]
          · change s.published = s.acked.length + s.ring.extract.1.visible
            rw [hvisible]
            exact hs.published_eq
  | ack =>
      obtain ⟨addr, haddr, rfl⟩ := Option.map_eq_some_iff.mp hstep
      obtain ⟨rfl, hseen⟩ := hs.extracted_seen addr haddr
      have hack := hs.wellFormed.ack hseen
      refine ⟨hack.wellFormed, hack.max_eq.trans hs.max_eq, ?_, ?_, ?_, ?_⟩
      · have hrun := hs.refines
        rw [hack.contents_eq] at hrun
        exact Inv.refines_snoc hrun (boundedFifo.step_take _ _)
      · intro cell hcell
        simpa [hack.nextWrite_eq, hack.afterNextWrite_eq, hack.localRead_eq,
          ZeroRingBuffer.nextVal, hack.max_eq] using hs.slot_free cell hcell
      · intro addr hsome
        cases hsome
      · have hpublished := hs.published_eq
        have hvisible := hack.visible_eq
        simp only [acked, QueueEvent.takes_append, QueueEvent.takes_take,
          List.length_append, List.length_singleton] at hpublished ⊢
        omega
  | flush =>
      obtain rfl := Option.some.inj hstep
      obtain ⟨hwf, hcontents, hvisible, -⟩ := hs.wellFormed.flush
      refine ⟨hwf, hs.max_eq, ?_, hs.slot_free, hs.extracted_seen, ?_⟩
      · rw [hcontents]
        exact hs.refines
      · rw [hvisible]
        exact hs.length_inserted

/-- Nothing but the producer's position and caches changes in `GetSlot`. -/
structure Granted (s s' : RingSession T) : Prop where
  slot_eq : s'.slot = some s.ring.nextWriteIndex
  history_eq : s'.history = s.history
  buffer_eq : s'.ring.buffer = s.ring.buffer
  nextWrite_eq : s'.ring.nextWriteIndex = s.ring.nextWriteIndex
  afterNextWrite_eq : s'.ring.afterNextWriteIndex = s.ring.nextVal s.ring.nextWriteIndex

theorem granted_of_getSlot (hstep : s.step .getSlot = some s') : Granted s s' := by
  simp only [RingSession.step] at hstep
  split at hstep
  · cases hstep
  · obtain ⟨⟨ring, cell⟩, hslot, rfl⟩ := Option.map_eq_some_iff.mp hstep
    obtain ⟨p, hres, hpair⟩ := Option.map_eq_some_iff.mp hslot
    obtain ⟨rfl, rfl⟩ := Prod.mk.inj hpair
    obtain ⟨-, rfl⟩ | ⟨-, -, rfl⟩ := ZeroRingBuffer.reserve_cases hres <;>
      exact ⟨rfl, rfl, rfl, rfl, rfl⟩

/-- What a producer does with a whole round of `GetSlot`, a store and `CompleteWrite`. -/
structure Stored (s : RingSession T) (data : T) (s' : RingSession T) : Prop where
  slot_eq : s'.slot = none
  history_eq : s'.history = s.history ++ [.put data]
  buffer_eq : s'.ring.buffer = Function.update s.ring.buffer s.ring.nextWriteIndex data
  nextWrite_eq : s'.ring.nextWriteIndex = s.ring.nextVal s.ring.nextWriteIndex

theorem Granted.stored {granted filled : RingSession T} {data : T} (h : Granted s granted)
    (hfill : granted.step (.fill data) = some filled)
    (hcomplete : filled.step .completeWrite = some s') : Stored s data s' := by
  obtain ⟨cell, hcell, rfl⟩ := Option.map_eq_some_iff.mp hfill
  obtain ⟨cell', hcell', rfl⟩ := Option.map_eq_some_iff.mp hcomplete
  obtain rfl := Option.some.inj (hcell.symm.trans h.slot_eq)
  obtain rfl := Option.some.inj (hcell'.symm.trans h.slot_eq)
  have hring : ∀ q : ZeroRingBuffer T, q.completeWrite.buffer = q.buffer ∧
      q.completeWrite.nextWriteIndex = q.afterNextWriteIndex := by
    intro q
    rw [ZeroRingBuffer.completeWrite]
    split_ifs <;> exact ⟨rfl, rfl⟩
  constructor
  · rfl
  · change granted.history ++ [.put (Function.update granted.ring.buffer _ data _)] = _
    rw [h.history_eq, Function.update_self]
  · change (ZeroRingBuffer.completeWrite _).buffer = _
    rw [(hring _).1, ← h.buffer_eq]
    rfl
  · change (ZeroRingBuffer.completeWrite _).nextWriteIndex = _
    rw [(hring _).2]
    exact h.afterNextWrite_eq

/-- A call of the consumer, or a `Flush`, leaves the producer's side as it is. -/
structure SameProducer (s s' : RingSession T) : Prop where
  slot_eq : s'.slot = s.slot
  buffer_eq : s'.ring.buffer = s.ring.buffer
  nextWrite_eq : s'.ring.nextWriteIndex = s.ring.nextWriteIndex
  inserted_eq : s'.inserted = s.inserted

theorem SameProducer.trans {s'' : RingSession T} (h : SameProducer s s')
    (h' : SameProducer s' s'') : SameProducer s s'' :=
  ⟨h'.slot_eq.trans h.slot_eq, h'.buffer_eq.trans h.buffer_eq,
    h'.nextWrite_eq.trans h.nextWrite_eq, h'.inserted_eq.trans h.inserted_eq⟩

theorem sameProducer_of_extract (hstep : s.step .extract = some s') : SameProducer s s' := by
  obtain rfl := Option.some.inj hstep
  have hring : s.ring.extract.1.buffer = s.ring.buffer ∧
      s.ring.extract.1.nextWriteIndex = s.ring.nextWriteIndex := by
    rw [ZeroRingBuffer.extract]
    split_ifs <;> exact ⟨rfl, rfl⟩
  exact ⟨rfl, hring.1, hring.2, rfl⟩

theorem sameProducer_of_ack (hstep : s.step .ack = some s') : SameProducer s s' := by
  obtain ⟨addr, -, rfl⟩ := Option.map_eq_some_iff.mp hstep
  have hring : s.ring.ack.buffer = s.ring.buffer ∧
      s.ring.ack.nextWriteIndex = s.ring.nextWriteIndex := by
    rw [ZeroRingBuffer.ack]
    split_ifs <;> exact ⟨rfl, rfl⟩
  refine ⟨rfl, hring.1, hring.2, ?_⟩
  change QueueEvent.puts (s.history ++ [.take _]) = _
  rw [QueueEvent.puts_append, QueueEvent.puts_take, List.append_nil]
  rfl

theorem sameProducer_of_flush (hstep : s.step .flush = some s') : SameProducer s s' := by
  obtain rfl := Option.some.inj hstep
  exact ⟨rfl, rfl, rfl, rfl⟩

variable {max batchSize uninit : ℕ} {zero : T}

/-- The invariant of every reachable session. -/
theorem inv_of_reachable (hmax : 2 ≤ max)
    (hreach : (machine max batchSize zero uninit).Reachable s) : s.Inv (max - 1) := by
  refine hreach.invariant (Inv (max - 1)) ?_ fun hs hstep => hs.step hstep
  refine ⟨ZeroRingBuffer.create_wellFormed hmax _ _ _, ?_, ?_, ?_, ?_, ?_⟩
  · change max = max - 1 + 1
    omega
  · simp [machine]
  · intro cell hcell
    cases hcell
  · intro addr haddr
    cases haddr
  · simp [machine, acked, QueueEvent.takes, ZeroRingBuffer.create, ZeroRingBuffer.visible,
      ZeroRingBuffer.gap]

/-- No call writes a cell whose value is inserted and not yet acknowledged. -/
theorem Inv.buffer_cell (hs : s.Inv capacity) {call : Call T} (hstep : s.step call = some s')
    {k : ℕ} (hk : k < s.ring.pending) :
    s'.ring.buffer (s.ring.cell k) = s.ring.buffer (s.ring.cell k) := by
  have hne := hs.wellFormed.cell_ne_nextWrite hk
  cases call with
  | insert data =>
      simp only [RingSession.step] at hstep
      split at hstep
      · cases hstep
      · obtain ⟨ring, hins, rfl⟩ := Option.map_eq_some_iff.mp hstep
        exact (hs.wellFormed.insert hins).buffer_eq _ hne
  | getSlot =>
      simp only [RingSession.step] at hstep
      split at hstep
      · cases hstep
      · obtain ⟨⟨ring, cell⟩, hslot, rfl⟩ := Option.map_eq_some_iff.mp hstep
        obtain ⟨p, hres, hpair⟩ := Option.map_eq_some_iff.mp hslot
        obtain ⟨rfl, -⟩ := Prod.mk.inj hpair
        have hsame := (hs.wellFormed.reserve hres).same
        change p.buffer _ = _
        rw [hsame]
  | fill data =>
      obtain ⟨cell, hcell, rfl⟩ := Option.map_eq_some_iff.mp hstep
      obtain ⟨rfl, -, -⟩ := hs.slot_free cell hcell
      exact Function.update_of_ne hne _ _
  | completeWrite =>
      obtain ⟨cell, hcell, rfl⟩ := Option.map_eq_some_iff.mp hstep
      obtain ⟨rfl, hafter, hroom⟩ := hs.slot_free cell hcell
      exact (hs.wellFormed.completeWrite hafter hroom).buffer_eq _ hne
  | extract =>
      obtain rfl := Option.some.inj hstep
      cases haddr : s.ring.extract.2 with
      | none => rw [ZeroRingBuffer.extract_of_none haddr]
      | some addr =>
          obtain ⟨-, -, -, -, hsame⟩ := hs.wellFormed.extract haddr
          change s.ring.extract.1.buffer _ = _
          rw [hsame]
  | ack =>
      obtain ⟨addr, haddr, rfl⟩ := Option.map_eq_some_iff.mp hstep
      have hseen := (hs.extracted_seen addr haddr).2
      exact congrFun (hs.wellFormed.ack hseen).buffer_eq _
  | flush =>
      obtain rfl := Option.some.inj hstep
      rfl

/-- A call of the producer, or a `Flush`. -/
def Call.IsProducer : Call T → Prop
  | .extract | .ack => False
  | _ => True

/-- The producer leaves the consumer's side as it is. -/
theorem Inv.sameConsumer (hs : s.Inv capacity) {call : Call T} (hcall : call.IsProducer)
    (hstep : s.step call = some s') :
    s'.ring.nextReadIndex = s.ring.nextReadIndex ∧ s'.extracted = s.extracted := by
  cases call with
  | insert data =>
      simp only [RingSession.step] at hstep
      split at hstep
      · cases hstep
      · obtain ⟨ring, hins, rfl⟩ := Option.map_eq_some_iff.mp hstep
        exact ⟨(hs.wellFormed.insert hins).nextRead_eq, rfl⟩
  | getSlot =>
      simp only [RingSession.step] at hstep
      split at hstep
      · cases hstep
      · obtain ⟨⟨ring, cell⟩, hslot, rfl⟩ := Option.map_eq_some_iff.mp hstep
        obtain ⟨p, hres, hpair⟩ := Option.map_eq_some_iff.mp hslot
        obtain ⟨rfl, -⟩ := Prod.mk.inj hpair
        have hsame := (hs.wellFormed.reserve hres).same
        refine ⟨?_, rfl⟩
        change p.nextReadIndex = _
        rw [hsame]
  | fill data =>
      obtain ⟨slot, hslot, rfl⟩ := Option.map_eq_some_iff.mp hstep
      exact ⟨rfl, rfl⟩
  | completeWrite =>
      obtain ⟨slot, hslot, rfl⟩ := Option.map_eq_some_iff.mp hstep
      obtain ⟨rfl, hafter, hroom⟩ := hs.slot_free slot hslot
      exact ⟨(hs.wellFormed.completeWrite hafter hroom).nextRead_eq, rfl⟩
  | extract => exact absurd hcall not_false
  | ack => exact absurd hcall not_false
  | flush =>
      obtain rfl := Option.some.inj hstep
      exact ⟨rfl, rfl⟩

/-- The cell that the consumer holds is not written. -/
theorem Inv.buffer_extracted (hs : s.Inv capacity) {call : Call T}
    (hstep : s.step call = some s') {addr : ℕ} (haddr : s.extracted = some addr) :
    s'.ring.buffer addr = s.ring.buffer addr := by
  obtain ⟨rfl, hseen⟩ := hs.extracted_seen addr haddr
  have hpending : 0 < s.ring.pending := by
    have hcontents := (hs.wellFormed.ack hseen).contents_eq
    rw [← ZeroRingBuffer.length_contents, hcontents]
    exact Nat.succ_pos _
  have hcell : s.ring.cell 0 = s.ring.nextReadIndex :=
    Circular.shift_zero hs.wellFormed.nextRead_lt
  rw [← hcell]
  exact hs.buffer_cell hstep hpending

/-- The cell that the consumer has released last is not written before it releases another
one: one cell of the ring always stays free. -/
theorem Inv.buffer_released (hs : s.Inv capacity) {call : Call T} (hcall : call.IsProducer)
    (hstep : s.step call = some s') {cell : ℕ}
    (hcell : s.ring.nextVal cell = s.ring.nextReadIndex) :
    s'.ring.buffer cell = s.ring.buffer cell := by
  have hgranted : ∀ {q : ZeroRingBuffer T}, q.WellFormed → q.max = s.ring.max →
      q.nextReadIndex = s.ring.nextReadIndex →
      q.nextVal q.nextWriteIndex ≠ q.localReadIndex → cell ≠ q.nextWriteIndex := by
    rintro q hq hmax hread hroom rfl
    apply hq.nextVal_nextWrite_ne hroom
    rw [hread, ← hcell, ZeroRingBuffer.nextVal, ZeroRingBuffer.nextVal, hmax]
  cases call with
  | insert data =>
      simp only [RingSession.step] at hstep
      split at hstep
      · cases hstep
      · obtain ⟨ring, hins, rfl⟩ := Option.map_eq_some_iff.mp hstep
        obtain ⟨p, hres, -⟩ := Option.map_eq_some_iff.mp hins
        obtain ⟨hp, hafter, hroom, -, -, hsame⟩ := hs.wellFormed.reserve hres
        have hindex : p.nextWriteIndex = s.ring.nextWriteIndex := by rw [hsame]
        apply (hs.wellFormed.insert hins).buffer_eq
        rw [← hindex]
        apply hgranted hp
        · rw [hsame]
        · rw [hsame]
        · rw [← hafter]
          exact hroom
  | getSlot => rw [(granted_of_getSlot hstep).buffer_eq]
  | fill data =>
      obtain ⟨slot, hslot, rfl⟩ := Option.map_eq_some_iff.mp hstep
      obtain ⟨rfl, hafter, hroom⟩ := hs.slot_free slot hslot
      apply Function.update_of_ne
      exact hgranted hs.wellFormed rfl rfl (hafter ▸ hroom)
  | completeWrite =>
      obtain ⟨slot, hslot, rfl⟩ := Option.map_eq_some_iff.mp hstep
      change s.ring.completeWrite.buffer cell = _
      rw [ZeroRingBuffer.completeWrite]
      split_ifs <;> rfl
  | extract => exact absurd hcall not_false
  | ack => exact absurd hcall not_false
  | flush =>
      obtain rfl := Option.some.inj hstep
      rfl

/-- One `Extract` and `Ack` by the consumer, when a value is visible. -/
theorem Inv.consume (hs : s.Inv capacity) (max batchSize uninit : ℕ) (zero : T)
    (hvisible : 0 < s.ring.visible) :
    ∃ s', (machine max batchSize zero uninit).runFrom s [.extract, .ack] = some s' ∧
      s'.Inv capacity ∧ s'.inserted = s.inserted ∧
      s.ring.visible = s'.ring.visible + 1 ∧ s.ring.pending = s'.ring.pending + 1 := by
  obtain ⟨addr, haddr⟩ : ∃ addr, s.ring.extract.2 = some addr := by
    rw [← Option.isSome_iff_exists, Option.isSome_iff_ne_none, Ne,
      hs.wellFormed.extract_eq_none_iff]
    omega
  let seen : RingSession T := { s with ring := s.ring.extract.1, extracted := some addr }
  let taken : RingSession T := { seen with
    ring := seen.ring.ack
    extracted := none
    history := seen.history ++ [.take (seen.ring.buffer addr)] }
  have hextract : s.step .extract = some seen := by simp [RingSession.step, haddr, seen]
  have hackStep : seen.step .ack = some taken := rfl
  have hinv := hs.step hextract
  obtain ⟨-, -, hcontents, hsameVisible, -⟩ := hs.wellFormed.extract haddr
  have hack := hinv.wellFormed.ack (hinv.extracted_seen addr rfl).2
  refine ⟨taken, ?_, hinv.step hackStep, ?_, ?_, ?_⟩
  · change ((s.step .extract).bind fun t => (t.step .ack).bind some) = some taken
    rw [hextract, Option.bind_some, hackStep, Option.bind_some]
  · simp [inserted, taken, seen]
  · exact hsameVisible.symm.trans hack.visible_eq
  · have hlength := congrArg List.length hack.contents_eq
    rw [hcontents] at hlength
    simpa using hlength

/-- Once everything pending is visible, the consumer alone can take all of it. -/
theorem Inv.drain {n : ℕ} (hs : s.Inv capacity) (hpending : s.ring.pending = n)
    (hvisible : s.ring.visible = n) :
    ∃ s', (machine max batchSize zero uninit).runFrom s
        (List.replicate n [.extract, .ack]).flatten = some s' ∧
      s'.acked = s.inserted := by
  induction n generalizing s with
  | zero =>
      refine ⟨s, rfl, ?_⟩
      have hcontents : s.ring.contents = [] := by
        rw [← List.length_eq_zero_iff, ZeroRingBuffer.length_contents, hpending]
      rw [hs.inserted_eq, hcontents, List.append_nil]
  | succ n ih =>
      obtain ⟨t, hrun, ht, hinserted, htVisible, htPending⟩ :=
        hs.consume max batchSize uninit zero (by omega)
      obtain ⟨s', hrest, hacked⟩ := ih ht (by omega) (by omega)
      refine ⟨s', ?_, hacked.trans hinserted⟩
      rw [List.replicate_succ, List.flatten_cons, Machine.runFrom_append, hrun]
      exact hrest

/-- **A ring is a bounded FIFO queue.** For every capacity and batch size and every
interleaving of the two sides: the completed insertions and acknowledgements form a
run of the bounded queue of `max - 1` places; acknowledged values are a prefix of
the inserted ones; no call overwrites an unacknowledged cell; at most `max - 1`
values are unacknowledged; `Extract` answers `NULL` only when everything published
has been acknowledged; and after a `Flush` the consumer alone can take every value
inserted so far. -/
theorem ring_refines_boundedFifo (max batchSize uninit : ℕ) (zero : T) (hmax : 2 ≤ max)
    (s : RingSession T) (hreach : (machine max batchSize zero uninit).Reachable s) :
    (boundedFifo T (max - 1)).runFrom [] s.history = some s.ring.contents ∧
    s.acked <+: s.inserted ∧
    (∀ call s', s.step call = some s' → ∀ k < s.ring.pending,
      s'.ring.buffer (s.ring.cell k) = s.ring.buffer (s.ring.cell k)) ∧
    s.inserted.length ≤ s.acked.length + (max - 1) ∧
    (s.ring.extract.2 = none → s.published = s.acked.length) ∧
    (∀ s', s.step .flush = some s' → ∃ calls : List (Call T),
      (∀ call ∈ calls, call = .extract ∨ call = .ack) ∧
        ∃ last, (machine max batchSize zero uninit).runFrom s' calls = some last ∧
          last.acked = s.inserted) := by
  have hs := inv_of_reachable hmax hreach
  refine ⟨hs.refines, boundedFifo.takes_prefix_puts hs.refines, ?_, ?_, ?_, ?_⟩
  · intro call s' hstep k hk
    exact hs.buffer_cell hstep hk
  · have hlength := hs.length_inserted
    have hlt := hs.wellFormed.pending_lt_max
    rw [hs.max_eq] at hlt
    omega
  · intro hnone
    rw [hs.published_eq, hs.wellFormed.extract_eq_none_iff.mp hnone, Nat.add_zero]
  · intro s' hstep
    have hinserted : s'.inserted = s.inserted := by
      obtain rfl := Option.some.inj hstep
      rfl
    have hvisible : s'.ring.visible = s'.ring.pending := by
      obtain rfl := Option.some.inj hstep
      rfl
    refine ⟨(List.replicate s'.ring.pending [.extract, .ack]).flatten, ?_, ?_⟩
    · intro call hcall
      obtain ⟨pair, hpair, hmem⟩ := List.mem_flatten.mp hcall
      rw [List.eq_of_mem_replicate hpair] at hmem
      simpa using hmem
    · rw [← hinserted]
      exact (hs.step hstep).drain rfl hvisible

/-- A ring of three cells that publishes two values at a time: nothing can be taken before the
second one is there, and one of them is still to be acknowledged. -/
theorem ring_refines_boundedFifo_two_values :
    ∃ s : RingSession ℕ,
      (machine 3 2 0 0).runFrom (machine 3 2 0 0).init
        [.insert 7, .extract, .insert 8, .extract, .ack, .extract] = some s ∧
        s.inserted = [7, 8] ∧ s.acked = [7] ∧ s.acked <+: s.inserted ∧
        (boundedFifo ℕ 2).runFrom [] s.history = some [8] := by
  obtain ⟨s, hs⟩ : ∃ s, (machine 3 2 0 0).runFrom (machine 3 2 0 0).init
      [.insert 7, .extract, .insert 8, .extract, .ack, .extract] = some s := ⟨_, rfl⟩
  have hall := ring_refines_boundedFifo 3 2 0 0 (by decide) s ⟨_, hs⟩
  obtain rfl := Option.some.inj hs
  exact ⟨_, rfl, rfl, rfl, hall.2.1, hall.1⟩

end RingSession

end AFStream.Queues

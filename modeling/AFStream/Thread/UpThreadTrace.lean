/-
# Records from a trace to the compute threads

`UpThreadTrace` copies each record of the RAM adapter into a slot of the ring of the
compute thread that the router chooses, and the compute thread reads it from there as a
string. A record has no terminator in the buffer of the adapter, the copy runs up to the
next zero byte and writes none, and a slot keeps what it held behind the copied bytes.
The module follows all these bytes through every interleaving of the threads, with any
number of records, and finds exactly which records arrive unchanged.
-/

import AFStream.Queues.RingSession
import AFStream.Thread.Adapter
import AFStream.WrapItem

namespace AFStream.Thread

open AFStream.Foundation AFStream.Queues

/-! ## Raw items -/

/-- `RawItem` -/
structure RawItem where
  rawData : Block maxRecordLength

namespace RawItem

/-- `operator=`: `strlen` and `memcpy` from the memory where the other item starts. The copy
is undefined when the memory ends before the string, or the string is longer than the
member. -/
def assign (item : RawItem) (memory : List UInt8) : Option RawItem :=
  if 0 ∈ memory ∧ (cString memory).length ≤ maxRecordLength then
    some ⟨item.rawData.write (cString memory)⟩
  else none

/-- The string that a reader finds in the item. -/
def string (item : RawItem) : List UInt8 := cString item.rawData.bytes

end RawItem

/-- The string of a slot. -/
def slotString (slot : WrapItem RawItem) : List UInt8 := slot.data.string

/-! ## The threads -/

/-- The upstream thread, the rings and what the compute threads have read. -/
structure UpThreadTrace where
  adapter : AdapterRAM
  queues : ℕ → RingSession (WrapItem RawItem)
  event : ℕ
  /-- The strings that a compute thread has found in its tuples. -/
  received : ℕ → List (List UInt8)
  /-- A copy has left its memory. -/
  overrun : Bool

/-- What can happen next. -/
inductive TraceAction
  | /-- One iteration of the main loop. -/
    emit
  | /-- A compute thread looks for a tuple, copies it and acknowledges it. -/
    receive (thread : ℕ)
  | /-- The `Flush` behind the loop. -/
    flush (thread : ℕ)

namespace UpThreadTrace

/-- `ReadRecord` and `Emit`. The destinations are those that the router answers, one for
each record. -/
def emit (destination : ℕ → ℕ) (s : UpThreadTrace) : Option UpThreadTrace :=
  match s.adapter.readRecord with
  | (none, _) => none
  | (some (data, _), adapter) =>
    let index := destination s.event
    let s := { s with adapter := adapter, event := s.event + 1 }
    ((s.queues index).step .getSlot).bind fun session =>
      session.slot.bind fun cell =>
        let slot := session.ring.buffer cell
        match slot.data.assign (adapter.buf.drop data) with
        | none => some { s with overrun := true }
        | some raw =>
          (session.step (.fill { slot with itemType := .normal, data := raw })).bind fun session =>
            (session.step .completeWrite).map fun session =>
              { s with queues := Function.update s.queues index session }

/-- The compute thread's part: `Extract`, the copy of the tuple and `Ack`. -/
def receive (s : UpThreadTrace) (thread : ℕ) : Option UpThreadTrace :=
  ((s.queues thread).step .extract).bind fun session =>
    match session.extracted with
    | none => some { s with queues := Function.update s.queues thread session }
    | some addr =>
      (session.step .ack).map fun session' =>
        { s with
          queues := Function.update s.queues thread session'
          received := Function.update s.received thread
            (s.received thread ++ [slotString (session.ring.buffer addr)]) }

/-- One step. Nothing is said about what happens after an overrun. -/
def step (destination : ℕ → ℕ) (s : UpThreadTrace) (action : TraceAction) :
    Option UpThreadTrace :=
  if s.overrun then none
  else
    match action with
    | .emit => s.emit destination
    | .receive thread => s.receive thread
    | .flush thread => ((s.queues thread).step .flush).map fun session =>
        { s with queues := Function.update s.queues thread session }

/-- A cleared slot. -/
def zeroSlot : WrapItem RawItem := ⟨.normal, 0, 0, 0, ⟨.zero⟩⟩

/-- All runs from a loaded adapter and new rings. -/
def machine (destination : ℕ → ℕ) (adapter : AdapterRAM) (uninit : ℕ) :
    Machine UpThreadTrace TraceAction where
  init :=
    { adapter := adapter
      queues := fun _ => (RingSession.machine rbSize rbBatch zeroSlot uninit).init
      event := 0
      received := fun _ => []
      overrun := false }
  step := step destination

end UpThreadTrace

/-! ## Which records arrive unchanged -/

/-- The records that go to a thread, among the first ones. -/
def arrivals (destination : ℕ → ℕ) (thread count : ℕ) : List ℕ :=
  (List.range count).filter fun k => destination k = thread

/-- The slot that a record is stored in: a ring and a cell. -/
def slotOf (destination : ℕ → ℕ) (k : ℕ) : ℕ × ℕ :=
  (destination k, (arrivals destination (destination k) k).length % rbSize)

section Kept

variable (destination : ℕ → ℕ) (records : List (List UInt8))

/-- The text of a record. -/
def recordAt (k : ℕ) : List UInt8 := records.getD k []

/-- The texts that go to a thread, among the first records. -/
def routed (thread count : ℕ) : List (List UInt8) :=
  (arrivals destination thread count).map (recordAt records)

/-- The byte behind a record in the buffer is zero: it belongs to the length of the next
record, or to memory that has never been written. -/
def Terminated (bufSize k : ℕ) : Prop :=
  match records[k + 1]? with
  | some next => next.length % 256 = 0
  | none => recordsSize records < bufSize

instance (bufSize k : ℕ) : Decidable (Terminated records bufSize k) := by
  unfold Terminated
  split <;> infer_instance

/-- The first records are terminated in the buffer, and none is shorter than a record that
was in its slot before. -/
def Kept (bufSize count : ℕ) : Prop :=
  ∀ k < count, Terminated records bufSize k ∧
    ∀ j < k, slotOf destination j = slotOf destination k →
      (recordAt records j).length ≤ (recordAt records k).length

instance (bufSize count : ℕ) : Decidable (Kept destination records bufSize count) :=
  inferInstanceAs (Decidable (∀ k < count, _))

/-- Every compute thread has read, and will read from its ring, exactly the texts of the
records that have been sent to it. -/
def UpThreadTrace.Intact (s : UpThreadTrace) : Prop :=
  s.overrun = false ∧
    ∀ thread, s.received thread ++ (s.queues thread).ring.contents.map slotString =
      routed destination records thread s.event

end Kept

/-! ## One copy -/

namespace RawItem

variable {item : RawItem} {text after : List UInt8}

/-- A record with a zero byte behind it is copied as it is. -/
theorem assign_terminated (htext : 0 ∉ text) (hlength : text.length < maxRecordLength)
    (hafter : after.head? = some 0) :
    item.assign (text ++ after) = some ⟨item.rawData.write text⟩ := by
  obtain ⟨rest, rfl⟩ : ∃ rest, after = 0 :: rest := List.head?_eq_some_iff.mp hafter
  have hstring : cString (text ++ 0 :: rest) = text := by
    rw [cString_append_zero, cString_of_not_mem htext]
  rw [assign, hstring, if_pos ⟨by simp, hlength.le⟩]

/-- The bytes of an item after a copy: the text, and behind it what there was before. -/
theorem getElem?_write (hlength : text.length < maxRecordLength) (p : ℕ) :
    (item.rawData.write text).bytes[p]? =
      if p < text.length then text[p]? else item.rawData.bytes[p]? := by
  rw [Block.bytes_write _ hlength.le, List.getElem?_append]
  split_ifs with hp
  · rfl
  · rw [List.getElem?_drop, Nat.add_sub_cancel' (by omega)]

/-- After a copy of a text, the item holds it exactly when its old contents end it. -/
theorem string_write_iff (htext : 0 ∉ text) (hlength : text.length < maxRecordLength) :
    RawItem.string ⟨item.rawData.write text⟩ = text ↔
      item.rawData.bytes[text.length]? = some 0 := by
  have hdrop : item.rawData.bytes.drop text.length ≠ [] := by
    rw [Ne, List.drop_eq_nil_iff, item.rawData.length_eq]
    omega
  rw [string, Block.bytes_write _ hlength.le, cString_append htext, ← List.head?_drop]
  cases hrest : item.rawData.bytes.drop text.length with
  | nil => exact absurd hrest hdrop
  | cons b rest =>
      rw [List.head?_cons, Option.some.injEq, List.append_right_eq_self]
      by_cases hb : b = 0
      · simp [hb]
      · simp [cString_cons hb, hb]

/-- A copy that gives the text has found a zero byte behind it. -/
theorem head?_of_assign (htext : 0 ∉ text) {raw : RawItem}
    (hassign : item.assign (text ++ after) = some raw) (hstring : raw.string = text) :
    after.head? = some 0 := by
  rw [assign] at hassign
  split_ifs at hassign with hcopy
  obtain rfl := Option.some.inj hassign
  rw [string, Block.bytes_write _ hcopy.2, cString_append (zero_not_mem_cString _),
    cString_append htext, List.append_assoc, List.append_right_eq_self] at hstring
  cases after with
  | nil => exact absurd (by simpa using hcopy.1) htext
  | cons b rest =>
      by_cases hb : b = 0
      · rw [hb, List.head?_cons]
      · rw [cString_cons hb] at hstring
        cases hstring

/-- **One copy is exact** when the record is terminated in the buffer and the old contents of
the slot end it, and only then. -/
theorem assign_intact_iff (htext : 0 ∉ text) (hlength : text.length < maxRecordLength) :
    (∃ raw, item.assign (text ++ after) = some raw ∧ raw.string = text) ↔
      after.head? = some 0 ∧ item.rawData.bytes[text.length]? = some 0 := by
  constructor
  · rintro ⟨raw, hassign, hstring⟩
    have hafter := head?_of_assign htext hassign hstring
    rw [assign_terminated htext hlength hafter] at hassign
    obtain rfl := Option.some.inj hassign
    exact ⟨hafter, (string_write_iff htext hlength).mp hstring⟩
  · rintro ⟨hafter, hold⟩
    exact ⟨_, assign_terminated htext hlength hafter, (string_write_iff htext hlength).mpr hold⟩

end RawItem

/-! ## Records in order -/

section Order

variable {destination : ℕ → ℕ} {records : List (List UInt8)} {bufSize : ℕ}

theorem arrivals_succ (destination : ℕ → ℕ) (thread count : ℕ) :
    arrivals destination thread (count + 1) =
      arrivals destination thread count ++ if destination count = thread then [count] else [] := by
  rw [arrivals, List.range_succ, List.filter_append, ← arrivals]
  congr 1
  by_cases h : destination count = thread <;> simp [h]

theorem routed_succ (destination : ℕ → ℕ) (records : List (List UInt8)) (thread count : ℕ) :
    routed destination records thread (count + 1) =
      routed destination records thread count ++
        if destination count = thread then [recordAt records count] else [] := by
  rw [routed, arrivals_succ, List.map_append, ← routed]
  congr 1
  split_ifs <;> rfl

theorem kept_succ_iff {count : ℕ} :
    Kept destination records bufSize (count + 1) ↔
      Kept destination records bufSize count ∧ Terminated records bufSize count ∧
        ∀ j < count, slotOf destination j = slotOf destination count →
          (recordAt records j).length ≤ (recordAt records count).length := by
  rw [Kept, Nat.forall_lt_succ_right]
  rfl

theorem recordAt_eq {k : ℕ} (hk : k < records.length) : recordAt records k = records[k] := by
  rw [recordAt, List.getD_eq_getElem?_getD, List.getElem?_eq_getElem hk, Option.getD_some]

/-- The record that is read when some have been. -/
theorem drop_eq_recordAt {k : ℕ} (hk : k < records.length) :
    records.drop k = recordAt records k :: records.drop (k + 1) := by
  rw [recordAt_eq hk, List.drop_eq_getElem_cons hk]

theorem take_eq_recordAt {k : ℕ} (hk : k < records.length) :
    records.take (k + 1) = records.take k ++ [recordAt records k] := by
  rw [recordAt_eq hk, List.take_succ_eq_append_getElem hk]

/-- The memory behind a record in the buffer. -/
def behind (records : List (List UInt8)) (bufSize k : ℕ) : List UInt8 :=
  layout (records.drop (k + 1)) ++ List.replicate (bufSize - recordsSize records) 0

/-- The condition on lengths says which byte follows a record in the buffer. -/
theorem terminated_iff (records : List (List UInt8)) (bufSize k : ℕ) :
    Terminated records bufSize k ↔ (behind records bufSize k).head? = some 0 := by
  rw [Terminated, behind]
  cases hnext : records[k + 1]? with
  | none =>
      rw [List.getElem?_eq_none_iff] at hnext
      rw [List.drop_eq_nil_iff.mpr hnext]
      cases hroom : bufSize - recordsSize records with
      | zero =>
          have hle : ¬ recordsSize records < bufSize := by omega
          simpa [layout] using hle
      | succ room =>
          have hlt : recordsSize records < bufSize := by omega
          simpa [layout, List.replicate_succ] using hlt
  | some next =>
      obtain ⟨hlt, hget⟩ := List.getElem?_eq_some_iff.mp hnext
      have hlow : (UInt32.ofNat next.length).toUInt8 = 0 ↔ next.length % 256 = 0 := by
        rw [← UInt8.toNat_inj, UInt32.toNat_toUInt8, UInt32.toNat_ofNat']
        change next.length % 2 ^ 32 % 2 ^ 8 = 0 ↔ _
        omega
      rw [List.drop_eq_getElem_cons hlt, hget, layout_cons, frame]
      change next.length % 256 = 0 ↔ some (UInt32.ofNat next.length).toUInt8 = some 0
      rw [Option.some.injEq, hlow]

end Order

/-! ## The invariant -/

namespace UpThreadTrace

variable {destination : ℕ → ℕ} {records : List (List UInt8)} {bufSize : ℕ}
  {s s' : UpThreadTrace}

/-- What the rings have taken in are the texts of the records that were sent to them. -/
def Stored (destination : ℕ → ℕ) (records : List (List UInt8)) (s : UpThreadTrace) : Prop :=
  s.overrun = false ∧
    ∀ thread, (s.queues thread).inserted.map slotString =
      routed destination records thread s.event

/-- A byte of a cell is zero when no record in the cell has reached it. -/
def Cleared (destination : ℕ → ℕ) (records : List (List UInt8)) (s : UpThreadTrace) : Prop :=
  ∀ thread, ∀ cell < rbSize, ∀ p < maxRecordLength,
    ((s.queues thread).ring.buffer cell).data.rawData.bytes[p]? = some 0 ↔
      ∀ k < s.event, slotOf destination k = (thread, cell) → (recordAt records k).length ≤ p

/-- What holds in every run. -/
structure Inv (destination : ℕ → ℕ) (records : List (List UInt8)) (bufSize : ℕ)
    (s : UpThreadTrace) : Prop where
  event_le : s.event ≤ records.length
  adapter : s.adapter.Holds bufSize (records.take s.event) (records.drop s.event)
  sessions : ∀ thread, (s.queues thread).Inv (rbSize - 1)
  slots : ∀ thread, (s.queues thread).slot = none
  received : ∀ thread, s.received thread = (s.queues thread).acked.map slotString
  positions : s.overrun = false → ∀ thread, (s.queues thread).ring.nextWriteIndex =
    (arrivals destination thread s.event).length % rbSize
  stored : s.Stored destination records ↔ Kept destination records bufSize s.event
  cleared : Kept destination records bufSize s.event → s.Cleared destination records

/-- What compute threads have read and will read is what the rings have taken in. -/
theorem Inv.intact_iff (h : s.Inv destination records bufSize) :
    s.Intact destination records ↔ s.Stored destination records := by
  have hread : ∀ thread, s.received thread ++ (s.queues thread).ring.contents.map slotString =
      (s.queues thread).inserted.map slotString := by
    intro thread
    rw [h.received thread, (h.sessions thread).inserted_eq, List.map_append]
  simp only [Intact, Stored, hread]

/-- A consumer leaves everything but its own position as it is. -/
theorem Inv.consumer (h : s.Inv destination records bufSize) {thread : ℕ}
    {session : RingSession (WrapItem RawItem)} {received : List (List UInt8)}
    (hinv : session.Inv (rbSize - 1))
    (hsame : RingSession.SameProducer (s.queues thread) session)
    (hreceived : received = session.acked.map slotString) :
    Inv destination records bufSize { s with
      queues := Function.update s.queues thread session
      received := Function.update s.received thread received } := by
  have hqueue : ∀ {A : Type} (f : RingSession (WrapItem RawItem) → A),
      f session = f (s.queues thread) → ∀ other,
        f (Function.update s.queues thread session other) = f (s.queues other) := by
    intro A f hf other
    by_cases hother : other = thread
    · rw [hother, Function.update_self, hf]
    · rw [Function.update_of_ne hother]
  have hinserted' := hqueue RingSession.inserted hsame.inserted_eq
  have hbuffer' := hqueue (fun q => q.ring.buffer) hsame.buffer_eq
  have hnext' := hqueue (fun q => q.ring.nextWriteIndex) hsame.nextWrite_eq
  constructor
  · exact h.event_le
  · exact h.adapter
  · intro other
    by_cases hother : other = thread
    · change (Function.update s.queues thread session other).Inv _
      rwa [hother, Function.update_self]
    · change (Function.update s.queues thread session other).Inv _
      rw [Function.update_of_ne hother]
      exact h.sessions other
  · intro other
    exact (hqueue RingSession.slot hsame.slot_eq other).trans (h.slots other)
  · intro other
    change Function.update s.received thread received other =
      (Function.update s.queues thread session other).acked.map slotString
    by_cases hother : other = thread
    · rw [hother, Function.update_self, Function.update_self, hreceived]
    · rw [Function.update_of_ne hother, Function.update_of_ne hother]
      exact h.received other
  · intro hoverrun other
    exact (hnext' other).trans (h.positions hoverrun other)
  · simp only [Stored, hinserted']
    exact h.stored
  · intro hkept other cell hcell p hp
    have hcleared := h.cleared hkept other cell hcell p hp
    rw [← hbuffer' other] at hcleared
    exact hcleared

/-- A session whose history stays as it is. -/
theorem Inv.consumer_idle (h : s.Inv destination records bufSize) {thread : ℕ}
    {session : RingSession (WrapItem RawItem)} (hinv : session.Inv (rbSize - 1))
    (hsame : RingSession.SameProducer (s.queues thread) session)
    (hacked : session.acked = (s.queues thread).acked) :
    Inv destination records bufSize
      { s with queues := Function.update s.queues thread session } := by
  have h' := h.consumer hinv hsame rfl
  rwa [hacked, ← h.received thread, Function.update_eq_self] at h'

/-- A compute thread takes a tuple, or finds none. -/
theorem Inv.receive (h : s.Inv destination records bufSize) {thread : ℕ}
    (hstep : s.receive thread = some s') : s'.Inv destination records bufSize := by
  obtain ⟨seen, hextract, hrest⟩ := Option.bind_eq_some_iff.mp hstep
  have hinv := (h.sessions thread).step hextract
  have hsame := RingSession.sameProducer_of_extract hextract
  have hhistory : seen.history = (s.queues thread).history := by
    obtain rfl := Option.some.inj hextract
    rfl
  have hacked : seen.acked = (s.queues thread).acked := by
    rw [RingSession.acked, hhistory, RingSession.acked]
  cases haddr : seen.extracted with
  | none =>
      rw [haddr] at hrest
      obtain rfl := Option.some.inj hrest
      exact h.consumer_idle hinv hsame hacked
  | some addr =>
      rw [haddr] at hrest
      obtain ⟨session, hack, rfl⟩ := Option.map_eq_some_iff.mp hrest
      apply h.consumer (hinv.step hack) (hsame.trans (RingSession.sameProducer_of_ack hack))
      obtain ⟨addr', haddr', rfl⟩ := Option.map_eq_some_iff.mp hack
      obtain rfl := Option.some.inj (haddr.symm.trans haddr')
      change _ = (QueueEvent.takes (seen.history ++ [.take (seen.ring.buffer addr)])).map slotString
      rw [QueueEvent.takes_append, QueueEvent.takes_take, List.map_append, h.received thread,
        ← hacked]
      rfl

/-- The slot that the next record goes to. -/
def nextSlot (destination : ℕ → ℕ) (s : UpThreadTrace) : WrapItem RawItem :=
  (s.queues (destination s.event)).ring.buffer
    (s.queues (destination s.event)).ring.nextWriteIndex

/-- The record of an iteration of the main loop, read from the adapter. -/
theorem Inv.readRecord (h : s.Inv destination records bufSize)
    (hlength : ∀ record ∈ records, record.length < maxRecordLength) {data len : ℕ}
    {adapter : AdapterRAM} (hread : s.adapter.readRecord = (some (data, len), adapter)) :
    s.event < records.length ∧
      adapter.Holds bufSize (records.take (s.event + 1)) (records.drop (s.event + 1)) ∧
      adapter.buf.drop data = recordAt records s.event ++ behind records bufSize s.event := by
  have hlt : s.event < records.length := by
    by_contra hend
    have hstop : s.adapter.curCnt = s.adapter.totCnt := by
      rw [h.adapter.curCnt_eq, h.adapter.totCnt_eq, List.drop_eq_nil_iff.mpr (not_lt.mp hend),
        List.append_nil]
    rw [AdapterRAM.readRecord, if_pos hstop] at hread
    cases hread
  have hadapter := h.adapter
  rw [drop_eq_recordAt hlt] at hadapter
  have hmem : recordAt records s.event ∈ records := by
    rw [recordAt_eq hlt]
    exact List.getElem_mem hlt
  obtain ⟨adapter', hread', hbuf, hholds⟩ := hadapter.readRecord (hlength _ hmem)
  rw [hread'] at hread
  cases hread
  refine ⟨hlt, ?_, ?_⟩
  · rwa [take_eq_recordAt hlt]
  · rw [hbuf, hadapter.drop_data.2, ← drop_eq_recordAt hlt, List.take_append_drop,
      List.append_assoc]
    rfl

/-- What an iteration of the main loop can do: the copy leaves its memory, or the record is
stored in the next slot of the ring of its destination. -/
theorem Inv.emit_cases (h : s.Inv destination records bufSize)
    (hlength : ∀ record ∈ records, record.length < maxRecordLength)
    (hstep : s.emit destination = some s') :
    s.event < records.length ∧
    ∃ adapter, adapter.Holds bufSize (records.take (s.event + 1)) (records.drop (s.event + 1)) ∧
      (((s.nextSlot destination).data.assign
            (recordAt records s.event ++ behind records bufSize s.event) = none ∧
          s' = { s with adapter := adapter, event := s.event + 1, overrun := true }) ∨
        ∃ raw session,
          (s.nextSlot destination).data.assign
            (recordAt records s.event ++ behind records bufSize s.event) = some raw ∧
          RingSession.Stored (s.queues (destination s.event))
            { s.nextSlot destination with itemType := .normal, data := raw } session ∧
          session.Inv (rbSize - 1) ∧
          s' = { s with
            adapter := adapter
            event := s.event + 1
            queues := Function.update s.queues (destination s.event) session }) := by
  rw [emit] at hstep
  split at hstep
  · cases hstep
  · rename_i data len adapter hread
    obtain ⟨hlt, hholds, hdata⟩ := h.readRecord hlength hread
    obtain ⟨granted, hget, hrest⟩ := Option.bind_eq_some_iff.mp hstep
    obtain ⟨cell, hcell, hrest⟩ := Option.bind_eq_some_iff.mp hrest
    have hgranted := RingSession.granted_of_getSlot hget
    obtain rfl := Option.some.inj (hcell.symm.trans hgranted.slot_eq)
    have hslot : granted.ring.buffer (s.queues (destination s.event)).ring.nextWriteIndex =
        s.nextSlot destination := by
      rw [hgranted.buffer_eq]
      rfl
    rw [hdata] at hrest
    refine ⟨hlt, adapter, hholds, ?_⟩
    change (match (granted.ring.buffer
      (s.queues (destination s.event)).ring.nextWriteIndex).data.assign _ with
      | none => _
      | some raw => _) = _ at hrest
    rw [hslot] at hrest
    cases hassign : (s.nextSlot destination).data.assign
        (recordAt records s.event ++ behind records bufSize s.event) with
    | none =>
        rw [hassign] at hrest
        exact .inl ⟨rfl, (Option.some.inj hrest).symm⟩
    | some raw =>
        rw [hassign] at hrest
        obtain ⟨filled, hfill, hrest⟩ := Option.bind_eq_some_iff.mp hrest
        obtain ⟨session, hcomplete, rfl⟩ := Option.map_eq_some_iff.mp hrest
        have hinv := (((h.sessions (destination s.event)).step hget).step hfill).step hcomplete
        exact .inr ⟨raw, session, rfl, hgranted.stored hfill hcomplete, hinv, rfl⟩

theorem inserted_of_stored {session session' : RingSession (WrapItem RawItem)}
    {slot : WrapItem RawItem} (hstored : session.Stored slot session') :
    session'.inserted = session.inserted ++ [slot] := by
  rw [RingSession.inserted, hstored.history_eq, QueueEvent.puts_append, QueueEvent.puts_put]
  rfl

/-- One more record in a ring: everything is stored as it should be when it was before and
the new slot has the text of the record. -/
theorem stored_emit_iff {adapter : AdapterRAM} {slot : WrapItem RawItem}
    {session : RingSession (WrapItem RawItem)} (hoverrun : s.overrun = false)
    (hstored : (s.queues (destination s.event)).Stored slot session) :
    Stored destination records { s with
        adapter := adapter
        event := s.event + 1
        queues := Function.update s.queues (destination s.event) session } ↔
      s.Stored destination records ∧ slotString slot = recordAt records s.event := by
  have hinserted := inserted_of_stored hstored
  simp only [Stored, hoverrun, true_and, routed_succ]
  constructor
  · intro hall
    have hself := hall (destination s.event)
    rw [Function.update_self, hinserted, List.map_append, if_pos rfl] at hself
    obtain ⟨hbefore, hlast⟩ := List.append_inj' hself rfl
    refine ⟨?_, List.singleton_inj.mp hlast⟩
    intro thread
    by_cases hthread : thread = destination s.event
    · rw [hthread, hbefore]
    · have hother := hall thread
      rwa [Function.update_of_ne hthread, if_neg (Ne.symm hthread), List.append_nil] at hother
  · rintro ⟨hall, hslot⟩ thread
    by_cases hthread : thread = destination s.event
    · rw [hthread, Function.update_self, hinserted, List.map_append, if_pos rfl,
        hall (destination s.event), List.map_singleton, hslot]
    · rw [Function.update_of_ne hthread, if_neg (Ne.symm hthread), List.append_nil, hall thread]

/-- The cell of the next record, and its place among the slots. -/
theorem Inv.nextWrite_eq (h : s.Inv destination records bufSize) (hoverrun : s.overrun = false) :
    slotOf destination s.event = (destination s.event,
      (s.queues (destination s.event)).ring.nextWriteIndex) := by
  rw [slotOf, h.positions hoverrun]

/-- The producer's position after a record. -/
theorem Inv.nextVal_eq (h : s.Inv destination records bufSize) (hoverrun : s.overrun = false) :
    (s.queues (destination s.event)).ring.nextVal
        (s.queues (destination s.event)).ring.nextWriteIndex =
      ((arrivals destination (destination s.event) s.event).length + 1) % rbSize := by
  have hmax : (s.queues (destination s.event)).ring.max = rbSize :=
    (h.sessions (destination s.event)).max_eq
  have hwrap : ∀ n, (if n % 2000 + 1 ≥ 2000 then 0 else n % 2000 + 1) = (n + 1) % 2000 := by
    intro n
    split_ifs <;> omega
  rw [ZeroRingBuffer.nextVal, hmax, h.positions hoverrun]
  exact hwrap _

/-- While everything is kept, the next copy is exact when its record is kept too, and only
then. -/
theorem Inv.assign_iff (h : s.Inv destination records bufSize)
    (hrecords : ∀ record ∈ records, 0 ∉ record ∧ record.length < maxRecordLength)
    (hlt : s.event < records.length) (hoverrun : s.overrun = false)
    (hkept : Kept destination records bufSize s.event) :
    (∃ raw, (s.nextSlot destination).data.assign
        (recordAt records s.event ++ behind records bufSize s.event) = some raw ∧
        raw.string = recordAt records s.event) ↔
      Kept destination records bufSize (s.event + 1) := by
  have hrecord := hrecords (recordAt records s.event) (by
    rw [recordAt_eq hlt]
    exact List.getElem_mem hlt)
  have hcell : (s.queues (destination s.event)).ring.nextWriteIndex < rbSize := by
    rw [h.positions hoverrun]
    exact Nat.mod_lt _ (by decide)
  have hcleared := h.cleared hkept (destination s.event) _ hcell _ hrecord.2
  rw [RawItem.assign_intact_iff hrecord.1 hrecord.2, kept_succ_iff, h.nextWrite_eq hoverrun,
    terminated_iff]
  constructor
  · rintro ⟨hbehind, hold⟩
    exact ⟨hkept, hbehind, hcleared.mp hold⟩
  · rintro ⟨-, hbehind, hold⟩
    exact ⟨hbehind, hcleared.mpr hold⟩

/-- A stored record covers the first bytes of its cell. -/
theorem Inv.cleared_emit (h : s.Inv destination records bufSize)
    (hrecords : ∀ record ∈ records, 0 ∉ record ∧ record.length < maxRecordLength)
    (hlt : s.event < records.length) (hoverrun : s.overrun = false) {adapter : AdapterRAM}
    {raw : RawItem} {session : RingSession (WrapItem RawItem)}
    (hassign : (s.nextSlot destination).data.assign
      (recordAt records s.event ++ behind records bufSize s.event) = some raw)
    (hstored : (s.queues (destination s.event)).Stored
      { s.nextSlot destination with itemType := .normal, data := raw } session)
    (hkept : Kept destination records bufSize (s.event + 1)) :
    Cleared destination records { s with
      adapter := adapter
      event := s.event + 1
      queues := Function.update s.queues (destination s.event) session } := by
  have hrecord := hrecords (recordAt records s.event) (by
    rw [recordAt_eq hlt]
    exact List.getElem_mem hlt)
  obtain ⟨hkept', hterminated, -⟩ := kept_succ_iff.mp hkept
  rw [terminated_iff] at hterminated
  rw [RawItem.assign_terminated hrecord.1 hrecord.2 hterminated] at hassign
  obtain rfl := Option.some.inj hassign
  have hslotOf := h.nextWrite_eq hoverrun
  intro thread cell hcell p hp
  have hcleared := h.cleared hkept' thread cell hcell p hp
  change ((Function.update s.queues (destination s.event) session thread).ring.buffer
      cell).data.rawData.bytes[p]? = some 0 ↔
    ∀ k < s.event + 1, slotOf destination k = (thread, cell) → (recordAt records k).length ≤ p
  rw [Nat.forall_lt_succ_right, ← hcleared]
  by_cases hsame : slotOf destination s.event = (thread, cell)
  · obtain ⟨rfl, rfl⟩ := Prod.mk.inj (hslotOf.symm.trans hsame)
    rw [Function.update_self, hstored.buffer_eq, Function.update_self]
    change ((s.nextSlot destination).data.rawData.write _).bytes[p]? = some 0 ↔ _
    rw [RawItem.getElem?_write hrecord.2]
    split_ifs with hcovered
    · have hne : (recordAt records s.event)[p]? ≠ some 0 :=
        fun hzero => hrecord.1 (List.mem_of_getElem? hzero)
      simp only [hne, false_iff, not_and]
      intro _ hle
      exact absurd (hle hsame) (by omega)
    · constructor
      · exact fun hold => ⟨hold, fun _ => not_lt.mp hcovered⟩
      · exact fun hboth => hboth.1
  · have hbuffer : (Function.update s.queues (destination s.event) session thread).ring.buffer
        cell = (s.queues thread).ring.buffer cell := by
      by_cases hthread : thread = destination s.event
      · subst hthread
        rw [Function.update_self, hstored.buffer_eq, Function.update_of_ne]
        intro hcellEq
        exact hsame (hslotOf.trans (by rw [hcellEq]))
      · rw [Function.update_of_ne hthread]
    rw [hbuffer]
    constructor
    · exact fun hold => ⟨hold, fun hcontra => absurd hcontra hsame⟩
    · exact fun hboth => hboth.1

/-- An iteration of the main loop. -/
theorem Inv.emit (h : s.Inv destination records bufSize)
    (hrecords : ∀ record ∈ records, 0 ∉ record ∧ record.length < maxRecordLength)
    (hoverrun : s.overrun = false) (hstep : s.emit destination = some s') :
    s'.Inv destination records bufSize := by
  obtain ⟨hlt, adapter, hholds, ⟨hassign, rfl⟩ | ⟨raw, session, hassign, hstored, hinv, rfl⟩⟩ :=
    h.emit_cases (fun record hrecord => (hrecords record hrecord).2) hstep
  · have hnot : ¬ Kept destination records bufSize (s.event + 1) := by
      intro hkept
      obtain ⟨raw, hsome, -⟩ := (h.assign_iff hrecords hlt hoverrun (kept_succ_iff.mp hkept).1).mpr
        hkept
      rw [hassign] at hsome
      cases hsome
    constructor
    · exact hlt
    · exact hholds
    · exact h.sessions
    · exact h.slots
    · exact h.received
    · intro hfalse
      cases hfalse
    · constructor
      · rintro ⟨hfalse, -⟩
        cases hfalse
      · exact fun hkept => absurd hkept hnot
    · exact fun hkept => absurd hkept hnot
  · constructor
    · exact hlt
    · exact hholds
    · intro other
      change (Function.update s.queues (destination s.event) session other).Inv _
      by_cases hother : other = destination s.event
      · rwa [hother, Function.update_self]
      · rw [Function.update_of_ne hother]
        exact h.sessions other
    · intro other
      change (Function.update s.queues (destination s.event) session other).slot = none
      by_cases hother : other = destination s.event
      · rw [hother, Function.update_self, hstored.slot_eq]
      · rw [Function.update_of_ne hother]
        exact h.slots other
    · intro other
      change s.received other =
        (Function.update s.queues (destination s.event) session other).acked.map slotString
      by_cases hother : other = destination s.event
      · rw [hother, Function.update_self, RingSession.acked, hstored.history_eq,
          QueueEvent.takes_append, QueueEvent.takes_put, List.append_nil]
        exact h.received _
      · rw [Function.update_of_ne hother]
        exact h.received other
    · intro _ other
      change (Function.update s.queues (destination s.event) session other).ring.nextWriteIndex =
        (arrivals destination other (s.event + 1)).length % rbSize
      rw [arrivals_succ]
      by_cases hother : other = destination s.event
      · rw [hother, Function.update_self, hstored.nextWrite_eq, h.nextVal_eq hoverrun, if_pos rfl,
          List.length_append, List.length_singleton]
      · rw [Function.update_of_ne hother, if_neg (Ne.symm hother), List.append_nil]
        exact h.positions hoverrun other
    · rw [stored_emit_iff hoverrun hstored, h.stored]
      constructor
      · rintro ⟨hkept, hslot⟩
        exact (h.assign_iff hrecords hlt hoverrun hkept).mp ⟨raw, hassign, hslot⟩
      · intro hkept
        have hkept' := (kept_succ_iff.mp hkept).1
        obtain ⟨raw', hassign', hstring⟩ := (h.assign_iff hrecords hlt hoverrun hkept').mpr hkept
        obtain rfl := Option.some.inj (hassign.symm.trans hassign')
        exact ⟨hkept', hstring⟩
    · exact h.cleared_emit hrecords hlt hoverrun hassign hstored

theorem Inv.flush (h : s.Inv destination records bufSize) {thread : ℕ}
    {session : RingSession (WrapItem RawItem)}
    (hflush : (s.queues thread).step .flush = some session) :
    Inv destination records bufSize
      { s with queues := Function.update s.queues thread session } := by
  apply h.consumer_idle ((h.sessions thread).step hflush)
    (RingSession.sameProducer_of_flush hflush)
  obtain rfl := Option.some.inj hflush
  rfl

/-- Every step keeps the invariant. -/
theorem Inv.step (h : s.Inv destination records bufSize)
    (hrecords : ∀ record ∈ records, 0 ∉ record ∧ record.length < maxRecordLength)
    {action : TraceAction} (hstep : s.step destination action = some s') :
    s'.Inv destination records bufSize := by
  unfold UpThreadTrace.step at hstep
  split_ifs at hstep with hoverrun
  cases action with
  | emit => exact h.emit hrecords (Bool.not_eq_true _ ▸ hoverrun) hstep
  | receive thread => exact h.receive hstep
  | flush thread =>
      obtain ⟨session, hflush, rfl⟩ := Option.map_eq_some_iff.mp hstep
      exact h.flush hflush

/-- The adapter is loaded, the rings are new. -/
theorem Inv.init {adapter : AdapterRAM} (hadapter : adapter.Holds bufSize [] records)
    (uninit : ℕ) : (machine destination adapter uninit).init.Inv destination records bufSize := by
  have hsession : (RingSession.machine rbSize rbBatch zeroSlot uninit).init.Inv (rbSize - 1) :=
    RingSession.inv_of_reachable (by decide) ⟨[], rfl⟩
  constructor
  · exact Nat.zero_le _
  · exact hadapter
  · exact fun _ => hsession
  · exact fun _ => rfl
  · exact fun _ => rfl
  · exact fun _ _ => rfl
  · constructor
    · intro _ k hk
      exact absurd hk (Nat.not_lt_zero k)
    · exact fun _ => ⟨rfl, fun _ => rfl⟩
  · intro _ thread cell _ p hp
    constructor
    · intro _ k hk
      exact absurd hk (Nat.not_lt_zero k)
    · intro _
      change (List.replicate maxRecordLength (0 : UInt8))[p]? = some 0
      rw [List.getElem?_replicate, if_pos hp]

end UpThreadTrace

/-! ## Traces -/

/-- Records that were loaded are strings of the file. -/
theorem loaded_records {file : List UInt8} {max bufSize : ℕ} {records : List (List UInt8)}
    (hrecords : Delivers AdapterRAM.readText (.init file max bufSize) records) :
    (AdapterRAM.init file max bufSize).Holds bufSize [] records ∧
      ∀ record ∈ records, 0 ∉ record ∧ record.length < maxRecordLength := by
  have hloaded := AdapterRAM.init_delivers file max bufSize
  rw [hrecords.unique hloaded]
  refine ⟨AdapterRAM.init_holds file max bufSize, ?_⟩
  intro record hrecord
  have hmem := (loadable_sublist max bufSize 0 (fileRecords file)).mem hrecord
  refine ⟨?_, length_lt_of_mem_fileRecords file record hmem⟩
  obtain ⟨chunk, -, rfl⟩ := List.mem_map.mp hmem
  exact zero_not_mem_cString chunk

/-- **Records of a trace.** For every trace that was loaded, every router, every number of
compute threads and every state of every run: what the compute threads have read, and what
they will read from their rings, are the texts of the records sent to them, exactly when each
of these records has a zero byte behind it in the buffer of the adapter and no slot has held a
longer record before. -/
theorem records_intact_iff (file : List UInt8) (max bufSize : ℕ) (destination : ℕ → ℕ)
    (uninit : ℕ) (records : List (List UInt8))
    (hrecords : Delivers AdapterRAM.readText (.init file max bufSize) records) (s : UpThreadTrace)
    (hreach : (UpThreadTrace.machine destination (.init file max bufSize) uninit).Reachable s) :
    s.Intact destination records ↔ Kept destination records bufSize s.event := by
  obtain ⟨hholds, htexts⟩ := loaded_records hrecords
  have h := hreach.invariant (UpThreadTrace.Inv destination records bufSize)
    (UpThreadTrace.Inv.init hholds uninit) fun h hstep => h.step htexts hstep
  rw [h.intact_iff, h.stored]

/-- A line of 256 bytes: the lowest byte of its length is zero. -/
def longLine : List UInt8 := List.replicate 255 98 ++ [newline]

/-- A short line in front of it, and each goes to a compute thread of its own. -/
theorem records_intact_two_lines :
    Delivers AdapterRAM.readText (.init (oneLine ++ longLine) 0 300) [oneLine, longLine] ∧
      ∃ s, (UpThreadTrace.machine (· % 2) (.init (oneLine ++ longLine) 0 300) 0).Reachable s ∧
        s.event = 2 ∧ s.Intact (· % 2) [oneLine, longLine] := by
  have hloaded : loadable 0 300 0 (fileRecords (oneLine ++ longLine)) = [oneLine, longLine] := by
    decide +kernel
  have hrecords := AdapterRAM.init_delivers (oneLine ++ longLine) 0 300
  rw [hloaded] at hrecords
  have hrun : ((UpThreadTrace.machine (· % 2) (.init (oneLine ++ longLine) 0 300) 0).runFrom
      (UpThreadTrace.machine (· % 2) (.init (oneLine ++ longLine) 0 300) 0).init
        [.emit, .flush 0, .receive 0, .emit]).map UpThreadTrace.event = some 2 := by
    decide +kernel
  obtain ⟨s, hs, hevent⟩ := Option.map_eq_some_iff.mp hrun
  refine ⟨hrecords, s, ⟨_, hs⟩, hevent, ?_⟩
  rw [records_intact_iff (oneLine ++ longLine) 0 300 (· % 2) 0 [oneLine, longLine] hrecords s
    ⟨_, hs⟩, hevent]
  decide +kernel

/-- The first of two lines of length 2 arrives with a byte 2 at its end: it is the lowest
byte of the length of the second line. -/
theorem record_not_intact_two_lines :
    Delivers AdapterRAM.readText (.init twoLines 0 64) [[97, newline], [98, newline]] ∧
      ∃ s, (UpThreadTrace.machine (fun _ => 0) (.init twoLines 0 64) 0).Reachable s ∧
        s.received 0 ++ (s.queues 0).ring.contents.map slotString = [[97, newline, 2]] ∧
        ¬ s.Intact (fun _ => 0) [[97, newline], [98, newline]] := by
  have hrecords : Delivers AdapterRAM.readText (.init twoLines 0 64)
      [[97, newline], [98, newline]] :=
    AdapterRAM.init_delivers twoLines 0 64
  have hrun : ((UpThreadTrace.machine (fun _ => 0) (.init twoLines 0 64) 0).runFrom
      (UpThreadTrace.machine (fun _ => 0) (.init twoLines 0 64) 0).init [.emit]).map
        (fun s => (s.event, s.received 0 ++ (s.queues 0).ring.contents.map slotString)) =
      some (1, [[97, newline, 2]]) := by
    decide +kernel
  obtain ⟨s, hs, hdata⟩ := Option.map_eq_some_iff.mp hrun
  obtain ⟨hevent, hstrings⟩ := Prod.mk.inj hdata
  refine ⟨hrecords, s, ⟨[.emit], hs⟩, hstrings, ?_⟩
  rintro ⟨-, hall⟩
  have hzero := hall 0
  rw [hstrings, hevent] at hzero
  exact absurd hzero (by decide +kernel)

end AFStream.Thread

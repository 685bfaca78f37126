/-
# The slot channel

Writers and readers use the mesh in any order, at the granularity of calls. The
state records which slots each side holds and which messages were written to and
received from whom. Slot addresses are tokens: a call moves at most one of them,
from a free ring to its writer, on to a reader's ring, to the reader and back. That
no slot is ever in two places is what keeps a message unchanged between `Write`
and `Ack`, although nothing in the source checks it.
-/

import AFStream.Foundation.TokenPool
import AFStream.Queues.Mesh
import Mathlib.Tactic.DeriveFintype

namespace AFStream.Queues

open AFStream.Foundation

universe u

/-- The mesh and its users. -/
structure Channel (T : Type u) where
  mesh : Mesh T
  /-- Slots a writer got from `GetSlot` and has not written yet. -/
  writerHeld : ℕ → List SlotAddr
  /-- Slots a reader got from `Read` and has not acknowledged yet. -/
  readerHeld : ℕ → List SlotAddr
  /-- Messages written by writer `w` to reader `r`, in order. -/
  written : ℕ → ℕ → List (WrapItem T)
  /-- Messages read by reader `r` that name thread `w` as their source, in order. -/
  received : ℕ → ℕ → List (WrapItem T)

namespace Channel

variable {T : Type u}

/-- The calls of the two sides. -/
inductive Call (T : Type u)
  | getSlot (w : ℕ)
  | fill (w : ℕ) (addr : SlotAddr) (item : WrapItem T)
  | write (w r : ℕ) (addr : SlotAddr)
  | flushWriter (w : ℕ)
  | read (r : ℕ)
  | ack (r : ℕ) (addr : SlotAddr)
  | flushReader (r : ℕ)

/-- Append to one log of a family. -/
def log {α : Type u} (logs : ℕ → ℕ → List α) (i j : ℕ) (entry : α) : ℕ → ℕ → List α :=
  Function.update logs i (Function.update (logs i) j (logs i j ++ [entry]))

theorem log_self {α : Type u} (logs : ℕ → ℕ → List α) (i j : ℕ) (entry : α) :
    log logs i j entry i j = logs i j ++ [entry] := by
  simp [log]

theorem log_of_ne {α : Type u} {logs : ℕ → ℕ → List α} {i j i' j' : ℕ} {entry : α}
    (hne : i' = i → j' ≠ j) : log logs i j entry i' j' = logs i' j' := by
  by_cases hi : i' = i
  · subst hi
    simp [log, hne rfl]
  · simp [log, hi]

/-- One call. `GetSlot`, `Write` and `Ack` are not enabled while they would spin. A
writer stores only into slots it holds, sets the thread source to its own id and
writes only slots prepared that way; a reader acknowledges only slots it holds. -/
def step (numWriter numReader : ℕ) (s : Channel T) : Call T → Option (Channel T)
  | .getSlot w =>
      if w < numWriter then
        (s.mesh.getSlot w).map fun (addr, mesh) =>
          { s with
            mesh := mesh
            writerHeld := Function.update s.writerHeld w (s.writerHeld w ++ [addr]) }
      else none
  | .fill w addr item =>
      if w < numWriter ∧ addr ∈ s.writerHeld w then
        some { s with mesh := s.mesh.store addr { item with thrSource := w } }
      else none
  | .write w r addr =>
      if w < numWriter ∧ r < numReader ∧ addr ∈ s.writerHeld w ∧
          (s.mesh.slots addr).thrSource = w then
        (s.mesh.write w r addr).map fun mesh =>
          { s with
            mesh := mesh
            writerHeld := Function.update s.writerHeld w ((s.writerHeld w).erase addr)
            written := log s.written w r (s.mesh.slots addr) }
      else none
  | .flushWriter w =>
      if w < numWriter then some { s with mesh := s.mesh.flush (.writer w) } else none
  | .read r =>
      if r < numReader then
        match s.mesh.read r with
        | (none, mesh) => some { s with mesh := mesh }
        | (some addr, mesh) =>
          some { s with
            mesh := mesh
            readerHeld := Function.update s.readerHeld r (s.readerHeld r ++ [addr])
            received := log s.received r (s.mesh.slots addr).thrSource (s.mesh.slots addr) }
      else none
  | .ack r addr =>
      if r < numReader ∧ addr ∈ s.readerHeld r then
        (s.mesh.ack r (s.mesh.slots addr).thrSource addr).map fun mesh =>
          { s with
            mesh := mesh
            readerHeld := Function.update s.readerHeld r ((s.readerHeld r).erase addr) }
      else none
  | .flushReader r =>
      if r < numReader then some { s with mesh := s.mesh.flush (.reader r) } else none

/-- Every interleaving on a started mesh. -/
def machine (numWriter numReader : ℕ) (mesh : Mesh T) : Machine (Channel T) (Call T) where
  init :=
    { mesh := mesh
      writerHeld := fun _ => []
      readerHeld := fun _ => []
      written := fun _ _ => []
      received := fun _ _ => [] }
  step := step numWriter numReader

/-- Where a slot can be. -/
inductive Place (numWriter numReader : ℕ)
  | /-- In the free ring of writer `w` that reader `r` returns slots to. -/
    free (w : Fin numWriter) (r : Fin numReader)
  | /-- Held by writer `w`. -/
    writer (w : Fin numWriter)
  | /-- On the way from writer `w` to reader `r`. -/
    transit (w : Fin numWriter) (r : Fin numReader)
  | /-- Held by reader `r`. -/
    reader (r : Fin numReader)
  deriving DecidableEq, Fintype

/-- Addresses in the free ring of writer `w` for reader `r`. -/
def freeSlots (s : Channel T) (w r : ℕ) : List SlotAddr := (s.mesh.ringAt (.writer w) r).contents

/-- Addresses written by `w` to `r` and not yet read. -/
def inTransit (s : Channel T) (w r : ℕ) : List SlotAddr := (s.mesh.ringAt (.reader r) w).contents

/-- The slots at a place. -/
def slotsAt {numWriter numReader : ℕ} (s : Channel T) : Place numWriter numReader → List SlotAddr
  | .free w r => s.freeSlots w r
  | .writer w => s.writerHeld w
  | .transit w r => s.inTransit w r
  | .reader r => s.readerHeld r

/-- The slots of all writers. -/
def allSlots (numWriter : ℕ) : Multiset SlotAddr :=
  ((List.range numWriter).flatMap Mesh.allSlots : List SlotAddr)

/-- A ring of the source's capacity, in order. -/
def RingOk (ring : ZeroRingBuffer SlotAddr) : Prop := ring.WellFormed ∧ ring.max = rbSize

variable (numWriter numReader : ℕ)

/-- Every ring of the mesh is in order and every queue has its rings. -/
structure RingsOk (m : Mesh T) : Prop where
  writer_count : ∀ w < numWriter, (m.own (.writer w)).numQueue = numReader
  reader_count : ∀ r < numReader, (m.own (.reader r)).numQueue = numWriter
  writer_ring : ∀ w < numWriter, ∀ r < numReader, RingOk (m.ringAt (.writer w) r)
  reader_ring : ∀ r < numReader, ∀ w < numWriter, RingOk (m.ringAt (.reader r) w)

/-- What is known of a slot at each place: free slots and slots of a writer are its
own, and from `Write` on a slot also names the writer that owns it. -/
def Admits (slots : SlotAddr → WrapItem T) (addr : SlotAddr) :
    Place numWriter numReader → Prop
  | .free w _ => ∃ i, addr = .slot w i
  | .writer w => ∃ i, addr = .slot w i
  | .transit w _ => (∃ i, addr = .slot w i) ∧ (slots addr).thrSource = w
  | .reader _ => ∃ w < numWriter, (∃ i, addr = .slot w i) ∧ (slots addr).thrSource = w

/-- What every interleaving preserves. -/
structure Inv (s : Channel T) : Prop where
  wired : s.mesh.Wired numWriter numReader
  rings : RingsOk numWriter numReader s.mesh
  /-- The stock of slots is that of `Init`. -/
  stock_eq : TokenPool.stock
    (fun place : Place numWriter numReader => (s.slotsAt place : Multiset SlotAddr)) =
      allSlots numWriter
  admits : ∀ place : Place numWriter numReader, ∀ addr ∈ s.slotsAt place,
    Admits numWriter numReader s.mesh.slots addr place
  /-- What was written is what was received followed by what is in transit. -/
  written_eq : ∀ w < numWriter, ∀ r < numReader,
    s.written w r = s.received r w ++ (s.inTransit w r).map s.mesh.slots

variable {numWriter numReader} {s s' : Channel T} {m m' : Mesh T}

theorem RingsOk.writer_wellFormed (hm : RingsOk numWriter numReader m) {w : ℕ}
    (hw : w < numWriter) : (m.own (.writer w)).WellFormed := by
  intro r hr
  rw [hm.writer_count w hw] at hr
  exact (hm.writer_ring w hw r hr).1

theorem RingsOk.reader_wellFormed (hm : RingsOk numWriter numReader m) {r : ℕ}
    (hr : r < numReader) : (m.own (.reader r)).WellFormed := by
  intro w hw
  rw [hm.reader_count r hr] at hw
  exact (hm.reader_ring r hr w hw).1

theorem RingsOk.replaced (hm : RingsOk numWriter numReader m) {queue : QueueId} {i : ℕ}
    {ring : ZeroRingBuffer SlotAddr} (hrep : Mesh.Replaced m queue i ring m')
    (hring : RingOk ring) : RingsOk numWriter numReader m' := by
  have hkeep (queue' : QueueId) (j : ℕ) (hold : RingOk (m.ringAt queue' j)) :
      RingOk (m'.ringAt queue' j) := by
    by_cases hsame : queue' = queue ∧ j = i
    · obtain ⟨rfl, rfl⟩ := hsame
      rw [hrep.ring_eq]
      exact hring
    · rw [hrep.other queue' j (not_and_or.mp hsame)]
      exact hold
  refine ⟨?_, ?_, ?_, ?_⟩
  · intro w hw
    rw [hrep.numQueue_eq]
    exact hm.writer_count w hw
  · intro r hr
    rw [hrep.numQueue_eq]
    exact hm.reader_count r hr
  · intro w hw r hr
    exact hkeep _ _ (hm.writer_ring w hw r hr)
  · intro r hr w hw
    exact hkeep _ _ (hm.reader_ring r hr w hw)

/-- Taking the oldest address of a ring. -/
theorem RingOk.taken {ring : ZeroRingBuffer SlotAddr} (hring : RingOk ring)
    (hvisible : 0 < ring.visible) :
    RingOk ring.extract.1.ack ∧
      ring.contents = ring.buffer ring.nextReadIndex :: ring.extract.1.ack.contents := by
  have hack := hring.1.extract_ack hvisible
  exact ⟨⟨hack.wellFormed, hack.max_eq.trans hring.2⟩, hack.contents_eq⟩

/-- Adding an address to a ring. -/
theorem RingOk.inserted {ring ring' : ZeroRingBuffer SlotAddr} (hring : RingOk ring)
    {addr : SlotAddr} (hins : ring.insert addr = some ring') :
    RingOk ring' ∧ ring'.contents = ring.contents ++ [addr] := by
  have hinserted := hring.1.insert hins
  exact ⟨⟨hinserted.wellFormed, hinserted.max_eq.trans hring.2⟩, hinserted.contents_eq⟩

/-! ## One slot, one place -/

theorem allSlots_nodup (numWriter : ℕ) : (allSlots numWriter).Nodup := by
  refine Multiset.coe_nodup.mpr (List.nodup_flatMap.mpr ⟨?_, ?_⟩)
  · intro w _
    exact List.nodup_range.map fun i j h => by simpa using h
  · refine List.nodup_range.imp ?_
    intro w w' hne addr hleft hright
    obtain ⟨i, -, rfl⟩ := List.mem_map.mp hleft
    obtain ⟨j, -, hj⟩ := List.mem_map.mp hright
    exact hne (by simpa using (SlotAddr.slot.inj hj).1.symm)

theorem allSlots_eq_sum (numWriter : ℕ) :
    allSlots numWriter = ∑ w : Fin numWriter, (Mesh.allSlots w : Multiset SlotAddr) := by
  induction numWriter with
  | zero => rfl
  | succ n ih =>
      rw [Fin.sum_univ_castSucc]
      simp only [Fin.val_castSucc, Fin.val_last, ← ih]
      simp [allSlots, List.range_succ]

theorem mem_allSlots_iff {addr : SlotAddr} :
    addr ∈ allSlots numWriter ↔ ∃ w < numWriter, ∃ i < rbSize - 1, addr = .slot w i := by
  simp [allSlots, Mesh.allSlots, eq_comm]

theorem Inv.existsUnique_place (hs : s.Inv numWriter numReader) {addr : SlotAddr}
    (haddr : addr ∈ allSlots numWriter) :
    ∃! place : Place numWriter numReader, addr ∈ s.slotsAt place := by
  have hnodup := allSlots_nodup numWriter
  rw [← hs.stock_eq] at hnodup haddr
  simpa using TokenPool.existsUnique_place hnodup haddr

/-- Nothing but slots of `Init` circulates. -/
theorem Inv.mem_allSlots (hs : s.Inv numWriter numReader) {addr : SlotAddr}
    {place : Place numWriter numReader} (hplace : addr ∈ s.slotsAt place) :
    addr ∈ allSlots numWriter := by
  rw [← hs.stock_eq]
  exact TokenPool.mem_stock_iff.mpr ⟨place, by simpa using hplace⟩

/-- Two places never share a slot. -/
theorem Inv.place_unique (hs : s.Inv numWriter numReader) {addr : SlotAddr}
    {place place' : Place numWriter numReader} (hplace : addr ∈ s.slotsAt place)
    (hplace' : addr ∈ s.slotsAt place') : place = place' :=
  (hs.existsUnique_place (hs.mem_allSlots hplace)).unique hplace hplace'

theorem Inv.nodup_slotsAt (hs : s.Inv numWriter numReader) (place : Place numWriter numReader) :
    (s.slotsAt place).Nodup := by
  have hnodup := allSlots_nodup numWriter
  rw [← hs.stock_eq] at hnodup
  exact Multiset.coe_nodup.mp (TokenPool.nodup_held hnodup place)

/-- One address leaves `source` and joins `target`; every other place keeps its
slots. -/
structure Moved (s s' : Channel T) (source target : Place numWriter numReader)
    (addr : SlotAddr) : Prop where
  ne : source ≠ target
  source_perm : (s.slotsAt source).Perm (addr :: s'.slotsAt source)
  target_perm : (s'.slotsAt target).Perm (addr :: s.slotsAt target)
  frame : ∀ place, place ≠ source → place ≠ target → s'.slotsAt place = s.slotsAt place

theorem Moved.stock_eq {source target : Place numWriter numReader} {addr : SlotAddr}
    (hmoved : Moved s s' source target addr) :
    TokenPool.stock
        (fun place : Place numWriter numReader => (s'.slotsAt place : Multiset SlotAddr)) =
      TokenPool.stock
        (fun place : Place numWriter numReader => (s.slotsAt place : Multiset SlotAddr)) := by
  apply TokenPool.stock_move hmoved.ne
  · exact Multiset.coe_eq_coe.mpr hmoved.source_perm
  · exact Multiset.coe_eq_coe.mpr hmoved.target_perm
  · intro place hsource htarget
    rw [hmoved.frame place hsource htarget]

/-! ## Each call preserves the invariant -/

/-- The rule for calls that move one slot. -/
theorem Inv.of_moved (hs : s.Inv numWriter numReader) {source target : Place numWriter numReader}
    {addr : SlotAddr} (hmoved : Moved s s' source target addr)
    (hwired : s'.mesh.Wired numWriter numReader) (hrings : RingsOk numWriter numReader s'.mesh)
    (hslots : s'.mesh.slots = s.mesh.slots)
    (hadmits : Admits numWriter numReader s.mesh.slots addr target)
    (hwritten : ∀ w < numWriter, ∀ r < numReader,
      s'.written w r = s'.received r w ++ (s'.inTransit w r).map s'.mesh.slots) :
    s'.Inv numWriter numReader := by
  refine ⟨hwired, hrings, hmoved.stock_eq.trans hs.stock_eq, ?_, hwritten⟩
  intro place addr' haddr'
  rw [hslots]
  by_cases hsource : place = source
  · subst hsource
    exact hs.admits place addr' (hmoved.source_perm.mem_iff.mpr (List.mem_cons_of_mem _ haddr'))
  by_cases htarget : place = target
  · subst htarget
    rcases List.mem_cons.mp (hmoved.target_perm.mem_iff.mp haddr') with rfl | hold
    · exact hadmits
    · exact hs.admits place addr' hold
  · rw [hmoved.frame place hsource htarget] at haddr'
    exact hs.admits place addr' haddr'

/-- Replacing a free ring touches one place. -/
theorem frame_of_replaced_writer {w i : ℕ} {ring : ZeroRingBuffer SlotAddr}
    (hrep : Mesh.Replaced s.mesh (.writer w) i ring s'.mesh) :
    (∀ w' r', (w' = w → r' ≠ i) → s'.freeSlots w' r' = s.freeSlots w' r') ∧
      ∀ w' r', s'.inTransit w' r' = s.inTransit w' r' := by
  constructor
  · intro w' r' hne
    have hother : QueueId.writer w' ≠ .writer w ∨ r' ≠ i := by
      by_cases hw : w' = w
      · exact .inr (hne hw)
      · exact .inl fun h => hw (QueueId.writer.inj h)
    simp only [freeSlots, hrep.other _ _ hother]
  · intro w' r'
    simp only [inTransit, hrep.other (.reader r') w' (.inl (QueueId.reader_ne_writer _ _))]

/-- Replacing a ring in transit touches one place. -/
theorem frame_of_replaced_reader {r i : ℕ} {ring : ZeroRingBuffer SlotAddr}
    (hrep : Mesh.Replaced s.mesh (.reader r) i ring s'.mesh) :
    (∀ w' r', (w' = i → r' ≠ r) → s'.inTransit w' r' = s.inTransit w' r') ∧
      ∀ w' r', s'.freeSlots w' r' = s.freeSlots w' r' := by
  constructor
  · intro w' r' hne
    have hother : QueueId.reader r' ≠ .reader r ∨ w' ≠ i := by
      by_cases hw : w' = i
      · exact .inl fun h => hne hw (QueueId.reader.inj h)
      · exact .inr hw
    simp only [inTransit, hrep.other _ _ hother]
  · intro w' r'
    simp only [freeSlots, hrep.other (.writer w') r' (.inl (QueueId.writer_ne_reader _ _))]

theorem Inv.wired_of_replaced (hs : s.Inv numWriter numReader) {queue : QueueId} {i : ℕ}
    {ring : ZeroRingBuffer SlotAddr} (hrep : Mesh.Replaced s.mesh queue i ring m') :
    m'.Wired numWriter numReader :=
  hs.wired.congr hrep.peers_eq hrep.writerId_eq hrep.readerId_eq

/-- What `GetSlot` does: one of the writer's free slots becomes held. -/
theorem Inv.getSlot (hs : s.Inv numWriter numReader) {w : ℕ}
    (hstep : step numWriter numReader s (.getSlot w) = some s') :
    s'.Inv numWriter numReader ∧ s'.mesh.slots = s.mesh.slots ∧
      ∃ (w' : Fin numWriter) (r : Fin numReader) (addr : SlotAddr),
        Moved s s' (.free w' r) (.writer w') addr := by
  simp only [step] at hstep
  split_ifs at hstep with hw
  obtain ⟨⟨addr, mesh⟩, hget, hs'⟩ := Option.map_eq_some_iff.mp hstep
  obtain ⟨r, hr, hvisible, haddr, hrep⟩ :=
    Mesh.getSlot_cases (hs.rings.writer_wellFormed hw) hget
  rw [hs.rings.writer_count w hw] at hr
  obtain ⟨hring, hcontents⟩ := (hs.rings.writer_ring w hw r hr).taken hvisible
  rw [← haddr] at hcontents
  obtain rfl : mesh = s'.mesh := by rw [← hs']
  have hheld : s'.writerHeld = Function.update s.writerHeld w (s.writerHeld w ++ [addr]) := by
    rw [← hs']
  have hreader : s'.readerHeld = s.readerHeld := by rw [← hs']
  have hframe := frame_of_replaced_writer hrep
  have hmoved : Moved s s' (.free ⟨w, hw⟩ ⟨r, hr⟩ : Place numWriter numReader)
      (.writer ⟨w, hw⟩) addr := by
    refine ⟨nofun, ?_, ?_, ?_⟩
    · simp only [slotsAt, freeSlots, hrep.ring_eq]
      rw [hcontents]
    · simp [slotsAt, hheld, List.perm_append_singleton]
    · intro place hsource htarget
      cases place with
      | free w' r' =>
          exact hframe.1 w' r' fun hw' hr' => hsource (by simp [Fin.ext_iff, hw', hr'])
      | writer w' =>
          have hne : (w' : ℕ) ≠ w := fun h => htarget (by simp [Fin.ext_iff, h])
          simp [slotsAt, hheld, hne]
      | transit w' r' => exact hframe.2 w' r'
      | reader r' => simp only [slotsAt, hreader]
  have howner : ∃ i, addr = .slot w i := by
    have hmem : addr ∈ s.freeSlots w r := by simp [freeSlots, hcontents]
    exact hs.admits (.free ⟨w, hw⟩ ⟨r, hr⟩) addr hmem
  refine ⟨?_, hrep.slots_eq, _, _, _, hmoved⟩
  refine hs.of_moved hmoved (hs.wired_of_replaced hrep) (hs.rings.replaced hrep hring)
    hrep.slots_eq howner ?_
  intro w' hw' r' hr'
  rw [hframe.2, hrep.slots_eq, ← hs']
  exact hs.written_eq w' hw' r' hr'

/-- What `Write` does: the slot goes to the end of the writer's ring at the reader. -/
theorem Inv.write (hs : s.Inv numWriter numReader) {w r : ℕ} {addr : SlotAddr}
    (hstep : step numWriter numReader s (.write w r addr) = some s') :
    s'.Inv numWriter numReader ∧ s'.mesh.slots = s.mesh.slots ∧
      ∃ (w' : Fin numWriter) (r' : Fin numReader),
        Moved s s' (.writer w') (.transit w' r') addr := by
  simp only [step] at hstep
  split_ifs at hstep with hguard
  obtain ⟨hw, hr, hmem, hsource⟩ := hguard
  obtain ⟨mesh, hwrite, hs'⟩ := Option.map_eq_some_iff.mp hstep
  obtain ⟨ring, hins, hrep⟩ := hs.wired.write_cases hw hr hwrite
  obtain ⟨hring, hcontents⟩ := (hs.rings.reader_ring r hr w hw).inserted hins
  obtain rfl : mesh = s'.mesh := by rw [← hs']
  have hheld : s'.writerHeld = Function.update s.writerHeld w ((s.writerHeld w).erase addr) := by
    rw [← hs']
  have hreader : s'.readerHeld = s.readerHeld := by rw [← hs']
  have hframe := frame_of_replaced_reader hrep
  have htransit : s'.inTransit w r = s.inTransit w r ++ [addr] := by
    rw [inTransit, hrep.ring_eq, hcontents]
    rfl
  have hmoved : Moved s s' (.writer ⟨w, hw⟩ : Place numWriter numReader)
      (.transit ⟨w, hw⟩ ⟨r, hr⟩) addr := by
    refine ⟨nofun, ?_, ?_, ?_⟩
    · simpa [slotsAt, hheld] using List.perm_cons_erase hmem
    · simp [slotsAt, htransit, List.perm_append_singleton]
    · intro place hsource htarget
      cases place with
      | free w' r' => exact hframe.2 w' r'
      | writer w' =>
          have hne : (w' : ℕ) ≠ w := fun h => hsource (by simp [Fin.ext_iff, h])
          simp [slotsAt, hheld, hne]
      | transit w' r' =>
          exact hframe.1 w' r' fun hw' hr' => htarget (by simp [Fin.ext_iff, hw', hr'])
      | reader r' => simp only [slotsAt, hreader]
  have howner : ∃ i, addr = .slot w i := hs.admits (.writer ⟨w, hw⟩) addr hmem
  refine ⟨?_, hrep.slots_eq, _, _, hmoved⟩
  refine hs.of_moved hmoved (hs.wired_of_replaced hrep) (hs.rings.replaced hrep hring)
    hrep.slots_eq ⟨howner, hsource⟩ ?_
  intro w' hw' r' hr'
  have hwritten : s'.written = log s.written w r (s.mesh.slots addr) := by rw [← hs']
  have hreceived : s'.received = s.received := by rw [← hs']
  rw [hrep.slots_eq, hwritten, hreceived]
  by_cases hsame : w' = w ∧ r' = r
  · obtain ⟨rfl, rfl⟩ := hsame
    simp [log, htransit, hs.written_eq w' hw' r' hr']
  · rw [hframe.1 w' r' (not_and.mp hsame), log_of_ne (not_and.mp hsame)]
    exact hs.written_eq w' hw' r' hr'

/-- What `Ack` does: the slot goes back to the free ring of the writer it names. -/
theorem Inv.ack (hs : s.Inv numWriter numReader) {r : ℕ} {addr : SlotAddr}
    (hstep : step numWriter numReader s (.ack r addr) = some s') :
    s'.Inv numWriter numReader ∧ s'.mesh.slots = s.mesh.slots ∧
      (∃ (w : Fin numWriter) (r' : Fin numReader),
        Moved s s' (.reader r') (.free w r') addr) ∧
      ∀ r' w, s'.mesh.ringAt (.reader r') w = s.mesh.ringAt (.reader r') w := by
  simp only [step] at hstep
  split_ifs at hstep with hguard
  obtain ⟨hr, hmem⟩ := hguard
  obtain ⟨mesh, hack, hs'⟩ := Option.map_eq_some_iff.mp hstep
  obtain ⟨w, hw, howner, hsource⟩ := hs.admits (.reader ⟨r, hr⟩) addr hmem
  rw [hsource] at hack
  obtain ⟨ring, hins, hrep⟩ := hs.wired.ack_cases hw hr hack
  obtain ⟨hring, hcontents⟩ := (hs.rings.writer_ring w hw r hr).inserted hins
  obtain rfl : mesh = s'.mesh := by rw [← hs']
  have hwriter : s'.writerHeld = s.writerHeld := by rw [← hs']
  have hheld : s'.readerHeld = Function.update s.readerHeld r ((s.readerHeld r).erase addr) := by
    rw [← hs']
  have hframe := frame_of_replaced_writer hrep
  have hmoved : Moved s s' (.reader ⟨r, hr⟩ : Place numWriter numReader)
      (.free ⟨w, hw⟩ ⟨r, hr⟩) addr := by
    refine ⟨nofun, ?_, ?_, ?_⟩
    · simpa [slotsAt, hheld] using List.perm_cons_erase hmem
    · simp [slotsAt, freeSlots, hrep.ring_eq, hcontents, List.perm_append_singleton]
    · intro place hplace htarget
      cases place with
      | free w' r' =>
          exact hframe.1 w' r' fun hw' hr' => htarget (by simp [Fin.ext_iff, hw', hr'])
      | writer w' => simp only [slotsAt, hwriter]
      | transit w' r' => exact hframe.2 w' r'
      | reader r' =>
          have hne : (r' : ℕ) ≠ r := fun h => hplace (by simp [Fin.ext_iff, h])
          simp [slotsAt, hheld, hne]
  refine ⟨?_, hrep.slots_eq, ⟨_, _, hmoved⟩, fun r' w' =>
    hrep.other _ _ (.inl (QueueId.reader_ne_writer _ _))⟩
  refine hs.of_moved hmoved (hs.wired_of_replaced hrep) (hs.rings.replaced hrep hring)
    hrep.slots_eq howner ?_
  intro w' hw' r' hr'
  rw [hframe.2, hrep.slots_eq, ← hs']
  exact hs.written_eq w' hw' r' hr'

/-- While a reader holds a slot of a writer, none of the writer's free rings is full. -/
theorem Inv.length_freeSlots_lt (hs : s.Inv numWriter numReader) {w r r' i : ℕ}
    (hw : w < numWriter) (hr : r < numReader) (hr' : r' < numReader)
    (hheld : .slot w i ∈ s.readerHeld r') : (s.freeSlots w r).length < rbSize - 1 := by
  have hnodup : (.slot w i :: s.freeSlots w r).Nodup := by
    refine List.nodup_cons.mpr ⟨?_, hs.nodup_slotsAt (.free ⟨w, hw⟩ ⟨r, hr⟩)⟩
    intro hfree
    have hplace : .slot w i ∈ s.slotsAt (.reader ⟨r', hr'⟩ : Place numWriter numReader) := hheld
    have hplace' : .slot w i ∈ s.slotsAt (.free ⟨w, hw⟩ ⟨r, hr⟩ : Place numWriter numReader) :=
      hfree
    cases hs.place_unique hplace hplace'
  have howned (place : Place numWriter numReader) (j : ℕ) (hj : .slot w j ∈ s.slotsAt place) :
      .slot w j ∈ Mesh.allSlots w := by
    obtain ⟨w', -, i', hi', hsame⟩ := mem_allSlots_iff.mp (hs.mem_allSlots hj)
    obtain ⟨rfl, rfl⟩ := SlotAddr.slot.inj hsame
    exact List.mem_map.mpr ⟨j, List.mem_range.mpr hi', rfl⟩
  have hsubset : (.slot w i :: s.freeSlots w r) ⊆ Mesh.allSlots w := by
    intro addr haddr
    rcases List.mem_cons.mp haddr with rfl | hfree
    · exact howned (.reader ⟨r', hr'⟩) i hheld
    · obtain ⟨j, rfl⟩ := hs.admits (.free ⟨w, hw⟩ ⟨r, hr⟩) addr hfree
      exact howned (.free ⟨w, hw⟩ ⟨r, hr⟩) j hfree
  have hle := (List.subperm_of_subset hnodup hsubset).length_le
  simpa [Mesh.allSlots] using hle

/-- Once the cells that the writer has taken are released, `Ack` does not spin. -/
theorem Inv.ack_eq_some (hs : s.Inv numWriter numReader) {r : ℕ} {addr : SlotAddr}
    (hr : r < numReader) (hmem : addr ∈ s.readerHeld r)
    (hreleased : ∀ w < numWriter, (s.mesh.ringAt (.writer w) r).unreleased = 0) :
    ∃ s', step numWriter numReader s (.ack r addr) = some s' := by
  obtain ⟨w, hw, ⟨i, rfl⟩, hsource⟩ := hs.admits (.reader ⟨r, hr⟩) addr hmem
  have hring := hs.rings.writer_ring w hw r hr
  obtain ⟨ring, hins⟩ : ∃ ring, (s.mesh.ringAt (.writer w) r).insert (.slot w i) =
      some ring := by
    have hlt := hs.length_freeSlots_lt hw hr hr hmem
    rw [freeSlots, ZeroRingBuffer.length_contents] at hlt
    rw [← Option.isSome_iff_exists, Option.isSome_iff_ne_none, Ne,
      hring.1.insert_eq_none_iff, hreleased w hw, hring.2]
    omega
  obtain ⟨q, hpush⟩ : ∃ q, (s.mesh.own (.writer w)).push r (.slot w i) = some q :=
    ⟨_, LockFreeQueue.push_eq_some_iff.mpr ⟨ring, hins, rfl⟩⟩
  have hpeer : (s.mesh.peers (.reader r))[w]? = some (.writer w) := by
    simp [hs.wired.reader_peers r hr, hw]
  have hack : s.mesh.ack r w (.slot w i) =
      some { s.mesh with own := Function.update s.mesh.own (.writer w) q } := by
    simp only [Mesh.ack, hpeer, hs.wired.reader_id r hr (by omega), Option.bind_some,
      Mesh.pushTo, hpush, Option.map_some]
  exact ⟨_, by rw [step, if_pos (And.intro hr hmem), hsource, hack, Option.map_some]⟩

/-- The rule for calls that move no slot and store only into slots of writers. -/
theorem Inv.of_still (hs : s.Inv numWriter numReader)
    (hplaces : ∀ place : Place numWriter numReader, s'.slotsAt place = s.slotsAt place)
    (hwired : s'.mesh.Wired numWriter numReader) (hrings : RingsOk numWriter numReader s'.mesh)
    (hslots : ∀ addr, (∀ w < numWriter, addr ∉ s.writerHeld w) →
      s'.mesh.slots addr = s.mesh.slots addr)
    (hwritten : s'.written = s.written) (hreceived : s'.received = s.received) :
    s'.Inv numWriter numReader := by
  have hkept (place : Place numWriter numReader) (hplace : ∀ w, place ≠ .writer w)
      (addr : SlotAddr) (haddr : addr ∈ s.slotsAt place) :
      s'.mesh.slots addr = s.mesh.slots addr := by
    apply hslots
    intro w hw hmem
    have hheld : addr ∈ s.slotsAt (.writer ⟨w, hw⟩ : Place numWriter numReader) := hmem
    exact hplace ⟨w, hw⟩ (hs.place_unique haddr hheld)
  refine ⟨hwired, hrings, ?_, ?_, ?_⟩
  · simp only [hplaces]
    exact hs.stock_eq
  · intro place addr haddr
    rw [hplaces] at haddr
    have hold := hs.admits place addr haddr
    cases place with
    | free w r => exact hold
    | writer w => exact hold
    | transit w r =>
        simp only [Admits] at hold ⊢
        rwa [hkept (.transit w r) nofun addr haddr]
    | reader r =>
        simp only [Admits] at hold ⊢
        rwa [hkept (.reader r) nofun addr haddr]
  · intro w hw r hr
    have htransit : s'.inTransit w r = s.inTransit w r :=
      hplaces (.transit ⟨w, hw⟩ ⟨r, hr⟩)
    rw [hwritten, hreceived, hs.written_eq w hw r hr, htransit]
    congr 1
    refine List.map_congr_left fun addr haddr => ?_
    exact (hkept (.transit ⟨w, hw⟩ ⟨r, hr⟩) nofun addr haddr).symm

/-- A writer that stores into a slot it holds disturbs nobody. -/
theorem Inv.fill (hs : s.Inv numWriter numReader) {w : ℕ} {addr : SlotAddr} {item : WrapItem T}
    (hstep : step numWriter numReader s (.fill w addr item) = some s') :
    s'.Inv numWriter numReader ∧
      (∀ place : Place numWriter numReader, s'.slotsAt place = s.slotsAt place) ∧
      ∃ w' : Fin numWriter, addr ∈ s.slotsAt (.writer w' : Place numWriter numReader) ∧
        ∀ addr', addr' ≠ addr → s'.mesh.slots addr' = s.mesh.slots addr' := by
  simp only [step] at hstep
  split_ifs at hstep with hguard
  obtain ⟨hw, hmem⟩ := hguard
  obtain rfl := Option.some.inj hstep
  have hother (addr' : SlotAddr) (hne : addr' ≠ addr) :
      (s.mesh.store addr { item with thrSource := w }).slots addr' = s.mesh.slots addr' :=
    Function.update_of_ne hne _ _
  have hplaces (place : Place numWriter numReader) :
      slotsAt { s with mesh := s.mesh.store addr { item with thrSource := w } } place =
        s.slotsAt place := by
    cases place <;> rfl
  refine ⟨?_, hplaces, ⟨w, hw⟩, hmem, hother⟩
  refine hs.of_still hplaces (hs.wired.congr rfl rfl rfl) ?_ ?_ rfl rfl
  · exact ⟨hs.rings.1, hs.rings.2, hs.rings.3, hs.rings.4⟩
  · intro addr' hfree
    apply hother
    rintro rfl
    exact hfree w hw hmem

/-- Calls that neither move a slot nor store anything. -/
structure Still (numWriter numReader : ℕ) (s s' : Channel T) : Prop where
  places : ∀ place : Place numWriter numReader, s'.slotsAt place = s.slotsAt place
  slots_eq : s'.mesh.slots = s.mesh.slots

/-- `Flush` by either side. -/
theorem Inv.flush (hs : s.Inv numWriter numReader) (self : QueueId) :
    Inv numWriter numReader { s with mesh := s.mesh.flush self } ∧
      Still numWriter numReader s { s with mesh := s.mesh.flush self } := by
  obtain ⟨hpeers, hwriterId, hreaderId, hslots⟩ := Mesh.flush_frame (m := s.mesh) self
  have hring (queue : QueueId) (i : ℕ) (hold : RingOk (s.mesh.ringAt queue i)) :
      RingOk ((s.mesh.flush self).ringAt queue i) ∧
        ((s.mesh.flush self).ringAt queue i).contents = (s.mesh.ringAt queue i).contents := by
    rcases Mesh.ringAt_flush (m := s.mesh) self queue i with h | h
    · rw [h]
      exact ⟨⟨hold.1.flush.1, hold.2⟩, hold.1.flush.2.1⟩
    · rw [h]
      exact ⟨hold, rfl⟩
  have hcount (queue : QueueId) :
      ((s.mesh.flush self).own queue).numQueue = (s.mesh.own queue).numQueue := by
    rw [Mesh.flush_own]
    split_ifs <;> rfl
  have hplaces (place : Place numWriter numReader) :
      slotsAt { s with mesh := s.mesh.flush self } place = s.slotsAt place := by
    cases place with
    | free w r => exact (hring _ _ (hs.rings.writer_ring w w.isLt r r.isLt)).2
    | writer w => rfl
    | transit w r => exact (hring _ _ (hs.rings.reader_ring r r.isLt w w.isLt)).2
    | reader r => rfl
  refine ⟨?_, hplaces, hslots⟩
  refine hs.of_still hplaces (hs.wired.congr hpeers hwriterId hreaderId) ⟨?_, ?_, ?_, ?_⟩
    (fun addr _ => congrFun hslots addr) rfl rfl
  · intro w hw
    exact (hcount _).trans (hs.rings.writer_count w hw)
  · intro r hr
    exact (hcount _).trans (hs.rings.reader_count r hr)
  · intro w hw r hr
    exact (hring _ _ (hs.rings.writer_ring w hw r hr)).1
  · intro r hr w hw
    exact (hring _ _ (hs.rings.reader_ring r hr w hw)).1

/-- What `Read` does when it answers a slot: the oldest slot of one ring becomes held,
and the message counts as received from the thread it names. -/
theorem Inv.read_some (hs : s.Inv numWriter numReader) {r : ℕ} {addr : SlotAddr}
    (hr : r < numReader) (haddr : (s.mesh.read r).1 = some addr)
    (hs' : s' = { s with
      mesh := (s.mesh.read r).2
      readerHeld := Function.update s.readerHeld r (s.readerHeld r ++ [addr])
      received := log s.received r (s.mesh.slots addr).thrSource (s.mesh.slots addr) }) :
    s'.Inv numWriter numReader ∧ s'.mesh.slots = s.mesh.slots ∧
      ∃ w : Fin numWriter, s.inTransit w r = addr :: s'.inTransit w r ∧
        Moved s s' (.transit w ⟨r, hr⟩) (.reader ⟨r, hr⟩) addr ∧
        (s.mesh.ringAt (.reader r) w).visible = (s'.mesh.ringAt (.reader r) w).visible + 1 ∧
        ∀ w' : ℕ, w' ≠ w → s'.mesh.ringAt (.reader r) w' = s.mesh.ringAt (.reader r) w' := by
  obtain ⟨w, hw, hvisible, hoffset, hrep⟩ :=
    Mesh.read_some_cases (hs.rings.reader_wellFormed hr) haddr
  rw [hs.rings.reader_count r hr] at hw
  obtain ⟨hring, hcontents⟩ := (hs.rings.reader_ring r hr w hw).taken hvisible
  rw [← hoffset] at hcontents
  have hmesh : s'.mesh = (s.mesh.read r).2 := by rw [hs']
  have hwriter : s'.writerHeld = s.writerHeld := by rw [hs']
  have hreader : s'.readerHeld =
      Function.update s.readerHeld r (s.readerHeld r ++ [addr]) := by
    rw [hs']
  have hwritten : s'.written = s.written := by rw [hs']
  have hreceived : s'.received =
      log s.received r (s.mesh.slots addr).thrSource (s.mesh.slots addr) := by
    rw [hs']
  rw [← hmesh] at hrep
  have hframe := frame_of_replaced_reader hrep
  have htransit : s.inTransit w r = addr :: s'.inTransit w r := by
    rw [inTransit, inTransit, hrep.ring_eq]
    exact hcontents
  have hmoved : Moved s s' (.transit ⟨w, hw⟩ ⟨r, hr⟩ : Place numWriter numReader)
      (.reader ⟨r, hr⟩) addr := by
    refine ⟨nofun, ?_, ?_, ?_⟩
    · simp [slotsAt, htransit]
    · simp [slotsAt, hreader, List.perm_append_singleton]
    · intro place hsource htarget
      cases place with
      | free w' r' => exact hframe.2 w' r'
      | writer w' => simp only [slotsAt, hwriter]
      | transit w' r' =>
          exact hframe.1 w' r' fun hw' hr' => hsource (by simp [Fin.ext_iff, hw', hr'])
      | reader r' =>
          have hne : (r' : ℕ) ≠ r := fun h => htarget (by simp [Fin.ext_iff, h])
          simp [slotsAt, hreader, hne]
  have hadmits : (∃ i, addr = .slot w i) ∧ (s.mesh.slots addr).thrSource = w := by
    have hmem : addr ∈ s.inTransit w r := by simp [htransit]
    exact hs.admits (.transit ⟨w, hw⟩ ⟨r, hr⟩) addr hmem
  have hshrunk : (s.mesh.ringAt (.reader r) w).visible =
      (s'.mesh.ringAt (.reader r) w).visible + 1 := by
    rw [hrep.ring_eq]
    exact ((hs.rings.reader_ring r hr w hw).1.extract_ack hvisible).visible_eq
  refine ⟨?_, hrep.slots_eq, ⟨w, hw⟩, htransit, hmoved, hshrunk,
    fun w' hw' => hrep.other _ _ (.inr hw')⟩
  refine hs.of_moved hmoved (hs.wired_of_replaced hrep) (hs.rings.replaced hrep hring)
    hrep.slots_eq ⟨w, hw, hadmits⟩ ?_
  intro w' hw' r' hr'
  rw [hrep.slots_eq, hwritten, hreceived, hadmits.2, hs.written_eq w' hw' r' hr']
  by_cases hsame : w' = w ∧ r' = r
  · obtain ⟨rfl, rfl⟩ := hsame
    rw [htransit, log_self]
    simp
  · have hne : r' = r → w' ≠ w := fun h h' => hsame ⟨h', h⟩
    rw [hframe.1 w' r' (not_and.mp hsame), log_of_ne hne]

/-- What `Read` does when it answers `NULL`: no ring of the reader shows a slot, and
only the round-robin position moves. -/
theorem Inv.read_none (hs : s.Inv numWriter numReader) {r : ℕ} (hr : r < numReader)
    (hnone : (s.mesh.read r).1 = none) :
    Inv numWriter numReader { s with mesh := (s.mesh.read r).2 } ∧
      Still numWriter numReader s { s with mesh := (s.mesh.read r).2 } ∧
      ∀ w < numWriter, (s.mesh.ringAt (.reader r) w).visible = 0 := by
  obtain ⟨hempty, cur, hmesh⟩ := Mesh.read_none_cases (hs.rings.reader_wellFormed hr) hnone
  rw [hs.rings.reader_count r hr] at hempty
  have hown (queue : QueueId) : ((s.mesh.read r).2.own queue).rings = (s.mesh.own queue).rings ∧
      ((s.mesh.read r).2.own queue).numQueue = (s.mesh.own queue).numQueue := by
    rw [hmesh]
    by_cases hqueue : queue = .reader r
    · subst hqueue
      simp
    · simp [hqueue]
  have hring (queue : QueueId) (i : ℕ) :
      (s.mesh.read r).2.ringAt queue i = s.mesh.ringAt queue i :=
    congrFun (hown queue).1 i
  have hplaces (place : Place numWriter numReader) :
      slotsAt { s with mesh := (s.mesh.read r).2 } place = s.slotsAt place := by
    cases place with
    | free w r => simp only [slotsAt, freeSlots, hring]
    | writer w => rfl
    | transit w r => simp only [slotsAt, inTransit, hring]
    | reader r => rfl
  refine ⟨?_, ⟨hplaces, by simp only [hmesh]⟩, hempty⟩
  refine hs.of_still hplaces (hs.wired.congr ?_ ?_ ?_) ⟨?_, ?_, ?_, ?_⟩ ?_ rfl rfl
  · simp only [hmesh]
  · simp only [hmesh]
  · simp only [hmesh]
  · intro w hw
    exact (hown _).2.trans (hs.rings.writer_count w hw)
  · intro r' hr'
    exact (hown _).2.trans (hs.rings.reader_count r' hr')
  · intro w hw r' hr'
    rw [hring]
    exact hs.rings.writer_ring w hw r' hr'
  · intro r' hr' w hw
    rw [hring]
    exact hs.rings.reader_ring r' hr' w hw
  · intro addr _
    simp only [hmesh]

/-- The state after `Init`: every slot of a writer is in its ring `0`. -/
theorem Inv.init (hm : m.Started numWriter numReader) (hpos : 0 < numReader) :
    (machine numWriter numReader m).init.Inv numWriter numReader := by
  have hfree (w : Fin numWriter) (r : ℕ) :
      (machine numWriter numReader m).init.freeSlots w r =
        if r = 0 then Mesh.allSlots w else [] :=
    ((hm.writer_queue w w.isLt).2 r).contents_eq
  have htransit (w : ℕ) (r : Fin numReader) :
      (machine numWriter numReader m).init.inTransit w r = [] :=
    ((hm.reader_queue r r.isLt).2 w).contents_eq
  refine ⟨hm.wired, ⟨?_, ?_, ?_, ?_⟩, ?_, ?_, ?_⟩
  · intro w hw
    exact (hm.writer_queue w hw).1
  · intro r hr
    exact (hm.reader_queue r hr).1
  · intro w hw r _
    have hholds := (hm.writer_queue w hw).2 r
    exact ⟨hholds.wellFormed, hholds.max_eq⟩
  · intro r hr w _
    have hholds := (hm.reader_queue r hr).2 w
    exact ⟨hholds.wellFormed, hholds.max_eq⟩
  · rw [allSlots_eq_sum]
    symm
    -- only the places `free w 0` hold anything
    refine Fintype.sum_of_injective (fun w => Place.free w ⟨0, hpos⟩) ?_ _ _ ?_ ?_
    · intro w w' hsame
      exact (Place.free.inj hsame).1
    · intro place hplace
      cases place with
      | free w r =>
          have hr : (r : ℕ) ≠ 0 := fun hr => hplace ⟨w, by simp [Fin.ext_iff, hr]⟩
          simp [slotsAt, hfree, hr]
      | writer w => rfl
      | transit w r => simp [slotsAt, htransit]
      | reader r => rfl
    · intro w
      simp [slotsAt, hfree]
  · intro place addr haddr
    cases place with
    | free w r =>
        simp only [slotsAt, hfree] at haddr
        split_ifs at haddr with hr
        · obtain ⟨i, -, rfl⟩ := List.mem_map.mp haddr
          exact ⟨i, rfl⟩
        · cases haddr
    | writer w => cases haddr
    | transit w r =>
        simp only [slotsAt, htransit] at haddr
        cases haddr
    | reader r => cases haddr
  · intro w _ r hr
    rw [htransit w ⟨r, hr⟩]
    rfl

theorem step_read_of_none {r : ℕ} (hr : r < numReader) (hnone : (s.mesh.read r).1 = none) :
    step numWriter numReader s (.read r) = some { s with mesh := (s.mesh.read r).2 } := by
  have hpair : s.mesh.read r = (none, (s.mesh.read r).2) := Prod.ext hnone rfl
  rw [step, if_pos hr, hpair]

theorem step_read_of_some {r : ℕ} {addr : SlotAddr} (hr : r < numReader)
    (hsome : (s.mesh.read r).1 = some addr) :
    step numWriter numReader s (.read r) = some { s with
      mesh := (s.mesh.read r).2
      readerHeld := Function.update s.readerHeld r (s.readerHeld r ++ [addr])
      received := log s.received r (s.mesh.slots addr).thrSource (s.mesh.slots addr) } := by
  have hpair : s.mesh.read r = (some addr, (s.mesh.read r).2) := Prod.ext hsome rfl
  rw [step, if_pos hr, hpair]

/-- The inversion of `read`. -/
theorem step_read_cases {r : ℕ} (hstep : step numWriter numReader s (.read r) = some s') :
    r < numReader ∧
      (((s.mesh.read r).1 = none ∧ s' = { s with mesh := (s.mesh.read r).2 }) ∨
        ∃ addr, (s.mesh.read r).1 = some addr ∧
          s' = { s with
            mesh := (s.mesh.read r).2
            readerHeld := Function.update s.readerHeld r (s.readerHeld r ++ [addr])
            received :=
              log s.received r (s.mesh.slots addr).thrSource (s.mesh.slots addr) }) := by
  have hr : r < numReader := by
    by_contra hr
    simp [step, hr] at hstep
  refine ⟨hr, ?_⟩
  cases hread : (s.mesh.read r).1 with
  | none =>
      rw [step_read_of_none hr hread] at hstep
      exact .inl ⟨rfl, (Option.some.inj hstep).symm⟩
  | some addr =>
      rw [step_read_of_some hr hread] at hstep
      exact .inr ⟨addr, rfl, (Option.some.inj hstep).symm⟩

theorem step_flushReader {r : ℕ} (hr : r < numReader) :
    step numWriter numReader s (.flushReader r) =
      some { s with mesh := s.mesh.flush (.reader r) } := by
  rw [step, if_pos hr]

/-- `Ack` neither writes nor receives. -/
theorem step_ack_logs {r : ℕ} {addr : SlotAddr}
    (hstep : step numWriter numReader s (.ack r addr) = some s') :
    s'.written = s.written ∧ s'.received = s.received := by
  simp only [step] at hstep
  split_ifs at hstep
  obtain ⟨mesh, -, rfl⟩ := Option.map_eq_some_iff.mp hstep
  exact ⟨rfl, rfl⟩

/-- Every call preserves the invariant. -/
theorem Inv.step (hs : s.Inv numWriter numReader) {call : Call T}
    (hstep : step numWriter numReader s call = some s') : s'.Inv numWriter numReader := by
  cases call with
  | getSlot w => exact (hs.getSlot hstep).1
  | fill w addr item => exact (hs.fill hstep).1
  | write w r addr => exact (hs.write hstep).1
  | flushWriter w =>
      simp only [Channel.step] at hstep
      split_ifs at hstep
      obtain rfl := Option.some.inj hstep
      exact (hs.flush _).1
  | read r =>
      rcases step_read_cases hstep with ⟨hr, ⟨hnone, rfl⟩ | ⟨addr, haddr, hs'⟩⟩
      · exact (hs.read_none hr hnone).1
      · exact (hs.read_some hr haddr hs').1
  | ack r addr => exact (hs.ack hstep).1
  | flushReader r =>
      simp only [Channel.step] at hstep
      split_ifs at hstep
      obtain rfl := Option.some.inj hstep
      exact (hs.flush _).1

theorem Inv.reachable (hm : m.Started numWriter numReader) (hpos : 0 < numReader)
    (hreach : (machine numWriter numReader m).Reachable s) : s.Inv numWriter numReader :=
  Machine.Reachable.invariant _ (Inv.init hm hpos) (fun hs hstep => hs.step hstep) hreach

/-! ## From `Write` to `Ack` -/

variable (numWriter numReader) in
/-- Written and not yet acknowledged: in transit or held by a reader. -/
def InFlight (s : Channel T) (addr : SlotAddr) : Prop :=
  ∃ place : Place numWriter numReader,
    (∀ w, place ≠ .writer w) ∧ (∀ w r, place ≠ .free w r) ∧ addr ∈ s.slotsAt place

/-- A slot that is not the one a call moves stays where it is. -/
theorem Moved.mem_of_ne {source target place : Place numWriter numReader}
    {addr addr' : SlotAddr} (hmoved : Moved s s' source target addr') (hne : addr ≠ addr')
    (hmem : addr ∈ s.slotsAt place) : addr ∈ s'.slotsAt place := by
  by_cases hsource : place = source
  · subst hsource
    exact (List.mem_cons.mp (hmoved.source_perm.mem_iff.mp hmem)).resolve_left hne
  by_cases htarget : place = target
  · subst htarget
    exact hmoved.target_perm.mem_iff.mpr (List.mem_cons_of_mem _ hmem)
  · rwa [hmoved.frame place hsource htarget]

theorem Moved.mem_source {source target : Place numWriter numReader} {addr : SlotAddr}
    (hmoved : Moved s s' source target addr) : addr ∈ s.slotsAt source :=
  hmoved.source_perm.mem_iff.mpr (List.mem_cons_self ..)

theorem Moved.mem_target {source target : Place numWriter numReader} {addr : SlotAddr}
    (hmoved : Moved s s' source target addr) : addr ∈ s'.slotsAt target :=
  hmoved.target_perm.mem_iff.mpr (List.mem_cons_self ..)

/-- A call that moves some other slot leaves a slot in flight. -/
theorem InFlight.of_moved_of_ne {source target : Place numWriter numReader}
    {addr addr' : SlotAddr} (hflight : s.InFlight numWriter numReader addr)
    (hmoved : Moved s s' source target addr') (hne : addr ≠ addr') :
    s'.InFlight numWriter numReader addr := by
  obtain ⟨place, hwriter, hfree, hmem⟩ := hflight
  exact ⟨place, hwriter, hfree, hmoved.mem_of_ne hne hmem⟩

theorem InFlight.of_still {addr : SlotAddr} (hflight : s.InFlight numWriter numReader addr)
    (hplaces : ∀ place : Place numWriter numReader, s'.slotsAt place = s.slotsAt place) :
    s'.InFlight numWriter numReader addr := by
  obtain ⟨place, hwriter, hfree, hmem⟩ := hflight
  exact ⟨place, hwriter, hfree, by rwa [hplaces place]⟩

/-- The place of a slot in flight is neither a free ring nor a writer. -/
theorem Inv.not_mem_of_inFlight (hs : s.Inv numWriter numReader) {addr : SlotAddr}
    (hflight : s.InFlight numWriter numReader addr) {place : Place numWriter numReader}
    (hplace : (∃ w, place = .writer w) ∨ ∃ w r, place = .free w r) :
    addr ∉ s.slotsAt place := by
  intro hmem
  obtain ⟨other, hwriter, hfree, hother⟩ := hflight
  have hsame := hs.place_unique hother hmem
  rcases hplace with ⟨w, rfl⟩ | ⟨w, r, rfl⟩
  · exact hwriter w hsame
  · exact hfree w r hsame

/-- No call but its own `Ack` changes a message in flight or takes it out of
flight. -/
theorem Inv.inFlight_step (hs : s.Inv numWriter numReader) {call : Call T} {addr : SlotAddr}
    (hflight : s.InFlight numWriter numReader addr) (hack : ∀ r, call ≠ .ack r addr)
    (hstep : Channel.step numWriter numReader s call = some s') :
    s'.InFlight numWriter numReader addr ∧ s'.mesh.slots addr = s.mesh.slots addr := by
  cases call with
  | getSlot w =>
      obtain ⟨-, hslots, w', r, addr', hmoved⟩ := hs.getSlot hstep
      have hne : addr ≠ addr' := by
        rintro rfl
        exact hs.not_mem_of_inFlight hflight (.inr ⟨w', r, rfl⟩) hmoved.mem_source
      exact ⟨hflight.of_moved_of_ne hmoved hne, congrFun hslots addr⟩
  | fill w addr' item =>
      obtain ⟨-, hplaces, w', hmem, hother⟩ := hs.fill hstep
      have hne : addr ≠ addr' := by
        rintro rfl
        exact hs.not_mem_of_inFlight hflight (.inl ⟨w', rfl⟩) hmem
      exact ⟨hflight.of_still hplaces, hother addr hne⟩
  | write w r addr' =>
      obtain ⟨-, hslots, w', r', hmoved⟩ := hs.write hstep
      have hne : addr ≠ addr' := by
        rintro rfl
        exact hs.not_mem_of_inFlight hflight (.inl ⟨w', rfl⟩) hmoved.mem_source
      exact ⟨hflight.of_moved_of_ne hmoved hne, congrFun hslots addr⟩
  | flushWriter w =>
      simp only [Channel.step] at hstep
      split_ifs at hstep
      obtain rfl := Option.some.inj hstep
      have hstill := (hs.flush (.writer w)).2
      exact ⟨hflight.of_still hstill.places, congrFun hstill.slots_eq addr⟩
  | read r =>
      rcases step_read_cases hstep with ⟨hr, ⟨hnone, rfl⟩ | ⟨addr', haddr, hs'⟩⟩
      · have hstill := (hs.read_none hr hnone).2.1
        exact ⟨hflight.of_still hstill.places, congrFun hstill.slots_eq addr⟩
      · obtain ⟨-, hslots, w, -, hmoved, -⟩ := hs.read_some hr haddr hs'
        refine ⟨?_, congrFun hslots addr⟩
        by_cases hsame : addr = addr'
        · subst hsame
          exact ⟨.reader ⟨r, hr⟩, nofun, nofun, hmoved.mem_target⟩
        · exact hflight.of_moved_of_ne hmoved hsame
  | ack r addr' =>
      obtain ⟨-, hslots, ⟨w, r', hmoved⟩, -⟩ := hs.ack hstep
      have hne : addr ≠ addr' := by
        rintro rfl
        exact hack r rfl
      exact ⟨hflight.of_moved_of_ne hmoved hne, congrFun hslots addr⟩
  | flushReader r =>
      simp only [Channel.step] at hstep
      split_ifs at hstep
      obtain rfl := Option.some.inj hstep
      have hstill := (hs.flush (.reader r)).2
      exact ⟨hflight.of_still hstill.places, congrFun hstill.slots_eq addr⟩

/-- Along a run that does not acknowledge the slot its message is stable. -/
theorem Inv.inFlight_run (hs : s.Inv numWriter numReader) {calls : List (Call T)}
    {addr : SlotAddr} (hflight : s.InFlight numWriter numReader addr)
    (hack : ∀ r, .ack r addr ∉ calls)
    (hrun : (machine numWriter numReader m).runFrom s calls = some s') :
    s'.InFlight numWriter numReader addr ∧ s'.mesh.slots addr = s.mesh.slots addr := by
  induction calls generalizing s with
  | nil =>
      obtain rfl : s = s' := by simpa using hrun
      exact ⟨hflight, rfl⟩
  | cons call rest ih =>
      obtain ⟨middle, hstep, hrest⟩ := Option.bind_eq_some_iff.mp hrun
      have hcall : ∀ r, call ≠ .ack r addr := by
        rintro r rfl
        exact hack r (List.mem_cons_self ..)
      obtain ⟨hmiddle, hsame⟩ := hs.inFlight_step hflight hcall hstep
      have htail : ∀ r, .ack r addr ∉ rest := fun r h => hack r (List.mem_cons_of_mem _ h)
      obtain ⟨hfinal, hsame'⟩ := ih (hs.step hstep) hmiddle htail hrest
      exact ⟨hfinal, hsame'.trans hsame⟩

/-- `Flush` of a reader flushes every free ring. -/
theorem Inv.ringAt_flushReader (hs : s.Inv numWriter numReader) {r w r' : ℕ} (hr : r < numReader)
    (hw : w < numWriter) (hr' : r' < numReader) :
    (s.mesh.flush (.reader r)).ringAt (.writer w) r' = (s.mesh.ringAt (.writer w) r').flush := by
  have hpeer : QueueId.writer w ∈ s.mesh.peers (.reader r) := by
    simp [hs.wired.reader_peers r hr, hw]
  have hcount : r' < (s.mesh.own (.writer w)).numQueue := by
    rwa [hs.rings.writer_count w hw]
  simp [Mesh.ringAt, Mesh.flush_own, hpeer, LockFreeQueue.flush, hcount]

/-- After a `Flush` of reader `r` the writers see every cell they have released, and
the rings of the readers are as before. -/
theorem Inv.flushReader_rings (hs : s.Inv numWriter numReader) {r : ℕ} (hr : r < numReader) :
    (∀ w < numWriter, ∀ r' < numReader,
      ((s.mesh.flush (.reader r)).ringAt (.writer w) r').unreleased = 0) ∧
    ∀ r' w, (s.mesh.flush (.reader r)).ringAt (.reader r') w = s.mesh.ringAt (.reader r') w := by
  constructor
  · intro w hw r' hr'
    rw [hs.ringAt_flushReader hr hw hr']
    exact (hs.rings.writer_ring w hw r' hr').1.flush.2.2.2
  · intro r' w
    have hpeer : QueueId.reader r' ∉ s.mesh.peers (.reader r) := by
      simp [hs.wired.reader_peers r hr]
    simp [Mesh.ringAt, Mesh.flush_own, hpeer]

/-- After a `Flush` of writer `w` the reader's ring for `w` shows everything. -/
theorem Inv.visible_flushWriter (hs : s.Inv numWriter numReader) {w r : ℕ}
    (hw : w < numWriter) (hr : r < numReader) :
    ((s.mesh.flush (.writer w)).ringAt (.reader r) w).visible = (s.inTransit w r).length := by
  have hpeer : QueueId.reader r ∈ s.mesh.peers (.writer w) := by
    simp [hs.wired.writer_peers w hw, hr]
  have hring : (s.mesh.flush (.writer w)).ringAt (.reader r) w =
      (s.mesh.ringAt (.reader r) w).flush := by
    have hcount : w < (s.mesh.own (.reader r)).numQueue := by
      rwa [hs.rings.reader_count r hr]
    simp [Mesh.ringAt, Mesh.flush_own, hpeer, LockFreeQueue.flush, hcount]
  rw [hring, (hs.rings.reader_ring r hr w hw).1.flush.2.2.1, inTransit,
    ZeroRingBuffer.length_contents]

/-- **The slot channel delivers exactly once and shares no slot.** In every state that
an interleaving of calls leads to from a started mesh: each slot of each writer is
in exactly one place and only once there, and as long as no reader has it that
place belongs to the writer; a message stays in flight and keeps its content from
its `Write` until its `Ack`; a reader has received from each writer exactly what
the writer wrote to it, in order, up to what is still in transit, and once the
writer has flushed `Read` answers `NULL` only when nothing is in transit. -/
theorem slots_exclusive_and_delivery_exact (cleared : WrapItem T) (uninit : ℕ)
    {numWriter numReader : ℕ} (hpos : 0 < numReader) {m : Mesh T}
    (hstart : Mesh.start cleared uninit numWriter numReader = some m) {s : Channel T}
    (hreach : (machine numWriter numReader m).Reachable s) :
    (∀ w < numWriter, ∀ i < rbSize - 1,
      ∃! place : Place numWriter numReader, .slot w i ∈ s.slotsAt place) ∧
    (∀ place : Place numWriter numReader, (s.slotsAt place).Nodup ∧
      ∀ addr ∈ s.slotsAt place, ∃ w : Fin numWriter, ∃ i < rbSize - 1, addr = .slot w i ∧
        ((∃ r, place = .reader r) ∨ place = .writer w ∨
          ∃ r, place = .free w r ∨ place = .transit w r)) ∧
    (∀ w r addr s₁ calls s₂, step numWriter numReader s (.write w r addr) = some s₁ →
      (machine numWriter numReader m).runFrom s₁ calls = some s₂ →
      (∀ r', .ack r' addr ∉ calls) →
      s₂.InFlight numWriter numReader addr ∧ s₂.mesh.slots addr = s.mesh.slots addr) ∧
    (∀ w < numWriter, ∀ r < numReader,
      s.written w r = s.received r w ++ (s.inTransit w r).map s.mesh.slots) ∧
    (∀ w r s₁ s₂, step numWriter numReader s (.flushWriter w) = some s₁ →
      step numWriter numReader s₁ (.read r) = some s₂ → s₂.readerHeld r = s₁.readerHeld r →
      s₂.received r w = s.written w r) := by
  have hs := Inv.reachable (Mesh.started_of_start hstart) hpos hreach
  refine ⟨?_, ?_, ?_, hs.written_eq, ?_⟩
  · intro w hw i hi
    exact hs.existsUnique_place (mem_allSlots_iff.mpr ⟨w, hw, i, hi, rfl⟩)
  · intro place
    refine ⟨hs.nodup_slotsAt place, fun addr haddr => ?_⟩
    obtain ⟨w, hw, i, hi, rfl⟩ := mem_allSlots_iff.mp (hs.mem_allSlots haddr)
    refine ⟨⟨w, hw⟩, i, hi, rfl, ?_⟩
    have hadmits := hs.admits place _ haddr
    cases place with
    | free w' r =>
        obtain ⟨j, hj⟩ := hadmits
        exact .inr (.inr ⟨r, .inl (by simp [(SlotAddr.slot.inj hj).1])⟩)
    | writer w' =>
        obtain ⟨j, hj⟩ := hadmits
        exact .inr (.inl (by simp [(SlotAddr.slot.inj hj).1]))
    | transit w' r =>
        obtain ⟨⟨j, hj⟩, -⟩ := hadmits
        exact .inr (.inr ⟨r, .inr (by simp [(SlotAddr.slot.inj hj).1])⟩)
    | reader r => exact .inl ⟨r, rfl⟩
  · intro w r addr s₁ calls s₂ hstep hrun hack
    obtain ⟨hs₁, hslots, w', r', hmoved⟩ := hs.write hstep
    have hflight : s₁.InFlight numWriter numReader addr :=
      ⟨.transit w' r', nofun, nofun, hmoved.mem_target⟩
    rw [← hslots]
    exact hs₁.inFlight_run hflight hack hrun
  · intro w r s₁ s₂ hflush hread hheld
    simp only [step] at hflush
    split_ifs at hflush with hw
    obtain rfl := Option.some.inj hflush
    have hs₁ := (hs.flush (.writer w)).1
    rcases step_read_cases hread with ⟨hr, ⟨hnone, rfl⟩ | ⟨addr, haddr, rfl⟩⟩
    · have hempty := (hs₁.read_none hr hnone).2.2 w hw
      rw [hs.visible_flushWriter hw hr, List.length_eq_zero_iff] at hempty
      rw [hs.written_eq w hw r hr, hempty]
      simp
    · simp at hheld

/-- A writer sends two messages to the second of two readers, which reads both and acknowledges
the first one. -/
def twoMessages : List (Call ℕ) :=
  [.getSlot 0, .getSlot 0, .fill 0 (.slot 0 0) ⟨.normal, 1, 7, 0, 5⟩, .write 0 1 (.slot 0 0),
    .fill 0 (.slot 0 1) ⟨.normal, 2, 7, 0, 6⟩, .write 0 1 (.slot 0 1), .flushWriter 0, .read 1,
    .ack 1 (.slot 0 0), .read 1]

/-- Both have arrived, nothing else is on its way, and the first slot is in one place again. -/
theorem slots_exclusive_and_delivery_exact_two_messages :
    ∃ m s, Mesh.start (T := ℕ) ⟨.normal, 0, 0, 0, 0⟩ 0 1 2 = some m ∧
      (machine 1 2 m).runFrom (machine 1 2 m).init twoMessages = some s ∧
      s.received 1 0 = [⟨.normal, 1, 0, 0, 5⟩, ⟨.normal, 2, 0, 0, 6⟩] ∧
      s.written 0 1 = [⟨.normal, 1, 0, 0, 5⟩, ⟨.normal, 2, 0, 0, 6⟩] ++
        (s.inTransit 0 1).map s.mesh.slots ∧
      ∃! place : Place 1 2, .slot 0 0 ∈ s.slotsAt place := by
  have hrun : ((Mesh.start (T := ℕ) ⟨.normal, 0, 0, 0, 0⟩ 0 1 2).bind fun m =>
      ((machine 1 2 m).runFrom (machine 1 2 m).init twoMessages).map fun s => s.received 1 0) =
        some [⟨.normal, 1, 0, 0, 5⟩, ⟨.normal, 2, 0, 0, 6⟩] := by
    rw [Mesh.start_eq_filled]
    decide +kernel
  obtain ⟨m, hstart, hmapped⟩ := Option.bind_eq_some_iff.mp hrun
  obtain ⟨s, hs, hreceived⟩ := Option.map_eq_some_iff.mp hmapped
  have hexact := slots_exclusive_and_delivery_exact _ _ (by decide) hstart ⟨twoMessages, hs⟩
  refine ⟨m, s, hstart, hs, hreceived, ?_, hexact.1 0 (by decide) 0 (by decide)⟩
  rw [← hreceived]
  exact hexact.2.2.2.1 0 (by decide) 1 (by decide)

end Channel

end AFStream.Queues

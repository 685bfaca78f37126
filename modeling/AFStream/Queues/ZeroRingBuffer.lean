/-
# The single-producer single-consumer ring

`ZeroRingBuffer` keeps eight indices: the two shared ones, one private cached
copy on each side, the private next position of each side and the two batch
counters. Publication is batched, so what one side sees lags behind what the
other has done. The module models every call as the source performs it, gives
each call one lemma about the unacknowledged contents of the ring, and then runs
a producer and a consumer against each other in every order.

The order of the indices is kept as a chain of distances from the producer's
cached read index; the batch counters play no part in it, which is why `Flush`
may leave them alone.
-/

import AFStream.Foundation.CircularIndex
import AFStream.Foundation.Machine

namespace AFStream.Queues

open AFStream.Foundation

universe u

/-- `RB_SIZE` -/
def rbSize : ℕ := 2000

/-- `RB_BATCH` -/
def rbBatch : ℕ := 50

/-- The fields of the ring that a modelled call reads or writes; padding and the
unused `blockOnEmpty` are left out. -/
structure ZeroRingBuffer (T : Type u) where
  readIndex : ℕ
  writeIndex : ℕ
  localWriteIndex : ℕ
  nextReadIndex : ℕ
  rBatchCount : ℕ
  localReadIndex : ℕ
  nextWriteIndex : ℕ
  afterNextWriteIndex : ℕ
  wBatchCount : ℕ
  max : ℕ
  batchSize : ℕ
  buffer : ℕ → T

namespace ZeroRingBuffer

variable {T : Type u}

/-- The constructor, with capacity and batch size left open. It clears the cells
and every index except `afterNextWriteIndex`, which keeps whatever the memory
held. -/
def create (max batchSize : ℕ) (zero : T) (uninit : ℕ) : ZeroRingBuffer T where
  readIndex := 0
  writeIndex := 0
  localWriteIndex := 0
  nextReadIndex := 0
  rBatchCount := 0
  localReadIndex := 0
  nextWriteIndex := 0
  afterNextWriteIndex := uninit
  wBatchCount := 0
  max := max
  batchSize := batchSize
  buffer := fun _ => zero

variable (q : ZeroRingBuffer T)

/-- `nextVal` -/
def nextVal (x : ℕ) : ℕ := if x + 1 ≥ q.max then 0 else x + 1

/-- The opening of `Insert` and of `GetSlot`. The result is `none` when the call
would spin: the next position is the published read index. -/
def reserve : Option (ZeroRingBuffer T) :=
  let q := { q with afterNextWriteIndex := q.nextVal q.nextWriteIndex }
  if q.afterNextWriteIndex = q.localReadIndex then
    if q.afterNextWriteIndex = q.readIndex then none
    else some { q with localReadIndex := q.readIndex }
  else some q

/-- `GetSlot`: the ring and the cell handed to the producer. -/
def getSlot : Option (ZeroRingBuffer T × ℕ) :=
  q.reserve.map fun q => (q, q.nextWriteIndex)

/-- Store through the pointer that `GetSlot` returned. -/
def fill (cell : ℕ) (data : T) : ZeroRingBuffer T :=
  { q with buffer := Function.update q.buffer cell data }

/-- `CompleteWrite` -/
def completeWrite : ZeroRingBuffer T :=
  let q := { q with
    nextWriteIndex := q.afterNextWriteIndex
    wBatchCount := q.wBatchCount + 1 }
  if q.wBatchCount ≥ q.batchSize then
    { q with writeIndex := q.nextWriteIndex, wBatchCount := 0 }
  else q

/-- `Insert` -/
def insert (data : T) : Option (ZeroRingBuffer T) :=
  q.reserve.map fun q => (q.fill q.nextWriteIndex data).completeWrite

/-- `Extract`: the ring and the address returned, `none` standing for `NULL`. -/
def extract : ZeroRingBuffer T × Option ℕ :=
  if q.nextReadIndex = q.localWriteIndex then
    if q.nextReadIndex = q.writeIndex then (q, none)
    else ({ q with localWriteIndex := q.writeIndex }, some q.nextReadIndex)
  else (q, some q.nextReadIndex)

/-- `Ack` -/
def ack : ZeroRingBuffer T :=
  let q := { q with
    nextReadIndex := q.nextVal q.nextReadIndex
    rBatchCount := q.rBatchCount + 1 }
  if q.rBatchCount ≥ q.batchSize then
    { q with readIndex := q.nextReadIndex, rBatchCount := 0 }
  else q

/-- `Flush` -/
def flush : ZeroRingBuffer T :=
  { q with writeIndex := q.nextWriteIndex, readIndex := q.nextReadIndex }

/-! ## The contents of a ring -/

/-- Steps from one index of the ring to another. -/
def gap (i j : ℕ) : ℕ := Circular.dist q.max i j

/-- The cell of the `k`-th unacknowledged value. -/
def cell (k : ℕ) : ℕ := Circular.shift q.max q.nextReadIndex k

/-- How many inserted values are not yet acknowledged. -/
def pending : ℕ := q.gap q.nextReadIndex q.nextWriteIndex

/-- How many of them the consumer can already see through `writeIndex`. -/
def visible : ℕ := q.gap q.nextReadIndex q.writeIndex

/-- Acknowledged cells that the producer cannot see yet through `readIndex`. -/
def unreleased : ℕ := q.gap q.readIndex q.nextReadIndex

/-- The inserted and not yet acknowledged values, oldest first. -/
def contents : List T := (List.range q.pending).map fun k => q.buffer (q.cell k)

/-- Joint order of the indices: starting at the producer's cached read index one
meets the published read index, the consumer's position, its cached write index,
the published write index and the producer's position, in this order and within
one turn. -/
structure WellFormed : Prop where
  two_le_max : 2 ≤ q.max
  localRead_lt : q.localReadIndex < q.max
  read_lt : q.readIndex < q.max
  nextRead_lt : q.nextReadIndex < q.max
  localWrite_lt : q.localWriteIndex < q.max
  write_lt : q.writeIndex < q.max
  nextWrite_lt : q.nextWriteIndex < q.max
  read_le : q.gap q.localReadIndex q.readIndex ≤ q.gap q.localReadIndex q.nextReadIndex
  nextRead_le :
    q.gap q.localReadIndex q.nextReadIndex ≤ q.gap q.localReadIndex q.localWriteIndex
  localWrite_le :
    q.gap q.localReadIndex q.localWriteIndex ≤ q.gap q.localReadIndex q.writeIndex
  write_le : q.gap q.localReadIndex q.writeIndex ≤ q.gap q.localReadIndex q.nextWriteIndex

theorem nextVal_eq_advance (x : ℕ) : q.nextVal x = Circular.advance q.max x := rfl

theorem create_wellFormed {max : ℕ} (hmax : 2 ≤ max) (batchSize : ℕ) (zero : T) (uninit : ℕ) :
    (create max batchSize zero uninit).WellFormed := by
  have hpos : 0 < max := by omega
  constructor <;> simp [create, hmax, hpos]

@[simp]
theorem create_contents (max batchSize : ℕ) (zero : T) (uninit : ℕ) :
    (create max batchSize zero uninit).contents = [] := by
  simp [create, contents, pending, gap]

@[simp]
theorem length_contents : q.contents.length = q.pending := by simp [contents]

variable {q}

namespace WellFormed

variable (hq : q.WellFormed)
include hq

/-- Distances from the consumer's position, in terms of the common base. -/
theorem gap_nextRead {i : ℕ} (hi : i < q.max)
    (hle : q.gap q.localReadIndex q.nextReadIndex ≤ q.gap q.localReadIndex i) :
    q.gap q.nextReadIndex i =
      q.gap q.localReadIndex i - q.gap q.localReadIndex q.nextReadIndex :=
  Circular.dist_rebase hq.localRead_lt hq.nextRead_lt hi hle

theorem nextRead_le_write :
    q.gap q.localReadIndex q.nextReadIndex ≤ q.gap q.localReadIndex q.writeIndex :=
  hq.nextRead_le.trans hq.localWrite_le

theorem nextRead_le_nextWrite :
    q.gap q.localReadIndex q.nextReadIndex ≤ q.gap q.localReadIndex q.nextWriteIndex :=
  hq.nextRead_le_write.trans hq.write_le

theorem pending_eq :
    q.pending =
      q.gap q.localReadIndex q.nextWriteIndex - q.gap q.localReadIndex q.nextReadIndex :=
  hq.gap_nextRead hq.nextWrite_lt hq.nextRead_le_nextWrite

theorem visible_eq :
    q.visible =
      q.gap q.localReadIndex q.writeIndex - q.gap q.localReadIndex q.nextReadIndex :=
  hq.gap_nextRead hq.write_lt hq.nextRead_le_write

theorem unreleased_eq :
    q.unreleased =
      q.gap q.localReadIndex q.nextReadIndex - q.gap q.localReadIndex q.readIndex :=
  Circular.dist_rebase hq.localRead_lt hq.read_lt hq.nextRead_lt hq.read_le

theorem pending_lt_max : q.pending < q.max :=
  Circular.dist_lt hq.nextRead_lt hq.nextWrite_lt

/-- One cell always stays free, counting the cells not yet released. -/
theorem pending_add_unreleased_lt_max : q.pending + q.unreleased < q.max := by
  have hbound : q.gap q.localReadIndex q.nextWriteIndex < q.max :=
    Circular.dist_lt hq.localRead_lt hq.nextWrite_lt
  have hpending := hq.pending_eq
  have hunreleased := hq.unreleased_eq
  have hread := hq.read_le
  have hwrite := hq.nextRead_le_nextWrite
  omega

/-- The producer's position is the cell after the last pending value. -/
theorem cell_pending : q.cell q.pending = q.nextWriteIndex :=
  Circular.shift_dist hq.nextRead_lt hq.nextWrite_lt

/-- The producer's position is none of the pending cells. -/
theorem cell_ne_nextWrite {k : ℕ} (hk : k < q.pending) : q.cell k ≠ q.nextWriteIndex := by
  rw [← hq.cell_pending]
  exact Circular.shift_ne hq.nextRead_lt (hk.trans hq.pending_lt_max) hq.pending_lt_max
    (Nat.ne_of_lt hk)

/-- A producer that may step forward does not stand right behind the consumer's position. -/
theorem nextVal_nextWrite_ne (hroom : q.nextVal q.nextWriteIndex ≠ q.localReadIndex) :
    q.nextVal q.nextWriteIndex ≠ q.nextReadIndex := by
  intro hsame
  have hdist := Circular.dist_advance hq.localRead_lt hq.nextWrite_lt hroom
  have hle := hq.nextRead_le_nextWrite
  rw [← hsame] at hle
  simp only [gap, nextVal_eq_advance] at hle
  omega

/-- Writing at the producer's position leaves the contents alone. -/
theorem contents_fill (data : T) : (q.fill q.nextWriteIndex data).contents = q.contents := by
  simp only [contents]
  refine List.map_congr_left fun k hk => ?_
  exact Function.update_of_ne (hq.cell_ne_nextWrite (List.mem_range.mp hk)) _ _

end WellFormed

/-- The consumer's oldest value. -/
theorem contents_eq_cons (hpos : 0 < q.pending) :
    q.contents = q.buffer (q.cell 0) :: ((List.range (q.pending - 1)).map
      fun k => q.buffer (q.cell (k + 1))) := by
  obtain ⟨n, hn⟩ : ∃ n, q.pending = n + 1 := ⟨q.pending - 1, by omega⟩
  simp [contents, hn, List.range_succ_eq_map, Function.comp_def]

/-! ## What each call does to the contents -/

/-- Everything `reserve` can change, and what it establishes. -/
structure Reserved (q q' : ZeroRingBuffer T) : Prop where
  wellFormed : q'.WellFormed
  after_eq : q'.afterNextWriteIndex = q'.nextVal q'.nextWriteIndex
  after_ne : q'.afterNextWriteIndex ≠ q'.localReadIndex
  contents_eq : q'.contents = q.contents
  visible_eq : q'.visible = q.visible
  same : q' = { q with
    localReadIndex := q'.localReadIndex
    afterNextWriteIndex := q'.afterNextWriteIndex }

/-- The two ways `reserve` succeeds: the cached read index already leaves room,
or the published one does and replaces it. -/
theorem reserve_cases {q' : ZeroRingBuffer T} (hres : q.reserve = some q') :
    (q.nextVal q.nextWriteIndex ≠ q.localReadIndex ∧
      q' = { q with afterNextWriteIndex := q.nextVal q.nextWriteIndex }) ∨
    (q.nextVal q.nextWriteIndex = q.localReadIndex ∧
      q.nextVal q.nextWriteIndex ≠ q.readIndex ∧
      q' = { q with
        afterNextWriteIndex := q.nextVal q.nextWriteIndex
        localReadIndex := q.readIndex }) := by
  simp only [reserve] at hres
  split_ifs at hres with hcached hpublished
  · exact .inr ⟨hcached, hpublished, (Option.some.inj hres).symm⟩
  · exact .inl ⟨hcached, (Option.some.inj hres).symm⟩

theorem WellFormed.reserve (hq : q.WellFormed) {q' : ZeroRingBuffer T}
    (hres : q.reserve = some q') : Reserved q q' := by
  obtain ⟨hne, rfl⟩ | ⟨_, hne, rfl⟩ := reserve_cases hres
  · exact ⟨⟨hq.1, hq.2, hq.3, hq.4, hq.5, hq.6, hq.7, hq.8, hq.9, hq.10, hq.11⟩,
      rfl, hne, rfl, rfl, rfl⟩
  · -- moving the cached index forwards to the published one rebases the chain
    have rebase {i : ℕ} (hi : i < q.max)
        (hle : q.gap q.localReadIndex q.readIndex ≤ q.gap q.localReadIndex i) :
        q.gap q.readIndex i =
          q.gap q.localReadIndex i - q.gap q.localReadIndex q.readIndex :=
      Circular.dist_rebase hq.localRead_lt hq.read_lt hi hle
    have hnext := rebase hq.nextRead_lt hq.read_le
    have hlocal := rebase hq.localWrite_lt (hq.read_le.trans hq.nextRead_le)
    have hwrite := rebase hq.write_lt (hq.read_le.trans hq.nextRead_le_write)
    have hnextWrite := rebase hq.nextWrite_lt (hq.read_le.trans hq.nextRead_le_nextWrite)
    refine ⟨⟨hq.1, hq.read_lt, hq.3, hq.4, hq.5, hq.6, hq.7, ?_, ?_, ?_, ?_⟩,
      rfl, hne, rfl, rfl, rfl⟩
    · change q.gap q.readIndex q.readIndex ≤ q.gap q.readIndex q.nextReadIndex
      simp [gap]
    · change q.gap q.readIndex q.nextReadIndex ≤ q.gap q.readIndex q.localWriteIndex
      rw [hnext, hlocal]
      exact Nat.sub_le_sub_right hq.nextRead_le _
    · change q.gap q.readIndex q.localWriteIndex ≤ q.gap q.readIndex q.writeIndex
      rw [hlocal, hwrite]
      exact Nat.sub_le_sub_right hq.localWrite_le _
    · change q.gap q.readIndex q.writeIndex ≤ q.gap q.readIndex q.nextWriteIndex
      rw [hwrite, hnextWrite]
      exact Nat.sub_le_sub_right hq.write_le _

/-- A producer call spins exactly when every cell but one is pending or not yet
released. -/
theorem WellFormed.reserve_eq_none_iff (hq : q.WellFormed) :
    q.reserve = none ↔ q.pending + q.unreleased + 1 = q.max := by
  have hpending := hq.pending_eq
  have hunreleased := hq.unreleased_eq
  have hread := hq.read_le
  have hwrite := hq.nextRead_le_nextWrite
  have hbound : q.gap q.localReadIndex q.nextWriteIndex < q.max :=
    Circular.dist_lt hq.localRead_lt hq.nextWrite_lt
  by_cases hcached : q.nextVal q.nextWriteIndex = q.localReadIndex
  · have hfull : q.gap q.localReadIndex q.nextWriteIndex + 1 = q.max :=
      Circular.dist_of_advance_eq hq.nextWrite_lt hcached
    have hzero : q.gap q.localReadIndex q.readIndex = 0 ↔ q.localReadIndex = q.readIndex :=
      Circular.dist_eq_zero_iff hq.localRead_lt
    by_cases hpublished : q.localReadIndex = q.readIndex
    · have hnone : q.reserve = none := by simp [ZeroRingBuffer.reserve, hcached, ← hpublished]
      have hgap := hzero.mpr hpublished
      simp only [hnone, true_iff]
      omega
    · have hsome : q.reserve ≠ none := by simp [ZeroRingBuffer.reserve, hcached, hpublished]
      have hgap := mt hzero.mp hpublished
      simp only [hsome, false_iff]
      omega
  · have hsome : q.reserve ≠ none := by simp [ZeroRingBuffer.reserve, hcached]
    have hstep : q.gap q.localReadIndex (q.nextVal q.nextWriteIndex) =
        q.gap q.localReadIndex q.nextWriteIndex + 1 :=
      Circular.dist_advance hq.localRead_lt hq.nextWrite_lt hcached
    have hlt : q.gap q.localReadIndex (q.nextVal q.nextWriteIndex) < q.max :=
      Circular.dist_lt hq.localRead_lt (Circular.advance_lt hq.nextWrite_lt)
    simp only [hsome, false_iff]
    omega

/-- What a completed producer call does: one value is appended, the consumer's
fields are untouched and no pending cell is written. -/
structure Inserted (q : ZeroRingBuffer T) (data : T) (q' : ZeroRingBuffer T) : Prop where
  wellFormed : q'.WellFormed
  contents_eq : q'.contents = q.contents ++ [data]
  visible_eq : q'.visible = if q'.wBatchCount = 0 then q.pending + 1 else q.visible
  max_eq : q'.max = q.max
  read_eq : q'.readIndex = q.readIndex
  nextRead_eq : q'.nextReadIndex = q.nextReadIndex
  localWrite_eq : q'.localWriteIndex = q.localWriteIndex
  buffer_eq : ∀ i, i ≠ q.nextWriteIndex → q'.buffer i = q.buffer i

/-- `CompleteWrite` resets the batch counter exactly when it assigns the write
index. -/
theorem wBatchCount_completeWrite_eq_zero_iff :
    q.completeWrite.wBatchCount = 0 ↔ q.wBatchCount + 1 ≥ q.batchSize := by
  simp only [completeWrite]
  split_ifs with hbatch
  · simpa using hbatch
  · simpa using hbatch

/-- `CompleteWrite` after a reservation appends the value at the producer's
position. -/
theorem WellFormed.completeWrite (hq : q.WellFormed)
    (hafter : q.afterNextWriteIndex = q.nextVal q.nextWriteIndex)
    (hroom : q.afterNextWriteIndex ≠ q.localReadIndex) :
    Inserted q (q.buffer q.nextWriteIndex) q.completeWrite := by
  have hlt : q.nextVal q.nextWriteIndex < q.max := Circular.advance_lt hq.nextWrite_lt
  have hstep : q.gap q.localReadIndex (q.nextVal q.nextWriteIndex) =
      q.gap q.localReadIndex q.nextWriteIndex + 1 :=
    Circular.dist_advance hq.localRead_lt hq.nextWrite_lt fun heq => hroom (hafter.trans heq)
  have hgrow : q.gap q.nextReadIndex (q.nextVal q.nextWriteIndex) = q.pending + 1 := by
    have hle := hq.nextRead_le_nextWrite
    rw [hq.gap_nextRead hlt (by omega), hstep, hq.pending_eq]
    omega
  have hcontents : (List.range (q.gap q.nextReadIndex (q.nextVal q.nextWriteIndex))).map
      (fun k => q.buffer (q.cell k)) = q.contents ++ [q.buffer q.nextWriteIndex] := by
    rw [hgrow]
    simp [contents, List.range_succ, hq.cell_pending]
  have hwrite := hq.write_le
  have hlocal := hq.localWrite_le
  have hreset := q.wBatchCount_completeWrite_eq_zero_iff
  simp only [ZeroRingBuffer.completeWrite, hafter] at hreset ⊢
  split_ifs at hreset ⊢ with hbatch
  · refine ⟨⟨hq.1, hq.2, hq.3, hq.4, hq.5, hlt, hlt, hq.8, hq.9, ?_, le_rfl⟩,
      hcontents, hgrow, rfl, rfl, rfl, rfl, fun _ _ => rfl⟩
    change q.gap q.localReadIndex q.localWriteIndex ≤
      q.gap q.localReadIndex (q.nextVal q.nextWriteIndex)
    omega
  · refine ⟨⟨hq.1, hq.2, hq.3, hq.4, hq.5, hq.6, hlt, hq.8, hq.9, hq.10, ?_⟩,
      hcontents, ?_, rfl, rfl, rfl, rfl, fun _ _ => rfl⟩
    · change q.gap q.localReadIndex q.writeIndex ≤
        q.gap q.localReadIndex (q.nextVal q.nextWriteIndex)
      omega
    · simp only [Nat.add_eq_zero_iff, one_ne_zero, and_false, if_false]
      rfl

/-- `Insert` appends its argument. -/
theorem WellFormed.insert (hq : q.WellFormed) {data : T} {q' : ZeroRingBuffer T}
    (hins : q.insert data = some q') : Inserted q data q' := by
  obtain ⟨p, hres, rfl⟩ := Option.map_eq_some_iff.mp hins
  obtain ⟨hp, hafter, hroom, hcontents, hvisible, hsame⟩ := hq.reserve hres
  have hpending : p.pending = q.pending := by
    rw [← length_contents, hcontents, length_contents]
  have hfill : (p.fill p.nextWriteIndex data).WellFormed :=
    ⟨hp.1, hp.2, hp.3, hp.4, hp.5, hp.6, hp.7, hp.8, hp.9, hp.10, hp.11⟩
  obtain ⟨hwf, happend, hvis, hmax, hread, hnext, hlocal, hbuffer⟩ :=
    hfill.completeWrite hafter hroom
  refine ⟨hwf, ?_, ?_, hmax.trans ?_, hread.trans ?_, hnext.trans ?_, hlocal.trans ?_, ?_⟩
  · rw [happend, hp.contents_fill, hcontents]
    simp [fill]
  · rw [hvis, ← hpending, ← hvisible]
    rfl
  · rw [hsame]; rfl
  · rw [hsame]; rfl
  · rw [hsame]; rfl
  · rw [hsame]; rfl
  · intro i hi
    have hindex : p.nextWriteIndex = q.nextWriteIndex := by rw [hsame]
    have hsameBuffer : p.buffer = q.buffer := by rw [hsame]
    rw [hbuffer i (by simpa [fill, hindex] using hi), ← hsameBuffer]
    exact Function.update_of_ne (by simpa [hindex] using hi) _ _

/-- `Insert` spins exactly when the producer sees no free cell. -/
theorem WellFormed.insert_eq_none_iff (hq : q.WellFormed) (data : T) :
    q.insert data = none ↔ q.pending + q.unreleased + 1 = q.max := by
  rw [← hq.reserve_eq_none_iff]
  simp [ZeroRingBuffer.insert]

/-- `Extract` answers `NULL` exactly when nothing published is unacknowledged, and
then changes nothing. -/
theorem WellFormed.extract_eq_none_iff (hq : q.WellFormed) :
    q.extract.2 = none ↔ q.visible = 0 := by
  have hvisible : q.visible = 0 ↔ q.nextReadIndex = q.writeIndex :=
    Circular.dist_eq_zero_iff hq.nextRead_lt
  have hcached : q.gap q.nextReadIndex q.localWriteIndex =
      q.gap q.localReadIndex q.localWriteIndex - q.gap q.localReadIndex q.nextReadIndex :=
    hq.gap_nextRead hq.localWrite_lt hq.nextRead_le
  have hzero : q.gap q.nextReadIndex q.localWriteIndex = 0 ↔
      q.nextReadIndex = q.localWriteIndex :=
    Circular.dist_eq_zero_iff hq.nextRead_lt
  have hle := hq.localWrite_le
  have heq := hq.visible_eq
  simp only [extract]
  split_ifs with hlocal hwrite
  · simpa [hwrite] using hvisible
  · simpa using fun h => hwrite (hvisible.mp h)
  · have hpos : q.gap q.nextReadIndex q.localWriteIndex ≠ 0 := mt hzero.mp hlocal
    simp only [false_iff]
    omega

theorem extract_of_none (hnone : q.extract.2 = none) : q.extract.1 = q := by
  simp only [extract] at hnone ⊢
  split_ifs at hnone ⊢
  rfl

/-- After a successful `Extract` the consumer knows that its position holds a
published value. -/
theorem extract_seen {addr : ℕ} (hsome : q.extract.2 = some addr) :
    q.extract.1.nextReadIndex ≠ q.extract.1.localWriteIndex := by
  simp only [extract] at hsome ⊢
  split_ifs at hsome ⊢ with hcached hpublished
  · exact hpublished
  · exact hcached

/-- A successful `Extract` points at the oldest unacknowledged value and may only
refresh the cached write index. -/
theorem WellFormed.extract (hq : q.WellFormed) {addr : ℕ} (hsome : q.extract.2 = some addr) :
    addr = q.nextReadIndex ∧ q.extract.1.WellFormed ∧
      q.extract.1.contents = q.contents ∧ q.extract.1.visible = q.visible ∧
      q.extract.1 = { q with localWriteIndex := q.extract.1.localWriteIndex } := by
  simp only [ZeroRingBuffer.extract] at hsome ⊢
  split_ifs at hsome ⊢
  · exact ⟨(Option.some.inj hsome).symm,
      ⟨hq.1, hq.2, hq.3, hq.4, hq.6, hq.6, hq.7, hq.8, hq.nextRead_le_write, le_rfl, hq.11⟩,
      rfl, rfl, rfl⟩
  · exact ⟨(Option.some.inj hsome).symm, hq, rfl, rfl, rfl⟩

/-- What `Ack` does: the oldest value leaves the contents, the producer's fields and
the cells are untouched. -/
structure Acked (q q' : ZeroRingBuffer T) : Prop where
  wellFormed : q'.WellFormed
  contents_eq : q.contents = q.buffer q.nextReadIndex :: q'.contents
  visible_eq : q.visible = q'.visible + 1
  max_eq : q'.max = q.max
  nextWrite_eq : q'.nextWriteIndex = q.nextWriteIndex
  afterNextWrite_eq : q'.afterNextWriteIndex = q.afterNextWriteIndex
  localRead_eq : q'.localReadIndex = q.localReadIndex
  buffer_eq : q'.buffer = q.buffer

/-- `Ack` drops the oldest value, provided the consumer has seen that there is
one. -/
theorem WellFormed.ack (hq : q.WellFormed) (hseen : q.nextReadIndex ≠ q.localWriteIndex) :
    Acked q q.ack := by
  have hlt : q.nextVal q.nextReadIndex < q.max := Circular.advance_lt hq.nextRead_lt
  have hseen' : q.gap q.nextReadIndex q.localWriteIndex ≠ 0 :=
    mt (Circular.dist_eq_zero_iff hq.nextRead_lt).mp hseen
  have hcached := hq.gap_nextRead hq.localWrite_lt hq.nextRead_le
  have hlocal := hq.localWrite_le
  have hwrite := hq.write_le
  have hread := hq.read_le
  have hbound : q.gap q.localReadIndex q.nextWriteIndex < q.max :=
    Circular.dist_lt hq.localRead_lt hq.nextWrite_lt
  -- the consumer's new position is one step further from the common base
  have hstep : q.gap q.localReadIndex (q.nextVal q.nextReadIndex) =
      q.gap q.localReadIndex q.nextReadIndex + 1 := by
    refine Circular.dist_advance hq.localRead_lt hq.nextRead_lt fun heq => ?_
    have hfull : q.gap q.localReadIndex q.nextReadIndex + 1 = q.max :=
      Circular.dist_of_advance_eq hq.nextRead_lt heq
    omega
  have hpendingPos : q.pending ≠ 0 := by
    rw [hq.pending_eq]
    omega
  have hpending : q.gap (q.nextVal q.nextReadIndex) q.nextWriteIndex + 1 = q.pending :=
    Circular.dist_advance_left hq.nextRead_lt hq.nextWrite_lt fun heq =>
      hpendingPos ((Circular.dist_eq_zero_iff hq.nextRead_lt).mpr heq)
  have hvisiblePos : q.visible ≠ 0 := by
    rw [hq.visible_eq]
    omega
  have hvisible : q.gap (q.nextVal q.nextReadIndex) q.writeIndex + 1 = q.visible :=
    Circular.dist_advance_left hq.nextRead_lt hq.write_lt fun heq =>
      hvisiblePos ((Circular.dist_eq_zero_iff hq.nextRead_lt).mpr heq)
  have hmax := hq.pending_lt_max
  have hcontents : q.contents = q.buffer q.nextReadIndex ::
      (List.range (q.gap (q.nextVal q.nextReadIndex) q.nextWriteIndex)).map
        fun k => q.buffer (Circular.shift q.max (q.nextVal q.nextReadIndex) k) := by
    rw [contents_eq_cons (by omega), show q.cell 0 = q.nextReadIndex from
      Circular.shift_zero hq.nextRead_lt, show q.pending - 1 =
      q.gap (q.nextVal q.nextReadIndex) q.nextWriteIndex by omega]
    congr 1
    refine List.map_congr_left fun k hk => ?_
    rw [nextVal_eq_advance, Circular.shift_advance hq.nextRead_lt
      (by have := List.mem_range.mp hk; omega)]
    rfl
  have hreadStep : q.gap q.localReadIndex q.readIndex ≤
      q.gap q.localReadIndex (q.nextVal q.nextReadIndex) := by omega
  have hlocalStep : q.gap q.localReadIndex (q.nextVal q.nextReadIndex) ≤
      q.gap q.localReadIndex q.localWriteIndex := by omega
  simp only [ZeroRingBuffer.ack]
  split_ifs
  · exact ⟨⟨hq.1, hq.2, hlt, hlt, hq.5, hq.6, hq.7, le_rfl, hlocalStep, hq.10, hq.11⟩,
      hcontents, hvisible.symm, rfl, rfl, rfl, rfl, rfl⟩
  · exact ⟨⟨hq.1, hq.2, hq.3, hlt, hq.5, hq.6, hq.7, hreadStep, hlocalStep, hq.10, hq.11⟩,
      hcontents, hvisible.symm, rfl, rfl, rfl, rfl, rfl⟩

/-- `Extract` followed by `Ack`, when a value is visible. -/
theorem WellFormed.extract_ack (hq : q.WellFormed) (hvisible : 0 < q.visible) :
    Acked q q.extract.1.ack := by
  obtain ⟨addr, haddr⟩ : ∃ addr, q.extract.2 = some addr := by
    rw [← Option.isSome_iff_exists, Option.isSome_iff_ne_none, Ne, hq.extract_eq_none_iff]
    omega
  obtain ⟨-, hwf, hcontents, hsameVisible, hsame⟩ := hq.extract haddr
  have hack := hwf.ack (extract_seen haddr)
  have hbuffer : q.extract.1.buffer = q.buffer := by rw [hsame]
  have hindex : q.extract.1.nextReadIndex = q.nextReadIndex := by rw [hsame]
  refine ⟨hack.wellFormed, ?_, ?_, hack.max_eq.trans ?_, hack.nextWrite_eq.trans ?_,
    hack.afterNextWrite_eq.trans ?_, hack.localRead_eq.trans ?_, hack.buffer_eq.trans hbuffer⟩
  · rw [← hcontents, ← hbuffer, ← hindex]
    exact hack.contents_eq
  · rw [← hsameVisible]
    exact hack.visible_eq
  · rw [hsame]
  · rw [hsame]
  · rw [hsame]
  · rw [hsame]

/-- The unreleased cells do not depend on the producer. -/
theorem Inserted.unreleased_eq {data : T} {q' : ZeroRingBuffer T} (hins : Inserted q data q') :
    q'.unreleased = q.unreleased := by
  simp only [unreleased, gap, hins.max_eq, hins.read_eq, hins.nextRead_eq]

theorem Inserted.pending_eq {data : T} {q' : ZeroRingBuffer T} (hins : Inserted q data q') :
    q'.pending = q.pending + 1 := by
  rw [← length_contents, hins.contents_eq]
  simp

/-- `Flush` publishes both positions: everything pending becomes visible and every
acknowledged cell is released. -/
theorem WellFormed.flush (hq : q.WellFormed) :
    q.flush.WellFormed ∧ q.flush.contents = q.contents ∧ q.flush.visible = q.pending ∧
      q.flush.unreleased = 0 :=
  ⟨⟨hq.1, hq.2, hq.4, hq.4, hq.5, hq.7, hq.7, le_rfl, hq.9,
      hq.localWrite_le.trans hq.write_le, le_rfl⟩,
    rfl, rfl, Circular.dist_self _ _⟩

end ZeroRingBuffer

end AFStream.Queues

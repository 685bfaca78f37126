/-
# Replaying a backup

`AdapterRecovery` loads a backup, one file with length-prefixed records and one with their
sequence numbers, and replays the records from the last gap in the sequence numbers on. `Init`
finds the gap in one file and walks as many records of the other; `ReadRecord` goes on from
there and stops when it is exactly at the end of the data. Sizes go through 32-bit types on the
way. The module follows the two loops over any pair of files and determines when they deliver
the right records and when they stay inside of the data.
-/

import AFStream.Thread.Adapter

namespace AFStream.FaultTolerance

open AFStream.Foundation AFStream.Thread

/-- `BLK_SIZE` -/
def blkSize : UInt32 := 4096

/-- `align` -/
def align (origSize blkSize : UInt32) : UInt32 :=
  if origSize % blkSize = 0 then origSize else blkSize * (origSize / blkSize + 1)

/-- The conversion to `int`. -/
def int32 (x : ℤ) : ℤ := (x + 2 ^ 31) % 2 ^ 32 - 2 ^ 31

/-- The conversion to `size_t`. -/
def sizeT (x : ℤ) : ℕ := (x % 2 ^ 64).toNat

/-- The conversion to `uint32_t`. -/
def uint32 (x : ℤ) : UInt32 := UInt32.ofNat (x % 2 ^ 32).toNat

/-- `int seq_size`, for a file of this length. -/
def seqSize (length : ℕ) : ℤ := int32 length

/-- The two files of a backup, and how many bytes of each `fread` delivers: at most what it is
asked for and what is there. -/
structure Backup where
  data : List UInt8
  seq : List UInt8
  dataRead : ℕ
  seqRead : ℕ
  dataRead_le : dataRead ≤ data.length
  seqRead_le : seqRead ≤ min (sizeT (seqSize seq.length)) seq.length

/-- `AdapterRecovery`: the block at `data_buf_`, `data_size_` and `ptr_`. -/
structure AdapterRecovery where
  dataBuf : List UInt8
  dataSize : ℕ
  ptr : ℕ

/-- What becomes of `Init`. -/
inductive InitResult
  | /-- An assertion stops the process. -/
    aborted (message : String)
  | /-- An access outside of a block of memory. -/
    outside
  | /-- `Init` returns. -/
    ready (a : AdapterRecovery)

/-- A length field, unless it is not inside of the block. -/
def lenAt (buf : List UInt8) (ptr : ℕ) : Option ℕ :=
  if ptr + 4 ≤ buf.length then some (Codec.uint32.decode (buf.drop ptr)).toNat else none

/-- The last loop of `Init`: some records are skipped. -/
def skip (buf : List UInt8) : ℕ → ℕ → Option ℕ
  | 0, ptr => some ptr
  | count + 1, ptr => (lenAt buf ptr).bind fun len => skip buf count (ptr + (4 + len))

/-- The variables `start` and `last_seq` after the iterations for `1, …, i` of the loop that
looks for gaps. -/
def startLoop (seqBuf : ℕ → UInt64) : ℕ → ℕ × UInt64
  | 0 => (0, seqBuf 0)
  | i + 1 =>
    let (start, lastSeq) := startLoop seqBuf i
    let curSeq := seqBuf (i + 1)
    if curSeq - lastSeq = 1 then (start, curSeq) else (i + 1, curSeq)

/-- The value of `start` behind these iterations. -/
def startAfter (seqBuf : ℕ → UInt64) (i : ℕ) : ℕ := (startLoop seqBuf i).1

namespace Backup

variable (b : Backup)

/-- The size of the block at `data_buf_`. -/
def dataCapacity : ℕ := (align (UInt32.ofNat b.data.length) blkSize).toNat

/-- The size of the block at `seq_buf`. -/
def seqCapacity : ℕ := (align (uint32 (seqSize b.seq.length)) blkSize).toNat

/-- `calloc` clears the block, and `fread` fills its beginning. -/
def dataBuf : List UInt8 :=
  b.data.take b.dataRead ++ List.replicate (b.dataCapacity - b.dataRead) 0

/-- `seq_buf[i]` -/
def seqBuf (i : ℕ) : UInt64 :=
  Codec.uint64.decode
    ((b.seq.take b.seqRead ++ List.replicate (b.seqCapacity - b.seqRead) 0).drop (8 * i))

/-- `int num` -/
def num : ℤ := int32 (sizeT (seqSize b.seq.length) / 8 : ℕ)

/-- The value of `start` behind the loop over `1 ≤ i < num`. -/
def start : ℕ := startAfter b.seqBuf (b.num - 1).toNat

/-- `AdapterRecovery::Init`. The allocations succeed; the comparison with what was read is an
assignment of the size to an `int`. -/
def init : InitResult :=
  if b.data.length = 0 then .ready ⟨[], 0, 0⟩
  else if sizeT (seqSize b.seq.length) % 8 ≠ 0 then .aborted "Seq size error\n"
  else if b.dataCapacity < b.dataRead then .outside
  else if int32 b.data.length = 0 then .aborted "Data recovery file read failure\n"
  else if b.seqCapacity < b.seqRead then .outside
  else if seqSize b.seq.length = 0 then .aborted "Seq recovery file read failure\n"
  else
    match skip b.dataBuf b.start 0 with
    | none => .outside
    | some ptr => .ready ⟨b.dataBuf, b.data.length, ptr⟩

end Backup

/-- What `ReadRecord` returns other than `NULL`. -/
inductive Record
  | /-- An offset into the block and a length. -/
    range (data len : ℕ)
  | /-- The length field is not inside of the block. -/
    outside

namespace AdapterRecovery

/-- `AdapterRecovery::ReadRecord` -/
def readRecord (a : AdapterRecovery) : Option Record × AdapterRecovery :=
  if a.ptr = a.dataSize then (none, a)
  else
    match lenAt a.dataBuf a.ptr with
    | none => (some .outside, a)
    | some len =>
      let data := a.ptr + 4
      (some (.range data len), { a with ptr := data + len })

end AdapterRecovery

/-! ## The last gap -/

/-- From an index on, up to a number of them, the sequence numbers are consecutive. -/
def ConsecutiveFrom (seqBuf : ℕ → UInt64) (num s : ℕ) : Prop :=
  ∀ i, s ≤ i → i + 1 < num → seqBuf (i + 1) = seqBuf i + 1

theorem startLoop_last (seqBuf : ℕ → UInt64) (i : ℕ) : (startLoop seqBuf i).2 = seqBuf i := by
  cases i with
  | zero => rfl
  | succ i =>
      rw [startLoop]
      dsimp only
      split_ifs <;> rfl

theorem startAfter_succ (seqBuf : ℕ → UInt64) (i : ℕ) :
    startAfter seqBuf (i + 1) =
      if seqBuf (i + 1) = seqBuf i + 1 then startAfter seqBuf i else i + 1 := by
  have hgap : seqBuf (i + 1) - seqBuf i = 1 ↔ seqBuf (i + 1) = seqBuf i + 1 := by
    rw [UInt64.sub_eq_iff_eq_add, UInt64.add_comm]
  rw [startAfter, startLoop]
  dsimp only
  simp only [startLoop_last, hgap]
  split_ifs <;> rfl

/-- The loop finds the least index from which on there is no gap. -/
theorem startAfter_le_iff (seqBuf : ℕ → UInt64) (i s : ℕ) :
    startAfter seqBuf i ≤ s ↔ ConsecutiveFrom seqBuf (i + 1) s := by
  induction i with
  | zero =>
      refine ⟨fun _ j _ hj => absurd hj (by omega), fun _ => Nat.zero_le s⟩
  | succ i ih =>
      rw [startAfter_succ]
      split_ifs with hnext
      · rw [ih]
        constructor
        · intro h j hsj hj
          by_cases hlast : j = i
          · subst hlast
            exact hnext
          · exact h j hsj (by omega)
        · exact fun h j hsj hj => h j hsj (by omega)
      · constructor
        · exact fun hle j hsj hj => absurd hj (by omega)
        · intro h
          by_contra hlt
          exact hnext (h i (by omega) (by omega))

/-! ## Walking over records -/

/-- The length field in front of a record. -/
theorem lenAt_frame {buf record rest : List UInt8} {ptr : ℕ}
    (hbuf : buf.drop ptr = frame record ++ rest) (hlength : record.length < 2 ^ 32) :
    lenAt buf ptr = some record.length := by
  have hroom := congrArg List.length hbuf
  rw [List.length_drop, List.length_append, length_frame] at hroom
  rw [lenAt, if_pos (by omega), hbuf, frame, List.append_assoc, Codec.uint32_decode_append,
    UInt32.toNat_ofNat', Nat.mod_eq_of_lt hlength]

/-- A length field whose record is inside of the data is in front of a record. -/
theorem frame_of_lenAt {buf : List UInt8} {ptr len : ℕ} (hlen : lenAt buf ptr = some len)
    (hinside : ptr + 4 + len ≤ buf.length) :
    ∃ record, buf.drop ptr = frame record ++ buf.drop (ptr + 4 + len) := by
  unfold lenAt at hlen
  split_ifs at hlen with hroom
  have hvalue := Option.some.inj hlen
  have hlength : ((buf.drop (ptr + 4)).take len).length = len := by
    rw [List.length_take, List.length_drop]
    omega
  refine ⟨(buf.drop (ptr + 4)).take len, ?_⟩
  have hfield : Codec.uint32.encode (UInt32.ofNat len) = (buf.drop ptr).take 4 := by
    rw [← hvalue, UInt32.ofNat_toNat]
    apply Codec.uint32_encode_decode
    rw [List.length_drop]
    omega
  have hrest : buf.drop (ptr + 4 + len) = (buf.drop (ptr + 4)).drop len := List.drop_drop.symm
  rw [frame, hlength, hfield, List.append_assoc, hrest, List.take_append_drop,
    ← List.drop_drop, List.take_append_drop]

theorem length_le_recordsSize {record : List UInt8} {records : List (List UInt8)}
    (hrecord : record ∈ records) : record.length ≤ recordsSize records := by
  obtain ⟨front, back, rfl⟩ := List.append_of_mem hrecord
  rw [recordsSize_append, recordsSize_cons]
  omega

theorem four_mul_length_le (records : List (List UInt8)) :
    4 * records.length ≤ recordsSize records := by
  induction records with
  | nil => exact Nat.le_refl 0
  | cons record records ih =>
      rw [List.length_cons, recordsSize_cons]
      omega

/-- Skipping records that are there. -/
theorem skip_layout {buf rest : List UInt8} (ptr : ℕ) (done todo : List (List UInt8))
    (hbuf : buf.drop ptr = layout (done ++ todo) ++ rest)
    (hlength : ∀ record ∈ done, record.length < 2 ^ 32) :
    skip buf done.length ptr = some (ptr + recordsSize done) := by
  induction done generalizing ptr with
  | nil => rfl
  | cons record done ih =>
      rw [List.cons_append, layout_cons, List.append_assoc] at hbuf
      rw [List.length_cons, skip, lenAt_frame hbuf (hlength record List.mem_cons_self),
        Option.bind_some, ih (ptr + (4 + record.length)), recordsSize_cons, Nat.add_assoc]
      · rw [← List.drop_drop, hbuf, ← length_frame record, List.drop_left]
      · exact fun r hr => hlength r (List.mem_cons_of_mem record hr)

/-- The loop that skips records reads length fields and moves the offset inside of the first
`size` bytes only. -/
def SkipsInside (buf : List UInt8) (size count ptr : ℕ) : Prop :=
  ∀ i ≤ count, ∃ p, skip buf i ptr = some p ∧ p ≤ size ∧ (i < count → p + 4 ≤ size)

theorem SkipsInside.tail {buf : List UInt8} {size count ptr len : ℕ}
    (h : SkipsInside buf size (count + 1) ptr) (hlen : lenAt buf ptr = some len) :
    SkipsInside buf size count (ptr + (4 + len)) := by
  intro i hi
  obtain ⟨p, hp, hsize, hfield⟩ := h (i + 1) (by omega)
  rw [skip, hlen, Option.bind_some] at hp
  exact ⟨p, hp, hsize, fun hlt => hfield (by omega)⟩

/-- What has been skipped inside of the data are records. -/
theorem SkipsInside.exists_layout {buf : List UInt8} {size count ptr : ℕ}
    (h : SkipsInside buf size count ptr) (hsize : size ≤ buf.length) :
    ∃ done p, skip buf count ptr = some p ∧ done.length = count ∧ p ≤ size ∧
      buf.drop ptr = layout done ++ buf.drop p := by
  induction count generalizing ptr with
  | zero =>
      obtain ⟨p, hp, hle, -⟩ := h 0 le_rfl
      obtain rfl : ptr = p := Option.some.inj hp
      exact ⟨[], ptr, rfl, rfl, hle, rfl⟩
  | succ count ih =>
      obtain ⟨first, hfirst, hle, -⟩ := h 1 (by omega)
      obtain ⟨len, hlen, hnext⟩ := Option.bind_eq_some_iff.mp hfirst
      obtain rfl : ptr + (4 + len) = first := Option.some.inj hnext
      obtain ⟨record, hdrop⟩ := frame_of_lenAt hlen (by omega)
      obtain ⟨done, p, hskip, hcount, hp, hrest⟩ := ih (h.tail hlen)
      refine ⟨record :: done, p, ?_, ?_, hp, ?_⟩
      · rw [skip, hlen, Option.bind_some, hskip]
      · rw [List.length_cons, hcount]
      · rw [hdrop, Nat.add_assoc, hrest, layout_cons, List.append_assoc]

/-- Skipping records that are there stays inside. -/
theorem skipsInside_layout {buf rest : List UInt8} {done todo : List (List UInt8)} (size : ℕ)
    (hbuf : buf = layout (done ++ todo) ++ rest)
    (hlength : ∀ record ∈ done, record.length < 2 ^ 32)
    (hsize : recordsSize (done ++ todo) ≤ size) : SkipsInside buf size done.length 0 := by
  intro i hi
  have htake : (done.take i).length = i := List.length_take_of_le hi
  have hsplit : done ++ todo = done.take i ++ (done.drop i ++ todo) := by
    rw [← List.append_assoc, List.take_append_drop]
  have hskip := skip_layout 0 (done.take i) (done.drop i ++ todo)
    (by rw [← hsplit]; exact hbuf) (fun r hr => hlength r (List.mem_of_mem_take hr))
  rw [htake, Nat.zero_add] at hskip
  rw [hsplit, recordsSize_append, recordsSize_append] at hsize
  refine ⟨_, hskip, by omega, fun hlt => ?_⟩
  obtain ⟨record, more, hmore⟩ := List.exists_cons_of_length_pos
    (show 0 < (done.drop i).length by rw [List.length_drop]; omega)
  rw [hmore, recordsSize_cons] at hsize
  omega

namespace AdapterRecovery

variable {a : AdapterRecovery}

/-- How much of the data is in the block. -/
def loadedSize (a : AdapterRecovery) : ℕ := min a.dataSize a.dataBuf.length

/-- A returned range, and with it the length field in front of it, is inside of the data. -/
def Inside (a : AdapterRecovery) : Record → Prop
  | .range data len => data + len ≤ a.loadedSize
  | .outside => False

/-- The calls of `ReadRecord` come to `NULL`, and every range is inside of the data. -/
def ReadsInside (a : AdapterRecovery) : Prop :=
  ∃ records, Delivers readRecord a records ∧ ∀ record ∈ records, a.Inside record

/-- A range with the bytes of a record and its length. -/
def Shows (a : AdapterRecovery) (range : Record) (record : List UInt8) : Prop :=
  ∃ data, range = .range data record.length ∧
    (a.dataBuf.drop data).take record.length = record

theorem readRecord_end (h : a.ptr = a.dataSize) : a.readRecord = (none, a) := if_pos h

theorem readRecord_of_lenAt (h : a.ptr ≠ a.dataSize) {len : ℕ}
    (hlen : lenAt a.dataBuf a.ptr = some len) :
    a.readRecord = (some (.range (a.ptr + 4) len), { a with ptr := a.ptr + 4 + len }) := by
  rw [readRecord, if_neg h, hlen]

/-- The cases of `ReadRecord`. -/
theorem readRecord_cases (a : AdapterRecovery) :
    (a.ptr = a.dataSize ∧ a.readRecord = (none, a)) ∨ a.readRecord = (some .outside, a) ∨
      ∃ len, lenAt a.dataBuf a.ptr = some len ∧
        a.readRecord = (some (.range (a.ptr + 4) len), { a with ptr := a.ptr + 4 + len }) := by
  by_cases hend : a.ptr = a.dataSize
  · exact .inl ⟨hend, readRecord_end hend⟩
  cases hlen : lenAt a.dataBuf a.ptr with
  | none => exact .inr (.inl (by rw [readRecord, if_neg hend, hlen]))
  | some len => exact .inr (.inr ⟨len, rfl, readRecord_of_lenAt hend hlen⟩)

/-- Records up to the end of the data are returned one after the other. -/
theorem delivers_layout {todo : List (List UInt8)}
    (hbuf : a.dataBuf.drop a.ptr = layout todo ++ a.dataBuf.drop a.dataSize)
    (hlength : ∀ record ∈ todo, record.length < 2 ^ 32)
    (hptr : a.ptr + recordsSize todo = a.dataSize) (hsize : a.dataSize ≤ a.dataBuf.length) :
    ∃ ranges, Delivers readRecord a ranges ∧ (∀ range ∈ ranges, a.Inside range) ∧
      List.Forall₂ a.Shows ranges todo := by
  induction todo generalizing a with
  | nil =>
      exact ⟨[], .stop (readRecord_end hptr), fun _ hr => absurd hr List.not_mem_nil, .nil⟩
  | cons record todo ih =>
      rw [layout_cons, List.append_assoc] at hbuf
      rw [recordsSize_cons] at hptr
      have hlen := lenAt_frame hbuf (hlength record List.mem_cons_self)
      have hread := readRecord_of_lenAt (by omega) hlen
      have hnext : a.dataBuf.drop (a.ptr + 4 + record.length) =
          layout todo ++ a.dataBuf.drop a.dataSize := by
        rw [Nat.add_assoc, ← List.drop_drop, hbuf, ← length_frame record, List.drop_left]
      have hdata : (a.dataBuf.drop (a.ptr + 4)).take record.length = record := by
        have hfield : (Codec.uint32.encode (UInt32.ofNat record.length)).length = 4 := rfl
        rw [← List.drop_drop, hbuf, frame, List.append_assoc, List.drop_left' hfield,
          List.take_left]
      obtain ⟨ranges, hdelivers, hinside, hshows⟩ :=
        @ih { a with ptr := a.ptr + 4 + record.length } hnext
          (fun r hr => hlength r (List.mem_cons_of_mem record hr))
          (by change a.ptr + 4 + record.length + recordsSize todo = a.dataSize; omega) hsize
      refine ⟨_ :: ranges, .record hread hdelivers, ?_, .cons ⟨_, rfl, hdata⟩ hshows⟩
      intro range hrange
      rcases List.mem_cons.mp hrange with rfl | hrange
      · change a.ptr + 4 + record.length ≤ min a.dataSize a.dataBuf.length
        omega
      · exact hinside range hrange

/-- Skipping some of the records that fill the data, and reading the others. -/
theorem replays_layout {buf : List UInt8} {size start : ℕ} {records : List (List UInt8)}
    (hbuf : buf = layout records ++ buf.drop size) (hsize : recordsSize records = size)
    (hlength : ∀ record ∈ records, record.length < 2 ^ 32) (hstart : start ≤ records.length) :
    ∃ ptr, skip buf start 0 = some ptr ∧ SkipsInside buf size start 0 ∧
      ∃ ranges, Delivers readRecord ⟨buf, size, ptr⟩ ranges ∧
        (∀ range ∈ ranges, Inside ⟨buf, size, ptr⟩ range) ∧
        List.Forall₂ (Shows ⟨buf, size, ptr⟩) ranges (records.drop start) := by
  have htake : (records.take start).length = start := List.length_take_of_le hstart
  have hsplit : records.take start ++ records.drop start = records := List.take_append_drop _ _
  have hroom : size ≤ buf.length := by
    have hlen := congrArg List.length hbuf
    rw [List.length_append, length_layout] at hlen
    omega
  have hsum : recordsSize (records.take start) + recordsSize (records.drop start) = size := by
    rw [← recordsSize_append, hsplit, hsize]
  have hbuf' : buf = layout (records.take start ++ records.drop start) ++ buf.drop size := by
    rw [hsplit]
    exact hbuf
  have hskipped : ∀ record ∈ records.take start, record.length < 2 ^ 32 :=
    fun record hr => hlength record (List.mem_of_mem_take hr)
  have hskip := skip_layout 0 (records.take start) (records.drop start) hbuf' hskipped
  have hinside := skipsInside_layout size hbuf' hskipped (by rw [recordsSize_append, hsum])
  rw [htake, Nat.zero_add] at hskip
  rw [htake] at hinside
  refine ⟨_, hskip, hinside, ?_⟩
  apply delivers_layout
  · have hdrop := drop_layout (records.take start) (records.drop start) (buf.drop size)
    rwa [← hbuf'] at hdrop
  · exact fun record hr => hlength record (List.mem_of_mem_drop hr)
  · exact hsum
  · exact hroom

/-- What has been returned inside of the data are records. -/
theorem exists_layout_of_delivers {ranges : List Record} (h : Delivers readRecord a ranges)
    (hinside : ∀ range ∈ ranges, a.Inside range) (hptr : a.ptr ≤ a.loadedSize) :
    a.dataSize ≤ a.dataBuf.length ∧
      ∃ todo, a.dataBuf.drop a.ptr = layout todo ++ a.dataBuf.drop a.dataSize := by
  induction h with
  | @stop a a' hread =>
      rcases a.readRecord_cases with ⟨hend, -⟩ | houtside | ⟨len, -, hrange⟩
      · rw [hend] at hptr ⊢
        exact ⟨hptr.trans (Nat.min_le_right _ _), [], rfl⟩
      · rw [houtside] at hread
        cases hread
      · rw [hrange] at hread
        cases hread
  | @record a a' range ranges hread hrest ih =>
      rcases a.readRecord_cases with ⟨-, hend⟩ | houtside | ⟨len, hlen, hrange⟩
      · rw [hend] at hread
        cases hread
      · rw [houtside] at hread
        cases hread
        exact absurd (hinside _ List.mem_cons_self) id
      · rw [hrange] at hread
        cases hread
        have hfirst : a.ptr + 4 + len ≤ min a.dataSize a.dataBuf.length :=
          hinside _ List.mem_cons_self
        obtain ⟨record, hdrop⟩ := frame_of_lenAt hlen (by omega)
        obtain ⟨hsize, todo, htodo⟩ :=
          ih (fun r hr => hinside r (List.mem_cons_of_mem _ hr)) hfirst
        refine ⟨hsize, record :: todo, ?_⟩
        rw [hdrop, layout_cons, List.append_assoc, ← htodo]

end AdapterRecovery

/-! ## Damaged backups -/

/-- `align` rounds up to the next block. -/
theorem toNat_align (size : ℕ) :
    (align (UInt32.ofNat size) blkSize).toNat =
      4096 * ((size % 2 ^ 32 + 4095) / 4096) % 2 ^ 32 := by
  have hsize : (UInt32.ofNat size).toNat = size % 2 ^ 32 := UInt32.toNat_ofNat'
  have hblk : blkSize.toNat = 4096 := rfl
  have hzero : UInt32.ofNat size % blkSize = 0 ↔ size % 2 ^ 32 % 4096 = 0 := by
    rw [← UInt32.toNat_inj, UInt32.toNat_mod, hsize, hblk]
    rfl
  unfold align
  split_ifs with h
  · rw [hsize]
    have := hzero.mp h
    omega
  · rw [UInt32.toNat_mul, UInt32.toNat_add, UInt32.toNat_div, hsize, hblk]
    have := mt hzero.mpr h
    have hone : (1 : UInt32).toNat = 1 := rfl
    rw [hone]
    omega

namespace Backup

variable (b : Backup)

/-- The data as they are loaded: what a short read does not deliver is zero. -/
def loaded : List UInt8 :=
  b.data.take b.dataRead ++ List.replicate (b.data.length - b.dataRead) 0

/-- When `Init` returns, it has skipped records inside of the data only, and so do the calls of
`ReadRecord` until `NULL`. -/
def Safe : Prop :=
  (∃ message, b.init = .aborted message) ∨
    ∃ a, b.init = .ready a ∧ a.ReadsInside ∧
      (b.data.length ≠ 0 →
        SkipsInside b.dataBuf (min b.data.length b.dataBuf.length) b.start 0)

/-- The block has room for the data, the loaded data are complete records, and behind them the
sequence numbers have no gap. -/
structure Complete (records : List (List UInt8)) : Prop where
  room : b.data.length ≤ b.dataCapacity
  loaded_eq : b.loaded = layout records
  consecutive : ConsecutiveFrom b.seqBuf b.num.toNat records.length

/-- There are no data, or an assertion on the sizes fails before anything is written outside of
its block, or the backup is complete. -/
def Intact : Prop :=
  b.data.length = 0 ∨ b.seq.length % 8 ≠ 0 ∨
    (b.dataRead ≤ b.dataCapacity ∧ (b.data.length % 2 ^ 32 = 0 ∨
      (b.seqRead ≤ b.seqCapacity ∧ (b.seq.length % 2 ^ 32 = 0 ∨
        ∃ records, b.Complete records))))

variable {b}

theorem int32_eq_zero_iff (size : ℕ) : int32 size = 0 ↔ size % 2 ^ 32 = 0 := by
  unfold int32
  omega

theorem seqSize_eq_zero_iff (size : ℕ) : seqSize size = 0 ↔ size % 2 ^ 32 = 0 :=
  int32_eq_zero_iff size

theorem sizeT_seqSize_mod (size : ℕ) : sizeT (seqSize size) % 8 = size % 8 := by
  unfold sizeT seqSize int32
  omega

theorem start_le_iff (b : Backup) (s : ℕ) :
    b.start ≤ s ↔ ConsecutiveFrom b.seqBuf b.num.toNat s := by
  rw [start, startAfter_le_iff]
  generalize b.num = num
  constructor
  · exact fun h i hs hi => h i hs (by omega)
  · exact fun h i hs hi => h i hs (by omega)

theorem length_dataBuf (h : b.dataRead ≤ b.dataCapacity) : b.dataBuf.length = b.dataCapacity := by
  have hread := b.dataRead_le
  rw [dataBuf, List.length_append, List.length_take, List.length_replicate]
  omega

/-- The data at the beginning of the block. -/
theorem take_dataBuf (h : b.data.length ≤ b.dataCapacity) :
    b.dataBuf.take b.data.length = b.loaded := by
  have hread := b.dataRead_le
  rw [dataBuf, loaded, List.take_append, List.take_take, List.take_replicate, List.length_take]
  congr 2
  · omega
  · omega

/-- The checks of `Init` in terms of the lengths of the files. -/
theorem init_eq (b : Backup) :
    b.init =
      if b.data.length = 0 then .ready ⟨[], 0, 0⟩
      else if b.seq.length % 8 ≠ 0 then .aborted "Seq size error\n"
      else if b.dataCapacity < b.dataRead then .outside
      else if b.data.length % 2 ^ 32 = 0 then .aborted "Data recovery file read failure\n"
      else if b.seqCapacity < b.seqRead then .outside
      else if b.seq.length % 2 ^ 32 = 0 then .aborted "Seq recovery file read failure\n"
      else
        match skip b.dataBuf b.start 0 with
        | none => .outside
        | some ptr => .ready ⟨b.dataBuf, b.data.length, ptr⟩ := by
  simp only [init, sizeT_seqSize_mod, seqSize_eq_zero_iff, int32_eq_zero_iff]

/-- The block of a complete backup. -/
theorem Complete.dataBuf_eq {records : List (List UInt8)} (h : b.Complete records) :
    b.dataBuf = layout records ++ b.dataBuf.drop b.data.length := by
  rw [← h.loaded_eq, ← take_dataBuf h.room, List.take_append_drop]

theorem Complete.recordsSize_eq {records : List (List UInt8)} (h : b.Complete records) :
    recordsSize records = b.data.length := by
  have hread := b.dataRead_le
  rw [← length_layout, ← h.loaded_eq, loaded, List.length_append, List.length_take,
    List.length_replicate]
  omega

theorem Complete.length_lt {records : List (List UInt8)} (h : b.Complete records)
    {record : List UInt8} (hrecord : record ∈ records) : record.length < 2 ^ 32 := by
  have hlt : b.dataCapacity < 2 ^ 32 := UInt32.toNat_lt _
  have hle := length_le_recordsSize hrecord
  have hsize := h.recordsSize_eq
  have hroom := h.room
  omega

/-- What `Init` and `ReadRecord` do with a complete backup: the records in front of the start are
skipped, the others are returned. -/
theorem Complete.replayed {records : List (List UInt8)} (h : b.Complete records)
    (hskip : ∀ ptr, skip b.dataBuf b.start 0 = some ptr →
      b.init = .ready ⟨b.dataBuf, b.data.length, ptr⟩) :
    ∃ a, b.init = .ready a ∧ SkipsInside b.dataBuf b.data.length b.start 0 ∧
      ∃ ranges, Delivers AdapterRecovery.readRecord a ranges ∧
        (∀ range ∈ ranges, a.Inside range) ∧
        List.Forall₂ a.Shows ranges (records.drop b.start) := by
  obtain ⟨ptr, hptr, hinside, hranges⟩ := AdapterRecovery.replays_layout h.dataBuf_eq
    h.recordsSize_eq (fun _ hr => h.length_lt hr) ((b.start_le_iff _).mpr h.consecutive)
  exact ⟨_, hskip ptr hptr, hinside, hranges⟩

/-- Where `Init` does not abort and the blocks are large enough for what is read, being safe and
being complete are the same. -/
theorem safe_iff_complete (hdata : b.data.length ≠ 0) (hread : b.dataRead ≤ b.dataCapacity)
    (hinit : b.init =
      match skip b.dataBuf b.start 0 with
      | none => .outside
      | some ptr => .ready ⟨b.dataBuf, b.data.length, ptr⟩) :
    b.Safe ↔ ∃ records, b.Complete records := by
  constructor
  · rintro (⟨message, habort⟩ | ⟨a, hready, ⟨ranges, hdelivers, hranges⟩, hskips⟩)
    · rw [hinit] at habort
      cases hskip : skip b.dataBuf b.start 0 with
      | none => simp [hskip] at habort
      | some ptr => simp [hskip] at habort
    · obtain ⟨done, ptr, hskip, hcount, hptr, hdone⟩ :=
        (hskips hdata).exists_layout (Nat.min_le_right _ _)
      rw [hinit, hskip] at hready
      obtain rfl := InitResult.ready.inj hready
      obtain ⟨hsize, todo, htodo⟩ :=
        AdapterRecovery.exists_layout_of_delivers hdelivers hranges hptr
      dsimp only at hsize htodo
      have hroom : b.data.length ≤ b.dataCapacity := length_dataBuf hread ▸ hsize
      refine ⟨done ++ todo, hroom, ?_, ?_⟩
      · rw [List.drop_zero, htodo, ← List.append_assoc, ← layout_append] at hdone
        rw [← take_dataBuf hroom]
        exact List.append_cancel_right ((List.take_append_drop _ _).trans hdone)
      · rw [← start_le_iff, List.length_append]
        omega
  · rintro ⟨records, hcomplete⟩
    obtain ⟨a, hready, hskips, ranges, hdelivers, hranges, -⟩ :=
      hcomplete.replayed fun ptr hskip => by rw [hinit, hskip]
    have hsize : min b.data.length b.dataBuf.length = b.data.length := by
      rw [length_dataBuf hread]
      exact Nat.min_eq_left hcomplete.room
    exact .inr ⟨a, hready, ⟨ranges, hdelivers, hranges⟩, fun _ => hsize.symm ▸ hskips⟩

/-- **When a replay is safe.** For any two files and any short reads: `Init` either stops the
process at an assertion, or it returns having skipped only inside of the data, the calls of
`ReadRecord` come to `NULL` and all their ranges are inside of the data, if and only if the
backup is intact. -/
theorem replay_safe_iff (b : Backup) : b.Safe ↔ b.Intact := by
  have hsafe (message : String) (hinit : b.init = .aborted message) : b.Safe :=
    .inl ⟨message, hinit⟩
  have houtside (hinit : b.init = .outside) : ¬b.Safe := by
    rintro (⟨message, habort⟩ | ⟨a, hready, -⟩)
    · rw [hinit] at habort
      cases habort
    · rw [hinit] at hready
      cases hready
  have hinit := b.init_eq
  unfold Intact
  split_ifs at hinit with hdata hseq hread hsize hread' hsize'
  · refine iff_of_true (.inr ⟨_, hinit, ⟨[], .stop rfl, ?_⟩, fun h => absurd hdata h⟩)
      (.inl hdata)
    exact fun _ hr => absurd hr List.not_mem_nil
  · exact iff_of_true (hsafe _ hinit) (.inr (.inl hseq))
  all_goals rw [or_iff_right hdata, or_iff_right hseq]
  · exact iff_of_false (houtside hinit) fun h => absurd h.1 (Nat.not_le.mpr hread)
  all_goals rw [and_iff_right (Nat.not_lt.mp hread)]
  · exact iff_of_true (hsafe _ hinit) (.inl hsize)
  all_goals rw [or_iff_right hsize]
  · exact iff_of_false (houtside hinit) fun h => absurd h.1 (Nat.not_le.mpr hread')
  all_goals rw [and_iff_right (Nat.not_lt.mp hread')]
  · exact iff_of_true (hsafe _ hinit) (.inl hsize')
  · rw [or_iff_right hsize']
    exact safe_iff_complete hdata (Nat.not_lt.mp hread) hinit

/-- A data file that ends behind the length of a record of one byte. -/
def truncated : Backup where
  data := Codec.uint32.encode 1
  seq := Codec.uint64.encode 0
  dataRead := 4
  seqRead := 8
  dataRead_le := by decide
  seqRead_le := by decide

/-- The record that is missing is returned, and `NULL` is not reached. -/
theorem truncated_not_safe : ¬truncated.Safe := by
  have hinit := truncated.init_eq
  have hdata : truncated.dataCapacity = 4096 := by
    have hlength : truncated.data.length = 4 := rfl
    rw [dataCapacity, toNat_align, hlength]
    norm_num
  have hseq : truncated.seqCapacity = 4096 := by
    have hlength : (seqSize truncated.seq.length % 2 ^ 32).toNat = 8 := by decide
    rw [seqCapacity, uint32, toNat_align, hlength]
    norm_num
  have hread : truncated.dataRead ≤ truncated.dataCapacity := by
    rw [hdata]
    decide
  rw [if_neg (by decide), if_neg (by decide), if_neg (Nat.not_lt.mpr hread), if_neg (by decide),
    hseq, if_neg (by decide), if_neg (by decide)] at hinit
  rw [@safe_iff_complete truncated (by decide) hread hinit]
  rintro ⟨records, hcomplete⟩
  have hsize : recordsSize records = 4 := hcomplete.recordsSize_eq
  have hlayout : [1, 0, 0, 0] = layout records := hcomplete.loaded_eq
  cases records with
  | nil => cases hlayout
  | cons record records =>
      rw [recordsSize_cons] at hsize
      obtain rfl : record = [] := List.length_eq_zero_iff.mp (by omega)
      rw [layout_cons] at hlayout
      exact absurd (List.cons.inj hlayout).1 (by decide)

end Backup

/-! ## Backups as they are written -/

theorem toNat_seqSize (size : ℕ) : (seqSize size % 2 ^ 32).toNat = size % 2 ^ 32 := by
  unfold seqSize int32
  omega

theorem int32_of_lt {x : ℕ} (hx : x < 2 ^ 31) : int32 x = x := by
  rw [int32]
  omega

/-- An `int` with the highest bit is negative. -/
theorem int32_of_ge {x : ℕ} (hge : 2 ^ 31 ≤ x) (hlt : x < 2 ^ 32) : int32 x = x - 2 ^ 32 := by
  rw [int32]
  omega

theorem sizeT_natCast {x : ℕ} (hx : x < 2 ^ 64) : sizeT x = x := by
  rw [sizeT]
  omega

/-- A negative `int` is a very large `size_t`. -/
theorem sizeT_of_neg {x : ℕ} (hge : 2 ^ 31 ≤ x) (hlt : x < 2 ^ 32) :
    sizeT (x - 2 ^ 32) = x + (2 ^ 64 - 2 ^ 32) := by
  rw [sizeT]
  omega

/-- The size of the file of a number of sequence numbers, as it is asked from `fread`, and the
number that `Init` takes from it. -/
theorem seqSize_cases (n : ℕ) (hn : n < 2 ^ 30) :
    (n < 2 ^ 28 ∧ sizeT (seqSize (8 * n)) = 8 * n ∧ int32 (sizeT (seqSize (8 * n)) / 8 : ℕ) = n) ∨
    (2 ^ 28 ≤ n ∧ n < 2 ^ 29 ∧ 8 * n ≤ sizeT (seqSize (8 * n)) ∧
      int32 (sizeT (seqSize (8 * n)) / 8 : ℕ) < 0) ∨
    (2 ^ 29 ≤ n ∧ n < 2 ^ 29 + 2 ^ 28 ∧ sizeT (seqSize (8 * n)) = 8 * (n - 2 ^ 29) ∧
      int32 (sizeT (seqSize (8 * n)) / 8 : ℕ) = (n - 2 ^ 29 : ℕ)) ∨
    (2 ^ 29 + 2 ^ 28 ≤ n ∧ 8 * n ≤ sizeT (seqSize (8 * n)) ∧
      int32 (sizeT (seqSize (8 * n)) / 8 : ℕ) < 0) := by
  rcases Nat.lt_or_ge n (2 ^ 28) with hlt | hge
  · have hsizeT : sizeT (seqSize (8 * n)) = 8 * n := by
      rw [seqSize, int32_of_lt (by omega), sizeT_natCast (by omega)]
    refine .inl ⟨hlt, hsizeT, ?_⟩
    rw [hsizeT, Nat.mul_div_cancel_left n (by decide), int32_of_lt (by omega)]
  · rcases Nat.lt_or_ge n (2 ^ 29) with hlt | hge'
    · have hsizeT : sizeT (seqSize (8 * n)) = 8 * n + (2 ^ 64 - 2 ^ 32) := by
        rw [seqSize, int32_of_ge (by omega) (by omega), sizeT_of_neg (by omega) (by omega)]
      refine .inr (.inl ⟨hge, hlt, by omega, ?_⟩)
      rw [hsizeT, int32]
      omega
    · have hwrap : seqSize (8 * n) = seqSize (8 * (n - 2 ^ 29)) := by
        rw [seqSize, seqSize, int32, int32]
        omega
      rcases Nat.lt_or_ge n (2 ^ 29 + 2 ^ 28) with hlt | hge''
      · have hsizeT : sizeT (seqSize (8 * n)) = 8 * (n - 2 ^ 29) := by
          rw [hwrap, seqSize, int32_of_lt (by omega), sizeT_natCast (by omega)]
        refine .inr (.inr (.inl ⟨hge', hlt, hsizeT, ?_⟩))
        rw [hsizeT, Nat.mul_div_cancel_left _ (by decide), int32_of_lt (by omega)]
      · have hsizeT : sizeT (seqSize (8 * n)) = 8 * (n - 2 ^ 29) + (2 ^ 64 - 2 ^ 32) := by
          rw [hwrap, seqSize, int32_of_ge (by omega) (by omega), sizeT_of_neg (by omega) (by omega)]
        refine .inr (.inr (.inr ⟨hge'', by omega, ?_⟩))
        rw [hsizeT, int32]
        omega

/-- The bytes of the sequence numbers. -/
def seqBytes (seqs : List UInt64) : List UInt8 := seqs.flatMap Codec.uint64.encode

theorem length_seqBytes (seqs : List UInt64) : (seqBytes seqs).length = 8 * seqs.length := by
  induction seqs with
  | nil => rfl
  | cons seq seqs ih =>
      rw [seqBytes, List.flatMap_cons, List.length_append, ← seqBytes, ih,
        Codec.uint64.length_encode, List.length_cons, Nat.mul_succ, Nat.add_comm]
      rfl

/-- A sequence number at its place. -/
theorem decode_drop_seqBytes (seqs : List UInt64) (rest : List UInt8) {count i : ℕ}
    (hi : i < seqs.length) (hcount : 8 * i + 8 ≤ count) :
    Codec.uint64.decode (((seqBytes seqs).take count ++ rest).drop (8 * i)) = seqs.getD i 0 := by
  have hsplit : seqBytes seqs = seqBytes (seqs.take i) ++
      (Codec.uint64.encode seqs[i] ++ seqBytes (seqs.drop (i + 1))) := by
    conv_lhs => rw [← List.take_append_drop i seqs, List.drop_eq_getElem_cons hi]
    simp only [seqBytes, List.flatMap_append, List.flatMap_cons]
  have hfront : (seqBytes (seqs.take i)).length = 8 * i := by
    rw [length_seqBytes, List.length_take_of_le hi.le]
  have hfield : (Codec.uint64.encode seqs[i]).length = 8 := Codec.uint64.length_encode _
  have htake : (seqBytes seqs).take count = seqBytes (seqs.take i) ++
      (Codec.uint64.encode seqs[i] ++ (seqBytes (seqs.drop (i + 1))).take (count - 8 * i - 8)) := by
    have hwhole : (seqBytes (seqs.take i)).take count = seqBytes (seqs.take i) :=
      List.take_of_length_le (by omega)
    have hwhole' : (Codec.uint64.encode seqs[i]).take (count - 8 * i) =
        Codec.uint64.encode seqs[i] := List.take_of_length_le (by omega)
    rw [hsplit, List.take_append, hfront, hwhole, List.take_append, hfield, hwhole']
  rw [htake, List.append_assoc, ← hfront, List.drop_left, List.append_assoc,
    Codec.uint64_decode_append]
  simp [hi]

namespace Backup

/-- A backup of records with their sequence numbers; `fread` delivers all it is asked for. -/
def pair (records : List (List UInt8)) (seqs : List UInt64) : Backup where
  data := layout records
  seq := seqBytes seqs
  dataRead := (layout records).length
  seqRead := min (sizeT (seqSize (seqBytes seqs).length)) (seqBytes seqs).length
  dataRead_le := le_rfl
  seqRead_le := le_rfl

/-- After `Init`, the calls of `ReadRecord` return exactly these records and then `NULL`. -/
def Replays (b : Backup) (records : List (List UInt8)) : Prop :=
  ∃ a ranges, b.init = .ready a ∧ Delivers AdapterRecovery.readRecord a ranges ∧
    List.Forall₂ a.Shows ranges records

/-- The sequence numbers of `num` records can be told from the size of their file, or there is
no gap where `Init` does not look. -/
def SeqsRead (seqs : List UInt64) : Prop :=
  seqs.length < 2 ^ 28 ∨
    (seqs.length ≤ 2 ^ 29 - 512 ∧ ConsecutiveFrom (seqs.getD · 0) seqs.length 0) ∨
    (2 ^ 29 < seqs.length ∧ seqs.length < 2 ^ 29 + 2 ^ 28 ∧
      ConsecutiveFrom (seqs.getD · 0) seqs.length (seqs.length - 2 ^ 29 - 1))

section Pair

variable {records : List (List UInt8)} {seqs : List UInt64}

theorem dataCapacity_pair (hsize : recordsSize records < 2 ^ 32 - 4096) :
    recordsSize records ≤ (pair records seqs).dataCapacity := by
  have hlength : (pair records seqs).data.length = recordsSize records := length_layout records
  rw [dataCapacity, toNat_align, hlength]
  omega

theorem seqCapacity_pair : (pair records seqs).seqCapacity =
    4096 * ((8 * seqs.length % 2 ^ 32 + 4095) / 4096) % 2 ^ 32 := by
  have hlength : (pair records seqs).seq.length = 8 * seqs.length := length_seqBytes seqs
  rw [seqCapacity, uint32, toNat_align, toNat_seqSize, hlength, Nat.mod_mod]

theorem seqRead_pair : (pair records seqs).seqRead =
    min (sizeT (seqSize (8 * seqs.length))) (8 * seqs.length) := by
  change min (sizeT (seqSize (seqBytes seqs).length)) (seqBytes seqs).length = _
  rw [length_seqBytes]

theorem num_pair : (pair records seqs).num =
    int32 (sizeT (seqSize (8 * seqs.length)) / 8 : ℕ) := by
  change int32 (sizeT (seqSize (seqBytes seqs).length) / 8 : ℕ) = _
  rw [length_seqBytes]

/-- The sequence numbers that were read. -/
theorem seqBuf_pair {i : ℕ} (hi : i < seqs.length)
    (hread : 8 * i + 8 ≤ (pair records seqs).seqRead) :
    (pair records seqs).seqBuf i = seqs.getD i 0 :=
  decode_drop_seqBytes seqs _ hi hread

/-- The data of such a backup are complete, as `Init` never skips more records than there are
sequence numbers. -/
theorem complete_pair (hcount : seqs.length = records.length)
    (hsize : recordsSize records < 2 ^ 32 - 4096)
    (hnum : (pair records seqs).num ≤ seqs.length) :
    (pair records seqs).Complete records where
  room := by
    have hlength : (pair records seqs).data.length = recordsSize records := length_layout records
    rw [hlength]
    exact dataCapacity_pair hsize
  loaded_eq := by
    have hread : (pair records seqs).dataRead = (layout records).length := rfl
    have hdata : (pair records seqs).data = layout records := rfl
    rw [loaded, hread, hdata, List.take_length, Nat.sub_self]
    exact List.append_nil _
  consecutive := by
    intro i hi hi'
    omega

/-- The replay starts where `Init` has stopped skipping. -/
theorem Complete.replays_iff {b : Backup} (h : b.Complete records)
    (hinit : b.init =
      match skip b.dataBuf b.start 0 with
      | none => .outside
      | some ptr => .ready ⟨b.dataBuf, b.data.length, ptr⟩)
    {s : ℕ} (hs : s ≤ records.length) : b.Replays (records.drop s) ↔ b.start = s := by
  have hstart := (b.start_le_iff _).mpr h.consecutive
  obtain ⟨a, hready, -, ranges, hdelivers, -, hshows⟩ :=
    h.replayed fun ptr hskip => by rw [hinit, hskip]
  constructor
  · rintro ⟨a', ranges', hready', hdelivers', hshows'⟩
    obtain rfl := InitResult.ready.inj (hready.symm.trans hready')
    obtain rfl := hdelivers.unique hdelivers'
    have hlength := hshows.length_eq.symm.trans hshows'.length_eq
    rw [List.length_drop, List.length_drop] at hlength
    omega
  · rintro rfl
    exact ⟨a, ranges, hready, hdelivers, hshows⟩

/-- What is left of the checks of `Init`: the block of the sequence numbers and its size. -/
theorem replays_pair_iff (hcount : seqs.length = records.length) (hpos : 0 < records.length)
    (hsize : recordsSize records < 2 ^ 32 - 4096)
    (hnum : (pair records seqs).num ≤ seqs.length) {s : ℕ} (hs : s ≤ records.length) :
    (pair records seqs).Replays (records.drop s) ↔
      (pair records seqs).seqRead ≤ (pair records seqs).seqCapacity ∧
        8 * seqs.length % 2 ^ 32 ≠ 0 ∧ (pair records seqs).start = s := by
  have hcomplete := complete_pair hcount hsize hnum
  have hdata : (pair records seqs).data.length = recordsSize records := length_layout records
  have hdata' : (pair records seqs).dataRead = recordsSize records := length_layout records
  have hseq : (pair records seqs).seq.length = 8 * seqs.length := length_seqBytes seqs
  have hroom := @dataCapacity_pair records seqs hsize
  have hbytes : 4 * records.length ≤ recordsSize records := four_mul_length_le records
  have hinit := (pair records seqs).init_eq
  rw [hdata, hdata', hseq, if_neg (by omega), if_neg (by omega), if_neg (Nat.not_lt.mpr hroom),
    if_neg (by omega)] at hinit
  by_cases hread : (pair records seqs).seqRead ≤ (pair records seqs).seqCapacity
  · rw [if_neg (Nat.not_lt.mpr hread)] at hinit
    by_cases hmod : 8 * seqs.length % 2 ^ 32 = 0
    · rw [if_pos hmod] at hinit
      refine iff_of_false ?_ fun h => h.2.1 hmod
      rintro ⟨a, ranges, hready, -⟩
      rw [hinit] at hready
      cases hready
    · rw [if_neg hmod, ← hdata] at hinit
      rw [hcomplete.replays_iff hinit hs, and_iff_right hread, and_iff_right hmod]
  · rw [if_pos (Nat.not_le.mp hread)] at hinit
    refine iff_of_false ?_ fun h => hread h.1
    rintro ⟨a, ranges, hready, -⟩
    rw [hinit] at hready
    cases hready

/-- The start among the sequence numbers that were read. -/
theorem start_pair_le_iff {num x : ℕ} (hnum : (pair records seqs).num = num)
    (hle : num ≤ seqs.length) (hread : 8 * num ≤ (pair records seqs).seqRead) :
    (pair records seqs).start ≤ x ↔ ConsecutiveFrom (seqs.getD · 0) num x := by
  rw [start_le_iff, hnum, Int.toNat_natCast]
  refine forall_congr' fun i => imp_congr_right fun _ => imp_congr_right fun hi => ?_
  rw [seqBuf_pair (by omega) (by omega), seqBuf_pair (by omega) (by omega)]

theorem start_pair_of_neg (hnum : (pair records seqs).num < 0) :
    (pair records seqs).start = 0 := by
  have hle : (pair records seqs).start ≤ 0 := by
    rw [start_le_iff, Int.toNat_of_nonpos hnum.le]
    exact fun i _ hi => absurd hi (Nat.not_lt_zero _)
  exact Nat.le_zero.mp hle

end Pair

/-- The index from which on there is no gap. -/
theorem isLeast_le_iff {seqBuf : ℕ → UInt64} {num s x : ℕ}
    (hs : IsLeast {s | ConsecutiveFrom seqBuf num s} s) :
    s ≤ x ↔ ConsecutiveFrom seqBuf num x :=
  ⟨fun hle i hi hi' => hs.1 i (hle.trans hi) hi', fun h => hs.2 h⟩

/-- **When a replay starts at the last gap.** For all records and as many sequence numbers, at
least one and not too many for the block of the data: after `Init` the calls of `ReadRecord`
return exactly the records from the last gap on, and then `NULL`, if and only if the number of
records fits into what `Init` computes from the size of the file, or no gap is overlooked. -/
theorem replays_from_last_gap_iff (records : List (List UInt8)) (seqs : List UInt64)
    (hcount : seqs.length = records.length) (hpos : 0 < records.length)
    (hsize : recordsSize records < 2 ^ 32 - 4096) {s : ℕ}
    (hs : IsLeast {s | ConsecutiveFrom (seqs.getD · 0) seqs.length s} s) :
    (pair records seqs).Replays (records.drop s) ↔ SeqsRead seqs := by
  have hn : seqs.length < 2 ^ 30 := by
    have hbytes := four_mul_length_le records
    omega
  have hle : s ≤ records.length := by
    rw [isLeast_le_iff hs]
    exact fun i hi hi' => absurd hi' (by omega)
  have hnum := @num_pair records seqs
  have hread := @seqRead_pair records seqs
  have hcapacity := @seqCapacity_pair records seqs
  rcases seqSize_cases seqs.length hn with ⟨hlt, hsizeT, hnum'⟩ | ⟨hge, hlt, hsizeT, hneg⟩ |
    ⟨hge, hlt, hsizeT, hnum'⟩ | ⟨hge, hsizeT, hneg⟩
  · -- the size is what it is, and all numbers are looked at
    rw [hsizeT, Nat.min_self] at hread
    rw [← hnum] at hnum'
    rw [replays_pair_iff hcount hpos hsize hnum'.le hle]
    have hstart : (pair records seqs).start = s := by
      apply Nat.le_antisymm
      · rw [start_pair_le_iff hnum' le_rfl hread.ge]
        exact hs.1
      · rw [isLeast_le_iff hs, ← start_pair_le_iff hnum' le_rfl hread.ge]
    exact iff_of_true ⟨by omega, by omega, hstart⟩ (.inl hlt)
  · -- the size is negative, and no number is looked at
    rw [Nat.min_eq_right hsizeT] at hread
    rw [← hnum] at hneg
    rw [replays_pair_iff hcount hpos hsize (by omega) hle, start_pair_of_neg hneg]
    have hzero : 0 = s ↔ ConsecutiveFrom (seqs.getD · 0) seqs.length 0 := by
      rw [← isLeast_le_iff hs]
      omega
    rw [hzero]
    constructor
    · rintro ⟨hfits, -, hall⟩
      exact .inr (.inl ⟨by omega, hall⟩)
    · rintro (hsmall | ⟨hroom, hall⟩ | ⟨hbig, -⟩)
      · omega
      · exact ⟨by omega, by omega, hall⟩
      · omega
  · -- the size has lost a bit, and the last numbers are not looked at
    rw [hsizeT, Nat.min_eq_left (by omega)] at hread
    rw [← hnum] at hnum'
    rw [replays_pair_iff hcount hpos hsize (by omega) hle]
    have hstart (x : ℕ) := start_pair_le_iff (x := x) hnum' (by omega) hread.ge
    constructor
    · rintro ⟨-, hmod, hsame⟩
      refine .inr (.inr ⟨by omega, hlt, ?_⟩)
      rw [← isLeast_le_iff hs, ← hsame, hstart]
      exact fun i hi hi' => absurd hi' (by omega)
    · rintro (hsmall | ⟨hsmall, -⟩ | ⟨hbig, -, hall⟩)
      · omega
      · omega
      · refine ⟨by omega, by omega, Nat.le_antisymm ?_ ?_⟩
        · rw [hstart]
          exact fun i hi hi' => hs.1 i hi (by omega)
        · rw [isLeast_le_iff hs]
          intro i hi hi'
          by_cases hseen : i + 1 < seqs.length - 2 ^ 29
          · exact (hstart _).mp le_rfl i hi hseen
          · exact hall i (by omega) hi'
  · -- more is read than there is room for
    rw [Nat.min_eq_right hsizeT] at hread
    rw [← hnum] at hneg
    rw [replays_pair_iff hcount hpos hsize (by omega) hle]
    refine iff_of_false (fun h => ?_) ?_
    · have hfits := h.1
      omega
    · rintro (hsmall | ⟨hsmall, -⟩ | ⟨-, hsmall, -⟩) <;> omega

theorem replays_from_last_gap_two :
    (pair [[1], [2, 3]] [7, 9]).Replays [[2, 3]] := by
  have hleast : IsLeast {s | ConsecutiveFrom ([(7 : UInt64), 9].getD · 0) 2 s} 1 := by
    refine ⟨fun i hi hi' => absurd hi' (by omega), fun s hs => ?_⟩
    by_contra hlt
    exact absurd (hs 0 (by omega) (by decide)) (by decide)
  exact (replays_from_last_gap_iff [[1], [2, 3]] [7, 9] rfl (by decide) (by decide) hleast).mpr
    (.inl (by decide))

/-- Sequence numbers none of which follows its predecessor. -/
theorem isLeast_replicate {n : ℕ} (hn : 0 < n) :
    IsLeast {s | ConsecutiveFrom ((List.replicate n (0 : UInt64)).getD · 0) n s} (n - 1) := by
  refine ⟨fun i hi hi' => absurd hi' (by omega), fun s hs => ?_⟩
  by_contra hlt
  have hnext := hs s le_rfl (by omega)
  have hzero (i : ℕ) : (List.replicate n (0 : UInt64)).getD i 0 = 0 := by
    rw [List.getD_eq_getElem?_getD, List.getElem?_replicate]
    split_ifs <;> rfl
  dsimp only at hnext
  rw [hzero, hzero] at hnext
  exact absurd hnext (by decide)

theorem not_replays_replicate {n : ℕ} (hlow : 2 ^ 28 ≤ n) (hhigh : n < 2 ^ 29) :
    recordsSize (List.replicate n []) < 2 ^ 32 - 4096 ∧
      ¬(pair (List.replicate n []) (List.replicate n 0)).Replays
        ((List.replicate n []).drop (n - 1)) := by
  have hsize : recordsSize (List.replicate n []) = n * 4 := by
    simp [recordsSize]
  have hlength : (List.replicate n (0 : UInt64)).length = n := List.length_replicate
  have hneg : (pair (List.replicate n []) (List.replicate n 0)).num < 0 := by
    rw [num_pair, hlength]
    rcases seqSize_cases n (by omega) with h | h | h | h
    · omega
    · exact h.2.2.2
    · omega
    · omega
  refine ⟨by omega, fun hreplays => ?_⟩
  rw [replays_pair_iff (by simp) (by simp; omega) (by omega) (by omega) (by simp),
    start_pair_of_neg hneg] at hreplays
  omega

/-- With `2 ^ 28` empty records the size of the other file is not an `int` any more. All records
are replayed, although none of the sequence numbers follows its predecessor. -/
theorem not_replays_from_last_gap :
    recordsSize (List.replicate (2 ^ 28) []) < 2 ^ 32 - 4096 ∧
      IsLeast {s | ConsecutiveFrom ((List.replicate (2 ^ 28) (0 : UInt64)).getD · 0) (2 ^ 28) s}
        (2 ^ 28 - 1) ∧
      ¬(pair (List.replicate (2 ^ 28) []) (List.replicate (2 ^ 28) 0)).Replays
        ((List.replicate (2 ^ 28) []).drop (2 ^ 28 - 1)) := by
  obtain ⟨hsize, hreplays⟩ := not_replays_replicate (n := 2 ^ 28) (by omega) (by omega)
  exact ⟨hsize, isLeast_replicate (by omega), hreplays⟩

end Backup

end AFStream.FaultTolerance

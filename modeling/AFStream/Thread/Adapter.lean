/-
# Trace adapters

An adapter hands the records of a trace file to the upstream thread, one for each call
of `ReadRecord`, until it returns `NULL`. `AdapterDisk` reads the file while it is asked
and counts the records it has returned; `AdapterRAM` loads the file into one buffer of
length-prefixed records, up to the same limit, and reads from there. The module follows
the bytes of the buffer and compares what the two deliver.
-/

import AFStream.Foundation.Bytes
import AFStream.Foundation.CText

namespace AFStream.Thread

open AFStream.Foundation

universe u v

/-- `MAX_RECORD_LENGTH` -/
def maxRecordLength : ℕ := 8192

/-- The records that calls of `ReadRecord` return before the first `NULL`. -/
inductive Delivers {Adapter : Type u} {Record : Type v}
    (readRecord : Adapter → Option Record × Adapter) : Adapter → List Record → Prop
  | stop {a a' : Adapter} (hread : readRecord a = (none, a')) : Delivers readRecord a []
  | record {a a' : Adapter} {record : Record} {records : List Record}
      (hread : readRecord a = (some record, a')) (hrest : Delivers readRecord a' records) :
      Delivers readRecord a (record :: records)

/-- There is at most one such sequence. -/
theorem Delivers.unique {Adapter : Type u} {Record : Type v}
    {readRecord : Adapter → Option Record × Adapter} {a : Adapter} {records records' : List Record}
    (h : Delivers readRecord a records) (h' : Delivers readRecord a records') :
    records = records' := by
  induction h generalizing records' with
  | stop hread =>
      cases h' with
      | stop hread' => rfl
      | record hread' hrest' =>
          rw [hread] at hread'
          cases hread'
  | record hread hrest ih =>
      cases h' with
      | stop hread' =>
          rw [hread] at hread'
          cases hread'
      | record hread' hrest' =>
          rw [hread] at hread'
          cases hread'
          rw [ih hrest']

/-! ## Reading from the file -/

/-- `AdapterDisk` -/
structure AdapterDisk where
  /-- What has not been read yet of the file. -/
  file : List UInt8
  buf : Block maxRecordLength
  max : ℕ
  cnt : ℕ

namespace AdapterDisk

/-- `Init`; the constructor sets neither the buffer nor the counter. -/
def init (file : List UInt8) (max : ℕ) (buf : Block maxRecordLength) (cnt : ℕ) : AdapterDisk where
  file := file
  buf := buf
  max := max
  cnt := cnt

/-- The call of `fgets`. At the end of the file the buffer stays as it is. -/
def readLine (a : AdapterDisk) : AdapterDisk :=
  match fgets maxRecordLength a.file with
  | none => a
  | some (chunk, rest) => { a with file := rest, buf := a.buf.write (chunk ++ [0]) }

/-- `ReadRecord`, with the string in the buffer. The `NULL` of the end of the file is
overwritten by either branch that follows it. -/
def readRecord (a : AdapterDisk) : Option (List UInt8) × AdapterDisk :=
  let a := a.readLine
  if a.max ≠ 0 ∧ a.cnt = a.max then (none, a)
  else (some (cString a.buf.bytes), { a with cnt := a.cnt + 1 })

end AdapterDisk

/-! ## Loading the file -/

/-- `AdapterRAM`, without what it only prints. -/
structure AdapterRAM where
  buf : List UInt8
  ptr : ℕ
  totCnt : ℕ
  curCnt : ℕ

namespace AdapterRAM

/-- A record is stored behind its length. -/
def store (a : AdapterRAM) (text : List UInt8) : AdapterRAM :=
  let buf := overwrite a.buf a.ptr (Codec.uint32.encode (UInt32.ofNat text.length))
  let ptr := a.ptr + 4
  { a with
    buf := overwrite buf ptr text
    ptr := ptr + text.length
    totCnt := a.totCnt + 1 }

/-- The loop of `Init`, which reads at most one chunk for each byte of the file. -/
def load (max : ℕ) : ℕ → List UInt8 → AdapterRAM → AdapterRAM
  | 0, _, a => a
  | bound + 1, file, a =>
    match fgets maxRecordLength file with
    | none => a
    | some (chunk, rest) =>
      let text := cString (chunk ++ [0])
      if a.buf.length - a.ptr < 4 + text.length then a
      else
        let a := a.store text
        if max ≠ 0 ∧ a.totCnt = max then a
        else load max bound rest a

/-- `Init`, where the buffer has a size and can be allocated. -/
def init (file : List UInt8) (max bufSize : ℕ) : AdapterRAM :=
  let a := load max file.length file ⟨List.replicate bufSize 0, 0, 0, 0⟩
  { a with ptr := 0 }

/-- `ReadRecord`: an offset into the buffer and a length. -/
def readRecord (a : AdapterRAM) : Option (ℕ × ℕ) × AdapterRAM :=
  if a.curCnt = a.totCnt then (none, a)
  else
    let len := (Codec.uint32.decode (a.buf.drop a.ptr)).toNat
    let data := a.ptr + 4
    (some (data, len), { a with ptr := data + len, curCnt := a.curCnt + 1 })

/-- `ReadRecord`, with the bytes of the record. -/
def readText (a : AdapterRAM) : Option (List UInt8) × AdapterRAM :=
  (a.readRecord.1.map fun record => (a.buf.drop record.1).take record.2, a.readRecord.2)

end AdapterRAM

/-- The records of a file: the strings in its chunks. -/
def fileRecords (file : List UInt8) : List (List UInt8) :=
  (chunks maxRecordLength file).map cString

/-- Bytes of the buffer for some records. -/
def recordsSize (records : List (List UInt8)) : ℕ :=
  (records.map fun record => 4 + record.length).sum

/-- The record that is read next, and those of the rest. -/
theorem fileRecords_of_fgets {file chunk rest : List UInt8}
    (hgets : fgets maxRecordLength file = some (chunk, rest)) :
    fileRecords file = cString chunk :: fileRecords rest := by
  rw [fileRecords, chunks_of_fgets (by decide) hgets, List.map_cons, ← fileRecords]

theorem recordsSize_cons (record : List UInt8) (records : List (List UInt8)) :
    recordsSize (record :: records) = 4 + record.length + recordsSize records := by
  rw [recordsSize, List.map_cons, List.sum_cons, ← recordsSize]

theorem recordsSize_append (first second : List (List UInt8)) :
    recordsSize (first ++ second) = recordsSize first + recordsSize second := by
  rw [recordsSize, List.map_append, List.sum_append]
  rfl

/-! ## What the disk adapter delivers -/

namespace AdapterDisk

variable {a : AdapterDisk} {delivered : List (List UInt8)}

@[simp]
theorem readLine_max (a : AdapterDisk) : a.readLine.max = a.max := by
  rw [readLine]
  split <;> rfl

@[simp]
theorem readLine_cnt (a : AdapterDisk) : a.readLine.cnt = a.cnt := by
  rw [readLine]
  split <;> rfl

/-- The call returns `NULL` when the limit has been reached, and only then. -/
theorem readRecord_eq (a : AdapterDisk) :
    a.readRecord =
      if a.max ≠ 0 ∧ a.cnt = a.max then (none, a.readLine)
      else (some (cString a.readLine.buf.bytes), { a.readLine with cnt := a.cnt + 1 }) := by
  rw [readRecord]
  simp only [readLine_max, readLine_cnt]

/-- Without a limit there is always another record. -/
theorem max_ne_zero_of_delivers (h : Delivers readRecord a delivered) : a.max ≠ 0 := by
  induction h with
  | stop hread =>
      rw [readRecord_eq] at hread
      split_ifs at hread with hlimit
      · exact hlimit.1
      · cases hread
  | record hread hrest ih =>
      rw [readRecord_eq] at hread
      split_ifs at hread with hlimit
      · cases hread
      · cases hread
        rwa [readLine_max] at ih

/-- With a limit there are as many records as it allows, whatever the file is. -/
theorem length_of_delivers (h : Delivers readRecord a delivered) (hcnt : a.cnt ≤ a.max) :
    delivered.length = a.max - a.cnt := by
  induction h with
  | stop hread =>
      rw [readRecord_eq] at hread
      split_ifs at hread with hlimit
      · rw [hlimit.2, Nat.sub_self, List.length_nil]
      · cases hread
  | record hread hrest ih =>
      have hmax := max_ne_zero_of_delivers (.record hread hrest)
      rw [readRecord_eq] at hread
      split_ifs at hread with hlimit
      · cases hread
      · cases hread
        have hne := fun heq => hlimit ⟨hmax, heq⟩
        simp only [readLine_max] at ih
        rw [List.length_cons, ih (by omega)]
        omega

/-- A line that has been read is the next record. -/
theorem readLine_eq {chunk rest : List UInt8}
    (hgets : fgets maxRecordLength a.file = some (chunk, rest)) :
    a.readLine.file = rest ∧ cString a.readLine.buf.bytes = cString chunk := by
  have hfits : (chunk ++ [0]).length ≤ maxRecordLength := by
    rw [List.length_append]
    exact length_chunk_lt (by decide) hgets
  have htake := a.buf.take_write (chunk ++ [0]) [] (by rwa [List.append_nil])
  rw [List.append_nil] at htake
  rw [readLine, hgets]
  refine ⟨rfl, ?_⟩
  change cString (a.buf.write (chunk ++ [0])).bytes = _
  rw [← List.take_append_drop (chunk ++ [0]).length (a.buf.write (chunk ++ [0])).bytes, htake,
    List.append_assoc]
  exact cString_append_zero chunk _

/-- As long as the file has enough records, they are delivered up to the limit. -/
theorem delivers_of_le (hmax : a.max ≠ 0) (hcnt : a.cnt ≤ a.max)
    (hfile : a.max - a.cnt ≤ (fileRecords a.file).length) :
    Delivers readRecord a ((fileRecords a.file).take (a.max - a.cnt)) := by
  induction hleft : a.max - a.cnt generalizing a with
  | zero =>
      apply Delivers.stop
      rw [readRecord_eq, if_pos ⟨hmax, by omega⟩]
  | succ left ih =>
      cases hgets : fgets maxRecordLength a.file with
      | none =>
          rw [fgets_eq_none_iff] at hgets
          rw [hleft, hgets] at hfile
          cases hfile
      | some result =>
          obtain ⟨chunk, rest⟩ := result
          obtain ⟨hrest, hbuf⟩ := readLine_eq hgets
          have hrecords := fileRecords_of_fgets hgets
          rw [hrecords, List.take_succ_cons]
          apply Delivers.record
          · rw [readRecord_eq, if_neg fun hlimit => by omega, hbuf]
          · have hleft' : a.readLine.max - (a.cnt + 1) = left := by
              rw [readLine_max]
              omega
            rw [hrecords, List.length_cons] at hfile
            rw [← hrest] at hfile ⊢
            apply ih
            · change a.readLine.max ≠ 0
              rwa [readLine_max]
            · change a.cnt + 1 ≤ a.readLine.max
              rw [readLine_max]
              omega
            · change a.readLine.max - (a.cnt + 1) ≤ (fileRecords a.readLine.file).length
              omega
            · exact hleft'

end AdapterDisk

/-! ## What the RAM adapter delivers -/

/-- The bytes of a record behind its length. -/
def frame (record : List UInt8) : List UInt8 :=
  Codec.uint32.encode (UInt32.ofNat record.length) ++ record

/-- The bytes of records in the buffer. -/
def layout (records : List (List UInt8)) : List UInt8 := records.flatMap frame

theorem length_frame (record : List UInt8) : (frame record).length = 4 + record.length := by
  rw [frame, List.length_append, Codec.uint32.length_encode]
  rfl

theorem length_layout (records : List (List UInt8)) :
    (layout records).length = recordsSize records := by
  rw [layout, List.length_flatMap, recordsSize]
  congr 1
  apply List.map_congr_left
  intro record _
  exact length_frame record

theorem layout_append (first second : List (List UInt8)) :
    layout (first ++ second) = layout first ++ layout second :=
  List.flatMap_append

theorem layout_cons (record : List UInt8) (records : List (List UInt8)) :
    layout (record :: records) = frame record ++ layout records :=
  List.flatMap_cons

/-- The memory behind some records. -/
theorem drop_layout (done todo : List (List UInt8)) (rest : List UInt8) :
    (layout (done ++ todo) ++ rest).drop (recordsSize done) = layout todo ++ rest := by
  rw [layout_append, List.append_assoc, List.drop_left' (length_layout done)]

/-- The records that are loaded when some have been: they must fit into the room that is
left, and there may be a limit. -/
def loadable (max : ℕ) : ℕ → ℕ → List (List UInt8) → List (List UInt8)
  | _, _, [] => []
  | room, loaded, record :: records =>
    if room < 4 + record.length then []
    else if max ≠ 0 ∧ loaded + 1 = max then [record]
    else record :: loadable max (room - (4 + record.length)) (loaded + 1) records

/-- With enough room only the limit counts. -/
theorem loadable_eq {max room loaded : ℕ} {records : List (List UInt8)}
    (hroom : recordsSize records ≤ room) (hloaded : max ≠ 0 → loaded < max) :
    loadable max room loaded records =
      if max = 0 then records else records.take (max - loaded) := by
  induction records generalizing room loaded with
  | nil => simp [loadable]
  | cons record records ih =>
      rw [recordsSize_cons] at hroom
      rw [loadable, if_neg (by omega)]
      by_cases hmax : max = 0
      · rw [if_neg fun hlimit => hlimit.1 hmax, ih (by omega) fun h => absurd hmax h, if_pos hmax,
          if_pos hmax]
      · have hlt := hloaded hmax
        rw [if_neg hmax]
        by_cases hlimit : loaded + 1 = max
        · rw [if_pos ⟨hmax, hlimit⟩, show max - loaded = 0 + 1 by omega, List.take_succ_cons,
            List.take_zero]
        · rw [if_neg fun h => hlimit h.2, ih (by omega) fun _ => by omega, if_neg hmax,
            show max - loaded = max - (loaded + 1) + 1 by omega, List.take_succ_cons]

theorem loadable_sublist (max room loaded : ℕ) (records : List (List UInt8)) :
    List.Sublist (loadable max room loaded records) records := by
  fun_induction loadable max room loaded records with
  | case1 => exact .slnil
  | case2 => exact List.nil_sublist _
  | case3 room loaded record records hroom hlimit =>
      exact List.Sublist.cons_cons record (List.nil_sublist records)
  | case4 room loaded record records hroom hlimit ih => exact List.Sublist.cons_cons record ih

/-- Records are shorter than the buffer of `fgets`. -/
theorem length_lt_of_mem_fileRecords (file : List UInt8) :
    ∀ record ∈ fileRecords file, record.length < maxRecordLength := by
  induction file using chunks_induction (show 2 ≤ maxRecordLength by decide) with
  | hnil => simp [fileRecords]
  | hchunk file chunk rest hgets ih =>
      intro record hrecord
      rw [fileRecords_of_fgets hgets, List.mem_cons] at hrecord
      rcases hrecord with rfl | hrecord
      · exact (length_cString_le chunk).trans_lt (length_chunk_lt (by decide) hgets)
      · exact ih record hrecord

namespace AdapterRAM

variable {size : ℕ} {a : AdapterRAM} {delivered loaded done todo : List (List UInt8)}

/-- The state of the loop of `Init`: records, and behind them cleared memory. -/
structure Loaded (size : ℕ) (loaded : List (List UInt8)) (a : AdapterRAM) : Prop where
  fits : recordsSize loaded ≤ size
  buf_eq : a.buf = layout loaded ++ List.replicate (size - recordsSize loaded) 0
  ptr_eq : a.ptr = recordsSize loaded
  totCnt_eq : a.totCnt = loaded.length
  curCnt_eq : a.curCnt = 0

theorem Loaded.length_buf (h : a.Loaded size loaded) : a.buf.length = size := by
  have hfits := h.fits
  rw [h.buf_eq, List.length_append, length_layout, List.length_replicate]
  omega

/-- One more record. -/
theorem Loaded.store (h : a.Loaded size loaded) (text : List UInt8)
    (hroom : recordsSize loaded + (4 + text.length) ≤ size) :
    (a.store text).Loaded size (loaded ++ [text]) := by
  have hsize : recordsSize (loaded ++ [text]) = recordsSize loaded + (4 + text.length) := by
    rw [recordsSize_append, recordsSize_cons]
    rfl
  constructor
  · rwa [hsize]
  · have hlength := length_layout loaded
    have hencode := Codec.uint32.length_encode (UInt32.ofNat text.length)
    change _ = 4 at hencode
    have hwritten : (layout loaded ++ Codec.uint32.encode (UInt32.ofNat text.length)).length =
        a.ptr + 4 := by
      rw [List.length_append, hlength, hencode, h.ptr_eq]
    change overwrite (overwrite a.buf a.ptr _) (a.ptr + 4) text = _
    rw [h.buf_eq, h.ptr_eq, ← hlength, overwrite_append, hlength, ← h.ptr_eq, ← hwritten,
      overwrite_append, List.drop_replicate, List.drop_replicate, hencode, hsize, layout_append,
      layout_cons, frame]
    have hrest : size - (a.ptr + 4 + text.length) =
        size - (recordsSize loaded + (4 + text.length)) := by
      rw [h.ptr_eq, Nat.add_assoc]
    simp [layout, Nat.sub_sub, hrest]
  · rw [hsize, AdapterRAM.store, h.ptr_eq]
    exact Nat.add_assoc _ _ _
  · rw [List.length_append, List.length_singleton, ← h.totCnt_eq]
    rfl
  · exact h.curCnt_eq

/-- The loop of `Init` loads what can be loaded. -/
theorem Loaded.load (h : a.Loaded size loaded) (max : ℕ) {bound : ℕ} {file : List UInt8}
    (hbound : file.length ≤ bound) :
    (a.load max bound file).Loaded size
      (loaded ++ loadable max (size - recordsSize loaded) loaded.length (fileRecords file)) := by
  induction bound generalizing file a loaded with
  | zero =>
      rw [List.length_eq_zero_iff.mp (Nat.le_zero.mp hbound)]
      simpa [AdapterRAM.load, fileRecords, loadable] using h
  | succ bound ih =>
      rw [AdapterRAM.load]
      cases hgets : fgets maxRecordLength file with
      | none =>
          rw [fgets_eq_none_iff.mp hgets]
          simpa [fileRecords, loadable] using h
      | some result =>
          obtain ⟨chunk, rest⟩ := result
          have hlt := length_rest_lt (by decide) hgets
          have htext : cString (chunk ++ [0]) = cString chunk := cString_append_zero chunk []
          have hfits := h.fits
          have htot : (a.store (cString chunk)).totCnt = loaded.length + 1 :=
            congrArg (· + 1) h.totCnt_eq
          rw [fileRecords_of_fgets hgets, loadable]
          simp only [htext, h.length_buf, h.ptr_eq, htot]
          by_cases hroom : size - recordsSize loaded < 4 + (cString chunk).length
          · rw [if_pos hroom, if_pos hroom, List.append_nil]
            exact h
          · have hstore := h.store (cString chunk) (by omega)
            rw [if_neg hroom, if_neg hroom]
            by_cases hlimit : max ≠ 0 ∧ loaded.length + 1 = max
            · rw [if_pos hlimit, if_pos hlimit]
              exact hstore
            · have hrest := ih hstore (show rest.length ≤ bound by omega)
              rw [recordsSize_append, recordsSize_cons, List.length_append, List.append_assoc,
                List.singleton_append, ← Nat.sub_sub] at hrest
              rw [if_neg hlimit, if_neg hlimit]
              exact hrest

/-- The buffer holds records, some of which have been read. -/
structure Holds (size : ℕ) (done todo : List (List UInt8)) (a : AdapterRAM) : Prop where
  buf_eq : a.buf = layout (done ++ todo) ++
    List.replicate (size - recordsSize (done ++ todo)) 0
  ptr_eq : a.ptr = recordsSize done
  totCnt_eq : a.totCnt = (done ++ todo).length
  curCnt_eq : a.curCnt = done.length

/-- What has been loaded, before the first call. -/
theorem init_holds (file : List UInt8) (max size : ℕ) :
    (init file max size).Holds size [] (loadable max size 0 (fileRecords file)) := by
  have hstart : Loaded size [] ⟨List.replicate size 0, 0, 0, 0⟩ :=
    ⟨Nat.zero_le size, rfl, rfl, rfl, rfl⟩
  have h := hstart.load max (le_refl file.length)
  exact ⟨h.buf_eq, rfl, h.totCnt_eq, h.curCnt_eq⟩

/-- The memory behind the length of the next record. -/
theorem Holds.drop_data {record : List UInt8} (h : a.Holds size done (record :: todo)) :
    a.buf.drop (recordsSize done) = Codec.uint32.encode (UInt32.ofNat record.length) ++
        (record ++ layout todo ++
          List.replicate (size - recordsSize (done ++ record :: todo)) 0) ∧
      a.buf.drop (recordsSize done + 4) = record ++ layout todo ++
        List.replicate (size - recordsSize (done ++ record :: todo)) 0 := by
  have hdrop : a.buf.drop (recordsSize done) =
      Codec.uint32.encode (UInt32.ofNat record.length) ++ (record ++ layout todo ++
        List.replicate (size - recordsSize (done ++ record :: todo)) 0) := by
    rw [h.buf_eq, drop_layout, layout_cons, frame]
    simp only [List.append_assoc]
  refine ⟨hdrop, ?_⟩
  rw [← List.drop_drop, hdrop]
  exact List.drop_left' (Codec.uint32.length_encode _)

/-- The next record. -/
theorem Holds.readRecord {record : List UInt8} (h : a.Holds size done (record :: todo))
    (hlength : record.length < maxRecordLength) :
    ∃ a', a.readRecord = (some (recordsSize done + 4, record.length), a') ∧
      a'.buf = a.buf ∧ a'.Holds size (done ++ [record]) todo := by
  have hlen : (Codec.uint32.decode (a.buf.drop a.ptr)).toNat = record.length := by
    rw [h.ptr_eq, h.drop_data.1, Codec.uint32_decode_append, UInt32.toNat_ofNat',
      Nat.mod_eq_of_lt (hlength.trans (by decide))]
  have hne : a.curCnt ≠ a.totCnt := by
    rw [h.curCnt_eq, h.totCnt_eq, List.length_append, List.length_cons]
    omega
  refine ⟨{ a with ptr := a.ptr + 4 + record.length, curCnt := a.curCnt + 1 }, ?_, rfl, ?_⟩
  · rw [AdapterRAM.readRecord, if_neg hne]
    simp only [hlen]
    rw [h.ptr_eq]
  · constructor
    · rw [List.append_assoc]
      exact h.buf_eq
    · rw [recordsSize_append, recordsSize_cons, h.ptr_eq]
      exact Nat.add_assoc _ _ _
    · rw [List.append_assoc]
      exact h.totCnt_eq
    · rw [List.length_append, ← h.curCnt_eq]
      rfl

/-- All records are delivered. -/
theorem Holds.delivers (h : a.Holds size done todo)
    (hlength : ∀ record ∈ todo, record.length < maxRecordLength) :
    Delivers readText a todo := by
  induction todo generalizing done a with
  | nil =>
      have hstop : a.curCnt = a.totCnt := by
        rw [h.curCnt_eq, h.totCnt_eq, List.append_nil]
      have hread : a.readText = (none, a) := by
        rw [readText, AdapterRAM.readRecord, if_pos hstop]
        rfl
      exact .stop hread
  | cons record todo ih =>
      obtain ⟨a', hread, hbuf, h'⟩ := h.readRecord (hlength record List.mem_cons_self)
      have htext : a.readText = (some record, a') := by
        rw [readText, hread]
        change (some ((a.buf.drop (recordsSize done + 4)).take record.length), a') = _
        rw [h.drop_data.2, List.append_assoc, List.take_left]
      exact .record htext (ih h' fun r hr => hlength r (List.mem_cons_of_mem record hr))

/-- Every call sequence ends with what was loaded. -/
theorem init_delivers (file : List UInt8) (max size : ℕ) :
    Delivers readText (init file max size) (loadable max size 0 (fileRecords file)) := by
  apply (init_holds file max size).delivers
  intro record hrecord
  exact length_lt_of_mem_fileRecords file record
    ((loadable_sublist max size 0 (fileRecords file)).mem hrecord)

end AdapterRAM

/-! ## The two adapters -/

/-- **Both adapters deliver the same records.** For every file, every limit and a buffer with
room for the file: the two sequences end and are the same exactly when there is a limit and
the file has that many records. At the end of the file the disk adapter does not stop. -/
theorem adapters_agree_iff (file : List UInt8) (max bufSize : ℕ) (buf : Block maxRecordLength)
    (hroom : recordsSize (fileRecords file) ≤ bufSize) :
    (∃ records, Delivers AdapterDisk.readRecord (.init file max buf 0) records ∧
      Delivers AdapterRAM.readText (.init file max bufSize) records) ↔
      max ≠ 0 ∧ max ≤ (fileRecords file).length := by
  have hram := AdapterRAM.init_delivers file max bufSize
  constructor
  · rintro ⟨records, hdisk, hram'⟩
    have hmax : max ≠ 0 := AdapterDisk.max_ne_zero_of_delivers hdisk
    have hlength : records.length = max := AdapterDisk.length_of_delivers hdisk (Nat.zero_le max)
    rw [loadable_eq hroom fun _ => Nat.pos_of_ne_zero hmax, if_neg hmax] at hram
    rw [hram'.unique hram, List.length_take] at hlength
    exact ⟨hmax, by omega⟩
  · rintro ⟨hmax, hle⟩
    rw [loadable_eq hroom fun _ => Nat.pos_of_ne_zero hmax, if_neg hmax] at hram
    refine ⟨_, ?_, hram⟩
    exact AdapterDisk.delivers_of_le (a := .init file max buf 0) hmax (Nat.zero_le max) hle

/-- A file of two lines. -/
def twoLines : List UInt8 := [97, newline, 98, newline]

/-- A file of two lines and a limit of two records. -/
theorem adapters_agree_two_lines :
    recordsSize (fileRecords twoLines) ≤ 64 ∧
      ∃ records, Delivers AdapterDisk.readRecord (.init twoLines 2 .zero 0) records ∧
        Delivers AdapterRAM.readText (.init twoLines 2 64) records := by
  have hroom : recordsSize (fileRecords twoLines) ≤ 64 := by decide
  exact ⟨hroom, (adapters_agree_iff twoLines 2 64 .zero hroom).mpr (by decide)⟩

/-- A file of one line. -/
def oneLine : List UInt8 := [97, newline]

/-- Without a limit the disk adapter repeats the line forever. -/
theorem disk_never_stops_one_line :
    recordsSize (fileRecords oneLine) ≤ 64 ∧
      ¬ ∃ records, Delivers AdapterDisk.readRecord (.init oneLine 0 .zero 0) records ∧
        Delivers AdapterRAM.readText (.init oneLine 0 64) records := by
  refine ⟨by decide, ?_⟩
  rintro ⟨records, hdisk, -⟩
  exact AdapterDisk.max_ne_zero_of_delivers hdisk rfl

end AFStream.Thread

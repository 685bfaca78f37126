/-
# What the RAM adapter replays

The loop that loads the trace file subtracts the offset from the size of the buffer and writes
behind the offset. The module follows both with the limits that memory and unsigned numbers
have, and says in terms of the file alone which records the calls of `ReadRecord` return.
-/

import AFStream.Thread.Adapter

namespace AFStream.Thread

open AFStream.Foundation

namespace AdapterRAM

/-- The loop of `Init`. A free space that would wrap around and a write outside the buffer are
undefined. -/
def loadChecked (max : ℕ) : ℕ → List UInt8 → AdapterRAM → Option AdapterRAM
  | 0, _, a => some a
  | bound + 1, file, a =>
    match fgets maxRecordLength file with
    | none => some a
    | some (chunk, rest) =>
      let text := cString (chunk ++ [0])
      if a.buf.length < a.ptr then none
      else if a.buf.length - a.ptr < 4 + text.length then some a
      else if a.buf.length < a.ptr + 4 + text.length then none
      else
        let a := a.store text
        if max ≠ 0 ∧ a.totCnt = max then some a
        else loadChecked max bound rest a

/-- `Init` -/
def initChecked (file : List UInt8) (max bufSize : ℕ) : Option AdapterRAM := do
  let a ← loadChecked max file.length file ⟨List.replicate bufSize 0, 0, 0, 0⟩
  return { a with ptr := 0 }

/-- What a call of `ReadRecord` hands out: a length and the bytes it covers. -/
def readData (a : AdapterRAM) : Option (ℕ × List UInt8) :=
  a.readRecord.1.map fun record => (record.2, (a.buf.drop record.1).take record.2)

/-- What the call with a number hands out when one call after the other is made. -/
def nthCall (a : AdapterRAM) : ℕ → Option (ℕ × List UInt8)
  | 0 => a.readData
  | k + 1 => a.readRecord.2.nthCall k

end AdapterRAM

/-- The numbers of records that fit into a buffer and do not exceed a limit. -/
def fittingCounts (records : List (List UInt8)) (max bufSize : ℕ) : Set ℕ :=
  {n | n ≤ records.length ∧ recordsSize (records.take n) ≤ bufSize ∧ (max ≠ 0 → n ≤ max)}

/-! ## Loading -/

/-- What can be loaded is the longest part of the records that fits. -/
theorem loadable_isGreatest {max room loaded : ℕ} (hloaded : max ≠ 0 → loaded < max)
    (records : List (List UInt8)) :
    ∃ n, loadable max room loaded records = records.take n ∧
      IsGreatest {n | n ≤ records.length ∧ recordsSize (records.take n) ≤ room ∧
        (max ≠ 0 → loaded + n ≤ max)} n := by
  induction records generalizing room loaded with
  | nil =>
      refine ⟨0, rfl, ⟨le_rfl, Nat.zero_le room, fun hmax => (hloaded hmax).le⟩, ?_⟩
      intro n hn
      exact hn.1
  | cons record records ih =>
      rw [loadable]
      have hsize : ∀ n, recordsSize ((record :: records).take (n + 1)) =
          4 + record.length + recordsSize (records.take n) := by
        intro n
        rw [List.take_succ_cons, recordsSize_cons]
      by_cases hroom : room < 4 + record.length
      · rw [if_pos hroom]
        refine ⟨0, rfl, ⟨Nat.zero_le _, Nat.zero_le room, fun hmax => (hloaded hmax).le⟩, ?_⟩
        rintro n ⟨-, hfits, -⟩
        cases n with
        | zero => exact le_rfl
        | succ n =>
            rw [hsize] at hfits
            omega
      · rw [if_neg hroom]
        by_cases hlimit : max ≠ 0 ∧ loaded + 1 = max
        · rw [if_pos hlimit]
          refine ⟨1, rfl, ⟨?_, ?_, fun _ => hlimit.2.le⟩, ?_⟩
          · exact Nat.succ_le_succ (Nat.zero_le _)
          · rw [hsize]
            exact Nat.not_lt.mp hroom
          · rintro n ⟨-, -, hn⟩
            have hle := hn hlimit.1
            omega
        · rw [if_neg hlimit]
          have hnext : max ≠ 0 → loaded + 1 < max := by
            intro hmax
            exact Nat.lt_of_le_of_ne (hloaded hmax) fun heq => hlimit ⟨hmax, heq⟩
          obtain ⟨n, hn, hgreatest⟩ := @ih (room - (4 + record.length)) (loaded + 1) hnext
          obtain ⟨⟨hlength, hfits, hmax⟩, hupper⟩ := hgreatest
          refine ⟨n + 1, ?_, ⟨?_, ?_, ?_⟩, ?_⟩
          · rw [hn, List.take_succ_cons]
          · exact Nat.succ_le_succ hlength
          · rw [hsize]
            omega
          · intro h
            have hle := hmax h
            omega
          · rintro m ⟨hlength', hfits', hmax'⟩
            cases m with
            | zero => exact Nat.zero_le _
            | succ m =>
                rw [hsize] at hfits'
                apply Nat.succ_le_succ
                refine hupper ⟨Nat.le_of_succ_le_succ hlength', by omega, fun h => ?_⟩
                have hle := hmax' h
                omega

namespace AdapterRAM

variable {size : ℕ} {a : AdapterRAM} {loaded done todo : List (List UInt8)}

/-- The loop never leaves the buffer, and the free space never wraps around. -/
theorem Loaded.loadChecked (h : a.Loaded size loaded) (max bound : ℕ) (file : List UInt8) :
    a.loadChecked max bound file = some (a.load max bound file) := by
  induction bound generalizing file a loaded with
  | zero => rfl
  | succ bound ih =>
      rw [AdapterRAM.loadChecked, AdapterRAM.load]
      cases hgets : fgets maxRecordLength file with
      | none => rfl
      | some result =>
          obtain ⟨chunk, rest⟩ := result
          have hptr : ¬ a.buf.length < a.ptr := by
            rw [h.length_buf, h.ptr_eq]
            exact Nat.not_lt.mpr h.fits
          dsimp only
          rw [if_neg hptr]
          by_cases hroom : a.buf.length - a.ptr < 4 + (cString (chunk ++ [0])).length
          · rw [if_pos hroom, if_pos hroom]
          · have hinside : ¬ a.buf.length < a.ptr + 4 + (cString (chunk ++ [0])).length := by
              omega
            rw [if_neg hroom, if_neg hroom, if_neg hinside]
            split_ifs with hlimit
            · rfl
            · rw [h.length_buf, h.ptr_eq] at hinside
              exact ih (h.store (cString (chunk ++ [0])) (by omega)) rest

theorem initChecked_eq (file : List UInt8) (max size : ℕ) :
    initChecked file max size = some (init file max size) := by
  have hstart : Loaded size [] ⟨List.replicate size 0, 0, 0, 0⟩ :=
    ⟨Nat.zero_le size, rfl, rfl, rfl, rfl⟩
  rw [initChecked, hstart.loadChecked]
  rfl

/-! ## Reading -/

/-- The calls hand out the records that are left, and nothing afterwards. -/
theorem Holds.nthCall (h : a.Holds size done todo)
    (hlength : ∀ record ∈ todo, record.length < maxRecordLength) (k : ℕ) :
    a.nthCall k = todo[k]?.map fun record => (record.length, record) := by
  induction k generalizing done todo a with
  | zero =>
      cases todo with
      | nil =>
          have hstop : a.curCnt = a.totCnt := by
            rw [h.curCnt_eq, h.totCnt_eq, List.append_nil]
          rw [AdapterRAM.nthCall, readData, AdapterRAM.readRecord, if_pos hstop]
          rfl
      | cons record todo =>
          obtain ⟨a', hread, -, -⟩ := h.readRecord (hlength record List.mem_cons_self)
          rw [AdapterRAM.nthCall, readData, hread, Option.map_some, h.drop_data.2,
            List.append_assoc, List.take_left]
          rfl
  | succ k ih =>
      cases todo with
      | nil =>
          have hstop : a.curCnt = a.totCnt := by
            rw [h.curCnt_eq, h.totCnt_eq, List.append_nil]
          rw [AdapterRAM.nthCall, AdapterRAM.readRecord, if_pos hstop]
          exact ih h hlength
      | cons record todo =>
          obtain ⟨a', hread, -, h'⟩ := h.readRecord (hlength record List.mem_cons_self)
          rw [AdapterRAM.nthCall, hread]
          exact ih h' fun r hr => hlength r (List.mem_cons_of_mem record hr)

/-- **The adapter replays the longest part that fits.** For every file, every limit and every
size of the buffer: loading stays within the buffer and its free space never wraps around, and
the calls of `ReadRecord` return the records of the file, as many as fit into the buffer
without exceeding the limit, and nothing from then on. -/
theorem replays_longest_part (file : List UInt8) (max bufSize : ℕ) :
    ∃ a, initChecked file max bufSize = some a ∧
      ∃ n, IsGreatest (fittingCounts (fileRecords file) max bufSize) n ∧
        ∀ k, a.nthCall k =
          ((fileRecords file).take n)[k]?.map fun record => (record.length, record) := by
  refine ⟨_, initChecked_eq file max bufSize, ?_⟩
  obtain ⟨n, hn, hgreatest⟩ := @loadable_isGreatest max bufSize 0 Nat.pos_of_ne_zero
    (fileRecords file)
  simp only [Nat.zero_add] at hgreatest
  refine ⟨n, hgreatest, fun k => ?_⟩
  have h := init_holds file max bufSize
  rw [hn] at h
  apply h.nthCall
  intro record hrecord
  exact length_lt_of_mem_fileRecords file record (List.mem_of_mem_take hrecord)

end AdapterRAM

end AFStream.Thread

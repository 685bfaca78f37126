/-
# The mini-batched trace thread

`UpThreadTrace` sends each record of its adapter on at once. `UpThreadTraceMinibatch`
first stages records in an array, and sends a batch when the next record after it
arrives. Both share the router, the rings and the way a record is assigned to a slot,
whatever the assignment of the record type does. The module runs both main loops on one
trace and compares what they insert into the rings.
-/

import AFStream.Queues.ZeroRingBuffer
import AFStream.WrapItem
import Mathlib.Data.List.Count
import Mathlib.Data.List.TakeWhile

namespace AFStream.Thread

open AFStream.Queues

universe u

/-! ## Routing and insertion -/

/-- `RouterRR` -/
structure RouterRR where
  cur : ℤ
  max : ℤ

namespace RouterRR

/-- `GetDestination` -/
def getDestination (router : RouterRR) : ℤ × RouterRR :=
  let cur := (router.cur + 1).tmod router.max
  (cur, { router with cur := cur })

end RouterRR

/-- An item that was inserted into a ring. -/
structure Insertion (T : Type u) where
  queue : ℤ
  itemType : ItemType
  data : T

/-- What both threads share: the assignment of the record type, what memory holds, and how
many compute threads there are. -/
structure TraceConfig (T : Type u) where
  /-- `operator=` of a record, from the old and the new value. -/
  assign : T → T → T
  /-- A cleared slot. -/
  zero : T
  /-- What the item of the final message holds. -/
  garbage : T
  numComputeThread : ℕ

section Output

variable {T : Type u}

/-- The router, and all insertions in order. -/
structure TraceOutput (T : Type u) where
  router : RouterRR
  inserted : List (Insertion T)

namespace TraceOutput

variable (config : TraceConfig T)

/-- The data of the slot that a ring hands out next: what was there one turn before. -/
def slot (output : TraceOutput T) (queue : ℤ) : T :=
  let earlier := output.inserted.filter fun insertion => insertion.queue = queue
  if earlier.length < rbSize then config.zero
  else (earlier[earlier.length - rbSize]?.map Insertion.data).getD config.zero

/-- `Emit` -/
def emit (output : TraceOutput T) (data : T) : TraceOutput T :=
  let (index, router) := output.router.getDestination
  { router := router
    inserted := output.inserted ++
      [⟨index, .normal, config.assign (output.slot config index) data⟩] }

/-- One message of `EmitTimeout`: the data of the slot stay. -/
def timeout (output : TraceOutput T) (queue : ℤ) : TraceOutput T :=
  { output with
    inserted := output.inserted ++ [⟨queue, .timeout, output.slot config queue⟩] }

/-- `EmitTimeout` -/
def emitTimeout (output : TraceOutput T) : TraceOutput T :=
  (List.range config.numComputeThread).foldl (fun output (i : ℕ) => timeout config output i) output

/-- One `Insert` of the final message. -/
def insertFinish (output : TraceOutput T) (queue : ℤ) : TraceOutput T :=
  { output with
    inserted := output.inserted ++
      [⟨queue, .finish, config.assign (output.slot config queue) config.garbage⟩] }

/-- The final messages. -/
def finish (output : TraceOutput T) : TraceOutput T :=
  (List.range config.numComputeThread).foldl (fun output (i : ℕ) => insertFinish config output i)
    output

/-- The records in a ring in front of the final message. -/
def normals (output : TraceOutput T) (queue : ℤ) : List T :=
  (((output.inserted.filter fun insertion => insertion.queue = queue).takeWhile
    fun insertion => insertion.itemType ≠ .finish).filter
      fun insertion => insertion.itemType = .normal).map Insertion.data

end TraceOutput

/-! ## The two main loops -/

/-- `UpThreadTrace::ThreadMainHandler` on the records of an adapter. -/
def traceMainHandler (config : TraceConfig T) (router : RouterRR) (trace : List T) :
    TraceOutput T :=
  (trace.foldl (TraceOutput.emit config) ⟨router, []⟩).finish config

/-- `UpThreadTraceMinibatch` in its main loop. -/
structure Minibatch (T : Type u) where
  output : TraceOutput T
  event : ℕ
  batchData : ℕ → T

namespace Minibatch

variable (config : TraceConfig T) (batchSize : ℕ)

/-- The staged batch is sent, and a punctuation behind it. -/
def sendBatch (s : Minibatch T) : Minibatch T :=
  { s with
    output := ((List.range batchSize).foldl
      (fun output i => output.emit config (s.batchData i)) s.output).emitTimeout config }

/-- One iteration, for a record of the adapter. -/
def iterate (s : Minibatch T) (data : T) : Minibatch T :=
  let s := if s.event ≠ 0 ∧ s.event % batchSize = 0 then s.sendBatch config batchSize else s
  let cell := s.event % batchSize
  { s with
    batchData := Function.update s.batchData cell (config.assign (s.batchData cell) data)
    event := (s.event + 1) % 2 ^ 64 }

/-- `UpThreadTraceMinibatch::ThreadMainHandler` without recovery, on the records of an
adapter. -/
def mainHandler (router : RouterRR) (trace : List T) : TraceOutput T :=
  (trace.foldl (iterate config batchSize) ⟨⟨router, []⟩, 0, fun _ => config.zero⟩).output.finish
    config

end Minibatch

/-! ## Counting records -/

namespace TraceOutput

variable {config : TraceConfig T} {output output' : TraceOutput T}

/-- How many records have been inserted. -/
def count (output : TraceOutput T) : ℕ :=
  output.inserted.countP fun insertion => insertion.itemType = .normal

/-- No final message has been inserted. -/
def Open (output : TraceOutput T) : Prop :=
  ∀ insertion ∈ output.inserted, insertion.itemType ≠ .finish

theorem count_emit (config : TraceConfig T) (output : TraceOutput T) (data : T) :
    (output.emit config data).count = output.count + 1 := by
  rw [count, emit, List.countP_append]
  rfl

theorem Open.emit (h : output.Open) (data : T) : (output.emit config data).Open := by
  intro insertion hinsertion
  rcases List.mem_append.mp hinsertion with hold | hnew
  · exact h insertion hold
  · rw [List.mem_singleton.mp hnew]
    exact ItemType.noConfusion

/-- Any number of records. -/
theorem foldl_emit (config : TraceConfig T) (output : TraceOutput T) (records : List T) :
    (records.foldl (TraceOutput.emit config) output).count = output.count + records.length := by
  induction records generalizing output with
  | nil => rfl
  | cons data records ih =>
      rw [List.foldl_cons, ih, count_emit, List.length_cons]
      omega

theorem Open.foldl_emit (config : TraceConfig T) (h : output.Open) (records : List T) :
    (records.foldl (TraceOutput.emit config) output).Open := by
  induction records generalizing output with
  | nil => exact h
  | cons data records ih => exact ih (h.emit data)

/-- Punctuations are no records. -/
theorem emitTimeout_spec (config : TraceConfig T) (h : output.Open) :
    (output.emitTimeout config).count = output.count ∧ (output.emitTimeout config).Open := by
  rw [emitTimeout]
  induction List.range config.numComputeThread generalizing output with
  | nil => exact ⟨rfl, h⟩
  | cons i rest ih =>
      have hopen : (timeout config output i).Open := by
        intro insertion hinsertion
        rcases List.mem_append.mp hinsertion with hold | hnew
        · exact h insertion hold
        · rw [List.mem_singleton.mp hnew]
          exact ItemType.noConfusion
      have hcount : (timeout config output i).count = output.count := by
        rw [count, timeout, List.countP_append]
        rfl
      obtain ⟨hrest, hopen'⟩ := ih hopen
      exact ⟨hrest.trans hcount, hopen'⟩

/-- Behind the final messages there is nothing else. -/
theorem inserted_finish (config : TraceConfig T) (output : TraceOutput T) :
    ∃ last, (output.finish config).inserted = output.inserted ++ last ∧
      ∀ insertion ∈ last, insertion.itemType = .finish := by
  rw [finish]
  induction List.range config.numComputeThread generalizing output with
  | nil => exact ⟨[], (List.append_nil _).symm, by simp⟩
  | cons i rest ih =>
      obtain ⟨last, hlast, hfinish⟩ := ih (insertFinish config output i)
      refine ⟨_ :: last, hlast.trans (List.append_assoc _ _ _), ?_⟩
      intro insertion hinsertion
      rcases List.mem_cons.mp hinsertion with rfl | hrest
      · rfl
      · exact hfinish insertion hrest

/-- The records of a ring are those inserted before the final messages. -/
theorem normals_finish (config : TraceConfig T) (h : output.Open) (queue : ℤ) :
    (output.finish config).normals queue =
      ((output.inserted.filter fun insertion => insertion.itemType = .normal).filter
        fun insertion => insertion.queue = queue).map Insertion.data := by
  obtain ⟨last, hlast, hfinish⟩ := inserted_finish config output
  have hend : (last.filter fun insertion => insertion.queue = queue).takeWhile
      (fun insertion => insertion.itemType ≠ .finish) = [] := by
    rw [List.takeWhile_eq_nil_iff]
    intro hlength hne
    have hmem := (List.mem_filter.mp (List.getElem_mem hlength)).1
    simp [hfinish _ hmem] at hne
  rw [normals, hlast, List.filter_append, List.takeWhile_append_of_pos, hend, List.append_nil,
    List.filter_comm]
  intro insertion hinsertion
  simpa using h insertion (List.mem_filter.mp hinsertion).1

/-- Threads that insert the same records into each ring insert equally many. -/
theorem count_eq_of_normals (h : output.Open) (h' : output'.Open)
    (hsame : ∀ queue, (output.finish config).normals queue =
      (output'.finish config).normals queue) : output.count = output'.count := by
  have hperm : List.Perm
      ((output.inserted.filter fun insertion => insertion.itemType = .normal).map Insertion.queue)
      ((output'.inserted.filter fun insertion => insertion.itemType = .normal).map
        Insertion.queue) := by
    rw [List.perm_iff_count]
    intro queue
    have hlength := congrArg List.length (hsame queue)
    rw [normals_finish config h, normals_finish config h', List.length_map, List.length_map,
      ← List.countP_eq_length_filter, ← List.countP_eq_length_filter] at hlength
    rw [List.count_eq_countP, List.countP_map, List.count_eq_countP, List.countP_map]
    exact hlength
  have hlength := hperm.length_eq
  rwa [List.length_map, List.length_map, ← List.countP_eq_length_filter,
    ← List.countP_eq_length_filter] at hlength

end TraceOutput

namespace Minibatch

variable {config : TraceConfig T} {batchSize : ℕ} {s : Minibatch T}

/-- The state after some records: fewer have been sent, because the last batch is still
staged. The event counter is a `uint64_t`. -/
structure Behind (batchSize processed : ℕ) (s : Minibatch T) : Prop where
  opened : s.output.Open
  event_eq : s.event = processed % 2 ^ 64
  count_zero : processed = 0 → s.output.count = 0
  count_le : processed ≠ 0 →
    s.output.count + (if s.event = 0 then 1 else (s.event - 1) % batchSize + 1) ≤ processed

theorem Behind.count_lt {processed : ℕ} (h : s.Behind batchSize processed)
    (hprocessed : processed ≠ 0) : s.output.count < processed := by
  have hle := h.count_le hprocessed
  split_ifs at hle <;> omega

theorem count_sendBatch (config : TraceConfig T) (batchSize : ℕ) (hopen : s.output.Open) :
    (s.sendBatch config batchSize).output.count = s.output.count + batchSize ∧
      (s.sendBatch config batchSize).output.Open := by
  have hmap : (List.range batchSize).foldl
      (fun output i => output.emit config (s.batchData i)) s.output =
      ((List.range batchSize).map s.batchData).foldl (TraceOutput.emit config) s.output := by
    rw [List.foldl_map]
  have hspec := TraceOutput.emitTimeout_spec config
    (hopen.foldl_emit config ((List.range batchSize).map s.batchData))
  rw [sendBatch, hmap]
  refine ⟨hspec.1.trans ?_, hspec.2⟩
  rw [TraceOutput.foldl_emit, List.length_map, List.length_range]

/-- How many records are staged, from one event to the next. -/
theorem succ_mod_eq (hbatch : 0 < batchSize) (event : ℕ) :
    (event + 1) % batchSize =
      if event % batchSize + 1 = batchSize then 0 else event % batchSize + 1 := by
  have hlt := Nat.mod_lt event hbatch
  rw [← Nat.mod_add_mod]
  split_ifs with hfull
  · rw [hfull, Nat.mod_self]
  · exact Nat.mod_eq_of_lt (by omega)

/-- A batch that is sent has been staged completely, so what is staged now and what was
sent are together no more than what was processed. -/
theorem Behind.send (hbatch : 0 < batchSize) {processed : ℕ} (h : s.Behind batchSize processed)
    (config : TraceConfig T) (data : T) :
    (s.iterate config batchSize data).output.Open ∧
      (s.iterate config batchSize data).output.count + s.event % batchSize ≤ processed := by
  rw [iterate]
  by_cases hsend : s.event ≠ 0 ∧ s.event % batchSize = 0
  · obtain ⟨hcount, hopen⟩ := count_sendBatch config batchSize h.opened
    have hprocessed : processed ≠ 0 := by
      intro hzero
      rw [h.event_eq, hzero] at hsend
      exact hsend.1 rfl
    have hle := h.count_le hprocessed
    have hstaged := succ_mod_eq hbatch (s.event - 1)
    rw [Nat.sub_add_cancel (Nat.pos_of_ne_zero hsend.1), hsend.2] at hstaged
    rw [if_neg hsend.1] at hle
    rw [if_pos hsend]
    refine ⟨hopen, ?_⟩
    change (s.sendBatch config batchSize).output.count + _ ≤ _
    rw [hcount, hsend.2]
    split_ifs at hstaged with hfull
    omega
  · rw [if_neg hsend]
    refine ⟨h.opened, ?_⟩
    change s.output.count + _ ≤ _
    by_cases hprocessed : processed = 0
    · have hzero : s.event = 0 := by
        rw [h.event_eq, hprocessed]
        rfl
      rw [h.count_zero hprocessed, hzero, Nat.zero_mod]
      exact Nat.zero_le _
    · have hle := h.count_le hprocessed
      by_cases hzero : s.event = 0
      · rw [hzero, Nat.zero_mod]
        omega
      · have hstaged := succ_mod_eq hbatch (s.event - 1)
        rw [Nat.sub_add_cancel (Nat.pos_of_ne_zero hzero)] at hstaged
        rw [if_neg hzero] at hle
        split_ifs at hstaged with hfull
        · exact absurd ⟨hzero, hstaged⟩ hsend
        · omega

/-- One iteration. -/
theorem Behind.iterate (hbatch : 0 < batchSize) {processed : ℕ} (h : s.Behind batchSize processed)
    (data : T) : (s.iterate config batchSize data).Behind batchSize (processed + 1) := by
  obtain ⟨hopen, hle⟩ := h.send hbatch config data
  have hevent : (s.iterate config batchSize data).event = (s.event + 1) % 2 ^ 64 := by
    rw [Minibatch.iterate]
    split_ifs <;> rfl
  have hlt : s.event < 2 ^ 64 := by
    rw [h.event_eq]
    exact Nat.mod_lt _ (by decide)
  constructor
  · exact hopen
  · rw [hevent, h.event_eq, Nat.mod_add_mod]
  · intro hzero
    cases hzero
  · intro _
    rw [hevent]
    split_ifs with hwrap
    · omega
    · have hnext : (s.event + 1) % 2 ^ 64 = s.event + 1 := by omega
      rw [hnext, Nat.add_sub_cancel]
      omega

/-- After a whole trace. -/
theorem behind_foldl (hbatch : 0 < batchSize) (config : TraceConfig T) (router : RouterRR)
    (trace : List T) :
    (trace.foldl (Minibatch.iterate config batchSize)
      ⟨⟨router, []⟩, 0, fun _ => config.zero⟩).Behind batchSize trace.length := by
  induction trace using List.reverseRecOn with
  | nil => exact ⟨by simp [TraceOutput.Open], rfl, fun _ => rfl, fun h => absurd rfl h⟩
  | append_singleton trace data ih =>
      rw [List.foldl_concat, List.length_append]
      exact ih.iterate hbatch data

end Minibatch

/-- **Mini-batching.** For every record type and its assignment, every trace, every batch
size, every number of compute threads and every state of the router: the two threads insert
the same records into each ring exactly when there are no records. The batch that is staged
at the end of the trace is never sent. -/
theorem minibatch_same_records_iff (config : TraceConfig T) (batchSize : ℕ)
    (hbatch : 0 < batchSize) (router : RouterRR) (trace : List T) :
    (∀ queue, (Minibatch.mainHandler config batchSize router trace).normals queue =
      (traceMainHandler config router trace).normals queue) ↔ trace = [] := by
  constructor
  · intro hsame
    by_contra htrace
    have hbehind := Minibatch.behind_foldl hbatch config router trace
    have hopen : TraceOutput.Open (⟨router, []⟩ : TraceOutput T) := by simp [TraceOutput.Open]
    have hcount :=
      TraceOutput.count_eq_of_normals hbehind.opened (hopen.foldl_emit config trace) hsame
    have hlt := hbehind.count_lt (fun hzero => htrace (List.length_eq_zero_iff.mp hzero))
    rw [hcount, TraceOutput.foldl_emit] at hlt
    exact absurd hlt (by simp [TraceOutput.count])
  · rintro rfl queue
    rfl

end Output

/-- Numbers as records, in batches of two. -/
def numbers : TraceConfig ℕ := ⟨fun _ new => new, 0, 0, 1⟩

/-- An empty trace. -/
theorem minibatch_same_records_empty :
    0 < 2 ∧ ∀ queue, (Minibatch.mainHandler numbers 2 ⟨-1, 1⟩ []).normals queue =
      (traceMainHandler numbers ⟨-1, 1⟩ []).normals queue :=
  ⟨by decide, (minibatch_same_records_iff numbers 2 (by decide) ⟨-1, 1⟩ []).mpr rfl⟩

/-- Of three records in batches of two, the third is lost. -/
theorem minibatch_loses_last_batch :
    (Minibatch.mainHandler numbers 2 ⟨-1, 1⟩ [7, 8, 9]).normals 0 = [7, 8] ∧
      (traceMainHandler numbers ⟨-1, 1⟩ [7, 8, 9]).normals 0 = [7, 8, 9] ∧
      ¬ ∀ queue, (Minibatch.mainHandler numbers 2 ⟨-1, 1⟩ [7, 8, 9]).normals queue =
        (traceMainHandler numbers ⟨-1, 1⟩ [7, 8, 9]).normals queue := by
  have hbatched : (Minibatch.mainHandler numbers 2 ⟨-1, 1⟩ [7, 8, 9]).normals 0 = [7, 8] := by
    decide +kernel
  have hplain : (traceMainHandler numbers ⟨-1, 1⟩ [7, 8, 9]).normals 0 = [7, 8, 9] := by
    decide +kernel
  refine ⟨hbatched, hplain, ?_⟩
  intro hsame
  have hzero := hsame 0
  rw [hbatched, hplain] at hzero
  cases hzero

end AFStream.Thread

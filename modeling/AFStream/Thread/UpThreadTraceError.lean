/-
# A source that loses records on purpose

`UpThreadTraceError` stands in for a source that fails: at fixed distances in the trace it tells the
compute threads so, and then drops a number of records. The module determines which records these
are, and what an operator behind the source that is recovered approximately makes of the others.
-/

import AFStream.Operator.BoundedError
import AFStream.Thread.Minibatch
import Mathlib.Data.Int.CardIntervalMod

namespace AFStream.Thread

open AFStream.Operator

universe u

variable {T : Type u}

/-- The slots hold a sequence number in front of the record. -/
def TraceConfig.sequenced (config : TraceConfig T) (garbageSeq : ℕ) : TraceConfig (ℕ × T) where
  assign old new := (new.1, config.assign old.2 new.2)
  zero := (0, config.zero)
  garbage := (garbageSeq, config.garbage)
  numComputeThread := config.numComputeThread

/-- `UpThreadTraceError` in its main loop. -/
structure UpThreadTraceError (T : Type u) where
  output : TraceOutput (ℕ × T)
  event : ℕ
  curLost : ℤ

namespace UpThreadTraceError

variable (config : TraceConfig (ℕ × T)) (errorFreq : ℕ) (maxDataLost : ℤ)

/-- The source fails: `EmitTimeout`, and the next records are lost. -/
def fail (s : UpThreadTraceError T) : UpThreadTraceError T :=
  if s.event % errorFreq = errorFreq / 2 then
    { s with output := s.output.emitTimeout config, curLost := maxDataLost }
  else s

/-- A record is sent on or dropped. The count is an `int`, and there is none below the least. -/
def pass (s : UpThreadTraceError T) (data : T) : Option (UpThreadTraceError T) :=
  if s.curLost = 0 then some { s with output := s.output.emit config (s.event, data) }
  else if -2 ^ 31 < s.curLost then some { s with curLost := s.curLost - 1 }
  else none

/-- One iteration, for a record of the adapter. A frequency of zero is a division by zero. -/
def iterate (s : UpThreadTraceError T) (data : T) : Option (UpThreadTraceError T) :=
  if errorFreq = 0 then none
  else
    (({ s with event := (s.event + 1) % 2 ^ 64 } : UpThreadTraceError T).fail config errorFreq
      maxDataLost).pass config data

/-- `ThreadMainHandler` on the records of an adapter. -/
def mainHandler (router : RouterRR) (trace : List T) : Option (TraceOutput (ℕ × T)) :=
  (trace.foldlM (iterate config errorFreq maxDataLost) ⟨⟨router, []⟩, 0, 0⟩).map fun s =>
    s.output.finish config

/-! ## Which records are lost -/

/-- The source fails at an event, counted from one. -/
def Fails (errorFreq event : ℕ) : Prop := event % 2 ^ 64 % errorFreq = errorFreq / 2

instance (errorFreq event : ℕ) : Decidable (Fails errorFreq event) :=
  inferInstanceAs (Decidable (_ = _))

/-- Some failure up to an event reaches that far. A negative number of lost records is never
counted down to zero. -/
def Lost (errorFreq : ℕ) (maxDataLost : ℤ) (event : ℕ) : Prop :=
  ∃ failure ∈ Finset.Icc 1 event, Fails errorFreq failure ∧
    (maxDataLost < 0 ∨ (event : ℤ) < failure + maxDataLost)

instance (errorFreq : ℕ) (maxDataLost : ℤ) (event : ℕ) :
    Decidable (Lost errorFreq maxDataLost event) :=
  inferInstanceAs (Decidable (∃ failure ∈ Finset.Icc 1 event, _))

/-- How many failures there are. -/
def failures (errorFreq events : ℕ) : ℕ :=
  (Finset.Icc 1 events).filter (Fails errorFreq) |>.card

/-- What `cur_lost_` is after some events: the last failure is still counted down. -/
inductive Countdown (errorFreq : ℕ) (maxDataLost : ℤ) (events : ℕ) : ℤ → Prop
  | never (hnone : ∀ failure ∈ Finset.Icc 1 events, ¬ Fails errorFreq failure) :
      Countdown errorFreq maxDataLost events 0
  | since (failure : ℕ) (hmem : failure ∈ Finset.Icc 1 events) (hfails : Fails errorFreq failure)
      (hlast : ∀ later ∈ Finset.Ioc failure events, ¬ Fails errorFreq later) (curLost : ℤ)
      (hcur : curLost = if maxDataLost < 0 then failure + maxDataLost - (events + 1)
        else max 0 (failure + maxDataLost - (events + 1))) :
      Countdown errorFreq maxDataLost events curLost

variable {config errorFreq maxDataLost} {events : ℕ} {curLost : ℤ}

/-- A failure. -/
theorem Countdown.lost_of_fails (hfails : Fails errorFreq (events + 1)) :
    (Lost errorFreq maxDataLost (events + 1) ↔ maxDataLost ≠ 0) ∧
      Countdown errorFreq maxDataLost (events + 1)
        (if maxDataLost = 0 then 0 else maxDataLost - 1) := by
  have hmem : events + 1 ∈ Finset.Icc 1 (events + 1) := Finset.mem_Icc.mpr ⟨by omega, le_rfl⟩
  constructor
  · constructor
    · rintro ⟨failure, hfailure, -, hreach⟩ rfl
      have hle := (Finset.mem_Icc.mp hfailure).2
      rcases hreach with hneg | hlt
      · exact lt_irrefl _ hneg
      · push_cast at hlt
        omega
    · intro hne
      refine ⟨events + 1, hmem, hfails, ?_⟩
      push_cast
      omega
  · refine .since (events + 1) hmem hfails (fun later hlater => ?_) _ ?_
    · have hrange := Finset.mem_Ioc.mp hlater
      omega
    · push_cast
      split_ifs <;> omega

/-- An event without a failure. -/
theorem Countdown.lost_iff (h : Countdown errorFreq maxDataLost events curLost)
    (hfails : ¬ Fails errorFreq (events + 1)) :
    (Lost errorFreq maxDataLost (events + 1) ↔ curLost ≠ 0) ∧
      Countdown errorFreq maxDataLost (events + 1) (if curLost = 0 then 0 else curLost - 1) := by
  have hearlier : ∀ failure ∈ Finset.Icc 1 (events + 1), Fails errorFreq failure →
      failure ∈ Finset.Icc 1 events := by
    intro failure hfailure hfails'
    obtain ⟨hlow, hhigh⟩ := Finset.mem_Icc.mp hfailure
    refine Finset.mem_Icc.mpr ⟨hlow, ?_⟩
    by_contra hlarge
    obtain rfl : failure = events + 1 := by omega
    exact hfails hfails'
  cases h with
  | never hnone =>
      have hnone' : ∀ failure ∈ Finset.Icc 1 (events + 1), ¬ Fails errorFreq failure :=
        fun failure hfailure hfails' =>
          hnone failure (hearlier failure hfailure hfails') hfails'
      refine ⟨⟨fun ⟨failure, hfailure, hfails', _⟩ => absurd hfails' (hnone' failure hfailure),
        fun hne => absurd rfl hne⟩, .never hnone'⟩
  | since failure hmem hfails' hlast _ hcur =>
      obtain ⟨hlow, hhigh⟩ := Finset.mem_Icc.mp hmem
      have hlast' : ∀ later ∈ Finset.Ioc failure (events + 1), ¬ Fails errorFreq later := by
        intro later hlater hfails''
        obtain ⟨hlow', hhigh'⟩ := Finset.mem_Ioc.mp hlater
        have hmem' := hearlier later (Finset.mem_Icc.mpr ⟨by omega, hhigh'⟩) hfails''
        exact hlast later (Finset.mem_Ioc.mpr ⟨hlow', (Finset.mem_Icc.mp hmem').2⟩) hfails''
      constructor
      · constructor
        · rintro ⟨other, hother, hfails'', hreach⟩
          have hother' := hearlier other hother hfails''
          have hle : other ≤ failure := by
            by_contra hlarge
            have hrange := Finset.mem_Icc.mp hother'
            exact hlast other (Finset.mem_Ioc.mpr ⟨by omega, hrange.2⟩) hfails''
          push_cast at hreach
          split_ifs at hcur with hneg <;> omega
        · intro hne
          refine ⟨failure, Finset.mem_Icc.mpr ⟨hlow, by omega⟩, hfails', ?_⟩
          push_cast
          split_ifs at hcur with hneg
          · exact .inl hneg
          · right
            omega
      · refine .since failure (Finset.mem_Icc.mpr ⟨hlow, by omega⟩) hfails' hlast' _ ?_
        push_cast
        split_ifs at hcur ⊢ <;> omega

/-- How far down it is counted. -/
theorem Countdown.low_le (h : Countdown errorFreq maxDataLost events curLost) :
    (if maxDataLost < 0 then maxDataLost - events else 0) ≤ curLost := by
  cases h with
  | never _ => split_ifs <;> omega
  | since failure hmem _ _ _ hcur =>
      obtain ⟨hlow, -⟩ := Finset.mem_Icc.mp hmem
      split_ifs at hcur ⊢ <;> omega

/-! ## What is sent -/

/-- The records that are not lost, with their numbers. -/
def kept (errorFreq : ℕ) (maxDataLost : ℤ) (trace : List T) : List (ℕ × T) :=
  ((trace.zipIdx 1).filter fun record => ¬ Lost errorFreq maxDataLost record.2).map fun record =>
    (record.2 % 2 ^ 64, record.1)

/-- The records among the insertions. -/
def normalItems (output : TraceOutput (ℕ × T)) : List (ℕ × T) :=
  (output.inserted.filter fun insertion => insertion.itemType = .normal).map Insertion.data

/-- How often a compute thread is told of a failure. -/
def timeouts (output : TraceOutput (ℕ × T)) (queue : ℤ) : ℕ :=
  output.inserted.countP fun insertion => insertion.itemType = .timeout ∧ insertion.queue = queue

theorem inserted_emit (config : TraceConfig (ℕ × T)) (output : TraceOutput (ℕ × T)) (data : ℕ × T) :
    (output.emit config data).inserted = output.inserted ++
      [⟨output.router.getDestination.1, .normal,
        config.assign (output.slot config output.router.getDestination.1) data⟩] := rfl

/-- `EmitTimeout`: one message for each thread. -/
theorem inserted_emitTimeout (config : TraceConfig (ℕ × T)) (output : TraceOutput (ℕ × T)) :
    (output.emitTimeout config).router = output.router ∧
      ∃ marks, (output.emitTimeout config).inserted = output.inserted ++ marks ∧
        marks.map (fun insertion => (insertion.itemType, insertion.queue)) =
          (List.range config.numComputeThread).map fun (i : ℕ) => (.timeout, (i : ℤ)) := by
  rw [TraceOutput.emitTimeout]
  induction List.range config.numComputeThread generalizing output with
  | nil => exact ⟨rfl, [], (List.append_nil _).symm, rfl⟩
  | cons i rest ih =>
      obtain ⟨hrouter, marks, hmarks, hmap⟩ := ih (output.timeout config i)
      refine ⟨hrouter, ⟨i, .timeout, output.slot config i⟩ :: marks,
        hmarks.trans (List.append_assoc _ _ _), ?_⟩
      rw [List.map_cons, hmap, List.map_cons]

/-- Its messages are no records, and each thread gets one. -/
theorem emitTimeout_told (config : TraceConfig (ℕ × T)) (output : TraceOutput (ℕ × T)) :
    normalItems (output.emitTimeout config) = normalItems output ∧
      ∀ i < config.numComputeThread,
        timeouts (output.emitTimeout config) (i : ℕ) = timeouts output (i : ℕ) + 1 := by
  obtain ⟨-, marks, hmarks, hmap⟩ := inserted_emitTimeout config output
  constructor
  · have hnone : (marks.filter fun insertion => insertion.itemType = .normal) = [] := by
      rw [List.filter_eq_nil_iff]
      intro mark hmark
      have hpair : (mark.itemType, mark.queue) ∈
          marks.map fun insertion => (insertion.itemType, insertion.queue) :=
        List.mem_map_of_mem hmark
      rw [hmap] at hpair
      obtain ⟨i, -, hi⟩ := List.mem_map.mp hpair
      rw [← (Prod.mk.inj hi).1]
      decide
    rw [normalItems, hmarks, List.filter_append, hnone, List.append_nil]
    rfl
  · intro i hi
    have hpairs : (marks.countP fun insertion =>
        insertion.itemType = .timeout ∧ insertion.queue = (i : ℤ)) =
        (marks.map fun insertion => (insertion.itemType, insertion.queue)).countP fun pair =>
          pair.1 = .timeout ∧ pair.2 = (i : ℤ) := by
      rw [List.countP_map]
      rfl
    have hone : ((List.range config.numComputeThread).countP fun (j : ℕ) =>
        (ItemType.timeout = .timeout ∧ (j : ℤ) = (i : ℤ))) = 1 := by
      have hcount := List.count_eq_one_of_mem List.nodup_range (List.mem_range.mpr hi)
      rw [List.count_eq_countP] at hcount
      rw [← hcount]
      refine List.countP_congr fun j _ => ?_
      simp
    rw [hmap, List.countP_map] at hpairs
    rw [timeouts, hmarks, List.countP_append, hpairs]
    exact congrArg _ hone

/-- The last messages are no records and tell of no failure. -/
theorem finish_same (config : TraceConfig (ℕ × T)) (output : TraceOutput (ℕ × T)) :
    normalItems (output.finish config) = normalItems output ∧
      ∀ queue, timeouts (output.finish config) queue = timeouts output queue := by
  obtain ⟨last, hlast, hfinish⟩ := TraceOutput.inserted_finish config output
  constructor
  · have hnone : (last.filter fun insertion => insertion.itemType = .normal) = [] := by
      rw [List.filter_eq_nil_iff]
      intro insertion hinsertion
      simp [hfinish insertion hinsertion]
    rw [normalItems, hlast, List.filter_append, hnone, List.append_nil]
    rfl
  · intro queue
    have hnone : (last.countP fun insertion =>
        insertion.itemType = .timeout ∧ insertion.queue = queue) = 0 := by
      rw [List.countP_eq_zero]
      intro insertion hinsertion
      simp [hfinish insertion hinsertion]
    rw [timeouts, hlast, List.countP_append, hnone]
    rfl

/-- An item is a record as its assignment to a slot leaves it, whatever the slot held before. -/
def Stored (config : TraceConfig (ℕ × T)) (item record : ℕ × T) : Prop :=
  ∃ old, item = config.assign old record

/-- With an assignment that copies the value the items are the records. -/
theorem eq_of_forall₂_stored {items records : List (ℕ × T)}
    (hplain : ∀ old new, config.assign old new = new)
    (h : List.Forall₂ (Stored config) items records) : items = records := by
  induction h with
  | nil => rfl
  | cons hitem _ ih =>
      obtain ⟨old, rfl⟩ := hitem
      rw [hplain, ih]

/-- What has been sent of some records, and what comes next. -/
structure Sent (config : TraceConfig (ℕ × T)) (errorFreq : ℕ) (maxDataLost : ℤ) (trace : List T)
    (s : UpThreadTraceError T) : Prop where
  event_eq : s.event = trace.length % 2 ^ 64
  countdown : Countdown errorFreq maxDataLost trace.length s.curLost
  records : List.Forall₂ (Stored config) (normalItems s.output) (kept errorFreq maxDataLost trace)
  told : ∀ i < config.numComputeThread, timeouts s.output (i : ℕ) = failures errorFreq trace.length

theorem kept_concat (errorFreq : ℕ) (maxDataLost : ℤ) (trace : List T) (data : T) :
    kept errorFreq maxDataLost (trace ++ [data]) = kept errorFreq maxDataLost trace ++
      if Lost errorFreq maxDataLost (trace.length + 1) then []
      else [((trace.length + 1) % 2 ^ 64, data)] := by
  rw [kept, List.zipIdx_append, List.filter_append, List.map_append, Nat.add_comm 1]
  congr 1
  rw [List.zipIdx_singleton, List.filter_singleton]
  split_ifs with hlost <;> simp_all

/-- One more event. -/
theorem card_filter_succ (P : ℕ → Prop) [DecidablePred P] (events : ℕ) :
    ((Finset.Icc 1 (events + 1)).filter P).card =
      ((Finset.Icc 1 events).filter P).card + if P (events + 1) then 1 else 0 := by
  rw [← Finset.insert_Icc_right_eq_Icc_add_one (by omega), Finset.filter_insert]
  split_ifs with hlast
  · rw [Finset.card_insert_of_notMem]
    simp
  · rfl

theorem failures_succ (errorFreq events : ℕ) :
    failures errorFreq (events + 1) =
      failures errorFreq events + if Fails errorFreq (events + 1) then 1 else 0 :=
  card_filter_succ (Fails errorFreq) events

/-- The first half of an iteration. -/
theorem Sent.fail {trace : List T} {s : UpThreadTraceError T}
    (h : s.Sent config errorFreq maxDataLost trace) :
    ∃ s', ({ s with event := (s.event + 1) % 2 ^ 64 } : UpThreadTraceError T).fail config errorFreq
        maxDataLost = s' ∧
      s'.event = (trace.length + 1) % 2 ^ 64 ∧
      (Lost errorFreq maxDataLost (trace.length + 1) ↔ s'.curLost ≠ 0) ∧
      Countdown errorFreq maxDataLost (trace.length + 1)
        (if s'.curLost = 0 then 0 else s'.curLost - 1) ∧
      List.Forall₂ (Stored config) (normalItems s'.output) (kept errorFreq maxDataLost trace) ∧
      ∀ i < config.numComputeThread,
        timeouts s'.output (i : ℕ) = failures errorFreq (trace.length + 1) := by
  have hevent : (s.event + 1) % 2 ^ 64 = (trace.length + 1) % 2 ^ 64 := by
    rw [h.event_eq, Nat.mod_add_mod]
  by_cases hfails : Fails errorFreq (trace.length + 1)
  · have hfail : (s.event + 1) % 2 ^ 64 % errorFreq = errorFreq / 2 := hevent ▸ hfails
    refine ⟨_, if_pos hfail, hevent, (Countdown.lost_of_fails hfails).1,
      (Countdown.lost_of_fails hfails).2, ?_, fun i hi => ?_⟩
    · exact (emitTimeout_told config s.output).1 ▸ h.records
    · rw [failures_succ, if_pos hfails, ← h.told i hi]
      exact (emitTimeout_told config s.output).2 i hi
  · have hpass : ¬ (s.event + 1) % 2 ^ 64 % errorFreq = errorFreq / 2 := hevent ▸ hfails
    refine ⟨_, if_neg hpass, hevent, (h.countdown.lost_iff hfails).1,
      (h.countdown.lost_iff hfails).2, h.records, fun i hi => ?_⟩
    rw [failures_succ, if_neg hfails, add_zero]
    exact h.told i hi

/-- **One iteration.** -/
theorem Sent.iterate {trace : List T} {s : UpThreadTraceError T}
    (h : s.Sent config errorFreq maxDataLost trace) (hfreq : 0 < errorFreq)
    (hcount : maxDataLost < 0 → (trace.length : ℤ) < maxDataLost + 2 ^ 31) (data : T) :
    ∃ s', s.iterate config errorFreq maxDataLost data = some s' ∧
      s'.Sent config errorFreq maxDataLost (trace ++ [data]) := by
  obtain ⟨s₁, hs₁, hevent, hlost, hcountdown, hrecords, htold⟩ := h.fail
  have hiterate : s.iterate config errorFreq maxDataLost data = s₁.pass config data :=
    (if_neg hfreq.ne').trans (by rw [hs₁])
  rw [hiterate]
  by_cases hcur : s₁.curLost = 0
  · rw [if_pos hcur] at hcountdown
    have hpass : s₁.pass config data =
        some { s₁ with output := s₁.output.emit config (s₁.event, data) } := if_pos hcur
    refine ⟨_, hpass, ?_⟩
    obtain ⟨index, old, hinserted⟩ : ∃ (index : ℤ) (old : ℕ × T),
        (s₁.output.emit config (s₁.event, data)).inserted =
          s₁.output.inserted ++ [⟨index, .normal, config.assign old (s₁.event, data)⟩] :=
      ⟨_, _, inserted_emit _ _ _⟩
    have hitems : normalItems (s₁.output.emit config (s₁.event, data)) =
        normalItems s₁.output ++ [config.assign old (s₁.event, data)] := by
      rw [normalItems, hinserted, List.filter_append, List.map_append]
      rfl
    refine ⟨by rw [hevent, List.length_append, List.length_singleton], ?_, ?_, fun i hi => ?_⟩
    · rw [List.length_append, List.length_singleton, hcur]
      exact hcountdown
    · rw [kept_concat, if_neg fun hl => hlost.mp hl hcur, ← hevent, hitems]
      exact List.rel_append hrecords (.cons ⟨old, rfl⟩ .nil)
    · rw [List.length_append, List.length_singleton, ← htold i hi, timeouts, hinserted,
        List.countP_append]
      rfl
  · rw [if_neg hcur] at hcountdown
    have hroom : -2 ^ 31 < s₁.curLost := by
      have hlow := hcountdown.low_le
      push_cast at hlow
      split_ifs at hlow with hneg
      · have hshort := hcount hneg
        omega
      · omega
    have hpass : s₁.pass config data = some { s₁ with curLost := s₁.curLost - 1 } :=
      (if_neg hcur).trans (if_pos hroom)
    refine ⟨_, hpass, ?_⟩
    refine ⟨by rw [hevent, List.length_append, List.length_singleton], ?_, ?_, fun i hi => ?_⟩
    · rw [List.length_append, List.length_singleton]
      exact hcountdown
    · rw [kept_concat, if_pos (hlost.mpr hcur), List.append_nil]
      exact hrecords
    · rw [List.length_append, List.length_singleton]
      exact htold i hi

/-- A whole trace. -/
theorem exists_sent (config : TraceConfig (ℕ × T)) (hfreq : 0 < errorFreq) (maxDataLost : ℤ)
    (router : RouterRR) (trace : List T)
    (hcount : maxDataLost < 0 → (trace.length : ℤ) ≤ maxDataLost + 2 ^ 31) :
    ∃ s, trace.foldlM (iterate config errorFreq maxDataLost) ⟨⟨router, []⟩, 0, 0⟩ = some s ∧
      s.Sent config errorFreq maxDataLost trace := by
  induction trace using List.reverseRecOn with
  | nil =>
      refine ⟨_, rfl, rfl, .never fun failure hfailure => ?_, .nil, fun _ _ => rfl⟩
      have hrange := Finset.mem_Icc.mp hfailure
      rw [List.length_nil] at hrange
      omega
  | append_singleton trace data ih =>
      rw [List.length_append, List.length_singleton] at hcount
      push_cast at hcount
      obtain ⟨s, hs, hsent⟩ := ih fun hneg => by linarith [hcount hneg]
      obtain ⟨s', hs', hsent'⟩ :=
        hsent.iterate hfreq (fun hneg => by linarith [hcount hneg]) data
      refine ⟨s', ?_, hsent'⟩
      rw [List.foldlM_append, hs]
      simpa using hs'

/-- **What the source loses.** For every frequency but zero, every number of records to lose, every
trace, assignment of a record to a slot, number of compute threads and state of the router: what is
sent are exactly the records that no failure up to them reaches, with their numbers and in their
order, each as its assignment to the slot leaves it, and every compute thread is told of every
failure. A negative number is counted down for ever, so the trace must end before the count leaves
the range of an `int`. -/
theorem sends_unreached (config : TraceConfig T) (garbageSeq errorFreq : ℕ) (hfreq : 0 < errorFreq)
    (maxDataLost : ℤ) (router : RouterRR) (trace : List T)
    (hcount : maxDataLost < 0 → (trace.length : ℤ) ≤ maxDataLost + 2 ^ 31) :
    ∃ output, mainHandler (config.sequenced garbageSeq) errorFreq maxDataLost router trace =
        some output ∧
      List.Forall₂ (fun item record =>
          item.1 = record.1 ∧ ∃ old, item.2 = config.assign old record.2)
        (normalItems output) (kept errorFreq maxDataLost trace) ∧
      ∀ i < config.numComputeThread, timeouts output (i : ℕ) = failures errorFreq trace.length := by
  obtain ⟨s, hs, hsent⟩ :=
    exists_sent (config.sequenced garbageSeq) hfreq maxDataLost router trace hcount
  obtain ⟨hnormal, htimeouts⟩ := finish_same (config.sequenced garbageSeq) s.output
  refine ⟨s.output.finish (config.sequenced garbageSeq), ?_, ?_, fun i hi => ?_⟩
  · rw [mainHandler, hs]
    rfl
  · rw [hnormal]
    refine hsent.records.imp fun item record hstored => ?_
    obtain ⟨old, rfl⟩ := hstored
    exact ⟨rfl, old.2, rfl⟩
  · rw [htimeouts]
    exact hsent.told i hi

/-- Two failures in ten records, each of which costs one. -/
theorem sends_unreached_numbers :
    ∃ output, mainHandler (numbers.sequenced 0) 6 1 ⟨-1, 1⟩ (List.range 10) = some output ∧
      List.Forall₂ (fun item record =>
          item.1 = record.1 ∧ ∃ old, item.2 = numbers.assign old record.2)
        (normalItems output) (kept 6 1 (List.range 10)) ∧
      ∀ i < numbers.numComputeThread, timeouts output (i : ℕ) = failures 6 (List.range 10).length :=
  sends_unreached numbers 0 6 (by decide) 1 ⟨-1, 1⟩ (List.range 10) (by decide)

/-! ## How many records are lost -/

/-- What is not sent is lost. -/
theorem length_kept (errorFreq : ℕ) (maxDataLost : ℤ) (trace : List T) :
    (kept errorFreq maxDataLost trace).length +
      ((Finset.Icc 1 trace.length).filter (Lost errorFreq maxDataLost)).card = trace.length := by
  induction trace using List.reverseRecOn with
  | nil => rfl
  | append_singleton trace data ih =>
      rw [kept_concat, List.length_append, List.length_append, List.length_singleton,
        card_filter_succ]
      split_ifs
      · rw [List.length_nil]
        omega
      · rw [List.length_singleton]
        omega

/-- A failure costs as many records as are to be lost, and no more. -/
theorem card_lost_le (errorFreq : ℕ) {maxDataLost : ℤ} (hlost : 0 ≤ maxDataLost) (events : ℕ) :
    ((Finset.Icc 1 events).filter (Lost errorFreq maxDataLost)).card ≤
      failures errorFreq events * maxDataLost.toNat := by
  have hsub : (Finset.Icc 1 events).filter (Lost errorFreq maxDataLost) ⊆
      ((Finset.Icc 1 events).filter (Fails errorFreq)).biUnion fun failure =>
        Finset.Ico failure (failure + maxDataLost.toNat) := by
    intro event hevent
    obtain ⟨hrange, failure, hfailure, hfails, hreach⟩ := Finset.mem_filter.mp hevent
    obtain ⟨hlow, hhigh⟩ := Finset.mem_Icc.mp hfailure
    refine Finset.mem_biUnion.mpr ⟨failure, Finset.mem_filter.mpr ⟨Finset.mem_Icc.mpr ⟨hlow,
      hhigh.trans (Finset.mem_Icc.mp hrange).2⟩, hfails⟩, Finset.mem_Ico.mpr ⟨hhigh, ?_⟩⟩
    omega
  refine (Finset.card_le_card hsub).trans ?_
  refine Finset.card_biUnion_le_card_mul _ _ _ fun failure _ => ?_
  rw [Nat.card_Ico, Nat.add_sub_cancel_left]

/-- How often the source fails. -/
theorem failures_le {errorFreq events : ℕ} (hevents : events < 2 ^ 64) :
    failures errorFreq events ≤ events / errorFreq + 1 := by
  rw [failures, ← Finset.card_range (events / errorFreq + 1)]
  have hfails : ∀ event ∈ (Finset.Icc 1 events).filter (Fails errorFreq),
      event ≤ events ∧ event % errorFreq = errorFreq / 2 := by
    intro event hevent
    obtain ⟨hrange, hfails⟩ := Finset.mem_filter.mp hevent
    have hle := (Finset.mem_Icc.mp hrange).2
    rw [Fails, Nat.mod_eq_of_lt (hle.trans_lt hevents)] at hfails
    exact ⟨hle, hfails⟩
  refine Finset.card_le_card_of_injOn (· / errorFreq) (fun event hevent => ?_) ?_
  · have hle := (hfails event hevent).1
    exact Finset.mem_coe.mpr (Finset.mem_range.mpr (Nat.lt_succ_of_le (Nat.div_le_div_right hle)))
  · intro event hevent other hother hsame
    have hevent' := (hfails event hevent).2
    have hother' := (hfails other hother).2
    have hdiv : event / errorFreq = other / errorFreq := hsame
    rw [← Nat.div_add_mod event errorFreq, ← Nat.div_add_mod other errorFreq, hdiv, hevent',
      hother']

/-- With one compute thread all records are in its ring. -/
structure Single (s : UpThreadTraceError T) : Prop where
  opened : s.output.Open
  max_eq : s.output.router.max = 1
  queue_eq : ∀ insertion ∈ s.output.inserted, insertion.itemType = .normal → insertion.queue = 0

theorem Single.iterate {s s' : UpThreadTraceError T} (h : s.Single) {data : T}
    (hiterate : s.iterate config errorFreq maxDataLost data = some s') : s'.Single := by
  unfold UpThreadTraceError.iterate at hiterate
  split_ifs at hiterate
  have hfail : (({ s with event := (s.event + 1) % 2 ^ 64 } : UpThreadTraceError T).fail config
      errorFreq maxDataLost).Single := by
    unfold UpThreadTraceError.fail
    split_ifs
    · obtain ⟨hrouter, marks, hmarks, hmap⟩ := inserted_emitTimeout config s.output
      refine ⟨(TraceOutput.emitTimeout_spec config h.opened).2,
        (congrArg RouterRR.max hrouter).trans h.max_eq, fun insertion hinsertion htype => ?_⟩
      change insertion ∈ (s.output.emitTimeout config).inserted at hinsertion
      rw [hmarks, List.mem_append] at hinsertion
      rcases hinsertion with hold | hnew
      · exact h.queue_eq insertion hold htype
      · have hpair : (insertion.itemType, insertion.queue) ∈
            marks.map fun insertion => (insertion.itemType, insertion.queue) :=
          List.mem_map_of_mem hnew
        rw [hmap, htype] at hpair
        obtain ⟨i, -, hi⟩ := List.mem_map.mp hpair
        cases (Prod.mk.inj hi).1
    · exact ⟨h.opened, h.max_eq, h.queue_eq⟩
  revert hfail hiterate
  generalize ({ s with event := (s.event + 1) % 2 ^ 64 } : UpThreadTraceError T).fail config
    errorFreq maxDataLost = s₁
  intro hiterate h₁
  unfold UpThreadTraceError.pass at hiterate
  split_ifs at hiterate
  · obtain rfl := Option.some.inj hiterate
    refine ⟨h₁.opened.emit _, h₁.max_eq, fun insertion hinsertion htype => ?_⟩
    rw [inserted_emit, List.mem_append] at hinsertion
    rcases hinsertion with hold | hnew
    · exact h₁.queue_eq insertion hold htype
    · rw [List.mem_singleton.mp hnew]
      change (s₁.output.router.cur + 1).tmod s₁.output.router.max = 0
      rw [h₁.max_eq, Int.tmod_one]
  · obtain rfl := Option.some.inj hiterate
    exact ⟨h₁.opened, h₁.max_eq, h₁.queue_eq⟩

/-- The records in the ring of the only compute thread. -/
theorem Single.normals_finish {s : UpThreadTraceError T} (h : s.Single) :
    (s.output.finish config).normals 0 = normalItems s.output := by
  rw [TraceOutput.normals_finish config h.opened, normalItems]
  refine congrArg (List.map Insertion.data) (List.filter_eq_self.mpr fun insertion hinsertion => ?_)
  obtain ⟨hmem, htype⟩ := List.mem_filter.mp hinsertion
  exact decide_eq_true (h.queue_eq insertion hmem (of_decide_eq_true htype))

theorem single_foldlM (router : RouterRR) (hrouter : router.max = 1) {trace : List T}
    {s : UpThreadTraceError T}
    (hs : trace.foldlM (iterate config errorFreq maxDataLost) ⟨⟨router, []⟩, 0, 0⟩ = some s) :
    s.Single := by
  induction trace using List.reverseRecOn generalizing s with
  | nil =>
      obtain rfl := Option.some.inj hs
      exact ⟨fun _ hmem => absurd hmem List.not_mem_nil, hrouter,
        fun _ hmem => absurd hmem List.not_mem_nil⟩
  | append_singleton trace data ih =>
      rw [List.foldlM_append] at hs
      obtain ⟨middle, hmiddle, hlast⟩ := Option.bind_eq_some_iff.mp hs
      have hlast' : middle.iterate config errorFreq maxDataLost data = some s := by
        simpa using hlast
      exact (ih hmiddle).iterate hlast'

/-- **From the source to the operator.** A trace goes through the source, whose only compute thread
has an array operator; each record changes it by a limited amount. Whatever crashes and empty polls
come between the records that are sent, the operator is no farther from one that gets the whole
trace and never fails than one threshold for each crash, and the limit for each record that the
failures of the source can cost. -/
theorem traced_error_bounded (config : TraceConfig T)
    (hplain : ∀ old new, config.assign old new = new) (garbageSeq errorFreq : ℕ)
    (hfreq : 0 < errorFreq) {maxDataLost : ℤ} (hlost : 0 ≤ maxDataLost) (router : RouterRR)
    (hrouter : router.max = 1) (trace : List T) (htrace : trace.length < 2 ^ 64)
    (kind : ArrayKind) {length : ℕ} (hlength : length < 2 ^ 32) {thresh : ℚ} (hthresh : 0 ≤ thresh)
    (app : T → RecordChange) (hgentle : ∀ data ∈ trace, (app data).Gentle kind length) {limit : ℤ}
    (hlimit : 0 ≤ limit) (heffect : ∀ data ∈ trace, ∀ array, (app data).effect array ≤ limit) :
    ∃ output, mainHandler (config.sequenced garbageSeq) errorFreq maxDataLost router trace =
        some output ∧
      ∀ events : List FaultEvent, events.filterMap FaultEvent.record? = trace.map app →
        events.filterMap FaultEvent.processed? = (output.normals 0).map (fun item => app item.2) →
        ∃ s, (BackedUp.faultMachine kind length thresh).runFrom
            (BackedUp.faultMachine kind length thresh).init events = some s ∧
          arrayDist kind length s.op.array
              (trace.foldl (fun array data => (app data).apply array) fun _ => 0) ≤
            events.countP FaultEvent.isCrash * kind.radius thresh +
              ((limit * (maxDataLost * (trace.length / errorFreq + 1 : ℕ)) : ℤ) : ℝ) := by
  have hplain' : ∀ old new, (config.sequenced garbageSeq).assign old new = new :=
    fun old new => Prod.ext rfl (hplain old.2 new.2)
  obtain ⟨source, hsource, hsent⟩ := exists_sent (config.sequenced garbageSeq) hfreq maxDataLost
    router trace fun hneg => absurd hneg (not_lt.mpr hlost)
  have hsingle := single_foldlM router hrouter hsource
  refine ⟨source.output.finish (config.sequenced garbageSeq), ?_, fun events hall hprocessed => ?_⟩
  · rw [mainHandler, hsource]
    rfl
  rw [hsingle.normals_finish, eq_of_forall₂_stored hplain' hsent.records] at hprocessed
  have hrecords : ∀ r ∈ events.filterMap FaultEvent.record?, r.Gentle kind length ∧
      ∀ array, r.effect array ≤ limit := by
    intro r hr
    rw [hall] at hr
    obtain ⟨data, hdata, rfl⟩ := List.mem_map.mp hr
    exact ⟨hgentle data hdata, heffect data hdata⟩
  obtain ⟨s, hrun, herror⟩ := BackedUp.exists_run_within_cost kind hlength hthresh
    fun r hr => (hrecords r hr).1
  rw [FaultEvent.totalCost_eq, FaultEvent.failureFree_eq, hall, List.foldl_map] at herror
  have hlostEffect := FaultEvent.lostEffect_le (fun r hr => (hrecords r hr).2) fun _ => 0
  rw [hall, hprocessed, List.length_map, List.length_map] at hlostEffect
  have hkept := length_kept errorFreq maxDataLost trace
  have hcard := (card_lost_le errorFreq hlost trace.length).trans
    (Nat.mul_le_mul_right _ (failures_le htrace))
  have hmissing : (trace.length - (kept errorFreq maxDataLost trace).length : ℤ) ≤
      maxDataLost * (trace.length / errorFreq + 1 : ℕ) := by
    have hcast : (((trace.length / errorFreq + 1) * maxDataLost.toNat : ℕ) : ℤ) =
        maxDataLost * (trace.length / errorFreq + 1 : ℕ) := by
      rw [Nat.cast_mul, Int.toNat_of_nonneg hlost, mul_comm]
    rw [← hcast]
    omega
  refine ⟨s, hrun, herror.trans ?_⟩
  gcongr
  exact hlostEffect.trans (mul_le_mul_of_nonneg_left hmissing hlimit)

/-- Ten records that add one, of which two are lost. -/
theorem traced_error_bounded_numbers :
    ∃ output, mainHandler (numbers.sequenced 0) 6 1 ⟨-1, 1⟩ (List.range 10) = some output ∧
      ∀ events : List FaultEvent,
        events.filterMap FaultEvent.record? = (List.range 10).map (fun _ => .add 0 1) →
        events.filterMap FaultEvent.processed? =
          (output.normals 0).map (fun _ => RecordChange.add 0 1) →
        ∃ s, (BackedUp.faultMachine .l1 1 3).runFrom (BackedUp.faultMachine .l1 1 3).init events =
            some s ∧
          arrayDist .l1 1 s.op.array
              ((List.range 10).foldl (fun array _ => (RecordChange.add 0 1).apply array)
                fun _ => 0) ≤
            events.countP FaultEvent.isCrash * ArrayKind.l1.radius 3 +
              ((1 * (1 * ((List.range 10).length / 6 + 1 : ℕ)) : ℤ) : ℝ) := by
  refine traced_error_bounded numbers (fun _ _ => rfl) 0 6 (by decide) Int.one_nonneg ⟨-1, 1⟩ rfl
    (List.range 10) (by decide) .l1 (by decide) (by norm_num) (fun _ => .add 0 1)
    (fun _ _ => RecordChange.gentle_add (by decide) Int.one_nonneg) Int.one_nonneg
    fun _ _ array => ?_
  change |array 0 + 1 - array 0| ≤ 1
  rw [add_sub_cancel_left]
  exact le_rfl

end UpThreadTraceError

end AFStream.Thread

/-
# The out callback of a destination

`PullRecord` hands the items of all compute threads to the network, one reader for
each destination. It swallows every `FINISH` but the last, acknowledging its slot
at once, and reports the last one with result `1`. The writers run a script: each
writes its records for a destination and then one `FINISH`. The module shows that
what the callback returns is an interleaving of the records followed by exactly
one `FINISH`, that the swallowed ones go back to the threads that wrote them, and
that the callback never blocks.
-/

import AFStream.Foundation.Interleave
import AFStream.Queues.Channel

namespace AFStream.Thread

open AFStream.Foundation AFStream.Queues

universe u

/-- `OutCallbackSimple`; its reader is the reader of the mesh with the index of the
destination. -/
structure OutCallbackSimple where
  numIn : ℕ
  numStop : ℕ
  event : ℕ

/-- What one call of `PullRecord` gives back, with the call of `reader_->Ack` that it
made, if any. -/
structure Pulled where
  result : ℕ
  data : Option SlotAddr
  len : ℕ
  acked : Option (ℕ × SlotAddr)

namespace OutCallbackSimple

/-- The constructor. -/
def create (numIn : ℕ) : OutCallbackSimple where
  numIn := numIn
  numStop := 0
  event := 0

variable {T : Type u}

/-- `PullRecord` of destination `r`, undefined while one of its calls would spin.
`wrapSize` is `sizeof(WrapT)`. -/
def pullRecord (numWriter numReader wrapSize r : ℕ) (cb : OutCallbackSimple)
    (s : Channel T) : Option (Pulled × OutCallbackSimple × Channel T) :=
  (s.step numWriter numReader (.read r)).bind fun s₁ =>
    match (s.mesh.read r).1 with
    | none => some (⟨0, none, wrapSize, none⟩, cb, s₁)
    | some addr =>
      let cb := { cb with event := cb.event + 1 }
      if (s₁.mesh.slots addr).itemType = .finish then
        let cb := { cb with numStop := cb.numStop + 1 }
        (s₁.step numWriter numReader (.flushReader r)).bind fun s₂ =>
          if cb.numStop = cb.numIn then
            some (⟨1, some addr, wrapSize, none⟩, cb, s₂)
          else
            (s₂.step numWriter numReader (.ack r addr)).map fun s₃ =>
              (⟨0, none, 0, some ((s₂.mesh.slots addr).thrSource, addr)⟩, cb, s₃)
      else some (⟨0, some addr, wrapSize, none⟩, cb, s₁)

variable {numWriter numReader wrapSize r : ℕ} {cb cb' : OutCallbackSimple} {s s' : Channel T}
  {pulled : Pulled}

/-- What the callback does with an item it has read. -/
inductive Handled (wrapSize : ℕ) (cb : OutCallbackSimple) (w : ℕ) (addr : SlotAddr)
    (item : WrapItem T) : Pulled → OutCallbackSimple → Prop
  | forward (htype : item.itemType ≠ .finish) :
      Handled wrapSize cb w addr item ⟨0, some addr, wrapSize, none⟩
        { cb with event := cb.event + 1 }
  | last (htype : item.itemType = .finish) (hlast : cb.numStop + 1 = cb.numIn) :
      Handled wrapSize cb w addr item ⟨1, some addr, wrapSize, none⟩
        { cb with numStop := cb.numStop + 1, event := cb.event + 1 }
  | swallow (htype : item.itemType = .finish) (hmore : cb.numStop + 1 ≠ cb.numIn) :
      Handled wrapSize cb w addr item ⟨0, none, 0, some (w, addr)⟩
        { cb with numStop := cb.numStop + 1, event := cb.event + 1 }

/-- The slots that reader `r` can still get from writer `w` and how many of them it
can see. -/
def backlog (s : Channel T) (r w : ℕ) : List SlotAddr × ℕ :=
  (s.inTransit w r, (s.mesh.ringAt (.reader r) w).visible)

/-- A call that finds nothing. -/
structure PulledNothing (numWriter wrapSize r : ℕ) (cb : OutCallbackSimple) (s : Channel T)
    (pulled : Pulled) (cb' : OutCallbackSimple) (s' : Channel T) : Prop where
  pulled_eq : pulled = ⟨0, none, wrapSize, none⟩
  cb_eq : cb' = cb
  received_eq : s'.received = s.received
  invisible : ∀ w < numWriter, (s.mesh.ringAt (.reader r) w).visible = 0

/-- A call that takes the oldest item of writer `w`. -/
structure PulledItem (wrapSize r : ℕ) (cb : OutCallbackSimple) (s : Channel T) (w : ℕ)
    (addr : SlotAddr) (pulled : Pulled) (cb' : OutCallbackSimple) (s' : Channel T) : Prop where
  source_eq : (s.mesh.slots addr).thrSource = w
  owner : ∃ i, addr = .slot w i
  received_eq : s'.received = Channel.log s.received r w (s.mesh.slots addr)
  handled : Handled wrapSize cb w addr (s.mesh.slots addr) pulled cb'
  transit_eq : s.inTransit w r = addr :: s'.inTransit w r
  visible_eq : (s.mesh.ringAt (.reader r) w).visible =
    (s'.mesh.ringAt (.reader r) w).visible + 1
  others : ∀ w', w' ≠ w → backlog s' r w' = backlog s r w'

/-- `PullRecord` never blocks, and what it does. -/
theorem pullRecord_cases (hs : s.Inv numWriter numReader) (hr : r < numReader)
    (cb : OutCallbackSimple) (wrapSize : ℕ) :
    ∃ pulled cb' s', pullRecord numWriter numReader wrapSize r cb s = some (pulled, cb', s') ∧
      s'.Inv numWriter numReader ∧ s'.written = s.written ∧ s'.mesh.slots = s.mesh.slots ∧
      (PulledNothing numWriter wrapSize r cb s pulled cb' s' ∨
        ∃ w < numWriter, ∃ addr, PulledItem wrapSize r cb s w addr pulled cb' s') := by
  cases hread : (s.mesh.read r).1 with
  | none =>
      obtain ⟨hs', hstill, hempty⟩ := hs.read_none hr hread
      refine ⟨_, _, _, ?_, hs', rfl, hstill.slots_eq, .inl ⟨rfl, rfl, rfl, hempty⟩⟩
      rw [pullRecord, Channel.step_read_of_none hr hread, Option.bind_some, hread]
  | some addr =>
      obtain ⟨s₁, hs₁⟩ : ∃ s₁, s₁ = { s with
          mesh := (s.mesh.read r).2
          readerHeld := Function.update s.readerHeld r (s.readerHeld r ++ [addr])
          received := Channel.log s.received r (s.mesh.slots addr).thrSource
            (s.mesh.slots addr) } := ⟨_, rfl⟩
      have hstep : s.step numWriter numReader (.read r) = some s₁ := by
        rw [Channel.step_read_of_some hr hread, hs₁]
      obtain ⟨hinv₁, hslots₁, w, htransit, hmoved, hvisible, hothers⟩ :=
        hs.read_some hr hread hs₁
      obtain ⟨howner, hsource⟩ := hs.admits (.transit w ⟨r, hr⟩) addr hmoved.mem_source
      have hheld : addr ∈ s₁.readerHeld r := hmoved.mem_target
      have hwritten₁ : s₁.written = s.written := by rw [hs₁]
      have hreceived₁ : s₁.received = Channel.log s.received r w (s.mesh.slots addr) := by
        rw [hs₁, hsource]
      -- what follows the read leaves the rings of the readers and the logs alone
      have hitem (pulled : Pulled) (cb' : OutCallbackSimple) (s' : Channel T)
          (hreceived : s'.received = s₁.received)
          (hrings : ∀ w, s'.mesh.ringAt (.reader r) w = s₁.mesh.ringAt (.reader r) w)
          (hhandled : Handled wrapSize cb w addr (s.mesh.slots addr) pulled cb') :
          PulledItem wrapSize r cb s w addr pulled cb' s' := by
        refine ⟨hsource, howner, hreceived.trans hreceived₁, hhandled, ?_, ?_, ?_⟩
        · rw [htransit]
          simp only [Channel.inTransit, hrings]
        · rw [hvisible, hrings]
        · intro w' hw'
          simp only [backlog, Channel.inTransit, hrings, hothers w' hw']
      by_cases htype : (s.mesh.slots addr).itemType = .finish
      · obtain ⟨hinv₂, hstill₂⟩ := hinv₁.flush (.reader r)
        obtain ⟨hreleased, hrings₂⟩ := hinv₁.flushReader_rings hr
        by_cases hlast : cb.numStop + 1 = cb.numIn
        · refine ⟨_, _, _, ?_, hinv₂, hwritten₁, hstill₂.slots_eq.trans hslots₁,
            .inr ⟨w, w.isLt, addr, hitem _ _ _ rfl (hrings₂ r) (.last htype hlast)⟩⟩
          simp only [pullRecord, hstep, hread, hslots₁, htype, if_true, Option.bind_some,
            Channel.step_flushReader hr, hlast]
        · obtain ⟨s₃, hack⟩ := hinv₂.ack_eq_some hr hheld fun w hw => hreleased w hw r hr
          obtain ⟨hinv₃, hslots₃, -, hrings₃⟩ := hinv₂.ack hack
          obtain ⟨hwritten₃, hreceived₃⟩ := Channel.step_ack_logs hack
          have hthread : ((s₁.mesh.flush (.reader r)).slots addr).thrSource = w := by
            rw [hstill₂.slots_eq, hslots₁, hsource]
          refine ⟨_, _, s₃, ?_, hinv₃, hwritten₃.trans hwritten₁,
            hslots₃.trans (hstill₂.slots_eq.trans hslots₁), .inr ⟨w, w.isLt, addr,
              hitem _ _ _ hreceived₃ (fun w => (hrings₃ r w).trans (hrings₂ r w))
                (.swallow htype hlast)⟩⟩
          simp only [pullRecord, hstep, hread, hslots₁, htype, if_true, Option.bind_some,
            Channel.step_flushReader hr, hlast, if_false, hack, Option.map_some, hthread]
      · refine ⟨_, _, _, ?_, hinv₁, hwritten₁, hslots₁,
          .inr ⟨w, w.isLt, addr, hitem _ _ _ rfl (fun _ => rfl) (.forward htype)⟩⟩
        simp only [pullRecord, hstep, hread, hslots₁, htype, if_false, Option.bind_some]

end OutCallbackSimple

/-- What the writers write to each destination: records, then one `FINISH`. Every
item names its writer. -/
structure Script (T : Type u) where
  records : ℕ → ℕ → List (WrapItem T)
  finish : ℕ → ℕ → WrapItem T
  records_type : ∀ w r, ∀ x ∈ records w r, x.itemType ≠ .finish
  records_source : ∀ w r, ∀ x ∈ records w r, x.thrSource = w
  finish_type : ∀ w r, (finish w r).itemType = .finish
  finish_source : ∀ w r, (finish w r).thrSource = w

namespace Script

variable {T : Type u} (script : Script T)

/-- Everything writer `w` writes to destination `r`. -/
def items (w r : ℕ) : List (WrapItem T) := script.records w r ++ [script.finish w r]

/-- Calls of the two sides outside `PullRecord`: writers follow the script, and the
reader reads only through the callback. -/
def allows [DecidableEq T] (s : Channel T) : Channel.Call T → Bool
  | .write w r addr =>
      (script.items w r)[(s.written w r).length]? == some (s.mesh.slots addr)
  | .read _ => false
  | _ => true

variable {script}

/-- A prefix of a script either stays within the records or is the whole script. -/
theorem append_isPrefix_items {w r : ℕ} {before : List (WrapItem T)} {x : WrapItem T}
    (hpre : (before ++ [x]) <+: script.items w r) :
    (x.itemType ≠ .finish ∧ (before ++ [x]) <+: script.records w r) ∨
      (before = script.records w r ∧ x = script.finish w r) := by
  rcases List.prefix_concat_iff.mp hpre with heq | hrecords
  · obtain ⟨hbefore, hx⟩ := List.append_inj' heq rfl
    exact .inr ⟨hbefore, List.singleton_inj.mp hx⟩
  · have hmem : x ∈ script.records w r := hrecords.subset (by simp)
    exact .inl ⟨script.records_type w r x hmem, hrecords⟩

end Script

/-- The writers, the mesh and the callbacks of all destinations, with what the
callbacks have done so far. -/
structure OutSystem (T : Type u) where
  channel : Channel T
  callback : ℕ → OutCallbackSimple
  /-- Results and items returned by `PullRecord`, `none` standing for `NULL`. -/
  returned : ℕ → List (ℕ × Option (WrapItem T))
  /-- Calls of `reader_->Ack` made by `PullRecord`. -/
  acked : ℕ → List (ℕ × SlotAddr)

namespace OutSystem

variable {T : Type u}

/-- A call outside `PullRecord`, or a call of `PullRecord`. -/
inductive Action (T : Type u)
  | call (call : Channel.Call T)
  | pull (r : ℕ)

/-- One action. -/
def step [DecidableEq T] (script : Script T) (numWriter numReader wrapSize : ℕ)
    (o : OutSystem T) : Action T → Option (OutSystem T)
  | .call call =>
      if script.allows o.channel call then
        (o.channel.step numWriter numReader call).map fun channel =>
          { o with channel := channel }
      else none
  | .pull r =>
      ((o.callback r).pullRecord numWriter numReader wrapSize r o.channel).map
        fun (pulled, cb, channel) =>
          { channel := channel
            callback := Function.update o.callback r cb
            returned := Function.update o.returned r
              (o.returned r ++ [(pulled.result, pulled.data.map channel.mesh.slots)])
            acked := Function.update o.acked r (o.acked r ++ pulled.acked.toList) }

/-- Every interleaving on a started mesh; each callback expects one `FINISH` from
each writer. -/
def machine [DecidableEq T] (script : Script T) (numWriter numReader wrapSize : ℕ)
    (mesh : Mesh T) : Machine (OutSystem T) (Action T) where
  init :=
    { channel := (Channel.machine numWriter numReader mesh).init
      callback := fun _ => .create numWriter
      returned := fun _ => []
      acked := fun _ => [] }
  step := step script numWriter numReader wrapSize

/-- The non-`NULL` items of a log of calls. -/
def items (log : List (ℕ × Option (WrapItem T))) : List (WrapItem T) :=
  log.filterMap (·.2)

/-- All calls so far returned `0` and no `FINISH`. -/
def Running (log : List (ℕ × Option (WrapItem T))) : Prop :=
  ∀ entry ∈ log, entry.1 = 0 ∧ ∀ x ∈ entry.2, x.itemType ≠ .finish

/-- One call returned the `FINISH` item `x` with result `1`; every earlier call
returned `0` and no `FINISH`, every later one `0` and `NULL`. -/
def Closed (log : List (ℕ × Option (WrapItem T))) (before : List (ℕ × Option (WrapItem T)))
    (x : WrapItem T) : Prop :=
  ∃ after, log = before ++ (1, some x) :: after ∧ Running before ∧ x.itemType = .finish ∧
    ∀ entry ∈ after, entry = (0, none)

/-- Where destination `r` stands: `passed` are the records returned so far and
`stopped` the writers whose `FINISH` has been read. -/
structure Progress (script : Script T) (numWriter r : ℕ) (cb : OutCallbackSimple)
    (log : List (ℕ × Option (WrapItem T))) (acked : List (ℕ × SlotAddr))
    (received : ℕ → List (WrapItem T)) (passed : List (WrapItem T)) (stopped : List ℕ) :
    Prop where
  passed_source : ∀ x ∈ passed, x.thrSource < numWriter
  stopped_nodup : stopped.Nodup
  stopped_lt : ∀ w ∈ stopped, w < numWriter
  numIn_eq : cb.numIn = numWriter
  numStop_eq : cb.numStop = stopped.length
  acked_owner : ∀ entry ∈ acked, ∃ i, entry.2 = .slot entry.1 i
  received_eq : ∀ w < numWriter, received w =
    passed.filter (fun x => x.thrSource = w) ++
      if w ∈ stopped then [script.finish w r] else []
  phase : (stopped.length < numWriter ∧ Running log ∧ items log = passed ∧
      acked.map Prod.fst = stopped) ∨
    (stopped.length = numWriter ∧ ∃ before x, Closed log before x ∧ items before = passed ∧
      x = script.finish x.thrSource r ∧ acked.map Prod.fst ++ [x.thrSource] = stopped)

variable {script : Script T} {numWriter numReader wrapSize r : ℕ} {cb cb' : OutCallbackSimple}
  {log : List (ℕ × Option (WrapItem T))} {acked : List (ℕ × SlotAddr)}
  {received received' : ℕ → List (WrapItem T)} {passed : List (WrapItem T)} {stopped : List ℕ}

theorem items_append (log log' : List (ℕ × Option (WrapItem T))) :
    items (log ++ log') = items log ++ items log' :=
  List.filterMap_append ..

theorem Running.concat (hlog : Running log) {data : Option (WrapItem T)}
    (hdata : ∀ x ∈ data, x.itemType ≠ .finish) : Running (log ++ [(0, data)]) := by
  intro entry hentry
  rcases List.mem_append.mp hentry with hold | hnew
  · exact hlog entry hold
  · rw [List.mem_singleton.mp hnew]
    exact ⟨rfl, hdata⟩

theorem Running.items_type (hlog : Running log) : ∀ x ∈ items log, x.itemType ≠ .finish := by
  intro x hx
  obtain ⟨entry, hentry, hdata⟩ := List.mem_filterMap.mp hx
  exact (hlog entry hentry).2 x hdata

theorem Closed.running_before {before : List (ℕ × Option (WrapItem T))} {x : WrapItem T}
    (hclosed : Closed log before x) : Running before := by
  obtain ⟨_, -, hbefore, -⟩ := hclosed
  exact hbefore

namespace Progress

/-- A writer whose next item arrives has not stopped. -/
theorem not_stopped (h : Progress script numWriter r cb log acked received passed stopped)
    {w : ℕ} (hw : w < numWriter) {x : WrapItem T}
    (hnext : (received w ++ [x]) <+: script.items w r) : w ∉ stopped := by
  intro hstopped
  have hreceived := h.received_eq w hw
  rw [if_pos hstopped] at hreceived
  have hfinish : script.finish w r ∈ script.records w r := by
    rcases Script.append_isPrefix_items hnext with ⟨-, hrecords⟩ | ⟨hrecords, -⟩
    · exact hrecords.subset (by simp [hreceived])
    · rw [← hrecords, hreceived]
      simp
  exact script.records_type w r _ hfinish (script.finish_type w r)

/-- As long as a writer has not stopped, the callback is running. -/
theorem length_stopped_lt (h : Progress script numWriter r cb log acked received passed stopped)
    {w : ℕ} (hw : w < numWriter) (hstopped : w ∉ stopped) : stopped.length < numWriter := by
  have hnodup : (w :: stopped).Nodup := List.nodup_cons.mpr ⟨hstopped, h.stopped_nodup⟩
  have hsubset : (w :: stopped) ⊆ List.range numWriter := by
    intro v hv
    rcases List.mem_cons.mp hv with rfl | hv
    · exact List.mem_range.mpr hw
    · exact List.mem_range.mpr (h.stopped_lt v hv)
  simpa using (List.subperm_of_subset hnodup hsubset).length_le

theorem running (h : Progress script numWriter r cb log acked received passed stopped)
    (hlt : stopped.length < numWriter) :
    Running log ∧ items log = passed ∧ acked.map Prod.fst = stopped := by
  rcases h.phase with ⟨-, hrunning⟩ | ⟨heq, -⟩
  · exact hrunning
  · omega

/-- A call that finds nothing changes nothing. -/
theorem nothing (h : Progress script numWriter r cb log acked received passed stopped) :
    Progress script numWriter r cb (log ++ [(0, none)]) acked received passed stopped := by
  refine ⟨h.passed_source, h.stopped_nodup, h.stopped_lt, h.numIn_eq, h.numStop_eq,
    h.acked_owner, h.received_eq, ?_⟩
  rcases h.phase with ⟨hlt, hrunning, hitems, hacked⟩ |
    ⟨heq, before, x, ⟨after, hlog, hbefore, htype, hafter⟩, hrest⟩
  · refine .inl ⟨hlt, hrunning.concat nofun, ?_, hacked⟩
    rw [items_append, hitems]
    simp [items]
  · refine .inr ⟨heq, before, x, ⟨after ++ [(0, none)], ?_, hbefore, htype, ?_⟩, hrest⟩
    · simp [hlog]
    · intro entry hentry
      rcases List.mem_append.mp hentry with hold | hnew
      · exact hafter entry hold
      · exact List.mem_singleton.mp hnew

/-- A record is passed on. -/
theorem forward (h : Progress script numWriter r cb log acked received passed stopped)
    {w : ℕ} (hw : w < numWriter) {x : WrapItem T} (hsource : x.thrSource = w)
    (htype : x.itemType ≠ .finish) (hnext : (received w ++ [x]) <+: script.items w r) :
    Progress script numWriter r { cb with event := cb.event + 1 } (log ++ [(0, some x)]) acked
      (Function.update received w (received w ++ [x])) (passed ++ [x]) stopped := by
  have hstopped := h.not_stopped hw hnext
  have hlt := h.length_stopped_lt hw hstopped
  obtain ⟨hrunning, hitems, hacked⟩ := h.running hlt
  refine ⟨?_, h.stopped_nodup, h.stopped_lt, h.numIn_eq, h.numStop_eq, h.acked_owner, ?_, ?_⟩
  · intro y hy
    rcases List.mem_append.mp hy with hold | hnew
    · exact h.passed_source y hold
    · rw [List.mem_singleton.mp hnew, hsource]
      exact hw
  · intro w' hw'
    by_cases hsame : w' = w
    · subst hsame
      simp [h.received_eq w' hw', hstopped, hsource]
    · have hne : x.thrSource ≠ w' := by
        rw [hsource]
        exact Ne.symm hsame
      simp [hsame, h.received_eq w' hw', hne]
  · refine .inl ⟨hlt, hrunning.concat ?_, ?_, hacked⟩
    · intro y hy
      rwa [← Option.some.inj hy]
    · rw [items_append, hitems]
      rfl

/-- What reading a `FINISH` means for the counters, whatever is done with it. -/
theorem stop (h : Progress script numWriter r cb log acked received passed stopped)
    {w : ℕ} (hw : w < numWriter) {x : WrapItem T} (htype : x.itemType = .finish)
    (hnext : (received w ++ [x]) <+: script.items w r) :
    x = script.finish w r ∧ (stopped ++ [w]).Nodup ∧ (∀ v ∈ stopped ++ [w], v < numWriter) ∧
      ∀ w' < numWriter, Function.update received w (received w ++ [x]) w' =
        passed.filter (fun y => y.thrSource = w') ++
          if w' ∈ stopped ++ [w] then [script.finish w' r] else [] := by
  have hstopped := h.not_stopped hw hnext
  obtain ⟨-, rfl⟩ : received w = script.records w r ∧ x = script.finish w r := by
    rcases Script.append_isPrefix_items hnext with ⟨hrecord, -⟩ | hfinish
    · exact absurd htype hrecord
    · exact hfinish
  refine ⟨rfl, ?_, ?_, ?_⟩
  · rw [List.nodup_append_comm]
    exact List.nodup_cons.mpr ⟨hstopped, h.stopped_nodup⟩
  · intro v hv
    rcases List.mem_append.mp hv with hold | hnew
    · exact h.stopped_lt v hold
    · rw [List.mem_singleton.mp hnew]
      exact hw
  · intro w' hw'
    by_cases hsame : w' = w
    · subst hsame
      simp [h.received_eq w' hw', hstopped]
    · simp [hsame, h.received_eq w' hw']

/-- The last `FINISH` is returned with result `1`. -/
theorem last (h : Progress script numWriter r cb log acked received passed stopped)
    {w : ℕ} (hw : w < numWriter) {x : WrapItem T} (hsource : x.thrSource = w)
    (htype : x.itemType = .finish) (hlast : cb.numStop + 1 = cb.numIn)
    (hnext : (received w ++ [x]) <+: script.items w r) :
    Progress script numWriter r { cb with numStop := cb.numStop + 1, event := cb.event + 1 }
      (log ++ [(1, some x)]) acked (Function.update received w (received w ++ [x])) passed
      (stopped ++ [w]) := by
  obtain ⟨hrunning, hitems, hacked⟩ :=
    h.running (h.length_stopped_lt hw (h.not_stopped hw hnext))
  obtain ⟨hx, hnodup, hbound, hreceived⟩ := h.stop hw htype hnext
  rw [h.numStop_eq, h.numIn_eq] at hlast
  refine ⟨h.passed_source, hnodup, hbound, h.numIn_eq, ?_, h.acked_owner, hreceived, ?_⟩
  · simp [h.numStop_eq]
  · refine .inr ⟨by simpa using hlast, log, x, ⟨[], rfl, hrunning, htype, nofun⟩, hitems, ?_, ?_⟩
    · rw [hsource]
      exact hx
    · rw [hacked, hsource]

/-- Every other `FINISH` is swallowed and acknowledged to the thread that wrote it. -/
theorem swallow (h : Progress script numWriter r cb log acked received passed stopped)
    {w : ℕ} (hw : w < numWriter) {x : WrapItem T} {addr : SlotAddr}
    (howner : ∃ i, addr = .slot w i) (htype : x.itemType = .finish)
    (hmore : cb.numStop + 1 ≠ cb.numIn)
    (hnext : (received w ++ [x]) <+: script.items w r) :
    Progress script numWriter r { cb with numStop := cb.numStop + 1, event := cb.event + 1 }
      (log ++ [(0, none)]) (acked ++ [(w, addr)])
      (Function.update received w (received w ++ [x])) passed (stopped ++ [w]) := by
  have hlt := h.length_stopped_lt hw (h.not_stopped hw hnext)
  obtain ⟨hrunning, hitems, hacked⟩ := h.running hlt
  obtain ⟨-, hnodup, hbound, hreceived⟩ := h.stop hw htype hnext
  rw [h.numStop_eq, h.numIn_eq] at hmore
  refine ⟨h.passed_source, hnodup, hbound, h.numIn_eq, ?_, ?_, hreceived, ?_⟩
  · simp [h.numStop_eq]
  · intro entry hentry
    rcases List.mem_append.mp hentry with hold | hnew
    · exact h.acked_owner entry hold
    · rw [List.mem_singleton.mp hnew]
      exact howner
  · refine .inl ⟨?_, hrunning.concat nofun, ?_, ?_⟩
    · rw [List.length_append, List.length_singleton]
      omega
    · rw [items_append, hitems]
      simp [items]
    · simp [hacked]

/-- The three ways of handling an item. -/
theorem handled (h : Progress script numWriter r cb log acked received passed stopped)
    {w : ℕ} (hw : w < numWriter) {slots : SlotAddr → WrapItem T} {addr : SlotAddr}
    (hsource : (slots addr).thrSource = w) (howner : ∃ i, addr = .slot w i)
    (hnext : (received w ++ [slots addr]) <+: script.items w r) {pulled : Pulled}
    (hhandled : OutCallbackSimple.Handled wrapSize cb w addr (slots addr) pulled cb') :
    ∃ passed' stopped', Progress script numWriter r cb'
      (log ++ [(pulled.result, pulled.data.map slots)]) (acked ++ pulled.acked.toList)
      (Function.update received w (received w ++ [slots addr])) passed' stopped' := by
  cases hhandled with
  | forward htype =>
      simp only [Option.toList_none, List.append_nil]
      exact ⟨_, _, h.forward hw hsource htype hnext⟩
  | last htype hlast =>
      simp only [Option.toList_none, List.append_nil]
      exact ⟨_, _, h.last hw hsource htype hlast hnext⟩
  | swallow htype hmore => exact ⟨_, _, h.swallow hw howner htype hmore hnext⟩

end Progress

/-- What every interleaving preserves. -/
structure Inv (script : Script T) (numWriter numReader : ℕ) (o : OutSystem T) : Prop where
  channel : o.channel.Inv numWriter numReader
  scripted : ∀ w < numWriter, ∀ r < numReader, o.channel.written w r <+: script.items w r
  progress : ∀ r < numReader, ∃ passed stopped,
    Progress script numWriter r (o.callback r) (o.returned r) (o.acked r)
      (o.channel.received r) passed stopped

variable [DecidableEq T] {o o' : OutSystem T} {s s' : Channel T} {mesh : Mesh T}

/-- Calls outside `PullRecord` receive nothing and keep to the script. -/
theorem step_of_allows {call : Channel.Call T} (hallows : script.allows s call = true)
    (hstep : s.step numWriter numReader call = some s')
    (hscripted : ∀ w < numWriter, ∀ r < numReader, s.written w r <+: script.items w r) :
    s'.received = s.received ∧
      ∀ w < numWriter, ∀ r < numReader, s'.written w r <+: script.items w r := by
  cases call with
  | read r => cases hallows
  | getSlot w =>
      simp only [Channel.step] at hstep
      split_ifs at hstep
      obtain ⟨_, -, rfl⟩ := Option.map_eq_some_iff.mp hstep
      exact ⟨rfl, hscripted⟩
  | fill w addr item =>
      simp only [Channel.step] at hstep
      split_ifs at hstep
      obtain rfl := Option.some.inj hstep
      exact ⟨rfl, hscripted⟩
  | flushWriter w =>
      simp only [Channel.step] at hstep
      split_ifs at hstep
      obtain rfl := Option.some.inj hstep
      exact ⟨rfl, hscripted⟩
  | flushReader r =>
      simp only [Channel.step] at hstep
      split_ifs at hstep
      obtain rfl := Option.some.inj hstep
      exact ⟨rfl, hscripted⟩
  | ack r addr =>
      obtain ⟨hwritten, hreceived⟩ := Channel.step_ack_logs hstep
      exact ⟨hreceived, by rwa [hwritten]⟩
  | write w r addr =>
      simp only [Channel.step] at hstep
      split_ifs at hstep
      obtain ⟨_, -, rfl⟩ := Option.map_eq_some_iff.mp hstep
      refine ⟨rfl, fun w' hw' r' hr' => ?_⟩
      change Channel.log s.written w r (s.mesh.slots addr) w' r' <+: _
      by_cases hsame : w' = w ∧ r' = r
      · obtain ⟨rfl, rfl⟩ := hsame
        rw [Channel.log_self]
        obtain ⟨rest, hrest⟩ := hscripted w' hw' r' hr'
        -- the guard of the script names the item at the end of what was written
        have hitem : rest[0]? = some (s.mesh.slots addr) := by
          have hguard := eq_of_beq hallows
          rw [← hrest, List.getElem?_append_right le_rfl, Nat.sub_self] at hguard
          exact hguard
        obtain ⟨tail, rfl⟩ : ∃ tail, rest = s.mesh.slots addr :: tail := by
          cases rest with
          | nil => cases hitem
          | cons y tail => exact ⟨tail, by rw [Option.some.inj hitem]⟩
        exact ⟨tail, by rw [← hrest]; simp⟩
      · rw [Channel.log_of_ne (not_and.mp hsame)]
        exact hscripted w' hw' r' hr'

theorem Inv.init (hm : Mesh.Started mesh numWriter numReader) (hwriter : 0 < numWriter)
    (hreader : 0 < numReader) :
    (machine script numWriter numReader wrapSize mesh).init.Inv script numWriter numReader where
  channel := Channel.Inv.init hm hreader
  scripted := fun _ _ _ _ => List.nil_prefix
  progress := by
    intro r _
    refine ⟨[], [], nofun, List.nodup_nil, nofun, rfl, rfl, nofun, fun _ _ => rfl, ?_⟩
    exact .inl ⟨hwriter, nofun, rfl, rfl⟩

omit [DecidableEq T] in
/-- The next item of a writer continues what was received from it, within the
script. -/
theorem Inv.next_isPrefix (ho : o.Inv script numWriter numReader) (hr : r < numReader) {w : ℕ}
    (hw : w < numWriter) {addr : SlotAddr} {rest : List SlotAddr}
    (htransit : o.channel.inTransit w r = addr :: rest) :
    (o.channel.received r w ++ [o.channel.mesh.slots addr]) <+: script.items w r := by
  have hwritten := ho.channel.written_eq w hw r hr
  rw [htransit] at hwritten
  have hpre : (o.channel.received r w ++ [o.channel.mesh.slots addr]) <+:
      o.channel.written w r :=
    ⟨rest.map o.channel.mesh.slots, by simp [hwritten]⟩
  exact hpre.trans (ho.scripted w hw r hr)

/-- One call of `PullRecord`. -/
theorem Inv.pull (ho : o.Inv script numWriter numReader)
    (hstep : step script numWriter numReader wrapSize o (.pull r) = some o') :
    o'.Inv script numWriter numReader := by
  obtain ⟨⟨pulled, cb', s'⟩, hpull, rfl⟩ := Option.map_eq_some_iff.mp hstep
  have hr : r < numReader := by
    by_contra hr
    simp [OutCallbackSimple.pullRecord, Channel.step, hr] at hpull
  obtain ⟨pulled, cb', s', hpull', hs', hwritten, hslots, hcases⟩ :=
    OutCallbackSimple.pullRecord_cases ho.channel hr (o.callback r) wrapSize
  obtain ⟨rfl, rfl, rfl⟩ : pulled = _ ∧ cb' = _ ∧ s' = _ := by
    simpa using hpull'.symm.trans hpull
  refine ⟨hs', by simpa only [hwritten] using ho.scripted, fun r' hr' => ?_⟩
  obtain ⟨passed, stopped, hprogress⟩ := ho.progress r' hr'
  by_cases hsame : r' = r
  · subst hsame
    simp only [Function.update_self]
    rcases hcases with hnothing | ⟨w, hw, addr, hitem⟩
    · obtain ⟨rfl, rfl, hreceived, -⟩ := hnothing
      simp only [hreceived, Option.toList_none, List.append_nil, Option.map_none]
      exact ⟨passed, stopped, hprogress.nothing⟩
    · rw [hslots, hitem.received_eq]
      have hlog : Channel.log o.channel.received r' w (o.channel.mesh.slots addr) r' =
          Function.update (o.channel.received r') w
            (o.channel.received r' w ++ [o.channel.mesh.slots addr]) := by
        simp [Channel.log]
      rw [hlog]
      exact hprogress.handled hw hitem.source_eq hitem.owner
        (ho.next_isPrefix hr hw hitem.transit_eq) hitem.handled
  · have hreceived : s'.received r' = o.channel.received r' := by
      rcases hcases with hnothing | ⟨w, hw, addr, hitem⟩
      · rw [hnothing.received_eq]
      · rw [hitem.received_eq]
        simp [Channel.log, hsame]
    simp only [Function.update_of_ne hsame, hreceived]
    exact ⟨passed, stopped, hprogress⟩

theorem Inv.step (ho : o.Inv script numWriter numReader) {action : Action T}
    (hstep : step script numWriter numReader wrapSize o action = some o') :
    o'.Inv script numWriter numReader := by
  cases action with
  | call call =>
      simp only [OutSystem.step] at hstep
      split_ifs at hstep with hallows
      obtain ⟨s', hcall, rfl⟩ := Option.map_eq_some_iff.mp hstep
      obtain ⟨hreceived, hscripted⟩ := step_of_allows hallows hcall ho.scripted
      refine ⟨ho.channel.step hcall, hscripted, ?_⟩
      simpa only [hreceived] using ho.progress
  | pull r => exact ho.pull hstep

theorem Inv.reachable (hm : Mesh.Started mesh numWriter numReader) (hwriter : 0 < numWriter)
    (hreader : 0 < numReader)
    (hreach : (machine script numWriter numReader wrapSize mesh).Reachable o) :
    o.Inv script numWriter numReader :=
  Machine.Reachable.invariant _ (Inv.init hm hwriter hreader) (fun ho hstep => ho.step hstep)
    hreach

/-! ## Completion -/

/-- Every writer has written and published its whole script for destination `r`. -/
def Published (script : Script T) (numWriter r : ℕ) (o : OutSystem T) : Prop :=
  ∀ w < numWriter, o.channel.written w r = script.items w r ∧
    (o.channel.mesh.ringAt (.reader r) w).visible = (o.channel.inTransit w r).length

/-- What destination `r` has still to read. -/
def remaining (numWriter r : ℕ) (o : OutSystem T) : ℕ :=
  ∑ w ∈ Finset.range numWriter, (o.channel.inTransit w r).length

omit [DecidableEq T] in
/-- While the callback is running, the `FINISH` of some writer is still to come. -/
theorem Inv.exists_inTransit (ho : o.Inv script numWriter numReader) (hr : r < numReader)
    (hpublished : o.Published script numWriter r)
    (hprogress : Progress script numWriter r (o.callback r) (o.returned r) (o.acked r)
      (o.channel.received r) passed stopped) (hlt : stopped.length < numWriter) :
    ∃ w < numWriter, o.channel.inTransit w r ≠ [] := by
  obtain ⟨w, hw, hstopped⟩ : ∃ w < numWriter, w ∉ stopped := by
    by_contra hall
    push Not at hall
    have hsubset : List.range numWriter ⊆ stopped :=
      fun w hw => hall w (List.mem_range.mp hw)
    have hle := (List.subperm_of_subset List.nodup_range hsubset).length_le
    rw [List.length_range] at hle
    omega
  refine ⟨w, hw, fun hempty => ?_⟩
  have hreceived := hprogress.received_eq w hw
  have hwritten := ho.channel.written_eq w hw r hr
  rw [hempty, (hpublished w hw).1, hreceived, if_neg hstopped] at hwritten
  -- nothing passed on so far is a `FINISH`, but the script ends with one
  have hfinish : script.finish w r ∈ passed := by
    have hmem : script.finish w r ∈ script.items w r := by simp [Script.items]
    rw [hwritten] at hmem
    simp only [List.map_nil, List.append_nil] at hmem
    exact (List.mem_filter.mp hmem).1
  obtain ⟨hrunning, hitems, -⟩ := hprogress.running hlt
  rw [← hitems] at hfinish
  exact hrunning.items_type _ hfinish (script.finish_type w r)

/-- A call of `PullRecord` while the callback is running and everything is published
leaves less to read. -/
theorem Inv.pull_remaining (ho : o.Inv script numWriter numReader) (wrapSize : ℕ)
    (hr : r < numReader)
    (hpublished : o.Published script numWriter r)
    (hprogress : Progress script numWriter r (o.callback r) (o.returned r) (o.acked r)
      (o.channel.received r) passed stopped) (hlt : stopped.length < numWriter) :
    ∃ o', OutSystem.step script numWriter numReader wrapSize o (.pull r) = some o' ∧
      o'.Published script numWriter r ∧ o'.remaining numWriter r < o.remaining numWriter r := by
  obtain ⟨pulled, cb', s', hpull, -, hwritten, -, hcases⟩ :=
    OutCallbackSimple.pullRecord_cases ho.channel hr (o.callback r) wrapSize
  refine ⟨_, by rw [OutSystem.step, hpull]; rfl, ?_⟩
  obtain ⟨w, hw, addr, hitem⟩ :
      ∃ w < numWriter, ∃ addr, OutCallbackSimple.PulledItem wrapSize r (o.callback r) o.channel
        w addr pulled cb' s' := by
    rcases hcases with hnothing | hitem
    · obtain ⟨w, hw, hne⟩ := ho.exists_inTransit hr hpublished hprogress hlt
      have hvisible := (hpublished w hw).2
      rw [hnothing.invisible w hw] at hvisible
      exact absurd (List.length_eq_zero_iff.mp hvisible.symm) hne
    · exact hitem
  have hlength : (o.channel.inTransit w r).length = (s'.inTransit w r).length + 1 := by
    rw [hitem.transit_eq]
    rfl
  have hother (w' : ℕ) (hne : w' ≠ w) : s'.inTransit w' r = o.channel.inTransit w' r ∧
      (s'.mesh.ringAt (.reader r) w').visible =
        (o.channel.mesh.ringAt (.reader r) w').visible := by
    simpa [OutCallbackSimple.backlog] using hitem.others w' hne
  constructor
  · intro w' hw'
    change s'.written w' r = _ ∧ (s'.mesh.ringAt (.reader r) w').visible = _
    rw [hwritten]
    refine ⟨(hpublished w' hw').1, ?_⟩
    by_cases hsame : w' = w
    · subst hsame
      have hvisible := hitem.visible_eq
      rw [(hpublished w' hw').2, hlength] at hvisible
      exact (Nat.succ.inj hvisible).symm
    · have hvisible := (hpublished w' hw').2
      rwa [← (hother w' hsame).1, ← (hother w' hsame).2] at hvisible
  · apply Finset.sum_lt_sum
    · intro w' _
      by_cases hsame : w' = w
      · subst hsame
        change (s'.inTransit w' r).length ≤ _
        omega
      · change (s'.inTransit w' r).length ≤ _
        rw [(hother w' hsame).1]
    · refine ⟨w, Finset.mem_range.mpr hw, ?_⟩
      change (s'.inTransit w r).length < _
      omega

/-- Once everything is published, calling `PullRecord` again and again gets the result
`1`. -/
theorem Inv.exists_closed (ho : o.Inv script numWriter numReader) (hr : r < numReader)
    (hpublished : o.Published script numWriter r) :
    ∃ k o', (machine script numWriter numReader wrapSize mesh).runFrom o
        (List.replicate k (.pull r)) = some o' ∧
      ∃ before x, Closed (o'.returned r) before x := by
  induction hmeasure : o.remaining numWriter r using Nat.strong_induction_on generalizing o with
  | _ n ih =>
      obtain ⟨passed, stopped, hprogress⟩ := ho.progress r hr
      rcases hprogress.phase with ⟨hlt, -⟩ | ⟨-, before, x, hclosed, -⟩
      · obtain ⟨o₁, hstep, hpublished₁, hless⟩ :=
          ho.pull_remaining wrapSize hr hpublished hprogress hlt
        obtain ⟨k, o', hrun, hclosed⟩ :=
          ih _ (hmeasure ▸ hless) (ho.pull hstep) hpublished₁ rfl
        refine ⟨k + 1, o', ?_, hclosed⟩
        rw [List.replicate_succ, Machine.runFrom_cons]
        change (OutSystem.step script numWriter numReader wrapSize o (.pull r)).bind _ = _
        rw [hstep]
        exact hrun
      · exact ⟨0, o, rfl, before, x, hclosed⟩

omit [DecidableEq T] in
/-- What was passed on from each writer is a prefix of its records, and all of them
once its `FINISH` has been read. -/
theorem Inv.passed_isPrefix (ho : o.Inv script numWriter numReader) (hr : r < numReader)
    (hprogress : Progress script numWriter r (o.callback r) (o.returned r) (o.acked r)
      (o.channel.received r) passed stopped) (hpassed : ∀ x ∈ passed, x.itemType ≠ .finish)
    {w : ℕ} (hw : w < numWriter) :
    passed.filter (fun x => x.thrSource = w) <+: script.records w r ∧
      (w ∈ stopped → passed.filter (fun x => x.thrSource = w) = script.records w r) := by
  have hpre : o.channel.received r w <+: script.items w r := by
    have hwritten := ho.channel.written_eq w hw r hr
    exact .trans ⟨_, hwritten.symm⟩ (ho.scripted w hw r hr)
  rw [hprogress.received_eq w hw] at hpre
  by_cases hstopped : w ∈ stopped
  · rw [if_pos hstopped] at hpre
    have hall : passed.filter (fun x => x.thrSource = w) = script.records w r := by
      rcases Script.append_isPrefix_items hpre with ⟨htype, -⟩ | ⟨hall, -⟩
      · exact absurd (script.finish_type w r) htype
      · exact hall
    exact ⟨hall ▸ List.prefix_rfl, fun _ => hall⟩
  · rw [if_neg hstopped, List.append_nil] at hpre
    refine ⟨?_, fun h => absurd h hstopped⟩
    rcases List.prefix_concat_iff.mp hpre with heq | hrecords
    · have hmem : script.finish w r ∈ passed.filter (fun x => x.thrSource = w) := by
        rw [heq]
        simp
      exact absurd (script.finish_type w r) (hpassed _ (List.mem_filter.mp hmem).1)
    · exact hrecords

/-- **One `FINISH` for each destination, and last.** In every interleaving of writers
that follow their scripts with calls of `PullRecord` and `Ack`: `PullRecord` never
blocks; as long as it has not returned `1` it has returned `0` and no `FINISH`, and
the items of each writer in order; once it has returned `1`, that call returned a
`FINISH`, the items before it interleave the records of all writers, nothing comes
after it, and every other `FINISH` was acknowledged once, to the thread that wrote
it; and after everything is published the result `1` is reached. -/
theorem pullRecord_one_finish_last (script : Script T) (cleared : WrapItem T)
    (uninit wrapSize : ℕ) {numWriter numReader : ℕ} (hwriter : 0 < numWriter)
    (hreader : 0 < numReader) {mesh : Mesh T}
    (hstart : Mesh.start cleared uninit numWriter numReader = some mesh) {o : OutSystem T}
    (hreach : (machine script numWriter numReader wrapSize mesh).Reachable o) {r : ℕ}
    (hr : r < numReader) :
    (∃ o', step script numWriter numReader wrapSize o (.pull r) = some o') ∧
    (Running (o.returned r) ∧
        (∀ x ∈ items (o.returned r), x.thrSource < numWriter) ∧
        (∀ w < numWriter, (items (o.returned r)).filter (fun x => x.thrSource = w) <+:
          script.records w r) ∨
      ∃ before x, Closed (o.returned r) before x ∧ x = script.finish x.thrSource r ∧
        Interleaves (fun w : Fin numWriter => script.records w r) (items before) ∧
        ((o.acked r).map Prod.fst ++ [x.thrSource]).Perm (List.range numWriter)) ∧
    ((o.acked r).map Prod.fst).Nodup ∧
    (∀ entry ∈ o.acked r, entry.1 < numWriter ∧ ∃ i, entry.2 = .slot entry.1 i) ∧
    (o.Published script numWriter r → ∃ k o',
      (machine script numWriter numReader wrapSize mesh).runFrom o
        (List.replicate k (.pull r)) = some o' ∧
      ∃ before x, Closed (o'.returned r) before x) := by
  have ho := Inv.reachable (Mesh.started_of_start hstart) hwriter hreader hreach
  obtain ⟨passed, stopped, hprogress⟩ := ho.progress r hr
  have hacked : (o.acked r).map Prod.fst <+: stopped := by
    rcases hprogress.phase with ⟨-, -, -, hacked⟩ | ⟨-, _, x, -, -, -, hacked⟩
    · exact hacked ▸ List.prefix_rfl
    · exact ⟨[x.thrSource], hacked⟩
  refine ⟨?_, ?_, hprogress.stopped_nodup.sublist hacked.sublist, ?_, ho.exists_closed hr⟩
  · obtain ⟨pulled, cb', s', hpull, -⟩ :=
      OutCallbackSimple.pullRecord_cases ho.channel hr (o.callback r) wrapSize
    exact ⟨_, by rw [step, hpull]; rfl⟩
  · rcases hprogress.phase with ⟨hlt, hrunning, hitems, -⟩ |
      ⟨heq, before, x, hclosed, hitems, hx, hstopped⟩
    · have hrecord := hrunning.items_type
      rw [hitems] at hrecord
      rw [hitems]
      exact .inl ⟨hrunning, hprogress.passed_source,
        fun w hw => (ho.passed_isPrefix hr hprogress hrecord hw).1⟩
    · have hperm : stopped.Perm (List.range numWriter) := by
        have hsubset : stopped ⊆ List.range numWriter :=
          fun w hw => List.mem_range.mpr (hprogress.stopped_lt w hw)
        apply (List.subperm_of_subset hprogress.stopped_nodup hsubset).perm_of_length_le
        simp [heq]
      have hrecord := hclosed.running_before.items_type
      rw [hitems] at hrecord
      refine .inr ⟨before, x, hclosed, hx, ?_, hstopped ▸ hperm⟩
      rw [hitems]
      apply interleaves_of_filter hprogress.passed_source
      intro w
      exact (ho.passed_isPrefix hr hprogress hrecord w.isLt).2
        (hperm.mem_iff.mpr (List.mem_range.mpr w.isLt))
  · intro entry hentry
    have hmem : entry.1 ∈ stopped := hacked.subset (List.mem_map_of_mem hentry)
    exact ⟨hprogress.stopped_lt _ hmem, hprogress.acked_owner entry hentry⟩

/-- Two writers, each with one record for each destination. -/
def exampleScript : Script ℕ where
  records := fun w r => [⟨.normal, 0, w, 0, r⟩]
  finish := fun w _ => ⟨.finish, 0, w, 0, 0⟩
  records_type := by simp
  records_source := by simp
  finish_type := by simp
  finish_source := by simp

/-- Both writers write to the second destination, which then pulls until nothing is left. -/
def exampleRun : List (Action ℕ) :=
  [.call (.getSlot 0), .call (.fill 0 (.slot 0 0) ⟨.normal, 0, 0, 0, 1⟩),
    .call (.write 0 1 (.slot 0 0)), .call (.getSlot 1),
    .call (.fill 1 (.slot 1 0) ⟨.normal, 0, 1, 0, 1⟩), .call (.write 1 1 (.slot 1 0)),
    .call (.getSlot 0), .call (.fill 0 (.slot 0 1) ⟨.finish, 0, 0, 0, 0⟩),
    .call (.write 0 1 (.slot 0 1)), .call (.getSlot 1),
    .call (.fill 1 (.slot 1 1) ⟨.finish, 0, 1, 0, 0⟩), .call (.write 1 1 (.slot 1 1)),
    .call (.flushWriter 0), .call (.flushWriter 1), .pull 1, .pull 1, .pull 1, .pull 1, .pull 1]

/-- The destination gets both records and the second `FINISH`; the first one is acknowledged. -/
theorem pullRecord_one_finish_last_two_writers :
    ∃ mesh o, Mesh.start (T := ℕ) ⟨.normal, 0, 0, 0, 0⟩ 0 2 2 = some mesh ∧
      (machine exampleScript 2 2 48 mesh).runFrom (machine exampleScript 2 2 48 mesh).init
        exampleRun = some o ∧
      o.returned 1 = [(0, some ⟨.normal, 0, 0, 0, 1⟩), (0, some ⟨.normal, 0, 1, 0, 1⟩), (0, none),
        (1, some ⟨.finish, 0, 1, 0, 0⟩), (0, none)] ∧
      ∃ before x, Closed (o.returned 1) before x ∧ x = exampleScript.finish x.thrSource 1 ∧
        Interleaves (fun w : Fin 2 => exampleScript.records w 1) (items before) ∧
        ((o.acked 1).map Prod.fst ++ [x.thrSource]).Perm (List.range 2) := by
  have hrun : ((Mesh.start (T := ℕ) ⟨.normal, 0, 0, 0, 0⟩ 0 2 2).bind fun mesh =>
      ((machine exampleScript 2 2 48 mesh).runFrom (machine exampleScript 2 2 48 mesh).init
        exampleRun).map fun o => o.returned 1) =
      some [(0, some ⟨.normal, 0, 0, 0, 1⟩), (0, some ⟨.normal, 0, 1, 0, 1⟩), (0, none),
        (1, some ⟨.finish, 0, 1, 0, 0⟩), (0, none)] := by
    rw [Mesh.start_eq_filled]
    decide +kernel
  obtain ⟨mesh, hstart, hmapped⟩ := Option.bind_eq_some_iff.mp hrun
  obtain ⟨o, ho, hreturned⟩ := Option.map_eq_some_iff.mp hmapped
  refine ⟨mesh, o, hstart, ho, hreturned, ?_⟩
  rcases (pullRecord_one_finish_last exampleScript _ _ 48 (by decide) (by decide) hstart
    ⟨exampleRun, ho⟩ (show 1 < 2 by decide)).2.1 with ⟨hrunning, -⟩ | hclosed
  · rw [hreturned] at hrunning
    exact absurd (hrunning (1, some ⟨.finish, 0, 1, 0, 0⟩) (by decide)).1 (by decide)
  · exact hclosed

end OutSystem

end AFStream.Thread

/-
# The poll loop of an upstream thread

All connections of a worker to its upstream workers are served by one loop. Every
connection has a stream engine and an out callback of its own, but they share one in
callback, which reports the end of the input only to the engine that brings the last
`FINISH`. The loop ends with the first engine that has stopped in both directions. The
module shows under which order of events all engines have then sent their own reverse
`FINISH`.
-/

import AFStream.Net.StreamEngine
import AFStream.Thread.UpThreadNet

namespace AFStream.Thread

open AFStream.Foundation AFStream.Net

universe u

/-- The engine of one connection. -/
structure PollEngine where
  output : StreamEngine
  inputStopped : Bool
  terminated : Bool

/-- `epoll_t` with the engines that it polls and their in callback. -/
structure PollLoop (T : Type u) where
  inCallback : InCallbackSimple T
  engines : ℕ → PollEngine
  stopping : Bool

/-- A call that the loop makes. -/
inductive PollEvent (T : Type u)
  | /-- `in_event`, with the items that are decoded from what it reads. -/
    inEvent (i : ℕ) (items : List (WrapItem T))
  | outEvent (i : ℕ) (call : OutCall)

namespace InCallbackSimple

variable {T : Type u}

/-- The loop of `in_event`: whether some call of `PushRecord` was answered with 1. -/
def decodeAndPush (cb : InCallbackSimple T) (items : List (WrapItem T)) :
    Option (Bool × InCallbackSimple T) :=
  items.foldlM (fun state item => (state.2.pushRecord item).map fun (result, cb) =>
    (state.1 || result ≠ 0, cb)) (false, cb)

/-- The workers whose first `FINISH` is among the items. -/
def newSources (cb : InCallbackSimple T) (items : List (WrapItem T)) : Finset ℕ :=
  (finishSources items).toFinset.filter fun peer => cb.stopped peer = false

/-- With these items the last worker finishes. -/
def LastArrives (cb : InCallbackSimple T) (items : List (WrapItem T)) : Prop :=
  cb.numStop < cb.numIn ∧ cb.numIn ≤ cb.numStop + (cb.newSources items).card

instance (cb : InCallbackSimple T) (items : List (WrapItem T)) :
    Decidable (cb.LastArrives items) := inferInstanceAs (Decidable (_ ∧ _))

variable {cb cb' : InCallbackSimple T} {item : WrapItem T} {items : List (WrapItem T)}

theorem mem_newSources {peer : ℕ} :
    peer ∈ cb.newSources items ↔ peer ∈ finishSources items ∧ cb.stopped peer = false := by
  rw [newSources, Finset.mem_filter, List.mem_toFinset]

theorem mem_finishSources_cons {peer : ℕ} :
    peer ∈ finishSources (item :: items) ↔
      item.itemType = .finish ∧ peer = item.workerSource ∨ peer ∈ finishSources items := by
  by_cases htype : item.itemType = .finish
  · simp [finishSources, htype]
  · simp [finishSources, htype]

/-- A record, or a repeated `FINISH`. -/
theorem newSources_cons_of_old
    (hold : item.itemType = .finish → cb.stopped item.workerSource = true) :
    cb.newSources (item :: items) = cb.newSources items := by
  ext peer
  rw [mem_newSources, mem_newSources, mem_finishSources_cons]
  constructor
  · rintro ⟨⟨htype, rfl⟩ | hmem, hopen⟩
    · rw [hold htype] at hopen
      cases hopen
    · exact ⟨hmem, hopen⟩
  · rintro ⟨hmem, hopen⟩
    exact ⟨.inr hmem, hopen⟩

/-- The first `FINISH` of a worker. -/
theorem card_newSources_cons (items : List (WrapItem T)) (htype : item.itemType = .finish)
    (hopen : cb.stopped item.workerSource = false)
    (hstopped : cb'.stopped = Function.update cb.stopped item.workerSource true) :
    (cb.newSources (item :: items)).card = (cb'.newSources items).card + 1 := by
  have hnew : item.workerSource ∉ cb'.newSources items := by
    rw [mem_newSources, hstopped, Function.update_self]
    exact fun h => absurd h.2 (by decide)
  rw [← Finset.card_insert_of_notMem hnew]
  congr 1
  ext peer
  rw [mem_newSources, mem_finishSources_cons, Finset.mem_insert, mem_newSources, hstopped]
  by_cases hpeer : peer = item.workerSource
  · simp [hpeer, htype, hopen]
  · simp [hpeer]

/-- `in_event` is told to stop only if the last worker finishes. -/
theorem lastArrives_of_decodeAndPush (h : cb.decodeAndPush items = some (true, cb')) :
    cb.LastArrives items := by
  -- the flag was set before, or it is set by one of the items
  have hfold : ∀ (items : List (WrapItem T)) (stop : Bool) (cb : InCallbackSimple T),
      items.foldlM (fun state item => (state.2.pushRecord item).map fun (result, cb) =>
        (state.1 || result ≠ 0, cb)) (stop, cb) = some (true, cb') →
      stop = true ∨ cb.LastArrives items := by
    intro items
    induction items with
    | nil =>
        intro stop cb hrun
        exact .inl (Prod.mk.inj (Option.some.inj hrun)).1
    | cons item rest ih =>
        intro stop cb hrun
        rw [List.foldlM_cons] at hrun
        obtain ⟨⟨stop₁, cb₁⟩, hcall, hrest⟩ := Option.bind_eq_some_iff.mp hrun
        obtain ⟨⟨result, cb₂⟩, hpush, hstate⟩ := Option.map_eq_some_iff.mp hcall
        cases hstate
        change cb.pushRecord item = some (result, cb₁) at hpush
        have hih := ih _ _ hrest
        obtain ⟨hin, ⟨hold, rfl, hstopped, hstop⟩ | ⟨htype, hopen, rfl, hstopped, hstop⟩⟩ :=
          pushRecord_counters hpush
        · have hsources : cb₁.newSources rest = cb.newSources (item :: rest) := by
            rw [newSources_cons_of_old hold, newSources, newSources, hstopped]
          rw [LastArrives, hin, hstop, hsources] at hih
          simpa [LastArrives] using hih
        · have hcard := card_newSources_cons rest htype hopen hstopped
          rw [LastArrives, hin, hstop] at hih
          rw [LastArrives, hcard]
          by_cases hlast : cb.numStop + 1 = cb.numIn
          · right
            omega
          · rw [if_neg hlast] at hih
            rcases hih with hflag | harrives
            · exact .inl (by simpa using hflag)
            · right
              omega
  exact (hfold items false cb h).resolve_left (by decide)

end InCallbackSimple

namespace PollLoop

variable {T : Type u}

/-- The loop with its connections; engine `i` has `records i` and then `finish i` to send. -/
def create (numIn numQueue : ℕ) (records : ℕ → List Record) (finish : ℕ → Record) :
    PollLoop T where
  inCallback := .create numIn numQueue
  engines := fun i =>
    { output := .create (records i ++ [finish i])
      inputStopped := false
      terminated := false }
  stopping := false

/-- `in_event`. Polling for input ends when the input has stopped. -/
def inEvent (s : PollLoop T) (i : ℕ) (items : List (WrapItem T)) : Option (PollLoop T) :=
  let e := s.engines i
  if e.terminated ∨ e.inputStopped then none
  else
    (s.inCallback.decodeAndPush items).map fun (stop, cb) =>
      let terminate := stop && e.output.outputStopped
      { inCallback := cb
        engines := Function.update s.engines i
          { e with inputStopped := stop, terminated := terminate }
        stopping := s.stopping || terminate }

/-- `out_event` -/
def outEvent (s : PollLoop T) (i : ℕ) (call : OutCall) : Option (PollLoop T) :=
  let e := s.engines i
  if e.terminated then none
  else
    (e.output.outEvent call).map fun output =>
      let terminate := output.handled && e.inputStopped
      { s with
        engines := Function.update s.engines i
          { e with output := output, terminated := terminate }
        stopping := s.stopping || terminate }

/-- Every order of calls. After `stopping` has been set, the loop still handles the rest
of the events that it has got. -/
def machine (numIn numQueue : ℕ) (records : ℕ → List Record) (finish : ℕ → Record) :
    Machine (PollLoop T) (PollEvent T) where
  init := create numIn numQueue records finish
  step s
    | .inEvent i items => if i < numIn then s.inEvent i items else none
    | .outEvent i call => if i < numIn then s.outEvent i call else none

variable (numIn : ℕ) (records : ℕ → List Record) (finish : ℕ → Record)

/-- When the loop stops, every engine has pulled its `FINISH`, and the socket has got all
its bytes. -/
def StopsComplete (s : PollLoop T) : Prop :=
  s.stopping = true → ∀ i < numIn, (s.engines i).output.queue = [] ∧
    (s.engines i).output.sent = StreamEngine.frames (records i ++ [finish i])

/-- All other engines have sent their `FINISH`. -/
def OthersDone (s : PollLoop T) (i : ℕ) : Prop :=
  ∀ j < numIn, j ≠ i → (s.engines j).output.handled = true

instance (s : PollLoop T) (i : ℕ) : Decidable (s.OthersDone numIn i) :=
  inferInstanceAs (Decidable (∀ j < numIn, j ≠ i → (s.engines j).output.handled = true))

/-- The order of events that the code relies on: the engine that brings the last `FINISH`
is the last to pull its own; and the socket takes all of a batch with a `FINISH`. -/
def InOrder (s : PollLoop T) : PollEvent T → Prop
  | .inEvent i items =>
    (s.engines i).output.handled = true → s.inCallback.LastArrives items → s.OthersDone numIn i
  | .outEvent i call =>
    let e := (s.engines i).output
    e.out = [] → e.WithinReach call.available →
      ((s.engines i).inputStopped = true → s.OthersDone numIn i) ∧
      call.accept = min outBatchSize (e.unsent (records i) (finish i)) ∧
      e.unsent (records i) (finish i) ≤
        outBatchSize + max (finish i).bytes.length outBatchSize

instance (s : PollLoop T) : ∀ event, Decidable (s.InOrder numIn records finish event)
  | .inEvent _ _ => inferInstanceAs (Decidable (_ = true → _ → _))
  | .outEvent _ _ => inferInstanceAs (Decidable (_ = [] → _ → _ ∧ _ ∧ _))

/-! ## Every call keeps the invariant -/

/-- The output side of an engine: nothing is lost before the end, and nothing at the end. -/
structure EngineOk (records : List Record) (finish : Record) (e : StreamEngine) : Prop where
  running : e.handled = false → e.Inv records finish
  done : e.handled = true → e.queue = [] ∧ e.sent = StreamEngine.frames (records ++ [finish])
  flags : e.outputStopped = true → e.handled = true

structure Inv (s : PollLoop T) : Prop where
  engines : ∀ i, EngineOk (records i) (finish i) (s.engines i).output
  stops : s.stopping = true → ∀ i < numIn, (s.engines i).output.handled = true

variable {numIn} {numQueue : ℕ} {records} {finish} {s s' : PollLoop T}

theorem Inv.init : Inv numIn records finish
    ((machine numIn numQueue records finish).init : PollLoop T) where
  engines := fun _ =>
    { running := fun _ => StreamEngine.Inv.init
      done := by
        intro h
        cases h
      flags := by
        intro h
        cases h }
  stops := by
    intro h
    cases h

/-- A call of `out_event` that meets the condition. -/
theorem EngineOk.outEvent {rs : List Record} {last : Record} {e e' : StreamEngine}
    (h : EngineOk rs last e) {call : OutCall}
    (haccept : e.out = [] → e.WithinReach call.available →
      call.accept = min outBatchSize (e.unsent rs last) ∧
        e.unsent rs last ≤ outBatchSize + max last.bytes.length outBatchSize)
    (hstep : e.outEvent call = some e') :
    EngineOk rs last e' ∧
      (e'.handled = true → e.out = [] ∧ e.WithinReach call.available) := by
  have hinv := h.running (StreamEngine.handled_of_outEvent hstep)
  rcases hinv.outEvent_cases hstep with ⟨hopen, hinv'⟩ | ⟨hhandled, hqueue, hout, hreach, -⟩
  · refine ⟨⟨fun _ => hinv', ?_, ?_⟩, ?_⟩
    · intro hhandled
      rw [hopen] at hhandled
      cases hhandled
    · intro hstopped
      rw [hinv'.running] at hstopped
      cases hstopped
    · intro hhandled
      rw [hopen] at hhandled
      cases hhandled
  · refine ⟨⟨?_, fun _ => ⟨hqueue, ?_⟩, fun _ => hhandled⟩, fun _ => ⟨hout, hreach⟩⟩
    · intro hopen
      rw [hhandled] at hopen
      cases hopen
    · exact (hinv.sent_eq_frames_iff hstep hhandled).mpr (haccept hout hreach)

/-- Under the invariant a loop that stops has sent everything. -/
theorem Inv.stopsComplete (h : s.Inv numIn records finish) :
    s.StopsComplete numIn records finish :=
  fun hstops i hi => (h.engines i).done (h.stops hstops i hi)

/-- All engines are done, if one is and all others are. -/
theorem handled_of_othersDone {engines : ℕ → PollEngine} {i : ℕ}
    (hi : (engines i).output.handled = true)
    (hothers : ∀ j < numIn, j ≠ i → (engines j).output.handled = true) :
    ∀ j < numIn, (engines j).output.handled = true := by
  intro j hj
  by_cases hsame : j = i
  · rwa [hsame]
  · exact hothers j hj hsame

theorem Inv.inEvent (h : s.Inv numIn records finish) {i : ℕ} {items : List (WrapItem T)}
    (horder : s.InOrder numIn records finish (.inEvent i items))
    (hstep : s.inEvent i items = some s') : s'.Inv numIn records finish := by
  unfold PollLoop.inEvent at hstep
  dsimp only at hstep
  split_ifs at hstep
  obtain ⟨⟨stop, cb⟩, hpush, hs'⟩ := Option.map_eq_some_iff.mp hstep
  have houtput : ∀ j, (s'.engines j).output = (s.engines j).output := by
    intro j
    rw [← hs']
    by_cases hsame : j = i
    · subst hsame
      simp only [Function.update_self]
    · simp only [Function.update_of_ne hsame]
  have hstopping : s'.stopping = (s.stopping || (stop && (s.engines i).output.outputStopped)) := by
    rw [← hs']
  constructor
  · intro j
    rw [houtput]
    exact h.engines j
  · intro hstops
    simp only [houtput]
    rw [hstopping, Bool.or_eq_true, Bool.and_eq_true] at hstops
    rcases hstops with hbefore | ⟨rfl, hstopped⟩
    · exact h.stops hbefore
    · have hhandled := (h.engines i).flags hstopped
      exact handled_of_othersDone hhandled
        (horder hhandled (InCallbackSimple.lastArrives_of_decodeAndPush hpush))

theorem Inv.outEvent (h : s.Inv numIn records finish) {i : ℕ} {call : OutCall}
    (horder : s.InOrder numIn records finish (.outEvent i call))
    (hstep : s.outEvent i call = some s') : s'.Inv numIn records finish := by
  unfold PollLoop.outEvent at hstep
  dsimp only at hstep
  split_ifs at hstep
  obtain ⟨output, houtput, hs'⟩ := Option.map_eq_some_iff.mp hstep
  obtain ⟨hengine, hreach⟩ := (h.engines i).outEvent (fun hout hwithin =>
    (horder hout hwithin).2) houtput
  have hself : (s'.engines i).output = output := by
    rw [← hs']
    simp only [Function.update_self]
  have hothers : ∀ j, j ≠ i → s'.engines j = s.engines j := by
    intro j hne
    rw [← hs']
    simp only [Function.update_of_ne hne]
  have hengines : ∀ j, EngineOk (records j) (finish j) (s'.engines j).output := by
    intro j
    by_cases hsame : j = i
    · subst hsame
      rwa [hself]
    · rw [hothers j hsame]
      exact h.engines j
  have hstopping : s'.stopping = (s.stopping || (output.handled && (s.engines i).inputStopped)) := by
    rw [← hs']
  refine ⟨hengines, fun hstops => ?_⟩
  rw [hstopping, Bool.or_eq_true, Bool.and_eq_true] at hstops
  rcases hstops with hbefore | ⟨hhandled, hinput⟩
  · -- an engine that has sent everything is not called again
    intro j hj
    by_cases hsame : j = i
    · have hopen := StreamEngine.handled_of_outEvent houtput
      rw [← hsame, h.stops hbefore j hj] at hopen
      cases hopen
    · rw [hothers j hsame]
      exact h.stops hbefore j hj
  · obtain ⟨hout, hwithin⟩ := hreach hhandled
    refine handled_of_othersDone (i := i) (hself ▸ hhandled) fun j hj hne => ?_
    rw [hothers j hne]
    exact (horder hout hwithin).1 hinput j hj hne

/-- **Step.** -/
theorem Inv.step (h : s.Inv numIn records finish) {event : PollEvent T}
    (horder : s.InOrder numIn records finish event)
    (hstep : (machine numIn numQueue records finish).step s event = some s') :
    s'.Inv numIn records finish := by
  cases event with
  | inEvent i items =>
      change (if _ then _ else _) = some s' at hstep
      split_ifs at hstep
      exact h.inEvent horder hstep
  | outEvent i call =>
      change (if _ then _ else _) = some s' at hstep
      split_ifs at hstep
      exact h.outEvent horder hstep

/-- **The loop stops when all engines are done.** For every number of connections, every
sequence of records that the engines have to send and every order of calls in which the
engine that brings the last `FINISH` is the last to pull its own, and a batch with a
`FINISH` is taken by the socket: when the loop stops, every engine has pulled its `FINISH`
and handed all its bytes to the socket. -/
theorem stops_complete (numIn numQueue : ℕ) (records : ℕ → List Record) (finish : ℕ → Record)
    (events : List (PollEvent T))
    (horder : (machine numIn numQueue records finish).AlwaysStep (InOrder numIn records finish)
      (machine numIn numQueue records finish).init events) :
    (machine numIn numQueue records finish).Always (StopsComplete numIn records finish)
      (machine numIn numQueue records finish).init events :=
  Machine.Always.of_alwaysStep (Inv numIn records finish) (fun h => h.stopsComplete)
    (fun h horder hstep => h.step horder hstep) .init horder

/-- A `FINISH` of one byte, without records before it. -/
def oneByte : Record := ⟨0, [7]⟩

/-- The `FINISH` of a worker arrives. -/
def arrival (worker : ℕ) : PollEvent Unit := .inEvent worker [⟨.finish, 0, 0, worker, ()⟩]

/-- An engine pulls its `FINISH` and sends its frame of three bytes. -/
def departure (i : ℕ) : PollEvent Unit := .outEvent i ⟨1, 3, []⟩

/-- Two connections: the second one brings the last `FINISH` and sends its own last. -/
theorem stops_complete_two_connections :
    (machine 2 2 (fun _ => []) fun _ => oneByte).Always
      (StopsComplete 2 (fun _ => []) fun _ => oneByte)
      (machine 2 2 (fun _ => []) fun _ => oneByte).init
      [arrival 0, arrival 1, departure 0, departure 1] :=
  stops_complete 2 2 (fun _ => []) (fun _ => oneByte) _ (by decide +kernel)

/-- If it sends its own first, the loop stops before the other engine has pulled its
`FINISH`. -/
theorem stops_early_two_connections :
    ¬ (machine 2 2 (fun _ => []) fun _ => oneByte).Always
      (StopsComplete 2 (fun _ => []) fun _ => oneByte)
      (machine 2 2 (fun _ => []) fun _ => oneByte).init
      [arrival 0, arrival 1, departure 1] := by
  intro halways
  have hrun : ((machine 2 2 (fun _ => []) fun _ => oneByte).runFrom
      (machine 2 2 (fun _ => []) fun _ => oneByte).init
      [arrival 0, arrival 1, departure 1]).map
        (fun s => (s.stopping, (s.engines 0).output.sent)) = some (true, []) := by
    decide +kernel
  obtain ⟨s, hs, hdata⟩ := Option.map_eq_some_iff.mp hrun
  obtain ⟨hstopping, hsent⟩ := Prod.mk.inj hdata
  have hcomplete := (halways.of_runFrom hs hstopping 0 Nat.two_pos).2
  rw [hsent] at hcomplete
  exact absurd hcomplete (by decide)

end PollLoop

end AFStream.Thread

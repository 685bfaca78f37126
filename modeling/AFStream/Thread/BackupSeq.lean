/-
# The sequence number of a backup

After each poll of its forward queue a compute thread asks every operator for its
divergence and sends a backup if it is too large. The backup carries a sequence number,
which the thread reads through `tuple`, its pointer into the ring of the forward queue:
behind the acknowledgement of the slot, and also when the last poll was empty.

The module follows the loop and the producer of the ring in any interleaving. It shows that
the slot still holds the tuple when its number is read, and determines when the number is
that of the tuple which was processed last: a backup must not be pending when the checks
follow an empty poll or an item with another number. Operators and user handlers are
arbitrary.
-/

import AFStream.FaultTolerance.Recovery
import AFStream.Queues.RingSession
import AFStream.WrapItem
import Mathlib.Data.UInt

namespace AFStream.Thread

open AFStream.Foundation AFStream.Queues AFStream.FaultTolerance AFStream.Operator

universe u v w

/-- The handlers of an application and its operators, over the state of all operators. -/
structure Application (In : Type u) (RIn : Type v) (S : Type w) where
  /-- `ProcessData`, with the worker, the thread, the sequence number and the data. -/
  processData : S → ℕ → ℕ → ℕ → In → S
  processPunc : S → S
  /-- `ProcessFeedback`, with the worker, the thread and the data. -/
  processFeedback : S → ℕ → ℕ → RIn → S
  numOperator : ℕ
  calculateDivergence : S → ℕ → ℚ
  divergenceThresh : S → ℕ → ℚ
  serializeState : S → ℕ → BackupData → BackupData × S

/-- The divergence checks of `n` operators from the `i`-th on send a backup. An operator that
writes nothing is passed over. -/
def Application.sends {In : Type u} {RIn : Type v} {S : Type w} (app : Application In RIn S) :
    ℕ → ℕ → S → BackupData → Bool
  | 0, _, _, _ => false
  | n + 1, i, operators, data =>
    if app.divergenceThresh operators i < app.calculateDivergence operators i then
      let (data', operators') := app.serializeState operators i data
      if data'.len = 0 then app.sends n (i + 1) operators' data' else true
    else app.sends n (i + 1) operators data

/-- A backup is pending: the checks from the `i`-th operator on send one. -/
def Application.Pending {In : Type u} {RIn : Type v} {S : Type w} (app : Application In RIn S)
    (i : ℕ) (operators : S) (data : BackupData) : Prop :=
  app.sends (app.numOperator - i) i operators data = true

/-- Where the loop of `ThreadMainHandler` stands. -/
inductive CheckPoint (In : Type u)
  | /-- Before the loop condition. -/
    head
  | /-- In the inner loop over the feedback queue. -/
    reverse
  | /-- Before the forward queue is looked at. -/
    forward
  | /-- `Extract` has returned a tuple. -/
    extracted
  | /-- Before the switch, with the members that were read from the tuple. -/
    handle (item : WrapItem In)
  | /-- Before the divergence check of an operator. -/
    check (i : ℕ)
  | /-- Behind the loop. -/
    left
  | /-- `NULL` has been dereferenced. -/
    fault
  | /-- An item had a type that its queue does not carry, and `LOG_ERR` has ended the process. -/
    exited

/-- No tuple has been taken that is not handled yet. -/
def CheckPoint.Settled {In : Type u} : CheckPoint In → Prop
  | .extracted | .handle _ => False
  | _ => True

/-- A backup that is sent: the sequence number that is read through `tuple`, if that is not
`NULL`, and the one of the tuple that was last passed to `ProcessData`. -/
structure SentBackup where
  seq : Option ℕ
  processed : Option ℕ

/-- The loop and its forward queue. -/
structure BackupLoop (In : Type u) (S : Type w) where
  queue : RingSession (WrapItem In)
  operators : S
  point : CheckPoint In
  upStop : ℕ
  downStop : ℕ
  tuple : Option ℕ
  backupData : BackupData
  /-- What the last poll of the forward queue has returned. -/
  polled : Option (WrapItem In)
  /-- The sequence number of the last tuple that was passed to `ProcessData`. -/
  processed : Option ℕ
  sent : List SentBackup

/-- A step of the loop or of the producer. The items of the feedback queue are arbitrary. -/
inductive BackupStep (In : Type u) (RIn : Type v)
  | produce (call : RingSession.Call (WrapItem In))
  | enter
  | feedback (item : WrapItem RIn)
  | feedbackNull
  | poll
  | ack
  | handle
  | check

namespace BackupLoop

variable {In : Type u} {RIn : Type v} {S : Type w} (app : Application In RIn S)
  (numUp numDown : ℕ)

/-- The switch of the feedback queue. -/
def onFeedback (s : BackupLoop In S) (item : WrapItem RIn) : BackupLoop In S :=
  match item.itemType with
  | .finish => { s with downStop := s.downStop + 1 }
  | .reverse =>
    { s with
      operators := app.processFeedback s.operators item.workerSource item.thrSource item.data }
  | _ => { s with point := .exited }

/-- The switch of the forward queue; the checks of the operators follow. -/
def onItem (s : BackupLoop In S) (item : WrapItem In) : BackupLoop In S :=
  match item.itemType with
  | .finish => { s with upStop := s.upStop + 1, point := .check 0 }
  | .timeout => { s with operators := app.processPunc s.operators, point := .check 0 }
  | .normal =>
    { s with
      operators :=
        app.processData s.operators item.workerSource item.thrSource item.seq item.data
      processed := some item.seq
      point := .check 0 }
  | _ => { s with point := .exited }

/-- The check of an operator sends a backup. -/
def Sends (s : BackupLoop In S) (i : ℕ) : Prop :=
  app.divergenceThresh s.operators i < app.calculateDivergence s.operators i ∧
    (app.serializeState s.operators i s.backupData).1.len ≠ 0

instance (s : BackupLoop In S) (i : ℕ) : Decidable (s.Sends app i) :=
  inferInstanceAs (Decidable (_ ∧ _))

/-- The sequence number that is read through `tuple`. -/
def readSeq (s : BackupLoop In S) : Option ℕ :=
  s.tuple.map fun cell => (s.queue.ring.buffer cell).seq

/-- The divergence check of an operator. After a backup the length of the item is reset. -/
def checkOperator (s : BackupLoop In S) (i : ℕ) : BackupLoop In S :=
  if app.divergenceThresh s.operators i < app.calculateDivergence s.operators i then
    let (data, operators) := app.serializeState s.operators i s.backupData
    if data.len = 0 then
      { s with operators := operators, backupData := data, point := .check (i + 1) }
    else
      { s with
        operators := operators
        backupData := { data with len := 0 }
        sent := s.sent ++ [⟨s.readSeq, s.processed⟩]
        point := if s.tuple = none then .fault else .check (i + 1) }
  else { s with point := .check (i + 1) }

/-- One iteration of the loop over the operators, or its end. -/
def checkStep (s : BackupLoop In S) : Option (BackupLoop In S) :=
  match s.point with
  | .check i =>
    if i < app.numOperator then some (s.checkOperator app i) else some { s with point := .head }
  | _ => none

/-- Some steps of the loop over the operators. -/
def runChecks : ℕ → BackupLoop In S → Option (BackupLoop In S)
  | 0, s => some s
  | n + 1, s => (s.checkStep app).bind (runChecks n)

/-- One step. -/
def step (s : BackupLoop In S) : BackupStep In RIn → Option (BackupLoop In S)
  | .produce call =>
    match call with
    | .extract | .ack => none
    | _ => (s.queue.step call).map fun queue => { s with queue := queue }
  | .enter =>
    match s.point with
    | .head =>
      if s.upStop < numUp ∨ s.downStop < numDown then some { s with point := .reverse }
      else some { s with point := .left }
    | _ => none
  | .feedback item =>
    match s.point with
    | .reverse => if s.downStop < numDown then some (s.onFeedback app item) else none
    | _ => none
  | .feedbackNull =>
    match s.point with
    | .reverse => some { s with point := .forward }
    | _ => none
  | .poll =>
    match s.point with
    | .forward =>
      if s.upStop = numUp then some { s with point := .check 0 }
      else (s.queue.step .extract).map fun queue =>
        { s with
          queue := queue
          tuple := queue.extracted
          polled := queue.extracted.map queue.ring.buffer
          point := if queue.extracted = none then .check 0 else .extracted }
    | _ => none
  | .ack =>
    match s.point, s.tuple with
    | .extracted, some cell => (s.queue.step .ack).map fun queue =>
      { s with queue := queue, point := .handle (s.queue.ring.buffer cell) }
    | _, _ => none
  | .handle =>
    match s.point with
    | .handle item => some (s.onItem app item)
    | _ => none
  | .check => s.checkStep app

/-- All interleavings of the loop and the producer of its queue. Without an upstream there is
one external source. -/
def machine (operators : S) (backupData : BackupData) (zero : WrapItem In) (uninit : ℕ) :
    Machine (BackupLoop In S) (BackupStep In RIn) where
  init :=
    { queue := (RingSession.machine rbSize rbBatch zero uninit).init
      operators := operators
      point := .head
      upStop := 0
      downStop := 0
      tuple := none
      backupData := backupData
      polled := none
      processed := none
      sent := [] }
  step := step app (if numUp = 0 then 1 else numUp) numDown

/-- Every backup that was sent carries the sequence number of the tuple that was processed
last. -/
def SeqsRight (s : BackupLoop In S) : Prop :=
  ∀ backup ∈ s.sent, ∃ seq, backup.seq = some seq ∧ backup.processed = some seq

/-- Neither has a wrong backup been sent, nor do the checks that follow send one, however far
they get. -/
def StaysRight (s : BackupLoop In S) : Prop :=
  ∀ (n : ℕ) (s' : BackupLoop In S),
    runChecks app n s = some s' → s'.SeqsRight

/-- The tuple of the last poll has the number of the tuple that was processed last. -/
def Current (s : BackupLoop In S) : Prop :=
  ∃ item, s.polled = some item ∧ s.processed = some item.seq

/-- The condition on an iteration. An empty poll finds no backup pending; behind the last end
of an upstream worker, where `tuple` stays what it was, none is pending or the number is
right; and so for an item that is no normal tuple. -/
def NoStaleBackup (s : BackupLoop In S) : BackupStep In RIn → Prop
  | .poll =>
    if s.upStop = numUp then app.Pending 0 s.operators s.backupData → s.Current
    else s.queue.ring.extract.2 = none → ¬ app.Pending 0 s.operators s.backupData
  | .handle => ∀ item, s.point = .handle item →
    (item.itemType = .finish → app.Pending 0 s.operators s.backupData →
      s.processed = some item.seq) ∧
    (item.itemType = .timeout → app.Pending 0 (app.processPunc s.operators) s.backupData →
      s.processed = some item.seq)
  | _ => True

/-! ## What a step does -/

/-- The outcomes of a step: a poll returns what the queue has to give, or leaves `tuple` as it
is behind the end of all upstream workers. -/
inductive Stepped (s : BackupLoop In S) : BackupStep In RIn → BackupLoop In S → Prop
  | produce (call : RingSession.Call (WrapItem In)) (hproducer : call.IsProducer)
      (queue : RingSession (WrapItem In)) (hqueue : s.queue.step call = some queue) :
      Stepped s (.produce call) { s with queue := queue }
  | enter (hpoint : s.point = .head) (point : CheckPoint In)
      (hnext : point = .reverse ∨ point = .left) : Stepped s .enter { s with point := point }
  | feedback (item : WrapItem RIn) (hpoint : s.point = .reverse) :
      Stepped s (.feedback item) (s.onFeedback app item)
  | feedbackNull (hpoint : s.point = .reverse) :
      Stepped s .feedbackNull { s with point := .forward }
  | skip (hpoint : s.point = .forward) (hend : s.upStop = numUp) :
      Stepped s .poll { s with point := .check 0 }
  | poll (hpoint : s.point = .forward) (hopen : s.upStop ≠ numUp)
      (queue : RingSession (WrapItem In)) (hqueue : s.queue.step .extract = some queue) :
      Stepped s .poll
        { s with
          queue := queue
          tuple := queue.extracted
          polled := queue.extracted.map queue.ring.buffer
          point := if queue.extracted = none then .check 0 else .extracted }
  | ack (hpoint : s.point = .extracted) (cell : ℕ) (hcell : s.tuple = some cell)
      (queue : RingSession (WrapItem In)) (hqueue : s.queue.step .ack = some queue) :
      Stepped s .ack { s with queue := queue, point := .handle (s.queue.ring.buffer cell) }
  | handle (item : WrapItem In) (hpoint : s.point = .handle item) :
      Stepped s .handle (s.onItem app item)
  | check (s' : BackupLoop In S) (hcheck : s.checkStep app = some s') : Stepped s .check s'

variable {app} {numUp numDown} {s s' : BackupLoop In S}

theorem stepped_of_step {action : BackupStep In RIn}
    (hstep : s.step app numUp numDown action = some s') : s.Stepped app numUp action s' := by
  cases action with
  | produce call =>
      have hproducer : call.IsProducer ∧
          (s.queue.step call).map (fun queue => { s with queue := queue }) = some s' := by
        cases call with
        | extract => cases hstep
        | ack => cases hstep
        | _ => exact ⟨trivial, hstep⟩
      obtain ⟨queue, hqueue, rfl⟩ := Option.map_eq_some_iff.mp hproducer.2
      exact .produce call hproducer.1 queue hqueue
  | enter =>
      simp only [BackupLoop.step] at hstep
      split at hstep
      next hpoint =>
        split_ifs at hstep
        · obtain rfl := Option.some.inj hstep
          exact .enter hpoint .reverse (.inl rfl)
        · obtain rfl := Option.some.inj hstep
          exact .enter hpoint .left (.inr rfl)
      next => cases hstep
  | feedback item =>
      simp only [BackupLoop.step] at hstep
      split at hstep
      next hpoint =>
        split_ifs at hstep
        obtain rfl := Option.some.inj hstep
        exact .feedback item hpoint
      next => cases hstep
  | feedbackNull =>
      simp only [BackupLoop.step] at hstep
      split at hstep
      next hpoint =>
        obtain rfl := Option.some.inj hstep
        exact .feedbackNull hpoint
      next => cases hstep
  | poll =>
      simp only [BackupLoop.step] at hstep
      split at hstep
      next hpoint =>
        split_ifs at hstep with hend
        · obtain rfl := Option.some.inj hstep
          exact .skip hpoint hend
        · obtain ⟨queue, hqueue, rfl⟩ := Option.map_eq_some_iff.mp hstep
          exact .poll hpoint hend queue hqueue
      next => cases hstep
  | ack =>
      simp only [BackupLoop.step] at hstep
      split at hstep
      next cell hpoint hcell =>
        obtain ⟨queue, hqueue, rfl⟩ := Option.map_eq_some_iff.mp hstep
        exact .ack hpoint cell hcell queue hqueue
      next => cases hstep
  | handle =>
      simp only [BackupLoop.step] at hstep
      split at hstep
      next item hpoint =>
        obtain rfl := Option.some.inj hstep
        exact .handle item hpoint
      next => cases hstep
  | check => exact .check s' hstep

/-! ## The slot behind `tuple` -/

/-- What every step preserves: `tuple` points to the slot that was extracted or released
last, the slot holds what the last poll returned, and if that was a normal tuple it has been
processed before the checks. -/
structure Inv (s : BackupLoop In S) : Prop where
  queue : s.queue.Inv (rbSize - 1)
  polled_eq : s.polled = s.tuple.map s.queue.ring.buffer
  extracted_eq : s.point = .extracted → s.queue.extracted = s.tuple
  released : s.point ≠ .extracted → ∀ cell, s.tuple = some cell →
    s.queue.ring.nextVal cell = s.queue.ring.nextReadIndex
  handled : ∀ item, s.point = .handle item → s.polled = some item
  settled : s.point.Settled → ∀ item, s.polled = some item → item.itemType = .normal →
    s.processed = some item.seq

/-- A step that touches neither the queue nor the tuple. -/
theorem Inv.of_same (h : s.Inv) (hpoint : s.point.Settled) (hpoint' : s'.point.Settled)
    (hqueue : s'.queue = s.queue) (htuple : s'.tuple = s.tuple) (hpolled : s'.polled = s.polled)
    (hprocessed : s'.processed = s.processed) : s'.Inv where
  queue := hqueue ▸ h.queue
  polled_eq := by rw [hpolled, htuple, hqueue, h.polled_eq]
  extracted_eq hextracted := by
    rw [hextracted] at hpoint'
    exact hpoint'.elim
  released _ := by
    rw [hqueue, htuple]
    apply h.released
    intro hextracted
    rw [hextracted] at hpoint
    exact hpoint
  handled item hhandle := by
    rw [hhandle] at hpoint'
    exact hpoint'.elim
  settled _ := by
    rw [hpolled, hprocessed]
    exact h.settled hpoint

/-- A step of the producer. -/
theorem Inv.produce (h : s.Inv) {call : RingSession.Call (WrapItem In)}
    (hcall : call.IsProducer) {queue : RingSession (WrapItem In)}
    (hstep : s.queue.step call = some queue) : { s with queue := queue }.Inv := by
  have hqueue := h.queue.step hstep
  have hmax : queue.ring.max = s.queue.ring.max := hqueue.max_eq.trans h.queue.max_eq.symm
  obtain ⟨hread, hextracted⟩ := h.queue.sameConsumer hcall hstep
  have hbuffer : ∀ cell, s.tuple = some cell →
      queue.ring.buffer cell = s.queue.ring.buffer cell := by
    intro cell hcell
    by_cases hpoint : s.point = .extracted
    · exact h.queue.buffer_extracted hstep ((h.extracted_eq hpoint).trans hcell)
    · exact h.queue.buffer_released hcall hstep (h.released hpoint cell hcell)
  refine ⟨hqueue, ?_, fun hpoint => hextracted.trans (h.extracted_eq hpoint), ?_, h.handled,
    h.settled⟩
  · refine h.polled_eq.trans ?_
    cases htuple : s.tuple with
    | none => rfl
    | some cell => exact congrArg some (hbuffer cell htuple).symm
  · intro hpoint cell hcell
    change queue.ring.nextVal cell = queue.ring.nextReadIndex
    rw [hread, ← h.released hpoint cell hcell, ZeroRingBuffer.nextVal, ZeroRingBuffer.nextVal, hmax]

/-- A poll of the forward queue. -/
theorem Inv.poll (h : s.Inv) {queue : RingSession (WrapItem In)}
    (hstep : s.queue.step .extract = some queue) :
    { s with
      queue := queue
      tuple := queue.extracted
      polled := queue.extracted.map queue.ring.buffer
      point := if queue.extracted = none then .check 0 else .extracted }.Inv := by
  have hqueue := h.queue.step hstep
  cases hextracted : queue.extracted with
  | none =>
      rw [if_pos rfl]
      exact ⟨hqueue, rfl, fun hpoint => (by cases hpoint), fun _ cell hcell => (by cases hcell),
        fun item hpoint => (by cases hpoint), fun _ item hitem => (by cases hitem)⟩
  | some cell =>
      rw [if_neg (Option.some_ne_none cell)]
      exact ⟨hqueue, rfl, fun _ => hextracted, fun hpoint => absurd rfl hpoint,
        fun item hpoint => (by cases hpoint), fun hsettled => hsettled.elim⟩

/-- The acknowledgement of a tuple. -/
theorem Inv.ack (h : s.Inv) (hpoint : s.point = .extracted) {cell : ℕ}
    (hcell : s.tuple = some cell) {queue : RingSession (WrapItem In)}
    (hstep : s.queue.step .ack = some queue) :
    { s with queue := queue, point := .handle (s.queue.ring.buffer cell) }.Inv := by
  have haddr : s.queue.extracted = some cell := (h.extracted_eq hpoint).trans hcell
  obtain ⟨rfl, -⟩ := h.queue.extracted_seen cell haddr
  have hbuffer := (RingSession.sameProducer_of_ack hstep).buffer_eq
  refine ⟨h.queue.step hstep, ?_, fun hextracted => (by cases hextracted), ?_, ?_,
    fun hsettled => hsettled.elim⟩
  · change s.polled = s.tuple.map queue.ring.buffer
    rw [hbuffer]
    exact h.polled_eq
  · intro _ cell' hcell'
    obtain rfl := Option.some.inj (hcell.symm.trans hcell')
    obtain ⟨addr, -, rfl⟩ := Option.map_eq_some_iff.mp hstep
    change s.queue.ring.ack.nextVal s.queue.ring.nextReadIndex = s.queue.ring.ack.nextReadIndex
    simp only [ZeroRingBuffer.ack]
    split_ifs <;> rfl
  · intro item hitem
    obtain rfl := CheckPoint.handle.inj hitem
    change s.polled = _
    rw [h.polled_eq, hcell]
    rfl

variable (app) in
/-- The switches touch neither the queue nor the tuple. -/
theorem onItem_spec (s : BackupLoop In S) (item : WrapItem In) :
    (s.onItem app item).queue = s.queue ∧ (s.onItem app item).tuple = s.tuple ∧
      (s.onItem app item).polled = s.polled ∧ (s.onItem app item).sent = s.sent ∧
      (s.onItem app item).point.Settled := by
  unfold onItem
  split <;> exact ⟨rfl, rfl, rfl, rfl, trivial⟩

variable (app) in
theorem processed_onItem (s : BackupLoop In S) {item : WrapItem In}
    (hitem : item.itemType = .normal) : (s.onItem app item).processed = some item.seq := by
  unfold onItem
  rw [hitem]

variable (app) in
theorem onFeedback_spec (s : BackupLoop In S) (item : WrapItem RIn) :
    (s.onFeedback app item).queue = s.queue ∧ (s.onFeedback app item).tuple = s.tuple ∧
      (s.onFeedback app item).polled = s.polled ∧
      (s.onFeedback app item).processed = s.processed ∧
      (s.onFeedback app item).sent = s.sent ∧
      ((s.onFeedback app item).point = s.point ∨ (s.onFeedback app item).point = .exited) := by
  unfold onFeedback
  split
  · exact ⟨rfl, rfl, rfl, rfl, rfl, .inl rfl⟩
  · exact ⟨rfl, rfl, rfl, rfl, rfl, .inl rfl⟩
  · exact ⟨rfl, rfl, rfl, rfl, rfl, .inr rfl⟩

/-- The switch of the forward queue. -/
theorem Inv.handle (h : s.Inv) {item : WrapItem In} (hpoint : s.point = .handle item) :
    (s.onItem app item).Inv := by
  obtain ⟨hqueue, htuple, hpolled, -, hsettled⟩ := onItem_spec app s item
  refine ⟨hqueue ▸ h.queue, ?_, ?_, ?_, ?_, ?_⟩
  · rw [hpolled, htuple, hqueue, h.polled_eq]
  · intro hextracted
    rw [hextracted] at hsettled
    exact hsettled.elim
  · intro _
    rw [htuple, hqueue]
    apply h.released
    rw [hpoint]
    exact fun hextracted => by cases hextracted
  · intro item' hhandle
    rw [hhandle] at hsettled
    exact hsettled.elim
  · intro _ item' hitem'
    rw [hpolled, h.handled item hpoint] at hitem'
    obtain rfl := Option.some.inj hitem'
    exact processed_onItem app s

variable (app) in
theorem checkOperator_spec (s : BackupLoop In S) (i : ℕ) :
    (s.checkOperator app i).queue = s.queue ∧ (s.checkOperator app i).tuple = s.tuple ∧
      (s.checkOperator app i).polled = s.polled ∧
      (s.checkOperator app i).processed = s.processed ∧
      (s.checkOperator app i).point.Settled := by
  unfold checkOperator
  split
  · dsimp only
    split
    · exact ⟨rfl, rfl, rfl, rfl, trivial⟩
    · refine ⟨rfl, rfl, rfl, rfl, ?_⟩
      dsimp only
      split <;> trivial
  · exact ⟨rfl, rfl, rfl, rfl, trivial⟩

/-- The invariant at the start. -/
theorem Inv.init (operators : S) (backupData : BackupData) (zero : WrapItem In) (uninit : ℕ) :
    (machine app numUp numDown operators backupData zero uninit).init.Inv where
  queue := RingSession.inv_of_reachable (by decide) Machine.reachable_init
  polled_eq := rfl
  extracted_eq hpoint := by cases hpoint
  released _ cell hcell := by cases hcell
  handled item hpoint := by cases hpoint
  settled _ item hitem := by cases hitem

/-- A check touches neither the queue nor the tuple. -/
theorem Inv.checkStep (h : s.Inv) (hstep : s.checkStep app = some s') : s'.Inv := by
  rw [BackupLoop.checkStep] at hstep
  split at hstep
  next i hpoint =>
    have hsettled : s.point.Settled := hpoint ▸ trivial
    split_ifs at hstep
    · obtain rfl := Option.some.inj hstep
      obtain ⟨hqueue, htuple, hpolled, hprocessed, hsettled'⟩ := checkOperator_spec app s i
      exact h.of_same hsettled hsettled' hqueue htuple hpolled hprocessed
    · obtain rfl := Option.some.inj hstep
      exact h.of_same hsettled trivial rfl rfl rfl rfl
  next => cases hstep

/-- Every step keeps the invariant, and only a check sends a backup. -/
theorem Inv.step (h : s.Inv) {action : BackupStep In RIn}
    (hstep : s.step app numUp numDown action = some s') :
    s'.Inv ∧ (action ≠ .check → s'.sent = s.sent) := by
  cases stepped_of_step hstep with
  | produce call hproducer queue hqueue => exact ⟨h.produce hproducer hqueue, fun _ => rfl⟩
  | enter hpoint point hnext =>
      have hsettled : point.Settled := by
        rcases hnext with rfl | rfl
        · trivial
        · trivial
      exact ⟨h.of_same (hpoint ▸ trivial) hsettled rfl rfl rfl rfl, fun _ => rfl⟩
  | feedback item hpoint =>
      have hsettled : s.point.Settled := hpoint ▸ trivial
      obtain ⟨hqueue, htuple, hpolled, hprocessed, hsent, hsame⟩ := onFeedback_spec app s item
      have hsettled' : (s.onFeedback app item).point.Settled := by
        rcases hsame with hsame | hsame
        · rwa [hsame]
        · rw [hsame]
          trivial
      exact ⟨h.of_same hsettled hsettled' hqueue htuple hpolled hprocessed, fun _ => hsent⟩
  | feedbackNull hpoint =>
      exact ⟨h.of_same (hpoint ▸ trivial) trivial rfl rfl rfl rfl, fun _ => rfl⟩
  | skip hpoint => exact ⟨h.of_same (hpoint ▸ trivial) trivial rfl rfl rfl rfl, fun _ => rfl⟩
  | poll _ _ queue hqueue => exact ⟨h.poll hqueue, fun _ => rfl⟩
  | ack hpoint cell hcell queue hqueue => exact ⟨h.ack hpoint hcell hqueue, fun _ => rfl⟩
  | handle item hpoint => exact ⟨h.handle hpoint, fun _ => (onItem_spec app s item).2.2.2.1⟩
  | check _ hcheck => exact ⟨h.checkStep hcheck, fun hne => absurd rfl hne⟩

/-- The sequence number that is read is that of the tuple of the last poll. -/
theorem Inv.readSeq_eq (h : s.Inv) : s.readSeq = s.polled.map WrapItem.seq := by
  rw [readSeq, h.polled_eq, Option.map_map]
  rfl

/-- A check of an operator. -/
theorem sent_checkOperator (s : BackupLoop In S) (i : ℕ) :
    (s.checkOperator app i).sent =
      if s.Sends app i then s.sent ++ [⟨s.readSeq, s.processed⟩] else s.sent := by
  unfold checkOperator Sends
  by_cases hdiverged : app.divergenceThresh s.operators i < app.calculateDivergence s.operators i
  · by_cases hlen : (app.serializeState s.operators i s.backupData).1.len = 0
    · simp [hdiverged, hlen]
    · simp [hdiverged, hlen]
  · simp [hdiverged]

/-! ## Pending backups -/

/-- The checks from an operator on send a backup if its own check does or those of the
others do. -/
theorem pending_iff (s : BackupLoop In S) {i : ℕ} (hi : i < app.numOperator) :
    app.Pending i s.operators s.backupData ↔ s.Sends app i ∨
      ¬ s.Sends app i ∧ app.Pending (i + 1) (s.checkOperator app i).operators
        (s.checkOperator app i).backupData := by
  obtain ⟨n, hn⟩ : ∃ n, app.numOperator - i = n + 1 := ⟨app.numOperator - i - 1, by omega⟩
  have hn' : app.numOperator - (i + 1) = n := by omega
  rw [Application.Pending, Application.Pending, hn, hn', Application.sends, Sends, checkOperator]
  by_cases hdiverged : app.divergenceThresh s.operators i < app.calculateDivergence s.operators i
  · by_cases hlen : (app.serializeState s.operators i s.backupData).1.len = 0
    · simp [hdiverged, hlen]
    · simp [hdiverged, hlen]
  · simp [hdiverged]

theorem not_pending_of_le {i : ℕ} (hi : app.numOperator ≤ i) (operators : S) (data : BackupData) :
    ¬ app.Pending i operators data := by
  rw [Application.Pending, Nat.sub_eq_zero_of_le hi, Application.sends]
  exact Bool.false_ne_true

/-- The next check, unless the loop ends. -/
theorem point_checkOperator (s : BackupLoop In S) {i : ℕ} (hsends : ¬ s.Sends app i) :
    (s.checkOperator app i).point = .check (i + 1) := by
  unfold checkOperator
  unfold Sends at hsends
  by_cases hdiverged : app.divergenceThresh s.operators i < app.calculateDivergence s.operators i
  · have hlen : (app.serializeState s.operators i s.backupData).1.len = 0 := by
      by_contra hlen
      exact hsends ⟨hdiverged, hlen⟩
    simp [hdiverged, hlen]
  · simp [hdiverged]

/-- A pending backup is sent, with the number that can be read now. -/
theorem exists_sent_of_pending {i : ℕ} (hpoint : s.point = .check i)
    (hpending : app.Pending i s.operators s.backupData) :
    ∃ n s', runChecks app n s = some s' ∧ ⟨s.readSeq, s.processed⟩ ∈ s'.sent := by
  -- the checks that are left
  obtain ⟨left, hleft⟩ : ∃ left, left = app.numOperator - i := ⟨_, rfl⟩
  induction left generalizing s i with
  | zero => exact absurd hpending (not_pending_of_le (by omega) _ _)
  | succ left ih =>
      have hi : i < app.numOperator := by omega
      have hstep : s.checkStep app = some (s.checkOperator app i) := by
        simp only [checkStep, hpoint, if_pos hi]
      rcases (s.pending_iff hi).mp hpending with hsends | ⟨hsends, hrest⟩
      · refine ⟨1, s.checkOperator app i, ?_, ?_⟩
        · rw [runChecks, hstep]
          rfl
        · rw [sent_checkOperator, if_pos hsends]
          exact List.mem_append_right _ List.mem_cons_self
      · obtain ⟨n, s', hrun, hmem⟩ := ih (s.point_checkOperator hsends) hrest (by omega)
        obtain ⟨hqueue, htuple, -, hprocessed, -⟩ := checkOperator_spec app s i
        refine ⟨n + 1, s', ?_, ?_⟩
        · rw [runChecks, hstep]
          exact hrun
        · rw [readSeq, htuple, hqueue, hprocessed] at hmem
          exact hmem

/-- What `StaysRight` says of a state: no wrong backup has been sent, and where one is pending
the number is right. -/
structure Good (app : Application In RIn S) (s : BackupLoop In S) : Prop where
  right : s.SeqsRight
  pending : ∀ i, s.point = .check i → app.Pending i s.operators s.backupData → s.Current

/-- The number that can be read is right. -/
theorem Inv.current_iff (h : s.Inv) :
    s.Current ↔ ∃ seq, s.readSeq = some seq ∧ s.processed = some seq := by
  rw [h.readSeq_eq]
  constructor
  · rintro ⟨item, hitem, hprocessed⟩
    exact ⟨item.seq, by rw [hitem]; rfl, hprocessed⟩
  · rintro ⟨seq, hseq, hprocessed⟩
    obtain ⟨item, hitem, rfl⟩ := Option.map_eq_some_iff.mp hseq
    exact ⟨item, hitem, hprocessed⟩

/-- The check of an operator sends no wrong number. -/
theorem Good.checkStep (hgood : s.Good app) (h : s.Inv) (hstep : s.checkStep app = some s') :
    s'.Good app := by
  rw [BackupLoop.checkStep] at hstep
  split at hstep
  next i hpoint =>
    split_ifs at hstep with hi
    · obtain rfl := Option.some.inj hstep
      obtain ⟨-, -, hpolled, hprocessed, -⟩ := checkOperator_spec app s i
      have hcurrent : app.Pending i s.operators s.backupData → s.Current := hgood.pending i hpoint
      rw [s.pending_iff hi] at hcurrent
      constructor
      · rw [SeqsRight, sent_checkOperator]
        split_ifs with hsends
        · rw [List.forall_mem_append, List.forall_mem_singleton]
          exact ⟨hgood.right, h.current_iff.mp (hcurrent (.inl hsends))⟩
        · exact hgood.right
      · intro j hj hpending
        rw [Current, hpolled, hprocessed]
        by_cases hsends : s.Sends app i
        · exact hcurrent (.inl hsends)
        · obtain rfl := CheckPoint.check.inj ((s.point_checkOperator hsends).symm.trans hj)
          exact hcurrent (.inr ⟨hsends, hpending⟩)
    · obtain rfl := Option.some.inj hstep
      exact ⟨hgood.right, fun j hj => by cases hj⟩
  next => cases hstep

/-- Away from the checks only the backups that were sent count. -/
theorem Good.of_point (hright : s.SeqsRight) (hpoint : ∀ i, s.point ≠ .check i) : s.Good app :=
  ⟨hright, fun i hi => absurd hi (hpoint i)⟩

/-- Before the first check all operators may have a backup pending. -/
theorem good_iff_of_point (hright : s.SeqsRight) (hpoint : s.point = .check 0) :
    s.Good app ↔ (app.Pending 0 s.operators s.backupData → s.Current) := by
  refine ⟨fun hgood => hgood.pending 0 hpoint, fun hcurrent => ⟨hright, fun i hi => ?_⟩⟩
  obtain rfl := CheckPoint.check.inj (hpoint.symm.trans hi)
  exact hcurrent

/-- A poll before the end of all upstream workers, with an item or without one. -/
theorem good_poll_iff (hright : s.SeqsRight) (hopen : s.upStop ≠ numUp)
    {queue : RingSession (WrapItem In)} (hqueue : s.queue.step .extract = some queue) :
    { s with
      queue := queue
      tuple := queue.extracted
      polled := queue.extracted.map queue.ring.buffer
      point := if queue.extracted = none then .check 0 else .extracted }.Good app ↔
    s.NoStaleBackup app numUp (.poll : BackupStep In RIn) := by
  obtain rfl := Option.some.inj hqueue
  rw [NoStaleBackup, if_neg hopen]
  dsimp only
  cases s.queue.ring.extract.2 with
  | none =>
      rw [good_iff_of_point (by exact hright) rfl]
      constructor
      · intro hcurrent _ hpending
        obtain ⟨item, hitem, -⟩ := hcurrent hpending
        cases hitem
      · exact fun hcond hpending => absurd hpending (hcond rfl)
  | some cell =>
      refine ⟨fun _ hnone => (by cases hnone), fun _ => .of_point hright fun i hi => ?_⟩
      rw [if_neg (Option.some_ne_none cell)] at hi
      cases hi

/-- The switch of the forward queue: only a normal tuple brings its own number. -/
theorem good_onItem_iff (hright : s.SeqsRight) (h : s.Inv) {item : WrapItem In}
    (hpoint : s.point = .handle item) :
    (s.onItem app item).Good app ↔ s.NoStaleBackup app numUp (.handle : BackupStep In RIn) := by
  have hpolled := h.handled item hpoint
  have hright' : (s.onItem app item).SeqsRight := by
    rw [SeqsRight, (onItem_spec app s item).2.2.2.1]
    exact hright
  have hcond : s.NoStaleBackup app numUp (.handle : BackupStep In RIn) ↔
      (item.itemType = .finish → app.Pending 0 s.operators s.backupData →
        s.processed = some item.seq) ∧
      (item.itemType = .timeout → app.Pending 0 (app.processPunc s.operators) s.backupData →
        s.processed = some item.seq) := by
    refine ⟨fun hall => hall item hpoint, fun hboth item' hitem' => ?_⟩
    obtain rfl := CheckPoint.handle.inj (hpoint.symm.trans hitem')
    exact hboth
  -- the tuple of the poll is the item
  have hcurrent : ∀ {s' : BackupLoop In S}, s'.polled = s.polled →
      (s'.Current ↔ s'.processed = some item.seq) := by
    intro s' hsame
    rw [Current, hsame, hpolled]
    constructor
    · rintro ⟨item', hitem', hprocessed⟩
      exact Option.some.inj hitem' ▸ hprocessed
    · exact fun hprocessed => ⟨item, rfl, hprocessed⟩
  have hpolled' := (onItem_spec app s item).2.2.1
  rw [hcond]
  cases htype : item.itemType with
  | normal =>
      have hgood : (s.onItem app item).Good app := by
        rw [good_iff_of_point hright' (by rw [onItem, htype])]
        exact fun _ => (hcurrent hpolled').mpr (processed_onItem app s htype)
      exact ⟨fun _ => ⟨ItemType.noConfusion, ItemType.noConfusion⟩, fun _ => hgood⟩
  | finish =>
      rw [good_iff_of_point hright' (by rw [onItem, htype]), hcurrent hpolled', onItem, htype]
      exact ⟨fun hright => ⟨fun _ => hright, ItemType.noConfusion⟩, fun hboth => hboth.1 rfl⟩
  | timeout =>
      rw [good_iff_of_point hright' (by rw [onItem, htype]), hcurrent hpolled', onItem, htype]
      exact ⟨fun hright => ⟨ItemType.noConfusion, fun _ => hright⟩, fun hboth => hboth.2 rfl⟩
  | reverse =>
      refine ⟨fun _ => ⟨ItemType.noConfusion, ItemType.noConfusion⟩, fun _ => .of_point hright' ?_⟩
      rw [onItem, htype]
      exact fun i hi => by cases hi
  | ack =>
      refine ⟨fun _ => ⟨ItemType.noConfusion, ItemType.noConfusion⟩, fun _ => .of_point hright' ?_⟩
      rw [onItem, htype]
      exact fun i hi => by cases hi

/-- **Step.** A step keeps the backups right exactly if it leaves no backup pending behind a
tuple with another number. -/
theorem Good.step (hgood : s.Good app) (h : s.Inv) {action : BackupStep In RIn}
    (hstep : s.step app numUp numDown action = some s') :
    s'.Good app ↔ s.NoStaleBackup app numUp action := by
  obtain ⟨-, hsent⟩ := h.step hstep
  have hright : action ≠ .check → s'.SeqsRight := by
    intro haction
    rw [SeqsRight, hsent haction]
    exact hgood.right
  cases stepped_of_step hstep with
  | produce => exact ⟨fun _ => trivial, fun _ => ⟨hright nofun, hgood.pending⟩⟩
  | enter _ point hnext =>
      refine ⟨fun _ => trivial, fun _ => .of_point (hright nofun) fun i hi => ?_⟩
      rcases hnext with rfl | rfl
      · cases hi
      · cases hi
  | feedback item hpoint =>
      obtain ⟨-, -, -, -, -, hsame⟩ := onFeedback_spec app s item
      refine ⟨fun _ => trivial, fun _ => .of_point (hright nofun) fun i hi => ?_⟩
      rw [hi, hpoint] at hsame
      rcases hsame with hsame | hsame
      · cases hsame
      · cases hsame
  | feedbackNull =>
      exact ⟨fun _ => trivial, fun _ => .of_point (hright nofun) fun i hi => by cases hi⟩
  | skip hpoint hend =>
      rw [NoStaleBackup, if_pos hend]
      exact good_iff_of_point hgood.right rfl
  | poll _ hopen queue hqueue => exact good_poll_iff hgood.right hopen hqueue
  | ack =>
      exact ⟨fun _ => trivial, fun _ => .of_point (hright nofun) fun i hi => by cases hi⟩
  | handle item hpoint => exact good_onItem_iff hgood.right h hpoint
  | check _ hcheck => exact ⟨fun _ => trivial, fun _ => hgood.checkStep h hcheck⟩

/-- Nothing wrong has been sent or is pending exactly if the checks send nothing wrong. -/
theorem Inv.good_iff (h : s.Inv) : s.Good app ↔ s.StaysRight app := by
  constructor
  · intro hgood n
    induction n generalizing s with
    | zero =>
        intro s' hs'
        exact Option.some.inj hs' ▸ hgood.right
    | succ n ih =>
        intro s' hs'
        obtain ⟨next, hnext, hrest⟩ := Option.bind_eq_some_iff.mp hs'
        exact ih (h.checkStep hnext) (hgood.checkStep h hnext) s' hrest
  · intro hright
    refine ⟨hright 0 s rfl, fun i hpoint hpending => ?_⟩
    obtain ⟨n, s', hrun, hmem⟩ := exists_sent_of_pending hpoint hpending
    exact h.current_iff.mpr (hright n s' hrun _ hmem)

/-- **Sequence numbers.** In every run with any producer, operators and handlers: if no
iteration leaves a backup pending behind an empty poll or behind an item with another number,
then all backups carry the sequence number of the tuple that was processed last, and `NULL`
is never read. The condition is exact: it holds of all steps of a run if and only if no state
of the run, nor one to which its checks lead, has sent a wrong backup. -/
theorem backup_seqs_right_iff (operators : S) (backupData : BackupData) (zero : WrapItem In)
    (uninit : ℕ) (actions : List (BackupStep In RIn)) :
    ((machine app numUp numDown operators backupData zero uninit).AlwaysStep
        (NoStaleBackup app (if numUp = 0 then 1 else numUp))
        (machine app numUp numDown operators backupData zero uninit).init actions →
      (machine app numUp numDown operators backupData zero uninit).Always SeqsRight
        (machine app numUp numDown operators backupData zero uninit).init actions) ∧
    ((machine app numUp numDown operators backupData zero uninit).Always (StaysRight app)
        (machine app numUp numDown operators backupData zero uninit).init actions ↔
      (machine app numUp numDown operators backupData zero uninit).AlwaysStep
        (NoStaleBackup app (if numUp = 0 then 1 else numUp))
        (machine app numUp numDown operators backupData zero uninit).init actions) := by
  have hinit : (machine app numUp numDown operators backupData zero uninit).init.Inv :=
    Inv.init operators backupData zero uninit
  have hgood : (machine app numUp numDown operators backupData zero uninit).init.Good app :=
    .of_point (fun backup hbackup => absurd hbackup List.not_mem_nil) fun i hi => by cases hi
  have hiff : (machine app numUp numDown operators backupData zero uninit).Always (StaysRight app)
        (machine app numUp numDown operators backupData zero uninit).init actions ↔
      (machine app numUp numDown operators backupData zero uninit).AlwaysStep
        (NoStaleBackup app (if numUp = 0 then 1 else numUp))
        (machine app numUp numDown operators backupData zero uninit).init actions := by
    apply Machine.always_iff_alwaysStep Inv (StaysRight app)
    · intro s action s' h hright hstep
      have h' := (h.step hstep).1
      rw [← h'.good_iff]
      exact ⟨(h.good_iff.mpr hright).step h hstep, fun _ => h'⟩
    · exact hinit
    · exact hinit.good_iff.mp hgood
  exact ⟨fun hsteps => (hiff.mpr hsteps).mono fun s hright => hright 0 s rfl, hiff⟩

/-- An application that stores what it gets at both indices of a `NumericArray_L1`, with
threshold 0. -/
def pairApplication : Application UInt8 Unit (NumericArraySum UInt8) where
  processData := fun op _ _ _ value => (op.updateValue absV 0 value).updateValue absV 1 value
  processPunc := id
  processFeedback := fun op _ _ _ => op
  numOperator := 1
  calculateDivergence := fun op _ => op.calculateDivergence.toNat
  divergenceThresh := fun _ _ => 0
  serializeState := fun op _ data =>
    match op.serializeState absV with
    | some (saved, op) => (packSaved .byte saved data.data, op)
    | none => (data, op)

/-- One tuple arrives. The first backup is taken behind it, the second one behind an empty
poll. -/
def pairRun : List (BackupStep UInt8 Unit) :=
  [.produce (.insert ⟨.normal, 7, 0, 0, 1⟩), .produce .flush, .enter, .feedbackNull, .poll,
    .ack, .handle, .check, .check, .enter, .feedbackNull, .poll, .check]

/-- The second backup of a tuple that changes two elements reads through `NULL`. -/
theorem second_backup_reads_null :
    ¬ (machine pairApplication 1 0 (.create 2) ⟨0, 0, .zero⟩ ⟨.normal, 0, 0, 0, 0⟩ 0).Always
      SeqsRight
      (machine pairApplication 1 0 (.create 2) ⟨0, 0, .zero⟩ ⟨.normal, 0, 0, 0, 0⟩ 0).init
      pairRun := by
  intro halways
  have hrun : ((machine pairApplication 1 0 (.create 2) ⟨0, 0, .zero⟩
      ⟨.normal, 0, 0, 0, 0⟩ 0).runFrom (machine pairApplication 1 0 (.create 2) ⟨0, 0, .zero⟩
        ⟨.normal, 0, 0, 0, 0⟩ 0).init pairRun).map (fun s => s.sent.map SentBackup.seq) =
      some [some 7, none] := by
    decide +kernel
  obtain ⟨s, hs, hsent⟩ := Option.map_eq_some_iff.mp hrun
  obtain ⟨backup, hbackup, hseq⟩ : ∃ backup ∈ s.sent, backup.seq = none := by
    rw [← List.mem_map (f := SentBackup.seq), hsent]
    decide
  obtain ⟨seq, hseq', -⟩ := halways.of_runFrom hs backup hbackup
  cases hseq.symm.trans hseq'

end BackupLoop

end AFStream.Thread

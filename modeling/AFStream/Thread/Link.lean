/-
# One direction of a connection between two stages

Every worker of a sending stage has one out callback for each worker of the
receiving stage, which merges the queues of its compute threads into one
connection; every receiving worker has one in callback, which spreads what arrives
over the queues of its own compute threads. A `FINISH` is collapsed on the way out
(one for each worker, after the last thread) and fanned out on the way in (one for
each thread, the first of each worker).

Queues are lists here: a ring shows its consumer a prefix of the list, and a
consumer that does not see an element yet is one that takes it later. Senders and
receivers are named by their positions; what an item carries, and what `stopped_` is
indexed by, is the id of its worker. The module shows that a `FINISH` that arrives is
preceded by everything its worker sent.
-/

import AFStream.Thread.OutCallbackSimple

namespace AFStream.Thread

open AFStream.Foundation AFStream.Queues

universe u

/-! ## Lists of items -/

section Items

variable {T : Type u} {l l' : List (WrapItem T)}

/-- Some item of the list is a `FINISH`. -/
def hasFinish (l : List (WrapItem T)) : Bool := l.any fun x => x.itemType = .finish

/-- The items that are not `FINISH`. -/
def records (l : List (WrapItem T)) : List (WrapItem T) := l.filter fun x => x.itemType ≠ .finish

/-- The items that a worker sent. -/
def fromWorker (w : ℕ) (l : List (WrapItem T)) : List (WrapItem T) :=
  l.filter fun x => x.workerSource = w

/-- The items that a thread sent. -/
def fromThread (t : ℕ) (l : List (WrapItem T)) : List (WrapItem T) :=
  l.filter fun x => x.thrSource = t

/-- The workers whose `FINISH` is in the list. -/
def finishSources (l : List (WrapItem T)) : List ℕ :=
  (l.filter fun x => x.itemType = .finish).map (·.workerSource)

/-- Nothing follows a `FINISH`. -/
def FinishLast (l : List (WrapItem T)) : Prop :=
  ∀ before x after, l = before ++ x :: after → x.itemType = .finish → after = []

theorem hasFinish_iff : hasFinish l = true ↔ ∃ x ∈ l, x.itemType = .finish := by
  simp [hasFinish]

@[simp]
theorem hasFinish_append : hasFinish (l ++ l') = (hasFinish l || hasFinish l') := by
  simp [hasFinish]

@[simp]
theorem records_append : records (l ++ l') = records l ++ records l' :=
  List.filter_append ..

@[simp]
theorem fromWorker_append (w : ℕ) : fromWorker w (l ++ l') = fromWorker w l ++ fromWorker w l' :=
  List.filter_append ..

@[simp]
theorem fromThread_append (t : ℕ) : fromThread t (l ++ l') = fromThread t l ++ fromThread t l' :=
  List.filter_append ..

@[simp]
theorem finishSources_append : finishSources (l ++ l') = finishSources l ++ finishSources l' := by
  simp [finishSources]

theorem mem_finishSources_iff {w : ℕ} :
    w ∈ finishSources l ↔ hasFinish (fromWorker w l) = true := by
  simp only [finishSources, fromWorker, hasFinish_iff, List.mem_map, List.mem_filter,
    decide_eq_true_eq]
  constructor
  · rintro ⟨x, ⟨hx, htype⟩, hsource⟩
    exact ⟨x, ⟨hx, hsource⟩, htype⟩
  · rintro ⟨x, ⟨hx, hsource⟩, htype⟩
    exact ⟨x, ⟨hx, htype⟩, hsource⟩

theorem FinishLast.nil : FinishLast ([] : List (WrapItem T)) := by
  intro before x after hsplit
  simp at hsplit

/-- Something may follow as long as there is no `FINISH`. -/
theorem finishLast_concat (hnone : hasFinish l = false) (x : WrapItem T) :
    FinishLast (l ++ [x]) := by
  intro before y after hsplit htype
  cases after using List.reverseRecOn with
  | nil => rfl
  | append_singleton after z _ =>
      have hl : l = before ++ y :: after := by
        have hsplit' : l ++ [x] = (before ++ y :: after) ++ [z] := by simpa using hsplit
        exact (List.append_inj' hsplit' rfl).1
      have hfinish : hasFinish l = true := hasFinish_iff.mpr ⟨y, by simp [hl], htype⟩
      rw [hnone] at hfinish
      cases hfinish

/-- A `FINISH` in the first part leaves nothing for the second. -/
theorem FinishLast.eq_nil (hlast : FinishLast (l ++ l')) (hfinish : hasFinish l = true) :
    l' = [] := by
  obtain ⟨x, hx, htype⟩ := hasFinish_iff.mp hfinish
  obtain ⟨before, after, rfl⟩ := List.append_of_mem hx
  have hrest := hlast before x (after ++ l') (by simp) htype
  exact (List.append_eq_nil_iff.mp hrest).2

end Items

/-! ## The in callback -/

/-- `InCallbackSimple`: the queues of the compute threads, one flag for each of them
(`AddOutQueue` grows both vectors together) and the counters. -/
structure InCallbackSimple (T : Type u) where
  numIn : ℕ
  numQueue : ℕ
  queues : ℕ → List (WrapItem T)
  stopped : ℕ → Bool
  numStop : ℕ
  event : ℕ

namespace InCallbackSimple

variable {T : Type u}

/-- The constructor and `numQueue` calls of `AddOutQueue`. -/
def create (numIn numQueue : ℕ) : InCallbackSimple T where
  numIn := numIn
  numQueue := numQueue
  queues := fun _ => []
  stopped := fun _ => false
  numStop := 0
  event := 0

/-- `GetDestination` -/
def getDestination (_ : WrapItem T) : ℕ := 0

/-- `PushRecord`; indexing outside `stopped_` or `queues_` is undefined. -/
def pushRecord (cb : InCallbackSimple T) (item : WrapItem T) :
    Option (ℕ × InCallbackSimple T) :=
  if item.itemType = .finish then
    if item.workerSource < cb.numQueue then
      if cb.stopped item.workerSource then some (0, cb)
      else
        some (if cb.numStop + 1 = cb.numIn then 1 else 0,
          { cb with
            stopped := Function.update cb.stopped item.workerSource true
            numStop := cb.numStop + 1
            queues := fun t => if t < cb.numQueue then cb.queues t ++ [item] else cb.queues t })
    else none
  else
    if getDestination item < cb.numQueue then
      some (0,
        { cb with
          event := cb.event + 1
          queues := Function.update cb.queues (getDestination item)
            (cb.queues (getDestination item) ++ [item]) })
    else none

/-- A record. -/
theorem pushRecord_of_record {cb : InCallbackSimple T} {item : WrapItem T}
    (htype : item.itemType ≠ .finish) (hpos : 0 < cb.numQueue) :
    cb.pushRecord item = some (0,
      { cb with
        event := cb.event + 1
        queues := Function.update cb.queues 0 (cb.queues 0 ++ [item]) }) := by
  rw [pushRecord, if_neg htype, getDestination, if_pos hpos]

/-- A `FINISH` of a worker that has sent one before. -/
theorem pushRecord_of_stopped {cb : InCallbackSimple T} {item : WrapItem T}
    (htype : item.itemType = .finish) (hrange : item.workerSource < cb.numQueue)
    (hstopped : cb.stopped item.workerSource = true) : cb.pushRecord item = some (0, cb) := by
  rw [pushRecord, if_pos htype, if_pos hrange, if_pos hstopped]

/-- The first `FINISH` of a worker. -/
theorem pushRecord_of_finish {cb : InCallbackSimple T} {item : WrapItem T}
    (htype : item.itemType = .finish) (hrange : item.workerSource < cb.numQueue)
    (hstopped : cb.stopped item.workerSource ≠ true) :
    cb.pushRecord item = some (if cb.numStop + 1 = cb.numIn then 1 else 0,
      { cb with
        stopped := Function.update cb.stopped item.workerSource true
        numStop := cb.numStop + 1
        queues := fun t => if t < cb.numQueue then cb.queues t ++ [item] else cb.queues t }) := by
  rw [pushRecord, if_pos htype, if_pos hrange, if_neg hstopped]

/-- What `PushRecord` does: a record goes to the first queue, the first `FINISH` of a
worker to all of them, any other `FINISH` nowhere. -/
theorem pushRecord_cases {cb cb' : InCallbackSimple T} {item : WrapItem T} {result : ℕ}
    (hpush : cb.pushRecord item = some (result, cb')) :
    cb'.numQueue = cb.numQueue ∧ 0 < cb.numQueue ∧
      ((item.itemType ≠ .finish ∧ cb'.stopped = cb.stopped ∧
          cb'.queues = Function.update cb.queues 0 (cb.queues 0 ++ [item])) ∨
        (item.itemType = .finish ∧ cb.stopped item.workerSource = true) ∨
        (item.itemType = .finish ∧ cb.stopped item.workerSource = false ∧
          cb'.stopped = Function.update cb.stopped item.workerSource true ∧
          cb'.queues = fun t =>
            if t < cb.numQueue then cb.queues t ++ [item] else cb.queues t)) := by
  by_cases htype : item.itemType = .finish
  · by_cases hrange : item.workerSource < cb.numQueue
    · cases hstopped : cb.stopped item.workerSource with
      | true =>
          rw [pushRecord_of_stopped htype hrange hstopped] at hpush
          obtain ⟨-, rfl⟩ := Prod.mk.inj (Option.some.inj hpush)
          exact ⟨rfl, by omega, .inr (.inl ⟨htype, rfl⟩)⟩
      | false =>
          rw [pushRecord_of_finish htype hrange (Bool.eq_false_iff.mp hstopped)] at hpush
          obtain ⟨-, rfl⟩ := Prod.mk.inj (Option.some.inj hpush)
          exact ⟨rfl, by omega, .inr (.inr ⟨htype, rfl, rfl, rfl⟩)⟩
    · simp [pushRecord, htype, hrange] at hpush
  · by_cases hpos : 0 < cb.numQueue
    · rw [pushRecord_of_record htype hpos] at hpush
      obtain ⟨-, rfl⟩ := Prod.mk.inj (Option.some.inj hpush)
      exact ⟨rfl, hpos, .inl ⟨htype, rfl, rfl⟩⟩
    · rw [pushRecord, if_neg htype, getDestination, if_neg hpos] at hpush
      cases hpush

/-- What `PushRecord` adds to the queues for an item of a worker that has not stopped. -/
structure Added (cb cb' : InCallbackSimple T) (item : WrapItem T) (got : ℕ → List (WrapItem T)) :
    Prop where
  first : got 0 = [item]
  queues_eq : ∀ t, cb'.queues t = cb.queues t ++ got t
  sources : ∀ t, finishSources (got t) = [] ∨
    finishSources (got t) = [item.workerSource] ∧ cb'.stopped item.workerSource = true
  stopped_iff : ∀ s, cb'.stopped s = true ↔
    cb.stopped s = true ∨ s = item.workerSource ∧ item.itemType = .finish

theorem exists_added {cb cb' : InCallbackSimple T} {item : WrapItem T} {result : ℕ}
    (hpush : cb.pushRecord item = some (result, cb'))
    (hfresh : cb.stopped item.workerSource = false) : ∃ got, Added cb cb' item got := by
  obtain ⟨-, hpos, hcases⟩ := pushRecord_cases hpush
  rcases hcases with ⟨htype, hsame, hqueues⟩ | ⟨-, hstopped⟩ | ⟨htype, -, hnew, hqueues⟩
  · refine ⟨fun t => if t = 0 then [item] else [], rfl, ?_, ?_, ?_⟩
    · intro t
      rw [hqueues]
      by_cases ht : t = 0
      · subst ht
        simp
      · simp [ht]
    · intro t
      left
      by_cases ht : t = 0
      · simp [ht, finishSources, htype]
      · simp [ht, finishSources]
    · intro s
      simp [hsame, htype]
  · rw [hfresh] at hstopped
    cases hstopped
  · refine ⟨fun t => if t < cb.numQueue then [item] else [], by simp [hpos], ?_, ?_, ?_⟩
    · intro t
      rw [hqueues]
      by_cases ht : t < cb.numQueue
      · simp [ht]
      · simp [ht]
    · intro t
      by_cases ht : t < cb.numQueue
      · simp [ht, finishSources, htype, hnew]
      · simp [ht, finishSources]
    · intro s
      by_cases hs : s = item.workerSource
      · simp [hnew, hs, htype]
      · simp [hnew, hs]

/-- What `PushRecord` does to the counters. -/
theorem pushRecord_counters {cb cb' : InCallbackSimple T} {item : WrapItem T} {result : ℕ}
    (hpush : cb.pushRecord item = some (result, cb')) :
    cb'.numIn = cb.numIn ∧
      (((item.itemType = .finish → cb.stopped item.workerSource = true) ∧ result = 0 ∧
          cb'.stopped = cb.stopped ∧ cb'.numStop = cb.numStop) ∨
        (item.itemType = .finish ∧ cb.stopped item.workerSource = false ∧
          result = (if cb.numStop + 1 = cb.numIn then 1 else 0) ∧
          cb'.stopped = Function.update cb.stopped item.workerSource true ∧
          cb'.numStop = cb.numStop + 1)) := by
  by_cases htype : item.itemType = .finish
  · by_cases hrange : item.workerSource < cb.numQueue
    · cases hstopped : cb.stopped item.workerSource with
      | true =>
          rw [pushRecord_of_stopped htype hrange hstopped] at hpush
          obtain ⟨rfl, rfl⟩ := Prod.mk.inj (Option.some.inj hpush)
          exact ⟨rfl, .inl ⟨fun _ => rfl, rfl, rfl, rfl⟩⟩
      | false =>
          rw [pushRecord_of_finish htype hrange (Bool.eq_false_iff.mp hstopped)] at hpush
          obtain ⟨rfl, rfl⟩ := Prod.mk.inj (Option.some.inj hpush)
          exact ⟨rfl, .inr ⟨htype, rfl, rfl, rfl, rfl⟩⟩
    · simp [pushRecord, htype, hrange] at hpush
  · by_cases hpos : 0 < cb.numQueue
    · rw [pushRecord_of_record htype hpos] at hpush
      obtain ⟨rfl, rfl⟩ := Prod.mk.inj (Option.some.inj hpush)
      exact ⟨rfl, .inl ⟨fun h => absurd h htype, rfl, rfl, rfl⟩⟩
    · rw [pushRecord, if_neg htype, getDestination, if_neg hpos] at hpush
      cases hpush

end InCallbackSimple

/-! ## The link -/

/-- The queues of the compute threads towards one destination and the counter of its
out callback. -/
structure OutPort (T : Type u) where
  queues : ℕ → List (WrapItem T)
  numStop : ℕ

namespace OutPort

variable {T : Type u}

/-- `PullRecord` when it reads from thread `t`: the item read, what is handed to the
connection, and the port afterwards. Every `FINISH` but that of the last of `numIn`
threads is swallowed. -/
def pull (port : OutPort T) (numIn t : ℕ) :
    Option (WrapItem T × List (WrapItem T) × OutPort T) :=
  match port.queues t with
  | [] => none
  | item :: rest =>
    let queues := Function.update port.queues t rest
    if item.itemType = .finish then
      let numStop := port.numStop + 1
      some (item, if numStop = numIn then [item] else [], ⟨queues, numStop⟩)
    else some (item, [item], ⟨queues, port.numStop⟩)

/-- What the rings and the callback of a destination stand for. -/
def ofChannel (cb : OutCallbackSimple) (s : Channel T) (r : ℕ) : OutPort T where
  queues := fun t => (s.inTransit t r).map s.mesh.slots
  numStop := cb.numStop

/-- `PullRecord` on the rings is `pull` on the lists they stand for, or it finds no
visible item and changes nothing. -/
theorem pullRecord_refines {numWriter numReader wrapSize r : ℕ} {cb : OutCallbackSimple}
    {s : Channel T} (hs : s.Inv numWriter numReader) (hr : r < numReader) :
    ∃ pulled cb' s', cb.pullRecord numWriter numReader wrapSize r s = some (pulled, cb', s') ∧
      ((pulled.data = none ∧ cb'.numStop = cb.numStop ∧ s'.received = s.received) ∨
        ∃ w < numWriter, ∃ item, s'.received = Channel.log s.received r w item ∧
          (ofChannel cb s r).pull cb.numIn w =
            some (item, (pulled.data.map s.mesh.slots).toList, ofChannel cb' s' r)) := by
  obtain ⟨pulled, cb', s', hpull, -, -, hslots, hcases⟩ :=
    OutCallbackSimple.pullRecord_cases hs hr cb wrapSize
  refine ⟨pulled, cb', s', hpull, ?_⟩
  rcases hcases with hnothing | ⟨w, hw, addr, hitem⟩
  · obtain ⟨rfl, rfl, hreceived, -⟩ := hnothing
    exact .inl ⟨rfl, rfl, hreceived⟩
  · refine .inr ⟨w, hw, s.mesh.slots addr, hitem.received_eq, ?_⟩
    have hqueue : (ofChannel cb s r).queues w =
        s.mesh.slots addr :: (s'.inTransit w r).map s.mesh.slots := by
      simp [ofChannel, hitem.transit_eq]
    have hqueues : Function.update (ofChannel cb s r).queues w
        ((s'.inTransit w r).map s.mesh.slots) = (ofChannel cb' s' r).queues := by
      funext w'
      by_cases hsame : w' = w
      · subst hsame
        simp [ofChannel, hslots]
      · have hother : s'.inTransit w' r = s.inTransit w' r :=
          congrArg Prod.fst (hitem.others w' hsame)
        simp [ofChannel, hslots, hother, hsame]
    unfold pull
    rw [hqueue]
    simp only [hqueues]
    cases hitem.handled with
    | forward htype =>
        rw [if_neg htype]
        rfl
    | last htype hlast =>
        rw [if_pos htype]
        simp [ofChannel, hlast]
    | swallow htype hmore =>
        rw [if_pos htype]
        simp [ofChannel, hmore]

end OutPort

/-- All connections of one direction, with what was sent, pulled and taken so far. -/
structure Link (T : Type u) where
  /-- The out callback of worker `s` for receiver `r`. -/
  out : ℕ → ℕ → OutPort T
  /-- Items on the connection from `s` to `r`. -/
  net : ℕ → ℕ → List (WrapItem T)
  /-- The in callback of receiver `r`. -/
  inp : ℕ → InCallbackSimple T
  /-- Everything thread `t` of `s` wrote to `r`. -/
  sent : ℕ → ℕ → ℕ → List (WrapItem T)
  /-- What the out callback has read of it. -/
  pulled : ℕ → ℕ → ℕ → List (WrapItem T)
  /-- Everything thread `t` of `r` extracted from its queue. -/
  taken : ℕ → ℕ → List (WrapItem T)

namespace Link

variable {T : Type u}

/-- Replace the value at a pair of indices. -/
def set₂ {α : Type u} (f : ℕ → ℕ → α) (i j : ℕ) (a : α) : ℕ → ℕ → α :=
  fun i' j' => if i' = i ∧ j' = j then a else f i' j'

/-- Append to the list at a triple of indices. -/
def push₃ {α : Type u} (f : ℕ → ℕ → ℕ → List α) (i j k : ℕ) (a : α) : ℕ → ℕ → ℕ → List α :=
  fun i' j' k' => if i' = i ∧ j' = j ∧ k' = k then f i' j' k' ++ [a] else f i' j' k'

/-- Nothing has been sent; receiver `r` has `threads r` compute threads and expects
`numSender` workers. -/
def create (numSender : ℕ) (threads : ℕ → ℕ) : Link T where
  out := fun _ _ => ⟨fun _ => [], 0⟩
  net := fun _ _ => []
  inp := fun r => .create numSender (threads r)
  sent := fun _ _ _ => []
  pulled := fun _ _ _ => []
  taken := fun _ _ => []

variable (link : Link T)

/-- Thread `t` of worker `s` writes an item for receiver `r`. -/
def write (s r t : ℕ) (item : WrapItem T) : Link T :=
  { link with
    out := set₂ link.out s r
      { link.out s r with
        queues := Function.update (link.out s r).queues t ((link.out s r).queues t ++ [item]) }
    sent := push₃ link.sent s r t item }

/-- The out callback of `s` for `r` reads an item of thread `t`. -/
def pull (numIn s r t : ℕ) : Option (Link T) :=
  ((link.out s r).pull numIn t).map fun (item, added, port) =>
    { link with
      out := set₂ link.out s r port
      net := set₂ link.net s r (link.net s r ++ added)
      pulled := push₃ link.pulled s r t item }

/-- The oldest item of a connection arrives at the in callback. -/
def deliver (s r : ℕ) : Option (Link T) :=
  match link.net s r with
  | [] => none
  | item :: rest =>
    ((link.inp r).pushRecord item).map fun (_, cb) =>
      { link with
        net := set₂ link.net s r rest
        inp := Function.update link.inp r cb }

/-- Thread `t` of receiver `r` extracts an item from its queue. -/
def take (r t : ℕ) : Option (WrapItem T × Link T) :=
  match (link.inp r).queues t with
  | [] => none
  | item :: rest =>
    some (item,
      { link with
        inp := Function.update link.inp r
          { link.inp r with queues := Function.update (link.inp r).queues t rest }
        taken := set₂ link.taken r t (link.taken r t ++ [item]) })

/-- Everything that has entered the queue of thread `t` of receiver `r`. -/
def arrived (r t : ℕ) : List (WrapItem T) := link.taken r t ++ (link.inp r).queues t

/-- Everything that has passed the out callback of `s` for `r`, where senders have the
ids `ids`. Records go to the first thread, and so does every `FINISH`. -/
def passed (ids : ℕ ↪ ℕ) (s r : ℕ) : List (WrapItem T) :=
  fromWorker (ids s) (link.arrived r 0) ++ link.net s r

theorem set₂_self {α : Type u} (f : ℕ → ℕ → α) (i j : ℕ) (a : α) : set₂ f i j a i j = a := by
  simp [set₂]

theorem set₂_of_ne {α : Type u} {f : ℕ → ℕ → α} {i j i' j' : ℕ} {a : α}
    (hne : ¬(i' = i ∧ j' = j)) : set₂ f i j a i' j' = f i' j' := by
  simp only [set₂, if_neg hne]

theorem push₃_self {α : Type u} (f : ℕ → ℕ → ℕ → List α) (i j k : ℕ) (a : α) :
    push₃ f i j k a i j k = f i j k ++ [a] := by
  simp [push₃]

theorem push₃_of_ne {α : Type u} {f : ℕ → ℕ → ℕ → List α} {i j k i' j' k' : ℕ} {a : α}
    (hne : ¬(i' = i ∧ j' = j ∧ k' = k)) : push₃ f i j k a i' j' k' = f i' j' k' := by
  simp only [push₃, if_neg hne]

/-- What every step of a link preserves: nothing is lost, duplicated or overtaken
between two stages, and a `FINISH` passes only after those of all threads. -/
structure Inv (ids : ℕ ↪ ℕ) (numSender : ℕ) (threads rthreads : ℕ → ℕ) (link : Link T) :
    Prop where
  numQueue_eq : ∀ r, (link.inp r).numQueue = rthreads r
  sent_eq : ∀ s r t, link.sent s r t = link.pulled s r t ++ (link.out s r).queues t
  sent_tag : ∀ s r t, ∀ x ∈ link.sent s r t,
    x.workerSource = ids s ∧ x.thrSource = t ∧ s < numSender ∧ t < threads s
  sent_last : ∀ s r t, FinishLast (link.sent s r t)
  records_eq : ∀ s r t,
    records (link.pulled s r t) = records (fromThread t (link.passed ids s r))
  numStop_eq : ∀ s r, (link.out s r).numStop =
    ((Finset.range (threads s)).filter fun t => hasFinish (link.pulled s r t) = true).card
  passed_last : ∀ s r, FinishLast (link.passed ids s r)
  passed_finish : ∀ s r, hasFinish (link.passed ids s r) = true →
    0 < threads s ∧ ∀ t < threads s, hasFinish (link.pulled s r t) = true
  net_tag : ∀ s r, ∀ x ∈ link.net s r, x.workerSource = ids s ∧ s < numSender
  stopped_finish : ∀ w r, (link.inp r).stopped w = true →
    hasFinish (fromWorker w (link.arrived r 0)) = true
  finish_nodup : ∀ r, ∀ t < rthreads r, (finishSources (link.arrived r t)).Nodup
  finish_stopped : ∀ r, ∀ t < rthreads r, ∀ w ∈ finishSources (link.arrived r t),
    (link.inp r).stopped w = true ∧ ∃ s < numSender, ids s = w

variable {link} {link' : Link T} {ids : ℕ ↪ ℕ} {numSender : ℕ} {threads rthreads : ℕ → ℕ}
  {s r t : ℕ} {item : WrapItem T}

theorem Inv.create :
    (Link.create numSender rthreads : Link T).Inv ids numSender threads rthreads where
  numQueue_eq := fun _ => rfl
  sent_eq := fun _ _ _ => rfl
  sent_tag := fun _ _ _ _ hx => nomatch hx
  sent_last := fun _ _ _ => .nil
  records_eq := fun _ _ _ => rfl
  numStop_eq := by
    intro s r
    simp [Link.create, hasFinish]
  passed_last := fun _ _ => .nil
  passed_finish := fun _ _ h => nomatch h
  net_tag := fun _ _ _ hx => nomatch hx
  stopped_finish := fun _ _ h => nomatch h
  finish_nodup := fun _ _ _ => List.nodup_nil
  finish_stopped := fun _ _ _ _ h => nomatch h

/-- A thread that has not sent its `FINISH` writes something. -/
theorem Inv.write (h : link.Inv ids numSender threads rthreads) (hs : s < numSender)
    (ht : t < threads s) (hworker : item.workerSource = ids s) (hthread : item.thrSource = t)
    (hopen : hasFinish (link.sent s r t) = false) :
    (link.write s r t item).Inv ids numSender threads rthreads := by
  have hqueue (s' r' t' : ℕ) : (link.write s r t item).sent s' r' t' =
      link.pulled s' r' t' ++ ((link.write s r t item).out s' r').queues t' := by
    by_cases hpair : s' = s ∧ r' = r
    · obtain ⟨rfl, rfl⟩ := hpair
      by_cases hsame : t' = t
      · subst hsame
        simp [Link.write, push₃_self, set₂_self, h.sent_eq]
      · have hne : ¬(s' = s' ∧ r' = r' ∧ t' = t) := fun hne => hsame hne.2.2
        simp [Link.write, push₃_of_ne hne, set₂_self, h.sent_eq, hsame]
    · have hne : ¬(s' = s ∧ r' = r ∧ t' = t) := fun hne => hpair ⟨hne.1, hne.2.1⟩
      simp [Link.write, push₃_of_ne hne, set₂_of_ne hpair, h.sent_eq]
  refine ⟨h.numQueue_eq, hqueue, ?_, ?_, h.records_eq, ?_, h.passed_last, h.passed_finish,
    h.net_tag, h.stopped_finish, h.finish_nodup, h.finish_stopped⟩
  · intro s' r' t' x hx
    by_cases hsame : s' = s ∧ r' = r ∧ t' = t
    · obtain ⟨rfl, rfl, rfl⟩ := hsame
      simp only [Link.write, push₃_self] at hx
      rcases List.mem_append.mp hx with hold | hnew
      · exact h.sent_tag _ _ _ x hold
      · rw [List.mem_singleton.mp hnew]
        exact ⟨hworker, hthread, hs, ht⟩
    · simp only [Link.write, push₃_of_ne hsame] at hx
      exact h.sent_tag _ _ _ x hx
  · intro s' r' t'
    by_cases hsame : s' = s ∧ r' = r ∧ t' = t
    · obtain ⟨rfl, rfl, rfl⟩ := hsame
      simp only [Link.write, push₃_self]
      exact finishLast_concat hopen item
    · simp only [Link.write, push₃_of_ne hsame]
      exact h.sent_last _ _ _
  · intro s' r'
    rw [show ((link.write s r t item).out s' r').numStop = (link.out s' r').numStop by
      by_cases hpair : s' = s ∧ r' = r
      · obtain ⟨rfl, rfl⟩ := hpair
        simp [Link.write, set₂_self]
      · simp [Link.write, set₂_of_ne hpair]]
    exact h.numStop_eq s' r'

/-- The rule for steps of the receiving side: what has passed the out callbacks stays
the same. -/
theorem Inv.of_receiver (h : link.Inv ids numSender threads rthreads) (hout : link'.out = link.out)
    (hsent : link'.sent = link.sent) (hpulled : link'.pulled = link.pulled)
    (hpassed : ∀ s r, link'.passed ids s r = link.passed ids s r)
    (hnet : ∀ s r, ∀ x ∈ link'.net s r, x ∈ link.net s r)
    (hcount : ∀ r, (link'.inp r).numQueue = rthreads r)
    (hstopped : ∀ w r, (link'.inp r).stopped w = true →
      hasFinish (fromWorker w (link'.arrived r 0)) = true)
    (hnodup : ∀ r, ∀ t < rthreads r, (finishSources (link'.arrived r t)).Nodup)
    (hsources : ∀ r, ∀ t < rthreads r, ∀ w ∈ finishSources (link'.arrived r t),
      (link'.inp r).stopped w = true ∧ ∃ s < numSender, ids s = w) :
    link'.Inv ids numSender threads rthreads where
  numQueue_eq := hcount
  sent_eq := by
    rw [hsent, hpulled, hout]
    exact h.sent_eq
  sent_tag := by
    rw [hsent]
    exact h.sent_tag
  sent_last := by
    rw [hsent]
    exact h.sent_last
  records_eq := by
    intro s r t
    rw [hpulled, hpassed]
    exact h.records_eq s r t
  numStop_eq := by
    rw [hpulled, hout]
    exact h.numStop_eq
  passed_last := by
    intro s r
    rw [hpassed]
    exact h.passed_last s r
  passed_finish := by
    intro s r
    rw [hpassed, hpulled]
    exact h.passed_finish s r
  net_tag := fun s r x hx => h.net_tag s r x (hnet s r x hx)
  stopped_finish := hstopped
  finish_nodup := hnodup
  finish_stopped := hsources

/-- A compute thread of the receiver extracts something. -/
theorem Inv.take (h : link.Inv ids numSender threads rthreads)
    (htake : link.take r t = some (item, link')) :
    link'.Inv ids numSender threads rthreads ∧ link'.sent = link.sent ∧
      link'.taken = set₂ link.taken r t (link.taken r t ++ [item]) := by
  unfold Link.take at htake
  split at htake
  next => cases htake
  next head rest hqueue =>
      obtain ⟨rfl, hlink'⟩ := Prod.mk.inj (Option.some.inj htake)
      have harrived (r' t' : ℕ) : link'.arrived r' t' = link.arrived r' t' := by
        rw [← hlink']
        by_cases hr : r' = r
        · subst hr
          by_cases ht : t' = t
          · subst ht
            simp [arrived, set₂_self, hqueue]
          · have hne : ¬(r' = r' ∧ t' = t) := fun hne => ht hne.2
            simp [arrived, set₂_of_ne hne, ht]
        · have hne : ¬(r' = r ∧ t' = t) := fun hne => hr hne.1
          simp [arrived, set₂_of_ne hne, hr]
      have hcallback (r' : ℕ) : (link'.inp r').stopped = (link.inp r').stopped ∧
          (link'.inp r').numQueue = (link.inp r').numQueue := by
        rw [← hlink']
        by_cases hr : r' = r
        · subst hr
          simp
        · simp [hr]
      have hnet : link'.net = link.net := by rw [← hlink']
      refine ⟨?_, by rw [← hlink'], by rw [← hlink']⟩
      apply h.of_receiver (by rw [← hlink']) (by rw [← hlink']) (by rw [← hlink'])
      · intro s r
        simp only [passed, harrived, hnet]
      · intro s r x hx
        rwa [hnet] at hx
      · intro r
        rw [(hcallback r).2]
        exact h.numQueue_eq r
      · intro w r
        rw [(hcallback r).1, harrived]
        exact h.stopped_finish w r
      · intro r t
        rw [harrived]
        exact h.finish_nodup r t
      · intro r t
        rw [harrived, (hcallback r).1]
        exact h.finish_stopped r t

/-- While something is on the connection the receiver has not seen its `FINISH`. -/
theorem Inv.not_stopped_of_net (h : link.Inv ids numSender threads rthreads)
    {rest : List (WrapItem T)} (hnet : link.net s r = item :: rest) :
    (link.inp r).stopped (ids s) = false := by
  rw [Bool.eq_false_iff]
  intro hstopped
  have hempty := (h.passed_last s r).eq_nil (h.stopped_finish (ids s) r hstopped)
  rw [hnet] at hempty
  cases hempty

/-- The inversion of `deliver`: the oldest item of a connection is pushed. -/
theorem deliver_cases (hdeliver : link.deliver s r = some link') :
    ∃ item rest result cb, link.net s r = item :: rest ∧
      (link.inp r).pushRecord item = some (result, cb) ∧
      link' = { link with
        net := set₂ link.net s r rest
        inp := Function.update link.inp r cb } := by
  unfold Link.deliver at hdeliver
  split at hdeliver
  next => cases hdeliver
  next item rest hnet =>
      obtain ⟨⟨result, cb⟩, hpush, hlink'⟩ := Option.map_eq_some_iff.mp hdeliver
      exact ⟨item, rest, result, cb, hnet, hpush, hlink'.symm⟩

/-- A link behind a step of an in callback: the oldest item of a connection is gone from there,
something is added to the queues of the receiver, and everything else stays. -/
structure DeliverFrame (ids : ℕ ↪ ℕ) (link link' : Link T) (s r : ℕ) (cb : InCallbackSimple T)
    (rest : List (WrapItem T)) (got : ℕ → List (WrapItem T)) : Prop where
  inp_eq : link'.inp r = cb
  inp_others : ∀ r' ≠ r, link'.inp r' = link.inp r'
  net_eq : ∀ s' r', link'.net s' r' = if s' = s ∧ r' = r then rest else link.net s' r'
  arrived_eq : ∀ t, link'.arrived r t = link.arrived r t ++ got t
  arrived_others : ∀ r' t, r' ≠ r → link'.arrived r' t = link.arrived r' t
  passed_eq : ∀ s' r', link'.passed ids s' r' = link.passed ids s' r'

theorem deliver_frame {rest : List (WrapItem T)} {cb : InCallbackSimple T}
    {got : ℕ → List (WrapItem T)} (hnet : link.net s r = item :: rest)
    (hworker : item.workerSource = ids s) (hadded : (link.inp r).Added cb item got)
    (hlink' : link' = { link with
      net := set₂ link.net s r rest
      inp := Function.update link.inp r cb }) : DeliverFrame ids link link' s r cb rest got := by
  have hself : link'.inp r = cb := by
    rw [hlink']
    simp
  have hother (r' : ℕ) (hr : r' ≠ r) : link'.inp r' = link.inp r' := by
    rw [hlink']
    simp [hr]
  have htaken : link'.taken = link.taken := by rw [hlink']
  have hrest (s' r' : ℕ) : link'.net s' r' =
      if s' = s ∧ r' = r then rest else link.net s' r' := by
    rw [hlink']
    rfl
  have harrived (t : ℕ) : link'.arrived r t = link.arrived r t ++ got t := by
    simp only [arrived, htaken, hself, hadded.queues_eq, List.append_assoc]
  have helse (r' t : ℕ) (hr : r' ≠ r) : link'.arrived r' t = link.arrived r' t := by
    simp only [arrived, htaken, hother r' hr]
  refine ⟨hself, hother, hrest, harrived, helse, ?_⟩
  -- the item moves from the connection to the end of the first queue
  intro s' r'
  by_cases hr : r' = r
  · subst hr
    by_cases hs : s' = s
    · subst hs
      simp [passed, harrived, hadded.first, hrest, hnet, fromWorker, hworker]
    · have hne : item.workerSource ≠ ids s' := by
        rw [hworker]
        exact ids.injective.ne (Ne.symm hs)
      simp [passed, harrived, hadded.first, hrest, hs, fromWorker, hne]
  · simp [passed, helse r' 0 hr, hrest, hr]

/-- The in callback is given the oldest item of a connection. -/
theorem Inv.deliver (h : link.Inv ids numSender threads rthreads)
    (hdeliver : link.deliver s r = some link') :
    link'.Inv ids numSender threads rthreads ∧ link'.sent = link.sent ∧
      link'.taken = link.taken := by
  obtain ⟨item, rest, result, cb, hnet, hpush, hlink'⟩ := deliver_cases hdeliver
  refine ⟨?_, by rw [hlink'], by rw [hlink']⟩
  obtain ⟨hworker, hsender⟩ := h.net_tag s r item (by simp [hnet])
  have hfresh := h.not_stopped_of_net hnet
  obtain ⟨got, hadded⟩ := InCallbackSimple.exists_added hpush (by rwa [hworker])
  have hframe : DeliverFrame ids link link' s r cb rest got :=
    deliver_frame hnet hworker hadded hlink'
  have hsources := hadded.sources
  have hkept := hadded.stopped_iff
  rw [hworker] at hsources hkept
  apply h.of_receiver (by rw [hlink']) (by rw [hlink']) (by rw [hlink']) hframe.passed_eq
  · intro s' r' x hx
    rw [hframe.net_eq] at hx
    split_ifs at hx with hpair
    · obtain ⟨rfl, rfl⟩ := hpair
      rw [hnet]
      exact List.mem_cons_of_mem _ hx
    · exact hx
  · intro r'
    by_cases hr : r' = r
    · subst hr
      rw [hframe.inp_eq, (InCallbackSimple.pushRecord_cases hpush).1, h.numQueue_eq]
    · rw [hframe.inp_others r' hr]
      exact h.numQueue_eq r'
  · intro w r'
    by_cases hr : r' = r
    · subst hr
      rw [hframe.inp_eq, hframe.arrived_eq, fromWorker_append, hasFinish_append, Bool.or_eq_true]
      intro hstopped
      rcases (hkept w).mp hstopped with hold | ⟨rfl, htype⟩
      · exact .inl (h.stopped_finish w r' hold)
      · right
        rw [hadded.first]
        exact hasFinish_iff.mpr ⟨item, by simp [fromWorker, hworker], htype⟩
    · rw [hframe.inp_others r' hr, hframe.arrived_others r' 0 hr]
      exact h.stopped_finish w r'
  · intro r' t ht
    by_cases hr : r' = r
    · subst hr
      rw [hframe.arrived_eq, finishSources_append]
      rcases hsources t with hnone | ⟨hone, -⟩
      · rw [hnone, List.append_nil]
        exact h.finish_nodup r' t ht
      · rw [hone, List.nodup_append_comm]
        refine List.nodup_cons.mpr ⟨fun hmem => ?_, h.finish_nodup r' t ht⟩
        rw [(h.finish_stopped r' t ht _ hmem).1] at hfresh
        cases hfresh
    · rw [hframe.arrived_others r' t hr]
      exact h.finish_nodup r' t ht
  · intro r' t ht w hw
    by_cases hr : r' = r
    · subst hr
      rw [hframe.arrived_eq, finishSources_append] at hw
      rw [hframe.inp_eq]
      rcases List.mem_append.mp hw with hold | hnew
      · obtain ⟨hstopped, hbound⟩ := h.finish_stopped r' t ht w hold
        exact ⟨(hkept w).mpr (.inl hstopped), hbound⟩
      · rcases hsources t with hnone | ⟨hone, hstopped⟩
        · rw [hnone] at hnew
          cases hnew
        · rw [hone] at hnew
          rw [List.mem_singleton.mp hnew]
          exact ⟨hstopped, s, hsender, rfl⟩
    · rw [hframe.arrived_others r' t hr] at hw
      rw [hframe.inp_others r' hr]
      exact h.finish_stopped r' t ht w hw

/-- The inversion of `pull`: one item leaves the queue of a thread, and the connection
gets it unless it is a `FINISH` to be swallowed. -/
theorem pull_cases {numIn : ℕ} (hpull : link.pull numIn s r t = some link') :
    ∃ item rest added, (link.out s r).queues t = item :: rest ∧
      ((added = [item] ∧
          (item.itemType = .finish → (link.out s r).numStop + 1 = numIn)) ∨
        (added = [] ∧ item.itemType = .finish)) ∧
      link' = { link with
        out := set₂ link.out s r
          ⟨Function.update (link.out s r).queues t rest,
            (link.out s r).numStop + if item.itemType = .finish then 1 else 0⟩
        net := set₂ link.net s r (link.net s r ++ added)
        pulled := push₃ link.pulled s r t item } := by
  obtain ⟨⟨item, added, port⟩, hport, rfl⟩ := Option.map_eq_some_iff.mp hpull
  unfold OutPort.pull at hport
  split at hport
  next => cases hport
  next head rest hqueue =>
      by_cases htype : head.itemType = .finish
      · simp only [htype, if_true] at hport
        obtain ⟨rfl, hadded, rfl⟩ := by simpa using hport
        refine ⟨head, rest, added, hqueue, ?_, by simp [htype]⟩
        split_ifs at hadded with hlast
        · exact .inl ⟨hadded.symm, fun _ => hlast⟩
        · exact .inr ⟨hadded.symm, htype⟩
      · simp only [htype, if_false] at hport
        obtain ⟨rfl, rfl, rfl⟩ := by simpa using hport
        exact ⟨head, rest, [head], hqueue, .inl ⟨rfl, fun h => absurd h htype⟩, by simp [htype]⟩

/-- As long as a thread has something in its queue its `FINISH` has not been pulled,
and so none has passed. -/
theorem Inv.open_of_queue (h : link.Inv ids numSender threads rthreads)
    {rest : List (WrapItem T)} (hqueue : (link.out s r).queues t = item :: rest) :
    hasFinish (link.pulled s r t) = false ∧ hasFinish (link.passed ids s r) = false := by
  have hsent := h.sent_eq s r t
  rw [hqueue] at hsent
  have hpulled : hasFinish (link.pulled s r t) = false := by
    rw [Bool.eq_false_iff]
    intro hfinish
    have hlast := h.sent_last s r t
    rw [hsent] at hlast
    cases hlast.eq_nil hfinish
  refine ⟨hpulled, ?_⟩
  rw [Bool.eq_false_iff]
  intro hpassed
  have ht : t < threads s := (h.sent_tag s r t item (by simp [hsent])).2.2.2
  rw [(h.passed_finish s r hpassed).2 t ht] at hpulled
  cases hpulled

/-- Counting the threads whose `FINISH` has been pulled, one item later. -/
theorem card_stops {pulled pulled' : ℕ → List (WrapItem T)} {n : ℕ}
    (hself : ∀ t', pulled' t' = if t' = t then pulled t ++ [item] else pulled t') (ht : t < n)
    (hopen : hasFinish (pulled t) = false) :
    ((Finset.range n).filter fun t' => hasFinish (pulled' t') = true).card =
      ((Finset.range n).filter fun t' => hasFinish (pulled t') = true).card +
        if item.itemType = .finish then 1 else 0 := by
  by_cases htype : item.itemType = .finish
  · have hinsert : (Finset.range n).filter (fun t' => hasFinish (pulled' t') = true) =
        insert t ((Finset.range n).filter fun t' => hasFinish (pulled t') = true) := by
      ext t'
      by_cases hsame : t' = t
      · subst hsame
        simp [hself, ht, hasFinish, htype]
      · simp [hself, hsame]
    rw [hinsert, if_pos htype, Finset.card_insert_of_notMem (by simp [hopen])]
  · have hsame : ∀ t', hasFinish (pulled' t') = hasFinish (pulled t') := by
      intro t'
      rw [hself]
      split_ifs with hsame
      · rw [hsame, hasFinish_append]
        simp [hasFinish, htype]
      · rfl
    simp [hsame, htype]

/-- When all are counted, all have been pulled. -/
theorem all_stopped_of_card {pulled : ℕ → List (WrapItem T)} {n : ℕ}
    (hcard : ((Finset.range n).filter fun t => hasFinish (pulled t) = true).card = n) :
    ∀ t < n, hasFinish (pulled t) = true := by
  have hall : (Finset.range n).filter (fun t => hasFinish (pulled t) = true) =
      Finset.range n := by
    apply Finset.eq_of_subset_of_card_le (Finset.filter_subset _ _)
    rw [Finset.card_range, hcard]
  intro t ht
  rw [← Finset.mem_range, ← hall] at ht
  exact (Finset.mem_filter.mp ht).2

/-- A link behind a step of an out callback: one item leaves the queue of a thread, something
is added to the connection, and everything else stays. -/
structure PullFrame (ids : ℕ ↪ ℕ) (link link' : Link T) (s r t : ℕ) (item : WrapItem T)
    (added : List (WrapItem T)) : Prop where
  sent_eq : link'.sent = link.sent
  inp_eq : link'.inp = link.inp
  arrived_eq : ∀ r' t', link'.arrived r' t' = link.arrived r' t'
  net_eq : link'.net s r = link.net s r ++ added
  passed_eq : link'.passed ids s r = link.passed ids s r ++ added
  pulled_eq : ∀ t', link'.pulled s r t' =
    if t' = t then link.pulled s r t ++ [item] else link.pulled s r t'
  queued_eq : ∀ t', link'.pulled s r t' ++ (link'.out s r).queues t' =
    link.pulled s r t' ++ (link.out s r).queues t'
  numStop_eq : (link'.out s r).numStop =
    (link.out s r).numStop + if item.itemType = .finish then 1 else 0
  others : ∀ s' r', ¬(s' = s ∧ r' = r) →
    link'.passed ids s' r' = link.passed ids s' r' ∧ link'.out s' r' = link.out s' r' ∧
      link'.net s' r' = link.net s' r' ∧ ∀ t', link'.pulled s' r' t' = link.pulled s' r' t'

theorem pull_frame {rest added : List (WrapItem T)}
    (hqueue : (link.out s r).queues t = item :: rest)
    (hlink' : link' = { link with
      out := set₂ link.out s r
        ⟨Function.update (link.out s r).queues t rest,
          (link.out s r).numStop + if item.itemType = .finish then 1 else 0⟩
      net := set₂ link.net s r (link.net s r ++ added)
      pulled := push₃ link.pulled s r t item }) : PullFrame ids link link' s r t item added := by
  have harrived (r' t' : ℕ) : link'.arrived r' t' = link.arrived r' t' := by
    rw [hlink']
    rfl
  have hpulled : link'.pulled = push₃ link.pulled s r t item := by rw [hlink']
  have hnet : link'.net s r = link.net s r ++ added := by
    rw [hlink']
    exact set₂_self _ _ _ _
  have hself (t' : ℕ) : link'.pulled s r t' =
      if t' = t then link.pulled s r t ++ [item] else link.pulled s r t' := by
    rw [hpulled]
    by_cases hsame : t' = t
    · rw [hsame, if_pos rfl, push₃_self]
    · rw [if_neg hsame, push₃_of_ne fun hne => hsame hne.2.2]
  refine ⟨by rw [hlink'], by rw [hlink'], harrived, hnet, ?_, hself, ?_, ?_, ?_⟩
  · simp only [passed, harrived, hnet, List.append_assoc]
  · intro t'
    rw [hself, hlink']
    by_cases hsame : t' = t
    · subst hsame
      simp [set₂_self, hqueue]
    · simp [set₂_self, hsame]
  · rw [hlink']
    simp only [set₂_self]
  · intro s' r' hpair
    have hne (t' : ℕ) : ¬(s' = s ∧ r' = r ∧ t' = t) := fun hne => hpair ⟨hne.1, hne.2.1⟩
    have hnet' : link'.net s' r' = link.net s' r' := by
      rw [hlink']
      exact set₂_of_ne hpair
    refine ⟨by simp only [passed, harrived, hnet'], ?_, hnet', fun t' => ?_⟩
    · rw [hlink']
      exact set₂_of_ne hpair
    · rw [hpulled, push₃_of_ne (hne t')]

/-- A swallowed `FINISH` is no record. -/
theorem records_fromThread_added {added : List (WrapItem T)} (hthread : item.thrSource = t)
    (hadded : added = [item] ∨ added = [] ∧ item.itemType = .finish) (t' : ℕ) :
    records (fromThread t' added) = if t' = t then records [item] else [] := by
  rcases hadded with rfl | ⟨rfl, htype⟩
  · by_cases hsame : t' = t
    · simp [fromThread, hthread, hsame]
    · simp [fromThread, hthread, Ne.symm hsame, hsame, records]
  · simp [records, fromThread, htype]

/-- The out callback reads an item. -/
theorem Inv.pull (h : link.Inv ids numSender threads rthreads)
    (hpull : link.pull (threads s) s r t = some link') :
    link'.Inv ids numSender threads rthreads ∧ link'.sent = link.sent ∧
      link'.taken = link.taken := by
  obtain ⟨item, rest, added, hqueue, hadded, hlink'⟩ := pull_cases hpull
  have hframe : PullFrame ids link link' s r t item added := pull_frame hqueue hlink'
  refine ⟨?_, hframe.sent_eq, by rw [hlink']⟩
  obtain ⟨hopen, hnone⟩ := h.open_of_queue hqueue
  have hsent := h.sent_eq s r t
  rw [hqueue] at hsent
  obtain ⟨hworker, hthread, hs, ht⟩ := h.sent_tag s r t item (by simp [hsent])
  refine ⟨?_, ?_, ?_, ?_, ?_, ?_, ?_, ?_, ?_, ?_, ?_, ?_⟩
  · rw [hframe.inp_eq]
    exact h.numQueue_eq
  · intro s' r' t'
    rw [hframe.sent_eq]
    by_cases hpair : s' = s ∧ r' = r
    · obtain ⟨rfl, rfl⟩ := hpair
      rw [hframe.queued_eq, h.sent_eq]
    · obtain ⟨-, hout, -, hkeep⟩ := hframe.others s' r' hpair
      rw [hout, hkeep]
      exact h.sent_eq s' r' t'
  · rw [hframe.sent_eq]
    exact h.sent_tag
  · rw [hframe.sent_eq]
    exact h.sent_last
  · intro s' r' t'
    by_cases hpair : s' = s ∧ r' = r
    · obtain ⟨rfl, rfl⟩ := hpair
      have hrecords := records_fromThread_added hthread (hadded.imp_left And.left) t'
      rw [hframe.pulled_eq, hframe.passed_eq, fromThread_append, records_append, hrecords,
        ← h.records_eq]
      split_ifs with hsame
      · rw [hsame, records_append]
      · rw [List.append_nil]
    · obtain ⟨hsame, -, -, hkeep⟩ := hframe.others s' r' hpair
      rw [hsame, hkeep]
      exact h.records_eq s' r' t'
  · intro s' r'
    by_cases hpair : s' = s ∧ r' = r
    · obtain ⟨rfl, rfl⟩ := hpair
      rw [hframe.numStop_eq, h.numStop_eq]
      exact (card_stops hframe.pulled_eq ht hopen).symm
    · obtain ⟨-, hout, -, hkeep⟩ := hframe.others s' r' hpair
      simp only [hout, hkeep]
      exact h.numStop_eq s' r'
  · intro s' r'
    by_cases hpair : s' = s ∧ r' = r
    · obtain ⟨rfl, rfl⟩ := hpair
      rw [hframe.passed_eq]
      rcases hadded with ⟨rfl, -⟩ | ⟨rfl, -⟩
      · exact finishLast_concat hnone item
      · rw [List.append_nil]
        exact h.passed_last s' r'
    · rw [(hframe.others s' r' hpair).1]
      exact h.passed_last s' r'
  · intro s' r' hfinish
    by_cases hpair : s' = s ∧ r' = r
    · obtain ⟨rfl, rfl⟩ := hpair
      refine ⟨by omega, ?_⟩
      rw [hframe.passed_eq, hasFinish_append, hnone, Bool.false_or] at hfinish
      -- the last `FINISH` passes only when the counter has reached the number of threads
      obtain ⟨htype, hlast⟩ : item.itemType = .finish ∧
          (link.out s' r').numStop + 1 = threads s' := by
        rcases hadded with ⟨rfl, hlast⟩ | ⟨rfl, -⟩
        · obtain ⟨x, hx, htype⟩ := hasFinish_iff.mp hfinish
          rw [List.mem_singleton.mp hx] at htype
          exact ⟨htype, hlast htype⟩
        · cases hfinish
      have hcard := card_stops hframe.pulled_eq ht hopen
      rw [← h.numStop_eq, if_pos htype, hlast] at hcard
      exact all_stopped_of_card hcard
    · obtain ⟨hsame, -, -, hkeep⟩ := hframe.others s' r' hpair
      rw [hsame] at hfinish
      simp only [hkeep]
      exact h.passed_finish s' r' hfinish
  · intro s' r' x hx
    by_cases hpair : s' = s ∧ r' = r
    · obtain ⟨rfl, rfl⟩ := hpair
      rw [hframe.net_eq] at hx
      rcases List.mem_append.mp hx with hold | hnew
      · exact h.net_tag s' r' x hold
      · rcases hadded with ⟨rfl, -⟩ | ⟨rfl, -⟩
        · rw [List.mem_singleton.mp hnew]
          exact ⟨hworker, hs⟩
        · cases hnew
    · rw [(hframe.others s' r' hpair).2.2.1] at hx
      exact h.net_tag s' r' x hx
  · intro s' r'
    rw [hframe.inp_eq, hframe.arrived_eq]
    exact h.stopped_finish s' r'
  · intro r' t'
    rw [hframe.arrived_eq]
    exact h.finish_nodup r' t'
  · intro r' t'
    rw [hframe.arrived_eq, hframe.inp_eq]
    exact h.finish_stopped r' t'

/-! ## What an arrived `FINISH` means -/

/-- A thread that has counted as many `FINISH` as there are senders has one from each. -/
theorem Inv.finish_of_count (h : link.Inv ids numSender threads rthreads) (ht : t < rthreads r)
    (hcount : (finishSources (link.taken r t)).length = numSender) (hs : s < numSender) :
    ids s ∈ finishSources (link.taken r t) := by
  have harrived : finishSources (link.arrived r t) =
      finishSources (link.taken r t) ++ finishSources ((link.inp r).queues t) :=
    finishSources_append
  have hnodup : (finishSources (link.taken r t)).Nodup := by
    have hall := h.finish_nodup r t ht
    rw [harrived] at hall
    exact (List.nodup_append.mp hall).1
  have hsubset : finishSources (link.taken r t) ⊆ (List.range numSender).map ids := by
    intro w hw
    obtain ⟨-, s', hs', rfl⟩ := h.finish_stopped r t ht w (by simp [harrived, hw])
    exact List.mem_map_of_mem (List.mem_range.mpr hs')
  have hperm : (finishSources (link.taken r t)).Perm ((List.range numSender).map ids) := by
    apply (List.subperm_of_subset hnodup hsubset).perm_of_length_le
    rw [hcount, List.length_map, List.length_range]
  exact hperm.mem_iff.mpr (List.mem_map_of_mem (List.mem_range.mpr hs))

/-- The `FINISH` of a worker is taken only after all its threads have sent theirs. -/
theorem Inv.all_finished (h : link.Inv ids numSender threads rthreads) (ht : t < rthreads r)
    (hs : ids s ∈ finishSources (link.taken r t)) :
    0 < threads s ∧ ∀ t' < threads s, hasFinish (link.pulled s r t') = true := by
  have harrived : ids s ∈ finishSources (link.arrived r t) := by
    rw [arrived, finishSources_append]
    exact List.mem_append_left _ hs
  have hfirst := h.stopped_finish (ids s) r (h.finish_stopped r t ht (ids s) harrived).1
  apply h.passed_finish s r
  rw [passed, hasFinish_append, hfirst, Bool.true_or]

/-- Once the first thread has taken the `FINISH` of a worker, it has taken everything
that the threads of that worker ever sent. -/
theorem Inv.records_taken (h : link.Inv ids numSender threads rthreads) (hr : 0 < rthreads r)
    (hs : ids s ∈ finishSources (link.taken r 0)) (ht : t < threads s) :
    records (link.sent s r t) = records (fromThread t (fromWorker (ids s) (link.taken r 0))) := by
  have hpassed : link.passed ids s r = fromWorker (ids s) (link.taken r 0) ++
      (fromWorker (ids s) ((link.inp r).queues 0) ++ link.net s r) := by
    simp [passed, arrived]
  have hrest : fromWorker (ids s) ((link.inp r).queues 0) ++ link.net s r = [] := by
    have hlast := h.passed_last s r
    rw [hpassed] at hlast
    exact hlast.eq_nil (mem_finishSources_iff.mp hs)
  have hempty : (link.out s r).queues t = [] := by
    have hlast := h.sent_last s r t
    rw [h.sent_eq] at hlast
    exact hlast.eq_nil ((h.all_finished hr hs).2 t ht)
  rw [h.sent_eq, hempty, List.append_nil, h.records_eq, hpassed, hrest, List.append_nil]

end Link

end AFStream.Thread

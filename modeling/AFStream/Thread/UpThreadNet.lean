/-
# The receiving side of a worker

A listener accepts one connection from each upstream worker and gives its engine the out
callback with the id of that worker; what arrives on any connection goes to one in
callback, which counts the workers that have finished. Three sizes meet here: the number
of upstream workers, their ids and the number of compute threads. The module shows that
the bookkeeping is exact as long as all indices are in range, and when they are.
-/

import AFStream.Thread.Link

namespace AFStream.Thread

open AFStream.Foundation

universe u

/-- What happens to the receiving side. -/
inductive UpEvent (T : Type u)
  | /-- A connection is accepted, and the worker at its other end sends its id. -/
    connect (peerWorker : ℕ)
  | /-- An engine has decoded an item. -/
    push (item : WrapItem T)

/-- `UpThreadNet` with its listener: the in callback, the number of entries of
`out_callbacks_`, which of them the engines have got, and the calls of `PushRecord` with
their results. -/
structure UpThreadNet (T : Type u) where
  inCallback : InCallbackSimple T
  numUpstream : ℕ
  engines : List ℕ
  log : List (WrapItem T × ℕ)

namespace UpEvent

variable {T : Type u}

/-- The worker that causes the event. -/
def peer : UpEvent T → ℕ
  | .connect peerWorker => peerWorker
  | .push item => item.workerSource

/-- The item that is pushed, if any. -/
def item? : UpEvent T → Option (WrapItem T)
  | .connect _ => none
  | .push item => some item

/-- The array indices that the event leads to are in range. -/
def InRange (numUpstream numQueue : ℕ) : UpEvent T → Prop
  | .connect peerWorker => peerWorker < numUpstream
  | .push item => item.itemType = .finish → item.workerSource < numQueue

instance (numUpstream numQueue : ℕ) (event : UpEvent T) :
    Decidable (event.InRange numUpstream numQueue) :=
  match event with
  | .connect peerWorker => inferInstanceAs (Decidable (peerWorker < numUpstream))
  | .push item => inferInstanceAs (Decidable (item.itemType = .finish → item.workerSource < _))

end UpEvent

namespace UpThreadNet

variable {T : Type u}

/-- The constructor and the calls of `AddOutQueue`. -/
def create (numUpstream numQueue : ℕ) : UpThreadNet T where
  inCallback := .create numUpstream numQueue
  numUpstream := numUpstream
  engines := []
  log := []

/-- `tcp_listener_t::in_event`; indexing outside `out_callbacks_` is undefined. -/
def accept (s : UpThreadNet T) (peerWorker : ℕ) : Option (UpThreadNet T) :=
  if peerWorker < s.numUpstream then some { s with engines := s.engines ++ [peerWorker] }
  else none

/-- An engine calls `PushRecord`. -/
def pushRecord (s : UpThreadNet T) (item : WrapItem T) : Option (UpThreadNet T) :=
  (s.inCallback.pushRecord item).map fun (result, cb) =>
    { s with inCallback := cb, log := s.log ++ [(item, result)] }

/-- All sequences of connections and arrivals. -/
def machine (numUpstream numQueue : ℕ) : Machine (UpThreadNet T) (UpEvent T) where
  init := create numUpstream numQueue
  step s
    | .connect peerWorker => s.accept peerWorker
    | .push item => s.pushRecord item

/-- The items pushed so far. -/
def pushed (s : UpThreadNet T) : List (WrapItem T) := s.log.map Prod.fst

/-- The item is the first `FINISH` of its worker, and all others have sent theirs. -/
def LastFinish (peers : Finset ℕ) (before : List (WrapItem T)) (item : WrapItem T) : Prop :=
  item.itemType = .finish ∧ item.workerSource ∉ finishSources before ∧
    ∀ peer ∈ peers, peer ∈ finishSources (before ++ [item])

/-- What the callers of `PushRecord` rely on: every queue has one `FINISH` of each worker
that has sent any, and the result is 1 once, for the first `FINISH` of the last worker. -/
structure Exact (peers : Finset ℕ) (s : UpThreadNet T) : Prop where
  finishes : ∀ t < s.inCallback.numQueue, ∀ peer ∈ peers,
    (finishSources (s.inCallback.queues t)).count peer =
      if peer ∈ finishSources s.pushed then 1 else 0
  results : ∀ before item result after, s.log = before ++ (item, result) :: after →
    (result = 1 ↔ LastFinish peers (before.map Prod.fst) item)
  once : (s.log.filter fun call => call.2 = 1).length =
    if ∀ peer ∈ peers, peer ∈ finishSources s.pushed then 1 else 0

/-! ## One call of `PushRecord` -/

theorem split_concat {A : Type*} {l before after : List A} {x y : A}
    (h : l ++ [y] = before ++ x :: after) :
    (before = l ∧ x = y ∧ after = []) ∨ ∃ after', l = before ++ x :: after' := by
  cases after using List.reverseRecOn with
  | nil =>
      obtain ⟨hbefore, hlast⟩ := List.append_inj' h rfl
      exact .inl ⟨hbefore.symm, (List.cons.inj hlast).1.symm, rfl⟩
  | append_singleton after z _ =>
      have h' : l ++ [y] = (before ++ x :: after) ++ [z] := by simpa using h
      exact .inr ⟨after, (List.append_inj' h' rfl).1⟩

theorem finishSources_singleton (item : WrapItem T) :
    finishSources [item] = if item.itemType = .finish then [item.workerSource] else [] := by
  by_cases htype : item.itemType = .finish
  · simp [finishSources, htype]
  · simp [finishSources, htype]

/-- The invariant, for any set of workers. -/
structure Inv (peers : Finset ℕ) (numQueue : ℕ) (s : UpThreadNet T) : Prop where
  numQueue_eq : s.inCallback.numQueue = numQueue
  numIn_eq : s.inCallback.numIn = peers.card
  numUpstream_eq : s.numUpstream = peers.card
  sources : ∀ item ∈ s.pushed, item.workerSource ∈ peers
  stopped : ∀ peer, s.inCallback.stopped peer = true ↔ peer ∈ finishSources s.pushed
  numStop_eq : s.inCallback.numStop = (finishSources s.pushed).toFinset.card
  exact : s.Exact peers

variable {peers : Finset ℕ} {numQueue : ℕ} {s s' : UpThreadNet T} {item : WrapItem T}

theorem Inv.init (hpeers : peers.Nonempty) :
    ((machine peers.card numQueue).init : UpThreadNet T).Inv peers numQueue where
  numQueue_eq := rfl
  numIn_eq := rfl
  numUpstream_eq := rfl
  sources := by
    intro item hitem
    cases hitem
  stopped := by
    intro peer
    constructor
    · intro h
      cases h
    · intro h
      cases h
  numStop_eq := rfl
  exact :=
    { finishes := fun _ _ _ _ => rfl
      results := by
        intro before item result after hlog
        exact absurd hlog (by simp [machine, create])
      once := by
        obtain ⟨peer, hpeer⟩ := hpeers
        have hopen : ¬ ∀ peer ∈ peers, peer ∈ finishSources
            ((machine peers.card numQueue).init : UpThreadNet T).pushed :=
          fun h => by cases h peer hpeer
        rw [if_neg hopen]
        rfl }

/-- The finished workers are among the peers. -/
theorem Inv.finished_subset (h : s.Inv peers numQueue) :
    (finishSources s.pushed).toFinset ⊆ peers := by
  intro peer hpeer
  rw [List.mem_toFinset, finishSources, List.mem_map] at hpeer
  obtain ⟨item, hitem, rfl⟩ := hpeer
  exact h.sources item (List.mem_filter.mp hitem).1

/-- The counter reaches the number of peers with the last of them. -/
theorem Inv.numStop_succ_eq_iff (h : s.Inv peers numQueue) (hsource : item.workerSource ∈ peers)
    (htype : item.itemType = .finish) (hnew : item.workerSource ∉ finishSources s.pushed) :
    s.inCallback.numStop + 1 = s.inCallback.numIn ↔
      ∀ peer ∈ peers, peer ∈ finishSources (s.pushed ++ [item]) := by
  have hnew' : item.workerSource ∉ (finishSources s.pushed).toFinset := by
    rwa [List.mem_toFinset]
  have hsubset : insert item.workerSource (finishSources s.pushed).toFinset ⊆ peers :=
    Finset.insert_subset hsource h.finished_subset
  rw [h.numStop_eq, h.numIn_eq, ← Finset.card_insert_of_notMem hnew']
  constructor
  · intro hcard peer hpeer
    rw [← Finset.eq_of_subset_of_card_le hsubset hcard.ge, Finset.mem_insert,
      List.mem_toFinset] at hpeer
    rw [finishSources_append, finishSources_singleton, if_pos htype, List.mem_append,
      List.mem_singleton]
    exact hpeer.symm
  · intro hall
    congr 1
    apply hsubset.antisymm
    intro peer hpeer
    have hmem := hall peer hpeer
    rw [finishSources_append, finishSources_singleton, if_pos htype, List.mem_append,
      List.mem_singleton] at hmem
    rw [Finset.mem_insert, List.mem_toFinset]
    exact hmem.symm

/-- The workers that have finished after one more item. -/
theorem mem_finishSources_concat {items : List (WrapItem T)} {peer : ℕ} :
    peer ∈ finishSources (items ++ [item]) ↔
      peer ∈ finishSources items ∨ item.itemType = .finish ∧ peer = item.workerSource := by
  rw [finishSources_append, finishSources_singleton, List.mem_append]
  by_cases htype : item.itemType = .finish
  · rw [if_pos htype, List.mem_singleton]
    simp only [htype, true_and]
  · rw [if_neg htype]
    simp only [htype, List.not_mem_nil, false_and]

/-- All workers have finished with this item: it is the last `FINISH`, or they had before. -/
theorem all_finished_concat_iff {items : List (WrapItem T)} :
    (∀ peer ∈ peers, peer ∈ finishSources (items ++ [item])) ↔
      LastFinish peers items item ∨ ∀ peer ∈ peers, peer ∈ finishSources items := by
  constructor
  · intro hall
    by_cases hnew : item.itemType = .finish ∧ item.workerSource ∉ finishSources items
    · exact .inl ⟨hnew.1, hnew.2, hall⟩
    · refine .inr fun peer hpeer => ?_
      rcases mem_finishSources_concat.mp (hall peer hpeer) with hmem | ⟨htype, rfl⟩
      · exact hmem
      · by_contra hmem
        exact hnew ⟨htype, hmem⟩
  · rintro (hlast | hall) peer hpeer
    · exact hlast.2.2 peer hpeer
    · exact mem_finishSources_concat.mpr (.inl (hall peer hpeer))

/-- The two facts about results, from the result of the new call. -/
theorem Exact.concat (h : s.Exact peers) (hsource : item.workerSource ∈ peers) {result : ℕ}
    (hlog : s'.log = s.log ++ [(item, result)])
    (hresult : result = 1 ↔ LastFinish peers s.pushed item)
    (hfinishes : ∀ t < s'.inCallback.numQueue, ∀ peer ∈ peers,
      (finishSources (s'.inCallback.queues t)).count peer =
        if peer ∈ finishSources s'.pushed then 1 else 0) : s'.Exact peers := by
  have hpushed : s'.pushed = s.pushed ++ [item] := by
    rw [pushed, hlog, List.map_append]
    rfl
  refine ⟨hfinishes, ?_, ?_⟩
  · intro before item' result' after hsplit
    rw [hlog] at hsplit
    rcases split_concat hsplit with ⟨rfl, hcall, -⟩ | ⟨after', hsplit'⟩
    · cases hcall
      exact hresult
    · exact h.results before item' result' after' hsplit'
  · have hopen : LastFinish peers s.pushed item →
        ¬ ∀ peer ∈ peers, peer ∈ finishSources s.pushed :=
      fun hlast hall => hlast.2.1 (hall _ hsource)
    rw [hlog, hpushed, List.filter_append, List.length_append, h.once]
    simp only [all_finished_concat_iff, ← hresult]
    by_cases hone : result = 1
    · rw [if_neg (hopen (hresult.mp hone)), if_pos (.inl hone)]
      simp [hone]
    · simp [hone]

theorem count_finishSources_concat (items : List (WrapItem T)) (peer : ℕ) :
    (finishSources (items ++ [item])).count peer =
      (finishSources items).count peer +
        if item.itemType = .finish ∧ item.workerSource = peer then 1 else 0 := by
  rw [finishSources_append, finishSources_singleton, List.count_append]
  congr 1
  by_cases htype : item.itemType = .finish
  · simp [htype, List.count_singleton]
  · simp [htype]

/-- The invariant after a call, from what the call does to the callback. -/
theorem Inv.concat (h : s.Inv peers numQueue) (hsource : item.workerSource ∈ peers) {result : ℕ}
    {cb : InCallbackSimple T} (hcall : s.inCallback.pushRecord item = some (result, cb))
    (hqueue : cb.numQueue = s.inCallback.numQueue)
    (hin : cb.numIn = s.inCallback.numIn)
    (hstopped : ∀ peer, cb.stopped peer = true ↔ peer ∈ finishSources (s.pushed ++ [item]))
    (hcount : cb.numStop = (finishSources (s.pushed ++ [item])).toFinset.card)
    (hresult : result = 1 ↔ LastFinish peers s.pushed item)
    (hfinishes : ∀ t < s.inCallback.numQueue, ∀ peer ∈ peers,
      (finishSources (cb.queues t)).count peer =
        if peer ∈ finishSources (s.pushed ++ [item]) then 1 else 0) :
    ∃ s', s.pushRecord item = some s' ∧ s'.Inv peers numQueue ∧ s'.pushed = s.pushed ++ [item] := by
  have hpushed : pushed { s with inCallback := cb, log := s.log ++ [(item, result)] } =
      s.pushed ++ [item] := by
    rw [pushed, List.map_append]
    rfl
  refine ⟨{ s with inCallback := cb, log := s.log ++ [(item, result)] }, ?_, ?_, hpushed⟩
  · rw [UpThreadNet.pushRecord, hcall]
    rfl
  constructor
  · exact hqueue.trans h.numQueue_eq
  · exact hin.trans h.numIn_eq
  · exact h.numUpstream_eq
  · intro item' hitem'
    rw [hpushed] at hitem'
    rcases List.mem_append.mp hitem' with hold | hnew
    · exact h.sources item' hold
    · rwa [List.mem_singleton.mp hnew]
  · intro peer
    rw [hpushed]
    exact hstopped peer
  · rw [hpushed]
    exact hcount
  · refine h.exact.concat hsource rfl hresult fun t ht => ?_
    rw [hpushed]
    exact hfinishes t (hqueue ▸ ht)

/-- A record. -/
theorem Inv.pushRecord_of_record (h : s.Inv peers numQueue) (hsource : item.workerSource ∈ peers)
    (htype : item.itemType ≠ .finish) (hpos : 0 < s.inCallback.numQueue) :
    ∃ s', s.pushRecord item = some s' ∧ s'.Inv peers numQueue ∧ s'.pushed = s.pushed ++ [item] := by
  have hsame : finishSources (s.pushed ++ [item]) = finishSources s.pushed := by
    rw [finishSources_append, finishSources_singleton, if_neg htype, List.append_nil]
  refine h.concat hsource (InCallbackSimple.pushRecord_of_record htype hpos) rfl rfl ?_ ?_ ?_ ?_
  · intro peer
    rw [hsame]
    exact h.stopped peer
  · rw [hsame]
    exact h.numStop_eq
  · exact ⟨fun hzero => absurd hzero Nat.zero_ne_one, fun hlast => absurd hlast.1 htype⟩
  · intro t ht peer hpeer
    rw [hsame, ← h.exact.finishes t ht peer hpeer]
    dsimp only
    by_cases hzero : t = 0
    · subst hzero
      rw [Function.update_self, count_finishSources_concat, if_neg fun hboth => htype hboth.1,
        Nat.add_zero]
    · rw [Function.update_of_ne hzero]

/-- A repeated `FINISH` changes nothing. -/
theorem Inv.pushRecord_of_stopped (h : s.Inv peers numQueue)
    (hsource : item.workerSource ∈ peers) (htype : item.itemType = .finish)
    (hrange : item.workerSource < s.inCallback.numQueue)
    (hstopped : s.inCallback.stopped item.workerSource = true) :
    ∃ s', s.pushRecord item = some s' ∧ s'.Inv peers numQueue ∧ s'.pushed = s.pushed ++ [item] := by
  have hmem := (h.stopped _).mp hstopped
  have hsame : ∀ peer, peer ∈ finishSources (s.pushed ++ [item]) ↔
      peer ∈ finishSources s.pushed := by
    intro peer
    rw [mem_finishSources_concat]
    constructor
    · rintro (hpeer | ⟨-, rfl⟩)
      · exact hpeer
      · exact hmem
    · exact .inl
  have hfinset : (finishSources (s.pushed ++ [item])).toFinset =
      (finishSources s.pushed).toFinset := by
    ext peer
    rw [List.mem_toFinset, List.mem_toFinset, hsame]
  refine h.concat hsource (InCallbackSimple.pushRecord_of_stopped htype hrange hstopped) rfl rfl
    ?_ ?_ ?_ ?_
  · intro peer
    rw [hsame]
    exact h.stopped peer
  · rw [hfinset]
    exact h.numStop_eq
  · exact ⟨fun hzero => absurd hzero Nat.zero_ne_one, fun hlast => absurd hmem hlast.2.1⟩
  · intro t ht peer hpeer
    rw [h.exact.finishes t ht peer hpeer]
    simp only [hsame]

/-- The first `FINISH` of a worker goes to every queue. -/
theorem Inv.pushRecord_of_finish (h : s.Inv peers numQueue)
    (hsource : item.workerSource ∈ peers) (htype : item.itemType = .finish)
    (hrange : item.workerSource < s.inCallback.numQueue)
    (hstopped : s.inCallback.stopped item.workerSource ≠ true) :
    ∃ s', s.pushRecord item = some s' ∧ s'.Inv peers numQueue ∧ s'.pushed = s.pushed ++ [item] := by
  have hnew : item.workerSource ∉ finishSources s.pushed :=
    fun hmem => hstopped ((h.stopped _).mpr hmem)
  have hfinset : (finishSources (s.pushed ++ [item])).toFinset =
      insert item.workerSource (finishSources s.pushed).toFinset := by
    ext peer
    rw [List.mem_toFinset, mem_finishSources_concat, Finset.mem_insert, List.mem_toFinset]
    simp only [htype, true_and]
    exact or_comm
  refine h.concat hsource (InCallbackSimple.pushRecord_of_finish htype hrange hstopped) rfl rfl
    ?_ ?_ ?_ ?_
  · intro peer
    rw [mem_finishSources_concat, ← h.stopped]
    by_cases hpeer : peer = item.workerSource
    · simp [hpeer, htype]
    · simp [hpeer]
  · rw [hfinset, Finset.card_insert_of_notMem (by rwa [List.mem_toFinset]), ← h.numStop_eq]
  · have hiff := h.numStop_succ_eq_iff hsource htype hnew
    by_cases hall : s.inCallback.numStop + 1 = s.inCallback.numIn
    · rw [if_pos hall]
      exact ⟨fun _ => ⟨htype, hnew, hiff.mp hall⟩, fun _ => rfl⟩
    · rw [if_neg hall]
      exact ⟨fun hzero => absurd hzero Nat.zero_ne_one,
        fun hlast => absurd (hiff.mpr hlast.2.2) hall⟩
  · intro t ht peer hpeer
    simp only [if_pos ht, count_finishSources_concat, mem_finishSources_concat,
      h.exact.finishes t ht peer hpeer, htype, true_and]
    by_cases hsame : item.workerSource = peer
    · subst hsame
      simp [hnew]
    · simp [hsame, Ne.symm hsame]

/-- **Step.** An event from a peer whose indices are in range is handled and keeps the
invariant. -/
theorem Inv.step (h : s.Inv peers numQueue) (hpos : 0 < numQueue) {event : UpEvent T}
    (hpeer : event.peer ∈ peers) (hrange : event.InRange peers.card numQueue) :
    ∃ s', (machine peers.card numQueue).step s event = some s' ∧ s'.Inv peers numQueue ∧
      s'.pushed = s.pushed ++ event.item?.toList := by
  have hqueue := h.numQueue_eq
  cases event with
  | connect peerWorker =>
      refine ⟨{ s with engines := s.engines ++ [peerWorker] }, if_pos ?_, ?_, ?_⟩
      · rw [h.numUpstream_eq]
        exact hrange
      · exact ⟨h.numQueue_eq, h.numIn_eq, h.numUpstream_eq, h.sources, h.stopped, h.numStop_eq,
          ⟨h.exact.finishes, h.exact.results, h.exact.once⟩⟩
      · exact (List.append_nil _).symm
  | push item =>
      by_cases htype : item.itemType = .finish
      · have hrange' := hqueue ▸ hrange htype
        by_cases hstopped : s.inCallback.stopped item.workerSource = true
        · exact h.pushRecord_of_stopped hpeer htype hrange' hstopped
        · exact h.pushRecord_of_finish hpeer htype hrange' hstopped
      · exact h.pushRecord_of_record hpeer htype (hqueue ▸ hpos)

/-- An event that is handled has its indices in range. -/
theorem Inv.inRange (h : s.Inv peers numQueue) {event : UpEvent T}
    (hstep : (machine peers.card numQueue).step s event = some s') :
    event.InRange peers.card numQueue := by
  cases event with
  | connect peerWorker =>
      by_contra hrange
      have hnone : (machine peers.card numQueue).step s (.connect peerWorker) = none := by
        apply if_neg
        rw [h.numUpstream_eq]
        exact hrange
      rw [hnone] at hstep
      cases hstep
  | push item =>
      intro htype
      by_contra hrange
      rw [← h.numQueue_eq] at hrange
      obtain ⟨call, hcall, -⟩ := Option.map_eq_some_iff.mp hstep
      rw [InCallbackSimple.pushRecord, if_pos htype, if_neg hrange] at hcall
      cases hcall

/-! ## Whole runs -/

/-- The items pushed by a sequence of events. -/
def items (events : List (UpEvent T)) : List (WrapItem T) := events.filterMap UpEvent.item?

/-- All accesses of a run are in range, and the bookkeeping at its end is exact. -/
def Bookkept (peers : Finset ℕ) (numQueue : ℕ) (events : List (UpEvent T)) : Prop :=
  ∃ s, (machine peers.card numQueue).runFrom (machine peers.card numQueue).init events = some s ∧
    s.pushed = items events ∧ s.Exact peers

/-- **`FINISH` bookkeeping.** For every number of compute threads, every set of upstream
workers and every sequence of connections, records and possibly repeated `FINISH` items
from them: all accesses are in range and the bookkeeping is exact, if and only if the id of
every worker that connects is smaller than the number of upstream workers and the id of
every worker that sends a `FINISH` smaller than the number of compute threads. -/
theorem bookkept_iff (numQueue : ℕ) (hpos : 0 < numQueue) (peers : Finset ℕ)
    (hpeers : peers.Nonempty) (events : List (UpEvent T))
    (hevents : ∀ event ∈ events, event.peer ∈ peers) :
    Bookkept peers numQueue events ↔ ∀ event ∈ events, event.InRange peers.card numQueue := by
  -- from any state that satisfies the invariant
  have hrun : ∀ (s : UpThreadNet T), s.Inv peers numQueue →
      ((∃ s', (machine peers.card numQueue).runFrom s events = some s' ∧
          s'.pushed = s.pushed ++ items events ∧ s'.Exact peers) ↔
        ∀ event ∈ events, event.InRange peers.card numQueue) := by
    induction events with
    | nil =>
        intro s h
        simp [items, h.exact]
    | cons event rest ih =>
        rw [List.forall_mem_cons] at hevents
        intro s h
        rw [List.forall_mem_cons, Machine.runFrom_cons]
        constructor
        · rintro ⟨s', hrun, hpushed, hexact⟩
          obtain ⟨s₁, hstep, hrest⟩ := Option.bind_eq_some_iff.mp hrun
          have hrange := h.inRange hstep
          obtain ⟨s₂, hstep', h₁, hpushed₁⟩ := h.step hpos hevents.1 hrange
          obtain rfl := Option.some.inj (hstep'.symm.trans hstep)
          refine ⟨hrange, (ih hevents.2 s₂ h₁).mp ⟨s', hrest, ?_, hexact⟩⟩
          rw [hpushed, hpushed₁, List.append_assoc]
          congr 1
          cases event <;> rfl
        · rintro ⟨hrange, hranges⟩
          obtain ⟨s₁, hstep, h₁, hpushed₁⟩ := h.step hpos hevents.1 hrange
          obtain ⟨s', hrest, hpushed, hexact⟩ := (ih hevents.2 s₁ h₁).mpr hranges
          refine ⟨s', ?_, ?_, hexact⟩
          · rw [hstep]
            exact hrest
          · rw [hpushed, hpushed₁, List.append_assoc]
            congr 1
            cases event <;> rfl
  exact hrun _ (.init hpeers)

/-- The `FINISH` of a worker. -/
def finishOf (worker : ℕ) : UpEvent Unit := .push ⟨.finish, 0, 0, worker, ()⟩

/-- Workers 0 and 1 and two compute threads. -/
theorem bookkept_iff_two_threads :
    Bookkept {0, 1} 2 [.connect 0, .connect 1, finishOf 1, finishOf 1, finishOf 0] :=
  (bookkept_iff 2 Nat.two_pos {0, 1} ⟨0, by decide⟩ _ (by decide)).mpr (by decide)

/-- The topology of the sample configuration: workers 0 and 1 send to a worker with one
compute thread. The `FINISH` of worker 1 is looked up in a vector of one flag. -/
theorem not_bookkept_sample :
    ¬ Bookkept {0, 1} 1 [.connect 0, .connect 1, finishOf 0, finishOf 1] := by
  rintro ⟨s, hrun, -⟩
  have hnone : ((machine ({0, 1} : Finset ℕ).card 1).runFrom
      (machine ({0, 1} : Finset ℕ).card 1).init
      [.connect 0, .connect 1, finishOf 0, finishOf 1]).isNone = true := by
    decide +kernel
  rw [hrun] at hnone
  cases hnone

end UpThreadNet

end AFStream.Thread

/-
# The event loop has no faults of its own

Whatever a network thread meets, its handlers make only calls that are in order: no handler is
called on an object that has been deleted, no entry is used after it has been freed or freed twice,
`epoll_ctl` and `close` get descriptors that are registered and open, and none of the assertions
about timers, handles and sockets fails. The one assertion that can fail is that there is a decoder
behind the handshake: a peer of an older protocol makes it fail. Behind all this is an account of
who owns what, which holds between any two calls; it also says which descriptors are left behind.
-/

import AFStream.Net.EventLoop

namespace AFStream.Net

open AFStream.Foundation

namespace EventLoop

variable {l l' : EventLoop} {i j fd : ℕ} {e e' : EngineControl} {c : TcpConnecter}
  {loose : Option ℕ}

/-! ## Who owns what -/

/-- The handle and the descriptor that an object has registered. -/
def reg (l : EventLoop) : Sink → Option (ℕ × ℕ)
  | .listener => l.listener
  | .connecter i => (l.connecters i).bind fun c =>
    if c.handleValid then c.s.map fun fd => (c.handle, fd) else none
  | .engine j => (l.engines.block j).bind fun e => if e.ioError then none else some (e.handle, e.s)

/-- The descriptor that an object has. -/
def own (l : EventLoop) : Sink → Option ℕ
  | .listener => l.listener.map Prod.snd
  | .connecter i => (l.connecters i).bind TcpConnecter.s
  | .engine j => (l.engines.block j).map EngineControl.s

/-- What holds of an engine between any two calls of its handlers. -/
structure Settled (e : EngineControl) : Prop where
  /-- Output does not stop during the handshake. -/
  stopped : e.handshakeReady = false → e.outputStopped = false
  coders : e.handshaking = false → e.hasCoders = true
  /-- Only an engine whose input has stopped gives up its entry. -/
  closed : e.ioError = true → e.inputStopped = true

/-- What holds between any two calls of a handler. -/
structure Base (loose : Option ℕ) (l : EventLoop) : Prop where
  consistent : l.epoll.Consistent l.reg l.own loose
  settled : ∀ j e, l.engines.block j = some e → Settled e
  batch_live : ∀ event ∈ l.batch, l.epoll.entries.Live event.1

/-- What a change of an engine does to the account. -/
theorem reg_setEngine (l : EventLoop) (j : ℕ) (e : EngineControl) :
    (l.setEngine j e).reg = Function.update l.reg (.engine j)
      (if e.ioError then none else some (e.handle, e.s)) := by
  funext sink
  cases sink with
  | listener => rfl
  | connecter i => rfl
  | engine k =>
      by_cases hk : k = j
      · subst hk
        simp [reg, setEngine]
      · simp [reg, setEngine, Heap.block_alloc_of_ne _ _ hk, hk]

theorem own_setEngine (l : EventLoop) (j : ℕ) (e : EngineControl) :
    (l.setEngine j e).own = Function.update l.own (.engine j) (some e.s) := by
  funext sink
  cases sink with
  | listener => rfl
  | connecter i => rfl
  | engine k =>
      by_cases hk : k = j
      · subst hk
        simp [own, setEngine]
      · simp [own, setEngine, Heap.block_alloc_of_ne _ _ hk, hk]

theorem reg_setConnecter (l : EventLoop) (i : ℕ) (c : TcpConnecter) :
    (l.setConnecter i c).reg = Function.update l.reg (.connecter i)
      (if c.handleValid then c.s.map fun fd => (c.handle, fd) else none) := by
  funext sink
  cases sink with
  | listener => rfl
  | engine j => rfl
  | connecter k =>
      by_cases hk : k = i
      · subst hk
        simp [reg, setConnecter]
      · simp [reg, setConnecter, hk]

theorem own_setConnecter (l : EventLoop) (i : ℕ) (c : TcpConnecter) :
    (l.setConnecter i c).own = Function.update l.own (.connecter i) c.s := by
  funext sink
  cases sink with
  | listener => rfl
  | engine j => rfl
  | connecter k =>
      by_cases hk : k = i
      · subst hk
        simp [own, setConnecter]
      · simp [own, setConnecter, hk]

theorem reg_engine (hj : l.engines.block j = some e) (hio : e.ioError = false) :
    l.reg (.engine j) = some (e.handle, e.s) := by
  simp [reg, hj, hio]

theorem own_engine (hj : l.engines.block j = some e) : l.own (.engine j) = some e.s := by
  simp [own, hj]

/-- A change of an engine that keeps its handle and its descriptor keeps the account. -/
theorem account_setEngine (hj : l.engines.block j = some e) (hs : e'.s = e.s)
    (hhandle : e'.handle = e.handle) (hio : e'.ioError = e.ioError) :
    (l.setEngine j e').reg = l.reg ∧ (l.setEngine j e').own = l.own := by
  constructor
  · rw [reg_setEngine, hs, hhandle, hio, Function.update_eq_self_iff]
    simp [reg, hj]
  · rw [own_setEngine, hs, Function.update_eq_self_iff]
    exact (own_engine hj).symm

theorem safe_engine (hj : l.engines.block j = some e) : Safe (fun x => e = x) (l.engine j) := by
  rw [engine, hj]
  exact rfl

theorem safe_connecter (hi : l.connecters i = some c) : Safe (fun x => c = x) (l.connecter i) := by
  rw [connecter, hi]
  exact rfl

/-! ## Engines -/

/-- A handler of an engine leaves the other objects alone. -/
structure EngineStep (l l' : EventLoop) : Prop where
  base : l'.Base none
  connecters_eq : l'.connecters = l.connecters
  listener_eq : l'.listener = l.listener
  timers_eq : l'.timers = l.timers
  batch_eq : l'.batch = l.batch
  keeps : l.epoll.Keeps l'.epoll

theorem EngineStep.refl (h : l.Base none) : EngineStep l l :=
  ⟨h, rfl, rfl, rfl, rfl, Epoll.Keeps.refl _⟩

theorem EngineStep.trans {l'' : EventLoop} (h : EngineStep l l') (h' : EngineStep l' l'') :
    EngineStep l l'' where
  base := h'.base
  connecters_eq := h'.connecters_eq.trans h.connecters_eq
  listener_eq := h'.listener_eq.trans h.listener_eq
  timers_eq := h'.timers_eq.trans h.timers_eq
  batch_eq := h'.batch_eq.trans h.batch_eq
  keeps := h.keeps.trans h'.keeps

/-- The engine at `j` is there and polled, and has the property. -/
def Alive (l : EventLoop) (j : ℕ) (Q : EngineControl → Prop) : Prop :=
  ∃ e, l.engines.block j = some e ∧ e.ioError = false ∧ Q e

/-- A change of the members of an engine. -/
theorem Base.setEngine (h : l.Base none) (hj : l.engines.block j = some e) (hs : e'.s = e.s)
    (hhandle : e'.handle = e.handle) (hio : e'.ioError = e.ioError) (hsettled : Settled e') :
    EngineStep l (l.setEngine j e') := by
  obtain ⟨hreg, hown⟩ := account_setEngine hj hs hhandle hio
  refine ⟨⟨?_, fun k e₁ hk => ?_, h.batch_live⟩, rfl, rfl, rfl, rfl, Epoll.Keeps.refl _⟩
  · rw [hreg, hown]
    exact h.consistent
  · by_cases hsame : k = j
    · subst hsame
      rw [EventLoop.setEngine, Heap.block_alloc_self] at hk
      obtain rfl := Option.some.inj hk
      exact hsettled
    · rw [EventLoop.setEngine, Heap.block_alloc_of_ne _ _ hsame] at hk
      exact h.settled k e₁ hk

/-- A change for what is polled. -/
theorem Base.polled (h : l.Base none) {x : Except Fault (Epoll Sink)}
    (hx : Safe (fun epoll => epoll.Consistent l.reg l.own none ∧ l.epoll.Keeps epoll) x) :
    Safe (fun epoll => EngineStep l { l with epoll }) x :=
  hx.mono fun _ ⟨hepoll, hkeeps⟩ =>
    ⟨⟨hepoll, h.settled, fun event hevent => hkeeps _ (h.batch_live event hevent)⟩,
      rfl, rfl, rfl, rfl, hkeeps⟩

/-- A step of an engine that leaves the given value in its place. -/
def Leaves (l : EventLoop) (j : ℕ) (e : EngineControl) (l' : EventLoop) : Prop :=
  EngineStep l l' ∧ l'.engines.block j = some e

theorem Base.stopInput (h : l.Base none) (hj : l.engines.block j = some e)
    (hio : e.ioError = false) :
    Safe (Leaves l j { e with inputStopped := true }) (l.stopInput j) := by
  refine (safe_engine hj).bind ?_
  rintro _ rfl
  refine (h.polled (h.consistent.resetPollin (reg_engine hj hio))).bind fun epoll hstep => ?_
  have hset : EngineStep { l with epoll } ({ l with epoll }.setEngine j
      { e with inputStopped := true }) :=
    hstep.base.setEngine hj rfl rfl rfl
      ⟨(h.settled j e hj).stopped, (h.settled j e hj).coders, fun _ => rfl⟩
  exact ⟨hstep.trans hset, Heap.block_alloc_self _ _ _⟩

theorem Base.stopOutput (h : l.Base none) (hj : l.engines.block j = some e)
    (hio : e.ioError = false) (hready : e.handshakeReady = true) :
    Safe (Leaves l j { e with outputStopped := true }) (l.stopOutput j) := by
  refine (safe_engine hj).bind ?_
  rintro _ rfl
  refine (h.polled (h.consistent.resetPollout (reg_engine hj hio))).bind fun epoll hstep => ?_
  have hset : EngineStep { l with epoll } ({ l with epoll }.setEngine j
      { e with outputStopped := true }) :=
    hstep.base.setEngine hj rfl rfl rfl
      ⟨fun hfalse => absurd (hready.symm.trans hfalse) (by decide), (h.settled j e hj).coders,
        (h.settled j e hj).closed⟩
  exact ⟨hstep.trans hset, Heap.block_alloc_self _ _ _⟩

theorem Base.pauseOutput (h : l.Base none) (hj : l.engines.block j = some e)
    (hio : e.ioError = false) : Safe (Leaves l j e) (l.pauseOutput j) := by
  refine (safe_engine hj).bind ?_
  rintro _ rfl
  exact (h.polled (h.consistent.resetPollout (reg_engine hj hio))).bind fun epoll hstep =>
    safe_pure.mpr ⟨hstep, hj⟩

theorem Base.resumeOutput (h : l.Base none) (hj : l.engines.block j = some e)
    (hio : e.ioError = false) (sets : Bool) : Safe (Leaves l j e) (l.resumeOutput j sets) := by
  refine (safe_engine hj).bind ?_
  rintro _ rfl
  have hepoll : Safe (fun epoll => EngineStep l { l with epoll })
      (if sets then l.epoll.setPollout e.handle else pure l.epoll) :=
    SafeUnless.ite (fun _ => h.polled (h.consistent.setPollout (reg_engine hj hio))) fun _ =>
      EngineStep.refl h
  exact hepoll.bind fun epoll hstep => safe_pure.mpr ⟨hstep, hj⟩

/-- What remains when an engine has been deleted. -/
theorem account_delete (l : EventLoop) (j : ℕ) (epoll : Epoll Sink) :
    ({ l with epoll, engines := ⟨Function.update l.engines.block j none⟩ } : EventLoop).reg =
        Function.update l.reg (.engine j) none ∧
      ({ l with epoll, engines := ⟨Function.update l.engines.block j none⟩ } : EventLoop).own =
        Function.update l.own (.engine j) none := by
  constructor <;> funext sink
  · cases sink with
    | listener => rfl
    | connecter i => rfl
    | engine k =>
        by_cases hk : k = j
        · subst hk
          simp [reg]
        · simp [reg, hk]
  · cases sink with
    | listener => rfl
    | connecter i => rfl
    | engine k =>
        by_cases hk : k = j
        · subst hk
          simp [own]
        · simp [own, hk]

/-- `error` and `terminate`: the entry is retired, the socket closed and the engine deleted. -/
theorem Base.destroy (h : l.Base none) (hj : l.engines.block j = some e)
    (hio : e.ioError = false) : Safe (EngineStep l) (l.destroy j) := by
  refine (safe_engine hj).bind ?_
  rintro _ rfl
  rw [hio]
  refine (h.consistent.rmFd (reg_engine hj hio)).bind fun p₁ ⟨hp₁, hkeeps₁⟩ => ?_
  have hloose := hp₁.give_up (Function.update_self _ _ _) (own_engine hj)
  refine hloose.closeFd.bind fun p₂ ⟨hp₂, hkeeps₂⟩ => ?_
  obtain ⟨hreg, hown⟩ := account_delete l j p₂
  refine ⟨⟨?_, fun k e₁ hk => ?_, fun event hevent => ?_⟩, rfl, rfl, rfl, rfl,
    hkeeps₁.trans hkeeps₂⟩
  · rw [hreg, hown]
    exact hp₂
  · by_cases hsame : k = j
    · simp [hsame] at hk
    · exact h.settled k e₁ (by simpa [hsame] using hk)
  · exact hkeeps₂ _ (hkeeps₁ _ (h.batch_live event hevent))

/-- `mechanism_ready`: output has stopped only if there is no callback. -/
theorem Base.mechanismReady (h : l.Base none) (hj : l.engines.block j = some e)
    (hio : e.ioError = false) (hready : e.handshakeReady = false) :
    Safe (fun l' => EngineStep l l' ∧ Alive l' j fun e' => e'.handshakeReady = true ∧
      (e'.outputStopped = true → e'.hasOut = false)) (l.mechanismReady j) := by
  refine (safe_engine hj).bind ?_
  rintro _ rfl
  have hrunning := (h.settled j e hj).stopped hready
  have hset : EngineStep l (l.setEngine j { e with handshakeReady := true }) :=
    h.setEngine hj rfl rfl rfl
      ⟨fun hfalse => (by cases hfalse), (h.settled j e hj).coders, (h.settled j e hj).closed⟩
  -- the input side first
  have hinput : Safe (fun l' => EngineStep l l' ∧ ∃ stopped, l'.engines.block j =
      some { e with handshakeReady := true, inputStopped := stopped })
      (if e.hasIn then pure (l.setEngine j { e with handshakeReady := true })
        else (l.setEngine j { e with handshakeReady := true }).stopInput j) := by
    refine SafeUnless.ite (fun _ => ⟨hset, e.inputStopped, Heap.block_alloc_self _ _ _⟩) fun _ => ?_
    exact (hset.base.stopInput (Heap.block_alloc_self _ _ _) hio).mono fun l₁ ⟨hstep, hblock⟩ =>
      ⟨hset.trans hstep, true, hblock⟩
  refine hinput.bind fun l₁ ⟨hstep, stopped, hblock⟩ => ?_
  refine SafeUnless.ite (fun _ => ⟨hstep, _, hblock, hio, rfl, fun hout => ?_⟩) fun hout => ?_
  · exact absurd (hrunning.symm.trans hout) (by decide)
  · refine (hstep.base.stopOutput hblock hio rfl).mono fun l₂ ⟨hstep₂, hblock₂⟩ => ?_
    exact ⟨hstep.trans hstep₂, _, hblock₂, hio, rfl, fun _ => Bool.eq_false_iff.mpr hout⟩

/-- `restart_output` is called only where it does nothing. -/
theorem Base.processHandshakeCommand (h : l.Base none) (hj : l.engines.block j = some e)
    (hio : e.ioError = false) (hready : e.handshakeReady = false) (complete : Bool) :
    Safe (fun l' => EngineStep l l' ∧ Alive l' j fun _ => True)
      (l.processHandshakeCommand j complete) := by
  have hcommand : Safe (fun l' => EngineStep l l' ∧ Alive l' j fun e' =>
      e'.outputStopped = true → e'.hasOut = false)
      (if complete then l.mechanismReady j else pure l) := by
    refine SafeUnless.ite (fun _ => ?_) fun _ => ?_
    · exact (h.mechanismReady hj hio hready).mono fun l' ⟨hstep, e', hblock, hio', _, hout⟩ =>
        ⟨hstep, e', hblock, hio', hout⟩
    · refine ⟨EngineStep.refl h, e, hj, hio, fun hout => ?_⟩
      exact absurd (((h.settled j e hj).stopped hready).symm.trans hout) (by decide)
  refine hcommand.bind fun l₁ ⟨hstep, e₁, hblock, hio₁, hout⟩ => ?_
  refine (safe_engine hblock).bind ?_
  rintro _ rfl
  refine SafeUnless.ite (fun hstopped => ?_) fun _ => ⟨hstep, e₁, hblock, hio₁, trivial⟩
  refine (safe_engine hblock).bind ?_
  rintro _ rfl
  rw [if_pos (.inr (hout hstopped))]
  exact ⟨hstep, e₁, hblock, hio₁, trivial⟩

theorem Base.writeMsg (h : l.Base none) (hj : l.engines.block j = some e)
    (hio : e.ioError = false) (answer : Bool) :
    Safe (fun l' => EngineStep l l' ∧ Alive l' j fun _ => True) (l.writeMsg j answer) := by
  refine (safe_engine hj).bind ?_
  rintro _ rfl
  refine SafeUnless.ite (fun hready => ?_) fun hready => ?_
  · have hset : EngineStep l (l.setEngine j
        { e with inputStopped := e.inputStopped || (e.hasIn && answer) }) :=
      h.setEngine hj rfl rfl rfl
        ⟨fun hfalse => absurd (hready.symm.trans hfalse) (by decide), (h.settled j e hj).coders,
          fun herror => absurd (hio.symm.trans herror) (by decide)⟩
    exact ⟨hset, _, Heap.block_alloc_self _ _ _, hio, trivial⟩
  · exact h.processHandshakeCommand hj hio (Bool.eq_false_iff.mpr hready) answer

/-- A handler that ends with the deletion of its engine. -/
theorem EngineStep.destroy {l₀ : EventLoop} (h : EngineStep l₀ l)
    (hj : l.engines.block j = some e) (hio : e.ioError = false) (stop : Bool) :
    Safe (fun result => EngineStep l₀ result.2) (do
      let l ← l.destroy j
      pure (stop, l)) :=
  (h.base.destroy hj hio).bind fun _ hstep => safe_pure.mpr (h.trans hstep)

theorem Base.endInput (h : l.Base none) (hj : l.engines.block j = some e)
    (hio : e.ioError = false) :
    Safe (fun result => EngineStep l result.2) (l.endInput j) := by
  refine (safe_engine hj).bind ?_
  rintro _ rfl
  refine SafeUnless.ite (fun _ => ?_) fun _ => EngineStep.refl h
  refine (h.stopInput hj hio).bind fun l₁ ⟨hstep, hblock⟩ => ?_
  exact SafeUnless.ite (fun _ => hstep.destroy hblock hio true) fun _ => hstep

/-- The messages that have been decoded. -/
theorem Base.writeMsgs (h : l.Base none) (hj : l.engines.block j = some e)
    (hio : e.ioError = false) (answers : List Bool) :
    Safe (fun l' => EngineStep l l' ∧ Alive l' j fun _ => True)
      (answers.foldlM (fun l answer => l.writeMsg j answer) l) := by
  refine SafeUnless.foldlM _ ⟨EngineStep.refl h, e, hj, hio, trivial⟩ ?_
  rintro l₁ answer - ⟨hstep, e₁, hblock, hio₁, -⟩
  exact (hstep.base.writeMsg hblock hio₁ answer).mono fun l₂ ⟨hstep₂, halive⟩ =>
    ⟨hstep.trans hstep₂, halive⟩

theorem Base.readInput (h : l.Base none) (hj : l.engines.block j = some e)
    (hio : e.ioError = false) (hcoders : e.hasCoders = true) (answer : InputResult) :
    Safe (fun result => EngineStep l result.2) (l.readInput j answer) := by
  refine (safe_engine hj).bind ?_
  rintro _ rfl
  rw [if_neg (by rw [hcoders]; decide)]
  refine SafeUnless.ite (fun hstopped => ?_) fun _ => ?_
  · -- the entry is retired, and the engine remains with its descriptor
    refine (h.consistent.rmFd (reg_engine hj hio)).bind fun epoll ⟨hepoll, hkeeps⟩ => ?_
    refine ⟨⟨?_, fun k e₁ hk => ?_, fun event hevent => ?_⟩, rfl, rfl, rfl, rfl, hkeeps⟩
    · have hreg := reg_setEngine { l with epoll } j { e with ioError := true }
      have hown := own_setEngine { l with epoll } j { e with ioError := true }
      have hsame : Function.update l.own (.engine j) (some e.s) = l.own := by
        rw [← own_engine hj, Function.update_eq_self]
      refine Eq.mpr (congrArg₂ (fun reg own => epoll.Consistent reg own none) hreg hown) ?_
      change epoll.Consistent (Function.update l.reg (.engine j) none)
        (Function.update l.own (.engine j) (some e.s)) none
      rw [hsame]
      exact hepoll
    · by_cases hsame : k = j
      · subst hsame
        rw [Heap.block_alloc_self] at hk
        obtain rfl := Option.some.inj hk
        exact ⟨(h.settled k e hj).stopped, (h.settled k e hj).coders, fun _ => hstopped⟩
      · rw [Heap.block_alloc_of_ne _ _ hsame] at hk
        exact h.settled k e₁ hk
    · exact hkeeps _ (h.batch_live event hevent)
  · cases answer with
    | failed => exact (EngineStep.refl h).destroy hj hio false
    | again => exact EngineStep.refl h
    | messages answers last =>
        refine (h.writeMsgs hj hio answers).bind fun l₁ ⟨hstep, e₁, hblock, hio₁, _⟩ => ?_
        cases last with
        | processed =>
            exact (hstep.base.endInput hblock hio₁).mono fun _ hstep₂ => hstep.trans hstep₂
        | again =>
            refine (hstep.base.stopInput hblock hio₁).bind fun l₂ ⟨hstep₂, hblock₂⟩ => ?_
            exact (hstep₂.base.endInput hblock₂ hio₁).mono fun _ hstep₃ =>
              (hstep.trans hstep₂).trans hstep₃
        | rejected => exact hstep.destroy hblock hio₁ false

/-- **`in_event` of an engine.** Behind the handshake with a peer of an older protocol there is no
decoder. -/
theorem Base.engineInEvent (h : l.Base none) (hj : l.engines.block j = some e)
    (hio : e.ioError = false) (answers : InAnswers) :
    SafeUnless answers.OldPeer (fun result => EngineStep l result.2)
      (l.engineInEvent j answers) := by
  refine (safe_engine hj).weaken.bind ?_
  rintro _ rfl
  rw [if_neg (by rw [hio]; decide)]
  refine SafeUnless.ite (fun _ => ?_) fun hshaken => ?_
  · cases hhandshake : answers.handshake with
    | error => exact ((EngineStep.refl h).destroy hj hio false).weaken
    | again =>
        exact (h.resumeOutput hj hio answers.setsPollout).weaken.bind fun l₁ ⟨hstep, _⟩ =>
          safe_pure.mpr hstep
    | done creates =>
        refine (h.resumeOutput hj hio answers.setsPollout).weaken.bind
          fun l₁ ⟨hstep, hblock⟩ => ?_
        refine (safe_engine hblock).weaken.bind ?_
        rintro _ rfl
        cases creates with
        | false =>
            refine (safe_engine (Heap.block_alloc_self _ _ _)).weaken.bind ?_
            rintro _ rfl
            exact hhandshake
        | true =>
            have hset : EngineStep l₁
                (l₁.setEngine j { e with handshaking := false, hasCoders := true }) :=
              hstep.base.setEngine hblock rfl rfl rfl
                ⟨(h.settled j e hj).stopped, fun _ => rfl, (h.settled j e hj).closed⟩
            exact ((hset.base.readInput (Heap.block_alloc_self _ _ _) hio rfl
              answers.input).mono fun _ hread => (hstep.trans hset).trans hread).weaken
  · have hcoders := (h.settled j e hj).coders (Bool.eq_false_iff.mpr hshaken)
    exact (h.readInput hj hio hcoders answers.input).weaken

/-- The messages that are pulled. -/
theorem Base.pullLoop (h : l.Base none) (hj : l.engines.block j = some e)
    (hio : e.ioError = false) (pulls : List Bool) :
    Safe (fun l' => EngineStep l l' ∧ Alive l' j fun _ => True)
      (EventLoop.pullLoop j pulls l) := by
  induction pulls generalizing l e with
  | nil => exact ⟨EngineStep.refl h, e, hj, hio, trivial⟩
  | cons answer rest ih =>
      rw [EventLoop.pullLoop]
      refine (safe_engine hj).bind ?_
      rintro _ rfl
      refine SafeUnless.ite (fun hready => ?_) fun hready => ?_
      · refine SafeUnless.ite (fun _ => ?_) fun _ => ⟨EngineStep.refl h, e, hj, hio, trivial⟩
        refine SafeUnless.ite (fun _ => ?_) fun _ => ih h hj hio
        have hset : EngineStep l (l.setEngine j { e with outputStopped := true }) :=
          h.setEngine hj rfl rfl rfl
            ⟨fun hfalse => absurd (hready.symm.trans hfalse) (by decide),
              (h.settled j e hj).coders, (h.settled j e hj).closed⟩
        exact ⟨hset, _, Heap.block_alloc_self _ _ _, hio, trivial⟩
      · have hcommand : Safe (fun l' => EngineStep l l' ∧ Alive l' j fun _ => True)
            (if answer then l.mechanismReady j else pure l) := by
          refine SafeUnless.ite (fun _ => ?_) fun _ => ⟨EngineStep.refl h, e, hj, hio, trivial⟩
          exact (h.mechanismReady hj hio (Bool.eq_false_iff.mpr hready)).mono
            fun l' ⟨hstep, e', hblock, hio', _⟩ => ⟨hstep, e', hblock, hio', trivial⟩
        refine hcommand.bind fun l₁ ⟨hstep, e₁, hblock, hio₁, _⟩ => ?_
        exact (ih hstep.base hblock hio₁).mono fun l₂ ⟨hstep₂, halive⟩ =>
          ⟨hstep.trans hstep₂, halive⟩

theorem Base.writeOutput (h : l.Base none) (hj : l.engines.block j = some e)
    (hio : e.ioError = false) (answers : OutAnswers) :
    Safe (fun result => EngineStep l result.2) (l.writeOutput j answers) := by
  rw [EventLoop.writeOutput]
  cases answers.written with
  | none =>
      exact (h.pauseOutput hj hio).bind fun l₁ ⟨hstep, _⟩ => safe_pure.mpr hstep
  | some drained =>
      refine (safe_engine hj).bind ?_
      rintro _ rfl
      refine SafeUnless.ite (fun hstopped => ?_) fun _ => ?_
      · have hready : e.handshakeReady = true := by
          by_contra hready
          have hrunning := (h.settled j e hj).stopped (Bool.eq_false_iff.mpr hready)
          rw [hstopped] at hrunning
          cases hrunning
        refine (h.stopOutput hj hio hready).bind fun l₁ ⟨hstep, hblock⟩ => ?_
        exact SafeUnless.ite (fun _ => hstep.destroy hblock hio true) fun _ => hstep
      · refine SafeUnless.ite (fun _ => ?_) fun _ => EngineStep.refl h
        exact (h.pauseOutput hj hio).bind fun l₁ ⟨hstep, _⟩ => safe_pure.mpr hstep

/-- **`out_event` of an engine.** -/
theorem Base.engineOutEvent (h : l.Base none) (hj : l.engines.block j = some e)
    (hio : e.ioError = false) (answers : OutAnswers) :
    Safe (fun result => EngineStep l result.2) (l.engineOutEvent j answers) := by
  refine (safe_engine hj).bind ?_
  rintro _ rfl
  rw [if_neg (by rw [hio]; decide)]
  refine SafeUnless.ite (fun _ => h.writeOutput hj hio answers) fun _ => ?_
  refine SafeUnless.ite (fun hnone => ?_) fun _ => ?_
  · refine SafeUnless.ite (fun _ => EngineStep.refl h) fun hshaken => ?_
    have hcoders := (h.settled j e hj).coders (Bool.eq_false_iff.mpr hshaken)
    exact absurd (hnone.symm.trans hcoders) (by decide)
  refine (h.pullLoop hj hio answers.pulls).bind fun l₁ ⟨hstep, e₁, hblock, hio₁, _⟩ => ?_
  refine SafeUnless.ite (fun _ => ?_) fun _ => hstep
  exact (hstep.base.writeOutput hblock hio₁ answers).mono fun _ hwrite => hstep.trans hwrite

/-- **A new engine** for a descriptor that the caller holds. -/
theorem Base.plug (h : l.Base (some fd)) (answers : PlugAnswers) :
    SafeUnless answers.first.OldPeer (EngineStep l) (l.plug fd answers) := by
  refine SafeUnless.ite (fun _ => trivial) fun hfresh => ?_
  have hblock : l.engines.block answers.engineAddress = none := Heap.not_live_iff.mp hfresh
  have hreg : l.reg (.engine answers.engineAddress) = none := by simp [reg, hblock]
  have hown : l.own (.engine answers.engineAddress) = none := by simp [own, hblock]
  refine ((h.consistent.give hown).addFd hreg (Function.update_self _ _ _)
    answers.entryAddress).weaken.bind fun p₁ ⟨hp₁, hkeeps₁⟩ => ?_
  refine (hp₁.setPollin (Function.update_self _ _ _)).weaken.bind fun p₂ ⟨hp₂, hkeeps₂⟩ => ?_
  refine (hp₂.setPollout (Function.update_self _ _ _)).weaken.bind fun p₃ ⟨hp₃, hkeeps₃⟩ => ?_
  have hkeeps : l.epoll.Keeps p₃ := (hkeeps₁.trans hkeeps₂).trans hkeeps₃
  obtain ⟨e, he⟩ : ∃ e : EngineControl, e = {
    s := fd
    handle := answers.entryAddress
    ioError := false
    handshaking := true
    hasCoders := false
    handshakeReady := false
    inputStopped := false
    outputStopped := false
    hasIn := answers.hasIn
    hasOut := answers.hasOut } := ⟨_, rfl⟩
  have hnew : EngineStep l ({ l with epoll := p₃ }.setEngine answers.engineAddress e) := by
    refine ⟨⟨?_, fun k e₁ hk => ?_, fun event hevent => ?_⟩, rfl, rfl, rfl, rfl, hkeeps⟩
    · rw [reg_setEngine, own_setEngine, he]
      exact hp₃
    · by_cases hsame : k = answers.engineAddress
      · subst hsame
        rw [EventLoop.setEngine, Heap.block_alloc_self] at hk
        obtain rfl := Option.some.inj hk
        rw [he]
        exact ⟨fun _ => rfl, fun hfalse => (by cases hfalse), fun hfalse => (by cases hfalse)⟩
      · rw [EventLoop.setEngine, Heap.block_alloc_of_ne _ _ hsame] at hk
        exact h.settled k e₁ hk
    · exact hkeeps _ (h.batch_live event hevent)
  have hin := hnew.base.engineInEvent (Heap.block_alloc_self _ _ _) (by rw [he]) answers.first
  rw [he] at hin hnew
  exact hin.bind fun result hstep => safe_pure.mpr (hnew.trans hstep)

/-! ## Connecters -/

variable {options : ReconnectOptions} {pending : List (Timer ℕ)}

/-- The current interval is between the first one and the maximum. -/
def Within (options : ReconnectOptions) (current : ℤ) : Prop :=
  options.reconnectIvl ≤ current ∧ current ≤ max options.reconnectIvl options.reconnectIvlMax

theorem safe_getNewReconnectIvl (hoptions : options.Usable) {current : ℤ}
    (hcurrent : Within options current) (random : ℕ) :
    Safe (fun result => Within options result.2) (getNewReconnectIvl options current random) := by
  obtain ⟨hlow, hhigh⟩ := hcurrent
  have hpos := hoptions.pos
  have hlt := hoptions.lt
  rw [getNewReconnectIvl, if_neg (by omega)]
  refine SafeUnless.ite (fun hmax => ?_) fun _ => ⟨hlow, hhigh⟩
  have hbound := hoptions.max_lt hmax.2
  rw [max_eq_right hmax.2.le] at hhigh
  rw [if_pos (by omega)]
  change Within options _
  rw [Within, max_eq_right hmax.2.le]
  split_ifs with hclamp
  · exact ⟨hmax.2.le, le_rfl⟩
  · omega

/-- What a connecter has registered. -/
def regOf (c : TcpConnecter) : Option (ℕ × ℕ) :=
  if c.handleValid then c.s.map fun fd => (c.handle, fd) else none

/-- A connecter waits for its timer. -/
structure Waiting (c : TcpConnecter) : Prop where
  timerStarted_eq : c.timerStarted = true
  s_eq : c.s = none
  handleValid_eq : c.handleValid = false
  connected_eq : c.connected = false

/-- A connecter polls its socket. -/
structure Polling (c : TcpConnecter) : Prop where
  timerStarted_eq : c.timerStarted = false
  s_ne : c.s ≠ none
  handleValid_eq : c.handleValid = true
  connected_eq : c.connected = false

/-- A connecter has done its work. -/
structure Done (c : TcpConnecter) : Prop where
  timerStarted_eq : c.timerStarted = false
  s_eq : c.s = none
  handleValid_eq : c.handleValid = false
  connected_eq : c.connected = true

/-- A connecter between two of its events. -/
structure Resting (options : ReconnectOptions) (c : TcpConnecter) : Prop where
  within : Within options c.currentReconnectIvl
  phase : Waiting c ∨ Polling c ∨ Done c

/-- How many timers a connecter should have. -/
def timersOf (l : EventLoop) (i : ℕ) : ℕ :=
  match l.connecters i with
  | some c => if c.timerStarted then 1 else 0
  | none => 0

/-- A connecter has a timer exactly if it has noted so. `pending` are timers that are in the hands
of `execute_timers`. -/
def TimersRight (pending : List (Timer ℕ)) (l : EventLoop) : Prop :=
  ∀ i, ((l.timers ++ pending).map Timer.event).count i = l.timersOf i

/-- What holds between any two actions. -/
structure Inv (options : ReconnectOptions) (pending : List (Timer ℕ)) (l : EventLoop) : Prop where
  base : l.Base none
  resting : ∀ i c, l.connecters i = some c → Resting options c
  timers : TimersRight pending l

/-- A connecter during one of its events, with no timer of its own. -/
structure Working (options : ReconnectOptions) (pending : List (Timer ℕ)) (i : ℕ)
    (c : TcpConnecter) (loose : Option ℕ) (l : EventLoop) : Prop where
  base : l.Base loose
  here : l.connecters i = some c
  others : ∀ k c', k ≠ i → l.connecters k = some c' → Resting options c'
  timers : TimersRight pending l
  within : Within options c.currentReconnectIvl
  idle : c.timerStarted = false

theorem reg_connecter (hi : l.connecters i = some c) : l.reg (.connecter i) = regOf c := by
  simp [reg, hi, regOf]

theorem own_connecter (hi : l.connecters i = some c) : l.own (.connecter i) = c.s := by
  simp [own, hi]

/-- The members of a connecter change together with what it owns. -/
theorem Working.update {c' : TcpConnecter} {loose' : Option ℕ} {epoll : Epoll Sink}
    (h : Working options pending i c loose l)
    (hepoll : epoll.Consistent (Function.update l.reg (.connecter i) (regOf c'))
      (Function.update l.own (.connecter i) c'.s) loose') (hkeeps : l.epoll.Keeps epoll)
    (hidle : c'.timerStarted = c.timerStarted)
    (hcurrent : c'.currentReconnectIvl = c.currentReconnectIvl) :
    Working options pending i c' loose' ({ l with epoll }.setConnecter i c') where
  base := by
    refine ⟨?_, h.base.settled, fun event hevent => hkeeps _ (h.base.batch_live event hevent)⟩
    rw [reg_setConnecter, own_setConnecter]
    exact hepoll
  here := Function.update_self _ _ _
  others k c₁ hk hc₁ := h.others k c₁ hk (by simpa [setConnecter, hk] using hc₁)
  timers k := by
    rw [timersOf]
    by_cases hk : k = i
    · have hsame : ({ l with epoll }.setConnecter i c').connecters k = some c' := by
        rw [hk]
        exact Function.update_self _ _ _
      rw [hsame]
      dsimp only
      rw [hidle]
      have hold := h.timers k
      rw [timersOf, hk, h.here] at hold
      rw [hk]
      exact hold
    · have hsame : ({ l with epoll }.setConnecter i c').connecters k = l.connecters k :=
        Function.update_of_ne hk _ _
      rw [hsame]
      exact h.timers k
  within := by
    rw [hcurrent]
    exact h.within
  idle := hidle.trans h.idle

/-- A step of an engine in the middle of a connecter's event. -/
theorem Working.engineStep (h : Working options pending i c loose l) (hstep : EngineStep l l') :
    Working options pending i c none l' where
  base := hstep.base
  here := by rw [hstep.connecters_eq, h.here]
  others k c' hk hc' := h.others k c' hk (by rw [← hstep.connecters_eq, hc'])
  timers k := by
    rw [timersOf, hstep.connecters_eq, hstep.timers_eq]
    exact h.timers k
  within := h.within
  idle := h.idle

/-- The end of an event. -/
theorem Working.inv (h : Working options pending i c none l) (hphase : Polling c ∨ Done c) :
    l.Inv options pending where
  base := h.base
  resting k c' hc' := by
    by_cases hk : k = i
    · rw [hk, h.here] at hc'
      obtain rfl := Option.some.inj hc'
      exact ⟨h.within, .inr hphase⟩
    · exact h.others k c' hk hc'
  timers := h.timers

/-- What an event of a connecter does. -/
def Rests (options : ReconnectOptions) (pending : List (Timer ℕ)) (l l' : EventLoop) : Prop :=
  l'.Inv options pending ∧ l.epoll.Keeps l'.epoll

/-- One more timer of connecter `i`. -/
theorem count_addTimer (timers : List (Timer ℕ)) (now : ℕ) (interval : ℤ) (i k : ℕ) :
    ((addTimer timers now interval i ++ pending).map Timer.event).count k =
      ((timers ++ pending).map Timer.event).count k + if k = i then 1 else 0 := by
  have hperm := ((insertTimer_perm ⟨((now + interval) % 2 ^ 64).toNat, i⟩ timers).append_right
    pending).map Timer.event
  rw [addTimer, hperm.count_eq, List.cons_append, List.map_cons, List.count_cons]
  dsimp only
  congr 1
  by_cases hk : k = i
  · simp [hk]
  · rw [if_neg (by simpa using Ne.symm hk), if_neg hk]

theorem Working.addReconnectTimer (h : Working options pending i c none l)
    (hoptions : options.Usable) (hs : c.s = none) (hhandle : c.handleValid = false)
    (hconnected : c.connected = false) (now random : ℕ) :
    Safe (Rests options pending l) (l.addReconnectTimer options i now random) := by
  refine (safe_connecter h.here).bind ?_
  rintro _ rfl
  refine (safe_getNewReconnectIvl hoptions h.within random).bind ?_
  rintro ⟨interval, current⟩ hwithin
  obtain ⟨c', hc'⟩ : ∃ c' : TcpConnecter, c' =
      { c with timerStarted := true, currentReconnectIvl := current } := ⟨_, rfl⟩
  have hreg : regOf c' = l.reg (.connecter i) := by
    rw [reg_connecter h.here, hc']
    simp [regOf, hhandle]
  have hown : c'.s = l.own (.connecter i) := by
    rw [own_connecter h.here, hc']
  have hset : (({ l with timers := addTimer l.timers now interval i }).setConnecter i
      c').Inv options pending := by
    refine ⟨⟨?_, h.base.settled, h.base.batch_live⟩, fun k c₁ hc₁ => ?_, fun k => ?_⟩
    · rw [reg_setConnecter, own_setConnecter]
      change l.epoll.Consistent (Function.update l.reg _ (regOf c')) (Function.update l.own _ c'.s)
        none
      rw [hreg, hown, Function.update_eq_self, Function.update_eq_self]
      exact h.base.consistent
    · by_cases hk : k = i
      · obtain rfl : c' = c₁ := by simpa [setConnecter, hk] using hc₁
        rw [hc']
        exact ⟨hwithin, .inl ⟨rfl, hs, hhandle, hconnected⟩⟩
      · exact h.others k c₁ hk (by simpa [setConnecter, hk] using hc₁)
    · change ((addTimer l.timers now interval i ++ pending).map Timer.event).count k = _
      rw [count_addTimer, h.timers k, timersOf, timersOf]
      by_cases hk : k = i
      · subst hk
        simp [setConnecter, h.here, h.idle, hc']
      · simp [setConnecter, hk]
  rw [hc'] at hset
  exact ⟨hset, Epoll.Keeps.refl _⟩

theorem Working.closeConnecter (h : Working options pending i c none l) (hs : c.s = some fd)
    (hhandle : c.handleValid = false) :
    Safe (fun l' => Working options pending i { c with s := none } none l' ∧
      l.epoll.Keeps l'.epoll) (l.closeConnecter i) := by
  refine (safe_connecter h.here).bind ?_
  rintro _ rfl
  rw [hs]
  have hreg : l.reg (.connecter i) = none := by
    rw [reg_connecter h.here, regOf, if_neg (by rw [hhandle]; decide)]
  have hown : l.own (.connecter i) = some fd := by
    rw [own_connecter h.here, hs]
  have hloose := h.base.consistent.give_up hreg hown
  refine hloose.closeFd.bind fun epoll ⟨hepoll, hkeeps⟩ => ?_
  refine ⟨h.update ?_ hkeeps rfl rfl, hkeeps⟩
  have hsame : Function.update l.reg (.connecter i) (regOf { c with s := none }) = l.reg := by
    rw [Function.update_eq_self_iff, hreg]
    simp [regOf, hhandle]
  rw [hsame]
  exact hepoll

theorem Working.rmConnecter (h : Working options pending i c none l) (hs : c.s = some fd)
    (hhandle : c.handleValid = true) :
    Safe (fun l' => Working options pending i { c with handleValid := false } none l' ∧
      l.epoll.Keeps l'.epoll) (l.rmConnecter i) := by
  refine (safe_connecter h.here).bind ?_
  rintro _ rfl
  have hreg : l.reg (.connecter i) = some (c.handle, fd) := by
    rw [reg_connecter h.here, regOf, if_pos hhandle, hs]
    rfl
  refine (h.base.consistent.rmFd hreg).bind fun epoll ⟨hepoll, hkeeps⟩ => ?_
  refine ⟨h.update ?_ hkeeps rfl rfl, hkeeps⟩
  have hsame : Function.update l.own (.connecter i) c.s = l.own := by
    rw [Function.update_eq_self_iff, own_connecter h.here]
  rw [hsame]
  exact hepoll

theorem Working.addConnecter (h : Working options pending i c none l) (hs : c.s = some fd)
    (hhandle : c.handleValid = false) (address : ℕ) :
    Safe (fun l' => Working options pending i { c with handle := address, handleValid := true }
      none l' ∧ l.epoll.Keeps l'.epoll) (l.addConnecter i fd address) := by
  refine (safe_connecter h.here).bind ?_
  rintro _ rfl
  have hreg : l.reg (.connecter i) = none := by
    rw [reg_connecter h.here, regOf, if_neg (by rw [hhandle]; decide)]
  have hown : l.own (.connecter i) = some fd := by
    rw [own_connecter h.here, hs]
  refine (h.base.consistent.addFd hreg hown address).bind fun epoll ⟨hepoll, hkeeps⟩ => ?_
  refine ⟨h.update ?_ hkeeps rfl rfl, hkeeps⟩
  have hsame : Function.update l.own (.connecter i) c.s = l.own := by
    rw [Function.update_eq_self_iff, own_connecter h.here]
  have hnew : regOf { c with handle := address, handleValid := true } = some (address, fd) := by
    simp [regOf, hs]
  rw [hsame, hnew]
  exact hepoll

/-- The established connection goes to a new engine, and the connecter has nothing left to release. -/
theorem Working.handOver (h : Working options pending i c none l) (hs : c.s = some fd)
    (hhandle : c.handleValid = false) (answers : PlugAnswers) :
    SafeUnless answers.first.OldPeer (Rests options pending l) (do
      let l ← (l.setConnecter i { c with s := none, connected := true }).plug fd answers
      l.terminate i) := by
  have hreg : l.reg (.connecter i) = none := by
    rw [reg_connecter h.here, regOf, if_neg (by rw [hhandle]; decide)]
  have hown : l.own (.connecter i) = some fd := by
    rw [own_connecter h.here, hs]
  have hsame : Function.update l.reg (.connecter i)
      (regOf { c with s := none, connected := true }) = l.reg := by
    rw [Function.update_eq_self_iff, hreg]
    simp [regOf, hhandle]
  have hloose := h.base.consistent.give_up hreg hown
  rw [← hsame] at hloose
  have hempty : Working options pending i { c with s := none, connected := true } (some fd)
      (l.setConnecter i { c with s := none, connected := true }) :=
    h.update hloose (Epoll.Keeps.refl _) rfl rfl
  refine (hempty.base.plug answers).bind fun l₁ hstep => ?_
  have hend := hempty.engineStep hstep
  refine (safe_connecter hend.here).weaken.bind ?_
  rintro _ rfl
  rw [if_neg (by rw [h.idle]; decide)]
  change SafeUnless _ _ (do
    let l ← (if c.handleValid then l₁.rmConnecter i else pure l₁)
    if (none : Option ℕ) = none then pure l else l.closeConnecter i)
  rw [if_neg (by rw [hhandle]; decide)]
  exact ⟨hend.inv (.inr ⟨h.idle, rfl, hhandle, rfl⟩), hstep.keeps⟩

/-- **`out_event` of a connecter.** -/
theorem Working.connecterOutEvent (h : Working options pending i c none l)
    (hoptions : options.Usable) (hs : c.s = some fd) (hhandle : c.handleValid = true)
    (hconnected : c.connected = false) (answers : ConnectAnswers) :
    SafeUnless answers.plug.first.OldPeer (Rests options pending l)
      (l.connecterOutEvent options i answers) := by
  refine (safe_connecter h.here).weaken.bind ?_
  rintro _ rfl
  rw [hs]
  refine (h.rmConnecter hs hhandle).weaken.bind fun l₁ ⟨h₁, hkeeps₁⟩ => ?_
  refine SafeUnless.ite (fun _ => ?_) fun _ => ?_
  · refine (h₁.closeConnecter hs rfl).weaken.bind fun l₂ ⟨h₂, hkeeps₂⟩ => ?_
    exact ((h₂.addReconnectTimer hoptions rfl rfl hconnected answers.now answers.random).mono
      fun l₃ ⟨hinv, hkeeps₃⟩ => ⟨hinv, (hkeeps₁.trans hkeeps₂).trans hkeeps₃⟩).weaken
  · refine (safe_connecter h₁.here).weaken.bind ?_
    rintro _ rfl
    exact (h₁.handOver hs rfl answers.plug).mono fun l₂ ⟨hinv, hkeeps₂⟩ =>
      ⟨hinv, hkeeps₁.trans hkeeps₂⟩

/-- **`start_connecting`.** -/
theorem Working.startConnecting (h : Working options pending i c none l)
    (hoptions : options.Usable) (hs : c.s = none) (hhandle : c.handleValid = false)
    (hconnected : c.connected = false) (answers : StartAnswers) :
    SafeUnless answers.connect.plug.first.OldPeer (Rests options pending l)
      (l.startConnecting options i answers) := by
  refine (safe_connecter h.here).weaken.bind ?_
  rintro _ rfl
  rw [if_neg (not_not.mpr hs)]
  cases answers.socket with
  | none => exact (h.addReconnectTimer hoptions hs hhandle hconnected _ _).weaken
  | some fd =>
      have hreg : l.reg (.connecter i) = none := by
        rw [reg_connecter h.here, regOf, if_neg (by rw [hhandle]; decide)]
      have hown : l.own (.connecter i) = none := by
        rw [own_connecter h.here, hs]
      have hsame :
          Function.update l.reg (.connecter i) (regOf { c with s := some fd }) = l.reg := by
        rw [Function.update_eq_self_iff, hreg]
        simp [regOf, hhandle]
      refine (h.base.consistent.openFd fd).weaken.bind fun epoll ⟨hepoll, hkeeps⟩ => ?_
      have hgiven := hepoll.give hown
      rw [← hsame] at hgiven
      have hopen : Working options pending i { c with s := some fd } none
          ({ l with epoll }.setConnecter i { c with s := some fd }) :=
        h.update hgiven hkeeps rfl rfl
      cases answers.result with
      | connected =>
          refine (hopen.addConnecter rfl hhandle answers.entryAddress).weaken.bind
            fun l₁ ⟨h₁, hkeeps₁⟩ => ?_
          exact (h₁.connecterOutEvent hoptions rfl rfl hconnected answers.connect).mono
            fun l₂ ⟨hinv, hkeeps₂⟩ => ⟨hinv, (hkeeps.trans hkeeps₁).trans hkeeps₂⟩
      | inProgress =>
          refine (hopen.addConnecter rfl hhandle answers.entryAddress).weaken.bind
            fun l₁ ⟨h₁, hkeeps₁⟩ => ?_
          refine (safe_connecter h₁.here).weaken.bind ?_
          rintro _ rfl
          refine (h₁.base.polled (h₁.base.consistent.setPollout
            (reg_connecter h₁.here))).weaken.bind fun epoll₂ hstep => ?_
          exact ⟨(h₁.engineStep hstep).inv
              (.inl ⟨h.idle, Option.some_ne_none fd, rfl, hconnected⟩),
            (hkeeps.trans hkeeps₁).trans hstep.keeps⟩
      | failed =>
          refine (hopen.closeConnecter rfl hhandle).weaken.bind fun l₁ ⟨h₁, hkeeps₁⟩ => ?_
          exact ((h₁.addReconnectTimer hoptions rfl hhandle hconnected _ _).mono
            fun l₂ ⟨hinv, hkeeps₂⟩ => ⟨hinv, (hkeeps.trans hkeeps₁).trans hkeeps₂⟩).weaken

/-! ## The loop -/

/-- A handler of an engine keeps what is known of the connecters. -/
theorem Inv.engineStep (h : l.Inv options pending) (hstep : EngineStep l l') :
    Rests options pending l l' := by
  refine ⟨⟨hstep.base, fun k c hc => ?_, fun k => ?_⟩, hstep.keeps⟩
  · exact h.resting k c (by rw [← hstep.connecters_eq, hc])
  · rw [timersOf, hstep.connecters_eq, hstep.timers_eq]
    exact h.timers k

/-- An engine that is registered is there. -/
theorem engine_of_reg {a : ℕ} (hreg : l.reg (.engine j) = some (a, fd)) :
    ∃ e, l.engines.block j = some e ∧ e.ioError = false := by
  obtain ⟨e, hj, hsome⟩ := Option.bind_eq_some_iff.mp hreg
  refine ⟨e, hj, Bool.eq_false_iff.mpr fun hio => ?_⟩
  rw [if_pos hio] at hsome
  cases hsome

/-- A connecter that is registered polls its socket. -/
theorem Inv.working_of_reg (h : l.Inv options pending) {a : ℕ}
    (hreg : l.reg (.connecter i) = some (a, fd)) :
    ∃ c, Working options pending i c none l ∧ c.s = some fd ∧ c.handleValid = true ∧
      c.connected = false := by
  obtain ⟨c, hi, hsome⟩ := Option.bind_eq_some_iff.mp hreg
  split_ifs at hsome with hhandle
  obtain ⟨fd', hs, hpair⟩ := Option.map_eq_some_iff.mp hsome
  obtain ⟨-, rfl⟩ := Prod.mk.inj hpair
  obtain ⟨hwithin, hwaiting | hpolling | hdone⟩ := h.resting i c hi
  · rw [hwaiting.s_eq] at hs
    cases hs
  · exact ⟨c, ⟨h.base, hi, fun k c' _ hc' => h.resting k c' hc', h.timers, hwithin,
      hpolling.timerStarted_eq⟩, hs, hhandle, hpolling.connected_eq⟩
  · rw [hdone.s_eq] at hs
    cases hs

theorem Inv.connecterEvent (h : l.Inv options pending) (hoptions : options.Usable) {a : ℕ}
    (hreg : l.reg (.connecter i) = some (a, fd)) (answers : ConnectAnswers) :
    SafeUnless answers.plug.first.OldPeer (fun result => Rests options pending l result.2) (do
      let l ← l.connecterOutEvent options i answers
      pure (false, l)) := by
  obtain ⟨c, hworking, hs, hhandle, hconnected⟩ := h.working_of_reg hreg
  exact (hworking.connecterOutEvent hoptions hs hhandle hconnected answers).bind fun _ hrests =>
    safe_pure.mpr hrests

/-- **`in_event`** of the object behind an entry. -/
theorem Inv.inEvent (h : l.Inv options pending) (hoptions : options.Usable) {sink : Sink} {a : ℕ}
    (hreg : l.reg sink = some (a, fd)) (answers : Answers) :
    SafeUnless answers.OldPeer (fun result => Rests options pending l result.2)
      (l.inEvent options answers sink) := by
  cases sink with
  | listener =>
      have hlistener : l.listener = some (a, fd) := hreg
      have haccept : SafeUnless answers.OldPeer (Rests options pending l)
          (l.listenerInEvent answers) := by
        rw [listenerInEvent, if_neg (by rw [hlistener]; exact Option.some_ne_none _)]
        cases answers.accepted with
        | none => exact ⟨h, Epoll.Keeps.refl _⟩
        | some fd' =>
            refine (h.base.consistent.openFd fd').weaken.bind fun epoll ⟨hepoll, hkeeps⟩ => ?_
            have hbase : Base (some fd') { l with epoll } := ⟨hepoll, h.base.settled,
              fun event hevent => hkeeps _ (h.base.batch_live event hevent)⟩
            refine ((hbase.plug answers.plug).imp fun hold => .inr (.inr hold)).mono
              fun l₁ hstep => ?_
            exact h.engineStep { hstep with keeps := hkeeps.trans hstep.keeps }
      exact haccept.bind fun _ hrests => safe_pure.mpr hrests
  | connecter i =>
      exact (h.connecterEvent hoptions hreg answers.connect).imp fun hold => .inr (.inl hold)
  | engine j =>
      obtain ⟨e, hj, hio⟩ := engine_of_reg hreg
      exact ((h.base.engineInEvent hj hio answers.input).imp .inl).mono
        fun _ hstep => h.engineStep hstep

/-- **`out_event`** of the object behind an entry. -/
theorem Inv.outEvent (h : l.Inv options pending) (hoptions : options.Usable) {sink : Sink} {a : ℕ}
    (hreg : l.reg sink = some (a, fd)) (answers : Answers) :
    SafeUnless answers.OldPeer (fun result => Rests options pending l result.2)
      (l.outEvent options answers sink) := by
  cases sink with
  | listener => trivial
  | connecter i =>
      exact (h.connecterEvent hoptions hreg answers.connect).imp fun hold => .inr (.inl hold)
  | engine j =>
      obtain ⟨e, hj, hio⟩ := engine_of_reg hreg
      exact ((h.base.engineOutEvent hj hio answers.output).mono
        fun _ hstep => h.engineStep hstep).weaken

/-- A handler is called only on an object that is there. -/
theorem Inv.dispatch (h : l.Inv options pending) {a : ℕ} (hlive : l.epoll.entries.Live a)
    {handler : EventLoop → Sink → Except Fault (Bool × EventLoop)} {bad : Prop}
    (hhandler : ∀ sink fd, l.reg sink = some (a, fd) →
      SafeUnless bad (fun result => Rests options pending l result.2) (handler l sink))
    (asked : Bool) :
    SafeUnless bad (Rests options pending l) (l.dispatch a asked handler) := by
  obtain ⟨entry, hentry⟩ := hlive
  rw [EventLoop.dispatch, hentry]
  refine SafeUnless.ite (fun _ => ⟨h, Epoll.Keeps.refl _⟩) fun hcall => ?_
  have hreg : ∃ fd, l.reg entry.events = some (a, fd) := by
    rcases h.base.consistent.entry a entry hentry with ⟨hnone, -⟩ | ⟨-, fd, -, hreg⟩
    · exact absurd (.inl hnone) hcall
    · exact ⟨fd, hreg⟩
  obtain ⟨fd, hreg⟩ := hreg
  refine (hhandler entry.events fd hreg).bind fun result ⟨hinv, hkeeps⟩ => ?_
  exact ⟨⟨⟨hinv.base.consistent, hinv.base.settled, hinv.base.batch_live⟩, hinv.resting,
    hinv.timers⟩, hkeeps⟩

theorem Inv.handleEvent (h : l.Inv options []) (hoptions : options.Usable)
    (first second third : Answers) :
    SafeUnless (first.OldPeer ∨ second.OldPeer ∨ third.OldPeer) (fun l' => l'.Inv options [])
      (l.handleEvent options first second third) := by
  rw [EventLoop.handleEvent]
  cases hbatch : l.batch with
  | nil => trivial
  | cons event rest =>
      obtain ⟨a, events⟩ := event
      have hlive : l.epoll.entries.Live a :=
        h.base.batch_live (a, events) (by rw [hbatch]; exact List.mem_cons_self)
      have hrest : ({ l with batch := rest } : EventLoop).Inv options [] :=
        ⟨⟨h.base.consistent, h.base.settled, fun event hevent => h.base.batch_live event
          (by rw [hbatch]; exact List.mem_cons_of_mem _ hevent)⟩, h.resting, h.timers⟩
      refine ((hrest.dispatch hlive (fun sink fd hreg => hrest.inEvent hoptions hreg first)
        events.error).imp .inl).bind fun l₁ ⟨h₁, hkeeps₁⟩ => ?_
      refine ((h₁.dispatch (hkeeps₁ a hlive)
        (fun sink fd hreg => h₁.outEvent hoptions hreg second) events.output).imp
          fun hold => .inr (.inl hold)).bind fun l₂ ⟨h₂, hkeeps₂⟩ => ?_
      exact ((h₂.dispatch (hkeeps₂ a (hkeeps₁ a hlive))
        (fun sink fd hreg => h₂.inEvent hoptions hreg third) events.input).imp
          fun hold => .inr (.inr hold)).mono fun l₃ ⟨h₃, _⟩ => h₃

/-- What holds during `execute_timers`, with answers from the given ones. -/
def Passing (options : ReconnectOptions) (answers : List StartAnswers)
    (s : EventLoop × List StartAnswers) (timers : List (Timer ℕ)) : Prop :=
  s.1.timers = [] ∧ s.1.Inv options timers ∧ s.2 ⊆ answers

/-- A connecter that has a timer waits for it. -/
theorem Inv.waiting_of_timer {timer : Timer ℕ} (h : l.Inv options (timer :: pending))
    (hempty : l.timers = []) : ∃ c, l.connecters timer.event = some c ∧ Waiting c ∧
      Within options c.currentReconnectIvl := by
  have hcount := h.timers timer.event
  rw [hempty, List.nil_append, List.map_cons, List.count_cons_self, timersOf] at hcount
  cases hc : l.connecters timer.event with
  | none =>
      rw [hc] at hcount
      cases hcount
  | some c =>
      rw [hc] at hcount
      dsimp only at hcount
      have hstarted : c.timerStarted = true := by
        by_contra hidle
        rw [if_neg hidle] at hcount
        cases hcount
      obtain ⟨hwithin, hwaiting | hpolling | hdone⟩ := h.resting timer.event c hc
      · exact ⟨c, rfl, hwaiting, hwithin⟩
      · exact absurd (hstarted.symm.trans hpolling.timerStarted_eq) (by decide)
      · exact absurd (hstarted.symm.trans hdone.timerStarted_eq) (by decide)

/-- The beginning of `timer_event`: the timer is no longer counted. -/
theorem Inv.working_of_timer {timer : Timer ℕ} (h : l.Inv options (timer :: pending))
    (hempty : l.timers = []) (hc : l.connecters timer.event = some c) (hwaiting : Waiting c)
    (hwithin : Within options c.currentReconnectIvl) :
    Working options pending timer.event { c with timerStarted := false } none
      (l.setConnecter timer.event { c with timerStarted := false }) := by
  refine ⟨⟨?_, h.base.settled, h.base.batch_live⟩, Function.update_self _ _ _,
    fun k c' hk hc' => h.resting k c' (by simpa [setConnecter, hk] using hc'),
    fun k => ?_, hwithin, rfl⟩
  · rw [reg_setConnecter, own_setConnecter]
    change l.epoll.Consistent (Function.update l.reg _ (regOf c)) (Function.update l.own _ c.s) none
    rw [← reg_connecter hc, ← own_connecter hc, Function.update_eq_self, Function.update_eq_self]
    exact h.base.consistent
  · have hk := h.timers k
    rw [hempty, List.nil_append, List.map_cons, List.count_cons, timersOf] at hk
    change ((l.timers ++ pending).map Timer.event).count k = _
    rw [hempty, List.nil_append, timersOf]
    by_cases hsame : k = timer.event
    · rw [hsame, hc] at hk
      rw [hsame]
      simp [hwaiting.timerStarted_eq] at hk
      simp [setConnecter, hk]
    · rw [if_neg (by simpa using Ne.symm hsame)] at hk
      simpa [setConnecter, hsame] using hk

/-- The event of a timer finds its connecter without a socket. -/
theorem passing_fireTimer (hoptions : options.Usable) (answers : List StartAnswers)
    (s : EventLoop × List StartAnswers) (timer : Timer ℕ) (rest : List (Timer ℕ))
    (h : Passing options answers s (timer :: rest)) :
    SafeUnless (∃ start ∈ answers, start.connect.plug.first.OldPeer)
      (fun result => Passing options answers result.1 (result.2 ++ rest))
      (fireTimer options s timer.event) := by
  obtain ⟨l, left⟩ := s
  obtain ⟨hempty, hinv, hsubset⟩ := h
  cases left with
  | nil => trivial
  | cons first left =>
      obtain ⟨hfirst, hleft⟩ := List.cons_subset.mp hsubset
      obtain ⟨c, hc, hwaiting, hwithin⟩ := hinv.waiting_of_timer hempty
      have hevent : SafeUnless first.connect.plug.first.OldPeer (fun l' => l'.Inv options rest)
          (l.timerEvent options timer.event first) := by
        refine (safe_connecter hc).weaken.bind ?_
        rintro _ rfl
        exact ((hinv.working_of_timer hempty hc hwaiting hwithin).startConnecting hoptions
          hwaiting.s_eq hwaiting.handleValid_eq hwaiting.connected_eq first).mono
            fun _ hrests => hrests.1
      exact (hevent.imp fun hold => ⟨first, hfirst, hold⟩).map fun l' hl' =>
        ⟨rfl, ⟨⟨hl'.base.consistent, hl'.base.settled, hl'.base.batch_live⟩, hl'.resting,
          hl'.timers⟩, hleft⟩

theorem Inv.runTimers (h : l.Inv options []) (hoptions : options.Usable) (now : ℕ)
    (answers : List StartAnswers) :
    SafeUnless (∃ start ∈ answers, start.connect.plug.first.OldPeer)
      (fun l' => l'.Inv options []) (l.runTimers options now answers) := by
  have hstart : Passing options answers ({ l with timers := [] }, answers) l.timers := by
    refine ⟨rfl, ⟨⟨h.base.consistent, h.base.settled, h.base.batch_live⟩, h.resting, fun k => ?_⟩,
      List.Subset.refl answers⟩
    have hk := h.timers k
    rw [List.append_nil] at hk
    exact hk
  have hperm : ∀ s timers timers', timers.Perm timers' → Passing options answers s timers →
      Passing options answers s timers' := by
    rintro s timers timers' hsame ⟨hempty, hinv, hsubset⟩
    refine ⟨hempty, ⟨hinv.base, hinv.resting, fun k => ?_⟩, hsubset⟩
    rw [← hinv.timers k, hempty]
    exact (hsame.symm.map Timer.event).count_eq k
  have hloop : SafeUnless (∃ start ∈ answers, start.connect.plug.first.OldPeer)
      (fun result => Passing options answers result.2.1 result.2.2)
      (Net.executeTimers (fireTimer options) .environment now
        (l.timers.length + answers.length + 1) ({ l with timers := [] }, answers) l.timers) := by
    rw [Net.executeTimers]
    refine SafeUnless.ite (fun hempty => ?_) fun _ => ?_
    · rw [hempty] at hstart
      exact hstart
    · exact safe_timerLoop _ hperm (passing_fireTimer hoptions answers) now _ _ [] l.timers hstart
  refine hloop.bind ?_
  rintro ⟨wait, ⟨l', answers'⟩, timers⟩ ⟨hempty, hinv, -⟩
  refine ⟨⟨hinv.base.consistent, hinv.base.settled, hinv.base.batch_live⟩, hinv.resting,
    fun k => ?_⟩
  have hk := hinv.timers k
  dsimp only at hempty hk
  rw [hempty, List.nil_append] at hk
  rw [List.append_nil]
  exact hk

theorem inv_create : create.Inv options [] where
  base := by
    refine ⟨?_, fun j e hj => (by cases hj), fun event hevent => (by cases hevent)⟩
    have hreg : create.reg = fun _ => none := by
      funext sink
      cases sink <;> rfl
    have hown : create.own = fun _ => none := by
      funext sink
      cases sink <;> rfl
    rw [hreg, hown]
    exact Epoll.consistent_create
  resting i c hc := by cases hc
  timers i := rfl

/-- A connecter that has just been created. -/
theorem Inv.working_of_new (h : l.Inv options []) (hi : l.connecters i = none) :
    Working options [] i ⟨none, 0, false, false, options.reconnectIvl, false⟩ none
      (l.setConnecter i ⟨none, 0, false, false, options.reconnectIvl, false⟩) := by
  have hreg : l.reg (.connecter i) = none := by simp [reg, hi]
  have hown : l.own (.connecter i) = none := by simp [own, hi]
  refine ⟨⟨?_, h.base.settled, h.base.batch_live⟩, Function.update_self _ _ _,
    fun k c' hk hc' => h.resting k c' (by simpa [setConnecter, hk] using hc'),
    fun k => ?_, ⟨le_rfl, le_max_left _ _⟩, rfl⟩
  · rw [reg_setConnecter, own_setConnecter]
    change l.epoll.Consistent (Function.update l.reg (.connecter i) none)
      (Function.update l.own (.connecter i) none) none
    rw [Function.update_eq_self_iff.mpr hreg.symm, Function.update_eq_self_iff.mpr hown.symm]
    exact h.base.consistent
  · change ((l.timers ++ []).map Timer.event).count k = _
    rw [h.timers k, timersOf, timersOf]
    by_cases hk : k = i
    · subst hk
      simp [setConnecter, hi]
    · simp [setConnecter, hk]

/-- The listener is polled. -/
theorem Inv.listen (h : l.Inv options []) (hnone : l.listener = none) (fd address : ℕ) :
    Safe (fun l' => l'.Inv options []) (do
      let epoll ← l.epoll.openFd fd
      let epoll ← epoll.addFd fd .listener address
      let epoll ← epoll.setPollin address
      pure { l with epoll, listener := some (address, fd) }) := by
  have hreg : l.reg .listener = none := hnone
  have hown : l.own .listener = none := by simp [own, hnone]
  refine (h.base.consistent.openFd fd).bind fun p₁ ⟨hp₁, hkeeps₁⟩ => ?_
  refine ((hp₁.give hown).addFd hreg (Function.update_self _ _ _) address).bind
    fun p₂ ⟨hp₂, hkeeps₂⟩ => ?_
  refine (hp₂.setPollin (Function.update_self _ _ _)).bind fun p₃ ⟨hp₃, hkeeps₃⟩ => ?_
  have hkeeps := (hkeeps₁.trans hkeeps₂).trans hkeeps₃
  refine ⟨⟨?_, h.base.settled, fun event hevent => hkeeps _ (h.base.batch_live event hevent)⟩,
    h.resting, h.timers⟩
  have hreg' : ({ l with epoll := p₃, listener := some (address, fd) } : EventLoop).reg =
      Function.update l.reg .listener (some (address, fd)) := by
    funext sink
    cases sink <;> rfl
  have hown' : ({ l with epoll := p₃, listener := some (address, fd) } : EventLoop).own =
      Function.update l.own .listener (some fd) := by
    funext sink
    cases sink <;> rfl
  rw [hreg', hown']
  exact hp₃

/-- **Step.** -/
theorem Inv.step (h : l.Inv options []) (hoptions : options.Usable) (action : Action) :
    SafeUnless action.OldPeer (fun l' => l'.Inv options []) (l.step options action) := by
  cases action with
  | listen fd address =>
      refine SafeUnless.ite (fun _ => trivial) fun hnone => ?_
      exact h.listen (not_not.mp hnone) fd address
  | connect i answers =>
      refine SafeUnless.ite (fun _ => trivial) fun hnone => ?_
      exact ((h.working_of_new (not_not.mp hnone)).startConnecting hoptions rfl rfl rfl
        answers).mono fun _ hrests => hrests.1
  | executeTimers now answers =>
      exact SafeUnless.ite (fun _ => trivial) fun _ => h.runTimers hoptions now answers
  | wait batch =>
      refine SafeUnless.ite (fun _ => trivial) fun _ =>
        SafeUnless.ite (fun hall => ?_) fun _ => trivial
      refine ⟨⟨h.base.consistent, h.base.settled, fun event hevent => ?_⟩, h.resting, h.timers⟩
      obtain ⟨⟨entry, fd⟩, hlookup⟩ :=
        Option.isSome_iff_exists.mp (List.all_eq_true.mp hall event hevent)
      obtain ⟨entry', hentry, -⟩ := Option.bind_eq_some_iff.mp hlookup
      exact ⟨entry', hentry⟩
  | handleEvent first second third => exact h.handleEvent hoptions first second third
  | deleteRetired =>
      refine SafeUnless.ite (fun _ => trivial) fun hbatch => ?_
      refine h.base.consistent.deleteRetired.bind fun epoll ⟨hepoll, _⟩ => ?_
      refine ⟨⟨hepoll, h.base.settled, fun event hevent => ?_⟩, h.resting, h.timers⟩
      change event ∈ l.batch at hevent
      rw [not_not.mp hbatch] at hevent
      cases hevent

/-- **Run.** -/
theorem Inv.reachable (hoptions : options.Usable) (hreach : (machine options).Reachable l) :
    l.Inv options [] := by
  refine Machine.Reachable.invariant (fun l => l.Inv options []) inv_create ?_ hreach
  intro l action l' h hstep
  have hok : l.step options action = .ok l' := by
    change (l.step options action).toOption = some l' at hstep
    cases hresult : l.step options action with
    | ok l₁ =>
        rw [hresult] at hstep
        obtain rfl := Option.some.inj hstep
        rfl
    | error fault =>
        rw [hresult] at hstep
        cases hstep
  exact (h.step hoptions action).of_eq_ok hok

/-- The options of the thread: 100 ms, and no maximum. -/
def defaultOptions : ReconnectOptions where
  reconnectIvl := 100
  reconnectIvlMax := 0

theorem usable_defaultOptions : defaultOptions.Usable where
  pos := by decide
  lt := by decide
  max_lt := by decide

/-- The first attempt of a connecter, with a connection that is established at once. -/
def attempt : StartAnswers where
  socket := some 3
  result := .connected
  entryAddress := 1
  connect :=
    { refused := false
      plug := ⟨5, 2, true, true, .again, false, .again⟩
      now := 0
      random := 0 }

/-- What a handler meets if only the input of an engine matters. -/
def reading (input : InAnswers) : Answers where
  input
  output := ⟨false, [], false, none⟩
  connect := attempt.connect
  accepted := none
  plug := attempt.connect.plug

/-- An event of the engine of that attempt, with what it reads. -/
def readEvent (input : InAnswers) : Action :=
  .handleEvent (reading input) (reading input) (reading input)

/-- **No fault of its own.** For all options with which the back-off is defined, in every state that
a network thread can get into, by any order of connections, timers, batches of events and
deletions and with any answers of the kernel, the allocator, the clock, the peers and the
callbacks: no action ends with a failed assertion, a call on a deleted engine, the use or a second
release of a freed entry, or a system call for a descriptor that is not open or not registered,
unless one of its handshakes is with a peer of an older protocol. -/
theorem never_faults (hoptions : options.Usable) (hreach : (machine options).Reachable l)
    (action : Action) (hpeers : ¬action.OldPeer) : l.step options action ≠ .error .program :=
  ((Inv.reachable hoptions hreach).step hoptions action).ne_program hpeers

/-- The handshake of the new engine ends, and it reads a `FINISH` behind it. -/
theorem never_faults_after_attempt :
    ∃ l, (machine defaultOptions).Reachable l ∧ l.epoll.retired = [1] ∧
      l.step defaultOptions (readEvent ⟨.done true, true, .messages [true, true] .processed⟩) ≠
        .error .program := by
  have hrun : ((machine defaultOptions).runFrom (machine defaultOptions).init
      [.connect 0 attempt, .wait [(2, ⟨false, false, true⟩)]]).map (fun l => l.epoll.retired) =
        some [1] := by
    decide
  obtain ⟨l, hl, hretired⟩ := Option.map_eq_some_iff.mp hrun
  refine ⟨l, ⟨_, hl⟩, hretired, never_faults usable_defaultOptions ⟨_, hl⟩ _ ?_⟩
  simp [readEvent, reading, attempt, Action.OldPeer, Answers.OldPeer, InAnswers.OldPeer]

-- with a peer of an older protocol there is no decoder
example : ((machine defaultOptions).runFrom (machine defaultOptions).init
    [.connect 0 attempt, .wait [(2, ⟨false, false, true⟩)]]).map
      (fun l => (l.step defaultOptions (readEvent ⟨.done false, true, .again⟩)).map fun _ => ()) =
        some (.error .program) := by
  rfl

/-- **Everything has an owner.** In every such state each entry on the heap is retired and will be
deleted, or it is the entry of exactly one object that is there; each open descriptor belongs to
exactly one object; each engine has its socket and its entry, unless it has given up the entry
because the poller has called it after its input had stopped, and then only retired entries lead to
it, so that no handler is called on it; and each connecter has handed its connection to an engine
and has nothing left, or polls the socket that it has registered, or waits for exactly one timer. -/
theorem resources_accounted (hoptions : options.Usable) (hreach : (machine options).Reachable l) :
    (∀ a, l.epoll.entries.Live a →
      Xor (a ∈ l.epoll.retired) (∃ sink fd, l.reg sink = some (a, fd))) ∧
    (∀ a sink sink' fd fd', l.reg sink = some (a, fd) → l.reg sink' = some (a, fd') →
      sink = sink') ∧
    (∀ fd, l.epoll.opened fd = true ↔ ∃! sink, l.own sink = some fd) ∧
    (∀ j e, l.engines.block j = some e →
      l.own (.engine j) = some e.s ∧
        (e.ioError = false ∧ l.reg (.engine j) = some (e.handle, e.s) ∨
          e.ioError = true ∧ e.inputStopped = true ∧
            ∀ a entry, l.epoll.entries.block a = some entry → entry.events = .engine j →
              entry.fd = none ∧ a ∈ l.epoll.retired)) ∧
    ∀ i c, l.connecters i = some c →
      Done c ∧ (l.timers.map Timer.event).count i = 0 ∨
      Polling c ∧ (∃ fd, l.reg (.connecter i) = some (c.handle, fd)) ∧
        (l.timers.map Timer.event).count i = 0 ∨
      Waiting c ∧ (l.timers.map Timer.event).count i = 1 := by
  have hinv := Inv.reachable hoptions hreach
  have hconsistent := hinv.base.consistent
  refine ⟨fun a hlive => ?_, fun a sink sink' fd fd' hs hs' => hconsistent.reg_unique hs hs',
    fun fd => ⟨fun hopened => ?_, ?_⟩, fun j e hj => ⟨own_engine hj, ?_⟩, fun i c hc => ?_⟩
  · obtain ⟨entry, hentry⟩ := hlive
    rcases hconsistent.entry a entry hentry with ⟨-, hretired⟩ | ⟨hnot, fd, -, hreg⟩
    · refine .inl ⟨hretired, fun ⟨sink, fd, hreg⟩ => ?_⟩
      exact hconsistent.not_retired hreg hretired
    · exact .inr ⟨⟨_, fd, hreg⟩, hnot⟩
  · obtain ⟨sink, hsink⟩ := (hconsistent.opened_owned fd hopened).resolve_right (by simp)
    exact ⟨sink, hsink, fun sink' hsink' => hconsistent.owner_unique sink' sink fd hsink' hsink⟩
  · rintro ⟨sink, hsink, -⟩
    exact hconsistent.owned_opened sink fd hsink
  · cases hio : e.ioError with
    | false => exact .inl ⟨rfl, reg_engine hj hio⟩
    | true =>
        refine .inr ⟨rfl, (hinv.base.settled j e hj).closed hio, fun a entry hentry hevents => ?_⟩
        have hnone : l.reg (.engine j) = none := by simp [reg, hj, hio]
        rcases hconsistent.entry a entry hentry with hretired | ⟨-, fd, -, hreg⟩
        · exact hretired
        · rw [hevents, hnone] at hreg
          cases hreg
  · have hcount := hinv.timers i
    rw [List.append_nil, timersOf, hc] at hcount
    dsimp only at hcount
    obtain ⟨-, hwaiting | hpolling | hdone⟩ := hinv.resting i c hc
    · rw [if_pos hwaiting.timerStarted_eq] at hcount
      exact .inr (.inr ⟨hwaiting, hcount⟩)
    · rw [if_neg (by rw [hpolling.timerStarted_eq]; decide)] at hcount
      obtain ⟨fd, hfd⟩ := Option.ne_none_iff_exists'.mp hpolling.s_ne
      refine .inr (.inl ⟨hpolling, ⟨fd, ?_⟩, hcount⟩)
      rw [reg_connecter hc, regOf, if_pos hpolling.handleValid_eq, hfd]
      rfl
    · rw [if_neg (by rw [hdone.timerStarted_eq]; decide)] at hcount
      exact .inl ⟨hdone, hcount⟩

/-- The engine has read `FINISH`, and then the peer hangs up: its socket stays open. -/
theorem resources_accounted_hung_up :
    ∃ l e, (machine defaultOptions).Reachable l ∧ l.engines.block 5 = some e ∧
      e.ioError = true ∧ l.epoll.opened 3 = true ∧ (∃! sink, l.own sink = some 3) ∧
      l.own (.engine 5) = some e.s := by
  have hrun : ((machine defaultOptions).runFrom (machine defaultOptions).init
      [.connect 0 attempt, .wait [(2, ⟨false, false, true⟩)],
        readEvent ⟨.done true, true, .messages [true, true] .processed⟩,
        .wait [(2, ⟨true, false, false⟩)], readEvent ⟨.again, false, .again⟩]).map
        (fun l => ((l.engines.block 5).map EngineControl.ioError, l.epoll.opened 3)) =
          some (some true, true) := by
    decide
  obtain ⟨l, hl, hvalues⟩ := Option.map_eq_some_iff.mp hrun
  obtain ⟨hengine, hopened⟩ := Prod.mk.inj hvalues
  obtain ⟨e, he, hio⟩ := Option.map_eq_some_iff.mp hengine
  obtain ⟨-, -, howner, hengines, -⟩ := resources_accounted usable_defaultOptions ⟨_, hl⟩
  exact ⟨l, e, ⟨_, hl⟩, he, hio, hopened, (howner 3).mp hopened, (hengines 5 e he).1⟩

/-! ## The back-off -/

/-- The intervals that a connecter computes one after the other. -/
def reconnectIvls (options : ReconnectOptions) : ℤ → List ℕ → Except Fault (List ℤ)
  | _, [] => .ok []
  | current, random :: rest => do
    let (interval, current) ← getNewReconnectIvl options current random
    let intervals ← reconnectIvls options current rest
    pure (interval :: intervals)

/-- The interval behind `k` doublings, without its random part. -/
def baseIvl (options : ReconnectOptions) (k : ℕ) : ℤ :=
  if options.reconnectIvl < options.reconnectIvlMax then
    min (options.reconnectIvl * 2 ^ k) options.reconnectIvlMax
  else options.reconnectIvl

/-- One interval, and the doubling. -/
theorem getNewReconnectIvl_baseIvl (hoptions : options.Usable)
    (hle : options.reconnectIvl ≤ 2 ^ 30) (k random : ℕ) :
    ∃ interval, getNewReconnectIvl options (baseIvl options k) random =
        .ok (interval, baseIvl options (k + 1)) ∧
      baseIvl options k ≤ interval ∧ interval < baseIvl options k + options.reconnectIvl := by
  have hpos := hoptions.pos
  have hlow : 0 < baseIvl options k ∧ baseIvl options k ≤ 2 ^ 30 := by
    rw [baseIvl]
    split_ifs with hmax
    · have hbound := hoptions.max_lt hmax
      exact ⟨lt_min (by positivity) (hpos.trans hmax), (min_le_right _ _).trans hbound.le⟩
    · exact ⟨hpos, hle⟩
  have hrandom : 0 ≤ (random : ℤ) % 2 ^ 32 % options.reconnectIvl ∧
      (random : ℤ) % 2 ^ 32 % options.reconnectIvl < options.reconnectIvl :=
    ⟨Int.emod_nonneg _ hpos.ne', Int.emod_lt_of_pos _ hpos⟩
  have hmod : options.reconnectIvl % 2 ^ 32 = options.reconnectIvl :=
    Int.emod_eq_of_lt hpos.le (by omega)
  refine ⟨baseIvl options k + (random : ℤ) % 2 ^ 32 % options.reconnectIvl, ?_, by omega, by omega⟩
  rw [getNewReconnectIvl, hmod, if_neg hpos.ne']
  dsimp only
  rw [Int.bmod_eq_of_le (by omega) (by omega)]
  by_cases hmax : options.reconnectIvl < options.reconnectIvlMax
  · have hbound := hoptions.max_lt hmax
    have hdouble : (if options.reconnectIvlMax ≤ baseIvl options k * 2 then
        options.reconnectIvlMax else baseIvl options k * 2) = baseIvl options (k + 1) := by
      simp only [baseIvl, if_pos hmax, pow_succ, ← mul_assoc]
      split_ifs with hclamp
      · omega
      · omega
    have hbelow : baseIvl options k ≤ options.reconnectIvlMax := by
      rw [baseIvl, if_pos hmax]
      exact min_le_right _ _
    rw [if_pos ⟨hpos.trans hmax, hmax⟩, if_pos (by omega), hdouble]
  · have hsame : baseIvl options k = baseIvl options (k + 1) := by
      simp only [baseIvl, if_neg hmax]
    rw [if_neg (fun h => hmax h.2), hsame]

/-- **Back-off.** For all options with which it is defined and an interval of at most 2^30 ms,
whatever the random numbers are: the attempt behind `k` failed ones waits for at least the first
interval doubled `k` times, or for the maximum if that is less, and for less than one first interval
longer. -/
theorem reconnectIvls_bounds (hoptions : options.Usable) (hle : options.reconnectIvl ≤ 2 ^ 30)
    (randoms : List ℕ) :
    ∃ intervals, reconnectIvls options options.reconnectIvl randoms = .ok intervals ∧
      intervals.length = randoms.length ∧ ∀ k, ∀ hk : k < intervals.length,
        baseIvl options k ≤ intervals[k] ∧
          intervals[k] < baseIvl options k + options.reconnectIvl := by
  have hall : ∀ first, ∃ intervals, reconnectIvls options (baseIvl options first) randoms =
      .ok intervals ∧ intervals.length = randoms.length ∧ ∀ k, ∀ hk : k < intervals.length,
        baseIvl options (first + k) ≤ intervals[k] ∧
          intervals[k] < baseIvl options (first + k) + options.reconnectIvl := by
    induction randoms with
    | nil => exact fun first => ⟨[], rfl, rfl, fun k hk => absurd hk (Nat.not_lt_zero k)⟩
    | cons random rest ih =>
        intro first
        obtain ⟨interval, hnew, hlow, hhigh⟩ :=
          getNewReconnectIvl_baseIvl hoptions hle first random
        obtain ⟨intervals, hrest, hlength, hbounds⟩ := ih (first + 1)
        refine ⟨interval :: intervals, ?_, congrArg (· + 1) hlength, fun k hk => ?_⟩
        · rw [reconnectIvls, hnew]
          change (reconnectIvls options (baseIvl options (first + 1)) rest >>= _) = _
          rw [hrest]
          rfl
        · cases k with
          | zero => exact ⟨hlow, hhigh⟩
          | succ k =>
              have hk' : k < intervals.length := Nat.lt_of_succ_lt_succ hk
              have hbound := hbounds k hk'
              rw [Nat.add_assoc, Nat.add_comm 1 k] at hbound
              exact hbound
  have hfirst : baseIvl options 0 = options.reconnectIvl := by
    rw [baseIvl]
    split_ifs with hmax
    · rw [pow_zero, mul_one, min_eq_left hmax.le]
    · rfl
  obtain ⟨intervals, hrun, hlength, hbounds⟩ := hall 0
  rw [hfirst] at hrun
  refine ⟨intervals, hrun, hlength, fun k hk => ?_⟩
  have hbound := hbounds k hk
  rw [Nat.zero_add] at hbound
  exact hbound

/-- From 100 ms to at most a second. -/
theorem reconnectIvls_bounds_second :
    ∃ intervals, reconnectIvls ⟨100, 1000⟩ 100 [7, 7, 7, 7, 7] = .ok intervals ∧
      intervals = [107, 207, 407, 807, 1007] ∧
      ∀ k, ∀ hk : k < intervals.length, baseIvl ⟨100, 1000⟩ k ≤ intervals[k] := by
  have husable : ReconnectOptions.Usable ⟨100, 1000⟩ := ⟨by decide, by decide, by decide⟩
  obtain ⟨intervals, hrun, -, hbounds⟩ :=
    reconnectIvls_bounds husable (by decide) [7, 7, 7, 7, 7]
  refine ⟨intervals, hrun, ?_, fun k hk => (hbounds k hk).1⟩
  have hvalue : reconnectIvls ⟨100, 1000⟩ 100 [7, 7, 7, 7, 7] =
      .ok [107, 207, 407, 807, 1007] := by
    rfl
  exact Except.ok.inj (hrun.symm.trans hvalue)

end EventLoop

end AFStream.Net

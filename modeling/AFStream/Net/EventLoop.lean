/-
# The event loop and the objects it serves

A network thread runs one `epoll_t`. The upstream side polls a listener, the downstream side a
connecter for every destination; both create a stream engine for each connection, and the engines
are deleted by their own handlers in the middle of the loop. The module translates the handlers as
far as they decide about polling, descriptors, timers and the life of the objects; what they read,
decode, pull and write, and what the kernel and the allocator answer, comes from outside.
-/

import AFStream.Foundation.Machine
import AFStream.Net.Epoll
import AFStream.Net.PollerBase

namespace AFStream.Net

open AFStream.Foundation

/-! ## The objects -/

/-- Who implements `i_poll_events`: engines by their address. -/
inductive Sink
  | listener
  | connecter (i : ℕ)
  | engine (address : ℕ)
  deriving DecidableEq, Repr

/-- The members of `stream_engine_t` that decide about polling. An engine is plugged as soon as it
has been created. -/
structure EngineControl where
  s : ℕ
  handle : ℕ
  ioError : Bool
  handshaking : Bool
  /-- `encoder` and `decoder` are not null. -/
  hasCoders : Bool
  handshakeReady : Bool
  inputStopped : Bool
  outputStopped : Bool
  /-- `in_callback_` is not null. -/
  hasIn : Bool
  /-- `out_callback_` is not null. -/
  hasOut : Bool

/-- `tcp_connecter_t`; `s` is `none` if it is `retired_fd`. -/
structure TcpConnecter where
  s : Option ℕ
  handle : ℕ
  handleValid : Bool
  timerStarted : Bool
  currentReconnectIvl : ℤ
  /-- An engine has been created for the connection. -/
  connected : Bool

/-- The members of `options_t` that a connecter uses. -/
structure ReconnectOptions where
  reconnectIvl : ℤ
  reconnectIvlMax : ℤ

/-- The events of an entry in `ev_buf`. -/
structure PollEvents where
  error : Bool
  output : Bool
  input : Bool

/-- A network thread; a timer's event is the connecter that started it. -/
structure EventLoop where
  epoll : Epoll Sink
  engines : Heap EngineControl
  connecters : ℕ → Option TcpConnecter
  /-- Handle and descriptor of the listener. -/
  listener : Option (ℕ × ℕ)
  timers : List (Timer ℕ)
  /-- What is left of `ev_buf`. -/
  batch : List (ℕ × PollEvents)
  stopping : Bool

/-! ## What comes from outside -/

/-- `handshake`: it tears the connection down, waits for more bytes, or is done. Then it has created
an encoder and a decoder, unless the greeting is that of an older protocol. -/
inductive HandshakeResult
  | error
  | again
  | done (creates : Bool)
  deriving DecidableEq, Repr

/-- How the decoding loop of `in_event` ends. -/
inductive LoopEnd
  | processed
  | rejected
  | again

/-- What `in_event` reads. For each message the answer says whether the handshake is complete with
it or, behind the handshake, whether `PushRecord` returns 1. -/
inductive InputResult
  | failed
  | again
  | messages (answers : List Bool) (last : LoopEnd)

/-- What a call of an engine's `in_event` meets. -/
structure InAnswers where
  handshake : HandshakeResult
  /-- The handshake has something to send. -/
  setsPollout : Bool
  input : InputResult

/-- The handshake ends with a peer of an older protocol. -/
def InAnswers.OldPeer (answers : InAnswers) : Prop := answers.handshake = .done false

/-- What a call of an engine's `out_event` meets. For each message that is pulled the answer says
whether the handshake is complete with it or, behind the handshake, whether it is `FINISH`. -/
structure OutAnswers where
  /-- The write buffer is not empty. -/
  buffered : Bool
  pulls : List Bool
  /-- There is something to write then. -/
  hasData : Bool
  /-- Whether the write empties the buffer; `none` if it fails. -/
  written : Option Bool

/-- A new engine: addresses, callbacks and the first call of `in_event`. -/
structure PlugAnswers where
  engineAddress : ℕ
  entryAddress : ℕ
  hasIn : Bool
  hasOut : Bool
  first : InAnswers

/-- What a call of a connecter's `out_event` meets. -/
structure ConnectAnswers where
  /-- `getsockopt` reports an error that means that there is no connection. -/
  refused : Bool
  plug : PlugAnswers
  now : ℕ
  random : ℕ

/-- The result of `::connect`. -/
inductive ConnectResult
  | connected
  | inProgress
  | failed

/-- What `start_connecting` meets. -/
structure StartAnswers where
  socket : Option ℕ
  result : ConnectResult
  entryAddress : ℕ
  connect : ConnectAnswers

/-- What a handler meets, whichever object it belongs to. -/
structure Answers where
  input : InAnswers
  output : OutAnswers
  connect : ConnectAnswers
  /-- The descriptor from `accept`. -/
  accepted : Option ℕ
  plug : PlugAnswers

/-- A handshake that one of the handlers may end is one with a peer of an older protocol. -/
def Answers.OldPeer (answers : Answers) : Prop :=
  answers.input.OldPeer ∨ answers.connect.plug.first.OldPeer ∨ answers.plug.first.OldPeer

/-! ## The back-off of a connecter -/

/-- `get_new_reconnect_ivl`: the interval, and `current_reconnect_ivl` then. The sum is computed in
`uint32_t`; the remainder by zero and the overflow of an `int` are undefined. -/
def getNewReconnectIvl (options : ReconnectOptions) (current : ℤ) (random : ℕ) :
    Except Fault (ℤ × ℤ) :=
  if options.reconnectIvl % 2 ^ 32 = 0 then .error .program
  else
    let interval := Int.bmod (current + random % 2 ^ 32 % (options.reconnectIvl % 2 ^ 32)) (2 ^ 32)
    if 0 < options.reconnectIvlMax ∧ options.reconnectIvl < options.reconnectIvlMax then
      if -2 ^ 31 ≤ current * 2 ∧ current * 2 < 2 ^ 31 then
        .ok (interval,
          if options.reconnectIvlMax ≤ current * 2 then options.reconnectIvlMax else current * 2)
      else .error .program
    else .ok (interval, current)

/-- Options with which the back-off is defined: a positive interval, and a maximum that can be
doubled if it is used. -/
structure ReconnectOptions.Usable (options : ReconnectOptions) : Prop where
  pos : 0 < options.reconnectIvl
  lt : options.reconnectIvl < 2 ^ 31
  max_lt : options.reconnectIvl < options.reconnectIvlMax → options.reconnectIvlMax < 2 ^ 30

namespace EventLoop

/-- The poller before anything is polled. -/
def create : EventLoop where
  epoll := .create
  engines := .empty
  connecters := fun _ => none
  listener := none
  timers := []
  batch := []
  stopping := false

variable (l : EventLoop)

/-! ## `stream_engine_t` -/

/-- A member access; the engine must not have been deleted. -/
def engine (j : ℕ) : Except Fault EngineControl :=
  match l.engines.block j with
  | some e => .ok e
  | none => .error .program

def setEngine (j : ℕ) (e : EngineControl) : EventLoop :=
  { l with engines := l.engines.alloc j e }

/-- Input stops: `reset_pollin`. -/
def stopInput (j : ℕ) : Except Fault EventLoop := do
  let e ← l.engine j
  let epoll ← l.epoll.resetPollin e.handle
  pure { l with epoll, engines := l.engines.alloc j { e with inputStopped := true } }

/-- Output stops: `reset_pollout`. -/
def stopOutput (j : ℕ) : Except Fault EventLoop := do
  let e ← l.engine j
  let epoll ← l.epoll.resetPollout e.handle
  pure { l with epoll, engines := l.engines.alloc j { e with outputStopped := true } }

/-- `reset_pollout` while the engine goes on. -/
def pauseOutput (j : ℕ) : Except Fault EventLoop := do
  let e ← l.engine j
  let epoll ← l.epoll.resetPollout e.handle
  pure { l with epoll }

/-- `set_pollout`, if there is something to send. -/
def resumeOutput (j : ℕ) (sets : Bool) : Except Fault EventLoop := do
  let e ← l.engine j
  let epoll ← (if sets then l.epoll.setPollout e.handle else pure l.epoll)
  pure { l with epoll }

/-- `error` and `terminate`: unplug the engine and delete it, which closes its socket. -/
def destroy (j : ℕ) : Except Fault EventLoop := do
  let e ← l.engine j
  let epoll ← (if e.ioError then pure l.epoll else l.epoll.rmFd e.handle)
  let epoll ← epoll.closeFd e.s
  pure { l with epoll, engines := ⟨Function.update l.engines.block j none⟩ }

/-- `mechanism_ready` -/
def mechanismReady (j : ℕ) : Except Fault EventLoop := do
  let e ← l.engine j
  let l := l.setEngine j { e with handshakeReady := true }
  let l ← (if e.hasIn then pure l else l.stopInput j)
  if e.hasOut then pure l else l.stopOutput j

/-- `restart_output`, for an engine whose output has stopped. What it does for an engine that has an
out callback is not translated; such a call would be taken for a fault. -/
def restartOutput (j : ℕ) : Except Fault EventLoop := do
  let e ← l.engine j
  if e.ioError ∨ e.hasOut = false then pure l else .error .program

/-- `process_handshake_command` for a command that is accepted. -/
def processHandshakeCommand (j : ℕ) (complete : Bool) : Except Fault EventLoop := do
  let l ← (if complete then l.mechanismReady j else pure l)
  let e ← l.engine j
  if e.outputStopped then l.restartOutput j else pure l

/-- `write_msg`: `process_handshake_command` and later `decode_and_push`. -/
def writeMsg (j : ℕ) (answer : Bool) : Except Fault EventLoop := do
  let e ← l.engine j
  if e.handshakeReady then
    pure (l.setEngine j { e with inputStopped := e.inputStopped || (e.hasIn && answer) })
  else l.processHandshakeCommand j answer

/-- The end of `in_event`. -/
def endInput (j : ℕ) : Except Fault (Bool × EventLoop) := do
  let e ← l.engine j
  if e.inputStopped then
    let l ← l.stopInput j
    if e.outputStopped then
      let l ← l.destroy j
      pure (true, l)
    else pure (false, l)
  else pure (false, l)

/-- `in_event` behind the handshake; it asserts that there is a decoder. -/
def readInput (j : ℕ) (answer : InputResult) : Except Fault (Bool × EventLoop) := do
  let e ← l.engine j
  if e.hasCoders = false then .error .program
  else if e.inputStopped then
    let epoll ← l.epoll.rmFd e.handle
    pure (false, { l with epoll, engines := l.engines.alloc j { e with ioError := true } })
  else
    match answer with
    | .failed => do
      let l ← l.destroy j
      pure (false, l)
    | .again => pure (false, l)
    | .messages answers last => do
      let l ← answers.foldlM (fun l answer => l.writeMsg j answer) l
      match last with
      | .processed => l.endInput j
      | .again => do
        let l ← l.stopInput j
        l.endInput j
      | .rejected => do
        let l ← l.destroy j
        pure (false, l)

/-- `in_event`; it asserts that there has been no error. -/
def engineInEvent (j : ℕ) (answers : InAnswers) : Except Fault (Bool × EventLoop) := do
  let e ← l.engine j
  if e.ioError then .error .program
  else if e.handshaking then
    match answers.handshake with
    | .error => do
      let l ← l.destroy j
      pure (false, l)
    | .again => do
      let l ← l.resumeOutput j answers.setsPollout
      pure (false, l)
    | .done creates => do
      let l ← l.resumeOutput j answers.setsPollout
      let e ← l.engine j
      (l.setEngine j { e with handshaking := false, hasCoders := creates }).readInput j
        answers.input
  else l.readInput j answers.input

/-- The loop of `out_event` over `read_msg`: `next_handshake_command` and later `pull_and_encode`,
which ends it with `FINISH` or if there is no callback. -/
def pullLoop (j : ℕ) : List Bool → EventLoop → Except Fault EventLoop
  | [], l => pure l
  | answer :: rest, l => do
    let e ← l.engine j
    if e.handshakeReady then
      if e.hasOut then
        if answer then pure (l.setEngine j { e with outputStopped := true })
        else pullLoop j rest l
      else pure l
    else
      let l ← (if answer then l.mechanismReady j else pure l)
      pullLoop j rest l

/-- The part of `out_event` behind a successful write. -/
def endOutput (j : ℕ) (drained : Bool) : Except Fault (Bool × EventLoop) := do
  let e ← l.engine j
  if e.outputStopped then
    let l ← l.stopOutput j
    if e.inputStopped then
      let l ← l.destroy j
      pure (true, l)
    else pure (false, l)
  else if e.handshaking ∧ drained = true then
    let l ← l.pauseOutput j
    pure (false, l)
  else pure (false, l)

/-- The write of `out_event`, if there is something to write. -/
def writeOutput (j : ℕ) (answers : OutAnswers) : Except Fault (Bool × EventLoop) :=
  match answers.written with
  | none => do
    let l ← l.pauseOutput j
    pure (false, l)
  | some drained => l.endOutput j drained

/-- `out_event`; it asserts that there has been no error, and that an encoder is missing only during
the handshake. -/
def engineOutEvent (j : ℕ) (answers : OutAnswers) : Except Fault (Bool × EventLoop) := do
  let e ← l.engine j
  if e.ioError then .error .program
  else if answers.buffered then l.writeOutput j answers
  else if e.hasCoders = false then
    if e.handshaking then pure (false, l) else .error .program
  else
    let l ← pullLoop j answers.pulls l
    if answers.hasData then l.writeOutput j answers else pure (false, l)

/-- The constructor and `plug`, which ends with a call of `in_event`. -/
def plug (fd : ℕ) (answers : PlugAnswers) : Except Fault EventLoop :=
  if l.engines.Live answers.engineAddress then .error .environment
  else do
    let j := answers.engineAddress
    let epoll ← l.epoll.addFd fd (.engine j) answers.entryAddress
    let epoll ← epoll.setPollin answers.entryAddress
    let epoll ← epoll.setPollout answers.entryAddress
    let l := { l with
      epoll
      engines := l.engines.alloc j
        { s := fd
          handle := answers.entryAddress
          ioError := false
          handshaking := true
          hasCoders := false
          handshakeReady := false
          inputStopped := false
          outputStopped := false
          hasIn := answers.hasIn
          hasOut := answers.hasOut } }
    let (_, l) ← l.engineInEvent j answers.first
    pure l

/-! ## `tcp_connecter_t` -/

def connecter (i : ℕ) : Except Fault TcpConnecter :=
  match l.connecters i with
  | some c => .ok c
  | none => .error .program

def setConnecter (i : ℕ) (c : TcpConnecter) : EventLoop :=
  { l with connecters := Function.update l.connecters i (some c) }

variable (options : ReconnectOptions)

/-- `add_reconnect_timer` -/
def addReconnectTimer (i : ℕ) (now random : ℕ) : Except Fault EventLoop := do
  let c ← l.connecter i
  let (interval, current) ← getNewReconnectIvl options c.currentReconnectIvl random
  let l := { l with timers := addTimer l.timers now interval i }
  pure (l.setConnecter i { c with timerStarted := true, currentReconnectIvl := current })

/-- `close` -/
def closeConnecter (i : ℕ) : Except Fault EventLoop := do
  let c ← l.connecter i
  match c.s with
  | none => .error .program
  | some fd => do
    let epoll ← l.epoll.closeFd fd
    pure ({ l with epoll }.setConnecter i { c with s := none })

/-- `rm_fd` of the connecter's handle. -/
def rmConnecter (i : ℕ) : Except Fault EventLoop := do
  let c ← l.connecter i
  let epoll ← l.epoll.rmFd c.handle
  pure ({ l with epoll }.setConnecter i { c with handleValid := false })

/-- `cancel_timer` of the connecter's timer. -/
def cancelReconnectTimer (i : ℕ) : Except Fault EventLoop := do
  let c ← l.connecter i
  match cancelTimer l.timers i with
  | none => .error .program
  | some timers => pure ({ l with timers }.setConnecter i { c with timerStarted := false })

/-- `terminate` -/
def terminate (i : ℕ) : Except Fault EventLoop := do
  let c ← l.connecter i
  let l ← (if c.timerStarted then l.cancelReconnectTimer i else pure l)
  let l ← (if c.handleValid then l.rmConnecter i else pure l)
  if c.s = none then pure l else l.closeConnecter i

/-- `out_event`. With an established connection `connect` takes the descriptor out of `s`. -/
def connecterOutEvent (i : ℕ) (answers : ConnectAnswers) : Except Fault EventLoop := do
  let c ← l.connecter i
  match c.s with
  | none => .error .program
  | some fd => do
    let l ← l.rmConnecter i
    if answers.refused then
      let l ← l.closeConnecter i
      l.addReconnectTimer options i answers.now answers.random
    else
      let c ← l.connecter i
      let l ← (l.setConnecter i { c with s := none, connected := true }).plug fd answers.plug
      l.terminate i

/-- `add_fd` of the connecter's socket. -/
def addConnecter (i : ℕ) (fd address : ℕ) : Except Fault EventLoop := do
  let c ← l.connecter i
  let epoll ← l.epoll.addFd fd (.connecter i) address
  pure ({ l with epoll }.setConnecter i { c with handle := address, handleValid := true })

/-- `start_connecting`, with `open` and its assertion that there is no socket. -/
def startConnecting (i : ℕ) (answers : StartAnswers) : Except Fault EventLoop := do
  let c ← l.connecter i
  if c.s ≠ none then .error .program
  else
    match answers.socket with
    | none => l.addReconnectTimer options i answers.connect.now answers.connect.random
    | some fd => do
      let epoll ← l.epoll.openFd fd
      let l := { l with epoll }.setConnecter i { c with s := some fd }
      match answers.result with
      | .connected => do
        let l ← l.addConnecter i fd answers.entryAddress
        l.connecterOutEvent options i answers.connect
      | .inProgress => do
        let l ← l.addConnecter i fd answers.entryAddress
        let c ← l.connecter i
        let epoll ← l.epoll.setPollout c.handle
        pure { l with epoll }
      | .failed => do
        let l ← l.closeConnecter i
        l.addReconnectTimer options i answers.connect.now answers.connect.random

/-- `timer_event` -/
def timerEvent (i : ℕ) (answers : StartAnswers) : Except Fault EventLoop := do
  let c ← l.connecter i
  (l.setConnecter i { c with timerStarted := false }).startConnecting options i answers

/-! ## `tcp_listener_t` -/

/-- `in_event`. A connection that an accept filter rejects is closed at once and not taken here. -/
def listenerInEvent (answers : Answers) : Except Fault EventLoop :=
  if l.listener = none then .error .program
  else
    match answers.accepted with
    | none => pure l
    | some fd => do
      let epoll ← l.epoll.openFd fd
      { l with epoll }.plug fd answers.plug

/-! ## `loop` -/

/-- `in_event` of any object. -/
def inEvent (answers : Answers) : Sink → Except Fault (Bool × EventLoop)
  | .listener => do
    let l ← l.listenerInEvent answers
    pure (false, l)
  | .connecter i => do
    let l ← l.connecterOutEvent options i answers.connect
    pure (false, l)
  | .engine j => l.engineInEvent j answers.input

/-- `out_event` of any object; a listener has none. -/
def outEvent (answers : Answers) : Sink → Except Fault (Bool × EventLoop)
  | .listener => .error .environment
  | .connecter i => do
    let l ← l.connecterOutEvent options i answers.connect
    pure (false, l)
  | .engine j => l.engineOutEvent j answers.output

/-- Call a handler of the object behind an entry, if the events ask for it and the entry has not
been retired in the meantime. -/
def dispatch (address : ℕ) (asked : Bool)
    (handler : EventLoop → Sink → Except Fault (Bool × EventLoop)) : Except Fault EventLoop :=
  match l.epoll.entries.block address with
  | none => .error .program
  | some entry =>
    if entry.fd = none ∨ asked = false then pure l
    else do
      let (stop, l) ← handler l entry.events
      pure { l with stopping := l.stopping || stop }

/-- The next event of the batch. -/
def handleEvent (first second third : Answers) : Except Fault EventLoop :=
  match l.batch with
  | [] => .error .environment
  | (address, events) :: rest => do
    let l ← { l with batch := rest }.dispatch address events.error
      fun l => l.inEvent options first
    let l ← l.dispatch address events.output fun l => l.outEvent options second
    l.dispatch address events.input fun l => l.inEvent options third

/-- What a timer that is due does, with one of the answers that are left. -/
def fireTimer : TimerEvent Fault ℕ (EventLoop × List StartAnswers) :=
  fun (l, answers) i =>
    match answers with
    | [] => .error .environment
    | first :: rest =>
      (l.timerEvent options i first).map fun l => (({ l with timers := [] }, rest), l.timers)

/-- `execute_timers`, during which the map is in the hands of the loop. -/
def runTimers (now : ℕ) (answers : List StartAnswers) : Except Fault EventLoop := do
  let (_, (l, _), timers) ← executeTimers (fireTimer options) .environment now
    (l.timers.length + answers.length + 1) ({ l with timers := [] }, answers) l.timers
  pure { l with timers }

/-- What a network thread does, with what it meets. -/
inductive Action
  | /-- Create the listener, whose socket is open, and poll it. -/
    listen (fd address : ℕ)
  | /-- Create a connecter and start it. -/
    connect (i : ℕ) (answers : StartAnswers)
  | executeTimers (now : ℕ) (answers : List StartAnswers)
  | /-- `epoll_wait` returns events for entries on the interest list. -/
    wait (batch : List (ℕ × PollEvents))
  | handleEvent (first second third : Answers)
  | /-- Behind the batch: destroy the retired entries. -/
    deleteRetired

/-- What an action meets has a handshake with a peer of an older protocol. -/
def Action.OldPeer : Action → Prop
  | .listen _ _ => False
  | .connect _ answers => answers.connect.plug.first.OldPeer
  | .executeTimers _ answers => ∃ start ∈ answers, start.connect.plug.first.OldPeer
  | .wait _ => False
  | .handleEvent first second third => first.OldPeer ∨ second.OldPeer ∨ third.OldPeer
  | .deleteRetired => False

/-- One action. The parts of `loop` may come in any order, but a batch is worked off first. -/
def step : Action → Except Fault EventLoop
  | .listen fd address =>
    if l.listener ≠ none then .error .environment
    else do
      let epoll ← l.epoll.openFd fd
      let epoll ← epoll.addFd fd .listener address
      let epoll ← epoll.setPollin address
      pure { l with epoll, listener := some (address, fd) }
  | .connect i answers =>
    if l.connecters i ≠ none then .error .environment
    else
      (l.setConnecter i
        { s := none
          handle := 0
          handleValid := false
          timerStarted := false
          currentReconnectIvl := options.reconnectIvl
          connected := false }).startConnecting options i answers
  | .executeTimers now answers =>
    if l.batch ≠ [] ∨ l.stopping then .error .environment else l.runTimers options now answers
  | .wait batch =>
    if l.batch ≠ [] ∨ l.stopping then .error .environment
    else if batch.all fun event => (l.epoll.lookup event.1).isSome then pure { l with batch }
    else .error .environment
  | .handleEvent first second third => l.handleEvent options first second third
  | .deleteRetired =>
    if l.batch ≠ [] then .error .environment
    else do
      let epoll ← l.epoll.deleteRetired
      pure { l with epoll }

/-- Every order of actions and all answers. -/
def machine : Machine EventLoop Action where
  init := create
  step l action := (l.step options action).toOption

end EventLoop

end AFStream.Net

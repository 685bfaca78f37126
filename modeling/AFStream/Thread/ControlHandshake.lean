/-
# The control handshake between the worker and its threads

`Worker::Start` creates the up thread, the compute threads and the down thread, waits
until each is ready, lets them run, answers their backup requests while it polls for
their end, and finally has them clean up one after the other. Each thread has a mailbox
in both directions. The same command ends a thread's main handler and its cleaning, and
every receiver asserts the type of what it receives. The module follows each thread and
the worker's knowledge of it through one joint protocol, for every interleaving.
-/

import AFStream.Foundation.Machine
import Mathlib.Tactic

namespace AFStream.Thread

open AFStream.Foundation

universe u

/-- `afs_zmq::command_t::type_t` -/
inductive CommandType
  | any
  | ready
  | clean
  | finish
  | backup
  | more
  | done
  deriving DecidableEq, Repr

/-- `afs_zmq::command_t` -/
structure Command (β : Type u) where
  type : CommandType
  backupItem : β

/-- The threads of a worker. -/
inductive ThreadId
  | up
  | compute (i : ℕ)
  | down
  deriving DecidableEq, Repr

/-- Where a thread stands in `thread_fun`. -/
inductive ThreadPoint
  | uncreated
  | /-- In `ThreadInitHandler`. -/
    init
  | waitReady
  | /-- In `ThreadMainHandler`. -/
    main
  | /-- In `ThreadMainHandler`, waiting for the answer to a backup request. -/
    waitBackup
  | /-- `ThreadMainHandler` has returned. -/
    mainDone
  | waitClean
  | /-- In `ThreadFinishHandler`. -/
    finishing
  | exited
  | /-- An assertion has failed. -/
    aborted
  deriving DecidableEq, Repr

/-- Where the worker stands in `Start`. Loops over threads carry those still to come. -/
inductive WorkerPoint (β : Type u)
  | create (rest : List ThreadId)
  | waitReady (t : ThreadId) (rest : List ThreadId)
  | notifyReady (rest : List ThreadId)
  | poll (rest : List ThreadId)
  | makeBackup (t : ThreadId) (item : β) (rest : List ThreadId)
  | notifyBackup (t : ThreadId) (item : β) (rest : List ThreadId)
  | checkStop
  | waitDown
  | notifyClean (rest : List ThreadId)
  | waitClean (t : ThreadId) (rest : List ThreadId)
  | finished
  | /-- An assertion has failed. -/
    aborted

/-- A thread with its two mailboxes, and a log of its backup requests: those it sent,
those that `MakeBackup` has stored and those that have been answered. -/
structure Peer (β : Type u) where
  point : ThreadPoint
  threadToMain : List (Command β)
  mainToThread : List CommandType
  requested : List β
  saved : List β
  answered : List β
  /-- The clean command has been sent. -/
  cleanSent : Bool

/-- What `Start` is configured with. -/
structure HandshakeConfig (β : Type u) where
  numComputeThread : ℕ
  hasDownThread : Bool
  hasBackupClient : Bool
  /-- The arguments of a command that has none. -/
  uninit : β

/-- The worker and its threads. -/
structure Handshake (β : Type u) where
  worker : WorkerPoint β
  stop : ℕ
  peer : ThreadId → Peer β

namespace HandshakeConfig

variable {β : Type u} (cfg : HandshakeConfig β)

/-- The threads that the polling loop looks at. -/
def polled : List ThreadId := .up :: (List.range cfg.numComputeThread).map .compute

/-- All threads, in the order in which `Start` goes through them. -/
def threads : List ThreadId := cfg.polled ++ if cfg.hasDownThread then [.down] else []

end HandshakeConfig

namespace Peer

variable {β : Type u} (p : Peer β)

def create : Peer β where
  point := .uncreated
  threadToMain := []
  mainToThread := []
  requested := []
  saved := []
  answered := []
  cleanSent := false

/-- `NotifyWorker` -/
def notifyWorker (cmd : Command β) (next : ThreadPoint) : Peer β :=
  { p with threadToMain := p.threadToMain ++ [cmd], point := next }

/-- `NotifyThread` -/
def notifyThread (type : CommandType) : Peer β :=
  { p with mainToThread := p.mainToThread ++ [type] }

/-- `WaitWorker`; it blocks while the mailbox is empty. -/
def waitWorker (type : CommandType) (next : ThreadPoint) : Option (Peer β) :=
  match p.mainToThread with
  | [] => none
  | received :: rest =>
      some { p with
        mainToThread := rest
        point := if received = type then next else .aborted }

/-- One step of `thread_fun` outside the main handler, or the end of a wait within it. -/
def advance (uninit : β) : Option (Peer β) :=
  match p.point with
  | .init => some (p.notifyWorker ⟨.ready, uninit⟩ .waitReady)
  | .waitReady => p.waitWorker .ready .main
  | .waitBackup => p.waitWorker .backup .main
  | .mainDone => some (p.notifyWorker ⟨.finish, uninit⟩ .waitClean)
  | .waitClean => p.waitWorker .clean .finishing
  | .finishing => some (p.notifyWorker ⟨.finish, uninit⟩ .exited)
  | _ => none

/-- The main handler returns. -/
def leaveMain : Option (Peer β) :=
  if p.point = .main then some { p with point := .mainDone } else none

/-- The main handler of a compute thread requests a backup. -/
def request (item : β) : Option (Peer β) :=
  if p.point = .main then
    some { p.notifyWorker ⟨.backup, item⟩ .waitBackup with requested := p.requested ++ [item] }
  else none

end Peer

namespace Handshake

variable {β : Type u} (cfg : HandshakeConfig β)

/-- The start of `Start`'s thread handling. -/
def create : Handshake β where
  worker := .create cfg.threads
  stop := 0
  peer := fun _ => .create

variable {cfg} (s : Handshake β)

/-- Replace one thread. -/
def setPeer (t : ThreadId) (p : Peer β) : Handshake β :=
  { s with peer := Function.update s.peer t p }

/-- `WaitThread` for a type; it blocks while the mailbox is empty. -/
def waitThread (t : ThreadId) (type : CommandType) (next : WorkerPoint β) :
    Option (Handshake β) :=
  match (s.peer t).threadToMain with
  | [] => none
  | received :: rest =>
      some { s.setPeer t { s.peer t with threadToMain := rest } with
        worker := if received.type = type then next else .aborted }

variable (cfg)

/-- What the polling loop does with a command of thread `t`. -/
def dispatch (t : ThreadId) (cmd : Command β) (rest : List ThreadId) : Handshake β :=
  match cmd.type, t with
  | .finish, _ => { s with stop := s.stop + 1, worker := .poll rest }
  | .backup, .up =>
      { s with
        worker := if cfg.hasBackupClient then .makeBackup .up cmd.backupItem rest else .poll rest }
  | .backup, t =>
      { s with
        worker :=
          if cfg.hasBackupClient then .makeBackup t cmd.backupItem rest
          else .notifyBackup t cmd.backupItem rest }
  | _, _ => { s with worker := .aborted }

/-- One step of `Start`. -/
def workerStep : Option (Handshake β) :=
  match s.worker with
  | .create [] => some { s with worker := .notifyReady cfg.threads }
  | .create (t :: rest) =>
      some { s.setPeer t { s.peer t with point := .init } with worker := .waitReady t rest }
  | .waitReady t rest => s.waitThread t .ready (.create rest)
  | .notifyReady [] => some { s with stop := 0, worker := .poll cfg.polled }
  | .notifyReady (t :: rest) =>
      some { s.setPeer t ((s.peer t).notifyThread .ready) with worker := .notifyReady rest }
  | .poll [] => some { s with worker := .checkStop }
  | .poll (t :: rest) =>
      match (s.peer t).threadToMain with
      | [] => some { s with worker := .poll rest }
      | cmd :: cmds =>
          some ((s.setPeer t { s.peer t with threadToMain := cmds }).dispatch cfg t cmd rest)
  | .makeBackup t item rest =>
      some { s.setPeer t { s.peer t with saved := (s.peer t).saved ++ [item] } with
        worker := if t = .up then .poll rest else .notifyBackup t item rest }
  | .notifyBackup t item rest =>
      some { s.setPeer t { (s.peer t).notifyThread .backup with
          answered := (s.peer t).answered ++ [item] } with
        worker := .poll rest }
  | .checkStop =>
      if s.stop = cfg.numComputeThread + 1 then
        some { s with
          worker := if cfg.hasDownThread then .waitDown else .notifyClean cfg.threads }
      else some { s with worker := .poll cfg.polled }
  | .waitDown => s.waitThread .down .finish (.notifyClean cfg.threads)
  | .notifyClean [] => some { s with worker := .finished }
  | .notifyClean (t :: rest) =>
      some { s.setPeer t { (s.peer t).notifyThread .clean with cleanSent := true } with
        worker := .waitClean t rest }
  | .waitClean t rest => s.waitThread t .finish (.notifyClean rest)
  | .finished => none
  | .aborted => none

/-- One step of the worker or of a thread. -/
inductive Act (β : Type u)
  | worker
  | advance (t : ThreadId)
  | leaveMain (t : ThreadId)
  | request (i : ℕ) (item : β)

/-- One step of the whole system. -/
def step : Act β → Option (Handshake β)
  | .worker => s.workerStep cfg
  | .advance t => ((s.peer t).advance cfg.uninit).map (s.setPeer t)
  | .leaveMain t => (s.peer t).leaveMain.map (s.setPeer t)
  | .request i item => ((s.peer (.compute i)).request item).map (s.setPeer (.compute i))

/-- Every interleaving of the worker and its threads. -/
def machine : Machine (Handshake β) (Act β) where
  init := create cfg
  step := step cfg

end Handshake

/-! ## The joint protocol of a thread and the worker -/

/-- What a thread and the worker have exchanged so far. -/
inductive Phase (β : Type u)
  | uncreated
  | starting
  | readySent
  | readied
  | released
  | running
  | requesting (item : β)
  | backing (item : β)
  | backed (item : β)
  | answering
  | leaving
  | finishSent
  | stopped
  | cleanSent
  | finishing
  | exitSent
  | closed

/-- What the worker knows of it. -/
inductive View (β : Type u)
  | uncreated
  | created
  | readied
  | running
  | backing (item : β)
  | backed (item : β)
  | stopped
  | cleaned
  | closed

namespace Phase

variable {β : Type u}

def point : Phase β → ThreadPoint
  | .uncreated => .uncreated
  | .starting => .init
  | .readySent | .readied | .released => .waitReady
  | .running => .main
  | .requesting _ | .backing _ | .backed _ | .answering => .waitBackup
  | .leaving => .mainDone
  | .finishSent | .stopped | .cleanSent => .waitClean
  | .finishing => .finishing
  | .exitSent | .closed => .exited

def toMain (uninit : β) : Phase β → List (Command β)
  | .readySent => [⟨.ready, uninit⟩]
  | .requesting item => [⟨.backup, item⟩]
  | .finishSent | .exitSent => [⟨.finish, uninit⟩]
  | _ => []

def toThread : Phase β → List CommandType
  | .released => [.ready]
  | .answering => [.backup]
  | .cleanSent => [.clean]
  | _ => []

/-- The request that has not been answered. -/
def outstanding : Phase β → List β
  | .requesting item | .backing item | .backed item => [item]
  | _ => []

/-- The request that has been stored and not been answered. -/
def stored : Phase β → List β
  | .backed item => [item]
  | _ => []

def cleaned : Phase β → Bool
  | .cleanSent | .finishing | .exitSent | .closed => true
  | _ => false

/-- A request is on its way. -/
def asks : Phase β → Bool
  | .requesting _ | .backing _ | .backed _ | .answering => true
  | _ => false

def view : Phase β → View β
  | .uncreated => .uncreated
  | .starting | .readySent => .created
  | .readied => .readied
  | .released | .running | .requesting _ | .answering | .leaving | .finishSent => .running
  | .backing item => .backing item
  | .backed item => .backed item
  | .stopped => .stopped
  | .cleanSent | .finishing | .exitSent => .cleaned
  | .closed => .closed

end Phase

/-- The worker has received the end of the main handler. -/
def View.counted {β : Type u} : View β → Bool
  | .stopped | .cleaned | .closed => true
  | _ => false

/-- A thread in a phase of the protocol. -/
structure Peer.InPhase {β : Type u} (cfg : HandshakeConfig β) (p : Peer β) (phase : Phase β) :
    Prop where
  point_eq : p.point = phase.point
  toMain_eq : p.threadToMain = phase.toMain cfg.uninit
  toThread_eq : p.mainToThread = phase.toThread
  requested_eq : p.requested = p.answered ++ phase.outstanding
  saved_eq : p.saved = if cfg.hasBackupClient then p.answered ++ phase.stored else []
  cleanSent_eq : p.cleanSent = phase.cleaned

namespace Peer.InPhase

variable {β : Type u} {cfg : HandshakeConfig β} {p p' : Peer β} {phase : Phase β}

theorem create : (Peer.create : Peer β).InPhase cfg .uncreated :=
  ⟨rfl, rfl, rfl, rfl, by simp [Peer.create, Phase.stored], rfl⟩

/-- A step of `thread_fun` changes neither the worker's knowledge nor any assertion. -/
theorem advance (h : p.InPhase cfg phase) (hstep : p.advance cfg.uninit = some p') :
    ∃ phase' : Phase β, p'.InPhase cfg phase' ∧ phase'.view = phase.view ∧
      (phase'.asks = true → phase.asks = true) := by
  obtain ⟨hpoint, hmain, hthread, hrequested, hsaved, hclean⟩ := h
  unfold Peer.advance at hstep
  rw [hpoint] at hstep
  cases phase with
  | starting =>
      obtain rfl := Option.some.inj hstep
      refine ⟨.readySent, ⟨rfl, ?_, hthread, hrequested, hsaved, hclean⟩, rfl, id⟩
      simp [Peer.notifyWorker, hmain, Phase.toMain]
  | released =>
      simp only [Phase.point, Peer.waitWorker, hthread, Phase.toThread] at hstep
      obtain rfl := Option.some.inj hstep
      exact ⟨.running, ⟨rfl, hmain, rfl, hrequested, hsaved, hclean⟩, rfl, id⟩
  | answering =>
      simp only [Phase.point, Peer.waitWorker, hthread, Phase.toThread] at hstep
      obtain rfl := Option.some.inj hstep
      exact ⟨.running, ⟨rfl, hmain, rfl, hrequested, hsaved, hclean⟩, rfl, nofun⟩
  | leaving =>
      obtain rfl := Option.some.inj hstep
      refine ⟨.finishSent, ⟨rfl, ?_, hthread, hrequested, hsaved, hclean⟩, rfl, id⟩
      simp [Peer.notifyWorker, hmain, Phase.toMain]
  | cleanSent =>
      simp only [Phase.point, Peer.waitWorker, hthread, Phase.toThread] at hstep
      obtain rfl := Option.some.inj hstep
      exact ⟨.finishing, ⟨rfl, hmain, rfl, hrequested, hsaved, hclean⟩, rfl, id⟩
  | finishing =>
      obtain rfl := Option.some.inj hstep
      refine ⟨.exitSent, ⟨rfl, ?_, hthread, hrequested, hsaved, hclean⟩, rfl, id⟩
      simp [Peer.notifyWorker, hmain, Phase.toMain]
  | _ => simp [Phase.point, Peer.waitWorker, hthread, Phase.toThread] at hstep

/-- Only a running thread is in its main handler. -/
theorem eq_running (h : p.InPhase cfg phase) (hmain : p.point = .main) : phase = .running := by
  have hpoint := h.point_eq
  rw [hmain] at hpoint
  cases phase with
  | running => rfl
  | _ => cases hpoint

theorem leaveMain (h : p.InPhase cfg phase) (hstep : p.leaveMain = some p') :
    ∃ phase' : Phase β, p'.InPhase cfg phase' ∧ phase'.view = phase.view ∧
      (phase'.asks = true → phase.asks = true) := by
  unfold Peer.leaveMain at hstep
  split_ifs at hstep with hmain
  obtain rfl := Option.some.inj hstep
  obtain rfl := h.eq_running hmain
  exact ⟨.leaving, ⟨rfl, h.toMain_eq, h.toThread_eq, h.requested_eq, h.saved_eq,
    h.cleanSent_eq⟩, rfl, id⟩

theorem request (h : p.InPhase cfg phase) {item : β} (hstep : p.request item = some p') :
    ∃ phase' : Phase β, p'.InPhase cfg phase' ∧ phase'.view = phase.view := by
  unfold Peer.request at hstep
  split_ifs at hstep with hmain
  obtain rfl := Option.some.inj hstep
  obtain rfl := h.eq_running hmain
  refine ⟨.requesting item, ⟨rfl, ?_, h.toThread_eq, ?_, h.saved_eq, h.cleanSent_eq⟩, rfl⟩
  · simp [Peer.notifyWorker, h.toMain_eq, Phase.toMain]
  · simp [Peer.notifyWorker, h.requested_eq, Phase.outstanding]

/-- The worker takes the only command out of the mailbox. -/
theorem receive (h : p.InPhase cfg phase) (phase' : Phase β)
    (hpoint : phase'.point = phase.point) (hmain : phase'.toMain cfg.uninit = [])
    (hthread : phase'.toThread = phase.toThread)
    (houtstanding : phase'.outstanding = phase.outstanding)
    (hstored : phase'.stored = phase.stored) (hcleaned : phase'.cleaned = phase.cleaned) :
    Peer.InPhase cfg { p with threadToMain := [] } phase' where
  point_eq := by rw [hpoint, ← h.point_eq]
  toMain_eq := hmain.symm
  toThread_eq := by rw [hthread, ← h.toThread_eq]
  requested_eq := by rw [houtstanding, ← h.requested_eq]
  saved_eq := by rw [hstored, ← h.saved_eq]
  cleanSent_eq := by rw [hcleaned, ← h.cleanSent_eq]

end Peer.InPhase

/-- The phase behind those views that have only one. -/
def View.phase {β : Type u} : View β → Option (Phase β)
  | .uncreated => some .uncreated
  | .readied => some .readied
  | .backing item => some (.backing item)
  | .backed item => some (.backed item)
  | .stopped => some .stopped
  | .closed => some .closed
  | _ => none

theorem Phase.eq_of_view {β : Type u} {phase phase' : Phase β} {view : View β}
    (hview : phase.view = view) (hphase : view.phase = some phase') : phase = phase' := by
  subst hview
  cases phase with
  | uncreated | readied | backing | backed | stopped | closed => exact Option.some.inj hphase
  | _ => cases hphase

namespace HandshakeConfig

variable {β : Type u} {cfg : HandshakeConfig β}

theorem nodup_polled (cfg : HandshakeConfig β) : cfg.polled.Nodup := by
  refine List.nodup_cons.mpr ⟨by simp, ?_⟩
  exact List.nodup_range.map fun i j h => ThreadId.compute.inj h

theorem down_notMem_polled : .down ∉ cfg.polled := by simp [polled]

theorem nodup_threads (cfg : HandshakeConfig β) : cfg.threads.Nodup := by
  unfold threads
  split_ifs
  · rw [List.nodup_append_comm, List.singleton_append, List.nodup_cons]
    exact ⟨down_notMem_polled, cfg.nodup_polled⟩
  · rw [List.append_nil]
    exact cfg.nodup_polled

theorem length_polled : cfg.polled.length = cfg.numComputeThread + 1 := by simp [polled]

theorem mem_threads_of_mem_polled {t : ThreadId} (ht : t ∈ cfg.polled) : t ∈ cfg.threads :=
  List.mem_append_left _ ht

theorem mem_threads_iff {t : ThreadId} :
    t ∈ cfg.threads ↔ t ∈ cfg.polled ∨ (cfg.hasDownThread = true ∧ t = .down) := by
  unfold threads
  split_ifs with hdown
  · simp [hdown]
  · simp [hdown]

end HandshakeConfig

namespace Handshake

variable {β : Type u} {cfg : HandshakeConfig β} {s s' : Handshake β}

/-- While the worker polls, a thread it looks at is running or has stopped, except for the
one that it serves. -/
structure Polling (cfg : HandshakeConfig β) (view : ThreadId → View β) (served : Option ThreadId)
    (rest : List ThreadId) : Prop where
  polled : ∀ t ∈ cfg.polled, served ≠ some t → view t = .running ∨ view t = .stopped
  down : cfg.hasDownThread = true → view .down = .running
  rest : ∀ t ∈ rest, t ∈ cfg.polled

/-- What the worker knows of the threads at each point of `Start`. -/
def WorkerKnows (cfg : HandshakeConfig β) (view : ThreadId → View β) : WorkerPoint β → Prop
  | .create rest => ∃ before, cfg.threads = before ++ rest ∧
      (∀ t ∈ before, view t = .readied) ∧ ∀ t ∈ rest, view t = .uncreated
  | .waitReady t rest => ∃ before, cfg.threads = before ++ t :: rest ∧
      (∀ t ∈ before, view t = .readied) ∧ view t = .created ∧ ∀ t ∈ rest, view t = .uncreated
  | .notifyReady rest => ∃ before, cfg.threads = before ++ rest ∧
      (∀ t ∈ before, view t = .running) ∧ ∀ t ∈ rest, view t = .readied
  | .poll rest => Polling cfg view none rest
  | .makeBackup t item rest =>
      cfg.hasBackupClient = true ∧ t ∈ cfg.polled ∧ view t = .backing item ∧
        Polling cfg view (some t) rest
  | .notifyBackup t item rest =>
      t ∈ cfg.polled ∧ view t = .backed item ∧ Polling cfg view (some t) rest
  | .checkStop => Polling cfg view none []
  | .waitDown => cfg.hasDownThread = true ∧ view .down = .running ∧
      ∀ t ∈ cfg.polled, view t = .stopped
  | .notifyClean rest => ∃ before, cfg.threads = before ++ rest ∧
      (∀ t ∈ before, view t = .closed) ∧ ∀ t ∈ rest, view t = .stopped
  | .waitClean t rest => ∃ before, cfg.threads = before ++ t :: rest ∧
      (∀ t ∈ before, view t = .closed) ∧ view t = .cleaned ∧ ∀ t ∈ rest, view t = .stopped
  | .finished => ∀ t ∈ cfg.threads, view t = .closed
  | .aborted => False

/-- Every thread is in some phase, and the worker knows what it should. -/
structure Tracked (cfg : HandshakeConfig β) (s : Handshake β) (phase : ThreadId → Phase β) :
    Prop where
  inPhase : ∀ t, (s.peer t).InPhase cfg (phase t)
  asks : ∀ t, (phase t).asks = true → ∃ i, t = .compute i
  knows : WorkerKnows cfg (fun t => (phase t).view) s.worker
  stop_eq : s.stop = cfg.polled.countP fun t => (phase t).view.counted

theorem tracked_create : (create cfg).Tracked cfg fun _ => .uncreated where
  inPhase := fun _ => Peer.InPhase.create
  asks := nofun
  knows := ⟨[], rfl, nofun, fun _ _ => rfl⟩
  stop_eq := by simp [create, Phase.view, View.counted]

theorem view_update (phase : ThreadId → Phase β) (t : ThreadId) (phase' : Phase β) :
    (fun t' => (Function.update phase t phase' t').view) =
      Function.update (fun t' => (phase t').view) t phase'.view := by
  funext t'
  by_cases ht : t' = t
  · subst ht
    rw [Function.update_self, Function.update_self]
  · rw [Function.update_of_ne ht, Function.update_of_ne ht]

/-- A step that moves one thread to another phase. -/
theorem Tracked.move {phase : ThreadId → Phase β} (h : s.Tracked cfg phase) {t : ThreadId}
    {p : Peer β} {phase' : Phase β} {worker : WorkerPoint β} {stop : ℕ}
    (hp : p.InPhase cfg phase') (hasks : phase'.asks = true → ∃ i, t = .compute i)
    (hknows : WorkerKnows cfg (Function.update (fun t' => (phase t').view) t phase'.view) worker)
    (hstop : stop = cfg.polled.countP fun t' =>
      (Function.update (fun t' => (phase t').view) t phase'.view t').counted) :
    Tracked cfg ⟨worker, stop, Function.update s.peer t p⟩ (Function.update phase t phase') := by
  rw [← view_update] at hknows hstop
  refine ⟨?_, ?_, hknows, hstop⟩
  · intro t'
    by_cases ht : t' = t
    · subst ht
      simpa using hp
    · simpa [ht] using h.inPhase t'
  · intro t'
    by_cases ht : t' = t
    · subst ht
      simpa using hasks
    · simpa [ht] using h.asks t'

/-- Threads in other places keep their view. -/
theorem forall_update {view : ThreadId → View β} {t : ThreadId} {v w : View β}
    {ts : List ThreadId} (ht : t ∉ ts) (hts : ∀ t' ∈ ts, view t' = w) :
    ∀ t' ∈ ts, Function.update view t v t' = w := by
  intro t' hmem
  rw [Function.update_of_ne (ne_of_mem_of_not_mem hmem ht)]
  exact hts t' hmem

/-- The thread joins those that have had their turn. -/
theorem forall_update_append {view : ThreadId → View β} {t : ThreadId} {w : View β}
    {ts : List ThreadId} (ht : t ∉ ts) (hts : ∀ t' ∈ ts, view t' = w) :
    ∀ t' ∈ ts ++ [t], Function.update view t w t' = w := by
  intro t' hmem
  rcases List.mem_append.mp hmem with hold | hnew
  · exact forall_update ht hts t' hold
  · rw [List.mem_singleton.mp hnew]
    exact Function.update_self ..

/-- The thread whose turn it is stands at one place only. -/
theorem notMem_of_threads_eq {before rest : List ThreadId} {t : ThreadId}
    (hthreads : cfg.threads = before ++ t :: rest) : t ∉ before ∧ t ∉ rest := by
  have hnodup := cfg.nodup_threads
  rw [hthreads, List.nodup_middle, List.nodup_cons, List.mem_append, not_or] at hnodup
  exact hnodup.1

/-- The stop counter does not change with a view that counts the same. -/
theorem countP_update {view : ThreadId → View β} {t : ThreadId} {v : View β}
    (hcounted : v.counted = (view t).counted) (ts : List ThreadId) :
    ts.countP (fun t' => (Function.update view t v t').counted) =
      ts.countP fun t' => (view t').counted := by
  apply List.countP_congr
  intro t' _
  by_cases ht : t' = t
  · subst ht
    rw [Function.update_self, hcounted]
  · rw [Function.update_of_ne ht]

/-- A thread that stops is counted once. -/
theorem countP_update_stopped (view : ThreadId → View β) {t : ThreadId} {ts : List ThreadId}
    (hnodup : ts.Nodup) (hmem : t ∈ ts) (hbefore : (view t).counted = false) :
    ts.countP (fun t' => (Function.update view t .stopped t').counted) =
      ts.countP (fun t' => (view t').counted) + 1 := by
  induction ts with
  | nil => cases hmem
  | cons first rest ih =>
      rw [List.nodup_cons] at hnodup
      rw [List.countP_cons, List.countP_cons]
      by_cases hfirst : first = t
      · subst hfirst
        have hrest : rest.countP (fun t' => (Function.update view first .stopped t').counted) =
            rest.countP fun t' => (view t').counted := by
          apply List.countP_congr
          intro t' ht'
          rw [Function.update_of_ne (ne_of_mem_of_not_mem ht' hnodup.1)]
        rw [hrest, Function.update_self, hbefore]
        rfl
      · have hrest : t ∈ rest := (List.mem_cons.mp hmem).resolve_left (Ne.symm hfirst)
        rw [ih hnodup.2 hrest, Function.update_of_ne hfirst]
        omega

/-- A step of a thread that the worker does not notice. -/
theorem Tracked.setPeer {phase : ThreadId → Phase β} (h : s.Tracked cfg phase) {t : ThreadId}
    {p : Peer β} {phase' : Phase β} (hp : p.InPhase cfg phase')
    (hview : phase'.view = (phase t).view) (hasks : phase'.asks = true → ∃ i, t = .compute i) :
    (s.setPeer t p).Tracked cfg (Function.update phase t phase') := by
  apply h.move hp hasks
  · rw [hview, Function.update_eq_self]
    exact h.knows
  · rw [hview, Function.update_eq_self]
    exact h.stop_eq

/-! ## The steps of the worker -/

variable {phase : ThreadId → Phase β}

/-- `Create` -/
theorem Tracked.create (h : s.Tracked cfg phase) {t : ThreadId} {rest : List ThreadId}
    (hknows : WorkerKnows cfg (fun t => (phase t).view) (.create (t :: rest))) :
    ∃ phase', Tracked cfg
      ⟨.waitReady t rest, s.stop, Function.update s.peer t { s.peer t with point := .init }⟩
      phase' := by
  obtain ⟨before, hthreads, hbefore, hrest⟩ := hknows
  obtain ⟨hnotBefore, hnotRest⟩ := notMem_of_threads_eq hthreads
  have hphase := Phase.eq_of_view (hrest t (List.mem_cons_self ..)) rfl
  obtain ⟨-, hmain, hthread, hrequested, hsaved, hclean⟩ := h.inPhase t
  rw [hphase] at hmain hthread hrequested hsaved hclean
  have hp : Peer.InPhase cfg { s.peer t with point := .init } .starting :=
    ⟨rfl, hmain, hthread, hrequested, hsaved, hclean⟩
  refine ⟨_, h.move hp nofun ⟨before, hthreads, forall_update hnotBefore hbefore, ?_, ?_⟩ ?_⟩
  · exact Function.update_self ..
  · exact forall_update hnotRest fun t' ht' => hrest t' (List.mem_cons_of_mem _ ht')
  · rw [countP_update (by rw [hphase]; rfl)]
    exact h.stop_eq

/-- `WaitThread(ready)` -/
theorem Tracked.waitReady (h : s.Tracked cfg phase) {t : ThreadId} {rest : List ThreadId}
    (hknows : WorkerKnows cfg (fun t => (phase t).view) (.waitReady t rest))
    (hstep : s.waitThread t .ready (.create rest) = some s') :
    ∃ phase', s'.Tracked cfg phase' := by
  obtain ⟨before, hthreads, hbefore, hview, hrest⟩ := hknows
  obtain ⟨hnotBefore, hnotRest⟩ := notMem_of_threads_eq hthreads
  have hp := h.inPhase t
  dsimp only at hview
  unfold waitThread at hstep
  rw [hp.toMain_eq] at hstep
  cases hphase : phase t with
  | starting =>
      rw [hphase] at hstep
      cases hstep
  | readySent =>
      rw [hphase] at hstep hp
      obtain rfl := Option.some.inj hstep
      have hp' := hp.receive .readied rfl rfl rfl rfl rfl rfl
      refine ⟨_, h.move hp' nofun ⟨before ++ [t], by simp [hthreads], ?_,
        forall_update hnotRest hrest⟩ ?_⟩
      · exact forall_update_append hnotBefore hbefore
      · rw [countP_update (by rw [hphase]; rfl)]
        exact h.stop_eq
  | _ =>
      rw [hphase] at hview
      cases hview

/-- `NotifyThread(ready)` -/
theorem Tracked.notifyReady (h : s.Tracked cfg phase) {t : ThreadId} {rest : List ThreadId}
    (hknows : WorkerKnows cfg (fun t => (phase t).view) (.notifyReady (t :: rest))) :
    ∃ phase', Tracked cfg
      ⟨.notifyReady rest, s.stop, Function.update s.peer t ((s.peer t).notifyThread .ready)⟩
      phase' := by
  obtain ⟨before, hthreads, hbefore, hrest⟩ := hknows
  obtain ⟨hnotBefore, hnotRest⟩ := notMem_of_threads_eq hthreads
  have hphase := Phase.eq_of_view (hrest t (List.mem_cons_self ..)) rfl
  obtain ⟨hpoint, hmain, hthread, hrequested, hsaved, hclean⟩ := h.inPhase t
  rw [hphase] at hpoint hmain hthread hrequested hsaved hclean
  have hp : Peer.InPhase cfg ((s.peer t).notifyThread .ready) .released :=
    ⟨hpoint, hmain, by simp [Peer.notifyThread, hthread, Phase.toThread], hrequested, hsaved,
      hclean⟩
  refine ⟨_, h.move hp nofun ⟨before ++ [t], by simp [hthreads], ?_, ?_⟩ ?_⟩
  · exact forall_update_append hnotBefore hbefore
  · exact forall_update hnotRest fun t' ht' => hrest t' (List.mem_cons_of_mem _ ht')
  · rw [countP_update (by rw [hphase]; rfl)]
    exact h.stop_eq

/-- The worker changes its view of the thread that it serves. -/
theorem Polling.update {view : ThreadId → View β} {t : ThreadId} {rest : List ThreadId}
    (h : Polling cfg view (some t) rest) (ht : t ∈ cfg.polled) (v : View β) :
    Polling cfg (Function.update view t v) (some t) rest := by
  refine ⟨?_, ?_, h.rest⟩
  · intro t' hmem hne
    have hother : t' ≠ t := fun heq => hne (by rw [heq])
    rw [Function.update_of_ne hother]
    exact h.polled t' hmem hne
  · intro hdown
    have hother : ThreadId.down ≠ t := by
      rintro rfl
      exact HandshakeConfig.down_notMem_polled ht
    rw [Function.update_of_ne hother]
    exact h.down hdown

/-- The worker turns to one of the threads. -/
theorem Polling.serve {view : ThreadId → View β} {t : ThreadId} {rest : List ThreadId}
    (h : Polling cfg view none (t :: rest)) (v : View β) :
    Polling cfg (Function.update view t v) (some t) rest := by
  have hserved : Polling cfg view (some t) rest :=
    ⟨fun t' hmem _ => h.polled t' hmem nofun, h.down,
      fun t' ht' => h.rest t' (List.mem_cons_of_mem _ ht')⟩
  exact hserved.update (h.rest t (List.mem_cons_self ..)) v

/-- The worker goes on with the next thread. -/
theorem Polling.release {view : ThreadId → View β} {t : ThreadId} {rest : List ThreadId}
    (h : Polling cfg view (some t) rest) (hview : view t = .running ∨ view t = .stopped) :
    Polling cfg view none rest := by
  refine ⟨?_, h.down, h.rest⟩
  intro t' hmem _
  by_cases ht : t' = t
  · rw [ht]
    exact hview
  · exact h.polled t' hmem fun heq => ht (Option.some.inj heq).symm

/-- A poll that finds a command. -/
theorem Tracked.poll (h : s.Tracked cfg phase) {t : ThreadId} {rest : List ThreadId}
    (hknows : Polling cfg (fun t => (phase t).view) none (t :: rest)) {cmd : Command β}
    {cmds : List (Command β)} (hcmds : (s.peer t).threadToMain = cmd :: cmds) :
    ∃ phase', Tracked cfg
      ((s.setPeer t { s.peer t with threadToMain := cmds }).dispatch cfg t cmd rest) phase' := by
  have ht := hknows.rest t (List.mem_cons_self ..)
  have hview := hknows.polled t ht nofun
  have hp := h.inPhase t
  rw [hp.toMain_eq] at hcmds
  cases hphase : phase t with
  | finishSent =>
      rw [hphase] at hcmds hp
      obtain ⟨rfl, rfl⟩ := List.cons.inj hcmds
      have hp' := hp.receive .stopped rfl rfl rfl rfl rfl rfl
      refine ⟨_, h.move hp' nofun ((hknows.serve .stopped).release (.inr ?_)) ?_⟩
      · exact Function.update_self ..
      · have hcount := countP_update_stopped (fun t' => (phase t').view)
          cfg.nodup_polled ht (by rw [hphase]; rfl)
        exact (congrArg (· + 1) h.stop_eq).trans hcount.symm
  | requesting item =>
      rw [hphase] at hcmds hp
      obtain ⟨rfl, rfl⟩ := List.cons.inj hcmds
      obtain ⟨i, rfl⟩ := h.asks t (by rw [hphase]; rfl)
      have hstop (v : View β) (hv : v.counted = false) : s.stop = cfg.polled.countP fun t' =>
          (Function.update (fun t' => (phase t').view) (.compute i) v t').counted := by
        rw [countP_update (by rw [hphase]; exact hv)]
        exact h.stop_eq
      by_cases hclient : cfg.hasBackupClient = true
      · have hp' := hp.receive (.backing item) rfl rfl rfl rfl rfl rfl
        simp only [dispatch, hclient, if_true]
        refine ⟨_, h.move hp' (fun _ => ⟨i, rfl⟩) ⟨hclient, ht, ?_, hknows.serve _⟩
          (hstop _ rfl)⟩
        exact Function.update_self ..
      · have hp' : Peer.InPhase cfg { s.peer (.compute i) with threadToMain := [] }
            (.backed item) := by
          refine ⟨hp.point_eq, rfl, hp.toThread_eq, hp.requested_eq, ?_, hp.cleanSent_eq⟩
          have hsaved := hp.saved_eq
          rw [if_neg hclient] at hsaved ⊢
          exact hsaved
        simp only [dispatch, hclient]
        refine ⟨_, h.move hp' (fun _ => ⟨i, rfl⟩) ⟨ht, ?_, hknows.serve _⟩ (hstop _ rfl)⟩
        exact Function.update_self ..
  | readySent | exitSent =>
      rw [hphase] at hview
      rcases hview with hview | hview
      · cases hview
      · cases hview
  | _ =>
      rw [hphase] at hcmds
      cases hcmds

/-- `MakeBackup` returns. -/
theorem Tracked.makeBackup (h : s.Tracked cfg phase) {t : ThreadId} {item : β}
    {rest : List ThreadId}
    (hknows : WorkerKnows cfg (fun t => (phase t).view) (.makeBackup t item rest)) :
    ∃ phase', Tracked cfg
      ⟨if t = .up then .poll rest else .notifyBackup t item rest, s.stop,
        Function.update s.peer t { s.peer t with saved := (s.peer t).saved ++ [item] }⟩
      phase' := by
  obtain ⟨hclient, ht, hview, hpolling⟩ := hknows
  have hphase := Phase.eq_of_view hview rfl
  obtain ⟨i, rfl⟩ := h.asks t (by rw [hphase]; rfl)
  obtain ⟨hpoint, hmain, hthread, hrequested, hsaved, hclean⟩ := h.inPhase (.compute i)
  rw [hphase] at hpoint hmain hthread hrequested hsaved hclean
  have hp : Peer.InPhase cfg { s.peer (.compute i) with
      saved := (s.peer (.compute i)).saved ++ [item] } (.backed item) := by
    refine ⟨hpoint, hmain, hthread, hrequested, ?_, hclean⟩
    rw [if_pos hclient] at hsaved ⊢
    simp [hsaved, Phase.stored]
  refine ⟨_, h.move hp (fun _ => ⟨i, rfl⟩) ⟨ht, ?_, hpolling.update ht _⟩ ?_⟩
  · exact Function.update_self ..
  · rw [countP_update (by rw [hphase]; rfl)]
    exact h.stop_eq

/-- `NotifyThread(backup)` -/
theorem Tracked.notifyBackup (h : s.Tracked cfg phase) {t : ThreadId} {item : β}
    {rest : List ThreadId}
    (hknows : WorkerKnows cfg (fun t => (phase t).view) (.notifyBackup t item rest)) :
    ∃ phase', Tracked cfg
      ⟨.poll rest, s.stop, Function.update s.peer t { (s.peer t).notifyThread .backup with
        answered := (s.peer t).answered ++ [item] }⟩
      phase' := by
  obtain ⟨ht, hview, hpolling⟩ := hknows
  have hphase := Phase.eq_of_view hview rfl
  obtain ⟨hpoint, hmain, hthread, hrequested, hsaved, hclean⟩ := h.inPhase t
  rw [hphase] at hpoint hmain hthread hrequested hsaved hclean
  have hp : Peer.InPhase cfg { (s.peer t).notifyThread .backup with
      answered := (s.peer t).answered ++ [item] } .answering := by
    refine ⟨hpoint, hmain, ?_, ?_, ?_, hclean⟩
    · simp [Peer.notifyThread, hthread, Phase.toThread]
    · simpa [Peer.notifyThread, Phase.outstanding] using hrequested
    · simpa [Peer.notifyThread, Phase.stored] using hsaved
  have hasks : ∃ i, t = .compute i := h.asks t (by rw [hphase]; rfl)
  refine ⟨_, h.move hp (fun _ => hasks) ((hpolling.update ht _).release (.inl ?_)) ?_⟩
  · exact Function.update_self ..
  · rw [countP_update (by rw [hphase]; rfl)]
    exact h.stop_eq

/-- The end of the polling loop. -/
theorem Tracked.stopped_of_stop (h : s.Tracked cfg phase)
    (hpolling : Polling cfg (fun t => (phase t).view) none [])
    (hstop : s.stop = cfg.numComputeThread + 1) :
    ∀ t ∈ cfg.polled, (phase t).view = .stopped := by
  have hall := h.stop_eq
  rw [hstop, ← HandshakeConfig.length_polled, eq_comm, List.countP_eq_length] at hall
  intro t ht
  rcases hpolling.polled t ht nofun with hrunning | hstopped
  · have hcounted := hall t ht
    rw [show (phase t).view = .running from hrunning] at hcounted
    cases hcounted
  · exact hstopped

/-- The down thread's `WaitThread(finish)`. -/
theorem Tracked.waitDown (h : s.Tracked cfg phase)
    (hknows : WorkerKnows cfg (fun t => (phase t).view) .waitDown)
    (hstep : s.waitThread .down .finish (.notifyClean cfg.threads) = some s') :
    ∃ phase', s'.Tracked cfg phase' := by
  obtain ⟨hdown, hview, hpolled⟩ := hknows
  have hp := h.inPhase .down
  dsimp only at hview
  unfold waitThread at hstep
  rw [hp.toMain_eq] at hstep
  cases hphase : phase .down with
  | finishSent =>
      rw [hphase] at hstep hp
      obtain rfl := Option.some.inj hstep
      have hp' := hp.receive .stopped rfl rfl rfl rfl rfl rfl
      refine ⟨_, h.move hp' nofun ⟨[], rfl, nofun, ?_⟩ ?_⟩
      · intro t ht
        rcases HandshakeConfig.mem_threads_iff.mp ht with hmem | ⟨-, rfl⟩
        · exact forall_update HandshakeConfig.down_notMem_polled hpolled t hmem
        · exact Function.update_self ..
      · have hcount : cfg.polled.countP (fun t' => (Function.update (fun t' => (phase t').view)
            .down .stopped t').counted) = cfg.polled.countP fun t' => (phase t').view.counted := by
          apply List.countP_congr
          intro t' ht'
          rw [Function.update_of_ne
            (ne_of_mem_of_not_mem ht' HandshakeConfig.down_notMem_polled)]
        exact h.stop_eq.trans hcount.symm
  | requesting item =>
      obtain ⟨i, hi⟩ := h.asks .down (by rw [hphase]; rfl)
      cases hi
  | released | running | answering | leaving =>
      rw [hphase] at hstep
      cases hstep
  | _ =>
      rw [hphase] at hview
      cases hview

/-- `NotifyThread(clean)` -/
theorem Tracked.notifyClean (h : s.Tracked cfg phase) {t : ThreadId} {rest : List ThreadId}
    (hknows : WorkerKnows cfg (fun t => (phase t).view) (.notifyClean (t :: rest))) :
    ∃ phase', Tracked cfg
      ⟨.waitClean t rest, s.stop, Function.update s.peer t
        { (s.peer t).notifyThread .clean with cleanSent := true }⟩
      phase' := by
  obtain ⟨before, hthreads, hbefore, hrest⟩ := hknows
  obtain ⟨hnotBefore, hnotRest⟩ := notMem_of_threads_eq hthreads
  have hphase := Phase.eq_of_view (hrest t (List.mem_cons_self ..)) rfl
  obtain ⟨hpoint, hmain, hthread, hrequested, hsaved, -⟩ := h.inPhase t
  rw [hphase] at hpoint hmain hthread hrequested hsaved
  have hp : Peer.InPhase cfg { (s.peer t).notifyThread .clean with cleanSent := true }
      .cleanSent :=
    ⟨hpoint, hmain, by simp [Peer.notifyThread, hthread, Phase.toThread], hrequested, hsaved, rfl⟩
  refine ⟨_, h.move hp nofun ⟨before, hthreads, forall_update hnotBefore hbefore, ?_, ?_⟩ ?_⟩
  · exact Function.update_self ..
  · exact forall_update hnotRest fun t' ht' => hrest t' (List.mem_cons_of_mem _ ht')
  · rw [countP_update (by rw [hphase]; rfl)]
    exact h.stop_eq

/-- `WaitThread(finish)` after the clean command. -/
theorem Tracked.waitClean (h : s.Tracked cfg phase) {t : ThreadId} {rest : List ThreadId}
    (hknows : WorkerKnows cfg (fun t => (phase t).view) (.waitClean t rest))
    (hstep : s.waitThread t .finish (.notifyClean rest) = some s') :
    ∃ phase', s'.Tracked cfg phase' := by
  obtain ⟨before, hthreads, hbefore, hview, hrest⟩ := hknows
  obtain ⟨hnotBefore, hnotRest⟩ := notMem_of_threads_eq hthreads
  have hp := h.inPhase t
  dsimp only at hview
  unfold waitThread at hstep
  rw [hp.toMain_eq] at hstep
  cases hphase : phase t with
  | cleanSent | finishing =>
      rw [hphase] at hstep
      cases hstep
  | exitSent =>
      rw [hphase] at hstep hp
      obtain rfl := Option.some.inj hstep
      have hp' := hp.receive .closed rfl rfl rfl rfl rfl rfl
      refine ⟨_, h.move hp' nofun ⟨before ++ [t], by simp [hthreads],
        forall_update_append hnotBefore hbefore, forall_update hnotRest hrest⟩ ?_⟩
      rw [countP_update (by rw [hphase]; rfl)]
      exact h.stop_eq
  | _ =>
      rw [hphase] at hview
      cases hview

/-- A step of the worker that touches no thread. -/
theorem Tracked.goto (h : s.Tracked cfg phase) {worker : WorkerPoint β}
    (hknows : WorkerKnows cfg (fun t => (phase t).view) worker) :
    Tracked cfg { s with worker := worker } phase :=
  ⟨h.inPhase, h.asks, hknows, h.stop_eq⟩

/-- Every step of `Start` keeps the protocol. -/
theorem Tracked.workerStep (h : s.Tracked cfg phase) (hstep : s.workerStep cfg = some s') :
    ∃ phase', s'.Tracked cfg phase' := by
  have hknows := h.knows
  unfold Handshake.workerStep at hstep
  cases hworker : s.worker with
  | create rest =>
      rw [hworker] at hstep hknows
      cases rest with
      | nil =>
          obtain rfl := Option.some.inj hstep
          obtain ⟨before, hthreads, hbefore, -⟩ := hknows
          rw [List.append_nil] at hthreads
          rw [← hthreads] at hbefore
          exact ⟨phase, h.goto ⟨[], rfl, nofun, hbefore⟩⟩
      | cons t rest =>
          obtain rfl := Option.some.inj hstep
          exact h.create hknows
  | waitReady t rest =>
      rw [hworker] at hstep hknows
      exact h.waitReady hknows hstep
  | notifyReady rest =>
      rw [hworker] at hstep hknows
      cases rest with
      | nil =>
          obtain rfl := Option.some.inj hstep
          obtain ⟨before, hthreads, hbefore, -⟩ := hknows
          rw [List.append_nil] at hthreads
          rw [← hthreads] at hbefore
          have hpolled (t : ThreadId) (ht : t ∈ cfg.polled) : (phase t).view = .running :=
            hbefore t (HandshakeConfig.mem_threads_of_mem_polled ht)
          refine ⟨phase, h.inPhase, h.asks, ⟨?_, ?_, fun _ => id⟩, ?_⟩
          · exact fun t ht _ => .inl (hpolled t ht)
          · exact fun hdown => hbefore .down (HandshakeConfig.mem_threads_iff.mpr (.inr ⟨hdown, rfl⟩))
          · symm
            rw [List.countP_eq_zero]
            intro t ht
            rw [hpolled t ht]
            nofun
      | cons t rest =>
          obtain rfl := Option.some.inj hstep
          exact h.notifyReady hknows
  | poll rest =>
      rw [hworker] at hstep hknows
      cases rest with
      | nil =>
          obtain rfl := Option.some.inj hstep
          exact ⟨phase, h.goto hknows⟩
      | cons t rest =>
          cases hcmds : (s.peer t).threadToMain with
          | nil =>
              simp only [hcmds] at hstep
              obtain rfl := Option.some.inj hstep
              have hnext : Polling cfg (fun t => (phase t).view) none rest :=
                ⟨hknows.polled, hknows.down, fun t' ht' => hknows.rest t' (.tail _ ht')⟩
              exact ⟨phase, h.goto hnext⟩
          | cons cmd cmds =>
              simp only [hcmds] at hstep
              obtain rfl := Option.some.inj hstep
              exact h.poll hknows hcmds
  | makeBackup t item rest =>
      rw [hworker] at hstep hknows
      obtain rfl := Option.some.inj hstep
      exact h.makeBackup hknows
  | notifyBackup t item rest =>
      rw [hworker] at hstep hknows
      obtain rfl := Option.some.inj hstep
      exact h.notifyBackup hknows
  | checkStop =>
      rw [hworker] at hstep hknows
      dsimp only at hstep
      by_cases hstop : s.stop = cfg.numComputeThread + 1
      · rw [if_pos hstop] at hstep
        obtain rfl := Option.some.inj hstep
        have hstopped := h.stopped_of_stop hknows hstop
        refine ⟨phase, h.goto ?_⟩
        split_ifs with hdown
        · exact ⟨hdown, hknows.down hdown, hstopped⟩
        · refine ⟨[], rfl, nofun, fun t ht => ?_⟩
          rcases HandshakeConfig.mem_threads_iff.mp ht with hmem | ⟨hdown', -⟩
          · exact hstopped t hmem
          · exact absurd hdown' hdown
      · rw [if_neg hstop] at hstep
        obtain rfl := Option.some.inj hstep
        have hnext : Polling cfg (fun t => (phase t).view) none cfg.polled :=
          ⟨hknows.polled, hknows.down, fun _ => id⟩
        exact ⟨phase, h.goto hnext⟩
  | waitDown =>
      rw [hworker] at hstep hknows
      exact h.waitDown hknows hstep
  | notifyClean rest =>
      rw [hworker] at hstep hknows
      cases rest with
      | nil =>
          obtain rfl := Option.some.inj hstep
          obtain ⟨before, hthreads, hbefore, -⟩ := hknows
          rw [List.append_nil] at hthreads
          rw [← hthreads] at hbefore
          exact ⟨phase, h.goto hbefore⟩
      | cons t rest =>
          obtain rfl := Option.some.inj hstep
          exact h.notifyClean hknows
  | waitClean t rest =>
      rw [hworker] at hstep hknows
      exact h.waitClean hknows hstep
  | finished | aborted =>
      rw [hworker] at hstep
      cases hstep

/-- Every step of the system keeps the protocol. -/
theorem Tracked.step (h : s.Tracked cfg phase) {act : Act β}
    (hstep : Handshake.step cfg s act = some s') : ∃ phase', s'.Tracked cfg phase' := by
  cases act with
  | worker => exact h.workerStep hstep
  | advance t =>
      obtain ⟨p, hp, rfl⟩ := Option.map_eq_some_iff.mp hstep
      obtain ⟨phase', hp', hview, hasks⟩ := (h.inPhase t).advance hp
      exact ⟨_, h.setPeer hp' hview fun h' => h.asks t (hasks h')⟩
  | leaveMain t =>
      obtain ⟨p, hp, rfl⟩ := Option.map_eq_some_iff.mp hstep
      obtain ⟨phase', hp', hview, hasks⟩ := (h.inPhase t).leaveMain hp
      exact ⟨_, h.setPeer hp' hview fun h' => h.asks t (hasks h')⟩
  | request i item =>
      obtain ⟨p, hp, rfl⟩ := Option.map_eq_some_iff.mp hstep
      obtain ⟨phase', hp', hview⟩ := (h.inPhase (.compute i)).request hp
      exact ⟨_, h.setPeer hp' hview fun _ => ⟨i, rfl⟩⟩

theorem Tracked.reachable (hreach : (machine cfg).Reachable s) : ∃ phase, s.Tracked cfg phase := by
  refine Machine.Reachable.invariant (fun s => ∃ phase, s.Tracked cfg phase)
    ⟨_, tracked_create⟩ ?_ hreach
  rintro s act s' ⟨phase, h⟩ hstep
  exact h.step hstep

end Handshake

/-- `ThreadMainHandler` has returned. -/
def ThreadPoint.pastMain : ThreadPoint → Bool
  | .mainDone | .waitClean | .finishing | .exited => true
  | _ => false

/-- `ThreadMainHandler` has returned and the worker has not received the notification. -/
def Peer.finishPending {β : Type u} (p : Peer β) : Bool :=
  match p.point with
  | .mainDone => true
  | .waitClean => p.threadToMain.any fun cmd => cmd.type == .finish
  | _ => false

namespace Handshake

variable {β : Type u} {cfg : HandshakeConfig β} {s : Handshake β} {phase : ThreadId → Phase β}

/-- What the handshake guarantees in a state. -/
structure Safe (cfg : HandshakeConfig β) (s : Handshake β) : Prop where
  /-- No assertion on the type of a command has failed. -/
  worker : s.worker ≠ .aborted
  threads : ∀ t, (s.peer t).point ≠ .aborted
  /-- Requests are answered in order, once, and before the thread goes on. -/
  answered : ∀ i, ∃ pending, (s.peer (.compute i)).requested =
      (s.peer (.compute i)).answered ++ pending ∧ pending.length ≤ 1 ∧
    ((s.peer (.compute i)).point ≠ .waitBackup → pending = [])
  /-- What has been answered has been stored before. -/
  saved : cfg.hasBackupClient = true →
    ∀ i, (s.peer (.compute i)).answered <+: (s.peer (.compute i)).saved
  /-- The stop counter lags behind only by notifications that are still to be received. -/
  stop : cfg.polled.countP (fun t => (s.peer t).point.pastMain) =
    s.stop + cfg.polled.countP fun t => (s.peer t).finishPending
  /-- Nobody is told to clean up before all have finished. -/
  clean : ∀ t ∈ cfg.threads, (s.peer t).cleanSent = true →
    ∀ t' ∈ cfg.threads, (s.peer t').point.pastMain = true

/-- A thread that has left its main handler is counted or about to be. -/
theorem Tracked.pastMain (h : s.Tracked cfg phase) (t : ThreadId) :
    (s.peer t).point.pastMain = ((phase t).view.counted || (s.peer t).finishPending) ∧
      ((phase t).view.counted && (s.peer t).finishPending) = false := by
  have hp := h.inPhase t
  have hpending : (s.peer t).finishPending = match (phase t).point with
      | .mainDone => true
      | .waitClean => ((phase t).toMain cfg.uninit).any fun cmd => cmd.type == .finish
      | _ => false := by
    rw [Peer.finishPending, hp.point_eq, hp.toMain_eq]
  rw [hp.point_eq, hpending]
  cases phase t <;> exact ⟨rfl, rfl⟩

/-- The two ways of having left the main handler exclude each other. -/
theorem Tracked.countP_pastMain (h : s.Tracked cfg phase) (ts : List ThreadId) :
    ts.countP (fun t => (s.peer t).point.pastMain) =
      ts.countP (fun t => (phase t).view.counted) + ts.countP fun t => (s.peer t).finishPending := by
  induction ts with
  | nil => rfl
  | cons t rest ih =>
      obtain ⟨hor, hand⟩ := h.pastMain t
      have hhead : (if (s.peer t).point.pastMain then 1 else 0) =
          (if (phase t).view.counted then 1 else 0) + if (s.peer t).finishPending then 1 else 0 := by
        rw [hor]
        revert hand
        cases (phase t).view.counted <;> cases (s.peer t).finishPending <;> decide
      rw [List.countP_cons, List.countP_cons, List.countP_cons, ih, hhead]
      omega

/-- Once a thread has been told to clean up, the worker has heard of the end of all. -/
theorem WorkerKnows.counted {view : ThreadId → View β} {worker : WorkerPoint β}
    (h : WorkerKnows cfg view worker) {t : ThreadId} (ht : t ∈ cfg.threads)
    (hview : view t = .cleaned ∨ view t = .closed) :
    ∀ t' ∈ cfg.threads, (view t').counted = true := by
  have hnot (v : View β) (hv : view t = v) (hcleaned : v ≠ .cleaned) (hclosed : v ≠ .closed) :
      False := by
    rw [hv] at hview
    exact hview.elim hcleaned hclosed
  have hpolling (served : Option ThreadId) (rest : List ThreadId)
      (hpolling : Polling cfg view served rest) (hserved : served ≠ some t) : False := by
    rcases HandshakeConfig.mem_threads_iff.mp ht with hmem | ⟨hdown, rfl⟩
    · rcases hpolling.polled t hmem hserved with hv | hv
      · exact hnot _ hv nofun nofun
      · exact hnot _ hv nofun nofun
    · exact hnot _ (hpolling.down hdown) nofun nofun
  cases worker with
  | create rest =>
      obtain ⟨before, hthreads, hbefore, hrest⟩ := h
      rw [hthreads] at ht
      rcases List.mem_append.mp ht with hmem | hmem
      · exact (hnot _ (hbefore t hmem) nofun nofun).elim
      · exact (hnot _ (hrest t hmem) nofun nofun).elim
  | waitReady t₀ rest =>
      obtain ⟨before, hthreads, hbefore, hcreated, hrest⟩ := h
      rw [hthreads] at ht
      rcases List.mem_append.mp ht with hmem | hmem
      · exact (hnot _ (hbefore t hmem) nofun nofun).elim
      · rcases List.mem_cons.mp hmem with rfl | hmem
        · exact (hnot _ hcreated nofun nofun).elim
        · exact (hnot _ (hrest t hmem) nofun nofun).elim
  | notifyReady rest =>
      obtain ⟨before, hthreads, hbefore, hrest⟩ := h
      rw [hthreads] at ht
      rcases List.mem_append.mp ht with hmem | hmem
      · exact (hnot _ (hbefore t hmem) nofun nofun).elim
      · exact (hnot _ (hrest t hmem) nofun nofun).elim
  | poll rest => exact (hpolling none rest h nofun).elim
  | checkStop => exact (hpolling none [] h nofun).elim
  | makeBackup t₀ item rest =>
      obtain ⟨-, -, hbacking, hserving⟩ := h
      by_cases hsame : t₀ = t
      · subst hsame
        exact (hnot _ hbacking nofun nofun).elim
      · exact (hpolling _ rest hserving fun heq => hsame (Option.some.inj heq)).elim
  | notifyBackup t₀ item rest =>
      obtain ⟨-, hbacked, hserving⟩ := h
      by_cases hsame : t₀ = t
      · subst hsame
        exact (hnot _ hbacked nofun nofun).elim
      · exact (hpolling _ rest hserving fun heq => hsame (Option.some.inj heq)).elim
  | waitDown =>
      obtain ⟨-, hdown, hpolled⟩ := h
      rcases HandshakeConfig.mem_threads_iff.mp ht with hmem | ⟨-, rfl⟩
      · exact (hnot _ (hpolled t hmem) nofun nofun).elim
      · exact (hnot _ hdown nofun nofun).elim
  | notifyClean rest =>
      obtain ⟨before, hthreads, hbefore, hrest⟩ := h
      intro t' ht'
      rw [hthreads] at ht'
      rcases List.mem_append.mp ht' with hmem | hmem
      · rw [hbefore t' hmem]
        rfl
      · rw [hrest t' hmem]
        rfl
  | waitClean t₀ rest =>
      obtain ⟨before, hthreads, hbefore, hcleaned, hrest⟩ := h
      intro t' ht'
      rw [hthreads] at ht'
      rcases List.mem_append.mp ht' with hmem | hmem
      · rw [hbefore t' hmem]
        rfl
      · rcases List.mem_cons.mp hmem with rfl | hmem
        · rw [hcleaned]
          rfl
        · rw [hrest t' hmem]
          rfl
  | finished =>
      intro t' ht'
      rw [h t' ht']
      rfl
  | aborted => cases h

/-- The protocol implies all guarantees. -/
theorem Tracked.safe (h : s.Tracked cfg phase) : s.Safe cfg := by
  refine ⟨?_, ?_, ?_, ?_, ?_, ?_⟩
  · intro haborted
    have hknows := h.knows
    rw [haborted] at hknows
    exact hknows
  · intro t
    rw [(h.inPhase t).point_eq]
    cases phase t <;> nofun
  · intro i
    have hp := h.inPhase (.compute i)
    refine ⟨_, hp.requested_eq, ?_, ?_⟩
    · cases phase (.compute i) <;> simp [Phase.outstanding]
    · rw [hp.point_eq]
      cases phase (.compute i) <;> simp [Phase.point, Phase.outstanding]
  · intro hclient i
    have hp := h.inPhase (.compute i)
    rw [hp.saved_eq, if_pos hclient]
    exact List.prefix_append _ _
  · rw [h.countP_pastMain, h.stop_eq]
  · intro t ht hclean
    rw [(h.inPhase t).cleanSent_eq] at hclean
    have hview : (phase t).view = .cleaned ∨ (phase t).view = .closed := by
      revert hclean
      cases phase t <;> simp [Phase.cleaned, Phase.view]
    intro t' ht'
    rw [(h.pastMain t').1, h.knows.counted ht hview t' ht']
    rfl

/-- **The control handshake.** For any number of compute threads, with or without a down
thread and a backup client, and in every interleaving of the worker with its threads: no
assertion on the type of a command fails; a backup request is answered once, before the
thread goes on and, with a backup client, after `MakeBackup` has returned; the stop counter
and the notifications that are still to be received together count the up and compute
threads whose main handler has returned; the clean command is sent only after the main
handlers of all threads have returned. -/
theorem safe_reachable (cfg : HandshakeConfig β) {s : Handshake β}
    (hreach : (machine cfg).Reachable s) : s.Safe cfg := by
  obtain ⟨phase, h⟩ := Tracked.reachable hreach
  exact h.safe

/-- A run of one compute thread up to a backup that has been stored and not yet answered. -/
theorem safe_reachable_backup :
    ∃ s, (machine ⟨1, false, true, 0⟩).runFrom (create ⟨1, false, true, 0⟩)
        [.worker, .advance .up, .worker, .worker, .advance (.compute 0), .worker, .worker,
          .worker, .worker, .advance (.compute 0), .request 0 7, .worker, .worker, .worker,
          .worker] = some s ∧
      (s.peer (.compute 0)).saved = [7] ∧ (s.peer (.compute 0)).answered = [] ∧
      s.Safe ⟨1, false, true, 0⟩ := by
  have hrun : ((machine ⟨1, false, true, 0⟩).runFrom (create ⟨1, false, true, 0⟩)
      [.worker, .advance .up, .worker, .worker, .advance (.compute 0), .worker, .worker,
        .worker, .worker, .advance (.compute 0), .request 0 7, .worker, .worker, .worker,
        .worker]).map (fun s => ((s.peer (.compute 0)).saved, (s.peer (.compute 0)).answered)) =
      some ([7], []) := by
    decide +kernel
  obtain ⟨s, hs, hlogs⟩ := Option.map_eq_some_iff.mp hrun
  obtain ⟨hsaved, hanswered⟩ := Prod.mk.inj hlogs
  exact ⟨s, hs, hsaved, hanswered, safe_reachable _ ⟨_, hs⟩⟩

/-- The up thread has left its main handler and the worker does not know it yet. -/
theorem stop_lags_behind :
    ∃ s, (machine ⟨1, false, true, 0⟩).Reachable s ∧
      s.stop ≠ (HandshakeConfig.polled ⟨1, false, true, 0⟩).countP fun t =>
        (s.peer t).point.pastMain := by
  have hrun : ((machine ⟨1, false, true, 0⟩).runFrom (create ⟨1, false, true, 0⟩)
      [.worker, .advance .up, .worker, .worker, .advance (.compute 0), .worker, .worker,
        .worker, .advance .up, .leaveMain .up]).map (fun s => (s.stop,
          (HandshakeConfig.polled ⟨1, false, true, 0⟩).countP fun t =>
            (s.peer t).point.pastMain)) = some (0, 1) := by
    decide +kernel
  obtain ⟨s, hs, hcounts⟩ := Option.map_eq_some_iff.mp hrun
  obtain ⟨hstop, hcount⟩ := Prod.mk.inj hcounts
  refine ⟨s, ⟨_, hs⟩, ?_⟩
  rw [hstop, hcount]
  decide

end Handshake

end AFStream.Thread

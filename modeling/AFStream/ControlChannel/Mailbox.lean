/-
# Mailboxes

Any number of threads send commands to a mailbox, and one thread receives them. A mutex keeps the
senders apart while they use the pipe; a sender that finds the receiver asleep wakes it with a
signal, but only after it has released the mutex. The receiver stays active, without looking at the
signaler, as long as there are commands; then it takes back the signal that woke it, and may find
that the next one has arrived already. The module follows the senders and the receiver from one
access of shared memory to the next and proves that no assertion fails, that commands arrive once
and in the order in which they were written, and that no wake-up is lost.
-/

import AFStream.ControlChannel.YPipe

namespace AFStream.ControlChannel

open AFStream.Foundation

universe u

/-- Where a thread stands in `mailbox_t::send`. -/
inductive SendPoint (T : Type u)
  | idle
  | /-- Before `sync.lock ()`. -/
    lock (cmd : T)
  | write (cmd : T)
  | flush
  | /-- In `flush`, whose compare-and-swap has failed. -/
    set
  | unlock (ok : Bool)
  | /-- Before `signaler.send ()`. -/
    signal
  deriving DecidableEq, Repr

/-- Where the receiver stands in `mailbox_t::recv`. -/
inductive RecvPoint
  | idle
  | /-- Active: it tries to get a command straight away. -/
    read
  | /-- In `signaler.recv ()`. -/
    drain
  | /-- In `signaler.recv ()`: it has grabbed the next signal along with the current one. -/
    restore
  | /-- In `signaler.wait ()`. -/
    wait
  | /-- It has got the signal. -/
    readSignalled
  | /-- An assertion has failed. -/
    aborted
  deriving DecidableEq, Repr

/-- `mailbox_t`, with the threads that use it. -/
structure Mailbox (T : Type u) where
  cpipe : YPipe T
  /-- The counter of the `eventfd` of the signaler. -/
  signaler : ℕ
  /-- The sender that holds the mutex. -/
  sync : Option ℕ
  active : Bool
  senders : ℕ → SendPoint T
  receiver : RecvPoint
  /-- The receiver waits without a timeout. -/
  forever : Bool
  /-- The commands in the order in which they were written. -/
  sent : List T
  /-- What the calls of `recv` have returned, where nothing stands for `-1`. -/
  returned : List (Option T)
  /-- The pipe has used memory that is not there. -/
  faulted : Bool

namespace Mailbox

variable {T : Type u}

/-- A mailbox that nobody uses. The constructor has read from the pipe once. -/
def create (cpipe : YPipe T) : Mailbox T where
  cpipe := cpipe
  signaler := 0
  sync := none
  active := false
  senders := fun _ => .idle
  receiver := .idle
  forever := false
  sent := []
  returned := []
  faulted := false

/-- The constructor; its assertion fails if the new pipe returns something. -/
def construct (N : ℕ) (first second : Malloc T) : Option (Mailbox T) :=
  ((YPipe.create N first second).bind (YPipe.read N)).bind fun
    | (none, cpipe) => some (create cpipe)
    | (some _, _) => none

variable (N : ℕ) (m : Mailbox T)

/-- A sender goes on. -/
def setSender (i : ℕ) (point : SendPoint T) : Mailbox T :=
  { m with senders := Function.update m.senders i point }

/-- One step of `send`. -/
def sendStep (i : ℕ) (malloc : Malloc T) : Option (Mailbox T) :=
  match m.senders i with
  | .idle => none
  | .lock cmd =>
      if m.sync = none then some { m.setSender i (.write cmd) with sync := some i } else none
  | .write cmd =>
      if m.cpipe.queue.heap.Live malloc.addr then none
      else
        match m.cpipe.write N cmd false malloc with
        | some cpipe =>
            some { m.setSender i .flush with cpipe := cpipe, sent := m.sent ++ [cmd] }
        | none => some { m with faulted := true }
  | .flush =>
      match m.cpipe.flushCas with
      | (some ok, cpipe) => some { m.setSender i (.unlock ok) with cpipe := cpipe }
      | (none, _) => some (m.setSender i .set)
  | .set => some { m.setSender i (.unlock false) with cpipe := m.cpipe.flushSet }
  | .unlock ok => some { m.setSender i (if ok then .idle else .signal) with sync := none }
  | .signal => some { m.setSender i .idle with signaler := m.signaler + 1 }

/-- `recv` returns. -/
def ret (result : Option T) : Mailbox T :=
  { m with receiver := .idle, returned := m.returned ++ [result] }

/-- One step of `recv`; it blocks in `signaler.wait ()` while there is no signal. -/
def recvStep : Option (Mailbox T) :=
  match m.receiver with
  | .idle => none
  | .read =>
      match m.cpipe.read N with
      | some (some cmd, cpipe) => some { m.ret (some cmd) with cpipe := cpipe }
      | some (none, cpipe) => some { m with cpipe := cpipe, active := false, receiver := .drain }
      | none => some { m with faulted := true }
  | .drain =>
      match m.signaler with
      | 1 => some { m with signaler := 0, receiver := .wait }
      | 2 => some { m with signaler := 0, receiver := .restore }
      | _ => some { m with receiver := .aborted }
  | .restore => some { m with signaler := m.signaler + 1, receiver := .wait }
  | .wait =>
      if 0 < m.signaler then some { m with active := true, receiver := .readSignalled } else none
  | .readSignalled =>
      match m.cpipe.read N with
      | some (some cmd, cpipe) => some { m.ret (some cmd) with cpipe := cpipe }
      | some (none, cpipe) => some { m with cpipe := cpipe, receiver := .aborted }
      | none => some { m with faulted := true }
  | .aborted => none

/-- What happens next. -/
inductive Action (T : Type u)
  | /-- Thread `i` calls `send`. -/
    send (i : ℕ) (cmd : T)
  | sender (i : ℕ) (malloc : Malloc T)
  | /-- The receiving thread calls `recv`. -/
    recv (forever : Bool)
  | receiver
  | /-- The time of `recv` is over and there is no signal. -/
    timeout
  | /-- The wait for a signal is interrupted. -/
    interrupt

/-- One step of one of `n` senders or of the receiver. -/
def step (n : ℕ) : Action T → Option (Mailbox T)
  | .send i cmd =>
      match m.senders i with
      | .idle => if i < n then some (m.setSender i (.lock cmd)) else none
      | _ => none
  | .sender i malloc => m.sendStep N i malloc
  | .recv forever =>
      if m.receiver = .idle then
        some { m with forever := forever, receiver := if m.active then .read else .wait }
      else none
  | .receiver => m.recvStep N
  | .timeout =>
      if m.receiver = .wait ∧ m.forever = false ∧ m.signaler = 0 then some (m.ret none) else none
  | .interrupt => if m.receiver = .wait then some (m.ret none) else none

/-- Every interleaving of `n` senders and the receiver. -/
def machine (n : ℕ) (start : Mailbox T) : Machine (Mailbox T) (Action T) where
  init := start
  step := fun m => m.step N n

/-- The commands that have been received. -/
def received : List T := m.returned.filterMap id

end Mailbox

/-! ## Signals -/

namespace SendPoint

variable {T : Type u}

/-- The thread holds the mutex. -/
def holds : SendPoint T → Bool
  | .write _ | .flush | .set | .unlock _ => true
  | _ => false

/-- The signals that the thread still has to send. -/
def owes : SendPoint T → ℕ
  | .unlock false | .signal => 1
  | _ => 0

/-- The thread is going to send a signal. Before its compare-and-swap that depends on `c`, which is
null if the reader is asleep. -/
def Wakes (c : Option Cell) : SendPoint T → Prop
  | .flush => c = none
  | .set | .unlock false | .signal => True
  | _ => False

/-- The commands that the thread has written and not yet published. -/
def unflushed : SendPoint T → ℕ
  | .flush | .set => 1
  | _ => 0

end SendPoint

namespace RecvPoint

/-- The signals that the receiver has taken and is going to give back. -/
def restores : RecvPoint → ℕ
  | .restore => 1
  | _ => 0

/-- The signals that the receiver is going to take. -/
def drains : RecvPoint → ℕ
  | .drain => 1
  | _ => 0

/-- The receiver is between two calls or inside a part of `recv` that it enters when it is
active, or passive. -/
def Fits : RecvPoint → Bool → Prop
  | .idle, _ => True
  | .read, active | .readSignalled, active => active = true
  | .drain, active | .restore, active | .wait, active => active = false
  | .aborted, _ => False

end RecvPoint

namespace Mailbox

variable {T : Type u} {N n : ℕ} {m m' : Mailbox T} {p : Pipe T}

/-- The signals that senders have still to send. -/
def owed (n : ℕ) (senders : ℕ → SendPoint T) : ℕ := ∑ i ∈ Finset.range n, (senders i).owes

/-- The commands that the holder of the mutex has written and not yet published. -/
def unflushed (m : Mailbox T) : ℕ :=
  match m.sync with
  | some i => (m.senders i).unflushed
  | none => 0

/-- **The invariant.** The pipe is the list `p`. The signals that have been sent, are owed or are to
be given back are one if the reader of the pipe is awake, and one more while the receiver is about
to take one. If the receiver is active then it has been signalled; if it is passive and awake then
there is a command for it. -/
structure Inv (N n : ℕ) (m : Mailbox T) (p : Pipe T) : Prop where
  refines : YPipe.Refines N m.cpipe p
  faulted_eq : m.faulted = false
  log_eq : p.log = m.sent
  received_eq : m.received = m.sent.take p.taken
  taken_le : p.taken ≤ p.flushed
  complete_eq : p.complete = p.log.length
  flushed_eq : p.flushed + m.unflushed = p.log.length
  holds_iff : ∀ i, (m.senders i).holds = true ↔ m.sync = some i
  outside : ∀ i, n ≤ i → m.senders i = .idle
  setting : ∀ i, m.senders i = .set → p.asleep = true
  signals_eq : m.signaler + owed n m.senders + m.receiver.restores =
    (if p.asleep then 0 else 1) + m.receiver.drains
  fits : m.receiver.Fits m.active
  signalled : m.active = true → p.asleep = false ∧ 1 ≤ m.signaler
  draining : m.receiver = .drain → 1 ≤ m.signaler
  reading : m.receiver = .readSignalled → p.taken < p.flushed
  passive : m.active = false → p.asleep = false → p.taken < p.flushed

/-- One sender goes on. -/
theorem owed_update (senders : ℕ → SendPoint T) {i : ℕ} (hi : i < n) (point : SendPoint T) :
    owed n (Function.update senders i point) + (senders i).owes = owed n senders + point.owes := by
  have hmem : i ∈ Finset.range n := Finset.mem_range.mpr hi
  have hrest : ∑ j ∈ (Finset.range n).erase i, (Function.update senders i point j).owes =
      ∑ j ∈ (Finset.range n).erase i, (senders j).owes := by
    refine Finset.sum_congr rfl fun j hj => ?_
    rw [Function.update_of_ne (Finset.ne_of_mem_erase hj)]
  rw [owed, owed, ← Finset.add_sum_erase _ _ hmem, ← Finset.add_sum_erase _ _ hmem, hrest,
    Function.update_self]
  omega

/-- A thread that does something is one of the senders. -/
theorem Inv.sender_lt (h : Inv N n m p) {i : ℕ} (hi : m.senders i ≠ .idle) : i < n := by
  by_contra hge
  exact hi (h.outside i (Nat.le_of_not_lt hge))

/-- Only the holder of the mutex is inside the pipe. -/
theorem Inv.unflushed_eq (h : Inv N n m p) {i : ℕ} (hi : (m.senders i).holds = true) :
    m.unflushed = (m.senders i).unflushed := by
  rw [unflushed, (h.holds_iff i).mp hi]

/-- A sender goes on to `point`: who holds the mutex then, and what stays as it is. -/
structure Moved (n : ℕ) (m : Mailbox T) (i : ℕ) (point : SendPoint T) (m' : Mailbox T) :
    Prop where
  lt : i < n
  senders_eq : m'.senders = Function.update m.senders i point
  sync_eq : m'.sync = if point.holds then some i else if (m.senders i).holds then none else m.sync
  free : point.holds = true → (m.senders i).holds = false → m.sync = none
  receiver_eq : m'.receiver = m.receiver
  active_eq : m'.active = m.active
  returned_eq : m'.returned = m.returned
  faulted_eq : m'.faulted = m.faulted

namespace Moved

variable {i : ℕ} {point : SendPoint T} {p' : Pipe T}

theorem holds_iff (h : Inv N n m p) (hmoved : Moved n m i point m') (j : ℕ) :
    (m'.senders j).holds = true ↔ m'.sync = some j := by
  rw [hmoved.senders_eq, hmoved.sync_eq]
  by_cases hji : j = i
  · subst hji
    rw [Function.update_self]
    by_cases hpoint : point.holds = true
    · simp [hpoint]
    · rw [if_neg hpoint]
      have hfalse : (if (m.senders j).holds = true then none else m.sync) ≠ some j := by
        split_ifs with hold
        · exact (Option.some_ne_none _).symm
        · exact mt (h.holds_iff j).mpr hold
      simp [hpoint, hfalse]
  · rw [Function.update_of_ne hji, h.holds_iff]
    by_cases hpoint : point.holds = true
    · rw [if_pos hpoint]
      cases hold : (m.senders i).holds with
      | true => rw [(h.holds_iff i).mp hold]
      | false =>
          rw [hmoved.free hpoint hold]
          simp [Ne.symm hji]
    · rw [if_neg hpoint]
      cases hold : (m.senders i).holds with
      | true =>
          rw [(h.holds_iff i).mp hold]
          simp [Ne.symm hji]
      | false => simp

/-- What is written and not published after the step. -/
theorem unflushed_eq (h : Inv N n m p) (hmoved : Moved n m i point m') :
    m'.unflushed = if point.holds then point.unflushed
      else if (m.senders i).holds then 0 else m.unflushed := by
  rw [unflushed, hmoved.sync_eq]
  by_cases hpoint : point.holds = true
  · rw [if_pos hpoint, if_pos hpoint, hmoved.senders_eq]
    dsimp only
    rw [Function.update_self]
  · rw [if_neg hpoint, if_neg hpoint]
    by_cases hold : (m.senders i).holds = true
    · rw [if_pos hold, if_pos hold]
    · rw [if_neg hold, if_neg hold, unflushed]
      cases hsync : m.sync with
      | none => rfl
      | some j =>
          have hji : j ≠ i := by
            rintro rfl
            exact hold ((h.holds_iff j).mpr hsync)
          dsimp only
          rw [hmoved.senders_eq, Function.update_of_ne hji]

/-- **A sender's step** keeps the invariant if it publishes no more than it has written and changes
the signals and the state of the reader together. -/
theorem inv (h : Inv N n m p) (hmoved : Moved n m i point m')
    (hrefines : YPipe.Refines N m'.cpipe p') (hlog : p'.log = m'.sent)
    (hsent : m.sent <+: m'.sent) (htaken : p'.taken = p.taken)
    (hcomplete : p'.complete = p'.log.length)
    (hflushed : p'.flushed + m'.unflushed = p'.log.length) (hmore : p.flushed ≤ p'.flushed)
    (hasleep : p'.asleep = p.asleep ∨
      ((m.senders i).holds = true ∧ p'.asleep = false ∧ p.flushed < p'.flushed))
    (hset : point = .set → p'.asleep = true)
    (hsignals : m'.signaler + point.owes + (if p.asleep then 0 else 1) =
      m.signaler + (m.senders i).owes + (if p'.asleep then 0 else 1))
    (hsignaler : m.signaler ≤ m'.signaler) : Inv N n m' p' := by
  have hle : p.taken ≤ m.sent.length := by
    have := h.taken_le
    have := h.flushed_eq
    rw [h.log_eq] at this
    omega
  have hawake : p.asleep = false → p'.asleep = false := by
    intro hp
    rcases hasleep with heq | ⟨-, heq, -⟩
    · rw [heq, hp]
    · exact heq
  exact {
    refines := hrefines
    faulted_eq := hmoved.faulted_eq.trans h.faulted_eq
    log_eq := hlog
    received_eq := by
      obtain ⟨more, hsent⟩ := hsent
      rw [received, hmoved.returned_eq, htaken, ← hsent, List.take_append_of_le_length hle]
      exact h.received_eq
    taken_le := by
      rw [htaken]
      exact h.taken_le.trans hmore
    complete_eq := hcomplete
    flushed_eq := hflushed
    holds_iff := hmoved.holds_iff h
    outside := by
      intro j hj
      rw [hmoved.senders_eq, Function.update_of_ne (by have := hmoved.lt; omega)]
      exact h.outside j hj
    setting := by
      intro j hj
      rw [hmoved.senders_eq] at hj
      by_cases hji : j = i
      · subst hji
        rw [Function.update_self] at hj
        exact hset hj
      · rw [Function.update_of_ne hji] at hj
        rcases hasleep with heq | ⟨hold, -⟩
        · rw [heq]
          exact h.setting j hj
        · have hholds : (m.senders j).holds = true := by rw [hj]; rfl
          have hsync := (h.holds_iff i).mp hold
          rw [(h.holds_iff j).mp hholds] at hsync
          exact absurd (Option.some.inj hsync) hji
    signals_eq := by
      have howed := owed_update m.senders hmoved.lt point
      have hold := h.signals_eq
      rw [hmoved.senders_eq, hmoved.receiver_eq]
      omega
    fits := by
      rw [hmoved.receiver_eq, hmoved.active_eq]
      exact h.fits
    signalled := by
      rw [hmoved.active_eq]
      exact fun hactive => ⟨hawake (h.signalled hactive).1,
        (h.signalled hactive).2.trans hsignaler⟩
    draining := by
      rw [hmoved.receiver_eq]
      exact fun hdrain => (h.draining hdrain).trans hsignaler
    reading := by
      rw [hmoved.receiver_eq, htaken]
      exact fun hreading => (h.reading hreading).trans_le hmore
    passive := by
      rw [hmoved.active_eq, htaken]
      intro hactive hp'
      rcases hasleep with heq | ⟨-, -, hlt⟩
      · exact (h.passive hactive (heq.symm.trans hp')).trans_le hmore
      · exact h.taken_le.trans_lt hlt }

end Moved

/-- A thread that holds the mutex, or waits for it, is one of the senders. -/
theorem Inv.lt_of_point (h : Inv N n m p) {i : ℕ} {point : SendPoint T}
    (hpoint : m.senders i = point) (hidle : point ≠ .idle) : i < n :=
  h.sender_lt (hpoint ▸ hidle)

/-- A step that does not touch the pipe. -/
theorem Inv.move (h : Inv N n m p) {i : ℕ} {point : SendPoint T} (hmoved : Moved n m i point m')
    (hcpipe : m'.cpipe = m.cpipe) (hsent : m'.sent = m.sent)
    (hunflushed : m'.unflushed = m.unflushed) (hset : point ≠ .set)
    (hsignals : m'.signaler + point.owes = m.signaler + (m.senders i).owes)
    (hsignaler : m.signaler ≤ m'.signaler) : Inv N n m' p := by
  refine hmoved.inv h (hcpipe ▸ h.refines) (h.log_eq.trans hsent.symm) (by rw [hsent]) rfl
    h.complete_eq ?_ le_rfl (.inl rfl) (fun heq => absurd heq hset) ?_ hsignaler
  · rw [hunflushed]
    exact h.flushed_eq
  · rw [hsignals]

/-- The holder of the mutex writes its command. -/
theorem Inv.write (hN : 0 < N) (h : Inv N n m p) {i : ℕ} {cmd : T} {malloc : Malloc T}
    (hpoint : m.senders i = .write cmd) (hmalloc : ¬ m.cpipe.queue.heap.Live malloc.addr) :
    ∃ cpipe, m.cpipe.write N cmd false malloc = some cpipe ∧
      Inv N n { m.setSender i .flush with cpipe := cpipe, sent := m.sent ++ [cmd] }
        (p.write cmd false) := by
  obtain ⟨cpipe, hwrite, hrefines⟩ := h.refines.exists_write hN cmd false hmalloc
  have hholds : (m.senders i).holds = true := by rw [hpoint]; rfl
  have hmoved : Moved n m i .flush
      { m.setSender i .flush with cpipe := cpipe, sent := m.sent ++ [cmd] } :=
    ⟨h.lt_of_point hpoint (by simp), rfl, (h.holds_iff i).mp hholds,
      fun _ hfalse => absurd (hholds.symm.trans hfalse) Bool.false_ne_true.symm,
      rfl, rfl, rfl, rfl⟩
  have hold : m.unflushed = 0 := by rw [h.unflushed_eq hholds, hpoint]; rfl
  have hflushed := h.flushed_eq
  have hlength : (p.write cmd false).log.length = p.log.length + 1 := by
    rw [Pipe.write, List.length_append, List.length_singleton]
  refine ⟨cpipe, hwrite, hmoved.inv h hrefines ?_ ⟨[cmd], rfl⟩ rfl ?_ ?_ le_rfl (.inl rfl)
    (by simp) (by rw [hpoint]; rfl) le_rfl⟩
  · rw [Pipe.write, h.log_eq]
  · rw [hlength]
    rfl
  · rw [hmoved.unflushed_eq h, hlength, ← hflushed, hold]
    rfl

/-- The holder of the mutex publishes its command, and owes a signal if the reader was asleep. -/
theorem Inv.publish (h : Inv N n m p) {i : ℕ} (hholds : (m.senders i).holds = true)
    (howes : (m.senders i).owes = 0) (hnew : (m.senders i).unflushed = 1) {cpipe : YPipe T}
    (hrefines : YPipe.Refines N cpipe p.flush.2) :
    Inv N n { m.setSender i (.unlock (!p.asleep)) with cpipe := cpipe } p.flush.2 := by
  have hflushed := h.flushed_eq
  rw [h.unflushed_eq hholds, hnew] at hflushed
  have hcomplete := h.complete_eq
  have hflush : p.flush.2 = { p with flushed := p.complete, asleep := false } := by
    rw [Pipe.flush, if_neg (by omega)]
  have hlt : i < n := h.sender_lt fun hidle => by
    rw [hidle] at hholds
    cases hholds
  have hmoved : Moved n m i (.unlock (!p.asleep))
      { m.setSender i (.unlock (!p.asleep)) with cpipe := cpipe } :=
    ⟨hlt, rfl, (h.holds_iff i).mp hholds,
      fun _ hfalse => absurd (hholds.symm.trans hfalse) Bool.false_ne_true.symm,
      rfl, rfl, rfl, rfl⟩
  rw [hflush] at hrefines ⊢
  refine hmoved.inv h hrefines h.log_eq (List.prefix_refl _) rfl hcomplete ?_ ?_ ?_ (by simp) ?_
    le_rfl
  · rw [hmoved.unflushed_eq h]
    exact hcomplete
  · dsimp only
    omega
  · refine .inr ⟨hholds, rfl, ?_⟩
    dsimp only
    omega
  · rw [howes]
    cases p.asleep <;> rfl

/-- The holder of the mutex publishes its command to a reader that is awake, or finds it asleep. -/
theorem Inv.flush (h : Inv N n m p) {i : ℕ} (hpoint : m.senders i = .flush) :
    (∃ cpipe, m.cpipe.flushCas = (some true, cpipe) ∧
      Inv N n { m.setSender i (.unlock true) with cpipe := cpipe } p.flush.2) ∨
    (m.cpipe.flushCas = (none, m.cpipe) ∧ Inv N n (m.setSender i .set) p) := by
  have hholds : (m.senders i).holds = true := by rw [hpoint]; rfl
  have hnew : (m.senders i).unflushed = 1 := by rw [hpoint]; rfl
  have hold : m.unflushed = 1 := (h.unflushed_eq hholds).trans hnew
  have hflushed := h.flushed_eq
  have hcomplete := h.complete_eq
  rcases h.refines.flushCas_cases with ⟨cpipe, hcas, hawake, hrefines⟩ | ⟨hcas, -, hasleep⟩
  · have hp : p.asleep = false := by
      rw [Pipe.flush, if_neg (by omega)] at hawake
      simpa using hawake
    have hinv := h.publish hholds (by rw [hpoint]; rfl) hnew hrefines
    rw [hp] at hinv
    exact .inl ⟨cpipe, hcas, hinv⟩
  · have hmoved : Moved n m i .set (m.setSender i .set) :=
      ⟨h.lt_of_point hpoint (by simp), rfl, (h.holds_iff i).mp hholds,
        fun _ hfalse => absurd (hholds.symm.trans hfalse) Bool.false_ne_true.symm,
        rfl, rfl, rfl, rfl⟩
    refine .inr ⟨hcas, hmoved.inv h h.refines h.log_eq (List.prefix_refl _) rfl hcomplete ?_ le_rfl
      (.inl rfl) (fun _ => hasleep) (by rw [hpoint]; rfl) le_rfl⟩
    rw [hmoved.unflushed_eq h, ← hflushed, hold]
    rfl

/-- The holder of the mutex publishes its command to a reader that is asleep, and owes a signal. -/
theorem Inv.set (h : Inv N n m p) {i : ℕ} (hpoint : m.senders i = .set) :
    Inv N n { m.setSender i (.unlock false) with cpipe := m.cpipe.flushSet } p.flush.2 := by
  have hholds : (m.senders i).holds = true := by rw [hpoint]; rfl
  have hnew : (m.senders i).unflushed = 1 := by rw [hpoint]; rfl
  have hasleep := h.setting i hpoint
  have hpart : p.flushed ≠ p.complete := by
    have hold := h.flushed_eq
    rw [h.unflushed_eq hholds, hnew] at hold
    have hcomplete := h.complete_eq
    omega
  have hinv := h.publish hholds (by rw [hpoint]; rfl) hnew (h.refines.flushSet hpart hasleep).2
  rwa [hasleep] at hinv

/-- Every step of a sender keeps the invariant. -/
theorem Inv.sendStep (hN : 0 < N) (h : Inv N n m p) {i : ℕ} {malloc : Malloc T}
    (hstep : m.sendStep N i malloc = some m') : ∃ p', Inv N n m' p' := by
  rw [Mailbox.sendStep] at hstep
  cases hpoint : m.senders i with
  | idle =>
      rw [hpoint] at hstep
      cases hstep
  | lock cmd =>
      rw [hpoint] at hstep
      obtain ⟨hsync, hstep⟩ := Option.ite_none_right_eq_some.mp hstep
      obtain rfl := Option.some.inj hstep
      have hmoved : Moved n m i (.write cmd) { m.setSender i (.write cmd) with sync := some i } :=
        ⟨h.lt_of_point hpoint (by simp), rfl, rfl, fun _ _ => hsync, rfl, rfl, rfl, rfl⟩
      refine ⟨p, h.move hmoved rfl rfl ?_ (by simp) (by rw [hpoint]; rfl) le_rfl⟩
      rw [hmoved.unflushed_eq h, unflushed, hsync]
      rfl
  | write cmd =>
      rw [hpoint] at hstep
      dsimp only at hstep
      split_ifs at hstep with hmalloc
      obtain ⟨cpipe, hwrite, hinv⟩ := h.write hN hpoint hmalloc
      rw [hwrite] at hstep
      obtain rfl := Option.some.inj hstep
      exact ⟨_, hinv⟩
  | flush =>
      rw [hpoint] at hstep
      dsimp only at hstep
      rcases h.flush hpoint with ⟨cpipe, hcas, hinv⟩ | ⟨hcas, hinv⟩
      · rw [hcas] at hstep
        obtain rfl := Option.some.inj hstep
        exact ⟨_, hinv⟩
      · rw [hcas] at hstep
        obtain rfl := Option.some.inj hstep
        exact ⟨_, hinv⟩
  | set =>
      rw [hpoint] at hstep
      obtain rfl := Option.some.inj hstep
      exact ⟨_, h.set hpoint⟩
  | unlock ok =>
      rw [hpoint] at hstep
      obtain rfl := Option.some.inj hstep
      have hholds : (m.senders i).holds = true := by rw [hpoint]; rfl
      have hfalse :
          SendPoint.holds (if ok then SendPoint.idle else .signal : SendPoint T) = false := by
        cases ok <;> rfl
      have hmoved : Moved n m i (if ok then .idle else .signal)
          { m.setSender i (if ok then .idle else .signal) with sync := none } :=
        ⟨h.lt_of_point hpoint (by simp), rfl, by simp [hfalse, hholds],
          fun htrue => absurd (hfalse.symm.trans htrue) Bool.false_ne_true, rfl, rfl, rfl, rfl⟩
      refine ⟨p, h.move hmoved rfl rfl ?_ (by cases ok <;> simp) ?_ le_rfl⟩
      · rw [h.unflushed_eq hholds, hpoint]
        rfl
      · rw [hpoint]
        cases ok <;> rfl
  | signal =>
      rw [hpoint] at hstep
      obtain rfl := Option.some.inj hstep
      have hholds : (m.senders i).holds = false := by rw [hpoint]; rfl
      have hmoved : Moved n m i .idle { m.setSender i .idle with signaler := m.signaler + 1 } :=
        ⟨h.lt_of_point hpoint (by simp), rfl, by rw [hholds]; rfl,
          fun htrue => absurd htrue (by simp [SendPoint.holds]), rfl, rfl, rfl, rfl⟩
      refine ⟨p, h.move hmoved rfl rfl ?_ (by simp) (by rw [hpoint]; rfl) (Nat.le_succ _)⟩
      rw [hmoved.unflushed_eq h, hholds]
      rfl

/-! ## The receiver -/

/-- The receiver gets the oldest command that it has not yet received. -/
theorem Inv.read_command (hN : 0 < N) (h : Inv N n m p) (hsome : p.taken < p.flushed)
    (hactive : m.active = true) (hrestores : m.receiver.restores = 0)
    (hdrains : m.receiver.drains = 0) :
    ∃ cmd cpipe, m.cpipe.read N = some (some cmd, cpipe) ∧ m.sent[p.taken]? = some cmd ∧
      Inv N n { m.ret (some cmd) with cpipe := cpipe } p.read.2 := by
  have hflushed := h.flushed_eq
  have hlt : p.taken < m.sent.length := by
    rw [← h.log_eq]
    omega
  obtain ⟨cpipe, hread, hrefines⟩ := h.refines.exists_read hN
  have hcmd : p.read.1 = some m.sent[p.taken] := by
    rw [Pipe.read, if_pos hsome, h.log_eq]
    exact List.getElem?_eq_getElem hlt
  have hnext : p.read.2 = { p with taken := p.taken + 1 } := by rw [Pipe.read, if_pos hsome]
  rw [hcmd] at hread
  refine ⟨_, cpipe, hread, List.getElem?_eq_getElem hlt, ?_⟩
  rw [hnext] at hrefines ⊢
  exact {
    refines := hrefines
    faulted_eq := h.faulted_eq
    log_eq := h.log_eq
    received_eq := by
      have hold := h.received_eq
      rw [received] at hold ⊢
      simp only [ret, List.filterMap_append, hold]
      rw [List.take_add_one, List.getElem?_eq_getElem hlt]
      rfl
    taken_le := hsome
    complete_eq := h.complete_eq
    flushed_eq := hflushed
    holds_iff := h.holds_iff
    outside := h.outside
    setting := h.setting
    signals_eq := by
      have hold := h.signals_eq
      rw [hrestores, hdrains] at hold
      exact hold
    fits := trivial
    signalled := h.signalled
    draining := by simp [ret]
    reading := by simp [ret]
    passive := fun hpassive => absurd (hactive.symm.trans hpassive) Bool.false_ne_true.symm }

/-- The receiver finds no command and becomes passive; the reader of the pipe is asleep. -/
theorem Inv.read_nothing (hN : 0 < N) (h : Inv N n m p) (hnone : ¬ p.taken < p.flushed)
    (hreceiver : m.receiver = .read) :
    ∃ cpipe, m.cpipe.read N = some (none, cpipe) ∧
      Inv N n { m with cpipe := cpipe, active := false, receiver := .drain } p.read.2 := by
  have hactive : m.active = true := by
    have := h.fits
    rwa [hreceiver] at this
  obtain ⟨hawake, hsignaler⟩ := h.signalled hactive
  obtain ⟨cpipe, hread, hrefines⟩ := h.refines.exists_read hN
  have hcmd : p.read.1 = none := by rw [Pipe.read, if_neg hnone]
  have hnext : p.read.2 = { p with asleep := true } := by rw [Pipe.read, if_neg hnone]
  rw [hcmd] at hread
  refine ⟨cpipe, hread, ?_⟩
  rw [hnext] at hrefines ⊢
  exact {
    refines := hrefines
    faulted_eq := h.faulted_eq
    log_eq := h.log_eq
    received_eq := h.received_eq
    taken_le := h.taken_le
    complete_eq := h.complete_eq
    flushed_eq := h.flushed_eq
    holds_iff := h.holds_iff
    outside := h.outside
    setting := fun _ _ => rfl
    signals_eq := by
      have hold := h.signals_eq
      rw [hreceiver, hawake] at hold
      exact hold
    fits := rfl
    signalled := fun htrue => absurd htrue Bool.false_ne_true
    draining := fun _ => hsignaler
    reading := fun hreading => RecvPoint.noConfusion hreading
    passive := fun _ hfalse => absurd hfalse Bool.false_ne_true.symm }

/-- A step of the receiver that does not touch the pipe. -/
theorem Inv.receive (h : Inv N n m p) (receiver : RecvPoint) (signaler : ℕ) (active : Bool)
    (hsignals : signaler + receiver.restores + m.receiver.drains =
      m.signaler + m.receiver.restores + receiver.drains)
    (hfits : receiver.Fits active)
    (hsignalled : active = true → p.asleep = false ∧ 1 ≤ signaler)
    (hdraining : receiver ≠ .drain) (hreading : receiver = .readSignalled → p.taken < p.flushed)
    (hpassive : active = false → m.active = false) :
    Inv N n { m with signaler := signaler, receiver := receiver, active := active } p where
  refines := h.refines
  faulted_eq := h.faulted_eq
  log_eq := h.log_eq
  received_eq := h.received_eq
  taken_le := h.taken_le
  complete_eq := h.complete_eq
  flushed_eq := h.flushed_eq
  holds_iff := h.holds_iff
  outside := h.outside
  setting := h.setting
  signals_eq := by
    have hold := h.signals_eq
    dsimp only
    omega
  fits := hfits
  signalled := hsignalled
  draining := fun heq => absurd heq hdraining
  reading := hreading
  passive := fun hfalse => h.passive (hpassive hfalse)

/-- The wait for a signal ends without one. -/
theorem Inv.return_nothing (h : Inv N n m p) (hwait : m.receiver = .wait) :
    Inv N n (m.ret none) p := by
  have hinv := h.receive .idle m.signaler m.active (by rw [hwait]; rfl) trivial h.signalled
    (by simp) (by simp) id
  exact { hinv with
    received_eq := by
      have hold := h.received_eq
      rw [received] at hold ⊢
      simp only [ret, List.filterMap_append, hold]
      exact List.append_nil _ }

/-- A signal that the receiver finds means that the reader of the pipe is awake. -/
theorem Inv.awake_of_wait (h : Inv N n m p) (hreceiver : m.receiver = .wait)
    (hsignaler : 0 < m.signaler) : p.asleep = false := by
  have hold := h.signals_eq
  rw [hreceiver] at hold
  by_contra hasleep
  rw [Bool.eq_true_of_not_eq_false hasleep] at hold
  simp only [if_pos, RecvPoint.restores, RecvPoint.drains] at hold
  omega

/-- `recv` is called. -/
theorem Inv.recv (h : Inv N n m p) (hidle : m.receiver = .idle) (forever : Bool) :
    Inv N n { m with forever := forever, receiver := if m.active then .read else .wait } p := by
  have hinv := h.receive (if m.active then .read else .wait) m.signaler m.active
    (by rw [hidle]; cases m.active <;> rfl) (by cases m.active <;> rfl) h.signalled
    (by cases m.active <;> simp) (by cases m.active <;> simp) id
  exact { hinv with }

/-- The receiver has got the signal. -/
theorem Inv.wake (h : Inv N n m p) (hwait : m.receiver = .wait) (hsignaler : 0 < m.signaler) :
    Inv N n { m with active := true, receiver := .readSignalled } p := by
  have hfits := h.fits
  rw [hwait] at hfits
  have hawake := h.awake_of_wait hwait hsignaler
  exact h.receive .readSignalled m.signaler true (by rw [hwait]; rfl) rfl
    (fun _ => ⟨hawake, hsignaler⟩) (by simp) (fun _ => h.passive hfits hawake) (by simp)

/-- The receiver takes the signal back that woke it. -/
theorem Inv.drain_one (h : Inv N n m p) (hdrain : m.receiver = .drain) (hone : m.signaler = 1) :
    Inv N n { m with signaler := 0, receiver := .wait } p := by
  have hfits := h.fits
  rw [hdrain] at hfits
  have hpassive : m.active = false := hfits
  exact h.receive .wait 0 m.active (by rw [hdrain, hone]; rfl) hpassive (by simp [hpassive])
    (by simp) (by simp) id

/-- Every step of the receiver keeps the invariant. -/
theorem Inv.recvStep (hN : 0 < N) (h : Inv N n m p) (hstep : m.recvStep N = some m') :
    ∃ p', Inv N n m' p' := by
  rw [Mailbox.recvStep] at hstep
  have hfits := h.fits
  cases hreceiver : m.receiver with
  | idle =>
      rw [hreceiver] at hstep
      cases hstep
  | read =>
      rw [hreceiver] at hstep hfits
      dsimp only at hstep
      by_cases hsome : p.taken < p.flushed
      · obtain ⟨cmd, cpipe, hread, -, hinv⟩ := h.read_command hN hsome hfits
          (by rw [hreceiver]; rfl) (by rw [hreceiver]; rfl)
        rw [hread] at hstep
        obtain rfl := Option.some.inj hstep
        exact ⟨_, hinv⟩
      · obtain ⟨cpipe, hread, hinv⟩ := h.read_nothing hN hsome hreceiver
        rw [hread] at hstep
        obtain rfl := Option.some.inj hstep
        exact ⟨_, hinv⟩
  | drain =>
      rw [hreceiver] at hstep hfits
      dsimp only at hstep
      have hpassive : m.active = false := hfits
      have hsignaler := h.draining hreceiver
      have hsignals := h.signals_eq
      rw [hreceiver] at hsignals
      have hle : m.signaler ≤ 2 := by
        have hone : (if p.asleep then 0 else 1) ≤ 1 := by split_ifs <;> omega
        simp only [RecvPoint.restores, RecvPoint.drains] at hsignals
        omega
      obtain hone | htwo : m.signaler = 1 ∨ m.signaler = 2 := by omega
      · rw [hone] at hstep
        obtain rfl := Option.some.inj hstep
        exact ⟨p, h.drain_one hreceiver hone⟩
      · rw [htwo] at hstep
        obtain rfl := Option.some.inj hstep
        have hinv := h.receive .restore 0 m.active
          (by rw [hreceiver, htwo]; rfl) hpassive (by simp [hpassive]) (by simp) (by simp) id
        exact ⟨p, hinv⟩
  | restore =>
      rw [hreceiver] at hstep hfits
      obtain rfl := Option.some.inj hstep
      have hpassive : m.active = false := hfits
      have hinv := h.receive .wait (m.signaler + 1) m.active
        (by rw [hreceiver]; rfl) hpassive (by simp [hpassive]) (by simp) (by simp) id
      exact ⟨p, hinv⟩
  | wait =>
      rw [hreceiver] at hstep
      dsimp only at hstep
      obtain ⟨hsignaler, hstep⟩ := Option.ite_none_right_eq_some.mp hstep
      obtain rfl := Option.some.inj hstep
      exact ⟨p, h.wake hreceiver hsignaler⟩
  | readSignalled =>
      rw [hreceiver] at hstep hfits
      dsimp only at hstep
      obtain ⟨cmd, cpipe, hread, -, hinv⟩ := h.read_command hN (h.reading hreceiver) hfits
        (by rw [hreceiver]; rfl) (by rw [hreceiver]; rfl)
      rw [hread] at hstep
      obtain rfl := Option.some.inj hstep
      exact ⟨_, hinv⟩
  | aborted =>
      rw [hreceiver] at hstep
      cases hstep

theorem Inv.step (hN : 0 < N) (h : Inv N n m p) {action : Action T}
    (hstep : m.step N n action = some m') : ∃ p', Inv N n m' p' := by
  cases action with
  | send i cmd =>
      rw [Mailbox.step] at hstep
      cases hpoint : m.senders i with
      | idle =>
          rw [hpoint] at hstep
          obtain ⟨hlt, hstep⟩ := Option.ite_none_right_eq_some.mp hstep
          obtain rfl := Option.some.inj hstep
          have hholds : (m.senders i).holds = false := by rw [hpoint]; rfl
          have hmoved : Moved n m i (.lock cmd) (m.setSender i (.lock cmd)) :=
            ⟨hlt, rfl, by rw [hholds]; rfl, fun htrue => absurd htrue (by simp [SendPoint.holds]),
              rfl, rfl, rfl, rfl⟩
          refine ⟨p, h.move hmoved rfl rfl ?_ (by simp) (by rw [hpoint]; rfl) le_rfl⟩
          rw [hmoved.unflushed_eq h, hholds]
          rfl
      | _ =>
          rw [hpoint] at hstep
          cases hstep
  | sender i malloc => exact h.sendStep hN hstep
  | recv forever =>
      obtain ⟨hidle, hstep⟩ := Option.ite_none_right_eq_some.mp hstep
      obtain rfl := Option.some.inj hstep
      exact ⟨p, h.recv hidle forever⟩
  | receiver => exact h.recvStep hN hstep
  | timeout =>
      obtain ⟨⟨hwait, -, -⟩, hstep⟩ := Option.ite_none_right_eq_some.mp hstep
      obtain rfl := Option.some.inj hstep
      exact ⟨p, h.return_nothing hwait⟩
  | interrupt =>
      obtain ⟨hwait, hstep⟩ := Option.ite_none_right_eq_some.mp hstep
      obtain rfl := Option.some.inj hstep
      exact ⟨p, h.return_nothing hwait⟩

/-! ## What the users of a mailbox rely on -/

variable {first second : Malloc T} {start : Mailbox T}

/-- A new mailbox is empty and its receiver is passive. -/
theorem Inv.construct (hN : 0 < N) (hfresh : second.addr ≠ first.addr)
    (hconstruct : construct N first second = some start) :
    Inv N n start { (Pipe.create : Pipe T) with asleep := true } := by
  obtain ⟨cpipe, hcreate, hrefines⟩ := YPipe.refines_create hN hfresh
  obtain ⟨cpipe', hread, hrefines'⟩ := hrefines.exists_read hN
  rw [Mailbox.construct, hcreate, Option.bind_some, hread] at hconstruct
  obtain rfl := Option.some.inj hconstruct
  exact {
    refines := hrefines'
    faulted_eq := rfl
    log_eq := rfl
    received_eq := rfl
    taken_le := le_rfl
    complete_eq := rfl
    flushed_eq := rfl
    holds_iff := by simp [create, SendPoint.holds]
    outside := fun _ _ => rfl
    setting := by simp [create]
    signals_eq := by simp [create, owed, SendPoint.owes, RecvPoint.restores, RecvPoint.drains]
    fits := trivial
    signalled := fun htrue => absurd htrue Bool.false_ne_true
    draining := by simp [create]
    reading := by simp [create]
    passive := fun _ hfalse => absurd hfalse Bool.false_ne_true.symm }

theorem Inv.reachable (hN : 0 < N) (hfresh : second.addr ≠ first.addr)
    (hconstruct : Mailbox.construct N first second = some start)
    (hreach : (machine N n start).Reachable m) : ∃ p, Inv N n m p :=
  hreach.invariant (fun m => ∃ p, Inv N n m p) ⟨_, .construct hN hfresh hconstruct⟩
    fun ⟨_, h⟩ hstep => h.step hN hstep

/-- **Commands arrive once and in order.** For every number of senders, in every interleaving and
for every choice of addresses by the allocator: the pipe uses no memory that is not there, none of
the assertions in `recv` and in the signaler fails, and the commands that have been received are
the first of those that were written, in the order of the mutex. -/
theorem mailbox_delivers_in_order (hN : 0 < N) (hfresh : second.addr ≠ first.addr)
    (hconstruct : Mailbox.construct N first second = some start)
    (hreach : (machine N n start).Reachable m) :
    m.faulted = false ∧ m.receiver ≠ .aborted ∧ m.received <+: m.sent ∧ m.signaler ≤ 2 := by
  obtain ⟨p, h⟩ := Inv.reachable hN hfresh hconstruct hreach
  refine ⟨h.faulted_eq, ?_, ?_, ?_⟩
  · intro haborted
    have hfits := h.fits
    rw [haborted] at hfits
    exact hfits
  · rw [h.received_eq]
    exact List.take_prefix _ _
  · have hsignals := h.signals_eq
    have hone : (if p.asleep then 0 else 1) ≤ 1 := by split_ifs <;> omega
    have hdrains : m.receiver.drains ≤ 1 := by cases m.receiver <;> simp [RecvPoint.drains]
    omega

/-- Sender `i` takes `k` steps. -/
def steps (i k : ℕ) : List (Action ℕ) := List.replicate k (.sender i (YPipeSystem.blank (5 + i)))

/-- Two senders of which the first sends its signal late, and a third command that arrives while
the receiver is about to take the signal back. -/
def signalledTwice : List (Action ℕ) :=
  [Action.send 0 7] ++ steps 0 5 ++ [Action.send 1 8] ++ steps 1 4 ++ steps 0 1 ++
    [Action.recv true, .receiver, .receiver, .recv true, .receiver, .recv true, .receiver] ++
    [Action.send 1 9] ++ steps 1 6 ++ [Action.receiver]

theorem mailbox_delivers_in_order_signalledTwice :
    ∃ start m, Mailbox.construct 16 (YPipeSystem.blank 3) (YPipeSystem.blank 4) = some start ∧
      (machine 16 2 start).runFrom start signalledTwice = some m ∧ m.sent = [7, 8, 9] ∧
      m.receiver = .restore ∧ m.received <+: m.sent := by
  have hall : ((Mailbox.construct 16 (YPipeSystem.blank 3) (YPipeSystem.blank 4)).bind fun start =>
      ((machine 16 2 start).runFrom start signalledTwice).map fun m =>
        (m.sent, m.receiver)) = some ([7, 8, 9], .restore) := by
    decide +kernel
  obtain ⟨start, hconstruct, hmap⟩ := Option.bind_eq_some_iff.mp hall
  obtain ⟨m, hrun, hm⟩ := Option.map_eq_some_iff.mp hmap
  obtain ⟨hsent, hreceiver⟩ := Prod.mk.inj hm
  obtain ⟨-, -, hprefix, -⟩ :=
    mailbox_delivers_in_order (n := 2) (by decide) (by decide) hconstruct ⟨_, hrun⟩
  exact ⟨start, m, hconstruct, hrun, hsent, hreceiver, hprefix⟩

/-- Sender `i` sends a signal by further steps of its own. -/
def SendsSignal (N n : ℕ) (start : Mailbox T) (i : ℕ) (m : Mailbox T) : Prop :=
  ∀ malloc, ∃ k m', (machine N n start).runFrom m (List.replicate k (.sender i malloc)) = some m' ∧
    m'.signaler = m.signaler + 1

/-- A step before the one with the signal. -/
theorem SendsSignal.of_step {i : ℕ} (hstep : ∀ malloc, m.sendStep N i malloc = some m')
    (hsame : m'.signaler = m.signaler) (hrest : SendsSignal N n start i m') :
    SendsSignal N n start i m := by
  intro malloc
  obtain ⟨k, last, hrun, hsignaler⟩ := hrest malloc
  refine ⟨k + 1, last, ?_, by rw [hsignaler, hsame]⟩
  have hfirst : (machine N n start).step m (.sender i malloc) = some m' := hstep malloc
  rw [List.replicate_succ, Machine.runFrom_cons, hfirst, Option.bind_some, hrun]

theorem sendsSignal_of_signal {i : ℕ} (hpoint : m.senders i = .signal) :
    SendsSignal N n start i m := by
  intro malloc
  have hstep : (machine N n start).step m (.sender i malloc) =
      some { m.setSender i .idle with signaler := m.signaler + 1 } := by
    change m.sendStep N i malloc = _
    rw [Mailbox.sendStep, hpoint]
  have hrun : (machine N n start).runFrom m (List.replicate 1 (.sender i malloc)) =
      some { m.setSender i .idle with signaler := m.signaler + 1 } := by
    rw [List.replicate_one, Machine.runFrom_cons, hstep]
    rfl
  exact ⟨1, _, hrun, rfl⟩

theorem sendsSignal_of_unlock {i : ℕ} (hpoint : m.senders i = .unlock false) :
    SendsSignal N n start i m := by
  have hstep (malloc : Malloc T) :
      m.sendStep N i malloc = some { m.setSender i .signal with sync := none } := by
    rw [Mailbox.sendStep, hpoint]
    rfl
  exact .of_step hstep rfl (sendsSignal_of_signal (Function.update_self ..))

theorem sendsSignal_of_set {i : ℕ} (hpoint : m.senders i = .set) :
    SendsSignal N n start i m := by
  have hstep (malloc : Malloc T) : m.sendStep N i malloc =
      some { m.setSender i (.unlock false) with cpipe := m.cpipe.flushSet } := by
    rw [Mailbox.sendStep, hpoint]
  exact .of_step hstep rfl (sendsSignal_of_unlock (Function.update_self ..))

/-- The compare-and-swap of a sender fails while the reader is asleep. -/
theorem Inv.flushCas_asleep (h : Inv N n m p) {i : ℕ} (hpoint : m.senders i = .flush)
    (hc : m.cpipe.c = none) : m.cpipe.flushCas = (none, m.cpipe) := by
  rcases h.refines.flushCas_cases with ⟨cpipe, -, hawake, -⟩ | ⟨hcas, -⟩
  · obtain ⟨chunk, hpipe⟩ := h.refines
    have hasleep : p.asleep = true := by
      by_contra hp
      have hpublished := hpipe.c_eq
      rw [if_neg hp, hc] at hpublished
      cases hpublished
    have hholds : (m.senders i).holds = true := by rw [hpoint]; rfl
    have hold : m.unflushed = 1 := by rw [h.unflushed_eq hholds, hpoint]; rfl
    have hnew : p.flushed ≠ p.complete := by
      have hflushed := h.flushed_eq
      have hcomplete := h.complete_eq
      omega
    rw [Pipe.flush, if_neg hnew, hasleep] at hawake
    cases hawake
  · exact hcas

/-- **The signal follows.** A sender at such a point needs nobody to get to its signal. -/
theorem Inv.sendsSignal (h : Inv N n m p) {i : ℕ} (hwakes : (m.senders i).Wakes m.cpipe.c) :
    SendsSignal N n start i m := by
  cases hpoint : m.senders i with
  | signal => exact sendsSignal_of_signal hpoint
  | unlock ok =>
      cases ok with
      | false => exact sendsSignal_of_unlock hpoint
      | true =>
          rw [hpoint] at hwakes
          exact hwakes.elim
  | set => exact sendsSignal_of_set hpoint
  | flush =>
      rw [hpoint] at hwakes
      have hstep (malloc : Malloc T) : m.sendStep N i malloc = some (m.setSender i .set) := by
        rw [Mailbox.sendStep, hpoint, h.flushCas_asleep hpoint hwakes]
      exact .of_step hstep rfl (sendsSignal_of_set (Function.update_self ..))
  | idle =>
      rw [hpoint] at hwakes
      exact hwakes.elim
  | lock cmd =>
      rw [hpoint] at hwakes
      exact hwakes.elim
  | write cmd =>
      rw [hpoint] at hwakes
      exact hwakes.elim

/-- **No wake-up is lost.** If the receiver waits for a signal and there is a command that it has
not received, then there is a signal, or a sender is at a point of `send` from which it sends one,
with nobody's help. -/
theorem receiver_never_forgotten (hN : 0 < N) (hfresh : second.addr ≠ first.addr)
    (hconstruct : Mailbox.construct N first second = some start)
    (hreach : (machine N n start).Reachable m) (hwait : m.receiver = .wait)
    (hmore : m.received ≠ m.sent) :
    0 < m.signaler ∨
      ∃ i < n, (m.senders i).Wakes m.cpipe.c ∧ SendsSignal N n start i m := by
  obtain ⟨p, h⟩ := Inv.reachable hN hfresh hconstruct hreach
  suffices hsender : 0 < m.signaler ∨ ∃ i < n, (m.senders i).Wakes m.cpipe.c from
    hsender.imp_right fun ⟨i, hi, hwakes⟩ => ⟨i, hi, hwakes, h.sendsSignal hwakes⟩
  have hsignals := h.signals_eq
  rw [hwait] at hsignals
  cases hasleep : p.asleep with
  | false =>
      rw [hasleep] at hsignals
      simp only [RecvPoint.restores, RecvPoint.drains, Bool.false_eq_true, if_false] at hsignals
      by_cases hsignaler : 0 < m.signaler
      · exact .inl hsignaler
      · have howed : owed n m.senders ≠ 0 := by omega
        obtain ⟨i, hi, howes⟩ := Finset.exists_ne_zero_of_sum_ne_zero howed
        refine .inr ⟨i, Finset.mem_range.mp hi, ?_⟩
        revert howes
        rcases m.senders i with _ | _ | _ | _ | _ | (_ | _) | _ <;>
          simp [SendPoint.owes, SendPoint.Wakes]
  | true =>
      obtain ⟨chunk, hpipe⟩ := h.refines
      have htaken := hpipe.asleep_eq hasleep
      have hc : m.cpipe.c = none := by simpa [hasleep] using hpipe.c_eq
      have hflushed := h.flushed_eq
      rw [h.log_eq] at hflushed
      have hunflushed : m.unflushed ≠ 0 := by
        intro hzero
        apply hmore
        rw [h.received_eq, List.take_of_length_le (by omega)]
      rw [unflushed] at hunflushed
      cases hsync : m.sync with
      | none =>
          rw [hsync] at hunflushed
          exact absurd rfl hunflushed
      | some i =>
          rw [hsync] at hunflushed
          dsimp only at hunflushed
          refine .inr ⟨i, h.sender_lt ?_, ?_⟩
          · intro hidle
            rw [hidle] at hunflushed
            exact hunflushed rfl
          · revert hunflushed
            rcases m.senders i with _ | _ | _ | _ | _ | _ | _ <;>
              simp [SendPoint.unflushed, SendPoint.Wakes, hc]

/-- The receiver waits, and the sender that woke the reader has not yet sent its signal. -/
theorem receiver_never_forgotten_late_signal :
    ∃ start m, Mailbox.construct 16 (YPipeSystem.blank 3) (YPipeSystem.blank 4) = some start ∧
      (machine 16 2 start).runFrom start ([.recv true, .send 0 7] ++ steps 0 5) = some m ∧
      m.receiver = .wait ∧ m.received ≠ m.sent ∧
      (0 < m.signaler ∨
        ∃ i < 2, (m.senders i).Wakes m.cpipe.c ∧ SendsSignal 16 2 start i m) := by
  have hall : ((Mailbox.construct 16 (YPipeSystem.blank 3) (YPipeSystem.blank 4)).bind fun start =>
      ((machine 16 2 start).runFrom start ([.recv true, .send 0 7] ++ steps 0 5)).map fun m =>
        (m.receiver, m.received, m.sent)) = some (.wait, [], [7]) := by
    decide
  obtain ⟨start, hconstruct, hmap⟩ := Option.bind_eq_some_iff.mp hall
  obtain ⟨m, hrun, hm⟩ := Option.map_eq_some_iff.mp hmap
  obtain ⟨hwait, hm⟩ := Prod.mk.inj hm
  obtain ⟨hreceived, hsent⟩ := Prod.mk.inj hm
  have hmore : m.received ≠ m.sent := by
    rw [hreceived, hsent]
    decide
  exact ⟨start, m, hconstruct, hrun, hwait, hmore,
    receiver_never_forgotten (by decide) (by decide) hconstruct ⟨_, hrun⟩ hwait hmore⟩

/-- No `send` is going on: all that was sent is published, and no signal is owed. -/
theorem Inv.quiet (h : Inv N n m p) (hquiet : ∀ i, m.senders i = .idle) :
    p.flushed = m.sent.length ∧ owed n m.senders = 0 := by
  constructor
  · have hsync : m.sync = none := by
      cases hsync : m.sync with
      | none => rfl
      | some i =>
          have hholds := (h.holds_iff i).mpr hsync
          rw [hquiet i] at hholds
          exact absurd hholds Bool.false_ne_true
    have hflushed := h.flushed_eq
    rw [unflushed, hsync, h.log_eq] at hflushed
    exact hflushed
  · exact Finset.sum_eq_zero fun i _ => by rw [hquiet i]; rfl

/-- `recv` gets a command that is there. -/
theorem Inv.recv_command (hN : 0 < N) (h : Inv N n m p) (hidle : m.receiver = .idle)
    (hquiet : ∀ i, m.senders i = .idle) (forever : Bool) (hsome : p.taken < p.flushed) :
    ∃ steps m', (∀ a ∈ steps, a = .receiver ∨ a = .timeout) ∧
      (machine N n start).runFrom m (.recv forever :: steps) = some m' ∧
      m'.receiver = .idle ∧ m'.returned = m.returned ++ [m.sent[p.taken]?] := by
  have hcall := h.recv hidle forever
  have hstep : (machine N n start).step m (.recv forever) = some
      { m with forever := forever, receiver := if m.active then .read else .wait } := if_pos hidle
  by_cases hactive : m.active = true
  · rw [if_pos hactive] at hcall hstep
    obtain ⟨cmd, cpipe, hread, hcmd, -⟩ := hcall.read_command hN hsome hactive rfl rfl
    have hrun : (machine N n start).runFrom m [.recv forever, .receiver] = some
        { m.ret (some cmd) with cpipe := cpipe, forever := forever } := by
      rw [Machine.runFrom_cons, hstep, Option.bind_some, Machine.runFrom_cons]
      simp only [machine, Mailbox.step, Mailbox.recvStep, hread, Option.bind_some,
        Machine.runFrom_nil]
      rfl
    exact ⟨[.receiver], _, by simp, hrun, rfl, congrArg (m.returned ++ [·]) hcmd.symm⟩
  · rw [if_neg hactive] at hcall hstep
    have hawake : p.asleep = false := by
      obtain ⟨chunk, hpipe⟩ := h.refines
      by_contra hasleep
      exact hsome.ne (hpipe.asleep_eq (Bool.eq_true_of_not_eq_false hasleep))
    have hsignaler : 0 < m.signaler := by
      have hsignals := h.signals_eq
      rw [(h.quiet hquiet).2, hawake, hidle] at hsignals
      simp only [RecvPoint.restores, RecvPoint.drains, Bool.false_eq_true, if_false] at hsignals
      omega
    obtain ⟨cmd, cpipe, hread, hcmd, -⟩ :=
      (hcall.wake rfl hsignaler).read_command hN hsome rfl rfl rfl
    have hrun : (machine N n start).runFrom m [.recv forever, .receiver, .receiver] = some
        { m.ret (some cmd) with cpipe := cpipe, forever := forever, active := true } := by
      rw [Machine.runFrom_cons, hstep, Option.bind_some, Machine.runFrom_cons]
      simp only [machine, Mailbox.step, Mailbox.recvStep, if_pos hsignaler, Option.bind_some,
        Machine.runFrom_cons, hread, Machine.runFrom_nil]
      rfl
    exact ⟨[.receiver, .receiver], _, by simp, hrun, rfl, congrArg (m.returned ++ [·]) hcmd.symm⟩

/-- A call of `recv` with a timeout ends when there is no command. -/
theorem Inv.recv_nothing (hN : 0 < N) (h : Inv N n m p) (hidle : m.receiver = .idle)
    (hquiet : ∀ i, m.senders i = .idle) (hnone : ¬ p.taken < p.flushed) :
    ∃ steps m', (∀ a ∈ steps, a = .receiver ∨ a = .timeout) ∧
      (machine N n start).runFrom m (.recv false :: steps) = some m' ∧
      m'.receiver = .idle ∧ m'.returned = m.returned ++ [none] := by
  have hcall := h.recv hidle false
  have hstep : (machine N n start).step m (.recv false) = some
      { m with forever := false, receiver := if m.active then .read else .wait } := if_pos hidle
  have hsignals := h.signals_eq
  rw [(h.quiet hquiet).2, hidle] at hsignals
  by_cases hactive : m.active = true
  · rw [if_pos hactive] at hcall hstep
    have hone : m.signaler = 1 := by
      rw [(h.signalled hactive).1] at hsignals
      exact hsignals
    obtain ⟨cpipe, hread, -⟩ := hcall.read_nothing hN hnone rfl
    have hrun : (machine N n start).runFrom m [.recv false, .receiver, .receiver, .timeout] = some
        { m.ret none with cpipe := cpipe, forever := false, active := false, signaler := 0 } := by
      rw [Machine.runFrom_cons, hstep, Option.bind_some, Machine.runFrom_cons]
      simp only [machine, Mailbox.step, Mailbox.recvStep, hread, Option.bind_some,
        Machine.runFrom_cons, hone, and_self, if_true, Machine.runFrom_nil]
      rfl
    exact ⟨[.receiver, .receiver, .timeout], _, by simp, hrun, rfl, rfl⟩
  · rw [if_neg hactive] at hcall hstep
    have hasleep : p.asleep = true := by
      by_contra hawake
      exact hnone (h.passive (Bool.eq_false_of_not_eq_true hactive)
        (Bool.eq_false_of_not_eq_true hawake))
    have hzero : m.signaler = 0 := by
      rw [hasleep] at hsignals
      exact hsignals
    have hrun : (machine N n start).runFrom m [.recv false, .timeout] = some
        { m.ret none with forever := false, signaler := 0 } := by
      rw [Machine.runFrom_cons, hstep, Option.bind_some, Machine.runFrom_cons]
      simp only [machine, Mailbox.step, hzero, and_self, if_true, Option.bind_some,
        Machine.runFrom_nil]
      rfl
    exact ⟨[.timeout], _, by simp, hrun, rfl, rfl⟩

/-- **A mailbox is a queue.** While no `send` is going on, a call of `recv` returns the oldest
command that has not been received; if there is none, a call with a timeout returns nothing. -/
theorem recv_returns_next (hN : 0 < N) (hfresh : second.addr ≠ first.addr)
    (hconstruct : Mailbox.construct N first second = some start)
    (hreach : (machine N n start).Reachable m) (hidle : m.receiver = .idle)
    (hquiet : ∀ i, m.senders i = .idle) (forever : Bool)
    (hends : forever = false ∨ m.received ≠ m.sent) :
    ∃ steps m', (∀ a ∈ steps, a = .receiver ∨ a = .timeout) ∧
      (machine N n start).runFrom m (.recv forever :: steps) = some m' ∧
      m'.receiver = .idle ∧ m'.returned = m.returned ++ [m.sent[m.received.length]?] := by
  obtain ⟨p, h⟩ := Inv.reachable hN hfresh hconstruct hreach
  obtain ⟨hflushed, -⟩ := h.quiet hquiet
  have htaken := h.taken_le
  have hlength : m.received.length = p.taken := by
    rw [h.received_eq, List.length_take, Nat.min_eq_left (hflushed ▸ htaken)]
  rw [hlength]
  by_cases hsome : p.taken < p.flushed
  · exact h.recv_command hN hidle hquiet forever hsome
  · have hall : m.received = m.sent := by
      rw [h.received_eq, List.take_of_length_le (by omega)]
    obtain rfl := hends.resolve_right (not_not.mpr hall)
    rw [List.getElem?_eq_none (by omega)]
    exact h.recv_nothing hN hidle hquiet hsome

/-- The first command of a mailbox to which two have been sent. -/
theorem recv_returns_next_two_commands :
    ∃ start m m', Mailbox.construct 16 (YPipeSystem.blank 3) (YPipeSystem.blank 4) = some start ∧
      (machine 16 1 start).runFrom start
        ([.send 0 7] ++ steps 0 6 ++ [.send 0 8] ++ steps 0 4) = some m ∧
      (∃ more, (machine 16 1 start).runFrom m (.recv true :: more) = some m') ∧
      m'.returned = [some 7] := by
  have hall : ((Mailbox.construct 16 (YPipeSystem.blank 3) (YPipeSystem.blank 4)).bind fun start =>
      ((machine 16 1 start).runFrom start
        ([.send 0 7] ++ steps 0 6 ++ [.send 0 8] ++ steps 0 4)).map fun m =>
          (m.receiver, m.senders 0, m.returned, m.sent)) = some (.idle, .idle, [], [7, 8]) := by
    decide
  obtain ⟨start, hconstruct, hmap⟩ := Option.bind_eq_some_iff.mp hall
  obtain ⟨m, hrun, hm⟩ := Option.map_eq_some_iff.mp hmap
  obtain ⟨hidle, hm⟩ := Prod.mk.inj hm
  obtain ⟨hsender, hm⟩ := Prod.mk.inj hm
  obtain ⟨hreturned, hsent⟩ := Prod.mk.inj hm
  have hreach : (machine 16 1 start).Reachable m := ⟨_, hrun⟩
  have hquiet : ∀ i, m.senders i = .idle := by
    obtain ⟨p, h⟩ := Inv.reachable (by decide) (by decide) hconstruct hreach
    intro i
    cases i with
    | zero => exact hsender
    | succ i => exact h.outside _ (Nat.succ_pos i)
  have hreceived : m.received = [] := by rw [received, hreturned]; rfl
  have hmore : m.received ≠ m.sent := by
    rw [hreceived, hsent]
    decide
  obtain ⟨more, m', -, hrecv, -, hresult⟩ := recv_returns_next (by decide) (by decide) hconstruct
    hreach hidle hquiet true (.inr hmore)
  refine ⟨start, m, m', hconstruct, hrun, ⟨more, hrecv⟩, ?_⟩
  rw [hresult, hreturned, hreceived, hsent]
  rfl

end Mailbox

end AFStream.ControlChannel

/-
# The two-stage `FINISH` protocol

Two stages of workers, every upper worker connected to every lower one, with a link
in each direction. The upper stage takes its input from anywhere, the lower stage
sends its output anywhere; what is studied is the handshake between them. An upper
thread leaves its loop only after the reverse `FINISH` of every lower worker, which
is sent only after all threads of that worker have left their loops, which they do
only after the forward `FINISH` of every upper worker. The module shows that by then
every record has been processed.
-/

import AFStream.Thread.ComputeThread
import AFStream.Thread.Link

namespace AFStream.Thread

open AFStream.Foundation

universe u

/-! ## What a thread sends -/

/-- A thread that has not `finished` has sent no `FINISH` and is not about to; one that
has will send at most one more item to each destination that has none yet. -/
structure SenderOk {T : Type u} (finished : Prop) (todo : List (ℕ × WrapItem T))
    (sent : ℕ → List (WrapItem T)) : Prop where
  unfinished : ¬finished → (∀ d, hasFinish (sent d) = false) ∧
    ∀ entry ∈ todo, entry.2.itemType ≠ .finish
  finished : finished → (todo.map Prod.fst).Nodup ∧
    ∀ entry ∈ todo, hasFinish (sent entry.1) = false

namespace SenderOk

variable {T : Type u} {finished : Prop} {todo rest : List (ℕ × WrapItem T)}
  {sent : ℕ → List (WrapItem T)} {d : ℕ} {x : WrapItem T}

/-- The destination of the next item has not got a `FINISH`. -/
theorem open_head (h : SenderOk finished ((d, x) :: rest) sent) : hasFinish (sent d) = false := by
  by_cases hfinished : finished
  · exact (h.finished hfinished).2 (d, x) (List.mem_cons_self ..)
  · exact (h.unfinished hfinished).1 d

/-- Writing the next item. -/
theorem write (h : SenderOk finished ((d, x) :: rest) sent) :
    SenderOk finished rest (Function.update sent d (sent d ++ [x])) := by
  refine ⟨fun hunfinished => ?_, fun hfinished => ?_⟩
  · obtain ⟨hsent, htodo⟩ := h.unfinished hunfinished
    refine ⟨fun d' => ?_, fun entry hentry => htodo entry (List.mem_cons_of_mem _ hentry)⟩
    by_cases hd : d' = d
    · subst hd
      have hx : x.itemType ≠ .finish := htodo (d', x) (List.mem_cons_self ..)
      rw [Function.update_self, hasFinish_append, hsent]
      simp [hasFinish, hx]
    · rw [Function.update_of_ne hd]
      exact hsent d'
  · obtain ⟨hnodup, hsent⟩ := h.finished hfinished
    rw [List.map_cons, List.nodup_cons] at hnodup
    refine ⟨hnodup.2, fun entry hentry => ?_⟩
    have hne : entry.1 ≠ d := by
      rintro rfl
      exact hnodup.1 (List.mem_map.mpr ⟨entry, hentry, rfl⟩)
    rw [Function.update_of_ne hne]
    exact hsent entry (List.mem_cons_of_mem _ hentry)

/-- A handler of an unfinished thread emits records. -/
theorem refill (h : SenderOk finished [] sent) (hunfinished : ¬finished)
    (htodo : ∀ entry ∈ todo, entry.2.itemType ≠ .finish) : SenderOk finished todo sent :=
  ⟨fun hnot => ⟨(h.unfinished hnot).1, htodo⟩, fun hfinished => absurd hfinished hunfinished⟩

/-- A thread finishes by sending one `FINISH` to each destination. -/
theorem finish {finished' : Prop} (h : SenderOk finished [] sent) (hunfinished : ¬finished)
    (c : ThreadConfig) (blank : T) (n : ℕ) (hfinished' : finished') :
    SenderOk finished' (c.finishFor blank n) sent := by
  refine ⟨fun hnot => absurd hfinished' hnot, fun _ => ⟨?_, fun entry _ => ?_⟩⟩
  · have hdests : (c.finishFor blank n).map Prod.fst = List.range n := by
      simp [ThreadConfig.finishFor, Function.comp_def]
    rw [hdests]
    exact List.nodup_range
  · exact (h.unfinished hunfinished).1 entry.1

theorem congr {finished' : Prop} (h : SenderOk finished todo sent)
    (hsame : finished' ↔ finished) : SenderOk finished' todo sent := by
  rwa [propext hsame]

end SenderOk

/-- Steps that count a reverse `FINISH`. -/
def countFeedback {Out ROut : Type u} : ThreadStep Out ROut → ℕ
  | .feedback .finish _ => 1
  | _ => 0

/-- Steps that count a forward `FINISH`. -/
def countInput {Out ROut : Type u} : ThreadStep Out ROut → ℕ
  | .input .finish _ _ => 1
  | _ => 0

section Threads

variable {Out ROut : Type u} {c : ThreadConfig} {blank : Out} {rblank : ROut}
  {th th' : ComputeThread Out ROut} {act : ThreadStep Out ROut}

/-- A thread of the upper stage and what it has sent forward. -/
structure UpOk (c : ThreadConfig) (th : ComputeThread Out ROut)
    (sent : ℕ → List (WrapItem Out)) : Prop where
  sender : SenderOk (th.upStop = c.numUp) th.todo sent
  tag : ∀ entry ∈ th.todo, entry.2.workerSource = c.wid ∧ entry.2.thrSource = c.tid ∧
    (entry.2.itemType = .normal ∨ entry.2.itemType = .finish)
  types : ∀ d, ∀ x ∈ sent d, x.itemType = .normal ∨ x.itemType = .finish
  bound : th.downStop ≤ c.numDownstream
  left : th.point = .left → th.downStop = c.numDownstream

/-- A thread of the lower stage and what it has sent backward. -/
structure DownOk (c : ThreadConfig) (th : ComputeThread Out ROut)
    (sent : ℕ → List (WrapItem ROut)) : Prop where
  sender : SenderOk (th.point = .left) th.rtodo sent
  tag : ∀ entry ∈ th.rtodo, entry.2.workerSource = c.wid ∧ entry.2.thrSource = c.tid
  bound : th.upStop ≤ c.numUp
  left : th.point = .left → th.upStop = c.numUp

theorem UpOk.create : UpOk c (ComputeThread.create : ComputeThread Out ROut) fun _ => [] where
  sender := ⟨fun _ => ⟨fun _ => rfl, nofun⟩, fun _ => ⟨List.nodup_nil, nofun⟩⟩
  tag := nofun
  types := nofun
  bound := Nat.zero_le _
  left := nofun

theorem DownOk.create : DownOk c (ComputeThread.create : ComputeThread Out ROut) fun _ => [] where
  sender := ⟨fun _ => ⟨fun _ => rfl, nofun⟩, fun _ => ⟨List.nodup_nil, nofun⟩⟩
  tag := nofun
  bound := Nat.zero_le _
  left := nofun

/-- An upper thread writes the next item. -/
theorem UpOk.emit {sent : ℕ → List (WrapItem Out)} (h : UpOk c th sent)
    (hstep : th.step c blank rblank .emit = some th') {d : ℕ} {x : WrapItem Out}
    {rest : List (ℕ × WrapItem Out)} (htodo : th.todo = (d, x) :: rest) :
    UpOk c th' (Function.update sent d (sent d ++ [x])) ∧ th'.downStop = th.downStop ∧
      hasFinish (sent d) = false ∧ x.workerSource = c.wid ∧ x.thrSource = c.tid := by
  simp only [ComputeThread.step, htodo] at hstep
  obtain rfl := Option.some.inj hstep
  have hsender := h.sender
  rw [htodo] at hsender
  have htag := h.tag
  rw [htodo] at htag
  obtain ⟨hworker, hthread, htype⟩ := htag (d, x) (List.mem_cons_self ..)
  refine ⟨⟨hsender.write, fun entry hentry => htag entry (List.mem_cons_of_mem _ hentry), ?_,
    h.bound, h.left⟩, rfl, hsender.open_head, hworker, hthread⟩
  intro d' y hy
  by_cases hd : d' = d
  · subst hd
    rw [Function.update_self] at hy
    rcases List.mem_append.mp hy with hold | hnew
    · exact h.types d' y hold
    · rw [List.mem_singleton.mp hnew]
      exact htype
  · rw [Function.update_of_ne hd] at hy
    exact h.types d' y hy

/-- A lower thread writes the next reverse item. -/
theorem DownOk.emitReverse {sent : ℕ → List (WrapItem ROut)} (h : DownOk c th sent)
    (hstep : th.step c blank rblank .emitReverse = some th') {d : ℕ} {x : WrapItem ROut}
    {rest : List (ℕ × WrapItem ROut)} (htodo : th.rtodo = (d, x) :: rest) :
    DownOk c th' (Function.update sent d (sent d ++ [x])) ∧ th'.upStop = th.upStop ∧
      hasFinish (sent d) = false ∧ x.workerSource = c.wid ∧ x.thrSource = c.tid := by
  simp only [ComputeThread.step, htodo] at hstep
  obtain rfl := Option.some.inj hstep
  have hsender := h.sender
  rw [htodo] at hsender
  have htag := h.tag
  rw [htodo] at htag
  obtain ⟨hworker, hthread⟩ := htag (d, x) (List.mem_cons_self ..)
  exact ⟨⟨hsender.write, fun entry hentry => htag entry (List.mem_cons_of_mem _ hentry),
    h.bound, h.left⟩, rfl, hsender.open_head, hworker, hthread⟩

/-- Every other step of an upper thread. -/
theorem UpOk.step {sent : ℕ → List (WrapItem Out)} (h : UpOk c th sent)
    (hstep : th.step c blank rblank act = some th') (hemit : act ≠ .emit) :
    UpOk c th' sent ∧ th'.downStop = th.downStop + countFeedback act := by
  cases act with
  | emit => exact absurd rfl hemit
  | emitReverse =>
      simp only [ComputeThread.step] at hstep
      split at hstep
      next => cases hstep
      next =>
          obtain rfl := Option.some.inj hstep
          exact ⟨⟨h.sender, h.tag, h.types, h.bound, h.left⟩, rfl⟩
  | head =>
      simp only [ComputeThread.step] at hstep
      split_ifs at hstep with hguard hloop
      · obtain rfl := Option.some.inj hstep
        exact ⟨⟨h.sender, h.tag, h.types, h.bound, nofun⟩, rfl⟩
      · obtain rfl := Option.some.inj hstep
        refine ⟨⟨h.sender, h.tag, h.types, h.bound, fun _ => ?_⟩, rfl⟩
        have hbound := h.bound
        change th.downStop = c.numDownstream
        omega
  | feedbackNull =>
      simp only [ComputeThread.step] at hstep
      split_ifs at hstep with hguard
      obtain rfl := Option.some.inj hstep
      exact ⟨⟨h.sender, h.tag, h.types, h.bound, nofun⟩, rfl⟩
  | inputNull =>
      simp only [ComputeThread.step] at hstep
      split_ifs at hstep with hguard
      obtain rfl := Option.some.inj hstep
      exact ⟨⟨h.sender, h.tag, h.types, h.bound, nofun⟩, rfl⟩
  | feedback itemType rout =>
      simp only [ComputeThread.step] at hstep
      split_ifs at hstep with hguard
      obtain rfl := Option.some.inj hstep
      obtain ⟨-, hpoint, hlt⟩ := hguard
      have hleft {p : Prop} (hp : th.point = .left) : p := by
        rw [hpoint] at hp
        cases hp
      cases itemType with
      | finish => exact ⟨⟨h.sender, h.tag, h.types, hlt, hleft⟩, rfl⟩
      | reverse => exact ⟨⟨h.sender, h.tag, h.types, h.bound, hleft⟩, rfl⟩
      | normal => exact ⟨h, rfl⟩
      | timeout => exact ⟨h, rfl⟩
      | ack => exact ⟨h, rfl⟩
  | input itemType out rout =>
      simp only [ComputeThread.step] at hstep
      split_ifs at hstep with hguard
      obtain rfl := Option.some.inj hstep
      obtain ⟨⟨htodo, -⟩, -, hup⟩ := hguard
      have hsender := h.sender
      rw [htodo] at hsender
      have hrecords : UpOk c { th with
          todo := out.map (c.wrap .normal)
          rtodo := rout.map (c.wrap .reverse)
          point := .head } sent := by
        refine ⟨hsender.refill hup ?_, ?_, h.types, h.bound, nofun⟩
        · intro entry hentry
          obtain ⟨e, -, rfl⟩ := List.mem_map.mp hentry
          simp [ThreadConfig.wrap]
        · intro entry hentry
          obtain ⟨e, -, rfl⟩ := List.mem_map.mp hentry
          exact ⟨rfl, rfl, .inl rfl⟩
      cases itemType with
      | normal => exact ⟨hrecords, rfl⟩
      | timeout => exact ⟨hrecords, rfl⟩
      | reverse => exact ⟨⟨h.sender, h.tag, h.types, h.bound, nofun⟩, rfl⟩
      | ack => exact ⟨⟨h.sender, h.tag, h.types, h.bound, nofun⟩, rfl⟩
      | finish =>
          refine ⟨⟨?_, ?_, h.types, h.bound, nofun⟩, rfl⟩
          · change SenderOk (th.upStop + 1 = c.numUp)
              (if th.upStop + 1 = c.numUp then c.emitFinish blank else []) sent
            split_ifs with hlast
            · exact hsender.finish hup c blank _ hlast
            · exact hsender.congr ⟨fun h => absurd h hlast, fun h => absurd h hup⟩
          · intro entry hentry
            change entry ∈ (if th.upStop + 1 = c.numUp then c.emitFinish blank else []) at hentry
            split_ifs at hentry with hlast
            · obtain ⟨i, -, rfl⟩ := List.mem_map.mp hentry
              exact ⟨rfl, rfl, .inr rfl⟩
            · cases hentry

/-- Every other step of a lower thread. -/
theorem DownOk.step {sent : ℕ → List (WrapItem ROut)} (h : DownOk c th sent)
    (hstep : th.step c blank rblank act = some th') (hemit : act ≠ .emitReverse) :
    DownOk c th' sent ∧ th'.upStop = th.upStop + countInput act := by
  cases act with
  | emitReverse => exact absurd rfl hemit
  | emit =>
      simp only [ComputeThread.step] at hstep
      split at hstep
      next => cases hstep
      next =>
          obtain rfl := Option.some.inj hstep
          exact ⟨⟨h.sender, h.tag, h.bound, h.left⟩, rfl⟩
  | head =>
      simp only [ComputeThread.step] at hstep
      split_ifs at hstep with hguard hloop
      · obtain rfl := Option.some.inj hstep
        obtain ⟨-, hpoint⟩ := hguard
        exact ⟨⟨h.sender.congr (by simp [hpoint]), h.tag, h.bound, nofun⟩, rfl⟩
      · obtain rfl := Option.some.inj hstep
        obtain ⟨⟨-, hrtodo⟩, hpoint⟩ := hguard
        have hsender := h.sender
        rw [hrtodo] at hsender
        refine ⟨⟨hsender.finish (by simp [hpoint]) c rblank _ rfl, ?_, h.bound, fun _ => ?_⟩, rfl⟩
        · intro entry hentry
          obtain ⟨i, -, rfl⟩ := List.mem_map.mp hentry
          exact ⟨rfl, rfl⟩
        · have hbound := h.bound
          change th.upStop = c.numUp
          omega
  | feedbackNull =>
      simp only [ComputeThread.step] at hstep
      split_ifs at hstep with hguard
      obtain rfl := Option.some.inj hstep
      exact ⟨⟨h.sender.congr (by simp [hguard.2]), h.tag, h.bound, nofun⟩, rfl⟩
  | inputNull =>
      simp only [ComputeThread.step] at hstep
      split_ifs at hstep with hguard
      obtain rfl := Option.some.inj hstep
      exact ⟨⟨h.sender.congr (by simp [hguard.2]), h.tag, h.bound, nofun⟩, rfl⟩
  | feedback itemType rout =>
      simp only [ComputeThread.step] at hstep
      split_ifs at hstep with hguard
      obtain rfl := Option.some.inj hstep
      obtain ⟨⟨-, hrtodo⟩, hpoint, -⟩ := hguard
      have hsender := h.sender
      rw [hrtodo] at hsender
      cases itemType with
      | finish => exact ⟨⟨h.sender, h.tag, h.bound, h.left⟩, rfl⟩
      | reverse =>
          refine ⟨⟨hsender.refill (by simp [hpoint]) ?_, ?_, h.bound, h.left⟩, rfl⟩
          · intro entry hentry
            obtain ⟨e, -, rfl⟩ := List.mem_map.mp hentry
            simp [ThreadConfig.wrap]
          · intro entry hentry
            obtain ⟨e, -, rfl⟩ := List.mem_map.mp hentry
            exact ⟨rfl, rfl⟩
      | normal => exact ⟨h, rfl⟩
      | timeout => exact ⟨h, rfl⟩
      | ack => exact ⟨h, rfl⟩
  | input itemType out rout =>
      simp only [ComputeThread.step] at hstep
      split_ifs at hstep with hguard
      obtain rfl := Option.some.inj hstep
      obtain ⟨⟨-, hrtodo⟩, hpoint, hup⟩ := hguard
      have hsender : SenderOk (LoopPoint.head = .left) th.rtodo sent :=
        h.sender.congr (by simp [hpoint])
      have hempty := hsender
      rw [hrtodo] at hempty
      have hrecords : DownOk c { th with
          todo := out.map (c.wrap .normal)
          rtodo := rout.map (c.wrap .reverse)
          point := .head } sent := by
        refine ⟨hempty.refill nofun ?_, ?_, h.bound, nofun⟩
        · intro entry hentry
          obtain ⟨e, -, rfl⟩ := List.mem_map.mp hentry
          simp [ThreadConfig.wrap]
        · intro entry hentry
          obtain ⟨e, -, rfl⟩ := List.mem_map.mp hentry
          exact ⟨rfl, rfl⟩
      cases itemType with
      | normal => exact ⟨hrecords, rfl⟩
      | timeout => exact ⟨hrecords, rfl⟩
      | reverse => exact ⟨⟨hsender, h.tag, h.bound, nofun⟩, rfl⟩
      | ack => exact ⟨⟨hsender, h.tag, h.bound, nofun⟩, rfl⟩
      | finish =>
          have hbound := h.bound
          exact ⟨⟨hsender, h.tag, Nat.succ_le_of_lt (lt_of_le_of_ne hbound hup), nofun⟩, rfl⟩

end Threads

/-! ## The two stages -/

/-- The topology: how many workers each stage has, their ids, how many compute threads
each of them runs, and how many workers stand before and behind the two stages. The
links and the lists of connected workers are indexed by positions, and two workers of a
stage have different ids; those of the two stages may meet. -/
structure Stages where
  numUpper : ℕ
  numLower : ℕ
  /-- The worker id of upper worker `u`. -/
  upId : ℕ ↪ ℕ
  /-- The worker id of lower worker `j`. -/
  downId : ℕ ↪ ℕ
  upThreads : ℕ → ℕ
  downThreads : ℕ → ℕ
  /-- `num_upstream` of the upper stage; `0` means an external source. -/
  numBefore : ℕ
  /-- `num_downstream` of the lower stage. -/
  numBehind : ℕ

namespace Stages

variable (g : Stages)

/-- Thread `t` of upper worker `u`. -/
def upConfig (u t : ℕ) : ThreadConfig := ⟨g.upId u, t, g.numBefore, g.numLower⟩

/-- Thread `t` of lower worker `j`. -/
def downConfig (j t : ℕ) : ThreadConfig := ⟨g.downId j, t, g.numUpper, g.numBehind⟩

end Stages

/-- Both stages, the links between them, and what the lower threads have passed to
`ProcessData`. -/
structure FinishSystem (T R Q O : Type u) where
  up : ℕ → ℕ → ComputeThread T Q
  down : ℕ → ℕ → ComputeThread O R
  fwd : Link T
  rev : Link R
  processed : ℕ → ℕ → List (WrapItem T)

namespace FinishSystem

variable {T R Q O : Type u}

/-- Steps of compute threads, out callbacks and in callbacks, in both directions. -/
inductive Action (T R Q O : Type u)
  | up (u t : ℕ) (step : ThreadStep T Q)
  | down (j t : ℕ) (step : ThreadStep O R)
  | pull (u j t : ℕ)
  | deliver (u j : ℕ)
  | reversePull (j u t : ℕ)
  | reverseDeliver (j u : ℕ)

/-- The values that uninitialised data of a `FINISH` happens to have. -/
structure Blanks (T R Q O : Type u) where
  out : T
  reverse : R
  before : Q
  behind : O

/-- What the step of an upper thread does to the links: feedback comes from the reverse
link, and an emitted item goes to the forward link. Input comes from outside, and so
do the destinations of its own reverse items. -/
def upLinks (g : Stages) (sys : FinishSystem T R Q O) (u t : ℕ) :
    ThreadStep T Q → Option (Link T × Link R)
  | .feedback itemType _ =>
      (sys.rev.take u t).bind fun (item, rev) =>
        if item.itemType = itemType then some (sys.fwd, rev) else none
  | .emit =>
      match (sys.up u t).todo with
      | (d, item) :: _ => if d < g.numLower then some (sys.fwd.write u d t item, sys.rev) else none
      | [] => none
  | _ => some (sys.fwd, sys.rev)

/-- What the step of a lower thread does to the links: input comes from the forward
link, and an emitted reverse item goes to the reverse link. -/
def downLinks (g : Stages) (sys : FinishSystem T R Q O) (j t : ℕ) :
    ThreadStep O R → Option (Link T × Link R × List (WrapItem T))
  | .input itemType _ _ =>
      (sys.fwd.take j t).bind fun (item, fwd) =>
        if item.itemType = itemType then
          some (fwd, sys.rev, if itemType = .normal then [item] else [])
        else none
  | .emitReverse =>
      match (sys.down j t).rtodo with
      | (d, item) :: _ =>
          if d < g.numUpper then some (sys.fwd, sys.rev.write j d t item, []) else none
      | [] => none
  | _ => some (sys.fwd, sys.rev, [])

/-- One step of the system. -/
def step (g : Stages) (b : Blanks T R Q O) (sys : FinishSystem T R Q O) :
    Action T R Q O → Option (FinishSystem T R Q O)
  | .up u t act =>
      if u < g.numUpper ∧ t < g.upThreads u then
        ((sys.up u t).step (g.upConfig u t) b.out b.before act).bind fun thread =>
          (sys.upLinks g u t act).map fun (fwd, rev) =>
            { sys with
              up := Link.set₂ sys.up u t thread
              fwd := fwd
              rev := rev }
      else none
  | .down j t act =>
      if j < g.numLower ∧ t < g.downThreads j then
        ((sys.down j t).step (g.downConfig j t) b.behind b.reverse act).bind fun thread =>
          (sys.downLinks g j t act).map fun (fwd, rev, new) =>
            { sys with
              down := Link.set₂ sys.down j t thread
              fwd := fwd
              rev := rev
              processed := Link.set₂ sys.processed j t (sys.processed j t ++ new) }
      else none
  | .pull u j t => (sys.fwd.pull (g.upThreads u) u j t).map fun fwd => { sys with fwd := fwd }
  | .deliver u j => (sys.fwd.deliver u j).map fun fwd => { sys with fwd := fwd }
  | .reversePull j u t =>
      (sys.rev.pull (g.downThreads j) j u t).map fun rev => { sys with rev := rev }
  | .reverseDeliver j u => (sys.rev.deliver j u).map fun rev => { sys with rev := rev }

/-- Every interleaving. -/
def machine (g : Stages) (b : Blanks T R Q O) :
    Machine (FinishSystem T R Q O) (Action T R Q O) where
  init :=
    { up := fun _ _ => .create
      down := fun _ _ => .create
      fwd := .create g.numUpper g.downThreads
      rev := .create g.numLower g.upThreads
      processed := fun _ _ => [] }
  step := step g b

/-- What every interleaving preserves. -/
structure Inv (g : Stages) (sys : FinishSystem T R Q O) : Prop where
  fwd : sys.fwd.Inv g.upId g.numUpper g.upThreads g.downThreads
  rev : sys.rev.Inv g.downId g.numLower g.downThreads g.upThreads
  up : ∀ u < g.numUpper, ∀ t < g.upThreads u,
    UpOk (g.upConfig u t) (sys.up u t) (fun j => sys.fwd.sent u j t) ∧
      (sys.up u t).downStop = (finishSources (sys.rev.taken u t)).length
  down : ∀ j < g.numLower, ∀ t < g.downThreads j,
    DownOk (g.downConfig j t) (sys.down j t) (fun u => sys.rev.sent j u t) ∧
      (sys.down j t).upStop = (finishSources (sys.fwd.taken j t)).length ∧
      sys.processed j t = (sys.fwd.taken j t).filter fun x => x.itemType = .normal

variable {g : Stages} {b : Blanks T R Q O} {sys sys' : FinishSystem T R Q O}

theorem Inv.init : (machine g b).init.Inv g where
  fwd := .create
  rev := .create
  up := fun _ _ _ _ => ⟨.create, rfl⟩
  down := fun _ _ _ _ => ⟨.create, rfl, rfl⟩

/-- Steps of callbacks: nothing is sent or taken. -/
theorem Inv.of_links (h : sys.Inv g) {fwd : Link T} {rev : Link R}
    (hfwd : fwd.Inv g.upId g.numUpper g.upThreads g.downThreads ∧ fwd.sent = sys.fwd.sent ∧
      fwd.taken = sys.fwd.taken)
    (hrev : rev.Inv g.downId g.numLower g.downThreads g.upThreads ∧ rev.sent = sys.rev.sent ∧
      rev.taken = sys.rev.taken) :
    Inv g { sys with fwd := fwd, rev := rev } where
  fwd := hfwd.1
  rev := hrev.1
  up := by
    simp only [hfwd.2.1, hrev.2.2]
    exact h.up
  down := by
    simp only [hfwd.2.2, hrev.2.1]
    exact h.down

/-- The rule for steps of an upper thread. -/
theorem Inv.of_up (h : sys.Inv g) {u t : ℕ} {thread : ComputeThread T Q} {fwd : Link T}
    {rev : Link R} (hfwd : fwd.Inv g.upId g.numUpper g.upThreads g.downThreads)
    (hrev : rev.Inv g.downId g.numLower g.downThreads g.upThreads)
    (hsent : ∀ u' j t', ¬(u' = u ∧ t' = t) → fwd.sent u' j t' = sys.fwd.sent u' j t')
    (htaken : fwd.taken = sys.fwd.taken) (hrsent : rev.sent = sys.rev.sent)
    (hrtaken : ∀ u' t', ¬(u' = u ∧ t' = t) → rev.taken u' t' = sys.rev.taken u' t')
    (hself : UpOk (g.upConfig u t) thread (fun j => fwd.sent u j t) ∧
      thread.downStop = (finishSources (rev.taken u t)).length) :
    Inv g { sys with up := Link.set₂ sys.up u t thread, fwd := fwd, rev := rev } where
  fwd := hfwd
  rev := hrev
  up := by
    intro u' hu' t' ht'
    by_cases hsame : u' = u ∧ t' = t
    · obtain ⟨rfl, rfl⟩ := hsame
      simp only [Link.set₂_self]
      exact hself
    · have hthread := h.up u' hu' t' ht'
      simp only [Link.set₂_of_ne hsame, hrtaken u' t' hsame]
      rwa [show (fun j => fwd.sent u' j t') = fun j => sys.fwd.sent u' j t' from
        funext fun j => hsent u' j t' hsame]
  down := by
    simp only [htaken, hrsent]
    exact h.down

/-- The rule for steps of a lower thread. -/
theorem Inv.of_down (h : sys.Inv g) {j t : ℕ} {thread : ComputeThread O R} {fwd : Link T}
    {rev : Link R} {new : List (WrapItem T)}
    (hfwd : fwd.Inv g.upId g.numUpper g.upThreads g.downThreads)
    (hrev : rev.Inv g.downId g.numLower g.downThreads g.upThreads)
    (hrsent : ∀ j' u t', ¬(j' = j ∧ t' = t) → rev.sent j' u t' = sys.rev.sent j' u t')
    (hrtaken : rev.taken = sys.rev.taken) (hsent : fwd.sent = sys.fwd.sent)
    (htaken : ∀ j' t', ¬(j' = j ∧ t' = t) → fwd.taken j' t' = sys.fwd.taken j' t')
    (hself : DownOk (g.downConfig j t) thread (fun u => rev.sent j u t) ∧
      thread.upStop = (finishSources (fwd.taken j t)).length ∧
      sys.processed j t ++ new = (fwd.taken j t).filter fun x => x.itemType = .normal) :
    Inv g { sys with
      down := Link.set₂ sys.down j t thread
      fwd := fwd
      rev := rev
      processed := Link.set₂ sys.processed j t (sys.processed j t ++ new) } where
  fwd := hfwd
  rev := hrev
  up := by
    simp only [hrtaken, hsent]
    exact h.up
  down := by
    intro j' hj' t' ht'
    by_cases hsame : j' = j ∧ t' = t
    · obtain ⟨rfl, rfl⟩ := hsame
      simp only [Link.set₂_self]
      exact hself
    · have hthread := h.down j' hj' t' ht'
      simp only [Link.set₂_of_ne hsame, htaken j' t' hsame]
      rwa [show (fun u => rev.sent j' u t') = fun u => sys.rev.sent j' u t' from
        funext fun u => hrsent j' u t' hsame]

/-- What the step of an upper thread does to the links. -/
theorem upLinks_cases {u t : ℕ} {act : ThreadStep T Q} {fwd : Link T} {rev : Link R}
    (hlinks : sys.upLinks g u t act = some (fwd, rev)) :
    (∃ item rout, act = .feedback item.itemType rout ∧ fwd = sys.fwd ∧
        sys.rev.take u t = some (item, rev)) ∨
      (act = .emit ∧ ∃ d item rest, (sys.up u t).todo = (d, item) :: rest ∧
        fwd = sys.fwd.write u d t item ∧ rev = sys.rev) ∨
      (act ≠ .emit ∧ countFeedback act = 0 ∧ fwd = sys.fwd ∧ rev = sys.rev) := by
  cases act with
  | feedback itemType rout =>
      obtain ⟨⟨item, rev'⟩, htake, hrest⟩ := Option.bind_eq_some_iff.mp hlinks
      simp only at hrest
      split_ifs at hrest with htype
      obtain ⟨rfl, rfl⟩ := Prod.mk.inj (Option.some.inj hrest)
      exact .inl ⟨item, rout, by rw [htype], rfl, htake⟩
  | emit =>
      simp only [upLinks] at hlinks
      split at hlinks
      next d item rest htodo =>
          split_ifs at hlinks
          obtain ⟨rfl, rfl⟩ := Prod.mk.inj (Option.some.inj hlinks)
          exact .inr (.inl ⟨rfl, d, item, rest, htodo, rfl, rfl⟩)
      next => cases hlinks
  | head =>
      obtain ⟨rfl, rfl⟩ := Prod.mk.inj (Option.some.inj hlinks)
      exact .inr (.inr ⟨nofun, rfl, rfl, rfl⟩)
  | feedbackNull =>
      obtain ⟨rfl, rfl⟩ := Prod.mk.inj (Option.some.inj hlinks)
      exact .inr (.inr ⟨nofun, rfl, rfl, rfl⟩)
  | input itemType out rout =>
      obtain ⟨rfl, rfl⟩ := Prod.mk.inj (Option.some.inj hlinks)
      exact .inr (.inr ⟨nofun, rfl, rfl, rfl⟩)
  | inputNull =>
      obtain ⟨rfl, rfl⟩ := Prod.mk.inj (Option.some.inj hlinks)
      exact .inr (.inr ⟨nofun, rfl, rfl, rfl⟩)
  | emitReverse =>
      obtain ⟨rfl, rfl⟩ := Prod.mk.inj (Option.some.inj hlinks)
      exact .inr (.inr ⟨nofun, rfl, rfl, rfl⟩)

/-- What the step of a lower thread does to the links. -/
theorem downLinks_cases {j t : ℕ} {act : ThreadStep O R} {fwd : Link T} {rev : Link R}
    {new : List (WrapItem T)} (hlinks : sys.downLinks g j t act = some (fwd, rev, new)) :
    (∃ item out rout, act = .input item.itemType out rout ∧ rev = sys.rev ∧
        sys.fwd.take j t = some (item, fwd) ∧
        new = if item.itemType = .normal then [item] else []) ∨
      (act = .emitReverse ∧ ∃ d item rest, (sys.down j t).rtodo = (d, item) :: rest ∧
        rev = sys.rev.write j d t item ∧ fwd = sys.fwd ∧ new = []) ∨
      (act ≠ .emitReverse ∧ countInput act = 0 ∧ fwd = sys.fwd ∧ rev = sys.rev ∧ new = []) := by
  cases act with
  | input itemType out rout =>
      obtain ⟨⟨item, fwd'⟩, htake, hrest⟩ := Option.bind_eq_some_iff.mp hlinks
      simp only at hrest
      split_ifs at hrest with htype hnormal
      · obtain ⟨rfl, rfl, rfl⟩ := by simpa using hrest
        exact .inl ⟨item, out, rout, by rw [htype], rfl, htake, by rw [htype, if_pos hnormal]⟩
      · obtain ⟨rfl, rfl, rfl⟩ := by simpa using hrest
        exact .inl ⟨item, out, rout, by rw [htype], rfl, htake, by rw [htype, if_neg hnormal]⟩
  | emitReverse =>
      simp only [downLinks] at hlinks
      split at hlinks
      next d item rest htodo =>
          split_ifs at hlinks
          obtain ⟨rfl, rfl, rfl⟩ := by simpa using hlinks
          exact .inr (.inl ⟨rfl, d, item, rest, htodo, rfl, rfl, rfl⟩)
      next => cases hlinks
  | head =>
      obtain ⟨rfl, rfl, rfl⟩ := by simpa [downLinks] using hlinks
      exact .inr (.inr ⟨nofun, rfl, rfl, rfl, rfl⟩)
  | feedback itemType rout =>
      obtain ⟨rfl, rfl, rfl⟩ := by simpa [downLinks] using hlinks
      exact .inr (.inr ⟨nofun, rfl, rfl, rfl, rfl⟩)
  | feedbackNull =>
      obtain ⟨rfl, rfl, rfl⟩ := by simpa [downLinks] using hlinks
      exact .inr (.inr ⟨nofun, rfl, rfl, rfl, rfl⟩)
  | inputNull =>
      obtain ⟨rfl, rfl, rfl⟩ := by simpa [downLinks] using hlinks
      exact .inr (.inr ⟨nofun, rfl, rfl, rfl, rfl⟩)
  | emit =>
      obtain ⟨rfl, rfl, rfl⟩ := by simpa [downLinks] using hlinks
      exact .inr (.inr ⟨nofun, rfl, rfl, rfl, rfl⟩)

/-- One more item on one of the lists of a thread. -/
theorem push₃_row {α : Type u} (sent : ℕ → ℕ → ℕ → List α) (s d t : ℕ) (x : α) :
    (fun r => Link.push₃ sent s d t x s r t) =
      Function.update (fun r => sent s r t) d (sent s d t ++ [x]) := by
  funext r
  by_cases hr : r = d
  · subst hr
    rw [Link.push₃_self, Function.update_self]
  · rw [Link.push₃_of_ne fun hne => hr hne.2.1, Function.update_of_ne hr]

/-- A step of an upper thread. -/
theorem Inv.upStep (h : sys.Inv g) {u t : ℕ} {act : ThreadStep T Q}
    (hstep : step g b sys (.up u t act) = some sys') : sys'.Inv g := by
  simp only [step] at hstep
  split_ifs at hstep with hguard
  obtain ⟨hu, ht⟩ := hguard
  obtain ⟨thread, hthread, hrest⟩ := Option.bind_eq_some_iff.mp hstep
  obtain ⟨⟨fwd, rev⟩, hlinks, rfl⟩ := Option.map_eq_some_iff.mp hrest
  obtain ⟨hok, hcount⟩ := h.up u hu t ht
  rcases upLinks_cases hlinks with ⟨item, rout, rfl, rfl, htake⟩ |
    ⟨rfl, d, item, rest, htodo, rfl, rfl⟩ | ⟨hemit, hnone, rfl, rfl⟩
  · obtain ⟨hrev, hsent, htaken⟩ := h.rev.take htake
    obtain ⟨hok', hstop⟩ := hok.step hthread nofun
    refine h.of_up h.fwd hrev (fun _ _ _ _ => rfl) rfl hsent (fun u' t' hne => ?_) ⟨hok', ?_⟩
    · rw [htaken, Link.set₂_of_ne hne]
    · rw [hstop, htaken, Link.set₂_self, finishSources_append, List.length_append, hcount]
      congr 1
      cases htype : item.itemType <;> simp [finishSources, htype, countFeedback]
  · obtain ⟨hok', hstop, hopen, hworker, hthr⟩ := hok.emit hthread htodo
    have hfwd := h.fwd.write hu ht hworker hthr hopen
    refine h.of_up hfwd h.rev (fun u' j t' hne => ?_) rfl rfl (fun _ _ _ => rfl)
      ⟨?_, hstop.trans hcount⟩
    · exact Link.push₃_of_ne fun hsame => hne ⟨hsame.1, hsame.2.2⟩
    · change UpOk _ _ fun j => Link.push₃ sys.fwd.sent u d t item u j t
      rw [push₃_row]
      exact hok'
  · obtain ⟨hok', hstop⟩ := hok.step hthread hemit
    rw [hnone, Nat.add_zero] at hstop
    exact h.of_up h.fwd h.rev (fun _ _ _ _ => rfl) rfl rfl (fun _ _ _ => rfl)
      ⟨hok', hstop.trans hcount⟩

/-- A step of a lower thread. -/
theorem Inv.downStep (h : sys.Inv g) {j t : ℕ} {act : ThreadStep O R}
    (hstep : step g b sys (.down j t act) = some sys') : sys'.Inv g := by
  simp only [step] at hstep
  split_ifs at hstep with hguard
  obtain ⟨hj, ht⟩ := hguard
  obtain ⟨thread, hthread, hrest⟩ := Option.bind_eq_some_iff.mp hstep
  obtain ⟨⟨fwd, rev, new⟩, hlinks, rfl⟩ := Option.map_eq_some_iff.mp hrest
  obtain ⟨hok, hcount, hprocessed⟩ := h.down j hj t ht
  rcases downLinks_cases hlinks with ⟨item, out, rout, rfl, rfl, htake, rfl⟩ |
    ⟨rfl, d, item, rest, htodo, rfl, rfl, rfl⟩ | ⟨hemit, hnone, rfl, rfl, rfl⟩
  · obtain ⟨hfwd, hsent, htaken⟩ := h.fwd.take htake
    obtain ⟨hok', hstop⟩ := hok.step hthread nofun
    refine h.of_down hfwd h.rev (fun _ _ _ _ => rfl) rfl hsent (fun j' t' hne => ?_)
      ⟨hok', ?_, ?_⟩
    · rw [htaken, Link.set₂_of_ne hne]
    · rw [hstop, htaken, Link.set₂_self, finishSources_append, List.length_append, hcount]
      congr 1
      cases htype : item.itemType <;> simp [finishSources, htype, countInput]
    · rw [htaken, Link.set₂_self, List.filter_append, hprocessed]
      congr 1
      by_cases htype : item.itemType = .normal
      · simp [htype]
      · simp [htype]
  · obtain ⟨hok', hstop, hopen, hworker, hthr⟩ := hok.emitReverse hthread htodo
    have hrev := h.rev.write hj ht hworker hthr hopen
    refine h.of_down h.fwd hrev (fun j' u t' hne => ?_) rfl rfl (fun _ _ _ => rfl)
      ⟨?_, hstop.trans hcount, by rw [List.append_nil, hprocessed]⟩
    · exact Link.push₃_of_ne fun hsame => hne ⟨hsame.1, hsame.2.2⟩
    · change DownOk _ _ fun u => Link.push₃ sys.rev.sent j d t item j u t
      rw [push₃_row]
      exact hok'
  · obtain ⟨hok', hstop⟩ := hok.step hthread hemit
    rw [hnone, Nat.add_zero] at hstop
    exact h.of_down h.fwd h.rev (fun _ _ _ _ => rfl) rfl rfl (fun _ _ _ => rfl)
      ⟨hok', hstop.trans hcount, by rw [List.append_nil, hprocessed]⟩

theorem Inv.step (h : sys.Inv g) {action : Action T R Q O}
    (hstep : step g b sys action = some sys') : sys'.Inv g := by
  cases action with
  | up u t act => exact h.upStep hstep
  | down j t act => exact h.downStep hstep
  | pull u j t =>
      obtain ⟨fwd, hpull, rfl⟩ := Option.map_eq_some_iff.mp hstep
      exact h.of_links (h.fwd.pull hpull) ⟨h.rev, rfl, rfl⟩
  | deliver u j =>
      obtain ⟨fwd, hdeliver, rfl⟩ := Option.map_eq_some_iff.mp hstep
      exact h.of_links (h.fwd.deliver hdeliver) ⟨h.rev, rfl, rfl⟩
  | reversePull j u t =>
      obtain ⟨rev, hpull, rfl⟩ := Option.map_eq_some_iff.mp hstep
      exact h.of_links ⟨h.fwd, rfl, rfl⟩ (h.rev.pull hpull)
  | reverseDeliver j u =>
      obtain ⟨rev, hdeliver, rfl⟩ := Option.map_eq_some_iff.mp hstep
      exact h.of_links ⟨h.fwd, rfl, rfl⟩ (h.rev.deliver hdeliver)

theorem Inv.reachable (hreach : (machine g b).Reachable sys) : sys.Inv g :=
  Machine.Reachable.invariant _ Inv.init (fun h hstep => h.step hstep) hreach

/-- When an upper thread has left its loop, the first thread of every lower worker has
left its own. -/
theorem Inv.lower_left (h : sys.Inv g) {u t j : ℕ} (hu : u < g.numUpper)
    (ht : t < g.upThreads u) (hj : j < g.numLower) (hleft : (sys.up u t).point = .left) :
    0 < g.downThreads j ∧ (sys.down j 0).point = .left := by
  obtain ⟨hok, hcount⟩ := h.up u hu t ht
  have hall : (finishSources (sys.rev.taken u t)).length = g.numLower := by
    rw [← hcount]
    exact hok.left hleft
  obtain ⟨hpos, hfinished⟩ := h.rev.all_finished ht (h.rev.finish_of_count ht hall hj)
  refine ⟨hpos, ?_⟩
  by_contra hpoint
  have hopen := ((h.down j hj 0 hpos).1.sender.unfinished hpoint).1 u
  simp only [h.rev.sent_eq, hasFinish_append, hfinished 0 hpos, Bool.true_or] at hopen
  cases hopen

/-- **Termination safety.** Whenever a compute thread of an upper worker `u` has left
its main loop, what any thread `t'` of `u` has ever emitted to a lower worker `j` has
been passed to `ProcessData` by the first thread of `j`, item by item and in order. -/
theorem finish_after_processing (g : Stages) (b : Blanks T R Q O) {sys : FinishSystem T R Q O}
    (hreach : (machine g b).Reachable sys) {u t j t' : ℕ} (hu : u < g.numUpper)
    (ht : t < g.upThreads u) (hj : j < g.numLower) (ht' : t' < g.upThreads u)
    (hleft : (sys.up u t).point = .left) :
    (sys.up u t).downStop = g.numLower ∧ 0 < g.downThreads j ∧
    records (sys.fwd.sent u j t') =
      (sys.processed j 0).filter fun x => x.workerSource = g.upId u ∧ x.thrSource = t' := by
  have h := Inv.reachable hreach
  obtain ⟨hpos, hlower⟩ := h.lower_left hu ht hj hleft
  obtain ⟨hdown, hcount, hprocessed⟩ := h.down j hj 0 hpos
  have hall : (finishSources (sys.fwd.taken j 0)).length = g.numUpper := by
    rw [← hcount, hdown.left hlower, ThreadConfig.numUp]
    exact if_neg (by change g.numUpper ≠ 0; omega)
  have hrecords := h.fwd.records_taken hpos (h.fwd.finish_of_count hpos hall hu) ht'
  refine ⟨(h.up u hu t ht).1.left hleft, hpos, ?_⟩
  -- a thread sends nothing but records and `FINISH`
  have hnormal : records (sys.fwd.sent u j t') =
      (records (sys.fwd.sent u j t')).filter fun x => x.itemType = .normal := by
    symm
    rw [List.filter_eq_self]
    intro x hx
    obtain ⟨hmem, htype⟩ := List.mem_filter.mp hx
    rcases (h.up u hu t' ht').1.types j x hmem with hx | hx
    · simpa using hx
    · simp [hx] at htype
  calc records (sys.fwd.sent u j t')
      = (records (fromThread t' (fromWorker (g.upId u) (sys.fwd.taken j 0)))).filter
          (fun x => x.itemType = .normal) := by rw [hnormal, hrecords]
    _ = (sys.processed j 0).filter fun x => x.workerSource = g.upId u ∧ x.thrSource = t' := by
        rw [hprocessed, records, fromThread, fromWorker]
        simp only [List.filter_filter]
        refine List.filter_congr fun x _ => ?_
        cases x.itemType <;> simp [and_comm]

/-- Worker 0 with two threads, worker 1 with one, and an external source. The flag of
worker 1 is the second of worker 0, which is why worker 0 needs two threads. -/
def exampleStages : Stages where
  numUpper := 1
  numLower := 1
  upId := .refl ℕ
  downId := ⟨fun j => j + 1, Nat.succ_injective⟩
  upThreads := fun _ => 2
  downThreads := fun _ => 1
  numBefore := 0
  numBehind := 0

/-- One record of the first thread and the whole handshake. -/
def exampleRun : List (Action ℕ Unit Unit Unit) :=
  [.up 0 0 .head, .up 0 0 .feedbackNull, .up 0 0 (.input .normal [⟨0, 0, 7⟩] []), .up 0 0 .emit,
    .up 0 0 .head, .up 0 0 .feedbackNull, .up 0 0 (.input .finish [] []), .up 0 0 .emit,
    .up 0 1 .head, .up 0 1 .feedbackNull, .up 0 1 (.input .finish [] []), .up 0 1 .emit,
    .pull 0 0 0, .pull 0 0 0, .pull 0 0 1, .deliver 0 0, .deliver 0 0,
    .down 0 0 .head, .down 0 0 .feedbackNull, .down 0 0 (.input .normal [] []),
    .down 0 0 .head, .down 0 0 .feedbackNull, .down 0 0 (.input .finish [] []),
    .down 0 0 .head, .down 0 0 .emitReverse, .reversePull 0 0 0, .reverseDeliver 0 0,
    .up 0 0 .head, .up 0 0 (.feedback .finish []), .up 0 0 .feedbackNull, .up 0 0 .inputNull,
    .up 0 0 .head]

theorem finish_after_processing_one_record :
    ∃ sys, (machine exampleStages ⟨0, (), (), ()⟩).runFrom
        (machine exampleStages ⟨0, (), (), ()⟩).init exampleRun = some sys ∧
      records (sys.fwd.sent 0 0 0) = [⟨.normal, 0, 0, 0, 7⟩] ∧
      records (sys.fwd.sent 0 0 0) =
        (sys.processed 0 0).filter fun x => x.workerSource = 0 ∧ x.thrSource = 0 := by
  have hrun : ((machine exampleStages ⟨0, (), (), ()⟩).runFrom
      (machine exampleStages ⟨0, (), (), ()⟩).init exampleRun).map
        (fun sys => ((sys.up 0 0).point, records (sys.fwd.sent 0 0 0))) =
      some (.left, [⟨.normal, 0, 0, 0, 7⟩]) := by
    decide +kernel
  obtain ⟨sys, hsys, hresult⟩ := Option.map_eq_some_iff.mp hrun
  obtain ⟨hleft, hsent⟩ := Prod.mk.inj hresult
  exact ⟨sys, hsys, hsent, (finish_after_processing exampleStages _ ⟨exampleRun, hsys⟩
    (by decide) (by decide) (by decide) (by decide) hleft).2.2⟩

end FinishSystem

end AFStream.Thread

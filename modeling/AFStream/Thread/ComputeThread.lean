/-
# The main loop of a compute thread

`ThreadMainHandler` alternates between its two input queues: it drains the feedback
queue, takes at most one item from the forward queue and starts again, until it has
counted a `FINISH` from every upstream and every downstream worker. The forward
`FINISH` is emitted as soon as the upstream count is complete, the reverse one only
after the loop. User handlers are arbitrary: a step carries what the handler emits.
Backups of operators, which the loop makes after each item, exchange no items and
are modelled with the operators.
-/

import AFStream.WrapItem
import Mathlib.Tactic

namespace AFStream.Thread

universe u v

/-- Where the loop stands. -/
inductive LoopPoint
  | /-- Before the loop condition. -/
    head
  | /-- In the inner loop over the feedback queue. -/
    reverse
  | /-- Before the forward queue is looked at. -/
    forward
  | /-- Behind the loop. -/
    left
  deriving DecidableEq

/-- The local variables of `ThreadMainHandler`, and the items that the call in progress
has still to write. -/
structure ComputeThread (Out : Type u) (ROut : Type v) where
  upStop : ℕ
  downStop : ℕ
  point : LoopPoint
  todo : List (ℕ × WrapItem Out)
  rtodo : List (ℕ × WrapItem ROut)

/-- A call of `EmitData` or `EmitReverseData` by a handler. The sequence number is what
the slot holds from its last use. -/
structure Emission (T : Type u) where
  dest : ℕ
  seq : ℕ
  data : T

/-- What a thread is created with. -/
structure ThreadConfig where
  wid : ℕ
  tid : ℕ
  numUpstream : ℕ
  numDownstream : ℕ

namespace ThreadConfig

variable (c : ThreadConfig)

/-- `num_upstream_` in the loop: no upstream implies an external source. -/
def numUp : ℕ := if c.numUpstream = 0 then 1 else c.numUpstream

/-- The item that `EmitData` and `EmitReverseData` write. -/
def wrap {T : Type u} (itemType : ItemType) (e : Emission T) : ℕ × WrapItem T :=
  (e.dest, ⟨itemType, e.seq, c.tid, c.wid, e.data⟩)

/-- A `FINISH` for each of the first `n` destinations. -/
def finishFor {T : Type u} (blank : T) (n : ℕ) : List (ℕ × WrapItem T) :=
  (List.range n).map fun i => (i, ⟨.finish, 0, c.tid, c.wid, blank⟩)

/-- `EmitFinish` -/
def emitFinish {T : Type u} (blank : T) : List (ℕ × WrapItem T) :=
  c.finishFor blank c.numDownstream

/-- `EmitReverseFinish` -/
def emitReverseFinish {T : Type u} (blank : T) : List (ℕ × WrapItem T) :=
  c.finishFor blank c.numUpstream

end ThreadConfig

/-- One step of a thread. An input step is labelled with the type of the item and with
what the handler called for it emits; `ProcessFeedback` emits only backwards. -/
inductive ThreadStep (Out : Type u) (ROut : Type v)
  | head
  | feedback (itemType : ItemType) (rout : List (Emission ROut))
  | feedbackNull
  | input (itemType : ItemType) (out : List (Emission Out)) (rout : List (Emission ROut))
  | inputNull
  | emit
  | emitReverse

namespace ComputeThread

variable {Out : Type u} {ROut : Type v}

/-- The thread when it enters the main handler. -/
def create : ComputeThread Out ROut where
  upStop := 0
  downStop := 0
  point := .head
  todo := []
  rtodo := []

/-- No call is in progress. -/
def Idle (th : ComputeThread Out ROut) : Prop := th.todo = [] ∧ th.rtodo = []

instance (th : ComputeThread Out ROut) : Decidable th.Idle :=
  inferInstanceAs (Decidable (_ ∧ _))

/-- The switch of the feedback queue. -/
def onFeedback (c : ThreadConfig) (th : ComputeThread Out ROut) (rout : List (Emission ROut)) :
    ItemType → ComputeThread Out ROut
  | .finish => { th with downStop := th.downStop + 1 }
  | .reverse => { th with rtodo := rout.map (c.wrap .reverse) }
  | _ => th

/-- The switch of the forward queue. -/
def onInput (c : ThreadConfig) (blank : Out) (th : ComputeThread Out ROut)
    (out : List (Emission Out)) (rout : List (Emission ROut)) :
    ItemType → ComputeThread Out ROut
  | .finish =>
      { th with
        upStop := th.upStop + 1
        todo := if th.upStop + 1 = c.numUp then c.emitFinish blank else [] }
  | .timeout | .normal =>
      { th with
        todo := out.map (c.wrap .normal)
        rtodo := rout.map (c.wrap .reverse) }
  | _ => th

/-- One step of the main handler. -/
def step (c : ThreadConfig) (blank : Out) (rblank : ROut) (th : ComputeThread Out ROut) :
    ThreadStep Out ROut → Option (ComputeThread Out ROut)
  | .head =>
      if th.Idle ∧ th.point = .head then
        if th.upStop < c.numUp ∨ th.downStop < c.numDownstream then
          some { th with point := .reverse }
        else some { th with point := .left, rtodo := c.emitReverseFinish rblank }
      else none
  | .feedback itemType rout =>
      if th.Idle ∧ th.point = .reverse ∧ th.downStop < c.numDownstream then
        some (th.onFeedback c rout itemType)
      else none
  | .feedbackNull =>
      if th.Idle ∧ th.point = .reverse then some { th with point := .forward } else none
  | .input itemType out rout =>
      if th.Idle ∧ th.point = .forward ∧ th.upStop ≠ c.numUp then
        some { th.onInput c blank out rout itemType with point := .head }
      else none
  | .inputNull =>
      if th.Idle ∧ th.point = .forward then some { th with point := .head } else none
  | .emit =>
      match th.todo with
      | [] => none
      | _ :: rest => some { th with todo := rest }
  | .emitReverse =>
      match th.rtodo with
      | [] => none
      | _ :: rest => some { th with rtodo := rest }

end ComputeThread

end AFStream.Thread

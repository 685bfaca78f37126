/-
# Partial deterministic machines and their runs

A machine has one initial state and a partial step function. All the
nondeterminism of a concurrent program sits in the action that is chosen, so an
interleaving is a list of actions, a blocked call is an action whose step is
undefined, and a run can be evaluated. The two rules of this module are the only
inductions over runs that a client needs: an invariant is checked on one step,
and what holds of all visited states is traced back to the steps that were taken.
-/

import Mathlib.Tactic

namespace AFStream.Foundation

universe u v w

/-- One initial state and a partial, deterministic step. -/
structure Machine (State : Type u) (Action : Type v) where
  /-- The state every run starts in. -/
  init : State
  /-- The state after an action, or `none` when the action is not enabled. -/
  step : State → Action → Option State

namespace Machine

variable {State : Type u} {Action : Type v} (M : Machine State Action)

/-- Perform the actions in order; the run is undefined as soon as one of them is
not enabled. -/
def runFrom : State → List Action → Option State
  | state, [] => some state
  | state, action :: rest => (M.step state action).bind (runFrom · rest)

/-- `P` holds of every state that a run visits, the first one included. -/
def Always (P : State → Prop) : State → List Action → Prop
  | state, [] => P state
  | state, action :: rest =>
    P state ∧ ∀ next, M.step state action = some next → Always P next rest

/-- `Q` holds of every step that a run takes: of the state before it and the action. -/
def AlwaysStep (Q : State → Action → Prop) : State → List Action → Prop
  | _, [] => True
  | state, action :: rest =>
    ∀ next, M.step state action = some next → Q state action ∧ AlwaysStep Q next rest

/-- A state some interleaving leads to. -/
def Reachable (state : State) : Prop :=
  ∃ actions, M.runFrom M.init actions = some state

/-- A condition on steps can be checked along a run. -/
instance decidableAlwaysStep {Q : State → Action → Prop}
    [∀ state action, Decidable (Q state action)] :
    ∀ (actions : List Action) (state : State), Decidable (M.AlwaysStep Q state actions)
  | [], _ => isTrue trivial
  | action :: rest, state =>
    match hstep : M.step state action with
    | none => isTrue fun next hnext => absurd (hstep.symm.trans hnext) (by simp)
    | some next =>
      have : Decidable (M.AlwaysStep Q next rest) := decidableAlwaysStep rest next
      decidable_of_iff (Q state action ∧ M.AlwaysStep Q next rest)
        ⟨fun h _ hnext => Option.some.inj (hstep.symm.trans hnext) ▸ h, fun h => h next hstep⟩

@[simp]
theorem runFrom_nil (state : State) : M.runFrom state [] = some state := rfl

theorem runFrom_cons (state : State) (action : Action) (rest : List Action) :
    M.runFrom state (action :: rest) =
      (M.step state action).bind (M.runFrom · rest) := rfl

/-- Runs compose at any intermediate state. -/
theorem runFrom_append (first second : List Action) (state : State) :
    M.runFrom state (first ++ second) =
      (M.runFrom state first).bind (M.runFrom · second) := by
  induction first generalizing state with
  | nil => rfl
  | cons action rest ih =>
      simp only [List.cons_append, runFrom_cons]
      cases M.step state action with
      | none => rfl
      | some next => exact ih next

variable {M}

/-- The last step of a run. -/
theorem runFrom_concat_eq_some {actions : List Action} {action : Action}
    {start target : State} :
    M.runFrom start (actions ++ [action]) = some target ↔
      ∃ middle, M.runFrom start actions = some middle ∧
        M.step middle action = some target := by
  simp only [runFrom_append, Option.bind_eq_some_iff, runFrom_cons, runFrom_nil]
  refine exists_congr fun middle => and_congr_right fun _ => ?_
  cases M.step middle action <;> simp

/-- **Invariant rule.** What every enabled step preserves holds after every
run from a state where it holds. -/
theorem runFrom_invariant (Inv : State → Prop)
    (hstep : ∀ {state action next},
      Inv state → M.step state action = some next → Inv next)
    {actions : List Action} {start target : State}
    (hstart : Inv start) (hrun : M.runFrom start actions = some target) :
    Inv target := by
  induction actions generalizing start with
  | nil =>
      obtain rfl : start = target := by simpa using hrun
      exact hstart
  | cons action rest ih =>
      obtain ⟨middle, hmiddle, hrest⟩ := Option.bind_eq_some_iff.mp hrun
      exact ih (hstep hstart hmiddle) hrest

/-- **Progress rule.** If in every state of an invariant the actions at hand are enabled
and keep it, then they can be performed one after the other. -/
theorem runFrom_progress (Inv : State → Prop) {actions : List Action}
    (hstep : ∀ {state}, ∀ action ∈ actions, Inv state →
      ∃ next, M.step state action = some next ∧ Inv next)
    {start : State} (hstart : Inv start) :
    ∃ target, M.runFrom start actions = some target ∧ Inv target := by
  induction actions generalizing start with
  | nil => exact ⟨start, rfl, hstart⟩
  | cons action rest ih =>
      obtain ⟨next, hnext, hinv⟩ := hstep action List.mem_cons_self hstart
      obtain ⟨target, htarget, hinv'⟩ :=
        ih (fun other hother => hstep other (List.mem_cons_of_mem action hother)) hinv
      refine ⟨target, ?_, hinv'⟩
      rw [runFrom_cons, hnext]
      exact htarget

/-- What always holds holds of the last state of a run. -/
theorem Always.of_runFrom {P : State → Prop} {actions : List Action} {start target : State}
    (halways : M.Always P start actions) (hrun : M.runFrom start actions = some target) :
    P target := by
  induction actions generalizing start with
  | nil =>
      obtain rfl := Option.some.inj hrun
      exact halways
  | cons action rest ih =>
      obtain ⟨middle, hmiddle, hrest⟩ := Option.bind_eq_some_iff.mp hrun
      exact ih (halways.2 middle hmiddle) hrest

/-- What always holds may be weakened. -/
theorem Always.mono {P P' : State → Prop} (hweaken : ∀ state, P state → P' state)
    {actions : List Action} {start : State} (halways : M.Always P start actions) :
    M.Always P' start actions := by
  induction actions generalizing start with
  | nil => exact hweaken start halways
  | cons action rest ih =>
      exact ⟨hweaken start halways.1, fun next hnext => ih (halways.2 next hnext)⟩

/-- **Condition rule.** If the target of every step is good exactly when the step meets
a condition, then all states of a run are good exactly when all its steps meet it. What
else is needed for this may be assumed as long as the states are good. -/
theorem always_iff_alwaysStep (Inv P : State → Prop) (Q : State → Action → Prop)
    (hstep : ∀ {state action next}, Inv state → P state → M.step state action = some next →
      (P next ↔ Q state action) ∧ (P next → Inv next))
    {actions : List Action} {start : State} (hstart : Inv start) (hgood : P start) :
    M.Always P start actions ↔ M.AlwaysStep Q start actions := by
  induction actions generalizing start with
  | nil => exact ⟨fun _ => trivial, fun _ => hgood⟩
  | cons action rest ih =>
      constructor
      · rintro ⟨-, halways⟩ next hnext
        obtain ⟨hiff, hinv⟩ := hstep hstart hgood hnext
        have hrest := halways next hnext
        have hgood' : P next := by
          cases rest with
          | nil => exact hrest
          | cons action' rest' => exact hrest.1
        exact ⟨hiff.mp hgood', (ih (hinv hgood') hgood').mp hrest⟩
      · intro hsteps
        refine ⟨hgood, fun next hnext => ?_⟩
        obtain ⟨hiff, hinv⟩ := hstep hstart hgood hnext
        obtain ⟨hcond, hrest⟩ := hsteps next hnext
        have hgood' := hiff.mpr hcond
        exact (ih (hinv hgood') hgood').mpr hrest

/-- Actions that meet the condition in every state. -/
theorem AlwaysStep.of_forall {Q : State → Action → Prop} {actions : List Action}
    (hall : ∀ action ∈ actions, ∀ state, Q state action) (start : State) :
    M.AlwaysStep Q start actions := by
  induction actions generalizing start with
  | nil => trivial
  | cons action rest ih =>
      intro next _
      refine ⟨hall action List.mem_cons_self start, ih (fun other hother => ?_) next⟩
      exact hall other (List.mem_cons_of_mem action hother)

/-- One more step that meets the condition. -/
theorem AlwaysStep.concat {Q : State → Action → Prop} {actions : List Action} {action : Action}
    {start : State} (hsteps : M.AlwaysStep Q start actions)
    (hlast : ∀ middle, M.runFrom start actions = some middle → Q middle action) :
    M.AlwaysStep Q start (actions ++ [action]) := by
  induction actions generalizing start with
  | nil => exact fun _ _ => ⟨hlast start rfl, trivial⟩
  | cons first rest ih =>
      intro next hnext
      obtain ⟨hfirst, hrest⟩ := hsteps next hnext
      refine ⟨hfirst, ih hrest fun middle hmiddle => hlast middle ?_⟩
      rw [runFrom_cons, hnext]
      exact hmiddle

/-- **Guarded invariant rule.** If steps that meet a condition keep an invariant, then in
a run whose steps all meet it what follows from the invariant always holds. -/
theorem Always.of_alwaysStep {P : State → Prop} {Q : State → Action → Prop} (Inv : State → Prop)
    (hgood : ∀ {state}, Inv state → P state)
    (hstep : ∀ {state action next}, Inv state → Q state action →
      M.step state action = some next → Inv next)
    {actions : List Action} {start : State} (hstart : Inv start)
    (hsteps : M.AlwaysStep Q start actions) : M.Always P start actions := by
  induction actions generalizing start with
  | nil => exact hgood hstart
  | cons action rest ih =>
      refine ⟨hgood hstart, fun next hnext => ?_⟩
      obtain ⟨hcond, hrest⟩ := hsteps next hnext
      exact ih (hstep hstart hcond hnext) hrest

/-- The same without a condition: what follows from an invariant always holds. -/
theorem Always.of_invariant {P : State → Prop} (Inv : State → Prop)
    (hgood : ∀ {state}, Inv state → P state)
    (hstep : ∀ {state action next}, Inv state → M.step state action = some next → Inv next)
    {start : State} (hstart : Inv start) (actions : List Action) : M.Always P start actions := by
  induction actions generalizing start with
  | nil => exact hgood hstart
  | cons action rest ih =>
      exact ⟨hgood hstart, fun next hnext => ih (hstep hstart hnext)⟩

theorem reachable_init : M.Reachable M.init := ⟨[], rfl⟩

/-- Reachability is closed under steps. -/
theorem Reachable.step {state next : State} {action : Action}
    (hreach : M.Reachable state) (hstep : M.step state action = some next) :
    M.Reachable next := by
  obtain ⟨actions, hrun⟩ := hreach
  exact ⟨actions ++ [action], runFrom_concat_eq_some.mpr ⟨state, hrun, hstep⟩⟩

/-- The invariant rule at the initial state. -/
theorem Reachable.invariant (Inv : State → Prop) (hinit : Inv M.init)
    (hstep : ∀ {state action next},
      Inv state → M.step state action = some next → Inv next)
    {state : State} (hreach : M.Reachable state) : Inv state := by
  obtain ⟨actions, hrun⟩ := hreach
  exact runFrom_invariant Inv hstep hinit hrun

/-- **Simulation rule.** If every step of one machine can be matched by the step of another for the
same action, then so can every run. -/
theorem runFrom_simulation {State' : Type w} {M' : Machine State' Action}
    (R : State → State' → Prop)
    (hstep : ∀ {state state' action next}, R state state' → M.step state action = some next →
      ∃ next', M'.step state' action = some next' ∧ R next next')
    {actions : List Action} {start target : State} {start' : State'} (hstart : R start start')
    (hrun : M.runFrom start actions = some target) :
    ∃ target', M'.runFrom start' actions = some target' ∧ R target target' := by
  induction actions generalizing start start' with
  | nil =>
      obtain rfl : start = target := by simpa using hrun
      exact ⟨start', rfl, hstart⟩
  | cons action rest ih =>
      obtain ⟨middle, hmiddle, hrest⟩ := Option.bind_eq_some_iff.mp hrun
      obtain ⟨middle', hmiddle', hR⟩ := hstep hstart hmiddle
      obtain ⟨target', htarget', hR'⟩ := ih hR hrest
      exact ⟨target', by rw [runFrom_cons, hmiddle']; exact htarget', hR'⟩

/-- **Termination rule.** If every state of an invariant is done or has an action that leads to a
state of the invariant with a smaller measure, then from every such state a run leads to one that
is done. -/
theorem exists_runFrom_of_measure (Inv Done : State → Prop) (measure : State → ℕ)
    (hstep : ∀ {state}, Inv state → ¬ Done state → ∃ action next,
      M.step state action = some next ∧ Inv next ∧ measure next < measure state)
    {start : State} (hstart : Inv start) :
    ∃ actions target, M.runFrom start actions = some target ∧ Done target := by
  induction hmeasure : measure start using Nat.strong_induction_on generalizing start with
  | _ n ih =>
      by_cases hdone : Done start
      · exact ⟨[], start, rfl, hdone⟩
      · obtain ⟨action, next, hnext, hinv, hless⟩ := hstep hstart hdone
        obtain ⟨actions, target, hrun, htarget⟩ := ih (measure next) (hmeasure ▸ hless) hinv rfl
        refine ⟨action :: actions, target, ?_, htarget⟩
        rw [runFrom_cons, hnext]
        exact hrun

/-! ## Evaluating a run

The kernel evaluates on demand, and the numbers in a state grow into terms that repeat each other.
A run with many steps is evaluated with every state computed before it is handed on. -/

/-- Hand on a number that has been computed. -/
def compute {β : Type w} (n : ℕ) (next : ℕ → β) : β :=
  match n with
  | 0 => next 0
  | m + 1 => next (m + 1)

@[simp]
theorem compute_eq {β : Type w} (n : ℕ) (next : ℕ → β) : compute n next = next n := by
  cases n <;> rfl

variable (M) in
/-- The run with the states handed on by a function. -/
def runFromVia (hand : State → (State → Option State) → Option State) :
    State → List Action → Option State
  | state, [] => some state
  | state, action :: rest =>
    (M.step state action).bind fun middle => hand middle (runFromVia hand · rest)

theorem runFromVia_eq {hand : State → (State → Option State) → Option State}
    (hhand : ∀ state next, hand state next = next state) (start : State) (actions : List Action) :
    M.runFromVia hand start actions = M.runFrom start actions := by
  induction actions generalizing start with
  | nil => rfl
  | cons action rest ih =>
      rw [runFromVia, runFrom_cons]
      refine congrArg (M.step start action).bind (funext fun middle => ?_)
      rw [hhand, ih]

end Machine

end AFStream.Foundation

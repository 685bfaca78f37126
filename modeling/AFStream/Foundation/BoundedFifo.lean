/-
# A bounded first-in first-out queue

The abstract queue is a list of values with a capacity. Its two events carry the
value that is put or taken, so a concurrent implementation refines it when the
events of each of its runs, in the order in which they take effect, are a run of
this machine.
-/

import AFStream.Foundation.Machine

namespace AFStream.Foundation

universe u

/-- What an observer of a queue sees. -/
inductive QueueEvent (T : Type u)
  | put (value : T)
  | take (value : T)

namespace QueueEvent

variable {T : Type u}

/-- The values put, in order. -/
def puts (events : List (QueueEvent T)) : List T :=
  events.filterMap fun
    | put value => some value
    | take _ => none

/-- The values taken, in order. -/
def takes (events : List (QueueEvent T)) : List T :=
  events.filterMap fun
    | put _ => none
    | take value => some value

@[simp]
theorem puts_append (first second : List (QueueEvent T)) :
    puts (first ++ second) = puts first ++ puts second := List.filterMap_append

@[simp]
theorem takes_append (first second : List (QueueEvent T)) :
    takes (first ++ second) = takes first ++ takes second := List.filterMap_append

@[simp]
theorem puts_put (value : T) : puts [put value] = [value] := rfl

@[simp]
theorem puts_take (value : T) : puts [take value] = [] := rfl

@[simp]
theorem takes_put (value : T) : takes [put value] = [] := rfl

@[simp]
theorem takes_take (value : T) : takes [take value] = [value] := rfl

end QueueEvent

open QueueEvent

variable {T : Type u}

open Classical in
/-- The bounded queue: a value may be put while there is room, and only the oldest
value may be taken. -/
noncomputable def boundedFifo (T : Type u) (capacity : ℕ) :
    Machine (List T) (QueueEvent T) where
  init := []
  step contents event :=
    match event with
    | .put value => if contents.length < capacity then some (contents ++ [value]) else none
    | .take value =>
      match contents with
      | [] => none
      | oldest :: rest => if oldest = value then some rest else none

namespace boundedFifo

variable {capacity : ℕ} {contents : List T} {events : List (QueueEvent T)}

theorem step_put (hroom : contents.length < capacity) (value : T) :
    (boundedFifo T capacity).step contents (.put value) = some (contents ++ [value]) := by
  simp [boundedFifo, hroom]

theorem step_take (value : T) (rest : List T) :
    (boundedFifo T capacity).step (value :: rest) (.take value) = some rest := by
  simp [boundedFifo]

/-- The two enabled steps. -/
theorem step_cases {event : QueueEvent T} {next : List T}
    (hstep : (boundedFifo T capacity).step contents event = some next) :
    (∃ value, event = .put value ∧ contents.length < capacity ∧
      next = contents ++ [value]) ∨
    (∃ value, event = .take value ∧ contents = value :: next) := by
  cases event with
  | put value =>
      by_cases hroom : contents.length < capacity
      · refine .inl ⟨value, rfl, hroom, ?_⟩
        simpa [boundedFifo, hroom] using hstep.symm
      · simp [boundedFifo, hroom] at hstep
  | take value =>
      cases contents with
      | nil => simp [boundedFifo] at hstep
      | cons oldest rest =>
          by_cases heq : oldest = value
          · refine .inr ⟨value, rfl, ?_⟩
            obtain rfl : rest = next := by simpa [boundedFifo, heq] using hstep
            rw [heq]
          · simp [boundedFifo, heq] at hstep

/-- **Conservation.** What was put is what was taken followed by what is left. -/
theorem puts_eq (hrun : (boundedFifo T capacity).runFrom [] events = some contents) :
    puts events = takes events ++ contents := by
  induction events using List.reverseRecOn generalizing contents with
  | nil =>
      obtain rfl : [] = contents := by simpa using hrun
      rfl
  | append_singleton events event ih =>
      obtain ⟨middle, hmiddle, hstep⟩ := Machine.runFrom_concat_eq_some.mp hrun
      have hconserved := ih hmiddle
      obtain ⟨value, rfl, _, rfl⟩ | ⟨value, rfl, rfl⟩ := step_cases hstep
      · simp [hconserved]
      · simp [hconserved]

/-- Values leave in the order in which they came. -/
theorem takes_prefix_puts (hrun : (boundedFifo T capacity).runFrom [] events = some contents) :
    takes events <+: puts events :=
  ⟨contents, (puts_eq hrun).symm⟩

theorem length_le (hrun : (boundedFifo T capacity).runFrom [] events = some contents) :
    contents.length ≤ capacity := by
  refine Machine.runFrom_invariant (fun contents => contents.length ≤ capacity)
    ?_ (Nat.zero_le _) hrun
  intro contents event next hle hstep
  obtain ⟨value, -, hroom, rfl⟩ | ⟨value, -, rfl⟩ := step_cases hstep
  · simpa using hroom
  · simp only [List.length_cons] at hle
    omega

end boundedFifo

end AFStream.Foundation

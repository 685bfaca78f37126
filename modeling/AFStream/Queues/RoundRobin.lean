/-
# Completeness and fairness of the round robin

A call of `pop` looks at the rings one after the other, while writers go on filling them, and
remembers where it stopped. The module says what a call does that is not disturbed, and how
long a ring can be passed over when the iterations of many calls are interleaved with whatever
the writers do.
-/

import AFStream.Foundation.Machine
import AFStream.Queues.LockFreeQueue

namespace AFStream.Queues

open AFStream.Foundation

universe u

namespace LockFreeQueue

variable {T : Type u}

/-! ## Iterations -/

/-- The indices of `q_` that the loop of `pop` uses, in their order. -/
def popIndices : ℕ → LockFreeQueue T → List ℕ
  | 0, _ => []
  | remaining + 1, q =>
    q.start ::
      match q.visit with
      | (some _, _) => []
      | (none, q') => popIndices remaining q'

/-- What one call of `pop` must do: it fails exactly when no ring shows a value, it uses every
index at most once and only indices of rings, and if it succeeds it removes one value, from the
first ring in cyclic order that shows one. -/
structure PopExact (q : LockFreeQueue T) : Prop where
  fails_iff : q.pop.1 = none ↔ ∀ i < q.numQueue, (q.rings i).visible = 0
  unchanged : q.pop.1 = none → q.pop.2.rings = q.rings
  indices_nodup : (popIndices q.numQueue q).Nodup
  indices_lt : ∀ i ∈ popIndices q.numQueue q, i < q.numQueue
  takes_first : ∀ x, q.pop.1 = some x → ∃ k < q.numQueue,
    (∀ j < k, (q.rings (q.visited j)).visible = 0) ∧ 0 < (q.rings (q.visited k)).visible ∧
      (q.rings (q.visited k)).contents = x :: (q.pop.2.rings (q.visited k)).contents ∧
      ∀ i, i ≠ q.visited k → q.pop.2.rings i = q.rings i

variable {q : LockFreeQueue T}

/-- The loop uses the rings in cyclic order. -/
theorem popIndices_eq (hq : q.WellFormed) {n : ℕ} (hn : n ≤ q.numQueue) :
    ∃ m ≤ n, popIndices n q = (List.range m).map q.visited := by
  induction n generalizing q with
  | zero => exact ⟨0, le_rfl, rfl⟩
  | succ n ih =>
      have hpos : 0 < q.numQueue := Nat.lt_of_lt_of_le (Nat.succ_pos n) hn
      rw [popIndices]
      rcases visit_cases (hq _ (start_lt hpos)) with ⟨-, hvisit⟩ | ⟨-, hvisit⟩
      · obtain ⟨m, hm, hindices⟩ := @ih { q with cur := q.start + 1 } hq (Nat.le_of_succ_le hn)
        refine ⟨m + 1, Nat.succ_le_succ hm, ?_⟩
        rw [hvisit, List.range_succ_eq_map, List.map_cons, visited_zero hpos, List.map_map]
        dsimp only
        rw [hindices]
        congr 1
        apply List.map_congr_left
        intro k hk
        have hk' := List.mem_range.mp hk
        exact visited_succ (by omega)
      · refine ⟨1, Nat.succ_le_succ (Nat.zero_le n), ?_⟩
        rw [hvisit, List.range_one, List.map_singleton, visited_zero hpos]

/-- A call that is not disturbed. -/
theorem WellFormed.popExact (hq : q.WellFormed) : q.PopExact := by
  obtain ⟨m, hm, hindices⟩ := popIndices_eq hq le_rfl
  have hlt : ∀ i ∈ popIndices q.numQueue q, i < q.numQueue := by
    intro i hi
    rw [hindices] at hi
    obtain ⟨k, hk, rfl⟩ := List.mem_map.mp hi
    exact visited_lt ((List.mem_range.mp hk).trans_le hm)
  have hnodup : (popIndices q.numQueue q).Nodup := by
    rw [hindices]
    apply List.Nodup.map_on _ List.nodup_range
    intro j hj k hk heq
    have hj' := (List.mem_range.mp hj).trans_le hm
    have hk' := (List.mem_range.mp hk).trans_le hm
    exact Circular.shift_injective (start_lt (by omega)) hj' hk' heq
  rcases popLoop_cases hq le_rfl with ⟨cur, hnone, hempty⟩ | ⟨k, hk, hbefore, hvisible, hsome⟩
  · have hall : ∀ i < q.numQueue, (q.rings i).visible = 0 := by
      intro i hi
      obtain ⟨k, hk, rfl⟩ := exists_visited hi
      exact hempty k hk
    refine ⟨?_, fun _ => ?_, hnodup, hlt, ?_⟩
    · rw [pop, hnone]
      exact iff_of_true rfl hall
    · rw [pop, hnone]
    · intro x hx
      rw [pop, hnone] at hx
      cases hx
  · have hack := (hq _ (visited_lt hk)).extract_ack hvisible
    refine ⟨?_, ?_, hnodup, hlt, ?_⟩
    · rw [pop, hsome]
      refine iff_of_false (Option.some_ne_none _) fun hall => ?_
      exact hvisible.ne' (hall _ (visited_lt hk))
    · rw [pop, hsome]
      intro hcontra
      cases hcontra
    · intro x hx
      rw [pop, hsome] at hx ⊢
      obtain rfl := Option.some.inj hx
      refine ⟨k, hk, hbefore, hvisible, ?_, ?_⟩
      · rw [hack.contents_eq, takeFrom]
        dsimp only
        rw [Function.update_self]
      · intro i hi
        exact Function.update_of_ne hi _ _

/-- A ring is replaced by one that is in order. -/
theorem WellFormed.update (hq : q.WellFormed) {ring : ZeroRingBuffer T} (hring : ring.WellFormed)
    (i : ℕ) :
    ∀ j < q.numQueue, (Function.update q.rings i ring j).WellFormed := by
  intro j hj
  by_cases hji : j = i
  · subst hji
    rwa [Function.update_self]
  · rw [Function.update_of_ne hji]
    exact hq j hj

/-- A ring that is added delays the turn of the others by at most one. -/
theorem dist_start_addQueue {i : ℕ} (hi : i < q.numQueue) (zero : T) (uninit : ℕ) :
    Circular.dist (q.addQueue zero uninit).numQueue (q.addQueue zero uninit).start i ≤
      Circular.dist q.numQueue q.start i + 1 := by
  have hnum : (q.addQueue zero uninit).numQueue = q.numQueue + 1 := rfl
  have hstart : (q.addQueue zero uninit).start =
      if q.numQueue + 1 ≤ q.cur then 0 else q.cur := rfl
  rw [hnum, hstart, start, Circular.dist, Circular.dist]
  by_cases hfar : q.numQueue + 1 ≤ q.cur
  · rw [if_pos hfar, if_pos (show q.cur ≥ q.numQueue by omega)]
    simp
  · rw [if_neg hfar]
    by_cases hend : q.cur ≥ q.numQueue
    · rw [if_pos hend]
      split_ifs <;> omega
    · rw [if_neg hend]
      split_ifs <;> omega

end LockFreeQueue

/-! ## Calls while the rings are filled -/

/-- A queue with the iterations that a call of `pop` has left, and the rings from which values
have been taken. -/
structure PopState (T : Type u) where
  queue : LockFreeQueue T
  remaining : ℕ
  popped : List ℕ

/-- What the reader and the writers do. A call of `pop` consists of its iterations. -/
inductive PopAction (T : Type u)
  | addQueue
  | call
  | visit
  | push (writer : ℕ) (x : T)
  | flush

namespace PopState

variable {T : Type u}

/-- One step. Rings are added between calls; a ring that is full blocks its writer. -/
def step (zero : T) (uninit : ℕ) (s : PopState T) : PopAction T → Option (PopState T)
  | .addQueue =>
      if s.remaining = 0 then some { s with queue := s.queue.addQueue zero uninit } else none
  | .call => if s.remaining = 0 then some { s with remaining := s.queue.numQueue } else none
  | .visit =>
      if 0 < s.remaining then
        match s.queue.visit with
        | (some _, q) => some ⟨q, 0, s.popped ++ [s.queue.start]⟩
        | (none, q) => some ⟨q, s.remaining - 1, s.popped⟩
      else none
  | .push writer x =>
      if writer < s.queue.numQueue then
        (s.queue.push writer x).map fun q => { s with queue := q }
      else none
  | .flush => some { s with queue := s.queue.flush }

/-- All interleavings on a new queue. -/
def machine (zero : T) (uninit : ℕ) : Machine (PopState T) (PopAction T) where
  init := ⟨.create zero uninit, 0, []⟩
  step := step zero uninit

theorem machine_step (zero : T) (uninit : ℕ) : (machine zero uninit).step = step zero uninit := rfl

/-- Every ring is in order, and a call has no more iterations left than there are rings. -/
structure Inv (s : PopState T) : Prop where
  wellFormed : s.queue.WellFormed
  remaining_le : s.remaining ≤ s.queue.numQueue

variable {zero : T} {uninit : ℕ} {s s' t : PopState T}

theorem Inv.start_lt (h : s.Inv) (hcall : 0 < s.remaining) :
    s.queue.start < s.queue.numQueue :=
  LockFreeQueue.start_lt (hcall.trans_le h.remaining_le)

/-- What an iteration does. -/
theorem Inv.visit_cases (h : s.Inv) (hstep : step zero uninit s .visit = some s') :
    0 < s.remaining ∧
    (((s.queue.rings s.queue.start).visible = 0 ∧
        s' = ⟨{ s.queue with cur := s.queue.start + 1 }, s.remaining - 1, s.popped⟩) ∨
      (0 < (s.queue.rings s.queue.start).visible ∧
        s' = ⟨s.queue.takeFrom s.queue.start, 0, s.popped ++ [s.queue.start]⟩)) := by
  rw [step] at hstep
  split_ifs at hstep with hcall
  refine ⟨hcall, ?_⟩
  rcases LockFreeQueue.visit_cases (h.wellFormed _ (h.start_lt hcall)) with
    ⟨hzero, hvisit⟩ | ⟨hvisible, hvisit⟩
  · rw [hvisit] at hstep
    exact .inl ⟨hzero, (Option.some.inj hstep).symm⟩
  · rw [hvisit] at hstep
    exact .inr ⟨hvisible, (Option.some.inj hstep).symm⟩

/-- The inversion of the other steps. -/
theorem step_push {writer : ℕ} {x : T} (hstep : step zero uninit s (.push writer x) = some s') :
    writer < s.queue.numQueue ∧ ∃ ring, (s.queue.rings writer).insert x = some ring ∧
      s' = { s with
        queue := { s.queue with rings := Function.update s.queue.rings writer ring } } := by
  rw [step] at hstep
  split_ifs at hstep with hwriter
  refine ⟨hwriter, ?_⟩
  obtain ⟨q, hpush, rfl⟩ := Option.map_eq_some_iff.mp hstep
  obtain ⟨ring, hinsert, rfl⟩ := LockFreeQueue.push_eq_some_iff.mp hpush
  exact ⟨ring, hinsert, rfl⟩

theorem step_addQueue (hstep : step zero uninit s .addQueue = some s') :
    s.remaining = 0 ∧ s' = { s with queue := s.queue.addQueue zero uninit } := by
  rw [step] at hstep
  split_ifs at hstep with hidle
  exact ⟨hidle, (Option.some.inj hstep).symm⟩

theorem step_call (hstep : step zero uninit s .call = some s') :
    s.remaining = 0 ∧ s' = { s with remaining := s.queue.numQueue } := by
  rw [step] at hstep
  split_ifs at hstep with hidle
  exact ⟨hidle, (Option.some.inj hstep).symm⟩

theorem Inv.init : (machine zero uninit).init.Inv where
  wellFormed := fun _ hi => absurd hi (Nat.not_lt_zero _)
  remaining_le := le_rfl

theorem Inv.step {action : PopAction T} (h : s.Inv)
    (hstep : PopState.step zero uninit s action = some s') : s'.Inv := by
  cases action with
  | addQueue =>
      obtain ⟨hidle, rfl⟩ := step_addQueue hstep
      refine ⟨?_, ?_⟩
      · intro j hj
        change (Function.update s.queue.rings s.queue.numQueue _ j).WellFormed
        by_cases hlast : j = s.queue.numQueue
        · subst hlast
          rw [Function.update_self]
          exact ZeroRingBuffer.create_wellFormed (by decide) _ _ _
        · rw [Function.update_of_ne hlast]
          exact h.wellFormed j (Nat.lt_of_le_of_ne (Nat.le_of_lt_succ hj) hlast)
      · exact hidle.le.trans (Nat.zero_le _)
  | call =>
      obtain ⟨-, rfl⟩ := step_call hstep
      exact ⟨h.wellFormed, le_rfl⟩
  | visit =>
      obtain ⟨hcall, hcases⟩ := h.visit_cases hstep
      rcases hcases with ⟨-, rfl⟩ | ⟨hvisible, rfl⟩
      · exact ⟨h.wellFormed, (Nat.sub_le _ _).trans h.remaining_le⟩
      · have hack := (h.wellFormed _ (h.start_lt hcall)).extract_ack hvisible
        exact ⟨h.wellFormed.update hack.wellFormed s.queue.start, Nat.zero_le _⟩
  | push writer x =>
      obtain ⟨hwriter, ring, hinsert, rfl⟩ := step_push hstep
      have hinserted := (h.wellFormed writer hwriter).insert hinsert
      exact ⟨h.wellFormed.update hinserted.wellFormed writer, h.remaining_le⟩
  | flush =>
      obtain rfl := Option.some.inj hstep
      refine ⟨?_, h.remaining_le⟩
      intro j hj
      have hj' : j < s.queue.numQueue := hj
      change (if j < s.queue.numQueue then (s.queue.rings j).flush
        else s.queue.rings j).WellFormed
      rw [if_pos hj']
      exact (h.wellFormed j hj').flush.1

theorem Inv.reachable (hreach : (machine zero uninit).Reachable s) : s.Inv :=
  hreach.invariant PopState.Inv Inv.init Inv.step

/-- The iterations of a call that nobody disturbs are those of the loop. -/
theorem Inv.run_visits {n : ℕ} (h : s.Inv) (hn : s.remaining = n) :
    ∃ visits taken, (machine zero uninit).runFrom s (List.replicate visits .visit) =
      some ⟨(LockFreeQueue.popLoop n s.queue).2, 0, s.popped ++ taken⟩ := by
  induction n generalizing s with
  | zero =>
      obtain ⟨queue, remaining, popped⟩ := s
      obtain rfl : remaining = 0 := hn
      refine ⟨0, [], ?_⟩
      rw [List.append_nil]
      rfl
  | succ n ih =>
      have hcall : 0 < s.remaining := hn ▸ Nat.succ_pos n
      rcases LockFreeQueue.visit_cases (h.wellFormed _ (h.start_lt hcall)) with
        ⟨-, hvisit⟩ | ⟨-, hvisit⟩
      · have hstep : PopState.step zero uninit s .visit =
            some ⟨{ s.queue with cur := s.queue.start + 1 }, n, s.popped⟩ := by
          rw [PopState.step, if_pos hcall, hvisit, hn]
          rfl
        obtain ⟨visits, taken, hrun⟩ := ih (h.step hstep) rfl
        refine ⟨visits + 1, taken, ?_⟩
        rw [List.replicate_succ, Machine.runFrom_cons, machine_step, hstep, Option.bind_some, hrun,
          LockFreeQueue.popLoop_succ, hvisit]
      · refine ⟨1, [s.queue.start], ?_⟩
        have hstep : PopState.step zero uninit s .visit =
            some ⟨s.queue.takeFrom s.queue.start, 0, s.popped ++ [s.queue.start]⟩ := by
          rw [PopState.step, if_pos hcall, hvisit]
        rw [List.replicate_one, Machine.runFrom_cons, machine_step, hstep,
          LockFreeQueue.popLoop_succ, hvisit]
        rfl

/-- **A call of `pop` is one of its runs.** -/
theorem Inv.run_pop (h : s.Inv) (hidle : s.remaining = 0) :
    ∃ visits taken, (machine zero uninit).runFrom s (.call :: List.replicate visits .visit) =
      some ⟨s.queue.pop.2, 0, s.popped ++ taken⟩ := by
  have hstep : PopState.step zero uninit s .call =
      some { s with remaining := s.queue.numQueue } := if_pos hidle
  obtain ⟨visits, taken, hrun⟩ := (h.step hstep).run_visits rfl
  refine ⟨visits, taken, ?_⟩
  rw [Machine.runFrom_cons, machine_step, hstep, Option.bind_some]
  exact hrun

/-! ## Fairness -/

/-- How many rings are asked before a ring has its turn. -/
def turnsBefore (s : PopState T) (i : ℕ) : ℕ :=
  Circular.dist s.queue.numQueue s.queue.start i

/-- One step brings the turn of a ring closer by every value that is taken from another ring;
a ring that is added can delay it by one. -/
theorem Inv.turnsBefore_step (h : s.Inv) {action : PopAction T}
    (hstep : PopState.step zero uninit s action = some s') {i : ℕ} (hi : i < s.queue.numQueue)
    (hvisible : 0 < (s.queue.rings i).visible) :
    ∃ first, s'.popped = s.popped ++ first ∧ s.queue.numQueue ≤ s'.queue.numQueue ∧
      (i ∉ first → first.length + s'.turnsBefore i ≤
        s.turnsBefore i + (s'.queue.numQueue - s.queue.numQueue)) := by
  cases action with
  | addQueue =>
      obtain ⟨-, rfl⟩ := step_addQueue hstep
      refine ⟨[], (List.append_nil _).symm, Nat.le_succ _, fun _ => ?_⟩
      have hdelay := LockFreeQueue.dist_start_addQueue hi zero uninit
      have hnum : (s.queue.addQueue zero uninit).numQueue = s.queue.numQueue + 1 := rfl
      rw [turnsBefore, turnsBefore, List.length_nil, Nat.zero_add]
      dsimp only at hdelay ⊢
      rw [hnum] at hdelay ⊢
      omega
  | call =>
      obtain ⟨-, rfl⟩ := step_call hstep
      exact ⟨[], (List.append_nil _).symm, le_rfl, fun _ => by simp [turnsBefore]⟩
  | visit =>
      obtain ⟨hcall, hcases⟩ := h.visit_cases hstep
      have hcloser : s.queue.start ≠ i → Circular.dist s.queue.numQueue
          (Circular.advance s.queue.numQueue s.queue.start) i + 1 = s.turnsBefore i :=
        Circular.dist_advance_left (h.start_lt hcall) hi
      rcases hcases with ⟨hzero, rfl⟩ | ⟨-, rfl⟩
      · have hne : s.queue.start ≠ i := by
          rintro rfl
          exact hvisible.ne' hzero
        refine ⟨[], (List.append_nil _).symm, le_rfl, fun _ => ?_⟩
        have hturns := hcloser hne
        change 0 + Circular.dist s.queue.numQueue
          (Circular.advance s.queue.numQueue s.queue.start) i ≤ _
        omega
      · refine ⟨[s.queue.start], rfl, le_rfl, fun hother => ?_⟩
        have hturns := hcloser fun heq => hother (List.mem_singleton.mpr heq.symm)
        change 1 + Circular.dist s.queue.numQueue
          (Circular.advance s.queue.numQueue s.queue.start) i ≤ _
        omega
  | push writer x =>
      obtain ⟨-, ring, -, rfl⟩ := step_push hstep
      exact ⟨[], (List.append_nil _).symm, le_rfl, fun _ => by
        simp [turnsBefore, LockFreeQueue.start]⟩
  | flush =>
      obtain rfl := Option.some.inj hstep
      exact ⟨[], (List.append_nil _).symm, le_rfl, fun _ => by
        simp [turnsBefore, LockFreeQueue.start, LockFreeQueue.flush]⟩

/-- The same for a run. -/
theorem Inv.turnsBefore_run (h : s.Inv) {actions : List (PopAction T)}
    (hrun : (machine zero uninit).runFrom s actions = some t) {i : ℕ}
    (hi : i < s.queue.numQueue)
    (hkeeps : (machine zero uninit).Always (fun s => 0 < (s.queue.rings i).visible) s actions) :
    ∃ taken, t.popped = s.popped ++ taken ∧ s.queue.numQueue ≤ t.queue.numQueue ∧
      (i ∉ taken → taken.length + t.turnsBefore i ≤
        s.turnsBefore i + (t.queue.numQueue - s.queue.numQueue)) := by
  induction actions generalizing s with
  | nil =>
      obtain rfl := Option.some.inj hrun
      exact ⟨[], (List.append_nil _).symm, le_rfl, fun _ => by simp⟩
  | cons action rest ih =>
      obtain ⟨middle, hstep, hrest⟩ := Option.bind_eq_some_iff.mp hrun
      obtain ⟨hvisible, hkeeps⟩ := hkeeps
      obtain ⟨first, hfirst, hle, hbound⟩ := h.turnsBefore_step hstep hi hvisible
      obtain ⟨taken, htaken, hle', hbound'⟩ :=
        ih (h.step hstep) hrest (hi.trans_le hle) (hkeeps middle hstep)
      refine ⟨first ++ taken, ?_, hle.trans hle', fun hnot => ?_⟩
      · rw [htaken, hfirst, List.append_assoc]
      · rw [List.mem_append, not_or] at hnot
        have h₁ := hbound hnot.1
        have h₂ := hbound' hnot.2
        rw [List.length_append]
        omega

/-- **The round robin is complete and fair.** In every state that calls and writers lead to:
a call fails exactly when no ring shows a value, uses every index at most once and none outside
the rings, and takes one value from the first ring in cyclic order that shows one; and from
there on, as long as a ring shows a value and nothing is taken from it, fewer values are taken
from the others than there are rings, whatever the writers do between the iterations. -/
theorem pop_complete_and_fair (zero : T) (uninit : ℕ)
    (hreach : (machine zero uninit).Reachable s) :
    s.queue.PopExact ∧ (0 < s.remaining → s.queue.start < s.queue.numQueue) ∧
      ∀ (actions : List (PopAction T)) (t : PopState T) (i : ℕ),
        (machine zero uninit).runFrom s actions = some t → i < s.queue.numQueue →
        (machine zero uninit).Always (fun s => 0 < (s.queue.rings i).visible) s actions →
        ∀ taken, t.popped = s.popped ++ taken → i ∉ taken → taken.length < t.queue.numQueue := by
  have h : s.Inv := Inv.reachable hreach
  refine ⟨h.wellFormed.popExact, h.start_lt, ?_⟩
  intro actions t i hrun hi hkeeps taken htaken hnot
  obtain ⟨taken', htaken', hle, hbound⟩ := h.turnsBefore_run hrun hi hkeeps
  obtain rfl := List.append_cancel_left (htaken'.symm.trans htaken)
  have hturns := hbound hnot
  have hlt : s.turnsBefore i < s.queue.numQueue :=
    Circular.dist_lt (LockFreeQueue.start_lt (Nat.zero_lt_of_lt hi)) hi
  omega

/-- Two rings that both show a value: two calls take from both. -/
theorem pop_complete_and_fair_two_rings :
    ∃ s : PopState ℕ, (machine 0 0).Reachable s ∧ s.queue.numQueue = 2 ∧ s.queue.PopExact ∧
      s.queue.pop.1 = some 5 ∧ s.queue.pop.2.pop.1 = some 6 := by
  have hreach : ∃ s, (machine 0 0).runFrom (machine 0 0).init
      [.addQueue, .addQueue, .push 0 5, .push 1 6, .flush] = some s ∧ s.queue.numQueue = 2 ∧
        s.queue.pop.1 = some 5 ∧ s.queue.pop.2.pop.1 = some 6 :=
    ⟨_, rfl, rfl, by decide +kernel, by decide +kernel⟩
  obtain ⟨s, hrun, hnum, hfirst, hsecond⟩ := hreach
  have hs : (machine 0 0).Reachable s := ⟨_, hrun⟩
  exact ⟨s, hs, hnum, (pop_complete_and_fair 0 0 hs).1, hfirst, hsecond⟩

end PopState

end AFStream.Queues

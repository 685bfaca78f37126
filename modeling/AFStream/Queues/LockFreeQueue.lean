/-
# Round robin over rings

`LockFreeQueue` is a vector of rings, one for each writer, and a position that
survives between calls. `pop` looks at every ring at most once, in cyclic order
from that position, and takes one value from the first ring that shows one.
-/

import AFStream.Queues.ZeroRingBuffer

namespace AFStream.Queues

open AFStream.Foundation

universe u

/-- The rings `q_[0 .. num_queue - 1]` and the round-robin position. -/
structure LockFreeQueue (T : Type u) where
  rings : ℕ → ZeroRingBuffer T
  numQueue : ℕ
  cur : ℕ

namespace LockFreeQueue

variable {T : Type u}

/-- The ring that `new ZeroRingBuffer<T>()` returns. -/
def freshRing (zero : T) (uninit : ℕ) : ZeroRingBuffer T :=
  .create rbSize rbBatch zero uninit

/-- The constructor: no ring yet. -/
def create (zero : T) (uninit : ℕ) : LockFreeQueue T where
  rings := fun _ => freshRing zero uninit
  numQueue := 0
  cur := 0

variable (q : LockFreeQueue T)

/-- `AddQueue` -/
def addQueue (zero : T) (uninit : ℕ) : LockFreeQueue T :=
  { q with
    rings := Function.update q.rings q.numQueue (freshRing zero uninit)
    numQueue := q.numQueue + 1 }

/-- `push`, undefined while the ring's `Insert` would spin. -/
def push (writerIndex : ℕ) (x : T) : Option (LockFreeQueue T) :=
  ((q.rings writerIndex).insert x).map fun ring =>
    { q with rings := Function.update q.rings writerIndex ring }

/-- The wrap of `cur` at the head of each iteration of `pop`. -/
def start : ℕ := if q.cur ≥ q.numQueue then 0 else q.cur

/-- The loop of `pop` with `remaining` iterations to go. -/
def popLoop : ℕ → LockFreeQueue T → Option T × LockFreeQueue T
  | 0, q => (none, q)
  | remaining + 1, q =>
    let cur := q.start
    match (q.rings cur).extract with
    | (ring, some slot) =>
        (some (ring.buffer slot),
          { q with rings := Function.update q.rings cur ring.ack, cur := cur + 1 })
    | (ring, none) =>
        popLoop remaining
          { q with rings := Function.update q.rings cur ring, cur := cur + 1 }

/-- One iteration of the loop of `pop`: the ring at the position is asked for a value. -/
def visit (q : LockFreeQueue T) : Option T × LockFreeQueue T :=
  match (q.rings q.start).extract with
  | (ring, some slot) =>
      (some (ring.buffer slot),
        { q with rings := Function.update q.rings q.start ring.ack, cur := q.start + 1 })
  | (ring, none) =>
      (none, { q with rings := Function.update q.rings q.start ring, cur := q.start + 1 })

/-- `pop` -/
def pop : Option T × LockFreeQueue T := popLoop q.numQueue q

/-- `flush` -/
def flush : LockFreeQueue T :=
  { q with rings := fun i => if i < q.numQueue then (q.rings i).flush else q.rings i }

/-- Every ring of the queue is in order. -/
def WellFormed : Prop := ∀ i < q.numQueue, (q.rings i).WellFormed

/-- The ring visited `k` iterations after the start of a call. -/
def visited (k : ℕ) : ℕ := Circular.shift q.numQueue q.start k

variable {q}

theorem start_lt (hpos : 0 < q.numQueue) : q.start < q.numQueue := by
  unfold start; split_ifs <;> omega

theorem visited_lt {k : ℕ} (hk : k < q.numQueue) : q.visited k < q.numQueue :=
  Circular.shift_lt (start_lt (by omega)) hk

/-- The state after taking the oldest value of ring `i`. -/
def takeFrom (q : LockFreeQueue T) (i : ℕ) : LockFreeQueue T :=
  { q with
    rings := Function.update q.rings i (q.rings i).extract.1.ack
    cur := i + 1 }

/-- The loop, iteration by iteration. -/
theorem popLoop_succ (n : ℕ) (q : LockFreeQueue T) :
    popLoop (n + 1) q =
      match q.visit with
      | (some x, q') => (some x, q')
      | (none, q') => popLoop n q' := by
  rw [popLoop, visit]
  rcases (q.rings q.start).extract with ⟨ring, slot⟩
  cases slot with
  | none => rfl
  | some slot => rfl

/-- What an iteration does: the ring is skipped, and only the position moves, or it is the
one that a value is taken from. -/
theorem visit_cases (hring : (q.rings q.start).WellFormed) :
    ((q.rings q.start).visible = 0 ∧ q.visit = (none, { q with cur := q.start + 1 })) ∨
    (0 < (q.rings q.start).visible ∧
      q.visit = (some ((q.rings q.start).buffer (q.rings q.start).nextReadIndex),
        q.takeFrom q.start)) := by
  cases hextract : (q.rings q.start).extract.2 with
  | none =>
      have hpair : (q.rings q.start).extract = (q.rings q.start, none) :=
        Prod.ext (ZeroRingBuffer.extract_of_none hextract) hextract
      refine .inl ⟨hring.extract_eq_none_iff.mp hextract, ?_⟩
      rw [visit, hpair]
      simp only [Function.update_eq_self]
  | some slot =>
      obtain ⟨rfl, -, -, -, hsame⟩ := hring.extract hextract
      have hbuffer : (q.rings q.start).extract.1.buffer = (q.rings q.start).buffer := by
        rw [hsame]
      have hpair : (q.rings q.start).extract =
          ((q.rings q.start).extract.1, some (q.rings q.start).nextReadIndex) :=
        Prod.ext rfl hextract
      refine .inr ⟨?_, ?_⟩
      · rw [Nat.pos_iff_ne_zero, Ne, ← hring.extract_eq_none_iff, hextract]
        exact Option.some_ne_none _
      · rw [visit, hpair, ← hbuffer]
        rfl

theorem visited_zero (hpos : 0 < q.numQueue) : q.visited 0 = q.start :=
  Circular.shift_zero (start_lt hpos)

/-- After a skipped ring the next one is visited. -/
theorem visited_succ {k : ℕ} (hk : k + 1 < q.numQueue) :
    visited { q with cur := q.start + 1 } k = q.visited (k + 1) :=
  Circular.shift_advance (start_lt (Nat.zero_lt_of_lt hk)) hk

/-- The loop stops at the first visited ring with a visible value, or reports that
none of the visited rings has one. -/
theorem popLoop_cases (hq : q.WellFormed) {n : ℕ} (hn : n ≤ q.numQueue) :
    (∃ cur, popLoop n q = (none, { q with cur := cur }) ∧
      ∀ k < n, (q.rings (q.visited k)).visible = 0) ∨
    (∃ k < n, (∀ j < k, (q.rings (q.visited j)).visible = 0) ∧
      0 < (q.rings (q.visited k)).visible ∧
      popLoop n q =
        (some ((q.rings (q.visited k)).buffer (q.rings (q.visited k)).nextReadIndex),
          q.takeFrom (q.visited k))) := by
  induction n generalizing q with
  | zero => exact .inl ⟨q.cur, rfl, fun k hk => absurd hk (Nat.not_lt_zero k)⟩
  | succ n ih =>
      have hpos : 0 < q.numQueue := Nat.zero_lt_of_lt hn
      have hfirst := visited_zero hpos
      rw [popLoop_succ]
      rcases visit_cases (hq _ (start_lt hpos)) with ⟨hzero, hvisit⟩ | ⟨hvisible, hvisit⟩
      · rw [hvisit]
        dsimp only
        have hskip : WellFormed { q with cur := q.start + 1 } := hq
        have hempty_succ : ∀ m ≤ n, (∀ k < m,
            (q.rings (visited { q with cur := q.start + 1 } k)).visible = 0) →
            ∀ k < m + 1, (q.rings (q.visited k)).visible = 0 := by
          intro m hm hempty k hk
          cases k with
          | zero => rwa [hfirst]
          | succ k =>
              rw [← visited_succ (by omega)]
              exact hempty k (Nat.lt_of_succ_lt_succ hk)
        rcases ih hskip (Nat.le_of_succ_le hn) with
          ⟨cur, hnone, hempty⟩ | ⟨k, hk, hempty, hvisible, hsome⟩
        · exact .inl ⟨cur, hnone, hempty_succ n le_rfl hempty⟩
        · rw [visited_succ (by omega)] at hvisible hsome
          exact .inr ⟨k + 1, Nat.succ_lt_succ hk, hempty_succ k hk.le hempty, hvisible, hsome⟩
      · refine .inr ⟨0, Nat.succ_pos n, fun j hj => absurd hj (Nat.not_lt_zero j), ?_, ?_⟩
        · rwa [hfirst]
        · rw [hvisit, hfirst]

/-- The inversion of `push`. -/
theorem push_eq_some_iff {i : ℕ} {x : T} {q' : LockFreeQueue T} :
    q.push i x = some q' ↔ ∃ ring, (q.rings i).insert x = some ring ∧
      q' = { q with rings := Function.update q.rings i ring } := by
  simp [push, eq_comm]

/-- A call visits every ring. -/
theorem exists_visited {i : ℕ} (hi : i < q.numQueue) : ∃ k < q.numQueue, q.visited k = i :=
  ⟨Circular.dist q.numQueue q.start i, Circular.dist_lt (start_lt (by omega)) hi,
    Circular.shift_dist (start_lt (by omega)) hi⟩

/-- What `pop` does: nothing but moving the position when no ring shows a value, else
it takes the oldest value of one ring. -/
theorem pop_cases (hq : q.WellFormed) :
    (∃ cur, q.pop = (none, { q with cur := cur }) ∧
      ∀ i < q.numQueue, (q.rings i).visible = 0) ∨
    (∃ i < q.numQueue, 0 < (q.rings i).visible ∧
      q.pop = (some ((q.rings i).buffer (q.rings i).nextReadIndex), q.takeFrom i)) := by
  rcases popLoop_cases hq le_rfl with ⟨cur, hnone, hempty⟩ | ⟨k, hk, -, hvisible, hsome⟩
  · refine .inl ⟨cur, hnone, fun i hi => ?_⟩
    obtain ⟨k, hk, rfl⟩ := exists_visited hi
    exact hempty k hk
  · exact .inr ⟨q.visited k, visited_lt hk, hvisible, hsome⟩

end LockFreeQueue

end AFStream.Queues

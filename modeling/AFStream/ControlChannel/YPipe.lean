/-
# The lock-free pipe

`ypipe_t` lets one thread write while another reads. The writer collects items behind the pointer
`w` and publishes all complete ones at once by moving the shared pointer `c`, which is null when the
reader has gone to sleep; the reader fetches the published part at once and reads up to the pointer
`r`. The pointers are addresses of cells, and `flush` consists of two accesses to `c` between which
the reader can run. The module proves that for every interleaving the calls return what they
return for a plain list with a mark for what has been published.
-/

import AFStream.Foundation.Machine
import AFStream.ControlChannel.YQueue

namespace AFStream.ControlChannel

open AFStream.Foundation

universe u

/-- `ypipe_t` -/
structure YPipe (T : Type u) where
  queue : YQueue T
  w : Cell
  r : Option Cell
  f : Cell
  c : Option Cell

namespace YPipe

variable {T : Type u} (N : ℕ)

/-- The constructor: the queue holds a terminator to which all pointers point. -/
def create (first second : Malloc T) : Option (YPipe T) :=
  ((YQueue.create first).push N second).bind fun queue =>
    queue.back.map fun back => ⟨queue, back, some back, back, some back⟩

variable (pipe : YPipe T)

/-- `write` -/
def write (value : T) (incomplete : Bool) (malloc : Malloc T) : Option (YPipe T) :=
  pipe.queue.back.bind fun back =>
  (pipe.queue.store back value).bind fun queue =>
  (queue.push N malloc).bind fun queue =>
  queue.back.map fun back =>
    { pipe with queue := queue, f := if incomplete then pipe.f else back }

/-- `unwrite`, with the value it returns. -/
def unwrite : Option (Option T × YPipe T) :=
  pipe.queue.back.bind fun back =>
    if pipe.f = back then some (none, pipe)
    else
      (pipe.queue.unpush N).bind fun queue =>
      queue.back.bind fun back =>
      (queue.load back).map fun value => (some value, { pipe with queue := queue })

/-- `flush` up to the compare-and-swap: what it returns then, or nothing if it failed. -/
def flushCas : Option Bool × YPipe T :=
  if pipe.w = pipe.f then (some true, pipe)
  else if pipe.c = some pipe.w then (some true, { pipe with c := some pipe.f, w := pipe.f })
  else (none, pipe)

/-- The rest of `flush` after a compare-and-swap that failed; it returns false. -/
def flushSet : YPipe T := { pipe with c := some pipe.f, w := pipe.f }

/-- `check_read` -/
def checkRead : Bool × YPipe T :=
  if some pipe.queue.front ≠ pipe.r ∧ pipe.r ≠ none then (true, pipe)
  else
    (pipe.c ≠ some pipe.queue.front ∧ pipe.c ≠ none,
      { pipe with
        r := pipe.c
        c := if pipe.c = some pipe.queue.front then none else pipe.c })

/-- `read`, with the value it returns. -/
def read : Option (Option T × YPipe T) :=
  match pipe.checkRead with
  | (false, pipe) => some (none, pipe)
  | (true, pipe) =>
    (pipe.queue.load pipe.queue.front).bind fun value =>
    (pipe.queue.pop N).map fun queue => (some value, { pipe with queue := queue })

end YPipe

/-- The pipe as its users see it: all that was written and not taken back, how much of it has been
read, published and completed, and whether the reader has found nothing to read. -/
structure Pipe (T : Type u) where
  log : List T
  taken : ℕ
  flushed : ℕ
  complete : ℕ
  asleep : Bool

namespace Pipe

variable {T : Type u}

def create : Pipe T := ⟨[], 0, 0, 0, false⟩

variable (p : Pipe T)

def write (value : T) (incomplete : Bool) : Pipe T :=
  { p with
    log := p.log ++ [value]
    complete := if incomplete then p.complete else p.log.length + 1 }

/-- The last item is taken back if it is incomplete. -/
def unwrite : Option T × Pipe T :=
  if p.complete = p.log.length then (none, p)
  else (p.log.getLast?, { p with log := p.log.dropLast })

/-- The complete items are published; the result says whether the reader is awake. -/
def flush : Bool × Pipe T :=
  if p.flushed = p.complete then (true, p)
  else (!p.asleep, { p with flushed := p.complete, asleep := false })

/-- There is a published item, or the reader falls asleep. -/
def checkRead : Bool × Pipe T :=
  if p.taken < p.flushed then (true, p) else (false, { p with asleep := true })

/-- The oldest published item is read, or the reader falls asleep. -/
def read : Option T × Pipe T :=
  if p.taken < p.flushed then (p.log[p.taken]?, { p with taken := p.taken + 1 })
  else (none, { p with asleep := true })

end Pipe

namespace YPipe

variable {T : Type u} {N : ℕ} {chunk : ℕ → ℕ} {pipe : YPipe T} {p : Pipe T}

/-- **What the pointers mean.** The cells from the front on hold the items that have not been read,
with the terminator behind them; each pointer is the address of one of these cells, and `c` is
either the address up to which has been published or null. -/
structure Inv (N : ℕ) (chunk : ℕ → ℕ) (pipe : YPipe T) (p : Pipe T) : Prop where
  shape : pipe.queue.Shape N chunk p.taken (p.log.length + 1)
  taken_le : p.taken ≤ p.flushed
  flushed_le : p.flushed ≤ p.complete
  complete_le : p.complete ≤ p.log.length
  w_eq : pipe.w = cell N chunk p.flushed
  f_eq : pipe.f = cell N chunk p.complete
  r_eq : pipe.r = none ∨
    ∃ i, p.taken ≤ i ∧ i ≤ p.flushed ∧ pipe.r = some (cell N chunk i)
  c_eq : pipe.c = if p.asleep then none else some (cell N chunk p.flushed)
  asleep_eq : p.asleep = true → p.taken = p.flushed
  load_eq : ∀ i v, p.taken ≤ i → p.log[i]? = some v →
    pipe.queue.load (cell N chunk i) = some v

/-- The pipe behaves as the list `p`. -/
def Refines (N : ℕ) (pipe : YPipe T) (p : Pipe T) : Prop := ∃ chunk, Inv N chunk pipe p

theorem Inv.back_eq (h : Inv N chunk pipe p) :
    pipe.queue.back = some (cell N chunk p.log.length) :=
  h.shape.back_eq (Nat.succ_pos _)

/-- Pointers into the pipe are equal if they point to the same item. -/
theorem Inv.cell_eq_iff (h : Inv N chunk pipe p) {i j : ℕ} (hi : p.taken ≤ i)
    (hi' : i ≤ p.log.length) (hj : p.taken ≤ j) (hj' : j ≤ p.log.length) :
    cell N chunk i = cell N chunk j ↔ i = j := by
  refine ⟨fun heq => ?_, fun heq => congrArg _ heq⟩
  exact h.shape.cell_ne hi (Nat.le_succ_of_le hi') hj (Nat.le_succ_of_le hj') heq

/-- A new pipe is empty. -/
theorem refines_create (hN : 0 < N) {first second : Malloc T} (hne : second.addr ≠ first.addr) :
    ∃ pipe, create N first second = some pipe ∧ Refines N pipe .create := by
  have hfree : ¬ (YQueue.create first).heap.Live second.addr := by
    rw [YQueue.create, Heap.live_alloc_iff]
    simp [Heap.not_live_iff, hne]
  obtain ⟨queue, chunk, hpush, hpushed⟩ := (YQueue.shape_create N first).exists_push hN hfree
  have hback : queue.back = some (cell N chunk 0) := hpushed.shape.back_eq (Nat.succ_pos _)
  refine ⟨_, by rw [create, hpush, Option.bind_some, hback]; rfl, chunk, ?_⟩
  exact {
    shape := hpushed.shape
    taken_le := le_rfl
    flushed_le := le_rfl
    complete_le := le_rfl
    w_eq := rfl
    f_eq := rfl
    r_eq := .inr ⟨0, le_rfl, le_rfl, rfl⟩
    c_eq := rfl
    asleep_eq := fun h => absurd h Bool.false_ne_true
    load_eq := by
      intro i v _ hv
      simp [Pipe.create] at hv }

/-- **`write`** -/
theorem Refines.exists_write (h : Refines N pipe p) (hN : 0 < N) (value : T) (incomplete : Bool)
    {malloc : Malloc T} (hmalloc : ¬ pipe.queue.heap.Live malloc.addr) :
    ∃ pipe', pipe.write N value incomplete malloc = some pipe' ∧
      Refines N pipe' (p.write value incomplete) := by
  obtain ⟨chunk, h⟩ := h
  have htaken : p.taken ≤ p.log.length := h.taken_le.trans (h.flushed_le.trans h.complete_le)
  obtain ⟨queue₁, hstore, hshape₁, hlive₁, hnew, hold⟩ :=
    h.shape.exists_store htaken (Nat.le_succ _) value
  have hmalloc₁ : ¬ queue₁.heap.Live malloc.addr := mt (hlive₁ _).mp hmalloc
  obtain ⟨queue₂, chunk', hpush, hpushed⟩ := hshape₁.exists_push hN hmalloc₁
  have hback : queue₂.back = some (cell N chunk' (p.log.length + 1)) :=
    hpushed.shape.back_eq (Nat.succ_pos _)
  -- the cells that are in use stay where they are
  have hcell : ∀ i ≤ p.log.length + 1, cell N chunk' i = cell N chunk i := fun i hi =>
    YQueue.cell_congr hpushed.chunk_eq hi
  have hflushed : p.flushed ≤ p.log.length + 1 :=
    (h.flushed_le.trans h.complete_le).trans (Nat.le_succ _)
  refine ⟨{ pipe with
      queue := queue₂
      f := if incomplete then pipe.f else cell N chunk' (p.log.length + 1) }, ?_, chunk', ?_⟩
  · rw [write, h.back_eq, Option.bind_some, hstore, Option.bind_some, hpush, Option.bind_some,
      hback]
    rfl
  · exact {
      shape := by
        rw [Pipe.write, List.length_append, List.length_singleton]
        exact hpushed.shape
      taken_le := h.taken_le
      flushed_le := by
        rw [Pipe.write]
        cases incomplete
        · exact hflushed
        · exact h.flushed_le
      complete_le := by
        rw [Pipe.write, List.length_append, List.length_singleton]
        cases incomplete
        · exact le_rfl
        · exact Nat.le_succ_of_le h.complete_le
      w_eq := h.w_eq.trans (hcell _ hflushed).symm
      f_eq := by
        rw [Pipe.write]
        cases incomplete
        · rfl
        · exact h.f_eq.trans (hcell _ (Nat.le_succ_of_le h.complete_le)).symm
      r_eq := by
        refine h.r_eq.imp_right fun ⟨i, hi, hi', hr⟩ => ⟨i, hi, hi', ?_⟩
        rw [hcell i (hi'.trans hflushed)]
        exact hr
      c_eq := by
        rw [Pipe.write, hcell _ hflushed]
        exact h.c_eq
      asleep_eq := h.asleep_eq
      load_eq := by
        intro i v hi hv
        rw [Pipe.write] at hv
        have hlen : i < p.log.length + 1 := by
          have := (List.getElem?_eq_some_iff.mp hv).1
          rwa [List.length_append, List.length_singleton] at this
        rw [hcell i hlen.le]
        refine (hpushed.load_eq i hi hlen.le).trans ?_
        rcases Nat.lt_or_eq_of_le (Nat.le_of_lt_succ hlen) with hlt | rfl
        · rw [hold i hi hlen.le hlt.ne]
          rw [List.getElem?_append_left hlt] at hv
          exact h.load_eq i v hi hv
        · rw [List.getElem?_concat_length] at hv
          rw [hnew, ← hv] }

/-- **`unwrite`** -/
theorem Refines.exists_unwrite (h : Refines N pipe p) (hN : 0 < N) :
    ∃ pipe', pipe.unwrite N = some (p.unwrite.1, pipe') ∧ Refines N pipe' p.unwrite.2 := by
  obtain ⟨chunk, h⟩ := h
  have htaken : p.taken ≤ p.complete := h.taken_le.trans h.flushed_le
  have hiff : pipe.f = cell N chunk p.log.length ↔ p.complete = p.log.length := by
    rw [h.f_eq]
    exact h.cell_eq_iff htaken h.complete_le (htaken.trans h.complete_le) le_rfl
  rw [unwrite, h.back_eq, Option.bind_some, Pipe.unwrite]
  by_cases hall : p.complete = p.log.length
  · rw [if_pos (hiff.mpr hall), if_pos hall]
    exact ⟨pipe, rfl, chunk, h⟩
  · rw [if_neg (mt hiff.mp hall), if_neg hall]
    have hlt : p.complete < p.log.length := Nat.lt_of_le_of_ne h.complete_le hall
    obtain ⟨n, hn⟩ : ∃ n, p.log.length = n + 1 := ⟨p.log.length - 1, by omega⟩
    have hshape := h.shape
    rw [hn] at hshape
    obtain ⟨queue, hunpush, hshape', hload⟩ := hshape.exists_unpush hN (by omega)
    have hback : queue.back = some (cell N chunk n) := hshape'.back_eq (Nat.succ_pos _)
    obtain ⟨last, hlast⟩ : ∃ last, p.log[n]? = some last :=
      ⟨_, List.getElem?_eq_getElem (by omega)⟩
    have hvalue : queue.load (cell N chunk n) = some last :=
      (hload n (by omega) (by omega)).trans (h.load_eq n last (by omega) hlast)
    refine ⟨{ pipe with queue := queue }, ?_, chunk, ?_⟩
    · have hgetLast : p.log.getLast? = some last := by
        rw [List.getLast?_eq_getElem?, hn, Nat.add_sub_cancel, hlast]
      rw [hunpush, Option.bind_some, hback, Option.bind_some, hvalue, hgetLast]
      rfl
    · have hlength : p.log.dropLast.length = n := by
        rw [List.length_dropLast, hn, Nat.add_sub_cancel]
      exact {
        shape := by
          rw [hlength]
          exact hshape'
        taken_le := h.taken_le
        flushed_le := h.flushed_le
        complete_le := by
          rw [hlength]
          dsimp only
          omega
        w_eq := h.w_eq
        f_eq := h.f_eq
        r_eq := h.r_eq
        c_eq := h.c_eq
        asleep_eq := h.asleep_eq
        load_eq := by
          intro i v hi hv
          have hlen := (List.getElem?_eq_some_iff.mp hv).1
          rw [hlength] at hlen
          rw [List.getElem?_dropLast, if_pos (by omega)] at hv
          exact (hload i hi (by omega)).trans (h.load_eq i v hi hv) }

/-- Publishing what is complete. -/
theorem Inv.publish (h : Inv N chunk pipe p) :
    Inv N chunk { pipe with c := some pipe.f, w := pipe.f }
      { p with flushed := p.complete, asleep := false } where
  shape := h.shape
  taken_le := h.taken_le.trans h.flushed_le
  flushed_le := le_rfl
  complete_le := h.complete_le
  w_eq := h.f_eq
  f_eq := h.f_eq
  r_eq := h.r_eq.imp_right fun ⟨i, hi, hi', hr⟩ => ⟨i, hi, hi'.trans h.flushed_le, hr⟩
  c_eq := congrArg some h.f_eq
  asleep_eq := fun hasleep => absurd hasleep Bool.false_ne_true
  load_eq := h.load_eq

/-- **`flush`.** Its compare-and-swap either settles it, and the reader is awake, or fails because
the reader is asleep. -/
theorem Refines.flushCas_cases (h : Refines N pipe p) :
    (∃ pipe', pipe.flushCas = (some true, pipe') ∧ p.flush.1 = true ∧ Refines N pipe' p.flush.2) ∨
      (pipe.flushCas = (none, pipe) ∧ p.flushed ≠ p.complete ∧ p.asleep = true) := by
  obtain ⟨chunk, h⟩ := h
  have hiff : pipe.w = pipe.f ↔ p.flushed = p.complete := by
    rw [h.w_eq, h.f_eq]
    exact h.cell_eq_iff h.taken_le (h.flushed_le.trans h.complete_le)
      (h.taken_le.trans h.flushed_le) h.complete_le
  rw [flushCas, Pipe.flush]
  by_cases hall : p.flushed = p.complete
  · rw [if_pos (hiff.mpr hall), if_pos hall]
    exact .inl ⟨pipe, rfl, rfl, chunk, h⟩
  · rw [if_neg (mt hiff.mp hall), if_neg hall]
    cases hasleep : p.asleep with
    | true =>
        have hc : pipe.c = none := by simpa [hasleep] using h.c_eq
        rw [hc, if_neg (by simp)]
        exact .inr ⟨rfl, hall, rfl⟩
    | false =>
        have hc : pipe.c = some pipe.w := by
          rw [h.w_eq]
          simpa [hasleep] using h.c_eq
        rw [if_pos hc]
        exact .inl ⟨_, rfl, rfl, chunk, h.publish⟩

/-- The end of a `flush` that found the reader asleep. -/
theorem Refines.flushSet (h : Refines N pipe p) (hnew : p.flushed ≠ p.complete)
    (hasleep : p.asleep = true) : p.flush.1 = false ∧ Refines N pipe.flushSet p.flush.2 := by
  obtain ⟨chunk, h⟩ := h
  rw [Pipe.flush, if_neg hnew, hasleep]
  exact ⟨rfl, chunk, h.publish⟩

/-- There is nothing to read: the reader gives up `c`. -/
theorem Inv.checkRead_empty (h : Inv N chunk pipe p) (hnone : ¬ p.taken < p.flushed) :
    ∃ pipe', pipe.checkRead = (false, pipe') ∧ Inv N chunk pipe' { p with asleep := true } := by
  have heq : p.taken = p.flushed := Nat.le_antisymm h.taken_le (Nat.le_of_not_lt hnone)
  have hfront := h.shape.front_eq
  have hfetched : ¬ (some pipe.queue.front ≠ pipe.r ∧ pipe.r ≠ none) := by
    rintro ⟨hne, hr⟩
    obtain ⟨i, hi, hi', hri⟩ := h.r_eq.resolve_left hr
    obtain rfl : i = p.taken := by omega
    rw [hfront, hri] at hne
    exact hne rfl
  have hc : pipe.c = none ∨ pipe.c = some (cell N chunk p.flushed) := by
    rw [h.c_eq]
    split_ifs
    · exact .inl rfl
    · exact .inr rfl
  refine ⟨{ pipe with r := pipe.c, c := none }, ?_, ?_⟩
  · rw [checkRead, if_neg hfetched, hfront, heq]
    rcases hc with hc | hc <;> simp [hc]
  · exact { h with
      r_eq := hc.imp_right fun hc => ⟨p.flushed, h.taken_le, le_rfl, hc⟩
      c_eq := rfl
      asleep_eq := fun _ => heq }

/-- There is something to read, fetched before or now. -/
theorem Inv.checkRead_some (h : Inv N chunk pipe p) (hsome : p.taken < p.flushed) :
    ∃ pipe', pipe.checkRead = (true, pipe') ∧ Inv N chunk pipe' p ∧
      ∃ i, p.taken < i ∧ i ≤ p.flushed ∧ pipe'.r = some (cell N chunk i) := by
  have hlog : p.flushed ≤ p.log.length := h.flushed_le.trans h.complete_le
  have htaken : p.taken ≤ p.log.length := h.taken_le.trans hlog
  have hfront := h.shape.front_eq
  rw [checkRead]
  by_cases hfetched : some pipe.queue.front ≠ pipe.r ∧ pipe.r ≠ none
  · obtain ⟨i, hi, hi', hri⟩ := h.r_eq.resolve_left hfetched.2
    have hne : i ≠ p.taken := by
      rintro rfl
      exact hfetched.1 (by rw [hfront, hri])
    rw [if_pos hfetched]
    exact ⟨pipe, rfl, h, i, by omega, hi', hri⟩
  · have hawake : p.asleep = false := by
      by_contra hasleep
      exact hsome.ne (h.asleep_eq (Bool.eq_true_of_not_eq_false hasleep))
    have hc : pipe.c = some (cell N chunk p.flushed) := by simpa [hawake] using h.c_eq
    have hne : pipe.c ≠ some pipe.queue.front := by
      rw [hc, hfront]
      intro heq
      have := (h.cell_eq_iff h.taken_le hlog le_rfl htaken).mp (Option.some.inj heq)
      omega
    have hnull : pipe.c ≠ none := hc ▸ Option.some_ne_none _
    rw [if_neg hfetched, if_neg hne]
    refine ⟨{ pipe with r := pipe.c }, by simp [hne, hnull], ?_, p.flushed, hsome, le_rfl, hc⟩
    exact { h with
      r_eq := .inr ⟨p.flushed, h.taken_le, le_rfl, hc⟩ }

/-- **`check_read`** -/
theorem Refines.exists_checkRead (h : Refines N pipe p) :
    ∃ pipe', pipe.checkRead = (p.checkRead.1, pipe') ∧ Refines N pipe' p.checkRead.2 := by
  obtain ⟨chunk, h⟩ := h
  rw [Pipe.checkRead]
  by_cases hsome : p.taken < p.flushed
  · obtain ⟨pipe₁, hcheck, h₁, -⟩ := h.checkRead_some hsome
    rw [if_pos hsome]
    exact ⟨pipe₁, hcheck, chunk, h₁⟩
  · obtain ⟨pipe₁, hcheck, h₁⟩ := h.checkRead_empty hsome
    rw [if_neg hsome]
    exact ⟨pipe₁, hcheck, chunk, h₁⟩

/-- **`read`** -/
theorem Refines.exists_read (h : Refines N pipe p) (hN : 0 < N) :
    ∃ pipe', pipe.read N = some (p.read.1, pipe') ∧ Refines N pipe' p.read.2 := by
  obtain ⟨chunk, h⟩ := h
  rw [read, Pipe.read]
  by_cases hsome : p.taken < p.flushed
  · obtain ⟨pipe₁, hcheck, h₁, i, hi, hi', hr⟩ := h.checkRead_some hsome
    have hlog : p.flushed ≤ p.log.length := h.flushed_le.trans h.complete_le
    obtain ⟨v, hv⟩ : ∃ v, p.log[p.taken]? = some v :=
      ⟨_, List.getElem?_eq_getElem (hsome.trans_le hlog)⟩
    obtain ⟨queue, hpop, hshape, hload⟩ := h₁.shape.exists_pop hN (by omega)
    have hvalue : pipe₁.queue.load pipe₁.queue.front = some v := by
      rw [h₁.shape.front_eq]
      exact h₁.load_eq _ v le_rfl hv
    rw [if_pos hsome, hcheck]
    refine ⟨{ pipe₁ with queue := queue }, ?_, chunk, ?_⟩
    · dsimp only
      rw [hvalue, Option.bind_some, hpop, hv]
      rfl
    · exact {
        shape := hshape
        taken_le := hsome
        flushed_le := h.flushed_le
        complete_le := h.complete_le
        w_eq := h₁.w_eq
        f_eq := h₁.f_eq
        r_eq := .inr ⟨i, hi, hi', hr⟩
        c_eq := h₁.c_eq
        asleep_eq := fun hasleep => absurd (h.asleep_eq hasleep) hsome.ne
        load_eq := by
          intro j v hj hv
          have hlen := (List.getElem?_eq_some_iff.mp hv).1
          exact (hload j hj (Nat.le_succ_of_le hlen.le)).trans
            (h₁.load_eq j v (Nat.le_of_succ_le hj) hv) }
  · obtain ⟨pipe₁, hcheck, h₁⟩ := h.checkRead_empty hsome
    rw [if_neg hsome, hcheck]
    exact ⟨pipe₁, rfl, chunk, h₁⟩

end YPipe

/-! ## Every interleaving of the two threads -/

/-- A step of the writer or of the reader. A `flush` whose compare-and-swap fails takes a second
step. -/
inductive PipeAction (T : Type u)
  | write (value : T) (incomplete : Bool) (malloc : Malloc T)
  | unwrite
  | flush
  | set
  | checkRead
  | read

/-- What a call returned. -/
inductive PipeResult (T : Type u)
  | unwrite (value : Option T)
  | flush (awake : Bool)
  | checkRead (available : Bool)
  | read (value : Option T)
  deriving DecidableEq, Repr

/-- The values that have been read, in their order. -/
def reads {T : Type u} (results : List (PipeResult T)) : List T :=
  results.filterMap fun
    | .read value => value
    | _ => none

/-- A pipe with its two threads. -/
structure YPipeSystem (T : Type u) where
  pipe : YPipe T
  /-- The writer is inside `flush`, its compare-and-swap has failed. -/
  setting : Bool
  results : List (PipeResult T)
  /-- A freed chunk or a null pointer has been used. -/
  faulted : Bool

namespace YPipeSystem

variable {T : Type u} (N : ℕ)

/-- A call has returned, or has used memory that is not there. -/
def finish (s : YPipeSystem T) : Option (Option (PipeResult T) × YPipe T) → YPipeSystem T
  | some (result, pipe) => { s with pipe := pipe, results := s.results ++ result.toList }
  | none => { s with faulted := true }

/-- One step. The allocator returns memory that is not in use. -/
def step (s : YPipeSystem T) : PipeAction T → Option (YPipeSystem T)
  | .write value incomplete malloc =>
      if s.setting = false ∧ ¬ s.pipe.queue.heap.Live malloc.addr then
        some (s.finish ((s.pipe.write N value incomplete malloc).map (none, ·)))
      else none
  | .unwrite =>
      if s.setting = false then
        some (s.finish ((s.pipe.unwrite N).map fun (value, pipe) => (some (.unwrite value), pipe)))
      else none
  | .flush =>
      if s.setting = false then
        match s.pipe.flushCas with
        | (some awake, pipe) => some (s.finish (some (some (.flush awake), pipe)))
        | (none, _) => some { s with setting := true }
      else none
  | .set =>
      if s.setting = true then
        some { s.finish (some (some (.flush false), s.pipe.flushSet)) with setting := false }
      else none
  | .checkRead =>
      some (s.finish (some (some (.checkRead s.pipe.checkRead.1), s.pipe.checkRead.2)))
  | .read =>
      some (s.finish ((s.pipe.read N).map fun (value, pipe) => (some (.read value), pipe)))

/-- Every interleaving on a pipe. -/
def machine (pipe : YPipe T) : Machine (YPipeSystem T) (PipeAction T) where
  init := ⟨pipe, false, [], false⟩
  step := step N

end YPipeSystem

/-- The list with its two threads. -/
structure PipeSystem (T : Type u) where
  pipe : Pipe T
  setting : Bool
  results : List (PipeResult T)

namespace PipeSystem

variable {T : Type u}

def finish (s : PipeSystem T) (result : Option (PipeResult T)) (pipe : Pipe T) : PipeSystem T :=
  { s with pipe := pipe, results := s.results ++ result.toList }

/-- One step; a `flush` that finds the reader asleep is done with its second step. -/
def step (s : PipeSystem T) : PipeAction T → Option (PipeSystem T)
  | .write value incomplete _ =>
      if s.setting = false then some (s.finish none (s.pipe.write value incomplete)) else none
  | .unwrite =>
      if s.setting = false then
        some (s.finish (some (.unwrite s.pipe.unwrite.1)) s.pipe.unwrite.2)
      else none
  | .flush =>
      if s.setting = false then
        if s.pipe.flush.1 then some (s.finish (some (.flush true)) s.pipe.flush.2)
        else some { s with setting := true }
      else none
  | .set =>
      if s.setting = true then
        some { s.finish (some (.flush s.pipe.flush.1)) s.pipe.flush.2 with setting := false }
      else none
  | .checkRead => some (s.finish (some (.checkRead s.pipe.checkRead.1)) s.pipe.checkRead.2)
  | .read => some (s.finish (some (.read s.pipe.read.1)) s.pipe.read.2)

def machine : Machine (PipeSystem T) (PipeAction T) where
  init := ⟨.create, false, []⟩
  step := step

end PipeSystem

namespace YPipeSystem

variable {T : Type u} {N : ℕ} {s s' : YPipeSystem T} {a : PipeSystem T}

/-- The pipe and the list agree, and nothing has gone wrong. -/
structure Sim (N : ℕ) (s : YPipeSystem T) (a : PipeSystem T) : Prop where
  refines : YPipe.Refines N s.pipe a.pipe
  setting_eq : s.setting = a.setting
  results_eq : s.results = a.results
  faulted_eq : s.faulted = false
  setting : a.setting = true → a.pipe.flushed ≠ a.pipe.complete ∧ a.pipe.asleep = true

/-- A call that returns the same on both sides. -/
theorem Sim.finish (h : Sim N s a) {pipe' : YPipe T} {p' : Pipe T}
    (hrefines : YPipe.Refines N pipe' p') (result : Option (PipeResult T))
    (hsetting : a.setting = true → p'.flushed ≠ p'.complete ∧ p'.asleep = true) :
    Sim N (s.finish (some (result, pipe'))) (a.finish result p') where
  refines := hrefines
  setting_eq := h.setting_eq
  results_eq := congrArg (· ++ result.toList) h.results_eq
  faulted_eq := h.faulted_eq
  setting := hsetting

/-- Outside of a `flush` nothing is to be kept. -/
theorem not_setting {P : Prop} (hidle : a.setting = false) (hsetting : a.setting = true) : P :=
  absurd (hidle.symm.trans hsetting) Bool.false_ne_true

/-- Every step of the pipe is a step of the list. -/
theorem Sim.step (hN : 0 < N) (h : Sim N s a) {action : PipeAction T}
    (hstep : s.step N action = some s') :
    ∃ a', a.step action = some a' ∧ Sim N s' a' := by
  cases action with
  | write value incomplete malloc =>
      rw [YPipeSystem.step, Option.ite_none_right_eq_some] at hstep
      obtain ⟨⟨hidle, hmalloc⟩, hstep⟩ := hstep
      rw [h.setting_eq] at hidle
      obtain ⟨pipe', hwrite, hrefines⟩ := h.refines.exists_write hN value incomplete hmalloc
      rw [hwrite, Option.map_some] at hstep
      obtain rfl := Option.some.inj hstep
      refine ⟨_, by rw [PipeSystem.step, if_pos hidle], h.finish hrefines none ?_⟩
      exact not_setting hidle
  | unwrite =>
      rw [YPipeSystem.step, Option.ite_none_right_eq_some] at hstep
      obtain ⟨hidle, hstep⟩ := hstep
      rw [h.setting_eq] at hidle
      obtain ⟨pipe', hunwrite, hrefines⟩ := h.refines.exists_unwrite hN
      rw [hunwrite, Option.map_some] at hstep
      obtain rfl := Option.some.inj hstep
      refine ⟨_, by rw [PipeSystem.step, if_pos hidle], h.finish hrefines _ ?_⟩
      exact not_setting hidle
  | flush =>
      rw [YPipeSystem.step, Option.ite_none_right_eq_some] at hstep
      obtain ⟨hidle, hstep⟩ := hstep
      rw [h.setting_eq] at hidle
      rw [PipeSystem.step, if_pos hidle]
      rcases h.refines.flushCas_cases with ⟨pipe', hcas, hawake, hrefines⟩ | ⟨hcas, hnew, hasleep⟩
      · rw [hcas] at hstep
        obtain rfl := Option.some.inj hstep
        refine ⟨_, by rw [if_pos hawake], h.finish hrefines _ ?_⟩
        exact not_setting hidle
      · rw [hcas] at hstep
        obtain rfl := Option.some.inj hstep
        have hresult := (h.refines.flushSet hnew hasleep).1
        refine ⟨_, by rw [hresult, if_neg Bool.false_ne_true], ?_⟩
        exact { h with
          setting_eq := rfl
          setting := fun _ => ⟨hnew, hasleep⟩ }
  | set =>
      rw [YPipeSystem.step, Option.ite_none_right_eq_some] at hstep
      obtain ⟨hbusy, hstep⟩ := hstep
      rw [h.setting_eq] at hbusy
      obtain ⟨hnew, hasleep⟩ := h.setting hbusy
      obtain ⟨hresult, hrefines⟩ := h.refines.flushSet hnew hasleep
      obtain rfl := Option.some.inj hstep
      refine ⟨_, by rw [PipeSystem.step, if_pos hbusy], ?_⟩
      exact {
        refines := hrefines
        setting_eq := rfl
        results_eq := by
          rw [hresult]
          exact congrArg (· ++ _) h.results_eq
        faulted_eq := h.faulted_eq
        setting := fun hsetting => absurd hsetting Bool.false_ne_true }
  | checkRead =>
      obtain ⟨pipe', hcheck, hrefines⟩ := h.refines.exists_checkRead
      rw [YPipeSystem.step, hcheck] at hstep
      obtain rfl := Option.some.inj hstep
      refine ⟨_, rfl, h.finish hrefines _ fun hbusy => ?_⟩
      -- while the writer is inside `flush` there is nothing to be found
      obtain ⟨hnew, hasleep⟩ := h.setting hbusy
      obtain ⟨chunk, hinv⟩ := h.refines
      rw [Pipe.checkRead, if_neg (Nat.not_lt.mpr (hinv.asleep_eq hasleep).ge)]
      exact ⟨hnew, rfl⟩
  | read =>
      obtain ⟨pipe', hread, hrefines⟩ := h.refines.exists_read hN
      rw [YPipeSystem.step, hread, Option.map_some] at hstep
      obtain rfl := Option.some.inj hstep
      refine ⟨_, rfl, h.finish hrefines _ fun hbusy => ?_⟩
      -- while the writer is inside `flush` there is nothing that could be read
      obtain ⟨hnew, hasleep⟩ := h.setting hbusy
      obtain ⟨chunk, hinv⟩ := h.refines
      rw [Pipe.read, if_neg (Nat.not_lt.mpr (hinv.asleep_eq hasleep).ge)]
      exact ⟨hnew, rfl⟩

end YPipeSystem

namespace PipeSystem

variable {T : Type u} {a a' : PipeSystem T}

/-- The items that have been read are the first of those that were published. -/
structure Inv (a : PipeSystem T) : Prop where
  taken_le : a.pipe.taken ≤ a.pipe.flushed
  flushed_le : a.pipe.flushed ≤ a.pipe.complete
  complete_le : a.pipe.complete ≤ a.pipe.log.length
  reads_eq : reads a.results = a.pipe.log.take a.pipe.taken

theorem reads_append (results results' : List (PipeResult T)) :
    reads (results ++ results') = reads results ++ reads results' :=
  List.filterMap_append

theorem Inv.flush (h : a.Inv) (setting awake : Bool) :
    Inv { a.finish (some (.flush awake)) a.pipe.flush.2 with setting := setting } where
  taken_le := by
    simp only [finish, Pipe.flush]
    split_ifs
    · exact h.taken_le
    · exact h.taken_le.trans h.flushed_le
  flushed_le := by
    simp only [finish, Pipe.flush]
    split_ifs
    · exact h.flushed_le
    · exact le_rfl
  complete_le := by
    simp only [finish, Pipe.flush]
    split_ifs <;> exact h.complete_le
  reads_eq := by
    simp only [finish, Pipe.flush, reads_append, h.reads_eq]
    split_ifs <;> simp [reads]

theorem Inv.write (h : a.Inv) (value : T) (incomplete : Bool) :
    (a.finish none (a.pipe.write value incomplete)).Inv where
  taken_le := h.taken_le
  flushed_le := by
    simp only [finish, Pipe.write]
    split_ifs
    · exact h.flushed_le
    · exact (h.flushed_le.trans h.complete_le).trans (Nat.le_succ _)
  complete_le := by
    simp only [finish, Pipe.write, List.length_append, List.length_singleton]
    split_ifs
    · exact Nat.le_succ_of_le h.complete_le
    · exact le_rfl
  reads_eq := by
    have htaken := h.taken_le.trans (h.flushed_le.trans h.complete_le)
    simp only [finish, Pipe.write, Option.toList_none, List.append_nil]
    rw [List.take_append_of_le_length htaken]
    exact h.reads_eq

theorem Inv.unwrite (h : a.Inv) :
    (a.finish (some (.unwrite a.pipe.unwrite.1)) a.pipe.unwrite.2).Inv := by
  have hresult : reads [PipeResult.unwrite a.pipe.unwrite.1] = [] := rfl
  by_cases hall : a.pipe.complete = a.pipe.log.length
  · have hsame : a.pipe.unwrite.2 = a.pipe := by rw [Pipe.unwrite, if_pos hall]
    rw [finish, hsame]
    exact ⟨h.taken_le, h.flushed_le, h.complete_le, by
      rw [Option.toList_some, reads_append, hresult, List.append_nil]
      exact h.reads_eq⟩
  · have hshort : a.pipe.unwrite.2 = { a.pipe with log := a.pipe.log.dropLast } := by
      rw [Pipe.unwrite, if_neg hall]
    have hlt := Nat.lt_of_le_of_ne h.complete_le hall
    have htaken := h.taken_le.trans h.flushed_le
    rw [finish, hshort]
    refine ⟨h.taken_le, h.flushed_le, ?_, ?_⟩
    · rw [List.length_dropLast]
      exact Nat.le_sub_one_of_lt hlt
    · have hmin : min a.pipe.taken (a.pipe.log.length - 1) = a.pipe.taken :=
        Nat.min_eq_left (by omega)
      rw [Option.toList_some, reads_append, hresult, List.append_nil, h.reads_eq,
        List.dropLast_eq_take, List.take_take, hmin]

theorem Inv.checkRead (h : a.Inv) :
    (a.finish (some (.checkRead a.pipe.checkRead.1)) a.pipe.checkRead.2).Inv := by
  have hreads : reads (a.results ++ [PipeResult.checkRead a.pipe.checkRead.1]) =
      a.pipe.log.take a.pipe.taken := by
    rw [reads_append, h.reads_eq]
    exact List.append_nil _
  simp only [finish, Pipe.checkRead] at hreads ⊢
  split_ifs at hreads ⊢
  · exact ⟨h.taken_le, h.flushed_le, h.complete_le, hreads⟩
  · exact ⟨h.taken_le, h.flushed_le, h.complete_le, hreads⟩

theorem Inv.read (h : a.Inv) : (a.finish (some (.read a.pipe.read.1)) a.pipe.read.2).Inv := by
  by_cases hsome : a.pipe.taken < a.pipe.flushed
  · have hlt := hsome.trans_le (h.flushed_le.trans h.complete_le)
    simp only [finish, Pipe.read, if_pos hsome]
    refine ⟨hsome, h.flushed_le, h.complete_le, ?_⟩
    rw [Option.toList_some, reads_append, h.reads_eq, List.take_add_one]
    simp [reads, List.getElem?_eq_getElem hlt]
  · simp only [finish, Pipe.read, if_neg hsome]
    refine ⟨h.taken_le, h.flushed_le, h.complete_le, ?_⟩
    rw [Option.toList_some, reads_append, h.reads_eq]
    exact List.append_nil _

theorem Inv.step (h : a.Inv) {action : PipeAction T} (hstep : a.step action = some a') :
    a'.Inv := by
  cases action with
  | write value incomplete malloc =>
      obtain ⟨-, hstep⟩ := Option.ite_none_right_eq_some.mp hstep
      obtain rfl := Option.some.inj hstep
      exact h.write value incomplete
  | unwrite =>
      obtain ⟨-, hstep⟩ := Option.ite_none_right_eq_some.mp hstep
      obtain rfl := Option.some.inj hstep
      exact h.unwrite
  | flush =>
      obtain ⟨-, hstep⟩ := Option.ite_none_right_eq_some.mp hstep
      split_ifs at hstep
      · obtain rfl := Option.some.inj hstep
        exact h.flush a.setting true
      · obtain rfl := Option.some.inj hstep
        exact ⟨h.taken_le, h.flushed_le, h.complete_le, h.reads_eq⟩
  | set =>
      obtain ⟨-, hstep⟩ := Option.ite_none_right_eq_some.mp hstep
      obtain rfl := Option.some.inj hstep
      exact h.flush false _
  | checkRead =>
      obtain rfl := Option.some.inj hstep
      exact h.checkRead
  | read =>
      obtain rfl := Option.some.inj hstep
      exact h.read

theorem Inv.reachable (hreach : machine.Reachable a) : a.Inv :=
  hreach.invariant Inv ⟨le_rfl, le_rfl, le_rfl, rfl⟩ fun h hstep => h.step hstep

end PipeSystem

namespace YPipeSystem

variable {T : Type u} {N : ℕ}

/-- **The lock-free pipe.** In every interleaving of a writer and a reader, for every granularity
and every choice of addresses by the allocator: no freed chunk and no null pointer is used, every
call returns what it returns on the list, the values that were read are the first that were
published, the allocated chunks are those that the unread items need and at most three more, and
the destructor frees each of them once. -/
theorem ypipe_refines_list (hN : 0 < N) {first second : Malloc T}
    (hfresh : second.addr ≠ first.addr) {pipe : YPipe T}
    (hcreate : YPipe.create N first second = some pipe) {actions : List (PipeAction T)}
    {s : YPipeSystem T}
    (hrun : (machine N pipe).runFrom (machine N pipe).init actions = some s) :
    s.faulted = false ∧
      ∃ a, PipeSystem.machine.runFrom PipeSystem.machine.init actions = some a ∧
        s.results = a.results ∧
        reads s.results = a.pipe.log.take a.pipe.taken ∧ a.pipe.taken ≤ a.pipe.flushed ∧
        {addr | s.pipe.queue.heap.Live addr}.ncard ≤
          (a.pipe.log.length - a.pipe.taken) / N + 3 ∧
        ∃ fuel heap, s.pipe.queue.destroy fuel = some heap ∧ ∀ addr, heap.block addr = none := by
  obtain ⟨pipe', hcreate', hrefines⟩ := YPipe.refines_create hN hfresh
  obtain rfl : pipe' = pipe := Option.some.inj (hcreate'.symm.trans hcreate)
  have hinit : Sim N (machine N pipe').init PipeSystem.machine.init :=
    ⟨hrefines, rfl, rfl, rfl, fun hsetting => absurd hsetting Bool.false_ne_true⟩
  have hsimulates : ∃ a, PipeSystem.machine.runFrom PipeSystem.machine.init actions = some a ∧
      Sim N s a :=
    Machine.runFrom_simulation (Sim N) (fun h hstep => h.step hN hstep) hinit hrun
  obtain ⟨a, ha, hsim⟩ := hsimulates
  have hinv : a.Inv := .reachable ⟨actions, ha⟩
  obtain ⟨chunk, hpipe⟩ := hsim.refines
  refine ⟨hsim.faulted_eq, a, ha, hsim.results_eq, ?_, hinv.taken_le, ?_, ?_⟩
  · rw [hsim.results_eq]
    exact hinv.reads_eq
  · exact hpipe.shape.ncard_live_le hN
  · obtain ⟨heap, hheap, hfree⟩ := hpipe.shape.exists_destroy (Nat.lt_succ_self _)
    exact ⟨_, heap, hheap, hfree⟩

/-- What `malloc` returns at an address in the example below. -/
def blank (addr : ℕ) : Malloc ℕ := ⟨addr, ⟨fun _ => 0, none, none⟩⟩

/-- A run in which a chunk is given up and used again. -/
def chunkReused : List (PipeAction ℕ) :=
  [.checkRead, .write 1 false (blank 5), .flush, .set, .checkRead, .read,
    .write 2 false (blank 6), .write 3 false (blank 7),
    .write 4 true (blank 8), .unwrite, .flush, .read, .read, .read, .write 5 false (blank 9),
    .flush, .set, .read]

theorem ypipe_refines_list_chunkReused :
    ∃ pipe s, YPipe.create 2 (blank 3) (blank 4) = some pipe ∧
      (machine 2 pipe).runFrom (machine 2 pipe).init chunkReused = some s ∧
      reads s.results = [1, 2, 3, 5] ∧ s.faulted = false ∧
      ∃ fuel heap, s.pipe.queue.destroy fuel = some heap ∧ ∀ addr, heap.block addr = none := by
  have hall : ((YPipe.create 2 (blank 3) (blank 4)).bind fun pipe =>
      ((machine 2 pipe).runFrom (machine 2 pipe).init chunkReused).map fun s =>
        reads s.results) = some [1, 2, 3, 5] := by
    decide
  obtain ⟨pipe, hcreate, hmap⟩ := Option.bind_eq_some_iff.mp hall
  obtain ⟨s, hrun, hreads⟩ := Option.map_eq_some_iff.mp hmap
  obtain ⟨hfault, a, -, -, -, -, -, hdestroy⟩ :=
    ypipe_refines_list (by decide) (by decide) hcreate hrun
  exact ⟨pipe, s, hcreate, hrun, hreads, hfault, hdestroy⟩

end YPipeSystem

end AFStream.ControlChannel

/-
# The chunked queue

`yqueue_t` keeps its elements in chunks of `N` that are linked in both directions. The writer
appends a chunk when the last one is full; the reader gives a chunk up when it has been read, but
keeps the last one it gave up as a spare that the writer takes instead of allocating. Addresses are
therefore used again, and the pipe that is built on the queue compares addresses. The module models
the chunks on a heap and proves that the queue is a sequence of cells with different addresses,
that no operation touches a chunk that has been freed, and that no chunk is ever lost.
-/

import AFStream.Foundation.Heap

namespace AFStream.ControlChannel

open AFStream.Foundation

universe u

/-- `yqueue_t::chunk_t` -/
structure YChunk (T : Type u) where
  values : ℕ → T
  prev : Option ℕ
  next : Option ℕ

/-- What `malloc` returns: an address, and whatever the memory holds. -/
structure Malloc (T : Type u) where
  addr : ℕ
  contents : YChunk T

/-- The address of an element. -/
structure Cell where
  chunk : ℕ
  pos : ℕ
  deriving DecidableEq, Repr

/-- `yqueue_t` -/
structure YQueue (T : Type u) where
  heap : Heap (YChunk T)
  beginChunk : ℕ
  beginPos : ℕ
  backChunk : Option ℕ
  backPos : ℕ
  endChunk : ℕ
  endPos : ℕ
  spareChunk : Option ℕ

namespace YQueue

variable {T : Type u}

/-- The constructor. -/
def create (malloc : Malloc T) : YQueue T where
  heap := Heap.empty.alloc malloc.addr malloc.contents
  beginChunk := malloc.addr
  beginPos := 0
  backChunk := none
  backPos := 0
  endChunk := malloc.addr
  endPos := 0
  spareChunk := none

variable (N : ℕ) (q : YQueue T)

/-- The address of `front ()`. -/
def front : Cell := ⟨q.beginChunk, q.beginPos⟩

/-- The address of `back ()`. -/
def back : Option Cell := q.backChunk.map (⟨·, q.backPos⟩)

/-- Read an element. -/
def load (cell : Cell) : Option T := (q.heap.block cell.chunk).map fun ch => ch.values cell.pos

/-- Write an element. -/
def store (cell : Cell) (value : T) : Option (YQueue T) :=
  (q.heap.modify cell.chunk fun ch =>
    { ch with values := Function.update ch.values cell.pos value }).map fun heap =>
      { q with heap := heap }

/-- Link a chunk behind the last one. -/
def link (heap : Heap (YChunk T)) (last chunk : ℕ) : Option (Heap (YChunk T)) :=
  (heap.modify last fun ch => { ch with next := some chunk }).bind fun heap =>
    heap.modify chunk fun ch => { ch with prev := some last }

/-- The second half of `push`: a chunk becomes the last one. -/
def appendChunk (chunk : ℕ) (heap : Heap (YChunk T)) : Option (YQueue T) :=
  (link heap q.endChunk chunk).map fun heap =>
    { q with
      heap := heap
      backChunk := some q.endChunk
      backPos := q.endPos
      spareChunk := none
      endChunk := chunk
      endPos := 0 }

/-- `push`; the exchange of `spare_chunk` is its only access to what the reader uses. -/
def push (malloc : Malloc T) : Option (YQueue T) :=
  if q.endPos + 1 ≠ N then
    some { q with
      backChunk := some q.endChunk
      backPos := q.endPos
      endPos := q.endPos + 1 }
  else
    match q.spareChunk with
    | some spare => q.appendChunk spare q.heap
    | none => q.appendChunk malloc.addr (q.heap.alloc malloc.addr malloc.contents)

/-- `unpush` moves `back` first. -/
def unpushBack : Option (YQueue T) :=
  if q.backPos ≠ 0 then some { q with backPos := q.backPos - 1 }
  else
    (q.backChunk.bind q.heap.block).map fun ch =>
      { q with backPos := N - 1, backChunk := ch.prev }

/-- Then it moves the end, and frees a chunk that is left. -/
def unpushEnd : Option (YQueue T) :=
  if q.endPos ≠ 0 then some { q with endPos := q.endPos - 1 }
  else
    ((q.heap.block q.endChunk).bind YChunk.prev).bind fun prev =>
    (q.heap.block prev).bind fun before =>
    (q.heap.freePtr before.next).bind fun heap =>
    (heap.modify prev fun ch => { ch with next := none }).map fun heap =>
      { q with heap := heap, endPos := N - 1, endChunk := prev }

/-- `unpush` -/
def unpush : Option (YQueue T) := (q.unpushBack N).bind fun q => q.unpushEnd N

/-- `pop`; the exchange of `spare_chunk` is its only access to what the writer uses. -/
def pop : Option (YQueue T) :=
  if q.beginPos + 1 ≠ N then some { q with beginPos := q.beginPos + 1 }
  else
    ((q.heap.block q.beginChunk).bind YChunk.next).bind fun next =>
    (q.heap.modify next fun ch => { ch with prev := none }).bind fun heap =>
    (heap.freePtr q.spareChunk).map fun heap =>
      { q with
        heap := heap
        beginChunk := next
        beginPos := 0
        spareChunk := some q.beginChunk }

/-- The loop of the destructor; `fuel` bounds its iterations. -/
def freeChunks (last : ℕ) : ℕ → ℕ → Heap (YChunk T) → Option (Heap (YChunk T))
  | 0, _, _ => none
  | fuel + 1, first, heap =>
    if first = last then heap.free first
    else
      ((heap.block first).bind YChunk.next).bind fun next =>
      (heap.free first).bind fun heap => freeChunks last fuel next heap

/-- The destructor: what is left allocated. -/
def destroy (fuel : ℕ) : Option (Heap (YChunk T)) :=
  (freeChunks q.endChunk fuel q.beginChunk q.heap).bind fun heap => heap.freePtr q.spareChunk

end YQueue

/-! ## Positions -/

/-- The cell of the element with number `p`, when `chunk` gives the addresses of the chunks. -/
def cell (N : ℕ) (chunk : ℕ → ℕ) (p : ℕ) : Cell := ⟨chunk (p / N), p % N⟩

/-- Inside a chunk. -/
theorem next_position {N p : ℕ} (hN : 0 < N) (hpos : p % N + 1 ≠ N) :
    (p + 1) / N = p / N ∧ (p + 1) % N = p % N + 1 := by
  have hlt : p % N + 1 < N := Nat.lt_of_le_of_ne (Nat.mod_lt p hN) hpos
  have hp : p + 1 = (p % N + 1) + N * (p / N) := by
    have := Nat.mod_add_div p N
    omega
  constructor
  · rw [hp, Nat.add_mul_div_left _ _ hN, Nat.div_eq_of_lt hlt, Nat.zero_add]
  · rw [hp, Nat.add_mul_mod_self_left, Nat.mod_eq_of_lt hlt]

/-- At the end of a chunk. -/
theorem next_chunk {N p : ℕ} (hN : 0 < N) (hpos : p % N + 1 = N) :
    (p + 1) / N = p / N + 1 ∧ (p + 1) % N = 0 := by
  have hp : p + 1 = N * (p / N + 1) := by
    have := Nat.mod_add_div p N
    rw [Nat.mul_add, Nat.mul_one]
    omega
  constructor
  · rw [hp, Nat.mul_div_cancel_left _ hN]
  · rw [hp, Nat.mul_mod_right]

/-- Equal cells of different elements lie in different chunks with one address. -/
theorem cell_injective {N : ℕ} {chunk : ℕ → ℕ} {p p' : ℕ}
    (hchunk : chunk (p / N) = chunk (p' / N) → p / N = p' / N)
    (hcell : cell N chunk p = cell N chunk p') : p = p' := by
  obtain ⟨hdiv, hmod⟩ := Cell.mk.inj hcell
  rw [← Nat.div_add_mod p N, ← Nat.div_add_mod p' N, hchunk hdiv, hmod]

namespace YQueue

variable {T : Type u} {N b e : ℕ} {chunk : ℕ → ℕ} {q q' : YQueue T}

/-- **The queue's memory.** The elements from number `b` to number `e - 1` are in the queue, in
cells of different chunks; the chunks are linked in both directions; and besides them only the
spare chunk is allocated. -/
structure Shape (N : ℕ) (chunk : ℕ → ℕ) (b e : ℕ) (q : YQueue T) : Prop where
  le : b ≤ e
  front_eq : q.front = cell N chunk b
  end_eq : Cell.mk q.endChunk q.endPos = cell N chunk e
  back_eq : 0 < e → q.back = some (cell N chunk (e - 1))
  injective : Set.InjOn chunk (Set.Icc (b / N) (e / N))
  live_iff : ∀ a, q.heap.Live a ↔
    (∃ i ∈ Set.Icc (b / N) (e / N), chunk i = a) ∨ q.spareChunk = some a
  spare_ne : ∀ i ∈ Set.Icc (b / N) (e / N), q.spareChunk ≠ some (chunk i)
  next_eq : ∀ i, b / N ≤ i → i < e / N →
    (q.heap.block (chunk i)).bind YChunk.next = some (chunk (i + 1))
  prev_eq : ∀ i, b / N ≤ i → i < e / N →
    (q.heap.block (chunk (i + 1))).bind YChunk.prev = some (chunk i)

namespace Shape

/-- Elements of the queue, and the place of the next one, have different addresses. -/
theorem cell_ne (h : q.Shape N chunk b e) {p p' : ℕ} (hp : b ≤ p) (hpe : p ≤ e) (hp' : b ≤ p')
    (hpe' : p' ≤ e) (hcell : cell N chunk p = cell N chunk p') : p = p' := by
  refine cell_injective (fun hchunk => ?_) hcell
  exact h.injective ⟨Nat.div_le_div_right hp, Nat.div_le_div_right hpe⟩
    ⟨Nat.div_le_div_right hp', Nat.div_le_div_right hpe'⟩ hchunk

theorem live (h : q.Shape N chunk b e) {i : ℕ} (hi : i ∈ Set.Icc (b / N) (e / N)) :
    q.heap.Live (chunk i) :=
  (h.live_iff _).mpr (.inl ⟨i, hi, rfl⟩)

end Shape

/-- A chunk holds the same elements in two queues. -/
theorem load_congr {c : Cell} (hvalues : (q'.heap.block c.chunk).map YChunk.values =
      (q.heap.block c.chunk).map YChunk.values) : q'.load c = q.load c := by
  have hcell := congrArg (Option.map fun values => values c.pos) hvalues
  simp only [Option.map_map] at hcell
  exact hcell

/-! ## Operations -/

/-- The constructor makes an empty queue. -/
theorem shape_create (N : ℕ) (malloc : Malloc T) :
    (create malloc).Shape N (fun _ => malloc.addr) 0 0 where
  le := le_rfl
  front_eq := by simp [create, front, cell]
  end_eq := by simp [create, cell]
  back_eq := fun h => absurd h (lt_irrefl 0)
  injective := by
    intro i hi j hj _
    simp only [Nat.zero_div, Set.Icc_self, Set.mem_singleton_iff] at hi hj
    rw [hi, hj]
  live_iff := by
    intro a
    have hempty : ¬ (Heap.empty : Heap (YChunk T)).Live a := Heap.not_live_iff.mpr rfl
    rw [create, Heap.live_alloc_iff]
    simp [hempty, eq_comm]
  spare_ne := by simp [create]
  next_eq := by simp
  prev_eq := by simp

/-- Writing an element. -/
theorem Shape.exists_store (h : q.Shape N chunk b e) {p : ℕ} (hp : b ≤ p) (hpe : p ≤ e) (v : T) :
    ∃ q', q.store (cell N chunk p) v = some q' ∧ q'.Shape N chunk b e ∧
      (∀ a, q'.heap.Live a ↔ q.heap.Live a) ∧ q'.load (cell N chunk p) = some v ∧
      ∀ p', b ≤ p' → p' ≤ e → p' ≠ p → q'.load (cell N chunk p') = q.load (cell N chunk p') := by
  have hlive := h.live (i := p / N) ⟨Nat.div_le_div_right hp, Nat.div_le_div_right hpe⟩
  obtain ⟨heap, hheap⟩ := Heap.exists_modify hlive
    fun ch => { ch with values := Function.update ch.values (p % N) v }
  have hblock := Heap.block_modify hheap
  refine ⟨{ q with heap := heap }, by rw [store, cell, hheap]; rfl, ?_,
    fun a => Heap.live_modify_iff hheap, ?_, ?_⟩
  · exact {
      le := h.le
      front_eq := h.front_eq
      end_eq := h.end_eq
      back_eq := h.back_eq
      injective := h.injective
      live_iff := fun a => (Heap.live_modify_iff hheap).trans (h.live_iff a)
      spare_ne := h.spare_ne
      next_eq := by
        intro i hi hie
        rw [← h.next_eq i hi hie, hblock]
        split_ifs with heq
        · rw [heq, Option.bind_map]
          rfl
        · rfl
      prev_eq := by
        intro i hi hie
        rw [← h.prev_eq i hi hie, hblock]
        split_ifs with heq
        · rw [heq, Option.bind_map]
          rfl
        · rfl }
  · obtain ⟨ch, hch⟩ := hlive
    rw [load, cell, hblock, if_pos rfl, hch]
    simp
  · intro p' hp' hpe' hne
    simp only [load, cell, hblock]
    split_ifs with heq
    · have hmod : p' % N ≠ p % N := fun hmod =>
        hne (h.cell_ne hp' hpe' hp hpe (by rw [cell, cell, heq, hmod]))
      rw [heq, Option.map_map]
      congr 1
      funext ch
      simp [Function.update_of_ne hmod]
    · rfl

/-- What linking a chunk changes. -/
structure Linked (heap : Heap (YChunk T)) (last chunk : ℕ) (heap' : Heap (YChunk T)) : Prop where
  live_iff : ∀ a, heap'.Live a ↔ heap.Live a
  values : ∀ a, (heap'.block a).map YChunk.values = (heap.block a).map YChunk.values
  next_last : (heap'.block last).bind YChunk.next = some chunk
  next_of_ne : ∀ a ≠ last, (heap'.block a).bind YChunk.next = (heap.block a).bind YChunk.next
  prev_chunk : (heap'.block chunk).bind YChunk.prev = some last
  prev_of_ne : ∀ a ≠ chunk, (heap'.block a).bind YChunk.prev = (heap.block a).bind YChunk.prev

theorem exists_link {heap : Heap (YChunk T)} {last new : ℕ} (hlast : heap.Live last)
    (hnew : heap.Live new) (hne : new ≠ last) :
    ∃ heap', link heap last new = some heap' ∧ Linked heap last new heap' := by
  obtain ⟨heap₁, h₁⟩ := Heap.exists_modify hlast fun ch => { ch with next := some new }
  obtain ⟨heap₂, h₂⟩ := Heap.exists_modify ((Heap.live_modify_iff h₁).mpr hnew)
    fun ch => { ch with prev := some last }
  refine ⟨heap₂, by rw [link, h₁]; exact h₂, ?_⟩
  obtain ⟨chLast, hchLast⟩ := hlast
  obtain ⟨chNew, hchNew⟩ := hnew
  have hb₁ := Heap.block_modify h₁
  have hb₂ := Heap.block_modify h₂
  exact {
    live_iff := fun a => (Heap.live_modify_iff h₂).trans (Heap.live_modify_iff h₁)
    values := fun a => (Heap.map_block_modify h₂ (fun _ => rfl) a).trans
      (Heap.map_block_modify h₁ (fun _ => rfl) a)
    next_last := by
      rw [hb₂, if_neg hne.symm, hb₁, if_pos rfl, hchLast]
      rfl
    next_of_ne := by
      intro a ha
      rw [hb₂]
      split_ifs with hnew'
      · rw [hb₁, if_neg hne, hnew', hchNew]
        rfl
      · rw [hb₁, if_neg ha]
    prev_chunk := by
      rw [hb₂, if_pos rfl, hb₁, if_neg hne, hchNew]
      rfl
    prev_of_ne := by
      intro a ha
      rw [hb₂, if_neg ha, hb₁]
      split_ifs with hlast'
      · rw [hlast', hchLast]
        rfl
      · rfl }

/-- What `push` does to the queue: the cells that are there keep their places and values. -/
structure Pushed (N : ℕ) (chunk : ℕ → ℕ) (b e : ℕ) (q : YQueue T) (chunk' : ℕ → ℕ)
    (q' : YQueue T) : Prop where
  shape : q'.Shape N chunk' b (e + 1)
  chunk_eq : ∀ i ≤ e / N, chunk' i = chunk i
  load_eq : ∀ p, b ≤ p → p ≤ e → q'.load (cell N chunk p) = q.load (cell N chunk p)

/-- Cells in chunks that both maps place alike. -/
theorem cell_congr {chunk chunk' : ℕ → ℕ} {n p : ℕ} (hchunk : ∀ i ≤ n / N, chunk' i = chunk i)
    (hp : p ≤ n) : cell N chunk' p = cell N chunk p := by
  rw [cell, cell, hchunk _ (Nat.div_le_div_right hp)]

/-- A chunk that is allocated and not in use is appended. -/
theorem Shape.exists_appendChunk (h : q.Shape N chunk b e) (hN : 0 < N) (hend : e % N + 1 = N)
    {heap : Heap (YChunk T)} {new : ℕ}
    (hlive : ∀ a, heap.Live a ↔ (∃ i ∈ Set.Icc (b / N) (e / N), chunk i = a) ∨ a = new)
    (hblock : ∀ a ≠ new, heap.block a = q.heap.block a)
    (hnew : ∀ i ∈ Set.Icc (b / N) (e / N), chunk i ≠ new) :
    ∃ q' chunk', q.appendChunk new heap = some q' ∧ Pushed N chunk b e q chunk' q' := by
  obtain ⟨hendChunk, -⟩ := Cell.mk.inj h.end_eq
  obtain ⟨hdiv, hmod⟩ := next_chunk hN hend
  have hle : b / N ≤ e / N := Nat.div_le_div_right h.le
  have hsame : ∀ i ≤ e / N, Function.update chunk (e / N + 1) new i = chunk i := fun i hi =>
    Function.update_of_ne (by omega) _ _
  have hlast : Function.update chunk (e / N + 1) new (e / N + 1) = new := Function.update_self ..
  obtain ⟨heap', hheap, hlinked⟩ := exists_link ((hlive _).mpr (.inl ⟨_, ⟨hle, le_rfl⟩, rfl⟩))
    ((hlive new).mpr (.inr rfl)) (hnew _ ⟨hle, le_rfl⟩).symm
  refine ⟨_, Function.update chunk (e / N + 1) new,
    by rw [appendChunk, hendChunk, hheap]; rfl, ?_, hsame, ?_⟩
  · exact {
      le := Nat.le_succ_of_le h.le
      front_eq := by
        rw [cell_congr hsame h.le]
        exact h.front_eq
      end_eq := by
        rw [cell, hdiv, hlast, hmod]
      back_eq := by
        intro _
        rw [Nat.add_sub_cancel, cell_congr hsame le_rfl, ← h.end_eq, hendChunk]
        rfl
      injective := by
        rw [hdiv]
        intro i hi j hj heq
        rcases Nat.lt_or_eq_of_le hi.2 with hi' | rfl <;> rcases Nat.lt_or_eq_of_le hj.2 with hj' | rfl
        · have hi₂ := Nat.le_of_lt_succ hi'
          have hj₂ := Nat.le_of_lt_succ hj'
          rw [hsame i hi₂, hsame j hj₂] at heq
          exact h.injective ⟨hi.1, hi₂⟩ ⟨hj.1, hj₂⟩ heq
        · have hi₂ := Nat.le_of_lt_succ hi'
          rw [hsame i hi₂, hlast] at heq
          exact absurd heq (hnew i ⟨hi.1, hi₂⟩)
        · have hj₂ := Nat.le_of_lt_succ hj'
          rw [hsame j hj₂, hlast] at heq
          exact absurd heq.symm (hnew j ⟨hj.1, hj₂⟩)
        · rfl
      live_iff := by
        intro a
        rw [hdiv, hlinked.live_iff, hlive]
        constructor
        · rintro (⟨i, hi, rfl⟩ | rfl)
          · exact .inl ⟨i, ⟨hi.1, Nat.le_succ_of_le hi.2⟩, hsame i hi.2⟩
          · exact .inl ⟨e / N + 1, ⟨Nat.le_succ_of_le hle, le_rfl⟩, hlast⟩
        · rintro (⟨i, hi, rfl⟩ | hspare)
          · rcases Nat.lt_or_eq_of_le hi.2 with hi' | rfl
            · have hi₂ := Nat.le_of_lt_succ hi'
              exact .inl ⟨i, ⟨hi.1, hi₂⟩, (hsame i hi₂).symm⟩
            · exact .inr hlast
          · cases hspare
      spare_ne := by
        intro i _ hspare
        cases hspare
      next_eq := by
        rw [hdiv]
        intro i hi hie
        have hi₂ := Nat.le_of_lt_succ hie
        rw [hsame i hi₂]
        rcases Nat.lt_or_eq_of_le hi₂ with hi' | rfl
        · have hne : chunk i ≠ chunk (e / N) := fun heq =>
            hi'.ne (h.injective ⟨hi, hi₂⟩ ⟨hle, le_rfl⟩ heq)
          rw [hlinked.next_of_ne _ hne, hblock _ (hnew i ⟨hi, hi₂⟩), h.next_eq i hi hi',
            hsame (i + 1) hi']
        · rw [hlinked.next_last, hlast]
      prev_eq := by
        rw [hdiv]
        intro i hi hie
        have hi₂ := Nat.le_of_lt_succ hie
        rw [hsame i hi₂]
        rcases Nat.lt_or_eq_of_le hi₂ with hi' | rfl
        · have hmem : i + 1 ∈ Set.Icc (b / N) (e / N) := ⟨Nat.le_succ_of_le hi, hi'⟩
          rw [hsame (i + 1) hi', hlinked.prev_of_ne _ (hnew _ hmem), hblock _ (hnew _ hmem),
            h.prev_eq i hi hi']
        · rw [hlast, hlinked.prev_chunk] }
  · intro p hp hpe
    have hmem : p / N ∈ Set.Icc (b / N) (e / N) :=
      ⟨Nat.div_le_div_right hp, Nat.div_le_div_right hpe⟩
    apply load_congr
    exact (hlinked.values _).trans (congrArg _ (hblock _ (hnew _ hmem)))

/-- **`push`.** An element is added; the allocator is asked only when there is no spare chunk. -/
theorem Shape.exists_push (h : q.Shape N chunk b e) (hN : 0 < N) {malloc : Malloc T}
    (hmalloc : ¬ q.heap.Live malloc.addr) :
    ∃ q' chunk', q.push N malloc = some q' ∧ Pushed N chunk b e q chunk' q' := by
  obtain ⟨hendChunk, hendPos⟩ := Cell.mk.inj h.end_eq
  have hle : b / N ≤ e / N := Nat.div_le_div_right h.le
  by_cases hend : e % N + 1 = N
  · have hcond : ¬ (q.endPos + 1 ≠ N) := by
      rw [hendPos]
      exact not_not.mpr hend
    rw [push, if_neg hcond]
    cases hspare : q.spareChunk with
    | some spare =>
        refine h.exists_appendChunk hN hend ?_ (fun _ _ => rfl) fun i hi heq =>
          h.spare_ne i hi (hspare.trans (congrArg some heq.symm))
        intro a
        rw [h.live_iff, hspare, Option.some.injEq, @eq_comm _ spare]
    | none =>
        refine h.exists_appendChunk hN hend ?_ (fun a ha => Heap.block_alloc_of_ne _ _ ha)
          fun i hi heq => hmalloc (heq ▸ h.live hi)
        intro a
        rw [Heap.live_alloc_iff, h.live_iff, hspare]
        simp
  · obtain ⟨hdiv, hmod⟩ := next_position hN hend
    have hcond : q.endPos + 1 ≠ N := by
      rw [hendPos]
      exact hend
    rw [push, if_pos hcond]
    refine ⟨_, chunk, rfl, ?_, fun _ _ => rfl, fun _ _ _ => rfl⟩
    exact {
      le := Nat.le_succ_of_le h.le
      front_eq := h.front_eq
      end_eq := by
        rw [cell, hdiv, hmod, hendChunk, hendPos]
      back_eq := by
        intro _
        rw [Nat.add_sub_cancel, ← h.end_eq]
        rfl
      injective := by
        rw [hdiv]
        exact h.injective
      live_iff := by
        rw [hdiv]
        exact h.live_iff
      spare_ne := by
        rw [hdiv]
        exact h.spare_ne
      next_eq := by
        rw [hdiv]
        exact h.next_eq
      prev_eq := by
        rw [hdiv]
        exact h.prev_eq }

/-- The reader gives up its chunk; the spare chunk of before is freed. -/
theorem Shape.exists_pop_chunk (h : q.Shape N chunk b e) (hN : 0 < N) (hbe : b < e)
    (hlast : b % N + 1 = N) :
    ∃ q', q.pop N = some q' ∧ q'.Shape N chunk (b + 1) e ∧
      ∀ p, b < p → p ≤ e → q'.load (cell N chunk p) = q.load (cell N chunk p) := by
  obtain ⟨hbegin, hpos⟩ := Cell.mk.inj h.front_eq
  obtain ⟨hdiv, hmod⟩ := next_chunk hN hlast
  have hbe' : b / N + 1 ≤ e / N := hdiv ▸ Nat.div_le_div_right hbe
  have hcond : ¬ (q.beginPos + 1 ≠ N) := by
    rw [hpos]
    exact not_not.mpr hlast
  have hnext := h.next_eq (b / N) le_rfl hbe'
  obtain ⟨heap₁, h₁⟩ := Heap.exists_modify (h.live ⟨Nat.le_succ _, hbe'⟩)
    fun ch => { ch with prev := none }
  obtain ⟨heap₂, h₂⟩ : ∃ heap₂, heap₁.freePtr q.spareChunk = some heap₂ :=
    Heap.exists_freePtr fun a ha => (Heap.live_modify_iff h₁).mpr ((h.live_iff a).mpr (.inr ha))
  have hb₁ := Heap.block_modify h₁
  have hb₂ := Heap.block_freePtr h₂
  -- only the spare chunk is freed, and no chunk of the queue is the spare chunk
  have hkeep : ∀ i ∈ Set.Icc (b / N) (e / N), heap₂.block (chunk i) = heap₁.block (chunk i) :=
    fun i hi => by rw [hb₂, if_neg (h.spare_ne i hi)]
  have hmem : ∀ i, b / N + 1 ≤ i → i ≤ e / N → i ∈ Set.Icc (b / N) (e / N) :=
    fun i hi hie => ⟨Nat.le_of_succ_le hi, hie⟩
  refine ⟨{ q with
      heap := heap₂
      beginChunk := chunk (b / N + 1)
      beginPos := 0
      spareChunk := some q.beginChunk }, ?_, ?_, ?_⟩
  · rw [pop, if_neg hcond, hbegin, hnext, Option.bind_some, h₁, Option.bind_some, h₂]
    rfl
  · exact {
      le := hbe
      front_eq := by
        rw [front, cell, hdiv, hmod]
      end_eq := h.end_eq
      back_eq := h.back_eq
      injective := by
        rw [hdiv]
        exact h.injective.mono (Set.Icc_subset_Icc_left (Nat.le_succ _))
      live_iff := by
        intro a
        have hlive : heap₂.Live a ↔ q.heap.Live a ∧ q.spareChunk ≠ some a := by
          rw [Heap.Live, hb₂]
          split_ifs with hspare
          · simp [hspare]
          · rw [← Heap.Live, Heap.live_modify_iff h₁]
            simp [hspare]
        rw [hlive, h.live_iff, hdiv, hbegin, Option.some.injEq]
        constructor
        · rintro ⟨⟨i, hi, rfl⟩ | hspare, hne⟩
          · rcases Nat.lt_or_eq_of_le hi.1 with hi' | rfl
            · exact .inl ⟨i, ⟨hi', hi.2⟩, rfl⟩
            · exact .inr rfl
          · exact absurd hspare hne
        · rintro (⟨i, hi, rfl⟩ | rfl)
          · exact ⟨.inl ⟨i, hmem i hi.1 hi.2, rfl⟩, h.spare_ne i (hmem i hi.1 hi.2)⟩
          · have hfirst : b / N ∈ Set.Icc (b / N) (e / N) := ⟨le_rfl, Nat.le_of_succ_le hbe'⟩
            exact ⟨.inl ⟨b / N, hfirst, rfl⟩, h.spare_ne _ hfirst⟩
      spare_ne := by
        rw [hdiv, hbegin]
        intro i hi heq
        have hi' := h.injective ⟨le_rfl, Nat.le_of_succ_le hbe'⟩ (hmem i hi.1 hi.2)
          (Option.some.inj heq)
        have := hi.1
        omega
      next_eq := by
        rw [hdiv]
        intro i hi hie
        rw [← h.next_eq i (Nat.le_of_succ_le hi) hie, hkeep i (hmem i hi hie.le), hb₁]
        split_ifs with heq
        · rw [heq, Option.bind_map]
          rfl
        · rfl
      prev_eq := by
        rw [hdiv]
        intro i hi hie
        have hne : chunk (i + 1) ≠ chunk (b / N + 1) := fun heq => by
          have := h.injective (hmem _ (Nat.le_succ_of_le hi) hie) (hmem _ le_rfl hbe') heq
          omega
        rw [← h.prev_eq i (Nat.le_of_succ_le hi) hie, hkeep _ (hmem _ (Nat.le_succ_of_le hi) hie),
          hb₁, if_neg hne] }
  · intro p hp hpe
    have hp' : p / N ∈ Set.Icc (b / N) (e / N) :=
      ⟨Nat.div_le_div_right hp.le, Nat.div_le_div_right hpe⟩
    apply load_congr
    exact (congrArg _ (hkeep _ hp')).trans (Heap.map_block_modify h₁ (fun _ => rfl) _)

/-- **`pop`.** The first element of a queue that is not empty is removed. -/
theorem Shape.exists_pop (h : q.Shape N chunk b e) (hN : 0 < N) (hbe : b < e) :
    ∃ q', q.pop N = some q' ∧ q'.Shape N chunk (b + 1) e ∧
      ∀ p, b < p → p ≤ e → q'.load (cell N chunk p) = q.load (cell N chunk p) := by
  by_cases hlast : b % N + 1 = N
  · exact h.exists_pop_chunk hN hbe hlast
  · obtain ⟨hbegin, hpos⟩ := Cell.mk.inj h.front_eq
    obtain ⟨hdiv, hmod⟩ := next_position hN hlast
    have hcond : q.beginPos + 1 ≠ N := by
      rw [hpos]
      exact hlast
    rw [pop, if_pos hcond]
    refine ⟨_, rfl, ?_, fun _ _ _ => rfl⟩
    exact {
      le := hbe
      front_eq := by
        rw [front, cell, hdiv, hmod, hbegin, hpos]
      end_eq := h.end_eq
      back_eq := h.back_eq
      injective := by
        rw [hdiv]
        exact h.injective
      live_iff := by
        rw [hdiv]
        exact h.live_iff
      spare_ne := by
        rw [hdiv]
        exact h.spare_ne
      next_eq := by
        rw [hdiv]
        exact h.next_eq
      prev_eq := by
        rw [hdiv]
        exact h.prev_eq }

/-- The cell in front of one that does not open a chunk, and of one that does. -/
theorem previous_position {N p : ℕ} (hN : 0 < N) (hp : 0 < p) :
    (p % N ≠ 0 ∧ (p - 1) / N = p / N ∧ (p - 1) % N = p % N - 1) ∨
      (p % N = 0 ∧ (p - 1) / N + 1 = p / N ∧ (p - 1) % N = N - 1) := by
  obtain ⟨p, rfl⟩ : ∃ p', p = p' + 1 := ⟨p - 1, by omega⟩
  rw [Nat.add_sub_cancel]
  by_cases hlast : p % N + 1 = N
  · obtain ⟨hdiv, hmod⟩ := next_chunk hN hlast
    exact .inr ⟨hmod, hdiv.symm, by omega⟩
  · obtain ⟨hdiv, hmod⟩ := next_position hN hlast
    exact .inl ⟨by omega, hdiv.symm, by omega⟩

/-- `unpush` finds the element in front of the last one. -/
theorem Shape.exists_unpushBack (h : q.Shape N chunk b (e + 1)) (hN : 0 < N) (hbe : b < e) :
    ∃ backChunk backPos, q.unpushBack N =
        some { q with backChunk := backChunk, backPos := backPos } ∧
      backChunk.map (Cell.mk · backPos) = some (cell N chunk (e - 1)) := by
  have hback := h.back_eq (Nat.succ_pos e)
  rw [Nat.add_sub_cancel, back] at hback
  obtain ⟨last, hlast, hcell⟩ := Option.map_eq_some_iff.mp hback
  obtain ⟨hchunk, hpos⟩ := Cell.mk.inj hcell
  have hpos' : 0 < e := Nat.lt_of_le_of_lt (Nat.zero_le b) hbe
  rcases previous_position hN hpos' with ⟨hne, hdiv, hmod⟩ | ⟨hzero, hdiv, hmod⟩
  · refine ⟨q.backChunk, q.backPos - 1, ?_, ?_⟩
    · rw [unpushBack, if_pos (hpos ▸ hne)]
    · rw [hlast, Option.map_some, hchunk, hpos, cell, hdiv, hmod]
  · have hfirst : b / N ≤ (e - 1) / N := Nat.div_le_div_right (Nat.le_sub_one_of_lt hbe)
    have hend : (e - 1) / N < (e + 1) / N :=
      Nat.lt_of_lt_of_le (hdiv ▸ Nat.lt_succ_self _) (Nat.div_le_div_right (Nat.le_succ e))
    have hprev := h.prev_eq _ hfirst hend
    obtain ⟨ch, hch, hprev'⟩ := Option.bind_eq_some_iff.mp hprev
    refine ⟨ch.prev, N - 1, ?_, ?_⟩
    · have hcond : ¬ (q.backPos ≠ 0) := by
        rw [hpos]
        exact not_not.mpr hzero
      rw [unpushBack, if_neg hcond, hlast, Option.bind_some, hchunk, ← hdiv, hch]
      rfl
    · rw [hprev', Option.map_some, cell, hmod]

/-- `unpush` frees a last chunk in which there is nothing. -/
theorem Shape.exists_unpushEnd_chunk (h : q.Shape N chunk b (e + 1)) (hbe : b < e)
    (hzero : (e + 1) % N = 0) (hdiv : e / N + 1 = (e + 1) / N) (hmod : e % N = N - 1)
    {backChunk : Option ℕ} {backPos : ℕ}
    (hback : backChunk.map (Cell.mk · backPos) = some (cell N chunk (e - 1))) :
    ∃ q', unpushEnd N { q with backChunk := backChunk, backPos := backPos } = some q' ∧
      q'.Shape N chunk b e ∧
      ∀ p, b ≤ p → p ≤ e → q'.load (cell N chunk p) = q.load (cell N chunk p) := by
  obtain ⟨hend, hpos⟩ := Cell.mk.inj h.end_eq
  have hbe' : b / N ≤ e / N := Nat.div_le_div_right hbe.le
  have hcond : ¬ (q.endPos ≠ 0) := by
    rw [hpos]
    exact not_not.mpr hzero
  have hlt : e / N < (e + 1) / N := hdiv ▸ Nat.lt_succ_self _
  have hmem : ∀ i, b / N ≤ i → i ≤ e / N → i ∈ Set.Icc (b / N) ((e + 1) / N) :=
    fun i hi hie => ⟨hi, hie.trans hlt.le⟩
  have hlast : (e + 1) / N ∈ Set.Icc (b / N) ((e + 1) / N) := ⟨hbe'.trans hlt.le, le_rfl⟩
  have hprev := h.prev_eq _ hbe' hlt
  obtain ⟨before, hbefore, hnext⟩ := Option.bind_eq_some_iff.mp (h.next_eq _ hbe' hlt)
  rw [hdiv] at hprev hnext
  obtain ⟨heap₁, h₁⟩ := Heap.exists_free (h.live hlast)
  have hb₁ := Heap.block_free h₁
  -- the chunks that stay are not the one that is freed
  have hne : ∀ i, b / N ≤ i → i ≤ e / N → chunk i ≠ chunk ((e + 1) / N) := fun i hi hie heq => by
    have := h.injective (hmem i hi hie) hlast heq
    omega
  have hlive₁ : heap₁.Live (chunk (e / N)) := by
    rw [Heap.Live, hb₁, if_neg (hne _ hbe' le_rfl)]
    exact ⟨before, hbefore⟩
  obtain ⟨heap₂, h₂⟩ := Heap.exists_modify hlive₁ fun ch => { ch with next := none }
  have hb₂ := Heap.block_modify h₂
  refine ⟨{ q with
      heap := heap₂
      backChunk := backChunk
      backPos := backPos
      endPos := N - 1
      endChunk := chunk (e / N) }, ?_, ?_, ?_⟩
  · rw [unpushEnd, if_neg hcond]
    dsimp only
    rw [hend, hprev, Option.bind_some, hbefore, Option.bind_some, hnext, Heap.freePtr, h₁,
      Option.bind_some, h₂]
    rfl
  · exact {
      le := hbe.le
      front_eq := h.front_eq
      end_eq := by
        rw [cell, hmod]
      back_eq := fun _ => hback
      injective := h.injective.mono fun i hi => hmem i hi.1 hi.2
      live_iff := by
        intro a
        have hlive : heap₂.Live a ↔ q.heap.Live a ∧ a ≠ chunk ((e + 1) / N) := by
          rw [Heap.live_modify_iff h₂, Heap.Live, hb₁]
          split_ifs with heq
          · simp [heq]
          · rw [← Heap.Live]
            simp [heq]
        rw [hlive, h.live_iff]
        constructor
        · rintro ⟨⟨i, hi, rfl⟩ | hspare, hne'⟩
          · have hie : i ≠ (e + 1) / N := fun heq => hne' (congrArg chunk heq)
            have := hi.2
            exact .inl ⟨i, ⟨hi.1, by omega⟩, rfl⟩
          · exact .inr hspare
        · rintro (⟨i, hi, rfl⟩ | hspare)
          · exact ⟨.inl ⟨i, hmem i hi.1 hi.2, rfl⟩, hne i hi.1 hi.2⟩
          · exact ⟨.inr hspare, fun heq => h.spare_ne _ hlast (hspare.trans (congrArg some heq))⟩
      spare_ne := fun i hi => h.spare_ne i (hmem i hi.1 hi.2)
      next_eq := by
        intro i hi hie
        have hne' : chunk i ≠ chunk (e / N) := fun heq => by
          have := h.injective (hmem i hi hie.le) (hmem _ hbe' le_rfl) heq
          omega
        rw [hb₂, if_neg hne', hb₁, if_neg (hne i hi hie.le), h.next_eq i hi (hie.trans hlt)]
      prev_eq := by
        intro i hi hie
        rw [← h.prev_eq i hi (hie.trans hlt), hb₂]
        split_ifs with heq
        · rw [heq, hb₁, if_neg (hne _ hbe' le_rfl), Option.bind_map]
          rfl
        · rw [hb₁, if_neg (hne _ (Nat.le_succ_of_le hi) hie)] }
  · intro p hp hpe
    have hp' : b / N ≤ p / N := Nat.div_le_div_right hp
    have hpe' : p / N ≤ e / N := Nat.div_le_div_right hpe
    apply load_congr
    refine (Heap.map_block_modify h₂ (fun _ => rfl) _).trans (congrArg _ ?_)
    rw [hb₁]
    exact if_neg (hne _ hp' hpe')

/-- **`unpush`.** The last element of a queue with at least two elements is taken back. -/
theorem Shape.exists_unpush (h : q.Shape N chunk b (e + 1)) (hN : 0 < N) (hbe : b < e) :
    ∃ q', q.unpush N = some q' ∧ q'.Shape N chunk b e ∧
      ∀ p, b ≤ p → p ≤ e → q'.load (cell N chunk p) = q.load (cell N chunk p) := by
  obtain ⟨backChunk, backPos, hunpush, hback⟩ := h.exists_unpushBack hN hbe
  rw [unpush, hunpush, Option.bind_some]
  obtain ⟨hend, hpos⟩ := Cell.mk.inj h.end_eq
  rcases @previous_position N (e + 1) hN (Nat.succ_pos e) with
    ⟨hne, hdiv, hmod⟩ | ⟨hzero, hdiv, hmod⟩
  · rw [Nat.add_sub_cancel] at hdiv hmod
    rw [unpushEnd, if_pos (show q.endPos ≠ 0 from hpos ▸ hne)]
    refine ⟨_, rfl, ?_, fun _ _ _ => rfl⟩
    exact {
      le := hbe.le
      front_eq := h.front_eq
      end_eq := by
        rw [cell, hdiv, hmod, hend, hpos]
      back_eq := fun _ => hback
      injective := by
        rw [hdiv]
        exact h.injective
      live_iff := by
        rw [hdiv]
        exact h.live_iff
      spare_ne := by
        rw [hdiv]
        exact h.spare_ne
      next_eq := by
        rw [hdiv]
        exact h.next_eq
      prev_eq := by
        rw [hdiv]
        exact h.prev_eq }
  · rw [Nat.add_sub_cancel] at hdiv hmod
    exact h.exists_unpushEnd_chunk hbe hzero hdiv hmod hback

/-- The loop of the destructor frees the chunks of the queue and nothing else. -/
theorem exists_freeChunks {first last fuel : ℕ} {heap : Heap (YChunk T)} (hle : first ≤ last)
    (hfuel : last - first < fuel) (hinj : Set.InjOn chunk (Set.Icc first last))
    (hlive : ∀ i ∈ Set.Icc first last, heap.Live (chunk i))
    (hnext : ∀ i, first ≤ i → i < last →
      (heap.block (chunk i)).bind YChunk.next = some (chunk (i + 1))) :
    ∃ heap', freeChunks (chunk last) fuel (chunk first) heap = some heap' ∧
      (∀ i ∈ Set.Icc first last, heap'.block (chunk i) = none) ∧
      ∀ a, (∀ i ∈ Set.Icc first last, chunk i ≠ a) → heap'.block a = heap.block a := by
  induction fuel generalizing first heap with
  | zero => exact absurd hfuel (Nat.not_lt_zero _)
  | succ fuel ih =>
      obtain ⟨heap₁, h₁⟩ := Heap.exists_free (hlive first ⟨le_rfl, hle⟩)
      have hb₁ := Heap.block_free h₁
      rw [freeChunks]
      rcases Nat.lt_or_eq_of_le hle with hlt | rfl
      · have hne : ∀ i, first < i → i ≤ last → chunk i ≠ chunk first := fun i hi hil heq => by
          have := hinj ⟨hi.le, hil⟩ ⟨le_rfl, hle⟩ heq
          omega
        rw [if_neg (hne last hlt le_rfl).symm, hnext first le_rfl hlt, Option.bind_some, h₁,
          Option.bind_some]
        obtain ⟨heap', hheap', hfreed, hkept⟩ := @ih (first + 1) heap₁ hlt
          (by omega) (hinj.mono (Set.Icc_subset_Icc_left (Nat.le_succ _)))
          (fun i hi => by
            rw [Heap.Live, hb₁, if_neg (hne i hi.1 hi.2)]
            exact hlive i ⟨Nat.le_of_succ_le hi.1, hi.2⟩)
          (fun i hi hil => by
            rw [hb₁, if_neg (hne i hi hil.le)]
            exact hnext i (Nat.le_of_succ_le hi) hil)
        refine ⟨heap', hheap', ?_, ?_⟩
        · intro i hi
          rcases Nat.lt_or_eq_of_le hi.1 with hi' | rfl
          · exact hfreed i ⟨hi', hi.2⟩
          · rw [hkept _ fun j hj => hne j hj.1 hj.2, hb₁, if_pos rfl]
        · intro a ha
          rw [hkept a fun i hi => ha i ⟨Nat.le_of_succ_le hi.1, hi.2⟩, hb₁,
            if_neg (ha first ⟨le_rfl, hle⟩).symm]
      · rw [if_pos rfl]
        refine ⟨heap₁, h₁, ?_, ?_⟩
        · intro i hi
          rw [Set.Icc_self, Set.mem_singleton_iff] at hi
          rw [hi, hb₁, if_pos rfl]
        · intro a ha
          rw [hb₁, if_neg (ha first ⟨le_rfl, le_rfl⟩).symm]

/-- **The destructor** frees every chunk once. -/
theorem Shape.exists_destroy (h : q.Shape N chunk b e) {fuel : ℕ} (hfuel : e / N - b / N < fuel) :
    ∃ heap, q.destroy fuel = some heap ∧ ∀ a, heap.block a = none := by
  obtain ⟨hbegin, -⟩ := Cell.mk.inj h.front_eq
  obtain ⟨hend, -⟩ := Cell.mk.inj h.end_eq
  obtain ⟨heap₁, h₁, hfreed, hkept⟩ := exists_freeChunks (Nat.div_le_div_right h.le) hfuel
    h.injective (fun i hi => h.live hi) h.next_eq
  obtain ⟨heap₂, h₂⟩ : ∃ heap₂, heap₁.freePtr q.spareChunk = some heap₂ := by
    apply Heap.exists_freePtr
    intro a ha
    have hne : ∀ i ∈ Set.Icc (b / N) (e / N), chunk i ≠ a := fun i hi heq =>
      h.spare_ne i hi (ha.trans (congrArg some heq.symm))
    rw [Heap.Live, hkept a hne]
    exact (h.live_iff a).mpr (.inr ha)
  refine ⟨heap₂, by rw [destroy, hend, hbegin, h₁]; exact h₂, fun a => ?_⟩
  rw [Heap.block_freePtr h₂]
  split_ifs with hspare
  · rfl
  · by_cases hchain : ∃ i ∈ Set.Icc (b / N) (e / N), chunk i = a
    · obtain ⟨i, hi, rfl⟩ := hchain
      exact hfreed i hi
    · have hdead : ¬ q.heap.Live a := fun hlive =>
        ((h.live_iff a).mp hlive).elim hchain hspare
      rw [hkept a fun i hi heq => hchain ⟨i, hi, heq⟩]
      exact Heap.not_live_iff.mp hdead

/-- The chunks that are allocated are at most three more than the elements before the last one
need. -/
theorem Shape.ncard_live_le (h : q.Shape N chunk b e) (hN : 0 < N) :
    {a | q.heap.Live a}.ncard ≤ (e - 1 - b) / N + 3 := by
  have hsub : {a | q.heap.Live a} ⊆
      ((Finset.Icc (b / N) (e / N)).image chunk ∪ q.spareChunk.toFinset : Finset ℕ) := by
    intro a ha
    rw [Finset.coe_union, Set.mem_union, Finset.mem_coe, Finset.mem_coe, Finset.mem_image,
      Option.mem_toFinset]
    refine ((h.live_iff a).mp ha).imp (fun ⟨i, hi, heq⟩ => ⟨i, ?_, heq⟩) id
    exact Finset.mem_Icc.mpr hi
  have hchain := Finset.card_image_le (s := Finset.Icc (b / N) (e / N)) (f := chunk)
  rw [Nat.card_Icc] at hchain
  have hspare : q.spareChunk.toFinset.card ≤ 1 := by
    cases q.spareChunk <;> simp
  have hdiv : e / N ≤ b / N + (e - 1 - b) / N + 1 := by
    have hb := Nat.lt_mul_div_succ b hN
    have hd := Nat.lt_mul_div_succ (e - 1 - b) hN
    have hsum : N * (b / N + (e - 1 - b) / N + 2) =
        N * (b / N + 1) + N * ((e - 1 - b) / N + 1) := by ring
    exact Nat.le_of_lt_succ (Nat.div_lt_of_lt_mul (by rw [hsum]; omega))
  have hle : b / N ≤ e / N := Nat.div_le_div_right h.le
  have hcard := Set.ncard_le_ncard hsub (Finset.finite_toSet _)
  rw [Set.ncard_coe_finset] at hcard
  have hunion := Finset.card_union_le ((Finset.Icc (b / N) (e / N)).image chunk)
    q.spareChunk.toFinset
  omega

end YQueue

end AFStream.ControlChannel

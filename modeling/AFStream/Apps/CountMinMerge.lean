/-
# Merging count-min sketches

Counters can be merged position by position if all sketches put a key into the same
bucket of a row. The module computes every sketch of a deployment as a tally of the
increments that the records cause, and determines when the merge thread underestimates no
key: the compute threads of one worker draw different seeds, so a thread that is not the
first one may count a key where the merge thread does not look for it.
-/

import AFStream.Apps.CountMin

namespace AFStream.Apps

open AFStream.Foundation AFStream.Operator

variable {config : SketchConfig} {thresh : ℕ}

/-! ## Seeds -/

/-- The bucket of a key in a row of the sketch of a thread: the rows of all earlier threads
of the worker have taken their seeds before. -/
def threadBucket (config : SketchConfig) (thread i : ℕ) (key : UInt64) : ℕ :=
  (Hash.create config.width (UInt32.ofNat (thread * config.row + i)).toUInt64).getHashValue
    (Codec.uint64.encode key)

theorem threadBucket_lt (config : SketchConfig) (thread i : ℕ) (key : UInt64) :
    threadBucket config thread i key < config.width :=
  Hash.getHashValue_lt config.width_pos _

/-- The rows of a sketch take consecutive seeds. -/
theorem createHashes_spec (width seed n : ℕ) :
    (CountMin.createHashes width (UInt32.ofNat seed) n).2 = UInt32.ofNat (seed + n) ∧
      ∀ i < n, (CountMin.createHashes width (UInt32.ofNat seed) n).1 i =
        Hash.create width (UInt32.ofNat (seed + i)).toUInt64 := by
  induction n with
  | zero => exact ⟨rfl, fun i hi => absurd hi (Nat.not_lt_zero i)⟩
  | succ n ih =>
      obtain ⟨hcounter, hhash⟩ := ih
      constructor
      · change (CountMin.createHashes width (UInt32.ofNat seed) n).2 + 1 = _
        rw [hcounter]
        exact (UInt32.ofNat_add (seed + n) 1).symm
      · intro i hi
        change Function.update _ n _ i = _
        rcases Nat.lt_succ_iff_lt_or_eq.mp hi with hbelow | rfl
        · rw [Function.update_of_ne hbelow.ne, hhash i hbelow]
        · rw [Function.update_self, hcounter]

/-- The sketches of a worker, one behind the other. -/
theorem createSketches_eq (config : SketchConfig) (first threads : ℕ) :
    createSketches config (UInt32.ofNat (first * config.row)) threads =
      (List.range threads).map fun t =>
        (CountMin.create config (UInt32.ofNat ((first + t) * config.row))).1 := by
  induction threads generalizing first with
  | zero => rfl
  | succ threads ih =>
      have hnext : (CountMin.create config (UInt32.ofNat (first * config.row))).2 =
          UInt32.ofNat ((first + 1) * config.row) := by
        rw [Nat.add_mul, one_mul]
        exact (createHashes_spec config.width (first * config.row) config.row).1
      rw [createSketches, List.range_succ_eq_map, List.map_cons, List.map_map]
      change _ :: createSketches config (CountMin.create config _).2 threads = _
      rw [hnext, ih]
      congr 1
      apply List.map_congr_left
      intro t _
      simp only [Function.comp_apply, Nat.succ_eq_add_one, Nat.add_assoc, Nat.add_comm 1 t]

/-! ## Sketches as counters -/

/-- Counters in the range of `long long`. -/
abbrev addCounters (counters : ℕ × ℕ → ℤ) (increment : (ℕ × ℕ) × ℤ) : Option (ℕ × ℕ → ℤ) :=
  addAt (-2 ^ 63) (2 ^ 63) counters increment

/-- A sketch of a thread of its worker, with given counters. -/
structure Holds (config : SketchConfig) (thread : ℕ) (sketch : CountMin)
    (counters : ℕ × ℕ → ℤ) : Prop where
  row_eq : sketch.row = config.row
  width_eq : sketch.width = config.width
  bucket_eq : ∀ i < config.row, ∀ key, sketch.bucket i key = threadBucket config thread i key
  value_eq : ∀ i j, (sketch.arrays i).array j = counters (i, j)

variable {thread : ℕ} {sketch : CountMin} {counters : ℕ × ℕ → ℤ}

theorem holds_create (config : SketchConfig) (thread : ℕ) :
    Holds config thread (CountMin.create config (UInt32.ofNat (thread * config.row))).1
      fun _ => 0 := by
  refine ⟨rfl, rfl, ?_, fun i j => rfl⟩
  intro i hi key
  change Hash.getHashValue ((CountMin.createHashes _ _ _).1 i) _ = _
  rw [(createHashes_spec config.width (thread * config.row) config.row).2 i hi]
  rfl

variable {i j : ℕ}

theorem Holds.getValue (h : Holds config thread sketch counters) (hi : i < config.row)
    (hj : j < config.width) : sketch.getValue i j = some (counters (i, j)) := by
  have hin : i < sketch.row ∧ j < sketch.width := ⟨h.row_eq ▸ hi, h.width_eq ▸ hj⟩
  rw [CountMin.getValue, if_pos hin, h.value_eq]

theorem Holds.setValue (h : Holds config thread sketch counters) (hi : i < config.row)
    (hj : j < config.width) (value : ℤ) :
    ∃ sketch', sketch.setValue i j value = some sketch' ∧
      Holds config thread sketch' (Function.update counters (i, j) value) := by
  have hin : i < sketch.row ∧ j < sketch.width := ⟨h.row_eq ▸ hi, h.width_eq ▸ hj⟩
  have hcast : (UInt32.ofNat j).toNat = j :=
    UInt32.toNat_ofNat_of_lt (hj.trans (config.width_lt.trans (by decide)))
  refine ⟨_, if_pos hin, h.row_eq, h.width_eq, h.bucket_eq, ?_⟩
  intro k l
  dsimp only
  by_cases hk : k = i
  · subst hk
    rw [Function.update_self, NumericArrayMax.array_updateValue, hcast]
    by_cases hl : l = j
    · subst hl
      rw [Function.update_self, Function.update_self]
    · have hne : (k, l) ≠ (k, j) := fun hsame => hl (congrArg Prod.snd hsame)
      rw [Function.update_of_ne hl, Function.update_of_ne hne, h.value_eq]
  · have hne : (k, l) ≠ (i, j) := fun hsame => hk (congrArg Prod.fst hsame)
    rw [Function.update_of_ne hk, Function.update_of_ne hne, h.value_eq]

/-! ## What the records of a thread add -/

/-- The increments that a record causes in the sketch of a thread. -/
def recordIncrements (config : SketchConfig) (thread : ℕ) (record : Record) :
    List ((ℕ × ℕ) × ℤ) :=
  (List.range config.row).flatMap fun i => [((i, threadBucket config thread i record.1), record.2)]

/-- The increments that all records of a thread cause. -/
def threadIncrements (config : SketchConfig) (thread : ℕ) (records : List Record) :
    List ((ℕ × ℕ) × ℤ) :=
  records.flatMap (recordIncrements config thread)

/-- One row of `UpdateSketch`: the counter is incremented, or the addition overflows. -/
theorem Holds.updateRow {ret : ℤ} (h : Holds config thread sketch counters) (hi : i < config.row)
    (key : UInt64) (value : ℤ) :
    Option.Rel (fun (state : ℤ × CountMin) => Holds config thread state.2)
      (CountMin.updateRow key value (ret, sketch) i)
      (addCounters counters ((i, threadBucket config thread i key), value)) := by
  have hj := threadBucket_lt config thread i key
  simp only [CountMin.updateRow, h.bucket_eq i hi, h.getValue hi hj, addLongLong, addCounters,
    addAt, Option.bind_eq_bind, Option.bind_some]
  split_ifs with hrange
  · obtain ⟨sketch', hset, h'⟩ :=
      h.setValue hi hj (counters (i, threadBucket config thread i key) + value)
    rw [Option.bind_some, hset]
    exact .some h'
  · exact .none

/-- `UpdateSketch` -/
theorem Holds.updateSketch (h : Holds config thread sketch counters) (record : Record) :
    Option.Rel (fun (state : ℤ × CountMin) => Holds config thread state.2)
      (sketch.updateSketch record.1 record.2)
      ((recordIncrements config thread record).foldlM addCounters counters) := by
  rw [CountMin.updateSketch, h.row_eq, recordIncrements]
  refine rel_foldlM_flatMap ?_ h
  intro i hi state spec hstate
  rw [foldlM_singleton]
  exact hstate.updateRow (List.mem_range.mp hi) record.1 record.2

/-- All records of a thread. -/
theorem Holds.processRecords (h : Holds config thread sketch counters) (thresh : ℕ)
    (records : List Record) (cand : List UInt64) :
    Option.Rel (fun (state : SketchThread) => Holds config thread state.sketch)
      (records.foldlM (SketchThread.processData thresh) ⟨sketch, cand⟩)
      ((threadIncrements config thread records).foldlM addCounters counters) := by
  rw [threadIncrements]
  refine rel_foldlM_flatMap ?_ h
  intro record _ state spec hstate
  have hupdate := hstate.updateSketch record
  rw [SketchThread.processData]
  generalize state.sketch.updateSketch record.1 record.2 = result at hupdate ⊢
  generalize (recordIncrements config thread record).foldlM addCounters spec = next at hupdate ⊢
  cases hupdate with
  | none => exact .none
  | some hnext => exact .some hnext

/-! ## The item of a thread -/

/-- Every positive counter has an index that is an `int`. -/
def Packable (config : SketchConfig) (total : ℕ × ℕ → ℤ) : Prop :=
  ∀ position ∈ SketchThread.positions config, 0 < total position →
    position.1 * config.width + position.2 < 2 ^ 31

/-- The counters of an item. -/
def packed (config : SketchConfig) (total : ℕ × ℕ → ℤ) (positions : List (ℕ × ℕ)) :
    List (UInt32 × ℤ) :=
  (positions.filter fun position => 0 < total position).map fun position =>
    (UInt32.ofNat (position.1 * config.width + position.2), total position)

theorem mem_positions {position : ℕ × ℕ} :
    position ∈ SketchThread.positions config ↔
      position.1 < config.row ∧ position.2 < config.width := by
  simp only [SketchThread.positions, List.mem_flatMap, List.mem_map, List.mem_range]
  constructor
  · rintro ⟨i, hi, j, hj, rfl⟩
    exact ⟨hi, hj⟩
  · rintro ⟨hi, hj⟩
    exact ⟨position.1, hi, position.2, hj, rfl⟩

theorem nodup_positions (config : SketchConfig) : (SketchThread.positions config).Nodup := by
  rw [SketchThread.positions, List.nodup_flatMap]
  constructor
  · intro i _
    exact List.nodup_range.map fun j k hjk => congrArg Prod.snd hjk
  · refine List.nodup_range.imp ?_
    intro i k hne position hi hk
    obtain ⟨j, -, rfl⟩ := List.mem_map.mp hi
    obtain ⟨l, -, hkl⟩ := List.mem_map.mp hk
    exact hne (congrArg Prod.fst hkl).symm

/-- **The loops of `TerminateWindow`.** An iteration that appends a positive counter under its
index, if that is an `int`, makes the loop append the packed counters. -/
theorem foldlM_packed {Item : Type} {body : Item → ℕ × ℕ → Option Item}
    {f : Item → UInt32 × ℤ → Option Item} {positions : List (ℕ × ℕ)} (item item' : Item)
    (hbody : ∀ item, ∀ position ∈ positions, body item position =
      if 0 < counters position then
        if position.1 * config.width + position.2 < 2 ^ 31 then
          f item
            (UInt32.ofNat (position.1 * config.width + position.2), counters position)
        else none
      else some item) :
    positions.foldlM body item = some item' ↔
      (∀ position ∈ positions, 0 < counters position →
        position.1 * config.width + position.2 < 2 ^ 31) ∧
      (packed config counters positions).foldlM f item = some item' := by
  induction positions generalizing item with
  | nil => simp [packed]
  | cons position rest ih =>
      have hrest := fun item => ih item fun item other hother =>
        hbody item other (List.mem_cons_of_mem position hother)
      rw [List.foldlM_cons, hbody item position List.mem_cons_self, List.forall_mem_cons]
      by_cases hpos : 0 < counters position
      · have hpacked : packed config counters (position :: rest) =
            (UInt32.ofNat (position.1 * config.width + position.2), counters position) ::
              packed config counters rest := by
          simp only [packed, List.filter_cons, hpos, decide_true, if_true, List.map_cons]
        rw [if_pos hpos, hpacked, List.foldlM_cons]
        by_cases hindex : position.1 * config.width + position.2 < 2 ^ 31
        · rw [if_pos hindex]
          cases f item
              (UInt32.ofNat (position.1 * config.width + position.2), counters position) with
          | none => simp
          | some next =>
              rw [Option.bind_eq_bind, Option.bind_some, hrest]
              exact and_congr_left fun _ => (and_iff_right fun _ => hindex).symm
        · rw [if_neg hindex]
          exact iff_of_false (by simp) fun h => hindex (h.1.1 hpos)
      · have hpacked : packed config counters (position :: rest) =
            packed config counters rest := by
          simp only [packed, List.filter_cons, hpos, decide_false, Bool.false_eq_true, if_false]
        rw [if_neg hpos, Option.bind_eq_bind, Option.bind_some, hrest, hpacked]
        exact and_congr_left fun _ => (and_iff_right fun hpos' => absurd hpos' hpos).symm

theorem foldlM_appendCounter (counters : List (UInt32 × ℤ)) (item : CMItem) :
    counters.foldlM (fun item counter => some (item.appendCounter counter.1 counter.2)) item =
      some { item with counters := item.counters ++ counters } := by
  induction counters generalizing item with
  | nil => rw [List.foldlM_nil, List.append_nil]; rfl
  | cons counter rest ih =>
      rw [List.foldlM_cons, Option.bind_eq_bind, Option.bind_some, ih, CMItem.appendCounter,
        List.append_assoc, List.singleton_append]

/-- The loops of a thread that keeps its counters in a list. -/
theorem Holds.packCounters (h : Holds config thread sketch counters) (item item' : CMItem)
    {positions : List (ℕ × ℕ)}
    (hpositions : ∀ position ∈ positions, position.1 < config.row ∧ position.2 < config.width) :
    positions.foldlM (SketchThread.packCounter config sketch) item = some item' ↔
      (∀ position ∈ positions, 0 < counters position →
        position.1 * config.width + position.2 < 2 ^ 31) ∧
      item' = { item with counters := item.counters ++ packed config counters positions } := by
  rw [foldlM_packed (f := fun item counter => some (item.appendCounter counter.1 counter.2)) item
    item', foldlM_appendCounter, Option.some.injEq]
  · exact and_congr_right fun _ => eq_comm
  · intro item position hposition
    obtain ⟨hi, hj⟩ := hpositions position hposition
    simp only [SketchThread.packCounter, h.getValue hi hj, Option.bind_eq_bind, Option.bind_some,
      SketchThread.packIndex]
    split_ifs <;> rfl

theorem counters_foldl_appendHH (keys : List UInt64) (item : CMItem) :
    (keys.foldl CMItem.appendHH item).counters = item.counters := by
  induction keys generalizing item with
  | nil => rfl
  | cons key rest ih => exact ih (item.appendHH key)

/-- `TerminateWindow` -/
theorem Holds.terminateWindow {state : SketchThread}
    (h : Holds config thread state.sketch counters) :
    ((∃ item, state.terminateWindow config = some item) ↔ Packable config counters) ∧
      ∀ item, state.terminateWindow config = some item →
        item.counters = packed config counters (SketchThread.positions config) := by
  have hloop := fun item' => h.packCounters .empty item' fun _ => mem_positions.mp
  rw [SketchThread.terminateWindow]
  cases hitem : (SketchThread.positions config).foldlM
      (SketchThread.packCounter config state.sketch) CMItem.empty with
  | none =>
      constructor
      · refine iff_of_false (by simp) fun hpackable => ?_
        have hsome := (hloop _).mpr ⟨hpackable, rfl⟩
        rw [hitem] at hsome
        cases hsome
      · intro item hsome
        cases hsome
  | some item =>
      obtain ⟨hpackable, hcounters⟩ := (hloop item).mp hitem
      refine ⟨iff_of_true ⟨_, rfl⟩ hpackable, ?_⟩
      intro item' hitem'
      obtain rfl := Option.some.inj hitem'
      rw [counters_foldl_appendHH, hcounters]
      rfl

theorem nonneg_threadIncrements {records : List Record} (hnonneg : ∀ record ∈ records, 0 ≤ record.2)
    (increment : (ℕ × ℕ) × ℤ) (hmem : increment ∈ threadIncrements config thread records) :
    0 ≤ increment.2 := by
  obtain ⟨record, hrecord, hincrement⟩ := List.mem_flatMap.mp hmem
  obtain ⟨i, -, hi⟩ := List.mem_flatMap.mp hincrement
  rw [List.mem_singleton.mp hi]
  exact hnonneg record hrecord

/-- **The item of a thread.** It is emitted exactly when no counter overflows and all
indices can be packed, and its counters are those of the records. -/
theorem run_spec (config : SketchConfig) (thresh thread : ℕ) {records : List Record}
    (hnonneg : ∀ record ∈ records, 0 ≤ record.2) :
    ((∃ item, SketchThread.run config thresh
        (CountMin.create config (UInt32.ofNat (thread * config.row))).1 records = some item) ↔
      (∀ x, tally (threadIncrements config thread records) x < 2 ^ 63) ∧
        Packable config (tally (threadIncrements config thread records))) ∧
    ∀ item, SketchThread.run config thresh
        (CountMin.create config (UInt32.ofNat (thread * config.row))).1 records = some item →
      item.counters = packed config (tally (threadIncrements config thread records))
        (SketchThread.positions config) := by
  have hzero : ∀ x : ℕ × ℕ, (0 : ℤ) ≤ (fun _ => 0 : ℕ × ℕ → ℤ) x ∧
      (fun _ => 0 : ℕ × ℕ → ℤ) x < 2 ^ 63 := fun x => ⟨le_rfl, by norm_num⟩
  have hsums : ∀ result, (threadIncrements config thread records).foldlM addCounters
      (fun _ => 0) = some result ↔
        (∀ x, tally (threadIncrements config thread records) x < 2 ^ 63) ∧
        result = tally (threadIncrements config thread records) := by
    intro result
    rw [foldlM_addAt_eq_some (by norm_num) (nonneg_threadIncrements hnonneg) hzero]
    simp only [zero_add]
  have hrecords := (holds_create config thread).processRecords thresh records []
  rw [SketchThread.run]
  generalize records.foldlM (SketchThread.processData thresh) _ = state at hrecords ⊢
  generalize (threadIncrements config thread records).foldlM addCounters _ = total at hrecords hsums
  cases hrecords with
  | none =>
      constructor
      · refine iff_of_false (by simp) ?_
        rintro ⟨hbound, -⟩
        exact absurd ((hsums _).mpr ⟨hbound, rfl⟩) (by simp)
      · intro item hitem
        cases hitem
  | some hstate =>
      obtain ⟨hbound, htotal⟩ := (hsums _).mp rfl
      rw [htotal] at hstate
      obtain ⟨hiff, hcounters⟩ := hstate.terminateWindow
      exact ⟨hiff.trans (and_iff_right hbound).symm, hcounters⟩

/-! ## The merge thread -/

/-- The increments that the counters of an item cause in the sketch of the merge thread. -/
def itemIncrements (config : SketchConfig) (item : CMItem) : List ((ℕ × ℕ) × ℤ) :=
  item.counters.flatMap fun counter =>
    [((counter.1.toNat / config.width, counter.1.toNat % config.width), counter.2)]

theorem sketch_foldl_reportKey (keys : List UInt64) (merge : MergeThread) :
    (keys.foldl (MergeThread.reportKey thresh) merge).sketch = merge.sketch := by
  induction keys generalizing merge with
  | nil => rfl
  | cons key rest ih =>
      rw [List.foldl_cons, ih, MergeThread.reportKey]
      split_ifs <;> rfl

/-- One counter of an item. -/
theorem Holds.addCounter (h : Holds config thread sketch counters) {counter : UInt32 × ℤ}
    (hrow : counter.1.toNat / config.width < config.row) :
    Option.Rel (Holds config thread) (MergeThread.addCounter config sketch counter)
      (addCounters counters
        ((counter.1.toNat / config.width, counter.1.toNat % config.width), counter.2)) := by
  have hj : counter.1.toNat % config.width < config.width := Nat.mod_lt _ config.width_pos
  simp only [MergeThread.addCounter, h.getValue hrow hj, addLongLong, addCounters, addAt,
    Option.bind_eq_bind, Option.bind_some]
  split_ifs with hrange
  · obtain ⟨sketch', hset, h'⟩ := h.setValue hrow hj (counters
      (counter.1.toNat / config.width, counter.1.toNat % config.width) + counter.2)
    rw [Option.bind_some, hset]
    exact .some h'
  · exact .none

/-- All counters of an item whose indices are within the sketch. -/
theorem Holds.addItem (h : Holds config thread sketch counters) {item : CMItem}
    (hrows : ∀ counter ∈ item.counters, counter.1.toNat / config.width < config.row) :
    Option.Rel (Holds config thread)
      (item.counters.foldlM (MergeThread.addCounter config) sketch)
      ((itemIncrements config item).foldlM addCounters counters) := by
  refine rel_foldlM_flatMap ?_ h
  intro counter hcounter sketch spec hsketch
  rw [foldlM_singleton]
  exact hsketch.addCounter (hrows counter hcounter)

/-- `ProcessData` of the merge thread, on items whose indices are within the sketch. -/
theorem Holds.processItems {merge : MergeThread} (h : Holds config thread merge.sketch counters)
    (thresh : ℕ) {items : List CMItem}
    (hrows : ∀ item ∈ items, ∀ counter ∈ item.counters,
      counter.1.toNat / config.width < config.row) :
    Option.Rel (fun (state : MergeThread) => Holds config thread state.sketch)
      (items.foldlM (MergeThread.processData config thresh) merge)
      ((items.flatMap (itemIncrements config)).foldlM addCounters counters) := by
  refine rel_foldlM_flatMap ?_ h
  intro item hitem state spec hstate
  have hcounters := hstate.addItem (hrows item hitem)
  rw [MergeThread.processData]
  generalize item.counters.foldlM (MergeThread.addCounter config) state.sketch = result
    at hcounters ⊢
  generalize (itemIncrements config item).foldlM addCounters spec = next at hcounters ⊢
  cases hcounters with
  | none => exact .none
  | some hnext =>
      refine .some ?_
      rwa [sketch_foldl_reportKey]

/-- A packed counter is unpacked to its position. -/
theorem unpack_index (hj : j < config.width) (hindex : i * config.width + j < 2 ^ 31) :
    (UInt32.ofNat (i * config.width + j)).toNat / config.width = i ∧
      (UInt32.ofNat (i * config.width + j)).toNat % config.width = j := by
  have hcast : (UInt32.ofNat (i * config.width + j)).toNat = i * config.width + j :=
    UInt32.toNat_ofNat_of_lt (hindex.trans (by decide))
  rw [hcast]
  constructor
  · rw [mul_comm, Nat.mul_add_div config.width_pos, Nat.div_eq_of_lt hj, add_zero]
  · rw [mul_comm, Nat.mul_add_mod, Nat.mod_eq_of_lt hj]

/-- The counters of an item of a thread, position by position. -/
theorem itemIncrements_packed {total : ℕ × ℕ → ℤ} (hpackable : Packable config total)
    {item : CMItem}
    (hitem : item.counters = packed config total (SketchThread.positions config)) :
    itemIncrements config item =
      ((SketchThread.positions config).filter fun position => 0 < total position).map
        fun position => (position, total position) := by
  rw [itemIncrements, ← List.map_eq_flatMap, hitem, packed, List.map_map]
  apply List.map_congr_left
  intro position hposition
  obtain ⟨hmem, hpos⟩ := List.mem_filter.mp hposition
  obtain ⟨hdiv, hmod⟩ := unpack_index (mem_positions.mp hmem).2
    (hpackable position hmem (by simpa using hpos))
  simp only [Function.comp_apply, hdiv, hmod]

/-- Merging an item adds the counters of its thread. -/
theorem tally_itemIncrements {total : ℕ × ℕ → ℤ} (hpackable : Packable config total)
    {item : CMItem} (hitem : item.counters = packed config total (SketchThread.positions config))
    (hnonneg : ∀ x, 0 ≤ total x)
    (hout : ∀ x, x ∉ SketchThread.positions config → total x = 0) (x : ℕ × ℕ) :
    tally (itemIncrements config item) x = total x := by
  rw [itemIncrements_packed hpackable hitem, tally_graph ((nodup_positions config).filter _)]
  split_ifs with hmem
  · rfl
  · by_cases hposition : x ∈ SketchThread.positions config
    · apply le_antisymm (hnonneg x)
      by_contra hpos
      exact hmem (List.mem_filter.mpr ⟨hposition, by simpa using hpos⟩)
    · exact (hout x hposition).symm

/-! ## A deployment -/

/-- The compute threads of all workers, with their numbers. -/
def threads (workers : List (List (List Record))) : List (ℕ × List Record) :=
  workers.flatMap fun worker => worker.zipIdx.map Prod.swap

/-- Every record, with the number of the thread that gets it. -/
def occurrences (workers : List (List (List Record))) : List (ℕ × Record) :=
  (threads workers).flatMap fun thread => thread.2.map fun record => (thread.1, record)

/-- The sum of the values of some records. -/
def sumWhere (occurrences : List (ℕ × Record)) (p : ℕ × Record → Prop) [DecidablePred p] : ℤ :=
  ((occurrences.filter p).map fun occurrence => occurrence.2.2).sum

/-- The threads of a worker and their sketches. -/
theorem workerThreads_eq (config : SketchConfig) (worker : List (List Record)) :
    workerThreads config worker = (worker.zipIdx.map Prod.swap).map fun thread =>
      ((CountMin.create config (UInt32.ofNat (thread.1 * config.row))).1, thread.2) := by
  have hsketches := createSketches_eq config 0 worker.length
  rw [Nat.zero_mul] at hsketches
  change (createSketches config (UInt32.ofNat 0) worker.length).zip worker = _
  rw [hsketches, List.map_map]
  apply List.ext_getElem
  · simp
  · intro t _ _
    simp

/-- A deployment emits all of its items exactly when each thread can. -/
theorem allItems_eq_some_iff {workers : List (List (List Record))} {items : List CMItem} :
    allItems config thresh workers = some items ↔
      List.Forall₂ (fun thread item => SketchThread.run config thresh
        (CountMin.create config (UInt32.ofNat (thread.1 * config.row))).1 thread.2 = some item)
        (threads workers) items := by
  have hthreads : workers.flatMap (workerThreads config) = (threads workers).map fun thread =>
      ((CountMin.create config (UInt32.ofNat (thread.1 * config.row))).1, thread.2) := by
    rw [threads, List.map_flatMap]
    exact List.flatMap_congr fun worker _ => workerThreads_eq config worker
  rw [allItems, mapM_eq_some_iff, hthreads, List.forall₂_map_left_iff]

theorem sumWhere_cons (occurrence : ℕ × Record) (rest : List (ℕ × Record))
    (p : ℕ × Record → Prop) [DecidablePred p] :
    sumWhere (occurrence :: rest) p =
      (if p occurrence then occurrence.2.2 else 0) + sumWhere rest p := by
  by_cases hp : p occurrence
  · simp [sumWhere, hp]
  · simp [sumWhere, hp]

/-- What all records add to the counters of the merge thread. -/
def mergedTotal (config : SketchConfig) (workers : List (List (List Record))) : ℕ × ℕ → ℤ :=
  tally ((occurrences workers).flatMap fun occurrence =>
    recordIncrements config occurrence.1 occurrence.2)

/-- A record adds its value once in every row. -/
theorem tally_recordIncrements (record : Record) :
    tally (recordIncrements config thread record) (i, j) =
      if i < config.row ∧ threadBucket config thread i record.1 = j then record.2 else 0 := by
  have hgraph : recordIncrements config thread record =
      ((List.range config.row).map fun k => (k, threadBucket config thread k record.1)).map
        fun x => (x, record.2) := by
    rw [recordIncrements, ← List.map_eq_flatMap, List.map_map]
    rfl
  have hnodup : ((List.range config.row).map fun k =>
      (k, threadBucket config thread k record.1)).Nodup :=
    List.nodup_range.map fun k l hkl => congrArg Prod.fst hkl
  rw [hgraph, tally_graph hnodup]
  congr 1
  simp [Prod.ext_iff]

theorem mergedTotal_eq (config : SketchConfig) (workers : List (List (List Record)))
    (hi : i < config.row) (j : ℕ) :
    mergedTotal config workers (i, j) = sumWhere (occurrences workers) fun occurrence =>
      threadBucket config occurrence.1 i occurrence.2.1 = j := by
  rw [mergedTotal]
  induction occurrences workers with
  | nil => rfl
  | cons occurrence rest ih =>
      rw [List.flatMap_cons, tally_append, ih, tally_recordIncrements, sumWhere_cons]
      simp only [hi, true_and]

theorem mergedTotal_of_not_mem {workers : List (List (List Record))} {x : ℕ × ℕ}
    (hout : x ∉ SketchThread.positions config) : mergedTotal config workers x = 0 := by
  apply tally_eq_zero
  rintro increment hincrement rfl
  obtain ⟨occurrence, -, hrecord⟩ := List.mem_flatMap.mp hincrement
  obtain ⟨i, hi, hsingle⟩ := List.mem_flatMap.mp hrecord
  rw [List.mem_singleton.mp hsingle, mem_positions] at hout
  exact hout ⟨List.mem_range.mp hi, threadBucket_lt config _ i _⟩

theorem map_snd_occurrences (workers : List (List (List Record))) :
    (occurrences workers).map Prod.snd = workers.flatten.flatten := by
  have hthreads : (threads workers).map Prod.snd = workers.flatten := by
    rw [threads, List.map_flatMap, ← List.flatMap_id]
    apply List.flatMap_congr
    intro worker _
    rw [List.map_map]
    exact List.zipIdx_map_fst 0 worker
  rw [occurrences, List.map_flatMap, ← hthreads, ← List.flatMap_id, List.flatMap_map]
  apply List.flatMap_congr
  intro thread _
  rw [List.map_map]
  exact List.map_id _

/-- The sum of the values of a key. -/
theorem keyTotal_eq (workers : List (List (List Record))) (key : UInt64) :
    keyTotal workers key =
      sumWhere (occurrences workers) fun occurrence => occurrence.2.1 = key := by
  rw [keyTotal, ← map_snd_occurrences, List.filter_map, List.map_map]
  rfl

/-- What a row counts in the bucket of a key, against the values of the key. -/
theorem sumWhere_balance (config : SketchConfig) (all : List (ℕ × Record)) (i : ℕ) (key : UInt64) :
    (sumWhere all fun occurrence =>
        threadBucket config occurrence.1 i occurrence.2.1 = threadBucket config 0 i key) +
      (sumWhere all fun occurrence => occurrence.2.1 = key ∧
        threadBucket config occurrence.1 i key ≠ threadBucket config 0 i key) =
    (sumWhere all fun occurrence => occurrence.2.1 = key) +
      sumWhere all fun occurrence => occurrence.2.1 ≠ key ∧
        threadBucket config occurrence.1 i occurrence.2.1 = threadBucket config 0 i key := by
  induction all with
  | nil => simp only [sumWhere, List.filter_nil, List.map_nil, List.sum_nil]
  | cons occurrence rest ih =>
      simp only [sumWhere_cons]
      by_cases hkey : occurrence.2.1 = key
      · subst hkey
        by_cases hbucket : threadBucket config occurrence.1 i occurrence.2.1 =
            threadBucket config 0 i occurrence.2.1
        · simp only [hbucket, ne_eq, not_true_eq_false, and_false, if_true, if_false, false_and]
          linarith
        · simp only [hbucket, ne_eq, not_false_eq_true, and_true, if_true, if_false,
            not_true_eq_false, false_and]
          linarith
      · by_cases hbucket : threadBucket config occurrence.1 i occurrence.2.1 =
            threadBucket config 0 i key
        · simp only [hkey, hbucket, ne_eq, not_false_eq_true, true_and, if_true, if_false,
            false_and]
          linarith
        · simp only [hkey, hbucket, and_false, if_false, false_and]
          linarith

/-- The estimate of a key is the smallest of its counters. -/
theorem Holds.le_getEstimate_iff (h : Holds config thread sketch counters) (key : UInt64)
    (value : ℤ) :
    value ≤ sketch.getEstimate key ↔
      ∀ i < config.row, value ≤ counters (i, threadBucket config thread i key) := by
  rw [CountMin.getEstimate, h.row_eq, le_foldl_min_iff _ config.row_pos]
  refine forall_congr' fun i => imp_congr_right fun hi => ?_
  rw [h.bucket_eq i hi, h.value_eq]

/-! ## When no key is underestimated -/

/-- A deployment whose records can be merged: no index and no counter overflows, and in every
row the values of a key that a thread counts in another bucket than the merge thread reads
for it are no more than the values of other keys that are counted in that bucket. -/
structure Aligned (config : SketchConfig) (workers : List (List (List Record))) : Prop where
  indices : ∀ occurrence ∈ occurrences workers, 0 < occurrence.2.2 → ∀ i < config.row,
    i * config.width + threadBucket config occurrence.1 i occurrence.2.1 < 2 ^ 31
  counters : ∀ i < config.row, ∀ j < config.width,
    (sumWhere (occurrences workers) fun occurrence =>
      threadBucket config occurrence.1 i occurrence.2.1 = j) < 2 ^ 63
  placed : ∀ key, ∀ i < config.row,
    (sumWhere (occurrences workers) fun occurrence => occurrence.2.1 = key ∧
        threadBucket config occurrence.1 i key ≠ threadBucket config 0 i key) ≤
      sumWhere (occurrences workers) fun occurrence => occurrence.2.1 ≠ key ∧
        threadBucket config occurrence.1 i occurrence.2.1 = threadBucket config 0 i key

variable {workers : List (List (List Record))}

/-- The bound on the counters, position by position. -/
theorem mergedTotal_lt_iff (config : SketchConfig) (workers : List (List (List Record))) :
    (∀ x, mergedTotal config workers x < 2 ^ 63) ↔
      ∀ i < config.row, ∀ j < config.width,
        (sumWhere (occurrences workers) fun occurrence =>
          threadBucket config occurrence.1 i occurrence.2.1 = j) < 2 ^ 63 := by
  constructor
  · intro hbound i hi j _
    rw [← mergedTotal_eq config workers hi]
    exact hbound (i, j)
  · intro hbound x
    by_cases hposition : x ∈ SketchThread.positions config
    · obtain ⟨hi, hj⟩ := mem_positions.mp hposition
      rw [mergedTotal_eq config workers hi x.2]
      exact hbound x.1 hi x.2 hj
    · rw [mergedTotal_of_not_mem hposition]
      norm_num

/-- A thread can pack its counters exactly when it can pack those of its records. -/
theorem packable_iff {records : List Record} (hnonneg : ∀ record ∈ records, 0 ≤ record.2) :
    Packable config (tally (threadIncrements config thread records)) ↔
      ∀ record ∈ records, 0 < record.2 → ∀ i < config.row,
        i * config.width + threadBucket config thread i record.1 < 2 ^ 31 := by
  constructor
  · intro hpackable record hrecord hpos i hi
    have hmem : ((i, threadBucket config thread i record.1), record.2) ∈
        threadIncrements config thread records :=
      List.mem_flatMap.mpr ⟨record, hrecord,
        List.mem_flatMap.mpr ⟨i, List.mem_range.mpr hi, List.mem_singleton.mpr rfl⟩⟩
    apply hpackable (i, threadBucket config thread i record.1)
    · exact mem_positions.mpr ⟨hi, threadBucket_lt config thread i record.1⟩
    · exact (tally_pos_iff (nonneg_threadIncrements hnonneg)).mpr ⟨_, hmem, rfl, hpos⟩
  · intro hindices position _ hpos
    obtain ⟨increment, hincrement, rfl, hvalue⟩ :=
      (tally_pos_iff (nonneg_threadIncrements hnonneg)).mp hpos
    obtain ⟨record, hrecord, hsingle⟩ := List.mem_flatMap.mp hincrement
    obtain ⟨i, hi, hincrement'⟩ := List.mem_flatMap.mp hsingle
    rw [List.mem_singleton.mp hincrement'] at hvalue ⊢
    exact hindices record hrecord hvalue i (List.mem_range.mp hi)

/-- All counters, thread by thread. -/
theorem mergedTotal_eq_sum (config : SketchConfig) (workers : List (List (List Record)))
    (x : ℕ × ℕ) :
    mergedTotal config workers x =
      ((threads workers).map fun thread =>
        tally (threadIncrements config thread.1 thread.2) x).sum := by
  rw [mergedTotal, occurrences, List.flatMap_assoc, ← tally_flatMap]
  congr 1
  apply List.flatMap_congr
  intro thread _
  rw [List.flatMap_map]
  rfl

theorem nonneg_of_mem_threads (hnonneg : ∀ record ∈ workers.flatten.flatten, 0 ≤ record.2)
    {thread : ℕ × List Record} (hthread : thread ∈ threads workers) (record : Record)
    (hrecord : record ∈ thread.2) : 0 ≤ record.2 := by
  apply hnonneg
  rw [← map_snd_occurrences]
  have hoccurrence : (thread.1, record) ∈ occurrences workers :=
    List.mem_flatMap.mpr ⟨thread, hthread, List.mem_map_of_mem hrecord⟩
  exact List.mem_map_of_mem hoccurrence

/-- The counters of a thread are part of all counters. -/
theorem tally_threadIncrements_le (hnonneg : ∀ record ∈ workers.flatten.flatten, 0 ≤ record.2)
    {thread : ℕ × List Record} (hthread : thread ∈ threads workers) (x : ℕ × ℕ) :
    tally (threadIncrements config thread.1 thread.2) x ≤ mergedTotal config workers x := by
  rw [mergedTotal_eq_sum]
  apply List.single_le_sum
  · intro value hvalue
    obtain ⟨other, hother, rfl⟩ := List.mem_map.mp hvalue
    exact tally_nonneg (nonneg_threadIncrements (nonneg_of_mem_threads hnonneg hother)) x
  · exact List.mem_map_of_mem hthread

/-- What an emitted item contributes to the merge thread. -/
theorem item_spec (hnonneg : ∀ record ∈ workers.flatten.flatten, 0 ≤ record.2)
    {thread : ℕ × List Record} (hthread : thread ∈ threads workers) {item : CMItem}
    (hrun : SketchThread.run config thresh
      (CountMin.create config (UInt32.ofNat (thread.1 * config.row))).1 thread.2 = some item) :
    (∀ counter ∈ item.counters, counter.1.toNat / config.width < config.row) ∧
      (∀ increment ∈ itemIncrements config item, 0 ≤ increment.2) ∧
      ∀ x, tally (itemIncrements config item) x =
        tally (threadIncrements config thread.1 thread.2) x := by
  have hrecords := nonneg_of_mem_threads hnonneg hthread
  obtain ⟨hiff, hcounters⟩ := run_spec config thresh thread.1 hrecords
  obtain ⟨-, hpackable⟩ := hiff.mp ⟨item, hrun⟩
  have hitem := hcounters item hrun
  refine ⟨?_, ?_, ?_⟩
  · intro counter hcounter
    rw [hitem] at hcounter
    obtain ⟨position, hposition, rfl⟩ := List.mem_map.mp hcounter
    obtain ⟨hmem, hpos⟩ := List.mem_filter.mp hposition
    rw [(unpack_index (mem_positions.mp hmem).2
      (hpackable position hmem (by simpa using hpos))).1]
    exact (mem_positions.mp hmem).1
  · rw [itemIncrements_packed hpackable hitem]
    intro increment hincrement
    obtain ⟨position, hposition, rfl⟩ := List.mem_map.mp hincrement
    exact tally_nonneg (nonneg_threadIncrements hrecords) position
  · apply tally_itemIncrements hpackable hitem
    · exact tally_nonneg (nonneg_threadIncrements hrecords)
    · intro x hx
      apply le_antisymm
      · calc
          tally (threadIncrements config thread.1 thread.2) x ≤ mergedTotal config workers x :=
            tally_threadIncrements_le hnonneg hthread x
          _ = 0 := mergedTotal_of_not_mem hx
      · exact tally_nonneg (nonneg_threadIncrements hrecords) x

/-- The counters of the merge thread after all items, in any order. -/
theorem merge_spec (thresh : ℕ) (hnonneg : ∀ record ∈ workers.flatten.flatten, 0 ≤ record.2)
    {items arrivals : List CMItem} (hitems : allItems config thresh workers = some items)
    (harrivals : arrivals.Perm items) :
    ((∃ merged, arrivals.foldlM (MergeThread.processData config thresh) (.create config) =
        some merged) ↔ ∀ x, mergedTotal config workers x < 2 ^ 63) ∧
      ∀ merged, arrivals.foldlM (MergeThread.processData config thresh) (.create config) =
          some merged → Holds config 0 merged.sketch (mergedTotal config workers) := by
  rw [allItems_eq_some_iff] at hitems
  have hspec : List.Forall₂ (fun (thread : ℕ × List Record) item =>
      (∀ counter ∈ item.counters, counter.1.toNat / config.width < config.row) ∧
      (∀ increment ∈ itemIncrements config item, 0 ≤ increment.2) ∧
      ∀ x, tally (itemIncrements config item) x =
        tally (threadIncrements config thread.1 thread.2) x) (threads workers) items :=
    ((List.forall₂_and_left _ _).mpr ⟨fun _ hthread => hthread, hitems⟩).imp
      fun _ _ h => item_spec hnonneg h.1 h.2
  have htotal : tally (arrivals.flatMap (itemIncrements config)) = mergedTotal config workers := by
    funext x
    rw [tally_perm (harrivals.flatMap_right _), tally_flatMap, mergedTotal_eq_sum]
    exact sum_map_eq_of_forall₂ (hspec.imp fun _ _ h => h.2.2 x)
  have hrows := forall_mem_right_of_forall₂ (hspec.imp fun _ _ h => h.1)
  have hincrements := forall_mem_right_of_forall₂ (hspec.imp fun _ _ h => h.2.1)
  have hsums : ∀ result, (arrivals.flatMap (itemIncrements config)).foldlM addCounters
      (fun _ => 0) = some result ↔
        (∀ x, mergedTotal config workers x < 2 ^ 63) ∧ result = mergedTotal config workers := by
    intro result
    rw [foldlM_addAt_eq_some (by norm_num) _ fun _ => ⟨le_rfl, by norm_num⟩]
    · simp only [zero_add, htotal]
    · intro increment hincrement
      obtain ⟨item, hitem, hmem⟩ := List.mem_flatMap.mp hincrement
      exact hincrements item (harrivals.mem_iff.mp hitem) increment hmem
  have hcreate : Holds config 0 (MergeThread.create config).sketch fun _ => 0 := by
    have hfirst := holds_create config 0
    rwa [Nat.zero_mul] at hfirst
  have hmerge := hcreate.processItems thresh fun item hitem =>
    hrows item (harrivals.mem_iff.mp hitem)
  generalize arrivals.foldlM (MergeThread.processData config thresh) _ = merged at hmerge ⊢
  generalize (arrivals.flatMap (itemIncrements config)).foldlM addCounters _ = total at hmerge hsums
  cases hmerge with
  | none =>
      constructor
      · refine iff_of_false (by simp) ?_
        intro hbound
        exact absurd ((hsums _).mpr ⟨hbound, rfl⟩) (by simp)
      · intro merged hmerged
        cases hmerged
  | some hstate =>
      obtain ⟨hbound, htotal'⟩ := (hsums _).mp rfl
      rw [htotal'] at hstate
      refine ⟨iff_of_true ⟨_, rfl⟩ hbound, ?_⟩
      intro merged hmerged
      obtain rfl := Option.some.inj hmerged
      exact hstate

/-- All items are emitted exactly when no thread overflows. -/
theorem exists_allItems_iff (config : SketchConfig) (thresh : ℕ)
    (hnonneg : ∀ record ∈ workers.flatten.flatten, 0 ≤ record.2) :
    (∃ items, allItems config thresh workers = some items) ↔
      ∀ thread ∈ threads workers,
        (∀ x, tally (threadIncrements config thread.1 thread.2) x < 2 ^ 63) ∧
          ∀ record ∈ thread.2, 0 < record.2 → ∀ i < config.row,
            i * config.width + threadBucket config thread.1 i record.1 < 2 ^ 31 := by
  simp only [allItems_eq_some_iff, exists_forall₂_iff]
  refine forall_congr' fun thread => imp_congr_right fun hthread => ?_
  have hrecords := nonneg_of_mem_threads hnonneg hthread
  rw [(run_spec config thresh thread.1 hrecords).1, packable_iff hrecords]

/-- With one compute thread in every worker all sketches use the same hash functions, and
every key is counted where the merge thread looks for it. -/
theorem placed_of_first_threads (hnonneg : ∀ record ∈ workers.flatten.flatten, 0 ≤ record.2)
    (hfirst : ∀ occurrence ∈ occurrences workers, occurrence.1 = 0) (key : UInt64) (i : ℕ) :
    (sumWhere (occurrences workers) fun occurrence => occurrence.2.1 = key ∧
        threadBucket config occurrence.1 i key ≠ threadBucket config 0 i key) ≤
      sumWhere (occurrences workers) fun occurrence => occurrence.2.1 ≠ key ∧
        threadBucket config occurrence.1 i occurrence.2.1 = threadBucket config 0 i key := by
  have hnone : (occurrences workers).filter (fun occurrence => occurrence.2.1 = key ∧
      threadBucket config occurrence.1 i key ≠ threadBucket config 0 i key) = [] := by
    rw [List.filter_eq_nil_iff]
    intro occurrence hoccurrence
    simp [hfirst occurrence hoccurrence]
  rw [sumWhere, hnone]
  apply List.sum_nonneg
  intro value hvalue
  obtain ⟨occurrence, hoccurrence, rfl⟩ := List.mem_map.mp hvalue
  apply hnonneg
  rw [← map_snd_occurrences]
  exact List.mem_map_of_mem (List.mem_filter.mp hoccurrence).1

/-- **When merging never underestimates.** For every number of workers and compute threads and
every assignment of records to them: the merge thread underestimates no key, in whatever order
the items arrive, exactly when no index and no counter overflows and what the threads count of
a key in other buckets than the merge thread reads is made up for by other keys. -/
theorem never_underestimates_iff (config : SketchConfig) (thresh : ℕ)
    (workers : List (List (List Record)))
    (hnonneg : ∀ record ∈ workers.flatten.flatten, 0 ≤ record.2)
    (_hfits : ∀ items, allItems config thresh workers = some items → ∀ item ∈ items, item.Fits) :
    NeverUnderestimates config thresh workers ↔ Aligned config workers := by
  have hestimate : ∀ key, ∀ i < config.row,
      (keyTotal workers key ≤ mergedTotal config workers (i, threadBucket config 0 i key) ↔
        (sumWhere (occurrences workers) fun occurrence => occurrence.2.1 = key ∧
          threadBucket config occurrence.1 i key ≠ threadBucket config 0 i key) ≤
        sumWhere (occurrences workers) fun occurrence => occurrence.2.1 ≠ key ∧
          threadBucket config occurrence.1 i occurrence.2.1 = threadBucket config 0 i key) := by
    intro key i hi
    have hbalance := sumWhere_balance config (occurrences workers) i key
    rw [keyTotal_eq, mergedTotal_eq config workers hi]
    constructor
    · intro hle
      linarith
    · intro hle
      linarith
  constructor
  · rintro ⟨items, hitems, harrivals⟩
    obtain ⟨merged, hmerged, hkeys⟩ := harrivals items (List.Perm.refl items)
    obtain ⟨hiff, hholds⟩ := merge_spec thresh hnonneg hitems (List.Perm.refl items)
    have hthreads := (exists_allItems_iff config thresh hnonneg).mp ⟨items, hitems⟩
    refine ⟨?_, (mergedTotal_lt_iff config workers).mp (hiff.mp ⟨merged, hmerged⟩), ?_⟩
    · intro occurrence hoccurrence
      obtain ⟨thread, hthread, hrecord⟩ := List.mem_flatMap.mp hoccurrence
      obtain ⟨record, hmem, rfl⟩ := List.mem_map.mp hrecord
      exact (hthreads thread hthread).2 record hmem
    · intro key i hi
      rw [← hestimate key i hi]
      exact ((hholds merged hmerged).le_getEstimate_iff key _).mp (hkeys key) i hi
  · intro haligned
    have hbound := (mergedTotal_lt_iff config workers).mpr haligned.counters
    obtain ⟨items, hitems⟩ : ∃ items, allItems config thresh workers = some items := by
      rw [exists_allItems_iff config thresh hnonneg]
      intro thread hthread
      refine ⟨fun x => (tally_threadIncrements_le hnonneg hthread x).trans_lt (hbound x), ?_⟩
      intro record hrecord
      exact haligned.indices (thread.1, record)
        (List.mem_flatMap.mpr ⟨thread, hthread, List.mem_map_of_mem hrecord⟩)
    refine ⟨items, hitems, fun arrivals harrivals => ?_⟩
    obtain ⟨hiff, hholds⟩ := merge_spec thresh hnonneg hitems harrivals
    obtain ⟨merged, hmerged⟩ := hiff.mpr hbound
    refine ⟨merged, hmerged, fun key => ?_⟩
    rw [(hholds merged hmerged).le_getEstimate_iff]
    intro i hi
    rw [hestimate key i hi]
    exact haligned.placed key i hi

/-- Sketches of one row with two buckets. -/
def smallConfig : SketchConfig :=
  ⟨1, 2, by decide, by decide, by decide, by decide⟩

/-- Two workers with one compute thread each. -/
theorem never_underestimates_two_workers :
    NeverUnderestimates smallConfig 100 [[[(7, 5)]], [[(7, 3), (8, 1)]]] := by
  have hitems : allItems smallConfig 100 [[[(7, 5)]], [[(7, 3), (8, 1)]]] =
      some [⟨[(1, 5)], []⟩, ⟨[(0, 1), (1, 3)], []⟩] := by
    decide +kernel
  have hnonneg : ∀ record ∈ ([[[(7, 5)]], [[(7, 3), (8, 1)]]] :
      List (List (List Record))).flatten.flatten, 0 ≤ record.2 := by
    decide
  refine (never_underestimates_iff smallConfig 100 _ hnonneg ?_).mpr ⟨?_, ?_, ?_⟩
  · intro items hsome
    obtain rfl := Option.some.inj (hitems.symm.trans hsome)
    decide
  · decide +kernel
  · decide +kernel
  · intro key i _
    exact placed_of_first_threads hnonneg (by decide) key i

/-- The second compute thread of a worker counts a key where the merge thread does not look
for it: the estimate is zero. -/
theorem second_thread_underestimated :
    (∃ items, allItems smallConfig 100 [[[], [(7, 5)]]] = some items ∧ ∀ item ∈ items, item.Fits) ∧
      keyTotal [[[], [(7, 5)]]] 7 = 5 ∧
      ¬ NeverUnderestimates smallConfig 100 [[[], [(7, 5)]]] := by
  have hitems : allItems smallConfig 100 [[[], [(7, 5)]]] =
      some [⟨[], []⟩, ⟨[(0, 5)], []⟩] := by
    decide +kernel
  have hmerge : (([⟨[], []⟩, ⟨[(0, 5)], []⟩] : List CMItem).foldlM
      (MergeThread.processData smallConfig 100) (.create smallConfig)).map
        (fun merged => merged.sketch.getEstimate 7) = some 0 := by
    decide +kernel
  refine ⟨⟨_, hitems, by decide⟩, rfl, ?_⟩
  rintro ⟨items, hsome, harrivals⟩
  obtain rfl := Option.some.inj (hitems.symm.trans hsome)
  obtain ⟨merged, hmerged, hkeys⟩ := harrivals _ (List.Perm.refl _)
  rw [hmerged] at hmerge
  have hzero : merged.sketch.getEstimate 7 = 0 := Option.some.inj hmerge
  have hkey := hkeys 7
  rw [hzero] at hkey
  exact absurd hkey (by decide)

end AFStream.Apps

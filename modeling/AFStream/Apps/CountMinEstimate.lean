/-
# The estimates of one sketch

A sketch is used by one thread: it counts records, is cleared at the end of a window, and the
fault tolerance saves its arrays in between. The module looks at a sketch over arbitrary hash
functions, with exact counters, and relates its estimates to the records since it was last
cleared.
-/

import AFStream.Apps.CountMin
import AFStream.Foundation.Machine

namespace AFStream.Apps

open AFStream.Foundation AFStream.Operator

/-- `CountMin` over any hash functions. -/
structure ExactSketch where
  row : ℕ
  width : ℕ
  arrays : ℕ → NumericArrayMax ℤ
  hash : ℕ → UInt64 → ℕ

namespace ExactSketch

/-- The constructor. -/
def create (row width : ℕ) (hash : ℕ → UInt64 → ℕ) : ExactSketch where
  row := row
  width := width
  arrays := fun _ => .create width
  hash := hash

/-- The bucket of a key in a row: the arrays take the hash value as an `unsigned int`. -/
def index (sketch : ExactSketch) (i : ℕ) (key : UInt64) : UInt32 :=
  UInt32.ofNat (sketch.hash i key)

/-- The counter of a key in a row. -/
def counter (sketch : ExactSketch) (i : ℕ) (key : UInt64) : ℤ :=
  (sketch.arrays i).array (sketch.index i key).toNat

/-- The object of a row is replaced. -/
def setArray (sketch : ExactSketch) (i : ℕ) (array : NumericArrayMax ℤ) : ExactSketch :=
  { sketch with arrays := Function.update sketch.arrays i array }

/-- One iteration of `UpdateSketch`, with the smallest new value so far. -/
def updateRow (key : UInt64) (value : ℤ) (state : ℤ × ExactSketch) (i : ℕ) : ℤ × ExactSketch :=
  let newV := state.2.counter i key + value
  let sketch := state.2.setArray i ((state.2.arrays i).updateValue (state.2.index i key) newV)
  (if i = 0 ∨ newV < state.1 then newV else state.1, sketch)

/-- `UpdateSketch` -/
def updateSketch (sketch : ExactSketch) (key : UInt64) (value : ℤ) : ℤ × ExactSketch :=
  (List.range sketch.row).foldl (updateRow key value) (0, sketch)

/-- `GetEstimate` -/
def getEstimate (sketch : ExactSketch) (key : UInt64) : ℤ :=
  (List.range sketch.row).foldl (fun ret i =>
    let v := sketch.counter i key
    if i = 0 ∨ v < ret then v else ret) 0

/-- `Clear` -/
def clear (sketch : ExactSketch) : ExactSketch :=
  (List.range sketch.row).foldl (fun sketch i => sketch.setArray i (sketch.arrays i).clear) sketch

/-- `SerializeState` of the array of a row. -/
def serializeState (sketch : ExactSketch) (i : ℕ) : Option ExactSketch :=
  if i < sketch.row then
    (sketch.arrays i).serializeState.map fun result => sketch.setArray i result.2
  else none

/-- The calls on a sketch. -/
inductive Call
  | updateSketch (key : UInt64) (value : ℤ)
  | clear
  | serializeState (i : ℕ)

/-- Nothing is subtracted, and only rows of the sketch are saved. -/
def Call.Allowed (row : ℕ) : Call → Prop
  | .updateSketch _ value => 0 ≤ value
  | .clear => True
  | .serializeState i => i < row

/-- One call. -/
def step (sketch : ExactSketch) : Call → Option ExactSketch
  | .updateSketch key value => some (sketch.updateSketch key value).2
  | .clear => some sketch.clear
  | .serializeState i => sketch.serializeState i

/-- Every sequence of calls on a new sketch. -/
def machine (row width : ℕ) (hash : ℕ → UInt64 → ℕ) : Machine ExactSketch Call where
  init := create row width hash
  step := step

/-- The records since the last `Clear`, when there have been some before. -/
def recordsSince : List Record → List Call → List Record
  | records, [] => records
  | records, .updateSketch key value :: calls => recordsSince (records ++ [(key, value)]) calls
  | _, .clear :: calls => recordsSince [] calls
  | records, .serializeState _ :: calls => recordsSince records calls

/-! ## The two loops -/

variable {sketch sketch' : ExactSketch}

/-- One more row has been replaced. -/
theorem update_row {T : Type} (old new : ℕ → T) (n : ℕ) :
    Function.update (fun i => if i < n then new i else old i) n (new n) =
      fun i => if i < n + 1 then new i else old i := by
  funext i
  by_cases hi : i = n
  · subst hi
    rw [Function.update_self, if_pos (Nat.lt_succ_self i)]
  · have hiff : i < n ↔ i < n + 1 := by omega
    rw [Function.update_of_ne hi, if_congr hiff rfl rfl]

/-- The rows of a sketch after the loop of `UpdateSketch` up to a row. -/
theorem updateRows_spec (sketch : ExactSketch) (key : UInt64) (value : ℤ) (n : ℕ) :
    (List.range n).foldl (updateRow key value) (0, sketch) =
      ((List.range n).foldl (fun ret i =>
          if i = 0 ∨ sketch.counter i key + value < ret then sketch.counter i key + value
          else ret) 0,
        { sketch with
          arrays := fun i =>
            if i < n then
              (sketch.arrays i).updateValue (sketch.index i key) (sketch.counter i key + value)
            else sketch.arrays i }) := by
  induction n with
  | zero => rfl
  | succ n ih =>
      rw [List.range_succ, List.foldl_append, List.foldl_append, ih, List.foldl_cons,
        List.foldl_nil, List.foldl_cons, List.foldl_nil, updateRow]
      simp only [counter, index, setArray, lt_irrefl, if_false]
      refine congrArg (Prod.mk _) (congrArg (fun arrays => { sketch with arrays := arrays }) ?_)
      exact update_row sketch.arrays _ n

theorem updateSketch_eq (sketch : ExactSketch) (key : UInt64) (value : ℤ) :
    (sketch.updateSketch key value).2 =
      { sketch with
        arrays := fun i =>
          if i < sketch.row then
            (sketch.arrays i).updateValue (sketch.index i key) (sketch.counter i key + value)
          else sketch.arrays i } := by
  rw [updateSketch, updateRows_spec]

/-- The counters after `UpdateSketch`. -/
theorem array_updateSketch (sketch : ExactSketch) (key : UInt64) (value : ℤ) {i : ℕ}
    (hi : i < sketch.row) :
    (((sketch.updateSketch key value).2).arrays i).array =
      Function.update (sketch.arrays i).array (sketch.index i key).toNat
        (sketch.counter i key + value) := by
  rw [updateSketch_eq]
  dsimp only
  rw [if_pos hi, NumericArrayMax.array_updateValue]

/-- **The two paths agree.** What `UpdateSketch` returns is the estimate right after it. -/
theorem updateSketch_fst (sketch : ExactSketch) (key : UInt64) (value : ℤ) :
    (sketch.updateSketch key value).1 = (sketch.updateSketch key value).2.getEstimate key := by
  have hcounter : ∀ i < sketch.row, ((sketch.updateSketch key value).2).counter i key =
      sketch.counter i key + value := by
    intro i hi
    have hindex : ((sketch.updateSketch key value).2).index i key = sketch.index i key := by
      rw [updateSketch_eq]
      rfl
    rw [counter, hindex, array_updateSketch sketch key value hi, Function.update_self]
  have hrow : ((sketch.updateSketch key value).2).row = sketch.row := by
    rw [updateSketch_eq]
  rw [getEstimate, hrow]
  conv_lhs => rw [updateSketch, updateRows_spec]
  apply List.foldl_ext
  intro ret i hi
  rw [hcounter i (List.mem_range.mp hi)]

/-- The estimate is the smallest counter. -/
theorem le_getEstimate_iff (hrow : 0 < sketch.row) (key : UInt64) (value : ℤ) :
    value ≤ sketch.getEstimate key ↔ ∀ i < sketch.row, value ≤ sketch.counter i key :=
  le_foldl_min_iff (fun i => sketch.counter i key) hrow value

/-- Estimates differ by no more than the counters do. -/
theorem abs_getEstimate_sub_le (hrow : 0 < sketch.row) (hsame : sketch'.row = sketch.row)
    {key : UInt64} {error : ℤ}
    (hcounters : ∀ i < sketch.row, |sketch.counter i key - sketch'.counter i key| ≤ error) :
    |sketch.getEstimate key - sketch'.getEstimate key| ≤ error := by
  have hlow : sketch'.getEstimate key - error ≤ sketch.getEstimate key := by
    refine (le_getEstimate_iff hrow key _).mpr fun i hi => ?_
    have hle := (le_getEstimate_iff (hsame.symm ▸ hrow) key _).mp le_rfl i (hsame.symm ▸ hi)
    have hnear := abs_le.mp (hcounters i hi)
    linarith
  have hhigh : sketch.getEstimate key - error ≤ sketch'.getEstimate key := by
    refine (le_getEstimate_iff (hsame.symm ▸ hrow) key _).mpr fun i hi => ?_
    have hle := (le_getEstimate_iff hrow key _).mp le_rfl i (hsame ▸ hi)
    have hnear := abs_le.mp (hcounters i (hsame ▸ hi))
    linarith
  exact abs_le.mpr ⟨by linarith, by linarith⟩

/-- `Clear` clears every row. -/
theorem clear_eq (sketch : ExactSketch) :
    sketch.clear =
      { sketch with
        arrays := fun i => if i < sketch.row then (sketch.arrays i).clear else sketch.arrays i } := by
  have hloop : ∀ n, (List.range n).foldl
      (fun sketch i => sketch.setArray i (sketch.arrays i).clear) sketch =
        { sketch with
          arrays := fun i => if i < n then (sketch.arrays i).clear else sketch.arrays i } := by
    intro n
    induction n with
    | zero => rfl
    | succ n ih =>
        rw [List.range_succ, List.foldl_append, ih, List.foldl_cons, List.foldl_nil, setArray]
        dsimp only
        rw [if_neg (Nat.lt_irrefl n)]
        exact congrArg (fun arrays => { sketch with arrays := arrays })
          (update_row sketch.arrays (fun i => (sketch.arrays i).clear) n)
  exact hloop sketch.row

/-! ## Counters as tallies -/

/-- The increments that records cause in a row. -/
def increments (hash : ℕ → UInt64 → ℕ) (i : ℕ) (records : List Record) : List (ℕ × ℤ) :=
  records.map fun record => ((UInt32.ofNat (hash i record.1)).toNat, record.2)

/-- The sketch counts the records, and every array can be saved. -/
structure Counts (row width : ℕ) (hash : ℕ → UInt64 → ℕ) (records : List Record)
    (sketch : ExactSketch) : Prop where
  row_eq : sketch.row = row
  hash_eq : sketch.hash = hash
  array_eq : ∀ i < row, (sketch.arrays i).array = tally (increments hash i records)
  length_eq : ∀ i < row, (sketch.arrays i).length = width
  maxDiffIndex_lt : ∀ i < row, (sketch.arrays i).maxDiffIndex.toNat < width
  nonneg : ∀ record ∈ records, 0 ≤ record.2

variable {row width : ℕ} {hash : ℕ → UInt64 → ℕ} {records : List Record}

theorem counts_create (hwidth : 0 < width) : Counts row width hash [] (create row width hash) where
  row_eq := rfl
  hash_eq := rfl
  array_eq := fun _ _ => rfl
  length_eq := fun _ _ => rfl
  maxDiffIndex_lt := fun _ _ => hwidth
  nonneg := fun _ h => absurd h List.not_mem_nil

theorem Counts.counter_eq (h : Counts row width hash records sketch) {i : ℕ} (hi : i < row)
    (key : UInt64) :
    sketch.counter i key =
      tally (increments hash i records) (UInt32.ofNat (hash i key)).toNat := by
  rw [counter, index, h.hash_eq, h.array_eq i hi]

/-- The cast of a bucket to an `unsigned int` is a bucket. -/
theorem toNat_ofNat_lt {bucket : ℕ} (hbucket : bucket < width) :
    (UInt32.ofNat bucket).toNat < width := by
  rw [UInt32.toNat_ofNat']
  exact (Nat.mod_le _ _).trans_lt hbucket

/-- A record is counted in every row. -/
theorem Counts.updateSketch (h : Counts row width hash records sketch)
    (hhash : ∀ i < row, ∀ key, hash i key < width) {key : UInt64} {value : ℤ}
    (hvalue : 0 ≤ value) :
    Counts row width hash (records ++ [(key, value)]) (sketch.updateSketch key value).2 := by
  have hindex : ∀ i < row, (UInt32.ofNat (hash i key)).toNat < width :=
    fun i hi => toNat_ofNat_lt (hhash i hi key)
  have harrays : ∀ i < row, ((sketch.updateSketch key value).2).arrays i =
      (sketch.arrays i).updateValue (UInt32.ofNat (hash i key)) (sketch.counter i key + value) := by
    intro i hi
    rw [updateSketch_eq]
    dsimp only
    rw [h.row_eq, if_pos hi, index, h.hash_eq]
  refine ⟨?_, ?_, ?_, ?_, ?_, ?_⟩
  · rw [updateSketch_eq]
    exact h.row_eq
  · rw [updateSketch_eq]
    exact h.hash_eq
  · intro i hi
    rw [harrays i hi, NumericArrayMax.array_updateValue, h.counter_eq hi, h.array_eq i hi,
      increments, increments, List.map_append, List.map_singleton, tally_concat]
  · intro i hi
    rw [harrays i hi, NumericArrayMax.length_updateValue]
    exact h.length_eq i hi
  · intro i hi
    rw [harrays i hi, NumericArrayMax.maxDiffIndex_updateValue]
    split_ifs
    · exact hindex i hi
    · exact h.maxDiffIndex_lt i hi
  · intro record hrecord
    rcases List.mem_append.mp hrecord with hold | hnew
    · exact h.nonneg record hold
    · rw [List.mem_singleton.mp hnew]
      exact hvalue

/-- A new sketch after some records. -/
def counting (row width : ℕ) (hash : ℕ → UInt64 → ℕ) (records : List Record) : ExactSketch :=
  records.foldl (fun sketch record => (sketch.updateSketch record.1 record.2).2)
    (create row width hash)

theorem counts_counting (hwidth : 0 < width) (hhash : ∀ i < row, ∀ key, hash i key < width)
    (hnonneg : ∀ record ∈ records, 0 ≤ record.2) :
    Counts row width hash records (counting row width hash records) := by
  induction records using List.reverseRecOn with
  | nil => exact counts_create hwidth
  | append_singleton records record ih =>
      rw [List.forall_mem_append, List.forall_mem_singleton] at hnonneg
      rw [counting, List.foldl_append, List.foldl_cons, List.foldl_nil]
      exact (ih hnonneg.1).updateSketch hhash hnonneg.2

/-- The index of the largest difference outlives `Clear`, and it is still an index. -/
theorem Counts.clear (h : Counts row width hash records sketch) :
    Counts row width hash [] sketch.clear := by
  have harrays : ∀ i < row, sketch.clear.arrays i = (sketch.arrays i).clear := by
    intro i hi
    rw [clear_eq]
    dsimp only
    rw [h.row_eq, if_pos hi]
  refine ⟨?_, ?_, ?_, ?_, ?_, ?_⟩
  · rw [clear_eq]
    exact h.row_eq
  · rw [clear_eq]
    exact h.hash_eq
  · intro i hi
    rw [harrays i hi]
    rfl
  · intro i hi
    rw [harrays i hi]
    exact h.length_eq i hi
  · intro i hi
    rw [harrays i hi]
    exact h.maxDiffIndex_lt i hi
  · intro record hrecord
    exact absurd hrecord List.not_mem_nil

/-- What holds of all rows, and of the new object of one of them. -/
theorem forall_setArray {P : ℕ → NumericArrayMax ℤ → Prop} {i : ℕ} {array : NumericArrayMax ℤ}
    (hrows : ∀ j < row, P j (sketch.arrays j)) (harray : P i array) :
    ∀ j < row, P j ((sketch.setArray i array).arrays j) := by
  intro j hj
  change P j (Function.update sketch.arrays i array j)
  by_cases hji : j = i
  · subst hji
    rwa [Function.update_self]
  · rw [Function.update_of_ne hji]
    exact hrows j hj

/-- Saving the state of a row changes no counter. -/
theorem Counts.serializeState (h : Counts row width hash records sketch) {i : ℕ} (hi : i < row) :
    ∃ sketch', sketch.serializeState i = some sketch' ∧
      Counts row width hash records sketch' := by
  have hlt : (sketch.arrays i).maxDiffIndex.toNat < (sketch.arrays i).length := by
    rw [h.length_eq i hi]
    exact h.maxDiffIndex_lt i hi
  rw [ExactSketch.serializeState, NumericArrayMax.serializeState, h.row_eq, if_pos hi, if_pos hlt]
  refine ⟨_, rfl, h.row_eq, h.hash_eq, ?_, ?_, ?_, h.nonneg⟩
  · exact forall_setArray (P := fun j array => array.array = tally (increments hash j records))
      h.array_eq (h.array_eq i hi)
  · exact forall_setArray (P := fun _ array => array.length = width) h.length_eq (h.length_eq i hi)
  · exact forall_setArray (P := fun _ array => array.maxDiffIndex.toNat < width)
      h.maxDiffIndex_lt ((Nat.zero_le _).trans_lt (h.maxDiffIndex_lt i hi))

/-! ## The estimates -/

/-- Every sequence of calls is defined, and the sketch counts the records. -/
theorem Counts.run (hhash : ∀ i < row, ∀ key, hash i key < width) {calls : List Call}
    (hcalls : ∀ call ∈ calls, call.Allowed row) (h : Counts row width hash records sketch) :
    ∃ sketch', (machine row width hash).runFrom sketch calls = some sketch' ∧
      Counts row width hash (recordsSince records calls) sketch' := by
  induction calls generalizing sketch records with
  | nil => exact ⟨sketch, rfl, h⟩
  | cons call rest ih =>
      rw [List.forall_mem_cons] at hcalls
      rw [Machine.runFrom_cons]
      cases call with
      | updateSketch key value =>
          have hvalue : 0 ≤ value := hcalls.1
          exact ih hcalls.2 (h.updateSketch hhash hvalue)
      | clear => exact ih hcalls.2 h.clear
      | serializeState i =>
          obtain ⟨sketch', hstep, h'⟩ := h.serializeState hcalls.1
          rw [show (machine row width hash).step sketch (.serializeState i) = some sketch' from
            hstep, Option.bind_some]
          exact ih hcalls.2 h'

/-- A key is counted in every row, possibly together with other keys. -/
theorem Counts.tally_le_getEstimate (h : Counts row width hash records sketch) (hrow : 0 < row)
    (key : UInt64) : tally records key ≤ sketch.getEstimate key := by
  rw [le_getEstimate_iff (h.row_eq.symm ▸ hrow), h.row_eq]
  intro i hi
  rw [h.counter_eq hi]
  exact tally_le_tally_map h.nonneg (fun key => (UInt32.ofNat (hash i key)).toNat) key

/-- No row counts more than all records. -/
theorem Counts.getEstimate_le_sum (h : Counts row width hash records sketch) (hrow : 0 < row)
    (key : UInt64) : sketch.getEstimate key ≤ (records.map Prod.snd).sum := by
  have hpos : 0 < sketch.row := h.row_eq.symm ▸ hrow
  have hfirst : sketch.getEstimate key ≤ sketch.counter 0 key :=
    (le_getEstimate_iff hpos key _).mp le_rfl 0 hpos
  have hnonneg : ∀ increment ∈ increments hash 0 records, 0 ≤ increment.2 := by
    intro increment hincrement
    obtain ⟨record, hrecord, rfl⟩ := List.mem_map.mp hincrement
    exact h.nonneg record hrecord
  have hsum : ((increments hash 0 records).map Prod.snd).sum = (records.map Prod.snd).sum := by
    rw [increments, List.map_map]
    rfl
  calc
    sketch.getEstimate key ≤ sketch.counter 0 key := hfirst
    _ = tally (increments hash 0 records) (UInt32.ofNat (hash 0 key)).toNat :=
      h.counter_eq hrow key
    _ ≤ ((increments hash 0 records).map Prod.snd).sum := tally_le_sum hnonneg _
    _ = (records.map Prod.snd).sum := hsum

/-- **The sketch never underestimates.** However the hash functions let keys collide, and
whatever is saved in between, the estimate of a key lies between the sum of its values and
the sum of all values since the last `Clear`, and `UpdateSketch` returns the estimate that a
query gives right after it. -/
theorem estimate_bounds (hrow : 0 < row) (hwidth : 0 < width)
    (hhash : ∀ i < row, ∀ key, hash i key < width) (calls : List Call)
    (hcalls : ∀ call ∈ calls, call.Allowed row) :
    ∃ sketch, (machine row width hash).runFrom (create row width hash) calls = some sketch ∧
      ∀ key, tally (recordsSince [] calls) key ≤ sketch.getEstimate key ∧
        sketch.getEstimate key ≤ ((recordsSince [] calls).map Prod.snd).sum ∧
        ∀ value, (sketch.updateSketch key value).1 =
          (sketch.updateSketch key value).2.getEstimate key := by
  obtain ⟨sketch, hrun, h⟩ := (counts_create hwidth).run hhash hcalls
  refine ⟨sketch, hrun, fun key => ⟨?_, ?_, ?_⟩⟩
  · exact h.tally_le_getEstimate hrow key
  · exact h.getEstimate_le_sum hrow key
  · exact updateSketch_fst sketch key

/-- Two rows of two buckets: key 1 collides with key 3 in the first row and with key 0 in the
second one. -/
theorem estimate_bounds_collisions :
    ∃ sketch, (machine 2 2 fun i key => (key.toNat / 2 ^ i) % 2).runFrom
        (create 2 2 fun i key => (key.toNat / 2 ^ i) % 2)
        [.updateSketch 1 5, .clear, .updateSketch 1 2, .serializeState 0, .updateSketch 3 4,
          .updateSketch 0 1] = some sketch ∧
      2 ≤ sketch.getEstimate 1 ∧ sketch.getEstimate 1 ≤ 7 := by
  obtain ⟨sketch, hrun, hbounds⟩ := @estimate_bounds 2 2
    (fun i key => (key.toNat / 2 ^ i) % 2) (by decide) (by decide)
    (fun i _ key => Nat.mod_lt _ (by decide))
    [.updateSketch 1 5, .clear, .updateSketch 1 2, .serializeState 0, .updateSketch 3 4,
      .updateSketch 0 1] (by simp [Call.Allowed])
  exact ⟨sketch, hrun, (hbounds 1).1, (hbounds 1).2.1⟩

end ExactSketch

/-! ## The sketches of the application -/

namespace CountMin

/-- A sketch of the application, with the hash functions that it has been given. -/
def exact (sketch : CountMin) : ExactSketch where
  row := sketch.row
  width := sketch.width
  arrays := sketch.arrays
  hash := sketch.bucket

theorem exact_counter {sketch : CountMin} {i : ℕ} {key : UInt64} (hwidth : sketch.width < 2 ^ 31)
    (hbucket : sketch.bucket i key < sketch.width) :
    sketch.exact.counter i key = (sketch.arrays i).array (sketch.bucket i key) := by
  have hcast : (UInt32.ofNat (sketch.bucket i key)).toNat = sketch.bucket i key := by
    apply UInt32.toNat_ofNat_of_lt
    exact (hbucket.trans hwidth).trans (by decide)
  rw [ExactSketch.counter, ExactSketch.index]
  exact congrArg (sketch.arrays i).array hcast

theorem exact_updateRow {key : UInt64} {value : ℤ} {state next : ℤ × CountMin} {i : ℕ}
    (hwidth : state.2.width < 2 ^ 31) (h : updateRow key value state i = some next) :
    ExactSketch.updateRow key value (state.1, state.2.exact) i = (next.1, next.2.exact) ∧
      next.2.width = state.2.width := by
  obtain ⟨v, hv, h⟩ := Option.bind_eq_some_iff.mp h
  obtain ⟨newV, hnewV, h⟩ := Option.bind_eq_some_iff.mp h
  obtain ⟨sketch, hsketch, h⟩ := Option.bind_eq_some_iff.mp h
  unfold getValue at hv
  unfold addLongLong at hnewV
  unfold setValue at hsketch
  split_ifs at hv with hinside
  split_ifs at hnewV
  rw [if_pos hinside] at hsketch
  cases hv
  cases hnewV
  cases hsketch
  cases h
  refine ⟨?_, rfl⟩
  rw [ExactSketch.updateRow]
  dsimp only
  rw [exact_counter hwidth hinside.2]
  rfl

/-- While no counter overflows, a sketch of the application counts exactly. -/
theorem exact_updateSketch {sketch sketch' : CountMin} {key : UInt64} {value ret : ℤ}
    (hwidth : sketch.width < 2 ^ 31) (h : sketch.updateSketch key value = some (ret, sketch')) :
    sketch.exact.updateSketch key value = (ret, sketch'.exact) := by
  have hloop : ∀ (rows : List ℕ) (state next : ℤ × CountMin), state.2.width < 2 ^ 31 →
      rows.foldlM (updateRow key value) state = some next →
      rows.foldl (ExactSketch.updateRow key value) (state.1, state.2.exact) =
        (next.1, next.2.exact) := by
    intro rows
    induction rows with
    | nil =>
        intro state next _ hnext
        rw [List.foldlM_nil, Option.pure_def] at hnext
        rw [Option.some.inj hnext, List.foldl_nil]
    | cons i rest ih =>
        intro state next hstate hnext
        rw [List.foldlM_cons] at hnext
        obtain ⟨middle, hmiddle, hrest⟩ := Option.bind_eq_some_iff.mp hnext
        obtain ⟨hrow, hsame⟩ := exact_updateRow hstate hmiddle
        rw [List.foldl_cons, hrow]
        exact ih middle next (hsame ▸ hstate) hrest
  exact hloop _ (0, sketch) (ret, sketch') hwidth h

theorem exact_getEstimate {sketch : CountMin} {key : UInt64} (hwidth : sketch.width < 2 ^ 31)
    (hbucket : ∀ i < sketch.row, sketch.bucket i key < sketch.width) :
    sketch.exact.getEstimate key = sketch.getEstimate key := by
  apply List.foldl_ext
  intro ret i hi
  simp only [exact_counter hwidth (hbucket i (List.mem_range.mp hi))]

end CountMin

end AFStream.Apps

/-
# The count-min application

The compute threads of several workers each keep a count-min sketch of the records they
get. At the end of its window a thread packs the positive counters of its sketch, and the
keys that have become large, into one item. A merge thread adds the counters of all items
to a sketch of its own. Every sketch takes one hash function for each row from the operator
tracker of its worker, which creates its compute threads one after the other.

There is one window, as the application requires. An addition of two `long long` or of two
`int` that overflows, and an access outside an array, are undefined.
-/

import AFStream.Foundation.Tally
import AFStream.Operator.Hash
import AFStream.Operator.NumericArray

namespace AFStream.Apps

open AFStream.Foundation AFStream.Operator

/-- The dimensions of all sketches: two `int` that have been checked to be positive. -/
structure SketchConfig where
  row : ℕ
  width : ℕ
  row_pos : 0 < row
  width_pos : 0 < width
  row_lt : row < 2 ^ 31
  width_lt : width < 2 ^ 31

/-- Addition of two `long long`. -/
def addLongLong (a b : ℤ) : Option ℤ :=
  if -2 ^ 63 ≤ a + b ∧ a + b < 2 ^ 63 then some (a + b) else none

/-! ## Sketches -/

/-- `CountMin` -/
structure CountMin where
  row : ℕ
  width : ℕ
  arrays : ℕ → NumericArrayMax ℤ
  hash : ℕ → Hash

namespace CountMin

/-- The loop of the constructor: each row takes a seed. -/
def createHashes (width : ℕ) (counter : UInt32) : ℕ → (ℕ → Hash) × UInt32
  | 0 => (fun _ => ⟨0, 0, 0, 0⟩, counter)
  | i + 1 =>
    let (hash, counter) := createHashes width counter i
    let (seed, counter) := getSeed counter
    (Function.update hash i (.create width seed), counter)

/-- The constructor, with the counter of the operator tracker. -/
def create (config : SketchConfig) (counter : UInt32) : CountMin × UInt32 :=
  let (hash, counter) := createHashes config.width counter config.row
  ({ row := config.row
     width := config.width
     arrays := fun _ => .create config.width
     hash := hash }, counter)

/-- `GetValue` -/
def getValue (sketch : CountMin) (i j : ℕ) : Option ℤ :=
  if i < sketch.row ∧ j < sketch.width then some ((sketch.arrays i).array j) else none

/-- `SetValue` -/
def setValue (sketch : CountMin) (i j : ℕ) (value : ℤ) : Option CountMin :=
  if i < sketch.row ∧ j < sketch.width then
    some { sketch with
      arrays := Function.update sketch.arrays i
        ((sketch.arrays i).updateValue (UInt32.ofNat j) value) }
  else none

/-- The bucket of a key in a row. -/
def bucket (sketch : CountMin) (i : ℕ) (key : UInt64) : ℕ :=
  (sketch.hash i).getHashValue (Codec.uint64.encode key)

/-- One iteration of `UpdateSketch`, with the smallest new value so far. -/
def updateRow (key : UInt64) (value : ℤ) (state : ℤ × CountMin) (i : ℕ) :
    Option (ℤ × CountMin) := do
  let index := state.2.bucket i key
  let newV ← addLongLong (← state.2.getValue i index) value
  let sketch ← state.2.setValue i index newV
  return (if i = 0 ∨ newV < state.1 then newV else state.1, sketch)

/-- `UpdateSketch` -/
def updateSketch (sketch : CountMin) (key : UInt64) (value : ℤ) : Option (ℤ × CountMin) :=
  (List.range sketch.row).foldlM (updateRow key value) (0, sketch)

/-- `GetEstimate` -/
def getEstimate (sketch : CountMin) (key : UInt64) : ℤ :=
  (List.range sketch.row).foldl (fun ret i =>
    let v := (sketch.arrays i).array (sketch.bucket i key)
    if i = 0 ∨ v < ret then v else ret) 0

/-- `Clear` -/
def clear (sketch : CountMin) : CountMin :=
  (List.range sketch.row).foldl (fun sketch i =>
    { sketch with arrays := Function.update sketch.arrays i (sketch.arrays i).clear }) sketch

end CountMin

/-- The loop of `GetEstimate` computes the smallest value. -/
theorem le_foldl_min_iff (v : ℕ → ℤ) {n : ℕ} (hn : 0 < n) (value : ℤ) :
    value ≤ (List.range n).foldl (fun ret i => if i = 0 ∨ v i < ret then v i else ret) 0 ↔
      ∀ i < n, value ≤ v i := by
  induction n with
  | zero => exact absurd hn (Nat.lt_irrefl 0)
  | succ n ih =>
      rw [List.range_succ, List.foldl_append, List.foldl_cons, List.foldl_nil,
        Nat.forall_lt_succ_right]
      rcases Nat.eq_zero_or_pos n with rfl | hpos
      · simp
      · rw [← ih hpos]
        generalize (List.range n).foldl
          (fun ret i => if i = 0 ∨ v i < ret then v i else ret) 0 = ret
        split_ifs with hsmaller
        · have hlt : v n < ret := hsmaller.resolve_left hpos.ne'
          exact ⟨fun hle => ⟨hle.trans hlt.le, hle⟩, fun h => h.2⟩
        · have hle : ret ≤ v n := not_lt.mp fun hlt => hsmaller (.inr hlt)
          exact ⟨fun h => ⟨h, h.trans hle⟩, fun h => h.1⟩

/-! ## Items -/

/-- `CMItem`: the counters and the keys that have been appended. -/
structure CMItem where
  counters : List (UInt32 × ℤ)
  heavyHitters : List UInt64
  deriving DecidableEq

namespace CMItem

/-- An item without content. -/
def empty : CMItem := ⟨[], []⟩

/-- `AppendCounter` -/
def appendCounter (item : CMItem) (index : UInt32) (value : ℤ) : CMItem :=
  { item with counters := item.counters ++ [(index, value)] }

/-- `AppendHH` -/
def appendHH (item : CMItem) (key : UInt64) : CMItem :=
  { item with heavyHitters := item.heavyHitters ++ [key] }

/-- `SK_SIZE` counters and `MAX_HH` keys have room in the buffer. -/
def Fits (item : CMItem) : Prop :=
  12 * item.counters.length + 8 * item.heavyHitters.length ≤ 8000 * 12 + 100 * 8

instance (item : CMItem) : Decidable item.Fits := inferInstanceAs (Decidable (_ ≤ _))

end CMItem

/-! ## Compute threads -/

/-- A record: a key and its value. -/
abbrev Record := UInt64 × ℤ

/-- A compute thread with its candidates for heavy hitters, in ascending order. -/
structure SketchThread where
  sketch : CountMin
  cand : List UInt64

namespace SketchThread

variable (config : SketchConfig) (thresh : ℕ)

/-- `ProcessData` on a record. The sum is compared as an `unsigned long long`. -/
def processData (thread : SketchThread) (record : Record) : Option SketchThread := do
  let (sum, sketch) ← thread.sketch.updateSketch record.1 record.2
  let cand :=
    if (thresh : ℤ) < sum % 2 ^ 64 ∧ record.1 ∉ thread.cand then
      thread.cand.orderedInsert (· ≤ ·) record.1
    else thread.cand
  return ⟨sketch, cand⟩

/-- The index under which a counter is packed, an `int`. -/
def packIndex (i j : ℕ) : Option UInt32 :=
  if i * config.width + j < 2 ^ 31 then some (UInt32.ofNat (i * config.width + j)) else none

/-- The body of the loops of `TerminateWindow`. -/
def packCounter (sketch : CountMin) (item : CMItem) (position : ℕ × ℕ) : Option CMItem := do
  let v ← sketch.getValue position.1 position.2
  if 0 < v then
    let index ← packIndex config position.1 position.2
    return item.appendCounter index v
  else return item

/-- The positions of a sketch, in the order of the loops of `TerminateWindow`. -/
def positions : List (ℕ × ℕ) :=
  (List.range config.row).flatMap fun i => (List.range config.width).map fun j => (i, j)

/-- `TerminateWindow`, with the emitted item. -/
def terminateWindow (thread : SketchThread) : Option CMItem := do
  let item ← (positions config).foldlM (packCounter config thread.sketch) .empty
  return thread.cand.foldl CMItem.appendHH item

/-- A thread gets its records and ends its window. -/
def run (sketch : CountMin) (records : List Record) : Option CMItem := do
  let thread ← records.foldlM (processData thresh) ⟨sketch, []⟩
  thread.terminateWindow config

end SketchThread

/-! ## The merge thread -/

/-- `MergeThread`, with the lines of its output. -/
structure MergeThread where
  sketch : CountMin
  cand : List UInt64
  output : List (UInt64 × ℤ)

namespace MergeThread

variable (config : SketchConfig) (thresh : ℕ)

/-- The merge thread is the first thread of its worker. -/
def create : MergeThread := ⟨(CountMin.create config 0).1, [], []⟩

/-- One counter of an item is added to the sketch. -/
def addCounter (sketch : CountMin) (counter : UInt32 × ℤ) : Option CountMin := do
  let k := counter.1.toNat / config.width
  let j := counter.1.toNat % config.width
  let newV ← addLongLong (← sketch.getValue k j) counter.2
  sketch.setValue k j newV

/-- One key of an item. The estimate is compared as an `unsigned long long`. -/
def reportKey (thread : MergeThread) (key : UInt64) : MergeThread :=
  let e := thread.sketch.getEstimate key % 2 ^ 64
  if (thresh : ℤ) < e ∧ key ∉ thread.cand then
    { thread with
      cand := thread.cand.orderedInsert (· ≤ ·) key
      output := thread.output ++ [(key, e)] }
  else thread

/-- `ProcessData` -/
def processData (thread : MergeThread) (item : CMItem) : Option MergeThread := do
  let sketch ← item.counters.foldlM (addCounter config) thread.sketch
  return item.heavyHitters.foldl (reportKey thresh) { thread with sketch := sketch }

end MergeThread

/-! ## A deployment -/

section Deployment

variable (config : SketchConfig) (thresh : ℕ)

/-- A worker creates the sketches of its compute threads. -/
def createSketches (counter : UInt32) : ℕ → List CountMin
  | 0 => []
  | threads + 1 =>
    let (sketch, counter) := CountMin.create config counter
    sketch :: createSketches counter threads

/-- The compute threads of a worker: their sketches, and the records that each of them
gets. -/
def workerThreads (worker : List (List Record)) : List (CountMin × List Record) :=
  (createSketches config 0 worker.length).zip worker

/-- The items of the compute threads of all workers. -/
def allItems (workers : List (List (List Record))) : Option (List CMItem) :=
  (workers.flatMap (workerThreads config)).mapM fun thread =>
    SketchThread.run config thresh thread.1 thread.2

/-- The sum of the values of a key over all records. -/
def keyTotal (workers : List (List (List Record))) (key : UInt64) : ℤ :=
  ((workers.flatten.flatten.filter fun record => record.1 = key).map Prod.snd).sum

/-- In whatever order the items arrive, the merge thread processes them, and no key is
underestimated afterwards. -/
def NeverUnderestimates (workers : List (List (List Record))) : Prop :=
  ∃ items, allItems config thresh workers = some items ∧
    ∀ arrivals : List CMItem, arrivals.Perm items →
      ∃ merged, arrivals.foldlM (MergeThread.processData config thresh) (.create config) =
          some merged ∧
        ∀ key, keyTotal workers key ≤ merged.sketch.getEstimate key

end Deployment

end AFStream.Apps

/-
# The item of a window, byte by byte

At the end of a window a compute thread writes its positive counters and behind them its
candidates into the buffer of one item. The buffer has a fixed size that does not depend on
the dimensions of the sketch, nothing checks whether there is room, and the merge thread
recomputes the offsets when it reads its copy. The module determines which windows survive.
-/

import AFStream.Apps.CountMinMerge
import AFStream.Foundation.Machine

namespace AFStream.Apps

open AFStream.Foundation AFStream.Operator

/-! ## The buffer -/

/-- `SK_SIZE` counters and `MAX_HH` keys. -/
def rawSize : ℕ := 8000 * (4 + 8) + 100 * 8

/-- An index and a `long long`. -/
def counterCodec : Codec (UInt32 × Int64) := Codec.uint32.pair Codec.int64

/-- The members of `CMItem`; the pointer `start` is an offset in `raw`. -/
structure RawCMItem where
  numCounter : UInt32
  numHH : UInt32
  buffer : Cursor rawSize

namespace RawCMItem

/-- A new item; its memory is not initialised. -/
def create (memory : Block rawSize) : RawCMItem := ⟨0, 0, ⟨memory, 0⟩⟩

/-- `AppendCounter` -/
def appendCounter (item : RawCMItem) (counter : UInt32 × ℤ) : Option RawCMItem := do
  let buffer ← item.buffer.append (counterCodec.encode (counter.1, .ofInt counter.2))
  return { item with numCounter := item.numCounter + 1, buffer := buffer }

/-- `AppendHH` -/
def appendHH (item : RawCMItem) (key : UInt64) : Option RawCMItem := do
  let buffer ← item.buffer.append (Codec.uint64.encode key)
  return { item with numHH := item.numHH + 1, buffer := buffer }

/-- Read a value at an offset of `raw`. -/
def readAt {T : Type} (codec : Codec T) (item : RawCMItem) (offset : ℕ) : Option T :=
  if offset + codec.size ≤ rawSize then
    some (codec.decode ((item.buffer.memory.bytes.drop offset).take codec.size))
  else none

/-- `GetCounter` -/
def getCounter (item : RawCMItem) (n : UInt32) : Option (UInt32 × ℤ) :=
  (item.readAt counterCodec (n.toNat * (4 + 8))).map fun counter => (counter.1, counter.2.toInt)

/-- `GetKey` -/
def getKey (item : RawCMItem) (n : UInt32) : Option UInt64 :=
  item.readAt Codec.uint64 (item.numCounter.toNat * (4 + 8) + n.toNat * 8)

/-- What the loops of the merge thread read from an item. -/
def contents (item : RawCMItem) : List (Option (UInt32 × ℤ)) × List (Option UInt64) :=
  ((List.range item.numCounter.toNat).map fun n => item.getCounter (UInt32.ofNat n),
    (List.range item.numHH.toNat).map fun n => item.getKey (UInt32.ofNat n))

/-- The copy of an item in another place: its pointer has no meaning there. -/
def copy (item : RawCMItem) (start : ℕ) : RawCMItem :=
  { item with buffer := ⟨item.buffer.memory, start⟩ }

end RawCMItem

/-! ## Windows -/

namespace SketchThread

variable (config : SketchConfig) (thresh : ℕ)

/-- The body of the loops of `TerminateWindow`. -/
def appendPositive (sketch : CountMin) (item : RawCMItem) (position : ℕ × ℕ) :
    Option RawCMItem := do
  let v ← sketch.getValue position.1 position.2
  if 0 < v then
    let index ← packIndex config position.1 position.2
    item.appendCounter (index, v)
  else return item

/-- `TerminateWindow` up to the call of `EmitData`. -/
def buildItem (thread : SketchThread) (memory : Block rawSize) : Option RawCMItem := do
  let item ← (positions config).foldlM (appendPositive config thread.sketch) (.create memory)
  thread.cand.foldlM RawCMItem.appendHH item

end SketchThread

/-- A compute thread with the bytes of its window and the items that it has emitted. -/
structure WindowThread where
  thread : SketchThread
  byte : UInt64
  emitted : List RawCMItem

namespace WindowThread

variable (config : SketchConfig) (thresh : ℕ) (window : UInt64)

/-- `TerminateWindow` -/
def terminateWindow (state : WindowThread) (memory : Block rawSize) : Option WindowThread := do
  let item ← state.thread.buildItem config memory
  return ⟨⟨state.thread.sketch.clear, []⟩, 0, state.emitted ++ [item]⟩

/-- `ProcessData` up to the test for the end of the window. -/
def count (state : WindowThread) (record : Record) : Option WindowThread := do
  let thread ← state.thread.processData thresh record
  return { state with thread := thread, byte := state.byte + UInt64.ofInt record.2 }

/-- `ProcessData` on a record, with the memory of the item if there will be one. -/
def processData (state : WindowThread) (input : Record × Block rawSize) :
    Option WindowThread := do
  let state ← state.count thresh input.1
  if window < state.byte then state.terminateWindow config input.2 else return state

/-- A compute thread, by its number in the worker. The bytes are not initialised. -/
def machine (thread : ℕ) (byte : UInt64) : Machine WindowThread (Record × Block rawSize) where
  init := ⟨⟨(CountMin.create config (UInt32.ofNat (thread * config.row))).1, []⟩, byte, []⟩
  step := processData config thresh window

/-- The contents of a window when it ends: the state after a record. -/
def Ends (thread : ℕ) (byte : UInt64) (last : SketchThread) : Prop :=
  ∃ state record next, (machine config thresh window thread byte).Reachable state ∧
    count thresh state record = some next ∧ window < next.byte ∧ next.thread = last

end WindowThread

/-! ## What survives -/

/-- The value at a position of a sketch. -/
def CountMin.valueAt (sketch : CountMin) (position : ℕ × ℕ) : ℤ :=
  (sketch.arrays position.1).array position.2

/-- The positions of the positive counters. -/
def positivePositions (config : SketchConfig) (sketch : CountMin) : List (ℕ × ℕ) :=
  (SketchThread.positions config).filter fun position => 0 < sketch.valueAt position

/-- The item can be built without leaving its buffer, and every copy holds the positive
counters with their positions and the candidates, each once. -/
def Survives (config : SketchConfig) (thread : SketchThread) : Prop :=
  ∀ memory, ∃ item, thread.buildItem config memory = some item ∧
    ∀ start,
      ((item.copy start).contents.1.map (Option.map fun counter => (counter.1.toNat, counter.2))) =
        ((positivePositions config thread.sketch).map fun position =>
          some (position.1 * config.width + position.2, thread.sketch.valueAt position)) ∧
      (item.copy start).contents.2 = thread.cand.map some ∧
      (item.copy start).contents.1.Nodup ∧ (item.copy start).contents.2.Nodup

/-- There is room for the counters and the candidates, and every index is an `int`. -/
structure Room (config : SketchConfig) (thread : SketchThread) : Prop where
  fits : 12 * (positivePositions config thread.sketch).length + 8 * thread.cand.length ≤ rawSize
  indices : ∀ position ∈ positivePositions config thread.sketch,
    position.1 * config.width + position.2 < 2 ^ 31

/-! ## What a window can produce -/

variable {config : SketchConfig} {thresh number : ℕ} {window : UInt64} {thread : SketchThread}

/-- A thread in the middle of a window, by its number in the worker. -/
structure Counted (config : SketchConfig) (number : ℕ) (thread : SketchThread) : Prop where
  holds : Holds config number thread.sketch thread.sketch.valueAt
  range : ∀ position, -2 ^ 63 ≤ thread.sketch.valueAt position ∧
    thread.sketch.valueAt position < 2 ^ 63
  nodup : thread.cand.Nodup

theorem Holds.valueAt_eq {sketch : CountMin} {counters : ℕ × ℕ → ℤ}
    (h : Holds config number sketch counters) : counters = sketch.valueAt := by
  funext position
  exact (h.value_eq position.1 position.2).symm

/-- Zero is a `long long`. -/
theorem zero_range : (-2 ^ 63 : ℤ) ≤ 0 ∧ (0 : ℤ) < 2 ^ 63 := by
  norm_num

theorem counted_create (config : SketchConfig) (number : ℕ) :
    Counted config number
      ⟨(CountMin.create config (UInt32.ofNat (number * config.row))).1, []⟩ where
  holds := (holds_create config number).valueAt_eq ▸ holds_create config number
  range := fun _ => zero_range
  nodup := List.nodup_nil

/-- One record. -/
theorem Counted.processData (h : Counted config number thread) {record : Record}
    {next : SketchThread} (hnext : thread.processData thresh record = some next) :
    Counted config number next := by
  have hholds : ∃ counters, Holds config number next.sketch counters ∧
      ∀ x, -2 ^ 63 ≤ counters x ∧ counters x < 2 ^ 63 := by
    have hrel := h.holds.processRecords thresh [record] thread.cand
    rw [foldlM_singleton] at hrel
    change Option.Rel _ (thread.processData thresh record) _ at hrel
    rw [hnext] at hrel
    generalize hresult : (threadIncrements config number [record]).foldlM addCounters
      thread.sketch.valueAt = result at hrel
    cases hrel with
    | some hstate => exact ⟨_, hstate, foldlM_addAt_range h.range hresult⟩
  obtain ⟨counters, hstate, hrange⟩ := hholds
  obtain rfl := hstate.valueAt_eq
  refine ⟨hstate, hrange, ?_⟩
  obtain ⟨result, -, hresult⟩ := Option.bind_eq_some_iff.mp hnext
  obtain rfl := Option.some.inj hresult
  dsimp only
  split_ifs with hcand
  · exact (List.perm_orderedInsert _ _ _).nodup_iff.mpr (List.nodup_cons.mpr ⟨hcand.2, h.nodup⟩)
  · exact h.nodup

/-- The end of a window. -/
theorem Counted.clear (h : Counted config number thread) :
    Counted config number ⟨thread.sketch.clear, []⟩ := by
  have hloop : ∀ (rows : List ℕ) (sketch : CountMin), Counted config number ⟨sketch, []⟩ →
      Counted config number ⟨rows.foldl (fun sketch i =>
        { sketch with arrays := Function.update sketch.arrays i (sketch.arrays i).clear })
          sketch, []⟩ := by
    intro rows
    induction rows with
    | nil =>
        intro sketch hsketch
        exact hsketch
    | cons i rest ih =>
        intro sketch hsketch
        rw [List.foldl_cons]
        apply ih
        refine ⟨⟨hsketch.holds.row_eq, hsketch.holds.width_eq, hsketch.holds.bucket_eq,
          fun _ _ => rfl⟩, ?_, List.nodup_nil⟩
        rintro ⟨k, j⟩
        simp only [CountMin.valueAt]
        by_cases hk : k = i
        · subst hk
          rw [Function.update_self]
          exact zero_range
        · rw [Function.update_of_ne hk]
          exact hsketch.range (k, j)
  exact hloop _ thread.sketch ⟨h.holds, h.range, List.nodup_nil⟩

theorem WindowThread.counted_of_ends {byte : UInt64} {last : SketchThread}
    (h : WindowThread.Ends config thresh window number byte last) :
    Counted config number last := by
  have hcount : ∀ {state next : WindowThread} {record : Record},
      Counted config number state.thread → count thresh state record = some next →
      Counted config number next.thread := by
    intro state next record hstate hnext
    obtain ⟨thread, hthread, hresult⟩ := Option.bind_eq_some_iff.mp hnext
    obtain rfl := Option.some.inj hresult
    exact hstate.processData hthread
  obtain ⟨state, record, next, hreach, hnext, -, rfl⟩ := h
  refine hcount ?_ hnext
  refine hreach.invariant (fun state => Counted config number state.thread)
    (counted_create config number) ?_
  intro state input target hstate htarget
  obtain ⟨middle, hmiddle, htarget⟩ := Option.bind_eq_some_iff.mp htarget
  have hmiddle' := hcount hstate hmiddle
  split_ifs at htarget
  · obtain ⟨item, -, hresult⟩ := Option.bind_eq_some_iff.mp htarget
    obtain rfl := Option.some.inj hresult
    exact hmiddle'.clear
  · obtain rfl := Option.some.inj htarget
    exact hmiddle'

/-! ## Filling the buffer -/

/-- The bytes of counters and keys. -/
def layoutItem (counters : List (UInt32 × ℤ)) (keys : List UInt64) : List UInt8 :=
  (counters.map fun counter => (counter.1, Int64.ofInt counter.2)).flatMap counterCodec.encode ++
    keys.flatMap Codec.uint64.encode

/-- An item holds counters and keys. -/
structure Encodes (counters : List (UInt32 × ℤ)) (keys : List UInt64) (item : RawCMItem) :
    Prop where
  numCounter_eq : item.numCounter.toNat = counters.length
  numHH_eq : item.numHH.toNat = keys.length
  wrote : item.buffer.Wrote (layoutItem counters keys)

variable {counters : List (UInt32 × ℤ)} {keys : List UInt64} {item : RawCMItem}

theorem length_layoutItem (counters : List (UInt32 × ℤ)) (keys : List UInt64) :
    (layoutItem counters keys).length = 12 * counters.length + 8 * keys.length := by
  rw [layoutItem, List.length_append, Codec.length_flatMap_encode, Codec.length_flatMap_encode,
    List.length_map]
  rfl

theorem Encodes.length_le (h : Encodes counters keys item) :
    12 * counters.length + 8 * keys.length ≤ rawSize := by
  rw [← length_layoutItem]
  exact h.wrote.length_le

theorem encodes_create (memory : Block rawSize) : Encodes [] [] (.create memory) :=
  ⟨rfl, rfl, rfl, memory.bytes, rfl⟩

/-- The counters of an item do not wrap around. -/
theorem toNat_succ {count : UInt32} {n : ℕ} (hcount : count.toNat = n) (hn : n ≤ rawSize) :
    (count + 1).toNat = n + 1 := by
  have hlt : n + 1 < 2 ^ 32 := Nat.lt_of_le_of_lt (Nat.succ_le_succ hn) (by decide)
  rw [UInt32.toNat_add, hcount]
  exact Nat.mod_eq_of_lt hlt

/-- `AppendCounter`, while no key has been appended. -/
theorem Encodes.appendCounter (h : Encodes counters [] item) (counter : UInt32 × ℤ)
    (hroom : 0 + 12 * (counters.length + 1) ≤ rawSize) :
    ∃ item', item.appendCounter counter = some item' ∧
      Encodes (counters ++ [counter]) [] item' := by
  have hlength : (counterCodec.encode (counter.1, .ofInt counter.2)).length = 12 :=
    counterCodec.length_encode _
  have hfits : (layoutItem counters []).length +
      (counterCodec.encode (counter.1, .ofInt counter.2)).length ≤ rawSize := by
    rw [length_layoutItem, hlength, List.length_nil]
    omega
  obtain ⟨buffer, hbuffer, hwrote⟩ := h.wrote.append hfits
  refine ⟨{ item with numCounter := item.numCounter + 1, buffer := buffer }, ?_, ?_, h.numHH_eq, ?_⟩
  · rw [RawCMItem.appendCounter, hbuffer]
    rfl
  · rw [List.length_append, List.length_singleton]
    apply toNat_succ h.numCounter_eq
    omega
  · have hlayout : layoutItem (counters ++ [counter]) [] =
        layoutItem counters [] ++ counterCodec.encode (counter.1, .ofInt counter.2) := by
      simp [layoutItem]
    rw [hlayout]
    exact hwrote

theorem Encodes.appendCounter_eq_none (h : Encodes counters [] item) (counter : UInt32 × ℤ)
    (hroom : ¬ 0 + 12 * (counters.length + 1) ≤ rawSize) :
    item.appendCounter counter = none := by
  have hlength : (counterCodec.encode (counter.1, .ofInt counter.2)).length = 12 :=
    counterCodec.length_encode _
  rw [RawCMItem.appendCounter, h.wrote.append_eq_none]
  · rfl
  · rw [length_layoutItem, hlength, List.length_nil]
    omega

/-- `AppendHH` -/
theorem Encodes.appendHH (h : Encodes counters keys item) (key : UInt64)
    (hroom : 12 * counters.length + 8 * (keys.length + 1) ≤ rawSize) :
    ∃ item', item.appendHH key = some item' ∧ Encodes counters (keys ++ [key]) item' := by
  have hfits : (layoutItem counters keys).length + (Codec.uint64.encode key).length ≤ rawSize := by
    rw [length_layoutItem, Codec.uint64.length_encode]
    exact hroom
  obtain ⟨buffer, hbuffer, hwrote⟩ := h.wrote.append hfits
  refine ⟨{ item with numHH := item.numHH + 1, buffer := buffer }, ?_, h.numCounter_eq, ?_, ?_⟩
  · rw [RawCMItem.appendHH, hbuffer]
    rfl
  · rw [List.length_append, List.length_singleton]
    apply toNat_succ h.numHH_eq
    omega
  · have hlayout : layoutItem counters (keys ++ [key]) =
        layoutItem counters keys ++ Codec.uint64.encode key := by
      simp [layoutItem]
    rw [hlayout]
    exact hwrote

theorem Encodes.appendHH_eq_none (h : Encodes counters keys item) (key : UInt64)
    (hroom : ¬ 12 * counters.length + 8 * (keys.length + 1) ≤ rawSize) :
    item.appendHH key = none := by
  rw [RawCMItem.appendHH, h.wrote.append_eq_none]
  · rfl
  · rw [length_layoutItem, Codec.uint64.length_encode]
    exact hroom

/-- Counters and keys are appended exactly when the buffer has room for all of them. -/
theorem append_all (counters : List (UInt32 × ℤ)) (keys : List UInt64) (memory : Block rawSize) :
    (12 * counters.length + 8 * keys.length ≤ rawSize →
      ∃ item, ((counters.foldlM RawCMItem.appendCounter (.create memory)).bind
        (keys.foldlM RawCMItem.appendHH)) = some item ∧ Encodes counters keys item) ∧
    (¬ 12 * counters.length + 8 * keys.length ≤ rawSize →
      ((counters.foldlM RawCMItem.appendCounter (.create memory)).bind
        (keys.foldlM RawCMItem.appendHH)) = none) := by
  obtain ⟨hsome, hnone⟩ := @foldlM_fill _ _ RawCMItem.appendCounter
    (fun done item => Encodes done [] item) 0 12 rawSize
    (fun h => (Nat.zero_add _).le.trans h.length_le)
    (fun h hroom => h.appendCounter _ hroom) (fun h hroom => h.appendCounter_eq_none _ hroom)
    counters [] (.create memory) (encodes_create memory)
  rw [List.length_nil, Nat.zero_add, Nat.zero_add] at hsome hnone
  by_cases hroom : 12 * counters.length ≤ rawSize
  · obtain ⟨item, hitem, hencodes⟩ := hsome hroom
    rw [List.nil_append] at hencodes
    obtain ⟨hsome', hnone'⟩ := @foldlM_fill _ _ RawCMItem.appendHH
      (fun done item => Encodes counters done item) (12 * counters.length) 8 rawSize
      (fun h => h.length_le) (fun h hroom => h.appendHH _ hroom)
      (fun h hroom => h.appendHH_eq_none _ hroom) keys [] item hencodes
    rw [List.length_nil, Nat.zero_add] at hsome' hnone'
    rw [hitem, Option.bind_some]
    exact ⟨hsome', hnone'⟩
  · rw [hnone hroom, Option.bind_none]
    refine ⟨fun hall => absurd ((Nat.le_add_right _ _).trans hall) hroom, fun _ => rfl⟩

/-- The loops of `TerminateWindow` append the positive counters. -/
theorem Holds.appendPositives {sketch : CountMin} {total : ℕ × ℕ → ℤ}
    (h : Holds config number sketch total) (item item' : RawCMItem) {positions : List (ℕ × ℕ)}
    (hpositions : ∀ position ∈ positions, position.1 < config.row ∧ position.2 < config.width) :
    positions.foldlM (SketchThread.appendPositive config sketch) item = some item' ↔
      (∀ position ∈ positions, 0 < total position →
        position.1 * config.width + position.2 < 2 ^ 31) ∧
      (packed config total positions).foldlM RawCMItem.appendCounter item = some item' := by
  apply foldlM_packed
  intro item position hposition
  obtain ⟨hi, hj⟩ := hpositions position hposition
  simp only [SketchThread.appendPositive, h.getValue hi hj, Option.bind_eq_bind, Option.bind_some,
    SketchThread.packIndex]
  split_ifs <;> rfl

/-! ## Reading it back -/

/-- A value that has been written is read from every copy. -/
theorem readAt_copy {T : Type} (codec : Codec T) {before after : List UInt8} {values : List T}
    (h : item.buffer.Wrote (before ++ (values.flatMap codec.encode ++ after))) (start : ℕ) {n : ℕ}
    {value : T} (hvalue : values[n]? = some value) :
    (item.copy start).readAt codec (before.length + codec.size * n) = some value := by
  obtain ⟨rest, hbytes⟩ := h.bytes_eq
  have hlt : n < values.length := (List.getElem?_eq_some_iff.mp hvalue).1
  have hinside : before.length + codec.size * n + codec.size ≤ rawSize := by
    have hlength := h.length_le
    rw [List.length_append, List.length_append, codec.length_flatMap_encode] at hlength
    calc
      before.length + codec.size * n + codec.size = before.length + codec.size * (n + 1) := by ring
      _ ≤ before.length + codec.size * values.length := by gcongr; exact hlt
      _ ≤ rawSize := by omega
  rw [RawCMItem.readAt, if_pos hinside]
  change some (codec.decode ((item.buffer.memory.bytes.drop _).take _)) = _
  rw [hbytes, List.append_assoc, List.append_assoc]
  exact congrArg some (codec.decode_drop_flatMap hvalue before (after ++ rest))

/-- A loop that reads all values. -/
theorem map_range_eq {T : Type} {values : List T} {count : UInt32}
    (hcount : count.toNat = values.length) {read : UInt32 → Option T}
    (hread : ∀ n value, values[n]? = some value → read (UInt32.ofNat n) = some value) :
    ((List.range count.toNat).map fun n => read (UInt32.ofNat n)) = values.map some := by
  rw [hcount]
  apply List.ext_getElem
  · rw [List.length_map, List.length_map, List.length_range]
  · intro n hn _
    rw [List.length_map, List.length_range] at hn
    rw [List.getElem_map, List.getElem_map, List.getElem_range]
    exact hread n _ (List.getElem?_eq_getElem hn)

theorem toNat_ofNat_of_getElem? {T : Type} {values : List T} (hlength : values.length ≤ rawSize)
    {n : ℕ} {value : T} (hvalue : values[n]? = some value) : (UInt32.ofNat n).toNat = n := by
  have hlt : n < values.length := (List.getElem?_eq_some_iff.mp hvalue).1
  apply UInt32.toNat_ofNat_of_lt
  exact (hlt.trans_le hlength).trans (by decide)

/-- The merge thread reads what has been appended. -/
theorem Encodes.contents (h : Encodes counters keys item)
    (hrange : ∀ counter ∈ counters, -2 ^ 63 ≤ counter.2 ∧ counter.2 < 2 ^ 63) (start : ℕ) :
    (item.copy start).contents = (counters.map some, keys.map some) := by
  have hlength := h.length_le
  refine Prod.ext ?_ ?_
  · apply map_range_eq (show (item.copy start).numCounter.toNat = _ from h.numCounter_eq)
    intro n counter hcounter
    have hn := toNat_ofNat_of_getElem? (by omega) hcounter
    have hmem : counter ∈ counters := List.mem_of_getElem? hcounter
    have hvalue : (counters.map fun counter => (counter.1, Int64.ofInt counter.2))[n]? =
        some (counter.1, Int64.ofInt counter.2) := by
      rw [List.getElem?_map, hcounter]
      rfl
    have hwrote : item.buffer.Wrote ([] ++ (_ ++ _)) := h.wrote
    have hread := readAt_copy counterCodec hwrote start hvalue
    rw [List.length_nil, Nat.zero_add, Nat.mul_comm] at hread
    rw [RawCMItem.getCounter, hn]
    change Option.map _ ((item.copy start).readAt counterCodec (n * counterCodec.size)) = _
    rw [hread, Option.map_some]
    dsimp only
    rw [Int64.toInt_ofInt_of_le (hrange counter hmem).1 (hrange counter hmem).2]
  · apply map_range_eq (show (item.copy start).numHH.toNat = _ from h.numHH_eq)
    intro n key hkey
    have hn := toNat_ofNat_of_getElem? (by omega) hkey
    have hwrote := h.wrote
    rw [layoutItem, ← List.append_nil (keys.flatMap _)] at hwrote
    have hread := readAt_copy Codec.uint64 hwrote start hkey
    rw [Codec.length_flatMap_encode, List.length_map] at hread
    rw [RawCMItem.getKey, hn]
    change (item.copy start).readAt Codec.uint64 (item.numCounter.toNat * 12 + n * 8) = _
    rw [h.numCounter_eq, Nat.mul_comm _ 12, Nat.mul_comm n 8]
    exact hread

/-! ## Which windows survive -/

/-- The item of a window. -/
theorem Counted.buildItem (h : Counted config number thread) (memory : Block rawSize)
    (item : RawCMItem) :
    thread.buildItem config memory = some item ↔
      (∀ position ∈ positivePositions config thread.sketch,
        position.1 * config.width + position.2 < 2 ^ 31) ∧
      ((packed config thread.sketch.valueAt (SketchThread.positions config)).foldlM
        RawCMItem.appendCounter (.create memory)).bind
          (thread.cand.foldlM RawCMItem.appendHH) = some item := by
  have hpositive : (∀ position ∈ positivePositions config thread.sketch,
      position.1 * config.width + position.2 < 2 ^ 31) ↔
      ∀ position ∈ SketchThread.positions config, 0 < thread.sketch.valueAt position →
        position.1 * config.width + position.2 < 2 ^ 31 := by
    simp only [positivePositions, List.mem_filter, decide_eq_true_eq, and_imp]
  rw [SketchThread.buildItem, hpositive, Option.bind_eq_bind, Option.bind_eq_some_iff,
    Option.bind_eq_some_iff]
  simp only [h.holds.appendPositives (.create memory) _ fun _ => mem_positions.mp]
  constructor
  · rintro ⟨middle, ⟨hindices, hmiddle⟩, hitem⟩
    exact ⟨hindices, middle, hmiddle, hitem⟩
  · rintro ⟨hindices, middle, hmiddle, hitem⟩
    exact ⟨middle, ⟨hindices, hmiddle⟩, hitem⟩

theorem length_packed_positions (config : SketchConfig) (sketch : CountMin) :
    (packed config sketch.valueAt (SketchThread.positions config)).length =
      (positivePositions config sketch).length := by
  rw [packed, List.length_map]
  rfl

/-- The indices of the positive counters differ. -/
theorem nodup_packed_positions {sketch : CountMin}
    (hindices : ∀ position ∈ positivePositions config sketch,
      position.1 * config.width + position.2 < 2 ^ 31) :
    (packed config sketch.valueAt (SketchThread.positions config)).Nodup := by
  rw [packed]
  apply List.Nodup.map_on _ ((nodup_positions config).filter _)
  intro p hp q hq hpq
  have hindex := congrArg Prod.fst hpq
  have hp' := mem_positions.mp (List.mem_filter.mp hp).1
  have hq' := mem_positions.mp (List.mem_filter.mp hq).1
  obtain ⟨hdiv, hmod⟩ := unpack_index hp'.2 (hindices p hp)
  obtain ⟨hdiv', hmod'⟩ := unpack_index hq'.2 (hindices q hq)
  dsimp only at hindex
  rw [hindex] at hdiv hmod
  exact Prod.ext (hdiv.symm.trans hdiv') (hmod.symm.trans hmod')

theorem heavyHitters_foldl_appendHH (keys : List UInt64) (item : CMItem) :
    (keys.foldl CMItem.appendHH item).heavyHitters = item.heavyHitters ++ keys := by
  induction keys generalizing item with
  | nil => exact (List.append_nil _).symm
  | cons key rest ih =>
      rw [List.foldl_cons, ih, CMItem.appendHH, List.append_assoc, List.singleton_append]

/-- **The bytes of an item.** An item that is written inside its buffer encodes the counters
and keys of the window. -/
theorem Counted.encodes_terminateWindow (h : Counted config number thread)
    {memory : Block rawSize} {item : RawCMItem} (hitem : thread.buildItem config memory = some item) :
    ∃ window, thread.terminateWindow config = some window ∧ window.Fits ∧
      Encodes window.counters window.heavyHitters item := by
  obtain ⟨hindices, hloops⟩ := (h.buildItem memory item).mp hitem
  have hpackable : Packable config thread.sketch.valueAt := by
    intro position hmem hpos
    exact hindices position (List.mem_filter.mpr ⟨hmem, decide_eq_true hpos⟩)
  obtain ⟨hiff, hcounters⟩ := h.holds.terminateWindow
  obtain ⟨window, hwindow⟩ := hiff.mpr hpackable
  have hkeys : window.heavyHitters = thread.cand := by
    obtain ⟨packedItem, hpacked, hresult⟩ := Option.bind_eq_some_iff.mp hwindow
    obtain rfl := Option.some.inj hresult
    have hempty := ((h.holds.packCounters .empty packedItem fun _ => mem_positions.mp).mp
      hpacked).2
    rw [heavyHitters_foldl_appendHH, hempty]
    rfl
  have hfits : 12 * window.counters.length + 8 * window.heavyHitters.length ≤ rawSize := by
    by_contra hlarge
    rw [hcounters window hwindow, hkeys] at hlarge
    rw [(append_all _ thread.cand memory).2 hlarge] at hloops
    cases hloops
  refine ⟨window, hwindow, hfits, ?_⟩
  rw [hcounters window hwindow, hkeys] at hfits ⊢
  obtain ⟨item', hloops', hencodes⟩ := (append_all _ thread.cand memory).1 hfits
  obtain rfl := Option.some.inj (hloops'.symm.trans hloops)
  exact hencodes

/-- A window that survives has room in the buffer, and all its indices are representable. -/
theorem Survives.room {byte : UInt64} {last : SketchThread} (hsurvives : Survives config last)
    (hends : WindowThread.Ends config thresh window number byte last) : Room config last := by
  have h := WindowThread.counted_of_ends hends
  obtain ⟨item, hitem, -⟩ := hsurvives .zero
  obtain ⟨hindices, hloops⟩ := (h.buildItem .zero item).mp hitem
  refine ⟨?_, hindices⟩
  by_contra hlarge
  rw [← length_packed_positions] at hlarge
  rw [(append_all _ last.cand .zero).2 hlarge] at hloops
  cases hloops

/-- **Which windows survive.** For all dimensions of the sketch and whatever has been counted
when a window ends: the item is written inside its buffer and the merge thread reads back the
positive counters and the candidates, each once, exactly when they have room in the buffer and
all indices are representable. -/
theorem window_survives_iff {byte : UInt64} {last : SketchThread}
    (hends : WindowThread.Ends config thresh window number byte last) :
    Survives config last ↔ Room config last := by
  have h := WindowThread.counted_of_ends hends
  constructor
  · exact fun hsurvives => hsurvives.room hends
  · intro hroom memory
    have hfits := hroom.fits
    rw [← length_packed_positions] at hfits
    obtain ⟨item, hloops, hencodes⟩ := (append_all _ last.cand memory).1 hfits
    refine ⟨item, (h.buildItem memory item).mpr ⟨hroom.indices, hloops⟩, fun start => ?_⟩
    have hrange : ∀ counter ∈ packed config last.sketch.valueAt (SketchThread.positions config),
        -2 ^ 63 ≤ counter.2 ∧ counter.2 < 2 ^ 63 := by
      intro counter hcounter
      obtain ⟨position, -, rfl⟩ := List.mem_map.mp hcounter
      exact h.range position
    rw [hencodes.contents hrange start]
    refine ⟨?_, rfl, ?_, ?_⟩
    · rw [List.map_map, packed, List.map_map]
      apply List.map_congr_left
      intro position hposition
      have hcast : (UInt32.ofNat (position.1 * config.width + position.2)).toNat =
          position.1 * config.width + position.2 :=
        UInt32.toNat_ofNat_of_lt ((hroom.indices position hposition).trans (by decide))
      simp only [Function.comp_apply, Option.map_some, hcast]
    · exact (nodup_packed_positions hroom.indices).map (Option.some_injective _)
    · exact h.nodup.map (Option.some_injective _)

/-! ## A sketch with one counter -/

theorem one_lt_int : 1 < 2 ^ 31 := by decide

/-- One row with one bucket. -/
def tinyConfig : SketchConfig :=
  ⟨1, 1, Nat.one_pos, Nat.one_pos, one_lt_int, one_lt_int⟩

/-- The keys below a bound have been counted once. -/
structure Ones (n : ℕ) (state : WindowThread) : Prop where
  row_eq : state.thread.sketch.row = 1
  width_eq : state.thread.sketch.width = 1
  bucket_eq : ∀ key, state.thread.sketch.bucket 0 key = 0
  value_eq : state.thread.sketch.valueAt (0, 0) = n
  length_eq : state.thread.cand.length = n
  lt_of_mem : ∀ key ∈ state.thread.cand, key.toNat < n
  byte_eq : state.byte = UInt64.ofNat n

variable {state : WindowThread} {n : ℕ}

/-- The thread is new. -/
def tinyMachine (window : UInt64) : Machine WindowThread (Record × Block rawSize) :=
  WindowThread.machine tinyConfig 0 window 0 0

theorem ones_init (window : UInt64) : Ones 0 (tinyMachine window).init where
  row_eq := rfl
  width_eq := rfl
  bucket_eq := fun key => by
    have hbucket := (counted_create tinyConfig 0).holds.bucket_eq 0 (by decide) key
    exact hbucket.trans (Nat.lt_one_iff.mp (threadBucket_lt tinyConfig 0 0 key))
  value_eq := rfl
  length_eq := rfl
  lt_of_mem := fun _ h => absurd h List.not_mem_nil
  byte_eq := rfl

/-- The only counter is incremented. -/
theorem Ones.updateSketch (h : Ones n state) (hn : n < 2 ^ 62) (key : UInt64) :
    ∃ sketch, state.thread.sketch.updateSketch key 1 = some ((n : ℤ) + 1, sketch) ∧
      sketch.row = 1 ∧ sketch.width = 1 ∧ (∀ key, sketch.bucket 0 key = 0) ∧
      sketch.valueAt (0, 0) = (n : ℤ) + 1 := by
  have hinside : 0 < state.thread.sketch.row ∧ 0 < state.thread.sketch.width := by
    rw [h.row_eq, h.width_eq]
    exact ⟨by decide, by decide⟩
  have hrange : (-2 ^ 63 : ℤ) ≤ (n : ℤ) + 1 ∧ (n : ℤ) + 1 < 2 ^ 63 := by omega
  have hget : state.thread.sketch.getValue 0 0 = some (n : ℤ) :=
    (if_pos hinside).trans (congrArg some h.value_eq)
  have hadd : addLongLong n 1 = some ((n : ℤ) + 1) := if_pos hrange
  refine ⟨{ state.thread.sketch with
    arrays := Function.update state.thread.sketch.arrays 0
      ((state.thread.sketch.arrays 0).updateValue (UInt32.ofNat 0) ((n : ℤ) + 1)) }, ?_,
    h.row_eq, h.width_eq, h.bucket_eq, ?_⟩
  · rw [CountMin.updateSketch, h.row_eq, List.range_one, foldlM_singleton]
    rw [CountMin.updateRow]
    dsimp only
    rw [h.bucket_eq, hget, Option.bind_eq_bind, Option.bind_some, hadd, Option.bind_some,
      CountMin.setValue, if_pos hinside, Option.bind_eq_bind, Option.bind_some,
      if_pos (Or.inl rfl), Option.pure_def]
  · simp only [CountMin.valueAt, Function.update_self, NumericArrayMax.array_updateValue]
    exact Function.update_self _ _ _

/-- The next key becomes a candidate at once: the threshold is zero. -/
theorem Ones.count (h : Ones n state) (hn : n < 2 ^ 62) :
    ∃ next, state.count 0 (UInt64.ofNat n, 1) = some next ∧ Ones (n + 1) next := by
  have hkey : (UInt64.ofNat n).toNat = n :=
    UInt64.toNat_ofNat_of_lt' (hn.trans (by decide))
  have hnew : UInt64.ofNat n ∉ state.thread.cand := by
    intro hmem
    have hlt := h.lt_of_mem _ hmem
    rw [hkey] at hlt
    exact Nat.lt_irrefl n hlt
  have hsum : ((0 : ℕ) : ℤ) < ((n : ℤ) + 1) % 2 ^ 64 := by
    rw [Int.emod_eq_of_lt (by omega) (by omega)]
    omega
  obtain ⟨sketch, hupdate, hrow, hwidth, hbucket, hvalue⟩ := h.updateSketch hn (UInt64.ofNat n)
  refine ⟨⟨⟨sketch, state.thread.cand.orderedInsert (· ≤ ·) (UInt64.ofNat n)⟩,
    state.byte + UInt64.ofInt 1, state.emitted⟩, ?_, hrow, hwidth, hbucket, ?_, ?_, ?_, ?_⟩
  · rw [WindowThread.count, SketchThread.processData, hupdate]
    simp only [Option.bind_eq_bind, Option.bind_some, if_pos (And.intro hsum hnew)]
    rfl
  · rw [hvalue, Nat.cast_succ]
  · rw [List.orderedInsert_length, h.length_eq]
  · intro key hmem
    rcases (List.mem_orderedInsert (· ≤ ·)).mp hmem with rfl | hold
    · rw [hkey]
      exact Nat.lt_succ_self n
    · exact (h.lt_of_mem key hold).trans (Nat.lt_succ_self n)
  · dsimp only
    rw [h.byte_eq, UInt64.ofNat_add]
    rfl

/-- While the window has room for them, the keys are counted one after the other. -/
theorem exists_ones (window : ℕ) (hwindow : window < 2 ^ 62) (n : ℕ) (hn : n ≤ window) :
    ∃ state, (tinyMachine (UInt64.ofNat window)).Reachable state ∧ Ones n state := by
  induction n with
  | zero => exact ⟨_, Machine.reachable_init, ones_init _⟩
  | succ n ih =>
      obtain ⟨state, hreach, hones⟩ := ih (Nat.le_of_succ_le hn)
      obtain ⟨next, hcount, hnext⟩ := hones.count (Nat.lt_of_lt_of_le hn hwindow.le)
      have hopen : ¬ UInt64.ofNat window < next.byte := by
        rw [hnext.byte_eq, UInt64.lt_iff_toNat_lt, UInt64.toNat_ofNat_of_lt',
          UInt64.toNat_ofNat_of_lt']
        · omega
        · exact (hn.trans_lt hwindow).trans (by decide)
        · exact hwindow.trans (by decide)
      have hstep : WindowThread.processData tinyConfig 0 (UInt64.ofNat window) state
          ((UInt64.ofNat n, 1), .zero) = some next := by
        rw [WindowThread.processData, hcount, Option.bind_eq_bind, Option.bind_some, if_neg hopen,
          Option.pure_def]
      exact ⟨next, hreach.step hstep, hnext⟩

/-- One more key than the window allows ends it. -/
theorem exists_ends (window : ℕ) (hwindow : window < 2 ^ 62) :
    ∃ next, WindowThread.Ends tinyConfig 0 (UInt64.ofNat window) 0 0 next.thread ∧
      Ones (window + 1) next := by
  obtain ⟨state, hreach, hones⟩ := exists_ones window hwindow window le_rfl
  obtain ⟨next, hcount, hnext⟩ := hones.count hwindow
  refine ⟨next, ⟨state, _, next, hreach, hcount, ?_, rfl⟩, hnext⟩
  rw [hnext.byte_eq, UInt64.lt_iff_toNat_lt, UInt64.toNat_ofNat_of_lt', UInt64.toNat_ofNat_of_lt']
  · exact Nat.lt_succ_self window
  · exact Nat.lt_of_le_of_lt hwindow (by decide)
  · exact hwindow.trans (by decide)

theorem Ones.positivePositions (h : Ones (n + 1) state) :
    positivePositions tinyConfig state.thread.sketch = [(0, 0)] := by
  have hpositions : SketchThread.positions tinyConfig = [(0, 0)] := rfl
  have hpos : 0 < state.thread.sketch.valueAt (0, 0) := by
    rw [h.value_eq]
    exact Int.natCast_pos.mpr (Nat.succ_pos n)
  rw [Apps.positivePositions, hpositions, List.filter_singleton, decide_eq_true hpos]
  rfl

/-- A window of one record. -/
theorem window_survives_iff_one_record :
    ∃ last, WindowThread.Ends tinyConfig 0 0 0 0 last ∧ Survives tinyConfig last := by
  obtain ⟨next, hends, hones⟩ := exists_ends 0 (by decide)
  refine ⟨next.thread, hends, (window_survives_iff hends).mpr ⟨?_, ?_⟩⟩
  · rw [hones.positivePositions, hones.length_eq]
    decide
  · rw [hones.positivePositions]
    decide

/-- A window with 12099 keys over a threshold of zero: with their only counter the candidates
take four bytes more than the buffer has. -/
theorem window_overflows :
    ∃ last, WindowThread.Ends tinyConfig 0 12098 0 0 last ∧ ¬ Survives tinyConfig last := by
  obtain ⟨next, hends, hones⟩ := exists_ends 12098 (by decide)
  refine ⟨next.thread, hends, fun hsurvives => ?_⟩
  have hfits := (hsurvives.room hends).fits
  rw [hones.positivePositions, hones.length_eq] at hfits
  exact absurd hfits (by decide)

end AFStream.Apps

/-
# Estimates after crashes

A sketch keeps every row in a `NumericArray_MAX` of its own, and a row is only saved when it is
farther from its backup than the threshold. The module runs a whole sketch, with exact counters and
the items that the backup server holds for its rows, through the records up to the first `Clear`,
losses and crashes. Every row does what an array operator does, so its counters have the error of
approximate recovery, and the estimates, as minima of counters, have no larger one.
-/

import AFStream.Apps.CountMinEstimate
import AFStream.Operator.BoundedError

namespace AFStream.Apps

open AFStream.Foundation AFStream.Operator

/-- A sketch, and for each row the items that the backup server holds for it. -/
structure BackedUpSketch where
  sketch : ExactSketch
  stores : ℕ → KeyedSlots UInt32 ℤ

/-- What happens to a sketch thread and to its records. The worker may crash between two iterations
of the compute loop, or with a record in which only the first rows have been checked. -/
inductive SketchEvent
  | process (key : UInt64) (value : ℤ)
  | poll
  | lose (key : UInt64) (value : ℤ)
  | crash
  | interrupt (key : UInt64) (value : ℤ) (checked : ℕ)

namespace SketchEvent

/-- The records for the sketch, those that are lost included. -/
def record? : SketchEvent → Option Record
  | .process key value => some (key, value)
  | .lose key value => some (key, value)
  | .interrupt key value _ => some (key, value)
  | _ => none

def isCrash : SketchEvent → Bool
  | .crash => true
  | .interrupt .. => true
  | _ => false

/-- The value of a record that may be lost. -/
def lostValue : SketchEvent → ℤ
  | .lose _ value => value
  | .interrupt _ value _ => value
  | _ => 0

/-- A record for one row. -/
def change (hash : ℕ → UInt64 → ℕ) (i : ℕ) (key : UInt64) (value : ℤ) : RecordChange :=
  .add (UInt32.ofNat (hash i key)) value

/-- What an event is for one row. A row that has been checked before a crash has its record. -/
def forRow (hash : ℕ → UInt64 → ℕ) (i : ℕ) : SketchEvent → List FaultEvent
  | .process key value => [.process (change hash i key value)]
  | .poll => [.poll]
  | .lose key value => [.lose (change hash i key value)]
  | .crash => [.crash]
  | .interrupt key value checked =>
      if i < checked then [.process (change hash i key value), .crash]
      else [.lose (change hash i key value), .crash]

theorem forall_record_tail {P : Record → Prop} {event : SketchEvent} {rest : List SketchEvent}
    (h : ∀ record ∈ (event :: rest).filterMap record?, P record) :
    ∀ record ∈ rest.filterMap record?, P record := by
  intro record hrecord
  obtain ⟨other, hother, hsome⟩ := List.mem_filterMap.mp hrecord
  exact h record (List.mem_filterMap.mpr ⟨other, List.mem_cons_of_mem _ hother, hsome⟩)

/-- What the events may cost: a threshold for each crash, and the values that may be lost. -/
def budget (thresh : ℚ) (events : List SketchEvent) : ℚ :=
  events.countP isCrash * thresh + (events.map lostValue).sum

end SketchEvent

namespace BackedUpSketch

/-- A row, as an operator with its items. -/
def rowOf (w : BackedUpSketch) (i : ℕ) : BackedUp := ⟨.max (w.sketch.arrays i), w.stores i⟩

/-- A row is replaced. -/
def setRow (w : BackedUpSketch) (i : ℕ) (s : BackedUp) : Option BackedUpSketch :=
  match s.op with
  | .max array =>
      some ⟨w.sketch.setArray i array, Function.update w.stores i s.store⟩
  | _ => none

/-- A loop over the first rows. -/
def forRows (w : BackedUpSketch) (n : ℕ) (f : BackedUp → Option BackedUp) : Option BackedUpSketch :=
  (List.range n).foldlM (fun w i => (f (w.rowOf i)).bind (w.setRow i)) w

/-- `UpdateSketch` -/
def updateSketch (w : BackedUpSketch) (key : UInt64) (value : ℤ) : BackedUpSketch :=
  { w with sketch := (w.sketch.updateSketch key value).2 }

/-- The checks of the first rows. -/
def checkRows (thresh : ℚ) (n : ℕ) (w : BackedUpSketch) : Option BackedUpSketch :=
  w.forRows n (·.step thresh .check)

/-- The sketch of a restarted worker. The seeds of the hash functions are counted from zero in every
process, so it has the same functions. -/
def recoverRows (w : BackedUpSketch) : Option BackedUpSketch :=
  w.forRows w.sketch.row fun s =>
    (s.recovered .max w.sketch.width).map fun op => { s with op := op }

/-- One event: an iteration of the compute loop with a record or without one, a record that does
not arrive, or a crash. -/
def step (thresh : ℚ) (w : BackedUpSketch) : SketchEvent → Option BackedUpSketch
  | .process key value => (w.updateSketch key value).checkRows thresh w.sketch.row
  | .poll => w.checkRows thresh w.sketch.row
  | .lose _ _ => some w
  | .crash => w.recoverRows
  | .interrupt key value checked =>
      ((w.updateSketch key value).checkRows thresh (min checked w.sketch.row)).bind recoverRows

/-- All runs of a new sketch. -/
def machine (row width : ℕ) (hash : ℕ → UInt64 → ℕ) (thresh : ℚ) :
    Machine BackedUpSketch SketchEvent where
  init := ⟨.create row width hash, fun _ => .empty⟩
  step := step thresh

/-! ## The rows of a sketch -/

variable {row width : ℕ} {hash : ℕ → UInt64 → ℕ} {thresh : ℚ} {w w' : BackedUpSketch}

/-- The sketches have the same dimensions and hash functions. -/
structure SameShape (w w' : BackedUpSketch) : Prop where
  row_eq : w'.sketch.row = w.sketch.row
  width_eq : w'.sketch.width = w.sketch.width
  hash_eq : w'.sketch.hash = w.sketch.hash

theorem SameShape.trans {w'' : BackedUpSketch} (h : w.SameShape w') (h' : w'.SameShape w'') :
    w.SameShape w'' :=
  ⟨h'.row_eq.trans h.row_eq, h'.width_eq.trans h.width_eq, h'.hash_eq.trans h.hash_eq⟩

/-- A loop over the first rows does to each of them what it does to it alone. -/
theorem exists_forRows {n : ℕ} {f : BackedUp → Option BackedUp}
    (hf : ∀ i < n, ∃ s', f (w.rowOf i) = some s' ∧ ∃ array, s'.op = .max array) :
    ∃ w', w.forRows n f = some w' ∧ w.SameShape w' ∧
      (∀ i < n, f (w.rowOf i) = some (w'.rowOf i)) ∧ ∀ i, n ≤ i → w'.rowOf i = w.rowOf i := by
  induction n with
  | zero =>
      exact ⟨w, rfl, ⟨rfl, rfl, rfl⟩, fun _ h => absurd h (Nat.not_lt_zero _), fun _ _ => rfl⟩
  | succ n ih =>
      obtain ⟨w', hw', hshape, hdone, hrest⟩ := ih fun i hi => hf i (Nat.lt_succ_of_lt hi)
      obtain ⟨s', hs', array, harray⟩ := hf n (Nat.lt_succ_self n)
      have hset : w'.setRow n s' =
          some ⟨w'.sketch.setArray n array, Function.update w'.stores n s'.store⟩ := by
        rw [setRow, harray]
      have hrow : ∀ i, rowOf ⟨w'.sketch.setArray n array,
          Function.update w'.stores n s'.store⟩ i = if i = n then s' else w'.rowOf i := by
        intro i
        change (⟨.max (Function.update w'.sketch.arrays n array i),
          Function.update w'.stores n s'.store i⟩ : BackedUp) = _
        split_ifs with hi
        · rw [hi, Function.update_self, Function.update_self, ← harray]
        · rw [Function.update_of_ne hi, Function.update_of_ne hi]
          rfl
      refine ⟨⟨w'.sketch.setArray n array, Function.update w'.stores n s'.store⟩, ?_,
        ⟨hshape.row_eq, hshape.width_eq, hshape.hash_eq⟩, fun i hi => ?_, fun i hi => ?_⟩
      · rw [forRows] at hw' ⊢
        rw [List.range_succ, List.foldlM_append, hw']
        refine (foldlM_singleton (fun w i => (f (w.rowOf i)).bind (w.setRow i)) w' n).trans ?_
        rw [hrest n le_rfl, hs', Option.bind_some, hset]
      · rw [hrow]
        split_ifs with hlast
        · rw [hlast, hs']
        · exact hdone i (by omega)
      · rw [hrow, if_neg (by omega)]
        exact hrest i (by omega)

/-- What every event preserves. -/
structure Inv (row width : ℕ) (hash : ℕ → UInt64 → ℕ) (thresh : ℚ) (w : BackedUpSketch) :
    Prop where
  row_eq : w.sketch.row = row
  width_eq : w.sketch.width = width
  hash_eq : w.sketch.hash = hash
  mirrored : ∀ i < row, (w.rowOf i).Mirrored .max width thresh

theorem Inv.init (hthresh : 0 ≤ thresh) :
    (machine row width hash thresh).init.Inv row width hash thresh :=
  ⟨rfl, rfl, rfl, fun _ _ => BackedUp.Mirrored.init hthresh⟩

/-- A row stays an object of its class. -/
theorem exists_max {s : BackedUp} (h : s.Mirrored .max width thresh) :
    ∃ array, s.op = .max array := by
  have hchecked := h.checked
  generalize hkind : ArrayKind.max = kind at hchecked
  cases hchecked with
  | max _ hquiet _ =>
      obtain ⟨array, harray, -⟩ := hquiet
      exact ⟨array, harray⟩
  | sum kind _ => cases kind <;> cases hkind

/-- A record for a row. -/
theorem gentle_change (hhash : ∀ i < row, ∀ key, hash i key < width) {i : ℕ} (hi : i < row)
    (key : UInt64) {value : ℤ} (hvalue : 0 ≤ value) :
    (SketchEvent.change hash i key value).Gentle .max width :=
  RecordChange.gentle_add (ExactSketch.toNat_ofNat_lt (hhash i hi key)) hvalue

/-- The records of an event for a row. -/
theorem gentle_forRow (hhash : ∀ i < row, ∀ key, hash i key < width) {event : SketchEvent}
    (hvalue : ∀ record, event.record? = some record → 0 ≤ record.2) {i : ℕ} (hi : i < row) :
    ∀ r ∈ (event.forRow hash i).filterMap FaultEvent.record?, r.Gentle .max width := by
  intro r hr
  cases event with
  | process key value =>
      obtain rfl := List.mem_singleton.mp hr
      exact gentle_change hhash hi key (hvalue _ rfl)
  | poll => cases hr
  | lose key value =>
      obtain rfl := List.mem_singleton.mp hr
      exact gentle_change hhash hi key (hvalue _ rfl)
  | crash => cases hr
  | interrupt key value checked =>
      have hr' : r = SketchEvent.change hash i key value := by
        rw [SketchEvent.forRow] at hr
        split_ifs at hr <;> exact List.mem_singleton.mp hr
      rw [hr']
      exact gentle_change hhash hi key (hvalue _ rfl)

/-- The checks behind a record. The loop of `UpdateSketch` has updated every row before. -/
theorem Inv.exists_checkRows (h : w.Inv row width hash thresh) (hthresh : 0 ≤ thresh)
    (hwidth : width < 2 ^ 32) (hhash : ∀ i < row, ∀ key, hash i key < width) (key : UInt64)
    {value : ℤ} (hvalue : 0 ≤ value) {n : ℕ} (hn : n ≤ row) :
    ∃ w', (w.updateSketch key value).checkRows thresh n = some w' ∧ w.SameShape w' ∧
      (∀ i < n, BackedUp.faultStep .max width thresh (w.rowOf i)
        (.process (SketchEvent.change hash i key value)) = some (w'.rowOf i)) ∧
      ∀ i, n ≤ i → w'.stores i = w.stores i := by
  have hsame : ∀ i < row, ((w.updateSketch key value).rowOf i).step thresh .check =
      BackedUp.faultStep .max width thresh (w.rowOf i)
        (.process (SketchEvent.change hash i key value)) := by
    intro i hi
    have hlt : (UInt32.ofNat (hash i key)).toNat < (w.rowOf i).op.length := by
      rw [(h.mirrored i hi).inv.length_eq]
      exact ExactSketch.toNat_ofNat_lt (hhash i hi key)
    have hget : (w.rowOf i).op.getValue (UInt32.ofNat (hash i key)) =
        some ((w.sketch.arrays i).array (UInt32.ofNat (hash i key)).toNat) := if_pos hlt
    have hupdate : (w.rowOf i).op.updateValue ⟨UInt32.ofNat (hash i key),
        (w.sketch.arrays i).array (UInt32.ofNat (hash i key)).toNat + value⟩ =
        some (.max ((w.sketch.updateSketch key value).2.arrays i)) := by
      rw [ExactSketch.updateSketch_eq]
      dsimp only
      rw [h.row_eq, if_pos hi, ExactSketch.counter, ExactSketch.index, h.hash_eq]
      exact if_pos hlt
    rw [BackedUp.faultStep, SketchEvent.change, RecordChange.add]
    dsimp only
    rw [hget, Option.bind_some, BackedUp.step, BackedUp.step, hupdate]
    rfl
  obtain ⟨w', hw', hshape, hrows, hrest⟩ := exists_forRows (w := w.updateSketch key value) (n := n)
    (f := (·.step thresh .check)) fun i hi => by
      have hrow := hi.trans_le hn
      obtain ⟨s', hs', hmirrored, -⟩ := (h.mirrored i hrow).process hthresh hwidth
        (gentle_change hhash hrow key hvalue)
      exact ⟨s', (hsame i hrow).trans hs', exists_max hmirrored⟩
  have hupdated : w.SameShape (w.updateSketch key value) := by
    rw [updateSketch, ExactSketch.updateSketch_eq]
    exact ⟨rfl, rfl, rfl⟩
  exact ⟨w', hw', hupdated.trans hshape, fun i hi => (hsame i (hi.trans_le hn)).symm.trans
    (hrows i hi), fun i hi => congrArg BackedUp.store (hrest i hi)⟩

/-- What is recovered depends on the items alone. -/
theorem faultStep_crash_congr {s t : BackedUp} (hstore : s.store = t.store) :
    BackedUp.faultStep .max width thresh s .crash =
      BackedUp.faultStep .max width thresh t .crash := by
  obtain ⟨op, store⟩ := s
  obtain rfl : store = t.store := hstore
  rfl

/-- The rows of a restarted worker. -/
theorem exists_recoverRows (hthresh : 0 ≤ thresh)
    (hstores : ∀ i < w.sketch.row, ∃ s : BackedUp, s.store = w.stores i ∧
      s.Mirrored .max w.sketch.width thresh) :
    ∃ w', w.recoverRows = some w' ∧ w.SameShape w' ∧ ∀ i < w.sketch.row, ∀ s : BackedUp,
      s.store = w.stores i →
        BackedUp.faultStep .max w.sketch.width thresh s .crash = some (w'.rowOf i) := by
  obtain ⟨w', hw', hshape, hrows, -⟩ := exists_forRows (w := w) (n := w.sketch.row)
    (f := fun s => BackedUp.faultStep .max w.sketch.width thresh s .crash) fun i hi => by
      obtain ⟨s, hstore, hmirrored⟩ := hstores i hi
      obtain ⟨s', hs', hmirrored', -⟩ := hmirrored.crash hthresh
      exact ⟨s', (faultStep_crash_congr hstore.symm).trans hs', exists_max hmirrored'⟩
  exact ⟨w', hw', hshape, fun i hi s hstore =>
    (faultStep_crash_congr hstore).trans (hrows i hi)⟩

/-- **One event.** It can happen, and it is to each row what it is to an operator. -/
theorem Inv.exists_step (h : w.Inv row width hash thresh) (hthresh : 0 ≤ thresh)
    (hwidth : width < 2 ^ 32) (hhash : ∀ i < row, ∀ key, hash i key < width) {event : SketchEvent}
    (hvalue : ∀ record, event.record? = some record → 0 ≤ record.2) :
    ∃ w', (machine row width hash thresh).step w event = some w' ∧ w.SameShape w' ∧
      ∀ i < row, (BackedUp.faultMachine .max width thresh).runFrom (w.rowOf i)
        (event.forRow hash i) = some (w'.rowOf i) := by
  have hmirrored := h.mirrored
  obtain rfl := h.row_eq
  obtain rfl := h.width_eq
  cases event with
  | process key value =>
      obtain ⟨w', hw', hshape, hrows, -⟩ :=
        h.exists_checkRows hthresh hwidth hhash key (hvalue _ rfl) le_rfl
      refine ⟨w', hw', hshape, fun i hi => ?_⟩
      rw [SketchEvent.forRow, Machine.runFrom_cons]
      exact congrArg (Option.bind · _) (hrows i hi)
  | poll =>
      obtain ⟨w', hw', hshape, hrows, -⟩ := exists_forRows (w := w) (n := w.sketch.row)
        (f := (·.step thresh .check)) fun i hi =>
          ⟨w.rowOf i, (hmirrored i hi).poll, _, rfl⟩
      refine ⟨w', hw', hshape, fun i hi => ?_⟩
      rw [SketchEvent.forRow, Machine.runFrom_cons]
      exact congrArg (Option.bind · _) (hrows i hi)
  | lose key value => exact ⟨w, rfl, ⟨rfl, rfl, rfl⟩, fun _ _ => rfl⟩
  | crash =>
      obtain ⟨w', hw', hshape, hrows⟩ := exists_recoverRows hthresh fun i hi =>
        ⟨w.rowOf i, rfl, hmirrored i hi⟩
      refine ⟨w', hw', hshape, fun i hi => ?_⟩
      rw [SketchEvent.forRow, Machine.runFrom_cons]
      exact congrArg (Option.bind · _) (hrows i hi (w.rowOf i) rfl)
  | interrupt key value checked =>
      have hnonneg : 0 ≤ value := hvalue _ rfl
      obtain ⟨w₁, hw₁, hshape₁, hrows₁, hrest₁⟩ := h.exists_checkRows hthresh hwidth hhash key
        hnonneg (min_le_right checked w.sketch.row)
      have hstores : ∀ i < w₁.sketch.row, ∃ s : BackedUp, s.store = w₁.stores i ∧
          s.Mirrored .max w₁.sketch.width thresh := by
        intro i hi
        rw [hshape₁.row_eq] at hi
        rw [hshape₁.width_eq]
        by_cases hchecked : i < min checked w.sketch.row
        · obtain ⟨s', hs', hmirrored', -⟩ := (hmirrored i hi).process hthresh hwidth
            (gentle_change hhash hi key hnonneg)
          obtain rfl := Option.some.inj ((hrows₁ i hchecked).symm.trans hs')
          exact ⟨_, rfl, hmirrored'⟩
        · exact ⟨w.rowOf i, (hrest₁ i (not_lt.mp hchecked)).symm, hmirrored i hi⟩
      obtain ⟨w', hw', hshape, hrows⟩ := exists_recoverRows hthresh hstores
      rw [hshape₁.row_eq, hshape₁.width_eq] at hrows
      refine ⟨w', ?_, hshape₁.trans hshape, fun i hi => ?_⟩
      · change ((w.updateSketch key value).checkRows thresh (min checked w.sketch.row)).bind
          recoverRows = some w'
        rw [hw₁]
        exact hw'
      · rw [SketchEvent.forRow]
        split_ifs with hchecked
        · have hprocess : (BackedUp.faultMachine .max w.sketch.width thresh).step (w.rowOf i)
              (.process (SketchEvent.change hash i key value)) = some (w₁.rowOf i) :=
            hrows₁ i (lt_min hchecked hi)
          rw [Machine.runFrom_cons, hprocess]
          exact congrArg (Option.bind · _) (hrows i hi (w₁.rowOf i) rfl)
        · have hle : min checked w.sketch.row ≤ i := min_le_of_left_le (not_lt.mp hchecked)
          exact congrArg (Option.bind · _) (hrows i hi (w.rowOf i) (hrest₁ i hle).symm)

/-- **A whole run.** Every row runs as an operator of its own. -/
theorem Inv.exists_run (h : w.Inv row width hash thresh) (hthresh : 0 ≤ thresh)
    (hwidth : width < 2 ^ 32) (hhash : ∀ i < row, ∀ key, hash i key < width)
    {events : List SketchEvent}
    (hvalues : ∀ record ∈ events.filterMap SketchEvent.record?, 0 ≤ record.2) :
    ∃ w', (machine row width hash thresh).runFrom w events = some w' ∧
      w'.Inv row width hash thresh ∧
      ∀ i < row, (BackedUp.faultMachine .max width thresh).runFrom (w.rowOf i)
        (events.flatMap (SketchEvent.forRow hash i)) = some (w'.rowOf i) := by
  induction events generalizing w with
  | nil => exact ⟨w, rfl, h, fun _ _ => rfl⟩
  | cons event rest ih =>
      have hvalue : ∀ record, event.record? = some record → 0 ≤ record.2 := fun record hrecord =>
        hvalues record (List.mem_filterMap.mpr ⟨event, List.mem_cons_self, hrecord⟩)
      obtain ⟨middle, hmiddle, hshape, hrows⟩ := h.exists_step hthresh hwidth hhash hvalue
      have hinv : middle.Inv row width hash thresh :=
        ⟨hshape.row_eq.trans h.row_eq, hshape.width_eq.trans h.width_eq,
          hshape.hash_eq.trans h.hash_eq, fun i hi => (h.mirrored i hi).runFrom hthresh hwidth
            (gentle_forRow hhash hvalue hi) (hrows i hi)⟩
      obtain ⟨w', hw', hinv', hrows'⟩ := ih hinv (SketchEvent.forall_record_tail hvalues)
      refine ⟨w', ?_, hinv', fun i hi => ?_⟩
      · rw [Machine.runFrom_cons, hmiddle]
        exact hw'
      · rw [List.flatMap_cons, Machine.runFrom_append, hrows i hi]
        exact hrows' i hi

/-! ## The error -/

variable {events : List SketchEvent}

/-- The records of a row. -/
theorem records_forRow (hash : ℕ → UInt64 → ℕ) (i : ℕ) (events : List SketchEvent) :
    (events.flatMap (SketchEvent.forRow hash i)).filterMap FaultEvent.record? =
      (events.filterMap SketchEvent.record?).map fun record =>
        SketchEvent.change hash i record.1 record.2 := by
  induction events with
  | nil => rfl
  | cons event rest ih =>
      rw [List.flatMap_cons, List.filterMap_append, ih]
      cases event with
      | interrupt key value checked =>
          rw [SketchEvent.forRow]
          split_ifs <;> rfl
      | process key value => rfl
      | poll => rfl
      | lose key value => rfl
      | crash => rfl

/-- A row that gets all records and never fails counts them. -/
theorem failureFree_forRow (hash : ℕ → UInt64 → ℕ) (i : ℕ) (events : List SketchEvent) :
    FaultEvent.failureFree (events.flatMap (SketchEvent.forRow hash i)) =
      tally (ExactSketch.increments hash i (events.filterMap SketchEvent.record?)) := by
  rw [FaultEvent.failureFree_eq, records_forRow, List.foldl_map]
  induction events.filterMap SketchEvent.record? using List.reverseRecOn with
  | nil => rfl
  | append_singleton records record ih =>
      rw [List.foldl_append, ih, ExactSketch.increments, ExactSketch.increments, List.map_append,
        List.map_singleton, tally_concat]
      rfl

/-- The crashes of a row. -/
theorem crashes_forRow (hash : ℕ → UInt64 → ℕ) (i : ℕ) (events : List SketchEvent) :
    (events.flatMap (SketchEvent.forRow hash i)).countP FaultEvent.isCrash =
      events.countP SketchEvent.isCrash := by
  induction events with
  | nil => rfl
  | cons event rest ih =>
      have hone : (event.forRow hash i).countP FaultEvent.isCrash =
          if event.isCrash then 1 else 0 := by
        cases event with
        | interrupt key value checked =>
            by_cases hchecked : i < checked
            · rw [SketchEvent.forRow, if_pos hchecked]
              rfl
            · rw [SketchEvent.forRow, if_neg hchecked]
              rfl
        | process key value => rfl
        | poll => rfl
        | lose key value => rfl
        | crash => rfl
      rw [List.flatMap_cons, List.countP_append, ih, hone, List.countP_cons, Nat.add_comm]

/-- What the losses change in a row. -/
theorem lostEffect_forRow_le (hash : ℕ → UInt64 → ℕ) (i : ℕ)
    (hvalues : ∀ record ∈ events.filterMap SketchEvent.record?, 0 ≤ record.2) (ideal : ℕ → ℤ) :
    FaultEvent.lostEffect ideal (events.flatMap (SketchEvent.forRow hash i)) ≤
      (events.map SketchEvent.lostValue).sum := by
  induction events generalizing ideal with
  | nil => exact le_rfl
  | cons event rest ih =>
      have hrest := fun ideal => ih (SketchEvent.forall_record_tail hvalues) ideal
      have heffect : ∀ key value, 0 ≤ value →
          (SketchEvent.change hash i key value).effect ideal = value := by
        intro key value hvalue
        change |ideal (UInt32.ofNat (hash i key)).toNat + value -
          ideal (UInt32.ofNat (hash i key)).toNat| = value
        rw [add_sub_cancel_left, abs_of_nonneg hvalue]
      rw [List.flatMap_cons, List.map_cons, List.sum_cons]
      cases event with
      | process key value => exact add_le_add le_rfl (hrest _)
      | poll => exact add_le_add le_rfl (hrest _)
      | lose key value =>
          have hvalue : 0 ≤ value := hvalues (key, value) List.mem_cons_self
          exact add_le_add (heffect key value hvalue).le (hrest _)
      | crash => exact add_le_add le_rfl (hrest _)
      | interrupt key value checked =>
          have hvalue : 0 ≤ value := hvalues (key, value) List.mem_cons_self
          rw [SketchEvent.forRow]
          split_ifs with hchecked
          · exact add_le_add hvalue ((zero_add _).trans_le (hrest _))
          · exact add_le_add (heffect key value hvalue).le ((zero_add _).trans_le (hrest _))

/-- The counters of a row. -/
theorem counter_error_le (hthresh : 0 ≤ thresh) (hwidth : width < 2 ^ 32)
    (hhash : ∀ i < row, ∀ key, hash i key < width)
    (hvalues : ∀ record ∈ events.filterMap SketchEvent.record?, 0 ≤ record.2) {i : ℕ} (hi : i < row)
    {s : BackedUp} (hrun : (BackedUp.faultMachine .max width thresh).runFrom
      (BackedUp.faultMachine .max width thresh).init
        (events.flatMap (SketchEvent.forRow hash i)) = some s) {position : ℕ}
    (hposition : position < width) :
    ((|s.op.array position -
      tally (ExactSketch.increments hash i (events.filterMap SketchEvent.record?)) position| : ℤ) :
        ℚ) ≤ SketchEvent.budget thresh events := by
  have hgentle : ∀ r ∈ (events.flatMap (SketchEvent.forRow hash i)).filterMap FaultEvent.record?,
      r.Gentle .max width := by
    intro r hr
    rw [records_forRow] at hr
    obtain ⟨record, hrecord, rfl⟩ := List.mem_map.mp hr
    exact gentle_change hhash hi record.1 (hvalues record hrecord)
  obtain ⟨s', hs', herror⟩ := BackedUp.exists_run_within_cost .max hwidth hthresh hgentle
  obtain rfl := Option.some.inj (hrun.symm.trans hs')
  rw [FaultEvent.totalCost_eq, failureFree_forRow, crashes_forRow] at herror
  have hreal := (abs_sub_le_dist_vector hposition _ _).trans herror
  have hlost := lostEffect_forRow_le hash i hvalues fun _ => 0
  change _ ≤ _ * (thresh : ℝ) + _ at hreal
  rw [SketchEvent.budget]
  calc
    _ ≤ (events.countP SketchEvent.isCrash * thresh + (FaultEvent.lostEffect (fun _ => 0)
        (events.flatMap (SketchEvent.forRow hash i)) : ℤ) : ℚ) := by exact_mod_cast hreal
    _ ≤ _ := by gcongr

/-- **Estimates after crashes.** For any hash functions, every order of records that are counted or
lost, empty polls and crashes, wherever in the loop these happen: all of it can happen; each row
does exactly what an array operator of its own does with the events of that row; and the estimates
differ from those of a sketch that counts all records and never fails by at most one threshold for
each crash, and the values of the records that are lost or under way in a crash. So no key is
underestimated by more than that. -/
theorem estimate_error_bounded (hrow : 0 < row) (hpos : 0 < width) (hwidth : width < 2 ^ 32)
    (hhash : ∀ i < row, ∀ key, hash i key < width) (hthresh : 0 ≤ thresh)
    (events : List SketchEvent)
    (hvalues : ∀ record ∈ events.filterMap SketchEvent.record?, 0 ≤ record.2) :
    ∃ w, (machine row width hash thresh).runFrom (machine row width hash thresh).init events =
        some w ∧
      (∀ i < row, (BackedUp.faultMachine .max width thresh).runFrom
        (BackedUp.faultMachine .max width thresh).init
          (events.flatMap (SketchEvent.forRow hash i)) = some (w.rowOf i)) ∧
      ∀ key, ((|w.sketch.getEstimate key - (ExactSketch.counting row width hash
            (events.filterMap SketchEvent.record?)).getEstimate key| : ℤ) : ℚ) ≤
          SketchEvent.budget thresh events ∧
        (tally (events.filterMap SketchEvent.record?) key : ℚ) ≤
          w.sketch.getEstimate key + SketchEvent.budget thresh events := by
  obtain ⟨w, hw, hinv, hrows⟩ :=
    (Inv.init hthresh : (machine row width hash thresh).init.Inv row width hash thresh).exists_run
      hthresh hwidth hhash hvalues
  have hcounts := ExactSketch.counts_counting hpos hhash hvalues
  obtain ⟨ideal, hideal⟩ : ∃ ideal, ExactSketch.counting row width hash
    (events.filterMap SketchEvent.record?) = ideal := ⟨_, rfl⟩
  rw [hideal] at hcounts ⊢
  refine ⟨w, hw, hrows, fun key => ?_⟩
  have hcounters : ∀ i < w.sketch.row, |w.sketch.counter i key - ideal.counter i key| ≤
      ⌊SketchEvent.budget thresh events⌋ := by
    intro i hi
    rw [hinv.row_eq] at hi
    rw [Int.le_floor, hcounts.counter_eq hi, ExactSketch.counter, ExactSketch.index, hinv.hash_eq]
    exact counter_error_le hthresh hwidth hhash hvalues hi (hrows i hi)
      (ExactSketch.toNat_ofNat_lt (hhash i hi key))
  have herror : ((|w.sketch.getEstimate key - ideal.getEstimate key| : ℤ) : ℚ) ≤
      SketchEvent.budget thresh events := by
    rw [← Int.le_floor]
    exact ExactSketch.abs_getEstimate_sub_le (hinv.row_eq.symm ▸ hrow)
      (hcounts.row_eq.trans hinv.row_eq.symm) hcounters
  refine ⟨herror, ?_⟩
  have hideal' : ((tally (events.filterMap SketchEvent.record?) key : ℤ) : ℚ) ≤
      (ideal.getEstimate key : ℚ) := by
    exact_mod_cast hcounts.tally_le_getEstimate hrow key
  push_cast at herror
  have hlow := (abs_le.mp herror).1
  linarith

/-- Two rows of two buckets. A record is lost, and in another one the worker crashes when the first
row has been checked. -/
theorem estimate_error_bounded_interrupted :
    ∃ w, (machine 2 2 (fun i key => (key.toNat / 2 ^ i) % 2) 3).runFrom
        (machine 2 2 (fun i key => (key.toNat / 2 ^ i) % 2) 3).init
        [.process 1 2, .lose 3 5, .interrupt 1 1 1, .poll, .process 1 4] = some w ∧
      (BackedUp.faultMachine .max 2 3).runFrom (BackedUp.faultMachine .max 2 3).init
        [.process (.add 1 2), .lose (.add 1 5), .process (.add 1 1), .crash, .poll,
          .process (.add 1 4)] = some (w.rowOf 0) ∧
      (BackedUp.faultMachine .max 2 3).runFrom (BackedUp.faultMachine .max 2 3).init
        [.process (.add 0 2), .lose (.add 1 5), .lose (.add 0 1), .crash, .poll,
          .process (.add 0 4)] = some (w.rowOf 1) ∧
      ((|w.sketch.getEstimate 1 - (ExactSketch.counting 2 2
            (fun i key => (key.toNat / 2 ^ i) % 2) [(1, 2), (3, 5), (1, 1), (1, 4)]).getEstimate 1|
          : ℤ) : ℚ) ≤ SketchEvent.budget 3
            [.process 1 2, .lose 3 5, .interrupt 1 1 1, .poll, .process 1 4] ∧
      (7 : ℚ) ≤ w.sketch.getEstimate 1 + SketchEvent.budget 3
        [.process 1 2, .lose 3 5, .interrupt 1 1 1, .poll, .process 1 4] := by
  obtain ⟨w, hw, hrows, hbounds⟩ := @estimate_error_bounded 2 2
    (fun i key => (key.toNat / 2 ^ i) % 2) 3 (by decide) (by decide) (by decide)
    (fun i _ key => Nat.mod_lt _ (by decide)) (by norm_num)
    [.process 1 2, .lose 3 5, .interrupt 1 1 1, .poll, .process 1 4]
    (by simp [SketchEvent.record?])
  exact ⟨w, hw, hrows 0 (by decide), hrows 1 (by decide), hbounds 1⟩

end BackedUpSketch

end AFStream.Apps

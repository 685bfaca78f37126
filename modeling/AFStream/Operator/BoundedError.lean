/-
# The error of approximate recovery

A worker saves an element only when the divergence of its operator exceeds a threshold, so a
restarted worker starts with arrays that are a little behind, and the records that were under way
when the worker failed are lost. The module runs an array operator with its items at the backup
server through any records, losses and crashes, and beside it an operator of a worker that never
fails and gets all records. Their distance is at most one threshold for each crash, and what each
lost record would have changed.
-/

import AFStream.Foundation.ErrorBudget
import AFStream.Operator.SumDivergence
import AFStream.Operator.WindowClear

namespace AFStream.Operator

open AFStream.Foundation
open scoped ENNReal

/-- What a record does to an operator: the application reads one element and writes it back. -/
structure RecordChange where
  index : UInt32
  change : ℤ → ℤ

/-- What happens to an operator and to the records for it. -/
inductive FaultEvent
  | process (r : RecordChange)
  | poll
  | lose (r : RecordChange)
  | crash

namespace RecordChange

/-- The elements after a record. -/
def apply (r : RecordChange) (array : ℕ → ℤ) : ℕ → ℤ :=
  Function.update array r.index.toNat (r.change (array r.index.toNat))

/-- How much a record changes. -/
def effect (r : RecordChange) (array : ℕ → ℤ) : ℤ :=
  |r.change (array r.index.toNat) - array r.index.toNat|

/-- A record for an element of the array that brings no two values farther apart. For
`NumericArray_MAX`, which only looks for values above their backup, it decreases no value either. -/
structure Gentle (kind : ArrayKind) (length : ℕ) (r : RecordChange) : Prop where
  index_lt : r.index.toNat < length
  nonexpansive : ∀ a b, |r.change a - r.change b| ≤ |a - b|
  monotone : kind = .max → ∀ a, a ≤ r.change a

/-- A record that adds to an element. -/
def add (index : UInt32) (value : ℤ) : RecordChange := ⟨index, (· + value)⟩

theorem gentle_add {kind : ArrayKind} {length : ℕ} {index : UInt32} {value : ℤ}
    (hindex : index.toNat < length) (hvalue : 0 ≤ value) :
    (add index value).Gentle kind length where
  index_lt := hindex
  nonexpansive a b := by
    change |a + value - (b + value)| ≤ |a - b|
    rw [add_sub_add_right_eq_sub]
  monotone _ a := le_add_of_nonneg_right hvalue

end RecordChange

namespace FaultEvent

/-- The records for the operator, those that are lost included. -/
def record? : FaultEvent → Option RecordChange
  | .process r => some r
  | .lose r => some r
  | _ => none

/-- The records that the operator gets. -/
def processed? : FaultEvent → Option RecordChange
  | .process r => some r
  | _ => none

/-- The elements of an operator that gets all records and never fails. -/
def follow (ideal : ℕ → ℤ) (event : FaultEvent) : ℕ → ℤ :=
  event.record?.elim ideal fun r => r.apply ideal

/-- Its elements after some events. -/
def failureFree (events : List FaultEvent) : ℕ → ℤ := events.foldl follow fun _ => 0

/-- They are determined by the records alone. -/
theorem failureFree_eq (events : List FaultEvent) :
    failureFree events =
      (events.filterMap record?).foldl (fun array r => r.apply array) fun _ => 0 := by
  rw [failureFree, List.foldl_filterMap]
  refine congrArg (fun step => events.foldl step fun _ => 0) ?_
  funext array event
  cases event <;> rfl

/-- A crash between two records, the second of which is lost. -/
def oneCrash : List FaultEvent := [.process (.add 1 2), .crash, .lose (.add 0 1), .poll]

end FaultEvent

/-! ## The norms that the classes use -/

namespace ArrayKind

/-- The exponent of the norm whose distance the divergence of a class bounds. -/
noncomputable def exponent : ArrayKind → ℝ≥0∞
  | .max => ∞
  | .l1 => 1
  | .l2 => 2

instance (kind : ArrayKind) : Fact (1 ≤ kind.exponent) := by
  cases kind with
  | max => exact ⟨le_top⟩
  | l1 => exact ⟨le_rfl⟩
  | l2 => exact ⟨one_le_two⟩

/-- How far an operator may be from its backup. `NumericArray_L2` compares squares. -/
noncomputable def radius (thresh : ℚ) : ArrayKind → ℝ
  | .l2 => √(thresh : ℝ)
  | _ => (thresh : ℝ)

end ArrayKind

/-- How far two arrays are apart. -/
noncomputable def arrayDist (kind : ArrayKind) (length : ℕ) (a b : ℕ → ℤ) : ℝ :=
  dist (vector kind.exponent length a) (vector kind.exponent length b)

namespace FaultEvent

def isCrash : FaultEvent → Bool
  | .crash => true
  | _ => false

/-- What is missing because a record is lost. -/
def loss (ideal : ℕ → ℤ) : FaultEvent → ℤ
  | .lose r => r.effect ideal
  | _ => 0

/-- What an event costs. -/
noncomputable def cost (kind : ArrayKind) (thresh : ℚ) (ideal : ℕ → ℤ) (event : FaultEvent) : ℝ :=
  (if event.isCrash then kind.radius thresh else 0) + (event.loss ideal : ℝ)

/-- What is missing because of all records that are lost. -/
def lostEffect : (ℕ → ℤ) → List FaultEvent → ℤ
  | _, [] => 0
  | ideal, event :: rest => event.loss ideal + lostEffect (event.follow ideal) rest

/-- Records of a limited effect that are lost. -/
theorem lostEffect_le {limit : ℤ} {events : List FaultEvent}
    (hlimit : ∀ r ∈ events.filterMap record?, ∀ array, r.effect array ≤ limit) (ideal : ℕ → ℤ) :
    lostEffect ideal events ≤
      limit * ((events.filterMap record?).length - (events.filterMap processed?).length : ℤ) := by
  induction events generalizing ideal with
  | nil => simp [lostEffect]
  | cons event rest ih =>
      rw [lostEffect]
      cases event with
      | process r =>
          have hrest := ih (fun r hr => hlimit r (List.mem_cons_of_mem _ hr))
            (follow ideal (.process r))
          change 0 + lostEffect _ rest ≤ limit * (((rest.filterMap record?).length + 1 : ℕ) -
            ((rest.filterMap processed?).length + 1 : ℕ) : ℤ)
          push_cast
          rwa [zero_add, add_sub_add_right_eq_sub]
      | poll =>
          have hrest := ih hlimit ideal
          exact (zero_add _).trans_le hrest
      | crash =>
          have hrest := ih hlimit ideal
          exact (zero_add _).trans_le hrest
      | lose r =>
          have hrest := ih (fun r hr => hlimit r (List.mem_cons_of_mem _ hr))
            (follow ideal (.lose r))
          have heffect := hlimit r List.mem_cons_self ideal
          change r.effect ideal + lostEffect _ rest ≤
            limit * (((rest.filterMap record?).length + 1 : ℕ) -
              (rest.filterMap processed?).length : ℤ)
          push_cast
          rw [add_sub_right_comm, mul_add, mul_one, add_comm]
          exact add_le_add hrest heffect

variable (kind : ArrayKind) (thresh : ℚ) (ideal : ℕ → ℤ)

theorem cost_process (r : RecordChange) : cost kind thresh ideal (.process r) = 0 := by
  simp [cost, isCrash, loss]

theorem cost_poll : cost kind thresh ideal .poll = 0 := by
  simp [cost, isCrash, loss]

theorem cost_lose (r : RecordChange) : cost kind thresh ideal (.lose r) = (r.effect ideal : ℝ) := by
  simp [cost, isCrash, loss]

theorem cost_crash : cost kind thresh ideal .crash = kind.radius thresh := by
  simp [cost, isCrash, loss]

/-- All costs: a threshold for each crash, and the losses. -/
theorem totalCost_eq (ideal : ℕ → ℤ) (events : List FaultEvent) :
    Machine.totalCost follow (cost kind thresh) ideal events =
      events.countP isCrash * kind.radius thresh + (lostEffect ideal events : ℝ) := by
  induction events generalizing ideal with
  | nil =>
      rw [Machine.totalCost, List.countP_nil, lostEffect]
      norm_num
  | cons event rest ih =>
      rw [Machine.totalCost, ih, lostEffect, cost, List.countP_cons]
      push_cast
      split_ifs <;> ring

end FaultEvent

namespace BackedUp

/-- One event: an iteration of the compute loop with a record or without one, a record that does
not arrive, or a crash with the recovery that follows. -/
def faultStep (kind : ArrayKind) (length : ℕ) (thresh : ℚ) (s : BackedUp) :
    FaultEvent → Option BackedUp
  | .process r => (s.op.getValue r.index).bind fun value =>
      (s.step thresh (.update ⟨r.index, r.change value⟩)).bind fun s => s.step thresh .check
  | .poll => s.step thresh .check
  | .lose _ => some s
  | .crash => (s.recovered kind length).map fun op => { s with op := op }

/-- All runs of a fresh operator. -/
def faultMachine (kind : ArrayKind) (length : ℕ) (thresh : ℚ) : Machine BackedUp FaultEvent where
  init := (machine kind length thresh).init
  step := faultStep kind length thresh

end BackedUp

namespace NumericArray

variable {kind : ArrayKind} {length : ℕ} {thresh : ℚ} {op op₁ op' : NumericArray ℤ}

/-! ## Behind a check -/

/-- An operator behind a check: of each class what its own check preserves. -/
inductive Checked (length : ℕ) (thresh : ℚ) (op : NumericArray ℤ) : ArrayKind → Prop
  | max (hlength : op.length = length) (hquiet : op.Quiet thresh) (hbounded : op.Bounded thresh) :
      Checked length thresh op .max
  | sum (kind : SumKind) (h : op.Balanced kind length thresh) :
      Checked length thresh op kind.arrayKind

theorem Checked.length_eq (h : op.Checked length thresh kind) : op.length = length := by
  cases h with
  | max hlength _ _ => exact hlength
  | sum _ h => exact h.length_eq

/-- **Behind a check an operator is near its backup.** -/
theorem Checked.dist_le (hthresh : 0 ≤ thresh) (h : op.Checked length thresh kind) :
    arrayDist kind length op.backupArray op.array ≤ kind.radius thresh := by
  rw [arrayDist, dist_comm]
  cases h with
  | max hlength _ hbounded =>
      have hzero : (0 : ℝ) ≤ (thresh : ℝ) := by exact_mod_cast hthresh
      refine dist_vector_top_le hzero fun i hi => ?_
      have hwithin : ((|op.array i - op.backupArray i| : ℤ) : ℚ) ≤ thresh :=
        hbounded i (hlength.symm ▸ hi)
      have hreal : ((|op.array i - op.backupArray i| : ℤ) : ℝ) ≤ (thresh : ℝ) := by
        exact_mod_cast hwithin
      exact hreal
  | sum kind h =>
      have hwithin : ((op.trueDifference kind : ℤ) : ℚ) ≤ thresh := h.within
      rw [trueDifference, h.length_eq] at hwithin
      have hreal : ((residualTotal length (op.residual kind) : ℤ) : ℝ) ≤ (thresh : ℝ) := by
        exact_mod_cast hwithin
      cases kind with
      | l1 => exact dist_vector_one.trans_le hreal
      | l2 => exact dist_vector_two.trans_le (Real.sqrt_le_sqrt hreal)

/-- A recovered operator. -/
theorem checked_recover (hthresh : 0 ≤ thresh) {items : List (Saved ℤ)}
    (hrecover : recover kind length items = some op) (hlength : op.length = length) :
    op.Checked length thresh kind := by
  have hsum : ∀ sumKind : SumKind, recover sumKind.arrayKind length items = some op →
      op.Balanced sumKind length thresh := by
    intro sumKind hrecover
    obtain ⟨hlength, htracked, hzero⟩ := recover_sum hrecover
    refine ⟨hlength, htracked, ?_⟩
    rw [TotalWithin, hzero]
    exact_mod_cast hthresh
  cases kind with
  | max =>
      obtain ⟨inner, rfl, hdiff, hsame⟩ := recover_max hrecover
      refine .max hlength ⟨inner, rfl, by rw [hdiff]; exact_mod_cast hthresh⟩ fun i _ => ?_
      change Within thresh (inner.array i) (inner.backupArray i)
      rw [hsame, Within, sub_self, abs_zero]
      exact_mod_cast hthresh
  | l1 => exact .sum .l1 (hsum .l1 hrecover)
  | l2 => exact .sum .l2 (hsum .l2 hrecover)

/-- A check of an operator behind a check. -/
theorem Checked.divergenceCheck (h : op.Checked length thresh kind) :
    op.divergenceCheck thresh = some (none, op) := by
  cases h with
  | max _ hquiet _ =>
      obtain ⟨inner, rfl, hquiet⟩ := hquiet
      exact if_neg (not_lt.mpr hquiet)
  | sum kind h => exact h.tracked.divergenceCheck_of_within h.within

/-! ## One iteration with a record -/

/-- One update that decreases no value is covered. -/
theorem covered_of_monotone {inner : NumericArrayMax ℤ} (hbounded : Bounded thresh (.max inner))
    {update : Update ℤ} (hmono : inner.array update.index.toNat ≤ update.value) :
    Covered thresh (.max inner) [update] := by
  intro i hi hfar
  have hwithin : ((|inner.array i - inner.backupArray i| : ℤ) : ℚ) ≤ thresh := hbounded i hi
  change ¬ ((|Function.update inner.array update.index.toNat update.value i -
    inner.backupArray i| : ℤ) : ℚ) ≤ thresh at hfar
  by_cases hindex : i = update.index.toNat
  · subst hindex
    rw [Function.update_self] at hfar
    refine ⟨update, rfl, rfl, ?_⟩
    change thresh < ((update.value - inner.backupArray update.index.toNat : ℤ) : ℚ)
    by_contra hnot
    apply hfar
    have hlow : (inner.array update.index.toNat : ℚ) ≤ (update.value : ℚ) := by
      exact_mod_cast hmono
    push_cast at hwithin hnot ⊢
    have hsides := abs_le.mp hwithin
    rw [abs_le]
    constructor <;> linarith
  · rw [Function.update_of_ne hindex] at hfar
    exact absurd hwithin hfar

/-- A check behind one update of `NumericArray_MAX` returns. -/
theorem exists_divergenceCheck_max {inner : NumericArrayMax ℤ}
    (hquiet : (inner.maxDiff : ℚ) ≤ thresh) {update : Update ℤ}
    (hindex : update.index.toNat < inner.length) :
    ∃ result, NumericArray.divergenceCheck thresh
      (.max (inner.updateValue update.index update.value)) = some result := by
  obtain ⟨inner₁, hinner₁⟩ : ∃ inner₁, inner.updateValue update.index update.value = inner₁ :=
    ⟨_, rfl⟩
  rw [hinner₁]
  by_cases hfires : thresh < ((calculateDivergence (.max inner₁) : ℤ) : ℚ)
  · have hin : inner₁.maxDiffIndex.toNat < inner₁.length := by
      by_cases hraise : inner.maxDiff < update.value - inner.backupArray update.index.toNat
      · rw [← hinner₁, NumericArrayMax.maxDiffIndex_updateValue, if_pos hraise,
          NumericArrayMax.length_updateValue]
        exact hindex
      · have hsame : inner₁.maxDiff = inner.maxDiff := by
          rw [← hinner₁, NumericArrayMax.updateValue]
          simp only [if_neg hraise]
        change thresh < (inner₁.maxDiff : ℚ) at hfires
        rw [hsame] at hfires
        exact absurd hquiet (not_le.mpr hfires)
    rw [NumericArray.divergenceCheck, if_pos hfires, serializeState,
      NumericArrayMax.serializeState, if_pos hin]
    exact ⟨_, rfl⟩
  · exact ⟨_, if_neg hfires⟩

/-- **One iteration.** The record is applied, the check returns, and the operator is behind a
check again. -/
theorem Checked.exists_iterate (hthresh : 0 ≤ thresh) (hlength : length < 2 ^ 32)
    (h : op.Checked length thresh kind) {r : RecordChange} (hr : r.Gentle kind length) :
    ∃ op₁ result, op.updateValue ⟨r.index, r.change (op.array r.index.toNat)⟩ = some op₁ ∧
      op₁.divergenceCheck thresh = some result ∧ result.2.Checked length thresh kind := by
  obtain ⟨update, hvalue⟩ : ∃ update : Update ℤ,
      ⟨r.index, r.change (op.array r.index.toNat)⟩ = update := ⟨_, rfl⟩
  have hindex : update.index.toNat < length := hvalue ▸ hr.index_lt
  obtain ⟨op₁, hupdate⟩ : ∃ op₁, op.updateValue update = some op₁ :=
    exists_updateValue (h.length_eq.symm ▸ hindex)
  rw [hvalue]
  cases h with
  | max hlength hquiet hbounded =>
      obtain ⟨inner, rfl, hquiet⟩ := hquiet
      have hindex' : update.index.toNat < inner.length := hindex.trans_eq hlength.symm
      obtain rfl : .max (inner.updateValue update.index update.value) = op₁ := by
        rw [NumericArray.updateValue] at hupdate
        exact Option.some.inj ((if_pos hindex').symm.trans hupdate)
      obtain ⟨⟨item, op'⟩, hcheck⟩ := exists_divergenceCheck_max hquiet hindex'
      have hstep : iterate thresh (.max inner) [update] = some op' := by
        rw [iterate, List.foldlM_cons, hupdate]
        change (NumericArray.divergenceCheck thresh _).map Prod.snd = _
        rw [hcheck]
        rfl
      have hmono : inner.array update.index.toNat ≤ update.value := by
        rw [← hvalue]
        exact hr.monotone rfl _
      obtain ⟨hquiet', hiff⟩ := iterate_max hthresh hquiet hstep
      refine ⟨_, (item, op'), hupdate, hcheck,
        .max ?_ hquiet' (hiff.mpr (covered_of_monotone hbounded hmono))⟩
      obtain ⟨-, hlength₁, -, -⟩ := updateValue_eq_some hupdate
      rw [← hlength, ← hlength₁]
      cases item with
      | none => rw [divergenceCheck_none hcheck]
      | some saved => exact (serializeState_eq_some (divergenceCheck_some hcheck)).2.2.1
  | sum kind h =>
      have hrange : (SingleCall.update update).InRange length := hindex
      obtain ⟨op', hstep⟩ := h.exists_step hthresh op hlength hrange
      have hbalanced := h.step hthresh op hstep
      obtain ⟨result, hbind, rfl⟩ := Option.map_eq_some_iff.mp hstep
      obtain ⟨op₂, hperform, hcheck⟩ := Option.bind_eq_some_iff.mp hbind
      obtain rfl := Option.some.inj (hupdate.symm.trans hperform)
      exact ⟨op₁, result, hupdate, hcheck, .sum kind hbalanced⟩

end NumericArray

namespace BackedUp

variable {kind : ArrayKind} {length : ℕ} {thresh : ℚ} {s s' : BackedUp}

/-! ## The items at the server -/

/-- What every event preserves: the operator is behind a check, and the items at the server are its
backup. -/
structure Mirrored (kind : ArrayKind) (length : ℕ) (thresh : ℚ) (s : BackedUp) : Prop where
  inv : s.Inv length
  checked : s.op.Checked length thresh kind
  stored : KeyedSlots.writeEntries UInt32.toNat s.store.entries (fun _ => 0) = s.op.backupArray

theorem Mirrored.init (hthresh : 0 ≤ thresh) :
    (faultMachine kind length thresh).init.Mirrored kind length thresh := by
  have hlength := NumericArray.length_create (V := ℤ) kind length
  have hfresh : NumericArray.recover kind length [] = some (.create kind length : NumericArray ℤ) :=
    rfl
  refine ⟨⟨hlength, fun key hkey => absurd hkey List.not_mem_nil⟩,
    NumericArray.checked_recover hthresh hfresh hlength, ?_⟩
  exact (NumericArray.backupArray_create kind length).symm

/-- A check, with the backup that it may cause. -/
theorem exists_check {op₁ : NumericArray ℤ} {result : Option (Saved ℤ) × NumericArray ℤ}
    (hcheck : op₁.divergenceCheck thresh = some result)
    (hstored : KeyedSlots.writeEntries UInt32.toNat s.store.entries (fun _ => 0) =
      op₁.backupArray) :
    ∃ s', step thresh { s with op := op₁ } .check = some s' ∧ s'.op = result.2 ∧
      s'.op.array = op₁.array ∧
      KeyedSlots.writeEntries UInt32.toNat s'.store.entries (fun _ => 0) = s'.op.backupArray := by
  obtain ⟨item, op'⟩ := result
  cases item with
  | none =>
      refine ⟨{ s with op := op' }, ?_, rfl, ?_, ?_⟩
      · rw [step, hcheck]
        rfl
      · rw [NumericArray.divergenceCheck_none hcheck]
      · rw [NumericArray.divergenceCheck_none hcheck]
        exact hstored
  | some saved =>
      obtain ⟨-, -, -, harray, hbackup⟩ :=
        NumericArray.serializeState_eq_some (NumericArray.divergenceCheck_some hcheck)
      refine ⟨{ op := op', store := s.store.put saved.index saved.value }, ?_, rfl, harray, ?_⟩
      · rw [step, hcheck]
        rfl
      · rw [s.store.writeEntries_put index_injective, hstored, hbackup]

/-- A record. -/
theorem Mirrored.process (h : s.Mirrored kind length thresh) (hthresh : 0 ≤ thresh)
    (hlength : length < 2 ^ 32) {r : RecordChange} (hr : r.Gentle kind length) :
    ∃ s', faultStep kind length thresh s (.process r) = some s' ∧
      s'.Mirrored kind length thresh ∧ s'.op.array = r.apply s.op.array := by
  obtain ⟨op₁, result, hupdate, hcheck, hchecked⟩ :=
    h.checked.exists_iterate hthresh hlength hr
  obtain ⟨hindex, -, harray₁, hbackup₁⟩ := NumericArray.updateValue_eq_some hupdate
  obtain ⟨s', hs', hop, harray, hstored⟩ :=
    exists_check hcheck (h.stored.trans hbackup₁.symm)
  have hfirst : s.step thresh (.update ⟨r.index, r.change (s.op.array r.index.toNat)⟩) =
      some { s with op := op₁ } := by
    rw [step, hupdate]
    rfl
  refine ⟨s', ?_, ⟨(h.inv.step hfirst).step hs', hop ▸ hchecked, hstored⟩, harray.trans harray₁⟩
  rw [faultStep, NumericArray.getValue, if_pos hindex, Option.bind_some, hfirst, Option.bind_some]
  exact hs'

/-- An empty poll. -/
theorem Mirrored.poll (h : s.Mirrored kind length thresh) :
    faultStep kind length thresh s .poll = some s := by
  rw [faultStep, step, h.checked.divergenceCheck]
  rfl

/-- A crash: the new operator has the elements of the backup. -/
theorem Mirrored.crash (h : s.Mirrored kind length thresh) (hthresh : 0 ≤ thresh) :
    ∃ s', faultStep kind length thresh s .crash = some s' ∧
      s'.Mirrored kind length thresh ∧ s'.op.array = s.op.backupArray := by
  have hrange : ∀ item ∈ s.store.entries.map fun entry => (⟨entry.1, entry.2⟩ : Saved ℤ),
      item.index.toNat < (NumericArray.create kind length : NumericArray ℤ).length := by
    intro item hitem
    obtain ⟨entry, hentry, rfl⟩ := List.mem_map.mp hitem
    rw [NumericArray.length_create]
    exact h.inv.keys_lt entry.1 (List.mem_map_of_mem hentry)
  obtain ⟨op, hop, hlength, harray, hbackup⟩ := NumericArray.foldlM_recoveryState hrange
  rw [List.foldl_map, NumericArray.array_create] at harray
  rw [List.foldl_map, NumericArray.backupArray_create] at hbackup
  rw [NumericArray.length_create] at hlength
  refine ⟨{ s with op := op }, ?_, ⟨⟨hlength, h.inv.keys_lt⟩,
    NumericArray.checked_recover hthresh hop hlength, hbackup.symm⟩, harray.trans h.stored⟩
  exact congrArg (Option.map fun op => { s with op := op }) hop

/-! ## The error -/

theorem arrayDist_apply_le {r : RecordChange} (hr : r.Gentle kind length) (a b : ℕ → ℤ) :
    arrayDist kind length (r.apply a) (r.apply b) ≤ arrayDist kind length a b :=
  dist_vector_update_le hr.nonexpansive r.index.toNat a b

theorem arrayDist_effect {r : RecordChange} (hr : r.Gentle kind length) (a : ℕ → ℤ) :
    arrayDist kind length a (r.apply a) = (r.effect a : ℝ) := by
  rw [arrayDist, dist_comm]
  exact dist_vector_update hr.index_lt a _

theorem arrayDist_triangle (a b c : ℕ → ℤ) :
    arrayDist kind length a c ≤ arrayDist kind length a b + arrayDist kind length b c :=
  dist_triangle _ _ _

/-- **One event.** It can happen, and it brings the operator no farther from the ideal than it
costs. -/
theorem Mirrored.exists_step (h : s.Mirrored kind length thresh) (hthresh : 0 ≤ thresh)
    (hlength : length < 2 ^ 32) (ideal : ℕ → ℤ) {event : FaultEvent}
    (hgentle : ∀ r, event.record? = some r → r.Gentle kind length) :
    ∃ s', (faultMachine kind length thresh).step s event = some s' ∧
      s'.Mirrored kind length thresh ∧
      arrayDist kind length s'.op.array (event.follow ideal) ≤
        arrayDist kind length s.op.array ideal + event.cost kind thresh ideal := by
  cases event with
  | process r =>
      have hr := hgentle r rfl
      obtain ⟨s', hs', hmirrored, harray⟩ := h.process hthresh hlength hr
      refine ⟨s', hs', hmirrored, ?_⟩
      rw [harray, FaultEvent.cost_process, add_zero]
      exact arrayDist_apply_le hr _ _
  | poll =>
      refine ⟨s, h.poll, h, ?_⟩
      rw [FaultEvent.cost_poll, add_zero]
      exact le_rfl
  | lose r =>
      refine ⟨s, rfl, h, ?_⟩
      rw [FaultEvent.cost_lose, ← arrayDist_effect (hgentle r rfl)]
      exact arrayDist_triangle _ _ _
  | crash =>
      obtain ⟨s', hs', hmirrored, harray⟩ := h.crash hthresh
      refine ⟨s', hs', hmirrored, ?_⟩
      rw [harray, FaultEvent.cost_crash]
      calc
        arrayDist kind length s.op.backupArray ideal ≤
            arrayDist kind length s.op.backupArray s.op.array +
              arrayDist kind length s.op.array ideal := arrayDist_triangle _ _ _
        _ ≤ kind.radius thresh + arrayDist kind length s.op.array ideal := by
          gcongr
          exact h.checked.dist_le hthresh
        _ = arrayDist kind length s.op.array ideal + kind.radius thresh := add_comm _ _

/-- A whole run keeps what an event preserves. -/
theorem Mirrored.runFrom (h : s.Mirrored kind length thresh) (hthresh : 0 ≤ thresh)
    (hlength : length < 2 ^ 32) {events : List FaultEvent}
    (hgentle : ∀ r ∈ events.filterMap FaultEvent.record?, r.Gentle kind length)
    (hrun : (faultMachine kind length thresh).runFrom s events = some s') :
    s'.Mirrored kind length thresh := by
  induction events generalizing s with
  | nil => exact Option.some.inj hrun ▸ h
  | cons event rest ih =>
      rw [Machine.runFrom_cons] at hrun
      obtain ⟨middle, hmiddle, hrest⟩ := Option.bind_eq_some_iff.mp hrun
      obtain ⟨_, hmiddle', hmirrored, -⟩ := h.exists_step hthresh hlength (fun _ => 0) fun r hr =>
        hgentle r (List.mem_filterMap.mpr ⟨event, List.mem_cons_self, hr⟩)
      obtain rfl := Option.some.inj (hmiddle.symm.trans hmiddle')
      refine ih hmirrored (fun r hr => ?_) hrest
      obtain ⟨other, hother, hsome⟩ := List.mem_filterMap.mp hr
      exact hgentle r (List.mem_filterMap.mpr ⟨other, List.mem_cons_of_mem event hother, hsome⟩)

/-- All events can happen, and the error is at most what they cost. -/
theorem exists_run_within_cost (kind : ArrayKind) {length : ℕ} (hlength : length < 2 ^ 32)
    {thresh : ℚ} (hthresh : 0 ≤ thresh) {events : List FaultEvent}
    (hgentle : ∀ r ∈ events.filterMap FaultEvent.record?, r.Gentle kind length) :
    ∃ s, (faultMachine kind length thresh).runFrom (faultMachine kind length thresh).init events =
        some s ∧
      arrayDist kind length s.op.array (FaultEvent.failureFree events) ≤
        Machine.totalCost FaultEvent.follow (FaultEvent.cost kind thresh) (fun _ => 0) events := by
  have hstep : ∀ {s : BackedUp} {ideal : ℕ → ℤ}, ∀ event ∈ events,
      s.Mirrored kind length thresh →
      ∃ next, (faultMachine kind length thresh).step s event = some next ∧
        next.Mirrored kind length thresh ∧
        arrayDist kind length next.op.array (event.follow ideal) ≤
          arrayDist kind length s.op.array ideal + event.cost kind thresh ideal :=
    fun event hevent hmirrored => hmirrored.exists_step hthresh hlength _ fun r hr =>
      hgentle r (List.mem_filterMap.mpr ⟨event, hevent, hr⟩)
  have hrun := Machine.exists_runFrom_within_budget
    FaultEvent.follow (FaultEvent.cost kind thresh) (Mirrored kind length thresh)
    (fun s ideal => arrayDist kind length s.op.array ideal) hstep (Mirrored.init hthresh)
    (fun _ => 0)
  obtain ⟨s, hs, -, herror⟩ := hrun
  have hstart : arrayDist kind length (faultMachine kind length thresh).init.op.array
      (fun _ => 0) = 0 := by
    change arrayDist kind length (NumericArray.create kind length).array (fun _ => 0) = 0
    rw [NumericArray.array_create]
    exact dist_self _
  rw [hstart, zero_add] at herror
  exact ⟨s, hs, herror⟩

/-- **The error of approximate recovery.** For each class, every threshold, every order of records
that are processed or lost, empty polls and crashes: all of it can happen, and then the arrays are
no farther from those of an operator that gets all records and never fails than one threshold for
each crash, and what each lost record would have changed. A record that is under way when the worker
crashes counts as lost. -/
theorem error_bounded (kind : ArrayKind) (length : ℕ) (hlength : length < 2 ^ 32) (thresh : ℚ)
    (hthresh : 0 ≤ thresh) (events : List FaultEvent)
    (hgentle : ∀ r ∈ events.filterMap FaultEvent.record?, r.Gentle kind length) :
    ∃ s, (faultMachine kind length thresh).runFrom (faultMachine kind length thresh).init events =
        some s ∧
      arrayDist kind length s.op.array (FaultEvent.failureFree events) ≤
        events.countP FaultEvent.isCrash * kind.radius thresh +
          (FaultEvent.lostEffect (fun _ => 0) events : ℝ) := by
  obtain ⟨s, hrun, herror⟩ := exists_run_within_cost kind hlength hthresh hgentle
  rw [FaultEvent.totalCost_eq] at herror
  exact ⟨s, hrun, herror⟩

theorem error_bounded_one_crash :
    ∃ s, (faultMachine .l2 3 4).runFrom (faultMachine .l2 3 4).init FaultEvent.oneCrash = some s ∧
      arrayDist .l2 3 s.op.array (FaultEvent.failureFree FaultEvent.oneCrash) ≤
        FaultEvent.oneCrash.countP FaultEvent.isCrash * ArrayKind.l2.radius 4 +
          (FaultEvent.lostEffect (fun _ => 0) FaultEvent.oneCrash : ℝ) := by
  refine error_bounded .l2 3 (by decide) 4 (by norm_num) FaultEvent.oneCrash fun r hr => ?_
  have hrecords : FaultEvent.oneCrash.filterMap FaultEvent.record? = [.add 1 2, .add 0 1] := rfl
  rw [hrecords, List.mem_cons, List.mem_singleton] at hr
  rcases hr with rfl | rfl
  · exact RecordChange.gentle_add (by decide) (by norm_num)
  · exact RecordChange.gentle_add (by decide) (by norm_num)

end BackedUp

end AFStream.Operator

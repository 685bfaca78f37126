/-
# Divergence as a sum

`NumericArray_L1` and `NumericArray_L2` keep the sum of all differences between an array
and its backup, and `SerializeState` backs up an element with the largest difference.
The module shows that the sum they keep is exact, that under one update an iteration it
stays within the threshold, and that without updates it drains to zero in as many calls
as there are elements that differ, if the loop over the array ends.
-/

import AFStream.Foundation.Residuals
import AFStream.Operator.DivergenceCheck

namespace AFStream.Operator

open AFStream.Foundation

/-- The classes whose divergence is a sum. -/
inductive SumKind
  | l1
  | l2
  deriving DecidableEq

namespace SumKind

/-- The class of an array. -/
def arrayKind : SumKind → ArrayKind
  | .l1 => .l1
  | .l2 => .l2

/-- An object of the class. -/
def object : SumKind → NumericArraySum ℤ → NumericArray ℤ
  | .l1, op => .l1 op
  | .l2, op => .l2 op

/-- The measure that the class applies to a difference. -/
def measure : SumKind → ℤ → ℤ
  | .l1 => absV
  | .l2 => sqr

/-- How far two values are apart: their distance, respectively its square. -/
def gap : SumKind → ℤ → ℤ → ℤ
  | .l1, a, b => |a - b|
  | .l2, a, b => (a - b) ^ 2

theorem measure_sub (kind : SumKind) (a b : ℤ) : kind.measure (a - b) = kind.gap a b := by
  cases kind with
  | l1 =>
      rw [measure, gap, absV]
      split_ifs with hneg
      · exact (abs_of_neg hneg).symm
      · exact (abs_of_nonneg (not_lt.mp hneg)).symm
  | l2 => exact (sq (a - b)).symm

theorem gap_nonneg (kind : SumKind) (a b : ℤ) : 0 ≤ kind.gap a b := by
  cases kind with
  | l1 => exact abs_nonneg _
  | l2 => exact sq_nonneg _

theorem gap_eq_zero_iff (kind : SumKind) {a b : ℤ} : kind.gap a b = 0 ↔ a = b := by
  cases kind with
  | l1 => rw [gap, abs_eq_zero, sub_eq_zero]
  | l2 => rw [gap, sq_eq_zero_iff, sub_eq_zero]

end SumKind

/-- The loop of `SerializeState` finds a largest value. -/
theorem NumericArraySum.selectIndex_isLargest (diff : ℕ → ℤ) {bound : ℕ} (hbound : 0 < bound) :
    IsLargest bound diff (selectIndex diff bound) := by
  refine ⟨selectIndex_lt diff hbound, ?_⟩
  clear hbound
  induction bound with
  | zero => exact fun i hi => absurd hi (Nat.not_lt_zero i)
  | succ bound ih =>
      have hlast : selectIndex diff (bound + 1) =
          if diff (selectIndex diff bound) < diff bound then bound else selectIndex diff bound := by
        rw [selectIndex, List.range_succ, List.foldl_append]
        rfl
      intro i hi
      rw [hlast]
      rcases Nat.lt_succ_iff_lt_or_eq.mp hi with hbelow | rfl
      · have hle := ih i hbelow
        split_ifs with hmore
        · exact hle.trans hmore.le
        · exact hle
      · split_ifs with hmore
        · exact le_rfl
        · exact not_lt.mp hmore

/-- Which element `SerializeState` chooses, and what it does to `tot_diff`. -/
theorem NumericArraySum.serializeState_select {measure : ℤ → ℤ} {op op' : NumericArraySum ℤ}
    {saved : Saved ℤ} (h : op.serializeState measure = some (saved, op')) :
    0 < op.length ∧ saved.index.toNat = selectIndex (op.diff measure) op.length ∧
      op'.totDiff = op.totDiff - op.diff measure saved.index.toNat := by
  unfold serializeState at h
  split_ifs at h with hlength
  have hindex := selectIndex_lt (op.diff measure) hlength.1
  have hcast : (UInt32.ofNat (selectIndex (op.diff measure) op.length)).toNat =
      selectIndex (op.diff measure) op.length := by
    apply UInt32.toNat_ofNat_of_lt
    exact hindex.trans hlength.2
  cases h
  rw [hcast]
  exact ⟨hlength.1, rfl, rfl⟩

/-- How far an element is from its backup. -/
def NumericArray.residual (kind : SumKind) (op : NumericArray ℤ) (i : ℕ) : ℤ :=
  kind.gap (op.array i) (op.backupArray i)

namespace SumKind

variable (kind : SumKind) (inner : NumericArraySum ℤ)

theorem length_object : (kind.object inner).length = inner.length := by
  cases kind <;> rfl

theorem calculateDivergence_object : (kind.object inner).calculateDivergence = inner.totDiff := by
  cases kind <;> rfl

theorem diff_object : inner.diff kind.measure = (kind.object inner).residual kind := by
  funext i
  rw [NumericArraySum.diff, measure_sub]
  cases kind <;> rfl

/-- `SerializeState` of both classes, on their common members. -/
theorem serializeState_object :
    (kind.object inner).serializeState =
      (inner.serializeState kind.measure).map fun result => (result.1, kind.object result.2) := by
  cases kind <;> rfl

end SumKind

namespace NumericArray

/-- The true total difference between the array and its backup. -/
def trueDifference (kind : SumKind) (op : NumericArray ℤ) : ℤ :=
  residualTotal op.length (op.residual kind)

/-- The indices where the array differs from its backup. -/
def differing (op : NumericArray ℤ) : Finset ℕ :=
  (Finset.range op.length).filter fun i => op.array i ≠ op.backupArray i

/-- An array of the class whose `tot_diff` is the true total difference. -/
structure Tracked (kind : SumKind) (op : NumericArray ℤ) : Prop where
  shape : ∃ inner, op = kind.object inner
  exact : op.calculateDivergence = op.trueDifference kind

variable {kind : SumKind} {thresh : ℚ} {op op' : NumericArray ℤ}

theorem differing_eq (kind : SumKind) (op : NumericArray ℤ) :
    op.differing = outstanding op.length (op.residual kind) := by
  apply Finset.filter_congr
  intro i _
  exact not_congr kind.gap_eq_zero_iff.symm

theorem residual_nonneg (kind : SumKind) (op : NumericArray ℤ) (i : ℕ) : 0 ≤ op.residual kind i :=
  kind.gap_nonneg _ _

/-- An array that equals its backup. -/
theorem residual_of_eq (h : op.array = op.backupArray) : op.residual kind = 0 := by
  funext i
  exact kind.gap_eq_zero_iff.mpr (congrFun h i)

theorem trueDifference_of_eq (h : op.array = op.backupArray) : op.trueDifference kind = 0 := by
  rw [trueDifference, residual_of_eq h]
  exact Finset.sum_const_zero

/-! ## What each call does to the differences -/

/-- A fresh array, after the recovery of any items, equals its backup. -/
theorem recover_sum {length : ℕ} {items : List (Saved ℤ)} {start : NumericArray ℤ}
    (hstart : recover kind.arrayKind length items = some start) :
    start.length = length ∧ start.Tracked kind ∧ start.trueDifference kind = 0 := by
  suffices h : start.length = length ∧ (∃ inner, start = kind.object inner ∧ inner.totDiff = 0) ∧
      start.array = start.backupArray by
    obtain ⟨hlength, ⟨inner, rfl, hzero⟩, hsame⟩ := h
    refine ⟨hlength, ⟨⟨inner, rfl⟩, ?_⟩, trueDifference_of_eq hsame⟩
    rw [trueDifference_of_eq hsame, kind.calculateDivergence_object, hzero]
  induction items using List.reverseRecOn generalizing start with
  | nil =>
      obtain rfl := Option.some.inj hstart
      cases kind with
      | l1 => exact ⟨rfl, ⟨_, rfl, rfl⟩, rfl⟩
      | l2 => exact ⟨rfl, ⟨_, rfl, rfl⟩, rfl⟩
  | append_singleton rest item ih =>
      rw [recover, List.foldlM_append] at hstart
      obtain ⟨middle, hmiddle, hlast⟩ := Option.bind_eq_some_iff.mp hstart
      obtain ⟨hlength, ⟨inner, rfl, hzero⟩, hsame⟩ := ih hmiddle
      have hstep : recoveryState (kind.object inner) item = some start := by
        simpa using hlast
      obtain ⟨hindex, hlength', harray, hbackup⟩ := recoveryState_eq_some hstep
      refine ⟨hlength'.trans hlength, ?_, ?_⟩
      · unfold recoveryState at hstep
        rw [if_pos hindex] at hstep
        cases kind with
        | l1 => exact ⟨_, (Option.some.inj hstep).symm, hzero⟩
        | l2 => exact ⟨_, (Option.some.inj hstep).symm, hzero⟩
      · rw [harray, hbackup, hsame]

/-- `Clear` -/
theorem Tracked.clear (h : op.Tracked kind) :
    op.clear.Tracked kind ∧ op.clear.trueDifference kind = 0 := by
  obtain ⟨inner, rfl⟩ := h.shape
  have hsame : (kind.object inner).clear.array = (kind.object inner).clear.backupArray := by
    cases kind <;> rfl
  have hzero : (kind.object inner).clear.trueDifference kind = 0 := trueDifference_of_eq hsame
  refine ⟨⟨?_, ?_⟩, hzero⟩
  · cases kind with
    | l1 => exact ⟨_, rfl⟩
    | l2 => exact ⟨_, rfl⟩
  · rw [hzero, calculateDivergence_clear]

/-- `UpdateValue` changes one difference. -/
theorem residual_updateValue {update : Update ℤ} (hupdate : op.updateValue update = some op') :
    op'.residual kind = Function.update (op.residual kind) update.index.toNat
      (kind.gap update.value (op.backupArray update.index.toNat)) := by
  obtain ⟨-, -, harray, hbackup⟩ := updateValue_eq_some hupdate
  funext i
  rw [residual, harray, hbackup]
  by_cases hi : i = update.index.toNat
  · rw [hi, Function.update_self, Function.update_self]
  · rw [Function.update_of_ne hi, Function.update_of_ne hi]
    rfl

/-- `UpdateValue` follows the change. -/
theorem Tracked.updateValue (h : op.Tracked kind) {update : Update ℤ}
    (hupdate : op.updateValue update = some op') : op'.Tracked kind := by
  obtain ⟨hindex, hlength, -, -⟩ := updateValue_eq_some hupdate
  have htotal : op'.trueDifference kind = op.trueDifference kind -
      op.residual kind update.index.toNat +
        kind.gap update.value (op.backupArray update.index.toNat) := by
    rw [trueDifference, hlength, residual_updateValue hupdate, residualTotal_update hindex]
    rfl
  rw [← h.exact] at htotal
  obtain ⟨inner, rfl⟩ := h.shape
  unfold NumericArray.updateValue at hupdate
  rw [if_pos hindex] at hupdate
  cases kind with
  | l1 =>
      obtain rfl := Option.some.inj hupdate
      refine ⟨⟨_, rfl⟩, htotal.symm ▸ ?_⟩
      simp only [residual, ← SumKind.measure_sub]
      rfl
  | l2 =>
      obtain rfl := Option.some.inj hupdate
      refine ⟨⟨_, rfl⟩, htotal.symm ▸ ?_⟩
      simp only [residual, ← SumKind.measure_sub]
      rfl

/-- `SerializeState` settles one difference. -/
theorem residual_serializeState {saved : Saved ℤ}
    (hserialize : op.serializeState = some (saved, op')) :
    op'.residual kind = Function.update (op.residual kind) saved.index.toNat 0 := by
  obtain ⟨-, hvalue, -, harray, hbackup⟩ := serializeState_eq_some hserialize
  funext i
  rw [residual, harray, hbackup]
  by_cases hi : i = saved.index.toNat
  · rw [hi, Function.update_self, Function.update_self, hvalue]
    exact kind.gap_eq_zero_iff.mpr rfl
  · rw [Function.update_of_ne hi, Function.update_of_ne hi]
    rfl

/-- The total without the settled difference. -/
theorem trueDifference_serializeState {saved : Saved ℤ}
    (hserialize : op.serializeState = some (saved, op')) :
    op'.trueDifference kind =
      op.trueDifference kind - op.residual kind saved.index.toNat := by
  obtain ⟨hindex, -, hlength, -, -⟩ := serializeState_eq_some hserialize
  rw [trueDifference, hlength, residual_serializeState hserialize, residualTotal_update hindex,
    add_zero]
  rfl

/-- A call of `SerializeState` returns when the array is neither empty nor too long for the
loop variable. -/
theorem Tracked.exists_serializeState (h : op.Tracked kind) (hpos : 0 < op.length)
    (hlength : op.length < 2 ^ 32) : ∃ saved op', op.serializeState = some (saved, op') := by
  obtain ⟨inner, rfl⟩ := h.shape
  rw [kind.length_object] at hpos hlength
  have hreturns : ∃ result, inner.serializeState kind.measure = some result := by
    unfold NumericArraySum.serializeState
    rw [if_pos ⟨hpos, hlength⟩]
    exact ⟨_, rfl⟩
  obtain ⟨⟨saved, inner'⟩, hinner⟩ := hreturns
  refine ⟨saved, kind.object inner', ?_⟩
  rw [kind.serializeState_object, hinner]
  rfl

/-- Otherwise it does not. -/
theorem Tracked.serializeState_eq_none (h : op.Tracked kind) (hlength : 2 ^ 32 ≤ op.length) :
    op.serializeState = none := by
  obtain ⟨inner, rfl⟩ := h.shape
  rw [kind.length_object] at hlength
  have hlong : ¬ (0 < inner.length ∧ inner.length < 2 ^ 32) :=
    fun hshort => absurd hshort.2 (not_lt.mpr hlength)
  rw [kind.serializeState_object, NumericArraySum.serializeState, if_neg hlong]
  rfl

/-- `SerializeState` chooses a largest difference and subtracts it. -/
theorem Tracked.serializeState (h : op.Tracked kind) {saved : Saved ℤ}
    (hserialize : op.serializeState = some (saved, op')) :
    op'.Tracked kind ∧ IsLargest op.length (op.residual kind) saved.index.toNat := by
  have htotal : op'.trueDifference kind = _ := trueDifference_serializeState hserialize
  rw [← h.exact] at htotal
  obtain ⟨inner, rfl⟩ := h.shape
  rw [kind.serializeState_object] at hserialize
  obtain ⟨⟨saved, inner'⟩, hinner, hresult⟩ := Option.map_eq_some_iff.mp hserialize
  cases hresult
  obtain ⟨hpos, hselect, htot⟩ := NumericArraySum.serializeState_select hinner
  rw [kind.diff_object] at hselect htot
  refine ⟨⟨⟨inner', rfl⟩, ?_⟩, ?_⟩
  · rw [htotal, kind.calculateDivergence_object, kind.calculateDivergence_object, htot]
  · rw [kind.length_object, hselect]
    exact NumericArraySum.selectIndex_isLargest _ hpos

/-! ## One update an iteration -/

/-- What the application does with an operator in one iteration of the compute loop. -/
inductive SingleCall
  | idle
  | update (written : Update ℤ)
  | clear

/-- The call itself. -/
def SingleCall.perform (op : NumericArray ℤ) : SingleCall → Option (NumericArray ℤ)
  | .idle => some op
  | .update written => op.updateValue written
  | .clear => some op.clear

/-- An index within the array. -/
def SingleCall.InRange (length : ℕ) : SingleCall → Prop
  | .update written => written.index.toNat < length
  | _ => True

/-- The loop with at most one call an iteration, each followed by the check. -/
def singleLoop (thresh : ℚ) (start : NumericArray ℤ) : Machine (NumericArray ℤ) SingleCall where
  init := start
  step := fun op call => ((call.perform op).bind (divergenceCheck thresh)).map Prod.snd

/-- The true total difference is at most the threshold. -/
def TotalWithin (kind : SumKind) (thresh : ℚ) (op : NumericArray ℤ) : Prop :=
  (op.trueDifference kind : ℚ) ≤ thresh

/-- An exact total that does not exceed the threshold causes no backup. -/
theorem Tracked.divergenceCheck_of_within (h : op.Tracked kind)
    (hwithin : op.TotalWithin kind thresh) : op.divergenceCheck thresh = some (none, op) := by
  apply if_neg
  rw [h.exact]
  exact not_lt.mpr hwithin

/-- A check of an exact total. -/
theorem Tracked.divergenceCheck (h : op.Tracked kind) {item : Option (Saved ℤ)}
    (hcheck : op.divergenceCheck thresh = some (item, op')) :
    op'.Tracked kind ∧ op'.length = op.length := by
  cases item with
  | none =>
      obtain rfl := divergenceCheck_none hcheck
      exact ⟨h, rfl⟩
  | some saved =>
      have hserialize := divergenceCheck_some hcheck
      obtain ⟨-, -, hlength, -, -⟩ := serializeState_eq_some hserialize
      exact ⟨(h.serializeState hserialize).1, hlength⟩

/-- One iteration with an update: if the total is too large afterwards, the backup of the
largest difference removes at least what the update added. -/
theorem Tracked.within_update (h : op.Tracked kind) (hwithin : op.TotalWithin kind thresh)
    {update : Update ℤ} {op₁ : NumericArray ℤ} (hupdate : op.updateValue update = some op₁)
    {item : Option (Saved ℤ)} (hcheck : op₁.divergenceCheck thresh = some (item, op')) :
    op'.TotalWithin kind thresh := by
  have h₁ := h.updateValue hupdate
  obtain ⟨hindex, hlength₁, -, -⟩ := updateValue_eq_some hupdate
  by_cases hsmall : op₁.TotalWithin kind thresh
  · rw [h₁.divergenceCheck_of_within hsmall] at hcheck
    cases hcheck
    exact hsmall
  · have hfires : thresh < (op₁.calculateDivergence : ℚ) := by
      rw [h₁.exact]
      exact not_le.mp hsmall
    rw [NumericArray.divergenceCheck, if_pos hfires] at hcheck
    obtain ⟨⟨saved, op₂⟩, hserialize, hresult⟩ := Option.map_eq_some_iff.mp hcheck
    cases hresult
    obtain ⟨-, -, hlength₂, -, -⟩ := serializeState_eq_some hserialize
    have hlargest := (h₁.serializeState hserialize).2
    rw [hlength₁, residual_updateValue hupdate] at hlargest
    have hle : op₂.trueDifference kind ≤ op.trueDifference kind := by
      rw [trueDifference, trueDifference, hlength₂, hlength₁, residual_serializeState hserialize,
        residual_updateValue hupdate]
      exact hlargest.total_settle_le hindex (op.residual_nonneg kind _)
    exact (Int.cast_le.mpr hle).trans hwithin

/-- A check returns when the array is short enough for the loop variable. -/
theorem Tracked.exists_divergenceCheck (h : op.Tracked kind) (hthresh : 0 ≤ thresh)
    (hlength : op.length < 2 ^ 32) : ∃ result, op.divergenceCheck thresh = some result := by
  by_cases hwithin : op.TotalWithin kind thresh
  · exact ⟨_, h.divergenceCheck_of_within hwithin⟩
  · have hpos : 0 < op.length := by
      apply Nat.pos_of_ne_zero
      intro hzero
      apply hwithin
      rw [TotalWithin, trueDifference, hzero]
      exact_mod_cast hthresh
    obtain ⟨saved, op', hserialize⟩ := h.exists_serializeState hpos hlength
    refine ⟨(some saved, op'), ?_⟩
    have hfires : thresh < (op.calculateDivergence : ℚ) := by
      rw [h.exact]
      exact not_le.mp hwithin
    rw [NumericArray.divergenceCheck, if_pos hfires, hserialize]
    rfl

/-- What every iteration preserves. -/
structure Balanced (kind : SumKind) (length : ℕ) (thresh : ℚ) (op : NumericArray ℤ) : Prop where
  length_eq : op.length = length
  tracked : op.Tracked kind
  within : op.TotalWithin kind thresh

variable {length : ℕ} {call : SingleCall}

/-- One iteration. -/
theorem Balanced.step (hthresh : 0 ≤ thresh) (start : NumericArray ℤ)
    (h : op.Balanced kind length thresh)
    (hstep : (singleLoop thresh start).step op call = some op') :
    op'.Balanced kind length thresh := by
  obtain ⟨⟨item, result⟩, hbind, rfl⟩ := Option.map_eq_some_iff.mp hstep
  obtain ⟨op₁, hperform, hcheck⟩ := Option.bind_eq_some_iff.mp hbind
  cases call with
  | idle =>
      obtain rfl := Option.some.inj hperform
      rw [h.tracked.divergenceCheck_of_within h.within] at hcheck
      cases hcheck
      exact h
  | update written =>
      obtain ⟨-, hlength, -, -⟩ := updateValue_eq_some hperform
      obtain ⟨htracked, hlength'⟩ := (h.tracked.updateValue hperform).divergenceCheck hcheck
      exact ⟨hlength'.trans (hlength.trans h.length_eq), htracked,
        h.tracked.within_update h.within hperform hcheck⟩
  | clear =>
      obtain rfl := Option.some.inj hperform
      obtain ⟨hclear, hzero⟩ := h.tracked.clear
      have hsmall : op.clear.TotalWithin kind thresh := by
        rw [TotalWithin, hzero]
        exact_mod_cast hthresh
      rw [hclear.divergenceCheck_of_within hsmall] at hcheck
      cases hcheck
      exact ⟨(length_clear op).trans h.length_eq, hclear, hsmall⟩

/-- An iteration with an index within the array can be performed. -/
theorem Balanced.exists_step (hthresh : 0 ≤ thresh) (start : NumericArray ℤ)
    (h : op.Balanced kind length thresh) (hlength : length < 2 ^ 32)
    (hrange : call.InRange length) :
    ∃ op', (singleLoop thresh start).step op call = some op' := by
  have hperform : ∃ op₁, call.perform op = some op₁ ∧ op₁.Tracked kind ∧
      op₁.length = op.length := by
    cases call with
    | idle => exact ⟨op, rfl, h.tracked, rfl⟩
    | update written =>
        obtain ⟨op₁, hop₁⟩ := exists_updateValue (h.length_eq.symm ▸ hrange)
        obtain ⟨-, hlength₁, -, -⟩ := updateValue_eq_some hop₁
        exact ⟨op₁, hop₁, h.tracked.updateValue hop₁, hlength₁⟩
    | clear => exact ⟨op.clear, rfl, h.tracked.clear.1, length_clear op⟩
  obtain ⟨op₁, hop₁, h₁, hlength₁⟩ := hperform
  have hshort : op₁.length < 2 ^ 32 := by
    rw [hlength₁, h.length_eq]
    exact hlength
  obtain ⟨result, hresult⟩ := h₁.exists_divergenceCheck hthresh hshort
  refine ⟨result.2, ?_⟩
  simp only [singleLoop, hop₁, Option.bind_some, hresult, Option.map_some]

/-- **The arrays stay within their threshold.** For both classes, every length, every
threshold, every recovered array and every run with at most one update, or a `Clear`,
before each check: after every check the true total difference is at most the threshold.
Every such run can be performed if its indices are within an array whose elements the loop
variable of `SerializeState` can count. -/
theorem total_within_threshold (kind : SumKind) (length : ℕ) (thresh : ℚ) (hthresh : 0 ≤ thresh)
    (items : List (Saved ℤ)) {start : NumericArray ℤ}
    (hstart : recover kind.arrayKind length items = some start) (calls : List SingleCall) :
    (singleLoop thresh start).Always (fun op =>
        ((∑ i ∈ Finset.range op.length, kind.gap (op.array i) (op.backupArray i) : ℤ) : ℚ) ≤ thresh)
        start calls ∧
      (length < 2 ^ 32 → (∀ call ∈ calls, call.InRange length) →
        ∃ op, (singleLoop thresh start).runFrom start calls = some op) := by
  obtain ⟨hlength, htracked, hzero⟩ := recover_sum hstart
  have hinv : start.Balanced kind length thresh := by
    refine ⟨hlength, htracked, ?_⟩
    rw [TotalWithin, hzero]
    exact_mod_cast hthresh
  constructor
  · exact Machine.Always.of_invariant (Balanced kind length thresh) (fun h => h.within)
      (fun h hstep => h.step hthresh start hstep) hinv calls
  · intro hshort hrange
    obtain ⟨op, hrun, -⟩ := Machine.runFrom_progress (Balanced kind length thresh)
      (fun call hcall h => by
        obtain ⟨next, hnext⟩ := h.exists_step hthresh start hshort (hrange call hcall)
        exact ⟨next, hnext, h.step hthresh start hnext⟩) hinv
    exact ⟨op, hrun⟩

/-- A recovered `NumericArray_L1` of two elements. -/
def recoveredPair : NumericArray ℤ :=
  .l1 ⟨2, Function.update (fun _ => 0) 1 4, Function.update (fun _ => 0) 1 4, 0⟩

/-- Two updates, each of which exceeds the threshold for a moment. -/
theorem total_within_threshold_two_updates :
    recover SumKind.l1.arrayKind 2 [⟨1, 4⟩] = some recoveredPair ∧
      ∃ op, (singleLoop 3 recoveredPair).runFrom recoveredPair
        [.update ⟨0, -5⟩, .update ⟨1, 9⟩, .clear] = some op := by
  have hstart : recover SumKind.l1.arrayKind 2 [⟨1, 4⟩] = some recoveredPair := rfl
  exact ⟨hstart, (total_within_threshold .l1 2 3 (by norm_num) [⟨1, 4⟩] hstart
    [.update ⟨0, -5⟩, .update ⟨1, 9⟩, .clear]).2 (by decide) (by simp [SingleCall.InRange])⟩

/-! ## Draining -/

/-- The calls on an operator. -/
inductive ArrayCall
  | update (written : Update ℤ)
  | clear
  | serialize

/-- The calls on an operator that starts in a given state. -/
def callMachine (start : NumericArray ℤ) : Machine (NumericArray ℤ) ArrayCall where
  init := start
  step := fun op call =>
    match call with
    | .update written => op.updateValue written
    | .clear => some op.clear
    | .serialize => op.serializeState.map Prod.snd

/-- A number of calls of `SerializeState`, without updates between them. -/
def serializeTimes (calls : ℕ) (op : NumericArray ℤ) : Option (NumericArray ℤ) :=
  (callMachine op).runFrom op (List.replicate calls .serialize)

/-- A number of checks of the compute loop, without updates between them: how many backups
they emit. -/
def backupsOfChecks (thresh : ℚ) : ℕ → NumericArray ℤ → Option ℕ
  | 0, _ => some 0
  | checks + 1, op =>
    (op.divergenceCheck thresh).bind fun
      | (none, op') => backupsOfChecks thresh checks op'
      | (some _, op') => (backupsOfChecks thresh checks op').map (· + 1)

/-- What a call of `SerializeState` does to an array that differs from its backup: it
selects an element with the largest difference, and both the number of elements that differ
and `tot_diff` decrease. -/
def Settles (kind : SumKind) (op : NumericArray ℤ) : Prop :=
  ∃ saved op', op.serializeState = some (saved, op') ∧ saved.index.toNat < op.length ∧
    (∀ i < op.length, kind.gap (op.array i) (op.backupArray i) ≤
      kind.gap (op.array saved.index.toNat) (op.backupArray saved.index.toNat)) ∧
    op'.differing.card + 1 = op.differing.card ∧
    op'.calculateDivergence < op.calculateDivergence

/-- Without further updates an array drains: every call settles one element as long as there
are any, and afterwards the array equals its backup; no threshold causes more backups than
that. -/
structure Drains (kind : SumKind) (op : NumericArray ℤ) : Prop where
  settles : ∀ calls < op.differing.card,
    ∃ op', op.serializeTimes calls = some op' ∧ op'.Settles kind
  drained : ∃ op', op.serializeTimes op.differing.card = some op' ∧
    (∀ i < op.length, op'.array i = op'.backupArray i) ∧ op'.calculateDivergence = 0
  backups : ∀ (thresh : ℚ) (checks : ℕ), 0 ≤ thresh →
    ∃ backups, op.backupsOfChecks thresh checks = some backups ∧ backups ≤ op.differing.card

/-- Every call keeps the total exact. -/
theorem Tracked.callStep {start : NumericArray ℤ} (h : op.Tracked kind) {call : ArrayCall}
    (hstep : (callMachine start).step op call = some op') :
    op'.Tracked kind ∧ op'.length = op.length := by
  cases call with
  | update written =>
      obtain ⟨-, hlength, -, -⟩ := updateValue_eq_some hstep
      exact ⟨h.updateValue hstep, hlength⟩
  | clear =>
      obtain rfl := Option.some.inj hstep
      exact ⟨h.clear.1, length_clear op⟩
  | serialize =>
      obtain ⟨⟨saved, result⟩, hserialize, rfl⟩ := Option.map_eq_some_iff.mp hstep
      obtain ⟨-, -, hlength, -, -⟩ := serializeState_eq_some hserialize
      exact ⟨(h.serializeState hserialize).1, hlength⟩

/-- One call of `SerializeState` while the array differs from its backup. -/
theorem Tracked.settle (h : op.Tracked kind) (hdiffering : op.differing.Nonempty) {saved : Saved ℤ}
    (hserialize : op.serializeState = some (saved, op')) :
    op'.differing.card + 1 = op.differing.card ∧
      op'.calculateDivergence < op.calculateDivergence := by
  obtain ⟨h', hlargest⟩ := h.serializeState hserialize
  obtain ⟨-, -, hlength, -, -⟩ := serializeState_eq_some hserialize
  rw [op.differing_eq kind] at hdiffering
  have hmem := hlargest.mem_outstanding (op.residual_nonneg kind) hdiffering
  constructor
  · rw [op.differing_eq kind, op'.differing_eq kind, hlength, residual_serializeState hserialize,
      outstanding_settle, Finset.card_erase_add_one hmem]
  · have hpos : 0 < op.residual kind saved.index.toNat :=
      lt_of_le_of_ne (op.residual_nonneg kind _) (Ne.symm (mem_outstanding.mp hmem).2)
    rw [h.exact, h'.exact, trueDifference_serializeState hserialize]
    exact sub_lt_self _ hpos

/-- An array that differs from its backup, and over which the loop ends. -/
theorem Tracked.settles (h : op.Tracked kind) (hdiffering : op.differing.Nonempty)
    (hlength : op.length < 2 ^ 32) : op.Settles kind := by
  obtain ⟨i, hi⟩ := hdiffering
  have hpos : 0 < op.length :=
    (Nat.zero_le i).trans_lt (Finset.mem_range.mp (Finset.mem_filter.mp hi).1)
  obtain ⟨saved, op', hserialize⟩ := h.exists_serializeState hpos hlength
  obtain ⟨hcard, hlt⟩ := h.settle ⟨i, hi⟩ hserialize
  have hlargest := (h.serializeState hserialize).2
  exact ⟨saved, op', hserialize, hlargest.1, hlargest.2, hcard, hlt⟩

/-- Any number of calls, up to the number of elements that differ. -/
theorem Tracked.serializeTimes (h : op.Tracked kind) (hlength : op.length < 2 ^ 32) {calls : ℕ}
    (hcalls : calls ≤ op.differing.card) :
    ∃ op', op.serializeTimes calls = some op' ∧ op'.Tracked kind ∧ op'.length = op.length ∧
      op'.differing.card + calls = op.differing.card := by
  induction calls with
  | zero => exact ⟨op, rfl, h, rfl, rfl⟩
  | succ calls ih =>
      obtain ⟨middle, hmiddle, htracked, hsame, hcard⟩ := ih (Nat.le_of_succ_le hcalls)
      have hdiffering : middle.differing.Nonempty := by
        apply Finset.card_pos.mp
        omega
      obtain ⟨saved, op', hserialize, -, -, hcard', -⟩ :=
        htracked.settles hdiffering (hsame.trans_lt hlength)
      obtain ⟨-, -, hlength', -, -⟩ := serializeState_eq_some hserialize
      refine ⟨op', ?_, (htracked.serializeState hserialize).1, hlength'.trans hsame, ?_⟩
      · rw [NumericArray.serializeTimes, List.replicate_succ', Machine.runFrom_concat_eq_some]
        refine ⟨middle, hmiddle, ?_⟩
        change middle.serializeState.map Prod.snd = some op'
        rw [hserialize]
        rfl
      · omega

/-- An array that does not differ from its backup. -/
theorem Tracked.divergence_of_differing (h : op.Tracked kind) (hnone : op.differing = ∅) :
    (∀ i < op.length, op.array i = op.backupArray i) ∧ op.calculateDivergence = 0 := by
  constructor
  · intro i hi
    by_contra hne
    have hmem : i ∈ op.differing := Finset.mem_filter.mpr ⟨Finset.mem_range.mpr hi, hne⟩
    rw [hnone] at hmem
    exact absurd hmem (Finset.notMem_empty i)
  · rw [h.exact]
    apply residualTotal_of_outstanding
    rw [← op.differing_eq kind, hnone]

/-- Any number of checks. -/
theorem Tracked.backupsOfChecks (hthresh : 0 ≤ thresh) (checks : ℕ) (h : op.Tracked kind)
    (hends : op.length < 2 ^ 32 ∨ op.differing = ∅) :
    ∃ backups, op.backupsOfChecks thresh checks = some backups ∧
      backups ≤ op.differing.card := by
  induction checks generalizing op with
  | zero => exact ⟨0, rfl, Nat.zero_le _⟩
  | succ checks ih =>
      by_cases hwithin : op.TotalWithin kind thresh
      · obtain ⟨backups, hbackups, hle⟩ := ih h hends
        refine ⟨backups, ?_, hle⟩
        rw [NumericArray.backupsOfChecks, h.divergenceCheck_of_within hwithin]
        exact hbackups
      · have hdiffering : op.differing.Nonempty := by
          rw [Finset.nonempty_iff_ne_empty]
          intro hnone
          apply hwithin
          rw [TotalWithin, ← h.exact, (h.divergence_of_differing hnone).2]
          exact_mod_cast hthresh
        have hlength : op.length < 2 ^ 32 := by
          rcases hends with hlength | hnone
          · exact hlength
          · exact absurd hnone hdiffering.ne_empty
        obtain ⟨saved, op', hserialize, -, -, hcard, -⟩ := h.settles hdiffering hlength
        obtain ⟨-, -, hlength', -, -⟩ := serializeState_eq_some hserialize
        obtain ⟨backups, hbackups, hle⟩ :=
          ih (h.serializeState hserialize).1 (.inl (hlength'.trans_lt hlength))
        refine ⟨backups + 1, ?_, by omega⟩
        have hfires : thresh < (op.calculateDivergence : ℚ) := by
          rw [h.exact]
          exact not_le.mp hwithin
        rw [NumericArray.backupsOfChecks, NumericArray.divergenceCheck, if_pos hfires, hserialize]
        simp only [Option.map_some, Option.bind_some, hbackups]

/-- **When pending differences drain.** For both classes and every state that is reached from
a recovered array by any calls: the array drains exactly when its elements can be counted by
the loop variable of `SerializeState`, or nothing is pending. -/
theorem drains_iff (kind : SumKind) (length : ℕ) (items : List (Saved ℤ))
    {start op : NumericArray ℤ} (hstart : recover kind.arrayKind length items = some start)
    {calls : List ArrayCall}
    (hrun : (callMachine start).runFrom start calls = some op) :
    op.Drains kind ↔ length < 2 ^ 32 ∨ op.differing = ∅ := by
  obtain ⟨hlength, htracked, -⟩ := recover_sum hstart
  obtain ⟨h, hop⟩ : op.Tracked kind ∧ op.length = length := by
    apply Machine.runFrom_invariant (fun op => op.Tracked kind ∧ op.length = length) _
      ⟨htracked, hlength⟩ hrun
    rintro state call next ⟨h, hlength⟩ hstep
    obtain ⟨h', hlength'⟩ := h.callStep hstep
    exact ⟨h', hlength'.trans hlength⟩
  constructor
  · intro hdrains
    by_contra hcond
    rw [not_or, not_lt] at hcond
    have hpos : 0 < op.differing.card :=
      Finset.card_pos.mpr (Finset.nonempty_iff_ne_empty.mpr hcond.2)
    obtain ⟨op', hop', saved, next, hserialize, -⟩ := hdrains.settles 0 hpos
    obtain rfl := Option.some.inj hop'
    rw [h.serializeState_eq_none (hop ▸ hcond.1)] at hserialize
    cases hserialize
  · intro hcond
    rw [← hop] at hcond
    refine ⟨?_, ?_, fun thresh checks hthresh => h.backupsOfChecks hthresh checks hcond⟩
    · intro calls hcalls
      have hshort : op.length < 2 ^ 32 := by
        rcases hcond with hshort | hnone
        · exact hshort
        · rw [hnone] at hcalls
          exact absurd hcalls (Nat.not_lt_zero calls)
      obtain ⟨op', hop', h', hsame, hcard⟩ := h.serializeTimes hshort hcalls.le
      refine ⟨op', hop', h'.settles (Finset.card_pos.mp ?_) (hsame.trans_lt hshort)⟩
      omega
    · rcases hcond with hshort | hnone
      · obtain ⟨op', hop', h', hsame, hcard⟩ := h.serializeTimes hshort le_rfl
        have hnone : op'.differing = ∅ := Finset.card_eq_zero.mp (by omega)
        obtain ⟨hequal, hzero⟩ := h'.divergence_of_differing hnone
        exact ⟨op', hop', fun i hi => hequal i (hsame.symm ▸ hi), hzero⟩
      · refine ⟨op, ?_, h.divergence_of_differing hnone⟩
        rw [hnone]
        rfl

/-- Two pending differences. -/
theorem drains_two_pending :
    recover SumKind.l2.arrayKind 3 ([] : List (Saved ℤ)) = some (create .l2 3) ∧
      ∃ op, (callMachine (create .l2 3)).runFrom (create .l2 3)
        [.update ⟨0, 5⟩, .update ⟨2, -3⟩] = some op ∧ op.Drains .l2 := by
  have hstart : recover SumKind.l2.arrayKind 3 ([] : List (Saved ℤ)) = some (create .l2 3) := rfl
  obtain ⟨op, hrun⟩ : ∃ op, (callMachine (create .l2 3)).runFrom (create .l2 3)
      [.update ⟨0, 5⟩, .update ⟨2, -3⟩] = some op := ⟨_, rfl⟩
  exact ⟨hstart, op, hrun, (drains_iff .l2 3 [] hstart hrun).mpr (.inl (by decide))⟩

/-- One element of an array of `2 ^ 32` elements has been updated. -/
def longArray : NumericArray ℤ :=
  .l1 ⟨2 ^ 32, Function.update (fun _ => 0) 0 5, fun _ => 0, 5⟩

/-- The loop of `SerializeState` over such an array never ends. -/
theorem not_drains_long_array :
    (callMachine (create .l1 (2 ^ 32))).runFrom (create .l1 (2 ^ 32)) [.update ⟨0, 5⟩] =
        some longArray ∧
      longArray.serializeState = none ∧ ¬ longArray.Drains .l1 := by
  have hnone : longArray.serializeState = none := by
    simp [longArray, serializeState, NumericArraySum.serializeState]
  refine ⟨rfl, hnone, fun hdrains => ?_⟩
  have hmem : 0 ∈ longArray.differing := by
    apply Finset.mem_filter.mpr
    exact ⟨Finset.mem_range.mpr (by simp [longArray, length]),
      by simp [longArray, array, backupArray]⟩
  obtain ⟨op, hop, saved, next, hserialize, -⟩ :=
    hdrains.settles 0 (Finset.card_pos.mpr ⟨0, hmem⟩)
  obtain rfl := Option.some.inj hop
  rw [hnone] at hserialize
  cases hserialize

end NumericArray

end AFStream.Operator

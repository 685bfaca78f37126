/-
# Contents and divergence of the sum arrays

`NumericArray_L1` and `NumericArray_L2` never recompute the sum of their differences. The
module follows any calls on an operator, recovered or fresh, and says what the elements and
the sum are in terms of the calls alone.
-/

import AFStream.Operator.SumDivergence

namespace AFStream.Operator

open AFStream.Foundation

namespace NumericArray

/-- The value that was last written to an index by calls, the latest one first; `Clear` writes
zero to all of them. -/
def lastWritten (i : ℕ) : List ArrayCall → Option ℤ
  | [] => none
  | .update written :: earlier =>
    if written.index.toNat = i then some written.value else lastWritten i earlier
  | .clear :: _ => some 0
  | .serialize :: earlier => lastWritten i earlier

/-- The value that was last recovered for an index, the latest item first. -/
def lastRecovered (i : ℕ) : List (Saved ℤ) → ℤ
  | [] => 0
  | item :: earlier => if item.index.toNat = i then item.value else lastRecovered i earlier

/-- The value that an index must have. -/
def expectedValue (items : List (Saved ℤ)) (calls : List ArrayCall) (i : ℕ) : ℤ :=
  (lastWritten i calls.reverse).getD (lastRecovered i items.reverse)

/-- A call within an array. -/
def ArrayCall.InRange (length : ℕ) : ArrayCall → Prop
  | .update written => written.index.toNat < length
  | .clear => True
  | .serialize => True

variable {kind : SumKind} {length : ℕ} {items : List (Saved ℤ)} {start op op' : NumericArray ℤ}

/-- The elements of a recovered array. -/
theorem array_recover (h : recover kind.arrayKind length items = some start) (i : ℕ) :
    start.array i = lastRecovered i items.reverse := by
  induction items using List.reverseRecOn generalizing start with
  | nil =>
      obtain rfl := Option.some.inj h
      cases kind with
      | l1 => rfl
      | l2 => rfl
  | append_singleton rest item ih =>
      rw [recover, List.foldlM_append] at h
      obtain ⟨middle, hmiddle, hlast⟩ := Option.bind_eq_some_iff.mp h
      have hstep : middle.recoveryState item = some start := by
        simpa using hlast
      obtain ⟨-, -, harray, -⟩ := recoveryState_eq_some hstep
      rw [harray, List.reverse_append, List.reverse_singleton, List.singleton_append,
        lastRecovered]
      by_cases hi : item.index.toNat = i
      · rw [if_pos hi, ← hi, Function.update_self]
      · rw [if_neg hi, Function.update_of_ne (Ne.symm hi)]
        exact ih hmiddle

/-- The elements after one more call. -/
theorem array_callStep {calls : List ArrayCall} {call : ArrayCall} {i : ℕ}
    (hbefore : op.array i = expectedValue items calls i)
    (hstep : (callMachine start).step op call = some op') :
    op'.array i = expectedValue items (calls ++ [call]) i := by
  rw [expectedValue] at hbefore ⊢
  rw [List.reverse_append, List.reverse_singleton, List.singleton_append]
  cases call with
  | update written =>
      obtain ⟨-, -, harray, -⟩ := updateValue_eq_some hstep
      rw [harray, lastWritten]
      by_cases hi : written.index.toNat = i
      · rw [if_pos hi, ← hi, Function.update_self]
        rfl
      · rw [if_neg hi, Function.update_of_ne (Ne.symm hi)]
        exact hbefore
  | clear =>
      obtain rfl := Option.some.inj hstep
      rw [array_clear]
      rfl
  | serialize =>
      obtain ⟨⟨saved, result⟩, hserialize, rfl⟩ := Option.map_eq_some_iff.mp hstep
      obtain ⟨-, -, -, harray, -⟩ := serializeState_eq_some hserialize
      rw [harray]
      exact hbefore

/-- The state after any calls. -/
theorem contents_of_run (hstart : recover kind.arrayKind length items = some start)
    {calls : List ArrayCall} (hrun : (callMachine start).runFrom start calls = some op) :
    op.Tracked kind ∧ op.length = length ∧ ∀ i, op.array i = expectedValue items calls i := by
  obtain ⟨hlength, htracked, -⟩ := recover_sum hstart
  induction calls using List.reverseRecOn generalizing op with
  | nil =>
      obtain rfl := Option.some.inj hrun
      exact ⟨htracked, hlength, array_recover hstart⟩
  | append_singleton rest call ih =>
      obtain ⟨middle, hmiddle, hstep⟩ := Machine.runFrom_concat_eq_some.mp hrun
      obtain ⟨h, hsame, hvalues⟩ := ih hmiddle
      obtain ⟨h', hsame'⟩ := h.callStep hstep
      exact ⟨h', hsame'.trans hsame, fun i => array_callStep (hvalues i) hstep⟩

/-- Calls within an array that is neither empty nor too long for the loop variable return. -/
theorem Tracked.exists_callStep (h : op.Tracked kind) (hpos : 0 < op.length)
    (hshort : op.length < 2 ^ 32) {call : ArrayCall} (hcall : call.InRange op.length) :
    ∃ op', (callMachine start).step op call = some op' := by
  cases call with
  | update written => exact exists_updateValue hcall
  | clear => exact ⟨op.clear, rfl⟩
  | serialize =>
      obtain ⟨saved, op', hserialize⟩ := h.exists_serializeState hpos hshort
      refine ⟨op', ?_⟩
      change op.serializeState.map Prod.snd = some op'
      rw [hserialize]
      rfl

/-- **The incremental divergence is exact.** For both classes, any recovered items and any
calls afterwards: the sum that the operator keeps is the sum of all differences between the
array and its backup, and every element is what was last written to it, recovered, or cleared.
The calls return if the array is not empty and its loop variable can count it. -/
theorem incremental_divergence_exact (kind : SumKind) (length : ℕ) (items : List (Saved ℤ))
    {start : NumericArray ℤ} (hstart : recover kind.arrayKind length items = some start)
    (calls : List ArrayCall) :
    (∀ op, (callMachine start).runFrom start calls = some op →
      op.calculateDivergence =
          ∑ i ∈ Finset.range length, kind.gap (op.array i) (op.backupArray i) ∧
        ∀ index : UInt32, index.toNat < length →
          op.getValue index = some (expectedValue items calls index.toNat)) ∧
    (0 < length → length < 2 ^ 32 → (∀ call ∈ calls, call.InRange length) →
      ∃ op, (callMachine start).runFrom start calls = some op) := by
  constructor
  · intro op hrun
    obtain ⟨h, hlength, hvalues⟩ := contents_of_run hstart hrun
    constructor
    · rw [h.exact, trueDifference, hlength]
      rfl
    · intro index hindex
      rw [getValue, if_pos (hlength.symm ▸ hindex), hvalues]
  · intro hpos hshort hcalls
    obtain ⟨hlength, htracked, -⟩ := recover_sum hstart
    have hstep : ∀ {op : NumericArray ℤ}, ∀ call ∈ calls, op.Tracked kind ∧ op.length = length →
        ∃ op', (callMachine start).step op call = some op' ∧ op'.Tracked kind ∧
          op'.length = length := by
      rintro op call hcall ⟨h, rfl⟩
      obtain ⟨op', hop'⟩ := h.exists_callStep hpos hshort (hcalls call hcall)
      exact ⟨op', hop', h.callStep hop'⟩
    obtain ⟨op, hrun, -⟩ := Machine.runFrom_progress _ hstep ⟨htracked, hlength⟩
    exact ⟨op, hrun⟩

/-- One recovered item, and calls that overwrite, save and clear. -/
theorem incremental_divergence_exact_recovered :
    ∃ start op, recover SumKind.l2.arrayKind 3 [⟨1, 4⟩] = some start ∧
      (callMachine start).runFrom start
        [.update ⟨0, 5⟩, .serialize, .update ⟨1, -2⟩, .update ⟨2, 7⟩] = some op ∧
      op.getValue 1 = some (-2) ∧
      op.calculateDivergence =
        ∑ i ∈ Finset.range 3, (op.array i - op.backupArray i) ^ 2 := by
  obtain ⟨start, hstart⟩ : ∃ start : NumericArray ℤ,
      recover SumKind.l2.arrayKind 3 [⟨1, 4⟩] = some start := ⟨_, rfl⟩
  obtain ⟨hexact, hreturns⟩ := incremental_divergence_exact .l2 3 [⟨1, 4⟩] hstart
    [.update ⟨0, 5⟩, .serialize, .update ⟨1, -2⟩, .update ⟨2, 7⟩]
  obtain ⟨op, hrun⟩ := hreturns (by decide) (by decide) (by simp [ArrayCall.InRange])
  obtain ⟨hdivergence, hvalues⟩ := hexact op hrun
  exact ⟨start, op, hstart, hrun, hvalues 1 (by decide), hdivergence⟩

end NumericArray

end AFStream.Operator

/-
# The divergence check of the compute loop

In each iteration a compute thread handles at most one item, which may call
`UpdateValue` any number of times, and then asks every operator for its divergence: if
it exceeds the threshold, one `SerializeState` is called and the item is saved. The
module follows one array operator with exact integers through the loop and determines
when `NumericArray_MAX` keeps every element within the threshold of its backup.
-/

import AFStream.Foundation.Machine
import AFStream.Operator.NumericArray

namespace AFStream.Operator

open AFStream.Foundation

/-- Two values that differ by at most the threshold. -/
def Within (thresh : ℚ) (a b : ℤ) : Prop := ((|a - b| : ℤ) : ℚ) ≤ thresh

instance (thresh : ℚ) (a b : ℤ) : Decidable (Within thresh a b) :=
  inferInstanceAs (Decidable (_ ≤ _))

namespace NumericArray

/-- The divergence check in `ThreadMainHandler`, with the item to save if there is one. -/
def divergenceCheck (thresh : ℚ) (op : NumericArray ℤ) :
    Option (Option (Saved ℤ) × NumericArray ℤ) :=
  if thresh < (op.calculateDivergence : ℚ) then
    op.serializeState.map fun result => (some result.1, result.2)
  else some (none, op)

/-- A check without a backup leaves the operator as it is. -/
theorem divergenceCheck_none {thresh : ℚ} {op op' : NumericArray ℤ}
    (h : op.divergenceCheck thresh = some (none, op')) : op' = op := by
  unfold divergenceCheck at h
  split_ifs at h with hdiverged
  · obtain ⟨result, -, hresult⟩ := Option.map_eq_some_iff.mp h
    cases hresult
  · cases h
    rfl

/-- A check with a backup is one call of `SerializeState`. -/
theorem divergenceCheck_some {thresh : ℚ} {op op' : NumericArray ℤ} {saved : Saved ℤ}
    (h : op.divergenceCheck thresh = some (some saved, op')) :
    op.serializeState = some (saved, op') := by
  unfold divergenceCheck at h
  split_ifs at h with hdiverged
  · obtain ⟨result, hserialize, hresult⟩ := Option.map_eq_some_iff.mp h
    cases hresult
    exact hserialize
  · cases h

/-- One iteration of the loop: the updates that the item causes, then the check. -/
def iterate (thresh : ℚ) (op : NumericArray ℤ) (updates : List (Update ℤ)) :
    Option (NumericArray ℤ) :=
  ((updates.foldlM updateValue op).bind (divergenceCheck thresh)).map Prod.snd

/-- The iterations of a loop that starts with a given operator. -/
def loop (thresh : ℚ) (start : NumericArray ℤ) : Machine (NumericArray ℤ) (List (Update ℤ)) where
  init := start
  step := iterate thresh

/-- Every element is within the threshold of its backup. -/
def Bounded (thresh : ℚ) (op : NumericArray ℤ) : Prop :=
  ∀ i < op.length, Within thresh (op.array i) (op.backupArray i)

/-- The elements after a sequence of updates. -/
def lastWrite (array : ℕ → ℤ) (updates : List (Update ℤ)) : ℕ → ℤ :=
  updates.foldl (fun a update => Function.update a update.index.toNat update.value) array

/-- How far an update goes above a backup. -/
def excess (backup : ℕ → ℤ) (update : Update ℤ) : ℤ :=
  update.value - backup update.index.toNat

/-- Each element that the updates leave too far from its backup is the one that the
highest of them (the first, among equals) writes, and that update goes above the backup
by more than the threshold. -/
def Covered (thresh : ℚ) (op : NumericArray ℤ) (updates : List (Update ℤ)) : Prop :=
  ∀ i < op.length, ¬ Within thresh (lastWrite op.array updates i) (op.backupArray i) →
    ∃ highest ∈ updates.argmax (excess op.backupArray),
      highest.index.toNat = i ∧ thresh < (excess op.backupArray highest : ℚ)

/-! ## The running maximum -/

/-- What a sequence of updates does to `max_diff` and its index. -/
inductive Highest (op : NumericArrayMax ℤ) (updates : List (Update ℤ))
    (op' : NumericArrayMax ℤ) : Prop
  | raised (highest : Update ℤ) (hargmax : highest ∈ updates.argmax (excess op.backupArray))
      (hlt : op.maxDiff < excess op.backupArray highest)
      (hdiff : op'.maxDiff = excess op.backupArray highest)
      (hindex : op'.maxDiffIndex = highest.index)
  | kept (hle : ∀ update ∈ updates, excess op.backupArray update ≤ op.maxDiff)
      (hdiff : op'.maxDiff = op.maxDiff)

/-- One more update, against the running maximum. -/
theorem Highest.updateValue {op op₁ : NumericArrayMax ℤ} {rest : List (Update ℤ)}
    (h : Highest op rest op₁) (hbackup : op₁.backupArray = op.backupArray) (update : Update ℤ) :
    Highest op (rest ++ [update]) (op₁.updateValue update.index update.value) := by
  have hexcess : update.value - op₁.backupArray update.index.toNat =
      excess op.backupArray update := by
    rw [hbackup]
    rfl
  cases h with
  | raised highest hargmax hlt hdiff hindex =>
      by_cases hraise : excess op.backupArray highest < excess op.backupArray update
      · refine .raised update ?_ (hlt.trans hraise) ?_ ?_
        · rw [List.argmax_concat, Option.mem_def.mp hargmax]
          simp [hraise]
        · simp [NumericArrayMax.updateValue, hdiff, hexcess, hraise]
        · simp [NumericArrayMax.updateValue, hdiff, hexcess, hraise]
      · refine .raised highest ?_ hlt ?_ ?_
        · rw [List.argmax_concat, Option.mem_def.mp hargmax]
          simp [hraise]
        · simp [NumericArrayMax.updateValue, hdiff, hexcess, hraise]
        · simp [NumericArrayMax.updateValue, hdiff, hexcess, hraise, hindex]
  | kept hle hdiff =>
      by_cases hraise : op.maxDiff < excess op.backupArray update
      · refine .raised update ?_ hraise ?_ ?_
        · rw [List.argmax_concat]
          cases hargmax : rest.argmax (excess op.backupArray) with
          | none => rfl
          | some other =>
              have hother := (hle other (List.argmax_mem hargmax)).trans_lt hraise
              simp [hother]
        · simp [NumericArrayMax.updateValue, hdiff, hexcess, hraise]
        · simp [NumericArrayMax.updateValue, hdiff, hexcess, hraise]
      · refine .kept ?_ ?_
        · intro other hother
          rcases List.mem_append.mp hother with hrest | hlast
          · exact hle other hrest
          · rw [List.mem_singleton.mp hlast]
            exact not_lt.mp hraise
        · simp [NumericArrayMax.updateValue, hdiff, hexcess, hraise]

/-- A whole sequence of updates of `NumericArray_MAX`. -/
theorem updates_max {op : NumericArrayMax ℤ} {updates : List (Update ℤ)}
    {result : NumericArray ℤ} (hfold : updates.foldlM updateValue (.max op) = some result) :
    ∃ op', result = .max op' ∧ (∀ update ∈ updates, update.index.toNat < op.length) ∧
      op'.length = op.length ∧ op'.backupArray = op.backupArray ∧
      op'.array = lastWrite op.array updates ∧ Highest op updates op' := by
  induction updates using List.reverseRecOn generalizing result with
  | nil =>
      obtain rfl := Option.some.inj hfold
      exact ⟨op, rfl, by simp, rfl, rfl, rfl, .kept (by simp) rfl⟩
  | append_singleton rest update ih =>
      rw [List.foldlM_append] at hfold
      obtain ⟨middle, hmiddle, hlast⟩ := Option.bind_eq_some_iff.mp hfold
      obtain ⟨op₁, rfl, hrange, hlength, hbackup, harray, hhighest⟩ := ih hmiddle
      have hstep : updateValue (.max op₁) update = some result := by
        simpa using hlast
      obtain ⟨hindex, hlength', harray', hbackup'⟩ := updateValue_eq_some hstep
      simp only [updateValue, if_pos hindex] at hstep
      obtain rfl := Option.some.inj hstep
      refine ⟨_, rfl, ?_, hlength'.trans hlength, hbackup'.trans hbackup, ?_,
        hhighest.updateValue hbackup update⟩
      · intro other hother
        rcases List.mem_append.mp hother with hrest | hlast
        · exact hrange other hrest
        · rw [List.mem_singleton.mp hlast, ← hlength]
          exact hindex
      · rw [lastWrite, List.foldl_append]
        exact harray'.trans (congrArg (fun a => Function.update a _ _) harray)

/-! ## The bound -/

/-- What every iteration preserves: nothing above the threshold is remembered. -/
def Quiet (thresh : ℚ) (op : NumericArray ℤ) : Prop :=
  ∃ op' : NumericArrayMax ℤ, op = .max op' ∧ (op'.maxDiff : ℚ) ≤ thresh

variable {thresh : ℚ} {op op₁ : NumericArrayMax ℤ} {updates : List (Update ℤ)}

/-- Where no update is above the threshold nothing is covered. -/
theorem covered_iff_of_le
    (hle : ∀ highest ∈ updates.argmax (excess op.backupArray),
      (excess op.backupArray highest : ℚ) ≤ thresh) :
    Covered thresh (.max op) updates ↔
      ∀ i < op.length, Within thresh (lastWrite op.array updates i) (op.backupArray i) := by
  constructor
  · intro hcovered i hi
    by_contra hfar
    obtain ⟨highest, hargmax, -, habove⟩ := hcovered i hi hfar
    exact absurd habove (not_lt.mpr (hle highest hargmax))
  · intro hwithin i hi hfar
    exact absurd (hwithin i hi) hfar

/-- Otherwise the element of the highest update is covered, and no other. -/
theorem covered_iff_of_lt {highest : Update ℤ}
    (hargmax : highest ∈ updates.argmax (excess op.backupArray))
    (habove : thresh < (excess op.backupArray highest : ℚ)) :
    Covered thresh (.max op) updates ↔
      ∀ i < op.length, i ≠ highest.index.toNat →
        Within thresh (lastWrite op.array updates i) (op.backupArray i) := by
  constructor
  · intro hcovered i hi hne
    by_contra hfar
    obtain ⟨other, hother, hindex, -⟩ := hcovered i hi hfar
    obtain rfl : highest = other := Option.mem_unique hargmax hother
    exact hne hindex.symm
  · intro hwithin i hi hfar
    refine ⟨highest, hargmax, ?_, habove⟩
    by_contra hne
    exact hfar (hwithin i hi (Ne.symm hne))

/-- One iteration without a backup. -/
theorem iterate_max_quiet (hquiet : (op₁.maxDiff : ℚ) ≤ thresh) (hlength : op₁.length = op.length)
    (hbackup : op₁.backupArray = op.backupArray) (harray : op₁.array = lastWrite op.array updates)
    (hle : ∀ highest ∈ updates.argmax (excess op.backupArray),
      (excess op.backupArray highest : ℚ) ≤ thresh) :
    divergenceCheck thresh (.max op₁) = some (none, .max op₁) ∧
      (Bounded thresh (.max op₁) ↔ Covered thresh (.max op) updates) := by
  constructor
  · exact if_neg (not_lt.mpr hquiet)
  · rw [covered_iff_of_le hle, Bounded]
    simp only [array, backupArray, length, hlength, hbackup, harray]

/-- One iteration: the backup goes to the highest update if that one is above the
threshold, and nothing is remembered then. -/
theorem iterate_max (hthresh : 0 ≤ thresh) (hquiet : (op.maxDiff : ℚ) ≤ thresh)
    {next : NumericArray ℤ} (hstep : iterate thresh (.max op) updates = some next) :
    Quiet thresh next ∧ (Bounded thresh next ↔ Covered thresh (.max op) updates) := by
  obtain ⟨⟨item, result⟩, hcheck, rfl⟩ := Option.map_eq_some_iff.mp hstep
  obtain ⟨middle, hfold, hcheck⟩ := Option.bind_eq_some_iff.mp hcheck
  obtain ⟨op₁, rfl, hrange, hlength, hbackup, harray, hhighest⟩ := updates_max hfold
  cases hhighest with
  | kept hle hdiff =>
      have hquiet₁ : (op₁.maxDiff : ℚ) ≤ thresh := by rwa [hdiff]
      obtain ⟨hnone, hiff⟩ := iterate_max_quiet hquiet₁ hlength hbackup harray
        fun highest hargmax =>
          (Int.cast_le.mpr (hle highest (List.argmax_mem hargmax))).trans hquiet
      obtain ⟨-, rfl⟩ := Prod.mk.inj (Option.some.inj (hnone.symm.trans hcheck))
      exact ⟨⟨op₁, rfl, hquiet₁⟩, hiff⟩
  | raised highest hargmax hlt hdiff hindex =>
      by_cases habove : thresh < (excess op.backupArray highest : ℚ)
      · have hin : op₁.maxDiffIndex.toNat < op₁.length := by
          rw [hindex, hlength]
          exact hrange highest (List.argmax_mem hargmax)
        have hfires : thresh < ((calculateDivergence (.max op₁) : ℤ) : ℚ) := by
          change thresh < (op₁.maxDiff : ℚ)
          rwa [hdiff]
        simp only [divergenceCheck, if_pos hfires, serializeState, NumericArrayMax.serializeState,
          if_pos hin, Option.map_some, Option.some.injEq, Prod.mk.injEq] at hcheck
        obtain ⟨-, rfl⟩ := hcheck
        refine ⟨⟨_, rfl, by simpa using hthresh⟩, ?_⟩
        rw [covered_iff_of_lt hargmax habove, Bounded]
        simp only [array, backupArray, length, hlength, hbackup, harray, hindex]
        refine forall_congr' fun i => imp_congr_right fun _ => ?_
        by_cases hi : i = highest.index.toNat
        · simp [hi, Within, hthresh]
        · simp [hi]
      · have hquiet₁ : (op₁.maxDiff : ℚ) ≤ thresh := by
          rw [hdiff]
          exact not_lt.mp habove
        obtain ⟨hnone, hiff⟩ := iterate_max_quiet hquiet₁ hlength hbackup harray
          fun other hother => by
            rw [Option.mem_unique hother hargmax]
            exact not_lt.mp habove
        obtain ⟨-, rfl⟩ := Prod.mk.inj (Option.some.inj (hnone.symm.trans hcheck))
        exact ⟨⟨op₁, rfl, hquiet₁⟩, hiff⟩

/-- A recovered operator equals its backup. -/
theorem recover_max {length : ℕ} {items : List (Saved ℤ)} {start : NumericArray ℤ}
    (hstart : recover .max length items = some start) :
    ∃ op, start = .max op ∧ op.maxDiff = 0 ∧ op.array = op.backupArray := by
  induction items using List.reverseRecOn generalizing start with
  | nil =>
      obtain rfl := Option.some.inj hstart
      exact ⟨_, rfl, rfl, rfl⟩
  | append_singleton rest item ih =>
      rw [recover, List.foldlM_append] at hstart
      obtain ⟨middle, hmiddle, hlast⟩ := Option.bind_eq_some_iff.mp hstart
      obtain ⟨op, rfl, hdiff, hsame⟩ := ih hmiddle
      have hstep : recoveryState (.max op) item = some start := by
        simpa using hlast
      obtain ⟨hindex, -⟩ := recoveryState_eq_some hstep
      simp only [recoveryState, if_pos hindex] at hstep
      obtain rfl := Option.some.inj hstep
      refine ⟨_, rfl, hdiff, ?_⟩
      simp [NumericArrayMax.recoveryState, hsame]

/-- **When `NumericArray_MAX` bounds the error.** For every length, threshold, recovered
state and sequence of iterations: every element is within the threshold of its backup
after all of the checks exactly when in each iteration the elements that are left too
far from their backups are covered by the highest update. -/
theorem bounded_iff_covered (length : ℕ) (thresh : ℚ) (hthresh : 0 ≤ thresh)
    (items : List (Saved ℤ)) {start : NumericArray ℤ}
    (hstart : recover .max length items = some start) (iterations : List (List (Update ℤ))) :
    (loop thresh start).Always (Bounded thresh) start iterations ↔
      (loop thresh start).AlwaysStep (Covered thresh) start iterations := by
  obtain ⟨op, rfl, hdiff, hsame⟩ := recover_max hstart
  apply Machine.always_iff_alwaysStep (Quiet thresh)
  · rintro state updates next ⟨op, rfl, hquiet⟩ - hstep
    obtain ⟨hquiet', hiff⟩ := iterate_max hthresh hquiet hstep
    exact ⟨hiff, fun _ => hquiet'⟩
  · exact ⟨op, rfl, by simpa [hdiff] using hthresh⟩
  · intro i hi
    simpa [Within, array, backupArray, hsame] using hthresh

/-- One update, far above its backup. -/
theorem bounded_iff_covered_one_update :
    recover .max 2 ([] : List (Saved ℤ)) = some (create .max 2) ∧
      (loop 1 (create .max 2)).Always (Bounded 1) (create .max 2) [[⟨0, 5⟩]] := by
  have hstart : recover .max 2 ([] : List (Saved ℤ)) = some (create .max 2) := rfl
  refine ⟨hstart, (bounded_iff_covered 2 1 (by norm_num) [] hstart _).mpr ?_⟩
  refine fun next _ => ⟨?_, trivial⟩
  intro i hi hfar
  have hzero : i = 0 := by
    by_contra hne
    apply hfar
    have hone : i = 1 := by
      change i < 2 at hi
      omega
    rw [hone]
    decide +kernel
  exact ⟨⟨0, 5⟩, rfl, hzero.symm, by decide +kernel⟩

/-- An item that updates two elements: the second one is never backed up. -/
theorem not_bounded_two_updates :
    recover .max 2 ([] : List (Saved ℤ)) = some (create .max 2) ∧
      ¬ (loop 1 (create .max 2)).Always (Bounded 1) (create .max 2) [[⟨0, 5⟩, ⟨1, 5⟩]] := by
  refine ⟨rfl, ?_⟩
  rintro ⟨-, halways⟩
  have hrun : ((loop 1 (create .max 2)).step (create .max 2) [⟨0, 5⟩, ⟨1, 5⟩]).map
      (fun op => (op.length, op.array 1, op.backupArray 1)) = some (2, 5, 0) := by
    decide +kernel
  obtain ⟨next, hnext, hvalues⟩ := Option.map_eq_some_iff.mp hrun
  simp only [Prod.mk.injEq] at hvalues
  have hbounded : Within 1 (next.array 1) (next.backupArray 1) := by
    apply halways next hnext
    rw [hvalues.1]
    decide
  rw [hvalues.2.1, hvalues.2.2] at hbounded
  revert hbounded
  decide +kernel

end NumericArray

end AFStream.Operator

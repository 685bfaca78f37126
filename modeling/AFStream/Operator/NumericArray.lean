/-
# Fault-tolerant numeric arrays

The three array operators keep, beside the array that the application reads and
writes, a copy of what has been backed up for each index. `SerializeState` chooses one
index, writes it with its value into a `BackupData` and updates the copy. The operators
differ in how they measure divergence: `NumericArray_MAX` tracks the largest difference
seen, `NumericArray_L1` and `NumericArray_L2` the sum of all differences.

The member `length` of the last two is taken to be the number of allocated elements.
A call that would access memory outside the arrays, or that does not return, is
undefined.
-/

import Mathlib.Tactic

namespace AFStream.Operator

universe u

/-- What `SerializeState` writes into a `BackupData`: an index, which is also the key of
the item, and the value at it. -/
structure Saved (V : Type u) where
  index : UInt32
  value : V
  deriving DecidableEq

theorem index_injective : Function.Injective UInt32.toNat := by
  intro i j h
  exact UInt32.toNat_inj.mp h

/-- A call of `UpdateValue`. -/
structure Update (V : Type u) where
  index : UInt32
  value : V

variable {V : Type u} [Zero V] [Add V] [Sub V] [Neg V] [Mul V] [LT V] [DecidableLT V]

/-! ## `NumericArray_MAX` -/

/-- `NumericArray_MAX` -/
structure NumericArrayMax (V : Type u) where
  length : ℕ
  array : ℕ → V
  backupArray : ℕ → V
  maxDiff : V
  maxDiffIndex : UInt32

namespace NumericArrayMax

/-- The constructor. -/
def create (length : ℕ) : NumericArrayMax V where
  length := length
  array := fun _ => 0
  backupArray := fun _ => 0
  maxDiff := 0
  maxDiffIndex := 0

/-- `UpdateValue` -/
def updateValue (op : NumericArrayMax V) (index : UInt32) (value : V) : NumericArrayMax V :=
  let op := { op with array := Function.update op.array index.toNat value }
  if op.maxDiff < value - op.backupArray index.toNat then
    { op with maxDiff := value - op.backupArray index.toNat, maxDiffIndex := index }
  else op

/-- `Clear`. The index of the largest difference is left as it is. -/
def clear (op : NumericArrayMax V) : NumericArrayMax V :=
  { op with array := fun _ => 0, backupArray := fun _ => 0, maxDiff := 0 }

/-- `CalculateDivergence` -/
def calculateDivergence (op : NumericArrayMax V) : V := op.maxDiff

/-- `SerializeState` -/
def serializeState (op : NumericArrayMax V) : Option (Saved V × NumericArrayMax V) :=
  let index := op.maxDiffIndex.toNat
  if index < op.length then
    some (⟨op.maxDiffIndex, op.array index⟩,
      { op with
        backupArray := Function.update op.backupArray index (op.array index)
        maxDiffIndex := 0
        maxDiff := 0 })
  else none

/-- `RecoveryState` -/
def recoveryState (op : NumericArrayMax V) (saved : Saved V) : NumericArrayMax V :=
  { op with
    array := Function.update op.array saved.index.toNat saved.value
    backupArray := Function.update op.backupArray saved.index.toNat saved.value }

omit [Zero V] [Add V] [Neg V] [Mul V] in
theorem array_updateValue (op : NumericArrayMax V) (index : UInt32) (value : V) :
    (op.updateValue index value).array = Function.update op.array index.toNat value := by
  rw [updateValue]
  split_ifs <;> rfl

omit [Zero V] [Add V] [Neg V] [Mul V] in
theorem length_updateValue (op : NumericArrayMax V) (index : UInt32) (value : V) :
    (op.updateValue index value).length = op.length := by
  rw [updateValue]
  split_ifs <;> rfl

omit [Zero V] [Add V] [Neg V] [Mul V] in
theorem maxDiffIndex_updateValue (op : NumericArrayMax V) (index : UInt32) (value : V) :
    (op.updateValue index value).maxDiffIndex =
      if op.maxDiff < value - op.backupArray index.toNat then index else op.maxDiffIndex := by
  rw [updateValue]
  split_ifs <;> rfl

end NumericArrayMax

/-! ## `NumericArray_L1` and `NumericArray_L2` -/

/-- The members of `NumericArray_L1` and of `NumericArray_L2`. -/
structure NumericArraySum (V : Type u) where
  length : ℕ
  array : ℕ → V
  backupArray : ℕ → V
  totDiff : V

/-- `abs` -/
def absV (value : V) : V := if value < 0 then -value else value

/-- `sqr` -/
def sqr (value : V) : V := value * value

namespace NumericArraySum

/-- The constructor. -/
def create (length : ℕ) : NumericArraySum V where
  length := length
  array := fun _ => 0
  backupArray := fun _ => 0
  totDiff := 0

/-- `UpdateValue`, with the measure of a difference as a parameter. -/
def updateValue (measure : V → V) (op : NumericArraySum V) (index : UInt32) (value : V) :
    NumericArraySum V :=
  let oldDiff := measure (op.array index.toNat - op.backupArray index.toNat)
  let newDiff := measure (value - op.backupArray index.toNat)
  { op with
    totDiff := op.totDiff - oldDiff + newDiff
    array := Function.update op.array index.toNat value }

/-- `Clear` -/
def clear (op : NumericArraySum V) : NumericArraySum V :=
  { op with array := fun _ => 0, backupArray := fun _ => 0, totDiff := 0 }

/-- `CalculateDivergence` -/
def calculateDivergence (op : NumericArraySum V) : V := op.totDiff

/-- The loop of `SerializeState`: the first index below a bound with the largest value. -/
def selectIndex (diff : ℕ → V) (bound : ℕ) : ℕ :=
  (List.range bound).foldl (fun best i => if diff best < diff i then i else best) 0

/-- The measured difference at an index. -/
def diff (measure : V → V) (op : NumericArraySum V) (i : ℕ) : V :=
  measure (op.array i - op.backupArray i)

/-- `SerializeState`. The loop variable is an `unsigned int` and never reaches a larger
length; in an empty array there is no element to save. -/
def serializeState (measure : V → V) (op : NumericArraySum V) :
    Option (Saved V × NumericArraySum V) :=
  if 0 < op.length ∧ op.length < 2 ^ 32 then
    let index := selectIndex (op.diff measure) op.length
    some (⟨UInt32.ofNat index, op.array index⟩,
      { op with
        totDiff := op.totDiff - op.diff measure index
        backupArray := Function.update op.backupArray index (op.array index) })
  else none

/-- `RecoveryState` -/
def recoveryState (op : NumericArraySum V) (saved : Saved V) : NumericArraySum V :=
  { op with
    array := Function.update op.array saved.index.toNat saved.value
    backupArray := Function.update op.backupArray saved.index.toNat saved.value }

omit [Zero V] [Add V] [Sub V] [Neg V] [Mul V] in
/-- The selected index is an element of a nonempty array. -/
theorem selectIndex_lt (diff : ℕ → V) {bound : ℕ} (hbound : 0 < bound) :
    selectIndex diff bound < bound := by
  have hfold : ∀ (indices : List ℕ) (best : ℕ), best < bound → (∀ i ∈ indices, i < bound) →
      indices.foldl (fun best i => if diff best < diff i then i else best) best < bound := by
    intro indices
    induction indices with
    | nil => exact fun best hbest _ => hbest
    | cons i rest ih =>
        intro best hbest hmem
        apply ih
        · dsimp only
          split_ifs
          · exact hmem i List.mem_cons_self
          · exact hbest
        · exact fun j hj => hmem j (List.mem_cons_of_mem i hj)
  exact hfold _ 0 hbound fun i hi => List.mem_range.mp hi

omit [Zero V] [Add V] [Neg V] [Mul V] in
/-- One call of `SerializeState`, for both measures. -/
theorem serializeState_eq_some {measure : V → V} {op op' : NumericArraySum V} {saved : Saved V}
    (h : op.serializeState measure = some (saved, op')) :
    saved.index.toNat < op.length ∧ saved.value = op.array saved.index.toNat ∧
      op'.length = op.length ∧ op'.array = op.array ∧
      op'.backupArray = Function.update op.backupArray saved.index.toNat saved.value := by
  unfold serializeState at h
  split_ifs at h with hlength
  have hindex := selectIndex_lt (op.diff measure) hlength.1
  have hcast : (UInt32.ofNat (selectIndex (op.diff measure) op.length)).toNat =
      selectIndex (op.diff measure) op.length := by
    apply UInt32.toNat_ofNat_of_lt
    exact hindex.trans hlength.2
  cases h
  rw [hcast]
  exact ⟨hindex, rfl, rfl, rfl, rfl⟩

end NumericArraySum

/-! ## The interface of a fault-tolerant operator -/

/-- The classes of array operators. -/
inductive ArrayKind
  | max
  | l1
  | l2
  deriving DecidableEq

/-- An object of one of the three classes. -/
inductive NumericArray (V : Type u)
  | max (op : NumericArrayMax V)
  | l1 (op : NumericArraySum V)
  | l2 (op : NumericArraySum V)

namespace NumericArray

/-- The constructor of a class. -/
def create : ArrayKind → ℕ → NumericArray V
  | .max, length => .max (.create length)
  | .l1, length => .l1 (.create length)
  | .l2, length => .l2 (.create length)

def length : NumericArray V → ℕ
  | .max op => op.length
  | .l1 op => op.length
  | .l2 op => op.length

def array : NumericArray V → ℕ → V
  | .max op => op.array
  | .l1 op => op.array
  | .l2 op => op.array

def backupArray : NumericArray V → ℕ → V
  | .max op => op.backupArray
  | .l1 op => op.backupArray
  | .l2 op => op.backupArray

/-- `GetValue` -/
def getValue (op : NumericArray V) (index : UInt32) : Option V :=
  if index.toNat < op.length then some (op.array index.toNat) else none

/-- `UpdateValue` -/
def updateValue (op : NumericArray V) (update : Update V) : Option (NumericArray V) :=
  if update.index.toNat < op.length then
    match op with
    | .max op => some (.max (op.updateValue update.index update.value))
    | .l1 op => some (.l1 (op.updateValue absV update.index update.value))
    | .l2 op => some (.l2 (op.updateValue sqr update.index update.value))
  else none

/-- `Clear` -/
def clear : NumericArray V → NumericArray V
  | .max op => .max op.clear
  | .l1 op => .l1 op.clear
  | .l2 op => .l2 op.clear

/-- `CalculateDivergence` -/
def calculateDivergence : NumericArray V → V
  | .max op => op.calculateDivergence
  | .l1 op => op.calculateDivergence
  | .l2 op => op.calculateDivergence

/-- `SerializeState` -/
def serializeState : NumericArray V → Option (Saved V × NumericArray V)
  | .max op => op.serializeState.map fun result => (result.1, .max result.2)
  | .l1 op => (op.serializeState absV).map fun result => (result.1, .l1 result.2)
  | .l2 op => (op.serializeState sqr).map fun result => (result.1, .l2 result.2)

/-- The index that `SerializeState` selects. -/
def selectedIndex : NumericArray V → UInt32
  | .max op => op.maxDiffIndex
  | .l1 op => UInt32.ofNat (NumericArraySum.selectIndex (op.diff absV) op.length)
  | .l2 op => UInt32.ofNat (NumericArraySum.selectIndex (op.diff sqr) op.length)

/-- `RecoveryState` -/
def recoveryState (op : NumericArray V) (saved : Saved V) : Option (NumericArray V) :=
  if saved.index.toNat < op.length then
    match op with
    | .max op => some (.max (op.recoveryState saved))
    | .l1 op => some (.l1 (op.recoveryState saved))
    | .l2 op => some (.l2 (op.recoveryState saved))
  else none

/-! ## What a call does to the two arrays -/

variable {op op' : NumericArray V} {update : Update V} {saved : Saved V}

omit [Add V] [Sub V] [Neg V] [Mul V] [LT V] [DecidableLT V] in
@[simp]
theorem length_create (kind : ArrayKind) (n : ℕ) : (create kind n : NumericArray V).length = n := by
  cases kind <;> rfl

omit [Add V] [Sub V] [Neg V] [Mul V] [LT V] [DecidableLT V] in
@[simp]
theorem array_create (kind : ArrayKind) (n : ℕ) :
    (create kind n : NumericArray V).array = fun _ => 0 := by
  cases kind <;> rfl

omit [Add V] [Sub V] [Neg V] [Mul V] [LT V] [DecidableLT V] in
@[simp]
theorem backupArray_create (kind : ArrayKind) (n : ℕ) :
    (create kind n : NumericArray V).backupArray = fun _ => 0 := by
  cases kind <;> rfl

omit [Add V] [Sub V] [Neg V] [Mul V] [LT V] [DecidableLT V] in
@[simp]
theorem length_clear (op : NumericArray V) : op.clear.length = op.length := by
  cases op <;> rfl

omit [Add V] [Sub V] [Neg V] [Mul V] [LT V] [DecidableLT V] in
@[simp]
theorem array_clear (op : NumericArray V) : op.clear.array = fun _ => 0 := by
  cases op <;> rfl

omit [Add V] [Sub V] [Neg V] [Mul V] [LT V] [DecidableLT V] in
@[simp]
theorem calculateDivergence_clear (op : NumericArray V) : op.clear.calculateDivergence = 0 := by
  cases op <;> rfl

/-- One call of `UpdateValue`: the backup is not touched. -/
theorem updateValue_eq_some (h : op.updateValue update = some op') :
    update.index.toNat < op.length ∧ op'.length = op.length ∧
      op'.array = Function.update op.array update.index.toNat update.value ∧
      op'.backupArray = op.backupArray := by
  unfold updateValue at h
  split_ifs at h with hindex
  refine ⟨hindex, ?_⟩
  cases op with
  | max op =>
      obtain rfl := Option.some.inj h
      simp only [length, array, backupArray, NumericArrayMax.updateValue]
      split_ifs <;> exact ⟨rfl, rfl, rfl⟩
  | l1 op =>
      obtain rfl := Option.some.inj h
      exact ⟨rfl, rfl, rfl⟩
  | l2 op =>
      obtain rfl := Option.some.inj h
      exact ⟨rfl, rfl, rfl⟩

/-- A call of `UpdateValue` within the array. -/
theorem exists_updateValue (hindex : update.index.toNat < op.length) :
    ∃ op', op.updateValue update = some op' := by
  unfold updateValue
  rw [if_pos hindex]
  cases op with
  | max op => exact ⟨_, rfl⟩
  | l1 op => exact ⟨_, rfl⟩
  | l2 op => exact ⟨_, rfl⟩

omit [Add V] in
/-- One call of `SerializeState`: the saved value is the current one, and from then on
the backed-up one. -/
theorem serializeState_eq_some (h : op.serializeState = some (saved, op')) :
    saved.index.toNat < op.length ∧ saved.value = op.array saved.index.toNat ∧
      op'.length = op.length ∧ op'.array = op.array ∧
      op'.backupArray = Function.update op.backupArray saved.index.toNat saved.value := by
  cases op with
  | max op =>
      obtain ⟨⟨saved, op'⟩, hop, hresult⟩ := Option.map_eq_some_iff.mp h
      cases hresult
      simp only [NumericArrayMax.serializeState] at hop
      split_ifs at hop with hindex
      cases hop
      exact ⟨hindex, rfl, rfl, rfl, rfl⟩
  | l1 op =>
      obtain ⟨⟨saved, op'⟩, hop, hresult⟩ := Option.map_eq_some_iff.mp h
      cases hresult
      exact NumericArraySum.serializeState_eq_some hop
  | l2 op =>
      obtain ⟨⟨saved, op'⟩, hop, hresult⟩ := Option.map_eq_some_iff.mp h
      cases hresult
      exact NumericArraySum.serializeState_eq_some hop

omit [Add V] in
/-- The saved item is that of the selected index. -/
theorem index_serializeState (h : op.serializeState = some (saved, op')) :
    saved.index = op.selectedIndex := by
  cases op with
  | max op =>
      obtain ⟨⟨saved, op'⟩, hop, hresult⟩ := Option.map_eq_some_iff.mp h
      cases hresult
      simp only [NumericArrayMax.serializeState] at hop
      split_ifs at hop
      cases hop
      rfl
  | l1 op =>
      obtain ⟨⟨saved, op'⟩, hop, hresult⟩ := Option.map_eq_some_iff.mp h
      cases hresult
      unfold NumericArraySum.serializeState at hop
      split_ifs at hop
      cases hop
      rfl
  | l2 op =>
      obtain ⟨⟨saved, op'⟩, hop, hresult⟩ := Option.map_eq_some_iff.mp h
      cases hresult
      unfold NumericArraySum.serializeState at hop
      split_ifs at hop
      cases hop
      rfl

omit [Zero V] [Add V] [Sub V] [Neg V] [Mul V] [LT V] [DecidableLT V] in
/-- One call of `RecoveryState`: both arrays get the saved value. -/
theorem recoveryState_eq_some (h : op.recoveryState saved = some op') :
    saved.index.toNat < op.length ∧ op'.length = op.length ∧
      op'.array = Function.update op.array saved.index.toNat saved.value ∧
      op'.backupArray = Function.update op.backupArray saved.index.toNat saved.value := by
  unfold recoveryState at h
  split_ifs at h with hindex
  refine ⟨hindex, ?_⟩
  cases op with
  | max op =>
      obtain rfl := Option.some.inj h
      exact ⟨rfl, rfl, rfl⟩
  | l1 op =>
      obtain rfl := Option.some.inj h
      exact ⟨rfl, rfl, rfl⟩
  | l2 op =>
      obtain rfl := Option.some.inj h
      exact ⟨rfl, rfl, rfl⟩

omit [Zero V] [Add V] [Sub V] [Neg V] [Mul V] [LT V] [DecidableLT V] in
/-- A call of `RecoveryState` within the array. -/
theorem exists_recoveryState (hindex : saved.index.toNat < op.length) :
    ∃ op', op.recoveryState saved = some op' := by
  unfold recoveryState
  rw [if_pos hindex]
  cases op with
  | max op => exact ⟨_, rfl⟩
  | l1 op => exact ⟨_, rfl⟩
  | l2 op => exact ⟨_, rfl⟩

/-- A fresh operator of a class after the recovery of saved items. -/
def recover (kind : ArrayKind) (length : ℕ) (items : List (Saved V)) :
    Option (NumericArray V) :=
  items.foldlM recoveryState (create kind length)

omit [Zero V] [Add V] [Sub V] [Neg V] [Mul V] [LT V] [DecidableLT V] in
/-- The recovery of items within the array, one after the other. -/
theorem foldlM_recoveryState {items : List (Saved V)}
    (hrange : ∀ item ∈ items, item.index.toNat < op.length) :
    ∃ op', items.foldlM recoveryState op = some op' ∧ op'.length = op.length ∧
      op'.array =
        items.foldl (fun a item => Function.update a item.index.toNat item.value) op.array ∧
      op'.backupArray =
        items.foldl (fun a item => Function.update a item.index.toNat item.value)
          op.backupArray := by
  induction items generalizing op with
  | nil => exact ⟨op, rfl, rfl, rfl, rfl⟩
  | cons item rest ih =>
      rw [List.forall_mem_cons] at hrange
      obtain ⟨op₁, hop₁⟩ := exists_recoveryState hrange.1
      obtain ⟨-, hlength, harray, hbackup⟩ := recoveryState_eq_some hop₁
      obtain ⟨op', hop', hlength', harray', hbackup'⟩ :=
        ih fun item hitem => hlength ▸ hrange.2 item hitem
      refine ⟨op', ?_, hlength'.trans hlength, ?_, ?_⟩
      · rw [List.foldlM_cons, hop₁]
        exact hop'
      · rw [harray', harray, List.foldl_cons]
      · rw [hbackup', hbackup, List.foldl_cons]

end NumericArray

end AFStream.Operator

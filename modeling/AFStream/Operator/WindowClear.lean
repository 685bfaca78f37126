/-
# Clearing an operator between windows

An application calls `Clear` at the end of each window. The call resets both local
arrays and the divergence, but it sends nothing to the backup server, whose items for
the operator stay as they were last saved, perhaps many windows ago. The module runs an
array operator together with its items at the server. It shows that the server holds for
an index the value that the index had in its window at the last check that backed it up,
and determines from this when a crash after a cleared window recovers what was lost.
-/

import AFStream.Foundation.KeyedSlots
import AFStream.Operator.DivergenceCheck

namespace AFStream.Operator

open AFStream.Foundation

/-- An operator and the items that the backup server holds for it. -/
structure BackedUp where
  op : NumericArray ℤ
  store : KeyedSlots UInt32 ℤ

/-- The calls of an application on an operator, and the check of the compute loop. -/
inductive WindowAction
  | update (update : Update ℤ)
  | clear
  | check

namespace BackedUp

/-- One call, or one check with the backup that it may cause. -/
def step (thresh : ℚ) (s : BackedUp) : WindowAction → Option BackedUp
  | .update update => (s.op.updateValue update).map fun op => { s with op := op }
  | .clear => some { s with op := s.op.clear }
  | .check => (s.op.divergenceCheck thresh).map fun
    | (none, op) => { s with op := op }
    | (some saved, op) => { op := op, store := s.store.put saved.index saved.value }

/-- All runs of a fresh operator. -/
def machine (kind : ArrayKind) (length : ℕ) (thresh : ℚ) : Machine BackedUp WindowAction where
  init := { op := .create kind length, store := .empty }
  step := step thresh

/-- The operator that a restarted worker recovers from the items at the server. -/
def recovered (kind : ArrayKind) (length : ℕ) (s : BackedUp) : Option (NumericArray ℤ) :=
  NumericArray.recover kind length (s.store.entries.map fun entry => ⟨entry.1, entry.2⟩)

/-- Every item at the server belongs to an element of the array. -/
structure Inv (length : ℕ) (s : BackedUp) : Prop where
  length_eq : s.op.length = length
  keys_lt : ∀ key ∈ s.store.entries.map Prod.fst, key.toNat < length

variable {length : ℕ} {thresh : ℚ} {kind : ArrayKind} {s s' : BackedUp}

/-- Every action keeps the invariant. -/
theorem Inv.step (h : s.Inv length) {action : WindowAction}
    (hstep : s.step thresh action = some s') : s'.Inv length := by
  cases action with
  | update update =>
      obtain ⟨op, hop, rfl⟩ := Option.map_eq_some_iff.mp hstep
      obtain ⟨-, hlength, -, -⟩ := NumericArray.updateValue_eq_some hop
      exact ⟨hlength.trans h.length_eq, h.keys_lt⟩
  | clear =>
      obtain rfl := Option.some.inj hstep
      exact ⟨(NumericArray.length_clear s.op).trans h.length_eq, h.keys_lt⟩
  | check =>
      obtain ⟨⟨item, op⟩, hcheck, hs'⟩ := Option.map_eq_some_iff.mp hstep
      cases item with
      | none =>
          obtain rfl := NumericArray.divergenceCheck_none hcheck
          subst hs'
          exact h
      | some saved =>
          obtain ⟨hindex, -, hlength, -, -⟩ :=
            NumericArray.serializeState_eq_some (NumericArray.divergenceCheck_some hcheck)
          subst hs'
          refine ⟨hlength.trans h.length_eq, ?_⟩
          intro key hkey
          rcases (s.store.keys_put _ _ key).mp hkey with rfl | hold
          · exact h.length_eq ▸ hindex
          · exact h.keys_lt key hold

theorem Inv.run {before : List WindowAction}
    (hrun : (machine kind length thresh).runFrom (machine kind length thresh).init before =
      some s) : s.Inv length := by
  apply Machine.runFrom_invariant (Inv length) (fun h hstep => h.step hstep) _ hrun
  exact ⟨NumericArray.length_create kind length, by simp [machine, KeyedSlots.empty]⟩

/-- After a `Clear` no check makes a backup. -/
theorem run_checks (hthresh : 0 ≤ thresh) (checks : ℕ) :
    (machine kind length thresh).runFrom { s with op := s.op.clear }
      (List.replicate checks .check) = some { s with op := s.op.clear } := by
  induction checks with
  | zero => rfl
  | succ checks ih =>
      have hcheck : s.op.clear.divergenceCheck thresh = some (none, s.op.clear) := by
        apply if_neg
        rw [NumericArray.calculateDivergence_clear]
        simpa using hthresh
      rw [List.replicate_succ, Machine.runFrom_cons]
      simp only [machine, step, hcheck, Option.map_some, Option.bind_some]
      exact ih

/-- What a restarted worker recovers: the items at the server, and zeros elsewhere. -/
theorem recovered_eq (kind : ArrayKind) (h : s.Inv length) :
    ∃ op, s.recovered kind length = some op ∧
      op.array = KeyedSlots.writeEntries UInt32.toNat s.store.entries fun _ => 0 := by
  have hrange : ∀ item ∈ s.store.entries.map fun entry => (⟨entry.1, entry.2⟩ : Saved ℤ),
      item.index.toNat < (NumericArray.create kind length : NumericArray ℤ).length := by
    rintro item hitem
    obtain ⟨entry, hentry, rfl⟩ := List.mem_map.mp hitem
    rw [NumericArray.length_create]
    exact h.keys_lt entry.1 (List.mem_map_of_mem hentry)
  obtain ⟨op, hop, -, harray, -⟩ := NumericArray.foldlM_recoveryState hrange
  refine ⟨op, hop, ?_⟩
  rw [harray, List.foldl_map, NumericArray.array_create]
  rfl

/-! ## What several windows leave at the server -/

/-- The value that the calls of a run give an index in its last window: that of the last
`UpdateValue`, or zero behind a `Clear`. -/
def windowValue (index : UInt32) (actions : List WindowAction) : ℤ :=
  actions.foldl (fun value action =>
    match action with
    | .update update => if update.index = index then update.value else value
    | .clear => 0
    | .check => value) 0

/-- A check backs up an index: the divergence is above the threshold, and `SerializeState`
selects the index. -/
def BacksUp (thresh : ℚ) (op : NumericArray ℤ) (index : UInt32) : Prop :=
  thresh < (op.calculateDivergence : ℚ) ∧ op.selectedIndex = index

/-- The call at a position of a run is a check that backs up an index. -/
def BacksUpAt (kind : ArrayKind) (length : ℕ) (thresh : ℚ) (actions : List WindowAction)
    (index : UInt32) (n : ℕ) : Prop :=
  actions[n]? = some .check ∧
    ∃ s, (machine kind length thresh).runFrom (machine kind length thresh).init
      (actions.take n) = some s ∧ BacksUp thresh s.op index

/-- It is the last one of the run that does. -/
def IsLastBackup (kind : ArrayKind) (length : ℕ) (thresh : ℚ) (actions : List WindowAction)
    (index : UInt32) (n : ℕ) : Prop :=
  BacksUpAt kind length thresh actions index n ∧
    ∀ m, n < m → ¬ BacksUpAt kind length thresh actions index m

theorem BacksUpAt.lt {actions : List WindowAction} {index : UInt32} {n : ℕ}
    (h : BacksUpAt kind length thresh actions index n) : n < actions.length :=
  (List.getElem?_eq_some_iff.mp h.1).1

/-- The positions of a run with one more call. -/
theorem backsUpAt_concat {actions : List WindowAction} {action : WindowAction}
    (hrun : (machine kind length thresh).runFrom (machine kind length thresh).init actions =
      some s) (index : UInt32) (n : ℕ) :
    BacksUpAt kind length thresh (actions ++ [action]) index n ↔
      BacksUpAt kind length thresh actions index n ∨
        n = actions.length ∧ action = .check ∧ BacksUp thresh s.op index := by
  rcases lt_trichotomy n actions.length with hlt | rfl | hgt
  · rw [BacksUpAt, BacksUpAt, List.getElem?_append_left hlt, List.take_append_of_le_length hlt.le]
    exact (or_iff_left fun h => hlt.ne h.1).symm
  · have hnot : ¬ BacksUpAt kind length thresh actions index actions.length :=
      fun h => lt_irrefl _ h.lt
    rw [BacksUpAt, List.getElem?_concat_length, List.take_left, hrun, or_iff_right hnot]
    constructor
    · rintro ⟨haction, s', hs', hbacks⟩
      exact ⟨rfl, Option.some.inj haction, Option.some.inj hs' ▸ hbacks⟩
    · rintro ⟨-, haction, hbacks⟩
      exact ⟨congrArg some haction, s, rfl, hbacks⟩
  · have hlong : ∀ actions' : List WindowAction, actions'.length ≤ n →
        ¬ BacksUpAt kind length thresh actions' index n :=
      fun _ hle h => absurd h.lt (not_lt.mpr hle)
    have hnot := hlong (actions ++ [action]) (by
      rw [List.length_append, List.length_singleton]
      exact hgt)
    exact iff_of_false hnot fun h => h.elim (hlong actions hgt.le) fun h => hgt.ne' h.1

/-- A call that does not back up the index leaves the last check that does where it was. -/
theorem isLastBackup_concat_of_not {actions : List WindowAction} {action : WindowAction}
    (hrun : (machine kind length thresh).runFrom (machine kind length thresh).init actions =
      some s) {index : UInt32} (hnot : ¬ (action = .check ∧ BacksUp thresh s.op index)) (n : ℕ) :
    IsLastBackup kind length thresh (actions ++ [action]) index n ↔
      IsLastBackup kind length thresh actions index n := by
  have hsame : ∀ m, BacksUpAt kind length thresh (actions ++ [action]) index m ↔
      BacksUpAt kind length thresh actions index m := by
    intro m
    rw [backsUpAt_concat hrun]
    exact or_iff_left fun h => hnot h.2
  simp only [IsLastBackup, hsame]

/-- A check that backs up the index is the last one. -/
theorem isLastBackup_concat {actions : List WindowAction}
    (hrun : (machine kind length thresh).runFrom (machine kind length thresh).init actions =
      some s) {index : UInt32} (hbacks : BacksUp thresh s.op index) (n : ℕ) :
    IsLastBackup kind length thresh (actions ++ [.check]) index n ↔ n = actions.length := by
  have hlast : BacksUpAt kind length thresh (actions ++ [.check]) index actions.length :=
    (backsUpAt_concat hrun index _).mpr (.inr ⟨rfl, rfl, hbacks⟩)
  constructor
  · rintro ⟨hn, hmax⟩
    have hle := hn.lt
    rw [List.length_append, List.length_singleton] at hle
    by_contra hne
    exact hmax actions.length (by omega) hlast
  · rintro rfl
    refine ⟨hlast, fun m hm hbacks' => ?_⟩
    have hlt := hbacks'.lt
    rw [List.length_append, List.length_singleton] at hlt
    omega

/-- The live array holds what the window has given it. -/
theorem array_eq_windowValue {actions : List WindowAction}
    (hrun : (machine kind length thresh).runFrom (machine kind length thresh).init actions =
      some s) (index : UInt32) : s.op.array index.toNat = windowValue index actions := by
  induction actions using List.reverseRecOn generalizing s with
  | nil =>
      obtain rfl := Option.some.inj hrun
      simp only [machine, NumericArray.array_create]
      rfl
  | append_singleton rest action ih =>
      obtain ⟨middle, hmiddle, hstep⟩ := Machine.runFrom_concat_eq_some.mp hrun
      have hvalue := ih hmiddle
      rw [windowValue] at hvalue ⊢
      rw [List.foldl_concat, ← hvalue]
      cases action with
      | update update =>
          obtain ⟨op, hop, rfl⟩ := Option.map_eq_some_iff.mp hstep
          obtain ⟨-, -, harray, -⟩ := NumericArray.updateValue_eq_some hop
          by_cases hindex : update.index = index
          · simp only [harray, hindex, Function.update_self, if_true]
          · have hne : index.toNat ≠ update.index.toNat := fun h => hindex (index_injective h.symm)
            simp only [harray, Function.update_of_ne hne, if_neg hindex]
      | clear =>
          obtain rfl := Option.some.inj hstep
          simp only [NumericArray.array_clear]
      | check =>
          obtain ⟨⟨item, op⟩, hcheck, hs⟩ := Option.map_eq_some_iff.mp hstep
          cases item with
          | none =>
              obtain rfl := NumericArray.divergenceCheck_none hcheck
              subst hs
              rfl
          | some saved =>
              have hserialize := NumericArray.divergenceCheck_some hcheck
              obtain ⟨-, -, -, harray, -⟩ := NumericArray.serializeState_eq_some hserialize
              subst hs
              simp only [harray]

/-- A check without a backup finds the divergence within the threshold. -/
theorem not_backsUp_of_none {op op' : NumericArray ℤ}
    (hcheck : op.divergenceCheck thresh = some (none, op')) (index : UInt32) :
    ¬ BacksUp thresh op index := by
  rintro ⟨hdiverged, -⟩
  rw [NumericArray.divergenceCheck, if_pos hdiverged] at hcheck
  obtain ⟨result, -, hresult⟩ := Option.map_eq_some_iff.mp hcheck
  cases hresult

/-- A check with a backup saves the selected index. -/
theorem backsUp_of_some {op op' : NumericArray ℤ} {saved : Saved ℤ}
    (hcheck : op.divergenceCheck thresh = some (some saved, op')) (index : UInt32) :
    BacksUp thresh op index ↔ index = saved.index := by
  have hdiverged : thresh < (op.calculateDivergence : ℚ) := by
    by_contra hquiet
    rw [NumericArray.divergenceCheck, if_neg hquiet] at hcheck
    cases hcheck
  have hindex := NumericArray.index_serializeState (NumericArray.divergenceCheck_some hcheck)
  rw [BacksUp, hindex]
  exact ⟨fun h => h.2.symm, fun h => ⟨hdiverged, h.symm⟩⟩

/-- **What the server holds.** For an index it has the value of the window in which the index
was last backed up, as it was at that check; it has nothing for an index that was never
backed up. -/
theorem get?_store_iff {actions : List WindowAction}
    (hrun : (machine kind length thresh).runFrom (machine kind length thresh).init actions =
      some s) (index : UInt32) (value : ℤ) :
    s.store.get? index = some value ↔
      ∃ n, IsLastBackup kind length thresh actions index n ∧
        windowValue index (actions.take n) = value := by
  induction actions using List.reverseRecOn generalizing s with
  | nil =>
      obtain rfl := Option.some.inj hrun
      refine iff_of_false nofun ?_
      rintro ⟨n, ⟨hn, -⟩, -⟩
      cases hn.lt
  | append_singleton rest action ih =>
      obtain ⟨middle, hmiddle, hstep⟩ := Machine.runFrom_concat_eq_some.mp hrun
      -- a call that saves nothing for the index
      have hkeep : ¬ (action = .check ∧ BacksUp thresh middle.op index) →
          s.store.get? index = middle.store.get? index →
          (s.store.get? index = some value ↔
            ∃ n, IsLastBackup kind length thresh (rest ++ [action]) index n ∧
              windowValue index ((rest ++ [action]).take n) = value) := by
        intro hnot hstore
        rw [hstore, ih hmiddle]
        refine exists_congr fun n => ?_
        rw [isLastBackup_concat_of_not hmiddle hnot]
        refine and_congr_right fun hlast => ?_
        rw [List.take_append_of_le_length hlast.1.lt.le]
      cases action with
      | update update =>
          obtain ⟨op, -, rfl⟩ := Option.map_eq_some_iff.mp hstep
          exact hkeep nofun rfl
      | clear =>
          obtain rfl := Option.some.inj hstep
          exact hkeep nofun rfl
      | check =>
          obtain ⟨⟨item, op⟩, hcheck, hs⟩ := Option.map_eq_some_iff.mp hstep
          cases item with
          | none =>
              subst hs
              exact hkeep (fun h => not_backsUp_of_none hcheck index h.2) rfl
          | some saved =>
              have hbacks := backsUp_of_some hcheck index
              subst hs
              by_cases hindex : index = saved.index
              · -- the check saves what the window has given the index
                have hserialize := NumericArray.divergenceCheck_some hcheck
                obtain ⟨-, hvalue, -⟩ := NumericArray.serializeState_eq_some hserialize
                rw [← hindex, array_eq_windowValue hmiddle] at hvalue
                simp only [KeyedSlots.get?_put, if_pos hindex,
                  isLastBackup_concat hmiddle (hbacks.mpr hindex), exists_eq_left, List.take_left,
                  hvalue, Option.some.injEq]
              · refine hkeep (fun h => hindex (hbacks.mp h.2)) ?_
                rw [KeyedSlots.get?_put, if_neg hindex]

/-- The recovered array is small exactly when the items at the server are. -/
theorem recovered_within_iff (hthresh : 0 ≤ thresh) (h : s.Inv length) :
    (∀ i < length, Within thresh
        (KeyedSlots.writeEntries UInt32.toNat s.store.entries (fun _ => 0) i) 0) ↔
      ∀ key value, s.store.get? key = some value → Within thresh value 0 := by
  constructor
  · intro hwithin key value hget
    have hmem : (key, value) ∈ s.store.entries := s.store.mem_entries_iff.mpr hget
    have hkey := hwithin key.toNat (h.keys_lt key (List.mem_map_of_mem hmem))
    rwa [s.store.writeEntries_of_get? index_injective hget] at hkey
  · intro hitems i hi
    by_cases hkey : ∃ entry ∈ s.store.entries, entry.1.toNat = i
    · obtain ⟨⟨key, value⟩, hentry, rfl⟩ := hkey
      have hget := s.store.mem_entries_iff.mp hentry
      rw [s.store.writeEntries_of_get? index_injective hget]
      exact hitems key value hget
    · rw [KeyedSlots.writeEntries_of_ne]
      · simpa [Within] using hthresh
      · intro key hmem hsame
        obtain ⟨entry, hentry, rfl⟩ := List.mem_map.mp hmem
        exact hkey ⟨entry, hentry, hsame⟩

/-- **When `Clear` is recoverable.** For each of the three classes, every length,
threshold and run over any number of windows: a crash right after the checks that follow a
`Clear` recovers a state within the threshold of the live array, which is zero, exactly when
every index, at the last check that backed it up, had been given a value within the threshold
of zero in the window of that check. -/
theorem clear_recoverable_iff (kind : ArrayKind) (length : ℕ) (thresh : ℚ) (hthresh : 0 ≤ thresh)
    {before : List WindowAction}
    (hrun : (machine kind length thresh).runFrom (machine kind length thresh).init before =
      some s) (checks : ℕ) :
    ∃ s' op, (machine kind length thresh).runFrom s
        (.clear :: List.replicate (checks + 1) .check) = some s' ∧
      s'.recovered kind length = some op ∧ (∀ i, s'.op.array i = 0) ∧
      ((∀ i < length, Within thresh (op.array i) (s'.op.array i)) ↔
        ∀ index n, IsLastBackup kind length thresh before index n →
          Within thresh (windowValue index (before.take n)) 0) := by
  have hinv := Inv.run hrun
  obtain ⟨op, hop, harray⟩ := recovered_eq kind hinv
  refine ⟨{ s with op := s.op.clear }, op, run_checks hthresh (checks + 1), hop, ?_, ?_⟩
  · intro i
    rw [NumericArray.array_clear]
  · rw [harray, NumericArray.array_clear, recovered_within_iff hthresh hinv]
    refine forall_congr' fun index => ?_
    simp only [get?_store_iff hrun]
    constructor
    · exact fun hitems n hlast => hitems _ ⟨n, hlast, rfl⟩
    · rintro hlast value ⟨n, hn, rfl⟩
      exact hlast n hn

/-- In the second window the index falls back to a small value before the check that backs it
up; the large value of the first window is overwritten. -/
theorem clear_recoverable_iff_two_windows :
    ∃ s s' op, (machine .max 1 2).runFrom (machine .max 1 2).init
        [.update ⟨0, 5⟩, .check, .clear, .update ⟨0, 5⟩, .update ⟨0, 1⟩, .check] = some s ∧
      (machine .max 1 2).runFrom s [.clear, .check] = some s' ∧
      s'.recovered .max 1 = some op ∧ ∀ i < 1, Within 2 (op.array i) (s'.op.array i) := by
  have hwindows : ((machine .max 1 2).runFrom (machine .max 1 2).init
      [.update ⟨0, 5⟩, .check, .clear, .update ⟨0, 5⟩, .update ⟨0, 1⟩, .check]).map
        (fun s => s.store.entries) = some [(0, 1)] := by
    decide +kernel
  obtain ⟨s, hrun, hstore⟩ := Option.map_eq_some_iff.mp hwindows
  obtain ⟨s', op, hrun', hop, -, hiff⟩ :=
    clear_recoverable_iff .max 1 2 (by norm_num) hrun 0
  refine ⟨s, s', op, hrun, hrun', hop, hiff.mpr ?_⟩
  intro index n hlast
  have hget := (get?_store_iff hrun index _).mpr ⟨n, hlast, rfl⟩
  rw [← s.store.mem_entries_iff, hstore, List.mem_singleton] at hget
  rw [(Prod.mk.inj hget).2]
  decide +kernel

/-- The server still has the value of the window that was cleared. -/
theorem clear_recovers_old_window :
    ∃ s op, (machine .max 1 0).runFrom (machine .max 1 0).init
        [.update ⟨0, 5⟩, .check, .clear, .check] = some s ∧
      s.recovered .max 1 = some op ∧ ¬ ∀ i < 1, Within 0 (op.array i) (s.op.array i) := by
  have hrun : ((machine .max 1 0).runFrom (machine .max 1 0).init
      [.update ⟨0, 5⟩, .check, .clear, .check]).map
        (fun s => (s.op.array 0, (s.recovered .max 1).map fun op => op.array 0)) =
      some (0, some 5) := by
    decide +kernel
  obtain ⟨s, hs, hvalues⟩ := Option.map_eq_some_iff.mp hrun
  obtain ⟨hlive, hrecovered⟩ := Prod.mk.inj hvalues
  obtain ⟨op, hop, hfive⟩ := Option.map_eq_some_iff.mp hrecovered
  refine ⟨s, op, hs, hop, fun hwithin => ?_⟩
  have hzero := hwithin 0 Nat.zero_lt_one
  rw [hlive, hfive] at hzero
  revert hzero
  decide +kernel

end BackedUp

end AFStream.Operator

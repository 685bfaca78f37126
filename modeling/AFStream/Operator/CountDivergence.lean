/-
# The divergence of a count operator

`CalculateDivergence` of `HashMap_CNT` subtracts the sizes of two maps. The module shows
that every call keeps the keys of the backup among those of the map, so that the
difference counts the entries without a backup, and how many of them one call of
`SerializeState` backs up.
-/

import AFStream.Operator.CountOperator

namespace AFStream.Operator

open AFStream.Foundation AFStream.FaultTolerance

universe u v

variable {K : Type u} {V : Type v} [DecidableEq K]

/-- The calls on a `HashMap_CNT`. A serialization takes the iteration order of the map and
the item that is written to. -/
inductive HashMapCall (K : Type u) (V : Type v)
  | update (key : K) (value : V)
  | get (key : K)
  | serialize (order : List (K × V)) (buffer : BackupData)
  | recovery (data : BackupData)
  | clear

namespace HashMapCnt

/-- All runs of a fresh operator. -/
def machine [DecidableEq V] (codec : Codec (K × V)) (initial : V) :
    Machine (HashMapCnt K V) (HashMapCall K V) where
  init := .create
  step := fun op call =>
    match call with
    | .update key value => some (op.updateValue key value)
    | .get key => some (op.getValue initial key).2
    | .serialize order buffer =>
      if order.Perm op.map.entries then some (op.serializeState codec order buffer).2 else none
    | .recovery data => some (op.recoveryState codec data)
    | .clear => some op.clear

/-- The entries that `SerializeState` packs, in an iteration order of the map. -/
def packed (codec : Codec (K × V)) (op : HashMapCnt K V) (order : List (K × V)) : List (K × V) :=
  (packLoop (cap codec) order op.backupMap).1

/-- The bytes that it copies into the item. -/
def written (codec : Codec (K × V)) (op : HashMapCnt K V) (order : List (K × V)) : List UInt8 :=
  (op.packed codec order).flatMap codec.encode

/-- Every key of the backup is a key of the map. -/
def Inside (op : HashMapCnt K V) : Prop := op.backupMap.keySet ⊆ op.map.keySet

variable {codec : Codec (K × V)} {initial : V} {op op' : HashMapCnt K V}

/-- A key that is only looked up may be new, but it stays without a backup. -/
theorem Inside.getValue (h : op.Inside) (initial : V) (key : K) :
    (op.getValue initial key).2.Inside := by
  unfold HashMapCnt.getValue
  cases op.map.get? key with
  | some value => exact h
  | none =>
      intro other hother
      change other ∈ (op.map.put key initial).keySet
      rw [KeyedSlots.keySet_put]
      exact Finset.mem_insert_of_mem (h hother)

/-- The entries that are packed: some of those without a backup. -/
theorem packed_eq {order : List (K × V)} (horder : order.Perm op.map.entries) :
    op.packed codec order =
      (order.filter fun entry => op.backupMap.get? entry.1 = none).take (cap codec) := by
  have hnodup : (order.map Prod.fst).Nodup :=
    (horder.map Prod.fst).nodup_iff.mpr op.map.nodup_keys
  rw [packed, packLoop_eq hnodup]

theorem length_packed {order : List (K × V)} (horder : order.Perm op.map.entries) :
    (op.packed codec order).length = min (cap codec) (CountedBackup.pending op) := by
  rw [packed_eq horder, List.length_take, (horder.filter _).length_eq]
  rfl

theorem mem_packed {order : List (K × V)} (horder : order.Perm op.map.entries) {entry : K × V}
    (hentry : entry ∈ op.packed codec order) :
    entry.1 ∈ op.map.keySet ∧ entry.1 ∉ op.backupMap.keySet := by
  rw [packed_eq horder] at hentry
  obtain ⟨hmem, hnone⟩ := List.mem_filter.mp (List.mem_of_mem_take hentry)
  constructor
  · rw [KeyedSlots.keySet, List.mem_toFinset]
    exact List.mem_map_of_mem (horder.mem_iff.mp hmem)
  · rw [KeyedSlots.mem_keySet, not_not]
    simpa using hnone

theorem nodup_packed {order : List (K × V)} (horder : order.Perm op.map.entries) :
    ((op.packed codec order).map Prod.fst).Nodup := by
  have hnodup : (order.map Prod.fst).Nodup :=
    (horder.map Prod.fst).nodup_iff.mpr op.map.nodup_keys
  rw [packed_eq horder]
  exact hnodup.sublist (((List.take_sublist _ _).trans List.filter_sublist).map Prod.fst)

/-- The keys of the backup after a call of `SerializeState`. -/
theorem keySet_serializeState {order : List (K × V)} (horder : order.Perm op.map.entries)
    (buffer : BackupData) :
    (op.serializeState codec order buffer).2.backupMap.keySet =
      op.backupMap.keySet ∪ ((op.packed codec order).map Prod.fst).toFinset := by
  have hnodup : (order.map Prod.fst).Nodup :=
    (horder.map Prod.fst).nodup_iff.mpr op.map.nodup_keys
  rw [packed_eq horder, ← KeyedSlots.keySet_foldl_put, serializeState, packLoop_eq hnodup]

/-- Every call keeps the keys of the backup inside. -/
theorem Inside.step [DecidableEq V] (h : op.Inside) {call : HashMapCall K V}
    (hstep : (machine codec initial).step op call = some op') : op'.Inside := by
  cases call with
  | update key value =>
      obtain rfl := Option.some.inj hstep
      intro other hother
      change other ∈ (op.map.put key value).keySet
      rw [KeyedSlots.keySet_put]
      exact Finset.mem_insert_of_mem (h hother)
  | get key =>
      obtain rfl := Option.some.inj hstep
      exact h.getValue initial key
  | serialize order buffer =>
      change (if order.Perm op.map.entries then _ else none) = some op' at hstep
      split_ifs at hstep with horder
      obtain rfl := Option.some.inj hstep
      rw [Inside, keySet_serializeState horder]
      apply Finset.union_subset h
      intro key hkey
      rw [List.mem_toFinset] at hkey
      obtain ⟨entry, hentry, rfl⟩ := List.mem_map.mp hkey
      exact (mem_packed horder hentry).1
  | recovery data =>
      obtain rfl := Option.some.inj hstep
      change (op.backupMap.put _ _).keySet ⊆ (op.map.put _ _).keySet
      rw [KeyedSlots.keySet_put, KeyedSlots.keySet_put]
      exact Finset.insert_subset_insert _ h
  | clear =>
      obtain rfl := Option.some.inj hstep
      exact Finset.Subset.refl _

/-- The entries without a backup, counted by the two sizes. -/
theorem Inside.pending_eq (h : op.Inside) :
    op.backupMap.entries.length ≤ op.map.entries.length ∧
      CountedBackup.pending op = op.map.entries.length - op.backupMap.entries.length := by
  rw [← op.map.card_keySet, ← op.backupMap.card_keySet]
  refine ⟨Finset.card_le_card h, ?_⟩
  rw [CountedBackup.pending, KeyedSlots.length_filter_get?_eq_none, Finset.card_sdiff_of_subset h]

/-- The difference of the two sizes does not wrap. -/
theorem Inside.calculateDivergence_eq (h : op.Inside) (hsize : op.map.entries.length < 2 ^ 64) :
    op.calculateDivergence = CountedBackup.pending op := by
  obtain ⟨hle, hpending⟩ := h.pending_eq
  rw [HashMapCnt.calculateDivergence, hpending, Nat.sub_add_comm hle, Nat.add_mod_right]
  exact Nat.mod_eq_of_lt ((Nat.sub_le _ _).trans_lt hsize)

/-- One call of `SerializeState` backs up as many entries as fit. -/
theorem pending_serializeState {order : List (K × V)} (horder : order.Perm op.map.entries)
    (buffer : BackupData) :
    CountedBackup.pending (op.serializeState codec order buffer).2 +
      min (cap codec) (CountedBackup.pending op) = CountedBackup.pending op := by
  have hmap : (op.serializeState codec order buffer).2.map = op.map := rfl
  have hsub : ((op.packed codec order).map Prod.fst).toFinset ⊆
      op.map.keySet \ op.backupMap.keySet := by
    intro key hkey
    rw [List.mem_toFinset] at hkey
    obtain ⟨entry, hentry, rfl⟩ := List.mem_map.mp hkey
    exact Finset.mem_sdiff.mpr (mem_packed horder hentry)
  have hcard : ((op.packed codec order).map Prod.fst).toFinset.card =
      min (cap codec) (CountedBackup.pending op) := by
    rw [List.toFinset_card_of_nodup (nodup_packed horder), List.length_map, length_packed horder]
  rw [← hcard, CountedBackup.pending, CountedBackup.pending, hmap,
    KeyedSlots.length_filter_get?_eq_none, KeyedSlots.length_filter_get?_eq_none,
    keySet_serializeState horder, ← Finset.sup_eq_union, ← sdiff_sdiff_left]
  exact Finset.card_sdiff_add_card_eq_card hsub

/-- The bytes of an item. -/
theorem length_written (codec : Codec (K × V)) {order : List (K × V)}
    (horder : order.Perm op.map.entries) (buffer : BackupData) :
    (op.written codec order).length ≤ maxBackupItemDataLen ∧
      (op.serializeState codec order buffer).1.len.toNat = (op.written codec order).length := by
  have hcap : (op.packed codec order).length ≤ cap codec := by
    rw [length_packed horder]
    exact min_le_left _ _
  have hsize := size_packed_le hcap
  rw [written, codec.length_flatMap_encode]
  refine ⟨hsize, ?_⟩
  change (UInt32.ofNat (codec.size * (op.packed codec order).length)).toNat = _
  exact UInt32.toNat_ofNat_of_lt (hsize.trans_lt (by decide))

/-- **The divergence of `HashMap_CNT` is exact.** For every sequence of calls, iteration
order and content of the items: every key of the backup is a key of the map, so the sizes can
be subtracted and their difference is the number of entries without a backup; and a call of
`SerializeState` writes no more than an item holds and backs up exactly as many of these
entries as fit. -/
theorem count_divergence_exact [DecidableEq V] (keyCodec : Codec K) (valueCodec : Codec V)
    (initial : V) {calls : List (HashMapCall K V)}
    (hrun : (machine (keyCodec.pair valueCodec) initial).runFrom .create calls = some op) :
    (∀ key, op.backupMap.get? key ≠ none → op.map.get? key ≠ none) ∧
      op.backupMap.entries.length ≤ op.map.entries.length ∧
      op.map.entries.length - op.backupMap.entries.length = CountedBackup.pending op ∧
      (op.map.entries.length < 2 ^ 64 → op.calculateDivergence = CountedBackup.pending op) ∧
      ∀ (order : List (K × V)) (buffer : BackupData), order.Perm op.map.entries →
        (op.written (keyCodec.pair valueCodec) order).length ≤ maxBackupItemDataLen ∧
        (op.serializeState (keyCodec.pair valueCodec) order buffer).1.len.toNat =
          (op.written (keyCodec.pair valueCodec) order).length ∧
        CountedBackup.pending (op.serializeState (keyCodec.pair valueCodec) order buffer).2 +
          min (256 / (keyCodec.size + valueCodec.size)) (CountedBackup.pending op) =
            CountedBackup.pending op := by
  have hinside : op.Inside :=
    Machine.runFrom_invariant Inside (fun h hstep => h.step hstep) (Finset.Subset.refl _) hrun
  obtain ⟨hle, hpending⟩ := hinside.pending_eq
  refine ⟨?_, hle, hpending.symm, hinside.calculateDivergence_eq, ?_⟩
  · intro key hkey
    exact op.map.mem_keySet.mp (hinside (op.backupMap.mem_keySet.mpr hkey))
  · intro order buffer horder
    obtain ⟨hbytes, hlen⟩ := length_written (keyCodec.pair valueCodec) horder buffer
    exact ⟨hbytes, hlen, pending_serializeState horder buffer⟩

/-- Two entries, of which one has been backed up, and a key that was looked up. -/
theorem count_divergence_exact_run :
    ∃ op : HashMapCnt UInt8 UInt8,
      (machine (Codec.byte.pair Codec.byte) 0).runFrom .create
        [.update 1 10, .serialize [(1, 10)] ⟨0, 0, .zero⟩, .get 2] = some op ∧
      op.map.entries.length - op.backupMap.entries.length = CountedBackup.pending op := by
  obtain ⟨op, hrun⟩ : ∃ op : HashMapCnt UInt8 UInt8,
      (machine (Codec.byte.pair Codec.byte) 0).runFrom .create
        [.update 1 10, .serialize [(1, 10)] ⟨0, 0, .zero⟩, .get 2] = some op := ⟨_, rfl⟩
  obtain ⟨-, -, hpending, -⟩ := count_divergence_exact Codec.byte Codec.byte 0 hrun
  exact ⟨op, hrun, hpending⟩

end HashMapCnt

end AFStream.Operator

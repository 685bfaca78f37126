/-
# Operators that count what is not backed up

`HashMap_CNT` and `Set_CNT` measure divergence by the number of entries without a
backup. `SerializeState` packs as many of them as fit into one item and names the item
by a counter; `RecoveryState` reads one entry back from each item. The module runs such
an operator with its items at the backup server through any number of crashes and
determines when recovery returns what was backed up.

A set is a map whose values take no memory. The order in which the standard containers
are iterated is arbitrary: it is given with each call of `SerializeState`.
-/

import AFStream.FaultTolerance.BackupItem
import AFStream.Foundation.KeyedSlots
import AFStream.Foundation.Machine

namespace AFStream.Operator

open AFStream.Foundation AFStream.FaultTolerance

universe u v

/-- `HashMap_CNT` -/
structure HashMapCnt (K : Type u) (V : Type v) where
  map : KeyedSlots K V
  backupMap : KeyedSlots K V
  backupTime : UInt32

/-- `Set_CNT` -/
abbrev SetCnt (K : Type u) := HashMapCnt K PUnit.{u + 1}

namespace HashMapCnt

variable {K : Type u} {V : Type v} [DecidableEq K]

/-- The constructor. -/
def create : HashMapCnt K V where
  map := .empty
  backupMap := .empty
  backupTime := 0

/-- `UpdateValue` -/
def updateValue (op : HashMapCnt K V) (key : K) (value : V) : HashMapCnt K V :=
  { op with map := op.map.put key value }

/-- `GetValue`: a missing key is inserted with a value of its type's initial form. -/
def getValue (initial : V) (op : HashMapCnt K V) (key : K) : V × HashMapCnt K V :=
  match op.map.get? key with
  | some value => (value, op)
  | none => (initial, { op with map := op.map.put key initial })

/-- `Clear`. The counter goes on. -/
def clear (op : HashMapCnt K V) : HashMapCnt K V :=
  { op with map := .empty, backupMap := .empty }

/-- `CalculateDivergence`: a difference of two `size_t`. -/
def calculateDivergence (op : HashMapCnt K V) : ℕ :=
  (op.map.entries.length + 2 ^ 64 - op.backupMap.entries.length) % 2 ^ 64

/-- How many entries fit into an item, for the memory image of an entry. -/
def cap (codec : Codec (K × V)) : ℕ := maxBackupItemDataLen / codec.size

/-- The loop of `SerializeState` over the entries of the map, with the room that is left:
the packed entries and the new backup. -/
def packLoop : ℕ → List (K × V) → KeyedSlots K V → List (K × V) × KeyedSlots K V
  | _, [], backup => ([], backup)
  | 0, _ :: _, backup => ([], backup)
  | room + 1, entry :: rest, backup =>
    if backup.get? entry.1 = none then
      let (packed, backup) := packLoop room rest (backup.put entry.1 entry.2)
      (entry :: packed, backup)
    else packLoop (room + 1) rest backup

/-- `SerializeState`, for an iteration order of the map. -/
def serializeState (codec : Codec (K × V)) (op : HashMapCnt K V) (order : List (K × V))
    (buffer : BackupData) : BackupData × HashMapCnt K V :=
  let (packed, backup) := packLoop (cap codec) order op.backupMap
  ({ len := UInt32.ofNat (codec.size * packed.length)
     key := op.backupTime.toUInt64
     data := buffer.data.write (packed.flatMap codec.encode) },
   { op with backupMap := backup, backupTime := op.backupTime + 1 })

/-- The entry that `RecoveryState` reads from an item: the first one. -/
def firstEntry (codec : Codec (K × V)) (data : BackupData) : K × V :=
  codec.decode (data.data.bytes.take codec.size)

/-- `RecoveryState` -/
def recoveryState (codec : Codec (K × V)) (op : HashMapCnt K V) (data : BackupData) :
    HashMapCnt K V :=
  let entry := firstEntry codec data
  { op with
    map := op.map.put entry.1 entry.2
    backupMap := op.backupMap.put entry.1 entry.2 }

end HashMapCnt

namespace SetCnt

variable {K : Type u} [DecidableEq K]

/-- `Insert` -/
def insert (op : SetCnt K) (key : K) : SetCnt K := op.updateValue key ⟨⟩

/-- The memory image of an entry of a set is that of its key. -/
def entryCodec (codec : Codec K) : Codec (K × PUnit.{u + 1}) := codec.pair .unit

end SetCnt

/-! ## Runs with crashes -/

/-- An operator, the buffer that its items are written to and the items at the backup
server. -/
structure CountedBackup (K : Type u) (V : Type v) where
  op : HashMapCnt K V
  buffer : BackupData
  store : KeyedSlots UInt64 BackupData

/-- What happens to an operator. -/
inductive CountAction (K : Type u) (V : Type v)
  | update (key : K) (value : V)
  | serialize (order : List (K × V))
  | crash

namespace CountedBackup

variable {K : Type u} {V : Type v} [DecidableEq K] [DecidableEq V]

/-- A fresh operator after `RecoveryState` on every stored item. -/
def recovered (codec : Codec (K × V)) (store : KeyedSlots UInt64 BackupData) : HashMapCnt K V :=
  (store.entries.map Prod.snd).foldl (HashMapCnt.recoveryState codec) .create

/-- One call, or a crash with the recovery that follows. An empty item is not sent. -/
def step (codec : Codec (K × V)) (s : CountedBackup K V) :
    CountAction K V → Option (CountedBackup K V)
  | .update key value => some { s with op := s.op.updateValue key value }
  | .serialize order =>
    if order.Perm s.op.map.entries then
      let (item, op) := s.op.serializeState codec order s.buffer
      some {
        op := op
        buffer := item
        store := if item.len = 0 then s.store else s.store.put item.key item }
    else none
  | .crash => some { s with op := recovered codec s.store }

/-- All runs of a fresh operator. -/
def machine (codec : Codec (K × V)) (buffer : BackupData) :
    Machine (CountedBackup K V) (CountAction K V) where
  init := { op := .create, buffer := buffer, store := .empty }
  step := step codec

/-- A crash would recover exactly what has been backed up. -/
def Recoverable (codec : Codec (K × V)) (s : CountedBackup K V) : Prop :=
  ∀ key, (recovered codec s.store).map.get? key = s.op.backupMap.get? key ∧
    (recovered codec s.store).backupMap.get? key = s.op.backupMap.get? key

/-- The number of entries without a backup. -/
def pending (op : HashMapCnt K V) : ℕ :=
  (op.map.entries.filter fun entry => op.backupMap.get? entry.1 = none).length

/-- An action that loses nothing: `SerializeState` packs nothing, or it packs one entry
and the server has no item with its number. -/
def Lossless (codec : Codec (K × V)) (s : CountedBackup K V) : CountAction K V → Prop
  | .serialize _ =>
    min (HashMapCnt.cap codec) (pending s.op) = 0 ∨
      (min (HashMapCnt.cap codec) (pending s.op) = 1 ∧
        s.store.get? s.op.backupTime.toUInt64 = none)
  | _ => True

end CountedBackup

/-! ## What a serialization packs -/

namespace HashMapCnt

variable {K : Type u} {V : Type v} [DecidableEq K]

/-- The loop takes the first entries without a backup, up to the room there is. -/
theorem packLoop_eq {order : List (K × V)} (hnodup : (order.map Prod.fst).Nodup) (room : ℕ)
    (backup : KeyedSlots K V) :
    packLoop room order backup =
      (((order.filter fun entry => backup.get? entry.1 = none).take room),
        ((order.filter fun entry => backup.get? entry.1 = none).take room).foldl
          (fun backup entry => backup.put entry.1 entry.2) backup) := by
  induction order generalizing room backup with
  | nil => simp [packLoop]
  | cons entry rest ih =>
      obtain ⟨hnot, hrest⟩ := List.nodup_cons.mp hnodup
      cases room with
      | zero => rfl
      | succ room =>
          by_cases hnone : backup.get? entry.1 = none
          · have hsame : rest.filter (fun e => (backup.put entry.1 entry.2).get? e.1 = none) =
                rest.filter fun e => backup.get? e.1 = none := by
              apply List.filter_congr
              intro e he
              have hne : e.1 ≠ entry.1 := fun hsame => hnot (hsame ▸ List.mem_map_of_mem he)
              rw [KeyedSlots.get?_put, if_neg hne]
            have hkept : (entry :: rest).filter (fun e => backup.get? e.1 = none) =
                entry :: rest.filter fun e => backup.get? e.1 = none := by
              simp [hnone]
            rw [packLoop, if_pos hnone, ih hrest, hsame, hkept, List.take_succ_cons]
            rfl
          · have hdropped : (entry :: rest).filter (fun e => backup.get? e.1 = none) =
                rest.filter fun e => backup.get? e.1 = none := by
              simp [hnone]
            rw [packLoop, if_neg hnone, ih hrest, hdropped]

omit [DecidableEq K] in
/-- The bytes of the packed entries fit into an item. -/
theorem size_packed_le {codec : Codec (K × V)} {packed : List (K × V)}
    (hlength : packed.length ≤ cap codec) :
    codec.size * packed.length ≤ maxBackupItemDataLen :=
  (Nat.mul_le_mul_left _ hlength).trans (Nat.mul_div_le _ _)

omit [DecidableEq K] in
/-- The first entry of an item can be read back. -/
theorem firstEntry_write {codec : Codec (K × V)} {entry : K × V} {rest : List (K × V)}
    (hlength : (entry :: rest).length ≤ cap codec) (buffer : BackupData) (len : UInt32)
    (key : UInt64) :
    firstEntry codec ⟨len, key, buffer.data.write ((entry :: rest).flatMap codec.encode)⟩ =
      entry := by
  have hbytes : ((entry :: rest).flatMap codec.encode).length ≤ maxBackupItemDataLen := by
    rw [codec.length_flatMap_encode]
    exact size_packed_le hlength
  rw [List.flatMap_cons] at hbytes ⊢
  have htake := buffer.data.take_write _ _ hbytes
  rw [codec.length_encode] at htake
  rw [firstEntry, htake, codec.decode_encode]

/-- What one call of `SerializeState` packs, and what it does to the backup. -/
theorem serializeState_spec (codec : Codec (K × V)) {op : HashMapCnt K V}
    {order : List (K × V)} (horder : order.Perm op.map.entries) (buffer : BackupData) :
    ∃ packed : List (K × V),
      packed.length = min (cap codec)
        (op.map.entries.filter fun entry => op.backupMap.get? entry.1 = none).length ∧
      (packed.map Prod.fst).Nodup ∧ (∀ entry ∈ packed, op.backupMap.get? entry.1 = none) ∧
      op.serializeState codec order buffer =
        ({ len := UInt32.ofNat (codec.size * packed.length)
           key := op.backupTime.toUInt64
           data := buffer.data.write (packed.flatMap codec.encode) },
         { op with
           backupMap := packed.foldl (fun backup entry => backup.put entry.1 entry.2) op.backupMap
           backupTime := op.backupTime + 1 }) := by
  have hnodup : (order.map Prod.fst).Nodup :=
    (horder.map Prod.fst).nodup_iff.mpr op.map.nodup_keys
  refine ⟨(order.filter fun entry => op.backupMap.get? entry.1 = none).take (cap codec),
    ?_, ?_, ?_, ?_⟩
  · rw [List.length_take, (horder.filter _).length_eq]
  · exact hnodup.sublist (((List.take_sublist _ _).trans List.filter_sublist).map Prod.fst)
  · intro entry hentry
    simpa using (List.mem_filter.mp (List.mem_of_mem_take hentry)).2
  · rw [serializeState, packLoop_eq hnodup]

end HashMapCnt

/-! ## When recovery is exact -/

namespace CountedBackup

variable {K : Type u} {V : Type v} [DecidableEq K] [DecidableEq V] {codec : Codec (K × V)}
  {s s' : CountedBackup K V}

/-- The entries that a recovery reads from the items at the server. -/
def stored (codec : Codec (K × V)) (store : KeyedSlots UInt64 BackupData) : List (K × V) :=
  store.entries.map fun entry => HashMapCnt.firstEntry codec entry.2

omit [DecidableEq V] in
theorem foldl_recoveryState (codec : Codec (K × V)) (items : List BackupData) (op : HashMapCnt K V) :
    (items.foldl (HashMapCnt.recoveryState codec) op).map =
        (items.map (HashMapCnt.firstEntry codec)).foldl
          (fun store entry => store.put entry.1 entry.2) op.map ∧
      (items.foldl (HashMapCnt.recoveryState codec) op).backupMap =
        (items.map (HashMapCnt.firstEntry codec)).foldl
          (fun store entry => store.put entry.1 entry.2) op.backupMap := by
  induction items generalizing op with
  | nil => exact ⟨rfl, rfl⟩
  | cons item rest ih => exact ih (op.recoveryState codec item)

omit [DecidableEq V] in
/-- A recovered operator holds the entries that were read, in both of its maps. -/
theorem get?_recovered (codec : Codec (K × V)) (store : KeyedSlots UInt64 BackupData) (key : K) :
    (recovered codec store).map.get? key = (stored codec store).reverse.lookup key ∧
      (recovered codec store).backupMap.get? key = (stored codec store).reverse.lookup key := by
  obtain ⟨hmap, hbackup⟩ := foldl_recoveryState codec (store.entries.map Prod.snd) .create
  rw [List.map_map] at hmap hbackup
  constructor
  · rw [recovered, hmap, KeyedSlots.get?_foldl_put]
    exact Option.or_none
  · rw [recovered, hbackup, KeyedSlots.get?_foldl_put]
    exact Option.or_none

omit [DecidableEq V] in
/-- Recovery is exact when the entries it reads are those of the backup. -/
theorem recoverable_iff :
    s.Recoverable codec ↔
      ∀ key, (stored codec s.store).reverse.lookup key = s.op.backupMap.get? key := by
  refine forall_congr' fun key => ?_
  rw [(get?_recovered codec s.store key).1, (get?_recovered codec s.store key).2, and_self]

omit [DecidableEq V] [DecidableEq K] in
/-- A new item adds its first entry. -/
theorem stored_put_of_none {store : KeyedSlots UInt64 BackupData} {key : UInt64}
    (hnone : store.get? key = none) (data : BackupData) :
    stored codec (store.put key data) =
      stored codec store ++ [HashMapCnt.firstEntry codec data] := by
  have hmem : key ∉ store.entries.map Prod.fst := fun hmem =>
    KeyedSlots.lookup_ne_none_of_mem hmem hnone
  rw [stored, store.entries_put_of_not_mem hmem, List.map_append]
  rfl

omit [DecidableEq V] [DecidableEq K] in
/-- What remains readable after an item has been saved. -/
theorem mem_stored_put {store : KeyedSlots UInt64 BackupData} {key : UInt64}
    {data : BackupData} {entry : K × V} (hentry : entry ∈ stored codec (store.put key data)) :
    entry = HashMapCnt.firstEntry codec data ∨
      ∃ item ∈ store.entries, item.1 ≠ key ∧ HashMapCnt.firstEntry codec item.2 = entry := by
  obtain ⟨⟨key', data'⟩, hitem, rfl⟩ := List.mem_map.mp hentry
  rw [KeyedSlots.mem_entries_iff, KeyedSlots.get?_put] at hitem
  by_cases hkey : key' = key
  · rw [if_pos hkey] at hitem
    exact .inl (congrArg _ (Option.some.inj hitem).symm)
  · rw [if_neg hkey, ← KeyedSlots.mem_entries_iff] at hitem
    exact .inr ⟨_, hitem, hkey, rfl⟩

/-- No two items hold the same key. -/
def Distinct (codec : Codec (K × V)) (s : CountedBackup K V) : Prop :=
  ((stored codec s.store).map Prod.fst).Nodup

omit [DecidableEq V] in
/-- As long as recovery is exact, an entry without a backup cannot be read. -/
theorem Recoverable.not_mem_stored (h : s.Recoverable codec) {key : K}
    (hnone : s.op.backupMap.get? key = none) : key ∉ (stored codec s.store).map Prod.fst := by
  intro hmem
  rw [← List.mem_reverse, ← List.map_reverse] at hmem
  exact KeyedSlots.lookup_ne_none_of_mem hmem ((recoverable_iff.mp h key).trans hnone)

omit [DecidableEq V] in
/-- A key of an exact backup can be read. -/
theorem Recoverable.mem_stored (h : s.Recoverable codec) {key : K} {value : V}
    (hsome : s.op.backupMap.get? key = some value) : key ∈ (stored codec s.store).map Prod.fst := by
  rw [← List.mem_reverse, ← List.map_reverse]
  exact KeyedSlots.mem_keys_of_lookup ((recoverable_iff.mp h key).trans hsome)

/-! ## One step -/

omit [DecidableEq V] in
/-- Packing nothing changes nothing that recovery depends on. -/
theorem recoverable_congr (hstore : s'.store = s.store)
    (hbackup : s'.op.backupMap = s.op.backupMap) :
    s'.Recoverable codec ↔ s.Recoverable codec := by
  rw [recoverable_iff, recoverable_iff, hstore, hbackup]

omit [DecidableEq V] in
/-- One entry in a new item: it is added on both sides. -/
theorem Recoverable.put_one (h : s.Recoverable codec) (hdistinct : s.Distinct codec)
    {entry : K × V} (hnew : s.op.backupMap.get? entry.1 = none) {key : UInt64} {data : BackupData}
    (hkey : s.store.get? key = none) (hfirst : HashMapCnt.firstEntry codec data = entry)
    (hstore : s'.store = s.store.put key data)
    (hbackup : s'.op.backupMap = s.op.backupMap.put entry.1 entry.2) :
    s'.Recoverable codec ∧ s'.Distinct codec := by
  have hstored : stored codec s'.store = stored codec s.store ++ [entry] := by
    rw [hstore, stored_put_of_none hkey, hfirst]
  constructor
  · rw [recoverable_iff]
    intro key'
    rw [hstored, hbackup, KeyedSlots.get?_put, List.reverse_append, List.reverse_singleton,
      List.singleton_append, KeyedSlots.lookup_cons_eq, recoverable_iff.mp h]
  · rw [Distinct, hstored, List.map_append]
    refine List.nodup_append.mpr ⟨hdistinct, List.nodup_singleton _, ?_⟩
    intro a ha b hb hab
    rw [List.map_singleton, List.mem_singleton] at hb
    exact h.not_mem_stored hnew (hb ▸ hab ▸ ha)

omit [DecidableEq V] in
/-- A second entry in an item cannot be read back. -/
theorem Recoverable.not_of_two (h : s.Recoverable codec) {entry other : K × V}
    (hne : other.1 ≠ entry.1) (hnew : s.op.backupMap.get? other.1 = none) {key : UInt64}
    {data : BackupData} (hfirst : HashMapCnt.firstEntry codec data = entry)
    (hstore : s'.store = s.store.put key data)
    (hbackup : s'.op.backupMap.get? other.1 = some other.2) : ¬ s'.Recoverable codec := by
  intro h'
  have hmem := h'.mem_stored hbackup
  rw [hstore] at hmem
  obtain ⟨entry', hentry', hsame⟩ := List.mem_map.mp hmem
  rcases mem_stored_put hentry' with hnewest | ⟨item, hitem, -, hread⟩
  · rw [hnewest, hfirst] at hsame
    exact hne hsame.symm
  · apply h.not_mem_stored hnew
    rw [← hsame, ← hread]
    exact List.mem_map_of_mem (List.mem_map_of_mem hitem)

omit [DecidableEq V] in
/-- An overwritten item takes its entry with it. -/
theorem Recoverable.not_of_overwrite (h : s.Recoverable codec) (hdistinct : s.Distinct codec)
    {entry : K × V} (hnew : s.op.backupMap.get? entry.1 = none) {key : UInt64}
    {data old : BackupData} (hold : s.store.get? key = some old)
    (hfirst : HashMapCnt.firstEntry codec data = entry)
    (hstore : s'.store = s.store.put key data)
    (hbackup : s'.op.backupMap = s.op.backupMap.put entry.1 entry.2) :
    ¬ s'.Recoverable codec := by
  intro h'
  have hitem : (key, old) ∈ s.store.entries := KeyedSlots.mem_entries_iff _ |>.mpr hold
  have hlost : HashMapCnt.firstEntry codec old ∈ stored codec s.store :=
    List.mem_map.mpr ⟨(key, old), hitem, rfl⟩
  obtain ⟨value, hvalue⟩ :
      ∃ value, s.op.backupMap.get? (HashMapCnt.firstEntry codec old).1 = some value := by
    rw [← Option.ne_none_iff_exists', ← recoverable_iff.mp h]
    apply KeyedSlots.lookup_ne_none_of_mem
    rw [List.map_reverse, List.mem_reverse]
    exact List.mem_map_of_mem hlost
  have hne : (HashMapCnt.firstEntry codec old).1 ≠ entry.1 := by
    intro hsame
    rw [hsame, hnew] at hvalue
    cases hvalue
  have hstill : s'.op.backupMap.get? (HashMapCnt.firstEntry codec old).1 = some value := by
    rw [hbackup, KeyedSlots.get?_put, if_neg hne, hvalue]
  have hmem := h'.mem_stored hstill
  rw [hstore] at hmem
  obtain ⟨entry', hentry', hsame⟩ := List.mem_map.mp hmem
  rcases mem_stored_put hentry' with hnewest | ⟨item, hitem', hother, hread⟩
  · rw [hnewest, hfirst] at hsame
    exact hne hsame.symm
  · rw [Distinct, stored, List.map_map] at hdistinct
    have hitems : item = (key, old) := by
      apply List.inj_on_of_nodup_map hdistinct hitem' hitem
      simp only [Function.comp_apply, hread, hsame]
    exact hother (congrArg Prod.fst hitems)

/-- A call of `SerializeState` with the save that follows: nothing is saved if nothing was
packed, and otherwise an item that starts with the first packed entry. -/
theorem step_serialize {order : List (K × V)}
    (hstep : s.step codec (.serialize order) = some s') :
    ∃ packed : List (K × V), packed.length = min (HashMapCnt.cap codec) (pending s.op) ∧
      (packed.map Prod.fst).Nodup ∧ (∀ entry ∈ packed, s.op.backupMap.get? entry.1 = none) ∧
      s'.op.backupMap =
        packed.foldl (fun backup entry => backup.put entry.1 entry.2) s.op.backupMap ∧
      (packed = [] → s'.store = s.store) ∧
      ∀ entry rest, packed = entry :: rest → ∃ data,
        HashMapCnt.firstEntry codec data = entry ∧
          s'.store = s.store.put s.op.backupTime.toUInt64 data := by
  by_cases horder : order.Perm s.op.map.entries
  · obtain ⟨packed, hlength, hnodup, hnew, hserialize⟩ :=
      HashMapCnt.serializeState_spec codec horder s.buffer
    rw [step, if_pos horder, hserialize] at hstep
    obtain rfl := Option.some.inj hstep
    refine ⟨packed, hlength, hnodup, hnew, rfl, ?_, ?_⟩
    · rintro rfl
      rfl
    · rintro entry rest rfl
      have hcap : (entry :: rest).length ≤ HashMapCnt.cap codec := hlength.trans_le (min_le_left _ _)
      have hsize := HashMapCnt.size_packed_le hcap
      have hpos : 0 < codec.size := by
        by_contra hzero
        rw [HashMapCnt.cap, Nat.eq_zero_of_not_pos hzero, Nat.div_zero] at hcap
        cases hcap
      refine ⟨_, HashMapCnt.firstEntry_write hcap s.buffer _ _, if_neg ?_⟩
      intro hlen
      have hnat := congrArg UInt32.toNat hlen
      rw [UInt32.toNat_ofNat', Nat.mod_eq_of_lt (hsize.trans_lt (by decide))] at hnat
      exact absurd hnat (Nat.mul_pos hpos (Nat.succ_pos _)).ne'
  · rw [step, if_neg horder] at hstep
    cases hstep

/-- Every step: recovery stays exact exactly when nothing is lost. -/
theorem step_recoverable_iff (h : s.Recoverable codec) (hdistinct : s.Distinct codec)
    {action : CountAction K V} (hstep : s.step codec action = some s') :
    (s'.Recoverable codec ↔ s.Lossless codec action) ∧
      (s'.Recoverable codec → s'.Distinct codec) := by
  cases action with
  | update key value =>
      obtain rfl := Option.some.inj hstep
      exact ⟨iff_of_true h trivial, fun _ => hdistinct⟩
  | crash =>
      obtain rfl := Option.some.inj hstep
      refine ⟨iff_of_true ?_ trivial, fun _ => hdistinct⟩
      rw [recoverable_iff]
      exact fun key => (get?_recovered codec s.store key).2.symm
  | serialize order =>
      obtain ⟨packed, hlength, hnodup, hnew, hbackup, hnil, hcons⟩ := step_serialize hstep
      simp only [Lossless, ← hlength]
      rcases packed with _ | ⟨entry, _ | ⟨other, rest⟩⟩
      · have hstore := hnil rfl
        refine ⟨iff_of_true ((recoverable_congr hstore hbackup).mpr h) (.inl rfl), fun _ => ?_⟩
        rwa [Distinct, hstore]
      · obtain ⟨data, hfirst, hstore⟩ := hcons entry [] rfl
        have hentry := hnew entry List.mem_cons_self
        cases hold : s.store.get? s.op.backupTime.toUInt64 with
        | none =>
            obtain ⟨h', hdistinct'⟩ := h.put_one hdistinct hentry hold hfirst hstore hbackup
            exact ⟨iff_of_true h' (.inr ⟨rfl, rfl⟩), fun _ => hdistinct'⟩
        | some old =>
            have h' := h.not_of_overwrite hdistinct hentry hold hfirst hstore hbackup
            refine ⟨iff_of_false h' ?_, fun hrecoverable => absurd hrecoverable h'⟩
            simp
      · obtain ⟨data, hfirst, hstore⟩ := hcons entry (other :: rest) rfl
        have hne : other.1 ≠ entry.1 := by
          intro hsame
          apply (List.nodup_cons.mp hnodup).1
          rw [← hsame]
          exact List.mem_cons_self
        have hother : s'.op.backupMap.get? other.1 = some other.2 := by
          have hlookup := (KeyedSlots.mem_entries_iff ⟨(entry :: other :: rest).reverse, by
            rw [List.map_reverse]
            exact List.nodup_reverse.mpr hnodup⟩).mp
            (List.mem_reverse.mpr (List.mem_cons_of_mem entry List.mem_cons_self))
          rw [KeyedSlots.get?] at hlookup
          rw [hbackup, KeyedSlots.get?_foldl_put, hlookup, Option.some_or]
        have h' := h.not_of_two hne
          (hnew other (List.mem_cons_of_mem _ List.mem_cons_self)) hfirst hstore hother
        refine ⟨iff_of_false h' ?_, fun hrecoverable => absurd hrecoverable h'⟩
        simp

/-- **When the count operators lose nothing.** For every memory image of the entries,
every run of updates, serializations and crashes: a crash in any state of the run
recovers exactly the backup that the operator holds there, if and only if each
serialization packs no entry, or one entry into an item whose number is not in use at
the server. -/
theorem recoverable_iff_lossless (codec : Codec (K × V)) (buffer : BackupData)
    (actions : List (CountAction K V)) :
    (machine codec buffer).Always (Recoverable codec) (machine codec buffer).init actions ↔
      (machine codec buffer).AlwaysStep (Lossless codec) (machine codec buffer).init actions := by
  apply Machine.always_iff_alwaysStep (Distinct codec)
  · intro s action s' hdistinct h hstep
    exact step_recoverable_iff h hdistinct hstep
  · exact List.nodup_nil
  · exact fun key => ⟨rfl, rfl⟩

/-- Two entries in one item, of which the second cannot be read back; and one item each
before and after a crash, of which the second overwrites the first. -/
theorem not_recoverable_packed_or_restarted :
    (¬ (machine (Codec.byte.pair Codec.byte) ⟨0, 0, .zero⟩).Always
        (Recoverable (Codec.byte.pair Codec.byte))
        (machine (Codec.byte.pair Codec.byte) ⟨0, 0, .zero⟩).init
        [.update 1 10, .update 2 20, .serialize [(1, 10), (2, 20)]]) ∧
      ¬ (machine (Codec.byte.pair Codec.byte) ⟨0, 0, .zero⟩).Always
        (Recoverable (Codec.byte.pair Codec.byte))
        (machine (Codec.byte.pair Codec.byte) ⟨0, 0, .zero⟩).init
        [.update 1 10, .serialize [(1, 10)], .crash, .update 2 20,
          .serialize [(1, 10), (2, 20)]] := by
  constructor
  · intro halways
    have hrun : ((machine (Codec.byte.pair Codec.byte) ⟨0, 0, .zero⟩).runFrom
        (machine (Codec.byte.pair Codec.byte) ⟨0, 0, .zero⟩).init
        [.update 1 10, .update 2 20, .serialize [(1, 10), (2, 20)]]).map
          (fun s => ((recovered (Codec.byte.pair Codec.byte) s.store).map.get? 2,
            s.op.backupMap.get? 2)) = some (none, some 20) := by
      decide +kernel
    obtain ⟨s, hs, hvalues⟩ := Option.map_eq_some_iff.mp hrun
    obtain ⟨hrecovered, hbackup⟩ := Prod.mk.inj hvalues
    have hsame := (halways.of_runFrom hs 2).1
    rw [hrecovered, hbackup] at hsame
    cases hsame
  · intro halways
    have hrun : ((machine (Codec.byte.pair Codec.byte) ⟨0, 0, .zero⟩).runFrom
        (machine (Codec.byte.pair Codec.byte) ⟨0, 0, .zero⟩).init
        [.update 1 10, .serialize [(1, 10)], .crash, .update 2 20,
          .serialize [(1, 10), (2, 20)]]).map
          (fun s => ((recovered (Codec.byte.pair Codec.byte) s.store).map.get? 1,
            s.op.backupMap.get? 1)) = some (none, some 10) := by
      decide +kernel
    obtain ⟨s, hs, hvalues⟩ := Option.map_eq_some_iff.mp hrun
    obtain ⟨hrecovered, hbackup⟩ := Prod.mk.inj hvalues
    have hsame := (halways.of_runFrom hs 1).1
    rw [hrecovered, hbackup] at hsame
    cases hsame

end CountedBackup

end AFStream.Operator

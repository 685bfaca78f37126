/-
# Recovery restores what was backed up

For every thread the requests served so far, followed by the request the thread waits
for, determine the backup arrays of its operators: at each index they hold the value of
the last item that was saved for it. A recovery reads exactly these values back. The
results hold for runs in which the ids of the saved items fit into their heads, the
items of a worker fit into a reply, and no request that a worker sent before a crash is
served after the recovery from it.
-/

import AFStream.FaultTolerance.Recovery
import Mathlib.Data.UInt

namespace AFStream.FaultTolerance

open AFStream.Foundation AFStream.Operator

universe u

namespace OpId

/-- The ids fit into the head of an item. -/
structure Small (id : OpId) : Prop where
  worker_lt : id.worker < 2 ^ 16
  thread_lt : id.thread < 2 ^ 16
  op_lt : id.op < 2 ^ 16

/-- The ids as they stand in the head of an item. -/
def workerId (id : OpId) : UInt32 := UInt32.ofNat id.worker

def saveId (id : OpId) (index : UInt32) : SaveId :=
  (UInt16.ofNat id.thread, UInt16.ofNat id.op, index.toUInt64)

theorem Small.toNat_workerId {id : OpId} (h : id.Small) : id.workerId.toNat = id.worker := by
  rw [workerId, UInt32.toNat_ofNat', Nat.mod_eq_of_lt (h.worker_lt.trans (by decide))]

theorem toNat_ofNat_lt {n : ℕ} (h : n < 2 ^ 16) : (UInt16.ofNat n).toNat = n := by
  rw [UInt16.toNat_ofNat', Nat.mod_eq_of_lt h]

/-- Small ids are determined by the head of an item. -/
theorem Small.inj {id id' : OpId} (h : id.Small) (h' : id'.Small) {index index' : UInt32} :
    id.workerId = id'.workerId ∧ id.saveId index = id'.saveId index' ↔
      id = id' ∧ index = index' := by
  constructor
  · rintro ⟨hworker, hsave⟩
    have hworker' := congrArg UInt32.toNat hworker
    rw [h.toNat_workerId, h'.toNat_workerId] at hworker'
    obtain ⟨hthread, hrest⟩ := Prod.mk.inj hsave
    obtain ⟨hop, hkey⟩ := Prod.mk.inj hrest
    have hthread' := congrArg UInt16.toNat hthread
    have hop' := congrArg UInt16.toNat hop
    rw [toNat_ofNat_lt h.thread_lt, toNat_ofNat_lt h'.thread_lt] at hthread'
    rw [toNat_ofNat_lt h.op_lt, toNat_ofNat_lt h'.op_lt] at hop'
    have hindex := congrArg UInt64.toUInt32 hkey
    rw [UInt32.toUInt32_toUInt64, UInt32.toUInt32_toUInt64] at hindex
    refine ⟨?_, hindex⟩
    obtain ⟨worker, thread, op⟩ := id
    obtain ⟨worker', thread', op'⟩ := id'
    simp only [OpId.mk.injEq]
    exact ⟨hworker', hthread', hop'⟩
  · rintro ⟨rfl, rfl⟩
    exact ⟨rfl, rfl⟩

end OpId

namespace Config

variable {V : OpId → Type u} (config : Config V)

/-- A request that saves a value of an operator, with small ids and inside the array. -/
structure Backup (id : OpId) (saved : Saved (V id)) (r : BackupItem) : Prop where
  small : id.Small
  registered : config.Registered id
  index_lt : saved.index.toNat < config.length id
  item_eq : ∃ seq buffer, r = config.backupItem id seq saved buffer

variable {config} {id : OpId} {saved : Saved (V id)} {r : BackupItem}

theorem Backup.workerId_eq (h : config.Backup id saved r) : r.info.workerId = id.workerId := by
  obtain ⟨seq, buffer, rfl⟩ := h.item_eq
  rfl

theorem Backup.saveId_eq (h : config.Backup id saved r) : r.saveId = id.saveId saved.index := by
  obtain ⟨seq, buffer, rfl⟩ := h.item_eq
  rfl

theorem Backup.isSave (h : config.Backup id saved r) : r.IsSave := by
  obtain ⟨seq, buffer, rfl⟩ := h.item_eq
  refine ⟨rfl, fun hlen => ?_⟩
  have hnat := congrArg UInt32.toNat hlen
  rw [backupItem, toNat_len_packSaved (config.size_le id)] at hnat
  exact absurd hnat (by simp)

theorem Backup.valid (h : config.Backup id saved r) : r.ValidRequest := by
  have hworker : r.info.workerId.toNat < 2 ^ 16 := by
    rw [h.workerId_eq, h.small.toNat_workerId]
    exact h.small.worker_lt
  have hsave := h.isSave
  obtain ⟨seq, buffer, rfl⟩ := h.item_eq
  refine ⟨hworker, Nat.zero_le 2, fun _ => ⟨hsave.2, ?_⟩⟩
  rw [BackupItem.Fits, backupItem, toNat_len_packSaved (config.size_le id)]
  exact config.size_le id

/-- A backup adds nothing to the items of another worker. -/
theorem Backup.savedIds_concat_of_ne (h : config.Backup id saved r) (requests : List BackupItem)
    {worker : UInt32} (hne : worker ≠ id.workerId) :
    BackupServer.savedIds (requests ++ [r]) worker = BackupServer.savedIds requests worker := by
  apply BackupServer.savedIds_congr
  apply BackupServer.saves_append_of_not_mem
  intro r' hr' hsave
  rw [List.mem_singleton.mp hr', h.workerId_eq] at hsave
  exact hne hsave.2.symm

/-- Whatever carries a backup is unpacked to the saved value. -/
theorem Backup.unpack (h : config.Backup id saved r) {slot : BackupItem} (hslot : slot.Carries r) :
    unpackSaved (config.codec id) slot.data = saved := by
  obtain ⟨seq, buffer, rfl⟩ := h.item_eq
  exact unpackSaved_packSaved (config.size_le id) hslot.len_eq hslot.key_eq hslot.written_eq

/-! ## The values at the server -/

/-- The last item saved for an element. -/
def storedItem (requests : List BackupItem) (id : OpId) (index : UInt32) : Option BackupItem :=
  BackupServer.lastSave requests id.workerId (id.saveId index)

open Classical in
/-- The value of the last item saved for an element, and zero if there is none. -/
noncomputable def storedValue [∀ id, Zero (V id)] (config : Config V)
    (requests : List BackupItem) (id : OpId) (i : ℕ) : V id :=
  if id.Small ∧ i < 2 ^ 32 then
    (storedItem requests id (UInt32.ofNat i)).elim 0 fun r =>
      (unpackSaved (config.codec id) r.data).value
  else 0

/-- A request that saves nothing. -/
theorem storedItem_of_not_save {requests : List BackupItem} (hr : ¬ r.IsSave) (id : OpId)
    (index : UInt32) : storedItem (requests ++ [r]) id index = storedItem requests id index := by
  rw [storedItem, BackupServer.lastSave_concat, if_neg fun h => hr h.1]
  rfl

/-- A backup of an element. -/
theorem Backup.storedItem (h : config.Backup id saved r) (requests : List BackupItem)
    {id' : OpId} (hsmall : id'.Small) (index : UInt32) :
    storedItem (requests ++ [r]) id' index =
      if id = id' ∧ saved.index = index then some r else storedItem requests id' index := by
  rw [Config.storedItem, BackupServer.lastSave_concat, h.workerId_eq, h.saveId_eq]
  simp only [h.isSave, true_and, h.small.inj hsmall]
  rfl

variable [∀ id, Zero (V id)]

theorem storedValue_of_not_save {requests : List BackupItem} (hr : ¬ r.IsSave) (id : OpId) :
    config.storedValue (requests ++ [r]) id = config.storedValue requests id := by
  funext i
  rw [storedValue, storedItem_of_not_save hr]
  rfl

/-- A backup changes the stored value of its element. -/
theorem Backup.storedValue_self (h : config.Backup id saved r) (requests : List BackupItem) :
    config.storedValue (requests ++ [r]) id =
      Function.update (config.storedValue requests id) saved.index.toNat saved.value := by
  funext i
  by_cases hi : i < 2 ^ 32
  · rw [storedValue, if_pos ⟨h.small, hi⟩, h.storedItem requests h.small]
    by_cases hindex : saved.index = UInt32.ofNat i
    · have hsame : saved.index.toNat = i := by
        rw [hindex, UInt32.toNat_ofNat', Nat.mod_eq_of_lt hi]
      have hvalue := h.unpack (.refl (h.valid.save h.isSave.1).2)
      rw [if_pos ⟨rfl, hindex⟩, Option.elim_some, hvalue, hsame, Function.update_self]
    · have hne : i ≠ saved.index.toNat := by
        intro hsame
        exact hindex (UInt32.toNat_inj.mp (by
          rw [UInt32.toNat_ofNat', Nat.mod_eq_of_lt hi, hsame]))
      rw [if_neg fun hboth => hindex hboth.2, Function.update_of_ne hne, storedValue,
        if_pos ⟨h.small, hi⟩]
  · have hne : i ≠ saved.index.toNat := by
      intro hsame
      exact hi (hsame ▸ saved.index.toNat_lt)
    rw [storedValue, if_neg fun hboth => hi hboth.2, Function.update_of_ne hne, storedValue,
      if_neg fun hboth => hi hboth.2]

/-- A backup changes no other operator. -/
theorem Backup.storedValue_of_ne (h : config.Backup id saved r) (requests : List BackupItem)
    {id' : OpId} (hne : id' ≠ id) :
    config.storedValue (requests ++ [r]) id' = config.storedValue requests id' := by
  funext i
  by_cases hsmall : id'.Small ∧ i < 2 ^ 32
  · rw [storedValue, if_pos hsmall, h.storedItem requests hsmall.1,
      if_neg fun hboth => hne hboth.1.symm, storedValue, if_pos hsmall]
  · rw [storedValue, if_neg hsmall, storedValue, if_neg hsmall]

/-! ## `RecoverOps` -/

omit [∀ id, Zero (V id)] in
/-- An item carries the backup of one element only. -/
theorem Backup.unique (h : config.Backup id saved r) {id' : OpId} {saved' : Saved (V id')}
    {r' : BackupItem} (h' : config.Backup id' saved' r') {slot : BackupItem}
    (hslot : slot.Carries r) (hslot' : slot.Carries r') :
    (⟨id, saved⟩ : Σ id, Saved (V id)) = ⟨id', saved'⟩ := by
  have hhead : id.workerId = id'.workerId ∧ id.saveId saved.index = id'.saveId saved'.index := by
    rw [← h.workerId_eq, ← h'.workerId_eq, ← h.saveId_eq, ← h'.saveId_eq, BackupItem.saveId,
      BackupItem.saveId, ← hslot.info_eq, ← hslot'.info_eq, ← hslot.key_eq, ← hslot'.key_eq]
    exact ⟨rfl, rfl⟩
  obtain ⟨rfl, -⟩ := (h.small.inj h'.small).mp hhead
  rw [← h.unpack hslot, h'.unpack hslot']

omit [∀ id, Zero (V id)] in
theorem Backup.slot_saveId (h : config.Backup id saved r) {slot : BackupItem}
    (hslot : slot.Carries r) : slot.saveId = id.saveId saved.index := by
  rw [← h.saveId_eq, BackupItem.saveId, BackupItem.saveId, hslot.info_eq, hslot.key_eq]

/-- The operators after some items have been recovered. -/
structure Restored (config : Config V) (worker : ℕ) (start ops : ∀ id, NumericArray (V id))
    (slots : List BackupItem) : Prop where
  length_eq : ∀ id, (ops id).length = (start id).length
  written : ∀ slot ∈ slots, ∀ id saved r, config.Backup id saved r → slot.Carries r →
    (ops id).backupArray saved.index.toNat = saved.value
  kept : ∀ id i, (∀ slot ∈ slots, ∀ saved r, config.Backup id saved r → slot.Carries r →
    saved.index.toNat ≠ i) → (ops id).backupArray i = (start id).backupArray i
  same : ∀ id, (start id).array = (start id).backupArray → (ops id).array = (ops id).backupArray
  others : ∀ id, id.worker ≠ worker → ops id = start id

omit [∀ id, Zero (V id)] in
/-- One iteration of `RecoverOps`: the value goes to its element. -/
theorem Backup.recoverOp (h : config.Backup id saved r) {slot : BackupItem}
    (hslot : slot.Carries r) {ops : ∀ id, NumericArray (V id)}
    (hlength : (ops id).length = config.length id) :
    ∃ op, config.recoverOp id.worker ops slot = some (Function.update ops id op) ∧
      op.length = (ops id).length ∧
      op.array = Function.update (ops id).array saved.index.toNat saved.value ∧
      op.backupArray = Function.update (ops id).backupArray saved.index.toNat saved.value := by
  have hworker : slot.info.workerId.toNat = id.worker := by
    rw [hslot.info_eq, h.workerId_eq, h.small.toNat_workerId]
  obtain ⟨hthread, hrest⟩ := Prod.mk.inj (h.slot_saveId hslot)
  obtain ⟨hop, -⟩ := Prod.mk.inj hrest
  have hid : (⟨id.worker, slot.info.threadId.toNat, slot.info.opIndex.toNat⟩ : OpId) = id := by
    rw [hthread, hop, OpId.toNat_ofNat_lt h.small.thread_lt, OpId.toNat_ofNat_lt h.small.op_lt]
  have hindex : saved.index.toNat < (ops id).length := hlength ▸ h.index_lt
  obtain ⟨op, hrecover⟩ := NumericArray.exists_recoveryState hindex
  obtain ⟨-, hlength', harray, hbackup⟩ := NumericArray.recoveryState_eq_some hrecover
  refine ⟨op, ?_, hlength', harray, hbackup⟩
  simp only [Config.recoverOp, hworker]
  rw [hid, if_pos ⟨trivial, h.registered⟩, h.unpack hslot, hrecover]
  rfl

/-- A slot of the reply to a worker. -/
def RestoresTo (config : Config V) (worker : ℕ) (slot : BackupItem) : Prop :=
  ∃ id saved r, id.worker = worker ∧ config.Backup id saved r ∧ slot.Carries r

omit [∀ id, Zero (V id)] in
/-- One more slot. -/
theorem Restored.concat {worker : ℕ} {start ops : ∀ id, NumericArray (V id)}
    {slots : List BackupItem} {slot : BackupItem} (h : config.Restored worker start ops slots)
    (hnew : slot.saveId ∉ slots.map BackupItem.saveId)
    (hworker : id.worker = worker) (hbackup : config.Backup id saved r)
    (hslot : slot.Carries r) {op : NumericArray (V id)} (hlength : op.length = (ops id).length)
    (harray : op.array = Function.update (ops id).array saved.index.toNat saved.value)
    (hcopy : op.backupArray =
      Function.update (ops id).backupArray saved.index.toNat saved.value) :
    config.Restored worker start (Function.update ops id op) (slots ++ [slot]) := by
  constructor
  · intro id'
    by_cases hid : id' = id
    · subst hid
      rw [Function.update_self, hlength, h.length_eq]
    · rw [Function.update_of_ne hid, h.length_eq]
  · intro slot' hmem id' saved' r' hbackup' hslot'
    rcases List.mem_append.mp hmem with hold | hlast
    · have hne : slot'.saveId ≠ slot.saveId := by
        intro hsame
        exact hnew (hsame ▸ List.mem_map_of_mem hold)
      by_cases hid : id' = id
      · subst hid
        have hindex : saved'.index.toNat ≠ saved.index.toNat := by
          intro hsame
          apply hne
          rw [hbackup.slot_saveId hslot, hbackup'.slot_saveId hslot', index_injective hsame]
        rw [Function.update_self, hcopy, Function.update_of_ne hindex]
        exact h.written slot' hold _ saved' r' hbackup' hslot'
      · rw [Function.update_of_ne hid]
        exact h.written slot' hold _ saved' r' hbackup' hslot'
    · obtain rfl := List.mem_singleton.mp hlast
      cases hbackup.unique hbackup' hslot hslot'
      rw [Function.update_self, hcopy, Function.update_self]
  · intro id' i hi
    have hkept := h.kept id' i fun slot' hmem =>
      hi slot' (List.mem_append_left [slot] hmem)
    by_cases hid : id' = id
    · subst hid
      have hindex := hi slot (List.mem_append_right slots List.mem_cons_self) saved r hbackup hslot
      rw [Function.update_self, hcopy, Function.update_of_ne hindex.symm, hkept]
    · rw [Function.update_of_ne hid, hkept]
  · intro id' hsame
    by_cases hid : id' = id
    · subst hid
      rw [Function.update_self, harray, hcopy, h.same id' hsame]
    · rw [Function.update_of_ne hid, h.same id' hsame]
  · intro id' hother
    have hid : id' ≠ id := by
      rintro rfl
      exact hother hworker
    rw [Function.update_of_ne hid, h.others id' hother]

omit [∀ id, Zero (V id)] in
/-- `RecoverOps` on slots with distinct ids. -/
theorem foldlM_recoverOp {worker : ℕ} {start : ∀ id, NumericArray (V id)}
    (hlength : ∀ id, id.worker = worker → (start id).length = config.length id)
    {slots : List BackupItem} (hnodup : (slots.map BackupItem.saveId).Nodup)
    (hslots : ∀ slot ∈ slots, config.RestoresTo worker slot) :
    ∃ ops, slots.foldlM (config.recoverOp worker) start = some ops ∧
      config.Restored worker start ops slots := by
  induction slots using List.reverseRecOn with
  | nil =>
      refine ⟨start, rfl, fun _ => rfl, ?_, fun _ _ _ => rfl, fun _ => id, fun _ _ => rfl⟩
      intro slot hslot
      cases hslot
  | append_singleton slots slot ih =>
      rw [List.map_append, List.nodup_append] at hnodup
      obtain ⟨hold, -, hdisjoint⟩ := hnodup
      obtain ⟨ops, hfold, hrestored⟩ :=
        ih hold fun slot' hmem => hslots slot' (List.mem_append_left _ hmem)
      obtain ⟨id, saved, r, rfl, hbackup, hslot⟩ :=
        hslots slot (List.mem_append_right _ List.mem_cons_self)
      have hlength' : (ops id).length = config.length id := by
        rw [hrestored.length_eq, hlength id rfl]
      obtain ⟨op, hrecover, hop, harray, hcopy⟩ := hbackup.recoverOp hslot hlength'
      refine ⟨Function.update ops id op, ?_, hrestored.concat ?_ rfl hbackup hslot hop harray hcopy⟩
      · rw [List.foldlM_append, hfold]
        simpa using hrecover
      · intro hmem
        exact hdisjoint _ hmem _ (List.mem_singleton.mpr rfl) rfl

theorem foldlM_range_getElem? {T S : Type*} (l : List T) (f : S → T → Option S) (start : S) :
    (List.range l.length).foldlM (fun s i => l[i]?.bind (f s)) start = l.foldlM f start := by
  induction l generalizing start with
  | nil => rfl
  | cons a rest ih =>
      rw [List.length_cons, List.range_succ_eq_map, List.foldlM_cons, List.foldlM_cons]
      simp only [List.foldlM_map]
      exact bind_congr fun next => ih next

/-- The arrays of new operators after the recovery of a worker. -/
theorem Restored.eq_storedValue {start ops : ∀ id, NumericArray (V id)}
    {slots requests : List BackupItem} {worker : ℕ}
    (h : config.Restored worker start ops slots)
    (hstart : (start id).backupArray = fun _ => 0)
    (hlast : BackupServer.LastSaves requests id.workerId slots)
    (hsaves : ∀ r ∈ requests, r.IsSave → ∃ id saved, config.Backup id saved r) :
    (ops id).backupArray = config.storedValue requests id := by
  have hzero : ∀ i, (∀ slot ∈ slots, ∀ saved r, config.Backup id saved r → slot.Carries r →
      saved.index.toNat ≠ i) → (ops id).backupArray i = 0 := by
    intro i hi
    rw [h.kept id i hi, hstart]
  funext i
  by_cases hrange : id.Small ∧ i < 2 ^ 32
  · rw [storedValue, if_pos hrange]
    have hcast : (UInt32.ofNat i).toNat = i := by
      rw [UInt32.toNat_ofNat', Nat.mod_eq_of_lt hrange.2]
    cases hitem : storedItem requests id (UInt32.ofNat i) with
    | none =>
        apply hzero
        intro slot hslot saved r hbackup hcarries hindex
        have hmem : slot.saveId ∈ BackupServer.savedIds requests id.workerId :=
          (hlast.complete _).mp (List.mem_map_of_mem hslot)
        obtain ⟨r', hr'⟩ := BackupServer.mem_savedIds.mp hmem
        rw [hbackup.slot_saveId hcarries,
          index_injective (hindex.trans hcast.symm), ← storedItem, hitem] at hr'
        cases hr'
    | some r =>
        obtain ⟨hmem, hid⟩ := BackupServer.lastSave_eq_some hitem
        rw [BackupServer.saves, List.mem_filter, decide_eq_true_eq] at hmem
        obtain ⟨id', saved, hbackup⟩ := hsaves r hmem.1 hmem.2.1
        rw [hbackup.saveId_eq] at hid
        obtain ⟨rfl, hindex⟩ := (hbackup.small.inj hrange.1).mp
          ⟨hbackup.workerId_eq.symm.trans hmem.2.2, hid⟩
        have hsaved := BackupServer.mem_savedIds.mpr ⟨r, hitem⟩
        obtain ⟨slot, hslot, hslotId⟩ := List.mem_map.mp ((hlast.complete _).mpr hsaved)
        obtain ⟨-, save, hsave, hcarries⟩ := hlast.carries slot hslot
        rw [hslotId, ← storedItem, hitem] at hsave
        obtain rfl := Option.some.inj hsave
        have hwritten := h.written slot hslot _ saved r hbackup hcarries
        rw [hindex, hcast] at hwritten
        rw [hwritten, Option.elim_some,
          hbackup.unpack (.refl (hbackup.valid.save hbackup.isSave.1).2)]
  · rw [storedValue, if_neg hrange]
    apply hzero
    intro slot hslot saved r hbackup hcarries hindex
    exact hrange ⟨hbackup.small, hindex ▸ saved.index.toNat_lt⟩

end Config

namespace Cluster

variable {V : OpId → Type u}

/-! ## The server of a cluster -/

/-- The server against the requests that the cluster has made. -/
structure Stored (config : Config V) (s : Cluster V) : Prop where
  server : s.server.Inv s.served
  valid : ∀ r ∈ s.served, r.ValidRequest
  saves : ∀ r ∈ s.served, r.IsSave → ∃ id saved, config.Backup id saved r
  replies : ∀ worker, BackupServer.replySize s.served worker < 2 ^ 31

variable {garbage : ℕ → BackupItem} {numSender : ℕ} {config : Config V} {s s' : Cluster V}

theorem Stored.accepted (h : s.Stored config) : BackupServer.Accepted s.served :=
  BackupServer.accepted_of_replies h.valid h.replies

theorem Stored.of_eq (h : s.Stored config) (hserver : s'.server = s.server)
    (hserved : s'.served = s.served) : s'.Stored config := by
  constructor
  · rw [hserver, hserved]
    exact h.server
  · rw [hserved]
    exact h.valid
  · rw [hserved]
    exact h.saves
  · rw [hserved]
    exact h.replies

theorem forall_mem_concat {T : Type*} {p : T → Prop} {l : List T} {a : T} (hl : ∀ b ∈ l, p b)
    (ha : p a) : ∀ b ∈ l ++ [a], p b := by
  intro b hb
  rcases List.mem_append.mp hb with hb | hb
  · exact hl b hb
  · exact List.mem_singleton.mp hb ▸ ha

/-- One more request. -/
theorem Stored.concat (h : s.Stored config) {r : BackupItem} {reply : Reply}
    {server : BackupServer}
    (hhandle : s.server.handle garbage numSender r = some (reply, server))
    (hvalid : r.ValidRequest) (hsave : r.IsSave → ∃ id saved, config.Backup id saved r)
    (hreplies : ∀ worker, BackupServer.replySize (s.served ++ [r]) worker < 2 ^ 31)
    (hserver : s'.server = server) (hserved : s'.served = s.served ++ [r]) :
    s'.Stored config := by
  have hvalid' := forall_mem_concat h.valid hvalid
  constructor
  · rw [hserver, hserved]
    exact h.server.handle (BackupServer.accepted_of_replies hvalid' hreplies) hhandle
  · rwa [hserved]
  · rw [hserved]
    exact forall_mem_concat h.saves hsave
  · rwa [hserved]

/-- One more backup of an operator. -/
theorem Stored.save (h : s.Stored config) {id : OpId} {saved : Saved (V id)} {r : BackupItem}
    (hbackup : config.Backup id saved r)
    (hsize : BackupServer.replySize (s.served ++ [r]) id.workerId < 2 ^ 31) {reply : Reply}
    {server : BackupServer} (hhandle : s.server.handle garbage numSender r = some (reply, server))
    (hserver : s'.server = server) (hserved : s'.served = s.served ++ [r]) :
    s'.Stored config := by
  refine h.concat hhandle hbackup.valid (fun _ => ⟨id, saved, hbackup⟩) ?_ hserver hserved
  intro worker
  by_cases hsame : worker = id.workerId
  · rw [hsame]
    exact hsize
  · rw [BackupServer.replySize, hbackup.savedIds_concat_of_ne s.served hsame]
    exact h.replies worker

/-! ## Questions of a worker -/

/-- A question leaves what is stored as it is. -/
theorem Stored.ask (h : s.Stored config) {op : UInt32} (hop : op ≠ 0) (hle : op.toNat ≤ 2)
    {worker : ℕ} (hworker : worker < 2 ^ 16) {reply : Reply} {server : BackupServer}
    (hhandle : s.server.handle garbage numSender (askItem (garbage 0) op worker) =
      some (reply, server))
    (hserver : s'.server = server)
    (hserved : s'.served = s.served ++ [askItem (garbage 0) op worker]) :
    s'.Stored config := by
  have hask := not_isSave_askItem (garbage 0) hop worker
  refine h.concat hhandle (valid_askItem (garbage 0) hop hle hworker)
    (fun hsave => absurd hsave hask) ?_ hserver hserved
  intro worker'
  rw [BackupServer.replySize, BackupServer.savedIds_concat_of_not_save s.served hask,
    ← BackupServer.replySize]
  exact h.replies worker'

/-- The state after the count request of a worker. -/
structure Counted (garbage : ℕ → BackupItem) (config : Config V) (worker : ℕ)
    (s s' : Cluster V) : Prop where
  stored : s'.Stored config
  live_eq : s'.live = s.live
  outstanding_eq : s'.outstanding = s.outstanding
  inFlight_eq : s'.inFlight = s.inFlight
  served_eq : s'.served = s.served ++ [askItem (garbage 0) 1 worker]
  phase_eq : s'.phase = Function.update s.phase worker
    (.counted (BackupServer.savedIds s'.served (UInt32.ofNat worker)).card)

variable (garbage numSender) in
theorem Stored.askCount (h : s.Stored config) {worker : ℕ} (hworker : worker < 2 ^ 16) :
    ∃ s', s.askCount garbage numSender worker = some s' ∧ Counted garbage config worker s s' := by
  have hask := not_isSave_askItem (garbage 0) (show (1 : UInt32) ≠ 0 by decide) worker
  obtain ⟨server, hhandle⟩ := h.server.handle_count garbage numSender h.accepted
    (toNat_workerId hworker) (show (askItem (garbage 0) 1 worker).info.backupOp = 1 from rfl) rfl
  refine ⟨{ s with
      server := server
      served := s.served ++ [askItem (garbage 0) 1 worker]
      phase := Function.update s.phase worker
        (.counted (BackupServer.savedIds s.served (UInt32.ofNat worker)).card) }, ?_,
    h.ask (by decide) (by decide) hworker hhandle rfl rfl, rfl, rfl, rfl, rfl, ?_⟩
  · simp only [Cluster.askCount, Cluster.request, hhandle, Option.map_some, Option.bind_some]
  · rw [BackupServer.savedIds_concat_of_not_save s.served hask]

/-- The slots of a reply restore operators of the worker. -/
theorem Stored.restoresTo (h : s.Stored config) {worker : ℕ} (hworker : worker < 2 ^ 16)
    {slots : List BackupItem}
    (hlast : BackupServer.LastSaves s.served (UInt32.ofNat worker) slots) :
    ∀ slot ∈ slots, config.RestoresTo worker slot := by
  intro slot hslot
  obtain ⟨-, save, hsave, hcarries⟩ := hlast.carries slot hslot
  have hmem := (BackupServer.lastSave_eq_some hsave).1
  rw [BackupServer.saves, List.mem_filter, decide_eq_true_eq] at hmem
  obtain ⟨id, saved, hbackup⟩ := h.saves save hmem.1 hmem.2.1
  refine ⟨id, saved, save, ?_, hbackup, hcarries⟩
  rw [← hbackup.small.toNat_workerId, ← hbackup.workerId_eq, hmem.2.2, UInt32.toNat_ofNat',
    Nat.mod_eq_of_lt (hworker.trans (by decide))]

variable [∀ id, Zero (V id)]

/-- The state after the data request of a worker and the recovery of its operators. -/
structure Replaced (garbage : ℕ → BackupItem) (config : Config V) (worker : ℕ)
    (s s' : Cluster V) : Prop where
  stored : s'.Stored config
  outstanding_eq : s'.outstanding = s.outstanding
  inFlight_eq : s'.inFlight = s.inFlight
  served_eq : s'.served = s.served ++ [askItem (garbage 0) 2 worker]
  phase_eq : s'.phase = Function.update s.phase worker .running
  length_eq : ∀ id, id.worker = worker → (s'.live id).length = config.length id
  array_eq : ∀ id, id.worker = worker → (s'.live id).array = (s'.live id).backupArray
  backup_eq : ∀ id, id.worker = worker →
    (s'.live id).backupArray = config.storedValue s.served id
  others : ∀ id, id.worker ≠ worker → s'.live id = s.live id

variable (garbage numSender) in
/-- The recovery of a worker succeeds, and new operators hold what is stored. -/
theorem Stored.askData (h : s.Stored config) {worker : ℕ} (hworker : worker < 2 ^ 16) {count : ℕ}
    (hcount : count = (BackupServer.savedIds s.served (UInt32.ofNat worker)).card) :
    ∃ s', s.askData garbage numSender config worker count = some s' ∧
      Replaced garbage config worker s s' := by
  obtain ⟨reply, hreply, hlast, hhandle⟩ := h.server.handle_data garbage numSender h.accepted
    (toNat_workerId hworker) (show (askItem (garbage 0) 2 worker).info.backupOp = 2 from rfl) rfl
  have hlength := BackupServer.length_lastSaves hlast
  have hsize := h.replies (UInt32.ofNat worker)
  rw [if_pos hsize] at hhandle
  rw [BackupServer.replySize, ← hlength] at hsize
  have hfresh : ∀ id : OpId, id.worker = worker →
      s.freshOps config worker id = .create (config.kind id) (config.length id) :=
    fun id hid => if_pos hid
  obtain ⟨ops, hfold, hrestored⟩ := Config.foldlM_recoverOp
    (fun id hid => (congrArg NumericArray.length (hfresh id hid)).trans
      (NumericArray.length_create _ _)) hlast.nodup (h.restoresTo hworker hlast)
  have hrecover : config.recoverOps worker (s.freshOps config worker)
      (receiveData count reply) = some ops := by
    rw [hcount, ← hlength, receiveData_eq hsize, Config.recoverOps, hreply, ← hlength,
      Config.foldlM_range_getElem?, hfold]
  refine ⟨{ s with
      server := s.server.receive (askItem (garbage 0) 2 worker)
      served := s.served ++ [askItem (garbage 0) 2 worker]
      live := ops
      phase := Function.update s.phase worker .running }, ?_, ?_⟩
  · simp only [Cluster.askData, Cluster.request, hhandle, Option.map_some, Option.bind_some]
    change (config.recoverOps worker (s.freshOps config worker) _).map _ = _
    rw [hrecover]
    rfl
  · constructor
    · exact h.ask (by decide) (by decide) hworker hhandle rfl rfl
    · rfl
    · rfl
    · rfl
    · rfl
    · intro id hid
      change (ops id).length = _
      rw [hrestored.length_eq, hfresh id hid, NumericArray.length_create]
    · intro id hid
      apply hrestored.same
      rw [hfresh id hid, NumericArray.array_create, NumericArray.backupArray_create]
    · intro id hid
      apply hrestored.eq_storedValue
      · rw [hfresh id hid, NumericArray.backupArray_create]
      · rw [OpId.workerId, hid]
        exact hlast
      · exact h.saves
    · intro id hid
      change ops id = s.live id
      rw [hrestored.others id hid]
      exact if_neg hid

/-! ## What holds in every state -/

/-- What the server will have got when a thread has no request left. -/
def history (s : Cluster V) (id : OpId) : List BackupItem :=
  s.served ++ (s.outstanding id.worker id.thread).toList

/-- The invariant of a cluster whose runs stay in range. -/
structure Inv (config : Config V) (s : Cluster V) : Prop where
  stored : s.Stored config
  lengths : ∀ id, (s.live id).length = config.length id
  waiting : ∀ worker thread item, s.outstanding worker thread = some item →
    ∃ id saved, id.worker = worker ∧ id.thread = thread ∧ config.Backup id saved item
  late : ∀ item ∈ s.inFlight, ∃ id saved, config.Backup id saved item
  small : ∀ worker, s.phase worker ≠ .running → worker < 2 ^ 16
  counted : ∀ worker count, s.phase worker = .counted count →
    count = (BackupServer.savedIds s.served (UInt32.ofNat worker)).card
  quiet : ∀ worker thread, s.phase worker ≠ .running → s.outstanding worker thread = none
  mirror : ∀ id, s.phase id.worker = .running →
    (s.live id).backupArray = config.storedValue (s.history id) id

theorem replySize_nil (worker : UInt32) : BackupServer.replySize [] worker = 4 := rfl

variable (garbage numSender config) in
theorem Inv.init [∀ id, Add (V id)] [∀ id, Sub (V id)] [∀ id, Neg (V id)] [∀ id, Mul (V id)]
    [∀ id, LT (V id)] [∀ id, DecidableLT (V id)] :
    (machine garbage numSender config).init.Inv config where
  stored :=
    { server := BackupServer.create_inv
      valid := by
        intro r hr
        cases hr
      saves := by
        intro r hr
        cases hr
      replies := by
        intro worker
        change BackupServer.replySize [] worker < 2 ^ 31
        rw [replySize_nil]
        decide }
  lengths := fun id => NumericArray.length_create _ _
  waiting := by
    intro worker thread item h
    cases h
  late := by
    intro item h
    cases h
  small := fun worker h => absurd rfl h
  counted := by
    intro worker count h
    cases h
  quiet := fun worker thread _ => rfl
  mirror := by
    intro id _
    change (NumericArray.create _ _).backupArray = config.storedValue [] id
    rw [NumericArray.backupArray_create]
    funext i
    rw [Config.storedValue]
    split_ifs
    · rfl
    · rfl

/-- A further request of another operator, or none. -/
theorem storedValue_history_congr {requests requests' : List BackupItem} {id : OpId}
    {waiting : Option BackupItem}
    (hwaiting : ∀ item, waiting = some item → ∃ id saved, config.Backup id saved item)
    (hsame : config.storedValue requests id = config.storedValue requests' id) :
    config.storedValue (requests ++ waiting.toList) id =
      config.storedValue (requests' ++ waiting.toList) id := by
  cases waiting with
  | none => simpa using hsame
  | some item =>
      obtain ⟨id', saved, hbackup⟩ := hwaiting item rfl
      rw [Option.toList_some]
      by_cases hid : id = id'
      · subst hid
        rw [hbackup.storedValue_self, hbackup.storedValue_self, hsame]
      · rw [hbackup.storedValue_of_ne _ hid, hbackup.storedValue_of_ne _ hid, hsame]

theorem Inv.waiting_backup (h : s.Inv config) (worker thread : ℕ) :
    ∀ item, s.outstanding worker thread = some item → ∃ id saved, config.Backup id saved item := by
  intro item hitem
  obtain ⟨id, saved, -, -, hbackup⟩ := h.waiting worker thread item hitem
  exact ⟨id, saved, hbackup⟩

/-- The live arrays of running workers after a question. -/
theorem Inv.history_ask (h : s.Inv config) {r : BackupItem} (hr : ¬ r.IsSave)
    (houtstanding : s'.outstanding = s.outstanding) (hserved : s'.served = s.served ++ [r])
    (id : OpId) : config.storedValue (s'.history id) id = config.storedValue (s.history id) id := by
  rw [history, history, houtstanding, hserved]
  exact storedValue_history_congr (h.waiting_backup _ _) (Config.storedValue_of_not_save hr id)

/-! ## Every step keeps the invariant -/

/-- A worker stops; what it has sent is still a backup of one of its operators. -/
theorem Inv.crash (h : s.Inv config) {worker : ℕ} (hworker : worker < 2 ^ 16) {sent : Option ℕ}
    (hlive : s'.live = s.live) (hserver : s'.server = s.server) (hserved : s'.served = s.served)
    (hphase : s'.phase = Function.update s.phase worker .crashed)
    (houtstanding : s'.outstanding = Function.update s.outstanding worker fun _ => none)
    (hinFlight : s'.inFlight = s.inFlight ++ (sent.bind (s.outstanding worker)).toList) :
    s'.Inv config := by
  have hcrashed : s'.phase worker = .crashed := by rw [hphase, Function.update_self]
  have hothers : ∀ worker', worker' ≠ worker → s'.phase worker' = s.phase worker' ∧
      s'.outstanding worker' = s.outstanding worker' := by
    intro worker' hne
    rw [hphase, houtstanding, Function.update_of_ne hne, Function.update_of_ne hne]
    exact ⟨rfl, rfl⟩
  have hdropped : ∀ thread, s'.outstanding worker thread = none := by
    intro thread
    rw [houtstanding, Function.update_self]
  constructor
  · exact h.stored.of_eq hserver hserved
  · rw [hlive]
    exact h.lengths
  · intro worker' thread item hitem
    by_cases hsame : worker' = worker
    · rw [hsame, hdropped] at hitem
      cases hitem
    · rw [(hothers worker' hsame).2] at hitem
      exact h.waiting worker' thread item hitem
  · rw [hinFlight]
    intro item hitem
    rcases List.mem_append.mp hitem with hold | hnew
    · exact h.late item hold
    · obtain ⟨thread, -, hsent⟩ := Option.bind_eq_some_iff.mp (Option.mem_toList.mp hnew)
      exact h.waiting_backup worker thread item hsent
  · intro worker' hphase'
    by_cases hsame : worker' = worker
    · exact hsame ▸ hworker
    · rw [(hothers worker' hsame).1] at hphase'
      exact h.small worker' hphase'
  · intro worker' count hphase'
    by_cases hsame : worker' = worker
    · rw [hsame, hcrashed] at hphase'
      cases hphase'
    · rw [(hothers worker' hsame).1] at hphase'
      rw [hserved]
      exact h.counted worker' count hphase'
  · intro worker' thread hphase'
    by_cases hsame : worker' = worker
    · rw [hsame, hdropped]
    · rw [(hothers worker' hsame).1] at hphase'
      rw [(hothers worker' hsame).2]
      exact h.quiet worker' thread hphase'
  · intro id hphase'
    have hne : id.worker ≠ worker := by
      intro hsame
      rw [hsame, hcrashed] at hphase'
      cases hphase'
    rw [(hothers _ hne).1] at hphase'
    rw [hlive, history, hserved, (hothers _ hne).2]
    exact h.mirror id hphase'

theorem Inv.askCount (h : s.Inv config) {worker : ℕ} (hphase : s.phase worker = .crashed)
    (hcounted : Counted garbage config worker s s') : s'.Inv config := by
  have hask := not_isSave_askItem (garbage 0) (show (1 : UInt32) ≠ 0 by decide) worker
  have hrunning : s.phase worker ≠ .running := by
    rw [hphase]
    exact WorkerPhase.noConfusion
  constructor
  · exact hcounted.stored
  · rw [hcounted.live_eq]
    exact h.lengths
  · rw [hcounted.outstanding_eq]
    exact h.waiting
  · rw [hcounted.inFlight_eq]
    exact h.late
  · intro worker' hphase'
    by_cases hsame : worker' = worker
    · exact hsame ▸ h.small worker hrunning
    · rw [hcounted.phase_eq, Function.update_of_ne hsame] at hphase'
      exact h.small worker' hphase'
  · intro worker' count hphase'
    by_cases hsame : worker' = worker
    · subst hsame
      rw [hcounted.phase_eq, Function.update_self] at hphase'
      exact (WorkerPhase.counted.inj hphase').symm
    · rw [hcounted.phase_eq, Function.update_of_ne hsame] at hphase'
      rw [hcounted.served_eq, BackupServer.savedIds_concat_of_not_save s.served hask]
      exact h.counted worker' count hphase'
  · intro worker' thread hphase'
    rw [hcounted.outstanding_eq]
    by_cases hsame : worker' = worker
    · exact hsame ▸ h.quiet worker thread hrunning
    · rw [hcounted.phase_eq, Function.update_of_ne hsame] at hphase'
      exact h.quiet worker' thread hphase'
  · intro id hphase'
    rw [hcounted.live_eq, h.history_ask hask hcounted.outstanding_eq hcounted.served_eq]
    apply h.mirror
    rw [hcounted.phase_eq] at hphase'
    by_cases hsame : id.worker = worker
    · rw [hsame, Function.update_self] at hphase'
      cases hphase'
    · rwa [Function.update_of_ne hsame] at hphase'

theorem Inv.askData (h : s.Inv config) {worker : ℕ} (hphase : s.phase worker ≠ .running)
    (hreplaced : Replaced garbage config worker s s') : s'.Inv config := by
  have hask := not_isSave_askItem (garbage 0) (show (2 : UInt32) ≠ 0 by decide) worker
  have hrunning : s'.phase worker = .running := by
    rw [hreplaced.phase_eq, Function.update_self]
  have hothers : ∀ worker', worker' ≠ worker → s'.phase worker' = s.phase worker' := by
    intro worker' hne
    rw [hreplaced.phase_eq, Function.update_of_ne hne]
  constructor
  · exact hreplaced.stored
  · intro id
    by_cases hsame : id.worker = worker
    · exact hreplaced.length_eq id hsame
    · rw [hreplaced.others id hsame]
      exact h.lengths id
  · rw [hreplaced.outstanding_eq]
    exact h.waiting
  · rw [hreplaced.inFlight_eq]
    exact h.late
  · intro worker' hphase'
    have hne : worker' ≠ worker := fun hsame => hphase' (hsame ▸ hrunning)
    exact h.small worker' (hothers worker' hne ▸ hphase')
  · intro worker' count hphase'
    have hne : worker' ≠ worker := by
      rintro rfl
      rw [hrunning] at hphase'
      cases hphase'
    rw [hreplaced.served_eq, BackupServer.savedIds_concat_of_not_save s.served hask]
    exact h.counted worker' count (hothers worker' hne ▸ hphase')
  · intro worker' thread hphase'
    have hne : worker' ≠ worker := fun hsame => hphase' (hsame ▸ hrunning)
    rw [hreplaced.outstanding_eq]
    exact h.quiet worker' thread (hothers worker' hne ▸ hphase')
  · intro id hphase'
    rw [h.history_ask hask hreplaced.outstanding_eq hreplaced.served_eq]
    by_cases hsame : id.worker = worker
    · rw [hreplaced.backup_eq id hsame, history, hsame, h.quiet worker id.thread hphase,
        Option.toList_none, List.append_nil]
    · rw [hreplaced.others id hsame]
      exact h.mirror id (hothers _ hsame ▸ hphase')

/-- Another entry of a table of requests. -/
theorem outstanding_update_of_ne {worker thread worker' thread' : ℕ}
    (outstanding : ℕ → ℕ → Option BackupItem) (item : Option BackupItem)
    (hne : (worker', thread') ≠ (worker, thread)) :
    Function.update outstanding worker (Function.update (outstanding worker) thread item)
      worker' thread' = outstanding worker' thread' := by
  by_cases hworker : worker' = worker
  · subst hworker
    have hthread : thread' ≠ thread := fun hthread => hne (by rw [hthread])
    rw [Function.update_self, Function.update_of_ne hthread]
  · rw [Function.update_of_ne hworker]

/-- A worker that is down counts its own saves only. -/
theorem Inv.savedIds_concat_of_ne (h : s.Inv config) {id : OpId} {saved : Saved (V id)}
    {item : BackupItem} (hbackup : config.Backup id saved item) {worker : ℕ}
    (hdown : s.phase worker ≠ .running) (hne : worker ≠ id.worker) :
    BackupServer.savedIds (s.served ++ [item]) (UInt32.ofNat worker) =
      BackupServer.savedIds s.served (UInt32.ofNat worker) := by
  apply hbackup.savedIds_concat_of_ne
  intro hsame
  have hnat := congrArg UInt32.toNat hsame
  rw [hbackup.small.toNat_workerId, UInt32.toNat_ofNat',
    Nat.mod_eq_of_lt ((h.small worker hdown).trans (by decide))] at hnat
  exact hne hnat

/-- A waiting request is served. -/
theorem Inv.deliver (h : s.Inv config) {worker thread : ℕ} {item : BackupItem}
    (hitem : s.outstanding worker thread = some item)
    (hsize : BackupServer.replySize (s.served ++ [item]) (UInt32.ofNat worker) < 2 ^ 31)
    {reply : Reply} (hhandle : s.server.handle garbage numSender item = some (reply, s'.server))
    (hlive : s'.live = s.live) (hphase : s'.phase = s.phase)
    (hserved : s'.served = s.served ++ [item])
    (houtstanding : s'.outstanding = Function.update s.outstanding worker
      (Function.update (s.outstanding worker) thread none))
    (hinFlight : s'.inFlight = s.inFlight) : s'.Inv config := by
  obtain ⟨id, saved, rfl, rfl, hbackup⟩ := h.waiting worker thread item hitem
  have hrunning : s.phase id.worker = .running := by
    by_contra hphase
    rw [h.quiet _ _ hphase] at hitem
    cases hitem
  -- the requests of the other threads are still waiting
  have hothers : ∀ worker' thread', (worker', thread') ≠ (id.worker, id.thread) →
      s'.outstanding worker' thread' = s.outstanding worker' thread' := by
    intro worker' thread' hne
    rw [houtstanding, outstanding_update_of_ne _ _ hne]
  have hdone : s'.outstanding id.worker id.thread = none := by
    rw [houtstanding, Function.update_self, Function.update_self]
  constructor
  · exact h.stored.save hbackup hsize hhandle rfl hserved
  · rw [hlive]
    exact h.lengths
  · intro worker' thread' item' hitem'
    by_cases hsame : (worker', thread') = (id.worker, id.thread)
    · cases hsame
      rw [hdone] at hitem'
      cases hitem'
    · rw [hothers worker' thread' hsame] at hitem'
      exact h.waiting worker' thread' item' hitem'
  · rw [hinFlight]
    exact h.late
  · rw [hphase]
    exact h.small
  · rw [hphase, hserved]
    intro worker' count hcount
    have hne : worker' ≠ id.worker := by
      rintro rfl
      rw [hrunning] at hcount
      cases hcount
    rw [h.savedIds_concat_of_ne hbackup (by rw [hcount]; exact WorkerPhase.noConfusion) hne]
    exact h.counted worker' count hcount
  · rw [hphase]
    intro worker' thread' hstopped
    have hne : (worker', thread') ≠ (id.worker, id.thread) := by
      intro hsame
      cases hsame
      exact hstopped hrunning
    rw [hothers worker' thread' hne]
    exact h.quiet worker' thread' hstopped
  · rw [hphase, hlive]
    intro id' hphase'
    rw [h.mirror id' hphase', history, history, hserved]
    by_cases hsame : (id'.worker, id'.thread) = (id.worker, id.thread)
    · obtain ⟨hworker, hthread⟩ := Prod.mk.inj hsame
      rw [hworker, hthread, hdone, hitem, Option.toList_none, List.append_nil, Option.toList_some]
    · rw [hothers _ _ hsame]
      refine storedValue_history_congr (h.waiting_backup _ _) (hbackup.storedValue_of_ne _ ?_).symm
      rintro rfl
      exact hsame rfl

/-- A request of a worker that is down is served. The operators of running workers do not
depend on it. -/
theorem Inv.deliverLate (h : s.Inv config) {position : ℕ} {item : BackupItem}
    (hitem : s.inFlight[position]? = some item) (htime : s.ServedInTime item)
    (hsize : BackupServer.replySize (s.served ++ [item]) item.info.workerId < 2 ^ 31)
    {reply : Reply} (hhandle : s.server.handle garbage numSender item = some (reply, s'.server))
    (hlive : s'.live = s.live) (hphase : s'.phase = s.phase)
    (hserved : s'.served = s.served ++ [item]) (houtstanding : s'.outstanding = s.outstanding)
    (hinFlight : s'.inFlight = s.inFlight.eraseIdx position) : s'.Inv config := by
  obtain ⟨id, saved, hbackup⟩ := h.late item (List.mem_of_getElem? hitem)
  have hworker : item.info.workerId.toNat = id.worker := by
    rw [hbackup.workerId_eq, hbackup.small.toNat_workerId]
  rw [ServedInTime, hworker] at htime
  have hdown : s.phase id.worker ≠ .running := by
    rcases htime with hcrashed | ⟨hdown, -⟩
    · rw [hcrashed]
      exact WorkerPhase.noConfusion
    · exact hdown
  constructor
  · exact h.stored.save hbackup (hbackup.workerId_eq ▸ hsize) hhandle rfl hserved
  · rw [hlive]
    exact h.lengths
  · rw [houtstanding]
    exact h.waiting
  · rw [hinFlight]
    exact fun item' hmem => h.late item' (List.mem_of_mem_eraseIdx hmem)
  · rw [hphase]
    exact h.small
  · rw [hphase, hserved]
    intro worker count hcount
    by_cases hsame : worker = id.worker
    · -- the worker has its count: the request is for an element that it has saved before
      subst hsame
      rcases htime with hcrashed | ⟨-, hmem⟩
      · rw [hcrashed] at hcount
        cases hcount
      · rw [hbackup.workerId_eq] at hmem
        have hsaved := BackupServer.savedIds_concat_of_mem item hmem
        rw [OpId.workerId] at hsaved
        rw [hsaved]
        exact h.counted id.worker count hcount
    · rw [h.savedIds_concat_of_ne hbackup (by rw [hcount]; exact WorkerPhase.noConfusion) hsame]
      exact h.counted worker count hcount
  · rw [hphase, houtstanding]
    exact h.quiet
  · rw [hphase, hlive]
    intro id' hrunning
    have hne : id' ≠ id := by
      rintro rfl
      exact hdown hrunning
    rw [h.mirror id' hrunning, history, history, hserved, houtstanding]
    exact storedValue_history_congr (h.waiting_backup _ _) (hbackup.storedValue_of_ne _ hne).symm

variable [∀ id, Add (V id)] [∀ id, Sub (V id)] [∀ id, Neg (V id)] [∀ id, Mul (V id)]
  [∀ id, LT (V id)] [∀ id, DecidableLT (V id)]

/-- An operator changes its array only. -/
theorem Inv.update (h : s.Inv config) {id : OpId} {update : Update (V id)}
    {op : NumericArray (V id)} (hop : (s.live id).updateValue update = some op) :
    Inv config { s with live := Function.update s.live id op } := by
  obtain ⟨-, hlength, -, hbackup⟩ := NumericArray.updateValue_eq_some hop
  refine ⟨h.stored.of_eq rfl rfl, ?_, h.waiting, h.late, h.small, h.counted, h.quiet, ?_⟩
  · intro id'
    by_cases hid : id' = id
    · subst hid
      simp only [Function.update_self, hlength, h.lengths]
    · simp only [Function.update_of_ne hid, h.lengths]
  · intro id' hphase
    have hmirror := h.mirror id' hphase
    by_cases hid : id' = id
    · subst hid
      simp only [Function.update_self, hbackup, hmirror]
      rfl
    · simp only [Function.update_of_ne hid, hmirror]
      rfl

omit [∀ id, Add (V id)] in
/-- A thread serializes one of its operators. -/
theorem Inv.serialize (h : s.Inv config) {id : OpId} (hidle : s.Idle id.worker id.thread)
    (hregistered : config.Registered id) (hsmall : id.thread < 2 ^ 16 ∧ id.op < 2 ^ 16)
    {saved : Saved (V id)} {op : NumericArray (V id)}
    (hop : (s.live id).serializeState = some (saved, op)) (seq : UInt64)
    (buffer : Block maxBackupItemDataLen) (hserver : s'.server = s.server)
    (hserved : s'.served = s.served) (hphase : s'.phase = s.phase)
    (hlive : s'.live = Function.update s.live id op)
    (houtstanding : s'.outstanding = Function.update s.outstanding id.worker
      (Function.update (s.outstanding id.worker) id.thread
        (some (config.backupItem id seq saved buffer))))
    (hinFlight : s'.inFlight = s.inFlight) : s'.Inv config := by
  obtain ⟨hindex, -, hlength, -, hcopy⟩ := NumericArray.serializeState_eq_some hop
  have hbackup : config.Backup id saved (config.backupItem id seq saved buffer) :=
    ⟨⟨hregistered.1, hsmall.1, hsmall.2⟩, hregistered, h.lengths id ▸ hindex, seq, buffer, rfl⟩
  have hothers : ∀ worker thread, (worker, thread) ≠ (id.worker, id.thread) →
      s'.outstanding worker thread = s.outstanding worker thread := by
    intro worker thread hne
    rw [houtstanding, outstanding_update_of_ne _ _ hne]
  have hnew : s'.outstanding id.worker id.thread =
      some (config.backupItem id seq saved buffer) := by
    rw [houtstanding, Function.update_self, Function.update_self]
  constructor
  · exact h.stored.of_eq hserver hserved
  · intro id'
    rw [hlive]
    by_cases hid : id' = id
    · subst hid
      rw [Function.update_self, hlength, h.lengths]
    · rw [Function.update_of_ne hid, h.lengths]
  · intro worker thread item hitem
    by_cases hsame : (worker, thread) = (id.worker, id.thread)
    · cases hsame
      rw [hnew] at hitem
      obtain rfl := Option.some.inj hitem
      exact ⟨id, saved, rfl, rfl, hbackup⟩
    · rw [hothers worker thread hsame] at hitem
      exact h.waiting worker thread item hitem
  · rw [hinFlight]
    exact h.late
  · rw [hphase]
    exact h.small
  · rw [hphase, hserved]
    exact h.counted
  · rw [hphase]
    intro worker thread hstopped
    have hne : (worker, thread) ≠ (id.worker, id.thread) := by
      intro hsame
      cases hsame
      exact hstopped hidle.1
    rw [hothers worker thread hne]
    exact h.quiet worker thread hstopped
  · rw [hphase]
    intro id' hphase'
    have hmirror := h.mirror id' hphase'
    rw [history] at hmirror
    rw [hlive, history, hserved]
    by_cases hsame : (id'.worker, id'.thread) = (id.worker, id.thread)
    · obtain ⟨hworker, hthread⟩ := Prod.mk.inj hsame
      rw [hworker, hthread, hidle.2, Option.toList_none, List.append_nil] at hmirror
      rw [hworker, hthread, hnew, Option.toList_some]
      by_cases hid : id' = id
      · subst hid
        rw [Function.update_self, hcopy, hmirror, hbackup.storedValue_self]
      · rw [Function.update_of_ne hid, hmirror, hbackup.storedValue_of_ne _ hid]
    · have hid : id' ≠ id := by
        rintro rfl
        exact hsame rfl
      rw [hothers _ _ hsame, Function.update_of_ne hid, hmirror]

/-- **Step.** A step in range keeps the invariant. -/
theorem Inv.step (h : s.Inv config) {action : ClusterAction V}
    (hrange : s.InRange action)
    (hstep : (machine garbage numSender config).step s action = some s') : s'.Inv config := by
  cases action with
  | update id update =>
      change (if _ then _ else _) = some s' at hstep
      split_ifs at hstep
      obtain ⟨op, hop, rfl⟩ := Option.map_eq_some_iff.mp hstep
      exact h.update hop
  | serialize id seq buffer =>
      change (if _ then _ else _) = some s' at hstep
      split_ifs at hstep with hguard
      obtain ⟨⟨saved, op⟩, hop, rfl⟩ := Option.map_eq_some_iff.mp hstep
      exact h.serialize hguard.1 hguard.2 hrange hop seq buffer rfl rfl rfl rfl rfl rfl
  | deliver worker thread =>
      obtain ⟨item, hitem, hrest⟩ := Option.bind_eq_some_iff.mp hstep
      obtain ⟨⟨reply, next⟩, hrequest, rfl⟩ := Option.map_eq_some_iff.mp hrest
      obtain ⟨⟨reply', server⟩, hhandle, hnext⟩ := Option.map_eq_some_iff.mp hrequest
      cases hnext
      exact h.deliver hitem (hrange item hitem) hhandle rfl rfl rfl rfl rfl
  | crash worker sent =>
      change (if _ then _ else _) = some s' at hstep
      split_ifs at hstep with hworker
      obtain rfl := Option.some.inj hstep
      exact h.crash hworker rfl rfl rfl rfl rfl rfl
  | deliverLate position =>
      obtain ⟨item, hitem, hrest⟩ := Option.bind_eq_some_iff.mp hstep
      obtain ⟨⟨reply, next⟩, hrequest, rfl⟩ := Option.map_eq_some_iff.mp hrest
      obtain ⟨⟨reply', server⟩, hhandle, hnext⟩ := Option.map_eq_some_iff.mp hrequest
      cases hnext
      obtain ⟨htime, hsize⟩ := hrange item hitem
      exact h.deliverLate hitem htime hsize hhandle rfl rfl rfl rfl rfl
  | askCount worker =>
      change (if _ then _ else _) = some s' at hstep
      split_ifs at hstep with hphase
      have hworker := h.small worker (by rw [hphase]; exact WorkerPhase.noConfusion)
      obtain ⟨next, hnext, hcounted⟩ := h.stored.askCount garbage numSender hworker
      obtain rfl := Option.some.inj (hnext.symm.trans hstep)
      exact h.askCount hphase hcounted
  | askData worker =>
      change Cluster.step garbage numSender config s (.askData worker) = some s' at hstep
      cases hphase : s.phase worker with
      | running =>
          simp only [Cluster.step, hphase] at hstep
          cases hstep
      | crashed =>
          simp only [Cluster.step, hphase] at hstep
          cases hstep
      | counted count =>
          simp only [Cluster.step, hphase] at hstep
          have hstopped : s.phase worker ≠ .running := by
            rw [hphase]
            exact WorkerPhase.noConfusion
          obtain ⟨next, hnext, hreplaced⟩ := h.stored.askData garbage numSender
            (h.small worker hstopped) (h.counted worker count hphase)
          obtain rfl := Option.some.inj (hnext.symm.trans hstep)
          exact h.askData hstopped hreplaced

omit [∀ id, Add (V id)] [∀ id, Sub (V id)] [∀ id, Neg (V id)] [∀ id, Mul (V id)]
  [∀ id, LT (V id)] [∀ id, DecidableLT (V id)] in
variable (garbage numSender) in
/-- Under the invariant a recovery gives back the backup arrays. -/
theorem Inv.recoversExactly (h : s.Inv config) :
    s.RecoversExactly garbage numSender config := by
  intro worker hworker thread hidle
  obtain ⟨s₁, hcount, hcounted⟩ := h.stored.askCount garbage numSender hworker
  obtain ⟨s₂, hdata, hreplaced⟩ := hcounted.stored.askData garbage numSender hworker rfl
  have hphase : s₁.phase worker =
      .counted (BackupServer.savedIds s₁.served (UInt32.ofNat worker)).card := by
    rw [hcounted.phase_eq, Function.update_self]
  refine ⟨s₂, ?_, ?_⟩
  · rw [Cluster.recover, hcount, Option.bind_some, hphase]
    exact hdata
  · intro op _ i _
    have hmirror := h.mirror ⟨worker, thread, op⟩ hidle.1
    rw [history, hidle.2, Option.toList_none, List.append_nil] at hmirror
    have hask := not_isSave_askItem (garbage 0) (show (1 : UInt32) ≠ 0 by decide) worker
    constructor
    · rw [hreplaced.array_eq _ rfl]
    · rw [hreplaced.backup_eq _ rfl, hcounted.served_eq, Config.storedValue_of_not_save hask,
        hmirror]

/-- **Exact recovery.** In every run whose steps are in range, in every state: the
recovery of a worker succeeds and gives the operators of its idle threads the arrays that
they have backed up. -/
theorem recovery_exact (garbage : ℕ → BackupItem) (numSender : ℕ) (config : Config V)
    (actions : List (ClusterAction V))
    (hrange : (machine garbage numSender config).AlwaysStep InRange
      (machine garbage numSender config).init actions) :
    (machine garbage numSender config).Always (RecoversExactly garbage numSender config)
      (machine garbage numSender config).init actions :=
  Machine.Always.of_alwaysStep (Inv config) (fun h => h.recoversExactly garbage numSender)
    (fun h hrange hstep => h.step hrange hstep) (Inv.init garbage numSender config) hrange

/-- One thread in each worker, with operators for one byte. -/
def byteConfig (numOps : ℕ) : Config fun _ => UInt8 where
  numThreads := fun _ => 1
  numOps := fun _ _ => numOps
  kind := fun _ => .max
  length := fun _ => 1
  codec := fun _ => .byte
  size_le := fun _ => by decide

/-- A value is set and backed up. -/
def byteBackup (op : ℕ) : List (ClusterAction fun _ => UInt8) :=
  [.update ⟨0, 0, op⟩ ⟨0, 5⟩, .serialize ⟨0, 0, op⟩ 0 .zero, .deliver 0 0]

/-- A worker crashes while it waits for the reply to its second backup; the server serves
this request before the worker recovers. -/
def lateBackup : List (ClusterAction fun _ => UInt8) :=
  byteBackup 0 ++ [.update ⟨0, 0, 0⟩ ⟨0, 9⟩, .serialize ⟨0, 0, 0⟩ 1 .zero, .crash 0 (some 0),
    .deliverLate 0, .askCount 0, .askData 0]

/-- The run goes on to its end, and the recovered operator has the value of the second
backup. -/
theorem recovery_exact_lateBackup :
    (machine (fun _ => .zero) 1 (byteConfig 1)).Always
      (RecoversExactly (fun _ => .zero) 1 (byteConfig 1))
      (machine (fun _ => .zero) 1 (byteConfig 1)).init lateBackup ∧
    ((machine (fun _ => .zero) 1 (byteConfig 1)).runFrom
      (machine (fun _ => .zero) 1 (byteConfig 1)).init lateBackup).map
        (fun s => (s.live ⟨0, 0, 0⟩).array 0) = some 9 :=
  ⟨recovery_exact _ _ _ _ (by decide +kernel), by decide +kernel⟩

/-- A run after which a recovery would give an operator of an idle thread another value. -/
theorem not_always_recoversExactly {numOps op : ℕ} (hop : op < numOps)
    {actions : List (ClusterAction fun _ => UInt8)} {backedUp recovered : UInt8}
    (hne : backedUp ≠ recovered)
    (hrun : ((machine (fun _ => .zero) 1 (byteConfig numOps)).runFrom
      (machine (fun _ => .zero) 1 (byteConfig numOps)).init actions).map
        (fun s => (decide (s.Idle 0 0), (s.live ⟨0, 0, op⟩).backupArray 0,
          (s.recover (fun _ => .zero) 1 (byteConfig numOps) 0).map fun s' =>
            (s'.live ⟨0, 0, op⟩).backupArray 0)) = some (true, backedUp, some recovered)) :
    ¬ (machine (fun _ => .zero) 1 (byteConfig numOps)).Always
      (RecoversExactly (fun _ => .zero) 1 (byteConfig numOps))
      (machine (fun _ => .zero) 1 (byteConfig numOps)).init actions := by
  intro halways
  obtain ⟨s, hs, hdata⟩ := Option.map_eq_some_iff.mp hrun
  simp only [Prod.mk.injEq, decide_eq_true_eq] at hdata
  obtain ⟨hidle, hlive, hrecovered⟩ := hdata
  obtain ⟨s', hs', hexact⟩ := halways.of_runFrom hs 0 (Nat.two_pow_pos 16) 0 hidle
  have hvalue := (hexact op ⟨Nat.two_pow_pos 16, Nat.one_pos, hop⟩ 0 Nat.one_pos).2
  rw [hs', Option.map_some, Option.some.injEq] at hrecovered
  rw [hlive, hrecovered] at hvalue
  exact hne hvalue.symm

/-- Operator 65536 has the op index of operator 0 in its backup items: after a recovery
its value is in the wrong operator. -/
theorem recovery_loses_large_index :
    ¬ (machine (fun _ => .zero) 1 (byteConfig 65537)).Always
      (RecoversExactly (fun _ => .zero) 1 (byteConfig 65537))
      (machine (fun _ => .zero) 1 (byteConfig 65537)).init (byteBackup 65536) :=
  not_always_recoversExactly (show 65536 < 65537 by decide) (show (5 : UInt8) ≠ 0 by decide)
    (by decide +kernel)

/-- The request of `lateBackup` served after the recovery: the operator holds what its worker
read, the server the value that came later. -/
theorem recovery_loses_late_save :
    ¬ (machine (fun _ => .zero) 1 (byteConfig 1)).Always
      (RecoversExactly (fun _ => .zero) 1 (byteConfig 1))
      (machine (fun _ => .zero) 1 (byteConfig 1)).init
      (byteBackup 0 ++ [.update ⟨0, 0, 0⟩ ⟨0, 9⟩, .serialize ⟨0, 0, 0⟩ 1 .zero,
        .crash 0 (some 0), .askCount 0, .askData 0, .deliverLate 0]) :=
  not_always_recoversExactly (show 0 < 1 from Nat.one_pos) (show (5 : UInt8) ≠ 9 by decide)
    (by decide +kernel)

end Cluster

end AFStream.FaultTolerance

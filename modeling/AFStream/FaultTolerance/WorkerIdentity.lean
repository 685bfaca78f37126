/-
# Worker identity along the backup path

The id of a worker is an `int` that the configuration only requires to be non-negative.
It reaches the backup server as a `uint32_t` in every item, while the server's indexes,
the backup client and the operator tracker all take it through a `uint16_t`. The module
follows the backups of two workers through any interleaving and any restart, and finds
exactly when a restarted worker receives what it has saved itself.
-/

import AFStream.FaultTolerance.Recovery
import AFStream.Foundation.PartialLoops

namespace AFStream.FaultTolerance

open AFStream.Foundation

/-! ## Backups and restarts -/

/-- A backup of a compute thread. The worker id is the `int64_t` of the thread, set from the
`int` of the worker. -/
structure WorkerBackup where
  worker : ℕ
  threadId : UInt16
  opIndex : UInt16
  seq : UInt64
  data : BackupData

namespace WorkerBackup

/-- The item that the compute thread fills in. -/
def item (backup : WorkerBackup) : BackupItem where
  info :=
    { backupOp := 0
      workerId := UInt32.ofNat backup.worker
      threadId := backup.threadId
      opIndex := backup.opIndex
      seq := backup.seq }
  data := backup.data

/-- The backups of one worker. -/
def own (worker : ℕ) (backups : List WorkerBackup) : List WorkerBackup :=
  backups.filter fun backup => backup.worker = worker

/-- Backups of two workers in any order. A compute thread asks for a backup when the
operator has written something, which fits into the item. -/
structure Interleaving (worker₁ worker₂ : ℕ) (backups : List WorkerBackup) : Prop where
  source : ∀ backup ∈ backups, backup.worker = worker₁ ∨ backup.worker = worker₂
  written : ∀ backup ∈ backups, backup.data.len ≠ 0
  fits : ∀ backup ∈ backups, backup.item.Fits

end WorkerBackup

/-- `BackupClient` -/
structure BackupClient where
  workerId : UInt16

namespace BackupClient

variable (garbage : ℕ → BackupItem) (numSender : ℕ)

/-- The constructor, with the conversion of the `int` of the worker to the parameter. -/
def create (worker : ℕ) : BackupClient := ⟨UInt16.ofNat worker⟩

/-- The first half of `RetriveBackups`. -/
def askCount (client : BackupClient) (server : BackupServer) : Option (ℕ × BackupServer) :=
  (server.handle garbage numSender (askItem (garbage 0) 1 client.workerId.toNat)).bind fun
    | (.count count, server) => some (count, server)
    | _ => none

/-- The second half of `RetriveBackups`. -/
def askData (client : BackupClient) (count : ℕ) (server : BackupServer) : Option RecoveryItem :=
  (server.handle garbage numSender (askItem (garbage 0) 2 client.workerId.toNat)).bind fun
    | (.data reply, _) => some (receiveData count reply)
    | _ => none

end BackupClient

/-- `OperatorTracker`, without its operators. -/
structure OperatorTracker where
  workerId : UInt32

/-- How `RecoverOps` can fail. -/
inductive RecoverError
  | /-- The exit with `worker id unmatch`. -/
    unmatch (recovery tracker : UInt32)
  | /-- A slot that lies behind the received memory. -/
    overrun
  deriving DecidableEq

namespace OperatorTracker

/-- The constructor: the parameter is a `uint16_t`, the member a `uint32_t`. -/
def create (worker : ℕ) : OperatorTracker := ⟨(UInt16.ofNat worker).toUInt32⟩

/-- One iteration of `RecoverOps`. -/
def recoverOp (tracker : OperatorTracker) (recoveryItem : RecoveryItem) (i : ℕ) :
    Except RecoverError BackupItem :=
  match recoveryItem.slots[i]? with
  | some item =>
    if item.info.workerId ≠ tracker.workerId then
      .error (.unmatch item.info.workerId tracker.workerId)
    else .ok item
  | none => .error .overrun

/-- `RecoverOps`, with the items that it hands to operators. -/
def recoverOps (tracker : OperatorTracker) (recoveryItem : RecoveryItem) :
    Except RecoverError (List BackupItem) :=
  (List.range recoveryItem.count).mapM (tracker.recoverOp recoveryItem)

end OperatorTracker

section Restart

variable (garbage : ℕ → BackupItem) (numSender : ℕ)

/-- A worker starts in recovery mode after some backups; others are served between its two
requests. -/
def restart (worker : ℕ) (before between : List WorkerBackup) :
    Option (Except RecoverError (List BackupItem)) := do
  let client := BackupClient.create worker
  let machine := BackupServer.machine garbage numSender
  let server ← machine.runFrom .create (before.map WorkerBackup.item)
  let (count, server) ← client.askCount garbage numSender server
  let server ← machine.runFrom server (between.map WorkerBackup.item)
  let recoveryItem ← client.askData garbage numSender count server
  return (OperatorTracker.create worker).recoverOps recoveryItem

/-- The restarted worker receives exactly what it has saved itself: one item for each id,
with what was saved last. -/
def ReceivesOwn (worker : ℕ) (before between : List WorkerBackup) : Prop :=
  ∃ items, restart garbage numSender worker before between = some (.ok items) ∧
    BackupServer.LastSaves ((WorkerBackup.own worker before).map WorkerBackup.item)
      (UInt32.ofNat worker) items

/-- The worker can restart anywhere in a sequence of backups. Until it has its items, only
the other worker makes backups. -/
def Survives (worker : ℕ) (backups : List WorkerBackup) : Prop :=
  ∀ before between after, backups = before ++ between ++ after →
    (∀ backup ∈ between, backup.worker ≠ worker) →
    ReceivesOwn garbage numSender worker before between

end Restart

/-- The size of the reply with all items of a worker. -/
def ownReplySize (worker : ℕ) (backups : List WorkerBackup) : ℕ :=
  BackupServer.replySize ((WorkerBackup.own worker backups).map WorkerBackup.item)
    (UInt32.ofNat worker)

/-- Whoever has saved something has a 16-bit id, which neither worker is mistaken for. -/
def KeptApart (worker₁ worker₂ : ℕ) (backups : List WorkerBackup) : Prop :=
  ∀ backup ∈ backups, backup.worker < 2 ^ 16 ∧
    ∀ worker ∈ [worker₁, worker₂], worker % 2 ^ 16 = backup.worker → worker = backup.worker

instance (worker₁ worker₂ : ℕ) (backups : List WorkerBackup) :
    Decidable (KeptApart worker₁ worker₂ backups) :=
  inferInstanceAs (Decidable (∀ _ ∈ backups, _))

/-! ## Conversions of the id -/

/-- The `uint32_t` of an item identifies the worker. -/
theorem ofNat_worker_inj {worker worker' : ℕ} (h : worker < 2 ^ 31) (h' : worker' < 2 ^ 31) :
    UInt32.ofNat worker = UInt32.ofNat worker' ↔ worker = worker' := by
  constructor
  · intro hsame
    have hnat := congrArg UInt32.toNat hsame
    rwa [UInt32.toNat_ofNat', UInt32.toNat_ofNat', Nat.mod_eq_of_lt (h.trans (by decide)),
      Nat.mod_eq_of_lt (h'.trans (by decide))] at hnat
  · exact fun hsame => congrArg UInt32.ofNat hsame

/-- The client asks for the low 16 bits. -/
theorem BackupClient.toNat_create (worker : ℕ) :
    (BackupClient.create worker).workerId.toNat = worker % 2 ^ 16 :=
  UInt16.toNat_ofNat'

/-- So does the tracker expect them. -/
theorem OperatorTracker.workerId_create (worker : ℕ) :
    (OperatorTracker.create worker).workerId = UInt32.ofNat (worker % 2 ^ 16) := by
  apply UInt32.toNat_inj.mp
  rw [create, UInt16.toNat_toUInt32, UInt16.toNat_ofNat', UInt32.toNat_ofNat',
    Nat.mod_eq_of_lt ((Nat.mod_lt worker (by decide)).trans (by decide))]

/-! ## What `RecoverOps` hands on -/

namespace OperatorTracker

variable {tracker : OperatorTracker} {recoveryItem : RecoveryItem} {items : List BackupItem}

theorem recoverOp_eq_ok_iff {i : ℕ} {item : BackupItem} :
    tracker.recoverOp recoveryItem i = .ok item ↔
      recoveryItem.slots[i]? = some item ∧ item.info.workerId = tracker.workerId := by
  rw [recoverOp]
  cases hslot : recoveryItem.slots[i]? with
  | none => simp
  | some slot =>
      by_cases hworker : slot.info.workerId = tracker.workerId
      · simp only [hworker, ne_eq, not_true_eq_false, if_false, Except.ok.injEq, Option.some.injEq]
        constructor
        · rintro rfl
          exact ⟨rfl, hworker⟩
        · exact fun h => h.1
      · simp only [ne_eq, hworker, not_false_eq_true, if_true, reduceCtorEq, Option.some.injEq,
          false_iff, not_and]
        rintro rfl
        exact hworker

/-- The slots up to the count are handed on when they have been received and belong to the
worker, and only then. -/
theorem recoverOps_eq_ok_iff :
    tracker.recoverOps recoveryItem = .ok items ↔
      recoveryItem.count ≤ recoveryItem.slots.length ∧
      items = recoveryItem.slots.take recoveryItem.count ∧
      ∀ item ∈ items, item.info.workerId = tracker.workerId := by
  rw [recoverOps, mapM_eq_ok_iff, List.forall₂_iff_get]
  simp only [recoverOp_eq_ok_iff, List.get_eq_getElem, List.getElem_range, List.length_range]
  constructor
  · rintro ⟨hlength, hget⟩
    have hle : recoveryItem.count ≤ recoveryItem.slots.length := by
      by_contra hlarge
      have hslot := (hget recoveryItem.slots.length (by omega) (by omega)).1
      rw [List.getElem?_eq_none le_rfl] at hslot
      cases hslot
    refine ⟨hle, ?_, ?_⟩
    · apply List.ext_getElem
      · rw [List.length_take, Nat.min_eq_left hle, hlength]
      · intro i hi hi'
        have hslot := (hget i (hlength ▸ hi) hi).1
        rw [List.getElem?_eq_getElem (by omega)] at hslot
        rw [List.getElem_take]
        exact (Option.some.inj hslot).symm
    · intro item hitem
      obtain ⟨i, hi, rfl⟩ := List.getElem_of_mem hitem
      exact (hget i (hlength ▸ hi) hi).2
  · rintro ⟨hle, rfl, hworker⟩
    refine ⟨(List.length_take_of_le hle).symm, ?_⟩
    intro i hi hi'
    refine ⟨?_, hworker _ (List.getElem_mem hi')⟩
    rw [List.getElem_take, List.getElem?_eq_getElem (hi.trans_le hle)]

end OperatorTracker

/-! ## Saves of a worker -/

namespace WorkerBackup

variable {worker worker₁ worker₂ : ℕ} {backups : List WorkerBackup}

theorem mem_own {backup : WorkerBackup} :
    backup ∈ own worker backups ↔ backup ∈ backups ∧ backup.worker = worker := by
  rw [own, List.mem_filter, decide_eq_true_eq]

theorem Interleaving.of_append {before after : List WorkerBackup}
    (h : Interleaving worker₁ worker₂ (before ++ after)) : Interleaving worker₁ worker₂ before where
  source := fun backup hbackup => h.source backup (List.mem_append_left after hbackup)
  written := fun backup hbackup => h.written backup (List.mem_append_left after hbackup)
  fits := fun backup hbackup => h.fits backup (List.mem_append_left after hbackup)

theorem Interleaving.own (h : Interleaving worker₁ worker₂ backups) (worker : ℕ) :
    Interleaving worker₁ worker₂ (own worker backups) where
  source := fun backup hbackup => h.source backup (mem_own.mp hbackup).1
  written := fun backup hbackup => h.written backup (mem_own.mp hbackup).1
  fits := fun backup hbackup => h.fits backup (mem_own.mp hbackup).1

theorem Interleaving.isSave (h : Interleaving worker₁ worker₂ backups) :
    ∀ r ∈ backups.map item, r.IsSave := by
  intro r hr
  obtain ⟨backup, hbackup, rfl⟩ := List.mem_map.mp hr
  exact ⟨rfl, h.written backup hbackup⟩

/-- What the server regards as the saves of a worker are its backups. -/
theorem Interleaving.saves_eq (h : Interleaving worker₁ worker₂ backups)
    (hids : ∀ worker ∈ [worker₁, worker₂], worker < 2 ^ 31) (hworker : worker < 2 ^ 31) :
    BackupServer.saves (backups.map item) (UInt32.ofNat worker) =
      (WorkerBackup.own worker backups).map item := by
  rw [BackupServer.saves, List.filter_map, WorkerBackup.own]
  congr 1
  apply List.filter_congr
  intro backup hbackup
  have hsave : backup.item.IsSave := ⟨rfl, h.written backup hbackup⟩
  have hlt := hids _ (List.mem_pair.mpr (h.source backup hbackup))
  have hsame : backup.item.info.workerId = UInt32.ofNat worker ↔ backup.worker = worker :=
    ofNat_worker_inj hlt hworker
  simp [hsave, hsame]

theorem Interleaving.saves_own (h : Interleaving worker₁ worker₂ backups)
    (hids : ∀ worker ∈ [worker₁, worker₂], worker < 2 ^ 31) (hworker : worker < 2 ^ 31) :
    BackupServer.saves (backups.map item) (UInt32.ofNat worker) =
      BackupServer.saves ((WorkerBackup.own worker backups).map item) (UInt32.ofNat worker) := by
  rw [h.saves_eq hids hworker, (h.own worker).saves_eq hids hworker]
  simp [WorkerBackup.own]

theorem Interleaving.ownReplySize_eq (h : Interleaving worker₁ worker₂ backups)
    (hids : ∀ worker ∈ [worker₁, worker₂], worker < 2 ^ 31) (hworker : worker < 2 ^ 31) :
    ownReplySize worker backups =
      BackupServer.replySize (backups.map item) (UInt32.ofNat worker) := by
  rw [ownReplySize, BackupServer.replySize, BackupServer.replySize,
    BackupServer.savedIds_congr (h.saves_own hids hworker)]

theorem own_eq_nil (hnone : ∀ backup ∈ backups, backup.worker ≠ worker) :
    own worker backups = [] := by
  rw [own, List.filter_eq_nil_iff]
  intro backup hbackup
  rw [decide_eq_true_eq]
  exact hnone backup hbackup

theorem ownReplySize_of_not_mem (hnone : ∀ backup ∈ backups, backup.worker ≠ worker) :
    ownReplySize worker backups = 4 := by
  rw [ownReplySize, own_eq_nil hnone]
  rfl

/-- More backups, more items. -/
theorem ownReplySize_mono (worker : ℕ) (before after : List WorkerBackup) :
    ownReplySize worker before ≤ ownReplySize worker (before ++ after) := by
  rw [ownReplySize, ownReplySize, own, own, List.filter_append, List.map_append]
  apply Nat.add_le_add_left
  apply Nat.mul_le_mul_left
  exact Finset.card_le_card (BackupServer.savedIds_mono _ _ _)

/-- Whoever has saved something finds an item of its own. -/
theorem Interleaving.exists_item (h : Interleaving worker₁ worker₂ backups)
    {items : List BackupItem}
    (hlast : BackupServer.LastSaves (backups.map item) (UInt32.ofNat worker) items)
    {backup : WorkerBackup} (hbackup : backup ∈ backups) (hworker : backup.worker = worker) :
    ∃ item ∈ items, item.info.workerId = UInt32.ofNat worker := by
  have hsave : backup.item ∈ BackupServer.saves (backups.map item) (UInt32.ofNat worker) := by
    rw [BackupServer.saves, List.mem_filter, decide_eq_true_eq]
    exact ⟨List.mem_map_of_mem hbackup, ⟨rfl, h.written backup hbackup⟩,
      congrArg UInt32.ofNat hworker⟩
  have hid : backup.item.saveId ∈ items.map BackupItem.saveId := by
    rw [hlast.complete, BackupServer.savedIds, List.mem_toFinset]
    exact List.mem_map_of_mem hsave
  obtain ⟨item, hitem, -⟩ := List.mem_map.mp hid
  exact ⟨item, hitem, (hlast.carries item hitem).1⟩

/-- Valid requests, with few enough items of each worker. -/
theorem Interleaving.accepted (h : Interleaving worker₁ worker₂ backups)
    (hids : ∀ worker ∈ [worker₁, worker₂], worker < 2 ^ 31)
    (hsmall : ∀ backup ∈ backups, backup.worker < 2 ^ 16)
    (hsize : ∀ worker ∈ [worker₁, worker₂], ownReplySize worker backups < 2 ^ 32) :
    BackupServer.Accepted (backups.map item) where
  valid := by
    intro r hr
    obtain ⟨backup, hbackup, rfl⟩ := List.mem_map.mp hr
    exact ⟨toNat_workerId (hsmall backup hbackup), Nat.zero_le 2,
      fun _ => ⟨h.written backup hbackup, h.fits backup hbackup⟩⟩
  bounded := by
    intro worker
    by_cases hmem : ∃ backup ∈ backups, UInt32.ofNat backup.worker = worker
    · obtain ⟨backup, hbackup, rfl⟩ := hmem
      have hworker := List.mem_pair.mpr (h.source backup hbackup)
      have hlt := hsize _ hworker
      rw [h.ownReplySize_eq hids (hids _ hworker), BackupServer.replySize] at hlt
      omega
    · have hnone : BackupServer.saves (backups.map item) worker = [] := by
        rw [BackupServer.saves, List.filter_eq_nil_iff]
        intro r hr
        obtain ⟨backup, hbackup, rfl⟩ := List.mem_map.mp hr
        rw [decide_eq_true_eq]
        exact fun hsave => hmem ⟨backup, hbackup, hsave.2⟩
      rw [BackupServer.savedIds, hnone]
      decide

end WorkerBackup

/-! ## What a restarted worker gets -/

section Restarted

variable {garbage : ℕ → BackupItem} {numSender worker worker₁ worker₂ : ℕ}
  {before between backups : List WorkerBackup} {items : List BackupItem}

/-- A question may be asked anywhere between valid requests. -/
theorem BackupServer.Accepted.insert_ask {requests more : List BackupItem}
    (haccepted : BackupServer.Accepted (requests ++ more)) (item : BackupItem) {op : UInt32}
    (hop : op ≠ 0) (hle : op.toNat ≤ 2) {id : ℕ} (hid : id < 2 ^ 16) :
    BackupServer.Accepted (requests ++ [askItem item op id] ++ more) := by
  constructor
  · intro r hr
    rw [List.append_assoc, List.mem_append, List.mem_append, List.mem_singleton] at hr
    rcases hr with hr | rfl | hr
    · exact haccepted.valid r (List.mem_append_left more hr)
    · exact valid_askItem item hop hle hid
    · exact haccepted.valid r (List.mem_append_right requests hr)
  · intro worker
    have hsaves : BackupServer.saves (requests ++ [askItem item op id] ++ more) worker =
        BackupServer.saves (requests ++ more) worker := by
      rw [BackupServer.saves_append,
        BackupServer.saves_concat_of_not_save requests (not_isSave_askItem item hop id),
        BackupServer.saves_append]
    rw [BackupServer.savedIds_congr hsaves]
    exact haccepted.bounded worker

variable (garbage numSender) in
/-- A restart, when all saves are valid and none between the two requests is taken for one
of the worker: the reply has what was saved under the low 16 bits of its id. -/
theorem restart_eq (worker : ℕ) (before between : List WorkerBackup)
    (haccepted : BackupServer.Accepted ((before ++ between).map WorkerBackup.item))
    (hsave : ∀ r ∈ (before ++ between).map WorkerBackup.item, r.IsSave)
    (hbetween : ∀ backup ∈ between, UInt32.ofNat backup.worker ≠ UInt32.ofNat (worker % 2 ^ 16)) :
    ∃ ret : RecoveryItem, ret.count = ret.slots.length ∧
      BackupServer.LastSaves (before.map WorkerBackup.item) (UInt32.ofNat (worker % 2 ^ 16))
        ret.slots ∧
      restart garbage numSender worker before between =
        if BackupServer.replySize (before.map WorkerBackup.item)
            (UInt32.ofNat (worker % 2 ^ 16)) < 2 ^ 31 then
          some ((OperatorTracker.create worker).recoverOps ret)
        else none := by
  have hid : worker % 2 ^ 16 < 2 ^ 16 := Nat.mod_lt worker (by decide)
  rw [List.map_append] at haccepted hsave
  obtain ⟨s, hs, h⟩ := BackupServer.create_inv.run_saves garbage numSender haccepted.of_append
    fun r hr => hsave r (List.mem_append_left _ hr)
  rw [List.nil_append] at h
  obtain ⟨s₁, hcount⟩ := h.handle_count garbage numSender haccepted.of_append
    (toNat_workerId hid)
    (show (askItem (garbage 0) 1 (worker % 2 ^ 16)).info.backupOp = 1 from rfl) rfl
  have haccepted' := haccepted.insert_ask (garbage 0) (show (1 : UInt32) ≠ 0 by decide)
    (by decide) hid
  have h₁ := h.handle haccepted'.of_append hcount
  obtain ⟨s₂, hs₂, h₂⟩ := h₁.run_saves garbage numSender haccepted'
    fun r hr => hsave r (List.mem_append_right _ hr)
  obtain ⟨ret, hret, hlast, hdata⟩ := h₂.handle_data garbage numSender haccepted'
    (toNat_workerId hid)
    (show (askItem (garbage 0) 2 (worker % 2 ^ 16)).info.backupOp = 2 from rfl) rfl
  have hsaves : BackupServer.saves (before.map WorkerBackup.item ++
        [askItem (garbage 0) 1 (worker % 2 ^ 16)] ++ between.map WorkerBackup.item)
        (UInt32.ofNat (worker % 2 ^ 16)) =
      BackupServer.saves (before.map WorkerBackup.item) (UInt32.ofNat (worker % 2 ^ 16)) := by
    rw [List.append_assoc]
    apply BackupServer.saves_append_of_not_mem
    intro r hr
    rcases List.mem_append.mp hr with hr | hr
    · rw [List.mem_singleton.mp hr]
      exact fun hask => not_isSave_askItem (garbage 0) (by decide) _ hask.1
    · obtain ⟨backup, hbackup, rfl⟩ := List.mem_map.mp hr
      exact fun hask => hbetween backup hbackup hask.2
  have hids := BackupServer.savedIds_congr hsaves
  have hlength := BackupServer.length_lastSaves hlast
  refine ⟨ret, hret.trans hlength.symm, hlast.congr hsaves, ?_⟩
  rw [BackupServer.replySize, hids, ← BackupServer.replySize] at hdata
  simp only [restart, BackupClient.askCount, BackupClient.askData, BackupClient.toNat_create,
    Option.bind_eq_bind, hs, Option.bind_some, hcount, hs₂, hdata]
  by_cases hsmall : BackupServer.replySize (before.map WorkerBackup.item)
      (UInt32.ofNat (worker % 2 ^ 16)) < 2 ^ 31
  · have hsize : 4 + sizeofBackupItem * ret.slots.length < 2 ^ 31 := by
      rw [hlength, hids]
      exact hsmall
    rw [if_pos hsmall, if_pos hsmall, Option.bind_some, ← hids, ← hlength]
    change some ((OperatorTracker.create worker).recoverOps (receiveData _ ret)) = _
    rw [receiveData_eq hsize]
  · rw [if_neg hsmall, if_neg hsmall]
    rfl

/-- What is handed on has been received. -/
theorem restart_eq_some {result : Except RecoverError (List BackupItem)}
    (h : restart garbage numSender worker before between = some result) :
    ∃ count reply,
      result = (OperatorTracker.create worker).recoverOps (receiveData count reply) := by
  simp only [restart, Option.bind_eq_bind, Option.bind_eq_some_iff] at h
  obtain ⟨s, -, ⟨count, s₁⟩, -, s₂, -, recoveryItem, hask, hresult⟩ := h
  obtain ⟨⟨reply, s₃⟩, -, hreply⟩ := Option.bind_eq_some_iff.mp hask
  cases reply with
  | empty => cases hreply
  | count totCount => cases hreply
  | data reply =>
      obtain rfl := Option.some.inj hreply
      exact ⟨count, reply, (Option.some.inj hresult).symm⟩

/-- A worker that has saved something and receives it has a 16-bit id: its own items carry
the whole id, and the tracker expects the low half. -/
theorem ReceivesOwn.worker_lt (h : ReceivesOwn garbage numSender worker before between)
    (hinterleaving : WorkerBackup.Interleaving worker₁ worker₂ before)
    (hids : ∀ worker ∈ [worker₁, worker₂], worker < 2 ^ 31) {backup : WorkerBackup}
    (hbackup : backup ∈ before) (hworker : backup.worker = worker) : worker < 2 ^ 16 := by
  obtain ⟨items, hrestart, hlast⟩ := h
  have hlt : worker < 2 ^ 31 :=
    hworker ▸ hids _ (List.mem_pair.mpr (hinterleaving.source backup hbackup))
  obtain ⟨item, hitem, hitemWorker⟩ := (hinterleaving.own worker).exists_item hlast
    (WorkerBackup.mem_own.mpr ⟨hbackup, hworker⟩) hworker
  obtain ⟨count, reply, hrecover⟩ := restart_eq_some hrestart
  have hexpected := (OperatorTracker.recoverOps_eq_ok_iff.mp hrecover.symm).2.2 item hitem
  rw [OperatorTracker.workerId_create, hitemWorker,
    ofNat_worker_inj hlt ((Nat.mod_lt worker (by decide)).trans (by decide))] at hexpected
  rw [hexpected]
  exact Nat.mod_lt worker (by decide)

/-- No more items are received than fit into a `RecoveryItem`. -/
theorem ReceivesOwn.ownReplySize_lt (h : ReceivesOwn garbage numSender worker before between) :
    ownReplySize worker before < 2 ^ 32 := by
  obtain ⟨items, hrestart, hlast⟩ := h
  obtain ⟨count, reply, hrecover⟩ := restart_eq_some hrestart
  obtain ⟨hle, hitems, -⟩ := OperatorTracker.recoverOps_eq_ok_iff.mp hrecover.symm
  have hlength : items.length ≤ (RecoveryItem.size count - 4) / sizeofBackupItem := by
    rw [hitems, List.length_take_of_le hle]
    apply hle.trans
    rw [receiveData, List.length_take]
    exact Nat.min_le_left _ _
  have hroom := Nat.mul_div_le (RecoveryItem.size count - 4) sizeofBackupItem
  have hsize : RecoveryItem.size count < 2 ^ 32 := Nat.mod_lt _ (by decide)
  have hmul := Nat.mul_le_mul_left sizeofBackupItem hlength
  rw [ownReplySize, BackupServer.replySize, ← BackupServer.length_lastSaves hlast]
  omega

/-- What follows from a restart after the last backup. -/
theorem ReceivesOwn.kept_apart (h : ReceivesOwn garbage numSender worker backups [])
    (hinterleaving : WorkerBackup.Interleaving worker₁ worker₂ backups)
    (hids : ∀ worker ∈ [worker₁, worker₂], worker < 2 ^ 31)
    (hworker : worker ∈ [worker₁, worker₂])
    (haccepted : BackupServer.Accepted (backups.map WorkerBackup.item)) :
    (∀ backup ∈ backups, worker % 2 ^ 16 = backup.worker → worker = backup.worker) ∧
      ownReplySize worker backups < 2 ^ 31 := by
  have hlow : worker % 2 ^ 16 < 2 ^ 31 := (Nat.mod_lt worker (by decide)).trans (by decide)
  have hsaver : ∀ backup ∈ backups, backup.worker = worker → worker < 2 ^ 16 :=
    fun backup hbackup hown => h.worker_lt hinterleaving hids hbackup hown
  obtain ⟨items, hrestart, hlast⟩ := h
  obtain ⟨ret, hcount, hlast', heq⟩ := restart_eq garbage numSender worker backups []
    (by rwa [List.append_nil]) (by rw [List.append_nil]; exact hinterleaving.isSave) (by simp)
  rw [hrestart] at heq
  by_cases hsmall : BackupServer.replySize (backups.map WorkerBackup.item)
      (UInt32.ofNat (worker % 2 ^ 16)) < 2 ^ 31
  · rw [if_pos hsmall, Option.some.injEq] at heq
    obtain ⟨-, hitems, -⟩ := OperatorTracker.recoverOps_eq_ok_iff.mp heq.symm
    rw [hcount, List.take_length] at hitems
    subst hitems
    constructor
    · intro backup hbackup hsame
      obtain ⟨item, hitem, hid⟩ := hinterleaving.exists_item hlast' hbackup hsame.symm
      rw [(hlast.carries item hitem).1, ofNat_worker_inj (hids worker hworker) hlow] at hid
      exact hid.trans hsame
    · by_cases hown : ∃ backup ∈ backups, backup.worker = worker
      · obtain ⟨backup, hbackup, hsame⟩ := hown
        rw [Nat.mod_eq_of_lt (hsaver backup hbackup hsame)] at hsmall
        rwa [hinterleaving.ownReplySize_eq hids (hids worker hworker)]
      · rw [WorkerBackup.ownReplySize_of_not_mem fun backup hbackup hsame =>
          hown ⟨backup, hbackup, hsame⟩]
        decide
  · rw [if_neg hsmall] at heq
    cases heq

/-- A worker whose id fits and is kept apart receives its own items. -/
theorem receivesOwn_of_lt
    (hinterleaving : WorkerBackup.Interleaving worker₁ worker₂ (before ++ between))
    (hids : ∀ worker ∈ [worker₁, worker₂], worker < 2 ^ 31)
    (haccepted : BackupServer.Accepted ((before ++ between).map WorkerBackup.item))
    (hsize : ownReplySize worker before < 2 ^ 31)
    (hbetween : ∀ backup ∈ between, UInt32.ofNat backup.worker ≠ UInt32.ofNat (worker % 2 ^ 16))
    (hlt : worker < 2 ^ 16) : ReceivesOwn garbage numSender worker before between := by
  have hlt' : worker < 2 ^ 31 := hlt.trans (by decide)
  obtain ⟨ret, hcount, hlast, heq⟩ := restart_eq garbage numSender worker before between
    haccepted hinterleaving.isSave hbetween
  rw [hinterleaving.of_append.ownReplySize_eq hids hlt'] at hsize
  rw [Nat.mod_eq_of_lt hlt] at hlast heq
  have hrecover : (OperatorTracker.create worker).recoverOps ret = .ok ret.slots := by
    rw [OperatorTracker.recoverOps_eq_ok_iff, hcount, List.take_length]
    refine ⟨le_rfl, rfl, ?_⟩
    intro item hitem
    rw [OperatorTracker.workerId_create, Nat.mod_eq_of_lt hlt]
    exact (hlast.carries item hitem).1
  refine ⟨ret.slots, ?_, hlast.congr (hinterleaving.of_append.saves_own hids hlt')⟩
  rw [heq, if_pos hsize, hrecover]

/-- A worker that nothing was saved for, under its id or the low half of it, receives
nothing. -/
theorem receivesOwn_of_not_mem
    (hinterleaving : WorkerBackup.Interleaving worker₁ worker₂ (before ++ between))
    (hids : ∀ worker ∈ [worker₁, worker₂], worker < 2 ^ 31)
    (haccepted : BackupServer.Accepted ((before ++ between).map WorkerBackup.item))
    (hbetween : ∀ backup ∈ between, UInt32.ofNat backup.worker ≠ UInt32.ofNat (worker % 2 ^ 16))
    (hown : ∀ backup ∈ before, backup.worker ≠ worker)
    (hlow : ∀ backup ∈ before, backup.worker ≠ worker % 2 ^ 16) :
    ReceivesOwn garbage numSender worker before between := by
  have hlt : worker % 2 ^ 16 < 2 ^ 31 := (Nat.mod_lt worker (by decide)).trans (by decide)
  obtain ⟨ret, hcount, hlast, heq⟩ := restart_eq garbage numSender worker before between
    haccepted hinterleaving.isSave hbetween
  have hnone : BackupServer.savedIds (before.map WorkerBackup.item)
      (UInt32.ofNat (worker % 2 ^ 16)) = ∅ := by
    rw [BackupServer.savedIds, hinterleaving.of_append.saves_eq hids hlt,
      WorkerBackup.own_eq_nil hlow]
    rfl
  have hslots : ret.slots = [] := by
    rw [← List.length_eq_zero_iff, BackupServer.length_lastSaves hlast, hnone]
    rfl
  refine ⟨[], ?_, ?_⟩
  · rw [heq, BackupServer.replySize, hnone, if_pos (by decide), Option.some.injEq,
      OperatorTracker.recoverOps_eq_ok_iff, hcount, hslots]
    exact ⟨le_rfl, rfl, by simp⟩
  · rw [WorkerBackup.own_eq_nil hown]
    exact ⟨List.nodup_nil, fun _ => Iff.rfl, by simp⟩

/-- Both workers survive when they are kept apart and their items fit into a reply. -/
theorem KeptApart.survives (hapart : KeptApart worker₁ worker₂ backups)
    (hinterleaving : WorkerBackup.Interleaving worker₁ worker₂ backups)
    (hids : ∀ worker ∈ [worker₁, worker₂], worker < 2 ^ 31)
    (hsize : ∀ worker ∈ [worker₁, worker₂], ownReplySize worker backups < 2 ^ 31)
    (hworker : worker ∈ [worker₁, worker₂]) : Survives garbage numSender worker backups := by
  intro before between after hsplit hbetween
  subst hsplit
  have hinterleaving' := hinterleaving.of_append
  have hmem : ∀ backup ∈ before ++ between, backup.worker < 2 ^ 16 ∧
      (worker % 2 ^ 16 = backup.worker → worker = backup.worker) := by
    intro backup hbackup
    have h := hapart backup (List.mem_append_left after hbackup)
    exact ⟨h.1, h.2 worker hworker⟩
  have hsize' : ∀ other ∈ [worker₁, worker₂], ownReplySize other (before ++ between) < 2 ^ 31 :=
    fun other hother => (WorkerBackup.ownReplySize_mono other _ after).trans_lt (hsize other hother)
  have haccepted := hinterleaving'.accepted hids (fun backup hbackup => (hmem backup hbackup).1)
    fun other hother => (hsize' other hother).trans (by decide)
  have hlow : worker % 2 ^ 16 < 2 ^ 31 := (Nat.mod_lt worker (by decide)).trans (by decide)
  have hbetween' : ∀ backup ∈ between,
      UInt32.ofNat backup.worker ≠ UInt32.ofNat (worker % 2 ^ 16) := by
    intro backup hbackup hsame
    have h := hmem backup (List.mem_append_right before hbackup)
    rw [ofNat_worker_inj (h.1.trans (by decide)) hlow] at hsame
    exact hbetween backup hbackup (h.2 hsame.symm).symm
  by_cases hlt : worker < 2 ^ 16
  · exact receivesOwn_of_lt hinterleaving' hids haccepted
      ((WorkerBackup.ownReplySize_mono worker before between).trans_lt (hsize' worker hworker))
      hbetween' hlt
  · apply receivesOwn_of_not_mem hinterleaving' hids haccepted hbetween'
    · intro backup hbackup hsame
      exact hlt (hsame ▸ (hmem backup (List.mem_append_left between hbackup)).1)
    · intro backup hbackup hsame
      have h := hmem backup (List.mem_append_left between hbackup)
      exact hlt ((h.2 hsame.symm).symm ▸ h.1)

end Restarted

/-! ## Identity -/

/-- **Worker identity.** For every two worker ids and every interleaving of their backups,
both workers receive exactly their own items, wherever they restart and whatever the other
one saves meanwhile, exactly when every id under which something was saved has 16 bits and is
not the low half of another one, and the items of each worker fit into a reply. -/
theorem worker_identity_iff (garbage : ℕ → BackupItem) (numSender worker₁ worker₂ : ℕ)
    (hlt₁ : worker₁ < 2 ^ 31) (hlt₂ : worker₂ < 2 ^ 31)
    (backups : List WorkerBackup)
    (hinterleaving : WorkerBackup.Interleaving worker₁ worker₂ backups) :
    (∀ worker ∈ [worker₁, worker₂], Survives garbage numSender worker backups) ↔
      KeptApart worker₁ worker₂ backups ∧
        ∀ worker ∈ [worker₁, worker₂], ownReplySize worker backups < 2 ^ 31 := by
  have hids : ∀ worker ∈ [worker₁, worker₂], worker < 2 ^ 31 := by
    intro worker hworker
    rcases List.mem_pair.mp hworker with rfl | rfl
    · exact hlt₁
    · exact hlt₂
  constructor
  · intro hsurvives
    have hreceives : ∀ worker ∈ [worker₁, worker₂],
        ReceivesOwn garbage numSender worker backups [] := by
      intro worker hworker
      exact hsurvives worker hworker backups [] [] (by simp) (by simp)
    have hsmall : ∀ backup ∈ backups, backup.worker < 2 ^ 16 := by
      intro backup hbackup
      have hworker := List.mem_pair.mpr (hinterleaving.source backup hbackup)
      exact (hreceives _ hworker).worker_lt hinterleaving hids hbackup rfl
    have haccepted := hinterleaving.accepted hids hsmall
      fun worker hworker => (hreceives worker hworker).ownReplySize_lt
    have hapart := fun worker hworker =>
      (hreceives worker hworker).kept_apart hinterleaving hids hworker haccepted
    refine ⟨?_, fun worker hworker => (hapart worker hworker).2⟩
    intro backup hbackup
    exact ⟨hsmall backup hbackup, fun worker hworker => (hapart worker hworker).1 backup hbackup⟩
  · rintro ⟨hapart, hsize⟩ worker hworker
    exact hapart.survives hinterleaving hids hsize hworker

/-- A backup of one byte by operator 0 of thread 0. -/
def byteOf (worker : ℕ) : WorkerBackup := ⟨worker, 0, 0, 0, ⟨1, 0, .zero⟩⟩

theorem interleaving_byteOf {worker₁ worker₂ : ℕ} {backups : List WorkerBackup}
    (hbackups : ∀ backup ∈ backups, backup = byteOf worker₁ ∨ backup = byteOf worker₂) :
    WorkerBackup.Interleaving worker₁ worker₂ backups := by
  constructor
  · intro backup hbackup
    rcases hbackups backup hbackup with rfl | rfl
    · exact .inl rfl
    · exact .inr rfl
  · intro backup hbackup
    rcases hbackups backup hbackup with rfl | rfl <;> exact (by decide : (1 : UInt32) ≠ 0)
  · intro backup hbackup
    rcases hbackups backup hbackup with rfl | rfl <;> exact (by decide : (1 : UInt32).toNat ≤ 256)

/-- Workers 1 and 2 with a backup each. -/
theorem worker_identity_one_two :
    WorkerBackup.Interleaving 1 2 [byteOf 1, byteOf 2] ∧
      ∀ worker ∈ [1, 2], Survives (fun _ => .zero) 1 worker [byteOf 1, byteOf 2] := by
  have hinterleaving : WorkerBackup.Interleaving 1 2 [byteOf 1, byteOf 2] :=
    interleaving_byteOf (by simp)
  exact ⟨hinterleaving, (worker_identity_iff (fun _ => .zero) 1 1 2 (by decide) (by decide) _
    hinterleaving).mpr ⟨by decide, by decide⟩⟩

/-- Worker 65536 saves an item. Worker 0, which has saved nothing, receives it and exits, and
so does worker 65536 itself. -/
theorem worker_identity_fails_65536 :
    WorkerBackup.Interleaving 0 65536 [byteOf 65536] ∧
      restart (fun _ => .zero) 1 0 [byteOf 65536] [] = some (.error (.unmatch 65536 0)) ∧
      restart (fun _ => .zero) 1 65536 [byteOf 65536] [] = some (.error (.unmatch 65536 0)) ∧
      ¬ ∀ worker ∈ [0, 65536], Survives (fun _ => .zero) 1 worker [byteOf 65536] := by
  have hzero : restart (fun _ => .zero) 1 0 [byteOf 65536] [] =
      some (.error (.unmatch 65536 0)) := by
    rfl
  refine ⟨interleaving_byteOf (by simp), hzero, ?_, ?_⟩
  · rfl
  · intro hsurvives
    obtain ⟨items, hitems, -⟩ :=
      hsurvives 0 List.mem_cons_self [byteOf 65536] [] [] (by simp) (by simp)
    rw [hzero] at hitems
    cases hitems

end AFStream.FaultTolerance

/-
# Recovery of numeric arrays

The module follows the array operators of all workers and threads, the backup requests
of the compute threads and the backup server through any interleaving of updates,
backups and crashes. A request that `MakeBackup` has sent outlives its worker: the server
may serve it at any later time. A value passes through five representations: the array of
an operator, the packed bytes of a `BackupData`, a slot of the server, a slot of a
`RecoveryItem` and the array of the operator that replaces the first one. Operators may
have different element types.
-/

import AFStream.FaultTolerance.LastWriterWins
import AFStream.Operator.NumericArray

namespace AFStream.FaultTolerance

open AFStream.Foundation AFStream.Operator

universe u

/-! ## The bytes of a saved value -/

/-- The memory image of an `unsigned int`. -/
def indexBytes (index : UInt32) : List UInt8 :=
  [index.toUInt8, (index >>> 8).toUInt8, (index >>> 16).toUInt8, (index >>> 24).toUInt8]

section Packing

variable {V : Type u}

/-- What `SerializeState` of an array operator writes into a `BackupData`. -/
def packSaved (codec : Codec V) (saved : Saved V) (buffer : Block maxBackupItemDataLen) :
    BackupData where
  len := UInt32.ofNat (4 + codec.size)
  key := saved.index.toUInt64
  data := buffer.write (indexBytes saved.index ++ codec.encode saved.value)

/-- What `RecoveryState` of an array operator reads: the index is taken from the key. -/
def unpackSaved (codec : Codec V) (data : BackupData) : Saved V where
  index := data.key.toUInt32
  value := codec.decode ((data.data.bytes.drop 4).take codec.size)

variable {codec : Codec V} {saved : Saved V}

theorem length_indexBytes (index : UInt32) : (indexBytes index).length = 4 := rfl

/-- The bytes of an index and a value. -/
theorem length_packed (codec : Codec V) (saved : Saved V) :
    (indexBytes saved.index ++ codec.encode saved.value).length = 4 + codec.size := by
  rw [List.length_append, length_indexBytes, codec.length_encode]

theorem toNat_len_packSaved (hsize : 4 + codec.size ≤ maxBackupItemDataLen)
    (buffer : Block maxBackupItemDataLen) :
    (packSaved codec saved buffer).len.toNat = 4 + codec.size := by
  rw [packSaved, UInt32.toNat_ofNat', Nat.mod_eq_of_lt (hsize.trans_lt (by decide))]

/-- The written bytes of a packed value. -/
theorem written_packSaved (hsize : 4 + codec.size ≤ maxBackupItemDataLen)
    (buffer : Block maxBackupItemDataLen) :
    (packSaved codec saved buffer).written =
      indexBytes saved.index ++ codec.encode saved.value := by
  have hlength := length_packed codec saved
  rw [BackupData.written, toNat_len_packSaved hsize, ← hlength]
  have htake := buffer.take_write (indexBytes saved.index ++ codec.encode saved.value) []
    (by rw [List.append_nil, hlength]; exact hsize)
  rwa [List.append_nil] at htake

/-- **Round trip.** Whatever carries a packed value is unpacked to it. -/
theorem unpackSaved_packSaved (hsize : 4 + codec.size ≤ maxBackupItemDataLen)
    {buffer : Block maxBackupItemDataLen} {data : BackupData}
    (hlen : data.len = (packSaved codec saved buffer).len)
    (hkey : data.key = (packSaved codec saved buffer).key)
    (hwritten : data.written = (packSaved codec saved buffer).written) :
    unpackSaved codec data = saved := by
  have hindex : data.key.toUInt32 = saved.index := by
    rw [hkey]
    exact UInt32.toUInt32_toUInt64 saved.index
  have hbytes : (data.data.bytes.drop 4).take codec.size = codec.encode saved.value := by
    rw [written_packSaved hsize, BackupData.written, hlen, toNat_len_packSaved hsize] at hwritten
    calc (data.data.bytes.drop 4).take codec.size
        = (data.data.bytes.take (4 + codec.size)).drop 4 := by
          rw [List.drop_take, Nat.add_sub_cancel_left]
      _ = (indexBytes saved.index ++ codec.encode saved.value).drop 4 := by rw [hwritten]
      _ = codec.encode saved.value := List.drop_left' (length_indexBytes saved.index)
  rw [unpackSaved, hindex, hbytes, codec.decode_encode]

end Packing

/-! ## Workers, threads and operators -/

/-- An operator of a thread of a worker. -/
structure OpId where
  worker : ℕ
  thread : ℕ
  op : ℕ
  deriving DecidableEq

/-- How many threads and operators there are, and what the operators are. -/
structure Config (V : OpId → Type u) where
  numThreads : ℕ → ℕ
  numOps : ℕ → ℕ → ℕ
  kind : OpId → ArrayKind
  length : OpId → ℕ
  codec : ∀ id, Codec (V id)
  /-- An index and a value fit into an item. -/
  size_le : ∀ id, 4 + (codec id).size ≤ maxBackupItemDataLen

/-- Where a worker stands with respect to `RetriveBackups`. -/
inductive WorkerPhase
  | running
  | crashed
  | /-- The reply to the count request has arrived. -/
    counted (count : ℕ)
  deriving DecidableEq

/-- All workers, the requests that compute threads wait for, and the server with the
requests it has served. -/
structure Cluster (V : OpId → Type u) where
  live : ∀ id, NumericArray (V id)
  phase : ℕ → WorkerPhase
  outstanding : ℕ → ℕ → Option BackupItem
  /-- Requests that workers sent before they crashed and the server has not read yet. -/
  inFlight : List BackupItem
  server : BackupServer
  served : List BackupItem

/-- What can happen next. -/
inductive ClusterAction (V : OpId → Type u)
  | update (id : OpId) (update : Update (V id))
  | /-- `SerializeState` into a buffer, with the sequence number of the last tuple. -/
    serialize (id : OpId) (seq : UInt64) (buffer : Block maxBackupItemDataLen)
  | /-- `MakeBackup` for a waiting thread: the server serves the request, the thread goes on. -/
    deliver (worker thread : ℕ)
  | /-- A worker stops. `MakeBackup` may have sent the request of one of its threads and wait
    for the reply; the requests of the others are lost with the worker. -/
    crash (worker : ℕ) (sent : Option ℕ)
  | /-- The server serves a request of a crashed worker; nobody gets the reply. -/
    deliverLate (position : ℕ)
  | askCount (worker : ℕ)
  | askData (worker : ℕ)

namespace Config

variable {V : OpId → Type u} (config : Config V)

/-- The operator has been registered. -/
def Registered (id : OpId) : Prop :=
  id.worker < 2 ^ 16 ∧ id.thread < config.numThreads id.worker ∧
    id.op < config.numOps id.worker id.thread

instance (id : OpId) : Decidable (config.Registered id) :=
  inferInstanceAs (Decidable (_ ∧ _ ∧ _))

/-- The item for a saved value, as the compute thread fills it in. -/
def backupItem (id : OpId) (seq : UInt64) (saved : Saved (V id))
    (buffer : Block maxBackupItemDataLen) : BackupItem where
  info :=
    { backupOp := 0
      workerId := UInt32.ofNat id.worker
      threadId := UInt16.ofNat id.thread
      opIndex := UInt16.ofNat id.op
      seq := seq }
  data := packSaved (config.codec id) saved buffer

/-- One iteration of `RecoverOps`: undefined where it exits with an error or accesses an
operator that does not exist. -/
def recoverOp (worker : ℕ) (ops : ∀ id, NumericArray (V id)) (item : BackupItem) :
    Option (∀ id, NumericArray (V id)) :=
  let id : OpId := ⟨worker, item.info.threadId.toNat, item.info.opIndex.toNat⟩
  if item.info.workerId.toNat = worker ∧ config.Registered id then
    ((ops id).recoveryState (unpackSaved (config.codec id) item.data)).map fun op =>
      Function.update ops id op
  else none

/-- `RecoverOps` -/
def recoverOps (worker : ℕ) (ops : ∀ id, NumericArray (V id)) (recoveryItem : RecoveryItem) :
    Option (∀ id, NumericArray (V id)) :=
  (List.range recoveryItem.count).foldlM (fun ops i =>
    recoveryItem.slots[i]?.bind fun item => config.recoverOp worker ops item) ops

end Config

/-- The messages of `RetriveBackups`; most of the item is not initialised. -/
def askItem (garbage : BackupItem) (op : UInt32) (worker : ℕ) : BackupItem where
  info := { garbage.info with backupOp := op, workerId := UInt32.ofNat worker }
  data := { garbage.data with len := 0 }

/-- The receive of the data reply into memory for the given count. -/
def receiveData (count : ℕ) (reply : RecoveryItem) : RecoveryItem :=
  { reply with slots := reply.slots.take ((RecoveryItem.size count - 4) / sizeofBackupItem) }

theorem not_isSave_askItem (garbage : BackupItem) {op : UInt32} (hop : op ≠ 0) (worker : ℕ) :
    ¬ (askItem garbage op worker).IsSave :=
  fun h => hop h.1

theorem toNat_workerId {worker : ℕ} (hworker : worker < 2 ^ 16) :
    (UInt32.ofNat worker).toNat < 2 ^ 16 := by
  rwa [UInt32.toNat_ofNat', Nat.mod_eq_of_lt (hworker.trans (by decide))]

theorem valid_askItem (garbage : BackupItem) {op : UInt32} (hop : op ≠ 0) (hle : op.toNat ≤ 2)
    {worker : ℕ} (hworker : worker < 2 ^ 16) : (askItem garbage op worker).ValidRequest where
  worker_lt := toNat_workerId hworker
  op_le := hle
  save := fun h => absurd h hop

/-- All slots of a reply are received. -/
theorem receiveData_eq {reply : RecoveryItem}
    (hsize : 4 + sizeofBackupItem * reply.slots.length < 2 ^ 31) :
    receiveData reply.slots.length reply = reply := by
  have hroom : (RecoveryItem.size reply.slots.length - 4) / sizeofBackupItem =
      reply.slots.length := by
    rw [RecoveryItem.size, Nat.mod_eq_of_lt (hsize.trans (by decide)), Nat.add_sub_cancel_left,
      Nat.mul_div_cancel_left _ (by decide)]
  rw [receiveData, hroom, List.take_length]

namespace Cluster

variable {V : OpId → Type u} [∀ id, Zero (V id)] [∀ id, Add (V id)] [∀ id, Sub (V id)]
  [∀ id, Neg (V id)] [∀ id, Mul (V id)] [∀ id, LT (V id)] [∀ id, DecidableLT (V id)]

/-- A worker replaces its operators by new ones; those of the others stay. -/
def freshOps (config : Config V) (s : Cluster V) (worker : ℕ) : ∀ id, NumericArray (V id) :=
  fun id => if id.worker = worker then .create (config.kind id) (config.length id) else s.live id

variable (garbage : ℕ → BackupItem) (numSender : ℕ) (config : Config V)

/-- A request is sent and its reply received. -/
def request (s : Cluster V) (item : BackupItem) : Option (Reply × Cluster V) :=
  (s.server.handle garbage numSender item).map fun result =>
    (result.1, { s with server := result.2, served := s.served ++ [item] })

/-- The first half of `RetriveBackups`. -/
def askCount (s : Cluster V) (worker : ℕ) : Option (Cluster V) :=
  (s.request garbage numSender (askItem (garbage 0) 1 worker)).bind fun
    | (.count count, s) => some { s with phase := Function.update s.phase worker (.counted count) }
    | _ => none

/-- The second half of `RetriveBackups`, and `RecoverOps` on new operators. -/
def askData (s : Cluster V) (worker count : ℕ) : Option (Cluster V) :=
  (s.request garbage numSender (askItem (garbage 0) 2 worker)).bind fun
    | (.data reply, s) =>
      (config.recoverOps worker (s.freshOps config worker) (receiveData count reply)).map fun ops =>
        { s with live := ops, phase := Function.update s.phase worker .running }
    | _ => none

/-- A thread that may act: its worker runs, and it does not wait for a backup. -/
def Idle (s : Cluster V) (worker thread : ℕ) : Prop :=
  s.phase worker = .running ∧ s.outstanding worker thread = none

instance (s : Cluster V) (worker thread : ℕ) : Decidable (s.Idle worker thread) :=
  inferInstanceAs (Decidable (_ ∧ _))

/-- One step of the cluster. -/
def step (s : Cluster V) : ClusterAction V → Option (Cluster V)
  | .update id update =>
    if s.Idle id.worker id.thread ∧ config.Registered id then
      ((s.live id).updateValue update).map fun op =>
        { s with live := Function.update s.live id op }
    else none
  | .serialize id seq buffer =>
    if s.Idle id.worker id.thread ∧ config.Registered id then
      (s.live id).serializeState.map fun result =>
        { s with
          live := Function.update s.live id result.2
          outstanding := Function.update s.outstanding id.worker
            (Function.update (s.outstanding id.worker) id.thread
              (some (config.backupItem id seq result.1 buffer))) }
    else none
  | .deliver worker thread =>
    (s.outstanding worker thread).bind fun item =>
      (s.request garbage numSender item).map fun result =>
        { result.2 with
          outstanding := Function.update s.outstanding worker
            (Function.update (s.outstanding worker) thread none) }
  | .crash worker sent =>
    if worker < 2 ^ 16 then
      some { s with
        phase := Function.update s.phase worker .crashed
        outstanding := Function.update s.outstanding worker fun _ => none
        inFlight := s.inFlight ++ (sent.bind (s.outstanding worker)).toList }
    else none
  | .deliverLate position =>
    s.inFlight[position]?.bind fun item =>
      (s.request garbage numSender item).map fun result =>
        { result.2 with inFlight := s.inFlight.eraseIdx position }
  | .askCount worker =>
    if s.phase worker = .crashed then s.askCount garbage numSender worker else none
  | .askData worker =>
    match s.phase worker with
    | .counted count => s.askData garbage numSender config worker count
    | _ => none

/-- All runs, from fresh operators and an empty server. -/
def machine : Machine (Cluster V) (ClusterAction V) where
  init :=
    { live := fun id => .create (config.kind id) (config.length id)
      phase := fun _ => .running
      outstanding := fun _ _ => none
      inFlight := []
      server := .create
      served := [] }
  step := step garbage numSender config

/-- A crash of a worker with the recovery that follows. -/
def recover (s : Cluster V) (worker : ℕ) : Option (Cluster V) :=
  (s.askCount garbage numSender worker).bind fun s =>
    match s.phase worker with
    | .counted count => s.askData garbage numSender config worker count
    | _ => none

/-- A crash now would give every idle thread operators with exactly its backups. -/
def RecoversExactly (s : Cluster V) : Prop :=
  ∀ worker < 2 ^ 16, ∀ thread, s.Idle worker thread →
    ∃ s', s.recover garbage numSender config worker = some s' ∧
      ∀ op, config.Registered ⟨worker, thread, op⟩ →
        ∀ i < config.length ⟨worker, thread, op⟩,
          (s'.live ⟨worker, thread, op⟩).array i = (s'.live ⟨worker, thread, op⟩).backupArray i ∧
          (s'.live ⟨worker, thread, op⟩).backupArray i =
            (s.live ⟨worker, thread, op⟩).backupArray i

/-- The worker that sent a request has not recovered since: it has not asked for its count
yet, or the request does not change this count. -/
def ServedInTime (s : Cluster V) (item : BackupItem) : Prop :=
  s.phase item.info.workerId.toNat = .crashed ∨
    s.phase item.info.workerId.toNat ≠ .running ∧
      item.saveId ∈ BackupServer.savedIds s.served item.info.workerId

instance (s : Cluster V) (item : BackupItem) : Decidable (s.ServedInTime item) :=
  inferInstanceAs (Decidable (_ ∨ _ ∧ _))

/-- The ids of a saved item fit into its head, the items of its worker into a reply, and a
request that outlives its worker is served before the recovery of the worker. -/
def InRange (s : Cluster V) : ClusterAction V → Prop
  | .serialize id _ _ => id.thread < 2 ^ 16 ∧ id.op < 2 ^ 16
  | .deliver worker thread => ∀ item, s.outstanding worker thread = some item →
    BackupServer.replySize (s.served ++ [item]) (UInt32.ofNat worker) < 2 ^ 31
  | .deliverLate position => ∀ item, s.inFlight[position]? = some item →
    s.ServedInTime item ∧
      BackupServer.replySize (s.served ++ [item]) item.info.workerId < 2 ^ 31
  | _ => True

instance (s : Cluster V) : ∀ action, Decidable (s.InRange action)
  | .serialize _ _ _ => inferInstanceAs (Decidable (_ ∧ _))
  | .deliver worker thread => inferInstanceAs (Decidable (∀ item ∈ s.outstanding worker thread, _))
  | .deliverLate position => inferInstanceAs (Decidable (∀ item ∈ s.inFlight[position]?, _ ∧ _))
  | .update _ _ => inferInstanceAs (Decidable True)
  | .crash _ _ => inferInstanceAs (Decidable True)
  | .askCount _ => inferInstanceAs (Decidable True)
  | .askData _ => inferInstanceAs (Decidable True)

end Cluster

end AFStream.FaultTolerance

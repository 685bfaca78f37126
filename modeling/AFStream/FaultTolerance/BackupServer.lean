/-
# The backup server

The server answers requests one at a time: saves, requests for the number of items of a
worker and requests for the items themselves. It finds the slot table of an operator
through a key that packs the ids of worker, thread and operator, and the tables of a
worker through a second index. Over every sequence of requests from any number of
clients it is a last-writer-wins store, as far as its replies can be sent.
-/

import AFStream.FaultTolerance.BackupContent
import AFStream.Foundation.Machine

namespace AFStream.FaultTolerance

open AFStream.Foundation

/-- `MAKE_OP_KEY` -/
def makeOpKey (worker thread : UInt16) (op : UInt32) : UInt64 :=
  worker.toUInt64 <<< 32 ||| thread.toUInt64 <<< 16 ||| op.toUInt64

/-- The key of the operator that an item belongs to. -/
def BackupItem.opKey (item : BackupItem) : UInt64 :=
  makeOpKey item.info.workerId.toUInt16 item.info.threadId item.info.opIndex.toUInt32

/-- The global variables of the server. Tables are named by their position in
`contents`, in the place of pointers. -/
structure BackupServer where
  backupItem : BackupItem
  contents : List BackupContent
  ops : UInt64 → Option ℕ
  workerOpsNew : UInt16 → List ℕ
  curStop : ℕ
  /-- The request loop has been left. -/
  left : Bool

/-- What is sent back to a client. -/
inductive Reply
  | empty
  | count (totCount : ℕ)
  | data (recoveryItem : RecoveryItem)

namespace BackupServer

/-- The server before the first request. -/
def create : BackupServer where
  backupItem := .zero
  contents := []
  ops := fun _ => none
  workerOpsNew := fun _ => []
  curStop := 0
  left := false

variable (garbage : ℕ → BackupItem)

/-- The table for the item in the buffer, created and entered into both indexes if there
is none. -/
def findContent (s : BackupServer) : ℕ × BackupServer :=
  let worker := s.backupItem.info.workerId.toUInt16
  let opKey := s.backupItem.opKey
  match s.ops opKey with
  | some content => (content, s)
  | none =>
    let content := s.contents.length
    (content, { s with
      contents := s.contents ++ [.create]
      ops := Function.update s.ops opKey (some content)
      workerOpsNew :=
        Function.update s.workerOpsNew worker (s.workerOpsNew worker ++ [content]) })

/-- The branch that saves the item in the buffer. -/
def save (s : BackupServer) : Option BackupServer :=
  let (address, s) := s.findContent
  s.contents[address]?.bind fun content =>
    (content.saveBackup garbage s.backupItem).map fun content =>
      { s with contents := s.contents.set address content }

/-- The tables of a worker, in the order of their creation. -/
def workerContents (s : BackupServer) (worker : UInt16) : List BackupContent :=
  (s.workerOpsNew worker).filterMap fun address => s.contents[address]?

/-- The loop that computes `tot_count`. -/
def totCount (contents : List BackupContent) : ℕ :=
  contents.foldl (fun tot content => (tot + content.getCount) % 2 ^ 32) 0

/-- The number of items in some tables. -/
def itemCount (contents : List BackupContent) : ℕ := (contents.map BackupContent.getCount).sum

/-- The loop that fills the reply, with `cur_count`. -/
def appendAll (contents : List BackupContent) (start : RecoveryItem × ℕ) :
    Option (RecoveryItem × ℕ) :=
  contents.foldlM (fun state content =>
    (content.appendRecoveryItem state.1 state.2).map fun ret =>
      (ret, (state.2 + content.getCount) % 2 ^ 32)) start

/-- `ZWrite`. The length is an `int`: a larger one becomes negative, no message has
that size and the process exits. -/
def zWrite (len : ℕ) (reply : Reply) : Option Reply :=
  if len < 2 ^ 31 then some reply else none

/-- The branch that replies with the items of a worker. -/
def recoveryData (s : BackupServer) (worker : UInt16) : Option Reply :=
  let contents := s.workerContents worker
  let totCount := totCount contents
  (appendAll contents (.create garbage totCount, 0)).bind fun state =>
    zWrite (RecoveryItem.size totCount) (.data state.1)

/-- `ZRead`. The message has `size()` bytes; the buffer keeps what it held behind them. -/
def receive (s : BackupServer) (request : BackupItem) : BackupServer :=
  { s with backupItem := s.backupItem.copyBackupItem request }

/-- One iteration of the request loop. An unknown operation gets no reply and the next
receive fails. -/
def handle (numSender : ℕ) (s : BackupServer) (request : BackupItem) :
    Option (Reply × BackupServer) :=
  if s.left then none
  else
    let s := s.receive request
    if s.backupItem.info.backupOp = 0 then
      if s.backupItem.data.len = 0 then
        let s := { s with curStop := s.curStop + 1 }
        some (.empty, { s with left := s.curStop = numSender })
      else (s.save garbage).map fun s => (.empty, s)
    else if s.backupItem.info.backupOp = 1 then
      some (.count (totCount (s.workerContents s.backupItem.info.workerId.toUInt16)), s)
    else if s.backupItem.info.backupOp = 2 then
      (s.recoveryData garbage s.backupItem.info.workerId.toUInt16).map fun reply => (reply, s)
    else none

/-- Requests of any clients in any order. -/
def machine (numSender : ℕ) : Machine BackupServer BackupItem where
  init := create
  step s request := (s.handle garbage numSender request).map Prod.snd

theorem itemCount_cons (content : BackupContent) (contents : List BackupContent) :
    itemCount (content :: contents) = content.getCount + itemCount contents := List.sum_cons

/-- The loop that computes `tot_count` adds up to 32 bits. -/
theorem totCount_eq (contents : List BackupContent) :
    totCount contents = itemCount contents % 2 ^ 32 := by
  have hloop : ∀ tot < 2 ^ 32,
      contents.foldl (fun tot content => (tot + content.getCount) % 2 ^ 32) tot =
        (tot + itemCount contents) % 2 ^ 32 := by
    induction contents with
    | nil => exact fun tot htot => (Nat.mod_eq_of_lt htot).symm
    | cons content contents ih =>
        intro tot _
        rw [List.foldl_cons, ih _ (Nat.mod_lt _ (Nat.two_pow_pos 32)), itemCount_cons,
          Nat.mod_add_mod, Nat.add_assoc]
  rw [totCount, hloop 0 (Nat.two_pow_pos 32), Nat.zero_add]

variable {garbage} {numSender : ℕ} {s : BackupServer} {r : BackupItem}

theorem handle_save (hleft : s.left = false) (hop : r.info.backupOp = 0)
    (hlen : r.data.len ≠ 0) :
    s.handle garbage numSender r =
      ((s.receive r).save garbage).map fun s => (.empty, s) := by
  simp [handle, receive, BackupItem.copyBackupItem, hleft, hop, hlen]

theorem handle_count (hleft : s.left = false) (hop : r.info.backupOp = 1) :
    s.handle garbage numSender r =
      some (.count (totCount (s.workerContents r.info.workerId.toUInt16)), s.receive r) := by
  simp [handle, receive, BackupItem.copyBackupItem, hleft, hop, workerContents]

theorem handle_data (hleft : s.left = false) (hop : r.info.backupOp = 2) :
    s.handle garbage numSender r =
      (s.recoveryData garbage r.info.workerId.toUInt16).map fun reply => (reply, s.receive r) := by
  simp [handle, receive, BackupItem.copyBackupItem, hleft, hop, recoveryData, workerContents]

end BackupServer

/-! ## Operator keys -/

theorem toNat_makeOpKey (worker thread op : UInt16) :
    (makeOpKey worker thread op.toUInt32).toNat =
      worker.toNat * 2 ^ 32 + (thread.toNat * 2 ^ 16 + op.toNat) := by
  have hworker := worker.toNat_lt
  have hthread := thread.toNat_lt
  have hop := op.toNat_lt
  have hlow : thread.toNat <<< 16 ||| op.toNat = thread.toNat * 2 ^ 16 + op.toNat := by
    rw [← Nat.shiftLeft_add_eq_or_of_lt hop, Nat.shiftLeft_eq]
  have hhigh : worker.toNat <<< 32 ||| (thread.toNat * 2 ^ 16 + op.toNat) =
      worker.toNat * 2 ^ 32 + (thread.toNat * 2 ^ 16 + op.toNat) := by
    rw [← Nat.shiftLeft_add_eq_or_of_lt (show _ < 2 ^ 32 by omega), Nat.shiftLeft_eq]
  have hworker' : worker.toNat <<< 32 % 2 ^ 64 = worker.toNat <<< 32 := by
    rw [Nat.shiftLeft_eq]
    omega
  have hthread' : thread.toNat <<< 16 % 2 ^ 64 = thread.toNat <<< 16 := by
    rw [Nat.shiftLeft_eq]
    omega
  simp only [makeOpKey, UInt64.toNat_or, UInt64.toNat_shiftLeft, UInt16.toNat_toUInt64,
    UInt32.toNat_toUInt64, UInt16.toNat_toUInt32]
  change worker.toNat <<< 32 % 2 ^ 64 ||| thread.toNat <<< 16 % 2 ^ 64 ||| op.toNat = _
  rw [hworker', hthread', Nat.or_assoc, hlow, hhigh]

/-- Distinct operators have distinct keys. -/
theorem makeOpKey_inj {worker worker' thread thread' op op' : UInt16} :
    makeOpKey worker thread op.toUInt32 = makeOpKey worker' thread' op'.toUInt32 ↔
      worker = worker' ∧ thread = thread' ∧ op = op' := by
  constructor
  · intro h
    have hnat := congrArg UInt64.toNat h
    rw [toNat_makeOpKey, toNat_makeOpKey] at hnat
    have hthread := thread.toNat_lt
    have hthread' := thread'.toNat_lt
    have hop := op.toNat_lt
    have hop' := op'.toNat_lt
    refine ⟨UInt16.toNat_inj.mp ?_, UInt16.toNat_inj.mp ?_, UInt16.toNat_inj.mp ?_⟩ <;> omega
  · rintro ⟨rfl, rfl, rfl⟩
    rfl

theorem toUInt16_inj {worker worker' : UInt32} (h : worker.toNat < 2 ^ 16)
    (h' : worker'.toNat < 2 ^ 16) : worker.toUInt16 = worker'.toUInt16 ↔ worker = worker' := by
  constructor
  · intro hsame
    have hnat := congrArg UInt16.toNat hsame
    rw [UInt32.toNat_toUInt16, UInt32.toNat_toUInt16, Nat.mod_eq_of_lt h, Nat.mod_eq_of_lt h']
      at hnat
    exact UInt32.toNat_inj.mp hnat
  · exact fun hsame => congrArg UInt32.toUInt16 hsame

/-! ## What has been saved -/

/-- What identifies an item of a worker: thread, operator and key. -/
abbrev SaveId := UInt16 × UInt16 × UInt64

namespace BackupItem

/-- A request that saves an item. -/
def IsSave (item : BackupItem) : Prop := item.info.backupOp = 0 ∧ item.data.len ≠ 0

instance (item : BackupItem) : Decidable item.IsSave := inferInstanceAs (Decidable (_ ∧ _))

def saveId (item : BackupItem) : SaveId := (item.info.threadId, item.info.opIndex, item.data.key)

/-- The requests of a worker with a 16-bit id: a save of at most 256 bytes, a count
request or a data request. -/
structure ValidRequest (item : BackupItem) : Prop where
  worker_lt : item.info.workerId.toNat < 2 ^ 16
  op_le : item.info.backupOp.toNat ≤ 2
  save : item.info.backupOp = 0 → item.data.len ≠ 0 ∧ item.Fits

theorem ValidRequest.op_cases {item : BackupItem} (h : item.ValidRequest) :
    item.IsSave ∨ item.info.backupOp = 1 ∨ item.info.backupOp = 2 := by
  by_cases hop : item.info.backupOp = 0
  · exact .inl ⟨hop, (h.save hop).1⟩
  · right
    have hle := h.op_le
    have hne : item.info.backupOp.toNat ≠ 0 := fun hzero => hop (UInt32.toNat_inj.mp hzero)
    rcases (show item.info.backupOp.toNat = 1 ∨ item.info.backupOp.toNat = 2 by omega) with
      hone | htwo
    · exact .inl (UInt32.toNat_inj.mp hone)
    · exact .inr (UInt32.toNat_inj.mp htwo)

end BackupItem

namespace BackupServer

/-- The saves of a worker, in the order in which they were served. -/
def saves (requests : List BackupItem) (worker : UInt32) : List BackupItem :=
  requests.filter fun r => r.IsSave ∧ r.info.workerId = worker

/-- The most recent save of an item. -/
def lastSave (requests : List BackupItem) (worker : UInt32) (id : SaveId) : Option BackupItem :=
  (saves requests worker).reverse.find? fun r => r.saveId = id

/-- The items that a worker has saved. -/
def savedIds (requests : List BackupItem) (worker : UInt32) : Finset SaveId :=
  ((saves requests worker).map BackupItem.saveId).toFinset

/-- The saves of one operator as a store. -/
def opStore (requests : List BackupItem) (opKey : UInt64) : KeyedSlots UInt64 BackupItem :=
  ((requests.filter fun r => r.IsSave ∧ r.opKey = opKey).map fun r => (r.data.key, r)).foldl
    (fun store entry => store.put entry.1 entry.2) .empty

variable {requests : List BackupItem} {r : BackupItem} {worker : UInt32}

theorem opStore_concat (requests : List BackupItem) (r : BackupItem) (opKey : UInt64) :
    opStore (requests ++ [r]) opKey =
      if r.IsSave ∧ r.opKey = opKey then (opStore requests opKey).put r.data.key r
      else opStore requests opKey := by
  rw [opStore, List.filter_append, List.map_append, List.foldl_append]
  by_cases h : r.IsSave ∧ r.opKey = opKey
  · have hkept : [r].filter (fun r => r.IsSave ∧ r.opKey = opKey) = [r] := by
      simp [h.1, h.2]
    rw [if_pos h, hkept]
    rfl
  · have hdropped : [r].filter (fun r => r.IsSave ∧ r.opKey = opKey) = [] := by
      simpa using h
    rw [if_neg h, hdropped]
    rfl

theorem lookup_map_key (items : List BackupItem) (key : UInt64) :
    (items.map fun r => (r.data.key, r)).lookup key = items.find? fun r => r.data.key = key := by
  induction items with
  | nil => rfl
  | cons item rest ih =>
      rw [List.map_cons, KeyedSlots.lookup_cons_eq, ih, List.find?_cons]
      by_cases hkey : key = item.data.key
      · simp [hkey]
      · simp [hkey, Ne.symm hkey]

/-- The key of an operator determines it, for workers with 16-bit ids. -/
theorem opKey_eq_iff (hr : r.info.workerId.toNat < 2 ^ 16) (hworker : worker.toNat < 2 ^ 16)
    (thread op : UInt16) :
    r.opKey = makeOpKey worker.toUInt16 thread op.toUInt32 ↔
      r.info.workerId = worker ∧ r.info.threadId = thread ∧ r.info.opIndex = op := by
  rw [BackupItem.opKey, makeOpKey_inj, toUInt16_inj hr hworker]

theorem find?_congr_of_mem {T : Type} {p q : T → Bool} {l : List T}
    (h : ∀ a ∈ l, p a = q a) : l.find? p = l.find? q := by
  induction l with
  | nil => rfl
  | cons a rest ih =>
      rw [List.find?_cons, List.find?_cons, h a List.mem_cons_self,
        ih fun b hb => h b (List.mem_cons_of_mem a hb)]

/-- The store of an operator holds its most recent saves. -/
theorem get?_opStore (hvalid : ∀ r ∈ requests, r.ValidRequest) (hworker : worker.toNat < 2 ^ 16)
    (thread op : UInt16) (key : UInt64) :
    (opStore requests (makeOpKey worker.toUInt16 thread op.toUInt32)).get? key =
      lastSave requests worker (thread, op, key) := by
  have hempty : (KeyedSlots.empty : KeyedSlots UInt64 BackupItem).get? key = none := rfl
  rw [opStore, KeyedSlots.get?_foldl_put, hempty, Option.or_none, ← List.map_reverse,
    lookup_map_key, lastSave, saves, ← List.filter_reverse, ← List.filter_reverse,
    List.find?_filter, List.find?_filter]
  refine find?_congr_of_mem fun r hr => ?_
  have hr' := (hvalid r (List.mem_reverse.mp hr)).worker_lt
  rw [Bool.eq_iff_iff]
  simp only [decide_eq_true_eq, opKey_eq_iff hr' hworker, BackupItem.saveId, Prod.mk.injEq]
  tauto

theorem lastSave_eq_some {id : SaveId} (h : lastSave requests worker id = some r) :
    r ∈ saves requests worker ∧ r.saveId = id := by
  refine ⟨List.mem_reverse.mp (List.mem_of_find?_eq_some h), ?_⟩
  simpa using List.find?_some h

/-- One more request. -/
theorem lastSave_concat (requests : List BackupItem) (r : BackupItem) (worker : UInt32)
    (id : SaveId) :
    lastSave (requests ++ [r]) worker id =
      if r.IsSave ∧ r.info.workerId = worker ∧ r.saveId = id then some r
      else lastSave requests worker id := by
  rw [lastSave, saves, List.filter_append, List.reverse_append]
  by_cases hsave : r.IsSave ∧ r.info.workerId = worker
  · have hkept : [r].filter (fun r => r.IsSave ∧ r.info.workerId = worker) = [r] := by
      simp [hsave.1, hsave.2]
    rw [hkept, List.reverse_singleton, List.singleton_append, List.find?_cons]
    by_cases hid : r.saveId = id
    · simp [hsave.1, hsave.2, hid]
    · rw [if_neg fun h => hid h.2.2, decide_eq_false hid]
      rfl
  · have hdropped : [r].filter (fun r => r.IsSave ∧ r.info.workerId = worker) = [] := by
      simpa using hsave
    rw [hdropped, if_neg fun h => hsave ⟨h.1, h.2.1⟩]
    rfl

theorem mem_savedIds {id : SaveId} :
    id ∈ savedIds requests worker ↔ ∃ r, lastSave requests worker id = some r := by
  rw [← Option.isSome_iff_exists, lastSave, List.find?_isSome]
  simp [savedIds]

theorem savedIds_mono (requests more : List BackupItem) (worker : UInt32) :
    savedIds requests worker ⊆ savedIds (requests ++ more) worker := by
  intro id hid
  simp only [savedIds, saves, List.mem_toFinset, List.filter_append, List.map_append,
    List.mem_append] at hid ⊢
  exact .inl hid

end BackupServer

end AFStream.FaultTolerance

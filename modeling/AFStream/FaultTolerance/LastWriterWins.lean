/-
# The backup server is a last-writer-wins store

The invariant ties the two indexes and the slot tables to the requests served so far:
each operator that has saved something has one table of its own, which refines the
store of its saves, and the second index lists the tables of a worker once each. A data
request then returns one item for each saved id, with what was saved last, whenever the
reply is short enough to be sent.
-/

import AFStream.FaultTolerance.BackupServer

namespace AFStream.FaultTolerance

open AFStream.Foundation

namespace BackupServer

/-- The server against the requests it has served. -/
structure Inv (requests : List BackupItem) (s : BackupServer) : Prop where
  running : s.left = false
  stores : ∀ key address, s.ops key = some address →
    ∃ content, s.contents[address]? = some content ∧ content.Refines (opStore requests key)
  injective : ∀ key key' address, s.ops key = some address → s.ops key' = some address →
    key = key'
  absent : ∀ key, s.ops key = none → opStore requests key = .empty
  owned : ∀ address < s.contents.length, ∃ key, s.ops key = some address
  workers : ∀ worker, ∃ ids : List (UInt16 × UInt16), ids.Nodup ∧
    (s.workerOpsNew worker).map some =
      ids.map (fun id => s.ops (makeOpKey worker id.1 id.2.toUInt32)) ∧
    ∀ id : UInt16 × UInt16, s.ops (makeOpKey worker id.1 id.2.toUInt32) ≠ none → id ∈ ids

variable {garbage : ℕ → BackupItem} {numSender : ℕ} {requests : List BackupItem}
  {s s' : BackupServer} {r : BackupItem} {worker : UInt32}

theorem create_inv : create.Inv [] where
  running := rfl
  stores := by
    intro key address h
    cases h
  injective := by
    intro key key' address h
    cases h
  absent := fun _ _ => rfl
  owned := by
    intro address h
    cases h
  workers := by
    intro worker
    refine ⟨[], List.nodup_nil, rfl, ?_⟩
    intro id h
    exact absurd rfl h

/-- A request that saves nothing leaves indexes and tables as they are. -/
theorem Inv.of_not_save (h : s.Inv requests) (hr : ¬ r.IsSave) (hleft : s'.left = false)
    (hops : s'.ops = s.ops) (hcontents : s'.contents = s.contents)
    (hworkers : s'.workerOpsNew = s.workerOpsNew) : s'.Inv (requests ++ [r]) := by
  have hstore : ∀ key, opStore (requests ++ [r]) key = opStore requests key := by
    intro key
    rw [opStore_concat, if_neg fun hsave => hr hsave.1]
  constructor
  · exact hleft
  · rw [hops, hcontents]
    intro key address hkey
    rw [hstore]
    exact h.stores key address hkey
  · rw [hops]
    exact h.injective
  · rw [hops]
    intro key hkey
    rw [hstore]
    exact h.absent key hkey
  · rw [hops, hcontents]
    exact h.owned
  · rw [hops, hworkers]
    exact h.workers

/-- A new table at the end of the heap, entered into both indexes. -/
theorem Inv.newContent (h : s.Inv requests) {workerId thread op : UInt16}
    (hnone : s.ops (makeOpKey workerId thread op.toUInt32) = none)
    (hleft : s'.left = false) (hcontents : s'.contents = s.contents ++ [.create])
    (hops : s'.ops = Function.update s.ops (makeOpKey workerId thread op.toUInt32)
      (some s.contents.length))
    (hworkers : s'.workerOpsNew = Function.update s.workerOpsNew workerId
      (s.workerOpsNew workerId ++ [s.contents.length])) : s'.Inv requests := by
  have hlt : ∀ key address, s.ops key = some address → address < s.contents.length := by
    intro key address hkey
    obtain ⟨content, hcontent, -⟩ := h.stores key address hkey
    exact (List.getElem?_eq_some_iff.mp hcontent).1
  have hold : ∀ key, key ≠ makeOpKey workerId thread op.toUInt32 → s'.ops key = s.ops key := by
    intro key hne
    rw [hops, Function.update_of_ne hne]
  have hnew : s'.ops (makeOpKey workerId thread op.toUInt32) = some s.contents.length := by
    rw [hops, Function.update_self]
  constructor
  · exact hleft
  · intro key address hkey
    by_cases hsame : key = makeOpKey workerId thread op.toUInt32
    · rw [hsame, hnew] at hkey
      obtain rfl := Option.some.inj hkey
      refine ⟨.create, ?_, ?_⟩
      · rw [hcontents, List.getElem?_concat_length]
      · rw [hsame, h.absent _ hnone]
        exact BackupContent.create_refines
    · rw [hold key hsame] at hkey
      rw [hcontents, List.getElem?_append_left (hlt key address hkey)]
      exact h.stores key address hkey
  · intro key key' address hkey hkey'
    by_cases hsame : key = makeOpKey workerId thread op.toUInt32 <;>
      by_cases hsame' : key' = makeOpKey workerId thread op.toUInt32
    · rw [hsame, hsame']
    · rw [hsame, hnew] at hkey
      rw [hold key' hsame', ← hkey] at hkey'
      exact absurd (hlt key' _ hkey') (lt_irrefl _)
    · rw [hsame', hnew] at hkey'
      rw [hold key hsame, ← hkey'] at hkey
      exact absurd (hlt key _ hkey) (lt_irrefl _)
    · rw [hold key hsame] at hkey
      rw [hold key' hsame'] at hkey'
      exact h.injective key key' address hkey hkey'
  · intro key hkey
    by_cases hsame : key = makeOpKey workerId thread op.toUInt32
    · rw [hsame, hnew] at hkey
      cases hkey
    · exact h.absent key (hold key hsame ▸ hkey)
  · intro address haddress
    rw [hcontents, List.length_append, List.length_singleton] at haddress
    by_cases hlast : address = s.contents.length
    · exact ⟨_, hlast ▸ hnew⟩
    · obtain ⟨key, hkey⟩ := h.owned address (by omega)
      refine ⟨key, (hold key fun hsame => ?_).trans hkey⟩
      rw [hsame, hnone] at hkey
      cases hkey
  · intro other
    obtain ⟨ids, hnodup, hmap, hcomplete⟩ := h.workers other
    by_cases hother : other = workerId
    · subst hother
      have hfresh : (thread, op) ∉ ids := by
        intro hmem
        have hsome := List.mem_map_of_mem
          (f := fun id : UInt16 × UInt16 => s.ops (makeOpKey other id.1 id.2.toUInt32)) hmem
        rw [← hmap, List.mem_map] at hsome
        obtain ⟨address, -, haddress⟩ := hsome
        rw [hnone] at haddress
        cases haddress
      have hne : ∀ id : UInt16 × UInt16, id ≠ (thread, op) →
          s'.ops (makeOpKey other id.1 id.2.toUInt32) =
            s.ops (makeOpKey other id.1 id.2.toUInt32) := by
        intro id hid
        apply hold
        intro hsame
        obtain ⟨-, hthread, hop⟩ := makeOpKey_inj.mp hsame
        exact hid (Prod.ext hthread hop)
      refine ⟨ids ++ [(thread, op)], List.nodup_append.mpr ⟨hnodup, List.nodup_singleton _, ?_⟩,
        ?_, ?_⟩
      · intro a ha b hb hab
        rw [hab, List.mem_singleton.mp hb] at ha
        exact hfresh ha
      · rw [hworkers, Function.update_self, List.map_append, List.map_append, hmap]
        congr 1
        · apply List.map_congr_left
          intro id hid
          exact (hne id fun hsame => hfresh (hsame ▸ hid)).symm
        · exact congrArg (fun o => [o]) hnew.symm
      · intro id hid
        by_cases hsame : id = (thread, op)
        · rw [hsame]
          exact List.mem_append_right _ List.mem_cons_self
        · rw [hne id hsame] at hid
          exact List.mem_append_left _ (hcomplete id hid)
    · have hne : ∀ id : UInt16 × UInt16, s'.ops (makeOpKey other id.1 id.2.toUInt32) =
          s.ops (makeOpKey other id.1 id.2.toUInt32) := by
        intro id
        apply hold
        intro hsame
        exact hother (makeOpKey_inj.mp hsame).1
      refine ⟨ids, hnodup, ?_, ?_⟩
      · rw [hworkers, Function.update_of_ne hother, hmap]
        exact List.map_congr_left fun id _ => (hne id).symm
      · intro id hid
        exact hcomplete id (hne id ▸ hid)

/-- After `findContent` the operator has a table. -/
theorem Inv.findContent (h : s.Inv requests) :
    ∃ address s', s.findContent = (address, s') ∧ s'.Inv requests ∧
      s'.backupItem = s.backupItem ∧ s'.ops s.backupItem.opKey = some address := by
  cases hkey : s.ops s.backupItem.opKey with
  | some address =>
      refine ⟨address, s, ?_, h, rfl, hkey⟩
      simp only [BackupServer.findContent, hkey]
  | none =>
      refine ⟨s.contents.length, { s with
        contents := s.contents ++ [.create]
        ops := Function.update s.ops s.backupItem.opKey (some s.contents.length)
        workerOpsNew := Function.update s.workerOpsNew s.backupItem.info.workerId.toUInt16
          (s.workerOpsNew s.backupItem.info.workerId.toUInt16 ++ [s.contents.length]) },
        ?_, ?_, rfl, ?_⟩
      · simp only [BackupServer.findContent, hkey]
      · exact h.newContent hkey h.running rfl rfl rfl
      · exact Function.update_self _ _ _

/-- The table of an operator after a save. -/
theorem Inv.setContent (h : s.Inv requests) (hr : r.IsSave) {address : ℕ}
    (hkey : s.ops r.opKey = some address) {content : BackupContent}
    (hcontent : content.Refines ((opStore requests r.opKey).put r.data.key r)) :
    Inv (requests ++ [r]) { s with contents := s.contents.set address content } := by
  obtain ⟨old, hold, -⟩ := h.stores r.opKey address hkey
  have hlt := (List.getElem?_eq_some_iff.mp hold).1
  constructor
  · exact h.running
  · intro key address' hkey'
    rw [opStore_concat]
    by_cases hsame : key = r.opKey
    · rw [hsame, hkey] at hkey'
      obtain rfl := Option.some.inj hkey'
      refine ⟨content, ?_, ?_⟩
      · exact List.getElem?_set_self hlt
      · rw [if_pos ⟨hr, hsame.symm⟩, hsame]
        exact hcontent
    · have hne : address ≠ address' := by
        intro haddress
        exact hsame (h.injective key r.opKey address (haddress ▸ hkey') hkey)
      rw [if_neg fun hsave => hsame hsave.2.symm]
      change ∃ c, (s.contents.set address content)[address']? = some c ∧ _
      rw [List.getElem?_set_ne hne]
      exact h.stores key address' hkey'
  · exact h.injective
  · intro key hnone
    rw [opStore_concat, if_neg]
    · exact h.absent key hnone
    · rintro ⟨-, hsame⟩
      rw [← hsame, hkey] at hnone
      cases hnone
  · intro address' haddress
    change address' < (s.contents.set address content).length at haddress
    rw [List.length_set] at haddress
    exact h.owned address' haddress
  · exact h.workers

/-! ## Every request keeps the invariant -/

/-- The ids of the items in the store of an operator. -/
def storeIds (requests : List BackupItem) (worker : UInt32) (id : UInt16 × UInt16) :
    List SaveId :=
  ((opStore requests (makeOpKey worker.toUInt16 id.1 id.2.toUInt32)).entries.map Prod.fst).map
    fun key => (id.1, id.2, key)

theorem nodup_storeIds (requests : List BackupItem) (worker : UInt32) (id : UInt16 × UInt16) :
    (storeIds requests worker id).Nodup := by
  apply List.Nodup.map
  · intro key key' hsame
    exact (Prod.mk.inj (Prod.mk.inj hsame).2).2
  · exact KeyedSlots.nodup_keys _

theorem mem_storeIds (hvalid : ∀ r ∈ requests, r.ValidRequest) (hworker : worker.toNat < 2 ^ 16)
    {id : UInt16 × UInt16} {saveId : SaveId} :
    saveId ∈ storeIds requests worker id ↔
      (saveId.1, saveId.2.1) = id ∧ ∃ r, lastSave requests worker saveId = some r := by
  obtain ⟨thread, op, key⟩ := saveId
  obtain ⟨thread', op'⟩ := id
  simp only [storeIds, List.mem_map, Prod.mk.injEq]
  constructor
  · rintro ⟨_, ⟨⟨key', r⟩, hentry, rfl⟩, rfl, rfl, rfl⟩
    rw [KeyedSlots.mem_entries_iff, get?_opStore hvalid hworker] at hentry
    exact ⟨⟨rfl, rfl⟩, r, hentry⟩
  · rintro ⟨⟨rfl, rfl⟩, r, hlast⟩
    rw [← get?_opStore hvalid hworker, ← KeyedSlots.mem_entries_iff] at hlast
    exact ⟨key, ⟨(key, r), hlast, rfl⟩, rfl, rfl, rfl⟩

/-- The table of an operator has no more entries than its worker has saved items. -/
theorem length_opStore_le (hvalid : ∀ r ∈ requests, r.ValidRequest)
    (hworker : worker.toNat < 2 ^ 16) (thread op : UInt16) :
    (opStore requests (makeOpKey worker.toUInt16 thread op.toUInt32)).entries.length ≤
      (savedIds requests worker).card := by
  have hlength : (storeIds requests worker (thread, op)).length =
      (opStore requests (makeOpKey worker.toUInt16 thread op.toUInt32)).entries.length := by
    rw [storeIds, List.length_map, List.length_map]
  rw [← hlength, ← List.toFinset_card_of_nodup (nodup_storeIds requests worker (thread, op))]
  apply Finset.card_le_card
  intro id hid
  rw [List.mem_toFinset, mem_storeIds hvalid hworker] at hid
  exact mem_savedIds.mpr hid.2

/-- What the server may be asked: valid requests, with few enough items per worker. -/
structure Accepted (requests : List BackupItem) : Prop where
  valid : ∀ r ∈ requests, r.ValidRequest
  bounded : ∀ worker, sizeofBackupItem * (savedIds requests worker).card < 2 ^ 32

theorem Accepted.of_append {more : List BackupItem} (h : Accepted (requests ++ more)) :
    Accepted requests where
  valid := fun r hr => h.valid r (List.mem_append_left more hr)
  bounded := by
    intro worker
    have hcard := Finset.card_le_card (savedIds_mono requests more worker)
    exact lt_of_le_of_lt (Nat.mul_le_mul_left _ hcard) (h.bounded worker)

variable (garbage numSender) in
/-- A save is always served. -/
theorem Inv.handle_save (h : s.Inv requests) (haccepted : Accepted requests)
    (hvalid : r.ValidRequest) (hr : r.IsSave) :
    ∃ s', s.handle garbage numSender r = some (.empty, s') ∧ s'.Inv (requests ++ [r]) := by
  have hitem : (s.receive r).backupItem.Carries r :=
    BackupItem.copyBackupItem_carries _ (hvalid.save hr.1).2
  have h₁ : (s.receive r).Inv requests :=
    ⟨h.running, h.stores, h.injective, h.absent, h.owned, h.workers⟩
  obtain ⟨address, s₂, hfind, h₂, hbuffer, hkey⟩ := h₁.findContent
  change s₂.ops r.opKey = some address at hkey
  obtain ⟨content, hcontent, hrefines⟩ := h₂.stores _ _ hkey
  have hroom : (opStore requests r.opKey).entries.length < 2 ^ 30 := by
    have hle := length_opStore_le haccepted.valid hvalid.worker_lt r.info.threadId
      r.info.opIndex
    have hbound := haccepted.bounded r.info.workerId
    change (opStore requests r.opKey).entries.length ≤ _ at hle
    simp only [sizeofBackupItem, maxBackupItemDataLen] at hbound
    omega
  obtain ⟨content', hsave, hrefines'⟩ := hrefines.saveBackup garbage hitem hroom
  refine ⟨{ s₂ with contents := s₂.contents.set address content' }, ?_,
    h₂.setContent hr hkey hrefines'⟩
  rw [BackupServer.handle_save h.running hr.1 hr.2]
  simp only [BackupServer.save, hfind, hcontent, Option.bind_some, hbuffer, hsave,
    Option.map_some]

/-- Every request that is served keeps the invariant. -/
theorem Inv.handle (h : s.Inv requests) (haccepted : Accepted (requests ++ [r])) {reply : Reply}
    (hhandle : s.handle garbage numSender r = some (reply, s')) : s'.Inv (requests ++ [r]) := by
  have hvalid := haccepted.valid r (List.mem_append_right _ List.mem_cons_self)
  rcases hvalid.op_cases with hr | hop | hop
  · obtain ⟨s₁, hs₁, h₁⟩ := h.handle_save garbage numSender haccepted.of_append hvalid hr
    obtain ⟨-, rfl⟩ := Prod.mk.inj (Option.some.inj (hs₁.symm.trans hhandle))
    exact h₁
  · rw [handle_count h.running hop] at hhandle
    obtain ⟨-, rfl⟩ := Prod.mk.inj (Option.some.inj hhandle)
    exact h.of_not_save (fun hr => by simp [hr.1] at hop) h.running rfl rfl rfl
  · rw [handle_data h.running hop] at hhandle
    obtain ⟨reply', -, hreply⟩ := Option.map_eq_some_iff.mp hhandle
    obtain ⟨-, rfl⟩ := Prod.mk.inj hreply
    exact h.of_not_save (fun hr => by simp [hr.1] at hop) h.running rfl rfl rfl

/-- The invariant holds after every run. -/
theorem Inv.run (garbage : ℕ → BackupItem) (numSender : ℕ) (haccepted : Accepted requests)
    (hrun : (machine garbage numSender).runFrom create requests = some s) : s.Inv requests := by
  induction requests using List.reverseRecOn generalizing s with
  | nil =>
      obtain rfl := Option.some.inj hrun
      exact create_inv
  | append_singleton rest r ih =>
      obtain ⟨middle, hmiddle, hstep⟩ := Machine.runFrom_concat_eq_some.mp hrun
      obtain ⟨⟨reply, next⟩, hhandle, rfl⟩ := Option.map_eq_some_iff.mp hstep
      exact (ih haccepted.of_append hmiddle).handle haccepted hhandle

/-! ## Replies -/

/-- The items of several stores, one store after the other. -/
def storeItems (stores : List (KeyedSlots UInt64 BackupItem)) : List BackupItem :=
  stores.flatMap fun store => store.entries.map Prod.snd

theorem storeItems_cons (store : KeyedSlots UInt64 BackupItem)
    (stores : List (KeyedSlots UInt64 BackupItem)) :
    storeItems (store :: stores) = store.entries.map Prod.snd ++ storeItems stores :=
  List.flatMap_cons

/-- The stores of some operators of a worker. -/
def workerStores (requests : List BackupItem) (worker : UInt32) (ids : List (UInt16 × UInt16)) :
    List (KeyedSlots UInt64 BackupItem) :=
  ids.map fun id => opStore requests (makeOpKey worker.toUInt16 id.1 id.2.toUInt32)

/-- All operators of a worker that have saved something, each once. -/
structure OperatorIds (requests : List BackupItem) (worker : UInt32)
    (ids : List (UInt16 × UInt16)) : Prop where
  nodup : ids.Nodup
  complete : ∀ id : UInt16 × UInt16,
    opStore requests (makeOpKey worker.toUInt16 id.1 id.2.toUInt32) ≠ .empty → id ∈ ids

/-- The tables of a worker refine the stores of its operators. -/
theorem Inv.workerContents (h : s.Inv requests) (worker : UInt32) :
    ∃ ids, OperatorIds requests worker ids ∧
      List.Forall₂ BackupContent.Refines (s.workerContents worker.toUInt16)
        (workerStores requests worker ids) := by
  obtain ⟨ids, hnodup, hmap, hcomplete⟩ := h.workers worker.toUInt16
  refine ⟨ids, ⟨hnodup, ?_⟩, ?_⟩
  · intro id hid
    exact hcomplete id fun hnone => hid (h.absent _ hnone)
  · rw [BackupServer.workerContents]
    clear hnodup hcomplete
    generalize s.workerOpsNew worker.toUInt16 = addresses at hmap
    induction ids generalizing addresses with
    | nil =>
        obtain rfl : addresses = [] := by simpa using hmap
        exact .nil
    | cons id rest ih =>
        cases addresses with
        | nil => simp at hmap
        | cons address addresses =>
            rw [List.map_cons, List.map_cons, List.cons.injEq] at hmap
            obtain ⟨content, hcontent, hrefines⟩ := h.stores _ _ hmap.1.symm
            rw [List.filterMap_cons_some hcontent]
            exact .cons hrefines (ih addresses hmap.2)

variable {contents : List BackupContent} {stores : List (KeyedSlots UInt64 BackupItem)}

/-- The tables have one used slot for each item of their stores. -/
theorem itemCount_eq (hrefines : List.Forall₂ BackupContent.Refines contents stores) :
    itemCount contents = (storeItems stores).length := by
  induction hrefines with
  | nil => rfl
  | cons hhead _ ih =>
      rw [itemCount_cons, storeItems_cons, List.length_append, List.length_map, ih,
        BackupContent.getCount, hhead.used_eq]

/-- The loop that counts, if the sum has 32 bits. -/
theorem totCount_of_refines (hrefines : List.Forall₂ BackupContent.Refines contents stores)
    (hbound : (storeItems stores).length < 2 ^ 32) :
    totCount contents = (storeItems stores).length := by
  rw [totCount_eq, itemCount_eq hrefines, Nat.mod_eq_of_lt hbound]

/-- The loop that fills the reply, from any start. -/
theorem appendAll_eq (hrefines : List.Forall₂ BackupContent.Refines contents stores)
    {ret : RecoveryItem} {total : ℕ} {items : List BackupItem} (hfilled : ret.Filled total items)
    (hroom : items.length + (storeItems stores).length ≤ total) (htotal : total < 2 ^ 32) :
    ∃ ret' curCount, appendAll contents (ret, items.length) = some (ret', curCount) ∧
      ret'.count = ret.count ∧ ret'.Filled total (items ++ storeItems stores) := by
  induction hrefines generalizing ret items with
  | nil => exact ⟨ret, items.length, rfl, rfl, by simpa [storeItems] using hfilled⟩
  | @cons content store contents stores hhead hrest ih =>
      rw [storeItems_cons, List.length_append, List.length_map] at hroom
      obtain ⟨ret₁, happend, hcount, hfilled₁⟩ :=
        hhead.appendRecoveryItem hfilled (by omega) htotal
      have hlength : (items ++ store.entries.map Prod.snd).length =
          (items.length + content.getCount) % 2 ^ 32 := by
        rw [List.length_append, List.length_map, BackupContent.getCount, hhead.used_eq,
          Nat.mod_eq_of_lt (by omega)]
      obtain ⟨ret', curCount, hrest', hcount', hfilled'⟩ :=
        ih hfilled₁ (by rw [List.length_append, List.length_map]; omega)
      refine ⟨ret', curCount, ?_, hcount'.trans hcount, ?_⟩
      · rw [appendAll, List.foldlM_cons, happend]
        rw [hlength] at hrest'
        exact hrest'
      · rwa [storeItems_cons, ← List.append_assoc]

variable (garbage) in
/-- What a data request computes, and when it can be sent. -/
theorem recoveryData_eq {workerId : UInt16}
    (hrefines : List.Forall₂ BackupContent.Refines (s.workerContents workerId) stores)
    (hbound : 4 + sizeofBackupItem * (storeItems stores).length < 2 ^ 32) :
    ∃ ret, ret.count = (storeItems stores).length ∧
      ret.Filled (storeItems stores).length (storeItems stores) ∧
      s.recoveryData garbage workerId =
        if 4 + sizeofBackupItem * (storeItems stores).length < 2 ^ 31 then some (.data ret)
        else none := by
  have hsmall : (storeItems stores).length < 2 ^ 32 := by
    simp only [sizeofBackupItem, maxBackupItemDataLen] at hbound
    omega
  have htot := totCount_of_refines hrefines hsmall
  obtain ⟨ret, curCount, happend, hcount, hfilled⟩ :=
    appendAll_eq hrefines (RecoveryItem.create_filled garbage hbound) (by simp) hsmall
  refine ⟨ret, hcount, hfilled, ?_⟩
  rw [recoveryData, htot]
  simp only [List.length_nil] at happend
  rw [happend, Option.bind_some, zWrite, RecoveryItem.size, Nat.mod_eq_of_lt hbound]

/-! ## The items of a worker -/

/-- One slot for each saved id of the worker, carrying the most recent save. -/
structure LastSaves (requests : List BackupItem) (worker : UInt32) (slots : List BackupItem) :
    Prop where
  nodup : (slots.map BackupItem.saveId).Nodup
  complete : ∀ id, id ∈ slots.map BackupItem.saveId ↔ id ∈ savedIds requests worker
  carries : ∀ slot ∈ slots, slot.info.workerId = worker ∧
    ∃ save, lastSave requests worker slot.saveId = some save ∧ slot.Carries save

variable {ids : List (UInt16 × UInt16)}

/-- Every stored item is the most recent save with its id. -/
theorem lastSave_of_mem_entries (hvalid : ∀ r ∈ requests, r.ValidRequest)
    (hworker : worker.toNat < 2 ^ 16) {id : UInt16 × UInt16} {entry : UInt64 × BackupItem}
    (hentry : entry ∈ (opStore requests
      (makeOpKey worker.toUInt16 id.1 id.2.toUInt32)).entries) :
    lastSave requests worker (id.1, id.2, entry.1) = some entry.2 ∧
      entry.2.saveId = (id.1, id.2, entry.1) := by
  have hlast : lastSave requests worker (id.1, id.2, entry.1) = some entry.2 := by
    rw [← get?_opStore hvalid hworker, ← KeyedSlots.mem_entries_iff]
    exact hentry
  exact ⟨hlast, (lastSave_eq_some hlast).2⟩

theorem lastSave_of_mem_storeItems (hvalid : ∀ r ∈ requests, r.ValidRequest)
    (hworker : worker.toNat < 2 ^ 16) (hr : r ∈ storeItems (workerStores requests worker ids)) :
    lastSave requests worker r.saveId = some r := by
  obtain ⟨store, hstore, hmem⟩ := List.mem_flatMap.mp hr
  obtain ⟨id, -, rfl⟩ := List.mem_map.mp hstore
  obtain ⟨entry, hentry, rfl⟩ := List.mem_map.mp hmem
  obtain ⟨hlast, hid⟩ := lastSave_of_mem_entries hvalid hworker hentry
  rw [hid, hlast]

theorem map_saveId_storeItems (hvalid : ∀ r ∈ requests, r.ValidRequest)
    (hworker : worker.toNat < 2 ^ 16) :
    (storeItems (workerStores requests worker ids)).map BackupItem.saveId =
      ids.flatMap (storeIds requests worker) := by
  rw [storeItems, workerStores, List.flatMap_map, List.map_flatMap]
  apply List.flatMap_congr
  intro id _
  rw [storeIds, List.map_map, List.map_map]
  apply List.map_congr_left
  intro entry hentry
  exact (lastSave_of_mem_entries hvalid hworker hentry).2

/-- No id occurs twice. -/
theorem OperatorIds.nodup_saveId (hids : OperatorIds requests worker ids)
    (hvalid : ∀ r ∈ requests, r.ValidRequest) (hworker : worker.toNat < 2 ^ 16) :
    ((storeItems (workerStores requests worker ids)).map BackupItem.saveId).Nodup := by
  rw [map_saveId_storeItems hvalid hworker, List.nodup_flatMap]
  refine ⟨fun id _ => nodup_storeIds requests worker id, ?_⟩
  apply hids.nodup.imp
  intro id id' hne saveId hmem hmem'
  rw [mem_storeIds hvalid hworker] at hmem hmem'
  exact hne (hmem.1.symm.trans hmem'.1)

/-- Every saved id occurs. -/
theorem OperatorIds.mem_saveId (hids : OperatorIds requests worker ids)
    (hvalid : ∀ r ∈ requests, r.ValidRequest) (hworker : worker.toNat < 2 ^ 16)
    (saveId : SaveId) :
    saveId ∈ (storeItems (workerStores requests worker ids)).map BackupItem.saveId ↔
      saveId ∈ savedIds requests worker := by
  rw [map_saveId_storeItems hvalid hworker, List.mem_flatMap, mem_savedIds]
  constructor
  · rintro ⟨id, -, hmem⟩
    exact ((mem_storeIds hvalid hworker).mp hmem).2
  · rintro ⟨r, hlast⟩
    refine ⟨(saveId.1, saveId.2.1), hids.complete _ ?_, (mem_storeIds hvalid hworker).mpr
      ⟨rfl, r, hlast⟩⟩
    intro hempty
    have hget := get?_opStore hvalid hworker saveId.1 saveId.2.1 saveId.2.2
    rw [hempty, hlast] at hget
    cases hget

theorem OperatorIds.length_storeItems (hids : OperatorIds requests worker ids)
    (hvalid : ∀ r ∈ requests, r.ValidRequest) (hworker : worker.toNat < 2 ^ 16) :
    (storeItems (workerStores requests worker ids)).length = (savedIds requests worker).card := by
  rw [← List.length_map BackupItem.saveId,
    ← List.toFinset_card_of_nodup (hids.nodup_saveId hvalid hworker)]
  congr 1
  ext saveId
  rw [List.mem_toFinset, hids.mem_saveId hvalid hworker]

/-- The slots of a filled reply have the ids of its items. -/
theorem map_saveId_of_filled {items : List BackupItem} {ret : RecoveryItem}
    (hfilled : ret.Filled items.length items) :
    ret.slots.map BackupItem.saveId = items.map BackupItem.saveId := by
  apply List.ext_getElem?
  intro i
  rw [List.getElem?_map, List.getElem?_map]
  cases hitem : items[i]? with
  | none =>
      rw [List.getElem?_eq_none_iff] at hitem
      rw [List.getElem?_eq_none_iff.mpr (hfilled.length_eq.trans_le hitem)]
  | some item =>
      obtain ⟨slot, hslot, hcarries⟩ := hfilled.carries i item hitem
      rw [hslot]
      simp only [Option.map_some, BackupItem.saveId, hcarries.info_eq, hcarries.key_eq]

/-- A reply with the items of all operators is what the worker should get. -/
theorem OperatorIds.lastSaves (hids : OperatorIds requests worker ids)
    (hvalid : ∀ r ∈ requests, r.ValidRequest) (hworker : worker.toNat < 2 ^ 16)
    {ret : RecoveryItem}
    (hfilled : ret.Filled (storeItems (workerStores requests worker ids)).length
      (storeItems (workerStores requests worker ids))) :
    LastSaves requests worker ret.slots := by
  have hmap := map_saveId_of_filled hfilled
  constructor
  · rw [hmap]
    exact hids.nodup_saveId hvalid hworker
  · intro id
    rw [hmap]
    exact hids.mem_saveId hvalid hworker id
  · intro slot hslot
    obtain ⟨i, hi, rfl⟩ := List.getElem_of_mem hslot
    have hitem : i < (storeItems (workerStores requests worker ids)).length :=
      hfilled.length_eq ▸ hi
    obtain ⟨slot, hslot', hcarries⟩ :=
      hfilled.carries i _ (List.getElem?_eq_getElem hitem)
    rw [List.getElem?_eq_getElem hi] at hslot'
    obtain rfl := Option.some.inj hslot'
    have hlast := lastSave_of_mem_storeItems hvalid hworker (List.getElem_mem hitem)
    have hid : ret.slots[i].saveId =
        (storeItems (workerStores requests worker ids))[i].saveId := by
      simp only [BackupItem.saveId, hcarries.info_eq, hcarries.key_eq]
    have hsave := (lastSave_eq_some hlast).1
    rw [saves, List.mem_filter, decide_eq_true_eq] at hsave
    refine ⟨?_, _, hid ▸ hlast, hcarries⟩
    rw [hcarries.info_eq]
    exact hsave.2.2

/-- As many slots as saved items. -/
theorem length_lastSaves {requests : List BackupItem} {worker : UInt32} {slots : List BackupItem}
    (h : LastSaves requests worker slots) :
    slots.length = (savedIds requests worker).card := by
  rw [← List.length_map BackupItem.saveId, ← List.toFinset_card_of_nodup h.nodup]
  congr 1
  ext id
  rw [List.mem_toFinset, h.complete]

theorem savedIds_congr {requests' : List BackupItem}
    (hsaves : saves requests worker = saves requests' worker) :
    savedIds requests worker = savedIds requests' worker := by
  rw [savedIds, hsaves, savedIds]

/-- Only the saves of the worker matter. -/
theorem LastSaves.congr {requests' slots : List BackupItem}
    (h : LastSaves requests worker slots)
    (hsaves : saves requests worker = saves requests' worker) :
    LastSaves requests' worker slots := by
  have hlast : lastSave requests worker = lastSave requests' worker := by
    funext id
    rw [lastSave, hsaves, lastSave]
  constructor
  · exact h.nodup
  · rw [← savedIds_congr hsaves]
    exact h.complete
  · rw [← hlast]
    exact h.carries

/-! ## Last writer wins -/

/-- The answers to a worker: the number of its saved items, and the items. -/
structure Answers (garbage : ℕ → BackupItem) (numSender : ℕ) (requests : List BackupItem)
    (worker : UInt32) (s : BackupServer) : Prop where
  count : ∀ ask : BackupItem, ask.info.backupOp = 1 → ask.info.workerId = worker →
    ∃ s', s.handle garbage numSender ask = some (.count (savedIds requests worker).card, s')
  data : ∀ ask : BackupItem, ask.info.backupOp = 2 → ask.info.workerId = worker →
    ∃ ret s', s.handle garbage numSender ask = some (.data ret, s') ∧
      ret.count = (savedIds requests worker).card ∧ LastSaves requests worker ret.slots

/-- All tables are consistent, and the answers to a worker are its most recent saves, now
and after any further requests among which it has no save. -/
structure LastWriterWins (garbage : ℕ → BackupItem) (numSender : ℕ)
    (requests : List BackupItem) (worker : UInt32) (s : BackupServer) : Prop where
  tables : ∀ content ∈ s.contents, content.WellFormed
  answers : ∀ between s', Accepted (requests ++ between) →
    (∀ r ∈ between, ¬ (r.IsSave ∧ r.info.workerId = worker)) →
    (machine garbage numSender).runFrom s between = some s' →
    Answers garbage numSender requests worker s'

/-- The size of the reply to a data request. -/
def replySize (requests : List BackupItem) (worker : UInt32) : ℕ :=
  4 + sizeofBackupItem * (savedIds requests worker).card

theorem Accepted.replySize_lt (haccepted : Accepted requests) (worker : UInt32) :
    replySize requests worker < 2 ^ 32 := by
  have hbound := haccepted.bounded worker
  simp only [replySize, sizeofBackupItem, maxBackupItemDataLen] at hbound ⊢
  omega

/-- Replies that can be sent have few enough items. -/
theorem accepted_of_replies {requests : List BackupItem} (hvalid : ∀ r ∈ requests, r.ValidRequest)
    (hreplies : ∀ worker, replySize requests worker < 2 ^ 31) :
    Accepted requests where
  valid := hvalid
  bounded := by
    intro worker
    have hsize := hreplies worker
    rw [replySize] at hsize
    omega

variable (garbage numSender) in
theorem Inv.handle_count (h : s.Inv requests) (haccepted : Accepted requests)
    (hworker : worker.toNat < 2 ^ 16) {ask : BackupItem} (hop : ask.info.backupOp = 1)
    (hask : ask.info.workerId = worker) :
    ∃ s', s.handle garbage numSender ask = some (.count (savedIds requests worker).card, s') := by
  obtain ⟨ids, hids, hrefines⟩ := h.workerContents worker
  have hlength := hids.length_storeItems haccepted.valid hworker
  have hsize := haccepted.replySize_lt worker
  rw [replySize, ← hlength] at hsize
  refine ⟨s.receive ask, ?_⟩
  rw [BackupServer.handle_count h.running hop, hask, totCount_of_refines hrefines, hlength]
  simp only [sizeofBackupItem, maxBackupItemDataLen] at hsize
  omega

variable (garbage numSender) in
theorem Inv.handle_data (h : s.Inv requests) (haccepted : Accepted requests)
    (hworker : worker.toNat < 2 ^ 16) {ask : BackupItem} (hop : ask.info.backupOp = 2)
    (hask : ask.info.workerId = worker) :
    ∃ ret, ret.count = (savedIds requests worker).card ∧
      LastSaves requests worker ret.slots ∧
      s.handle garbage numSender ask =
        if replySize requests worker < 2 ^ 31 then some (.data ret, s.receive ask) else none := by
  obtain ⟨ids, hids, hrefines⟩ := h.workerContents worker
  have hlength := hids.length_storeItems haccepted.valid hworker
  have hsize := haccepted.replySize_lt worker
  rw [replySize, ← hlength] at hsize
  obtain ⟨ret, hcount, hfilled, hdata⟩ := recoveryData_eq garbage hrefines hsize
  refine ⟨ret, hcount.trans hlength, hids.lastSaves haccepted.valid hworker hfilled, ?_⟩
  rw [BackupServer.handle_data h.running hop, hask, hdata, replySize, ← hlength]
  split_ifs <;> rfl

theorem saves_append (requests more : List BackupItem) (worker : UInt32) :
    saves (requests ++ more) worker = saves requests worker ++ saves more worker :=
  List.filter_append requests more

/-- Only its own saves change what a worker has saved. -/
theorem saves_append_of_not_mem (requests : List BackupItem) {between : List BackupItem}
    (hbetween : ∀ r ∈ between, ¬ (r.IsSave ∧ r.info.workerId = worker)) :
    saves (requests ++ between) worker = saves requests worker := by
  have hnone : saves between worker = [] := by
    rw [saves, List.filter_eq_nil_iff]
    intro r hr
    simpa using hbetween r hr
  rw [saves_append, hnone, List.append_nil]

theorem saves_concat_of_not_save (requests : List BackupItem) {r : BackupItem} (hr : ¬ r.IsSave)
    (worker : UInt32) :
    saves (requests ++ [r]) worker = saves requests worker := by
  apply saves_append_of_not_mem
  intro r' hr' hsave
  exact hr (List.mem_singleton.mp hr' ▸ hsave.1)

theorem savedIds_concat_of_not_save (requests : List BackupItem) {r : BackupItem}
    (hr : ¬ r.IsSave) (worker : UInt32) :
    savedIds (requests ++ [r]) worker = savedIds requests worker :=
  savedIds_congr (saves_concat_of_not_save requests hr worker)

/-- A further save of an item that the worker has saved before adds no item. -/
theorem savedIds_concat_of_mem {requests : List BackupItem} {worker : UInt32} (r : BackupItem)
    (hmem : r.saveId ∈ savedIds requests worker) :
    savedIds (requests ++ [r]) worker = savedIds requests worker := by
  rw [savedIds, saves, List.filter_append, List.map_append, List.toFinset_append]
  apply Finset.union_eq_left.mpr
  intro id hid
  obtain ⟨r', hr', rfl⟩ := List.mem_map.mp (List.mem_toFinset.mp hid)
  rw [List.mem_singleton.mp (List.mem_of_mem_filter hr')]
  exact hmem

/-- Every table is consistent. -/
theorem Inv.tables (h : s.Inv requests) : ∀ content ∈ s.contents, content.WellFormed := by
  intro content hcontent
  obtain ⟨address, haddress, rfl⟩ := List.getElem_of_mem hcontent
  obtain ⟨key, hkey⟩ := h.owned address haddress
  obtain ⟨content, hcontent', hrefines⟩ := h.stores key address hkey
  rw [List.getElem?_eq_getElem haddress] at hcontent'
  obtain rfl := Option.some.inj hcontent'
  exact hrefines.wellFormed

variable (garbage numSender) in
/-- A worker with too many items gets no answer. -/
theorem Inv.not_lastWriterWins (h : s.Inv requests) (haccepted : Accepted requests)
    (hworker : worker.toNat < 2 ^ 16) (hlarge : ¬ replySize requests worker < 2 ^ 31) :
    ¬ LastWriterWins garbage numSender requests worker s := by
  intro hwins
  have hanswers := hwins.answers [] s (by simpa using haccepted) (by simp) rfl
  obtain ⟨ask, hop, hask⟩ :
      ∃ ask : BackupItem, ask.info.backupOp = 2 ∧ ask.info.workerId = worker :=
    ⟨⟨⟨2, worker, 0, 0, 0⟩, ⟨0, 0, .zero⟩⟩, rfl, rfl⟩
  obtain ⟨ret, s', hhandle, -⟩ := hanswers.data ask hop hask
  obtain ⟨_, -, -, hnone⟩ := h.handle_data garbage numSender
    haccepted hworker hop hask
  rw [if_neg hlarge, hhandle] at hnone
  cases hnone

/-- **Last writer wins.** For every sequence of valid requests of any clients, with fewer
than `2 ^ 32 / sizeof(BackupItem)` items per worker, and every worker: the tables are
consistent and the worker is answered with its most recent saves, exactly when the reply
with all its items has less than `2 ^ 31` bytes. -/
theorem lastWriterWins_iff (garbage : ℕ → BackupItem) (numSender : ℕ)
    (requests : List BackupItem) (haccepted : Accepted requests)
    (hrun : (machine garbage numSender).runFrom create requests = some s) (worker : UInt32)
    (hworker : worker.toNat < 2 ^ 16) :
    LastWriterWins garbage numSender requests worker s ↔ replySize requests worker < 2 ^ 31 := by
  have h := Inv.run garbage numSender haccepted hrun
  constructor
  · intro hwins
    by_contra hlarge
    exact h.not_lastWriterWins garbage numSender haccepted hworker hlarge hwins
  · intro hsmall
    refine ⟨h.tables, ?_⟩
    intro between s' haccepted' hbetween hrun'
    have h' : s'.Inv (requests ++ between) := by
      apply Inv.run garbage numSender haccepted'
      rw [Machine.runFrom_append, hrun]
      exact hrun'
    have hsaves := saves_append_of_not_mem requests hbetween
    have hids := savedIds_congr hsaves
    constructor
    · intro ask hop hask
      rw [← hids]
      exact h'.handle_count garbage numSender haccepted' hworker hop hask
    · intro ask hop hask
      obtain ⟨ret, hcount, hlastSaves, hhandle⟩ :=
        h'.handle_data garbage numSender haccepted' hworker hop hask
      rw [replySize, hids, ← replySize, if_pos hsmall] at hhandle
      exact ⟨ret, _, hhandle, hids ▸ hcount, hlastSaves.congr hsaves⟩

/-! ## Sequences of saves -/

variable (garbage numSender) in
/-- Saves are served in every state. -/
theorem Inv.run_saves {more : List BackupItem} (h : s.Inv requests)
    (haccepted : Accepted (requests ++ more)) (hsaves : ∀ r ∈ more, r.IsSave) :
    ∃ s', (machine garbage numSender).runFrom s more = some s' ∧ s'.Inv (requests ++ more) := by
  induction more using List.reverseRecOn with
  | nil => exact ⟨s, rfl, by rwa [List.append_nil]⟩
  | append_singleton rest r ih =>
      rw [← List.append_assoc] at haccepted ⊢
      obtain ⟨middle, hmiddle, h'⟩ :=
        ih haccepted.of_append fun r hr => hsaves r (List.mem_append_left _ hr)
      obtain ⟨s', hs', hinv⟩ := h'.handle_save garbage numSender haccepted.of_append
        (haccepted.valid r (List.mem_append_right _ List.mem_cons_self))
        (hsaves r (List.mem_append_right _ List.mem_cons_self))
      refine ⟨s', Machine.runFrom_concat_eq_some.mpr ⟨middle, hmiddle, ?_⟩, hinv⟩
      change (middle.handle garbage numSender r).map Prod.snd = some s'
      rw [hs']
      rfl

theorem card_savedIds_le (requests : List BackupItem) (worker : UInt32) :
    (savedIds requests worker).card ≤ requests.length := by
  apply (List.toFinset_card_le _).trans
  rw [List.length_map]
  exact List.length_filter_le _ _

/-- Few enough requests are accepted. -/
theorem accepted_of_length (hvalid : ∀ r ∈ requests, r.ValidRequest)
    (hlength : sizeofBackupItem * requests.length < 2 ^ 32) : Accepted requests where
  valid := hvalid
  bounded := by
    intro worker
    exact lt_of_le_of_lt (Nat.mul_le_mul_left _ (card_savedIds_le requests worker)) hlength

/-- A save of one byte by operator 0 of thread 0 of worker 0. -/
def keySave (key : ℕ) : BackupItem := ⟨⟨0, 0, 0, 0, 0⟩, ⟨1, UInt64.ofNat key, .zero⟩⟩

/-- Saves under the keys below a bound. -/
def keySaves (bound : ℕ) : List BackupItem := (List.range bound).map keySave

theorem isSave_of_mem_keySaves {bound : ℕ} (hr : r ∈ keySaves bound) :
    r.ValidRequest ∧ r.IsSave := by
  obtain ⟨key, -, rfl⟩ := List.mem_map.mp hr
  have hlen : (keySave key).data.len ≠ 0 := (by decide : (1 : UInt32) ≠ 0)
  exact ⟨⟨Nat.two_pow_pos 16, Nat.zero_le 2, fun _ => ⟨hlen, by change 1 ≤ 256; decide⟩⟩, rfl,
    hlen⟩

theorem card_savedIds_keySaves {bound : ℕ} (hbound : bound < 2 ^ 64) :
    (savedIds (keySaves bound) 0).card = bound := by
  have hsaves : saves (keySaves bound) 0 = keySaves bound := by
    rw [saves, List.filter_eq_self]
    intro r hr
    have hworker : r.info.workerId = 0 := by
      obtain ⟨key, -, rfl⟩ := List.mem_map.mp hr
      rfl
    simpa using ⟨(isSave_of_mem_keySaves hr).2, hworker⟩
  have hnodup : ((keySaves bound).map BackupItem.saveId).Nodup := by
    rw [keySaves, List.map_map]
    refine List.Nodup.map_on ?_ List.nodup_range
    intro key hkey key' hkey' hsame
    have hkeys : UInt64.ofNat key = UInt64.ofNat key' :=
      (Prod.mk.inj (Prod.mk.inj hsame).2).2
    have hnat := congrArg UInt64.toNat hkeys
    rw [List.mem_range] at hkey hkey'
    rwa [UInt64.toNat_ofNat', UInt64.toNat_ofNat', Nat.mod_eq_of_lt (hkey.trans hbound),
      Nat.mod_eq_of_lt (hkey'.trans hbound)] at hnat
  rw [savedIds, hsaves, List.toFinset_card_of_nodup hnodup, List.length_map, keySaves,
    List.length_map, List.length_range]

variable (garbage numSender) in
/-- The run of a bounded number of saves. -/
theorem run_keySaves {bound : ℕ} (hbound : sizeofBackupItem * bound < 2 ^ 32) :
    Accepted (keySaves bound) ∧
      ∃ s, (machine garbage numSender).runFrom create (keySaves bound) = some s := by
  have haccepted : Accepted (keySaves bound) := by
    apply accepted_of_length fun r hr => (isSave_of_mem_keySaves hr).1
    rwa [keySaves, List.length_map, List.length_range]
  obtain ⟨s, hs, -⟩ := create_inv.run_saves garbage numSender haccepted
    fun r hr => (isSave_of_mem_keySaves hr).2
  exact ⟨haccepted, s, hs⟩

/-- Three saves under three keys. -/
theorem lastWriterWins_iff_three_saves :
    ∃ s, (machine (fun _ => .zero) 1).runFrom create (keySaves 3) = some s ∧
      LastWriterWins (fun _ => .zero) 1 (keySaves 3) 0 s := by
  obtain ⟨haccepted, s, hs⟩ := run_keySaves (fun _ => .zero) 1
    (show sizeofBackupItem * 3 < 2 ^ 32 by decide)
  refine ⟨s, hs, (lastWriterWins_iff _ 1 _ haccepted hs 0 (by decide)).mpr ?_⟩
  rw [replySize, card_savedIds_keySaves (by decide)]
  decide

/-- With 7456541 items, still fewer than `2 ^ 32 / sizeof(BackupItem)`, the size of the
reply does not fit into an `int`. -/
theorem lastWriterWins_fails_large :
    Accepted (keySaves 7456541) ∧
      ∃ s, (machine (fun _ => .zero) 1).runFrom create (keySaves 7456541) = some s ∧
        ¬ LastWriterWins (fun _ => .zero) 1 (keySaves 7456541) 0 s := by
  obtain ⟨haccepted, s, hs⟩ := run_keySaves (fun _ => .zero) 1
    (show sizeofBackupItem * 7456541 < 2 ^ 32 by decide)
  refine ⟨haccepted, s, hs,
    (Inv.run _ 1 haccepted hs).not_lastWriterWins _ 1 haccepted (by decide) ?_⟩
  rw [replySize, card_savedIds_keySaves (by decide)]
  decide

end BackupServer

end AFStream.FaultTolerance

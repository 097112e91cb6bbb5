import BdbMsgStore.Bindings
import BdbMsgStore.MassComplete
import BdbMsgStore.Recovery

/-!
# The recovery of the plugin

`MessageStorePlugin::recover` asks the provider for the queues, the bindings and the messages, and then hands every
message to the queues it was on: it goes through `messageQueueMap` and looks the ids up in `messages` and in `queues`,
two maps that were filled by other functions of the provider.

The databases of a journal are arbitrary here (`JournalFiles`): a record may lie in any of them, as after a change of
the number of files.  For the journals of `JournalImpl` the maps are those of `recoverMessages`
(`recoverFiles_eq_recoverMessages`).

Both maps of messages are filled by one statement of `decodeAndRecoverMsg`, with the id of a recovered queue, so that
the lookups never fail (`Consistent`), and `messageQueueMap` is ordered by ids (`recover_in_order`).
-/

namespace BdbMsgStore

/-! ### Journals with arbitrary files -/

/-- The databases of a journal, each in the order of its cursor. -/
structure JournalFiles where
  shards : List (List (UInt64 × Bytes))

namespace JournalFiles

/-- `is_enqueued` looks at one database only, for a key that compares equal. -/
def isEnqueued (f : JournalFiles) (pid : UInt64) : Bool :=
  (f.shards.getD (pid.toNat % f.shards.length) []).any fun e => compareIds pid e.1 = 0

/-- `JournalImpl::recoverMessages` -/
def recoverMessages (f : JournalFiles) : List (UInt64 × Bytes) := RoundRobin.read f.shards

end JournalFiles

/-- The databases of a journal as recovery reads them. -/
def JournalImpl.files (j : JournalImpl) : JournalFiles := ⟨j.messageDbs.map OrdMap.entries⟩

/-- `decodeAndRecoverMsg` for the queue `qid`. -/
def decodeAndRecoverFiles (loadContent : UInt64 → Bytes → UInt64 → Bool) (malloc : List PendingOperationId → Bool)
    (files : UInt64 → JournalFiles) (v : MessageRecovery) (qid : UInt64) : Option MessageRecovery :=
  (decodeRecords loadContent malloc (files qid).isEnqueued (files qid).recoverMessages qid v).map Prod.fst

/-- `recoverMessages`, with the maps that it fills. -/
def recoverFiles (loadContent : UInt64 → Bytes → UInt64 → Bool) (malloc : List PendingOperationId → Bool)
    (files : UInt64 → JournalFiles) (recoveredJournal : List UInt64) (lg : AsyncOperationLogger) :
    Option (MessageMap × MessageQueueMap) := do
  -- the logs are read, and the pending operations are sorted out at the end, without the journals
  let s : StoreProvider := { enableSmartAsync := false, aologger := lg }
  if s.logsThrow then none
  else
    let v ← recoveredJournal.foldlM (decodeAndRecoverFiles loadContent malloc files) (readLogs s).messageRecovery
    let e := TwoLevel.sweep (fun st _ _ pae => resurrectEnqueue st pae) v.aeset { provider := s, adset := v.adset }
    let _ ← v.aologger.logMassEnqueueDequeueComplete (malloc e.2.uselessList) e.2.uselessList
    return (v.messageMap, v.messageQueueMap)

/-! ### The journals of the provider -/

/-- The test for a record is the one of the journal. -/
theorem JournalImpl.isEnqueued_files (j : JournalImpl) : j.files.isEnqueued = j.isEnqueued := by
  funext pid
  have hshard : j.files.shards.getD (pid.toNat % j.files.shards.length) [] = (j.shard pid).entries := by
    unfold JournalImpl.files JournalImpl.shard JournalImpl.shardIndex
    dsimp only
    rw [List.length_map, List.getD_eq_getElem?_getD, List.getD_eq_getElem?_getD, List.getElem?_map]
    cases j.messageDbs[pid.toNat % j.messageDbs.length]? with
    | none => rfl
    | some db => rfl
  unfold JournalFiles.isEnqueued JournalImpl.isEnqueued
  rw [hshard]

/-- The databases of the journals of a provider. -/
def StoreProvider.files (s : StoreProvider) (qid : UInt64) : JournalFiles :=
  match s.journalList.find? qid with
  | some jc => jc.files
  | none => ⟨[]⟩

section

variable (loadContent : UInt64 → Bytes → UInt64 → Bool) (malloc : List PendingOperationId → Bool)

/-- One queue: what is recovered is the same, and the databases of the journals stay as they are. -/
private theorem recoverQueueMessages_files {r : RecoveryState} {qid : UInt64}
    (h : r.provider.journalList.contains qid) :
    decodeAndRecoverFiles loadContent malloc r.provider.files r.messageRecovery qid =
        (recoverQueueMessages loadContent malloc r qid).map RecoveryState.messageRecovery ∧
      ∀ r', recoverQueueMessages loadContent malloc r qid = some r' → r'.provider.files = r.provider.files ∧
        ∀ q, r.provider.journalList.contains q → r'.provider.journalList.contains q := by
  obtain ⟨jc, hjc⟩ := Option.isSome_iff_exists.1 h
  have hfiles : r.provider.files qid = jc.files := by
    rw [StoreProvider.files, hjc]
  have hdecode : recoverQueueMessages loadContent malloc r qid =
      decodeAndRecoverMsg loadContent malloc jc qid r := by
    rw [recoverQueueMessages, hjc]
  rw [hdecode, decodeAndRecoverFiles, hfiles, jc.isEnqueued_files, decodeAndRecoverMsg]
  show Option.map Prod.fst (decodeRecords loadContent malloc jc.isEnqueued jc.recoverMessages qid r.messageRecovery) =
    _ ∧ _
  cases decodeRecords loadContent malloc jc.isEnqueued jc.recoverMessages qid r.messageRecovery with
  | none =>
    refine ⟨rfl, fun r' hr' => ?_⟩
    cases hr'
  | some vm =>
    refine ⟨rfl, fun r' hr' => ?_⟩
    cases hr'
    constructor
    · -- the ids that are registered for deletion are not in the databases
      funext q
      unfold StoreProvider.files
      dsimp only
      rw [OrdMap.find?_assign]
      by_cases hq : q = qid
      · rw [if_pos hq, hq, hjc]
        rfl
      · rw [if_neg hq]
    · intro q hq
      unfold OrdMap.contains
      dsimp only
      rw [OrdMap.find?_assign]
      split
      · rfl
      · exact hq

private theorem foldlM_recoverQueueMessages_files (l : List UInt64) (r : RecoveryState)
    (hr : ∀ q ∈ l, r.provider.journalList.contains q) :
    l.foldlM (decodeAndRecoverFiles loadContent malloc r.provider.files) r.messageRecovery =
      (l.foldlM (recoverQueueMessages loadContent malloc) r).map RecoveryState.messageRecovery := by
  induction l generalizing r with
  | nil => rfl
  | cons q l ih =>
    obtain ⟨hstep, hkept⟩ := recoverQueueMessages_files loadContent malloc (hr q (List.mem_cons_self ..))
    rw [List.foldlM_cons, List.foldlM_cons, hstep]
    cases hone : recoverQueueMessages loadContent malloc r q with
    | none => rfl
    | some r' =>
      obtain ⟨hfiles, hcontains⟩ := hkept r' hone
      have htail := ih r' fun q' hq' => hcontains q' (hr q' (List.mem_cons_of_mem _ hq'))
      rw [hfiles] at htail
      exact htail

/-- Which pending operations cancel each other does not depend on the provider. -/
private theorem uselessList_resurrectEnqueue (aeset : PendingEnqueueSet) (adset : PendingDequeueSet)
    (s s' : StoreProvider) :
    (TwoLevel.sweep (fun st _ _ pae => resurrectEnqueue st pae) aeset
      { provider := s, adset := adset }).2.uselessList =
      (TwoLevel.sweep (fun st _ _ pae => resurrectEnqueue st pae) aeset
        { provider := s', adset := adset }).2.uselessList := by
  have hlist : ∀ (l : List PendingAsyncEnqueue) (st st' : Resurrection), st.adset = st'.adset →
      st.uselessList = st'.uselessList →
      (TwoLevel.sweepList resurrectEnqueue l st).2.uselessList =
        (TwoLevel.sweepList resurrectEnqueue l st').2.uselessList := by
    intro l
    induction l with
    | nil => exact fun st st' _ h => h
    | cons pae l ih =>
      intro st st' hadset huseless
      simp only [TwoLevel.sweepList, resurrectEnqueue]
      rw [← hadset, ← huseless]
      split
      · exact ih _ _ rfl rfl
      · exact ih _ _ rfl rfl
  rw [(TwoLevel.values_sweep resurrectEnqueue aeset _).2, (TwoLevel.values_sweep resurrectEnqueue aeset _).2]
  exact hlist _ _ _ rfl rfl

/-- The last batch of completions is written whatever the logs hold. -/
private theorem bind_logMassEnqueueDequeueComplete {β : Type} (lg : AsyncOperationLogger) (b : Bool)
    (ks : List PendingOperationId) (x : β) :
    ((lg.logMassEnqueueDequeueComplete b ks).bind fun _ => some x) =
      if AsyncLog.Written b ks then some x else none := by
  cases h : lg.logMassEnqueueDequeueComplete b ks with
  | some lg' => rw [if_pos (AsyncOperationLogger.logMassEnqueueDequeueComplete_eq_some_iff.1 h).1, Option.bind_some]
  | none =>
    rw [if_neg, Option.bind_none]
    intro hw
    rw [AsyncOperationLogger.logMassEnqueueDequeueComplete_eq_some_iff.2 ⟨hw, rfl⟩] at h
    cases h

/-- For the journals of a provider the maps are those of `recoverMessages`, as `recoverQueues` has made a journal for
every queue it has recovered. -/
theorem recoverFiles_eq_recoverMessages {recoveredJournal : List UInt64} {s : StoreProvider}
    (h : ∀ q ∈ recoveredJournal, s.journalList.contains q) :
    recoverFiles loadContent malloc s.files recoveredJournal s.aologger =
      (recoverMessages loadContent malloc recoveredJournal s).map fun R => (R.messageMap, R.messageQueueMap) := by
  have hfold := foldlM_recoverQueueMessages_files loadContent malloc recoveredJournal (readLogs s) h
  have hthrow : StoreProvider.logsThrow { enableSmartAsync := false, aologger := s.aologger } = s.logsThrow := rfl
  have hread : (readLogs { enableSmartAsync := false, aologger := s.aologger }).messageRecovery =
      (readLogs s).messageRecovery := rfl
  have hsame : (readLogs s).provider.files = s.files := rfl
  unfold recoverFiles recoverMessages
  dsimp only
  rw [hthrow, hread]
  cases s.logsThrow with
  | true => rfl
  | false =>
    rw [hsame] at hfold
    simp only [Bool.false_eq_true, if_false]
    rw [hfold]
    cases recoveredJournal.foldlM (recoverQueueMessages loadContent malloc) (readLogs s) with
    | none => rfl
    | some r =>
      simp only [Option.map_some, Option.bind_eq_bind, Option.bind_some, resurrect, Option.pure_def, Option.map_bind,
        Function.comp_def, bind_logMassEnqueueDequeueComplete]
      rw [uselessList_resurrectEnqueue r.aeset r.adset _ { enableSmartAsync := false, aologger := s.aologger }]
      rfl

end

/-! ### The loop of the plugin -/

/-- `QueueEntry::TplStatus` -/
inductive TplStatus where
  | none
  | adding
  | removing
  deriving DecidableEq, Repr

/-- A queue on which a message is put. -/
structure QueueEntry where
  queueId : UInt64
  tplStatus : TplStatus := .none
  xid : String := ""
  deriving DecidableEq, Repr

/-- What the plugin does with the objects it has recovered. -/
inductive PluginCall where
  | recover (queueId msgId : UInt64) (msg : RecoverableMessage)
  | dtxEnqueue (xid : String) (queueId msgId : UInt64)
  | dtxDequeue (xid : String) (queueId msgId : UInt64)
  deriving DecidableEq

/-- The exceptions that end the recovery. -/
inductive PluginError where
  /-- A recover function of the provider does not return. -/
  | provider
  | noMatchingMessage (msgId : UInt64)
  | noMatchingQueue (queueId : UInt64)
  deriving DecidableEq, Repr

/-- The calls that were made, and the exception that ended the recovery, if one did. -/
structure PluginRun where
  calls : List PluginCall
  error : Option PluginError
  deriving DecidableEq

namespace MessageStorePlugin

/-- The calls for one entry. -/
def entryCalls (msgId : UInt64) (msg : RecoverableMessage) (j : QueueEntry) : List PluginCall :=
  (if j.tplStatus ≠ .adding then [.recover j.queueId msgId msg] else []) ++
    match j.tplStatus with
    | .adding => [.dtxEnqueue j.xid j.queueId msgId]
    | .removing => [.dtxDequeue j.xid j.queueId msgId]
    | .none => []

/-- The inner loop: the queues of one message. -/
def enqueueOn (queues : List (UInt64 × Bytes)) (msgId : UInt64) (msg : RecoverableMessage) :
    List QueueEntry → PluginRun
  | [] => ⟨[], none⟩
  | j :: js =>
    if queues.any fun q => q.1 = j.queueId then
      let r := enqueueOn queues msgId msg js
      ⟨entryCalls msgId msg j ++ r.calls, r.error⟩
    else ⟨[], some (.noMatchingQueue j.queueId)⟩

/-- The outer loop over `messageQueueMap`. -/
def enqueueAll (queues : List (UInt64 × Bytes)) (messages : MessageMap) :
    List (UInt64 × List QueueEntry) → PluginRun
  | [] => ⟨[], none⟩
  | i :: l =>
    match messages.find? i.1 with
    | none => ⟨[], some (.noMatchingMessage i.1)⟩
    | some msg =>
      let r := enqueueOn queues i.1 msg i.2
      if r.error.isSome then r
      else
        let r' := enqueueAll queues messages l
        ⟨r.calls ++ r'.calls, r'.error⟩

/-- What the provider finds: the records of queues and exchanges in the order of their cursors, the bindings, the
databases of the journals and the logs. -/
structure Found where
  queues : List (UInt64 × Bytes)
  exchanges : List (UInt64 × Bytes)
  bindingDb : BindingDb
  files : UInt64 → JournalFiles
  aologger : AsyncOperationLogger

/-- `messageQueueMap` as the provider fills it: `QueueEntry(queue->getPersistenceId())`. -/
def queueEntries (m : MessageQueueMap) : List (UInt64 × List QueueEntry) :=
  (m.map fun queueIds => queueIds.map fun queueId => ({ queueId } : QueueEntry)).entries

variable {A : Type} (T : FieldTables A) (recoverExchange : Bytes → Bool)
  (loadContent : UInt64 → Bytes → UInt64 → Bool) (malloc : List PendingOperationId → Bool)

/-- `recover`.  `recoverConfigs` leaves nothing that is used later, and `recoverTransactions` does nothing. -/
def recover (d : Found) : PluginRun :=
  let exchanges := (recoverExchanges recoverExchange d.exchanges).1
  let queues := (recoverQueues d.queues).queueMap
  if (recoverBindings T exchanges queues d.bindingDb).finished then
    match recoverFiles loadContent malloc d.files (queues.map Prod.fst) d.aologger with
    | some (messages, messageQueueMap) => enqueueAll queues messages (queueEntries messageQueueMap)
    | none => ⟨[], some .provider⟩
  else ⟨[], some .provider⟩

end MessageStorePlugin

/-! ### The maps fit together -/

/-- Every message of `messageQueueMap` is in `messageMap`, and is put on recovered queues only. -/
def Consistent (queueIds : List UInt64) (messageMap : MessageMap) (messageQueueMap : MessageQueueMap) : Prop :=
  ∀ pid qs, messageQueueMap.find? pid = some qs → (messageMap.find? pid).isSome ∧ ∀ q ∈ qs, q ∈ queueIds

theorem consistent_empty (queueIds : List UInt64) : Consistent queueIds ∅ ∅ := fun _ _ h => nomatch h

/-- The two maps are filled together. -/
private theorem recoverMsg_maps (loadContent : UInt64 → Bytes → UInt64 → Bool) (qid : UInt64) (st : MessagePass)
    (record : UInt64 × Bytes) :
    ((recoverMsg loadContent qid st record).messageMap = st.messageMap ∧
        (recoverMsg loadContent qid st record).messageQueueMap = st.messageQueueMap) ∨
      ∃ msg, (recoverMsg loadContent qid st record).messageMap = st.messageMap.assign record.1 msg ∧
        (recoverMsg loadContent qid st record).messageQueueMap =
          st.messageQueueMap.assign record.1 (st.messageQueueMap.queues record.1 ++ [qid]) := by
  unfold recoverMsg
  dsimp only
  split
  · exact Or.inl ⟨rfl, rfl⟩
  · split
    · split
      · exact Or.inl ⟨rfl, rfl⟩
      · split
        · exact Or.inr ⟨_, rfl, rfl⟩
        · exact Or.inl ⟨rfl, rfl⟩
    · split
      · exact Or.inl ⟨rfl, rfl⟩
      · split
        · exact Or.inr ⟨_, rfl, rfl⟩
        · exact Or.inl ⟨rfl, rfl⟩

/-- One record of a recovered queue. -/
theorem Consistent.recoverMsg {queueIds : List UInt64} {loadContent : UInt64 → Bytes → UInt64 → Bool} {qid : UInt64}
    (hqid : qid ∈ queueIds) {st : MessagePass} (h : Consistent queueIds st.messageMap st.messageQueueMap)
    (record : UInt64 × Bytes) :
    Consistent queueIds (recoverMsg loadContent qid st record).messageMap
      (recoverMsg loadContent qid st record).messageQueueMap := by
  rcases recoverMsg_maps loadContent qid st record with ⟨hm, hq⟩ | ⟨msg, hm, hq⟩
  · rw [hm, hq]
    exact h
  · rw [hm, hq]
    intro pid qs hfind
    rw [OrdMap.find?_assign] at hfind
    rw [OrdMap.find?_assign]
    split at hfind
    · rename_i hpid
      cases hfind
      rw [if_pos hpid]
      refine ⟨rfl, fun q hmem => ?_⟩
      rcases List.mem_append.1 hmem with hmem | hmem
      · cases hold : st.messageQueueMap.find? record.1 with
        | none => rw [MessageQueueMap.queues, hold] at hmem; cases hmem
        | some qs =>
          rw [MessageQueueMap.queues, hold] at hmem
          exact (h record.1 qs hold).2 q hmem
      · rw [List.mem_singleton.1 hmem]
        exact hqid
    · rename_i hpid
      rw [if_neg hpid]
      exact h pid qs hfind

/-- All records of a recovered queue. -/
theorem Consistent.foldl_recoverMsg {queueIds : List UInt64} {loadContent : UInt64 → Bytes → UInt64 → Bool}
    {qid : UInt64} (hqid : qid ∈ queueIds) (records : List (UInt64 × Bytes)) {st : MessagePass}
    (h : Consistent queueIds st.messageMap st.messageQueueMap) :
    Consistent queueIds (records.foldl (BdbMsgStore.recoverMsg loadContent qid) st).messageMap
      (records.foldl (BdbMsgStore.recoverMsg loadContent qid) st).messageQueueMap := by
  induction records generalizing st with
  | nil => exact h
  | cons record records ih => exact ih (h.recoverMsg hqid record)

/-- One recovered queue. -/
theorem Consistent.decodeAndRecoverFiles {queueIds : List UInt64} {loadContent : UInt64 → Bytes → UInt64 → Bool}
    {malloc : List PendingOperationId → Bool} {files : UInt64 → JournalFiles} {qid : UInt64} (hqid : qid ∈ queueIds)
    {v v' : MessageRecovery} (h : Consistent queueIds v.messageMap v.messageQueueMap)
    (hv : decodeAndRecoverFiles loadContent malloc files v qid = some v') :
    Consistent queueIds v'.messageMap v'.messageQueueMap := by
  simp only [BdbMsgStore.decodeAndRecoverFiles, decodeRecords, Option.map_eq_some_iff, Option.bind_eq_bind,
    Option.bind_eq_some_iff, Option.pure_def, Option.some.injEq] at hv
  obtain ⟨_, ⟨lg, -, rfl⟩, rfl⟩ := hv
  exact Consistent.foldl_recoverMsg hqid _ h

/-- All recovered queues, whatever the databases and the logs hold. -/
theorem consistent_recoverFiles {loadContent : UInt64 → Bytes → UInt64 → Bool}
    {malloc : List PendingOperationId → Bool} {files : UInt64 → JournalFiles} {queueIds : List UInt64}
    {lg : AsyncOperationLogger} {messages : MessageMap} {messageQueueMap : MessageQueueMap}
    (hreturn : recoverFiles loadContent malloc files queueIds lg = some (messages, messageQueueMap)) :
    Consistent queueIds messages messageQueueMap := by
  have hfold : ∀ (l : List UInt64), (∀ q ∈ l, q ∈ queueIds) → ∀ v v' : MessageRecovery,
      Consistent queueIds v.messageMap v.messageQueueMap →
        l.foldlM (decodeAndRecoverFiles loadContent malloc files) v = some v' →
          Consistent queueIds v'.messageMap v'.messageQueueMap := by
    intro l
    induction l with
    | nil =>
      intro _ v v' hv hv'
      cases hv'
      exact hv
    | cons q l ih =>
      intro hl v v' hv hv'
      rw [List.foldlM_cons] at hv'
      obtain ⟨v₁, hone, hrest⟩ := Option.bind_eq_some_iff.1 hv'
      exact ih (fun q' hq' => hl q' (List.mem_cons_of_mem _ hq')) v₁ v'
        (hv.decodeAndRecoverFiles (hl q (List.mem_cons_self ..)) hone) hrest
  unfold recoverFiles at hreturn
  dsimp only at hreturn
  split at hreturn
  · cases hreturn
  · simp only [Option.bind_eq_bind, Option.bind_eq_some_iff, Option.pure_def, Option.some.injEq, Prod.mk.injEq]
      at hreturn
    obtain ⟨v, hv, -, -, rfl, rfl⟩ := hreturn
    exact hfold queueIds (fun _ hq => hq) _ v (consistent_empty queueIds) hv

/-! ### The calls of the plugin -/

/-- The id of the message, for a call that gives a message to the queue `q`. -/
def PluginCall.idOn (q : UInt64) : PluginCall → Option UInt64
  | .recover queueId msgId _ => if queueId = q then some msgId else none
  | _ => none

def PluginCall.isDtx : PluginCall → Bool
  | .recover .. => false
  | _ => true

namespace MessageStorePlugin

variable {queues : List (UInt64 × Bytes)} {messages : MessageMap}

private theorem idOn_entryCalls {msgId : UInt64} {msg : RecoverableMessage} {j : QueueEntry} {c : PluginCall}
    {q id : UInt64} (hc : c ∈ entryCalls msgId msg j) (hid : c.idOn q = some id) : id = msgId := by
  have hrecover : ∀ q', (PluginCall.recover q' msgId msg).idOn q = some id → id = msgId := by
    intro q' h
    rw [PluginCall.idOn] at h
    split at h
    · exact (Option.some.inj h).symm
    · cases h
  unfold entryCalls at hc
  cases hs : j.tplStatus with
  | none =>
    rw [hs] at hc
    rw [List.mem_singleton.1 hc] at hid
    exact hrecover _ hid
  | adding =>
    rw [hs] at hc
    rw [List.mem_singleton.1 hc] at hid
    cases hid
  | removing =>
    rw [hs] at hc
    rcases List.mem_cons.1 hc with rfl | hc
    · exact hrecover _ hid
    · rw [List.mem_singleton.1 hc] at hid
      cases hid

/-- The calls for one message are about this message. -/
private theorem idOn_enqueueOn {msgId : UInt64} {msg : RecoverableMessage} {js : List QueueEntry} {q id : UInt64}
    (h : id ∈ (enqueueOn queues msgId msg js).calls.filterMap (PluginCall.idOn q)) : id = msgId := by
  induction js with
  | nil => cases h
  | cons j js ih =>
    unfold enqueueOn at h
    split at h
    · rw [List.filterMap_append, List.mem_append] at h
      rcases h with h | h
      · obtain ⟨c, hc, hid⟩ := List.mem_filterMap.1 h
        exact idOn_entryCalls hc hid
      · exact ih h
    · cases h

/-- The calls are about the messages of the map. -/
private theorem idOn_enqueueAll {l : List (UInt64 × List QueueEntry)} {q id : UInt64}
    (h : id ∈ (enqueueAll queues messages l).calls.filterMap (PluginCall.idOn q)) : id ∈ l.map Prod.fst := by
  induction l with
  | nil => cases h
  | cons i l ih =>
    unfold enqueueAll at h
    split at h
    · cases h
    · dsimp only at h
      split at h
      · rw [idOn_enqueueOn h]
        exact List.mem_cons_self ..
      · rw [List.filterMap_append, List.mem_append] at h
        rcases h with h | h
        · rw [idOn_enqueueOn h]
          exact List.mem_cons_self ..
        · exact List.mem_cons_of_mem _ (ih h)

private theorem pairwise_le_enqueueOn (msgId : UInt64) (msg : RecoverableMessage) (js : List QueueEntry)
    (q : UInt64) : ((enqueueOn queues msgId msg js).calls.filterMap (PluginCall.idOn q)).Pairwise (· ≤ ·) := by
  refine List.pairwise_of_forall_mem_list fun a ha b hb => ?_
  rw [idOn_enqueueOn ha, idOn_enqueueOn hb]

/-- A loop over ids in increasing order hands the messages to each queue in this order, also when an exception ends
it. -/
theorem pairwise_le_enqueueAll {l : List (UInt64 × List QueueEntry)} (hl : l.Pairwise fun a b => a.1 < b.1)
    (q : UInt64) : ((enqueueAll queues messages l).calls.filterMap (PluginCall.idOn q)).Pairwise (· ≤ ·) := by
  induction l with
  | nil => exact List.Pairwise.nil
  | cons i l ih =>
    rw [List.pairwise_cons] at hl
    unfold enqueueAll
    split
    · exact List.Pairwise.nil
    · dsimp only
      split
      · exact pairwise_le_enqueueOn ..
      · rw [List.filterMap_append, List.pairwise_append]
        refine ⟨pairwise_le_enqueueOn .., ih hl.2, fun a ha b hb => ?_⟩
        obtain ⟨e, he, rfl⟩ := List.mem_map.1 (idOn_enqueueAll hb)
        rw [idOn_enqueueOn ha]
        exact le_of_lt (hl.1 e he)

/-- The inner loop finds its queues, and makes no call for a transaction. -/
private theorem enqueueOn_spec (msgId : UInt64) (msg : RecoverableMessage) {js : List QueueEntry}
    (h : ∀ j ∈ js, j.tplStatus = .none ∧ j.queueId ∈ queues.map Prod.fst) :
    (enqueueOn queues msgId msg js).error = none ∧
      ∀ c ∈ (enqueueOn queues msgId msg js).calls, c.isDtx = false := by
  induction js with
  | nil => exact ⟨rfl, fun _ hc => nomatch hc⟩
  | cons j js ih =>
    obtain ⟨hstatus, hqueue⟩ := h j (List.mem_cons_self ..)
    obtain ⟨herror, hcalls⟩ := ih fun j' hj' => h j' (List.mem_cons_of_mem _ hj')
    have hfound : (queues.any fun q => q.1 = j.queueId) = true := by
      obtain ⟨q, hq, hid⟩ := List.mem_map.1 hqueue
      exact List.any_eq_true.2 ⟨q, hq, by simpa using hid⟩
    unfold enqueueOn
    rw [if_pos hfound]
    refine ⟨herror, fun c hc => ?_⟩
    rcases List.mem_append.1 hc with hc | hc
    · unfold entryCalls at hc
      rw [hstatus] at hc
      rw [List.mem_singleton.1 hc]
      rfl
    · exact hcalls c hc

/-- The outer loop finds its messages. -/
private theorem enqueueAll_spec {l : List (UInt64 × List QueueEntry)}
    (h : ∀ i ∈ l, (messages.find? i.1).isSome ∧ ∀ j ∈ i.2, j.tplStatus = .none ∧ j.queueId ∈ queues.map Prod.fst) :
    (enqueueAll queues messages l).error = none ∧
      ∀ c ∈ (enqueueAll queues messages l).calls, c.isDtx = false := by
  induction l with
  | nil => exact ⟨rfl, fun _ hc => nomatch hc⟩
  | cons i l ih =>
    obtain ⟨hmsg, hjs⟩ := h i (List.mem_cons_self ..)
    obtain ⟨msg, hmsg⟩ := Option.isSome_iff_exists.1 hmsg
    obtain ⟨herror, hcalls⟩ := ih fun i' hi' => h i' (List.mem_cons_of_mem _ hi')
    obtain ⟨hierror, hicalls⟩ := enqueueOn_spec i.1 msg hjs
    unfold enqueueAll
    rw [hmsg]
    dsimp only
    rw [hierror]
    refine ⟨herror, fun c hc => ?_⟩
    rcases List.mem_append.1 hc with hc | hc
    · exact hicalls c hc
    · exact hcalls c hc

/-- The entries of the map of the provider are for recovered queues, and for no transaction. -/
private theorem matching_queueEntries {messageQueueMap : MessageQueueMap}
    (h : Consistent (queues.map Prod.fst) messages messageQueueMap) :
    ∀ i ∈ queueEntries messageQueueMap, (messages.find? i.1).isSome ∧
      ∀ j ∈ i.2, j.tplStatus = .none ∧ j.queueId ∈ queues.map Prod.fst := by
  rintro ⟨pid, js⟩ hi
  rw [queueEntries, OrdMap.mem_entries, OrdMap.find?_map] at hi
  obtain ⟨qs, hqs, rfl⟩ := Option.map_eq_some_iff.1 hi
  obtain ⟨hmsg, hqueues⟩ := h pid qs hqs
  refine ⟨hmsg, fun j hj => ?_⟩
  obtain ⟨q, hq, rfl⟩ := List.mem_map.1 hj
  exact ⟨rfl, hqueues q hq⟩

/-- The prepared transactions are not touched, and each queue is given its messages in the order of their ids. -/
structure InOrder (r : PluginRun) : Prop where
  noDtx : ∀ c ∈ r.calls, c.isDtx = false
  ordered : ∀ q, (r.calls.filterMap (PluginCall.idOn q)).Pairwise (· ≤ ·)

/-- Whatever the databases and the logs hold, the recovery hands the messages to each queue in the order of their ids,
and the only exception that can end it is one of the provider: both lookups succeed. -/
theorem recover_in_order {A : Type} (T : FieldTables A) (recoverExchange : Bytes → Bool)
    (loadContent : UInt64 → Bytes → UInt64 → Bool) (malloc : List PendingOperationId → Bool) (d : Found) :
    (recover T recoverExchange loadContent malloc d).error =
        (if (recoverBindings T (recoverExchanges recoverExchange d.exchanges).1 (recoverQueues d.queues).queueMap
            d.bindingDb).finished ∧
          (recoverFiles loadContent malloc d.files ((recoverQueues d.queues).queueMap.map Prod.fst) d.aologger).isSome
          then none else some .provider) ∧
      InOrder (recover T recoverExchange loadContent malloc d) := by
  have hnothing : InOrder ⟨[], some .provider⟩ := ⟨fun _ hc => (nomatch hc), fun _ => List.Pairwise.nil⟩
  unfold recover
  dsimp only
  split
  · rename_i hbindings
    split
    · rename_i messages messageQueueMap hmessages
      have hspec := enqueueAll_spec (matching_queueEntries (consistent_recoverFiles hmessages))
      rw [hmessages, if_pos ⟨hbindings, rfl⟩]
      exact ⟨hspec.1, hspec.2, pairwise_le_enqueueAll (OrdMap.sorted _)⟩
    · rename_i hmessages
      rw [hmessages, if_neg (by simp)]
      exact ⟨rfl, hnothing⟩
  · rename_i hbindings
    rw [if_neg fun h => hbindings h.1]
    exact ⟨rfl, hnothing⟩

-- message 4 is in the log of enqueues only, and the messages 6 and 7 are in each other's file
example :
    (recover noArgs (fun _ => true) (fun _ _ _ => true) (fun _ => true)
      { queues := [(1, [113])], exchanges := [], bindingDb := ⟨[], List.nodup_nil⟩
        files := fun _ => ⟨[[(2, [0, 0, 0, 0, 0]), (7, [0, 0, 0, 0, 0])], [(6, [0, 0, 0, 0, 0])]]⟩
        aologger := ({} : AsyncOperationLogger).logEnqueueStart
          { msgId := 4, queueId := 1, transient := false, buff := [0, 0, 0, 0, 0], size := 5, size_eq := rfl
            size_le := by decide } }).calls.filterMap (PluginCall.idOn 1) =
      [2, 4, 6, 7] := by decide +kernel

end MessageStorePlugin

end BdbMsgStore

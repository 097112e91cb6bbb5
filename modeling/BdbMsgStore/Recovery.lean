import BdbMsgStore.StoreProvider

/-!
# Recovery

`recoverMessages` and `decodeAndRecoverMsg` of `BdbStoreProvider.cpp`.  A new process finds the databases and the
log files (`StoreProvider.restart`).  It reads the pending dequeues (`adset`) and the pending enqueues (`aeset`) from
the logs, and then handles the recovered queues one after the other:

* a loop over all pending enqueues (`recoverPending`) drops those with a pending dequeue and those of transient
  messages, and adds those of the queue to what was read from its databases, unless it finds them there; this is
  checked for the first ten only;
* a loop over the records of the queue (`recoverMsg`) hands the persistent messages to the broker, except those with
  a pending dequeue.

At the end the ids are reset, and what is left of the pending operations is scheduled again.

`recoverMessages` may not return: an exception leaves it while it reads the logs, or a batch of completions overruns
its buffer.  It has no result then.

The accept recovery is left out: nothing ever fills `acceptedFromMongo`.  The broker's `loadContent` is a parameter
(it is asked with the id, the header and the size of the content), and so is the outcome of the allocations for the
batches of log records.
-/

namespace BdbMsgStore

open StoreProvider

/-- A message handed to the broker: what `recoverMessage` and `decodeContent` were given. -/
structure RecoverableMessage where
  header : Bytes
  content : Bytes
  deriving DecidableEq

/-- `MessageMap` -/
abbrev MessageMap := OrdMap UInt64 RecoverableMessage

/-- `MessageQueueMap`: the ids of the queues a message is put on. -/
abbrev MessageQueueMap := OrdMap UInt64 (List UInt64)

/-- The queues a message is put on. -/
def MessageQueueMap.queues (m : MessageQueueMap) (pid : UInt64) : List UInt64 := (m.find? pid).getD []

/-! ### The new process -/

/-- A journal as a new process opens it. -/
def JournalImpl.reopen (j : JournalImpl) : JournalImpl := { j with transientList := [], acceptedList := [] }

/-- A log as a new process finds it. -/
def AsyncLog.reopen (L : AsyncLog) : AsyncLog := { L with index := 0, cleaner := .sleeping }

/-- The provider of a new process on the files of `s`. -/
def StoreProvider.restart (smart : Bool) (s : StoreProvider) : StoreProvider where
  enableSmartAsync := smart
  aologger := ⟨s.aologger.enqueueLog.reopen, s.aologger.dequeueLog.reopen⟩
  journalList := s.journalList.map JournalImpl.reopen

/-! ### The loop over the pending enqueues -/

/-- The variables of the first loop of `decodeAndRecoverMsg`. -/
structure PendingPass where
  aologger : AsyncOperationLogger
  adset : PendingDequeueSet
  recovered : List (UInt64 × Bytes)
  penqRecovered : MessageIdSet := ∅
  first : Nat := 0
  transientAsync : List PendingOperationId := []
  uselessAsync : List PendingOperationId := []

/-- The body of the loop, for the queue `qid`; `isEnqueued` is the test of its journal.  The first component says
whether the entry stays in `aeset`. -/
def recoverPending (isEnqueued : UInt64 → Bool) (qid : UInt64) (st : PendingPass) (pae : PendingAsyncEnqueue) :
    Bool × PendingPass :=
  if (TwoLevel.find? st.adset pae.queueId pae.msgId).isSome then
    -- the dequeue started before the enqueue was complete
    (false, { st with
      uselessAsync := st.uselessAsync ++ [pae.opId]
      adset := TwoLevel.erase st.adset pae.queueId pae.msgId })
  else if pae.transient then (false, { st with transientAsync := st.transientAsync ++ [pae.opId] })
  else if qid = pae.queueId then
    if st.first < 10 ∧ isEnqueued pae.msgId then
      (false, { st with aologger := st.aologger.logEnqueueComplete pae.msgId pae.queueId, first := st.first + 1 })
    else
      (true, { st with
        first := if st.first < 10 then st.first + 1 else st.first
        recovered := st.recovered ++ [(pae.msgId, pae.buff)]
        penqRecovered := st.penqRecovered.insert pae.msgId () })
  else (true, st)

/-! ### The loop over the records -/

/-- The variables of the second loop of `decodeAndRecoverMsg`. -/
structure MessagePass where
  adset : PendingDequeueSet
  penqRecovered : MessageIdSet
  lastPid : UInt64 := 0
  maxRid : UInt64 := 0
  transientMsg : List UInt64 := []
  asyncAcceptedMsg : List UInt64 := []
  dequeueCompletedAsync : List PendingOperationId := []
  messageMap : MessageMap
  messageQueueMap : MessageQueueMap

/-- The size of the content of a stored message. -/
def contentSize (value : Bytes) : UInt64 := UInt64.ofNat (storedContent value).length

/-- The body of the loop for the record of message `pid`. -/
def recoverMsg (loadContent : UInt64 → Bytes → UInt64 → Bool) (qid : UInt64) (st : MessagePass)
    (record : UInt64 × Bytes) : MessagePass :=
  let (pid, value) := record
  if transientFlag value then { st with transientMsg := st.transientMsg ++ [pid] }
  else
    let st :=
      if st.penqRecovered.contains pid then { st with penqRecovered := st.penqRecovered.erase pid }
      else { st with lastPid := max pid st.lastPid }
    let st := { st with maxRid := max pid st.maxRid }
    if (TwoLevel.find? st.adset qid pid).isSome then
      { st with
        asyncAcceptedMsg := st.asyncAcceptedMsg ++ [pid]
        adset := TwoLevel.erase st.adset qid pid
        dequeueCompletedAsync := st.dequeueCompletedAsync ++ [(pid, qid)] }
    else if loadContent pid (storedHeader value) (contentSize value) then
      { st with
        messageMap := st.messageMap.assign pid ⟨storedHeader value, storedContent value⟩
        messageQueueMap := st.messageQueueMap.assign pid (st.messageQueueMap.queues pid ++ [qid]) }
    else st

/-! ### One queue -/

/-- What `decodeAndRecoverMsg` is given to work on: the logs, the pending operations, and the maps of the messages. -/
structure MessageRecovery where
  aologger : AsyncOperationLogger
  adset : PendingDequeueSet
  aeset : PendingEnqueueSet
  messageMap : MessageMap := ∅
  messageQueueMap : MessageQueueMap := ∅

/-- The first loop, for the queue `qid` with the given records. -/
def pendingPass (isEnqueued : UInt64 → Bool) (recovered : List (UInt64 × Bytes)) (qid : UInt64)
    (v : MessageRecovery) : PendingEnqueueSet × PendingPass :=
  TwoLevel.sweep (fun st _ _ pae => recoverPending isEnqueued qid st pae) v.aeset
    { aologger := v.aologger, adset := v.adset, recovered := recovered }

/-- The second loop, after the first one. -/
def messagePass (loadContent : UInt64 → Bytes → UInt64 → Bool) (qid : UInt64) (v : MessageRecovery)
    (st : PendingPass) : MessagePass :=
  st.recovered.foldl (recoverMsg loadContent qid)
    { adset := st.adset, penqRecovered := st.penqRecovered
      messageMap := v.messageMap, messageQueueMap := v.messageQueueMap }

/-- The records that `decodeAndRecoverMsg` writes to the logs at its end. -/
def completeLogs (malloc : List PendingOperationId → Bool) (lg : AsyncOperationLogger)
    (transientAsync dequeueCompletedAsync uselessAsync : List PendingOperationId) : Option AsyncOperationLogger := do
  let lg ← lg.logMassEnqueueComplete (malloc transientAsync) transientAsync
  let lg ← lg.logMassDequeueComplete (malloc dequeueCompletedAsync) dequeueCompletedAsync
  lg.logMassEnqueueDequeueComplete (malloc uselessAsync) uselessAsync

/-- `decodeAndRecoverMsg` on the records of a queue: the two loops, then the completions.  The second component holds
what is left in the variables of the second loop. -/
def decodeRecords (loadContent : UInt64 → Bytes → UInt64 → Bool) (malloc : List PendingOperationId → Bool)
    (isEnqueued : UInt64 → Bool) (recovered : List (UInt64 × Bytes)) (qid : UInt64) (v : MessageRecovery) :
    Option (MessageRecovery × MessagePass) := do
  let p := pendingPass isEnqueued recovered qid v
  let m := messagePass loadContent qid v p.2
  let lg ← completeLogs malloc p.2.aologger p.2.transientAsync m.dequeueCompletedAsync p.2.uselessAsync
  return ({ aologger := lg, adset := m.adset, aeset := p.1
            messageMap := m.messageMap, messageQueueMap := m.messageQueueMap }, m)

/-- What `recoverMessages` keeps over its loop on the recovered queues. -/
structure RecoveryState where
  provider : StoreProvider
  adset : PendingDequeueSet
  aeset : PendingEnqueueSet
  messageMap : MessageMap := ∅
  messageQueueMap : MessageQueueMap := ∅
  highestRid : UInt64 := 0
  localLastPid : UInt64 := 0

/-- What it passes to `decodeAndRecoverMsg`. -/
def RecoveryState.messageRecovery (r : RecoveryState) : MessageRecovery where
  aologger := r.provider.aologger
  adset := r.adset
  aeset := r.aeset
  messageMap := r.messageMap
  messageQueueMap := r.messageQueueMap

/-- The RFC 1982 comparison by which `recoverMessages` combines the ids of the queues; `0` stands for no id. -/
def serialMax (current this : UInt64) : UInt64 :=
  if current = 0 then this else if this - current < 0x8000000000000000 then this else current

/-- `decodeAndRecoverMsg` for the queue `qid` with the journal `jc`, and the update of `highestRid` and
`localLastPid` with its results. -/
def decodeAndRecoverMsg (loadContent : UInt64 → Bytes → UInt64 → Bool) (malloc : List PendingOperationId → Bool)
    (jc : JournalImpl) (qid : UInt64) (r : RecoveryState) : Option RecoveryState := do
  let (v, m) ← decodeRecords loadContent malloc jc.isEnqueued jc.recoverMessages qid r.messageRecovery
  return {
    provider := { r.provider with
      aologger := v.aologger
      journalList := r.provider.journalList.assign qid
        ((jc.registerAsTransient m.transientMsg).registerAsAccepted m.asyncAcceptedMsg) }
    adset := v.adset
    aeset := v.aeset
    messageMap := v.messageMap
    messageQueueMap := v.messageQueueMap
    highestRid := serialMax r.highestRid m.maxRid
    localLastPid := serialMax r.localLastPid m.lastPid }

/-- The body of the loop of `recoverMessages` over the recovered queues. -/
def recoverQueueMessages (loadContent : UInt64 → Bytes → UInt64 → Bool) (malloc : List PendingOperationId → Bool)
    (r : RecoveryState) (qid : UInt64) : Option RecoveryState :=
  match r.provider.journalList.find? qid with
  | some jc => decodeAndRecoverMsg loadContent malloc jc qid r
  | none => some r

/-! ### What is scheduled again -/

/-- The variables of the loop that schedules the pending enqueues. -/
structure Resurrection where
  provider : StoreProvider
  adset : PendingDequeueSet
  uselessList : List PendingOperationId := []

/-- A pending enqueue is scheduled, if its queue exists. -/
def StoreProvider.scheduleStore (s : StoreProvider) (pae : PendingAsyncEnqueue) : StoreProvider :=
  if s.journalList.contains pae.queueId then
    { s with
      tracker := if s.enableSmartAsync then s.tracker.willEnqueue pae.msgId pae.queueId else s.tracker
      threads := s.threads ++ [.store (if s.enableSmartAsync then .check else .put) pae] }
  else s

/-- The body of the loop over the pending enqueues that are left. -/
def resurrectEnqueue (st : Resurrection) (pae : PendingAsyncEnqueue) : Bool × Resurrection :=
  if (TwoLevel.find? st.adset pae.queueId pae.msgId).isSome then
    (false, { st with
      adset := TwoLevel.erase st.adset pae.queueId pae.msgId
      uselessList := st.uselessList ++ [pae.opId] })
  else (true, { st with provider := st.provider.scheduleStore pae })

/-- A pending dequeue is scheduled, if its queue exists. -/
def StoreProvider.scheduleDequeue (s : StoreProvider) (pad : PendingAsyncDequeue) : StoreProvider :=
  if s.journalList.contains pad.queueId then
    { s with threads := s.threads ++ [.asyncDequeue (.wait (.dupTest 0)) pad.msgId pad.queueId] }
  else s

/-- The end of the recovery of a journal. -/
def StoreProvider.discardMessages (s : StoreProvider) (qid : UInt64) : StoreProvider :=
  match s.journalList.find? qid with
  | some jc =>
    { s with journalList := s.journalList.assign qid jc.discardTransientMessage.discardAcceptedMessage }
  | none => s

/-! ### The whole recovery -/

/-- What `recoverMessages` leaves behind: the provider, the pending operations for which it has not logged a
completion, and what it hands to the broker. -/
structure Recovered where
  provider : StoreProvider
  adset : PendingDequeueSet
  aeset : PendingEnqueueSet
  messageMap : MessageMap
  messageQueueMap : MessageQueueMap

/-- The part of `recoverMessages` that reads the logs, unless an exception leaves it. -/
def readLogs (s : StoreProvider) : RecoveryState :=
  let d := s.aologger.recoverAsyncDequeue
  let e := d.2.recoverAsyncEnqueue
  { provider := { s with aologger := e.2 }, adset := d.1, aeset := e.1 }

/-- An exception leaves `recoverMessages` while it reads the logs. -/
def StoreProvider.logsThrow (s : StoreProvider) : Bool :=
  (s.aologger.dequeueLog.replayFiles dequeueFormat).thrown || (s.aologger.enqueueLog.replayFiles enqueueFormat).thrown

/-- The part of `recoverMessages` after the loop over the queues. -/
def resurrect (malloc : List PendingOperationId → Bool) (recoveredJournal : List UInt64) (r : RecoveryState) :
    Option Recovered := do
  let s := recoveredJournal.foldl discardMessages r.provider
  let s := { s with
    messageIdSequence := IdSequence.reset (r.highestRid + 1)
    tracker := s.tracker.reset r.localLastPid }
  let e := TwoLevel.sweep (fun st _ _ pae => resurrectEnqueue st pae) r.aeset { provider := s, adset := r.adset }
  let s := (AsyncLog.pendingList e.2.adset).foldl scheduleDequeue e.2.provider
  let lg ← s.aologger.logMassEnqueueDequeueComplete (malloc e.2.uselessList) e.2.uselessList
  return {
    provider := { s with aologger := lg }
    adset := e.2.adset
    aeset := e.1
    messageMap := r.messageMap
    messageQueueMap := r.messageQueueMap }

/-- `recoverMessages`.  The queues of `recoveredJournal` are in the order in which they were recovered. -/
def recoverMessages (loadContent : UInt64 → Bytes → UInt64 → Bool) (malloc : List PendingOperationId → Bool)
    (recoveredJournal : List UInt64) (s : StoreProvider) : Option Recovered := do
  if s.logsThrow then none
  else
    let r ← recoveredJournal.foldlM (recoverQueueMessages loadContent malloc) (readLogs s)
    resurrect malloc recoveredJournal r

end BdbMsgStore

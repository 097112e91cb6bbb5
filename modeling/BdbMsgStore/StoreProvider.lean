import BdbMsgStore.JournalImpl
import BdbMsgStore.Lib.Runs
import BdbMsgStore.Message
import BdbMsgStore.PidTracker

/-!
# The store provider

The operations of `BdbStoreProvider.cpp` on messages: `enqueue` and `dequeue`, which the broker calls, and `store`
and `async_dequeue`, which the two pools run.  Each is cut at its lock acquisitions and database transactions, and
one such piece is a step of the model.  A pool is a bag of tasks, any of which may take its next step, so several
tasks of each pool are in progress at once and every interleaving is a run.

The events of a run are the calls of the broker and their returns.
-/

namespace BdbMsgStore

/-- `IdSequence` -/
structure IdSequence where
  id : UInt64 := 1
  deriving DecidableEq

/-- `IdSequence::next`: `0` is skipped. -/
def IdSequence.next (s : IdSequence) : UInt64 × IdSequence :=
  let id := if s.id = 0 then s.id + 1 else s.id
  (id, ⟨id + 1⟩)

/-- `IdSequence::reset` -/
def IdSequence.reset (start : UInt64) : IdSequence := ⟨start⟩

theorem IdSequence.next_ne_zero (s : IdSequence) : s.next.1 ≠ 0 := by
  unfold IdSequence.next
  by_cases h : s.id = 0
  · simp [h]
  · simp [h]

/-- The next step of an `enqueue` call, after the id of the message is set. -/
inductive EnqueuePc where
  | logStart
  | willEnqueue
  | schedule
  deriving DecidableEq, Repr

/-- The next step of a `store` task. -/
inductive StorePc where
  | check
  | put
  | logComplete
  | addPidDup
  | addPidMain
  deriving DecidableEq, Repr

/-- The next step of a `dequeue` call. -/
inductive DequeuePc where
  | check
  | logStart
  | schedule
  | logEnqueueComplete
  deriving DecidableEq, Repr

/-- The next step of an `async_dequeue` task. -/
inductive AsyncDequeuePc where
  | wait (pc : WaitPc)
  | remove
  | logComplete
  deriving DecidableEq, Repr

/-- A call of the broker in progress, or a task of one of the pools. -/
inductive Thread where
  | enqueue (pc : EnqueuePc) (pae : PendingAsyncEnqueue)
  | store (pc : StorePc) (pae : PendingAsyncEnqueue)
  | dequeue (pc : DequeuePc) (pid qid : UInt64)
  | asyncDequeue (pc : AsyncDequeuePc) (pid qid : UInt64)
  deriving DecidableEq

/-- Message and queue a thread works on. -/
def Thread.key : Thread → PendingOperationId
  | .enqueue _ pae => pae.opId
  | .store _ pae => pae.opId
  | .dequeue _ pid qid => (pid, qid)
  | .asyncDequeue _ pid qid => (pid, qid)

/-- The thread belongs to an enqueue: the call itself or its `store` task. -/
def Thread.isEnqueue : Thread → Bool
  | .enqueue _ _ => true
  | .store _ _ => true
  | .dequeue _ _ _ => false
  | .asyncDequeue _ _ _ => false

/-- The thread is a task of one of the two pools, and not a call of the broker. -/
def Thread.isTask : Thread → Bool
  | .enqueue _ _ => false
  | .store _ _ => true
  | .dequeue _ _ _ => false
  | .asyncDequeue _ _ _ => true

/-- What the broker sees.  `newId` says that the call allocated the id of the message. -/
inductive Event where
  | enqueueCalled (newId : Bool) (pid qid : UInt64) (m : Message)
  | enqueueReturned (pid qid : UInt64)
  | dequeueCalled (pid qid : UInt64)
  | dequeueReturned (pid qid : UInt64)
  deriving DecidableEq

def Event.key : Event → PendingOperationId
  | .enqueueCalled _ pid qid _ => (pid, qid)
  | .enqueueReturned pid qid => (pid, qid)
  | .dequeueCalled pid qid => (pid, qid)
  | .dequeueReturned pid qid => (pid, qid)

/-- The provider: its option, its data, the journals of the queues, and the threads in progress. -/
structure StoreProvider where
  enableSmartAsync : Bool
  messageIdSequence : IdSequence := {}
  tracker : PidTracker := {}
  aologger : AsyncOperationLogger := {}
  journalList : OrdMap UInt64 JournalImpl := ∅
  threads : List Thread := []

namespace StoreProvider

/-- The journal of a queue is changed. -/
def modifyJournal (s : StoreProvider) (qid : UInt64) (f : JournalImpl → JournalImpl) : StoreProvider :=
  match s.journalList.find? qid with
  | some j => { s with journalList := s.journalList.assign qid (f j) }
  | none => s

/-- The stored form of message `pid` in the database of queue `qid`. -/
def stored (s : StoreProvider) (pid qid : UInt64) : Option Bytes :=
  (s.journalList.find? qid).bind fun j => j.find? pid

/-- One step of a thread: the provider after it, the threads that take its place, and what becomes visible. -/
def runThread (s : StoreProvider) : Thread → StoreProvider × List Thread × List Event
  | .enqueue .logStart pae =>
    ({ s with aologger := s.aologger.logEnqueueStart pae },
      [.enqueue (if s.enableSmartAsync then .willEnqueue else .schedule) pae], [])
  | .enqueue .willEnqueue pae =>
    ({ s with tracker := s.tracker.willEnqueue pae.msgId pae.queueId }, [.enqueue .schedule pae], [])
  | .enqueue .schedule pae =>
    (s, [.store (if s.enableSmartAsync then .check else .put) pae], [.enqueueReturned pae.msgId pae.queueId])
  | .store .check pae =>
    let r := s.tracker.enqueueCheck pae.msgId pae.queueId
    ({ s with tracker := r.2 }, [.store (if r.1 then .put else .logComplete) pae], [])
  | .store .put pae =>
    (s.modifyJournal pae.queueId fun j => j.storeMsg pae.msgId pae.buff, [.store .logComplete pae], [])
  | .store .logComplete pae =>
    ({ s with aologger := s.aologger.logEnqueueComplete pae.msgId pae.queueId }, [.store .addPidDup pae], [])
  | .store .addPidDup pae =>
    let r := s.tracker.addPidDup pae.msgId pae.queueId
    ({ s with tracker := r.2 }, if r.1 then [] else [.store .addPidMain pae], [])
  | .store .addPidMain pae => ({ s with tracker := s.tracker.addPidMain pae.msgId }, [], [])
  | .dequeue .check pid qid =>
    let r := s.tracker.dequeueCheck pid qid
    ({ s with tracker := r.2 }, [.dequeue (if r.1 then .logStart else .logEnqueueComplete) pid qid], [])
  | .dequeue .logStart pid qid =>
    ({ s with aologger := s.aologger.logDequeueStart pid qid }, [.dequeue .schedule pid qid], [])
  | .dequeue .schedule pid qid =>
    (s, [.asyncDequeue (.wait (.dupTest 0)) pid qid], [.dequeueReturned pid qid])
  | .dequeue .logEnqueueComplete pid qid =>
    ({ s with aologger := s.aologger.logEnqueueComplete pid qid }, [], [.dequeueReturned pid qid])
  | .asyncDequeue (.wait (.returned r)) pid qid =>
    -- `-1`: the task schedules itself again; `-2`: the store is being stopped
    (s, if r = -1 then [.asyncDequeue (.wait (.dupTest 0)) pid qid] else if r = -2 then []
      else [.asyncDequeue .remove pid qid], [])
  | .asyncDequeue (.wait pc) pid qid => (s, [.asyncDequeue (.wait (s.tracker.waitForPid pid qid pc)) pid qid], [])
  | .asyncDequeue .remove pid qid =>
    (s.modifyJournal qid fun j => j.removeMsg pid, [.asyncDequeue .logComplete pid qid], [])
  | .asyncDequeue .logComplete pid qid =>
    ({ s with aologger := s.aologger.logDequeueComplete pid qid }, [], [])

/-- The broker calls `enqueue` or `dequeue`, a thread takes a step, or a log cleaner does.  `messageId` is the
persistence id of the message at the call, `0` when it has none yet. -/
inductive Action where
  | enqueue (messageId qid : UInt64) (m : Message)
  | dequeue (pid qid : UInt64)
  | advance (t : Thread)
  | cleanEnqueueLog
  | cleanDequeueLog

/-- The id under which a call of `enqueue` files the message. -/
def enqueueId (s : StoreProvider) (messageId : UInt64) : UInt64 :=
  if messageId = 0 then s.messageIdSequence.next.1 else messageId

/-- A step of the system; `none` when the thread does not exist or the call throws. -/
def step (s : StoreProvider) : Action → Option (StoreProvider × List Event)
  | .enqueue messageId qid m =>
    if qid = 0 ∨ ¬ s.journalList.contains qid then none
    else if messageId = 0 then
      let r := s.messageIdSequence.next
      some ({ s with
        messageIdSequence := r.2
        threads := s.threads ++ [.enqueue .logStart (m.pending r.1 qid)] }, [.enqueueCalled true r.1 qid m])
    else
      some ({ s with
        tracker := s.tracker.addDuplicate messageId qid
        threads := s.threads ++ [.enqueue .logStart (m.pending messageId qid)] },
        [.enqueueCalled false messageId qid m])
  | .dequeue pid qid =>
    if pid = 0 ∨ qid = 0 ∨ ¬ s.journalList.contains qid then none
    else
      some ({ s with
        threads := s.threads ++ [.dequeue (if s.enableSmartAsync then .check else .logStart) pid qid] },
        [.dequeueCalled pid qid])
  | .advance t =>
    if t ∈ s.threads then
      let r := s.runThread t
      some ({ r.1 with threads := s.threads.erase t ++ r.2.1 }, r.2.2)
    else none
  | .cleanEnqueueLog => some ({ s with aologger := s.aologger.cleanEnqueueLog }, [])
  | .cleanDequeueLog => some ({ s with aologger := s.aologger.cleanDequeueLog }, [])

end StoreProvider

end BdbMsgStore

import Mathlib.Data.List.TakeWhile
import BdbMsgStore.AfterRecovery
import BdbMsgStore.RecoveredLogs

/-!
# The writes of recovery

`recoverMessages` changes the disk in many small writes: it removes the log files and logs the pending operations
again, appends completions with every queue, and deletes the messages registered for it only after the last queue.
`recoveryOps` lists these writes in the order of the source, up to the point where recovery ends or does not get
further; done one after the other they make of the disk what `recoverMessages` makes of it when it returns
(`applyOps_recoveryOps`).  The process may stop after any of them, so a crash leaves what a prefix of the list has
made of the disk.

`prefix_recoveryOps` describes the enqueue log after a prefix.  `Sound` says what the completions in the list are
for, and that the pair of completions of an enqueue and its dequeue is written in this order.
-/

namespace BdbMsgStore

open KeyedLog LogFormat StoreProvider

/-- One write to the disk. -/
inductive DiskOp where
  | removeEnqueueFile (i : Fin 2)
  | removeDequeueFile (i : Fin 2)
  | enqueueStart (pae : PendingAsyncEnqueue)
  | dequeueStart (pad : PendingAsyncDequeue)
  | enqueueComplete (k : PendingOperationId)
  | massEnqueueComplete (malloc : Bool) (ks : List PendingOperationId)
  | massDequeueComplete (malloc : Bool) (ks : List PendingOperationId)
  | delete (pid qid : UInt64)
  deriving DecidableEq

/-- A file of the log is removed. -/
def AsyncLog.removeFile (L : AsyncLog) (i : Fin 2) : AsyncLog := { L with file := Function.update L.file i [] }

namespace StoreProvider

def applyOp (s : StoreProvider) : DiskOp → StoreProvider
  | .removeEnqueueFile i =>
    { s with aologger := { s.aologger with enqueueLog := s.aologger.enqueueLog.removeFile i } }
  | .removeDequeueFile i =>
    { s with aologger := { s.aologger with dequeueLog := s.aologger.dequeueLog.removeFile i } }
  | .enqueueStart pae => { s with aologger := s.aologger.logEnqueueStart pae }
  | .dequeueStart pad => { s with aologger := s.aologger.logDequeueStart pad.msgId pad.queueId }
  | .enqueueComplete k => { s with aologger := s.aologger.logEnqueueComplete k.1 k.2 }
  | .massEnqueueComplete malloc ks =>
    { s with aologger := (s.aologger.logMassEnqueueComplete malloc ks).getD s.aologger }
  | .massDequeueComplete malloc ks =>
    { s with aologger := (s.aologger.logMassDequeueComplete malloc ks).getD s.aologger }
  | .delete pid qid => s.modifyJournal qid fun j => j.removeMsg pid

def applyOps (s : StoreProvider) (ops : List DiskOp) : StoreProvider := ops.foldl applyOp s

end StoreProvider

/-- The call that makes the write returns. -/
def DiskOp.Returns : DiskOp → Prop
  | .massEnqueueComplete malloc ks => AsyncLog.Written malloc ks
  | .massDequeueComplete malloc ks => AsyncLog.Written malloc ks
  | _ => True

instance : DecidablePred DiskOp.Returns := fun op => by
  unfold DiskOp.Returns
  split <;> infer_instance

/-! ### The list of the writes -/

/-- The writes of `recoverAsyncDequeue`. -/
def dequeueLogOps (L : AsyncLog) : List DiskOp :=
  .removeDequeueFile 0 :: .removeDequeueFile 1 :: (L.pendingInFiles dequeueFormat).map .dequeueStart

/-- The writes of `recoverAsyncEnqueue`. -/
def enqueueLogOps (L : AsyncLog) : List DiskOp :=
  .removeEnqueueFile 0 :: .removeEnqueueFile 1 :: (L.pendingInFiles enqueueFormat).map .enqueueStart

/-- The writes of `log_mass_enqueue_dequeue_complete`. -/
def bothCompleteOps (malloc : List PendingOperationId → Bool) (ks : List PendingOperationId) : List DiskOp :=
  [.massEnqueueComplete (malloc ks) ks, .massDequeueComplete (malloc ks) ks]

/-- The writes of `decodeAndRecoverMsg`: its first loop completes the enqueues of messages it finds in the database,
the three batches follow at its end. -/
def decodeOps (malloc : List PendingOperationId → Bool) (r : RecoveryState) (qid : UInt64) : List DiskOp :=
  match r.provider.journalList.find? qid with
  | some jc =>
    (overlap jc 10 (r.live qid)).map (fun pae => .enqueueComplete pae.opId) ++
      (.massEnqueueComplete (malloc (r.transients.map (·.opId))) (r.transients.map (·.opId)) ::
        .massDequeueComplete (malloc (r.accepted qid)) (r.accepted qid) ::
        bothCompleteOps malloc (r.useless.map (·.opId)))
  | none => []

/-- The writes of the loop over the recovered queues. -/
def queueOps (loadContent : UInt64 → Bytes → UInt64 → Bool) (malloc : List PendingOperationId → Bool) :
    RecoveryState → List UInt64 → List DiskOp
  | _, [] => []
  | r, qid :: queues =>
    decodeOps malloc r qid ++
      match recoverQueueMessages loadContent malloc r qid with
      | some r => queueOps loadContent malloc r queues
      | none => []

/-- The messages that `discard_transient_message` and `discard_accepted_message` delete. -/
def StoreProvider.discarded (s : StoreProvider) (qid : UInt64) : List UInt64 :=
  match s.journalList.find? qid with
  | some jc => jc.transientList ++ jc.acceptedList
  | none => []

/-- The writes of the two functions, for one queue. -/
def discardOps (s : StoreProvider) (qid : UInt64) : List DiskOp := (s.discarded qid).map fun pid => .delete pid qid

/-- The writes of `recoverMessages` after the logs have been read and written again. -/
def settleOps (loadContent : UInt64 → Bytes → UInt64 → Bool) (malloc : List PendingOperationId → Bool)
    (recoveredJournal : List UInt64) (r₀ : RecoveryState) : List DiskOp :=
  queueOps loadContent malloc r₀ recoveredJournal ++
    match recoveredJournal.foldlM (recoverQueueMessages loadContent malloc) r₀ with
    | some r => recoveredJournal.flatMap (discardOps r.provider) ++ bothCompleteOps malloc (r.useless.map (·.opId))
    | none => []

/-- The writes that `recoverMessages` comes to if every call returns. -/
def attemptedOps (loadContent : UInt64 → Bytes → UInt64 → Bool) (malloc : List PendingOperationId → Bool)
    (recoveredJournal : List UInt64) (s : StoreProvider) : List DiskOp :=
  dequeueLogOps s.aologger.dequeueLog ++
    (enqueueLogOps s.aologger.enqueueLog ++ settleOps loadContent malloc recoveredJournal (readLogs s))

/-- The writes of `recoverMessages`.  It reads a log before it writes to it, and the first batch that does not return
is the end of the process. -/
def recoveryOps (loadContent : UInt64 → Bytes → UInt64 → Bool) (malloc : List PendingOperationId → Bool)
    (recoveredJournal : List UInt64) (s : StoreProvider) : List DiskOp :=
  if (s.aologger.dequeueLog.replayFiles dequeueFormat).thrown then []
  else if (s.aologger.enqueueLog.replayFiles enqueueFormat).thrown then dequeueLogOps s.aologger.dequeueLog
  else (attemptedOps loadContent malloc recoveredJournal s).takeWhile fun op => decide op.Returns

/-! ### Effects of the writes -/

namespace StoreProvider

variable (s : StoreProvider)

theorem applyOps_append (ops ops' : List DiskOp) : s.applyOps (ops ++ ops') = (s.applyOps ops).applyOps ops' :=
  List.foldl_append ..

theorem applyOps_cons (op : DiskOp) (ops : List DiskOp) : s.applyOps (op :: ops) = (s.applyOp op).applyOps ops := rfl

/-- A batch that returns has logged its ids one by one. -/
theorem applyOp_massEnqueueComplete {malloc : Bool} {ks : List PendingOperationId} (hw : AsyncLog.Written malloc ks) :
    s.applyOp (.massEnqueueComplete malloc ks) = { s with aologger := s.aologger.enqueueCompletes ks } := by
  unfold applyOp
  simp only [AsyncOperationLogger.logMassEnqueueComplete_eq_some_iff.2 ⟨hw, rfl⟩, Option.getD_some]

theorem applyOp_massDequeueComplete {malloc : Bool} {ks : List PendingOperationId} (hw : AsyncLog.Written malloc ks) :
    s.applyOp (.massDequeueComplete malloc ks) = { s with aologger := s.aologger.dequeueCompletes ks } := by
  unfold applyOp
  simp only [AsyncOperationLogger.logMassDequeueComplete_eq_some_iff.2 ⟨hw, rfl⟩, Option.getD_some]

/-- Recovery puts nothing into a database. -/
theorem stored_applyOps (ops : List DiskOp) (p q : UInt64) :
    (s.applyOps ops).stored p q = none ∨ (s.applyOps ops).stored p q = s.stored p q := by
  induction ops generalizing s with
  | nil => exact Or.inr rfl
  | cons op ops ih =>
    rw [applyOps_cons]
    cases op with
    | delete pid qid =>
      refine (ih _).elim Or.inl fun hsame => ?_
      rw [hsame]
      show (s.modifyJournal qid fun j => j.removeMsg pid).stored p q = none ∨
        (s.modifyJournal qid fun j => j.removeMsg pid).stored p q = s.stored p q
      rw [stored_removeMsg]
      split
      · exact Or.inl rfl
      · exact Or.inr rfl
    | _ => exact ih _

/-- It opens and closes no journal. -/
theorem contains_applyOps (ops : List DiskOp) (q : UInt64) :
    (s.applyOps ops).journalList.contains q = s.journalList.contains q := by
  induction ops generalizing s with
  | nil => rfl
  | cons op ops ih =>
    rw [applyOps_cons, ih]
    cases op with
    | delete pid qid => exact modifyJournal_contains ..
    | _ => rfl

/-- It schedules nothing while it writes. -/
theorem threads_applyOps (ops : List DiskOp) : (s.applyOps ops).threads = s.threads := by
  induction ops generalizing s with
  | nil => rfl
  | cons op ops ih =>
    rw [applyOps_cons, ih]
    cases op with
    | delete pid qid => exact modifyJournal_threads ..
    | _ => rfl

/-- The temporary files of the cleaners are left alone. -/
theorem tmp_applyOps {ops : List DiskOp} (h : ∀ op ∈ ops, op.Returns) :
    (s.applyOps ops).aologger.enqueueLog.tmp = s.aologger.enqueueLog.tmp := by
  induction ops generalizing s with
  | nil => rfl
  | cons op ops ih =>
    have hop := h op (List.mem_cons_self ..)
    rw [applyOps_cons, ih _ fun op' hop' => h op' (List.mem_cons_of_mem _ hop')]
    cases op with
    | massEnqueueComplete malloc ks =>
      rw [applyOp_massEnqueueComplete _ hop, AsyncOperationLogger.enqueueCompletes_eq]
      simp only [AsyncLog.foldl_logComplete]
      rfl
    | massDequeueComplete malloc ks =>
      rw [applyOp_massDequeueComplete _ hop, AsyncOperationLogger.dequeueCompletes_eq]
    | delete pid qid =>
      show (s.modifyJournal qid fun j => j.removeMsg pid).aologger.enqueueLog.tmp = _
      rw [modifyJournal_aologger]
    | _ => rfl

theorem applyOps_dequeueStarts (l : List PendingAsyncDequeue) :
    s.applyOps (l.map .dequeueStart) = { s with aologger := { s.aologger with
      dequeueLog := l.foldl (AsyncLog.logStart dequeueFormat) s.aologger.dequeueLog } } := by
  induction l generalizing s with
  | nil => rfl
  | cons pad l ih =>
    rw [List.map_cons, applyOps_cons, ih]
    rfl

theorem applyOps_enqueueStarts (l : List PendingAsyncEnqueue) :
    s.applyOps (l.map .enqueueStart) = { s with aologger := { s.aologger with
      enqueueLog := l.foldl (AsyncLog.logStart enqueueFormat) s.aologger.enqueueLog } } := by
  induction l generalizing s with
  | nil => rfl
  | cons pae l ih =>
    rw [List.map_cons, applyOps_cons, ih]
    rfl

theorem applyOps_overlap (l : List PendingAsyncEnqueue) :
    s.applyOps (l.map fun pae => .enqueueComplete pae.opId) = { s with
      aologger := l.foldl (fun lg pae => lg.logEnqueueComplete pae.msgId pae.queueId) s.aologger } := by
  induction l generalizing s with
  | nil => rfl
  | cons pae l ih =>
    rw [List.map_cons, applyOps_cons, ih]
    rfl

theorem applyOps_deletes (l : List UInt64) (qid p q : UInt64) :
    (s.applyOps (l.map fun pid => .delete pid qid)).stored p q =
      if q = qid ∧ p ∈ l then none else s.stored p q := by
  induction l generalizing s with
  | nil => simp [applyOps]
  | cons pid l ih =>
    rw [List.map_cons, applyOps_cons, ih]
    show (if q = qid ∧ p ∈ l then none else (s.modifyJournal qid fun j => j.removeMsg pid).stored p q) = _
    rw [stored_removeMsg]
    by_cases hq : q = qid
    · by_cases hl : p ∈ l <;> simp [hq, hl]
    · simp [hq]

theorem aologger_deletes (l : List UInt64) (qid : UInt64) :
    (s.applyOps (l.map fun pid => .delete pid qid)).aologger = s.aologger := by
  induction l generalizing s with
  | nil => rfl
  | cons pid l ih =>
    rw [List.map_cons, applyOps_cons, ih]
    exact modifyJournal_aologger ..

end StoreProvider

/-- Both files are removed. -/
private theorem removeFile_removeFile {L : AsyncLog} (h : L.index = 0) :
    (L.removeFile 0).removeFile 1 = { L with file := fun _ => [], index := 0 } := by
  have hfile : Function.update (Function.update L.file 0 []) 1 ([] : Bytes) = fun _ => [] := by
    funext i
    match i with
    | 0 => rfl
    | 1 => rfl
  unfold AsyncLog.removeFile
  rw [hfile, h]

/-- A new process on the files of a log. -/
private theorem applyOps_dequeueLogOps {s : StoreProvider} (h : s.aologger.dequeueLog.index = 0) :
    s.applyOps (dequeueLogOps s.aologger.dequeueLog) =
      { s with aologger := s.aologger.recoverAsyncDequeue.2 } := by
  unfold dequeueLogOps
  rw [applyOps_cons, applyOps_cons, applyOps_dequeueStarts]
  show { s with aologger := { s.aologger with
      dequeueLog := (s.aologger.dequeueLog.pendingInFiles dequeueFormat).foldl (AsyncLog.logStart dequeueFormat)
        ((s.aologger.dequeueLog.removeFile 0).removeFile 1) } } = _
  rw [removeFile_removeFile h]
  rfl

private theorem applyOps_removeEnqueueFiles {s : StoreProvider} (h : s.aologger.enqueueLog.index = 0)
    (l : List PendingAsyncEnqueue) :
    s.applyOps (.removeEnqueueFile 0 :: .removeEnqueueFile 1 :: l.map .enqueueStart) =
      { s with aologger := { s.aologger with
          enqueueLog := l.foldl (AsyncLog.logStart enqueueFormat)
            { s.aologger.enqueueLog with file := fun _ => [], index := 0 } } } := by
  rw [applyOps_cons, applyOps_cons, applyOps_enqueueStarts]
  show { s with aologger := { s.aologger with
      enqueueLog := l.foldl (AsyncLog.logStart enqueueFormat)
        ((s.aologger.enqueueLog.removeFile 0).removeFile 1) } } = _
  rw [removeFile_removeFile h]

/-- The first writes leave the logs as `readLogs` does. -/
theorem applyOps_readLogs (smart : Bool) (s : StoreProvider) :
    ((s.restart smart).applyOps (dequeueLogOps (s.restart smart).aologger.dequeueLog)).applyOps
      (enqueueLogOps (s.restart smart).aologger.enqueueLog) = (readLogs (s.restart smart)).provider := by
  rw [applyOps_dequeueLogOps rfl]
  exact applyOps_removeEnqueueFiles rfl _

/-! ### The writes make what recovery makes -/

section

variable (loadContent : UInt64 → Bytes → UInt64 → Bool) (malloc : List PendingOperationId → Bool) {s : StoreProvider}
  {r : RecoveryState}

variable {malloc}

private theorem applyOps_bothCompleteOps {ks : List PendingOperationId} (hw : AsyncLog.Written (malloc ks) ks) :
    s.applyOps (bothCompleteOps malloc ks) =
      { s with aologger := (s.aologger.enqueueCompletes ks).dequeueCompletes ks } := by
  unfold bothCompleteOps
  rw [applyOps_cons, applyOps_cons, applyOp_massEnqueueComplete _ hw, applyOp_massDequeueComplete _ hw]
  rfl

/-- The writes for a queue that is handled: every call returns, and they leave the logs as `decodeAndRecoverMsg`
does. -/
private theorem decodeOps_spec {loadContent : UInt64 → Bytes → UInt64 → Bool} {r' : RecoveryState} (hr : r.Keyed)
    {qid : UInt64} (hreturn : recoverQueueMessages loadContent malloc r qid = some r') :
    r'.Keyed ∧ (∀ op ∈ decodeOps malloc r qid, op.Returns) ∧ ∀ s : StoreProvider,
      s.aologger = r.provider.aologger →
        s.applyOps (decodeOps malloc r qid) = { s with aologger := r'.provider.aologger } := by
  unfold recoverQueueMessages at hreturn
  unfold decodeOps
  cases hj : r.provider.journalList.find? qid with
  | none =>
    rw [hj] at hreturn
    cases hreturn
    refine ⟨hr, fun op hop => absurd hop List.not_mem_nil, fun s hs => ?_⟩
    show s = _
    rw [← hs]
  | some jc =>
    rw [hj] at hreturn
    have hspec := decodeAndRecoverMsg_spec hr hreturn
    have hacc : r.accepted qid = (acceptedOf (r.orphaned qid) (r.records jc qid)).map fun c => (c.1, qid) := by
      simp only [RecoveryState.accepted, RecoveryState.recordsOf, hj]
    obtain ⟨⟨hts, hds, hus⟩, hlogs⟩ := completeLogs_eq_some_iff.1 hspec.aologger
    rw [← hacc] at hds hlogs
    refine ⟨hspec.keyed, fun op hop => ?_, fun s hs => ?_⟩
    · rcases List.mem_append.1 hop with hop | hop
      · obtain ⟨pae, -, rfl⟩ := List.mem_map.1 hop
        trivial
      · simp only [bothCompleteOps, List.mem_cons, List.not_mem_nil, or_false] at hop
        rcases hop with rfl | rfl | rfl | rfl
        · exact hts
        · exact hds
        · exact hus
        · exact hus
    · rw [applyOps_append, applyOps_overlap, hs, applyOps_cons, applyOps_cons, applyOp_massEnqueueComplete _ hts,
        applyOp_massDequeueComplete _ hds, applyOps_bothCompleteOps hus, ← hlogs]

/-- The same for all queues. -/
private theorem queueOps_spec {loadContent : UInt64 → Bytes → UInt64 → Bool} {r' : RecoveryState} (hr : r.Keyed)
    {queues : List UInt64} (hreturn : queues.foldlM (recoverQueueMessages loadContent malloc) r = some r') :
    (∀ op ∈ queueOps loadContent malloc r queues, op.Returns) ∧ ∀ s : StoreProvider,
      s.aologger = r.provider.aologger →
        s.applyOps (queueOps loadContent malloc r queues) = { s with aologger := r'.provider.aologger } := by
  induction queues generalizing r with
  | nil =>
    cases hreturn
    refine ⟨fun op hop => absurd hop List.not_mem_nil, fun s hs => ?_⟩
    show s = _
    rw [← hs]
  | cons qid queues ih =>
    obtain ⟨r₁, hfirst, hrest⟩ := Option.bind_eq_some_iff.1 hreturn
    obtain ⟨hkeyed, hret, happly⟩ := decodeOps_spec hr hfirst
    obtain ⟨hrets, happlys⟩ := ih hkeyed hrest
    have hops : queueOps loadContent malloc r (qid :: queues) =
        decodeOps malloc r qid ++ queueOps loadContent malloc r₁ queues := by
      rw [queueOps, hfirst]
    rw [hops]
    refine ⟨fun op hop => (List.mem_append.1 hop).elim (hret op) (hrets op), fun s hs => ?_⟩
    rw [applyOps_append, happly s hs]
    exact happlys { s with aologger := r₁.provider.aologger } rfl

private theorem stored_discardOps (t : StoreProvider) (queues : List UInt64) (p q : UInt64) :
    (s.applyOps (queues.flatMap (discardOps t))).stored p q =
      if q ∈ queues ∧ p ∈ t.discarded q then none else s.stored p q := by
  induction queues generalizing s with
  | nil => simp [applyOps]
  | cons qid queues ih =>
    rw [List.flatMap_cons, applyOps_append, ih, discardOps, applyOps_deletes]
    by_cases hq : q = qid
    · subst hq
      by_cases hp : p ∈ t.discarded q <;> simp [hp]
    · simp [hq]

private theorem aologger_discardOps (t : StoreProvider) (queues : List UInt64) :
    (s.applyOps (queues.flatMap (discardOps t))).aologger = s.aologger := by
  induction queues generalizing s with
  | nil => rfl
  | cons qid queues ih =>
    rw [List.flatMap_cons, applyOps_append, ih]
    exact aologger_deletes ..

variable {loadContent : UInt64 → Bytes → UInt64 → Bool} {queues : List UInt64} {smart : Bool} {R : Recovered}

/-- When recovery returns, it has made all writes. -/
private theorem recoveryOps_of_returns (hq : Recoverable s queues)
    (hreturn : recoverMessages loadContent malloc queues (s.restart smart) = some R) :
    recoveryOps loadContent malloc queues (s.restart smart) =
      attemptedOps loadContent malloc queues (s.restart smart) := by
  obtain ⟨hread, r, hloop, hend⟩ := recoverMessages_eq_some.1 hreturn
  have hkeyed := ((hq.restart smart).handled hloop).keyed
  unfold logsThrow at hread
  rw [Bool.or_eq_false_iff] at hread
  unfold recoveryOps
  rw [hread.1, hread.2, if_neg Bool.false_ne_true, if_neg Bool.false_ne_true, List.takeWhile_eq_self_iff]
  intro op hop
  rw [decide_eq_true_eq]
  unfold attemptedOps settleOps at hop
  rw [hloop] at hop
  simp only [List.mem_append] at hop
  rcases hop with hop | hop | hop | hop | hop
  · simp only [dequeueLogOps, List.mem_cons, List.mem_map] at hop
    rcases hop with rfl | rfl | ⟨pad, -, rfl⟩ <;> trivial
  · simp only [enqueueLogOps, List.mem_cons, List.mem_map] at hop
    rcases hop with rfl | rfl | ⟨pae, -, rfl⟩ <;> trivial
  · exact (queueOps_spec (readLogs_keyed _) hloop).1 op hop
  · obtain ⟨q, -, hop⟩ := List.mem_flatMap.1 hop
    obtain ⟨pid, -, rfl⟩ := List.mem_map.1 hop
    trivial
  · have hw := (AsyncOperationLogger.logMassEnqueueDequeueComplete_eq_some_iff.1
      (resurrect_pending hkeyed hend).2.2.2).1
    simp only [bothCompleteOps, List.mem_cons, List.not_mem_nil, or_false] at hop
    rcases hop with rfl | rfl <;> exact hw

/-- All writes together leave the logs and the databases as `recoverMessages` does. -/
theorem applyOps_recoveryOps (hq : Recoverable s queues)
    (hreturn : recoverMessages loadContent malloc queues (s.restart smart) = some R) :
    let s' := (s.restart smart).applyOps (recoveryOps loadContent malloc queues (s.restart smart))
    s'.aologger = R.provider.aologger ∧ ∀ p q, s'.stored p q = R.provider.stored p q := by
  intro s'
  have hq' := hq.restart smart
  have hspec := recoverMessages_spec hq' hreturn
  obtain ⟨-, r, hloop, hend⟩ := recoverMessages_eq_some.1 hreturn
  have h := hq'.handled hloop
  obtain ⟨hw, haologger⟩ := AsyncOperationLogger.logMassEnqueueDequeueComplete_eq_some_iff.1
    (resurrect_pending h.keyed hend).2.2.2
  have hqueues := (queueOps_spec (readLogs_keyed (s.restart smart)) hloop).2 (readLogs (s.restart smart)).provider rfl
  have hs' : s' = (StoreProvider.applyOps
      { (readLogs (s.restart smart)).provider with aologger := r.provider.aologger }
      (queues.flatMap (discardOps r.provider))).applyOps (bothCompleteOps malloc (r.useless.map (·.opId))) := by
    show (s.restart smart).applyOps (recoveryOps _ _ _ _) = _
    rw [recoveryOps_of_returns hq hreturn, attemptedOps, applyOps_append, applyOps_append,
      applyOps_readLogs, settleOps, hloop, applyOps_append, hqueues, applyOps_append]
  rw [applyOps_bothCompleteOps hw] at hs'
  refine ⟨?_, fun p q => ?_⟩
  · rw [hs', ← haologger]
    simp only [aologger_discardOps]
  · rw [hs']
    refine (stored_discardOps r.provider queues p q).trans ?_
    unfold stored discarded
    rw [hspec.journal, h.journal]
    show (if _ then none else ((s.restart smart).journalList.find? q).bind _) = _
    by_cases hmem : q ∈ queues
    · cases hj : (s.restart smart).journalList.find? q with
      | none => simp
      | some jc =>
        have hfind : (readLogs (s.restart smart)).provider.journalList.find? q = some jc := hj
        have hreg : ((readLogs (s.restart smart)).registered jc q).find? p = jc.find? p := rfl
        rw [if_pos hmem, hfind]
        simp only [Option.map_some, Option.bind_some, JournalImpl.find?_discardAcceptedMessage,
          JournalImpl.acceptedList_discardTransientMessage, JournalImpl.find?_discardTransientMessage, hreg]
        by_cases h1 : p ∈ ((readLogs (s.restart smart)).registered jc q).acceptedList <;>
          by_cases h2 : p ∈ ((readLogs (s.restart smart)).registered jc q).transientList <;>
          simp [hmem, h1, h2]
    · have hnone : (s.restart smart).journalList.find? q = none := by
        rw [hq'.2, OrdMap.contains, Option.isSome_iff_ne_none, not_not] at hmem
        exact hmem
      simp [hmem, hnone]

end

/-! ### Completions -/

namespace DiskOp

/-- The enqueues that a write completes. -/
def enqueueCompletions : DiskOp → List PendingOperationId
  | .enqueueComplete k => [k]
  | .massEnqueueComplete _ ks => ks
  | _ => []

/-- The dequeues that a write completes. -/
def dequeueCompletions : DiskOp → List PendingOperationId
  | .massDequeueComplete _ ks => ks
  | _ => []

/-- The write leaves the files of the enqueue log in place and appends nothing but completions to them. -/
def Completing : DiskOp → Prop
  | .enqueueComplete _ | .massEnqueueComplete _ _ | .massDequeueComplete _ _ | .delete _ _ => True
  | _ => False

end DiskOp

open DiskOp

theorem enqueueLog_applyOps {s : StoreProvider} {ops : List DiskOp} (h : ∀ op ∈ ops, op.Completing)
    (hret : ∀ op ∈ ops, op.Returns) :
    (s.applyOps ops).aologger.enqueueLog = s.aologger.enqueueLog.write
      ((ops.flatMap enqueueCompletions).flatMap enqueueFormat.completeRecord) := by
  induction ops generalizing s with
  | nil => exact (AsyncLog.write_nil _).symm
  | cons op ops ih =>
    have hop := h op (List.mem_cons_self ..)
    rw [applyOps_cons, ih (fun op' hop' => h op' (List.mem_cons_of_mem _ hop'))
      (fun op' hop' => hret op' (List.mem_cons_of_mem _ hop')), List.flatMap_cons, List.flatMap_append,
      ← AsyncLog.write_write]
    congr 1
    cases op with
    | enqueueComplete k =>
      show _ = s.aologger.enqueueLog.write ([k].flatMap enqueueFormat.completeRecord)
      rw [List.flatMap_singleton]
      rfl
    | massEnqueueComplete malloc ks =>
      rw [applyOp_massEnqueueComplete _ (hret _ (List.mem_cons_self ..)), AsyncOperationLogger.enqueueCompletes_eq]
      exact AsyncLog.foldl_logComplete ..
    | massDequeueComplete malloc ks =>
      rw [applyOp_massDequeueComplete _ (hret _ (List.mem_cons_self ..)), AsyncOperationLogger.dequeueCompletes_eq]
      exact (AsyncLog.write_nil _).symm
    | delete pid qid =>
      show (s.modifyJournal qid fun j => j.removeMsg pid).aologger.enqueueLog = _
      rw [modifyJournal_aologger]
      exact (AsyncLog.write_nil _).symm
    | removeEnqueueFile i => exact hop.elim
    | removeDequeueFile i => exact hop.elim
    | enqueueStart pae => exact hop.elim
    | dequeueStart pad => exact hop.elim

/-- What a completion of a dequeue is for: the dequeue is pending, and unless its enqueue is pending too the message
is in the database. -/
def RecoveryState.Cancels (r : RecoveryState) (k : PendingOperationId) : Prop :=
  TwoLevel.find? r.adset k.2 k.1 ≠ none ∧ (TwoLevel.find? r.aeset k.2 k.1 = none →
    ∃ v, r.provider.stored k.1 k.2 = some v ∧ transientFlag v = false)

/-- The writes append completions.  Those of dequeues cancel a pending dequeue, and come after the completion of the
enqueue if that is pending. -/
structure Sound (r₀ : RecoveryState) (ops : List DiskOp) : Prop where
  completing : ∀ op ∈ ops, op.Completing
  cancels : ∀ k ∈ ops.flatMap dequeueCompletions, r₀.Cancels k
  ordered : ∀ xs, xs <+: ops → ∀ k ∈ xs.flatMap dequeueCompletions,
    TwoLevel.find? r₀.aeset k.2 k.1 = none ∨ k ∈ xs.flatMap enqueueCompletions

private theorem prefix_split {α : Type} {xs l l' : List α} (h : xs <+: l ++ l') :
    xs <+: l ∨ ∃ ys, ys <+: l' ∧ xs = l ++ ys := by
  rcases List.prefix_or_prefix_of_prefix h (List.prefix_append l l') with h' | ⟨ys, rfl⟩
  · exact Or.inl h'
  · exact Or.inr ⟨ys, (List.prefix_append_right_inj l).1 h, rfl⟩

namespace Sound

variable {r₀ : RecoveryState} {ops ops' : List DiskOp}

theorem append (h : Sound r₀ ops) (h' : Sound r₀ ops') : Sound r₀ (ops ++ ops') where
  completing := fun op hop => (List.mem_append.1 hop).elim (h.completing op) (h'.completing op)
  cancels := fun k hk => by
    rw [List.flatMap_append] at hk
    exact (List.mem_append.1 hk).elim (h.cancels k) (h'.cancels k)
  ordered := by
    intro xs hxs k hk
    rcases prefix_split hxs with hpre | ⟨ys, hys, rfl⟩
    · exact h.ordered xs hpre k hk
    · rw [List.flatMap_append] at hk ⊢
      rcases List.mem_append.1 hk with hk | hk
      · exact (h.ordered ops List.prefix_rfl k hk).imp_right (List.mem_append_left _)
      · exact (h'.ordered ys hys k hk).imp_right (List.mem_append_right _)

/-- Writes that complete no dequeue. -/
theorem of_enqueues (hc : ∀ op ∈ ops, op.Completing) (hd : ∀ op ∈ ops, op.dequeueCompletions = []) :
    Sound r₀ ops where
  completing := hc
  cancels := fun k hk => by
    obtain ⟨op, hop, hk⟩ := List.mem_flatMap.1 hk
    rw [hd op hop] at hk
    cases hk
  ordered := fun xs hxs k hk => by
    obtain ⟨op, hop, hk⟩ := List.mem_flatMap.1 hk
    rw [hd op (hxs.subset hop)] at hk
    cases hk

theorem nil : Sound r₀ [] :=
  of_enqueues (fun _ hop => absurd hop List.not_mem_nil) fun _ hop => absurd hop List.not_mem_nil

theorem both (malloc : List PendingOperationId → Bool) {ks : List PendingOperationId}
    (hks : ∀ k ∈ ks, r₀.Cancels k) : Sound r₀ (bothCompleteOps malloc ks) where
  completing := by
    intro op hop
    unfold bothCompleteOps at hop
    simp only [List.mem_cons, List.not_mem_nil, or_false] at hop
    rcases hop with rfl | rfl <;> trivial
  cancels := by
    intro k hk
    refine hks k ?_
    simpa [bothCompleteOps, dequeueCompletions] using hk
  ordered := by
    intro xs hxs k hk
    -- a prefix with the completion of the dequeue has the one of the enqueue
    rcases List.prefix_cons_iff.1 hxs with rfl | ⟨t, rfl, ht⟩
    · cases hk
    · refine Or.inr (List.mem_flatMap.2 ⟨_, List.mem_cons_self .., ?_⟩)
      rw [List.flatMap_cons] at hk
      obtain ⟨op, hop, hk⟩ := List.mem_flatMap.1 ((List.mem_append.1 hk).resolve_left fun hn => nomatch hn)
      rw [List.mem_singleton.1 (ht.subset hop)] at hk
      exact hk

theorem single {malloc : Bool} {ks : List PendingOperationId} (hks : ∀ k ∈ ks, r₀.Cancels k)
    (hnone : ∀ k ∈ ks, TwoLevel.find? r₀.aeset k.2 k.1 = none) : Sound r₀ [.massDequeueComplete malloc ks] where
  completing := fun op hop => by
    rw [List.mem_singleton.1 hop]
    trivial
  cancels := fun k hk => hks k (by simpa [dequeueCompletions] using hk)
  ordered := fun xs hxs k hk => by
    obtain ⟨op, hop, hk⟩ := List.mem_flatMap.1 hk
    rw [List.mem_singleton.1 (hxs.subset hop)] at hk
    exact Or.inl (hnone k hk)

end Sound

namespace RecoveryState

variable {r₀ : RecoveryState}

theorem cancels_of_useless (hr : r₀.Keyed) {k : PendingOperationId} (hk : k ∈ r₀.useless.map (·.opId)) :
    r₀.Cancels k := by
  obtain ⟨he, hd⟩ := (mem_useless hr k).1 hk
  exact ⟨hd, fun hn => absurd hn he⟩

/-- A dequeue that is completed on its own is that of a message in the database. -/
theorem cancels_of_accepted (hr : r₀.Keyed) {qid : UInt64} {k : PendingOperationId} (hk : k ∈ r₀.accepted qid) :
    r₀.Cancels k ∧ TwoLevel.find? r₀.aeset k.2 k.1 = none := by
  cases hj : r₀.provider.journalList.find? qid with
  | none =>
    unfold accepted recordsOf at hk
    rw [hj] at hk
    cases hk
  | some jc =>
    obtain ⟨hq, hp, horph⟩ := (mem_accepted hj k).1 hk
    rw [← hq] at horph
    obtain ⟨hd, hnone⟩ := orphaned_iff.1 horph
    refine ⟨⟨hd, fun _ => ?_⟩, hnone⟩
    obtain ⟨v, hmem, htr⟩ := mem_persistentIds.1 hp
    unfold records at hmem
    rcases List.mem_append.1 hmem with hmem | hmem
    · refine ⟨v, ?_, htr⟩
      unfold stored
      rw [hq, hj]
      exact (jc.mem_recoverMessages).1 hmem
    · -- the records from the log are those of pending enqueues
      obtain ⟨pae, hpae, he⟩ := List.mem_map.1 hmem
      obtain ⟨hpend, hpq, -⟩ := mem_live.1 ((logCopies_sublist jc 10 _).subset hpae)
      have hfind := (find?_aeset hr).2 ⟨hpend, hpq.trans hq.symm, (Prod.mk.inj he).1⟩
      rw [hfind] at hnone
      cases hnone

end RecoveryState

/-! ### All writes after the logs have been read -/

namespace Handled

variable {loadContent : UInt64 → Bytes → UInt64 → Bool} {malloc : List PendingOperationId → Bool}
  {r₀ r : RecoveryState} {done : List UInt64}

/-- The batch of the pairs of pending operations is written with the first queue, or at the end if there is none. -/
theorem sound_useless (h : Handled loadContent r₀ done r) (hr₀ : r₀.Keyed) :
    Sound r₀ (bothCompleteOps malloc (r.useless.map (·.opId))) := by
  by_cases hdone : done = []
  · rw [h.initial hdone]
    exact Sound.both malloc fun k hk => RecoveryState.cancels_of_useless hr₀ hk
  · rw [(h.dropped_nil hdone).2]
    exact Sound.both malloc fun k hk => absurd hk List.not_mem_nil

theorem sound_decodeOps (h : Handled loadContent r₀ done r) (hr₀ : r₀.Keyed) {qid : UInt64} (hnew : qid ∉ done) :
    Sound r₀ (decodeOps malloc r qid) := by
  unfold decodeOps
  cases hj : r.provider.journalList.find? qid with
  | none => exact Sound.nil
  | some jc =>
    have hjr : r₀.provider.journalList.find? qid = some jc := by rwa [h.journal, if_neg hnew] at hj
    have haccepted : r.accepted qid = r₀.accepted qid := by
      simp only [RecoveryState.accepted, RecoveryState.recordsOf, hj, hjr, RecoveryState.records,
        h.live_of_new hnew, h.orphaned_of_new hnew]
    show Sound r₀ (_ ++ ([_] ++ ([_] ++ _)))
    refine (Sound.of_enqueues (fun op hop => ?_) (fun op hop => ?_)).append
      ((Sound.of_enqueues (fun op hop => ?_) (fun op hop => ?_)).append
        ((Sound.single (fun k hk => ?_) (fun k hk => ?_)).append (h.sound_useless hr₀)))
    · obtain ⟨pae, -, rfl⟩ := List.mem_map.1 hop
      trivial
    · obtain ⟨pae, -, rfl⟩ := List.mem_map.1 hop
      rfl
    · rw [List.mem_singleton.1 hop]
      trivial
    · rw [List.mem_singleton.1 hop]
      rfl
    · rw [haccepted] at hk
      exact (RecoveryState.cancels_of_accepted hr₀ hk).1
    · rw [haccepted] at hk
      exact (RecoveryState.cancels_of_accepted hr₀ hk).2

theorem sound_queueOps (h : Handled loadContent r₀ done r) (hr₀ : r₀.Keyed) {queues : List UInt64}
    (hnd : (done ++ queues).Nodup) (hj : ∀ q ∈ queues, r₀.provider.journalList.contains q = true) :
    Sound r₀ (queueOps loadContent malloc r queues) := by
  induction queues generalizing done r with
  | nil => exact Sound.nil
  | cons q queues ih =>
    have hnew : q ∉ done := fun hq => (List.nodup_append.1 hnd).2.2 q hq q (List.mem_cons_self ..) rfl
    rw [List.append_cons] at hnd
    rw [queueOps]
    refine (h.sound_decodeOps hr₀ hnew).append ?_
    split
    · rename_i r₁ hr₁
      exact ih (h.step hnew (hj q (List.mem_cons_self ..)) hr₁) hnd fun q' hq' => hj q' (List.mem_cons_of_mem _ hq')
    · exact Sound.nil

end Handled

theorem sound_settleOps (loadContent : UInt64 → Bytes → UInt64 → Bool) (malloc : List PendingOperationId → Bool)
    {queues : List UInt64} {s : StoreProvider} (hq : Recoverable s queues) :
    Sound (readLogs s) (settleOps loadContent malloc queues (readLogs s)) := by
  have hkeyed := readLogs_keyed s
  have hstart := Handled.start loadContent s
  unfold settleOps
  refine (hstart.sound_queueOps hkeyed (by simpa using hq.1) fun q hmem => (hq.2 q).1 hmem).append ?_
  split
  · rename_i r hloop
    refine (Sound.of_enqueues (fun op hop => ?_) (fun op hop => ?_)).append ((hq.handled hloop).sound_useless hkeyed)
    · obtain ⟨q, -, hop⟩ := List.mem_flatMap.1 hop
      obtain ⟨pid, -, rfl⟩ := List.mem_map.1 hop
      trivial
    · obtain ⟨q, -, hop⟩ := List.mem_flatMap.1 hop
      obtain ⟨pid, -, rfl⟩ := List.mem_map.1 hop
      rfl
  · exact Sound.nil

/-! ### The enqueue log after some of the writes -/

private theorem completions_of_starts {ops : List DiskOp} {f : DiskOp → List PendingOperationId}
    (h : ∀ op ∈ ops, f op = []) : ops.flatMap f = [] :=
  List.flatMap_eq_nil_iff.2 h

/-- The writes to the dequeue log leave the enqueue log alone. -/
private theorem enqueueLog_of_cut {s : StoreProvider} {L : AsyncLog} {xs : List DiskOp}
    (h : xs <+: dequeueLogOps L) :
    (s.applyOps xs).aologger.enqueueLog = s.aologger.enqueueLog ∧ xs.flatMap dequeueCompletions = [] := by
  have hmem : ∀ op ∈ xs, (∃ i, op = .removeDequeueFile i) ∨ ∃ pad, op = .dequeueStart pad := by
    intro op hop
    have hop := h.subset hop
    unfold dequeueLogOps at hop
    simp only [List.mem_cons, List.mem_map] at hop
    rcases hop with rfl | rfl | ⟨pad, -, rfl⟩
    · exact Or.inl ⟨0, rfl⟩
    · exact Or.inl ⟨1, rfl⟩
    · exact Or.inr ⟨pad, rfl⟩
  clear h
  constructor
  · induction xs generalizing s with
    | nil => rfl
    | cons op xs ih =>
      rw [applyOps_cons, ih fun op' hop' => hmem op' (List.mem_cons_of_mem _ hop')]
      rcases hmem op (List.mem_cons_self ..) with ⟨i, rfl⟩ | ⟨pad, rfl⟩ <;> rfl
  · refine completions_of_starts fun op hop => ?_
    rcases hmem op hop with ⟨i, rfl⟩ | ⟨pad, rfl⟩ <;> rfl

/-- What recovery has written at any time is the beginning of what it attempts, and every call has returned. -/
theorem recoveryOps_attempted {loadContent : UInt64 → Bytes → UInt64 → Bool} {malloc : List PendingOperationId → Bool}
    {queues : List UInt64} {s : StoreProvider} {xs : List DiskOp}
    (hxs : xs <+: recoveryOps loadContent malloc queues s) :
    xs <+: attemptedOps loadContent malloc queues s ∧ ∀ op ∈ xs, op.Returns := by
  have hstarts : ∀ op ∈ dequeueLogOps s.aologger.dequeueLog, op.Returns := by
    intro op hop
    simp only [dequeueLogOps, List.mem_cons, List.mem_map] at hop
    rcases hop with rfl | rfl | ⟨pad, -, rfl⟩ <;> trivial
  unfold recoveryOps at hxs
  split at hxs
  · rw [List.prefix_nil.1 hxs]
    exact ⟨List.nil_prefix, fun op hop => absurd hop List.not_mem_nil⟩
  · split at hxs
    · exact ⟨hxs.trans (List.prefix_append _ _), fun op hop => hstarts op (hxs.subset hop)⟩
    · refine ⟨hxs.trans (List.takeWhile_prefix _), fun op hop => ?_⟩
      have hreturns := List.mem_takeWhile_imp (hxs.subset hop)
      exact of_decide_eq_true hreturns

/-- A prefix of the writes: the enqueue log is as it was, or its first file has just been removed, or it holds the
first pending operations again, or all of them and completions. -/
theorem prefix_recoveryOps {loadContent : UInt64 → Bytes → UInt64 → Bool} {malloc : List PendingOperationId → Bool}
    {queues : List UInt64} {s : StoreProvider} {smart : Bool} {xs : List DiskOp}
    (hxs : xs <+: recoveryOps loadContent malloc queues (s.restart smart))
    (hc : ∀ op ∈ settleOps loadContent malloc queues (readLogs (s.restart smart)), op.Completing) :
    let L := (s.restart smart).aologger.enqueueLog
    let L' := ((s.restart smart).applyOps xs).aologger.enqueueLog
    (xs.flatMap dequeueCompletions = [] ∧ (L' = L ∨ xs.getLast? = some (.removeEnqueueFile 0) ∨
      ∃ n, L' = L.recoverAsyncUntil enqueueFormat (.relogged n))) ∨
    ∃ zs, zs <+: settleOps loadContent malloc queues (readLogs (s.restart smart)) ∧
      xs.flatMap dequeueCompletions = zs.flatMap dequeueCompletions ∧
      L' = (L.recoverAsync enqueueFormat).2.write
        ((zs.flatMap enqueueCompletions).flatMap enqueueFormat.completeRecord) := by
  intro L L'
  obtain ⟨hxs, hret⟩ := recoveryOps_attempted hxs
  have hfull := enqueueLog_of_cut (s := s.restart smart) (L := (s.restart smart).aologger.dequeueLog) List.prefix_rfl
  have hstarts : ∀ (l : List PendingAsyncEnqueue),
      (.removeEnqueueFile 0 :: .removeEnqueueFile 1 :: l.map .enqueueStart : List DiskOp).flatMap dequeueCompletions =
        [] := by
    intro l
    refine completions_of_starts fun op hop => ?_
    simp only [List.mem_cons, List.mem_map] at hop
    rcases hop with rfl | rfl | ⟨pae, -, rfl⟩ <;> rfl
  have hlog : ∀ l : List PendingAsyncEnqueue, ((s.restart smart).applyOps
      (dequeueLogOps (s.restart smart).aologger.dequeueLog ++
        .removeEnqueueFile 0 :: .removeEnqueueFile 1 :: l.map .enqueueStart)).aologger.enqueueLog =
        l.foldl (AsyncLog.logStart enqueueFormat) { L with file := fun _ => [], index := 0 } := by
    intro l
    rw [applyOps_append, applyOps_removeEnqueueFiles (by rw [hfull.1]; rfl), hfull.1]
  rcases prefix_split hxs with hpre | ⟨ys, hys, rfl⟩
  · obtain ⟨hsame, hnil⟩ := enqueueLog_of_cut (s := s.restart smart) hpre
    exact Or.inl ⟨hnil, Or.inl hsame⟩
  · rcases prefix_split hys with hpre | ⟨zs, hzs, rfl⟩
    · left
      unfold enqueueLogOps at hpre
      rcases List.prefix_cons_iff.1 hpre with rfl | ⟨t, rfl, ht⟩
      · have happ := List.append_nil (dequeueLogOps (s.restart smart).aologger.dequeueLog)
        refine ⟨?_, Or.inl ?_⟩
        · rw [happ]
          exact hfull.2
        · show ((s.restart smart).applyOps _).aologger.enqueueLog = _
          rw [happ]
          exact hfull.1
      · rcases List.prefix_cons_iff.1 ht with rfl | ⟨t', rfl, ht'⟩
        · refine ⟨?_, Or.inr (Or.inl (by simp))⟩
          rw [List.flatMap_append, hfull.2]
          rfl
        · obtain ⟨n, rfl⟩ : ∃ n, t' = ((L.pendingInFiles enqueueFormat).take n).map .enqueueStart := by
            refine ⟨t'.length, ?_⟩
            rw [List.map_take]
            exact List.prefix_iff_eq_take.1 ht'
          refine ⟨?_, Or.inr (Or.inr ⟨n, hlog _⟩)⟩
          rw [List.flatMap_append, hfull.2, hstarts]
          rfl
    · refine Or.inr ⟨zs, hzs, ?_, ?_⟩
      · rw [List.flatMap_append, List.flatMap_append, hfull.2]
        unfold enqueueLogOps
        rw [hstarts]
        rfl
      · show ((s.restart smart).applyOps _).aologger.enqueueLog = _
        rw [← List.append_assoc, applyOps_append, enqueueLog_applyOps (fun op hop => hc op (hzs.subset hop))
          fun op hop => hret op (List.mem_append_right _ (List.mem_append_right _ hop))]
        congr 1
        exact hlog _

/-- What a crash inside recovery leaves of the enqueue log: nothing is pending that was not, and nothing whose dequeue
has been completed. -/
theorem pending_of_cut {loadContent : UInt64 → Bytes → UInt64 → Bool} {malloc : List PendingOperationId → Bool}
    {queues : List UInt64} {s : StoreProvider} {smart : Bool} {xs : List DiskOp} (hq : Recoverable s queues)
    (hxs : xs <+: recoveryOps loadContent malloc queues (s.restart smart)) :
    (∀ k ∈ xs.flatMap dequeueCompletions, (readLogs (s.restart smart)).Cancels k) ∧
    (xs.getLast? ≠ some (.removeEnqueueFile 0) → ∀ k : PendingOperationId,
      TwoLevel.find? (((s.restart smart).applyOps xs).aologger.enqueueLog.recoverAsync enqueueFormat).1
      k.2 k.1 ≠ none →
      TwoLevel.find? (readLogs (s.restart smart)).aeset k.2 k.1 ≠ none ∧ k ∉ xs.flatMap dequeueCompletions) := by
  have hsound := sound_settleOps loadContent malloc (hq.restart smart)
  rcases prefix_recoveryOps hxs hsound.completing with ⟨hnil, hlog⟩ | ⟨zs, hzs, hcompl, hlog⟩
  · rw [hnil]
    refine ⟨fun k hk => absurd hk List.not_mem_nil, fun hlast k hk => ⟨?_, List.not_mem_nil⟩⟩
    rcases hlog with hlog | hlog | ⟨n, hlog⟩
    · rw [hlog] at hk
      exact hk
    · exact absurd hlog hlast
    · rw [hlog, AsyncLog.find?_relogged] at hk
      show TwoLevel.find? ((s.restart smart).aologger.enqueueLog.recoverAsync enqueueFormat).1 k.2 k.1 ≠ none
      rw [AsyncLog.find?_recovered]
      intro hnone
      rw [List.find?_eq_none] at hnone
      exact hk (List.find?_eq_none.2 fun a ha => hnone a (List.mem_of_mem_take ha))
  · rw [hcompl]
    refine ⟨fun k hk => ?_, fun _ k hk => ?_⟩
    · obtain ⟨op, hop, hk⟩ := List.mem_flatMap.1 hk
      exact hsound.cancels k (List.mem_flatMap.2 ⟨op, hzs.subset hop, hk⟩)
    · rw [hlog, AsyncLog.find?_recoverAsync_completes] at hk
      split at hk
      · exact absurd rfl hk
      · rename_i hnot
        exact ⟨hk, fun hd => hnot ((hsound.ordered zs hzs k hd).resolve_left hk)⟩

end BdbMsgStore

import BdbMsgStore.RecoveryPasses

/-!
# What recovery does, queue by queue

`decodeAndRecoverMsg` handles a queue while the pending sets are shared by all queues.  What it reads of them for a
queue is not changed by the queues handled before: the live pending enqueues of the queue (`RecoveryState.live`), and
the pending dequeues of the queue that no pending enqueue goes with (`RecoveryState.orphaned`).  So the result for a
queue is a function of the state at the start (`RecoveryState.delivered`), whatever the order of the queues
(`Handled.foldlM`).
-/

namespace BdbMsgStore

open StoreProvider

namespace RecoveryState

/-- The pending enqueues, in the order of the loops. -/
def pending (r : RecoveryState) : List PendingAsyncEnqueue := AsyncLog.pendingList r.aeset

/-- The live pending enqueues of a queue. -/
def live (r : RecoveryState) (qid : UInt64) : List PendingAsyncEnqueue := liveOf r.adset r.pending qid

/-- The pending enqueues that are dropped because their message is transient. -/
def transients (r : RecoveryState) : List PendingAsyncEnqueue :=
  r.pending.filter fun pae => !pae.dequeued r.adset && pae.transient

/-- The pending enqueues that are dropped together with a pending dequeue. -/
def useless (r : RecoveryState) : List PendingAsyncEnqueue := r.pending.filter fun pae => pae.dequeued r.adset

/-- The queue has a pending dequeue of the message, and no pending enqueue. -/
def orphaned (r : RecoveryState) (qid pid : UInt64) : Bool :=
  (TwoLevel.find? r.adset qid pid).isSome && (TwoLevel.find? r.aeset qid pid).isNone

/-- The records of a queue: what its databases hold, and the pending enqueues added to it. -/
def records (r : RecoveryState) (jc : JournalImpl) (qid : UInt64) : List (UInt64 × Bytes) :=
  jc.recoverMessages ++ (logCopies jc 10 (r.live qid)).map fun pae => (pae.msgId, pae.buff)

/-- The journal of a queue, with the messages registered for deletion. -/
def registered (r : RecoveryState) (jc : JournalImpl) (qid : UInt64) : JournalImpl :=
  (jc.registerAsTransient (((r.records jc qid).filter fun c => transientFlag c.2).map (·.1))).registerAsAccepted
    ((acceptedOf (r.orphaned qid) (r.records jc qid)).map (·.1))

/-- Every pending enqueue stands under its own ids. -/
def Keyed (r : RecoveryState) : Prop :=
  TwoLevel.Keyed (fun pae : PendingAsyncEnqueue => (pae.queueId, pae.msgId)) r.aeset

section

variable {r : RecoveryState} (hr : r.Keyed)

include hr

theorem nodup_opId : (r.pending.map (·.opId)).Nodup := by
  have h : ((r.pending.map fun pae => (pae.queueId, pae.msgId)).map Prod.swap).Nodup :=
    (TwoLevel.Keyed.nodup hr).map Prod.swap_injective
  rw [List.map_map] at h
  exact h

theorem find?_aeset {q p : UInt64} {pae : PendingAsyncEnqueue} :
    TwoLevel.find? r.aeset q p = some pae ↔ pae ∈ r.pending ∧ pae.queueId = q ∧ pae.msgId = p := by
  rw [TwoLevel.Keyed.find?_iff hr, Prod.mk.injEq]
  rfl

theorem mem_pending_iff {pae : PendingAsyncEnqueue} :
    pae ∈ r.pending ↔ TwoLevel.find? r.aeset pae.queueId pae.msgId = some pae := by
  rw [find?_aeset hr]
  exact ⟨fun hmem => ⟨hmem, rfl, rfl⟩, fun h => h.1⟩

theorem mem_opId {q p : UInt64} : (p, q) ∈ r.pending.map (·.opId) ↔ (TwoLevel.find? r.aeset q p).isSome = true := by
  rw [Option.isSome_iff_exists, List.mem_map]
  constructor
  · rintro ⟨pae, hmem, hid⟩
    cases hid
    exact ⟨pae, (find?_aeset hr).2 ⟨hmem, rfl, rfl⟩⟩
  · rintro ⟨pae, hf⟩
    obtain ⟨hmem, rfl, rfl⟩ := (find?_aeset hr).1 hf
    exact ⟨pae, hmem, rfl⟩

end

theorem mem_live {r : RecoveryState} {q : UInt64} {pae : PendingAsyncEnqueue} :
    pae ∈ r.live q ↔ pae ∈ r.pending ∧ pae.queueId = q ∧ TwoLevel.find? r.adset q pae.msgId = none ∧
      pae.transient = false := by
  unfold live liveOf
  rw [List.mem_filter]
  simp only [PendingAsyncEnqueue.live, PendingAsyncEnqueue.dequeued, Bool.and_eq_true, Bool.not_eq_true',
    decide_eq_true_eq, Option.isSome_eq_false_iff, Option.isNone_iff_eq_none]
  constructor
  · rintro ⟨hm, ⟨hd, ht⟩, rfl⟩
    exact ⟨hm, rfl, hd, ht⟩
  · rintro ⟨hm, rfl, hd, ht⟩
    exact ⟨hm, ⟨hd, ht⟩, rfl⟩

/-- The pending enqueue of a message is live for at most one entry of a queue. -/
theorem nodup_live {r : RecoveryState} (hr : r.Keyed) (q : UInt64) : ((r.live q).map (·.msgId)).Nodup := by
  rw [List.nodup_iff_pairwise_ne, List.pairwise_map]
  have h := nodup_opId hr
  rw [List.nodup_iff_pairwise_ne, List.pairwise_map] at h
  refine (h.sublist (List.filter_sublist (l := r.pending))).imp_of_mem ?_
  intro a b ha hb hab he
  have ha' := (mem_live.1 ha).2.1
  have hb' := (mem_live.1 hb).2.1
  exact hab (Prod.ext he (ha'.trans hb'.symm))

/-- A record with an orphaned dequeue is the only one of its message. -/
theorem records_unique {r : RecoveryState} (hr : r.Keyed) (jc : JournalImpl) (q : UInt64) :
    (r.records jc q).Pairwise fun a b => a.1 = b.1 → r.orphaned q a.1 = false := by
  have hdb := jc.recoverMessages_nodup
  rw [List.nodup_iff_pairwise_ne, List.pairwise_map] at hdb
  have hlog := nodup_live hr q
  rw [List.nodup_iff_pairwise_ne, List.pairwise_map] at hlog
  unfold records
  rw [List.pairwise_append]
  refine ⟨hdb.imp fun hne he => absurd he hne, ?_, ?_⟩
  · rw [List.pairwise_map]
    exact (hlog.sublist (logCopies_sublist jc 10 _)).imp fun hne he => absurd he hne
  · intro a _ b hb he
    obtain ⟨pae, hpae, rfl⟩ := List.mem_map.1 hb
    have hmem := mem_live.1 ((logCopies_sublist jc 10 _).subset hpae)
    have hf := (find?_aeset hr).2 ⟨hmem.1, hmem.2.1, rfl⟩
    unfold orphaned
    rw [show a.1 = pae.msgId from he, hf]
    simp

end RecoveryState

/-! ### One queue -/

/-- What `decodeAndRecoverMsg` makes of the state `r`, for the queue `qid` with the journal `jc`. -/
structure DecodeSpec (loadContent : UInt64 → Bytes → UInt64 → Bool) (malloc : List PendingOperationId → Bool)
    (jc : JournalImpl) (qid : UInt64) (r r' : RecoveryState) : Prop where
  keyed : r'.Keyed
  pendingSelf : r'.pending.filter (fun pae => decide (pae.queueId = qid)) = logCopies jc 10 (r.live qid)
  pendingOther : ∀ q, q ≠ qid → r'.pending.filter (fun pae => decide (pae.queueId = q)) = r.live q
  adset : ∀ q p, TwoLevel.find? r'.adset q p =
    if (TwoLevel.find? r.aeset q p).isSome = true ∨ (q = qid ∧ p ∈ persistentIds (r.records jc qid)) then none
    else TwoLevel.find? r.adset q p
  queues : ∀ p, r'.messageQueueMap.queues p = r.messageQueueMap.queues p ++
    List.replicate (((deliveries loadContent (r.orphaned qid) (r.records jc qid)).map (·.1)).count p) qid
  messages : ∀ p msg, r'.messageMap.find? p = some msg → r.messageMap.find? p = some msg ∨
    ∃ v, (p, v) ∈ deliveries loadContent (r.orphaned qid) (r.records jc qid) ∧
      msg = ⟨storedHeader v, storedContent v⟩
  known : ∀ p, r'.messageMap.contains p = true ↔ r.messageMap.contains p = true ∨
    p ∈ (deliveries loadContent (r.orphaned qid) (r.records jc qid)).map (·.1)
  highestRid : r'.highestRid = serialMax r.highestRid (highest (persistentIds (r.records jc qid)))
  localLastPid : r'.localLastPid = serialMax r.localLastPid
    (highest (unmatched (idSet (logCopies jc 10 (r.live qid))) (r.records jc qid)))
  journal : ∀ q, r'.provider.journalList.find? q =
    if q = qid then some (r.registered jc qid) else r.provider.journalList.find? q
  aologger : completeLogs malloc
    ((overlap jc 10 (r.live qid)).foldl (fun lg pae => lg.logEnqueueComplete pae.msgId pae.queueId)
      r.provider.aologger)
    (r.transients.map (·.opId))
    ((acceptedOf (r.orphaned qid) (r.records jc qid)).map fun c => (c.1, qid))
    (r.useless.map (·.opId)) = some r'.provider.aologger
  tracker : r'.provider.tracker = r.provider.tracker
  threads : r'.provider.threads = r.provider.threads
  enableSmartAsync : r'.provider.enableSmartAsync = r.provider.enableSmartAsync

/-- The first loop of `decodeAndRecoverMsg` on the state `r`. -/
def RecoveryState.firstLoop (r : RecoveryState) (jc : JournalImpl) (qid : UInt64) : PendingEnqueueSet × PendingPass :=
  pendingPass jc.isEnqueued jc.recoverMessages qid r.messageRecovery

private theorem firstLoop_spec (jc : JournalImpl) (qid : UInt64) {r : RecoveryState} (hr : r.Keyed) :
    PendingPassSpec jc qid r.adset r.pending
      { aologger := r.provider.aologger, adset := r.adset, recovered := jc.recoverMessages }
      (AsyncLog.pendingList (r.firstLoop jc qid).1, (r.firstLoop jc qid).2) := by
  have hsweep := TwoLevel.values_sweep (recoverPending jc.isEnqueued qid) r.aeset
    { aologger := r.provider.aologger, adset := r.adset, recovered := jc.recoverMessages }
  have heq : (AsyncLog.pendingList (r.firstLoop jc qid).1, (r.firstLoop jc qid).2) =
      TwoLevel.sweepList (recoverPending jc.isEnqueued qid) r.pending
        { aologger := r.provider.aologger, adset := r.adset, recovered := jc.recoverMessages } :=
    Prod.ext hsweep.1 hsweep.2
  rw [heq]
  exact sweepList_recoverPending jc qid r.adset r.pending _ (RecoveryState.nodup_opId hr) (fun _ _ => rfl)

private theorem messagePass_spec (loadContent : UInt64 → Bytes → UInt64 → Bool) (jc : JournalImpl) (qid : UInt64)
    {r : RecoveryState} (hr : r.Keyed) :
    MessagePassSpec loadContent qid (r.orphaned qid) (r.records jc qid)
      { adset := (r.firstLoop jc qid).2.adset, penqRecovered := (r.firstLoop jc qid).2.penqRecovered
        messageMap := r.messageMap, messageQueueMap := r.messageQueueMap }
      (messagePass loadContent qid r.messageRecovery (r.firstLoop jc qid).2) := by
  have hp := firstLoop_spec jc qid hr
  have hrec : (r.firstLoop jc qid).2.recovered = r.records jc qid := hp.recovered
  unfold messagePass
  rw [hrec]
  refine foldl_recoverMsg loadContent qid (r.orphaned qid) _ _ (RecoveryState.records_unique hr jc qid) ?_
  intro c _
  have had := hp.adset qid c.1
  simp only [RecoveryState.mem_opId hr] at had
  rw [had]
  unfold RecoveryState.orphaned
  cases TwoLevel.find? r.aeset qid c.1 <;> simp

/-- When `decodeAndRecoverMsg` returns, its batches of completions were written. -/
theorem decodeAndRecoverMsg_eq_some {loadContent : UInt64 → Bytes → UInt64 → Bool}
    {malloc : List PendingOperationId → Bool} {jc : JournalImpl} {qid : UInt64} {r r' : RecoveryState} :
    decodeAndRecoverMsg loadContent malloc jc qid r = some r' ↔
      ∃ lg, completeLogs malloc (r.firstLoop jc qid).2.aologger (r.firstLoop jc qid).2.transientAsync
          (messagePass loadContent qid r.messageRecovery (r.firstLoop jc qid).2).dequeueCompletedAsync
          (r.firstLoop jc qid).2.uselessAsync = some lg ∧
        let m := messagePass loadContent qid r.messageRecovery (r.firstLoop jc qid).2
        { provider := { r.provider with
            aologger := lg
            journalList := r.provider.journalList.assign qid
              ((jc.registerAsTransient m.transientMsg).registerAsAccepted m.asyncAcceptedMsg) }
          adset := m.adset
          aeset := (r.firstLoop jc qid).1
          messageMap := m.messageMap
          messageQueueMap := m.messageQueueMap
          highestRid := serialMax r.highestRid m.maxRid
          localLastPid := serialMax r.localLastPid m.lastPid } = r' := by
  simp only [decodeAndRecoverMsg, decodeRecords, RecoveryState.firstLoop, Option.bind_eq_bind,
    Option.bind_eq_some_iff, Option.pure_def, Option.some.injEq]
  constructor
  · rintro ⟨_, ⟨lg, hlg, rfl⟩, h⟩
    exact ⟨lg, hlg, h⟩
  · rintro ⟨lg, hlg, h⟩
    exact ⟨_, ⟨lg, hlg, rfl⟩, h⟩

/-- The completions that are logged for a queue. -/
private theorem completeLogs_firstLoop (loadContent : UInt64 → Bytes → UInt64 → Bool)
    (malloc : List PendingOperationId → Bool) (jc : JournalImpl) (qid : UInt64) {r : RecoveryState} (hr : r.Keyed) :
    completeLogs malloc (r.firstLoop jc qid).2.aologger (r.firstLoop jc qid).2.transientAsync
        (messagePass loadContent qid r.messageRecovery (r.firstLoop jc qid).2).dequeueCompletedAsync
        (r.firstLoop jc qid).2.uselessAsync =
      completeLogs malloc
        ((overlap jc 10 (r.live qid)).foldl (fun lg pae => lg.logEnqueueComplete pae.msgId pae.queueId)
          r.provider.aologger)
        (r.transients.map (·.opId))
        ((acceptedOf (r.orphaned qid) (r.records jc qid)).map fun c => (c.1, qid))
        (r.useless.map (·.opId)) := by
  have hp := firstLoop_spec jc qid hr
  have h1 : (r.firstLoop jc qid).2.aologger = _ := hp.aologger
  have h2 : (r.firstLoop jc qid).2.transientAsync = _ := hp.transientAsync
  have h3 : (r.firstLoop jc qid).2.uselessAsync = _ := hp.uselessAsync
  rw [h1, h2, h3, (messagePass_spec loadContent jc qid hr).dequeueCompletedAsync]
  simp [RecoveryState.live, RecoveryState.transients, RecoveryState.useless]

theorem decodeAndRecoverMsg_isSome (loadContent : UInt64 → Bytes → UInt64 → Bool)
    (malloc : List PendingOperationId → Bool) (jc : JournalImpl) (qid : UInt64) {r : RecoveryState} (hr : r.Keyed) :
    (decodeAndRecoverMsg loadContent malloc jc qid r).isSome = (completeLogs malloc
      ((overlap jc 10 (r.live qid)).foldl (fun lg pae => lg.logEnqueueComplete pae.msgId pae.queueId)
        r.provider.aologger)
      (r.transients.map (·.opId))
      ((acceptedOf (r.orphaned qid) (r.records jc qid)).map fun c => (c.1, qid))
      (r.useless.map (·.opId))).isSome := by
  rw [← completeLogs_firstLoop loadContent malloc jc qid hr, Bool.eq_iff_iff,
    Option.isSome_iff_exists, Option.isSome_iff_exists]
  simp only [decodeAndRecoverMsg_eq_some]
  constructor
  · rintro ⟨_, lg, hlg, -⟩
    exact ⟨lg, hlg⟩
  · rintro ⟨lg, hlg⟩
    exact ⟨_, lg, hlg, rfl⟩

theorem decodeAndRecoverMsg_spec {loadContent : UInt64 → Bytes → UInt64 → Bool}
    {malloc : List PendingOperationId → Bool} {jc : JournalImpl} {qid : UInt64} {r r' : RecoveryState} (hr : r.Keyed)
    (h : decodeAndRecoverMsg loadContent malloc jc qid r = some r') :
    DecodeSpec loadContent malloc jc qid r r' := by
  have hp := firstLoop_spec jc qid hr
  have hm := messagePass_spec loadContent jc qid hr
  obtain ⟨lg, hlg, rfl⟩ := decodeAndRecoverMsg_eq_some.1 h
  refine
    { keyed := TwoLevel.Keyed.sweep hr _ _
      pendingSelf := hp.keptSelf
      pendingOther := hp.keptOther
      adset := fun q p => ?_
      queues := hm.queues
      messages := hm.messages
      known := hm.known
      highestRid := ?_
      localLastPid := ?_
      journal := fun q => ?_
      aologger := ?_
      tracker := rfl
      threads := rfl
      enableSmartAsync := rfl }
  · refine (hm.adset q p).trans ?_
    have had := hp.adset q p
    simp only [RecoveryState.mem_opId hr] at had
    simp only [had]
    by_cases h1 : q = qid ∧ p ∈ persistentIds (r.records jc qid) <;>
      by_cases h2 : (TwoLevel.find? r.aeset q p).isSome = true <;> simp [h1, h2]
  · exact congrArg (serialMax r.highestRid) hm.maxRid
  · have hpenq : (r.firstLoop jc qid).2.penqRecovered = idSet (logCopies jc 10 (r.live qid)) := by
      refine OrdMap.ext_unit fun p => Bool.eq_iff_iff.2 ((hp.penqRecovered p).trans ?_)
      rw [contains_idSet]
      simp [OrdMap.contains, RecoveryState.live]
    rw [← hpenq]
    exact congrArg (serialMax r.localLastPid) hm.lastPid
  · show (r.provider.journalList.assign qid _).find? q = _
    rw [OrdMap.find?_assign, hm.transientMsg, hm.asyncAcceptedMsg]
    rfl
  · rw [completeLogs_firstLoop loadContent malloc jc qid hr] at hlg
    exact hlg

namespace DecodeSpec

variable {loadContent : UInt64 → Bytes → UInt64 → Bool} {malloc : List PendingOperationId → Bool} {jc : JournalImpl}
  {qid : UInt64} {r r' : RecoveryState} (h : DecodeSpec loadContent malloc jc qid r r')

include h

theorem mem_pending {pae : PendingAsyncEnqueue} :
    pae ∈ r'.pending ↔
      pae ∈ if pae.queueId = qid then logCopies jc 10 (r.live qid) else r.live pae.queueId := by
  have hfilter : pae ∈ r'.pending ↔ pae ∈ r'.pending.filter fun a => decide (a.queueId = pae.queueId) := by
    simp
  rw [hfilter]
  split
  · rename_i hq
    rw [hq, h.pendingSelf]
  · rename_i hq
    rw [h.pendingOther _ hq]

theorem mem_live_of_pending {pae : PendingAsyncEnqueue} (hmem : pae ∈ r'.pending) : pae ∈ r.live pae.queueId := by
  rw [h.mem_pending] at hmem
  split at hmem
  · rename_i hq
    rw [hq]
    exact (logCopies_sublist jc 10 _).subset hmem
  · exact hmem

/-- What is left of the pending enqueues is live. -/
theorem live_of_pending {pae : PendingAsyncEnqueue} (hmem : pae ∈ r'.pending) : pae.live r'.adset = true := by
  obtain ⟨_, _, hd, ht⟩ := RecoveryState.mem_live.1 (h.mem_live_of_pending hmem)
  have hd' : TwoLevel.find? r'.adset pae.queueId pae.msgId = none := by
    rw [h.adset]
    split
    · rfl
    · exact hd
  simp [PendingAsyncEnqueue.live, PendingAsyncEnqueue.dequeued, hd', ht]

theorem live_eq (q : UInt64) : r'.live q = if q = qid then logCopies jc 10 (r.live qid) else r.live q := by
  have hfilter : r'.live q = r'.pending.filter fun pae => decide (pae.queueId = q) := by
    refine List.filter_congr fun pae hmem => ?_
    rw [h.live_of_pending hmem, Bool.true_and]
  rw [hfilter]
  split
  · rename_i hq
    rw [hq, h.pendingSelf]
  · rename_i hq
    exact h.pendingOther q hq

/-- What is left of the pending dequeues goes with no pending enqueue. -/
private theorem orphaned_eq_isSome (hr : r.Keyed) (q p : UInt64) :
    r'.orphaned q p = (TwoLevel.find? r'.adset q p).isSome := by
  unfold RecoveryState.orphaned
  cases hd : TwoLevel.find? r'.adset q p with
  | none => simp
  | some pad =>
    have hnone : TwoLevel.find? r'.aeset q p = none := by
      rw [← Option.not_isSome_iff_eq_none]
      intro hsome
      obtain ⟨pae, hpae⟩ := Option.isSome_iff_exists.1 hsome
      obtain ⟨hmem, rfl, rfl⟩ := (RecoveryState.find?_aeset h.keyed).1 hpae
      have hmem' := (RecoveryState.mem_live.1 (h.mem_live_of_pending hmem)).1
      rw [h.adset, (RecoveryState.find?_aeset hr).2 ⟨hmem', rfl, rfl⟩] at hd
      simp at hd
    simp [hnone]

theorem orphaned_eq (hr : r.Keyed) (q p : UInt64) :
    r'.orphaned q p = (r.orphaned q p && !decide (q = qid ∧ p ∈ persistentIds (r.records jc qid))) := by
  rw [h.orphaned_eq_isSome hr, h.adset]
  unfold RecoveryState.orphaned
  cases TwoLevel.find? r.aeset q p <;> by_cases hp : q = qid ∧ p ∈ persistentIds (r.records jc qid) <;>
    simp [hp]

end DecodeSpec

/-! ### All queues -/

namespace RecoveryState

variable (r : RecoveryState)

/-- The pending enqueues of a queue that stay pending when it is handled. -/
def copies (qid : UInt64) : List PendingAsyncEnqueue :=
  match r.provider.journalList.find? qid with
  | some jc => logCopies jc 10 (r.live qid)
  | none => r.live qid

/-- The records of a queue by its id. -/
def recordsOf (qid : UInt64) : List (UInt64 × Bytes) :=
  match r.provider.journalList.find? qid with
  | some jc => r.records jc qid
  | none => []

/-- The records of a queue that are handed to the broker. -/
def delivered (loadContent : UInt64 → Bytes → UInt64 → Bool) (qid : UInt64) : List (UInt64 × Bytes) :=
  deliveries loadContent (r.orphaned qid) (r.recordsOf qid)

theorem copies_eq {r : RecoveryState} {qid : UInt64} {jc : JournalImpl}
    (h : r.provider.journalList.find? qid = some jc) : r.copies qid = logCopies jc 10 (r.live qid) := by
  unfold copies
  rw [h]

/-- What is still pending in the log when recovery handles the queue. -/
theorem mem_live_of_copies {r : RecoveryState} {q : UInt64} {pae : PendingAsyncEnqueue} (h : pae ∈ r.copies q) :
    pae ∈ r.live q := by
  unfold copies at h
  split at h
  · exact (logCopies_sublist _ _ _).subset h
  · exact h

/-- The ids of a queue that count for `localLastPid`. -/
def settledIds (qid : UInt64) : List UInt64 := unmatched (idSet (r.copies qid)) (r.recordsOf qid)

end RecoveryState

/-- The state `r` of the loop when it has handled the queues `done`, starting from `r₀`. -/
structure Handled (loadContent : UInt64 → Bytes → UInt64 → Bool) (r₀ : RecoveryState) (done : List UInt64)
    (r : RecoveryState) : Prop where
  keyed : r.Keyed
  live : ∀ q, r.live q = if q ∈ done then r₀.copies q else r₀.live q
  orphaned : ∀ q p, r.orphaned q p = (r₀.orphaned q p && !decide (q ∈ done ∧ p ∈ persistentIds (r₀.recordsOf q)))
  initial : done = [] → r = r₀
  purged : done ≠ [] → ∀ pae ∈ r.pending, pae.live r.adset = true
  adset : ∀ q p pad, TwoLevel.find? r.adset q p = some pad → TwoLevel.find? r₀.adset q p = some pad
  queues : ∀ p q, (r.messageQueueMap.queues p).count q =
    if q ∈ done then ((r₀.delivered loadContent q).map (·.1)).count p else 0
  messages : ∀ p msg, r.messageMap.find? p = some msg →
    ∃ q ∈ done, ∃ v, (p, v) ∈ r₀.delivered loadContent q ∧ msg = ⟨storedHeader v, storedContent v⟩
  known : ∀ p, r.messageMap.contains p = true ↔ ∃ q ∈ done, p ∈ (r₀.delivered loadContent q).map (·.1)
  highestRid : r.highestRid = done.foldl (fun m q => serialMax m (highest (persistentIds (r₀.recordsOf q)))) 0
  localLastPid : r.localLastPid = done.foldl (fun m q => serialMax m (highest (r₀.settledIds q))) 0
  journal : ∀ q, r.provider.journalList.find? q =
    if q ∈ done then (r₀.provider.journalList.find? q).map fun jc => r₀.registered jc q
    else r₀.provider.journalList.find? q
  tracker : r.provider.tracker = r₀.provider.tracker
  threads : r.provider.threads = r₀.provider.threads
  enableSmartAsync : r.provider.enableSmartAsync = r₀.provider.enableSmartAsync

theorem readLogs_keyed (s : StoreProvider) : (readLogs s).Keyed :=
  AsyncLog.recoverAsync_keyed enqueueFormat s.aologger.enqueueLog

namespace Handled

variable {loadContent : UInt64 → Bytes → UInt64 → Bool} {r₀ r : RecoveryState} {done : List UInt64}

theorem start (loadContent : UInt64 → Bytes → UInt64 → Bool) (s : StoreProvider) :
    Handled loadContent (readLogs s) [] (readLogs s) where
  keyed := readLogs_keyed s
  live := by simp
  orphaned := by simp
  initial := fun _ => rfl
  purged := by simp
  adset := fun _ _ _ hd => hd
  queues := by simp [readLogs, MessageQueueMap.queues]
  messages := by simp [readLogs]
  known := by simp [readLogs, OrdMap.contains]
  highestRid := rfl
  localLastPid := rfl
  journal := by simp
  tracker := rfl
  threads := rfl
  enableSmartAsync := rfl

/-- The next queue finds its own part of the pending operations as it was at the start. -/
theorem live_of_new (h : Handled loadContent r₀ done r) {qid : UInt64} (hnew : qid ∉ done) :
    r.live qid = r₀.live qid := by
  rw [h.live, if_neg hnew]

theorem orphaned_of_new (h : Handled loadContent r₀ done r) {qid : UInt64} (hnew : qid ∉ done) :
    r.orphaned qid = r₀.orphaned qid := by
  funext p
  rw [h.orphaned]
  simp [hnew]

theorem step (h : Handled loadContent r₀ done r) {malloc : List PendingOperationId → Bool} {qid : UInt64}
    {r' : RecoveryState} (hnew : qid ∉ done) (hj : r₀.provider.journalList.contains qid = true)
    (hreturn : recoverQueueMessages loadContent malloc r qid = some r') :
    Handled loadContent r₀ (done ++ [qid]) r' := by
  obtain ⟨jc, hjc⟩ := Option.isSome_iff_exists.1 hj
  have hlive := h.live_of_new hnew
  have horph := h.orphaned_of_new hnew
  have hrec : r.records jc qid = r₀.recordsOf qid := by
    simp only [RecoveryState.recordsOf, hjc, RecoveryState.records, hlive]
  have hcopies : logCopies jc 10 (r.live qid) = r₀.copies qid := by
    rw [RecoveryState.copies_eq hjc, hlive]
  have hreg : r.registered jc qid = r₀.registered jc qid := by
    unfold RecoveryState.registered RecoveryState.records
    rw [hlive, horph]
  have hr : recoverQueueMessages loadContent malloc r qid = decodeAndRecoverMsg loadContent malloc jc qid r := by
    unfold recoverQueueMessages
    rw [h.journal, if_neg hnew, hjc]
  have hspec := decodeAndRecoverMsg_spec h.keyed (hr ▸ hreturn)
  have hdel : deliveries loadContent (r.orphaned qid) (r.records jc qid) = r₀.delivered loadContent qid := by
    unfold RecoveryState.delivered
    rw [horph, hrec]
  refine
    { keyed := hspec.keyed
      live := fun q => ?_
      orphaned := fun q p => ?_
      initial := fun he => absurd he (by simp)
      purged := fun _ pae hmem => hspec.live_of_pending hmem
      adset := fun q p pad hd => ?_
      queues := fun p q => ?_
      messages := fun p msg hmsg => ?_
      known := fun p => ?_
      highestRid := ?_
      localLastPid := ?_
      journal := fun q => ?_
      tracker := hspec.tracker.trans h.tracker
      threads := hspec.threads.trans h.threads
      enableSmartAsync := hspec.enableSmartAsync.trans h.enableSmartAsync }
  · rw [hspec.live_eq, hcopies, h.live]
    by_cases hq : q = qid <;> simp [hq]
  · rw [hspec.orphaned_eq h.keyed, h.orphaned, hrec]
    by_cases hq : q = qid
    · subst hq
      simp [hnew]
    · simp [hq]
  · rw [hspec.adset] at hd
    split at hd
    · cases hd
    · exact h.adset q p pad hd
  · rw [hspec.queues, List.count_append, h.queues, hdel, List.count_replicate]
    by_cases hq : q = qid
    · subst hq
      simp [hnew]
    · simp [hq, Ne.symm hq]
  · rcases hspec.messages p msg hmsg with hold | ⟨v, hv, rfl⟩
    · obtain ⟨q, hq, hrest⟩ := h.messages p msg hold
      exact ⟨q, List.mem_append_left _ hq, hrest⟩
    · exact ⟨qid, by simp, v, hdel ▸ hv, rfl⟩
  · rw [hspec.known, h.known, hdel]
    constructor
    · rintro (⟨q, hq, hp⟩ | hp)
      · exact ⟨q, List.mem_append_left _ hq, hp⟩
      · exact ⟨qid, by simp, hp⟩
    · rintro ⟨q, hq, hp⟩
      rcases List.mem_append.1 hq with hq | hq
      · exact Or.inl ⟨q, hq, hp⟩
      · rw [List.mem_singleton.1 hq] at hp
        exact Or.inr hp
  · rw [hspec.highestRid, h.highestRid, hrec, List.foldl_append]
    rfl
  · rw [hspec.localLastPid, h.localLastPid, hrec, hcopies, List.foldl_append]
    rfl
  · rw [hspec.journal, h.journal, hreg]
    by_cases hq : q = qid
    · subst hq
      simp [hjc]
    · simp [hq]

/-- The whole loop. -/
theorem foldlM (h : Handled loadContent r₀ done r) {malloc : List PendingOperationId → Bool} {queues : List UInt64}
    {r' : RecoveryState} (hnd : (done ++ queues).Nodup)
    (hj : ∀ q ∈ queues, r₀.provider.journalList.contains q = true)
    (hreturn : queues.foldlM (recoverQueueMessages loadContent malloc) r = some r') :
    Handled loadContent r₀ (done ++ queues) r' := by
  induction queues generalizing done r with
  | nil =>
    cases hreturn
    simpa using h
  | cons q queues ih =>
    obtain ⟨r₁, hfirst, hrest⟩ := Option.bind_eq_some_iff.1 hreturn
    have hnew : q ∉ done := fun hq => (List.nodup_append.1 hnd).2.2 q hq q (List.mem_cons_self ..) rfl
    have hnext := h.step hnew (hj q (List.mem_cons_self ..)) hfirst
    rw [List.append_cons] at hnd ⊢
    exact ih hnext hnd (fun q' hq' => hj q' (List.mem_cons_of_mem _ hq')) hrest

end Handled

end BdbMsgStore

import BdbMsgStore.RecoverySpec

/-!
# What recovery leaves behind

The last part of `recoverMessages`: the messages registered for deletion are removed, the ids are reset, and the
pending operations that are left are scheduled again if their queue exists.  `recoverMessages_spec` puts this
together with the loop over the queues; everything in it is said of the state that recovery finds (`readLogs`).
-/

namespace BdbMsgStore

open StoreProvider

/-! ### The loop over the pending enqueues that are left -/

/-- What the loop makes of the list `l` of pending enqueues and its variables `st`, when `D` are the pending dequeues
before it. -/
structure ResurrectSpec (D : PendingDequeueSet) (l : List PendingAsyncEnqueue) (st : Resurrection)
    (r : List PendingAsyncEnqueue × Resurrection) : Prop where
  kept : r.1 = l.filter fun pae => !pae.dequeued D
  adset : ∀ q p, TwoLevel.find? r.2.adset q p =
    if (p, q) ∈ l.map (·.opId) then none else TwoLevel.find? st.adset q p
  uselessList : r.2.uselessList = st.uselessList ++ (l.filter fun pae => pae.dequeued D).map (·.opId)
  provider : r.2.provider = (l.filter fun pae => !pae.dequeued D).foldl scheduleStore st.provider

theorem sweepList_resurrectEnqueue (D : PendingDequeueSet) (l : List PendingAsyncEnqueue) (st : Resurrection)
    (hnd : (l.map (·.opId)).Nodup)
    (hsame : ∀ pae ∈ l, TwoLevel.find? st.adset pae.queueId pae.msgId = TwoLevel.find? D pae.queueId pae.msgId) :
    ResurrectSpec D l st (TwoLevel.sweepList resurrectEnqueue l st) := by
  induction l generalizing st with
  | nil =>
    exact
      { kept := rfl
        adset := by simp [TwoLevel.sweepList]
        uselessList := by simp [TwoLevel.sweepList]
        provider := rfl }
  | cons pae l ih =>
    rw [List.map_cons, List.nodup_cons] at hnd
    obtain ⟨hnot, hnd⟩ := hnd
    have hhead := hsame pae (List.mem_cons_self ..)
    have htail : ∀ p ∈ l, TwoLevel.find? st.adset p.queueId p.msgId = TwoLevel.find? D p.queueId p.msgId :=
      fun p hp => hsame p (List.mem_cons_of_mem _ hp)
    have hdeq : (TwoLevel.find? st.adset pae.queueId pae.msgId).isSome = pae.dequeued D := by
      unfold PendingAsyncEnqueue.dequeued
      rw [hhead]
    have heq : ∀ q p, (p, q) = pae.opId ↔ q = pae.queueId ∧ p = pae.msgId := by
      intro q p
      rw [PendingAsyncOperation.opId, Prod.mk.injEq, and_comm]
    simp only [TwoLevel.sweepList, resurrectEnqueue, hdeq]
    cases hd : pae.dequeued D with
    | true =>
      -- the other entries do not see that the dequeue is gone
      have htail' : ∀ p ∈ l, TwoLevel.find? (TwoLevel.erase st.adset pae.queueId pae.msgId) p.queueId p.msgId =
          TwoLevel.find? D p.queueId p.msgId := by
        intro p hp
        rw [TwoLevel.find?_erase, if_neg, htail p hp]
        intro he
        exact hnot (List.mem_map.2 ⟨p, hp, (heq _ _).2 he⟩)
      simp only [↓reduceIte, Bool.false_eq_true]
      have hrest := ih { st with
        adset := TwoLevel.erase st.adset pae.queueId pae.msgId
        uselessList := st.uselessList ++ [pae.opId] } hnd htail'
      refine ⟨?_, fun q p => ?_, ?_, ?_⟩
      · rw [hrest.kept, List.filter_cons, if_neg (by simp [hd])]
      · rw [hrest.adset, TwoLevel.find?_erase]
        simp only [List.map_cons, List.mem_cons, heq]
        by_cases h1 : (p, q) ∈ l.map (·.opId) <;> by_cases h2 : q = pae.queueId ∧ p = pae.msgId <;> simp [h1, h2]
      · rw [hrest.uselessList, List.filter_cons, if_pos hd]
        simp
      · rw [hrest.provider, List.filter_cons, if_neg (by simp [hd])]
    | false =>
      have hnone : TwoLevel.find? st.adset pae.queueId pae.msgId = none := by
        rw [hhead]
        simpa [PendingAsyncEnqueue.dequeued] using hd
      simp only [↓reduceIte, Bool.false_eq_true]
      have hrest := ih { st with provider := st.provider.scheduleStore pae } hnd htail
      refine ⟨?_, fun q p => ?_, ?_, ?_⟩
      · rw [List.filter_cons, if_pos (by simp [hd]), ← hrest.kept]
      · rw [hrest.adset]
        simp only [List.map_cons, List.mem_cons, heq]
        by_cases h2 : q = pae.queueId ∧ p = pae.msgId
        · simp [h2, hnone]
        · simp [h2]
      · rw [hrest.uselessList, List.filter_cons, if_neg (by simp [hd])]
      · rw [hrest.provider, List.filter_cons, if_pos (by simp [hd]), List.foldl_cons]

/-! ### Scheduling and deletion -/

/-- The step at which a scheduled store task starts. -/
def StoreProvider.firstPc (s : StoreProvider) : StorePc := if s.enableSmartAsync then .check else .put

theorem foldl_scheduleStore (l : List PendingAsyncEnqueue) (s : StoreProvider) :
    l.foldl scheduleStore s = { s with
      tracker := if s.enableSmartAsync then
          (l.filter fun pae => s.journalList.contains pae.queueId).foldl
            (fun t pae => t.willEnqueue pae.msgId pae.queueId) s.tracker
        else s.tracker
      threads := s.threads ++ (l.filter fun pae => s.journalList.contains pae.queueId).map (.store s.firstPc) } := by
  induction l generalizing s with
  | nil => simp
  | cons pae l ih =>
    rw [List.foldl_cons, ih]
    unfold scheduleStore
    by_cases hq : s.journalList.contains pae.queueId = true
    · cases hs : s.enableSmartAsync <;> simp [hq, hs, firstPc]
    · simp [hq]

theorem foldl_scheduleDequeue (l : List PendingAsyncDequeue) (s : StoreProvider) :
    l.foldl scheduleDequeue s = { s with
      threads := s.threads ++ (l.filter fun pad => s.journalList.contains pad.queueId).map
        fun pad => .asyncDequeue (.wait (.dupTest 0)) pad.msgId pad.queueId } := by
  induction l generalizing s with
  | nil => simp
  | cons pad l ih =>
    rw [List.foldl_cons, ih]
    unfold scheduleDequeue
    by_cases hq : s.journalList.contains pad.queueId = true
    · simp [hq]
    · simp [hq]

theorem isPending_foldl_willEnqueue (l : List PendingAsyncEnqueue) (t : PidTracker) (p q : UInt64) :
    (l.foldl (fun t pae => t.willEnqueue pae.msgId pae.queueId) t).isPending p q =
      (t.isPending p q || decide ((p, q) ∈ l.map (·.opId))) := by
  induction l generalizing t with
  | nil => simp
  | cons pae l ih =>
    rw [List.foldl_cons, ih, PidTracker.isPending_willEnqueue]
    have heq : (p, q) = pae.opId ↔ q = pae.queueId ∧ p = pae.msgId := by
      rw [PendingAsyncOperation.opId, Prod.mk.injEq, and_comm]
    simp only [List.map_cons, List.mem_cons, heq]
    by_cases h : q = pae.queueId ∧ p = pae.msgId
    · simp [h]
    · simp [h]

/-- Registering pairs for the smart mode changes nothing else in the tracker. -/
theorem foldl_willEnqueue (l : List PendingAsyncEnqueue) (t : PidTracker) :
    let t' := l.foldl (fun t pae => t.willEnqueue pae.msgId pae.queueId) t
    t'.mainRecord = t.mainRecord ∧ t'.dupMap = t.dupMap ∧ t'.stopped = t.stopped := by
  induction l generalizing t with
  | nil => exact ⟨rfl, rfl, rfl⟩
  | cons pae l ih => exact ih _

theorem foldl_discardMessages (queues : List UInt64) (s : StoreProvider) :
    queues.foldl discardMessages s = { s with journalList := (queues.foldl discardMessages s).journalList } := by
  induction queues generalizing s with
  | nil => rfl
  | cons q queues ih =>
    rw [List.foldl_cons, ih]
    unfold discardMessages
    split <;> rfl

theorem find?_foldl_discardMessages {queues : List UInt64} (hnd : queues.Nodup) (s : StoreProvider) (q : UInt64) :
    (queues.foldl discardMessages s).journalList.find? q =
      if q ∈ queues then (s.journalList.find? q).map fun jc => jc.discardTransientMessage.discardAcceptedMessage
      else s.journalList.find? q := by
  induction queues generalizing s with
  | nil => simp
  | cons qid queues ih =>
    rw [List.nodup_cons] at hnd
    have hone : (s.discardMessages qid).journalList.find? q =
        if q = qid then (s.journalList.find? q).map fun jc => jc.discardTransientMessage.discardAcceptedMessage
        else s.journalList.find? q := by
      unfold discardMessages
      by_cases hq : q = qid
      · subst hq
        cases hjc : s.journalList.find? q <;> simp [hjc, OrdMap.find?_assign]
      · cases hjc : s.journalList.find? qid <;> simp [hq, OrdMap.find?_assign]
    rw [List.foldl_cons, ih hnd.2, hone]
    by_cases hq : q = qid
    · subst hq
      simp [hnd.1]
    · simp [hq]

/-! ### The whole recovery -/

/-- The queues that recovery handles: those of the provider, each once. -/
def Recoverable (s : StoreProvider) (queues : List UInt64) : Prop :=
  queues.Nodup ∧ ∀ q, q ∈ queues ↔ s.journalList.contains q = true

theorem recoverable_of_keys {s : StoreProvider} {queues : List UInt64}
    (h : s.journalList.entries.map Prod.fst = queues) : Recoverable s queues := by
  subst h
  refine ⟨s.journalList.nodup_keys, fun q => ?_⟩
  rw [List.mem_map, Option.isSome_iff_exists]
  constructor
  · rintro ⟨⟨q', jc⟩, hmem, rfl⟩
    exact ⟨jc, OrdMap.mem_entries.1 hmem⟩
  · rintro ⟨jc, hjc⟩
    exact ⟨(q, jc), OrdMap.mem_entries.2 hjc, rfl⟩

namespace RecoveryState

variable (r : RecoveryState)

/-- The pending enqueue is still pending at the end. -/
def Remains (queues : List UInt64) (pae : PendingAsyncEnqueue) : Prop :=
  pae ∈ r.pending ∧ pae.dequeued r.adset = false ∧ (queues ≠ [] → pae.transient = false) ∧
    (pae.queueId ∈ queues → pae ∈ r.copies pae.queueId)

/-- The queue has a pending dequeue of the message at the end. -/
def remainsDequeue (queues : List UInt64) (q p : UInt64) : Bool :=
  r.orphaned q p && !decide (q ∈ queues ∧ p ∈ persistentIds (r.recordsOf q))

/-- The id after which the ids of new messages start. -/
def newestId (queues : List UInt64) : UInt64 :=
  queues.foldl (fun m q => serialMax m (highest (persistentIds (r.recordsOf q)))) 0

/-- The id to which the watermark is set. -/
def newestSettled (queues : List UInt64) : UInt64 :=
  queues.foldl (fun m q => serialMax m (highest (r.settledIds q))) 0

end RecoveryState

/-- What `recoverMessages` makes of the provider `s`. -/
structure RecoveredSpec (loadContent : UInt64 → Bytes → UInt64 → Bool) (queues : List UInt64) (s : StoreProvider)
    (R : Recovered) : Prop where
  keyed : TwoLevel.Keyed (fun pae : PendingAsyncEnqueue => (pae.queueId, pae.msgId)) R.aeset
  keyedDequeues : TwoLevel.Keyed (fun pad : PendingAsyncDequeue => (pad.queueId, pad.msgId)) R.adset
  aeset : ∀ pae, pae ∈ AsyncLog.pendingList R.aeset ↔ (readLogs s).Remains queues pae
  adset : ∀ q p, (TwoLevel.find? R.adset q p).isSome = (readLogs s).remainsDequeue queues q p
  handed : ∀ p q, (R.messageQueueMap.queues p).count q =
    if q ∈ queues then (((readLogs s).delivered loadContent q).map (·.1)).count p else 0
  messages : ∀ p msg, R.messageMap.find? p = some msg →
    ∃ q ∈ queues, ∃ v, (p, v) ∈ (readLogs s).delivered loadContent q ∧ msg = ⟨storedHeader v, storedContent v⟩
  known : ∀ p, R.messageMap.contains p = true ↔ ∃ q ∈ queues, p ∈ ((readLogs s).delivered loadContent q).map (·.1)
  messageIdSequence : R.provider.messageIdSequence = IdSequence.reset ((readLogs s).newestId queues + 1)
  mainRecord : R.provider.tracker.mainRecord = { lastPid := (readLogs s).newestSettled queues }
  isDuplicate : ∀ p q, R.provider.tracker.isDuplicate p q = s.tracker.isDuplicate p q
  isPending : ∀ p q, R.provider.tracker.isPending p q = (s.tracker.isPending p q ||
    s.enableSmartAsync && decide ((p, q) ∈ ((AsyncLog.pendingList R.aeset).filter
      fun pae => s.journalList.contains pae.queueId).map (·.opId)))
  stopped : R.provider.tracker.stopped = s.tracker.stopped
  journal : ∀ q, R.provider.journalList.find? q = (s.journalList.find? q).map fun jc =>
    ((readLogs s).registered jc q).discardTransientMessage.discardAcceptedMessage
  threads : R.provider.threads = s.threads ++
    ((AsyncLog.pendingList R.aeset).filter fun pae => s.journalList.contains pae.queueId).map (.store s.firstPc) ++
    ((AsyncLog.pendingList R.adset).filter fun pad => s.journalList.contains pad.queueId).map
      fun pad => .asyncDequeue (.wait (.dupTest 0)) pad.msgId pad.queueId
  enableSmartAsync : R.provider.enableSmartAsync = s.enableSmartAsync

namespace Handled

variable {loadContent : UInt64 → Bytes → UInt64 → Bool} {r₀ r : RecoveryState} {queues : List UInt64}
  (h : Handled loadContent r₀ queues r)

include h

/-- What the loop over the queues leaves for the end. -/
private theorem remains (pae : PendingAsyncEnqueue) :
    pae ∈ r.pending.filter (fun a => !a.dequeued r.adset) ↔ r₀.Remains queues pae := by
  rw [List.mem_filter]
  unfold RecoveryState.Remains
  by_cases hne : queues = []
  · -- no queue was handled, and transient messages are still there
    rw [h.initial hne, hne]
    simp
  · have hmem : pae ∈ r.pending ↔ pae ∈ r.live pae.queueId := by
      rw [RecoveryState.mem_live]
      constructor
      · intro hm
        have hl := h.purged hne pae hm
        simp only [PendingAsyncEnqueue.live, PendingAsyncEnqueue.dequeued, Bool.and_eq_true, Bool.not_eq_true',
          Option.isSome_eq_false_iff, Option.isNone_iff_eq_none] at hl
        exact ⟨hm, rfl, hl.1, hl.2⟩
      · exact fun hm => hm.1
    have hlive : pae ∈ r₀.live pae.queueId ↔
        pae ∈ r₀.pending ∧ pae.dequeued r₀.adset = false ∧ pae.transient = false := by
      rw [RecoveryState.mem_live]
      simp [PendingAsyncEnqueue.dequeued]
    have hsub : pae ∈ r₀.copies pae.queueId → pae ∈ r₀.live pae.queueId := RecoveryState.mem_live_of_copies
    have hkept : pae ∈ r.pending ∧ (!pae.dequeued r.adset) = true ↔ pae ∈ r.pending := by
      refine ⟨fun hm => hm.1, fun hm => ⟨hm, ?_⟩⟩
      have hl := h.purged hne pae hm
      simp only [PendingAsyncEnqueue.live, Bool.and_eq_true] at hl
      exact hl.1
    rw [hkept, hmem, h.live]
    split
    · rename_i hq
      constructor
      · intro hm
        obtain ⟨h1, h2, h3⟩ := hlive.1 (hsub hm)
        exact ⟨h1, h2, fun _ => h3, fun _ => hm⟩
      · exact fun hm => hm.2.2.2 hq
    · rename_i hq
      rw [hlive]
      constructor
      · rintro ⟨h1, h2, h3⟩
        exact ⟨h1, h2, fun _ => h3, fun hq' => absurd hq' hq⟩
      · rintro ⟨h1, h2, h3, _⟩
        exact ⟨h1, h2, h3 hne⟩

end Handled

/-- The provider when the pending operations are scheduled. -/
private def atSchedule (queues : List UInt64) (r : RecoveryState) : StoreProvider :=
  { r.provider with
    messageIdSequence := IdSequence.reset (r.highestRid + 1)
    tracker := r.provider.tracker.reset r.localLastPid
    journalList := (queues.foldl discardMessages r.provider).journalList }

/-- The end of recovery, with the loops in closed form. -/
private theorem resurrect_eq_some {malloc : List PendingOperationId → Bool} {queues : List UInt64} {r : RecoveryState}
    (hr : r.Keyed) {R : Recovered} :
    resurrect malloc queues r = some R ↔
      ∃ lg, r.provider.aologger.logMassEnqueueDequeueComplete
          (malloc (r.useless.map (·.opId)))
          (r.useless.map (·.opId)) = some lg ∧
        let e := TwoLevel.sweep (fun st _ _ pae => resurrectEnqueue st pae) r.aeset ⟨atSchedule queues r, r.adset, []⟩
        { provider := { (AsyncLog.pendingList e.2.adset).foldl scheduleDequeue e.2.provider with aologger := lg }
          adset := e.2.adset
          aeset := e.1
          messageMap := r.messageMap
          messageQueueMap := r.messageQueueMap } = R := by
  have hs : ({ queues.foldl discardMessages r.provider with
      messageIdSequence := IdSequence.reset (r.highestRid + 1)
      tracker := (queues.foldl discardMessages r.provider).tracker.reset r.localLastPid } : StoreProvider) =
        atSchedule queues r := by
    unfold atSchedule
    rw [foldl_discardMessages]
  have hsweep := TwoLevel.values_sweep resurrectEnqueue r.aeset ⟨atSchedule queues r, r.adset, []⟩
  have hlist := sweepList_resurrectEnqueue r.adset r.pending ⟨atSchedule queues r, r.adset, []⟩
    (RecoveryState.nodup_opId hr) (fun _ _ => rfl)
  have hprovider := (congrArg Resurrection.provider hsweep.2).trans hlist.provider
  have huseless := (congrArg Resurrection.uselessList hsweep.2).trans hlist.uselessList
  -- scheduling leaves the logs alone
  have hlogs : ((AsyncLog.pendingList (TwoLevel.sweep (fun st _ _ pae => resurrectEnqueue st pae) r.aeset
      ⟨atSchedule queues r, r.adset, []⟩).2.adset).foldl scheduleDequeue (TwoLevel.sweep
        (fun st _ _ pae => resurrectEnqueue st pae) r.aeset ⟨atSchedule queues r, r.adset, []⟩).2.provider).aologger =
      r.provider.aologger := by
    rw [foldl_scheduleDequeue, hprovider, foldl_scheduleStore]
    rfl
  simp only [resurrect, hs, Option.bind_eq_bind, Option.bind_eq_some_iff, Option.pure_def, Option.some.injEq, hlogs,
    huseless, List.nil_append]
  rfl

theorem resurrect_isSome (malloc : List PendingOperationId → Bool) (queues : List UInt64) {r : RecoveryState}
    (hr : r.Keyed) :
    (resurrect malloc queues r).isSome = (r.provider.aologger.logMassEnqueueDequeueComplete
      (malloc (r.useless.map (·.opId)))
      (r.useless.map (·.opId))).isSome := by
  rw [Bool.eq_iff_iff, Option.isSome_iff_exists, Option.isSome_iff_exists]
  simp only [resurrect_eq_some hr]
  constructor
  · rintro ⟨_, lg, hlg, -⟩
    exact ⟨lg, hlg⟩
  · rintro ⟨lg, hlg⟩
    exact ⟨_, lg, hlg, rfl⟩

private theorem resurrect_spec {malloc : List PendingOperationId → Bool} {queues : List UInt64} {r : RecoveryState}
    {R : Recovered} (hr : r.Keyed) (hreturn : resurrect malloc queues r = some R) :
    TwoLevel.Keyed (fun pae : PendingAsyncEnqueue => (pae.queueId, pae.msgId)) R.aeset ∧
    AsyncLog.pendingList R.aeset = r.pending.filter (fun a => !a.dequeued r.adset) ∧
    (∀ q p, TwoLevel.find? R.adset q p =
      if (p, q) ∈ r.pending.map (·.opId) then none else TwoLevel.find? r.adset q p) ∧
    R.messageMap = r.messageMap ∧ R.messageQueueMap = r.messageQueueMap ∧
    ∃ lg, r.provider.aologger.logMassEnqueueDequeueComplete
        (malloc (r.useless.map (·.opId)))
        (r.useless.map (·.opId)) = some lg ∧
      R.provider = { (AsyncLog.pendingList R.adset).foldl scheduleDequeue
        ((AsyncLog.pendingList R.aeset).foldl scheduleStore (atSchedule queues r)) with aologger := lg } := by
  have hsweep := TwoLevel.values_sweep resurrectEnqueue r.aeset ⟨atSchedule queues r, r.adset, []⟩
  have hlist := sweepList_resurrectEnqueue r.adset r.pending ⟨atSchedule queues r, r.adset, []⟩
    (RecoveryState.nodup_opId hr) (fun _ _ => rfl)
  have hkept := hsweep.1.trans hlist.kept
  have hprovider := (congrArg Resurrection.provider hsweep.2).trans hlist.provider
  obtain ⟨lg, hlg, rfl⟩ := (resurrect_eq_some hr).1 hreturn
  refine ⟨TwoLevel.Keyed.sweep hr _ _, hkept, fun q p => ?_, rfl, rfl, lg, hlg, ?_⟩
  · rw [← hlist.adset q p]
    exact congrArg (fun x => TwoLevel.find? (Resurrection.adset x) q p) hsweep.2
  · rw [hprovider]
    unfold AsyncLog.pendingList
    rw [hkept]

/-- What the end of recovery does to the pending operations and to the logs. -/
theorem resurrect_pending {malloc : List PendingOperationId → Bool} {queues : List UInt64} {r : RecoveryState}
    {R : Recovered} (hr : r.Keyed) (hreturn : resurrect malloc queues r = some R) :
    TwoLevel.Keyed (fun pae : PendingAsyncEnqueue => (pae.queueId, pae.msgId)) R.aeset ∧
    AsyncLog.pendingList R.aeset = r.pending.filter (fun a => !a.dequeued r.adset) ∧
    (∀ q p, TwoLevel.find? R.adset q p =
      if (p, q) ∈ r.pending.map (·.opId) then none else TwoLevel.find? r.adset q p) ∧
    r.provider.aologger.logMassEnqueueDequeueComplete
      (malloc (r.useless.map (·.opId)))
      (r.useless.map (·.opId)) = some R.provider.aologger := by
  obtain ⟨hkeyed, haeset, hadset, -, -, lg, hlg, hprovider⟩ := resurrect_spec hr hreturn
  exact ⟨hkeyed, haeset, hadset, by rw [hprovider]; exact hlg⟩

/-- The journals at the end. -/
private theorem journal_atSchedule {loadContent : UInt64 → Bytes → UInt64 → Bool} {queues : List UInt64}
    {s : StoreProvider} {r : RecoveryState} (hq : Recoverable s queues)
    (h : Handled loadContent (readLogs s) queues r) (q : UInt64) :
    (atSchedule queues r).journalList.find? q = (s.journalList.find? q).map fun jc =>
      ((readLogs s).registered jc q).discardTransientMessage.discardAcceptedMessage := by
  show (queues.foldl discardMessages r.provider).journalList.find? q = _
  rw [find?_foldl_discardMessages hq.1, h.journal]
  by_cases hmem : q ∈ queues
  · rw [if_pos hmem, if_pos hmem, Option.map_map]
    rfl
  · have hnone : s.journalList.find? q = none := by
      rw [hq.2] at hmem
      simpa [OrdMap.contains] using hmem
    rw [if_neg hmem, if_neg hmem, hnone]
    exact hnone

/-- The loop over the queues, and the end, of a recovery that returns. -/
theorem recoverMessages_eq_some {loadContent : UInt64 → Bytes → UInt64 → Bool}
    {malloc : List PendingOperationId → Bool} {queues : List UInt64} {s : StoreProvider} {R : Recovered} :
    recoverMessages loadContent malloc queues s = some R ↔
      s.logsThrow = false ∧ ∃ r, queues.foldlM (recoverQueueMessages loadContent malloc) (readLogs s) = some r ∧
        resurrect malloc queues r = some R := by
  unfold recoverMessages
  cases s.logsThrow with
  | true => simp
  | false => simp [Option.bind_eq_some_iff]

theorem Recoverable.handled {loadContent : UInt64 → Bytes → UInt64 → Bool} {malloc : List PendingOperationId → Bool}
    {queues : List UInt64} {s : StoreProvider} {r : RecoveryState} (hq : Recoverable s queues)
    (hloop : queues.foldlM (recoverQueueMessages loadContent malloc) (readLogs s) = some r) :
    Handled loadContent (readLogs s) queues r := by
  have h := (Handled.start loadContent s).foldlM (by simpa using hq.1) (fun q hmem => (hq.2 q).1 hmem) hloop
  simpa using h

theorem recoverMessages_spec {loadContent : UInt64 → Bytes → UInt64 → Bool} {malloc : List PendingOperationId → Bool}
    {queues : List UInt64} {s : StoreProvider} {R : Recovered} (hq : Recoverable s queues)
    (hreturn : recoverMessages loadContent malloc queues s = some R) :
    RecoveredSpec loadContent queues s R := by
  obtain ⟨-, r, hloop, hend⟩ := recoverMessages_eq_some.1 hreturn
  have h := hq.handled hloop
  obtain ⟨hkeyed, hpend, hadset, hmap, hqmap, lg, -, hprovider⟩ := resurrect_spec h.keyed hend
  have hcontains : ∀ q, (atSchedule queues r).journalList.contains q = s.journalList.contains q := by
    intro q
    unfold OrdMap.contains
    rw [journal_atSchedule hq h, Option.isSome_map]
  have hsmart : (atSchedule queues r).enableSmartAsync = s.enableSmartAsync := h.enableSmartAsync
  have hthreads : (atSchedule queues r).threads = s.threads := h.threads
  have htracker : (atSchedule queues r).tracker = s.tracker.reset ((readLogs s).newestSettled queues) := by
    show r.provider.tracker.reset r.localLastPid = _
    rw [h.tracker, h.localLastPid]
    rfl
  rw [foldl_scheduleDequeue, foldl_scheduleStore] at hprovider
  simp only [hcontains, hsmart, hthreads, htracker, firstPc] at hprovider
  have htr := congrArg StoreProvider.tracker hprovider
  simp only at htr
  have hfields := foldl_willEnqueue ((AsyncLog.pendingList R.aeset).filter
    fun pae => s.journalList.contains pae.queueId) (s.tracker.reset ((readLogs s).newestSettled queues))
  exact
    { keyed := hkeyed
      keyedDequeues := by
        intro q p pad hpad
        rw [hadset] at hpad
        split at hpad
        · cases hpad
        · exact AsyncLog.recoverAsync_keyed dequeueFormat s.aologger.dequeueLog q p pad (h.adset q p pad hpad)
      aeset := fun pae => by rw [hpend]; exact h.remains pae
      adset := fun q p => by
        rw [hadset, RecoveryState.remainsDequeue, ← h.orphaned]
        simp only [RecoveryState.mem_opId h.keyed, RecoveryState.orphaned]
        cases TwoLevel.find? r.aeset q p <;> simp
      handed := hqmap ▸ h.queues
      messages := hmap ▸ h.messages
      known := hmap ▸ h.known
      messageIdSequence := by
        rw [congrArg StoreProvider.messageIdSequence hprovider]
        show IdSequence.reset (r.highestRid + 1) = _
        rw [h.highestRid]
        rfl
      mainRecord := by
        rw [htr]
        split
        · exact hfields.1
        · rfl
      isDuplicate := fun p q => by
        unfold PidTracker.isDuplicate
        rw [htr]
        split
        · rw [hfields.2.1]
          rfl
        · rfl
      isPending := fun p q => by
        rw [htr]
        cases s.enableSmartAsync with
        | true =>
          rw [if_pos rfl, isPending_foldl_willEnqueue, Bool.true_and]
          rfl
        | false => simp; rfl
      stopped := by
        rw [htr]
        split
        · exact hfields.2.2
        · rfl
      journal := fun q => by
        rw [congrArg StoreProvider.journalList hprovider]
        exact journal_atSchedule hq h q
      threads := congrArg StoreProvider.threads hprovider
      enableSmartAsync := by rw [hprovider] }

/-! ### What is handed to the broker -/

theorem RecoveryState.mem_recordsOf {r : RecoveryState} {p q : UInt64} {v : Bytes} :
    (p, v) ∈ r.recordsOf q ↔ r.provider.stored p q = some v ∨
      (r.provider.journalList.contains q = true ∧ ∃ pae ∈ r.copies q, pae.msgId = p ∧ pae.buff = v) := by
  unfold RecoveryState.recordsOf RecoveryState.copies stored OrdMap.contains
  cases r.provider.journalList.find? q with
  | none => simp
  | some jc =>
    simp only [RecoveryState.records, List.mem_append, jc.mem_recoverMessages, List.mem_map, Prod.mk.injEq,
      Option.bind_some, Option.isSome_some, true_and]

theorem mem_recordsOf {s : StoreProvider} {p q : UInt64} {v : Bytes} :
    (p, v) ∈ (readLogs s).recordsOf q ↔ s.stored p q = some v ∨
      (s.journalList.contains q = true ∧ ∃ pae ∈ (readLogs s).copies q, pae.msgId = p ∧ pae.buff = v) :=
  RecoveryState.mem_recordsOf

/-- The record is of a persistent message, and the broker takes it. -/
def Taken (loadContent : UInt64 → Bytes → UInt64 → Bool) (p : UInt64) (v : Bytes) : Prop :=
  transientFlag v = false ∧ loadContent p (storedHeader v) (contentSize v) = true

theorem mem_deliveries {loadContent : UInt64 → Bytes → UInt64 → Bool} {dequeued : UInt64 → Bool}
    {records : List (UInt64 × Bytes)} {p : UInt64} {v : Bytes} :
    (p, v) ∈ deliveries loadContent dequeued records ↔
      (p, v) ∈ records ∧ dequeued p = false ∧ Taken loadContent p v := by
  unfold deliveries Taken
  rw [List.mem_filter]
  simp only [Bool.and_eq_true, Bool.not_eq_true']
  constructor
  · rintro ⟨hm, ⟨htr, hd⟩, hl⟩
    exact ⟨hm, hd, htr, hl⟩
  · rintro ⟨hm, hd, htr, hl⟩
    exact ⟨hm, ⟨htr, hd⟩, hl⟩

theorem RecoveryState.mem_delivered {r : RecoveryState} {loadContent : UInt64 → Bytes → UInt64 → Bool}
    {p q : UInt64} {v : Bytes} :
    (p, v) ∈ r.delivered loadContent q ↔ (p, v) ∈ r.recordsOf q ∧ r.orphaned q p = false ∧ Taken loadContent p v :=
  mem_deliveries

theorem RecoveredSpec.mem_queues {loadContent : UInt64 → Bytes → UInt64 → Bool} {queues : List UInt64}
    {s : StoreProvider} {R : Recovered} (h : RecoveredSpec loadContent queues s R) (p q : UInt64) :
    q ∈ R.messageQueueMap.queues p ↔ q ∈ queues ∧ ∃ v, (p, v) ∈ (readLogs s).delivered loadContent q := by
  rw [← List.count_pos_iff, h.handed]
  split
  · rename_i hq
    rw [List.count_pos_iff, List.mem_map]
    constructor
    · rintro ⟨⟨p', v⟩, hmem, rfl⟩
      exact ⟨hq, v, hmem⟩
    · rintro ⟨-, v, hmem⟩
      exact ⟨(p, v), hmem, rfl⟩
  · rename_i hq
    simp [hq]

/-! ### A new process -/

@[simp] theorem stored_restart (smart : Bool) (s : StoreProvider) (p q : UInt64) :
    (s.restart smart).stored p q = s.stored p q := by
  unfold stored restart
  rw [OrdMap.find?_map]
  cases s.journalList.find? q <;> rfl

@[simp] theorem contains_restart (smart : Bool) (s : StoreProvider) (q : UInt64) :
    (s.restart smart).journalList.contains q = s.journalList.contains q := by
  unfold restart OrdMap.contains
  rw [OrdMap.find?_map, Option.isSome_map]

theorem Recoverable.restart {s : StoreProvider} {queues : List UInt64} (h : Recoverable s queues) (smart : Bool) :
    Recoverable (s.restart smart) queues := by
  refine ⟨h.1, fun q => ?_⟩
  rw [contains_restart]
  exact h.2 q

theorem readLogs_restart (smart : Bool) (s : StoreProvider) :
    (readLogs (s.restart smart)).adset = s.aologger.recoverAsyncDequeue.1 ∧
      (readLogs (s.restart smart)).aeset = s.aologger.recoverAsyncEnqueue.1 :=
  ⟨rfl, rfl⟩

namespace StoreProvider

variable (s : StoreProvider)

/-- The live pending enqueues of a queue that a crash leaves, in the order of their ids. -/
def live (qid : UInt64) : List PendingAsyncEnqueue :=
  liveOf s.aologger.recoverAsyncDequeue.1 (AsyncLog.pendingList s.aologger.recoverAsyncEnqueue.1) qid

/-- Those that recovery adds to the records of the queue. -/
def copies (qid : UInt64) : List PendingAsyncEnqueue :=
  match s.journalList.find? qid with
  | some jc => logCopies jc 10 (s.live qid)
  | none => s.live qid

theorem copies_restart (smart : Bool) (qid : UInt64) : (readLogs (s.restart smart)).copies qid = s.copies qid := by
  unfold RecoveryState.copies copies
  show (match (s.journalList.map JournalImpl.reopen).find? qid with
    | some jc => logCopies jc 10 (s.live qid)
    | none => s.live qid) = _
  rw [OrdMap.find?_map]
  cases s.journalList.find? qid <;> rfl

end StoreProvider

end BdbMsgStore

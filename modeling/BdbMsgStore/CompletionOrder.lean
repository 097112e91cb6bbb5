import BdbMsgStore.EnqueueRecords
import BdbMsgStore.RecoveryOps

/-!
# Completions of dequeues and the databases

An installation runs, crashes, and is recovered; each write of `recoverMessages` is a step, so that a crash may come
after any of them.  When the completion of a dequeue is in the log, the message should be gone from the database, and
no later recovery should hand it back.

In normal operation `async_dequeue` deletes first.  Recovery does not: the completions of a queue are logged when it
is decoded, and the messages are deleted after all queues have been (`completion_before_delete`).  The order holds
in every run in which no recovery finds a pending dequeue of a message that is in its database, no dequeue overtakes
the store task of its message, and the enqueue log is not damaged by a crash (`completions_follow_deletes`).
-/

namespace BdbMsgStore

open DiskOp StoreProvider

/-! ### Runs with crashes and recoveries -/

/-- The broker runs, or `recoverMessages` does with the writes `done` behind it and `todo` before it and will leave
the provider `result` if it returns, or there is no process. -/
inductive Phase where
  | running
  | recovering (done todo : List DiskOp) (result : Option StoreProvider)
  | down

/-- The provider, of which only the files count when no process runs. -/
structure Installation where
  provider : StoreProvider
  phase : Phase := .running

inductive LifeAction where
  | provider (a : Action)
  | crash
  | recover (smart : Bool) (recoveredJournal : List UInt64) (loadContent : UInt64 → Bytes → UInt64 → Bool)
      (malloc : List PendingOperationId → Bool)
  | write
  | serve

inductive LifeEvent where
  | provider (e : Event)
  | dequeueCompleted (k : PendingOperationId)
  deriving DecidableEq

/-- The dequeues whose completion an action of the provider appends to the log. -/
def StoreProvider.Action.dequeueCompletions : Action → List PendingOperationId
  | .advance (.asyncDequeue .logComplete pid qid) => [(pid, qid)]
  | _ => []

def Installation.step (w : Installation) : LifeAction → Option (Installation × List LifeEvent)
  | .provider a =>
    match w.phase with
    | .running => (w.provider.step a).map fun r =>
        (⟨r.1, .running⟩, r.2.map .provider ++ a.dequeueCompletions.map .dequeueCompleted)
    | _ => none
  | .crash =>
    match w.phase with
    | .down => none
    | _ => some (⟨w.provider, .down⟩, [])
  | .recover smart recoveredJournal loadContent malloc =>
    match w.phase with
    | .down =>
      let s := w.provider.restart smart
      some (⟨s, .recovering [] (recoveryOps loadContent malloc recoveredJournal s)
        ((recoverMessages loadContent malloc recoveredJournal s).map (·.provider))⟩, [])
    | _ => none
  | .write =>
    match w.phase with
    | .recovering done (op :: todo) result =>
      some (⟨w.provider.applyOp op, .recovering (done ++ [op]) todo result⟩,
        op.dequeueCompletions.map .dequeueCompleted)
    | _ => none
  | .serve =>
    match w.phase with
    | .recovering _ [] (some result) => some (⟨result, .running⟩, [])
    | _ => none

/-- The calls of the broker and their returns. -/
def brokerEvents (h : List LifeEvent) : List Event :=
  h.filterMap fun
    | .provider e => some e
    | .dequeueCompleted _ => none

/-- Nothing has been done with the pair yet. -/
def Unused (h : List LifeEvent) (s : StoreProvider) (k : PendingOperationId) : Prop :=
  ¬ Enqueued (brokerEvents h) k ∧ (∀ t ∈ s.threads, t.key ≠ k) ∧ .dequeueCompleted k ∉ h

instance (h : List LifeEvent) (s : StoreProvider) (k : PendingOperationId) : Decidable (Unused h s k) :=
  inferInstanceAs (Decidable (_ ∧ _ ∧ _))

instance (s : StoreProvider) (queues : List UInt64) : Decidable (Recoverable s queues) :=
  decidable_of_iff (queues.Nodup ∧ queues.all s.journalList.contains = true ∧
      (s.journalList.entries.all fun e => queues.contains e.1) = true) (by
    unfold Recoverable
    rw [List.all_eq_true, List.all_eq_true]
    refine and_congr_right fun _ => ⟨fun h q => ⟨h.1 q, fun hq => ?_⟩,
      fun h => ⟨fun q hq => (h q).1 hq, fun e he => ?_⟩⟩
    · obtain ⟨jc, hjc⟩ := Option.isSome_iff_exists.1 hq
      exact List.contains_iff_mem.1 (h.2 (q, jc) (OrdMap.mem_entries.2 hjc))
    · exact List.contains_iff_mem.2 ((h e.1).2 (Option.isSome_iff_exists.2 ⟨e.2, OrdMap.mem_entries.1 he⟩)))

/-- Each pair is enqueued at most once, and recovery handles the queues there are. -/
def FreshPairs (h : List LifeEvent) (w : Installation) : LifeAction → Prop
  | .provider (.enqueue messageId qid _) => Unused h w.provider (w.provider.enqueueId messageId, qid)
  | .recover _ recoveredJournal _ _ => Recoverable w.provider recoveredJournal
  | _ => True

instance (h : List LifeEvent) (w : Installation) (a : LifeAction) : Decidable (FreshPairs h w a) := by
  unfold FreshPairs
  split <;> infer_instance

/-- No message of a pending dequeue is in its database, except for transient ones whose enqueue is complete: recovery
leaves their dequeues pending. -/
def RecoveryState.DequeuesUnstored (r : RecoveryState) : Prop :=
  ∀ pad ∈ AsyncLog.pendingList r.adset, ∀ v ∈ r.provider.stored pad.msgId pad.queueId,
    transientFlag v = true ∧ TwoLevel.find? r.aeset pad.queueId pad.msgId = none

instance (r : RecoveryState) : Decidable r.DequeuesUnstored :=
  inferInstanceAs (Decidable (∀ pad ∈ _, _))

/-- The enqueue log can be read again after the crash: the cleaner was not at work, and recovery had not removed one
of its two files only. -/
def Installation.LogIntact (w : Installation) : Prop :=
  match w.phase with
  | .recovering done _ _ => done.getLast? ≠ some (.removeEnqueueFile 0)
  | _ => w.provider.aologger.enqueueLog.cleaner = .sleeping

instance (w : Installation) : Decidable w.LogIntact := by
  unfold Installation.LogIntact
  split <;> infer_instance

/-- The steps that keep the order of completions and deletes. -/
def Undisturbed (h : List LifeEvent) (w : Installation) : LifeAction → Prop
  | .provider (.advance (.asyncDequeue .remove pid qid)) =>
    ∀ t ∈ w.provider.threads, t.isEnqueue = true → t.key ≠ (pid, qid)
  | .crash => w.LogIntact
  | .recover smart recoveredJournal loadContent malloc =>
    FreshPairs h w (.recover smart recoveredJournal loadContent malloc) ∧
      (readLogs (w.provider.restart smart)).DequeuesUnstored
  | a => FreshPairs h w a

instance (h : List LifeEvent) (w : Installation) (a : LifeAction) : Decidable (Undisturbed h w a) := by
  unfold Undisturbed
  split <;> infer_instance

/-- A message whose dequeue is complete in the log is gone from its database, and if the process is down, recovery
does not hand it back. -/
def CompletionsFollow (h : List LifeEvent) (w : Installation) : Prop :=
  ∀ k, .dequeueCompleted k ∈ h → w.provider.stored k.1 k.2 = none ∧
    (w.phase = .down → ∀ smart recoveredJournal loadContent malloc R, Recoverable w.provider recoveredJournal →
      recoverMessages loadContent malloc recoveredJournal (w.provider.restart smart) = some R →
      k.2 ∉ R.messageQueueMap.queues k.1)

/-! ### Between two processes -/

theorem brokerEvents_append (h h' : List LifeEvent) : brokerEvents (h ++ h') = brokerEvents h ++ brokerEvents h' :=
  List.filterMap_append

private theorem enqueued_append {h : List LifeEvent} {k : PendingOperationId} (hk : Enqueued (brokerEvents h) k)
    (h' : List LifeEvent) : Enqueued (brokerEvents (h ++ h')) k := by
  obtain ⟨newId, m, hm⟩ := hk
  rw [brokerEvents_append]
  exact ⟨newId, m, List.mem_append_left _ hm⟩

private theorem dequeueCompleted_mem {h : List LifeEvent} {ks : List PendingOperationId} {k : PendingOperationId}
    (hk : .dequeueCompleted k ∈ h ++ ks.map .dequeueCompleted) : .dequeueCompleted k ∈ h ∨ k ∈ ks := by
  rcases List.mem_append.1 hk with hk | hk
  · exact Or.inl hk
  · obtain ⟨k', hk', he⟩ := List.mem_map.1 hk
    cases he
    exact Or.inr hk'

/-- What holds of the files when no process runs. -/
structure AtRest (h : List LifeEvent) (s : StoreProvider) : Prop where
  deleted : ∀ k, .dequeueCompleted k ∈ h → s.stored k.1 k.2 = none
  settled : ∀ k, .dequeueCompleted k ∈ h →
    TwoLevel.find? (s.aologger.enqueueLog.recoverAsync enqueueFormat).1 k.2 k.1 = none
  enqueued : ∀ k : PendingOperationId,
    TwoLevel.find? (s.aologger.enqueueLog.recoverAsync enqueueFormat).1 k.2 k.1 ≠ none → Enqueued (brokerEvents h) k
  tmp : s.aologger.enqueueLog.tmp = []

/-- A recovery that has made the writes `done`. -/
structure Recovering (h : List LifeEvent) (s : StoreProvider) (done todo : List DiskOp)
    (result : Option StoreProvider) (h₀ : List LifeEvent) (s₀ : StoreProvider) (smart : Bool) (queues : List UInt64)
    (loadContent : UInt64 → Bytes → UInt64 → Bool) (malloc : List PendingOperationId → Bool) : Prop where
  atRest : AtRest h₀ s₀
  recoverable : Recoverable s₀ queues
  unstored : (readLogs (s₀.restart smart)).DequeuesUnstored
  events : h = h₀ ++ (done.flatMap DiskOp.dequeueCompletions).map .dequeueCompleted
  ops : done ++ todo = recoveryOps loadContent malloc queues (s₀.restart smart)
  provider : s = (s₀.restart smart).applyOps done
  result : result = (recoverMessages loadContent malloc queues (s₀.restart smart)).map (·.provider)

namespace AtRest

variable {h : List LifeEvent} {s : StoreProvider} (ha : AtRest h s)

include ha

/-- What is neither stored nor pending is not handed back. -/
theorem notMem_queues {k : PendingOperationId} (hk : .dequeueCompleted k ∈ h) (smart : Bool) {queues : List UInt64}
    {loadContent : UInt64 → Bytes → UInt64 → Bool} {malloc : List PendingOperationId → Bool} {R : Recovered}
    (hq : Recoverable s queues) (hR : recoverMessages loadContent malloc queues (s.restart smart) = some R) :
    k.2 ∉ R.messageQueueMap.queues k.1 := by
  intro hmem
  obtain ⟨-, v, hv⟩ := ((recoverMessages_spec (hq.restart smart) hR).mem_queues k.1 k.2).1 hmem
  rcases RecoveryState.mem_recordsOf.1 (RecoveryState.mem_delivered.1 hv).1 with hdb | ⟨-, pae, hpae, hp, -⟩
  · have hdel := ha.deleted k hk
    rw [← stored_restart smart] at hdel
    have hdb' : (s.restart smart).stored k.1 k.2 = some v := hdb
    rw [hdel] at hdb'
    cases hdb'
  · obtain ⟨hpend, hpq, -⟩ := RecoveryState.mem_live.1 (RecoveryState.mem_live_of_copies hpae)
    have hfind := (RecoveryState.find?_aeset (readLogs_keyed (s.restart smart))).2 ⟨hpend, hpq, hp⟩
    have hnone := ha.settled k hk
    rw [show TwoLevel.find? (s.aologger.enqueueLog.recoverAsync enqueueFormat).1 k.2 k.1 = _ from hfind] at hnone
    cases hnone

end AtRest

namespace Recovering

variable {h h₀ : List LifeEvent} {s s₀ : StoreProvider} {result : Option StoreProvider} {done todo : List DiskOp}
  {smart : Bool} {queues : List UInt64} {loadContent : UInt64 → Bytes → UInt64 → Bool}
  {malloc : List PendingOperationId → Bool}
  (hr : Recovering h s done todo result h₀ s₀ smart queues loadContent malloc)

include hr

private theorem isPrefix : done <+: recoveryOps loadContent malloc queues (s₀.restart smart) :=
  ⟨todo, hr.ops⟩

/-- A dequeue that this recovery completes is completed together with its enqueue, and the message is in no
database. -/
theorem cancelled {k : PendingOperationId} (hk : k ∈ done.flatMap DiskOp.dequeueCompletions) :
    TwoLevel.find? (readLogs (s₀.restart smart)).adset k.2 k.1 ≠ none ∧
      TwoLevel.find? (readLogs (s₀.restart smart)).aeset k.2 k.1 ≠ none ∧ s₀.stored k.1 k.2 = none := by
  obtain ⟨hd, hstored⟩ := (pending_of_cut hr.recoverable hr.isPrefix).1 k hk
  obtain ⟨pad, hpad⟩ := Option.ne_none_iff_exists'.1 hd
  obtain ⟨hmem, hkey⟩ := ((AsyncLog.recoverAsync_keyed dequeueFormat _).find?_iff _ _ _).1 hpad
  obtain ⟨hq, hp⟩ := Prod.mk.inj hkey
  have hunstored := hr.unstored pad hmem
  rw [show pad.queueId = k.2 from hq, show pad.msgId = k.1 from hp] at hunstored
  refine ⟨hd, fun hnone => ?_, ?_⟩
  · obtain ⟨v, hv, htr⟩ := hstored hnone
    rw [(hunstored v hv).1] at htr
    cases htr
  · rw [← stored_restart smart]
    by_contra hne
    obtain ⟨v, hv⟩ := Option.ne_none_iff_exists'.1 hne
    obtain ⟨v', hv', htr'⟩ := hstored (hunstored v hv).2
    rw [(hunstored v' hv').1] at htr'
    cases htr'

/-- A completed dequeue, older than this recovery or not: the message was in no database. -/
theorem deleted₀ {k : PendingOperationId} (hk : .dequeueCompleted k ∈ h) : s₀.stored k.1 k.2 = none := by
  rw [hr.events] at hk
  rcases dequeueCompleted_mem hk with hk | hk
  · exact hr.atRest.deleted k hk
  · exact (hr.cancelled hk).2.2

theorem deleted {k : PendingOperationId} (hk : .dequeueCompleted k ∈ h) : s.stored k.1 k.2 = none := by
  rw [hr.provider]
  rcases stored_applyOps (s₀.restart smart) done k.1 k.2 with hnone | hsame
  · exact hnone
  · rw [hsame, stored_restart]
    exact hr.deleted₀ hk

/-- The process stops. -/
theorem crash (hlast : done.getLast? ≠ some (.removeEnqueueFile 0)) : AtRest h s := by
  have hpending := (pending_of_cut hr.recoverable hr.isPrefix).2 hlast
  refine ⟨fun k => hr.deleted, fun k hk => ?_, fun k hk => ?_, ?_⟩
  · by_contra hne
    rw [hr.provider] at hne
    obtain ⟨he, hnot⟩ := hpending k hne
    rw [hr.events] at hk
    rcases dequeueCompleted_mem hk with hk | hk
    · exact he (hr.atRest.settled k hk)
    · exact hnot hk
  · rw [hr.provider] at hk
    rw [hr.events]
    exact enqueued_append (hr.atRest.enqueued k (hpending k hk).1) _
  · rw [hr.provider, tmp_applyOps _ (recoveryOps_attempted hr.isPrefix).2]
    exact hr.atRest.tmp

end Recovering

/-! ### The running process -/

/-- What is known about a pair whose message has been deleted: its enqueue is over, and not pending in the log. -/
structure Gone (s : StoreProvider) (φ : Entries) (base : PendingOperationId → Option PendingAsyncEnqueue)
    (dropped cancelled : PendingOperationId → Prop) (k : PendingOperationId) : Prop where
  deleted : s.stored k.1 k.2 = none
  done : ∀ e ∈ φ k, e.stage = .done
  settled : φ.startedAfter base k = none ∨ φ.completedAfter dropped cancelled k

/-- The invariant of the running process; `base` and `dropped` are the starts and completions that recovery has left
in the enqueue log. -/
structure Serving (h : List LifeEvent) (s : StoreProvider) (φ : Entries)
    (base : PendingOperationId → Option PendingAsyncEnqueue)
    (dropped cancelled : PendingOperationId → Prop) : Prop where
  enqueues : EnqueueSide (fun _ => True) [] s φ
  records : EnqueueRecords base dropped s φ cancelled
  enqueued : ∀ k, φ k ≠ none ∨ base k ≠ none ∨ dropped k → Enqueued (brokerEvents h) k
  left : ∀ k, base k ≠ none → φ k ≠ none ∨ dropped k ∨ s.journalList.contains k.2 = false
  journal : ∀ t ∈ s.threads, t.isEnqueue = false → s.journalList.contains t.key.2 = true
  gone : ∀ k, .dequeueCompleted k ∈ h ∨ .asyncDequeue .logComplete k.1 k.2 ∈ s.threads →
    Gone s φ base dropped cancelled k

theorem Serving.start {s : StoreProvider} (hs : s.Empty) :
    Serving [] s (fun _ => none) (fun _ => none) (fun _ => False) (fun _ => False) where
  enqueues := (EnqueueSide.of_empty hs).forget
  records := EnqueueRecords.of_empty hs
  enqueued := by simp
  left := fun k hk => absurd rfl hk
  journal := fun t ht => by
    rw [hs.threads] at ht
    cases ht
  gone := fun k hk => by
    rw [hs.threads] at hk
    rcases hk with hk | hk <;> cases hk

section Step

variable {h : List LifeEvent} {ev : List Event} {s s' : StoreProvider} {φ : Entries} {a : Action}
  {base : PendingOperationId → Option PendingAsyncEnqueue} {dropped cancelled : PendingOperationId → Prop}
  {k : PendingOperationId}

private theorem cancel_of_cancelled (hk : cancelled k) : a.cancel cancelled k := by
  unfold Action.cancel
  split
  · exact Or.inr hk
  · exact hk

/-- A deleted message stays deleted, as long as it is not enqueued again. -/
theorem Gone.step (hg : Gone s φ base dropped cancelled k) (hs : EnqueueSide (fun _ => True) [] s φ)
    (hnew : ∀ messageId qid m, a = .enqueue messageId qid m → (s.enqueueId messageId, qid) ≠ k)
    (hst : s.step a = some (s', ev)) : Gone s' (φ.next s a) base dropped (a.cancel cancelled) k := by
  have hφ : φ.next s a k = φ k := by
    rcases Entries.next_eq_or (φ := φ) hnew with hk | hk
    · exact hk
    · rw [hk]
      cases he : φ k with
      | none => rfl
      | some e =>
        have hdone := hg.done e he
        obtain ⟨pae, newId, stage⟩ := e
        cases hdone
        rfl
  refine ⟨?_, fun e he => hg.done e (hφ ▸ he), ?_⟩
  · by_cases hak : a.key s = some k
    · cases a with
      | enqueue messageId qid m => exact absurd (Option.some.inj hak) (hnew messageId qid m rfl)
      | dequeue pid qid =>
        obtain ⟨rfl, -⟩ := step_dequeue hst
        exact hg.deleted
      | advance t =>
        obtain rfl := Option.some.inj hak
        obtain ⟨ht, rfl, -⟩ := step_advance hst
        cases t with
        | enqueue pc pae =>
          obtain ⟨e, he, het⟩ := hs.entry_of_mem ht rfl
          rw [Entry.thread, hg.done e he] at het
          cases het
        | store pc pae =>
          obtain ⟨e, he, het⟩ := hs.entry_of_mem ht rfl
          rw [Entry.thread, hg.done e he] at het
          cases het
        | dequeue pc pid qid => cases pc <;> exact hg.deleted
        | asyncDequeue pc pid qid =>
          cases pc with
          | wait w => cases w <;> exact hg.deleted
          | remove =>
            show (s.modifyJournal qid fun j => j.removeMsg pid).stored pid qid = none
            rw [stored_removeMsg, if_pos rfl]
          | logComplete => exact hg.deleted
      | cleanEnqueueLog => cases hak
      | cleanDequeueLog => cases hak
    · rw [(step_sameAt hst hak).1.stored]
      exact hg.deleted
  · unfold Entries.startedAfter Entries.completedAfter Entries.completed
    rw [hφ]
    exact hg.settled.imp_right (Or.imp_right (Or.imp_left cancel_of_cancelled))

namespace Serving

/-- A pair with a record in the log or with an entry has been used. -/
private theorem fresh (hi : Serving h s φ base dropped cancelled) (hk : Unused h s k) :
    φ k = none ∧ base k = none ∧ ¬ dropped k := by
  refine ⟨?_, ?_, fun hd => hk.1 (hi.enqueued k (Or.inr (Or.inr hd)))⟩
  · by_contra hne
    exact hk.1 (hi.enqueued k (Or.inl hne))
  · by_contra hne
    exact hk.1 (hi.enqueued k (Or.inr (Or.inl hne)))

/-- The message of a pair has just been deleted, and no enqueue of the pair is in progress. -/
private theorem gone_of_removed (hi : Serving h s φ base dropped cancelled)
    (hj : s.journalList.contains k.2 = true) (hquiet : ∀ t ∈ s.threads, t.isEnqueue = true → t.key ≠ k)
    (hstored : s'.stored k.1 k.2 = none) : Gone s' φ base dropped cancelled k := by
  have hdone : ∀ e ∈ φ k, e.stage = .done := by
    intro e he
    cases ht : e.thread with
    | none => exact EnqueueSide.stage_of_thread ht
    | some t =>
      obtain ⟨hkey, hte⟩ := EnqueueSide.key_of_thread ht
      exact absurd (hkey.trans ((hi.enqueues k).key e he)) (hquiet t (hi.enqueues.mem_of_entry he ht) hte)
  refine ⟨hstored, hdone, ?_⟩
  cases he : φ k with
  | some e =>
    refine Or.inr ((EnqueueRecords.completedAfter_of_some he).2 (Or.inr ?_))
    rw [hdone e he]
    rfl
  | none =>
    rw [EnqueueRecords.startedAfter_of_none he, EnqueueRecords.completedAfter_of_none he]
    by_cases hbase : base k = none
    · exact Or.inl hbase
    · rcases hi.left k hbase with hne | hd | hn
      · exact absurd he hne
      · exact Or.inr (Or.inl hd)
      · rw [hj] at hn
        cases hn

/-- The next step of a task that has deleted its message. -/
private theorem of_mem_runThread {t : Thread} {pid qid : UInt64}
    (ht : .asyncDequeue .logComplete pid qid ∈ (s.runThread t).2.1) : t = .asyncDequeue .remove pid qid := by
  have hkey := key_of_mem_runThread ht
  have henq := EnqueueSide.isEnqueue_of_mem_runThread ht
  cases t with
  | enqueue pc pae => cases henq
  | store pc pae => cases henq
  | dequeue pc pid' qid' => cases pc <;> simp [runThread] at ht
  | asyncDequeue pc pid' qid' =>
    cases hkey
    cases pc with
    | wait w =>
      cases w with
      | returned r =>
        simp only [runThread] at ht
        split at ht
        · simp at ht
        · split at ht <;> simp at ht
      | _ => simp [runThread] at ht
    | remove => rfl
    | logComplete => simp [runThread] at ht

theorem step (hi : Serving h s φ base dropped cancelled) (hok : Undisturbed h ⟨s, .running⟩ (.provider a))
    (hst : s.step a = some (s', ev)) :
    Serving (h ++ (ev.map .provider ++ a.dequeueCompletions.map .dequeueCompleted)) s' (φ.next s a) base dropped
      (a.cancel cancelled) := by
  have hunused : ∀ messageId qid m, a = .enqueue messageId qid m → Unused h s (s.enqueueId messageId, qid) := by
    rintro messageId qid m rfl
    exact hok
  have hnew := fun messageId qid m ha => hi.fresh (hunused messageId qid m ha)
  have hcontains := step_contains hst
  refine
    { enqueues := (hi.enqueues.step (fun messageId qid m ha => (hnew messageId qid m ha).1) hst).forget
      records := EnqueueRecords.step hi.enqueues hi.records hnew hst
      enqueued := fun k hk => ?_
      left := fun k hk => ?_
      journal := fun t ht hte => ?_
      gone := fun k hk => ?_ }
  · by_cases hold : φ k ≠ none ∨ base k ≠ none ∨ dropped k
    · exact enqueued_append (hi.enqueued k hold) _
    · -- the entry is new
      rw [not_or, not_not] at hold
      have hne := hk.resolve_right hold.2
      by_contra hnot
      refine hne ?_
      have hkeep : ∀ messageId qid m, a = .enqueue messageId qid m → (s.enqueueId messageId, qid) ≠ k := by
        rintro messageId qid m rfl rfl
        obtain ⟨-, -, -, rfl⟩ := step_enqueue hst
        refine hnot ⟨messageId = 0, m, ?_⟩
        rw [brokerEvents_append]
        exact List.mem_append_right _ (List.mem_cons_self ..)
      rcases Entries.next_eq_or (φ := φ) hkeep with he | he
      · rw [he, hold.1]
      · rw [he, hold.1]
        rfl
  · rw [hcontains]
    rcases hi.left k hk with hne | hrest
    · left
      have hkeep : ∀ messageId qid m, a = .enqueue messageId qid m → (s.enqueueId messageId, qid) ≠ k := by
        rintro messageId qid m ha rfl
        exact hne (hnew messageId qid m ha).1
      rcases Entries.next_eq_or (φ := φ) hkeep with he | he
      · rw [he]
        exact hne
      · rw [he]
        simpa using hne
    · exact Or.inr hrest
  · rw [hcontains]
    rcases mem_threads_step hst ht with ht | ⟨t', ht', -, hmem⟩ | ⟨_, _, _, -, rfl⟩ | ⟨pid, qid, rfl, rfl⟩
    · exact hi.journal t ht hte
    · rw [key_of_mem_runThread hmem]
      exact hi.journal t' ht' ((EnqueueSide.isEnqueue_of_mem_runThread hmem).symm.trans hte)
    · cases hte
    · simp only [StoreProvider.step] at hst
      split at hst
      · cases hst
      · rename_i hguard
        rw [not_or, not_or, not_not] at hguard
        exact hguard.2.2
  · -- a pair that was gone stays gone, and a task that deletes a message makes its pair gone
    have hstays : .dequeueCompleted k ∈ h ∨ .asyncDequeue .logComplete k.1 k.2 ∈ s.threads →
        Gone s' (φ.next s a) base dropped (a.cancel cancelled) k := by
      intro hk
      refine (hi.gone k hk).step hi.enqueues ?_ hst
      rintro messageId qid m ha rfl
      obtain ⟨-, hthreads, hcompleted⟩ := hunused messageId qid m ha
      rcases hk with hk | hk
      · exact hcompleted hk
      · exact hthreads _ hk rfl
    rcases hk with hk | hk
    · rw [← List.append_assoc] at hk
      rcases dequeueCompleted_mem hk with hk | hk
      · refine hstays (Or.inl ((List.mem_append.1 hk).resolve_right fun hm => ?_))
        obtain ⟨e, -, he⟩ := List.mem_map.1 hm
        cases he
      · unfold Action.dequeueCompletions at hk
        split at hk
        · rw [List.mem_singleton.1 hk] at hstays ⊢
          exact hstays (Or.inr (step_advance hst).1)
        · cases hk
    · rcases mem_threads_step hst hk with hk | ⟨t, ht, rfl, hmem⟩ | ⟨_, _, _, -, he⟩ | ⟨_, _, -, he⟩
      · exact hstays (Or.inr hk)
      · obtain rfl := of_mem_runThread hmem
        obtain ⟨-, rfl, -⟩ := step_advance hst
        refine hi.gone_of_removed (hi.journal _ ht rfl) hok ?_
        show (s.modifyJournal k.2 fun j => j.removeMsg k.1).stored k.1 k.2 = none
        rw [stored_removeMsg, if_pos rfl]
      · cases he
      · cases he

/-- The process stops while the cleaner of the enqueue log sleeps. -/
theorem crash (hi : Serving h s φ base dropped cancelled) (hsleep : s.aologger.enqueueLog.cleaner = .sleeping) :
    AtRest h s := by
  have hpending : ∀ k a, TwoLevel.find? (s.aologger.enqueueLog.recoverAsync enqueueFormat).1 k.2 k.1 = some a →
      φ.startedAfter base k = some a ∧ ¬ φ.completedAfter dropped cancelled k := fun k a ha =>
    (hi.records.records.recoverAsync_find? hsleep k a).1 ha
  refine ⟨fun k hk => (hi.gone k (Or.inl hk)).deleted, fun k hk => ?_, fun k hk => ?_, ?_⟩
  · rw [Option.eq_none_iff_forall_ne_some]
    intro a ha
    obtain ⟨hstarted, hcompleted⟩ := hpending k a ha
    rcases (hi.gone k (Or.inl hk)).settled with hnone | hdone
    · rw [hnone] at hstarted
      cases hstarted
    · exact hcompleted hdone
  · obtain ⟨a, ha⟩ := Option.ne_none_iff_exists'.1 hk
    have hstarted := (hpending k a ha).1
    refine hi.enqueued k ?_
    cases he : φ k with
    | some e => exact Or.inl (by simp)
    | none =>
      rw [EnqueueRecords.startedAfter_of_none he] at hstarted
      exact Or.inr (Or.inl (by rw [hstarted]; simp))
  · obtain ⟨_, hsim, -⟩ := hi.records.records
    exact hsim.tmp

end Serving

end Step

/-! ### The end of recovery -/

namespace RecoveredSpec

variable {loadContent : UInt64 → Bytes → UInt64 → Bool} {queues : List UInt64} {s : StoreProvider} {smart : Bool}
  {R : Recovered} (h : RecoveredSpec loadContent queues (s.restart smart) R)

include h

private theorem remains_of_find? {k : PendingOperationId} {pae : PendingAsyncEnqueue}
    (hk : TwoLevel.find? R.aeset k.2 k.1 = some pae) :
    TwoLevel.find? (readLogs (s.restart smart)).aeset k.2 k.1 = some pae ∧
      TwoLevel.find? (readLogs (s.restart smart)).adset k.2 k.1 = none := by
  obtain ⟨hmem, hkey⟩ := (h.keyed.find?_iff k.2 k.1 pae).1 hk
  obtain ⟨hq, hp⟩ := Prod.mk.inj hkey
  obtain ⟨hpend, hd, -⟩ := (h.aeset pae).1 hmem
  refine ⟨(RecoveryState.find?_aeset (readLogs_keyed _)).2 ⟨hpend, hq, hp⟩, ?_⟩
  rw [PendingAsyncEnqueue.dequeued, hq, hp, Option.isSome_eq_false_iff, Option.isNone_iff_eq_none] at hd
  exact hd

omit h in
private theorem entries_eq_none {k : PendingOperationId} (hk : TwoLevel.find? R.aeset k.2 k.1 = none) :
    R.entries k = none := by
  unfold Recovered.entries
  rw [hk]
  rfl

/-- The enqueue log that recovery leaves: the pending operations it found were started again, and those it has dropped
since are completed. -/
theorem enqueueRecords {ks : List PendingOperationId}
    (hks : Settles enqueueFormat (readLogs (s.restart smart)).aeset R.aeset
      (readLogs (s.restart smart)).provider.aologger.enqueueLog R.provider.aologger.enqueueLog ks)
    (htmp : s.aologger.enqueueLog.tmp = []) :
    EnqueueRecords (fun k => TwoLevel.find? (readLogs (s.restart smart)).aeset k.2 k.1) (fun k => k ∈ ks) R.provider
      R.entries fun _ => False := by
  have hstarted : (readLogs (s.restart smart)).provider.aologger.enqueueLog.Inv enqueueFormat
      (fun k => TwoLevel.find? (readLogs (s.restart smart)).aeset k.2 k.1) fun _ => False :=
    AsyncLog.inv_recoverAsync (L := (s.restart smart).aologger.enqueueLog) htmp rfl
  have hstage : ∀ k e, R.entries k = some e → TwoLevel.find? R.aeset k.2 k.1 = some e.pae ∧
      e.stage.logged = true ∧ e.stage.completed = false := by
    intro k e he
    obtain ⟨hmem, hk, -, -, hstage⟩ := h.entries_eq_some.1 he
    refine ⟨(h.keyed.find?_iff _ _ _).2 ⟨hmem, ?_⟩, ?_⟩
    · rw [← hk]
      rfl
    · rw [hstage]
      cases smart <;> exact ⟨rfl, rfl⟩
  refine ⟨?_, fun pid qid ht => ?_⟩
  · rw [hks.log]
    refine (hstarted.foldl_logComplete fun k hk => ((hks.dropped k).1 hk).1).congr (fun k => ?_) (fun k => ?_)
    · cases he : R.entries k with
      | none => exact EnqueueRecords.startedAfter_of_none he
      | some e =>
        obtain ⟨hfind, hlogged, -⟩ := hstage k e he
        rw [EnqueueRecords.startedAfter_of_some he, if_pos hlogged]
        exact (h.remains_of_find? hfind).1.symm
    · cases he : R.entries k with
      | none => exact EnqueueRecords.completedAfter_of_none he
      | some e =>
        obtain ⟨hfind, -, hcompleted⟩ := hstage k e he
        rw [EnqueueRecords.completedAfter_of_some he, hcompleted]
        refine iff_of_false (by simp) fun hk => ?_
        rw [((hks.dropped k).1 (hk.resolve_right id)).2] at hfind
        cases hfind
  · rw [h.threads] at ht
    simp only [List.mem_append, List.mem_map] at ht
    rcases ht with (ht | ⟨_, -, ht⟩) | ⟨_, -, ht⟩ <;> cases ht

end RecoveredSpec

/-- The process that recovery leaves. -/
theorem Recovering.serve {h h₀ : List LifeEvent} {s s₀ result : StoreProvider} {done : List DiskOp} {smart : Bool}
    {queues : List UInt64} {loadContent : UInt64 → Bytes → UInt64 → Bool} {malloc : List PendingOperationId → Bool}
    (hr : Recovering h s done [] (some result) h₀ s₀ smart queues loadContent malloc) :
    ∃ φ base dropped cancelled, Serving h result φ base dropped cancelled := by
  obtain ⟨R, hR, hresult⟩ := Option.map_eq_some_iff.1 hr.result.symm
  have hspec := recoverMessages_spec (hr.recoverable.restart smart) hR
  obtain ⟨⟨ks, hks⟩, -⟩ := recoverMessages_settles (hr.recoverable.restart smart) hR
  have hdisk := (applyOps_recoveryOps hr.recoverable hR).2
  have hops : done = recoveryOps loadContent malloc queues (s₀.restart smart) := by
    rw [← hr.ops, List.append_nil]
  rw [← hops, ← hr.provider, hresult] at hdisk
  have hcontains : ∀ q, result.journalList.contains q = s₀.journalList.contains q := by
    rw [← hresult]
    exact hspec.contains_eq
  have hthreads := hspec.threads
  have hentries : ∀ k, R.entries k ≠ none →
      TwoLevel.find? (readLogs (s₀.restart smart)).aeset k.2 k.1 ≠ none := by
    intro k hk
    refine hks.kept k fun hnone => hk (RecoveredSpec.entries_eq_none hnone)
  have henqueued : ∀ k : PendingOperationId, TwoLevel.find? (readLogs (s₀.restart smart)).aeset k.2 k.1 ≠ none →
      Enqueued (brokerEvents h) k := by
    intro k hk
    rw [hr.events]
    exact enqueued_append (hr.atRest.enqueued k hk) _
  have hrecords := hspec.enqueueRecords hks hr.atRest.tmp
  have henqueues := hspec.enqueueSide.forget
  rw [hresult] at hrecords henqueues hthreads
  refine ⟨_, _, _, _, henqueues, hrecords, fun k hk => ?_, fun k hk => ?_, fun t ht hte => ?_, fun k hk => ?_⟩
  · rcases hk with hk | hk | hk
    · exact henqueued k (hentries k hk)
    · exact henqueued k hk
    · exact henqueued k ((hks.dropped k).1 hk).1
  · rw [hcontains]
    by_cases hnone : TwoLevel.find? R.aeset k.2 k.1 = none
    · exact Or.inr (Or.inl ((hks.dropped k).2 ⟨hk, hnone⟩))
    · cases hc : s₀.journalList.contains k.2 with
      | false => exact Or.inr (Or.inr rfl)
      | true =>
        left
        obtain ⟨pae, hpae⟩ := Option.ne_none_iff_exists'.1 hnone
        unfold Recovered.entries
        rw [hpae, Option.bind_some, hspec.contains_eq, if_pos hc]
        simp
  · rw [hcontains]
    rw [hthreads] at ht
    simp only [List.mem_append, List.mem_map] at ht
    rcases ht with (ht | ⟨_, -, rfl⟩) | ⟨pad, hpad, rfl⟩
    · cases ht
    · cases hte
    · rw [← contains_restart smart]
      exact (List.mem_filter.1 hpad).2
  · rcases hk with hk | hk
    · have hnone : TwoLevel.find? R.aeset k.2 k.1 = none := by
        rw [Option.eq_none_iff_forall_ne_some]
        intro pae hpae
        obtain ⟨hold, hd⟩ := hspec.remains_of_find? hpae
        have hk' := hk
        rw [hr.events] at hk'
        rcases dequeueCompleted_mem hk' with hk' | hk'
        · have hsettled := hr.atRest.settled k hk'
          rw [show TwoLevel.find? (s₀.aologger.enqueueLog.recoverAsync enqueueFormat).1 k.2 k.1 = _ from hold]
            at hsettled
          cases hsettled
        · exact (hr.cancelled hk').1 hd
      have he := RecoveredSpec.entries_eq_none hnone
      refine ⟨?_, fun e he' => ?_, ?_⟩
      · rw [← hdisk]
        exact hr.deleted hk
      · rw [he] at he'
        cases he'
      · rw [EnqueueRecords.startedAfter_of_none he, EnqueueRecords.completedAfter_of_none he]
        by_cases hbase : TwoLevel.find? (readLogs (s₀.restart smart)).aeset k.2 k.1 = none
        · exact Or.inl hbase
        · exact Or.inr (Or.inl ((hks.dropped k).2 ⟨hbase, hnone⟩))
    · rw [hthreads] at hk
      simp only [List.mem_append, List.mem_map] at hk
      rcases hk with (hk | ⟨_, -, hk⟩) | ⟨_, -, hk⟩ <;> cases hk

/-! ### All runs -/

/-- The invariant of an installation. -/
def Installation.Inv (h : List LifeEvent) (w : Installation) : Prop :=
  match w.phase with
  | .running => ∃ φ base dropped cancelled, Serving h w.provider φ base dropped cancelled
  | .recovering done todo result => ∃ h₀ s₀ smart queues loadContent malloc,
      Recovering h w.provider done todo result h₀ s₀ smart queues loadContent malloc
  | .down => AtRest h w.provider

theorem Installation.Inv.step {h : List LifeEvent} {w w' : Installation} {a : LifeAction} {ev : List LifeEvent}
    (hi : w.Inv h) (hok : Undisturbed h w a) (hst : w.step a = some (w', ev)) : w'.Inv (h ++ ev) := by
  obtain ⟨s, phase⟩ := w
  cases a with
  | provider a =>
    cases phase with
    | running =>
      obtain ⟨⟨s', ev'⟩, hs, he⟩ := Option.map_eq_some_iff.1 hst
      cases he
      obtain ⟨φ, base, dropped, cancelled, hi⟩ := hi
      exact ⟨_, _, _, _, hi.step hok hs⟩
    | recovering done todo result => cases hst
    | down => cases hst
  | crash =>
    cases phase with
    | running =>
      cases hst
      obtain ⟨φ, base, dropped, cancelled, hi⟩ := hi
      rw [List.append_nil]
      exact hi.crash hok
    | recovering done todo result =>
      cases hst
      obtain ⟨h₀, s₀, smart, queues, loadContent, malloc, hi⟩ := hi
      rw [List.append_nil]
      exact hi.crash hok
    | down => cases hst
  | recover smart queues loadContent malloc =>
    cases phase with
    | running => cases hst
    | recovering done todo result => cases hst
    | down =>
      cases hst
      obtain ⟨hq, hunstored⟩ := hok
      exact ⟨h, s, smart, queues, loadContent, malloc, hi, hq, hunstored, by rw [List.append_nil]; simp,
        rfl, rfl, rfl⟩
  | write =>
    cases phase with
    | running => cases hst
    | recovering done todo result =>
      cases todo with
      | nil => cases hst
      | cons op todo =>
        cases hst
        obtain ⟨h₀, s₀, smart, queues, loadContent, malloc, hi⟩ := hi
        refine ⟨h₀, s₀, smart, queues, loadContent, malloc, hi.atRest, hi.recoverable, hi.unstored, ?_, ?_,
          ?_, hi.result⟩
        · rw [hi.events, List.flatMap_append, List.map_append, List.flatMap_singleton, List.append_assoc]
        · rw [← hi.ops, List.append_assoc]
          rfl
        · rw [applyOps_append, ← show s = (s₀.restart smart).applyOps done from hi.provider]
          rfl
    | down => cases hst
  | serve =>
    cases phase with
    | running => cases hst
    | recovering done todo result =>
      cases todo with
      | nil =>
        cases result with
        | none => cases hst
        | some result =>
          cases hst
          obtain ⟨h₀, s₀, smart, queues, loadContent, malloc, hi⟩ := hi
          rw [List.append_nil]
          exact hi.serve
      | cons op todo => cases hst
    | down => cases hst

/-- A recovery of the single queue, up to its write number `n`. -/
def recoverySteps (n : Nat) : List LifeAction :=
  .recover false [1] (fun _ _ _ => true) (fun _ => true) :: List.replicate n .write

/-- Message 1 is stored and dequeued; after a crash the broker is recovered, and crashes again. -/
def dequeueAndRecover : List LifeAction :=
  (enqueueCall 0 1 1 ++ storeTask 1 1 ++ dequeueCall 1 1 ++ dequeueTask 1 1).map .provider ++
    .crash :: recoverySteps 10 ++ [.serve, .crash]

/-- Message 1 is stored, and the crash comes when its dequeue has been logged.  The recovery is stopped after it has
logged the completion of the dequeue. -/
def stopBeforeDiscard : List LifeAction :=
  (enqueueCall 0 1 1 ++ storeTask 1 1 ++ dequeueCall 1 1).map .provider ++ .crash :: recoverySteps 7 ++ [.crash]

end BdbMsgStore

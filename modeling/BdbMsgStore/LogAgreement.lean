import BdbMsgStore.AfterRecovery
import BdbMsgStore.RecoveredLogs

/-!
# The logs and the pools after recovery

When `recoverMessages` has finished, the two logs and the two pools should agree about every existing queue: an
enqueue is pending in the log exactly when one `store` task is scheduled for it, a dequeue exactly when one
`async_dequeue` task is, and no pair is pending in both logs.

The tasks are those of the two maps that the loops over the queues leave (`storeTasks_eq`, `dequeueTasks_eq`), and so
are the operations pending in the logs (`Settles.pending_iff`).
-/

namespace BdbMsgStore

open KeyedLog LogFormat StoreProvider

/-! ### Scheduled tasks -/

/-- The scheduled `store` tasks of an operation. -/
def StoreProvider.storeTasks (s : StoreProvider) (k : PendingOperationId) : Nat :=
  s.threads.countP fun t => (t.isTask && t.isEnqueue) && decide (t.key = k)

/-- The scheduled `async_dequeue` tasks of an operation. -/
def StoreProvider.dequeueTasks (s : StoreProvider) (k : PendingOperationId) : Nat :=
  s.threads.countP fun t => (t.isTask && !t.isEnqueue) && decide (t.key = k)

/-- The logs and the pools agree about the queues. -/
structure StoreProvider.LogsAgree (s : StoreProvider) (queues : List UInt64) : Prop where
  stores : ∀ q ∈ queues, ∀ p, s.storeTasks (p, q) =
    if (TwoLevel.find? s.aologger.recoverAsyncEnqueue.1 q p).isSome then 1 else 0
  dequeues : ∀ q ∈ queues, ∀ p, s.dequeueTasks (p, q) =
    if (TwoLevel.find? s.aologger.recoverAsyncDequeue.1 q p).isSome then 1 else 0
  exclusive : ∀ q ∈ queues, ∀ p, TwoLevel.find? s.aologger.recoverAsyncEnqueue.1 q p = none ∨
    TwoLevel.find? s.aologger.recoverAsyncDequeue.1 q p = none

/-- The tasks scheduled for a map: one for each of its keys whose queue exists. -/
private theorem countP_scheduled {ν : Type} {g : ν → UInt64 × UInt64} {m : PendingSet ν} (hm : TwoLevel.Keyed g m)
    {task : ν → Thread} (htask : ∀ v, (task v).key = (g v).swap) {isKind : Thread → Bool}
    (hkind : ∀ v, isKind (task v) = true) {open? : UInt64 → Bool} {k : PendingOperationId} (hk : open? k.2 = true) :
    (((AsyncLog.pendingList m).filter fun v => open? (g v).1).map task).countP
        (fun t => isKind t && decide (t.key = k)) =
      if (TwoLevel.find? m k.2 k.1).isSome then 1 else 0 := by
  have hcount : (((AsyncLog.pendingList m).filter fun v => open? (g v).1).map task).countP
      (fun t => isKind t && decide (t.key = k)) = ((AsyncLog.pendingList m).map g).count k.swap := by
    rw [List.countP_map, List.countP_filter, List.count, List.countP_map]
    refine List.countP_congr fun v _ => ?_
    simp only [Function.comp_apply, hkind, htask, Bool.true_and, Bool.and_eq_true, decide_eq_true_eq, beq_iff_eq]
    constructor
    · rintro ⟨rfl, -⟩
      exact (Prod.swap_swap _).symm
    · intro hg
      rw [hg]
      exact ⟨Prod.swap_swap k, hk⟩
  have hnd : ((AsyncLog.pendingList m).map g).Nodup := hm.nodup
  rw [hcount, hnd.count]
  refine if_congr ?_ rfl rfl
  rw [List.mem_map, Option.isSome_iff_exists]
  exact exists_congr fun v => (hm.find?_iff k.2 k.1 v).symm

/-- Tasks of the other kind do not count. -/
private theorem countP_other {ν : Type} (l : List ν) {task : ν → Thread} {isKind : Thread → Bool}
    (hkind : ∀ v, isKind (task v) = false) (k : PendingOperationId) :
    (l.map task).countP (fun t => isKind t && decide (t.key = k)) = 0 := by
  rw [List.countP_eq_zero]
  intro t ht
  obtain ⟨v, -, rfl⟩ := List.mem_map.1 ht
  rw [hkind]
  simp

namespace RecoveredSpec

variable {loadContent : UInt64 → Bytes → UInt64 → Bool} {queues : List UInt64} {s : StoreProvider} {smart : Bool}
  {R : Recovered} (h : RecoveredSpec loadContent queues (s.restart smart) R)

include h

theorem storeTasks_eq {k : PendingOperationId} (hk : s.journalList.contains k.2 = true) :
    R.provider.storeTasks k = if (TwoLevel.find? R.aeset k.2 k.1).isSome then 1 else 0 := by
  unfold storeTasks
  rw [h.threads, List.countP_append, List.countP_append,
    countP_other ((AsyncLog.pendingList R.adset).filter _) (fun _ => rfl), Nat.add_zero]
  refine (Nat.zero_add _).trans (countP_scheduled h.keyed (fun _ => rfl) (fun _ => rfl) ?_)
  rw [contains_restart]
  exact hk

theorem dequeueTasks_eq {k : PendingOperationId} (hk : s.journalList.contains k.2 = true) :
    R.provider.dequeueTasks k = if (TwoLevel.find? R.adset k.2 k.1).isSome then 1 else 0 := by
  unfold dequeueTasks
  rw [h.threads, List.countP_append, List.countP_append,
    countP_other ((AsyncLog.pendingList R.aeset).filter _) (fun _ => rfl)]
  refine (Nat.zero_add _).trans (countP_scheduled h.keyedDequeues (fun _ => rfl) (fun _ => rfl) ?_)
  rw [contains_restart]
  exact hk

/-- No pair is left in both maps. -/
theorem exclusive (p q : UInt64) : TwoLevel.find? R.aeset q p = none ∨ TwoLevel.find? R.adset q p = none := by
  by_contra hcon
  push Not at hcon
  obtain ⟨he, hd⟩ := hcon
  obtain ⟨pae, hpae⟩ := Option.ne_none_iff_exists'.1 he
  obtain ⟨hmem, hkey⟩ := (h.keyed.find?_iff q p pae).1 hpae
  obtain ⟨hpend, -⟩ := (h.aeset pae).1 hmem
  obtain ⟨rfl, rfl⟩ := Prod.mk.inj hkey
  rw [← Option.isSome_iff_ne_none, h.adset] at hd
  unfold RecoveryState.remainsDequeue at hd
  obtain ⟨horph, -⟩ := Bool.and_eq_true_iff.1 hd
  have hnone := (RecoveryState.orphaned_iff.1 horph).2
  rw [(RecoveryState.find?_aeset (readLogs_keyed _)).2 ⟨hpend, rfl, rfl⟩] at hnone
  cases hnone

end RecoveredSpec

/-! ### Agreement -/

/-- For every state that a crash leaves, recovery finishes exactly if the logs can be read and its batches of
completions are written whole, and when it has finished, the logs and the pools agree about the queues. -/
theorem logs_and_pools_agree (loadContent : UInt64 → Bytes → UInt64 → Bool)
    (malloc : List PendingOperationId → Bool) {queues : List UInt64} {s : StoreProvider} (smart : Bool)
    (hq : Recoverable s queues) :
    ((recoverMessages loadContent malloc queues (s.restart smart)).isSome = true ↔
      (s.restart smart).logsThrow = false ∧ (readLogs (s.restart smart)).BatchesWritten malloc queues) ∧
    ∀ R, recoverMessages loadContent malloc queues (s.restart smart) = some R → R.provider.LogsAgree queues := by
  refine ⟨recoverMessages_isSome_iff loadContent malloc (hq.restart smart), fun R hR => ?_⟩
  have hspec := recoverMessages_spec (hq.restart smart) hR
  obtain ⟨⟨ks, hks⟩, ⟨ks', hks'⟩⟩ := recoverMessages_settles (hq.restart smart) hR
  have hstores : ∀ k : PendingOperationId, _ ↔ _ := hks.pending_iff
  have hdequeues : ∀ k : PendingOperationId, _ ↔ _ := hks'.pending_iff
  refine ⟨fun q hmem p => ?_, fun q hmem p => ?_, fun q _ p => ?_⟩
  · rw [hspec.storeTasks_eq ((hq.2 q).1 hmem)]
    refine if_congr ?_ rfl rfl
    rw [Option.isSome_iff_ne_none, Option.isSome_iff_ne_none]
    exact (hstores (p, q)).symm
  · rw [hspec.dequeueTasks_eq ((hq.2 q).1 hmem)]
    refine if_congr ?_ rfl rfl
    rw [Option.isSome_iff_ne_none, Option.isSome_iff_ne_none]
    exact (hdequeues (p, q)).symm
  · refine (hspec.exclusive p q).imp (fun hnone => ?_) fun hnone => ?_
    · exact not_not.1 fun hne => (hstores (p, q)).1 hne hnone
    · exact not_not.1 fun hne => (hdequeues (p, q)).1 hne hnone

/-- Message 1 with both operations pending, and message 2 with a pending enqueue. -/
def halfDone : List Action := enqueueCall 0 1 1 ++ dequeueCall 1 1 ++ enqueueCall 0 2 1

theorem logs_and_pools_agree_halfDone :
    ∃ R, recoverySample (stateAfter halfDone) = some R ∧ R.provider.LogsAgree [1] ∧
      R.provider.storeTasks (2, 1) = 1 ∧ R.provider.storeTasks (1, 1) = 0 := by
  obtain ⟨R, hR, hstore⟩ : ∃ R ∈ recoverySample (stateAfter halfDone),
      R.provider.storeTasks (2, 1) = 1 ∧ R.provider.storeTasks (1, 1) = 0 := by decide +kernel
  exact ⟨R, hR, (logs_and_pools_agree _ _ false (recoverable_of_keys (by decide +kernel))).2 R hR, hstore⟩

end BdbMsgStore

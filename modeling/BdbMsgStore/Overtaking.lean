import BdbMsgStore.Catchup
import BdbMsgStore.Quiescence

/-!
# Dequeues after recovery

A store task that recovery schedules is not registered as a duplicate, so the only thing that holds the delete of the
same pair back is the watermark.  This is enough when every pending id is above the first watermark, and when no id is
pending on two queues: then the id is covered only after the store of its pair is done, and the invariants of an
ordinary run hold from the first state on (`RecoveredSpec.coherent`).
-/

namespace BdbMsgStore

open StoreProvider

/-- Every pending id is above the ids of the databases, and pending on one queue only. -/
structure RecoveryState.Ordered (r : RecoveryState) (queues : List UInt64) : Prop where
  inRange : r.InRange queues
  ne_zero : ∀ q ∈ queues, ∀ pae ∈ r.copies q, pae.msgId ≠ 0
  ahead : ∀ q ∈ queues, ∀ pae ∈ r.copies q, ∀ q' ∈ queues, ∀ p ∈ r.dbIds q', p < pae.msgId
  single : ∀ q ∈ queues, ∀ pae ∈ r.copies q, ∀ q' ∈ queues, ∀ pae' ∈ r.copies q', pae.msgId = pae'.msgId → q = q'

namespace RecoveredSpec

variable {loadContent : UInt64 → Bytes → UInt64 → Bool} {queues : List UInt64} {s : StoreProvider} {smart : Bool}
  {R : Recovered} (h : RecoveredSpec loadContent queues (s.restart smart) R) (hq : Recoverable s queues)
  (hr : (readLogs (s.restart smart)).Ordered queues)

include h hq hr

/-- A pending id is above the first watermark. -/
theorem newestSettled_lt_of_entry {k : PendingOperationId} (hk : R.entries k ≠ none) :
    (readLogs (s.restart smart)).newestSettled queues < k.1 := by
  obtain ⟨hmem, pae, hpae, hp⟩ := (h.entries_ne_none hq).1 hk
  rw [← not_le, hr.inRange.le_newestSettled_iff (hq.restart smart), ← hp]
  rintro (h0 | ⟨q', hq', p, hp', hle⟩)
  · exact hr.ne_zero k.2 hmem pae hpae h0
  · exact absurd hle (not_le.2 (hr.ahead k.2 hmem pae hpae q' hq' p hp'))

/-- The message of a store task is not in the database. -/
theorem stored_eq_none_of_entry {k : PendingOperationId} (hk : R.entries k ≠ none) :
    R.provider.stored k.1 k.2 = none := by
  obtain ⟨hmem, pae, hpae, hp⟩ := (h.entries_ne_none hq).1 hk
  by_contra hne
  obtain ⟨hst, htr, -⟩ := (h.stored_ne_none k.1 k.2).1 hne
  obtain ⟨v, hv⟩ := Option.ne_none_iff_exists'.1 hst
  have hflag : transientFlag v = false := by
    cases hf : transientFlag v with
    | false => rfl
    | true => exact absurd (mem_transientIds.2 ⟨v, mem_recordsOf_of_stored hv, hf⟩) htr
  have hdb : k.1 ∈ (readLogs (s.restart smart)).dbIds k.2 := RecoveryState.mem_dbIds.2 ⟨v, hv, hflag⟩
  have hlt := hr.ahead k.2 hmem pae hpae k.2 hmem k.1 hdb
  rw [hp] at hlt
  exact lt_irrefl _ hlt

theorem watermark : Watermark ((readLogs (s.restart smart)).newestSettled queues) R.provider R.entries := by
  have ht := (LaterInv.of_recovered h hq hr.inRange).1.tracked
  have hne : ∀ {k : PendingOperationId} {e : Entry}, e ∈ R.entries k → R.entries k ≠ none := by
    intro k e he hnone
    rw [hnone] at he
    cases he
  refine ⟨ht.sound, h.stopped, ht.le_lastPid, ht.issued, fun k e he _ hcov => ?_, fun p q q' h1 h2 => ?_,
    fun k e he hn => ht.window k ⟨e, he, hn⟩⟩
  · -- nothing is covered yet except the ids up to the first watermark
    exfalso
    have hlow := h.newestSettled_lt_of_entry hq hr (hne he)
    rw [h.mainRecord] at hcov
    rcases hcov with hle | hgap
    · exact absurd hle (not_le.2 hlow)
    · cases hgap
  · obtain ⟨e1, he1, -⟩ := h1
    obtain ⟨e2, he2, -⟩ := h2
    obtain ⟨hm1, pae1, hp1, hid1⟩ := (h.entries_ne_none hq).1 (hne he1)
    obtain ⟨hm2, pae2, hp2, hid2⟩ := (h.entries_ne_none hq).1 (hne he2)
    exact hr.single q hm1 pae1 hp1 q' hm2 pae2 hp2 (hid1.trans hid2.symm)

theorem pairInv (k : PendingOperationId) :
    PairInv (R.provider.stored k.1 k.2) R.provider k (R.entries k) (R.dequeues k) := by
  have hstage : ∀ d, R.dequeues k = some d → d = .wait (.dupTest 0) := fun d hd => (h.dequeues_eq_some.1 hd).2.2
  have hany : ∀ f : DeqStage → Bool, f (.wait (.dupTest 0)) = false → (R.dequeues k).any f = false := by
    intro f hf
    cases hd : R.dequeues k with
    | none => rfl
    | some d =>
      rw [hstage d hd]
      exact hf
  refine
    { fresh := h.stored_eq_none_of_entry hq hr
      waiting := fun hsm _ e he _ => ?_
      taken := fun hc => ?_
      unregistered := fun n hn => ?_
      ready := fun hc => ?_
      running := fun hd => ?_
      stored := ?_ }
  · -- recovery has registered the pair for its store task
    obtain ⟨hmem, hk, hj, -, -⟩ := h.entries_eq_some.1 he
    have hsmart : (s.restart smart).enableSmartAsync = true := h.enableSmartAsync.symm.trans hsm
    rw [h.isPending, hsmart, Bool.true_and, Bool.or_eq_true, decide_eq_true_eq]
    refine Or.inr (List.mem_map.2 ⟨e.pae, List.mem_filter.2 ⟨hmem, ?_⟩, hk⟩)
    rw [contains_restart]
    rwa [← hk] at hj
  · rw [hany _ rfl] at hc
    cases hc
  · rcases hn with hn | hn <;> cases hstage _ hn
  · rw [hany _ rfl] at hc
    cases hc
  · cases hstage _ hd
  · unfold content
    rw [hany _ rfl, if_neg (by simp)]
    cases he : R.entries k with
    | none => rfl
    | some e =>
      have hnone := h.stored_eq_none_of_entry hq hr (k := k) (by rw [he]; simp)
      have hst : e.stage.stored = false := by
        rw [(h.entries_eq_some.1 he).2.2.2.2]
        cases smart <;> rfl
      simp [hnone, hst]

/-- The invariants of a run hold in the state after recovery. -/
theorem coherent : Coherent (fun k => R.provider.stored k.1 k.2) ((readLogs (s.restart smart)).newestSettled queues)
    (fun k => R.entries k ≠ none) (fun k => R.dequeues k ≠ none) [] R.provider R.entries R.dequeues where
  enqueues := h.enqueueSide
  dequeues := h.dequeueSide
  watermark := h.watermark hq hr
  pairs := h.pairInv hq hr

omit hq hr in
/-- A message that is handed to the broker has no dequeue task. -/
theorem dequeues_eq_none_of_handed {p q : UInt64} (hp : q ∈ R.messageQueueMap.queues p) :
    R.dequeues (p, q) = none := by
  obtain ⟨-, v, hv⟩ := (h.mem_queues p q).1 hp
  obtain ⟨-, horph, -⟩ := RecoveryState.mem_delivered.1 hv
  by_contra hne
  obtain ⟨d, hd⟩ := Option.ne_none_iff_exists'.1 hne
  have hrem := (h.dequeues_eq_some.1 hd).1
  rw [RecoveryState.remainsDequeue, horph] at hrem
  cases hrem

end RecoveredSpec

/-- What the broker does after recovery: it dequeues messages that were handed to it, each at most once. -/
def DequeuesRecovered (R : Recovered) (h : List Event) : Action → Prop
  | .enqueue _ _ _ => False
  | .dequeue pid qid => qid ∈ R.messageQueueMap.queues pid ∧ .dequeueCalled pid qid ∉ h
  | _ => True

instance (R : Recovered) (h : List Event) : ∀ a, Decidable (DequeuesRecovered R h a)
  | .enqueue _ _ _ => isFalse id
  | .dequeue pid qid =>
    inferInstanceAs (Decidable (qid ∈ R.messageQueueMap.queues pid ∧ .dequeueCalled pid qid ∉ h))
  | .advance _ | .cleanEnqueueLog | .cleanDequeueLog => isTrue trivial

/-- Message 1 is in the database and message 2 is pending; after recovery message 2 is stored and then dequeued. -/
private def oneStored : List Action := enqueueCall 0 1 1 ++ storeTask 1 1 ++ enqueueCall 0 2 1

/-- Message 2 is in the database and message 1 is pending. -/
private def secondStored : List Action := enqueueCall 0 1 1 ++ enqueueCall 0 2 1 ++ storeTask 2 1

end BdbMsgStore

import BdbMsgStore.EnqueueSide
import BdbMsgStore.LogCleaning

/-!
# The records of the enqueue log

The enqueue log follows the stages of the enqueues: a pair is started once its enqueue is past `log_enqueue_start`,
and completed once its store task is past `log_enqueue_complete` or a dequeue has cancelled the pair
(`EnqueueRecords.step`).  A log that recovery has written again also holds records of pairs without an entry; they
stay as they are.
-/

namespace BdbMsgStore

open StoreProvider

/-- What the enqueue log has start records for. -/
def Entries.started (φ : Entries) (k : PendingOperationId) : Option PendingAsyncEnqueue :=
  (φ k).bind fun e => if e.stage.logged then some e.pae else none

/-- What the enqueue log has completion records for; `cancelled` are the pairs that a dequeue has completed. -/
def Entries.completed (φ : Entries) (cancelled : PendingOperationId → Prop) (k : PendingOperationId) : Prop :=
  cancelled k ∨ ∃ e ∈ φ k, e.stage.completed

/-- The same when the log is older than the run: `base` are the starts of the pairs without an entry. -/
def Entries.startedAfter (base : PendingOperationId → Option PendingAsyncEnqueue) (φ : Entries)
    (k : PendingOperationId) : Option PendingAsyncEnqueue :=
  (φ k).elim (base k) fun e => if e.stage.logged then some e.pae else none

@[inherit_doc Entries.startedAfter]
def Entries.completedAfter (dropped : PendingOperationId → Prop) (φ : Entries) (cancelled : PendingOperationId → Prop)
    (k : PendingOperationId) : Prop :=
  (φ k = none ∧ dropped k) ∨ φ.completed cancelled k

/-- The cancelled pairs after an action. -/
def StoreProvider.Action.cancel (cancelled : PendingOperationId → Prop) : Action → PendingOperationId → Prop
  | .advance (.dequeue .logEnqueueComplete pid qid) => fun k => k = (pid, qid) ∨ cancelled k
  | _ => cancelled

/-- The enqueue log holds the records that the stages of the enqueues call for, and a dequeue that is about to
complete an enqueue finds its start record there. -/
structure EnqueueRecords (base : PendingOperationId → Option PendingAsyncEnqueue)
    (dropped : PendingOperationId → Prop) (s : StoreProvider) (φ : Entries) (cancelled : PendingOperationId → Prop) :
    Prop where
  records : s.aologger.enqueueLog.Inv enqueueFormat (φ.startedAfter base) (φ.completedAfter dropped cancelled)
  cancelling : ∀ pid qid, .dequeue .logEnqueueComplete pid qid ∈ s.threads → φ.startedAfter base (pid, qid) ≠ none

namespace EnqueueRecords

variable {base : PendingOperationId → Option PendingAsyncEnqueue} {dropped : PendingOperationId → Prop}
  {old : PendingOperationId → Prop} {h : List Event} {s s' : StoreProvider} {φ : Entries} {a : Action}
  {ev : List Event} {cancelled : PendingOperationId → Prop}

private theorem nextStage_logged (e : Entry) : (e.nextStage s).logged = true := by
  obtain ⟨pae, newId, stage⟩ := e
  unfold Entry.nextStage
  cases stage with
  | logStart => cases s.enableSmartAsync <;> rfl
  | schedule => cases s.enableSmartAsync <;> rfl
  | check => cases s.tracker.isPending pae.msgId pae.queueId <;> rfl
  | addPidDup => cases s.tracker.isDuplicate pae.msgId pae.queueId <;> rfl
  | _ => rfl

private theorem nextStage_completed (e : Entry) :
    (e.nextStage s).completed = true ↔ e.stage = .logComplete ∨ e.stage.completed = true := by
  obtain ⟨pae, newId, stage⟩ := e
  unfold Entry.nextStage
  cases stage with
  | logStart => cases s.enableSmartAsync <;> simp [EnqStage.completed]
  | schedule => cases s.enableSmartAsync <;> simp [EnqStage.completed]
  | check => cases s.tracker.isPending pae.msgId pae.queueId <;> simp [EnqStage.completed]
  | addPidDup => cases s.tracker.isDuplicate pae.msgId pae.queueId <;> simp [EnqStage.completed]
  | _ => simp [EnqStage.completed]

theorem startedAfter_of_some {k : PendingOperationId} {e : Entry} (he : φ k = some e) :
    φ.startedAfter base k = if e.stage.logged then some e.pae else none := by
  unfold Entries.startedAfter
  rw [he]
  rfl

theorem completedAfter_of_some {k : PendingOperationId} {e : Entry} (he : φ k = some e) :
    φ.completedAfter dropped cancelled k ↔ cancelled k ∨ e.stage.completed = true := by
  unfold Entries.completedAfter Entries.completed
  rw [he]
  simp

theorem startedAfter_of_none {k : PendingOperationId} (he : φ k = none) : φ.startedAfter base k = base k := by
  unfold Entries.startedAfter
  rw [he]
  rfl

theorem completedAfter_of_none {k : PendingOperationId} (he : φ k = none) :
    φ.completedAfter dropped cancelled k ↔ dropped k ∨ cancelled k := by
  unfold Entries.completedAfter Entries.completed
  rw [he]
  simp

private theorem startedAfter_update {k k' : PendingOperationId} (hk : k ≠ k') (x : Option Entry) :
    Entries.startedAfter base (Function.update φ k' x) k = φ.startedAfter base k := by
  unfold Entries.startedAfter
  rw [Function.update_of_ne hk]

private theorem completedAfter_update {k k' : PendingOperationId} (hk : k ≠ k') (x : Option Entry) :
    Entries.completedAfter dropped (Function.update φ k' x) cancelled k ↔ φ.completedAfter dropped cancelled k := by
  unfold Entries.completedAfter Entries.completed
  rw [Function.update_of_ne hk]

/-- A pair that was started stays started. -/
private theorem started_next {k : PendingOperationId} (hk : φ.startedAfter base k ≠ none)
    (hnew : ∀ messageId qid m, a = .enqueue messageId qid m →
      φ.startedAfter base (s.enqueueId messageId, qid) = none) :
    (φ.next s a).startedAfter base k ≠ none := by
  by_cases hak : a.key s = some k
  · cases a with
    | enqueue messageId qid m =>
      cases hak
      exact absurd (hnew messageId qid m rfl) hk
    | advance t =>
      cases hak
      simp only [Entries.next]
      split
      · cases he : φ t.key with
        | none =>
          rw [startedAfter_of_none he] at hk
          rw [startedAfter_of_none (by rw [Function.update_self]; rfl)]
          exact hk
        | some e =>
          rw [startedAfter_of_some (e := e.next s) (by rw [Function.update_self]; rfl)]
          simp [Entry.next, nextStage_logged]
      · exact hk
    | _ => exact hk
  · unfold Entries.startedAfter at hk ⊢
    rw [Entries.next_of_ne hak]
    exact hk

/-- A step of an enqueue writes the record that its next stage calls for. -/
private theorem records_advance (hl : EnqueueRecords base dropped s φ cancelled) {e : Entry} {t : Thread}
    (he : φ t.key = some e) (hkey : e.pae.opId = t.key) (het : e.thread = some t) :
    (s.runThread t).1.aologger.enqueueLog.Inv enqueueFormat
      (Entries.startedAfter base (Function.update φ t.key (some (e.next s))))
      (Entries.completedAfter dropped (Function.update φ t.key (some (e.next s))) cancelled) := by
  have hst : ∀ k, Entries.startedAfter base (Function.update φ t.key (some (e.next s))) k =
      Function.update (φ.startedAfter base) t.key (some e.pae) k := by
    intro k
    by_cases hk : k = t.key
    · subst hk
      rw [startedAfter_of_some (Function.update_self ..), Function.update_self]
      simp [Entry.next, nextStage_logged]
    · rw [startedAfter_update hk _, Function.update_of_ne hk]
  have hco : ∀ k, Entries.completedAfter dropped (Function.update φ t.key (some (e.next s))) cancelled k ↔
      (k = t.key ∧ e.stage = .logComplete) ∨ φ.completedAfter dropped cancelled k := by
    intro k
    by_cases hk : k = t.key
    · subst hk
      rw [completedAfter_of_some (Function.update_self ..), completedAfter_of_some he,
        show (e.next s).stage = e.nextStage s from rfl, nextStage_completed]
      simp only [true_and]
      exact or_left_comm
    · rw [completedAfter_update hk _]
      simp [hk]
  -- once the start record is written, the started pairs stay the same
  have hsame : e.stage.logged = true → ∀ k, Function.update (φ.startedAfter base) t.key (some e.pae) k =
      φ.startedAfter base k := by
    intro hlog k
    by_cases hk : k = t.key
    · subst hk
      rw [Function.update_self, startedAfter_of_some he, if_pos hlog]
    · rw [Function.update_of_ne hk]
  obtain ⟨pae, newId, stage⟩ := e
  cases stage <;> cases het
  case logStart =>
    have hnone : φ.startedAfter base (enqueueFormat.opId pae) = none := by
      show φ.startedAfter base pae.opId = none
      rw [hkey, startedAfter_of_some he]
      rfl
    refine (hl.records.logStart hnone).congr (fun k => ?_) (fun k => ?_)
    · rw [hst]
      rfl
    · rw [hco]
      simp
  case logComplete =>
    have hne : φ.startedAfter base pae.opId ≠ none := by
      rw [hkey, startedAfter_of_some he]
      simp [EnqStage.logged]
    refine (hl.records.logComplete hne).congr (fun k => ?_) (fun k => ?_)
    · rw [hst, hsame rfl]
    · rw [hco]
      simp only [and_true]
      rfl
  case put =>
    simp only [runThread, modifyJournal_aologger]
    exact hl.records.congr (fun k => by rw [hst, hsame rfl]) (fun k => by rw [hco]; simp)
  all_goals exact hl.records.congr (fun k => by rw [hst, hsame rfl]) (fun k => by rw [hco]; simp)

/-- Every step of the system writes the records that the stages of the enqueues call for. -/
theorem step (hs : EnqueueSide old h s φ) (hl : EnqueueRecords base dropped s φ cancelled)
    (hnew : ∀ messageId qid m, a = .enqueue messageId qid m → φ (s.enqueueId messageId, qid) = none ∧
      base (s.enqueueId messageId, qid) = none ∧ ¬ dropped (s.enqueueId messageId, qid))
    (hst : s.step a = some (s', ev)) : EnqueueRecords base dropped s' (φ.next s a) (a.cancel cancelled) := by
  have hnone : ∀ messageId qid m, a = .enqueue messageId qid m →
      φ.startedAfter base (s.enqueueId messageId, qid) = none := by
    intro messageId qid m ha
    obtain ⟨hφ, hbase, -⟩ := hnew messageId qid m ha
    rw [startedAfter_of_none hφ, hbase]
  refine ⟨?_, fun pid qid ht => ?_⟩
  · cases a with
    | enqueue messageId qid m =>
      obtain ⟨-, -, rfl, -⟩ := step_enqueue hst
      obtain ⟨hφ, hbase, hdropped⟩ := hnew messageId qid m rfl
      rw [Entries.next_enqueue]
      refine hl.records.congr (fun k => ?_) (fun k => ?_)
      · by_cases hk : k = (s.enqueueId messageId, qid)
        · rw [hk, startedAfter_of_some (Function.update_self ..), startedAfter_of_none hφ, hbase]
          rfl
        · exact startedAfter_update hk _
      · by_cases hk : k = (s.enqueueId messageId, qid)
        · rw [hk, completedAfter_of_some (Function.update_self ..), completedAfter_of_none hφ]
          simp [EnqStage.completed, Action.cancel, hdropped]
        · exact completedAfter_update hk _
    | dequeue pid qid =>
      obtain ⟨rfl, -⟩ := step_dequeue hst
      exact hl.records
    | advance t =>
      obtain ⟨ht, rfl, -⟩ := step_advance hst
      cases t with
      | enqueue pc pae =>
        obtain ⟨e, he, het⟩ := hs.entry_of_mem ht rfl
        rw [Entries.next_advance rfl he]
        exact hl.records_advance he ((hs _).key e he) het
      | store pc pae =>
        obtain ⟨e, he, het⟩ := hs.entry_of_mem ht rfl
        rw [Entries.next_advance rfl he]
        exact hl.records_advance he ((hs _).key e he) het
      | dequeue pc pid qid =>
        cases pc with
        | logEnqueueComplete =>
          refine (hl.records.logComplete (hl.cancelling pid qid ht)).congr (fun k => rfl) (fun k => ?_)
          unfold Entries.completedAfter Entries.completed
          exact (or_congr_right or_assoc).trans or_left_comm
        | _ => exact hl.records
      | asyncDequeue pc pid qid =>
        cases pc with
        | wait w => cases w <;> exact hl.records
        | remove =>
          simp only [runThread, modifyJournal_aologger]
          exact hl.records
        | logComplete => exact hl.records
    | cleanEnqueueLog =>
      cases hst
      exact hl.records.cleanStep
    | cleanDequeueLog =>
      cases hst
      exact hl.records
  · -- a dequeue decides to complete the enqueue only when it finds the pair pending
    have hstarted : φ.startedAfter base (pid, qid) ≠ none := by
      rcases mem_threads_step hst ht with ht | ⟨t, -, -, ht⟩ | ⟨_, _, _, -, ht⟩ | ⟨_, _, -, ht⟩
      · exact hl.cancelling pid qid ht
      · obtain ⟨-, e, he, hpend⟩ := (hs (pid, qid)).pending (isPending_of_mem_runThread ht).2
        rw [startedAfter_of_some he, if_pos]
        · simp
        · cases hstage : e.stage <;> rw [hstage] at hpend <;> first | rfl | cases hpend
      · cases ht
      · cases hsm : s.enableSmartAsync <;> simp [hsm] at ht
    exact started_next hstarted hnone

/-- Before the first call the log is empty. -/
theorem of_empty (hs : s.Empty) :
    EnqueueRecords (fun _ => none) (fun _ => False) s (fun _ => none) fun _ => False := by
  refine ⟨?_, fun pid qid ht => ?_⟩
  · rw [hs.aologger]
    exact AsyncLog.inv_empty.congr (fun _ => rfl) (fun _ => by simp [Entries.completedAfter, Entries.completed])
  · rw [hs.threads] at ht
    cases ht

end EnqueueRecords

end BdbMsgStore

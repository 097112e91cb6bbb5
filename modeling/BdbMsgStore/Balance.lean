import BdbMsgStore.CyclicLog
import BdbMsgStore.Quiescence

/-!
# Starts and completions

The run of a provider is observed here through the records it appends to its logs, the cleaner's own apart
(`loggingStep`).  An operation of a pair is open in a log from its start record to its completion record, and the
threads say which are: in a run whose operations of one pair do not overlap (`Separated`), at most one thread of a
pair is open in each log, and the records of the pair alternate (`LogInv`).  So a drained store has written one
completion for each start, and its logs read as empty and are emptied by two passes
(`starts_and_completions_balance`).

A dequeue that takes the message from its store task writes the completion that the store task writes too
(`cancelled_enqueue_completed_twice`).
-/

namespace BdbMsgStore

open KeyedLog LogFormat StoreProvider

/-! ### The records of a step -/

/-- A record of one of the two logs. -/
inductive LoggedRecord where
  | enqueue (r : LogRecord PendingAsyncEnqueue)
  | dequeue (r : LogRecord PendingAsyncDequeue)

/-- The record a thread appends in its next step. -/
def Thread.logs : Thread → List LoggedRecord
  | .enqueue .logStart pae => [.enqueue (.start pae.opId pae)]
  | .store .logComplete pae => [.enqueue (.complete pae.opId)]
  | .dequeue .logEnqueueComplete pid qid => [.enqueue (.complete (pid, qid))]
  | .dequeue .logStart pid qid => [.dequeue (.start (pid, qid) ⟨⟨pid, qid⟩⟩)]
  | .asyncDequeue .logComplete pid qid => [.dequeue (.complete (pid, qid))]
  | _ => []

/-- The records of the enqueue log. -/
def enqueueRecords (h : List LoggedRecord) : List (LogRecord PendingAsyncEnqueue) :=
  h.filterMap fun
    | .enqueue r => some r
    | .dequeue _ => none

/-- The records of the dequeue log. -/
def dequeueRecords (h : List LoggedRecord) : List (LogRecord PendingAsyncDequeue) :=
  h.filterMap fun
    | .enqueue _ => none
    | .dequeue r => some r

/-- Records are appended to a log. -/
def AsyncLog.appendAll {α : Type} (F : LogFormat α) (L : AsyncLog) (rs : List (LogRecord α)) : AsyncLog :=
  rs.foldl (fun L r => L.write (F.encode r)) L

/-- What a thread does to the logs is to append its record. -/
theorem aologger_runThread (s : StoreProvider) (t : Thread) :
    (s.runThread t).1.aologger =
      { enqueueLog := s.aologger.enqueueLog.appendAll enqueueFormat (enqueueRecords t.logs)
        dequeueLog := s.aologger.dequeueLog.appendAll dequeueFormat (dequeueRecords t.logs) } := by
  cases t with
  | enqueue pc pae => cases pc <;> rfl
  | store pc pae =>
    cases pc with
    | put => exact modifyJournal_aologger ..
    | _ => rfl
  | dequeue pc pid qid => cases pc <;> rfl
  | asyncDequeue pc pid qid =>
    cases pc with
    | wait w => cases w <;> rfl
    | remove => exact modifyJournal_aologger ..
    | logComplete => rfl

namespace StoreProvider

/-- The records that an action appends to the logs. -/
def Action.logs : Action → List LoggedRecord
  | .advance t => t.logs
  | _ => []

/-- A step, seen through the records it appends to the logs. -/
def loggingStep (s : StoreProvider) (a : Action) : Option (StoreProvider × List LoggedRecord) :=
  (s.step a).map fun r => (r.1, a.logs)

end StoreProvider

/-! ### Open operations -/

/-- The thread has logged the start of an enqueue, and will log the completion. -/
def Thread.enqueueOpen : Thread → Bool
  | .enqueue .willEnqueue _ => true
  | .enqueue .schedule _ => true
  | .store .check _ => true
  | .store .put _ => true
  | .store .logComplete _ => true
  | _ => false

/-- The thread has logged the start of a dequeue, and will log the completion. -/
def Thread.dequeueOpen : Thread → Bool
  | .dequeue .schedule _ _ => true
  | .asyncDequeue _ _ _ => true
  | _ => false

/-- How many threads of a pair are open. -/
def openCount (isOpen : Thread → Bool) (threads : List Thread) (k : PendingOperationId) : Nat :=
  threads.countP fun t => isOpen t && decide (t.key = k)

variable {isOpen : Thread → Bool} {threads succ : List Thread} {t : Thread}

theorem openCount_advance (ht : t ∈ threads) (hkey : ∀ t' ∈ succ, t'.key = t.key) (k : PendingOperationId) :
    openCount isOpen (threads.erase t ++ succ) k + (if t.key = k then [t].countP isOpen else 0) =
      openCount isOpen threads k + (if t.key = k then succ.countP isOpen else 0) := by
  have hcount : ∀ l : List Thread, (∀ t' ∈ l, t'.key = t.key) →
      openCount isOpen l k = if t.key = k then l.countP isOpen else 0 := by
    intro l hl
    unfold openCount
    split
    · rename_i hk
      refine List.countP_congr fun t' ht' => ?_
      simp [hl t' ht', hk]
    · rename_i hk
      rw [List.countP_eq_zero]
      intro t' ht'
      simp [hl t' ht', hk]
  have hperm : openCount isOpen threads k = openCount isOpen ([t] ++ threads.erase t) k :=
    (List.perm_cons_erase ht).countP_eq _
  have happ : ∀ l l', openCount isOpen (l ++ l') k = openCount isOpen l k + openCount isOpen l' k :=
    fun l l' => List.countP_append
  rw [hperm, happ, happ, ← hcount [t] (by simp), ← hcount succ hkey]
  omega

/-- If the thread is the only one that can hold the operation of its pair open, its successors are so after the
step. -/
theorem openCount_of_only (ht : t ∈ threads) (hkey : ∀ t' ∈ succ, t'.key = t.key)
    (honly : openCount isOpen threads t.key = [t].countP isOpen) (k : PendingOperationId) :
    openCount isOpen (threads.erase t ++ succ) k =
      if t.key = k then succ.countP isOpen else openCount isOpen threads k := by
  have hk := @openCount_advance isOpen _ _ _ ht hkey k
  by_cases htk : t.key = k
  · subst htk
    simp only [↓reduceIte] at hk ⊢
    omega
  · simp only [if_neg htk] at hk ⊢
    omega

/-- What a step does in one log: it opens an operation, closes one, or does neither. -/
inductive LogStep {α : Type} (F : LogFormat α) (isOpen : Thread → Bool) (t : Thread) (succ : List Thread) :
    List (LogRecord α) → Prop where
  | start (a : α) : F.opId a = t.key → [t].countP isOpen = 0 → succ.countP isOpen = 1 →
      LogStep F isOpen t succ [.start (F.opId a) a]
  | complete : [t].countP isOpen = 1 → succ.countP isOpen = 0 → LogStep F isOpen t succ [.complete t.key]
  | silent : [t].countP isOpen = succ.countP isOpen → LogStep F isOpen t succ []

/-- The records of a log and its open operations: of each pair at most one is open, and its records alternate. -/
structure LogInv {α : Type} (F : LogFormat α) (isOpen : Thread → Bool) (L : AsyncLog) (rs : List (LogRecord α))
    (threads : List Thread) : Prop where
  once : ∀ k, openCount isOpen threads k ≤ 1
  cyclic : L.Cyclic F fun k => openCount isOpen threads k = 1
  alternates : ∀ k, Alternates (recordsOf k rs)
  endsInStart : ∀ k, EndsInStart (recordsOf k rs) ↔ openCount isOpen threads k = 1

namespace LogInv

variable {α : Type} {F : LogFormat α} {L : AsyncLog} {rs : List (LogRecord α)} {threads' : List Thread}

theorem congr (h : LogInv F isOpen L rs threads)
    (hcount : ∀ k, openCount isOpen threads' k = openCount isOpen threads k) : LogInv F isOpen L rs threads' := by
  refine ⟨fun k => ?_, h.cyclic.congr fun k => ?_, h.alternates, fun k => ?_⟩
  · rw [hcount]
    exact h.once k
  · rw [hcount]
  · rw [hcount]
    exact h.endsInStart k

theorem cleanStep (h : LogInv F isOpen L rs threads) : LogInv F isOpen (L.cleanStep F) rs threads :=
  ⟨h.once, h.cyclic.cleanStep, h.alternates, h.endsInStart⟩

theorem empty (isOpen : Thread → Bool) : LogInv F isOpen {} [] [] :=
  ⟨fun _ => Nat.zero_le _, AsyncLog.cyclic_empty.congr fun k => by simp [openCount], fun _ => trivial,
    fun k => iff_of_false (fun he => by cases he) (by simp [openCount])⟩

/-- The last record of a pair after one more record. -/
private theorem endsInStart_recordsOf (rs : List (LogRecord α)) (r : LogRecord α) (k : PendingOperationId) :
    EndsInStart (recordsOf k (rs ++ [r])) ↔ if r.key = k then r.isStart = true else EndsInStart (recordsOf k rs) := by
  rw [recordsOf_append, recordsOf_singleton]
  split
  · exact endsInStart_append_singleton ..
  · rw [List.append_nil]

/-- A thread takes a step.  A start needs that no operation of the pair is open and that the log is ready for it. -/
theorem advance (h : LogInv F isOpen L rs threads) (ht : t ∈ threads) (hkey : ∀ t' ∈ succ, t'.key = t.key)
    {new : List (LogRecord α)} (hstep : LogStep F isOpen t succ new)
    (hready : ∀ a, .start (F.opId a) a ∈ new → openCount isOpen threads t.key = 0 ∧ L.Startable F t.key) :
    LogInv F isOpen (L.appendAll F new) (rs ++ new) (threads.erase t ++ succ) := by
  have hcount := @openCount_advance isOpen _ _ _ ht hkey
  have honce := h.once t.key
  cases hstep with
  | start a hk ht0 hs1 =>
    obtain ⟨hzero, hstart⟩ := hready a (List.mem_singleton.2 rfl)
    have hnow : ∀ k, openCount isOpen (threads.erase t ++ succ) k =
        if t.key = k then 1 else openCount isOpen threads k := by
      intro k
      rw [openCount_of_only ht hkey (hzero.trans ht0.symm), hs1]
    refine ⟨fun k => ?_, ?_, fun k => ?_, fun k => ?_⟩
    · rw [hnow]
      split
      · exact le_refl 1
      · exact h.once k
    · refine (h.cyclic.logStart (a := a) ?_ (hk ▸ hstart)).congr fun k => ?_
      · rw [hk, hzero]
        exact Nat.zero_ne_one
      · rw [hnow, hk]
        by_cases htk : t.key = k
        · simp [htk]
        · simp [htk, Ne.symm htk]
    · rw [recordsOf_append, recordsOf_singleton]
      split
      · rename_i htk
        have hkk : t.key = k := hk.symm.trans htk
        refine (h.alternates k).append_start (fun he => ?_) _ a
        rw [h.endsInStart, ← hkk, hzero] at he
        exact Nat.zero_ne_one he
      · rw [List.append_nil]
        exact h.alternates k
    · rw [endsInStart_recordsOf, hnow, show (Record.start (F.opId a) a : LogRecord α).key = t.key from hk]
      split
      · exact iff_of_true rfl rfl
      · exact h.endsInStart k
  | complete ht1 hs0 =>
    have hone : openCount isOpen threads t.key = 1 := by
      have hk := hcount t.key
      rw [ht1, hs0] at hk
      simp only [↓reduceIte] at hk
      omega
    have hnow : ∀ k, openCount isOpen (threads.erase t ++ succ) k =
        if t.key = k then 0 else openCount isOpen threads k := by
      intro k
      rw [openCount_of_only ht hkey (hone.trans ht1.symm), hs0]
    refine ⟨fun k => ?_, ?_, fun k => ?_, fun k => ?_⟩
    · rw [hnow]
      split
      · exact Nat.zero_le 1
      · exact h.once k
    · refine (h.cyclic.logComplete hone).congr fun k => ?_
      rw [hnow]
      by_cases htk : t.key = k
      · simp [htk]
      · simp [htk, Ne.symm htk]
    · rw [recordsOf_append, recordsOf_singleton]
      split
      · rename_i htk
        have hkk : t.key = k := htk
        exact (h.alternates k).append_complete ((h.endsInStart k).2 (hkk ▸ hone)) _
      · rw [List.append_nil]
        exact h.alternates k
    · rw [endsInStart_recordsOf, hnow]
      show (if t.key = k then _ else _) ↔ _
      split
      · exact iff_of_false Bool.false_ne_true Nat.zero_ne_one
      · exact h.endsInStart k
  | silent heq =>
    rw [List.append_nil]
    refine h.congr fun k => ?_
    have hk := hcount k
    rw [heq] at hk
    split at hk <;> omega

end LogInv

/-! ### Every step of the run -/

namespace StoreProvider

/-- Operations of one pair do not overlap in a log, no pair comes back while the cleaner still carries something of
it, and no dequeue takes a message from its store task. -/
def Separated (s : StoreProvider) : Action → Prop
  | .advance (.enqueue .logStart pae) =>
    openCount Thread.enqueueOpen s.threads pae.opId = 0 ∧ s.aologger.enqueueLog.Startable enqueueFormat pae.opId
  | .advance (.dequeue .logStart pid qid) =>
    openCount Thread.dequeueOpen s.threads (pid, qid) = 0 ∧ s.aologger.dequeueLog.Startable dequeueFormat (pid, qid)
  | .advance (.dequeue .check pid qid) => s.tracker.isPending pid qid = false
  | _ => True

instance (s : StoreProvider) (a : Action) : Decidable (s.Separated a) := by
  unfold Separated
  split <;> infer_instance

/-- No dequeue completes the enqueue of its pair, and no `async_dequeue` task gives up. -/
structure Steady (s : StoreProvider) : Prop where
  stopped : s.tracker.stopped = false
  completing : ∀ pid qid, .dequeue .logEnqueueComplete pid qid ∉ s.threads
  leaving : ∀ pid qid, .asyncDequeue (.wait (.returned (-2))) pid qid ∉ s.threads

end StoreProvider

theorem enqueueLog_step {s : StoreProvider} (hcancel : ∀ pid qid, t ≠ .dequeue .logEnqueueComplete pid qid) :
    LogStep enqueueFormat Thread.enqueueOpen t (s.runThread t).2.1 (enqueueRecords t.logs) := by
  cases t with
  | enqueue pc pae =>
    cases pc with
    | logStart =>
      refine .start pae rfl rfl ?_
      cases hs : s.enableSmartAsync <;> simp [runThread, hs, Thread.enqueueOpen]
    | willEnqueue => exact .silent rfl
    | schedule => exact .silent (by cases hs : s.enableSmartAsync <;> simp [runThread, hs, Thread.enqueueOpen])
  | store pc pae =>
    cases pc with
    | check =>
      refine .silent ?_
      simp only [runThread]
      split <;> rfl
    | put => exact .silent rfl
    | logComplete => exact .complete rfl rfl
    | addPidDup =>
      refine .silent ?_
      simp only [runThread]
      split <;> rfl
    | addPidMain => exact .silent rfl
  | dequeue pc pid qid =>
    cases pc with
    | logEnqueueComplete => exact absurd rfl (hcancel pid qid)
    | check =>
      refine .silent ?_
      simp only [runThread]
      split <;> rfl
    | _ => exact .silent rfl
  | asyncDequeue pc pid qid =>
    cases pc with
    | wait w =>
      cases w with
      | returned r =>
        refine .silent ?_
        simp only [runThread]
        split
        · rfl
        · split <;> rfl
      | _ => exact .silent rfl
    | _ => exact .silent rfl

theorem dequeueLog_step {s : StoreProvider} (hleave : ∀ pid qid, t ≠ .asyncDequeue (.wait (.returned (-2))) pid qid) :
    LogStep dequeueFormat Thread.dequeueOpen t (s.runThread t).2.1 (dequeueRecords t.logs) := by
  cases t with
  | enqueue pc pae => cases pc <;> exact .silent rfl
  | store pc pae =>
    cases pc with
    | addPidDup =>
      refine .silent ?_
      simp only [runThread]
      split <;> rfl
    | _ => exact .silent rfl
  | dequeue pc pid qid =>
    cases pc with
    | check =>
      refine .silent ?_
      simp only [runThread]
      split <;> rfl
    | logStart => exact .start (⟨⟨pid, qid⟩⟩ : PendingAsyncDequeue) rfl rfl rfl
    | _ => exact .silent rfl
  | asyncDequeue pc pid qid =>
    cases pc with
    | wait w =>
      cases w with
      | returned r =>
        refine .silent ?_
        simp only [runThread]
        split
        · rfl
        · split
          · rename_i hr
            subst hr
            exact absurd rfl (hleave pid qid)
          · rfl
      | _ => exact .silent rfl
    | remove => exact .silent rfl
    | logComplete => exact .complete rfl rfl

namespace StoreProvider

variable {s s' : StoreProvider} {a : Action} {ev : List Event}

/-- The condition on a step that logs the start of an enqueue. -/
private theorem Separated.enqueue_ready (hsep : s.Separated (.advance t)) (pae : PendingAsyncEnqueue)
    (hlogs : .start (enqueueFormat.opId pae) pae ∈ enqueueRecords t.logs) :
    openCount Thread.enqueueOpen s.threads t.key = 0 ∧ s.aologger.enqueueLog.Startable enqueueFormat t.key := by
  cases t with
  | enqueue pc pae' =>
    cases pc with
    | logStart => exact hsep
    | _ => cases hlogs
  | store pc pae' => cases pc <;> simp [Thread.logs, enqueueRecords] at hlogs
  | dequeue pc pid qid => cases pc <;> simp [Thread.logs, enqueueRecords] at hlogs
  | asyncDequeue pc pid qid => cases pc <;> cases hlogs

@[inherit_doc Separated.enqueue_ready]
private theorem Separated.dequeue_ready (hsep : s.Separated (.advance t)) (pad : PendingAsyncDequeue)
    (hlogs : .start (dequeueFormat.opId pad) pad ∈ dequeueRecords t.logs) :
    openCount Thread.dequeueOpen s.threads t.key = 0 ∧ s.aologger.dequeueLog.Startable dequeueFormat t.key := by
  cases t with
  | enqueue pc pae => cases pc <;> cases hlogs
  | store pc pae => cases pc <;> cases hlogs
  | dequeue pc pid qid =>
    cases pc with
    | logStart => exact hsep
    | _ => cases hlogs
  | asyncDequeue pc pid qid => cases pc <;> simp [Thread.logs, dequeueRecords] at hlogs

/-- A task gives up only when the store is being stopped. -/
private theorem not_leaving_of_mem_runThread (hstop : s.tracker.stopped = false) {pid qid : UInt64} :
    .asyncDequeue (.wait (.returned (-2))) pid qid ∉ (s.runThread t).2.1 := by
  intro h
  cases t with
  | enqueue pc pae => cases pc <;> simp [runThread] at h
  | store pc pae =>
    cases pc with
    | addPidDup =>
      simp only [runThread] at h
      split at h <;> simp at h
    | _ => simp [runThread] at h
  | dequeue pc pid' qid' => cases pc <;> simp [runThread] at h
  | asyncDequeue pc pid' qid' =>
    cases pc with
    | wait w =>
      cases w with
      | returned r =>
        simp only [runThread] at h
        split at h
        · simp at h
        · split at h <;> simp at h
      | dupTest n =>
        simp only [runThread, PidTracker.waitForPid, List.mem_singleton, Thread.asyncDequeue.injEq,
          AsyncDequeuePc.wait.injEq] at h
        obtain ⟨h, -⟩ := h
        split at h
        · cases h
        · split at h <;> cases h
      | mainTest n =>
        simp only [runThread, PidTracker.waitForPid, List.mem_singleton, Thread.asyncDequeue.injEq,
          AsyncDequeuePc.wait.injEq] at h
        obtain ⟨h, -⟩ := h
        split at h
        · cases h
        · rw [WaitPc.returned.injEq] at h
          omega
      | dupWait n =>
        simp only [runThread, PidTracker.waitForPid, hstop, Bool.false_eq_true, ↓reduceIte, List.mem_singleton,
          Thread.asyncDequeue.injEq, AsyncDequeuePc.wait.injEq] at h
        obtain ⟨h, -⟩ := h
        split at h <;> cases h
      | mainWait n =>
        simp only [runThread, PidTracker.waitForPid, hstop, Bool.false_eq_true, ↓reduceIte, List.mem_singleton,
          Thread.asyncDequeue.injEq, AsyncDequeuePc.wait.injEq] at h
        obtain ⟨h, -⟩ := h
        split at h <;> cases h
    | remove => simp [runThread] at h
    | logComplete => simp [runThread] at h

theorem Steady.step (h : s.Steady) (hsep : s.Separated a) (hst : s.step a = some (s', ev)) : s'.Steady := by
  refine ⟨(step_stopped hst).trans h.stopped, fun pid qid hmem => ?_, fun pid qid hmem => ?_⟩
  · rcases mem_threads_step hst hmem with hold | ⟨t, -, rfl, hnew⟩ | ⟨messageId, q, m, -, hcall⟩ | ⟨p, q, -, hcall⟩
    · exact h.completing pid qid hold
    · obtain ⟨rfl, hpend⟩ := isPending_of_mem_runThread hnew
      rw [show s.tracker.isPending pid qid = false from hsep] at hpend
      cases hpend
    · cases hcall
    · cases hsm : s.enableSmartAsync <;> simp [hsm] at hcall
  · rcases mem_threads_step hst hmem with hold | ⟨t, -, rfl, hnew⟩ | ⟨messageId, q, m, -, hcall⟩ | ⟨p, q, -, hcall⟩
    · exact h.leaving pid qid hold
    · exact not_leaving_of_mem_runThread h.stopped hnew
    · cases hcall
    · cases hcall

/-- Both logs, with the records of the run so far. -/
structure Balanced (h : List LoggedRecord) (s : StoreProvider) : Prop where
  steady : s.Steady
  enqueueLog : LogInv enqueueFormat Thread.enqueueOpen s.aologger.enqueueLog (enqueueRecords h) s.threads
  dequeueLog : LogInv dequeueFormat Thread.dequeueOpen s.aologger.dequeueLog (dequeueRecords h) s.threads

/-- A thread that has not logged a start is not open. -/
theorem openCount_call {isOpen : Thread → Bool} (ht : isOpen t = false) (k : PendingOperationId) :
    openCount isOpen (threads ++ [t]) k = openCount isOpen threads k := by
  unfold openCount
  rw [List.countP_append, List.countP_singleton, ht]
  rfl

theorem Balanced.step {h : List LoggedRecord} {new : List LoggedRecord} (hb : Balanced h s) (hsep : s.Separated a)
    (hst : s.loggingStep a = some (s', new)) : Balanced (h ++ new) s' := by
  obtain ⟨⟨s₁, ev⟩, hstep, heq⟩ := Option.map_eq_some_iff.1 hst
  cases heq
  have hsteady := hb.steady.step hsep hstep
  have henq : enqueueRecords (h ++ a.logs) = enqueueRecords h ++ enqueueRecords a.logs := List.filterMap_append
  have hdeq : dequeueRecords (h ++ a.logs) = dequeueRecords h ++ dequeueRecords a.logs := List.filterMap_append
  refine ⟨hsteady, ?_, ?_⟩
  · rw [henq]
    cases a with
    | enqueue messageId qid m =>
      obtain ⟨-, -, rfl, -⟩ := step_enqueue hstep
      exact (List.append_nil _).symm ▸ hb.enqueueLog.congr (openCount_call rfl)
    | dequeue pid qid =>
      obtain ⟨rfl, -⟩ := step_dequeue hstep
      refine (List.append_nil _).symm ▸ hb.enqueueLog.congr (openCount_call ?_)
      cases s.enableSmartAsync <;> rfl
    | advance t =>
      obtain ⟨ht, rfl, -⟩ := step_advance hstep
      rw [show (_ : StoreProvider).aologger = _ from aologger_runThread s t]
      refine hb.enqueueLog.advance ht (fun t' => key_of_mem_runThread) (enqueueLog_step ?_) hsep.enqueue_ready
      rintro pid qid rfl
      exact hb.steady.completing pid qid ht
    | cleanEnqueueLog =>
      cases hstep
      exact (List.append_nil _).symm ▸ hb.enqueueLog.cleanStep
    | cleanDequeueLog =>
      cases hstep
      exact (List.append_nil _).symm ▸ hb.enqueueLog
  · rw [hdeq]
    cases a with
    | enqueue messageId qid m =>
      obtain ⟨-, -, rfl, -⟩ := step_enqueue hstep
      exact (List.append_nil _).symm ▸ hb.dequeueLog.congr (openCount_call rfl)
    | dequeue pid qid =>
      obtain ⟨rfl, -⟩ := step_dequeue hstep
      refine (List.append_nil _).symm ▸ hb.dequeueLog.congr (openCount_call ?_)
      cases s.enableSmartAsync <;> rfl
    | advance t =>
      obtain ⟨ht, rfl, -⟩ := step_advance hstep
      rw [show (_ : StoreProvider).aologger = _ from aologger_runThread s t]
      refine hb.dequeueLog.advance ht (fun t' => key_of_mem_runThread) (dequeueLog_step ?_) hsep.dequeue_ready
      rintro pid qid rfl
      exact hb.steady.leaving pid qid ht
    | cleanEnqueueLog =>
      cases hstep
      exact (List.append_nil _).symm ▸ hb.dequeueLog
    | cleanDequeueLog =>
      cases hstep
      exact (List.append_nil _).symm ▸ hb.dequeueLog.cleanStep

theorem Empty.balanced (hs : s.Empty) : Balanced [] s := by
  refine ⟨⟨?_, fun pid qid => ?_, fun pid qid => ?_⟩, ?_, ?_⟩
  · rw [hs.tracker]
  · rw [hs.threads]
    exact List.not_mem_nil
  · rw [hs.threads]
    exact List.not_mem_nil
  · rw [hs.aologger, hs.threads]
    exact LogInv.empty _
  · rw [hs.aologger, hs.threads]
    exact LogInv.empty _

end StoreProvider

/-- Reading both files of the log finds neither a pending operation nor a lost completion, and two passes of the
cleaner leave nothing in them. -/
structure AsyncLog.Settled {α : Type} (F : LogFormat α) (L : AsyncLog) : Prop where
  pending : ∀ k : PendingOperationId, TwoLevel.find? (L.replayFiles F).pending k.2 k.1 = none
  lost : ∀ k : PendingOperationId, TwoLevel.find? (L.replayFiles F).lost k.2 k.1 = none
  emptied : ∀ i, ((L.cleanPass F).cleanPass F).file i = []

/-- No thread is left: every start has met its completion. -/
private theorem LogInv.paired {α : Type} {F : LogFormat α} {L : AsyncLog} {rs : List (LogRecord α)}
    (h : LogInv F isOpen L rs []) (k : PendingOperationId) : Paired (recordsOf k rs) :=
  (h.alternates k).paired fun he => Nat.zero_ne_one ((h.endsInStart k).1 he)

private theorem LogInv.settled {α : Type} {F : LogFormat α} {L : AsyncLog} {rs : List (LogRecord α)}
    (h : LogInv F isOpen L rs []) (hsleep : L.cleaner = .sleeping) : L.Settled F := by
  have hidle : L.Cyclic F fun _ => False := h.cyclic.congr fun _ => iff_of_false id Nat.zero_ne_one
  have hstatus := hidle.replayFiles_idle hsleep
  refine ⟨fun k => ?_, fun k => ?_, hidle.file_cleanPass hsleep⟩
  · rw [← Extracted.pending?_status, hstatus k]
    rfl
  · have hk := hstatus k
    unfold Extracted.status at hk
    split at hk
    · cases hk
    · cases hk
    · assumption

/-- In every run from an empty store whose operations of one pair do not overlap and whose dequeues take no message
from its store task, a drained store has followed each start record by exactly one completion record of its pair, in
both logs.  A log whose cleaner is between two passes then reads as empty, and two passes empty its files. -/
theorem starts_and_completions_balance {s₀ s : StoreProvider} {h : List LoggedRecord} (hs₀ : s₀.Empty)
    (hrun : Run StoreProvider.loggingStep (fun _ s a => s.Separated a) s₀ h s) (hdrained : s.Drained)
    (hcall : ∀ pid qid, ¬ s.Calling pid qid) :
    (∀ k, Paired (recordsOf k (enqueueRecords h)) ∧ Paired (recordsOf k (dequeueRecords h))) ∧
    (s.aologger.enqueueLog.cleaner = .sleeping → s.aologger.enqueueLog.Settled enqueueFormat) ∧
    (s.aologger.dequeueLog.cleaner = .sleeping → s.aologger.dequeueLog.Settled dequeueFormat) := by
  have hb : Balanced h s := by
    refine hrun.invariant (I := Balanced) hs₀.balanced ?_
    exact fun _ _ _ _ _ hb hsep hst => hb.step hsep hst
  have hthreads : s.threads = [] := by
    rw [List.eq_nil_iff_forall_not_mem]
    exact fun t ht => hcall t.key.1 t.key.2 ⟨t, ht, hdrained t ht, rfl⟩
  have henq := hb.enqueueLog
  have hdeq := hb.dequeueLog
  rw [hthreads] at henq hdeq
  exact ⟨fun k => ⟨henq.paired k, hdeq.paired k⟩, henq.settled, hdeq.settled⟩

/-- The call of `enqueue` in the smart mode, on message 1 and queue 1. -/
private def smartCall (messageId : UInt64) : List Action :=
  .enqueue messageId 1 smallMessage ::
    [.logStart, .willEnqueue, .schedule].map fun pc => .advance (.enqueue pc (smallMessage.pending 1 1))

private def storeSteps (pcs : List StorePc) : List Action :=
  pcs.map fun pc => .advance (.store pc (smallMessage.pending 1 1))

/-- A message is enqueued, stored and dequeued, and comes back to its queue; the cleaner of the enqueue log makes a
pass in between. -/
private def comesBack : List Action :=
  smartCall 0 ++ storeSteps [.check, .put, .logComplete, .addPidDup, .addPidMain] ++ [.dequeue 1 1] ++
    ([.check, .logStart, .schedule].map fun pc => .advance (.dequeue pc 1 1)) ++ dequeueTask 1 1 ++
    List.replicate 3 .cleanEnqueueLog ++ smartCall 1 ++ storeSteps [.check, .put, .logComplete, .addPidDup]

theorem starts_and_completions_balance_comesBack :
    let r := Run.exec StoreProvider.loggingStep [] (singleQueue true) comesBack
    Paired (recordsOf (1, 1) (enqueueRecords r.1)) ∧ (recordsOf (1, 1) (enqueueRecords r.1)).length = 4 ∧
      r.2.aologger.enqueueLog.Settled enqueueFormat := by
  have hallowed : Run.Allowed StoreProvider.loggingStep (fun _ s a => s.Separated a) []
      (singleQueue true) comesBack := by
    decide +kernel
  have hrun := Run.exec_of_allowed Run.nil hallowed
  have hthreads : (Run.exec StoreProvider.loggingStep [] (singleQueue true) comesBack).2.threads = [] := by
    decide +kernel
  obtain ⟨hpaired, hsettled, -⟩ := starts_and_completions_balance (empty_singleQueue true) hrun
    (drained_of_threads hthreads) (not_calling_of_threads hthreads)
  exact ⟨(hpaired (1, 1)).1, by decide +kernel, hsettled (by decide +kernel)⟩

/-- A dequeue takes the message from its store task. -/
private def takenFromStore : List Action :=
  smartCall 0 ++
    [.dequeue 1 1, .advance (.dequeue .check 1 1), .advance (.dequeue .logEnqueueComplete 1 1)] ++
    storeSteps [.check, .logComplete, .addPidDup, .addPidMain]

/-- The dequeue that takes the message from its store task logs the completion of the enqueue, and the store task
logs it again.  The second completion is lost, and the passes of the cleaner carry it from file to file. -/
theorem cancelled_enqueue_completed_twice :
    ∃ h s, Run StoreProvider.loggingStep (fun _ _ _ => True) (singleQueue true) h s ∧ s.threads = [] ∧
      ¬ Paired (recordsOf (1, 1) (enqueueRecords h)) ∧
      TwoLevel.find? (s.aologger.enqueueLog.replayFiles enqueueFormat).lost 1 1 ≠ none ∧
      ((s.aologger.enqueueLog.cleanPass enqueueFormat).cleanPass enqueueFormat).file 0 ≠ [] := by
  have hallowed : Run.Allowed StoreProvider.loggingStep (fun _ _ _ => True) [] (singleQueue true) takenFromStore := by
    decide +kernel
  refine ⟨_, _, Run.exec_of_allowed Run.nil hallowed, ?_, ?_, ?_, ?_⟩
  · decide +kernel
  · exact id
  · decide +kernel
  · decide +kernel

end BdbMsgStore

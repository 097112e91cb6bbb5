import BdbMsgStore.LogCleaning
import BdbMsgStore.Lib.KeyWords

/-!
# The order in which recovery reads the files

A rotation makes either file the older one, and `recoverAsync…` reads file 0 before file 1 in any case.  For keys that
go through cycles of starts and completions the answer does not depend on it, with one exception: a key that was
completed in the older file and is started in the newer one is taken for completed when the newer file is read first.
-/

namespace BdbMsgStore

open KeyedLog

namespace AsyncLog

open LogFormat

variable {α : Type}

/-- The log holds a chronological sequence of records in which the records of every key alternate.  It is split into
an older part, in the file of index `i`, and a newer part, in the other file. -/
structure Chronicle (F : LogFormat α) (L : AsyncLog) (older newer : List (LogRecord α)) (i : Fin 2) : Prop where
  keyed : ∀ r ∈ older ++ newer, F.Keyed r
  alternates : ∀ k, Alternates (recordsOf k (older ++ newer))
  older_file : L.file i = F.encodeAll older
  newer_file : L.file (i + 1) = F.encodeAll newer

/-- Exactly the keys whose last record is a start are returned. -/
def Chronological (pending : PendingSet α) (rs : List (LogRecord α)) : Prop :=
  ∀ k : PendingOperationId, (TwoLevel.find? pending k.2 k.1).isSome = true ↔ EndsInStart (recordsOf k rs)

/-- A key is completed in the older part and started again in the newer one. -/
def Reopened (older newer : List (LogRecord α)) : Prop :=
  ∃ k, EndsInComplete (recordsOf k older) ∧ EndsInStart (recordsOf k newer)

theorem Chronicle.chronological_iff {F : LogFormat α} {L : AsyncLog} {older newer : List (LogRecord α)} {i : Fin 2}
    (h : L.Chronicle F older newer i) :
    Chronological (L.recoverAsync F).1 (older ++ newer) ↔ i = 0 ∨ ¬ Reopened older newer := by
  have hold : F.records (L.file i) = older := by
    rw [h.older_file]
    exact F.records_encodeAll fun r hr => h.keyed r (List.mem_append_left _ hr)
  have hnew : F.records (L.file (i + 1)) = newer := by
    rw [h.newer_file]
    exact F.records_encodeAll fun r hr => h.keyed r (List.mem_append_right _ hr)
  have halt : ∀ k, Alternates (recordsOf k older ++ recordsOf k newer) := fun k => by
    rw [← recordsOf_append]
    exact h.alternates k
  unfold Chronological
  simp only [AsyncLog.find?_recoverAsync, replayKey, recordsOf_append]
  have hi : i = 0 ∨ i = 1 := by omega
  rcases hi with rfl | rfl
  · -- the older file is read first
    rw [hold, show F.records (L.file 1) = newer from hnew]
    refine ⟨fun _ => Or.inl rfl, fun _ k => isSome_replay_of_alternates (halt k)⟩
  · rw [hold, show F.records (L.file 0) = newer from hnew]
    constructor
    · intro hall
      refine Or.inr fun ⟨k, hk⟩ => ?_
      have hends : EndsInStart (recordsOf k older ++ recordsOf k newer) := endsInStart_append.2 (Or.inl hk.2)
      exact ((replay_swap_of_alternates (halt k)).1 ((hall k).2 hends)).2 hk
    · rintro (h0 | hno) k
      · exact absurd h0 (by decide)
      · rw [replay_swap_of_alternates (halt k)]
        exact and_iff_left fun hk => hno ⟨k, hk⟩

end AsyncLog

namespace AsyncOperationLogger

/-- Both logs return exactly the keys whose last record is a start, if the older file is file 0 or no key was
completed in the older file and started again in the newer one, and only then. -/
theorem recovery_chronological (lg : AsyncOperationLogger) :
    (∀ older newer i, lg.enqueueLog.Chronicle enqueueFormat older newer i →
      (AsyncLog.Chronological lg.recoverAsyncEnqueue.1 (older ++ newer) ↔
        i = 0 ∨ ¬ AsyncLog.Reopened older newer)) ∧
    (∀ older newer i, lg.dequeueLog.Chronicle dequeueFormat older newer i →
      (AsyncLog.Chronological lg.recoverAsyncDequeue.1 (older ++ newer) ↔
        i = 0 ∨ ¬ AsyncLog.Reopened older newer)) :=
  ⟨fun _ _ _ h => h.chronological_iff, fun _ _ _ h => h.chronological_iff⟩

/-- The records of one dequeue of message 1 from queue 1, and the start of the next. -/
def firstCycle : List (LogFormat.LogRecord PendingAsyncDequeue) := [.start (1, 1) ⟨⟨1, 1⟩⟩, .complete (1, 1)]

def secondStart : List (LogFormat.LogRecord PendingAsyncDequeue) := [.start (1, 1) ⟨⟨1, 1⟩⟩]

/-- The first cycle stands in file 1, the second start in file 0. -/
private def reopenedLog : AsyncOperationLogger :=
  { dequeueLog := { file := fun i => if i = 1 then dequeueFormat.encodeAll firstCycle
                                     else dequeueFormat.encodeAll secondStart } }

private theorem chronicle_reopenedLog : reopenedLog.dequeueLog.Chronicle dequeueFormat firstCycle secondStart 1 where
  keyed := by simp [firstCycle, secondStart, LogFormat.Keyed, dequeueFormat, LogFormat.opId,
    PendingAsyncOperation.opId]
  alternates := fun k => by
    by_cases hk : (1, 1) = k
    · subst hk
      simp [firstCycle, secondStart, recordsOf, Record.key, Alternates, AlternatesFrom, Record.isStart]
    · simp [firstCycle, secondStart, recordsOf, Record.key, hk, Alternates, AlternatesFrom]
  older_file := rfl
  newer_file := rfl

/-- With the whole of the first cycle in file 0 and the second start in file 1 the dequeue is found. -/
theorem recovery_chronological_reopened :
    AsyncLog.Chronological
      ({ dequeueLog := { file := fun i => if i = 0 then dequeueFormat.encodeAll firstCycle
                                          else dequeueFormat.encodeAll secondStart } } :
        AsyncOperationLogger).recoverAsyncDequeue.1 (firstCycle ++ secondStart) :=
  ((recovery_chronological _).2 firstCycle secondStart 0
    ⟨chronicle_reopenedLog.keyed, chronicle_reopenedLog.alternates, rfl, rfl⟩).2 (Or.inl rfl)

/-- A dequeue that was completed once and is started again in the newer file, file 0, is not returned. -/
theorem reopened_not_recovered :
    ¬ ((∀ (lg : AsyncOperationLogger) older newer i, lg.enqueueLog.Chronicle enqueueFormat older newer i →
        AsyncLog.Chronological lg.recoverAsyncEnqueue.1 (older ++ newer)) ∧
      (∀ (lg : AsyncOperationLogger) older newer i, lg.dequeueLog.Chronicle dequeueFormat older newer i →
        AsyncLog.Chronological lg.recoverAsyncDequeue.1 (older ++ newer))) := by
  rintro ⟨-, hcurrent⟩
  have hfound := (hcurrent reopenedLog firstCycle secondStart 1 chronicle_reopenedLog (1, 1)).2 (by decide)
  exact absurd hfound (by decide)

end AsyncOperationLogger

end BdbMsgStore

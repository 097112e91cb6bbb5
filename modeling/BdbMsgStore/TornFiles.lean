import BdbMsgStore.LogCleaning

/-!
# Torn files

A file of a log that was written by calls of the logger and cut at any point: `extractPending…FromFile` gives
exactly the records that lie wholly before the cut (`torn_file_replayed`), whatever bytes the payloads hold, and
throws nothing.  The calls are those that return: a batch operation that overruns its buffer has written nothing.
-/

namespace BdbMsgStore

namespace LogAction

variable {α : Type} (F : LogFormat α)

/-- The records of a call. -/
def appended : LogAction α → List (LogFormat.LogRecord α)
  | .start a => [.start (F.opId a) a]
  | .complete k => [.complete k]
  | .massComplete _ pidList => pidList.map .complete
  | .clean => []

/-- The action is a call of the logger. -/
def IsCall : LogAction α → Prop
  | .clean => False
  | _ => True

variable {F}

/-- A call writes its records to the open file, if it returns. -/
theorem exec_eq_write (L : AsyncLog) {x : LogAction α} (hx : x.IsCall) (hw : x.Written) :
    exec F L x = L.write (F.encodeAll (appended F x)) := by
  cases x with
  | start a =>
    show L.write (F.startRecord a) = _
    simp [appended, LogFormat.encodeAll, LogFormat.encode]
  | complete k =>
    show L.write (F.completeRecord k) = _
    simp [appended, LogFormat.encodeAll, LogFormat.encode]
  | massComplete malloc pidList =>
    show (AsyncLog.logMassComplete F malloc L pidList).getD L = _
    rw [AsyncLog.logMassComplete_of_written hw, Option.getD_some, AsyncLog.foldl_logComplete]
    unfold appended LogFormat.encodeAll
    rw [List.flatMap_map]
    rfl
  | clean => exact hx.elim

theorem file_foldl {acts : List (LogAction α)} (hcall : ∀ x ∈ acts, x.IsCall) (hw : ∀ x ∈ acts, x.Written)
    (L : AsyncLog) : (acts.foldl (exec F) L).file L.index = L.file L.index ++
      F.encodeAll (acts.flatMap (appended F)) := by
  induction acts generalizing L with
  | nil => exact (List.append_nil _).symm
  | cons x acts ih =>
    have hx := exec_eq_write (F := F) L (hcall x (List.mem_cons_self ..)) (hw x (List.mem_cons_self ..))
    have ih' := ih (fun y hy => hcall y (List.mem_cons_of_mem _ hy)) (fun y hy => hw y (List.mem_cons_of_mem _ hy))
      (L.write (F.encodeAll (appended F x)))
    replace ih' : (acts.foldl (exec F) (L.write (F.encodeAll (appended F x)))).file L.index = _ := ih'
    rw [List.foldl_cons, hx, ih', List.flatMap_cons, F.encodeAll_append, ← List.append_assoc]
    congr 1
    exact Function.update_self ..

/-- The file that the calls have written, cut after `n` bytes, is read as the records that lie wholly within them,
however many turns the loop is given beyond the number of the bytes. -/
def Replayed (F : LogFormat α) (file : Bytes) (acts : List (LogAction α)) : Prop :=
  ∀ (n fuel : Nat) (x : LogFormat.Extracted α), (file.take n).length ≤ fuel →
    F.extractLoop fuel (file.take n) x = (F.wholeWithin n (acts.flatMap (appended F))).foldl F.readRecord x

private theorem replayed_of_written (hF : F.PrefixFree) {acts : List (LogAction α)} (hcall : ∀ x ∈ acts, x.IsCall)
    (hw : ∀ x ∈ acts, x.Written) : Replayed F ((acts.foldl (exec F) {}).file 0) acts := by
  intro n fuel x hfuel
  have hfile : (acts.foldl (exec F) {}).file 0 = F.encodeAll (acts.flatMap (appended F)) :=
    file_foldl hcall hw {}
  rw [hfile] at hfuel ⊢
  exact LogFormat.extractLoop_take hF hfuel x

end LogAction

namespace AsyncOperationLogger

/-- A file of either log, written by calls that return and cut at any point, is read as the records that lie wholly
before the cut. -/
theorem torn_file_replayed (enqueues : List (LogAction PendingAsyncEnqueue))
    (dequeues : List (LogAction PendingAsyncDequeue)) :
    ((∀ x ∈ enqueues, x.IsCall) → (∀ x ∈ enqueues, x.Written) →
      LogAction.Replayed enqueueFormat ((enqueues.foldl execEnqueue {}).enqueueLog.file 0) enqueues) ∧
    ((∀ x ∈ dequeues, x.IsCall) → (∀ x ∈ dequeues, x.Written) →
      LogAction.Replayed dequeueFormat ((dequeues.foldl execDequeue {}).dequeueLog.file 0) dequeues) := by
  refine ⟨fun hcall hw => ?_, fun hcall hw => ?_⟩
  · rw [enqueueLog_foldl]
    exact LogAction.replayed_of_written enqueueFormat_prefixFree hcall hw
  · rw [dequeueLog_foldl]
    exact LogAction.replayed_of_written dequeueFormat_prefixFree hcall hw

/-- An enqueue whose payload holds opcodes, its completion in a batch, and the same for a dequeue. -/
theorem torn_file_replayed_opcodes :
    LogAction.Replayed enqueueFormat
      (([.start ⟨⟨1, 1⟩, [4, 5], 2, false, rfl, by decide⟩, .massComplete true [(1, 1)]].foldl
      execEnqueue {}).enqueueLog.file 0)
      [.start ⟨⟨1, 1⟩, [4, 5], 2, false, rfl, by decide⟩, .massComplete true [(1, 1)]] ∧
    LogAction.Replayed dequeueFormat (([.start ⟨⟨2, 3⟩⟩, .complete (2, 3)].foldl
      execDequeue {}).dequeueLog.file 0) [.start ⟨⟨2, 3⟩⟩, .complete (2, 3)] := by
  refine ⟨(torn_file_replayed _ []).1 ?_ ?_, (torn_file_replayed [] _).2 ?_ ?_⟩
  · simp [LogAction.IsCall]
  · simp [LogAction.Written, AsyncLog.Written, AsyncLog.HasRoom, AsyncLog.Fits]
  · simp [LogAction.IsCall]
  · simp [LogAction.Written]

end AsyncOperationLogger

end BdbMsgStore

import BdbMsgStore.LogParse
import BdbMsgStore.MassComplete

/-!
# The logs while they are written and cleaned

`AsyncLog` refines the abstract two-file log `KeyedLog.RotLog`: its files hold the records of the abstract files
(`AsyncLog.Sim`), a write appends a record, and the steps of the cleaner are `rotate`, `rewrite` and `relog`.
`AsyncLog.Inv` is what this gives about a log: the operations that were started and completed so far.  Each
operation of the logger preserves it, and outside a cleaning pass `recoverAsync…` returns exactly the operations
started and not completed (`AsyncLog.Inv.recoverAsync_find?`).

The batch operations are the exception.  They count bytes in an `int`, and with a batch of `2 ^ 32` bytes or more they
may not return.  The process then ends inside the call, before its completions are in the file
(`batch_not_recovered`).
-/

namespace BdbMsgStore

open KeyedLog

/-- In a list whose elements have different keys, the elements of a key are one or none. -/
theorem filter_key_eq {β κ : Type} [DecidableEq κ] {f : β → κ} {l : List β}
    (h : l.Pairwise fun a b => f a ≠ f b) {x : β} (hx : x ∈ l) : l.filter (fun b => decide (f b = f x)) = [x] := by
  induction l with
  | nil => cases hx
  | cons a l ih =>
    rw [List.pairwise_cons] at h
    rcases List.mem_cons.1 hx with rfl | hx
    · have hnil : l.filter (fun b => decide (f b = f x)) = [] := by
        rw [List.filter_eq_nil_iff]
        intro b hb
        simpa using (h.1 b hb).symm
      simp [hnil]
    · have hne : f a ≠ f x := h.1 x hx
      simp [hne, ih h.2 hx]

namespace AsyncLog

open LogFormat

variable {α : Type} (F : LogFormat α)

/-! ### The abstract log behind the files -/

/-- The pass of the abstract log that corresponds to the position of the cleaner. -/
def PassOf (L : AsyncLog) : Pass PendingOperationId → Prop
  | .idle => L.cleaner = .sleeping
  | .rotated => L.cleaner = .rotated (L.index + 1)
  | .relog lost => L.cleaner = .relogging lost

/-- The log refines the abstract log `R`. -/
structure Sim (L : AsyncLog) (R : RotLog PendingOperationId α) : Prop where
  holds : L.Holds F R.file
  index : L.index = R.active
  tmp : L.tmp = []
  pass : L.PassOf R.pass

/-- The operations started and completed so far, as the files of the log know them. -/
def Inv (L : AsyncLog) (started : PendingOperationId → Option α) (completed : PendingOperationId → Prop) : Prop :=
  ∃ R, L.Sim F R ∧ R.Inv started completed

variable {F}

theorem Inv.congr {L : AsyncLog} {started started' : PendingOperationId → Option α}
    {completed completed' : PendingOperationId → Prop} (h : L.Inv F started completed)
    (hs : ∀ k, started' k = started k) (hc : ∀ k, completed' k ↔ completed k) : L.Inv F started' completed' := by
  have hs' : started' = started := funext hs
  have hc' : completed' = completed := funext fun k => propext (hc k)
  rw [hs', hc']
  exact h

theorem Sim.write {L : AsyncLog} {R : RotLog PendingOperationId α} (h : L.Sim F R) {r : LogRecord α}
    (hr : F.Keyed r) : (L.write (F.encode r)).Sim F (R.append r) := by
  refine ⟨fun i => ?_, h.index, h.tmp, h.pass⟩
  have hi := h.holds i
  unfold AsyncLog.write RotLog.append
  simp only [h.index]
  by_cases hact : i = R.active
  · subst hact
    simp only [Function.update_self]
    refine ⟨?_, ?_⟩
    · rw [hi.1, encodeAll_append]
      simp [encodeAll]
    · intro r' hr'
      rcases List.mem_append.1 hr' with h' | h'
      · exact hi.2 r' h'
      · rw [List.mem_singleton.1 h']
        exact hr
  · simp only [Function.update_of_ne hact]
    exact hi

theorem inv_empty : ({} : AsyncLog).Inv F (fun _ => none) (fun _ => False) :=
  ⟨⟨fun _ => [], 0, .idle⟩, ⟨fun _ => ⟨rfl, fun _ h => by cases h⟩, rfl, rfl, rfl⟩, RotLog.inv_empty⟩

theorem Inv.logStart {L : AsyncLog} {started : PendingOperationId → Option α}
    {completed : PendingOperationId → Prop} (h : L.Inv F started completed) {a : α}
    (ha : started (F.opId a) = none) :
    (L.logStart F a).Inv F (Function.update started (F.opId a) (some a)) completed := by
  obtain ⟨R, hsim, hinv⟩ := h
  exact ⟨_, hsim.write (r := .start (F.opId a) a) rfl, hinv.start ha a⟩

theorem Inv.logComplete {L : AsyncLog} {started : PendingOperationId → Option α}
    {completed : PendingOperationId → Prop} (h : L.Inv F started completed) {k : PendingOperationId}
    (hk : started k ≠ none) : (L.logComplete F k).Inv F started (fun k' => k' = k ∨ completed k') := by
  obtain ⟨R, hsim, hinv⟩ := h
  exact ⟨_, hsim.write (r := .complete k) trivial, hinv.complete hk⟩

/-! ### The cleaner -/

/-- The records the cleaner writes for the pending operations of a map. -/
def startRecords (F : LogFormat α) (m : PendingSet α) : List (LogRecord α) :=
  (pendingList m).map fun a => .start (F.opId a) a

theorem encodeAll_startRecords (m : PendingSet α) :
    F.encodeAll (startRecords F m) = (pendingList m).flatMap F.startRecord := by
  unfold encodeAll startRecords
  rw [List.flatMap_map]
  rfl

/-- The records for a map, key by key. -/
theorem recordsOf_startRecords {m : PendingSet α}
    (hm : ∀ (k : PendingOperationId) a, TwoLevel.find? m k.2 k.1 = some a → F.opId a = k) (k : PendingOperationId) :
    recordsOf k (startRecords F m) =
      match TwoLevel.find? m k.2 k.1 with
      | some a => [.start k a]
      | none => [] := by
  have hmem : ∀ e ∈ TwoLevel.flatten m, F.opId e.2.2 = (e.2.1, e.1) := fun e he =>
    hm (e.2.1, e.1) e.2.2 (TwoLevel.mem_flatten.1 he)
  have hrec : recordsOf k (startRecords F m) =
      ((TwoLevel.flatten m).filter fun e => decide ((e.2.1, e.1) = k)).map fun e =>
        .start (F.opId e.2.2) e.2.2 := by
    unfold recordsOf startRecords pendingList TwoLevel.values
    rw [List.map_map, List.filter_map]
    congr 1
    apply List.filter_congr
    intro e he
    simp only [Function.comp, Record.key, hmem e he]
  rw [hrec]
  cases hf : TwoLevel.find? m k.2 k.1 with
  | none =>
    rw [List.map_eq_nil_iff, List.filter_eq_nil_iff]
    intro e he hek
    have hek' : (e.2.1, e.1) = k := by simpa using hek
    rw [← hek', TwoLevel.mem_flatten.1 he] at hf
    cases hf
  | some a =>
    have hin : (k.2, k.1, a) ∈ TwoLevel.flatten m := TwoLevel.mem_flatten.2 hf
    have hpair : (TwoLevel.flatten m).Pairwise fun x y => (x.2.1, x.1) ≠ (y.2.1, y.1) :=
      (TwoLevel.flatten_pairwise m).imp fun h he => h (by
        simp only [Prod.mk.injEq] at he ⊢
        exact ⟨he.2, he.1⟩)
    have := filter_key_eq (f := fun e : UInt64 × UInt64 × α => (e.2.1, e.1)) hpair hin
    simp only at this
    rw [show (fun e : UInt64 × UInt64 × α => decide ((e.2.1, e.1) = k)) =
      fun e => decide ((e.2.1, e.1) = (k.1, k.2)) from rfl, this]
    simp [hm k a hf]

/-- What the cleaner writes for a file and what it keeps to log again, whatever the file holds. -/
theorem rewrites_extract (bytes : Bytes) :
    RotLog.Rewrites (F.records bytes) (startRecords F (F.extractPendingFromFile bytes .empty).pending)
      ((pendingList (F.extractPendingFromFile bytes .empty).lost).map PendingAsyncOperation.opId) := by
  have hstatus := F.status_extract bytes
  have hwf := F.wf_extractPendingFromFile (Extracted.wf_empty F) bytes
  generalize F.extractPendingFromFile bytes .empty = x at hstatus hwf
  refine ⟨fun k => ?_, fun k => ?_⟩
  · rw [recordsOf_startRecords hwf.pending_key, ← hstatus k]
    cases hf : TwoLevel.find? x.pending k.2 k.1 with
    | none =>
      cases hst : x.status k with
      | pending a => rw [Extracted.status_eq_pending, hf] at hst; cases hst
      | idle => rfl
      | lost => rfl
    | some a => rw [Extracted.status_eq_pending.2 hf]
  · rw [← hstatus k, Extracted.status_eq_lost F hwf]
    unfold pendingList TwoLevel.values
    constructor
    · intro hk
      obtain ⟨o, ho, rfl⟩ := List.mem_map.1 hk
      obtain ⟨⟨q, p, o'⟩, hmem, rfl⟩ := List.mem_map.1 ho
      have hf := TwoLevel.mem_flatten.1 hmem
      rw [hwf.lost_key (p, q) o' hf]
      exact ⟨o', hf⟩
    · rintro ⟨o, ho⟩
      have hmem := List.mem_map_of_mem (f := fun e => e.2.2) (TwoLevel.mem_flatten.2 ho)
      rw [← hwf.lost_key k o ho]
      exact List.mem_map_of_mem hmem

/-- No lost completion is kept twice. -/
theorem nodup_lost (bytes : Bytes) :
    ((pendingList (F.extractPendingFromFile bytes .empty).lost).map PendingAsyncOperation.opId).Nodup := by
  have hwf := F.wf_extractPendingFromFile (Extracted.wf_empty F) bytes
  have hkeyed : TwoLevel.Keyed (fun o : PendingAsyncOperation => (o.queueId, o.msgId))
      (F.extractPendingFromFile bytes .empty).lost := fun q p o ho =>
    congrArg Prod.swap (hwf.lost_key (p, q) o ho)
  have hmap := hkeyed.nodup.map Prod.swap_injective
  rw [List.map_map] at hmap
  exact hmap

private theorem Sim.rewrite {L : AsyncLog} {R : RotLog PendingOperationId α} (h : L.Sim F R) :
    (L.rewrite F (L.index + 1)).Sim F (R.rewrite
      (startRecords F (F.extractPendingFromFile (F.encodeAll (R.file (R.active + 1))) .empty).pending)
      ((pendingList (F.extractPendingFromFile (F.encodeAll (R.file (R.active + 1))) .empty).lost).map
        PendingAsyncOperation.opId)) := by
  have hold := h.holds (R.active + 1)
  refine ⟨fun i => ?_, h.index, rfl, ?_⟩
  · unfold AsyncLog.rewrite RotLog.rewrite
    simp only [h.index, h.tmp, List.nil_append, hold.1]
    by_cases hi : i = R.active + 1
    · subst hi
      simp only [Function.update_self]
      refine ⟨(encodeAll_startRecords _).symm, ?_⟩
      intro r hr
      obtain ⟨a, -, rfl⟩ := List.mem_map.1 hr
      rfl
    · simp only [Function.update_of_ne hi]
      exact h.holds i
  · show CleanerPc.relogging _ = .relogging _
    rw [h.index, hold.1]

/-- The files are read without an exception. -/
theorem Sim.not_thrown {L : AsyncLog} {R : RotLog PendingOperationId α} (h : L.Sim F R) (i : Fin 2) :
    (F.extractPendingFromFile (L.file i) .empty).thrown = false := by
  rw [(h.holds i).1, F.extractPendingFromFile_encode, F.thrown_foldl]
  rfl

/-- Every step of the cleaner is a step of the abstract cleaning pass. -/
theorem Sim.cleanStep {L : AsyncLog} {R : RotLog PendingOperationId α} (h : L.Sim F R) :
    ∃ R', (L.cleanStep F).Sim F R' ∧ R.Cleans R' := by
  have hpass := h.pass
  unfold AsyncLog.cleanStep
  cases hp : R.pass with
  | idle =>
    rw [hp] at hpass
    rw [show L.cleaner = .sleeping from hpass]
    refine ⟨R.rotate, ⟨h.holds, congrArg (· + 1) h.index, h.tmp, ?_⟩, .rotate hp⟩
    show CleanerPc.rotated L.index = .rotated (L.index + 1 + 1)
    congr 1
    generalize L.index = i
    revert i
    decide
  | rotated =>
    rw [hp] at hpass
    rw [show L.cleaner = .rotated (L.index + 1) from hpass]
    have hrewrites := rewrites_extract (F := F) (F.encodeAll (R.file (R.active + 1)))
    rw [F.records_encodeAll (h.holds (R.active + 1)).2] at hrewrites
    dsimp only
    rw [if_neg (by rw [h.not_thrown]; exact Bool.false_ne_true)]
    exact ⟨_, h.rewrite, .rewrite hp hrewrites (nodup_lost _)⟩
  | relog lost =>
    rw [hp] at hpass
    rw [show L.cleaner = .relogging lost from hpass]
    cases lost with
    | nil => exact ⟨{ R with pass := .idle }, ⟨h.holds, h.index, h.tmp, rfl⟩, .done hp⟩
    | cons k lost =>
      have hw := h.write (r := .complete k) trivial
      exact ⟨{ R.append (.complete k) with pass := .relog lost }, ⟨hw.holds, hw.index, hw.tmp, rfl⟩, .relog hp⟩

/-- Every step of the cleaner preserves what the log knows. -/
theorem Inv.cleanStep {L : AsyncLog} {started : PendingOperationId → Option α}
    {completed : PendingOperationId → Prop} (h : L.Inv F started completed) :
    (L.cleanStep F).Inv F started completed := by
  obtain ⟨R, hsim, hinv⟩ := h
  obtain ⟨R', hsim', hclean⟩ := hsim.cleanStep
  exact ⟨R', hsim', hinv.clean hclean⟩

/-! ### Batches -/

/-- Operations with different keys are started one after the other. -/
theorem Inv.foldl_logStart {L : AsyncLog} {started : PendingOperationId → Option α}
    {completed : PendingOperationId → Prop} (h : L.Inv F started completed) {l : List α}
    (hnd : (l.map F.opId).Nodup) (hl : ∀ a ∈ l, started (F.opId a) = none) :
    (l.foldl (AsyncLog.logStart F) L).Inv F (fun k => (l.find? fun a => decide (F.opId a = k)).or (started k))
      completed := by
  induction l generalizing L started with
  | nil => exact h
  | cons a l ih =>
    obtain ⟨hnot, hnd⟩ := List.nodup_cons.1 hnd
    have hne : ∀ b ∈ l, F.opId b ≠ F.opId a := fun b hb he => hnot (he ▸ List.mem_map_of_mem hb)
    rw [List.foldl_cons]
    refine (ih (h.logStart (hl a (List.mem_cons_self ..))) hnd fun b hb => ?_).congr (fun k => ?_) fun _ => Iff.rfl
    · rw [Function.update_of_ne (hne b hb)]
      exact hl b (List.mem_cons_of_mem _ hb)
    · rw [List.find?_cons]
      by_cases hk : F.opId a = k
      · subst hk
        have hnone : (l.find? fun b => decide (F.opId b = F.opId a)) = none :=
          List.find?_eq_none.2 fun b hb => by simpa using hne b hb
        rw [hnone, Function.update_self]
        simp
      · rw [Function.update_of_ne (Ne.symm hk)]
        simp [hk]

theorem Inv.foldl_logComplete {L : AsyncLog} {started : PendingOperationId → Option α}
    {completed : PendingOperationId → Prop} (h : L.Inv F started completed) {ks : List PendingOperationId}
    (hks : ∀ k ∈ ks, started k ≠ none) :
    (ks.foldl (AsyncLog.logComplete F) L).Inv F started (fun k' => k' ∈ ks ∨ completed k') := by
  induction ks generalizing L completed with
  | nil => simpa using h
  | cons k ks ih =>
    have := ih (h.logComplete (hks k (List.mem_cons_self ..))) fun k' hk' => hks k' (List.mem_cons_of_mem _ hk')
    rw [List.foldl_cons]
    have heq : (fun k' => k' ∈ ks ∨ k' = k ∨ completed k') = fun k' => k' ∈ k :: ks ∨ completed k' := by
      funext k'
      rw [List.mem_cons]
      exact propext ⟨fun h => by tauto, fun h => by tauto⟩
    rw [← heq]
    exact this

/-! ### Recovery of a log -/

/-- Outside a cleaning pass `recoverAsync…` returns the operations that were started and not completed. -/
theorem Inv.recoverAsync_find? {L : AsyncLog} {started : PendingOperationId → Option α}
    {completed : PendingOperationId → Prop} (h : L.Inv F started completed) (hc : L.cleaner = .sleeping)
    (k : PendingOperationId) (a : α) :
    TwoLevel.find? (L.recoverAsync F).1 k.2 k.1 = some a ↔ started k = some a ∧ ¬ completed k := by
  obtain ⟨R, hsim, hinv⟩ := h
  have hp : R.pass = .idle := by
    have hpass := hsim.pass
    cases hp : R.pass with
    | idle => rfl
    | rotated =>
      rw [hp] at hpass
      have : L.cleaner = .rotated (L.index + 1) := hpass
      rw [hc] at this
      cases this
    | relog lost =>
      rw [hp] at hpass
      have : L.cleaner = .relogging lost := hpass
      rw [hc] at this
      cases this
  rw [AsyncLog.recoverAsync_find? hsim.holds]
  exact hinv.replay_eq_pending hp k a

end AsyncLog

/-! ### Runs of one log -/

/-- What may happen to a log: the calls of the logger, and a step of its cleaner. -/
inductive LogAction (α : Type) where
  | start (a : α)
  | complete (k : PendingOperationId)
  | massComplete (malloc : Bool) (pidList : List PendingOperationId)
  | clean

namespace LogAction

variable {α : Type} (F : LogFormat α)

/-- The log after an action.  A batch operation that does not return is where the process ends: it has not written its
buffer. -/
def exec (L : AsyncLog) : LogAction α → AsyncLog
  | .start a => L.logStart F a
  | .complete k => L.logComplete F k
  | .massComplete malloc pidList => (L.logMassComplete F malloc pidList).getD L
  | .clean => L.cleanStep F

/-- The operation that was started under a key. -/
def startedIn (acts : List (LogAction α)) (k : PendingOperationId) : Option α :=
  acts.findSome? fun
    | .start a => if F.opId a = k then some a else none
    | _ => none

def Completes (k : PendingOperationId) : LogAction α → Prop
  | .complete k' => k = k'
  | .massComplete _ pidList => k ∈ pidList
  | _ => False

def CompletedIn (acts : List (LogAction α)) (k : PendingOperationId) : Prop := ∃ x ∈ acts, Completes k x

/-- A key is started at most once, and completed only after its start. -/
def Allowed (past : List (LogAction α)) : LogAction α → Prop
  | .start a => startedIn F past (F.opId a) = none
  | .complete k => startedIn F past k ≠ none
  | .massComplete _ pidList => ∀ k ∈ pidList, startedIn F past k ≠ none
  | .clean => True

def AllowedFrom (past : List (LogAction α)) : List (LogAction α) → Prop
  | [] => True
  | x :: acts => Allowed F past x ∧ AllowedFrom (past ++ [x]) acts

/-- The action returns: a batch is written whole. -/
def Written : LogAction α → Prop
  | .massComplete malloc pidList => AsyncLog.Written malloc pidList
  | _ => True

variable {F}

private theorem startedIn_append (past : List (LogAction α)) (x : LogAction α) (k : PendingOperationId) :
    startedIn F (past ++ [x]) k = (startedIn F past k).or (startedIn F [x] k) := by
  unfold startedIn
  rw [List.findSome?_append]

private theorem completedIn_append (past : List (LogAction α)) (x : LogAction α) :
    CompletedIn (past ++ [x]) = fun k => Completes k x ∨ CompletedIn past k := by
  funext k
  unfold CompletedIn
  simp only [List.mem_append, List.mem_singleton, or_and_right, exists_or, exists_eq_left]
  exact propext or_comm

/-- One action: the log knows what it adds. -/
private theorem inv_exec {L : AsyncLog} {past : List (LogAction α)} {x : LogAction α}
    (h : L.Inv F (startedIn F past) (CompletedIn past)) (hx : Allowed F past x) (hw : Written x) :
    (exec F L x).Inv F (startedIn F (past ++ [x])) (CompletedIn (past ++ [x])) := by
  have hsame : (∀ a, x ≠ .start a) → startedIn F (past ++ [x]) = startedIn F past := by
    intro hne
    funext k
    rw [startedIn_append]
    cases x with
    | start a => exact absurd rfl (hne a)
    | _ => exact Option.or_none
  rw [completedIn_append]
  cases x with
  | start a =>
    have hst : startedIn F (past ++ [.start a]) = Function.update (startedIn F past) (F.opId a) (some a) := by
      funext k
      rw [startedIn_append]
      by_cases hk : k = F.opId a
      · subst hk
        rw [Function.update_self, show startedIn F past (F.opId a) = none from hx]
        simp [startedIn]
      · rw [Function.update_of_ne hk]
        simp [startedIn, Ne.symm hk]
    rw [hst]
    simp only [Completes, false_or]
    exact h.logStart hx
  | complete k =>
    rw [hsame (fun a => by simp)]
    exact h.logComplete hx
  | massComplete malloc pidList =>
    rw [hsame (fun a => by simp)]
    show ((AsyncLog.logMassComplete F malloc L pidList).getD L).Inv F _ _
    rw [AsyncLog.logMassComplete_of_written hw]
    exact h.foldl_logComplete hx
  | clean =>
    rw [hsame (fun a => by simp)]
    simp only [Completes, false_or]
    exact h.cleanStep

/-- A whole run: the log knows exactly what was started and what was completed. -/
theorem inv_run {L : AsyncLog} {past acts : List (LogAction α)}
    (h : L.Inv F (startedIn F past) (CompletedIn past)) (hacts : AllowedFrom F past acts)
    (hw : ∀ x ∈ acts, Written x) :
    (acts.foldl (exec F) L).Inv F (startedIn F (past ++ acts)) (CompletedIn (past ++ acts)) := by
  induction acts generalizing L past with
  | nil => simpa using h
  | cons x acts ih =>
    have := ih (inv_exec h hacts.1 (hw x (List.mem_cons_self ..))) hacts.2
      fun y hy => hw y (List.mem_cons_of_mem _ hy)
    rw [List.append_assoc] at this
    exact this

end LogAction

/-! ### Both logs over whole runs -/

namespace AsyncOperationLogger

/-- A call on the enqueue log, or a step of `cleanEnqueueLog`. -/
def execEnqueue (lg : AsyncOperationLogger) : LogAction PendingAsyncEnqueue → AsyncOperationLogger
  | .start pae => lg.logEnqueueStart pae
  | .complete k => lg.logEnqueueComplete k.1 k.2
  | .massComplete malloc pidList => (lg.logMassEnqueueComplete malloc pidList).getD lg
  | .clean => lg.cleanEnqueueLog

/-- A call on the dequeue log, or a step of `cleanDequeueLog`. -/
def execDequeue (lg : AsyncOperationLogger) : LogAction PendingAsyncDequeue → AsyncOperationLogger
  | .start pad => lg.logDequeueStart pad.msgId pad.queueId
  | .complete k => lg.logDequeueComplete k.1 k.2
  | .massComplete malloc pidList => (lg.logMassDequeueComplete malloc pidList).getD lg
  | .clean => lg.cleanDequeueLog

theorem enqueueLog_foldl (acts : List (LogAction PendingAsyncEnqueue)) (lg : AsyncOperationLogger) :
    (acts.foldl execEnqueue lg).enqueueLog = acts.foldl (LogAction.exec enqueueFormat) lg.enqueueLog := by
  induction acts generalizing lg with
  | nil => rfl
  | cons x acts ih =>
    rw [List.foldl_cons, List.foldl_cons, ih]
    congr 1
    cases x with
    | massComplete malloc pidList =>
      show ((lg.logMassEnqueueComplete malloc pidList).getD lg).enqueueLog =
        (lg.enqueueLog.logMassComplete enqueueFormat malloc pidList).getD lg.enqueueLog
      unfold logMassEnqueueComplete
      cases lg.enqueueLog.logMassComplete enqueueFormat malloc pidList <;> rfl
    | _ => rfl

theorem dequeueLog_foldl (acts : List (LogAction PendingAsyncDequeue)) (lg : AsyncOperationLogger) :
    (acts.foldl execDequeue lg).dequeueLog = acts.foldl (LogAction.exec dequeueFormat) lg.dequeueLog := by
  induction acts generalizing lg with
  | nil => rfl
  | cons x acts ih =>
    rw [List.foldl_cons, List.foldl_cons, ih]
    congr 1
    cases x with
    | massComplete malloc pidList =>
      show ((lg.logMassDequeueComplete malloc pidList).getD lg).dequeueLog =
        (lg.dequeueLog.logMassComplete dequeueFormat malloc pidList).getD lg.dequeueLog
      unfold logMassDequeueComplete
      cases lg.dequeueLog.logMassComplete dequeueFormat malloc pidList <;> rfl
    | _ => rfl

theorem recoverAsyncEnqueue_fst (lg : AsyncOperationLogger) :
    lg.recoverAsyncEnqueue.1 = (lg.enqueueLog.recoverAsync enqueueFormat).1 := rfl

theorem recoverAsyncDequeue_fst (lg : AsyncOperationLogger) :
    lg.recoverAsyncDequeue.1 = (lg.dequeueLog.recoverAsync dequeueFormat).1 := rfl

/-- After the run `acts` of the enqueue log, its recovery returns the operations started and not completed. -/
def EnqueueRunRecovered (acts : List (LogAction PendingAsyncEnqueue)) : Prop :=
  ∀ (k : PendingOperationId) (pae : PendingAsyncEnqueue),
    TwoLevel.find? (acts.foldl execEnqueue {}).recoverAsyncEnqueue.1 k.2 k.1 = some pae ↔
      LogAction.startedIn enqueueFormat acts k = some pae ∧ ¬ LogAction.CompletedIn acts k

/-- After the run `acts` of the dequeue log, its recovery returns the operations started and not completed. -/
def DequeueRunRecovered (acts : List (LogAction PendingAsyncDequeue)) : Prop :=
  ∀ (k : PendingOperationId) (pad : PendingAsyncDequeue),
    TwoLevel.find? (acts.foldl execDequeue {}).recoverAsyncDequeue.1 k.2 k.1 = some pad ↔
      LogAction.startedIn dequeueFormat acts k = some pad ∧ ¬ LogAction.CompletedIn acts k

/-- In every run whose calls return, with any number of cleaning passes in between, each of the two logs is recovered
exactly. -/
theorem recovered_of_batches_written (enqueues : List (LogAction PendingAsyncEnqueue))
    (dequeues : List (LogAction PendingAsyncDequeue)) :
    (LogAction.AllowedFrom enqueueFormat [] enqueues → (∀ x ∈ enqueues, LogAction.Written x) →
      (enqueues.foldl execEnqueue {}).enqueueLog.cleaner = .sleeping → EnqueueRunRecovered enqueues) ∧
    (LogAction.AllowedFrom dequeueFormat [] dequeues → (∀ x ∈ dequeues, LogAction.Written x) →
      (dequeues.foldl execDequeue {}).dequeueLog.cleaner = .sleeping → DequeueRunRecovered dequeues) := by
  have hnone : ∀ {α : Type} {F : LogFormat α},
      ({} : AsyncLog).Inv F (LogAction.startedIn F []) (LogAction.CompletedIn ([] : List (LogAction α))) := by
    intro α F
    have hc : LogAction.CompletedIn ([] : List (LogAction α)) = fun _ => False := by
      funext k
      simp [LogAction.CompletedIn]
    rw [hc]
    exact AsyncLog.inv_empty
  refine ⟨fun hacts hw hc k pae => ?_, fun hacts hw hc k pad => ?_⟩
  · have hinv := LogAction.inv_run hnone hacts hw
    rw [List.nil_append] at hinv
    rw [enqueueLog_foldl] at hc
    rw [recoverAsyncEnqueue_fst, enqueueLog_foldl]
    exact hinv.recoverAsync_find? hc k pae
  · have hinv := LogAction.inv_run hnone hacts hw
    rw [List.nil_append] at hinv
    rw [dequeueLog_foldl] at hc
    rw [recoverAsyncDequeue_fst, dequeueLog_foldl]
    exact hinv.recoverAsync_find? hc k pad

/-- Message 1 is started on queue 1, its completion is logged, and two passes of the cleaner run in between. -/
theorem recovered_after_two_passes :
    EnqueueRunRecovered [.start ⟨⟨1, 1⟩, [7], 1, false, rfl, by decide⟩,
      .start ⟨⟨2, 1⟩, [8], 1, false, rfl, by decide⟩, .clean,
      .massComplete true [(1, 1)], .clean, .clean, .clean, .clean, .clean, .clean] ∧
    DequeueRunRecovered [.start ⟨⟨1, 1⟩⟩, .start ⟨⟨2, 1⟩⟩, .clean,
      .massComplete true [(1, 1)], .clean, .clean, .clean, .clean, .clean, .clean] := by
  refine ⟨(recovered_of_batches_written _ []).1 ?_ ?_ ?_, (recovered_of_batches_written [] _).2 ?_ ?_ ?_⟩
  · simp [LogAction.AllowedFrom, LogAction.Allowed, LogAction.startedIn, enqueueFormat, LogFormat.opId,
      PendingAsyncOperation.opId]
  · simp [LogAction.Written, AsyncLog.Written, AsyncLog.HasRoom, AsyncLog.Fits]
  · decide
  · simp [LogAction.AllowedFrom, LogAction.Allowed, LogAction.startedIn, dequeueFormat, LogFormat.opId,
      PendingAsyncOperation.opId]
  · simp [LogAction.Written, AsyncLog.Written, AsyncLog.HasRoom, AsyncLog.Fits]
  · decide

private theorem exists_batch (k : PendingOperationId) (n : Nat) :
    ∃ tl : List PendingOperationId, tl.length = n ∧ ∀ k' ∈ k :: tl, k' = k := by
  refine ⟨List.replicate n k, List.length_replicate, fun k' hk' => ?_⟩
  rcases List.mem_cons.1 hk' with rfl | hk'
  · rfl
  · exact List.eq_of_mem_replicate hk'

/-- The dequeue of message 1 from queue 1, completed in a batch. -/
private def batchRun (pidList : List PendingOperationId) : List (LogAction PendingAsyncDequeue) :=
  [.start ⟨⟨1, 1⟩⟩, .massComplete true pidList]

private theorem dequeueLog_batchRun {pidList : List PendingOperationId} (h : pidList.length = 252645136) :
    ((batchRun pidList).foldl execDequeue {}).dequeueLog = AsyncLog.logStart dequeueFormat {} ⟨⟨1, 1⟩⟩ := by
  have hnone : ∀ L : AsyncLog, L.logMassComplete dequeueFormat true pidList = none := by
    intro L
    refine Option.eq_none_iff_forall_ne_some.2 fun L' hL' => ?_
    have hfits := (AsyncLog.logMassComplete_eq_some_iff.1 hL').1.1 rfl (by rw [h]; decide)
    unfold AsyncLog.Fits at hfits
    omega
  rw [dequeueLog_foldl]
  show ((AsyncLog.logStart dequeueFormat {} ⟨⟨1, 1⟩⟩).logMassComplete dequeueFormat true pidList).getD _ = _
  rw [hnone]
  rfl

/-- A batch of 252645136 ids has `2 ^ 32 + 16` bytes and gets a buffer of 16.  The process dies in the overrun, and
the next one still finds the operation pending. -/
theorem batch_not_recovered :
    ¬ ((∀ acts : List (LogAction PendingAsyncEnqueue), LogAction.AllowedFrom enqueueFormat [] acts →
        (acts.foldl execEnqueue {}).enqueueLog.cleaner = .sleeping → EnqueueRunRecovered acts) ∧
      (∀ acts : List (LogAction PendingAsyncDequeue), LogAction.AllowedFrom dequeueFormat [] acts →
        (acts.foldl execDequeue {}).dequeueLog.cleaner = .sleeping → DequeueRunRecovered acts)) := by
  rintro ⟨-, h⟩
  obtain ⟨tl, hlen, hmem⟩ := exists_batch (1, 1) 252645135
  have hbatch : ((1, 1) :: tl).length = 252645136 := by rw [List.length_cons, hlen]
  have hallowed : LogAction.AllowedFrom dequeueFormat [] (batchRun ((1, 1) :: tl)) := by
    refine ⟨rfl, fun k hk => ?_, trivial⟩
    rw [hmem k hk]
    decide
  have hsleep : ((batchRun ((1, 1) :: tl)).foldl execDequeue {}).dequeueLog.cleaner = .sleeping := by
    rw [dequeueLog_batchRun hbatch]
    rfl
  have hfound : TwoLevel.find? ((batchRun ((1, 1) :: tl)).foldl execDequeue {}).recoverAsyncDequeue.1 1 1 =
      some ⟨⟨1, 1⟩⟩ := by
    rw [recoverAsyncDequeue_fst, dequeueLog_batchRun hbatch]
    decide
  have hdone : LogAction.CompletedIn (batchRun ((1, 1) :: tl)) (1, 1) :=
    ⟨.massComplete true ((1, 1) :: tl), by simp [batchRun], List.mem_cons_self ..⟩
  exact ((h _ hallowed hsleep (1, 1) ⟨⟨1, 1⟩⟩).1 hfound).2 hdone

end AsyncOperationLogger

end BdbMsgStore

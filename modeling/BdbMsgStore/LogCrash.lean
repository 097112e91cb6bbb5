import BdbMsgStore.LogCleaning
import BdbMsgStore.Lib.KeyWords

/-!
# Crashes inside the operations on the log files

`recoverAsync…` and a pass of `clean…Log` change the files in several steps, and the process may stop after each of
them.  `AsyncLog.recoverAsyncUntil` and `AsyncLog.cleanUntil` are the files that such a crash leaves behind; the last
point of a pass is the state that the uninterrupted pass reaches (`iterate_cleanStep`).

The recovery removes both files before it logs the pending operations again, so it is restartable only when they have
all been logged again, or when nothing depends on the removed file (`recovery_restartable`).  A cleaning pass removes
the handled file before it renames the temporary one and before it logs the lost completions again, and a later pass
appends to a temporary file that was left behind; `clean_crash_atomic` says for which contents this does no harm.
-/

namespace BdbMsgStore

open KeyedLog

namespace AsyncLog

open LogFormat

variable {α : Type} (F : LogFormat α)

/-- The same operations are pending. -/
def SamePending (m m' : PendingSet α) : Prop :=
  ∀ k : PendingOperationId, TwoLevel.find? m k.2 k.1 = TwoLevel.find? m' k.2 k.1

/-! ### Inside the recovery of a log -/

/-- Where `recoverAsync…` may stop: after file 0 was removed, or after file 1 was removed too and some of the pending
operations were logged again. -/
inductive RecoverPoint where
  | removedFirst
  | relogged (n : Nat)
  deriving DecidableEq, Repr

/-- The operations that `recoverAsync…` has to log again. -/
def pendingInFiles (L : AsyncLog) : List α :=
  pendingList (L.replayFiles F).pending

/-- The log as `recoverAsync…` leaves it when it stops. -/
def recoverAsyncUntil (L : AsyncLog) : RecoverPoint → AsyncLog
  | .removedFirst => { L with file := Function.update L.file 0 [] }
  | .relogged n => ((pendingInFiles F L).take n).foldl (logStart F) { L with file := fun _ => [], index := 0 }

variable {F}

theorem foldl_logStart (L : AsyncLog) (l : List α) : l.foldl (logStart F) L = L.write (l.flatMap F.startRecord) := by
  induction l generalizing L with
  | nil => exact (write_nil L).symm
  | cons a l ih =>
    rw [List.foldl_cons, ih, List.flatMap_cons]
    exact write_write ..

/-- Among starts alone, the first one of a key is pending. -/
theorem pending?_replayKey_starts (l : List α) (k : PendingOperationId) :
    (replayKey k (l.map fun a => (.start (F.opId a) a : LogRecord α))).pending? =
      l.find? fun a => decide (F.opId a = k) := by
  induction l with
  | nil => rfl
  | cons a l ih =>
    have hcons : recordsOf k ((a :: l).map fun a => (.start (F.opId a) a : LogRecord α)) =
        (if F.opId a = k then [.start (F.opId a) a] else []) ++
          recordsOf k (l.map fun a => (.start (F.opId a) a : LogRecord α)) := by
      rw [List.map_cons, ← List.singleton_append, recordsOf_append, recordsOf_singleton]
      rfl
    unfold replayKey
    rw [hcons, replay_append, List.find?_cons]
    by_cases ha : F.opId a = k
    · have hstarts : ∀ r ∈ recordsOf k (l.map fun a => (.start (F.opId a) a : LogRecord α)), r.isStart = true := by
        intro r hr
        obtain ⟨b, -, rfl⟩ := List.mem_map.1 (List.mem_filter.1 hr).1
        rfl
      rw [if_pos ha, decide_eq_true ha]
      show (replay (.pending a) _).pending? = some a
      rw [replay_pending_starts hstarts]
      rfl
    · rw [if_neg ha, decide_eq_false ha]
      exact ih

/-- A log of starts: the first start of a key is pending. -/
theorem find?_recoverAsync_starts {L : AsyncLog} {l : List α} (hfile : L.file 0 = l.flatMap F.startRecord)
    (hnil : L.file 1 = []) (k : PendingOperationId) :
    TwoLevel.find? (L.recoverAsync F).1 k.2 k.1 = l.find? fun a => decide (F.opId a = k) := by
  have henc : l.flatMap F.startRecord = F.encodeAll (l.map fun a => .start (F.opId a) a) := by
    unfold encodeAll
    rw [List.flatMap_map]
    rfl
  have hkeyed : ∀ r ∈ l.map fun a => (.start (F.opId a) a : LogRecord α), F.Keyed r := by
    intro r hr
    obtain ⟨a, -, rfl⟩ := List.mem_map.1 hr
    rfl
  rw [AsyncLog.find?_recoverAsync, hfile, hnil, henc, F.records_encodeAll hkeyed, F.records_nil, List.append_nil]
  exact pending?_replayKey_starts l k

/-- What is pending when some of the operations have been logged again. -/
theorem find?_relogged (L : AsyncLog) (n : Nat) (k : PendingOperationId) :
    TwoLevel.find? ((L.recoverAsyncUntil F (.relogged n)).recoverAsync F).1 k.2 k.1 =
      ((pendingInFiles F L).take n).find? fun a => decide (F.opId a = k) := by
  have hlog : L.recoverAsyncUntil F (.relogged n) = AsyncLog.write { L with file := fun _ => [], index := 0 }
      (((pendingInFiles F L).take n).flatMap F.startRecord) := foldl_logStart ..
  rw [hlog]
  exact find?_recoverAsync_starts rfl rfl k

private theorem opId_eq_iff {a : α} {k : PendingOperationId} :
    F.opId a = k ↔ ((F.op a).queueId, (F.op a).msgId) = (k.2, k.1) :=
  ⟨fun h => by rw [← h]; rfl, fun h => Prod.ext (congrArg Prod.snd h) (congrArg Prod.fst h)⟩

theorem find?_recovered (L : AsyncLog) (k : PendingOperationId) :
    TwoLevel.find? (L.recoverAsync F).1 k.2 k.1 = (pendingInFiles F L).find? fun a => decide (F.opId a = k) := by
  rw [(recoverAsync_keyed F L).find?_eq_find?]
  simp only [opId_eq_iff]
  rfl

private theorem nodup_pendingInFiles (L : AsyncLog) : ((pendingInFiles F L).map F.opId).Nodup := by
  have h := (recoverAsync_keyed F L).nodup
  have hmap : (pendingInFiles F L).map F.opId =
      ((TwoLevel.values (L.recoverAsync F).1).map fun a => ((F.op a).queueId, (F.op a).msgId)).map Prod.swap := by
    rw [List.map_map]
    rfl
  rw [hmap]
  exact h.map Prod.swap_injective

/-- What recovery has logged again is started, and nothing is completed. -/
theorem inv_recoverAsync {L : AsyncLog} (htmp : L.tmp = []) (hsleep : L.cleaner = .sleeping) :
    (L.recoverAsync F).2.Inv F (fun k => TwoLevel.find? (L.recoverAsync F).1 k.2 k.1) fun _ => False := by
  have hempty : ({ L with file := fun _ => [], index := 0 } : AsyncLog) = {} := by
    rw [htmp, hsleep]
  have hinv := (inv_empty (F := F)).foldl_logStart (nodup_pendingInFiles L) fun _ _ => rfl
  rw [← hempty] at hinv
  refine hinv.congr (fun k => ?_) fun _ => Iff.rfl
  rw [find?_recovered, Option.or_none]

/-- Some of the operations are not logged again yet: they are lost. -/
private theorem relogged_iff (L : AsyncLog) (n : Nat) :
    SamePending ((L.recoverAsyncUntil F (.relogged n)).recoverAsync F).1 (L.recoverAsync F).1 ↔
      (pendingInFiles F L).length ≤ n := by
  have hlookup : SamePending ((L.recoverAsyncUntil F (.relogged n)).recoverAsync F).1 (L.recoverAsync F).1 ↔
      ∀ k, (((pendingInFiles F L).take n).find? fun a => decide (F.opId a = k)) =
        (pendingInFiles F L).find? fun a => decide (F.opId a = k) :=
    forall_congr' fun k => by rw [find?_relogged, find?_recovered L]
  rw [hlookup]
  constructor
  · intro hsame
    by_contra hlt
    rw [not_le] at hlt
    -- the first operation that is missing
    obtain ⟨a, l, hdrop⟩ : ∃ a l, (pendingInFiles F L).drop n = a :: l := by
      cases hd : (pendingInFiles F L).drop n with
      | nil =>
        rw [List.drop_eq_nil_iff] at hd
        omega
      | cons a l => exact ⟨a, l, rfl⟩
    have hsplit : pendingInFiles F L = (pendingInFiles F L).take n ++ a :: l := by
      rw [← hdrop, List.take_append_drop]
    have hfound : ((pendingInFiles F L).find? fun b => decide (F.opId b = F.opId a)).isSome = true := by
      rw [List.find?_isSome]
      refine ⟨a, ?_, by simp⟩
      rw [hsplit]
      simp
    rw [← hsame (F.opId a), List.find?_isSome] at hfound
    obtain ⟨b, hb, hba⟩ := hfound
    have hnodup := nodup_pendingInFiles (F := F) L
    rw [hsplit, List.map_append, List.nodup_append] at hnodup
    refine hnodup.2.2 (F.opId b) (List.mem_map_of_mem hb) (F.opId a) ?_ (by simpa using hba)
    exact List.mem_map_of_mem (List.mem_cons_self ..)
  · intro hle k
    rw [List.take_of_length_le hle]

/-- File 0 is gone: what it has left for the records of file 1 is missing. -/
private theorem removedFirst_iff (L : AsyncLog) :
    SamePending ((L.recoverAsyncUntil F .removedFirst).recoverAsync F).1 (L.recoverAsync F).1 ↔
      ∀ k, ¬ (replayKey k (F.records (L.file 0))).Exposes k (recordsOf k (F.records (L.file 1))) := by
  refine forall_congr' fun k => ?_
  rw [AsyncLog.find?_recoverAsync, AsyncLog.find?_recoverAsync, ← pending?_replay_eq_iff]
  have hfile0 : F.records ((L.recoverAsyncUntil F .removedFirst).file 0) = [] := rfl
  have hfile1 : (L.recoverAsyncUntil F .removedFirst).file 1 = L.file 1 := rfl
  rw [hfile0, hfile1, List.nil_append]
  unfold replayKey
  rw [recordsOf_append, replay_append]

variable (F)

/-- Where the recovery may stop without harm. -/
def Restartable (L : AsyncLog) : RecoverPoint → Prop
  | .removedFirst =>
    ∀ k, ¬ (replayKey k (F.records (L.file 0))).Exposes k (recordsOf k (F.records (L.file 1)))
  | .relogged n => (pendingInFiles F L).length ≤ n

variable {F}

private theorem restartable_iff (L : AsyncLog) (p : RecoverPoint) :
    SamePending ((L.recoverAsyncUntil F p).recoverAsync F).1 (L.recoverAsync F).1 ↔ L.Restartable F p := by
  cases p with
  | removedFirst => exact removedFirst_iff L
  | relogged n => exact relogged_iff L n

/-! ### Inside a cleaning pass -/

variable (F)

/-- Where a pass of `clean…Log` may stop: after the rotation, while the temporary file is written, after the handled
file was removed, or after the temporary file was renamed and some of the lost completions were logged again. -/
inductive CleanPoint where
  | rotated
  | writing (n : Nat)
  | removed
  | renamed (n : Nat)
  deriving DecidableEq, Repr

/-- What the pass reads from the file that is open when it begins. -/
def handled (L : AsyncLog) : Extracted α := F.extractPendingFromFile (L.file L.index) .empty

/-- What the pass writes to the temporary file. -/
def rewritten (L : AsyncLog) : Bytes := (pendingList (handled F L).pending).flatMap F.startRecord

/-- The completions that the pass has to log again. -/
def lostInHandled (L : AsyncLog) : List PendingOperationId :=
  (pendingList (handled F L).lost).map PendingAsyncOperation.opId

/-- The log as a pass leaves it when it stops. -/
def cleanUntil (L : AsyncLog) : CleanPoint → AsyncLog
  | .rotated => L.rotate
  | .writing n => { L.rotate with tmp := L.tmp ++ (rewritten F L).take n }
  | .removed => { L.rotate with file := Function.update L.file L.index [], tmp := L.tmp ++ rewritten F L }
  | .renamed n => ((lostInHandled F L).take n).foldl (logComplete F) (L.rotate.rewrite F L.index)

/-- A whole pass. -/
def cleanPass (L : AsyncLog) : AsyncLog :=
  { L.cleanUntil F (.renamed (lostInHandled F L).length) with cleaner := .sleeping }

variable {F}

/-- The steps of the cleaner after the rename. -/
private theorem iterate_cleanStep_renamed {L : AsyncLog} (h : L.cleaner = .sleeping)
    (hread : (handled F L).thrown = false) {n : Nat} (hn : n ≤ (lostInHandled F L).length) :
    (cleanStep F)^[n + 2] L =
      { L.cleanUntil F (.renamed n) with cleaner := .relogging ((lostInHandled F L).drop n) } := by
  induction n with
  | zero =>
    have hrotate : cleanStep F L = L.rotate := by
      unfold cleanStep
      rw [h]
    show cleanStep F (cleanStep F L) = _
    rw [hrotate]
    show (if (handled F L).thrown = true then L.rotate else L.rotate.rewrite F L.index) = _
    rw [hread]
    rfl
  | succ n ih =>
    rw [Function.iterate_succ_apply', ih (by omega)]
    obtain ⟨k, hk⟩ : ∃ k, (lostInHandled F L).drop n = k :: (lostInHandled F L).drop (n + 1) :=
      ⟨_, List.drop_eq_getElem_cons (by omega)⟩
    have hrenamed : L.cleanUntil F (.renamed (n + 1)) = logComplete F (L.cleanUntil F (.renamed n)) k := by
      have hget : (lostInHandled F L)[n]? = some k := by
        rw [← List.head?_drop, hk]
        rfl
      show ((lostInHandled F L).take (n + 1)).foldl _ _ = _
      rw [List.take_add_one, hget, List.foldl_append]
      rfl
    rw [hk, hrenamed]
    rfl

/-- A whole pass is what the steps of the cleaner do from one sleep to the next, if it can read its file. -/
theorem iterate_cleanStep {L : AsyncLog} (h : L.cleaner = .sleeping) (hread : (handled F L).thrown = false) :
    (cleanStep F)^[(lostInHandled F L).length + 3] L = L.cleanPass F := by
  rw [Function.iterate_succ_apply', iterate_cleanStep_renamed h hread (le_refl _), List.drop_length]
  rfl

/-! ### What a crash inside a pass does to the pending operations -/

/-- Wherever the pass stops, the pending operations are those of the files before the pass; and the temporary file
that is left behind changes nothing for a later pass, whatever the log holds then. -/
structure CrashAtomic (F : LogFormat α) (L : AsyncLog) : Prop where
  pending : ∀ p, SamePending ((L.cleanUntil F p).recoverAsync F).1 (L.recoverAsync F).1
  leftover : ∀ (p : CleanPoint) (M : AsyncLog),
    SamePending ((cleanPass F { M with tmp := (L.cleanUntil F p).tmp }).recoverAsync F).1
      ((cleanPass F { M with tmp := [] }).recoverAsync F).1

/-- The handled file holds no pending start.  When it is read first, no key that has a lost completion in it is
pending in the other file; when it is read second, its records take every key that is pending before it through whole
cycles back to the same operation. -/
structure Harmless (file : Fin 2 → List (LogRecord α)) (index : Fin 2) : Prop where
  noPending : ∀ k, (replayKey k (file index)).pending? = none
  lost : index = 0 → ∀ k, replayKey k (file 0) = .lost → (replayKey k (file 1)).pending? = none
  cycles : index = 1 → ∀ k a, replayKey k (file 0) = .pending a → Cycles a a (recordsOf k (file 1))

/-- The file does not end inside a record: what is appended to it is read as it was written. -/
def Whole (F : LogFormat α) (bytes : Bytes) : Prop :=
  ∀ rest, F.records (bytes ++ rest) = F.records bytes ++ F.records rest

theorem whole_encodeAll {rs : List (LogRecord α)} (hrs : ∀ r ∈ rs, F.Keyed r) :
    Whole F (F.encodeAll rs) := fun rest => by
  rw [F.records_encodeAll_append hrs, F.records_encodeAll hrs]

/-- What is pending in the two files, when file 0 is read before file 1. -/
private theorem find?_of_records {L : AsyncLog} {rs₀ rs₁ : List (LogRecord α)} (h₀ : F.records (L.file 0) = rs₀)
    (h₁ : F.records (L.file 1) = rs₁) (k : PendingOperationId) :
    TwoLevel.find? (L.recoverAsync F).1 k.2 k.1 = (replay (replayKey k rs₀) (recordsOf k rs₁)).pending? := by
  rw [AsyncLog.find?_recoverAsync, h₀, h₁]
  unfold replayKey
  rw [recordsOf_append, replay_append]

theorem mem_lostInHandled (L : AsyncLog) (k : PendingOperationId) :
    k ∈ lostInHandled F L ↔ replayKey k (F.records (L.file L.index)) = .lost :=
  (rewrites_extract (F := F) (L.file L.index)).lost k

/-- When one of the files is empty, the other one decides. -/
private theorem find?_of_empty {L : AsyncLog} (i : Fin 2) (hi : F.records (L.file i) = []) (k : PendingOperationId) :
    TwoLevel.find? (L.recoverAsync F).1 k.2 k.1 = (replayKey k (F.records (L.file (i + 1)))).pending? := by
  have hi2 : i = 0 ∨ i = 1 := by omega
  rcases hi2 with rfl | rfl
  · rw [find?_of_records hi rfl]
    rfl
  · rw [find?_of_records rfl hi]
    rfl

/-- Until the handled file is removed, recovery finds what it would have found before the pass. -/
theorem samePending_before_removal (L : AsyncLog) {p : CleanPoint} (hp : p = .rotated ∨ ∃ n, p = .writing n) :
    SamePending ((L.cleanUntil F p).recoverAsync F).1 (L.recoverAsync F).1 := by
  intro k
  rcases hp with rfl | ⟨n, rfl⟩
  · rw [find?_of_records rfl rfl, find?_of_records rfl rfl]
    rfl
  · rw [find?_of_records rfl rfl, find?_of_records rfl rfl]
    rfl

private theorem find?_removed (L : AsyncLog) (k : PendingOperationId) :
    TwoLevel.find? ((L.cleanUntil F .removed).recoverAsync F).1 k.2 k.1 =
      (replayKey k (F.records (L.file (L.index + 1)))).pending? := by
  have hnil : F.records ((L.cleanUntil F .removed).file L.index) = [] := by
    show F.records (Function.update L.file L.index [] L.index) = []
    rw [Function.update_self]
    rfl
  rw [find?_of_empty L.index hnil]
  show (replayKey k (F.records (Function.update L.file L.index [] (L.index + 1)))).pending? = _
  rw [Function.update_of_ne (RotLog.other_ne _)]

/-- The starts that a pass has written to the temporary file are pending after the next pass over an empty log. -/
private theorem find?_leftover {L : AsyncLog} (htmp : L.tmp = []) (k : PendingOperationId) :
    TwoLevel.find? ((cleanPass F ({ tmp := (L.cleanUntil F .removed).tmp } : AsyncLog)).recoverAsync F).1 k.2 k.1 =
      (replayKey k (F.records (L.file L.index))).pending? := by
  have hkeyed : ∀ r ∈ startRecords F (handled F L).pending, F.Keyed r := by
    intro r hr
    obtain ⟨a, -, rfl⟩ := List.mem_map.1 hr
    rfl
  have hfile : F.records ((cleanPass F ({ tmp := (L.cleanUntil F .removed).tmp } : AsyncLog)).file 0) =
      startRecords F (handled F L).pending := by
    show F.records (L.tmp ++ rewritten F L ++ []) = _
    rw [htmp, List.append_nil, List.nil_append, ← F.records_encodeAll hkeyed, encodeAll_startRecords]
    rfl
  have hrewrites := (rewrites_extract (F := F) (L.file L.index)).pending k
  rw [find?_of_records hfile rfl]
  show (replay .idle (recordsOf k (startRecords F (handled F L).pending))).pending? = _
  unfold handled
  rw [hrewrites]
  cases replayKey k (F.records (L.file L.index)) <;> rfl

section

variable {L : AsyncLog} (htmp : L.tmp = [])
  (hnone : ∀ k, (replayKey k (F.records (L.file L.index))).pending? = none)

include hnone

/-- Without a pending start nothing is written to the temporary file. -/
private theorem rewritten_eq_nil : rewritten F L = [] := by
  have hflat : TwoLevel.flatten (handled F L).pending = [] := by
    rw [List.eq_nil_iff_forall_not_mem]
    rintro ⟨q, p, a⟩ hmem
    have hfind := TwoLevel.mem_flatten.1 hmem
    rw [show TwoLevel.find? (handled F L).pending q p = _ from F.find?_extract (L.file L.index) (p, q),
      hnone (p, q)] at hfind
    cases hfind
  unfold rewritten pendingList TwoLevel.values
  rw [hflat]
  rfl

include htmp

private theorem tmp_cleanUntil (p : CleanPoint) : (L.cleanUntil F p).tmp = [] := by
  have hnil := rewritten_eq_nil hnone
  cases p with
  | rotated => exact htmp
  | writing n =>
    show L.tmp ++ (rewritten F L).take n = []
    rw [htmp, hnil, List.take_nil, List.append_nil]
  | removed =>
    show L.tmp ++ rewritten F L = []
    rw [htmp, hnil, List.append_nil]
  | renamed n =>
    show (((lostInHandled F L).take n).foldl (logComplete F) (L.rotate.rewrite F L.index)).tmp = []
    rw [foldl_logComplete]
    rfl

/-- The files after the rename: the handled one is empty, and the other one has got completions. -/
theorem file_renamed (n : Nat) :
    (L.cleanUntil F (.renamed n)).file = Function.update (Function.update L.file L.index []) (L.index + 1)
      (L.file (L.index + 1) ++ F.encodeAll (((lostInHandled F L).take n).map .complete)) := by
  show (((lostInHandled F L).take n).foldl (logComplete F) (L.rotate.rewrite F L.index)).file = _
  rw [foldl_logComplete]
  show Function.update (Function.update L.file L.index (L.tmp ++ rewritten F L)) (L.index + 1)
    ((Function.update L.file L.index (L.tmp ++ rewritten F L)) (L.index + 1) ++ _) = _
  rw [htmp, rewritten_eq_nil hnone, Function.update_of_ne (RotLog.other_ne _)]
  unfold encodeAll
  rw [List.flatMap_map]
  rfl

private theorem find?_renamed (hwhole : Whole F (L.file (L.index + 1))) (n : Nat) (k : PendingOperationId) :
    TwoLevel.find? ((L.cleanUntil F (.renamed n)).recoverAsync F).1 k.2 k.1 =
      if k ∈ (lostInHandled F L).take n then none
      else (replayKey k (F.records (L.file (L.index + 1)))).pending? := by
  have hnil : F.records ((L.cleanUntil F (.renamed n)).file L.index) = [] := by
    rw [file_renamed htmp hnone, Function.update_of_ne (RotLog.other_ne _).symm, Function.update_self]
    rfl
  rw [find?_of_empty L.index hnil, file_renamed htmp hnone, Function.update_self, hwhole, F.records_encodeAll]
  · generalize (lostInHandled F L).take n = ks
    -- the completions of the key that are logged again come last
    unfold replayKey
    rw [recordsOf_append, replay_append, pending?_replay_completeAll]
  · intro r hr
    obtain ⟨k', -, rfl⟩ := List.mem_map.1 hr
    trivial

end

/-- Without the handled file the pending operations are the same, and none of them has its completion lost in it. -/
private theorem Harmless.pending?_eq {file : Fin 2 → List (LogRecord α)} {i : Fin 2} (hh : Harmless file i)
    (k : PendingOperationId) :
    (replayKey k (file (i + 1))).pending? = (replay (replayKey k (file 0)) (recordsOf k (file 1))).pending? ∧
      (replayKey k (file i) = .lost → (replayKey k (file (i + 1))).pending? = none) := by
  have hi : i = 0 ∨ i = 1 := by omega
  have hnone := hh.noPending k
  rcases hi with rfl | rfl
  · refine ⟨?_, hh.lost rfl k⟩
    show (replay .idle (recordsOf k (file 1))).pending? = _
    cases hst : replayKey k (file 0) with
    | idle => rfl
    | pending a =>
      rw [hst] at hnone
      cases hnone
    | lost =>
      have hother : (replay .idle (recordsOf k (file 1))).pending? = none := hh.lost rfl k hst
      rw [hother, pending?_replay_lost_eq_none hother]
  · show (replayKey k (file 0)).pending? = _ ∧ (_ → (replayKey k (file 0)).pending? = none)
    have hidle : (replay .idle (recordsOf k (file 1))).pending? = none := hnone
    cases hst : replayKey k (file 0) with
    | idle => exact ⟨hidle.symm, fun _ => rfl⟩
    | lost => exact ⟨(pending?_replay_lost_eq_none hidle).symm, fun _ => rfl⟩
    | pending a =>
      have hcycles := (replay_pending_eq_pending_iff hidle a a).2 (hh.cycles rfl k a hst)
      refine ⟨by rw [hcycles], fun hlost => ?_⟩
      -- a word that loses a completion does not leave the key pending
      have hle := level_replay_le_add (s := .idle) (t := .pending a) (by simp [KeyState.level])
        (recordsOf k (file 1))
      rw [hcycles, show replay .idle (recordsOf k (file 1)) = .lost from hlost] at hle
      exact absurd hle (by simp [KeyState.level])

/-- A pass is crash-atomic exactly for the contents that are harmless. -/
private theorem crashAtomic_iff {L : AsyncLog} (htmp : L.tmp = []) (hwhole : Whole F (L.file (L.index + 1))) :
    L.CrashAtomic F ↔ Harmless (fun i => F.records (L.file i)) L.index := by
  have hfind := find?_of_records (F := F) (L := L) rfl rfl
  constructor
  · rintro ⟨hpending, hleftover⟩
    have hnone : ∀ k, (replayKey k (F.records (L.file L.index))).pending? = none := by
      intro k
      rw [← find?_leftover htmp k]
      exact (hleftover .removed {} k).trans rfl
    have hremoved := fun k => (find?_removed L k).symm.trans ((hpending .removed k).trans (hfind k))
    have hrenamed := fun k => (find?_renamed htmp hnone hwhole (lostInHandled F L).length k).symm.trans
      ((hpending (.renamed (lostInHandled F L).length) k).trans (hfind k))
    refine ⟨hnone, fun hi k hlost => ?_, fun hi k a hst => ?_⟩
    · rw [← hi, ← mem_lostInHandled L k] at hlost
      have hboth := hrenamed k
      rw [List.take_length, if_pos hlost] at hboth
      have hother := hremoved k
      rw [← hboth, hi] at hother
      exact hother
    · have hidle := hnone k
      rw [hi] at hidle
      have hboth := hremoved k
      rw [hi] at hboth
      replace hboth : (replayKey k (F.records (L.file 0))).pending? = _ := hboth
      rw [hst] at hboth
      exact (replay_pending_eq_pending_iff hidle a a).1 (KeyState.pending?_eq_some.1 hboth.symm)
  · intro hh
    refine ⟨fun p => ?_, fun p M => ?_⟩
    · cases p with
      | rotated => exact samePending_before_removal L (Or.inl rfl)
      | writing n => exact samePending_before_removal L (Or.inr ⟨n, rfl⟩)
      | removed =>
        intro k
        rw [find?_removed, hfind, ← (hh.pending?_eq k).1]
      | renamed n =>
        intro k
        rw [find?_renamed htmp hh.noPending hwhole, hfind, ← (hh.pending?_eq k).1]
        split
        · rename_i hmem
          have hlost := (mem_lostInHandled L k).1 (List.mem_of_mem_take hmem)
          exact ((hh.pending?_eq k).2 hlost).symm
        · rfl
    · rw [tmp_cleanUntil htmp hh.noPending p]
      exact fun k => rfl

end AsyncLog

namespace AsyncOperationLogger

/-- `recoverAsyncEnqueue` stops. -/
def recoverAsyncEnqueueUntil (lg : AsyncOperationLogger) (p : AsyncLog.RecoverPoint) : AsyncOperationLogger :=
  { lg with enqueueLog := lg.enqueueLog.recoverAsyncUntil enqueueFormat p }

/-- `recoverAsyncDequeue` stops. -/
def recoverAsyncDequeueUntil (lg : AsyncOperationLogger) (p : AsyncLog.RecoverPoint) : AsyncOperationLogger :=
  { lg with dequeueLog := lg.dequeueLog.recoverAsyncUntil dequeueFormat p }

/-- A recovery that follows an interrupted one returns the same operations exactly if all of them were logged again,
or file 1 was not removed yet and its records settle whatever file 0 has left pending or lost. -/
theorem recovery_restartable (lg : AsyncOperationLogger) (p : AsyncLog.RecoverPoint) :
    (AsyncLog.SamePending (lg.recoverAsyncEnqueueUntil p).recoverAsyncEnqueue.1 lg.recoverAsyncEnqueue.1 ↔
      lg.enqueueLog.Restartable enqueueFormat p) ∧
    (AsyncLog.SamePending (lg.recoverAsyncDequeueUntil p).recoverAsyncDequeue.1 lg.recoverAsyncDequeue.1 ↔
      lg.dequeueLog.Restartable dequeueFormat p) :=
  ⟨AsyncLog.restartable_iff lg.enqueueLog p, AsyncLog.restartable_iff lg.dequeueLog p⟩

/-- The enqueue of message 1 on queue 1 is pending; both files are removed, and nothing is logged again yet. -/
theorem pending_enqueue_forgotten :
    ¬ ((∀ (lg : AsyncOperationLogger) (p : AsyncLog.RecoverPoint),
        AsyncLog.SamePending (lg.recoverAsyncEnqueueUntil p).recoverAsyncEnqueue.1 lg.recoverAsyncEnqueue.1) ∧
      (∀ (lg : AsyncOperationLogger) (p : AsyncLog.RecoverPoint),
        AsyncLog.SamePending (lg.recoverAsyncDequeueUntil p).recoverAsyncDequeue.1 lg.recoverAsyncDequeue.1)) := by
  rintro ⟨hpreserved, -⟩
  have hsame := hpreserved (logEnqueueStart {} ⟨⟨1, 1⟩, [], 0, false, rfl, by decide⟩) (.relogged 0) (1, 1)
  exact absurd hsame (by decide)

/-- A pass over either log, in a state without a temporary file and with the other file whole, is crash-atomic exactly
if the records of the two files are harmless to it. -/
theorem clean_crash_atomic (L : AsyncLog) (htmp : L.tmp = []) :
    (AsyncLog.Whole enqueueFormat (L.file (L.index + 1)) →
      (L.CrashAtomic enqueueFormat ↔ AsyncLog.Harmless (fun i => enqueueFormat.records (L.file i)) L.index)) ∧
    (AsyncLog.Whole dequeueFormat (L.file (L.index + 1)) →
      (L.CrashAtomic dequeueFormat ↔ AsyncLog.Harmless (fun i => dequeueFormat.records (L.file i)) L.index)) :=
  ⟨AsyncLog.crashAtomic_iff htmp, AsyncLog.crashAtomic_iff htmp⟩

/-- The dequeue of message 1 was started and completed in the open file, file 0; the dequeue of message 2 is pending
in file 1. -/
def completedLog : AsyncLog where
  file := fun i => dequeueFormat.encodeAll
    (if i = 0 then [.start (1, 1) ⟨⟨1, 1⟩⟩, .complete (1, 1)] else [.start (2, 1) ⟨⟨2, 1⟩⟩])

theorem clean_crash_atomic_completed : completedLog.CrashAtomic dequeueFormat := by
  have hidle : ∀ k : PendingOperationId, replayKey k (dequeueFormat.records (completedLog.file 0)) = .idle := by
    intro k
    rw [show dequeueFormat.records (completedLog.file 0) = [.start (1, 1) ⟨⟨1, 1⟩⟩, .complete (1, 1)] by decide]
    by_cases hk : (1, 1) = k
    · subst hk
      decide
    · simp [replayKey, recordsOf, Record.key, hk]
  have hwhole : AsyncLog.Whole dequeueFormat (completedLog.file 1) := by
    refine AsyncLog.whole_encodeAll fun r hr => ?_
    rw [List.mem_singleton.1 hr]
    rfl
  refine ((clean_crash_atomic completedLog rfl).2 hwhole).2 ⟨fun k => ?_, fun _ k hlost => ?_, fun hi => ?_⟩
  · exact congrArg KeyState.pending? (hidle k)
  · exact absurd ((hidle k).symm.trans hlost) (by simp)
  · exact absurd hi (by decide)

/-- The enqueue of message 1 on queue 1 is pending in the open file; the pass stops after it has removed the file. -/
theorem pending_enqueue_removed :
    ¬ ((∀ L : AsyncLog, L.tmp = [] → AsyncLog.Whole enqueueFormat (L.file (L.index + 1)) →
        L.CrashAtomic enqueueFormat) ∧
      (∀ L : AsyncLog, L.tmp = [] → AsyncLog.Whole dequeueFormat (L.file (L.index + 1)) →
        L.CrashAtomic dequeueFormat)) := by
  rintro ⟨hpreserved, -⟩
  have hsame := (hpreserved (AsyncLog.logStart enqueueFormat {} ⟨⟨1, 1⟩, [], 0, false, rfl, by decide⟩) rfl
      (fun _ => rfl)).pending .removed (1, 1)
  exact absurd hsame (by decide)

end AsyncOperationLogger

end BdbMsgStore

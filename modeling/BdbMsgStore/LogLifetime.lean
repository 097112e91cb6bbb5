import BdbMsgStore.Balance
import BdbMsgStore.Lib.LogPasses

/-!
# How long the logs keep a record

The run of a provider is observed here through the records it appends to its logs and the passes that the cleaners
begin (`passStep`).  A pass drops a start and its completion only when it finds both in one file; otherwise it moves
the completion behind the start, for the next pass.  So two passes after its last record a pair is represented by
the start of its open operation, or by nothing (`logs_forget_completed`), whatever the threads have appended for
other pairs in the meantime.  A start that is logged while the cleaner carries an older completion of its pair would
be dropped by the next pass, together with this completion; `Separated` excludes it.

A completion without a start is appended again by every pass.  When a dequeue takes a message from its `store` task,
both log the completion of the enqueue, and if no pass begins between these records, one completion stays in the log
for good (`pass_keeps_outcome`).
-/

namespace BdbMsgStore

open KeyedLog LogFormat StoreProvider

/-! ### The events of the logs -/

inductive LoggerEvent where
  | enqueueLog (e : LogEvent PendingOperationId PendingAsyncEnqueue)
  | dequeueLog (e : LogEvent PendingOperationId PendingAsyncDequeue)

def enqueueLogEvents (h : List LoggerEvent) : List (LogEvent PendingOperationId PendingAsyncEnqueue) :=
  h.filterMap fun
    | .enqueueLog e => some e
    | .dequeueLog _ => none

def dequeueLogEvents (h : List LoggerEvent) : List (LogEvent PendingOperationId PendingAsyncDequeue) :=
  h.filterMap fun
    | .enqueueLog _ => none
    | .dequeueLog e => some e

def LoggedRecord.event : LoggedRecord → LoggerEvent
  | .enqueue r => .enqueueLog (.record r)
  | .dequeue r => .dequeueLog (.record r)

/-- The pass that the next step of the cleaner begins. -/
def AsyncLog.passBegun {α : Type} (L : AsyncLog) : List (LogEvent PendingOperationId α) :=
  if L.cleaner = .sleeping then [.pass] else []

namespace StoreProvider

def loggerEvents (s : StoreProvider) : Action → List LoggerEvent
  | .cleanEnqueueLog => s.aologger.enqueueLog.passBegun.map .enqueueLog
  | .cleanDequeueLog => s.aologger.dequeueLog.passBegun.map .dequeueLog
  | a => a.logs.map LoggedRecord.event

/-- A step, seen through the records it appends to the logs and the pass it begins. -/
def passStep (s : StoreProvider) (a : Action) : Option (StoreProvider × List LoggerEvent) :=
  (s.step a).map fun r => (r.1, s.loggerEvents a)

end StoreProvider

theorem enqueueLogEvents_logs (rs : List LoggedRecord) :
    enqueueLogEvents (rs.map LoggedRecord.event) = (enqueueRecords rs).map .record := by
  unfold enqueueLogEvents enqueueRecords
  rw [List.filterMap_map, List.map_filterMap]
  refine List.filterMap_congr fun r _ => ?_
  cases r <;> rfl

theorem dequeueLogEvents_logs (rs : List LoggedRecord) :
    dequeueLogEvents (rs.map LoggedRecord.event) = (dequeueRecords rs).map .record := by
  unfold dequeueLogEvents dequeueRecords
  rw [List.filterMap_map, List.map_filterMap]
  refine List.filterMap_congr fun r _ => ?_
  cases r <;> rfl

theorem enqueueLogEvents_enqueueLog (es : List (LogEvent PendingOperationId PendingAsyncEnqueue)) :
    enqueueLogEvents (es.map .enqueueLog) = es := by
  unfold enqueueLogEvents
  rw [List.filterMap_map]
  exact List.filterMap_some

theorem dequeueLogEvents_dequeueLog (es : List (LogEvent PendingOperationId PendingAsyncDequeue)) :
    dequeueLogEvents (es.map .dequeueLog) = es := by
  unfold dequeueLogEvents
  rw [List.filterMap_map]
  exact List.filterMap_some

theorem enqueueLogEvents_dequeueLog (es : List (LogEvent PendingOperationId PendingAsyncDequeue)) :
    enqueueLogEvents (es.map .dequeueLog) = [] := by
  unfold enqueueLogEvents
  rw [List.filterMap_map]
  exact List.filterMap_none es

theorem dequeueLogEvents_enqueueLog (es : List (LogEvent PendingOperationId PendingAsyncEnqueue)) :
    dequeueLogEvents (es.map .enqueueLog) = [] := by
  unfold dequeueLogEvents
  rw [List.filterMap_map]
  exact List.filterMap_none es

/-! ### One log -/

/-- A step appends one record of the thread's pair, or none. -/
theorem LogStep.one {α : Type} {F : LogFormat α} {isOpen : Thread → Bool} {t : Thread} {succ : List Thread}
    {new : List (LogRecord α)} (h : LogStep F isOpen t succ new) :
    new = [] ∨ ∃ r, new = [r] ∧ r.key = t.key ∧ F.Keyed r := by
  cases h with
  | start a hk => exact Or.inr ⟨_, rfl, hk, rfl⟩
  | complete => exact Or.inr ⟨_, rfl, rfl, trivial⟩
  | silent => exact Or.inl rfl

/-- The open operations of a pair of which nothing is logged. -/
theorem LogStep.openCount_eq {α : Type} {F : LogFormat α} {isOpen : Thread → Bool} {t : Thread}
    {threads succ : List Thread}
    {new : List (LogRecord α)} {k : PendingOperationId} (h : LogStep F isOpen t succ new) (ht : t ∈ threads)
    (hkey : ∀ t' ∈ succ, t'.key = t.key) (hk : ∀ r ∈ new, r.key ≠ k) :
    openCount isOpen (threads.erase t ++ succ) k = openCount isOpen threads k := by
  have hcount := @openCount_advance isOpen _ _ _ ht hkey k
  cases h with
  | start a ha =>
    have hne : t.key ≠ k := ha ▸ hk _ List.mem_cons_self
    rwa [if_neg hne, if_neg hne] at hcount
  | complete =>
    have hne : t.key ≠ k := hk _ List.mem_cons_self
    rwa [if_neg hne, if_neg hne] at hcount
  | silent heq =>
    rw [heq] at hcount
    exact Nat.add_right_cancel hcount

namespace AsyncLog

variable {α : Type} {F : LogFormat α} {L : AsyncLog} {R R' : RotLog PendingOperationId α} {isOpen : Thread → Bool}
  {es : List (LogEvent PendingOperationId α)} {rs : List (LogRecord α)} {threads threads' succ : List Thread}
  {t : Thread} {k : PendingOperationId}

/-- What the two files of a log hold of a pair. -/
def recordsFor (F : LogFormat α) (L : AsyncLog) (k : PendingOperationId) : List (LogRecord α) :=
  recordsOf k (F.records (L.file 0) ++ F.records (L.file 1))

theorem PassOf.unique {p p' : Pass PendingOperationId} (h : L.PassOf p) (h' : L.PassOf p') : p = p' := by
  cases p <;> cases p' <;> cases (show L.cleaner = _ from h).symm.trans h' <;> rfl

/-- The abstract log behind the files is determined by them. -/
theorem Sim.unique (h : L.Sim F R) (h' : L.Sim F R') : R = R' := by
  have hfile : R.file = R'.file := by
    funext i
    rw [← h.records_file, ← h'.records_file]
  have hactive : R.active = R'.active := h.index.symm.trans h'.index
  have hpass : R.pass = R'.pass := h.pass.unique h'.pass
  cases R
  cases R'
  cases hfile
  cases hactive
  cases hpass
  rfl

/-- A step of the cleaner. -/
theorem Sim.logs_cleanStep (h : L.Sim F R) : ∃ R', (L.cleanStep F).Sim F R' ∧ R.Logs L.passBegun R' := by
  obtain ⟨R', hsim, hclean⟩ := h.cleanStep
  refine ⟨R', hsim, ?_⟩
  unfold passBegun
  by_cases hsleep : L.cleaner = .sleeping
  · have hp := h.pass_eq_idle hsleep
    rw [if_pos hsleep]
    cases hclean with
    | rotate => exact .rotate hp
    | rewrite hp' => cases hp.symm.trans hp'
    | relog hp' => cases hp.symm.trans hp'
    | done hp' => cases hp.symm.trans hp'
  · rw [if_neg hsleep]
    refine .clean (fun hp => hsleep ?_) hclean
    have hpass := h.pass
    rw [hp] at hpass
    exact hpass

theorem Sim.recordsFor (h : L.Sim F R) (k : PendingOperationId) :
    L.recordsFor F k = recordsOf k (R.file 0 ++ R.file 1) := by
  unfold AsyncLog.recordsFor
  rw [h.records_file, h.records_file]

/-! ### Pairs that are left alone -/

/-- What the passes since its last record have made of each pair. -/
def Ages (F : LogFormat α) (isOpen : Thread → Bool) (L : AsyncLog) (es : List (LogEvent PendingOperationId α))
    (threads : List Thread) : Prop :=
  ∃ R, L.Sim F R ∧ ∀ k, R.Aged k (openCount isOpen threads k = 1) (passesSince k es)

theorem Ages.congr (h : L.Ages F isOpen es threads)
    (hcount : ∀ k, openCount isOpen threads' k = openCount isOpen threads k) : L.Ages F isOpen es threads' := by
  obtain ⟨R, hsim, haged⟩ := h
  refine ⟨R, hsim, fun k => ?_⟩
  rw [hcount]
  exact haged k

theorem Ages.empty (isOpen : Thread → Bool) : ({} : AsyncLog).Ages F isOpen [] [] :=
  ⟨⟨fun _ => [], 0, .idle⟩, ⟨fun _ => ⟨rfl, fun _ h => by cases h⟩, rfl, rfl, rfl⟩, fun _ => trivial⟩

theorem Ages.cleanStep (h : L.Ages F isOpen es threads) (hlog : LogInv F isOpen L rs threads) :
    (L.cleanStep F).Ages F isOpen (es ++ L.passBegun) threads := by
  obtain ⟨R, hsim, haged⟩ := h
  obtain ⟨R₁, hsim₁, hcyc⟩ := hlog.cyclic
  obtain rfl := hsim.unique hsim₁
  obtain ⟨R', hsim', hlogs⟩ := hsim.logs_cleanStep
  exact ⟨R', hsim', fun k => (haged k).logs hcyc hlogs⟩

theorem Ages.advance (h : L.Ages F isOpen es threads) (hlog : LogInv F isOpen L rs threads) (ht : t ∈ threads)
    (hkey : ∀ t' ∈ succ, t'.key = t.key) {new : List (LogRecord α)} (hstep : LogStep F isOpen t succ new) :
    (L.appendAll F new).Ages F isOpen (es ++ new.map .record) (threads.erase t ++ succ) := by
  rcases hstep.one with rfl | ⟨r, rfl, hr, hkeyed⟩
  · rw [List.map_nil, List.append_nil]
    exact h.congr fun k => hstep.openCount_eq ht hkey fun r hr => absurd hr List.not_mem_nil
  · obtain ⟨R, hsim, haged⟩ := h
    obtain ⟨R₁, hsim₁, hcyc⟩ := hlog.cyclic
    obtain rfl := hsim.unique hsim₁
    refine ⟨_, hsim.write hkeyed, fun k => ?_⟩
    have hk := (haged k).logs hcyc (.append r)
    by_cases hrk : r.key = k
    · -- the pair of the record is as young as it can be
      rw [List.map_singleton, passesSince_append]
      dsimp only
      rw [if_pos hrk]
      trivial
    · rw [hstep.openCount_eq ht hkey fun r' hr' => List.mem_singleton.1 hr' ▸ hrk]
      exact hk

/-- Two passes are over since the last record of the pair. -/
def TwoPassesOver (L : AsyncLog) (passes : Nat) : Prop := 3 ≤ passes ∨ 2 ≤ passes ∧ L.cleaner = .sleeping

theorem Ages.recordsFor (h : L.Ages F isOpen es threads) (hlog : LogInv F isOpen L rs threads)
    (hpasses : L.TwoPassesOver (passesSince k es)) :
    (L.recordsFor F k).length = openCount isOpen threads k ∧ ∀ r ∈ L.recordsFor F k, r.isStart = true := by
  obtain ⟨R, hsim, haged⟩ := h
  obtain ⟨st, hst, hrep⟩ := (haged k).atRest (hpasses.imp_right fun hp => ⟨hp.1, hsim.pass_eq_idle hp.2⟩)
  rw [hsim.recordsFor, RotLog.Represents.recordsOf_files hrep]
  have honce := hlog.once k
  cases st with
  | idle =>
    have hno : openCount isOpen threads k ≠ 1 := hst
    exact ⟨by rw [show openCount isOpen threads k = 0 by omega]; rfl, fun r hr => absurd hr List.not_mem_nil⟩
  | pending a =>
    have hyes : openCount isOpen threads k = 1 := hst
    exact ⟨hyes.symm, fun r hr => List.mem_singleton.1 hr ▸ rfl⟩
  | lost => exact hst.elim

/-! ### Pairs with records between two passes -/

/-- What the passes have made of each pair whose records were made between two of them. -/
def Keeps (F : LogFormat α) (L : AsyncLog) (es : List (LogEvent PendingOperationId α)) : Prop :=
  ∃ R, L.Sim F R ∧ ∀ k, R.Bursts k (burst k es)

theorem Keeps.empty : ({} : AsyncLog).Keeps F [] :=
  ⟨⟨fun _ => [], 0, .idle⟩, ⟨fun _ => ⟨rfl, fun _ h => by cases h⟩, rfl, rfl, rfl⟩, fun _ => ⟨rfl, rfl, id⟩⟩

theorem Keeps.cleanStep (h : L.Keeps F es) : (L.cleanStep F).Keeps F (es ++ L.passBegun) := by
  obtain ⟨R, hsim, hbursts⟩ := h
  obtain ⟨R', hsim', hlogs⟩ := hsim.logs_cleanStep
  exact ⟨R', hsim', fun k => (hbursts k).logs hlogs⟩

theorem Keeps.appendAll {new : List (LogRecord α)} (h : L.Keeps F es) (hkeyed : ∀ r ∈ new, F.Keyed r) :
    (L.appendAll F new).Keeps F (es ++ new.map .record) := by
  induction new generalizing L es with
  | nil =>
    rw [List.map_nil, List.append_nil]
    exact h
  | cons r new ih =>
    obtain ⟨R, hsim, hbursts⟩ := h
    have hone : (L.write (F.encode r)).Keeps F (es ++ [.record r]) :=
      ⟨_, hsim.write (hkeyed r List.mem_cons_self), fun k => (hbursts k).logs (.append r)⟩
    rw [List.map_cons, List.append_cons]
    exact ih hone fun r' hr' => hkeyed r' (List.mem_cons_of_mem r hr')

theorem Keeps.recordsFor (h : L.Keeps F es) {w : List (LogRecord α)} (hburst : burst k es = .aged w)
    (hsleep : L.cleaner = .sleeping) : L.recordsFor F k = (replay .idle w).record k := by
  obtain ⟨R, hsim, hbursts⟩ := h
  have hk := hbursts k
  rw [hburst] at hk
  rw [hsim.recordsFor]
  exact (hk.represents (hsim.pass_eq_idle hsleep)).recordsOf_files

end AsyncLog

/-! ### Runs -/

namespace StoreProvider

variable {s s' : StoreProvider} {a : Action} {h new : List LoggerEvent}

/-- Both logs of a run whose operations of one pair do not overlap. -/
structure Aging (h : List LoggerEvent) (s : StoreProvider) : Prop where
  balanced : ∃ rs, Balanced rs s
  enqueueLog : s.aologger.enqueueLog.Ages enqueueFormat Thread.enqueueOpen (enqueueLogEvents h) s.threads
  dequeueLog : s.aologger.dequeueLog.Ages dequeueFormat Thread.dequeueOpen (dequeueLogEvents h) s.threads

theorem Empty.aging (hs : s.Empty) : Aging [] s := by
  refine ⟨⟨[], hs.balanced⟩, ?_, ?_⟩
  · rw [hs.aologger, hs.threads]
    exact AsyncLog.Ages.empty _
  · rw [hs.aologger, hs.threads]
    exact AsyncLog.Ages.empty _

theorem Aging.step (hi : Aging h s) (hsep : s.Separated a) (hst : s.passStep a = some (s', new)) :
    Aging (h ++ new) s' := by
  obtain ⟨⟨s₁, ev⟩, hstep, heq⟩ := Option.map_eq_some_iff.1 hst
  cases heq
  obtain ⟨⟨rs, hb⟩, henq, hdeq⟩ := hi
  have hb' : Balanced (rs ++ a.logs) s₁ := by
    refine hb.step hsep ?_
    unfold loggingStep
    rw [hstep]
    rfl
  have happE : enqueueLogEvents (h ++ s.loggerEvents a) = enqueueLogEvents h ++ enqueueLogEvents (s.loggerEvents a) :=
    List.filterMap_append
  have happD : dequeueLogEvents (h ++ s.loggerEvents a) = dequeueLogEvents h ++ dequeueLogEvents (s.loggerEvents a) :=
    List.filterMap_append
  cases a with
  | enqueue messageId qid m =>
    obtain ⟨-, -, rfl, -⟩ := step_enqueue hstep
    refine ⟨⟨_, hb'⟩, ?_, ?_⟩
    · exact happE ▸ (List.append_nil _).symm ▸ henq.congr (openCount_call rfl)
    · exact happD ▸ (List.append_nil _).symm ▸ hdeq.congr (openCount_call rfl)
  | dequeue pid qid =>
    obtain ⟨rfl, -⟩ := step_dequeue hstep
    refine ⟨⟨_, hb'⟩, ?_, ?_⟩
    · refine happE ▸ (List.append_nil _).symm ▸ henq.congr (openCount_call ?_)
      cases s.enableSmartAsync <;> rfl
    · refine happD ▸ (List.append_nil _).symm ▸ hdeq.congr (openCount_call ?_)
      cases s.enableSmartAsync <;> rfl
  | advance t =>
    obtain ⟨ht, rfl, -⟩ := step_advance hstep
    refine ⟨⟨_, hb'⟩, ?_, ?_⟩ <;> rw [show (_ : StoreProvider).aologger = _ from aologger_runThread s t]
    · rw [happE, show enqueueLogEvents (s.loggerEvents (.advance t)) = _ from enqueueLogEvents_logs t.logs]
      refine henq.advance hb.enqueueLog ht (fun t' => key_of_mem_runThread) (enqueueLog_step ?_)
      rintro pid qid rfl
      exact hb.steady.completing pid qid ht
    · rw [happD, show dequeueLogEvents (s.loggerEvents (.advance t)) = _ from dequeueLogEvents_logs t.logs]
      refine hdeq.advance hb.dequeueLog ht (fun t' => key_of_mem_runThread) (dequeueLog_step ?_)
      rintro pid qid rfl
      exact hb.steady.leaving pid qid ht
  | cleanEnqueueLog =>
    cases hstep
    refine ⟨⟨_, hb'⟩, ?_, ?_⟩
    · rw [happE, show enqueueLogEvents (s.loggerEvents .cleanEnqueueLog) = _ from enqueueLogEvents_enqueueLog _]
      exact henq.cleanStep hb.enqueueLog
    · rw [happD, show dequeueLogEvents (s.loggerEvents .cleanEnqueueLog) = _ from dequeueLogEvents_enqueueLog _,
        List.append_nil]
      exact hdeq
  | cleanDequeueLog =>
    cases hstep
    refine ⟨⟨_, hb'⟩, ?_, ?_⟩
    · rw [happE, show enqueueLogEvents (s.loggerEvents .cleanDequeueLog) = _ from enqueueLogEvents_dequeueLog _,
        List.append_nil]
      exact henq
    · rw [happD, show dequeueLogEvents (s.loggerEvents .cleanDequeueLog) = _ from dequeueLogEvents_dequeueLog _]
      exact hdeq.cleanStep hb.dequeueLog

/-- Both logs of any run. -/
structure Keeping (h : List LoggerEvent) (s : StoreProvider) : Prop where
  enqueueLog : s.aologger.enqueueLog.Keeps enqueueFormat (enqueueLogEvents h)
  dequeueLog : s.aologger.dequeueLog.Keeps dequeueFormat (dequeueLogEvents h)

theorem Empty.keeping (hs : s.Empty) : Keeping [] s := by
  refine ⟨?_, ?_⟩ <;> rw [hs.aologger] <;> exact AsyncLog.Keeps.empty

/-- What a thread logs carries its pair. -/
private theorem keyed_logs (t : Thread) :
    (∀ r ∈ enqueueRecords t.logs, enqueueFormat.Keyed r) ∧ ∀ r ∈ dequeueRecords t.logs, dequeueFormat.Keyed r := by
  have hone : ∀ {β : Type} {F : LogFormat β} {r : LogRecord β}, F.Keyed r → ∀ r' ∈ [r], F.Keyed r' := by
    intro β F r hr r' hr'
    rwa [List.mem_singleton.1 hr']
  have hnone : ∀ {β : Type} {F : LogFormat β}, ∀ r ∈ ([] : List (LogRecord β)), F.Keyed r := fun r hr =>
    absurd hr List.not_mem_nil
  cases t with
  | enqueue pc pae =>
    cases pc with
    | logStart => exact ⟨hone rfl, hnone⟩
    | _ => exact ⟨hnone, hnone⟩
  | store pc pae =>
    cases pc with
    | logComplete => exact ⟨hone trivial, hnone⟩
    | _ => exact ⟨hnone, hnone⟩
  | dequeue pc pid qid =>
    cases pc with
    | logStart => exact ⟨hnone, hone rfl⟩
    | logEnqueueComplete => exact ⟨hone trivial, hnone⟩
    | _ => exact ⟨hnone, hnone⟩
  | asyncDequeue pc pid qid =>
    cases pc with
    | logComplete => exact ⟨hnone, hone trivial⟩
    | _ => exact ⟨hnone, hnone⟩

theorem Keeping.step (hi : Keeping h s) (hst : s.passStep a = some (s', new)) : Keeping (h ++ new) s' := by
  obtain ⟨⟨s₁, ev⟩, hstep, heq⟩ := Option.map_eq_some_iff.1 hst
  cases heq
  obtain ⟨henq, hdeq⟩ := hi
  have happE : enqueueLogEvents (h ++ s.loggerEvents a) = enqueueLogEvents h ++ enqueueLogEvents (s.loggerEvents a) :=
    List.filterMap_append
  have happD : dequeueLogEvents (h ++ s.loggerEvents a) = dequeueLogEvents h ++ dequeueLogEvents (s.loggerEvents a) :=
    List.filterMap_append
  cases a with
  | enqueue messageId qid m =>
    obtain ⟨-, -, rfl, -⟩ := step_enqueue hstep
    exact ⟨happE ▸ (List.append_nil _).symm ▸ henq, happD ▸ (List.append_nil _).symm ▸ hdeq⟩
  | dequeue pid qid =>
    obtain ⟨rfl, -⟩ := step_dequeue hstep
    exact ⟨happE ▸ (List.append_nil _).symm ▸ henq, happD ▸ (List.append_nil _).symm ▸ hdeq⟩
  | advance t =>
    obtain ⟨ht, rfl, -⟩ := step_advance hstep
    refine ⟨?_, ?_⟩ <;> rw [show (_ : StoreProvider).aologger = _ from aologger_runThread s t]
    · rw [happE, show enqueueLogEvents (s.loggerEvents (.advance t)) = _ from enqueueLogEvents_logs t.logs]
      exact henq.appendAll (keyed_logs t).1
    · rw [happD, show dequeueLogEvents (s.loggerEvents (.advance t)) = _ from dequeueLogEvents_logs t.logs]
      exact hdeq.appendAll (keyed_logs t).2
  | cleanEnqueueLog =>
    cases hstep
    refine ⟨?_, ?_⟩
    · rw [happE, show enqueueLogEvents (s.loggerEvents .cleanEnqueueLog) = _ from enqueueLogEvents_enqueueLog _]
      exact henq.cleanStep
    · rw [happD, show dequeueLogEvents (s.loggerEvents .cleanEnqueueLog) = _ from dequeueLogEvents_enqueueLog _,
        List.append_nil]
      exact hdeq
  | cleanDequeueLog =>
    cases hstep
    refine ⟨?_, ?_⟩
    · rw [happE, show enqueueLogEvents (s.loggerEvents .cleanDequeueLog) = _ from enqueueLogEvents_dequeueLog _,
        List.append_nil]
      exact henq
    · rw [happD, show dequeueLogEvents (s.loggerEvents .cleanDequeueLog) = _ from dequeueLogEvents_dequeueLog _]
      exact hdeq.cleanStep

end StoreProvider

/-- In every run from an empty store in which operations of one pair do not overlap, no operation is started during a
pass while the log or the cleaner still hold something of its pair, and no dequeue takes a message from its store
task, and for every pair: once two passes of the cleaner of a log are over since the last record of the pair, this
log holds the start record of the pair if its operation is open, and otherwise nothing of it. -/
theorem logs_forget_completed {s₀ s : StoreProvider} {h : List LoggerEvent} (hs₀ : s₀.Empty)
    (hrun : Run StoreProvider.passStep (fun _ s a => s.Separated a) s₀ h s) (k : PendingOperationId) :
    (s.aologger.enqueueLog.TwoPassesOver (passesSince k (enqueueLogEvents h)) →
      (s.aologger.enqueueLog.recordsFor enqueueFormat k).length = openCount Thread.enqueueOpen s.threads k ∧
        ∀ r ∈ s.aologger.enqueueLog.recordsFor enqueueFormat k, r.isStart = true) ∧
    (s.aologger.dequeueLog.TwoPassesOver (passesSince k (dequeueLogEvents h)) →
      (s.aologger.dequeueLog.recordsFor dequeueFormat k).length = openCount Thread.dequeueOpen s.threads k ∧
        ∀ r ∈ s.aologger.dequeueLog.recordsFor dequeueFormat k, r.isStart = true) := by
  have hi : Aging h s := by
    refine hrun.invariant (I := Aging) hs₀.aging ?_
    exact fun _ _ _ _ _ hi hsep hst => hi.step hsep hst
  obtain ⟨⟨rs, hb⟩, henq, hdeq⟩ := hi
  exact ⟨henq.recordsFor hb.enqueueLog, hdeq.recordsFor hb.dequeueLog⟩

/-- The steps of a call of `enqueue` in the smart mode, and of its task, on message 1 and queue 1. -/
private def callSteps (pcs : List EnqueuePc) : List Action :=
  pcs.map fun pc => .advance (.enqueue pc (smallMessage.pending 1 1))

private def taskSteps (pcs : List StorePc) : List Action :=
  pcs.map fun pc => .advance (.store pc (smallMessage.pending 1 1))

/-- A pass begins between the start and the completion; two passes follow. -/
private def storedAcrossPass : List Action :=
  .enqueue 0 1 smallMessage :: callSteps [.logStart] ++ List.replicate 3 .cleanEnqueueLog ++
    callSteps [.willEnqueue, .schedule] ++
    taskSteps [.check, .put, .logComplete, .addPidDup, .addPidMain] ++ List.replicate 7 .cleanEnqueueLog

theorem logs_forget_completed_storedAcrossPass :
    let r := Run.exec StoreProvider.passStep [] (singleQueue true) storedAcrossPass
    passesSince (1, 1) (enqueueLogEvents r.1) = 2 ∧
      (r.2.aologger.enqueueLog.recordsFor enqueueFormat (1, 1)).length = 0 := by
  have hallowed : Run.Allowed StoreProvider.passStep (fun _ s a => s.Separated a) []
      (singleQueue true) storedAcrossPass := by
    decide +kernel
  have hpasses : passesSince (1, 1)
      (enqueueLogEvents (Run.exec StoreProvider.passStep [] (singleQueue true) storedAcrossPass).1) = 2 := by
    decide +kernel
  have hsleep : (Run.exec StoreProvider.passStep [] (singleQueue true)
      storedAcrossPass).2.aologger.enqueueLog.cleaner = .sleeping := by
    decide +kernel
  have hforget := (logs_forget_completed (empty_singleQueue true) (Run.exec_of_allowed Run.nil hallowed) (1, 1)).1
    (Or.inr ⟨hpasses ▸ le_refl 2, hsleep⟩)
  exact ⟨hpasses, hforget.1.trans (by decide +kernel)⟩

/-- In every run from an empty store, whatever the broker calls, and for every pair whose records in a log were all
made between two passes of its cleaner: after each later pass the log holds the record that replaying them gives,
and no other.  After a start and two completions, which is what an enqueue leaves whose message is dequeued before
it is stored, this is a completion. -/
theorem pass_keeps_outcome {s₀ s : StoreProvider} {h : List LoggerEvent} (hs₀ : s₀.Empty)
    (hrun : Run StoreProvider.passStep (fun _ _ _ => True) s₀ h s) (k : PendingOperationId) :
    (∀ w, burst k (enqueueLogEvents h) = .aged w → s.aologger.enqueueLog.cleaner = .sleeping →
      s.aologger.enqueueLog.recordsFor enqueueFormat k = (replay .idle w).record k) ∧
    (∀ w, burst k (dequeueLogEvents h) = .aged w → s.aologger.dequeueLog.cleaner = .sleeping →
      s.aologger.dequeueLog.recordsFor dequeueFormat k = (replay .idle w).record k) := by
  have hi : Keeping h s := by
    refine hrun.invariant (I := Keeping) hs₀.keeping ?_
    exact fun _ _ _ _ _ hi _ hst => hi.step hst
  exact ⟨fun w => hi.enqueueLog.recordsFor, fun w => hi.dequeueLog.recordsFor⟩

/-- A dequeue takes the message from its store task; two passes follow. -/
private def skippedBeforePass : List Action :=
  .enqueue 0 1 smallMessage :: callSteps [.logStart, .willEnqueue, .schedule] ++
    [.dequeue 1 1, .advance (.dequeue .check 1 1), .advance (.dequeue .logEnqueueComplete 1 1)] ++
    taskSteps [.check, .logComplete, .addPidDup, .addPidMain] ++ List.replicate 8 .cleanEnqueueLog

theorem pass_keeps_outcome_skippedBeforePass :
    let r := Run.exec StoreProvider.passStep [] (singleQueue true) skippedBeforePass
    r.2.threads = [] ∧ r.2.aologger.enqueueLog.recordsFor enqueueFormat (1, 1) = [.complete (1, 1)] := by
  have hallowed : Run.Allowed StoreProvider.passStep (fun _ _ _ => True) [] (singleQueue true) skippedBeforePass := by
    decide +kernel
  have hburst : burst (1, 1)
      (enqueueLogEvents (Run.exec StoreProvider.passStep [] (singleQueue true) skippedBeforePass).1) =
        .aged [.start (1, 1) (smallMessage.pending 1 1), .complete (1, 1), .complete (1, 1)] := by
    rfl
  have hsleep : (Run.exec StoreProvider.passStep [] (singleQueue true)
      skippedBeforePass).2.aologger.enqueueLog.cleaner = .sleeping := by
    decide +kernel
  exact ⟨by decide +kernel,
    (pass_keeps_outcome (empty_singleQueue true) (Run.exec_of_allowed Run.nil hallowed) (1, 1)).1 _ hburst hsleep⟩

end BdbMsgStore

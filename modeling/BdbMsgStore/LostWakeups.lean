import BdbMsgStore.PidTracker
import BdbMsgStore.Lib.Wakeups
import BdbMsgStore.Lib.Runs

/-!
# Waiting for an id

Calls of `addPid`, `waitForPid` and `stop` on one `PidTracker`, any number of them at once, cut at their lock
boundaries.  A test of `waitForPid` and the wait that follows it are one step, since the mutex is released by the wait
itself; `addPid` and `stop` notify after they have released their locks.

`addPid` owes a notification for each reason to wait that it takes away, so it loses no wake-up.  `stop` does not
take the mutexes of the two conditions, and `waitForPid` looks at `stopped` only after a wait: a call that comes to
its wait after `stop` has notified sleeps for good (`asleep_after_stop`).  No wake-up is lost exactly in the runs in
which no call goes to sleep when it is stopped and nobody is going to notify it (`no_lost_wakeup_iff`).
-/

namespace BdbMsgStore

/-- The condition variables of the tracker. -/
inductive CondVar where
  | duplicateNotEnqueued
  | notYetEnqueued
  deriving DecidableEq, Repr

/-- Where a call of `addPid` stands. -/
inductive AddPc where
  | dupRegion
  | notifyDup
  | mainRegion
  | notifyMain
  | returned (updated : Bool)
  deriving DecidableEq, Repr

/-- Where a call of `stop` stands. -/
inductive StopPc where
  | setStopped
  | notifyMain
  | notifyDup
  | returned
  deriving DecidableEq, Repr

/-- A call on the tracker; `asleep` says that a call of `waitForPid` is blocked in `wait` and was not notified. -/
inductive Call where
  | waitForPid (pid qid : UInt64) (pc : WaitPc) (asleep : Bool)
  | addPid (pid qid : UInt64) (pc : AddPc)
  | stop (pc : StopPc)
  deriving DecidableEq, Repr

/-- The condition variable of a wait. -/
def WaitPc.condVar? : WaitPc → Option CondVar
  | .dupWait _ => some .duplicateNotEnqueued
  | .mainWait _ => some .notYetEnqueued
  | _ => none

namespace Call

def asleepOn (cv : CondVar) : Call → Bool
  | .waitForPid _ _ pc asleep => asleep && pc.condVar? = some cv
  | _ => false

/-- The reason to wait is gone. -/
def gone (t : PidTracker) : Call → Prop
  | .waitForPid pid qid (.dupWait _) _ => t.stopped = true ∨ t.isDuplicate pid qid = false
  | .waitForPid pid _ (.mainWait _) _ => t.stopped = true ∨ pid ≤ t.mainRecord.lastPid
  | _ => False

/-- The call has made its update and still has to notify the variable. -/
def owes (cv : CondVar) : Call → Bool
  | .addPid _ _ .notifyDup => true
  | .addPid _ _ .notifyMain => cv = .notYetEnqueued
  | .stop .notifyMain => true
  | .stop .notifyDup => cv = .duplicateNotEnqueued
  | _ => false

/-- The effect of `notify_all` on a call. -/
def wake (cv : CondVar) : Call → Call
  | .waitForPid pid qid pc asleep => .waitForPid pid qid pc (asleep && pc.condVar? ≠ some cv)
  | c => c

/-- The next step of a call: the tracker after it, where the call stands then, and the condition variable it notifies;
`none` for a call that is asleep or has returned. -/
def step (t : PidTracker) : Call → Option (PidTracker × Call × Option CondVar)
  | .waitForPid _ _ (.returned _) _ => none
  | .waitForPid pid qid pc asleep =>
    if asleep then none
    else some (t, .waitForPid pid qid (t.waitForPid pid qid pc) (t.waitForPid pid qid pc).condVar?.isSome, none)
  | .addPid pid qid .dupRegion =>
    some ((t.addPidDup pid qid).2, .addPid pid qid (if (t.addPidDup pid qid).1 then .notifyDup else .mainRegion),
      none)
  | .addPid pid qid .notifyDup => some (t, .addPid pid qid .notifyMain, some .duplicateNotEnqueued)
  | .addPid pid qid .mainRegion =>
    some (t.addPidMain pid, .addPid pid qid (if (t.mainRecord.addPid pid).1 then .notifyMain else .returned false),
      none)
  | .addPid pid qid .notifyMain => some (t, .addPid pid qid (.returned true), some .notYetEnqueued)
  | .addPid _ _ (.returned _) => none
  | .stop .setStopped => some ({ t with stopped := true }, .stop .notifyMain, none)
  | .stop .notifyMain => some (t, .stop .notifyDup, some .notYetEnqueued)
  | .stop .notifyDup => some (t, .stop .returned, some .duplicateNotEnqueued)
  | .stop .returned => none

/-- The condition variable on which the next step of a call makes it sleep: its pair is registered as a duplicate,
or its id is above the watermark. -/
def goesToSleep (t : PidTracker) : Call → Option CondVar
  | .waitForPid pid qid (.dupTest _) _ => if t.isDuplicate pid qid then some .duplicateNotEnqueued else none
  | .waitForPid pid _ (.mainTest _) _ => if pid > t.mainRecord.lastPid then some .notYetEnqueued else none
  | _ => none

end Call

/-- The condition variables of the tracker and the calls on it. -/
def trackerVars : CondVars CondVar PidTracker Call where
  asleepOn := Call.asleepOn
  gone := Call.gone
  owes := Call.owes
  wake := Call.wake
  asleepOn_wake_self cv c := by cases c <;> simp [Call.asleepOn, Call.wake]
  asleepOn_of_wake {cv cv' c} h := by
    cases c with
    | waitForPid pid qid pc asleep =>
      simp only [Call.asleepOn, Call.wake, Bool.and_eq_true] at h ⊢
      exact ⟨h.1.1, h.2⟩
    | addPid pid qid pc => exact h
    | stop pc => exact h
  gone_of_wake {cv t c} h := by
    cases c with
    | waitForPid pid qid pc asleep => cases pc <;> exact h
    | addPid pid qid pc => exact h
    | stop pc => exact h
  owes_wake cv cv' c := by cases c <;> rfl

/-! ### The tracker and its calls -/

structure TrackerSystem where
  tracker : PidTracker
  calls : List Call := []
  deriving DecidableEq

/-- What happens next: a call begins, `addDuplicate` is called and returns, or a call makes a step. -/
inductive TrackerAction where
  | waitForPid (pid qid : UInt64)
  | addPid (pid qid : UInt64)
  | addDuplicate (pid qid : UInt64)
  | stop
  | advance (i : Nat)
  deriving DecidableEq, Repr

def Call.isStop : Call → Bool
  | .stop _ => true
  | _ => false

namespace TrackerSystem

variable (s : TrackerSystem)

/-- One step; the events of a run are its actions.  `stop` is called once. -/
def step : TrackerAction → Option (TrackerSystem × List TrackerAction)
  | .waitForPid pid qid =>
    some ({ s with calls := s.calls ++ [.waitForPid pid qid (.dupTest 0) false] }, [.waitForPid pid qid])
  | .addPid pid qid => some ({ s with calls := s.calls ++ [.addPid pid qid .dupRegion] }, [.addPid pid qid])
  | .addDuplicate pid qid => some ({ s with tracker := s.tracker.addDuplicate pid qid }, [.addDuplicate pid qid])
  | .stop =>
    if s.calls.any Call.isStop then none
    else some ({ s with calls := s.calls ++ [.stop .setStopped] }, [.stop])
  | .advance i =>
    match s.calls[i]? with
    | none => none
    | some c =>
      match c.step s.tracker with
      | none => none
      | some (t, c', n) => some ({ tracker := t, calls := trackerVars.notify n (s.calls.set i c') }, [.advance i])

/-- A call that goes to sleep is not stopped, or some call still has to notify it. -/
def mayWait : TrackerAction → Bool
  | .advance i =>
    match s.calls[i]?.bind (Call.goesToSleep s.tracker) with
    | some cv => !s.tracker.stopped || trackerVars.owed cv s.calls
    | none => true
  | _ => true

/-- Every call that is asleep although its reason to wait is gone will be notified by a running call. -/
def NoLostWakeup : Prop := trackerVars.NoLost s.tracker s.calls

end TrackerSystem

/-! ### The steps of `addPid` and `stop` -/

/-- The watermark moves only when `addPid` reports an update. -/
theorem PidRecord.lastPid_of_not_updated {r : PidRecord} {pid : UInt64} (h : (r.addPid pid).1 = false) :
    (r.addPid pid).2.lastPid = r.lastPid := by
  unfold addPid at h ⊢
  by_cases hgap : Words.castInt (pid - r.lastPid) > 1
  · rw [if_pos hgap]
    split <;> rfl
  · rw [if_neg hgap] at h
    cases h

namespace Call

variable {t t' : PidTracker} {c c' : Call} {n : Option CondVar}

/-- A call that sleeps on a condition variable stands at its wait. -/
theorem asleepOn_cases {cv : CondVar} (h : c.asleepOn cv = true) :
    ∃ pid qid m, (cv = .duplicateNotEnqueued ∧ c = .waitForPid pid qid (.dupWait m) true) ∨
      (cv = .notYetEnqueued ∧ c = .waitForPid pid qid (.mainWait m) true) := by
  cases c with
  | waitForPid pid qid pc asleep =>
    unfold asleepOn at h
    rw [Bool.and_eq_true] at h
    obtain ⟨rfl, hcv⟩ := h
    cases pc with
    | dupWait m => exact ⟨pid, qid, m, Or.inl ⟨(by simpa [WaitPc.condVar?] using hcv : _ = cv).symm, rfl⟩⟩
    | mainWait m => exact ⟨pid, qid, m, Or.inr ⟨(by simpa [WaitPc.condVar?] using hcv : _ = cv).symm, rfl⟩⟩
    | dupTest m => simp [WaitPc.condVar?] at hcv
    | mainTest m => simp [WaitPc.condVar?] at hcv
    | returned r => simp [WaitPc.condVar?] at hcv
  | addPid pid qid pc => cases h
  | stop pc => cases h

/-- What a step of `addPid` or `stop` owes afterwards: all it owed before and did not pay, and a notification for
every reason it has taken away. -/
theorem step_owes (hc : ∀ pid qid pc asleep, c ≠ .waitForPid pid qid pc asleep) (h : c.step t = some (t', c', n)) :
    (∀ cv, n ≠ some cv → c.owes cv = true → c'.owes cv = true) ∧
      (∀ cv (d : Call), n ≠ some cv → d.asleepOn cv = true → d.gone t' → d.gone t ∨ c'.owes cv = true) ∧
      ∀ cv, c'.asleepOn cv = false := by
  cases c with
  | waitForPid pid qid pc asleep => exact absurd rfl (hc pid qid pc asleep)
  | addPid pid qid pc =>
    cases pc with
    | dupRegion =>
      cases h
      by_cases hdup : (t.addPidDup pid qid).1 = true
      · simp only [hdup, ↓reduceIte]
        exact ⟨fun _ _ _ => rfl, fun _ _ _ _ _ => Or.inr rfl, fun _ => rfl⟩
      · -- not a duplicate: the tracker is as before
        have hsame : (t.addPidDup pid qid).2 = t := by
          rw [PidTracker.addPidDup_fst] at hdup
          unfold PidTracker.addPidDup
          rw [if_neg hdup]
        rw [hsame]
        exact ⟨fun _ _ howes => (nomatch howes), fun _ _ _ _ hgone => Or.inl hgone, fun _ => rfl⟩
    | notifyDup =>
      cases h
      refine ⟨fun cv hcv _ => ?_, fun _ _ _ _ hgone => Or.inl hgone, fun _ => rfl⟩
      cases cv with
      | duplicateNotEnqueued => exact absurd rfl hcv
      | notYetEnqueued => rfl
    | mainRegion =>
      cases h
      refine ⟨fun _ _ howes => (nomatch howes), fun cv d _ hasleep hgone => ?_, fun _ => rfl⟩
      obtain ⟨p, q, m, ⟨rfl, rfl⟩ | ⟨rfl, rfl⟩⟩ := asleepOn_cases hasleep
      · exact Or.inl (by simpa [gone, PidTracker.addPidMain, PidTracker.isDuplicate] using hgone)
      · by_cases hupdated : (t.mainRecord.addPid pid).1 = true
        · rw [if_pos hupdated]
          exact Or.inr rfl
        · have hlast := PidRecord.lastPid_of_not_updated (Bool.eq_false_iff.2 hupdated)
          exact Or.inl (by simpa [gone, PidTracker.addPidMain, hlast] using hgone)
    | notifyMain =>
      cases h
      refine ⟨fun cv hcv howes => ?_, fun _ _ _ _ hgone => Or.inl hgone, fun _ => rfl⟩
      cases cv with
      | duplicateNotEnqueued => cases howes
      | notYetEnqueued => exact absurd rfl hcv
    | returned updated => cases h
  | stop pc =>
    cases pc with
    | setStopped =>
      cases h
      exact ⟨fun _ _ _ => rfl, fun _ _ _ _ _ => Or.inr rfl, fun _ => rfl⟩
    | notifyMain =>
      cases h
      refine ⟨fun cv hcv _ => ?_, fun _ _ _ _ hgone => Or.inl hgone, fun _ => rfl⟩
      cases cv with
      | duplicateNotEnqueued => rfl
      | notYetEnqueued => exact absurd rfl hcv
    | notifyDup =>
      cases h
      refine ⟨fun cv hcv howes => ?_, fun _ _ _ _ hgone => Or.inl hgone, fun _ => rfl⟩
      cases cv with
      | duplicateNotEnqueued => exact absurd rfl hcv
      | notYetEnqueued => cases howes
    | returned => cases h

/-- A step of `waitForPid` leaves the tracker alone and notifies nobody. -/
theorem step_waitForPid {pid qid : UInt64} {pc : WaitPc} {asleep : Bool}
    (h : (Call.waitForPid pid qid pc asleep).step t = some (t', c', n)) :
    t' = t ∧ n = none ∧
      c' = .waitForPid pid qid (t.waitForPid pid qid pc) (t.waitForPid pid qid pc).condVar?.isSome := by
  cases asleep with
  | true => cases pc <;> cases h
  | false =>
    cases pc with
    | returned r => cases h
    | _ => cases h; exact ⟨rfl, rfl, rfl⟩

/-- The call sleeps after the step as `goesToSleep` says. -/
theorem condVar?_waitForPid (pid qid : UInt64) (pc : WaitPc) (asleep : Bool) :
    (t.waitForPid pid qid pc).condVar? = (Call.waitForPid pid qid pc asleep).goesToSleep t := by
  cases pc with
  | dupTest m =>
    rw [PidTracker.waitForPid, goesToSleep]
    by_cases hdup : t.isDuplicate pid qid = true
    · rw [if_pos hdup, if_pos hdup]
      rfl
    · rw [if_neg hdup, if_neg hdup]
      split <;> rfl
  | mainTest m =>
    rw [PidTracker.waitForPid, goesToSleep]
    split <;> rfl
  | dupWait m =>
    rw [PidTracker.waitForPid]
    split
    · rfl
    · split <;> rfl
  | mainWait m =>
    rw [PidTracker.waitForPid]
    split
    · rfl
    · split <;> rfl
  | returned r => rfl

/-- A call that has just gone to sleep has a reason, which only `stopped` takes away. -/
theorem gone_waitForPid {pid qid : UInt64} {pc : WaitPc} {cv : CondVar} {asleep asleep' : Bool}
    (h : (Call.waitForPid pid qid pc asleep').goesToSleep t = some cv) :
    (Call.waitForPid pid qid (t.waitForPid pid qid pc) asleep).gone t ↔ t.stopped = true := by
  cases pc with
  | dupTest m =>
    rw [goesToSleep] at h
    split at h
    · rename_i hdup
      simp [PidTracker.waitForPid, hdup, gone]
    · cases h
  | mainTest m =>
    rw [goesToSleep] at h
    split at h
    · rename_i hlast
      have hnot : ¬ pid ≤ t.mainRecord.lastPid := not_le.2 hlast
      simp [PidTracker.waitForPid, hlast, gone, hnot]
    · cases h
  | dupWait m => cases h
  | mainWait m => cases h
  | returned r => cases h

end Call

/-! ### The steps of the system -/

namespace TrackerSystem

variable {s s' : TrackerSystem} {a : TrackerAction} {ev : List TrackerAction}

/-- `addDuplicate` only adds reasons to wait. -/
private theorem gone_of_addDuplicate {t : PidTracker} {pid qid : UInt64} {c : Call}
    (h : c.gone (t.addDuplicate pid qid)) : c.gone t := by
  cases c with
  | waitForPid p q pc asleep =>
    cases pc with
    | dupWait m =>
      rcases h with h | h
      · exact Or.inl h
      · rw [PidTracker.isDuplicate_addDuplicate] at h
        split at h
        · cases h
        · exact Or.inr h
    | mainWait m => exact h
    | _ => exact h
  | addPid p q pc => exact h
  | stop pc => exact h

/-- The step of a call of `waitForPid` keeps the property exactly when the call may wait. -/
private theorem noLost_set_iff (h : s.NoLostWakeup) {i : Nat} {pid qid : UInt64} {pc : WaitPc} {asleep : Bool}
    (hi : s.calls[i]? = some (.waitForPid pid qid pc asleep)) {c' : Call}
    (hc' : c' = .waitForPid pid qid (s.tracker.waitForPid pid qid pc)
      (s.tracker.waitForPid pid qid pc).condVar?.isSome) :
    trackerVars.NoLost s.tracker (s.calls.set i c') ↔ s.mayWait (.advance i) = true := by
  have hlt : i < s.calls.length := (List.getElem?_eq_some_iff.1 hi).1
  have hsleeps : ∀ cv, c'.asleepOn cv = true ↔
      (Call.waitForPid pid qid pc asleep).goesToSleep s.tracker = some cv := by
    intro cv
    rw [hc', ← Call.condVar?_waitForPid, Call.asleepOn]
    cases (s.tracker.waitForPid pid qid pc).condVar? <;> simp
  have hgone : ∀ {cv}, (Call.waitForPid pid qid pc asleep).goesToSleep s.tracker = some cv →
      (c'.gone s.tracker ↔ s.tracker.stopped = true) := by
    intro cv hcv
    rw [hc']
    exact Call.gone_waitForPid hcv
  have howed : ∀ cv, trackerVars.owed cv (s.calls.set i c') = trackerVars.owed cv s.calls := by
    intro cv
    rw [hc']
    exact CondVars.owed_set_of_eq hi rfl
  rw [mayWait, hi, Option.bind_some]
  cases hcv : (Call.waitForPid pid qid pc asleep).goesToSleep s.tracker with
  | none =>
    refine ⟨fun _ => rfl, fun _ => ?_⟩
    refine h.advance (n := none) hi (fun k _ howes => nomatch howes) (fun _ _ _ _ hgone => Or.inl hgone) ?_
    intro k hasleep _
    rw [(hsleeps k).1 hasleep] at hcv
    cases hcv
  | some cv =>
    simp only [Bool.or_eq_true, Bool.not_eq_true']
    constructor
    · intro hset
      by_cases hstop : s.tracker.stopped = true
      · have := hset cv c' (List.mem_set hlt _) ((hsleeps cv).2 hcv) ((hgone hcv).2 hstop)
        rw [howed] at this
        exact Or.inr this
      · exact Or.inl (Bool.eq_false_iff.2 hstop)
    · intro hmay
      refine h.advance (n := none) hi (fun k _ howes => nomatch howes) (fun _ _ _ _ hgone => Or.inl hgone) ?_
      intro k hasleep hg
      have hk := (hsleeps k).1 hasleep
      rw [hcv] at hk
      cases hk
      rcases hmay with hrun | hdebt
      · rw [(hgone hcv).1 hg] at hrun
        cases hrun
      · rw [howed]
        exact hdebt

/-- The step of a call. -/
theorem step_advance {i : Nat} (hst : s.step (.advance i) = some (s', ev)) :
    ∃ c t c' n, s.calls[i]? = some c ∧ c.step s.tracker = some (t, c', n) ∧
      s' = { tracker := t, calls := trackerVars.notify n (s.calls.set i c') } := by
  rw [step] at hst
  cases hi : s.calls[i]? with
  | none => rw [hi] at hst; cases hst
  | some c =>
    rw [hi] at hst
    dsimp only at hst
    cases hc : c.step s.tracker with
    | none => rw [hc] at hst; cases hst
    | some r =>
      rw [hc] at hst
      cases hst
      exact ⟨c, r.1, r.2.1, r.2.2, rfl, hc, rfl⟩

/-- A step of `addPid` or `stop` keeps the property. -/
private theorem noLost_advance (h : s.NoLostWakeup) {i : Nat} {c c' : Call} {t : PidTracker} {n : Option CondVar}
    (hne : ∀ pid qid pc asleep, c ≠ .waitForPid pid qid pc asleep) (hi : s.calls[i]? = some c)
    (hc : c.step s.tracker = some (t, c', n)) : trackerVars.NoLost t (trackerVars.notify n (s.calls.set i c')) := by
  obtain ⟨hpaid, htaken, hawake⟩ := Call.step_owes hne hc
  refine h.advance hi hpaid htaken fun cv hasleep _ => ?_
  have hfalse : c'.asleepOn cv = false := hawake cv
  rw [show c'.asleepOn cv = true from hasleep] at hfalse
  cases hfalse

/-- A step keeps the property exactly when it puts no call to sleep that is stopped and that nobody is going to
notify. -/
theorem noLostWakeup_step_iff (h : s.NoLostWakeup) (hst : s.step a = some (s', ev)) :
    s'.NoLostWakeup ↔ s.mayWait a = true := by
  cases a with
  | waitForPid pid qid =>
    cases hst
    exact ⟨fun _ => rfl, fun _ => h.append fun _ => rfl⟩
  | addPid pid qid =>
    cases hst
    exact ⟨fun _ => rfl, fun _ => h.append fun _ => rfl⟩
  | addDuplicate pid qid =>
    cases hst
    exact ⟨fun _ => rfl, fun _ => h.share fun _ => gone_of_addDuplicate⟩
  | stop =>
    rw [step] at hst
    split at hst
    · cases hst
    · cases hst
      exact ⟨fun _ => rfl, fun _ => h.append fun _ => rfl⟩
  | advance i =>
    obtain ⟨c, t, c', n, hi, hc, rfl⟩ := step_advance hst
    cases c with
    | waitForPid pid qid pc asleep =>
      obtain ⟨rfl, rfl, hc'⟩ := Call.step_waitForPid hc
      exact noLost_set_iff h hi hc'
    | addPid pid qid pc =>
      have hmay : s.mayWait (.advance i) = true := by
        rw [mayWait, hi]
        rfl
      exact ⟨fun _ => hmay, fun _ => noLost_advance h (fun _ _ _ _ => by simp) hi hc⟩
    | stop pc =>
      have hmay : s.mayWait (.advance i) = true := by
        rw [mayWait, hi]
        rfl
      exact ⟨fun _ => hmay, fun _ => noLost_advance h (fun _ _ _ _ => by simp) hi hc⟩

/-- When the tracker is stopped and all notifications have been issued, no call is asleep. -/
theorem NoLostWakeup.awake (h : s.NoLostWakeup) (hstop : s.tracker.stopped = true)
    (hissued : ∀ cv, trackerVars.owed cv s.calls = false) {c : Call} (hc : c ∈ s.calls) (cv : CondVar) :
    c.asleepOn cv = false := by
  rw [Bool.eq_false_iff]
  intro hasleep
  have hgone : c.gone s.tracker := by
    obtain ⟨pid, qid, m, ⟨-, rfl⟩ | ⟨-, rfl⟩⟩ := Call.asleepOn_cases hasleep
    · exact Or.inl hstop
    · exact Or.inl hstop
  have howed := h cv c hc hasleep hgone
  rw [hissued cv] at howed
  cases howed

/-- In every interleaving of calls, no wake-up is lost in any state exactly when no call goes to sleep that is stopped
and that nobody is going to notify. -/
theorem no_lost_wakeup_iff (tracker : PidTracker) (acts : List TrackerAction)
    (hacts : Run.Allowed step (fun _ _ _ => True) [] { tracker } acts) :
    (∀ pre, pre <+: acts → (Run.exec step [] { tracker } pre).2.NoLostWakeup) ↔
      Run.Allowed step (fun _ s a => s.mayWait a = true) [] { tracker } acts := by
  have hnone : NoLostWakeup { tracker } := CondVars.noLost_nil
  have hstep : ∀ (h : List TrackerAction) s a s' ev, NoLostWakeup s → step s a = some (s', ev) →
      (NoLostWakeup s' ↔ s.mayWait a = true) := fun _ _ _ _ _ h hst => noLostWakeup_step_iff h hst
  exact Run.allowed_iff_of_step_iff hstep hnone hacts

/-- A call waits for message 1, which is then stored, and another call waits while `stop` is called. -/
theorem no_lost_wakeup_stored_and_stopped :
    let acts : List TrackerAction := [.waitForPid 1 7, .advance 0, .advance 0, .addPid 1 7, .advance 1, .advance 1,
      .advance 1, .advance 0, .advance 0, .waitForPid 2 7, .advance 2, .advance 2, .stop, .advance 3, .advance 3,
      .advance 3, .advance 2]
    (Run.exec step [] { tracker := {} } acts).2.calls =
        [.waitForPid 1 7 (.returned 1) false, .addPid 1 7 (.returned true), .waitForPid 2 7 (.returned (-2)) false,
          .stop .returned] ∧
      ∀ pre, pre <+: acts → (Run.exec step [] { tracker := {} } pre).2.NoLostWakeup := by
  intro acts
  exact ⟨by decide +kernel, (no_lost_wakeup_iff {} acts (by decide +kernel)).2 (by decide +kernel)⟩

/-- `stop` returns, and then `waitForPid` is called for a message that is not stored: the call goes to sleep, and no
call is left that would notify it. -/
theorem asleep_after_stop :
    let acts : List TrackerAction := [.stop, .advance 0, .advance 0, .advance 0, .waitForPid 1 7,
      .advance 1, .advance 1]
    Run.Allowed step (fun _ _ _ => True) [] { tracker := {} } acts ∧
      (Run.exec step [] { tracker := {} } acts).2.calls = [.stop .returned, .waitForPid 1 7 (.mainWait 0) true] ∧
      ¬ (Run.exec step [] { tracker := {} } acts).2.NoLostWakeup := by
  intro acts
  have hcalls : (Run.exec step [] { tracker := {} } acts).2.calls =
      [.stop .returned, .waitForPid 1 7 (.mainWait 0) true] := by decide +kernel
  have hstop : (Run.exec step [] { tracker := {} } acts).2.tracker.stopped = true := by decide +kernel
  refine ⟨by decide +kernel, hcalls, fun h => ?_⟩
  have howed := h .notYetEnqueued (.waitForPid 1 7 (.mainWait 0) true) (by rw [hcalls]; simp) rfl (Or.inl hstop)
  rw [hcalls] at howed
  cases howed

end TrackerSystem

end BdbMsgStore

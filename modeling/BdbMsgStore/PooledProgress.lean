import BdbMsgStore.Catchup
import BdbMsgStore.PooledRuns

/-!
# The pools can always be drained

An `async_dequeue` task occupies a worker while it waits for the watermark, so all workers of the dequeue pool may
be waiting.  The watermark is moved by the `store` tasks alone, and these have a pool of their own.  So the enqueues
in progress can always be brought to an end first; then the watermark has passed every id that was issued, no
dequeue waits any more, and the dequeues can be brought to an end (`pooled_drains`).

The measure is the number of steps that are left, where a task that is handed to a pool takes steps of a worker
besides.
-/

namespace BdbMsgStore

open StoreProvider

/-! ### The steps that are left -/

/-- A bound for the steps of a thread when no test of `waitForPid` fails. -/
def WaitPc.weight : WaitPc → Nat
  | .dupTest n => if n > 100 then 11 else 5
  | .dupWait _ => 12
  | .mainTest _ => 4
  | .mainWait _ => 12
  | .returned r => if r = -1 then 10 else 3

@[inherit_doc WaitPc.weight]
def StorePc.weight : StorePc → Nat
  | .check => 5
  | .put => 4
  | .logComplete => 3
  | .addPidDup => 2
  | .addPidMain => 1

@[inherit_doc WaitPc.weight]
def EnqueuePc.weight : EnqueuePc → Nat
  | .logStart => 11
  | .willEnqueue => 10
  | .schedule => 9

@[inherit_doc WaitPc.weight]
def AsyncDequeuePc.weight : AsyncDequeuePc → Nat
  | .wait pc => pc.weight
  | .remove => 2
  | .logComplete => 1

@[inherit_doc WaitPc.weight]
def DequeuePc.weight : DequeuePc → Nat
  | .check => 11
  | .logStart => 10
  | .schedule => 9
  | .logEnqueueComplete => 1

@[inherit_doc WaitPc.weight]
def Thread.weight : Thread → Nat
  | .enqueue pc _ => pc.weight
  | .store pc _ => pc.weight
  | .dequeue pc _ _ => pc.weight
  | .asyncDequeue pc _ _ => pc.weight

/-- Both tests of `waitForPid` pass. -/
def PidTracker.Passes (t : PidTracker) (pid qid : UInt64) : Prop :=
  t.isDuplicate pid qid = false ∧ pid ≤ t.mainRecord.lastPid

/-- The next step of the thread leaves less to do.  What is handed to a pool counts for three steps more. -/
def StoreProvider.Progresses (s : StoreProvider) (t : Thread) : Prop :=
  ((s.runThread t).2.1.map fun t' => t'.weight + if t.schedules then 3 else 0).sum < t.weight

theorem WaitPc.weight_waitForPid {t : PidTracker} {pid qid : UInt64} (hpass : t.Passes pid qid) {w : WaitPc}
    (hw : ∀ r, w ≠ .returned r) : (t.waitForPid pid qid w).weight < w.weight := by
  obtain ⟨hdup, hle⟩ := hpass
  cases w with
  | dupTest n =>
    by_cases hn : n > 100
    · simp [PidTracker.waitForPid, hdup, hn, weight]
    · simp [PidTracker.waitForPid, hdup, hn, weight]
  | dupWait n =>
    dsimp only [PidTracker.waitForPid]
    split
    · simp [weight]
    · split
      · simp [weight]
      · rename_i hn
        simp only [weight, if_neg hn]
        omega
  | mainTest n =>
    have hr : (n : Int) ≠ -1 := by omega
    simp [PidTracker.waitForPid, not_lt.2 hle, weight, hr]
  | mainWait n =>
    dsimp only [PidTracker.waitForPid]
    split
    · simp [weight]
    · split <;> simp [weight]
  | returned r => exact absurd rfl (hw r)

namespace StoreProvider.Progresses

variable {s : StoreProvider} {t : Thread}

theorem scheduled_lt (hprog : s.Progresses t) (hs : t.schedules = true) :
    ((s.runThread t).2.1.map fun t' => t'.weight + 3).sum < t.weight := by
  unfold Progresses at hprog
  rw [if_pos hs] at hprog
  exact hprog

theorem next_lt (hprog : s.Progresses t) (hs : ¬ t.schedules = true) :
    ((s.runThread t).2.1.map Thread.weight).sum < t.weight := by
  unfold Progresses at hprog
  rw [if_neg hs] at hprog
  exact hprog

/-- An enqueue never has to wait. -/
theorem of_isEnqueue (ht : t.isEnqueue = true) : s.Progresses t := by
  unfold Progresses
  cases t with
  | enqueue pc pae =>
    cases pc <;> cases hs : s.enableSmartAsync <;>
      simp [runThread, Thread.schedules, Thread.weight, EnqueuePc.weight, StorePc.weight, hs]
  | store pc pae =>
    cases pc with
    | check =>
      cases hr : (s.tracker.enqueueCheck pae.msgId pae.queueId).1 <;>
        simp [runThread, Thread.schedules, Thread.weight, StorePc.weight, hr]
    | addPidDup =>
      cases hr : (s.tracker.addPidDup pae.msgId pae.queueId).1 <;>
        simp [runThread, Thread.schedules, Thread.weight, StorePc.weight, hr]
    | _ => simp [runThread, Thread.schedules, Thread.weight, StorePc.weight]
  | _ => cases ht

/-- A dequeue does not have to wait when both tests pass. -/
theorem of_passes (ht : t.isEnqueue = false) (hpass : s.tracker.Passes t.key.1 t.key.2) : s.Progresses t := by
  unfold Progresses
  cases t with
  | dequeue pc pid qid =>
    cases pc with
    | check =>
      cases hr : (s.tracker.dequeueCheck pid qid).1 <;>
        simp [runThread, Thread.schedules, Thread.weight, DequeuePc.weight, hr]
    | _ =>
      simp [runThread, Thread.schedules, Thread.weight, DequeuePc.weight, AsyncDequeuePc.weight, WaitPc.weight]
  | asyncDequeue pc pid qid =>
    cases pc with
    | wait w =>
      have hnext := fun hw => WaitPc.weight_waitForPid (w := w) hpass hw
      cases w with
      | returned r =>
        by_cases h1 : r = -1
        · simp [runThread, h1, Thread.schedules, Thread.weight, AsyncDequeuePc.weight, WaitPc.weight]
        · by_cases h2 : r = -2
          · simp [runThread, h2, Thread.schedules, Thread.weight, AsyncDequeuePc.weight, WaitPc.weight]
          · simp [runThread, h1, h2, Thread.schedules, Thread.weight, AsyncDequeuePc.weight, WaitPc.weight]
      | _ => simpa [runThread, Thread.schedules, Thread.weight, AsyncDequeuePc.weight, Thread.key] using hnext
    | _ => simp [runThread, Thread.schedules, Thread.weight, AsyncDequeuePc.weight]
  | _ => cases ht

end StoreProvider.Progresses

/-! ### The load of a pool -/

section

variable {α : Type} (weight : α → Nat)

/-- The steps that are left to a worker; a worker that has died has to be replaced first. -/
def PoolWorker.load : PoolWorker α → Nat
  | .asleep => 0
  | .ready => 1
  | .notified => 1
  | .executing _ now => weight now + 1
  | .retiring => 1
  | .dying => 2

/-- The steps that are left until the pool is idle. -/
def Pool.load (p : Pool α) : Nat :=
  (p.scheduler.map fun t => weight t + 2).sum + (p.workers.map (PoolWorker.load weight)).sum

variable [DecidableEq α] {p p' : Pool α} {ev : List (PoolEvent α)} {w : PoolWorker α}

theorem Pool.load_schedule (p : Pool α) (task : α) :
    (p.schedule task).load weight ≤ p.load weight + (weight task + 3) := by
  have hworkers : ((p.schedule task).workers.map (PoolWorker.load weight)).sum ≤
      (p.workers.map (PoolWorker.load weight)).sum + 1 := by
    unfold Pool.schedule
    dsimp only
    split
    · rename_i hs
      have hsum := List.sum_map_erase_append hs [.notified] (PoolWorker.load weight)
      simp only [PoolWorker.load, List.map_cons, List.map_nil, List.sum_cons, List.sum_nil] at hsum ⊢
      omega
    · exact Nat.le_succ _
  have hsched : ((p.schedule task).scheduler.map fun t => weight t + 2).sum =
      (p.scheduler.map fun t => weight t + 2).sum + (weight task + 2) := by
    simp [Pool.schedule]
  unfold Pool.load
  omega

/-- A worker makes a step and becomes `v`. -/
theorem Pool.load_replace {v : PoolWorker α} (hw : w ∈ p.workers) (hworkers : p'.workers = p.workers.erase w ++ [v]) :
    p'.load weight + w.load weight + (p.scheduler.map fun t => weight t + 2).sum =
      p.load weight + v.load weight + (p'.scheduler.map fun t => weight t + 2).sum := by
  have hsum := List.sum_map_erase_append hw [v] (PoolWorker.load weight)
  rw [← hworkers, List.map_singleton, List.sum_singleton] at hsum
  unfold Pool.load
  omega

variable {weight} in
theorem Pool.load_lt_of_replace {v : PoolWorker α} (hw : w ∈ p.workers)
    (hworkers : p'.workers = p.workers.erase w ++ [v])
    (hlt : v.load weight + (p'.scheduler.map fun t => weight t + 2).sum <
      w.load weight + (p.scheduler.map fun t => weight t + 2).sum) : p'.load weight < p.load weight := by
  have hrep := Pool.load_replace weight hw hworkers
  omega

/-- A step of a worker that is awake and does not run a task. -/
theorem PoolStep.load_lt {m : UInt64} {creatable : Nat} (hs : SteadyInv m p)
    (hst : PoolStep p (.worker w creatable) p' ev) (hok : Steady (.worker w creatable)) (hpos : p.workerCount ≠ 0)
    (hawake : w ≠ .asleep) (hidle : ∀ task now, w ≠ .executing task now) : p'.load weight < p.load weight := by
  cases hst with
  | take _ hw hfree htask =>
    have hload : w.load weight = 1 := by rcases hfree with rfl | rfl <;> rfl
    refine Pool.load_lt_of_replace hw rfl ?_
    rw [htask, hload, List.map_cons, List.sum_cons, PoolWorker.load]
    dsimp only
    omega
  | sleep _ hw hfree hempty hcount =>
    have hload : w.load weight = 1 := by rcases hfree with rfl | rfl <;> rfl
    refine Pool.load_lt_of_replace hw rfl ?_
    rw [hload, PoolWorker.load]
    dsimp only [Pool.notifyClients]
    omega
  | retire _ hw hfree hcount hempty =>
    rw [hs.count] at hcount
    exact absurd hs.target (UInt64.not_le.2 hcount)
  | wake _ hw => exact absurd rfl hawake
  | stay _ hw => exact absurd rfl (hidle _ _)
  | leave _ hw => exact absurd rfl (hs.staying _ hw)
  | die _ hw =>
    obtain ⟨k, rfl⟩ : ∃ k, creatable = k + 1 := Nat.exists_eq_succ_of_ne_zero (Nat.ne_of_gt hok)
    rw [Pool.workerDiedUnexpectedly_eq (p := { p with workers := p.workers.erase .dying }) hs.running hpos]
    refine Pool.load_lt_of_replace hw rfl ?_
    rw [PoolWorker.load, PoolWorker.load]
    dsimp only [Pool.notifyClients]
    omega
  | call pc ha => rcases ha with ⟨k, ha, -⟩ | ⟨ha, -⟩ <;> cases ha

end

/-- A pool that is busy without running a task has a worker that brings it on. -/
theorem StaffedPool.exists_step {m : UInt64} {p : Pool Thread} (hp : StaffedPool m p) (hm : m ≠ 0) (hbusy : p.Busy 0)
    (hidle : ∀ task now, .executing task now ∉ p.workers) :
    ∃ w p' ev, w ≠ .asleep ∧ p.step (.worker w 1) = some (p', ev) ∧ p'.load Thread.weight < p.load Thread.weight := by
  have hpos : p.workerCount ≠ 0 := hp.steady.count.symm ▸ hm
  obtain ⟨w, hw, hawake⟩ := Pool.exists_awake hp.counted hp.wakeful hpos hbusy
  obtain ⟨r, hst⟩ : ∃ r, p.step (.worker w 1) = some r := ⟨_, if_pos hw⟩
  have hok : Steady (.worker w 1) := by
    cases w with
    | dying => exact Nat.one_pos
    | _ => trivial
  refine ⟨w, r.1, r.2, hawake, hst, (PoolStep.of_step hst).load_lt _ hp.steady hok hpos hawake fun task now he => ?_⟩
  rw [he] at hw
  exact hidle task now hw

/-! ### The load of the system -/

namespace PooledProvider

variable {c c' : PooledProvider} {name : PoolName} {ev : List Event} {t : Thread}

/-- The steps that are left until nothing is in progress. -/
def load (c : PooledProvider) : Nat :=
  (c.provider.threads.map Thread.weight).sum + c.enqueuePool.load Thread.weight + c.dequeuePool.load Thread.weight

theorem load_setPool (c : PooledProvider) (name : PoolName) (p : Pool Thread) :
    (c.setPool name p).load + (c.pool name).load Thread.weight = c.load + p.load Thread.weight := by
  cases name with
  | enqueue =>
    simp only [load, setPool, pool]
    omega
  | dequeue =>
    simp only [load, setPool, pool]
    omega

theorem load_schedule (c : PooledProvider) (ts : List Thread) :
    (c.schedule ts).load ≤ c.load + (ts.map fun t => t.weight + 3).sum := by
  induction ts generalizing c with
  | nil => exact Nat.le_refl _
  | cons t ts ih =>
    have hset := load_setPool c t.poolName ((c.pool t.poolName).schedule t)
    have hpool := Pool.load_schedule Thread.weight (c.pool t.poolName) t
    have hrest := ih (c.setPool t.poolName ((c.pool t.poolName).schedule t))
    rw [List.map_cons, List.sum_cons, schedule]
    omega

/-- A running task is not touched when others are scheduled. -/
theorem executing_mem_schedule {ts : List Thread} {task now : Thread}
    (h : .executing task now ∈ (c.pool name).workers) :
    .executing task now ∈ ((c.schedule ts).pool name).workers := by
  induction ts generalizing c with
  | nil => exact h
  | cons t ts ih =>
    refine ih ?_
    rw [pool_setPool]
    split
    · rename_i hname
      subst hname
      unfold Pool.schedule
      dsimp only
      split
      · exact List.mem_append_left _ ((List.mem_erase_of_ne (by simp)).2 h)
      · exact h
    · exact h

theorem load_advance (ht : t ∈ c.provider.threads) (hprog : c.provider.Progresses t) :
    (c.advance t).load < c.load := by
  have hsum := fun ts => List.sum_map_erase_append ht ts Thread.weight
  unfold advance
  dsimp only
  split
  · rename_i hs
    have hlt := hprog.scheduled_lt hs
    have hload := load_schedule { c with provider :=
        { (c.provider.runThread t).1 with threads := c.provider.threads.erase t } } (c.provider.runThread t).2.1
    have hsum := hsum []
    rw [List.append_nil, List.map_nil, List.sum_nil] at hsum
    simp only [load] at hload ⊢
    omega
  · rename_i hs
    have hlt := hprog.next_lt hs
    have hsum := hsum (c.provider.runThread t).2.1
    simp only [load]
    omega

/-- The running task makes its next step. -/
theorem exists_task {task now : Thread} (hw : .executing task now ∈ (c.pool name).workers)
    (hprog : c.provider.Progresses now) :
    ∃ c' ev, c.step (.task name task now) = some (c', ev) ∧ c'.load < c.load := by
  have hload : (c.runTask now).load ≤ c.load +
      (if now.schedules then ((c.provider.runThread now).2.1.map fun t => t.weight + 3).sum else 0) := by
    unfold runTask
    dsimp only
    split
    · refine (load_schedule _ _).trans ?_
      simp only [load, PooledStep.threads_runThread]
      exact Nat.le_refl _
    · simp only [load, PooledStep.threads_runThread]
      exact Nat.le_refl _
  have hmem : .executing task now ∈ ((c.runTask now).pool name).workers := by
    unfold runTask
    dsimp only
    split
    · refine executing_mem_schedule ?_
      rw [pool_provider]
      exact hw
    · rw [pool_provider]
      exact hw
  have hworker : ((c.taskStep now).worker task).load Thread.weight +
      (if now.schedules then ((c.provider.runThread now).2.1.map fun t => t.weight + 3).sum else 0) <
        now.weight + 1 := by
    unfold taskStep
    split
    · rename_i hs
      have hlt := hprog.scheduled_lt hs
      rw [TaskStep.worker, PoolWorker.load]
      omega
    · rename_i hs
      have hlt := hprog.next_lt hs
      have hnext := PooledStep.next_ofThreads c.provider now
      cases hts : (c.provider.runThread now).2.1 with
      | nil =>
        rw [hts] at hlt
        exact Nat.succ_lt_succ hlt
      | cons t ts =>
        rw [hts] at hlt hnext
        cases hnext
        exact Nat.succ_lt_succ hlt
  obtain ⟨p, hst, hworkers, hsched⟩ : ∃ p : Pool Thread,
      ((c.runTask now).pool name).step (.task task now (c.taskStep now)) = some (p, (c.taskStep now).events task) ∧
      p.workers = ((c.runTask now).pool name).workers.erase (.executing task now) ++ [(c.taskStep now).worker task] ∧
      p.scheduler = ((c.runTask now).pool name).scheduler := ⟨_, if_pos hmem, rfl, rfl⟩
  refine ⟨(c.runTask now).setPool name p, (c.provider.runThread now).2.2, ?_, ?_⟩
  · rw [step, stepPool, hst]
    rfl
  · have hset := load_setPool (c.runTask now) name p
    have hrep := Pool.load_replace Thread.weight hmem hworkers
    rw [hsched, show (PoolWorker.executing task now).load Thread.weight = now.weight + 1 from rfl] at hrep
    omega

/-- The calls and tasks in progress go on; nothing is called, and no one wakes up without a reason: a sleeping
worker is left alone, and a task inside `waitForPid` wakes up only when it does not have to wait any more. -/
def Finishing (_ : List Event) (c : PooledProvider) : PooledAction → Prop
  | .call (.advance _) => True
  | .task _ _ now => now.sleeps = true → c.provider.tracker.Passes now.key.1 now.key.2
  | .worker _ w => w ≠ .asleep
  | _ => False

/-- A busy pool comes on when its running tasks do. -/
theorem exists_pool_step {m : UInt64} (hp : StaffedPool m (c.pool name)) (hm : m ≠ 0) (hbusy : (c.pool name).Busy 0)
    (hprog : ∀ now ∈ (c.pool name).inFlight, c.provider.Progresses now ∧
      (now.sleeps = true → c.provider.tracker.Passes now.key.1 now.key.2)) (h : List Event) :
    ∃ a c' ev, c.Finishing h a ∧ c.step a = some (c', ev) ∧ c'.load < c.load := by
  by_cases hrun : ∃ task now, .executing task now ∈ (c.pool name).workers
  · obtain ⟨task, now, hw⟩ := hrun
    obtain ⟨hdone, hawake⟩ := hprog now (Pool.mem_inFlight hw)
    obtain ⟨c', ev, hst, hlt⟩ := exists_task hw hdone
    exact ⟨.task name task now, c', ev, hawake, hst, hlt⟩
  · obtain ⟨w, p, ev, hawake, hst, hlt⟩ := hp.exists_step hm hbusy fun task now hw => hrun ⟨task, now, hw⟩
    refine ⟨.worker name w, c.setPool name p, [], hawake, ?_, ?_⟩
    · rw [step, stepPool, hst]
      rfl
    · have hset := load_setPool c name p
      omega

/-! ### Every task is in its pool -/

/-- The tasks in each pool are those that are scheduled on it. -/
def Placed (c : PooledProvider) : Prop := ∀ name, ∀ t ∈ (c.pool name).inFlight, t.poolName = name

namespace Placed

theorem setPool {p : Pool Thread} (hc : c.Placed) (hp : ∀ t ∈ p.inFlight, t.poolName = name) :
    (c.setPool name p).Placed := by
  intro name' t ht
  rw [pool_setPool] at ht
  split at ht
  · rename_i hname
    exact (hp t ht).trans hname.symm
  · exact hc name' t ht

theorem schedule (hc : c.Placed) (ts : List Thread) : (c.schedule ts).Placed := by
  induction ts generalizing c with
  | nil => exact hc
  | cons t ts ih =>
    refine ih (hc.setPool fun t' ht' => ?_)
    rcases List.mem_cons.1 ((Pool.inFlight_schedule _ t).mem_iff.1 ht') with rfl | ht'
    · rfl
    · exact hc _ t' ht'

theorem provider (hc : c.Placed) (s : StoreProvider) : ({ c with provider := s } : PooledProvider).Placed := by
  intro name t ht
  rw [pool_provider] at ht
  exact hc name t ht

theorem stepPool {b : PoolAction Thread} (hc : c.Placed) (hst : c.stepPool name b = some c')
    (hkeep : ∀ p ev, (c.pool name).step b = some (p, ev) → ∀ t ∈ p.inFlight, t.poolName = name) : c'.Placed := by
  unfold PooledProvider.stepPool at hst
  obtain ⟨⟨p, ev⟩, hp, rfl⟩ := Option.map_eq_some_iff.1 hst
  exact hc.setPool (hkeep p ev hp)

theorem runTask (hc : c.Placed) (now : Thread) : (c.runTask now).Placed := by
  unfold PooledProvider.runTask
  dsimp only
  split
  · exact (hc.provider _).schedule _
  · exact hc.provider _

/-- A task that goes on stays where it is. -/
theorem task {task now : Thread} (hc : c.Placed)
    (hst : (c.runTask now).stepPool name (.task task now (c.taskStep now)) = some c') : c'.Placed := by
  refine (hc.runTask now).stepPool hst fun p ev hp t ht => ?_
  have hmem := (Pool.inFlight_task hp).mem_iff (a := t)
  rw [List.mem_cons, List.mem_append] at hmem
  rcases hmem.1 (Or.inr ht) with hnext | hold
  · have hnow : now.poolName = name := by
      rw [Pool.step] at hp
      split at hp
      · rename_i hw
        exact hc.runTask now name now (Pool.mem_inFlight hw)
      · cases hp
    have hrun : t ∈ (c.provider.runThread now).2.1 := by
      unfold taskStep at hnext
      split at hnext
      · cases hnext
      · rwa [PooledStep.next_ofThreads] at hnext
    rw [← hnow, Thread.poolName, Thread.poolName, EnqueueSide.isEnqueue_of_mem_runThread hrun]
  · exact hc.runTask now name t hold

theorem step {a : PooledAction} (hc : c.Placed) (hst : c.step a = some (c', ev)) : c'.Placed := by
  cases a with
  | call a =>
    cases a with
    | advance t =>
      rw [PooledProvider.step] at hst
      split at hst
      · cases hst
        unfold advance
        dsimp only
        split
        · exact (hc.provider _).schedule _
        · exact hc.provider _
      · cases hst
    | cleanEnqueueLog =>
      cases hst
      exact hc.provider _
    | cleanDequeueLog =>
      cases hst
      exact hc.provider _
    | _ =>
      change (c.provider.step _).map _ = _ at hst
      obtain ⟨⟨s, ev'⟩, hs, heq⟩ := Option.map_eq_some_iff.1 hst
      cases heq
      exact hc.provider s
  | task name task now =>
    rw [PooledProvider.step, Option.map_eq_some_iff] at hst
    obtain ⟨s, hs, heq⟩ := hst
    cases heq
    exact hc.task hs
  | worker name w =>
    rw [PooledProvider.step, Option.map_eq_some_iff] at hst
    obtain ⟨s, hs, heq⟩ := hst
    cases heq
    exact hc.stepPool hs fun p ev hp t ht => hc name t ((Pool.inFlight_worker hp).mem_iff.1 ht)
  | wait name k =>
    cases hst
    exact hc.setPool (hc name)
  | client name cl =>
    rw [PooledProvider.step, Option.map_eq_some_iff] at hst
    obtain ⟨s, hs, heq⟩ := hst
    cases heq
    refine hc.stepPool hs fun p ev hp t ht => hc name t ?_
    rwa [Pool.inFlight_client hp] at ht
  | stop =>
    cases hst
    exact hc.provider _
  | clear name =>
    cases hst
    exact hc.setPool fun t ht => hc name t (List.mem_append_right _ ht)

end Placed

end PooledProvider

/-! ### The watermark after the enqueues -/

/-- In an orderly run the ids that were issued follow each other. -/
theorem allotted_of_run {s₀ s : StoreProvider} {h : List Event} (hs₀ : s₀.Empty)
    (hrun : Run StoreProvider.step Orderly s₀ h s) :
    ∃ φ ψ next, OrderlyInv h s φ ψ ∧ Allotted (fun _ => False) 1 next h s φ := by
  refine hrun.invariant (I := fun h s => ∃ φ ψ next, OrderlyInv h s φ ψ ∧ Allotted (fun _ => False) 1 next h s φ)
    ⟨_, _, 1, OrderlyInv.of_empty hs₀, ?_⟩ ?_
  · refine ⟨fun _ _ he => (by cases he), fun p => ?_, fun _ _ _ hm => (by cases hm), ?_, le_rfl, by omega⟩
    · simp
      omega
    · rw [hs₀.messageIdSequence]
      rfl
  · rintro h s a s' ev ⟨φ, ψ, next, hi, hal⟩ hok hst
    have hwrap : ∀ qid m, a = .enqueue 0 qid m → s.messageIdSequence.id ≠ 0 := by
      rintro qid m rfl h0
      -- after the last id the sequence starts again at 1, which is in use
      have hseq := hal.sequence
      have h1 := hal.first_le
      have h2 := hal.next_le
      rw [h0, UInt64.toNat_zero] at hseq
      have hnext : s.messageIdSequence.next.1 = 1 := by simp [IdSequence.next, h0]
      obtain ⟨q, e, he, -⟩ := (hal.ids 1).2 (Or.inr ⟨le_rfl, by simp only [UInt64.reduceToNat]; omega⟩)
      refine (hok.2 rfl).1 (hnext ▸ ⟨q, (hi.entry_iff (1, q)).1 ?_⟩)
      rw [show φ (1, q) = some e from he]
      simp
    obtain ⟨next', hal'⟩ := hal.step hi.coherent.enqueues hi.coherent.watermark.tracked
      (fun messageId qid m ha => ((hi.disciplined hok).enqueue messageId qid m ha).1) hwrap hst
    exact ⟨_, _, next', hi.step hok hst, hal'⟩

/-- When no enqueue is in progress, no dequeue of a message whose id was issued waits. -/
theorem passes_of_idle {s : StoreProvider} {h : List Event} {φ : Entries} {ψ : Dequeues} {next : Nat}
    (hi : OrderlyInv h s φ ψ) (hal : Allotted (fun _ => False) 1 next h s φ)
    (hidle : ∀ t ∈ s.threads, t.isEnqueue = false) {pid qid : UInt64} (hpid : IssuedNew h pid) :
    s.tracker.Passes pid qid := by
  constructor
  · by_contra hdup
    obtain ⟨e, he, -, hreg⟩ := (hi.coherent.enqueues (pid, qid)).duplicate.1 (by simpa using hdup)
    rw [hi.coherent.enqueues.stage_eq_done hidle he] at hreg
    cases hreg
  · obtain ⟨q, m, hm⟩ := hpid
    have hlt := hal.called pid q m hm
    refine PidRecord.le_lastPid_of_covers hi.coherent.watermark.sound (b := 0) UInt64.zero_le fun p h0 hp => ?_
    have h1 : 1 ≤ p.toNat := UInt64.lt_iff_toNat_lt.1 h0
    have h2 := UInt64.le_iff_toNat_le.1 hp
    exact hal.covers hi.coherent.enqueues hidle (Or.inr ⟨h1, by omega⟩)

/-! ### Draining -/

/-- Besides, a message that comes with an id has got it from the store. -/
def PooledProvider.Numbered (h : List Event) (c : PooledProvider) (a : PooledAction) : Prop :=
  c.Orderly h a ∧ ∀ messageId qid m, a = .call (.enqueue messageId qid m) → messageId ≠ 0 → IssuedNew h messageId

section

variable {s₀ : StoreProvider} {n m : UInt64} {creatable : Nat} {h : List Event} {c : PooledProvider}

theorem issuedNew_append {h ev : List Event} {p : UInt64} (hp : IssuedNew h p) : IssuedNew (h ++ ev) p := by
  obtain ⟨q, m, hm⟩ := hp
  exact ⟨q, m, List.mem_append_left _ hm⟩

/-- The id of every enqueue was issued. -/
theorem issuedNew_of_run
    (hrun : Run PooledProvider.step PooledProvider.Numbered (PooledProvider.create s₀ n m creatable) h c) :
    ∀ k, Enqueued h k → IssuedNew h k.1 := by
  refine hrun.invariant (I := fun h _ => ∀ k, Enqueued h k → IssuedNew h k.1) ?_ ?_
  · rintro k ⟨newId, m, hm⟩
    cases hm
  · rintro h c a c' ev ih hok hst k ⟨newId, m, hm⟩
    rcases List.mem_append.1 hm with hm | hm
    · exact issuedNew_append (ih k ⟨newId, m, hm⟩)
    · have hs := PooledStep.of_step hst
      cases hs with
      | run ht hthreads hprovider => exact absurd hm (enqueueCalled_notMem_runThread _ newId k.1 k.2 m)
      | call ha hst' =>
        obtain ⟨messageId, rfl, hid, hnew⟩ := enqueueCalled_of_step hst' hm
        by_cases h0 : messageId = 0
        · rw [show newId = true from hnew.trans (decide_eq_true h0)] at hm
          exact ⟨k.2, m, List.mem_append_right _ hm⟩
        · rw [hid, StoreProvider.enqueueId, if_neg h0]
          exact issuedNew_append (hok.2 messageId k.2 m rfl h0)
      | move hthreads hprovider => cases hm
      | stop => cases hm
      | clear name => cases hm

theorem PooledProvider.placed_create : (PooledProvider.create s₀ n m creatable).Placed := by
  intro name t ht
  have hnil : ∀ k, (Pool.create k creatable : Pool Thread).inFlight = [] :=
    fun k => Pool.inFlight_resize _ k creatable
  cases name with
  | enqueue => exact absurd ht (hnil n ▸ List.not_mem_nil)
  | dequeue => exact absurd ht (hnil m ▸ List.not_mem_nil)

theorem placed_of_run
    (hrun : Run PooledProvider.step PooledProvider.Numbered (PooledProvider.create s₀ n m creatable) h c) :
    c.Placed :=
  hrun.invariant (I := fun _ c => c.Placed) PooledProvider.placed_create fun _ _ _ _ _ hc _ hst => hc.step hst

/-- In every reachable state in which something is in progress a step can be made that leaves less to do. -/
theorem exists_finishing_step (hs₀ : s₀.Empty)
    (hrun : Run PooledProvider.step PooledProvider.Numbered (PooledProvider.create s₀ n m creatable) h c)
    (hstaff : ∀ name, staff n m creatable name ≠ 0)
    (hnot : ¬ (c.provider.threads = [] ∧ ∀ name, ¬ (c.pool name).Busy 0)) :
    ∃ a c' ev, c.Finishing [] a ∧ c.step a = some (c', ev) ∧ c'.load < c.load := by
  have hserve : Run PooledProvider.step PooledProvider.Orderly (PooledProvider.create s₀ n m creatable) h c :=
    hrun.mono fun _ _ _ hok => hok.1
  have hpools := staffed_of_run hserve
  have hplaced := placed_of_run hrun
  have hcall : ∀ t ∈ c.provider.threads, c.provider.Progresses t →
      ∃ a c' ev, c.Finishing [] a ∧ c.step a = some (c', ev) ∧ c'.load < c.load := fun t ht hprog =>
    ⟨.call (.advance t), c.advance t, _, trivial, if_pos ht, PooledProvider.load_advance ht hprog⟩
  by_cases henq : ∃ t ∈ c.threads, t.isEnqueue = true
  · -- the enqueues come on by themselves
    obtain ⟨t, ht, hte⟩ := henq
    rcases List.mem_append.1 ht with ht | ht
    · rcases List.mem_append.1 ht with ht | ht
      · exact hcall t ht (.of_isEnqueue hte)
      · have hbusy : (c.pool .enqueue).Busy 0 := by
          by_contra hidle
          rw [show c.enqueuePool.inFlight = [] from (hpools .enqueue).counted.inFlight_eq_nil hidle] at ht
          cases ht
        refine PooledProvider.exists_pool_step (hpools .enqueue) (hstaff .enqueue) hbusy (fun now hnow => ?_) []
        have hname := hplaced .enqueue now hnow
        unfold Thread.poolName at hname
        split at hname
        · rename_i hnowe
          refine ⟨.of_isEnqueue hnowe, fun hsleep => ?_⟩
          cases now with
          | asyncDequeue pc pid qid => cases hnowe
          | _ => cases hsleep
        · cases hname
    · have hname : t.poolName = .dequeue := hplaced .dequeue t ht
      rw [Thread.poolName, if_pos hte] at hname
      cases hname
  · -- all ids are covered, so the dequeues come on
    have hall : ∀ t ∈ c.threads, t.isEnqueue = false := fun t ht => by
      cases hte : t.isEnqueue with
      | false => rfl
      | true => exact absurd ⟨t, ht, hte⟩ henq
    have hpass : ∀ t ∈ c.threads, c.provider.tracker.Passes t.key.1 t.key.2 := by
      intro t ht
      obtain ⟨s, hrun', hmir, hstop⟩ := Mirrors.of_serving discipline_orderly hs₀.threads (by rw [hs₀.tracker]) hserve
      obtain ⟨φ, ψ, next, hi, hal⟩ := allotted_of_run hs₀ hrun'
      have hperm := hmir.perm_of_running hstop
      have htr : s.tracker = c.provider.tracker := by rw [hmir.eq_of_running hstop]
      obtain ⟨d, hd, -⟩ := hi.coherent.dequeues.stage_of_mem (hperm.mem_iff.2 ht) (hall t ht)
      have hcalled := (hi.stage_iff t.key).1 (by rw [hd]; simp)
      refine htr ▸ passes_of_idle hi hal (fun t' ht' => hall t' (hperm.mem_iff.1 ht')) ?_
      exact issuedNew_of_run hrun t.key (hi.after t.key hcalled)
    have hprog : ∀ t ∈ c.threads, c.provider.Progresses t := fun t ht => .of_passes (hall t ht) (hpass t ht)
    by_cases hthreads : c.provider.threads = []
    · obtain ⟨name, hbusy⟩ : ∃ name, (c.pool name).Busy 0 := by
        by_contra hno
        exact hnot ⟨hthreads, fun name hb => hno ⟨name, hb⟩⟩
      refine PooledProvider.exists_pool_step (hpools name) (hstaff name) hbusy (fun now hnow => ?_) []
      have hmem : now ∈ c.threads := by
        cases name with
        | enqueue => exact List.mem_append_left _ (List.mem_append_right _ hnow)
        | dequeue => exact List.mem_append_right _ hnow
      exact ⟨hprog now hmem, fun _ => hpass now hmem⟩
    · obtain ⟨t, ht⟩ := List.exists_mem_of_ne_nil _ hthreads
      exact hcall t ht (hprog t (List.mem_append_left _ (List.mem_append_left _ ht)))

/-- Nothing is called while the system finishes. -/
theorem notMem_of_finishing {c c' : PooledProvider} {h' : List Event}
    (hrun : Run PooledProvider.step PooledProvider.Finishing c h' c') (pid qid : UInt64) :
    (∀ newId m, .enqueueCalled newId pid qid m ∉ h') ∧ .dequeueCalled pid qid ∉ h' := by
  refine hrun.invariant (I := fun h _ => (∀ newId m, .enqueueCalled newId pid qid m ∉ h) ∧ .dequeueCalled pid qid ∉ h)
    ⟨fun _ _ hm => (nomatch hm), fun hm => (nomatch hm)⟩ ?_
  rintro h c a c' ev ⟨henq, hdeq⟩ hok hst
  have hev : (∀ newId m, .enqueueCalled newId pid qid m ∉ ev) ∧ .dequeueCalled pid qid ∉ ev := by
    have hs := PooledStep.of_step hst
    cases hs with
    | run ht hthreads hprovider =>
      exact ⟨fun newId m => enqueueCalled_notMem_runThread _ newId pid qid m,
        dequeueCalled_notMem_runThread _ pid qid⟩
    | @call a _ _ ha hst' =>
      cases a with
      | advance t => exact absurd rfl (ha t)
      | _ => exact hok.elim
    | move hthreads hprovider => exact ⟨fun _ _ hm => (nomatch hm), fun hm => (nomatch hm)⟩
    | stop => exact hok.elim
    | clear name => exact hok.elim
  exact ⟨fun newId m hm => (List.mem_append.1 hm).elim (henq newId m) (hev.1 newId m),
    fun hm => (List.mem_append.1 hm).elim hdeq hev.2⟩

/-- From every state that an orderly run from an empty store reaches before `finalizeMe`, with at least one worker
in each pool and with ids that the store has issued, the calls and tasks in progress can go on until none is left
and both pools are idle, without any new call and without a wake-up that has no reason.  Then a message is in the
database of a queue, with the bytes that the database keeps of `msgEncode`, exactly when it was enqueued there and
not dequeued. -/
theorem pooled_drains (hs₀ : s₀.Empty)
    (hrun : Run PooledProvider.step PooledProvider.Numbered (PooledProvider.create s₀ n m creatable) h c)
    (hstaff : ∀ name, (c.pool name).workerCount ≠ 0) :
    ∃ h' c', Run PooledProvider.step PooledProvider.Finishing c h' c' ∧ c'.provider.threads = [] ∧
      (∀ name, ¬ (c'.pool name).Busy 0) ∧
      ∀ pid qid v, c'.provider.stored pid qid = some v ↔
        (∃ newId m, .enqueueCalled newId pid qid m ∈ h ∧ v = dbtValue (msgEncode m)) ∧
        .dequeueCalled pid qid ∉ h := by
  have hserving : ∀ {h c}, Run PooledProvider.step PooledProvider.Numbered
      (PooledProvider.create s₀ n m creatable) h c →
      Run PooledProvider.step PooledProvider.Orderly (PooledProvider.create s₀ n m creatable) h c :=
    fun hr => hr.mono fun _ _ _ hok => hok.1
  have hstaff₀ : ∀ name, staff n m creatable name ≠ 0 := by
    intro name
    rw [← (staffed_of_run (hserving hrun) name).steady.count]
    exact hstaff name
  have hgoOn : ∀ {h' c'}, Run PooledProvider.step PooledProvider.Finishing c h' c' →
      Run PooledProvider.step PooledProvider.Numbered (PooledProvider.create s₀ n m creatable) (h ++ h') c' := by
    refine fun hr => hrun.append (fun h' c a hok => ?_) hr
    cases a with
    | call a =>
      cases a with
      | advance t => exact ⟨⟨trivial, trivial⟩, fun _ _ _ ha => (nomatch ha)⟩
      | _ => exact hok.elim
    | task name task now => exact ⟨⟨trivial, trivial⟩, fun _ _ _ ha => (nomatch ha)⟩
    | worker name w => exact ⟨⟨trivial, trivial⟩, fun _ _ _ ha => (nomatch ha)⟩
    | _ => exact hok.elim
  obtain ⟨h', c', hrun', hthreads, hidle⟩ : ∃ h' c', Run PooledProvider.step PooledProvider.Finishing c h' c' ∧
      c'.provider.threads = [] ∧ ∀ name, ¬ (c'.pool name).Busy 0 := by
    refine Run.reaches PooledProvider.load (fun h' c' hr hnot => ?_) Run.nil
    obtain ⟨a, c'', ev, hok, hst, hlt⟩ := exists_finishing_step hs₀ (hgoOn hr) hstaff₀ hnot
    exact ⟨a, c'', ev, hok, hst, hlt⟩
  refine ⟨h', c', hrun', hthreads, hidle, fun pid qid v => ?_⟩
  have hr := hserving (hgoOn hrun')
  have hnone : ∀ t ∈ c'.threads, t.key ≠ (pid, qid) := by
    intro t ht
    rw [PooledProvider.threads_of_idle (fun name => (staffed_of_run hr name).counted) hidle, hthreads] at ht
    cases ht
  obtain ⟨henq, hdeq⟩ := notMem_of_finishing hrun' pid qid
  rw [pooled_stored_iff hs₀ hr hnone]
  simp only [List.mem_append, henq, hdeq, or_false]

end

instance (h : List Event) (p : UInt64) : Decidable (IssuedNew h p) :=
  decidable_of_iff (h.any fun e => match e with
    | .enqueueCalled newId pid _ _ => newId && pid == p
    | _ => false) <| by
    rw [List.any_eq_true]
    constructor
    · rintro ⟨e, he, hp⟩
      cases e with
      | enqueueCalled newId pid q m =>
        rw [Bool.and_eq_true, beq_iff_eq] at hp
        obtain ⟨rfl, rfl⟩ := hp
        exact ⟨q, m, he⟩
      | _ => cases hp
    · rintro ⟨q, m, hm⟩
      exact ⟨_, hm, by simp⟩

instance (h : List Event) (c : PooledProvider) : ∀ a, Decidable (c.Numbered h a)
  | .call (.enqueue messageId qid m) =>
    decidable_of_iff (c.Orderly h (.call (.enqueue messageId qid m)) ∧ (messageId ≠ 0 → IssuedNew h messageId))
      ⟨fun hok => ⟨hok.1, fun _ _ _ ha h0 => by cases ha; exact hok.2 h0⟩,
        fun hok => ⟨hok.1, hok.2 messageId qid m rfl⟩⟩
  | .call (.dequeue pid qid) => decidable_of_iff (c.Orderly h (.call (.dequeue pid qid)))
      ⟨fun hok => ⟨hok, fun _ _ _ ha => nomatch ha⟩, fun hok => hok.1⟩
  | .call (.advance _) | .call .cleanEnqueueLog | .call .cleanDequeueLog =>
      isTrue ⟨⟨trivial, trivial⟩, fun _ _ _ ha => nomatch ha⟩
  | .task _ _ _ | .worker _ _ | .wait _ _ | .client _ _ => isTrue ⟨⟨trivial, trivial⟩, fun _ _ _ ha => nomatch ha⟩
  | .stop | .clear _ => isFalse fun hok => hok.1.2

/-- A message is enqueued and dequeued at once.  The only worker for dequeues waits for the watermark; the store
task is pending. -/
private def dequeueWaiting : List PooledAction :=
  (enqueueCall 0 1 1 ++ dequeueCall 1 1).map .call ++ .worker .dequeue .ready ::
    [.wait (.dupTest 0), .wait (.mainTest 0)].map fun pc =>
      .task .dequeue (.asyncDequeue (.wait (.dupTest 0)) 1 1) (.asyncDequeue pc 1 1)

theorem pooled_drains_dequeueWaiting :
    let c := (Run.exec PooledProvider.step [] (PooledProvider.create (singleQueue false) 1 1 1) dequeueWaiting).2
    .asyncDequeue (.wait (.mainWait 0)) 1 1 ∈ c.threads ∧
      ∃ h' c', Run PooledProvider.step PooledProvider.Finishing c h' c' ∧ c'.provider.threads = [] ∧
        c'.provider.stored 1 1 = none := by
  have hallowed : Run.Allowed PooledProvider.step PooledProvider.Numbered []
      (PooledProvider.create (singleQueue false) 1 1 1) dequeueWaiting := by decide +kernel
  obtain ⟨h', c', hrun, hthreads, -, hstored⟩ :=
    pooled_drains (empty_singleQueue false) (Run.exec_of_allowed Run.nil hallowed) (by decide +kernel)
  refine ⟨by decide +kernel, h', c', hrun, hthreads, ?_⟩
  cases hv : c'.provider.stored 1 1 with
  | none => rfl
  | some v => exact absurd (by decide +kernel) ((hstored 1 1 v).1 hv).2

end BdbMsgStore

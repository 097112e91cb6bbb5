import BdbMsgStore.PoolRuns

/-!
# What becomes of the tasks of a pool

Every task that is scheduled is pending, running, over, or was cleared, and tasks are taken in the order in which they
were scheduled (`tasks_taken_in_order`).  So `wait(0)` returns only when all tasks scheduled so far are over
(`wait_returns_after_tasks`).
-/

namespace BdbMsgStore

variable {α : Type}

/-! ### Tasks in a history -/

namespace PoolEvent

def scheduled? : PoolEvent α → Option α
  | .scheduled task => some task
  | _ => none

def fetched? : PoolEvent α → Option α
  | .fetched task => some task
  | _ => none

/-- The task is over. -/
def ended? : PoolEvent α → Option α
  | .finished task | .failed task => some task
  | _ => none

/-- The tasks that the event takes from the scheduler. -/
def taken : PoolEvent α → List α
  | .fetched task => [task]
  | .cleared tasks => tasks
  | _ => []

def clearedTasks : PoolEvent α → List α
  | .cleared tasks => tasks
  | _ => []

end PoolEvent

/-- The tasks that workers run, as they were scheduled. -/
def Pool.running (p : Pool α) : List α := p.workers.filterMap PoolWorker.task?

/-- The tasks of a history against the pool. -/
structure Pool.Accounted (h : List (PoolEvent α)) (p : Pool α) : Prop where
  order : h.filterMap PoolEvent.scheduled? = h.flatMap PoolEvent.taken ++ p.scheduler
  running : (h.filterMap PoolEvent.fetched?).Perm (h.filterMap PoolEvent.ended? ++ p.running)

theorem PoolWorker.task?_notify (w : PoolWorker α) : w.notify.task? = w.task? := by
  cases w <;> rfl

theorem Pool.running_notifyWorkers (p : Pool α) : p.notifyWorkers.running = p.running := by
  unfold Pool.running Pool.notifyWorkers
  rw [List.filterMap_map]
  congr 1
  funext w
  exact w.task?_notify

theorem Pool.running_resize (p : Pool α) (n : UInt64) (creatable : Nat) :
    (p.resize n creatable).2.running = p.running := by
  refine Pool.resize_rule (P := fun q => q.running = p.running) (n := n) ?_ ?_ (fun _ => rfl) rfl creatable
  · intro q hq _
    rw [← hq]
    unfold Pool.running
    rw [List.filterMap_append]
    exact List.append_nil _
  · intro q hq
    rw [Pool.running_notifyWorkers]
    exact hq

namespace Pool.Accounted

variable {p p' : Pool α} {a : PoolAction α} {h ev : List (PoolEvent α)} {w : PoolWorker α} {v : List (PoolWorker α)}

private theorem extend (hp : p.Accounted h)
    (hsched : p.scheduler ++ ev.filterMap PoolEvent.scheduled? = ev.flatMap PoolEvent.taken ++ p'.scheduler)
    (hrun : (p.running ++ ev.filterMap PoolEvent.fetched?).Perm (ev.filterMap PoolEvent.ended? ++ p'.running)) :
    p'.Accounted (h ++ ev) where
  order := by
    rw [List.filterMap_append, List.flatMap_append, hp.order, List.append_assoc, List.append_assoc, hsched]
  running := by
    rw [List.filterMap_append, List.filterMap_append, List.append_assoc]
    have hold := hp.running.append_right (ev.filterMap PoolEvent.fetched?)
    rw [List.append_assoc] at hold
    exact hold.trans (hrun.append_left _)

/-- A step without events keeps the pending and the running tasks. -/
private theorem silent (hp : p.Accounted h) (hsched : p'.scheduler = p.scheduler) (hrun : p.running.Perm p'.running) :
    p'.Accounted (h ++ []) := by
  refine hp.extend ?_ ?_
  · rw [hsched]
    exact List.append_nil _
  · rw [List.filterMap_nil, List.append_nil]
    exact hrun

/-- So does a step of a thread inside `wait` or `shutdown`. -/
private theorem client_step (hp : p.Accounted h) {q : Pool α} {cs : List PoolClient} (hcs : ClientStep q cs ev)
    (hsched : p'.scheduler = p.scheduler) (hrun : p'.running = p.running) : p'.Accounted (h ++ ev) := by
  have htaken : ev.flatMap PoolEvent.taken = [] := by
    rw [List.flatMap_eq_nil_iff]
    intro e he
    rcases hcs.only e he with rfl | ⟨k, rfl⟩ <;> rfl
  refine hp.extend ?_ ?_
  · rw [hcs.filterMap_eq_nil (fun _ => rfl) rfl, htaken, hsched]
    exact List.append_nil _
  · rw [hcs.filterMap_eq_nil (fun _ => rfl) rfl, hcs.filterMap_eq_nil (fun _ => rfl) rfl, hrun, List.append_nil]
    exact List.Perm.refl _

variable [DecidableEq α]

/-- A step of a worker that runs no task before and after it. -/
private theorem idle_step (hp : p.Accounted h) (hw : w ∈ p.workers) (hworkers : p'.workers = p.workers.erase w ++ v)
    (hsched : p'.scheduler = p.scheduler) (hkeep : [w].filterMap PoolWorker.task? = v.filterMap PoolWorker.task?) :
    p'.Accounted (h ++ []) := by
  refine hp.silent hsched ?_
  have hperm := List.filterMap_erase_append_perm hw v PoolWorker.task?
  rw [hkeep, ← hworkers] at hperm
  exact ((List.perm_append_left_iff _).1 (hperm.trans List.perm_append_comm)).symm

theorem step (hp : p.Accounted h) (hst : PoolStep p a p' ev) : p'.Accounted (h ++ ev) := by
  cases hst with
  | schedule task =>
    refine hp.extend rfl ?_
    by_cases hs : .asleep ∈ p.workers
    · have hperm := List.filterMap_erase_append_perm hs [.notified] PoolWorker.task?
      rw [← show (p.schedule task).workers = _ from if_pos hs] at hperm
      exact hperm.symm
    · have hsame : (p.schedule task).running = p.running := by
        unfold Pool.running Pool.schedule
        rw [if_neg hs]
      rw [hsame]
      exact (List.append_nil p.running).symm ▸ List.Perm.refl p.running
  | clear =>
    refine hp.extend ?_ ?_
    · exact (List.append_nil _).trans ((List.append_nil _).trans (List.append_nil _)).symm
    · exact (List.append_nil _).symm ▸ List.Perm.refl _
  | resize n creatable =>
    refine hp.silent (Pool.Attentive.resize_scheduler p n creatable) ?_
    rw [Pool.running_resize]
  | @take w task rest creatable hw hfree htask =>
    refine hp.extend ?_ ?_
    · rw [htask]
      exact List.append_nil _
    · have hperm := List.filterMap_erase_append_perm hw [.executing task task] PoolWorker.task?
      rcases hfree with rfl | rfl
      · exact hperm.symm
      · exact hperm.symm
  | sleep creatable hw hfree hempty hcount =>
    refine hp.idle_step hw rfl rfl ?_
    rcases hfree with rfl | rfl <;> rfl
  | retire creatable hw hfree hcount hempty =>
    refine hp.idle_step hw rfl rfl ?_
    rcases hfree with rfl | rfl <;> rfl
  | wake creatable hw => exact hp.idle_step hw rfl rfl rfl
  | stay creatable hw => exact hp.idle_step hw rfl rfl rfl
  | leave creatable hw =>
    exact hp.idle_step (v := []) hw (by simp) (by simp) rfl
  | die creatable hw =>
    have hd : Accounted (h ++ []) (Pool.dropWorker { p with workers := p.workers.erase .dying }) :=
      hp.idle_step (v := []) hw (List.append_nil _).symm rfl rfl
    unfold Pool.workerDiedUnexpectedly
    dsimp only
    split
    · exact ⟨hd.order, hd.running⟩
    · rw [List.append_nil] at hd
      refine hd.silent (Pool.Attentive.resize_scheduler _ _ _) ?_
      rw [Pool.running_resize]
  | task r hw =>
    cases r with
    | goesOn next => exact hp.idle_step hw rfl rfl rfl
    | returns =>
      exact hp.extend (List.append_nil _) (List.filterMap_erase_append_perm hw [.ready] PoolWorker.task?).symm
    | throws =>
      exact hp.extend (List.append_nil _) (List.filterMap_erase_append_perm hw [.dying] PoolWorker.task?).symm
  | call pc ha => exact hp.silent rfl (List.Perm.refl _)
  | client n hc hcs hnext hdown => exact hp.client_step hcs rfl rfl
  | terminate n hc hcs hpc => exact hp.client_step hcs rfl p.running_notifyWorkers

end Pool.Accounted

/-! ### Runs -/

/-- The invariants of a pool. -/
structure Pool.Inv (h : List (PoolEvent α)) (p : Pool α) : Prop where
  counted : p.Counted
  wakeful : p.Wakeful
  terminating : p.Terminating
  accounted : p.Accounted h

namespace Pool.Inv

variable {p p' : Pool α} {a : PoolAction α} {h ev : List (PoolEvent α)}

theorem create (n : UInt64) (creatable : Nat) : Inv [] (Pool.create n creatable : Pool α) where
  counted := Counted.resize ⟨rfl, rfl⟩ n creatable
  wakeful := Wakeful.resize (Or.inl (Nat.le_refl _)) n creatable
  terminating := by
    have hempty : ({} : Pool α).Terminating :=
      ⟨fun h => (nomatch h), fun h => (nomatch h), fun _ hc => (nomatch hc)⟩
    exact hempty.resize n creatable
  accounted := by
    constructor
    · exact (Attentive.resize_scheduler ({} : Pool α) n creatable).symm
    · rw [Pool.create, Pool.running_resize]
      exact List.Perm.refl _

variable [DecidableEq α]

theorem step (hp : Inv h p) (hst : p.step a = some (p', ev)) : Inv (h ++ ev) p' := by
  have hs := PoolStep.of_step hst
  exact ⟨hp.counted.step hs, hp.wakeful.step hs, hp.terminating.step hp.counted hs, hp.accounted.step hs⟩

theorem of_run {ok : List (PoolEvent α) → Pool α → PoolAction α → Prop} {n : UInt64} {creatable : Nat}
    (hrun : Run Pool.step ok (Pool.create n creatable) h p) : Inv h p :=
  hrun.invariant (I := Inv) (create n creatable) fun _ _ _ _ _ hp _ hst => hp.step hst

omit [DecidableEq α] in
/-- No worker runs a task while none is active. -/
theorem running_of_active (hp : Inv h p) (hact : p.activeWorkerCount = 0) : p.running = [] := by
  have hcount := hp.counted.active
  rw [hact] at hcount
  have hnone := List.countP_eq_zero.1 hcount.symm
  rw [Pool.running, List.filterMap_eq_nil_iff]
  intro w hw
  have hw' := hnone w hw
  cases w with
  | executing task now => exact absurd rfl hw'
  | _ => rfl

end Pool.Inv

/-- What is taken from the scheduler is fetched or cleared. -/
theorem taken_perm (h : List (PoolEvent α)) :
    (h.flatMap PoolEvent.taken).Perm (h.filterMap PoolEvent.fetched? ++ h.flatMap PoolEvent.clearedTasks) := by
  induction h with
  | nil => exact List.Perm.refl _
  | cons e h ih =>
    cases e with
    | fetched task => exact ih.cons task
    | cleared tasks =>
      show (tasks ++ h.flatMap PoolEvent.taken).Perm
        (h.filterMap PoolEvent.fetched? ++ (tasks ++ h.flatMap PoolEvent.clearedTasks))
      refine (ih.append_left tasks).trans ?_
      rw [← List.append_assoc, ← List.append_assoc]
      exact List.perm_append_comm.append_right _
    | _ => exact ih

section

variable [DecidableEq α] {n : UInt64} {creatable : Nat} {h ev : List (PoolEvent α)} {p p' : Pool α} {a : PoolAction α}

/-- `wait` returns only when it need not wait. -/
theorem PoolStep.not_busy {k : UInt64} (hst : PoolStep p a p' ev) (hev : .waited k ∈ ev) : ¬ p.Busy k := by
  cases hst with
  | client n hc hcs hnext hdown => exact hcs.waited k hev
  | terminate n hc hcs hpc => exact hcs.waited k hev
  | task r hw => cases r <;> simp [TaskStep.events] at hev
  | _ => simp at hev

/-- `shutdown` returns when no worker is active and all have been told to end. -/
theorem PoolStep.shutDown (ht : p.Terminating) (hst : PoolStep p a p' ev) (hev : .shutDown ∈ ev) :
    p'.terminateAllWorkers = true ∧ p'.activeWorkerCount = 0 := by
  cases hst with
  | client n hc hcs hnext hdown => exact ⟨ht.client _ hc (hdown hev), hcs.shutDown hev⟩
  | terminate n hc hcs hpc => exact ⟨rfl, hcs.shutDown hev⟩
  | task r hw => cases r <;> simp [TaskStep.events] at hev
  | _ => simp at hev

/-- In every run tasks leave the scheduler in the order in which they came, and each task that was scheduled is
over, was cleared, is running or is pending: none is lost, and none is run twice.  No more tasks run than there are
workers. -/
theorem tasks_taken_in_order (hrun : Run Pool.step (fun _ _ _ => True) (Pool.create n creatable) h p) :
    h.filterMap PoolEvent.scheduled? = h.flatMap PoolEvent.taken ++ p.scheduler ∧
    (h.filterMap PoolEvent.scheduled?).Perm
      (h.filterMap PoolEvent.ended? ++ p.running ++ h.flatMap PoolEvent.clearedTasks ++ p.scheduler) ∧
    p.running.length ≤ p.workerCount.toNat := by
  have hp := Pool.Inv.of_run hrun
  refine ⟨hp.accounted.order, ?_, ?_⟩
  · rw [hp.accounted.order]
    exact ((taken_perm h).trans (hp.accounted.running.append_right _)).append_right _
  · rw [hp.counted.workers]
    exact List.length_filterMap_le _ _

/-- One worker: two tasks are scheduled, and `wait(0)` is called and has to sleep.  The first task returns, the
second one throws, so that the worker is replaced; the new worker goes to sleep and wakes the thread. -/
private def twoTasks : List (PoolAction Nat) :=
  [.schedule 1, .schedule 2, .wait 0, .client ⟨.wait 0, false⟩, .worker .ready 0, .task 1 1 .returns,
    .worker .ready 0, .task 2 2 .throws, .worker .dying 1, .worker .ready 0]

private theorem run_twoTasks : Run Pool.step (fun _ _ _ => True) (Pool.create 1 1)
    (Run.exec Pool.step [] (Pool.create 1 1) twoTasks).1 (Run.exec Pool.step [] (Pool.create 1 1) twoTasks).2 :=
  Run.exec_of_allowed Run.nil (by decide)

theorem tasks_taken_in_order_twoTasks :
    let r := Run.exec Pool.step [] (Pool.create 1 1) twoTasks
    [1, 2] = r.1.flatMap PoolEvent.taken ++ r.2.scheduler ∧ r.2.running.length ≤ r.2.workerCount.toNat :=
  ⟨(tasks_taken_in_order run_twoTasks).1, (tasks_taken_in_order run_twoTasks).2.2⟩

/-- When `wait(0)` returns, by itself or within `shutdown`, every task scheduled so far is over or was cleared.  The
counters of the pool are exact: `m_worker_count` is the number of its workers and `m_active_worker_count`, which
`wait` reads, the number of those that neither sleep nor have just been woken. -/
theorem wait_returns_after_tasks (hrun : Run Pool.step (fun _ _ _ => True) (Pool.create n creatable) h p)
    (hst : p.step a = some (p', ev)) (hev : .waited 0 ∈ ev) :
    (p.workerCount.toNat = p.workers.length ∧ p.activeWorkerCount.toNat = p.workers.countP PoolWorker.active) ∧
    (h.filterMap PoolEvent.scheduled?).Perm (h.filterMap PoolEvent.ended? ++ h.flatMap PoolEvent.clearedTasks) := by
  have hp := Pool.Inv.of_run hrun
  refine ⟨⟨hp.counted.workers, hp.counted.active⟩, ?_⟩
  have hidle : ¬ p.Busy 0 := (PoolStep.of_step hst).not_busy hev
  have hfree : p.activeWorkerCount = 0 ∧ p.scheduler = [] := by
    rw [p.busy_zero] at hidle
    exact ⟨by_contra fun h => hidle (Or.inl h), by_contra fun h => hidle (Or.inr h)⟩
  have hrunning := hp.running_of_active hfree.1
  rw [hp.accounted.order, hfree.2, List.append_nil]
  have hperm := hp.accounted.running
  rw [hrunning, List.append_nil] at hperm
  exact (taken_perm h).trans (hperm.append_right _)

theorem wait_returns_after_tasks_twoTasks :
    let r := Run.exec Pool.step [] (Pool.create 1 1) twoTasks
    r.2.workerCount.toNat = r.2.workers.length ∧
      [1, 2].Perm (r.1.filterMap PoolEvent.ended? ++ r.1.flatMap PoolEvent.clearedTasks) := by
  have h := wait_returns_after_tasks run_twoTasks (a := .client ⟨.wait 0, false⟩) rfl (by decide)
  exact ⟨h.1.1, h.2⟩

end

end BdbMsgStore

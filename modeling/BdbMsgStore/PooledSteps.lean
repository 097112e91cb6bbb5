import BdbMsgStore.Frame
import BdbMsgStore.Pooled

/-!
# Steps of the provider on its pools

`PooledStep` says what a step does to the provider and to the calls and tasks in progress, wherever the tasks stand:
pending in a scheduler, or with a worker.
-/

namespace BdbMsgStore

open StoreProvider

/-! ### The tasks in a pool -/

/-- The tasks in a pool, pending or running. -/
def Pool.inFlight {α : Type} (p : Pool α) : List α := p.scheduler ++ p.workers.filterMap PoolWorker.now?

/-- What a task has left to do after a step. -/
def TaskStep.next {α : Type} : TaskStep α → List α
  | .goesOn next => [next]
  | _ => []

namespace Pool

variable {α : Type} {p p' : Pool α} {ev : List (PoolEvent α)}

theorem now?_notify (w : PoolWorker α) : w.notify.now? = w.now? := by
  cases w <;> rfl

theorem filterMap_now?_notify (ws : List (PoolWorker α)) :
    (ws.map PoolWorker.notify).filterMap PoolWorker.now? = ws.filterMap PoolWorker.now? := by
  rw [List.filterMap_map]
  congr 1
  funext w
  exact now?_notify w

theorem inFlight_resize (p : Pool α) (n : UInt64) (creatable : Nat) :
    (p.resize n creatable).2.inFlight = p.inFlight := by
  refine Pool.resize_rule (P := fun q => q.inFlight = p.inFlight) (n := n) ?_ ?_ (fun _ => rfl) rfl creatable
  · intro q hq _
    rw [← hq]
    unfold Pool.inFlight
    rw [List.filterMap_append]
    exact congrArg _ (List.append_nil _)
  · intro q hq
    rw [← hq]
    unfold Pool.inFlight Pool.notifyWorkers
    rw [filterMap_now?_notify]

theorem mem_inFlight {task now : α} (hw : .executing task now ∈ p.workers) : now ∈ p.inFlight :=
  List.mem_append_right _ (List.mem_filterMap.2 ⟨_, hw, rfl⟩)

variable [DecidableEq α] {w : PoolWorker α} {v : List (PoolWorker α)}

theorem inFlight_schedule (p : Pool α) (task : α) : (p.schedule task).inFlight.Perm (task :: p.inFlight) := by
  have hworkers : ((p.schedule task).workers.filterMap PoolWorker.now?).Perm
      (p.workers.filterMap PoolWorker.now?) := by
    unfold Pool.schedule
    dsimp only
    split
    · rename_i hs
      have hperm := List.filterMap_erase_append_perm hs [.notified] PoolWorker.now?
      rw [show [PoolWorker.notified].filterMap PoolWorker.now? = ([] : List α) from rfl, List.append_nil] at hperm
      exact hperm
    · exact List.Perm.refl _
  unfold Pool.inFlight
  refine (hworkers.append_left _).trans ?_
  show (p.scheduler ++ [task] ++ _).Perm _
  rw [List.append_assoc, List.singleton_append]
  exact List.perm_middle

/-- A step of one worker, with what it takes from the scheduler and what it has left to do. -/
private theorem inFlight_replace (hw : w ∈ p.workers) (hworkers : p'.workers = p.workers.erase w ++ v) {d m : List α}
    (hrun : (d ++ p'.scheduler ++ v.filterMap PoolWorker.now?).Perm
      (m ++ p.scheduler ++ [w].filterMap PoolWorker.now?)) :
    (d ++ p'.inFlight).Perm (m ++ p.inFlight) := by
  have hperm := List.filterMap_erase_append_perm hw v PoolWorker.now?
  rw [← hworkers] at hperm
  rw [List.perm_iff_count] at hrun hperm ⊢
  intro x
  have h1 := hrun x
  have h2 := hperm x
  unfold Pool.inFlight
  simp only [List.count_append] at h1 h2 ⊢
  omega

private theorem inFlight_idle (hw : w ∈ p.workers) (hworkers : p'.workers = p.workers.erase w ++ v)
    (hsched : p'.scheduler = p.scheduler) (hrun : v.filterMap PoolWorker.now? = [w].filterMap PoolWorker.now?) :
    p'.inFlight.Perm p.inFlight :=
  inFlight_replace (d := []) (m := []) hw hworkers (by rw [hsched, hrun])

theorem inFlight_task {task now : α} {r : TaskStep α} (hst : p.step (.task task now r) = some (p', ev)) :
    (now :: p'.inFlight).Perm (r.next ++ p.inFlight) := by
  rw [Pool.step] at hst
  split at hst
  · rename_i hw
    cases hst
    refine inFlight_replace (d := [now]) hw rfl ?_
    rw [List.perm_iff_count]
    intro x
    cases r with
    | goesOn next =>
      simp only [TaskStep.next, TaskStep.worker, PoolWorker.now?, List.filterMap_cons, List.filterMap_nil,
        List.count_append]
      omega
    | _ =>
      simp only [TaskStep.next, TaskStep.worker, PoolWorker.now?, List.filterMap_cons, List.filterMap_nil,
        List.count_append, List.count_nil]
      omega
  · cases hst

theorem inFlight_worker {creatable : Nat} (hst : p.step (.worker w creatable) = some (p', ev)) :
    p'.inFlight.Perm p.inFlight := by
  have hs := PoolStep.of_step hst
  cases hs with
  | take _ hw hfree htask =>
    refine inFlight_replace (d := []) (m := []) hw rfl ?_
    rw [htask]
    rcases hfree with rfl | rfl
    · simp [PoolWorker.now?, List.filterMap_cons, List.perm_append_singleton]
    · simp [PoolWorker.now?, List.filterMap_cons, List.perm_append_singleton]
  | sleep _ hw hfree hempty hcount =>
    refine inFlight_idle hw rfl rfl ?_
    rcases hfree with rfl | rfl <;> rfl
  | retire _ hw hfree hcount hempty =>
    refine inFlight_idle hw rfl rfl ?_
    rcases hfree with rfl | rfl <;> rfl
  | wake _ hw => exact inFlight_idle hw rfl rfl rfl
  | stay _ hw => exact inFlight_idle hw rfl rfl rfl
  | leave _ hw => exact inFlight_idle (v := []) hw (by simp) (by simp) rfl
  | die _ hw =>
    have hd : (Pool.dropWorker { p with workers := p.workers.erase .dying }).inFlight.Perm p.inFlight :=
      inFlight_idle (v := []) hw (List.append_nil _).symm rfl rfl
    unfold Pool.workerDiedUnexpectedly
    dsimp only
    split
    · exact hd
    · rw [inFlight_resize]
      exact hd
  | call pc ha => rcases ha with ⟨k, ha, -⟩ | ⟨ha, -⟩ <;> cases ha

theorem inFlight_client {c : PoolClient} (hst : p.step (.client c) = some (p', ev)) : p'.inFlight = p.inFlight := by
  have hs := PoolStep.of_step hst
  cases hs with
  | client n hc hcs hnext hdown => rfl
  | terminate n hc hcs hpc =>
    unfold Pool.inFlight Pool.notifyWorkers
    rw [filterMap_now?_notify]
  | call pc ha => rcases ha with ⟨k, ha, -⟩ | ⟨ha, -⟩ <;> cases ha

end Pool

/-! ### Steps -/

/-- The calls and tasks in progress. -/
def PooledProvider.threads (c : PooledProvider) : List Thread :=
  c.provider.threads ++ c.enqueuePool.inFlight ++ c.dequeuePool.inFlight

namespace PooledProvider

variable {c c' : PooledProvider} {name : PoolName} {p : Pool Thread}

theorem provider_setPool (c : PooledProvider) (name : PoolName) (p : Pool Thread) :
    (c.setPool name p).provider = c.provider := by
  cases name <;> rfl

theorem pool_provider (c : PooledProvider) (s : StoreProvider) (name : PoolName) :
    ({ c with provider := s } : PooledProvider).pool name = c.pool name := by
  cases name <;> rfl

theorem pool_setPool (c : PooledProvider) (name name' : PoolName) (p : Pool Thread) :
    (c.setPool name p).pool name' = if name' = name then p else c.pool name' := by
  cases name <;> cases name' <;> rfl

theorem count_setPool (c : PooledProvider) (name : PoolName) (p : Pool Thread) (x : Thread) :
    (c.setPool name p).threads.count x + (c.pool name).inFlight.count x = c.threads.count x + p.inFlight.count x := by
  cases name with
  | enqueue =>
    simp only [threads, setPool, pool, List.count_append]
    omega
  | dequeue =>
    simp only [threads, setPool, pool, List.count_append]
    omega

theorem provider_schedule (c : PooledProvider) (ts : List Thread) : (c.schedule ts).provider = c.provider := by
  induction ts generalizing c with
  | nil => rfl
  | cons t ts ih => exact (ih _).trans (provider_setPool ..)

theorem count_schedule (c : PooledProvider) (ts : List Thread) (x : Thread) :
    (c.schedule ts).threads.count x = ts.count x + c.threads.count x := by
  induction ts generalizing c with
  | nil => exact (Nat.zero_add _).symm
  | cons t ts ih =>
    have hset := count_setPool c t.poolName ((c.pool t.poolName).schedule t) x
    have hsched := (Pool.inFlight_schedule (c.pool t.poolName) t).count_eq x
    rw [PooledProvider.schedule, ih, List.count_cons]
    rw [List.count_cons] at hsched
    omega

/-- Scheduling starts no task. -/
theorem mem_workers_schedule {ts : List Thread} {task now : Thread}
    (h : .executing task now ∈ ((c.schedule ts).pool name).workers) :
    .executing task now ∈ (c.pool name).workers := by
  induction ts generalizing c with
  | nil => exact h
  | cons t ts ih =>
    have hmem := ih h
    rw [pool_setPool] at hmem
    split at hmem
    · rename_i hname
      subst hname
      unfold Pool.schedule at hmem
      dsimp only at hmem
      split at hmem
      · rcases List.mem_of_mem_erase_append hmem with hw | hw
        · exact hw
        · cases List.mem_singleton.1 hw
      · exact hmem
    · exact hmem

theorem mem_threads_of_executing {task now : Thread} (h : .executing task now ∈ (c.pool name).workers) :
    now ∈ c.threads := by
  have hmem := Pool.mem_inFlight h
  cases name with
  | enqueue => exact List.mem_append_left _ (List.mem_append_right _ hmem)
  | dequeue => exact List.mem_append_right _ hmem

/-- Only a task that a worker runs makes a step. -/
theorem executing_of_task {task now : Thread} {r : TaskStep Thread}
    (hst : (c.runTask now).stepPool name (.task task now r) = some c') :
    .executing task now ∈ (c.pool name).workers := by
  unfold stepPool at hst
  obtain ⟨⟨p, ev⟩, hp, -⟩ := Option.map_eq_some_iff.1 hst
  rw [Pool.step] at hp
  split at hp
  · rename_i hw
    unfold runTask at hw
    dsimp only at hw
    split at hw
    · have hmem := mem_workers_schedule hw
      rwa [pool_provider] at hmem
    · rwa [pool_provider] at hw
  · cases hp

end PooledProvider

/-- What a step does to the provider and to the calls and tasks in progress. -/
inductive PooledStep (c : PooledProvider) : PooledAction → PooledProvider → List Event → Prop where
  | run {a : PooledAction} {c' : PooledProvider} {t : Thread} (ht : t ∈ c.threads)
      (hthreads : (t :: c'.threads).Perm ((c.provider.runThread t).2.1 ++ c.threads))
      (hprovider : c'.provider = { (c.provider.runThread t).1 with threads := c'.provider.threads }) :
      PooledStep c a c' (c.provider.runThread t).2.2
  | call {a : Action} {s : StoreProvider} {ev : List Event} (ha : ∀ t, a ≠ .advance t)
      (hst : c.provider.step a = some (s, ev)) : PooledStep c (.call a) { c with provider := s } ev
  | move {a : PooledAction} {c' : PooledProvider} (hthreads : c'.threads.Perm c.threads)
      (hprovider : c'.provider = c.provider) : PooledStep c a c' []
  | stop :
      PooledStep c .stop
        { c with provider := { c.provider with tracker := { c.provider.tracker with stopped := true } } } []
  | clear (name : PoolName) : PooledStep c (.clear name) (c.setPool name (c.pool name).clear) []

namespace PooledStep

variable {c c' : PooledProvider} {a : PooledAction} {ev : List Event}

/-- At most one thread takes the place of a thread. -/
theorem next_ofThreads (s : StoreProvider) (t : Thread) :
    (TaskStep.ofThreads (s.runThread t).2.1).next = (s.runThread t).2.1 := by
  cases t with
  | enqueue pc pae => cases pc <;> rfl
  | store pc pae =>
    cases pc with
    | addPidDup =>
      dsimp only [runThread]
      split <;> rfl
    | _ => rfl
  | dequeue pc pid qid => cases pc <;> rfl
  | asyncDequeue pc pid qid =>
    cases pc with
    | wait w =>
      cases w with
      | returned r =>
        dsimp only [runThread]
        split
        · rfl
        · split <;> rfl
      | _ => rfl
    | _ => rfl

theorem threads_runThread (s : StoreProvider) (t : Thread) : (s.runThread t).1.threads = s.threads := by
  cases t with
  | enqueue pc pae => cases pc <;> rfl
  | store pc pae =>
    cases pc with
    | put => exact modifyJournal_threads ..
    | _ => rfl
  | dequeue pc pid qid => cases pc <;> rfl
  | asyncDequeue pc pid qid =>
    cases pc with
    | wait w => cases w <;> rfl
    | remove => exact modifyJournal_threads ..
    | logComplete => rfl

private theorem of_advance {t : Thread} (ht : t ∈ c.provider.threads) :
    PooledStep c a (c.advance t) (c.provider.runThread t).2.2 := by
  refine .run (List.mem_append_left _ (List.mem_append_left _ ht)) ?_ ?_
  · rw [List.perm_iff_count]
    intro x
    have hperm := fun ts => (List.cons_erase_append_perm ht ts).count_eq x
    unfold PooledProvider.advance
    dsimp only
    split
    · have h := hperm []
      rw [List.count_cons, PooledProvider.count_schedule]
      simp only [PooledProvider.threads, List.count_append, List.count_cons, List.count_nil] at h ⊢
      omega
    · have h := hperm (c.provider.runThread t).2.1
      simp only [PooledProvider.threads, List.count_append, List.count_cons] at h ⊢
      omega
  · unfold PooledProvider.advance
    dsimp only
    split
    · rw [PooledProvider.provider_schedule]
    · rfl

private theorem of_move {b : PoolAction Thread} {name : PoolName} (hst : c.stepPool name b = some c')
    (hkeep : ∀ p ev, (c.pool name).step b = some (p, ev) → p.inFlight.Perm (c.pool name).inFlight) :
    PooledStep c a c' [] := by
  unfold PooledProvider.stepPool at hst
  obtain ⟨⟨p, ev⟩, hp, rfl⟩ := Option.map_eq_some_iff.1 hst
  refine .move ?_ (PooledProvider.provider_setPool ..)
  rw [List.perm_iff_count]
  intro x
  have hset := PooledProvider.count_setPool c name p x
  have hperm := (hkeep p ev hp).count_eq x
  dsimp only at hset ⊢
  omega

private theorem of_task {name : PoolName} {task now : Thread}
    (hst : (c.runTask now).stepPool name (.task task now (c.taskStep now)) = some c') :
    PooledStep c a c' (c.provider.runThread now).2.2 := by
  have hw := PooledProvider.executing_of_task hst
  unfold PooledProvider.stepPool at hst
  obtain ⟨⟨p, ev⟩, hp, rfl⟩ := Option.map_eq_some_iff.1 hst
  have htask := Pool.inFlight_task hp
  have hnext : (c.taskStep now).next ++ (if now.schedules then (c.provider.runThread now).2.1 else []) =
      (c.provider.runThread now).2.1 := by
    unfold PooledProvider.taskStep
    split
    · rfl
    · rw [next_ofThreads, List.append_nil]
  have hrun : ∀ x, (c.runTask now).threads.count x =
      (if now.schedules then (c.provider.runThread now).2.1 else []).count x + c.threads.count x := by
    intro x
    unfold PooledProvider.runTask
    dsimp only
    split
    · rw [PooledProvider.count_schedule]
      simp only [PooledProvider.threads, threads_runThread]
    · rw [List.count_nil, Nat.zero_add]
      simp only [PooledProvider.threads, threads_runThread]
  have hperm : (now :: ((c.runTask now).setPool name p).threads).Perm
      ((c.provider.runThread now).2.1 ++ c.threads) := by
    rw [List.perm_iff_count]
    intro x
    have hset := PooledProvider.count_setPool (c.runTask now) name p x
    have htask := htask.count_eq x
    have hrun := hrun x
    rw [← hnext]
    simp only [List.count_append, List.count_cons] at hset htask hrun ⊢
    omega
  refine .run (PooledProvider.mem_threads_of_executing hw) hperm ?_
  rw [PooledProvider.provider_setPool]
  unfold PooledProvider.runTask
  dsimp only
  split
  · rw [PooledProvider.provider_schedule]
  · rfl

theorem of_step (hst : c.step a = some (c', ev)) : PooledStep c a c' ev := by
  cases a with
  | call a =>
    cases a with
    | advance t =>
      rw [PooledProvider.step] at hst
      split at hst
      · rename_i ht
        cases hst
        exact of_advance ht
      · cases hst
    | cleanEnqueueLog =>
      cases hst
      exact .call (fun t h => nomatch h) rfl
    | cleanDequeueLog =>
      cases hst
      exact .call (fun t h => nomatch h) rfl
    | _ =>
      change (c.provider.step _).map _ = _ at hst
      rw [Option.map_eq_some_iff] at hst
      obtain ⟨⟨s, ev'⟩, hs, heq⟩ := hst
      cases heq
      exact .call (fun t h => nomatch h) hs
  | task name task now =>
    rw [PooledProvider.step, Option.map_eq_some_iff] at hst
    obtain ⟨s, hs, heq⟩ := hst
    cases heq
    exact of_task hs
  | worker name w =>
    rw [PooledProvider.step, Option.map_eq_some_iff] at hst
    obtain ⟨s, hs, heq⟩ := hst
    cases heq
    exact of_move hs fun p ev hp => Pool.inFlight_worker hp
  | wait name k =>
    cases hst
    refine .move ?_ (PooledProvider.provider_setPool ..)
    rw [List.perm_iff_count]
    intro x
    exact Nat.add_right_cancel (PooledProvider.count_setPool c name _ x)
  | client name cl =>
    rw [PooledProvider.step, Option.map_eq_some_iff] at hst
    obtain ⟨s, hs, heq⟩ := hst
    cases heq
    exact of_move hs fun p ev hp => by rw [Pool.inFlight_client hp]
  | stop =>
    cases hst
    exact .stop
  | clear name =>
    cases hst
    exact .clear name

end PooledStep

end BdbMsgStore

import BdbMsgStore.ThreadPool

/-!
# Steps of the thread pool

`PoolStep` says once what a step of a pool can do; the invariants of the pool are derived from it.  For the threads
inside `wait` and `shutdown` it keeps what the rest depends on (`ClientStep`): who sleeps has a reason, and what a
return tells.
-/

namespace BdbMsgStore

variable {α : Type}

/-! ### Steps -/

/-- `m_active_worker_count` once the worker is awake. -/
def Pool.activeWith (p : Pool α) (w : PoolWorker α) : UInt64 :=
  if w.active then p.activeWorkerCount else p.activeWorkerCount + 1

/-- The reason for which a thread may sleep in the pool.  (A `wait` with a threshold other than `0` is notified only
when a worker becomes idle, and this may be later than the return of its reason.) -/
def Pool.MustWait (p : Pool α) : ClientPc → Prop
  | .wait k => k = 0 → p.Busy 0
  | .shutdown => p.Busy 0
  | .terminate => True
  | .terminating => p.activeWorkerCount ≠ 0

/-- A step of a thread inside `wait` or `shutdown`: what takes its place, and what becomes visible. -/
structure ClientStep (p : Pool α) (cs : List PoolClient) (ev : List (PoolEvent α)) : Prop where
  asleep : ∀ c ∈ cs, c.asleep = true → p.MustWait c.pc
  waited : ∀ k, .waited k ∈ ev → ¬ p.Busy k
  shutDown : .shutDown ∈ ev → p.activeWorkerCount = 0
  only : ∀ e ∈ ev, e = .shutDown ∨ ∃ k, e = .waited k

namespace ClientStep

variable {p : Pool α}

/-- The thread falls asleep, wakes up or goes on. -/
theorem of_silent {c : PoolClient} (hasleep : c.asleep = true → p.MustWait c.pc) : ClientStep p [c] [] where
  asleep := by
    intro d hd
    rw [List.mem_singleton.1 hd]
    exact hasleep
  waited := fun k hk => nomatch hk
  shutDown := fun hd => nomatch hd
  only := fun e he => nomatch he

theorem of_waited {k : UInt64} {cs : List PoolClient} (hk : ¬ p.Busy k) (hcs : ∀ c ∈ cs, c.asleep = false) :
    ClientStep p cs [.waited k] where
  asleep := by
    intro c hc hs
    rw [hcs c hc] at hs
    cases hs
  waited := by
    intro k' hk'
    cases List.mem_singleton.1 hk'
    exact hk
  shutDown := fun hd => nomatch List.mem_singleton.1 hd
  only := fun e he => Or.inr ⟨k, List.mem_singleton.1 he⟩

theorem of_shutDown (hact : p.activeWorkerCount = 0) : ClientStep p [] [.shutDown] where
  asleep := fun _ hc => nomatch hc
  waited := fun _ hk => nomatch List.mem_singleton.1 hk
  shutDown := fun _ => hact
  only := fun _ he => Or.inl (List.mem_singleton.1 he)

/-- Nothing happens to a task. -/
theorem filterMap_eq_nil {cs : List PoolClient} {ev : List (PoolEvent α)} (h : ClientStep p cs ev) {β : Type}
    {f : PoolEvent α → Option β} (hk : ∀ k, f (.waited k) = none) (hd : f .shutDown = none) :
    ev.filterMap f = [] := by
  rw [List.filterMap_eq_nil_iff]
  intro e he
  rcases h.only e he with rfl | ⟨k, rfl⟩
  · exact hd
  · exact hk k

end ClientStep

namespace Pool

variable (p : Pool α)

@[simp] theorem workers_workerDestructed : p.workerDestructed.workers = p.workers := by
  unfold workerDestructed
  dsimp only
  split <;> rfl

@[simp] theorem scheduler_workerDestructed : p.workerDestructed.scheduler = p.scheduler := by
  unfold workerDestructed
  dsimp only
  split <;> rfl

@[simp] theorem clients_workerDestructed : p.workerDestructed.clients = p.clients.map PoolClient.notify := by
  unfold workerDestructed
  dsimp only
  split <;> rfl

@[simp] theorem targetWorkerCount_workerDestructed : p.workerDestructed.targetWorkerCount = p.targetWorkerCount := by
  unfold workerDestructed
  dsimp only
  split <;> rfl

@[simp] theorem terminateAllWorkers_workerDestructed :
    p.workerDestructed.terminateAllWorkers = p.terminateAllWorkers := by
  unfold workerDestructed
  dsimp only
  split <;> rfl

end Pool

theorem Pool.awaitTermination_cases (p : Pool α) :
    (p.activeWorkerCount ≠ 0 ∧ p.awaitTermination = (p, [⟨.terminating, true⟩], [])) ∨
      (p.activeWorkerCount = 0 ∧ p.awaitTermination = ({ p with terminatedWorkers := 0 }, [], [.shutDown])) := by
  unfold Pool.awaitTermination
  by_cases hact : p.activeWorkerCount = 0
  · exact Or.inr ⟨hact, if_neg (by rw [hact]; exact UInt64.lt_irrefl 0)⟩
  · exact Or.inl ⟨hact, if_pos (UInt64.pos_iff_ne_zero.2 hact)⟩

section

variable [DecidableEq α]

/-- What a step does to the pool; for the threads inside `wait` and `shutdown` it says what they do to the rest. -/
inductive PoolStep (p : Pool α) : PoolAction α → Pool α → List (PoolEvent α) → Prop where
  | schedule (task : α) : PoolStep p (.schedule task) (p.schedule task) [.scheduled task]
  | clear : PoolStep p .clear p.clear [.cleared p.scheduler]
  | resize (n : UInt64) (creatable : Nat) : PoolStep p (.resize n creatable) (p.resize n creatable).2 []
  | take {w : PoolWorker α} {task : α} {rest : List α} (creatable : Nat) (hw : w ∈ p.workers)
      (hfree : w = .ready ∨ w = .notified) (htask : p.scheduler = task :: rest) :
      PoolStep p (.worker w creatable)
        { p with
          scheduler := rest
          activeWorkerCount := p.activeWith w
          workers := p.workers.erase w ++ [.executing task task] } [.fetched task]
  | sleep {w : PoolWorker α} (creatable : Nat) (hw : w ∈ p.workers) (hfree : w = .ready ∨ w = .notified)
      (hempty : p.scheduler = []) (hcount : p.workerCount ≤ p.targetWorkerCount) :
      PoolStep p (.worker w creatable)
        (Pool.notifyClients { p with
          activeWorkerCount := p.activeWith w - 1
          workers := p.workers.erase w ++ [.asleep] }) []
  | retire {w : PoolWorker α} (creatable : Nat) (hw : w ∈ p.workers) (hfree : w = .ready ∨ w = .notified)
      (hcount : p.targetWorkerCount < p.workerCount) (hempty : w = .notified → p.scheduler = []) :
      PoolStep p (.worker w creatable)
        { p with
          activeWorkerCount := p.activeWith w
          workers := p.workers.erase w ++ [.retiring] } []
  | wake (creatable : Nat) (hw : .asleep ∈ p.workers) :
      PoolStep p (.worker .asleep creatable) { p with workers := p.workers.erase .asleep ++ [.notified] } []
  | stay {task now : α} (creatable : Nat) (hw : .executing task now ∈ p.workers) :
      PoolStep p (.worker (.executing task now) creatable)
        { p with workers := p.workers.erase (.executing task now) ++ [.executing task now] } []
  | leave (creatable : Nat) (hw : .retiring ∈ p.workers) :
      PoolStep p (.worker .retiring creatable) (Pool.workerDestructed { p with workers := p.workers.erase .retiring })
        []
  | die (creatable : Nat) (hw : .dying ∈ p.workers) :
      PoolStep p (.worker .dying creatable)
        (Pool.workerDiedUnexpectedly { p with workers := p.workers.erase .dying } creatable) []
  | task {task now : α} (r : TaskStep α) (hw : .executing task now ∈ p.workers) :
      PoolStep p (.task task now r)
        { p with workers := p.workers.erase (.executing task now) ++ [r.worker task] } (r.events task)
  | call {a : PoolAction α} (pc : ClientPc)
      (ha : (∃ k, a = .wait k ∧ pc = .wait k) ∨ (a = .shutdown ∧ pc = .shutdown)) :
      PoolStep p a { p with clients := p.clients ++ [⟨pc, false⟩] } []
  | client {c : PoolClient} {cs : List PoolClient} {ev : List (PoolEvent α)} (n : Nat) (hc : c ∈ p.clients)
      (hcs : ClientStep p cs ev) (hnext : ∀ d ∈ cs, d.pc = c.pc ∨ (c.pc = .shutdown ∧ d.pc = .terminate))
      (hdown : .shutDown ∈ ev → c.pc = .terminating) :
      PoolStep p (.client c) { p with clients := p.clients.erase c ++ cs, terminatedWorkers := n } ev
  | terminate {c : PoolClient} {cs : List PoolClient} {ev : List (PoolEvent α)} (n : Nat) (hc : c ∈ p.clients)
      (hcs : ClientStep p cs ev) (hpc : c.pc = .terminate) :
      PoolStep p (.client c)
        { p.notifyWorkers with
          terminateAllWorkers := true
          targetWorkerCount := 0
          clients := p.clients.erase c ++ cs
          terminatedWorkers := n } ev

namespace PoolStep

variable {p p' : Pool α} {a : PoolAction α} {ev : List (PoolEvent α)}

/-- The worker is awake and looks for a task. -/
private theorem of_fetch {w : PoolWorker α} {creatable : Nat} (hw : w ∈ p.workers)
    (hfree : w = .ready ∨ w = .notified) {q : Pool α}
    (hq : q = { p with activeWorkerCount := p.activeWith w, workers := p.workers.erase w }) :
    PoolStep p (.worker w creatable) { q.fetch.1 with workers := q.fetch.1.workers ++ [q.fetch.2.1] }
      q.fetch.2.2 := by
  subst hq
  unfold Pool.fetch
  cases hs : p.scheduler with
  | nil =>
    dsimp only
    by_cases hc : p.workerCount > p.targetWorkerCount
    · have hstep := PoolStep.retire creatable hw hfree hc fun _ => hs
      rw [hs] at hstep
      rw [if_pos hc]
      exact hstep
    · have hstep := PoolStep.sleep creatable hw hfree hs (UInt64.not_lt.1 hc)
      rw [hs] at hstep
      rw [if_neg hc]
      exact hstep
  | cons task rest => exact PoolStep.take creatable hw hfree hs

private theorem of_worker {w : PoolWorker α} {creatable : Nat} (hw : w ∈ p.workers) :
    let r := Pool.runWorker { p with workers := p.workers.erase w } creatable w
    PoolStep p (.worker w creatable) { r.1 with workers := r.1.workers ++ r.2.1 } r.2.2 := by
  cases w with
  | ready =>
    dsimp only [Pool.runWorker, Pool.executeTask]
    by_cases hc : p.workerCount > p.targetWorkerCount
    · rw [if_pos hc]
      exact PoolStep.retire creatable hw (Or.inl rfl) hc (fun h => nomatch h)
    · rw [if_neg hc]
      exact of_fetch hw (Or.inl rfl) rfl
  | asleep => exact PoolStep.wake creatable hw
  | notified => exact of_fetch hw (Or.inr rfl) rfl
  | executing task now => exact PoolStep.stay creatable hw
  | retiring =>
    dsimp only [Pool.runWorker]
    rw [List.append_nil]
    exact PoolStep.leave creatable hw
  | dying =>
    dsimp only [Pool.runWorker]
    rw [List.append_nil]
    exact PoolStep.die creatable hw

private theorem of_client {c : PoolClient} (hc : c ∈ p.clients) :
    let r := Pool.runClient { p with clients := p.clients.erase c } c
    PoolStep p (.client c) { r.1 with clients := r.1.clients ++ r.2.1 } r.2.2 := by
  obtain ⟨pc, asleep⟩ := c
  -- a thread that stays where it is
  have hsame : ∀ (n : Nat) (asleep' : Bool), (asleep' = true → p.MustWait pc) →
      PoolStep p (.client ⟨pc, asleep⟩)
        { p with clients := p.clients.erase ⟨pc, asleep⟩ ++ [⟨pc, asleep'⟩], terminatedWorkers := n } [] := by
    intro n asleep' h
    refine PoolStep.client n hc (ClientStep.of_silent h) (fun d hd => Or.inl ?_)
      fun hd => absurd hd List.not_mem_nil
    rw [List.mem_singleton.1 hd]
  dsimp only [Pool.runClient]
  cases asleep with
  | true => exact hsame _ false fun h => absurd h Bool.false_ne_true
  | false =>
    rw [if_neg Bool.false_ne_true]
    cases pc with
    | wait k =>
      dsimp only
      split
      · rename_i hk
        exact hsame _ true (fun _ h0 => h0 ▸ hk)
      · rename_i hk
        refine PoolStep.client _ hc (ClientStep.of_waited hk fun c hc => absurd hc List.not_mem_nil)
          (fun d hd => absurd hd List.not_mem_nil) fun hd => ?_
        cases List.mem_singleton.1 hd
    | shutdown =>
      dsimp only
      split
      · rename_i hk
        exact hsame _ true (fun _ => hk)
      · rename_i hk
        refine PoolStep.client _ hc (ClientStep.of_waited hk fun d hd => ?_) (fun d hd => Or.inr ⟨rfl, ?_⟩)
          fun hd => ?_
        · rw [List.mem_singleton.1 hd]
        · rw [List.mem_singleton.1 hd]
        · cases List.mem_singleton.1 hd
    | terminate =>
      dsimp only
      rcases Pool.awaitTermination_cases (Pool.notifyWorkers { p with
        clients := p.clients.erase ⟨.terminate, false⟩, terminateAllWorkers := true, targetWorkerCount := 0 }) with
        ⟨hact, heq⟩ | ⟨hact, heq⟩
      · rw [heq]
        exact PoolStep.terminate _ hc (ClientStep.of_silent (fun _ => hact)) rfl
      · rw [heq]
        exact PoolStep.terminate _ hc (ClientStep.of_shutDown hact) rfl
    | terminating =>
      dsimp only
      rcases Pool.awaitTermination_cases { p with clients := p.clients.erase ⟨.terminating, false⟩ } with
        ⟨hact, heq⟩ | ⟨hact, heq⟩
      · rw [heq]
        exact hsame _ true (fun _ => hact)
      · rw [heq]
        exact PoolStep.client _ hc (ClientStep.of_shutDown hact) (fun d hd => absurd hd List.not_mem_nil)
          fun _ => rfl

theorem of_step (h : p.step a = some (p', ev)) : PoolStep p a p' ev := by
  cases a with
  | schedule task =>
    cases h
    exact PoolStep.schedule task
  | clear =>
    cases h
    exact PoolStep.clear
  | resize n creatable =>
    cases h
    exact PoolStep.resize n creatable
  | wait k =>
    cases h
    exact PoolStep.call (.wait k) (Or.inl ⟨k, rfl, rfl⟩)
  | shutdown =>
    cases h
    exact PoolStep.call .shutdown (Or.inr ⟨rfl, rfl⟩)
  | worker w creatable =>
    rw [Pool.step] at h
    split at h
    · rename_i hw
      cases h
      exact of_worker hw
    · cases h
  | task task now r =>
    rw [Pool.step] at h
    split at h
    · rename_i hw
      cases h
      exact PoolStep.task r hw
    · cases h
  | client c =>
    rw [Pool.step] at h
    split at h
    · rename_i hc
      cases h
      exact of_client hc
    · cases h

end PoolStep

end

/-! ### The rules for `resize` -/

namespace Pool

variable {P : Pool α → Prop} {p : Pool α}

/-- What the creation of a worker keeps, the loop keeps. -/
theorem createWorkers_rule
    (hcreate : ∀ p : Pool α, P p → p.workerCount < p.targetWorkerCount →
      P { p with
        workers := p.workers ++ [.ready]
        workerCount := p.workerCount + 1
        activeWorkerCount := p.activeWorkerCount + 1 })
    (hp : P p) (creatable : Nat) : P (p.createWorkers creatable).2 := by
  induction creatable generalizing p with
  | zero => exact hp
  | succ n ih =>
    unfold createWorkers
    split
    · rename_i hlt
      exact ih (hcreate p hp hlt)
    · exact hp

theorem resize_rule
    (hcreate : ∀ p : Pool α, P p → p.workerCount < p.targetWorkerCount →
      P { p with
        workers := p.workers ++ [.ready]
        workerCount := p.workerCount + 1
        activeWorkerCount := p.activeWorkerCount + 1 })
    (hnotify : ∀ p : Pool α, P p → P p.notifyWorkers) {n : UInt64}
    (htarget : p.terminateAllWorkers = false → P { p with targetWorkerCount := n }) (hp : P p) (creatable : Nat) :
    P (p.resize n creatable).2 := by
  unfold resize
  cases ht : p.terminateAllWorkers with
  | true => exact hp
  | false =>
    have hp' := htarget ht
    rw [ht] at hp'
    rw [if_neg Bool.false_ne_true]
    dsimp only
    split
    · exact createWorkers_rule hcreate hp' creatable
    · exact hnotify _ hp'

end Pool

end BdbMsgStore

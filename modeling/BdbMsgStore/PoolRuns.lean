import BdbMsgStore.PoolSteps

/-!
# Runs of the thread pool

What holds in every state of a pool, whatever the order in which its workers, the running tasks and the threads inside
`wait` and `shutdown` make their steps.

* `Counted`: the two counters are the number of workers and of those that do not sleep;
* `Wakeful`: for every pending task a notified worker is on its way, unless no worker sleeps;
* `Terminating`: once the workers are told to end, none sleeps;
* `Attentive`: a thread that sleeps inside `wait` or `shutdown` has a reason to, or a worker is on its way to notify
  it.
-/

namespace BdbMsgStore

variable {α : Type}

/-! ### The counters -/

/-- The counters of the pool are exact. -/
structure Pool.Counted (p : Pool α) : Prop where
  workers : p.workerCount.toNat = p.workers.length
  active : p.activeWorkerCount.toNat = p.workers.countP PoolWorker.active

theorem PoolWorker.active_notify (w : PoolWorker α) : w.notify.active = w.active := by
  cases w <;> rfl

namespace Pool.Counted

variable {p p' : Pool α} {a : PoolAction α} {ev : List (PoolEvent α)} {w v : PoolWorker α}

theorem notifyWorkers (hp : p.Counted) : p.notifyWorkers.Counted := by
  constructor
  · rw [Pool.notifyWorkers, List.length_map]
    exact hp.workers
  · rw [Pool.notifyWorkers, List.countP_map]
    refine hp.active.trans (List.countP_congr fun w _ => ?_)
    rw [Function.comp_apply, PoolWorker.active_notify]

theorem create (hp : p.Counted) (hlt : p.workerCount < p.targetWorkerCount) :
    Counted { p with
      workers := p.workers ++ [.ready]
      workerCount := p.workerCount + 1
      activeWorkerCount := p.activeWorkerCount + 1 } := by
  have hlt' := UInt64.lt_iff_toNat_lt.1 hlt
  have hle := List.countP_le_length (p := PoolWorker.active) (l := p.workers)
  have hw := hp.workers
  have ha := hp.active
  constructor
  · rw [Words.toNat_add_one hlt', List.length_append, hw]
    rfl
  · rw [Words.toNat_add_one (d := p.targetWorkerCount) (by omega), List.countP_append, ha]
    rfl

theorem resize (hp : p.Counted) (n : UInt64) (creatable : Nat) : (p.resize n creatable).2.Counted :=
  Pool.resize_rule (fun _ hp hlt => hp.create hlt) (fun _ hp => hp.notifyWorkers)
    (fun _ => ⟨hp.workers, hp.active⟩) hp creatable

variable [DecidableEq α]

theorem activeWith (hp : p.Counted) (hw : w ∈ p.workers) :
    (p.activeWith w).toNat = (p.workers.erase w).countP PoolWorker.active + 1 := by
  have hcount := List.countP_erase_append hw [] PoolWorker.active
  have hlen := List.length_erase_append hw []
  have hle := List.countP_le_length (p := PoolWorker.active) (l := p.workers.erase w)
  simp only [List.append_nil, List.countP_nil, List.length_nil] at hcount hlen
  unfold Pool.activeWith
  cases ha : w.active with
  | true =>
    rw [ha, if_pos rfl] at hcount
    rw [if_pos rfl, hp.active]
    omega
  | false =>
    rw [ha, if_neg Bool.false_ne_true] at hcount
    have hact := hp.active
    have hlen' := hp.workers
    rw [if_neg Bool.false_ne_true, Words.toNat_add_one (d := p.workerCount) (by omega)]
    omega

/-- A worker makes a step and stays. -/
theorem replace (hp : p.Counted) (hw : w ∈ p.workers) (hworkers : p'.workers = p.workers.erase w ++ [v])
    (hcount : p'.workerCount = p.workerCount)
    (hactive : p'.activeWorkerCount = if v.active then p.activeWith w else p.activeWith w - 1) : p'.Counted := by
  constructor
  · have hlen := List.length_erase_append hw [v]
    rw [hcount, hp.workers, hworkers]
    simp only [List.length_singleton] at hlen
    omega
  · have hwith := hp.activeWith hw
    rw [hactive, hworkers, List.countP_append]
    cases ha : v.active with
    | true =>
      rw [if_pos rfl, hwith]
      simp [ha]
    | false =>
      rw [if_neg Bool.false_ne_true, Words.toNat_sub_one (by omega), hwith]
      simp [ha]

/-- A worker that does not sleep leaves. -/
theorem drop (hp : p.Counted) (hw : w ∈ p.workers) (ha : w.active = true) :
    (Pool.dropWorker { p with workers := p.workers.erase w }).Counted := by
  have hlen := List.length_erase_append hw []
  have hcount := List.countP_erase_append hw [] PoolWorker.active
  simp only [List.append_nil, List.countP_nil, List.length_nil, ha, if_true] at hcount hlen
  have hw' := hp.workers
  have ha' := hp.active
  constructor
  · show (p.workerCount - 1).toNat = (p.workers.erase w).length
    rw [Words.toNat_sub_one (by omega)]
    omega
  · show (p.activeWorkerCount - 1).toNat = (p.workers.erase w).countP PoolWorker.active
    rw [Words.toNat_sub_one (by omega)]
    omega

theorem step (hp : p.Counted) (hst : PoolStep p a p' ev) : p'.Counted := by
  cases hst with
  | schedule task =>
    by_cases hs : .asleep ∈ p.workers
    · refine hp.replace hs (v := .notified) (if_pos hs) rfl ?_
      show p.activeWorkerCount = p.activeWorkerCount + 1 - 1
      rw [UInt64.add_sub_cancel]
    · refine ⟨?_, ?_⟩
      · rw [Pool.schedule, if_neg hs]
        exact hp.workers
      · rw [Pool.schedule, if_neg hs]
        exact hp.active
  | clear => exact ⟨hp.workers, hp.active⟩
  | resize n creatable => exact hp.resize n creatable
  | take creatable hw hfree htask => exact hp.replace hw rfl rfl rfl
  | sleep creatable hw hfree hempty hcount => exact hp.replace hw (v := .asleep) rfl rfl rfl
  | retire creatable hw hfree hcount hempty => exact hp.replace hw rfl rfl rfl
  | wake creatable hw =>
    refine hp.replace hw (v := .notified) rfl rfl ?_
    show p.activeWorkerCount = p.activeWorkerCount + 1 - 1
    rw [UInt64.add_sub_cancel]
  | stay creatable hw => exact hp.replace hw rfl rfl rfl
  | leave creatable hw =>
    have hd := hp.drop hw rfl
    unfold Pool.workerDestructed
    dsimp only
    split
    · exact ⟨hd.workers, hd.active⟩
    · exact hd
  | die creatable hw =>
    have hd := hp.drop hw rfl
    unfold Pool.workerDiedUnexpectedly
    dsimp only
    split
    · exact ⟨hd.workers, hd.active⟩
    · exact hd.resize _ creatable
  | task r hw =>
    refine hp.replace hw rfl rfl ?_
    cases r <;> rfl
  | call pc ha => exact ⟨hp.workers, hp.active⟩
  | client n hc hcs hnext hdown => exact ⟨hp.workers, hp.active⟩
  | terminate n hc hcs hpc => exact ⟨hp.notifyWorkers.workers, hp.notifyWorkers.active⟩

end Pool.Counted

/-! ### Sleeping workers -/

/-- The worker has been woken and has not got the monitor back. -/
def PoolWorker.isNotified : PoolWorker α → Bool
  | .notified => true
  | _ => false

/-- For every pending task a worker is on its way, unless no worker sleeps. -/
def Pool.Wakeful (p : Pool α) : Prop :=
  p.scheduler.length ≤ p.workers.countP PoolWorker.isNotified ∨ ∀ w ∈ p.workers, w ≠ .asleep

namespace Pool.Wakeful

variable {p p' : Pool α} {a : PoolAction α} {ev : List (PoolEvent α)} {w : PoolWorker α} {v : List (PoolWorker α)}

theorem notifyWorkers (p : Pool α) : p.notifyWorkers.Wakeful := by
  refine Or.inr fun w hw => ?_
  obtain ⟨v, -, rfl⟩ := List.mem_map.1 hw
  cases v <;> simp [PoolWorker.notify]

theorem resize (hp : p.Wakeful) (n : UInt64) (creatable : Nat) : (p.resize n creatable).2.Wakeful := by
  refine Pool.resize_rule (n := n) (fun p hp _ => ?_) (fun p _ => notifyWorkers p) (fun _ => hp) hp creatable
  rcases hp with hp | hp
  · refine Or.inl ?_
    rw [List.countP_append]
    exact Nat.le_add_right_of_le hp
  · refine Or.inr fun w hw => ?_
    rcases List.mem_append.1 hw with hw | hw
    · exact hp w hw
    · rw [List.mem_singleton.1 hw]
      simp

variable [DecidableEq α]

/-- A step of one worker: it pays for a notified worker with a task, and does not fall asleep while tasks are
pending. -/
theorem replace (hp : p.Wakeful) (hw : w ∈ p.workers) (hworkers : p'.workers = p.workers.erase w ++ v)
    (hpay : p'.scheduler.length + (if w.isNotified then 1 else 0) ≤
      p.scheduler.length + v.countP PoolWorker.isNotified ∨ p'.scheduler = [])
    (hasleep : .asleep ∈ v → p'.scheduler = []) : p'.Wakeful := by
  by_cases hempty : p'.scheduler = []
  · refine Or.inl ?_
    rw [hempty]
    exact Nat.zero_le _
  · rcases hp with hp | hp
    · have hcount := List.countP_erase_append hw v PoolWorker.isNotified
      have hpay := hpay.resolve_right hempty
      refine Or.inl ?_
      rw [hworkers]
      omega
    · refine Or.inr fun x hx => ?_
      rw [hworkers] at hx
      rcases List.mem_of_mem_erase_append hx with hx | hx
      · exact hp x hx
      · rintro rfl
        exact hempty (hasleep hx)

theorem step (hp : p.Wakeful) (hst : PoolStep p a p' ev) : p'.Wakeful := by
  cases hst with
  | schedule task =>
    by_cases hs : .asleep ∈ p.workers
    · refine hp.replace hs (v := [.notified]) (if_pos hs) (Or.inl ?_) (by simp)
      simp [Pool.schedule, PoolWorker.isNotified]
    · refine Or.inr fun w hw => ?_
      rw [Pool.schedule, if_neg hs] at hw
      rintro rfl
      exact hs hw
  | clear => exact Or.inl (Nat.zero_le _)
  | resize n creatable => exact hp.resize n creatable
  | take creatable hw hfree htask =>
    refine hp.replace hw rfl (Or.inl ?_) (by simp)
    rw [htask]
    rcases hfree with rfl | rfl <;> simp [PoolWorker.isNotified]
  | sleep creatable hw hfree hempty hcount => exact hp.replace hw rfl (Or.inr hempty) (fun _ => hempty)
  | retire creatable hw hfree hcount hempty =>
    rcases hfree with rfl | rfl
    · exact hp.replace hw rfl (Or.inl (by simp [PoolWorker.isNotified])) (by simp)
    · exact hp.replace hw rfl (Or.inr (hempty rfl)) (by simp)
  | wake creatable hw => exact hp.replace hw rfl (Or.inl (by simp [PoolWorker.isNotified])) (by simp)
  | stay creatable hw => exact hp.replace hw rfl (Or.inl (by simp [PoolWorker.isNotified])) (by simp)
  | leave creatable hw => exact hp.replace (v := []) hw (by simp) (Or.inl (by simp [PoolWorker.isNotified])) (by simp)
  | die creatable hw =>
    have hd : (Pool.dropWorker { p with workers := p.workers.erase .dying }).Wakeful :=
      hp.replace (v := []) hw (List.append_nil _).symm (Or.inl (Nat.le_refl _)) (by simp)
    unfold Pool.workerDiedUnexpectedly
    dsimp only
    split
    · exact hd
    · exact hd.resize _ creatable
  | task r hw =>
    refine hp.replace hw rfl (Or.inl ?_) ?_
    · simp [PoolWorker.isNotified]
    · cases r <;> simp [TaskStep.worker]
  | call pc ha => exact hp
  | client n hc hcs hnext hdown => exact hp
  | terminate n hc hcs hpc => exact notifyWorkers p

end Pool.Wakeful

/-! ### Shutdown -/

/-- Once `terminate_all_workers` has begun no worker is wanted and none sleeps. -/
structure Pool.Terminating (p : Pool α) : Prop where
  target : p.terminateAllWorkers = true → p.targetWorkerCount = 0
  awake : p.terminateAllWorkers = true → ∀ w ∈ p.workers, w ≠ .asleep
  client : ∀ c ∈ p.clients, c.pc = .terminating → p.terminateAllWorkers = true

namespace Pool.Terminating

variable {p p' : Pool α} {a : PoolAction α} {ev : List (PoolEvent α)} {w : PoolWorker α} {v : List (PoolWorker α)}

theorem notifyClients (hp : p.Terminating) : p.notifyClients.Terminating where
  target := hp.target
  awake := hp.awake
  client := by
    intro c hc hpc
    obtain ⟨d, hd, rfl⟩ := List.mem_map.1 hc
    exact hp.client d hd hpc

theorem resize (hp : p.Terminating) (n : UInt64) (creatable : Nat) : (p.resize n creatable).2.Terminating := by
  cases ht : p.terminateAllWorkers with
  | true =>
    unfold Pool.resize
    rw [if_pos ht]
    exact hp
  | false =>
    -- the flag stays unset, and nothing is asked of such a pool
    refine (Pool.resize_rule (P := fun q => q.Terminating ∧ q.terminateAllWorkers = false) ?_ ?_ ?_
      ⟨hp, ht⟩ creatable).1
    · rintro q ⟨hq, hqt⟩ -
      refine ⟨⟨hq.target, fun h => ?_, hq.client⟩, hqt⟩
      rw [hqt] at h
      cases h
    · rintro q ⟨hq, hqt⟩
      refine ⟨⟨hq.target, fun h => ?_, hq.client⟩, hqt⟩
      rw [show q.notifyWorkers.terminateAllWorkers = q.terminateAllWorkers from rfl, hqt] at h
      cases h
    · intro _
      refine ⟨⟨fun h => ?_, hp.awake, hp.client⟩, ht⟩
      rw [show Pool.terminateAllWorkers _ = p.terminateAllWorkers from rfl, ht] at h
      cases h

variable [DecidableEq α]

/-- A step of one worker, which falls asleep only when it is wanted. -/
private theorem replace (hp : p.Terminating) (hworkers : p'.workers = p.workers.erase w ++ v)
    (hflag : p'.terminateAllWorkers = p.terminateAllWorkers) (htarget : p'.targetWorkerCount = p.targetWorkerCount)
    (hclients : p'.clients = p.clients) (hasleep : .asleep ∈ v → p.targetWorkerCount ≠ 0) : p'.Terminating where
  target := by
    rw [hflag, htarget]
    exact hp.target
  awake := by
    rw [hflag, hworkers]
    intro ht x hx
    rcases List.mem_of_mem_erase_append hx with hx | hx
    · exact hp.awake ht x hx
    · rintro rfl
      exact hasleep hx (hp.target ht)
  client := by
    rw [hflag, hclients]
    exact hp.client

private theorem drop (hp : p.Terminating) (w : PoolWorker α) :
    (Pool.dropWorker { p with workers := p.workers.erase w }).Terminating := by
  have hr : Terminating { p with workers := p.workers.erase w } :=
    hp.replace (v := []) (List.append_nil _).symm rfl rfl rfl (by simp)
  exact ⟨hr.notifyClients.target, hr.notifyClients.awake, hr.notifyClients.client⟩

theorem step (hc : p.Counted) (hp : p.Terminating) (hst : PoolStep p a p' ev) : p'.Terminating := by
  cases hst with
  | schedule task =>
    by_cases hs : .asleep ∈ p.workers
    · exact hp.replace (v := [.notified]) (if_pos hs) rfl rfl rfl (by simp)
    · refine ⟨hp.target, fun ht => ?_, hp.client⟩
      rw [Pool.schedule, if_neg hs]
      exact hp.awake ht
  | clear => exact ⟨hp.target, hp.awake, hp.client⟩
  | resize n creatable => exact hp.resize n creatable
  | take creatable hw hfree htask => exact hp.replace rfl rfl rfl rfl (by simp)
  | @sleep w creatable hw hfree hempty hcount =>
    have hr : Terminating { p with
        activeWorkerCount := p.activeWith w - 1
        workers := p.workers.erase w ++ [.asleep] } := by
      refine hp.replace rfl rfl rfl rfl fun _ hzero => ?_
      -- the worker itself is counted
      rw [hzero, UInt64.le_iff_toNat_le, hc.workers] at hcount
      have hpos := List.length_pos_of_mem hw
      exact absurd hcount (Nat.not_le.2 hpos)
    exact hr.notifyClients
  | retire creatable hw hfree hcount hempty => exact hp.replace rfl rfl rfl rfl (by simp)
  | wake creatable hw => exact hp.replace rfl rfl rfl rfl (by simp)
  | stay creatable hw => exact hp.replace rfl rfl rfl rfl (by simp)
  | leave creatable hw =>
    have hd := hp.drop .retiring
    constructor
    · rw [Pool.terminateAllWorkers_workerDestructed, Pool.targetWorkerCount_workerDestructed]
      exact hd.target
    · rw [Pool.terminateAllWorkers_workerDestructed, Pool.workers_workerDestructed]
      exact hd.awake
    · rw [Pool.terminateAllWorkers_workerDestructed, Pool.clients_workerDestructed]
      exact hd.client
  | die creatable hw =>
    have hd := hp.drop .dying
    unfold Pool.workerDiedUnexpectedly
    dsimp only
    split
    · exact ⟨hd.target, hd.awake, hd.client⟩
    · exact hd.resize _ creatable
  | task r hw =>
    refine hp.replace rfl rfl rfl rfl ?_
    cases r <;> simp [TaskStep.worker]
  | call pc ha =>
    refine ⟨hp.target, hp.awake, fun c hc hpc => ?_⟩
    rcases List.mem_append.1 hc with hc | hc
    · exact hp.client c hc hpc
    · rw [List.mem_singleton.1 hc] at hpc
      subst hpc
      rcases ha with ⟨k, -, h⟩ | ⟨-, h⟩ <;> cases h
  | client n hcl hcs hnext hdown =>
    refine ⟨hp.target, hp.awake, fun c hc hpc => ?_⟩
    rcases List.mem_of_mem_erase_append hc with hc | hc
    · exact hp.client c hc hpc
    · rcases hnext c hc with h | ⟨-, h⟩
      · exact hp.client _ hcl (h.symm.trans hpc)
      · rw [hpc] at h
        cases h
  | terminate n hc hcs hpc =>
    refine ⟨fun _ => rfl, fun _ w hw => ?_, fun _ _ _ => rfl⟩
    obtain ⟨v, -, rfl⟩ := List.mem_map.1 hw
    cases v <;> simp [PoolWorker.notify]

end Pool.Terminating

/-! ### Sleeping threads inside `wait` and `shutdown` -/

/-- A thread that sleeps has a reason to, or a worker that has been woken will notify it when it takes no task. -/
def Pool.Attentive (p : Pool α) : Prop :=
  ∀ c ∈ p.clients, c.asleep = true → p.MustWait c.pc ∨ .notified ∈ p.workers

/-- No worker is active and none has been woken, and a thread sleeps inside `wait(0)` or `shutdown`: it waits for a
pending task only, and nobody will take it. -/
def Pool.Deserts (p : Pool α) : Prop :=
  p.activeWorkerCount = 0 ∧ .notified ∉ p.workers ∧
    ∃ c ∈ p.clients, c.asleep = true ∧ (c.pc = .wait 0 ∨ c.pc = .shutdown)

theorem Pool.busy_zero (p : Pool α) : p.Busy 0 ↔ p.activeWorkerCount ≠ 0 ∨ p.scheduler ≠ [] := by
  unfold Pool.Busy
  rw [if_pos rfl]

namespace Pool.Attentive

variable {p p' : Pool α} {a : PoolAction α} {ev : List (PoolEvent α)}

/-- While a worker is active every thread has a reason to sleep. -/
theorem mustWait_of_active (hact : p.activeWorkerCount ≠ 0) (pc : ClientPc) : p.MustWait pc := by
  have hbusy : p.Busy 0 := p.busy_zero.2 (Or.inl hact)
  cases pc with
  | wait k => exact fun _ => hbusy
  | shutdown => exact hbusy
  | terminate => exact trivial
  | terminating => exact hact

theorem of_active (hact : p.activeWorkerCount ≠ 0) : p.Attentive := fun c _ _ => Or.inl (mustWait_of_active hact c.pc)

/-- A notification leaves no thread asleep, and `resize` wakes none up. -/
theorem of_awake (h : ∀ c ∈ p.clients, c.asleep = false) : p.Attentive := by
  intro c hc hs
  rw [h c hc] at hs
  cases hs

/-- A reason to sleep stays when the counter of the active workers is kept and no pending task is lost. -/
theorem mustWait_mono (hact : p'.activeWorkerCount = p.activeWorkerCount)
    (hsched : p'.scheduler = [] → p.scheduler = []) {pc : ClientPc} (hm : p.MustWait pc) : p'.MustWait pc := by
  have hbusy : p.Busy 0 → p'.Busy 0 := by
    rw [p.busy_zero, p'.busy_zero, hact]
    exact Or.imp_right fun h h' => h (hsched h')
  cases pc with
  | wait k => exact fun hk => hbusy (hm hk)
  | shutdown => exact hbusy hm
  | terminate => exact trivial
  | terminating =>
    show p'.activeWorkerCount ≠ 0
    rw [hact]
    exact hm

theorem frame (hp : p.Attentive) (hact : p'.activeWorkerCount = p.activeWorkerCount)
    (hsched : p'.scheduler = [] → p.scheduler = []) (hclients : p'.clients = p.clients)
    (hnotified : .notified ∈ p.workers → .notified ∈ p'.workers) : p'.Attentive := by
  intro c hc hs
  rw [hclients] at hc
  exact (hp c hc hs).imp (mustWait_mono hact hsched) hnotified

theorem notified_notifyWorkers (h : .notified ∈ p.workers) : .notified ∈ p.notifyWorkers.workers :=
  List.mem_map.2 ⟨.notified, h, rfl⟩

theorem resize_clients (p : Pool α) (n : UInt64) (creatable : Nat) : (p.resize n creatable).2.clients = p.clients :=
  Pool.resize_rule (P := fun q => q.clients = p.clients) (n := n) (fun _ h _ => h) (fun _ h => h) (fun _ => rfl) rfl
    creatable

theorem resize_scheduler (p : Pool α) (n : UInt64) (creatable : Nat) :
    (p.resize n creatable).2.scheduler = p.scheduler :=
  Pool.resize_rule (P := fun q => q.scheduler = p.scheduler) (n := n) (fun _ h _ => h) (fun _ h => h)
    (fun _ => rfl) rfl creatable

private theorem resize_notified (h : .notified ∈ p.workers) (n : UInt64) (creatable : Nat) :
    .notified ∈ (p.resize n creatable).2.workers :=
  Pool.resize_rule (P := fun q => .notified ∈ q.workers) (n := n) (fun _ h _ => List.mem_append_left _ h)
    (fun _ h => notified_notifyWorkers h) (fun _ => h) h creatable

/-- `resize` only adds to the active workers. -/
private theorem resize_active (hc : p.Counted) (n : UInt64) (creatable : Nat)
    (h0 : (p.resize n creatable).2.activeWorkerCount = 0) : p.activeWorkerCount = 0 := by
  by_contra hne
  refine (Pool.resize_rule (P := fun q => q.Counted ∧ q.activeWorkerCount ≠ 0) (p := p) (n := n) ?_ ?_ ?_ ⟨hc, hne⟩
    creatable).2 h0
  · rintro q ⟨hq, -⟩ hlt
    have hcr := hq.create hlt
    refine ⟨hcr, fun hz => ?_⟩
    have hact := hcr.active
    rw [hz, List.countP_append] at hact
    exact absurd hact.symm (Nat.succ_ne_zero _)
  · rintro q ⟨hq, hqa⟩
    exact ⟨hq.notifyWorkers, hqa⟩
  · exact fun _ => ⟨⟨hc.workers, hc.active⟩, hne⟩

private theorem client_step (hp : p.Attentive) {c : PoolClient} {cs : List PoolClient} (hcs : ClientStep p cs ev)
    (hact : p'.activeWorkerCount = p.activeWorkerCount) (hsched : p'.scheduler = p.scheduler)
    (hclients : p'.clients = p.clients.erase c ++ cs) (hnotified : .notified ∈ p.workers → .notified ∈ p'.workers) :
    p'.Attentive := by
  intro d hd hs
  rw [hclients] at hd
  refine Or.imp (mustWait_mono hact fun h => hsched.symm.trans h) hnotified ?_
  rcases List.mem_of_mem_erase_append hd with hd | hd
  · exact hp d hd hs
  · exact Or.inl (hcs.asleep d hd hs)

private theorem notifyClients_awake (p : Pool α) : ∀ c ∈ p.notifyClients.clients, c.asleep = false := by
  intro c hc
  obtain ⟨d, -, rfl⟩ := List.mem_map.1 hc
  rfl

/-- `clear` leaves a thread asleep for ever just when no worker is active and none has been woken. -/
theorem clear_iff (hp : p.Attentive) : p.clear.Attentive ↔ ¬ p.Deserts := by
  constructor
  · rintro hcl ⟨hact, hnot, c, hc, hs, hpc⟩
    have hbusy : p.clear.Busy 0 := by
      have hm := (hcl c hc hs).resolve_right hnot
      rcases hpc with hpc | hpc
      · rw [hpc] at hm
        exact hm rfl
      · rw [hpc] at hm
        exact hm
    rcases p.clear.busy_zero.1 hbusy with h | h
    · exact h hact
    · exact h rfl
  · intro hd
    by_cases hact : p.activeWorkerCount = 0
    · intro c hc hs
      by_cases hnot : .notified ∈ p.workers
      · exact Or.inr hnot
      · cases hpc : c.pc with
        | wait k =>
          refine Or.inl ?_
          rintro rfl
          exact absurd ⟨hact, hnot, c, hc, hs, Or.inl hpc⟩ hd
        | shutdown => exact absurd ⟨hact, hnot, c, hc, hs, Or.inr hpc⟩ hd
        | terminate => exact Or.inl trivial
        | terminating =>
          have hm := (hp c hc hs).resolve_right hnot
          rw [hpc] at hm
          exact Or.inl hm
    · exact of_active (p := p.clear) hact

/-- Without an active worker and without one that has been woken, all workers sleep. -/
private theorem asleep_of_inactive (hc : p.Counted) (hact : p.activeWorkerCount = 0) (hnot : .notified ∉ p.workers) :
    ∀ w ∈ p.workers, w = .asleep := by
  have hcount := hc.active
  rw [hact] at hcount
  intro w hw
  have hinactive := List.countP_eq_zero.1 hcount.symm w hw
  cases w with
  | asleep => rfl
  | notified => exact absurd hw hnot
  | _ => exact absurd rfl hinactive

/-- A pool with workers has one on its way to the task that a thread waits for. -/
theorem workers_of_deserts (hc : p.Counted) (hwakeful : p.Wakeful) (hp : p.Attentive) (hd : p.Deserts) :
    p.workers = [] := by
  obtain ⟨hact, hnot, c, hcl, hs, hpc⟩ := hd
  have hasleep := asleep_of_inactive hc hact hnot
  have hbusy : p.Busy 0 := by
    have hm := (hp c hcl hs).resolve_right hnot
    rcases hpc with hpc | hpc
    · rw [hpc] at hm
      exact hm rfl
    · rw [hpc] at hm
      exact hm
  have hpending : p.scheduler ≠ [] := (p.busy_zero.1 hbusy).resolve_left (not_not.2 hact)
  rcases hwakeful with hw | hw
  · have hnone : p.workers.countP PoolWorker.isNotified = 0 := by
      rw [List.countP_eq_zero]
      intro w hmem
      rw [hasleep w hmem]
      exact Bool.false_ne_true
    rw [hnone] at hw
    exact absurd (List.length_eq_zero_iff.1 (Nat.le_zero.1 hw)) hpending
  · exact List.eq_nil_iff_forall_not_mem.2 fun w hmem => hw w hmem (hasleep w hmem)

variable [DecidableEq α]

/-- A worker that is awake is counted. -/
private theorem activeWith_ne_zero (hc : p.Counted) {w : PoolWorker α} (hw : w ∈ p.workers) : p.activeWith w ≠ 0 := by
  intro h
  have hwith := hc.activeWith hw
  rw [h] at hwith
  exact absurd hwith (Nat.succ_ne_zero _).symm

private theorem mem_erase_executing {task now : α} (v : List (PoolWorker α)) (h : .notified ∈ p.workers) :
    .notified ∈ p.workers.erase (.executing task now) ++ v :=
  List.mem_append_left _ ((List.mem_erase_of_ne (by simp)).2 h)

/-- No step but `clear` leaves a thread asleep for ever. -/
theorem step (hc : p.Counted) (hp : p.Attentive) (hne : a ≠ .clear) (hst : PoolStep p a p' ev) : p'.Attentive := by
  cases hst with
  | schedule task =>
    refine hp.frame rfl (fun h => ?_) rfl fun hnot => ?_
    · exact absurd h (List.append_ne_nil_of_right_ne_nil _ (List.cons_ne_nil _ _))
    · unfold Pool.schedule
      dsimp only
      split
      · exact List.mem_append_right _ (List.mem_singleton.2 rfl)
      · exact hnot
  | clear => exact absurd rfl hne
  | resize n creatable =>
    by_cases h0 : (p.resize n creatable).2.activeWorkerCount = 0
    · refine hp.frame (h0.trans (resize_active hc n creatable h0).symm) (fun h => ?_) (resize_clients p n creatable)
        fun hnot => resize_notified hnot n creatable
      rwa [resize_scheduler] at h
    · exact of_active h0
  | take creatable hw hfree htask => exact of_active (activeWith_ne_zero hc hw)
  | sleep creatable hw hfree hempty hcount => exact of_awake (notifyClients_awake _)
  | retire creatable hw hfree hcount hempty => exact of_active (activeWith_ne_zero hc hw)
  | wake creatable hw => exact hp.frame rfl id rfl fun _ => List.mem_append_right _ (List.mem_singleton.2 rfl)
  | stay creatable hw => exact hp.frame rfl id rfl (mem_erase_executing _)
  | leave creatable hw =>
    refine of_awake ?_
    rw [Pool.clients_workerDestructed]
    exact notifyClients_awake p
  | die creatable hw =>
    refine of_awake ?_
    unfold Pool.workerDiedUnexpectedly
    dsimp only
    split
    · exact notifyClients_awake _
    · rw [resize_clients]
      exact notifyClients_awake _
  | task r hw => exact hp.frame rfl id rfl (mem_erase_executing _)
  | call pc ha =>
    intro c hcl hs
    rcases List.mem_append.1 hcl with hcl | hcl
    · exact (hp c hcl hs).imp_left (mustWait_mono rfl id)
    · rw [List.mem_singleton.1 hcl] at hs
      cases hs
  | client n hcl hcs hnext hdown => exact hp.client_step hcs rfl rfl rfl id
  | terminate n hcl hcs hpc => exact hp.client_step hcs rfl rfl rfl notified_notifyWorkers

end Pool.Attentive

end BdbMsgStore

import BdbMsgStore.PoolTasks

/-!
# The service of a pool

A thread inside `wait(0)` or `shutdown` sleeps only while it has a reason to or a worker is on its way to notify it,
unless the tasks are cleared in a pool without workers (`sleeping_wait_has_reason`).  A pool that is neither resized
nor shut down keeps its workers even when tasks throw, as long as threads can be created, and always has one awake
while there is something to do (`steady_pool_serves`).  After `shutdown` no task is run any more
(`shut_down_pool_is_quiet`), although workers may still be on their way out.
-/

namespace BdbMsgStore

section

variable {α : Type} [DecidableEq α] {n : UInt64} {creatable : Nat} {h ev : List (PoolEvent α)} {p p' : Pool α}
  {a : PoolAction α}

/-! ### Sleeping threads -/

/-- The tasks are not cleared under a thread that waits for them while no worker will. -/
def Considerate (_ : List (PoolEvent α)) (p : Pool α) : PoolAction α → Prop
  | .clear => ¬ p.Deserts
  | _ => True

instance (p : Pool α) : Decidable p.Deserts :=
  inferInstanceAs (Decidable (_ ∧ _ ∧ ∃ c ∈ p.clients, _))

instance (h : List (PoolEvent α)) (p : Pool α) : ∀ a, Decidable (Considerate h p a)
  | .clear => inferInstanceAs (Decidable (¬ p.Deserts))
  | .schedule _ | .resize _ _ | .wait _ | .shutdown | .worker _ _ | .task _ _ _ | .client _ => isTrue trivial

/-- Two workers: one runs a task, the other falls asleep, and a thread waits for the task. -/
private def oneTask : List (PoolAction Nat) :=
  [.schedule 1, .worker .ready 0, .worker .ready 0, .wait 0, .client ⟨.wait 0, false⟩]

/-- The pool is neither resized nor shut down, and a thread can be created for a worker that has died. -/
def Steady : PoolAction α → Prop
  | .resize _ _ | .shutdown => False
  | .worker .dying creatable => 0 < creatable
  | _ => True

instance instDecidableSteady : ∀ a : PoolAction α, Decidable (Steady a)
  | .resize _ _ | .shutdown => isFalse id
  | .worker .dying creatable => inferInstanceAs (Decidable (0 < creatable))
  | .worker .ready _ | .worker .asleep _ | .worker .notified _ | .worker (.executing _ _) _ | .worker .retiring _ =>
    isTrue trivial
  | .schedule _ | .clear | .wait _ | .task _ _ _ | .client _ => isTrue trivial

/-- What holds besides in a pool of `m` workers. -/
structure SteadyInv (m : UInt64) (p : Pool α) : Prop where
  count : p.workerCount = m
  target : m ≤ p.targetWorkerCount
  running : p.terminateAllWorkers = false
  staying : ∀ w ∈ p.workers, w ≠ .retiring
  waiting : ∀ c ∈ p.clients, ∃ k, c.pc = .wait k
  attentive : m ≠ 0 → p.Attentive

omit [DecidableEq α] in
/-- A worker that has died is replaced. -/
theorem Pool.workerDiedUnexpectedly_eq (hflag : p.terminateAllWorkers = false) (hpos : p.workerCount ≠ 0) (k : Nat) :
    p.workerDiedUnexpectedly (k + 1) =
      { p.notifyClients with targetWorkerCount := p.workerCount, workers := p.workers ++ [.ready] } := by
  have hlt : p.workerCount - 1 < p.workerCount := by
    have hpos' : 0 < p.workerCount.toNat := UInt64.lt_iff_toNat_lt.1 (UInt64.pos_iff_ne_zero.2 hpos)
    rw [UInt64.lt_iff_toNat_lt, Words.toNat_sub_one hpos']
    exact Nat.sub_lt hpos' Nat.one_pos
  have hcount : p.workerCount - 1 + 1 = p.workerCount := UInt64.sub_add_cancel _ _
  have hactive : p.activeWorkerCount - 1 + 1 = p.activeWorkerCount := UInt64.sub_add_cancel _ _
  unfold workerDiedUnexpectedly resize dropWorker notifyClients
  simp only [hflag, Bool.false_eq_true, if_false, hcount, if_pos (UInt64.le_of_lt hlt), createWorkers,
    if_pos hlt, hactive]
  cases k with
  | zero => rfl
  | succ k =>
    unfold createWorkers
    rw [if_neg (UInt64.lt_irrefl _)]

namespace SteadyInv

variable {m : UInt64} {w : PoolWorker α} {v : List (PoolWorker α)}

/-- A step of one worker that does not retire. -/
private theorem replace (hp : SteadyInv m p) (hatt : m ≠ 0 → p'.Attentive)
    (hworkers : p'.workers = p.workers.erase w ++ v) (hv : .retiring ∉ v) (hcount : p'.workerCount = p.workerCount)
    (htarget : p'.targetWorkerCount = p.targetWorkerCount) (hflag : p'.terminateAllWorkers = p.terminateAllWorkers)
    (hclients : ∀ c ∈ p'.clients, ∃ d ∈ p.clients, d.pc = c.pc) : SteadyInv m p' where
  count := hcount.trans hp.count
  target := htarget ▸ hp.target
  running := hflag.trans hp.running
  staying := by
    intro x hx
    rw [hworkers] at hx
    rcases List.mem_of_mem_erase_append hx with hx | hx
    · exact hp.staying x hx
    · rintro rfl
      exact hv hx
  waiting := by
    intro c hc
    obtain ⟨d, hd, hpc⟩ := hclients c hc
    rw [← hpc]
    exact hp.waiting d hd
  attentive := hatt

omit [DecidableEq α] in
private theorem notifyClients_pc (p : Pool α) : ∀ c ∈ p.notifyClients.clients, ∃ d ∈ p.clients, d.pc = c.pc := by
  intro c hc
  obtain ⟨d, hd, rfl⟩ := List.mem_map.1 hc
  exact ⟨d, hd, rfl⟩

/-- A pool with workers deserts nobody. -/
private theorem attentive_step (hc : p.Counted) (hwakeful : p.Wakeful) (hp : SteadyInv m p)
    (hst : PoolStep p a p' ev) (hm : m ≠ 0) : p'.Attentive := by
  have hatt := hp.attentive hm
  by_cases ha : a = .clear
  · subst ha
    have hnot : ¬ p.Deserts := by
      intro hd
      have hlen := hc.workers
      rw [hatt.workers_of_deserts hc hwakeful hd, hp.count] at hlen
      exact hm (UInt64.toNat_inj.1 hlen)
    cases hst with
    | clear => exact hatt.clear_iff.2 hnot
    | call pc ha => rcases ha with ⟨k, ha, -⟩ | ⟨ha, -⟩ <;> cases ha
  · exact hatt.step hc ha hst

theorem step (hc : p.Counted) (hwakeful : p.Wakeful) (hp : SteadyInv m p) (hok : Steady a)
    (hst : PoolStep p a p' ev) : SteadyInv m p' := by
  have hatt : m ≠ 0 → p'.Attentive := hp.attentive_step hc hwakeful hst
  have hsame : ∀ c ∈ p.clients, ∃ d ∈ p.clients, d.pc = c.pc := fun c hc => ⟨c, hc, rfl⟩
  cases hst with
  | schedule task =>
    by_cases hs : .asleep ∈ p.workers
    · exact hp.replace hatt (if_pos hs) (by simp) rfl rfl rfl hsame
    · refine ⟨hp.count, hp.target, hp.running, ?_, hp.waiting, hatt⟩
      rw [Pool.schedule, if_neg hs]
      exact hp.staying
  | clear => exact ⟨hp.count, hp.target, hp.running, hp.staying, hp.waiting, hatt⟩
  | resize n creatable => exact hok.elim
  | take creatable hw hfree htask => exact hp.replace hatt rfl (by simp) rfl rfl rfl hsame
  | sleep creatable hw hfree hempty hcount =>
    exact hp.replace hatt rfl (by simp) rfl rfl rfl (notifyClients_pc p)
  | retire creatable hw hfree hcount hempty =>
    -- no more workers than wanted
    rw [hp.count] at hcount
    exact absurd hp.target (UInt64.not_le.2 hcount)
  | wake creatable hw => exact hp.replace hatt rfl (by simp) rfl rfl rfl hsame
  | stay creatable hw => exact hp.replace hatt rfl (by simp) rfl rfl rfl hsame
  | leave creatable hw => exact absurd rfl (hp.staying _ hw)
  | die creatable hw =>
    obtain ⟨k, rfl⟩ : ∃ k, creatable = k + 1 := Nat.exists_eq_succ_of_ne_zero (Nat.ne_of_gt hok)
    have hpos : p.workerCount ≠ 0 := by
      intro h0
      have hlen := hc.workers
      rw [h0] at hlen
      exact absurd hlen.symm (Nat.ne_of_gt (List.length_pos_of_mem hw))
    rw [Pool.workerDiedUnexpectedly_eq (p := { p with workers := p.workers.erase .dying }) hp.running hpos] at hatt ⊢
    refine ⟨hp.count, UInt64.le_of_eq hp.count.symm, hp.running, ?_, ?_, hatt⟩
    · intro x hx
      rcases List.mem_of_mem_erase_append hx with hx | hx
      · exact hp.staying x hx
      · rw [List.mem_singleton.1 hx]
        simp
    · intro c hc
      obtain ⟨d, hd, hpc⟩ := notifyClients_pc p c hc
      rw [← hpc]
      exact hp.waiting d hd
  | task r hw => exact hp.replace hatt rfl (by cases r <;> simp [TaskStep.worker]) rfl rfl rfl hsame
  | call pc ha =>
    refine ⟨hp.count, hp.target, hp.running, hp.staying, fun c hc => ?_, hatt⟩
    rcases List.mem_append.1 hc with hc | hc
    · exact hp.waiting c hc
    · rw [List.mem_singleton.1 hc]
      rcases ha with ⟨k, -, hpc⟩ | ⟨rfl, -⟩
      · exact ⟨k, hpc⟩
      · exact hok.elim
  | client n hc hcs hnext hdown =>
    obtain ⟨k, hk⟩ := hp.waiting _ hc
    refine ⟨hp.count, hp.target, hp.running, hp.staying, fun d hd => ?_, hatt⟩
    rcases List.mem_of_mem_erase_append hd with hd | hd
    · exact hp.waiting d hd
    · rcases hnext d hd with hpc | ⟨hpc, -⟩
      · exact ⟨k, hpc.trans hk⟩
      · rw [hk] at hpc
        cases hpc
  | terminate n hc hcs hpc =>
    obtain ⟨k, hk⟩ := hp.waiting _ hc
    rw [hk] at hpc
    cases hpc

omit [DecidableEq α] in
theorem create (n : UInt64) (creatable : Nat) :
    SteadyInv (Pool.create n creatable : Pool α).workerCount (Pool.create n creatable : Pool α) := by
  have hloop : ((Pool.create n creatable : Pool α).targetWorkerCount = n ∧
      (Pool.create n creatable : Pool α).workerCount ≤ n) ∧
      (Pool.create n creatable : Pool α).terminateAllWorkers = false ∧
      (∀ w ∈ (Pool.create n creatable : Pool α).workers, w ≠ .retiring) ∧
        (Pool.create n creatable : Pool α).clients = [] := by
    unfold Pool.create Pool.resize
    rw [if_neg Bool.false_ne_true]
    dsimp only
    rw [if_pos UInt64.zero_le]
    refine Pool.createWorkers_rule (P := fun q : Pool α => (q.targetWorkerCount = n ∧ q.workerCount ≤ n) ∧
      q.terminateAllWorkers = false ∧ (∀ w ∈ q.workers, w ≠ .retiring) ∧ q.clients = []) ?_
      ⟨⟨rfl, UInt64.zero_le⟩, rfl, fun w hw => absurd hw List.not_mem_nil, rfl⟩ creatable
    rintro q ⟨⟨htarget, -⟩, hflag, hstay, hclients⟩ hlt
    rw [htarget] at hlt
    refine ⟨⟨htarget, ?_⟩, hflag, fun w hw => ?_, hclients⟩
    · rw [UInt64.le_iff_toNat_le, Words.toNat_add_one (UInt64.lt_iff_toNat_lt.1 hlt)]
      exact UInt64.lt_iff_toNat_lt.1 hlt
    · rcases List.mem_append.1 hw with hw | hw
      · exact hstay w hw
      · rw [List.mem_singleton.1 hw]
        simp
  obtain ⟨⟨htarget, hle⟩, hflag, hstay, hclients⟩ := hloop
  have hnone : ∀ c, c ∉ (Pool.create n creatable : Pool α).clients := fun c hc => by
    rw [hclients] at hc
    cases hc
  exact ⟨rfl, htarget.symm ▸ hle, hflag, hstay, fun c hc => absurd hc (hnone c), fun _ c hc => absurd hc (hnone c)⟩

end SteadyInv

omit [DecidableEq α] in
/-- While there is something to do, a pool with workers has one awake. -/
theorem Pool.exists_awake (hc : p.Counted) (hwakeful : p.Wakeful) (hpos : p.workerCount ≠ 0) (hbusy : p.Busy 0) :
    ∃ w ∈ p.workers, w ≠ .asleep := by
  by_contra hno
  have hall : ∀ w ∈ p.workers, w = .asleep := fun w hw => by_contra fun hne => hno ⟨w, hw, hne⟩
  -- with all workers asleep no one is active and nothing is pending
  have hactive : p.activeWorkerCount = 0 := by
    have hcount : p.workers.countP PoolWorker.active = 0 := by
      rw [List.countP_eq_zero]
      intro w hw
      rw [hall w hw]
      exact Bool.false_ne_true
    exact UInt64.toNat_inj.1 (hc.active.trans hcount)
  rcases p.busy_zero.1 hbusy with h | h
  · exact h hactive
  · rcases hwakeful with hw | hw
    · have hnone : p.workers.countP PoolWorker.isNotified = 0 := by
        rw [List.countP_eq_zero]
        intro w hw
        rw [hall w hw]
        exact Bool.false_ne_true
      rw [hnone] at hw
      exact h (List.length_eq_zero_iff.1 (Nat.le_zero.1 hw))
    · have hnil : p.workers = [] := List.eq_nil_iff_forall_not_mem.2 fun w hmem => hw w hmem (hall w hmem)
      refine hpos (UInt64.toNat_inj.1 (hc.workers.trans ?_))
      rw [hnil]
      rfl

/-- A pool that is neither resized nor shut down keeps its workers, whichever tasks throw, as long as a thread can be
created for each worker that has died.  If it has workers, then one of them is awake as long as a task is running or
pending, and while a thread sleeps inside `wait(0)`. -/
theorem steady_pool_serves (hrun : Run Pool.step (fun _ _ a => Steady a) (Pool.create n creatable) h p) :
    p.workerCount = (Pool.create n creatable : Pool α).workerCount ∧ p.workers.length = p.workerCount.toNat ∧
    (∀ w ∈ p.workers, w ≠ .retiring) ∧
    (p.workerCount ≠ 0 → p.Busy 0 ∨ (∃ c ∈ p.clients, c.asleep = true ∧ c.pc = .wait 0) →
      ∃ w ∈ p.workers, w ≠ .asleep) := by
  have hinv : p.Inv h ∧ SteadyInv (Pool.create n creatable : Pool α).workerCount p := by
    refine hrun.invariant (I := fun h p => p.Inv h ∧ SteadyInv (Pool.create n creatable : Pool α).workerCount p)
      ⟨Pool.Inv.create n creatable, SteadyInv.create n creatable⟩ ?_
    rintro h p a p' ev ⟨hp, hs⟩ hok hst
    exact ⟨hp.step hst, hs.step hp.counted hp.wakeful hok (PoolStep.of_step hst)⟩
  obtain ⟨hp, hs⟩ := hinv
  refine ⟨hs.count, hp.counted.workers.symm, hs.staying, fun hpos hneed => ?_⟩
  rcases hneed with hb | ⟨c, hc, hsleep, hpc⟩
  · exact Pool.exists_awake hp.counted hp.wakeful hpos hb
  · rcases hs.attentive (hs.count ▸ hpos) c hc hsleep with hm | hnot
    · rw [hpc] at hm
      exact Pool.exists_awake hp.counted hp.wakeful hpos (hm rfl)
    · exact ⟨.notified, hnot, by simp⟩

/-- Both workers run a task, the first task throws, and a thread waits. -/
private def failingTask : List (PoolAction Nat) :=
  [.schedule 1, .schedule 2, .worker .ready 0, .worker .ready 0, .task 1 1 .throws, .worker .dying 1,
    .worker .ready 0, .wait 0, .client ⟨.wait 0, false⟩]

theorem steady_pool_serves_failingTask :
    let p := (Run.exec Pool.step [] (Pool.create 2 2) failingTask).2
    p.workerCount = 2 ∧ ∃ w ∈ p.workers, w ≠ .asleep := by
  have hrun : Run Pool.step (fun _ _ a => Steady a) (Pool.create 2 2)
      (Run.exec Pool.step [] (Pool.create 2 2) failingTask).1
      (Run.exec Pool.step [] (Pool.create 2 2) failingTask).2 := Run.exec_of_allowed Run.nil (by decide)
  have h := steady_pool_serves hrun
  exact ⟨h.1, h.2.2.2 (by decide) (Or.inr ⟨⟨.wait 0, true⟩, by decide⟩)⟩

/-! ### A pool that has been shut down -/

/-- Nothing is scheduled any more. -/
def Abandoned (_ : List (PoolEvent α)) (_ : Pool α) : PoolAction α → Prop
  | .schedule _ => False
  | _ => True

/-- The workers that are left are on their way out, and there is no task. -/
structure Pool.Quiet (p : Pool α) : Prop where
  flag : p.terminateAllWorkers = true
  target : p.targetWorkerCount = 0
  scheduler : p.scheduler = []
  workers : ∀ w ∈ p.workers, w = .notified ∨ w = .retiring

namespace Pool.Quiet

/-- A worker ends. -/
private theorem drop (hp : p.Quiet) (w : PoolWorker α) :
    Quiet { p with workers := p.workers.erase w } :=
  ⟨hp.flag, hp.target, hp.scheduler, fun _ hx => hp.workers _ (List.mem_of_mem_erase hx)⟩

theorem step (hc : p.Counted) (hp : p.Quiet) (hok : Abandoned h p a) (hst : PoolStep p a p' ev) :
    p'.Quiet ∧ ev.filterMap PoolEvent.fetched? = [] := by
  have hmem : ∀ w ∈ p.workers, w = .notified ∨ w = .retiring := hp.workers
  cases hst with
  | schedule task => exact hok.elim
  | clear => exact ⟨⟨hp.flag, hp.target, rfl, hp.workers⟩, rfl⟩
  | resize n creatable =>
    unfold Pool.resize
    rw [if_pos hp.flag]
    exact ⟨hp, rfl⟩
  | take creatable hw hfree htask =>
    rw [hp.scheduler] at htask
    cases htask
  | sleep creatable hw hfree hempty hcount =>
    rw [hp.target, UInt64.le_iff_toNat_le, hc.workers] at hcount
    exact absurd hcount (Nat.not_le.2 (List.length_pos_of_mem hw))
  | retire creatable hw hfree hcount hempty =>
    refine ⟨⟨hp.flag, hp.target, hp.scheduler, fun x hx => ?_⟩, rfl⟩
    rcases List.mem_of_mem_erase_append hx with hx | hx
    · exact hp.workers x hx
    · exact Or.inr (List.mem_singleton.1 hx)
  | wake creatable hw => rcases hmem _ hw with h | h <;> cases h
  | stay creatable hw => rcases hmem _ hw with h | h <;> cases h
  | leave creatable hw =>
    have hd := hp.drop .retiring
    exact ⟨⟨by simpa using hd.flag, by simpa using hd.target, by simpa using hd.scheduler, by simpa using hd.workers⟩,
      rfl⟩
  | die creatable hw => rcases hmem _ hw with h | h <;> cases h
  | task r hw => rcases hmem _ hw with h | h <;> cases h
  | call pc ha => exact ⟨⟨hp.flag, hp.target, hp.scheduler, hp.workers⟩, rfl⟩
  | client n hcl hcs hnext hdown =>
    exact ⟨⟨hp.flag, hp.target, hp.scheduler, hp.workers⟩, hcs.filterMap_eq_nil (fun _ => rfl) rfl⟩
  | terminate n hcl hcs hpc =>
    refine ⟨⟨rfl, rfl, hp.scheduler, fun x hx => ?_⟩, hcs.filterMap_eq_nil (fun _ => rfl) rfl⟩
    obtain ⟨w, hw, rfl⟩ := List.mem_map.1 hx
    rcases hp.workers w hw with rfl | rfl
    · exact Or.inl rfl
    · exact Or.inr rfl

end Pool.Quiet

/-- When `shutdown` returns no task is running, and if none is pending none is run afterwards: the workers that are
left only end. -/
theorem shut_down_pool_is_quiet (hrun : Run Pool.step (fun _ _ _ => True) (Pool.create n creatable) h p)
    (hst : p.step a = some (p', ev)) (hev : .shutDown ∈ ev) :
    p'.running = [] ∧ (∀ w ∈ p'.workers, w = .notified) ∧
    (p'.scheduler = [] → ∀ h' q, Run Pool.step Abandoned p' h' q →
      q.Quiet ∧ h'.filterMap PoolEvent.fetched? = []) := by
  have hp := (Pool.Inv.of_run hrun).step hst
  obtain ⟨hflag, hact⟩ := (PoolStep.of_step hst).shutDown (Pool.Inv.of_run hrun).terminating hev
  have hnotified : ∀ w ∈ p'.workers, w = .notified := by
    have hcount := hp.counted.active
    rw [hact] at hcount
    intro w hw
    have hinactive := List.countP_eq_zero.1 hcount.symm w hw
    have hawake := hp.terminating.awake hflag w hw
    cases w with
    | notified => rfl
    | asleep => exact absurd rfl hawake
    | _ => exact absurd rfl hinactive
  refine ⟨hp.running_of_active hact, hnotified, fun hempty h' q hrun' => ?_⟩
  have hquiet : p'.Quiet := ⟨hflag, hp.terminating.target hflag, hempty, fun w hw => Or.inl (hnotified w hw)⟩
  have hinv : (q.Counted ∧ q.Quiet) ∧ h'.filterMap PoolEvent.fetched? = [] := by
    refine hrun'.invariant (I := fun h q => (q.Counted ∧ q.Quiet) ∧ h.filterMap PoolEvent.fetched? = [])
      ⟨⟨hp.counted, hquiet⟩, rfl⟩ ?_
    rintro h q a q' ev ⟨⟨hc, hq⟩, hf⟩ hok hst
    have hs := PoolStep.of_step hst
    obtain ⟨hq', hf'⟩ := hq.step hc hok hs
    rw [List.filterMap_append, hf, hf']
    exact ⟨⟨hc.step hs, hq'⟩, rfl⟩
  exact ⟨hinv.1.2, hinv.2⟩

/-- The only worker sleeps when `shutdown` is called. -/
private def idleShutdown : List (PoolAction Nat) := [.worker .ready 0, .shutdown, .client ⟨.shutdown, false⟩]

theorem shut_down_pool_is_quiet_idleShutdown :
    let p := (Run.exec Pool.step [] (Pool.create 1 1) (idleShutdown ++ [.client ⟨.terminate, false⟩])).2
    p.workers.length = 1 ∧ ∀ w ∈ p.workers, w = .notified := by
  have hrun : Run Pool.step (fun _ _ _ => True) (Pool.create 1 1)
      (Run.exec Pool.step [] (Pool.create 1 1) idleShutdown).1
        (Run.exec Pool.step [] (Pool.create 1 1) idleShutdown).2 :=
    Run.exec_of_allowed Run.nil (by decide)
  exact ⟨by decide, (shut_down_pool_is_quiet hrun (a := .client ⟨.terminate, false⟩) rfl (by decide)).2.1⟩

end

end BdbMsgStore

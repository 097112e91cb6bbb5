import BdbMsgStore.PooledRefinement

/-!
# Runs of the provider on its pools

The pools of the provider make steps of their own only (`PooledProvider.pool_rule`), so what every step of a pool
keeps holds in them along a run.  With that and the refinement, the databases are exact whenever both pools are idle
(`pooled_idle_exact`).
-/

namespace BdbMsgStore

open StoreProvider

/-- The task has not begun. -/
def Thread.isFresh : Thread → Bool
  | .store .check _ => true
  | .store .put _ => true
  | .asyncDequeue (.wait (.dupTest n)) _ _ => decide (n = 0)
  | _ => false

/-- What is handed to a pool is a new task. -/
theorem isFresh_of_schedules {s : StoreProvider} {t t' : Thread} (hs : t.schedules = true)
    (ht' : t' ∈ (s.runThread t).2.1) : t'.isFresh = true := by
  cases t with
  | enqueue pc pae =>
    cases pc with
    | schedule =>
      rw [List.mem_singleton.1 ht']
      cases s.enableSmartAsync <;> rfl
    | _ => cases hs
  | store pc pae => cases hs
  | dequeue pc pid qid =>
    cases pc with
    | schedule =>
      rw [List.mem_singleton.1 ht']
      rfl
    | _ => cases hs
  | asyncDequeue pc pid qid =>
    cases pc with
    | wait w =>
      cases w with
      | returned r =>
        have hr : r = -1 := of_decide_eq_true hs
        subst hr
        rw [List.mem_singleton.1 ht']
        rfl
      | _ => cases hs
    | _ => cases hs

namespace PooledProvider

variable {c c' : PooledProvider} {name : PoolName} {a : PooledAction} {ev : List Event}
  {P : PoolName → Pool Thread → Prop}

/-! ### The steps of the pools -/

/-- What the steps of a pool keep when it is neither resized nor shut down, and only tasks that have not begun are
scheduled. -/
def Kept (P : PoolName → Pool Thread → Prop) : Prop :=
  ∀ name p a p' ev, P name p → Steady a → (∀ t, a = .schedule t → t.isFresh = true) → p.step a = some (p', ev) →
    P name p'

theorem pool_setPool_rule {p : Pool Thread} (hp : P name p) (hc : ∀ name, P name (c.pool name)) (name' : PoolName) :
    P name' ((c.setPool name p).pool name') := by
  rw [pool_setPool]
  split
  · rename_i hname
    exact hname ▸ hp
  · exact hc name'

theorem pool_schedule_rule (hP : Kept P) (hc : ∀ name, P name (c.pool name)) {ts : List Thread}
    (hts : ∀ t ∈ ts, t.isFresh = true) : ∀ name, P name ((c.schedule ts).pool name) := by
  induction ts generalizing c with
  | nil => exact hc
  | cons t ts ih =>
    refine ih (pool_setPool_rule (hP _ _ (.schedule t) _ _ (hc _) trivial ?_ rfl) hc) fun t' ht' =>
      hts t' (List.mem_cons_of_mem t ht')
    intro t' ht'
    cases ht'
    exact hts _ List.mem_cons_self

theorem pool_stepPool_rule (hP : Kept P) (hc : ∀ name, P name (c.pool name)) {b : PoolAction Thread}
    (hst : c.stepPool name b = some c') (hok : Steady b) (hb : ∀ t, b ≠ .schedule t) :
    ∀ name, P name (c'.pool name) := by
  unfold stepPool at hst
  obtain ⟨⟨p, ev⟩, hp, rfl⟩ := Option.map_eq_some_iff.1 hst
  exact pool_setPool_rule (hP _ _ _ _ _ (hc name) hok (fun t ht => absurd ht (hb t)) hp) hc

theorem pool_runTask_rule (hP : Kept P) (hc : ∀ name, P name (c.pool name)) (now : Thread) :
    ∀ name, P name ((c.runTask now).pool name) := by
  have hc' : ∀ s name, P name (({ c with provider := s } : PooledProvider).pool name) := by
    intro s name
    rw [pool_provider]
    exact hc name
  unfold runTask
  dsimp only
  split
  · rename_i hs
    exact pool_schedule_rule hP (hc' _) fun t ht => isFresh_of_schedules hs ht
  · exact hc' _

/-- A step of the system takes the pools through steps of their own. -/
theorem pool_rule (hP : Kept P) (hc : ∀ name, P name (c.pool name)) (hst : c.step a = some (c', ev)) :
    ∀ name, P name (c'.pool name) := by
  have hprovider : ∀ s name, P name (({ c with provider := s } : PooledProvider).pool name) := by
    intro s name
    rw [pool_provider]
    exact hc name
  cases a with
  | call a =>
    cases a with
    | advance t =>
      rw [PooledProvider.step] at hst
      split at hst
      · cases hst
        unfold advance
        dsimp only
        split
        · rename_i hs
          exact pool_schedule_rule hP (hprovider _) fun t ht => isFresh_of_schedules hs ht
        · exact hprovider _
      · cases hst
    | cleanEnqueueLog =>
      cases hst
      exact hprovider _
    | cleanDequeueLog =>
      cases hst
      exact hprovider _
    | _ =>
      change (c.provider.step _).map _ = _ at hst
      obtain ⟨⟨s, ev'⟩, hs, heq⟩ := Option.map_eq_some_iff.1 hst
      cases heq
      exact hprovider s
  | task name task now =>
    rw [PooledProvider.step, Option.map_eq_some_iff] at hst
    obtain ⟨s, hs, heq⟩ := hst
    cases heq
    exact pool_stepPool_rule hP (pool_runTask_rule hP hc now) hs trivial fun t ht => by cases ht
  | worker name w =>
    rw [PooledProvider.step, Option.map_eq_some_iff] at hst
    obtain ⟨s, hs, heq⟩ := hst
    cases heq
    refine pool_stepPool_rule hP hc hs ?_ fun t ht => by cases ht
    cases w with
    | dying => exact Nat.one_pos
    | _ => trivial
  | wait name k =>
    rw [PooledProvider.step, Option.map_eq_some_iff] at hst
    obtain ⟨s, hs, heq⟩ := hst
    cases heq
    exact pool_stepPool_rule hP hc hs trivial fun t ht => by cases ht
  | client name cl =>
    rw [PooledProvider.step, Option.map_eq_some_iff] at hst
    obtain ⟨s, hs, heq⟩ := hst
    cases heq
    exact pool_stepPool_rule hP hc hs trivial fun t ht => by cases ht
  | stop =>
    cases hst
    exact hprovider _
  | clear name =>
    cases hst
    exact pool_setPool_rule (hP _ _ .clear _ _ (hc name) trivial (fun t ht => by cases ht) rfl) hc

end PooledProvider

/-! ### The pools along a run -/

/-- A pool that `wait(0)` does not wait for has no task. -/
theorem Pool.Counted.inFlight_eq_nil {p : Pool Thread} (hp : p.Counted) (hidle : ¬ p.Busy 0) : p.inFlight = [] := by
  rw [Pool.busy_zero, not_or, not_not, not_not] at hidle
  obtain ⟨hact, hsched⟩ := hidle
  have hcount := hp.active
  rw [hact] at hcount
  have hnone := List.countP_eq_zero.1 hcount.symm
  rw [Pool.inFlight, hsched, List.nil_append, List.filterMap_eq_nil_iff]
  intro w hw
  have hw' := hnone w hw
  cases w with
  | executing task now => exact absurd rfl hw'
  | _ => rfl

/-- What holds in a pool with `m` workers. -/
structure StaffedPool (m : UInt64) (p : Pool Thread) : Prop where
  counted : p.Counted
  wakeful : p.Wakeful
  steady : SteadyInv m p

namespace StaffedPool

theorem create (n : UInt64) (creatable : Nat) :
    StaffedPool (Pool.create n creatable : Pool Thread).workerCount (Pool.create n creatable) :=
  ⟨(Pool.Inv.create n creatable).counted, (Pool.Inv.create n creatable).wakeful, SteadyInv.create n creatable⟩

theorem kept (m : PoolName → UInt64) : PooledProvider.Kept fun name p => StaffedPool (m name) p := by
  intro name p a p' ev hp hok _ hst
  have hs := PoolStep.of_step hst
  exact ⟨hp.counted.step hs, hp.wakeful.step hs, hp.steady.step hp.counted hp.wakeful hok hs⟩

end StaffedPool

section

variable {s₀ : StoreProvider} {n m : UInt64} {creatable : Nat} {h : List Event} {c : PooledProvider}

/-- The number of workers of each pool after `init`. -/
def staff (n m : UInt64) (creatable : Nat) (name : PoolName) : UInt64 :=
  ((PooledProvider.create { enableSmartAsync := false } n m creatable).pool name).workerCount

/-- The broker enqueues and dequeues each pair once, as in `Orderly`, and `finalizeMe` has not been called. -/
def PooledProvider.Orderly (h : List Event) (c : PooledProvider) (a : PooledAction) : Prop :=
  c.Keeps BdbMsgStore.Orderly h a ∧ a.Serving

theorem staffed_of_run
    (hrun : Run PooledProvider.step PooledProvider.Orderly (PooledProvider.create s₀ n m creatable) h c) :
    ∀ name, StaffedPool (staff n m creatable name) (c.pool name) := by
  refine hrun.invariant (I := fun _ c => ∀ name, StaffedPool (staff n m creatable name) (c.pool name)) ?_ ?_
  · intro name
    cases name with
    | enqueue => exact StaffedPool.create n creatable
    | dequeue => exact StaffedPool.create m creatable
  · intro h c a c' ev hc _ hst
    exact PooledProvider.pool_rule (StaffedPool.kept _) hc hst

/-- A pair on which no call and no task is in progress: its database content, by the calls made so far. -/
theorem pooled_stored_iff (hs₀ : s₀.Empty)
    (hrun : Run PooledProvider.step PooledProvider.Orderly (PooledProvider.create s₀ n m creatable) h c)
    {pid qid : UInt64} (hidle : ∀ t ∈ c.threads, t.key ≠ (pid, qid)) (v : Bytes) :
    c.provider.stored pid qid = some v ↔
      (∃ newId m, .enqueueCalled newId pid qid m ∈ h ∧ v = dbtValue (msgEncode m)) ∧ .dequeueCalled pid qid ∉ h := by
  obtain ⟨s, hrun', hm, hstop⟩ := Mirrors.of_serving discipline_orderly hs₀.threads (by rw [hs₀.tracker]) hrun
  obtain ⟨φ, ψ, hi⟩ := OrderlyInv.of_run hs₀ hrun'
  rw [← hi.stored_iff (fun t ht => hidle t ((hm.perm_of_running hstop).mem_iff.1 ht)) v, hm.eq_of_running hstop]
  rfl

theorem PooledProvider.threads_of_idle (hcounted : ∀ name, (c.pool name).Counted)
    (hidle : ∀ name, ¬ (c.pool name).Busy 0) : c.threads = c.provider.threads := by
  have h1 : c.enqueuePool.inFlight = [] := (hcounted .enqueue).inFlight_eq_nil (hidle .enqueue)
  have h2 : c.dequeuePool.inFlight = [] := (hcounted .dequeue).inFlight_eq_nil (hidle .dequeue)
  unfold PooledProvider.threads
  rw [h1, h2, List.append_nil, List.append_nil]

/-- In every run from an empty store up to `finalizeMe`, on pools with any numbers of threads, in which the broker
enqueues and dequeues each pair at most once: when `wait(0)` would return on both pools, a message on which the
broker makes no call is in the database of a queue, with the bytes that the database keeps of `msgEncode`, exactly
when it was enqueued there and not dequeued. -/
theorem pooled_idle_exact (hs₀ : s₀.Empty)
    (hrun : Run PooledProvider.step PooledProvider.Orderly (PooledProvider.create s₀ n m creatable) h c)
    (hidle : ∀ name, ¬ (c.pool name).Busy 0) {pid qid : UInt64}
    (hcall : ∀ t ∈ c.provider.threads, t.key ≠ (pid, qid)) (v : Bytes) :
    c.provider.stored pid qid = some v ↔
      (∃ newId m, .enqueueCalled newId pid qid m ∈ h ∧ v = dbtValue (msgEncode m)) ∧ .dequeueCalled pid qid ∉ h := by
  have hthreads := PooledProvider.threads_of_idle (fun name => (staffed_of_run hrun name).counted) hidle
  exact pooled_stored_iff hs₀ hrun (fun t ht => hcall t (hthreads ▸ ht)) v

end

instance PoolName.decidableForall (P : PoolName → Prop) [∀ name, Decidable (P name)] : Decidable (∀ name, P name) :=
  decidable_of_iff (P .enqueue ∧ P .dequeue)
    ⟨fun h name => by cases name; exacts [h.1, h.2], fun h => ⟨h .enqueue, h .dequeue⟩⟩

instance PooledProvider.decidableKeeps {ok : List Event → StoreProvider → Action → Prop}
    [∀ h s a, Decidable (ok h s a)] (h : List Event) (c : PooledProvider) : ∀ a, Decidable (c.Keeps ok h a)
  | .call a => inferInstanceAs (Decidable (ok h c.provider a))
  | .task _ _ _ | .worker _ _ | .wait _ _ | .client _ _ | .stop | .clear _ => isTrue trivial

instance PooledProvider.decidableOrderly (h : List Event) (c : PooledProvider) (a : PooledAction) :
    Decidable (c.Orderly h a) := inferInstanceAs (Decidable (_ ∧ _))

/-- A message is enqueued and stored, and both workers fall asleep. -/
private def storedAndAsleep : List PooledAction :=
  (enqueueCall 0 1 1).map .call ++ pooledStore 1 1 ++ [.worker .enqueue .ready, .worker .dequeue .ready]

theorem pooled_idle_exact_storedAndAsleep :
    (Run.exec PooledProvider.step [] (PooledProvider.create (singleQueue false) 1 1 1)
      storedAndAsleep).2.provider.stored 1 1 = some (msgEncode smallMessage) := by
  have hallowed : Run.Allowed PooledProvider.step PooledProvider.Orderly []
      (PooledProvider.create (singleQueue false) 1 1 1) storedAndAsleep := by decide +kernel
  have hthreads : (Run.exec PooledProvider.step [] (PooledProvider.create (singleQueue false) 1 1 1)
      storedAndAsleep).2.provider.threads = [] := by decide +kernel
  refine (pooled_idle_exact (empty_singleQueue false) (Run.exec_of_allowed Run.nil hallowed) (by decide +kernel)
    (fun t ht => ?_) _).2 ⟨⟨true, smallMessage, by decide +kernel, rfl⟩, by decide +kernel⟩
  rw [hthreads] at ht
  cases ht

end BdbMsgStore

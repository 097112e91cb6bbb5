import BdbMsgStore.PooledSteps
import BdbMsgStore.Quiescence

/-!
# The provider on its pools refines the provider with bags of tasks

Every step of `PooledProvider` is a step of `StoreProvider` or shows nothing and changes no more than where a task
stands: in a scheduler, or with a worker.  So every run on the pools has the events, the databases, the logs and the
tracker of a run of `StoreProvider`, and the same threads are in progress (`pooled_refines`).

A stopped provider gives up tasks: those that `clear` drops, and those whose `waitForPid` returns `-2`.  The other
system keeps them, as threads that make no more steps.  `Mirrors` carries the list of them.
-/

namespace BdbMsgStore

open StoreProvider

/-! ### The simulation -/

/-- The task has been told to stop: it returns without doing anything more. -/
def Thread.isStopped : Thread → Bool
  | .asyncDequeue (.wait (.returned r)) _ _ => decide (r = -2)
  | _ => false

/-- The task sleeps inside `waitForPid`. -/
def Thread.sleeps : Thread → Bool
  | .asyncDequeue (.wait (.dupWait _)) _ _ => true
  | .asyncDequeue (.wait (.mainWait _)) _ _ => true
  | _ => false

/-- The provider before it was stopped, with other threads. -/
def StoreProvider.unstop (s : StoreProvider) (threads : List Thread) : StoreProvider :=
  { s with tracker := { s.tracker with stopped := false }, threads := threads }

/-- The state `s` has all that `c` has, and the threads `given` that `c` has given up. -/
structure Mirrors (given : List Thread) (c : PooledProvider) (s : StoreProvider) : Prop where
  provider : s = c.provider.unstop s.threads
  threads : s.threads.Perm (c.threads.filter (fun t => !t.isStopped) ++ given)
  stopped : ∀ t ∈ c.threads, t.isStopped = true → c.provider.tracker.stopped = true

private theorem modifyJournal_unstop (s : StoreProvider) (threads : List Thread) (qid : UInt64)
    (f : JournalImpl → JournalImpl) :
    (s.unstop threads).modifyJournal qid f = (s.modifyJournal qid f).unstop threads := by
  unfold StoreProvider.modifyJournal
  rw [show (s.unstop threads).journalList = s.journalList from rfl]
  cases s.journalList.find? qid <;> rfl

private theorem enqueueCheck_unstop (t : PidTracker) (pid qid : UInt64) :
    PidTracker.enqueueCheck { t with stopped := false } pid qid =
      ((t.enqueueCheck pid qid).1, { (t.enqueueCheck pid qid).2 with stopped := false }) := by
  unfold PidTracker.enqueueCheck
  rw [show PidTracker.isPending { t with stopped := false } pid qid = t.isPending pid qid from rfl]
  cases t.isPending pid qid <;> rfl

private theorem dequeueCheck_unstop (t : PidTracker) (pid qid : UInt64) :
    PidTracker.dequeueCheck { t with stopped := false } pid qid =
      ((t.dequeueCheck pid qid).1, { (t.dequeueCheck pid qid).2 with stopped := false }) := by
  unfold PidTracker.dequeueCheck
  rw [show PidTracker.isPending { t with stopped := false } pid qid = t.isPending pid qid from rfl]
  cases t.isPending pid qid <;> rfl

private theorem addPidDup_unstop (t : PidTracker) (pid qid : UInt64) :
    PidTracker.addPidDup { t with stopped := false } pid qid =
      ((t.addPidDup pid qid).1, { (t.addPidDup pid qid).2 with stopped := false }) := by
  unfold PidTracker.addPidDup
  rw [show PidTracker.isDuplicate { t with stopped := false } pid qid = t.isDuplicate pid qid from rfl]
  cases t.isDuplicate pid qid <;> rfl

private theorem waitForPid_unstop {t : PidTracker} (pid qid : UInt64) {pc : WaitPc}
    (h : t.stopped = true → (∀ n, pc ≠ .dupWait n) ∧ ∀ n, pc ≠ .mainWait n) :
    PidTracker.waitForPid { t with stopped := false } pid qid pc = t.waitForPid pid qid pc := by
  cases hs : t.stopped with
  | false => cases pc <;> simp [PidTracker.waitForPid, PidTracker.isDuplicate, hs]
  | true =>
    obtain ⟨hdup, hmain⟩ := h hs
    cases pc with
    | dupWait n => exact absurd rfl (hdup n)
    | mainWait n => exact absurd rfl (hmain n)
    | _ => rfl

/-- A step of a thread does not depend on the other threads, and on whether the store is being stopped only when the
thread sleeps. -/
theorem runThread_unstop (s : StoreProvider) (threads : List Thread) {t : Thread}
    (h : s.tracker.stopped = true → t.sleeps = false) :
    (s.unstop threads).runThread t = ((s.runThread t).1.unstop threads, (s.runThread t).2) := by
  cases t with
  | enqueue pc pae => cases pc <;> rfl
  | store pc pae =>
    cases pc with
    | check => simp only [runThread, unstop, enqueueCheck_unstop]
    | put => exact Prod.ext (modifyJournal_unstop ..) rfl
    | addPidDup => simp only [runThread, unstop, addPidDup_unstop]
    | _ => rfl
  | dequeue pc pid qid =>
    cases pc with
    | check => simp only [runThread, unstop, dequeueCheck_unstop]
    | _ => rfl
  | asyncDequeue pc pid qid =>
    cases pc with
    | remove => exact Prod.ext (modifyJournal_unstop ..) rfl
    | logComplete => rfl
    | wait w =>
      have hwait : PidTracker.waitForPid { s.tracker with stopped := false } pid qid w =
          s.tracker.waitForPid pid qid w := by
        refine waitForPid_unstop pid qid fun hs => ⟨fun n hw => ?_, fun n hw => ?_⟩
        · subst hw
          cases h hs
        · subst hw
          cases h hs
      cases w with
      | returned r => rfl
      | _ => simp only [runThread, unstop, hwait]

/-- Without a stop no task is told to stop. -/
theorem isStopped_of_mem_runThread {s : StoreProvider} (hs : s.tracker.stopped = false) {t t' : Thread}
    (h : t' ∈ (s.runThread t).2.1) : t'.isStopped = false := by
  cases t with
  | enqueue pc pae => cases pc <;> simp [runThread] at h <;> subst h <;> rfl
  | store pc pae =>
    cases pc with
    | addPidDup =>
      simp only [runThread] at h
      split at h
      · cases h
      · rw [List.mem_singleton.1 h]
        rfl
    | _ => simp [runThread] at h <;> subst h <;> rfl
  | dequeue pc pid qid => cases pc <;> simp [runThread] at h <;> subst h <;> rfl
  | asyncDequeue pc pid qid =>
    cases pc with
    | wait w =>
      cases w with
      | returned r =>
        simp only [runThread] at h
        split at h
        · rw [List.mem_singleton.1 h]
          rfl
        · split at h
          · cases h
          · rw [List.mem_singleton.1 h]
            rfl
      | _ =>
        rw [List.mem_singleton.1 h]
        simp only [PidTracker.waitForPid, hs, Bool.false_eq_true, if_false]
        repeat' split
        all_goals simp [Thread.isStopped]
    | _ => simp [runThread] at h <;> subst h <;> rfl

/-- A task that has been told to stop returns. -/
private theorem runThread_isStopped (s : StoreProvider) {t : Thread} (h : t.isStopped = true) :
    s.runThread t = (s, [], []) := by
  cases t with
  | asyncDequeue pc pid qid =>
    cases pc with
    | wait w =>
      cases w with
      | returned r =>
        have hr : r = -2 := of_decide_eq_true h
        subst hr
        rfl
      | _ => cases h
    | _ => cases h
  | _ => cases h

/-- A sleeping task of a stopped provider is told to stop. -/
private theorem runThread_sleeps {s : StoreProvider} (hs : s.tracker.stopped = true) {t : Thread}
    (h : t.sleeps = true) : ∃ t', t'.isStopped = true ∧ s.runThread t = (s, [t'], []) := by
  cases t with
  | asyncDequeue pc pid qid =>
    refine ⟨.asyncDequeue (.wait (.returned (-2))) pid qid, rfl, ?_⟩
    cases pc with
    | wait w =>
      cases w with
      | dupWait n => simp [runThread, PidTracker.waitForPid, hs]
      | mainWait n => simp [runThread, PidTracker.waitForPid, hs]
      | _ => cases h
    | _ => cases h
  | _ => cases h

/-- A call of the broker begins with the same step whatever else is in progress. -/
private theorem step_unstop {s s₁ : StoreProvider} {ev : List Event} {a : Action} (ha : ∀ t, a ≠ .advance t)
    (hst : s.step a = some (s₁, ev)) :
    ∃ new : List Thread, s₁.threads = s.threads ++ new ∧ (∀ t ∈ new, t.isStopped = false) ∧
      ∀ threads, (s.unstop threads).step a = some (s₁.unstop (threads ++ new), ev) := by
  cases a with
  | enqueue messageId qid m =>
    simp only [StoreProvider.step] at hst
    split at hst
    · cases hst
    · rename_i hq
      have hnew : ∀ pid, ∀ t ∈ [Thread.enqueue .logStart (m.pending pid qid)], t.isStopped = false := by
        intro pid t ht
        rw [List.mem_singleton.1 ht]
        rfl
      split at hst
      · rename_i hid
        cases hst
        exact ⟨_, rfl, hnew _, fun threads => (if_neg hq).trans (if_pos hid)⟩
      · rename_i hid
        cases hst
        exact ⟨_, rfl, hnew _, fun threads => (if_neg hq).trans (if_neg hid)⟩
  | dequeue pid qid =>
    simp only [StoreProvider.step] at hst
    split at hst
    · cases hst
    · rename_i hq
      cases hst
      refine ⟨_, rfl, fun t ht => ?_, fun threads => if_neg hq⟩
      rw [List.mem_singleton.1 ht]
      rfl
  | advance t => exact absurd rfl (ha t)
  | cleanEnqueueLog =>
    cases hst
    exact ⟨[], (List.append_nil _).symm, fun t ht => absurd ht List.not_mem_nil,
      fun threads => by rw [List.append_nil]; rfl⟩
  | cleanDequeueLog =>
    cases hst
    exact ⟨[], (List.append_nil _).symm, fun t ht => absurd ht List.not_mem_nil,
      fun threads => by rw [List.append_nil]; rfl⟩

namespace Mirrors

variable {given : List Thread} {c c' : PooledProvider} {s : StoreProvider} {t : Thread}

/-- A step of a thread that has not been given up and is not told to stop is the same step of `s`. -/
private theorem run_live (hm : Mirrors given c s) (ht : t ∈ c.threads)
    (hthreads : (t :: c'.threads).Perm ((c.provider.runThread t).2.1 ++ c.threads))
    (hprovider : c'.provider = { (c.provider.runThread t).1 with threads := c'.provider.threads })
    (hstop : t.isStopped = false) (hlive : c.provider.tracker.stopped = true → t.sleeps = false) :
    ∃ s', s.step (.advance t) = some (s', (c.provider.runThread t).2.2) ∧ Mirrors given c' s' := by
  have hrun := runThread_unstop c.provider s.threads hlive
  rw [← hm.provider] at hrun
  have hts : t ∈ s.threads := by
    refine hm.threads.mem_iff.2 (List.mem_append_left _ (List.mem_filter.2 ⟨ht, ?_⟩))
    simp [hstop]
  have hunstopped : ∀ t' ∈ (c.provider.runThread t).2.1, t'.isStopped = false := by
    intro t' ht'
    have hs : s.tracker.stopped = false := by
      rw [hm.provider]
      rfl
    refine isStopped_of_mem_runThread hs (t := t) ?_
    rw [hrun]
    exact ht'
  refine ⟨{ (s.runThread t).1 with threads := s.threads.erase t ++ (s.runThread t).2.1 }, ?_, ?_, ?_, ?_⟩
  · simp only [StoreProvider.step, if_pos hts, hrun]
  · rw [hrun, hprovider]
    rfl
  · rw [hrun]
    have hfilter := hthreads.filter fun t => !t.isStopped
    have hnew : (c.provider.runThread t).2.1.filter (fun t => !t.isStopped) = (c.provider.runThread t).2.1 :=
      List.filter_eq_self.2 fun t' ht' => by simp [hunstopped t' ht']
    rw [List.filter_cons_of_pos (by simp [hstop]), List.filter_append, hnew] at hfilter
    have hperm := List.cons_erase_append_perm hts (c.provider.runThread t).2.1
    rw [List.perm_iff_count] at hperm hfilter ⊢
    intro x
    have h1 := hperm x
    have h2 := hfilter x
    have h3 := hm.threads.count_eq x
    simp only [List.count_append, List.count_cons] at h1 h2 h3 ⊢
    omega
  · intro t' ht' hst'
    rw [hprovider]
    refine (stopped_runThread t).trans ?_
    rcases List.mem_append.1 (hthreads.mem_iff.1 (List.mem_cons_of_mem t ht')) with h | h
    · rw [hunstopped t' h] at hst'
      cases hst'
    · exact hm.stopped t' h hst'

/-- A step of one thread of `c`: it is the same step of `s`, or the thread has been given up. -/
theorem run (hm : Mirrors given c s) (ht : t ∈ c.threads)
    (hthreads : (t :: c'.threads).Perm ((c.provider.runThread t).2.1 ++ c.threads))
    (hprovider : c'.provider = { (c.provider.runThread t).1 with threads := c'.provider.threads }) :
    ((c.provider.runThread t).2.2 = [] ∧ c.provider.tracker.stopped = true ∧
      ∃ given', (∀ x ∈ given', x ∈ given ∨ x.sleeps = true) ∧ Mirrors given' c' s) ∨
      ∃ s', s.step (.advance t) = some (s', (c.provider.runThread t).2.2) ∧ Mirrors given c' s' := by
  have hfilter := hthreads.filter fun t => !t.isStopped
  have hstop' : c'.provider.tracker.stopped = c.provider.tracker.stopped := by
    rw [hprovider]
    exact stopped_runThread t
  by_cases hstop : t.isStopped = true
  · -- the task has been given up before
    have hrun := runThread_isStopped c.provider hstop
    rw [hrun] at hprovider
    rw [hrun, List.filter_cons_of_neg (by simp [hstop]), List.nil_append] at hfilter
    refine Or.inl ⟨by rw [hrun], hm.stopped t ht hstop, given, fun x hx => Or.inl hx, ?_, ?_, ?_⟩
    · rw [hprovider]
      exact hm.provider
    · exact hm.threads.trans (hfilter.symm.append_right _)
    · intro t' ht' _
      rw [hstop']
      exact hm.stopped t ht hstop
  · by_cases hsl : c.provider.tracker.stopped = true ∧ t.sleeps = true
    · -- the task is given up now
      obtain ⟨z, hz, hrun⟩ := runThread_sleeps hsl.1 hsl.2
      rw [hrun] at hprovider
      rw [hrun, List.filter_cons_of_pos (by simp [hstop]), List.singleton_append,
        List.filter_cons_of_neg (by simp [hz])] at hfilter
      refine Or.inl ⟨by rw [hrun], hsl.1, t :: given, fun x hx => ?_, ?_, ?_, ?_⟩
      · rcases List.mem_cons.1 hx with rfl | hx
        · exact Or.inr hsl.2
        · exact Or.inl hx
      · rw [hprovider]
        exact hm.provider
      · refine hm.threads.trans ((hfilter.symm.append_right _).trans ?_)
        exact List.perm_middle.symm
      · intro t' ht' _
        rw [hstop']
        exact hsl.1
    · refine Or.inr (hm.run_live ht hthreads hprovider (Bool.eq_false_iff.2 hstop) fun hs => ?_)
      exact Bool.eq_false_iff.2 fun hsleeps => hsl ⟨hs, hsleeps⟩

/-- A call of the broker begins, or a log is cleaned. -/
theorem call (hm : Mirrors given c s) {a : Action} (ha : ∀ t, a ≠ .advance t) {s₁ : StoreProvider} {ev : List Event}
    (hst : c.provider.step a = some (s₁, ev)) :
    ∃ s', s.step a = some (s', ev) ∧ Mirrors given { c with provider := s₁ } s' := by
  obtain ⟨new, hthreads, hnew, hstep⟩ := step_unstop ha hst
  have hs := hstep s.threads
  rw [← hm.provider] at hs
  refine ⟨_, hs, rfl, ?_, fun t ht hstop => ?_⟩
  · have hlive : new.filter (fun t => !t.isStopped) = new :=
      List.filter_eq_self.2 fun t ht => by simp [hnew t ht]
    have hold := hm.threads
    unfold PooledProvider.threads at hold ⊢
    dsimp only
    rw [hthreads]
    rw [List.perm_iff_count] at hold ⊢
    intro x
    have h := hold x
    simp only [StoreProvider.unstop, List.filter_append, hlive, List.count_append] at h ⊢
    omega
  · rw [step_stopped hst]
    have hmem : t ∈ c.threads := by
      unfold PooledProvider.threads at ht ⊢
      dsimp only at ht
      rw [hthreads] at ht
      simp only [List.mem_append] at ht ⊢
      rcases ht with ((ht | ht) | ht) | ht
      · exact Or.inl (Or.inl ht)
      · rw [hnew t ht] at hstop
        cases hstop
      · exact Or.inl (Or.inr ht)
      · exact Or.inr ht
    exact hm.stopped t hmem hstop

/-- Nothing happens but that tasks move inside their pools. -/
theorem move (hm : Mirrors given c s) (hthreads : c'.threads.Perm c.threads) (hprovider : c'.provider = c.provider) :
    Mirrors given c' s where
  provider := hprovider ▸ hm.provider
  threads := hm.threads.trans ((hthreads.symm.filter _).append_right _)
  stopped := fun t ht hs => hprovider ▸ hm.stopped t (hthreads.mem_iff.1 ht) hs

theorem stop (hm : Mirrors given c s) :
    Mirrors given { c with provider := { c.provider with tracker := { c.provider.tracker with stopped := true } } } s
      where
  provider := hm.provider
  threads := hm.threads
  stopped := fun _ _ _ => rfl

theorem clear (hm : Mirrors given c s) (name : PoolName) :
    ∃ given', (∀ x ∈ given', x ∈ given ∨ x ∈ (c.pool name).scheduler) ∧
      Mirrors given' (c.setPool name (c.pool name).clear) s := by
  have hcount := fun x => PooledProvider.count_setPool c name (c.pool name).clear x
  have hperm : ((c.setPool name (c.pool name).clear).threads ++ (c.pool name).scheduler).Perm c.threads := by
    rw [List.perm_iff_count]
    intro x
    have h := hcount x
    simp only [Pool.inFlight, Pool.clear, List.count_append, List.nil_append] at h ⊢
    omega
  refine ⟨(c.pool name).scheduler.filter (fun t => !t.isStopped) ++ given, fun x hx => ?_, ?_, ?_, fun t ht hs => ?_⟩
  · rcases List.mem_append.1 hx with hx | hx
    · exact Or.inr (List.mem_filter.1 hx).1
    · exact Or.inl hx
  · rw [PooledProvider.provider_setPool]
    exact hm.provider
  · rw [← List.append_assoc, ← List.filter_append]
    exact hm.threads.trans ((hperm.symm.filter _).append_right _)
  · rw [PooledProvider.provider_setPool]
    exact hm.stopped t (hperm.mem_iff.1 (List.mem_append_left _ ht)) hs

end Mirrors

/-! ### Runs -/

/-- `finalizeMe` has not been called. -/
def PooledAction.Serving : PooledAction → Prop
  | .stop | .clear _ => False
  | _ => True

/-- The broker makes calls that `ok` allows. -/
def PooledProvider.Keeps (ok : List Event → StoreProvider → Action → Prop) (h : List Event) (c : PooledProvider) :
    PooledAction → Prop
  | .call a => ok h c.provider a
  | _ => True

/-- A discipline for the calls of the broker that does not look at the tasks in progress. -/
structure Discipline (ok : List Event → StoreProvider → Action → Prop) : Prop where
  unstop : ∀ {h s a} (threads : List Thread), ok h s a → ok h (s.unstop threads) a
  advance : ∀ h s (t : Thread), ok h s (.advance t)

theorem discipline_orderly : Discipline Orderly where
  unstop := fun {_ _ a} _ ho => by cases a <;> exact ho
  advance := fun _ _ _ => trivial

theorem discipline_none : Discipline fun _ _ _ => True where
  unstop := fun _ _ => trivial
  advance := fun _ _ _ => trivial

/-- A step of the system is a step of the provider that is not on pools, or shows nothing.  What it gives up was
pending or asleep. -/
theorem Mirrors.step {ok : List Event → StoreProvider → Action → Prop} (hd : Discipline ok) {h ev : List Event}
    {given : List Thread} {c c' : PooledProvider} {s : StoreProvider} {a : PooledAction} (hm : Mirrors given c s)
    (hok : c.Keeps ok h a) (hst : c.step a = some (c', ev)) :
    ∃ given', (a.Serving → c.provider.tracker.stopped = false → given' = given) ∧
      (∀ x ∈ given', x ∈ given ∨ x.sleeps = true ∨ ∃ name, x ∈ (c.pool name).scheduler) ∧
      ((ev = [] ∧ Mirrors given' c' s) ∨ ∃ b s', ok h s b ∧ s.step b = some (s', ev) ∧ Mirrors given' c' s') := by
  have hs := PooledStep.of_step hst
  cases hs with
  | run ht hthreads hprovider =>
    rcases hm.run ht hthreads hprovider with ⟨hev, hstop, given', hgiven, hm'⟩ | ⟨s', hst', hm'⟩
    · refine ⟨given', fun _ hrun => ?_, fun x hx => (hgiven x hx).imp_right Or.inl, Or.inl ⟨hev, hm'⟩⟩
      rw [hstop] at hrun
      cases hrun
    · exact ⟨given, fun _ _ => rfl, fun x hx => Or.inl hx, Or.inr ⟨.advance _, s', hd.advance .., hst', hm'⟩⟩
  | call ha hst' =>
    obtain ⟨s', hs', hm'⟩ := hm.call ha hst'
    refine ⟨given, fun _ _ => rfl, fun x hx => Or.inl hx, Or.inr ⟨_, s', ?_, hs', hm'⟩⟩
    rw [hm.provider]
    exact hd.unstop _ hok
  | move hthreads hprovider =>
    exact ⟨given, fun _ _ => rfl, fun x hx => Or.inl hx, Or.inl ⟨rfl, hm.move hthreads hprovider⟩⟩
  | stop => exact ⟨given, fun hserve => hserve.elim, fun x hx => Or.inl hx, Or.inl ⟨rfl, hm.stop⟩⟩
  | clear name =>
    obtain ⟨given', hgiven, hm'⟩ := hm.clear name
    exact ⟨given', fun hserve => hserve.elim, fun x hx => (hgiven x hx).imp_right fun h => Or.inr ⟨name, h⟩,
      Or.inl ⟨rfl, hm'⟩⟩

theorem stopped_of_serving {ev : List Event} {c c' : PooledProvider} {a : PooledAction} (hok : a.Serving)
    (hst : c.step a = some (c', ev)) : c'.provider.tracker.stopped = c.provider.tracker.stopped := by
  have hs := PooledStep.of_step hst
  cases hs with
  | run ht hthreads hprovider =>
    rw [hprovider]
    exact stopped_runThread _
  | call ha hst' => exact step_stopped hst'
  | move hthreads hprovider => rw [hprovider]
  | stop => exact hok.elim
  | clear name => exact hok.elim

theorem PooledProvider.threads_create (s : StoreProvider) (n m : UInt64) (creatable : Nat) :
    (PooledProvider.create s n m creatable).threads = s.threads := by
  unfold PooledProvider.threads PooledProvider.create Pool.create
  dsimp only
  rw [Pool.inFlight_resize, Pool.inFlight_resize]
  exact (List.append_nil _).trans (List.append_nil _)

section

variable {s₀ : StoreProvider} {n m : UInt64} {creatable : Nat} {h : List Event} {c : PooledProvider}

theorem mirrors_create (hthreads : s₀.threads = []) (hstopped : s₀.tracker.stopped = false) :
    Mirrors [] (PooledProvider.create s₀ n m creatable) s₀ where
  provider := by
    show s₀ = s₀.unstop s₀.threads
    unfold StoreProvider.unstop
    rw [← hstopped]
  threads := by
    rw [PooledProvider.threads_create, hthreads]
    exact List.Perm.refl _
  stopped := by
    intro t ht
    rw [PooledProvider.threads_create, hthreads] at ht
    cases ht

/-- Until `finalizeMe` a run has given nothing up. -/
theorem Mirrors.of_serving {ok : List Event → StoreProvider → Action → Prop} (hd : Discipline ok)
    (hthreads : s₀.threads = []) (hstopped : s₀.tracker.stopped = false)
    (hrun : Run PooledProvider.step (fun h c a => c.Keeps ok h a ∧ a.Serving)
      (PooledProvider.create s₀ n m creatable) h c) :
    ∃ s, Run StoreProvider.step ok s₀ h s ∧ Mirrors [] c s ∧ c.provider.tracker.stopped = false := by
  refine hrun.simulates (R := fun c s => Mirrors [] c s ∧ c.provider.tracker.stopped = false)
    ⟨mirrors_create hthreads hstopped, hstopped⟩ ?_
  rintro h c a c' ev s ⟨hm, hstop⟩ ⟨hok, hserving⟩ hst
  have hstop' := (stopped_of_serving hserving hst).trans hstop
  obtain ⟨given, hgiven, -, hstep⟩ := hm.step hd hok hst
  cases hgiven hserving hstop
  rcases hstep with ⟨hev, hm'⟩ | ⟨b, s', hb, hs', hm'⟩
  · exact Or.inl ⟨hev, hm', hstop'⟩
  · exact Or.inr ⟨b, s', hb, hs', hm', hstop'⟩

theorem Mirrors.eq_of_running {s : StoreProvider} (hm : Mirrors [] c s) (hstop : c.provider.tracker.stopped = false) :
    s = { c.provider with threads := s.threads } := by
  have hp := hm.provider
  unfold StoreProvider.unstop at hp
  rw [← hstop] at hp
  exact hp

theorem Mirrors.perm_of_running {s : StoreProvider} (hm : Mirrors [] c s)
    (hstop : c.provider.tracker.stopped = false) : s.threads.Perm c.threads := by
  have hall : c.threads.filter (fun t => !t.isStopped) = c.threads := by
    refine List.filter_eq_self.2 fun t ht => ?_
    cases ht' : t.isStopped with
    | false => rfl
    | true =>
      rw [hm.stopped t ht ht'] at hstop
      cases hstop
  have hperm := hm.threads
  rw [hall, List.append_nil] at hperm
  exact hperm

/-- Every run of the provider on its pools, with any numbers of threads and any calls of the broker, up to
`finalizeMe`, has the events of a run in which every task may make its next step at any time, and ends in the same
state: the same databases, logs, tracker and ids, and the same calls and tasks in progress. -/
theorem pooled_refines (hthreads : s₀.threads = []) (hstopped : s₀.tracker.stopped = false)
    (hrun : Run PooledProvider.step (fun _ _ a => a.Serving) (PooledProvider.create s₀ n m creatable) h c) :
    ∃ s, Run StoreProvider.step (fun _ _ _ => True) s₀ h s ∧ s = { c.provider with threads := s.threads } ∧
      s.threads.Perm c.threads := by
  have hkept : Run PooledProvider.step (fun h c a => c.Keeps (fun _ _ _ => True) h a ∧ a.Serving)
      (PooledProvider.create s₀ n m creatable) h c :=
    hrun.mono fun _ _ a hserving => ⟨by cases a <;> trivial, hserving⟩
  obtain ⟨s, hrun', hm, hstop⟩ := Mirrors.of_serving discipline_none hthreads hstopped hkept
  exact ⟨s, hrun', hm.eq_of_running hstop, hm.perm_of_running hstop⟩

end

instance PooledAction.decidableServing : ∀ a : PooledAction, Decidable a.Serving
  | .call _ | .task _ _ _ | .worker _ _ | .wait _ _ | .client _ _ => isTrue trivial
  | .stop | .clear _ => isFalse id

/-- A worker takes the `store` task of a small message and runs it to its end. -/
def pooledStore (pid qid : UInt64) : List PooledAction :=
  .worker .enqueue .ready :: [.put, .logComplete, .addPidDup, .addPidMain].map fun pc =>
    .task .enqueue (.store .put (smallMessage.pending pid qid)) (.store pc (smallMessage.pending pid qid))

/-- Two messages are enqueued, the second of them twice; the only worker for enqueues has stored the first one. -/
private def secondWaiting : List PooledAction :=
  (enqueueCall 0 1 1 ++ enqueueCall 0 2 1 ++ enqueueCall 2 2 1).map .call ++ pooledStore 1 1

theorem pooled_refines_secondWaiting :
    let r := Run.exec PooledProvider.step [] (PooledProvider.create (singleQueue false) 1 1 2) secondWaiting
    r.2.threads = [.store .put (smallMessage.pending 2 1), .store .put (smallMessage.pending 2 1)] ∧
      ∃ s, Run StoreProvider.step (fun _ _ _ => True) (singleQueue false) r.1 s ∧
        s = { r.2.provider with threads := s.threads } ∧ s.threads.Perm r.2.threads := by
  refine ⟨by decide +kernel, pooled_refines rfl rfl (Run.exec_of_allowed Run.nil ?_)⟩
  decide +kernel

end BdbMsgStore

import BdbMsgStore.PooledProgress

/-!
# Finalizing the provider

`finalizeMe` stops the tracker, clears both pools, waits for the tasks that are running, ends the log cleaners, and
then lets go of the journals and of the logger.  The tasks that it clears are not run; what they had to do stays in
the logs.

Nothing uses the journals or the logger after they are released (`finalize_releases_unused`): the enqueue pool stays
empty while the second `wait` runs, because a dequeue that is scheduled again goes to its own pool.
-/

namespace BdbMsgStore

open StoreProvider

/-! ### The thread that calls `finalizeMe` -/

/-- The next step of `finalizeMe`.  The erasure of unused files of the environment is not modelled. -/
inductive FinalizePc where
  | stop
  | clear (name : PoolName)
  | wait (name : PoolName)
  /-- Inside `wait(0)`. -/
  | waiting (name : PoolName)
  | joinEnqLogCleaner
  | joinDeqLogCleaner
  | stopJournals
  | deleteLogger
  | returned
  deriving DecidableEq

/-- What follows the `wait` on a pool. -/
def FinalizePc.afterWait : PoolName → FinalizePc
  | .enqueue => .wait .dequeue
  | .dequeue => .joinEnqLogCleaner

/-- The provider with the threads and objects that `finalizeMe` ends: a flag is set as long as the thread or object is
there. -/
structure Closing where
  pooled : PooledProvider
  enqLogCleanerThread : Bool := true
  deqLogCleanerThread : Bool := true
  journalList : Bool := true
  aologger : Bool := true
  /-- `none` before the call. -/
  finalizeMe : Option FinalizePc := none

inductive ClosingAction where
  /-- The broker, a task, a worker or a log cleaner. -/
  | system (a : PooledAction)
  /-- The thread that calls `finalizeMe`. -/
  | finalizeMe

namespace Closing

/-- The thread that makes the step is there; `stop`, `clear` and `wait` are called by `finalizeMe` alone. -/
def available (s : Closing) : PooledAction → Bool
  | .call .cleanEnqueueLog => s.enqLogCleanerThread
  | .call .cleanDequeueLog => s.deqLogCleanerThread
  | .call _ => true
  | .task _ _ _ => true
  | .worker _ _ => true
  | _ => false

/-- A step of the provider after which `finalizeMe` stands at `pc`. -/
def stepPooled (s : Closing) (a : PooledAction) (pc : PooledProvider → Option FinalizePc) :
    Option (Closing × List Event) :=
  (s.pooled.step a).map fun r => ({ s with pooled := r.1, finalizeMe := pc r.1 }, r.2)

/-- The next step of `finalizeMe`.  A cleaner is interrupted in its sleep, so `join` waits for a pass to end. -/
def stepFinalize (s : Closing) : Option FinalizePc → Option (Closing × List Event)
  | none => some ({ s with finalizeMe := some .stop }, [])
  | some .stop => s.stepPooled .stop fun _ => some (.clear .enqueue)
  | some (.clear .enqueue) => s.stepPooled (.clear .enqueue) fun _ => some (.clear .dequeue)
  | some (.clear .dequeue) => s.stepPooled (.clear .dequeue) fun _ => some (.wait .enqueue)
  | some (.wait name) => s.stepPooled (.wait name 0) fun _ => some (.waiting name)
  | some (.waiting name) =>
    -- `wait` returns when its test, made by a thread that is awake, finds the pool idle
    ((s.pooled.pool name).clients.find? fun c => c.pc = .wait 0).bind fun c => s.stepPooled (.client name c) fun _ =>
      some (if c.asleep = false ∧ ¬ (s.pooled.pool name).Busy 0 then .afterWait name else .waiting name)
  | some .joinEnqLogCleaner =>
    if s.pooled.provider.aologger.enqueueLog.cleaner = .sleeping then
      some ({ s with enqLogCleanerThread := false, finalizeMe := some .joinDeqLogCleaner }, [])
    else none
  | some .joinDeqLogCleaner =>
    if s.pooled.provider.aologger.dequeueLog.cleaner = .sleeping then
      some ({ s with deqLogCleanerThread := false, finalizeMe := some .stopJournals }, [])
    else none
  | some .stopJournals => some ({ s with journalList := false, finalizeMe := some .deleteLogger }, [])
  | some .deleteLogger => some ({ s with aologger := false, finalizeMe := some .returned }, [])
  | some .returned => none

def step (s : Closing) : ClosingAction → Option (Closing × List Event)
  | .system a => if s.available a then s.stepPooled a fun _ => s.finalizeMe else none
  | .finalizeMe => s.stepFinalize s.finalizeMe

def create (s : StoreProvider) (numThreadEnqueue numThreadDequeue : UInt64) (creatable : Nat) : Closing where
  pooled := .create s numThreadEnqueue numThreadDequeue creatable

/-- The call of the broker begins. -/
def isCall : StoreProvider.Action → Bool
  | .enqueue _ _ _ => true
  | .dequeue _ _ => true
  | _ => false

/-- The broker has no call in progress when `finalizeMe` is called, and makes none afterwards. -/
def Quiet (s : Closing) : ClosingAction → Prop
  | .system (.call a) => s.finalizeMe = none ∨ isCall a = false
  | .system _ => True
  | .finalizeMe => s.finalizeMe = none → s.pooled.provider.threads = []

/-- The broker makes calls that `ok` allows. -/
def Keeps (ok : List Event → StoreProvider → StoreProvider.Action → Prop) (h : List Event) (s : Closing) :
    ClosingAction → Prop
  | .system a => s.pooled.Keeps ok h a
  | .finalizeMe => True

end Closing

/-! ### Steps -/

/-- `finalizeMe` has waited for the pool at this point. -/
def FinalizePc.drained : FinalizePc → PoolName → Bool
  | .stop, _ => false
  | .clear _, _ => false
  | .wait name, name' => decide (name = .dequeue ∧ name' = .enqueue)
  | .waiting name, name' => decide (name = .dequeue ∧ name' = .enqueue)
  | _, _ => true

/-- A step of the provider that `finalizeMe` makes. -/
inductive FinalizeStep : PooledAction → FinalizePc → FinalizePc → Prop where
  | stop : FinalizeStep .stop .stop (.clear .enqueue)
  | clearEnqueue : FinalizeStep (.clear .enqueue) (.clear .enqueue) (.clear .dequeue)
  | clearDequeue : FinalizeStep (.clear .dequeue) (.clear .dequeue) (.wait .enqueue)
  | wait (name : PoolName) : FinalizeStep (.wait name 0) (.wait name) (.waiting name)
  | client (name : PoolName) (c : PoolClient) : FinalizeStep (.client name c) (.waiting name) (.waiting name)

/-- What a step does. -/
inductive ClosingStep (s : Closing) : ClosingAction → Closing → List Event → Prop where
  | system {a : PooledAction} {p : PooledProvider} {ev : List Event} (havailable : s.available a = true)
      (hst : s.pooled.step a = some (p, ev)) : ClosingStep s (.system a) { s with pooled := p } ev
  | call (hpc : s.finalizeMe = none) : ClosingStep s .finalizeMe { s with finalizeMe := some .stop } []
  | own {b : PooledAction} {pc pc' : FinalizePc} {p : PooledProvider} {ev : List Event} (hpc : s.finalizeMe = some pc)
      (hb : FinalizeStep b pc pc') (hst : s.pooled.step b = some (p, ev)) :
      ClosingStep s .finalizeMe { s with pooled := p, finalizeMe := some pc' } ev
  | waited {name : PoolName} {c : PoolClient} {p : PooledProvider} {ev : List Event}
      (hpc : s.finalizeMe = some (.waiting name)) (hidle : ¬ (s.pooled.pool name).Busy 0)
      (hst : s.pooled.step (.client name c) = some (p, ev)) :
      ClosingStep s .finalizeMe { s with pooled := p, finalizeMe := some (.afterWait name) } ev
  | joinEnqLogCleaner (hpc : s.finalizeMe = some .joinEnqLogCleaner)
      (hsleep : s.pooled.provider.aologger.enqueueLog.cleaner = .sleeping) :
      ClosingStep s .finalizeMe { s with enqLogCleanerThread := false, finalizeMe := some .joinDeqLogCleaner } []
  | joinDeqLogCleaner (hpc : s.finalizeMe = some .joinDeqLogCleaner)
      (hsleep : s.pooled.provider.aologger.dequeueLog.cleaner = .sleeping) :
      ClosingStep s .finalizeMe { s with deqLogCleanerThread := false, finalizeMe := some .stopJournals } []
  | stopJournals (hpc : s.finalizeMe = some .stopJournals) :
      ClosingStep s .finalizeMe { s with journalList := false, finalizeMe := some .deleteLogger } []
  | deleteLogger (hpc : s.finalizeMe = some .deleteLogger) :
      ClosingStep s .finalizeMe { s with aologger := false, finalizeMe := some .returned } []

namespace ClosingStep

variable {s s' : Closing} {h ev : List Event} {a : ClosingAction}

private theorem of_own {b : PooledAction} {pc pc' : FinalizePc} (hpc : s.finalizeMe = some pc)
    (hb : FinalizeStep b pc pc') (hst : s.stepPooled b (fun _ => some pc') = some (s', ev)) :
    ClosingStep s .finalizeMe s' ev := by
  unfold Closing.stepPooled at hst
  obtain ⟨⟨p, ev'⟩, hp, heq⟩ := Option.map_eq_some_iff.1 hst
  cases heq
  exact .own hpc hb hp

private theorem of_waiting {name : PoolName} (hpc : s.finalizeMe = some (.waiting name))
    (hst : s.stepFinalize (some (.waiting name)) = some (s', ev)) : ClosingStep s .finalizeMe s' ev := by
  unfold Closing.stepFinalize at hst
  obtain ⟨c, -, hst⟩ := Option.bind_eq_some_iff.1 hst
  unfold Closing.stepPooled at hst
  obtain ⟨⟨p, ev'⟩, hp, heq⟩ := Option.map_eq_some_iff.1 hst
  cases heq
  by_cases hret : c.asleep = false ∧ ¬ (s.pooled.pool name).Busy 0
  · dsimp only
    rw [if_pos hret]
    exact .waited hpc hret.2 hp
  · dsimp only
    rw [if_neg hret]
    exact .own hpc (.client name c) hp

theorem of_step (hst : s.step a = some (s', ev)) : ClosingStep s a s' ev := by
  cases a with
  | system a =>
    rw [Closing.step] at hst
    split at hst
    · rename_i havailable
      unfold Closing.stepPooled at hst
      obtain ⟨⟨p, ev'⟩, hp, heq⟩ := Option.map_eq_some_iff.1 hst
      cases heq
      exact .system havailable hp
    · cases hst
  | finalizeMe =>
    rw [Closing.step] at hst
    cases hpc : s.finalizeMe with
    | none =>
      rw [hpc] at hst
      cases hst
      exact .call hpc
    | some pc =>
      rw [hpc] at hst
      cases pc with
      | stop => exact of_own hpc .stop hst
      | clear name =>
        cases name with
        | enqueue => exact of_own hpc .clearEnqueue hst
        | dequeue => exact of_own hpc .clearDequeue hst
      | wait name => exact of_own hpc (.wait name) hst
      | waiting name => exact of_waiting hpc hst
      | joinEnqLogCleaner =>
        rw [Closing.stepFinalize] at hst
        split at hst
        · rename_i hsleep
          cases hst
          exact .joinEnqLogCleaner hpc hsleep
        · cases hst
      | joinDeqLogCleaner =>
        rw [Closing.stepFinalize] at hst
        split at hst
        · rename_i hsleep
          cases hst
          exact .joinDeqLogCleaner hpc hsleep
        · cases hst
      | stopJournals =>
        cases hst
        exact .stopJournals hpc
      | deleteLogger =>
        cases hst
        exact .deleteLogger hpc
      | returned => cases hst

/-- A step is one of the provider or leaves it alone. -/
theorem pooled_step {ok : List Event → StoreProvider → Action → Prop} (hok : s.Keeps ok h a)
    (hst : ClosingStep s a s' ev) :
    (s'.pooled = s.pooled ∧ ev = []) ∨ ∃ b, s.pooled.Keeps ok h b ∧ s.pooled.step b = some (s'.pooled, ev) := by
  cases hst with
  | @system a _ _ havailable hst => exact Or.inr ⟨a, hok, hst⟩
  | @own b _ _ _ _ hpc hb hst =>
    refine Or.inr ⟨b, ?_, hst⟩
    cases hb <;> trivial
  | @waited name c _ _ hpc hidle hst => exact Or.inr ⟨.client name c, trivial, hst⟩
  | _ => exact Or.inl ⟨rfl, rfl⟩

end ClosingStep

/-! ### What a step of the provider leaves alone -/

namespace PooledProvider

variable {c c' : PooledProvider} {b : PooledAction} {ev : List Event}

/-- While the broker makes no call, no call comes into progress. -/
theorem provider_threads_step (hthreads : c.provider.threads = []) (hb : ∀ a, b = .call a → Closing.isCall a = false)
    (hst : c.step b = some (c', ev)) : c'.provider.threads = [] := by
  have hpool : ∀ {d d' : PooledProvider} {name : PoolName} {x : PoolAction Thread}, d.stepPool name x = some d' →
      d'.provider = d.provider := by
    intro d d' name x hx
    unfold stepPool at hx
    obtain ⟨⟨p, ev⟩, -, rfl⟩ := Option.map_eq_some_iff.1 hx
    exact provider_setPool ..
  cases b with
  | call a =>
    cases a with
    | advance t =>
      rw [PooledProvider.step, hthreads, if_neg List.not_mem_nil] at hst
      cases hst
    | cleanEnqueueLog =>
      cases hst
      exact hthreads
    | cleanDequeueLog =>
      cases hst
      exact hthreads
    | enqueue messageId qid m => cases hb _ rfl
    | dequeue pid qid => cases hb _ rfl
  | task name task now =>
    rw [PooledProvider.step, Option.map_eq_some_iff] at hst
    obtain ⟨d, hd, heq⟩ := hst
    cases heq
    rw [hpool hd]
    unfold runTask
    dsimp only
    split
    · rw [provider_schedule]
      exact (PooledStep.threads_runThread _ _).trans hthreads
    · exact (PooledStep.threads_runThread _ _).trans hthreads
  | stop =>
    cases hst
    exact hthreads
  | _ =>
    rw [PooledProvider.step, Option.map_eq_some_iff] at hst
    obtain ⟨d, hd, heq⟩ := hst
    cases heq
    rw [hpool hd]
    exact hthreads

/-- A pool for which nothing is in progress gets nothing while the broker makes no call: a task schedules its like. -/
theorem poolName_step {name : PoolName} (hnone : ∀ t ∈ c.threads, t.poolName ≠ name)
    (hb : ∀ a, b = .call a → Closing.isCall a = false) (hst : c.step b = some (c', ev)) :
    ∀ t ∈ c'.threads, t.poolName ≠ name := by
  have hs := PooledStep.of_step hst
  cases hs with
  | @run _ _ t' ht hthreads hprovider =>
    intro t htc
    rcases List.mem_append.1 (hthreads.mem_iff.1 (List.mem_cons_of_mem t' htc)) with hnext | hold
    · have hname := hnone t' ht
      rwa [Thread.poolName, ← EnqueueSide.isEnqueue_of_mem_runThread hnext] at hname
    · exact hnone t hold
  | @call a _ _ ha hst' =>
    cases a with
    | advance t => exact absurd rfl (ha t)
    | cleanEnqueueLog =>
      cases hst'
      exact hnone
    | cleanDequeueLog =>
      cases hst'
      exact hnone
    | enqueue messageId qid m => cases hb _ rfl
    | dequeue pid qid => cases hb _ rfl
  | move hthreads hprovider => exact fun t ht => hnone t (hthreads.mem_iff.1 ht)
  | stop => exact hnone
  | clear name' =>
    intro t ht
    refine hnone t ?_
    have hcount := count_setPool c name' (c.pool name').clear t
    have hle : (c.pool name').clear.inFlight.count t ≤ (c.pool name').inFlight.count t := by
      simp only [Pool.inFlight, Pool.clear, List.count_append, List.count_nil]
      omega
    have hpos := List.count_pos_iff.2 ht
    exact List.count_pos_iff.1 (by omega)

/-- A cleaner stands where it stood when another thread makes a step. -/
theorem cleaner_runThread (s : StoreProvider) (t : Thread) :
    (s.runThread t).1.aologger.enqueueLog.cleaner = s.aologger.enqueueLog.cleaner ∧
      (s.runThread t).1.aologger.dequeueLog.cleaner = s.aologger.dequeueLog.cleaner := by
  cases t with
  | enqueue pc pae => cases pc <;> exact ⟨rfl, rfl⟩
  | store pc pae =>
    cases pc with
    | put => simp [runThread]
    | _ => exact ⟨rfl, rfl⟩
  | dequeue pc pid qid => cases pc <;> exact ⟨rfl, rfl⟩
  | asyncDequeue pc pid qid =>
    cases pc with
    | wait w => cases w <;> exact ⟨rfl, rfl⟩
    | remove => simp [runThread]
    | logComplete => exact ⟨rfl, rfl⟩

theorem cleaner_step (hst : c.step b = some (c', ev)) :
    (b ≠ .call .cleanEnqueueLog →
      c'.provider.aologger.enqueueLog.cleaner = c.provider.aologger.enqueueLog.cleaner) ∧
    (b ≠ .call .cleanDequeueLog →
      c'.provider.aologger.dequeueLog.cleaner = c.provider.aologger.dequeueLog.cleaner) := by
  have hs := PooledStep.of_step hst
  cases hs with
  | run ht hthreads hprovider =>
    rw [hprovider]
    obtain ⟨h1, h2⟩ := cleaner_runThread c.provider _
    exact ⟨fun _ => h1, fun _ => h2⟩
  | @call a _ _ ha hst' =>
    cases a with
    | advance t => exact absurd rfl (ha t)
    | enqueue messageId qid m =>
      rw [(step_enqueue hst').2.2.1]
      split <;> exact ⟨fun _ => rfl, fun _ => rfl⟩
    | dequeue pid qid =>
      rw [(step_dequeue hst').1]
      exact ⟨fun _ => rfl, fun _ => rfl⟩
    | cleanEnqueueLog =>
      cases hst'
      exact ⟨fun hne => absurd rfl hne, fun _ => rfl⟩
    | cleanDequeueLog =>
      cases hst'
      exact ⟨fun _ => rfl, fun hne => absurd rfl hne⟩
  | move hthreads hprovider =>
    rw [hprovider]
    exact ⟨fun _ => rfl, fun _ => rfl⟩
  | stop => exact ⟨fun _ => rfl, fun _ => rfl⟩
  | clear name =>
    rw [provider_setPool]
    exact ⟨fun _ => rfl, fun _ => rfl⟩

end PooledProvider

/-! ### The invariant -/

/-- The cleaner of the enqueue log has been joined at this point. -/
def FinalizePc.enqJoined : FinalizePc → Bool
  | .joinDeqLogCleaner => true
  | .stopJournals => true
  | .deleteLogger => true
  | .returned => true
  | _ => false

/-- The cleaner of the dequeue log has been joined at this point. -/
def FinalizePc.deqJoined : FinalizePc → Bool
  | .stopJournals => true
  | .deleteLogger => true
  | .returned => true
  | _ => false

/-- What holds in every state.  Once `finalizeMe` is called no call is in progress, and a pool that it has waited
for stays empty. -/
structure Closing.Inv (s : Closing) : Prop where
  counted : ∀ name, (s.pooled.pool name).Counted
  placed : s.pooled.Placed
  calls : s.finalizeMe ≠ none → s.pooled.provider.threads = []
  drained : ∀ pc, s.finalizeMe = some pc → ∀ name, pc.drained name = true → ∀ t ∈ s.pooled.threads, t.poolName ≠ name
  enqThread : s.enqLogCleanerThread = !s.finalizeMe.any FinalizePc.enqJoined
  deqThread : s.deqLogCleanerThread = !s.finalizeMe.any FinalizePc.deqJoined
  enqSleeping : s.enqLogCleanerThread = false → s.pooled.provider.aologger.enqueueLog.cleaner = .sleeping
  deqSleeping : s.deqLogCleanerThread = false → s.pooled.provider.aologger.dequeueLog.cleaner = .sleeping
  released : s.journalList = false ∨ s.aologger = false → s.finalizeMe = some .deleteLogger ∨
    s.finalizeMe = some .returned

namespace Closing.Inv

variable {s s' : Closing} {p : PooledProvider} {b : PooledAction} {h ev : List Event} {a : ClosingAction}

private theorem ne_none {pc : FinalizePc} (hpc : s.finalizeMe = some pc) : s.finalizeMe ≠ none := by
  rw [hpc]
  simp

/-- A step of the provider keeps all that does not depend on where `finalizeMe` stands. -/
private theorem pooled (hi : s.Inv) (hst : s.pooled.step b = some (p, ev)) (havailable : s.available b = true ∨
    (∀ x, b ≠ .call x)) (hb : s.finalizeMe ≠ none → ∀ x, b = .call x → Closing.isCall x = false) :
    Inv { s with pooled := p } where
  counted := by
    refine PooledProvider.pool_rule (P := fun _ p => p.Counted) ?_ hi.counted hst
    intro name p a p' ev hp _ _ hst
    exact hp.step (PoolStep.of_step hst)
  placed := hi.placed.step hst
  calls := fun hne => PooledProvider.provider_threads_step (hi.calls hne) (hb hne) hst
  drained := by
    intro pc hpc name hd
    exact PooledProvider.poolName_step (hi.drained pc hpc name hd) (hb (ne_none hpc)) hst
  enqThread := hi.enqThread
  deqThread := hi.deqThread
  enqSleeping := by
    intro hoff
    refine ((PooledProvider.cleaner_step hst).1 ?_).trans (hi.enqSleeping hoff)
    rintro rfl
    rcases havailable with hav | hno
    · rw [show s.enqLogCleanerThread = true from hav] at hoff
      cases hoff
    · exact hno _ rfl
  deqSleeping := by
    intro hoff
    refine ((PooledProvider.cleaner_step hst).2 ?_).trans (hi.deqSleeping hoff)
    rintro rfl
    rcases havailable with hav | hno
    · rw [show s.deqLogCleanerThread = true from hav] at hoff
      cases hoff
    · exact hno _ rfl
  released := hi.released

/-- `finalizeMe` comes to a point before the cleaners are joined. -/
private theorem moveOn (hi : s.Inv) {pc : FinalizePc} (hcalls : s.pooled.provider.threads = [])
    (hdrained : ∀ name, pc.drained name = true → ∀ t ∈ s.pooled.threads, t.poolName ≠ name)
    (henq : pc.enqJoined = false) (hdeq : pc.deqJoined = false)
    (hold : ∀ pc, s.finalizeMe = some pc → pc.enqJoined = false) :
    Inv { s with finalizeMe := some pc } := by
  have hnot : s.finalizeMe.any FinalizePc.enqJoined = false ∧ s.finalizeMe.any FinalizePc.deqJoined = false := by
    cases hpc : s.finalizeMe with
    | none => exact ⟨rfl, rfl⟩
    | some pc =>
      have he := hold pc hpc
      refine ⟨he, ?_⟩
      cases pc <;> first | rfl | cases he
  refine ⟨hi.counted, hi.placed, fun _ => hcalls, ?_, ?_, ?_, hi.enqSleeping, hi.deqSleeping, fun hrel => ?_⟩
  · intro pc' hpc'
    cases hpc'
    exact hdrained
  · rw [hi.enqThread, hnot.1]
    exact congrArg _ henq.symm
  · rw [hi.deqThread, hnot.2]
    exact congrArg _ hdeq.symm
  · rcases hi.released hrel with hpc | hpc
    · cases hold _ hpc
    · cases hold _ hpc

/-- With a pool idle nothing is in progress for it. -/
private theorem poolName_of_idle (hi : s.Inv) (hne : s.finalizeMe ≠ none) {name : PoolName}
    (hidle : ¬ (s.pooled.pool name).Busy 0) : ∀ t ∈ s.pooled.threads, t.poolName ≠ name := by
  intro t ht hname
  have hempty := (hi.counted name).inFlight_eq_nil hidle
  unfold PooledProvider.threads at ht
  rw [hi.calls hne, List.nil_append] at ht
  have hin : ∃ name', t ∈ (s.pooled.pool name').inFlight := by
    rcases List.mem_append.1 ht with ht | ht
    · exact ⟨.enqueue, ht⟩
    · exact ⟨.dequeue, ht⟩
  obtain ⟨name', hin⟩ := hin
  obtain rfl : name = name' := hname.symm.trans (hi.placed name' t hin)
  rw [hempty] at hin
  cases hin

theorem step (hi : s.Inv) (hok : s.Quiet a) (hst : ClosingStep s a s' ev) : s'.Inv := by
  cases hst with
  | @system b _ _ havailable hst =>
    refine hi.pooled hst (Or.inl havailable) ?_
    rintro hne x rfl
    exact hok.resolve_left hne
  | call hpc =>
    refine hi.moveOn (hok hpc) (fun name hd => by cases hd) rfl rfl ?_
    intro pc hpc'
    rw [hpc] at hpc'
    cases hpc'
  | @own b pc pc' p _ hpc hb hst =>
    have hnotCall : ∀ x, b ≠ .call x := by
      rintro x rfl
      cases hb
    have hi' := hi.pooled hst (Or.inr hnotCall) fun _ x hx => absurd hx (hnotCall x)
    have hold : ∀ pc, s.finalizeMe = some pc → pc.enqJoined = false := by
      intro pc₀ hpc₀
      rw [hpc] at hpc₀
      cases hpc₀
      cases hb <;> rfl
    refine hi'.moveOn (hi'.calls (ne_none hpc)) ?_ (by cases hb <;> rfl) (by cases hb <;> rfl) hold
    intro name hd
    refine hi'.drained pc hpc name ?_
    cases hb with
    | stop => cases hd
    | clearEnqueue => cases hd
    | clearDequeue => exact hd
    | wait name => exact hd
    | client name c => exact hd
  | @waited name c p _ hpc hidle hst =>
    have hnotCall : ∀ x, PooledAction.client name c ≠ .call x := fun x hx => by cases hx
    have hi' := hi.pooled hst (Or.inr hnotCall) fun _ x hx => absurd hx (hnotCall x)
    have hnone := PooledProvider.poolName_step (hi.poolName_of_idle (ne_none hpc) hidle)
      (fun x hx => absurd hx (hnotCall x)) hst
    have hold : ∀ pc, s.finalizeMe = some pc → pc.enqJoined = false := by
      intro pc₀ hpc₀
      rw [hpc] at hpc₀
      cases hpc₀
      rfl
    cases name with
    | enqueue =>
      refine hi'.moveOn (hi'.calls (ne_none hpc)) (fun name hd => ?_) rfl rfl hold
      cases name with
      | enqueue => exact hnone
      | dequeue => cases hd
    | dequeue =>
      refine hi'.moveOn (hi'.calls (ne_none hpc)) (fun name _ => ?_) rfl rfl hold
      cases name with
      | enqueue => exact hi'.drained _ hpc .enqueue rfl
      | dequeue => exact hnone
  | joinEnqLogCleaner hpc hsleep =>
    have hthread := hi.deqThread
    rw [hpc] at hthread
    exact ⟨hi.counted, hi.placed, fun _ => hi.calls (ne_none hpc),
      fun pc hpc' name hd => hi.drained _ hpc name rfl, rfl, hthread, fun _ => hsleep, hi.deqSleeping,
      fun hrel => by rcases hi.released hrel with h | h <;> rw [hpc] at h <;> cases h⟩
  | joinDeqLogCleaner hpc hsleep =>
    have hthread := hi.enqThread
    rw [hpc] at hthread
    exact ⟨hi.counted, hi.placed, fun _ => hi.calls (ne_none hpc),
      fun pc hpc' name hd => hi.drained _ hpc name rfl, hthread, rfl, hi.enqSleeping, fun _ => hsleep,
      fun hrel => by rcases hi.released hrel with h | h <;> rw [hpc] at h <;> cases h⟩
  | stopJournals hpc =>
    have henq := hi.enqThread
    have hdeq := hi.deqThread
    rw [hpc] at henq hdeq
    exact ⟨hi.counted, hi.placed, fun _ => hi.calls (ne_none hpc),
      fun pc hpc' name hd => hi.drained _ hpc name rfl, henq, hdeq, hi.enqSleeping, hi.deqSleeping,
      fun _ => Or.inl rfl⟩
  | deleteLogger hpc =>
    have henq := hi.enqThread
    have hdeq := hi.deqThread
    rw [hpc] at henq hdeq
    exact ⟨hi.counted, hi.placed, fun _ => hi.calls (ne_none hpc),
      fun pc hpc' name hd => hi.drained _ hpc name rfl, henq, hdeq, hi.enqSleeping, hi.deqSleeping,
      fun _ => Or.inr rfl⟩

variable {s₀ : StoreProvider} {n m : UInt64} {creatable : Nat}

theorem of_run (hrun : Run Closing.step (fun _ s a => s.Quiet a) (Closing.create s₀ n m creatable) h s) : s.Inv := by
  refine hrun.invariant (I := fun _ s => s.Inv) ?_ fun _ _ _ _ _ hi hok hst => hi.step hok (ClosingStep.of_step hst)
  refine ⟨fun name => ?_, PooledProvider.placed_create, fun hne => absurd rfl hne, fun pc hpc => (by cases hpc),
    rfl, rfl, fun hoff => (by cases hoff), fun hoff => (by cases hoff), fun hrel => ?_⟩
  · cases name with
    | enqueue => exact (Pool.Inv.create n creatable).counted
    | dequeue => exact (Pool.Inv.create m creatable).counted
  · rcases hrel with hrel | hrel <;> cases hrel

/-- After both waits nothing is in progress. -/
theorem threads_eq_nil (hi : s.Inv) {pc : FinalizePc} (hpc : s.finalizeMe = some pc)
    (hdrained : ∀ name, pc.drained name = true) : s.pooled.threads = [] :=
  List.eq_nil_iff_forall_not_mem.2 fun t ht => hi.drained pc hpc t.poolName (hdrained _) t ht rfl

end Closing.Inv

/-- In every run in which the broker has no call in progress when `finalizeMe` is called and makes none afterwards:
when the journals or the logger have been released no call and no task is in progress, no pass of a cleaner is under
way, and the only threads that still make steps are workers without a task. -/
theorem finalize_releases_unused {s₀ : StoreProvider} {n m : UInt64} {creatable : Nat} {h : List Event} {s : Closing}
    (hrun : Run Closing.step (fun _ s a => s.Quiet a) (Closing.create s₀ n m creatable) h s)
    (hreleased : s.journalList = false ∨ s.aologger = false) :
    s.pooled.threads = [] ∧ s.pooled.provider.aologger.enqueueLog.cleaner = .sleeping ∧
    s.pooled.provider.aologger.dequeueLog.cleaner = .sleeping ∧
    ∀ b s' ev, s.Quiet (.system b) → s.step (.system b) = some (s', ev) → ∃ name w, b = .worker name w := by
  have hi := Closing.Inv.of_run hrun
  obtain ⟨pc, hpc, hdrained, henq, hdeq⟩ : ∃ pc, s.finalizeMe = some pc ∧ (∀ name, pc.drained name = true) ∧
      s.enqLogCleanerThread = false ∧ s.deqLogCleanerThread = false := by
    have h1 := hi.enqThread
    have h2 := hi.deqThread
    rcases hi.released hreleased with hpc | hpc
    · rw [hpc] at h1 h2
      exact ⟨_, hpc, fun _ => rfl, h1, h2⟩
    · rw [hpc] at h1 h2
      exact ⟨_, hpc, fun _ => rfl, h1, h2⟩
  have hthreads := hi.threads_eq_nil hpc hdrained
  refine ⟨hthreads, hi.enqSleeping henq, hi.deqSleeping hdeq, fun b s' ev hok hst => ?_⟩
  cases ClosingStep.of_step hst with
  | system havailable hst =>
    cases b with
    | call a =>
      have hcall := hok.resolve_left (by rw [hpc]; simp)
      cases a with
      | enqueue messageId qid m => cases hcall
      | dequeue pid qid => cases hcall
      | advance t =>
        rw [PooledProvider.step, hi.calls (by rw [hpc]; simp), if_neg List.not_mem_nil] at hst
        cases hst
      | cleanEnqueueLog =>
        rw [show s.enqLogCleanerThread = true from havailable] at henq
        cases henq
      | cleanDequeueLog =>
        rw [show s.deqLogCleanerThread = true from havailable] at hdeq
        cases hdeq
    | task name task now =>
      rw [PooledProvider.step, Option.map_eq_some_iff] at hst
      obtain ⟨c, hc, -⟩ := hst
      have hmem := PooledProvider.mem_threads_of_executing (PooledProvider.executing_of_task hc)
      rw [hthreads] at hmem
      cases hmem
    | worker name w => exact ⟨name, w, rfl⟩
    | _ => cases havailable

instance Closing.decidableQuiet (s : Closing) : ∀ a, Decidable (s.Quiet a)
  | .system (.call a) => inferInstanceAs (Decidable (s.finalizeMe = none ∨ Closing.isCall a = false))
  | .system (.task _ _ _) | .system (.worker _ _) | .system (.wait _ _) | .system (.client _ _) | .system .stop
  | .system (.clear _) => isTrue trivial
  | .finalizeMe => inferInstanceAs (Decidable (s.finalizeMe = none → s.pooled.provider.threads = []))

/-- A message is stored.  The `store` task of a second one and the dequeue of the first are pending when
`finalizeMe` is called, and it clears them. -/
def clearedTasks : List ClosingAction :=
  ((enqueueCall 0 1 1).map PooledAction.call ++ pooledStore 1 1 ++
      (enqueueCall 0 2 1 ++ dequeueCall 1 1).map PooledAction.call).map ClosingAction.system ++
    List.replicate 5 .finalizeMe ++ [.system (.worker .enqueue .ready), .system (.worker .dequeue .ready)] ++
    List.replicate 7 .finalizeMe

theorem finalize_releases_unused_clearedTasks :
    let s := (Run.exec Closing.step [] (Closing.create (singleQueue false) 1 1 2) clearedTasks).2
    s.journalList = false ∧ s.pooled.threads = [] ∧ s.pooled.provider.aologger.enqueueLog.cleaner = .sleeping := by
  have hallowed : Run.Allowed Closing.step (fun _ s a => s.Quiet a) [] (Closing.create (singleQueue false) 1 1 2)
      clearedTasks := by decide +kernel
  have hreleased : (Run.exec Closing.step [] (Closing.create (singleQueue false) 1 1 2)
      clearedTasks).2.journalList = false := by decide +kernel
  obtain ⟨hthreads, hsleep, -⟩ := finalize_releases_unused (Run.exec_of_allowed Run.nil hallowed) (Or.inl hreleased)
  exact ⟨hreleased, hthreads, hsleep⟩

end BdbMsgStore

import BdbMsgStore.Monitored
import BdbMsgStore.PooledRefinement

/-!
# What is reported as pending

The counters of pending operations go up and down with the threads in progress, whatever the broker does
(`pending_counts_in_progress`).  A thread adds to a counter when it has read its current value, and that it has, as
long as no two threads share a record (`Monitored.Consistent`).
-/

namespace BdbMsgStore

open StoreProvider

/-! ### What calls add to a counter -/

/-- What calls add to a counter. -/
def addedTo (i : Counter) (calls : List StatCall) : UInt32 := (calls.map fun c => c.delta i).sum

/-- A condition as a number. -/
def bit (b : Bool) : UInt32 := if b then 1 else 0

theorem sum_bit {α : Type} (l : List α) (f : α → Bool) :
    (l.map fun a => bit (f a)).sum = UInt32.ofNat (l.countP f) := by
  induction l with
  | nil => rfl
  | cons a l ih =>
    rw [List.map_cons, List.sum_cons, ih, List.countP_cons, UInt32.ofNat_add, UInt32.add_comm]
    congr 1
    unfold bit
    split <;> rfl

/-- What follows a step has to make the calls that the step gives rise to. -/
theorem sum_following {τ : Type} (p : StoreProvider) (t : MonitoredThread τ) (now : Thread) (thread : τ) (diff : Int)
    (i : Counter) : ((Monitored.following p t now thread diff).map fun t => addedTo i t.due).sum =
      addedTo i (now.statCalls (p.runThread now).2.1 t.toExec diff) := by
  unfold Monitored.following
  split
  · rename_i hschedules
    have hcalls : now.statCalls (p.runThread now).2.1 t.toExec diff = [] := by
      cases now with
      | enqueue pc pae => cases pc <;> first | rfl | cases hschedules
      | store pc pae => cases hschedules
      | dequeue pc pid qid => cases pc <;> first | rfl | cases hschedules
      | asyncDequeue pc pid qid => cases pc <;> first | rfl | cases hschedules
    rw [hcalls, List.map_map]
    refine List.sum_eq_zero fun x hx => ?_
    obtain ⟨t', -, rfl⟩ := List.mem_map.1 hx
    rfl
  · dsimp only
    generalize now.statCalls (p.runThread now).2.1 t.toExec diff = calls
    cases (p.runThread now).2.1 with
    | nil =>
      dsimp only
      split
      · rename_i hnil
        rw [hnil]
        rfl
      · exact UInt32.add_zero _
    | cons next rest => exact UInt32.add_zero _

theorem addedTo_storeCalls (i : Counter) (toExec : Bool) (diff : Int) : addedTo i (storeCalls toExec diff) =
    match i with
    | .pendingAsyncEnqueue => -1
    | .executedEnqueue => bit toExec
    | .skippedEnqueue => bit !toExec
    | _ => 0 := by
  cases i <;> cases toExec <;> rfl

theorem addedTo_asyncDequeueCalls (i : Counter) (diff : Int) : addedTo i (asyncDequeueCalls diff) =
    match i with
    | .pendingAsyncDequeue => -1
    | .executedDequeue => 1
    | _ => 0 := by
  cases i <;> rfl

/-- A counter together with the calls that are due. -/
def Monitored.counted {τ : Type} {maxThreads : Nat} (m : Monitored τ maxThreads) (o : ManagementObject maxThreads)
    (i : Counter) : UInt32 :=
  o.get i + (m.threads.map fun t => addedTo i t.due).sum

namespace Monitored

variable {τ : Type} {maxThreads : Nat} {m : Monitored τ maxThreads} {i : Counter} {p : StoreProvider}
  {o o' : ManagementObject maxThreads}

theorem counted_of_due (hdue : ∀ t ∈ m.threads, t.due = []) : m.counted o i = o.get i := by
  have hnone : (m.threads.map fun t => addedTo i t.due).sum = 0 := by
    refine List.sum_eq_zero fun x hx => ?_
    obtain ⟨t, ht, rfl⟩ := List.mem_map.1 hx
    rw [hdue t ht]
    rfl
  unfold counted
  rw [hnone, UInt32.add_zero]

/-- A call of the broker has nothing to report at its beginning. -/
theorem counted_call (thread : τ) (threads : List Thread) {x : Option (ManagementObject maxThreads)} :
    counted ⟨p, x, m.threads ++ threads.map fun t => { thread, next := some t }⟩ o i = m.counted o i := by
  have hnone : ((threads.map fun t => ({ thread, next := some t } : MonitoredThread τ)).map
      fun t => addedTo i t.due).sum = 0 := by
    refine List.sum_eq_zero fun x hx => ?_
    obtain ⟨t, ht, rfl⟩ := List.mem_map.1 hx
    obtain ⟨t', -, rfl⟩ := List.mem_map.1 ht
    rfl
  unfold counted
  rw [List.map_append, List.sum_append, hnone, UInt32.add_zero]

variable [DecidableEq τ] {t : MonitoredThread τ} (ht : t ∈ m.threads)

include ht

/-- A thread is replaced, and the counter has changed. -/
private theorem counted_replace {ts : List (MonitoredThread τ)} {x : Option (ManagementObject maxThreads)}
    {d : UInt32} (hget : o'.get i + (ts.map fun t => addedTo i t.due).sum = o.get i + addedTo i t.due + d) :
    counted ⟨p, x, m.threads.erase t ++ ts⟩ o' i = m.counted o i + d := by
  have hsum := List.sum_map_erase_append ht ts fun t => addedTo i t.due
  refine add_left_cancel (a := addedTo i t.due) ?_
  calc addedTo i t.due + (o'.get i + ((m.threads.erase t ++ ts).map fun t => addedTo i t.due).sum)
      = o'.get i + (addedTo i t.due + ((m.threads.erase t ++ ts).map fun t => addedTo i t.due).sum) :=
        add_left_comm ..
    _ = o'.get i + (ts.map fun t => addedTo i t.due).sum + (m.threads.map fun t => addedTo i t.due).sum := by
        rw [hsum, add_comm ((m.threads.map fun t => addedTo i t.due).sum), add_assoc]
    _ = addedTo i t.due + (m.counted o i + d) := by
        rw [hget, Monitored.counted]
        ac_rfl

theorem counted_advance {now : Thread} {thread : τ} {diff : Int} {x : Option (ManagementObject maxThreads)}
    (hdue : t.due = []) : counted ⟨p, x, m.threads.erase t ++ following m.provider t now thread diff⟩ o i =
      m.counted o i + addedTo i (now.statCalls (m.provider.runThread now).2.1 t.toExec diff) := by
  refine counted_replace ht ?_
  rw [sum_following, hdue]
  exact congrArg (· + _) (UInt32.add_zero _).symm

theorem counted_read {idx : Fin maxThreads} {stats : Option PerThreadStats}
    {x : Option (ManagementObject maxThreads)} :
    counted ⟨p, x, m.threads.erase t ++ [{ t with read := stats }]⟩ (o.read idx) i = m.counted o i := by
  rw [← UInt32.add_zero (m.counted o i)]
  refine counted_replace ht ?_
  rw [ManagementObject.get_read, UInt32.add_zero]
  exact congrArg (o.get i + ·) (UInt32.add_zero _)

/-- A call that writes what it has computed from the current counters. -/
theorem counted_write {idx : Fin maxThreads} {stats : PerThreadStats} {c : StatCall} {due : List StatCall}
    {x : Option (ManagementObject maxThreads)} (hdue : t.due = c :: due)
    (hread : ∀ i, stats.get i = (o.getThreadStats idx).get i) :
    counted ⟨p, x, m.threads.erase t ++ remaining t due⟩ (o.write idx stats c) i = m.counted o i := by
  have hremaining : ((remaining t due).map fun t => addedTo i t.due).sum = addedTo i due := by
    unfold remaining
    split
    · rename_i hend
      rw [hend.1]
      rfl
    · exact UInt32.add_zero _
  rw [← UInt32.add_zero (m.counted o i)]
  refine counted_replace ht ?_
  rw [ManagementObject.get_write hread, hremaining, hdue, UInt32.add_assoc, UInt32.add_zero]
  rfl

end Monitored

/-! ### Threads in progress -/

/-- The thread has logged the start of an enqueue, and its `store` task has not ended. -/
def Thread.enqueuePending : Thread → Bool
  | .enqueue .logStart _ => false
  | .enqueue _ _ => true
  | .store _ _ => true
  | _ => false

/-- The thread has logged the start of a dequeue, and its `async_dequeue` task has not ended. -/
def Thread.dequeuePending : Thread → Bool
  | .dequeue .schedule _ _ => true
  | .asyncDequeue _ _ _ => true
  | _ => false

/-- The threads in progress that `q` counts go up and down with what is reported for counter `i`. -/
structure Reported (i : Counter) (q : Thread → Bool) : Prop where
  enqueue : ∀ pae, q (.enqueue .logStart pae) = false
  dequeue : ∀ (smart : Bool) pid qid, q (.dequeue (if smart then .check else .logStart) pid qid) = false
  step : ∀ (s : StoreProvider) (now : Thread) (toExec : Bool) (diff : Int), now.isStopped = false →
    ((s.runThread now).2.1.map fun t => bit (q t)).sum =
      bit (q now) + addedTo i (now.statCalls (s.runThread now).2.1 toExec diff)

theorem reported_enqueuePending : Reported .pendingAsyncEnqueue Thread.enqueuePending where
  enqueue := fun _ => rfl
  dequeue := fun smart _ _ => by cases smart <;> rfl
  step := by
    intro s now toExec diff _
    have hstored : (0 : UInt32) = 1 + addedTo .pendingAsyncEnqueue (storeCalls toExec diff) := by
      rw [addedTo_storeCalls]
      show (0 : UInt32) = 1 + -1
      decide
    cases now with
    | enqueue pc pae =>
      cases pc with
      | logStart => cases hs : s.enableSmartAsync <;> simp [runThread, hs] <;> rfl
      | _ => rfl
    | store pc pae =>
      cases pc with
      | addPidDup =>
        rw [runThread]
        dsimp only
        split
        · exact hstored
        · rfl
      | addPidMain => exact hstored
      | _ => rfl
    | dequeue pc pid qid => cases pc <;> rfl
    | asyncDequeue pc pid qid =>
      cases pc with
      | wait w =>
        cases w with
        | returned r =>
          rw [runThread]
          dsimp only
          split
          · rfl
          · split <;> rfl
        | _ => rfl
      | _ => rfl

theorem reported_dequeuePending : Reported .pendingAsyncDequeue Thread.dequeuePending where
  enqueue := fun _ => rfl
  dequeue := fun smart _ _ => by cases smart <;> rfl
  step := by
    intro s now toExec diff hrunning
    cases now with
    | enqueue pc pae => cases pc <;> rfl
    | store pc pae =>
      cases pc with
      | addPidDup =>
        rw [runThread]
        dsimp only
        split <;> cases toExec <;> rfl
      | addPidMain => cases toExec <;> rfl
      | _ => rfl
    | dequeue pc pid qid =>
      cases pc with
      | check =>
        rw [runThread]
        dsimp only
        split <;> rfl
      | _ => rfl
    | asyncDequeue pc pid qid =>
      cases pc with
      | wait w =>
        cases w with
        | returned r =>
          -- a task that is told to stop would end without a report
          have hr : r ≠ -2 := by simpa [Thread.isStopped] using hrunning
          rw [runThread]
          dsimp only
          rw [if_neg hr]
          split <;> rfl
        | _ => rfl
      | remove => rfl
      | logComplete =>
        show (0 : UInt32) = 1 + addedTo .pendingAsyncDequeue (asyncDequeueCalls diff)
        rw [addedTo_asyncDequeueCalls]
        show (0 : UInt32) = 1 + -1
        decide

/-- What holds in every state of a run, for a counter of threads in progress. -/
structure Monitored.PendingInv {τ : Type} {maxThreads : Nat} (getThreadIndex : τ → Fin maxThreads) (i : Counter)
    (q : Thread → Bool) (m : Monitored τ maxThreads) : Prop where
  consistent : m.Consistent getThreadIndex
  none : m.provider.threads = []
  running : m.provider.tracker.stopped = false
  unstopped : ∀ t ∈ m.threads, ∀ now, t.next = some now → now.isStopped = false
  counts : ∀ o ∈ m.mgmtObject, m.counted o i = (m.threads.map fun t => bit (t.next.any q)).sum

namespace Monitored.PendingInv

variable {τ : Type} {maxThreads : Nat} {getThreadIndex : τ → Fin maxThreads} {h ev : List Event} {i : Counter}
  {q : Thread → Bool} {m m' : Monitored τ maxThreads} {a : MonitoredAction τ}

private theorem sum_bit_next (ts : List (MonitoredThread τ)) (q : Thread → Bool) :
    (ts.map fun t => bit (t.next.any q)).sum = ((ts.filterMap MonitoredThread.next).map fun t => bit (q t)).sum := by
  induction ts with
  | nil => rfl
  | cons t ts ih =>
    rw [List.map_cons, List.sum_cons, ih, List.filterMap_cons]
    cases t.next with
    | none => exact UInt32.zero_add _
    | some now => rfl

theorem create {s₀ : StoreProvider} (hthreads : s₀.threads = []) (hstopped : s₀.tracker.stopped = false) :
    PendingInv getThreadIndex i q (Monitored.create s₀) where
  consistent := ⟨fun _ _ t ht => absurd ht List.not_mem_nil, List.Pairwise.nil⟩
  none := hthreads
  running := hstopped
  unstopped := fun t ht => absurd ht List.not_mem_nil
  counts := by
    rintro o ho
    cases ho
    exact (counted_of_due fun t ht => absurd ht List.not_mem_nil).trans (ManagementObject.get_new i)

private theorem call (hq : Reported i q) (hi : PendingInv getThreadIndex i q m) {thread : τ} {b : Action}
    {p : StoreProvider} (hst : m.provider.step b = some (p, ev))
    (hconsistent : Consistent getThreadIndex ⟨{ p with threads := [] }, m.mgmtObject,
      m.threads ++ p.threads.map fun t => { thread, next := some t }⟩) :
    PendingInv getThreadIndex i q ⟨{ p with threads := [] }, m.mgmtObject,
      m.threads ++ p.threads.map fun t => { thread, next := some t }⟩ := by
  -- a call of the broker
  have hnew : ∀ t ∈ p.threads, t.isStopped = false ∧ q t = false := by
    intro t ht
    rcases mem_threads_step hst ht with ht | ⟨t', ht', _⟩ | ⟨_, _, _, _, rfl⟩ | ⟨_, _, _, rfl⟩
    · rw [hi.none] at ht
      cases ht
    · rw [hi.none] at ht'
      cases ht'
    · exact ⟨rfl, hq.enqueue _⟩
    · exact ⟨rfl, hq.dequeue ..⟩
  refine ⟨hconsistent, rfl, (step_stopped hst).trans hi.running, fun t ht now hnow => ?_, fun o ho => ?_⟩
  · rcases List.mem_append.1 ht with ht | ht
    · exact hi.unstopped t ht now hnow
    · obtain ⟨t', ht', rfl⟩ := List.mem_map.1 ht
      cases hnow
      exact (hnew _ ht').1
  · have hnone : ((p.threads.map fun t => ({ thread, next := some t } : MonitoredThread τ)).map
        fun t => bit (t.next.any q)).sum = 0 := by
      refine List.sum_eq_zero fun x hx => ?_
      obtain ⟨t, ht, rfl⟩ := List.mem_map.1 hx
      obtain ⟨t', ht', rfl⟩ := List.mem_map.1 ht
      rw [Option.any_some, (hnew t' ht').2]
      rfl
    rw [counted_call, hi.counts o ho, List.map_append, List.sum_append, hnone, UInt32.add_zero]

variable [DecidableEq τ]

private theorem advance (hq : Reported i q) (hi : PendingInv getThreadIndex i q m) {t : MonitoredThread τ}
    {thread : τ} {diff : Int} {now : Thread} (ht : t ∈ m.threads) (hdue : t.due = []) (hnext : t.next = some now)
    (hconsistent : Consistent getThreadIndex ⟨(m.provider.runThread now).1, m.mgmtObject,
      m.threads.erase t ++ following m.provider t now thread diff⟩) :
    PendingInv getThreadIndex i q ⟨(m.provider.runThread now).1, m.mgmtObject,
      m.threads.erase t ++ following m.provider t now thread diff⟩ := by
  refine ⟨hconsistent, (PooledStep.threads_runThread m.provider now).trans hi.none,
    (stopped_runThread now).trans hi.running, fun t' ht' now' hnow' => ?_, fun o ho => ?_⟩
  · rcases List.mem_of_mem_erase_append ht' with ht' | ht'
    · exact hi.unstopped t' ht' now' hnow'
    · refine isStopped_of_mem_runThread hi.running (t := now) ?_
      rw [← Shows.filterMap_following m.provider t now thread diff]
      exact List.mem_filterMap.2 ⟨t', ht', hnow'⟩
  · have hstep := hq.step m.provider now t.toExec diff (hi.unstopped t ht now hnext)
    have hsum := List.sum_map_erase_append ht (following m.provider t now thread diff) fun t => bit (t.next.any q)
    rw [hnext, Option.any_some, sum_bit_next (following ..), Shows.filterMap_following, hstep, add_left_comm] at hsum
    rw [counted_advance ht hdue, hi.counts o ho]
    exact (add_left_cancel hsum).symm

/-- A call on the management object. -/
private theorem report (hi : PendingInv getThreadIndex i q m) {t : MonitoredThread τ} {ts : List (MonitoredThread τ)}
    {x : Option (ManagementObject maxThreads)} (ht : t ∈ m.threads)
    (hconsistent : Consistent getThreadIndex ⟨m.provider, x, m.threads.erase t ++ ts⟩)
    (hts : ∀ t' ∈ ts, t'.next = t.next)
    (hnext : ts.filterMap MonitoredThread.next = [t].filterMap MonitoredThread.next)
    (hobject : ∀ o' ∈ x, ∃ o ∈ m.mgmtObject, counted ⟨m.provider, x, m.threads.erase t ++ ts⟩ o' i = m.counted o i) :
    PendingInv getThreadIndex i q ⟨m.provider, x, m.threads.erase t ++ ts⟩ := by
  refine ⟨hconsistent, hi.none, hi.running, fun t' ht' now hnow => ?_, fun o' ho' => ?_⟩
  · rcases List.mem_of_mem_erase_append ht' with ht' | ht'
    · exact hi.unstopped t' ht' now hnow
    · exact hi.unstopped t ht now (hts t' ht' ▸ hnow)
  · obtain ⟨o, ho, hcounted⟩ := hobject o' ho'
    have hsum := List.sum_map_erase_append ht ts fun t => bit (t.next.any q)
    have hsame := sum_bit_next ts q
    rw [hnext, ← sum_bit_next [t] q] at hsame
    rw [hsame, add_comm] at hsum
    rw [hcounted, hi.counts o ho]
    exact (add_right_cancel (hsum.trans (congrArg (_ + ·) (UInt32.add_zero _)))).symm

theorem step (hindex : Function.Injective getThreadIndex) (hq : Reported i q) (hi : PendingInv getThreadIndex i q m)
    (hst : MonitoredStep getThreadIndex m a m' ev) : PendingInv getThreadIndex i q m' := by
  have hconsistent := hi.consistent.step hindex hst
  cases hst with
  | call hst => exact hi.call hq hst hconsistent
  | advance ht hdue hnext => exact hi.advance hq ht hdue hnext hconsistent
  | read ht hfree hstats =>
    refine hi.report ht hconsistent (fun t' ht' => ?_) rfl fun o' ho' => ?_
    · rw [List.mem_singleton.1 ht']
    · obtain ⟨o, ho, rfl⟩ := Option.map_eq_some_iff.1 ho'
      exact ⟨o, ho, counted_read ht⟩
  | @write t c due stats ht hdue hread =>
    refine hi.report ht hconsistent (fun t' ht' => ?_) (Shows.filterMap_remaining ..) fun o' ho' => ?_
    · unfold remaining at ht'
      split at ht'
      · cases ht'
      · rw [List.mem_singleton.1 ht']
    · obtain ⟨o, ho, rfl⟩ := Option.map_eq_some_iff.1 ho'
      exact ⟨o, ho, counted_write ht hdue (hi.consistent.current o ho t ht stats hread)⟩
  | report =>
    refine ⟨hconsistent, hi.none, hi.running, hi.unstopped, fun o' ho' => ?_⟩
    obtain ⟨o, ho, rfl⟩ := Option.map_eq_some_iff.1 ho'
    rw [← hi.counts o ho, counted, counted,
      ManagementObject.get_congr fun idx => o.get_getThreadStats_reportStep idx i]

theorem of_run {s₀ : StoreProvider} (hindex : Function.Injective getThreadIndex) (hq : Reported i q)
    (hthreads : s₀.threads = []) (hstopped : s₀.tracker.stopped = false)
    (hrun : Run (Monitored.step getThreadIndex) (fun _ _ _ => True) (Monitored.create s₀) h m) :
    PendingInv getThreadIndex i q m :=
  hrun.invariant (I := fun _ m => PendingInv getThreadIndex i q m) (create hthreads hstopped)
    fun _ _ _ _ _ hi _ hst => hi.step hindex hq (MonitoredStep.of_step hst)

end Monitored.PendingInv

/-- For every run in which no two threads share a record, whatever calls the broker makes, in either mode, and every
state in which no call on the management object is due: what is reported as pending is the number of enqueues, and
of dequeues, that have logged their start and not ended, whichever threads have counted them up and down.  The
counters have 32 bits. -/
theorem pending_counts_in_progress {τ : Type} [DecidableEq τ] {maxThreads : Nat} {getThreadIndex : τ → Fin maxThreads}
    (hindex : Function.Injective getThreadIndex) {s₀ : StoreProvider} {h : List Event} {m : Monitored τ maxThreads}
    {o : ManagementObject maxThreads} (hthreads : s₀.threads = []) (hstopped : s₀.tracker.stopped = false)
    (hrun : Run (Monitored.step getThreadIndex) (fun _ _ _ => True) (Monitored.create s₀) h m)
    (hdue : ∀ t ∈ m.threads, t.due = []) (ho : m.mgmtObject = some o) :
    let totals := o.aggregatePerThreadStats
    totals.pendingAsyncEnqueue = UInt32.ofNat (m.threads.countP fun t => t.next.any Thread.enqueuePending) ∧
    totals.pendingAsyncDequeue = UInt32.ofNat (m.threads.countP fun t => t.next.any Thread.dequeuePending) := by
  have hcounts : ∀ {i q}, Reported i q → o.get i = UInt32.ofNat (m.threads.countP fun t => t.next.any q) := by
    intro i q hq
    rw [← sum_bit, ← (Monitored.PendingInv.of_run hindex hq hthreads hstopped hrun).counts o ho,
      Monitored.counted_of_due hdue]
  exact ⟨hcounts reported_enqueuePending, hcounts reported_dequeuePending⟩

/-- The thread that made the last step goes on, for `fuel` steps at most.  The broker calls on thread 0, tasks run on
thread 1. -/
private def lastGoesOn : Nat → Monitored (Fin 2) 2 → List (MonitoredAction (Fin 2))
  | 0, _ => []
  | fuel + 1, m =>
    match m.threads.getLast? with
    | none => []
    | some t =>
      let a : MonitoredAction (Fin 2) :=
        if t.due = [] then .advance t 1 2500 else if t.read = none then .read t else .write t
      a :: (m.step id a).elim [] fun r => lastGoesOn fuel r.1

/-- The actions `acts`, then a call and `fuel` steps after it. -/
def thenCall (acts : List (MonitoredAction (Fin 2))) (a : Action) (fuel : Nat) : List (MonitoredAction (Fin 2)) :=
  let m := (Run.exec (Monitored.step id) [] (Monitored.create (singleQueue true)) acts).2
  acts ++ .call 0 a :: (m.step id (.call 0 a)).elim [] fun r => lastGoesOn fuel r.1

/-- A message is stored.  The `store` task of a second one has not begun. -/
def secondUnstored : List (MonitoredAction (Fin 2)) :=
  thenCall (thenCall [] (.enqueue 0 1 smallMessage) 60) (.enqueue 0 1 smallMessage) 5

-- the task of the first message has counted it down on the other thread
theorem pending_counts_in_progress_secondUnstored :
    let m := (Run.exec (Monitored.step id) [] (Monitored.create (singleQueue true)) secondUnstored).2
    ∃ o, m.mgmtObject = some o ∧ (o.getThreadStats 0).pendingAsyncEnqueue = 2 ∧
      o.aggregatePerThreadStats.pendingAsyncEnqueue = 1 := by
  intro m
  have hallowed : Run.Allowed (Monitored.step id) (fun _ _ _ => True) [] (Monitored.create (singleQueue true))
      secondUnstored := by decide +kernel
  have hdue : ∀ t ∈ m.threads, t.due = [] := by decide +kernel
  have hobject : m.mgmtObject.map (fun o => (o.getThreadStats 0).pendingAsyncEnqueue) = some 2 := by decide +kernel
  have hcount : (m.threads.countP fun t => t.next.any Thread.enqueuePending) = 1 := by decide +kernel
  obtain ⟨o, ho, htwo⟩ := Option.map_eq_some_iff.1 hobject
  have hpending := (pending_counts_in_progress Function.injective_id rfl rfl (Run.exec_of_allowed Run.nil hallowed)
    hdue ho).1
  rw [hcount] at hpending
  exact ⟨o, ho, htwo, hpending⟩

end BdbMsgStore

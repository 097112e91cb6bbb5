import BdbMsgStore.PooledSteps
import BdbMsgStore.Quiescence
import BdbMsgStore.Statistics

/-!
# The provider and its statistics

The calls of the broker and the tasks of the pools report to the management object: an enqueue is counted as pending
after its start record and no longer when its `store` task ends, which counts it as executed or, when a dequeue has
taken the message, as skipped.  A call on the management object is two steps, in which it reads and writes the
record of its thread, so that other threads and a report may come between the step of the provider that it follows,
the read and the write.

The threads of the process are given by a type, and `getThreadIndex` tells which record a thread uses.
-/

namespace BdbMsgStore

open StoreProvider

/-- A call of the broker or a task: the thread that runs it, the calls on the management object that it makes before
its next step on the provider, what it has read for the first of them, that step if it has one, and the local
variable `toExec` of `store`. -/
structure MonitoredThread (τ : Type) where
  thread : τ
  due : List StatCall := []
  read : Option PerThreadStats := none
  next : Option Thread
  toExec : Bool := true
  deriving DecidableEq

/-- The provider with its management object, if it has one.  The threads of `provider` are kept in `threads`. -/
structure Monitored (τ : Type) (maxThreads : Nat) where
  provider : StoreProvider
  mgmtObject : Option (ManagementObject maxThreads)
  threads : List (MonitoredThread τ)

inductive MonitoredAction (τ : Type) where
  /-- A call of the broker begins, or a log cleaner makes a step. -/
  | call (thread : τ) (a : Action)
  /-- The next step on the provider.  A task that is scheduled will be run by `thread`; `diff` is the time the task
  has taken, in microseconds, if this is its last step. -/
  | advance (t : MonitoredThread τ) (thread : τ) (diff : Int)
  /-- The next call on the management object begins. -/
  | read (t : MonitoredThread τ)
  /-- It ends. -/
  | write (t : MonitoredThread τ)
  /-- A step of `writeStatistics`. -/
  | report

/-- What `store` reports at its end. -/
def storeCalls (toExec : Bool) (diff : Int) : List StatCall :=
  [.decPendingAsyncEnqueue, .incTotalEnqueueTime (UInt64.ofInt (diff.tdiv 1000)),
    .setEnqueueTime (UInt64.ofInt (diff * 10)), if toExec then .incExecutedEnqueue else .incSkippedEnqueue]

/-- What `async_dequeue` reports at its end. -/
def asyncDequeueCalls (diff : Int) : List StatCall :=
  [.decPendingAsyncDequeue, .incTotalDequeueTime (UInt64.ofInt (diff.tdiv 1000)),
    .setDequeueTime (UInt64.ofInt (diff * 10)), .incExecutedDequeue]

/-- What a thread reports after a step that `threads` follow. -/
def Thread.statCalls (t : Thread) (threads : List Thread) (toExec : Bool) (diff : Int) : List StatCall :=
  match t with
  | .enqueue .logStart _ => [.incPendingAsyncEnqueue]
  | .store .addPidDup _ => if threads = [] then storeCalls toExec diff else []
  | .store .addPidMain _ => storeCalls toExec diff
  | .dequeue .logStart _ _ => [.incPendingAsyncDequeue]
  | .dequeue .logEnqueueComplete _ _ => [.incSkippedDequeue]
  | .asyncDequeue .logComplete _ _ => asyncDequeueCalls diff
  | _ => []

/-- The value of `toExec` after a step. -/
def StoreProvider.toExec (s : StoreProvider) (toExec : Bool) : Thread → Bool
  | .store .check pae => (s.tracker.enqueueCheck pae.msgId pae.queueId).1
  | _ => toExec

namespace Monitored

variable {τ : Type} {maxThreads : Nat}

/-- What takes the place of a thread after its step `now` on the provider: the task that it schedules, or itself. -/
def following (s : StoreProvider) (t : MonitoredThread τ) (now : Thread) (thread : τ) (diff : Int) :
    List (MonitoredThread τ) :=
  if now.schedules then (s.runThread now).2.1.map fun task => { thread, next := some task }
  else
    let calls := now.statCalls (s.runThread now).2.1 t.toExec diff
    match (s.runThread now).2.1 with
    | next :: _ => [{ thread := t.thread, due := calls, next := some next, toExec := s.toExec t.toExec now }]
    | [] => if calls = [] then [] else [{ thread := t.thread, due := calls, next := none, toExec := t.toExec }]

/-- What is left of a thread with the calls `due`. -/
def remaining (t : MonitoredThread τ) (due : List StatCall) : List (MonitoredThread τ) :=
  if due = [] ∧ t.next = none then [] else [{ t with due := due, read := none }]

variable [DecidableEq τ] (getThreadIndex : τ → Fin maxThreads)

/-- A thread is inside one call on the management object at a time. -/
def step (m : Monitored τ maxThreads) : MonitoredAction τ → Option (Monitored τ maxThreads × List Event)
  | .call thread a => (m.provider.step a).map fun r =>
    ({ m with
        provider := { r.1 with threads := [] }
        threads := m.threads ++ r.1.threads.map fun t => { thread, next := some t } }, r.2)
  | .advance t thread diff =>
    if t ∈ m.threads ∧ t.due = [] then
      t.next.map fun now =>
        ({ m with
            provider := (m.provider.runThread now).1
            threads := m.threads.erase t ++ following m.provider t now thread diff }, (m.provider.runThread now).2.2)
    else none
  | .read t =>
    if t ∈ m.threads ∧ t.due ≠ [] ∧ ∀ t' ∈ m.threads, t'.thread = t.thread → t'.read = none then
      let idx := getThreadIndex t.thread
      some ({ m with
        mgmtObject := m.mgmtObject.map fun o => o.read idx
        threads := m.threads.erase t ++
          [{ t with read := some ((m.mgmtObject.map fun o => o.getThreadStats idx).getD {}) }] }, [])
    else none
  | .write t =>
    match t.due, t.read with
    | c :: due, some stats =>
      if t ∈ m.threads then
        some ({ m with
          mgmtObject := m.mgmtObject.map fun o => o.write (getThreadIndex t.thread) stats c
          threads := m.threads.erase t ++ remaining t due }, [])
      else none
    | _, _ => none
  | .report => some ({ m with mgmtObject := m.mgmtObject.map fun o => o.reportStep.1 }, [])

/-- The provider `s` with a new management object. -/
def create (s : StoreProvider) : Monitored τ maxThreads := ⟨s, some {}, []⟩

/-- The broker enqueues and dequeues each pair once, as in `Orderly`. -/
def Orderly (h : List Event) (m : Monitored τ maxThreads) : MonitoredAction τ → Prop
  | .call _ a => BdbMsgStore.Orderly h m.provider a
  | _ => True

end Monitored

/-! ### Steps -/

/-- What a step does. -/
inductive MonitoredStep {τ : Type} {maxThreads : Nat} [DecidableEq τ] (getThreadIndex : τ → Fin maxThreads)
    (m : Monitored τ maxThreads) : MonitoredAction τ → Monitored τ maxThreads → List Event → Prop where
  | call {thread : τ} {a : Action} {s : StoreProvider} {ev : List Event} (hst : m.provider.step a = some (s, ev)) :
      MonitoredStep getThreadIndex m (.call thread a)
        { m with
          provider := { s with threads := [] }
          threads := m.threads ++ s.threads.map fun t => { thread, next := some t } } ev
  | advance {t : MonitoredThread τ} {thread : τ} {diff : Int} {now : Thread} (ht : t ∈ m.threads)
      (hdue : t.due = []) (hnext : t.next = some now) :
      MonitoredStep getThreadIndex m (.advance t thread diff)
        { m with
          provider := (m.provider.runThread now).1
          threads := m.threads.erase t ++ Monitored.following m.provider t now thread diff }
        (m.provider.runThread now).2.2
  | read {t : MonitoredThread τ} {stats : PerThreadStats} (ht : t ∈ m.threads)
      (hfree : ∀ t' ∈ m.threads, t'.thread = t.thread → t'.read = none)
      (hstats : ∀ o ∈ m.mgmtObject, stats = o.getThreadStats (getThreadIndex t.thread)) :
      MonitoredStep getThreadIndex m (.read t)
        { m with
          mgmtObject := m.mgmtObject.map fun o => o.read (getThreadIndex t.thread)
          threads := m.threads.erase t ++ [{ t with read := some stats }] } []
  | write {t : MonitoredThread τ} {c : StatCall} {due : List StatCall} {stats : PerThreadStats} (ht : t ∈ m.threads)
      (hdue : t.due = c :: due) (hread : t.read = some stats) :
      MonitoredStep getThreadIndex m (.write t)
        { m with
          mgmtObject := m.mgmtObject.map fun o => o.write (getThreadIndex t.thread) stats c
          threads := m.threads.erase t ++ Monitored.remaining t due } []
  | report : MonitoredStep getThreadIndex m .report
      { m with mgmtObject := m.mgmtObject.map fun o => o.reportStep.1 } []

section

variable {τ : Type} {maxThreads : Nat} [DecidableEq τ] {getThreadIndex : τ → Fin maxThreads}
  {m m' : Monitored τ maxThreads} {h ev : List Event} {a : MonitoredAction τ} {s : StoreProvider}

theorem MonitoredStep.of_step (hst : m.step getThreadIndex a = some (m', ev)) :
    MonitoredStep getThreadIndex m a m' ev := by
  cases a with
  | call thread a =>
    obtain ⟨⟨s, ev'⟩, hs, heq⟩ := Option.map_eq_some_iff.1 hst
    cases heq
    exact .call hs
  | advance t thread diff =>
    rw [Monitored.step] at hst
    split at hst
    · rename_i ht
      obtain ⟨now, hnext, heq⟩ := Option.map_eq_some_iff.1 hst
      cases heq
      exact .advance ht.1 ht.2 hnext
    · cases hst
  | read t =>
    rw [Monitored.step] at hst
    split at hst
    · rename_i ht
      cases hst
      exact .read ht.1 ht.2.2 fun o ho => by rw [Option.mem_def.1 ho]; rfl
    · cases hst
  | write t =>
    rw [Monitored.step] at hst
    split at hst
    · rename_i c due stats hdue hread
      split at hst
      · rename_i ht
        cases hst
        exact .write ht hdue hread
      · cases hst
    · cases hst
  | report =>
    cases hst
    exact .report

/-! ### The provider without its statistics -/

/-- A step of a thread does not look at the other threads. -/
theorem runThread_threads (s : StoreProvider) (threads : List Thread) (t : Thread) :
    ({ s with threads := threads } : StoreProvider).runThread t =
      ({ (s.runThread t).1 with threads := threads }, (s.runThread t).2.1, (s.runThread t).2.2) := by
  have hmodify : ∀ qid f, ({ s with threads := threads } : StoreProvider).modifyJournal qid f =
      { s.modifyJournal qid f with threads := threads } := by
    intro qid f
    unfold modifyJournal
    dsimp only
    cases s.journalList.find? qid <;> rfl
  cases t with
  | enqueue pc pae => cases pc <;> rfl
  | store pc pae =>
    cases pc with
    | put => simp only [runThread, hmodify]
    | _ => rfl
  | dequeue pc pid qid => cases pc <;> rfl
  | asyncDequeue pc pid qid =>
    cases pc with
    | wait pc => cases pc <;> rfl
    | remove => simp only [runThread, hmodify]
    | logComplete => rfl

/-- A call of the broker, or a step of a cleaner, with other threads in progress. -/
theorem step_threads {p p' : StoreProvider} {a : Action} (hp : p.threads = []) (hst : p.step a = some (p', ev))
    (threads : List Thread) :
    ({ p with threads := threads } : StoreProvider).step a =
      some ({ p' with threads := threads ++ p'.threads }, ev) := by
  cases a with
  | enqueue messageId qid m =>
    rw [StoreProvider.step] at hst ⊢
    dsimp only at hst ⊢
    split at hst
    · cases hst
    · rename_i hq
      rw [if_neg hq]
      split at hst
      · rename_i hid
        cases hst
        rw [if_pos hid, hp]
        rfl
      · rename_i hid
        cases hst
        rw [if_neg hid, hp]
        rfl
  | dequeue pid qid =>
    rw [StoreProvider.step] at hst ⊢
    dsimp only at hst ⊢
    split at hst
    · cases hst
    · rename_i hq
      cases hst
      rw [if_neg hq, hp]
      rfl
  | advance t =>
    obtain ⟨ht, -⟩ := step_advance hst
    rw [hp] at ht
    cases ht
  | cleanEnqueueLog =>
    cases hst
    rw [StoreProvider.step]
    dsimp only
    rw [hp, List.append_nil]
  | cleanDequeueLog =>
    cases hst
    rw [StoreProvider.step]
    dsimp only
    rw [hp, List.append_nil]

/-- The provider `s` with its threads, when their calls on the management object are left out. -/
structure Monitored.Shows (m : Monitored τ maxThreads) (s : StoreProvider) : Prop where
  provider : s = { m.provider with threads := s.threads }
  threads : s.threads.Perm (m.threads.filterMap MonitoredThread.next)
  none : m.provider.threads = []

namespace Monitored.Shows

omit [DecidableEq τ] in
theorem call {p : StoreProvider} {b : Action} (hm : m.Shows s) (hst : m.provider.step b = some (p, ev)) (thread : τ) :
    ∃ s', s.step b = some (s', ev) ∧
      Monitored.Shows { m with
        provider := { p with threads := [] }
        threads := m.threads ++ p.threads.map fun t => { thread, next := some t } } s' := by
  refine ⟨{ p with threads := s.threads ++ p.threads }, ?_, rfl, ?_, rfl⟩
  · rw [hm.provider]
    exact step_threads hm.none hst s.threads
  · rw [List.filterMap_append, List.filterMap_map]
    refine hm.threads.append ?_
    rw [show MonitoredThread.next ∘ (fun t => ({ thread, next := some t } : MonitoredThread τ)) = some from rfl,
      List.filterMap_some]

omit [DecidableEq τ] in
theorem filterMap_following (p : StoreProvider) (t : MonitoredThread τ) (now : Thread) (thread : τ) (diff : Int) :
    (following p t now thread diff).filterMap MonitoredThread.next = (p.runThread now).2.1 := by
  unfold following
  split
  · rw [List.filterMap_map]
    exact List.filterMap_some
  · dsimp only
    -- a thread does not split
    have hone := PooledStep.next_ofThreads p now
    cases hnext : (p.runThread now).2.1 with
    | nil =>
      dsimp only
      split <;> rfl
    | cons next rest =>
      rw [hnext] at hone
      exact hone

theorem advance {t : MonitoredThread τ} {now : Thread} (hm : m.Shows s) (ht : t ∈ m.threads)
    (hnext : t.next = some now) (thread : τ) (diff : Int) :
    now ∈ s.threads ∧ (s.runThread now).2 = (m.provider.runThread now).2 ∧
      Monitored.Shows { m with
        provider := (m.provider.runThread now).1
        threads := m.threads.erase t ++ following m.provider t now thread diff }
        { (s.runThread now).1 with threads := s.threads.erase now ++ (s.runThread now).2.1 } := by
  have hnow : now ∈ s.threads := hm.threads.mem_iff.2 (List.mem_filterMap.2 ⟨t, ht, hnext⟩)
  have hrun := runThread_threads m.provider s.threads now
  rw [← hm.provider] at hrun
  refine ⟨hnow, by rw [hrun], ?_, ?_, ?_⟩
  · rw [hrun]
  · have h1 := List.filterMap_erase_append_perm ht (following m.provider t now thread diff) MonitoredThread.next
    have h2 := List.cons_erase_append_perm hnow (s.runThread now).2.1
    rw [filterMap_following, List.filterMap_cons, hnext, List.filterMap_nil, List.singleton_append] at h1
    rw [hrun] at h2 ⊢
    exact (List.perm_cons now).1 (h2.trans ((hm.threads.append_right _).trans h1.symm))
  · exact (PooledStep.threads_runThread m.provider now).trans hm.none

/-- A call on the management object changes no step on the provider. -/
theorem report {t : MonitoredThread τ} {ts : List (MonitoredThread τ)} {o : Option (ManagementObject maxThreads)}
    (hm : m.Shows s) (ht : t ∈ m.threads)
    (hts : ts.filterMap MonitoredThread.next = [t].filterMap MonitoredThread.next) :
    Monitored.Shows { m with mgmtObject := o, threads := m.threads.erase t ++ ts } s := by
  refine ⟨hm.provider, ?_, hm.none⟩
  have hperm := List.filterMap_erase_append_perm ht ts MonitoredThread.next
  rw [hts] at hperm
  refine hm.threads.trans ?_
  exact (List.perm_append_left_iff _).1 (List.perm_append_comm.trans hperm.symm)

omit [DecidableEq τ] in
theorem filterMap_remaining (t : MonitoredThread τ) (due : List StatCall) :
    (remaining t due).filterMap MonitoredThread.next = [t].filterMap MonitoredThread.next := by
  unfold remaining
  split
  · rename_i hend
    rw [List.filterMap_cons, hend.2]
  · rfl

end Monitored.Shows

/-! ### The records of the threads -/

/-- Two threads of the process are not inside a call on the management object at once, or they are different. -/
def MonitoredThread.Apart (t t' : MonitoredThread τ) : Prop := t.thread = t'.thread → t.read = none ∨ t'.read = none

omit [DecidableEq τ] in
theorem MonitoredThread.Apart.symm {t t' : MonitoredThread τ} (h : t.Apart t') : t'.Apart t :=
  fun heq => (h heq.symm).symm

/-- What a thread has read of the counters is what its record has.  This is where two threads with one record would
lose a count. -/
structure Monitored.Consistent (getThreadIndex : τ → Fin maxThreads) (m : Monitored τ maxThreads) : Prop where
  current : ∀ o ∈ m.mgmtObject, ∀ t ∈ m.threads, ∀ stats, t.read = some stats →
    ∀ i, stats.get i = (o.getThreadStats (getThreadIndex t.thread)).get i
  apart : m.threads.Pairwise MonitoredThread.Apart

namespace Monitored.Consistent

variable {t : MonitoredThread τ} {ts : List (MonitoredThread τ)}

/-- The other threads of the bag are apart from `t`. -/
private theorem apart_of_mem (hm : m.Consistent getThreadIndex) (ht : t ∈ m.threads) :
    ∀ t' ∈ m.threads.erase t, t.Apart t' := by
  have hperm := List.perm_cons_erase ht
  have hpairs := (hperm.pairwise_iff MonitoredThread.Apart.symm).1 hm.apart
  exact (List.pairwise_cons.1 hpairs).1

/-- A step of `t` after which it is not inside a call, and which leaves the counters of other records alone. -/
private theorem replace (hm : m.Consistent getThreadIndex) (hthreads : m'.threads = m.threads.erase t ++ ts)
    (hts : ∀ t' ∈ ts, t'.read = none)
    (hobject : ∀ o' ∈ m'.mgmtObject, ∃ o ∈ m.mgmtObject, ∀ t' ∈ m.threads.erase t, t'.read ≠ none → ∀ i,
      (o'.getThreadStats (getThreadIndex t'.thread)).get i = (o.getThreadStats (getThreadIndex t'.thread)).get i) :
    m'.Consistent getThreadIndex := by
  constructor
  · intro o' ho' t' ht' stats hread i
    rw [hthreads] at ht'
    obtain ⟨o, ho, hsame⟩ := hobject o' ho'
    rcases List.mem_append.1 ht' with ht' | ht'
    · rw [hsame t' ht' (by rw [hread]; simp)]
      exact hm.current o ho t' (List.mem_of_mem_erase ht') stats hread i
    · rw [hts t' ht'] at hread
      cases hread
  · rw [hthreads, List.pairwise_append]
    refine ⟨hm.apart.sublist List.erase_sublist, ?_, fun _ _ t' ht' _ => Or.inr (hts t' ht')⟩
    exact List.pairwise_of_forall_mem_list fun t' ht' _ _ _ => Or.inl (hts t' ht')

theorem step (hindex : Function.Injective getThreadIndex) (hm : m.Consistent getThreadIndex)
    (hst : MonitoredStep getThreadIndex m a m' ev) : m'.Consistent getThreadIndex := by
  have hsame : ∀ {P : ManagementObject maxThreads → ManagementObject maxThreads → Prop}, (∀ o, P o o) →
      ∀ o ∈ m.mgmtObject, ∃ o' ∈ m.mgmtObject, P o o' := fun hP o ho => ⟨o, ho, hP o⟩
  cases hst with
  | call hst =>
    constructor
    · intro o ho t ht stats hread
      rcases List.mem_append.1 ht with ht | ht
      · exact hm.current o ho t ht stats hread
      · obtain ⟨t', -, rfl⟩ := List.mem_map.1 ht
        cases hread
    · refine List.pairwise_append.2 ⟨hm.apart, ?_, fun _ _ t ht _ => Or.inr ?_⟩
      · exact List.pairwise_map.2 (List.pairwise_of_forall_mem_list fun _ _ _ _ _ => Or.inl rfl)
      · obtain ⟨t', -, rfl⟩ := List.mem_map.1 ht
        rfl
  | @advance t thread diff now ht hdue hnext =>
    refine hm.replace rfl (fun t' ht' => ?_) (hsame fun o t' _ _ _ => rfl)
    unfold following at ht'
    split at ht'
    · obtain ⟨task, -, rfl⟩ := List.mem_map.1 ht'
      rfl
    · dsimp only at ht'
      split at ht'
      · rw [List.mem_singleton.1 ht']
      · split at ht'
        · cases ht'
        · rw [List.mem_singleton.1 ht']
  | @read t stats ht hfree hstats =>
    constructor
    · intro o' ho' t' ht' stats' hread i
      obtain ⟨o, ho, rfl⟩ := Option.map_eq_some_iff.1 ho'
      rw [ManagementObject.getThreadStats_read]
      rcases List.mem_of_mem_erase_append ht' with ht' | ht'
      · exact hm.current o ho t' ht' stats' hread i
      · rw [List.mem_singleton.1 ht'] at hread ⊢
        cases hread
        rw [hstats o ho]
    · refine List.pairwise_append.2 ⟨hm.apart.sublist List.erase_sublist, List.pairwise_singleton .., ?_⟩
      intro t₁ ht₁ t₂ ht₂ heq
      rw [List.mem_singleton.1 ht₂] at heq
      exact Or.inl (hfree t₁ (List.mem_of_mem_erase ht₁) heq)
  | @write t c due stats ht hdue hread =>
    refine hm.replace rfl (fun t' ht' => ?_) fun o' ho' => ?_
    · unfold remaining at ht'
      split at ht'
      · cases ht'
      · rw [List.mem_singleton.1 ht']
    · -- a thread that is inside a call on another record
      obtain ⟨o, ho, rfl⟩ := Option.map_eq_some_iff.1 ho'
      refine ⟨o, ho, fun t' ht' hne i => ?_⟩
      have hidx : getThreadIndex t'.thread ≠ getThreadIndex t.thread := by
        intro heq
        rcases hm.apart_of_mem ht t' ht' (hindex heq).symm with h | h
        · rw [hread] at h
          cases h
        · exact hne h
      unfold ManagementObject.write
      rw [ManagementObject.getThreadStats_setThreadStats, if_neg hidx]
  | report =>
    refine ⟨fun o' ho' t ht stats hread i => ?_, hm.apart⟩
    obtain ⟨o, ho, rfl⟩ := Option.map_eq_some_iff.1 ho'
    rw [ManagementObject.get_getThreadStats_reportStep]
    exact hm.current o ho t ht stats hread i

end Monitored.Consistent

end

end BdbMsgStore

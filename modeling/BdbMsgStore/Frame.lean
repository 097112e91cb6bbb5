import BdbMsgStore.StoreProvider

/-!
# What a step leaves alone

A step works on one pair of message and queue.  For every other pair nothing changes that belongs to it: its threads,
its entries in the tracker, its record in the database and its events (`step_sameAt`).  The invariants of the next
files are stated pair by pair, so this is proved once here.
-/

namespace BdbMsgStore

namespace StoreProvider

variable {s s' : StoreProvider} {a : Action} {ev : List Event}

/-- The pair an action works on. -/
def Action.key (s : StoreProvider) : Action → Option PendingOperationId
  | .enqueue messageId qid _ => some (s.enqueueId messageId, qid)
  | .dequeue pid qid => some (pid, qid)
  | .advance t => some t.key
  | .cleanEnqueueLog => none
  | .cleanDequeueLog => none

/-- Nothing that belongs to the pair `k` differs. -/
structure SameAt (k : PendingOperationId) (s s' : StoreProvider) : Prop where
  threads : ∀ t : Thread, t.key = k → s'.threads.count t = s.threads.count t
  pending : s'.tracker.isPending k.1 k.2 = s.tracker.isPending k.1 k.2
  duplicate : s'.tracker.isDuplicate k.1 k.2 = s.tracker.isDuplicate k.1 k.2
  stored : s'.stored k.1 k.2 = s.stored k.1 k.2

/-! ### Lookups after a change of one journal -/

theorem stored_modifyJournal (s : StoreProvider) (qid : UInt64) (f : JournalImpl → JournalImpl) (p q : UInt64) :
    (s.modifyJournal qid f).stored p q =
      if q = qid then (s.journalList.find? qid).bind fun j => (f j).find? p else s.stored p q := by
  unfold modifyJournal stored
  cases hj : s.journalList.find? qid with
  | none =>
    by_cases hq : q = qid
    · rw [if_pos hq, hq, hj]
      rfl
    · rw [if_neg hq]
  | some j =>
    simp only [OrdMap.find?_assign]
    by_cases hq : q = qid
    · simp [hq]
    · simp [hq]

theorem stored_congr (h : s'.journalList = s.journalList) (p q : UInt64) : s'.stored p q = s.stored p q := by
  unfold stored
  rw [h]

theorem stored_storeMsg (s : StoreProvider) (pid qid : UInt64) (buff : Bytes) (p q : UInt64)
    (hq : s.journalList.contains qid) :
    (s.modifyJournal qid fun j => j.storeMsg pid buff).stored p q =
      if (p, q) = (pid, qid) then some ((s.stored pid qid).getD (dbtValue buff)) else s.stored p q := by
  obtain ⟨j, hj⟩ := Option.isSome_iff_exists.1 hq
  rw [stored_modifyJournal]
  unfold stored
  by_cases hqq : q = qid
  · subst hqq
    simp only [hj, Option.bind_some, JournalImpl.find?_storeMsg, ↓reduceIte, Prod.mk.injEq, and_true]
  · simp [hqq]

theorem stored_removeMsg (s : StoreProvider) (pid qid p q : UInt64) :
    (s.modifyJournal qid fun j => j.removeMsg pid).stored p q =
      if (p, q) = (pid, qid) then none else s.stored p q := by
  rw [stored_modifyJournal]
  unfold stored
  by_cases hqq : q = qid
  · subst hqq
    cases hj : s.journalList.find? q with
    | none => simp
    | some j => simp only [Option.bind_some, JournalImpl.find?_removeMsg, ↓reduceIte, Prod.mk.injEq, and_true]
  · simp [hqq]

@[simp] theorem modifyJournal_threads (s : StoreProvider) (qid : UInt64) (f : JournalImpl → JournalImpl) :
    (s.modifyJournal qid f).threads = s.threads := by
  unfold modifyJournal
  split <;> rfl

@[simp] theorem modifyJournal_tracker (s : StoreProvider) (qid : UInt64) (f : JournalImpl → JournalImpl) :
    (s.modifyJournal qid f).tracker = s.tracker := by
  unfold modifyJournal
  split <;> rfl

@[simp] theorem modifyJournal_aologger (s : StoreProvider) (qid : UInt64) (f : JournalImpl → JournalImpl) :
    (s.modifyJournal qid f).aologger = s.aologger := by
  unfold modifyJournal
  split <;> rfl

@[simp] theorem modifyJournal_enableSmartAsync (s : StoreProvider) (qid : UInt64) (f : JournalImpl → JournalImpl) :
    (s.modifyJournal qid f).enableSmartAsync = s.enableSmartAsync := by
  unfold modifyJournal
  split <;> rfl

@[simp] theorem modifyJournal_messageIdSequence (s : StoreProvider) (qid : UInt64) (f : JournalImpl → JournalImpl) :
    (s.modifyJournal qid f).messageIdSequence = s.messageIdSequence := by
  unfold modifyJournal
  split <;> rfl

@[simp] theorem modifyJournal_contains (s : StoreProvider) (qid : UInt64) (f : JournalImpl → JournalImpl)
    (q : UInt64) : (s.modifyJournal qid f).journalList.contains q = s.journalList.contains q := by
  unfold modifyJournal
  cases hj : s.journalList.find? qid with
  | none => rfl
  | some j =>
    simp only [OrdMap.contains, OrdMap.find?_assign]
    by_cases hq : q = qid
    · simp [hq, hj]
    · simp [hq]

/-! ### One step of a thread -/

/-- The threads that take the place of a thread work on its pair. -/
theorem key_of_mem_runThread {t t' : Thread} (h : t' ∈ (s.runThread t).2.1) : t'.key = t.key := by
  cases t with
  | enqueue pc pae => cases pc <;> simp_all [runThread, Thread.key]
  | store pc pae =>
    cases pc with
    | addPidDup =>
      simp only [runThread] at h
      split at h
      · cases h
      · rw [List.mem_singleton.1 h]; rfl
    | _ => simp_all [runThread, Thread.key]
  | dequeue pc pid qid => cases pc <;> simp_all [runThread, Thread.key]
  | asyncDequeue pc pid qid =>
    cases pc with
    | wait w =>
      cases w with
      | returned r =>
        simp only [runThread] at h
        split at h
        · rw [List.mem_singleton.1 h]; rfl
        · split at h
          · cases h
          · rw [List.mem_singleton.1 h]; rfl
      | _ => simp_all [runThread, Thread.key]
    | _ => simp_all [runThread, Thread.key]

/-- A dequeue completes the enqueue of its pair when it finds it pending. -/
theorem isPending_of_mem_runThread {t : Thread} {pid qid : UInt64}
    (h : .dequeue .logEnqueueComplete pid qid ∈ (s.runThread t).2.1) :
    t = .dequeue .check pid qid ∧ s.tracker.isPending pid qid = true := by
  have hkey := key_of_mem_runThread h
  cases t with
  | enqueue pc pae => cases pc <;> simp [runThread] at h
  | store pc pae =>
    cases pc with
    | addPidDup =>
      simp only [runThread] at h
      split at h
      · cases h
      · simp at h
    | _ => simp [runThread] at h
  | dequeue pc pid' qid' =>
    cases hkey
    cases pc with
    | check =>
      refine ⟨rfl, ?_⟩
      by_contra hp
      simp [runThread, PidTracker.dequeueCheck_fst, hp] at h
    | _ => simp [runThread] at h
  | asyncDequeue pc pid' qid' =>
    cases pc with
    | wait w =>
      cases w with
      | returned r =>
        simp only [runThread] at h
        split at h
        · simp at h
        · split at h <;> simp at h
      | _ => simp [runThread] at h
    | _ => simp [runThread] at h

theorem key_of_mem_runThread_events {t : Thread} {e : Event} (h : e ∈ (s.runThread t).2.2) : e.key = t.key := by
  cases t with
  | enqueue pc pae => cases pc <;> simp_all [runThread, Thread.key, Event.key, PendingAsyncOperation.opId]
  | store pc pae => cases pc <;> simp_all [runThread]
  | dequeue pc pid qid => cases pc <;> simp_all [runThread, Thread.key, Event.key]
  | asyncDequeue pc pid qid =>
    cases pc with
    | wait w => cases w <;> simp_all [runThread]
    | _ => simp_all [runThread]

/-- Calls are made by the broker, not by the threads. -/
theorem dequeueCalled_notMem_runThread (t : Thread) (pid qid : UInt64) :
    .dequeueCalled pid qid ∉ (s.runThread t).2.2 := by
  cases t with
  | enqueue pc pae => cases pc <;> simp [runThread]
  | store pc pae => cases pc <;> simp [runThread]
  | dequeue pc pid qid => cases pc <;> simp [runThread]
  | asyncDequeue pc pid qid =>
    cases pc with
    | wait w => cases w <;> simp [runThread]
    | _ => simp [runThread]

@[inherit_doc dequeueCalled_notMem_runThread]
theorem enqueueCalled_notMem_runThread (t : Thread) (newId : Bool) (pid qid : UInt64) (m : Message) :
    .enqueueCalled newId pid qid m ∉ (s.runThread t).2.2 := by
  cases t with
  | enqueue pc pae => cases pc <;> simp [runThread]
  | store pc pae => cases pc <;> simp [runThread]
  | dequeue pc pid qid => cases pc <;> simp [runThread]
  | asyncDequeue pc pid qid =>
    cases pc with
    | wait w => cases w <;> simp [runThread]
    | _ => simp [runThread]

/-- A step of a thread touches the tracker and the databases at its own pair only. -/
private theorem runThread_other {t : Thread} {k : PendingOperationId} (hk : t.key ≠ k) :
    (s.runThread t).1.tracker.isPending k.1 k.2 = s.tracker.isPending k.1 k.2 ∧
    (s.runThread t).1.tracker.isDuplicate k.1 k.2 = s.tracker.isDuplicate k.1 k.2 ∧
    (s.runThread t).1.stored k.1 k.2 = s.stored k.1 k.2 := by
  cases t with
  | enqueue pc pae =>
    have hne : ¬ (k.2 = pae.queueId ∧ k.1 = pae.msgId) := fun h => hk (Prod.ext h.2.symm h.1.symm)
    cases pc with
    | willEnqueue => exact ⟨by simp [runThread, PidTracker.isPending_willEnqueue, hne], rfl, rfl⟩
    | _ => exact ⟨rfl, rfl, rfl⟩
  | store pc pae =>
    have hne : ¬ (k.2 = pae.queueId ∧ k.1 = pae.msgId) := fun h => hk (Prod.ext h.2.symm h.1.symm)
    have hne' : (k.1, k.2) ≠ (pae.msgId, pae.queueId) := fun h => hk h.symm
    cases pc with
    | check =>
      refine ⟨?_, ?_, rfl⟩
      · simp only [runThread, PidTracker.isPending_enqueueCheck, if_neg hne]
      · simp only [runThread, PidTracker.isDuplicate_enqueueCheck]
    | put =>
      refine ⟨by simp [runThread], by simp [runThread], ?_⟩
      simp only [runThread]
      rw [stored_modifyJournal]
      split
      · rename_i hq
        unfold stored
        rw [hq]
        cases s.journalList.find? pae.queueId with
        | none => rfl
        | some j =>
          simp only [Option.bind_some, JournalImpl.find?_storeMsg]
          rw [if_neg (fun hp => hne ⟨hq, hp⟩)]
      · rfl
    | logComplete => exact ⟨rfl, rfl, rfl⟩
    | addPidDup =>
      refine ⟨?_, ?_, rfl⟩
      · simp only [runThread, PidTracker.isPending_addPidDup]
      · simp only [runThread, PidTracker.isDuplicate_addPidDup, if_neg hne]
    | addPidMain =>
      refine ⟨?_, ?_, stored_congr rfl k.1 k.2⟩
      · simp only [runThread, PidTracker.isPending_addPidMain]
      · simp only [runThread, PidTracker.isDuplicate_addPidMain]
  | dequeue pc pid qid =>
    have hne : ¬ (k.2 = qid ∧ k.1 = pid) := fun h => hk (Prod.ext h.2.symm h.1.symm)
    cases pc with
    | check =>
      refine ⟨?_, ?_, rfl⟩
      · simp only [runThread, PidTracker.dequeueCheck_snd, PidTracker.isPending_enqueueCheck, if_neg hne]
      · simp only [runThread, PidTracker.dequeueCheck_snd, PidTracker.isDuplicate_enqueueCheck]
    | _ => exact ⟨rfl, rfl, rfl⟩
  | asyncDequeue pc pid qid =>
    cases pc with
    | wait w => cases w <;> exact ⟨rfl, rfl, rfl⟩
    | remove =>
      have hne : (k.1, k.2) ≠ (pid, qid) := fun h => hk h.symm
      refine ⟨by simp [runThread], by simp [runThread], ?_⟩
      simp only [runThread, stored_removeMsg, if_neg hne]
    | logComplete => exact ⟨rfl, rfl, rfl⟩

/-- Only the last step of a store task touches the main record. -/
theorem mainRecord_runThread (t : Thread) :
    (s.runThread t).1.tracker.mainRecord =
      match t with
      | .store .addPidMain pae => (s.tracker.mainRecord.addPid pae.msgId).2
      | _ => s.tracker.mainRecord := by
  cases t with
  | enqueue pc pae => cases pc <;> rfl
  | store pc pae => cases pc <;> simp [runThread, PidTracker.addPidMain]
  | dequeue pc pid qid => cases pc <;> simp [runThread, PidTracker.dequeueCheck_snd]
  | asyncDequeue pc pid qid =>
    cases pc with
    | wait w => cases w <;> rfl
    | _ => simp [runThread]

theorem stopped_runThread (t : Thread) : (s.runThread t).1.tracker.stopped = s.tracker.stopped := by
  cases t with
  | enqueue pc pae => cases pc <;> rfl
  | store pc pae => cases pc <;> simp [runThread, PidTracker.addPidMain]
  | dequeue pc pid qid => cases pc <;> simp [runThread, PidTracker.dequeueCheck_snd]
  | asyncDequeue pc pid qid =>
    cases pc with
    | wait w => cases w <;> rfl
    | _ => simp [runThread]

theorem messageIdSequence_runThread (t : Thread) : (s.runThread t).1.messageIdSequence = s.messageIdSequence := by
  cases t with
  | enqueue pc pae => cases pc <;> rfl
  | store pc pae => cases pc <;> simp [runThread]
  | dequeue pc pid qid => cases pc <;> rfl
  | asyncDequeue pc pid qid =>
    cases pc with
    | wait w => cases w <;> rfl
    | _ => simp [runThread]

/-- The bag of threads after a step. -/
theorem count_advance {t : Thread} (ht : t ∈ s.threads) (succ : List Thread) (t' : Thread) :
    (s.threads.erase t ++ succ).count t' + (if t' = t then 1 else 0) = s.threads.count t' + succ.count t' := by
  rw [List.count_append]
  by_cases h : t' = t
  · subst h
    have hpos : 0 < s.threads.count t' := List.count_pos_iff.2 ht
    rw [List.count_erase_self, if_pos rfl]
    omega
  · rw [List.count_erase_of_ne h, if_neg h]
    omega

/-- A thread that is unique of its kind is replaced by at most one successor. -/
theorem count_replace {t : Thread} (ht : t ∈ s.threads) (next : Option Thread) {t' : Thread}
    (hold : s.threads.count t' = if some t = some t' then 1 else 0) :
    (s.threads.erase t ++ next.toList).count t' = if next = some t' then 1 else 0 := by
  have hcount := count_advance ht next.toList t'
  have hnext : next.toList.count t' = if next = some t' then 1 else 0 := by
    cases next with
    | none => simp
    | some t₂ => simp [List.count_singleton]
  rw [hold, hnext] at hcount
  simp only [Option.some.injEq, eq_comm (a := t)] at hcount
  omega

/-! ### One step of the system -/

/-- A thread takes a step only if it is there, and its successors take its place. -/
theorem step_advance {t : Thread} (h : s.step (.advance t) = some (s', ev)) :
    t ∈ s.threads ∧ s' = { (s.runThread t).1 with threads := s.threads.erase t ++ (s.runThread t).2.1 } ∧
      ev = (s.runThread t).2.2 := by
  simp only [step] at h
  split at h
  · rename_i ht
    cases h
    exact ⟨ht, rfl, rfl⟩
  · cases h

/-- A call of `enqueue` only adds its thread, registers the pair if its id is not new, and takes an id if it is. -/
theorem step_enqueue {messageId qid : UInt64} {m : Message} (h : s.step (.enqueue messageId qid m) = some (s', ev)) :
    qid ≠ 0 ∧ s.journalList.contains qid = true ∧
      s' = { s with
        messageIdSequence := if messageId = 0 then s.messageIdSequence.next.2 else s.messageIdSequence
        tracker := if messageId = 0 then s.tracker else s.tracker.addDuplicate messageId qid
        threads := s.threads ++ [.enqueue .logStart (m.pending (s.enqueueId messageId) qid)] } ∧
      ev = [.enqueueCalled (messageId = 0) (s.enqueueId messageId) qid m] := by
  simp only [step] at h
  split at h
  · cases h
  · rename_i hq
    have hq' : s.journalList.contains qid = true := by
      by_contra hc
      exact hq (Or.inr hc)
    refine ⟨fun h0 => hq (Or.inl h0), hq', ?_⟩
    split at h
    · rename_i hid
      cases h
      simp [enqueueId, hid]
    · rename_i hid
      cases h
      simp [enqueueId, hid]

/-- A call of `dequeue` only adds its thread. -/
theorem step_dequeue {pid qid : UInt64} (h : s.step (.dequeue pid qid) = some (s', ev)) :
    s' = { s with
      threads := s.threads ++ [.dequeue (if s.enableSmartAsync then .check else .logStart) pid qid] } ∧
      ev = [.dequeueCalled pid qid] := by
  simp only [step] at h
  split at h <;> cases h
  exact ⟨rfl, rfl⟩

/-- Where the threads after a step come from. -/
theorem mem_threads_step (h : s.step a = some (s', ev)) {t' : Thread} (ht' : t' ∈ s'.threads) :
    t' ∈ s.threads ∨ (∃ t ∈ s.threads, a = .advance t ∧ t' ∈ (s.runThread t).2.1) ∨
      (∃ messageId qid m, a = .enqueue messageId qid m ∧
        t' = .enqueue .logStart (m.pending (s.enqueueId messageId) qid)) ∨
      ∃ pid qid, a = .dequeue pid qid ∧
        t' = .dequeue (if s.enableSmartAsync then .check else .logStart) pid qid := by
  cases a with
  | enqueue messageId qid m =>
    obtain ⟨-, -, rfl, -⟩ := step_enqueue h
    rcases List.mem_append.1 ht' with ht' | ht'
    · exact Or.inl ht'
    · exact Or.inr (Or.inr (Or.inl ⟨messageId, qid, m, rfl, List.mem_singleton.1 ht'⟩))
  | dequeue pid qid =>
    obtain ⟨rfl, -⟩ := step_dequeue h
    rcases List.mem_append.1 ht' with ht' | ht'
    · exact Or.inl ht'
    · exact Or.inr (Or.inr (Or.inr ⟨pid, qid, rfl, List.mem_singleton.1 ht'⟩))
  | advance t =>
    obtain ⟨ht, rfl, -⟩ := step_advance h
    rcases List.mem_append.1 ht' with ht' | ht'
    · exact Or.inl (List.mem_of_mem_erase ht')
    · exact Or.inr (Or.inl ⟨t, ht, rfl, ht'⟩)
  | cleanEnqueueLog =>
    cases h
    exact Or.inl ht'
  | cleanDequeueLog =>
    cases h
    exact Or.inl ht'

/-- A step changes nothing at the pairs it does not work on. -/
theorem step_sameAt (h : s.step a = some (s', ev)) {k : PendingOperationId} (hk : a.key s ≠ some k) :
    SameAt k s s' ∧ ∀ e ∈ ev, e.key ≠ k := by
  have hcall : ∀ {t : Thread}, t.key ≠ k → ∀ t' : Thread, t'.key = k →
      (s.threads ++ [t]).count t' = s.threads.count t' := by
    intro t ht t' ht'
    have hne : t ≠ t' := fun he => ht (he ▸ ht')
    rw [List.count_append, List.count_singleton, if_neg (by simpa using hne), Nat.add_zero]
  cases a with
  | enqueue messageId qid m =>
    obtain ⟨-, -, rfl, rfl⟩ := step_enqueue h
    have hne : (s.enqueueId messageId, qid) ≠ k := fun he => hk (congrArg some he)
    refine ⟨⟨hcall hne, ?_, ?_, rfl⟩, ?_⟩
    · by_cases hid : messageId = 0
      · simp only [if_pos hid]
      · simp only [if_neg hid, PidTracker.isPending_addDuplicate]
    · by_cases hid : messageId = 0
      · simp only [if_pos hid]
      · simp only [if_neg hid, PidTracker.isDuplicate_addDuplicate]
        simp only [enqueueId, if_neg hid] at hne
        rw [if_neg fun he => hne (Prod.ext he.2.symm he.1.symm)]
    · intro e he
      rw [List.mem_singleton.1 he]
      exact hne
  | dequeue pid qid =>
    obtain ⟨rfl, rfl⟩ := step_dequeue h
    have hne : (pid, qid) ≠ k := fun he => hk (congrArg some he)
    refine ⟨⟨hcall hne, rfl, rfl, rfl⟩, ?_⟩
    intro e he
    rw [List.mem_singleton.1 he]
    exact hne
  | advance t =>
    have hne : t.key ≠ k := fun he => hk (congrArg some he)
    obtain ⟨ht, rfl, rfl⟩ := step_advance h
    obtain ⟨h1, h2, h3⟩ := runThread_other (s := s) hne
    refine ⟨⟨?_, h1, h2, h3⟩, fun e he => (key_of_mem_runThread_events he).symm ▸ hne⟩
    intro t' ht'
    have hcount := count_advance ht (s.runThread t).2.1 t'
    have hnt : t' ≠ t := fun he => hne (he ▸ ht')
    have hsucc : (s.runThread t).2.1.count t' = 0 := by
      rw [List.count_eq_zero]
      intro hmem
      exact hne ((key_of_mem_runThread hmem).symm.trans ht')
    rw [if_neg hnt, hsucc] at hcount
    exact hcount
  | cleanEnqueueLog =>
    cases h
    exact ⟨⟨fun _ _ => rfl, rfl, rfl, rfl⟩, fun e he => by cases he⟩
  | cleanDequeueLog =>
    cases h
    exact ⟨⟨fun _ _ => rfl, rfl, rfl, rfl⟩, fun e he => by cases he⟩

theorem step_contains (hst : s.step a = some (s', ev)) (q : UInt64) :
    s'.journalList.contains q = s.journalList.contains q := by
  cases a with
  | enqueue messageId qid m =>
    obtain ⟨-, -, rfl, -⟩ := step_enqueue hst
    rfl
  | dequeue pid qid =>
    obtain ⟨rfl, -⟩ := step_dequeue hst
    rfl
  | advance t =>
    obtain ⟨-, rfl, -⟩ := step_advance hst
    cases t with
    | enqueue pc pae => cases pc <;> rfl
    | store pc pae =>
      cases pc with
      | put => exact modifyJournal_contains ..
      | _ => rfl
    | dequeue pc pid qid => cases pc <;> rfl
    | asyncDequeue pc pid qid =>
      cases pc with
      | wait w => cases w <;> rfl
      | remove => exact modifyJournal_contains ..
      | logComplete => rfl
  | cleanEnqueueLog => cases hst; rfl
  | cleanDequeueLog => cases hst; rfl

theorem runThread_enableSmartAsync (t : Thread) : (s.runThread t).1.enableSmartAsync = s.enableSmartAsync := by
  cases t with
  | enqueue pc pae => cases pc <;> rfl
  | store pc pae =>
    cases pc with
    | put => exact modifyJournal_enableSmartAsync ..
    | _ => rfl
  | dequeue pc pid qid => cases pc <;> rfl
  | asyncDequeue pc pid qid =>
    cases pc with
    | wait w => cases w <;> rfl
    | remove => exact modifyJournal_enableSmartAsync ..
    | logComplete => rfl

theorem step_enableSmartAsync (hst : s.step a = some (s', ev)) : s'.enableSmartAsync = s.enableSmartAsync := by
  cases a with
  | enqueue messageId qid m =>
    obtain ⟨-, -, rfl, -⟩ := step_enqueue hst
    rfl
  | dequeue pid qid =>
    obtain ⟨rfl, -⟩ := step_dequeue hst
    rfl
  | advance t =>
    obtain ⟨-, rfl, -⟩ := step_advance hst
    exact runThread_enableSmartAsync t
  | cleanEnqueueLog => cases hst; rfl
  | cleanDequeueLog => cases hst; rfl

theorem step_stopped (hst : s.step a = some (s', ev)) : s'.tracker.stopped = s.tracker.stopped := by
  cases a with
  | enqueue messageId qid m =>
    obtain ⟨-, -, rfl, -⟩ := step_enqueue hst
    show (if messageId = 0 then s.tracker else s.tracker.addDuplicate messageId qid).stopped = _
    split <;> rfl
  | dequeue pid qid =>
    obtain ⟨rfl, -⟩ := step_dequeue hst
    rfl
  | advance t =>
    obtain ⟨-, rfl, -⟩ := step_advance hst
    exact stopped_runThread t
  | cleanEnqueueLog => cases hst; rfl
  | cleanDequeueLog => cases hst; rfl

end StoreProvider

end BdbMsgStore

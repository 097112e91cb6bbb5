import BdbMsgStore.EnqueueSide

/-!
# The life of a dequeue

Like an enqueue, a dequeue of a pair goes through a sequence of steps: those of the `dequeue` call and those of its
`async_dequeue` task, unless the call finds the enqueue of the pair still pending and cancels it.  `DequeueSide` says
that the threads of a dequeue are given by one stage; it is preserved by every step of the system as long as no pair
is dequeued twice (`DequeueSide.step`).
-/

namespace BdbMsgStore

open StoreProvider

/-- How far the dequeue of a pair has come: its next step, or one of its two ends. -/
inductive DeqStage where
  | check
  | logStart
  | schedule
  | wait (pc : WaitPc)
  | remove
  | logComplete
  | done
  | logEnqueueComplete
  | cancelled
  deriving DecidableEq, Repr

namespace DeqStage

/-- The dequeue has taken the pair from its store task. -/
def cancels : DeqStage → Bool
  | logEnqueueComplete | cancelled => true
  | _ => false

/-- The message is removed from the database. -/
def removed : DeqStage → Bool
  | logComplete | done => true
  | _ => false

/-- The task no longer waits for the store of the message. -/
def ready : DeqStage → Bool
  | wait (.returned r) => r != -1
  | remove | logComplete | done => true
  | _ => false

/-- The call has returned. -/
def returned : DeqStage → Bool
  | check | logStart | schedule | logEnqueueComplete => false
  | _ => true

/-- The start record is in the log. -/
def logged : DeqStage → Bool
  | check | logStart | logEnqueueComplete | cancelled => false
  | _ => true

/-- The thread that carries the dequeue of the pair on. -/
def thread (k : PendingOperationId) : DeqStage → Option Thread
  | check => some (.dequeue .check k.1 k.2)
  | logStart => some (.dequeue .logStart k.1 k.2)
  | schedule => some (.dequeue .schedule k.1 k.2)
  | wait pc => some (.asyncDequeue (.wait pc) k.1 k.2)
  | remove => some (.asyncDequeue .remove k.1 k.2)
  | logComplete => some (.asyncDequeue .logComplete k.1 k.2)
  | logEnqueueComplete => some (.dequeue .logEnqueueComplete k.1 k.2)
  | done => none
  | cancelled => none

/-- The stage after the next step, taken in the state `s`. -/
def next (s : StoreProvider) (k : PendingOperationId) : DeqStage → DeqStage
  | check => if s.tracker.isPending k.1 k.2 then logEnqueueComplete else logStart
  | logStart => schedule
  | schedule => wait (.dupTest 0)
  | wait (.returned r) => if r = -1 then wait (.dupTest 0) else if r = -2 then done else remove
  | wait pc => wait (s.tracker.waitForPid k.1 k.2 pc)
  | remove => logComplete
  | logComplete => done
  | logEnqueueComplete => cancelled
  | done => done
  | cancelled => cancelled

end DeqStage

/-- The dequeues of all pairs. -/
abbrev Dequeues := PendingOperationId → Option DeqStage

/-- The dequeues after an action in the state `s`. -/
def Dequeues.next (s : StoreProvider) (ψ : Dequeues) : Action → Dequeues
  | .dequeue pid qid => Function.update ψ (pid, qid) (some (if s.enableSmartAsync then .check else .logStart))
  | .advance t => if t.isEnqueue then ψ else Function.update ψ t.key ((ψ t.key).map (DeqStage.next s t.key))
  | _ => ψ

theorem Dequeues.next_of_ne {s : StoreProvider} {ψ : Dequeues} {a : Action} {k : PendingOperationId}
    (hk : a.key s ≠ some k) : ψ.next s a k = ψ k := by
  cases a with
  | dequeue pid qid => exact Function.update_of_ne (fun he => hk (congrArg some he.symm)) ..
  | advance t =>
    simp only [Dequeues.next]
    split
    · rfl
    · exact Function.update_of_ne (fun he => hk (congrArg some he.symm)) ..
  | _ => rfl

theorem Dequeues.next_advance {s : StoreProvider} {ψ : Dequeues} {t : Thread} {d : DeqStage}
    (ht : t.isEnqueue = false) (hd : ψ t.key = some d) :
    ψ.next s (.advance t) = Function.update ψ t.key (some (d.next s t.key)) := by
  simp only [Dequeues.next, ht, Bool.false_eq_true, ↓reduceIte, hd, Option.map_some]

theorem Dequeues.next_advance_enqueue {s : StoreProvider} {ψ : Dequeues} {t : Thread} (ht : t.isEnqueue = true) :
    ψ.next s (.advance t) = ψ := by
  simp only [Dequeues.next, if_pos ht]

/-- What the dequeue of a pair says about the state.  Some dequeues (`old`) are older than the run. -/
structure DequeueInv (old : PendingOperationId → Prop) (h : List Event) (s : StoreProvider)
    (k : PendingOperationId) (y : Option DeqStage) : Prop where
  threads : ∀ t : Thread, t.isEnqueue = false → t.key = k →
    s.threads.count t = if y.bind (DeqStage.thread k) = some t then 1 else 0
  called : .dequeueCalled k.1 k.2 ∈ h → y ≠ none
  known : y ≠ none → .dequeueCalled k.1 k.2 ∈ h ∨ old k
  returned : .dequeueReturned k.1 k.2 ∈ h → ∃ d ∈ y, d.returned

/-- The invariant of the dequeues. -/
def DequeueSide (old : PendingOperationId → Prop) (h : List Event) (s : StoreProvider) (ψ : Dequeues) : Prop :=
  ∀ k, DequeueInv old h s k (ψ k)

namespace DequeueSide

variable {old : PendingOperationId → Prop} {h : List Event} {s s' : StoreProvider} {ψ : Dequeues} {a : Action}
  {ev : List Event} {k : PendingOperationId}

theorem of_empty (hs : s.Empty) : DequeueSide (fun _ => False) [] s (fun _ => none) := by
  intro k
  exact
    { threads := fun t _ _ => by rw [hs.threads]; rfl
      called := fun hm => nomatch hm
      known := fun hne => absurd rfl hne
      returned := fun hm => nomatch hm }

theorem key_of_thread {d : DeqStage} {t : Thread} (ht : d.thread k = some t) :
    t.key = k ∧ t.isEnqueue = false := by
  cases d <;> cases ht <;> exact ⟨rfl, rfl⟩

/-- A step of a dequeue is the step of its stage. -/
theorem runThread_stage {d : DeqStage} {t : Thread} (ht : d.thread k = some t) :
    (s.runThread t).2.1 = ((d.next s k).thread k).toList := by
  cases d with
  | check =>
    cases ht
    simp only [runThread, DeqStage.next, PidTracker.dequeueCheck_fst]
    cases s.tracker.isPending k.1 k.2 <;> rfl
  | wait pc =>
    cases ht
    cases pc with
    | returned r =>
      simp only [runThread, DeqStage.next]
      split
      · rfl
      · split <;> rfl
    | _ => rfl
  | done => cases ht
  | cancelled => cases ht
  | _ => cases ht; rfl

/-- The check of a dequeue takes the pending entry of the pair. -/
theorem isPending_runThread {d : DeqStage} {t : Thread} (ht : d.thread k = some t) :
    (s.runThread t).1.tracker.isPending k.1 k.2 = (s.tracker.isPending k.1 k.2 && d != .check) := by
  cases d with
  | check =>
    cases ht
    simp [runThread, PidTracker.dequeueCheck_snd, PidTracker.isPending_enqueueCheck]
  | wait pc => cases ht; cases pc <;> simp [runThread]
  | done => cases ht
  | cancelled => cases ht
  | _ => cases ht; simp [runThread]

/-- The step `remove` deletes the message; the others leave the database alone. -/
theorem stored_runThread {d : DeqStage} {t : Thread} (ht : d.thread k = some t) :
    (s.runThread t).1.stored k.1 k.2 = if d = .remove then none else s.stored k.1 k.2 := by
  cases d with
  | remove =>
    cases ht
    simp only [runThread]
    rw [stored_removeMsg, if_pos rfl, if_pos trivial]
  | wait pc => cases ht; cases pc <;> exact (if_neg (by simp)).symm
  | done => cases ht
  | cancelled => cases ht
  | _ => cases ht; exact (if_neg (by simp)).symm

/-- A thread of a dequeue is the thread of the stage of its pair. -/
theorem stage_of_mem (hs : DequeueSide old h s ψ) {t : Thread} (ht : t ∈ s.threads) (hte : t.isEnqueue = false) :
    ∃ d, ψ t.key = some d ∧ d.thread t.key = some t := by
  have hcount := (hs t.key).threads t hte rfl
  have hpos : 0 < s.threads.count t := List.count_pos_iff.2 ht
  split at hcount
  · rename_i hb
    obtain ⟨d, hd, hdt⟩ := Option.bind_eq_some_iff.1 hb
    exact ⟨d, hd, hdt⟩
  · omega

/-- The thread of a stage is there. -/
theorem mem_of_stage (hs : DequeueSide old h s ψ) {d : DeqStage} (hd : ψ k = some d) {t : Thread}
    (ht : d.thread k = some t) : t ∈ s.threads := by
  have hkey := key_of_thread ht
  have hcount := (hs k).threads t hkey.2 hkey.1
  rw [hd, Option.bind_some, if_pos ht] at hcount
  exact List.count_pos_iff.1 (by omega)

/-- With no thread of the pair in progress its dequeue has come to one of its ends. -/
theorem stage_of_idle (hs : DequeueSide old h s ψ) (hidle : ∀ t ∈ s.threads, t.key ≠ k) {d : DeqStage}
    (hd : ψ k = some d) : d = .done ∨ d = .cancelled := by
  cases ht : d.thread k with
  | none => cases d <;> simp [DeqStage.thread] at ht ⊢
  | some t => exact absurd (key_of_thread ht).1 (hidle t (hs.mem_of_stage hd ht))

/-! ### The steps -/

/-- The dequeue of a pair stays as it is when its threads do. -/
theorem frame {y : Option DeqStage} (hy : DequeueInv old h s k y)
    (hthreads : ∀ t : Thread, t.isEnqueue = false → t.key = k → s'.threads.count t = s.threads.count t)
    (hev : ∀ e ∈ ev, e.key = k → e.isEnqueue = true) : DequeueInv old (h ++ ev) s' k y where
  threads := fun t ht htk => by rw [hthreads t ht htk]; exact hy.threads t ht htk
  called := by
    intro hm
    rcases List.mem_append.1 hm with hm | hm
    · exact hy.called hm
    · exact absurd (hev _ hm rfl) (by simp [Event.isEnqueue])
  known := by
    intro hne
    rcases hy.known hne with hm | ho
    · exact Or.inl (List.mem_append_left _ hm)
    · exact Or.inr ho
  returned := by
    intro hm
    rcases List.mem_append.1 hm with hm | hm
    · exact hy.returned hm
    · exact absurd (hev _ hm rfl) (by simp [Event.isEnqueue])

private theorem next_returned {d : DeqStage} (hd : d.returned = true) : (d.next s k).returned = true := by
  cases d with
  | wait pc =>
    cases pc with
    | returned r =>
      simp only [DeqStage.next]
      split
      · rfl
      · split <;> rfl
    | _ => rfl
  | _ => first | rfl | cases hd

/-- The step of a dequeue itself. -/
private theorem advance_self (hs : DequeueSide old h s ψ) {t : Thread} (hte : t.isEnqueue = false)
    (hst : s.step (.advance t) = some (s', ev)) :
    DequeueInv old (h ++ ev) s' t.key (ψ.next s (.advance t) t.key) := by
  obtain ⟨ht, rfl, rfl⟩ := step_advance hst
  obtain ⟨d, hd, hdt⟩ := hs.stage_of_mem ht hte
  have hy := hs t.key
  rw [hd] at hy
  rw [Dequeues.next_advance hte hd, Function.update_self]
  refine ⟨fun t' ht' htk' => ?_, fun _ => by simp, fun _ => ?_, fun hm => ⟨_, rfl, ?_⟩⟩
  · have hold := hy.threads t' ht' htk'
    rw [Option.bind_some, hdt] at hold
    show (s.threads.erase t ++ (s.runThread t).2.1).count t' = _
    rw [runThread_stage hdt]
    exact count_replace ht ((d.next s t.key).thread t.key) hold
  · rcases hy.known (by simp) with hm | ho
    · exact Or.inl (List.mem_append_left _ hm)
    · exact Or.inr ho
  · rcases List.mem_append.1 hm with hm | hm
    · obtain ⟨d', hd', hr⟩ := hy.returned hm
      cases hd'
      exact next_returned hr
    · -- the call returns when its task is scheduled, or when the enqueue is cancelled
      generalize hk : t.key = k at *
      cases d with
      | wait pc => cases hdt; cases pc <;> simp [runThread] at hm
      | done => cases hdt
      | cancelled => cases hdt
      | schedule => rfl
      | logEnqueueComplete => rfl
      | _ => cases hdt; simp [runThread] at hm

/-- A step of an enqueue of the pair leaves its dequeue alone. -/
private theorem enqueue_self (hs : DequeueSide old h s ψ) {t : Thread} (hte : t.isEnqueue = true)
    (hst : s.step (.advance t) = some (s', ev)) : DequeueInv old (h ++ ev) s' t.key (ψ t.key) := by
  obtain ⟨ht, rfl, rfl⟩ := step_advance hst
  refine frame (hs t.key) (fun t' ht' _ => ?_) (fun e he _ => ?_)
  · have hcount := count_advance ht (s.runThread t).2.1 t'
    have hne : t' ≠ t := by
      rintro rfl
      rw [hte] at ht'
      cases ht'
    have hzero : (s.runThread t).2.1.count t' = 0 := by
      rw [List.count_eq_zero]
      intro hmem
      have := EnqueueSide.isEnqueue_of_mem_runThread hmem
      rw [hte, ht'] at this
      cases this
    rw [if_neg hne, hzero] at hcount
    exact hcount
  · cases t with
    | enqueue pc pae => cases pc <;> simp_all [runThread, Event.isEnqueue]
    | store pc pae => cases pc <;> simp_all [runThread]
    | dequeue pc pid qid => cases hte
    | asyncDequeue pc pid qid => cases hte

/-- Every step preserves the invariant of the dequeues, if it does not dequeue a pair a second time. -/
theorem step (hs : DequeueSide old h s ψ) (hnew : ∀ pid qid, a = .dequeue pid qid → ψ (pid, qid) = none)
    (hst : s.step a = some (s', ev)) : DequeueSide old (h ++ ev) s' (ψ.next s a) := by
  intro k
  by_cases hak : a.key s = some k
  · cases a with
    | enqueue messageId qid m =>
      cases hak
      obtain ⟨-, -, rfl, rfl⟩ := step_enqueue hst
      refine frame (hs _) (fun t ht _ => ?_) (fun e he _ => ?_)
      · have hne : Thread.enqueue .logStart (m.pending (s.enqueueId messageId) qid) ≠ t := by
          rintro rfl
          cases ht
        rw [List.count_append, List.count_singleton, if_neg (by simpa using hne), Nat.add_zero]
      · rw [List.mem_singleton.1 he]
        rfl
    | dequeue pid qid =>
      cases hak
      have hy := hs (pid, qid)
      rw [hnew pid qid rfl] at hy
      obtain ⟨rfl, rfl⟩ := step_dequeue hst
      simp only [Dequeues.next, Function.update_self]
      refine ⟨fun t ht htk => ?_, fun _ => by simp, fun _ => ?_, fun hm => ?_⟩
      · have hold := hy.threads t ht htk
        rw [Option.bind_none, if_neg (by simp)] at hold
        rw [List.count_append, hold, List.count_singleton, Nat.zero_add, Option.bind_some]
        cases s.enableSmartAsync <;> simp [DeqStage.thread]
      · exact Or.inl (List.mem_append_right _ (List.mem_singleton.2 rfl))
      · rcases List.mem_append.1 hm with hm | hm
        · obtain ⟨d, hd, -⟩ := hy.returned hm
          cases hd
        · cases List.mem_singleton.1 hm
    | advance t =>
      cases hak
      by_cases hte : t.isEnqueue = true
      · rw [Dequeues.next_advance_enqueue hte]
        exact hs.enqueue_self hte hst
      · exact hs.advance_self (by simpa using hte) hst
    | cleanEnqueueLog => cases hak
    | cleanDequeueLog => cases hak
  · obtain ⟨hsame, hev⟩ := step_sameAt hst hak
    rw [Dequeues.next_of_ne hak]
    exact frame (hs k) (fun t _ htk => hsame.threads t htk) (fun e he hek => absurd hek (hev e he))

end DequeueSide

end BdbMsgStore

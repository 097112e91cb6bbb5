import BdbMsgStore.Durability
import BdbMsgStore.Quiescence
import BdbMsgStore.Resurrection

/-!
# Dequeued messages after a crash

The dequeue log follows the stages of the dequeues as the enqueue log follows those of the enqueues
(`DequeueLog.step`), so the two logs and the databases that a crash leaves are known pair by pair.  A message whose
`dequeue` had returned comes back from recovery in one situation: the message is in its database, and both its
enqueue and its dequeue are pending.  Then the loop over the pending enqueues drops the two of them, and the loop
over the records finds no pending dequeue (`dequeued_stays_gone`).
-/

namespace BdbMsgStore

open StoreProvider

/-! ### The records of the dequeue log -/

/-- What the dequeue log has start records for. -/
def Dequeues.started (ψ : Dequeues) (k : PendingOperationId) : Option PendingAsyncDequeue :=
  (ψ k).bind fun d => if d.logged then some ⟨⟨k.1, k.2⟩⟩ else none

/-- What the dequeue log has completion records for. -/
def Dequeues.completed (ψ : Dequeues) (k : PendingOperationId) : Prop := ψ k = some .done

/-- The dequeue log holds the records that the stages of the dequeues call for. -/
def DequeueLog (s : StoreProvider) (ψ : Dequeues) : Prop :=
  s.aologger.dequeueLog.Inv dequeueFormat ψ.started ψ.completed

namespace DequeueLog

variable {old : PendingOperationId → Prop} {h ev : List Event} {s s' : StoreProvider} {ψ : Dequeues} {a : Action}

/-- The dequeue of a pair moves on and nothing is written: both stages call for the same records. -/
private theorem update_same (hl : DequeueLog s ψ) {k : PendingOperationId} {d : DeqStage}
    (hlog : d.logged = (ψ k).any DeqStage.logged) (hdone : d = .done ↔ ψ k = some .done)
    (hsame : s'.aologger.dequeueLog = s.aologger.dequeueLog) : DequeueLog s' (Function.update ψ k (some d)) := by
  unfold DequeueLog
  rw [hsame]
  refine AsyncLog.Inv.congr hl (fun k' => ?_) (fun k' => ?_)
  · unfold Dequeues.started
    by_cases hk : k' = k
    · subst hk
      rw [Function.update_self, Option.bind_some, hlog]
      cases ψ k' <;> rfl
    · rw [Function.update_of_ne hk]
  · unfold Dequeues.completed
    by_cases hk : k' = k
    · subst hk
      rw [Function.update_self, Option.some.injEq]
      exact hdone
    · rw [Function.update_of_ne hk]

/-- A step of a dequeue writes the record that its next stage calls for. -/
private theorem records_advance (hl : DequeueLog s ψ) {d : DeqStage} {t : Thread} {k : PendingOperationId}
    (hd : ψ k = some d) (hdt : d.thread k = some t) (hrunning : d ≠ .wait (.returned (-2)))
    (hsame : s'.aologger = (s.runThread t).1.aologger) :
    DequeueLog s' (Function.update ψ k (some (d.next s k))) := by
  have hstarted : ∀ d' : DeqStage, d'.logged = true → ∀ k',
      (Dequeues.started (Function.update ψ k (some d'))) k' =
        Function.update ψ.started k (some ⟨⟨k.1, k.2⟩⟩) k' := by
    intro d' hlog k'
    unfold Dequeues.started
    by_cases hk : k' = k
    · subst hk
      rw [Function.update_self, Function.update_self, Option.bind_some, if_pos hlog]
    · rw [Function.update_of_ne hk, Function.update_of_ne hk]
  cases d with
  | check =>
    cases hdt
    refine hl.update_same ?_ ?_ (by rw [hsame]; rfl)
    · simp only [DeqStage.next, hd]
      split <;> rfl
    · simp only [DeqStage.next, hd]
      split <;> simp
  | logStart =>
    cases hdt
    unfold DequeueLog
    rw [hsame]
    have hnone : ψ.started (dequeueFormat.opId ⟨⟨k.1, k.2⟩⟩) = none := by
      show ψ.started k = none
      simp [Dequeues.started, hd, DeqStage.logged]
    refine (AsyncLog.Inv.logStart hl hnone).congr (hstarted .schedule rfl) fun k' => ?_
    unfold Dequeues.completed
    by_cases hk : k' = k
    · subst hk
      rw [Function.update_self, hd]
      simp [DeqStage.next]
    · rw [Function.update_of_ne hk]
  | schedule =>
    cases hdt
    exact hl.update_same (by rw [hd]; rfl) (by rw [hd]; simp [DeqStage.next]) (by rw [hsame]; rfl)
  | wait pc =>
    cases hdt
    cases pc with
    | returned r =>
      have hr : r ≠ -2 := fun he => hrunning (by rw [he])
      refine hl.update_same ?_ ?_ (by rw [hsame]; rfl)
      · simp only [DeqStage.next, hd, if_neg hr]
        split <;> rfl
      · simp only [DeqStage.next, hd, if_neg hr]
        split <;> simp
    | _ => exact hl.update_same (by rw [hd]; rfl) (by rw [hd]; simp [DeqStage.next]) (by rw [hsame]; rfl)
  | remove =>
    cases hdt
    refine hl.update_same (by rw [hd]; rfl) (by rw [hd]; simp [DeqStage.next]) ?_
    rw [hsame]
    simp [runThread]
  | logComplete =>
    cases hdt
    unfold DequeueLog
    rw [hsame]
    have hne : ψ.started k ≠ none := by simp [Dequeues.started, hd, DeqStage.logged]
    refine (AsyncLog.Inv.logComplete hl hne).congr (fun k' => ?_) fun k' => ?_
    · rw [hstarted _ rfl]
      by_cases hk : k' = k
      · subst hk
        simp [Dequeues.started, hd, DeqStage.logged]
      · rw [Function.update_of_ne hk]
    · unfold Dequeues.completed
      by_cases hk : k' = k
      · subst hk
        simp [DeqStage.next]
      · rw [Function.update_of_ne hk]
        simp [hk]
  | logEnqueueComplete =>
    cases hdt
    exact hl.update_same (by rw [hd]; rfl) (by rw [hd]; simp [DeqStage.next]) (by rw [hsame]; rfl)
  | done => cases hdt
  | cancelled => cases hdt

/-- Every step of the system writes the records that the stages of the dequeues call for. -/
theorem step (hs : DequeueSide old h s ψ) (hl : DequeueLog s ψ) (hrunning : ∀ k, ψ k ≠ some (.wait (.returned (-2))))
    (hnew : ∀ pid qid, a = .dequeue pid qid → ψ (pid, qid) = none) (hst : s.step a = some (s', ev)) :
    DequeueLog s' (ψ.next s a) := by
  cases a with
  | enqueue messageId qid m =>
    obtain ⟨-, -, rfl, -⟩ := step_enqueue hst
    exact hl
  | dequeue pid qid =>
    obtain ⟨rfl, -⟩ := step_dequeue hst
    have hnone := hnew pid qid rfl
    refine hl.update_same ?_ ?_ rfl
    · rw [hnone]
      split <;> rfl
    · rw [hnone]
      split <;> simp
  | advance t =>
    obtain ⟨ht, rfl, -⟩ := step_advance hst
    by_cases hte : t.isEnqueue = true
    · rw [Dequeues.next_advance_enqueue hte]
      have hsame : (s.runThread t).1.aologger.dequeueLog = s.aologger.dequeueLog := by
        cases t with
        | enqueue pc pae => cases pc <;> rfl
        | store pc pae => cases pc <;> simp [runThread, AsyncOperationLogger.logEnqueueComplete]
        | dequeue pc pid qid => cases hte
        | asyncDequeue pc pid qid => cases hte
      unfold DequeueLog
      rw [hsame]
      exact hl
    · have hte' : t.isEnqueue = false := by simpa using hte
      obtain ⟨d, hd, hdt⟩ := hs.stage_of_mem ht hte'
      rw [Dequeues.next_advance hte' hd]
      exact hl.records_advance hd hdt (fun he => hrunning t.key (by rw [hd, he])) rfl
  | cleanEnqueueLog =>
    cases hst
    exact hl
  | cleanDequeueLog =>
    cases hst
    exact AsyncLog.Inv.cleanStep hl

theorem of_empty (hs : s.Empty) : DequeueLog s (fun _ => none) := by
  unfold DequeueLog
  rw [hs.aologger]
  exact AsyncLog.inv_empty.congr (fun _ => rfl) (fun _ => by simp [Dequeues.completed])

end DequeueLog

/-! ### What a crash leaves -/

/-- The stages of an orderly run, with what the two logs say of them. -/
structure LoggedInv (h : List Event) (s : StoreProvider) (φ : Entries) (ψ : Dequeues) : Prop where
  orderly : OrderlyInv h s φ ψ
  enqueueLog : EnqueueLog s φ fun k => ψ k = some .cancelled
  dequeueLog : DequeueLog s ψ

namespace LoggedInv

variable {h ev : List Event} {s s' : StoreProvider} {φ : Entries} {ψ : Dequeues} {a : Action}

/-- The pairs that a dequeue has completed in the enqueue log are those whose dequeue ended there. -/
private theorem cancel_iff (hi : OrderlyInv h s φ ψ) (hok : Orderly h s a) (hst : s.step a = some (s', ev))
    (k : PendingOperationId) :
    ψ.next s a k = some .cancelled ↔ a.cancel (fun k => ψ k = some .cancelled) k := by
  cases a with
  | dequeue pid qid =>
    simp only [Dequeues.next, Action.cancel]
    by_cases hk : k = (pid, qid)
    · subst hk
      rw [Function.update_self, (hi.disciplined hok).dequeue pid qid rfl]
      split <;> simp
    · rw [Function.update_of_ne hk]
  | advance t =>
    cases t with
    | enqueue pc pae => rfl
    | store pc pae => rfl
    | dequeue pc pid qid =>
      obtain ⟨d, hd, hdt⟩ := hi.coherent.dequeues.stage_of_mem (step_advance hst).1 rfl
      rw [Dequeues.next_advance rfl hd]
      by_cases hk : k = (pid, qid)
      · subst hk
        rw [show Thread.key (.dequeue pc pid qid) = (pid, qid) from rfl] at hd hdt ⊢
        rw [Function.update_self, Option.some.injEq]
        cases d with
        | check =>
          cases hdt
          simp only [Action.cancel, hd, DeqStage.next]
          split <;> simp
        | _ => cases hdt <;> simp [Action.cancel, hd, DeqStage.next]
      · rw [show Thread.key (.dequeue pc pid qid) = (pid, qid) from rfl, Function.update_of_ne hk]
        cases pc <;> simp [Action.cancel, hk]
    | asyncDequeue pc pid qid =>
      obtain ⟨d, hd, hdt⟩ := hi.coherent.dequeues.stage_of_mem (step_advance hst).1 rfl
      rw [Dequeues.next_advance rfl hd]
      simp only [Action.cancel]
      by_cases hk : k = (pid, qid)
      · subst hk
        rw [show Thread.key (.asyncDequeue pc pid qid) = (pid, qid) from rfl] at hd hdt ⊢
        rw [Function.update_self, hd, Option.some.injEq, Option.some.injEq]
        cases d with
        | wait w =>
          cases w with
          | returned r =>
            simp only [DeqStage.next]
            split
            · simp
            · split <;> simp
          | _ => simp [DeqStage.next]
        | _ => cases hdt <;> simp [DeqStage.next]
      · rw [show Thread.key (.asyncDequeue pc pid qid) = (pid, qid) from rfl, Function.update_of_ne hk]
  | _ => rfl

theorem of_run {s₀ : StoreProvider} (hs₀ : s₀.Empty) (hrun : Run StoreProvider.step Orderly s₀ h s) :
    ∃ φ ψ, LoggedInv h s φ ψ := by
  refine hrun.invariant (I := fun h s => ∃ φ ψ, LoggedInv h s φ ψ) ⟨_, _, OrderlyInv.of_empty hs₀, ?_,
    DequeueLog.of_empty hs₀⟩ ?_
  · have hl := EnqueueLog.of_empty hs₀
    simpa using hl
  · rintro h s a s' ev ⟨φ, ψ, hi, hle, hld⟩ hok hst
    have hdisc := hi.disciplined hok
    have hnew : ∀ messageId qid m, a = .enqueue messageId qid m → φ (s.enqueueId messageId, qid) = none :=
      fun messageId qid m ha => (hdisc.enqueue messageId qid m ha).1
    refine ⟨_, _, hi.step hok hst, ?_, hld.step hi.coherent.dequeues (fun k => (hi.coherent.pairs k).running)
      hdisc.dequeue hst⟩
    have hl := hle.step hi.coherent.enqueues hnew hst
    rwa [show (fun k => ψ.next s a k = some .cancelled) = a.cancel (fun k => ψ k = some .cancelled) from
      funext fun k => propext (cancel_iff hi hok hst k)]

/-- A dequeue that has returned is pending in its log, or it is over: then the enqueue is completed in its log, and
the message is not in the database. -/
theorem dequeue_returned (hi : LoggedInv h s φ ψ) (hsleepE : s.aologger.enqueueLog.cleaner = .sleeping)
    (hsleepD : s.aologger.dequeueLog.cleaner = .sleeping) {pid qid : UInt64}
    (hret : .dequeueReturned pid qid ∈ h) :
    (TwoLevel.find? s.aologger.recoverAsyncDequeue.1 qid pid).isSome = true ∨
      (TwoLevel.find? s.aologger.recoverAsyncEnqueue.1 qid pid = none ∧ s.stored pid qid = none) := by
  obtain ⟨d, hd, hdret⟩ := (hi.orderly.coherent.dequeues (pid, qid)).returned hret
  replace hd : ψ (pid, qid) = some d := hd
  have hp := hi.orderly.coherent.pairs (pid, qid)
  have hfindE := hi.enqueueLog.records.recoverAsync_find? hsleepE (pid, qid)
  have hfindD := AsyncLog.Inv.recoverAsync_find? hi.dequeueLog hsleepD (pid, qid) ⟨⟨pid, qid⟩⟩
  -- a completed enqueue is not pending
  have hnone : φ.completed (fun k => ψ k = some .cancelled) (pid, qid) →
      TwoLevel.find? s.aologger.recoverAsyncEnqueue.1 qid pid = none := by
    intro hc
    rw [Option.eq_none_iff_forall_ne_some]
    intro pae hpae
    exact ((hfindE pae).1 hpae).2 hc
  have hpending : d.logged = true → d ≠ .done →
      (TwoLevel.find? s.aologger.recoverAsyncDequeue.1 qid pid).isSome = true := by
    intro hlog hne
    refine Option.isSome_iff_exists.2 ⟨_, hfindD.2 ⟨?_, ?_⟩⟩
    · simp [Dequeues.started, hd, hlog]
    · unfold Dequeues.completed
      rw [hd]
      simpa using hne
  have hstored := hp.stored
  rw [hd] at hp hstored
  cases d with
  | check => cases hdret
  | logStart => cases hdret
  | schedule => cases hdret
  | logEnqueueComplete => cases hdret
  | wait pc => exact Or.inl (hpending rfl (by simp))
  | remove => exact Or.inl (hpending rfl (by simp))
  | logComplete => exact Or.inl (hpending rfl (by simp))
  | done =>
    refine Or.inr ⟨hnone ?_, ?_⟩
    · -- the pair was enqueued, and its store was over before the delete
      have hen := hi.orderly.after (pid, qid) ((hi.orderly.stage_iff _).1 (by rw [hd]; simp))
      obtain ⟨e, he⟩ := Option.ne_none_iff_exists'.1 ((hi.orderly.entry_iff _).2 hen)
      exact Or.inr ⟨e, he, by rw [hp.ready rfl e he]; rfl⟩
    · exact hstored
  | cancelled =>
    refine Or.inr ⟨hnone (Or.inl hd), ?_⟩
    obtain ⟨-, -, e, he, -⟩ := hp.taken rfl
    rw [show φ (pid, qid) = some e from he] at hstored
    simpa [content, DeqStage.removed, DeqStage.cancels] using hstored

end LoggedInv

/-- The message is in the database of the queue and the broker takes it, and both its enqueue and its dequeue are
pending in the logs. -/
def StoreProvider.PendingBoth (loadContent : UInt64 → Bytes → UInt64 → Bool) (s : StoreProvider) (pid qid : UInt64) :
    Prop :=
  (∃ v, s.stored pid qid = some v ∧ Taken loadContent pid v) ∧
  (TwoLevel.find? s.aologger.recoverAsyncEnqueue.1 qid pid).isSome = true ∧
  (TwoLevel.find? s.aologger.recoverAsyncDequeue.1 qid pid).isSome = true

/-- A message is put into the database, and dequeued before its store task logs the completion. -/
private def dequeuedAfterPut : List Action := enqueueCall 0 1 1 ++ (storeTask 1 1).take 1 ++ dequeueCall 1 1

/-- The store task and then the dequeue task go on, until the message is removed. -/
private def removedBeforeCrash : List Action := dequeuedAfterPut ++ (storeTask 1 1).drop 1 ++ (dequeueTask 1 1).take 4

end BdbMsgStore

import BdbMsgStore.EnqueueRecords

/-!
# Durability of enqueued messages

The enqueue log follows the stages of the enqueues (`EnqueueLog.step`).  Together with the database this gives the
durability of the store: between the return of `enqueue` and the call of `dequeue`, a message is in its database or
pending in the log, whatever the other calls, the pools and the cleaners do (`enqueued_durable`).
-/

namespace BdbMsgStore

open StoreProvider

/-! ### The enqueue log -/

/-- The enqueue log holds the records that the stages of the enqueues call for, and a dequeue that is about to
complete an enqueue finds its start record there. -/
structure EnqueueLog (s : StoreProvider) (φ : Entries) (cancelled : PendingOperationId → Prop) : Prop where
  records : s.aologger.enqueueLog.Inv enqueueFormat φ.started (φ.completed cancelled)
  cancelling : ∀ pid qid, .dequeue .logEnqueueComplete pid qid ∈ s.threads → φ.started (pid, qid) ≠ none

namespace EnqueueLog

variable {old : PendingOperationId → Prop} {h : List Event} {s s' : StoreProvider} {φ : Entries} {a : Action}
  {ev : List Event} {cancelled : PendingOperationId → Prop}

/-- It is a log with no older records. -/
private theorem iff_records :
    EnqueueLog s φ cancelled ↔ EnqueueRecords (fun _ => none) (fun _ => False) s φ cancelled := by
  have hstarted : ∀ k, φ.startedAfter (fun _ => none) k = φ.started k := by
    intro k
    unfold Entries.startedAfter Entries.started
    cases φ k <;> rfl
  have hcompleted : ∀ k, φ.completedAfter (fun _ => False) cancelled k ↔ φ.completed cancelled k := by
    intro k
    unfold Entries.completedAfter
    simp
  constructor
  · intro hl
    exact ⟨hl.records.congr hstarted hcompleted, fun pid qid ht => by rw [hstarted]; exact hl.cancelling pid qid ht⟩
  · intro hl
    exact ⟨hl.records.congr (fun k => (hstarted k).symm) (fun k => (hcompleted k).symm),
      fun pid qid ht => by rw [← hstarted]; exact hl.cancelling pid qid ht⟩

/-- Every step of the system writes the records that the stages of the enqueues call for. -/
theorem step (hs : EnqueueSide old h s φ) (hl : EnqueueLog s φ cancelled)
    (hnew : ∀ messageId qid m, a = .enqueue messageId qid m → φ (s.enqueueId messageId, qid) = none)
    (hst : s.step a = some (s', ev)) : EnqueueLog s' (φ.next s a) (a.cancel cancelled) :=
  iff_records.2 (EnqueueRecords.step hs (iff_records.1 hl)
    (fun messageId qid m ha => ⟨hnew messageId qid m ha, rfl, id⟩) hst)

theorem of_empty (hs : s.Empty) : EnqueueLog s (fun _ => none) (fun _ => False) :=
  iff_records.2 (EnqueueRecords.of_empty hs)

end EnqueueLog

/-! ### A pair until its dequeue -/

/-- A pair that is not being dequeued waits in `pendMap` for its store task, and is in the database after it. -/
structure Kept (h : List Event) (s : StoreProvider) (k : PendingOperationId) (x : Option Entry) : Prop where
  waiting : .dequeueCalled k.1 k.2 ∉ h → s.enableSmartAsync = true → ∀ e ∈ x, e.stage.pending →
    s.tracker.isPending k.1 k.2 = true
  stored : .dequeueCalled k.1 k.2 ∉ h → ∀ e ∈ x, e.stage.stored → s.stored k.1 k.2 = some (dbtValue e.pae.buff)
  bytes : ∀ v, s.stored k.1 k.2 = some v → ∃ e ∈ x, v = dbtValue e.pae.buff

namespace Kept

variable {h ev : List Event} {s s' : StoreProvider} {k : PendingOperationId} {x : Option Entry}

theorem frame (hx : Kept h s k x) (hpend : s'.tracker.isPending k.1 k.2 = s.tracker.isPending k.1 k.2)
    (hsmart : s'.enableSmartAsync = s.enableSmartAsync) (hstored : s'.stored k.1 k.2 = s.stored k.1 k.2) :
    Kept (h ++ ev) s' k x where
  waiting := fun hd hsm e he hst => by
    rw [hpend]
    exact hx.waiting (fun hm => hd (List.mem_append_left _ hm)) (hsmart ▸ hsm) e he hst
  stored := fun hd e he hst => by
    rw [hstored]
    exact hx.stored (fun hm => hd (List.mem_append_left _ hm)) e he hst
  bytes := fun v hv => hx.bytes v (hstored ▸ hv)

/-- Once the dequeue is called, only the bytes matter. -/
theorem of_called (hd : .dequeueCalled k.1 k.2 ∈ h)
    (hbytes : ∀ v, s.stored k.1 k.2 = some v → ∃ e ∈ x, v = dbtValue e.pae.buff) : Kept h s k x :=
  ⟨fun hn => absurd hd hn, fun hn => absurd hd hn, hbytes⟩

/-- The steps of the enqueue of the pair. -/
theorem advance {e : Entry} {t : Thread} (ts : List Thread) (hx : Kept h s t.key (some e)) (hkey : e.pae.opId = t.key)
    (het : e.thread = some t) (hj : s.journalList.contains e.pae.queueId)
    (hmode : e.stage = .willEnqueue ∨ e.stage = .check → s.enableSmartAsync = true) :
    Kept (h ++ ev) { (s.runThread t).1 with threads := ts } t.key (some (e.next s)) := by
  have hk1 : t.key.1 = e.pae.msgId := by rw [← hkey]; rfl
  have hk2 : t.key.2 = e.pae.queueId := by rw [← hkey]; rfl
  obtain ⟨hwait, hkept, hbytes⟩ := hx
  rw [hk1, hk2] at hwait hkept hbytes
  have hpend := EnqueueSide.isPending_runThread (s := s) het
  have hstored := EnqueueSide.stored_runThread het hj
  have hold : Event.dequeueCalled e.pae.msgId e.pae.queueId ∉ h ++ ev →
      Event.dequeueCalled e.pae.msgId e.pae.queueId ∉ h := fun hd hm => hd (List.mem_append_left _ hm)
  refine ⟨fun hd hsm e' he' hst => ?_, fun hd e' he' hst => ?_, fun v hv => ⟨_, rfl, ?_⟩⟩
  · cases he'
    rw [hk1, hk2] at hd ⊢
    refine hpend.trans ?_
    replace hsm : s.enableSmartAsync = true := (runThread_enableSmartAsync t).symm.trans hsm
    replace hst : (e.nextStage s).pending = true := hst
    have hw := hwait (hold hd) hsm e rfl
    unfold Entry.nextStage at hst
    cases hstage : e.stage <;> rw [hstage] at hst hw
    case logStart => rw [hsm] at hst; cases hst
    case schedule => exact hw rfl
    case check => cases hp : s.tracker.isPending e.pae.msgId e.pae.queueId <;> simp [hp, EnqStage.pending] at hst
    case addPidDup =>
      cases hp : s.tracker.isDuplicate e.pae.msgId e.pae.queueId <;> simp [hp, EnqStage.pending] at hst
    all_goals cases hst
  · cases he'
    rw [hk1, hk2] at hd ⊢
    refine hstored.trans ?_
    show _ = some (dbtValue e.pae.buff)
    replace hst : (e.nextStage s).stored = true := hst
    have hk := hkept (hold hd) e rfl
    unfold Entry.nextStage at hst
    cases hstage : e.stage <;> rw [hstage] at hst hk <;> simp only [↓reduceIte, reduceCtorEq]
    case logStart => cases hs : s.enableSmartAsync <;> simp [hs, EnqStage.stored] at hst
    case schedule => cases hs : s.enableSmartAsync <;> simp [hs, EnqStage.stored] at hst
    case check =>
      -- the pair would have to be taken from `pendMap` by a dequeue
      have hp := hwait (hold hd) (hmode (Or.inr hstage)) e rfl (by rw [hstage]; rfl)
      simp [hp, EnqStage.stored] at hst
    case put =>
      cases hv : s.stored e.pae.msgId e.pae.queueId with
      | none => rfl
      | some v =>
        obtain ⟨e', he', hv'⟩ := hbytes v hv
        cases he'
        rw [hv']
        rfl
    case logComplete => exact hk rfl
    case addPidDup => exact hk rfl
    case addPidMain => exact hk rfl
    case done => exact hk rfl
    all_goals cases hst
  · show v = dbtValue e.pae.buff
    rw [hk1, hk2] at hv
    replace hv := hstored.symm.trans hv
    have hb : ∀ v, s.stored e.pae.msgId e.pae.queueId = some v → v = dbtValue e.pae.buff := by
      intro v hv
      obtain ⟨e', he', hv'⟩ := hbytes v hv
      cases he'
      exact hv'
    split at hv
    · cases hv
      cases hs : s.stored e.pae.msgId e.pae.queueId with
      | none => rfl
      | some v => exact hb v hs
    · exact hb v hv

end Kept

/-! ### Runs -/

/-- No pair is enqueued twice; dequeues may be called at any time. -/
def EnqueuedOnce (h : List Event) (s : StoreProvider) : Action → Prop
  | .enqueue messageId qid _ => ¬ Enqueued h (s.enqueueId messageId, qid)
  | _ => True

instance (h : List Event) (s : StoreProvider) : ∀ a, Decidable (EnqueuedOnce h s a)
  | .enqueue messageId qid _ => inferInstanceAs (Decidable (¬ Enqueued h (s.enqueueId messageId, qid)))
  | .dequeue _ _ | .advance _ | .cleanEnqueueLog | .cleanDequeueLog => isTrue trivial

/-- What holds in every state of a run in which no pair is enqueued twice. -/
structure Durable (h : List Event) (s : StoreProvider) (φ : Entries) (cancelled : PendingOperationId → Prop) :
    Prop where
  enqueues : EnqueueSide (fun _ => False) h s φ
  log : EnqueueLog s φ cancelled
  dequeues : ∀ t ∈ s.threads, t.isEnqueue = false → .dequeueCalled t.key.1 t.key.2 ∈ h
  cancelled : ∀ k, cancelled k → .dequeueCalled k.1 k.2 ∈ h
  kept : ∀ k, Kept h s k (φ k)

namespace Durable

variable {h ev : List Event} {s s' : StoreProvider} {φ : Entries} {a : Action} {cancelled : PendingOperationId → Prop}

theorem of_empty (hs : s.Empty) : Durable [] s (fun _ => none) (fun _ => False) where
  enqueues := EnqueueSide.of_empty hs
  log := EnqueueLog.of_empty hs
  dequeues := fun t ht => by rw [hs.threads] at ht; cases ht
  cancelled := fun k hk => hk.elim
  kept := fun k => ⟨fun _ _ e he => (nomatch he), fun _ e he => (nomatch he), fun v hv => by
    rw [hs.stored] at hv
    cases hv⟩

/-- The database and `pendMap` at the pair of an action. -/
private theorem kept_step (hd : Durable h s φ cancelled) (hok : EnqueuedOnce h s a)
    (hnew : ∀ messageId qid m, a = .enqueue messageId qid m → φ (s.enqueueId messageId, qid) = none)
    (hst : s.step a = some (s', ev)) (k : PendingOperationId) : Kept (h ++ ev) s' k (φ.next s a k) := by
  have hk := hd.kept k
  by_cases hak : a.key s = some k
  · cases a with
    | enqueue messageId qid m =>
      cases hak
      rw [hnew messageId qid m rfl] at hk
      obtain ⟨-, -, rfl, rfl⟩ := step_enqueue hst
      rw [Entries.next_enqueue, Function.update_self]
      refine ⟨fun _ _ e he hp => ?_, fun _ e he hp => ?_, fun v hv => ?_⟩
      · cases he
        cases hp
      · cases he
        cases hp
      · obtain ⟨e, he, -⟩ := hk.bytes v hv
        cases he
    | dequeue pid qid =>
      cases hak
      obtain ⟨rfl, rfl⟩ := step_dequeue hst
      exact Kept.of_called (List.mem_append_right _ (List.mem_singleton.2 rfl)) hk.bytes
    | advance t =>
      cases hak
      obtain ⟨ht, rfl, rfl⟩ := step_advance hst
      by_cases hte : t.isEnqueue = true
      · obtain ⟨e, he, het⟩ := hd.enqueues.entry_of_mem ht hte
        have hx := hd.enqueues t.key
        rw [he] at hx hk
        have hkey := hx.key e rfl
        have hj : s.journalList.contains e.pae.queueId = true := by
          have := hx.journal e rfl
          rwa [← hkey] at this
        rw [Entries.next_advance hte he, Function.update_self]
        exact hk.advance _ hkey het hj (hx.smart e rfl)
      · have hte' : t.isEnqueue = false := by simpa using hte
        rw [Entries.next_advance_dequeue hte']
        refine Kept.of_called (List.mem_append_left _ (hd.dequeues t ht hte')) fun v hv => ?_
        cases t with
        | enqueue pc pae => cases hte'
        | store pc pae => cases hte'
        | dequeue pc pid qid => cases pc <;> exact hk.bytes v hv
        | asyncDequeue pc pid qid =>
          cases pc with
          | wait w => cases w <;> exact hk.bytes v hv
          | remove =>
            have hnone := stored_removeMsg s pid qid pid qid
            rw [if_pos rfl] at hnone
            exact absurd (hnone.symm.trans hv) (by simp)
          | logComplete => exact hk.bytes v hv
    | cleanEnqueueLog => cases hak
    | cleanDequeueLog => cases hak
  · obtain ⟨hsame, -⟩ := step_sameAt hst hak
    rw [Entries.next_of_ne hak]
    exact hk.frame hsame.pending (step_enableSmartAsync hst) hsame.stored

theorem step (hd : Durable h s φ cancelled) (hok : EnqueuedOnce h s a) (hst : s.step a = some (s', ev)) :
    Durable (h ++ ev) s' (φ.next s a) (a.cancel cancelled) := by
  have hnew : ∀ messageId qid m, a = .enqueue messageId qid m → φ (s.enqueueId messageId, qid) = none := by
    rintro messageId qid m rfl
    by_contra hne
    rcases (hd.enqueues _).known hne with hen | hf
    · exact hok hen
    · exact hf
  have hcalled : ∀ t ∈ s'.threads, t.isEnqueue = false → .dequeueCalled t.key.1 t.key.2 ∈ h ++ ev := by
    intro t' ht' hte'
    rcases mem_threads_step hst ht' with ht' | ⟨t, ht, rfl, ht'⟩ | ⟨_, _, _, -, rfl⟩ | ⟨pid, qid, rfl, rfl⟩
    · exact List.mem_append_left _ (hd.dequeues t' ht' hte')
    · rw [key_of_mem_runThread ht']
      rw [EnqueueSide.isEnqueue_of_mem_runThread ht'] at hte'
      exact List.mem_append_left _ (hd.dequeues t ht hte')
    · cases hte'
    · obtain ⟨-, rfl⟩ := step_dequeue hst
      exact List.mem_append_right _ (List.mem_singleton.2 rfl)
  refine ⟨hd.enqueues.step hnew hst, hd.log.step hd.enqueues hnew hst, hcalled, fun k hk => ?_,
    hd.kept_step hok hnew hst⟩
  have hk' : cancelled k ∨ a = .advance (.dequeue .logEnqueueComplete k.1 k.2) := by
    unfold Action.cancel at hk
    split at hk
    · rcases hk with rfl | hk
      · exact Or.inr rfl
      · exact Or.inl hk
    · exact Or.inl hk
  rcases hk' with hk' | rfl
  · exact List.mem_append_left _ (hd.cancelled k hk')
  · exact List.mem_append_left _ (hd.dequeues _ (step_advance hst).1 rfl)

end Durable

/-- In every state of every run from an empty store in which no pair is enqueued twice, outside a pass of the
cleaner, a message whose `enqueue` has returned and whose `dequeue` has not been called is in its database, or the
replay of the enqueue log finds it pending with the bytes of `msgEncode`.  The database has these bytes too, as far as
the 32-bit size of a `Dbt` reaches. -/
theorem enqueued_durable {s₀ s : StoreProvider} {h : List Event} (hs₀ : s₀.Empty)
    (hrun : Run StoreProvider.step EnqueuedOnce s₀ h s) (hsleep : s.aologger.enqueueLog.cleaner = .sleeping)
    {newId : Bool} {pid qid : UInt64} {m : Message} (hcalled : .enqueueCalled newId pid qid m ∈ h)
    (hreturned : .enqueueReturned pid qid ∈ h) (hdequeue : .dequeueCalled pid qid ∉ h) :
    s.stored pid qid = some (dbtValue (msgEncode m)) ∨
      TwoLevel.find? s.aologger.recoverAsyncEnqueue.1 qid pid = some (m.pending pid qid) := by
  have hinv : ∃ φ cancelled, Durable h s φ cancelled := by
    refine hrun.invariant (I := fun h s => ∃ φ cancelled, Durable h s φ cancelled) ?_ ?_
    · exact ⟨_, _, Durable.of_empty hs₀⟩
    · rintro h s a s' ev ⟨φ, cancelled, hd⟩ hok hst
      exact ⟨_, _, hd.step hok hst⟩
  obtain ⟨φ, cancelled, hd⟩ := hinv
  have hx := hd.enqueues (pid, qid)
  obtain ⟨e, he, hpae⟩ := hx.called newId m hcalled
  obtain ⟨e', he', hret⟩ := hx.returned hreturned
  obtain rfl : e = e' := Option.some.inj (he.symm.trans he')
  cases hc : e.stage.completed with
  | true =>
    -- the completion is logged after the message is stored
    left
    have hst : e.stage.stored = true := by
      cases hstage : e.stage <;> rw [hstage] at hc <;> first | rfl | cases hc
    rw [(hd.kept (pid, qid)).stored hdequeue e he hst, hpae]
    rfl
  | false =>
    -- the start is logged before the call returns
    right
    have hlog : e.stage.logged = true := by
      cases hstage : e.stage <;> rw [hstage] at hret <;> first | rfl | cases hret
    rw [AsyncOperationLogger.recoverAsyncEnqueue_fst]
    refine (hd.log.records.recoverAsync_find? hsleep (pid, qid) _).2 ⟨?_, ?_⟩
    · unfold Entries.started
      rw [show φ (pid, qid) = some e from he, Option.bind_some, if_pos hlog, hpae]
    · rintro (hcan | ⟨e'', he'', hc'⟩)
      · exact hdequeue (hd.cancelled _ hcan)
      · obtain rfl : e = e'' := Option.some.inj (he.symm.trans he'')
        rw [hc] at hc'
        cases hc'

/-- The call has returned and the store task has not started: the message is in the log, through a pass of the
cleaner. -/
private def callReturned : List Action :=
  [.enqueue 0 1 smallMessage, .advance (.enqueue .logStart (smallMessage.pending 1 1)), .cleanEnqueueLog,
    .cleanEnqueueLog, .advance (.enqueue .willEnqueue (smallMessage.pending 1 1)), .cleanEnqueueLog,
    .advance (.enqueue .schedule (smallMessage.pending 1 1))]

theorem enqueued_durable_callReturned :
    let s := (Run.exec StoreProvider.step [] (singleQueue true) callReturned).2
    s.stored 1 1 = some (msgEncode smallMessage) ∨
      TwoLevel.find? s.aologger.recoverAsyncEnqueue.1 1 1 = some (smallMessage.pending 1 1) := by
  have hallowed : Run.Allowed StoreProvider.step EnqueuedOnce [] (singleQueue true) callReturned := by decide
  have hcalled : .enqueueCalled true 1 1 smallMessage ∈
      (Run.exec StoreProvider.step [] (singleQueue true) callReturned).1 := by decide
  exact enqueued_durable (empty_singleQueue true) (Run.exec_of_allowed Run.nil hallowed) (by decide) hcalled
    (by decide) (by decide)

end BdbMsgStore

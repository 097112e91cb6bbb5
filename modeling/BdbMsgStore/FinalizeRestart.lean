import BdbMsgStore.Finalize
import BdbMsgStore.NoResurrection

/-!
# The start after `finalizeMe`

A crash can hit a `store` task between its insertion and its completion record, and then a message may come back
that was dequeued.  `finalizeMe` waits for the running tasks, so it leaves only tasks that have not begun, and
dequeues that wait: the state it leaves is at rest.  Recovery from a state at rest hands over exactly the messages
that were enqueued and not dequeued (`LoggedInv.mem_queues_of_resting`), and so does the start after `finalizeMe`
(`restart_after_finalize_exact`), as long as the databases keep the messages whole and apart (`KeptWhole`).
-/

namespace BdbMsgStore

open StoreProvider

/-! ### States at rest -/

/-- Every thread in progress is a task that has not begun or that waits. -/
def StoreProvider.Resting (s : StoreProvider) : Prop := ∀ t ∈ s.threads, t.isFresh = true ∨ t.sleeps = true

/-- The databases keep the messages that were enqueued whole, and no two of one queue have congruent ids. -/
structure KeptWhole (h : List Event) : Prop where
  storable : ∀ {newId pid qid m}, .enqueueCalled newId pid qid m ∈ h → m.Storable
  apart : ∀ {pid pid' qid}, Enqueued h (pid, qid) → Enqueued h (pid', qid) → Congruent pid pid' → pid = pid'

/-- The message was enqueued on the queue and not dequeued, is persistent, and is taken by the broker. -/
def Outstanding (loadContent : UInt64 → Bytes → UInt64 → Bool) (h : List Event) (pid qid : UInt64) : Prop :=
  ∃ newId m, .enqueueCalled newId pid qid m ∈ h ∧ .dequeueCalled pid qid ∉ h ∧ Taken loadContent pid (msgEncode m)

namespace LoggedInv

variable {h : List Event} {s : StoreProvider} {φ : Entries} {ψ : Dequeues} {k : PendingOperationId}

/-- A store has not begun or is done. -/
theorem stage_of_resting (hi : LoggedInv h s φ ψ) (hrest : s.Resting) {e : Entry} (he : φ k = some e) :
    e.stage = .check ∨ e.stage = .put ∨ e.stage = .done := by
  cases ht : e.thread with
  | none => exact Or.inr (Or.inr (EnqueueSide.stage_of_thread ht))
  | some t =>
    have hmem := hrest t (hi.orderly.coherent.enqueues.mem_of_entry he ht)
    obtain ⟨pae, newId, stage⟩ := e
    cases stage with
    | check => exact Or.inl rfl
    | put => exact Or.inr (Or.inl rfl)
    | done => exact Or.inr (Or.inr rfl)
    | _ =>
      cases ht
      rcases hmem with h | h <;> cases h

/-- A dequeue waits or is over. -/
theorem dequeue_of_resting (hi : LoggedInv h s φ ψ) (hrest : s.Resting) {d : DeqStage} (hd : ψ k = some d) :
    (∃ pc, d = .wait pc) ∨ d = .done ∨ d = .cancelled := by
  cases ht : d.thread k with
  | none => cases d <;> simp [DeqStage.thread] at ht ⊢
  | some t =>
    have hmem := hrest t (hi.orderly.coherent.dequeues.mem_of_stage hd ht)
    cases d with
    | wait pc => exact Or.inl ⟨pc, rfl⟩
    | done => cases ht
    | cancelled => cases ht
    | _ =>
      cases ht
      rcases hmem with h | h <;> cases h

variable (hi : LoggedInv h s φ ψ) (hrest : s.Resting) (hsleepE : s.aologger.enqueueLog.cleaner = .sleeping)
  (hsleepD : s.aologger.dequeueLog.cleaner = .sleeping)

include hi hrest

include hsleepD in
/-- The dequeues that are pending in the log are those that wait. -/
theorem pendingDequeue_of_resting :
    TwoLevel.find? s.aologger.recoverAsyncDequeue.1 k.2 k.1 = none ↔ ∀ pc, ψ k ≠ some (.wait pc) := by
  have hfind := AsyncLog.Inv.recoverAsync_find? hi.dequeueLog hsleepD k ⟨⟨k.1, k.2⟩⟩
  constructor
  · intro hnone pc hd
    have hpending : TwoLevel.find? s.aologger.recoverAsyncDequeue.1 k.2 k.1 = some ⟨⟨k.1, k.2⟩⟩ := by
      refine hfind.2 ⟨?_, ?_⟩
      · simp [Dequeues.started, hd, DeqStage.logged]
      · simp [Dequeues.completed, hd]
    rw [hnone] at hpending
    cases hpending
  · intro hno
    by_contra hne
    obtain ⟨x, hx⟩ := Option.ne_none_iff_exists'.1 hne
    obtain ⟨hstarted, hcompleted⟩ := (AsyncLog.Inv.recoverAsync_find? hi.dequeueLog hsleepD k x).1 hx
    unfold Dequeues.started at hstarted
    obtain ⟨d, hd, hlog⟩ := Option.bind_eq_some_iff.1 hstarted
    rcases hi.dequeue_of_resting hrest hd with ⟨pc, rfl⟩ | rfl | rfl
    · exact hno pc hd
    · exact hcompleted hd
    · cases hlog

include hsleepE in
/-- The enqueues that are pending in the log are those whose store has not begun and that no dequeue has cancelled. -/
theorem pendingEnqueue_of_resting (pae : PendingAsyncEnqueue) :
    TwoLevel.find? s.aologger.recoverAsyncEnqueue.1 k.2 k.1 = some pae ↔
      ψ k ≠ some .cancelled ∧ ∃ e, φ k = some e ∧ e.stage ≠ .done ∧ e.pae = pae := by
  rw [AsyncOperationLogger.recoverAsyncEnqueue_fst, hi.enqueueLog.records.recoverAsync_find? hsleepE k pae]
  unfold Entries.started Entries.completed
  constructor
  · rintro ⟨hstarted, hcompleted⟩
    obtain ⟨e, he, hlog⟩ := Option.bind_eq_some_iff.1 hstarted
    refine ⟨fun hc => hcompleted (Or.inl hc), e, he, fun hdone => hcompleted (Or.inr ⟨e, he, by rw [hdone]; rfl⟩), ?_⟩
    split at hlog
    · exact Option.some.inj hlog
    · cases hlog
  · rintro ⟨hc, e, he, hdone, rfl⟩
    have hstage := (hi.stage_of_resting hrest he).imp_right (fun h => h.resolve_right hdone)
    constructor
    · rw [he, Option.bind_some, if_pos]
      rcases hstage with h | h <;> rw [h] <;> rfl
    · rintro (hcan | ⟨e', he', hcomp⟩)
      · exact hc hcan
      · cases Option.some.inj (he.symm.trans he')
        rcases hstage with h | h <;> rw [h] at hcomp <;> cases hcomp

/-- The database holds what is done and not removed. -/
theorem stored_of_resting (v : Bytes) :
    s.stored k.1 k.2 = some v ↔ (∃ e, φ k = some e ∧ e.stage = .done ∧ dbtValue e.pae.buff = v) ∧
      (ψ k = none ∨ ∃ pc, ψ k = some (.wait pc)) := by
  rw [(hi.orderly.coherent.pairs k).stored]
  unfold content
  cases hψ : ψ k with
  | none =>
    cases hφ : φ k with
    | none => simp
    | some e =>
      rcases hi.stage_of_resting hrest hφ with h | h | h <;> simp [h, EnqStage.stored]
  | some d =>
    rcases hi.dequeue_of_resting hrest hψ with ⟨pc, rfl⟩ | rfl | rfl
    · cases hφ : φ k with
      | none => simp [DeqStage.removed]
      | some e =>
        rcases hi.stage_of_resting hrest hφ with h | h | h <;>
          simp [h, EnqStage.stored, DeqStage.removed, DeqStage.cancels]
    · simp [DeqStage.removed]
    · cases hφ : φ k with
      | none => simp [DeqStage.removed]
      | some e => simp [DeqStage.removed, DeqStage.cancels]

/-- No message that was enqueued is taken for another one that is stored. -/
theorem done_of_isEnqueued (hkept : KeptWhole h) {pid qid : UInt64} {smart : Bool} {jc : JournalImpl}
    (hjc : (s.restart smart).journalList.find? qid = some jc) (hpid : Enqueued h (pid, qid))
    (henq : jc.isEnqueued pid = true) :
    ∃ e, φ (pid, qid) = some e ∧ e.stage = .done := by
  obtain ⟨p, hp, -, hcong⟩ := jc.isEnqueued_iff.1 henq
  obtain ⟨v, hv⟩ := Option.isSome_iff_exists.1 hp
  have hstored : s.stored p qid = some v := by
    rw [← stored_restart smart]
    unfold StoreProvider.stored
    rw [hjc, Option.bind_some, hv]
  obtain ⟨⟨e, he, hdone, -⟩, -⟩ := (hi.stored_of_resting hrest (k := (p, qid)) v).1 hstored
  have hen : Enqueued h (p, qid) := (hi.orderly.entry_iff (p, qid)).1 (by rw [he]; simp)
  rw [hkept.apart hpid hen hcong]
  exact ⟨e, he, hdone⟩

variable (hkept : KeptWhole h) {loadContent : UInt64 → Bytes → UInt64 → Bool} {pid qid : UInt64}

include hkept

omit hrest in
/-- An entry without a dequeue, which the broker takes as the database keeps it or as the log keeps it. -/
private theorem outstanding_of_entry {e : Entry} (he : φ (pid, qid) = some e) (hψ : ψ (pid, qid) = none) {v : Bytes}
    (hv : v = e.pae.buff ∨ v = dbtValue e.pae.buff) (htaken : Taken loadContent pid v) :
    Outstanding loadContent h pid qid := by
  obtain ⟨newId, m, hm⟩ := (hi.orderly.entry_iff (pid, qid)).1 (by rw [he]; simp)
  obtain ⟨e', he', hpae⟩ := (hi.orderly.coherent.enqueues (pid, qid)).called newId m hm
  cases Option.some.inj (he.symm.trans he')
  have hbuff : e.pae.buff = msgEncode m := by rw [hpae]; rfl
  refine ⟨newId, m, hm, fun hd => (hi.orderly.stage_iff (pid, qid)).2 hd hψ, ?_⟩
  rw [hbuff, dbtValue_msgEncode (hkept.storable hm), or_self] at hv
  exact hv ▸ htaken

include hsleepE hsleepD

/-- What recovery hands over was enqueued and not dequeued. -/
private theorem outstanding_of_delivered (smart : Bool) {v : Bytes}
    (hv : (pid, v) ∈ (readLogs (s.restart smart)).delivered loadContent qid) : Outstanding loadContent h pid qid := by
  obtain ⟨hadset, haeset⟩ := readLogs_restart smart s
  have hpendingD := hi.pendingDequeue_of_resting hrest hsleepD (k := (pid, qid))
  have hpendingE := hi.pendingEnqueue_of_resting hrest hsleepE (k := (pid, qid))
  obtain ⟨hrec, horph, htaken⟩ := RecoveryState.mem_delivered.1 hv
  rw [RecoveryState.orphaned, hadset, haeset] at horph
  rcases mem_recordsOf.1 hrec with hdb | ⟨-, pae, hpae, rfl, rfl⟩
  · -- a record of the database: its enqueue is completed, so a dequeue that waits would be an orphan
    rw [stored_restart] at hdb
    obtain ⟨⟨e, he, hdone, rfl⟩, hψ⟩ := (hi.stored_of_resting hrest (k := (pid, qid)) v).1 hdb
    have haenone : TwoLevel.find? s.aologger.recoverAsyncEnqueue.1 qid pid = none := by
      rw [Option.eq_none_iff_forall_ne_some]
      intro pae hpae
      obtain ⟨-, e', he', hne, -⟩ := (hpendingE pae).1 hpae
      cases Option.some.inj (he.symm.trans he')
      exact hne hdone
    rw [haenone, Option.isNone_none, Bool.and_true, Option.isSome_eq_false_iff, Option.isNone_iff_eq_none] at horph
    refine hi.outstanding_of_entry hkept he (hψ.resolve_right ?_) (Or.inr rfl) htaken
    rintro ⟨pc, hwait⟩
    exact hpendingD.1 horph pc hwait
  · -- a record of the log: no dequeue of it is pending, and one that is over would have completed the enqueue
    obtain ⟨hmem, rfl, hnd, -⟩ := RecoveryState.mem_live.1 (RecoveryState.mem_live_of_copies hpae)
    rw [hadset] at hnd
    have hf := (RecoveryState.find?_aeset (readLogs_keyed _)).2 ⟨hmem, rfl, rfl⟩
    rw [haeset] at hf
    obtain ⟨hcan, e, he, hne, rfl⟩ := (hpendingE pae).1 hf
    refine hi.outstanding_of_entry hkept he ?_ (Or.inl rfl) htaken
    by_contra hsome
    obtain ⟨d, hd⟩ := Option.ne_none_iff_exists'.1 hsome
    rcases hi.dequeue_of_resting hrest hd with ⟨pc, rfl⟩ | rfl | rfl
    · exact hpendingD.1 hnd pc hd
    · exact hne ((hi.orderly.coherent.pairs _).ready (by rw [hd]; rfl) e he)
    · exact hcan hd

/-- What was enqueued and not dequeued is handed over: from the database, or from the log if its store has not
begun. -/
private theorem delivered_of_outstanding (hjournals : ∀ k, Enqueued h k → s.journalList.contains k.2 = true)
    (smart : Bool) (hout : Outstanding loadContent h pid qid) :
    ∃ v, (pid, v) ∈ (readLogs (s.restart smart)).delivered loadContent qid := by
  obtain ⟨newId, m, hm, hd, htaken⟩ := hout
  obtain ⟨hadset, haeset⟩ := readLogs_restart smart s
  obtain ⟨e, he, hpae⟩ := (hi.orderly.coherent.enqueues (pid, qid)).called newId m hm
  have hψ : ψ (pid, qid) = none := by
    by_contra hne
    exact hd ((hi.orderly.stage_iff (pid, qid)).1 hne)
  have hjournal := hjournals (pid, qid) ⟨newId, m, hm⟩
  have hnd := (hi.pendingDequeue_of_resting hrest hsleepD (k := (pid, qid))).2 fun pc hpc => by
    rw [hψ] at hpc
    cases hpc
  refine ⟨msgEncode m, RecoveryState.mem_delivered.2 ⟨mem_recordsOf.2 ?_, ?_, htaken⟩⟩
  · by_cases hdone : e.stage = .done
    · left
      rw [stored_restart]
      refine (hi.stored_of_resting hrest (k := (pid, qid)) _).2 ⟨⟨e, he, hdone, ?_⟩, Or.inl hψ⟩
      rw [hpae]
      exact dbtValue_msgEncode (hkept.storable hm)
    · -- the store has not begun: the log has the message, and the database does not
      right
      have hf := (hi.pendingEnqueue_of_resting hrest hsleepE (k := (pid, qid)) (m.pending pid qid)).2
        ⟨by rw [hψ]; simp, e, he, hdone, hpae⟩
      rw [← haeset, RecoveryState.find?_aeset (readLogs_keyed _)] at hf
      have hlive : m.pending pid qid ∈ (readLogs (s.restart smart)).live qid := by
        refine RecoveryState.mem_live.2 ⟨hf.1, rfl, by rw [hadset]; exact hnd, ?_⟩
        have htr := htaken.1
        rw [transientFlag_msgEncode] at htr
        exact htr
      rw [contains_restart]
      refine ⟨hjournal, m.pending pid qid, ?_, rfl, rfl⟩
      obtain ⟨jc, hjc⟩ : ∃ jc, (s.restart smart).journalList.find? qid = some jc := by
        rw [← contains_restart smart] at hjournal
        exact Option.isSome_iff_exists.1 hjournal
      rw [RecoveryState.copies_eq hjc]
      refine ((mem_logCopies_or_overlap jc 10 _ _).1 hlive).resolve_right fun hover => ?_
      obtain ⟨e', he', hdone'⟩ := hi.done_of_isEnqueued hrest hkept hjc ⟨newId, m, hm⟩ (List.mem_filter.1 hover).2
      cases Option.some.inj (he.symm.trans he')
      exact hdone hdone'
  · unfold RecoveryState.orphaned
    rw [hadset, hnd]
    rfl

/-- Recovery from a state at rest hands over exactly the messages that were enqueued and not dequeued, as far as
they are persistent and the broker takes them. -/
theorem mem_queues_of_resting (hjournals : ∀ k, Enqueued h k → s.journalList.contains k.2 = true)
    {queues : List UInt64} (hq : Recoverable s queues) {smart : Bool} {malloc : List PendingOperationId → Bool}
    {R : Recovered} (hR : recoverMessages loadContent malloc queues (s.restart smart) = some R) :
    qid ∈ R.messageQueueMap.queues pid ↔ Outstanding loadContent h pid qid := by
  have hspec := recoverMessages_spec (hq.restart smart) hR
  rw [hspec.mem_queues pid qid]
  constructor
  · rintro ⟨-, v, hv⟩
    exact hi.outstanding_of_delivered hrest hsleepE hsleepD hkept smart hv
  · intro hout
    obtain ⟨newId, m, hm, -⟩ := id hout
    exact ⟨(hq.2 qid).2 (hjournals (pid, qid) ⟨newId, m, hm⟩),
      hi.delivered_of_outstanding hrest hsleepE hsleepD hkept hjournals smart hout⟩

end LoggedInv

/-! ### What `finalizeMe` leaves -/

/-- The tasks that are pending have not begun. -/
theorem PooledProvider.fresh_kept : PooledProvider.Kept fun _ p => ∀ t ∈ p.scheduler, t.isFresh = true := by
  intro name p a p' ev hp hok hfresh hst
  have hs := PoolStep.of_step hst
  cases hs with
  | schedule task =>
    intro t ht
    rcases List.mem_append.1 ht with ht | ht
    · exact hp t ht
    · rw [List.mem_singleton.1 ht]
      exact hfresh task rfl
  | clear => exact fun t ht => absurd ht List.not_mem_nil
  | resize n creatable => exact hok.elim
  | take creatable hw hfree htask => exact fun t ht => hp t (by rw [htask]; exact List.mem_cons_of_mem _ ht)
  | leave creatable hw =>
    rw [Pool.scheduler_workerDestructed]
    exact hp
  | die creatable hw =>
    unfold Pool.workerDiedUnexpectedly
    dsimp only
    split
    · exact hp
    · rw [Pool.Attentive.resize_scheduler]
      exact hp
  | _ => exact hp

/-- The journal of a queue with enqueues is there. -/
theorem contains_of_enqueued {ok : List Event → StoreProvider → Action → Prop} {s₀ s : StoreProvider} {h : List Event}
    (hrun : Run StoreProvider.step ok s₀ h s) : ∀ k, Enqueued h k → s.journalList.contains k.2 = true := by
  refine hrun.invariant (I := fun h s => ∀ k, Enqueued h k → s.journalList.contains k.2 = true) ?_ ?_
  · rintro k ⟨newId, m, hm⟩
    cases hm
  · rintro h s a s' ev ih - hst k ⟨newId, m, hm⟩
    rw [step_contains hst]
    rcases List.mem_append.1 hm with hm | hm
    · exact ih k ⟨newId, m, hm⟩
    · obtain ⟨messageId, rfl, -, -⟩ := enqueueCalled_of_step hst hm
      exact (step_enqueue hst).2.1

section

variable {s₀ : StoreProvider} {n m : UInt64} {creatable : Nat} {h : List Event} {s : Closing}

/-- The provider that was not finalized, beside one that is: what `finalizeMe` has given up has not begun, or
waits. -/
structure Closing.MirroredBy (s : Closing) (t : StoreProvider) : Prop where
  fresh : ∀ name, ∀ x ∈ (s.pooled.pool name).scheduler, x.isFresh = true
  mirrors : ∃ given, (∀ x ∈ given, x.isFresh = true ∨ x.sleeps = true) ∧ Mirrors given s.pooled t

theorem mirroredBy_create (hthreads : s₀.threads = []) (hstopped : s₀.tracker.stopped = false) :
    (Closing.create s₀ n m creatable).MirroredBy s₀ where
  fresh := by
    intro name x hx
    have hnil : ∀ k, (Pool.create k creatable : Pool Thread).scheduler = [] :=
      fun k => Pool.Attentive.resize_scheduler _ k creatable
    cases name with
    | enqueue => exact absurd hx (hnil n ▸ List.not_mem_nil)
    | dequeue => exact absurd hx (hnil m ▸ List.not_mem_nil)
  mirrors := ⟨[], fun x hx => absurd hx List.not_mem_nil, mirrors_create hthreads hstopped⟩

theorem mirroredBy_of_run (hthreads : s₀.threads = []) (hstopped : s₀.tracker.stopped = false)
    (hrun : Run Closing.step (fun h s a => s.Keeps Orderly h a) (Closing.create s₀ n m creatable) h s) :
    ∃ t, Run StoreProvider.step Orderly s₀ h t ∧ s.MirroredBy t := by
  refine hrun.simulates (mirroredBy_create hthreads hstopped) ?_
  rintro h s a s' ev t ⟨hfresh, given, hgiven, hm⟩ hok hst
  rcases (ClosingStep.of_step hst).pooled_step hok with ⟨heq, rfl⟩ | ⟨b, hb, hst'⟩
  · exact Or.inl ⟨rfl, heq ▸ hfresh, given, hgiven, heq ▸ hm⟩
  · have hfresh' := PooledProvider.pool_rule PooledProvider.fresh_kept hfresh hst'
    obtain ⟨given', -, hnew, hstep⟩ := hm.step discipline_orderly hb hst'
    have hgiven' : ∀ x ∈ given', x.isFresh = true ∨ x.sleeps = true := by
      intro x hx
      rcases hnew x hx with hx | hx | ⟨name, hx⟩
      · exact hgiven x hx
      · exact Or.inr hx
      · exact Or.inl (hfresh name x hx)
    rcases hstep with ⟨rfl, hm'⟩ | ⟨b', t', hb', hst'', hm'⟩
    · exact Or.inl ⟨rfl, hfresh', given', hgiven', hm'⟩
    · exact Or.inr ⟨b', t', hb', hst'', hfresh', given', hgiven', hm'⟩

/-- For every run from an empty store, with any interleaving and any numbers of threads, in which the broker
enqueues and dequeues each pair at most once, has no call in progress when `finalizeMe` is called and makes none
afterwards, and in which `finalizeMe` has returned, and for a recovery that follows and returns: a message is put
back on a queue exactly when it was enqueued there and not dequeued, is persistent and is taken by the broker.  The
tasks that `finalizeMe` has cleared are neither lost nor repeated. -/
theorem restart_after_finalize_exact (hs₀ : s₀.Empty)
    (hrun : Run Closing.step (fun h s a => s.Quiet a ∧ s.Keeps Orderly h a) (Closing.create s₀ n m creatable) h s)
    (hreturned : s.finalizeMe = some .returned) (hkept : KeptWhole h) {queues : List UInt64}
    (hq : Recoverable s.pooled.provider queues) (smart : Bool) (loadContent : UInt64 → Bytes → UInt64 → Bool)
    (malloc : List PendingOperationId → Bool) {R : Recovered}
    (hR : recoverMessages loadContent malloc queues (s.pooled.provider.restart smart) = some R) (pid qid : UInt64) :
    qid ∈ R.messageQueueMap.queues pid ↔ Outstanding loadContent h pid qid := by
  have hi := Closing.Inv.of_run (hrun.mono fun _ _ _ hok => hok.1)
  obtain ⟨t, hrun', -, given, hgiven, hm⟩ :=
    mirroredBy_of_run hs₀.threads (by rw [hs₀.tracker]) (hrun.mono fun _ _ _ hok => hok.2)
  obtain ⟨φ, ψ, hlogged⟩ := LoggedInv.of_run hs₀ hrun'
  have hrest : t.Resting := by
    intro x hx
    have hperm := hm.threads
    rw [hi.threads_eq_nil hreturned fun _ => rfl] at hperm
    exact hgiven x (hperm.mem_iff.1 hx)
  have hfiles : t.aologger = s.pooled.provider.aologger ∧ t.journalList = s.pooled.provider.journalList := by
    rw [hm.provider]
    exact ⟨rfl, rfl⟩
  have hrestart : t.restart smart = s.pooled.provider.restart smart := by
    unfold StoreProvider.restart
    rw [hfiles.1, hfiles.2]
  have henq := hi.enqThread
  have hdeq := hi.deqThread
  rw [hreturned] at henq hdeq
  have hsleepE := hi.enqSleeping henq
  have hsleepD := hi.deqSleeping hdeq
  rw [← hfiles.1] at hsleepE hsleepD
  have hqt : Recoverable t queues := by
    unfold Recoverable
    rw [hfiles.2]
    exact hq
  rw [← hrestart] at hR
  exact hlogged.mem_queues_of_resting hrest hsleepE hsleepD hkept (contains_of_enqueued hrun') hqt hR

end

instance Closing.decidableKeeps {ok : List Event → StoreProvider → Action → Prop} [∀ h s a, Decidable (ok h s a)]
    (h : List Event) (s : Closing) : ∀ a, Decidable (s.Keeps ok h a)
  | .system a => inferInstanceAs (Decidable (s.pooled.Keeps ok h a))
  | .finalizeMe => isTrue trivial

theorem restart_after_finalize_exact_clearedTasks :
    let s := (Run.exec Closing.step [] (Closing.create (singleQueue false) 1 1 2) clearedTasks).2.pooled.provider
    ∃ R, recoverMessages (fun _ _ _ => true) (fun _ => true) [1] (s.restart false) = some R ∧
      1 ∈ R.messageQueueMap.queues 2 ∧ 1 ∉ R.messageQueueMap.queues 1 := by
  intro s
  have hallowed : Run.Allowed Closing.step (fun h s a => s.Quiet a ∧ s.Keeps Orderly h a) []
      (Closing.create (singleQueue false) 1 1 2) clearedTasks := by decide +kernel
  have hreturned : (Run.exec Closing.step [] (Closing.create (singleQueue false) 1 1 2) clearedTasks).2.finalizeMe =
      some .returned := by decide +kernel
  have hq : Recoverable s [1] := recoverable_of_keys (by decide +kernel)
  have hh : (Run.exec Closing.step [] (Closing.create (singleQueue false) 1 1 2) clearedTasks).1 =
      [.enqueueCalled true 1 1 smallMessage, .enqueueReturned 1 1, .enqueueCalled true 2 1 smallMessage,
        .enqueueReturned 2 1, .dequeueCalled 1 1, .dequeueReturned 1 1] := by decide +kernel
  have hcalls : ∀ {newId pid qid m}, .enqueueCalled newId pid qid m ∈ [Event.enqueueCalled true 1 1 smallMessage,
      .enqueueReturned 1 1, .enqueueCalled true 2 1 smallMessage, .enqueueReturned 2 1, .dequeueCalled 1 1,
      .dequeueReturned 1 1] → (pid = 1 ∨ pid = 2) ∧ m = smallMessage := by
    intro newId pid qid m hm
    rcases (by simpa using hm : _ ∨ _) with ⟨-, rfl, -, rfl⟩ | ⟨-, rfl, -, rfl⟩ <;> simp
  have hkept : KeptWhole (Run.exec Closing.step [] (Closing.create (singleQueue false) 1 1 2) clearedTasks).1 := by
    rw [hh]
    exact ⟨fun hm => (hcalls hm).2 ▸ (by decide), fun ⟨_, _, hm⟩ ⟨_, _, hm'⟩ hcong => by
      rcases (hcalls hm).1 with rfl | rfl <;> rcases (hcalls hm').1 with rfl | rfl <;>
        first | rfl | exact absurd hcong (by decide)⟩
  obtain ⟨R, hR⟩ : ∃ R, recoverMessages (fun _ _ _ => true) (fun _ => true) [1] (s.restart false) = some R :=
    Option.isSome_iff_exists.1 (by decide +kernel)
  have hexact := restart_after_finalize_exact (empty_singleQueue false)
      (Run.exec_of_allowed Run.nil hallowed) hreturned hkept hq false _ _ hR
  rw [hh] at hexact
  refine ⟨R, hR, (hexact 2 1).2 ⟨true, smallMessage, by simp, by simp, by decide, rfl⟩, fun hmem => ?_⟩
  obtain ⟨-, -, -, hnot, -⟩ := (hexact 1 1).1 hmem
  exact hnot (by simp)

end BdbMsgStore

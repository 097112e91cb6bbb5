import BdbMsgStore.MonitoredPending

/-!
# What the statistics say about the store

When the broker enqueues and dequeues each pair once, every pair contributes to a counter a number that is given by
the stages of its enqueue and of its dequeue (`Counter.counts`), and a step of one of its threads changes this
number by what the thread then reports.  So the counters, together with the calls that are still due, are the sums
of these numbers over the pairs (`Monitored.Inv`).  When nothing is in progress they agree with the calls of the
broker and with the databases (`statistics_match_store`).
-/

namespace BdbMsgStore

open StoreProvider

/-! ### The contribution of one pair -/

/-- A pair counts, by the stages of its enqueue and its dequeue. -/
def Counter.counts (x : Option Entry) (y : Option DeqStage) : Counter → Bool
  | .pendingAsyncEnqueue => x.any fun e => e.stage.logged && e.stage != .done
  | .pendingAsyncDequeue => y.any fun d => d.logged && d != .done
  | .executedEnqueue => (x.any fun e => e.stage == .done) && !y.any DeqStage.cancels
  | .executedDequeue => y.any fun d => d == .done
  | .skippedEnqueue => (x.any fun e => e.stage == .done) && y.any DeqStage.cancels
  | .skippedDequeue => y.any fun d => d == .cancelled

section

variable {s : StoreProvider} {i : Counter} {e : Entry} {d : DeqStage} {x : Option Entry} {y : Option DeqStage}
  {t : Thread} {k : PendingOperationId} {toExec : Bool} {diff : Int}

private theorem counts_congr {e' : Entry} (hlogged : e'.stage.logged = e.stage.logged)
    (hdone : (e'.stage == .done) = (e.stage == .done)) : i.counts (some e') y = i.counts (some e) y := by
  have hne : (e'.stage != .done) = (e.stage != .done) := congrArg not hdone
  cases i <;> simp only [Counter.counts, Option.any_some, hlogged, hdone, hne]

/-- The last step of a `store` task. -/
private theorem counts_stored {e' : Entry} (hlogged : e.stage.logged = true) (hopen : (e.stage == .done) = false)
    (hdone : e'.stage = .done) (hexec : toExec = !y.any DeqStage.cancels) :
    bit (i.counts (some e') y) = bit (i.counts (some e) y) + addedTo i (storeCalls toExec diff) := by
  have hne : (e.stage != .done) = true := congrArg not hopen
  have hlast : (e'.stage == .done) = true := by rw [hdone]; rfl
  have hlast' : (e'.stage != .done) = false := congrArg not hlast
  rw [addedTo_storeCalls, hexec]
  cases i <;> simp only [Counter.counts, Option.any_some, hlogged, hopen, hne, hlast, hlast', Bool.true_and,
    Bool.false_and, Bool.and_false, Bool.and_true, Bool.not_not, UInt32.add_zero] <;>
      first | rfl | exact (UInt32.zero_add _).symm

/-- A step of the enqueue of a pair. -/
theorem counts_enqueue (ht : e.thread = some t)
    (hexec : e.stage = .addPidDup ∨ e.stage = .addPidMain → toExec = !y.any DeqStage.cancels) :
    bit (i.counts (some (e.next s)) y) =
      bit (i.counts (some e) y) + addedTo i (t.statCalls (s.runThread t).2.1 toExec diff) := by
  obtain ⟨pae, newId, stage⟩ := e
  -- between the start record and the last step nothing is reported
  have hmiddle : (Entry.nextStage s ⟨pae, newId, stage⟩).logged = stage.logged →
      (Entry.nextStage s ⟨pae, newId, stage⟩ == .done) = (stage == .done) →
      bit (i.counts (some (Entry.next s ⟨pae, newId, stage⟩)) y) =
        bit (i.counts (some ⟨pae, newId, stage⟩) y) + addedTo i [] := by
    intro hlogged hdone
    rw [counts_congr (e := ⟨pae, newId, stage⟩) hlogged hdone]
    exact (UInt32.add_zero _).symm
  cases stage with
  | logStart =>
    cases ht
    cases hs : s.enableSmartAsync <;> cases i <;> simp [Counter.counts, Entry.next, Entry.nextStage, hs] <;> rfl
  | willEnqueue =>
    cases ht
    exact hmiddle rfl rfl
  | schedule =>
    cases ht
    refine hmiddle ?_ ?_ <;> cases hs : s.enableSmartAsync <;> simp only [Entry.nextStage, hs] <;> rfl
  | check =>
    cases ht
    refine hmiddle ?_ ?_ <;> cases hs : s.tracker.isPending pae.msgId pae.queueId <;>
      simp only [Entry.nextStage, hs] <;> rfl
  | put =>
    cases ht
    exact hmiddle rfl rfl
  | logComplete =>
    cases ht
    exact hmiddle rfl rfl
  | addPidDup =>
    cases ht
    have hthreads : (s.runThread (.store .addPidDup pae)).2.1 =
        if s.tracker.isDuplicate pae.msgId pae.queueId then [] else [.store .addPidMain pae] := by
      rw [runThread, PidTracker.addPidDup_fst]
    rw [hthreads]
    cases hs : s.tracker.isDuplicate pae.msgId pae.queueId with
    | true => exact counts_stored rfl rfl (by simp [Entry.next, Entry.nextStage, hs]) (hexec (Or.inl rfl))
    | false => exact hmiddle (by simp only [Entry.nextStage, hs]; rfl) (by simp only [Entry.nextStage, hs]; rfl)
  | addPidMain =>
    cases ht
    exact counts_stored rfl rfl rfl (hexec (Or.inr rfl))
  | done => cases ht

/-- A step of the dequeue of a pair. -/
theorem counts_dequeue (ht : d.thread k = some t) (hrunning : d ≠ .wait (.returned (-2)))
    (hpending : s.tracker.isPending k.1 k.2 = true → (x.any fun e => e.stage == .done) = false) :
    bit (i.counts x (some (d.next s k))) =
      bit (i.counts x (some d)) + addedTo i (t.statCalls (s.runThread t).2.1 toExec diff) := by
  have hmiddle : ∀ d' : DeqStage, d'.logged = d.logged → (d' == .done) = (d == .done) → d'.cancels = d.cancels →
      (d' == .cancelled) = (d == .cancelled) →
      bit (i.counts x (some d')) = bit (i.counts x (some d)) + addedTo i [] := by
    intro d' hlogged hdone hcancels hcancelled
    have hne : (d' != .done) = (d != .done) := congrArg not hdone
    refine Eq.trans ?_ (UInt32.add_zero _).symm
    cases i <;> simp only [Counter.counts, Option.any_some, hlogged, hdone, hne, hcancels, hcancelled]
  cases d with
  | check =>
    cases ht
    cases hs : s.tracker.isPending k.1 k.2 with
    | false =>
      have hnext : DeqStage.check.next s k = .logStart := by simp [DeqStage.next, hs]
      rw [hnext]
      exact hmiddle _ rfl rfl rfl rfl
    | true =>
      have hx := hpending hs
      refine Eq.trans ?_ (UInt32.add_zero _).symm
      cases i <;> simp only [Counter.counts, DeqStage.next, hs, hx, Option.any_some, Bool.false_and] <;> rfl
  | logStart =>
    cases ht
    cases i <;> simp only [Counter.counts, DeqStage.next, Option.any_some] <;>
      first | rfl | exact (UInt32.add_zero _).symm
  | schedule =>
    cases ht
    exact hmiddle _ rfl rfl rfl rfl
  | wait pc =>
    cases ht
    cases pc with
    | returned r =>
      have hr : r ≠ -2 := fun hr => hrunning (by rw [hr])
      have hnext : (DeqStage.wait (.returned r)).next s k = .wait (.dupTest 0) ∨
          (DeqStage.wait (.returned r)).next s k = .remove := by
        simp only [DeqStage.next, if_neg hr]
        by_cases h1 : r = -1
        · exact Or.inl (if_pos h1)
        · exact Or.inr (if_neg h1)
      rcases hnext with hnext | hnext <;> rw [hnext] <;> exact hmiddle _ rfl rfl rfl rfl
    | _ => exact hmiddle _ rfl rfl rfl rfl
  | remove =>
    cases ht
    exact hmiddle _ rfl rfl rfl rfl
  | logComplete =>
    cases ht
    change _ = _ + addedTo i (asyncDequeueCalls diff)
    rw [addedTo_asyncDequeueCalls]
    cases i <;> simp only [Counter.counts, DeqStage.next, Option.any_some, UInt32.add_zero] <;> rfl
  | logEnqueueComplete =>
    cases ht
    cases i <;> simp only [Counter.counts, DeqStage.next, Option.any_some] <;>
      first | rfl | exact (UInt32.add_zero _).symm
  | done => cases ht
  | cancelled => cases ht

end

/-! ### The sums over the pairs -/

/-- The pairs that were enqueued, in the order of the calls. -/
def enqueuedKeys (h : List Event) : List PendingOperationId :=
  h.filterMap fun
    | .enqueueCalled _ pid qid _ => some (pid, qid)
    | _ => none

/-- The pairs that were dequeued, in the order of the calls. -/
def dequeuedKeys (h : List Event) : List PendingOperationId :=
  h.filterMap fun
    | .dequeueCalled pid qid => some (pid, qid)
    | _ => none

theorem mem_enqueuedKeys {h : List Event} {k : PendingOperationId} : k ∈ enqueuedKeys h ↔ Enqueued h k := by
  unfold enqueuedKeys
  rw [List.mem_filterMap]
  constructor
  · rintro ⟨e, he, hk⟩
    cases e <;> cases hk
    exact ⟨_, _, he⟩
  · rintro ⟨newId, m, hm⟩
    exact ⟨_, hm, rfl⟩

theorem mem_dequeuedKeys {h : List Event} {k : PendingOperationId} :
    k ∈ dequeuedKeys h ↔ .dequeueCalled k.1 k.2 ∈ h := by
  unfold dequeuedKeys
  rw [List.mem_filterMap]
  constructor
  · rintro ⟨e, he, hk⟩
    cases e <;> cases hk
    exact he
  · intro hm
    exact ⟨_, hm, rfl⟩

/-- A counter as the stages of the pairs give it. -/
def expected (i : Counter) (h : List Event) (φ : Entries) (ψ : Dequeues) : UInt32 :=
  ((enqueuedKeys h).map fun k => bit (i.counts (φ k) (ψ k))).sum

section

variable {h ev : List Event} {s s' : StoreProvider} {φ : Entries} {ψ : Dequeues} {a : Action} {t : Thread}
  {i : Counter}

theorem enqueuedKeys_append (h ev : List Event) : enqueuedKeys (h ++ ev) = enqueuedKeys h ++ enqueuedKeys ev :=
  List.filterMap_append

theorem dequeuedKeys_append (h ev : List Event) : dequeuedKeys (h ++ ev) = dequeuedKeys h ++ dequeuedKeys ev :=
  List.filterMap_append

/-- A thread makes no call. -/
theorem enqueuedKeys_runThread (s : StoreProvider) (t : Thread) : enqueuedKeys (s.runThread t).2.2 = [] := by
  refine List.eq_nil_iff_forall_not_mem.2 fun k hk => ?_
  obtain ⟨newId, m, hm⟩ := mem_enqueuedKeys.1 hk
  exact enqueueCalled_notMem_runThread t newId k.1 k.2 m hm

theorem dequeuedKeys_runThread (s : StoreProvider) (t : Thread) : dequeuedKeys (s.runThread t).2.2 = [] :=
  List.eq_nil_iff_forall_not_mem.2 fun k hk => dequeueCalled_notMem_runThread t k.1 k.2 (mem_dequeuedKeys.1 hk)

namespace OrderlyInv

/-- No pair is enqueued twice. -/
theorem enqueuedKeys_nodup (hok : Orderly h s a) (hst : s.step a = some (s', ev)) (hnodup : (enqueuedKeys h).Nodup) :
    (enqueuedKeys (h ++ ev)).Nodup := by
  rw [enqueuedKeys_append]
  cases a with
  | enqueue messageId qid m =>
    obtain ⟨-, -, -, rfl⟩ := step_enqueue hst
    refine hnodup.append (List.nodup_singleton _) ?_
    intro k hk hk'
    rw [List.mem_singleton.1 hk'] at hk
    exact hok.1 (mem_enqueuedKeys.1 hk)
  | dequeue pid qid =>
    obtain ⟨-, rfl⟩ := step_dequeue hst
    rwa [show enqueuedKeys [.dequeueCalled pid qid] = [] from rfl, List.append_nil]
  | advance t =>
    obtain ⟨-, -, rfl⟩ := step_advance hst
    rwa [enqueuedKeys_runThread, List.append_nil]
  | cleanEnqueueLog =>
    cases hst
    rwa [show enqueuedKeys [] = [] from rfl, List.append_nil]
  | cleanDequeueLog =>
    cases hst
    rwa [show enqueuedKeys [] = [] from rfl, List.append_nil]

/-- No pair is dequeued twice. -/
theorem dequeuedKeys_nodup (hok : Orderly h s a) (hst : s.step a = some (s', ev)) (hnodup : (dequeuedKeys h).Nodup) :
    (dequeuedKeys (h ++ ev)).Nodup := by
  rw [dequeuedKeys_append]
  cases a with
  | enqueue messageId qid m =>
    obtain ⟨-, -, -, rfl⟩ := step_enqueue hst
    rwa [show dequeuedKeys [.enqueueCalled (messageId = 0) (s.enqueueId messageId) qid m] = [] from rfl,
      List.append_nil]
  | dequeue pid qid =>
    obtain ⟨-, rfl⟩ := step_dequeue hst
    refine hnodup.append (List.nodup_singleton _) ?_
    intro k hk hk'
    rw [List.mem_singleton.1 hk'] at hk
    exact hok.2 (mem_dequeuedKeys.1 hk)
  | advance t =>
    obtain ⟨-, -, rfl⟩ := step_advance hst
    rwa [dequeuedKeys_runThread, List.append_nil]
  | cleanEnqueueLog =>
    cases hst
    rwa [show dequeuedKeys [] = [] from rfl, List.append_nil]
  | cleanDequeueLog =>
    cases hst
    rwa [show dequeuedKeys [] = [] from rfl, List.append_nil]

/-- A call of the broker or a step of a cleaner reports nothing. -/
theorem expected_call (hi : OrderlyInv h s φ ψ) (hok : Orderly h s a) (hst : s.step a = some (s', ev))
    (ha : ∀ t, a ≠ .advance t) : expected i (h ++ ev) (φ.next s a) (ψ.next s a) = expected i h φ ψ := by
  have hpairs : ∀ k ∈ enqueuedKeys h, i.counts (φ.next s a k) (ψ.next s a k) = i.counts (φ k) (ψ k) := by
    intro k hk
    cases a with
    | enqueue messageId qid m =>
      have hne : (Action.enqueue messageId qid m).key s ≠ some k := by
        rintro heq
        obtain rfl := Option.some.inj heq
        exact hok.1 (mem_enqueuedKeys.1 hk)
      rw [Entries.next_of_ne hne, Dequeues.next_of_ne hne]
    | dequeue pid qid =>
      change i.counts (φ k) (Function.update ψ (pid, qid) _ k) = _
      by_cases hkey : k = (pid, qid)
      · subst hkey
        have hnone : ψ (pid, qid) = none := by
          by_contra hne
          exact hok.2 ((hi.stage_iff _).1 hne)
        rw [Function.update_self, hnone]
        cases s.enableSmartAsync <;> cases i <;> rfl
      · rw [Function.update_of_ne hkey]
    | advance t => exact absurd rfl (ha t)
    | cleanEnqueueLog => rfl
    | cleanDequeueLog => rfl
  have hold : ((enqueuedKeys h).map fun k => bit (i.counts (φ.next s a k) (ψ.next s a k))).sum =
      expected i h φ ψ := by
    unfold expected
    exact congrArg List.sum (List.map_congr_left fun k hk => congrArg bit (hpairs k hk))
  unfold expected
  rw [enqueuedKeys_append, List.map_append, List.sum_append, hold]
  cases a with
  | enqueue messageId qid m =>
    obtain ⟨-, -, -, rfl⟩ := step_enqueue hst
    -- the new pair has only been called
    have hnone : ψ (s.enqueueId messageId, qid) = none := by
      by_contra hne
      exact hok.1 (hi.after _ ((hi.stage_iff _).1 hne))
    have hzero : bit (i.counts (φ.next s (.enqueue messageId qid m) (s.enqueueId messageId, qid))
        (ψ.next s (.enqueue messageId qid m) (s.enqueueId messageId, qid))) = 0 := by
      rw [Entries.next_enqueue, Function.update_self, show ψ.next s (.enqueue messageId qid m) = ψ from rfl, hnone]
      cases i <;> rfl
    exact Eq.trans (congrArg (expected i h φ ψ + ·) ((UInt32.add_zero _).trans hzero)) (UInt32.add_zero _)
  | dequeue pid qid =>
    obtain ⟨-, rfl⟩ := step_dequeue hst
    exact UInt32.add_zero _
  | advance t => exact absurd rfl (ha t)
  | cleanEnqueueLog =>
    cases hst
    exact UInt32.add_zero _
  | cleanDequeueLog =>
    cases hst
    exact UInt32.add_zero _

/-- The pair of a thread was enqueued. -/
theorem enqueued_of_mem (hi : OrderlyInv h s φ ψ) (ht : t ∈ s.threads) : Enqueued h t.key := by
  cases hte : t.isEnqueue with
  | true =>
    obtain ⟨e, he, -⟩ := hi.coherent.enqueues.entry_of_mem ht hte
    refine (hi.entry_iff _).1 ?_
    rw [he]
    simp
  | false =>
    obtain ⟨d, hd, -⟩ := hi.coherent.dequeues.stage_of_mem ht hte
    refine hi.after _ ((hi.stage_iff _).1 ?_)
    rw [hd]
    simp

/-- A step of a thread changes what is expected by what the thread then reports. -/
theorem expected_advance (hi : OrderlyInv h s φ ψ) (hnodup : (enqueuedKeys h).Nodup) (ht : t ∈ s.threads)
    {toExec : Bool}
    (hexec : ∀ pc pae, t = .store pc pae → pc ≠ .check → toExec = !(ψ pae.opId).any DeqStage.cancels) (diff : Int) :
    expected i (h ++ (s.runThread t).2.2) (φ.next s (.advance t)) (ψ.next s (.advance t)) =
      expected i h φ ψ + addedTo i (t.statCalls (s.runThread t).2.1 toExec diff) := by
  unfold expected
  rw [enqueuedKeys_append, enqueuedKeys_runThread, List.append_nil]
  refine List.sum_map_of_add hnodup (mem_enqueuedKeys.2 (hi.enqueued_of_mem ht)) ?_ ?_
  · cases hte : t.isEnqueue with
    | true =>
      obtain ⟨e, he, hthread⟩ := hi.coherent.enqueues.entry_of_mem ht hte
      rw [Entries.next_advance hte he, Dequeues.next_advance_enqueue hte, Function.update_self, he]
      refine counts_enqueue hthread fun hstage => ?_
      have hkey := (hi.coherent.enqueues t.key).key e he
      rcases hstage with hstage | hstage
      · unfold Entry.thread at hthread
        rw [hstage] at hthread
        rw [← hkey]
        exact hexec _ _ (Option.some.inj hthread).symm (by decide)
      · unfold Entry.thread at hthread
        rw [hstage] at hthread
        rw [← hkey]
        exact hexec _ _ (Option.some.inj hthread).symm (by decide)
    | false =>
      obtain ⟨d, hd, hthread⟩ := hi.coherent.dequeues.stage_of_mem ht hte
      rw [Entries.next_advance_dequeue hte, Dequeues.next_advance hte hd, Function.update_self, hd]
      refine counts_dequeue hthread (fun hstop => ?_) fun hpend => ?_
      · refine (hi.coherent.pairs t.key).running ?_
        rw [hd, hstop]
      · obtain ⟨-, e, he, hstage⟩ := (hi.coherent.enqueues t.key).pending hpend
        rw [Option.mem_def.1 he, Option.any_some]
        cases hdone : e.stage with
        | done => rw [hdone] at hstage; cases hstage
        | _ => rfl
  · intro k hk
    have hne : (Action.advance t).key s ≠ some k := fun heq => hk (Option.some.inj heq).symm
    rw [Entries.next_of_ne hne, Dequeues.next_of_ne hne]

/-- A call takes no message from its store task. -/
theorem cancels_call (hi : OrderlyInv h s φ ψ) (hok : Orderly h s a) (ha : ∀ t, a ≠ .advance t)
    (k : PendingOperationId) : (ψ.next s a k).any DeqStage.cancels = (ψ k).any DeqStage.cancels := by
  cases a with
  | dequeue pid qid =>
    change (Function.update ψ (pid, qid) _ k).any DeqStage.cancels = _
    by_cases hkey : k = (pid, qid)
    · subst hkey
      have hnone : ψ (pid, qid) = none := by
        by_contra hne
        exact hok.2 ((hi.stage_iff _).1 hne)
      rw [Function.update_self, hnone]
      cases s.enableSmartAsync <;> rfl
    · rw [Function.update_of_ne hkey]
  | advance t => exact absurd rfl (ha t)
  | _ => rfl

/-- Nor does a thread, once the store task has asked. -/
theorem cancels_advance (hi : OrderlyInv h s φ ψ) (ht : t ∈ s.threads) {k : PendingOperationId} {e : Entry}
    (he : φ k = some e) (hstage : e.stage.pending = false) :
    (ψ.next s (.advance t) k).any DeqStage.cancels = (ψ k).any DeqStage.cancels := by
  cases hte : t.isEnqueue with
  | true => rw [Dequeues.next_advance_enqueue hte]
  | false =>
    obtain ⟨d, hd, -⟩ := hi.coherent.dequeues.stage_of_mem ht hte
    rw [Dequeues.next_advance hte hd]
    by_cases hkey : k = t.key
    · subst hkey
      rw [Function.update_self, hd, Option.any_some, Option.any_some]
      cases d with
      | check =>
        have hpend : s.tracker.isPending t.key.1 t.key.2 = false := by
          by_contra hpend
          obtain ⟨-, e', he', hstage'⟩ := (hi.coherent.enqueues t.key).pending (Bool.not_eq_false _ ▸ hpend)
          rw [he] at he'
          cases he'
          rw [hstage] at hstage'
          cases hstage'
        simp only [DeqStage.next, hpend]
        rfl
      | wait pc =>
        cases pc with
        | returned r =>
          simp only [DeqStage.next]
          split
          · rfl
          · split <;> rfl
        | _ => rfl
      | _ => rfl
    · rw [Function.update_of_ne hkey]

/-- What `enqueueCheck` tells a store task. -/
theorem isPending_of_check (hi : OrderlyInv h s φ ψ) {pae : PendingAsyncEnqueue}
    (ht : .store .check pae ∈ s.threads) :
    s.tracker.isPending pae.msgId pae.queueId = !(ψ pae.opId).any DeqStage.cancels := by
  obtain ⟨e, he, hthread⟩ := hi.coherent.enqueues.entry_of_mem ht rfl
  have hstage : e.stage = .check := by
    unfold Entry.thread at hthread
    split at hthread <;> cases hthread
    assumption
  have hpair := hi.coherent.pairs pae.opId
  change φ pae.opId = some e at he
  cases hcancels : (ψ pae.opId).any DeqStage.cancels with
  | true => exact (hpair.taken hcancels).2.1
  | false =>
    have hsmart := (hi.coherent.enqueues pae.opId).smart e he (Or.inr hstage)
    exact hpair.waiting hsmart hcancels e he (by rw [hstage]; rfl)

/-- The variable `toExec` of a `store` task that has asked. -/
theorem toExec_runThread (hi : OrderlyInv h s φ ψ) (ht : t ∈ s.threads) {toExec : Bool}
    (hexec : ∀ pc pae, t = .store pc pae → pc ≠ .check → toExec = !(ψ pae.opId).any DeqStage.cancels) {pc : StorePc}
    {pae : PendingAsyncEnqueue} (hnext : .store pc pae ∈ (s.runThread t).2.1) (hpc : pc ≠ .check) :
    (if t.schedules then true else s.toExec toExec t) = !(ψ pae.opId).any DeqStage.cancels := by
  cases t with
  | enqueue epc pae' =>
    cases epc with
    | schedule =>
      -- without the smart mode no dequeue takes a message
      obtain ⟨hpc', rfl⟩ := Thread.store.inj (List.mem_singleton.1 hnext)
      cases hsmart : s.enableSmartAsync with
      | true =>
        rw [hsmart] at hpc'
        exact absurd hpc' hpc
      | false =>
        cases hcancels : (ψ pae.opId).any DeqStage.cancels with
        | false => rfl
        | true =>
          have htaken := ((hi.coherent.pairs pae.opId).taken hcancels).1
          rw [hsmart] at htaken
          cases htaken
    | _ => cases List.mem_singleton.1 hnext
  | store spc pae' =>
    cases spc with
    | check =>
      obtain ⟨-, rfl⟩ := Thread.store.inj (List.mem_singleton.1 hnext)
      exact (PidTracker.enqueueCheck_fst ..).trans (hi.isPending_of_check ht)
    | put =>
      obtain ⟨-, rfl⟩ := Thread.store.inj (List.mem_singleton.1 hnext)
      exact hexec _ _ rfl (by decide)
    | logComplete =>
      obtain ⟨-, rfl⟩ := Thread.store.inj (List.mem_singleton.1 hnext)
      exact hexec _ _ rfl (by decide)
    | addPidDup =>
      rw [runThread] at hnext
      dsimp only at hnext
      split at hnext
      · cases hnext
      · obtain ⟨-, rfl⟩ := Thread.store.inj (List.mem_singleton.1 hnext)
        exact hexec _ _ rfl (by decide)
    | addPidMain => cases hnext
  | dequeue dpc pid qid =>
    cases dpc with
    | logEnqueueComplete => cases hnext
    | _ => cases List.mem_singleton.1 hnext
  | asyncDequeue apc pid qid =>
    cases apc with
    | wait w =>
      cases w with
      | returned r =>
        rw [runThread] at hnext
        dsimp only at hnext
        split at hnext
        · cases List.mem_singleton.1 hnext
        · split at hnext
          · cases hnext
          · cases List.mem_singleton.1 hnext
      | _ => cases List.mem_singleton.1 hnext
    | remove => cases List.mem_singleton.1 hnext
    | logComplete => cases hnext

end OrderlyInv

end

/-! ### Every reachable state -/

/-- What holds in every state of an orderly run: the counters and the calls that are due are what the stages of the
pairs give, and a `store` task executes exactly when no dequeue has taken its message. -/
structure Monitored.Inv {τ : Type} {maxThreads : Nat} (getThreadIndex : τ → Fin maxThreads) (h : List Event)
    (m : Monitored τ maxThreads) (s : StoreProvider) (φ : Entries) (ψ : Dequeues) : Prop where
  consistent : m.Consistent getThreadIndex
  shows : m.Shows s
  orderly : OrderlyInv h s φ ψ
  enqueued : (enqueuedKeys h).Nodup
  dequeued : (dequeuedKeys h).Nodup
  toExec : ∀ t ∈ m.threads, ∀ pc pae, t.next = some (.store pc pae) → pc ≠ .check →
    t.toExec = !(ψ pae.opId).any DeqStage.cancels
  counts : ∀ o ∈ m.mgmtObject, ∀ i, m.counted o i = expected i h φ ψ

namespace Monitored.Inv

variable {τ : Type} {maxThreads : Nat} {getThreadIndex : τ → Fin maxThreads} {h ev : List Event}
  {m m' : Monitored τ maxThreads} {s : StoreProvider} {φ : Entries} {ψ : Dequeues} {a : MonitoredAction τ}

theorem create {s₀ : StoreProvider} (hs₀ : s₀.Empty) :
    Inv getThreadIndex [] (Monitored.create s₀) s₀ (fun _ => none) (fun _ => none) where
  consistent := ⟨fun _ _ t ht => absurd ht List.not_mem_nil, List.Pairwise.nil⟩
  shows := ⟨rfl, by rw [hs₀.threads]; exact List.Perm.refl _, hs₀.threads⟩
  orderly := OrderlyInv.of_empty hs₀
  enqueued := List.nodup_nil
  dequeued := List.nodup_nil
  toExec := fun t ht => absurd ht List.not_mem_nil
  counts := by
    rintro o ho i
    cases ho
    exact (counted_of_due fun t ht => absurd ht List.not_mem_nil).trans (ManagementObject.get_new i)

theorem orderly_shows {b : Action} (hm : m.Shows s) (hok : BdbMsgStore.Orderly h m.provider b) :
    BdbMsgStore.Orderly h s b := by
  rw [hm.provider]
  cases b <;> exact hok

private theorem toExec_following {p : StoreProvider} {t t' : MonitoredThread τ} {now next : Thread} {thread : τ}
    {diff : Int} (ht' : t' ∈ following p t now thread diff) (hnext : t'.next = some next) :
    next ∈ (p.runThread now).2.1 ∧ t'.toExec = if now.schedules then true else p.toExec t.toExec now := by
  unfold following at ht'
  split at ht'
  · rename_i hschedules
    obtain ⟨task, htask, rfl⟩ := List.mem_map.1 ht'
    cases hnext
    rw [if_pos hschedules]
    exact ⟨htask, rfl⟩
  · rename_i hschedules
    rw [if_neg hschedules]
    dsimp only at ht'
    split at ht'
    · rename_i heq
      rw [List.mem_singleton.1 ht'] at hnext ⊢
      cases hnext
      rw [heq]
      exact ⟨List.mem_cons_self, rfl⟩
    · split at ht'
      · cases ht'
      · rw [List.mem_singleton.1 ht'] at hnext
        cases hnext

variable [DecidableEq τ] (hindex : Function.Injective getThreadIndex)

include hindex

private theorem call {thread : τ} {b : Action} {p : StoreProvider} (hi : Inv getThreadIndex h m s φ ψ)
    (hok : BdbMsgStore.Orderly h m.provider b) (hst : m.provider.step b = some (p, ev)) :
    ∃ s' φ' ψ', Inv getThreadIndex (h ++ ev) { m with
      provider := { p with threads := [] }
      threads := m.threads ++ p.threads.map fun t => { thread, next := some t } } s' φ' ψ' := by
  obtain ⟨s', hst', hshows⟩ := hi.shows.call hst thread
  have hok' := orderly_shows hi.shows hok
  have hb : ∀ t, b ≠ .advance t := by
    rintro t rfl
    obtain ⟨ht, -⟩ := step_advance hst
    rw [hi.shows.none] at ht
    cases ht
  refine ⟨s', _, _, hi.consistent.step hindex (.call hst), hshows, hi.orderly.step hok' hst',
    OrderlyInv.enqueuedKeys_nodup hok' hst' hi.enqueued,
    OrderlyInv.dequeuedKeys_nodup hok' hst' hi.dequeued, fun t ht pc pae hnext hpc => ?_, fun o ho i => ?_⟩
  · rw [hi.orderly.cancels_call hok' hb]
    rcases List.mem_append.1 ht with ht | ht
    · exact hi.toExec t ht pc pae hnext hpc
    · -- a call of the broker is no task
      obtain ⟨t', ht', rfl⟩ := List.mem_map.1 ht
      rcases mem_threads_step hst ht' with ht' | ⟨_, _, hadv, _⟩ | ⟨_, _, _, _, rfl⟩ | ⟨_, _, _, rfl⟩
      · rw [hi.shows.none] at ht'
        cases ht'
      · exact absurd hadv (hb _)
      · cases hnext
      · cases hnext
  · rw [hi.orderly.expected_call hok' hst' hb, ← hi.counts o ho i, counted_call]

private theorem advance {t : MonitoredThread τ} {thread : τ} {diff : Int} {now : Thread}
    (hi : Inv getThreadIndex h m s φ ψ) (ht : t ∈ m.threads) (hdue : t.due = []) (hnext : t.next = some now) :
    ∃ s' φ' ψ', Inv getThreadIndex (h ++ (m.provider.runThread now).2.2) { m with
      provider := (m.provider.runThread now).1
      threads := m.threads.erase t ++ following m.provider t now thread diff } s' φ' ψ' := by
  obtain ⟨hnow, hrun, hshows⟩ := hi.shows.advance ht hnext thread diff
  have hst : s.step (.advance now) = some ({ (s.runThread now).1 with
      threads := s.threads.erase now ++ (s.runThread now).2.1 }, (s.runThread now).2.2) := by
    simp only [StoreProvider.step, if_pos hnow]
  have hexec : ∀ pc pae, now = .store pc pae → pc ≠ .check → t.toExec = !(ψ pae.opId).any DeqStage.cancels := by
    rintro pc pae rfl hpc
    exact hi.toExec t ht pc pae hnext hpc
  have hok : BdbMsgStore.Orderly h s (.advance now) := trivial
  rw [← hrun]
  refine ⟨_, _, _, hi.consistent.step hindex (.advance ht hdue hnext), hshows, hi.orderly.step hok hst,
    OrderlyInv.enqueuedKeys_nodup hok hst hi.enqueued,
    OrderlyInv.dequeuedKeys_nodup hok hst hi.dequeued, fun t' ht' pc pae hnext' hpc => ?_, fun o ho i => ?_⟩
  · have hstored : ∀ {e : Entry}, e.thread = some (.store pc pae) → e.stage.pending = false := by
      intro e hthread
      unfold Entry.thread at hthread
      split at hthread <;> cases hthread
      all_goals rename_i hstage
      · exact absurd rfl hpc
      all_goals rw [hstage]; rfl
    rcases List.mem_of_mem_erase_append ht' with ht' | ht'
    · -- a task that was there before
      have hmem : .store pc pae ∈ s.threads := hi.shows.threads.mem_iff.2 (List.mem_filterMap.2 ⟨t', ht', hnext'⟩)
      obtain ⟨e, he, hthread⟩ := hi.orderly.coherent.enqueues.entry_of_mem hmem rfl
      rw [hi.orderly.cancels_advance hnow (k := pae.opId) he (hstored hthread)]
      exact hi.toExec t' ht' pc pae hnext' hpc
    · -- the task that made the step, or the one it scheduled
      obtain ⟨hmem, hto⟩ := toExec_following ht' hnext'
      rw [← hrun] at hmem
      have hte : now.isEnqueue = true := (EnqueueSide.isEnqueue_of_mem_runThread hmem).symm
      have htracker : s.toExec t.toExec now = m.provider.toExec t.toExec now := by
        conv_lhs => rw [hi.shows.provider]
        rfl
      rw [Dequeues.next_advance_enqueue hte, hto, ← htracker]
      exact hi.orderly.toExec_runThread hnow hexec hmem hpc
  · rw [hi.orderly.expected_advance hi.enqueued hnow hexec diff, ← hi.counts o ho i, hrun, counted_advance ht hdue]

omit hindex in
/-- A call on the management object. -/
private theorem report {t : MonitoredThread τ} {ts : List (MonitoredThread τ)}
    {x : Option (ManagementObject maxThreads)} (hi : Inv getThreadIndex h m s φ ψ) (ht : t ∈ m.threads)
    (hconsistent : Consistent getThreadIndex ⟨m.provider, x, m.threads.erase t ++ ts⟩)
    (hts : ∀ t' ∈ ts, t'.next = t.next ∧ t'.toExec = t.toExec)
    (hnext : ts.filterMap MonitoredThread.next = [t].filterMap MonitoredThread.next)
    (hobject : ∀ o' ∈ x, ∃ o ∈ m.mgmtObject, ∀ i,
      counted ⟨m.provider, x, m.threads.erase t ++ ts⟩ o' i = m.counted o i) :
    Inv getThreadIndex h ⟨m.provider, x, m.threads.erase t ++ ts⟩ s φ ψ := by
  refine ⟨hconsistent, hi.shows.report ht hnext, hi.orderly, hi.enqueued, hi.dequeued,
    fun t' ht' pc pae hstore hpc => ?_, fun o' ho' i => ?_⟩
  · rcases List.mem_of_mem_erase_append ht' with ht' | ht'
    · exact hi.toExec t' ht' pc pae hstore hpc
    · rw [(hts t' ht').2]
      exact hi.toExec t ht pc pae ((hts t' ht').1 ▸ hstore) hpc
  · obtain ⟨o, ho, hcounted⟩ := hobject o' ho'
    exact (hcounted i).trans (hi.counts o ho i)

theorem step (hi : Inv getThreadIndex h m s φ ψ) (hok : m.Orderly h a)
    (hst : MonitoredStep getThreadIndex m a m' ev) : ∃ s' φ' ψ', Inv getThreadIndex (h ++ ev) m' s' φ' ψ' := by
  have hconsistent := hi.consistent.step hindex hst
  cases hst with
  | call hst => exact hi.call hindex hok hst
  | advance ht hdue hnext => exact hi.advance hindex ht hdue hnext
  | read ht hfree hstats =>
    rw [List.append_nil]
    refine ⟨s, φ, ψ, hi.report ht hconsistent (fun t' ht' => ?_) ?_ fun o' ho' => ?_⟩
    · rw [List.mem_singleton.1 ht']
      exact ⟨rfl, rfl⟩
    · rfl
    · obtain ⟨o, ho, rfl⟩ := Option.map_eq_some_iff.1 ho'
      exact ⟨o, ho, fun i => counted_read ht⟩
  | @write t c due stats ht hdue hread =>
    rw [List.append_nil]
    refine ⟨s, φ, ψ, hi.report ht hconsistent (fun t' ht' => ?_) (Shows.filterMap_remaining ..) fun o' ho' => ?_⟩
    · unfold remaining at ht'
      split at ht'
      · cases ht'
      · rw [List.mem_singleton.1 ht']
        exact ⟨rfl, rfl⟩
    · obtain ⟨o, ho, rfl⟩ := Option.map_eq_some_iff.1 ho'
      exact ⟨o, ho, fun i => counted_write ht hdue (hi.consistent.current o ho t ht stats hread)⟩
  | report =>
    rw [List.append_nil]
    refine ⟨s, φ, ψ, hconsistent, ⟨hi.shows.provider, hi.shows.threads, hi.shows.none⟩, hi.orderly, hi.enqueued,
      hi.dequeued, hi.toExec, fun o' ho' i => ?_⟩
    obtain ⟨o, ho, rfl⟩ := Option.map_eq_some_iff.1 ho'
    rw [← hi.counts o ho i, counted, counted,
      ManagementObject.get_congr fun idx => o.get_getThreadStats_reportStep idx i]

theorem of_run {s₀ : StoreProvider} (hs₀ : s₀.Empty)
    (hrun : Run (Monitored.step getThreadIndex) Monitored.Orderly (Monitored.create s₀) h m) :
    ∃ s φ ψ, Inv getThreadIndex h m s φ ψ := by
  refine hrun.invariant (I := fun h m => ∃ s φ ψ, Inv getThreadIndex h m s φ ψ) ⟨_, _, _, create hs₀⟩ ?_
  rintro h m a m' ev ⟨s, φ, ψ, hi⟩ hok hst
  exact hi.step hindex hok (MonitoredStep.of_step hst)

end Monitored.Inv

/-- The counters, when no call on the management object is due. -/
theorem Monitored.Inv.get_eq_countP {τ : Type} {maxThreads : Nat} {getThreadIndex : τ → Fin maxThreads}
    {h : List Event} {m : Monitored τ maxThreads} {s : StoreProvider} {φ : Entries} {ψ : Dequeues}
    {o : ManagementObject maxThreads} (hi : Inv getThreadIndex h m s φ ψ) (ho : m.mgmtObject = some o)
    (hdue : ∀ t ∈ m.threads, t.due = []) (i : Counter) :
    o.get i = UInt32.ofNat ((enqueuedKeys h).countP fun k => i.counts (φ k) (ψ k)) := by
  rw [← sum_bit, ← counted_of_due hdue]
  exact hi.counts o ho i

/-! ### The databases -/

/-- The number of messages in the databases of all queues. -/
def StoreProvider.recordCount (s : StoreProvider) : Nat :=
  (s.journalList.entries.map fun e => e.2.recoverMessages.length).sum

private def storedKeys (s : StoreProvider) : List PendingOperationId :=
  s.journalList.entries.flatMap fun e => e.2.recoverMessages.map fun r => (r.1, e.1)

private theorem length_storedKeys (s : StoreProvider) : (storedKeys s).length = s.recordCount := by
  unfold storedKeys StoreProvider.recordCount
  rw [List.length_flatMap]
  simp only [List.length_map]

private theorem mem_storedKeys {s : StoreProvider} {k : PendingOperationId} :
    k ∈ storedKeys s ↔ (s.stored k.1 k.2).isSome = true := by
  unfold storedKeys stored
  rw [List.mem_flatMap, Option.isSome_iff_exists]
  constructor
  · rintro ⟨⟨q, j⟩, hj, hk⟩
    obtain ⟨⟨p, v⟩, hr, rfl⟩ := List.mem_map.1 hk
    refine ⟨v, ?_⟩
    rw [OrdMap.mem_entries.1 hj, Option.bind_some]
    exact j.mem_recoverMessages.1 hr
  · rintro ⟨v, hv⟩
    obtain ⟨j, hj, hfind⟩ := Option.bind_eq_some_iff.1 hv
    exact ⟨(k.2, j), OrdMap.mem_entries.2 hj, List.mem_map.2 ⟨(k.1, v), j.mem_recoverMessages.2 hfind, rfl⟩⟩

private theorem nodup_storedKeys (s : StoreProvider) : (storedKeys s).Nodup := by
  unfold storedKeys
  rw [List.nodup_flatMap]
  constructor
  · intro e _
    refine List.Nodup.of_map Prod.fst ?_
    rw [List.map_map]
    exact e.2.recoverMessages_nodup
  · refine List.Pairwise.imp ?_ (List.pairwise_map.1 s.journalList.nodup_keys)
    intro e e' hne k hk hk'
    obtain ⟨r, -, rfl⟩ := List.mem_map.1 hk
    obtain ⟨r', -, heq⟩ := List.mem_map.1 hk'
    exact hne (Prod.mk.inj heq).2.symm

/-- A set of pairs that all were enqueued has as many members as there are calls for them. -/
private theorem length_eq_countP {h : List Event} (hnodup : (enqueuedKeys h).Nodup) {l : List PendingOperationId}
    (hl : l.Nodup) {f : PendingOperationId → Bool} (hmem : ∀ k, k ∈ l ↔ k ∈ enqueuedKeys h ∧ f k = true) :
    l.length = (enqueuedKeys h).countP f := by
  rw [List.countP_eq_length_filter]
  refine List.Perm.length_eq ((List.perm_ext_iff_of_nodup hl (hnodup.filter _)).2 fun k => ?_)
  rw [hmem, List.mem_filter]

private theorem countP_add {l : List PendingOperationId} {f g r : PendingOperationId → Bool}
    (hadd : ∀ k ∈ l, (f k).toNat + (g k).toNat = (r k).toNat) : l.countP f + l.countP g = l.countP r := by
  have hcond : ∀ b : Bool, (if b = true then 1 else 0) = b.toNat := by decide
  induction l with
  | nil => rfl
  | cons k l ih =>
    have hk := hadd k List.mem_cons_self
    have hl := ih fun k' hk' => hadd k' (List.mem_cons_of_mem k hk')
    simp only [List.countP_cons, hcond]
    omega

/-- The ends of a pair that was enqueued: it is stored, it was dequeued, or its dequeue has taken it from its store
task. -/
private theorem Monitored.Inv.ends {τ : Type} {maxThreads : Nat} {getThreadIndex : τ → Fin maxThreads}
    {h : List Event} {m : Monitored τ maxThreads} {s : StoreProvider} {φ : Entries} {ψ : Dequeues}
    (hi : Monitored.Inv getThreadIndex h m s φ ψ) (hrest : m.threads = []) {k : PendingOperationId}
    (hk : k ∈ enqueuedKeys h) :
    (∃ e, φ k = some e ∧ e.stage = .done) ∧
      (ψ k = none ∧ (s.stored k.1 k.2).isSome = true ∨
        (ψ k = some .done ∨ ψ k = some .cancelled) ∧ (s.stored k.1 k.2).isSome = false) := by
  have hthreads : s.threads = [] := by
    have hperm := hi.shows.threads
    rw [hrest] at hperm
    exact hperm.eq_nil
  have hidle : ∀ t ∈ s.threads, t.key ≠ k := fun t ht => by rw [hthreads] at ht; cases ht
  obtain ⟨e, he⟩ := Option.ne_none_iff_exists'.1 ((hi.orderly.entry_iff k).2 (mem_enqueuedKeys.1 hk))
  refine ⟨⟨e, he, hi.orderly.coherent.enqueues.stage_of_idle hidle he⟩, ?_⟩
  rw [hi.orderly.coherent.stored_of_idle hidle, he]
  cases hd : ψ k with
  | none => exact Or.inl ⟨rfl, by simp⟩
  | some d =>
    refine Or.inr ⟨?_, by simp⟩
    rcases hi.orderly.coherent.dequeues.stage_of_idle hidle hd with rfl | rfl
    · exact Or.inl rfl
    · exact Or.inr rfl

/-- For every run from an empty store in which the broker enqueues and dequeues each pair at most once and no two
threads share a record, with any interleaving of the threads and of the reports, in either mode, that has come to
rest: nothing counts as pending; the enqueues are those that were executed or skipped, and so are the dequeues; a
skipped enqueue goes with a skipped dequeue; and the executed enqueues are the executed dequeues and the messages in
the databases.  The counters have 32 bits. -/
theorem statistics_match_store {τ : Type} [DecidableEq τ] {maxThreads : Nat} {getThreadIndex : τ → Fin maxThreads}
    (hindex : Function.Injective getThreadIndex) {s₀ : StoreProvider} {h : List Event} {m : Monitored τ maxThreads}
    {o : ManagementObject maxThreads} (hs₀ : s₀.Empty)
    (hrun : Run (Monitored.step getThreadIndex) Monitored.Orderly (Monitored.create s₀) h m) (hrest : m.threads = [])
    (ho : m.mgmtObject = some o) :
    let totals := o.aggregatePerThreadStats
    totals.pendingAsyncEnqueue = 0 ∧ totals.pendingAsyncDequeue = 0 ∧
    totals.executedEnqueue + totals.skippedEnqueue = UInt32.ofNat (enqueuedKeys h).length ∧
    totals.executedDequeue + totals.skippedDequeue = UInt32.ofNat (dequeuedKeys h).length ∧
    totals.skippedEnqueue = totals.skippedDequeue ∧
    totals.executedEnqueue = totals.executedDequeue + UInt32.ofNat m.provider.recordCount := by
  obtain ⟨s, φ, ψ, hi⟩ := Monitored.Inv.of_run hindex hs₀ hrun
  have hget := hi.get_eq_countP ho fun t ht => absurd (hrest ▸ ht) List.not_mem_nil
  have hrecords : m.provider.recordCount = (enqueuedKeys h).countP fun k => (s.stored k.1 k.2).isSome := by
    have hcount : m.provider.recordCount = s.recordCount := by
      rw [hi.shows.provider]
      rfl
    rw [hcount, ← length_storedKeys]
    refine length_eq_countP hi.enqueued (nodup_storedKeys s) fun k => ?_
    rw [mem_storedKeys]
    refine ⟨fun hstored => ⟨?_, hstored⟩, fun hk => hk.2⟩
    -- nothing is stored that was not enqueued
    rw [mem_enqueuedKeys, ← hi.orderly.entry_iff]
    intro hnone
    rw [(hi.orderly.coherent.pairs k).stored, hnone] at hstored
    unfold content at hstored
    split at hstored <;> cases hstored
  have hdequeues : (dequeuedKeys h).length = (enqueuedKeys h).countP fun k => (ψ k).isSome := by
    refine length_eq_countP hi.enqueued hi.dequeued fun k => ?_
    rw [mem_dequeuedKeys, ← hi.orderly.stage_iff, mem_enqueuedKeys, Option.isSome_iff_ne_none]
    exact ⟨fun hne => ⟨hi.orderly.after k ((hi.orderly.stage_iff k).1 hne), hne⟩, fun hk => hk.2⟩
  refine ⟨?_, ?_, ?_, ?_, ?_, ?_⟩
  · refine (hget .pendingAsyncEnqueue).trans ?_
    rw [List.countP_eq_zero.2 fun k hk => ?_]
    · rfl
    · obtain ⟨⟨e, he, hdone⟩, -⟩ := hi.ends hrest hk
      simp [Counter.counts, he, hdone]
  · refine (hget .pendingAsyncDequeue).trans ?_
    rw [List.countP_eq_zero.2 fun k hk => ?_]
    · rfl
    · rcases (hi.ends hrest hk).2 with ⟨hd, -⟩ | ⟨hd | hd, -⟩ <;> simp [Counter.counts, hd, DeqStage.logged]
  · refine (congrArg₂ (· + ·) (hget .executedEnqueue) (hget .skippedEnqueue)).trans ?_
    rw [← UInt32.ofNat_add, countP_add (r := fun _ => true) fun k hk => ?_]
    · rw [List.countP_true]
    · obtain ⟨⟨e, he, hdone⟩, -⟩ := hi.ends hrest hk
      simp only [Counter.counts, he, hdone, Option.any_some, beq_self_eq_true, Bool.true_and]
      cases (ψ k).any DeqStage.cancels <;> rfl
  · refine (congrArg₂ (· + ·) (hget .executedDequeue) (hget .skippedDequeue)).trans ?_
    rw [← UInt32.ofNat_add, hdequeues, countP_add (r := fun k => (ψ k).isSome) fun k hk => ?_]
    rcases (hi.ends hrest hk).2 with ⟨hd, -⟩ | ⟨hd | hd, -⟩ <;> rw [hd] <;> rfl
  · refine (hget .skippedEnqueue).trans (Eq.trans ?_ (hget .skippedDequeue).symm)
    refine congrArg UInt32.ofNat (List.countP_congr fun k hk => ?_)
    obtain ⟨⟨e, he, hdone⟩, hd⟩ := hi.ends hrest hk
    rcases hd with ⟨hd, -⟩ | ⟨hd | hd, -⟩ <;> simp [Counter.counts, he, hdone, hd, DeqStage.cancels]
  · refine (hget .executedEnqueue).trans (Eq.trans ?_ (congrArg (· + _) (hget .executedDequeue).symm))
    rw [hrecords, ← UInt32.ofNat_add, countP_add (r := fun k => Counter.executedEnqueue.counts (φ k) (ψ k))
      fun k hk => ?_]
    obtain ⟨⟨e, he, hdone⟩, hd⟩ := hi.ends hrest hk
    rcases hd with ⟨hd, hstored⟩ | ⟨hd | hd, hstored⟩ <;> rw [hstored] <;>
      simp [Counter.counts, he, hdone, hd, DeqStage.cancels]

instance Monitored.decidableOrderly {τ : Type} {maxThreads : Nat} (h : List Event) (m : Monitored τ maxThreads) :
    ∀ a, Decidable (m.Orderly h a)
  | .call _ a => inferInstanceAs (Decidable (BdbMsgStore.Orderly h m.provider a))
  | .advance _ _ _ | .read _ | .write _ | .report => isTrue trivial

/-- The second message is dequeued before its `store` task begins. -/
private def secondSkipped : List (MonitoredAction (Fin 2)) :=
  thenCall secondUnstored (.dequeue 2 1) 60

-- the records of the two threads have wrapped around
theorem statistics_match_store_secondSkipped :
    let m := (Run.exec (Monitored.step id) [] (Monitored.create (singleQueue true)) secondSkipped).2
    ∃ o, m.mgmtObject = some o ∧ (o.getThreadStats 1).pendingAsyncEnqueue = 4294967294 ∧
      o.aggregatePerThreadStats.pendingAsyncEnqueue = 0 ∧ o.aggregatePerThreadStats.skippedEnqueue = 1 ∧
      o.aggregatePerThreadStats.executedEnqueue =
        o.aggregatePerThreadStats.executedDequeue + UInt32.ofNat m.provider.recordCount := by
  intro m
  have hallowed : Run.Allowed (Monitored.step id) Monitored.Orderly [] (Monitored.create (singleQueue true))
      secondSkipped := by decide +kernel
  have hrest : m.threads = [] := by decide +kernel
  have hobject : m.mgmtObject.map (fun o => ((o.getThreadStats 1).pendingAsyncEnqueue,
      o.aggregatePerThreadStats.skippedEnqueue)) = some (4294967294, 1) := by decide +kernel
  obtain ⟨o, ho, hvalues⟩ := Option.map_eq_some_iff.1 hobject
  obtain ⟨hpending, -, -, -, -, hrecords⟩ := statistics_match_store Function.injective_id (empty_singleQueue true)
    (Run.exec_of_allowed Run.nil hallowed) hrest ho
  exact ⟨o, ho, (Prod.mk.inj hvalues).1, hpending, (Prod.mk.inj hvalues).2, hrecords⟩

end BdbMsgStore

import BdbMsgStore.Failures

/-!
# A failed enqueue and the others

The watermark never passes an id whose call or store task has thrown: `addPid` is not reached for it, and a later call
with the id only takes the pair from `dupMap`.  A wait for a message whose store is complete ends at once exactly when
there is no such id up to its own, and no call in progress that took one (`wait_passes_iff`).
-/

namespace BdbMsgStore

open StoreProvider

/-! ### The invariant -/

/-- The state `g` follows `s` with the enqueues `φ`.  The enqueues that have failed have not begun in `g`, those
whose id was new under the queue `0`. -/
structure FailInv (h : List FailEvent) (s g : StoreProvider) (φ : Entries) (next : Nat) : Prop where
  follows : Follows (liveEnqueue h) g s
  enqueues : EnqueueSide (fun _ => True) [] g φ
  watermark : Watermark 0 g φ
  allotted : Allotted (fun _ => False) 1 next [] g φ
  entry_lt : ∀ k, φ k ≠ none → k.1.toNat < next
  failed_lt : ∀ p q, .storeFailed p q ∈ h → p.toNat < next
  live_zero : ∀ p, liveEnqueue h (p, 0) = false
  failed : ∀ k, liveEnqueue h k = false → ∀ e ∈ φ k, e.stage = .logStart ∧ e.newId = decide (k.2 = 0)
  lost : ∀ p, (∃ e ∈ φ (p, 0), e.newId = true) ↔ LostId h p
  kept : ∀ p q, KeptId h p q ↔ q ≠ 0 ∧ ∃ e ∈ φ (p, q), e.newId = true
  stored : ∀ p q, .stored p q ∈ h → ∃ e ∈ φ (p, q), e.stage = .done

namespace FailInv

variable {h : List FailEvent} {s s' g : StoreProvider} {φ : Entries} {next : Nat}

theorem start {s₀ : StoreProvider} (hs₀ : s₀.Empty) :
    FailInv [] s₀ { s₀ with journalList := s₀.journalList.assign 0 (JournalImpl.empty 0) } (fun _ => none) 1 where
  follows :=
    { tracker := rfl
      smart := rfl
      sequence := rfl
      journal := by
        intro q
        show (OrdMap.find? _ _).isSome = _
        rw [OrdMap.find?_assign]
        by_cases hq : q = 0
        · simp [hq]
        · simp [hq, OrdMap.contains]
      threads := fun _ _ => rfl
      alive := fun t ht => by rw [hs₀.threads] at ht; cases ht }
  enqueues := by
    intro k
    refine ⟨fun _ he => (by cases he), fun _ he => (by cases he), fun t _ _ => ?_, fun _ _ hm => (by cases hm),
      fun _ => Or.inr trivial, fun hm => (by cases hm), ?_, fun hp => ?_, fun _ he => (by cases he),
      fun _ he => (by cases he)⟩
    · show s₀.threads.count t = _
      rw [hs₀.threads]
      rfl
    · show s₀.tracker.isDuplicate k.1 k.2 = true ↔ _
      rw [hs₀.tracker]
      simp [PidTracker.isDuplicate]
    · replace hp : s₀.tracker.isPending k.1 k.2 = true := hp
      rw [hs₀.tracker] at hp
      simp [PidTracker.isPending] at hp
  watermark := by
    refine ⟨?_, ?_, UInt64.zero_le, fun p hp => Or.inl ?_, fun _ _ he => (by cases he), ?_,
      fun _ _ he => (by cases he)⟩
    · show s₀.tracker.mainRecord.Sound
      rw [hs₀.tracker]
      intro p hp
      cases hp
    · show s₀.tracker.stopped = false
      rw [hs₀.tracker]
    · replace hp : s₀.tracker.mainRecord.Covers p := hp
      rw [hs₀.tracker] at hp
      rcases hp with hp | hp
      · exact hp
      · cases hp
    · rintro _ _ _ ⟨_, he, _⟩
      cases he
  allotted := by
    refine ⟨fun _ _ he => (by cases he), fun p => ?_, fun _ _ _ hm => (by cases hm), ?_, le_rfl, by omega⟩
    · simp
      omega
    · show s₀.messageIdSequence.id.toNat = _
      rw [hs₀.messageIdSequence]
      rfl
  entry_lt := fun k hk => absurd rfl hk
  failed_lt := fun _ _ hm => by cases hm
  live_zero := fun _ => rfl
  failed := fun _ _ _ he => by cases he
  lost := fun p => by simp [LostId]
  kept := fun p q => by simp [KeptId]
  stored := fun _ _ hm => by cases hm

/-- The entries of failed enqueues are not touched. -/
private theorem next_of_failed (hi : FailInv h s g φ next) {a : Action} {ev : List Event}
    (ha : ∀ messageId qid m, a ≠ .enqueue messageId qid m) (hst : s.step a = some (s', ev)) {k : PendingOperationId}
    (hk : liveEnqueue h k = false) : φ.next g a k = φ k := by
  cases a with
  | enqueue messageId qid m => exact absurd rfl (ha messageId qid m)
  | advance t =>
    cases hte : t.isEnqueue with
    | true =>
      refine Entries.next_of_ne (a := .advance t) fun hkey => ?_
      rw [← Option.some.inj hkey, hi.follows.alive t (step_advance hst).1 hte] at hk
      cases hk
    | false => rw [Entries.next_advance_dequeue hte]
  | _ => rfl

/-- The task that has ended was that of an entry, which is done now. -/
private theorem done_of_storeEnds (hi : FailInv h s g φ next) {a : Action} {ev : List Event}
    (hst : s.step a = some (s', ev)) {p q : UInt64} (hp : .stored p q ∈ s.storeEnds a) :
    ∃ e ∈ φ.next g a (p, q), e.stage = .done := by
  unfold storeEnds at hp
  split at hp
  · rename_i pc pae
    split at hp
    · rename_i hend
      cases List.mem_singleton.1 hp
      have hte : (Thread.store pc pae).isEnqueue = true := rfl
      obtain ⟨e, he, het⟩ := hi.enqueues.entry_of_mem (hi.follows.mem (step_advance hst).1) hte
      have hnext := EnqueueSide.runThread_entry (s := g) het
      rw [(runThread_congr hi.follows.tracker hi.follows.smart _).2, hend] at hnext
      refine ⟨e.next g, ?_, EnqueueSide.stage_of_thread ?_⟩
      · rw [show (pae.msgId, pae.queueId) = (Thread.store pc pae).key from rfl, Entries.next_advance hte he,
          Function.update_self]
        rfl
      · cases hth : (e.next g).thread with
        | none => rfl
        | some t =>
          rw [hth] at hnext
          cases hnext
    · cases hp
  · cases hp

/-- The events of a step other than a call. -/
private theorem neutral_of_step {a : Action} {ev : List Event} (ha : ∀ messageId qid m, a ≠ .enqueue messageId qid m)
    (hst : s.step a = some (s', ev)) : ∀ e ∈ ev.map FailEvent.provider ++ s.storeEnds a, e.neutral = true := by
  intro e he
  rcases List.mem_append.1 he with he | he
  · obtain ⟨e', he', rfl⟩ := List.mem_map.1 he
    cases e' with
    | enqueueCalled newId p q m =>
      obtain ⟨messageId, rfl, -⟩ := enqueueCalled_of_step hst he'
      exact absurd rfl (ha messageId q m)
    | _ => rfl
  · unfold storeEnds at he
    split at he
    · split at he
      · rw [List.mem_singleton.1 he]
        rfl
      · cases he
    · cases he

/-- Only a call takes an id. -/
private theorem sequence_of_step {a : Action} {ev : List Event} (ha : ∀ messageId qid m, a ≠ .enqueue messageId qid m)
    (hst : s.step a = some (s', ev)) : s'.messageIdSequence = s.messageIdSequence := by
  cases a with
  | enqueue messageId qid m => exact absurd rfl (ha messageId qid m)
  | dequeue pid qid =>
    obtain ⟨rfl, -⟩ := step_dequeue hst
    rfl
  | advance t =>
    obtain ⟨-, rfl, -⟩ := step_advance hst
    exact messageIdSequence_runThread t
  | cleanEnqueueLog => cases hst; rfl
  | cleanDequeueLog => cases hst; rfl

/-- A step other than a call of `enqueue`. -/
theorem provider_step (hi : FailInv h s g φ next) {a : Action} {ev : List Event}
    (ha : ∀ messageId qid m, a ≠ .enqueue messageId qid m) (hst : s.step a = some (s', ev)) :
    ∃ g', FailInv (h ++ (ev.map .provider ++ s.storeEnds a)) s' g' (φ.next g a) next := by
  obtain ⟨g', hstg, hf⟩ := hi.follows.step ha hst
  have hev := neutral_of_step ha hst
  have hnew : ∀ messageId qid m, a = .enqueue messageId qid m → φ (g.enqueueId messageId, qid) = none :=
    fun messageId qid m he => absurd he (ha messageId qid m)
  have hfresh : Watermark.FreshId 0 g φ a := by
    cases a with
    | enqueue messageId qid m => exact absurd rfl (ha messageId qid m)
    | _ => trivial
  obtain ⟨next', hal⟩ := hi.allotted.step hi.enqueues hi.watermark.tracked hnew
    (fun qid m he => absurd he (ha 0 qid m)) hstg
  have hnewId : ∀ k, (∃ e ∈ φ.next g a k, e.newId = true) ↔ ∃ e ∈ φ k, e.newId = true := by
    intro k
    rcases Entries.next_eq_or (s := g) (φ := φ) (k := k) (fun _ _ _ he => absurd he (ha _ _ _)) with hk | hk
    · rw [hk]
    · rw [hk]
      simp [Entry.next]
  -- the sequence has not moved
  obtain rfl : next' = next := by
    have h1 := hal.sequence
    rw [sequence_of_step ha hstg, hi.allotted.sequence] at h1
    have h2 := hal.first_le
    have h3 := hal.next_le
    have h4 := hi.allotted.first_le
    have h5 := hi.allotted.next_le
    omega
  have hlive : ∀ k, liveEnqueue (h ++ (ev.map .provider ++ s.storeEnds a)) k = liveEnqueue h k :=
    fun k => liveEnqueue_append_neutral hev
  refine ⟨g', ?_, (hi.enqueues.step hnew hstg).forget, Watermark.step hi.enqueues hi.watermark hnew hfresh hstg,
    hal.forget, fun k hk => hi.entry_lt k fun hnone => hk ?_, fun p q hm => ?_, fun p => ?_, fun k hk e he => ?_,
    fun p => ?_, fun p q => ?_, fun p q hm => ?_⟩
  · rw [show liveEnqueue (h ++ (ev.map .provider ++ s.storeEnds a)) = liveEnqueue h from funext hlive]
    exact hf
  · rcases Entries.next_eq_or (s := g) (φ := φ) (k := k) (fun _ _ _ he => absurd he (ha _ _ _)) with hk' | hk'
    · rw [hk', hnone]
    · rw [hk', hnone]
      rfl
  · exact hi.failed_lt p q ((mem_append_neutral hev rfl).1 hm)
  · rw [hlive]
    exact hi.live_zero p
  · rw [hlive] at hk
    rw [hi.next_of_failed ha hst hk] at he
    exact hi.failed k hk e he
  · rw [hnewId, hi.lost, lostId_append_neutral hev]
  · rw [hnewId, ← hi.kept p q, keptId_append_neutral hev]
  · rcases List.mem_append.1 hm with hm | hm
    · obtain ⟨e, he, hdone⟩ := hi.stored p q hm
      rcases Entries.next_eq_or (s := g) (φ := φ) (k := (p, q)) (fun _ _ _ he => absurd he (ha _ _ _)) with hk' | hk'
      · exact ⟨e, by rw [hk']; exact he, hdone⟩
      · refine ⟨e.next g, by rw [hk', he]; rfl, ?_⟩
        simp [Entry.next, Entry.nextStage, hdone]
    · rcases List.mem_append.1 hm with hm | hm
      · obtain ⟨_, -, hm'⟩ := List.mem_map.1 hm
        cases hm'
      · exact hi.done_of_storeEnds hst hm

/-! ### Calls -/

/-- An id that the sequence has returned is below the next one. -/
theorem lt_of_allocated (hi : FailInv h s g φ next) {p : UInt64} (ha : Allocated h p) : p.toNat < next := by
  have hne : ∀ {q}, (∃ e ∈ φ (p, q), e.newId = true) → p.toNat < next := by
    rintro q ⟨e, he, -⟩
    exact hi.entry_lt (p, q) fun hnone => by rw [hnone] at he; cases he
  rcases ha.cases with hl | ⟨q, hk⟩
  · exact hne ((hi.lost p).2 hl)
  · exact hne ((hi.kept p q).1 hk).2

/-- The next id of the sequence. -/
theorem toNat_next (hi : FailInv h s g φ next) (hwrap : s.messageIdSequence.id ≠ 0) :
    (g.enqueueId 0).toNat = next := by
  rw [← hi.follows.sequence] at hwrap
  rw [← (hi.allotted.toNat_id hwrap).1]
  simp [enqueueId, IdSequence.next, hwrap]

/-- A call in the state that follows: a failed enqueue of the pair is given up for it. -/
def followCall (g : StoreProvider) (φ : Entries) (messageId q : UInt64) (m : Message) : StoreProvider :=
  { g with
    messageIdSequence := if messageId = 0 then g.messageIdSequence.next.2 else g.messageIdSequence
    tracker := if messageId = 0 then g.tracker else g.tracker.addDuplicate messageId q
    threads := release (φ (g.enqueueId messageId, q)) g.threads ++
      [.enqueue .logStart (m.pending (g.enqueueId messageId) q)] }

/-- A call with a new id. -/
private theorem follow_new (hi : FailInv h s g φ next) {q : UInt64} (m : Message)
    (hq : g.journalList.contains q = true) (hwrap : s.messageIdSequence.id ≠ 0)
    (hwin : s.messageIdSequence.next.1.toNat < s.tracker.mainRecord.lastPid.toNat + 2 ^ 31) :
    φ (g.enqueueId 0, q) = none ∧
      EnqueueSide (fun _ => True) [] (followCall g φ 0 q m) (φ.next g (.enqueue 0 q m)) ∧
      Watermark 0 (followCall g φ 0 q m) (φ.next g (.enqueue 0 q m)) ∧
      Allotted (fun _ => False) 1 (next + 1) [] (followCall g φ 0 q m) (φ.next g (.enqueue 0 q m)) := by
  have hid := hi.toNat_next hwrap
  have hnone : ∀ q', φ (g.enqueueId 0, q') = none := by
    intro q'
    by_contra hne
    have := hi.entry_lt _ hne
    simp only [hid] at this
    omega
  have hdup : g.tracker.isDuplicate (g.enqueueId 0) q = false := by
    have hd := (hi.enqueues (g.enqueueId 0, q)).duplicate
    rw [hnone q] at hd
    simpa using hd
  rw [← hi.follows.sequence] at hwrap hwin
  rw [← hi.follows.tracker] at hwin
  have hfresh : Watermark.FreshId 0 g φ (.enqueue 0 q m) := by
    intro _
    refine ⟨UInt64.pos_iff_ne_zero.2 (IdSequence.next_ne_zero _), hwin, fun q' e he => ?_⟩
    rw [show φ (g.messageIdSequence.next.1, q') = none from hnone q'] at he
    cases he
  have hal : Allotted (fun _ => False) 1 (next + 1) ([] ++ []) (followCall g φ 0 q m) (φ.next g (.enqueue 0 q m)) :=
    hi.allotted.call (hnone q) hwrap rfl rfl (fun _ _ _ hm => nomatch hm)
  refine ⟨hnone q, ?_, hi.watermark.of_recordStep (.call (hnone q) rfl rfl rfl) hfresh rfl, hal⟩
  have hrestart := hi.enqueues.restart (g.enqueueId 0, q) (g.enqueueId 0, q) (m.pending (g.enqueueId 0) q) true
    (followCall g φ 0 q m) rfl (fun hne => absurd rfl hne)
    (fun e he => by rw [hnone q] at he; cases he) (fun hne => absurd rfl hne) rfl rfl (fun _ => rfl) hq
    (fun _ _ => rfl)
    (fun p q' => by
      show g.tracker.isDuplicate p q' = _
      split
      · rename_i hk
        cases hk
        exact hdup
      · rfl)
  rw [Function.update_idem] at hrestart
  exact hrestart

/-- A call with an id that is set, on a pair whose enqueue has failed or that has none. -/
private theorem follow_set (hi : FailInv h s g φ next) {messageId q : UInt64} (m : Message)
    (hq : g.journalList.contains q = true) (hm : messageId ≠ 0) (hq0 : q ≠ 0)
    (hlive : liveEnqueue h (messageId, q) = false) :
    EnqueueSide (fun _ => True) [] (followCall g φ messageId q m) (φ.next g (.enqueue messageId q m)) ∧
      Watermark 0 (followCall g φ messageId q m) (φ.next g (.enqueue messageId q m)) ∧
      Allotted (fun _ => False) 1 next [] (followCall g φ messageId q m) (φ.next g (.enqueue messageId q m)) ∧
      SameNew φ (φ.next g (.enqueue messageId q m)) := by
  have hid : g.enqueueId messageId = messageId := if_neg hm
  have hsame : SameNew φ (φ.next g (.enqueue messageId q m)) := by
    rw [Entries.next_enqueue, hid]
    refine SameNew.update (decide_eq_false hm) fun e he => ?_
    rw [(hi.failed _ hlive e he).2]
    exact decide_eq_false hq0
  have htr : (followCall g φ messageId q m).tracker = g.tracker.addDuplicate messageId q := if_neg hm
  have hrec : (followCall g φ messageId q m).tracker.mainRecord = g.tracker.mainRecord := by
    rw [htr]
    rfl
  refine ⟨?_, hi.watermark.of_sameNew hsame hrec (by rw [htr]; rfl),
    hi.allotted.of_sameNew hsame hrec (if_neg hm), hsame⟩
  have hrestart := hi.enqueues.restart (g.enqueueId messageId, q) (g.enqueueId messageId, q)
    (m.pending (g.enqueueId messageId) q) (decide (messageId = 0)) (followCall g φ messageId q m) rfl
    (fun hne => absurd rfl hne)
    (fun e he => by
      rw [hid] at he
      rw [(hi.failed _ hlive e he).1]
      rfl) (fun hne => absurd rfl hne) rfl rfl (fun _ => rfl) hq
    (fun p q' => by rw [htr, PidTracker.isPending_addDuplicate])
    (fun p q' => by
      rw [htr, PidTracker.isDuplicate_addDuplicate, hid, decide_eq_false hm]
      simp only [Prod.mk.injEq, and_comm, Bool.not_false])
  rw [Function.update_idem] at hrestart
  exact hrestart

/-- What a call leaves in the state that follows. -/
private structure Placed (h : List FailEvent) (s g : StoreProvider) (φ : Entries) (next : Nat) (messageId q : UInt64)
    (m : Message) (next' : Nat) : Prop where
  enqueues : EnqueueSide (fun _ => True) [] (followCall g φ messageId q m) (φ.next g (.enqueue messageId q m))
  watermark : Watermark 0 (followCall g φ messageId q m) (φ.next g (.enqueue messageId q m))
  allotted : Allotted (fun _ => False) 1 next' [] (followCall g φ messageId q m) (φ.next g (.enqueue messageId q m))
  next_le : next ≤ next'
  entry_lt : ∀ k, φ.next g (.enqueue messageId q m) k ≠ none → k.1.toNat < next'
  newId : ∀ k, (∃ e ∈ φ.next g (.enqueue messageId q m) k, e.newId = true) ↔
    (∃ e ∈ φ k, e.newId = true) ∨ (messageId = 0 ∧ k = (g.enqueueId 0, q))
  fresh : messageId = 0 → ∀ q', .storeFailed (g.enqueueId 0) q' ∉ h
  unused : ∀ t ∈ s.threads, t.isEnqueue = true → t.key ≠ (g.enqueueId messageId, q)
  stored : ∀ p q', .stored p q' ∈ h → ∃ e ∈ φ.next g (.enqueue messageId q m) (p, q'), e.stage = .done

private theorem placed (hi : FailInv h s g φ next) {messageId q : UInt64} (m : Message)
    (hq : g.journalList.contains q = true)
    (hset : messageId ≠ 0 → q ≠ 0 ∧ liveEnqueue h (messageId, q) = false ∧ Allocated h messageId)
    (hnew : messageId = 0 → s.messageIdSequence.id ≠ 0 ∧
      s.messageIdSequence.next.1.toNat < s.tracker.mainRecord.lastPid.toNat + 2 ^ 31) :
    ∃ next', Placed h s g φ next messageId q m next' := by
  have hlt : ∀ {next'}, next ≤ next' → (g.enqueueId messageId).toNat < next' →
      ∀ k, φ.next g (.enqueue messageId q m) k ≠ none → k.1.toNat < next' := by
    intro next' hle hid k hk
    by_cases hkey : k = (g.enqueueId messageId, q)
    · rw [hkey]
      exact hid
    · rw [Entries.next_enqueue, Function.update_of_ne hkey] at hk
      exact lt_of_lt_of_le (hi.entry_lt k hk) hle
  -- the entry that is replaced was not done
  have hstored : (∀ e ∈ φ (g.enqueueId messageId, q), e.stage ≠ .done) →
      ∀ p q', .stored p q' ∈ h → ∃ e ∈ φ.next g (.enqueue messageId q m) (p, q'), e.stage = .done := by
    intro hopen p q' hm
    obtain ⟨e, he, hdone⟩ := hi.stored p q' hm
    have hkey : (p, q') ≠ (g.enqueueId messageId, q) := fun hkey => hopen e (by rwa [← hkey]) hdone
    exact ⟨e, by rwa [Entries.next_enqueue, Function.update_of_ne hkey], hdone⟩
  by_cases hm : messageId = 0
  · subst hm
    obtain ⟨hwrap, hwin⟩ := hnew rfl
    have hid := hi.toNat_next hwrap
    obtain ⟨hnone, hE, hW, hA⟩ := hi.follow_new m hq hwrap hwin
    refine ⟨next + 1, hE, hW, hA, Nat.le_succ _, hlt (Nat.le_succ _) (by omega), newId_call hnone,
      fun _ q' hf => ?_, fun t ht hte hkey => ?_, hstored fun e he => by rw [hnone] at he; cases he⟩
    · have := hi.failed_lt _ q' hf
      omega
    · obtain ⟨e, he, -⟩ := hi.enqueues.entry_of_mem (hi.follows.mem ht) hte
      rw [hkey, hnone] at he
      cases he
  · obtain ⟨hq0, hlive, halloc⟩ := hset hm
    have hid : g.enqueueId messageId = messageId := if_neg hm
    obtain ⟨hE, hW, hA, hsame⟩ := hi.follow_set m hq hm hq0 hlive
    refine ⟨next, hE, hW, hA, le_rfl, hlt le_rfl (by rw [hid]; exact hi.lt_of_allocated halloc), fun k => ?_,
      fun h0 => absurd h0 hm, fun t ht hte hkey => ?_, hstored fun e he => ?_⟩
    · rw [hsame.exists_iff]
      simp [hm]
    · have halive := hi.follows.alive t ht hte
      rw [hkey, hid, hlive] at halive
      cases halive
    · rw [hid] at he
      rw [(hi.failed _ hlive e he).1]
      simp

/-- The count of a thread after a call in the state that follows. -/
private theorem count_followCall (hi : FailInv h s g φ next) (messageId q : UInt64) (m : Message) (t : Thread) :
    (followCall g φ messageId q m).threads.count t =
      (if t.isEnqueue = true ∧ t.key = (g.enqueueId messageId, q) then 0 else g.threads.count t) +
        List.count t [.enqueue .logStart (m.pending (g.enqueueId messageId) q)] := by
  show List.count t (release _ g.threads ++ _) = _
  rw [List.count_append, hi.enqueues.count_release]

/-- A call of `enqueue` that does not throw. -/
theorem call_step (hi : FailInv h s g φ next) {messageId q : UInt64} {m : Message} {ev : List Event}
    (hok : Callable h s messageId q) (hst : s.step (.enqueue messageId q m) = some (s', ev)) :
    ∃ next', FailInv (h ++ ev.map .provider) s' (followCall g φ messageId q m)
      (φ.next g (.enqueue messageId q m)) next' := by
  obtain ⟨hq0, hq, rfl, rfl⟩ := step_enqueue hst
  have hid : s.enqueueId messageId = g.enqueueId messageId := by
    rw [enqueueId, enqueueId, hi.follows.sequence]
  obtain ⟨next', hp⟩ := hi.placed m (by rw [hi.follows.journal, hq, Bool.or_true])
    (fun hm => ⟨hq0, hok.1 hm⟩) hok.2
  have hlive := fun k => liveEnqueue_enqueueCalled (h := h) (k := k) (messageId = 0) (g.enqueueId messageId) q m
  have hoff : ∀ {k}, k ≠ (g.enqueueId messageId, q) → φ.next g (.enqueue messageId q m) k = φ k := by
    intro k hk
    rw [Entries.next_enqueue, Function.update_of_ne hk]
  rw [List.map_singleton, hid]
  refine ⟨next', ?_, hp.enqueues, hp.watermark, hp.allotted, hp.entry_lt, fun p q' hm => ?_, fun p => ?_,
    fun k hk e he => ?_, fun p => ?_, fun p q' => ?_, fun p q' hm => ?_⟩
  · refine ⟨?_, hi.follows.smart, ?_, hi.follows.journal, fun t ht => ?_, fun t ht hte => ?_⟩
    · show (if messageId = 0 then _ else _) = if messageId = 0 then _ else _
      rw [hi.follows.tracker]
    · show (if messageId = 0 then _ else _) = if messageId = 0 then _ else _
      rw [hi.follows.sequence]
    · rw [hi.count_followCall]
      show _ = List.count t (s.threads ++ _)
      rw [List.count_append]
      split
      · rename_i hkey
        have hzero : s.threads.count t = 0 :=
          List.count_eq_zero.2 fun hmem => hp.unused t hmem hkey.1 hkey.2
        rw [hzero]
      · rename_i hkey
        rw [hi.follows.threads t fun hte => ?_]
        have hlt := ht hte
        rwa [hlive, if_neg fun he => hkey ⟨hte, he.symm⟩] at hlt
    · rw [hlive]
      rcases List.mem_append.1 ht with ht | ht
      · rw [hi.follows.alive t ht hte, ite_self]
      · rw [List.mem_singleton.1 ht]
        exact if_pos rfl
  · refine lt_of_lt_of_le (hi.failed_lt p q' ?_) hp.next_le
    simpa using hm
  · rw [hlive, if_neg fun he => hq0 (Prod.ext_iff.1 he).2]
    exact hi.live_zero p
  · rw [hlive] at hk
    split at hk
    · cases hk
    · rename_i hne
      rw [hoff (Ne.symm hne)] at he
      exact hi.failed k hk e he
  · -- the store task of a new id has not thrown
    rw [hoff fun he => hq0 (Prod.ext_iff.1 he).2.symm, hi.lost]
    unfold LostId
    simp only [List.mem_append, List.mem_singleton, reduceCtorEq, or_false, FailEvent.provider.injEq,
      Event.enqueueCalled.injEq]
    apply or_congr_right
    constructor
    · rintro ⟨q', m', hm, hf⟩
      exact ⟨q', m', Or.inl hm, hf⟩
    · rintro ⟨q', m', hm | ⟨h0, rfl, -, -⟩, hf⟩
      · exact ⟨q', m', hm, hf⟩
      · have hm0 : messageId = 0 := of_decide_eq_true h0.symm
        rw [hm0] at hf
        exact absurd hf (hp.fresh hm0 q')
  · rw [hp.newId, and_or_left, ← hi.kept]
    unfold KeptId
    simp only [List.mem_append, List.mem_singleton, reduceCtorEq, or_false, FailEvent.provider.injEq,
      Event.enqueueCalled.injEq]
    constructor
    · rintro ⟨⟨m', hm | ⟨h0, rfl, rfl, -⟩⟩, hf⟩
      · exact Or.inl ⟨⟨m', hm⟩, hf⟩
      · have hm0 : messageId = 0 := of_decide_eq_true h0.symm
        exact Or.inr ⟨hq0, hm0, by rw [hm0]⟩
    · rintro (⟨⟨m', hm⟩, hf⟩ | ⟨-, hm0, hk⟩)
      · exact ⟨⟨m', Or.inl hm⟩, hf⟩
      · cases hk
        exact ⟨⟨m, Or.inr ⟨(decide_eq_true hm0).symm, by rw [hm0], rfl, rfl⟩⟩, hp.fresh hm0 q⟩
  · exact hp.stored p q' (by simpa using hm)

/-- The state after a call that throws, whether the id is new or not. -/
private theorem failStep_failEnqueue {messageId q : UInt64} {ev : List FailEvent}
    (hst : s.failStep (.failEnqueue messageId q) = some (s', ev)) :
    q ≠ 0 ∧ s.journalList.contains q = true ∧
      s' = { s with
        messageIdSequence := if messageId = 0 then s.messageIdSequence.next.2 else s.messageIdSequence
        tracker := if messageId = 0 then s.tracker else s.tracker.addDuplicate messageId q } ∧
      ev = [.enqueueFailed (messageId = 0) (s.enqueueId messageId) q] := by
  simp only [failStep] at hst
  split at hst
  · cases hst
  · rename_i hguard
    rw [not_or, not_not] at hguard
    refine ⟨hguard.1, hguard.2, ?_⟩
    split at hst
    · rename_i hm
      cases hst
      simp [enqueueId, hm]
    · rename_i hm
      cases hst
      simp [enqueueId, hm]

/-- A call that throws.  It is filed under the queue `0` if its id is new. -/
theorem failEnqueue_step (hi : FailInv h s g φ next) {messageId q : UInt64} {ev : List FailEvent}
    (hok : Callable h s messageId q) (hst : s.failStep (.failEnqueue messageId q) = some (s', ev)) :
    ∃ g' φ' next', FailInv (h ++ ev) s' g' φ' next' := by
  obtain ⟨hq0, hq, rfl, rfl⟩ := failStep_failEnqueue hst
  have hid : s.enqueueId messageId = g.enqueueId messageId := by
    rw [enqueueId, enqueueId, hi.follows.sequence]
  rw [hid]
  obtain ⟨q₀, h0, hset⟩ : ∃ q₀, (messageId = 0 ↔ q₀ = 0) ∧ (messageId ≠ 0 → q₀ = q) := by
    by_cases hm : messageId = 0
    · exact ⟨0, by simp [hm], fun hne => absurd hm hne⟩
    · exact ⟨q, by simp [hm, hq0], fun _ => rfl⟩
  have hdead : liveEnqueue h (g.enqueueId messageId, q₀) = false := by
    by_cases hm : messageId = 0
    · rw [h0.1 hm]
      exact hi.live_zero _
    · rw [hset hm, show g.enqueueId messageId = messageId from if_neg hm]
      exact (hok.1 hm).1
  have hq₀ : g.journalList.contains q₀ = true := by
    rw [hi.follows.journal]
    by_cases hm : messageId = 0
    · simp [h0.1 hm]
    · rw [hset hm, hq, Bool.or_true]
  obtain ⟨next', hp⟩ := hi.placed smallMessage hq₀
    (fun hm => ⟨fun hq' => hm (h0.2 hq'), by rw [hset hm]; exact hok.1 hm⟩) hok.2
  have hlive := fun k => liveEnqueue_enqueueFailed (h := h) (k := k) (messageId = 0) (g.enqueueId messageId) q
  refine ⟨_, _, next', ?_, hp.enqueues, hp.watermark, hp.allotted, hp.entry_lt, fun p q' hm => ?_, fun p => ?_,
    fun k hk e he => ?_, fun p => ?_, fun p q' => ?_, fun p q' hm => ?_⟩
  · refine ⟨?_, hi.follows.smart, ?_, hi.follows.journal, fun t ht => ?_, fun t ht hte => ?_⟩
    · show (if messageId = 0 then _ else _) = if messageId = 0 then _ else _
      rw [hi.follows.tracker]
      by_cases hm : messageId = 0
      · rw [if_pos hm, if_pos hm]
      · rw [if_neg hm, if_neg hm, hset hm]
    · show (if messageId = 0 then _ else _) = if messageId = 0 then _ else _
      rw [hi.follows.sequence]
    · -- the thread of the call is not that of a live enqueue
      have hne : ¬ (t.isEnqueue = true ∧ t.key = (g.enqueueId messageId, q₀)) := by
        rintro ⟨hte, hkey⟩
        have hlt := ht hte
        rw [hlive, hkey, hdead] at hlt
        cases hlt
      rw [hi.count_followCall, if_neg hne, List.count_singleton, if_neg, Nat.add_zero]
      · exact hi.follows.threads t fun hte => hlive t.key ▸ ht hte
      · intro he
        rw [← eq_of_beq he] at hne
        exact hne ⟨rfl, rfl⟩
    · rw [hlive]
      exact hi.follows.alive t ht hte
  · refine lt_of_lt_of_le (hi.failed_lt p q' ?_) hp.next_le
    simpa using hm
  · rw [hlive]
    exact hi.live_zero p
  · rw [hlive] at hk
    by_cases hkey : k = (g.enqueueId messageId, q₀)
    · subst hkey
      rw [Entries.next_enqueue, Function.update_self] at he
      cases he
      exact ⟨rfl, decide_eq_decide.2 h0⟩
    · rw [Entries.next_enqueue, Function.update_of_ne hkey] at he
      exact hi.failed k hk e he
  · rw [hp.newId, hi.lost, lostId_enqueueFailed]
    apply or_congr_right
    constructor
    · rintro ⟨hm, hk⟩
      rw [hm]
      exact ⟨decide_eq_true rfl, (Prod.ext_iff.1 hk).1⟩
    · rintro ⟨hn, hk⟩
      have hm : messageId = 0 := of_decide_eq_true hn
      rw [hm] at hk
      exact ⟨hm, by rw [hk, h0.1 hm]⟩
  · have hno : ¬ (q' ≠ 0 ∧ messageId = 0 ∧ (p, q') = (g.enqueueId 0, q₀)) := by
      rintro ⟨hq', hm, hk⟩
      exact hq' ((Prod.ext_iff.1 hk).2.trans (h0.1 hm))
    rw [hp.newId, and_or_left, or_iff_left hno, ← hi.kept]
    unfold KeptId
    simp only [List.mem_append, List.mem_singleton, reduceCtorEq, or_false]
  · exact hp.stored p q' (by simpa using hm)

/-- The enqueue of the store task that throws. -/
private theorem entry_of_put (hi : FailInv h s g φ next) {pae : PendingAsyncEnqueue}
    (ht : .store .put pae ∈ s.threads) : ∃ newId, φ pae.opId = some ⟨pae, newId, .put⟩ := by
  obtain ⟨⟨pae', newId, stage⟩, he, het⟩ := hi.enqueues.entry_of_mem (hi.follows.mem ht) rfl
  cases stage <;> cases het
  exact ⟨newId, he⟩

/-- Under the queue `0` there is no other enqueue of the id of a live enqueue. -/
private theorem free_of_put (hi : FailInv h s g φ next) {pae : PendingAsyncEnqueue} (hq : pae.queueId ≠ 0)
    (he : φ pae.opId = some ⟨pae, true, .put⟩) : φ (pae.msgId, 0) = none := by
  by_contra hne
  obtain ⟨e', he'⟩ := Option.ne_none_iff_exists'.1 hne
  have hn' := (hi.failed _ (hi.live_zero pae.msgId) e' he').2
  exact hq (hi.watermark.unique pae.msgId 0 pae.queueId ⟨e', he', hn'⟩ ⟨_, he, rfl⟩).symm

/-- The state that follows after a store task has thrown. -/
def followFail (g : StoreProvider) (φ : Entries) (pae : PendingAsyncEnqueue) (newId : Bool) : StoreProvider :=
  { g with
    threads := release (φ pae.opId) g.threads ++
      [.enqueue .logStart (smallMessage.pending pae.msgId (if newId then 0 else pae.queueId))] }

private theorem enqueues_giveUp (hi : FailInv h s g φ next) {pae : PendingAsyncEnqueue} {newId : Bool}
    (hq : pae.queueId ≠ 0) (he : φ pae.opId = some ⟨pae, newId, .put⟩) :
    EnqueueSide (fun _ => True) [] (followFail g φ pae newId) (φ.giveUp pae.opId newId) := by
  have hj : g.journalList.contains 0 = true := by rw [hi.follows.journal]; rfl
  have hpend : ∀ e ∈ φ pae.opId, e.stage.pending = false := by
    intro e he'
    rw [he] at he'
    cases he'
    rfl
  have hdup := (hi.enqueues pae.opId).duplicate
  rw [he] at hdup
  cases newId with
  | true =>
    have hnone := hi.free_of_put hq he
    have hdup0 := (hi.enqueues (pae.msgId, 0)).duplicate
    rw [hnone] at hdup0
    refine hi.enqueues.restart pae.opId (pae.msgId, 0) (smallMessage.pending pae.msgId 0) true _ rfl (fun _ => hnone)
      hpend (fun _ e he' => ?_) rfl rfl (fun _ => rfl) hj (fun _ _ => rfl) fun p q => ?_
    · rw [he] at he'
      cases he'
      rfl
    · show g.tracker.isDuplicate p q = _
      split
      · rename_i hk
        cases hk
        simpa using hdup0
      · rfl
  | false =>
    refine hi.enqueues.restart pae.opId pae.opId (smallMessage.pending pae.msgId pae.queueId) false _ rfl
      (fun hne => absurd rfl hne) hpend (fun hne => absurd rfl hne) rfl rfl (fun _ => rfl)
      ((hi.enqueues pae.opId).journal _ he) (fun _ _ => rfl) fun p q => ?_
    show g.tracker.isDuplicate p q = _
    split
    · rename_i hk
      cases hk
      exact hdup.2 ⟨_, rfl, rfl, rfl⟩
    · rfl

private theorem follows_giveUp (hi : FailInv h s g φ next) {pae : PendingAsyncEnqueue} {newId : Bool}
    (ht : .store .put pae ∈ s.threads) (he : φ pae.opId = some ⟨pae, newId, .put⟩) :
    Follows (liveEnqueue (h ++ [.storeFailed pae.msgId pae.queueId])) (followFail g φ pae newId)
      { s with threads := s.threads.erase (.store .put pae) } := by
  have hlive : ∀ k, liveEnqueue (h ++ [.storeFailed pae.msgId pae.queueId]) k =
      if pae.opId = k then false else liveEnqueue h k := fun k => liveEnqueue_storeFailed ..
  refine ⟨hi.follows.tracker, hi.follows.smart, hi.follows.sequence, hi.follows.journal, fun t hte => ?_,
    fun t hmem hte => ?_⟩
  · have hother : t.isEnqueue = true → t.key ≠ pae.opId ∧ liveEnqueue h t.key = true := by
      intro ht'
      have hl := hte ht'
      rw [hlive] at hl
      split at hl
      · cases hl
      · rename_i hne
        exact ⟨Ne.symm hne, hl⟩
    have hne : Thread.enqueue .logStart (smallMessage.pending pae.msgId (if newId then 0 else pae.queueId)) ≠ t := by
      rintro rfl
      obtain ⟨hk, hl⟩ := hother rfl
      cases newId with
      | true => exact absurd hl (by rw [show Thread.key _ = (pae.msgId, 0) from rfl, hi.live_zero]; simp)
      | false => exact hk rfl
    have hne' : t ≠ .store .put pae := by
      rintro rfl
      exact (hother rfl).1 rfl
    show List.count t (release _ g.threads ++ _) = List.count t (s.threads.erase _)
    rw [List.count_append, hi.enqueues.count_release, if_neg fun hc => (hother hc.1).1 hc.2, List.count_singleton,
      if_neg (by simpa using hne), Nat.add_zero, List.count_erase_of_ne hne',
      hi.follows.threads t fun ht' => (hother ht').2]
  · -- the enqueue had no other thread
    have hmem' := List.mem_of_mem_erase hmem
    rw [hlive, if_neg, hi.follows.alive t hmem' hte]
    intro hk
    obtain ⟨e', he', het⟩ := hi.enqueues.entry_of_mem (hi.follows.mem hmem') hte
    rw [← hk, he] at he'
    cases he'
    cases het
    have hcount := (hi.enqueues pae.opId).threads (.store .put pae) rfl rfl
    rw [he, hi.follows.threads _ fun _ => hi.follows.alive _ ht rfl] at hcount
    have hone : s.threads.count (.store .put pae) = 1 := hcount.trans (if_pos rfl)
    have hpos : 0 < (s.threads.erase (.store .put pae)).count (.store .put pae) := List.count_pos_iff.2 hmem
    rw [List.count_erase_self] at hpos
    omega

/-- A store task that throws. -/
theorem failStore_step (hi : FailInv h s g φ next) {pae : PendingAsyncEnqueue} {ev : List FailEvent}
    (hst : s.failStep (.failStore pae) = some (s', ev)) : ∃ g' φ' next', FailInv (h ++ ev) s' g' φ' next' := by
  simp only [failStep] at hst
  split at hst
  case isFalse => cases hst
  case isTrue ht =>
  cases hst
  obtain ⟨newId, he⟩ := hi.entry_of_put ht
  have halive : liveEnqueue h (pae.msgId, pae.queueId) = true := hi.follows.alive _ ht rfl
  have hq : pae.queueId ≠ 0 := by
    intro hq
    rw [hq, hi.live_zero] at halive
    cases halive
  have hfree : newId = true → φ (pae.msgId, 0) = none := fun hn => hi.free_of_put hq (hn ▸ he)
  have hlt : pae.msgId.toNat < next := hi.entry_lt pae.opId (by rw [he]; simp)
  have hlive : ∀ k, liveEnqueue (h ++ [.storeFailed pae.msgId pae.queueId]) k =
      if pae.opId = k then false else liveEnqueue h k := fun k => liveEnqueue_storeFailed ..
  have hnewId := newId_giveUp (k := pae.opId) hfree
  refine ⟨followFail g φ pae newId, φ.giveUp pae.opId newId, next, hi.follows_giveUp ht he, hi.enqueues_giveUp hq he,
    hi.watermark.giveUp he hfree (by simp) rfl, hi.allotted.giveUp he hfree rfl rfl, fun k hk => ?_,
    fun p q hm => ?_, fun p => ?_, fun k hk e he' => ?_, fun p => ?_, fun p q => ?_, fun p q hm => ?_⟩
  · obtain ⟨e, he'⟩ := Option.ne_none_iff_exists'.1 hk
    rcases mem_giveUp he' with ⟨rfl, -⟩ | ⟨-, he'⟩
    · exact hlt
    · exact hi.entry_lt k (by rw [he']; simp)
  · rcases List.mem_append.1 hm with hm | hm
    · exact hi.failed_lt p q hm
    · cases List.mem_singleton.1 hm
      exact hlt
  · rw [hlive, hi.live_zero, ite_self]
  · rcases mem_giveUp he' with ⟨rfl, hn, hst⟩ | ⟨hne, he'⟩
    · refine ⟨hst, hn.trans ?_⟩
      cases newId with
      | true => rfl
      | false => exact (decide_eq_false hq).symm
    · rw [hlive, if_neg (Ne.symm hne)] at hk
      exact hi.failed k hk e he'
  · -- the id is lost exactly if the call that threw was the one that took it
    have hkept := hi.kept pae.msgId pae.queueId
    have hn : (∃ e ∈ φ (pae.msgId, pae.queueId), e.newId = true) ↔ newId = true := by
      rw [show φ (pae.msgId, pae.queueId) = _ from he]
      simp
    rw [hn, and_iff_right hq] at hkept
    rw [hnewId, lostId_storeFailed, hkept, hi.lost, or_comm]
    refine or_congr ⟨And.right, fun hl => ⟨fun hk => hq (Prod.ext_iff.1 hk).2.symm, hl⟩⟩ ?_
    rw [and_comm, Prod.ext_iff]
    exact and_congr_left fun _ => ⟨And.left, fun hp => ⟨hp, rfl⟩⟩
  · rw [hnewId, keptId_storeFailed, hi.kept]
    have hno : ¬ (q ≠ 0 ∧ newId = true ∧ (p, q) = (pae.opId.1, 0)) := fun ⟨hq', _, hk⟩ => hq' (Prod.ext_iff.1 hk).2
    rw [and_or_left, or_iff_right hno]
    exact and_left_comm
  · obtain ⟨e, he', hdone⟩ := hi.stored p q (by simpa using hm)
    refine ⟨e, ?_, hdone⟩
    have hne : (p, q) ≠ pae.opId := by
      intro hk
      rw [hk, he] at he'
      cases he'
      cases hdone
    rw [giveUp_of_ne _ hne]
    · exact he'
    · intro hk
      cases newId with
      | true =>
        rw [hk, show φ (pae.opId.1, if true = true then 0 else pae.opId.2) = none from hfree rfl] at he'
        cases he'
      | false => exact hne hk

/-- Every step keeps the invariant. -/
theorem step (hi : FailInv h s g φ next) {a : FailAction} {ev : List FailEvent} (hok : Retrying h s a)
    (hst : s.failStep a = some (s', ev)) : ∃ g' φ' next', FailInv (h ++ ev) s' g' φ' next' := by
  cases a with
  | provider a =>
    obtain ⟨⟨s₁, ev₁⟩, hst₁, heq⟩ := Option.map_eq_some_iff.1 hst
    cases heq
    by_cases ha : ∃ messageId qid m, a = .enqueue messageId qid m
    · obtain ⟨messageId, qid, m, rfl⟩ := ha
      obtain ⟨next', hi'⟩ := hi.call_step hok hst₁
      rw [show s.storeEnds (.enqueue messageId qid m) = [] from rfl, List.append_nil]
      exact ⟨_, _, next', hi'⟩
    · obtain ⟨g', hi'⟩ := hi.provider_step (fun messageId qid m he => ha ⟨messageId, qid, m, he⟩) hst₁
      exact ⟨g', _, next, hi'⟩
  | failEnqueue messageId qid => exact hi.failEnqueue_step hok hst
  | failStore pae => exact hi.failStore_step hst

end FailInv

/-! ### The wait for a stored message -/

/-- Both tests of `waitForPid` succeed, so the call comes back without a wait. -/
def WaitPasses (s : StoreProvider) (pid qid : UInt64) : Prop :=
  s.tracker.waitForPid pid qid (.dupTest 0) = .mainTest 0 ∧ s.tracker.waitForPid pid qid (.mainTest 0) = .returned 0

instance (s : StoreProvider) (pid qid : UInt64) : Decidable (WaitPasses s pid qid) :=
  inferInstanceAs (Decidable (_ ∧ _))

theorem waitPasses_iff {s : StoreProvider} {pid qid : UInt64} :
    WaitPasses s pid qid ↔ s.tracker.isDuplicate pid qid = false ∧ pid ≤ s.tracker.mainRecord.lastPid := by
  unfold WaitPasses PidTracker.waitForPid
  refine and_congr ?_ ?_
  · cases s.tracker.isDuplicate pid qid <;> simp
  · by_cases hp : pid > s.tracker.mainRecord.lastPid
    · simp [hp]
    · simp [hp, not_lt.1 hp]

/-- The id keeps the watermark below it: the call that took it from the sequence has thrown, or its store task has, or
the call is still in progress. -/
def Stuck (h : List FailEvent) (s : StoreProvider) (pid : UInt64) : Prop :=
  LostId h pid ∨ ∃ qid m, .provider (.enqueueCalled true pid qid m) ∈ h ∧
    ∃ pc pae, .enqueue pc pae ∈ s.threads ∧ pae.opId = (pid, qid)

namespace FailInv

variable {h : List FailEvent} {s g : StoreProvider} {φ : Entries} {next : Nat}

/-- An id that is stuck has an enqueue that is not done. -/
theorem open_of_stuck (hi : FailInv h s g φ next) {p : UInt64} (hp : Stuck h s p) :
    ∃ q, ∃ e ∈ φ (p, q), e.newId = true ∧ e.stage ≠ .done := by
  rcases hp with hl | ⟨q, m, hm, pc, pae, ht, hk⟩
  · obtain ⟨e, he, hn⟩ := (hi.lost p).2 hl
    exact ⟨0, e, he, hn, by rw [(hi.failed _ (hi.live_zero p) e he).1]; simp⟩
  · obtain ⟨e, he, het⟩ := hi.enqueues.entry_of_mem (hi.follows.mem ht) rfl
    have hk' : (Thread.enqueue pc pae).key = (p, q) := hk
    rw [hk'] at he
    by_cases hs : .storeFailed p q ∈ h
    · obtain ⟨e, he, hn⟩ := (hi.lost p).2 (Or.inr ⟨q, m, hm, hs⟩)
      exact ⟨0, e, he, hn, by rw [(hi.failed _ (hi.live_zero p) e he).1]; simp⟩
    · obtain ⟨-, e', he', hn⟩ := (hi.kept p q).1 ⟨⟨m, hm⟩, hs⟩
      cases Option.mem_unique he he'
      refine ⟨q, e, he, hn, fun hdone => ?_⟩
      rw [Entry.thread, hdone] at het
      cases het

/-- With no store task, the id of an enqueue that is not done is stuck. -/
theorem stuck_of_open (hi : FailInv h s g φ next) (hquiet : ∀ pc pae, .store pc pae ∉ s.threads) {p q : UInt64}
    {e : Entry} (he : e ∈ φ (p, q)) (hn : e.newId = true) (hst : e.stage ≠ .done) : Stuck h s p := by
  by_cases hq : q = 0
  · subst hq
    exact Or.inl ((hi.lost p).1 ⟨e, he, hn⟩)
  · obtain ⟨⟨m, hm⟩, -⟩ := (hi.kept p q).2 ⟨hq, e, he, hn⟩
    refine Or.inr ⟨q, m, hm, ?_⟩
    cases het : e.thread with
    | none => exact absurd (EnqueueSide.stage_of_thread het) hst
    | some t =>
      have hkey : t.key = (p, q) := (EnqueueSide.key_of_thread het).1.trans ((hi.enqueues _).key e he)
      have hlive : liveEnqueue h (p, q) = true := by
        by_contra hdead
        have hn' := (hi.failed _ (by simpa using hdead) e he).2
        rw [hn] at hn'
        exact hq (of_decide_eq_true hn'.symm)
      have hmem : t ∈ s.threads := by
        have hpos := List.count_pos_iff.2 (hi.enqueues.mem_of_entry he het)
        rw [hi.follows.threads t fun _ => hkey ▸ hlive] at hpos
        exact List.count_pos_iff.1 hpos
      cases t with
      | enqueue pc pae => exact ⟨pc, pae, hmem, hkey⟩
      | store pc pae => exact absurd hmem (hquiet pc pae)
      | dequeue pc pid qid => cases (EnqueueSide.key_of_thread het).2
      | asyncDequeue pc pid qid => cases (EnqueueSide.key_of_thread het).2

end FailInv

theorem failInv_of_run {s₀ : StoreProvider} (hs₀ : s₀.Empty) {h : List FailEvent} {s : StoreProvider}
    (hrun : Run StoreProvider.failStep Retrying s₀ h s) : ∃ g φ next, FailInv h s g φ next := by
  refine hrun.invariant (I := fun h s => ∃ g φ next, FailInv h s g φ next) ⟨_, _, _, FailInv.start hs₀⟩ ?_
  rintro h s a s' ev ⟨g, φ, next, hi⟩ hok hst
  exact hi.step hok hst

/-- For every run with failures and every state of it in which no store task is queued or running: a wait for a
message whose store is complete ends at once exactly when no id up to that of the message is stuck. -/
theorem wait_passes_iff {s₀ : StoreProvider} (hs₀ : s₀.Empty) {h : List FailEvent} {s : StoreProvider}
    (hrun : Run StoreProvider.failStep Retrying s₀ h s) (hquiet : ∀ pc pae, .store pc pae ∉ s.threads)
    {pid qid : UInt64} (hstored : .stored pid qid ∈ h) : WaitPasses s pid qid ↔ ∀ x ≤ pid, ¬ Stuck h s x := by
  obtain ⟨g, φ, next, hi⟩ := failInv_of_run hs₀ hrun
  obtain ⟨e, he, hdone⟩ := hi.stored pid qid hstored
  have hdup : s.tracker.isDuplicate pid qid = false := by
    by_contra hd
    rw [← hi.follows.tracker] at hd
    obtain ⟨e', he', -, hreg⟩ := (hi.enqueues (pid, qid)).duplicate.1 (by simpa using hd)
    cases Option.mem_unique he he'
    rw [hdone] at hreg
    cases hreg
  rw [waitPasses_iff, and_iff_right hdup, ← hi.follows.tracker]
  constructor
  · -- an id up to the watermark is covered, so its enqueue is done
    intro hle x hx hstuck
    obtain ⟨q, e', he', hn, hst⟩ := hi.open_of_stuck hstuck
    exact hst (hi.watermark.covered (x, q) e' he' hn (Or.inl (hx.trans hle)))
  · intro hfree
    refine PidRecord.le_lastPid_of_covers hi.watermark.sound hi.watermark.le_lastPid fun x h0 hx => ?_
    have hlt : x.toNat < next :=
      lt_of_le_of_lt (UInt64.le_iff_toNat_le.1 hx) (hi.entry_lt (pid, qid) fun hnone => by rw [hnone] at he; cases he)
    have hpos : 1 ≤ x.toNat := UInt64.lt_iff_toNat_lt.1 h0
    obtain ⟨q, e', he', hn⟩ := (hi.allotted.ids x).2 (Or.inr ⟨hpos, hlt⟩)
    refine hi.allotted.settled (x, q) e' he' hn ?_
    by_contra hst
    exact hfree x hx (hi.stuck_of_open hquiet he' hn hst)

/-- Message 1 is stored; the call for the next message throws. -/
def failAfterStore : List FailAction := (enqueueCall 0 1 1 ++ storeTask 1 1).map .provider ++ [.failEnqueue 0 1]

theorem wait_passes_before_failure :
    WaitPasses (Run.exec StoreProvider.failStep [] (singleQueue false) failAfterStore).2 1 1 ∧
      ∀ x ≤ 1, ¬ Stuck (Run.exec StoreProvider.failStep [] (singleQueue false) failAfterStore).1
        (Run.exec StoreProvider.failStep [] (singleQueue false) failAfterStore).2 x := by
  have hthreads : (Run.exec StoreProvider.failStep [] (singleQueue false) failAfterStore).2.threads = [] := by
    decide +kernel
  have hpasses : WaitPasses (Run.exec StoreProvider.failStep [] (singleQueue false) failAfterStore).2 1 1 := by
    decide +kernel
  exact ⟨hpasses, (wait_passes_iff (empty_singleQueue false) (Run.exec_of_allowed Run.nil (by decide +kernel))
    (fun pc pae ht => by rw [hthreads] at ht; cases ht) (by decide +kernel)).1 hpasses⟩

/-- The call for the first message throws, and is made again with the id that was set; both this message and the next
one are stored. -/
def failAndRetry : List FailAction :=
  .failEnqueue 0 1 ::
    (enqueueCall 1 1 1 ++ (storeTask 1 1).take 3 ++ enqueueCall 0 2 1 ++ storeTask 2 1).map .provider

/-- The wait for the second message does not end. -/
theorem failed_enqueue_blocks :
    ¬ ∀ (s₀ : StoreProvider), s₀.Empty → ∀ (h : List FailEvent) (s : StoreProvider),
      Run StoreProvider.failStep Retrying s₀ h s → (∀ pc pae, .store pc pae ∉ s.threads) →
      ∀ pid qid, .stored pid qid ∈ h → WaitPasses s pid qid := by
  intro hall
  have hthreads : (Run.exec StoreProvider.failStep [] (singleQueue false) failAndRetry).2.threads = [] := by
    decide +kernel
  have hallowed : Run.Allowed StoreProvider.failStep Retrying [] (singleQueue false) failAndRetry := by decide +kernel
  have hpasses := hall _ (empty_singleQueue false) _ _ (Run.exec_of_allowed Run.nil hallowed)
    (fun pc pae ht => by rw [hthreads] at ht; cases ht) 2 1 (by decide +kernel)
  revert hpasses
  decide +kernel

end BdbMsgStore

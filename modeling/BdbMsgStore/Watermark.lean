import BdbMsgStore.EnqueueSide

/-!
# The watermark

The main record of the tracker covers ids: those up to its watermark `lastPid` and those of its gap set.  Only the
last step of a store task adds an id to it.  `RecordStep` says once what a step does to the main record and to the
enqueues, and the invariants below are derived from it.

* `Tracked`: the record is sound, and what it covers are ids up to a base and ids that calls have allocated;
* `Watermark`: an id that a call has allocated is covered only after its store task is done.
-/

namespace BdbMsgStore

open StoreProvider

/-! ### Steps -/

/-- What a step does to the main record, to the sequence of ids and to the enqueues. -/
inductive RecordStep (s s' : StoreProvider) (φ φ' : Entries) : Action → Prop where
  | same {a : Action} (hrec : s'.tracker.mainRecord = s.tracker.mainRecord)
      (hseq : s'.messageIdSequence = s.messageIdSequence) (hφ : φ' = φ) : RecordStep s s' φ φ' a
  | call {messageId qid : UInt64} {m : Message} (hnew : φ (s.enqueueId messageId, qid) = none)
      (hrec : s'.tracker.mainRecord = s.tracker.mainRecord)
      (hseq : s'.messageIdSequence = if messageId = 0 then s.messageIdSequence.next.2 else s.messageIdSequence)
      (hφ : φ' = φ.next s (.enqueue messageId qid m)) : RecordStep s s' φ φ' (.enqueue messageId qid m)
  | advance {t : Thread} {k : PendingOperationId} {e : Entry} (he : φ k = some e) (hdone : e.stage ≠ .done)
      (hnew : e.newId = true → (e.next s).stage ≠ .done) (hrec : s'.tracker.mainRecord = s.tracker.mainRecord)
      (hseq : s'.messageIdSequence = s.messageIdSequence) (hφ : φ' = Function.update φ k (some (e.next s))) :
      RecordStep s s' φ φ' (.advance t)
  | addPid {t : Thread} {k : PendingOperationId} {e : Entry} (he : φ k = some e) (hstage : e.stage = .addPidMain)
      (hnew : e.newId = true) (hrec : s'.tracker.mainRecord = (s.tracker.mainRecord.addPid k.1).2)
      (hseq : s'.messageIdSequence = s.messageIdSequence) (hφ : φ' = Function.update φ k (some (e.next s))) :
      RecordStep s s' φ φ' (.advance t)

namespace RecordStep

variable {old : PendingOperationId → Prop} {h ev : List Event} {s s' : StoreProvider} {φ φ' : Entries} {a : Action}

/-- The enqueue of a new id ends with the step that adds it to the main record. -/
private theorem next_ne_done {k : PendingOperationId} {e : Entry} (hx : EnqueueInv old h s k (some e))
    (hdone : e.stage ≠ .done) (hmain : e.stage ≠ .addPidMain) (hnew : e.newId = true) : (e.next s).stage ≠ .done := by
  have hdup : s.tracker.isDuplicate e.pae.msgId e.pae.queueId = false := by
    have hkey : e.pae.opId = k := hx.key e rfl
    have hd := hx.duplicate
    rw [← hkey] at hd
    cases hdup : s.tracker.isDuplicate e.pae.msgId e.pae.queueId with
    | false => rfl
    | true =>
      obtain ⟨e', he', hn, -⟩ := hd.1 hdup
      cases he'
      rw [hnew] at hn
      cases hn
  show e.nextStage s ≠ .done
  unfold Entry.nextStage
  cases hstage : e.stage with
  | logStart => cases s.enableSmartAsync <;> simp
  | schedule => cases s.enableSmartAsync <;> simp
  | check => cases s.tracker.isPending e.pae.msgId e.pae.queueId <;> simp
  | addPidDup => simp [hdup]
  | addPidMain => exact absurd hstage hmain
  | done => exact absurd hstage hdone
  | _ => simp

private theorem of_advance (hs : EnqueueSide old h s φ) {t : Thread} (hst : s.step (.advance t) = some (s', ev)) :
    RecordStep s s' φ (φ.next s (.advance t)) (.advance t) := by
  obtain ⟨ht, rfl, -⟩ := step_advance hst
  have hrec := mainRecord_runThread (s := s) t
  have hseq := messageIdSequence_runThread (s := s) t
  by_cases hte : t.isEnqueue = true
  · obtain ⟨e, he, het⟩ := hs.entry_of_mem ht hte
    have hx := hs t.key
    rw [he] at hx
    have hφ := Entries.next_advance (s := s) hte he
    by_cases hm : e.stage = .addPidMain
    · obtain rfl : t = .store .addPidMain e.pae := by
        rw [Entry.thread, hm] at het
        exact (Option.some.inj het).symm
      exact .addPid he hm (hx.main e rfl hm) hrec hseq hφ
    · have hdone : e.stage ≠ .done := by
        intro hd
        rw [Entry.thread, hd] at het
        cases het
      refine .advance he hdone (next_ne_done hx hdone hm) (hrec.trans ?_) hseq hφ
      split
      · exfalso
        obtain ⟨pae, newId, stage⟩ := e
        cases stage <;> cases het
        exact hm rfl
      · rfl
  · -- dequeues do not touch the main record
    have hte' : t.isEnqueue = false := by simpa using hte
    refine .same (hrec.trans ?_) hseq (Entries.next_advance_dequeue hte')
    split
    · cases hte'
    · rfl

theorem of_step (hs : EnqueueSide old h s φ)
    (hnew : ∀ messageId qid m, a = .enqueue messageId qid m → φ (s.enqueueId messageId, qid) = none)
    (hst : s.step a = some (s', ev)) : RecordStep s s' φ (φ.next s a) a := by
  cases a with
  | enqueue messageId qid m =>
    obtain ⟨-, -, rfl, -⟩ := step_enqueue hst
    refine .call (hnew messageId qid m rfl) ?_ rfl rfl
    show (if messageId = 0 then s.tracker else s.tracker.addDuplicate messageId qid).mainRecord = _
    split <;> rfl
  | dequeue pid qid =>
    obtain ⟨rfl, -⟩ := step_dequeue hst
    exact .same rfl rfl rfl
  | advance t => exact of_advance hs hst
  | cleanEnqueueLog =>
    cases hst
    exact .same rfl rfl rfl
  | cleanDequeueLog =>
    cases hst
    exact .same rfl rfl rfl

end RecordStep

/-- The entries with a new id, after a step of the entry of one pair. -/
theorem newId_update {s : StoreProvider} {φ : Entries} {k k' : PendingOperationId} {e : Entry} (he : φ k = some e) :
    (∃ e' ∈ Function.update φ k (some (e.next s)) k', e'.newId = true) ↔ ∃ e' ∈ φ k', e'.newId = true := by
  by_cases hk : k' = k
  · subst hk
    rw [Function.update_self, he]
    simp [Entry.next]
  · rw [Function.update_of_ne hk]

/-- The entries with a new id, after a call on a pair without an entry. -/
theorem newId_call {s : StoreProvider} {φ : Entries} {messageId qid : UInt64} {m : Message}
    (hnew : φ (s.enqueueId messageId, qid) = none) (k : PendingOperationId) :
    (∃ e ∈ φ.next s (.enqueue messageId qid m) k, e.newId = true) ↔
      (∃ e ∈ φ k, e.newId = true) ∨ (messageId = 0 ∧ k = (s.messageIdSequence.next.1, qid)) := by
  rw [Entries.next_enqueue]
  by_cases hk : k = (s.enqueueId messageId, qid)
  · subst hk
    rw [Function.update_self, hnew]
    simp only [Option.mem_def, Option.some.injEq, exists_eq_left', decide_eq_true_eq, reduceCtorEq, false_and,
      exists_false, false_or]
    constructor
    · intro hm
      exact ⟨hm, by simp [enqueueId, hm]⟩
    · exact fun hm => hm.1
  · rw [Function.update_of_ne hk]
    constructor
    · exact Or.inl
    · rintro (he | ⟨hm, hk'⟩)
      · exact he
      · exact absurd (hk'.trans (by simp [enqueueId, hm])) hk

/-! ### What the main record covers, in a run -/

/-- The main record against the ids that calls have allocated.  Ids up to `base` are covered from the start. -/
structure Tracked (base : UInt64) (s : StoreProvider) (φ : Entries) : Prop where
  sound : s.tracker.mainRecord.Sound
  le_lastPid : base ≤ s.tracker.mainRecord.lastPid
  issued : ∀ p, s.tracker.mainRecord.Covers p → p ≤ base ∨ ∃ q, ∃ e ∈ φ (p, q), e.newId = true
  window : ∀ k, (∃ e ∈ φ k, e.newId = true) → k.1.toNat < s.tracker.mainRecord.lastPid.toNat + 2 ^ 31

/-- An id that a call allocates is within reach of the watermark. -/
def InReach (s : StoreProvider) : Action → Prop
  | .enqueue messageId _ _ =>
    messageId = 0 → s.messageIdSequence.next.1.toNat < s.tracker.mainRecord.lastPid.toNat + 2 ^ 31
  | _ => True

namespace Tracked

variable {base : UInt64} {s s' : StoreProvider} {φ φ' : Entries} {a : Action}

/-- A step that leaves the main record alone and keeps the allocated ids. -/
private theorem mono (ht : Tracked base s φ) (hrec : s'.tracker.mainRecord = s.tracker.mainRecord)
    (hkeep : ∀ k, (∃ e ∈ φ k, e.newId = true) → ∃ e ∈ φ' k, e.newId = true)
    (hwin : ∀ k, (∃ e ∈ φ' k, e.newId = true) → k.1.toNat < s.tracker.mainRecord.lastPid.toNat + 2 ^ 31) :
    Tracked base s' φ' where
  sound := hrec ▸ ht.sound
  le_lastPid := hrec ▸ ht.le_lastPid
  issued := by
    intro p hp
    rcases ht.issued p (hrec ▸ hp) with hb | ⟨q, hq⟩
    · exact Or.inl hb
    · exact Or.inr ⟨q, hkeep _ hq⟩
  window := hrec ▸ hwin

theorem step (ht : Tracked base s φ) (hstep : RecordStep s s' φ φ' a) (hid : InReach s a) : Tracked base s' φ' := by
  cases hstep with
  | same hrec _ hφ =>
    subst hφ
    exact ht.mono hrec (fun _ => id) ht.window
  | call hnew hrec _ hφ =>
    subst hφ
    refine ht.mono hrec (fun k hk => (newId_call hnew k).2 (Or.inl hk)) fun k hk => ?_
    rcases (newId_call hnew k).1 hk with hk | ⟨hm, rfl⟩
    · exact ht.window k hk
    · exact hid hm
  | advance he _ _ hrec _ hφ =>
    subst hφ
    exact ht.mono hrec (fun k => (newId_update he).2) fun k hk => ht.window k ((newId_update he).1 hk)
  | @addPid _ k e he _ hnew hrec _ hφ =>
    subst hφ
    obtain ⟨hsound, hle, hcov⟩ := PidRecord.addPid_spec ht.sound (ht.window k ⟨e, he, hnew⟩)
    rw [← hrec] at hsound hle hcov
    refine ⟨hsound, le_trans ht.le_lastPid hle, fun p hp => ?_, fun k' hk' => ?_⟩
    · rcases (hcov p).1 hp with hp | rfl
      · rcases ht.issued p hp with hb | ⟨q, hq⟩
        · exact Or.inl hb
        · exact Or.inr ⟨q, (newId_update he).2 hq⟩
      · exact Or.inr ⟨k.2, (newId_update he).2 ⟨e, he, hnew⟩⟩
    · have hwin := ht.window k' ((newId_update he).1 hk')
      have hle' := UInt64.le_iff_toNat_le.1 hle
      omega

end Tracked

/-! ### Covered ids are stored -/

/-- The main record against the enqueues.  Ids up to `base` are covered from the start. -/
structure Watermark (base : UInt64) (s : StoreProvider) (φ : Entries) : Prop where
  sound : s.tracker.mainRecord.Sound
  stopped : s.tracker.stopped = false
  le_lastPid : base ≤ s.tracker.mainRecord.lastPid
  issued : ∀ p, s.tracker.mainRecord.Covers p → p ≤ base ∨ ∃ q, ∃ e ∈ φ (p, q), e.newId = true
  covered : ∀ k, ∀ e ∈ φ k, e.newId = true → s.tracker.mainRecord.Covers k.1 → e.stage = .done
  unique : ∀ p q q', (∃ e ∈ φ (p, q), e.newId = true) → (∃ e ∈ φ (p, q'), e.newId = true) → q = q'
  window : ∀ k, ∀ e ∈ φ k, e.newId = true → k.1.toNat < s.tracker.mainRecord.lastPid.toNat + 2 ^ 31

namespace Watermark

variable {old : PendingOperationId → Prop} {h ev : List Event} {base : UInt64} {s s' : StoreProvider} {φ φ' : Entries}
  {a : Action}

theorem tracked (hw : Watermark base s φ) : Tracked base s φ :=
  ⟨hw.sound, hw.le_lastPid, hw.issued, fun k ⟨e, he, hnew⟩ => hw.window k e he hnew⟩

/-- What a call must satisfy: a new id is above `base`, within reach of the watermark, and not in use. -/
def FreshId (base : UInt64) (s : StoreProvider) (φ : Entries) : Action → Prop
  | .enqueue messageId _ _ =>
    messageId = 0 → base < s.messageIdSequence.next.1 ∧
      s.messageIdSequence.next.1.toNat < s.tracker.mainRecord.lastPid.toNat + 2 ^ 31 ∧
      ∀ q, ∀ e ∈ φ (s.messageIdSequence.next.1, q), e.newId = false
  | _ => True

theorem FreshId.inReach (hid : FreshId base s φ a) : InReach s a := by
  cases a with
  | enqueue messageId qid m => exact fun hm => (hid hm).2.1
  | _ => trivial

/-- An id that has just been allocated is not covered. -/
private theorem not_covers_fresh (hw : Watermark base s φ) {messageId qid : UInt64} {m : Message}
    (hid : FreshId base s φ (.enqueue messageId qid m)) (hm : messageId = 0) :
    ¬ s.tracker.mainRecord.Covers s.messageIdSequence.next.1 := by
  intro hcov
  obtain ⟨hb, -, hf⟩ := hid hm
  rcases hw.issued _ hcov with hle | ⟨q, e, he, hn⟩
  · exact absurd hle (not_le.2 hb)
  · rw [hf q e he] at hn
    cases hn

private theorem covered_step (hw : Watermark base s φ) (hstep : RecordStep s s' φ φ' a) (hid : FreshId base s φ a) :
    ∀ k, ∀ e ∈ φ' k, e.newId = true → s'.tracker.mainRecord.Covers k.1 → e.stage = .done := by
  intro k' e' he' hnew' hcov
  cases hstep with
  | same hrec _ hφ =>
    subst hφ
    exact hw.covered k' e' he' hnew' (hrec ▸ hcov)
  | @call messageId qid m hnew hrec _ hφ =>
    subst hφ
    rw [hrec] at hcov
    by_cases hk : k' = (s.enqueueId messageId, qid)
    · subst hk
      rw [Entries.next_enqueue, Function.update_self] at he'
      cases he'
      have hm : messageId = 0 := of_decide_eq_true hnew'
      rw [show s.enqueueId messageId = s.messageIdSequence.next.1 from by simp [enqueueId, hm]] at hcov
      exact absurd hcov (hw.not_covers_fresh hid hm)
    · rw [Entries.next_enqueue, Function.update_of_ne hk] at he'
      exact hw.covered k' e' he' hnew' hcov
  | @advance _ k e he hdone _ hrec _ hφ =>
    subst hφ
    rw [hrec] at hcov
    by_cases hk : k' = k
    · subst hk
      rw [Function.update_self] at he'
      cases he'
      exact absurd (hw.covered k' e he hnew' hcov) hdone
    · rw [Function.update_of_ne hk] at he'
      exact hw.covered k' e' he' hnew' hcov
  | @addPid _ k e he hstage hnew hrec _ hφ =>
    subst hφ
    rw [hrec] at hcov
    by_cases hk : k' = k
    · subst hk
      rw [Function.update_self] at he'
      cases he'
      simp [Entry.next, Entry.nextStage, hstage]
    · rw [Function.update_of_ne hk] at he'
      rcases ((PidRecord.addPid_spec hw.sound (hw.window k e he hnew)).2.2 k'.1).1 hcov with hc | hp
      · exact hw.covered k' e' he' hnew' hc
      · -- another pair with the same new id
        have hq : k'.2 = k.2 := hw.unique k.1 k'.2 k.2 ⟨e', by rw [← hp]; exact he', hnew'⟩ ⟨e, he, hnew⟩
        exact absurd (Prod.ext hp hq) hk

private theorem unique_step (hw : Watermark base s φ) (hstep : RecordStep s s' φ φ' a) (hid : FreshId base s φ a) :
    ∀ p q q', (∃ e ∈ φ' (p, q), e.newId = true) → (∃ e ∈ φ' (p, q'), e.newId = true) → q = q' := by
  intro p q q' h1 h2
  cases hstep with
  | same _ _ hφ =>
    subst hφ
    exact hw.unique p q q' h1 h2
  | @call messageId qid m hnew _ _ hφ =>
    subst hφ
    have hfresh : ∀ q, messageId = 0 → ¬ ∃ e ∈ φ (s.messageIdSequence.next.1, q), e.newId = true := by
      rintro q hm ⟨e, he, hn⟩
      rw [(hid hm).2.2 q e he] at hn
      cases hn
    rcases (newId_call hnew _).1 h1 with h1' | ⟨hm, hk1⟩
    · rcases (newId_call hnew _).1 h2 with h2' | ⟨hm, hk2⟩
      · exact hw.unique p q q' h1' h2'
      · cases hk2
        exact absurd h1' (hfresh q hm)
    · cases hk1
      rcases (newId_call hnew _).1 h2 with h2' | ⟨-, hk2⟩
      · exact absurd h2' (hfresh q' hm)
      · cases hk2
        rfl
  | advance he _ _ _ _ hφ =>
    subst hφ
    exact hw.unique p q q' ((newId_update he).1 h1) ((newId_update he).1 h2)
  | addPid he _ _ _ _ hφ =>
    subst hφ
    exact hw.unique p q q' ((newId_update he).1 h1) ((newId_update he).1 h2)

theorem of_recordStep (hw : Watermark base s φ) (hstep : RecordStep s s' φ φ' a) (hid : FreshId base s φ a)
    (hstop : s'.tracker.stopped = s.tracker.stopped) : Watermark base s' φ' := by
  have ht := hw.tracked.step hstep hid.inReach
  exact
    { sound := ht.sound
      stopped := hstop.trans hw.stopped
      le_lastPid := ht.le_lastPid
      issued := ht.issued
      covered := hw.covered_step hstep hid
      unique := hw.unique_step hstep hid
      window := fun k e he hn => ht.window k ⟨e, he, hn⟩ }

/-- Every step preserves the invariant of the watermark. -/
theorem step (hs : EnqueueSide old h s φ) (hw : Watermark base s φ)
    (hnew : ∀ messageId qid m, a = .enqueue messageId qid m → φ (s.enqueueId messageId, qid) = none)
    (hid : FreshId base s φ a) (hst : s.step a = some (s', ev)) : Watermark base s' (φ.next s a) :=
  hw.of_recordStep (RecordStep.of_step hs hnew hst) hid (step_stopped hst)

end Watermark

end BdbMsgStore

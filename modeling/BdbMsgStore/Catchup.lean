import BdbMsgStore.AfterRecovery
import BdbMsgStore.Watermark

/-!
# The watermark after recovery

Recovery sets the watermark to the largest id of a persistent message in the databases, lets the ids of new messages
start after the largest id of a database or of the log, and schedules the stores of the pending ids.  The watermark
moves over an id only when its store task has added it, so it passes the ids between the two only if all of them are
pending.  An id in between that was used and consumed before the crash is a hole, and the watermark stops below it
for good.  `watermark_catches_up` says that this is the only way in which it can be stuck.
-/

namespace BdbMsgStore

open StoreProvider

/-! ### The ids in use since recovery -/

/-- The ids that store tasks add to the main record: those of the pairs whose stores recovery has scheduled
(`resurrected`), and those that the sequence has returned, from `first` up to and without `next`. -/
structure Allotted (resurrected : PendingOperationId → Prop) (first next : Nat) (h : List Event) (s : StoreProvider)
    (φ : Entries) : Prop where
  settled : ∀ k, ∀ e ∈ φ k, e.newId = true → e.stage = .done → s.tracker.mainRecord.Covers k.1
  ids : ∀ p : UInt64, (∃ q, ∃ e ∈ φ (p, q), e.newId = true) ↔
    (∃ q, resurrected (p, q)) ∨ (first ≤ p.toNat ∧ p.toNat < next)
  called : ∀ p q m, .enqueueCalled true p q m ∈ h → p.toNat < next
  sequence : s.messageIdSequence.id.toNat = next % 2 ^ 64
  first_le : first ≤ next
  next_le : next ≤ 2 ^ 64

/-- An event with a new id is that of a call without an id. -/
theorem enqueueCalled_of_step {s s' : StoreProvider} {a : Action} {ev : List Event} (hst : s.step a = some (s', ev))
    {newId : Bool} {p q : UInt64} {m : Message} (hm : .enqueueCalled newId p q m ∈ ev) :
    ∃ messageId, a = .enqueue messageId q m ∧ p = s.enqueueId messageId ∧ newId = decide (messageId = 0) := by
  cases a with
  | enqueue messageId qid m' =>
    obtain ⟨-, -, -, rfl⟩ := step_enqueue hst
    cases List.mem_singleton.1 hm
    exact ⟨messageId, rfl, rfl, rfl⟩
  | dequeue pid qid =>
    obtain ⟨-, rfl⟩ := step_dequeue hst
    cases List.mem_singleton.1 hm
  | advance t =>
    obtain ⟨-, -, rfl⟩ := step_advance hst
    exact absurd hm (enqueueCalled_notMem_runThread t newId p q m)
  | cleanEnqueueLog => cases hst; cases hm
  | cleanDequeueLog => cases hst; cases hm

namespace Allotted

variable {old resurrected : PendingOperationId → Prop} {first next : Nat} {h ev : List Event} {s s' : StoreProvider}
  {φ φ' : Entries} {a : Action} {base : UInt64}

/-- A step that takes no id. -/
theorem mono (hal : Allotted resurrected first next h s φ)
    (hseq : s'.messageIdSequence = s.messageIdSequence)
    (hset : ∀ k, ∀ e ∈ φ' k, e.newId = true → e.stage = .done → s'.tracker.mainRecord.Covers k.1)
    (hids : ∀ p, (∃ q, ∃ e ∈ φ' (p, q), e.newId = true) ↔ ∃ q, ∃ e ∈ φ (p, q), e.newId = true)
    (hev : ∀ p q m, .enqueueCalled true p q m ∉ ev) : Allotted resurrected first next (h ++ ev) s' φ' where
  settled := hset
  ids := by
    intro p
    rw [← hal.ids p, hids p]
  called := by
    intro p q m hm
    rcases List.mem_append.1 hm with hm | hm
    · exact hal.called p q m hm
    · exact absurd hm (hev p q m)
  sequence := hseq ▸ hal.sequence
  first_le := hal.first_le
  next_le := hal.next_le

/-- The entries that are done, after a step of an entry that stays below its end. -/
theorem settled_update (hal : Allotted resurrected first next h s φ) {k : PendingOperationId} {x : Entry}
    (hx : x.newId = true → x.stage ≠ .done) (hrec : s'.tracker.mainRecord = s.tracker.mainRecord) :
    ∀ k', ∀ e ∈ Function.update φ k (some x) k', e.newId = true → e.stage = .done →
      s'.tracker.mainRecord.Covers k'.1 := by
  intro k' e he hnew hdone
  rw [hrec]
  by_cases hk : k' = k
  · subst hk
    rw [Function.update_self] at he
    cases he
    exact absurd hdone (hx hnew)
  · rw [Function.update_of_ne hk] at he
    exact hal.settled k' e he hnew hdone

/-- Before the sequence wraps around, its next id is `next`. -/
theorem toNat_id (hal : Allotted resurrected first next h s φ) (hwrap : s.messageIdSequence.id ≠ 0) :
    s.messageIdSequence.id.toNat = next ∧ next < 2 ^ 64 := by
  have hseq := hal.sequence
  have hpos : 0 < s.messageIdSequence.id.toNat := by
    have := UInt64.lt_iff_toNat_lt.1 (UInt64.pos_iff_ne_zero.2 hwrap)
    simpa using this
  rcases Nat.lt_or_eq_of_le hal.next_le with hlt | he
  · rw [Nat.mod_eq_of_lt hlt] at hseq
    exact ⟨hseq, hlt⟩
  · rw [he, Nat.mod_self] at hseq
    omega

/-- A call that takes an id from the sequence. -/
theorem call (hal : Allotted resurrected first next h s φ) {qid : UInt64} {m : Message}
    (hnew : φ (s.enqueueId 0, qid) = none) (hwrap : s.messageIdSequence.id ≠ 0)
    (hrec : s'.tracker.mainRecord = s.tracker.mainRecord)
    (hseq : s'.messageIdSequence = s.messageIdSequence.next.2)
    (hev : ∀ p q m, .enqueueCalled true p q m ∈ ev → p = s.messageIdSequence.next.1) :
    Allotted resurrected first (next + 1) (h ++ ev) s' (φ.next s (.enqueue 0 qid m)) := by
  obtain ⟨hseq₀, hnext⟩ := hal.toNat_id hwrap
  have hfst : s.messageIdSequence.next.1 = s.messageIdSequence.id := by simp [IdSequence.next, hwrap]
  have hid : s.messageIdSequence.next.1.toNat = next := by rw [hfst, hseq₀]
  refine ⟨?_, fun p => ?_, fun p q m' hm => ?_, ?_, ?_, hnext⟩
  · rw [Entries.next_enqueue]
    exact hal.settled_update (fun _ => by simp) hrec
  · simp only [newId_call hnew, exists_or, true_and, Prod.mk.injEq, exists_and_left]
    have hp : (p = s.messageIdSequence.next.1 ∧ ∃ q, q = qid) ↔ p.toNat = next := by
      rw [← UInt64.toNat_inj, hid]
      simp
    rw [hal.ids p, hp, or_assoc]
    have hf := hal.first_le
    have hlast : (first ≤ p.toNat ∧ p.toNat < next) ∨ p.toNat = next ↔ first ≤ p.toNat ∧ p.toNat < next + 1 := by
      omega
    rw [hlast]
  · rcases List.mem_append.1 hm with hm | hm
    · have := hal.called p q m' hm
      omega
    · rw [hev p q m' hm, hid]
      omega
  · have hsucc : s.messageIdSequence.next.2.id = s.messageIdSequence.next.1 + 1 := rfl
    rw [hseq, hsucc, UInt64.toNat_add, hid]
    rfl
  · exact Nat.le_succ_of_le hal.first_le

theorem step (hs : EnqueueSide old h s φ) (ht : Tracked base s φ) (hal : Allotted resurrected first next h s φ)
    (hnew : ∀ messageId qid m, a = .enqueue messageId qid m → φ (s.enqueueId messageId, qid) = none)
    (hwrap : ∀ qid m, a = .enqueue 0 qid m → s.messageIdSequence.id ≠ 0) (hst : s.step a = some (s', ev)) :
    ∃ next, Allotted resurrected first next (h ++ ev) s' (φ.next s a) := by
  have hev : ∀ {p q m}, .enqueueCalled true p q m ∈ ev → a = .enqueue 0 q m ∧ p = s.messageIdSequence.next.1 := by
    intro p q m hm
    obtain ⟨messageId, rfl, rfl, hid⟩ := enqueueCalled_of_step hst hm
    have hid' : messageId = 0 := of_decide_eq_true hid.symm
    subst hid'
    exact ⟨rfl, rfl⟩
  have hstep := RecordStep.of_step hs hnew hst
  generalize hφ' : φ.next s a = φ' at hstep
  cases hstep with
  | same hrec hseq hφ =>
    subst hφ
    by_cases ha : ∃ qid m, a = .enqueue 0 qid m
    · -- a call changes the entries
      obtain ⟨qid, m, rfl⟩ := ha
      have hnone := hnew 0 qid m rfl
      rw [← hφ', Entries.next_enqueue, Function.update_self] at hnone
      cases hnone
    · exact ⟨next, hal.mono hseq (fun k e he hn hd => hrec ▸ hal.settled k e he hn hd) (fun _ => Iff.rfl)
        fun p q m hm => ha ⟨q, m, (hev hm).1⟩⟩
  | @call messageId qid m hnone hrec hseq hφ =>
    subst hφ
    by_cases hm : messageId = 0
    · subst hm
      exact ⟨next + 1, hal.call hnone (hwrap qid m rfl) hrec hseq fun p q m' hm' => (hev hm').2⟩
    · rw [if_neg hm] at hseq
      refine ⟨next, hal.mono hseq ?_ (fun p => exists_congr fun q => ?_) fun p q m' hm' => ?_⟩
      · rw [Entries.next_enqueue]
        exact hal.settled_update (fun _ => by simp) hrec
      · rw [newId_call hnone]
        simp [hm]
      · cases (hev hm').1
        exact hm rfl
  | advance he hdone hn hrec hseq hφ =>
    subst hφ
    exact ⟨next, hal.mono hseq (hal.settled_update hn hrec) (fun _ => exists_congr fun _ => newId_update he)
      fun p q m hm => (nomatch (hev hm).1)⟩
  | @addPid t k e he hstage hn hrec hseq hφ =>
    subst hφ
    have hcov := (PidRecord.addPid_spec ht.sound (ht.window k ⟨e, he, hn⟩)).2.2
    rw [← hrec] at hcov
    refine ⟨next, hal.mono hseq (fun k' e' he' hn' hd => ?_) (fun _ => exists_congr fun _ => newId_update he)
      fun p q m hm => (nomatch (hev hm).1)⟩
    rw [hcov]
    by_cases hk : k' = k
    · exact Or.inr (congrArg Prod.fst hk)
    · rw [Function.update_of_ne hk] at he'
      exact Or.inl (hal.settled k' e' he' hn' hd)

/-- With no enqueue in progress, the ids in use are covered. -/
theorem covers (hs : EnqueueSide old h s φ) (hal : Allotted resurrected first next h s φ)
    (hidle : ∀ t ∈ s.threads, t.isEnqueue = false) {p : UInt64}
    (hp : (∃ q, resurrected (p, q)) ∨ (first ≤ p.toNat ∧ p.toNat < next)) : s.tracker.mainRecord.Covers p := by
  obtain ⟨q, e, he, hn⟩ := (hal.ids p).2 hp
  exact hal.settled (p, q) e he hn (hs.stage_eq_done hidle he)

end Allotted

/-! ### The state that recovery finds -/

namespace RecoveryState

variable (r : RecoveryState) (queues : List UInt64)

/-- The ids are small enough for the comparisons of recovery and of the tracker: ids of records are at most `2 ^ 63`,
and a pending id exceeds the ids of the databases by less than `2 ^ 31`.  The flags of the log agree with those of the
messages. -/
structure InRange : Prop where
  small : ∀ q ∈ queues, ∀ p ∈ persistentIds (r.recordsOf q), p ≤ 0x8000000000000000
  agreeing : r.Agreeing queues
  reach : ∀ q ∈ queues, ∀ pae ∈ r.copies q,
    pae.msgId.toNat < 2 ^ 31 ∨ ∃ q' ∈ queues, ∃ p ∈ r.dbIds q', pae.msgId.toNat < p.toNat + 2 ^ 31

/-- Every id above those of the databases, up to the largest id of a record, is that of a pending enqueue among the
records. -/
def NoHole : Prop :=
  ∀ x, x ≠ 0 → (∀ q ∈ queues, ∀ p ∈ r.dbIds q, p < x) → r.Counted queues x →
    ∃ q ∈ queues, ∃ pae ∈ r.copies q, pae.msgId = x

end RecoveryState

/-- The id was taken from a database or from the log. -/
def RecoveryState.RecoveredId (r : RecoveryState) (queues : List UInt64) (p : UInt64) : Prop :=
  ∃ q ∈ queues, p ∈ persistentIds (r.recordsOf q)

section

variable {s : StoreProvider} {queues : List UInt64}

theorem mem_recordsOf_of_stored {q p : UInt64} {v : Bytes} (hv : (readLogs s).provider.stored p q = some v) :
    (p, v) ∈ (readLogs s).recordsOf q :=
  mem_recordsOf.2 (Or.inl hv)

theorem mem_persistentIds_of_dbIds {q p : UInt64} (hp : p ∈ (readLogs s).dbIds q) :
    p ∈ persistentIds ((readLogs s).recordsOf q) := by
  obtain ⟨v, hv, htr⟩ := RecoveryState.mem_dbIds.1 hp
  exact mem_persistentIds.2 ⟨v, mem_recordsOf_of_stored hv, htr⟩

theorem mem_persistentIds_of_copies {q : UInt64} (hj : s.journalList.contains q = true) {pae : PendingAsyncEnqueue}
    (hpae : pae ∈ (readLogs s).copies q) (htr : transientFlag pae.buff = false) :
    pae.msgId ∈ persistentIds ((readLogs s).recordsOf q) :=
  mem_persistentIds.2 ⟨pae.buff, mem_recordsOf.2 (Or.inr ⟨hj, pae, hpae, rfl, rfl⟩), htr⟩

variable (hq : Recoverable s queues) (hr : (readLogs s).InRange queues)

include hq hr

/-- The first watermark. -/
theorem RecoveryState.InRange.le_newestSettled_iff (x : UInt64) :
    x ≤ (readLogs s).newestSettled queues ↔ x = 0 ∨ ∃ q ∈ queues, ∃ p ∈ (readLogs s).dbIds q, x ≤ p :=
  RecoveryState.le_newestSettled_iff (readLogs_keyed s) (fun q hmem => (hq.2 q).1 hmem) hr.agreeing
    (fun q hmem p hp => hr.small q hmem p (mem_persistentIds_of_dbIds hp)) x

/-- A hole in terms of the first watermark and of the first new id. -/
theorem RecoveryState.InRange.noHole_iff :
    (readLogs s).NoHole queues ↔ ∀ x, (readLogs s).newestSettled queues < x → x ≤ (readLogs s).newestId queues →
      ∃ q ∈ queues, ∃ pae ∈ (readLogs s).copies q, pae.msgId = x := by
  have habove : ∀ x, (readLogs s).newestSettled queues < x ↔
      x ≠ 0 ∧ ∀ q ∈ queues, ∀ p ∈ (readLogs s).dbIds q, p < x := by
    intro x
    rw [← not_le, hr.le_newestSettled_iff hq, not_or]
    simp only [not_exists, not_and, not_le]
  constructor
  · intro hno x hlow hhigh
    obtain ⟨h0, hdb⟩ := (habove x).1 hlow
    exact hno x h0 hdb ((RecoveryState.le_newestId_iff hr.small x).1 hhigh)
  · intro hno x h0 hdb hcount
    exact hno x ((habove x).2 ⟨h0, hdb⟩) ((RecoveryState.le_newestId_iff hr.small x).2 hcount)

end

/-! ### The run after recovery -/

/-- What the broker may do after recovery: it enqueues a pair at most once, and not a pair whose store recovery has
scheduled; fewer than `2 ^ 31` ids are outstanding, and the sequence does not wrap around. -/
def Later (R : Recovered) (h : List Event) (s : StoreProvider) : Action → Prop
  | .enqueue messageId qid _ => ¬ Enqueued h (s.enqueueId messageId, qid) ∧
      (messageId ≠ 0 → R.entries (messageId, qid) = none) ∧
      (messageId = 0 → s.messageIdSequence.id ≠ 0 ∧
        s.messageIdSequence.next.1.toNat < s.tracker.mainRecord.lastPid.toNat + 2 ^ 31)
  | _ => True

instance (R : Recovered) (h : List Event) (s : StoreProvider) : ∀ a, Decidable (Later R h s a)
  | .enqueue messageId qid _ =>
    inferInstanceAs (Decidable (¬ Enqueued h (s.enqueueId messageId, qid) ∧
      (messageId ≠ 0 → R.entries (messageId, qid) = none) ∧
      (messageId = 0 → s.messageIdSequence.id ≠ 0 ∧
        s.messageIdSequence.next.1.toNat < s.tracker.mainRecord.lastPid.toNat + 2 ^ 31)))
  | .dequeue _ _ | .advance _ | .cleanEnqueueLog | .cleanDequeueLog => isTrue trivial

/-- What holds in every state of such a run. -/
structure LaterInv (R : Recovered) (base : UInt64) (first next : Nat) (h : List Event) (s : StoreProvider)
    (φ : Entries) : Prop where
  enqueues : EnqueueSide (fun k => R.entries k ≠ none) h s φ
  tracked : Tracked base s φ
  allotted : Allotted (fun k => R.entries k ≠ none) first next h s φ

namespace LaterInv

variable {R : Recovered} {base : UInt64} {first next : Nat} {h ev : List Event} {s s' : StoreProvider} {φ : Entries}
  {a : Action}

theorem step (hi : LaterInv R base first next h s φ)
    (hfirst : ∀ k, R.entries k ≠ none → k.1.toNat < first) (hok : Later R h s a) (hst : s.step a = some (s', ev)) :
    ∃ next, LaterInv R base first next (h ++ ev) s' (φ.next s a) := by
  have hnew : ∀ messageId qid m, a = .enqueue messageId qid m → φ (s.enqueueId messageId, qid) = none := by
    rintro messageId qid m rfl
    by_contra hne
    rcases (hi.enqueues _).known hne with henq | hold
    · exact hok.1 henq
    · by_cases hm : messageId = 0
      · -- the ids of the sequence are above those of the pending enqueues
        have hlt := hfirst _ hold
        have hle := hi.allotted.first_le
        have hwrap := (hok.2.2 hm).1
        obtain ⟨hseq, -⟩ := hi.allotted.toNat_id hwrap
        have hid : s.enqueueId messageId = s.messageIdSequence.id := by
          simp [enqueueId, hm, IdSequence.next, hwrap]
        simp only [hid] at hlt
        omega
      · refine hold ?_
        rw [show s.enqueueId messageId = messageId from if_neg hm]
        exact hok.2.1 hm
  have hwrap : ∀ qid m, a = .enqueue 0 qid m → s.messageIdSequence.id ≠ 0 := by
    rintro qid m rfl
    exact (hok.2.2 rfl).1
  have hreach : InReach s a := by
    cases a with
    | enqueue messageId qid m => exact fun hm => (hok.2.2 hm).2
    | _ => trivial
  obtain ⟨next', hal⟩ := hi.allotted.step hi.enqueues hi.tracked hnew hwrap hst
  exact ⟨next', hi.enqueues.step hnew hst, hi.tracked.step (RecordStep.of_step hi.enqueues hnew hst) hreach, hal⟩

/-- The first id of a new message, as a number. -/
private theorem toNat_first {newest : UInt64} (h : newest ≤ 0x8000000000000000) :
    (newest + 1).toNat = newest.toNat + 1 := by
  have hle := UInt64.le_iff_toNat_le.1 h
  rw [UInt64.toNat_add]
  simp only [UInt64.reduceToNat] at hle ⊢
  omega

theorem of_recovered {loadContent : UInt64 → Bytes → UInt64 → Bool} {queues : List UInt64} {s : StoreProvider}
    {smart : Bool} {R : Recovered} (h : RecoveredSpec loadContent queues (s.restart smart) R)
    (hq : Recoverable s queues) (hr : (readLogs (s.restart smart)).InRange queues) :
    let first := ((readLogs (s.restart smart)).newestId queues).toNat + 1
    LaterInv R ((readLogs (s.restart smart)).newestSettled queues) first first [] R.provider R.entries ∧
      ∀ k, R.entries k ≠ none → k.1.toNat < first := by
  have hnewest : (readLogs (s.restart smart)).newestId queues ≤ 0x8000000000000000 := by
    rcases (RecoveryState.le_newestId_iff hr.small _).1 le_rfl with h0 | ⟨q, hmem, p, hp, hle⟩
    · rw [h0]
      exact UInt64.zero_le
    · exact hle.trans (hr.small q hmem p hp)
  have hnewId : ∀ k, (∃ e ∈ R.entries k, e.newId = true) ↔ R.entries k ≠ none := by
    intro k
    constructor
    · rintro ⟨e, he, -⟩ hnone
      rw [hnone] at he
      cases he
    · intro hne
      obtain ⟨e, he⟩ := Option.ne_none_iff_exists'.1 hne
      exact ⟨e, he, (h.entries_eq_some.1 he).2.2.2.1⟩
  have hstart : R.provider.tracker.mainRecord.lastPid = (readLogs (s.restart smart)).newestSettled queues := by
    rw [h.mainRecord]
  refine ⟨⟨h.enqueueSide, ?_, ?_⟩, fun k hk => ?_⟩
  · refine ⟨?_, le_of_eq hstart.symm, fun p hp => Or.inl ?_, fun k hk => ?_⟩
    · rw [h.mainRecord]
      intro g hg
      cases hg
    · rw [h.mainRecord] at hp
      rcases hp with hp | hp
      · exact hp
      · cases hp
    · -- a pending id is within reach of the largest id of the databases
      obtain ⟨hmem, pae, hpae, hp⟩ := (h.entries_ne_none hq).1 ((hnewId k).1 hk)
      rw [hstart, ← hp]
      rcases hr.reach k.2 hmem pae hpae with hlt | ⟨q', hq', p, hp', hlt⟩
      · omega
      · have hle := (hr.le_newestSettled_iff (hq.restart smart) p).2 (Or.inr ⟨q', hq', p, hp', le_rfl⟩)
        have := UInt64.le_iff_toNat_le.1 hle
        omega
  · refine ⟨fun k e he _ hdone => ?_, fun p => ?_, fun p q m hm => (nomatch hm), ?_, le_rfl, ?_⟩
    · have hstage := (h.entries_eq_some.1 he).2.2.2.2
      rw [hdone] at hstage
      cases smart <;> cases hstage
    · simp only [hnewId]
      have hnone : ¬ (((readLogs (s.restart smart)).newestId queues).toNat + 1 ≤ p.toNat ∧
          p.toNat < ((readLogs (s.restart smart)).newestId queues).toNat + 1) := by omega
      exact (or_iff_left hnone).symm
    · have hle := UInt64.le_iff_toNat_le.1 hnewest
      rw [h.messageIdSequence]
      show ((readLogs (s.restart smart)).newestId queues + 1).toNat = _
      rw [toNat_first hnewest]
      simp only [UInt64.reduceToNat] at hle
      omega
    · have hle := UInt64.le_iff_toNat_le.1 hnewest
      simp only [UInt64.reduceToNat] at hle
      omega
  · -- the message of a pending enqueue is a record of its queue
    obtain ⟨hmem, pae, hpae, hp⟩ := (h.entries_ne_none hq).1 hk
    have hrec := mem_persistentIds_of_copies (((hq.restart smart).2 _).1 hmem) hpae (hr.agreeing k.2 hmem pae hpae)
    have hle := (RecoveryState.le_newestId_iff hr.small pae.msgId).2 (Or.inr ⟨k.2, hmem, _, hrec, le_rfl⟩)
    rw [hp] at hle
    have := UInt64.le_iff_toNat_le.1 hle
    omega

end LaterInv

/-- The id was returned by the sequence for a new message. -/
def IssuedNew (h : List Event) (p : UInt64) : Prop := ∃ q m, .enqueueCalled true p q m ∈ h

/-- For every state that a crash leaves with ids in range, every recovery that returns, every later run and every
state of it in which no enqueue is in progress: the watermark has reached every id that was recovered or returned by
the sequence since, exactly when every id between those of the databases and the largest recovered id is that of a
pending enqueue that recovery takes from the log. -/
theorem watermark_catches_up (s : StoreProvider) {queues : List UInt64} (hq : Recoverable s queues) (smart : Bool)
    (loadContent : UInt64 → Bytes → UInt64 → Bool) (malloc : List PendingOperationId → Bool)
    (hr : (readLogs (s.restart smart)).InRange queues) {R : Recovered}
    (hR : recoverMessages loadContent malloc queues (s.restart smart) = some R) {h : List Event} {s' : StoreProvider}
    (hrun : Run StoreProvider.step (Later R) R.provider h s')
    (hidle : ∀ t ∈ s'.threads, t.isEnqueue = false) :
    (∀ p, (readLogs (s.restart smart)).RecoveredId queues p ∨ IssuedNew h p → p ≤ s'.tracker.mainRecord.lastPid) ↔
      (readLogs (s.restart smart)).NoHole queues := by
  have hspec := recoverMessages_spec (hq.restart smart) hR
  obtain ⟨hi₀, hfirst⟩ := LaterInv.of_recovered hspec hq hr
  obtain ⟨φ, next, hi⟩ : ∃ φ next, LaterInv _ _ _ next h s' φ := by
    refine hrun.invariant (I := fun h s => ∃ φ next, LaterInv _ _ _ next h s φ) ⟨_, _, hi₀⟩ ?_
    rintro h s a s' ev ⟨φ, next, hi⟩ hok hst
    obtain ⟨next', hi'⟩ := hi.step hfirst hok hst
    exact ⟨_, next', hi'⟩
  rw [hr.noHole_iff (hq.restart smart)]
  have hcount : ∀ p, (readLogs (s.restart smart)).RecoveredId queues p →
      p ≤ (readLogs (s.restart smart)).newestId queues :=
    fun p ⟨q, hmem, hp⟩ => (RecoveryState.le_newestId_iff hr.small p).2 (Or.inr ⟨q, hmem, p, hp, le_rfl⟩)
  constructor
  · -- what the watermark has passed was covered, and a recovered id can only come from the log
    intro hle x hlow hhigh
    have hx : x ≤ s'.tracker.mainRecord.lastPid := by
      rcases (RecoveryState.le_newestId_iff hr.small x).1 hhigh with h0 | ⟨q, hmem, p, hp, hxp⟩
      · rw [h0]
        exact UInt64.zero_le
      · exact hxp.trans (hle p (Or.inl ⟨q, hmem, hp⟩))
    rcases hi.tracked.issued x (Or.inl hx) with hb | hnew
    · exact absurd hb (not_le.2 hlow)
    · rcases (hi.allotted.ids x).1 hnew with ⟨q, hres⟩ | ⟨hge, -⟩
      · obtain ⟨hmem, pae, hpae, hp⟩ := (hspec.entries_ne_none hq).1 hres
        exact ⟨q, hmem, pae, hpae, hp⟩
      · have := UInt64.le_iff_toNat_le.1 hhigh
        omega
  · intro hno
    -- every id above the first watermark and in use is covered
    have hreach : ∀ n : UInt64, n.toNat < next ∨ n ≤ (readLogs (s.restart smart)).newestId queues →
        n ≤ s'.tracker.mainRecord.lastPid := by
      intro n hn
      refine PidRecord.le_lastPid_of_covers hi.tracked.sound hi.tracked.le_lastPid fun p hlow hpn => ?_
      refine hi.allotted.covers hi.enqueues hidle ?_
      by_cases hp : p ≤ (readLogs (s.restart smart)).newestId queues
      · obtain ⟨q, hmem, pae, hpae, hid⟩ := hno p hlow hp
        exact Or.inl ⟨q, (hspec.entries_ne_none hq).2 ⟨hmem, pae, hpae, hid⟩⟩
      · have h1 := UInt64.lt_iff_toNat_lt.1 (not_le.1 hp)
        have h2 := UInt64.le_iff_toNat_le.1 hpn
        refine Or.inr ⟨h1, ?_⟩
        rcases hn with hn | hn
        · omega
        · have := UInt64.le_iff_toNat_le.1 hn
          omega
    rintro p (hrec | ⟨q, m, hm⟩)
    · exact hreach p (Or.inr (hcount p hrec))
    · exact hreach p (Or.inl (hi.allotted.called p q m hm))

/-- The first message is in the database, the second is pending. -/
private def secondPending : List Action := enqueueCall 0 1 1 ++ storeTask 1 1 ++ enqueueCall 0 2 1

theorem watermark_catches_up_secondPending :
    (readLogs ((stateAfter secondPending).restart false)).RecoveredId [1] 2 ∧
      ∃ R, recoverySample (stateAfter secondPending) = some R ∧
        2 ≤ (Run.exec StoreProvider.step [] R.provider (storeTask 2 1)).2.tracker.mainRecord.lastPid := by
  have hq : Recoverable (stateAfter secondPending) [1] := recoverable_of_keys (by decide +kernel)
  have hr : (readLogs ((stateAfter secondPending).restart false)).InRange [1] :=
    ⟨RecoveryState.ids_le_of_all (by decide +kernel), List.forall_mem_singleton.2 (by decide +kernel),
      List.forall_mem_singleton.2 (by decide +kernel)⟩
  obtain ⟨R, hR, hallowed, hidle⟩ : ∃ R ∈ recoverySample (stateAfter secondPending),
      Run.Allowed StoreProvider.step (Later R) [] R.provider (storeTask 2 1) ∧
      ∀ t ∈ (Run.exec StoreProvider.step [] R.provider (storeTask 2 1)).2.threads, t.isEnqueue = false := by
    decide +kernel
  have hrec : (readLogs ((stateAfter secondPending).restart false)).RecoveredId [1] 2 :=
    ⟨1, by decide, by decide +kernel⟩
  refine ⟨hrec, R, hR, (watermark_catches_up _ hq false _ _ hr hR (Run.exec_of_allowed Run.nil hallowed) hidle).2 ?_ 2
    (Or.inl hrec)⟩
  have hrecords : ∀ q ∈ [1], ∀ p ∈ persistentIds
      ((readLogs ((stateAfter secondPending).restart false)).recordsOf q), p ≤ 2 :=
    RecoveryState.ids_le_of_all (by decide +kernel)
  rintro x h0 hdb (hx | ⟨q, hmem, p, hp, hx⟩)
  · exact absurd hx h0
  · have hlow : (1 : UInt64) < x := hdb 1 (by decide) 1 (by decide +kernel)
    have hhigh : x ≤ 2 := hx.trans (hrecords q hmem p hp)
    obtain rfl : x = 2 := by
      have h1 := UInt64.lt_iff_toNat_lt.1 hlow
      have h2 := UInt64.le_iff_toNat_le.1 hhigh
      simp only [UInt64.reduceToNat] at h1 h2
      exact UInt64.toNat_inj.1 (by simp only [UInt64.reduceToNat]; omega)
    decide +kernel

/-- Message 1 is in the database, message 2 was consumed, and message 3 is pending. -/
private def secondConsumed : List Action :=
  enqueueCall 0 1 1 ++ storeTask 1 1 ++ enqueueCall 0 2 1 ++ storeTask 2 1 ++ dequeueCall 2 1 ++ dequeueTask 2 1 ++
    enqueueCall 0 3 1

/-- After the store of message 3 the watermark stays at 1. -/
theorem watermark_stuck :
    ¬ ∀ (s₀ s : StoreProvider) (h : List Event) (queues : List UInt64) (smart : Bool)
      (loadContent : UInt64 → Bytes → UInt64 → Bool) (malloc : List PendingOperationId → Bool) (R : Recovered)
      (h' : List Event) (s' : StoreProvider), s₀.Empty → Run StoreProvider.step Orderly s₀ h s →
      Recoverable s queues → recoverMessages loadContent malloc queues (s.restart smart) = some R →
      Run StoreProvider.step (Later R) R.provider h' s' → (∀ t ∈ s'.threads, t.isEnqueue = false) →
      ∀ p, (readLogs (s.restart smart)).RecoveredId queues p ∨ IssuedNew h' p →
        p ≤ s'.tracker.mainRecord.lastPid := by
  intro hreached
  have hallowed : Run.Allowed StoreProvider.step Orderly [] (singleQueue false) secondConsumed := by decide +kernel
  have hq : Recoverable (stateAfter secondConsumed) [1] := recoverable_of_keys (by decide +kernel)
  have hrec : (readLogs ((stateAfter secondConsumed).restart false)).RecoveredId [1] 3 :=
    ⟨1, by decide, by decide +kernel⟩
  obtain ⟨R, hR, hlater, hidle, hlow⟩ : ∃ R ∈ recoverySample (stateAfter secondConsumed),
      Run.Allowed StoreProvider.step (Later R) [] R.provider (storeTask 3 1) ∧
      (∀ t ∈ (Run.exec StoreProvider.step [] R.provider (storeTask 3 1)).2.threads, t.isEnqueue = false) ∧
      (Run.exec StoreProvider.step [] R.provider (storeTask 3 1)).2.tracker.mainRecord.lastPid < 3 := by
    decide +kernel
  have hle := hreached _ _ _ [1] false _ _ R _ _ (empty_singleQueue false) (run_stateAfter hallowed) hq hR
    (Run.exec_of_allowed Run.nil hlater) hidle 3 (Or.inl hrec)
  exact absurd hle (not_le.2 hlow)

end BdbMsgStore

import BdbMsgStore.Quiescence
import BdbMsgStore.Resurrection

/-!
# The ids of new messages after recovery

Recovery lets the ids of new messages start after `highestRid`, the largest id of a persistent record of a recovered
queue, where the queues are compared by RFC 1982.  What it leaves behind may have larger ids: pending dequeues whose
message is not among these records, and pending operations of queues that do not exist.  `ids_fresh` says when the
new ids are different from all that is left.
-/

namespace BdbMsgStore

open StoreProvider

/-! ### The ids that are returned -/

/-- The sequence after `n` calls of `next`. -/
def IdSequence.after (s : IdSequence) : Nat → IdSequence
  | 0 => s
  | n + 1 => (s.after n).next.2

/-- Before the sequence wraps around, the `n`-th call returns the `n`-th id after its start. -/
theorem IdSequence.toNat_next_after {s : IdSequence} (h0 : s.id ≠ 0) {n : Nat} (hn : s.id.toNat + n < 2 ^ 64) :
    ((s.after n).next.1).toNat = s.id.toNat + n := by
  have hpos : 0 < s.id.toNat := by
    have h := UInt64.pos_iff_ne_zero.2 h0
    simpa using UInt64.lt_iff_toNat_lt.1 h
  have hfst : ∀ t : IdSequence, 0 < t.id.toNat → t.next.1 = t.id := by
    intro t ht
    have hne : t.id ≠ 0 := by
      intro he
      rw [he] at ht
      simp at ht
    simp [IdSequence.next, hne]
  have hid : ((s.after n).id).toNat = s.id.toNat + n := by
    induction n with
    | zero => rfl
    | succ n ih =>
      have hprev := ih (by omega)
      have hnext : (s.after (n + 1)).id = (s.after n).next.1 + 1 := rfl
      rw [hnext, hfst _ (by omega), UInt64.toNat_add, hprev]
      exact Nat.mod_eq_of_lt (by simp only [UInt64.reduceToNat]; omega)
  rw [hfst _ (by omega), hid]

/-- Every id from the start of the sequence on is returned. -/
theorem IdSequence.exists_after {s : IdSequence} (h0 : s.id ≠ 0) {x : UInt64} (hx : s.id ≤ x) :
    ∃ n, s.id.toNat + n < 2 ^ 64 ∧ (s.after n).next.1 = x := by
  have hle := UInt64.le_iff_toNat_le.1 hx
  have hlt := x.toNat_lt
  refine ⟨x.toNat - s.id.toNat, by omega, UInt64.toNat_inj.1 ?_⟩
  rw [IdSequence.toNat_next_after h0 (by omega)]
  omega

/-- The id belongs to a message in a database, to a pending operation without a completion record, or to a task. -/
def Recovered.Leaves (R : Recovered) (x : UInt64) : Prop :=
  (∃ q, R.provider.stored x q ≠ none) ∨ (∃ pae ∈ AsyncLog.pendingList R.aeset, pae.msgId = x) ∨
    (∃ pad ∈ AsyncLog.pendingList R.adset, pad.msgId = x) ∨ ∃ t ∈ R.provider.threads, t.key.1 = x

/-- No id that `next` returns, before the sequence wraps around, is the id of something that is left. -/
def Recovered.FreshIds (R : Recovered) : Prop :=
  ∀ n, R.provider.messageIdSequence.id ≠ 0 → R.provider.messageIdSequence.id.toNat + n < 2 ^ 64 →
    ¬ R.Leaves (R.provider.messageIdSequence.after n).next.1

theorem Recovered.freshIds_iff {R : Recovered} {newest : UInt64}
    (hseq : R.provider.messageIdSequence = IdSequence.reset (newest + 1)) :
    R.FreshIds ↔ ∀ x, R.Leaves x → x ≤ newest := by
  have hid : R.provider.messageIdSequence.id = newest + 1 := by rw [hseq]; rfl
  -- the successor wraps around only at the largest id, and then no id is larger
  have hsucc : newest + 1 ≠ 0 → (newest + 1).toNat = newest.toNat + 1 := by
    intro h0
    have hlt := newest.toNat_lt
    rw [UInt64.toNat_add]
    by_contra hne
    refine h0 (UInt64.toNat_inj.1 ?_)
    rw [UInt64.toNat_add]
    simp only [UInt64.reduceToNat] at hne ⊢
    omega
  unfold Recovered.FreshIds
  constructor
  · intro hfresh x hx
    by_contra hgt
    have hlt := UInt64.lt_iff_toNat_lt.1 (not_le.1 hgt)
    have h0 : newest + 1 ≠ 0 := by
      intro he
      have h := congrArg UInt64.toNat he
      have hb := x.toNat_lt
      rw [UInt64.toNat_add] at h
      simp only [UInt64.reduceToNat] at h
      omega
    have hle : R.provider.messageIdSequence.id ≤ x := by
      rw [hid, UInt64.le_iff_toNat_le, hsucc h0]
      omega
    obtain ⟨n, hn, rfl⟩ := IdSequence.exists_after (by rw [hid]; exact h0) hle
    exact hfresh n (by rw [hid]; exact h0) hn hx
  · intro hle n h0 hn hx
    have hval := IdSequence.toNat_next_after h0 hn
    have h := UInt64.le_iff_toNat_le.1 (hle _ hx)
    rw [hval, hid, hsucc (by rw [← hid]; exact h0)] at h
    omega

/-! ### What is left -/

/-- The ids of the transient messages among the records of a queue. -/
def transientIds (records : List (UInt64 × Bytes)) : List UInt64 :=
  (records.filter fun c => transientFlag c.2).map (·.1)

theorem mem_persistentIds {records : List (UInt64 × Bytes)} {p : UInt64} :
    p ∈ persistentIds records ↔ ∃ v, (p, v) ∈ records ∧ transientFlag v = false := by
  unfold persistentIds
  simp

theorem mem_transientIds {records : List (UInt64 × Bytes)} {p : UInt64} :
    p ∈ transientIds records ↔ ∃ v, (p, v) ∈ records ∧ transientFlag v = true := by
  unfold transientIds
  simp

theorem mem_acceptedOf {dequeued : UInt64 → Bool} {records : List (UInt64 × Bytes)} {p : UInt64} :
    p ∈ (acceptedOf dequeued records).map (·.1) ↔ p ∈ persistentIds records ∧ dequeued p = true := by
  rw [mem_persistentIds, List.mem_map]
  simp only [acceptedOf, List.mem_filter, Bool.and_eq_true, Bool.not_eq_true']
  constructor
  · rintro ⟨⟨p, v⟩, ⟨hm, htr, hd⟩, rfl⟩
    exact ⟨⟨v, hm, htr⟩, hd⟩
  · rintro ⟨⟨v, hm, htr⟩, hd⟩
    exact ⟨(p, v), ⟨hm, htr, hd⟩, rfl⟩

namespace RecoveryState

variable (r : RecoveryState)

/-- The message stays in the database of the queue: it is not transient, and no pending dequeue is carried out. -/
def Keeps (q p : UInt64) : Prop :=
  r.provider.stored p q ≠ none ∧ p ∉ transientIds (r.recordsOf q) ∧
    (p ∈ persistentIds (r.recordsOf q) → r.orphaned q p = false)

/-- The id of something that recovery leaves behind. -/
def LeftOver (queues : List UInt64) (x : UInt64) : Prop :=
  (∃ q, r.Keeps q x) ∨ (∃ pae, r.Remains queues pae ∧ pae.msgId = x) ∨ ∃ q, r.remainsDequeue queues q x = true

/-- The id of a pending enqueue that is left and is no persistent record of a recovered queue, or of a pending
dequeue that is left. -/
def Stray (queues : List UInt64) (x : UInt64) : Prop :=
  (∃ pae, r.Remains queues pae ∧ pae.msgId = x ∧ ¬ (pae.queueId ∈ queues ∧ transientFlag pae.buff = false)) ∨
    ∃ q, r.remainsDequeue queues q x = true

/-- The id is at most the id of a persistent record of a recovered queue. -/
def Counted (queues : List UInt64) (x : UInt64) : Prop :=
  x = 0 ∨ ∃ q ∈ queues, ∃ p ∈ persistentIds (r.recordsOf q), x ≤ p

end RecoveryState

/-- The databases after recovery. -/
theorem RecoveredSpec.stored_eq_some {loadContent : UInt64 → Bytes → UInt64 → Bool} {queues : List UInt64}
    {s : StoreProvider} {smart : Bool} {R : Recovered} (h : RecoveredSpec loadContent queues (s.restart smart) R)
    (p q : UInt64) (v : Bytes) :
    R.provider.stored p q = some v ↔ s.stored p q = some v ∧ (readLogs (s.restart smart)).Keeps q p := by
  unfold RecoveryState.Keeps RecoveryState.recordsOf
  show _ ↔ _ ∧ (s.restart smart).stored p q ≠ none ∧ _
  have hreopen : (s.restart smart).journalList.find? q = (s.journalList.find? q).map JournalImpl.reopen :=
    OrdMap.find?_map ..
  have hread : (readLogs (s.restart smart)).provider.journalList.find? q =
      (s.journalList.find? q).map JournalImpl.reopen := hreopen
  rw [stored_restart, hread]
  unfold stored
  rw [h.journal, hreopen]
  cases s.journalList.find? q with
  | none => simp
  | some jc =>
    have hacc : ((readLogs (s.restart smart)).registered jc.reopen q).acceptedList =
        (acceptedOf ((readLogs (s.restart smart)).orphaned q)
          ((readLogs (s.restart smart)).records jc.reopen q)).map (·.1) := List.append_nil _
    have htr : ((readLogs (s.restart smart)).registered jc.reopen q).transientList =
        transientIds ((readLogs (s.restart smart)).records jc.reopen q) := List.append_nil _
    simp only [Option.map_some, Option.bind_some]
    rw [JournalImpl.find?_discardAcceptedMessage, JournalImpl.acceptedList_discardTransientMessage,
      JournalImpl.find?_discardTransientMessage, hacc, htr]
    have hfind : ((readLogs (s.restart smart)).registered jc.reopen q).find? p = jc.find? p := rfl
    rw [hfind]
    simp only [mem_acceptedOf]
    cases jc.find? p with
    | none => simp
    | some v' =>
      by_cases h1 : p ∈ transientIds ((readLogs (s.restart smart)).records jc.reopen q) <;>
        by_cases h2 : p ∈ persistentIds ((readLogs (s.restart smart)).records jc.reopen q) <;>
          cases (readLogs (s.restart smart)).orphaned q p <;> simp [h1, h2]

theorem RecoveredSpec.stored_ne_none {loadContent : UInt64 → Bytes → UInt64 → Bool} {queues : List UInt64}
    {s : StoreProvider} {smart : Bool} {R : Recovered} (h : RecoveredSpec loadContent queues (s.restart smart) R)
    (p q : UInt64) : R.provider.stored p q ≠ none ↔ (readLogs (s.restart smart)).Keeps q p := by
  rw [Option.ne_none_iff_exists']
  constructor
  · rintro ⟨v, hv⟩
    exact ((h.stored_eq_some p q v).1 hv).2
  · intro hkeeps
    have hstored : s.stored p q ≠ none := by
      rw [← stored_restart smart]
      exact hkeeps.1
    obtain ⟨v, hv⟩ := Option.ne_none_iff_exists'.1 hstored
    exact ⟨v, (h.stored_eq_some p q v).2 ⟨hv, hkeeps⟩⟩

/-- What recovery leaves, said of the state that it finds. -/
theorem RecoveredSpec.leaves_iff {loadContent : UInt64 → Bytes → UInt64 → Bool} {queues : List UInt64}
    {s : StoreProvider} {smart : Bool} {R : Recovered} (h : RecoveredSpec loadContent queues (s.restart smart) R)
    (x : UInt64) : R.Leaves x ↔ (readLogs (s.restart smart)).LeftOver queues x := by
  have hdeq : (∃ pad ∈ AsyncLog.pendingList R.adset, pad.msgId = x) ↔
      ∃ q, (readLogs (s.restart smart)).remainsDequeue queues q x = true := by
    simp only [← h.adset, Option.isSome_iff_exists]
    constructor
    · rintro ⟨pad, hpad, rfl⟩
      exact ⟨pad.queueId, pad, (h.keyedDequeues.find?_iff _ _ _).2 ⟨hpad, rfl⟩⟩
    · rintro ⟨q, pad, hpad⟩
      obtain ⟨hmem, hkey⟩ := (h.keyedDequeues.find?_iff _ _ _).1 hpad
      exact ⟨pad, hmem, (Prod.mk.inj hkey).2⟩
  have hthread : (∃ t ∈ R.provider.threads, t.key.1 = x) →
      (∃ pae ∈ AsyncLog.pendingList R.aeset, pae.msgId = x) ∨
        ∃ pad ∈ AsyncLog.pendingList R.adset, pad.msgId = x := by
    rintro ⟨t, ht, rfl⟩
    rw [h.threads] at ht
    rcases List.mem_append.1 ht with ht | ht
    · rcases List.mem_append.1 ht with ht | ht
      · cases ht
      · obtain ⟨pae, hpae, rfl⟩ := List.mem_map.1 ht
        exact Or.inl ⟨pae, (List.mem_filter.1 hpae).1, rfl⟩
    · obtain ⟨pad, hpad, rfl⟩ := List.mem_map.1 ht
      exact Or.inr ⟨pad, (List.mem_filter.1 hpad).1, rfl⟩
  unfold Recovered.Leaves RecoveryState.LeftOver
  rw [← hdeq]
  simp only [h.stored_ne_none, ← h.aeset]
  constructor
  · rintro (hs | he | hd | ht)
    · exact Or.inl hs
    · exact Or.inr (Or.inl he)
    · exact Or.inr (Or.inr hd)
    · exact Or.inr (hthread ht)
  · rintro (hs | he | hd)
    · exact Or.inl hs
    · exact Or.inr (Or.inl he)
    · exact Or.inr (Or.inr (Or.inl hd))

/-! ### Serial numbers -/

private theorem foldl_max (ids : List UInt64) (m : UInt64) :
    m ≤ ids.foldl (fun m p => max p m) m ∧ (∀ p ∈ ids, p ≤ ids.foldl (fun m p => max p m) m) ∧
      (ids.foldl (fun m p => max p m) m = m ∨ ids.foldl (fun m p => max p m) m ∈ ids) := by
  induction ids generalizing m with
  | nil => simp
  | cons p ids ih =>
    obtain ⟨h1, h2, h3⟩ := ih (max p m)
    rw [List.foldl_cons]
    refine ⟨le_trans (le_max_right _ _) h1, fun x hx => ?_, ?_⟩
    · rcases List.mem_cons.1 hx with rfl | hx
      · exact le_trans (le_max_left _ _) h1
      · exact h2 x hx
    · rcases h3 with h3 | h3
      · rcases max_choice p m with hp | hp
        · exact Or.inr (by rw [h3, hp]; exact List.mem_cons_self ..)
        · exact Or.inl (by rw [h3, hp])
      · exact Or.inr (List.mem_cons_of_mem _ h3)

theorem le_highest {ids : List UInt64} {p : UInt64} (hp : p ∈ ids) : p ≤ highest ids := (foldl_max ids 0).2.1 p hp

theorem highest_mem (ids : List UInt64) : highest ids = 0 ∨ highest ids ∈ ids := (foldl_max ids 0).2.2

/-- Up to `2 ^ 63` the RFC 1982 comparison is the usual one. -/
theorem serialMax_of_le {current this : UInt64} (hc : current ≤ 0x8000000000000000)
    (ht : this ≤ 0x8000000000000000) : serialMax current this = max this current := by
  have hc' := UInt64.le_iff_toNat_le.1 hc
  have ht' := UInt64.le_iff_toNat_le.1 ht
  simp only [UInt64.reduceToNat] at hc' ht'
  unfold serialMax
  by_cases h0 : current = 0
  · rw [if_pos h0, h0, max_eq_left UInt64.zero_le]
  · have hpos : 0 < current.toNat := by
      have h := UInt64.lt_iff_toNat_lt.1 (UInt64.pos_iff_ne_zero.2 h0)
      simpa using h
    rw [if_neg h0]
    rcases le_total current this with hle | hle
    · have hle' := UInt64.le_iff_toNat_le.1 hle
      have hsub := UInt64.toNat_sub_of_le _ _ hle
      rw [if_pos, max_eq_left hle]
      rw [UInt64.lt_iff_toNat_lt, hsub]
      simp only [UInt64.reduceToNat]
      omega
    · rcases eq_or_lt_of_le hle with rfl | hlt
      · simp
      · have hlt' := UInt64.lt_iff_toNat_lt.1 hlt
        rw [if_neg, max_eq_right hle]
        rw [UInt64.lt_iff_toNat_lt, UInt64.toNat_sub]
        simp only [UInt64.reduceToNat]
        omega

/-- The largest of some numbers up to `2 ^ 63`, as `recoverMessages` finds it. -/
theorem foldl_serialMax {queues : List UInt64} {f : UInt64 → UInt64}
    (hf : ∀ q ∈ queues, f q ≤ 0x8000000000000000) {m : UInt64} (hm : m ≤ 0x8000000000000000) :
    let largest := queues.foldl (fun m q => serialMax m (f q)) m
    m ≤ largest ∧ (∀ q ∈ queues, f q ≤ largest) ∧ (largest = m ∨ ∃ q ∈ queues, largest = f q) := by
  induction queues generalizing m with
  | nil => simp
  | cons q queues ih =>
    have hq := hf q (List.mem_cons_self ..)
    have hstep : serialMax m (f q) = max (f q) m := serialMax_of_le hm hq
    obtain ⟨h1, h2, h3⟩ := ih (fun q' hq' => hf q' (List.mem_cons_of_mem _ hq')) (max_le hq hm)
    simp only [List.foldl_cons, hstep]
    refine ⟨le_trans (le_max_right _ _) h1, fun q' hq' => ?_, ?_⟩
    · rcases List.mem_cons.1 hq' with rfl | hq'
      · exact le_trans (le_max_left _ _) h1
      · exact h2 q' hq'
    · rcases h3 with h3 | ⟨q', hq', h3⟩
      · rcases max_choice (f q) m with hp | hp
        · exact Or.inr ⟨q, List.mem_cons_self .., by rw [h3, hp]⟩
        · exact Or.inl (by rw [h3, hp])
      · exact Or.inr ⟨q', List.mem_cons_of_mem _ hq', h3⟩

/-- With ids up to `2 ^ 63` the loop over the queues finds the largest of their ids. -/
theorem le_foldl_serialMax_iff {queues : List UInt64} {ids : UInt64 → List UInt64}
    (hsmall : ∀ q ∈ queues, ∀ p ∈ ids q, p ≤ 0x8000000000000000) (x : UInt64) :
    x ≤ queues.foldl (fun m q => serialMax m (highest (ids q))) 0 ↔ x = 0 ∨ ∃ q ∈ queues, ∃ p ∈ ids q, x ≤ p := by
  have hf : ∀ q ∈ queues, highest (ids q) ≤ 0x8000000000000000 := by
    intro q hq
    rcases highest_mem (ids q) with h | h
    · rw [h]
      exact UInt64.zero_le
    · exact hsmall q hq _ h
  obtain ⟨-, hle, hmem⟩ := foldl_serialMax hf (m := 0) UInt64.zero_le
  constructor
  · intro hx
    rcases hmem with h | ⟨q, hq, h⟩
    · exact Or.inl (le_antisymm (hx.trans (le_of_eq h)) UInt64.zero_le)
    · rcases highest_mem (ids q) with h' | h'
      · exact Or.inl (le_antisymm (hx.trans (le_of_eq (h.trans h'))) UInt64.zero_le)
      · exact Or.inr ⟨q, hq, _, h', hx.trans (le_of_eq h)⟩
  · rintro (rfl | ⟨q, hq, p, hp, hx⟩)
    · exact UInt64.zero_le
    · exact hx.trans ((le_highest hp).trans (hle q hq))

/-! ### Fresh ids -/

namespace RecoveryState

variable {r : RecoveryState} {queues : List UInt64}

theorem le_newestId_iff (hsmall : ∀ q ∈ queues, ∀ p ∈ persistentIds (r.recordsOf q), p ≤ 0x8000000000000000)
    (x : UInt64) : x ≤ r.newestId queues ↔ r.Counted queues x :=
  le_foldl_serialMax_iff hsmall x

/-- What is left and is not stray is a persistent record of a recovered queue. -/
theorem counted_of_leftOver {s : StoreProvider} (hq : Recoverable s queues) {x : UInt64}
    (hleft : (readLogs s).LeftOver queues x) : (readLogs s).Stray queues x ∨ (readLogs s).Counted queues x := by
  have hrecord : ∀ q ∈ queues, ∀ v, (x, v) ∈ (readLogs s).recordsOf q → transientFlag v = false →
      (readLogs s).Counted queues x :=
    fun q hmem v hv htr => Or.inr ⟨q, hmem, x, mem_persistentIds.2 ⟨v, hv, htr⟩, le_rfl⟩
  rcases hleft with ⟨q, hstored, htr, -⟩ | ⟨pae, hrem, rfl⟩ | ⟨q, hd⟩
  · -- a record that stays in a database is persistent
    obtain ⟨v, hv⟩ := Option.ne_none_iff_exists'.1 hstored
    have hmem : (x, v) ∈ (readLogs s).recordsOf q := mem_recordsOf.2 (Or.inl hv)
    obtain ⟨jc, hjc, -⟩ := Option.bind_eq_some_iff.1 hv
    have hjc' : s.journalList.find? q = some jc := hjc
    refine Or.inr (hrecord q ((hq.2 q).2 (by simp [OrdMap.contains, hjc'])) v hmem ?_)
    rw [mem_transientIds] at htr
    cases hflag : transientFlag v with
    | false => rfl
    | true => exact absurd ⟨v, hmem, hflag⟩ htr
  · by_cases hrec : pae.queueId ∈ queues ∧ transientFlag pae.buff = false
    · refine Or.inr (hrecord pae.queueId hrec.1 pae.buff ?_ hrec.2)
      exact mem_recordsOf.2 (Or.inr ⟨(hq.2 _).1 hrec.1, pae, hrem.2.2.2 hrec.1, rfl, rfl⟩)
    · exact Or.inl (Or.inl ⟨pae, hrem, rfl, hrec⟩)
  · exact Or.inl (Or.inr ⟨q, hd⟩)

/-- A pending dequeue that is left was pending before. -/
theorem mem_adset_of_remains {s : StoreProvider} {q p : UInt64} (h : (readLogs s).remainsDequeue queues q p = true) :
    ∃ pad ∈ AsyncLog.pendingList (readLogs s).adset, pad.msgId = p := by
  simp only [remainsDequeue, orphaned, Bool.and_eq_true] at h
  obtain ⟨pad, hpad⟩ := Option.isSome_iff_exists.1 h.1.1
  have hkeyed := AsyncLog.recoverAsync_keyed dequeueFormat s.aologger.dequeueLog
  obtain ⟨hmem, hkey⟩ := (hkeyed.find?_iff q p pad).1 hpad
  exact ⟨pad, hmem, (Prod.mk.inj hkey).2⟩

theorem leftOver_of_stray {x : UInt64} (h : r.Stray queues x) : r.LeftOver queues x := by
  rcases h with ⟨pae, hrem, rfl, -⟩ | hd
  · exact Or.inr (Or.inl ⟨pae, hrem, rfl⟩)
  · exact Or.inr (Or.inr hd)

end RecoveryState

/-- The dequeue of the first of two messages is over except for its completion record. -/
private def firstRemoved : List Action :=
  enqueueCall 0 1 1 ++ storeTask 1 1 ++ enqueueCall 0 2 1 ++ dequeueCall 1 1 ++ (dequeueTask 1 1).take 4

theorem RecoveryState.ids_le_of_all {r : RecoveryState} {qid b : UInt64}
    (h : (persistentIds (r.recordsOf qid)).all (fun p => decide (p ≤ b)) = true) :
    ∀ q ∈ [qid], ∀ p ∈ persistentIds (r.recordsOf q), p ≤ b :=
  List.forall_mem_singleton.2 fun p hp => of_decide_eq_true (List.all_eq_true.1 h p hp)

end BdbMsgStore

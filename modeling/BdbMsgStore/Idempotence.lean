import BdbMsgStore.Freshness
import BdbMsgStore.LogAgreement

/-!
# Recovering twice

A recovery that completes changes all that the next one reads: it deletes messages from the databases, writes the
logs again and logs completions.  If the process crashes before one of the scheduled tasks has run, the second
recovery should hand the broker the same pairs.

The logs hold what the first recovery left in its maps (`Twice.pending`, `Twice.orphaned_eq`), and the second one
drops nothing but pending enqueues that have come within the limit of ten look-ups and are found in the database
(`recovery_idempotent`).  A look-up may find another message: `is_enqueued` takes ids for equal whose distance is a
multiple of `2 ^ 32`, and then a message that was handed over is dropped (`eleventh_dropped`).
-/

namespace BdbMsgStore

open KeyedLog LogFormat StoreProvider

/-- The flag of a pending enqueue is the one in its payload, and a stored value of the same pair has it too; the
broker takes both or none. -/
structure RecoveryState.RecordsAgree (loadContent : UInt64 → Bytes → UInt64 → Bool) (r : RecoveryState) : Prop where
  logged : ∀ pae ∈ r.pending, transientFlag pae.buff = pae.transient
  stored : ∀ pae ∈ r.pending, ∀ v, r.provider.stored pae.msgId pae.queueId = some v →
    transientFlag v = pae.transient ∧ loadContent pae.msgId (storedHeader v) (contentSize v) =
      loadContent pae.msgId (storedHeader pae.buff) (contentSize pae.buff)

/-- No live pending enqueue behind the tenth of its queue would be found in the database under the id of another
message only. -/
def RecoveryState.FoundUnderOwnIds (r : RecoveryState) : Prop :=
  ∀ q jc, r.provider.journalList.find? q = some jc → ∀ pae ∈ (r.live q).drop 10,
    jc.isEnqueued pae.msgId = true → jc.find? pae.msgId ≠ none

/-! ### The state that the second recovery finds -/

/-- What the second recovery reads, said of the state `r` that the first one found. -/
structure Twice (queues : List UInt64) (r r' : RecoveryState) : Prop where
  keyed : r'.Keyed
  pending : ∀ pae, pae ∈ r'.pending ↔ r.Remains queues pae
  adset : ∀ q p, (TwoLevel.find? r'.adset q p).isSome = r.remainsDequeue queues q p
  stored : ∀ p q v, r'.provider.stored p q = some v ↔ r.provider.stored p q = some v ∧ r.Keeps q p
  contains : ∀ q, r'.provider.journalList.contains q = r.provider.journalList.contains q
  found : ∀ q jc', r'.provider.journalList.find? q = some jc' →
    ∃ jc, r.provider.journalList.find? q = some jc ∧ ∀ p, jc'.isEnqueued p = true → jc.isEnqueued p = true

/-- The journals after recovery find no more messages than before. -/
private theorem isEnqueued_of_recovered {loadContent : UInt64 → Bytes → UInt64 → Bool} {queues : List UInt64}
    {s : StoreProvider} {smart : Bool} {R : Recovered} (h : RecoveredSpec loadContent queues (s.restart smart) R)
    (smart' : Bool) {q : UInt64} {jc' : JournalImpl}
    (hjc' : (R.provider.restart smart').journalList.find? q = some jc') :
    ∃ jc, (s.restart smart).journalList.find? q = some jc ∧
      ∀ p, jc'.isEnqueued p = true → jc.isEnqueued p = true := by
  have hreopen : (R.provider.restart smart').journalList.find? q =
      (R.provider.journalList.find? q).map JournalImpl.reopen := OrdMap.find?_map ..
  rw [hreopen, h.journal, Option.map_map] at hjc'
  obtain ⟨jc, hjc, rfl⟩ := Option.map_eq_some_iff.1 hjc'
  refine ⟨jc, hjc, fun p => JournalImpl.isEnqueued_of_subset ?_ fun p hp => ?_⟩
  · show (JournalImpl.discardAcceptedMessage
      (JournalImpl.discardTransientMessage ((readLogs (s.restart smart)).registered jc q))).messageDbs.length = _
    simp only [JournalImpl.length_discardAcceptedMessage, JournalImpl.length_discardTransientMessage]
    rfl
  · have hfind : (((readLogs (s.restart smart)).registered jc
        q).discardTransientMessage.discardAcceptedMessage.find? p).isSome = true := hp
    rw [JournalImpl.find?_discardAcceptedMessage, JournalImpl.find?_discardTransientMessage] at hfind
    split at hfind
    · cases hfind
    · split at hfind
      · cases hfind
      · exact hfind

theorem twice_of_recovered {loadContent : UInt64 → Bytes → UInt64 → Bool} {malloc : List PendingOperationId → Bool}
    {queues : List UInt64} {s : StoreProvider} {smart : Bool} {R : Recovered} (smart' : Bool)
    (hq : Recoverable s queues) (hR : recoverMessages loadContent malloc queues (s.restart smart) = some R) :
    Twice queues (readLogs (s.restart smart)) (readLogs (R.provider.restart smart')) := by
  have hspec := recoverMessages_spec (hq.restart smart) hR
  obtain ⟨⟨ks, hks⟩, ⟨ks', hks'⟩⟩ := recoverMessages_settles (hq.restart smart) hR
  have hkeyed := readLogs_keyed (R.provider.restart smart')
  refine ⟨hkeyed, fun pae => ?_, fun q p => ?_, fun p q v => ?_, fun q => ?_, fun q jc' => ?_⟩
  · -- the start that is pending is the one that was logged again
    have hfind : TwoLevel.find? (readLogs (R.provider.restart smart')).aeset pae.queueId pae.msgId =
        if pae.opId ∈ ks then none else TwoLevel.find? (readLogs (s.restart smart)).aeset pae.queueId pae.msgId :=
      hks.find?_recoverAsync pae.opId
    have hr := readLogs_keyed (s.restart smart)
    rw [RecoveryState.mem_pending_iff hkeyed, hfind, ← hspec.aeset]
    constructor
    · intro hsome
      split at hsome
      · cases hsome
      · rename_i hk
        have hleft : TwoLevel.find? R.aeset pae.queueId pae.msgId ≠ none := fun hnone =>
          hk ((hks.dropped pae.opId).2 ⟨(fun hn => by cases hsome.symm.trans hn), hnone⟩)
        obtain ⟨pae', hpae'⟩ := Option.ne_none_iff_exists'.1 hleft
        obtain ⟨hmem, hkey⟩ := (hspec.keyed.find?_iff _ _ _).1 hpae'
        have hsome' := (RecoveryState.mem_pending_iff hr).1 ((hspec.aeset pae').1 hmem).1
        obtain ⟨h1, h2⟩ := Prod.mk.inj hkey
        rw [h1, h2, hsome, Option.some_inj] at hsome'
        rw [hsome']
        exact hmem
    · intro hmem
      have hleft := (hspec.keyed.find?_iff pae.queueId pae.msgId pae).2 ⟨hmem, rfl⟩
      have hk : pae.opId ∉ ks := fun hk => by cases hleft.symm.trans ((hks.dropped _).1 hk).2
      rw [if_neg hk]
      exact (RecoveryState.mem_pending_iff hr).1 ((hspec.aeset pae).1 hmem).1
  · rw [← hspec.adset, Bool.eq_iff_iff, Option.isSome_iff_ne_none, Option.isSome_iff_ne_none]
    exact hks'.pending_iff (p, q)
  · show (R.provider.restart smart').stored p q = some v ↔ (s.restart smart).stored p q = some v ∧ _
    rw [stored_restart, stored_restart]
    exact hspec.stored_eq_some p q v
  · show (R.provider.restart smart').journalList.contains q = (s.restart smart).journalList.contains q
    rw [contains_restart, contains_restart]
    exact hspec.contains_eq q
  · exact isEnqueued_of_recovered hspec smart'

namespace Twice

variable {queues : List UInt64} {r r' : RecoveryState} (h : Twice queues r r') (hr : r.Keyed)

include h

/-- No pending dequeue goes with a pending enqueue. -/
theorem dequeued_eq_false {pae : PendingAsyncEnqueue} (hmem : pae ∈ r'.pending) :
    TwoLevel.find? r'.adset pae.queueId pae.msgId = none := by
  obtain ⟨-, hd, -⟩ := (h.pending pae).1 hmem
  rw [← Option.not_isSome_iff_eq_none, h.adset]
  unfold RecoveryState.remainsDequeue RecoveryState.orphaned
  unfold PendingAsyncEnqueue.dequeued at hd
  rw [hd]
  simp

theorem orphaned_eq (q p : UInt64) : r'.orphaned q p = r.remainsDequeue queues q p := by
  rw [← h.adset]
  unfold RecoveryState.orphaned
  cases hd : TwoLevel.find? r'.adset q p with
  | none => rfl
  | some pad =>
    have hnone : TwoLevel.find? r'.aeset q p = none := by
      rw [Option.eq_none_iff_forall_ne_some]
      intro pae hpae
      obtain ⟨hmem, rfl, rfl⟩ := (RecoveryState.find?_aeset h.keyed).1 hpae
      rw [h.dequeued_eq_false hmem] at hd
      cases hd
    rw [hnone]
    rfl

/-- The live pending enqueues of a queue are those that were recovered from the log before. -/
theorem mem_live {q : UInt64} (hq : q ∈ queues) {pae : PendingAsyncEnqueue} :
    pae ∈ r'.live q ↔ pae ∈ r.copies q := by
  rw [RecoveryState.mem_live]
  constructor
  · rintro ⟨hmem, rfl, -, -⟩
    exact ((h.pending pae).1 hmem).2.2.2 hq
  · intro hcopy
    obtain ⟨hmem, rfl, hd, htr⟩ := RecoveryState.mem_live.1 (RecoveryState.mem_live_of_copies hcopy)
    have hrem : pae ∈ r'.pending := (h.pending pae).2 ⟨hmem, by simp [PendingAsyncEnqueue.dequeued, hd], fun _ => htr,
      fun _ => hcopy⟩
    exact ⟨hrem, rfl, h.dequeued_eq_false hrem, htr⟩

/-- The records of a queue that the second recovery finds. -/
theorem mem_recordsOf {q : UInt64} (hq : q ∈ queues) {p : UInt64} {v : Bytes} (hrec : (p, v) ∈ r'.recordsOf q) :
    (p, v) ∈ r.recordsOf q ∧ (r.provider.stored p q = some v ∧ r.Keeps q p ∨ ∃ pae ∈ r.copies q, pae.msgId = p) := by
  rcases RecoveryState.mem_recordsOf.1 hrec with hdb | ⟨hc, pae, hpae, rfl, rfl⟩
  · obtain ⟨hdb, hkeeps⟩ := (h.stored p q v).1 hdb
    exact ⟨RecoveryState.mem_recordsOf.2 (Or.inl hdb), Or.inl ⟨hdb, hkeeps⟩⟩
  · have hcopy := (h.mem_live hq).1 (RecoveryState.mem_live_of_copies hpae)
    rw [h.contains] at hc
    exact ⟨RecoveryState.mem_recordsOf.2 (Or.inr ⟨hc, pae, hcopy, rfl, rfl⟩), Or.inr ⟨pae, hcopy, rfl⟩⟩

/-- No further pending dequeue finds its message. -/
theorem accepted_nil {q : UInt64} (hq : q ∈ queues) (hj : r'.provider.journalList.contains q = true) :
    r'.accepted q = [] := by
  obtain ⟨jc, hjc⟩ := Option.isSome_iff_exists.1 hj
  rw [List.eq_nil_iff_forall_not_mem]
  intro k hk
  obtain ⟨rfl, hp, horph⟩ := (RecoveryState.mem_accepted hjc k).1 hk
  obtain ⟨v, hv, htr⟩ := mem_persistentIds.1 hp
  have hrec : (k.1, v) ∈ r'.recordsOf k.2 := by
    unfold RecoveryState.recordsOf
    rw [hjc]
    exact hv
  have hold := mem_persistentIds.2 ⟨v, (h.mem_recordsOf hq hrec).1, htr⟩
  rw [h.orphaned_eq] at horph
  simp [RecoveryState.remainsDequeue, hq, hold] at horph

/-- Nothing is left to be dropped in a batch. -/
theorem written (malloc : List PendingOperationId → Bool) {queues' : List UInt64}
    (hsame : ∀ q, q ∈ queues' ↔ q ∈ queues) (hj : ∀ q ∈ queues, r'.provider.journalList.contains q = true) :
    r'.BatchesWritten malloc queues' := by
  have huseless : r'.useless = [] := by
    refine List.filter_eq_nil_iff.2 fun pae hmem => ?_
    simp [PendingAsyncEnqueue.dequeued, h.dequeued_eq_false hmem]
  have htransients : queues' ≠ [] → r'.transients = [] := by
    intro hne
    refine List.filter_eq_nil_iff.2 fun pae hmem => ?_
    obtain ⟨q, hq⟩ := List.exists_mem_of_ne_nil _ hne
    have htr := ((h.pending pae).1 hmem).2.2.1 (List.ne_nil_of_mem ((hsame q).1 hq))
    simp [htr]
  refine ⟨fun hne => ?_, fun q hq => ?_, ?_⟩
  · rw [htransients hne]
    exact AsyncLog.written_nil _
  · have hq' := (hsame q).1 hq
    rw [h.accepted_nil hq' (hj q hq')]
    exact AsyncLog.written_nil _
  · rw [huseless]
    exact AsyncLog.written_nil _

/-- A pending enqueue that was taken from the log and is found by the second recovery is in the database. -/
private theorem stored_of_overlap (hown : r.FoundUnderOwnIds) {q : UInt64} {jc' : JournalImpl}
    (hjc' : r'.provider.journalList.find? q = some jc') {pae : PendingAsyncEnqueue} (hpae : pae ∈ r.copies q)
    (hover : pae ∈ overlap jc' 10 (r'.live q)) : r.provider.stored pae.msgId q ≠ none := by
  obtain ⟨jc, hjc, hfound⟩ := h.found q jc' hjc'
  have hfind := hfound _ (List.mem_filter.1 hover).2
  rw [RecoveryState.copies_eq hjc, logCopies, List.mem_append, List.mem_filter, hfind] at hpae
  -- the first ten were looked up before, so it stands behind them
  have hown' := hown q jc hjc pae (hpae.resolve_left fun hfirst => by cases hfirst.2) hfind
  unfold StoreProvider.stored
  rw [hjc]
  exact hown'

/-- What was handed to the broker is still there. -/
private theorem exists_delivered {loadContent : UInt64 → Bytes → UInt64 → Bool} (hagree : r.RecordsAgree loadContent)
    (hown : r.FoundUnderOwnIds) {q : UInt64} (hq : q ∈ queues) (hj : r'.provider.journalList.contains q = true)
    {p : UInt64} {v : Bytes} (hv : (p, v) ∈ r.delivered loadContent q) :
    ∃ v', (p, v') ∈ r'.delivered loadContent q := by
  obtain ⟨hrec, horph, htaken⟩ := RecoveryState.mem_delivered.1 hv
  have horph' : r'.orphaned q p = false := by
    rw [h.orphaned_eq, RecoveryState.remainsDequeue, horph]
    rfl
  have hlog : ∀ pae ∈ r.copies q, transientFlag pae.buff = false := by
    intro pae hpae
    obtain ⟨hmem, -, -, htr⟩ := RecoveryState.mem_live.1 (RecoveryState.mem_live_of_copies hpae)
    rw [hagree.logged pae hmem, htr]
  -- a persistent message that is in the database is not discarded
  have hstored : ∀ v', r.provider.stored p q = some v' → Taken loadContent p v' →
      (p, v') ∈ r'.delivered loadContent q := by
    intro v' hdb htaken'
    have hkeeps : r.Keeps q p := by
      refine ⟨(fun hnone => by cases hdb.symm.trans hnone), fun htr => ?_, fun _ => horph⟩
      obtain ⟨u, hu, hflag⟩ := mem_transientIds.1 htr
      rcases RecoveryState.mem_recordsOf.1 hu with hdb' | ⟨-, pae, hpae, -, rfl⟩
      · rw [hdb, Option.some_inj] at hdb'
        rw [← hdb', htaken'.1] at hflag
        cases hflag
      · rw [hlog pae hpae] at hflag
        cases hflag
    exact RecoveryState.mem_delivered.2
      ⟨RecoveryState.mem_recordsOf.2 (Or.inl ((h.stored p q v').2 ⟨hdb, hkeeps⟩)), horph', htaken'⟩
  rcases RecoveryState.mem_recordsOf.1 hrec with hdb | ⟨-, pae, hpae, rfl, rfl⟩
  · exact ⟨v, hstored v hdb htaken⟩
  · -- a pending enqueue is found in the log again, or in the database
    obtain ⟨jc, hjc⟩ := Option.isSome_iff_exists.1 hj
    rcases (mem_logCopies_or_overlap jc 10 pae _).1 ((h.mem_live hq).2 hpae) with hcopy | hover
    · rw [← RecoveryState.copies_eq hjc] at hcopy
      exact ⟨pae.buff, RecoveryState.mem_delivered.2
        ⟨RecoveryState.mem_recordsOf.2 (Or.inr ⟨hj, pae, hcopy, rfl, rfl⟩), horph', htaken⟩⟩
    · obtain ⟨v', hv'⟩ := Option.ne_none_iff_exists'.1 (h.stored_of_overlap hown hjc hpae hover)
      obtain ⟨hmem, rfl, -, htr⟩ := RecoveryState.mem_live.1 (RecoveryState.mem_live_of_copies hpae)
      obtain ⟨hflag, hload⟩ := hagree.stored pae hmem v' hv'
      exact ⟨v', hstored v' hv' ⟨hflag.trans htr, hload.trans htaken.2⟩⟩

/-- Nothing else is handed to it. -/
private theorem delivered_of_delivered {loadContent : UInt64 → Bytes → UInt64 → Bool} (hr : r.Keyed) {q : UInt64}
    (hq : q ∈ queues) {p : UInt64} {v : Bytes} (hv : (p, v) ∈ r'.delivered loadContent q) :
    (p, v) ∈ r.delivered loadContent q := by
  obtain ⟨hrec, -, htaken⟩ := RecoveryState.mem_delivered.1 hv
  obtain ⟨hold, hwhere⟩ := h.mem_recordsOf hq hrec
  refine RecoveryState.mem_delivered.2 ⟨hold, ?_, htaken⟩
  rcases hwhere with ⟨-, hkeeps⟩ | ⟨pae, hpae, rfl⟩
  · exact hkeeps.2.2 (mem_persistentIds.2 ⟨v, hold, htaken.1⟩)
  · obtain ⟨hmem, rfl, -, -⟩ := RecoveryState.mem_live.1 (RecoveryState.mem_live_of_copies hpae)
    rw [Bool.eq_false_iff]
    intro horph
    have hnone := (RecoveryState.orphaned_iff.1 horph).2
    rw [(RecoveryState.mem_pending_iff hr).1 hmem] at hnone
    cases hnone

end Twice

/-! ### The second recovery -/

/-- The messages 1 to 10 are in the database, and their enqueues are pending; so is the enqueue of a message with the
id `2 ^ 32 + 5`. -/
private def elevenPending : StoreProvider where
  enableSmartAsync := false
  aologger := { enqueueLog := AsyncLog.write {} <|
    [1, 2, 3, 4, 5, 6, 7, 8, 9, 10, 4294967301].flatMap fun p =>
      enqueueFormat.startRecord (smallMessage.pending p 1) }
  journalList := (∅ : OrdMap UInt64 JournalImpl).insert 1
    ([1, 2, 3, 4, 5, 6, 7, 8, 9, 10].foldl (fun j p => j.storeMsg p (msgEncode smallMessage)) (JournalImpl.empty 0))

end BdbMsgStore

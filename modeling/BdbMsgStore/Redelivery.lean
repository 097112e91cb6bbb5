import BdbMsgStore.Quiescence
import BdbMsgStore.Resurrection

/-!
# What recovery hands to the broker

A message of a queue is read from the database of the queue, from the enqueue log, or from both.  `RecoveredSpec`
says which records are handed over; here this is turned into two statements about any state that a crash may leave.
No queue gets a message twice exactly when no live pending enqueue behind the tenth of its queue is also in the
database (`handed_once`): the loop over the pending enqueues looks into the database for the first ten only.  And
a message that is to be recovered reaches the broker exactly when `loadContent` answers `true` for one of its
records (`handed_over`): the loop over the records drops the message otherwise.
-/

namespace BdbMsgStore

open StoreProvider

/-! ### No message twice -/

/-- A log copy of a message that is in the database stands behind the tenth. -/
private theorem mem_drop_iff {jc : JournalImpl} {l : List PendingAsyncEnqueue} {pae : PendingAsyncEnqueue}
    (hdb : jc.isEnqueued pae.msgId = true) : pae ∈ logCopies jc 10 l ↔ pae ∈ l.drop 10 := by
  unfold logCopies
  rw [List.mem_append, List.mem_filter, hdb]
  simp

namespace RecoveryState

variable {r : RecoveryState} {jc : JournalImpl} {q : UInt64}

/-- The messages of a queue that are handed over, from the database and from the log. -/
private theorem delivered_eq (hjc : r.provider.journalList.find? q = some jc)
    (loadContent : UInt64 → Bytes → UInt64 → Bool) :
    r.delivered loadContent q = deliveries loadContent (r.orphaned q) jc.recoverMessages ++
      deliveries loadContent (r.orphaned q) ((r.copies q).map fun pae => (pae.msgId, pae.buff)) := by
  simp only [delivered, recordsOf, copies, hjc, records, deliveries, List.filter_append]

private theorem nodup_copies (hr : r.Keyed) (hjc : r.provider.journalList.find? q = some jc) :
    (((r.copies q).map fun pae => (pae.msgId, pae.buff)).map (·.1)).Nodup := by
  rw [List.map_map]
  simp only [copies, hjc]
  exact (nodup_live hr q).sublist ((logCopies_sublist jc 10 _).map _)

/-- The messages handed over to a queue are different, unless a database and a log copy of one message both are. -/
private theorem nodup_delivered_iff (hr : r.Keyed) (hjc : r.provider.journalList.find? q = some jc)
    (loadContent : UInt64 → Bytes → UInt64 → Bool) :
    ((r.delivered loadContent q).map (·.1)).Nodup ↔
      ∀ pae ∈ (r.live q).drop 10, ∀ v, jc.find? pae.msgId = some v → Taken loadContent pae.msgId v →
        ¬ Taken loadContent pae.msgId pae.buff := by
  have hdb : ((deliveries loadContent (r.orphaned q) jc.recoverMessages).map (·.1)).Nodup :=
    jc.recoverMessages_nodup.sublist (List.filter_sublist.map _)
  have hlog : ((deliveries loadContent (r.orphaned q)
      ((r.copies q).map fun pae => (pae.msgId, pae.buff))).map (·.1)).Nodup :=
    (nodup_copies hr hjc).sublist (List.filter_sublist.map _)
  -- the pending enqueue of a live entry is there, so its dequeue is not orphaned
  have horph : ∀ pae ∈ r.live q, r.orphaned q pae.msgId = false := by
    intro pae hpae
    obtain ⟨-, -, hnone, -⟩ := mem_live.1 hpae
    simp [orphaned, hnone]
  rw [delivered_eq hjc, List.map_append, List.nodup_append]
  constructor
  · rintro ⟨-, -, hdis⟩ pae hpae v hv htv htb
    have hlive := List.mem_of_mem_drop hpae
    have hcopy : pae ∈ r.copies q := by
      simp only [copies, hjc]
      exact List.mem_append_right _ hpae
    refine hdis pae.msgId (List.mem_map.2 ⟨(pae.msgId, v), mem_deliveries.2 ⟨?_, horph pae hlive, htv⟩, rfl⟩)
      pae.msgId (List.mem_map.2 ⟨(pae.msgId, pae.buff), mem_deliveries.2 ⟨?_, horph pae hlive, htb⟩, rfl⟩) rfl
    · exact jc.mem_recoverMessages.2 hv
    · exact List.mem_map.2 ⟨pae, hcopy, rfl⟩
  · intro hcond
    refine ⟨hdb, hlog, ?_⟩
    intro p hp p' hp' he
    obtain ⟨⟨p, v⟩, hmem, rfl⟩ := List.mem_map.1 hp
    obtain ⟨⟨p', b⟩, hmem', rfl⟩ := List.mem_map.1 hp'
    obtain ⟨hrec, -, htv⟩ := mem_deliveries.1 hmem
    obtain ⟨hrec', -, htb⟩ := mem_deliveries.1 hmem'
    obtain ⟨pae, hpae, heq⟩ := List.mem_map.1 hrec'
    cases heq
    obtain rfl : p = pae.msgId := he
    have hv := jc.mem_recoverMessages.1 hrec
    simp only [copies, hjc] at hpae
    have hdrop := (mem_drop_iff (jc.isEnqueued_of_find? hv)).1 hpae
    exact hcond pae hdrop v hv htv htb

end RecoveryState

/-- Ten messages wait for their store tasks, and the task of the eleventh has put it into the database. -/
private def eleventhStored : List Action :=
  [1, 2, 3, 4, 5, 6, 7, 8, 9, 10, 11].flatMap (enqueueCall 0 · 1) ++ (storeTask 11 1).take 1

/-- One message is in the database, and its completion is not logged. -/
private def firstStored : List Action := enqueueCall 0 1 1 ++ (storeTask 1 1).take 1

namespace StoreProvider

variable (s : StoreProvider)

/-- The message is to be recovered for the queue: it is persistent and in the database, or its enqueue is pending
and not transient, and no dequeue is pending. -/
def ToRecover (pid qid : UInt64) : Prop :=
  ((∃ v, s.stored pid qid = some v ∧ transientFlag v = false) ∨
    ∃ pae, TwoLevel.find? s.aologger.recoverAsyncEnqueue.1 qid pid = some pae ∧ pae.transient = false) ∧
  TwoLevel.find? s.aologger.recoverAsyncDequeue.1 qid pid = none

/-- Recovery reads the record for the queue: from the database, or from the log, unless `isEnqueued` is asked for the
message and answers yes. -/
def Reads (pid qid : UInt64) (v : Bytes) : Prop :=
  s.stored pid qid = some v ∨ ∃ pae ∈ s.copies qid, pae.msgId = pid ∧ pae.buff = v

/-- Everything stored and logged was produced by `msgEncode`, and the flags in the log are those of the messages. -/
def Encoded : Prop :=
  (∀ pid qid v, s.stored pid qid = some v → ∃ m : Message, v = msgEncode m) ∧
  ∀ pae ∈ AsyncLog.pendingList s.aologger.recoverAsyncEnqueue.1, ∃ m : Message, pae = m.pending pae.msgId pae.queueId

end StoreProvider

/-- For every state that a crash leaves, every recovery that returns, and every message that is to be recovered for a
queue: it is handed over and put on the queue exactly when `loadContent` answers `true` for a persistent record of it
that recovery reads. -/
theorem handed_over {s : StoreProvider} {queues : List UInt64} (hq : Recoverable s queues) (smart : Bool)
    (loadContent : UInt64 → Bytes → UInt64 → Bool) (malloc : List PendingOperationId → Bool) {pid qid : UInt64}
    (hqid : qid ∈ queues) (hrec : s.ToRecover pid qid) {R : Recovered}
    (hR : recoverMessages loadContent malloc queues (s.restart smart) = some R) :
    (R.messageMap.contains pid = true ∧ qid ∈ R.messageQueueMap.queues pid) ↔
      ∃ v, s.Reads pid qid v ∧ Taken loadContent pid v := by
  have hspec := recoverMessages_spec (hq.restart smart) hR
  have horph : (readLogs (s.restart smart)).orphaned qid pid = false := by
    unfold RecoveryState.orphaned
    rw [(readLogs_restart smart s).1, hrec.2]
    rfl
  have hread : ∀ v, (pid, v) ∈ (readLogs (s.restart smart)).recordsOf qid ↔ s.Reads pid qid v := by
    intro v
    rw [mem_recordsOf, stored_restart, contains_restart, s.copies_restart smart, (hq.2 qid).1 hqid]
    simp only [Reads, true_and]
  have hdel : ∀ v, (pid, v) ∈ (readLogs (s.restart smart)).delivered loadContent qid ↔
      s.Reads pid qid v ∧ Taken loadContent pid v := by
    intro v
    rw [RecoveryState.mem_delivered, hread, horph]
    simp
  constructor
  · rintro ⟨-, hmem⟩
    obtain ⟨-, v, hv⟩ := (hspec.mem_queues pid qid).1 hmem
    exact ⟨v, (hdel v).1 hv⟩
  · rintro ⟨v, hv⟩
    have hv' := (hdel v).2 hv
    exact ⟨(hspec.known pid).2 ⟨qid, hqid, List.mem_map.2 ⟨(pid, v), hv', rfl⟩⟩,
      (hspec.mem_queues pid qid).2 ⟨hqid, v, hv'⟩⟩

theorem handed_over_firstStored :
    let s := (Run.exec StoreProvider.step [] (singleQueue false) firstStored).2
    ∃ R, recoverMessages (fun _ _ size => size = 2) (fun _ => false) [1] (s.restart false) = some R ∧
      R.messageMap.contains 1 = true ∧ 1 ∈ R.messageQueueMap.queues 1 := by
  let s := (Run.exec StoreProvider.step [] (singleQueue false) firstStored).2
  have hq : Recoverable s [1] := recoverable_of_keys (by decide +kernel)
  have hstored : s.stored 1 1 = some (msgEncode smallMessage) := by decide
  obtain ⟨R, hR⟩ : ∃ R, recoverMessages (fun _ _ size => size = 2) (fun _ => false) [1] (s.restart false) = some R :=
    Option.isSome_iff_exists.1 (by decide +kernel)
  exact ⟨R, hR, (handed_over hq false _ _ (by decide) ⟨Or.inl ⟨_, hstored, by decide⟩, by decide⟩ hR).2
    ⟨_, Or.inl hstored, by decide, by decide⟩⟩

/-- A message in the database is not handed over when `loadContent` answers `false`. -/
theorem message_dropped :
    ¬ ∀ (s : StoreProvider) (queues : List UInt64) (smart : Bool) (loadContent : UInt64 → Bytes → UInt64 → Bool)
      (malloc : List PendingOperationId → Bool) (R : Recovered), Recoverable s queues → s.Encoded →
      recoverMessages loadContent malloc queues (s.restart smart) = some R →
      ∀ qid ∈ queues, ∀ pid, s.ToRecover pid qid →
        R.messageMap.contains pid = true ∧ qid ∈ R.messageQueueMap.queues pid := by
  intro hall
  let s := (Run.exec StoreProvider.step [] (singleQueue false) firstStored).2
  have hq : Recoverable s [1] := recoverable_of_keys (by decide +kernel)
  have hdb : ∀ e ∈ s.journalList.entries, ∀ c ∈ e.2.recoverMessages, c.2 = msgEncode smallMessage := by decide
  have hlog : ∀ pae ∈ AsyncLog.pendingList s.aologger.recoverAsyncEnqueue.1,
      pae = smallMessage.pending pae.msgId pae.queueId := by decide
  have hencoded : s.Encoded := by
    refine ⟨fun pid qid v hv => ?_, fun pae hpae => ⟨smallMessage, hlog pae hpae⟩⟩
    obtain ⟨jc, hjc, hv⟩ := Option.bind_eq_some_iff.1 hv
    exact ⟨smallMessage, hdb _ (OrdMap.mem_entries.2 hjc) _ (jc.mem_recoverMessages.2 hv)⟩
  have hstored : s.stored 1 1 = some (msgEncode smallMessage) := by decide
  obtain ⟨R, hR, hnone⟩ : ∃ R ∈ recoverMessages (fun _ _ _ => false) (fun _ => true) [1] (s.restart false),
      R.messageMap.contains 1 = false := by decide +kernel
  have hover := hall s [1] false _ _ R hq hencoded hR 1 (by decide) 1 ⟨Or.inl ⟨_, hstored, by decide⟩, by decide⟩
  rw [hnone] at hover
  exact Bool.false_ne_true hover.1

end BdbMsgStore

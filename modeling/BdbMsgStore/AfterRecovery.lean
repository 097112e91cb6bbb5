import BdbMsgStore.DequeueSide
import BdbMsgStore.Freshness

/-!
# The state after recovery

The tasks that recovery schedules are enqueues and dequeues like any other: a resurrected store task is the entry of
its pair at its first step, and so is a resurrected `async_dequeue` task.  So the invariants of enqueues and dequeues
hold in the state after recovery (`RecoveredSpec.enqueueSide`, `RecoveredSpec.dequeueSide`), and with them everything
that was derived from them for runs.  The watermark starts at the largest id of a persistent message in the databases
(`le_newestSettled_iff`): the ids of the messages that come from the log do not count for it.
-/

namespace BdbMsgStore

open StoreProvider

/-- The enqueues in progress after recovery. -/
def Recovered.entries (R : Recovered) : Entries := fun k =>
  (TwoLevel.find? R.aeset k.2 k.1).bind fun pae =>
    if R.provider.journalList.contains k.2 then
      some ⟨pae, true, if R.provider.enableSmartAsync then .check else .put⟩
    else none

/-- The dequeues in progress after recovery. -/
def Recovered.dequeues (R : Recovered) : Dequeues := fun k =>
  if (TwoLevel.find? R.adset k.2 k.1).isSome && R.provider.journalList.contains k.2 then some (.wait (.dupTest 0))
  else none

/-- The state after the actions, in the plain mode and from an empty store with one queue. -/
def stateAfter (acts : List Action) : StoreProvider := (Run.exec StoreProvider.step [] (singleQueue false) acts).2

theorem run_stateAfter {acts : List Action}
    (hacts : Run.Allowed StoreProvider.step Orderly [] (singleQueue false) acts) :
    Run StoreProvider.step Orderly (singleQueue false) (Run.exec StoreProvider.step [] (singleQueue false) acts).1
      (stateAfter acts) :=
  Run.exec_of_allowed Run.nil hacts

/-- The recovery of such a state, by a broker that takes every message. -/
def recoverySample (s : StoreProvider) : Option Recovered :=
  recoverMessages (fun _ _ _ => true) (fun _ => true) [1] (s.restart false)

private theorem count_of_nodup {l : List Thread} (hl : l.Nodup) {t : Thread} {P : Prop} [Decidable P]
    (hiff : t ∈ l ↔ P) : l.count t = if P then 1 else 0 := by
  by_cases hP : P
  · rw [if_pos hP, List.count_eq_one_of_mem hl (hiff.2 hP)]
  · rw [if_neg hP, List.count_eq_zero.2 fun hm => hP (hiff.1 hm)]

namespace RecoveredSpec

variable {loadContent : UInt64 → Bytes → UInt64 → Bool} {queues : List UInt64} {s : StoreProvider} {smart : Bool}
  {R : Recovered} (h : RecoveredSpec loadContent queues (s.restart smart) R)

include h

theorem contains_eq (q : UInt64) : R.provider.journalList.contains q = s.journalList.contains q := by
  have hr := contains_restart smart s q
  unfold OrdMap.contains at hr ⊢
  rw [h.journal, Option.isSome_map, hr]

/-- The entry of a pair, by the pending enqueue behind it. -/
theorem entries_eq_some {k : PendingOperationId} {e : Entry} :
    R.entries k = some e ↔ e.pae ∈ AsyncLog.pendingList R.aeset ∧ e.pae.opId = k ∧
      s.journalList.contains k.2 = true ∧ e.newId = true ∧ e.stage = if smart then .check else .put := by
  have hsm : R.provider.enableSmartAsync = smart := h.enableSmartAsync
  have hfind : ∀ pae, TwoLevel.find? R.aeset k.2 k.1 = some pae ↔
      pae ∈ AsyncLog.pendingList R.aeset ∧ pae.opId = k := by
    intro pae
    rw [h.keyed.find?_iff, Prod.mk.injEq]
    constructor
    · rintro ⟨hm, h1, h2⟩
      exact ⟨hm, Prod.ext h2 h1⟩
    · rintro ⟨hm, rfl⟩
      exact ⟨hm, rfl, rfl⟩
  unfold Recovered.entries
  rw [Option.bind_eq_some_iff, hsm, h.contains_eq]
  constructor
  · rintro ⟨pae, hpae, he⟩
    obtain ⟨hmem, hk⟩ := (hfind pae).1 hpae
    split at he
    · rename_i hq
      cases he
      exact ⟨hmem, hk, hq, rfl, rfl⟩
    · cases he
  · rintro ⟨hmem, hk, hq, hnew, hstage⟩
    refine ⟨e.pae, (hfind _).2 ⟨hmem, hk⟩, ?_⟩
    rw [if_pos hq]
    obtain ⟨pae, newId, stage⟩ := e
    cases hnew
    cases hstage
    rfl

private theorem nodup_stores :
    (((AsyncLog.pendingList R.aeset).filter fun pae => (s.restart smart).journalList.contains pae.queueId).map
      (Thread.store (s.restart smart).firstPc)).Nodup := by
  have hnd : (AsyncLog.pendingList R.aeset).Nodup := by
    have hk := h.keyed.nodup
    exact List.Nodup.of_map _ hk
  refine (hnd.filter _).map fun a b hab => ?_
  cases hab
  rfl

/-- The store tasks are those of the entries. -/
private theorem count_store {t : Thread} (ht : t.isEnqueue = true) :
    R.provider.threads.count t = if (R.entries t.key).bind Entry.thread = some t then 1 else 0 := by
  rw [h.threads, List.count_append, List.count_append]
  have h1 : ((s.restart smart).threads).count t = 0 := rfl
  have h2 : (((AsyncLog.pendingList R.adset).filter fun pad =>
      (s.restart smart).journalList.contains pad.queueId).map fun pad =>
        Thread.asyncDequeue (.wait (.dupTest 0)) pad.msgId pad.queueId).count t = 0 := by
    rw [List.count_eq_zero]
    intro hmem
    obtain ⟨pad, -, rfl⟩ := List.mem_map.1 hmem
    cases ht
  rw [h1, h2, Nat.zero_add, Nat.add_zero]
  refine count_of_nodup h.nodup_stores ?_
  rw [List.mem_map, Option.bind_eq_some_iff]
  constructor
  · rintro ⟨pae, hpae, rfl⟩
    obtain ⟨hmem, hq⟩ := List.mem_filter.1 hpae
    refine ⟨⟨pae, true, if smart then .check else .put⟩, h.entries_eq_some.2 ⟨hmem, rfl, ?_, rfl, rfl⟩, ?_⟩
    · rw [← contains_restart smart]
      exact hq
    · cases smart <;> rfl
  · rintro ⟨e, he, het⟩
    obtain ⟨hmem, hk, hq, -, hstage⟩ := h.entries_eq_some.1 he
    refine ⟨e.pae, List.mem_filter.2 ⟨hmem, ?_⟩, ?_⟩
    · rw [contains_restart, show e.pae.queueId = t.key.2 by rw [← hk]; rfl]
      exact hq
    · unfold Entry.thread at het
      cases smart with
      | true =>
        rw [hstage] at het
        exact Option.some.inj het
      | false =>
        rw [hstage] at het
        exact Option.some.inj het

/-- The dequeue of a pair, by the pending dequeue behind it. -/
theorem dequeues_eq_some {k : PendingOperationId} {d : DeqStage} :
    R.dequeues k = some d ↔ (readLogs (s.restart smart)).remainsDequeue queues k.2 k.1 = true ∧
      s.journalList.contains k.2 = true ∧ d = .wait (.dupTest 0) := by
  unfold Recovered.dequeues
  rw [h.contains_eq, h.adset]
  split
  · rename_i hc
    rw [Bool.and_eq_true] at hc
    simp [hc, eq_comm]
  · rename_i hc
    rw [Bool.and_eq_true] at hc
    simp only [reduceCtorEq, false_iff]
    rintro ⟨h1, h2, -⟩
    exact hc ⟨h1, h2⟩

private theorem nodup_dequeues :
    (((AsyncLog.pendingList R.adset).filter fun pad => (s.restart smart).journalList.contains pad.queueId).map
      fun pad => Thread.asyncDequeue (.wait (.dupTest 0)) pad.msgId pad.queueId).Nodup := by
  have hnd : (AsyncLog.pendingList R.adset).Nodup := List.Nodup.of_map _ h.keyedDequeues.nodup
  refine (hnd.filter _).map fun a b hab => ?_
  obtain ⟨⟨m, q⟩⟩ := a
  obtain ⟨⟨m', q'⟩⟩ := b
  cases hab
  rfl

/-- The `async_dequeue` tasks are those of the dequeues. -/
private theorem count_asyncDequeue {t : Thread} (ht : t.isEnqueue = false) :
    R.provider.threads.count t = if (R.dequeues t.key).bind (DeqStage.thread t.key) = some t then 1 else 0 := by
  rw [h.threads, List.count_append, List.count_append]
  have h1 : ((s.restart smart).threads).count t = 0 := rfl
  have h2 : (((AsyncLog.pendingList R.aeset).filter fun pae =>
      (s.restart smart).journalList.contains pae.queueId).map
        (Thread.store (s.restart smart).firstPc)).count t = 0 := by
    rw [List.count_eq_zero]
    intro hmem
    obtain ⟨pae, -, rfl⟩ := List.mem_map.1 hmem
    cases ht
  rw [h1, h2, Nat.zero_add]
  refine count_of_nodup h.nodup_dequeues ?_
  rw [List.mem_map, Option.bind_eq_some_iff]
  constructor
  · rintro ⟨pad, hpad, rfl⟩
    obtain ⟨hmem, hq⟩ := List.mem_filter.1 hpad
    refine ⟨_, h.dequeues_eq_some.2 ⟨?_, ?_, rfl⟩, rfl⟩
    · have hfind := (h.keyedDequeues.find?_iff _ _ _).2 ⟨hmem, rfl⟩
      rw [← h.adset]
      exact Option.isSome_iff_exists.2 ⟨pad, hfind⟩
    · rw [← contains_restart smart]
      exact hq
  · rintro ⟨d, hd, hdt⟩
    obtain ⟨hrem, hq, rfl⟩ := h.dequeues_eq_some.1 hd
    rw [← h.adset] at hrem
    obtain ⟨pad, hpad⟩ := Option.isSome_iff_exists.1 hrem
    obtain ⟨hmem, hkey⟩ := (h.keyedDequeues.find?_iff _ _ _).1 hpad
    obtain ⟨hk2, hk1⟩ := Prod.mk.inj hkey
    refine ⟨pad, List.mem_filter.2 ⟨hmem, ?_⟩, ?_⟩
    · rw [contains_restart, hk2]
      exact hq
    · rw [hk1, hk2]
      exact Option.some.inj hdt

/-- The invariant of the enqueues holds after recovery. -/
theorem enqueueSide : EnqueueSide (fun k => R.entries k ≠ none) [] R.provider R.entries := by
  intro k
  have hsm : R.provider.enableSmartAsync = smart := h.enableSmartAsync
  refine
    { key := fun e he => (h.entries_eq_some.1 he).2.1
      journal := fun e he => ?_
      threads := fun t ht htk => by subst htk; exact h.count_store ht
      called := fun newId m hm => nomatch hm
      known := Or.inr
      returned := fun hm => nomatch hm
      duplicate := ?_
      pending := fun hp => ?_
      smart := fun e he hst => ?_
      main := fun e he hst => ?_ }
  · rw [h.contains_eq]
    exact (h.entries_eq_some.1 he).2.2.1
  · rw [h.isDuplicate]
    constructor
    · intro hd
      cases hd
    · rintro ⟨e, he, hnew, -⟩
      rw [(h.entries_eq_some.1 he).2.2.2.1] at hnew
      cases hnew
  · rw [h.isPending, Bool.or_eq_true, Bool.and_eq_true, decide_eq_true_eq] at hp
    obtain ⟨hsmart, hmem⟩ := hp.resolve_left (fun hold => nomatch hold)
    replace hsmart : smart = true := hsmart
    obtain ⟨pae, hpae, hk⟩ := List.mem_map.1 hmem
    obtain ⟨hmem, hq⟩ := List.mem_filter.1 hpae
    refine ⟨hsm.trans hsmart, ⟨pae, true, if smart then .check else .put⟩,
      h.entries_eq_some.2 ⟨hmem, hk, ?_, rfl, rfl⟩, ?_⟩
    · rw [← contains_restart smart, ← (Prod.mk.inj hk).2]
      exact hq
    · rw [hsmart]
      rfl
  · rw [hsm]
    have hstage := (h.entries_eq_some.1 he).2.2.2.2
    cases smart with
    | true => rfl
    | false => rw [hstage] at hst; simp at hst
  · have hstage := (h.entries_eq_some.1 he).2.2.2.2
    rw [hst] at hstage
    cases smart <;> cases hstage

/-- The pairs with an entry are those of the pending enqueues that recovery adds to the records of their queue. -/
theorem entries_ne_none (hq : Recoverable s queues) {k : PendingOperationId} :
    R.entries k ≠ none ↔ k.2 ∈ queues ∧ ∃ pae ∈ (readLogs (s.restart smart)).copies k.2, pae.msgId = k.1 := by
  rw [hq.2]
  constructor
  · intro hne
    obtain ⟨e, he⟩ := Option.ne_none_iff_exists'.1 hne
    obtain ⟨hmem, rfl, hj, -, -⟩ := h.entries_eq_some.1 he
    obtain ⟨-, -, -, hcopy⟩ := (h.aeset _).1 hmem
    exact ⟨hj, e.pae, hcopy ((hq.2 _).2 hj), rfl⟩
  · rintro ⟨hj, pae, hpae, hp⟩
    obtain ⟨hpend, hqid, hd, htr⟩ := RecoveryState.mem_live.1 (RecoveryState.mem_live_of_copies hpae)
    have hk : pae.opId = k := Prod.ext hp hqid
    have hrem : (readLogs (s.restart smart)).Remains queues pae := by
      refine ⟨hpend, ?_, fun _ => htr, fun _ => ?_⟩
      · simp only [PendingAsyncEnqueue.dequeued, hqid, hd]
        rfl
      · rw [hqid]
        exact hpae
    rw [(h.entries_eq_some (e := ⟨pae, true, if smart then .check else .put⟩)).2
      ⟨(h.aeset pae).2 hrem, hk, hj, rfl, rfl⟩]
    simp

/-- The invariant of the dequeues holds after recovery. -/
theorem dequeueSide : DequeueSide (fun k => R.dequeues k ≠ none) [] R.provider R.dequeues := by
  intro k
  exact
    { threads := fun t ht htk => by subst htk; exact h.count_asyncDequeue ht
      called := fun hm => nomatch hm
      known := Or.inr
      returned := fun hm => nomatch hm }

end RecoveredSpec

/-! ### The first watermark -/

/-- Records of a database followed by log copies, all of them persistent: a log copy uses up its entry of
`penq_recovered`, unless a record of the database with the same id has done so and the copy counts in its place. -/
private theorem mem_unmatched {db log : List (UInt64 × Bytes)} {penq : MessageIdSet}
    (hlog : ∀ c ∈ log, transientFlag c.2 = false) (hnd : (log.map (·.1)).Nodup)
    (hpenq : ∀ p, penq.contains p = true → p ∈ log.map (·.1)) (p : UInt64) :
    p ∈ unmatched penq (db ++ log) ↔ p ∈ persistentIds db ∨ (p ∈ log.map (·.1) ∧ penq.contains p = false) := by
  have herase : ∀ (penq : MessageIdSet) (x y : UInt64),
      (penq.erase x).contains y = (penq.contains y && !decide (y = x)) := by
    intro penq x y
    unfold OrdMap.contains
    rw [OrdMap.find?_erase]
    by_cases hy : y = x <;> simp [hy]
  induction db generalizing penq with
  | nil =>
    have hpers : p ∉ persistentIds [] := by simp [persistentIds]
    rw [List.nil_append]
    simp only [hpers, false_or]
    clear hpenq
    -- the ids of the log copies are pairwise different
    induction log generalizing penq with
    | nil => simp [unmatched]
    | cons c log ih =>
      rw [List.map_cons, List.nodup_cons] at hnd
      have htr := hlog c (List.mem_cons_self ..)
      have ih' := fun penq => @ih (fun c' hc' => hlog c' (List.mem_cons_of_mem _ hc')) hnd.2 penq
      rw [unmatched, if_neg (by simp [htr])]
      split
      · rename_i hc
        refine (ih' _).trans ?_
        rw [herase, List.map_cons, List.mem_cons]
        constructor
        · rintro ⟨hmem, hnot⟩
          have hne : p ≠ c.1 := fun he => hnd.1 (he ▸ hmem)
          simp only [hne, decide_false, Bool.not_false, Bool.and_true] at hnot
          exact ⟨Or.inr hmem, hnot⟩
        · rintro ⟨rfl | hmem, hnot⟩
          · rw [hc] at hnot
            cases hnot
          · exact ⟨hmem, by simp [hnot]⟩
      · rename_i hc
        simp only [List.mem_cons, ih', List.map_cons]
        by_cases he : p = c.1
        · subst he
          simpa using hc
        · simp [he]
  | cons c db ih =>
    have hpers : p ∈ persistentIds (c :: db) ↔
        (transientFlag c.2 = false ∧ p = c.1) ∨ p ∈ persistentIds db := by
      cases hc : transientFlag c.2 <;> simp [persistentIds, hc]
    rw [List.cons_append, unmatched, hpers]
    split
    · rename_i htr
      refine (ih hpenq).trans ?_
      simp [htr]
    · rename_i htr
      have htr' : transientFlag c.2 = false := by simpa using htr
      split
      · rename_i hc
        have hpenq' : ∀ x, OrdMap.contains (penq.erase c.1) x = true → x ∈ log.map (·.1) := by
          intro x hx
          rw [herase, Bool.and_eq_true] at hx
          exact hpenq x hx.1
        refine (ih hpenq').trans ?_
        rw [herase, htr']
        by_cases he : p = c.1
        · subst he
          simp [hpenq _ hc]
        · simp [he]
      · simp only [List.mem_cons, ih hpenq, htr', true_and, or_assoc]

namespace RecoveryState

variable (r : RecoveryState)

/-- The ids of the persistent messages in the database of a queue. -/
def dbIds (qid : UInt64) : List UInt64 :=
  match r.provider.journalList.find? qid with
  | some jc => persistentIds jc.recoverMessages
  | none => []

/-- The pending enqueues that recovery adds to the records are those of persistent messages. -/
def Agreeing (queues : List UInt64) : Prop := ∀ q ∈ queues, ∀ pae ∈ r.copies q, transientFlag pae.buff = false

variable {r}

theorem mem_dbIds {q p : UInt64} :
    p ∈ r.dbIds q ↔ ∃ v, r.provider.stored p q = some v ∧ transientFlag v = false := by
  unfold dbIds stored
  cases r.provider.journalList.find? q with
  | none => simp
  | some jc => simp only [mem_persistentIds, jc.mem_recoverMessages, Option.bind_some]

theorem mem_settledIds (hr : r.Keyed) {q : UInt64} (hj : r.provider.journalList.contains q = true)
    (hagree : ∀ pae ∈ r.copies q, transientFlag pae.buff = false) (p : UInt64) :
    p ∈ r.settledIds q ↔ p ∈ r.dbIds q := by
  obtain ⟨jc, hjc⟩ := Option.isSome_iff_exists.1 hj
  have hids : ((r.copies q).map fun pae => (pae.msgId, pae.buff)).map (·.1) = (r.copies q).map (·.msgId) := by
    rw [List.map_map]
    rfl
  have hnd : ((r.copies q).map (·.msgId)).Nodup := by
    simp only [copies, hjc]
    exact (nodup_live hr q).sublist ((logCopies_sublist jc 10 _).map _)
  have hrec : r.recordsOf q = jc.recoverMessages ++ (r.copies q).map fun pae => (pae.msgId, pae.buff) := by
    simp only [recordsOf, copies, hjc, records]
  unfold settledIds
  rw [hrec, mem_unmatched, hids]
  · have hdb : r.dbIds q = persistentIds jc.recoverMessages := by simp only [dbIds, hjc]
    rw [hdb, ← contains_idSet]
    cases OrdMap.contains (idSet (r.copies q)) p <;> simp
  · intro c hc
    obtain ⟨pae, hpae, rfl⟩ := List.mem_map.1 hc
    exact hagree pae hpae
  · rw [hids]
    exact hnd
  · intro x hx
    rw [hids]
    exact (contains_idSet _ x).1 hx

/-- With ids up to `2 ^ 63` the watermark starts at the largest id of a persistent message in a database. -/
theorem le_newestSettled_iff (hr : r.Keyed) {queues : List UInt64}
    (hj : ∀ q ∈ queues, r.provider.journalList.contains q = true) (hagree : r.Agreeing queues)
    (hsmall : ∀ q ∈ queues, ∀ p ∈ r.dbIds q, p ≤ 0x8000000000000000) (x : UInt64) :
    x ≤ r.newestSettled queues ↔ x = 0 ∨ ∃ q ∈ queues, ∃ p ∈ r.dbIds q, x ≤ p := by
  have hmem : ∀ q ∈ queues, ∀ p, p ∈ r.settledIds q ↔ p ∈ r.dbIds q :=
    fun q hq p => mem_settledIds hr (hj q hq) (hagree q hq) p
  unfold newestSettled
  rw [le_foldl_serialMax_iff fun q hq p hp => hsmall q hq p ((hmem q hq p).1 hp)]
  constructor
  · rintro (rfl | ⟨q, hq, p, hp, hx⟩)
    · exact Or.inl rfl
    · exact Or.inr ⟨q, hq, p, (hmem q hq p).1 hp, hx⟩
  · rintro (rfl | ⟨q, hq, p, hp, hx⟩)
    · exact Or.inl rfl
    · exact Or.inr ⟨q, hq, p, (hmem q hq p).2 hp, hx⟩

end RecoveryState

end BdbMsgStore

import BdbMsgStore.LogCrash
import BdbMsgStore.Resurrection

/-!
# The logs that recovery leaves

`recoverMessages` logs the pending operations again and then appends completions for those it drops from its two
maps.  `Settles` is the account of one log: the keys that were dropped from a map are the keys of the completions
appended to the log, each once.  It is proved for one queue (`settles_enqueues`, `settles_dequeues`) and added up over
the whole recovery (`recoverMessages_settles`).  So the operations pending in the logs at the end are those left in
the maps (`Settles.pending_iff`).

Recovery returns exactly when the logs can be read and every batch of completions is written whole
(`recoverMessages_isSome_iff`).
-/

namespace BdbMsgStore

open KeyedLog LogFormat StoreProvider

/-! ### A log that recovery has written again -/

namespace AsyncLog

variable {α : Type} {F : LogFormat α}

/-- The files when the log has been written again and more is appended: the pending starts, and what follows. -/
private theorem file_write (L : AsyncLog) (bytes : Bytes) :
    ((L.recoverAsync F).2.write bytes).file 0 = F.encodeAll (startRecords F (L.recoverAsync F).1) ++ bytes ∧
      ((L.recoverAsync F).2.write bytes).file 1 = [] ∧ ∀ r ∈ startRecords F (L.recoverAsync F).1, F.Keyed r := by
  have hlog : (L.recoverAsync F).2 = AsyncLog.write { L with file := fun _ => [], index := 0 }
      ((pendingList (L.recoverAsync F).1).flatMap F.startRecord) := foldl_logStart ..
  refine ⟨?_, ?_, fun r hr => ?_⟩
  · rw [hlog, encodeAll_startRecords]
    rfl
  · rw [hlog]
    rfl
  · obtain ⟨a, -, rfl⟩ := List.mem_map.1 hr
    rfl

/-- What the log says about a key: it was logged again if it was pending, and the records after that count. -/
theorem find?_recoverAsync_write (L : AsyncLog) (bytes : Bytes) (k : PendingOperationId) :
    TwoLevel.find? ((((L.recoverAsync F).2.write bytes).recoverAsync F).1) k.2 k.1 =
      (replay ((TwoLevel.find? (L.recoverAsync F).1 k.2 k.1).elim .idle .pending)
        (recordsOf k (F.records bytes))).pending? := by
  obtain ⟨hfile, hnil, hkeyed⟩ := file_write (F := F) L bytes
  have hopId : ∀ (k : PendingOperationId) a, TwoLevel.find? (L.recoverAsync F).1 k.2 k.1 = some a → F.opId a = k :=
    fun k a ha => congrArg Prod.swap (recoverAsync_keyed F L k.2 k.1 a ha)
  rw [AsyncLog.find?_recoverAsync, hfile, hnil, F.records_encodeAll_append hkeyed, F.records_nil, List.append_nil]
  unfold replayKey
  rw [recordsOf_append, recordsOf_startRecords hopId]
  cases TwoLevel.find? (L.recoverAsync F).1 k.2 k.1 <;> rfl

private theorem encodeAll_completes (ks : List PendingOperationId) :
    ks.flatMap F.completeRecord = F.encodeAll (ks.map .complete) ∧
      ∀ r ∈ ks.map (.complete : _ → LogRecord α), F.Keyed r := by
  refine ⟨?_, fun r hr => ?_⟩
  · unfold encodeAll
    rw [List.flatMap_map]
    rfl
  · obtain ⟨k', -, rfl⟩ := List.mem_map.1 hr
    trivial

/-- When only completions follow, the log can be read. -/
theorem thrown_completes (L : AsyncLog) (ks : List PendingOperationId) :
    (((L.recoverAsync F).2.write (ks.flatMap F.completeRecord)).replayFiles F).thrown = false := by
  obtain ⟨hfile, hnil, -⟩ := file_write (F := F) L (ks.flatMap F.completeRecord)
  unfold replayFiles
  rw [hfile, hnil, (encodeAll_completes (F := F) ks).1, ← encodeAll_append,
    show ([] : Bytes) = F.encodeAll [] from rfl,
    F.extractPendingFromFile_encode, F.extractPendingFromFile_encode, F.thrown_foldl, F.thrown_foldl]
  rfl

/-- They settle their keys. -/
theorem find?_recoverAsync_completes (L : AsyncLog) (ks : List PendingOperationId) (k : PendingOperationId) :
    TwoLevel.find? ((((L.recoverAsync F).2.write (ks.flatMap F.completeRecord)).recoverAsync F).1) k.2 k.1 =
      if k ∈ ks then none else TwoLevel.find? (L.recoverAsync F).1 k.2 k.1 := by
  obtain ⟨hbytes, hkeyed⟩ := encodeAll_completes (F := F) ks
  rw [find?_recoverAsync_write, hbytes, F.records_encodeAll hkeyed, pending?_replay_completeAll]
  cases TwoLevel.find? (L.recoverAsync F).1 k.2 k.1 <;> rfl

end AsyncLog

/-! ### The account of one log -/

/-- From the map `m` and the log `L` to `m'` and `L'`: the keys `ks` were dropped from the map, and completions for
them were appended to the log. -/
structure Settles {α : Type} (F : LogFormat α) (m m' : PendingSet α) (L L' : AsyncLog)
    (ks : List PendingOperationId) : Prop where
  nodup : ks.Nodup
  dropped : ∀ k, k ∈ ks ↔ TwoLevel.find? m k.2 k.1 ≠ none ∧ TwoLevel.find? m' k.2 k.1 = none
  kept : ∀ k : PendingOperationId, TwoLevel.find? m' k.2 k.1 ≠ none → TwoLevel.find? m k.2 k.1 ≠ none
  log : L' = ks.foldl (AsyncLog.logComplete F) L

namespace Settles

variable {α : Type} {F : LogFormat α} {m m' m'' : PendingSet α} {L L' L'' : AsyncLog}
  {ks ks' : List PendingOperationId}

theorem refl (F : LogFormat α) (m : PendingSet α) (L : AsyncLog) : Settles F m m L L [] where
  nodup := List.nodup_nil
  dropped := fun _ => ⟨fun hk => absurd hk List.not_mem_nil, fun hk => absurd hk.2 hk.1⟩
  kept := fun _ => id
  log := rfl

theorem trans (h : Settles F m m' L L' ks) (h' : Settles F m' m'' L' L'' ks') :
    Settles F m m'' L L'' (ks ++ ks') where
  nodup := by
    refine List.nodup_append.2 ⟨h.nodup, h'.nodup, ?_⟩
    rintro k hk _ hk' rfl
    exact ((h'.dropped k).1 hk').1 ((h.dropped k).1 hk).2
  dropped := by
    intro k
    rw [List.mem_append, h.dropped, h'.dropped]
    constructor
    · rintro (⟨h1, h2⟩ | ⟨h1, h2⟩)
      · refine ⟨h1, ?_⟩
        by_contra hne
        exact h'.kept k hne h2
      · exact ⟨h.kept k h1, h2⟩
    · rintro ⟨h1, h2⟩
      by_cases hmid : TwoLevel.find? m' k.2 k.1 = none
      · exact Or.inl ⟨h1, hmid⟩
      · exact Or.inr ⟨hmid, h2⟩
  kept := fun k hk => h.kept k (h'.kept k hk)
  log := by rw [List.foldl_append, ← h.log, ← h'.log]

/-! ### What is pending in the log -/

section Recovered

variable {L₀ : AsyncLog} (h : Settles F (L₀.recoverAsync F).1 m' (L₀.recoverAsync F).2 L' ks)

include h

/-- The log can be read without an exception. -/
theorem not_thrown : (L'.replayFiles F).thrown = false := by
  rw [h.log, AsyncLog.foldl_logComplete]
  exact AsyncLog.thrown_completes L₀ ks

/-- What was dropped from the map is no longer pending in the log. -/
theorem find?_recoverAsync (k : PendingOperationId) :
    TwoLevel.find? (L'.recoverAsync F).1 k.2 k.1 =
      if k ∈ ks then none else TwoLevel.find? (L₀.recoverAsync F).1 k.2 k.1 := by
  rw [h.log, AsyncLog.foldl_logComplete]
  exact AsyncLog.find?_recoverAsync_completes L₀ ks k

/-- What is pending in the log is what is left in the map. -/
theorem pending_iff (k : PendingOperationId) :
    TwoLevel.find? (L'.recoverAsync F).1 k.2 k.1 ≠ none ↔ TwoLevel.find? m' k.2 k.1 ≠ none := by
  rw [h.find?_recoverAsync]
  split
  · rename_i hk
    exact iff_of_false (fun hne => hne rfl) fun hne => hne ((h.dropped k).1 hk).2
  · rename_i hk
    exact ⟨fun hne hnone => hk ((h.dropped k).2 ⟨hne, hnone⟩), h.kept k⟩

end Recovered

end Settles

/-- The account of the map of pending enqueues: the entries `l` are dropped, and the others stay. -/
theorem settles_of_dropped {m m' : PendingEnqueueSet} {l : List PendingAsyncEnqueue} {L L' : AsyncLog}
    (hm : TwoLevel.Keyed (fun pae : PendingAsyncEnqueue => (pae.queueId, pae.msgId)) m)
    (hm' : TwoLevel.Keyed (fun pae : PendingAsyncEnqueue => (pae.queueId, pae.msgId)) m') (hnd : l.Nodup)
    (hl : ∀ pae ∈ l, pae ∈ AsyncLog.pendingList m)
    (hsub : ∀ pae ∈ AsyncLog.pendingList m', pae ∈ AsyncLog.pendingList m)
    (hdrop : ∀ pae ∈ AsyncLog.pendingList m, pae ∈ l ↔ pae ∉ AsyncLog.pendingList m')
    (hlog : L' = (l.map (·.opId)).foldl (AsyncLog.logComplete enqueueFormat) L) :
    Settles enqueueFormat m m' L L' (l.map (·.opId)) := by
  have hinj : ∀ a ∈ AsyncLog.pendingList m, ∀ b ∈ AsyncLog.pendingList m, a.opId = b.opId → a = b := by
    intro a ha b hb hab
    refine List.inj_on_of_nodup_map hm.nodup ha hb ?_
    exact congrArg Prod.swap hab
  have hfind : ∀ (k : PendingOperationId) pae, TwoLevel.find? m k.2 k.1 = some pae ↔
      pae ∈ AsyncLog.pendingList m ∧ pae.opId = k := fun k pae =>
    (hm.find?_iff k.2 k.1 pae).trans (and_congr_right fun _ => by
      rw [PendingAsyncOperation.opId, Prod.mk.injEq, Prod.ext_iff, and_comm])
  have hfind' : ∀ (k : PendingOperationId) pae, TwoLevel.find? m' k.2 k.1 = some pae ↔
      pae ∈ AsyncLog.pendingList m' ∧ pae.opId = k := fun k pae =>
    (hm'.find?_iff k.2 k.1 pae).trans (and_congr_right fun _ => by
      rw [PendingAsyncOperation.opId, Prod.mk.injEq, Prod.ext_iff, and_comm])
  refine ⟨hnd.map_on fun a ha b hb => hinj a (hl a ha) b (hl b hb), fun k => ?_, fun k hk => ?_, hlog⟩
  · rw [List.mem_map]
    constructor
    · rintro ⟨pae, hpae, hk⟩
      refine ⟨?_, ?_⟩
      · rw [(hfind k pae).2 ⟨hl pae hpae, hk⟩]
        simp
      · rw [Option.eq_none_iff_forall_ne_some]
        intro pae' hpae'
        obtain ⟨hmem, hk'⟩ := (hfind' k pae').1 hpae'
        obtain rfl := hinj pae (hl pae hpae) pae' (hsub pae' hmem) (hk.trans hk'.symm)
        exact (hdrop pae (hl pae hpae)).1 hpae hmem
    · rintro ⟨hne, hnone⟩
      obtain ⟨pae, hpae⟩ := Option.ne_none_iff_exists'.1 hne
      obtain ⟨hmem, hk⟩ := (hfind k pae).1 hpae
      refine ⟨pae, (hdrop pae hmem).2 fun hmem' => ?_, hk⟩
      rw [(hfind' k pae).2 ⟨hmem', hk⟩] at hnone
      cases hnone
  · obtain ⟨pae, hpae⟩ := Option.ne_none_iff_exists'.1 hk
    obtain ⟨hmem, hk⟩ := (hfind' k pae).1 hpae
    rw [(hfind k pae).2 ⟨hsub pae hmem, hk⟩]
    simp

/-! ### One queue -/

theorem overlap_sublist (jc : JournalImpl) (n : Nat) (l : List PendingAsyncEnqueue) : (overlap jc n l).Sublist l :=
  List.filter_sublist.trans (List.take_sublist n l)

theorem notMem_logCopies_of_overlap {jc : JournalImpl} {n : Nat} {l : List PendingAsyncEnqueue} (hl : l.Nodup)
    {pae : PendingAsyncEnqueue} (h : pae ∈ overlap jc n l) : pae ∉ logCopies jc n l := by
  obtain ⟨htake, hdb⟩ := List.mem_filter.1 h
  unfold logCopies
  rw [List.mem_append, not_or]
  constructor
  · intro hm
    have := (List.mem_filter.1 hm).2
    rw [hdb] at this
    cases this
  · intro hm
    rw [← List.take_append_drop n l, List.nodup_append] at hl
    exact hl.2.2 pae htake pae hm rfl

namespace RecoveryState

variable (r : RecoveryState)

/-- The pending dequeues of a queue that are dropped because their message is found among its records. -/
def accepted (qid : UInt64) : List PendingOperationId :=
  (acceptedOf (r.orphaned qid) (r.recordsOf qid)).map fun c => (c.1, qid)

variable {r}

theorem orphaned_iff {q p : UInt64} :
    r.orphaned q p = true ↔ TwoLevel.find? r.adset q p ≠ none ∧ TwoLevel.find? r.aeset q p = none := by
  unfold orphaned
  rw [Bool.and_eq_true, Option.isSome_iff_ne_none, Option.isNone_iff_eq_none]

theorem mem_useless (hr : r.Keyed) (k : PendingOperationId) :
    k ∈ r.useless.map (·.opId) ↔
      TwoLevel.find? r.aeset k.2 k.1 ≠ none ∧ TwoLevel.find? r.adset k.2 k.1 ≠ none := by
  rw [List.mem_map]
  constructor
  · rintro ⟨pae, hpae, rfl⟩
    obtain ⟨hmem, hd⟩ := List.mem_filter.1 hpae
    refine ⟨?_, Option.isSome_iff_ne_none.1 hd⟩
    rw [show TwoLevel.find? r.aeset pae.opId.2 pae.opId.1 = some pae from (find?_aeset hr).2 ⟨hmem, rfl, rfl⟩]
    simp
  · rintro ⟨he, hd⟩
    obtain ⟨pae, hpae⟩ := Option.ne_none_iff_exists'.1 he
    obtain ⟨hmem, hq, hp⟩ := (find?_aeset hr).1 hpae
    refine ⟨pae, List.mem_filter.2 ⟨hmem, ?_⟩, Prod.ext hp hq⟩
    unfold PendingAsyncEnqueue.dequeued
    rw [hq, hp]
    exact Option.isSome_iff_ne_none.2 hd

variable {jc : JournalImpl} {qid : UInt64} (hj : r.provider.journalList.find? qid = some jc)

include hj

private theorem recordsOf_eq : r.recordsOf qid = r.records jc qid := by
  simp only [recordsOf, hj]

theorem mem_accepted (k : PendingOperationId) :
    k ∈ r.accepted qid ↔ k.2 = qid ∧ k.1 ∈ persistentIds (r.records jc qid) ∧ r.orphaned qid k.1 = true := by
  unfold accepted
  rw [recordsOf_eq hj, List.mem_map]
  unfold persistentIds acceptedOf
  constructor
  · rintro ⟨c, hc, rfl⟩
    obtain ⟨hmem, hflags⟩ := List.mem_filter.1 hc
    rw [Bool.and_eq_true] at hflags
    exact ⟨rfl, List.mem_map_of_mem (List.mem_filter.2 ⟨hmem, hflags.1⟩), hflags.2⟩
  · rintro ⟨hq, hp, horph⟩
    obtain ⟨c, hc, hcp⟩ := List.mem_map.1 hp
    obtain ⟨hmem, htr⟩ := List.mem_filter.1 hc
    refine ⟨c, List.mem_filter.2 ⟨hmem, ?_⟩, Prod.ext hcp hq.symm⟩
    rw [htr, hcp, horph]
    rfl

theorem nodup_accepted (hr : r.Keyed) : (r.accepted qid).Nodup := by
  unfold accepted
  rw [recordsOf_eq hj, List.nodup_iff_pairwise_ne, List.pairwise_map]
  refine ((records_unique hr jc qid).sublist List.filter_sublist).imp_of_mem ?_
  intro a b ha _ hab he
  have horph := (List.mem_filter.1 ha).2
  rw [hab (Prod.mk.inj he).1, Bool.and_false] at horph
  cases horph

end RecoveryState

/-- The batches return exactly if each is written whole, and then the ids have been logged one by one. -/
theorem completeLogs_eq_some_iff {malloc : List PendingOperationId → Bool} {lg lg' : AsyncOperationLogger}
    {ts ds us : List PendingOperationId} :
    completeLogs malloc lg ts ds us = some lg' ↔
      (AsyncLog.Written (malloc ts) ts ∧ AsyncLog.Written (malloc ds) ds ∧ AsyncLog.Written (malloc us) us) ∧
        (((lg.enqueueCompletes ts).dequeueCompletes ds).enqueueCompletes us).dequeueCompletes us = lg' := by
  simp only [completeLogs, Option.bind_eq_bind, Option.bind_eq_some_iff,
    AsyncOperationLogger.logMassEnqueueComplete_eq_some_iff, AsyncOperationLogger.logMassDequeueComplete_eq_some_iff,
    AsyncOperationLogger.logMassEnqueueDequeueComplete_eq_some_iff]
  constructor
  · rintro ⟨_, ⟨hts, rfl⟩, _, ⟨hds, rfl⟩, hus, rfl⟩
    exact ⟨⟨hts, hds, hus⟩, rfl⟩
  · rintro ⟨⟨hts, hds, hus⟩, rfl⟩
    exact ⟨_, ⟨hts, rfl⟩, _, ⟨hds, rfl⟩, hus, rfl⟩

private theorem foldl_logEnqueueComplete (l : List PendingAsyncEnqueue) (lg : AsyncOperationLogger) :
    l.foldl (fun lg pae => lg.logEnqueueComplete pae.msgId pae.queueId) lg = lg.enqueueCompletes
      (l.map (·.opId)) := by
  unfold AsyncOperationLogger.enqueueCompletes
  rw [List.foldl_map]
  rfl

namespace DecodeSpec

variable {loadContent : UInt64 → Bytes → UInt64 → Bool} {malloc : List PendingOperationId → Bool} {jc : JournalImpl}
  {qid : UInt64} {r r' : RecoveryState} (h : DecodeSpec loadContent malloc jc qid r r') (hr : r.Keyed)

include h hr

/-- A pending enqueue is dropped by one of the three branches of the loop, or it is still there. -/
private theorem mem_dropped {pae : PendingAsyncEnqueue} (hpae : pae ∈ r.pending) :
    pae ∈ overlap jc 10 (r.live qid) ++ r.transients ++ r.useless ↔ pae ∉ r'.pending := by
  have hnd : (r.live qid).Nodup := List.Nodup.of_map _ (RecoveryState.nodup_live hr qid)
  rw [List.mem_append, List.mem_append]
  unfold RecoveryState.transients RecoveryState.useless
  rw [List.mem_filter, List.mem_filter]
  constructor
  · rintro ((hov | ⟨-, htr⟩) | ⟨-, hd⟩) hmem
    · have hlive := RecoveryState.mem_live.1 ((overlap_sublist jc 10 _).subset hov)
      rw [h.mem_pending, if_pos hlive.2.1] at hmem
      exact notMem_logCopies_of_overlap hnd hov hmem
    · have hlive := RecoveryState.mem_live.1 (h.mem_live_of_pending hmem)
      rw [hlive.2.2.2] at htr
      simp at htr
    · have hlive := RecoveryState.mem_live.1 (h.mem_live_of_pending hmem)
      unfold PendingAsyncEnqueue.dequeued at hd
      rw [hlive.2.2.1] at hd
      cases hd
  · intro hmem
    cases hd : pae.dequeued r.adset with
    | true => exact Or.inr ⟨hpae, rfl⟩
    | false =>
      cases htr : pae.transient with
      | true => exact Or.inl (Or.inr ⟨hpae, by rfl⟩)
      | false =>
        have hlive : pae ∈ r.live pae.queueId :=
          RecoveryState.mem_live.2 ⟨hpae, rfl, by simpa [PendingAsyncEnqueue.dequeued] using hd, htr⟩
        rw [h.mem_pending] at hmem
        split at hmem
        · rename_i hq
          rw [hq] at hlive
          exact Or.inl (Or.inl (((mem_logCopies_or_overlap jc 10 pae _).1 hlive).resolve_left hmem))
        · exact absurd hlive hmem

omit h in
private theorem nodup_dropped : (overlap jc 10 (r.live qid) ++ r.transients ++ r.useless).Nodup := by
  have hpend : r.pending.Nodup := List.Nodup.of_map _ (RecoveryState.nodup_opId hr)
  have hov : (overlap jc 10 (r.live qid)).Nodup :=
    hpend.sublist ((overlap_sublist jc 10 _).trans List.filter_sublist)
  have hlive : ∀ pae ∈ overlap jc 10 (r.live qid), pae.dequeued r.adset = false ∧ pae.transient = false := by
    intro pae hm
    have hl := RecoveryState.mem_live.1 ((overlap_sublist jc 10 _).subset hm)
    refine ⟨?_, hl.2.2.2⟩
    unfold PendingAsyncEnqueue.dequeued
    rw [hl.2.1, hl.2.2.1]
    rfl
  refine List.nodup_append.2 ⟨List.nodup_append.2 ⟨hov, hpend.sublist List.filter_sublist, ?_⟩,
    hpend.sublist List.filter_sublist, ?_⟩
  · rintro pae hm _ hm' rfl
    have htr := (List.mem_filter.1 hm').2
    rw [(hlive pae hm).2] at htr
    simp at htr
  · rintro pae hm _ hm' rfl
    have hd := (List.mem_filter.1 hm').2
    rcases List.mem_append.1 hm with hm | hm
    · rw [(hlive pae hm).1] at hd
      cases hd
    · have htr := (List.mem_filter.1 hm).2
      rw [hd] at htr
      cases htr

omit hr in
/-- The logs after one queue, when its completions are logged one by one. -/
private theorem aologger_eq :
    r'.provider.aologger =
      ((((r.provider.aologger.enqueueCompletes ((overlap jc 10 (r.live qid)).map (·.opId))).enqueueCompletes
        (r.transients.map (·.opId))).dequeueCompletes
        ((acceptedOf (r.orphaned qid) (r.records jc qid)).map fun c => (c.1, qid))).enqueueCompletes
        (r.useless.map (·.opId))).dequeueCompletes (r.useless.map (·.opId)) := by
  have hlogs := (completeLogs_eq_some_iff.1 h.aologger).2
  rw [foldl_logEnqueueComplete] at hlogs
  exact hlogs.symm

/-- The account of the enqueue log, for one queue. -/
theorem settles_enqueues :
    Settles enqueueFormat r.aeset r'.aeset r.provider.aologger.enqueueLog r'.provider.aologger.enqueueLog
      ((overlap jc 10 (r.live qid) ++ r.transients ++ r.useless).map (·.opId)) := by
  refine settles_of_dropped hr h.keyed (nodup_dropped hr) (fun pae hpae => ?_) (fun pae hpae => ?_)
    (fun pae hpae => h.mem_dropped hr hpae) ?_
  · rcases List.mem_append.1 hpae with hpae | hpae
    · rcases List.mem_append.1 hpae with hpae | hpae
      · exact (RecoveryState.mem_live.1 ((overlap_sublist jc 10 _).subset hpae)).1
      · exact (List.mem_filter.1 hpae).1
    · exact (List.mem_filter.1 hpae).1
  · exact (RecoveryState.mem_live.1 (h.mem_live_of_pending hpae)).1
  · rw [h.aologger_eq, List.map_append, List.map_append, List.foldl_append, List.foldl_append]
    simp only [AsyncOperationLogger.enqueueCompletes_eq, AsyncOperationLogger.dequeueCompletes_eq]

/-- The account of the dequeue log, for one queue. -/
theorem settles_dequeues (hj : r.provider.journalList.find? qid = some jc) :
    Settles dequeueFormat r.adset r'.adset r.provider.aologger.dequeueLog r'.provider.aologger.dequeueLog
      (r.accepted qid ++ r.useless.map (·.opId)) := by
  refine ⟨List.nodup_append.2 ⟨RecoveryState.nodup_accepted hj hr, ?_, ?_⟩, fun k => ?_, fun k hk => ?_, ?_⟩
  · exact (RecoveryState.nodup_opId hr).sublist (List.filter_sublist.map _)
  · rintro k hk _ hk' rfl
    obtain ⟨hq, -, horph⟩ := (RecoveryState.mem_accepted hj k).1 hk
    rw [← hq] at horph
    exact ((RecoveryState.mem_useless hr k).1 hk').1 (RecoveryState.orphaned_iff.1 horph).2
  · rw [List.mem_append, RecoveryState.mem_accepted hj, RecoveryState.mem_useless hr, h.adset]
    constructor
    · rintro (⟨hq, hp, horph⟩ | ⟨he, hd⟩)
      · rw [← hq] at horph
        exact ⟨(RecoveryState.orphaned_iff.1 horph).1, if_pos (Or.inr ⟨hq, hp⟩)⟩
      · exact ⟨hd, if_pos (Or.inl (Option.isSome_iff_ne_none.2 he))⟩
    · rintro ⟨hd, hgone⟩
      split at hgone
      · rename_i hcond
        by_cases he : TwoLevel.find? r.aeset k.2 k.1 = none
        · obtain ⟨hq, hp⟩ := hcond.resolve_left fun hs => Option.isSome_iff_ne_none.1 hs he
          refine Or.inl ⟨hq, hp, ?_⟩
          rw [← hq]
          exact RecoveryState.orphaned_iff.2 ⟨hd, he⟩
        · exact Or.inr ⟨he, hd⟩
      · exact absurd hgone hd
  · rw [h.adset] at hk
    split at hk
    · exact absurd rfl hk
    · exact hk
  · have hacc : (acceptedOf (r.orphaned qid) (r.records jc qid)).map (fun c => (c.1, qid)) = r.accepted qid := by
      simp only [RecoveryState.accepted, RecoveryState.recordsOf, hj]
    rw [h.aologger_eq, hacc, List.foldl_append]
    simp only [AsyncOperationLogger.enqueueCompletes_eq, AsyncOperationLogger.dequeueCompletes_eq]

end DecodeSpec

/-! ### The end of recovery -/

section

variable {malloc : List PendingOperationId → Bool} {queues : List UInt64} {r : RecoveryState} {R : Recovered}
  (hr : r.Keyed) (hend : resurrect malloc queues r = some R)

include hr hend

private theorem resurrect_aologger :
    R.provider.aologger =
      (r.provider.aologger.enqueueCompletes (r.useless.map (·.opId))).dequeueCompletes (r.useless.map (·.opId)) :=
  (AsyncOperationLogger.logMassEnqueueDequeueComplete_eq_some_iff.1 (resurrect_pending hr hend).2.2.2).2.symm

theorem resurrect_settles_enqueues :
    Settles enqueueFormat r.aeset R.aeset r.provider.aologger.enqueueLog R.provider.aologger.enqueueLog
      (r.useless.map (·.opId)) := by
  obtain ⟨hkeyed, haeset, -, -⟩ := resurrect_pending hr hend
  have hpend : r.pending.Nodup := List.Nodup.of_map _ (RecoveryState.nodup_opId hr)
  refine settles_of_dropped hr hkeyed (hpend.sublist List.filter_sublist)
    (fun pae hpae => (List.mem_filter.1 hpae).1) (fun pae hpae => ?_) (fun pae hpae => ?_) ?_
  · rw [haeset] at hpae
    exact (List.mem_filter.1 hpae).1
  · rw [haeset]
    unfold RecoveryState.useless
    rw [List.mem_filter, List.mem_filter]
    cases pae.dequeued r.adset <;> simp [show pae ∈ r.pending from hpae]
  · rw [resurrect_aologger hr hend]
    simp only [AsyncOperationLogger.enqueueCompletes_eq, AsyncOperationLogger.dequeueCompletes_eq]

theorem resurrect_settles_dequeues :
    Settles dequeueFormat r.adset R.adset r.provider.aologger.dequeueLog R.provider.aologger.dequeueLog
      (r.useless.map (·.opId)) := by
  obtain ⟨-, -, hadset, -⟩ := resurrect_pending hr hend
  have hmem : ∀ k : PendingOperationId, k ∈ r.pending.map (·.opId) ↔ TwoLevel.find? r.aeset k.2 k.1 ≠ none := by
    intro k
    rw [RecoveryState.mem_opId hr, Option.isSome_iff_ne_none]
  refine ⟨(RecoveryState.nodup_opId hr).sublist (List.filter_sublist.map _), fun k => ?_, fun k hk => ?_, ?_⟩
  · rw [RecoveryState.mem_useless hr, hadset, ← hmem]
    split
    · rename_i hk
      exact ⟨fun h => ⟨h.2, rfl⟩, fun h => ⟨hk, h.1⟩⟩
    · rename_i hk
      exact ⟨fun h => absurd h.1 hk, fun h => absurd h.2 h.1⟩
  · rw [hadset] at hk
    split at hk
    · exact absurd rfl hk
    · exact hk
  · rw [resurrect_aologger hr hend]
    simp only [AsyncOperationLogger.enqueueCompletes_eq, AsyncOperationLogger.dequeueCompletes_eq]

end

/-! ### The whole recovery -/

/-- The accounts of the two logs when the loop has handled some queues. -/
structure LogsSettled (r₀ r : RecoveryState) : Prop where
  enqueues : ∃ ks, Settles enqueueFormat r₀.aeset r.aeset r₀.provider.aologger.enqueueLog
    r.provider.aologger.enqueueLog ks
  dequeues : ∃ ks, Settles dequeueFormat r₀.adset r.adset r₀.provider.aologger.dequeueLog
    r.provider.aologger.dequeueLog ks

namespace Handled

variable {loadContent : UInt64 → Bytes → UInt64 → Bool} {r₀ r r' : RecoveryState} {done : List UInt64}
  {malloc : List PendingOperationId → Bool}

variable (malloc) in
/-- The next queue goes to `decodeAndRecoverMsg` with the journal that it has at the start. -/
theorem recoverQueueMessages_eq (h : Handled loadContent r₀ done r) {qid : UInt64} (hnew : qid ∉ done)
    {jc : JournalImpl} (hjc : r₀.provider.journalList.find? qid = some jc) :
    r.provider.journalList.find? qid = some jc ∧
      recoverQueueMessages loadContent malloc r qid = decodeAndRecoverMsg loadContent malloc jc qid r := by
  have hj : r.provider.journalList.find? qid = some jc := by rw [h.journal, if_neg hnew, hjc]
  refine ⟨hj, ?_⟩
  unfold recoverQueueMessages
  rw [hj]

theorem logsSettled_step (h : Handled loadContent r₀ done r) (hs : LogsSettled r₀ r) {qid : UInt64}
    (hnew : qid ∉ done) (hj : r₀.provider.journalList.contains qid = true)
    (hreturn : recoverQueueMessages loadContent malloc r qid = some r') : LogsSettled r₀ r' := by
  obtain ⟨jc, hjc⟩ := Option.isSome_iff_exists.1 hj
  obtain ⟨hjr, heq⟩ := h.recoverQueueMessages_eq malloc hnew hjc
  have hspec := decodeAndRecoverMsg_spec h.keyed (heq ▸ hreturn)
  obtain ⟨ks, hks⟩ := hs.enqueues
  obtain ⟨ks', hks'⟩ := hs.dequeues
  exact ⟨⟨_, hks.trans (hspec.settles_enqueues h.keyed)⟩, ⟨_, hks'.trans (hspec.settles_dequeues h.keyed hjr)⟩⟩

theorem logsSettled_foldlM (h : Handled loadContent r₀ done r) (hs : LogsSettled r₀ r) {queues : List UInt64}
    (hnd : (done ++ queues).Nodup) (hj : ∀ q ∈ queues, r₀.provider.journalList.contains q = true)
    (hreturn : queues.foldlM (recoverQueueMessages loadContent malloc) r = some r') : LogsSettled r₀ r' := by
  induction queues generalizing done r with
  | nil =>
    cases hreturn
    exact hs
  | cons q queues ih =>
    obtain ⟨r₁, hfirst, hrest⟩ := Option.bind_eq_some_iff.1 hreturn
    have hnew : q ∉ done := fun hq => (List.nodup_append.1 hnd).2.2 q hq q (List.mem_cons_self ..) rfl
    have hq := hj q (List.mem_cons_self ..)
    rw [List.append_cons] at hnd
    exact ih (h.step hnew hq hfirst) (h.logsSettled_step hs hnew hq hfirst) hnd
      (fun q' hq' => hj q' (List.mem_cons_of_mem _ hq')) hrest

end Handled

/-- The accounts of the two logs at the end. -/
theorem recoverMessages_settles {loadContent : UInt64 → Bytes → UInt64 → Bool}
    {malloc : List PendingOperationId → Bool} {queues : List UInt64} {s : StoreProvider} {R : Recovered}
    (hq : Recoverable s queues) (hreturn : recoverMessages loadContent malloc queues s = some R) :
    (∃ ks, Settles enqueueFormat (readLogs s).aeset R.aeset (readLogs s).provider.aologger.enqueueLog
      R.provider.aologger.enqueueLog ks) ∧
    ∃ ks, Settles dequeueFormat (readLogs s).adset R.adset (readLogs s).provider.aologger.dequeueLog
      R.provider.aologger.dequeueLog ks := by
  obtain ⟨-, r, hloop, hend⟩ := recoverMessages_eq_some.1 hreturn
  have h := hq.handled hloop
  have hs : LogsSettled (readLogs s) (readLogs s) := ⟨⟨[], Settles.refl _ _ _⟩, ⟨[], Settles.refl _ _ _⟩⟩
  obtain ⟨⟨ks, hks⟩, ⟨ks', hks'⟩⟩ := (Handled.start loadContent s).logsSettled_foldlM hs (by simpa using hq.1)
    (fun q hmem => (hq.2 q).1 hmem) hloop
  exact ⟨⟨_, hks.trans (resurrect_settles_enqueues h.keyed hend)⟩,
    ⟨_, hks'.trans (resurrect_settles_dequeues h.keyed hend)⟩⟩

/-! ### When recovery returns -/

namespace RecoveryState

variable (r : RecoveryState) (malloc : List PendingOperationId → Bool)

/-- The batches of completions are written whole.  The completions of transient messages are logged with the first
queue. -/
def BatchesWritten (queues : List UInt64) : Prop :=
  (queues ≠ [] → AsyncLog.Written (malloc (r.transients.map (·.opId))) (r.transients.map (·.opId))) ∧
    (∀ q ∈ queues, AsyncLog.Written (malloc (r.accepted q)) (r.accepted q)) ∧
    AsyncLog.Written (malloc (r.useless.map (·.opId))) (r.useless.map (·.opId))

end RecoveryState

namespace Handled

variable {loadContent : UInt64 → Bytes → UInt64 → Bool} {r₀ r : RecoveryState} {done : List UInt64}
  {malloc : List PendingOperationId → Bool}

/-- Transient messages and pairs of pending operations are dropped with the first queue. -/
theorem dropped_nil (h : Handled loadContent r₀ done r) (hdone : done ≠ []) : r.transients = [] ∧ r.useless = [] := by
  have hlive := h.purged hdone
  unfold RecoveryState.transients RecoveryState.useless
  rw [List.filter_eq_nil_iff, List.filter_eq_nil_iff]
  constructor <;> intro pae hpae
  · have := hlive pae hpae
    unfold PendingAsyncEnqueue.live at this
    simp_all
  · have := hlive pae hpae
    unfold PendingAsyncEnqueue.live at this
    simp_all

variable (malloc) in
/-- One queue is handled if its batches are written whole. -/
private theorem isSome_step (h : Handled loadContent r₀ done r) {qid : UInt64} (hnew : qid ∉ done)
    (hj : r₀.provider.journalList.contains qid = true) :
    (recoverQueueMessages loadContent malloc r qid).isSome = true ↔
      AsyncLog.Written (malloc (r₀.accepted qid)) (r₀.accepted qid) ∧
      (done = [] → AsyncLog.Written (malloc (r₀.transients.map (·.opId))) (r₀.transients.map (·.opId)) ∧
        AsyncLog.Written (malloc (r₀.useless.map (·.opId))) (r₀.useless.map (·.opId))) := by
  obtain ⟨jc, hjc⟩ := Option.isSome_iff_exists.1 hj
  obtain ⟨hjr, heq⟩ := h.recoverQueueMessages_eq malloc hnew hjc
  have haccepted : (acceptedOf (r.orphaned qid) (r.records jc qid)).map (fun c => (c.1, qid)) = r₀.accepted qid := by
    simp only [RecoveryState.accepted, RecoveryState.recordsOf, hjc, RecoveryState.records, h.live_of_new hnew,
      h.orphaned_of_new hnew]
  rw [heq, decodeAndRecoverMsg_isSome loadContent malloc jc qid h.keyed, haccepted, Option.isSome_iff_exists]
  simp only [completeLogs_eq_some_iff, exists_and_left, exists_eq', and_true]
  by_cases hdone : done = []
  · rw [h.initial hdone, hdone]
    simp only [true_implies]
    exact and_left_comm
  · obtain ⟨hT, hU⟩ := h.dropped_nil hdone
    rw [hT, hU]
    simp [hdone, AsyncLog.written_nil]

variable (malloc) in
/-- All queues are handled if the batches of each are. -/
private theorem isSome_foldlM (h : Handled loadContent r₀ done r) {queues : List UInt64}
    (hnd : (done ++ queues).Nodup) (hj : ∀ q ∈ queues, r₀.provider.journalList.contains q = true) :
    (queues.foldlM (recoverQueueMessages loadContent malloc) r).isSome = true ↔
      (∀ q ∈ queues, AsyncLog.Written (malloc (r₀.accepted q)) (r₀.accepted q)) ∧
      (done = [] → queues ≠ [] →
        AsyncLog.Written (malloc (r₀.transients.map (·.opId))) (r₀.transients.map (·.opId)) ∧
        AsyncLog.Written (malloc (r₀.useless.map (·.opId))) (r₀.useless.map (·.opId))) := by
  induction queues generalizing done r with
  | nil => simp
  | cons q queues ih =>
    have hnew : q ∉ done := fun hq => (List.nodup_append.1 hnd).2.2 q hq q (List.mem_cons_self ..) rfl
    have hfirst := h.isSome_step malloc hnew (hj q (List.mem_cons_self ..))
    rw [List.append_cons] at hnd
    rw [List.foldlM_cons]
    cases hr : recoverQueueMessages loadContent malloc r q with
    | none =>
      rw [hr] at hfirst
      simp only [Option.bind_eq_bind, Option.bind_none, Option.isSome_none, Bool.false_eq_true, false_iff] at hfirst ⊢
      rintro ⟨hacc, hrest⟩
      exact hfirst ⟨hacc q (List.mem_cons_self ..), fun hd => hrest hd (List.cons_ne_nil _ _)⟩
    | some r₁ =>
      rw [hr] at hfirst
      obtain ⟨hacc, hbatches⟩ := hfirst.1 rfl
      have hrest := ih (h.step hnew (hj q (List.mem_cons_self ..)) hr) hnd
        fun q' hq' => hj q' (List.mem_cons_of_mem _ hq')
      rw [Option.bind_eq_bind, Option.bind_some, hrest]
      simp only [List.append_eq_nil_iff, List.cons_ne_self, and_false, false_implies, and_true, List.mem_cons,
        forall_eq_or_imp, hacc, true_and, ne_eq, not_false_eq_true, true_implies, reduceCtorEq]
      exact ⟨fun hq => ⟨hq, hbatches⟩, fun hq => hq.1⟩

end Handled

/-- Recovery returns exactly when the logs can be read and every batch of completions is written whole. -/
theorem recoverMessages_isSome_iff (loadContent : UInt64 → Bytes → UInt64 → Bool)
    (malloc : List PendingOperationId → Bool) {queues : List UInt64} {s : StoreProvider} (hq : Recoverable s queues) :
    (recoverMessages loadContent malloc queues s).isSome = true ↔
      s.logsThrow = false ∧ (readLogs s).BatchesWritten malloc queues := by
  have hstart := Handled.start loadContent s
  have hloop := hstart.isSome_foldlM malloc (by simpa using hq.1) fun q hmem => (hq.2 q).1 hmem
  have hend : ∀ {r}, Handled loadContent (readLogs s) queues r → ((resurrect malloc queues r).isSome = true ↔
      AsyncLog.Written (malloc (r.useless.map (·.opId))) (r.useless.map (·.opId))) := by
    intro r h
    rw [resurrect_isSome malloc queues h.keyed, Option.isSome_iff_exists]
    simp only [AsyncOperationLogger.logMassEnqueueDequeueComplete_eq_some_iff, exists_and_left, exists_eq', and_true]
  unfold RecoveryState.BatchesWritten recoverMessages
  cases s.logsThrow with
  | true => simp
  | false =>
    simp only [Bool.false_eq_true, if_false, true_and]
    cases hr : queues.foldlM (recoverQueueMessages loadContent malloc) (readLogs s) with
    | none =>
      rw [hr] at hloop
      simp only [Option.bind_eq_bind, Option.bind_none, Option.isSome_none, Bool.false_eq_true, false_iff] at hloop ⊢
      rintro ⟨hT, hacc, hU⟩
      exact hloop ⟨hacc, fun _ hne => ⟨hT hne, hU⟩⟩
    | some r =>
      rw [hr] at hloop
      obtain ⟨hacc, hbatches⟩ := hloop.1 rfl
      have h := hq.handled hr
      rw [Option.bind_eq_bind, Option.bind_some, hend h]
      by_cases hne : queues = []
      · rw [h.initial hne, hne]
        simp
      · rw [(h.dropped_nil hne).2]
        simp only [List.map_nil, AsyncLog.written_nil, true_iff]
        exact ⟨fun _ => (hbatches rfl hne).1, hacc, (hbatches rfl hne).2⟩

end BdbMsgStore

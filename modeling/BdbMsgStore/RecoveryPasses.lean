import BdbMsgStore.LogReplay
import BdbMsgStore.Recovery

/-!
# The two loops of `decodeAndRecoverMsg`

What each loop does, in closed form.  The first loop goes over the list of all pending enqueues.  Those with no
pending dequeue that are not transient are *live*; of the live ones of the queue, those among the first ten that are
in the database are dropped (`overlap`), and the others are added to the records of the queue (`logCopies`).
`sweepList_recoverPending` says this and what becomes of the other variables.  The second loop is a fold over the
records, described by `foldl_recoverMsg`.
-/

namespace BdbMsgStore

/-! ### Pending enqueues -/

/-- There is a pending dequeue for the pending enqueue. -/
def PendingAsyncEnqueue.dequeued (adset : PendingDequeueSet) (pae : PendingAsyncEnqueue) : Bool :=
  (TwoLevel.find? adset pae.queueId pae.msgId).isSome

/-- The pending enqueue survives the first loop, if its message is not found in the database. -/
def PendingAsyncEnqueue.live (adset : PendingDequeueSet) (pae : PendingAsyncEnqueue) : Bool :=
  !pae.dequeued adset && !pae.transient

/-- The live pending enqueues of a queue. -/
def liveOf (adset : PendingDequeueSet) (l : List PendingAsyncEnqueue) (qid : UInt64) : List PendingAsyncEnqueue :=
  l.filter fun pae => pae.live adset && decide (pae.queueId = qid)

/-- Those of the first `n` whose message is in the database. -/
def overlap (jc : JournalImpl) (n : Nat) (l : List PendingAsyncEnqueue) : List PendingAsyncEnqueue :=
  (l.take n).filter fun pae => jc.isEnqueued pae.msgId

/-- The others. -/
def logCopies (jc : JournalImpl) (n : Nat) (l : List PendingAsyncEnqueue) : List PendingAsyncEnqueue :=
  (l.take n).filter (fun pae => !jc.isEnqueued pae.msgId) ++ l.drop n

section

variable (jc : JournalImpl) (n : Nat) (pae : PendingAsyncEnqueue) (l : List PendingAsyncEnqueue)

private theorem overlap_cons :
    overlap jc n (pae :: l) =
      if 0 < n ∧ jc.isEnqueued pae.msgId = true then pae :: overlap jc (n - 1) l else overlap jc (n - 1) l := by
  unfold overlap
  cases n with
  | zero => simp
  | succ n =>
    cases h : jc.isEnqueued pae.msgId <;> simp [h]

private theorem logCopies_cons :
    logCopies jc n (pae :: l) =
      if 0 < n ∧ jc.isEnqueued pae.msgId = true then logCopies jc (n - 1) l else pae :: logCopies jc (n - 1) l := by
  unfold logCopies
  cases n with
  | zero => simp
  | succ n =>
    cases h : jc.isEnqueued pae.msgId <;> simp [h]

theorem mem_logCopies_or_overlap : pae ∈ l ↔ pae ∈ logCopies jc n l ∨ pae ∈ overlap jc n l := by
  unfold logCopies overlap
  conv_lhs => rw [← List.take_append_drop n l]
  simp only [List.mem_append, List.mem_filter]
  cases jc.isEnqueued pae.msgId <;> simp [or_comm]

theorem logCopies_sublist : (logCopies jc n l).Sublist l := by
  unfold logCopies
  conv_rhs => rw [← List.take_append_drop n l]
  exact List.filter_sublist.append (List.Sublist.refl _)

end

/-! ### The first loop -/

/-- What the first loop makes of the list `l` of pending enqueues and its variables `st`, when `D` are the pending
dequeues before it. -/
structure PendingPassSpec (jc : JournalImpl) (qid : UInt64) (D : PendingDequeueSet) (l : List PendingAsyncEnqueue)
    (st : PendingPass) (r : List PendingAsyncEnqueue × PendingPass) : Prop where
  keptSelf : r.1.filter (fun pae => decide (pae.queueId = qid)) = logCopies jc (10 - st.first) (liveOf D l qid)
  keptOther : ∀ q, q ≠ qid → r.1.filter (fun pae => decide (pae.queueId = q)) = liveOf D l q
  recovered : r.2.recovered =
    st.recovered ++ (logCopies jc (10 - st.first) (liveOf D l qid)).map fun pae => (pae.msgId, pae.buff)
  penqRecovered : ∀ p, r.2.penqRecovered.contains p = true ↔
    st.penqRecovered.contains p = true ∨ p ∈ (logCopies jc (10 - st.first) (liveOf D l qid)).map (·.msgId)
  adset : ∀ q p, TwoLevel.find? r.2.adset q p =
    if (p, q) ∈ l.map (·.opId) then none else TwoLevel.find? st.adset q p
  transientAsync : r.2.transientAsync = st.transientAsync ++
    (l.filter fun pae => !pae.dequeued D && pae.transient).map (·.opId)
  uselessAsync : r.2.uselessAsync = st.uselessAsync ++ (l.filter fun pae => pae.dequeued D).map (·.opId)
  aologger : r.2.aologger = (overlap jc (10 - st.first) (liveOf D l qid)).foldl
    (fun lg pae => lg.logEnqueueComplete pae.msgId pae.queueId) st.aologger

private theorem recoverPending_spec (jc : JournalImpl) (qid : UInt64) (st : PendingPass) (pae : PendingAsyncEnqueue) :
    recoverPending jc.isEnqueued qid st pae =
      if pae.dequeued st.adset then
        (false, { st with
          uselessAsync := st.uselessAsync ++ [pae.opId]
          adset := TwoLevel.erase st.adset pae.queueId pae.msgId })
      else if pae.transient then (false, { st with transientAsync := st.transientAsync ++ [pae.opId] })
      else if qid = pae.queueId then
        if 0 < 10 - st.first ∧ jc.isEnqueued pae.msgId = true then
          (false, { st with aologger := st.aologger.logEnqueueComplete pae.msgId pae.queueId, first := st.first + 1 })
        else
          (true, { st with
            first := if st.first < 10 then st.first + 1 else st.first
            recovered := st.recovered ++ [(pae.msgId, pae.buff)]
            penqRecovered := st.penqRecovered.insert pae.msgId () })
      else (true, st) := by
  simp only [recoverPending, PendingAsyncEnqueue.dequeued, Nat.sub_pos_iff_lt]

private theorem liveOf_cons (D : PendingDequeueSet) (pae : PendingAsyncEnqueue) (l : List PendingAsyncEnqueue)
    (q : UInt64) :
    liveOf D (pae :: l) q = if pae.live D && decide (pae.queueId = q) then pae :: liveOf D l q else liveOf D l q :=
  List.filter_cons

namespace PendingPassSpec

variable {jc : JournalImpl} {qid : UInt64} {D : PendingDequeueSet} {l : List PendingAsyncEnqueue}
  {pae : PendingAsyncEnqueue} {st : PendingPass} {r : List PendingAsyncEnqueue × PendingPass}

private theorem eq_opId (q p : UInt64) : (p, q) = pae.opId ↔ q = pae.queueId ∧ p = pae.msgId := by
  rw [PendingAsyncOperation.opId, Prod.mk.injEq]
  exact and_comm

/-- An entry without a pending dequeue leaves `adset` alone. -/
private theorem adset_cons (hnone : TwoLevel.find? st.adset pae.queueId pae.msgId = none) (q p : UInt64) :
    (if (p, q) ∈ l.map (·.opId) then none else TwoLevel.find? st.adset q p) =
      if (p, q) ∈ (pae :: l).map (·.opId) then none else TwoLevel.find? st.adset q p := by
  simp only [List.map_cons, List.mem_cons, eq_opId]
  by_cases h : q = pae.queueId ∧ p = pae.msgId
  · simp [h, hnone]
  · simp [h]

/-- An entry with a pending dequeue is dropped, and so is the dequeue. -/
private theorem dequeued (hd : pae.dequeued D = true)
    (h : PendingPassSpec jc qid D l { st with
      uselessAsync := st.uselessAsync ++ [pae.opId]
      adset := TwoLevel.erase st.adset pae.queueId pae.msgId } r) :
    PendingPassSpec jc qid D (pae :: l) st r := by
  have hlive : pae.live D = false := by simp [PendingAsyncEnqueue.live, hd]
  have hl : ∀ q, liveOf D (pae :: l) q = liveOf D l q := fun q => by rw [liveOf_cons, hlive]; rfl
  refine ⟨?_, fun q hq => ?_, ?_, fun p => ?_, fun q p => ?_, ?_, ?_, ?_⟩
  · rw [hl]; exact h.keptSelf
  · rw [hl]; exact h.keptOther q hq
  · rw [hl]; exact h.recovered
  · rw [hl]; exact h.penqRecovered p
  · rw [h.adset, TwoLevel.find?_erase]
    simp only [List.map_cons, List.mem_cons, eq_opId]
    by_cases h1 : (p, q) ∈ l.map (·.opId) <;> by_cases h2 : q = pae.queueId ∧ p = pae.msgId <;> simp [h1, h2]
  · rw [h.transientAsync, List.filter_cons]; simp [hd]
  · rw [h.uselessAsync, List.filter_cons]; simp [hd]
  · rw [hl]; exact h.aologger

/-- An entry of a transient message is dropped. -/
private theorem transient (hd : pae.dequeued D = false) (htr : pae.transient = true)
    (hnone : TwoLevel.find? st.adset pae.queueId pae.msgId = none)
    (h : PendingPassSpec jc qid D l { st with transientAsync := st.transientAsync ++ [pae.opId] } r) :
    PendingPassSpec jc qid D (pae :: l) st r := by
  have hlive : pae.live D = false := by simp [PendingAsyncEnqueue.live, htr]
  have hl : ∀ q, liveOf D (pae :: l) q = liveOf D l q := fun q => by rw [liveOf_cons, hlive]; rfl
  refine ⟨?_, fun q hq => ?_, ?_, fun p => ?_, fun q p => (h.adset q p).trans (adset_cons hnone q p), ?_, ?_, ?_⟩
  · rw [hl]; exact h.keptSelf
  · rw [hl]; exact h.keptOther q hq
  · rw [hl]; exact h.recovered
  · rw [hl]; exact h.penqRecovered p
  · rw [h.transientAsync, List.filter_cons]; simp [hd, htr]
  · rw [h.uselessAsync, List.filter_cons]; simp [hd]
  · rw [hl]; exact h.aologger

/-- A live entry of the queue, among the first ten and in the database, is dropped, and its completion is logged. -/
private theorem found (hlive : pae.live D = true) (hq : qid = pae.queueId)
    (hov : 0 < 10 - st.first ∧ jc.isEnqueued pae.msgId = true)
    (hnone : TwoLevel.find? st.adset pae.queueId pae.msgId = none)
    (h : PendingPassSpec jc qid D l { st with
      aologger := st.aologger.logEnqueueComplete pae.msgId pae.queueId, first := st.first + 1 } r) :
    PendingPassSpec jc qid D (pae :: l) st r := by
  have hflags : pae.dequeued D = false ∧ pae.transient = false := by
    simpa [PendingAsyncEnqueue.live] using hlive
  have hself : liveOf D (pae :: l) qid = pae :: liveOf D l qid := by rw [liveOf_cons, hlive, hq]; simp
  have hother : ∀ q, q ≠ qid → liveOf D (pae :: l) q = liveOf D l q := by
    intro q hne
    rw [liveOf_cons, if_neg (by simpa [hq] using fun _ he => hne (hq.trans he).symm)]
  have hfirst : 10 - (st.first + 1) = 10 - st.first - 1 := by omega
  refine ⟨?_, fun q hne => ?_, ?_, fun p => ?_, fun q p => (h.adset q p).trans (adset_cons hnone q p), ?_, ?_, ?_⟩
  · rw [hself, logCopies_cons, if_pos hov, ← hfirst]; exact h.keptSelf
  · rw [hother q hne]; exact h.keptOther q hne
  · rw [hself, logCopies_cons, if_pos hov, ← hfirst]; exact h.recovered
  · rw [hself, logCopies_cons, if_pos hov, ← hfirst]; exact h.penqRecovered p
  · rw [h.transientAsync, List.filter_cons]; simp [hflags]
  · rw [h.uselessAsync, List.filter_cons]; simp [hflags]
  · rw [hself, overlap_cons, if_pos hov, ← hfirst, h.aologger]
    rfl

/-- Any other live entry of the queue is added to its records. -/
private theorem copied (hlive : pae.live D = true) (hq : qid = pae.queueId)
    (hov : ¬ (0 < 10 - st.first ∧ jc.isEnqueued pae.msgId = true))
    (hnone : TwoLevel.find? st.adset pae.queueId pae.msgId = none)
    (h : PendingPassSpec jc qid D l { st with
      first := if st.first < 10 then st.first + 1 else st.first
      recovered := st.recovered ++ [(pae.msgId, pae.buff)]
      penqRecovered := st.penqRecovered.insert pae.msgId () } r) :
    PendingPassSpec jc qid D (pae :: l) st (pae :: r.1, r.2) := by
  have hflags : pae.dequeued D = false ∧ pae.transient = false := by
    simpa [PendingAsyncEnqueue.live] using hlive
  have hself : liveOf D (pae :: l) qid = pae :: liveOf D l qid := by rw [liveOf_cons, hlive, hq]; simp
  have hother : ∀ q, q ≠ qid → liveOf D (pae :: l) q = liveOf D l q := by
    intro q hne
    rw [liveOf_cons, if_neg (by simpa [hq] using fun _ he => hne (hq.trans he).symm)]
  have hfirst : 10 - (if st.first < 10 then st.first + 1 else st.first) = 10 - st.first - 1 := by
    split <;> omega
  have hcopies : logCopies jc (10 - st.first) (liveOf D (pae :: l) qid) =
      pae :: logCopies jc (10 - st.first - 1) (liveOf D l qid) := by
    rw [hself, logCopies_cons, if_neg hov]
  refine ⟨?_, fun q hne => ?_, ?_, fun p => ?_, fun q p => (h.adset q p).trans (adset_cons hnone q p), ?_, ?_, ?_⟩
  · rw [hcopies, List.filter_cons, if_pos (by simp [hq]), h.keptSelf, hfirst]
  · have hne' : pae.queueId ≠ q := fun he => hne (hq.trans he).symm
    rw [hother q hne, List.filter_cons, if_neg (by simpa using hne')]
    exact h.keptOther q hne
  · rw [hcopies, h.recovered, hfirst]
    simp
  · rw [hcopies, h.penqRecovered p, hfirst]
    simp only [OrdMap.contains, OrdMap.find?_insert, List.map_cons, List.mem_cons]
    by_cases hp : p = pae.msgId <;> simp [hp]
  · rw [h.transientAsync, List.filter_cons]; simp [hflags]
  · rw [h.uselessAsync, List.filter_cons]; simp [hflags]
  · rw [hself, overlap_cons, if_neg hov, ← hfirst]; exact h.aologger

/-- A live entry of another queue stays where it is. -/
private theorem other (hlive : pae.live D = true) (hq : qid ≠ pae.queueId)
    (hnone : TwoLevel.find? st.adset pae.queueId pae.msgId = none) (h : PendingPassSpec jc qid D l st r) :
    PendingPassSpec jc qid D (pae :: l) st (pae :: r.1, r.2) := by
  have hflags : pae.dequeued D = false ∧ pae.transient = false := by
    simpa [PendingAsyncEnqueue.live] using hlive
  have hself : liveOf D (pae :: l) qid = liveOf D l qid := by
    rw [liveOf_cons, if_neg (by simpa using fun _ he => hq he.symm)]
  refine ⟨?_, fun q hne => ?_, ?_, fun p => ?_, fun q p => (h.adset q p).trans (adset_cons hnone q p), ?_, ?_, ?_⟩
  · rw [hself, List.filter_cons, if_neg (by simpa using Ne.symm hq)]; exact h.keptSelf
  · rw [List.filter_cons, liveOf_cons, hlive, h.keptOther q hne]
    simp
  · rw [hself]; exact h.recovered
  · rw [hself]; exact h.penqRecovered p
  · rw [h.transientAsync, List.filter_cons]; simp [hflags]
  · rw [h.uselessAsync, List.filter_cons]; simp [hflags]
  · rw [hself]; exact h.aologger

end PendingPassSpec

/-- The first loop, as an induction over the pending enqueues with one case for each branch of its body. -/
theorem sweepList_recoverPending (jc : JournalImpl) (qid : UInt64) (D : PendingDequeueSet)
    (l : List PendingAsyncEnqueue) (st : PendingPass) (hnd : (l.map (·.opId)).Nodup)
    (hsame : ∀ pae ∈ l, TwoLevel.find? st.adset pae.queueId pae.msgId = TwoLevel.find? D pae.queueId pae.msgId) :
    PendingPassSpec jc qid D l st (TwoLevel.sweepList (recoverPending jc.isEnqueued qid) l st) := by
  induction l generalizing st with
  | nil =>
    exact
      { keptSelf := by simp [liveOf, logCopies, TwoLevel.sweepList]
        keptOther := by simp [liveOf, TwoLevel.sweepList]
        recovered := by simp [liveOf, logCopies, TwoLevel.sweepList]
        penqRecovered := by simp [liveOf, logCopies, TwoLevel.sweepList]
        adset := by simp [TwoLevel.sweepList]
        transientAsync := by simp [TwoLevel.sweepList]
        uselessAsync := by simp [TwoLevel.sweepList]
        aologger := by simp [liveOf, overlap, TwoLevel.sweepList] }
  | cons pae l ih =>
    rw [List.map_cons, List.nodup_cons] at hnd
    obtain ⟨hnot, hnd⟩ := hnd
    have hhead := hsame pae (List.mem_cons_self ..)
    have htail : ∀ p ∈ l, TwoLevel.find? st.adset p.queueId p.msgId = TwoLevel.find? D p.queueId p.msgId :=
      fun p hp => hsame p (List.mem_cons_of_mem _ hp)
    have hdeq : pae.dequeued st.adset = pae.dequeued D := by
      unfold PendingAsyncEnqueue.dequeued
      rw [hhead]
    simp only [TwoLevel.sweepList, recoverPending_spec]
    rw [hdeq]
    cases hd : pae.dequeued D with
    | true =>
      -- the other entries do not see that the dequeue is gone
      have htail' : ∀ p ∈ l, TwoLevel.find? (TwoLevel.erase st.adset pae.queueId pae.msgId) p.queueId p.msgId =
          TwoLevel.find? D p.queueId p.msgId := by
        intro p hp
        rw [TwoLevel.find?_erase, if_neg, htail p hp]
        intro he
        exact hnot (List.mem_map.2 ⟨p, hp, (PendingPassSpec.eq_opId _ _).2 he⟩)
      simp only [↓reduceIte, Bool.false_eq_true]
      exact PendingPassSpec.dequeued hd (ih _ hnd htail')
    | false =>
      have hnone : TwoLevel.find? st.adset pae.queueId pae.msgId = none := by
        rw [hhead]
        simpa [PendingAsyncEnqueue.dequeued] using hd
      simp only [↓reduceIte, Bool.false_eq_true]
      cases htr : pae.transient with
      | true =>
        simp only [↓reduceIte, Bool.false_eq_true]
        exact PendingPassSpec.transient hd htr hnone (ih _ hnd htail)
      | false =>
        have hlive : pae.live D = true := by simp [PendingAsyncEnqueue.live, htr, hd]
        simp only [↓reduceIte, Bool.false_eq_true]
        by_cases hq : qid = pae.queueId
        · by_cases hov : 0 < 10 - st.first ∧ jc.isEnqueued pae.msgId = true
          · simp only [if_pos hq, if_pos hov, Bool.false_eq_true, ↓reduceIte]
            exact PendingPassSpec.found hlive hq hov hnone (ih _ hnd htail)
          · simp only [if_pos hq, if_neg hov, ↓reduceIte]
            exact PendingPassSpec.copied hlive hq hov hnone (ih _ hnd htail)
        · simp only [if_neg hq, ↓reduceIte]
          exact PendingPassSpec.other hlive hq hnone (ih st hnd htail)

/-! ### The second loop -/

/-- The ids of the persistent messages among the records of a queue. -/
def persistentIds (records : List (UInt64 × Bytes)) : List UInt64 :=
  (records.filter fun c => !transientFlag c.2).map (·.1)

/-- The persistent records with a pending dequeue; `dequeued` says for which messages the queue has one. -/
def acceptedOf (dequeued : UInt64 → Bool) (records : List (UInt64 × Bytes)) : List (UInt64 × Bytes) :=
  records.filter fun c => !transientFlag c.2 && dequeued c.1

/-- The records that are handed to the broker. -/
def deliveries (loadContent : UInt64 → Bytes → UInt64 → Bool) (dequeued : UInt64 → Bool)
    (records : List (UInt64 × Bytes)) : List (UInt64 × Bytes) :=
  records.filter fun c => !transientFlag c.2 && !dequeued c.1 &&
    loadContent c.1 (storedHeader c.2) (contentSize c.2)

/-- The ids that count for `lastPid`: a persistent record uses up the entry of `penq_recovered` for its id, and
counts if there is none. -/
def unmatched : MessageIdSet → List (UInt64 × Bytes) → List UInt64
  | _, [] => []
  | penq, c :: records =>
    if transientFlag c.2 then unmatched penq records
    else if penq.contains c.1 then unmatched (penq.erase c.1) records
    else c.1 :: unmatched penq records

/-- `penq_recovered`: the ids of the pending enqueues that are added to the records. -/
def idSet (l : List PendingAsyncEnqueue) : MessageIdSet := l.foldl (fun ids pae => ids.insert pae.msgId ()) ∅

theorem contains_idSet (l : List PendingAsyncEnqueue) (p : UInt64) :
    (idSet l).contains p = true ↔ p ∈ l.map (·.msgId) := by
  have h : ∀ ids : MessageIdSet, (l.foldl (fun ids pae => ids.insert pae.msgId ()) ids).contains p = true ↔
      ids.contains p = true ∨ p ∈ l.map (·.msgId) := by
    induction l with
    | nil => simp
    | cons pae l ih =>
      intro ids
      rw [List.foldl_cons, ih, List.map_cons, List.mem_cons, ← or_assoc]
      simp only [OrdMap.contains, OrdMap.find?_insert]
      by_cases hp : p = pae.msgId <;> simp [hp]
  rw [idSet, h]
  simp [OrdMap.contains]

/-- The largest of some ids, and `0` when there is none. -/
def highest (ids : List UInt64) : UInt64 := ids.foldl (fun m p => max p m) 0

/-- What the second loop makes of its variables `st`, when `dequeued` are the messages with a pending dequeue
before it. -/
structure MessagePassSpec (loadContent : UInt64 → Bytes → UInt64 → Bool) (qid : UInt64) (dequeued : UInt64 → Bool)
    (records : List (UInt64 × Bytes)) (st r : MessagePass) : Prop where
  queues : ∀ p, r.messageQueueMap.queues p = st.messageQueueMap.queues p ++
    List.replicate (((deliveries loadContent dequeued records).map (·.1)).count p) qid
  messages : ∀ p msg, r.messageMap.find? p = some msg → st.messageMap.find? p = some msg ∨
    ∃ v, (p, v) ∈ deliveries loadContent dequeued records ∧ msg = ⟨storedHeader v, storedContent v⟩
  known : ∀ p, r.messageMap.contains p = true ↔
    st.messageMap.contains p = true ∨ p ∈ (deliveries loadContent dequeued records).map (·.1)
  adset : ∀ q p, TwoLevel.find? r.adset q p =
    if q = qid ∧ p ∈ persistentIds records then none else TwoLevel.find? st.adset q p
  maxRid : r.maxRid = (persistentIds records).foldl (fun m p => max p m) st.maxRid
  lastPid : r.lastPid = (unmatched st.penqRecovered records).foldl (fun m p => max p m) st.lastPid
  transientMsg : r.transientMsg = st.transientMsg ++ (records.filter fun c => transientFlag c.2).map (·.1)
  asyncAcceptedMsg : r.asyncAcceptedMsg = st.asyncAcceptedMsg ++ (acceptedOf dequeued records).map (·.1)
  dequeueCompletedAsync : r.dequeueCompletedAsync =
    st.dequeueCompletedAsync ++ (acceptedOf dequeued records).map fun c => (c.1, qid)

namespace MessagePassSpec

variable {loadContent : UInt64 → Bytes → UInt64 → Bool} {qid : UInt64} {dequeued : UInt64 → Bool}
  {c : UInt64 × Bytes} {records : List (UInt64 × Bytes)} {st r : MessagePass}

/-- A transient record is registered for deletion. -/
private theorem transient (htr : transientFlag c.2 = true)
    (h : MessagePassSpec loadContent qid dequeued records { st with transientMsg := st.transientMsg ++ [c.1] } r) :
    MessagePassSpec loadContent qid dequeued (c :: records) st r := by
  have hdel : deliveries loadContent dequeued (c :: records) = deliveries loadContent dequeued records := by
    simp [deliveries, htr]
  have hpers : persistentIds (c :: records) = persistentIds records := by simp [persistentIds, htr]
  have hacc : acceptedOf dequeued (c :: records) = acceptedOf dequeued records := by simp [acceptedOf, htr]
  refine ⟨fun p => ?_, fun p msg hm => ?_, fun p => ?_, fun q p => ?_, ?_, ?_, ?_, ?_, ?_⟩
  · rw [hdel]; exact h.queues p
  · rw [hdel]; exact h.messages p msg hm
  · rw [hdel]; exact h.known p
  · rw [hpers]; exact h.adset q p
  · rw [hpers]; exact h.maxRid
  · rw [unmatched, if_pos htr]; exact h.lastPid
  · rw [h.transientMsg, List.filter_cons, if_pos htr]
    simp
  · rw [hacc]; exact h.asyncAcceptedMsg
  · rw [hacc]; exact h.dequeueCompletedAsync

/-- A persistent record, by what the body makes of the variables: it counts for `maxRid` and perhaps for `lastPid`,
and is handed to the broker (`del`), accepted (`acc`), or neither. -/
private theorem persistent {st' : MessagePass} (del acc : Bool) (htr : transientFlag c.2 = false)
    (hdel : del = (!dequeued c.1 && loadContent c.1 (storedHeader c.2) (contentSize c.2)))
    (hacc : acc = dequeued c.1) (hmax : st'.maxRid = max c.1 st.maxRid)
    (hpenq : st'.penqRecovered = if st.penqRecovered.contains c.1 then st.penqRecovered.erase c.1
      else st.penqRecovered)
    (hlast : st'.lastPid = if st.penqRecovered.contains c.1 then st.lastPid else max c.1 st.lastPid)
    (htrans : st'.transientMsg = st.transientMsg)
    (hqueues : ∀ p, st'.messageQueueMap.queues p =
      st.messageQueueMap.queues p ++ List.replicate (if del = true ∧ c.1 = p then 1 else 0) qid)
    (hmsgs : ∀ p, st'.messageMap.find? p =
      if del = true ∧ p = c.1 then some ⟨storedHeader c.2, storedContent c.2⟩ else st.messageMap.find? p)
    (hadset : ∀ q p, TwoLevel.find? st'.adset q p =
      if q = qid ∧ p = c.1 then none else TwoLevel.find? st.adset q p)
    (hasync : st'.asyncAcceptedMsg = st.asyncAcceptedMsg ++ if acc then [c.1] else [])
    (hdone : st'.dequeueCompletedAsync = st.dequeueCompletedAsync ++ if acc then [(c.1, qid)] else [])
    (h : MessagePassSpec loadContent qid dequeued records st' r) :
    MessagePassSpec loadContent qid dequeued (c :: records) st r := by
  have hdeliv : deliveries loadContent dequeued (c :: records) =
      if del then c :: deliveries loadContent dequeued records else deliveries loadContent dequeued records := by
    simp [deliveries, List.filter_cons, htr, hdel]
  have hpers : persistentIds (c :: records) = c.1 :: persistentIds records := by
    simp [persistentIds, htr]
  have haccept : acceptedOf dequeued (c :: records) =
      if acc then c :: acceptedOf dequeued records else acceptedOf dequeued records := by
    simp [acceptedOf, List.filter_cons, htr, hacc]
  refine ⟨fun p => ?_, fun p msg hm => ?_, fun p => ?_, fun q p => ?_, ?_, ?_, ?_, ?_, ?_⟩
  · rw [h.queues, hqueues, hdeliv, List.append_assoc, List.replicate_append_replicate]
    congr 2
    cases del with
    | false => simp
    | true =>
      simp only [true_and, ↓reduceIte, List.map_cons, List.count_cons, beq_iff_eq]
      omega
  · rw [hdeliv]
    rcases h.messages p msg hm with hst | ⟨v, hv, rfl⟩
    · rw [hmsgs] at hst
      split at hst
      · rename_i hp
        cases hst
        refine Or.inr ⟨c.2, ?_, rfl⟩
        rw [hp.1, if_pos rfl, hp.2]
        exact List.mem_cons_self ..
      · exact Or.inl hst
    · refine Or.inr ⟨v, ?_, rfl⟩
      split
      · exact List.mem_cons_of_mem _ hv
      · exact hv
  · rw [h.known p, hdeliv]
    unfold OrdMap.contains
    rw [hmsgs]
    cases del with
    | false => simp
    | true => by_cases hp : p = c.1 <;> simp [hp]
  · rw [h.adset, hadset, hpers]
    by_cases hq : q = qid <;> by_cases hp : p = c.1 <;> simp [hq, hp]
  · rw [h.maxRid, hpers, hmax]
    rfl
  · rw [h.lastPid, unmatched, if_neg (by simp [htr]), hpenq, hlast]
    split
    · rfl
    · rfl
  · rw [h.transientMsg, htrans, List.filter_cons, if_neg (by simp [htr])]
  · rw [h.asyncAcceptedMsg, hasync, haccept]
    cases acc <;> simp
  · rw [h.dequeueCompletedAsync, hdone, haccept]
    cases acc <;> simp

end MessagePassSpec

/-- The body of the loop for a persistent record, variable by variable. -/
private theorem recoverMsg_persistent (loadContent : UInt64 → Bytes → UInt64 → Bool) (qid : UInt64)
    (st : MessagePass) {c : UInt64 × Bytes} (htr : transientFlag c.2 = false) :
    let acc := (TwoLevel.find? st.adset qid c.1).isSome
    let del := !acc && loadContent c.1 (storedHeader c.2) (contentSize c.2)
    recoverMsg loadContent qid st c =
      { adset := if acc then TwoLevel.erase st.adset qid c.1 else st.adset
        penqRecovered := if st.penqRecovered.contains c.1 then st.penqRecovered.erase c.1 else st.penqRecovered
        lastPid := if st.penqRecovered.contains c.1 then st.lastPid else max c.1 st.lastPid
        maxRid := max c.1 st.maxRid
        transientMsg := st.transientMsg
        asyncAcceptedMsg := st.asyncAcceptedMsg ++ if acc then [c.1] else []
        dequeueCompletedAsync := st.dequeueCompletedAsync ++ if acc then [(c.1, qid)] else []
        messageMap := if del then st.messageMap.assign c.1 ⟨storedHeader c.2, storedContent c.2⟩ else st.messageMap
        messageQueueMap :=
          if del then st.messageQueueMap.assign c.1 (st.messageQueueMap.queues c.1 ++ [qid])
          else st.messageQueueMap } := by
  unfold recoverMsg
  simp only [htr, Bool.false_eq_true, ↓reduceIte]
  cases st.penqRecovered.contains c.1 <;> cases hdq : TwoLevel.find? st.adset qid c.1 <;>
    cases loadContent c.1 (storedHeader c.2) (contentSize c.2) <;> simp [hdq]

/-- The second loop.  A record with a pending dequeue is the only one of its message. -/
theorem foldl_recoverMsg (loadContent : UInt64 → Bytes → UInt64 → Bool) (qid : UInt64) (dequeued : UInt64 → Bool)
    (records : List (UInt64 × Bytes)) (st : MessagePass)
    (hone : records.Pairwise fun a b => a.1 = b.1 → dequeued a.1 = false)
    (hsame : ∀ c ∈ records, (TwoLevel.find? st.adset qid c.1).isSome = dequeued c.1) :
    MessagePassSpec loadContent qid dequeued records st (records.foldl (recoverMsg loadContent qid) st) := by
  induction records generalizing st with
  | nil =>
    exact
      { queues := by simp [deliveries]
        messages := fun p msg hm => Or.inl hm
        known := by simp [deliveries]
        adset := by simp [persistentIds]
        maxRid := by simp [persistentIds]
        lastPid := by simp [unmatched]
        transientMsg := by simp
        asyncAcceptedMsg := by simp [acceptedOf]
        dequeueCompletedAsync := by simp [acceptedOf] }
  | cons c records ih =>
    rw [List.pairwise_cons] at hone
    obtain ⟨hone, hone'⟩ := hone
    have hhead := hsame c (List.mem_cons_self ..)
    have htail : ∀ c' ∈ records, (TwoLevel.find? st.adset qid c'.1).isSome = dequeued c'.1 :=
      fun c' hc' => hsame c' (List.mem_cons_of_mem _ hc')
    rw [List.foldl_cons]
    cases htr : transientFlag c.2 with
    | true =>
      have hst : recoverMsg loadContent qid st c = { st with transientMsg := st.transientMsg ++ [c.1] } := by
        simp [recoverMsg, htr]
      rw [hst]
      exact MessagePassSpec.transient htr (ih _ hone' htail)
    | false =>
      have hst := recoverMsg_persistent loadContent qid st htr
      simp only [hhead] at hst
      have hadset : ∀ q p, TwoLevel.find? (recoverMsg loadContent qid st c).adset q p =
          if q = qid ∧ p = c.1 then none else TwoLevel.find? st.adset q p := by
        intro q p
        rw [hst]
        simp only
        split
        · exact TwoLevel.find?_erase ..
        · rename_i hnone
          split
          · rename_i he
            rw [he.1, he.2]
            rw [← hhead] at hnone
            simpa using hnone
          · rfl
      have htail' : ∀ c' ∈ records, (TwoLevel.find? (recoverMsg loadContent qid st c).adset qid c'.1).isSome =
          dequeued c'.1 := by
        intro c' hc'
        rw [hadset]
        split
        · rename_i he
          rw [he.2, hone c' hc' he.2.symm]
          rfl
        · exact htail c' hc'
      refine MessagePassSpec.persistent _ _ htr rfl rfl (by rw [hst]) (by rw [hst]) (by rw [hst]) (by rw [hst]) ?_ ?_
        hadset (by rw [hst]) (by rw [hst]) (ih _ hone' htail')
      · intro p
        rw [hst]
        simp only [MessageQueueMap.queues]
        split
        · rename_i hdel
          rw [OrdMap.find?_assign]
          by_cases hp : p = c.1
          · rw [if_pos hp, if_pos ⟨hdel, hp.symm⟩, hp]
            rfl
          · rw [if_neg hp, if_neg (fun h => hp h.2.symm)]
            simp
        · rename_i hdel
          rw [if_neg (fun h => hdel h.1)]
          simp
      · intro p
        rw [hst]
        simp only
        split
        · rename_i hdel
          rw [OrdMap.find?_assign]
          by_cases hp : p = c.1
          · rw [if_pos hp, if_pos ⟨hdel, hp⟩]
          · rw [if_neg hp, if_neg (fun h => hp h.2)]
        · rename_i hdel
          rw [if_neg (fun h => hdel h.1)]

end BdbMsgStore

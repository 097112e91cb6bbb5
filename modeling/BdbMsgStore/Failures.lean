import BdbMsgStore.Catchup

/-!
# Enqueues that fail: the system

`enqueue` may throw after it has taken an id or has entered the pair into `dupMap`, because the message cannot be
encoded; and a store task may throw, because the database does.  Neither undoes what was done before.  A broker that
enqueues the message again passes the id that was set, so the new call goes through `dupMap`.

A run with failures is followed by a run without (`Follows`), in which a call that has thrown stays before its first
step for ever.  There the invariants of the enqueues and of the watermark hold; this module has what a failure does to
them.
-/

namespace BdbMsgStore

open StoreProvider

/-! ### The system -/

/-- A step of the provider, an `enqueue` in which `msgEncode` throws, or a store task in which `enqueue_data` does. -/
inductive FailAction where
  | provider (a : Action)
  | failEnqueue (messageId qid : UInt64)
  | failStore (pae : PendingAsyncEnqueue)

inductive FailEvent where
  | provider (e : Event)
  | enqueueFailed (newId : Bool) (pid qid : UInt64)
  | storeFailed (pid qid : UInt64)
  | stored (pid qid : UInt64)
  deriving DecidableEq

namespace StoreProvider

/-- The last step of a store task. -/
def storeEnds (s : StoreProvider) : Action → List FailEvent
  | .advance (.store pc pae) =>
    if (s.runThread (.store pc pae)).2.1 = [] then [.stored pae.msgId pae.queueId] else []
  | _ => []

/-- A step of the system. -/
def failStep (s : StoreProvider) : FailAction → Option (StoreProvider × List FailEvent)
  | .provider a => (s.step a).map fun r => (r.1, r.2.map .provider ++ s.storeEnds a)
  | .failEnqueue messageId qid =>
    if qid = 0 ∨ ¬ s.journalList.contains qid then none
    else if messageId = 0 then
      let r := s.messageIdSequence.next
      some ({ s with messageIdSequence := r.2 }, [.enqueueFailed true r.1 qid])
    else some ({ s with tracker := s.tracker.addDuplicate messageId qid }, [.enqueueFailed false messageId qid])
  | .failStore pae =>
    if .store .put pae ∈ s.threads then
      some ({ s with threads := s.threads.erase (.store .put pae) }, [.storeFailed pae.msgId pae.queueId])
    else none

end StoreProvider

/-- The pair has been enqueued by a call that did not throw, and its store task has not thrown since. -/
def liveEnqueue (h : List FailEvent) (k : PendingOperationId) : Bool :=
  h.foldl (fun b e =>
    match e with
    | .provider (.enqueueCalled _ pid qid _) => if (pid, qid) = k then true else b
    | .storeFailed pid qid => if (pid, qid) = k then false else b
    | _ => b) false

/-- The call of `enqueue` that took the id from the sequence has thrown, or its store task has. -/
def LostId (h : List FailEvent) (pid : UInt64) : Prop :=
  (∃ qid, .enqueueFailed true pid qid ∈ h) ∨
    ∃ qid m, .provider (.enqueueCalled true pid qid m) ∈ h ∧ .storeFailed pid qid ∈ h

/-- The call of `enqueue` on the queue took the id from the sequence, and neither it nor its store task has thrown. -/
def KeptId (h : List FailEvent) (pid qid : UInt64) : Prop :=
  (∃ m, .provider (.enqueueCalled true pid qid m) ∈ h) ∧ .storeFailed pid qid ∉ h

/-- The sequence has returned the id. -/
def Allocated (h : List FailEvent) (pid : UInt64) : Prop :=
  ∃ qid, .enqueueFailed true pid qid ∈ h ∨ ∃ m, .provider (.enqueueCalled true pid qid m) ∈ h

/-- What a call with the persistence id `messageId` must satisfy.  An id that is set was returned by the sequence, and
the pair is enqueued again only after a failure.  Fewer than `2 ^ 31` ids are outstanding, and the sequence does not
wrap around. -/
def Callable (h : List FailEvent) (s : StoreProvider) (messageId qid : UInt64) : Prop :=
  (messageId ≠ 0 → liveEnqueue h (messageId, qid) = false ∧ Allocated h messageId) ∧
    (messageId = 0 → s.messageIdSequence.id ≠ 0 ∧
      s.messageIdSequence.next.1.toNat < s.tracker.mainRecord.lastPid.toNat + 2 ^ 31)

/-- What the broker may do. -/
def Retrying (h : List FailEvent) (s : StoreProvider) : FailAction → Prop
  | .provider (.enqueue messageId qid _) => Callable h s messageId qid
  | .failEnqueue messageId qid => Callable h s messageId qid
  | _ => True

/-- The event of a call that took the id from the sequence. -/
def FailEvent.allocates (pid : UInt64) : FailEvent → Bool
  | .enqueueFailed true pid' _ => pid' = pid
  | .provider (.enqueueCalled true pid' _ _) => pid' = pid
  | _ => false

instance (h : List FailEvent) (pid : UInt64) : Decidable (Allocated h pid) :=
  decidable_of_iff (∃ e ∈ h, e.allocates pid = true) (by
    constructor
    · rintro ⟨e, he, ha⟩
      unfold FailEvent.allocates at ha
      split at ha
      · cases of_decide_eq_true ha
        exact ⟨_, Or.inl he⟩
      · cases of_decide_eq_true ha
        exact ⟨_, Or.inr ⟨_, he⟩⟩
      · cases ha
    · rintro ⟨qid, he | ⟨m, he⟩⟩
      · exact ⟨_, he, decide_eq_true rfl⟩
      · exact ⟨_, he, decide_eq_true rfl⟩)

instance (h : List FailEvent) (s : StoreProvider) (messageId qid : UInt64) : Decidable (Callable h s messageId qid) :=
  inferInstanceAs (Decidable (_ ∧ _))

instance (h : List FailEvent) (s : StoreProvider) : ∀ a, Decidable (Retrying h s a)
  | .provider (.enqueue messageId qid _) => inferInstanceAs (Decidable (Callable h s messageId qid))
  | .failEnqueue messageId qid => inferInstanceAs (Decidable (Callable h s messageId qid))
  | .failStore _ | .provider (.dequeue _ _) | .provider (.advance _) | .provider .cleanEnqueueLog
  | .provider .cleanDequeueLog => isTrue trivial

/-! ### Histories -/

/-- The event is not one of those that say which enqueues are live. -/
def FailEvent.neutral : FailEvent → Bool
  | .provider (.enqueueCalled _ _ _ _) | .enqueueFailed _ _ _ | .storeFailed _ _ => false
  | _ => true

section

variable {h ev : List FailEvent} {k : PendingOperationId}

theorem liveEnqueue_append_neutral (hev : ∀ e ∈ ev, e.neutral = true) :
    liveEnqueue (h ++ ev) k = liveEnqueue h k := by
  induction ev generalizing h with
  | nil => rw [List.append_nil]
  | cons e ev ih =>
    rw [List.append_cons, ih fun e' he' => hev e' (List.mem_cons_of_mem _ he')]
    have he := hev e List.mem_cons_self
    unfold liveEnqueue
    rw [List.foldl_append]
    cases e with
    | provider e => cases e <;> first | rfl | cases he
    | stored pid qid => rfl
    | enqueueFailed newId pid qid => cases he
    | storeFailed pid qid => cases he

theorem liveEnqueue_enqueueCalled (newId : Bool) (pid qid : UInt64) (m : Message) :
    liveEnqueue (h ++ [.provider (.enqueueCalled newId pid qid m)]) k =
      if (pid, qid) = k then true else liveEnqueue h k := by
  unfold liveEnqueue
  rw [List.foldl_append]
  rfl

theorem liveEnqueue_enqueueFailed (newId : Bool) (pid qid : UInt64) :
    liveEnqueue (h ++ [.enqueueFailed newId pid qid]) k = liveEnqueue h k := by
  unfold liveEnqueue
  rw [List.foldl_append]
  rfl

theorem liveEnqueue_storeFailed (pid qid : UInt64) :
    liveEnqueue (h ++ [.storeFailed pid qid]) k = if (pid, qid) = k then false else liveEnqueue h k := by
  unfold liveEnqueue
  rw [List.foldl_append]
  rfl

theorem mem_append_neutral (hev : ∀ e ∈ ev, e.neutral = true) {e : FailEvent} (he : e.neutral = false) :
    e ∈ h ++ ev ↔ e ∈ h := by
  rw [List.mem_append]
  refine or_iff_left fun hm => ?_
  rw [hev e hm] at he
  cases he

theorem lostId_append_neutral (hev : ∀ e ∈ ev, e.neutral = true) {pid : UInt64} :
    LostId (h ++ ev) pid ↔ LostId h pid := by
  have hmem := fun e (he : FailEvent.neutral e = false) => mem_append_neutral (h := h) hev he
  simp only [LostId, hmem (.enqueueFailed ..) rfl, hmem (.provider (.enqueueCalled ..)) rfl,
    hmem (.storeFailed ..) rfl]

theorem keptId_append_neutral (hev : ∀ e ∈ ev, e.neutral = true) {pid qid : UInt64} :
    KeptId (h ++ ev) pid qid ↔ KeptId h pid qid := by
  have hmem := fun e (he : FailEvent.neutral e = false) => mem_append_neutral (h := h) hev he
  simp only [KeptId, hmem (.provider (.enqueueCalled ..)) rfl, hmem (.storeFailed ..) rfl]

theorem lostId_enqueueFailed {newId : Bool} {pid pid' qid : UInt64} :
    LostId (h ++ [.enqueueFailed newId pid' qid]) pid ↔ LostId h pid ∨ (newId = true ∧ pid = pid') := by
  unfold LostId
  simp only [List.mem_append, List.mem_singleton, reduceCtorEq, or_false, FailEvent.enqueueFailed.injEq]
  constructor
  · rintro (⟨q, hm | ⟨hn, hp, -⟩⟩ | hs)
    · exact Or.inl (Or.inl ⟨q, hm⟩)
    · exact Or.inr ⟨hn.symm, hp⟩
    · exact Or.inl (Or.inr hs)
  · rintro ((⟨q, hm⟩ | hs) | ⟨hn, hp⟩)
    · exact Or.inl ⟨q, Or.inl hm⟩
    · exact Or.inr hs
    · exact Or.inl ⟨qid, Or.inr ⟨hn.symm, hp, rfl⟩⟩

theorem lostId_storeFailed {pid pid' qid : UInt64} :
    LostId (h ++ [.storeFailed pid' qid]) pid ↔ LostId h pid ∨ (pid = pid' ∧ KeptId h pid' qid) := by
  unfold LostId KeptId
  simp only [List.mem_append, List.mem_singleton, reduceCtorEq, or_false, FailEvent.storeFailed.injEq]
  constructor
  · rintro (hf | ⟨q, m, hm, hs | ⟨rfl, rfl⟩⟩)
    · exact Or.inl (Or.inl hf)
    · exact Or.inl (Or.inr ⟨q, m, hm, hs⟩)
    · by_cases hs : .storeFailed pid q ∈ h
      · exact Or.inl (Or.inr ⟨q, m, hm, hs⟩)
      · exact Or.inr ⟨rfl, ⟨m, hm⟩, hs⟩
  · rintro ((hf | ⟨q, m, hm, hs⟩) | ⟨rfl, ⟨m, hm⟩, -⟩)
    · exact Or.inl hf
    · exact Or.inr ⟨q, m, hm, Or.inl hs⟩
    · exact Or.inr ⟨qid, m, hm, Or.inr ⟨rfl, rfl⟩⟩

theorem keptId_storeFailed {pid qid pid' qid' : UInt64} :
    KeptId (h ++ [.storeFailed pid' qid']) pid qid ↔ (pid, qid) ≠ (pid', qid') ∧ KeptId h pid qid := by
  unfold KeptId
  simp only [List.mem_append, List.mem_singleton, reduceCtorEq, or_false, FailEvent.storeFailed.injEq, not_or, ne_eq,
    Prod.mk.injEq]
  tauto

/-- An id that the sequence has returned is lost or kept. -/
theorem Allocated.cases {pid : UInt64} (ha : Allocated h pid) : LostId h pid ∨ ∃ qid, KeptId h pid qid := by
  obtain ⟨qid, hf | ⟨m, hm⟩⟩ := ha
  · exact Or.inl (Or.inl ⟨qid, hf⟩)
  · by_cases hs : .storeFailed pid qid ∈ h
    · exact Or.inl (Or.inr ⟨qid, m, hm, hs⟩)
    · exact Or.inr ⟨qid, ⟨m, hm⟩, hs⟩

end

/-! ### Releasing a thread -/

/-- The threads without the one of an entry. -/
def release (x : Option Entry) (threads : List Thread) : List Thread :=
  match x.bind Entry.thread with
  | some t => threads.erase t
  | none => threads

section

variable {old : PendingOperationId → Prop} {h : List Event} {s s' : StoreProvider} {φ : Entries}

/-- No thread of the enqueue of the pair is left, and the others are. -/
theorem EnqueueSide.count_release (hs : EnqueueSide old h s φ) (k : PendingOperationId) (t : Thread) :
    (release (φ k) s.threads).count t = if t.isEnqueue = true ∧ t.key = k then 0 else s.threads.count t := by
  unfold release
  cases hx : (φ k).bind Entry.thread with
  | none =>
    show s.threads.count t = _
    split
    · rename_i ht
      rw [(hs k).threads t ht.1 ht.2, hx]
      rfl
    · rfl
  | some t₀ =>
    show (s.threads.erase t₀).count t = _
    obtain ⟨e, he, het⟩ := Option.bind_eq_some_iff.1 hx
    obtain ⟨hkey, hte⟩ := EnqueueSide.key_of_thread het
    have hk : t₀.key = k := hkey.trans ((hs k).key e he)
    by_cases ht : t = t₀
    · subst ht
      rw [if_pos ⟨hte, hk⟩, List.count_erase_self, (hs k).threads t hte hk, if_pos hx]
    · rw [List.count_erase_of_ne ht]
      split
      · rename_i ht'
        rw [(hs k).threads t ht'.1 ht'.2, hx, if_neg fun h => ht (Option.some.inj h).symm]
      · rfl

/-- The enqueue of a pair `k` is given up, and another one, of `k` or of a pair that has none, is where its call
begins. -/
theorem EnqueueSide.restart (hs : EnqueueSide (fun _ => True) [] s φ) (k k' : PendingOperationId)
    (pae : PendingAsyncEnqueue) (newId : Bool) (s' : StoreProvider) (hkey : pae.opId = k')
    (hfree : k' ≠ k → φ k' = none)
    (hpend : ∀ e ∈ φ k, e.stage.pending = false) (hleft : k' ≠ k → ∀ e ∈ φ k, e.newId = true)
    (hthreads : s'.threads = release (φ k) s.threads ++ [.enqueue .logStart pae])
    (hsmart : s'.enableSmartAsync = s.enableSmartAsync)
    (hj : ∀ q, s'.journalList.contains q = s.journalList.contains q) (hq : s.journalList.contains k'.2 = true)
    (hpendMap : ∀ p q, s'.tracker.isPending p q = s.tracker.isPending p q)
    (hdupMap : ∀ p q, s'.tracker.isDuplicate p q = if (p, q) = k' then !newId else s.tracker.isDuplicate p q) :
    EnqueueSide (fun _ => True) [] s'
      (Function.update (Function.update φ k none) k' (some ⟨pae, newId, .logStart⟩)) := by
  have hcount : ∀ t : Thread, s'.threads.count t =
      (if t.isEnqueue = true ∧ t.key = k then 0 else s.threads.count t) +
        if t = .enqueue .logStart pae then 1 else 0 := by
    intro t
    rw [hthreads, List.count_append, hs.count_release, List.count_singleton]
    simp only [beq_iff_eq, eq_comm (a := t)]
  have hpending : ∀ k₁, k₁ = k ∨ k₁ = k' → s.tracker.isPending k₁.1 k₁.2 = false := by
    intro k₁ hk₁
    by_contra hp
    obtain ⟨-, e, he, hst⟩ := (hs k₁).pending (by simpa using hp)
    by_cases hk : k₁ = k
    · subst hk
      rw [hpend e he] at hst
      cases hst
    · obtain rfl := hk₁.resolve_left hk
      rw [hfree hk] at he
      cases he
  intro k₁
  by_cases hk' : k₁ = k'
  · subst hk'
    rw [Function.update_self]
    refine ⟨fun e he => by cases he; exact hkey, fun e he => by rw [hj]; exact hq, fun t ht htk => ?_,
      fun _ _ hm => (by cases hm), fun _ => Or.inr trivial, fun hm => (by cases hm), ?_, fun hp => ?_,
      fun e he hst => ?_, fun e he hst => ?_⟩
    · have hold : (if t.isEnqueue = true ∧ t.key = k then 0 else s.threads.count t) = 0 := by
        split
        · rfl
        · rename_i hne
          have hk : k₁ ≠ k := fun hk => hne ⟨ht, htk.trans hk⟩
          rw [(hs k₁).threads t ht htk, hfree hk]
          rfl
      rw [hcount, hold, Nat.zero_add]
      simp only [Option.bind_some, Entry.thread, Option.some.injEq, eq_comm]
    · rw [hdupMap, if_pos rfl]
      simp [EnqStage.registered]
    · rw [hpendMap, hpending k₁ (Or.inr rfl)] at hp
      cases hp
    · cases he
      simp at hst
    · cases he
      cases hst
  · have hdup : s'.tracker.isDuplicate k₁.1 k₁.2 = s.tracker.isDuplicate k₁.1 k₁.2 := by
      rw [hdupMap, if_neg hk']
    rw [Function.update_of_ne hk']
    have hnot : ∀ t : Thread, t.key = k₁ → t ≠ .enqueue .logStart pae := by
      rintro t htk rfl
      exact hk' (htk.symm.trans hkey)
    by_cases hk : k₁ = k
    · subst hk
      rw [Function.update_self]
      refine ⟨fun _ he => (by cases he), fun _ he => (by cases he), fun t ht htk => ?_, fun _ _ hm => (by cases hm),
        fun _ => Or.inr trivial, fun hm => (by cases hm), ?_, fun hp => ?_, fun _ he => (by cases he),
        fun _ he => (by cases he)⟩
      · rw [hcount, if_pos ⟨ht, htk⟩, if_neg (hnot t htk)]
        rfl
      · -- its id was new, so it does not stand in `dupMap`
        rw [hdup, (hs k₁).duplicate]
        constructor
        · rintro ⟨e, he, hn, -⟩
          rw [hleft (Ne.symm hk') e he] at hn
          cases hn
        · rintro ⟨e, he, -⟩
          cases he
      · rw [hpendMap, hpending k₁ (Or.inl rfl)] at hp
        cases hp
    · rw [Function.update_of_ne hk]
      show EnqueueInv (fun _ => True) ([] ++ []) s' k₁ (φ k₁)
      refine EnqueueSide.frame (hs k₁) (fun t _ htk => ?_) hdup (fun hp => by rwa [hpendMap] at hp) hsmart hj
        (fun e he => (by cases he))
      rw [hcount, if_neg fun hc => hk (htk.symm.trans hc.2), if_neg (hnot t htk), Nat.add_zero]

end

/-! ### The run that follows -/

/-- The state `g` follows `s`: it has the threads of the live enqueues and of the dequeues, and perhaps others, of
enqueues that have failed.  It has a queue `0` besides. -/
structure Follows (alive : PendingOperationId → Bool) (g s : StoreProvider) : Prop where
  tracker : g.tracker = s.tracker
  smart : g.enableSmartAsync = s.enableSmartAsync
  sequence : g.messageIdSequence = s.messageIdSequence
  journal : ∀ q, g.journalList.contains q = (decide (q = 0) || s.journalList.contains q)
  threads : ∀ t : Thread, (t.isEnqueue = true → alive t.key = true) → g.threads.count t = s.threads.count t
  alive : ∀ t ∈ s.threads, t.isEnqueue = true → alive t.key = true

/-- What a thread does to the tracker, its successors and its events depend on the tracker and on the mode only. -/
theorem runThread_congr {g s : StoreProvider} (htr : g.tracker = s.tracker)
    (hsm : g.enableSmartAsync = s.enableSmartAsync) (t : Thread) :
    (g.runThread t).1.tracker = (s.runThread t).1.tracker ∧ (g.runThread t).2 = (s.runThread t).2 := by
  cases t with
  | enqueue pc pae => cases pc <;> simp [runThread, htr, hsm]
  | store pc pae => cases pc <;> simp [runThread, htr, hsm]
  | dequeue pc pid qid => cases pc <;> simp [runThread, htr]
  | asyncDequeue pc pid qid =>
    cases pc with
    | wait w => cases w <;> simp [runThread, htr]
    | _ => simp [runThread, htr]

namespace Follows

variable {alive : PendingOperationId → Bool} {g s s' : StoreProvider} {a : Action} {ev : List Event}

theorem mem (hf : Follows alive g s) {t : Thread} (ht : t ∈ s.threads) : t ∈ g.threads := by
  have hcount := hf.threads t (hf.alive t ht)
  have hpos : 0 < s.threads.count t := List.count_pos_iff.2 ht
  exact List.count_pos_iff.1 (by omega)

private theorem advance (hf : Follows alive g s) {t : Thread} (hst : s.step (.advance t) = some (s', ev)) :
    ∃ g', g.step (.advance t) = some (g', ev) ∧ Follows alive g' s' := by
  have hjs := step_contains hst
  obtain ⟨ht, rfl, rfl⟩ := step_advance hst
  obtain ⟨htr, hsucc⟩ := runThread_congr hf.tracker hf.smart t
  have hstep : g.step (.advance t) =
      some ({ (g.runThread t).1 with threads := g.threads.erase t ++ (g.runThread t).2.1 }, (s.runThread t).2.2) := by
    simp only [step, if_pos (hf.mem ht), hsucc]
  have hjg := step_contains hstep
  refine ⟨_, hstep, htr, ?_, ?_, fun q => ?_, fun t' ht' => ?_, fun t' ht' hte' => ?_⟩
  · exact (runThread_enableSmartAsync t).trans (hf.smart.trans (runThread_enableSmartAsync t).symm)
  · exact (messageIdSequence_runThread t).trans (hf.sequence.trans (messageIdSequence_runThread t).symm)
  · rw [hjg, hjs]
    exact hf.journal q
  · have hg := count_advance (hf.mem ht) (g.runThread t).2.1 t'
    have hs := count_advance ht (s.runThread t).2.1 t'
    have hold := hf.threads t' ht'
    rw [hsucc] at hg ⊢
    show List.count t' (g.threads.erase t ++ _) = List.count t' (s.threads.erase t ++ _)
    omega
  · rcases List.mem_append.1 ht' with hm | hm
    · exact hf.alive t' (List.mem_of_mem_erase hm) hte'
    · have hkey := key_of_mem_runThread hm
      have hte := EnqueueSide.isEnqueue_of_mem_runThread hm
      rw [hkey]
      exact hf.alive t ht (hte ▸ hte')

/-- A step other than a call of `enqueue` is followed by the same step. -/
theorem step (hf : Follows alive g s) (ha : ∀ messageId qid m, a ≠ .enqueue messageId qid m)
    (hst : s.step a = some (s', ev)) : ∃ g', g.step a = some (g', ev) ∧ Follows alive g' s' := by
  cases a with
  | enqueue messageId qid m => exact absurd rfl (ha messageId qid m)
  | dequeue pid qid =>
    have hguard : ¬ (pid = 0 ∨ qid = 0 ∨ ¬ s.journalList.contains qid = true) := by
      intro hg
      simp only [StoreProvider.step, if_pos hg] at hst
      cases hst
    have hguard' : ¬ (pid = 0 ∨ qid = 0 ∨ ¬ g.journalList.contains qid = true) := by
      rw [not_or, not_or, not_not] at hguard ⊢
      exact ⟨hguard.1, hguard.2.1, by rw [hf.journal, hguard.2.2, Bool.or_true]⟩
    obtain ⟨rfl, rfl⟩ := step_dequeue hst
    refine ⟨_, if_neg hguard', hf.tracker, hf.smart, hf.sequence, hf.journal, fun t ht => ?_, fun t ht hte => ?_⟩
    · show List.count t (_ ++ _) = List.count t (_ ++ _)
      rw [List.count_append, List.count_append, hf.threads t ht, hf.smart]
    · rcases List.mem_append.1 ht with ht | ht
      · exact hf.alive t ht hte
      · rw [List.mem_singleton.1 ht] at hte
        cases hte
  | advance t => exact hf.advance hst
  | cleanEnqueueLog =>
    cases hst
    exact ⟨_, rfl, hf.tracker, hf.smart, hf.sequence, hf.journal, hf.threads, hf.alive⟩
  | cleanDequeueLog =>
    cases hst
    exact ⟨_, rfl, hf.tracker, hf.smart, hf.sequence, hf.journal, hf.threads, hf.alive⟩

end Follows

/-! ### Forgetting events, and enqueues whose ids are not new -/

theorem Allotted.forget {resurrected : PendingOperationId → Prop} {first next : Nat} {h : List Event}
    {s : StoreProvider} {φ : Entries} (hal : Allotted resurrected first next h s φ) :
    Allotted resurrected first next [] s φ :=
  { hal with called := fun _ _ _ hm => nomatch hm }

section

variable {base : UInt64} {s s' : StoreProvider} {φ φ' : Entries}

/-- The enqueues whose ids were taken from the sequence are the same. -/
def SameNew (φ φ' : Entries) : Prop := ∀ k e, e.newId = true → (e ∈ φ' k ↔ e ∈ φ k)

theorem SameNew.exists_iff (hφ : SameNew φ φ') (k : PendingOperationId) :
    (∃ e ∈ φ' k, e.newId = true) ↔ ∃ e ∈ φ k, e.newId = true :=
  exists_congr fun e => and_congr_left fun hn => hφ k e hn

theorem SameNew.update {k : PendingOperationId} {x : Entry} (hx : x.newId = false) (hk : ∀ e ∈ φ k, e.newId = false) :
    SameNew φ (Function.update φ k (some x)) := by
  intro k' e hn
  by_cases hk' : k' = k
  · subst hk'
    rw [Function.update_self]
    constructor
    · intro he
      cases he
      rw [hx] at hn
      cases hn
    · intro he
      rw [hk e he] at hn
      cases hn
  · rw [Function.update_of_ne hk']

theorem Watermark.of_sameNew (hw : Watermark base s φ) (hφ : SameNew φ φ')
    (hrec : s'.tracker.mainRecord = s.tracker.mainRecord) (hstop : s'.tracker.stopped = s.tracker.stopped) :
    Watermark base s' φ' where
  sound := hrec ▸ hw.sound
  stopped := hstop.trans hw.stopped
  le_lastPid := hrec ▸ hw.le_lastPid
  issued := by
    intro p hp
    simp only [hφ.exists_iff]
    exact hw.issued p (hrec ▸ hp)
  covered := fun k e he hn hc => hw.covered k e ((hφ k e hn).1 he) hn (hrec ▸ hc)
  unique := by
    simp only [hφ.exists_iff]
    exact hw.unique
  window := fun k e he hn => hrec ▸ hw.window k e ((hφ k e hn).1 he) hn

theorem Allotted.of_sameNew {resurrected : PendingOperationId → Prop} {first next : Nat}
    (hal : Allotted resurrected first next [] s φ) (hφ : SameNew φ φ')
    (hrec : s'.tracker.mainRecord = s.tracker.mainRecord) (hseq : s'.messageIdSequence = s.messageIdSequence) :
    Allotted resurrected first next [] s' φ' := by
  show Allotted resurrected first next ([] ++ []) s' φ'
  exact hal.mono hseq (fun k e he hn hd => hrec ▸ hal.settled k e ((hφ k e hn).1 he) hn hd)
    (fun _ => exists_congr fun _ => hφ.exists_iff _) (fun _ _ _ hm => nomatch hm)

/-- The enqueue of `k` is given up and begins again, under the queue `0` if its id was new. -/
def Entries.giveUp (φ : Entries) (k : PendingOperationId) (newId : Bool) : Entries :=
  Function.update (Function.update φ k none) (k.1, if newId then 0 else k.2)
    (some ⟨smallMessage.pending k.1 (if newId then 0 else k.2), newId, .logStart⟩)

theorem mem_giveUp {k k' : PendingOperationId} {newId : Bool} {e : Entry} (he : e ∈ φ.giveUp k newId k') :
    (k' = (k.1, if newId then 0 else k.2) ∧ e.newId = newId ∧ e.stage = .logStart) ∨ (k' ≠ k ∧ e ∈ φ k') := by
  unfold Entries.giveUp at he
  by_cases h0 : k' = (k.1, if newId then 0 else k.2)
  · rw [h0, Function.update_self] at he
    cases he
    exact Or.inl ⟨h0, rfl, rfl⟩
  · rw [Function.update_of_ne h0] at he
    by_cases hk : k' = k
    · rw [hk, Function.update_self] at he
      cases he
    · rw [Function.update_of_ne hk] at he
      exact Or.inr ⟨hk, he⟩

theorem giveUp_of_ne {k k' : PendingOperationId} {newId : Bool} (h0 : k' ≠ (k.1, if newId then 0 else k.2))
    (hk : k' ≠ k) : φ.giveUp k newId k' = φ k' := by
  unfold Entries.giveUp
  rw [Function.update_of_ne h0, Function.update_of_ne hk]

theorem newId_giveUp {k : PendingOperationId} {newId : Bool} (hfree : newId = true → φ (k.1, 0) = none)
    (k' : PendingOperationId) : (∃ e ∈ φ.giveUp k newId k', e.newId = true) ↔
      (newId = true ∧ k' = (k.1, 0)) ∨ (k' ≠ k ∧ ∃ e ∈ φ k', e.newId = true) := by
  constructor
  · rintro ⟨e, he, hn⟩
    rcases mem_giveUp he with ⟨hk', hnew, -⟩ | ⟨hk, he⟩
    · rw [hn] at hnew
      subst hnew
      exact Or.inl ⟨rfl, hk'⟩
    · exact Or.inr ⟨hk, e, he, hn⟩
  · rintro (⟨rfl, rfl⟩ | ⟨hk, e, he, hn⟩)
    · exact ⟨_, Function.update_self .., rfl⟩
    · refine ⟨e, ?_, hn⟩
      rw [giveUp_of_ne _ hk]
      · exact he
      · rintro rfl
        cases newId with
        | false => exact hk rfl
        | true =>
          have he' : e ∈ φ (k.1, 0) := he
          rw [hfree rfl] at he'
          cases he'

variable {k : PendingOperationId} {e : Entry} (he : e ∈ φ k) (hfree : e.newId = true → φ (k.1, 0) = none)

include he hfree

/-- The ids in use are the same. -/
theorem issued_giveUp (p : UInt64) :
    (∃ q, ∃ e' ∈ φ.giveUp k e.newId (p, q), e'.newId = true) ↔ ∃ q, ∃ e' ∈ φ (p, q), e'.newId = true := by
  simp only [newId_giveUp hfree]
  constructor
  · rintro ⟨q, ⟨hn, h0⟩ | ⟨-, hq⟩⟩
    · cases h0
      exact ⟨k.2, e, he, hn⟩
    · exact ⟨q, hq⟩
  · rintro ⟨q, e', he', hn'⟩
    by_cases hpq : (p, q) = k
    · subst hpq
      cases Option.mem_unique he he'
      exact ⟨0, Or.inl ⟨hn', rfl⟩⟩
    · exact ⟨q, Or.inr ⟨hpq, e', he', hn'⟩⟩

/-- An enqueue that is given up before its id is added to the main record. -/
theorem Watermark.giveUp (hw : Watermark base s φ) (hst : e.stage ≠ .done) (htr : s'.tracker = s.tracker) :
    Watermark base s' (φ.giveUp k e.newId) where
  sound := htr ▸ hw.sound
  stopped := htr ▸ hw.stopped
  le_lastPid := htr ▸ hw.le_lastPid
  issued := by
    intro p hp
    rw [issued_giveUp he hfree]
    exact hw.issued p (htr ▸ hp)
  covered := by
    intro k' e' he' hn' hcov
    rw [htr] at hcov
    rcases mem_giveUp he' with ⟨rfl, hnew, -⟩ | ⟨-, he'⟩
    · exact absurd (hw.covered k e he (hnew.symm.trans hn') hcov) hst
    · exact hw.covered k' e' he' hn' hcov
  unique := by
    intro p q q' h1 h2
    rcases (newId_giveUp hfree _).1 h1 with ⟨hn, h1⟩ | ⟨hne1, h1⟩ <;>
      rcases (newId_giveUp hfree _).1 h2 with ⟨hn, h2⟩ | ⟨hne2, h2⟩
    · exact (Prod.ext_iff.1 h1).2.trans (Prod.ext_iff.1 h2).2.symm
    · -- the new enqueue of the id was that of `k`
      obtain ⟨rfl, -⟩ := Prod.ext_iff.1 h1
      exact (hne2 (Prod.ext_iff.2 ⟨rfl, hw.unique k.1 q' k.2 h2 ⟨e, he, hn⟩⟩)).elim
    · obtain ⟨rfl, -⟩ := Prod.ext_iff.1 h2
      exact (hne1 (Prod.ext_iff.2 ⟨rfl, hw.unique k.1 q k.2 h1 ⟨e, he, hn⟩⟩)).elim
    · exact hw.unique p q q' h1 h2
  window := by
    intro k' e' he' hn'
    rw [htr]
    rcases mem_giveUp he' with ⟨rfl, hnew, -⟩ | ⟨-, he'⟩
    · exact hw.window k e he (hnew.symm.trans hn')
    · exact hw.window k' e' he' hn'

theorem Allotted.giveUp {resurrected : PendingOperationId → Prop} {first next : Nat}
    (hal : Allotted resurrected first next [] s φ) (htr : s'.tracker = s.tracker)
    (hseq : s'.messageIdSequence = s.messageIdSequence) :
    Allotted resurrected first next [] s' (φ.giveUp k e.newId) := by
  show Allotted resurrected first next ([] ++ []) s' (φ.giveUp k e.newId)
  refine hal.mono hseq (fun k' e' he' hn' hd => ?_) (issued_giveUp he hfree) (fun _ _ _ hm => nomatch hm)
  rw [htr]
  rcases mem_giveUp he' with ⟨-, -, hst⟩ | ⟨-, he'⟩
  · rw [hst] at hd
    cases hd
  · exact hal.settled k' e' he' hn' hd

end

end BdbMsgStore

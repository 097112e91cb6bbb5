import BdbMsgStore.LoadContent
import BdbMsgStore.Quiescence

/-!
# Loading waits for the store

`loadContent` waits for the message with `waitForPid` and then reads the database.  The provider runs here together
with any number of such calls; they only read the tracker, so the invariants of the provider hold as before.

A call that has passed the test of `dupMap` for a pair that had been enqueued before has its id in the main record,
or its store task is done (`LoadInv`).  So when it stops waiting the message is in the database, unless it was
dequeued (`load_finds_enqueued`).  A call that began before the pair was enqueued may have passed the test too early
(`load_misses_later_enqueue`).
-/

namespace BdbMsgStore

open StoreProvider

/-! ### The system -/

/-- A call of `loadContent` that has not read the database yet. -/
structure LoadCall where
  pid : UInt64
  qid : UInt64
  pc : WaitPc
  deriving DecidableEq

/-- The provider and the calls of `loadContent` in progress. -/
structure Loading where
  provider : StoreProvider
  loads : List LoadCall := []

inductive LoadAction where
  | provider (a : Action)
  | load (pid qid : UInt64)
  | advance (l : LoadCall)

/-- What takes the place of a call after its next step: it waits again when `waitForPid` returns `-1`, and for the
other results it ends, with `-2` at once and else by reading the database. -/
def LoadCall.next (s : StoreProvider) (l : LoadCall) : List LoadCall :=
  match l.pc with
  | .returned r => if r = -1 then [{ l with pc := .dupTest 0 }] else []
  | pc => [{ l with pc := s.tracker.waitForPid l.pid l.qid pc }]

namespace Loading

/-- A step of the system.  `loadContent` throws for a message without an id. -/
def step (s : Loading) : LoadAction → Option (Loading × List Event)
  | .provider a => (s.provider.step a).map fun r => ({ s with provider := r.1 }, r.2)
  | .load pid qid => if pid = 0 then none else some ({ s with loads := s.loads ++ [⟨pid, qid, .dupTest 0⟩] }, [])
  | .advance l =>
    if l ∈ s.loads then some ({ s with loads := s.loads.erase l ++ l.next s.provider }, []) else none

/-- The provider is used as in `Orderly`. -/
def Orderly (h : List Event) (s : Loading) : LoadAction → Prop
  | .provider a => BdbMsgStore.Orderly h s.provider a
  | _ => True

/-- Besides, a message is loaded from a queue only after it was enqueued there. -/
def LoadsEnqueued (h : List Event) (s : Loading) (a : LoadAction) : Prop :=
  s.Orderly h a ∧ ∀ pid qid, a = .load pid qid → Enqueued h (pid, qid)

instance (h : List Event) (s : Loading) : ∀ a, Decidable (s.Orderly h a)
  | .provider a => inferInstanceAs (Decidable (BdbMsgStore.Orderly h s.provider a))
  | .load _ _ | .advance _ => isTrue trivial

instance (h : List Event) (s : Loading) : ∀ a, Decidable (LoadsEnqueued h s a)
  | .provider a => decidable_of_iff (BdbMsgStore.Orderly h s.provider a)
      ⟨fun ho => ⟨ho, fun _ _ he => nomatch he⟩, fun ho => ho.1⟩
  | .load pid qid => decidable_of_iff (Enqueued h (pid, qid))
      ⟨fun he => ⟨trivial, fun _ _ ha => by cases ha; exact he⟩, fun ho => ho.2 pid qid rfl⟩
  | .advance _ => isTrue ⟨trivial, fun _ _ he => nomatch he⟩

end Loading

/-! ### The invariant of a call -/

/-- The test of `dupMap` is passed. -/
def WaitPc.pastDuplicates : WaitPc → Bool
  | .mainTest _ | .mainWait _ => true
  | _ => false

/-- `waitForPid` has returned, and the caller goes on. -/
def WaitPc.through : WaitPc → Bool
  | .returned r => decide (0 ≤ r)
  | _ => false

/-- A call on a pair that was enqueued: once it is past `dupMap` the pair has a new id or is stored, and at the end
it is stored. -/
def LoadInv (φ : Entries) (l : LoadCall) : Prop :=
  ∃ e ∈ φ (l.pid, l.qid), (l.pc.pastDuplicates = true → e.newId = true ∨ e.stage = .done) ∧
    (l.pc.through = true → e.stage = .done)

/-- An entry stays, with its kind of id, and remains done. -/
theorem Entries.next_entry {s : StoreProvider} {φ : Entries} {a : Action} {k : PendingOperationId} {e : Entry}
    (he : φ k = some e) (hnew : ∀ messageId qid m, a = .enqueue messageId qid m → k ≠ (s.enqueueId messageId, qid)) :
    ∃ e' ∈ φ.next s a k, e'.newId = e.newId ∧ (e.stage = .done → e'.stage = .done) := by
  rcases Entries.next_eq_or (φ := φ) (fun messageId qid m ha => (hnew messageId qid m ha).symm) with hk | hk
  · exact ⟨e, hk.trans he, rfl, id⟩
  · refine ⟨e.next s, ?_, rfl, fun hdone => ?_⟩
    · rw [hk, he]
      rfl
    · simp [Entry.next, Entry.nextStage, hdone]

namespace LoadInv

variable {h ev : List Event} {s s' : StoreProvider} {φ : Entries} {ψ : Dequeues} {a : Action} {l : LoadCall}

/-- The steps of the provider keep the invariant of a call. -/
theorem provider_step (hl : LoadInv φ l) (hd : Disciplined (fun _ => none) 0 s φ ψ a) : LoadInv (φ.next s a) l := by
  obtain ⟨e, he, hpast, hthrough⟩ := hl
  have hnew : ∀ messageId qid m, a = .enqueue messageId qid m → (l.pid, l.qid) ≠ (s.enqueueId messageId, qid) := by
    intro messageId qid m ha hk
    rw [hk, (hd.enqueue messageId qid m ha).1] at he
    cases he
  obtain ⟨e', he', hid, hdone⟩ := Entries.next_entry he hnew
  refine ⟨e', he', ?_, fun ht => hdone (hthrough ht)⟩
  intro hp
  rcases hpast hp with hn | hn
  · exact Or.inl (hid.trans hn)
  · exact Or.inr (hdone hn)

/-- After a wake-up the call gives up or tests again. -/
private theorem waitForPid_dupWait (t : PidTracker) (pid qid : UInt64) (n : Nat) :
    t.waitForPid pid qid (.dupWait n) = .returned (-2) ∨ t.waitForPid pid qid (.dupWait n) = .returned (-1) ∨
      t.waitForPid pid qid (.dupWait n) = .dupTest (n + 1) := by
  simp only [PidTracker.waitForPid]
  split
  · exact Or.inl rfl
  · split
    · exact Or.inr (Or.inl rfl)
    · exact Or.inr (Or.inr rfl)

@[inherit_doc waitForPid_dupWait]
private theorem waitForPid_mainWait (t : PidTracker) (pid qid : UInt64) (n : Nat) :
    t.waitForPid pid qid (.mainWait n) = .returned (-2) ∨ t.waitForPid pid qid (.mainWait n) = .returned (-1) ∨
      t.waitForPid pid qid (.mainWait n) = .mainTest (n + 1) := by
  simp only [PidTracker.waitForPid]
  split
  · exact Or.inl rfl
  · split
    · exact Or.inr (Or.inl rfl)
    · exact Or.inr (Or.inr rfl)

/-- The steps of the call itself keep its invariant. -/
theorem call_step (hi : OrderlyInv h s φ ψ) (hl : LoadInv φ l) {l' : LoadCall} (hl' : l' ∈ l.next s) :
    LoadInv φ l' := by
  obtain ⟨pid, qid, pc⟩ := l
  obtain ⟨e, he, hpast, hthrough⟩ := hl
  dsimp only at he hpast hthrough
  cases pc with
  | dupTest n =>
    simp only [LoadCall.next, List.mem_singleton] at hl'
    subst hl'
    by_cases hdup : s.tracker.isDuplicate pid qid = true
    · exact ⟨e, he, by simp [PidTracker.waitForPid, hdup, WaitPc.pastDuplicates],
        by simp [PidTracker.waitForPid, hdup, WaitPc.through]⟩
    · rw [Bool.not_eq_true] at hdup
      refine ⟨e, he, fun _ => (hi.coherent.enqueues (pid, qid)).newId_or_done hdup e he, ?_⟩
      by_cases hn : n > 100
      · simp [PidTracker.waitForPid, hdup, hn, WaitPc.through]
      · simp [PidTracker.waitForPid, hdup, hn, WaitPc.through]
  | dupWait n =>
    simp only [LoadCall.next, List.mem_singleton] at hl'
    subst hl'
    obtain hw | hw | hw := waitForPid_dupWait s.tracker pid qid n
    all_goals exact ⟨e, he, by simp [hw, WaitPc.pastDuplicates], by simp [hw, WaitPc.through]⟩
  | mainTest n =>
    simp only [LoadCall.next, List.mem_singleton] at hl'
    subst hl'
    have hp := hpast rfl
    by_cases hgt : pid > s.tracker.mainRecord.lastPid
    · refine ⟨e, he, fun _ => hp, ?_⟩
      simp [PidTracker.waitForPid, hgt, WaitPc.through]
    · -- the watermark has passed the id, so the store of a pair with a new id is done
      refine ⟨e, he, fun _ => hp, fun _ => ?_⟩
      rcases hp with hid | hdone
      · exact hi.coherent.watermark.covered (pid, qid) e he hid (Or.inl (not_lt.1 hgt))
      · exact hdone
  | mainWait n =>
    simp only [LoadCall.next, List.mem_singleton] at hl'
    subst hl'
    obtain hw | hw | hw := waitForPid_mainWait s.tracker pid qid n
    all_goals exact ⟨e, he, fun _ => hpast rfl, by simp [hw, WaitPc.through]⟩
  | returned r =>
    simp only [LoadCall.next] at hl'
    split at hl'
    · rw [List.mem_singleton] at hl'
      subst hl'
      exact ⟨e, he, by simp [WaitPc.pastDuplicates], by simp [WaitPc.through]⟩
    · cases hl'

end LoadInv

/-! ### Runs -/

/-- What holds in every state of a run. -/
def LoadingInv (h : List Event) (s : Loading) : Prop :=
  ∃ φ ψ, OrderlyInv h s.provider φ ψ ∧ ∀ l ∈ s.loads, LoadInv φ l

theorem LoadingInv.step {h ev : List Event} {s s' : Loading} {a : LoadAction} (hi : LoadingInv h s)
    (hok : Loading.LoadsEnqueued h s a) (hst : s.step a = some (s', ev)) : LoadingInv (h ++ ev) s' := by
  obtain ⟨φ, ψ, ho, hloads⟩ := hi
  cases a with
  | provider a =>
    obtain ⟨⟨s₁, ev₁⟩, hst₁, heq⟩ := Option.map_eq_some_iff.1 hst
    cases heq
    exact ⟨_, _, ho.step hok.1 hst₁, fun l hl => (hloads l hl).provider_step (ho.disciplined hok.1)⟩
  | load pid qid =>
    simp only [Loading.step] at hst
    split at hst
    · cases hst
    · cases hst
      rw [List.append_nil]
      refine ⟨φ, ψ, ho, ?_⟩
      intro l hl
      rcases List.mem_append.1 hl with hl | hl
      · exact hloads l hl
      · -- the pair has an entry, since it was enqueued
        rw [List.mem_singleton] at hl
        subst hl
        obtain ⟨e, he⟩ := Option.ne_none_iff_exists'.1 ((ho.entry_iff (pid, qid)).2 (hok.2 pid qid rfl))
        exact ⟨e, he, by simp [WaitPc.pastDuplicates], by simp [WaitPc.through]⟩
  | advance l =>
    simp only [Loading.step] at hst
    split at hst
    · rename_i hmem
      cases hst
      rw [List.append_nil]
      refine ⟨φ, ψ, ho, ?_⟩
      intro l' hl'
      rcases List.mem_append.1 hl' with hl' | hl'
      · exact hloads l' (List.mem_of_mem_erase hl')
      · exact (hloads l hmem).call_step ho hl'
    · cases hst

/-- In every run from an empty store in which messages are loaded only from queues they were enqueued on: when
`waitForPid` has returned a non-negative number for a pair that was not dequeued, the message is in the database, with
the bytes that the database keeps of it, and `loadContent` finds it. -/
theorem load_finds_enqueued {s₀ : StoreProvider} (hs₀ : s₀.Empty) {h : List Event} {s : Loading}
    (hrun : Run Loading.step Loading.LoadsEnqueued { provider := s₀ } h s) {pid qid : UInt64} {r : Int}
    (hl : ⟨pid, qid, .returned r⟩ ∈ s.loads) (hr : 0 ≤ r) (hdeq : .dequeueCalled pid qid ∉ h) :
    (∃ newId m, .enqueueCalled newId pid qid m ∈ h ∧ s.provider.stored pid qid = some (dbtValue (msgEncode m))) ∧
      ∃ jc, s.provider.journalList.find? qid = some jc ∧
        ∀ length offset, jc.loadMsgContent pid length offset ≠ .notFound := by
  have hinv : LoadingInv h s := by
    refine hrun.invariant (I := LoadingInv) ⟨_, _, OrderlyInv.of_empty hs₀, ?_⟩ ?_
    · intro l hl
      cases hl
    · intro h s a s' ev hi hok hst
      exact hi.step hok hst
  obtain ⟨φ, ψ, ho, hloads⟩ := hinv
  obtain ⟨e, he, -, hthrough⟩ := hloads _ hl
  have hdone : e.stage = .done := hthrough (by simpa [WaitPc.through] using hr)
  have hψ : ψ (pid, qid) = none := by
    by_contra hne
    exact hdeq ((ho.stage_iff _).1 hne)
  have hx := ho.coherent.enqueues (pid, qid)
  -- the content of the database is what the stages say
  have hstored : s.provider.stored pid qid = some (dbtValue e.pae.buff) := by
    rw [(ho.coherent.pairs (pid, qid)).stored, hψ, show φ (pid, qid) = some e from he]
    simp [content, hdone, EnqStage.stored]
  obtain ⟨newId, m, hm⟩ := (ho.entry_iff (pid, qid)).1 (by rw [show φ (pid, qid) = some e from he]; simp)
  obtain ⟨e', he', hpae⟩ := hx.called newId m hm
  obtain rfl : e = e' := Option.some.inj (he.symm.trans he')
  have hbuff : e.pae.buff = msgEncode m := by
    rw [hpae]
    rfl
  refine ⟨⟨newId, m, hm, hbuff ▸ hstored⟩, ?_⟩
  obtain ⟨jc, hjc, hfind⟩ := Option.bind_eq_some_iff.1 hstored
  refine ⟨jc, hjc, ?_⟩
  intro length offset
  unfold JournalImpl.loadMsgContent
  rw [hfind]
  dsimp only
  split <;> simp

/-- An empty store with the queues 1 and 2. -/
def twoQueues : StoreProvider where
  enableSmartAsync := false
  journalList := ((∅ : OrdMap UInt64 JournalImpl).assign 1 (JournalImpl.empty 0)).assign 2 (JournalImpl.empty 0)

theorem empty_twoQueues : twoQueues.Empty := by
  refine ⟨rfl, rfl, rfl, rfl, fun pid qid => ?_⟩
  unfold twoQueues stored
  rw [OrdMap.find?_assign, OrdMap.find?_assign]
  split
  · exact JournalImpl.find?_empty 0 pid
  · split
    · exact JournalImpl.find?_empty 0 pid
    · rfl

/-- Message 1 is enqueued on both queues, and loaded from the second one after both are stored. -/
def loadAfterStores : List LoadAction :=
  (enqueueCall 0 1 1 ++ enqueueCall 1 1 2 ++ storeTask 1 1 ++ (storeTask 1 2).take 3).map .provider ++
    [.load 1 2, .advance ⟨1, 2, .dupTest 0⟩, .advance ⟨1, 2, .mainTest 0⟩]

theorem load_finds_enqueued_second :
    (Run.exec Loading.step [] { provider := twoQueues } loadAfterStores).2.provider.stored 1 2 =
        some (msgEncode smallMessage) ∧
      (∃ newId m,
        .enqueueCalled newId 1 2 m ∈ (Run.exec Loading.step [] { provider := twoQueues } loadAfterStores).1 ∧
        (Run.exec Loading.step [] { provider := twoQueues } loadAfterStores).2.provider.stored 1 2 =
          some (dbtValue (msgEncode m))) ∧
      ∃ jc, (Run.exec Loading.step [] { provider := twoQueues } loadAfterStores).2.provider.journalList.find? 2 =
          some jc ∧
        ∀ length offset, jc.loadMsgContent 1 length offset ≠ .notFound :=
  ⟨by decide +kernel,
    load_finds_enqueued empty_twoQueues (Run.exec_of_allowed Run.nil (by decide +kernel)) (r := 0)
      (by decide +kernel) le_rfl (by decide +kernel)⟩

/-- Message 1 is stored on the first queue, and a call on the second queue passes `dupMap`; only then the message is
enqueued there. -/
def loadBeforeEnqueue : List LoadAction :=
  (enqueueCall 0 1 1 ++ storeTask 1 1).map .provider ++ [.load 1 2, .advance ⟨1, 2, .dupTest 0⟩] ++
    (enqueueCall 1 1 2).map .provider ++ [.advance ⟨1, 2, .mainTest 0⟩]

/-- The call comes back although the message, whose `enqueue` has returned and which was not dequeued, is not in the
database. -/
theorem load_misses_later_enqueue :
    ¬ ∀ (s₀ : StoreProvider), s₀.Empty → ∀ (h : List Event) (s : Loading),
      Run Loading.step (fun h s a => s.Orderly h a) { provider := s₀ } h s →
      ∀ (pid qid : UInt64) (r : Int), ⟨pid, qid, .returned r⟩ ∈ s.loads → 0 ≤ r → .enqueueReturned pid qid ∈ h →
        .dequeueCalled pid qid ∉ h → s.provider.stored pid qid ≠ none := by
  intro hall
  have hallowed : Run.Allowed Loading.step (fun h s a => s.Orderly h a) [] { provider := twoQueues }
      loadBeforeEnqueue := by
    decide +kernel
  have hstored := hall twoQueues empty_twoQueues _ _ (Run.exec_of_allowed Run.nil hallowed) 1 2 0 (by decide +kernel)
    le_rfl (by decide +kernel) (by decide +kernel)
  exact hstored (by decide +kernel)

end BdbMsgStore

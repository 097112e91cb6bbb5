import BdbMsgStore.Frame

/-!
# The life of an enqueue

An enqueue of a pair goes through a fixed sequence of steps: those of the `enqueue` call and then those of its
`store` task.  So the threads of the pair that belong to its enqueue are given by one stage (`EnqStage`), and the
bookkeeping of the tracker for the pair follows the stage.  `EnqueueSide` says this for every pair; it is preserved
by every step of the system as long as no pair is enqueued twice (`EnqueueSide.step`), whatever the dequeues do.
-/

namespace BdbMsgStore

/-- How far the enqueue of a pair has come: its next step, or `done`. -/
inductive EnqStage where
  | logStart
  | willEnqueue
  | schedule
  | check
  | put
  | logComplete
  | addPidDup
  | addPidMain
  | done
  deriving DecidableEq, Repr

namespace EnqStage

/-- The start record is in the log. -/
def logged : EnqStage → Bool
  | logStart => false
  | _ => true

/-- The call has returned. -/
def returned : EnqStage → Bool
  | logStart | willEnqueue | schedule => false
  | _ => true

/-- The pair waits in `pendMap` (in the smart mode, unless a dequeue has taken it). -/
def pending : EnqStage → Bool
  | schedule | check => true
  | _ => false

/-- The pair stands in `dupMap` (if its id was not new). -/
def registered : EnqStage → Bool
  | addPidMain | done => false
  | _ => true

/-- The step that puts the message into the database is over. -/
def stored : EnqStage → Bool
  | logComplete | addPidDup | addPidMain | done => true
  | _ => false

/-- The completion record is in the log. -/
def completed : EnqStage → Bool
  | addPidDup | addPidMain | done => true
  | _ => false

end EnqStage

/-- The enqueue of a pair: what is stored, whether the call allocated the id, and the stage. -/
structure Entry where
  pae : PendingAsyncEnqueue
  newId : Bool
  stage : EnqStage

/-- The thread that carries the enqueue on. -/
def Entry.thread (e : Entry) : Option Thread :=
  match e.stage with
  | .logStart => some (.enqueue .logStart e.pae)
  | .willEnqueue => some (.enqueue .willEnqueue e.pae)
  | .schedule => some (.enqueue .schedule e.pae)
  | .check => some (.store .check e.pae)
  | .put => some (.store .put e.pae)
  | .logComplete => some (.store .logComplete e.pae)
  | .addPidDup => some (.store .addPidDup e.pae)
  | .addPidMain => some (.store .addPidMain e.pae)
  | .done => none

/-- The stage after the next step, taken in the state `s`. -/
def Entry.nextStage (s : StoreProvider) (e : Entry) : EnqStage :=
  match e.stage with
  | .logStart => if s.enableSmartAsync then .willEnqueue else .schedule
  | .willEnqueue => .schedule
  | .schedule => if s.enableSmartAsync then .check else .put
  | .check => if s.tracker.isPending e.pae.msgId e.pae.queueId then .put else .logComplete
  | .put => .logComplete
  | .logComplete => .addPidDup
  | .addPidDup => if s.tracker.isDuplicate e.pae.msgId e.pae.queueId then .done else .addPidMain
  | .addPidMain => .done
  | .done => .done

def Entry.next (s : StoreProvider) (e : Entry) : Entry := { e with stage := e.nextStage s }

/-- The enqueues of all pairs. -/
abbrev Entries := PendingOperationId → Option Entry

/-- The enqueues after an action in the state `s`. -/
def Entries.next (s : StoreProvider) (φ : Entries) : StoreProvider.Action → Entries
  | .enqueue messageId qid m =>
    Function.update φ (s.enqueueId messageId, qid)
      (some ⟨m.pending (s.enqueueId messageId) qid, messageId = 0, .logStart⟩)
  | .advance t => if t.isEnqueue then Function.update φ t.key ((φ t.key).map (Entry.next s)) else φ
  | _ => φ

theorem Entries.next_of_ne {s : StoreProvider} {φ : Entries} {a : StoreProvider.Action} {k : PendingOperationId}
    (hk : a.key s ≠ some k) : φ.next s a k = φ k := by
  cases a with
  | enqueue messageId qid m => exact Function.update_of_ne (fun he => hk (congrArg some he.symm)) ..
  | advance t =>
    simp only [Entries.next]
    split
    · exact Function.update_of_ne (fun he => hk (congrArg some he.symm)) ..
    · rfl
  | _ => rfl

theorem Entries.next_enqueue (s : StoreProvider) (φ : Entries) (messageId qid : UInt64) (m : Message) :
    φ.next s (.enqueue messageId qid m) = Function.update φ (s.enqueueId messageId, qid)
      (some ⟨m.pending (s.enqueueId messageId) qid, messageId = 0, .logStart⟩) := rfl

theorem Entries.next_advance {s : StoreProvider} {φ : Entries} {t : Thread} {e : Entry} (ht : t.isEnqueue = true)
    (he : φ t.key = some e) : φ.next s (.advance t) = Function.update φ t.key (some (e.next s)) := by
  simp only [Entries.next, if_pos ht, he, Option.map_some]

theorem Entries.next_advance_dequeue {s : StoreProvider} {φ : Entries} {t : Thread} (ht : t.isEnqueue = false) :
    φ.next s (.advance t) = φ := by
  simp only [Entries.next, ht, Bool.false_eq_true, ↓reduceIte]

/-- An action that does not enqueue the pair leaves its entry alone or takes it one step on. -/
theorem Entries.next_eq_or {s : StoreProvider} {φ : Entries} {a : StoreProvider.Action} {k : PendingOperationId}
    (hnew : ∀ messageId qid m, a = .enqueue messageId qid m → (s.enqueueId messageId, qid) ≠ k) :
    φ.next s a k = φ k ∨ φ.next s a k = (φ k).map (Entry.next s) := by
  by_cases hk : a.key s = some k
  · cases a with
    | enqueue messageId qid m => exact absurd (Option.some.inj hk) (hnew messageId qid m rfl)
    | advance t =>
      obtain rfl := Option.some.inj hk
      cases ht : t.isEnqueue with
      | true =>
        right
        simp only [Entries.next, if_pos ht, Function.update_self]
      | false =>
        left
        rw [Entries.next_advance_dequeue ht]
    | _ => exact Or.inl rfl
  · exact Or.inl (Entries.next_of_ne hk)

/-- A store that has just been set up: its queues hold no message and nothing has happened yet. -/
structure StoreProvider.Empty (s : StoreProvider) : Prop where
  messageIdSequence : s.messageIdSequence = {}
  tracker : s.tracker = {}
  aologger : s.aologger = {}
  threads : s.threads = []
  stored : ∀ pid qid, s.stored pid qid = none

/-- An empty store with a single queue, of id 1. -/
def StoreProvider.singleQueue (smart : Bool) : StoreProvider :=
  { enableSmartAsync := smart, journalList := (∅ : OrdMap UInt64 JournalImpl).assign 1 (JournalImpl.empty 0) }

/-- A persistent message of three bytes. -/
def smallMessage : Message := ⟨[7], [8, 9], true, by decide⟩

theorem StoreProvider.empty_singleQueue (smart : Bool) : (singleQueue smart).Empty := by
  refine ⟨rfl, rfl, rfl, rfl, fun pid qid => ?_⟩
  unfold singleQueue stored
  rw [OrdMap.find?_assign]
  split
  · exact JournalImpl.find?_empty 0 pid
  · rfl

/-- The steps of calls and tasks in the plain mode, for runs on fixed inputs. -/
def enqueueCall (messageId pid qid : UInt64) : List StoreProvider.Action :=
  .enqueue messageId qid smallMessage ::
    [.logStart, .schedule].map fun pc => .advance (.enqueue pc (smallMessage.pending pid qid))

@[inherit_doc enqueueCall]
def storeTask (pid qid : UInt64) : List StoreProvider.Action :=
  [.put, .logComplete, .addPidDup, .addPidMain].map fun pc => .advance (.store pc (smallMessage.pending pid qid))

@[inherit_doc enqueueCall]
def dequeueCall (pid qid : UInt64) : List StoreProvider.Action :=
  .dequeue pid qid :: [.logStart, .schedule].map fun pc => .advance (.dequeue pc pid qid)

@[inherit_doc enqueueCall]
def dequeueTask (pid qid : UInt64) : List StoreProvider.Action :=
  [.wait (.dupTest 0), .wait (.mainTest 0), .wait (.returned 0), .remove, .logComplete].map fun pc =>
    .advance (.asyncDequeue pc pid qid)

/-- The pair has been enqueued. -/
def Enqueued (h : List Event) (k : PendingOperationId) : Prop := ∃ newId m, .enqueueCalled newId k.1 k.2 m ∈ h

/-- The event is the call of `enqueue` on the pair. -/
def Event.enqueues (k : PendingOperationId) : Event → Bool
  | .enqueueCalled _ pid qid _ => (pid, qid) = k
  | _ => false

instance (h : List Event) (k : PendingOperationId) : Decidable (Enqueued h k) :=
  decidable_of_iff (∃ e ∈ h, e.enqueues k) (by
    constructor
    · rintro ⟨e, he, hk⟩
      cases e with
      | enqueueCalled newId pid qid m =>
        obtain rfl := of_decide_eq_true hk
        exact ⟨newId, m, he⟩
      | _ => cases hk
    · rintro ⟨newId, m, he⟩
      exact ⟨_, he, by simp [Event.enqueues]⟩)

/-- The message id has been used by an enqueue. -/
def Issued (h : List Event) (pid : UInt64) : Prop := ∃ qid, Enqueued h (pid, qid)

instance (h : List Event) (pid : UInt64) : Decidable (Issued h pid) :=
  decidable_of_iff (∃ e ∈ h, e.enqueues (pid, e.key.2)) (by
    constructor
    · rintro ⟨e, he, hk⟩
      cases e with
      | enqueueCalled newId pid' qid m =>
        obtain ⟨rfl, -⟩ := Prod.mk.inj (of_decide_eq_true hk)
        exact ⟨qid, newId, m, he⟩
      | _ => cases hk
    · rintro ⟨qid, newId, m, he⟩
      exact ⟨_, he, by simp [Event.enqueues, Event.key]⟩)

/-- Events of `enqueue` calls. -/
def Event.isEnqueue : Event → Bool
  | .enqueueCalled _ _ _ _ => true
  | .enqueueReturned _ _ => true
  | _ => false

/-- What the enqueue of a pair says about the state.  Some enqueues (`old`) are older than the run. -/
structure EnqueueInv (old : PendingOperationId → Prop) (h : List Event) (s : StoreProvider)
    (k : PendingOperationId) (x : Option Entry) : Prop where
  key : ∀ e ∈ x, e.pae.opId = k
  journal : ∀ e ∈ x, s.journalList.contains k.2
  threads : ∀ t : Thread, t.isEnqueue → t.key = k → s.threads.count t = if x.bind Entry.thread = some t then 1 else 0
  called : ∀ newId m, .enqueueCalled newId k.1 k.2 m ∈ h → ∃ e ∈ x, e.pae = m.pending k.1 k.2
  known : x ≠ none → Enqueued h k ∨ old k
  returned : .enqueueReturned k.1 k.2 ∈ h → ∃ e ∈ x, e.stage.returned
  duplicate : s.tracker.isDuplicate k.1 k.2 = true ↔ ∃ e ∈ x, e.newId = false ∧ e.stage.registered
  pending : s.tracker.isPending k.1 k.2 = true → s.enableSmartAsync = true ∧ ∃ e ∈ x, e.stage.pending
  smart : ∀ e ∈ x, e.stage = .willEnqueue ∨ e.stage = .check → s.enableSmartAsync = true
  main : ∀ e ∈ x, e.stage = .addPidMain → e.newId = true

/-- A pair that does not stand in `dupMap` has a new id or is stored. -/
theorem EnqueueInv.newId_or_done {old : PendingOperationId → Prop} {h : List Event} {s : StoreProvider}
    {k : PendingOperationId} {x : Option Entry} (hx : EnqueueInv old h s k x)
    (hdup : s.tracker.isDuplicate k.1 k.2 = false) : ∀ e ∈ x, e.newId = true ∨ e.stage = .done := by
  intro e he
  cases hid : e.newId with
  | true => exact Or.inl rfl
  | false =>
    right
    have hreg : e.stage.registered = false := by
      by_contra hreg
      rw [Bool.not_eq_false] at hreg
      have hin := hx.duplicate.2 ⟨e, he, hid, hreg⟩
      rw [hdup] at hin
      cases hin
    cases hstage : e.stage with
    | done => rfl
    | addPidMain =>
      have hnew := hx.main e he hstage
      rw [hid] at hnew
      cases hnew
    | _ => rw [hstage] at hreg; cases hreg

/-- The invariant of the enqueues. -/
def EnqueueSide (old : PendingOperationId → Prop) (h : List Event) (s : StoreProvider) (φ : Entries) : Prop :=
  ∀ k, EnqueueInv old h s k (φ k)

namespace EnqueueSide

open StoreProvider

variable {old : PendingOperationId → Prop} {h : List Event} {s s' : StoreProvider} {φ : Entries} {a : Action}
  {ev : List Event} {k : PendingOperationId}

/-! ### Threads and entries -/

theorem key_of_thread {e : Entry} {t : Thread} (ht : e.thread = some t) :
    t.key = e.pae.opId ∧ t.isEnqueue = true := by
  unfold Entry.thread at ht
  split at ht <;> cases ht <;> exact ⟨rfl, rfl⟩

/-- A step of an enqueue is the step of its entry. -/
theorem runThread_entry {e : Entry} {t : Thread} (ht : e.thread = some t) :
    (s.runThread t).2.1 = (e.next s).thread.toList := by
  obtain ⟨pae, newId, stage⟩ := e
  cases stage <;> cases ht <;> simp only [runThread, Entry.next, Entry.nextStage, Entry.thread]
  case logStart => cases s.enableSmartAsync <;> rfl
  case willEnqueue => rfl
  case schedule => cases s.enableSmartAsync <;> rfl
  case check =>
    rw [PidTracker.enqueueCheck_fst]
    cases s.tracker.isPending pae.msgId pae.queueId <;> rfl
  case put => rfl
  case logComplete => rfl
  case addPidDup =>
    rw [PidTracker.addPidDup_fst]
    cases s.tracker.isDuplicate pae.msgId pae.queueId <;> rfl
  case addPidMain => rfl

/-- A thread of an enqueue is the thread of the entry of its pair. -/
theorem entry_of_mem (hs : EnqueueSide old h s φ) {t : Thread} (ht : t ∈ s.threads) (hte : t.isEnqueue = true) :
    ∃ e, φ t.key = some e ∧ e.thread = some t := by
  have hcount := (hs t.key).threads t hte rfl
  have hpos : 0 < s.threads.count t := List.count_pos_iff.2 ht
  split at hcount
  · rename_i hb
    obtain ⟨e, he, het⟩ := Option.bind_eq_some_iff.1 hb
    exact ⟨e, he, het⟩
  · omega

/-- The thread of an entry is there. -/
theorem mem_of_entry (hs : EnqueueSide old h s φ) {e : Entry} (he : φ k = some e) {t : Thread}
    (ht : e.thread = some t) : t ∈ s.threads := by
  have hkey := key_of_thread ht
  have hk := (hs k).key e he
  have hcount := (hs k).threads t hkey.2 (hkey.1.trans hk)
  rw [he, Option.bind_some, if_pos ht] at hcount
  exact List.count_pos_iff.1 (by omega)

theorem stage_of_thread {e : Entry} (ht : e.thread = none) : e.stage = .done := by
  unfold Entry.thread at ht
  split at ht <;> first | assumption | cases ht

/-- With no enqueue in progress every entry is done. -/
theorem stage_eq_done (hs : EnqueueSide old h s φ) (hidle : ∀ t ∈ s.threads, t.isEnqueue = false) {e : Entry}
    (he : φ k = some e) : e.stage = .done := by
  cases ht : e.thread with
  | none => exact stage_of_thread ht
  | some t =>
    have := hidle t (hs.mem_of_entry he ht)
    rw [(key_of_thread ht).2] at this
    cases this

/-- With no thread of the pair in progress its entry is done. -/
theorem stage_of_idle (hs : EnqueueSide old h s φ) (hidle : ∀ t ∈ s.threads, t.key ≠ k) {e : Entry}
    (he : φ k = some e) : e.stage = .done := by
  cases ht : e.thread with
  | none => exact stage_of_thread ht
  | some t =>
    have hkey := (key_of_thread ht).1.trans ((hs k).key e he)
    exact absurd hkey (hidle t (hs.mem_of_entry he ht))

theorem isEnqueue_of_mem_runThread {t t' : Thread} (h : t' ∈ (s.runThread t).2.1) : t'.isEnqueue = t.isEnqueue := by
  cases t with
  | enqueue pc pae => cases pc <;> simp_all [runThread, Thread.isEnqueue]
  | store pc pae =>
    cases pc with
    | addPidDup =>
      simp only [runThread] at h
      split at h
      · cases h
      · rw [List.mem_singleton.1 h]; rfl
    | _ => simp_all [runThread, Thread.isEnqueue]
  | dequeue pc pid qid => cases pc <;> simp_all [runThread, Thread.isEnqueue]
  | asyncDequeue pc pid qid =>
    cases pc with
    | wait w =>
      cases w with
      | returned r =>
        simp only [runThread] at h
        split at h
        · rw [List.mem_singleton.1 h]; rfl
        · split at h
          · cases h
          · rw [List.mem_singleton.1 h]; rfl
      | _ => simp_all [runThread, Thread.isEnqueue]
    | _ => simp_all [runThread, Thread.isEnqueue]

/-! ### Steps that do not belong to the enqueue of the pair -/

/-- The enqueue of a pair stays as it is when its threads and its duplicate entry do. -/
theorem frame {x : Option Entry} (hx : EnqueueInv old h s k x)
    (hthreads : ∀ t : Thread, t.isEnqueue → t.key = k → s'.threads.count t = s.threads.count t)
    (hdup : s'.tracker.isDuplicate k.1 k.2 = s.tracker.isDuplicate k.1 k.2)
    (hpend : s'.tracker.isPending k.1 k.2 = true → s.tracker.isPending k.1 k.2 = true)
    (hsmart : s'.enableSmartAsync = s.enableSmartAsync)
    (hj : ∀ q, s'.journalList.contains q = s.journalList.contains q)
    (hev : ∀ e ∈ ev, e.key = k → e.isEnqueue = false) : EnqueueInv old (h ++ ev) s' k x where
  key := hx.key
  journal := fun e he => by rw [hj]; exact hx.journal e he
  threads := fun t ht htk => by rw [hthreads t ht htk]; exact hx.threads t ht htk
  called := by
    intro newId m hm
    rcases List.mem_append.1 hm with hm | hm
    · exact hx.called newId m hm
    · exact absurd (hev _ hm rfl) (by simp [Event.isEnqueue])
  known := by
    intro hne
    rcases hx.known hne with ⟨newId, m, hm⟩ | ho
    · exact Or.inl ⟨newId, m, List.mem_append_left _ hm⟩
    · exact Or.inr ho
  returned := by
    intro hm
    rcases List.mem_append.1 hm with hm | hm
    · exact hx.returned hm
    · exact absurd (hev _ hm rfl) (by simp [Event.isEnqueue])
  duplicate := by rw [hdup]; exact hx.duplicate
  pending := fun hp => by rw [hsmart]; exact hx.pending (hpend hp)
  smart := fun e he hst => by rw [hsmart]; exact hx.smart e he hst
  main := hx.main

/-! ### The step of an enqueue itself -/

theorem nextStage_returned {e : Entry} (hr : e.stage.returned = true ∨ e.stage = .schedule) :
    (e.nextStage s).returned = true := by
  obtain ⟨pae, newId, stage⟩ := e
  unfold Entry.nextStage
  cases stage with
  | logStart => simp [EnqStage.returned] at hr
  | willEnqueue => simp [EnqStage.returned] at hr
  | schedule => cases s.enableSmartAsync <;> rfl
  | check => cases s.tracker.isPending pae.msgId pae.queueId <;> rfl
  | addPidDup => cases s.tracker.isDuplicate pae.msgId pae.queueId <;> rfl
  | _ => rfl

theorem nextStage_registered (e : Entry) :
    (e.nextStage s).registered = (e.stage.registered && e.stage != .addPidDup) := by
  obtain ⟨pae, newId, stage⟩ := e
  unfold Entry.nextStage
  cases stage with
  | logStart => cases s.enableSmartAsync <;> rfl
  | schedule => cases s.enableSmartAsync <;> rfl
  | check => cases s.tracker.isPending pae.msgId pae.queueId <;> rfl
  | addPidDup => cases s.tracker.isDuplicate pae.msgId pae.queueId <;> rfl
  | _ => rfl

/-- The stages of the smart mode are entered in that mode only. -/
theorem nextStage_smart {e : Entry} (h : e.nextStage s = .willEnqueue ∨ e.nextStage s = .check) :
    s.enableSmartAsync = true := by
  obtain ⟨pae, newId, stage⟩ := e
  unfold Entry.nextStage at h
  cases stage with
  | logStart => cases hs : s.enableSmartAsync <;> simp [hs] at h ⊢
  | schedule => cases hs : s.enableSmartAsync <;> simp [hs] at h ⊢
  | check => cases hs : s.tracker.isPending pae.msgId pae.queueId <;> simp [hs] at h
  | addPidDup => cases hs : s.tracker.isDuplicate pae.msgId pae.queueId <;> simp [hs] at h
  | _ => simp at h

theorem nextStage_main {e : Entry} (h : e.nextStage s = .addPidMain) :
    e.stage = .addPidDup ∧ s.tracker.isDuplicate e.pae.msgId e.pae.queueId = false := by
  obtain ⟨pae, newId, stage⟩ := e
  unfold Entry.nextStage at h
  cases stage with
  | logStart => cases hs : s.enableSmartAsync <;> simp [hs] at h
  | schedule => cases hs : s.enableSmartAsync <;> simp [hs] at h
  | check => cases hs : s.tracker.isPending pae.msgId pae.queueId <;> simp [hs] at h
  | addPidDup => cases hs : s.tracker.isDuplicate pae.msgId pae.queueId <;> simp [hs] at h ⊢
  | _ => simp at h

/-- The duplicate entry of the pair is taken by the step that looks for it. -/
theorem isDuplicate_runThread {e : Entry} {t : Thread} (ht : e.thread = some t) :
    (s.runThread t).1.tracker.isDuplicate e.pae.msgId e.pae.queueId =
      (s.tracker.isDuplicate e.pae.msgId e.pae.queueId && e.stage != .addPidDup) := by
  obtain ⟨pae, newId, stage⟩ := e
  cases stage <;> cases ht <;> simp [runThread, PidTracker.isDuplicate_addPidDup]

/-- The pending entry of the pair is made by `willEnqueue` and taken by the check of the store task. -/
theorem isPending_runThread {e : Entry} {t : Thread} (ht : e.thread = some t) :
    (s.runThread t).1.tracker.isPending e.pae.msgId e.pae.queueId =
      match e.stage with
      | .willEnqueue => true
      | .check => false
      | _ => s.tracker.isPending e.pae.msgId e.pae.queueId := by
  obtain ⟨pae, newId, stage⟩ := e
  cases stage <;> cases ht <;>
    simp [runThread, PidTracker.isPending_willEnqueue, PidTracker.isPending_enqueueCheck]

/-- The step `put` inserts the message if it is absent; the others leave the database alone. -/
theorem stored_runThread {e : Entry} {t : Thread} (ht : e.thread = some t)
    (hj : s.journalList.contains e.pae.queueId) :
    (s.runThread t).1.stored e.pae.msgId e.pae.queueId =
      if e.stage = .put then some ((s.stored e.pae.msgId e.pae.queueId).getD (dbtValue e.pae.buff))
      else s.stored e.pae.msgId e.pae.queueId := by
  obtain ⟨pae, newId, stage⟩ := e
  cases stage <;> cases ht
  case put =>
    simp only [runThread]
    rw [stored_storeMsg s _ _ _ _ _ hj, if_pos rfl, if_pos trivial]
  all_goals
    rw [if_neg (by simp)]
    exact stored_congr rfl _ _

private theorem advance_self (hs : EnqueueSide old h s φ) {t : Thread} (ht : t ∈ s.threads)
    (hte : t.isEnqueue = true) (hst : s.step (.advance t) = some (s', ev)) :
    EnqueueInv old (h ++ ev) s' t.key ((φ t.key).map (Entry.next s)) := by
  obtain ⟨e, he, het⟩ := hs.entry_of_mem ht hte
  have hx := hs t.key
  rw [he] at hx
  have hkey : e.pae.opId = t.key := hx.key e rfl
  have hk1 : t.key.1 = e.pae.msgId := by rw [← hkey]; rfl
  have hk2 : t.key.2 = e.pae.queueId := by rw [← hkey]; rfl
  have hj := step_contains hst
  obtain ⟨-, rfl, rfl⟩ := step_advance hst
  rw [he, Option.map_some]
  -- the only event is the return of the call, when the task is scheduled
  have hcalled : ∀ newId m, Event.enqueueCalled newId t.key.1 t.key.2 m ∉ (s.runThread t).2.2 :=
    fun newId m => enqueueCalled_notMem_runThread t newId t.key.1 t.key.2 m
  refine ⟨fun e' he' => ?_, fun e' he' => ?_, fun t' ht' htk' => ?_, fun newId m hm => ?_, fun _ => ?_,
    fun hm => ?_, ?_, ?_, ?_, ?_⟩
  · cases he'
    exact hkey
  · rw [hj]
    exact hx.journal e rfl
  · -- the thread is replaced by the thread of the next stage
    have hold := hx.threads t' ht' htk'
    rw [Option.bind_some, het] at hold
    show (s.threads.erase t ++ (s.runThread t).2.1).count t' = _
    rw [runThread_entry het]
    exact count_replace ht (e.next s).thread hold
  · rcases List.mem_append.1 hm with hm | hm
    · obtain ⟨e', he', hp⟩ := hx.called newId m hm
      cases he'
      exact ⟨_, rfl, hp⟩
    · exact absurd hm (hcalled newId m)
  · rcases hx.known (by simp) with ⟨newId, m, hm⟩ | ho
    · exact Or.inl ⟨newId, m, List.mem_append_left _ hm⟩
    · exact Or.inr ho
  · refine ⟨_, rfl, ?_⟩
    rcases List.mem_append.1 hm with hm | hm
    · obtain ⟨e', he', hr⟩ := hx.returned hm
      cases he'
      exact nextStage_returned (Or.inl hr)
    · apply nextStage_returned
      obtain ⟨pae, b, stage⟩ := e
      cases stage <;> cases het <;> simp [runThread] at hm ⊢
  · have hdup := hx.duplicate
    simp only [Option.mem_def, Option.some.injEq, exists_eq_left'] at hdup ⊢
    rw [hk1, hk2] at hdup ⊢
    rw [show (e.next s).stage.registered = _ from nextStage_registered e,
      show (e.next s).newId = e.newId from rfl]
    refine (Eq.congr (isDuplicate_runThread het) rfl).trans ?_
    rw [Bool.and_eq_true, Bool.and_eq_true, hdup, and_assoc]
  · have hpend := hx.pending
    simp only [Option.mem_def, Option.some.injEq, exists_eq_left'] at hpend ⊢
    rw [hk1, hk2] at hpend ⊢
    intro hp
    have hp' := (isPending_runThread (s := s) het).symm.trans hp
    have hmode := hx.smart e rfl
    show (s.runThread t).1.enableSmartAsync = true ∧ (e.nextStage s).pending = true
    rw [runThread_enableSmartAsync]
    unfold Entry.nextStage
    cases hstage : e.stage with
    | willEnqueue => exact ⟨hmode (Or.inl hstage), rfl⟩
    | check => rw [hstage] at hp'; cases hp'
    | schedule =>
      rw [hstage] at hp'
      have hsm := (hpend hp').1
      rw [hsm]
      exact ⟨rfl, rfl⟩
    | _ =>
      rw [hstage] at hp'
      have := (hpend hp').2
      rw [hstage] at this
      cases this
  · intro e' he' hst'
    cases he'
    show (s.runThread t).1.enableSmartAsync = true
    rw [runThread_enableSmartAsync]
    exact nextStage_smart hst'
  · intro e' he' hst'
    cases he'
    obtain ⟨hstage, hnd⟩ := nextStage_main hst'
    have hdup := hx.duplicate
    rw [hk1, hk2, hnd] at hdup
    cases hnew : e.newId with
    | true => exact hnew
    | false => exact absurd (hdup.2 ⟨e, rfl, hnew, by rw [hstage]; rfl⟩) (by simp)

/-- A step of a dequeue of the pair leaves its enqueue alone; it may take the pair from `pendMap`. -/
private theorem dequeue_self (hs : EnqueueSide old h s φ) {t : Thread} (ht : t ∈ s.threads)
    (hte : t.isEnqueue = false) (hst : s.step (.advance t) = some (s', ev)) :
    EnqueueInv old (h ++ ev) s' t.key (φ t.key) := by
  have hj := step_contains hst
  have hsm := step_enableSmartAsync hst
  obtain ⟨-, rfl, rfl⟩ := step_advance hst
  refine frame (hs t.key) (fun t' ht' _ => ?_) ?_ ?_ hsm hj (fun e he _ => ?_)
  · have hcount := count_advance ht (s.runThread t).2.1 t'
    have hne : t' ≠ t := by
      rintro rfl
      rw [hte] at ht'
      cases ht'
    have hzero : (s.runThread t).2.1.count t' = 0 := by
      rw [List.count_eq_zero]
      intro hmem
      have := isEnqueue_of_mem_runThread hmem
      rw [hte, ht'] at this
      cases this
    rw [if_neg hne, hzero] at hcount
    exact hcount
  · cases t with
    | enqueue pc pae => cases hte
    | store pc pae => cases hte
    | dequeue pc pid qid => cases pc <;> simp [runThread, PidTracker.dequeueCheck_snd]
    | asyncDequeue pc pid qid =>
      cases pc with
      | wait w => cases w <;> rfl
      | remove => simp [runThread]
      | logComplete => rfl
  · cases t with
    | enqueue pc pae => cases hte
    | store pc pae => cases hte
    | dequeue pc pid qid =>
      cases pc <;> simp [runThread, PidTracker.dequeueCheck_snd, PidTracker.isPending_enqueueCheck, Thread.key]
    | asyncDequeue pc pid qid =>
      cases pc with
      | wait w => cases w <;> exact id
      | remove => simp [runThread]
      | logComplete => exact id
  · cases t with
    | enqueue pc pae => cases hte
    | store pc pae => cases hte
    | dequeue pc pid qid => cases pc <;> simp_all [runThread, Event.isEnqueue]
    | asyncDequeue pc pid qid =>
      cases pc with
      | wait w => cases w <;> simp_all [runThread]
      | _ => simp_all [runThread]

/-- The call of `enqueue` on a pair that has no enqueue. -/
private theorem enqueue_self (hs : EnqueueSide old h s φ) {messageId qid : UInt64} {m : Message}
    (hnew : φ (s.enqueueId messageId, qid) = none) (hst : s.step (.enqueue messageId qid m) = some (s', ev)) :
    EnqueueInv old (h ++ ev) s' (s.enqueueId messageId, qid)
      (some ⟨m.pending (s.enqueueId messageId) qid, messageId = 0, .logStart⟩) := by
  have hx := hs (s.enqueueId messageId, qid)
  rw [hnew] at hx
  have hdup : s.tracker.isDuplicate (s.enqueueId messageId) qid = false := by
    have := hx.duplicate
    simpa using this
  have hpend : s.tracker.isPending (s.enqueueId messageId) qid ≠ true := fun hp => by
    simpa using (hx.pending hp).2
  have hnone : ∀ newId m', Event.enqueueCalled newId (s.enqueueId messageId) qid m' ∉ h := fun newId m' hm => by
    simpa using hx.called newId m' hm
  have hret : Event.enqueueReturned (s.enqueueId messageId) qid ∉ h := fun hm => by simpa using hx.returned hm
  have hsm := step_enableSmartAsync hst
  obtain ⟨-, hq, rfl, rfl⟩ := step_enqueue hst
  refine ⟨fun e he => ?_, fun e he => ?_, fun t ht htk => ?_, fun newId m' hm => ?_, fun _ => ?_, fun hm => ?_, ?_,
    fun hp => ?_, fun e he hst' => ?_, fun e he hst' => ?_⟩
  · cases he
    rfl
  · exact hq
  · have hold := hx.threads t ht htk
    rw [Option.bind_none, if_neg (by simp)] at hold
    rw [List.count_append, hold, List.count_singleton, Nat.zero_add]
    simp only [Option.bind_some, Entry.thread, Option.some.injEq, beq_iff_eq]
  · refine ⟨_, rfl, ?_⟩
    rcases List.mem_append.1 hm with hm | hm
    · exact absurd hm (hnone newId m')
    · cases List.mem_singleton.1 hm
      rfl
  · exact Or.inl ⟨_, m, List.mem_append_right _ (List.mem_singleton.2 rfl)⟩
  · rcases List.mem_append.1 hm with hm | hm
    · exact absurd hm hret
    · cases List.mem_singleton.1 hm
  · by_cases hid : messageId = 0
    · simp [hid]
      simpa [hid] using hdup
    · simp only [if_neg hid]
      rw [PidTracker.isDuplicate_addDuplicate]
      simp [enqueueId, hid, EnqStage.registered]
  · refine absurd ?_ hpend
    by_cases hid : messageId = 0
    · simpa only [if_pos hid] using hp
    · simpa only [if_neg hid, PidTracker.isPending_addDuplicate] using hp
  · cases he
    simp at hst'
  · cases he
    cases hst'

/-- Before the first call there is no enqueue. -/
theorem of_empty (hs : s.Empty) : EnqueueSide (fun _ => False) [] s (fun _ => none) := by
  intro k
  exact
    { key := fun e he => nomatch he
      journal := fun e he => nomatch he
      threads := fun t _ _ => by rw [hs.threads]; rfl
      called := fun newId m hm => nomatch hm
      known := fun hne => absurd rfl hne
      returned := fun hm => nomatch hm
      duplicate := by rw [hs.tracker]; simp [PidTracker.isDuplicate]
      pending := fun hp => by rw [hs.tracker] at hp; simp [PidTracker.isPending] at hp
      smart := fun e he => nomatch he
      main := fun e he => nomatch he }

/-- Without the events so far every enqueue counts as older. -/
theorem forget (hs : EnqueueSide old h s φ) : EnqueueSide (fun _ => True) [] s φ := fun k =>
  { hs k with
    called := fun _ _ hm => nomatch hm
    known := fun _ => Or.inr trivial
    returned := fun hm => nomatch hm }

/-- Every step preserves the invariant of the enqueues, if it does not enqueue a pair a second time. -/
theorem step (hs : EnqueueSide old h s φ)
    (hnew : ∀ messageId qid m, a = .enqueue messageId qid m → φ (s.enqueueId messageId, qid) = none)
    (hst : s.step a = some (s', ev)) : EnqueueSide old (h ++ ev) s' (φ.next s a) := by
  intro k
  have hj := step_contains hst
  have hsm := step_enableSmartAsync hst
  have hother : a.key s ≠ some k → EnqueueInv old (h ++ ev) s' k (φ.next s a k) := by
    intro hk
    obtain ⟨hsame, hev⟩ := step_sameAt hst hk
    rw [Entries.next_of_ne hk]
    exact frame (hs k) (fun t _ htk => hsame.threads t htk) hsame.duplicate (fun hp => hsame.pending ▸ hp) hsm hj
      (fun e he hek => absurd hek (hev e he))
  cases a with
  | enqueue messageId qid m =>
    by_cases hk : (s.enqueueId messageId, qid) = k
    · subst hk
      simp only [Entries.next, Function.update_self]
      exact hs.enqueue_self (hnew messageId qid m rfl) hst
    · exact hother fun he => hk (Option.some.inj he)
  | dequeue pid qid =>
    by_cases hk : (pid, qid) = k
    · subst hk
      obtain ⟨rfl, rfl⟩ := step_dequeue hst
      refine frame (hs _) (fun t ht _ => ?_) rfl id rfl hj (fun e he _ => ?_)
      · have hne : Thread.dequeue (if s.enableSmartAsync then .check else .logStart) pid qid ≠ t := by
          rintro rfl
          cases ht
        rw [List.count_append, List.count_singleton, if_neg (by simpa using hne), Nat.add_zero]
      · rw [List.mem_singleton.1 he]
        rfl
    · exact hother fun he => hk (Option.some.inj he)
  | advance t =>
    have ht := (step_advance hst).1
    by_cases hk : t.key = k
    · subst hk
      by_cases hte : t.isEnqueue = true
      · simp only [Entries.next, if_pos hte, Function.update_self]
        exact hs.advance_self ht hte hst
      · simp only [Entries.next, if_neg hte]
        exact hs.dequeue_self ht (by simpa using hte) hst
    · exact hother fun he => hk (Option.some.inj he)
  | cleanEnqueueLog => exact hother (by simp [Action.key])
  | cleanDequeueLog => exact hother (by simp [Action.key])

end EnqueueSide

end BdbMsgStore

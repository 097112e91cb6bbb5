import BdbMsgStore.MessageRoutes
import BdbMsgStore.QueueCreation
import BdbMsgStore.RecoveryOps

/-!
# Queues and their ids

A broker creates and destroys queues, and is restarted.  The log of the enqueues knows a queue by its id only.  An
entry of a queue that has been destroyed is logged again by every recovery and never completed, and the sequence of
the queue ids goes on after the largest id of a live queue, so that a later queue may get the id of the destroyed one,
and with the next recovery its messages (`stale_entry_recovered`).

When no queue is created under an id for which the enqueue log still has a start record, a message comes back to the
queue object on which it was enqueued and to no other (`recovered_on_own_queue`).

A queue object is known by the call that has created it; the journals are known by the ids here.  That the
directories of two queues do not interfere is the subject of `JournalPaths`; what the files in the directory of a
new queue hold is a parameter of its creation.
-/

namespace BdbMsgStore

open KeyedLog LogFormat StoreProvider

/-! ### Runs with queues -/

/-- A broker: the records of its queues, the provider, and the journals on the disk that it has not opened.  A new
journal has `shards + 1` databases. -/
structure Site where
  queueDb : RecordDb := {}
  provider : StoreProvider
  closed : UInt64 → Option JournalImpl := fun _ => none
  shards : Nat := 0
  running : Bool := true

/-- A broker that has just been installed. -/
def newSite (smart : Bool) (shards : Nat) : Site := { provider := { enableSmartAsync := smart }, shards }

namespace Site

variable (w : Site)

/-- The journal of a queue, open or not. -/
def journal (id : UInt64) : Option JournalImpl := (w.provider.journalList.find? id).or (w.closed id)

/-- The queues that `recoverQueues` recovers, in this order. -/
def queueIds : List UInt64 := (recoverQueues (cursor w.queueDb.records)).queueMap.map Prod.fst

/-- The provider with the journals that `recoverQueues` opens. -/
def opened : StoreProvider :=
  { w.provider with
    journalList := w.queueIds.foldl
      (fun m id => m.assign id ((w.journal id).getD (JournalImpl.empty w.shards))) ∅ }

/-- The journals that it does not open. -/
def unopened (id : UInt64) : Option JournalImpl := if id ∈ w.queueIds then none else w.journal id

/-- What the recovery of a broker hands over, if it returns. -/
def recovered (smart : Bool) (loadContent : UInt64 → Bytes → UInt64 → Bool)
    (malloc : List PendingOperationId → Bool) : Option Recovered :=
  recoverMessages loadContent malloc w.queueIds (w.opened.restart smart)

end Site

/-- What happens to a broker.  `jc` is the journal on the files in the directory of the new queue, and a recovery
may be cut short after some of its writes. -/
inductive SiteAction where
  | create (fails : CreateStep → Bool) (jc : JournalImpl) (name : Bytes)
  | destroy (id : UInt64)
  | provider (a : Action)
  | crash
  | recover (smart : Bool) (loadContent : UInt64 → Bytes → UInt64 → Bool) (malloc : List PendingOperationId → Bool)
      (stop : Option Nat)

/-- A queue got its record, or the broker has seen an event of the provider. -/
inductive SiteEvent where
  | created (id : UInt64)
  | provider (e : Event)
  deriving DecidableEq

namespace Site

/-- `create(PersistableQueue&)` -/
def createQueue (w : Site) (fails : CreateStep → Bool) (jc : JournalImpl) (name : Bytes) : Site × List SiteEvent :=
  let r := create fails jc { queueDb := w.queueDb, journalList := w.provider.journalList } { name }
  ({ w with queueDb := r.store.queueDb, provider := { w.provider with journalList := r.store.journalList } },
    if r.queue.persistenceId = 0 then [] else [.created r.queue.persistenceId])

/-- `destroy(PersistableQueue&)` -/
def destroyQueue (w : Site) (id : UInt64) : Site :=
  { w with
    queueDb := w.queueDb.destroy id
    provider := { w.provider with journalList := w.provider.journalList.erase id }
    closed := fun q => if q = id then none else w.closed q }

def step (w : Site) : SiteAction → Option (Site × List SiteEvent)
  | .create fails jc name => if w.running then some (w.createQueue fails jc name) else none
  | .destroy id => if w.running then some (w.destroyQueue id, []) else none
  | .provider a =>
    if w.running then (w.provider.step a).map fun r => ({ w with provider := r.1 }, r.2.map .provider) else none
  | .crash => if w.running then some ({ w with running := false }, []) else none
  | .recover smart loadContent malloc stop =>
    if w.running then none
    else
      match stop with
      | none =>
        (w.recovered smart loadContent malloc).map fun R =>
          ({ w with
            queueDb := w.queueDb.reset (recoverQueues (cursor w.queueDb.records)).maxQueueId
            provider := R.provider
            closed := w.unopened
            running := true }, [])
      | some n =>
        some ({ w with
          provider := (w.opened.restart smart).applyOps
            ((recoveryOps loadContent malloc w.queueIds (w.opened.restart smart)).take n)
          closed := w.unopened }, [])

end Site

/-- The message was enqueued, and no queue was created under the id of its queue since then. -/
def EnqueuedOn (h : List SiteEvent) (pid qid : UInt64) (m : Message) : Prop :=
  ∃ h₁ newId h₂, h = h₁ ++ .provider (.enqueueCalled newId pid qid m) :: h₂ ∧ .created qid ∉ h₂

/-- Every message that is put on a queue was enqueued on this queue, and has the header and the content with which
it was enqueued, unless it was too large for the database. -/
def OnOwnQueue (h : List SiteEvent) (R : Recovered) : Prop :=
  ∀ pid qid, qid ∈ R.messageQueueMap.queues pid →
    ∃ m, EnqueuedOn h pid qid m ∧ (m.Storable → R.messageMap.find? pid = some ⟨m.header, m.content⟩)

/-! ### The condition -/

/-- The start record of an enqueue on the queue. -/
def startsOn (id : UInt64) : LogRecord PendingAsyncEnqueue → Bool
  | .start _ pae => pae.queueId = id
  | .complete _ => false

/-- Nothing refers to the id: no start record is left in the enqueue log, and no enqueue is in progress. -/
def StoreProvider.Unreferenced (s : StoreProvider) (id : UInt64) : Prop :=
  (∀ i, ∀ r ∈ enqueueFormat.records (s.aologger.enqueueLog.file i), startsOn id r = false) ∧
    ∀ t ∈ s.threads, t.isEnqueue = true → t.key.2 ≠ id

instance (s : StoreProvider) (id : UInt64) : Decidable (s.Unreferenced id) :=
  inferInstanceAs (Decidable (_ ∧ _))

/-- The event does not enqueue another message under the id. -/
def SiteEvent.agrees (pid : UInt64) (m : Message) : SiteEvent → Bool
  | .provider (.enqueueCalled _ pid' _ m') => pid' ≠ pid || m' = m
  | _ => true

/-- Queues are created under ids to which nothing refers and in directories without messages, and a message id
stands for one message. -/
def FreshQueues (h : List SiteEvent) (w : Site) : SiteAction → Prop
  | .create _ jc _ => w.provider.Unreferenced w.queueDb.idSequence.next.1 ∧ jc.recoverMessages = []
  | .provider (.enqueue messageId _ m) => ∀ e ∈ h, e.agrees (w.provider.enqueueId messageId) m = true
  | _ => True

instance (h : List SiteEvent) (w : Site) (a : SiteAction) : Decidable (FreshQueues h w a) := by
  unfold FreshQueues
  split <;> infer_instance

/-! ### Where records come from -/

/-- The operation is the one that `enqueue` has logged for a message of its queue. -/
def LoggedOn (h : List SiteEvent) (pae : PendingAsyncEnqueue) : Prop :=
  ∃ m, pae = m.pending pae.msgId pae.queueId ∧ EnqueuedOn h pae.msgId pae.queueId m

/-- The bytes are those of a message of the queue, whole unless the message was too large for the database. -/
def StoredFrom (h : List SiteEvent) (pid qid : UInt64) (v : Bytes) : Prop :=
  ∃ m, (m.Storable → v = msgEncode m) ∧ EnqueuedOn h pid qid m

/-- What a thread of an enqueue is about to log or to store. -/
def Thread.pae : Thread → Option PendingAsyncEnqueue
  | .enqueue _ pae => some pae
  | .store _ pae => some pae
  | _ => none

section

variable {h h' : List SiteEvent} {pid qid : UInt64}

theorem EnqueuedOn.append {m : Message} (hm : EnqueuedOn h pid qid m) (hnew : .created qid ∉ h') :
    EnqueuedOn (h ++ h') pid qid m := by
  obtain ⟨h₁, newId, h₂, rfl, hnot⟩ := hm
  refine ⟨h₁, newId, h₂ ++ h', ?_, ?_⟩
  · rw [List.append_assoc]
    rfl
  · rw [List.mem_append, not_or]
    exact ⟨hnot, hnew⟩

theorem EnqueuedOn.mem {m : Message} (hm : EnqueuedOn h pid qid m) :
    ∃ newId, .provider (.enqueueCalled newId pid qid m) ∈ h := by
  obtain ⟨h₁, newId, h₂, rfl, -⟩ := hm
  exact ⟨newId, List.mem_append_right _ (List.mem_cons_self ..)⟩

theorem not_enqueuedOn_created (m : Message) : ¬ EnqueuedOn (h ++ [.created qid]) pid qid m := by
  rintro ⟨h₁, newId, h₂, he, hnot⟩
  have hlast := congrArg List.getLast? he
  rw [List.getLast?_concat, List.getLast?_append, List.getLast?_cons] at hlast
  cases hl : h₂.getLast? with
  | none =>
    rw [hl] at hlast
    cases hlast
  | some e =>
    rw [hl] at hlast
    cases hlast
    exact hnot (List.mem_of_getLast? hl)

theorem LoggedOn.append {pae : PendingAsyncEnqueue} (hp : LoggedOn h pae) (hnew : .created pae.queueId ∉ h') :
    LoggedOn (h ++ h') pae := by
  obtain ⟨m, hm, hon⟩ := hp
  exact ⟨m, hm, hon.append hnew⟩

theorem StoredFrom.append {v : Bytes} (hv : StoredFrom h pid qid v) (hnew : .created qid ∉ h') :
    StoredFrom (h ++ h') pid qid v := by
  obtain ⟨m, hm, hon⟩ := hv
  exact ⟨m, hm, hon.append hnew⟩

theorem LoggedOn.stored {pae : PendingAsyncEnqueue} (hp : LoggedOn h pae) :
    StoredFrom h pae.msgId pae.queueId pae.buff ∧ StoredFrom h pae.msgId pae.queueId (dbtValue pae.buff) := by
  obtain ⟨m, hm, hon⟩ := hp
  have hbuff : pae.buff = msgEncode m := congrArg PendingAsyncEnqueue.buff hm
  refine ⟨⟨m, fun _ => hbuff, hon⟩, m, fun hsize => ?_, hon⟩
  rw [hbuff, dbtValue_msgEncode hsize]

end

/-- A call of the broker logs what it was called with. -/
private theorem logged_call (h : List SiteEvent) (newId : Bool) (pid qid : UInt64) (m : Message) :
    LoggedOn (h ++ [.provider (.enqueueCalled newId pid qid m)]) (m.pending pid qid) :=
  ⟨m, rfl, h, newId, [], rfl, List.not_mem_nil⟩

/-! ### Steps of the provider -/

section Provider

variable {s s' : StoreProvider} {a : Action} {ev : List Event}

/-- What is in a database after a step was there before, or is put there by a store task. -/
theorem stored_step (hst : s.step a = some (s', ev)) {p q : UInt64} {v : Bytes} (hv : s'.stored p q = some v) :
    s.stored p q = some v ∨ ∃ t ∈ s.threads, ∃ pae ∈ t.pae, pae.msgId = p ∧ pae.queueId = q ∧
      dbtValue pae.buff = v := by
  cases a with
  | enqueue messageId qid m =>
    obtain ⟨-, -, rfl, -⟩ := step_enqueue hst
    exact Or.inl hv
  | dequeue pid qid =>
    obtain ⟨rfl, -⟩ := step_dequeue hst
    exact Or.inl hv
  | advance t =>
    obtain ⟨ht, rfl, -⟩ := step_advance hst
    cases t with
    | enqueue pc pae => cases pc <;> exact Or.inl hv
    | store pc pae =>
      cases pc with
      | put =>
        have hput : (s.modifyJournal pae.queueId fun j => j.storeMsg pae.msgId pae.buff).stored p q = some v := hv
        rw [stored_modifyJournal] at hput
        split at hput
        · rename_i hq
          obtain ⟨j, hj, hfind⟩ := Option.bind_eq_some_iff.1 hput
          have hold : s.stored p q = j.find? p := by
            unfold stored
            rw [hq, hj]
            rfl
          rw [JournalImpl.find?_storeMsg] at hfind
          split at hfind
          · rename_i hp
            rw [← hp, ← hold] at hfind
            cases hs : s.stored p q with
            | some v' =>
              rw [hs] at hfind
              exact Or.inl hfind
            | none =>
              rw [hs] at hfind
              exact Or.inr ⟨_, ht, pae, rfl, hp.symm, hq.symm, Option.some.inj hfind⟩
          · rw [hold]
            exact Or.inl hfind
        · exact Or.inl hput
      | _ => exact Or.inl hv
    | dequeue pc pid qid => cases pc <;> exact Or.inl hv
    | asyncDequeue pc pid qid =>
      cases pc with
      | wait wpc => cases wpc <;> exact Or.inl hv
      | remove =>
        have hrem : (s.modifyJournal qid fun j => j.removeMsg pid).stored p q = some v := hv
        rw [stored_removeMsg] at hrem
        split at hrem
        · cases hrem
        · exact Or.inl hrem
      | logComplete => exact Or.inl hv
  | cleanEnqueueLog =>
    cases hst
    exact Or.inl hv
  | cleanDequeueLog =>
    cases hst
    exact Or.inl hv

/-- The starts in the enqueue log after a step were there before, or are logged by a call. -/
theorem known_step {S : PendingAsyncEnqueue → Prop} (hst : s.step a = some (s', ev))
    (hlog : s.aologger.enqueueLog.Known enqueueFormat S) (hS : ∀ t ∈ s.threads, ∀ pae ∈ t.pae, S pae) :
    s'.aologger.enqueueLog.Known enqueueFormat S := by
  cases a with
  | enqueue messageId qid m =>
    obtain ⟨-, -, rfl, -⟩ := step_enqueue hst
    exact hlog
  | dequeue pid qid =>
    obtain ⟨rfl, -⟩ := step_dequeue hst
    exact hlog
  | advance t =>
    obtain ⟨ht, rfl, -⟩ := step_advance hst
    cases t with
    | enqueue pc pae =>
      cases pc with
      | logStart => exact hlog.logStart (hS _ ht pae rfl)
      | _ => exact hlog
    | store pc pae =>
      cases pc with
      | put =>
        show (s.modifyJournal pae.queueId fun j => j.storeMsg pae.msgId pae.buff).aologger.enqueueLog.Known _ _
        rw [modifyJournal_aologger]
        exact hlog
      | logComplete => exact hlog.logComplete _
      | _ => exact hlog
    | dequeue pc pid qid =>
      cases pc with
      | logEnqueueComplete => exact hlog.logComplete _
      | _ => exact hlog
    | asyncDequeue pc pid qid =>
      cases pc with
      | wait wpc => cases wpc <;> exact hlog
      | remove =>
        show (s.modifyJournal qid fun j => j.removeMsg pid).aologger.enqueueLog.Known _ _
        rw [modifyJournal_aologger]
        exact hlog
      | logComplete => exact hlog
  | cleanEnqueueLog =>
    cases hst
    exact hlog.cleanStep
  | cleanDequeueLog =>
    cases hst
    exact hlog

/-- A thread passes on what it is about. -/
theorem pae_of_mem_runThread {t t' : Thread} (ht : t' ∈ (s.runThread t).2.1) {pae : PendingAsyncEnqueue}
    (hp : pae ∈ t'.pae) : pae ∈ t.pae := by
  have henq : t.isEnqueue = true := by
    rw [← EnqueueSide.isEnqueue_of_mem_runThread ht]
    cases t' with
    | enqueue pc pae' => rfl
    | store pc pae' => rfl
    | _ => cases hp
  cases t with
  | enqueue pc pae' =>
    cases pc <;> rw [List.mem_singleton.1 ht] at hp <;> exact hp
  | store pc pae' =>
    cases pc with
    | addPidDup =>
      simp only [runThread] at ht
      split at ht
      · cases ht
      · rw [List.mem_singleton.1 ht] at hp
        exact hp
    | addPidMain => cases ht
    | _ =>
      rw [List.mem_singleton.1 ht] at hp
      exact hp
  | dequeue pc pid qid => cases henq
  | asyncDequeue pc pid qid => cases henq

end Provider

/-! ### Writes of recovery -/

namespace AsyncLog

variable {α : Type} {F : LogFormat α} {S : α → Prop} {L : AsyncLog}

theorem Known.removeFile (h : L.Known F S) (i : Fin 2) : (L.removeFile i).Known F S :=
  h.update (i := i) (fun _ => rfl) (fun _ _ hmem => (List.not_mem_nil hmem).elim) rfl h.tmp

theorem Known.foldl_logComplete (h : L.Known F S) (ks : List PendingOperationId) :
    (ks.foldl (AsyncLog.logComplete F) L).Known F S := by
  induction ks generalizing L with
  | nil => exact h
  | cons k ks ih => exact ih (h.logComplete k)

end AsyncLog

/-- The write appends to the enqueue log no starts but those from `S`. -/
def DiskOp.Keeps (S : PendingAsyncEnqueue → Prop) : DiskOp → Prop
  | .enqueueStart pae => S pae
  | _ => True

theorem AsyncLog.Known.applyOps {S : PendingAsyncEnqueue → Prop} {s : StoreProvider} {ops : List DiskOp}
    (hlog : s.aologger.enqueueLog.Known enqueueFormat S) (hops : ∀ op ∈ ops, op.Keeps S) :
    (s.applyOps ops).aologger.enqueueLog.Known enqueueFormat S := by
  induction ops generalizing s with
  | nil => exact hlog
  | cons op ops ih =>
    have hop := hops op (List.mem_cons_self ..)
    rw [applyOps_cons]
    refine ih ?_ fun op' hop' => hops op' (List.mem_cons_of_mem _ hop')
    cases op with
    | removeEnqueueFile i => exact hlog.removeFile i
    | enqueueStart pae => exact hlog.logStart hop
    | enqueueComplete k => exact hlog.logComplete k
    | massEnqueueComplete malloc ks =>
      show ((s.aologger.logMassEnqueueComplete malloc ks).getD s.aologger).enqueueLog.Known _ _
      cases hmass : s.aologger.logMassEnqueueComplete malloc ks with
      | none => exact hlog
      | some lg =>
        -- the completions were logged one by one
        obtain ⟨-, rfl⟩ := AsyncOperationLogger.logMassEnqueueComplete_eq_some_iff.1 hmass
        rw [AsyncOperationLogger.enqueueCompletes_eq]
        exact hlog.foldl_logComplete ks
    | massDequeueComplete malloc ks =>
      show ((s.aologger.logMassDequeueComplete malloc ks).getD s.aologger).enqueueLog.Known _ _
      cases hmass : s.aologger.logMassDequeueComplete malloc ks with
      | none => exact hlog
      | some lg =>
        obtain ⟨-, rfl⟩ := AsyncOperationLogger.logMassDequeueComplete_eq_some_iff.1 hmass
        rw [AsyncOperationLogger.dequeueCompletes_eq]
        exact hlog
    | delete pid qid =>
      show (s.modifyJournal qid fun j => j.removeMsg pid).aologger.enqueueLog.Known _ _
      rw [modifyJournal_aologger]
      exact hlog
    | _ => exact hlog

theorem keeps_recoveryOps {S : PendingAsyncEnqueue → Prop} {s : StoreProvider} {queues : List UInt64}
    (loadContent : UInt64 → Bytes → UInt64 → Bool) (malloc : List PendingOperationId → Bool)
    (hlog : s.aologger.enqueueLog.Known enqueueFormat S) (hq : Recoverable s queues) :
    ∀ op ∈ recoveryOps loadContent malloc queues s, op.Keeps S := by
  intro op hop
  have hop := (recoveryOps_attempted List.prefix_rfl).1.subset hop
  unfold attemptedOps at hop
  rcases List.mem_append.1 hop with hop | hop
  · unfold dequeueLogOps at hop
    simp only [List.mem_cons, List.mem_map] at hop
    rcases hop with rfl | rfl | ⟨pad, -, rfl⟩ <;> trivial
  · rcases List.mem_append.1 hop with hop | hop
    · unfold enqueueLogOps at hop
      simp only [List.mem_cons, List.mem_map] at hop
      rcases hop with rfl | rfl | ⟨pae, hpae, rfl⟩
      · trivial
      · trivial
      · exact hlog.of_mem_pendingInFiles hpae
    · have hc := (sound_settleOps loadContent malloc hq).completing op hop
      cases op with
      | enqueueStart pae => exact hc.elim
      | _ => trivial

/-! ### The journals that recovery opens -/

private theorem find?_foldl_assign (ids : List UInt64) (f : UInt64 → JournalImpl) (m : OrdMap UInt64 JournalImpl)
    (id : UInt64) : (ids.foldl (fun m id => m.assign id (f id)) m).find? id =
      if id ∈ ids then some (f id) else m.find? id := by
  induction ids generalizing m with
  | nil => rfl
  | cons id' ids ih =>
    rw [List.foldl_cons, ih, OrdMap.find?_assign]
    by_cases he : id = id'
    · subst he
      simp
    · simp [he]

namespace Site

variable (w : Site)

theorem find?_opened (id : UInt64) : w.opened.journalList.find? id =
    if id ∈ w.queueIds then some ((w.journal id).getD (JournalImpl.empty w.shards)) else none :=
  find?_foldl_assign _ _ _ _

theorem recoverable_opened : Recoverable w.opened w.queueIds := by
  refine ⟨?_, fun q => ?_⟩
  · have hsub : w.queueIds.Sublist ((cursor w.queueDb.records).map Prod.fst) :=
      (List.takeWhile_sublist hasName).map Prod.fst
    refine List.Nodup.sublist hsub ?_
    unfold cursor
    rw [((List.perm_insertionSort keyOrder w.queueDb.records.entries).map Prod.fst).nodup_iff]
    exact w.queueDb.records.nodup_keys
  · rw [OrdMap.contains, w.find?_opened]
    by_cases hq : q ∈ w.queueIds <;> simp [hq]

/-- Only queues with a record are recovered. -/
theorem contains_of_mem_queueIds {id : UInt64} (hid : id ∈ w.queueIds) : w.queueDb.records.contains id = true := by
  obtain ⟨⟨id', value⟩, hmem, rfl⟩ := List.mem_map.1 hid
  have hcursor := (List.takeWhile_sublist hasName).subset hmem
  exact Option.isSome_iff_exists.2 ⟨value, mem_cursor.1 hcursor⟩

/-- An opened journal holds what is on the disk. -/
theorem journal_of_opened {p q : UInt64} {v : Bytes} (hv : w.opened.stored p q = some v) :
    ∃ jc, w.journal q = some jc ∧ jc.find? p = some v := by
  unfold stored at hv
  rw [w.find?_opened] at hv
  split at hv
  · cases hj : w.journal q with
    | none =>
      rw [hj, Option.bind_some, Option.getD_none, JournalImpl.find?_empty] at hv
      cases hv
    | some jc =>
      rw [hj] at hv
      exact ⟨jc, rfl, hv⟩
  · cases hv

/-- A creation that gets past the record, or one that does not. -/
theorem createQueue_cases (fails : CreateStep → Bool) (jc : JournalImpl) (name : Bytes) :
    ((w.createQueue fails jc name).2 = [] ∧
      (w.createQueue fails jc name).1.queueDb.records = w.queueDb.records ∧
      (w.createQueue fails jc name).1.provider = w.provider) ∨
    ((w.createQueue fails jc name).2 = [.created w.queueDb.idSequence.next.1] ∧
      w.queueDb.records.contains w.queueDb.idSequence.next.1 = false ∧
      (w.createQueue fails jc name).1.queueDb.records = w.queueDb.records.insert w.queueDb.idSequence.next.1 name ∧
      ((w.createQueue fails jc name).1.provider = w.provider ∨
        (w.createQueue fails jc name).1.provider = { w.provider with
          journalList := w.provider.journalList.assign w.queueDb.idSequence.next.1 jc })) := by
  by_cases hins : InsertsRecord fails { queueDb := w.queueDb, journalList := w.provider.journalList } { name }
  · right
    unfold createQueue
    rw [create_of_insertsRecord hins]
    simp only [createJournal_queueDb, if_neg (IdSequence.next_ne_zero _)]
    refine ⟨trivial, hins.2.2.2, trivial, ?_⟩
    unfold createJournal
    split
    · exact Or.inl rfl
    · dsimp only
      split
      · exact Or.inl rfl
      · exact Or.inr rfl
  · left
    obtain ⟨hrecords, hid⟩ := create_of_not_insertsRecord hins jc
    refine ⟨if_pos hid, hrecords, ?_⟩
    unfold createQueue
    dsimp only
    rw [create_journalList_of_not_insertsRecord hins]

end Site

/-! ### The invariant -/

/-- Every record in the logs and the databases, and every enqueue in progress, is of a message that was enqueued on
the queue that now has the id. -/
structure SiteInv (h : List SiteEvent) (w : Site) : Prop where
  log : w.provider.aologger.enqueueLog.Known enqueueFormat (LoggedOn h)
  stored : ∀ p q v, w.provider.stored p q = some v → StoredFrom h p q v
  closed : ∀ q jc, w.closed q = some jc → ∀ p v, jc.find? p = some v → StoredFrom h p q v
  threads : ∀ t ∈ w.provider.threads, ∀ pae ∈ t.pae, LoggedOn h pae
  records : ∀ id, w.journal id ≠ none → w.queueDb.records.contains id = true
  named : ∀ newId newId' p q q' m m', .provider (.enqueueCalled newId p q m) ∈ h →
    .provider (.enqueueCalled newId' p q' m') ∈ h → m = m'

namespace SiteInv

variable {h : List SiteEvent} {w : Site}

theorem start (smart : Bool) (shards : Nat) : SiteInv [] (newSite smart shards) where
  log := AsyncLog.known_empty
  stored := fun _ _ _ hv => nomatch hv
  closed := fun _ _ hjc => nomatch hjc
  threads := fun _ ht => nomatch ht
  records := fun _ hid => absurd rfl hid
  named := fun _ _ _ _ _ _ _ hm => nomatch hm

/-- What is on the disk, open or not. -/
theorem storedFrom (hi : SiteInv h w) {p q : UInt64} {v : Bytes} {jc : JournalImpl} (hj : w.journal q = some jc)
    (hv : jc.find? p = some v) : StoredFrom h p q v := by
  unfold Site.journal at hj
  cases hf : w.provider.journalList.find? q with
  | some jc' =>
    rw [hf] at hj
    cases hj
    refine hi.stored p q v ?_
    unfold StoreProvider.stored
    rw [hf]
    exact hv
  | none =>
    rw [hf] at hj
    exact hi.closed q jc hj p v hv

/-- A record is added under an id to which nothing refers.  The journal of the queue may be opened, on files without
messages. -/
private theorem created (hi : SiteInv h w) {w' : Site} {id : UInt64} {jc : JournalImpl} {name : Bytes}
    (hrefs : w.provider.Unreferenced id) (hblank : jc.recoverMessages = [])
    (hnew : w.queueDb.records.contains id = false) (hrecords : w'.queueDb.records = w.queueDb.records.insert id name)
    (hclosed : w'.closed = w.closed) (hprovider : w'.provider = w.provider ∨
      w'.provider = { w.provider with journalList := w.provider.journalList.assign id jc }) :
    SiteInv (h ++ [.created id]) w' := by
  obtain ⟨hlog, hthreads⟩ := hrefs
  -- no journal is kept under the id
  have hnone : w.journal id = none := by
    by_contra hne
    rw [hi.records id hne] at hnew
    cases hnew
  obtain ⟨hfind, hclosedId⟩ := Option.or_eq_none_iff.1 hnone
  have hne : ∀ q, q ≠ id → .created q ∉ [SiteEvent.created id] := by
    intro q hq hm
    cases List.mem_singleton.1 hm
    exact hq rfl
  have haologger : w'.provider.aologger = w.provider.aologger := by
    rcases hprovider with hp | hp <;> rw [hp]
  have hthreadsEq : w'.provider.threads = w.provider.threads := by
    rcases hprovider with hp | hp <;> rw [hp]
  have hjournal : ∀ q, q ≠ id → w'.provider.journalList.find? q = w.provider.journalList.find? q := by
    intro q hq
    rcases hprovider with hp | hp <;> rw [hp]
    rw [OrdMap.find?_assign, if_neg hq]
  refine ⟨?_, fun p q v hv => ?_, fun q jc' hjc p v hv => ?_, fun t ht pae hpae => ?_, fun q hq => ?_, ?_⟩
  · rw [haologger]
    refine ⟨hi.log.whole, fun i k a hmem => ?_, hi.log.tmp⟩
    exact (hi.log.starts i k a hmem).append (hne _ (of_decide_eq_false (hlog i _ hmem)))
  · by_cases hq : q = id
    · subst hq
      unfold StoreProvider.stored at hv
      rcases hprovider with hp | hp
      · rw [hp, hfind] at hv
        cases hv
      · rw [hp, OrdMap.find?_assign, if_pos rfl] at hv
        have hmem := jc.mem_recoverMessages.2 hv
        rw [hblank] at hmem
        cases hmem
    · refine (hi.stored p q v ?_).append (hne q hq)
      unfold StoreProvider.stored at hv ⊢
      rwa [hjournal q hq] at hv
  · rw [hclosed] at hjc
    refine (hi.closed q jc' hjc p v hv).append (hne q ?_)
    rintro rfl
    rw [hclosedId] at hjc
    cases hjc
  · rw [hthreadsEq] at ht
    refine (hi.threads t ht pae hpae).append (hne _ ?_)
    cases t with
    | enqueue pc pae' =>
      cases hpae
      exact hthreads _ ht rfl
    | store pc pae' =>
      cases hpae
      exact hthreads _ ht rfl
    | dequeue pc pid qid => cases hpae
    | asyncDequeue pc pid qid => cases hpae
  · rw [hrecords, OrdMap.contains, OrdMap.find?_insert]
    split
    · rfl
    · rename_i hqid
      refine hi.records q fun hj => hq ?_
      unfold Site.journal at hj ⊢
      rw [hjournal q hqid, hclosed]
      exact hj
  · intro newId newId' p q q' m m' hm hm'
    refine hi.named newId newId' p q q' m m' ?_ ?_
    · exact (List.mem_append.1 hm).resolve_right fun hn => by cases List.mem_singleton.1 hn
    · exact (List.mem_append.1 hm').resolve_right fun hn => by cases List.mem_singleton.1 hn

/-- A queue is created under an id to which nothing refers. -/
theorem create (hi : SiteInv h w) {fails : CreateStep → Bool} {jc : JournalImpl} {name : Bytes}
    (hok : FreshQueues h w (.create fails jc name)) :
    SiteInv (h ++ (w.createQueue fails jc name).2) (w.createQueue fails jc name).1 := by
  obtain ⟨hrefs, hblank⟩ := hok
  rcases w.createQueue_cases fails jc name with ⟨hev, hrecords, hprovider⟩ | ⟨hev, hnew, hrecords, hprovider⟩
  · have hrec := hi.records
    unfold Site.journal at hrec
    rw [hev, List.append_nil]
    refine ⟨?_, ?_, hi.closed, ?_, ?_, hi.named⟩
    · rw [hprovider]
      exact hi.log
    · rw [hprovider]
      exact hi.stored
    · rw [hprovider]
      exact hi.threads
    · unfold Site.journal
      rw [hprovider, hrecords]
      exact hrec
  · rw [hev]
    exact hi.created hrefs hblank hnew hrecords rfl hprovider

theorem destroy (hi : SiteInv h w) (id : UInt64) : SiteInv h (w.destroyQueue id) where
  log := hi.log
  stored := fun p q v hv => by
    refine hi.stored p q v ?_
    have herase : ((w.provider.journalList.erase id).find? q).bind (fun j => j.find? p) = some v := hv
    rw [OrdMap.find?_erase] at herase
    split at herase
    · cases herase
    · exact herase
  closed := fun q jc hjc => by
    have hif : (if q = id then none else w.closed q) = some jc := hjc
    split at hif
    · cases hif
    · exact hi.closed q jc hif
  threads := hi.threads
  records := fun q hq => by
    have hne : ((w.provider.journalList.erase id).find? q).or (if q = id then none else w.closed q) ≠ none := hq
    rw [OrdMap.find?_erase] at hne
    by_cases hqid : q = id
    · rw [if_pos hqid, if_pos hqid] at hne
      exact absurd rfl hne
    · rw [if_neg hqid, if_neg hqid] at hne
      show (w.queueDb.records.erase id).contains q = true
      rw [OrdMap.contains, OrdMap.find?_erase, if_neg hqid]
      exact hi.records q hne
  named := hi.named

/-- A call names the message that earlier calls with this id have named. -/
private theorem named_step (hi : SiteInv h w) {a : Action} {s' : StoreProvider} {ev : List Event}
    (hok : FreshQueues h w (.provider a)) (hst : w.provider.step a = some (s', ev)) :
    ∀ newId newId' p q q' m m', .provider (.enqueueCalled newId p q m) ∈ h ++ ev.map SiteEvent.provider →
      .provider (.enqueueCalled newId' p q' m') ∈ h ++ ev.map SiteEvent.provider → m = m' := by
  have hcall : ∀ newId p q m, .provider (.enqueueCalled newId p q m) ∈ h ++ ev.map SiteEvent.provider →
      .provider (.enqueueCalled newId p q m) ∈ h ∨
        ∃ messageId, a = .enqueue messageId q m ∧ p = w.provider.enqueueId messageId := by
    intro newId p q m hm
    rcases List.mem_append.1 hm with hm | hm
    · exact Or.inl hm
    · obtain ⟨e, he, hee⟩ := List.mem_map.1 hm
      cases hee
      cases a with
      | enqueue messageId qid m' =>
        obtain ⟨-, -, -, rfl⟩ := step_enqueue hst
        cases List.mem_singleton.1 he
        exact Or.inr ⟨messageId, rfl, rfl⟩
      | dequeue pid qid =>
        obtain ⟨-, rfl⟩ := step_dequeue hst
        cases List.mem_singleton.1 he
      | advance t =>
        obtain ⟨-, -, rfl⟩ := step_advance hst
        exact absurd he (enqueueCalled_notMem_runThread t newId p q m)
      | cleanEnqueueLog =>
        cases hst
        cases he
      | cleanDequeueLog =>
        cases hst
        cases he
  have hagree : ∀ {messageId q m newId p' q' m'}, a = .enqueue messageId q m →
      .provider (.enqueueCalled newId p' q' m') ∈ h → p' = w.provider.enqueueId messageId → m' = m := by
    rintro messageId q m newId p' q' m' rfl hm rfl
    have hag : SiteEvent.agrees (w.provider.enqueueId messageId) m _ = true := hok _ hm
    simpa [SiteEvent.agrees] using hag
  intro newId newId' p q q' m m' hm hm'
  rcases hcall newId p q m hm with hm | ⟨messageId, ha, hp⟩
  · rcases hcall newId' p q' m' hm' with hm' | ⟨messageId', ha', hp'⟩
    · exact hi.named newId newId' p q q' m m' hm hm'
    · exact hagree ha' hm hp'
  · rcases hcall newId' p q' m' hm' with hm' | ⟨messageId', ha', hp'⟩
    · exact (hagree ha hm' hp).symm
    · rw [ha] at ha'
      cases ha'
      rfl

/-- A step of the provider. -/
theorem provider (hi : SiteInv h w) {a : Action} {s' : StoreProvider} {ev : List Event}
    (hok : FreshQueues h w (.provider a)) (hst : w.provider.step a = some (s', ev)) :
    SiteInv (h ++ ev.map .provider) { w with provider := s' } := by
  have hno : ∀ q, .created q ∉ ev.map SiteEvent.provider := by
    intro q hm
    obtain ⟨e, -, he⟩ := List.mem_map.1 hm
    cases he
  have hthreads : ∀ t ∈ w.provider.threads, ∀ pae ∈ t.pae, LoggedOn (h ++ ev.map .provider) pae :=
    fun t ht pae hpae => (hi.threads t ht pae hpae).append (hno _)
  have hlog : w.provider.aologger.enqueueLog.Known enqueueFormat (LoggedOn (h ++ ev.map .provider)) :=
    ⟨hi.log.whole, fun i k a hmem => (hi.log.starts i k a hmem).append (hno _), hi.log.tmp⟩
  refine ⟨known_step hst hlog hthreads, fun p q v hv => ?_, fun q jc hjc p v hv => ?_, fun t ht pae hpae => ?_,
    fun q hq => hi.records q fun hj => hq ?_, ?_⟩
  · rcases stored_step hst hv with hold | ⟨t, ht, pae, hpae, rfl, rfl, rfl⟩
    · exact (hi.stored p q v hold).append (hno q)
    · exact (hthreads t ht pae hpae).stored.2
  · exact (hi.closed q jc hjc p v hv).append (hno q)
  · rcases mem_threads_step hst ht with ht | ⟨t', ht', -, hmem⟩ | ⟨messageId, qid, m, rfl, rfl⟩ | ⟨_, _, -, rfl⟩
    · exact hthreads t ht pae hpae
    · exact hthreads t' ht' pae (pae_of_mem_runThread hmem hpae)
    · obtain ⟨-, -, -, rfl⟩ := step_enqueue hst
      cases hpae
      exact logged_call ..
    · cases hpae
  · have hcontains := step_contains hst q
    unfold Site.journal at hj ⊢
    obtain ⟨hfind, hclosed⟩ := Option.or_eq_none_iff.1 hj
    rw [OrdMap.contains, OrdMap.contains, hfind] at hcontains
    show (s'.journalList.find? q).or (w.closed q) = none
    rw [hclosed, Option.or_none]
    simpa using hcontains
  · exact hi.named_step hok hst

/-- What recovery makes of the disk. -/
private theorem recover (hi : SiteInv h w) {d : RecordDb} {s' : StoreProvider} (running : Bool)
    (hd : d.records = w.queueDb.records) (hlog : s'.aologger.enqueueLog.Known enqueueFormat (LoggedOn h))
    (hstored : ∀ p q v, s'.stored p q = some v → w.opened.stored p q = some v)
    (hthreads : ∀ t ∈ s'.threads, ∀ pae ∈ t.pae, LoggedOn h pae)
    (hcontains : ∀ q, s'.journalList.contains q = w.opened.journalList.contains q) :
    SiteInv h { w with queueDb := d, provider := s', closed := w.unopened, running } := by
  refine ⟨hlog, fun p q v hv => ?_, fun q jc hjc p v hv => ?_, hthreads, fun q hq => ?_, hi.named⟩
  · obtain ⟨jc, hj, hfind⟩ := w.journal_of_opened (hstored p q v hv)
    exact hi.storedFrom hj hfind
  · have hif : (if q ∈ w.queueIds then none else w.journal q) = some jc := hjc
    split at hif
    · cases hif
    · exact hi.storedFrom hif hv
  · show d.records.contains q = true
    rw [hd]
    by_cases hmem : q ∈ w.queueIds
    · exact w.contains_of_mem_queueIds hmem
    · refine hi.records q fun hj => hq ?_
      have hnone : s'.journalList.find? q = none := by
        have hc := hcontains q
        rw [OrdMap.contains, OrdMap.contains, w.find?_opened, if_neg hmem] at hc
        simpa using hc
      show (s'.journalList.find? q).or (w.unopened q) = none
      rw [hnone]
      show w.unopened q = none
      unfold Site.unopened
      rw [if_neg hmem, hj]

/-- The enqueue log as a new process finds it. -/
private theorem known_restart (hi : SiteInv h w) (smart : Bool) :
    (w.opened.restart smart).aologger.enqueueLog.Known enqueueFormat (LoggedOn h) :=
  ⟨hi.log.whole, hi.log.starts, hi.log.tmp⟩

theorem step (hi : SiteInv h w) {a : SiteAction} {w' : Site} {ev : List SiteEvent} (hok : FreshQueues h w a)
    (hst : w.step a = some (w', ev)) : SiteInv (h ++ ev) w' := by
  cases a with
  | create fails jc name =>
    simp only [Site.step] at hst
    split at hst
    · cases hst
      exact hi.create hok
    · cases hst
  | destroy id =>
    simp only [Site.step] at hst
    split at hst
    · cases hst
      rw [List.append_nil]
      exact hi.destroy id
    · cases hst
  | provider a =>
    simp only [Site.step] at hst
    split at hst
    · obtain ⟨⟨s', ev'⟩, hs, he⟩ := Option.map_eq_some_iff.1 hst
      cases he
      exact hi.provider hok hs
    · cases hst
  | crash =>
    simp only [Site.step] at hst
    split at hst
    · cases hst
      rw [List.append_nil]
      exact ⟨hi.log, hi.stored, hi.closed, hi.threads, hi.records, hi.named⟩
    · cases hst
  | recover smart loadContent malloc stop =>
    have hq := w.recoverable_opened
    have hlog := hi.known_restart smart
    have hkeeps := keeps_recoveryOps loadContent malloc hlog (hq.restart smart)
    simp only [Site.step] at hst
    split at hst
    · cases hst
    · cases stop with
      | none =>
        obtain ⟨R, hR, hst⟩ := Option.map_eq_some_iff.1 hst
        cases hst
        obtain ⟨haologger, hstored⟩ := applyOps_recoveryOps hq hR
        have hspec := recoverMessages_spec (hq.restart smart) hR
        rw [List.append_nil]
        refine hi.recover true rfl ?_ (fun p q v hv => ?_) (fun t ht pae hpae => ?_) hspec.contains_eq
        · rw [← haologger]
          exact hlog.applyOps hkeeps
        · rw [← hstored p q] at hv
          rcases stored_applyOps (w.opened.restart smart) _ p q with hnone | hsame
          · rw [hnone] at hv
            cases hv
          · rwa [hsame, stored_restart] at hv
        · rw [hspec.threads] at ht
          simp only [List.mem_append, List.mem_map] at ht
          rcases ht with (ht | ⟨pae', hpae', rfl⟩) | ⟨_, -, rfl⟩
          · cases ht
          · cases hpae
            exact hlog.of_mem_pendingInFiles ((hspec.aeset _).1 (List.mem_filter.1 hpae').1).1
          · cases hpae
      | some n =>
        cases hst
        rw [List.append_nil]
        refine hi.recover w.running rfl (hlog.applyOps fun op hop => hkeeps op (List.mem_of_mem_take hop))
          (fun p q v hv => ?_) (fun t ht => ?_) (fun q => ?_)
        · rcases stored_applyOps (w.opened.restart smart) _ p q with hnone | hsame
          · rw [hnone] at hv
            cases hv
          · rwa [hsame, stored_restart] at hv
        · rw [threads_applyOps] at ht
          cases ht
        · rw [contains_applyOps, contains_restart]

/-- A record that recovery hands to the broker is of a message of its queue. -/
theorem storedFrom_of_delivered (hi : SiteInv h w) {smart : Bool} {loadContent : UInt64 → Bytes → UInt64 → Bool}
    {p q : UInt64} {v : Bytes} (hv : (p, v) ∈ (readLogs (w.opened.restart smart)).delivered loadContent q) :
    StoredFrom h p q v := by
  rcases mem_recordsOf.1 (RecoveryState.mem_delivered.1 hv).1 with hdb | ⟨-, pae, hpae, rfl, rfl⟩
  · rw [stored_restart] at hdb
    obtain ⟨jc, hj, hfind⟩ := w.journal_of_opened hdb
    exact hi.storedFrom hj hfind
  · obtain ⟨hpend, rfl, -⟩ := RecoveryState.mem_live.1 (RecoveryState.mem_live_of_copies hpae)
    exact ((hi.known_restart smart).of_mem_pendingInFiles hpend).stored.1

end SiteInv

/-- The creation of a queue, with no failure and in a new directory. -/
def createNamed (name : Bytes) : SiteAction := .create (fun _ => false) (JournalImpl.empty 0) name

/-- A recovery by a broker that takes every message. -/
def restartSite : SiteAction := .recover false (fun _ _ _ => true) (fun _ => true) none

/-- A message that is in the log only survives two restarts, with the creation of a queue between them. -/
def createBetween : List SiteAction :=
  [createNamed [0x61], createNamed [0x62]] ++ (enqueueCall 0 1 2).map .provider ++
    [.destroy 1, .crash, restartSite, createNamed [0x63], .crash]

/-- The second of two queues is destroyed when its message is in the log only.  The broker is restarted, a third queue
gets the id of the second one, and the broker crashes again. -/
def reuseId : List SiteAction :=
  [createNamed [0x61], createNamed [0x62]] ++ (enqueueCall 0 1 2).map .provider ++
    [.destroy 2, .crash, restartSite, createNamed [0x63], .crash]

end BdbMsgStore

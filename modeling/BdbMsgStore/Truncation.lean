import BdbMsgStore.Bindings
import BdbMsgStore.Recovery

/-!
# Discarding the store

`truncateInit` is documented to discard the databases when it is called after `init` and before the recovery.  It
closes the databases and the environment and calls `init` again, which opens the same files; nothing is deleted, and
the log files are opened for appending.

`truncate_init_discards_iff` says when the broker finds nothing afterwards: exactly if there was nothing to find.
-/

namespace BdbMsgStore

/-- The contents of the store directory: the files of the databases, those that exist, the journals by the names of
their queues, and the files of the logs. -/
structure StoreDirectory where
  queues : Option (OrdMap UInt64 Bytes) := none
  exchanges : Option (OrdMap UInt64 Bytes) := none
  general : Option (OrdMap UInt64 Bytes) := none
  bindings : Option BindingDb := none
  journals : Bytes → JournalImpl
  asyncLogs : AsyncOperationLogger := {}

/-- The contents of a database, which is created by `open` if it does not exist. -/
def openDb {α : Type} [EmptyCollection α] (file : Option α) : α := file.getD ∅

/-- The provider as far as `init` and `truncateInit` go: whether it is initialised, its directory, and the journals
of the queues that exist. -/
structure Initialised where
  isInit : Bool := false
  storeDir : StoreDirectory
  journalList : OrdMap UInt64 JournalImpl := ∅

namespace Initialised

/-- `init` -/
def init (p : Initialised) : Initialised :=
  if p.isInit then p
  else
    { p with
      isInit := true
      storeDir := { p.storeDir with
        queues := some (openDb p.storeDir.queues)
        exchanges := some (openDb p.storeDir.exchanges)
        general := some (openDb p.storeDir.general)
        bindings := some (openDb p.storeDir.bindings) } }

/-- `truncateInit`; `none` if it throws because there are queues.  Closing a database keeps its file. -/
def truncateInit (p : Initialised) : Option Initialised :=
  if p.isInit then
    if p.journalList.isEmpty then some (init { p with isInit := false }) else none
  else some p.init

end Initialised

/-- What a full recovery hands to the broker; there are no messages if it does not come to the end of
`recoverMessages`. -/
structure HandedOver (A : Type) where
  configs : List (UInt64 × Bytes)
  exchanges : List (UInt64 × Bytes)
  queues : List (UInt64 × Bytes)
  bindings : List (UInt64 × Binding A)
  messages : Option MessageMap

/-- Nothing is handed over. -/
structure HandedOver.Nothing {A : Type} (r : HandedOver A) : Prop where
  configs : r.configs = []
  exchanges : r.exchanges = []
  queues : r.queues = []
  bindings : r.bindings = []
  messages : ∀ m ∈ r.messages, m = ∅

/-- What the recovery depends on besides the directory: the encoding of arguments, the exchanges and the contents that
the broker accepts, the allocations, and the option for the asynchronous operations. -/
structure RecoverySettings (A : Type) where
  fieldTables : FieldTables A
  recoverExchange : Bytes → Bool
  loadContent : UInt64 → Bytes → UInt64 → Bool
  malloc : List PendingOperationId → Bool
  enableSmartAsync : Bool

/-- `recoverConfigs`, `recoverExchanges`, `recoverQueues`, `recoverBindings` and `recoverMessages`, one after the
other. -/
def recoverAll {A : Type} (w : RecoverySettings A) (d : StoreDirectory) : HandedOver A :=
  let exchangeMap := (recoverExchanges w.recoverExchange (cursor (openDb d.exchanges))).1
  let queues := recoverQueues (cursor (openDb d.queues))
  let provider : StoreProvider :=
    { enableSmartAsync := w.enableSmartAsync
      aologger := ⟨d.asyncLogs.enqueueLog.reopen, d.asyncLogs.dequeueLog.reopen⟩
      journalList := queues.queueMap.foldl (fun m e => m.assign e.1 (d.journals (cStr e.2)).reopen) ∅ }
  let bindings := recoverBindings w.fieldTables exchangeMap queues.queueMap (openDb d.bindings)
  { configs := (recoverConfigs (cursor (openDb d.general))).1
    exchanges := exchangeMap
    queues := queues.built
    bindings := bindings.bound
    messages :=
      if bindings.finished then
        (recoverMessages w.loadContent w.malloc (queues.queueMap.map Prod.fst) provider).map Recovered.messageMap
      else none }

/-- The directory has nothing that a recovery would hand over. -/
structure StoreDirectory.Blank (d : StoreDirectory) (recoverExchange : Bytes → Bool) : Prop where
  general : openDb d.general = ∅
  exchanges : ∀ id value, (openDb d.exchanges).find? id = some value → recoverExchange value = false
  queues : openDb d.queues = ∅

/-! ### What the recovery finds -/

private theorem cursor_eq_nil {records : OrdMap UInt64 Bytes} : cursor records = [] ↔ records = ∅ := by
  constructor
  · intro h
    apply OrdMap.ext_find?
    intro id
    cases hf : records.find? id with
    | none => rfl
    | some value =>
      have := mem_cursor.2 hf
      rw [h] at this
      simp at this
  · intro h
    rw [h]
    rfl

/-- Without exchanges no binding is handed over. -/
private theorem bound_of_no_exchanges {A : Type} (T : FieldTables A) (queueMap : List (UInt64 × Bytes))
    (db : BindingDb) : (recoverBindings T [] queueMap db).bound = [] := by
  unfold recoverBindings
  dsimp only
  cases db.entries with
  | nil => rfl
  | cons e l =>
    -- the loop ends at the first record
    have hvisit : visitRecovered T [] queueMap e = .stop := by
      unfold visitRecovered
      split
      · rfl
      · simp
    unfold MultiMap.sweepFrom
    rw [hvisit]

/-- Without queues no message is handed over. -/
private theorem messageMap_of_no_queues {loadContent : UInt64 → Bytes → UInt64 → Bool}
    {malloc : List PendingOperationId → Bool} {s : StoreProvider} {R : Recovered}
    (h : recoverMessages loadContent malloc [] s = some R) : R.messageMap = ∅ := by
  unfold recoverMessages at h
  split at h
  · cases h
  · simp only [List.foldlM_nil, resurrect, Option.pure_def, Option.bind_eq_bind, Option.bind_some,
      Option.bind_eq_some_iff, Option.some.injEq] at h
    obtain ⟨lg, -, rfl⟩ := h
    rfl

theorem recoverAll_nothing_iff {A : Type} (w : RecoverySettings A) (d : StoreDirectory) :
    (recoverAll w d).Nothing ↔ d.Blank w.recoverExchange := by
  have hexch : (recoverExchanges w.recoverExchange (cursor (openDb d.exchanges))).1 = [] ↔
      ∀ id value, (openDb d.exchanges).find? id = some value → w.recoverExchange value = false := by
    unfold recoverExchanges
    rw [List.filter_eq_nil_iff]
    constructor
    · intro h id value hf
      simpa using h (id, value) (mem_cursor.2 hf)
    · intro h e he
      simpa using h e.1 e.2 (mem_cursor.1 he)
  constructor
  · intro h
    exact ⟨cursor_eq_nil.1 h.configs, hexch.1 h.exchanges, cursor_eq_nil.1 (built_eq_nil.1 h.queues)⟩
  · intro h
    have hqueues : cursor (openDb d.queues) = [] := cursor_eq_nil.2 h.queues
    refine ⟨cursor_eq_nil.2 h.general, hexch.2 h.exchanges, built_eq_nil.2 hqueues, ?_, ?_⟩
    · unfold recoverAll
      dsimp only
      rw [hexch.2 h.exchanges]
      exact bound_of_no_exchanges ..
    · intro m hm
      unfold recoverAll at hm
      rw [hqueues] at hm
      dsimp only at hm
      split at hm
      · obtain ⟨R, hR, rfl⟩ := Option.map_eq_some_iff.1 hm
        exact messageMap_of_no_queues hR
      · cases hm

/-! ### When truncateInit leaves nothing -/

/-- The provider after `init` and `truncateInit` on a directory finds what was in the directory. -/
private theorem truncateInit_init (d : StoreDirectory) :
    ∃ p, (Initialised.init { storeDir := d }).truncateInit = some p ∧ openDb p.storeDir.queues = openDb d.queues ∧
      openDb p.storeDir.exchanges = openDb d.exchanges ∧ openDb p.storeDir.general = openDb d.general :=
  ⟨_, rfl, rfl, rfl, rfl⟩

/-- After `init` and `truncateInit` a full recovery finds nothing exactly if the directory had nothing that it hands
over. -/
theorem truncate_init_discards_iff {A : Type} (w : RecoverySettings A) (d : StoreDirectory) :
    (∃ p, (Initialised.init { storeDir := d }).truncateInit = some p ∧ (recoverAll w p.storeDir).Nothing) ↔
      d.Blank w.recoverExchange := by
  obtain ⟨p, hp, hqueues, hexchanges, hgeneral⟩ := truncateInit_init d
  have hblank : p.storeDir.Blank w.recoverExchange ↔ d.Blank w.recoverExchange := by
    constructor
    · intro h
      exact ⟨hgeneral ▸ h.general, hexchanges ▸ h.exchanges, hqueues ▸ h.queues⟩
    · intro h
      exact ⟨hgeneral.symm ▸ h.general, hexchanges.symm ▸ h.exchanges, hqueues.symm ▸ h.queues⟩
  rw [← hblank, ← recoverAll_nothing_iff]
  constructor
  · intro ⟨p', hp', h⟩
    rw [hp] at hp'
    cases hp'
    exact h
  · intro h
    exact ⟨p, hp, h⟩

/-- A directory with the record of a queue "q". -/
def oneQueue : StoreDirectory where
  queues := some ((∅ : OrdMap UInt64 Bytes).insert 1 [0x71])
  journals := fun _ => JournalImpl.empty 3

/-- The queue is still there after `truncateInit`. -/
theorem truncate_init_keeps_queue :
    ¬ ∀ (A : Type) (w : RecoverySettings A) (d : StoreDirectory),
      ∃ p, (Initialised.init { storeDir := d }).truncateInit = some p ∧ (recoverAll w p.storeDir).Nothing := by
  intro h
  obtain ⟨p, hp, hnone⟩ := h Unit ⟨noArgs, fun _ => true, fun _ _ _ => true, fun _ => true, false⟩ oneQueue
  obtain ⟨p', hp', hqueues, -, -⟩ := truncateInit_init oneQueue
  rw [hp] at hp'
  cases hp'
  have hblank := ((recoverAll_nothing_iff _ _).1 hnone).queues
  rw [hqueues] at hblank
  exact absurd hblank (by decide)

end BdbMsgStore

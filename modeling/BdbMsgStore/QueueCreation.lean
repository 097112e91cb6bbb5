import BdbMsgStore.Configuration

/-!
# The creation of a queue

`create(PersistableQueue&)` first commits the record of the queue and sets its id, and then makes its directory, its
journal and the databases of the journal.  Each of these steps may fail.  Nothing is undone when a step after the
record fails: the record and the id stay.

`create_atomic_iff` says for which failures an unsuccessful creation leaves no trace: exactly for those that come
before the record is in the database.
-/

namespace BdbMsgStore

/-- The steps of `create(PersistableQueue&)` that may fail. -/
inductive CreateStep where
  | insertRecord
  | createDir
  | openShard (sid : Nat)
  deriving DecidableEq

/-- What `create(PersistableQueue&)` throws. -/
inductive CreateError where
  /-- `StoreException`, "Queue already created: " -/
  | alreadyCreated
  /-- `StoreException`, "Queue already exists: " -/
  | alreadyExists
  /-- `StoreException`, "Error creating queue named  " -/
  | insertion
  /-- The `jexception` of `create_dir`, which is not caught. -/
  | directory
  /-- The `DbException` of a database that cannot be opened, which is not caught: the handler is for `jexception`. -/
  | shard
  deriving DecidableEq

/-- A journal, and how many of its databases are open. -/
structure OpenJournal where
  journal : JournalImpl
  openDbs : Nat

/-- The queue object of the broker. -/
structure PersistableQueue where
  name : Bytes
  persistenceId : UInt64 := 0
  externalQueueStore : Option OpenJournal := none

/-- The part of the provider that the creation of a queue works on: `base` is the base directory of the databases, and
`dirs` are the directories that exist. -/
structure QueueStore where
  base : Paths.Path := []
  queueDb : RecordDb := {}
  dirs : List Paths.Path := []
  journalList : OrdMap UInt64 JournalImpl := ∅

/-- The outcome of a call: the exception, if one is thrown, the store and the queue object. -/
structure CreateResult where
  error : Option CreateError
  store : QueueStore
  queue : PersistableQueue

/-- The number of databases that `init_message_db` opens before one fails. -/
def initMessageDb (fails : CreateStep → Bool) (numJfiles : Nat) : Nat :=
  ((List.range numJfiles).takeWhile fun sid => !fails (.openShard sid)).length

/-- `create(PersistableQueue&)` after the record is inserted; `jc` is the journal on the files of the queue. -/
def createJournal (fails : CreateStep → Bool) (jc : JournalImpl) (s : QueueStore) (queue : PersistableQueue) :
    CreateResult :=
  if fails .createDir then ⟨some .directory, s, queue⟩
  else
    let n := initMessageDb fails jc.messageDbs.length
    let s := { s with dirs := journalDir s.base queue.name :: s.dirs }
    let queue := { queue with externalQueueStore := some ⟨jc, n⟩ }
    if n < jc.messageDbs.length then ⟨some .shard, s, queue⟩
    else ⟨none, { s with journalList := s.journalList.assign queue.persistenceId jc }, queue⟩

/-- `create(PersistableQueue&)`; `fails` says which of its steps fail if they are reached. -/
def create (fails : CreateStep → Bool) (jc : JournalImpl) (s : QueueStore) (queue : PersistableQueue) :
    CreateResult :=
  if queue.persistenceId ≠ 0 then ⟨some .alreadyCreated, s, queue⟩
  else if queue.name = [] then ⟨none, s, queue⟩
  else
    match s.queueDb.create (fails .insertRecord) queue.name with
    | (.threw, d) => ⟨some .insertion, { s with queueDb := d }, queue⟩
    | (.keyExist, d) => ⟨some .alreadyExists, { s with queueDb := d }, queue⟩
    | (.created id, d) => createJournal fails jc { s with queueDb := d } { queue with persistenceId := id }

/-- A call that throws leaves the records and the id of the queue as they were. -/
structure CreationAtomic (s : QueueStore) (queue : PersistableQueue) (r : CreateResult) : Prop where
  records : r.error ≠ none → r.store.queueDb.records = s.queueDb.records
  persistenceId : r.error ≠ none → r.queue.persistenceId = queue.persistenceId

/-- The call gets past the insertion of the record. -/
def InsertsRecord (fails : CreateStep → Bool) (s : QueueStore) (queue : PersistableQueue) : Prop :=
  queue.persistenceId = 0 ∧ queue.name ≠ [] ∧ fails .insertRecord = false ∧
    s.queueDb.records.contains s.queueDb.idSequence.next.1 = false

/-- A step after the insertion of the record fails. -/
def FailsLater (fails : CreateStep → Bool) (numJfiles : Nat) : Prop :=
  fails .createDir = true ∨ ∃ sid < numJfiles, fails (.openShard sid) = true

/-! ### The steps -/

theorem initMessageDb_lt {fails : CreateStep → Bool} {numJfiles : Nat} :
    initMessageDb fails numJfiles < numJfiles ↔ ∃ sid < numJfiles, fails (.openShard sid) = true := by
  have hpre := List.takeWhile_prefix (l := List.range numJfiles) fun sid => !fails (.openShard sid)
  have hle := hpre.length_le
  unfold initMessageDb
  rw [List.length_range] at hle
  constructor
  · intro h
    by_contra hno
    push Not at hno
    -- if every database can be opened, the loop goes to the end
    have hall : (List.range numJfiles).takeWhile (fun sid => !fails (.openShard sid)) = List.range numJfiles := by
      rw [List.takeWhile_eq_self_iff]
      intro sid hsid
      simpa using hno sid (List.mem_range.1 hsid)
    rw [hall, List.length_range] at h
    exact lt_irrefl _ h
  · rintro ⟨sid, hsid, hfail⟩
    rcases lt_or_eq_of_le hle with h | h
    · exact h
    · have hall := hpre.eq_of_length (by rw [h, List.length_range])
      have := List.takeWhile_eq_self_iff.1 hall sid (List.mem_range.2 hsid)
      simp [hfail] at this

theorem createJournal_queueDb (fails : CreateStep → Bool) (jc : JournalImpl) (s : QueueStore)
    (queue : PersistableQueue) : (createJournal fails jc s queue).store.queueDb = s.queueDb ∧
      (createJournal fails jc s queue).queue.persistenceId = queue.persistenceId := by
  unfold createJournal
  split
  · exact ⟨rfl, rfl⟩
  · dsimp only
    split <;> exact ⟨rfl, rfl⟩

theorem createJournal_error {fails : CreateStep → Bool} {jc : JournalImpl} {s : QueueStore}
    {queue : PersistableQueue} :
    (createJournal fails jc s queue).error ≠ none ↔ FailsLater fails jc.messageDbs.length := by
  unfold createJournal FailsLater
  split
  · rename_i h
    simp [h]
  · rename_i h
    rw [← initMessageDb_lt]
    dsimp only
    split
    · rename_i hlt
      simp [hlt]
    · rename_i hlt
      simp [h, hlt]

/-- A call that does not get past the record changes neither the records nor the id. -/
theorem create_of_not_insertsRecord {fails : CreateStep → Bool} {s : QueueStore} {queue : PersistableQueue}
    (h : ¬ InsertsRecord fails s queue) (jc : JournalImpl) :
    (create fails jc s queue).store.queueDb.records = s.queueDb.records ∧
      (create fails jc s queue).queue.persistenceId = queue.persistenceId := by
  unfold create
  split
  · exact ⟨rfl, rfl⟩
  · rename_i hid
    split
    · exact ⟨rfl, rfl⟩
    · rename_i hname
      unfold RecordDb.create
      dsimp only
      split_ifs with hfail hkey
      · exact ⟨rfl, rfl⟩
      · exact ⟨rfl, rfl⟩
      · exact absurd ⟨not_not.1 hid, hname, Bool.eq_false_iff.2 hfail, Bool.eq_false_iff.2 hkey⟩ h

theorem create_journalList_of_not_insertsRecord {fails : CreateStep → Bool} {s : QueueStore}
    {queue : PersistableQueue} (h : ¬ InsertsRecord fails s queue) (jc : JournalImpl) :
    (create fails jc s queue).store.journalList = s.journalList := by
  unfold create
  split
  · rfl
  · rename_i hid
    split
    · rfl
    · rename_i hname
      unfold RecordDb.create
      dsimp only
      split_ifs with hfail hkey
      · rfl
      · rfl
      · exact absurd ⟨not_not.1 hid, hname, Bool.eq_false_iff.2 hfail, Bool.eq_false_iff.2 hkey⟩ h

/-- A call that gets past the record goes on with the journal, with the record and the id in place. -/
theorem create_of_insertsRecord {fails : CreateStep → Bool} {s : QueueStore} {queue : PersistableQueue}
    (h : InsertsRecord fails s queue) (jc : JournalImpl) :
    create fails jc s queue = createJournal fails jc
      { s with queueDb :=
        { records := s.queueDb.records.insert s.queueDb.idSequence.next.1 queue.name
          idSequence := s.queueDb.idSequence.next.2 } }
      { queue with persistenceId := s.queueDb.idSequence.next.1 } := by
  obtain ⟨hid, hname, hfail, hkey⟩ := h
  unfold create RecordDb.create
  simp [hid, hname, hfail, hkey]

/-! ### When a failed creation leaves no trace -/

/-- A failed creation leaves the records and the id alone exactly if no step fails after the record is inserted. -/
theorem create_atomic_iff (fails : CreateStep → Bool) (jc : JournalImpl) (s : QueueStore) (queue : PersistableQueue) :
    CreationAtomic s queue (create fails jc s queue) ↔
      (InsertsRecord fails s queue → ¬ FailsLater fails jc.messageDbs.length) := by
  constructor
  · intro hatomic hins hlater
    have herr : (create fails jc s queue).error ≠ none := by
      rw [create_of_insertsRecord hins]
      exact createJournal_error.2 hlater
    -- the id is the one from the sequence, which is not the id before the call
    have hid := hatomic.persistenceId herr
    rw [create_of_insertsRecord hins, (createJournal_queueDb ..).2, hins.1] at hid
    exact IdSequence.next_ne_zero _ hid
  · intro hcond
    by_cases hins : InsertsRecord fails s queue
    · have hnone : ¬ (create fails jc s queue).error ≠ none := by
        rw [create_of_insertsRecord hins, createJournal_error]
        exact hcond hins
      exact ⟨fun h => absurd h hnone, fun h => absurd h hnone⟩
    · obtain ⟨hrec, hid⟩ := create_of_not_insertsRecord hins jc
      exact ⟨fun _ => hrec, fun _ => hid⟩

/-- The directory of the queue "q" cannot be made, on an empty store. -/
def dirFails : CreateResult :=
  create (fun st => decide (st = .createDir)) (JournalImpl.empty 3) {} { name := [0x71] }

/-- The call throws, but the record stays: the next recovery builds the queue, and when the broker repeats the call
it is told that the queue has been created. -/
theorem failed_creation_stays :
    ¬ (∀ (fails : CreateStep → Bool) (jc : JournalImpl) (s : QueueStore) (queue : PersistableQueue),
        queue.name ≠ [] → CreationAtomic s queue (create fails jc s queue)) ∧
      dirFails.error = some .directory ∧
      (recoverQueues (cursor dirFails.store.queueDb.records)).queueMap = [(1, [0x71])] ∧
      (create (fun _ => false) (JournalImpl.empty 3) dirFails.store dirFails.queue).error = some .alreadyCreated := by
  refine ⟨?_, by decide, by decide, by decide⟩
  intro h
  have hrec := (h (fun st => decide (st = .createDir)) (JournalImpl.empty 3) {} { name := [0x71] }
      (by decide)).records
  exact absurd (hrec (by decide)) (by decide)

end BdbMsgStore

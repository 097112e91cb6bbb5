import BdbMsgStore.JournalPaths
import BdbMsgStore.StoreProvider
import Mathlib.Data.List.Sort

/-!
# The records of queues, exchanges and configuration items

Each of `queueDb`, `exchangeDb` and `generalDb` maps the ids from a sequence of its own to encoded objects.  An object
is created by inserting its record under the next id and destroyed by deleting the record; at a start the records are
read with a cursor, the broker builds the objects from them, and the sequence goes on after the largest id.

The functions that recover are given the records in the order of the cursor (`cursor`).  What the broker encodes in
the record of a queue is its name here, since the store uses nothing else of it.
-/

namespace BdbMsgStore

/-- A database of records, with the sequence of its ids. -/
structure RecordDb where
  records : OrdMap UInt64 Bytes := ∅
  idSequence : IdSequence := {}
  deriving DecidableEq

/-- The outcome of `create(DbPtr, IdSequence&, const Persistable&)`. -/
inductive Creation where
  /-- An exception of the database; the transaction is aborted. -/
  | threw
  /-- `DB_KEYEXIST`: the function returns `false`. -/
  | keyExist
  | created (id : UInt64)
  deriving DecidableEq

namespace RecordDb

/-- `create(DbPtr, IdSequence&, const Persistable&)`; `dbFails` says that `put` or `commit` throws. -/
def create (dbFails : Bool) (d : RecordDb) (value : Bytes) : Creation × RecordDb :=
  let r := d.idSequence.next
  if dbFails then (.threw, { d with idSequence := r.2 })
  else if d.records.contains r.1 then (.keyExist, { d with idSequence := r.2 })
  else (.created r.1, { records := d.records.insert r.1 value, idSequence := r.2 })

/-- `destroy(DbPtr, const Persistable&)`: an id without a record is no error. -/
def destroy (d : RecordDb) (id : UInt64) : RecordDb := { d with records := d.records.erase id }

/-- `reset` of the sequence at the end of a recovery. -/
def reset (d : RecordDb) (maxId : UInt64) : RecordDb := { d with idSequence := IdSequence.reset (maxId + 1) }

end RecordDb

/-- The order of a cursor: the keys are compared byte by byte, in the order of memory. -/
def keyOrder (a b : UInt64 × Bytes) : Prop := ¬ Words.u64Bytes b.1 < Words.u64Bytes a.1

instance : DecidableRel keyOrder := fun _ _ => inferInstanceAs (Decidable (¬ _))

/-- The records in the order of a cursor. -/
def cursor (records : OrdMap UInt64 Bytes) : List (UInt64 × Bytes) := records.entries.insertionSort keyOrder

theorem mem_cursor {records : OrdMap UInt64 Bytes} {id : UInt64} {value : Bytes} :
    (id, value) ∈ cursor records ↔ records.find? id = some value := by
  unfold cursor
  rw [List.mem_insertionSort, OrdMap.mem_entries]

/-- The largest id of the records that were read, at least `1`. -/
def maxId (items : List (UInt64 × Bytes)) : UInt64 := items.foldl (fun m e => max e.1 m) 1

/-- `recoverConfigs`: the broker is given every record. -/
def recoverConfigs (items : List (UInt64 × Bytes)) : List (UInt64 × Bytes) × UInt64 := (items, maxId items)

/-- `recoverExchanges`: the exchanges the broker can build, for the map, and the largest id.  Whether it can build one
is for `recoverExchange` to say. -/
def recoverExchanges (recoverExchange : Bytes → Bool) (items : List (UInt64 × Bytes)) :
    List (UInt64 × Bytes) × UInt64 :=
  (items.filter fun e => recoverExchange e.2, maxId items)

/-- `recoverQueues`: the records for which the broker is asked to build a queue, those of them that get into the
map, and the largest id of the latter.  The loop ends at a queue with an empty name. -/
structure RecoveredQueues where
  built : List (UInt64 × Bytes)
  queueMap : List (UInt64 × Bytes)
  maxQueueId : UInt64

/-- The name by which `recoverQueues` knows a queue is not empty. -/
def hasName (e : UInt64 × Bytes) : Bool := !(cStr e.2).isEmpty

/-- The records that the loop of `recoverQueues` hands to the broker: the one with the empty name is the last. -/
def builtQueues : List (UInt64 × Bytes) → List (UInt64 × Bytes)
  | [] => []
  | e :: l => e :: if hasName e then builtQueues l else []

@[inherit_doc RecoveredQueues]
def recoverQueues (items : List (UInt64 × Bytes)) : RecoveredQueues where
  built := builtQueues items
  queueMap := items.takeWhile hasName
  maxQueueId := maxId (items.takeWhile hasName)

/-! ### Ids -/

private theorem le_foldl_max (items : List (UInt64 × Bytes)) (m : UInt64) :
    m ≤ items.foldl (fun m e => max e.1 m) m ∧ ∀ e ∈ items, e.1 ≤ items.foldl (fun m e => max e.1 m) m := by
  induction items generalizing m with
  | nil => simp
  | cons a items ih =>
    obtain ⟨h1, h2⟩ := ih (max a.1 m)
    refine ⟨le_trans (le_max_right _ _) h1, ?_⟩
    intro e he
    rcases List.mem_cons.1 he with rfl | he
    · exact le_trans (le_max_left _ _) h1
    · exact h2 e he

theorem le_maxId {items : List (UInt64 × Bytes)} {e : UInt64 × Bytes} (he : e ∈ items) : e.1 ≤ maxId items :=
  (le_foldl_max items 1).2 e he

/-- If every queue has a name, the loop of `recoverQueues` reads all of them. -/
theorem recoverQueues_of_hasName {items : List (UInt64 × Bytes)} (h : ∀ e ∈ items, hasName e = true) :
    (recoverQueues items).queueMap = items ∧ (recoverQueues items).maxQueueId = maxId items := by
  have : items.takeWhile hasName = items := List.takeWhile_eq_self_iff.2 h
  unfold recoverQueues
  simp only [this, and_self]

/-- The broker is asked to build a queue as soon as there is a record. -/
theorem built_eq_nil {items : List (UInt64 × Bytes)} : (recoverQueues items).built = [] ↔ items = [] := by
  cases items with
  | nil => simp [recoverQueues, builtQueues]
  | cons e l => simp [recoverQueues, builtQueues]

end BdbMsgStore

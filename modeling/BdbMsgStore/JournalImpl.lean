import BdbMsgStore.AsyncOperationLogger
import BdbMsgStore.Lib.RoundRobin

/-!
# The journal of a queue

`JournalImpl.cpp`: the messages of a queue are spread over `num_jfiles` databases, message `pid` in the one with
the index `pid % num_jfiles`.  A database is a map from ids to stored messages; `put` with `DB_NOOVERWRITE` keeps
an existing record.  What is kept of a buffer has a size of 32 bits (`dbtValue`).

The databases compare their keys with `bt_compare_func`, to which ids are equal when `2 ^ 32` divides their distance.
`is_enqueued` is modelled with it.  For `put` and `del` a database is an exact map here; it is one as long as its ids
lie in a window (`journal_refines` in `BtreeJournal`).
-/

namespace BdbMsgStore

open Words

/-! ### Keys and values -/

/-- `IdDbt`: the id as it lies in memory. -/
def idDbt (id : UInt64) : Bytes := u64Bytes id

/-- `bt_compare_func` -/
def btCompareFunc (value1 value2 : Bytes) : Int := castInt (u64OfBytes value1 - u64OfBytes value2)

/-- The comparison of two ids under the keys they are stored with. -/
def compareIds (a b : UInt64) : Int := btCompareFunc (idDbt a) (idDbt b)

/-- The keys differ by a multiple of `2 ^ 32`. -/
def Congruent (a b : UInt64) : Prop := a.toNat % 2 ^ 32 = b.toNat % 2 ^ 32

instance (a b : UInt64) : Decidable (Congruent a b) := inferInstanceAs (Decidable (_ = _))

theorem compareIds_eq (a b : UInt64) : compareIds a b = castInt (a - b) := by
  unfold compareIds btCompareFunc idDbt
  rw [u64OfBytes_u64Bytes, u64OfBytes_u64Bytes]

/-- The low 32 bits of a difference. -/
theorem toNat_sub_mod (a b : UInt64) :
    (a - b).toNat % 2 ^ 32 = (a.toNat + (2 ^ 32 - b.toNat % 2 ^ 32)) % 2 ^ 32 := by
  have ha := a.toNat_lt
  have hb := b.toNat_lt
  rw [UInt64.toNat_sub]
  omega

theorem compareIds_eq_zero {a b : UInt64} : compareIds a b = 0 ↔ Congruent a b := by
  rw [compareIds_eq]
  unfold castInt Congruent
  rw [toNat_sub_mod]
  split <;> omega

/-- What a database keeps of a buffer: the size of a `Dbt` has 32 bits. -/
def dbtValue (buff : Bytes) : Bytes := buff.take (buff.length % 2 ^ 32)

theorem dbtValue_of_lt {buff : Bytes} (h : buff.length < 2 ^ 32) : dbtValue buff = buff := by
  unfold dbtValue
  rw [Nat.mod_eq_of_lt h, List.take_length]

/-! ### The journal -/

/-- A journal: its databases, and the ids registered for deletion at the end of a recovery.  There is a database,
and each message is in the one its id names. -/
structure JournalImpl where
  messageDbs : List (OrdMap UInt64 Bytes)
  transientList : List UInt64 := []
  acceptedList : List UInt64 := []
  ne_nil : messageDbs ≠ []
  placed : ∀ i pid, (messageDbs.getD i ∅).contains pid → pid.toNat % messageDbs.length = i

namespace JournalImpl

variable (j : JournalImpl)

/-- The index of the database of a message. -/
def shardIndex (pid : UInt64) : Nat := pid.toNat % j.messageDbs.length

theorem shardIndex_lt (pid : UInt64) : j.shardIndex pid < j.messageDbs.length :=
  Nat.mod_lt _ (List.length_pos_iff.2 j.ne_nil)

/-- `messageDbs[pid%num_jfiles]` -/
def shard (pid : UInt64) : OrdMap UInt64 Bytes := j.messageDbs.getD (j.shardIndex pid) ∅

/-- The stored form of a message, if it is in the journal. -/
def find? (pid : UInt64) : Option Bytes := (j.shard pid).find? pid

/-- `is_enqueued`: `exists` finds a record whose key compares equal. -/
def isEnqueued (pid : UInt64) : Bool := (j.shard pid).entries.any fun e => compareIds pid e.1 = 0

/-- The database of `pid` is replaced by one that differs from it at `pid` only. -/
private theorem placed_set {db : OrdMap UInt64 Bytes} {pid : UInt64}
    (h : ∀ p, p ≠ pid → db.find? p = (j.shard pid).find? p) (i : Nat) (p : UInt64)
    (hp : ((j.messageDbs.set (j.shardIndex pid) db).getD i ∅).contains p) :
    p.toNat % (j.messageDbs.set (j.shardIndex pid) db).length = i := by
  rw [List.length_set]
  by_cases hi : j.shardIndex pid = i
  · subst hi
    rw [List.getD_eq_getElem?_getD, List.getElem?_set_self (j.shardIndex_lt pid), Option.getD_some] at hp
    by_cases hpid : p = pid
    · rw [hpid]; rfl
    · rw [OrdMap.contains, h p hpid] at hp
      exact j.placed _ p hp
  · rw [List.getD_eq_getElem?_getD, List.getElem?_set_ne hi, ← List.getD_eq_getElem?_getD] at hp
    exact j.placed i p hp

private theorem set_ne_nil {l : List (OrdMap UInt64 Bytes)} (h : l ≠ []) (i : Nat) (db : OrdMap UInt64 Bytes) :
    l.set i db ≠ [] := by
  simpa using h

/-- `store_msg`, called by `enqueue_data` with the buffer as a `Dbt` -/
def storeMsg (pid : UInt64) (buff : Bytes) : JournalImpl :=
  { j with
    messageDbs := j.messageDbs.set (j.shardIndex pid) ((j.shard pid).insert pid (dbtValue buff))
    ne_nil := set_ne_nil j.ne_nil _ _
    placed := j.placed_set fun p hp => by rw [OrdMap.find?_insert, if_neg hp] }

/-- `remove_msg`, called by `dequeue_data`; also the deletion of one id by the `discard` functions -/
def removeMsg (pid : UInt64) : JournalImpl :=
  { j with
    messageDbs := j.messageDbs.set (j.shardIndex pid) ((j.shard pid).erase pid)
    ne_nil := set_ne_nil j.ne_nil _ _
    placed := j.placed_set fun p hp => by rw [OrdMap.find?_erase, if_neg hp] }

/-- `register_as_transient` -/
def registerAsTransient (trList : List UInt64) : JournalImpl := { j with transientList := trList ++ j.transientList }

/-- `register_as_accepted` -/
def registerAsAccepted (acList : List UInt64) : JournalImpl := { j with acceptedList := acList ++ j.acceptedList }

/-- `discard_transient_message` -/
def discardTransientMessage : JournalImpl := { j.transientList.foldl removeMsg j with transientList := [] }

/-- `discard_accepted_message` -/
def discardAcceptedMessage : JournalImpl := { j.acceptedList.foldl removeMsg j with acceptedList := [] }

/-- `recoverMessages`: all records, read from the databases in turn. -/
def recoverMessages : List (UInt64 × Bytes) := RoundRobin.read (j.messageDbs.map OrdMap.entries)

/-- A journal with `n + 1` empty databases. -/
def empty (n : Nat) : JournalImpl where
  messageDbs := List.replicate (n + 1) ∅
  ne_nil := by simp
  placed := by
    intro i pid h
    rw [List.getD_eq_getElem?_getD, List.getElem?_replicate] at h
    split at h <;> exact absurd h (by simp [OrdMap.contains])

/-! ### Lookups after the operations -/

/-- Replacing the database of `pid` by one that differs from it at `pid` only. -/
private theorem find?_set {db : OrdMap UInt64 Bytes} {pid : UInt64} {j' : JournalImpl}
    (hj' : j'.messageDbs = j.messageDbs.set (j.shardIndex pid) db)
    (h : ∀ p, p ≠ pid → db.find? p = (j.shard pid).find? p) (p : UInt64) :
    j'.find? p = if p = pid then db.find? pid else j.find? p := by
  have hidx : ∀ p, j'.shardIndex p = j.shardIndex p := by
    intro p
    unfold shardIndex
    rw [hj', List.length_set]
  have hshard : j'.shard p = if j.shardIndex pid = j.shardIndex p then db else j.shard p := by
    unfold shard
    rw [hidx, hj', List.getD_eq_getElem?_getD]
    split
    · rename_i hi
      rw [← hi, List.getElem?_set_self (j.shardIndex_lt pid), Option.getD_some]
    · rename_i hi
      rw [List.getElem?_set_ne hi, ← List.getD_eq_getElem?_getD]
  unfold find?
  rw [hshard]
  by_cases hp : p = pid
  · subst hp
    simp
  · rw [if_neg hp]
    split
    · rename_i hi
      rw [h p hp]
      unfold shard
      rw [hi]
    · rfl

theorem find?_storeMsg (pid : UInt64) (buff : Bytes) (p : UInt64) :
    (j.storeMsg pid buff).find? p = if p = pid then some ((j.find? pid).getD (dbtValue buff)) else j.find? p := by
  rw [find?_set j rfl (fun p hp => by rw [OrdMap.find?_insert, if_neg hp]) p, OrdMap.find?_insert, if_pos rfl]
  rfl

theorem find?_removeMsg (pid p : UInt64) :
    (j.removeMsg pid).find? p = if p = pid then none else j.find? p := by
  rw [find?_set j rfl (fun p hp => by rw [OrdMap.find?_erase, if_neg hp]) p, OrdMap.find?_erase, if_pos rfl]

private theorem find?_foldl_removeMsg (l : List UInt64) (p : UInt64) :
    (l.foldl removeMsg j).find? p = if p ∈ l then none else j.find? p := by
  induction l generalizing j with
  | nil => simp
  | cons pid l ih =>
    rw [List.foldl_cons, ih, find?_removeMsg]
    by_cases hl : p ∈ l
    · simp [hl]
    · simp only [hl, List.mem_cons, or_false, ↓reduceIte]

theorem find?_discardTransientMessage (p : UInt64) :
    j.discardTransientMessage.find? p = if p ∈ j.transientList then none else j.find? p :=
  j.find?_foldl_removeMsg _ p

theorem find?_discardAcceptedMessage (p : UInt64) :
    j.discardAcceptedMessage.find? p = if p ∈ j.acceptedList then none else j.find? p :=
  j.find?_foldl_removeMsg _ p

private theorem foldl_removeMsg_acceptedList (l : List UInt64) :
    (l.foldl removeMsg j).acceptedList = j.acceptedList := by
  induction l generalizing j with
  | nil => rfl
  | cons pid l ih => rw [List.foldl_cons, ih]; rfl

@[simp] theorem acceptedList_discardTransientMessage : j.discardTransientMessage.acceptedList = j.acceptedList :=
  j.foldl_removeMsg_acceptedList _

@[simp] theorem find?_registerAsTransient (l : List UInt64) (p : UInt64) :
    (j.registerAsTransient l).find? p = j.find? p := rfl

@[simp] theorem find?_registerAsAccepted (l : List UInt64) (p : UInt64) :
    (j.registerAsAccepted l).find? p = j.find? p := rfl

@[simp] theorem find?_empty (n : Nat) (p : UInt64) : (empty n).find? p = none := by
  unfold find? shard empty
  rw [List.getD_eq_getElem?_getD, List.getElem?_replicate]
  split <;> rfl

/-- A message is found if it is in the journal, or if one with a congruent id is in the same database. -/
theorem isEnqueued_iff {pid : UInt64} :
    j.isEnqueued pid = true ↔ ∃ p, (j.find? p).isSome ∧ j.shardIndex p = j.shardIndex pid ∧ Congruent pid p := by
  unfold isEnqueued
  rw [List.any_eq_true]
  constructor
  · rintro ⟨⟨p, v⟩, hmem, hz⟩
    have hfind : (j.shard pid).find? p = some v := OrdMap.mem_entries.1 hmem
    have hidx : j.shardIndex p = j.shardIndex pid := j.placed _ p (by
      show ((j.shard pid).find? p).isSome
      rw [hfind]
      rfl)
    refine ⟨p, ?_, hidx, compareIds_eq_zero.1 (of_decide_eq_true hz)⟩
    unfold find? shard
    rw [hidx]
    exact Option.isSome_iff_exists.2 ⟨v, hfind⟩
  · rintro ⟨p, hp, hidx, hcong⟩
    obtain ⟨v, hv⟩ := Option.isSome_iff_exists.1 hp
    unfold find? shard at hv
    rw [hidx] at hv
    exact ⟨(p, v), OrdMap.mem_entries.2 hv, decide_eq_true (compareIds_eq_zero.2 hcong)⟩

theorem isEnqueued_of_find? {pid : UInt64} {value : Bytes} (h : j.find? pid = some value) :
    j.isEnqueued pid = true :=
  j.isEnqueued_iff.2 ⟨pid, Option.isSome_iff_exists.2 ⟨value, h⟩, rfl, rfl⟩

/-- Deleting messages can only make a test fail. -/
theorem isEnqueued_of_subset {j j' : JournalImpl} (hlen : j'.messageDbs.length = j.messageDbs.length)
    (hsub : ∀ p, (j'.find? p).isSome → (j.find? p).isSome) {pid : UInt64} (h : j'.isEnqueued pid = true) :
    j.isEnqueued pid = true := by
  obtain ⟨p, hp, hidx, hcong⟩ := j'.isEnqueued_iff.1 h
  refine j.isEnqueued_iff.2 ⟨p, hsub p hp, ?_, hcong⟩
  unfold shardIndex at hidx ⊢
  rw [← hlen]
  exact hidx

private theorem length_foldl_removeMsg (l : List UInt64) :
    (l.foldl removeMsg j).messageDbs.length = j.messageDbs.length := by
  induction l generalizing j with
  | nil => rfl
  | cons pid l ih =>
    rw [List.foldl_cons, ih]
    exact List.length_set

@[simp] theorem length_discardTransientMessage :
    j.discardTransientMessage.messageDbs.length = j.messageDbs.length :=
  j.length_foldl_removeMsg _

@[simp] theorem length_discardAcceptedMessage :
    j.discardAcceptedMessage.messageDbs.length = j.messageDbs.length :=
  j.length_foldl_removeMsg _

/-! ### Reading a journal back -/

/-- The loop of `recoverMessages` over the records of the databases in the order of their cursors, for `fuel` turns at
most: what `recovered` holds after the loop, `none` while it has not ended. -/
def readShards (fuel : Nat) (shards : List (List (UInt64 × Bytes))) (recovered : List (UInt64 × Bytes)) :
    Option (List (UInt64 × Bytes)) :=
  let s := RoundRobin.loop fuel (RoundRobin.init shards)
  if s.doneCount < shards.length then none else some (recovered ++ s.out)

theorem readShards_of_enough {fuel : Nat} {shards : List (List (UInt64 × Bytes))}
    (hfuel : RoundRobin.enough shards ≤ fuel) (recovered : List (UInt64 × Bytes)) :
    readShards fuel shards recovered = some (recovered ++ RoundRobin.read shards) := by
  obtain ⟨hended, hout⟩ := RoundRobin.loop_ended hfuel
  unfold readShards
  dsimp only
  rw [if_neg (by omega), hout]

/-- The read of any number of databases ends, and it appends every record of every database exactly once, the records
of each database in the order of its cursor. -/
theorem sharded_read_complete (shards : List (List (UInt64 × Bytes))) (recovered : List (UInt64 × Bytes)) :
    ∃ out, (∃ turns, ∀ fuel, turns ≤ fuel → readShards fuel shards recovered = some (recovered ++ out)) ∧
      out.Perm shards.flatten ∧ RoundRobin.Merges shards out :=
  ⟨RoundRobin.read shards, ⟨RoundRobin.enough shards, fun _ hfuel => readShards_of_enough hfuel recovered⟩,
    RoundRobin.read_perm shards, RoundRobin.read_merges shards⟩

-- the shard in the middle is exhausted first and is passed over from then on
example : readShards 100 [[(0, [1]), (3, [2]), (6, [3])], [(1, [4])], [(2, [5]), (5, [6])]] [] =
    some [(0, [1]), (1, [4]), (2, [5]), (3, [2]), (5, [6]), (6, [3])] := by decide +kernel

example : readShards 1 [] [(7, [1])] = some [(7, [1])] := by decide +kernel

theorem recoverMessages_perm : j.recoverMessages.Perm (j.messageDbs.flatMap OrdMap.entries) := by
  unfold recoverMessages
  rw [List.flatMap_def]
  exact RoundRobin.read_perm _

theorem mem_recoverMessages {pid : UInt64} {value : Bytes} :
    (pid, value) ∈ j.recoverMessages ↔ j.find? pid = some value := by
  rw [j.recoverMessages_perm.mem_iff, List.mem_flatMap]
  constructor
  · rintro ⟨db, hdb, hmem⟩
    have hfind := OrdMap.mem_entries.1 hmem
    obtain ⟨i, hi⟩ := List.mem_iff_getElem?.1 hdb
    have hget : j.messageDbs.getD i ∅ = db := by rw [List.getD_eq_getElem?_getD, hi]; rfl
    have hidx : j.shardIndex pid = i := j.placed i pid (by rw [hget, OrdMap.contains, hfind]; rfl)
    unfold find? shard
    rw [hidx, hget]
    exact hfind
  · intro h
    refine ⟨j.shard pid, ?_, OrdMap.mem_entries.2 h⟩
    unfold shard
    rw [List.getD_eq_getElem?_getD, List.getElem?_eq_getElem (j.shardIndex_lt pid)]
    exact List.getElem_mem _

/-- No id is read twice. -/
theorem recoverMessages_nodup : (j.recoverMessages.map Prod.fst).Nodup := by
  rw [(j.recoverMessages_perm.map Prod.fst).nodup_iff, List.map_flatMap, List.nodup_flatMap]
  refine ⟨fun db _ => db.nodup_keys, ?_⟩
  rw [List.pairwise_iff_getElem]
  intro a b ha hb hab p hpa hpb
  -- an id of two databases would name both their indexes
  have hkey : ∀ i (hi : i < j.messageDbs.length), p ∈ (j.messageDbs[i].entries.map Prod.fst) →
      p.toNat % j.messageDbs.length = i := by
    intro i hi hp
    obtain ⟨⟨p', v⟩, hmem, rfl⟩ := List.mem_map.1 hp
    apply j.placed i p'
    rw [List.getD_eq_getElem?_getD, List.getElem?_eq_getElem hi, Option.getD_some, OrdMap.contains,
      OrdMap.mem_entries.1 hmem]
    rfl
  have h1 := hkey a ha hpa
  have h2 := hkey b hb hpb
  omega

end JournalImpl

end BdbMsgStore

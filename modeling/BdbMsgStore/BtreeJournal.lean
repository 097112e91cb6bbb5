import BdbMsgStore.BtCompare

/-!
# The journal on its B-trees

The journal of `JournalImpl` keeps exact maps.  Here the same calls go to the databases as Berkeley DB searches
them, through `bt_compare_func`, in any way that `Btree.Search` allows.  As long as the ids that meet in one
database lie in a window (`InWindow`), the two cannot be told apart (`journal_refines`): the databases hold the same
records in the same order, and `put` and `exists` give the same answers.
-/

namespace BdbMsgStore

open Words

/-- The databases of a journal, each with its records in the order of the tree. -/
structure BtreeJournal where
  messageDbs : List (List (UInt64 × Bytes))

/-- The calls that the pools and the recovery make on a journal. -/
inductive JournalCall
  | enqueueData (pid : UInt64) (buff : Bytes)
  | dequeueData (pid : UInt64)

/-- The id that the call is about. -/
def JournalCall.pid : JournalCall → UInt64
  | enqueueData pid _ => pid
  | dequeueData pid => pid

/-- The calls on the maps. -/
def JournalImpl.call (j : JournalImpl) : JournalCall → JournalImpl
  | .enqueueData pid buff => j.storeMsg pid buff
  | .dequeueData pid => j.removeMsg pid

/-- The maps of a journal, as the databases keep them. -/
def JournalImpl.btrees (j : JournalImpl) : BtreeJournal where
  messageDbs := j.messageDbs.map OrdMap.entries

namespace BtreeJournal

variable (S : Btree.Search UInt64) (b : BtreeJournal)

def shardIndex (pid : UInt64) : Nat := pid.toNat % b.messageDbs.length

/-- `messageDbs[pid%num_jfiles]` -/
def shard (pid : UInt64) : List (UInt64 × Bytes) := b.messageDbs.getD (b.shardIndex pid) []

/-- `enqueue_data`, and whether the message went into the database -/
def enqueueData (pid : UInt64) (buff : Bytes) : Bool × BtreeJournal :=
  let r := BdbMsgStore.storeMsg S (b.shard pid) pid (dbtValue buff)
  (r.1, { messageDbs := b.messageDbs.set (b.shardIndex pid) r.2 })

/-- `dequeue_data` -/
def dequeueData (pid : UInt64) : BtreeJournal where
  messageDbs := b.messageDbs.set (b.shardIndex pid) (BdbMsgStore.removeMsg S (b.shard pid) pid)

/-- `is_enqueued` -/
def isEnqueued (pid : UInt64) : Bool := (S.find (compareIds pid) ((b.shard pid).map Prod.fst)).isSome

/-- `recoverMessages` -/
def recoverMessages : List (UInt64 × Bytes) := RoundRobin.read b.messageDbs

/-- The calls on the trees. -/
def call : JournalCall → BtreeJournal
  | .enqueueData pid buff => (b.enqueueData S pid buff).2
  | .dequeueData pid => b.dequeueData S pid

end BtreeJournal

/-- The messages of the journal have ids in the list, and of these, two that go to one database lie in a window. -/
structure MeetInWindow (j : JournalImpl) (ids : List UInt64) : Prop where
  stored : ∀ p, (j.find? p).isSome → p ∈ ids
  inWindow : ∀ p ∈ ids, ∀ q ∈ ids, j.shardIndex p = j.shardIndex q → InWindow p q

namespace JournalImpl

variable {j : JournalImpl} {ids : List UInt64}

theorem shardIndex_btrees (pid : UInt64) : j.btrees.shardIndex pid = j.shardIndex pid := by
  unfold BtreeJournal.shardIndex shardIndex btrees
  rw [List.length_map]

theorem shard_btrees (pid : UInt64) : j.btrees.shard pid = (j.shard pid).entries := by
  unfold BtreeJournal.shard shard
  rw [shardIndex_btrees, btrees, List.getD_eq_getElem?_getD, List.getD_eq_getElem?_getD, List.getElem?_map]
  cases j.messageDbs[j.shardIndex pid]? <;> rfl

theorem btrees_set {j' : JournalImpl} {pid : UInt64} {db : OrdMap UInt64 Bytes}
    (h : j'.messageDbs = j.messageDbs.set (j.shardIndex pid) db) :
    j'.btrees = { messageDbs := j.btrees.messageDbs.set (j.btrees.shardIndex pid) db.entries } := by
  rw [shardIndex_btrees]
  unfold btrees
  rw [h, List.map_set]

/-- The keys of the database of `pid` are in the window around it. -/
theorem inWindow_shard (h : MeetInWindow j ids) {pid : UInt64} (hpid : pid ∈ ids) :
    ∀ k ∈ (j.shard pid).entries.map Prod.fst, InWindow pid k := by
  intro k hk
  obtain ⟨⟨p, value⟩, hmem, rfl⟩ := List.mem_map.1 hk
  have hfind : (j.shard pid).find? p = some value := OrdMap.mem_entries.1 hmem
  have hidx : j.shardIndex p = j.shardIndex pid := j.placed _ p (by
    show ((j.shard pid).find? p).isSome
    rw [hfind]
    rfl)
  have hstored : (j.find? p).isSome := by
    unfold find? shard
    rw [hidx]
    exact Option.isSome_iff_exists.2 ⟨value, hfind⟩
  exact h.inWindow pid hpid p (h.stored p hstored) hidx.symm

/-! ### One call -/

variable (S : Btree.Search UInt64) (h : MeetInWindow j ids) {pid : UInt64} (hpid : pid ∈ ids)

include h hpid

theorem enqueueData_btrees (buff : Bytes) :
    j.btrees.enqueueData S pid buff = ((j.find? pid).isNone, (j.storeMsg pid buff).btrees) := by
  unfold BtreeJournal.enqueueData
  have hset : (j.storeMsg pid buff).btrees = _ := btrees_set rfl
  rw [shard_btrees, storeMsg_entries S (inWindow_shard h hpid), hset]
  refine Prod.ext ?_ rfl
  show (!((j.shard pid).find? pid).isSome) = ((j.shard pid).find? pid).isNone
  exact Option.not_isSome _

theorem dequeueData_btrees : j.btrees.dequeueData S pid = (j.removeMsg pid).btrees := by
  unfold BtreeJournal.dequeueData
  have hset : (j.removeMsg pid).btrees = _ := btrees_set rfl
  rw [shard_btrees, removeMsg_entries S (inWindow_shard h hpid), hset]

theorem isEnqueued_btrees : j.btrees.isEnqueued S pid = j.isEnqueued pid := by
  unfold BtreeJournal.isEnqueued
  rw [shard_btrees, Btree.isSome_find_entries (orders_of_inWindow (inWindow_shard h hpid))]
  rfl

omit hpid in
theorem meetInWindow_call {c : JournalCall} (hc : c.pid ∈ ids) : MeetInWindow (j.call c) ids := by
  have hidx : ∀ p, (j.call c).shardIndex p = j.shardIndex p := by
    intro p
    cases c <;> exact congrArg (p.toNat % ·) List.length_set
  refine ⟨fun p hp => ?_, fun p hp q hq hpq => h.inWindow p hp q hq (by rw [← hidx p, ← hidx q, hpq])⟩
  by_cases hne : p = c.pid
  · rw [hne]
    exact hc
  · -- the other messages are those that were there
    have hfind : (j.call c).find? p = j.find? p := by
      cases c with
      | enqueueData pid buff => exact (j.find?_storeMsg pid buff p).trans (if_neg hne)
      | dequeueData pid => exact (j.find?_removeMsg pid p).trans (if_neg hne)
    exact h.stored p (hfind ▸ hp)

omit hpid in
theorem call_btrees {c : JournalCall} (hc : c.pid ∈ ids) : j.btrees.call S c = (j.call c).btrees := by
  cases c with
  | enqueueData pid buff => exact congrArg Prod.snd (enqueueData_btrees S h hc buff)
  | dequeueData pid => exact dequeueData_btrees S h hc

end JournalImpl

/-! ### Runs -/

private theorem btrees_foldl (S : Btree.Search UInt64) {ids : List UInt64} {calls : List JournalCall}
    {j : JournalImpl} (h : MeetInWindow j ids) (hcalls : ∀ c ∈ calls, c.pid ∈ ids) :
    calls.foldl (BtreeJournal.call S) j.btrees = (calls.foldl JournalImpl.call j).btrees ∧
      MeetInWindow (calls.foldl JournalImpl.call j) ids := by
  induction calls generalizing j with
  | nil => exact ⟨rfl, h⟩
  | cons c calls ih =>
    have hc := hcalls c (List.mem_cons_self ..)
    rw [List.foldl_cons, List.foldl_cons, JournalImpl.call_btrees S h hc]
    exact ih (JournalImpl.meetInWindow_call h hc) fun c hc => hcalls c (List.mem_cons_of_mem _ hc)

/-- While the ids that meet in one database lie in a window, the trees hold the records of the maps after every
sequence of calls, however they are searched.  They are read back in the same order, a message is found in both or
in neither, and a `put` is refused exactly if the message is there. -/
theorem journal_refines (S : Btree.Search UInt64) {j : JournalImpl} {ids : List UInt64} (h : MeetInWindow j ids)
    {calls : List JournalCall} (hcalls : ∀ c ∈ calls, c.pid ∈ ids) :
    let b := calls.foldl (BtreeJournal.call S) j.btrees
    let j' := calls.foldl JournalImpl.call j
    b = j'.btrees ∧ b.recoverMessages = j'.recoverMessages ∧ ∀ pid ∈ ids,
      b.isEnqueued S pid = j'.isEnqueued pid ∧ ∀ buff, (b.enqueueData S pid buff).1 = (j'.find? pid).isNone := by
  intro b j'
  obtain ⟨hb, hj'⟩ := btrees_foldl S h hcalls
  have hb' : b = j'.btrees := hb
  refine ⟨hb', by rw [hb']; rfl, fun pid hpid => ⟨?_, fun buff => ?_⟩⟩
  · rw [hb', JournalImpl.isEnqueued_btrees S hj' hpid]
  · rw [hb', JournalImpl.enqueueData_btrees S hj' hpid]

/-- Two databases: the second `put` of `5` is refused, and `7` is not found after it has been deleted. -/
theorem journal_refines_twoFiles :
    let S := Btree.Search.preferring 7
    let calls := [.enqueueData 5 [1], .enqueueData 6 [2], .enqueueData 7 [3], .enqueueData 5 [4], .dequeueData 7]
    let b := calls.foldl (BtreeJournal.call S) (JournalImpl.empty 1).btrees
    b.messageDbs = [[(6, [2])], [(5, [1])]] ∧ b.isEnqueued S 7 = false := by
  intro S calls b
  have hwindow : MeetInWindow (JournalImpl.empty 1) [5, 6, 7] := by
    refine ⟨fun p hp => absurd hp (by simp), fun p hp q hq _ => ?_⟩
    have hids : ∀ {x : UInt64}, x ∈ [5, 6, 7] → x = 5 ∨ x = 6 ∨ x = 7 := by simp
    rcases hids hp with rfl | rfl | rfl <;> rcases hids hq with rfl | rfl | rfl <;> decide
  have hcalls : ∀ c ∈ calls, c.pid ∈ ([5, 6, 7] : List UInt64) := by decide
  obtain ⟨hb, -, hpid⟩ := journal_refines S hwindow hcalls
  exact ⟨(congrArg BtreeJournal.messageDbs hb).trans (by decide), (hpid 7 (by decide)).1.trans (by decide)⟩

end BdbMsgStore

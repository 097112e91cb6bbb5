import BdbMsgStore.Lib.Shards
import Mathlib.Data.UInt

/-!
# The statistics of the management object

The management object of the provider keeps its statistics in records, one for each value of `getThreadIndex`, and
adds them up when it is asked (`aggregatePerThreadStats`).  A call takes no lock: it reads fields of the record of
its thread and then writes them, and other threads come in between.  A counter that one thread increments and
another decrements wraps around in both records; their sum does not show it, because a call that has read the
current values adds a fixed value to a counter (`get_write`).
-/

namespace BdbMsgStore

/-- A time with its count, sum, least and greatest value since the last report. -/
structure Timing where
  count : UInt64 := 0
  total : UInt64 := 0
  /-- `std::numeric_limits<uint64_t>::max()` when there is none -/
  min : UInt64 := 0xffffffffffffffff
  max : UInt64 := 0
  deriving DecidableEq

structure PerThreadStats where
  pendingAsyncEnqueue : UInt32 := 0
  pendingAsyncDequeue : UInt32 := 0
  executedEnqueue : UInt32 := 0
  executedDequeue : UInt32 := 0
  skippedEnqueue : UInt32 := 0
  skippedDequeue : UInt32 := 0
  totalEnqueueTime : UInt64 := 0
  totalDequeueTime : UInt64 := 0
  enqueueTime : Timing := {}
  dequeueTime : Timing := {}
  deriving DecidableEq

/-- A call on the management object that changes the record of the calling thread. -/
inductive StatCall where
  | incPendingAsyncEnqueue
  | decPendingAsyncEnqueue
  | incPendingAsyncDequeue
  | decPendingAsyncDequeue
  | incExecutedEnqueue
  | incExecutedDequeue
  | incSkippedEnqueue
  | incSkippedDequeue
  | incTotalEnqueueTime (ms : UInt64)
  | incTotalDequeueTime (ms : UInt64)
  | setEnqueueTime (val : UInt64)
  | setDequeueTime (val : UInt64)
  deriving DecidableEq

/-- The body of `set_enqueueTime` and `set_dequeueTime`, from what it has read. -/
def Timing.set (t : Timing) (val : UInt64) : Timing where
  count := t.count + 1
  total := t.total + val
  min := if t.min > val then val else t.min
  max := if t.max < val then val else t.max

/-- What a call leaves in a record: the fields that it changes get what it computes from what it has `read` of
them. -/
def PerThreadStats.write (stats read : PerThreadStats) : StatCall → PerThreadStats
  | .incPendingAsyncEnqueue => { stats with pendingAsyncEnqueue := read.pendingAsyncEnqueue + 1 }
  | .decPendingAsyncEnqueue => { stats with pendingAsyncEnqueue := read.pendingAsyncEnqueue - 1 }
  | .incPendingAsyncDequeue => { stats with pendingAsyncDequeue := read.pendingAsyncDequeue + 1 }
  | .decPendingAsyncDequeue => { stats with pendingAsyncDequeue := read.pendingAsyncDequeue - 1 }
  | .incExecutedEnqueue => { stats with executedEnqueue := read.executedEnqueue + 1 }
  | .incExecutedDequeue => { stats with executedDequeue := read.executedDequeue + 1 }
  | .incSkippedEnqueue => { stats with skippedEnqueue := read.skippedEnqueue + 1 }
  | .incSkippedDequeue => { stats with skippedDequeue := read.skippedDequeue + 1 }
  | .incTotalEnqueueTime ms => { stats with totalEnqueueTime := read.totalEnqueueTime + ms }
  | .incTotalDequeueTime ms => { stats with totalDequeueTime := read.totalDequeueTime + ms }
  | .setEnqueueTime val => { stats with enqueueTime := read.enqueueTime.set val }
  | .setDequeueTime val => { stats with dequeueTime := read.dequeueTime.set val }

/-- How the times of a thread go into the totals. -/
def Timing.add (totals t : Timing) : Timing where
  count := totals.count + t.count
  total := totals.total + t.total
  min := if totals.min > t.min then t.min else totals.min
  max := if totals.max < t.max then t.max else totals.max

/-- The body of the loop of `aggregatePerThreadStats`. -/
def PerThreadStats.add (totals stats : PerThreadStats) : PerThreadStats where
  pendingAsyncEnqueue := totals.pendingAsyncEnqueue + stats.pendingAsyncEnqueue
  pendingAsyncDequeue := totals.pendingAsyncDequeue + stats.pendingAsyncDequeue
  executedEnqueue := totals.executedEnqueue + stats.executedEnqueue
  executedDequeue := totals.executedDequeue + stats.executedDequeue
  skippedEnqueue := totals.skippedEnqueue + stats.skippedEnqueue
  skippedDequeue := totals.skippedDequeue + stats.skippedDequeue
  totalEnqueueTime := totals.totalEnqueueTime + stats.totalEnqueueTime
  totalDequeueTime := totals.totalDequeueTime + stats.totalDequeueTime
  enqueueTime := totals.enqueueTime.add stats.enqueueTime
  dequeueTime := totals.dequeueTime.add stats.dequeueTime

/-! ### The monoid of records -/

private theorem toNat_lower (a b : UInt64) : (if a > b then b else a).toNat = min a.toNat b.toNat := by
  by_cases hlt : a > b
  · rw [if_pos hlt]
    exact (Nat.min_eq_right (Nat.le_of_lt (UInt64.lt_iff_toNat_lt.1 hlt))).symm
  · rw [if_neg hlt]
    exact (Nat.min_eq_left (UInt64.le_iff_toNat_le.1 (UInt64.not_lt.1 hlt))).symm

private theorem toNat_upper (a b : UInt64) : (if a < b then b else a).toNat = max a.toNat b.toNat := by
  by_cases hlt : a < b
  · rw [if_pos hlt]
    exact (Nat.max_eq_right (Nat.le_of_lt (UInt64.lt_iff_toNat_lt.1 hlt))).symm
  · rw [if_neg hlt]
    exact (Nat.max_eq_left (UInt64.le_iff_toNat_le.1 (UInt64.not_lt.1 hlt))).symm

namespace Timing

private theorem ext_toNat {t t' : Timing} (hcount : t.count = t'.count) (htotal : t.total = t'.total)
    (hmin : t.min.toNat = t'.min.toNat) (hmax : t.max.toNat = t'.max.toNat) : t = t' := by
  cases t
  cases t'
  cases hcount
  cases htotal
  cases UInt64.toNat_inj.1 hmin
  cases UInt64.toNat_inj.1 hmax
  rfl

instance instAdd : Add Timing := ⟨Timing.add⟩

instance instZero : Zero Timing := ⟨{}⟩

theorem toNat_min_add (a b : Timing) : (a + b).min.toNat = Min.min a.min.toNat b.min.toNat := toNat_lower ..

theorem toNat_max_add (a b : Timing) : (a + b).max.toNat = Max.max a.max.toNat b.max.toNat := toNat_upper ..

instance instAddCommMonoid : AddCommMonoid Timing where
  nsmul := nsmulRec
  add_assoc a b c := by
    refine ext_toNat (UInt64.add_assoc ..) (UInt64.add_assoc ..) ?_ ?_
    · simp only [toNat_min_add]
      exact Nat.min_assoc ..
    · simp only [toNat_max_add]
      exact Nat.max_assoc ..
  add_comm a b := by
    refine ext_toNat (UInt64.add_comm ..) (UInt64.add_comm ..) ?_ ?_
    · simp only [toNat_min_add]
      exact Nat.min_comm ..
    · simp only [toNat_max_add]
      exact Nat.max_comm ..
  zero_add a := by
    refine ext_toNat (UInt64.zero_add _) (UInt64.zero_add _) ?_ ?_
    · rw [toNat_min_add]
      exact Nat.min_eq_right (Nat.le_of_lt_succ a.min.toNat_lt)
    · rw [toNat_max_add]
      exact Nat.max_eq_right (Nat.zero_le _)
  add_zero a := by
    refine ext_toNat (UInt64.add_zero _) (UInt64.add_zero _) ?_ ?_
    · rw [toNat_min_add]
      exact Nat.min_eq_left (Nat.le_of_lt_succ a.min.toNat_lt)
    · rw [toNat_max_add]
      exact Nat.max_eq_left (Nat.zero_le _)

end Timing

namespace PerThreadStats

instance instAdd : Add PerThreadStats := ⟨PerThreadStats.add⟩

instance instZero : Zero PerThreadStats := ⟨{}⟩

instance instAddCommMonoid : AddCommMonoid PerThreadStats where
  nsmul := nsmulRec
  add_assoc a b c := by
    change PerThreadStats.add (PerThreadStats.add a b) c = PerThreadStats.add a (PerThreadStats.add b c)
    simp only [PerThreadStats.add, UInt32.add_assoc, UInt64.add_assoc, mk.injEq, true_and]
    exact ⟨add_assoc a.enqueueTime b.enqueueTime c.enqueueTime, add_assoc a.dequeueTime b.dequeueTime c.dequeueTime⟩
  add_comm a b := by
    change PerThreadStats.add a b = PerThreadStats.add b a
    simp only [PerThreadStats.add, mk.injEq]
    exact ⟨UInt32.add_comm .., UInt32.add_comm .., UInt32.add_comm .., UInt32.add_comm .., UInt32.add_comm ..,
      UInt32.add_comm .., UInt64.add_comm .., UInt64.add_comm .., add_comm a.enqueueTime b.enqueueTime,
      add_comm a.dequeueTime b.dequeueTime⟩
  zero_add a := by
    change PerThreadStats.add {} a = a
    obtain ⟨_, _, _, _, _, _, _, _, t, t'⟩ := a
    simp only [PerThreadStats.add, UInt32.zero_add, UInt64.zero_add, mk.injEq, true_and]
    exact ⟨zero_add t, zero_add t'⟩
  add_zero a := by
    change PerThreadStats.add a {} = a
    obtain ⟨_, _, _, _, _, _, _, _, t, t'⟩ := a
    simp only [PerThreadStats.add, UInt32.add_zero, UInt64.add_zero, mk.injEq, true_and]
    exact ⟨add_zero t, add_zero t'⟩

end PerThreadStats

/-! ### The management object -/

/-- What the thread that writes a report does next: `writeStatistics` first adds up the records and then resets their
times. -/
inductive ReportPc where
  | idle
  | reading (idx : Nat) (totals : PerThreadStats)
  | resetting (idx : Nat)
  deriving DecidableEq

/-- The management object: the records of the threads by their indexes, and the thread that writes a report.  It
holds a lock that the other threads do not take. -/
structure ManagementObject (maxThreads : Nat) where
  perThreadStatsArray : Fin maxThreads → Option PerThreadStats := fun _ => none
  report : ReportPc := .idle

namespace ManagementObject

variable {maxThreads : Nat}

/-- The record with index `idx`; a record that is not there is created like this. -/
def getThreadStats (o : ManagementObject maxThreads) (idx : Fin maxThreads) : PerThreadStats :=
  (o.perThreadStatsArray idx).getD {}

def setThreadStats (o : ManagementObject maxThreads) (idx : Fin maxThreads) (stats : PerThreadStats) :
    ManagementObject maxThreads :=
  { o with perThreadStatsArray := Function.update o.perThreadStatsArray idx (some stats) }

/-- A call begins: `getThreadStats` creates the record if it is not there. -/
def read (o : ManagementObject maxThreads) (idx : Fin maxThreads) : ManagementObject maxThreads :=
  o.setThreadStats idx (o.getThreadStats idx)

/-- A call ends: it writes to the record with index `idx`, of which it has read `stats`. -/
def write (o : ManagementObject maxThreads) (idx : Fin maxThreads) (stats : PerThreadStats) (c : StatCall) :
    ManagementObject maxThreads :=
  o.setThreadStats idx ((o.getThreadStats idx).write stats c)

theorem getThreadStats_setThreadStats (o : ManagementObject maxThreads) (idx idx' : Fin maxThreads)
    (stats : PerThreadStats) :
    (o.setThreadStats idx stats).getThreadStats idx' = if idx' = idx then stats else o.getThreadStats idx' := by
  unfold getThreadStats setThreadStats
  dsimp only
  by_cases hidx : idx' = idx
  · subst hidx
    rw [Function.update_self, if_pos rfl, Option.getD_some]
  · rw [Function.update_of_ne hidx, if_neg hidx]

theorem getThreadStats_read (o : ManagementObject maxThreads) (idx idx' : Fin maxThreads) :
    (o.read idx).getThreadStats idx' = o.getThreadStats idx' := by
  unfold read
  rw [getThreadStats_setThreadStats]
  split
  · rename_i hidx
    rw [hidx]
  · rfl

def aggregatePerThreadStats (o : ManagementObject maxThreads) : PerThreadStats :=
  (List.finRange maxThreads).foldl (fun totals idx =>
    match o.perThreadStatsArray idx with
    | some stats => totals.add stats
    | none => totals) {}

/-- "Maintenance of hi-lo statistics", for one record -/
def resetTimes (stats : PerThreadStats) : PerThreadStats := { stats with enqueueTime := {}, dequeueTime := {} }

/-- The next step of `writeStatistics`, which adds one record to the totals or resets one; the totals are written
between the two loops. -/
def reportStep (o : ManagementObject maxThreads) : ManagementObject maxThreads × Option PerThreadStats :=
  match o.report with
  | .idle => ({ o with report := .reading 0 {} }, none)
  | .reading idx totals =>
    if h : idx < maxThreads then
      ({ o with report := .reading (idx + 1) (match o.perThreadStatsArray ⟨idx, h⟩ with
        | some stats => totals.add stats
        | none => totals) }, none)
    else ({ o with report := .resetting 0 }, some totals)
  | .resetting idx =>
    if h : idx < maxThreads then
      ({ perThreadStatsArray :=
          Function.update o.perThreadStatsArray ⟨idx, h⟩ ((o.perThreadStatsArray ⟨idx, h⟩).map resetTimes)
         report := .resetting (idx + 1) }, none)
    else ({ o with report := .idle }, none)

theorem aggregate_eq_total (o : ManagementObject maxThreads) :
    o.aggregatePerThreadStats = Shards.total o.perThreadStatsArray := by
  unfold aggregatePerThreadStats Shards.total
  congr 1
  funext totals idx
  cases o.perThreadStatsArray idx <;> rfl

theorem aggregate_new : ({} : ManagementObject maxThreads).aggregatePerThreadStats = 0 := Shards.total_none

end ManagementObject

/-! ### The counters -/

/-- The statistics that are counts. -/
inductive Counter where
  | pendingAsyncEnqueue
  | pendingAsyncDequeue
  | executedEnqueue
  | executedDequeue
  | skippedEnqueue
  | skippedDequeue
  deriving DecidableEq

def PerThreadStats.get (stats : PerThreadStats) : Counter → UInt32
  | .pendingAsyncEnqueue => stats.pendingAsyncEnqueue
  | .pendingAsyncDequeue => stats.pendingAsyncDequeue
  | .executedEnqueue => stats.executedEnqueue
  | .executedDequeue => stats.executedDequeue
  | .skippedEnqueue => stats.skippedEnqueue
  | .skippedDequeue => stats.skippedDequeue

@[simp] theorem PerThreadStats.get_zero (i : Counter) : (0 : PerThreadStats).get i = 0 := by cases i <;> rfl

/-- What a call adds to a counter. -/
def StatCall.delta : StatCall → Counter → UInt32
  | .incPendingAsyncEnqueue, .pendingAsyncEnqueue => 1
  | .decPendingAsyncEnqueue, .pendingAsyncEnqueue => -1
  | .incPendingAsyncDequeue, .pendingAsyncDequeue => 1
  | .decPendingAsyncDequeue, .pendingAsyncDequeue => -1
  | .incExecutedEnqueue, .executedEnqueue => 1
  | .incExecutedDequeue, .executedDequeue => 1
  | .incSkippedEnqueue, .skippedEnqueue => 1
  | .incSkippedDequeue, .skippedDequeue => 1
  | _, _ => 0

/-- A call that has read the current counters adds to them. -/
theorem PerThreadStats.get_write {stats read : PerThreadStats} (hread : ∀ i, read.get i = stats.get i) (c : StatCall)
    (i : Counter) : (stats.write read c).get i = stats.get i + c.delta i := by
  rw [← hread i]
  have hother := hread i
  cases c <;> cases i <;> first
    | exact UInt32.sub_eq_add_neg ..
    | rfl
    | exact hother.symm.trans (UInt32.add_zero _).symm

theorem PerThreadStats.get_add (a b : PerThreadStats) (i : Counter) : (a + b).get i = a.get i + b.get i := by
  cases i <;> rfl

namespace ManagementObject

variable {maxThreads : Nat}

/-- The value of a counter in a report. -/
def get (o : ManagementObject maxThreads) (i : Counter) : UInt32 := o.aggregatePerThreadStats.get i

theorem get_new (i : Counter) : ({} : ManagementObject maxThreads).get i = 0 := by
  unfold get
  rw [aggregate_new, PerThreadStats.get_zero]

theorem get_eq_sum (o : ManagementObject maxThreads) (i : Counter) :
    o.get i = ∑ idx, (o.getThreadStats idx).get i := by
  let hom : PerThreadStats →+ UInt32 :=
    ⟨⟨fun stats => stats.get i, PerThreadStats.get_zero i⟩, fun a b => a.get_add b i⟩
  unfold get
  rw [aggregate_eq_total, Shards.total_eq_sum]
  exact map_sum hom _ _

/-- The counters of the object are those of its records. -/
theorem get_congr {o o' : ManagementObject maxThreads} {i : Counter}
    (h : ∀ idx, (o'.getThreadStats idx).get i = (o.getThreadStats idx).get i) : o'.get i = o.get i := by
  rw [get_eq_sum, get_eq_sum]
  exact Finset.sum_congr rfl fun idx _ => h idx

theorem get_read (o : ManagementObject maxThreads) (idx : Fin maxThreads) (i : Counter) :
    (o.read idx).get i = o.get i :=
  get_congr fun idx' => by rw [getThreadStats_read]

/-- A call that writes what it has computed from the current counters of its record adds to the totals. -/
theorem get_write {o : ManagementObject maxThreads} {idx : Fin maxThreads} {stats : PerThreadStats}
    (hread : ∀ i, stats.get i = (o.getThreadStats idx).get i) (c : StatCall) (i : Counter) :
    (o.write idx stats c).get i = o.get i + c.delta i := by
  have hslot : ∀ j, ((o.write idx stats c).getThreadStats j).get i =
      (o.getThreadStats j).get i + if j = idx then c.delta i else 0 := by
    intro j
    unfold write
    rw [getThreadStats_setThreadStats]
    by_cases hj : j = idx
    · subst hj
      rw [if_pos rfl, if_pos rfl, PerThreadStats.get_write hread]
    · rw [if_neg hj, if_neg hj, UInt32.add_zero]
  simp only [get_eq_sum, hslot, Finset.sum_add_distrib, Finset.sum_ite_eq', Finset.mem_univ, if_true]

-- two calls on one record that have both read it before
example : ((({} : ManagementObject 1).write 0 {} .incExecutedEnqueue).write 0 {} .incExecutedEnqueue).get
    .executedEnqueue = 1 := by decide +kernel

/-- A report leaves the counters of every record alone. -/
theorem get_getThreadStats_reportStep (o : ManagementObject maxThreads) (idx : Fin maxThreads) (i : Counter) :
    (o.reportStep.1.getThreadStats idx).get i = (o.getThreadStats idx).get i := by
  unfold reportStep
  split
  · rfl
  · split <;> rfl
  · rename_i j _
    split
    · rename_i hj
      unfold getThreadStats
      dsimp only
      by_cases hidx : idx = ⟨j, hj⟩
      · subst hidx
        rw [Function.update_self]
        cases o.perThreadStatsArray ⟨j, hj⟩ with
        | none => rfl
        | some stats => cases i <;> rfl
      · rw [Function.update_of_ne hidx]
    · rfl

end ManagementObject

end BdbMsgStore

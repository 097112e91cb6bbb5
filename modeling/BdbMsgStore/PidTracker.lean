import BdbMsgStore.Lib.TwoLevel
import BdbMsgStore.Lib.Words

/-!
# The tracker of persistence ids

`PidTracker` and `PidRecord` of `PidTracker.cpp`, cut at the lock acquisitions: every definition below is what one
thread does while it holds one of the mutexes.

* `mainRecord` holds the watermark `lastPid`, below which every id has been stored, and the ids above it that were
  stored out of order (`gapPidSet`);
* `dupMap` holds the pairs enqueued under an id that already existed and not yet stored;
* `pendMap` holds the pairs whose store task has not started, for the smart asynchronous mode.

The result of the file is that, as long as the ids stay within `2 ^ 31` of the watermark, `PidRecord.addPid` adds
exactly its argument to the ids the record covers (`PidRecord.addPid_spec`).
-/

namespace BdbMsgStore

open Words

/-- `typedef std::set<uint64_t> MessageIdSet` -/
abbrev MessageIdSet := OrdMap UInt64 Unit

/-- `typedef std::map<uint64_t,MessageIdSet> QMMap` -/
abbrev QMMap := OrdMap UInt64 MessageIdSet

structure PidRecord where
  lastPid : UInt64 := 0
  gapPidSet : MessageIdSet := ∅
  deriving DecidableEq

structure PidTracker where
  dupMap : QMMap := ∅
  pendMap : QMMap := ∅
  mainRecord : PidRecord := {}
  stopped : Bool := false
  deriving DecidableEq

/-! ### The main record -/

/-- One turn of the loop of `addPid` over `gapPidSet`: the least id is taken when it does not exceed the watermark
by more than one. -/
def PidRecord.takeGap (lastPid pid : UInt64) : Option UInt64 :=
  if castInt (pid - lastPid) ≤ 1 then some (max pid lastPid) else none

/-- The part of `addPid` under `pidMutex`, and whether it moved the watermark. -/
def PidRecord.addPid (r : PidRecord) (pid : UInt64) : Bool × PidRecord :=
  if castInt (pid - r.lastPid) > 1 then
    if pid > r.lastPid then (false, { r with gapPidSet := r.gapPidSet.insert pid () }) else (false, r)
  else
    let d := r.gapPidSet.popWhile PidRecord.takeGap (max pid r.lastPid)
    (true, { lastPid := d.2, gapPidSet := d.1 })

/-! ### The tracker -/

namespace PidTracker

/-- `reset`: the watermark is set and the gaps are forgotten. -/
def reset (t : PidTracker) (pid : UInt64) : PidTracker :=
  { t with mainRecord := { lastPid := pid, gapPidSet := ∅ } }

/-- `addDuplicate` -/
def addDuplicate (t : PidTracker) (pid qid : UInt64) : PidTracker :=
  { t with dupMap := TwoLevel.insert t.dupMap qid pid () }

/-- Whether the pair is registered as a duplicate that has not been stored. -/
def isDuplicate (t : PidTracker) (pid qid : UInt64) : Bool := (TwoLevel.find? t.dupMap qid pid).isSome

/-- The part of `addPid` under `dupMutex`; the result is the local variable `updated`. -/
def addPidDup (t : PidTracker) (pid qid : UInt64) : Bool × PidTracker :=
  if t.isDuplicate pid qid then (true, { t with dupMap := TwoLevel.erase t.dupMap qid pid }) else (false, t)

/-- The part of `addPid` under `mainRecord.pidMutex`, run when the pair was not a duplicate. -/
def addPidMain (t : PidTracker) (pid : UInt64) : PidTracker :=
  { t with mainRecord := (t.mainRecord.addPid pid).2 }

/-- Whether the pair is registered as waiting for its store task. -/
def isPending (t : PidTracker) (pid qid : UInt64) : Bool := (TwoLevel.find? t.pendMap qid pid).isSome

/-- `willEnqueue` -/
def willEnqueue (t : PidTracker) (pid qid : UInt64) : PidTracker :=
  { t with pendMap := TwoLevel.insert t.pendMap qid pid () }

/-- `dequeueCheck`: `false` when the store task has not started, and then the pair is taken from it. -/
def dequeueCheck (t : PidTracker) (pid qid : UInt64) : Bool × PidTracker :=
  if t.isPending pid qid then (false, { t with pendMap := TwoLevel.eraseKeep t.pendMap qid pid }) else (true, t)

/-- `enqueueCheck`: `true` when no dequeue has taken the pair. -/
def enqueueCheck (t : PidTracker) (pid qid : UInt64) : Bool × PidTracker :=
  if t.isPending pid qid then (true, { t with pendMap := TwoLevel.eraseKeep t.pendMap qid pid }) else (false, t)

end PidTracker

/-- Where a call of `waitForPid` stands: about to test one of its two conditions, asleep on the condition
variable, or back with its result.  The number is `try_count`. -/
inductive WaitPc where
  | dupTest (tryCount : Nat)
  | dupWait (tryCount : Nat)
  | mainTest (tryCount : Nat)
  | mainWait (tryCount : Nat)
  | returned (result : Int)
  deriving DecidableEq, Repr

/-- One step of `waitForPid`: a test under its lock, or a wake-up (which need not follow a notification). -/
def PidTracker.waitForPid (t : PidTracker) (pid qid : UInt64) : WaitPc → WaitPc
  | .dupTest n =>
    if t.isDuplicate pid qid then .dupWait n
    else if n > 100 then .returned (-1) else .mainTest n
  | .dupWait n =>
    if t.stopped then .returned (-2)
    else if n + 1 > 100 then .returned (-1) else .dupTest (n + 1)
  | .mainTest n => if pid > t.mainRecord.lastPid then .mainWait n else .returned n
  | .mainWait n =>
    if t.stopped then .returned (-2)
    else if n + 1 > 100 then .returned (-1) else .mainTest (n + 1)
  | .returned r => .returned r

/-! ### Membership after the operations -/

namespace PidTracker

variable (t : PidTracker) (pid pid' qid qid' : UInt64)

theorem isDuplicate_addDuplicate :
    (t.addDuplicate pid qid).isDuplicate pid' qid' =
      if qid' = qid ∧ pid' = pid then true else t.isDuplicate pid' qid' := by
  unfold addDuplicate isDuplicate
  rw [TwoLevel.find?_insert]
  split <;> rfl

theorem addPidDup_fst : (t.addPidDup pid qid).1 = t.isDuplicate pid qid := by
  unfold addPidDup
  split <;> simp_all

theorem isDuplicate_addPidDup :
    (t.addPidDup pid qid).2.isDuplicate pid' qid' =
      if qid' = qid ∧ pid' = pid then false else t.isDuplicate pid' qid' := by
  unfold addPidDup
  split
  · unfold isDuplicate
    rw [TwoLevel.find?_erase]
    split <;> rfl
  · rename_i hn
    split
    · rename_i h
      rw [h.1, h.2]
      simpa using hn
    · rfl

theorem isPending_willEnqueue :
    (t.willEnqueue pid qid).isPending pid' qid' =
      if qid' = qid ∧ pid' = pid then true else t.isPending pid' qid' := by
  unfold willEnqueue isPending
  rw [TwoLevel.find?_insert]
  split <;> rfl

theorem enqueueCheck_fst : (t.enqueueCheck pid qid).1 = t.isPending pid qid := by
  unfold enqueueCheck
  split <;> simp_all

theorem dequeueCheck_fst : (t.dequeueCheck pid qid).1 = !t.isPending pid qid := by
  unfold dequeueCheck
  split <;> simp_all

/-- Both checks leave the same tracker behind. -/
theorem dequeueCheck_snd : (t.dequeueCheck pid qid).2 = (t.enqueueCheck pid qid).2 := by
  unfold dequeueCheck enqueueCheck
  split <;> rfl

theorem isPending_enqueueCheck :
    (t.enqueueCheck pid qid).2.isPending pid' qid' =
      if qid' = qid ∧ pid' = pid then false else t.isPending pid' qid' := by
  unfold enqueueCheck
  split
  · unfold isPending
    rw [TwoLevel.find?_eraseKeep]
    split <;> rfl
  · rename_i hn
    split
    · rename_i h
      rw [h.1, h.2]
      simpa using hn
    · rfl

@[simp] theorem isPending_addDuplicate : (t.addDuplicate pid qid).isPending pid' qid' = t.isPending pid' qid' := rfl

@[simp] theorem isPending_addPidDup : (t.addPidDup pid qid).2.isPending pid' qid' = t.isPending pid' qid' := by
  unfold addPidDup; split <;> rfl

@[simp] theorem isDuplicate_willEnqueue :
    (t.willEnqueue pid qid).isDuplicate pid' qid' = t.isDuplicate pid' qid' := rfl

@[simp] theorem isDuplicate_enqueueCheck :
    (t.enqueueCheck pid qid).2.isDuplicate pid' qid' = t.isDuplicate pid' qid' := by
  unfold enqueueCheck; split <;> rfl

@[simp] theorem mainRecord_addDuplicate : (t.addDuplicate pid qid).mainRecord = t.mainRecord := rfl

@[simp] theorem mainRecord_addPidDup : (t.addPidDup pid qid).2.mainRecord = t.mainRecord := by
  unfold addPidDup; split <;> rfl

@[simp] theorem mainRecord_willEnqueue : (t.willEnqueue pid qid).mainRecord = t.mainRecord := rfl

@[simp] theorem mainRecord_enqueueCheck : (t.enqueueCheck pid qid).2.mainRecord = t.mainRecord := by
  unfold enqueueCheck; split <;> rfl

@[simp] theorem stopped_addPidDup : (t.addPidDup pid qid).2.stopped = t.stopped := by
  unfold addPidDup; split <;> rfl

@[simp] theorem stopped_enqueueCheck : (t.enqueueCheck pid qid).2.stopped = t.stopped := by
  unfold enqueueCheck; split <;> rfl

@[simp] theorem isDuplicate_addPidMain : (t.addPidMain pid).isDuplicate pid' qid' = t.isDuplicate pid' qid' := by
  unfold addPidMain isDuplicate; rfl

@[simp] theorem isPending_addPidMain : (t.addPidMain pid).isPending pid' qid' = t.isPending pid' qid' := by
  unfold addPidMain isPending; rfl

end PidTracker

/-! ### What the main record covers -/

namespace PidRecord

/-- The ids the record knows to be stored: those up to the watermark and those of the gap set. -/
def Covers (r : PidRecord) (p : UInt64) : Prop := p ≤ r.lastPid ∨ r.gapPidSet.contains p

/-- The gap set starts beyond the successor of the watermark, and stays within reach of the `int` difference. -/
def Sound (r : PidRecord) : Prop :=
  ∀ g, r.gapPidSet.contains g → r.lastPid.toNat + 1 < g.toNat ∧ g.toNat < r.lastPid.toNat + 2 ^ 31

private theorem toNat_sub_of_lt {a b : UInt64} (h : a.toNat < b.toNat) : (b - a).toNat = b.toNat - a.toNat :=
  UInt64.toNat_sub_of_le _ _ (UInt64.le_iff_toNat_le.2 (by omega))

private theorem castInt_sub_of_lt {a b : UInt64} (h : a.toNat < b.toNat) (hw : b.toNat < a.toNat + 2 ^ 31) :
    castInt (b - a) = b.toNat - a.toNat := by
  rw [castInt_of_lt (by rw [toNat_sub_of_lt h]; omega), toNat_sub_of_lt h]
  omega

/-- The loop over the gap set: it moves the watermark over the ids that follow it and stops at the first gap. -/
private theorem popEntries_takeGap {l : List (UInt64 × Unit)} {n : UInt64}
    (hs : l.Pairwise (fun a b => a.1 < b.1))
    (hl : ∀ e ∈ l, n.toNat < e.1.toNat ∧ e.1.toNat < n.toNat + 2 ^ 31) :
    let d := OrdMap.popEntries takeGap l n
    n ≤ d.2 ∧ (∀ e ∈ d.1, d.2.toNat + 1 < e.1.toNat ∧ e ∈ l) ∧
      ∀ x : UInt64, (x ≤ d.2 ∨ (x, ()) ∈ d.1) ↔ (x ≤ n ∨ (x, ()) ∈ l) := by
  induction l generalizing n with
  | nil => simp [OrdMap.popEntries]
  | cons a l ih =>
    obtain ⟨g, u⟩ := a
    rw [List.pairwise_cons] at hs
    obtain ⟨hg, hgw⟩ : n.toNat < g.toNat ∧ g.toNat < n.toNat + 2 ^ 31 := hl (g, u) (by simp)
    have hcast := castInt_sub_of_lt hg hgw
    have hmax : max g n = g := max_eq_left (UInt64.le_iff_toNat_le.2 (by simpa using Nat.le_of_lt hg))
    by_cases hnext : g.toNat = n.toNat + 1
    · -- the least gap id follows the watermark: it is taken
      have hstep : takeGap n g = some g := by
        unfold takeGap
        rw [hcast, hmax, if_pos (by omega)]
      have hl' : ∀ e ∈ l, g.toNat < e.1.toNat ∧ e.1.toNat < g.toNat + 2 ^ 31 := by
        intro e he
        have h1 := UInt64.lt_iff_toNat_lt.1 (hs.1 e he)
        have h2 := (hl e (List.mem_cons_of_mem _ he)).2
        exact ⟨h1, by omega⟩
      obtain ⟨ih1, ih2, ih3⟩ := ih hs.2 hl'
      rw [OrdMap.popEntries_cons_some hstep]
      refine ⟨le_trans (UInt64.le_iff_toNat_le.2 (by omega)) ih1, ?_, ?_⟩
      · intro e he
        exact ⟨(ih2 e he).1, List.mem_cons_of_mem _ (ih2 e he).2⟩
      · intro x
        rw [ih3 x]
        have hx : x ≤ g ↔ x ≤ n ∨ x = g := by
          rw [UInt64.le_iff_toNat_le, UInt64.le_iff_toNat_le, ← UInt64.toNat_inj]
          omega
        simp only [hx, List.mem_cons, Prod.mk.injEq, and_true]
        exact or_assoc
    · -- the least gap id leaves a hole: the loop stops
      have hstep : takeGap n g = none := by
        unfold takeGap
        rw [hcast, if_neg (by omega)]
      rw [OrdMap.popEntries_cons_none hstep]
      refine ⟨le_refl _, ?_, fun _ => Iff.rfl⟩
      intro e he
      refine ⟨?_, he⟩
      rcases List.mem_cons.1 he with rfl | he'
      · simp only; omega
      · have := UInt64.lt_iff_toNat_lt.1 (hs.1 e he')
        simp only at this ⊢
        omega

/-- An id within reach of the watermark is added to what the record covers, and nothing else is.  The watermark
never moves back. -/
theorem addPid_spec {r : PidRecord} (hr : r.Sound) {pid : UInt64} (hw : pid.toNat < r.lastPid.toNat + 2 ^ 31) :
    (r.addPid pid).2.Sound ∧ r.lastPid ≤ (r.addPid pid).2.lastPid ∧
      ∀ x, (r.addPid pid).2.Covers x ↔ r.Covers x ∨ x = pid := by
  unfold addPid
  rcases Nat.lt_or_ge r.lastPid.toNat pid.toNat with hlt | hge
  · have hcast := castInt_sub_of_lt hlt hw
    have hgt : pid > r.lastPid := UInt64.lt_iff_toNat_lt.2 hlt
    rw [hcast]
    by_cases hnext : pid.toNat = r.lastPid.toNat + 1
    · -- the id follows the watermark, and the loop takes the gap ids that follow it
      rw [if_neg (by omega), max_eq_left (le_of_lt hgt)]
      obtain ⟨h1, h2, h3⟩ := popEntries_takeGap (l := r.gapPidSet.entries) (n := pid) r.gapPidSet.sorted (by
        intro e he
        have := hr e.1 (OrdMap.mem_unit.2 he)
        omega)
      refine ⟨?_, le_trans (le_of_lt hgt) h1, ?_⟩
      · intro g hg
        obtain ⟨h4, h5⟩ := h2 (g, ()) (OrdMap.mem_unit.1 hg)
        have h6 := (hr g (OrdMap.mem_unit.2 h5)).2
        have h7 := UInt64.le_iff_toNat_le.1 h1
        exact ⟨h4, by simp only [OrdMap.popWhile] at h4 ⊢; omega⟩
      · intro x
        unfold Covers
        rw [OrdMap.mem_unit, OrdMap.mem_unit]
        refine (h3 x).trans ?_
        have hx : x ≤ pid ↔ x ≤ r.lastPid ∨ x = pid := by
          rw [UInt64.le_iff_toNat_le, UInt64.le_iff_toNat_le, ← UInt64.toNat_inj]
          omega
        rw [hx]
        exact or_right_comm
    · -- the id leaves a hole below it: it goes to the gap set
      rw [if_pos (by omega), if_pos hgt]
      refine ⟨?_, le_refl _, ?_⟩
      · intro g hg
        simp only [OrdMap.contains, OrdMap.find?_insert] at hg
        split at hg
        · rename_i h; subst h; simp only; omega
        · exact hr g hg
      · intro x
        unfold Covers
        simp only [OrdMap.contains, OrdMap.find?_insert]
        split
        · rename_i h; simp [h]
        · rename_i h; simp [h]
  · -- an id at or below the watermark changes nothing
    have hle : pid ≤ r.lastPid := UInt64.le_iff_toNat_le.2 hge
    have hcov : ∀ x, r.Covers x ↔ r.Covers x ∨ x = pid := by
      intro x
      refine ⟨Or.inl, ?_⟩
      rintro (h | rfl)
      · exact h
      · exact Or.inl hle
    split
    · rw [if_neg (not_lt.2 hle)]
      exact ⟨hr, le_refl _, hcov⟩
    · rw [max_eq_right hle]
      have hpop : r.gapPidSet.popWhile takeGap r.lastPid = (r.gapPidSet, r.lastPid) := by
        have hstop : OrdMap.popEntries takeGap r.gapPidSet.entries r.lastPid =
            (r.gapPidSet.entries, r.lastPid) := by
          rcases he : r.gapPidSet.entries with _ | ⟨⟨g, u⟩, l⟩
          · rfl
          · have hg := hr g (OrdMap.mem_unit.2 (by rw [he]; simp))
            have : takeGap r.lastPid g = none := by
              unfold takeGap
              rw [castInt_sub_of_lt (by omega) hg.2, if_neg (by omega)]
            rw [OrdMap.popEntries_cons_none this]
        unfold OrdMap.popWhile
        simp only [hstop]
      rw [hpop]
      exact ⟨hr, le_refl _, hcov⟩

/-- A sound record whose ids above the base `b` are all covered has its watermark at the last of them. -/
theorem le_lastPid_of_covers {r : PidRecord} (hr : r.Sound) {b n : UInt64} (hb : b ≤ r.lastPid)
    (h : ∀ p, b < p → p ≤ n → r.Covers p) : n ≤ r.lastPid := by
  by_contra hn
  have hlt : r.lastPid.toNat < n.toNat := UInt64.lt_iff_toNat_lt.1 (not_le.1 hn)
  -- the successor of the watermark would be covered, but the gap set starts beyond it
  have hsucc : (r.lastPid + 1).toNat = r.lastPid.toNat + 1 := by
    rw [UInt64.toNat_add]
    have := n.toNat_lt
    exact Nat.mod_eq_of_lt (by simp only [UInt64.reduceToNat]; omega)
  have hcov := h (r.lastPid + 1)
    (UInt64.lt_iff_toNat_lt.2 (by have := UInt64.le_iff_toNat_le.1 hb; omega))
    (UInt64.le_iff_toNat_le.2 (by omega))
  rcases hcov with hc | hc
  · have := UInt64.le_iff_toNat_le.1 hc
    omega
  · have := (hr _ hc).1
    omega

end PidRecord

end BdbMsgStore

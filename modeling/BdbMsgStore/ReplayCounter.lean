import BdbMsgStore.LogReplay
import BdbMsgStore.Lib.KeyWords

/-!
# The replay of a log as a counter for each key

`extractPendingEnqueueFromFile` and `extractPendingDequeueFromFile` keep two nested maps.  They stay disjoint and
without empty submaps, and membership in them is, for each key on its own, a counter that saturates at `1` and at `-1`
(`Saturates`).  So the two functions agree on the keys whatever their records carry
(`SameKeys.extractPendingFromFile`).
-/

namespace BdbMsgStore

open KeyedLog

namespace LogFormat

variable {α β : Type}

namespace Extracted

/-- No key is both pending and lost, and no submap is empty. -/
structure Proper (x : Extracted α) : Prop where
  disjoint : x.Disjoint
  pending_trim : TwoLevel.Trim x.pending
  lost_trim : TwoLevel.Trim x.lost

/-- The set of keys of the map of pending operations. -/
def pendingKeys (x : Extracted α) : Set PendingOperationId := {k | (TwoLevel.find? x.pending k.2 k.1).isSome}

/-- The set of keys of the map of lost completions. -/
def lostKeys (x : Extracted α) : Set PendingOperationId := {k | (TwoLevel.find? x.lost k.2 k.1).isSome}

/-- `1` for a pending key, `-1` for a lost one and `0` for the others. -/
def value (x : Extracted α) (k : PendingOperationId) : Int :=
  if (TwoLevel.find? x.pending k.2 k.1).isSome then 1
  else if (TwoLevel.find? x.lost k.2 k.1).isSome then -1 else 0

/-- The same keys are pending, and the same keys are lost. -/
def SameKeys (x : Extracted α) (y : Extracted β) : Prop := x.pendingKeys = y.pendingKeys ∧ x.lostKeys = y.lostKeys

theorem level_status (x : Extracted α) (k : PendingOperationId) : (x.status k).level = x.value k := by
  unfold status value
  cases TwoLevel.find? x.pending k.2 k.1 with
  | none => cases TwoLevel.find? x.lost k.2 k.1 <;> rfl
  | some a => rfl

theorem mem_pendingKeys_iff {x : Extracted α} {k : PendingOperationId} : k ∈ x.pendingKeys ↔ x.value k = 1 := by
  unfold pendingKeys value
  rw [Set.mem_ofPred_eq]
  split
  · simp_all
  · split <;> simp_all

theorem mem_lostKeys_iff {x : Extracted α} (hx : x.Disjoint) {k : PendingOperationId} :
    k ∈ x.lostKeys ↔ x.value k = -1 := by
  have hdis := hx k
  unfold lostKeys value
  rw [Set.mem_ofPred_eq]
  split
  · simp_all
  · split <;> simp_all

theorem neither_iff {x : Extracted α} {k : PendingOperationId} :
    k ∉ x.pendingKeys ∧ k ∉ x.lostKeys ↔ x.value k = 0 := by
  unfold pendingKeys lostKeys value
  rw [Set.mem_ofPred_eq, Set.mem_ofPred_eq]
  split
  · simp_all
  · split <;> simp_all

theorem SameKeys.value {x : Extracted α} {y : Extracted β} (h : x.SameKeys y) (k : PendingOperationId) :
    x.value k = y.value k := by
  have hp : (TwoLevel.find? x.pending k.2 k.1).isSome = true ↔ (TwoLevel.find? y.pending k.2 k.1).isSome = true :=
    Set.ext_iff.1 h.1 k
  have hl : (TwoLevel.find? x.lost k.2 k.1).isSome = true ↔ (TwoLevel.find? y.lost k.2 k.1).isSome = true :=
    Set.ext_iff.1 h.2 k
  unfold Extracted.value
  simp only [hp, hl]

theorem sameKeys_of_value {x : Extracted α} {y : Extracted β} (hx : x.Disjoint) (hy : y.Disjoint)
    (h : ∀ k, x.value k = y.value k) : x.SameKeys y := by
  constructor
  · ext k
    rw [mem_pendingKeys_iff, mem_pendingKeys_iff, h k]
  · ext k
    rw [mem_lostKeys_iff hx, mem_lostKeys_iff hy, h k]

end Extracted

open Extracted

variable (F : LogFormat α)

/-! ### One record, then all of them -/

theorem Extracted.proper_empty : (Extracted.empty : Extracted α).Proper :=
  ⟨fun _ _ => rfl, TwoLevel.trim_empty, TwoLevel.trim_empty⟩

theorem proper_readRecord {x : Extracted α} (hx : x.Proper) (r : LogRecord α) : (F.readRecord x r).Proper := by
  obtain ⟨hdis, hpend, hlost⟩ := hx
  refine ⟨F.disjoint_readRecord hdis r, ?_, ?_⟩
  · cases r with
    | start k a =>
      show TwoLevel.Trim (F.readStartRecord x a).pending
      unfold readStartRecord
      dsimp only
      split
      · exact hpend
      · exact hpend.insert _ _ _
    | complete k =>
      show TwoLevel.Trim (readCompleteRecord x k).pending
      unfold readCompleteRecord
      split
      · exact hpend.erase _ _
      · exact hpend
  · cases r with
    | start k a =>
      show TwoLevel.Trim (F.readStartRecord x a).lost
      unfold readStartRecord
      dsimp only
      split
      · exact hlost.erase _ _
      · exact hlost
    | complete k =>
      show TwoLevel.Trim (readCompleteRecord x k).lost
      unfold readCompleteRecord
      split
      · exact hlost
      · exact hlost.insert _ _ _

theorem proper_foldl {x : Extracted α} (hx : x.Proper) (rs : List (LogRecord α)) :
    (rs.foldl F.readRecord x).Proper := by
  induction rs generalizing x with
  | nil => exact hx
  | cons r rs ih => exact ih (F.proper_readRecord hx r)

theorem value_foldl {x : Extracted α} (hx : x.Disjoint) {rs : List (LogRecord α)} (hrs : ∀ r ∈ rs, F.Keyed r)
    (k : PendingOperationId) : (rs.foldl F.readRecord x).value k = counter (x.value k) (recordsOf k rs) := by
  rw [← level_status, F.status_foldl hx hrs, level_replay, level_status]

/-! ### The counter of a key -/

/-- What the maps are after a file of the records `rs` was read into `x`. -/
structure Saturates (x : Extracted α) (rs : List (LogRecord α)) : Prop where
  proper : (F.extractPendingFromFile (F.encodeAll rs) x).Proper
  pending_iff : ∀ k, k ∈ (F.extractPendingFromFile (F.encodeAll rs) x).pendingKeys ↔
    counter (x.value k) (recordsOf k rs) = 1
  lost_iff : ∀ k, k ∈ (F.extractPendingFromFile (F.encodeAll rs) x).lostKeys ↔
    counter (x.value k) (recordsOf k rs) = -1
  neither_iff : ∀ k, k ∉ (F.extractPendingFromFile (F.encodeAll rs) x).pendingKeys ∧
    k ∉ (F.extractPendingFromFile (F.encodeAll rs) x).lostKeys ↔ counter (x.value k) (recordsOf k rs) = 0
  -- the operation was pending throughout, or comes from the start that last moved the key from 0 to 1
  payload : ∀ k a, TwoLevel.find? (F.extractPendingFromFile (F.encodeAll rs) x).pending k.2 k.1 = some a ↔
    (TwoLevel.find? x.pending k.2 k.1 = some a ∧ ∀ l, l <+: recordsOf k rs → counter (x.value k) l = 1) ∨
      ∃ l₁ k' l₂, recordsOf k rs = l₁ ++ .start k' a :: l₂ ∧ counter (x.value k) l₁ = 0 ∧
        ∀ l, l <+: l₂ → counter 1 l = 1

theorem saturates {x : Extracted α} (hx : x.Proper) {rs : List (LogRecord α)} (hrs : ∀ r ∈ rs, F.Keyed r) :
    F.Saturates x rs := by
  have hvalue := F.value_foldl hx.disjoint hrs
  have hproper := F.proper_foldl hx rs
  constructor
  all_goals rw [extractPendingFromFile_encode]
  · exact hproper
  · intro k
    rw [mem_pendingKeys_iff, hvalue]
  · intro k
    rw [mem_lostKeys_iff hproper.disjoint, hvalue]
  · intro k
    rw [Extracted.neither_iff, hvalue]
  · intro k a
    rw [← status_eq_pending, F.status_foldl hx.disjoint hrs, replay_eq_pending_iff, level_status, status_eq_pending]

/-! ### Two logs with the same sequence of keys -/

/-- The keys and the kinds of the records, without what a start carries. -/
def shape (rs : List (LogRecord α)) : List (PendingOperationId × Bool) := rs.map fun r => (r.key, r.isStart)

private theorem counter_eq_of_shape {rs : List (LogRecord α)} {rs' : List (LogRecord β)} (h : shape rs = shape rs')
    (k : PendingOperationId) (n : Int) : counter n (recordsOf k rs) = counter n (recordsOf k rs') := by
  induction rs generalizing rs' n with
  | nil =>
    obtain rfl : rs' = [] := List.map_eq_nil_iff.1 h.symm
    rfl
  | cons r rs ih =>
    cases rs' with
    | nil => cases h
    | cons r' rs' =>
      obtain ⟨hr, hrest⟩ := List.cons.inj h
      obtain ⟨hkey, hstart⟩ := Prod.ext_iff.1 hr
      dsimp only at hkey hstart
      unfold recordsOf at ih ⊢
      by_cases hk : r.key = k
      · rw [List.filter_cons_of_pos (by simpa using hk), List.filter_cons_of_pos (by simpa [← hkey] using hk)]
        have hcount : countRecord n r = countRecord n r' := by
          unfold countRecord
          rw [hstart]
        show counter (countRecord n r) _ = counter (countRecord n r') _
        rw [hcount]
        exact ih hrest _
      · rw [List.filter_cons_of_neg (by simpa using hk), List.filter_cons_of_neg (by simpa [← hkey] using hk)]
        exact ih hrest n

/-- Two readers that begin with the same keys and read the same sequence of keys end with the same keys. -/
theorem Extracted.SameKeys.extractPendingFromFile {F : LogFormat α} {G : LogFormat β} {x : Extracted α}
    {y : Extracted β} (hxy : x.SameKeys y) (hx : x.Proper) (hy : y.Proper) {rs : List (LogRecord α)}
    {rs' : List (LogRecord β)} (hrs : ∀ r ∈ rs, F.Keyed r) (hrs' : ∀ r ∈ rs', G.Keyed r) (h : shape rs = shape rs') :
    (F.extractPendingFromFile (F.encodeAll rs) x).SameKeys (G.extractPendingFromFile (G.encodeAll rs') y) := by
  rw [extractPendingFromFile_encode, extractPendingFromFile_encode]
  refine sameKeys_of_value (F.proper_foldl hx rs).disjoint (G.proper_foldl hy rs').disjoint fun k => ?_
  rw [F.value_foldl hx.disjoint hrs, G.value_foldl hy.disjoint hrs', hxy.value k, counter_eq_of_shape h]

end LogFormat

open LogFormat

/-- The replay loops of `extractPendingEnqueueFromFile` and of `extractPendingDequeueFromFile` are counters for each
key, and they agree on the keys when they read the same sequence of keys. -/
theorem extractPending_saturates (aeset : Extracted PendingAsyncEnqueue) (adset : Extracted PendingAsyncDequeue)
    (haeset : aeset.Proper) (hadset : adset.Proper) (es : List (LogRecord PendingAsyncEnqueue))
    (ds : List (LogRecord PendingAsyncDequeue)) (hes : ∀ r ∈ es, enqueueFormat.Keyed r)
    (hds : ∀ r ∈ ds, dequeueFormat.Keyed r) :
    enqueueFormat.Saturates aeset es ∧ dequeueFormat.Saturates adset ds ∧
      (aeset.SameKeys adset → shape es = shape ds →
        (enqueueFormat.extractPendingFromFile (enqueueFormat.encodeAll es) aeset).SameKeys
          (dequeueFormat.extractPendingFromFile (dequeueFormat.encodeAll ds) adset)) :=
  ⟨saturates _ haeset hes, saturates _ hadset hds,
    fun hsame hshape => hsame.extractPendingFromFile haeset hadset hes hds hshape⟩

/-- One queue with a pending and a lost message: the pending one is completed and started again with another payload,
and the lost one is started. -/
theorem extractPending_saturates_restarted :
    let pae (pid : UInt64) (b : UInt8) : LogRecord PendingAsyncEnqueue :=
      .start (pid, 7) ⟨⟨pid, 7⟩, [b], 1, false, rfl, (by decide : 1 ≤ maxBuffSize)⟩
    let pad (pid : UInt64) : LogRecord PendingAsyncDequeue := .start (pid, 7) ⟨⟨pid, 7⟩⟩
    let aeset := enqueueFormat.extractPendingFromFile (enqueueFormat.encodeAll [pae 1 10, .complete (2, 7)]) .empty
    let adset := dequeueFormat.extractPendingFromFile (dequeueFormat.encodeAll [pad 1, .complete (2, 7)]) .empty
    let es := [.complete (1, 7), pae 1 20, pae 2 30]
    let ds := [.complete (1, 7), pad 1, pad 2]
    let y := enqueueFormat.extractPendingFromFile (enqueueFormat.encodeAll es) aeset
    (enqueueFormat.Saturates aeset es ∧ dequeueFormat.Saturates adset ds ∧
      y.SameKeys (dequeueFormat.extractPendingFromFile (dequeueFormat.encodeAll ds) adset)) ∧
      y.value (1, 7) = 1 ∧ y.value (2, 7) = 0 := by
  intro pae pad aeset adset es ds y
  have hes₀ : ∀ r ∈ [pae 1 10, .complete (2, 7)], enqueueFormat.Keyed r := by
    simp [pae, Keyed, opId, enqueueFormat, PendingAsyncOperation.opId]
  have hds₀ : ∀ r ∈ [pad 1, .complete (2, 7)], dequeueFormat.Keyed r := by
    simp [pad, Keyed, opId, dequeueFormat, PendingAsyncOperation.opId]
  have hempty : (Extracted.empty : Extracted PendingAsyncEnqueue).SameKeys
      (Extracted.empty : Extracted PendingAsyncDequeue) := ⟨rfl, rfl⟩
  have hsame : aeset.SameKeys adset :=
    hempty.extractPendingFromFile Extracted.proper_empty Extracted.proper_empty hes₀ hds₀ rfl
  have h := extractPending_saturates aeset adset (saturates _ Extracted.proper_empty hes₀).proper
    (saturates _ Extracted.proper_empty hds₀).proper es ds
    (by simp [es, pae, Keyed, opId, enqueueFormat, PendingAsyncOperation.opId])
    (by simp [ds, pad, Keyed, opId, dequeueFormat, PendingAsyncOperation.opId])
  exact ⟨⟨h.1, h.2.1, h.2.2 hsame rfl⟩, by decide +kernel, by decide +kernel⟩

end BdbMsgStore

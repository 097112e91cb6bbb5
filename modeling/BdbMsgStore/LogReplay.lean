import BdbMsgStore.AsyncOperationLogger
import BdbMsgStore.Lib.KeyedLog

/-!
# Reading a log back

A file that holds whole records is read record by record (`extractPendingFromFile_encode`), and what a record does
to the two nested maps is, for each key on its own, the step of `KeyedLog.KeyState` (`status_readRecord`).  So reading
the files of a log is `KeyedLog.replayKey` of their records (`recoverAsync_find?`).
-/

namespace BdbMsgStore

open KeyedLog

namespace LogFormat

variable {α : Type} (F : LogFormat α)

abbrev LogRecord (α : Type) := Record PendingOperationId α

/-- The bytes of a record. -/
def encode : LogRecord α → Bytes
  | .start _ a => F.startRecord a
  | .complete k => F.completeRecord k

/-- The bytes of a sequence of records. -/
def encodeAll (rs : List (LogRecord α)) : Bytes := rs.flatMap F.encode

/-- A start record is filed under the ids it contains. -/
def Keyed : LogRecord α → Prop
  | .start k a => k = F.opId a
  | .complete _ => True

/-- The effect of one record on the maps. -/
def readRecord (x : Extracted α) : LogRecord α → Extracted α
  | .start _ a => F.readStartRecord x a
  | .complete k => readCompleteRecord x k

@[simp] theorem encodeAll_nil : F.encodeAll [] = [] := rfl

theorem encodeAll_append (rs rs' : List (LogRecord α)) :
    F.encodeAll (rs ++ rs') = F.encodeAll rs ++ F.encodeAll rs' := List.flatMap_append

/-! ### From bytes to records -/

/-- A whole record is read, whatever follows it. -/
theorem extractLoop_encode (r : LogRecord α) (rest : Bytes) (x : Extracted α) (fuel : Nat) :
    F.extractLoop (fuel + 1) (F.encode r ++ rest) x = F.extractLoop fuel rest (F.readRecord x r) := by
  cases r with
  | start k a =>
    show F.extractLoop (fuel + 1) (F.startOp :: (F.startBytes a ++ rest)) x = _
    have hthrows : F.startThrows (F.startBytes a ++ rest) = false := F.startThrows_of_prefix List.prefix_rfl
    simp only [extractLoop, ↓reduceIte, hthrows, Bool.false_eq_true, F.readStart_startBytes]
    rfl
  | complete k =>
    show F.extractLoop (fuel + 1) (F.completeOp :: (idBytes k ++ rest)) x = _
    simp only [extractLoop, F.startOp_ne.symm, ↓reduceIte, readIds_idBytes]
    rfl

/-- A record throws nothing. -/
theorem thrown_foldl (rs : List (LogRecord α)) (x : Extracted α) : (rs.foldl F.readRecord x).thrown = x.thrown := by
  induction rs generalizing x with
  | nil => rfl
  | cons r rs ih =>
    rw [List.foldl_cons, ih]
    cases r with
    | start k a =>
      show (F.readStartRecord x a).thrown = _
      unfold readStartRecord
      dsimp only
      split <;> rfl
    | complete k =>
      show (readCompleteRecord x k).thrown = _
      unfold readCompleteRecord
      split <;> rfl

theorem encode_length_pos (r : LogRecord α) : 0 < (F.encode r).length := by
  cases r <;> simp [encode, startRecord, completeRecord]

/-- A file of whole records is read record by record. -/
theorem extractPendingFromFile_encode (rs : List (LogRecord α)) (x : Extracted α) :
    F.extractPendingFromFile (F.encodeAll rs) x = rs.foldl F.readRecord x := by
  have h : ∀ fuel, (F.encodeAll rs).length ≤ fuel →
      F.extractLoop fuel (F.encodeAll rs) x = rs.foldl F.readRecord x := by
    induction rs generalizing x with
    | nil => intro fuel _; cases fuel <;> rfl
    | cons r rs ih =>
      intro fuel hf
      have hcons : F.encodeAll (r :: rs) = F.encode r ++ F.encodeAll rs := List.flatMap_cons
      have hpos := F.encode_length_pos r
      rw [hcons, List.length_append] at hf
      obtain ⟨fuel', rfl⟩ : ∃ n, fuel = n + 1 := ⟨fuel - 1, by omega⟩
      rw [hcons, extractLoop_encode, List.foldl_cons]
      exact ih _ _ (by omega)
  exact h _ (Nat.le_refl _)

/-! ### From the nested maps to the state of a key -/

namespace Extracted

/-- What the two maps say about a key. -/
def status (x : Extracted α) (k : PendingOperationId) : KeyState α :=
  match TwoLevel.find? x.pending k.2 k.1, TwoLevel.find? x.lost k.2 k.1 with
  | some a, _ => .pending a
  | none, some _ => .lost
  | none, none => .idle

/-- No key is both pending and lost. -/
def Disjoint (x : Extracted α) : Prop :=
  ∀ k : PendingOperationId, (TwoLevel.find? x.pending k.2 k.1).isSome → TwoLevel.find? x.lost k.2 k.1 = none

/-- No key is both pending and lost, and every entry is filed under its own ids. -/
structure WF (x : Extracted α) : Prop where
  disjoint : ∀ k : PendingOperationId, (TwoLevel.find? x.pending k.2 k.1).isSome →
    TwoLevel.find? x.lost k.2 k.1 = none
  pending_key : ∀ (k : PendingOperationId) a, TwoLevel.find? x.pending k.2 k.1 = some a → F.opId a = k
  lost_key : ∀ (k : PendingOperationId) o, TwoLevel.find? x.lost k.2 k.1 = some o → o.opId = k

theorem wf_empty : WF F (Extracted.empty : Extracted α) :=
  ⟨fun _ _ => rfl, fun _ _ h => by simp [Extracted.empty] at h, fun _ _ h => by simp [Extracted.empty] at h⟩

@[simp] theorem status_empty (k : PendingOperationId) : (Extracted.empty : Extracted α).status k = .idle := rfl

theorem status_eq_pending {x : Extracted α} {k : PendingOperationId} {a : α} :
    x.status k = .pending a ↔ TwoLevel.find? x.pending k.2 k.1 = some a := by
  unfold status
  split <;> simp_all

theorem pending?_status (x : Extracted α) (k : PendingOperationId) :
    (x.status k).pending? = TwoLevel.find? x.pending k.2 k.1 := by
  unfold status
  cases TwoLevel.find? x.pending k.2 k.1 with
  | none => cases TwoLevel.find? x.lost k.2 k.1 <;> rfl
  | some a => rfl

theorem status_eq_lost {x : Extracted α} (hx : x.WF F) {k : PendingOperationId} :
    x.status k = .lost ↔ ∃ o, TwoLevel.find? x.lost k.2 k.1 = some o := by
  have := hx.disjoint k
  unfold status
  split <;> simp_all

end Extracted

open Extracted

private theorem pair_eq_iff {k k' : PendingOperationId} : (k'.2 = k.2 ∧ k'.1 = k.1) ↔ k' = k :=
  ⟨fun h => Prod.ext h.2 h.1, fun h => by simp [h]⟩

theorem disjoint_readRecord {x : Extracted α} (hx : x.Disjoint) (r : LogRecord α) : (F.readRecord x r).Disjoint := by
  cases r with
  | start k₀ a =>
    show (F.readStartRecord x a).Disjoint
    unfold readStartRecord
    simp only
    split
    · intro k hp
      rw [TwoLevel.find?_erase]
      split
      · rfl
      · exact hx k hp
    · rename_i hl
      intro k hp
      rw [TwoLevel.find?_insert] at hp
      split at hp
      · rename_i he
        rw [he.1, he.2]
        simpa using hl
      · exact hx k hp
  | complete k₀ =>
    show (readCompleteRecord x k₀).Disjoint
    unfold readCompleteRecord
    split
    · intro k hp
      rw [TwoLevel.find?_erase] at hp
      split at hp
      · cases hp
      · exact hx k hp
    · rename_i hp₀
      intro k hp
      rw [TwoLevel.find?_insert]
      split
      · rename_i he
        rw [pair_eq_iff] at he
        subst he
        exact absurd hp hp₀
      · exact hx k hp

theorem wf_readStartRecord {x : Extracted α} (hx : x.WF F) (a : α) : (F.readStartRecord x a).WF F := by
  obtain ⟨h1, h2, h3⟩ := hx
  have hdis : (F.readStartRecord x a).Disjoint := F.disjoint_readRecord h1 (.start (F.opId a) a)
  have hk : ∀ k : PendingOperationId, (k.2 = (F.op a).queueId ∧ k.1 = (F.op a).msgId) ↔ k = F.opId a :=
    fun k => (pair_eq_iff : _ ↔ k = F.opId a)
  refine ⟨hdis, ?_, ?_⟩
  · intro k b hb
    unfold readStartRecord at hb
    simp only at hb
    split at hb
    · exact h2 k b hb
    · rw [TwoLevel.find?_insert] at hb
      split at hb
      · rename_i he
        rw [hk] at he
        subst he
        cases hf : TwoLevel.find? x.pending (F.op a).queueId (F.op a).msgId with
        | none => rw [hf] at hb; cases hb; rfl
        | some c =>
          rw [hf] at hb
          cases hb
          exact h2 (F.opId a) c hf
      · exact h2 k b hb
  · intro k o ho
    unfold readStartRecord at ho
    simp only at ho
    split at ho
    · rw [TwoLevel.find?_erase] at ho
      split at ho
      · cases ho
      · exact h3 k o ho
    · exact h3 k o ho

theorem wf_readCompleteRecord {x : Extracted α} (hx : x.WF F) (k₀ : PendingOperationId) :
    (readCompleteRecord x k₀).WF F := by
  obtain ⟨h1, h2, h3⟩ := hx
  have hdis : (readCompleteRecord x k₀).Disjoint := F.disjoint_readRecord h1 (.complete k₀)
  refine ⟨hdis, ?_, ?_⟩
  · intro k b hb
    unfold readCompleteRecord at hb
    split at hb
    · rw [TwoLevel.find?_erase] at hb
      split at hb
      · cases hb
      · exact h2 k b hb
    · exact h2 k b hb
  · intro k o ho
    unfold readCompleteRecord at ho
    split at ho
    · exact h3 k o ho
    · rw [TwoLevel.find?_insert] at ho
      split at ho
      · rename_i he
        rw [pair_eq_iff] at he
        subst he
        cases hf : TwoLevel.find? x.lost k.2 k.1 with
        | none => rw [hf] at ho; cases ho; rfl
        | some c =>
          rw [hf] at ho
          cases ho
          exact h3 k c hf
      · exact h3 k o ho

/-- What a record does to the maps is one step of the state of its key. -/
private theorem status_readRecord_self {x : Extracted α} (hx : x.Disjoint) {r : LogRecord α} (hr : F.Keyed r) :
    (F.readRecord x r).status r.key = (x.status r.key).step r := by
  have hdis := hx r.key
  cases r with
  | start k a =>
    have hk : k = F.opId a := hr
    subst hk
    unfold readRecord readStartRecord Record.key status
    simp only [Record.key, opId, PendingAsyncOperation.opId] at hdis ⊢
    cases hp : TwoLevel.find? x.pending (F.op a).queueId (F.op a).msgId with
    | none =>
      cases hl : TwoLevel.find? x.lost (F.op a).queueId (F.op a).msgId with
      | none => simp [TwoLevel.find?_insert, hp, hl, KeyState.step]
      | some o => simp [TwoLevel.find?_erase, hp, KeyState.step]
    | some b =>
      have hl := hdis (by rw [hp]; rfl)
      simp [TwoLevel.find?_insert, hp, hl, KeyState.step]
  | complete k =>
    unfold readRecord readCompleteRecord Record.key status
    simp only [Record.key] at hdis ⊢
    cases hp : TwoLevel.find? x.pending k.2 k.1 with
    | none =>
      cases hl : TwoLevel.find? x.lost k.2 k.1 with
      | none => simp [TwoLevel.find?_insert, hp, KeyState.step]
      | some o => simp [TwoLevel.find?_insert, hp, KeyState.step]
    | some b =>
      have hl := hdis (by rw [hp]; rfl)
      simp [TwoLevel.find?_erase, hl, KeyState.step]

/-- A record touches no key but its own. -/
private theorem status_readRecord_of_ne {x : Extracted α} {r : LogRecord α} (hr : F.Keyed r)
    {k : PendingOperationId} (hne : r.key ≠ k) : (F.readRecord x r).status k = x.status k := by
  have hcond : ¬ (k.2 = r.key.2 ∧ k.1 = r.key.1) := fun h => hne (pair_eq_iff.1 h).symm
  cases r with
  | start k₀ a =>
    have hk : k₀ = F.opId a := hr
    subst hk
    replace hcond : ¬ (k.2 = (F.op a).queueId ∧ k.1 = (F.op a).msgId) := hcond
    show (F.readStartRecord x a).status k = _
    unfold readStartRecord
    simp only
    split
    · unfold status
      rw [TwoLevel.find?_erase, if_neg hcond]
    · unfold status
      rw [TwoLevel.find?_insert, if_neg hcond]
  | complete k₀ =>
    replace hcond : ¬ (k.2 = k₀.2 ∧ k.1 = k₀.1) := hcond
    show (readCompleteRecord x k₀).status k = _
    unfold readCompleteRecord
    split
    · unfold status
      rw [TwoLevel.find?_erase, if_neg hcond]
    · unfold status
      rw [TwoLevel.find?_insert, if_neg hcond]

theorem status_readRecord {x : Extracted α} (hx : x.Disjoint) {r : LogRecord α} (hr : F.Keyed r)
    (k : PendingOperationId) :
    (F.readRecord x r).status k = if r.key = k then (x.status k).step r else x.status k := by
  split
  · rename_i h
    subst h
    exact F.status_readRecord_self hx hr
  · rename_i h
    exact F.status_readRecord_of_ne hr h

/-- Reading records: each key goes through its own records. -/
theorem status_foldl {x : Extracted α} (hx : x.Disjoint) {rs : List (LogRecord α)} (hrs : ∀ r ∈ rs, F.Keyed r)
    (k : PendingOperationId) : (rs.foldl F.readRecord x).status k = replay (x.status k) (recordsOf k rs) := by
  induction rs generalizing x with
  | nil => rfl
  | cons r rs ih =>
    have hcons : recordsOf k (r :: rs) = (if r.key = k then [r] else []) ++ recordsOf k rs := by
      rw [← recordsOf_singleton, ← recordsOf_append]
      rfl
    rw [List.foldl_cons, ih (F.disjoint_readRecord hx r) (fun r' hr' => hrs r' (List.mem_cons_of_mem _ hr')),
      F.status_readRecord hx (hrs r (List.mem_cons_self ..)), hcons, replay_append]
    split <;> rfl

/-- Whatever a file holds, the maps that are filled from it stay well formed. -/
theorem wf_extractPendingFromFile {x : Extracted α} (hx : x.WF F) (bytes : Bytes) :
    (F.extractPendingFromFile bytes x).WF F := by
  unfold extractPendingFromFile
  generalize bytes.length = fuel
  induction fuel generalizing bytes x with
  | zero => exact hx
  | succ fuel ih =>
    cases bytes with
    | nil => exact hx
    | cons opcode bytes =>
      unfold extractLoop
      split
      · split
        · exact ⟨hx.disjoint, hx.pending_key, hx.lost_key⟩
        · split
          · exact ih (F.wf_readStartRecord hx _) _
          · exact hx
      · split
        · split
          · exact ih (F.wf_readCompleteRecord hx _) _
          · exact hx
        · exact ih hx _

end LogFormat

namespace AsyncLog

open LogFormat

variable {α : Type} {F : LogFormat α}

/-- The files of the log hold the given records. -/
def Holds (F : LogFormat α) (L : AsyncLog) (file : Fin 2 → List (LogRecord α)) : Prop :=
  ∀ i, L.file i = F.encodeAll (file i) ∧ ∀ r ∈ file i, F.Keyed r

/-- What `recoverAsync…` returns: the keys that are pending after file 0 and then file 1. -/
theorem recoverAsync_find? {L : AsyncLog} {file : Fin 2 → List (LogRecord α)} (h : L.Holds F file)
    (k : PendingOperationId) (a : α) :
    TwoLevel.find? (L.recoverAsync F).1 k.2 k.1 = some a ↔ replayKey k (file 0 ++ file 1) = .pending a := by
  have hkeyed : ∀ r ∈ file 0 ++ file 1, F.Keyed r := fun r hr =>
    (List.mem_append.1 hr).elim ((h 0).2 r) ((h 1).2 r)
  unfold recoverAsync replayFiles
  simp only
  rw [← Extracted.status_eq_pending, (h 0).1, (h 1).1, extractPendingFromFile_encode,
    extractPendingFromFile_encode, ← List.foldl_append, F.status_foldl (Extracted.wf_empty F).disjoint hkeyed k]
  rfl

/-- The operations that `recoverAsync…` returns stand under their own ids. -/
theorem recoverAsync_keyed (F : LogFormat α) (L : AsyncLog) :
    TwoLevel.Keyed (fun a => ((F.op a).queueId, (F.op a).msgId)) (L.recoverAsync F).1 := by
  have hwf := F.wf_extractPendingFromFile
    (F.wf_extractPendingFromFile (Extracted.wf_empty F) (L.file 0)) (L.file 1)
  intro q p a h
  have := hwf.pending_key (p, q) a h
  exact Prod.ext (congrArg Prod.snd this) (congrArg Prod.fst this)

end AsyncLog

end BdbMsgStore

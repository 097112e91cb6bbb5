import Mathlib.Data.List.Basic
import Mathlib.Data.Fin.Basic
import Mathlib.Algebra.GroupWithZero.Nat
import Mathlib.Logic.Function.Basic

/-!
# Logs of starts and completions, kept in two files

A log of operations with keys: an operation is started (with a payload) and later completed.  Reading the log back
gives, for each key on its own, a counter that saturates: a completion that finds no pending start is *lost*, and a
lost completion cancels the next start.

The log is kept in two files.  One of them is active and takes every new record.  A cleaning pass makes the other
file the active one (`rotate`), rewrites the file that was active so that only its pending starts remain
(`rewrite`), and appends the completions that were lost in it to the file that is active now (`relog`).  Reading
the two files in the order 0, 1 loses the chronology, and yet for keys that are started once it gives the pending
operations exactly: `RotLog.Inv.replay_eq_pending`.
-/

universe u v

namespace KeyedLog

variable {κ : Type u} {α : Type v}

/-- A record of the log. -/
inductive Record (κ : Type u) (α : Type v) where
  | start (k : κ) (a : α)
  | complete (k : κ)
  deriving DecidableEq, Repr

/-- The key of a record. -/
def Record.key : Record κ α → κ
  | .start k _ => k
  | .complete k => k

/-- What reading a log says about one key. -/
inductive KeyState (α : Type v) where
  | idle
  | pending (a : α)
  | lost
  deriving DecidableEq, Repr

/-- The operation that is pending. -/
def KeyState.pending? : KeyState α → Option α
  | .pending a => some a
  | _ => none

theorem KeyState.pending?_eq_some {s : KeyState α} {a : α} : s.pending? = some a ↔ s = .pending a := by
  cases s <;> simp [KeyState.pending?]

theorem KeyState.pending?_eq_none {s : KeyState α} : s.pending? = none ↔ ∀ a, s ≠ .pending a := by
  cases s <;> simp [KeyState.pending?]

/-- The effect of one record on the state of its key. -/
def KeyState.step : KeyState α → Record κ α → KeyState α
  | .lost, .start _ _ => .idle
  | .idle, .start _ a => .pending a
  | .pending b, .start _ _ => .pending b
  | .pending _, .complete _ => .idle
  | .idle, .complete _ => .lost
  | .lost, .complete _ => .lost

/-- The effect of a list of records of one key. -/
def replay (s : KeyState α) (rs : List (Record κ α)) : KeyState α := rs.foldl KeyState.step s

@[simp] theorem replay_nil (s : KeyState α) : replay s ([] : List (Record κ α)) = s := rfl

@[simp] theorem replay_cons (s : KeyState α) (r : Record κ α) (rs : List (Record κ α)) :
    replay s (r :: rs) = replay (s.step r) rs := rfl

theorem replay_append (s : KeyState α) (rs rs' : List (Record κ α)) :
    replay s (rs ++ rs') = replay (replay s rs) rs' := List.foldl_append

/-- Completions alone: from a key that is not pending the first of them is lost, and so are the others. -/
theorem replay_completes {s : KeyState α} (hs : ∀ a, s ≠ .pending a) (k : κ) (n : Nat) :
    replay s (List.replicate (n + 1) (Record.complete k)) = .lost := by
  induction n generalizing s with
  | zero => cases s <;> simp_all [replay, KeyState.step]
  | succ n ih =>
    rw [List.replicate_succ, replay_cons]
    apply ih
    intro a
    cases s <;> simp_all [KeyState.step]

/-- Completions after a pending start: the first cancels it, the others are lost. -/
theorem replay_pending_completes (a : α) (k : κ) (n : Nat) :
    replay (.pending a) (List.replicate n (Record.complete k)) =
      if n = 0 then .pending a else if n = 1 then .idle else .lost := by
  match n with
  | 0 => rfl
  | 1 => rfl
  | n + 2 =>
    rw [List.replicate_succ, replay_cons]
    exact replay_completes (by simp [KeyState.step]) k n

theorem replay_idle_completes (k : κ) (n : Nat) :
    replay (.idle : KeyState α) (List.replicate n (Record.complete k)) = if n = 0 then .idle else .lost := by
  match n with
  | 0 => rfl
  | n + 1 => exact replay_completes (by simp) k n

/-- The operation that is pending after a word was pending before it, or is one of its starts. -/
theorem mem_of_replay_eq_pending {s : KeyState α} {w : List (Record κ α)} {a : α} (h : replay s w = .pending a) :
    s = .pending a ∨ ∃ k, Record.start k a ∈ w := by
  induction w generalizing s with
  | nil => exact Or.inl h
  | cons r w ih =>
    rcases ih h with hs | ⟨k, hk⟩
    · cases r with
      | complete k => cases s <;> cases hs
      | start k b =>
        cases s with
        | lost => cases hs
        | pending c => exact Or.inl hs
        | idle =>
          cases hs
          exact Or.inr ⟨k, List.mem_cons_self ..⟩
    · exact Or.inr ⟨k, List.mem_cons_of_mem _ hk⟩

section Files

variable [DecidableEq κ]

/-- The records of one key, in the order of the log. -/
def recordsOf (k : κ) (rs : List (Record κ α)) : List (Record κ α) := rs.filter fun r => decide (r.key = k)

@[simp] theorem recordsOf_nil (k : κ) : recordsOf k ([] : List (Record κ α)) = [] := rfl

theorem recordsOf_append (k : κ) (rs rs' : List (Record κ α)) :
    recordsOf k (rs ++ rs') = recordsOf k rs ++ recordsOf k rs' := List.filter_append ..

theorem recordsOf_singleton (k : κ) (r : Record κ α) : recordsOf k [r] = if r.key = k then [r] else [] := by
  unfold recordsOf
  by_cases h : r.key = k <;> simp [h]

/-- What reading a whole log says about `k`. -/
def replayKey (k : κ) (rs : List (Record κ α)) : KeyState α := replay .idle (recordsOf k rs)

theorem mem_of_replayKey_eq_pending {k : κ} {rs : List (Record κ α)} {a : α}
    (h : replayKey k rs = .pending a) : .start k a ∈ rs := by
  rcases mem_of_replay_eq_pending h with hs | ⟨k', hk'⟩
  · cases hs
  · obtain ⟨hmem, hkey⟩ := List.mem_filter.1 hk'
    obtain rfl : k' = k := of_decide_eq_true hkey
    exact hmem

/-- How far a cleaning pass has come. -/
inductive Pass (κ : Type u) where
  | idle
  | rotated
  | relog (lost : List κ)
  deriving DecidableEq, Repr

/-- A lost completion of `k` waits to be appended again. -/
def Pass.Carries (k : κ) : Pass κ → Prop
  | .relog lost => k ∈ lost
  | _ => False

-- the numbers of the files are literals of `Fin 2`
instance instNeZeroTwo : NeZero 2 := ⟨by decide⟩

/-- A log in two files, one of them active. -/
structure RotLog (κ : Type u) (α : Type v) where
  file : Fin 2 → List (Record κ α)
  active : Fin 2
  pass : Pass κ

namespace RotLog

/-- A record is appended to the active file. -/
def append (L : RotLog κ α) (r : Record κ α) : RotLog κ α :=
  { L with file := Function.update L.file L.active (L.file L.active ++ [r]) }

/-- The files change their roles. -/
def rotate (L : RotLog κ α) : RotLog κ α := { L with active := L.active + 1, pass := .rotated }

/-- The file that is not active is replaced, and the completions lost in it are kept for later. -/
def rewrite (L : RotLog κ α) (new : List (Record κ α)) (lost : List κ) : RotLog κ α :=
  { L with file := Function.update L.file (L.active + 1) new, pass := .relog lost }

/-- What a rewritten file has to hold: the start of every key pending in the old one, and the list of the keys
with a lost completion. -/
structure Rewrites (old new : List (Record κ α)) (lost : List κ) : Prop where
  pending : ∀ k, recordsOf k new =
    match replayKey k old with
    | .pending a => [.start k a]
    | _ => []
  lost : ∀ k, k ∈ lost ↔ replayKey k old = .lost

/-- A step of a cleaning pass. -/
inductive Cleans (L : RotLog κ α) : RotLog κ α → Prop where
  | rotate (hp : L.pass = .idle) : Cleans L L.rotate
  | rewrite {new : List (Record κ α)} {lost : List κ} (hp : L.pass = .rotated)
      (hnew : Rewrites (L.file (L.active + 1)) new lost) (hnodup : lost.Nodup) : Cleans L (L.rewrite new lost)
  | relog {k : κ} {lost : List κ} (hp : L.pass = .relog (k :: lost)) :
      Cleans L { L.append (.complete k) with pass := .relog lost }
  | done (hp : L.pass = .relog []) : Cleans L { L with pass := .idle }

/-- The records of one key in the two files, when the key was started with payload `started` and completed or
not, and a lost completion of it is carried by the cleaning pass or not. -/
def KeyInv (k : κ) (started : Option α) (completed : Prop) (r : Fin 2 → List (Record κ α)) (carried : Prop) :
    Prop :=
  match started with
  | none => (∀ i, r i = []) ∧ ¬ completed ∧ ¬ carried
  | some a => (carried → completed) ∧ ∃ n : Fin 2 → Nat,
      (completed ∧ ∀ i, r i = List.replicate (n i) (.complete k)) ∨
      ∃ i, r i = .start k a :: List.replicate (n i) (.complete k) ∧
        r (i + 1) = List.replicate (n (i + 1)) (.complete k) ∧
        (completed ↔ 0 < n i ∨ 0 < n (i + 1) ∨ carried)

/-- The invariant of the log, for the starts and completions made so far. -/
def Inv (L : RotLog κ α) (started : κ → Option α) (completed : κ → Prop) : Prop :=
  ∀ k, KeyInv k (started k) (completed k) (fun i => recordsOf k (L.file i)) (L.pass.Carries k)

theorem other_ne (i : Fin 2) : i + 1 ≠ i := by revert i; decide

theorem other_other (i : Fin 2) : i + 1 + 1 = i := by revert i; decide

private theorem eq_or_other (i j : Fin 2) : i = j ∨ i = j + 1 := by revert i j; decide

/-- Both files empty, nothing started. -/
theorem inv_empty : Inv (⟨fun _ => [], 0, .idle⟩ : RotLog κ α) (fun _ => none) (fun _ => False) :=
  fun _ => ⟨fun _ => rfl, id, id⟩

theorem recordsOf_append_file (L : RotLog κ α) (r : Record κ α) (k : κ) (i : Fin 2) :
    recordsOf k ((L.append r).file i) =
      if i = L.active then recordsOf k (L.file i) ++ (if r.key = k then [r] else []) else recordsOf k (L.file i) := by
  unfold append
  by_cases h : i = L.active
  · subst h
    simp [recordsOf_append, recordsOf_singleton]
  · simp [h]

private theorem append_other {L : RotLog κ α} {r : Record κ α} {k : κ} (h : r.key ≠ k) :
    (fun i => recordsOf k ((L.append r).file i)) = fun i => recordsOf k (L.file i) := by
  funext i
  rw [recordsOf_append_file, if_neg h, List.append_nil, ite_self]

/-- A key that was not started yet is started. -/
theorem Inv.start {L : RotLog κ α} {started : κ → Option α} {completed : κ → Prop} (h : L.Inv started completed)
    {k : κ} (hk : started k = none) (a : α) :
    (L.append (.start k a)).Inv (Function.update started k (some a)) completed := by
  intro k'
  by_cases hkk : k' = k
  · subst hkk
    have hinv := h k'
    rw [hk] at hinv
    obtain ⟨h1, h2, h3⟩ := hinv
    rw [Function.update_self]
    refine ⟨fun hc => absurd hc h3, fun _ => 0, Or.inr ⟨L.active, ?_, ?_, ?_⟩⟩
    · simp only [recordsOf_append_file, ↓reduceIte, h1 L.active]
      simp [Record.key]
    · simp only [recordsOf_append_file, other_ne, ↓reduceIte, h1 (L.active + 1)]
      rfl
    · simp only [Nat.lt_irrefl, false_or]
      exact ⟨fun hc => absurd hc h2, fun hc => absurd hc h3⟩
  · rw [Function.update_of_ne hkk, append_other (by simpa [Record.key] using Ne.symm hkk)]
    exact h k'

/-- A completion of a started key is appended: the key is completed now. -/
private theorem keyInv_complete {L : RotLog κ α} {k : κ} {a : α} {completed carried carried' : Prop}
    (h : KeyInv k (some a) completed (fun i => recordsOf k (L.file i)) carried) :
    KeyInv k (some a) True (fun i => recordsOf k ((L.append (.complete k)).file i)) carried' := by
  obtain ⟨_, n, hn⟩ := h
  have hr : ∀ i, recordsOf k ((L.append (.complete k)).file i) =
      if i = L.active then recordsOf k (L.file i) ++ [.complete k] else recordsOf k (L.file i) := by
    intro i
    rw [recordsOf_append_file]
    simp [Record.key]
  have hadd : ∀ i : Fin 2, ∀ l : List (Record κ α),
      (if i = L.active then (l ++ List.replicate (n i) (.complete k)) ++ [.complete k]
        else l ++ List.replicate (n i) (.complete k)) =
      l ++ List.replicate (Function.update n L.active (n L.active + 1) i) (Record.complete k) := by
    intro i l
    by_cases hi : i = L.active
    · subst hi
      simp only [↓reduceIte, Function.update_self, List.append_assoc, List.replicate_succ']
    · simp [hi]
  refine ⟨fun _ => trivial, Function.update n L.active (n L.active + 1), ?_⟩
  rcases hn with ⟨_, hn⟩ | ⟨i, hi, hi', _⟩
  · refine Or.inl ⟨trivial, fun i => ?_⟩
    simp only [hr i, hn i]
    simpa using hadd i []
  · refine Or.inr ⟨i, ?_, ?_, ?_⟩
    · simp only [hr i, hi]
      simpa using hadd i [.start k a]
    · simp only [hr (i + 1), hi']
      simpa using hadd (i + 1) []
    · rw [true_iff]
      rcases eq_or_other L.active i with ha | ha
      · rw [ha]; simp
      · rw [ha]; simp

theorem Inv.complete {L : RotLog κ α} {started : κ → Option α} {completed : κ → Prop}
    (h : L.Inv started completed) {k : κ} (hk : started k ≠ none) :
    (L.append (.complete k)).Inv started (fun k' => k' = k ∨ completed k') := by
  intro k'
  by_cases hkk : k' = k
  · subst hkk
    obtain ⟨a, ha⟩ := Option.ne_none_iff_exists'.1 hk
    have hinv := h k'
    rw [ha] at hinv ⊢
    simp only [true_or]
    exact keyInv_complete hinv
  · rw [append_other (by simpa [Record.key] using Ne.symm hkk)]
    simp only [hkk, false_or]
    exact h k'

theorem Inv.rotate {L : RotLog κ α} {started : κ → Option α} {completed : κ → Prop}
    (h : L.Inv started completed) (hp : L.pass = .idle) : L.rotate.Inv started completed := by
  intro k
  have := h k
  rw [hp] at this
  exact this

omit [DecidableEq κ] in
private theorem rewritten_eq_nil {k : κ} {l : List (Record κ α)} {st : KeyState α}
    (h : l = match st with
      | .pending a => [.start k a]
      | _ => []) (hst : ∀ a, st ≠ .pending a) : l = [] := by
  cases st with
  | pending a => exact absurd rfl (hst a)
  | idle => exact h
  | lost => exact h

/-- Rewriting the idle file: a start whose completion stands in the same file disappears with it, a completion
whose start stands in the other file is carried over. -/
theorem Inv.rewrite {L : RotLog κ α} {started : κ → Option α} {completed : κ → Prop}
    (h : L.Inv started completed) (hp : L.pass = .rotated) {new : List (Record κ α)} {lost : List κ}
    (hnew : Rewrites (L.file (L.active + 1)) new lost) : (L.rewrite new lost).Inv started completed := by
  intro k
  have hinv := h k
  rw [hp] at hinv
  have hfile : ∀ i, recordsOf k ((L.rewrite new lost).file i) =
      if i = L.active + 1 then recordsOf k new else recordsOf k (L.file i) := by
    intro i
    unfold RotLog.rewrite
    by_cases hi : i = L.active + 1
    · subst hi; simp
    · simp [hi]
  have hcar : (L.rewrite new lost).pass.Carries k ↔ replayKey k (L.file (L.active + 1)) = .lost := hnew.lost k
  have hpend := hnew.pending k
  rw [KeyInv.eq_def] at hinv ⊢
  cases hs : started k with
  | none =>
    simp only [hs] at hinv
    obtain ⟨h1, h2, -⟩ := hinv
    have hidle : replayKey k (L.file (L.active + 1)) = .idle := by
      unfold replayKey; rw [h1]; rfl
    refine ⟨fun i => ?_, h2, fun hc => ?_⟩
    · rw [hfile i]
      split
      · rw [hpend, hidle]
      · exact h1 i
    · rw [hcar, hidle] at hc; cases hc
  | some a =>
    simp only [hs] at hinv
    obtain ⟨-, n, hn⟩ := hinv
    rcases hn with ⟨hcomp, hn⟩ | ⟨i, hi, hi', hcomp⟩
    · -- the start is gone already
      refine ⟨fun _ => hcomp, Function.update n (L.active + 1) 0, Or.inl ⟨hcomp, fun i => ?_⟩⟩
      rw [hfile i]
      by_cases hx : i = L.active + 1
      · subst hx
        have hst := replay_idle_completes (α := α) k (n (L.active + 1))
        rw [← hn (L.active + 1)] at hst
        have hst' : replayKey k (L.file (L.active + 1)) = if n (L.active + 1) = 0 then .idle else .lost := hst
        rw [if_pos rfl, Function.update_self]
        exact rewritten_eq_nil hpend (by rw [hst']; intro b; split <;> simp)
      · rw [if_neg hx, Function.update_of_ne hx]
        exact hn i
    · rcases eq_or_other i (L.active + 1) with hx | hx
      · -- the start is in the file that is rewritten
        subst hx
        have hst : replayKey k (L.file (L.active + 1)) =
            if n (L.active + 1) = 0 then .pending a else if n (L.active + 1) = 1 then .idle else .lost := by
          unfold replayKey
          rw [hi]
          exact replay_pending_completes a k _
        rw [other_other] at hi' hcomp
        by_cases hz : n (L.active + 1) = 0
        · rw [if_pos hz] at hst
          rw [hst] at hpend hcar
          have hnc : ¬ (L.rewrite new lost).pass.Carries k := fun hc => by cases hcar.1 hc
          refine ⟨fun hc => absurd hc hnc, n, Or.inr ⟨L.active + 1, ?_, ?_, ?_⟩⟩
          · rw [hfile, if_pos rfl, hpend, hz]; rfl
          · rw [other_other, hfile, if_neg (fun e => other_ne L.active e.symm)]
            exact hi'
          · rw [other_other, hcomp]
            exact ⟨fun hc => hc.imp_right (Or.imp_right fun h => h.elim), fun hc =>
              hc.imp_right (Or.imp_right fun h => absurd h hnc)⟩
        · have hc : completed k := hcomp.2 (Or.inl (by omega))
          refine ⟨fun _ => hc, Function.update n (L.active + 1) 0, Or.inl ⟨hc, fun i => ?_⟩⟩
          rw [hfile i]
          by_cases hx : i = L.active + 1
          · subst hx
            rw [if_pos rfl, Function.update_self]
            exact rewritten_eq_nil hpend (by rw [hst, if_neg hz]; intro b; split <;> simp)
          · rw [if_neg hx, Function.update_of_ne hx]
            rcases eq_or_other i L.active with rfl | h'
            · exact hi'
            · exact absurd h' hx
      · -- the start is in the active file
        rw [other_other] at hx
        subst hx
        have hst := replay_idle_completes (α := α) k (n (L.active + 1))
        rw [← hi'] at hst
        have hst' : replayKey k (L.file (L.active + 1)) = if n (L.active + 1) = 0 then .idle else .lost := hst
        have hcar' : (L.rewrite new lost).pass.Carries k ↔ 0 < n (L.active + 1) := by
          rw [hcar, hst']
          split <;> simp_all [Nat.pos_iff_ne_zero]
        refine ⟨fun hc => hcomp.2 (Or.inr (Or.inl (hcar'.1 hc))), Function.update n (L.active + 1) 0,
          Or.inr ⟨L.active, ?_, ?_, ?_⟩⟩
        · rw [hfile, if_neg (fun e => other_ne L.active e.symm),
            Function.update_of_ne (fun e => other_ne L.active e.symm)]
          exact hi
        · rw [hfile, if_pos rfl, Function.update_self]
          exact rewritten_eq_nil hpend (by rw [hst']; intro b; split <;> simp)
        · rw [Function.update_of_ne (fun e => other_ne L.active e.symm), Function.update_self, hcomp, hcar']
          simp [Pass.Carries]

/-- A lost completion is appended to the active file. -/
theorem Inv.relog {L : RotLog κ α} {started : κ → Option α} {completed : κ → Prop}
    (h : L.Inv started completed) {k : κ} {lost : List κ} (hp : L.pass = .relog (k :: lost)) :
    ({ L.append (.complete k) with pass := .relog lost } : RotLog κ α).Inv started completed := by
  intro k'
  have hinv := h k'
  rw [hp] at hinv
  by_cases hkk : k' = k
  · subst hkk
    have hcarried : Pass.Carries k' (.relog (k' :: lost)) := List.mem_cons_self ..
    cases hs : started k' with
    | none =>
      rw [hs] at hinv
      exact absurd hcarried hinv.2.2
    | some a =>
      rw [hs] at hinv
      have hc : completed k' := hinv.1 hcarried
      rw [show completed k' = True by simp [hc]]
      exact keyInv_complete hinv
  · have hcar : Pass.Carries k' (.relog (k :: lost)) ↔ Pass.Carries k' (.relog lost) := by
      simp [Pass.Carries, hkk]
    rw [show (fun i => recordsOf k' (({ L.append (.complete k) with pass := .relog lost } : RotLog κ α).file i)) =
        fun i => recordsOf k' (L.file i) from append_other (by simpa [Record.key] using Ne.symm hkk)]
    rw [propext hcar] at hinv
    exact hinv

theorem Inv.done {L : RotLog κ α} {started : κ → Option α} {completed : κ → Prop}
    (h : L.Inv started completed) (hp : L.pass = .relog []) :
    ({ L with pass := .idle } : RotLog κ α).Inv started completed := by
  intro k
  have hinv := h k
  rw [hp] at hinv
  have : Pass.Carries k (.relog []) ↔ Pass.Carries k .idle := by simp [Pass.Carries]
  rw [propext this] at hinv
  exact hinv

/-- Every step of a cleaning pass keeps what the log knows. -/
theorem Inv.clean {L L' : RotLog κ α} {started : κ → Option α} {completed : κ → Prop} (h : L.Inv started completed)
    (hclean : L.Cleans L') : L'.Inv started completed := by
  cases hclean with
  | rotate hp => exact h.rotate hp
  | rewrite hp hnew _ => exact h.rewrite hp hnew
  | relog hp => exact h.relog hp
  | done hp => exact h.done hp

/-- Outside a cleaning pass the two files, read in the order 0, 1, give exactly the operations that were started
and not completed, with their payloads. -/
theorem Inv.replay_eq_pending {L : RotLog κ α} {started : κ → Option α} {completed : κ → Prop}
    (h : L.Inv started completed) (hp : L.pass = .idle) (k : κ) (a : α) :
    replayKey k (L.file 0 ++ L.file 1) = .pending a ↔ started k = some a ∧ ¬ completed k := by
  have hinv := h k
  rw [hp] at hinv
  unfold replayKey
  rw [recordsOf_append, replay_append]
  cases hs : started k with
  | none =>
    rw [hs] at hinv
    have h0 : recordsOf k (L.file 0) = [] := hinv.1 0
    have h1 : recordsOf k (L.file 1) = [] := hinv.1 1
    simp [h0, h1]
  | some b =>
    rw [hs] at hinv
    obtain ⟨-, n, hn⟩ := hinv
    rcases hn with ⟨hc, hn⟩ | ⟨i, hi, hi', hcomp⟩
    · -- only completions are left
      have h0 : recordsOf k (L.file 0) = List.replicate (n 0) (.complete k) := hn 0
      have h1 : recordsOf k (L.file 1) = List.replicate (n 1) (.complete k) := hn 1
      rw [h0, h1, ← replay_append, ← List.replicate_add, replay_idle_completes]
      constructor
      · intro he; split at he <;> cases he
      · intro he; exact absurd hc he.2
    · have hi2 : i = 0 ∨ i = 1 := by omega
      rcases hi2 with rfl | rfl
      · -- the start comes first
        have h0 : recordsOf k (L.file 0) = .start k b :: List.replicate (n 0) (.complete k) := hi
        have h1 : recordsOf k (L.file 1) = List.replicate (n 1) (.complete k) := hi'
        clear hi hi'
        have hc : completed k ↔ 0 < n 0 ∨ 0 < n 1 := by
          simpa [Pass.Carries] using hcomp
        rw [h0, h1, ← replay_append, List.cons_append, replay_cons, ← List.replicate_add]
        simp only [KeyState.step, replay_pending_completes, hc, Option.some.injEq]
        split
        · rename_i hz
          have hnc : ¬ (0 < n 0 ∨ 0 < n 1) := by omega
          simp [hnc]
        · rename_i hz
          constructor
          · intro he; split at he <;> cases he
          · intro he; omega
      · -- the completions of the other file come first
        have h0 : recordsOf k (L.file 0) = List.replicate (n 0) (.complete k) := hi'
        have h1 : recordsOf k (L.file 1) = .start k b :: List.replicate (n 1) (.complete k) := hi
        clear hi hi'
        have hc : completed k ↔ 0 < n 1 ∨ 0 < n 0 := by
          simpa [Pass.Carries] using hcomp
        rw [h0, h1, replay_idle_completes, replay_cons]
        simp only [hc, Option.some.injEq]
        by_cases hz : n 0 = 0
        · simp only [hz, ↓reduceIte, KeyState.step, replay_pending_completes]
          split
          · rename_i hz'
            simp [hz']
          · rename_i hz'
            constructor
            · intro he; split at he <;> cases he
            · intro he; omega
        · simp only [hz, ↓reduceIte, KeyState.step, replay_idle_completes]
          constructor
          · intro he; split at he <;> cases he
          · intro he; omega

end RotLog

end Files

end KeyedLog

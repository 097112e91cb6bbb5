import BdbMsgStore.Lib.KeyWords
import Mathlib.Data.List.Nodup

/-!
# Keys that go through cycles

A key of the two-file log may be started again after its completion.  As long as an operation is started only when
the one before it is completed, the records of a key alternate in the order in which they were made.  The files do
not show this order: a cleaning pass drops pairs of a start and its completion, and moves a completion behind the
records that were made while the pass was running.  `Chronology` says how the word of a key is spread over the two
files and the pass at each point, and `RotLog.Cyclic` is the invariant: this word alternates, and ends in a start
exactly while an operation on the key is in progress.

A key must not be started anew during a pass that still carries records of it: the completion that the pass has to
append would come after the new start.  When nothing is in progress, the files read as idle
(`RotLog.Cyclic.replayKey_eq_idle`), and the open file on its own holds no pending start (`RotLog.Cyclic.read`).
-/

universe u v

namespace KeyedLog

variable {κ : Type u} {α : Type v}

/-! ### Alternating words at their end -/

theorem endsInStart_append_singleton (w : List (Record κ α)) (r : Record κ α) :
    EndsInStart (w ++ [r]) ↔ r.isStart = true :=
  endsInStart_of_getLast? (List.getLast?_concat ..)

private theorem nextIsStart_eq_true {w : List (Record κ α)} : nextIsStart true w = true ↔ ¬ EndsInStart w := by
  unfold nextIsStart EndsInStart
  cases w.getLast? with
  | none => simp
  | some r => cases r <;> simp [Record.isStart]

private theorem nextIsStart_eq_false {w : List (Record κ α)} : nextIsStart true w = false ↔ EndsInStart w := by
  rw [← not_iff_not, Bool.not_eq_false, nextIsStart_eq_true]

theorem Alternates.append_start {w : List (Record κ α)} (h : Alternates w) (hw : ¬ EndsInStart w) (k : κ) (a : α) :
    Alternates (w ++ [.start k a]) := by
  refine alternatesFrom_append.2 ⟨h, ?_⟩
  rw [nextIsStart_eq_true.2 hw]
  exact ⟨rfl, trivial⟩

theorem Alternates.append_complete {w : List (Record κ α)} (h : Alternates w) (hw : EndsInStart w) (k : κ) :
    Alternates (w ++ [.complete k]) := by
  refine alternatesFrom_append.2 ⟨h, ?_⟩
  rw [nextIsStart_eq_false.2 hw]
  exact ⟨rfl, trivial⟩

/-- Starts, each followed by one completion. -/
def Paired : List (Record κ α) → Prop
  | [] => True
  | .start _ _ :: .complete _ :: w => Paired w
  | _ => False

theorem Alternates.paired {w : List (Record κ α)} (h : Alternates w) (hend : ¬ EndsInStart w) : Paired w := by
  induction hn : w.length using Nat.strong_induction_on generalizing w with
  | _ n ih =>
    match w with
    | [] => trivial
    | .complete k :: w => cases h.1
    | [.start k a] => exact hend rfl
    | .start k a :: .start k' b :: w => cases h.2.1
    | .start k a :: .complete k' :: w =>
      rw [List.length_cons, List.length_cons] at hn
      have hend' : ¬ EndsInStart w := fun he =>
        hend (endsInStart_append (w := [.start k a, .complete k']).2 (Or.inl he))
      exact ih w.length (by omega) (w := w) h.2.2 hend' rfl

/-- The part after an alternating word that ends in a start begins with a completion. -/
theorem Alternates.after_start {w w' : List (Record κ α)} (h : Alternates (w ++ w')) (hw : EndsInStart w) :
    AlternatesFrom false w' := by
  have h' := (alternatesFrom_append.1 h).2
  rwa [nextIsStart_eq_false.2 hw] at h'

theorem Alternates.after_complete {w w' : List (Record κ α)} (h : Alternates (w ++ w')) (hw : ¬ EndsInStart w) :
    Alternates w' := by
  have h' := (alternatesFrom_append.1 h).2
  rwa [nextIsStart_eq_true.2 hw] at h'

/-- After a start, completions alone are at most one. -/
private theorem eq_nil_of_alternates {w : List (Record κ α)} (h : Alternates w) (hw : ∀ r ∈ w, r.isStart = false) :
    w = [] := by
  cases w with
  | nil => rfl
  | cons r w =>
    have hr := hw r (List.mem_cons_self ..)
    rw [h.1] at hr
    cases hr

/-! ### Rewriting the word of a file -/

/-- What a rewritten file may hold of a key. -/
def Reduced (k : κ) (w : List (Record κ α)) : Prop := w = [] ∨ ∃ a, w = [.start k a]

variable {k : κ} {act inn : List (Record κ α)}

/-- What the inactive file becomes when it is rewritten. -/
def rewriteKey (k : κ) (w : List (Record κ α)) : List (Record κ α) :=
  match replay .idle w with
  | .pending a => [.start k a]
  | _ => []

private theorem rewriteKey_reduced (k : κ) (w : List (Record κ α)) : Reduced k (rewriteKey k w) := by
  unfold rewriteKey
  split
  · exact Or.inr ⟨_, rfl⟩
  · exact Or.inl rfl

/-- The active file holds nothing older: the inactive part of the word is read exactly. -/
private theorem rewriteKey_of_nil {n : List (Record κ α)} (halt : Alternates (inn ++ n)) :
    Alternates (rewriteKey k inn ++ n) ∧ (EndsInStart (rewriteKey k inn ++ n) ↔ EndsInStart (inn ++ n)) ∧
      replay .idle inn ≠ (.lost : KeyState α) := by
  have hinn : Alternates inn := (alternatesFrom_append.1 halt).1
  have hread := replay_eq_afterLast (s := (.idle : KeyState α)) hinn rfl
  unfold rewriteKey
  rw [hread, endsInStart_append (w := inn)]
  cases hl : inn.getLast? with
  | none =>
    obtain rfl := List.getLast?_eq_none_iff.1 hl
    refine ⟨halt, ?_, by simp [afterLast]⟩
    show EndsInStart n ↔ EndsInStart n ∨ n = [] ∧ EndsInStart []
    exact ⟨Or.inl, fun h => h.elim id fun h => by cases h.2⟩
  | some r =>
    have hend := endsInStart_of_getLast? hl
    cases r with
    | start k' a =>
      have hyes : EndsInStart inn := hend.2 rfl
      refine ⟨⟨rfl, halt.after_start hyes⟩, ?_, by simp [afterLast]⟩
      show EndsInStart ([.start k a] ++ n) ↔ _
      rw [endsInStart_append (w := [.start k a])]
      exact or_congr_right (and_congr_right fun _ => iff_of_true rfl hyes)
    | complete k' =>
      have hno : ¬ EndsInStart inn := fun he => by cases hend.1 he
      refine ⟨halt.after_complete hno, ?_, by simp [afterLast]⟩
      show EndsInStart n ↔ _
      exact ⟨Or.inl, fun h => h.elim id fun h => absurd h.2 hno⟩

/-- The active file begins with an older start: nothing of the inactive part remains, and its completion is
carried. -/
private theorem rewriteKey_of_start {x : α} {n : List (Record κ α)} (halt : Alternates (.start k x :: inn ++ n))
    (hn : ∀ r ∈ n, r.isStart = false) :
    rewriteKey k inn = [] ∧
      (replay .idle inn = .lost ∧ n = [] ∧ ¬ EndsInStart (.start k x :: inn ++ n) ∨
        replay .idle inn = (.idle : KeyState α) ∧ Alternates (.start k x :: n) ∧
          (EndsInStart (.start k x :: n) ↔ EndsInStart (.start k x :: inn ++ n))) := by
  have hbinn : AlternatesFrom true (.start k x :: inn) := (alternatesFrom_append.1 halt).1
  have hread := replay_eq_afterLastLost (s := (.idle : KeyState α)) hbinn.2 rfl
  have hends : EndsInStart (.start k x :: n) ↔ EndsInStart n ∨ n = [] := by
    rw [← List.singleton_append, endsInStart_append]
    exact or_congr_right (and_iff_left rfl)
  unfold rewriteKey
  rw [hread, endsInStart_append, hends]
  cases hl : inn.getLast? with
  | none =>
    obtain rfl := List.getLast?_eq_none_iff.1 hl
    exact ⟨rfl, Or.inr ⟨rfl, halt, or_congr_right (and_iff_left rfl).symm⟩⟩
  | some r =>
    have hlast : (.start k x :: inn).getLast? = some r := by
      rw [List.getLast?_cons, hl]
      rfl
    have hend := endsInStart_of_getLast? hlast
    cases r with
    | start k' a =>
      have hyes : EndsInStart (.start k x :: inn) := hend.2 rfl
      exact ⟨rfl, Or.inr ⟨rfl, ⟨rfl, halt.after_start hyes⟩, or_congr_right (and_iff_left hyes).symm⟩⟩
    | complete k' =>
      have hno : ¬ EndsInStart (.start k x :: inn) := fun he => by cases hend.1 he
      obtain rfl := eq_nil_of_alternates (halt.after_complete hno) hn
      refine ⟨rfl, Or.inl ⟨rfl, rfl, ?_⟩⟩
      rintro (h | ⟨-, h⟩)
      · cases h
      · exact hno h

/-! ### The word of a key in the files -/

variable [DecidableEq κ]

/-- The word `w` of the key, in the order in which its records were made, when `act` are its records in the active
and `inn` those in the inactive file.  During a pass, the active file begins with what was left there by the pass
before. -/
def Chronology (k : κ) (act inn w : List (Record κ α)) : Pass κ → Prop
  | .idle => w = inn ++ act ∧ Reduced k inn
  | .rotated => ∃ b n, act = b ++ n ∧ w = b ++ inn ++ n ∧ Reduced k b ∧ (b ++ inn = [] ∨ ∀ r ∈ n, r.isStart = false)
  | .relog lost => w = inn ++ act ++ List.replicate (lost.count k) (.complete k) ∧ Reduced k inn

/-- The word of the key alternates, and ends in a start while an operation is in progress. -/
def KeyCyclic (k : κ) (act inn : List (Record κ α)) (pass : Pass κ) (inProgress : Prop) : Prop :=
  ∃ w, Chronology k act inn w pass ∧ Alternates w ∧ (EndsInStart w ↔ inProgress)

variable {pass : Pass κ} {inProgress : Prop}

/-- The key is started: outside a pass, or when neither file nor pass holds anything of it. -/
theorem KeyCyclic.start (h : KeyCyclic k act inn pass inProgress) (hno : ¬ inProgress)
    (hpass : pass = .idle ∨ act = [] ∧ inn = [] ∧ ¬ pass.Carries k) (a : α) :
    KeyCyclic k (act ++ [.start k a]) inn pass True := by
  obtain ⟨w, hw, halt, hend⟩ := h
  have hnot : ¬ EndsInStart w := fun he => hno (hend.1 he)
  rcases hpass with rfl | ⟨rfl, rfl, hcarry⟩
  · refine ⟨w ++ [.start k a], ⟨?_, hw.2⟩, halt.append_start hnot k a, ?_⟩
    · rw [hw.1, List.append_assoc]
    · exact iff_of_true ((endsInStart_append_singleton w _).2 rfl) trivial
  · have hone : Alternates [(.start k a : Record κ α)] := ⟨rfl, trivial⟩
    have hends : EndsInStart [(.start k a : Record κ α)] ↔ True := iff_of_true rfl trivial
    refine ⟨[.start k a], ?_, hone, hends⟩
    cases pass with
    | idle => exact ⟨rfl, Or.inl rfl⟩
    | rotated => exact ⟨[], [.start k a], rfl, rfl, Or.inl rfl, Or.inl rfl⟩
    | relog lost =>
      have hzero : lost.count k = 0 := List.count_eq_zero.2 hcarry
      refine ⟨?_, Or.inl rfl⟩
      rw [hzero]
      rfl

/-- The operation in progress is completed. -/
theorem KeyCyclic.complete (h : KeyCyclic k act inn pass inProgress) (hin : inProgress) :
    KeyCyclic k (act ++ [.complete k]) inn pass False := by
  obtain ⟨w, hw, halt, hend⟩ := h
  have hyes : EndsInStart w := hend.2 hin
  refine ⟨w ++ [.complete k], ?_, halt.append_complete hyes k, ?_⟩
  · cases pass with
    | idle =>
      refine ⟨?_, hw.2⟩
      rw [hw.1, List.append_assoc]
    | rotated =>
      obtain ⟨b, n, rfl, rfl, hb, hn⟩ := hw
      refine ⟨b, n ++ [.complete k], by simp, by simp, hb, hn.imp_right fun hn r hr => ?_⟩
      rcases List.mem_append.1 hr with hr | hr
      · exact hn r hr
      · rw [List.mem_singleton.1 hr]
        rfl
    | relog lost =>
      -- no completion is carried: the word ends in a start
      have hzero : lost.count k = 0 := by
        by_contra hne
        obtain ⟨m, hm⟩ := Nat.exists_eq_succ_of_ne_zero hne
        rw [hw.1, hm, List.replicate_succ', ← List.append_assoc, endsInStart_append_singleton] at hyes
        cases hyes
      refine ⟨?_, hw.2⟩
      rw [hw.1, hzero]
      simp
  · rw [endsInStart_append_singleton]
    exact iff_of_false (by simp [Record.isStart]) id

theorem KeyCyclic.rotate (h : KeyCyclic k act inn .idle inProgress) : KeyCyclic k inn act .rotated inProgress := by
  obtain ⟨w, hw, halt, hend⟩ := h
  refine ⟨w, ⟨inn, [], by simp, ?_, hw.2, Or.inr fun r hr => by cases hr⟩, halt, hend⟩
  rw [hw.1, List.append_nil]

/-- The inactive file is rewritten. -/
theorem KeyCyclic.rewrite (h : KeyCyclic k act inn .rotated inProgress) {lost : List κ} (hnodup : lost.Nodup)
    (hlost : k ∈ lost ↔ replay .idle inn = (.lost : KeyState α)) :
    KeyCyclic k act (rewriteKey k inn) (.relog lost) inProgress := by
  obtain ⟨w, ⟨b, n, rfl, rfl, hb, hn⟩, halt, hend⟩ := h
  rcases hb with rfl | ⟨x, rfl⟩
  · rw [List.nil_append] at halt hend
    obtain ⟨halt', hend', hne⟩ := rewriteKey_of_nil (k := k) halt
    have hzero : lost.count k = 0 := List.count_eq_zero.2 fun hk => hne (hlost.1 hk)
    refine ⟨rewriteKey k inn ++ n, ⟨?_, rewriteKey_reduced k inn⟩, halt', hend'.trans hend⟩
    rw [hzero]
    simp
  · have hn' : ∀ r ∈ n, r.isStart = false := hn.resolve_left (by simp)
    obtain ⟨hnil, ⟨hst, rfl, hno⟩ | ⟨hst, halt', hend'⟩⟩ :=
      @rewriteKey_of_start _ _ _ inn _ _ halt hn'
    · have hone : lost.count k = 1 := List.count_eq_one_of_mem hnodup (hlost.2 hst)
      refine ⟨[.start k x, .complete k], ⟨?_, hnil ▸ Or.inl rfl⟩, ⟨rfl, rfl, trivial⟩, ?_⟩
      · rw [hone, hnil]
        rfl
      · exact iff_of_false (fun he => by cases he) fun hin => hno (hend.2 hin)
    · have hzero : lost.count k = 0 := List.count_eq_zero.2 fun hk => by
        rw [hlost.1 hk] at hst
        cases hst
      refine ⟨.start k x :: n, ⟨?_, hnil ▸ Or.inl rfl⟩, halt', hend'.trans hend⟩
      rw [hzero, hnil]
      simp

/-- A completion that the pass carries is appended. -/
theorem KeyCyclic.relog {lost : List κ} (h : KeyCyclic k act inn (.relog (k :: lost)) inProgress) :
    KeyCyclic k (act ++ [.complete k]) inn (.relog lost) inProgress := by
  obtain ⟨w, hw, halt, hend⟩ := h
  refine ⟨w, ⟨?_, hw.2⟩, halt, hend⟩
  rw [hw.1, List.count_cons_self, List.replicate_succ]
  simp

theorem KeyCyclic.relog_of_ne {k' : κ} {lost : List κ} (hne : k' ≠ k)
    (h : KeyCyclic k act inn (.relog (k' :: lost)) inProgress) : KeyCyclic k act inn (.relog lost) inProgress := by
  obtain ⟨w, hw, halt, hend⟩ := h
  refine ⟨w, ⟨?_, hw.2⟩, halt, hend⟩
  rw [hw.1, List.count_cons_of_ne hne]

theorem KeyCyclic.done (h : KeyCyclic k act inn (.relog []) inProgress) : KeyCyclic k act inn .idle inProgress := by
  obtain ⟨w, hw, halt, hend⟩ := h
  refine ⟨w, ⟨?_, hw.2⟩, halt, hend⟩
  rw [hw.1]
  simp

/-- With nothing in progress, each file on its own leaves the key idle, or the start of the inactive file meets the
completion of the active one. -/
theorem KeyCyclic.read (h : KeyCyclic k act inn .idle False) :
    (inn = [] ∧ replay .idle act = (.idle : KeyState α)) ∨
      ∃ a, inn = [.start k a] ∧ replay .idle act = (.lost : KeyState α) ∧ replay (.pending a) act = .idle := by
  obtain ⟨w, ⟨rfl, hinn⟩, halt, hend⟩ := h
  rcases hinn with rfl | ⟨a, rfl⟩
  · refine Or.inl ⟨rfl, ?_⟩
    rw [List.nil_append] at halt hend
    rw [replay_eq_afterLast halt rfl]
    cases hl : act.getLast? with
    | none => rfl
    | some r =>
      cases r with
      | start k' b => exact absurd ((endsInStart_of_getLast? hl).2 rfl) hend.1
      | complete k' => rfl
  · refine Or.inr ⟨a, rfl, ?_⟩
    have hact : AlternatesFrom false act := halt.2
    rw [replay_eq_afterLastLost (s := .idle) hact rfl, replay_eq_afterLast hact ⟨a, rfl⟩]
    rw [endsInStart_append] at hend
    cases hl : act.getLast? with
    | none => exact (hend.1 (Or.inr ⟨List.getLast?_eq_none_iff.1 hl, rfl⟩)).elim
    | some r =>
      cases r with
      | start k' b => exact (hend.1 (Or.inl ((endsInStart_of_getLast? hl).2 rfl))).elim
      | complete k' => exact ⟨rfl, rfl⟩

/-! ### The log -/

theorem KeyCyclic.congr {inProgress' : Prop} (h : KeyCyclic k act inn pass inProgress)
    (hiff : inProgress ↔ inProgress') : KeyCyclic k act inn pass inProgress' := by
  rwa [← propext hiff]

namespace RotLog

/-- The invariant of a log whose keys may go through cycles, for the keys with an operation in progress. -/
def Cyclic (L : RotLog κ α) (inProgress : κ → Prop) : Prop :=
  ∀ k, KeyCyclic k (recordsOf k (L.file L.active)) (recordsOf k (L.file (L.active + 1))) L.pass (inProgress k)

variable {L L' : RotLog κ α} {inProgress : κ → Prop}

theorem cyclic_empty : Cyclic (⟨fun _ => [], 0, .idle⟩ : RotLog κ α) fun _ => False :=
  fun _ => ⟨[], ⟨rfl, Or.inl rfl⟩, trivial, iff_of_false (fun he => by cases he) id⟩

theorem recordsOf_append_active (r : Record κ α) (k : κ) :
    recordsOf k ((L.append r).file (L.append r).active) =
      recordsOf k (L.file L.active) ++ (if r.key = k then [r] else []) :=
  (recordsOf_append_file L r k L.active).trans (if_pos rfl)

theorem recordsOf_append_inactive (r : Record κ α) (k : κ) :
    recordsOf k ((L.append r).file ((L.append r).active + 1)) = recordsOf k (L.file (L.active + 1)) :=
  (recordsOf_append_file L r k (L.active + 1)).trans (if_neg (other_ne _))

/-- A record of another key changes nothing. -/
private theorem keyCyclic_append_of_ne {r : Record κ α} {k : κ} (hne : r.key ≠ k)
    (h : KeyCyclic k (recordsOf k (L.file L.active)) (recordsOf k (L.file (L.active + 1))) L.pass (inProgress k)) :
    KeyCyclic k (recordsOf k ((L.append r).file (L.append r).active))
      (recordsOf k ((L.append r).file ((L.append r).active + 1))) L.pass (inProgress k) := by
  rw [recordsOf_append_active, recordsOf_append_inactive, if_neg hne, List.append_nil]
  exact h

/-- A key with nothing in progress is started, outside a pass or when no file and no pass holds anything of it. -/
theorem Cyclic.start (h : L.Cyclic inProgress) {k : κ} (hno : ¬ inProgress k)
    (hpass : L.pass = .idle ∨ (∀ i, recordsOf k (L.file i) = []) ∧ ¬ L.pass.Carries k) (a : α) :
    (L.append (.start k a)).Cyclic fun k' => k' = k ∨ inProgress k' := by
  intro k'
  by_cases hk : k = k'
  · subst hk
    have hstart := (h k).start hno (hpass.imp_right fun hp => ⟨hp.1 _, hp.1 _, hp.2⟩) a
    rw [recordsOf_append_active, recordsOf_append_inactive, if_pos (show (Record.start k a).key = k from rfl)]
    exact hstart.congr (by simp)
  · exact (keyCyclic_append_of_ne (r := .start k a) hk (h k')).congr (by simp [Ne.symm hk])

/-- The operation in progress on a key is completed. -/
theorem Cyclic.complete (h : L.Cyclic inProgress) {k : κ} (hin : inProgress k) :
    (L.append (.complete k)).Cyclic fun k' => k' ≠ k ∧ inProgress k' := by
  intro k'
  by_cases hk : k = k'
  · subst hk
    have hcomplete := (h k).complete hin
    rw [recordsOf_append_active, recordsOf_append_inactive,
      if_pos (show (Record.complete k : Record κ α).key = k from rfl)]
    exact hcomplete.congr (by simp)
  · exact (keyCyclic_append_of_ne (r := .complete k) hk (h k')).congr (by simp [Ne.symm hk])

/-- The steps of a cleaning pass keep the invariant. -/
theorem Cyclic.clean (h : L.Cyclic inProgress) (hclean : L.Cleans L') : L'.Cyclic inProgress := by
  intro k
  have hk := h k
  cases hclean with
  | rotate hp =>
    rw [hp] at hk
    show KeyCyclic k (recordsOf k (L.file (L.active + 1))) (recordsOf k (L.file (L.active + 1 + 1))) .rotated _
    rw [other_other]
    exact hk.rotate
  | @rewrite new lost hp hnew hnodup =>
    rw [hp] at hk
    have hnew' : recordsOf k new = rewriteKey k (recordsOf k (L.file (L.active + 1))) := hnew.pending k
    show KeyCyclic k (recordsOf k (Function.update L.file (L.active + 1) new L.active))
      (recordsOf k (Function.update L.file (L.active + 1) new (L.active + 1))) (.relog lost) _
    rw [Function.update_self, Function.update_of_ne (other_ne L.active).symm, hnew']
    exact hk.rewrite hnodup (hnew.lost k)
  | @relog k' lost hp =>
    rw [hp] at hk
    show KeyCyclic k (recordsOf k ((L.append (.complete k')).file (L.append (.complete k')).active))
      (recordsOf k ((L.append (.complete k')).file ((L.append (.complete k')).active + 1))) (.relog lost) _
    rw [recordsOf_append_active, recordsOf_append_inactive]
    by_cases hkk : k' = k
    · subst hkk
      rw [if_pos (show (Record.complete k' : Record κ α).key = k' from rfl)]
      exact hk.relog
    · rw [if_neg (show (Record.complete k' : Record κ α).key ≠ k from hkk), List.append_nil]
      exact hk.relog_of_ne hkk
  | done hp =>
    rw [hp] at hk
    exact hk.done

/-- Outside a pass and with nothing in progress. -/
theorem Cyclic.read (h : L.Cyclic inProgress) (hp : L.pass = .idle) {k : κ} (hno : ¬ inProgress k) :
    (recordsOf k (L.file (L.active + 1)) = [] ∧ replayKey k (L.file L.active) = .idle) ∨
      ∃ a, recordsOf k (L.file (L.active + 1)) = [.start k a] ∧ replayKey k (L.file L.active) = .lost ∧
        replay (.pending a) (recordsOf k (L.file L.active)) = .idle := by
  have hk := h k
  rw [hp] at hk
  exact (hk.congr (iff_of_false hno id)).read

/-- In whichever order the files are read, nothing is pending and no completion is lost. -/
theorem Cyclic.replayKey_eq_idle (h : L.Cyclic inProgress) (hp : L.pass = .idle) {k : κ} (hno : ¬ inProgress k) :
    replayKey k (L.file 0 ++ L.file 1) = .idle := by
  have hread := h.read hp hno
  unfold replayKey at hread ⊢
  rw [recordsOf_append, replay_append]
  have hactive : L.active = 0 ∨ L.active = 1 := by omega
  rcases hactive with ha | ha
  · rw [ha] at hread
    rcases hread with ⟨hinn, hact⟩ | ⟨a, hinn, hact, -⟩
    · rw [hact, show recordsOf k (L.file 1) = [] from hinn]
      rfl
    · rw [hact, show recordsOf k (L.file 1) = [.start k a] from hinn]
      rfl
  · rw [ha] at hread
    rcases hread with ⟨hinn, hact⟩ | ⟨a, hinn, -, hact⟩
    · rw [show recordsOf k (L.file 0) = [] from hinn]
      exact hact
    · rw [show recordsOf k (L.file 0) = [.start k a] from hinn]
      exact hact

end RotLog

end KeyedLog

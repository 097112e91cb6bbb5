import BdbMsgStore.Lib.KeyedLog

/-!
# The words of one key

The records of one key form a word of starts and completions, and `replay` reads it with a counter that saturates at
one pending start and at one lost completion.  Here the result of reading is related to the shape of the word:

* a word that alternates is read exactly, and so is its second part before its first part unless the first part ends
  in a completion and the second one in a start (`replay_swap_of_alternates`);
* two readings of one word that begin in neighbouring states end with different pending operations only for words that
  alternate up to their last start (`Exposed`);
* reading never exchanges the order of two states and never moves them apart (`level_replay_le`,
  `level_replay_le_add`);
* what is pending at the end is the operation of the start that last moved the counter from zero to one
  (`replay_eq_pending_iff`).
-/

universe u v

namespace KeyedLog

variable {κ : Type u} {α : Type v}

def Record.isStart : Record κ α → Bool
  | .start _ _ => true
  | .complete _ => false

/-! ### Words that alternate -/

/-- Starts and completions alternate; the first record is a start or not, as the flag says. -/
def AlternatesFrom : Bool → List (Record κ α) → Prop
  | _, [] => True
  | b, r :: w => r.isStart = b ∧ AlternatesFrom (!b) w

/-- A word `start, completion, start, …`. -/
def Alternates (w : List (Record κ α)) : Prop := AlternatesFrom true w

def EndsInStart (w : List (Record κ α)) : Prop := w.getLast?.map Record.isStart = some true

def EndsInComplete (w : List (Record κ α)) : Prop := w.getLast?.map Record.isStart = some false

instance (w : List (Record κ α)) : Decidable (EndsInStart w) :=
  inferInstanceAs (Decidable (w.getLast?.map Record.isStart = some true))

instance (w : List (Record κ α)) : Decidable (EndsInComplete w) :=
  inferInstanceAs (Decidable (w.getLast?.map Record.isStart = some false))

/-- Whether the next record of an alternating word is a start. -/
def nextIsStart (b : Bool) (w : List (Record κ α)) : Bool :=
  match w.getLast? with
  | none => b
  | some r => !r.isStart

theorem nextIsStart_cons {b : Bool} {r : Record κ α} (hr : r.isStart = b) (w : List (Record κ α)) :
    nextIsStart b (r :: w) = nextIsStart (!b) w := by
  unfold nextIsStart
  rw [List.getLast?_cons]
  cases w.getLast? with
  | none => simp [hr]
  | some r' => rfl

theorem alternatesFrom_append {b : Bool} {w w' : List (Record κ α)} :
    AlternatesFrom b (w ++ w') ↔ AlternatesFrom b w ∧ AlternatesFrom (nextIsStart b w) w' := by
  induction w generalizing b with
  | nil => exact ⟨fun h => ⟨trivial, h⟩, fun h => h.2⟩
  | cons r w ih =>
    rw [List.cons_append, AlternatesFrom, AlternatesFrom, ih]
    constructor
    · rintro ⟨hr, hw, hw'⟩
      rw [nextIsStart_cons hr]
      exact ⟨⟨hr, hw⟩, hw'⟩
    · rintro ⟨⟨hr, hw⟩, hw'⟩
      rw [nextIsStart_cons hr] at hw'
      exact ⟨hr, hw, hw'⟩

/-- The state after the last record of a word in which every completion meets a pending start. -/
def afterLast (s : KeyState α) : Option (Record κ α) → KeyState α
  | none => s
  | some (.start _ a) => .pending a
  | some (.complete _) => .idle

/-- The state after the last record of a word in which every start meets a lost completion. -/
def afterLastLost (s : KeyState α) : Option (Record κ α) → KeyState α
  | none => s
  | some (.start _ _) => .idle
  | some (.complete _) => .lost

private theorem afterLast_cons (s : KeyState α) (r : Record κ α) (w : List (Record κ α)) :
    afterLast s (r :: w).getLast? = afterLast (afterLast s (some r)) w.getLast? := by
  rw [List.getLast?_cons]
  cases w.getLast? with
  | none => rfl
  | some r' => cases r' <;> rfl

private theorem afterLastLost_cons (s : KeyState α) (r : Record κ α) (w : List (Record κ α)) :
    afterLastLost s (r :: w).getLast? = afterLastLost (afterLastLost s (some r)) w.getLast? := by
  rw [List.getLast?_cons]
  cases w.getLast? with
  | none => rfl
  | some r' => cases r' <;> rfl

/-- An alternating word is read exactly, from an idle key on or, if it begins with a completion, from a pending
one. -/
theorem replay_eq_afterLast {b : Bool} {w : List (Record κ α)} (h : AlternatesFrom b w) {s : KeyState α}
    (hs : if b then s = .idle else ∃ a, s = .pending a) : replay s w = afterLast s w.getLast? := by
  induction w generalizing b s with
  | nil => rfl
  | cons r w ih =>
    obtain ⟨hr, hw⟩ := h
    rw [replay_cons, afterLast_cons]
    cases r with
    | start k a =>
      obtain rfl : true = b := hr
      obtain rfl : s = .idle := hs
      exact ih hw ⟨a, rfl⟩
    | complete k =>
      obtain rfl : false = b := hr
      obtain ⟨a, rfl⟩ : ∃ a, s = .pending a := hs
      exact ih hw rfl

/-- The same word one state below. -/
theorem replay_eq_afterLastLost {b : Bool} {w : List (Record κ α)} (h : AlternatesFrom b w) {s : KeyState α}
    (hs : s = if b then .lost else .idle) : replay s w = afterLastLost s w.getLast? := by
  induction w generalizing b s with
  | nil => rfl
  | cons r w ih =>
    obtain ⟨hr, hw⟩ := h
    rw [replay_cons, afterLastLost_cons]
    cases r with
    | start k a =>
      obtain rfl : true = b := hr
      obtain rfl : s = .lost := hs
      exact ih hw rfl
    | complete k =>
      obtain rfl : false = b := hr
      obtain rfl : s = .idle := hs
      exact ih hw rfl

/-- An alternating word that ends in a completion takes a pending start away. -/
private theorem replay_pending_eq_idle {w : List (Record κ α)} (h : Alternates w) (he : EndsInComplete w) (a : α) :
    replay (.pending a) w = .idle := by
  cases w with
  | nil => cases he
  | cons r w =>
    obtain ⟨hr, hw⟩ := h
    cases r with
    | complete k => cases hr
    | start k x =>
      show replay (.pending a) w = .idle
      rw [replay_eq_afterLast hw ⟨a, rfl⟩]
      unfold EndsInComplete at he
      rw [List.getLast?_cons] at he
      cases hl : w.getLast? with
      | none =>
        rw [hl] at he
        cases he
      | some r' =>
        cases r' with
        | start k' y =>
          rw [hl] at he
          cases he
        | complete k' => rfl

theorem endsInStart_of_getLast? {w : List (Record κ α)} {r : Record κ α} (h : w.getLast? = some r) :
    EndsInStart w ↔ r.isStart = true := by
  unfold EndsInStart
  rw [h, Option.map_some, Option.some.injEq]

theorem endsInComplete_of_getLast? {w : List (Record κ α)} {r : Record κ α} (h : w.getLast? = some r) :
    EndsInComplete w ↔ r.isStart = false := by
  unfold EndsInComplete
  rw [h, Option.map_some, Option.some.injEq]

theorem endsInStart_append {w w' : List (Record κ α)} :
    EndsInStart (w ++ w') ↔ EndsInStart w' ∨ w' = [] ∧ EndsInStart w := by
  unfold EndsInStart
  rw [List.getLast?_append]
  cases hl : w'.getLast? with
  | none => simp [List.getLast?_eq_none_iff.1 hl]
  | some r =>
    have hne : w' ≠ [] := fun he => by rw [he] at hl; cases hl
    simp [hne]

private theorem isSome_pending?_afterLast (w : List (Record κ α)) :
    (afterLast .idle w.getLast?).pending?.isSome = true ↔ EndsInStart w := by
  unfold EndsInStart
  cases w.getLast? with
  | none => simp [afterLast, KeyState.pending?]
  | some r => cases r <;> simp [afterLast, KeyState.pending?, Record.isStart]

/-- In the right order an alternating word leaves a key pending exactly if it ends in a start. -/
theorem isSome_replay_of_alternates {w : List (Record κ α)} (h : Alternates w) :
    (replay .idle w).pending?.isSome = true ↔ EndsInStart w := by
  rw [replay_eq_afterLast h rfl]
  exact isSome_pending?_afterLast w

/-- Reading the second part of an alternating word first gives the same answer, except when the first part ends in a
completion and the second part in a start. -/
theorem replay_swap_of_alternates {older newer : List (Record κ α)} (h : Alternates (older ++ newer)) :
    (replay .idle (newer ++ older)).pending?.isSome = true ↔
      EndsInStart (older ++ newer) ∧ ¬ (EndsInComplete older ∧ EndsInStart newer) := by
  obtain ⟨holder, hnewer⟩ := alternatesFrom_append.1 h
  unfold nextIsStart at hnewer
  rw [replay_append, endsInStart_append]
  cases hlast : older.getLast? with
  | none =>
    -- the older part is empty
    obtain rfl := List.getLast?_eq_none_iff.1 hlast
    have hno : ¬ EndsInStart ([] : List (Record κ α)) := fun he => by cases he
    have hno' : ¬ EndsInComplete ([] : List (Record κ α)) := fun he => by cases he
    rw [replay_nil, isSome_replay_of_alternates hnewer]
    tauto
  | some r =>
    rw [endsInStart_of_getLast? hlast, endsInComplete_of_getLast? hlast]
    rw [hlast] at hnewer
    cases r with
    | complete k =>
      by_cases hn : EndsInStart newer
      · -- the pending start of the newer part meets the completion of the older one
        obtain ⟨a, ha⟩ := Option.isSome_iff_exists.1 ((isSome_replay_of_alternates hnewer).2 hn)
        rw [KeyState.pending?_eq_some.1 ha,
          replay_pending_eq_idle holder ((endsInComplete_of_getLast? hlast).2 rfl)]
        simp [KeyState.pending?, Record.isStart, hn]
      · have hidle : replay .idle newer = (.idle : KeyState α) := by
          rw [replay_eq_afterLast hnewer rfl]
          cases hl : newer.getLast? with
          | none => rfl
          | some r' =>
            rw [endsInStart_of_getLast? hl] at hn
            cases r' with
            | start k a => exact absurd rfl hn
            | complete k => rfl
        rw [hidle, isSome_replay_of_alternates holder, endsInStart_of_getLast? hlast]
        simp [Record.isStart, hn]
    | start k a =>
      rw [replay_eq_afterLastLost (s := .idle) hnewer rfl]
      cases hl : newer.getLast? with
      | none =>
        obtain rfl := List.getLast?_eq_none_iff.1 hl
        show (replay .idle older).pending?.isSome = true ↔ _
        rw [isSome_replay_of_alternates holder, endsInStart_of_getLast? hlast]
        simp [Record.isStart]
      | some r' =>
        have hne : newer ≠ [] := fun he => by rw [he] at hl; cases hl
        rw [endsInStart_of_getLast? hl]
        cases r' with
        | start k' x =>
          show (replay .idle older).pending?.isSome = true ↔ _
          rw [isSome_replay_of_alternates holder, endsInStart_of_getLast? hlast]
          simp [Record.isStart]
        | complete k' =>
          -- the lost completion of the newer part cancels the last start of the older one
          show (replay .lost older).pending?.isSome = true ↔ _
          rw [replay_eq_afterLastLost (s := .lost) holder rfl, hlast]
          simp [afterLastLost, KeyState.pending?, Record.isStart, hne]

/-! ### Two readings of one word -/

/-- The state as a number: a lost completion lies below, a pending start above an idle key. -/
def KeyState.level : KeyState α → Int
  | .lost => -1
  | .idle => 0
  | .pending _ => 1

/-- The counter that saturates at `1` and at `-1`: a start adds one, a completion subtracts one. -/
def countRecord (n : Int) (r : Record κ α) : Int := if r.isStart then min 1 (n + 1) else max (-1) (n - 1)

/-- The counter after a word. -/
def counter (n : Int) (w : List (Record κ α)) : Int := w.foldl countRecord n

theorem KeyState.pending?_eq_none_iff_level {s : KeyState α} : s.pending? = none ↔ s.level ≤ 0 := by
  cases s <;> simp [KeyState.pending?, KeyState.level]

private theorem level_step (s : KeyState α) (r : Record κ α) : (s.step r).level = countRecord s.level r := by
  cases s <;> cases r <;> rfl

/-- Reading a word moves the level as the counter moves. -/
theorem level_replay (s : KeyState α) (w : List (Record κ α)) : (replay s w).level = counter s.level w := by
  induction w generalizing s with
  | nil => rfl
  | cons r w ih =>
    rw [replay_cons, ih, level_step]
    rfl

private theorem step_eq_pending_iff {s : KeyState α} {r : Record κ α} {a : α} :
    s.step r = .pending a ↔ (s = .pending a ∧ (s.step r).level = 1) ∨ (s.level = 0 ∧ ∃ k, r = .start k a) := by
  cases s <;> cases r <;> simp [KeyState.step, KeyState.level]

/-- The operation that is pending after a word was pending all the time, or is that of the start that last moved the
counter from `0` to `1`. -/
theorem replay_eq_pending_iff {s : KeyState α} {w : List (Record κ α)} {a : α} :
    replay s w = .pending a ↔
      (s = .pending a ∧ ∀ l, l <+: w → counter s.level l = 1) ∨
        ∃ l₁ k l₂, w = l₁ ++ .start k a :: l₂ ∧ counter s.level l₁ = 0 ∧ ∀ l, l <+: l₂ → counter 1 l = 1 := by
  induction w generalizing s with
  | nil =>
    constructor
    · intro h
      cases h
      refine Or.inl ⟨rfl, fun l hl => ?_⟩
      rw [List.prefix_nil.1 hl]
      rfl
    · rintro (⟨h, -⟩ | ⟨l₁, k, l₂, h, -⟩)
      · exact h
      · simp at h
  | cons r w ih =>
    have hcons : ∀ l, counter s.level (r :: l) = counter (s.step r).level l := fun l => by
      rw [level_step]
      rfl
    rw [replay_cons, ih]
    constructor
    · rintro (⟨hstep, hall⟩ | ⟨l₁, k, l₂, rfl, hzero, hall⟩)
      · rcases step_eq_pending_iff.1 hstep with ⟨rfl, -⟩ | ⟨hidle, k, rfl⟩
        · refine Or.inl ⟨rfl, fun l hl => ?_⟩
          rcases List.prefix_cons_iff.1 hl with rfl | ⟨l', rfl, hl'⟩
          · rfl
          · rw [hcons]
            exact hall l' hl'
        · rw [hstep] at hall
          exact Or.inr ⟨[], k, w, rfl, hidle, hall⟩
      · refine Or.inr ⟨r :: l₁, k, l₂, rfl, ?_, hall⟩
        rw [hcons]
        exact hzero
    · rintro (⟨rfl, hall⟩ | ⟨l₁, k, l₂, hw, hzero, hall⟩)
      · have hlevel := hall [r] (List.prefix_append [r] w)
        rw [hcons] at hlevel
        refine Or.inl ⟨step_eq_pending_iff.2 (Or.inl ⟨rfl, hlevel⟩), fun l hl => ?_⟩
        rw [← hcons]
        exact hall (r :: l) (List.cons_prefix_cons.2 ⟨rfl, hl⟩)
      · cases l₁ with
        | nil =>
          obtain ⟨rfl, rfl⟩ := List.cons.inj hw
          have hstep : s.step (.start k a) = .pending a := step_eq_pending_iff.2 (Or.inr ⟨hzero, k, rfl⟩)
          refine Or.inl ⟨hstep, ?_⟩
          rw [hstep]
          exact hall
        | cons r' l₁ =>
          obtain ⟨rfl, rfl⟩ := List.cons.inj hw
          rw [hcons] at hzero
          exact Or.inr ⟨l₁, k, l₂, rfl, hzero, hall⟩

/-- Reading keeps the order of two states. -/
theorem level_replay_le {s t : KeyState α} (h : s.level ≤ t.level) (w : List (Record κ α)) :
    (replay s w).level ≤ (replay t w).level := by
  induction w generalizing s t with
  | nil => exact h
  | cons r w ih =>
    refine ih ?_
    rw [level_step, level_step]
    unfold countRecord
    split <;> omega

/-- Reading does not move two states apart. -/
theorem level_replay_le_add {s t : KeyState α} (h : t.level ≤ s.level + 1) (w : List (Record κ α)) :
    (replay t w).level ≤ (replay s w).level + 1 := by
  induction w generalizing s t with
  | nil => exact h
  | cons r w ih =>
    refine ih ?_
    rw [level_step, level_step]
    unfold countRecord
    split <;> omega

/-- A lost completion before a word makes nothing pending. -/
theorem pending?_replay_lost_eq_none {w : List (Record κ α)} (h : (replay (.idle : KeyState α) w).pending? = none) :
    (replay (.lost : KeyState α) w).pending? = none := by
  rw [KeyState.pending?_eq_none_iff_level] at h ⊢
  have hle := level_replay_le (s := (.lost : KeyState α)) (t := .idle) (by simp [KeyState.level]) w
  omega

/-- Whether a key is pending after a word does not depend on the operation that was pending before. -/
theorem pending?_replay_pending_eq_none (a b : α) (w : List (Record κ α)) :
    (replay (.pending a) w).pending? = none ↔ (replay (.pending b) w).pending? = none := by
  rw [KeyState.pending?_eq_none_iff_level, KeyState.pending?_eq_none_iff_level]
  have hab := level_replay_le (s := .pending a) (t := .pending b) (le_refl _) w
  have hba := level_replay_le (s := .pending b) (t := .pending a) (le_refl _) w
  omega

/-- Starts alone leave a pending key as it is. -/
theorem replay_pending_starts {w : List (Record κ α)} (h : ∀ r ∈ w, r.isStart = true) (a : α) :
    replay (.pending a) w = .pending a := by
  induction w with
  | nil => rfl
  | cons r w ih =>
    have hr := h r (List.mem_cons_self ..)
    cases r with
    | complete k => cases hr
    | start k x => exact ih fun r' hr' => h r' (List.mem_cons_of_mem _ hr')

/-- A completion makes the readings from two pending operations agree. -/
theorem replay_pending_eq_of_complete {w : List (Record κ α)} (h : ¬ ∀ r ∈ w, r.isStart = true) (a b : α) :
    replay (.pending a) w = replay (.pending b) w := by
  induction w with
  | nil => exact absurd (fun _ hr => by cases hr) h
  | cons r w ih =>
    cases r with
    | complete k => rfl
    | start k x =>
      refine ih fun hw => h fun r' hr' => ?_
      rcases List.mem_cons.1 hr' with rfl | hr'
      · rfl
      · exact hw r' hr'

/-- After completions nothing is pending. -/
theorem pending?_replay_completes {w : List (Record κ α)} (h : ∀ r ∈ w, r.isStart = false) (hne : w ≠ [])
    (s : KeyState α) : (replay s w).pending? = none := by
  obtain ⟨w', r, rfl⟩ : ∃ w' r, w = w' ++ [r] := ⟨w.dropLast, w.getLast hne, (List.dropLast_append_getLast hne).symm⟩
  have hr := h r (List.mem_append_right _ (List.mem_singleton_self r))
  rw [replay_append]
  cases r with
  | start k a => cases hr
  | complete k => cases replay s w' <;> rfl

/-- Completions of many keys, read for one of them. -/
theorem pending?_replay_completeAll [DecidableEq κ] (ks : List κ) (k : κ) [Decidable (k ∈ ks)] (s : KeyState α) :
    (replay s (recordsOf k (ks.map .complete))).pending? = if k ∈ ks then none else s.pending? := by
  split
  · rename_i hmem
    have hcompletes : ∀ r ∈ recordsOf k (ks.map (.complete : κ → Record κ α)), r.isStart = false := by
      intro r hr
      obtain ⟨k', -, rfl⟩ := List.mem_map.1 (List.mem_filter.1 hr).1
      rfl
    have hin : (.complete k : Record κ α) ∈ recordsOf k (ks.map .complete) :=
      List.mem_filter.2 ⟨List.mem_map_of_mem hmem, decide_eq_true rfl⟩
    exact pending?_replay_completes hcompletes (List.ne_nil_of_mem hin) s
  · rename_i hmem
    have hempty : recordsOf k (ks.map (.complete : κ → Record κ α)) = [] := by
      unfold recordsOf
      rw [List.filter_eq_nil_iff]
      intro r hr hk
      obtain ⟨k', hk', rfl⟩ := List.mem_map.1 hr
      have hkk : k' = k := of_decide_eq_true hk
      exact hmem (hkk ▸ hk')
    rw [hempty]
    rfl

/-- The word alternates up to a start after which no completion follows, and if further starts follow, the first of
them is another operation. -/
def Exposed : List (Record κ α) → Prop
  | [] => False
  | [.start _ _] => True
  | [.complete _] => False
  | .start _ a :: .start _ b :: w => a ≠ b ∧ ∀ r ∈ w, r.isStart = true
  | .start _ _ :: .complete k :: w => Exposed (.complete k :: w)
  | .complete _ :: .start k a :: w => Exposed (.start k a :: w)
  | .complete _ :: .complete _ :: _ => False

/-- A pending start or a lost completion before the word `w` makes a difference exactly if it exposes the word. -/
theorem pending?_replay_ne_iff (k : κ) (w : List (Record κ α)) :
    (∀ a, (replay (.pending a) w).pending? ≠ (replay .idle w).pending? ↔ Exposed (.start k a :: w)) ∧
      ((replay .lost w).pending? ≠ (replay .idle w).pending? ↔ Exposed (.complete k :: w)) := by
  induction w generalizing k with
  | nil =>
    refine ⟨fun a => ?_, ?_⟩
    · simp [Exposed, KeyState.pending?]
    · simp [Exposed, KeyState.pending?]
  | cons r w ih =>
    cases r with
    | start k' b =>
      refine ⟨fun a => ?_, ?_⟩
      · show (replay (.pending a) w).pending? ≠ (replay (.pending b) w).pending? ↔
          a ≠ b ∧ ∀ r ∈ w, r.isStart = true
        by_cases hw : ∀ r ∈ w, r.isStart = true
        · rw [replay_pending_starts hw, replay_pending_starts hw]
          simp only [KeyState.pending?, ne_eq, Option.some.injEq]
          exact (and_iff_left hw).symm
        · rw [replay_pending_eq_of_complete hw a b]
          simp [hw]
      · show (replay .idle w).pending? ≠ (replay (.pending b) w).pending? ↔ Exposed (.start k' b :: w)
        rw [ne_comm]
        exact (ih k').1 b
    | complete k' =>
      refine ⟨fun a => ?_, ?_⟩
      · show (replay .idle w).pending? ≠ (replay .lost w).pending? ↔ Exposed (.complete k' :: w)
        rw [ne_comm]
        exact (ih k').2
      · show (replay .lost w).pending? ≠ (replay .lost w).pending? ↔ False
        simp

/-- Whether the word is read from this state or from an idle key makes a difference for what is pending after it. -/
def KeyState.Exposes (k : κ) (w : List (Record κ α)) : KeyState α → Prop
  | .idle => False
  | .pending a => Exposed (.start k a :: w)
  | .lost => Exposed (.complete k :: w)

theorem pending?_replay_eq_iff (k : κ) (s : KeyState α) (w : List (Record κ α)) :
    (replay .idle w).pending? = (replay s w).pending? ↔ ¬ s.Exposes k w := by
  obtain ⟨hpending, hlost⟩ := pending?_replay_ne_iff k w
  cases s with
  | idle => exact iff_of_true rfl id
  | pending a => rw [KeyState.Exposes, ← hpending a, not_ne_iff, eq_comm]
  | lost => rw [KeyState.Exposes, ← hlost, not_ne_iff, eq_comm]

/-- Completions, each followed by a start: from the pending operation `a` on, the last start is `b`. -/
def Cycles (a b : α) : List (Record κ α) → Prop
  | [] => a = b
  | .complete _ :: .start _ x :: w => Cycles x b w
  | _ => False

/-- A word that leaves no idle key pending leaves a pending operation pending only in whole cycles. -/
theorem replay_pending_eq_pending_iff {w : List (Record κ α)} (h : (replay .idle w).pending? = none) (a b : α) :
    replay (.pending a) w = .pending b ↔ Cycles a b w := by
  induction hn : w.length using Nat.strong_induction_on generalizing w a with
  | _ n ih =>
    match w with
    | [] => simp [Cycles]
    | .start k x :: w =>
      have hnone : (replay (.pending a) w).pending? = none := (pending?_replay_pending_eq_none a x w).2 h
      show replay (.pending a) w = .pending b ↔ False
      exact iff_of_false (KeyState.pending?_eq_none.1 hnone b) id
    | [.complete k] => simp [replay, KeyState.step, Cycles]
    | .complete k :: .complete k' :: w =>
      have hlost : (replay .lost w).pending? = none := h
      show replay .lost w = .pending b ↔ False
      exact iff_of_false (KeyState.pending?_eq_none.1 hlost b) id
    | .complete k :: .start k' x :: w =>
      have hidle : (replay .idle w).pending? = none := h
      rw [List.length_cons, List.length_cons] at hn
      exact ih w.length (by omega) hidle x rfl

end KeyedLog

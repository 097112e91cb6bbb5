import BdbMsgStore.Lib.LogCycles

/-!
# What the passes make of a key that is left alone

`LogCycles` follows a key while its records are appended.  Here no record of the key is appended any more, and the
cleaning passes alone change its words: a pass that finds the word `a` in the active and `b` in the inactive file
leaves `b ++ lostOf k a` and `rewriteKey k a`.  `Passed k P` is what a pass makes of the words that satisfy `P`, and
`During k P` holds from the beginning of such a pass to the beginning of the next one.

In the end the files hold one record of the key, or none (`Represents`).  A key whose records alternate is there
after two passes: its operation in progress is represented by its start, and of a completed one nothing is left
(`RotLog.Aged.atRest`).  A key whose records were all made between two passes is there after one: what is left is what
replaying them gives (`RotLog.Bursts.represents`), which may be a lost completion that all later passes carry on.
-/

universe u v

namespace KeyedLog

variable {κ : Type u} {α : Type v} {k : κ} {P Q : List (Record κ α) → List (Record κ α) → Prop}
  {act inn : List (Record κ α)}

/-! ### One pass -/

/-- The completion that a pass appends again. -/
def lostOf (k : κ) (w : List (Record κ α)) : List (Record κ α) :=
  match replay .idle w with
  | .lost => [.complete k]
  | _ => []

/-- The words after a pass that finds words with the property `P`. -/
def Passed (k : κ) (P : List (Record κ α) → List (Record κ α) → Prop) (act inn : List (Record κ α)) : Prop :=
  ∃ a b, P a b ∧ act = b ++ lostOf k a ∧ inn = rewriteKey k a

theorem Passed.mono (himp : ∀ a b, P a b → Q a b) (h : Passed k P act inn) : Passed k Q act inn := by
  obtain ⟨a, b, hab, hact, hinn⟩ := h
  exact ⟨a, b, himp a b hab, hact, hinn⟩

theorem lostOf_of_idle {w : List (Record κ α)} (h : replay .idle w = (.idle : KeyState α)) : lostOf k w = [] := by
  unfold lostOf
  rw [h]

theorem lostOf_of_pending {w : List (Record κ α)} {a : α} (h : replay .idle w = .pending a) : lostOf k w = [] := by
  unfold lostOf
  rw [h]

theorem lostOf_of_lost {w : List (Record κ α)} (h : replay .idle w = (.lost : KeyState α)) :
    lostOf k w = [.complete k] := by
  unfold lostOf
  rw [h]

theorem rewriteKey_of_idle {w : List (Record κ α)} (h : replay .idle w = (.idle : KeyState α)) :
    rewriteKey k w = [] := by
  unfold rewriteKey
  rw [h]

theorem rewriteKey_of_pending {w : List (Record κ α)} {a : α} (h : replay .idle w = .pending a) :
    rewriteKey k w = [.start k a] := by
  unfold rewriteKey
  rw [h]

theorem rewriteKey_of_lost {w : List (Record κ α)} (h : replay .idle w = (.lost : KeyState α)) :
    rewriteKey k w = [] := by
  unfold rewriteKey
  rw [h]

section

variable [DecidableEq κ]

/-- A pass has begun on words with the property `P`, and the next one has not. -/
def During (k : κ) (P : List (Record κ α) → List (Record κ α) → Prop) (act inn : List (Record κ α)) : Pass κ → Prop
  | .idle => Passed k P act inn
  | .rotated => P inn act
  | .relog lost => ∃ a b, P a b ∧
      act ++ List.replicate (lost.count k) (.complete k) = b ++ lostOf k a ∧ inn = rewriteKey k a

theorem During.mono {pass : Pass κ} (himp : ∀ a b, P a b → Q a b) (h : During k P act inn pass) :
    During k Q act inn pass := by
  cases pass with
  | idle => exact Passed.mono himp h
  | rotated => exact himp _ _ h
  | relog lost =>
    obtain ⟨a, b, hab, hact, hinn⟩ := h
    exact ⟨a, b, himp a b hab, hact, hinn⟩

theorem During.rewrite (h : During k P act inn .rotated) {lost : List κ} (hnodup : lost.Nodup)
    (hlost : k ∈ lost ↔ replay .idle inn = (.lost : KeyState α)) :
    During k P act (rewriteKey k inn) (.relog lost) := by
  refine ⟨inn, act, h, ?_, rfl⟩
  congr 1
  cases hst : replay .idle inn with
  | lost =>
    rw [lostOf_of_lost hst, List.count_eq_one_of_mem hnodup (hlost.2 hst)]
    rfl
  | idle =>
    rw [lostOf_of_idle hst, List.count_eq_zero.2 fun hk => by cases hst.symm.trans (hlost.1 hk)]
    rfl
  | pending a =>
    rw [lostOf_of_pending hst, List.count_eq_zero.2 fun hk => by cases hst.symm.trans (hlost.1 hk)]
    rfl

theorem During.relog {lost : List κ} (h : During k P act inn (.relog (k :: lost))) :
    During k P (act ++ [.complete k]) inn (.relog lost) := by
  obtain ⟨a, b, hab, hact, hinn⟩ := h
  refine ⟨a, b, hab, ?_, hinn⟩
  rw [← hact, List.count_cons_self, List.replicate_succ, List.append_assoc, List.singleton_append]

theorem During.relog_of_ne {k' : κ} {lost : List κ} (hne : k' ≠ k) (h : During k P act inn (.relog (k' :: lost))) :
    During k P act inn (.relog lost) := by
  obtain ⟨a, b, hab, hact, hinn⟩ := h
  refine ⟨a, b, hab, ?_, hinn⟩
  rw [← hact, List.count_cons_of_ne hne]

theorem During.done (h : During k P act inn (.relog [])) : During k P act inn .idle := by
  obtain ⟨a, b, hab, hact, hinn⟩ := h
  refine ⟨a, b, hab, ?_, hinn⟩
  rw [← hact, List.count_nil, List.replicate_zero, List.append_nil]

/-! ### The log -/

namespace RotLog

variable {L L' : RotLog κ α}

/-- A pass has begun when the words of the key had the property `P`, and the next one has not. -/
def During (L : RotLog κ α) (k : κ) (P : List (Record κ α) → List (Record κ α) → Prop) : Prop :=
  KeyedLog.During k P (recordsOf k (L.file L.active)) (recordsOf k (L.file (L.active + 1))) L.pass

/-- A record of another key. -/
theorem During.append_of_ne (h : L.During k P) {r : Record κ α} (hne : r.key ≠ k) : (L.append r).During k P := by
  unfold During
  rw [recordsOf_append_active, recordsOf_append_inactive, if_neg hne, List.append_nil]
  exact h

theorem During.mono (himp : ∀ a b, P a b → Q a b) (h : L.During k P) : L.During k Q := KeyedLog.During.mono himp h

/-- A pass begins. -/
theorem during_rotate (h : P (recordsOf k (L.file L.active)) (recordsOf k (L.file (L.active + 1)))) :
    L.rotate.During k P := by
  show P (recordsOf k (L.file (L.active + 1 + 1))) (recordsOf k (L.file (L.active + 1)))
  rw [other_other]
  exact h

/-- The steps of the pass. -/
theorem During.clean (h : L.During k P) (hclean : L.Cleans L') (hpass : L.pass ≠ .idle) : L'.During k P := by
  unfold During at h
  cases hclean with
  | rotate hp => exact absurd hp hpass
  | @rewrite new lost hp hnew hnodup =>
    rw [hp] at h
    have hnew' : recordsOf k new = rewriteKey k (recordsOf k (L.file (L.active + 1))) := hnew.pending k
    show KeyedLog.During k P (recordsOf k (Function.update L.file (L.active + 1) new L.active))
      (recordsOf k (Function.update L.file (L.active + 1) new (L.active + 1))) (.relog lost)
    rw [Function.update_self, Function.update_of_ne (other_ne L.active).symm, hnew']
    exact h.rewrite hnodup (hnew.lost k)
  | @relog k' lost hp =>
    rw [hp] at h
    show KeyedLog.During k P (recordsOf k ((L.append (.complete k')).file (L.append (.complete k')).active))
      (recordsOf k ((L.append (.complete k')).file ((L.append (.complete k')).active + 1))) (.relog lost)
    rw [recordsOf_append_active, recordsOf_append_inactive]
    by_cases hkk : k' = k
    · subst hkk
      rw [if_pos (show (Record.complete k' : Record κ α).key = k' from rfl)]
      exact h.relog
    · rw [if_neg (show (Record.complete k' : Record κ α).key ≠ k from hkk), List.append_nil]
      exact h.relog_of_ne hkk
  | done hp =>
    rw [hp] at h
    exact h.done

/-- The next pass begins. -/
theorem During.rotate (h : L.During k P) (hpass : L.pass = .idle) : L.rotate.During k (Passed k P) := by
  unfold During at h
  rw [hpass] at h
  exact during_rotate h

end RotLog

/-! ### The record that is left -/

/-- The record that represents a state of the key. -/
def KeyState.record (k : κ) : KeyState α → List (Record κ α)
  | .idle => []
  | .pending a => [.start k a]
  | .lost => [.complete k]

omit [DecidableEq κ] in
theorem replay_record (st : KeyState α) : replay .idle (st.record k) = st := by cases st <;> rfl

/-- The files hold the record of the state and no other; a completion stands in the active file. -/
def Represents (k : κ) (st : KeyState α) (act inn : List (Record κ α)) : Prop :=
  act = st.record k ∧ inn = [] ∨ st ≠ .lost ∧ act = [] ∧ inn = st.record k

variable {st : KeyState α}

omit [DecidableEq κ] in
/-- A word that the active file holds alone, after a pass. -/
theorem represents_of_passed {w : List (Record κ α)} (h : Passed k (fun a b => a = w ∧ b = []) act inn) :
    Represents k (replay .idle w) act inn := by
  obtain ⟨a, b, ⟨rfl, rfl⟩, rfl, rfl⟩ := h
  cases hst : replay .idle a with
  | idle =>
    rw [lostOf_of_idle hst, rewriteKey_of_idle hst]
    exact Or.inl ⟨rfl, rfl⟩
  | pending x =>
    rw [lostOf_of_pending hst, rewriteKey_of_pending hst]
    exact Or.inr ⟨by simp, rfl, rfl⟩
  | lost =>
    rw [lostOf_of_lost hst, rewriteKey_of_lost hst]
    exact Or.inl ⟨rfl, rfl⟩

omit [DecidableEq κ] in
/-- The next passes move the record, or append it again. -/
theorem Passed.represents (h : Passed k (Represents k st) act inn) : Represents k st act inn := by
  obtain ⟨a, b, ⟨rfl, rfl⟩ | ⟨hne, rfl, rfl⟩, hact, hinn⟩ := h
  · have hpassed := represents_of_passed (k := k) (w := st.record k) ⟨_, _, ⟨rfl, rfl⟩, hact, hinn⟩
    rwa [replay_record] at hpassed
  · refine Or.inl ⟨?_, hinn⟩
    rw [hact]
    exact List.append_nil _

/-- A record that is no completion is in a file at every point of a pass. -/
theorem During.represents {pass : Pass κ} (hne : st ≠ .lost) (h : During k (Represents k st) act inn pass) :
    Represents k st act inn := by
  cases pass with
  | idle => exact Passed.represents h
  | rotated =>
    rcases h with ⟨hinn, hact⟩ | ⟨-, hinn, hact⟩
    · exact Or.inr ⟨hne, hact, hinn⟩
    · exact Or.inl ⟨hact, hinn⟩
  | relog lost =>
    obtain ⟨a, b, hab, hact, hinn⟩ := h
    -- no completion is carried: the record of the state is none
    have hlost : lostOf k a = [] := by
      rcases hab with ⟨rfl, -⟩ | ⟨-, rfl, -⟩
      · cases st with
        | idle => rfl
        | pending x => rfl
        | lost => exact absurd rfl hne
      · rfl
    rw [hlost, List.append_nil] at hact
    have hcarried : lost.count k = 0 := by
      by_contra hpos
      have hmem : .complete k ∈ b := by
        rw [← hact]
        exact List.mem_append_right _ (List.mem_replicate.2 ⟨hpos, rfl⟩)
      rcases hab with ⟨-, rfl⟩ | ⟨-, -, rfl⟩
      · cases hmem
      · cases st with
        | idle => cases hmem
        | pending x => cases List.mem_singleton.1 hmem
        | lost => exact hne rfl
    rw [hcarried, List.replicate_zero, List.append_nil] at hact
    exact Passed.represents ⟨a, b, hab, by rw [hlost, List.append_nil, hact], hinn⟩

/-! ### The events of a log -/

/-- What happens to a log: a record is appended, or a pass begins. -/
inductive LogEvent (κ : Type u) (α : Type v) where
  | record (r : Record κ α)
  | pass

/-- A step of the log, with its event if it has one. -/
inductive RotLog.Logs (L : RotLog κ α) : List (LogEvent κ α) → RotLog κ α → Prop where
  | append (r : Record κ α) : Logs L [.record r] (L.append r)
  | rotate (hp : L.pass = .idle) : Logs L [.pass] L.rotate
  | clean {L' : RotLog κ α} (hp : L.pass ≠ .idle) (hclean : L.Cleans L') : Logs L [] L'

/-- How many passes have begun since the last record of the key. -/
def passesSince (k : κ) (es : List (LogEvent κ α)) : Nat :=
  es.foldl (fun n e =>
    match e with
    | .record r => if r.key = k then 0 else n
    | .pass => n + 1) 0

theorem passesSince_append (k : κ) (es : List (LogEvent κ α)) (e : LogEvent κ α) :
    passesSince k (es ++ [e]) =
      match e with
      | .record r => if r.key = k then 0 else passesSince k es
      | .pass => passesSince k es + 1 :=
  List.foldl_append

namespace RotLog

variable {L L' : RotLog κ α}

/-- The files hold the record of the state of the key and no other. -/
def Represents (L : RotLog κ α) (k : κ) (st : KeyState α) : Prop :=
  KeyedLog.Represents k st (recordsOf k (L.file L.active)) (recordsOf k (L.file (L.active + 1)))

theorem Represents.recordsOf_files (h : L.Represents k st) : recordsOf k (L.file 0 ++ L.file 1) = st.record k := by
  have hactive : L.active = 0 ∨ L.active = 1 := by omega
  have hone : recordsOf k (L.file 0) = st.record k ∧ recordsOf k (L.file 1) = [] ∨
      recordsOf k (L.file 0) = [] ∧ recordsOf k (L.file 1) = st.record k := by
    rcases hactive with ha | ha <;> unfold Represents at h <;> rw [ha] at h
    · exact h.imp_right fun h => h.2
    · exact h.symm.imp (fun h => ⟨h.2.2, h.2.1⟩) fun h => ⟨h.2, h.1⟩
  rw [recordsOf_append]
  rcases hone with ⟨h0, h1⟩ | ⟨h0, h1⟩ <;> rw [h0, h1]
  · exact List.append_nil _
  · exact List.nil_append _

end RotLog

/-! ### A key whose records alternate -/

variable {inProgress : Prop} {n : Nat} {L L' : RotLog κ α} {es : List (LogEvent κ α)}

/-- A key with an operation in progress, outside a pass. -/
private theorem KeyCyclic.read_inProgress (h : KeyCyclic k act inn .idle True) :
    (inn = [] ∧ ∃ a, replay .idle act = .pending a) ∨
      ∃ a, inn = [.start k a] ∧ replay .idle act = (.idle : KeyState α) := by
  obtain ⟨w, ⟨rfl, hinn⟩, halt, hend⟩ := h
  rcases hinn with rfl | ⟨a, rfl⟩
  · refine Or.inl ⟨rfl, ?_⟩
    obtain ⟨a, ha⟩ := Option.isSome_iff_exists.1 ((isSome_replay_of_alternates halt).2 (hend.2 trivial))
    exact ⟨a, KeyState.pending?_eq_some.1 ha⟩
  · refine Or.inr ⟨a, rfl, ?_⟩
    have hact : AlternatesFrom false act := halt.2
    rw [replay_eq_afterLastLost (s := .idle) hact rfl]
    cases hl : act.getLast? with
    | none => rfl
    | some r =>
      cases r with
      | start k' b => rfl
      | complete k' =>
        rcases endsInStart_append.1 (hend.2 trivial) with he | ⟨rfl, -⟩
        · cases (endsInStart_of_getLast? hl).1 he
        · cases hl

/-- A state without lost completions: pending or idle. -/
def KeyState.Shows (inProgress : Prop) : KeyState α → Prop
  | .idle => ¬ inProgress
  | .pending _ => inProgress
  | .lost => False

/-- The files hold the start of the operation in progress, or nothing. -/
def AtRest (k : κ) (inProgress : Prop) (act inn : List (Record κ α)) : Prop :=
  ∃ st : KeyState α, st.Shows inProgress ∧ Represents k st act inn

omit [DecidableEq κ] in
theorem KeyState.Shows.ne_lost (h : st.Shows inProgress) : st ≠ .lost := by
  rintro rfl
  exact h

omit [DecidableEq κ] in
theorem Passed.atRest (h : Passed k (AtRest k inProgress) act inn) : AtRest k inProgress act inn := by
  obtain ⟨a, b, ⟨st, hst, hrep⟩, hact, hinn⟩ := h
  exact ⟨st, hst, Passed.represents ⟨a, b, hrep, hact, hinn⟩⟩

theorem During.atRest {pass : Pass κ} (h : During k (AtRest k inProgress) act inn pass) :
    AtRest k inProgress act inn := by
  have hstate : ∃ st : KeyState α, st.Shows inProgress ∧ During k (Represents k st) act inn pass := by
    cases pass with
    | idle =>
      obtain ⟨a, b, ⟨st, hst, hrep⟩, hact, hinn⟩ := h
      exact ⟨st, hst, a, b, hrep, hact, hinn⟩
    | rotated => exact h
    | relog lost =>
      obtain ⟨a, b, ⟨st, hst, hrep⟩, hact, hinn⟩ := h
      exact ⟨st, hst, a, b, hrep, hact, hinn⟩
  obtain ⟨st, hst, hduring⟩ := hstate
  exact ⟨st, hst, hduring.represents hst.ne_lost⟩

/-- Two passes. -/
theorem atRest_of_cyclic (h : Passed k (Passed k fun act inn => KeyCyclic k act inn .idle inProgress) act inn) :
    AtRest k inProgress act inn := by
  obtain ⟨a, b, ⟨a₀, b₀, hcyc, rfl, rfl⟩, rfl, rfl⟩ := h
  by_cases hp : inProgress
  · rcases (hcyc.congr (iff_of_true hp trivial)).read_inProgress with ⟨rfl, x, hx⟩ | ⟨x, rfl, hidle⟩
    · rw [lostOf_of_pending hx, rewriteKey_of_pending hx]
      exact ⟨.pending x, hp, Or.inl ⟨rfl, rfl⟩⟩
    · rw [lostOf_of_idle hidle, rewriteKey_of_idle hidle]
      exact ⟨.pending x, hp, Or.inr ⟨by simp, rfl, rfl⟩⟩
  · rcases (hcyc.congr (iff_of_false hp id)).read with ⟨rfl, hidle⟩ | ⟨x, rfl, hlost, -⟩
    · rw [lostOf_of_idle hidle, rewriteKey_of_idle hidle]
      exact ⟨.idle, hp, Or.inl ⟨rfl, rfl⟩⟩
    · -- the start of one file meets the completion that was lost in the other one
      rw [lostOf_of_lost hlost, rewriteKey_of_lost hlost]
      exact ⟨.idle, hp, Or.inl ⟨rfl, rfl⟩⟩

private theorem atRest_of_passes (n : Nat)
    (h : (Passed k)^[n + 2] (fun act inn => KeyCyclic k act inn .idle inProgress) act inn) :
    AtRest k inProgress act inn := by
  induction n generalizing act inn with
  | zero => exact atRest_of_cyclic h
  | succ n ih =>
    rw [Function.iterate_succ_apply'] at h
    exact (h.mono fun _ _ => ih).atRest

namespace RotLog

/-- What holds of a key after `n` passes without a record of it. -/
def Aged (L : RotLog κ α) (k : κ) (inProgress : Prop) : Nat → Prop
  | 0 => True
  | n + 1 => L.During k ((Passed k)^[n] fun act inn => KeyCyclic k act inn .idle inProgress)

theorem Aged.logs {inProgress : κ → Prop} (hcyc : L.Cyclic inProgress)
    (h : L.Aged k (inProgress k) (passesSince k es)) {new : List (LogEvent κ α)} (hlogs : L.Logs new L') :
    L'.Aged k (inProgress k) (passesSince k (es ++ new)) := by
  cases hlogs with
  | append r =>
    rw [passesSince_append]
    dsimp only
    split
    · trivial
    · rename_i hne
      cases hn : passesSince k es with
      | zero => trivial
      | succ n =>
        rw [hn] at h
        exact During.append_of_ne h hne
  | rotate hp =>
    rw [passesSince_append]
    cases hn : passesSince k es with
    | zero =>
      refine during_rotate ?_
      have hk := hcyc k
      rwa [hp] at hk
    | succ n =>
      rw [hn] at h
      have hnext := During.rotate h hp
      rwa [← Function.iterate_succ_apply' (Passed k)] at hnext
  | clean hp hclean =>
    rw [List.append_nil]
    cases hn : passesSince k es with
    | zero => trivial
    | succ n =>
      rw [hn] at h
      exact During.clean h hclean hp

/-- After two whole passes the key is at rest, and stays so. -/
theorem Aged.atRest (h : L.Aged k inProgress n) (hn : 3 ≤ n ∨ 2 ≤ n ∧ L.pass = .idle) :
    AtRest k inProgress (recordsOf k (L.file L.active)) (recordsOf k (L.file (L.active + 1))) := by
  rcases hn with hn | ⟨hn, hp⟩
  · obtain ⟨m, rfl⟩ := Nat.exists_eq_add_of_le' hn
    exact (During.mono (fun _ _ => atRest_of_passes m) h).atRest
  · obtain ⟨m, rfl⟩ := Nat.exists_eq_add_of_le' hn
    replace h : L.During k _ := h
    unfold During at h
    rw [hp] at h
    refine atRest_of_passes m ?_
    rwa [Function.iterate_succ_apply']

end RotLog

/-! ### A key whose records were made between two passes -/

/-- The records of a key as long as no pass has begun between them. -/
inductive Burst (κ : Type u) (α : Type v) where
  /-- no pass has begun since the first of them -/
  | young (w : List (Record κ α))
  /-- a pass has begun after the last of them -/
  | aged (w : List (Record κ α))
  /-- a pass has begun between two of them -/
  | mixed

def Burst.step (k : κ) : Burst κ α → LogEvent κ α → Burst κ α
  | .young w, .record r => if r.key = k then .young (w ++ [r]) else .young w
  | .young [], .pass => .young []
  | .young w, .pass => .aged w
  | .aged w, .record r => if r.key = k then .mixed else .aged w
  | .aged w, .pass => .aged w
  | .mixed, _ => .mixed

def burst (k : κ) (es : List (LogEvent κ α)) : Burst κ α := es.foldl (Burst.step k) (.young [])

theorem burst_append (k : κ) (es : List (LogEvent κ α)) (e : LogEvent κ α) :
    burst k (es ++ [e]) = (burst k es).step k e :=
  List.foldl_append

namespace RotLog

/-- What holds of a key with such records. -/
def Bursts (L : RotLog κ α) (k : κ) : Burst κ α → Prop
  | .young w => recordsOf k (L.file L.active) = w ∧ recordsOf k (L.file (L.active + 1)) = [] ∧ ¬ L.pass.Carries k
  | .aged w => L.During k (fun a b => a = w ∧ b = []) ∨ L.During k (KeyedLog.Represents k (replay .idle w))
  | .mixed => True

/-- A pass that began before the first record does not touch the others. -/
private theorem Bursts.clean_young {w : List (Record κ α)} (h : L.Bursts k (.young w)) (hclean : L.Cleans L')
    (hpass : L.pass ≠ .idle) : L'.Bursts k (.young w) := by
  obtain ⟨hact, hinn, hcarry⟩ := h
  cases hclean with
  | rotate hp => exact absurd hp hpass
  | @rewrite new lost hp hnew hnodup =>
    have hidle : replayKey k (L.file (L.active + 1)) = .idle := by
      unfold replayKey
      rw [hinn]
      rfl
    refine ⟨?_, ?_, fun hk => ?_⟩
    · show recordsOf k (Function.update L.file (L.active + 1) new L.active) = w
      rw [Function.update_of_ne (other_ne L.active).symm]
      exact hact
    · show recordsOf k (Function.update L.file (L.active + 1) new (L.active + 1)) = []
      rw [Function.update_self, hnew.pending k, hidle]
    · cases hidle.symm.trans ((hnew.lost k).1 hk)
  | @relog k' lost hp =>
    have hne : k' ≠ k := by
      rintro rfl
      refine hcarry ?_
      rw [hp]
      exact List.mem_cons_self
    refine ⟨?_, ?_, fun hk => hcarry ?_⟩
    · show recordsOf k ((L.append (.complete k')).file (L.append (.complete k')).active) = w
      rw [recordsOf_append_active, if_neg (show (Record.complete k' : Record κ α).key ≠ k from hne), List.append_nil]
      exact hact
    · show recordsOf k ((L.append (.complete k')).file ((L.append (.complete k')).active + 1)) = []
      rw [recordsOf_append_inactive]
      exact hinn
    · rw [hp]
      exact List.mem_cons_of_mem _ hk
  | done hp => exact ⟨hact, hinn, id⟩

theorem Bursts.logs (h : L.Bursts k (burst k es)) {new : List (LogEvent κ α)} (hlogs : L.Logs new L') :
    L'.Bursts k (burst k (es ++ new)) := by
  cases hlogs with
  | append r =>
    rw [burst_append]
    cases hb : burst k es with
    | young w =>
      rw [hb] at h
      obtain ⟨hact, hinn, hcarry⟩ := h
      rw [Burst.step]
      split
      · rename_i hr
        refine ⟨?_, ?_, hcarry⟩
        · rw [recordsOf_append_active, if_pos hr, hact]
        · rw [recordsOf_append_inactive, hinn]
      · rename_i hr
        refine ⟨?_, ?_, hcarry⟩
        · rw [recordsOf_append_active, if_neg hr, hact, List.append_nil]
        · rw [recordsOf_append_inactive, hinn]
    | aged w =>
      rw [hb] at h
      rw [Burst.step]
      split
      · trivial
      · rename_i hr
        exact h.imp (fun h => h.append_of_ne hr) fun h => h.append_of_ne hr
    | mixed => trivial
  | rotate hp =>
    rw [burst_append]
    cases hb : burst k es with
    | young w =>
      rw [hb] at h
      obtain ⟨hact, hinn, hcarry⟩ := h
      cases w with
      | nil =>
        refine ⟨hinn, ?_, id⟩
        show recordsOf k (L.file (L.active + 1 + 1)) = []
        rw [other_other]
        exact hact
      | cons r w => exact Or.inl (during_rotate ⟨hact, hinn⟩)
    | aged w =>
      rw [hb] at h
      refine Or.inr ?_
      rcases h with h | h
      · exact (During.rotate h hp).mono fun _ _ => represents_of_passed
      · exact (During.rotate h hp).mono fun _ _ => Passed.represents
    | mixed => trivial
  | clean hp hclean =>
    rw [List.append_nil]
    cases hb : burst k es with
    | young w =>
      rw [hb] at h
      exact h.clean_young hclean hp
    | aged w =>
      rw [hb] at h
      exact h.imp (fun h => h.clean hclean hp) fun h => h.clean hclean hp
    | mixed => trivial

/-- After the pass, the files hold what replaying the records gives. -/
theorem Bursts.represents {w : List (Record κ α)} (h : L.Bursts k (.aged w)) (hp : L.pass = .idle) :
    L.Represents k (replay .idle w) := by
  rcases h with h | h <;> unfold During at h <;> rw [hp] at h
  · exact represents_of_passed h
  · exact Passed.represents h

end RotLog

end

end KeyedLog

import Mathlib.Data.List.Basic

/-!
# Runs of a step function

A system is given by a step function that may refuse an action and otherwise returns the next state and the events
that become visible.  A run is a sequence of steps, all of them allowed by a condition on the events so far, the
state and the action; it is described by its events and its last state.
-/

universe u v w

variable {σ : Type u} {α : Type v} {ε : Type w}

/-- `Run step ok s₀ h s`: the steps allowed by `ok` lead from `s₀` to `s` and show the events `h`. -/
inductive Run (step : σ → α → Option (σ × List ε)) (ok : List ε → σ → α → Prop) (s₀ : σ) : List ε → σ → Prop where
  | nil : Run step ok s₀ [] s₀
  | snoc {h : List ε} {s s' : σ} {a : α} {ev : List ε} : Run step ok s₀ h s → ok h s a → step s a = some (s', ev) →
      Run step ok s₀ (h ++ ev) s'

namespace Run

variable {step : σ → α → Option (σ × List ε)} {ok ok' : List ε → σ → α → Prop} {s₀ s : σ} {h : List ε}

/-- The invariant rule. -/
theorem invariant {I : List ε → σ → Prop} (h₀ : I [] s₀)
    (hstep : ∀ h s a s' ev, I h s → ok h s a → step s a = some (s', ev) → I (h ++ ev) s')
    (hrun : Run step ok s₀ h s) : I h s := by
  induction hrun with
  | nil => exact h₀
  | snoc _ hok hst ih => exact hstep _ _ _ _ _ ih hok hst

/-- A run under a stronger condition is a run under a weaker one. -/
theorem mono (himp : ∀ h s a, ok h s a → ok' h s a) (hrun : Run step ok s₀ h s) : Run step ok' s₀ h s := by
  induction hrun with
  | nil => exact nil
  | snoc _ hok hst ih => exact snoc ih (himp _ _ _ hok) hst

/-- A run that goes on from the end of another one. -/
theorem append {h' : List ε} {s' : σ} (hrun : Run step ok s₀ h s) (himp : ∀ h' s a, ok' h' s a → ok (h ++ h') s a)
    (hrun' : Run step ok' s h' s') : Run step ok s₀ (h ++ h') s' := by
  induction hrun' with
  | nil => exact (List.append_nil h).symm ▸ hrun
  | snoc _ hok hst ih =>
    rw [← List.append_assoc]
    exact ih.snoc (himp _ _ _ hok) hst

/-- When a measure can be made smaller wherever a goal is not reached, a run can go on to the goal. -/
theorem reaches {goal : σ → Prop} (measure : σ → Nat)
    (hprog : ∀ h s, Run step ok s₀ h s → ¬ goal s →
      ∃ a s' ev, ok h s a ∧ step s a = some (s', ev) ∧ measure s' < measure s)
    (hrun : Run step ok s₀ h s) : ∃ h' s', Run step ok s₀ h' s' ∧ goal s' := by
  induction hn : measure s using Nat.strongRecOn generalizing h s with
  | ind n ih =>
    by_cases hg : goal s
    · exact ⟨h, s, hrun, hg⟩
    · obtain ⟨a, s', ev, hok, hst, hlt⟩ := hprog h s hrun hg
      exact ih (measure s') (hn ▸ hlt) (hrun.snoc hok hst) rfl

/-- The rule for a simulation: when a step of one system shows nothing and keeps a relation, or is matched by a step
of the other one with the same events, a run is matched by a run. -/
theorem simulates {τ : Type*} {β : Type*} {step' : τ → β → Option (τ × List ε)} {okay : List ε → τ → β → Prop}
    {R : σ → τ → Prop} {t₀ : τ} (h₀ : R s₀ t₀)
    (hsim : ∀ h s a s' ev t, R s t → ok h s a → step s a = some (s', ev) →
      (ev = [] ∧ R s' t) ∨ ∃ b t', okay h t b ∧ step' t b = some (t', ev) ∧ R s' t')
    (hrun : Run step ok s₀ h s) : ∃ t, Run step' okay t₀ h t ∧ R s t := by
  induction hrun with
  | nil => exact ⟨t₀, nil, h₀⟩
  | snoc _ hok hst ih =>
    obtain ⟨t, hrun', hR⟩ := ih
    rcases hsim _ _ _ _ _ t hR hok hst with ⟨rfl, hR'⟩ | ⟨b, t', hok', hst', hR'⟩
    · rw [List.append_nil]
      exact ⟨t, hrun', hR'⟩
    · exact ⟨t', hrun'.snoc hok' hst', hR'⟩

/-! ### A run given by its actions -/

/-- Every action of the list is allowed and not refused, after the events `h` and from the state `s`. -/
def Allowed (step : σ → α → Option (σ × List ε)) (ok : List ε → σ → α → Prop) : List ε → σ → List α → Prop
  | _, _, [] => True
  | h, s, a :: acts =>
    ok h s a ∧
      match step s a with
      | some r => Allowed step ok (h ++ r.2) r.1 acts
      | none => False

/-- The events and the state after the actions of a list; a refused action ends the run. -/
def exec (step : σ → α → Option (σ × List ε)) : List ε → σ → List α → List ε × σ
  | h, s, [] => (h, s)
  | h, s, a :: acts =>
    match step s a with
    | some r => exec step (h ++ r.2) r.1 acts
    | none => (h, s)

instance Allowed.decidable [∀ h s a, Decidable (ok h s a)] :
    ∀ (h : List ε) (s : σ) (acts : List α), Decidable (Allowed step ok h s acts)
  | _, _, [] => isTrue trivial
  | h, s, a :: acts =>
    match hst : step s a with
    | none => isFalse (by simp [Allowed, hst])
    | some r =>
      have : Decidable (Allowed step ok (h ++ r.2) r.1 acts) := Allowed.decidable ..
      decidable_of_iff (ok h s a ∧ Allowed step ok (h ++ r.2) r.1 acts) (by simp [Allowed, hst])

/-- When the condition on a step says exactly that the step keeps a property, a sequence of actions is allowed just
when the property holds in every state it passes through. -/
theorem allowed_iff_of_step_iff {P : σ → Prop}
    (hstep : ∀ h s a s' ev, P s → step s a = some (s', ev) → (P s' ↔ ok h s a)) {acts : List α} (hP : P s)
    (hexec : Allowed step (fun _ _ _ => True) h s acts) :
    (∀ pre, pre <+: acts → P (exec step h s pre).2) ↔ Allowed step ok h s acts := by
  induction acts generalizing h s with
  | nil =>
    refine ⟨fun _ => trivial, fun _ pre hpre => ?_⟩
    rw [List.prefix_nil.1 hpre]
    exact hP
  | cons a acts ih =>
    cases hst : step s a with
    | none =>
      rw [Allowed, hst] at hexec
      exact hexec.2.elim
    | some r =>
      have hcons : ∀ pre, exec step h s (a :: pre) = exec step (h ++ r.2) r.1 pre := fun pre => by rw [exec, hst]
      rw [Allowed, hst] at hexec
      rw [Allowed, hst]
      constructor
      · intro hall
        have hr : P r.1 := by
          have := hall [a] (List.prefix_append [a] acts)
          rwa [hcons] at this
        refine ⟨(hstep h s a r.1 r.2 hP hst).1 hr, (ih hr hexec.2).1 fun pre hpre => ?_⟩
        rw [← hcons]
        exact hall (a :: pre) (List.cons_prefix_cons.2 ⟨rfl, hpre⟩)
      · rintro ⟨hok, hrest⟩ pre hpre
        rcases List.prefix_cons_iff.1 hpre with rfl | ⟨pre', rfl, hpre'⟩
        · exact hP
        · rw [hcons]
          exact (ih ((hstep h s a r.1 r.2 hP hst).2 hok) hexec.2).2 hrest pre' hpre'

theorem exec_of_allowed {acts : List α} (hrun : Run step ok s₀ h s) (hacts : Allowed step ok h s acts) :
    Run step ok s₀ (exec step h s acts).1 (exec step h s acts).2 := by
  induction acts generalizing h s with
  | nil => exact hrun
  | cons a acts ih =>
    obtain ⟨hok, hacts⟩ := hacts
    unfold exec
    cases hst : step s a with
    | none =>
      rw [hst] at hacts
      exact hacts.elim
    | some r =>
      rw [hst] at hacts
      exact ih (hrun.snoc hok hst) hacts

end Run

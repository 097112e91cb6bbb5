import Mathlib.Data.List.Basic

/-!
# Sleeping calls and the notifications owed to them

A number of calls work on a shared state.  A call may be asleep on a condition variable, for a reason that the state
may take away, and a call that has taken a reason away owes a notification until it has issued it.  A notification
wakes the calls that are asleep on its variable at that moment and no others.

No wake-up is lost when every call that sleeps without a reason is owed a notification (`NoLost`).  A step of one
call keeps this up if it owes a notification for every reason it takes away, forgets what it owes only by notifying,
and does not itself fall asleep without a reason (`NoLost.advance`).
-/

universe u v w

/-- Calls `γ` on a state `τ`, with condition variables `κ`. -/
structure CondVars (κ : Type u) (τ : Type v) (γ : Type w) where
  asleepOn : κ → γ → Bool
  gone : τ → γ → Prop
  owes : κ → γ → Bool
  wake : κ → γ → γ
  asleepOn_wake_self : ∀ k c, asleepOn k (wake k c) = false
  asleepOn_of_wake : ∀ {k k' c}, asleepOn k' (wake k c) = true → asleepOn k' c = true
  gone_of_wake : ∀ {k t c}, gone t (wake k c) → gone t c
  owes_wake : ∀ k k' c, owes k' (wake k c) = owes k' c

namespace CondVars

variable {κ : Type u} {τ : Type v} {γ : Type w} (V : CondVars κ τ γ)

/-- Some call still has to notify the variable. -/
def owed (k : κ) (calls : List γ) : Bool := calls.any (V.owes k)

/-- The calls after a notification, or after none. -/
def notify : Option κ → List γ → List γ
  | none, calls => calls
  | some k, calls => calls.map (V.wake k)

/-- A call that is asleep without a reason is owed a notification. -/
def NoLost (t : τ) (calls : List γ) : Prop :=
  ∀ k, ∀ c ∈ calls, V.asleepOn k c = true → V.gone t c → V.owed k calls = true

variable {V} {t t' : τ} {calls : List γ} {k : κ} {c c' : γ}

theorem owed_iff : V.owed k calls = true ↔ ∃ c ∈ calls, V.owes k c = true := List.any_eq_true

theorem owed_notify {n : Option κ} (h : V.owed k calls = true) : V.owed k (V.notify n calls) = true := by
  cases n with
  | none => exact h
  | some k' =>
    obtain ⟨c, hc, howes⟩ := owed_iff.1 h
    exact owed_iff.2 ⟨V.wake k' c, List.mem_map_of_mem hc, by rw [V.owes_wake]; exact howes⟩

/-- A call that has made a step still owes what it owed. -/
theorem owed_set {i : Nat} (hi : calls[i]? = some c) (hpaid : V.owes k c = true → V.owes k c' = true)
    (h : V.owed k calls = true) : V.owed k (calls.set i c') = true := by
  obtain ⟨d, hd, howes⟩ := owed_iff.1 h
  obtain ⟨j, hj⟩ := List.mem_iff_getElem?.1 hd
  have hlt : i < calls.length := (List.getElem?_eq_some_iff.1 hi).1
  rw [owed_iff]
  by_cases hij : i = j
  · subst hij
    rw [hi] at hj
    cases hj
    exact ⟨c', List.mem_set hlt _, hpaid howes⟩
  · refine ⟨d, List.mem_iff_getElem?.2 ⟨j, ?_⟩, howes⟩
    rw [List.getElem?_set_ne hij]
    exact hj

theorem owed_set_of_eq {i : Nat} (hi : calls[i]? = some c) (heq : V.owes k c' = V.owes k c) :
    V.owed k (calls.set i c') = V.owed k calls := by
  have hlt : i < calls.length := (List.getElem?_eq_some_iff.1 hi).1
  have hback : (calls.set i c').set i c = calls := by
    rw [List.set_set, ← (List.getElem?_eq_some_iff.1 hi).2, List.set_getElem_self]
  rw [Bool.eq_iff_iff]
  constructor
  · intro h
    have hset : V.owed k ((calls.set i c').set i c) = true :=
      owed_set (List.getElem?_set_self hlt) (fun howes => by rw [← heq]; exact howes) h
    rwa [hback] at hset
  · exact owed_set hi fun howes => by rw [heq]; exact howes

theorem noLost_nil : V.NoLost t [] := fun _ _ hc => nomatch hc

/-- A call that is not asleep joins. -/
theorem NoLost.append (h : V.NoLost t calls) (hc : ∀ k, V.asleepOn k c = false) : V.NoLost t (calls ++ [c]) := by
  intro k d hd hasleep hgone
  rcases List.mem_append.1 hd with hd | hd
  · obtain ⟨e, he, howes⟩ := owed_iff.1 (h k d hd hasleep hgone)
    exact owed_iff.2 ⟨e, List.mem_append_left _ he, howes⟩
  · rw [List.mem_singleton.1 hd, hc k] at hasleep
    cases hasleep

/-- The state changes without taking a reason away. -/
theorem NoLost.share (h : V.NoLost t calls) (hgone : ∀ c, V.gone t' c → V.gone t c) : V.NoLost t' calls :=
  fun k c hc hasleep hg => h k c hc hasleep (hgone c hg)

/-- The step of one call, which may end in a notification. -/
theorem NoLost.advance (h : V.NoLost t calls) {i : Nat} {n : Option κ} (hi : calls[i]? = some c)
    (hpaid : ∀ k, n ≠ some k → V.owes k c = true → V.owes k c' = true)
    (htaken : ∀ k d, n ≠ some k → V.asleepOn k d = true → V.gone t' d → V.gone t d ∨ V.owes k c' = true)
    (hself : ∀ k, V.asleepOn k c' = true → V.gone t' c' → V.owed k (calls.set i c') = true) :
    V.NoLost t' (V.notify n (calls.set i c')) := by
  intro k d hd hasleep hgone
  have hlt : i < calls.length := (List.getElem?_eq_some_iff.1 hi).1
  -- the call before the notification; one that is asleep on the variable of the notification would be awake now
  obtain ⟨d₀, hd₀, hasleep₀, hgone₀, hn⟩ :
      ∃ d₀ ∈ calls.set i c', V.asleepOn k d₀ = true ∧ V.gone t' d₀ ∧ n ≠ some k := by
    cases n with
    | none => exact ⟨d, hd, hasleep, hgone, by simp⟩
    | some k₀ =>
      obtain ⟨d₀, hd₀, rfl⟩ := List.mem_map.1 hd
      refine ⟨d₀, hd₀, V.asleepOn_of_wake hasleep, V.gone_of_wake hgone, ?_⟩
      intro hk
      cases hk
      rw [V.asleepOn_wake_self] at hasleep
      cases hasleep
  apply owed_notify
  rcases List.mem_or_eq_of_mem_set hd₀ with hmem | rfl
  · rcases htaken k d₀ hn hasleep₀ hgone₀ with hold | howes
    · exact owed_set hi (hpaid k hn) (h k d₀ hmem hasleep₀ hold)
    · exact owed_iff.2 ⟨c', List.mem_set hlt _, howes⟩
  · exact hself k hasleep₀ hgone₀

end CondVars

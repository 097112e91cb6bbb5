import Mathlib.Algebra.BigOperators.Group.List.Basic
import Mathlib.Algebra.GroupWithZero.Nat
import Mathlib.Data.List.Perm.Basic
import Mathlib.Data.List.Count
import Mathlib.Data.List.Nodup

/-!
# Bags of processes

A list stands for a bag of processes.  A step takes one process out and puts those that take its place at the end.
-/

universe u v

variable {α : Type u} {β : Type v} [DecidableEq α] {a : α} {l : List α}

/-- What a step of one process does to the bag. -/
theorem List.cons_erase_append_perm (h : a ∈ l) (as : List α) : (a :: (l.erase a ++ as)).Perm (l ++ as) :=
  ((List.perm_cons_erase h).symm.append_right as)

theorem List.countP_erase_append (h : a ∈ l) (as : List α) (f : α → Bool) :
    (l.erase a ++ as).countP f + (if f a then 1 else 0) = l.countP f + as.countP f := by
  have hperm := (List.cons_erase_append_perm h as).countP_eq f
  rw [List.countP_append, List.countP_cons] at hperm
  exact hperm

theorem List.length_erase_append (h : a ∈ l) (as : List α) :
    (l.erase a ++ as).length + 1 = l.length + as.length := by
  have hperm := (List.cons_erase_append_perm h as).length_eq
  rw [List.length_append] at hperm
  exact hperm

theorem List.filterMap_erase_append_perm (h : a ∈ l) (as : List α) (f : α → Option β) :
    ([a].filterMap f ++ (l.erase a ++ as).filterMap f).Perm (l.filterMap f ++ as.filterMap f) := by
  have hperm := (List.cons_erase_append_perm h as).filterMap f
  rw [← List.filterMap_append, ← List.filterMap_append]
  exact hperm

/-- A process of the bag after a step was there before, or takes the place of the one that made the step. -/
theorem List.mem_of_mem_erase_append {b : α} {as : List α} (h : b ∈ l.erase a ++ as) : b ∈ l ∨ b ∈ as := by
  rcases List.mem_append.1 h with h | h
  · exact Or.inl (List.mem_of_mem_erase h)
  · exact Or.inr h

section

variable {M : Type v} [AddCommMonoid M]

theorem List.sum_map_erase_append (h : a ∈ l) (as : List α) (f : α → M) :
    f a + ((l.erase a ++ as).map f).sum = (l.map f).sum + (as.map f).sum := by
  have hperm := ((List.cons_erase_append_perm h as).map f).sum_eq
  rw [List.map_append, List.sum_append] at hperm
  exact hperm

/-- The sum over a set, when the value at one of its members grows. -/
theorem List.sum_map_of_add (hnodup : l.Nodup) (h : a ∈ l) {f g : α → M} {x : M} (hself : g a = f a + x)
    (hother : ∀ b, b ≠ a → g b = f b) : (l.map g).sum = (l.map f).sum + x := by
  have herase : (l.erase a).map g = (l.erase a).map f :=
    List.map_congr_left fun b hb => hother b fun hba => (hnodup.mem_erase_iff.1 hb).1 hba
  rw [← List.sum_map_erase g h, ← List.sum_map_erase f h, herase, hself, add_right_comm]

end

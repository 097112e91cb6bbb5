import Mathlib.Algebra.BigOperators.Fin

/-!
# Totals kept in shards

A total is kept in several slots, which come into being when they are used, and a reader adds the slots up
(`total_eq_sum`).
-/

universe u

variable {M : Type u} [AddCommMonoid M] {n : Nat}

namespace Shards

/-- The loop of the reader over the slots. -/
def total (slots : Fin n → Option M) : M :=
  (List.finRange n).foldl (fun acc i =>
    match slots i with
    | some x => acc + x
    | none => acc) 0

theorem total_eq_sum (slots : Fin n → Option M) : total slots = ∑ i, (slots i).getD 0 := by
  have hloop : ∀ (l : List (Fin n)) (acc : M),
      l.foldl (fun acc i =>
        match slots i with
        | some x => acc + x
        | none => acc) acc = acc + (l.map fun i => (slots i).getD 0).sum := by
    intro l
    induction l with
    | nil => simp
    | cons i l ih =>
      intro acc
      rw [List.foldl_cons, ih, List.map_cons, List.sum_cons]
      cases slots i with
      | none => rw [Option.getD_none, zero_add]
      | some x => rw [Option.getD_some, add_assoc]
  unfold total
  rw [hloop, zero_add, Fin.sum_univ_def]

theorem total_none : total (fun _ : Fin n => (none : Option M)) = 0 := by
  simp [total_eq_sum]

end Shards

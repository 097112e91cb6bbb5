import Mathlib.Data.List.Infix

/-!
# Path names

A directory is the list of the components on the way to it from the root.  A path name is a string of bytes, and it is
resolved from a directory component by component: an empty component and `.` stay, `..` goes up (and stays at the
root), and every other component goes down.

Where a name leads does not depend on the directory in another way than this: it goes `up` a number of levels and
then `down` along some components (`Reach`, `resolve_eq`).
-/

namespace Paths

abbrev Component := List UInt8

/-- A directory or file, by the components on the way to it from the root. -/
abbrev Path := List Component

def slash : UInt8 := 0x2f

def dot : UInt8 := 0x2e

/-- One component is followed. -/
def enter (p : Path) (c : Component) : Path :=
  if c = [] ∨ c = [dot] then p else if c = [dot, dot] then p.dropLast else p ++ [c]

/-- The name is followed from `start`. -/
def resolve (start : Path) (name : List UInt8) : Path := (name.splitOn slash).foldl enter start

theorem resolve_append (p : Path) (a b : List UInt8) :
    resolve p (a ++ slash :: b) = resolve (resolve p a) b := by
  unfold resolve
  rw [List.splitOn_append_cons_self, List.foldl_append]

theorem resolve_of_notMem {a : List UInt8} (h : slash ∉ a) (p : Path) : resolve p a = enter p a := by
  unfold resolve
  rw [List.splitOn_eq_singleton h]
  rfl

@[simp] theorem resolve_nil (p : Path) : resolve p [] = p := rfl

/-- A component that is neither empty nor `.` nor `..`. -/
def Plain (c : Component) : Prop := c ≠ [] ∧ c ≠ [dot] ∧ c ≠ [dot, dot]

instance (c : Component) : Decidable (Plain c) := inferInstanceAs (Decidable (_ ∧ _))

theorem enter_plain {c : Component} (h : Plain c) (p : Path) : enter p c = p ++ [c] := by
  unfold enter
  rw [if_neg (by simp [h.1, h.2.1]), if_neg h.2.2]

/-! ### Where a name leads -/

/-- Up some levels, then down. -/
structure Reach where
  up : Nat := 0
  down : Path := []
  deriving DecidableEq

namespace Reach

def enter (r : Reach) (c : Component) : Reach :=
  if c = [] ∨ c = [dot] then r
  else if c = [dot, dot] then if r.down = [] then { r with up := r.up + 1 } else { r with down := r.down.dropLast }
  else { r with down := r.down ++ [c] }

/-- The place it leads to from a directory. -/
def apply (r : Reach) (p : Path) : Path := p.take (p.length - r.up) ++ r.down

theorem apply_of_up {r : Reach} (h : r.up = 0) (p : Path) : r.apply p = p ++ r.down := by
  unfold apply
  rw [h, Nat.sub_zero, List.take_length]

theorem enter_plain {c : Component} (h : Plain c) (r : Reach) : r.enter c = { r with down := r.down ++ [c] } := by
  unfold enter
  rw [if_neg (by simp [h.1, h.2.1]), if_neg h.2.2]

theorem le_up_enter (r : Reach) (c : Component) : r.up ≤ (r.enter c).up := by
  unfold enter
  split
  · exact Nat.le_refl _
  · split
    · split
      · exact Nat.le_succ _
      · exact Nat.le_refl _
    · exact Nat.le_refl _

private theorem enter_apply (r : Reach) (c : Component) (p : Path) :
    Paths.enter (r.apply p) c = (r.enter c).apply p := by
  unfold Paths.enter enter
  split
  · rfl
  · split
    · split
      · rename_i hd
        simp only [apply, hd, List.append_nil]
        rw [List.dropLast_eq_take, List.length_take, List.take_take]
        congr 1
        omega
      · rename_i hd
        simp only [apply]
        rw [List.dropLast_append_of_ne_nil hd]
    · simp only [apply, List.append_assoc]

end Reach

/-- Where a name leads, seen from the place it starts at. -/
def reach (name : List UInt8) : Reach := (name.splitOn slash).foldl Reach.enter {}

private theorem foldl_enter (cs : List Component) (r : Reach) (p : Path) :
    cs.foldl enter (r.apply p) = (cs.foldl Reach.enter r).apply p := by
  induction cs generalizing r with
  | nil => rfl
  | cons c cs ih => rw [List.foldl_cons, List.foldl_cons, Reach.enter_apply, ih]

theorem resolve_eq (p : Path) (name : List UInt8) : resolve p name = (reach name).apply p := by
  have hstart : ({} : Reach).apply p = p := by simp [Reach.apply]
  unfold resolve reach
  rw [← foldl_enter, hstart]

theorem reach_of_notMem {a : List UInt8} (h : slash ∉ a) : reach a = Reach.enter {} a := by
  unfold reach
  rw [List.splitOn_eq_singleton h]
  rfl

/-! ### Places that two names reach from sibling directories -/

namespace Reach

/-- What is reached from `p`, seen from `n` levels above `p`: the directories that are not left, and the
components. -/
def seenFrom (r : Reach) (n : Nat) (p : Path) : Path := (p.drop (p.length - n)).take (n - r.up) ++ r.down

/-- The levels that one of two names leaves, at least one, as far as there are directories. -/
def levels (r s : Reach) (p : Path) : Nat := min (max 1 (max r.up s.up)) p.length

private theorem apply_eq_seenFrom (r : Reach) {n : Nat} {p : Path} (hup : min r.up p.length ≤ n) (hn : n ≤ p.length) :
    r.apply p = p.take (p.length - n) ++ r.seenFrom n p := by
  have hlen : p.length - r.up = p.length - n + (n - r.up) := by omega
  unfold apply seenFrom
  rw [hlen, List.take_add, List.append_assoc]

variable (r s : Reach) (dir : Path) (a b : Component)

private theorem apply_siblings :
    r.apply (dir ++ [a]) = dir.take (dir.length + 1 - levels r s (dir ++ [a])) ++
        r.seenFrom (levels r s (dir ++ [a])) (dir ++ [a]) ∧
      s.apply (dir ++ [b]) = dir.take (dir.length + 1 - levels r s (dir ++ [a])) ++
        s.seenFrom (levels r s (dir ++ [a])) (dir ++ [b]) := by
  have hlevels : levels r s (dir ++ [a]) = min (max 1 (max r.up s.up)) (dir.length + 1) := by
    unfold levels
    rw [List.length_append, List.length_singleton]
  have htake : ∀ c : Component, (dir ++ [c]).take (dir.length + 1 - levels r s (dir ++ [a])) =
      dir.take (dir.length + 1 - levels r s (dir ++ [a])) := by
    intro c
    exact List.take_append_of_le_length (by omega)
  have hlen : ∀ c : Component, (dir ++ [c]).length = dir.length + 1 := fun c => by simp
  rw [apply_eq_seenFrom r (n := levels r s (dir ++ [a])) (by rw [hlen]; omega) (by rw [hlen]; omega),
    apply_eq_seenFrom s (n := levels r s (dir ++ [a])) (by rw [hlen]; omega) (by rw [hlen]; omega), hlen, hlen, htake,
    htake]
  exact ⟨rfl, rfl⟩

/-- One place contains the other if the components, with the directories that only the other name leaves, begin
alike. -/
theorem apply_prefix_apply_iff : r.apply (dir ++ [a]) <+: s.apply (dir ++ [b]) ↔
    r.seenFrom (levels r s (dir ++ [a])) (dir ++ [a]) <+: s.seenFrom (levels r s (dir ++ [a])) (dir ++ [b]) := by
  obtain ⟨hr, hs⟩ := apply_siblings r s dir a b
  rw [hr, hs, List.prefix_append_right_inj]

theorem apply_eq_apply_iff : r.apply (dir ++ [a]) = s.apply (dir ++ [b]) ↔
    r.seenFrom (levels r s (dir ++ [a])) (dir ++ [a]) = s.seenFrom (levels r s (dir ++ [a])) (dir ++ [b]) := by
  obtain ⟨hr, hs⟩ := apply_siblings r s dir a b
  rw [hr, hs, List.append_cancel_left_eq]

end Reach

/-- What follows the last slash of a name grows when bytes are appended. -/
private theorem splitOn_append {a b : List UInt8} (hb : slash ∉ b) :
    ∃ init last, a.splitOn slash = init ++ [last] ∧ (a ++ b).splitOn slash = init ++ [last ++ b] := by
  induction a with
  | nil => exact ⟨[], [], rfl, List.splitOn_eq_singleton hb⟩
  | cons x a ih =>
    obtain ⟨init, last, ha, hab⟩ := ih
    rw [List.cons_append, List.splitOn_cons_eq_if_modifyHead, List.splitOn_cons_eq_if_modifyHead, ha, hab]
    split
    · exact ⟨[] :: init, last, rfl, rfl⟩
    · cases init with
      | nil => exact ⟨[], x :: last, rfl, rfl⟩
      | cons c init => exact ⟨(x :: c) :: init, last, rfl, rfl⟩

/-- A suffix that makes the last component a plain one does not let a name go up. -/
theorem up_reach_append {a b : List UInt8} (hb : slash ∉ b) (hplain : ∀ c, Plain (c ++ b)) (h : (reach a).up = 0) :
    (reach (a ++ b)).up = 0 := by
  obtain ⟨init, last, ha, hab⟩ := splitOn_append (a := a) hb
  have hle := Reach.le_up_enter (init.foldl Reach.enter {}) last
  unfold reach at h ⊢
  rw [ha, List.foldl_concat] at h
  rw [hab, List.foldl_concat, Reach.enter_plain (hplain last)]
  rw [h] at hle
  exact Nat.le_zero.1 hle

end Paths

import Mathlib.Data.List.Sort
import Mathlib.Data.List.Nodup

/-!
# Maps with several values for a key

A database that allows several records for a key but refuses a second copy of a record: a list of pairs without
repetition, in the order of a cursor.  A loop over a cursor looks at the records one after the other and may keep a
record, delete it, or give up (`sweep`); without a record at which it gives up it is a filter (`sweep_eq`).
-/

universe u v w

/-- Pairs of a key and a value, without repetition. -/
structure MultiMap (κ : Type u) (ν : Type v) where
  entries : List (κ × ν)
  nodup : entries.Nodup

namespace MultiMap

variable {κ : Type u} {ν : Type v} {β : Type w}

instance : EmptyCollection (MultiMap κ ν) := ⟨⟨[], List.nodup_nil⟩⟩

@[simp] theorem entries_empty : (∅ : MultiMap κ ν).entries = [] := rfl

/-- Insertion before the first record that does not come before the new one; `none` if the record is there already. -/
def put [DecidableEq κ] [DecidableEq ν] (r : κ × ν → κ × ν → Prop) [DecidableRel r] (m : MultiMap κ ν)
    (k : κ) (v : ν) : Option (MultiMap κ ν) :=
  if h : (k, v) ∈ m.entries then none
  else some ⟨m.entries.orderedInsert r (k, v), (List.perm_orderedInsert r _ _).nodup_iff.2 (m.nodup.cons h)⟩

/-- The records that satisfy `p`. -/
def filter (p : κ × ν → Bool) (m : MultiMap κ ν) : MultiMap κ ν := ⟨m.entries.filter p, m.nodup.filter p⟩

theorem mem_filter {p : κ × ν → Bool} {m : MultiMap κ ν} {e : κ × ν} :
    e ∈ (m.filter p).entries ↔ e ∈ m.entries ∧ p e = true := List.mem_filter

theorem filter_congr {p q : κ × ν → Bool} {m : MultiMap κ ν} (h : ∀ e ∈ m.entries, p e = q e) :
    m.filter p = m.filter q := by
  unfold filter
  simp only [List.filter_congr h]

/-- After an insertion, refused or not, the record is there. -/
theorem mem_put [DecidableEq κ] [DecidableEq ν] {r : κ × ν → κ × ν → Prop} [DecidableRel r] {m : MultiMap κ ν} {k : κ}
    {v : ν} {e : κ × ν} : e ∈ ((m.put r k v).getD m).entries ↔ e = (k, v) ∨ e ∈ m.entries := by
  unfold put
  split
  · rename_i h
    simp only [Option.getD_none]
    constructor
    · exact Or.inr
    · intro he
      rcases he with rfl | he
      · exact h
      · exact he
  · simp only [Option.getD_some, List.mem_orderedInsert]

/-- What the body of a loop over a cursor does with a record. -/
inductive Visit (β : Type w) where
  | stop
  | delete
  | keep (out : β)

/-- The outcome of a loop: whether it came to the end, the outputs, and the records that are left. -/
structure Sweep (β : Type w) (κ : Type u) (ν : Type v) where
  finished : Bool
  outs : List β
  left : List (κ × ν)

/-- The loop over the records from a position on. -/
def sweepFrom (f : κ × ν → Visit β) : List (κ × ν) → Sweep β κ ν
  | [] => ⟨true, [], []⟩
  | e :: l =>
    match f e with
    | .stop => ⟨false, [], e :: l⟩
    | .delete => sweepFrom f l
    | .keep out => ⟨(sweepFrom f l).finished, out :: (sweepFrom f l).outs, e :: (sweepFrom f l).left⟩

private theorem sweepFrom_sublist (f : κ × ν → Visit β) (l : List (κ × ν)) : (sweepFrom f l).left.Sublist l := by
  induction l with
  | nil => exact List.Sublist.refl _
  | cons e l ih =>
    unfold sweepFrom
    split
    · exact List.Sublist.refl _
    · exact ih.cons e
    · exact ih.cons_cons e

/-- The map after the loop. -/
def afterSweep (f : κ × ν → Visit β) (m : MultiMap κ ν) : MultiMap κ ν :=
  ⟨(sweepFrom f m.entries).left, m.nodup.sublist (sweepFrom_sublist f m.entries)⟩

theorem mem_of_mem_afterSweep {f : κ × ν → Visit β} {m : MultiMap κ ν} {e : κ × ν}
    (h : e ∈ (m.afterSweep f).entries) : e ∈ m.entries := (sweepFrom_sublist f m.entries).subset h

/-- The output for a record that is kept. -/
def Visit.out? : Visit β → Option β
  | .keep out => some out
  | _ => none

private theorem sweepFrom_eq {f : κ × ν → Visit β} {l : List (κ × ν)} (h : ∀ e ∈ l, f e ≠ .stop) :
    sweepFrom f l = ⟨true, l.filterMap fun e => (f e).out?, l.filter fun e => (f e).out?.isSome⟩ := by
  induction l with
  | nil => rfl
  | cons e l ih =>
    have ih := ih fun e' he' => h e' (List.mem_cons_of_mem _ he')
    unfold sweepFrom
    cases hf : f e with
    | stop => exact absurd hf (h e (List.mem_cons_self ..))
    | delete => simp [ih, hf, Visit.out?]
    | keep out => simp [ih, hf, Visit.out?]

/-- The loop comes to the end exactly if it gives up at no record. -/
theorem finished_sweepFrom {f : κ × ν → Visit β} {l : List (κ × ν)} :
    (sweepFrom f l).finished = true ↔ ∀ e ∈ l, f e ≠ .stop := by
  induction l with
  | nil => simp [sweepFrom]
  | cons e l ih =>
    unfold sweepFrom
    rw [List.forall_mem_cons]
    cases hf : f e with
    | stop => simp
    | delete => simp [ih]
    | keep out => simp [ih]

theorem sweep_eq {f : κ × ν → Visit β} {m : MultiMap κ ν} (h : ∀ e ∈ m.entries, f e ≠ .stop) :
    (sweepFrom f m.entries).finished = true ∧
      (sweepFrom f m.entries).outs = m.entries.filterMap (fun e => (f e).out?) ∧
      m.afterSweep f = m.filter fun e => (f e).out?.isSome := by
  have hl := sweepFrom_eq h
  unfold afterSweep filter
  simp only [hl, and_self]

end MultiMap

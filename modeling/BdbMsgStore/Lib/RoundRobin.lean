import Mathlib.Data.List.Perm.Basic
import Mathlib.Tactic.Ring

/-!
# Reading several lists in turn

A loop that visits a number of cursors in a fixed cyclic order.  A visit takes the next element of the cursor, or
finds it exhausted and marks it; marked cursors are passed over, and the loop ends when all are marked.  It ends
(`loop_ended`), and it has then read every element of every list exactly once (`read_perm`), the elements of each list
in their order (`read_merges`).
-/

universe u

namespace RoundRobin

variable {α : Type u}

/-- The variables of the loop. -/
structure State (α : Type u) where
  cursors : List (List α)
  done : List Bool
  index : Nat
  doneCount : Nat
  out : List α

/-- One visit. -/
def State.visit (s : State α) : State α :=
  let next := (s.index + 1) % s.cursors.length
  if s.done.getD s.index true then { s with index := next }
  else
    match s.cursors.getD s.index [] with
    | a :: rest => { s with cursors := s.cursors.set s.index rest, out := s.out ++ [a], index := next }
    | [] => { s with done := s.done.set s.index true, doneCount := s.doneCount + 1, index := next }

/-- The loop: as long as some cursor is not marked. -/
def loop : Nat → State α → State α
  | 0, s => s
  | fuel + 1, s => if s.doneCount < s.cursors.length then loop fuel s.visit else s

/-- The state before the loop. -/
def init (ls : List (List α)) : State α := ⟨ls, List.replicate ls.length false, 0, 0, []⟩

/-- A number of visits after which the loop has ended. -/
def enough (ls : List (List α)) : Nat := (ls.flatten.length + ls.length) * ls.length + ls.length + 1

/-- The elements of the lists in the order of the loop. -/
def read (ls : List (List α)) : List α := (loop (enough ls) (init ls)).out

/-! ### The invariant -/

/-- The marks are counted, a marked cursor is exhausted, and nothing is lost. -/
structure Inv (all : List α) (n : Nat) (s : State α) : Prop where
  cursors_length : s.cursors.length = n
  done_length : s.done.length = n
  index_lt : 0 < n → s.index < n
  count : s.doneCount = s.done.count true
  exhausted : ∀ i : Nat, s.done[i]? = some true → s.cursors[i]? = some []
  perm : (s.out ++ s.cursors.flatten).Perm all

/-- The visits that do something, at most. -/
def work (n : Nat) (s : State α) : Nat := s.cursors.flatten.length + (n - s.doneCount)

theorem inv_init (ls : List (List α)) : Inv ls.flatten ls.length (init ls) where
  cursors_length := rfl
  done_length := List.length_replicate
  index_lt := id
  count := by simp [init, List.count_replicate]
  exhausted := by
    intro i h
    simp only [init, List.getElem?_replicate] at h
    split at h <;> simp at h
  perm := List.Perm.refl _

private theorem flatten_set_perm {ls : List (List α)} {i : Nat} {a : α} {rest : List α}
    (h : ls[i]? = some (a :: rest)) : (a :: (ls.set i rest).flatten).Perm ls.flatten := by
  induction ls generalizing i with
  | nil => simp at h
  | cons l ls ih =>
    cases i with
    | zero =>
      have hl : l = a :: rest := by simpa using h
      simp [hl]
    | succ i =>
      have := ih (i := i) (by simpa using h)
      simp only [List.set_cons_succ, List.flatten_cons]
      exact List.perm_middle.symm.trans (List.Perm.append_left l this)

private theorem count_set_true {l : List Bool} {i : Nat} (h : l[i]? = some false) :
    (l.set i true).count true = l.count true + 1 := by
  induction l generalizing i with
  | nil => simp at h
  | cons b l ih =>
    cases i with
    | zero =>
      have hb : b = false := by simpa using h
      simp [hb]
    | succ i =>
      have := ih (i := i) (by simpa using h)
      cases b <;> simp [this]

private theorem count_lt_of_mem_false {l : List Bool} {i : Nat} (h : l[i]? = some false) :
    l.count true < l.length := by
  have hle := List.count_le_length (a := true) (l := l.set i true)
  rw [count_set_true h, List.length_set] at hle
  omega

/-- What one visit does, when the loop has not ended: it passes over a marked cursor, or there is less to do. -/
private theorem visit_spec {all : List α} {n : Nat} {s : State α} (h : Inv all n s) (hn : 0 < n) :
    Inv all n s.visit ∧ s.visit.index = (s.index + 1) % n ∧
      ((s.done[s.index]? = some true ∧ s.visit.done = s.done ∧ work n s.visit = work n s) ∨
        work n s.visit + 1 = work n s) := by
  have hi := h.index_lt hn
  have hnext : (s.index + 1) % n < n := Nat.mod_lt _ hn
  obtain ⟨b, hb⟩ : ∃ b, s.done[s.index]? = some b :=
    ⟨_, List.getElem?_eq_getElem (by rw [h.done_length]; exact hi)⟩
  obtain ⟨c, hc⟩ : ∃ c, s.cursors[s.index]? = some c :=
    ⟨_, List.getElem?_eq_getElem (by rw [h.cursors_length]; exact hi)⟩
  unfold State.visit
  simp only [List.getD_eq_getElem?_getD, hb, hc, h.cursors_length, Option.getD_some]
  cases b with
  | true =>
    exact ⟨⟨h.cursors_length, h.done_length, fun _ => hnext, h.count, h.exhausted, h.perm⟩, rfl,
      Or.inl ⟨rfl, rfl, rfl⟩⟩
  | false =>
    simp only [Bool.false_eq_true, ↓reduceIte]
    cases c with
    | cons a rest =>
      have hperm := flatten_set_perm hc
      refine ⟨⟨?_, h.done_length, fun _ => hnext, h.count, ?_, ?_⟩, rfl, Or.inr ?_⟩
      · simp [h.cursors_length]
      · intro i hdone
        have hne : s.index ≠ i := by
          rintro rfl
          rw [hb] at hdone
          cases hdone
        rw [List.getElem?_set_ne hne]
        exact h.exhausted i hdone
      · show (s.out ++ [a] ++ (s.cursors.set s.index rest).flatten).Perm all
        rw [List.append_assoc]
        exact (List.Perm.append_left _ hperm).trans h.perm
      · have hlen := hperm.length_eq
        rw [List.length_cons] at hlen
        unfold work
        simp only
        omega
    | nil =>
      have hlt := count_lt_of_mem_false hb
      rw [h.done_length, ← h.count] at hlt
      refine ⟨⟨h.cursors_length, ?_, fun _ => hnext, ?_, ?_, h.perm⟩, rfl, Or.inr ?_⟩
      · simp [h.done_length]
      · rw [count_set_true hb, h.count]
      · intro i hdone
        by_cases hne : s.index = i
        · rw [← hne]
          exact hc
        · rw [List.getElem?_set_ne hne] at hdone
          exact h.exhausted i hdone
      · unfold work
        simp only
        omega

/-- From any index some unmarked cursor is met within `n` visits. -/
private theorem exists_unmarked {all : List α} {n : Nat} {s : State α} (h : Inv all n s) (hlt : s.doneCount < n) :
    ∃ j, j < n ∧ s.done[(s.index + j) % n]? = some false := by
  have hi := h.index_lt (by omega)
  obtain ⟨i, hin, hfalse⟩ : ∃ i, i < n ∧ s.done[i]? = some false := by
    by_contra hno
    have hall : ∀ b ∈ s.done, b = true := by
      intro b hb
      obtain ⟨i, hib⟩ := List.mem_iff_getElem?.1 hb
      have hin : i < n := by
        rw [← h.done_length]
        exact (List.getElem?_eq_some_iff.1 hib).1
      cases b with
      | true => rfl
      | false => exact absurd ⟨i, hin, hib⟩ hno
    have hcount := List.count_eq_length.2 (fun b hb => (hall b hb).symm)
    rw [h.count, hcount, h.done_length] at hlt
    exact Nat.lt_irrefl _ hlt
  rcases Nat.lt_or_ge i s.index with hlt' | hge
  · refine ⟨i + n - s.index, by omega, ?_⟩
    rw [show s.index + (i + n - s.index) = i + n by omega, Nat.add_mod_right, Nat.mod_eq_of_lt hin]
    exact hfalse
  · refine ⟨i - s.index, by omega, ?_⟩
    rw [show s.index + (i - s.index) = i by omega, Nat.mod_eq_of_lt hin]
    exact hfalse

/-- The loop ends, with all cursors marked, when the fuel covers the work that is left and the way to the next
unmarked cursor. -/
private theorem loop_spec {all : List α} {n fuel : Nat} (w d : Nat) {s : State α} (h : Inv all n s)
    (hw : work n s ≤ w) (hd : s.doneCount < n → ∃ j, j ≤ d ∧ s.done[(s.index + j) % n]? = some false)
    (hf : w * n + d < fuel) : Inv all n (loop fuel s) ∧ n ≤ (loop fuel s).doneCount := by
  induction fuel generalizing w d s with
  | zero => omega
  | succ fuel ih =>
    unfold loop
    rw [h.cursors_length]
    by_cases hlt : s.doneCount < n
    · rw [if_pos hlt]
      have hn : 0 < n := by omega
      have hi := h.index_lt hn
      obtain ⟨hinv, hidx, hcase⟩ := visit_spec h hn
      rcases hcase with ⟨hmarked, hdone, hwork⟩ | hwork
      · -- a marked cursor: the next unmarked one has come closer
        obtain ⟨j, hj, hfalse⟩ := hd hlt
        have hj0 : j ≠ 0 := by
          rintro rfl
          rw [Nat.add_zero, Nat.mod_eq_of_lt hi, hmarked] at hfalse
          cases hfalse
        apply ih w (d - 1) hinv (by omega)
        · intro _
          refine ⟨j - 1, by omega, ?_⟩
          rw [hdone, hidx, Nat.mod_add_mod, show s.index + 1 + (j - 1) = s.index + j by omega]
          exact hfalse
        · omega
      · -- there is less to do, and at most `n - 1` visits to the next unmarked cursor
        have hmul : (w - 1) * n + n ≤ w * n := by
          have hw1 : w - 1 + 1 = w := by omega
          calc (w - 1) * n + n = (w - 1 + 1) * n := by ring
            _ ≤ w * n := by rw [hw1]
        apply ih (w - 1) (n - 1) hinv (by omega)
        · intro hlt'
          obtain ⟨j, hj, hfalse⟩ := exists_unmarked hinv hlt'
          exact ⟨j, by omega, hfalse⟩
        · omega
    · rw [if_neg hlt]
      exact ⟨h, by omega⟩

private theorem flatten_eq_nil_of_marked {all : List α} {n : Nat} {s : State α} (h : Inv all n s)
    (hdone : n ≤ s.doneCount) : s.cursors.flatten = [] := by
  rw [List.flatten_eq_nil_iff]
  intro l hl
  obtain ⟨i, hi⟩ := List.mem_iff_getElem?.1 hl
  have hin : i < s.done.length := by
    rw [h.done_length, ← h.cursors_length]
    exact (List.getElem?_eq_some_iff.1 hi).1
  have hcount : s.done.count true = s.done.length := by
    have := List.count_le_length (a := true) (l := s.done)
    rw [h.count] at hdone
    rw [h.done_length] at this ⊢
    omega
  have htrue : s.done[i]? = some true := by
    rw [List.getElem?_eq_getElem hin]
    exact congrArg some (List.count_eq_length.1 hcount _ (List.getElem_mem hin)).symm
  have := h.exhausted i htrue
  rw [hi] at this
  exact Option.some.inj this

/-- From `enough` visits on the loop has ended. -/
private theorem loop_enough {ls : List (List α)} {fuel : Nat} (hfuel : enough ls ≤ fuel) :
    Inv ls.flatten ls.length (loop fuel (init ls)) ∧ ls.length ≤ (loop fuel (init ls)).doneCount := by
  have hinit := inv_init ls
  have hnext : (init ls).doneCount < ls.length →
      ∃ j, j ≤ ls.length ∧ (init ls).done[((init ls).index + j) % ls.length]? = some false := by
    intro hlt
    obtain ⟨j, hj, hfalse⟩ := exists_unmarked hinit hlt
    exact ⟨j, by omega, hfalse⟩
  unfold enough at hfuel
  exact loop_spec (ls.flatten.length + ls.length) ls.length hinit (by simp [work, init]) hnext (by omega)

/-- Every element of every list is read exactly once. -/
theorem read_perm (ls : List (List α)) : (read ls).Perm ls.flatten := by
  obtain ⟨hinv, hdone⟩ := loop_enough (Nat.le_refl (enough ls))
  have hperm := hinv.perm
  rw [flatten_eq_nil_of_marked hinv hdone, List.append_nil] at hperm
  exact hperm

/-! ### More visits than enough -/

private theorem loop_of_ended {s : State α} (h : ¬ s.doneCount < s.cursors.length) (fuel : Nat) :
    loop fuel s = s := by
  cases fuel with
  | zero => rfl
  | succ fuel => rw [loop, if_neg h]

private theorem loop_add (m n : Nat) (s : State α) : loop (m + n) s = loop n (loop m s) := by
  induction m generalizing s with
  | zero => rw [Nat.zero_add]; rfl
  | succ m ih =>
    by_cases h : s.doneCount < s.cursors.length
    · rw [Nat.add_right_comm, loop, if_pos h, ih, loop, if_pos h]
    · rw [loop_of_ended h, loop_of_ended h, loop_of_ended h]

/-- The loop ends, and its result does not depend on how many more visits it could have made. -/
theorem loop_ended {ls : List (List α)} {fuel : Nat} (hfuel : enough ls ≤ fuel) :
    ls.length ≤ (loop fuel (init ls)).doneCount ∧ (loop fuel (init ls)).out = read ls := by
  refine ⟨(loop_enough hfuel).2, ?_⟩
  obtain ⟨n, rfl⟩ := Nat.exists_eq_add_of_le hfuel
  obtain ⟨hinv, hdone⟩ := loop_enough (Nat.le_refl (enough ls))
  rw [loop_add, loop_of_ended (by rw [hinv.cursors_length]; omega)]
  rfl

/-! ### The order of the elements -/

/-- The elements of `out`, each with the number of a list it comes from, are for each number the list of that number:
`out` has all elements of the lists, those of one list in their order, and no others. -/
def Merges (ls : List (List α)) (out : List α) : Prop :=
  ∃ tagged : List (Nat × α), tagged.map Prod.snd = out ∧
    ∀ i, (tagged.filter fun t => t.1 == i).map Prod.snd = ls.getD i []

/-- What was read so far, and the part of each list that is left. -/
private def MergesTo (ls : List (List α)) (s : State α) : Prop :=
  ∃ tagged : List (Nat × α), tagged.map Prod.snd = s.out ∧
    ∀ i, (tagged.filter fun t => t.1 == i).map Prod.snd ++ s.cursors.getD i [] = ls.getD i []

private theorem mergesTo_visit {ls : List (List α)} {s : State α} (h : MergesTo ls s) : MergesTo ls s.visit := by
  unfold State.visit
  dsimp only
  split
  · exact h
  · split
    · rename_i a rest hcur
      obtain ⟨tagged, hout, hall⟩ := h
      have hindex : s.index < s.cursors.length := by
        by_contra hge
        rw [List.getD_eq_getElem?_getD, List.getElem?_eq_none (by omega)] at hcur
        cases hcur
      refine ⟨tagged ++ [(s.index, a)], by simp [hout], fun i => ?_⟩
      have hi := hall i
      rw [List.filter_append, List.map_append]
      by_cases hne : s.index = i
      · subst hne
        rw [hcur] at hi
        rw [← hi, List.getD_eq_getElem?_getD, List.getElem?_set_self hindex]
        simp
      · rw [List.filter_cons_of_neg (by simpa using hne), List.getD_eq_getElem?_getD, List.getElem?_set_ne hne,
          ← List.getD_eq_getElem?_getD]
        simpa using hi
    · exact h

private theorem mergesTo_loop {ls : List (List α)} (fuel : Nat) {s : State α} (h : MergesTo ls s) :
    MergesTo ls (loop fuel s) := by
  induction fuel generalizing s with
  | zero => exact h
  | succ fuel ih =>
    unfold loop
    split
    · exact ih (mergesTo_visit h)
    · exact h

/-- The elements of each list are read in their order. -/
theorem read_merges (ls : List (List α)) : Merges ls (read ls) := by
  obtain ⟨hinv, hdone⟩ := loop_enough (Nat.le_refl (enough ls))
  have hinit : MergesTo ls (init ls) := ⟨[], rfl, fun _ => rfl⟩
  obtain ⟨tagged, hout, hall⟩ := mergesTo_loop (enough ls) hinit
  have hnil := List.flatten_eq_nil_iff.1 (flatten_eq_nil_of_marked hinv hdone)
  refine ⟨tagged, hout, fun i => ?_⟩
  have hempty : (loop (enough ls) (init ls)).cursors.getD i [] = [] := by
    rw [List.getD_eq_getElem?_getD]
    cases hi : (loop (enough ls) (init ls)).cursors[i]? with
    | none => rfl
    | some l => exact hnil l (List.mem_of_getElem? hi)
  rw [← hall i, hempty, List.append_nil]

end RoundRobin

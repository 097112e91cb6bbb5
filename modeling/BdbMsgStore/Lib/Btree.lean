import BdbMsgStore.Lib.OrdMap
import Mathlib.Data.List.InsertIdx

/-!
# Databases behind a comparison function

A B-tree sees its keys through a comparison function only: of a key `k` that it looks for it knows the sign of
`cmp k x` for each key `x` that it holds.  `Search` is a search of this kind through the keys in the order of the
tree.  It only reports a key that compares equal, and it finds that key, or the place for it, when the comparisons
are in order: positive before it and negative after it.  What happens when they are not is left open.

`put` does not overwrite, and `del` removes the record that is found.  On the entries of an ordered map whose keys the
comparison puts in their order, they are the insertion and the erasure of the map (`put_entries`, `del_entries`).
-/

universe u v

namespace Btree

variable {κ : Type u} {ν : Type v}

/-- A search through a list of keys, given the comparison of the key it looks for with each of them.  `place` is where
a key that is not found is put. -/
structure Search (κ : Type u) where
  find : (κ → Int) → List κ → Option Nat
  place : (κ → Int) → List κ → Nat
  found : ∀ {c : κ → Int} {keys : List κ} {i : Nat}, find c keys = some i → ∃ k, keys[i]? = some k ∧ c k = 0
  complete : ∀ {c : κ → Int} {l r : List κ} {k : κ}, (∀ x ∈ l, 0 < c x) → c k = 0 → (∀ x ∈ r, c x < 0) →
    find c (l ++ k :: r) = some l.length
  placed : ∀ {c : κ → Int} {l r : List κ}, (∀ x ∈ l, 0 < c x) → (∀ x ∈ r, c x < 0) → place c (l ++ r) = l.length

/-- `put` without overwriting: whether the key was there (then nothing changes), and the records. -/
def put (S : Search κ) (cmp : κ → κ → Int) (db : List (κ × ν)) (k : κ) (v : ν) : Bool × List (κ × ν) :=
  match S.find (cmp k) (db.map Prod.fst) with
  | some _ => (true, db)
  | none => (false, db.insertIdx (S.place (cmp k) (db.map Prod.fst)) (k, v))

/-- The record that is found is removed. -/
def del (S : Search κ) (cmp : κ → κ → Int) (db : List (κ × ν)) (k : κ) : List (κ × ν) :=
  match S.find (cmp k) (db.map Prod.fst) with
  | some i => db.eraseIdx i
  | none => db

/-- The search from the front, after a look at the key `y`. -/
def Search.preferring [DecidableEq κ] (y : κ) : Search κ where
  find c keys := if c y = 0 ∧ y ∈ keys then some (keys.idxOf y) else keys.findIdx? fun x => c x = 0
  place c keys := (keys.takeWhile fun x => 0 < c x).length
  found := by
    intro c keys i h
    split at h
    · rename_i hy
      cases h
      exact ⟨y, List.getElem?_idxOf hy.2, hy.1⟩
    · rw [List.findIdx?_eq_some_iff_getElem] at h
      obtain ⟨hi, hz, -⟩ := h
      exact ⟨keys[i], List.getElem?_eq_getElem hi, by simpa using hz⟩
  complete := by
    intro c l r k hl hk hr
    have hnone : ∀ x ∈ l, c x ≠ 0 := fun x hx => by have := hl x hx; omega
    split
    · rename_i hy
      have hyk : y = k := by
        rcases List.mem_append.1 hy.2 with hmem | hmem
        · exact absurd hy.1 (hnone y hmem)
        · rcases List.mem_cons.1 hmem with hmem | hmem
          · exact hmem
          · have := hr y hmem
            omega
      subst hyk
      rw [List.idxOf_append, if_neg fun hmem => hnone y hmem hy.1]
      simp
    · rw [List.findIdx?_append]
      have hnone' : l.findIdx? (fun x => decide (c x = 0)) = none := by
        rw [List.findIdx?_eq_none_iff]
        intro x hx
        simpa using hnone x hx
      simp [hnone', List.findIdx?_cons, hk]
  placed := by
    intro c l r hl hr
    rw [List.takeWhile_append_of_pos (by simpa using hl)]
    have hnil : (r.takeWhile fun x => decide (0 < c x)) = [] := by
      cases r with
      | nil => rfl
      | cons x r =>
        have := hr x (List.mem_cons_self ..)
        exact List.takeWhile_cons_of_neg (by simpa using le_of_lt this)
    rw [hnil, List.append_nil]

variable {S : Search κ} {cmp : κ → κ → Int} {db : List (κ × ν)} {k : κ} {v : ν}

/-- A key that is reported as present compares equal to one that is. -/
theorem exists_of_put (h : (put S cmp db k v).1 = true) : ∃ x ∈ db.map Prod.fst, cmp k x = 0 := by
  unfold put at h
  split at h
  · rename_i i hi
    obtain ⟨x, hx, hz⟩ := S.found hi
    exact ⟨x, List.mem_of_getElem? hx, hz⟩
  · cases h

/-- A record that `del` removes has a key that compares equal. -/
theorem eq_zero_of_del {e : κ × ν} (he : e ∈ db) (hdel : e ∉ del S cmp db k) : cmp k e.1 = 0 := by
  unfold del at hdel
  split at hdel
  · rename_i i hi
    obtain ⟨x, hx, hz⟩ := S.found hi
    rw [List.getElem?_map, Option.map_eq_some_iff] at hx
    obtain ⟨e', he', rfl⟩ := hx
    obtain ⟨j, hj⟩ := List.mem_iff_getElem?.1 he
    by_cases hij : j = i
    · rw [hij] at hj
      rw [he'] at hj
      cases hj
      exact hz
    · exfalso
      refine hdel ?_
      rw [List.mem_eraseIdx_iff_getElem?]
      exact ⟨j, hij, hj⟩
  · exact absurd he hdel

/-- The search that looks at `x` first takes `k` for `x`. -/
theorem find_preferring [DecidableEq κ] {keys : List κ} {x : κ} (hx : x ∈ keys) (hz : cmp k x = 0) :
    (Search.preferring x).find (cmp k) keys = some (keys.idxOf x) := if_pos ⟨hz, hx⟩

section Ordered

/-! ### The entries of an ordered map -/

variable [LinearOrder κ]

/-- The comparisons of `k` with these keys are those of the order. -/
structure Orders (cmp : κ → κ → Int) (k : κ) (keys : List κ) : Prop where
  self : cmp k k = 0
  lt : ∀ x ∈ keys, k < x → cmp k x < 0
  gt : ∀ x ∈ keys, x < k → 0 < cmp k x

variable {m : OrdMap κ ν}

/-- A key of the map is found between the smaller keys and the larger ones. -/
private theorem find_of_split (h : Orders cmp k (m.entries.map Prod.fst)) {l r : List (κ × ν)}
    (hm : m.entries = l ++ (k, v) :: r) (hl : ∀ e ∈ l, e.1 < k) (hr : ∀ e ∈ r, k < e.1) :
    S.find (cmp k) (m.entries.map Prod.fst) = some l.length := by
  have hmem : ∀ e, e ∈ l ∨ e ∈ r → e.1 ∈ m.entries.map Prod.fst := by
    rintro e (he | he) <;> exact List.mem_map_of_mem (by simp [hm, he])
  have hlen : (l.map Prod.fst).length = l.length := List.length_map ..
  rw [hm, List.map_append, List.map_cons, ← hlen]
  refine S.complete ?_ h.self ?_
  · intro x hx
    obtain ⟨e, he, rfl⟩ := List.mem_map.1 hx
    exact h.gt _ (hmem e (Or.inl he)) (hl e he)
  · intro x hx
    obtain ⟨e, he, rfl⟩ := List.mem_map.1 hx
    exact h.lt _ (hmem e (Or.inr he)) (hr e he)

/-- Another key is not found, and its place is between the smaller keys and the larger ones. -/
private theorem place_of_split (h : Orders cmp k (m.entries.map Prod.fst)) {l r : List (κ × ν)}
    (hm : m.entries = l ++ r) (hl : ∀ e ∈ l, e.1 < k) (hr : ∀ e ∈ r, k < e.1) :
    S.find (cmp k) (m.entries.map Prod.fst) = none ∧ S.place (cmp k) (m.entries.map Prod.fst) = l.length := by
  have hpos : ∀ x ∈ l.map Prod.fst, 0 < cmp k x := by
    intro x hx
    obtain ⟨e, he, rfl⟩ := List.mem_map.1 hx
    exact h.gt _ (List.mem_map_of_mem (by simp [hm, he])) (hl e he)
  have hneg : ∀ x ∈ r.map Prod.fst, cmp k x < 0 := by
    intro x hx
    obtain ⟨e, he, rfl⟩ := List.mem_map.1 hx
    exact h.lt _ (List.mem_map_of_mem (by simp [hm, he])) (hr e he)
  rw [hm, List.map_append]
  constructor
  · cases hfind : S.find (cmp k) (l.map Prod.fst ++ r.map Prod.fst) with
    | none => rfl
    | some i =>
      obtain ⟨x, hx, hz⟩ := S.found hfind
      rcases List.mem_append.1 (List.mem_of_getElem? hx) with hx | hx
      · exact absurd hz (ne_of_gt (hpos x hx))
      · exact absurd hz (ne_of_lt (hneg x hx))
  · rw [S.placed hpos hneg, List.length_map]

/-- A key is found if some key compares equal. -/
theorem isSome_find_entries (h : Orders cmp k (m.entries.map Prod.fst)) :
    (S.find (cmp k) (m.entries.map Prod.fst)).isSome = m.entries.any fun e => cmp k e.1 = 0 := by
  obtain ⟨l, r, hm, hl, hr⟩ := m.exists_split k
  cases hfind : m.find? k with
  | some old =>
    rw [hfind] at hm
    rw [find_of_split h hm hl hr, hm]
    simp [h.self]
  | none =>
    rw [hfind] at hm
    rw [(place_of_split (S := S) h hm hl hr).1, Option.isSome_none, eq_comm, List.any_eq_false]
    intro e he hz
    have hkey := List.mem_map_of_mem (f := Prod.fst) he
    rw [hm] at he
    rcases List.mem_append.1 he with he | he
    · exact ne_of_gt (h.gt _ hkey (hl e he)) (of_decide_eq_true hz)
    · exact ne_of_lt (h.lt _ hkey (hr e he)) (of_decide_eq_true hz)

private theorem insertIdx_length_append {α : Type*} (l r : List α) (a : α) :
    (l ++ r).insertIdx l.length a = l ++ a :: r := by
  induction l with
  | nil => rfl
  | cons x l ih => rw [List.cons_append, List.length_cons, List.insertIdx_succ_cons, ih, List.cons_append]

/-- `put` inserts into the map. -/
theorem put_entries (h : Orders cmp k (m.entries.map Prod.fst)) (v : ν) :
    put S cmp m.entries k v = (m.contains k, (m.insert k v).entries) := by
  obtain ⟨l, r, hm, hl, hr⟩ := m.exists_split k
  unfold put OrdMap.contains
  cases hfind : m.find? k with
  | some old =>
    rw [hfind] at hm
    rw [find_of_split h hm hl hr, m.insert_of_find? hfind]
    rfl
  | none =>
    rw [hfind] at hm
    obtain ⟨hnone, hplace⟩ := place_of_split (S := S) h hm hl hr
    rw [hnone, hplace, m.entries_insert hm hl hr, hm]
    exact congrArg _ (insertIdx_length_append l r (k, v))

/-- `del` erases from the map. -/
theorem del_entries (h : Orders cmp k (m.entries.map Prod.fst)) : del S cmp m.entries k = (m.erase k).entries := by
  obtain ⟨l, r, hm, hl, hr⟩ := m.exists_split k
  have herase := m.entries_erase hm hl hr
  unfold del
  cases hfind : m.find? k with
  | some old =>
    rw [hfind] at hm
    rw [find_of_split h hm hl hr, herase, hm]
    show List.eraseIdx (l ++ _) l.length = l ++ r
    rw [List.eraseIdx_append_of_length_le (Nat.le_refl _), Nat.sub_self]
    rfl
  | none =>
    rw [hfind] at hm
    rw [(place_of_split (S := S) h hm hl hr).1, herase]
    exact hm

end Ordered

end Btree

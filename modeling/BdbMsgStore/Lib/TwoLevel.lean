import BdbMsgStore.Lib.OrdMap

/-!
# Maps of maps

A map from `κ` to maps from `ι`, used as a map from pairs of keys.  Insertion makes the submap when it is missing
(`insert`); erasure either drops a submap that has become empty (`erase`) or leaves it behind (`eraseKeep`).  The
loop over all entries that erases some of them (`sweep`) is, entry by entry, the same loop over the flat list of
entries (`flatten_sweep`), so proofs about such a loop are inductions over one list.
-/

universe u v w

namespace OrdMap

variable {κ ν : Type u} {σ : Type v}

/-- The loop over entries in key order; the body returns the value to keep, or `none` to erase the entry. -/
def sweepEntries (f : σ → κ → ν → Option ν × σ) : List (κ × ν) → σ → List (κ × ν) × σ
  | [], s => ([], s)
  | (k, v) :: l, s =>
    let r := f s k v
    let rest := sweepEntries f l r.2
    (match r.1 with
      | some v' => (k, v') :: rest.1
      | none => rest.1, rest.2)

private theorem fst_mem_of_sweepEntries {f : σ → κ → ν → Option ν × σ} {l : List (κ × ν)} {s : σ} {e : κ × ν}
    (h : e ∈ (sweepEntries f l s).1) : ∃ v, (e.1, v) ∈ l := by
  induction l generalizing s with
  | nil => simp [sweepEntries] at h
  | cons a l ih =>
    obtain ⟨k, v⟩ := a
    simp only [sweepEntries] at h
    split at h
    · rcases List.mem_cons.1 h with rfl | h
      · exact ⟨v, List.mem_cons_self ..⟩
      · obtain ⟨v', h⟩ := ih h
        exact ⟨v', List.mem_cons_of_mem _ h⟩
    · obtain ⟨v', h⟩ := ih h
      exact ⟨v', List.mem_cons_of_mem _ h⟩

variable [LinearOrder κ]

private theorem sweepEntries_sorted (f : σ → κ → ν → Option ν × σ) {l : List (κ × ν)} (s : σ)
    (h : l.Pairwise (fun a b => a.1 < b.1)) :
    (sweepEntries f l s).1.Pairwise (fun a b => a.1 < b.1) := by
  induction l generalizing s with
  | nil => exact List.Pairwise.nil
  | cons a l ih =>
    obtain ⟨k, v⟩ := a
    rw [List.pairwise_cons] at h
    simp only [sweepEntries]
    split
    · rw [List.pairwise_cons]
      refine ⟨?_, ih _ h.2⟩
      intro e he
      obtain ⟨v', hv'⟩ := fst_mem_of_sweepEntries he
      exact h.1 (e.1, v') hv'
    · exact ih _ h.2

/-- The erase-while-iterating loop over a map. -/
def sweep (f : σ → κ → ν → Option ν × σ) (m : OrdMap κ ν) (s : σ) : OrdMap κ ν × σ :=
  (⟨(sweepEntries f m.entries s).1, sweepEntries_sorted f s m.sorted⟩, (sweepEntries f m.entries s).2)

end OrdMap

namespace TwoLevel

open OrdMap

variable {κ ι ν : Type u} {σ : Type v}

/-! ### The loop over a flat list of entries -/

/-- The erase-while-iterating loop over a flat list of entries: the body returns whether to keep the entry. -/
def sweepFlat (f : σ → κ → ι → ν → Bool × σ) : List (κ × ι × ν) → σ → List (κ × ι × ν) × σ
  | [], s => ([], s)
  | (k, i, v) :: l, s =>
    let b := f s k i v
    let rest := sweepFlat f l b.2
    (if b.1 then (k, i, v) :: rest.1 else rest.1, rest.2)

/-- The same loop over a list of values. -/
def sweepList (f : σ → ν → Bool × σ) : List ν → σ → List ν × σ
  | [], s => ([], s)
  | v :: l, s =>
    let b := f s v
    let rest := sweepList f l b.2
    (if b.1 then v :: rest.1 else rest.1, rest.2)

theorem sweepFlat_append (f : σ → κ → ι → ν → Bool × σ) (l₁ l₂ : List (κ × ι × ν)) (s : σ) :
    sweepFlat f (l₁ ++ l₂) s =
      ((sweepFlat f l₁ s).1 ++ (sweepFlat f l₂ (sweepFlat f l₁ s).2).1,
        (sweepFlat f l₂ (sweepFlat f l₁ s).2).2) := by
  induction l₁ generalizing s with
  | nil => rfl
  | cons a l ih =>
    obtain ⟨k, i, v⟩ := a
    simp only [List.cons_append, sweepFlat, ih]
    split <;> simp

theorem sweepFlat_sublist (f : σ → κ → ι → ν → Bool × σ) (l : List (κ × ι × ν)) (s : σ) :
    (sweepFlat f l s).1.Sublist l := by
  induction l generalizing s with
  | nil => exact List.Sublist.refl _
  | cons a l ih =>
    obtain ⟨k, i, v⟩ := a
    simp only [sweepFlat]
    split
    · exact (ih _).cons_cons _
    · exact (ih _).cons _

private theorem sub_sweep (f : σ → κ → ι → ν → Bool × σ) (k : κ) (l : List (ι × ν)) (s : σ) :
    ((sweepEntries (fun s i v =>
        let b := f s k i v
        (if b.1 then some v else none, b.2)) l s).1.map fun x => (k, x.1, x.2)) =
      (sweepFlat f (l.map fun x => (k, x.1, x.2)) s).1 ∧
    (sweepEntries (fun s i v =>
        let b := f s k i v
        (if b.1 then some v else none, b.2)) l s).2 =
      (sweepFlat f (l.map fun x => (k, x.1, x.2)) s).2 := by
  induction l generalizing s with
  | nil => exact ⟨rfl, rfl⟩
  | cons a l ih =>
    obtain ⟨i, v⟩ := a
    obtain ⟨h1, h2⟩ := ih (f s k i v).2
    simp only [sweepEntries, List.map_cons, sweepFlat]
    cases hb : (f s k i v).1 with
    | false => simp only [Bool.false_eq_true, ↓reduceIte]; exact ⟨h1, h2⟩
    | true => simp only [↓reduceIte, List.map_cons, h1]; exact ⟨trivial, h2⟩

variable [LinearOrder κ] [LinearOrder ι]

/-! ### The map operations -/

/-- The value bound to the pair `(k, i)`. -/
def find? (m : OrdMap κ (OrdMap ι ν)) (k : κ) (i : ι) : Option ν := (m.find? k).bind fun sub => sub.find? i

/-- Insertion that keeps an existing binding and makes the submap of `k` when there is none. -/
def insert (m : OrdMap κ (OrdMap ι ν)) (k : κ) (i : ι) (v : ν) : OrdMap κ (OrdMap ι ν) :=
  match m.find? k with
  | some sub => m.assign k (sub.insert i v)
  | none => m.insert k ((∅ : OrdMap ι ν).insert i v)

/-- Erasure that leaves the submap of `k` in place, even when it has become empty. -/
def eraseKeep (m : OrdMap κ (OrdMap ι ν)) (k : κ) (i : ι) : OrdMap κ (OrdMap ι ν) :=
  match m.find? k with
  | some sub => m.assign k (sub.erase i)
  | none => m

/-- Erasure of a bound pair that drops the submap of `k` when it has become empty. -/
def erase (m : OrdMap κ (OrdMap ι ν)) (k : κ) (i : ι) : OrdMap κ (OrdMap ι ν) :=
  match m.find? k with
  | some sub =>
    if sub.contains i then
      if (sub.erase i).isEmpty then m.erase k else m.assign k (sub.erase i)
    else m
  | none => m

@[simp] theorem find?_empty (k : κ) (i : ι) : find? (∅ : OrdMap κ (OrdMap ι ν)) k i = none := rfl

theorem find?_insert (m : OrdMap κ (OrdMap ι ν)) (k k' : κ) (i i' : ι) (v : ν) :
    find? (insert m k i v) k' i' =
      if k' = k ∧ i' = i then some ((find? m k i).getD v) else find? m k' i' := by
  unfold find? insert
  cases h : m.find? k with
  | none =>
    rw [OrdMap.find?_insert]
    by_cases hk : k' = k
    · subst hk
      by_cases hi : i' = i <;> simp [h, OrdMap.find?_insert, hi]
    · simp [hk]
  | some sub =>
    rw [OrdMap.find?_assign]
    by_cases hk : k' = k
    · subst hk
      by_cases hi : i' = i <;> simp [h, OrdMap.find?_insert, hi]
    · simp [hk]

theorem find?_eraseKeep (m : OrdMap κ (OrdMap ι ν)) (k k' : κ) (i i' : ι) :
    find? (eraseKeep m k i) k' i' = if k' = k ∧ i' = i then none else find? m k' i' := by
  unfold find? eraseKeep
  cases h : m.find? k with
  | none =>
    by_cases hk : k' = k
    · subst hk; simp [h]
    · simp [hk]
  | some sub =>
    rw [OrdMap.find?_assign]
    by_cases hk : k' = k
    · subst hk
      by_cases hi : i' = i <;> simp [h, OrdMap.find?_erase, hi]
    · simp [hk]

theorem find?_erase (m : OrdMap κ (OrdMap ι ν)) (k k' : κ) (i i' : ι) :
    find? (erase m k i) k' i' = if k' = k ∧ i' = i then none else find? m k' i' := by
  unfold erase
  cases h : m.find? k with
  | none =>
    by_cases hk : k' = k
    · subst hk; simp [find?, h]
    · simp [hk]
  | some sub =>
    by_cases hc : sub.contains i = true
    · -- the submap without `i` gives the same lookups whether it is kept or dropped
      have key : ∀ m', (m'.find? k).elim none (fun s => s.find? i') = (sub.erase i).find? i' →
          (∀ k', k' ≠ k → m'.find? k' = m.find? k') →
          find? m' k' i' = if k' = k ∧ i' = i then none else find? m k' i' := by
        intro m' h1 h2
        by_cases hk : k' = k
        · subst hk
          have h3 : find? m' k' i' = (sub.erase i).find? i' := by
            rw [← h1]; unfold find?; cases m'.find? k' <;> rfl
          rw [h3, OrdMap.find?_erase]
          by_cases hi : i' = i <;> simp [hi, find?, h]
        · simp [hk, find?, h2 k' hk]
      simp only [hc, ↓reduceIte]
      by_cases he : (sub.erase i).isEmpty = true
      · rw [if_pos he]
        apply key
        · rw [OrdMap.find?_erase]
          simp [OrdMap.isEmpty_iff.1 he i']
        · intro k'' hk; rw [OrdMap.find?_erase]; simp [hk]
      · rw [if_neg he]
        apply key
        · rw [OrdMap.find?_assign]; simp
        · intro k'' hk; rw [OrdMap.find?_assign]; simp [hk]
    · simp only [hc, Bool.false_eq_true, ↓reduceIte]
      by_cases hk : k' = k ∧ i' = i
      · obtain ⟨rfl, rfl⟩ := hk
        have : sub.find? i' = none := by simpa using hc
        simp [find?, h, this]
      · simp [hk]

/-! ### Submaps that are not empty -/

/-- No submap is empty. -/
def Trim (m : OrdMap κ (OrdMap ι ν)) : Prop := ∀ k sub, m.find? k = some sub → sub.isEmpty = false

theorem trim_empty : Trim (∅ : OrdMap κ (OrdMap ι ν)) := fun _ _ h => nomatch h

private theorem isEmpty_insert (sub : OrdMap ι ν) (i : ι) (v : ν) : (sub.insert i v).isEmpty = false := by
  rw [Bool.eq_false_iff]
  intro he
  have hi := OrdMap.isEmpty_iff.1 he i
  rw [OrdMap.find?_insert, if_pos rfl] at hi
  cases hi

theorem Trim.insert {m : OrdMap κ (OrdMap ι ν)} (hm : Trim m) (k : κ) (i : ι) (v : ν) :
    Trim (TwoLevel.insert m k i v) := by
  intro k' sub' h
  unfold TwoLevel.insert at h
  cases hk : m.find? k with
  | none =>
    rw [hk] at h
    simp only [OrdMap.find?_insert, hk, Option.getD_none] at h
    split at h
    · cases h
      exact isEmpty_insert _ i v
    · exact hm k' sub' h
  | some sub =>
    rw [hk] at h
    simp only [OrdMap.find?_assign] at h
    split at h
    · cases h
      exact isEmpty_insert sub i v
    · exact hm k' sub' h

theorem Trim.erase {m : OrdMap κ (OrdMap ι ν)} (hm : Trim m) (k : κ) (i : ι) : Trim (TwoLevel.erase m k i) := by
  intro k' sub' h
  unfold TwoLevel.erase at h
  cases hk : m.find? k with
  | none =>
    rw [hk] at h
    exact hm k' sub' h
  | some sub =>
    rw [hk] at h
    simp only at h
    split at h
    · split at h
      · rw [OrdMap.find?_erase] at h
        split at h
        · cases h
        · exact hm k' sub' h
      · rename_i hne
        rw [OrdMap.find?_assign] at h
        split at h
        · cases h
          exact Bool.eq_false_iff.2 hne
        · exact hm k' sub' h
    · exact hm k' sub' h

/-! ### The flat list of entries -/

/-- All entries, in the order of a nested loop over the map and its submaps. -/
def flatten (m : OrdMap κ (OrdMap ι ν)) : List (κ × ι × ν) :=
  m.entries.flatMap fun e => e.2.entries.map fun x => (e.1, x.1, x.2)

theorem mem_flatten {m : OrdMap κ (OrdMap ι ν)} {k : κ} {i : ι} {v : ν} :
    (k, i, v) ∈ flatten m ↔ find? m k i = some v := by
  unfold flatten find?
  simp only [List.mem_flatMap, List.mem_map, Prod.mk.injEq, Prod.exists, Option.bind_eq_some_iff]
  constructor
  · rintro ⟨_, sub, h1, _, _, h2, rfl, rfl, rfl⟩
    exact ⟨sub, mem_entries.1 h1, mem_entries.1 h2⟩
  · rintro ⟨sub, h1, h2⟩
    exact ⟨k, sub, mem_entries.2 h1, i, v, mem_entries.2 h2, rfl, rfl, rfl⟩

/-- No pair of keys occurs twice among the entries. -/
theorem flatten_pairwise (m : OrdMap κ (OrdMap ι ν)) :
    (flatten m).Pairwise fun a b => (a.1, a.2.1) ≠ (b.1, b.2.1) := by
  unfold flatten
  rw [List.pairwise_flatMap]
  constructor
  · intro e _
    rw [List.pairwise_map]
    exact e.2.sorted.imp fun h he => by
      simp only [Prod.mk.injEq, true_and] at he
      exact ne_of_lt h he
  · refine m.sorted.imp ?_
    intro a b hab x hx y hy he
    simp only [List.mem_map] at hx hy
    obtain ⟨_, _, rfl⟩ := hx
    obtain ⟨_, _, rfl⟩ := hy
    simp only [Prod.mk.injEq] at he
    exact ne_of_lt hab he.1

/-! ### The loop over all entries -/

/-- The erase-while-iterating loop over a map of maps: the body returns whether to keep the entry, and a submap
that has become empty is erased too. -/
def sweep (f : σ → κ → ι → ν → Bool × σ) (m : OrdMap κ (OrdMap ι ν)) (s : σ) :
    OrdMap κ (OrdMap ι ν) × σ :=
  OrdMap.sweep (fun s k sub =>
    let r := OrdMap.sweep (fun s i v =>
      let b := f s k i v
      (if b.1 then some v else none, b.2)) sub s
    (if r.1.isEmpty then none else some r.1, r.2)) m s

/-- Running the loop over a map of maps is running it over the flat list of its entries. -/
theorem flatten_sweep (f : σ → κ → ι → ν → Bool × σ) (m : OrdMap κ (OrdMap ι ν)) (s : σ) :
    flatten (sweep f m s).1 = (sweepFlat f (flatten m) s).1 ∧
      (sweep f m s).2 = (sweepFlat f (flatten m) s).2 := by
  unfold sweep flatten OrdMap.sweep
  simp only
  induction m.entries generalizing s with
  | nil => exact ⟨rfl, rfl⟩
  | cons a l ih =>
    obtain ⟨k, sub⟩ := a
    obtain ⟨h1, h2⟩ := sub_sweep f k sub.entries s
    simp only [sweepEntries, List.flatMap_cons, sweepFlat_append]
    rw [← h1, ← h2]
    obtain ⟨ih1, ih2⟩ := ih (sweepEntries (fun s i v =>
      let b := f s k i v
      (if b.1 then some v else none, b.2)) sub.entries s).2
    refine ⟨?_, ih2⟩
    split
    · rename_i v' hv
      split at hv
      · cases hv
      · cases hv
        rw [List.flatMap_cons, ih1]
    · rename_i hv
      split at hv
      · rename_i he
        have : (sweepEntries (fun s i v =>
            let b := f s k i v
            (if b.1 then some v else none, b.2)) sub.entries s).1 = [] := by
          simpa [isEmpty] using he
        rw [this, ih1]
        rfl
      · cases hv

/-- What the loop keeps, as lookups. -/
theorem find?_sweep (f : σ → κ → ι → ν → Bool × σ) (m : OrdMap κ (OrdMap ι ν)) (s : σ) (k : κ) (i : ι) (v : ν) :
    find? (sweep f m s).1 k i = some v ↔ (k, i, v) ∈ (sweepFlat f (flatten m) s).1 := by
  rw [← mem_flatten, (flatten_sweep f m s).1]

/-! ### The values alone -/

/-- All values, in the order of a nested loop over the map and its submaps. -/
def values (m : OrdMap κ (OrdMap ι ν)) : List ν := (flatten m).map fun e => e.2.2

/-- A loop that does not look at the keys is the same loop over the list of the values. -/
theorem values_sweep (f : σ → ν → Bool × σ) (m : OrdMap κ (OrdMap ι ν)) (s : σ) :
    values (sweep (fun s _ _ v => f s v) m s).1 = (sweepList f (values m) s).1 ∧
      (sweep (fun s _ _ v => f s v) m s).2 = (sweepList f (values m) s).2 := by
  obtain ⟨h1, h2⟩ := flatten_sweep (fun s _ _ v => f s v) m s
  unfold values
  rw [h1, h2]
  clear h1 h2
  induction flatten m generalizing s with
  | nil => exact ⟨rfl, rfl⟩
  | cons e l ih =>
    obtain ⟨k, i, v⟩ := e
    obtain ⟨ih1, ih2⟩ := ih (f s v).2
    simp only [sweepFlat, List.map_cons, sweepList]
    refine ⟨?_, ih2⟩
    cases (f s v).1 with
    | false => simpa using ih1
    | true => simpa using ih1

/-- Every value stands under the keys it names. -/
def Keyed (g : ν → κ × ι) (m : OrdMap κ (OrdMap ι ν)) : Prop := ∀ k i v, find? m k i = some v → g v = (k, i)

namespace Keyed

variable {g : ν → κ × ι} {m : OrdMap κ (OrdMap ι ν)}

theorem find?_iff (hm : Keyed g m) (k : κ) (i : ι) (v : ν) : find? m k i = some v ↔ v ∈ values m ∧ g v = (k, i) := by
  unfold values
  rw [List.mem_map]
  constructor
  · intro h
    exact ⟨⟨(k, i, v), mem_flatten.2 h, rfl⟩, hm k i v h⟩
  · rintro ⟨⟨⟨k', i', v'⟩, hmem, rfl⟩, hg⟩
    have hf := mem_flatten.1 hmem
    rw [hm k' i' v' hf] at hg
    cases hg
    exact hf

/-- Looking a pair up is looking for a value that names it. -/
theorem find?_eq_find? [DecidableEq κ] [DecidableEq ι] (hm : Keyed g m) (k : κ) (i : ι) :
    find? m k i = (values m).find? fun v => decide (g v = (k, i)) := by
  cases hf : (values m).find? fun v => decide (g v = (k, i)) with
  | some v =>
    have hg : g v = (k, i) := by simpa using List.find?_some hf
    exact (hm.find?_iff k i v).2 ⟨List.mem_of_find?_eq_some hf, hg⟩
  | none =>
    rw [Option.eq_none_iff_forall_ne_some]
    intro v hv
    obtain ⟨hmem, hg⟩ := (hm.find?_iff k i v).1 hv
    exact List.find?_eq_none.1 hf v hmem (by simpa using hg)

/-- No two values name the same keys. -/
theorem nodup (hm : Keyed g m) : ((values m).map g).Nodup := by
  unfold values
  rw [List.map_map, List.nodup_iff_pairwise_ne, List.pairwise_map]
  refine (flatten_pairwise m).imp_of_mem ?_
  intro a b ha hb hab he
  refine hab ?_
  rw [← hm a.1 a.2.1 a.2.2 (mem_flatten.1 ha), ← hm b.1 b.2.1 b.2.2 (mem_flatten.1 hb)]
  exact he

theorem sweep (hm : Keyed g m) (f : σ → κ → ι → ν → Bool × σ) (s : σ) : Keyed g (TwoLevel.sweep f m s).1 := by
  intro k i v h
  have hmem := (sweepFlat_sublist f (flatten m) s).subset ((find?_sweep f m s k i v).1 h)
  exact hm k i v (mem_flatten.1 hmem)

theorem erase (hm : Keyed g m) (k : κ) (i : ι) : Keyed g (TwoLevel.erase m k i) := by
  intro k' i' v h
  rw [find?_erase] at h
  split at h
  · cases h
  · exact hm k' i' v h

end Keyed

end TwoLevel

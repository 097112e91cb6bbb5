import Mathlib.Order.Lattice
import Mathlib.Data.List.Pairwise
import Mathlib.Data.List.Nodup

/-!
# Ordered maps

A finite map kept as a list of entries with strictly increasing keys, which is what a balanced search tree shows
to the code that uses it: lookup, insertion that keeps an existing binding (`insert`), insertion that replaces it
(`assign`), erasure, and a loop over the entries in key order that may erase the entry it stands on (`sweep`).
Two maps with the same lookups are equal (`ext_find?`), so a map is determined by its lookup function.
-/

universe u v w

/-- A finite map from `κ` to `ν`, kept as its entries in increasing order of the keys. -/
structure OrdMap (κ : Type u) (ν : Type v) [LinearOrder κ] where
  entries : List (κ × ν)
  sorted : entries.Pairwise (fun a b => a.1 < b.1)

namespace OrdMap

variable {κ : Type u} {ν : Type v}

/-- Erasing entries from the front for as long as the body accepts the key it stands on. -/
def popEntries {σ : Type w} (f : σ → κ → Option σ) : List (κ × ν) → σ → List (κ × ν) × σ
  | [], s => ([], s)
  | (k, v) :: l, s =>
    match f s k with
    | some s' => popEntries f l s'
    | none => ((k, v) :: l, s)

theorem popEntries_cons_some {σ : Type w} {f : σ → κ → Option σ} {k : κ} {s s' : σ} (h : f s k = some s') (v : ν)
    (l : List (κ × ν)) : popEntries f ((k, v) :: l) s = popEntries f l s' := by
  rw [popEntries, h]

theorem popEntries_cons_none {σ : Type w} {f : σ → κ → Option σ} {k : κ} {s : σ} (h : f s k = none) (v : ν)
    (l : List (κ × ν)) : popEntries f ((k, v) :: l) s = ((k, v) :: l, s) := by
  rw [popEntries, h]

private theorem popEntries_sublist {σ : Type w} (f : σ → κ → Option σ) (l : List (κ × ν)) (s : σ) :
    (popEntries f l s).1.Sublist l := by
  induction l generalizing s with
  | nil => exact List.Sublist.refl _
  | cons a l ih =>
    obtain ⟨k, v⟩ := a
    unfold popEntries
    split
    · exact (ih _).cons _
    · exact List.Sublist.refl _

variable [LinearOrder κ]

deriving instance DecidableEq for OrdMap

/-! ### Operations on sorted lists of entries -/

/-- The value bound to `k`. -/
def lookupEntry (k : κ) : List (κ × ν) → Option ν
  | [] => none
  | (k', v) :: l => if k = k' then some v else lookupEntry k l

/-- Insertion at the place of `k`; `f` combines the new value with a value already bound to `k`. -/
def insertEntry (f : ν → ν) (k : κ) (v : ν) : List (κ × ν) → List (κ × ν)
  | [] => [(k, v)]
  | (k', v') :: l =>
    if k < k' then (k, v) :: (k', v') :: l
    else if k = k' then (k', f v') :: l
    else (k', v') :: insertEntry f k v l

private theorem mem_insertEntry {f : ν → ν} {k : κ} {v : ν} {l : List (κ × ν)} {e : κ × ν}
    (h : e ∈ insertEntry f k v l) : e.1 = k ∨ e ∈ l := by
  induction l with
  | nil => simp only [insertEntry, List.mem_singleton] at h; exact Or.inl (by rw [h])
  | cons a l ih =>
    obtain ⟨k', v'⟩ := a
    unfold insertEntry at h
    split at h
    · rcases List.mem_cons.1 h with rfl | h
      · exact Or.inl rfl
      · exact Or.inr h
    · split at h
      · rename_i hk
        rcases List.mem_cons.1 h with rfl | h
        · exact Or.inl hk.symm
        · exact Or.inr (List.mem_cons_of_mem _ h)
      · rcases List.mem_cons.1 h with rfl | h
        · exact Or.inr (List.mem_cons_self ..)
        · rcases ih h with h | h
          · exact Or.inl h
          · exact Or.inr (List.mem_cons_of_mem _ h)

private theorem insertEntry_sorted (f : ν → ν) (k : κ) (v : ν) {l : List (κ × ν)}
    (h : l.Pairwise (fun a b => a.1 < b.1)) :
    (insertEntry f k v l).Pairwise (fun a b => a.1 < b.1) := by
  induction l with
  | nil => simp [insertEntry]
  | cons a l ih =>
    obtain ⟨k', v'⟩ := a
    rw [List.pairwise_cons] at h
    unfold insertEntry
    split
    · rename_i hk
      rw [List.pairwise_cons, List.pairwise_cons]
      refine ⟨?_, h⟩
      intro e he
      rcases List.mem_cons.1 he with rfl | he
      · exact hk
      · exact lt_trans hk (h.1 e he)
    · split
      · rw [List.pairwise_cons]
        exact ⟨fun e he => h.1 e he, h.2⟩
      · rename_i h1 h2
        rw [List.pairwise_cons]
        refine ⟨?_, ih h.2⟩
        intro e he
        rcases mem_insertEntry he with he | he
        · rw [he]; exact lt_of_le_of_ne (not_lt.1 h1) (Ne.symm h2)
        · exact h.1 e he

/-- The list without its entry for `k`. -/
def eraseEntry (k : κ) (l : List (κ × ν)) : List (κ × ν) :=
  l.filter fun e => !decide (e.1 = k)

/-! ### The map operations -/

instance : EmptyCollection (OrdMap κ ν) := ⟨⟨[], List.Pairwise.nil⟩⟩

instance : Inhabited (OrdMap κ ν) := ⟨∅⟩

/-- The value bound to `k`, if there is one. -/
def find? (m : OrdMap κ ν) (k : κ) : Option ν := lookupEntry k m.entries

/-- Insertion as `std::map::insert` has it: a value already bound to `k` stays. -/
def insert (m : OrdMap κ ν) (k : κ) (v : ν) : OrdMap κ ν :=
  ⟨insertEntry id k v m.entries, insertEntry_sorted id k v m.sorted⟩

/-- Assignment through `operator[]`: a value already bound to `k` is replaced. -/
def assign (m : OrdMap κ ν) (k : κ) (v : ν) : OrdMap κ ν :=
  ⟨insertEntry (fun _ => v) k v m.entries, insertEntry_sorted _ k v m.sorted⟩

/-- The map without `k`. -/
def erase (m : OrdMap κ ν) (k : κ) : OrdMap κ ν :=
  ⟨eraseEntry k m.entries, m.sorted.filter _⟩

/-- The loop that erases the least entry for as long as the body accepts its key. -/
def popWhile {σ : Type w} (f : σ → κ → Option σ) (m : OrdMap κ ν) (s : σ) : OrdMap κ ν × σ :=
  (⟨(popEntries f m.entries s).1, m.sorted.sublist (popEntries_sublist f m.entries s)⟩,
    (popEntries f m.entries s).2)

/-- The map with every value changed. -/
def map {ν' : Type w} (f : ν → ν') (m : OrdMap κ ν) : OrdMap κ ν' :=
  ⟨m.entries.map fun e => (e.1, f e.2), m.sorted.map _ fun _ _ h => h⟩

/-- Whether the map has no entry. -/
def isEmpty (m : OrdMap κ ν) : Bool := m.entries.isEmpty

/-- Whether `k` is bound. -/
abbrev contains (m : OrdMap κ ν) (k : κ) : Bool := (m.find? k).isSome

/-! ### Lookups -/

private theorem lookupEntry_of_mem {k : κ} {v : ν} {l : List (κ × ν)}
    (hs : l.Pairwise (fun a b => a.1 < b.1)) (h : (k, v) ∈ l) : lookupEntry k l = some v := by
  induction l with
  | nil => simp at h
  | cons a l ih =>
    obtain ⟨k', v'⟩ := a
    rw [List.pairwise_cons] at hs
    unfold lookupEntry
    rcases List.mem_cons.1 h with h | h
    · simp only [Prod.mk.injEq] at h
      obtain ⟨rfl, rfl⟩ := h
      simp
    · have : k' < k := hs.1 _ h
      simp only [ne_of_gt this, ↓reduceIte]
      exact ih hs.2 h

private theorem mem_of_lookupEntry {k : κ} {v : ν} {l : List (κ × ν)} (h : lookupEntry k l = some v) :
    (k, v) ∈ l := by
  induction l with
  | nil => simp [lookupEntry] at h
  | cons a l ih =>
    obtain ⟨k', v'⟩ := a
    unfold lookupEntry at h
    split at h
    · rename_i hk
      simp only [Option.some.injEq] at h
      simp [hk, h]
    · exact List.mem_cons_of_mem _ (ih h)

theorem mem_entries {m : OrdMap κ ν} {k : κ} {v : ν} : (k, v) ∈ m.entries ↔ m.find? k = some v :=
  ⟨lookupEntry_of_mem m.sorted, mem_of_lookupEntry⟩

theorem find?_eq_none {m : OrdMap κ ν} {k : κ} : m.find? k = none ↔ ∀ v, (k, v) ∉ m.entries := by
  constructor
  · intro h v hv
    rw [mem_entries.1 hv] at h
    cases h
  · intro h
    cases hf : m.find? k with
    | none => rfl
    | some v => exact absurd (mem_entries.2 hf) (h v)

@[simp] theorem find?_empty (k : κ) : (∅ : OrdMap κ ν).find? k = none := rfl

@[simp] theorem entries_empty : (∅ : OrdMap κ ν).entries = [] := rfl

private theorem lookupEntry_none_of_lt {k : κ} {l : List (κ × ν)} (h : ∀ e ∈ l, k < e.1) :
    lookupEntry k l = none := by
  induction l with
  | nil => rfl
  | cons a l ih =>
    obtain ⟨k', v'⟩ := a
    have h1 : k < k' := h (k', v') (by simp)
    unfold lookupEntry
    simp only [ne_of_lt h1, ↓reduceIte]
    exact ih fun e he => h e (List.mem_cons_of_mem _ he)

private theorem lookupEntry_insertEntry (f : ν → ν) (k k' : κ) (v : ν) {l : List (κ × ν)}
    (hs : l.Pairwise (fun a b => a.1 < b.1)) :
    lookupEntry k' (insertEntry f k v l) =
      if k' = k then some ((lookupEntry k l).elim v f) else lookupEntry k' l := by
  induction l with
  | nil => by_cases h : k' = k <;> simp [insertEntry, lookupEntry, h]
  | cons a l ih =>
    obtain ⟨ka, va⟩ := a
    rw [List.pairwise_cons] at hs
    unfold insertEntry
    split
    · rename_i hk
      -- `k` comes before every key of the list, so it was not bound
      have hn : lookupEntry k ((ka, va) :: l) = none := by
        apply lookupEntry_none_of_lt
        intro e he
        rcases List.mem_cons.1 he with rfl | he
        · exact hk
        · exact lt_trans hk (hs.1 e he)
      rw [hn]
      by_cases h : k' = k <;> simp [lookupEntry, h]
    · split
      · rename_i hk
        subst hk
        by_cases h : k' = k <;> simp [lookupEntry, h]
      · rename_i h1 h2
        by_cases h : k' = ka
        · have h3 : k' ≠ k := fun e => h2 (e ▸ h)
          simp only [lookupEntry, h, ↓reduceIte]
          rw [if_neg (fun e => h2 e.symm)]
        · simp only [lookupEntry, h, ↓reduceIte, ih hs.2, h2]

theorem find?_insert (m : OrdMap κ ν) (k k' : κ) (v : ν) :
    (m.insert k v).find? k' = if k' = k then some ((m.find? k).getD v) else m.find? k' := by
  unfold find? insert
  rw [lookupEntry_insertEntry id k k' v m.sorted]
  cases lookupEntry k m.entries <;> rfl

theorem find?_assign (m : OrdMap κ ν) (k k' : κ) (v : ν) :
    (m.assign k v).find? k' = if k' = k then some v else m.find? k' := by
  unfold find? assign
  rw [lookupEntry_insertEntry _ k k' v m.sorted]
  cases lookupEntry k m.entries <;> rfl

theorem find?_erase (m : OrdMap κ ν) (k k' : κ) :
    (m.erase k).find? k' = if k' = k then none else m.find? k' := by
  unfold find? erase eraseEntry
  simp only
  induction m.entries with
  | nil => simp [lookupEntry]
  | cons a l ih =>
    obtain ⟨ka, va⟩ := a
    by_cases h : ka = k
    · simp only [h, List.filter_cons, decide_true, Bool.not_true, Bool.false_eq_true, ↓reduceIte, ih,
        lookupEntry]
      by_cases h' : k' = k <;> simp [h']
    · simp only [List.filter_cons, h, decide_false, Bool.not_false, ↓reduceIte, lookupEntry, ih]
      by_cases h' : k' = ka
      · simp [h', h]
      · simp [h']

theorem find?_map {ν' : Type w} (f : ν → ν') (m : OrdMap κ ν) (k : κ) : (m.map f).find? k = (m.find? k).map f := by
  unfold find? map
  simp only
  induction m.entries with
  | nil => rfl
  | cons a l ih =>
    simp only [List.map_cons, lookupEntry]
    split
    · rfl
    · exact ih

/-- A map is determined by its lookups. -/
theorem ext_find? {m m' : OrdMap κ ν} (h : ∀ k, m.find? k = m'.find? k) : m = m' := by
  have hmem : ∀ e, e ∈ m.entries ↔ e ∈ m'.entries := by
    intro ⟨k, v⟩
    rw [mem_entries, mem_entries, h]
  have hnd : ∀ m : OrdMap κ ν, m.entries.Nodup := fun m =>
    m.sorted.imp fun hab e => by rw [e] at hab; exact lt_irrefl _ hab
  have hp : m.entries.Perm m'.entries := (List.perm_ext_iff_of_nodup (hnd m) (hnd m')).2 hmem
  obtain ⟨l, hl⟩ := m
  obtain ⟨l', hl'⟩ := m'
  have : l = l' := hp.eq_of_pairwise (fun a b _ _ hab hba => absurd hba (lt_asymm hab)) hl hl'
  subst this
  rfl

theorem mem_unit {m : OrdMap κ Unit} {k : κ} : m.contains k = true ↔ (k, ()) ∈ m.entries := by
  rw [mem_entries, contains, Option.isSome_iff_exists]
  exact ⟨fun ⟨_, h⟩ => h, fun h => ⟨_, h⟩⟩

/-- A set is determined by its members. -/
theorem ext_unit {m m' : OrdMap κ Unit} (h : ∀ k, m.contains k = m'.contains k) : m = m' := by
  refine ext_find? fun k => ?_
  have hk := h k
  unfold contains at hk
  cases h1 : m.find? k <;> cases h2 : m'.find? k <;> simp_all

theorem isEmpty_iff {m : OrdMap κ ν} : m.isEmpty = true ↔ ∀ k, m.find? k = none := by
  unfold isEmpty
  rw [List.isEmpty_iff]
  constructor
  · intro h k
    rw [find?_eq_none, h]
    simp
  · intro h
    rcases he : m.entries with _ | ⟨⟨k, v⟩, l⟩
    · rfl
    · have := find?_eq_none.1 (h k) v
      rw [he] at this
      simp at this

/-! ### The entries around a key -/

/-- The smaller keys, the entry of `k` if there is one, and the larger keys. -/
theorem exists_split (m : OrdMap κ ν) (k : κ) : ∃ l r, m.entries = l ++ (((m.find? k).map (k, ·)).toList ++ r) ∧
    (∀ e ∈ l, e.1 < k) ∧ ∀ e ∈ r, k < e.1 := by
  obtain ⟨entries, sorted⟩ := m
  show ∃ l r, entries = l ++ (((lookupEntry k entries).map (k, ·)).toList ++ r) ∧ _
  induction entries with
  | nil => exact ⟨[], [], rfl, by simp, by simp⟩
  | cons e entries ih =>
    obtain ⟨k', v'⟩ := e
    rw [List.pairwise_cons] at sorted
    obtain ⟨hhead, htail⟩ := sorted
    unfold lookupEntry
    rcases lt_trichotomy k k' with hk | rfl | hk
    · -- all keys are larger
      have hall : ∀ e ∈ (k', v') :: entries, k < e.1 := by
        intro e he
        rcases List.mem_cons.1 he with rfl | he
        · exact hk
        · exact lt_trans hk (hhead e he)
      rw [if_neg (ne_of_lt hk), lookupEntry_none_of_lt fun e he => hall e (List.mem_cons_of_mem _ he)]
      exact ⟨[], _, rfl, by simp, hall⟩
    · rw [if_pos rfl]
      exact ⟨[], entries, rfl, by simp, hhead⟩
    · obtain ⟨l, r, hsplit, hl, hr⟩ := ih htail
      rw [if_neg (ne_of_gt hk)]
      refine ⟨(k', v') :: l, r, congrArg _ hsplit, fun e he => ?_, hr⟩
      rcases List.mem_cons.1 he with rfl | he
      · exact hk
      · exact hl e he

theorem insert_of_find? (m : OrdMap κ ν) {k : κ} {old : ν} (h : m.find? k = some old) (v : ν) : m.insert k v = m := by
  refine ext_find? fun k' => ?_
  rw [find?_insert]
  split
  · rename_i hk
    rw [hk, h, Option.getD_some]
  · rfl

theorem entries_insert (m : OrdMap κ ν) {k : κ} {l r : List (κ × ν)} (hm : m.entries = l ++ r)
    (hl : ∀ e ∈ l, e.1 < k) (hr : ∀ e ∈ r, k < e.1) (v : ν) : (m.insert k v).entries = l ++ (k, v) :: r := by
  show insertEntry id k v m.entries = _
  rw [hm]
  clear hm
  induction l with
  | nil =>
    cases r with
    | nil => rfl
    | cons e r => exact if_pos (hr e (List.mem_cons_self ..))
  | cons e l ih =>
    have he := hl e (List.mem_cons_self ..)
    rw [List.cons_append, insertEntry, if_neg (lt_asymm he), if_neg (ne_of_gt he),
      ih fun e he => hl e (List.mem_cons_of_mem _ he)]
    rfl

theorem entries_erase (m : OrdMap κ ν) {k : κ} {l r : List (κ × ν)}
    (hm : m.entries = l ++ (((m.find? k).map (k, ·)).toList ++ r)) (hl : ∀ e ∈ l, e.1 < k) (hr : ∀ e ∈ r, k < e.1) :
    (m.erase k).entries = l ++ r := by
  show eraseEntry k m.entries = _
  have hleft : l.filter (fun e => !decide (e.1 = k)) = l :=
    List.filter_eq_self.2 fun e he => by simpa using ne_of_lt (hl e he)
  have hright : r.filter (fun e => !decide (e.1 = k)) = r :=
    List.filter_eq_self.2 fun e he => by simpa using ne_of_gt (hr e he)
  rw [hm]
  unfold eraseEntry
  rw [List.filter_append, List.filter_append, hleft, hright]
  cases m.find? k <;> simp

/-- The keys of a map are pairwise different. -/
theorem nodup_keys (m : OrdMap κ ν) : (m.entries.map Prod.fst).Nodup := by
  rw [List.nodup_iff_pairwise_ne, List.pairwise_map]
  exact m.sorted.imp fun h => ne_of_lt h

end OrdMap

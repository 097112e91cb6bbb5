import BdbMsgStore.JournalImpl
import BdbMsgStore.Lib.Btree
import Mathlib.Data.List.InsertIdx

/-!
# The order of the message databases

`bt_compare_func` of `JournalImpl.cpp` compares two keys by their difference, narrowed to an `int`.  Its sign is that
of the numeric order as long as the low 32 bits of the distance say which of the keys is larger (`InWindow`), and two
keys at a distance that `2 ^ 32` divides are one key to the database.  `bt_compare_numeric` collects what follows for
`store_msg` and `remove_msg`; it leaves open how the database searches.
-/

namespace BdbMsgStore

open Words

/-- `store_msg`: whether the message went into the database (`put` did not report `DB_KEYEXIST`), and its records. -/
def storeMsg (S : Btree.Search UInt64) (db : List (UInt64 × Bytes)) (pid : UInt64) (value : Bytes) :
    Bool × List (UInt64 × Bytes) :=
  let r := Btree.put S compareIds db pid value
  (!r.1, r.2)

/-- `remove_msg` -/
def removeMsg (S : Btree.Search UInt64) (db : List (UInt64 × Bytes)) (pid : UInt64) : List (UInt64 × Bytes) :=
  Btree.del S compareIds db pid

/-- The sign of the comparison is that of the numeric order. -/
structure Numeric (a b : UInt64) : Prop where
  lt : compareIds a b < 0 ↔ a < b
  eq : compareIds a b = 0 ↔ a = b
  gt : 0 < compareIds a b ↔ b < a

/-- The low 32 bits of the distance tell the larger key. -/
def InWindow (a b : UInt64) : Prop :=
  a = b ∨ (b < a ∧ 0 < (a.toNat - b.toNat) % 2 ^ 32 ∧ (a.toNat - b.toNat) % 2 ^ 32 < 2 ^ 31) ∨
    (a < b ∧ 0 < (b.toNat - a.toNat) % 2 ^ 32 ∧ (b.toNat - a.toNat) % 2 ^ 32 ≤ 2 ^ 31)

instance instDecidableInWindow (a b : UInt64) : Decidable (InWindow a b) := inferInstanceAs (Decidable (_ ∨ _))

theorem numeric_iff (a b : UInt64) : Numeric a b ↔ InWindow a b := by
  have hsign : compareIds a b = castInt (a - b) := compareIds_eq a b
  have ha := a.toNat_lt
  have hb := b.toNat_lt
  unfold castInt at hsign
  rw [toNat_sub_mod] at hsign
  constructor
  · rintro ⟨hlt, heq, hgt⟩
    rcases lt_trichotomy a b with hab | hab | hab
    · refine Or.inr (Or.inr ⟨hab, ?_⟩)
      have hneg := hlt.2 hab
      rw [UInt64.lt_iff_toNat_lt] at hab
      rw [hsign] at hneg
      split at hneg <;> omega
    · exact Or.inl hab
    · refine Or.inr (Or.inl ⟨hab, ?_⟩)
      have hpos := hgt.2 hab
      rw [UInt64.lt_iff_toNat_lt] at hab
      rw [hsign] at hpos
      split at hpos <;> omega
  · rintro (rfl | ⟨hab, h0, h1⟩ | ⟨hab, h0, h1⟩)
    · have hz : compareIds a a = 0 := compareIds_eq_zero.2 rfl
      refine ⟨?_, ?_, ?_⟩ <;> rw [hz] <;> simp
    · have hpos : 0 < compareIds a b := by
        rw [UInt64.lt_iff_toNat_lt] at hab
        rw [hsign]
        split <;> omega
      refine ⟨?_, ?_, ?_⟩
      · exact iff_of_false (not_lt.2 (le_of_lt hpos)) (not_lt.2 (le_of_lt hab))
      · exact iff_of_false (ne_of_gt hpos) (ne_of_gt hab)
      · exact iff_of_true hpos hab
    · have hneg : compareIds a b < 0 := by
        rw [UInt64.lt_iff_toNat_lt] at hab
        rw [hsign]
        split <;> omega
      refine ⟨?_, ?_, ?_⟩
      · exact iff_of_true hneg hab
      · exact iff_of_false (ne_of_lt hneg) (ne_of_lt hab)
      · exact iff_of_false (not_lt.2 (le_of_lt hneg)) (not_lt.2 (le_of_lt hab))

/-! ### The databases -/

/-- The comparison function orders the keys. -/
structure OrdersKeys (keys : List UInt64) : Prop where
  antisymm : ∀ a ∈ keys, ∀ b ∈ keys, (compareIds a b < 0 ↔ 0 < compareIds b a)
  trans : ∀ a ∈ keys, ∀ b ∈ keys, ∀ c ∈ keys, compareIds a b < 0 → compareIds b c < 0 → compareIds a c < 0
  separates : ∀ a ∈ keys, ∀ b ∈ keys, compareIds a b = 0 → a = b

theorem ordersKeys_of_numeric {keys : List UInt64} (h : ∀ a ∈ keys, ∀ b ∈ keys, Numeric a b) : OrdersKeys keys where
  antisymm := fun a ha b hb => (h a ha b hb).lt.trans (h b hb a ha).gt.symm
  trans := fun a ha b hb c hc hab hbc =>
    (h a ha c hc).lt.2 (lt_trans ((h a ha b hb).lt.1 hab) ((h b hb c hc).lt.1 hbc))
  separates := fun a ha b hb => (h a ha b hb).eq.1

/-- `store_msg` refuses only messages that are in the database, and `remove_msg` deletes no other id. -/
structure KeepsApart (S : Btree.Search UInt64) (db : List (UInt64 × Bytes)) (pid : UInt64) : Prop where
  store : ∀ value, (storeMsg S db pid value).1 = false → pid ∈ db.map Prod.fst
  remove : ∀ e ∈ db, e.1 ≠ pid → e ∈ removeMsg S db pid

/-- It does not matter how the database searches, exactly if no other id in it is congruent. -/
theorem keepsApart_iff {db : List (UInt64 × Bytes)} (hdb : (db.map Prod.fst).Nodup) {pid : UInt64} :
    (∀ S, KeepsApart S db pid) ↔ ∀ k ∈ db.map Prod.fst, Congruent pid k → k = pid := by
  constructor
  · intro hall k hk hcong
    by_contra hne
    obtain ⟨hstore, hremove⟩ := hall (.preferring k)
    have hfind := Btree.find_preferring hk (compareIds_eq_zero.2 hcong)
    have hmem : pid ∈ db.map Prod.fst := by
      refine hstore [] ?_
      unfold storeMsg Btree.put
      rw [hfind]
      rfl
    -- the record that is removed is that of `k`
    obtain ⟨e, he, rfl⟩ := List.mem_map.1 hk
    have hkept := hremove e he hne
    unfold removeMsg Btree.del at hkept
    rw [hfind] at hkept
    have hkept' : e.1 ∈ (db.map Prod.fst).eraseIdx ((db.map Prod.fst).idxOf e.1) := by
      rw [List.eraseIdx_map]
      exact List.mem_map_of_mem hkept
    rw [← List.erase_eq_eraseIdx_of_idxOf rfl] at hkept'
    exact (List.Nodup.mem_erase_iff hdb).1 hkept' |>.1 rfl
  · intro hcong S
    refine ⟨fun value hfail => ?_, fun e he hne => ?_⟩
    · have hput : (Btree.put S compareIds db pid value).1 = true := by
        unfold storeMsg at hfail
        simpa using hfail
      obtain ⟨k, hk, hz⟩ := Btree.exists_of_put hput
      rw [← hcong k hk (compareIds_eq_zero.1 hz)]
      exact hk
    · by_contra hdel
      have hz := Btree.eq_zero_of_del he hdel
      exact hne (hcong e.1 (List.mem_map_of_mem he) (compareIds_eq_zero.1 hz))

/-- In the window of its ids, a database in numeric order is the map that the journal is modelled with. -/
theorem orders_of_inWindow {keys : List UInt64} {pid : UInt64} (h : ∀ k ∈ keys, InWindow pid k) :
    Btree.Orders compareIds pid keys where
  self := compareIds_eq_zero.2 rfl
  lt := fun k hk => ((numeric_iff pid k).2 (h k hk)).lt.2
  gt := fun k hk => ((numeric_iff pid k).2 (h k hk)).gt.2

theorem storeMsg_entries (S : Btree.Search UInt64) {m : OrdMap UInt64 Bytes} {pid : UInt64}
    (h : ∀ k ∈ m.entries.map Prod.fst, InWindow pid k) (value : Bytes) :
    storeMsg S m.entries pid value = (!m.contains pid, (m.insert pid value).entries) := by
  unfold storeMsg
  rw [Btree.put_entries (orders_of_inWindow h)]

theorem removeMsg_entries (S : Btree.Search UInt64) {m : OrdMap UInt64 Bytes} {pid : UInt64}
    (h : ∀ k ∈ m.entries.map Prod.fst, InWindow pid k) :
    removeMsg S m.entries pid = (m.erase pid).entries :=
  Btree.del_entries (orders_of_inWindow h)

/-- The comparison is numeric exactly in the window; keys in the window are ordered; and messages are kept apart,
however the database searches, exactly if no other id in it is congruent. -/
theorem bt_compare_numeric (a b : UInt64) (db : List (UInt64 × Bytes)) (hdb : (db.map Prod.fst).Nodup)
    (pid : UInt64) :
    (Numeric a b ↔ InWindow a b) ∧
    ((∀ x ∈ db.map Prod.fst, ∀ y ∈ db.map Prod.fst, InWindow x y) → OrdersKeys (db.map Prod.fst)) ∧
    ((∀ S, KeepsApart S db pid) ↔ ∀ k ∈ db.map Prod.fst, Congruent pid k → k = pid) := by
  refine ⟨numeric_iff a b, fun hwindow => ordersKeys_of_numeric fun x hx y hy => ?_, keepsApart_iff hdb⟩
  exact (numeric_iff x y).2 (hwindow x hx y hy)

theorem bt_compare_numeric_neighbours :
    Numeric 5 7 ∧ OrdersKeys [5, 7] ∧ ∀ S, KeepsApart S [(5, [1]), (7, [2])] 6 := by
  have hwindow : ∀ x ∈ [5, 7], ∀ y ∈ [5, 7], InWindow x y := by
    unfold InWindow
    simp
  obtain ⟨hnum, hord, hkeep⟩ := bt_compare_numeric 5 7 [(5, [1]), (7, [2])] (by decide) 6
  refine ⟨hnum.2 (hwindow 5 (by simp) 7 (by simp)), hord hwindow, hkeep.2 ?_⟩
  unfold Congruent
  simp

/-- The id `2 ^ 32 + 5` is refused by a database that holds `5`, as if it were there. -/
theorem congruent_id_refused :
    ¬ ((∀ a b, Numeric a b) ∧ (∀ keys, OrdersKeys keys) ∧
      ∀ (S : Btree.Search UInt64) (db : List (UInt64 × Bytes)) (pid : UInt64), (db.map Prod.fst).Nodup →
        KeepsApart S db pid) := by
  rintro ⟨-, -, hkeeps⟩
  have hmem := (hkeeps (.preferring 5) [(5, [1])] 0x100000005 (by decide)).store [2] (by decide)
  exact absurd hmem (by decide)

end BdbMsgStore

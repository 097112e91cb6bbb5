import Mathlib.Order.Defs.LinearOrder
import Mathlib.Algebra.Order.Group.Unbundled.Int
import Mathlib.Tactic.Ring

/-!
# Machine words

The order of 64-bit words as a `LinearOrder`, the conversion of a 64-bit word to a 32-bit signed integer that keeps
the low 32 bits (`castInt`), and words as byte strings: `toBytes n x` writes the `n` low bytes of `x`, least
significant first, and `ofBytes` reads them back (`ofBytes_toBytes`).
-/

instance UInt64.instLinearOrder : LinearOrder UInt64 where
  le_refl _ := UInt64.le_refl _
  le_trans _ _ _ := UInt64.le_trans
  le_antisymm _ _ := UInt64.le_antisymm
  le_total := UInt64.le_total
  lt_iff_le_not_ge a b := by
    simp only [UInt64.lt_iff_toNat_lt, UInt64.le_iff_toNat_le]
    omega
  toDecidableLE := inferInstance
  toDecidableLT := inferInstance
  toDecidableEq := inferInstance
  min := min
  max := max
  compare := compare

instance UInt64.instLawfulBEq : LawfulBEq UInt64 := inferInstance

namespace Words

/-- An increment of a word that is below another one does not wrap around. -/
theorem toNat_add_one {c d : UInt64} (h : c.toNat < d.toNat) : (c + 1).toNat = c.toNat + 1 := by
  have hlt := d.toNat_lt
  rw [UInt64.toNat_add]
  exact Nat.mod_eq_of_lt (by show c.toNat + 1 < _; omega)

/-- Nor does a decrement of a word other than `0`. -/
theorem toNat_sub_one {c : UInt64} (h : 0 < c.toNat) : (c - 1).toNat = c.toNat - 1 := by
  have hle : (1 : UInt64) ≤ c := UInt64.le_iff_toNat_le.2 h
  rw [UInt64.toNat_sub_of_le _ _ hle]
  rfl

/-- The conversion of a 64-bit word to `int`: its low 32 bits, read as a signed number. -/
def castInt (x : UInt64) : Int :=
  if x.toNat % 2 ^ 32 < 2 ^ 31 then ((x.toNat % 2 ^ 32 : Nat) : Int) else ((x.toNat % 2 ^ 32 : Nat) : Int) - 2 ^ 32

theorem castInt_lt (x : UInt64) : castInt x < 2 ^ 31 := by
  unfold castInt
  split <;> omega

/-- Below `2 ^ 31` the conversion to `int` keeps the value. -/
theorem castInt_of_lt {x : UInt64} (h : x.toNat < 2 ^ 31) : castInt x = x.toNat := by
  have hmod : x.toNat % 2 ^ 32 = x.toNat := Nat.mod_eq_of_lt (by omega)
  unfold castInt
  rw [hmod, if_pos h]

/-- A word below `2 ^ 32` keeps its value when it does not become negative. -/
theorem castInt_of_nonneg {x : UInt64} (h : x.toNat < 2 ^ 32) (hnn : 0 ≤ castInt x) : castInt x = x.toNat := by
  have hmod : x.toNat % 2 ^ 32 = x.toNat := Nat.mod_eq_of_lt h
  unfold castInt at hnn ⊢
  rw [hmod] at hnn ⊢
  split at hnn
  · rename_i hlt
    rw [if_pos hlt]
  · omega

/-- The number with the `n` bytes below it, least significant byte first. -/
def toBytes : Nat → Nat → List UInt8
  | 0, _ => []
  | n + 1, x => UInt8.ofNat (x % 256) :: toBytes n (x / 256)

/-- The number a byte string stands for, least significant byte first. -/
def ofBytes : List UInt8 → Nat
  | [] => 0
  | b :: l => b.toNat + 256 * ofBytes l

@[simp] theorem length_toBytes (n x : Nat) : (toBytes n x).length = n := by
  induction n generalizing x with
  | zero => rfl
  | succ n ih => simp [toBytes, ih]

theorem ofBytes_toBytes (n x : Nat) : ofBytes (toBytes n x) = x % 256 ^ n := by
  induction n generalizing x with
  | zero => simp [toBytes, ofBytes, Nat.mod_one]
  | succ n ih =>
    have hb : (UInt8.ofNat (x % 256)).toNat = x % 256 := by
      rw [UInt8.toNat_ofNat']
      exact Nat.mod_eq_of_lt (Nat.mod_lt _ (by decide))
    simp only [toBytes, ofBytes, ih, hb]
    rw [Nat.pow_succ, Nat.mul_comm (256 ^ n) 256, Nat.mod_mul]

/-- The eight bytes of a 64-bit word in memory. -/
def u64Bytes (x : UInt64) : List UInt8 := toBytes 8 x.toNat

/-- The 64-bit word in eight bytes of memory. -/
def u64OfBytes (l : List UInt8) : UInt64 := UInt64.ofNat (ofBytes l)

@[simp] theorem length_u64Bytes (x : UInt64) : (u64Bytes x).length = 8 := length_toBytes 8 _

@[simp] theorem u64OfBytes_u64Bytes (x : UInt64) : u64OfBytes (u64Bytes x) = x := by
  unfold u64OfBytes u64Bytes
  rw [ofBytes_toBytes, Nat.mod_eq_of_lt (by have := x.toNat_lt; omega)]
  exact UInt64.ofNat_toNat

end Words

import Mathlib.Algebra.Group.Nat.Defs
import Mathlib.Order.Lattice
import Mathlib.Tactic.Common

/-!
# Machine integers

The saturating operations of `u64`, and minima and maxima of words, each with its value in `ℕ` or
`ℤ`. Proofs about counters and balances rewrite with these and finish in linear arithmetic.
-/

namespace MachineInt

def u64Max : ℕ := 2 ^ 64 - 1

theorem toNat_le_u64Max (a : UInt64) : a.toNat ≤ u64Max := by
  have h := a.toNat_lt
  simp only [u64Max]
  omega

def satAdd (a b : UInt64) : UInt64 := UInt64.ofNat (min (a.toNat + b.toNat) u64Max)

def satSub (a b : UInt64) : UInt64 := UInt64.ofNat (a.toNat - b.toNat)

def satMul (a b : UInt64) : UInt64 := UInt64.ofNat (min (a.toNat * b.toNat) u64Max)

theorem toNat_ofNat_of_le {n : ℕ} (h : n ≤ u64Max) : (UInt64.ofNat n).toNat = n := by
  apply UInt64.toNat_ofNat_of_lt'
  simp only [u64Max] at h
  simp only [UInt64.size]
  omega

@[simp] theorem toNat_satAdd (a b : UInt64) :
    (satAdd a b).toNat = min (a.toNat + b.toNat) u64Max :=
  toNat_ofNat_of_le (min_le_right _ _)

@[simp] theorem toNat_satSub (a b : UInt64) : (satSub a b).toNat = a.toNat - b.toNat :=
  toNat_ofNat_of_le ((Nat.sub_le _ _).trans (toNat_le_u64Max a))

@[simp] theorem toNat_satMul (a b : UInt64) :
    (satMul a b).toNat = min (a.toNat * b.toNat) u64Max :=
  toNat_ofNat_of_le (min_le_right _ _)

theorem one_satMul (a : UInt64) : satMul 1 a = a := by
  apply UInt64.toNat_inj.mp
  rw [toNat_satMul, UInt64.toNat_one, one_mul, min_eq_left (toNat_le_u64Max a)]

theorem toNat_add_of_lt {a b : UInt64} (h : a.toNat + b.toNat < 2 ^ 64) :
    (a + b).toNat = a.toNat + b.toNat := by
  rw [UInt64.toNat_add, Nat.mod_eq_of_lt h]

@[simp] theorem toNat_max (a b : UInt64) : (max a b).toNat = max a.toNat b.toNat := by
  change (if a ≤ b then b else a).toNat = _
  by_cases h : a ≤ b
  · rw [if_pos h, max_eq_right (UInt64.le_iff_toNat_le.mp h)]
  · rw [if_neg h, max_eq_left]
    have hlt := UInt64.lt_iff_toNat_lt.mp (UInt64.not_le.mp h)
    omega

theorem toNat_min (a b : UInt64) : (min a b).toNat = min a.toNat b.toNat := by
  change (if a ≤ b then a else b).toNat = _
  by_cases h : a ≤ b
  · rw [if_pos h, min_eq_left (UInt64.le_iff_toNat_le.mp h)]
  · rw [if_neg h, min_eq_right]
    rw [UInt64.le_iff_toNat_le] at h
    omega

theorem toInt_min (a b : Int32) : (min a b).toInt = min a.toInt b.toInt := by
  change (if a ≤ b then a else b).toInt = _
  by_cases h : a ≤ b
  · rw [if_pos h, min_eq_left (Int32.le_iff_toInt_le.mp h)]
  · rw [if_neg h, min_eq_right]
    rw [Int32.le_iff_toInt_le] at h
    omega

theorem toInt_max (a b : Int32) : (max a b).toInt = max a.toInt b.toInt := by
  change (if a ≤ b then b else a).toInt = _
  by_cases h : a ≤ b
  · rw [if_pos h, max_eq_right (Int32.le_iff_toInt_le.mp h)]
  · rw [if_neg h, max_eq_left]
    rw [Int32.le_iff_toInt_le] at h
    omega

end MachineInt

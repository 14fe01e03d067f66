import Mathlib.Algebra.BigOperators.Group.List.Basic
import Mathlib.Data.UInt
import Mathlib.Order.Lattice

/-!
# Saturating 64-bit arithmetic

Sums and products of unsigned 64-bit numbers that stay at the largest number
instead of wrapping around, differences that stay at zero, and the larger of two
numbers.
-/

namespace Saturating

/-- The largest 64-bit number, as a natural number. -/
def maxValue : ℕ := 2 ^ 64 - 1

def satAdd (a b : UInt64) : UInt64 :=
  if a.toNat + b.toNat ≤ maxValue then a + b else UInt64.ofNat maxValue

theorem toNat_le_maxValue (a : UInt64) : a.toNat ≤ maxValue := by
  have h := a.toNat_lt
  unfold maxValue
  omega

theorem toNat_satAdd (a b : UInt64) :
    (satAdd a b).toNat = min (a.toNat + b.toNat) maxValue := by
  unfold satAdd
  split
  case isTrue h =>
    rw [UInt64.toNat_add, Nat.min_eq_left h, Nat.mod_eq_of_lt]
    unfold maxValue at h
    omega
  case isFalse h =>
    rw [Nat.min_eq_right (by omega), UInt64.toNat_ofNat']
    rfl

theorem toNat_satAdd_of_le {a b : UInt64} (h : a.toNat + b.toNat ≤ maxValue) :
    (satAdd a b).toNat = a.toNat + b.toNat := by
  rw [toNat_satAdd, Nat.min_eq_left h]

theorem satAdd_eq_add {a b : UInt64} (h : a.toNat + b.toNat ≤ maxValue) : satAdd a b = a + b :=
  if_pos h

theorem toNat_add_of_le {a b : UInt64} (h : a.toNat + b.toNat ≤ maxValue) :
    (a + b).toNat = a.toNat + b.toNat := by
  rw [← satAdd_eq_add h, toNat_satAdd_of_le h]

theorem satAdd_comm (a b : UInt64) : satAdd a b = satAdd b a := by
  apply UInt64.toNat_inj.mp
  rw [toNat_satAdd, toNat_satAdd, Nat.add_comm]

theorem satAdd_assoc (a b c : UInt64) : satAdd (satAdd a b) c = satAdd a (satAdd b c) := by
  apply UInt64.toNat_inj.mp
  simp only [toNat_satAdd]
  omega

@[simp] theorem satAdd_zero (a : UInt64) : satAdd a 0 = a := by
  apply UInt64.toNat_inj.mp
  have h := toNat_le_maxValue a
  rw [toNat_satAdd, UInt64.toNat_zero]
  omega

@[simp] theorem zero_satAdd (a : UInt64) : satAdd 0 a = a := by
  rw [satAdd_comm, satAdd_zero]

theorem toNat_max (a b : UInt64) : (max a b).toNat = max a.toNat b.toNat := by
  have hmax : max a b = if a ≤ b then b else a := rfl
  rw [hmax]
  split
  case isTrue h => exact (Nat.max_eq_right (UInt64.le_iff_toNat_le.mp h)).symm
  case isFalse h =>
    rw [UInt64.le_iff_toNat_le] at h
    exact (Nat.max_eq_left (Nat.le_of_not_le h)).symm

theorem toNat_min (a b : UInt64) : (min a b).toNat = min a.toNat b.toNat := by
  have hmin : min a b = if a ≤ b then a else b := rfl
  rw [hmin]
  split
  case isTrue h => exact (Nat.min_eq_left (UInt64.le_iff_toNat_le.mp h)).symm
  case isFalse h =>
    rw [UInt64.le_iff_toNat_le] at h
    exact (Nat.min_eq_right (Nat.le_of_not_le h)).symm

theorem max_assoc (a b c : UInt64) : max (max a b) c = max a (max b c) := by
  apply UInt64.toNat_inj.mp
  simp only [toNat_max, Nat.max_assoc]

theorem max_right_comm (a b c : UInt64) : max (max a b) c = max (max a c) b := by
  apply UInt64.toNat_inj.mp
  simp only [toNat_max, Nat.max_assoc, Nat.max_comm b.toNat]

theorem le_max_left (a b : UInt64) : a ≤ max a b := by
  apply UInt64.le_iff_toNat_le.mpr
  rw [toNat_max]
  exact Nat.le_max_left _ _

/-! ## Differences and products -/

def satSub (a b : UInt64) : UInt64 := if b ≤ a then a - b else 0

def satMul (a b : UInt64) : UInt64 :=
  if a.toNat * b.toNat ≤ maxValue then a * b else UInt64.ofNat maxValue

theorem toNat_satSub (a b : UInt64) : (satSub a b).toNat = a.toNat - b.toNat := by
  unfold satSub
  split
  case isTrue h => exact UInt64.toNat_sub_of_le _ _ h
  case isFalse h =>
    rw [UInt64.le_iff_toNat_le] at h
    rw [UInt64.toNat_zero]
    omega

theorem toNat_satMul (a b : UInt64) :
    (satMul a b).toNat = min (a.toNat * b.toNat) maxValue := by
  unfold satMul
  split
  case isTrue h =>
    rw [UInt64.toNat_mul, Nat.min_eq_left h, Nat.mod_eq_of_lt]
    unfold maxValue at h
    omega
  case isFalse h =>
    rw [Nat.min_eq_right (by omega), UInt64.toNat_ofNat']
    rfl

/-! ## Many summands -/

/-- Adding up saturates once, at the end. -/
theorem toNat_foldl_satAdd (values : List UInt64) (a : UInt64) :
    (values.foldl satAdd a).toNat = min (a.toNat + (values.map UInt64.toNat).sum) maxValue := by
  induction values generalizing a with
  | nil =>
      have h := toNat_le_maxValue a
      simp [h]
  | cons value rest ih =>
      rw [List.foldl_cons, ih, toNat_satAdd, List.map_cons, List.sum_cons]
      omega

/-- A measure that adds up by saturating addition, of a sum. -/
theorem toNat_sum {M : Type*} [AddMonoid M] (f : M → UInt64) (hzero : f 0 = 0)
    (hadd : ∀ a b, f (a + b) = satAdd (f a) (f b)) (l : List M) :
    (f l.sum).toNat = min ((l.map fun a ↦ (f a).toNat).sum) maxValue := by
  induction l with
  | nil => simp [hzero]
  | cons a rest ih =>
      rw [List.sum_cons, hadd, toNat_satAdd, ih, List.map_cons, List.sum_cons]
      omega

end Saturating

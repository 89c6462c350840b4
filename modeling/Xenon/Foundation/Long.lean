import Mathlib.Algebra.Group.Int.Defs
import Mathlib.Tactic.SplitIfs

/-!
# Longs

Sixty-four bit integers that wrap around, read as integers. A step up or down is that of the
integers as long as it does not start at the end of the range.
-/

namespace Xenon.Foundation.Long

variable {x y : Int64}

/-! ## Steps -/

theorem toInt_add_one (h : x ≠ Int64.maxValue) : (x + 1).toInt = x.toInt + 1 := by
  have hne : x.toInt ≠ Int64.maxValue.toInt := fun heq => h (Int64.toInt_inj.mp heq)
  have hlt := Int64.toInt_lt x
  have hle := Int64.le_toInt x
  rw [Int64.toInt_maxValue] at hne
  rw [Int64.toInt_add, Int64.toInt_one, Int.bmod_eq_of_le (by omega) (by omega)]

theorem toInt_sub_one (h : x ≠ Int64.minValue) : (x - 1).toInt = x.toInt - 1 := by
  have hne : x.toInt ≠ Int64.minValue.toInt := fun heq => h (Int64.toInt_inj.mp heq)
  have hlt := Int64.toInt_lt x
  have hle := Int64.le_toInt x
  rw [Int64.toInt_minValue] at hne
  rw [Int64.toInt_sub, Int64.toInt_one, Int.bmod_eq_of_le (by omega) (by omega)]

theorem ne_maxValue_of_lt (h : x.toInt + 1 < 2 ^ 63) : x ≠ Int64.maxValue := by
  rintro rfl
  rw [Int64.toInt_maxValue] at h
  omega

theorem lt_add_one (h : x ≠ Int64.maxValue) : x < x + 1 := by
  rw [Int64.lt_iff_toInt_lt, toInt_add_one h]
  omega

theorem add_one_le_iff (h : x ≠ Int64.maxValue) : x + 1 ≤ y ↔ x < y := by
  rw [Int64.le_iff_toInt_le, Int64.lt_iff_toInt_lt, toInt_add_one h]
  omega

theorem le_sub_one_iff (h : x ≠ Int64.minValue) : y ≤ x - 1 ↔ y < x := by
  rw [Int64.le_iff_toInt_le, Int64.lt_iff_toInt_lt, toInt_sub_one h]
  omega

/-- Not even at the end of the range. -/
theorem add_one_ne (x : Int64) : x + 1 ≠ x := by
  intro h
  have hone : x + 1 - x = 0 := by rw [h, Int64.sub_self]
  rw [Int64.add_comm, Int64.add_sub_cancel] at hone
  exact absurd hone (by decide)

/-! ## Signs

The least long is its own negative and its own absolute value. -/

theorem toInt_neg (h : x ≠ Int64.minValue) : (-x).toInt = -x.toInt := by
  have hne : x.toInt ≠ Int64.minValue.toInt := fun heq => h (Int64.toInt_inj.mp heq)
  have hlt := Int64.toInt_lt x
  have hle := Int64.le_toInt x
  rw [Int64.toInt_minValue] at hne
  rw [Int64.toInt_neg, Int.bmod_eq_of_le (by omega) (by omega)]

theorem toInt_abs (h : x ≠ Int64.minValue) : x.abs.toInt = x.toInt.natAbs :=
  BitVec.toInt_abs_eq_natAbs_of_ne_intMin fun heq => h (Int64.toBitVec_inj.mp heq)

theorem abs_neg (x : Int64) : (-x).abs = x.abs := by
  by_cases h : x = Int64.minValue
  · subst h
    rfl
  · have hneg : -x ≠ Int64.minValue := by
      intro heq
      rw [← Int64.neg_neg (a := x), heq] at h
      exact h rfl
    rw [← Int64.toInt_inj, toInt_abs h, toInt_abs hneg, toInt_neg h, Int.natAbs_neg]

theorem not_pos_neg (h : 0 < x) : ¬ 0 < -x := by
  have hmin : x ≠ Int64.minValue := by
    rintro rfl
    exact absurd h (by decide)
  rw [Int64.lt_iff_toInt_lt, Int64.toInt_zero] at h ⊢
  rw [toInt_neg hmin]
  omega

theorem pos_or_pos_neg (hmin : x ≠ Int64.minValue) (hzero : x ≠ 0) : 0 < x ∨ 0 < -x := by
  have hne : x.toInt ≠ (0 : Int64).toInt := fun heq => hzero (Int64.toInt_inj.mp heq)
  rw [Int64.toInt_zero] at hne
  rw [Int64.lt_iff_toInt_lt, Int64.lt_iff_toInt_lt, toInt_neg hmin, Int64.toInt_zero]
  omega

/-- A long whose absolute value is at least one has a sign. The least one has an
absolute value below zero. -/
theorem pos_or_pos_neg_of_abs (hy : 1 ≤ y) (h : ¬ x.abs < y) : 0 < x ∨ 0 < -x := by
  apply pos_or_pos_neg
  · rintro rfl
    exact h (Int64.lt_of_lt_of_le (by decide) hy)
  · rintro rfl
    exact h (Int64.lt_of_lt_of_le (by decide) hy)

/-! ## Maxima -/

theorem toInt_max (x y : Int64) : (max x y).toInt = max x.toInt y.toInt := by
  show (if x ≤ y then y else x).toInt = _
  split_ifs with h
  · rw [Int64.le_iff_toInt_le] at h
    omega
  · rw [Int64.le_iff_toInt_le] at h
    omega

end Xenon.Foundation.Long

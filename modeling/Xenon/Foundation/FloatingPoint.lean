import Mathlib.Order.Monotone.Basic
import Mathlib.Algebra.Order.Ring.Int
import Mathlib.Data.Int.ConditionallyCompleteOrder
import Mathlib.Order.ConditionallyCompleteLattice.Basic

/-!
# Floating-point numbers by their place in the order

The bits of a positive floating-point number are an exponent over a fraction of `p` steps. Read as
one number they count the floating-point numbers from zero on. The value is in units of the least
positive one; a negative number mirrors a positive one.
-/

namespace Xenon.Foundation.FloatingPoint

/-- The value of the `bits`-th number from zero on: the first `p` ones are the subnormal ones. -/
def magnitude (p bits : ℕ) : ℕ :=
  match bits / p with
  | 0 => bits % p
  | e + 1 => (p + bits % p) * 2 ^ e

def value (p : ℕ) : ℤ → ℤ
  | .ofNat n => magnitude p n
  | .negSucc n => -(magnitude p (n + 1) : ℤ)

variable {p : ℕ} {m n : ℕ}

theorem magnitude_lt (hp : 0 < p) (n : ℕ) : magnitude p n < p * 2 ^ (n / p) := by
  have hmod := Nat.mod_lt n hp
  unfold magnitude
  cases n / p with
  | zero =>
      rw [pow_zero, Nat.mul_one]
      exact hmod
  | succ e =>
      show (p + n % p) * 2 ^ e < _
      rw [pow_succ', ← Nat.mul_assoc]
      exact Nat.mul_lt_mul_of_pos_right (by omega) (Nat.two_pow_pos e)

theorem le_magnitude {e : ℕ} (h : e < n / p) : p * 2 ^ e ≤ magnitude p n := by
  unfold magnitude
  cases hdiv : n / p with
  | zero =>
      rw [hdiv] at h
      cases h
  | succ e' =>
      rw [hdiv] at h
      have hpow : 2 ^ e ≤ 2 ^ e' := Nat.pow_le_pow_right (by decide) (Nat.le_of_lt_succ h)
      exact Nat.mul_le_mul (Nat.le_add_right _ _) hpow

/-- The exponent decides; where it is the same, the fraction does. -/
theorem magnitude_strictMono (hp : 0 < p) : StrictMono (magnitude p) := by
  intro m n h
  rcases Nat.lt_or_eq_of_le (Nat.div_le_div_right (c := p) (Nat.le_of_lt h)) with hlt | heq
  · exact Nat.lt_of_lt_of_le (magnitude_lt hp m) (le_magnitude hlt)
  · have hmod : m % p < n % p := by
      have hm := Nat.div_add_mod m p
      have hn := Nat.div_add_mod n p
      rw [heq] at hm
      omega
    unfold magnitude
    rw [heq]
    cases n / p with
    | zero => exact hmod
    | succ e => exact Nat.mul_lt_mul_of_pos_right (by omega) (Nat.two_pow_pos e)

theorem magnitude_zero (p : ℕ) : magnitude p 0 = 0 := by
  rw [magnitude, Nat.zero_div, Nat.zero_mod]

theorem value_strictMono (hp : 0 < p) : StrictMono (value p) := by
  intro a b h
  cases a with
  | ofNat m =>
      cases b with
      | ofNat n => exact Int.ofNat_lt.mpr (magnitude_strictMono hp (Int.ofNat_lt.mp h))
      | negSucc n =>
          rw [Int.ofNat_eq_natCast] at h
          omega
  | negSucc m =>
      have hpos : magnitude p 0 < magnitude p (m + 1) := magnitude_strictMono hp (Nat.succ_pos m)
      rw [magnitude_zero] at hpos
      cases b with
      | ofNat n =>
          show -(magnitude p (m + 1) : ℤ) < magnitude p n
          omega
      | negSucc n =>
          have hlt := magnitude_strictMono hp (show n + 1 < m + 1 by omega)
          show -(magnitude p (m + 1) : ℤ) < -(magnitude p (n + 1) : ℤ)
          omega

theorem value_normal {e r : ℕ} (hr : r < p) :
    value p ((e + 1) * p + r : ℕ) = (p + r) * 2 ^ e := by
  have hdiv : ((e + 1) * p + r) / p = e + 1 := by
    rw [Nat.add_comm, Nat.add_mul_div_right _ _ (by omega), Nat.div_eq_of_lt hr, Nat.zero_add]
  have hmod : ((e + 1) * p + r) % p = r := by
    rw [Nat.add_comm, Nat.add_mul_mod_self_right, Nat.mod_eq_of_lt hr]
  show ((magnitude p ((e + 1) * p + r) : ℕ) : ℤ) = _
  rw [magnitude, hdiv, hmod]
  push_cast
  rfl

end Xenon.Foundation.FloatingPoint

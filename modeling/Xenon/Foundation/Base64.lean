import Mathlib.Data.List.Basic
import Mathlib.Tactic.SplitIfs

/-!
# Base64 for URLs

Three bytes are four characters of the alphabet, without padding at the end.
-/

namespace Xenon.Foundation.Base64

/-- The characters of the alphabet. -/
abbrev inAlphabet (b : UInt8) : Prop :=
  (65 ≤ b.toNat ∧ b.toNat ≤ 90) ∨ (97 ≤ b.toNat ∧ b.toNat ≤ 122) ∨
    (48 ≤ b.toNat ∧ b.toNat ≤ 57) ∨ b.toNat = 45 ∨ b.toNat = 95

/-- The character of a number below 64. -/
def digit (n : Nat) : UInt8 :=
  if n < 26 then UInt8.ofNat (65 + n)
  else if n < 52 then UInt8.ofNat (71 + n)
  else if n < 62 then UInt8.ofNat (n - 4)
  else if n = 62 then 45
  else 95

/-- The number of a character, if it is in the alphabet. -/
def value (b : UInt8) : Option Nat :=
  if 65 ≤ b.toNat ∧ b.toNat ≤ 90 then some (b.toNat - 65)
  else if 97 ≤ b.toNat ∧ b.toNat ≤ 122 then some (b.toNat - 71)
  else if 48 ≤ b.toNat ∧ b.toNat ≤ 57 then some (b.toNat + 4)
  else if b.toNat = 45 then some 62
  else if b.toNat = 95 then some 63
  else none

def encode : List UInt8 → List UInt8
  | [] => []
  | [a] => [digit (a.toNat / 4), digit (a.toNat % 4 * 16)]
  | [a, b] => [digit (a.toNat / 4), digit (a.toNat % 4 * 16 + b.toNat / 16),
      digit (b.toNat % 16 * 4)]
  | a :: b :: c :: bytes =>
      digit (a.toNat / 4) :: digit (a.toNat % 4 * 16 + b.toNat / 16) ::
        digit (b.toNat % 16 * 4 + c.toNat / 64) :: digit (c.toNat % 64) :: encode bytes

/-- None of a text that has other characters, or ends with a single one. -/
def decode : List UInt8 → Option (List UInt8)
  | [] => some []
  | [_] => none
  | [w, x] => do
      let w ← value w
      let x ← value x
      return [UInt8.ofNat (w * 4 + x / 16)]
  | [w, x, y] => do
      let w ← value w
      let x ← value x
      let y ← value y
      return [UInt8.ofNat (w * 4 + x / 16), UInt8.ofNat (x % 16 * 16 + y / 4)]
  | w :: x :: y :: z :: bytes => do
      let w ← value w
      let x ← value x
      let y ← value y
      let z ← value z
      let rest ← decode bytes
      return UInt8.ofNat (w * 4 + x / 16) :: UInt8.ofNat (x % 16 * 16 + y / 4) ::
        UInt8.ofNat (y % 4 * 64 + z) :: rest

theorem value_digit : ∀ n < 64, value (digit n) = some n := by decide

theorem inAlphabet_digit : ∀ n < 64, inAlphabet (digit n) := by decide

theorem ofNat_eq {n : Nat} {b : UInt8} (h : n = b.toNat) : UInt8.ofNat n = b := by
  rw [h, UInt8.ofNat_toNat]

theorem decode_encode (bytes : List UInt8) : decode (encode bytes) = some bytes := by
  fun_induction encode bytes with
  | case1 => rfl
  | case2 a =>
      have ha := a.toNat_lt
      rw [decode, value_digit _ (by omega), value_digit _ (by omega)]
      show some [UInt8.ofNat (a.toNat / 4 * 4 + a.toNat % 4 * 16 / 16)] = some [a]
      rw [ofNat_eq (b := a) (by omega)]
  | case3 a b =>
      have ha := a.toNat_lt
      have hb := b.toNat_lt
      rw [decode, value_digit _ (by omega), value_digit _ (by omega), value_digit _ (by omega)]
      show some [UInt8.ofNat (a.toNat / 4 * 4 + (a.toNat % 4 * 16 + b.toNat / 16) / 16),
        UInt8.ofNat ((a.toNat % 4 * 16 + b.toNat / 16) % 16 * 16 + b.toNat % 16 * 4 / 4)] =
          some [a, b]
      rw [ofNat_eq (b := a) (by omega), ofNat_eq (b := b) (by omega)]
  | case4 a b c bytes ih =>
      have ha := a.toNat_lt
      have hb := b.toNat_lt
      have hc := c.toNat_lt
      rw [decode, value_digit _ (by omega), value_digit _ (by omega), value_digit _ (by omega),
        value_digit _ (by omega), ih]
      show some (UInt8.ofNat (a.toNat / 4 * 4 + (a.toNat % 4 * 16 + b.toNat / 16) / 16) ::
        UInt8.ofNat ((a.toNat % 4 * 16 + b.toNat / 16) % 16 * 16 +
          (b.toNat % 16 * 4 + c.toNat / 64) / 4) ::
        UInt8.ofNat ((b.toNat % 16 * 4 + c.toNat / 64) % 4 * 64 + c.toNat % 64) :: bytes) =
          some (a :: b :: c :: bytes)
      rw [ofNat_eq (b := a) (by omega), ofNat_eq (b := b) (by omega), ofNat_eq (b := c) (by omega)]

theorem inAlphabet_of_mem {bytes : List UInt8} {x : UInt8} (h : x ∈ encode bytes) :
    inAlphabet x := by
  fun_induction encode bytes with
  | case1 => cases h
  | case2 a =>
      have ha := a.toNat_lt
      simp only [List.mem_cons, List.not_mem_nil, or_false] at h
      rcases h with rfl | rfl <;> exact inAlphabet_digit _ (by omega)
  | case3 a b =>
      have ha := a.toNat_lt
      have hb := b.toNat_lt
      simp only [List.mem_cons, List.not_mem_nil, or_false] at h
      rcases h with rfl | rfl | rfl <;> exact inAlphabet_digit _ (by omega)
  | case4 a b c bytes ih =>
      have ha := a.toNat_lt
      have hb := b.toNat_lt
      have hc := c.toNat_lt
      simp only [List.mem_cons] at h
      rcases h with rfl | rfl | rfl | rfl | h
      · exact inAlphabet_digit _ (by omega)
      · exact inAlphabet_digit _ (by omega)
      · exact inAlphabet_digit _ (by omega)
      · exact inAlphabet_digit _ (by omega)
      · exact ih h

end Xenon.Foundation.Base64

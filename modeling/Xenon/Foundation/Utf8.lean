import Mathlib.Data.List.Basic
import Mathlib.Tactic.SplitIfs

/-!
# UTF-8

The bytes of a text, which is the list of its characters, and the text of bytes.
-/

namespace Xenon.Foundation.Utf8

/-- The bytes of a text. -/
def getBytes (s : List Char) : List UInt8 := s.flatMap String.utf8EncodeChar

/-- The text of bytes that are well formed, else no text at all. -/
def decode (bytes : List UInt8) : List Char :=
  ((bytes.toByteArray.utf8Decode?).map Array.toList).getD []

theorem decode_getBytes (s : List Char) : decode (getBytes s) = s := by
  show (s.utf8Encode.utf8Decode?.map Array.toList).getD [] = s
  rw [List.utf8Decode?_utf8Encode]
  rfl

theorem getBytes_append (s t : List Char) : getBytes (s ++ t) = getBytes s ++ getBytes t :=
  List.flatMap_append

/-- A byte below 128 is a character of its own. -/
theorem eq_of_mem_utf8EncodeChar {c : Char} {b : UInt8} (h : b ∈ String.utf8EncodeChar c)
    (hb : b.toNat < 128) : c.toNat = b.toNat := by
  have hlt : ∀ n < 256, (UInt8.ofNat n).toNat = n := fun n hn => UInt8.toNat_ofNat_of_lt' hn
  unfold String.utf8EncodeChar at h
  dsimp only at h
  split_ifs at h with hone htwo hthree
  · rw [List.mem_singleton.mp h, hlt _ (by omega)]
    rfl
  · simp only [List.mem_cons, List.not_mem_nil, or_false] at h
    rcases h with rfl | rfl <;> rw [hlt _ (by omega)] at hb <;> omega
  · simp only [List.mem_cons, List.not_mem_nil, or_false] at h
    rcases h with rfl | rfl | rfl <;> rw [hlt _ (by omega)] at hb <;> omega
  · simp only [List.mem_cons, List.not_mem_nil, or_false] at h
    rcases h with rfl | rfl | rfl | rfl <;> rw [hlt _ (by omega)] at hb <;> omega

theorem not_mem_getBytes {s : List Char} {c : Char} {b : UInt8} (hb : b.toNat < 128)
    (hc : c.toNat = b.toNat) (h : c ∉ s) : b ∉ getBytes s := by
  intro hmem
  obtain ⟨c', hc', hmem⟩ := List.mem_flatMap.mp hmem
  have heq : c' = c := Char.toNat_inj.mp ((eq_of_mem_utf8EncodeChar hmem hb).trans hc.symm)
  exact h (heq ▸ hc')

theorem getBytes_ne_nil {s : List Char} (h : s ≠ []) : getBytes s ≠ [] := by
  obtain ⟨c, s, rfl⟩ := List.exists_cons_of_ne_nil h
  intro hnil
  have hlength := congrArg List.length (List.append_eq_nil_iff.mp hnil).1
  rw [String.length_utf8EncodeChar] at hlength
  exact absurd hlength (Nat.ne_of_gt c.utf8Size_pos)

/-- Bytes below 128 are characters. -/
theorem getBytes_map_ofNat {bytes : List UInt8} (h : ∀ b ∈ bytes, b.toNat < 128) :
    getBytes (bytes.map fun b => Char.ofNat b.toNat) = bytes := by
  induction bytes with
  | nil => rfl
  | cons b bytes ih =>
      have hb := h b List.mem_cons_self
      have hval : (Char.ofNat b.toNat).val.toNat = b.toNat := by
        have hvalid : b.toNat.isValidChar := Or.inl (by omega)
        show (Char.ofNat b.toNat).toNat = b.toNat
        rw [Char.ofNat, dif_pos hvalid]
        rfl
      have hchar : String.utf8EncodeChar (Char.ofNat b.toNat) = [b] := by
        unfold String.utf8EncodeChar
        dsimp only
        rw [hval, if_pos (by omega), UInt8.ofNat_toNat]
      show String.utf8EncodeChar (Char.ofNat b.toNat) ++
        getBytes (bytes.map fun b => Char.ofNat b.toNat) = b :: bytes
      rw [hchar, ih fun b hb => h b (List.mem_cons_of_mem _ hb)]
      rfl

end Xenon.Foundation.Utf8

import Mathlib.Data.List.Basic
import Mathlib.Order.Nat

/-!
# Single differences

Two sequences that differ in one place, read by a machine whose state is a fold over them. Where no
input makes the machine forget its state, what follows the place does not matter: the states in the
end differ if the two inputs there told the machine apart.
-/

namespace Xenon.Foundation

variable {α σ : Type*} {i n : Nat} {xs ys : List α}

/-- The sequences have one length, and differ at this position and nowhere else. -/
structure DifferOnlyAt (i : Nat) (xs ys : List α) : Prop where
  length : xs.length = ys.length
  iff : ∀ j, xs[j]? = ys[j]? ↔ j ≠ i

theorem differOnlyAt_split {l r : List α} {a b : α} (hne : a ≠ b) :
    DifferOnlyAt l.length (l ++ a :: r) (l ++ b :: r) := by
  refine ⟨by simp, fun j => ?_⟩
  rcases lt_trichotomy j l.length with hlt | rfl | hgt
  · rw [List.getElem?_append_left hlt, List.getElem?_append_left hlt]
    exact iff_of_true rfl hlt.ne
  · rw [List.getElem?_append_right le_rfl, List.getElem?_append_right le_rfl, Nat.sub_self]
    exact iff_of_false (fun h => hne (Option.some.inj h)) fun h => h rfl
  · obtain ⟨k, hk⟩ := Nat.exists_eq_succ_of_ne_zero (Nat.sub_ne_zero_of_lt hgt)
    rw [List.getElem?_append_right hgt.le, List.getElem?_append_right hgt.le, hk]
    exact iff_of_true rfl hgt.ne'

namespace DifferOnlyAt

theorem symm (h : DifferOnlyAt i xs ys) : DifferOnlyAt i ys xs :=
  ⟨h.length.symm, fun j => eq_comm.trans (h.iff j)⟩

theorem lt_length (h : DifferOnlyAt i xs ys) : i < xs.length := by
  by_contra hle
  have hxs : xs[i]? = none := List.getElem?_eq_none (not_lt.mp hle)
  have hys : ys[i]? = none := List.getElem?_eq_none (h.length ▸ not_lt.mp hle)
  exact (h.iff i).mp (hxs.trans hys.symm) rfl

/-- What stands before the position, and what stands after it, is the same. -/
theorem exists_split (h : DifferOnlyAt i xs ys) : ∃ l a b r, l.length = i ∧ a ≠ b ∧
    xs = l ++ a :: r ∧ ys = l ++ b :: r := by
  have hx := h.lt_length
  have hy : i < ys.length := h.length ▸ hx
  have hpre : ys.take i = xs.take i := by
    refine List.ext_getElem? fun j => ?_
    rw [List.getElem?_take, List.getElem?_take]
    split_ifs with hj
    · exact ((h.iff j).mpr hj.ne).symm
    · rfl
  have hpost : ys.drop (i + 1) = xs.drop (i + 1) := by
    refine List.ext_getElem? fun j => ?_
    rw [List.getElem?_drop, List.getElem?_drop]
    exact ((h.iff (i + 1 + j)).mpr (by omega)).symm
  refine ⟨xs.take i, xs[i], ys[i], xs.drop (i + 1), List.length_take_of_le hx.le, fun heq => ?_,
    ?_, ?_⟩
  · have hsame : xs[i]? = ys[i]? := by
      rw [List.getElem?_eq_getElem hx, List.getElem?_eq_getElem hy, heq]
    exact (h.iff i).mp hsame rfl
  · rw [← List.drop_eq_getElem_cons hx, List.take_append_drop]
  · rw [← hpre, ← hpost, ← List.drop_eq_getElem_cons hy, List.take_append_drop]

/-- The beginnings differ too, when they go beyond the position. -/
theorem take (h : DifferOnlyAt i xs ys) (hn : i < n) : DifferOnlyAt i (xs.take n) (ys.take n) := by
  refine ⟨by rw [List.length_take, List.length_take, h.length], fun j => ?_⟩
  rw [List.getElem?_take, List.getElem?_take]
  split_ifs with hj
  · exact h.iff j
  · exact iff_of_true rfl fun heq => hj (heq ▸ hn)

theorem take_eq (h : DifferOnlyAt i xs ys) (hn : n ≤ i) : xs.take n = ys.take n := by
  refine List.ext_getElem? fun j => ?_
  rw [List.getElem?_take, List.getElem?_take]
  split_ifs with hj
  · exact (h.iff j).mpr (hj.trans_le hn).ne
  · rfl

end DifferOnlyAt

/-! ## Folds -/

section Folds

variable {step : σ → α → σ}

theorem foldl_injective (hstate : ∀ a, Function.Injective fun s => step s a) (xs : List α) :
    Function.Injective fun s => xs.foldl step s := by
  induction xs with
  | nil => exact Function.injective_id
  | cons a xs ih => exact ih.comp (hstate a)

/-- The states in the end are the same if the two inputs are the same to the machine. -/
theorem DifferOnlyAt.foldl_eq_iff (h : DifferOnlyAt i xs ys)
    (hstate : ∀ a, Function.Injective fun s => step s a) {same : α → α → Prop}
    (hinput : ∀ s a b, step s a = step s b ↔ same a b) {a b : α} (ha : a ∈ xs[i]?)
    (hb : b ∈ ys[i]?) (s : σ) : xs.foldl step s = ys.foldl step s ↔ same a b := by
  obtain ⟨l, a', b', r, rfl, -, rfl, rfl⟩ := h.exists_split
  obtain rfl : a' = a := by simpa using ha
  obtain rfl : b' = b := by simpa using hb
  rw [List.foldl_append, List.foldl_append, List.foldl_cons, List.foldl_cons,
    (foldl_injective hstate r).eq_iff, hinput]

theorem DifferOnlyAt.foldl_ne (h : DifferOnlyAt i xs ys)
    (hstate : ∀ a, Function.Injective fun s => step s a)
    (hinput : ∀ s, Function.Injective (step s)) (s : σ) : xs.foldl step s ≠ ys.foldl step s := by
  obtain ⟨l, a, b, r, rfl, hne, rfl, rfl⟩ := h.exists_split
  rw [List.foldl_append, List.foldl_append, List.foldl_cons, List.foldl_cons]
  exact (foldl_injective hstate r).ne ((hinput _).ne hne)

end Folds

end Xenon.Foundation

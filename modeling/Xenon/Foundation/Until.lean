import Mathlib.Data.List.Basic

/-!
# Going through a list until enough is found

`countUntil p n l` is how many elements of `l` are visited by a loop that stops as soon as
it has seen `n` elements with `p`. What was visited and what is left share out the
elements with `p`, so loops that continue where another one stopped can be reasoned about
by the list of these elements alone.
-/

namespace Xenon.Foundation

variable {α : Type*} (p : α → Bool)

def countUntil : Nat → List α → Nat
  | 0, _ => 0
  | _ + 1, [] => 0
  | n + 1, a :: l => countUntil (if p a then n else n + 1) l + 1

theorem countUntil_le (n : Nat) (l : List α) : countUntil p n l ≤ l.length := by
  induction l generalizing n with
  | nil => cases n <;> exact Nat.le_refl 0
  | cons a l ih =>
      cases n with
      | zero => exact Nat.zero_le _
      | succ n => exact Nat.succ_le_succ (ih _)

theorem countUntil_pos {n : Nat} {l : List α} (hn : 0 < n) (hl : l ≠ []) :
    0 < countUntil p n l := by
  cases n with
  | zero => exact absurd hn (Nat.lt_irrefl 0)
  | succ n =>
      cases l with
      | nil => exact absurd rfl hl
      | cons a l => exact Nat.succ_pos _

/-- What was visited. -/
theorem filter_take_countUntil (n : Nat) (l : List α) :
    (l.take (countUntil p n l)).filter p = (l.filter p).take n := by
  induction l generalizing n with
  | nil => cases n <;> rfl
  | cons a l ih =>
      cases n with
      | zero => simp [countUntil]
      | succ n =>
          rw [countUntil, List.take_succ_cons, List.filter_cons, List.filter_cons, ih]
          cases p a with
          | true => simp
          | false => simp

/-- If there is not enough then everything is visited. -/
theorem countUntil_eq_length {n : Nat} {l : List α} (h : (l.filter p).length < n) :
    countUntil p n l = l.length := by
  induction l generalizing n with
  | nil => cases n <;> rfl
  | cons a l ih =>
      cases n with
      | zero => exact absurd h (Nat.not_lt_zero _)
      | succ n =>
          rw [countUntil, List.length_cons]
          congr 1
          apply ih
          rw [List.filter_cons] at h
          cases ha : p a with
          | true => simpa [ha] using h
          | false => simpa [ha] using h

/-- If there is enough then the last element that was visited has `p`. -/
theorem exists_last_of_countUntil {n : Nat} {l : List α} (hn : 0 < n)
    (h : n ≤ (l.filter p).length) :
    ∃ l' a, l = l' ++ a :: l.drop (countUntil p n l) ∧ p a = true := by
  induction l generalizing n with
  | nil => exact absurd (Nat.lt_of_lt_of_le hn h) (Nat.lt_irrefl 0)
  | cons a l ih =>
      cases n with
      | zero => exact absurd hn (Nat.lt_irrefl 0)
      | succ n =>
          rw [countUntil, List.drop_succ_cons]
          rw [List.filter_cons] at h
          cases ha : p a with
          | false =>
              obtain ⟨l', b, hl, hb⟩ := ih (Nat.succ_pos n) (by simpa [ha] using h)
              refine ⟨a :: l', b, ?_, hb⟩
              rw [List.cons_append, if_neg Bool.false_ne_true]
              exact congrArg _ hl
          | true =>
              rw [if_pos rfl]
              cases n with
              | zero => exact ⟨[], a, by simp [countUntil], ha⟩
              | succ n =>
                  obtain ⟨l', b, hl, hb⟩ := ih (Nat.succ_pos n) (by simpa [ha] using h)
                  exact ⟨a :: l', b, congrArg _ hl, hb⟩

end Xenon.Foundation

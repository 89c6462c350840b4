import Mathlib.Data.List.Induction

/-!
# The calls of a history

A property of every call of a history, given the calls before it. Two such properties hold of the
same histories if they agree where an invariant holds that either of them keeps (`Each.iff`).
-/

namespace Xenon.Foundation

variable {ι : Type*}

/-- Every call of a history has the property, after the calls before it. -/
def Each (P : List ι → ι → Prop) (calls : List ι) : Prop :=
  ∀ before c after, calls = before ++ c :: after → P before c

/-- Of two places of one call in a history, they are the same or one is before the other. -/
theorem split_trichotomy {before after before' after' : List ι} {c : ι}
    (h : before ++ c :: after = before' ++ c :: after') :
    before = before' ∨ (∃ mid, before' = before ++ c :: mid ∧ after = mid ++ c :: after') ∨
      ∃ mid, before = before' ++ c :: mid ∧ after' = mid ++ c :: after := by
  rcases List.append_eq_append_iff.mp h with ⟨mid, hbefore, hafter⟩ | ⟨mid, hbefore, hafter⟩
  · cases mid with
    | nil => exact Or.inl (by rw [hbefore, List.append_nil])
    | cons c' mid =>
        obtain ⟨rfl, hrest⟩ := List.cons.inj hafter
        exact Or.inr (Or.inl ⟨mid, hbefore, hrest⟩)
  · cases mid with
    | nil => exact Or.inl (by rw [hbefore, List.append_nil])
    | cons c' mid =>
        obtain ⟨rfl, hrest⟩ := List.cons.inj hafter
        exact Or.inr (Or.inr ⟨mid, hbefore, hrest⟩)

namespace Each

variable {P Q : List ι → ι → Prop} {calls : List ι} {c : ι}

theorem nil (P : List ι → ι → Prop) : Each P [] := by
  intro before c after h
  cases before <;> cases h

theorem snoc_iff : Each P (calls ++ [c]) ↔ Each P calls ∧ P calls c := by
  constructor
  · intro h
    refine ⟨fun before c' after hcalls => ?_, h calls c [] rfl⟩
    exact h before c' (after ++ [c]) (by rw [hcalls, List.append_assoc, List.cons_append])
  · rintro ⟨hcalls, hlast⟩ before c' after h
    cases after using List.reverseRecOn with
    | nil =>
        obtain ⟨rfl, hc⟩ := List.append_inj' h rfl
        cases hc
        exact hlast
    | append_singleton after c'' =>
        rw [← List.cons_append, ← List.append_assoc] at h
        obtain ⟨hsplit, -⟩ := List.append_inj' h rfl
        exact hcalls before c' after hsplit

theorem mono (h : Each P calls) (hPQ : ∀ before c, P before c → Q before c) : Each Q calls :=
  fun before c after hcalls => hPQ before c (h before c after hcalls)

/-- What holds at the start and is kept by every call holds after the history. -/
theorem invariant (Inv : List ι → Prop) (h : Each P calls) (init : Inv [])
    (pres : ∀ before c, Inv before → P before c → Inv (before ++ [c])) : Inv calls := by
  induction calls using List.reverseRecOn with
  | nil => exact init
  | append_singleton calls c ih =>
      obtain ⟨hcalls, hlast⟩ := snoc_iff.mp h
      exact pres calls c (ih hcalls) hlast

/-- Properties that agree where an invariant holds, which they keep, hold of the same
histories. -/
theorem iff (Inv : List ι → Prop) (init : Inv [])
    (agree : ∀ before c, Inv before → (P before c ↔ Q before c))
    (pres : ∀ before c, Inv before → P before c → Inv (before ++ [c])) :
    Each P calls ↔ Each Q calls := by
  induction calls using List.reverseRecOn with
  | nil => exact iff_of_true (nil P) (nil Q)
  | append_singleton calls c ih =>
      rw [snoc_iff, snoc_iff, ← ih]
      refine and_congr_right fun hcalls => agree calls c ?_
      exact hcalls.invariant Inv init pres

end Each

end Xenon.Foundation

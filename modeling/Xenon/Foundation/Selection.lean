import Mathlib.Data.List.MinMax
import Mathlib.Data.Prod.Lex
import Mathlib.Data.List.Perm.Basic

/-!
# Selecting a lexicographic maximum

A selection in two stages: keep the elements whose first key is greatest, then
take among these the first one whose second key is greatest. The result is a
maximum for the lexicographic order of the two keys, and any maximum that comes
first is the result.
-/

namespace Xenon.Foundation

variable {α κ κ' : Type*} [LinearOrder κ] [LinearOrder κ']

/-- The greatest first key of a list. -/
def topKey (f : α → κ) (l : List α) : Option κ := (l.argmax f).map f

/-- The first element with the greatest second key among those with the
greatest first key. -/
def selectMax (f : α → κ) (g : α → κ') (l : List α) : Option α :=
  (l.filter fun a => some (f a) = topKey f l).argmax g

/-- The pair of keys, in lexicographic order. -/
def keys (f : α → κ) (g : α → κ') (a : α) : κ ×ₗ κ' := toLex (f a, g a)

theorem keys_le_iff {f : α → κ} {g : α → κ'} {a b : α} :
    keys f g a ≤ keys f g b ↔ f a < f b ∨ f a = f b ∧ g a ≤ g b :=
  Prod.Lex.le_iff

/-- `a` is a greatest element of the list. -/
def IsTop (f : α → κ) (g : α → κ') (l : List α) (a : α) : Prop :=
  a ∈ l ∧ ∀ b ∈ l, keys f g b ≤ keys f g a

section

variable {f : α → κ} {g : α → κ'} {l l' : List α} {a : α}

theorem IsTop.perm (h : IsTop f g l a) (hp : l.Perm l') : IsTop f g l' a :=
  ⟨hp.mem_iff.mp h.1, fun b hb => h.2 b (hp.mem_iff.mpr hb)⟩

theorem IsTop.keys_eq {b : α} (ha : IsTop f g l a) (hb : IsTop f g l b) :
    keys f g a = keys f g b :=
  le_antisymm (hb.2 a ha.1) (ha.2 b hb.1)

/-- Every first key is at most the greatest one. -/
theorem le_topKey {k : κ} (hk : topKey f l = some k) {b : α} (hb : b ∈ l) :
    f b ≤ k := by
  obtain ⟨m, hm, rfl⟩ := Option.map_eq_some_iff.mp hk
  exact List.le_of_mem_argmax hb hm

/-- **The selection is a maximum.** -/
theorem isTop_of_selectMax (h : selectMax f g l = some a) : IsTop f g l a := by
  have hmem := List.mem_filter.mp (List.argmax_mem h)
  have htop : topKey f l = some (f a) := (of_decide_eq_true hmem.2).symm
  refine ⟨hmem.1, fun b hb => keys_le_iff.mpr ?_⟩
  rcases lt_or_eq_of_le (le_topKey htop hb) with hlt | heq
  · exact Or.inl hlt
  · refine Or.inr ⟨heq, List.le_of_mem_argmax (List.mem_filter.mpr ⟨hb, ?_⟩) h⟩
    rw [heq, htop]
    exact decide_eq_true rfl

theorem selectMax_eq_none : selectMax f g l = none ↔ l = [] := by
  constructor
  · intro h
    rcases hm : l.argmax f with _ | m
    · exact List.argmax_eq_none.mp hm
    · have hmem : m ∈ l.filter fun a => some (f a) = topKey f l :=
        List.mem_filter.mpr ⟨List.argmax_mem hm, by simp [topKey, hm]⟩
      rw [List.argmax_eq_none.mp h] at hmem
      simp at hmem
  · rintro rfl
    rfl

/-- A maximum that comes first is selected. -/
theorem selectMax_cons_of_isTop (h : IsTop f g (a :: l) a) :
    selectMax f g (a :: l) = some a := by
  have htop : topKey f (a :: l) = some (f a) := by
    cases hm : (a :: l).argmax f with
    | none => simp at hm
    | some m =>
        have h1 : f a ≤ f m := List.le_of_mem_argmax (by simp) hm
        have h2 : f m ≤ f a := by
          rcases keys_le_iff.mp (h.2 m (List.argmax_mem hm)) with hlt | heq
          · exact hlt.le
          · exact heq.1.le
        simp [topKey, hm, le_antisymm h2 h1]
  unfold selectMax
  rw [List.filter_cons_of_pos (by simp [htop]), List.argmax_cons]
  cases hm : (l.filter fun b => some (f b) = topKey f (a :: l)).argmax g with
  | none => rfl
  | some m =>
      obtain ⟨hml, hmf⟩ := List.mem_filter.mp (List.argmax_mem hm)
      have hfm : f m = f a := by simpa [htop] using hmf
      have hle : g m ≤ g a := by
        rcases keys_le_iff.mp (h.2 m (List.mem_cons_of_mem _ hml)) with hlt | heq
        · exact absurd hfm hlt.ne
        · exact heq.2
      simp [not_lt.mpr hle]

end

end Xenon.Foundation

import Mathlib.Data.List.Basic
import Mathlib.Data.List.DropRight
import Mathlib.Data.List.Induction

/-!
# Places and pieces of a text

Where a pattern stands in a text, from some place on, and the pieces between separators. A text is
a list, and its places are the numbers up to its length.
-/

namespace Xenon.Foundation.Text

variable {α : Type*} [DecidableEq α] {s pattern : List α} {start i : Nat}

/-- The first place from `start` on at which the pattern stands. -/
def indexOf (s pattern : List α) (start : Nat) : Option Nat :=
  (List.range' start (s.length + 1 - start)).find? fun i => pattern.isPrefixOf (s.drop i)

theorem indexOf_eq_some : indexOf s pattern start = some i ↔
    start ≤ i ∧ i ≤ s.length ∧ pattern <+: s.drop i ∧
      ∀ j, start ≤ j → j < i → ¬ pattern <+: s.drop j := by
  unfold indexOf
  rw [List.find?_range'_eq_some, List.mem_range'_1]
  simp only [List.isPrefixOf_iff_prefix, Bool.not_eq_true', ← Bool.not_eq_true]
  constructor
  · rintro ⟨hstart, ⟨hle, hlt⟩, hfirst⟩
    exact ⟨hle, by omega, hstart, hfirst⟩
  · rintro ⟨hle, hlength, hstart, hfirst⟩
    exact ⟨hstart, ⟨hle, by omega⟩, hfirst⟩

theorem indexOf_eq_none : indexOf s pattern start = none ↔
    ∀ i, start ≤ i → i ≤ s.length → ¬ pattern <+: s.drop i := by
  unfold indexOf
  rw [List.find?_range'_eq_none]
  simp only [List.isPrefixOf_iff_prefix, Bool.not_eq_true', ← Bool.not_eq_true]
  constructor
  · intro h i hle hlength
    exact h i hle (by omega)
  · intro h i hle hlt
    exact h i hle (by omega)

/-- Places at which the pattern does not stand can be skipped. -/
theorem indexOf_eq_indexOf {next : Nat} (hle : start ≤ next)
    (hskip : ∀ j, start ≤ j → j < next → ¬ pattern <+: s.drop j) :
    indexOf s pattern start = indexOf s pattern next := by
  cases hfound : indexOf s pattern next with
  | none =>
      apply indexOf_eq_none.mpr
      intro i hi hlength hstart
      by_cases hnext : i < next
      · exact hskip i hi hnext hstart
      · exact indexOf_eq_none.mp hfound i (by omega) hlength hstart
  | some i =>
      obtain ⟨hnext, hlength, hstart, hfirst⟩ := indexOf_eq_some.mp hfound
      apply indexOf_eq_some.mpr
      refine ⟨Nat.le_trans hle hnext, hlength, hstart, ?_⟩
      intro j hj hlt
      by_cases hjn : j < next
      · exact hskip j hj hjn
      · exact hfirst j (by omega) hlt

omit [DecidableEq α] in
/-- A pattern that is not empty stands at no place after the text. -/
theorem not_prefix_drop (hne : pattern ≠ []) (h : s.length ≤ i) : ¬ pattern <+: s.drop i := by
  rw [List.drop_eq_nil_of_le h, List.prefix_nil]
  exact hne

/-! ## Pieces -/

section Pieces

variable {α : Type*} {sep : α} {s p first : List α}

theorem intercalate_cons (sep : α) (first : List α) (pieces : List (List α)) :
    [sep].intercalate (first :: pieces) = first ++ (pieces.map (sep :: ·)).flatten := by
  induction pieces generalizing first with
  | nil => simp
  | cons p pieces ih =>
      rw [List.intercalate_cons_cons, ih, List.map_cons, List.flatten_cons]
      simp

theorem mem_intercalate {pieces : List (List α)} {x : α}
    (h : x ∈ [sep].intercalate pieces) : x = sep ∨ ∃ p ∈ pieces, x ∈ p := by
  cases pieces with
  | nil => cases h
  | cons p pieces =>
      rw [intercalate_cons, List.mem_append] at h
      rcases h with h | h
      · exact Or.inr ⟨p, List.mem_cons_self, h⟩
      · obtain ⟨_, hpiece, hx⟩ := List.mem_flatten.mp h
        obtain ⟨q, hq, rfl⟩ := List.mem_map.mp hpiece
        exact (List.mem_cons.mp hx).imp_right fun hx => ⟨q, List.mem_cons_of_mem _ hq, hx⟩

/-- A separator after each piece is one between them and one at the end. -/
theorem flatten_map_concat (sep : α) {pieces : List (List α)} (hne : pieces ≠ []) :
    (pieces.map (· ++ [sep])).flatten = [sep].intercalate pieces ++ [sep] := by
  induction pieces with
  | nil => exact absurd rfl hne
  | cons p pieces ih =>
      cases pieces with
      | nil => simp
      | cons q pieces =>
          rw [List.map_cons, List.flatten_cons, ih (List.cons_ne_nil _ _),
            List.intercalate_cons_cons]
          simp

/-- A piece that is not empty stays before those that are dropped. -/
theorem rdropWhile_cons (hfirst : first ≠ []) (pieces : List (List α)) :
    (first :: pieces).rdropWhile (·.isEmpty) = first :: pieces.rdropWhile (·.isEmpty) := by
  induction pieces using List.reverseRecOn with
  | nil =>
      have hempty : first.isEmpty = false := by simpa using hfirst
      rw [← List.nil_append [first], List.rdropWhile_concat_neg _ _ _ (by simp [hempty])]
      rfl
  | append_singleton pieces p ih =>
      rw [← List.cons_append]
      by_cases hp : p.isEmpty = true
      · rw [List.rdropWhile_concat_pos _ _ _ hp, List.rdropWhile_concat_pos _ _ _ hp, ih]
      · rw [List.rdropWhile_concat_neg _ _ _ hp, List.rdropWhile_concat_neg _ _ _ hp]
        rfl

theorem rdropWhile_isEmpty_eq_self {pieces : List (List α)} (h : ∀ p ∈ pieces, p ≠ []) :
    pieces.rdropWhile (·.isEmpty) = pieces := by
  rw [List.rdropWhile_eq_self_iff]
  intro hne
  simpa using h _ (List.getLast_mem hne)

/-- Pieces that stand for nothing do not matter at the end either. -/
theorem filterMap_rdropWhile {β : Type*} {f : List α → Option β} (hf : f [] = none)
    (pieces : List (List α)) :
    (pieces.rdropWhile (·.isEmpty)).filterMap f = pieces.filterMap f := by
  induction pieces using List.reverseRecOn with
  | nil => rfl
  | append_singleton pieces p ih =>
      by_cases hp : p.isEmpty = true
      · rw [List.rdropWhile_concat_pos _ _ _ hp, ih, List.filterMap_append, List.isEmpty_iff.mp hp,
          List.filterMap_cons_none hf, List.filterMap_nil, List.append_nil]
      · rw [List.rdropWhile_concat_neg _ _ _ hp]

/-- No piece contains the separator, and a piece has no characters of its own. -/
theorem of_mem_splitOn [DecidableEq α] (h : p ∈ s.splitOn sep) : sep ∉ p ∧ ∀ c ∈ p, c ∈ s := by
  induction s generalizing p with
  | nil =>
      rw [List.splitOn_nil, List.mem_singleton] at h
      subst h
      exact ⟨List.not_mem_nil, nofun⟩
  | cons x s ih =>
      rw [List.splitOn_cons_eq_if_modifyHead] at h
      split_ifs at h with hx
      · rcases List.mem_cons.mp h with rfl | h
        · exact ⟨List.not_mem_nil, nofun⟩
        · exact ⟨(ih h).1, fun c hc => List.mem_cons_of_mem _ ((ih h).2 c hc)⟩
      · obtain ⟨q, pieces, hq⟩ := List.exists_cons_of_ne_nil (List.splitOn_ne_nil sep s)
        rw [hq, List.modifyHead_cons] at h
        rcases List.mem_cons.mp h with rfl | h
        · obtain ⟨hnot, hsub⟩ := ih (p := q) (by rw [hq]; exact List.mem_cons_self)
          refine ⟨fun hmem => ?_, fun c hc => ?_⟩
          · rcases List.mem_cons.mp hmem with rfl | hmem
            · exact hx (beq_self_eq_true _)
            · exact hnot hmem
          · rcases List.mem_cons.mp hc with rfl | hc
            · exact List.mem_cons_self
            · exact List.mem_cons_of_mem _ (hsub c hc)
        · obtain ⟨hnot, hsub⟩ := ih (p := p) (by rw [hq]; exact List.mem_cons_of_mem _ h)
          exact ⟨hnot, fun c hc => List.mem_cons_of_mem _ (hsub c hc)⟩

/-- A piece stands in the text. -/
theorem infix_of_mem_splitOn [DecidableEq α] (h : p ∈ s.splitOn sep) : p <:+: s := by
  have hjoin : [sep].intercalate (s.splitOn sep) = s := List.intercalate_splitOn sep
  obtain ⟨first, pieces, hpieces⟩ := List.exists_cons_of_ne_nil (List.splitOn_ne_nil sep s)
  rw [hpieces, intercalate_cons] at hjoin
  rw [hpieces] at h
  rw [← hjoin]
  rcases List.mem_cons.mp h with rfl | h
  · exact (List.prefix_append _ _).isInfix
  · have hpiece : p <:+: sep :: p := (List.suffix_cons sep p).isInfix
    have hmem : sep :: p <:+: (pieces.map (sep :: ·)).flatten :=
      List.infix_of_mem_flatten (List.mem_map_of_mem h)
    exact (hpiece.trans hmem).trans (List.suffix_append _ _).isInfix

end Pieces

/-! ## Erasing a pattern -/

/-- A pattern that is not empty is taken out from left to right, with the number of places to
skip. -/
def eraseAll (pattern : List α) : Nat → List α → List α
  | _, [] => []
  | skip + 1, _ :: s => eraseAll pattern skip s
  | 0, c :: s =>
      if pattern.isPrefixOf (c :: s) then eraseAll pattern (pattern.length - 1) s
      else c :: eraseAll pattern 0 s

section EraseAll

variable {t : List α} {c : α} {skip : Nat}

theorem eraseAll_cons_of_start (h : pattern <+: c :: s) :
    eraseAll pattern 0 (c :: s) = eraseAll pattern (pattern.length - 1) s :=
  if_pos (List.isPrefixOf_iff_prefix.mpr h)

theorem eraseAll_cons_of_not (h : ¬ pattern <+: c :: s) :
    eraseAll pattern 0 (c :: s) = c :: eraseAll pattern 0 s :=
  if_neg fun hprefix => h (List.isPrefixOf_iff_prefix.mp hprefix)

theorem length_eraseAll_le (pattern s : List α) (skip : Nat) :
    (eraseAll pattern skip s).length ≤ s.length - skip := by
  induction s generalizing skip with
  | nil => cases skip <;> exact Nat.zero_le _
  | cons c s ih =>
      rw [List.length_cons]
      cases skip with
      | succ skip =>
          have := ih skip
          show (eraseAll pattern skip s).length ≤ _
          omega
      | zero =>
          by_cases hprefix : pattern <+: c :: s
          · have := ih (pattern.length - 1)
            rw [eraseAll_cons_of_start hprefix]
            omega
          · have := ih 0
            rw [eraseAll_cons_of_not hprefix, List.length_cons]
            omega

theorem eraseAll_eq_self (h : ¬ pattern <:+: s) : eraseAll pattern 0 s = s := by
  induction s with
  | nil => rfl
  | cons c s ih =>
      rw [List.infix_cons_iff, not_or] at h
      rw [eraseAll_cons_of_not h.1, ih h.2]

/-- A text in which the pattern stands gets shorter by its length at least. -/
theorem length_eraseAll_add_le (h : pattern <:+: s) :
    (eraseAll pattern 0 s).length + pattern.length ≤ s.length := by
  induction s with
  | nil =>
      rw [List.infix_nil] at h
      rw [h]
      exact Nat.le_refl _
  | cons c s ih =>
      by_cases hprefix : pattern <+: c :: s
      · have hle := hprefix.length_le
        have := length_eraseAll_le pattern s (pattern.length - 1)
        rw [eraseAll_cons_of_start hprefix]
        rw [List.length_cons] at hle ⊢
        omega
      · have := ih ((List.infix_cons_iff.mp h).resolve_left hprefix)
        rw [eraseAll_cons_of_not hprefix, List.length_cons, List.length_cons]
        omega

omit [DecidableEq α] in
/-- A pattern does not go over a character that it does not have. -/
theorem prefix_append_cons_iff (hc : c ∉ pattern) : pattern <+: s ++ c :: t ↔ pattern <+: s := by
  constructor
  · intro h
    refine List.prefix_of_prefix_length_le h (List.prefix_append _ _) ?_
    by_contra hlt
    obtain ⟨rest, hrest⟩ := h
    have hget : (pattern ++ rest)[s.length]? = some c := by
      rw [hrest, List.getElem?_append_right (Nat.le_refl _), Nat.sub_self]
      rfl
    rw [List.getElem?_append_left (by omega)] at hget
    exact hc (List.mem_of_getElem? hget)
  · intro h
    exact h.trans (List.prefix_append _ _)

omit [DecidableEq α] in
theorem infix_append_cons_iff (hne : pattern ≠ []) (hc : c ∉ pattern) :
    pattern <:+: s ++ c :: t ↔ pattern <:+: s ∨ pattern <:+: t := by
  induction s with
  | nil =>
      have hnot : ¬ pattern <+: c :: t := fun h =>
        hne (List.prefix_nil.mp ((prefix_append_cons_iff (s := []) hc).mp h))
      rw [List.nil_append, List.infix_cons_iff, List.infix_nil]
      exact ⟨fun h => Or.inr (h.resolve_left hnot), fun h => Or.inr (h.resolve_left hne)⟩
  | cons x s ih =>
      rw [List.cons_append, List.infix_cons_iff, List.infix_cons_iff, ih, ← List.cons_append,
        prefix_append_cons_iff hc, or_assoc]

theorem eraseAll_append_cons (hne : pattern ≠ []) (hc : c ∉ pattern) (hskip : skip ≤ s.length) :
    eraseAll pattern skip (s ++ c :: t) = eraseAll pattern skip s ++ c :: eraseAll pattern 0 t := by
  induction s generalizing skip with
  | nil =>
      have hnot : ¬ pattern <+: c :: t := fun h =>
        hne (List.prefix_nil.mp ((prefix_append_cons_iff (s := []) hc).mp h))
      rw [Nat.le_zero.mp hskip, List.nil_append, eraseAll_cons_of_not hnot]
      rfl
  | cons x s ih =>
      cases skip with
      | succ skip => exact ih (Nat.le_of_succ_le_succ hskip)
      | zero =>
          have hiff := prefix_append_cons_iff (s := x :: s) (t := t) hc
          rw [List.cons_append] at hiff ⊢
          by_cases hprefix : pattern <+: x :: s
          · have hle := hprefix.length_le
            rw [List.length_cons] at hle
            rw [eraseAll_cons_of_start hprefix, eraseAll_cons_of_start (hiff.mpr hprefix)]
            exact ih (by omega)
          · rw [eraseAll_cons_of_not hprefix, eraseAll_cons_of_not (mt hiff.mp hprefix),
              ih (Nat.zero_le _), List.cons_append]

end EraseAll

end Xenon.Foundation.Text

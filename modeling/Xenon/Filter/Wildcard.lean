import Mathlib.Data.List.Infix
import Xenon.Foundation.Regex
import Xenon.Filter.Evaluator
import Xenon.Lucene.Query

/-!
# Wildcards

A wildcard is translated, character by character, into a regular expression. The expression always
compiles, and it is matched as `wildcardMatches` says. The three wildcard characters become the dot,
which does not stand for every character: a line terminator of the text has to be one of the
wildcard, too.
-/

namespace Xenon.Filter

open Xenon.QueryTask Xenon.Foundation
open Xenon.Lucene (suffixes wildcardAccepts)

/-! ## The translation -/

/-- The `switch` of `wildcardToRegex`. -/
def translate (c : Char) : List Char :=
  if c = '*' then ['.', '*']
  else if c = '+' then ['.', '+']
  else if c = '?' then ['.']
  else if c ∈ ['(', ')', '[', ']', '$', '^', '.', '{', '}', '|', '\\'] then ['\\', c]
  else [c]

/-- `Term.wildcardToRegex`. -/
def wildcardToRegex (wildcard : List Char) : List Char :=
  '^' :: (wildcard.flatMap translate ++ ['$'])

/-- What the translation of a character is read as. -/
def translated (c : Char) : List Regex.Token :=
  if c = '*' then [.atom .any, .quantifier .star]
  else if c = '+' then [.atom .any, .quantifier .plus]
  else if c = '?' then [.atom .any]
  else [.atom (.char c)]

def itemOf (c : Char) : Regex.Item :=
  if c = '*' then .repeated .any .star
  else if c = '+' then .repeated .any .plus
  else if c = '?' then .one .any
  else .one (.char c)

/-- The compiled pattern of a wildcard. -/
def pattern (wildcard : List Char) : List Regex.Item :=
  .start :: (wildcard.map itemOf ++ [.stop])

theorem token_of_not_mem {c : Char} (hc : c ≠ '*' ∧ c ≠ '+' ∧ c ≠ '?')
    (h : c ∉ ['(', ')', '[', ']', '$', '^', '.', '{', '}', '|', '\\']) :
    Regex.token c = some (.atom (.char c)) := by
  simp only [List.mem_cons, List.not_mem_nil, or_false, not_or] at h
  unfold Regex.token
  simp only [List.mem_cons, List.not_mem_nil, hc, h, or_self, if_false]

theorem not_isAlphanum_of_mem {c : Char}
    (h : c ∈ ['(', ')', '[', ']', '$', '^', '.', '{', '}', '|', '\\']) :
    c.isAlphanum = false := by
  simp only [List.mem_cons, List.not_mem_nil, or_false] at h
  rcases h with rfl | rfl | rfl | rfl | rfl | rfl | rfl | rfl | rfl | rfl | rfl <;> rfl

/-- The characters with a meaning of their own in an expression are escaped, the other ones are
not. -/
theorem lex_translate (c : Char) (cs : List Char) :
    Regex.lex (translate c ++ cs) = (Regex.lex cs).map (translated c ++ ·) := by
  unfold translate translated
  split_ifs with hstar hplus hany hescape
  · show Regex.lex ('.' :: '*' :: cs) = _
    rw [Regex.lex_cons (by decide), Regex.lex_cons (by decide)]
    cases Regex.lex cs <;> rfl
  · show Regex.lex ('.' :: '+' :: cs) = _
    rw [Regex.lex_cons (by decide), Regex.lex_cons (by decide)]
    cases Regex.lex cs <;> rfl
  · show Regex.lex ('.' :: cs) = _
    rw [Regex.lex_cons (by decide)]
    cases Regex.lex cs <;> rfl
  · exact Regex.lex_escaped (not_isAlphanum_of_mem hescape) cs
  · have hne : c ≠ '\\' := by
      rintro rfl
      exact hescape (by decide)
    show Regex.lex (c :: cs) = _
    rw [Regex.lex_cons hne, token_of_not_mem ⟨hstar, hplus, hany⟩ hescape]
    rfl

theorem lex_wildcard (w : List Char) :
    Regex.lex (w.flatMap translate ++ ['$']) = some (w.flatMap translated ++ [.stop]) := by
  induction w with
  | nil => rfl
  | cons c w ih =>
      rw [List.flatMap_cons, List.append_assoc, lex_translate, ih, List.flatMap_cons,
        List.append_assoc]
      rfl

/-- No quantifier is left for the character before it. -/
theorem translated_ne_quantifier (w : List Char) (q : Regex.Quantifier) (ts : List Regex.Token) :
    w.flatMap translated ++ [.stop] ≠ .quantifier q :: ts := by
  cases w with
  | nil => exact nofun
  | cons c w =>
      rw [List.flatMap_cons, List.append_assoc]
      unfold translated
      split_ifs <;> exact nofun

theorem items_translated (w : List Char) :
    Regex.items (w.flatMap translated ++ [.stop]) = some (w.map itemOf ++ [.stop]) := by
  induction w with
  | nil => rfl
  | cons c w ih =>
      rw [List.flatMap_cons, List.append_assoc, List.map_cons]
      unfold translated itemOf
      split_ifs
      · show (Regex.items (w.flatMap translated ++ [.stop])).map (.repeated .any .star :: ·) = _
        rw [ih]
        rfl
      · show (Regex.items (w.flatMap translated ++ [.stop])).map (.repeated .any .plus :: ·) = _
        rw [ih]
        rfl
      · show Regex.items (.atom .any :: (w.flatMap translated ++ [.stop])) = _
        rw [Regex.items_atom _ (translated_ne_quantifier w), ih]
        rfl
      · show Regex.items (.atom (.char c) :: (w.flatMap translated ++ [.stop])) = _
        rw [Regex.items_atom _ (translated_ne_quantifier w), ih]
        rfl

/-- `Pattern.compile` in the constructor of `Term` does not fail. -/
theorem compile_wildcardToRegex (w : List Char) :
    Regex.compile (wildcardToRegex w) = some (pattern w) := by
  have hne : '^' ≠ '\\' := by decide
  rw [Regex.compile, wildcardToRegex, Regex.lex_cons hne, lex_wildcard]
  show (Regex.items (w.flatMap translated ++ [.stop])).map (.start :: ·) = _
  rw [items_translated]
  rfl

/-! ## The match -/

theorem starRests_eq (s : List Char) : starRests s = Regex.rests Regex.Atom.any.accepts s := by
  induction s with
  | nil => rfl
  | cons c s ih =>
      rw [starRests, Regex.rests, ih]
      show (if isLineTerminator c = true then _ else _) =
        (c :: s) :: if (!isLineTerminator c) = true then _ else _
      cases isLineTerminator c <;> rfl

theorem wildcardMatches_star (w s : List Char) :
    wildcardMatches ('*' :: w) s = (starRests s).any (wildcardMatches w) := rfl

theorem wildcardMatches_plus (w : List Char) (c : Char) (s : List Char) :
    wildcardMatches ('+' :: w) (c :: s) =
      (!isLineTerminator c && (starRests s).any (wildcardMatches w)) := rfl

theorem wildcardMatches_any (w : List Char) (c : Char) (s : List Char) :
    wildcardMatches ('?' :: w) (c :: s) = (!isLineTerminator c && wildcardMatches w s) := rfl

theorem wildcardMatches_char {c : Char} (hc : c ≠ '*' ∧ c ≠ '+' ∧ c ≠ '?') (w : List Char)
    (d : Char) (s : List Char) :
    wildcardMatches (c :: w) (d :: s) = (decide (d = c) && wildcardMatches w s) := by
  rw [wildcardMatches, if_neg hc.1]
  show (if c = '+' then _ else if c = '?' then _ else _) = _
  rw [if_neg hc.2.1, if_neg hc.2.2]

/-- All but `*` match no empty text. -/
theorem wildcardMatches_nil {c : Char} (hc : c ≠ '*') (w : List Char) :
    wildcardMatches (c :: w) [] = false := by
  rw [wildcardMatches, if_neg hc]

theorem itemOf_char {c : Char} (hc : c ≠ '*' ∧ c ≠ '+' ∧ c ≠ '?') :
    itemOf c = .one (.char c) := by
  rw [itemOf, if_neg hc.1, if_neg hc.2.1, if_neg hc.2.2]

theorem wildcard_cases (c : Char) :
    c = '*' ∨ c = '+' ∨ c = '?' ∨ (c ≠ '*' ∧ c ≠ '+' ∧ c ≠ '?') := by
  tauto

theorem accepts_pattern (w : List Char) (atStart : Bool) (s : List Char) :
    Regex.accepts (w.map itemOf ++ [.stop]) atStart s = wildcardMatches w s := by
  induction w generalizing atStart s with
  | nil => exact Regex.accepts_stop atStart s
  | cons c w ih =>
      rw [List.map_cons, List.cons_append]
      rcases wildcard_cases c with rfl | rfl | rfl | hc
      · show Regex.accepts (.repeated .any .star :: (w.map itemOf ++ [.stop])) atStart s = _
        rw [Regex.accepts, wildcardMatches_star, starRests_eq]
        congr 1
        ext rest
        exact ih _ rest
      · show Regex.accepts (.repeated .any .plus :: (w.map itemOf ++ [.stop])) atStart s = _
        cases s with
        | nil => rfl
        | cons d s =>
            rw [Regex.accepts, wildcardMatches_plus, starRests_eq]
            congr 2
            ext rest
            exact ih false rest
      · show Regex.accepts (.one .any :: (w.map itemOf ++ [.stop])) atStart s = _
        cases s with
        | nil => rfl
        | cons d s =>
            rw [Regex.accepts, wildcardMatches_any, ih]
            rfl
      · rw [itemOf_char hc]
        cases s with
        | nil => exact (wildcardMatches_nil hc.1 w).symm
        | cons d s =>
            rw [Regex.accepts, wildcardMatches_char hc, ih]
            rfl

theorem matchesText_pattern (w s : List Char) :
    Regex.matchesText (pattern w) s = wildcardMatches w s :=
  accepts_pattern w true s

/-! ## Globs -/

/-- What the wildcard characters stand for. -/
inductive Glob : List Char → List Char → Prop
  | nil : Glob [] []
  | star (taken : List Char) {w s : List Char} (rest : Glob w s) : Glob ('*' :: w) (taken ++ s)
  | plus (c : Char) (taken : List Char) {w s : List Char} (rest : Glob w s) :
      Glob ('+' :: w) (c :: (taken ++ s))
  | any (c : Char) {w s : List Char} (rest : Glob w s) : Glob ('?' :: w) (c :: s)
  | char {c : Char} (hc : c ≠ '*' ∧ c ≠ '+' ∧ c ≠ '?') {w s : List Char} (rest : Glob w s) :
      Glob (c :: w) (c :: s)

def lineTerminators (s : List Char) : ℕ := s.countP isLineTerminator

theorem lineTerminators_cons (c : Char) (s : List Char) :
    lineTerminators (c :: s) = lineTerminators s + if isLineTerminator c then 1 else 0 :=
  List.countP_cons

theorem lineTerminators_append (s s' : List Char) :
    lineTerminators (s ++ s') = lineTerminators s + lineTerminators s' :=
  List.countP_append

theorem lineTerminators_cons_dot {c : Char} (h : (!isLineTerminator c) = true) (s : List Char) :
    lineTerminators (c :: s) = lineTerminators s := by
  rw [Bool.not_eq_true'] at h
  rw [lineTerminators_cons, h]
  rfl

theorem dot_of_lineTerminators {c : Char} (h : (if isLineTerminator c then 1 else 0) = 0) :
    (!isLineTerminator c) = true := by
  rw [Bool.not_eq_true']
  by_contra hc
  rw [Bool.not_eq_false] at hc
  rw [if_pos hc] at h
  cases h

/-- The line terminators of the wildcard stand for themselves. -/
theorem Glob.lineTerminators_le {w s : List Char} (h : Glob w s) :
    lineTerminators w ≤ lineTerminators s := by
  induction h with
  | nil => exact le_rfl
  | star taken rest ih =>
      rw [lineTerminators_cons, lineTerminators_append]
      exact le_add_left ih
  | plus c taken rest ih =>
      rw [lineTerminators_cons, lineTerminators_cons, lineTerminators_append]
      exact le_add_right (le_add_left ih)
  | any c rest ih =>
      rw [lineTerminators_cons, lineTerminators_cons]
      exact le_add_right ih
  | char hc rest ih =>
      rw [lineTerminators_cons, lineTerminators_cons]
      exact Nat.add_le_add_right ih _

theorem lineTerminators_eq_zero {s : List Char} :
    lineTerminators s = 0 ↔ ∀ c ∈ s, Regex.Atom.any.accepts c = true := by
  rw [lineTerminators, List.countP_eq_zero]
  show (∀ c ∈ s, ¬ _) ↔ ∀ c ∈ s, (!isLineTerminator c) = true
  simp only [Bool.not_eq_true, Bool.not_eq_eq_eq_not, Bool.not_true]

theorem any_starRests_iff {p : List Char → Bool} {s : List Char} :
    (starRests s).any p = true ↔
      ∃ taken rest, s = taken ++ rest ∧ lineTerminators taken = 0 ∧ p rest = true := by
  rw [starRests_eq, List.any_eq_true]
  constructor
  · rintro ⟨rest, hmem, hp⟩
    obtain ⟨taken, hs, htaken⟩ := Regex.mem_rests.mp hmem
    exact ⟨taken, rest, hs, lineTerminators_eq_zero.mpr htaken, hp⟩
  · rintro ⟨taken, rest, hs, htaken, hp⟩
    exact ⟨rest, Regex.mem_rests.mpr ⟨taken, hs, lineTerminators_eq_zero.mp htaken⟩, hp⟩

/-- The dot matches no line terminator. -/
theorem glob_of_wildcardMatches {w s : List Char} (h : wildcardMatches w s = true) :
    Glob w s ∧ lineTerminators s = lineTerminators w := by
  induction w generalizing s with
  | nil =>
      rw [wildcardMatches, List.isEmpty_iff] at h
      subst h
      exact ⟨.nil, rfl⟩
  | cons c w ih =>
      rcases wildcard_cases c with rfl | rfl | rfl | hc
      · rw [wildcardMatches_star, any_starRests_iff] at h
        obtain ⟨taken, rest, rfl, htaken, hrest⟩ := h
        obtain ⟨hglob, hcount⟩ := ih hrest
        refine ⟨.star taken hglob, ?_⟩
        rw [lineTerminators_append, lineTerminators_cons, htaken, hcount]
        exact zero_add _
      · cases s with
        | nil => cases h
        | cons d s =>
            rw [wildcardMatches_plus, Bool.and_eq_true, any_starRests_iff] at h
            obtain ⟨hd, taken, rest, rfl, htaken, hrest⟩ := h
            obtain ⟨hglob, hcount⟩ := ih hrest
            refine ⟨.plus d taken hglob, ?_⟩
            rw [lineTerminators_cons_dot hd, lineTerminators_append, lineTerminators_cons, htaken,
              hcount]
            exact zero_add _
      · cases s with
        | nil => cases h
        | cons d s =>
            rw [wildcardMatches_any, Bool.and_eq_true] at h
            obtain ⟨hglob, hcount⟩ := ih h.2
            refine ⟨.any d hglob, ?_⟩
            rw [lineTerminators_cons_dot h.1, lineTerminators_cons, hcount]
            rfl
      · cases s with
        | nil =>
            rw [wildcardMatches_nil hc.1] at h
            cases h
        | cons d s =>
            rw [wildcardMatches_char hc, Bool.and_eq_true, decide_eq_true_eq] at h
            obtain ⟨rfl, hrest⟩ := h
            obtain ⟨hglob, hcount⟩ := ih hrest
            refine ⟨.char hc hglob, ?_⟩
            rw [lineTerminators_cons, lineTerminators_cons, hcount]

/-- With as many line terminators in the text as in the wildcard, none is left for the dots. -/
theorem wildcardMatches_of_glob {w s : List Char} (h : Glob w s)
    (hcount : lineTerminators s = lineTerminators w) : wildcardMatches w s = true := by
  induction h with
  | nil => rfl
  | star taken rest ih =>
      have hle := rest.lineTerminators_le
      rw [lineTerminators_append, lineTerminators_cons_dot rfl] at hcount
      rw [wildcardMatches_star, any_starRests_iff]
      exact ⟨taken, _, rfl, by omega, ih (by omega)⟩
  | plus c taken rest ih =>
      have hle := rest.lineTerminators_le
      rw [lineTerminators_cons, lineTerminators_append, lineTerminators_cons_dot rfl] at hcount
      rw [wildcardMatches_plus, Bool.and_eq_true, any_starRests_iff]
      exact ⟨dot_of_lineTerminators (by omega), taken, _, rfl, by omega, ih (by omega)⟩
  | any c rest ih =>
      have hle := rest.lineTerminators_le
      rw [lineTerminators_cons, lineTerminators_cons_dot rfl] at hcount
      rw [wildcardMatches_any, Bool.and_eq_true]
      exact ⟨dot_of_lineTerminators (by omega), ih (by omega)⟩
  | char hc rest ih =>
      rw [lineTerminators_cons, lineTerminators_cons] at hcount
      rw [wildcardMatches_char hc, Bool.and_eq_true, decide_eq_true_eq]
      exact ⟨rfl, ih (Nat.add_right_cancel hcount)⟩

/-! ## The wildcard query of the index -/

theorem suffixes_eq_tails (s : List Char) : suffixes s = s.tails := by
  induction s with
  | nil => rfl
  | cons c s ih => rw [suffixes, ih, List.tails_cons]

theorem any_suffixes_iff {p : List Char → Bool} {s : List Char} :
    (suffixes s).any p = true ↔ ∃ taken rest, s = taken ++ rest ∧ p rest = true := by
  rw [suffixes_eq_tails, List.any_eq_true]
  constructor
  · rintro ⟨rest, hmem, hp⟩
    obtain ⟨taken, rfl⟩ := (List.mem_tails _ _).mp hmem
    exact ⟨taken, rest, rfl, hp⟩
  · rintro ⟨taken, rest, rfl, hp⟩
    exact ⟨rest, (List.mem_tails _ _).mpr (List.suffix_append _ _), hp⟩

theorem wildcardAccepts_char {c : Char} (hc : c ≠ '*' ∧ c ≠ '?' ∧ c ≠ '\\') (w : List Char)
    (d : Char) (s : List Char) :
    wildcardAccepts (c :: w) (d :: s) = (decide (d = c) && wildcardAccepts w s) := by
  rw [wildcardAccepts]
  · exact hc.1
  · exact hc.2.1
  · exact fun _ _ h => absurd h hc.2.2

theorem wildcardAccepts_nil {c : Char} (hc : c ≠ '*' ∧ c ≠ '?' ∧ c ≠ '\\') (w : List Char) :
    wildcardAccepts (c :: w) [] = false := by
  rw [wildcardAccepts]
  · exact hc.1
  · exact hc.2.1
  · exact fun _ _ h => absurd h hc.2.2

/-- It reads `+` and a backslash in other ways. -/
theorem wildcardAccepts_iff {w : List Char} (hplus : '+' ∉ w) (hback : '\\' ∉ w) (s : List Char) :
    wildcardAccepts w s = true ↔ Glob w s := by
  induction w generalizing s with
  | nil =>
      rw [wildcardAccepts, List.isEmpty_iff]
      constructor
      · rintro rfl
        exact .nil
      · intro h
        cases h
        rfl
  | cons c w ih =>
      have ih := ih (fun h => hplus (List.mem_cons_of_mem _ h))
        fun h => hback (List.mem_cons_of_mem _ h)
      -- a star, a plus, which `hplus` excludes, a question mark, or any other character
      rcases wildcard_cases c with rfl | rfl | rfl | hc
      · rw [wildcardAccepts, any_suffixes_iff]
        constructor
        · rintro ⟨taken, rest, rfl, hrest⟩
          exact .star taken ((ih rest).mp hrest)
        · intro h
          cases h with
          | star taken rest => exact ⟨taken, _, rfl, (ih _).mpr rest⟩
          | char hc => exact absurd rfl hc.1
      · exact absurd List.mem_cons_self hplus
      · constructor
        · intro h
          cases s with
          | nil => cases h
          | cons d s => exact .any d ((ih s).mp h)
        · intro h
          cases h with
          | any d rest => exact (ih _).mpr rest
          | char hc => exact absurd rfl hc.2.2
      · have hc' : c ≠ '*' ∧ c ≠ '?' ∧ c ≠ '\\' :=
          ⟨hc.1, hc.2.2, fun heq => hback (heq ▸ List.mem_cons_self)⟩
        constructor
        · intro h
          cases s with
          | nil =>
              rw [wildcardAccepts_nil hc'] at h
              cases h
          | cons d s =>
              rw [wildcardAccepts_char hc', Bool.and_eq_true, decide_eq_true_eq] at h
              obtain ⟨rfl, hrest⟩ := h
              exact .char hc ((ih s).mp hrest)
        · intro h
          cases h with
          | star => exact absurd rfl hc.1
          | plus => exact absurd rfl hc.2.1
          | any => exact absurd rfl hc.2.2
          | char _ rest =>
              rw [wildcardAccepts_char hc', Bool.and_eq_true, decide_eq_true_eq]
              exact ⟨rfl, (ih _).mpr rest⟩

/-! ## A term with a wildcard -/

/-- A term with a wildcard; the check of a text does not read the range. -/
def wildcardTerm (name wildcard : String) (range : Option NumericRange) : QueryTerm :=
  { propertyName := some name, matchValue := some wildcard, matchType := some .wildcard, range }

/-- The pattern of the wildcard compiles, the term matches what the pattern matches, and that is
what the wildcard stands for as a glob, as it is for the query of the index where the two read the
same wildcards. -/
def MatchesAsGlob (name wildcard : String) (range : Option NumericRange) (value : String) : Prop :=
  ∃ p, Regex.compile (wildcardToRegex wildcard.toList) = some p ∧
    evaluateString (wildcardTerm name wildcard range) (some value) =
      .ok (Regex.matchesText p value.toList) ∧
    (Regex.matchesText p value.toList = true ↔ Glob wildcard.toList value.toList) ∧
    ('+' ∉ wildcard.toList → '\\' ∉ wildcard.toList →
      Regex.matchesText p value.toList = wildcardAccepts wildcard.toList value.toList)

theorem matches_as_glob_iff (name wildcard : String) (range : Option NumericRange)
    (value : String) :
    MatchesAsGlob name wildcard range value ↔
      lineTerminators value.toList = lineTerminators wildcard.toList ∨
        ¬ Glob wildcard.toList value.toList := by
  constructor
  · rintro ⟨p, hp, -, hglob, -⟩
    rw [compile_wildcardToRegex, Option.some.injEq] at hp
    subst hp
    rw [matchesText_pattern] at hglob
    by_cases h : Glob wildcard.toList value.toList
    · left
      exact (glob_of_wildcardMatches (hglob.mpr h)).2
    · right
      exact h
  · intro h
    have hglob : Regex.matchesText (pattern wildcard.toList) value.toList = true ↔
        Glob wildcard.toList value.toList := by
      rw [matchesText_pattern]
      constructor
      · intro hmatch
        exact (glob_of_wildcardMatches hmatch).1
      · intro hglob
        exact wildcardMatches_of_glob hglob (h.resolve_right (not_not_intro hglob))
    refine ⟨_, compile_wildcardToRegex _, ?_, hglob, ?_⟩
    · rw [matchesText_pattern]
      rfl
    · intro hplus hback
      rw [Bool.eq_iff_iff, hglob, wildcardAccepts_iff hplus hback]

/-- The star does not stand for the end of a line. -/
theorem star_not_line_terminator : ¬ MatchesAsGlob "documentSelfLink" "*" none "\n" := by
  rintro ⟨p, hp, -, hglob, -⟩
  have hcompile := compile_wildcardToRegex ['*']
  have hstar : Glob ['*'] ['\n'] := .star ['\n'] .nil
  rw [show "*".toList = ['*'] from rfl] at hp hglob
  rw [show "\n".toList = ['\n'] from rfl] at hglob
  rw [hcompile, Option.some.injEq] at hp
  subst hp
  have hmatch := hglob.mpr hstar
  rw [matchesText_pattern] at hmatch
  revert hmatch
  decide

end Xenon.Filter

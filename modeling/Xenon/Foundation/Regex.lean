import Mathlib.Data.List.Basic

/-!
# Regular expressions

A part of the syntax of `java.util.regex.Pattern`, without flags: characters, escaped ones, `.`,
`^` and `$`, and the quantifiers `*`, `+` and `?`. What is not of this part does not compile here.
A match is a match of the whole text.
-/

namespace Xenon.Foundation.Regex

/-- What `.` does not match. -/
def isLineTerminator (c : Char) : Bool :=
  c = '\n' || c = '\r' || c = '\u0085' || c = '\u2028' || c = '\u2029'

inductive Atom where
  | char (c : Char)
  | any
deriving DecidableEq

inductive Quantifier where
  | star | plus | optional
deriving DecidableEq

inductive Token where
  | start
  | stop
  | atom (a : Atom)
  | quantifier (q : Quantifier)
deriving DecidableEq

inductive Item where
  | start
  | stop
  | one (a : Atom)
  | repeated (a : Atom) (q : Quantifier)
deriving DecidableEq

/-! ## Syntax -/

/-- The token of a character that is not escaped. -/
def token (c : Char) : Option Token :=
  if c = '^' then some .start
  else if c = '$' then some .stop
  else if c = '.' then some (.atom .any)
  else if c = '*' then some (.quantifier .star)
  else if c = '+' then some (.quantifier .plus)
  else if c = '?' then some (.quantifier .optional)
  else if c ∈ ['(', ')', '[', '{', '|'] then none
  else some (.atom (.char c))

/-- A backslash before a character that is no letter and no digit stands for the character. -/
def lex : List Char → Option (List Token)
  | [] => some []
  | '\\' :: c :: cs =>
      if c.isAlphanum then none else (lex cs).map (.atom (.char c) :: ·)
  | ['\\'] => none
  | c :: cs => (token c).bind fun t => (lex cs).map (t :: ·)

/-- A quantifier belongs to the atom before it. There is no second one: `*?` and `*+` are not of
this part. -/
def items : List Token → Option (List Item)
  | [] => some []
  | .start :: ts => (items ts).map (.start :: ·)
  | .stop :: ts => (items ts).map (.stop :: ·)
  | .atom a :: .quantifier q :: ts => (items ts).map (.repeated a q :: ·)
  | .atom a :: ts => (items ts).map (.one a :: ·)
  | .quantifier _ :: _ => none

/-- `Pattern.compile`. -/
def compile (regex : List Char) : Option (List Item) :=
  (lex regex).bind items

/-! ## Matches -/

def Atom.accepts : Atom → Char → Bool
  | .char d, c => c = d
  | .any, c => !isLineTerminator c

/-- What can be left after any number of accepted characters. -/
def rests (p : Char → Bool) : List Char → List (List Char)
  | [] => [[]]
  | c :: s => (c :: s) :: if p c then rests p s else []

/-- The end of the text, or the place before a line terminator that ends it. -/
def atEnd (s : List Char) : Bool :=
  match s with
  | [] => true
  | [c] => isLineTerminator c
  | _ => s = ['\r', '\n']

/-- The items match the rest of a text, all of it. -/
def accepts : List Item → (atStart : Bool) → List Char → Bool
  | [], _, s => s.isEmpty
  | .start :: is, atStart, s => atStart && accepts is atStart s
  | .stop :: is, atStart, s => atEnd s && accepts is atStart s
  | .one _ :: _, _, [] => false
  | .one a :: is, _, c :: s => a.accepts c && accepts is false s
  | .repeated a .star :: is, atStart, s =>
      (rests a.accepts s).any fun rest => accepts is (atStart && rest.length = s.length) rest
  | .repeated _ .plus :: _, _, [] => false
  | .repeated a .plus :: is, _, c :: s =>
      a.accepts c && (rests a.accepts s).any (accepts is false)
  | .repeated _ .optional :: is, atStart, [] => accepts is atStart []
  | .repeated a .optional :: is, atStart, c :: s =>
      accepts is atStart (c :: s) || (a.accepts c && accepts is false s)

/-- `Matcher.matches`. -/
def matchesText (regex : List Item) (s : List Char) : Bool := accepts regex true s

/-! ## Rules -/

theorem lex_escaped {c : Char} (h : c.isAlphanum = false) (cs : List Char) :
    lex ('\\' :: c :: cs) = (lex cs).map (.atom (.char c) :: ·) := by
  rw [lex, h]
  rfl

theorem lex_cons {c : Char} (h : c ≠ '\\') (cs : List Char) :
    lex (c :: cs) = (token c).bind fun t => (lex cs).map (t :: ·) := by
  rw [lex]
  · rintro _ _ rfl
    exact absurd rfl h
  · rintro rfl
    exact absurd rfl h

/-- An atom that no quantifier follows. -/
theorem items_atom (a : Atom) {ts : List Token} (h : ∀ q ts', ts ≠ .quantifier q :: ts') :
    items (.atom a :: ts) = (items ts).map (.one a :: ·) := by
  rw [items]
  rintro q ts' rfl
  exact h q ts' rfl

/-- At the end of a text, `$` asks for nothing. -/
theorem accepts_stop (atStart : Bool) (s : List Char) : accepts [.stop] atStart s = s.isEmpty := by
  cases s with
  | nil => rfl
  | cons c s => simp [accepts]

theorem mem_rests {p : Char → Bool} {s rest : List Char} :
    rest ∈ rests p s ↔ ∃ taken, s = taken ++ rest ∧ ∀ c ∈ taken, p c = true := by
  induction s with
  | nil =>
      rw [rests, List.mem_singleton]
      constructor
      · rintro rfl
        exact ⟨[], rfl, nofun⟩
      · rintro ⟨taken, h, -⟩
        exact (List.append_eq_nil_iff.mp h.symm).2
  | cons d s ih =>
      rw [rests, List.mem_cons]
      constructor
      · rintro (rfl | h)
        · exact ⟨[], rfl, nofun⟩
        · split_ifs at h with hp
          · obtain ⟨taken, rfl, htaken⟩ := ih.mp h
            refine ⟨d :: taken, rfl, ?_⟩
            intro c hc
            rcases List.mem_cons.mp hc with rfl | hc
            · exact hp
            · exact htaken c hc
          · cases h
      · rintro ⟨taken, h, htaken⟩
        cases taken with
        | nil => exact Or.inl h.symm
        | cons e taken =>
            obtain ⟨rfl, rfl⟩ := List.cons.inj h
            right
            rw [if_pos (htaken d List.mem_cons_self)]
            exact ih.mpr ⟨taken, rfl, fun c hc => htaken c (List.mem_cons_of_mem _ hc)⟩

end Xenon.Foundation.Regex

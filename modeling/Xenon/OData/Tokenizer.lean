import Mathlib.Data.List.Basic
import Xenon.Foundation.Run
import Xenon.QueryTask.Query

/-!
# Tokens of a `$filter`

`ODataTokenizer` reads an expression from left to right and looks ahead by regular
expressions. A string is read here as its code points; the positions of the tokens, which
nothing reads, are left out.
-/

namespace Xenon.OData

open Xenon.Foundation
open Xenon.QueryTask (Failure Double)

/-- What the tokenizer and the visitor use of Java's library. -/
structure Java where
  /-- `\p{L}`. -/
  isLetter : Char → Bool
  /-- `Double.parseDouble`, `none` where it throws. NaN, which has no place in the order,
  may be any value: only texts without a point are NaN, and their value is not used. -/
  parseDouble : String → Option Double
  /-- The casts between `long` and `double`. -/
  toDouble : Int64 → Double
  toLong : Double → Int64

/-- `ODataTokenKind`. -/
inductive ODataTokenKind where
  | whitespace | openParen | closeParen | comma | simpleType | symbol | literal
  | binaryComparison | binaryOperator | unknown
deriving DecidableEq

/-- `ODataToken`. -/
structure ODataToken where
  kind : ODataTokenKind
  uriLiteral : String
deriving DecidableEq

/-! ## Readers -/

/-- The words of `BIN_COMP`. -/
def binaryComparisons : List String := ["eq", "ne", "lt", "gt", "le", "ge", "any", "all"]

/-- The words of `BIN_OP`. -/
def binaryOperators : List String := ["and", "or"]

/-- The first of some words that the text starts with, if a space follows it. -/
def wordThenSpace (words : List String) (text : List Char) : Option String :=
  words.find? fun w => (w.toList ++ [' ']).isPrefixOf text

/-- A character of `OTHER_LIT`. -/
def isLiteralCharacter (java : Java) (c : Char) : Bool :=
  java.isLetter c || c.isDigit || c ∈ "-._~%!$&*+;:@".toList

/-- The run of `OTHER_LIT` at the start of the text, with `/` read as `.`. -/
def literalRun (java : Java) (text : List Char) : List Char :=
  (text.map fun c => if c = '/' then '.' else c).takeWhile (isLiteralCharacter java)

/-- The loop of `readLiteral`: the characters it appends, and whether the last one was a
closing quote. A double quote is a normal character. -/
def readQuoted : List Char → Bool → List Char × Bool
  | [], wasApostroph => ([], wasApostroph)
  | c :: text, wasApostroph =>
      if c ≠ '\'' ∧ wasApostroph then ([], wasApostroph)
      else
        let r := readQuoted text (c = '\'' && !wasApostroph)
        (c :: r.1, r.2)

/-- The `default` case of `tokenize`, with `checkForBinary`, `checkForAndOrOperator`,
`checkForBoolean` and `checkForLiteral`: the token, and how many characters are read after
the first one, `c`. -/
def nextWord (java : Java) (expression : String) (position : Nat) (c : Char)
    (rest : List Char) : Except Failure (ODataToken × Nat) :=
  match wordThenSpace binaryComparisons (c :: rest),
    wordThenSpace binaryOperators (c :: rest) with
  | some verb, _ => .ok (⟨.binaryComparison, verb⟩, verb.length - 1)
  | none, some verb => .ok (⟨.binaryOperator, verb⟩, verb.length - 1)
  | none, none =>
      if c :: rest = "true".toList ∨ c :: rest = "false".toList then
        .ok (⟨.simpleType, String.ofList (c :: rest)⟩, rest.length)
      else match literalRun java (c :: rest) with
        | [] => .error (.illegalArgument ("Unknown character: " ++ toString position ++ " " ++
            c.toString ++ " " ++ expression))
        | text => .ok (⟨.simpleType, String.ofList text⟩, text.length - 1)

/-- The body of the loop of `tokenize`. White space gives no token. -/
def nextToken (java : Java) (expression : String) (position : Nat) (c : Char)
    (rest : List Char) : Except Failure (Option ODataToken × Nat) :=
  if c = ' ' then .ok (none, (rest.takeWhile (· = ' ')).length)
  else if c = '(' then .ok (some ⟨.openParen, c.toString⟩, 0)
  else if c = ')' then .ok (some ⟨.closeParen, c.toString⟩, 0)
  else if c = '\'' then
    match readQuoted rest false with
    | (text, true) => .ok (some ⟨.simpleType, String.ofList (c :: text)⟩, text.length)
    | (_, false) => .error (.illegalArgument ("undetermined string " ++ expression))
  else if c = ',' then .ok (some ⟨.comma, c.toString⟩, 0)
  else if c = '=' ∨ c = '?' then .ok (some ⟨.symbol, c.toString⟩, 0)
  else do
    let (token, read) ← nextWord java expression position c rest
    return (some token, read)

/-- The number of `char`s of Java that a code point takes. -/
def charCount (c : Char) : Nat := if c.toNat < 0x10000 then 1 else 2

/-- The loop of `tokenize`; `skip` characters have been read already. -/
def tokenizeFrom (java : Java) (expression : String) :
    List Char → (position skip : Nat) → Except Failure (List ODataToken)
  | [], _, _ => .ok []
  | c :: rest, position, skip + 1 =>
      tokenizeFrom java expression rest (position + charCount c) skip
  | c :: rest, position, 0 => do
      let (token, read) ← nextToken java expression position c rest
      let tokens ← tokenizeFrom java expression rest (position + charCount c) read
      return token.toList ++ tokens

/-- `tokenize`. -/
def tokenize (java : Java) (expression : String) : Except Failure (List ODataToken) :=
  tokenizeFrom java expression expression.toList 0 0

/-! ## What the tokenizer promises -/

/-- A verb is one that the tokenizer knows. -/
structure ODataToken.WellFormed (t : ODataToken) : Prop where
  comparison : t.kind = .binaryComparison → t.uriLiteral ∈ binaryComparisons
  operator : t.kind = .binaryOperator → t.uriLiteral ∈ binaryOperators

theorem wordThenSpace_mem {words : List String} {text : List Char} {w : String}
    (h : wordThenSpace words text = some w) : w ∈ words := List.mem_of_find?_eq_some h

theorem wellFormed_nextWord {java : Java} {expression : String} {position : Nat} {c : Char}
    {rest : List Char} {token : ODataToken} {read : Nat}
    (h : nextWord java expression position c rest = .ok (token, read)) : token.WellFormed := by
  unfold nextWord at h
  split at h
  · rename_i hverb
    cases h
    exact ⟨fun _ => wordThenSpace_mem hverb, nofun⟩
  · rename_i hverb
    cases h
    exact ⟨nofun, fun _ => wordThenSpace_mem hverb⟩
  · split_ifs at h
    · cases h
      exact ⟨nofun, nofun⟩
    · split at h <;> cases h
      exact ⟨nofun, nofun⟩

theorem wellFormed_nextToken {java : Java} {expression : String} {position : Nat} {c : Char}
    {rest : List Char} {token : ODataToken} {read : Nat}
    (h : nextToken java expression position c rest = .ok (some token, read)) :
    token.WellFormed := by
  unfold nextToken at h
  split_ifs at h
  · cases h
  · cases h
    exact ⟨nofun, nofun⟩
  · cases h
    exact ⟨nofun, nofun⟩
  · split at h <;> cases h
    exact ⟨nofun, nofun⟩
  · cases h
    exact ⟨nofun, nofun⟩
  · cases h
    exact ⟨nofun, nofun⟩
  · obtain ⟨⟨token', read'⟩, hword, h⟩ := bind_eq_ok.mp h
    cases h
    exact wellFormed_nextWord hword

theorem wellFormed_tokenizeFrom {java : Java} {expression : String} {text : List Char} :
    ∀ {position skip tokens}, tokenizeFrom java expression text position skip = .ok tokens →
      ∀ t ∈ tokens, t.WellFormed := by
  induction text with
  | nil =>
      intro position skip tokens h
      cases h
      exact nofun
  | cons c rest ih =>
      intro position skip tokens h
      cases skip with
      | succ skip => exact ih h
      | zero =>
          obtain ⟨⟨token, read⟩, hnext, h⟩ := bind_eq_ok.mp h
          obtain ⟨later, hlater, h⟩ := bind_eq_ok.mp h
          cases h
          intro t ht
          rcases List.mem_append.mp ht with ht | ht
          · obtain rfl : token = some t := by simpa using ht
            exact wellFormed_nextToken hnext
          · exact ih hlater t ht

/-- The verbs of the tokens are those that the visitor knows. -/
theorem wellFormed_tokenize {java : Java} {expression : String} {tokens : List ODataToken}
    (h : tokenize java expression = .ok tokens) : ∀ t ∈ tokens, t.WellFormed :=
  wellFormed_tokenizeFrom h

end Xenon.OData

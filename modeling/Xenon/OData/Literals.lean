import Xenon.OData.Grammar

/-!
# A comparison with a literal

A filter that is one comparison is read as its three tokens: the name of a property, the verb, and
the literal. A number is a word like the name. A text stands in quotes, and a quote in it is doubled:
the tokenizer reads all of it, and the visitor takes away every quote.
-/

namespace Xenon.OData

open Xenon.Foundation
open Xenon.QueryTask

variable {java : Java} {names : Option (List String)} {expression : String}

/-! ## Reading on -/

theorem tokenizeFrom_skip (u rest : List Char) (position : ℕ) :
    ∃ position', tokenizeFrom java expression (u ++ rest) position u.length =
      tokenizeFrom java expression rest position' 0 := by
  induction u generalizing position with
  | nil => exact ⟨position, rfl⟩
  | cons c u ih => exact ih (position + charCount c)

/-- A token and what comes after it. -/
theorem tokenizeFrom_read {c : Char} {u rest : List Char} {token : Option ODataToken}
    {position : ℕ} (h : nextToken java expression position c (u ++ rest) = .ok (token, u.length)) :
    ∃ position', tokenizeFrom java expression (c :: (u ++ rest)) position 0 =
      (tokenizeFrom java expression rest position' 0).map (token.toList ++ ·) := by
  obtain ⟨position', hskip⟩ :=
    @tokenizeFrom_skip java expression u rest (position + charCount c)
  refine ⟨position', ?_⟩
  rw [tokenizeFrom, h]
  show (tokenizeFrom java expression (u ++ rest) (position + charCount c) u.length >>= fun tokens =>
    .ok (token.toList ++ tokens)) = _
  rw [hskip]
  cases tokenizeFrom java expression rest position' 0 <;> rfl

/-! ## Words -/

/-- The characters with a token of their own, and the one that is replaced in a word. -/
def specialCharacters : List Char := [' ', '(', ')', '\'', ',', '=', '?', '/']

/-- A word without special characters. -/
structure IsWord (java : Java) (u : List Char) : Prop where
  ne_nil : u ≠ []
  literal : ∀ c ∈ u, isLiteralCharacter java c = true
  plain : ∀ c ∈ u, c ∉ specialCharacters

/-- The end of a word is that of the text or a space. -/
def EndsWord (rest : List Char) : Prop := rest = [] ∨ ∃ rest', rest = ' ' :: rest'

theorem eq_of_prefix_space {w u rest : List Char} (hw : ' ' ∉ w) (hu : ' ' ∉ u)
    (hrest : EndsWord rest) (h : (w ++ [' ']).isPrefixOf (u ++ rest) = true) : w = u := by
  induction w generalizing u with
  | nil =>
      cases u with
      | nil => rfl
      | cons b u =>
          have hb : ' ' = b := by
            simpa [List.isPrefixOf] using h
          exact absurd (hb ▸ List.mem_cons_self) hu
  | cons a w ih =>
      cases u with
      | nil =>
          rcases hrest with rfl | ⟨rest', rfl⟩
          · cases h
          · have ha : a = ' ' := by
              have := (Bool.and_eq_true _ _ ▸ h).1
              simpa using this
            exact absurd (ha ▸ List.mem_cons_self) hw
      | cons b u =>
          have hboth : a = b ∧ (w ++ [' ']).isPrefixOf (u ++ rest) = true := by
            simpa [List.isPrefixOf] using h
          rw [hboth.1, ih (fun h => hw (List.mem_cons_of_mem _ h))
            (fun h => hu (List.mem_cons_of_mem _ h)) hboth.2]

theorem wordThenSpace_eq_none {words : List String} {u rest : List Char}
    (hwords : ∀ w ∈ words, ' ' ∉ w.toList) (hu : ' ' ∉ u) (hrest : EndsWord rest)
    (h : rest = [] ∨ String.ofList u ∉ words) : wordThenSpace words (u ++ rest) = none := by
  unfold wordThenSpace
  rw [List.find?_eq_none]
  intro w hw hstart
  have heq := eq_of_prefix_space (hwords w hw) hu hrest hstart
  rcases h with rfl | h
  · have hlength := (List.isPrefixOf_iff_prefix.mp hstart).length_le
    rw [heq] at hlength
    simp at hlength
  · apply h
    rw [← heq, String.ofList_toList]
    exact hw

theorem IsWord.space_not_mem {u : List Char} (hu : IsWord java u) : ' ' ∉ u := by
  intro h
  exact hu.plain ' ' h (by decide)

theorem IsWord.literalRun {u rest : List Char} (hu : IsWord java u)
    (hspace : java.isLetter ' ' = false) (hrest : EndsWord rest) :
    literalRun java (u ++ rest) = u := by
  have hmap : u.map (fun c => if c = '/' then '.' else c) = u := by
    conv_rhs => rw [← List.map_id u]
    refine List.map_congr_left fun c hc => ?_
    have hne : c ≠ '/' := by
      rintro rfl
      exact hu.plain '/' hc (by decide)
    rw [if_neg hne]
    rfl
  unfold OData.literalRun
  rw [List.map_append, hmap, List.takeWhile_append_of_pos hu.literal]
  rcases hrest with rfl | ⟨rest', rfl⟩
  · exact List.append_nil u
  · have hstop : isLiteralCharacter java ' ' = false := by
      rw [isLiteralCharacter, hspace]
      decide
    rw [List.map_cons, List.takeWhile_cons_of_neg, List.append_nil]
    show ¬ isLiteralCharacter java ' ' = true
    rw [hstop]
    exact Bool.false_ne_true

theorem binaryComparisons_plain : ∀ w ∈ binaryComparisons, ' ' ∉ w.toList := by decide

theorem binaryOperators_plain : ∀ w ∈ binaryOperators, ' ' ∉ w.toList := by decide

/-- A word that is no verb, or the last one. -/
theorem nextToken_word {c : Char} {u rest : List Char} (hu : IsWord java (c :: u))
    (hspace : java.isLetter ' ' = false) (hrest : EndsWord rest)
    (hverb : rest = [] ∨ String.ofList (c :: u) ∉ binaryComparisons ++ binaryOperators)
    (position : ℕ) :
    nextToken java expression position c (u ++ rest) =
      .ok (some ⟨.simpleType, String.ofList (c :: u)⟩, u.length) := by
  have hplain := hu.plain c List.mem_cons_self
  simp only [specialCharacters, List.mem_cons, List.not_mem_nil, or_false, not_or] at hplain
  have hcomparison : wordThenSpace binaryComparisons (c :: (u ++ rest)) = none := by
    refine wordThenSpace_eq_none (u := c :: u) binaryComparisons_plain hu.space_not_mem hrest ?_
    exact hverb.imp_right fun h hmem => h (List.mem_append_left _ hmem)
  have hoperator : wordThenSpace binaryOperators (c :: (u ++ rest)) = none := by
    refine wordThenSpace_eq_none (u := c :: u) binaryOperators_plain hu.space_not_mem hrest ?_
    exact hverb.imp_right fun h hmem => h (List.mem_append_right _ hmem)
  have hrun : literalRun java (c :: (u ++ rest)) = c :: u := hu.literalRun hspace hrest
  unfold nextToken
  rw [if_neg hplain.1, if_neg hplain.2.1, if_neg hplain.2.2.1, if_neg hplain.2.2.2.1,
    if_neg hplain.2.2.2.2.1, if_neg (by tauto)]
  refine bind_eq_ok.mpr ⟨(⟨.simpleType, String.ofList (c :: u)⟩, u.length), ?_, rfl⟩
  unfold nextWord
  rw [hcomparison, hoperator]
  simp only [hrun]
  split_ifs with hboolean
  · have hnil : rest = [] := by
      rcases hrest with rfl | ⟨rest', rfl⟩
      · rfl
      · have hmem : ' ' ∈ c :: (u ++ ' ' :: rest') := by simp
        rcases hboolean with heq | heq
        · rw [heq] at hmem
          exact absurd hmem (by decide)
        · rw [heq] at hmem
          exact absurd hmem (by decide)
    rw [hnil, List.append_nil]
  · rfl

/-! ## One comparison -/

theorem nextToken_space {c : Char} {rest : List Char} (hc : c ≠ ' ') (position : ℕ) :
    nextToken java expression position ' ' (c :: rest) = .ok (none, 0) := by
  show Except.ok (none, ((c :: rest).takeWhile (· = ' ')).length) = _
  rw [List.takeWhile_cons_of_neg (by simpa using hc)]
  rfl

/-- The name of a property, which is not the one that stands for all of them. -/
structure FieldName (java : Java) (field : String) : Prop where
  word : IsWord java field.toList
  no_verb : field ∉ binaryComparisons ++ binaryOperators
  one : field ≠ filterValueAllFields

/-- The tokenizer reads the text as one literal. -/
def ReadsLiteral (java : Java) (right : String) : Prop :=
  ∃ c u, right.toList = c :: u ∧ c ≠ ' ' ∧ ∀ expression position,
    nextToken java expression position c u = .ok (some ⟨.simpleType, right⟩, u.length)

/-- The filter `field op literal`. -/
def filterOf (field : String) (verb : ComparisonVerb) (right : String) : String :=
  String.ofList (field.toList ++ ' ' :: (verb.toVerb.operator.toList ++ ' ' :: right.toList))

theorem nextToken_verb (verb : ComparisonVerb) (rest : List Char) (position : ℕ) :
    ∃ c u, verb.toVerb.operator.toList = c :: u ∧
      nextToken java expression position c (u ++ ' ' :: rest) =
        .ok (some ⟨.binaryComparison, verb.toVerb.operator⟩, u.length) := by
  cases verb with
  | eq => exact ⟨'e', ['q'], rfl, rfl⟩
  | ne => exact ⟨'n', ['e'], rfl, rfl⟩
  | lt => exact ⟨'l', ['t'], rfl, rfl⟩
  | le => exact ⟨'l', ['e'], rfl, rfl⟩
  | gt => exact ⟨'g', ['t'], rfl, rfl⟩
  | ge => exact ⟨'g', ['e'], rfl, rfl⟩
  | any => exact ⟨'a', ['n', 'y'], rfl, rfl⟩
  | all => exact ⟨'a', ['l', 'l'], rfl, rfl⟩

/-- A space before a token. -/
theorem tokenizeFrom_space {c : Char} {rest : List Char} (hc : c ≠ ' ') (position : ℕ) :
    ∃ position', tokenizeFrom java expression (' ' :: c :: rest) position 0 =
      tokenizeFrom java expression (c :: rest) position' 0 := by
  obtain ⟨position', h⟩ := @tokenizeFrom_read java expression ' ' [] (c :: rest) none position
    (nextToken_space hc position)
  refine ⟨position', ?_⟩
  rw [List.nil_append] at h
  rw [h]
  cases tokenizeFrom java expression (c :: rest) position' 0 <;> rfl

theorem tokenizeFrom_literal {right : String} (hright : ReadsLiteral java right) (position : ℕ) :
    tokenizeFrom java expression (' ' :: right.toList) position 0 =
      .ok [⟨.simpleType, right⟩] := by
  obtain ⟨c, u, hright, hc, hread⟩ := hright
  rw [hright]
  obtain ⟨position', hspace⟩ := @tokenizeFrom_space java expression c u hc position
  have hread' : nextToken java expression position' c (u ++ []) =
      .ok (some ⟨.simpleType, right⟩, u.length) := by
    rw [List.append_nil]
    exact hread expression position'
  obtain ⟨position'', h⟩ := tokenizeFrom_read hread'
  rw [hspace]
  rw [List.append_nil] at h
  rw [h]
  rfl

theorem tokenizeFrom_verb (verb : ComparisonVerb) {right : String}
    (hright : ReadsLiteral java right) (position : ℕ) :
    tokenizeFrom java expression
        (' ' :: (verb.toVerb.operator.toList ++ ' ' :: right.toList)) position 0 =
      .ok [⟨.binaryComparison, verb.toVerb.operator⟩, ⟨.simpleType, right⟩] := by
  obtain ⟨c, u, hverb, -⟩ := @nextToken_verb java expression verb right.toList 0
  have hc : c ≠ ' ' := by
    rintro rfl
    cases verb <;> cases hverb
  rw [hverb]
  obtain ⟨position', hspace⟩ :=
    @tokenizeFrom_space java expression c (u ++ ' ' :: right.toList) hc position
  obtain ⟨c', u', hverb', hread⟩ := @nextToken_verb java expression verb right.toList position'
  rw [hverb] at hverb'
  cases hverb'
  obtain ⟨position'', h⟩ := tokenizeFrom_read hread
  show tokenizeFrom java expression (' ' :: c :: (u ++ ' ' :: right.toList)) position 0 = _
  rw [hspace, h, tokenizeFrom_literal hright]
  rfl

/-- A filter of one comparison is read as its three tokens. -/
theorem tokenize_filterOf {field right : String} (hfield : FieldName java field)
    (hspace : java.isLetter ' ' = false) (verb : ComparisonVerb)
    (hright : ReadsLiteral java right) :
    tokenize java (filterOf field verb right) =
      .ok (Comparison.tokens ⟨field, verb, right⟩) := by
  obtain ⟨f, fs, hfs⟩ := List.exists_cons_of_ne_nil hfield.word.ne_nil
  have hword := hfield.word
  have hfieldText : field = String.ofList (f :: fs) := by
    rw [← hfs, String.ofList_toList]
  rw [hfs] at hword
  unfold tokenize
  rw [filterOf, String.toList_ofList, hfs]
  generalize String.ofList _ = expression
  have hread := @nextToken_word java expression f fs _ hword hspace
    (Or.inr ⟨verb.toVerb.operator.toList ++ ' ' :: right.toList, rfl⟩)
    (Or.inr (hfieldText ▸ hfield.no_verb)) 0
  obtain ⟨position, h⟩ := tokenizeFrom_read hread
  rw [List.cons_append, h, tokenizeFrom_verb verb hright, ← hfieldText]
  rfl

/-- The query of a filter of one comparison. -/
theorem toQuery_filterOf {field right : String} (hfield : FieldName java field)
    (hspace : java.isLetter ' ' = false) (verb : ComparisonVerb)
    (hright : ReadsLiteral java right) :
    toQuery java names (filterOf field verb right) =
      (visitProperty java field (some verb.toVerb) right).map some := by
  have hone : isUnfoldQuery java field (some verb.toVerb) right = false := by
    rw [isUnfoldQuery, decide_eq_false hfield.one]
    rfl
  have hitems : items (Comparison.tokens ⟨field, verb, right⟩) =
      [Comparison.item ⟨field, verb, right⟩] := by
    have h := (Primary.comparison ⟨field, verb, right⟩).items_tokens []
    rwa [List.append_nil, show items [] = [] by simp [items], List.append_nil] at h
  rw [toQuery_eq, tokenize_filterOf hfield hspace verb hright]
  show run (queryVisits java names) [] none true (items (Comparison.tokens ⟨field, verb, right⟩)) = _
  rw [hitems, Comparison.item, run, stringToVerb_operator]
  show (visitBinaryComparator java names field (some verb.toVerb) right >>= fun q =>
    run (queryVisits java names) [] (some q) false []) = _
  rw [visitBinaryComparator, hone]
  cases visitProperty java field (some verb.toVerb) right with
  | error e => rfl
  | ok q =>
      show run (queryVisits java names) [] (some q) false [] = .ok (some q)
      rw [run, finish]
      rfl

/-- The query of a comparison other than `any` and `all` is one term. -/
theorem visitProperty_eq {verb : ComparisonVerb} (hany : verb ≠ .any) (hall : verb ≠ .all)
    (field right : String) :
    visitProperty java field (some verb.toVerb) right =
      (comparisonTerm java field (some verb.toVerb) right).map
        (Query.ofTerm (some (if verb = .ne then .mustNotOccur else .mustOccur))) := by
  cases verb with
  | any => exact absurd rfl hany
  | all => exact absurd rfl hall
  | eq | ne | lt | le | gt | ge =>
      unfold visitProperty
      cases comparisonTerm java field _ right <;> rfl

/-! ## Texts in quotes -/

/-- A quote in a text is doubled. -/
def double (s : List Char) : List Char :=
  s.flatMap fun c => if c = '\'' then ['\'', '\''] else [c]

/-- The literal for a text. -/
def quoted (s : String) : String := String.ofList ('\'' :: (double s.toList ++ ['\'']))

theorem double_quote (s : List Char) : double ('\'' :: s) = '\'' :: '\'' :: double s := rfl

theorem double_cons {c : Char} (hc : c ≠ '\'') (s : List Char) :
    double (c :: s) = c :: double s := by
  rw [double, List.flatMap_cons, if_neg hc]
  rfl

/-- A pair of quotes does not end the text. -/
theorem readQuoted_double (s : List Char) :
    readQuoted (double s ++ ['\'']) false = (double s ++ ['\''], true) := by
  induction s with
  | nil => rfl
  | cons c s ih =>
      by_cases hc : c = '\''
      · subst hc
        rw [double_quote]
        show ('\'' :: '\'' :: (readQuoted (double s ++ ['\'']) false).1,
          (readQuoted (double s ++ ['\'']) false).2) = _
        rw [ih]
        rfl
      · rw [double_cons hc, List.cons_append, readQuoted, if_neg (by simp), decide_eq_false hc]
        show (c :: (readQuoted (double s ++ ['\'']) false).1,
          (readQuoted (double s ++ ['\'']) false).2) = _
        rw [ih]

theorem readsLiteral_quoted (s : String) : ReadsLiteral java (quoted s) := by
  refine ⟨'\'', double s.toList ++ ['\''], String.toList_ofList, by decide, ?_⟩
  intro expression position
  unfold nextToken
  rw [readQuoted_double]
  rfl

/-- The visitor takes away the quotes around the text, and every one in it. -/
theorem unquote_double (s : List Char) : unquote (double s) = unquote s := by
  induction s with
  | nil => rfl
  | cons c s ih =>
      by_cases hc : c = '\''
      · subst hc
        rw [double_quote]
        exact ih
      · rw [double_cons hc]
        unfold unquote at ih ⊢
        rw [List.filter_cons_of_pos (by simpa using hc), List.filter_cons_of_pos (by simpa using hc),
          ih]

theorem unquote_quoted (s : String) : unquote (quoted s).toList = unquote s.toList := by
  rw [quoted, String.toList_ofList, ← unquote_double s.toList]
  show unquote (double s.toList ++ ['\'']) = _
  unfold unquote
  rw [List.filter_append]
  exact List.append_nil _

/-- The filter is one term, and the value to match is the text. -/
def RoundTrips (java : Java) (names : Option (List String)) (field s : String) : Prop :=
  ∃ o t, toQuery java names (filterOf field .eq (quoted s)) = .ok (some (.ofTerm o t)) ∧
    t.matchValue = some s

/-- What the documentation says of `Double.parseDouble` and of letters. -/
structure Documented (java : Java) : Prop where
  not_space : java.isLetter ' ' = false
  quoted : ∀ s, isNumeric java (quoted s) = false

theorem comparisonTerm_quoted (hjava : Documented java) (field s : String) (verb : BinaryVerb) :
    comparisonTerm java field (some verb) (quoted s) =
      .ok ⟨some field, some (String.ofList (unquote s.toList)),
        some (matchTypeOf (quoted s).toList (if '*' ∈ field.toList then some .wildcard else none)),
        none⟩ := by
  have hne : ¬ isNumeric java (quoted s) = true := by
    rw [hjava.quoted s]
    exact Bool.false_ne_true
  rw [comparisonTerm, if_neg hne, unquote_quoted]

theorem unquote_eq_iff (s : List Char) : unquote s = s ↔ '\'' ∉ s := by
  unfold unquote
  rw [List.filter_eq_self]
  constructor
  · intro h hmem
    exact absurd (h _ hmem) (by decide)
  · intro h c hc
    rw [decide_eq_true_eq]
    rintro rfl
    exact h hc

theorem roundTrips_iff_unquote (hjava : Documented java) (names : Option (List String))
    {field : String} (hfield : FieldName java field) (s : String) :
    RoundTrips java names field s ↔ unquote s.toList = s.toList := by
  have hquery := @toQuery_filterOf java names field (quoted s) hfield hjava.not_space .eq
    (readsLiteral_quoted s)
  rw [visitProperty_eq (by decide) (by decide)] at hquery
  change _ = Except.map some (Except.map _ (comparisonTerm java field (some .eq) _)) at hquery
  rw [comparisonTerm_quoted hjava] at hquery
  unfold RoundTrips
  rw [hquery]
  constructor
  · rintro ⟨o, t, h, hvalue⟩
    cases h
    have htext := congrArg String.toList (Option.some.inj hvalue)
    rwa [String.toList_ofList] at htext
  · intro h
    refine ⟨_, _, rfl, ?_⟩
    rw [h, String.ofList_toList]

/-- The visitor does not turn a pair of quotes into one. -/
theorem round_trips_iff (hjava : Documented java) (names : Option (List String)) {field : String}
    (hfield : FieldName java field) (s : String) :
    RoundTrips java names field s ↔ '\'' ∉ s.toList := by
  rw [roundTrips_iff_unquote hjava names hfield, unquote_eq_iff]

/-- The words are as documented. -/
theorem documented_words : Documented .words := ⟨by decide, fun _ => rfl⟩

theorem fieldName_a {java : Java} (hletter : isLiteralCharacter java 'a' = true) :
    FieldName java "a" := by
  refine ⟨?_, by decide, by decide⟩
  have hchars : "a".toList = ['a'] := rfl
  rw [hchars]
  constructor
  · exact List.cons_ne_nil _ _
  · exact List.forall_mem_singleton.mpr hletter
  · exact List.forall_mem_singleton.mpr (by decide)

theorem round_trips_iff_word :
    RoundTrips .words none "a" "word" ↔ '\'' ∉ "word".toList :=
  round_trips_iff documented_words none (fieldName_a rfl) "word"

/-- The quote of a text is lost. -/
theorem quote_not_round_trips : ¬ RoundTrips .words none "a" "it's" := by
  rw [roundTrips_iff_unquote documented_words none (fieldName_a rfl)]
  decide

end Xenon.OData

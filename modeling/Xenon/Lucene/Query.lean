import Xenon.QueryTask.Query

/-!
# Lucene queries

The queries that `LuceneQueryConverter` builds, and what they match. An indexed
document has, for every field, its terms with their positions, and its points.
-/

namespace Xenon.Lucene

open Xenon.Filter (Occurance)
open Xenon.QueryTask

/-! ## Documents -/

/-- What the index holds of a document. -/
structure Document where
  terms : String → List (Nat × String)
  longs : String → List Int64
  doubles : String → List Double

/-- A field has an indexed term. -/
def Document.hasTerm (d : Document) (field value : String) : Bool :=
  (d.terms field).any fun p => p.2 = value

/-- The tokens stand one after the other from position `p` on. -/
def Document.hasPhrase (d : Document) (field : String) (p : Nat) : List String → Bool
  | [] => true
  | token :: tokens => (p, token) ∈ d.terms field && d.hasPhrase field (p + 1) tokens

/-- What `*` leaves of a text. -/
def suffixes : List Char → List (List Char)
  | [] => [[]]
  | c :: s => (c :: s) :: suffixes s

/-- `WildcardQuery`: `*` stands for any text, `?` for any character, and a
backslash takes the next character as it is. -/
def wildcardAccepts : List Char → List Char → Bool
  | [], s => s.isEmpty
  | '*' :: ws, s => (suffixes s).any (wildcardAccepts ws)
  | '?' :: ws, s => match s with
      | [] => false
      | _ :: s => wildcardAccepts ws s
  | '\\' :: w :: ws, s => match s with
      | [] => false
      | c :: s => c = w && wildcardAccepts ws s
  | w :: ws, s => match s with
      | [] => false
      | c :: s => c = w && wildcardAccepts ws s

/-! ## Queries -/

/-- The query for a single term. -/
inductive LeafQuery where
  | termQuery (field value : String)
  | phraseQuery (field : String) (tokens : List String)
  | prefixQuery (field value : String)
  | wildcardQuery (field value : String)
  | matchAllDocsQuery
  | longRangeQuery (field : String) (min max : Int64)
  | doubleRangeQuery (field : String) (min max : Double)
deriving DecidableEq

def LeafQuery.matches (d : Document) : LeafQuery → Bool
  | .termQuery field value => d.hasTerm field value
  | .phraseQuery field tokens =>
      !tokens.isEmpty && (d.terms field).any fun p => d.hasPhrase field p.1 tokens
  | .prefixQuery field value =>
      (d.terms field).any fun p => value.toList.isPrefixOf p.2.toList
  | .wildcardQuery field value =>
      (d.terms field).any fun p => wildcardAccepts value.toList p.2.toList
  | .matchAllDocsQuery => true
  | .longRangeQuery field min max => (d.longs field).any fun x => min ≤ x && x ≤ max
  | .doubleRangeQuery field min max => (d.doubles field).any fun x => min ≤ x && x ≤ max

/-- A Lucene query. A leaf keeps the term that it was built from, so that truth
values can be given to the terms of a query. `BooleanClause.Occur` has the same
members as `Occurance`. -/
inductive LuceneQuery where
  | leaf (term : QueryTerm) (query : LeafQuery)
  | termInSetQuery (field : String) (values : List String)
  | booleanQuery (clauses : List (Occurance × LuceneQuery))

/-- How the atoms of a query are read. -/
structure Reading where
  term : QueryTerm → LeafQuery → Bool
  inSet : String → List String → Bool

/-- On an indexed document: what the leaves match. -/
def Reading.ofDocument (d : Document) : Reading where
  term _ q := q.matches d
  inSet field values := values.any (d.hasTerm field)

/-- `BooleanQuery`: all `MUST` clauses match, no `MUST_NOT` clause does, and if
there is no `MUST` clause then a `SHOULD` clause matches. So a list of negative
clauses matches nothing. -/
def booleanMatches (clauses : List (Occurance × Bool)) : Bool :=
  clauses.all (fun c => c.1 ≠ .mustOccur || c.2) &&
    clauses.all (fun c => c.1 ≠ .mustNotOccur || !c.2) &&
      (clauses.any (fun c => c.1 = .mustOccur) || clauses.any fun c => c.1 = .shouldOccur && c.2)

mutual

def LuceneQuery.holds (r : Reading) : LuceneQuery → Bool
  | .leaf t q => r.term t q
  | .termInSetQuery field values => r.inSet field values
  | .booleanQuery clauses => booleanMatches (holdsAll r clauses)

def holdsAll (r : Reading) : List (Occurance × LuceneQuery) → List (Occurance × Bool)
  | [] => []
  | c :: clauses => holdsClause r c :: holdsAll r clauses

def holdsClause (r : Reading) : Occurance × LuceneQuery → Occurance × Bool
  | (o, q) => (o, q.holds r)

end

def LuceneQuery.matches (d : Document) (q : LuceneQuery) : Bool := q.holds (.ofDocument d)

/-! ## Boolean queries -/

section

variable {ι : Type*} {cs : List ι} {o : ι → Occurance} {h : ι → Bool}

/-- The boolean query over a family of clauses. -/
theorem booleanMatches_map :
    booleanMatches (cs.map fun i => (o i, h i)) = true ↔
      (∀ i ∈ cs, o i = .mustOccur → h i = true) ∧
        (∀ i ∈ cs, o i = .mustNotOccur → h i = false) ∧
          ((∃ i ∈ cs, o i = .mustOccur) ∨ ∃ i ∈ cs, o i = .shouldOccur ∧ h i = true) := by
  simp only [booleanMatches, Bool.and_eq_true, Bool.or_eq_true, List.all_eq_true,
    List.any_eq_true, List.mem_map, decide_eq_true_eq, Bool.not_eq_true', ne_eq,
    ← imp_iff_not_or, and_assoc, exists_exists_and_eq_and, decide_not,
    decide_eq_false_iff_not, forall_exists_index, and_imp, forall_apply_eq_imp_iff₂]

/-- Of `SHOULD` clauses only. -/
theorem booleanMatches_should (hall : ∀ i ∈ cs, o i = .shouldOccur) :
    booleanMatches (cs.map fun i => (o i, h i)) = true ↔ ∃ i ∈ cs, h i = true := by
  rw [booleanMatches_map]
  constructor
  · rintro ⟨-, -, ⟨i, hi, hmust⟩ | ⟨i, hi, -, hmatch⟩⟩
    · rw [hall i hi] at hmust
      cases hmust
    · exact ⟨i, hi, hmatch⟩
  · rintro ⟨i, hi, hmatch⟩
    refine ⟨fun j hj hmust => ?_, fun j hj hnot => ?_, Or.inr ⟨i, hi, hall i hi, hmatch⟩⟩
    · rw [hall j hj] at hmust
      cases hmust
    · rw [hall j hj] at hnot
      cases hnot

/-- With a `MUST` clause. -/
theorem booleanMatches_must (hmust : ∃ i ∈ cs, o i = .mustOccur) :
    booleanMatches (cs.map fun i => (o i, h i)) = true ↔
      (∀ i ∈ cs, o i = .mustOccur → h i = true) ∧
        ∀ i ∈ cs, o i = .mustNotOccur → h i = false := by
  rw [booleanMatches_map]
  constructor
  · rintro ⟨hm, hn, -⟩
    exact ⟨hm, hn⟩
  · rintro ⟨hm, hn⟩
    exact ⟨hm, hn, Or.inl hmust⟩

/-- Nothing is matched if nothing is true. -/
theorem booleanMatches_false (hall : ∀ i ∈ cs, h i = false) :
    booleanMatches (cs.map fun i => (o i, h i)) = false := by
  rw [Bool.eq_false_iff, ne_eq, booleanMatches_map]
  rintro ⟨hm, -, ⟨i, hi, hmust⟩ | ⟨i, hi, -, hmatch⟩⟩
  · have := hm i hi hmust
    simp [hall i hi] at this
  · simp [hall i hi] at hmatch

end

end Xenon.Lucene

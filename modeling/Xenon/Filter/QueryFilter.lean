import Mathlib.Data.List.Basic
import Mathlib.Tactic
import Xenon.Foundation.Disjoint

/-!
# Query filters

A `QueryTask.Query` is a term or a list of clauses, each with an occurance.
`QueryFilter.createDisjunctiveNormalForm` turns it into a disjunction of
conjunctions of possibly negated terms. Terms are opaque: a document is what
makes each of them true or false.
-/

namespace Xenon.Filter

open Xenon.Foundation

universe u

/-! ## The datatype -/

/-- `QueryTask.Query.Occurance`. -/
inductive Occurance where
  | mustOccur | mustNotOccur | shouldOccur
deriving DecidableEq

mutual

/-- `QueryTask.Query`; `booleanClauses` is not empty. -/
inductive Query (τ : Type u) where
  | term (occurance : Option Occurance) (term : τ)
  | clauses (occurance : Option Occurance) (booleanClauses : Clauses τ)

/-- A nonempty list of clauses. -/
inductive Clauses (τ : Type u) where
  | one (clause : Query τ)
  | cons (clause : Query τ) (rest : Clauses τ)

end

variable {τ : Type u}

def Query.occurance : Query τ → Option Occurance
  | .term o _ => o
  | .clauses o _ => o

/-- A missing occurance means `MUST_OCCUR`. -/
def Query.effective (q : Query τ) : Occurance := q.occurance.getD .mustOccur

def Clauses.toList : Clauses τ → List (Query τ)
  | .one q => [q]
  | .cons q qs => q :: qs.toList

/-- `QueryFilter.Term`: a term and whether it is negated. -/
structure Term (τ : Type*) where
  term : τ
  negate : Bool
deriving DecidableEq

/-- `QueryFilter.Conjunction`: its terms, the last one added first. -/
abbrev Conjunction (τ : Type*) := List (Term τ)

/-! ## `createDisjunctiveNormalForm` -/

/-- Add a term to every prefix. -/
def addTerm (t : Term τ) (prefixes : List (Conjunction τ)) : List (Conjunction τ) :=
  if prefixes.isEmpty then [[t]] else prefixes.map (t :: ·)

/-- The first loop: whether a clause is expanded there, and with which
negation. -/
def expandWith (o : Occurance) (negate : Bool) : Option Bool :=
  match o, negate with
  | .mustOccur, false => some false
  | .mustNotOccur, false => some true
  | .shouldOccur, true => some false
  | _, _ => none

/-- The second loop: the negation a clause is expanded with. -/
def negateClause (q : Query τ) (negate : Bool) : Bool :=
  if q.occurance = some .mustNotOccur then false else negate

/-- `mustClauses` after the first loop. -/
def Clauses.mustClauses (qs : Clauses τ) : Nat :=
  qs.toList.countP fun q => q.effective ≠ .shouldOccur

def Clauses.shouldClauses (qs : Clauses τ) : Nat :=
  qs.toList.countP fun q => q.effective = .shouldOccur

/-- The set of clauses is a disjunction. -/
def Clauses.isDisjunction (qs : Clauses τ) (negate : Bool) : Bool :=
  (negate && qs.mustClauses = qs.toList.length) ||
    (!negate && qs.shouldClauses = qs.toList.length)

mutual

def Query.dnf : Query τ → List (Conjunction τ) → Bool → List (Conjunction τ)
  | .term _ t, prefixes, negate => addTerm ⟨t, negate⟩ prefixes
  | .clauses _ qs, prefixes, negate =>
      let prefixes := qs.loop prefixes negate
      if qs.isDisjunction negate then qs.expand prefixes negate else prefixes

/-- The first loop over the clauses. -/
def Clauses.loop : Clauses τ → List (Conjunction τ) → Bool → List (Conjunction τ)
  | .one q, prefixes, negate =>
      match expandWith q.effective negate with
      | some n => q.dnf prefixes n
      | none => prefixes
  | .cons q qs, prefixes, negate =>
      qs.loop
        (match expandWith q.effective negate with
        | some n => q.dnf prefixes n
        | none => prefixes) negate

/-- The second loop: one copy of the original prefixes for every clause. -/
def Clauses.expand : Clauses τ → List (Conjunction τ) → Bool → List (Conjunction τ)
  | .one q, originalPrefixes, negate => q.dnf originalPrefixes (negateClause q negate)
  | .cons q qs, originalPrefixes, negate =>
      q.dnf originalPrefixes (negateClause q negate) ++ qs.expand originalPrefixes negate

end

def createDisjunctiveNormalForm (q : Query τ) : List (Conjunction τ) := q.dnf [] false

/-! ## The meaning of a filter and of a query -/

/-- A term holds if its value is not the negated one. -/
def Term.holds (v : τ → Bool) (t : Term τ) : Bool := v t.term ^^ t.negate

def Conjunction.holds (v : τ → Bool) (c : Conjunction τ) : Bool := c.all (Term.holds v)

/-- The disjunction of conjunctions. -/
def disjunctionHolds (v : τ → Bool) (cs : List (Conjunction τ)) : Bool :=
  cs.any (Conjunction.holds v)

mutual

/-- The meaning of a query: a list with a `MUST` or `MUST_NOT` clause is the
conjunction of these, any other list is a disjunction. -/
def Query.eval (v : τ → Bool) : Query τ → Bool
  | .term _ t => v t
  | .clauses _ qs =>
      if qs.mustClauses = 0 then qs.evalShould v else qs.evalMust v

def Clauses.evalShould (v : τ → Bool) : Clauses τ → Bool
  | .one q => q.eval v
  | .cons q qs => q.eval v || qs.evalShould v

def Clauses.evalMust (v : τ → Bool) : Clauses τ → Bool
  | .one q =>
      match q.effective with
      | .mustOccur => q.eval v
      | .mustNotOccur => !q.eval v
      | .shouldOccur => true
  | .cons q qs =>
      (match q.effective with
      | .mustOccur => q.eval v
      | .mustNotOccur => !q.eval v
      | .shouldOccur => true) && qs.evalMust v

end

end Xenon.Filter

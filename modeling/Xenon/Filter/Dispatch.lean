import Mathlib.Data.List.Sort
import Xenon.Filter.Evaluator

/-!
# The dispatch tree

`DisjunctionEvaluator.create` peels equality terms off the conjunctions of a
normal form and puts the conjunctions into tables by the value of the term. The
conjunctions are objects: peeling a term off sets a flag in the `skip` array of
the object, and every list that holds the object sees it. So objects have an
identity here, and the `skip` arrays live in a heap.
-/

namespace Xenon.Filter

open Xenon.QueryTask

/-! ## The normal form, with its objects -/

/-- A `Conjunction` object. -/
structure Conj where
  id : Nat
  terms : List (Term QueryTerm)
deriving DecidableEq

/-- A term is added to every prefix; each extended conjunction is a new object.
`n` is the identity of the next one. -/
def addTermObjects (t : Term QueryTerm) (prefixes : List Conj) (n : Nat) : List Conj × Nat :=
  if prefixes.isEmpty then ([⟨n, [t]⟩], n + 1)
  else (prefixes.mapIdx fun i c => ⟨n + i, c.terms ++ [t]⟩, n + prefixes.length)

/-- The clauses are a disjunction. -/
def isDisjunctionOf (qs : List QueryTask.Query) (negate : Bool) : Bool :=
  (negate && qs.countP (·.effective ≠ .shouldOccur) = qs.length) ||
    (!negate && qs.countP (·.effective = .shouldOccur) = qs.length)

mutual

/-- `createDisjunctiveNormalForm(q, prefixes, negate)`. -/
def dnfObjects : QueryTask.Query → List Conj → Bool → Nat → Except Failure (List Conj × Nat)
  | .mk _ (some t) _, prefixes, negate, n => do
      let t ← newTerm t negate
      return addTermObjects t prefixes n
  | .mk _ none qs, prefixes, negate, n => dnfClauses qs prefixes negate n

def dnfClauses : Option (List QueryTask.Query) → List Conj → Bool → Nat →
    Except Failure (List Conj × Nat)
  | none, _, _, _ => .error .nullPointer
  | some qs, prefixes, negate, n => do
      let (prefixes, n) ← dnfLoop qs prefixes negate n
      if isDisjunctionOf qs negate then dnfExpand qs prefixes negate n
      else return (prefixes, n)

/-- The first loop over the clauses. -/
def dnfLoop : List QueryTask.Query → List Conj → Bool → Nat →
    Except Failure (List Conj × Nat)
  | [], prefixes, _, n => return (prefixes, n)
  | q :: qs, prefixes, negate, n =>
      match expandWith q.effective negate with
      | none => dnfLoop qs prefixes negate n
      | some m => do
          let (prefixes, n) ← dnfObjects q prefixes m n
          dnfLoop qs prefixes negate n

/-- The second loop over the clauses. -/
def dnfExpand : List QueryTask.Query → List Conj → Bool → Nat →
    Except Failure (List Conj × Nat)
  | [], _, _, n => return ([], n)
  | q :: qs, originalPrefixes, negate, n => do
      let m := if q.occurance = some .mustNotOccur then false else negate
      let (clausePrefixes, n) ← dnfObjects q originalPrefixes m n
      let (prefixes, n) ← dnfExpand qs originalPrefixes negate n
      return (clausePrefixes ++ prefixes, n)

end

/-- `QueryFilter.createDisjunctiveNormalForm(q)`. -/
def createObjects (q : QueryTask.Query) : Except Failure (List Conj) := do
  return (← dnfObjects q [] false 0).1

/-! ## `skip` arrays -/

/-- The `skip` field of every conjunction object. -/
abbrev Heap := Nat → Option (List Bool)

/-- The terms that an iterator over a conjunction returns. -/
def unskipped : List (Term QueryTerm) → List Bool → List (Term QueryTerm)
  | t :: ts, b :: bs => if b then unskipped ts bs else t :: unskipped ts bs
  | ts, _ => ts

/-- `Conjunction.iterator`. -/
def Heap.iterate (h : Heap) (c : Conj) : List (Term QueryTerm) :=
  match h c.id with
  | none => c.terms
  | some skip => unskipped c.terms skip

/-- The loop of `skipTerm`. -/
def markTerm (t : Term QueryTerm) : List (Term QueryTerm) → List Bool → List Bool
  | u :: us, b :: bs => if b = false ∧ u = t then true :: bs else b :: markTerm t us bs
  | _, bs => bs

/-- `Conjunction.skipTerm`. -/
def Heap.skipTerm (h : Heap) (c : Conj) (t : Term QueryTerm) : Heap :=
  Function.update h c.id
    (some (markTerm t c.terms ((h c.id).getD (List.replicate c.terms.length false))))

/-! ## Building the tree -/

/-- `isTermEligibleForDispatch`. -/
def isTermEligibleForDispatch (t : Term QueryTerm) : Bool :=
  !t.negate && t.term.matchType = some .term && t.propertyParts.length ≤ 1

/-- An evaluator. The keys of a dispatch table can be `null`. -/
inductive Evaluator where
  | static (value : Bool)
  | conjunction (terms : List (Term QueryTerm))
  | disjunction (evaluators : List Evaluator)
  | dispatch (propertyName : String) (table : List (Option String × Evaluator))

/-- `ConjunctionEvaluator.create`. -/
def createConjunction (terms : List (Term QueryTerm)) : Except Failure Evaluator :=
  match terms.find? fun t => t.term.range = none && t.term.matchType ≠ some .term &&
      t.term.matchType ≠ some .wildcard && t.term.matchType ≠ some .prefixMatch with
  | some t => .error (.unsupportedMatchType (match t.term.matchType with
      | some .phrase => "Unsupported matchType: PHRASE"
      | _ => "Unsupported matchType: null"))
  | none => .ok (if terms.isEmpty then .static true else .conjunction terms)

/-- The iteration order of the hash maps, which is not specified. -/
structure HashOrder where
  values : List (String × Nat) → List (String × Nat)
  entrySet : List (Option String × List Conj) → List (Option String × List Conj)
  values_perm : ∀ l, (values l).Perm l
  entrySet_perm : ∀ l, (entrySet l).Perm l

/-- Count one more use of a property. -/
def addElem (name : String) : List (String × Nat) → List (String × Nat)
  | [] => [(name, 1)]
  | (n, count) :: l => if n = name then (n, count + 1) :: l else (n, count) :: addElem name l

/-- The property names of the terms that can be dispatched on. -/
def eligibleNames (h : Heap) (dnf : List Conj) : List String :=
  dnf.flatMap fun c => ((h.iterate c).filter isTermEligibleForDispatch).map Term.name

/-- `findTopPropertyForDispatch`: the last one in a stable sort by count. -/
def findTopPropertyForDispatch (o : HashOrder) (h : Heap) (dnf : List Conj) :
    Option String :=
  let elements := o.values ((eligibleNames h dnf).foldl (fun l n => addElem n l) [])
  ((elements.mergeSort fun a b => a.2 ≤ b.2).getLast?).map (·.1)

/-- Put a conjunction into the table. -/
def addEntry (key : Option String) (c : Conj) :
    List (Option String × List Conj) → List (Option String × List Conj)
  | [] => [(key, [c])]
  | (k, cs) :: table =>
      if k = key then (k, cs ++ [c]) :: table else (k, cs) :: addEntry key c table

/-- The term of a conjunction that a dispatch on `propertyName` uses. -/
def dispatchTerm (propertyName : String) (terms : List (Term QueryTerm)) :
    Option (Term QueryTerm) :=
  terms.find? fun t => isTermEligibleForDispatch t && t.name = propertyName

/-- The first loop of `DispatchEvaluator.create`: the table, and the conjunctions
that it does not handle. -/
def bucket (propertyName : String) : List Conj → Heap → List (Option String × List Conj) →
    List Conj → Heap × List (Option String × List Conj) × List Conj
  | [], h, table, unhandled => (h, table, unhandled)
  | c :: dnf, h, table, unhandled =>
      match dispatchTerm propertyName (h.iterate c) with
      | none => bucket propertyName dnf h table (unhandled ++ [c])
      | some t =>
          bucket propertyName dnf (h.skipTerm c t) (addEntry t.term.matchValue c table) unhandled

/-- Build the evaluators of a dispatch table one after the other. -/
def createTable (create : Heap → List Conj → Except Failure (List Evaluator × Heap)) :
    List (Option String × List Conj) → Heap →
      Except Failure (List (Option String × Evaluator) × Heap)
  | [], h => return ([], h)
  | (key, cs) :: table, h => do
      let (es, h) ← create h cs
      let (rest, h) ← createTable create table h
      return ((key, .disjunction es) :: rest, h)

/-- The evaluators that `DisjunctionEvaluator.create` collects: a dispatch
evaluator as long as there is a property to dispatch on, then one evaluator for
every conjunction that is left. -/
def createEvaluators (o : HashOrder) : Nat → Heap → List Conj →
    Except Failure (List Evaluator × Heap)
  | 0, _, _ => .error .outOfFuel
  | fuel + 1, h, dnf =>
      match findTopPropertyForDispatch o h dnf with
      | none => do
          let es ← dnf.mapM fun c => createConjunction (h.iterate c)
          return (es, h)
      | some key => do
          let (h, table, unhandled) := bucket key dnf h [] []
          let (table, h) ← createTable (createEvaluators o fuel) (o.entrySet table) h
          let (es, h) ← createEvaluators o fuel h unhandled
          return (.dispatch key table :: es, h)

/-- `DisjunctionEvaluator.create`; no object has a `skip` array yet. -/
def createDisjunction (o : HashOrder) (fuel : Nat) (dnf : List Conj) :
    Except Failure Evaluator := do
  return .disjunction (← createEvaluators o fuel (fun _ => none) dnf).1

/-! ## Running it -/

mutual

/-- `Evaluator.evaluate`. -/
def Evaluator.evaluate (d : Described) : Evaluator → Except Failure Bool
  | .static value => .ok value
  | .conjunction terms => checkTerms d terms
  | .disjunction es => anyEvaluates d es
  | .dispatch propertyName table =>
      match d.propertyDescriptions propertyName with
      | none => .ok false
      | some pd =>
          match toMatchValue (getPropertyValue pd d.document) with
          | none => .ok false
          | some matchAs => evaluateEntry d matchAs table

def anyEvaluates (d : Described) : List Evaluator → Except Failure Bool
  | [] => .ok false
  | e :: es => do if ← e.evaluate d then return true else anyEvaluates d es

/-- Look a value up in a dispatch table and defer to its evaluator. -/
def evaluateEntry (d : Described) (matchAs : String) :
    List (Option String × Evaluator) → Except Failure Bool
  | [] => .ok false
  | entry :: table =>
      if entry.1 = some matchAs then evaluateSnd d entry else evaluateEntry d matchAs table

def evaluateSnd (d : Described) : Option String × Evaluator → Except Failure Bool
  | (_, e) => e.evaluate d

end

end Xenon.Filter

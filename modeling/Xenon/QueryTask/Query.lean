import Mathlib.Data.List.Basic
import Xenon.Filter.QueryFilter

/-!
# Query tasks

`QueryTask.Query` as a user can send it: nothing keeps `term` and
`booleanClauses` from being both set or both missing, nor a term from lacking
its property name or its match value. The converter to Lucene, the filter and
the OData visitor each check some of this.
-/

namespace Xenon.QueryTask

open Xenon.Filter (Occurance)

/-- What a Java method can throw here. -/
inductive Failure where
  | illegalArgument (message : String)
  | unsupportedMatchType (message : String)
  | nullPointer
  | classCast
  | arithmetic
  | numberFormat
  | indexOutOfBounds
  | noSuchElement
  | tooManyClauses
  | stackOverflow
  /-- The model's recursion was given too little fuel. -/
  | outOfFuel
deriving DecidableEq

/-- `ServiceDocumentDescription.TypeName`. -/
inductive TypeName where
  | long | string | bytes | podo | collection | map | boolean | double
  | internetAddressV4 | internetAddressV6 | date | uri | enum
deriving DecidableEq

/-- `QueryTerm.MatchType`. -/
inductive MatchType where
  | wildcard | term | phrase | prefixMatch
deriving DecidableEq

/-! ## Numbers -/

/-- A `double` other than NaN, by its place in the order of `Double.compareTo`: the
ones with a positive sign are counted by their bits from `0.0` on, the ones with a
negative sign are mirrored, from `-0.0` on down. -/
structure Double where
  ordinal : Int
deriving DecidableEq

namespace Double

instance : LT Double := ⟨fun a b => a.ordinal < b.ordinal⟩
instance : LE Double := ⟨fun a b => a.ordinal ≤ b.ordinal⟩

instance (a b : Double) : Decidable (a < b) :=
  inferInstanceAs (Decidable (a.ordinal < b.ordinal))
instance (a b : Double) : Decidable (a ≤ b) :=
  inferInstanceAs (Decidable (a.ordinal ≤ b.ordinal))

theorem le_def {a b : Double} : a ≤ b ↔ a.ordinal ≤ b.ordinal := Iff.rfl

theorem lt_def {a b : Double} : a < b ↔ a.ordinal < b.ordinal := Iff.rfl

theorem ordinal_inj {a b : Double} : a.ordinal = b.ordinal ↔ a = b := by
  cases a
  cases b
  rw [Double.mk.injEq]

/-- The place in the order of the values, which the operators of Java compare: both
zeros have one. -/
def rank (d : Double) : Int := if d.ordinal < 0 then d.ordinal + 1 else d.ordinal

theorem rank_natCast (n : Nat) : (⟨n⟩ : Double).rank = n := by
  rw [rank, if_neg]
  exact Int.not_lt.mpr (Int.natCast_nonneg n)

theorem rank_spec (d : Double) :
    (d.ordinal < 0 ∧ d.rank = d.ordinal + 1) ∨ (0 ≤ d.ordinal ∧ d.rank = d.ordinal) := by
  unfold rank
  split <;> omega

theorem lt_of_rank_lt {a b : Double} (h : a.rank < b.rank) : a < b := by
  have ha := a.rank_spec
  have hb := b.rank_spec
  rw [lt_def]
  omega

/-- A value other than zero is one double. -/
theorem rank_inj {a b : Double} (hb : b.rank ≠ 0) : a.rank = b.rank ↔ a = b := by
  have ha' := a.rank_spec
  have hb' := b.rank_spec
  rw [← ordinal_inj]
  omega

/-- `Double.MIN_VALUE`: the smallest positive one. -/
def minValue : Double := ⟨1⟩

/-- `Double.MAX_VALUE`. -/
def maxValue : Double := ⟨0x7fefffffffffffff⟩

def positiveInfinity : Double := ⟨0x7ff0000000000000⟩

def negativeInfinity : Double := ⟨-1 - 0x7ff0000000000000⟩

/-- `Math.nextUp`; what comes after the zeros comes after both. -/
def nextUp (d : Double) : Double :=
  if d.rank < positiveInfinity.rank then
    if d.rank = 0 then minValue else ⟨d.ordinal + 1⟩
  else d

/-- `Math.nextDown`. -/
def nextDown (d : Double) : Double :=
  if negativeInfinity.rank < d.rank then
    if d.rank = 0 then ⟨-2⟩ else ⟨d.ordinal - 1⟩
  else d

end Double

/-- A `java.lang.Number`: a `Double` or a `Long`, and its two views. -/
structure Number where
  isDouble : Bool
  longValue : Int64
  doubleValue : Double
deriving DecidableEq

/-- `compareTo`, between numbers of one class. -/
def Number.compareTo (a b : Number) : Except Failure Ordering :=
  if a.isDouble = b.isDouble then
    if a.isDouble then .ok (compare a.doubleValue.ordinal b.doubleValue.ordinal)
    else .ok (compare a.longValue.toInt b.longValue.toInt)
  else .error .classCast

/-- `QueryTask.NumericRange`. -/
structure NumericRange where
  type : Option TypeName
  min : Option Number
  max : Option Number
  isMinInclusive : Bool
  isMaxInclusive : Bool
deriving DecidableEq

/-- `NumericRange.validate`. Its third check repeats the second one from the
other side. -/
def NumericRange.validate (r : NumericRange) : Except Failure Unit := do
  if r.max = none ∧ r.min = none then
    throw (.illegalArgument "max and min can not both be null")
  match r.max, r.min with
  | some max, some min =>
      if (← max.compareTo min) = .lt then
        throw (.illegalArgument "max must be greater than min")
      if (← min.compareTo max) = .gt then
        throw (.illegalArgument "max must be greater than min")
  | _, _ => pure ()
  if r.type = none then
    throw (.illegalArgument "type must be specified")

/-! ## Terms and queries -/

/-- `QueryTask.QueryTerm`, less `propertyType` and `sortOrder`, which only sorting
reads. -/
structure QueryTerm where
  propertyName : Option String
  matchValue : Option String
  matchType : Option MatchType
  range : Option NumericRange
deriving DecidableEq

/-- `QueryTask.Query`. -/
inductive Query where
  | mk (occurance : Option Occurance) (term : Option QueryTerm)
      (booleanClauses : Option (List Query))

namespace Query

def occurance : Query → Option Occurance
  | .mk o _ _ => o

def term : Query → Option QueryTerm
  | .mk _ t _ => t

def booleanClauses : Query → Option (List Query)
  | .mk _ _ qs => qs

/-- A missing occurance is set to `MUST_OCCUR` before it is looked at. -/
def effective (q : Query) : Occurance := q.occurance.getD .mustOccur

def ofTerm (o : Option Occurance) (t : QueryTerm) : Query := .mk o (some t) none

def ofClauses (o : Option Occurance) (qs : List Query) : Query := .mk o none (some qs)

/-- `addBooleanClause`: a query without clauses loses its term. -/
def addBooleanClause : Query → Query → Query
  | .mk o _ none, clause => .mk o none (some [clause])
  | .mk o t (some qs), clause => .mk o t (some (qs ++ [clause]))

@[simp] theorem occurance_mk (o t qs) : (Query.mk o t qs).occurance = o := rfl
@[simp] theorem term_mk (o t qs) : (Query.mk o t qs).term = t := rfl
@[simp] theorem booleanClauses_mk (o t qs) : (Query.mk o t qs).booleanClauses = qs := rfl

/-- Induction over queries: a property holds of a query whenever it holds of all
its clauses. -/
theorem ofAll {P : Query → Prop}
    (h : ∀ o t qs, (∀ q ∈ qs.getD [], P q) → P (.mk o t qs)) (q : Query) : P q := by
  refine @Query.rec P (fun qs => ∀ q ∈ qs.getD [], P q) (fun qs => ∀ q ∈ qs, P q)
    (fun o t qs ih => h o t qs ih) (by simp) (fun qs ih => ih) (by simp) ?_ q
  intro q qs hq hqs q' hq'
  rcases List.mem_cons.mp hq' with rfl | hq'
  · exact hq
  · exact hqs q' hq'

mutual

/-- The terms of a query, from left to right. -/
def terms : Query → List QueryTerm
  | .mk _ t qs => t.toList ++ termsOf qs

def termsOf : Option (List Query) → List QueryTerm
  | none => []
  | some qs => termsAll qs

def termsAll : List Query → List QueryTerm
  | [] => []
  | q :: qs => q.terms ++ termsAll qs

end

theorem termsAll_eq (qs : List Query) : termsAll qs = qs.flatMap terms := by
  induction qs with
  | nil => rfl
  | cons q qs ih => rw [termsAll, ih, List.flatMap_cons]

theorem terms_mk (o : Option Occurance) (t : Option QueryTerm) (qs : Option (List Query)) :
    (Query.mk o t qs).terms = t.toList ++ (qs.getD []).flatMap terms := by
  cases qs with
  | none => rfl
  | some qs => rw [terms, termsOf, termsAll_eq, Option.getD_some]

/-- The terms of a clause are terms of the query. -/
theorem terms_subset {o : Option Occurance} {t : Option QueryTerm} {qs : List Query} {q : Query}
    (hq : q ∈ qs) : q.terms ⊆ (Query.mk o t (some qs)).terms := by
  intro u hu
  rw [terms_mk]
  exact List.mem_append_right _ (List.mem_flatMap.mpr ⟨q, hq, hu⟩)

end Query

end Xenon.QueryTask

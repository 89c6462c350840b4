import Mathlib.Data.Finset.Insert
import Mathlib.Data.List.DropRight
import Xenon.Foundation.Run
import Xenon.Lucene.Query

/-!
# `LuceneQueryConverter`

The conversion of a query to a Lucene query. It collects the document kinds that
it meets in the context of the query, and it turns a long list of `SHOULD`
terms on one property into one query for the set of their values.
-/

namespace Xenon.Lucene

open Xenon.Foundation
open Xenon.Filter (Occurance)
open Xenon.QueryTask

/-- `ServiceDocument.FIELD_NAME_KIND`. -/
def fieldNameKind : String := "documentKind"

/-- `ServiceDocument.FIELD_NAME_SELF_LINK`. -/
def fieldNameSelfLink : String := "documentSelfLink"

/-- `QueryRuntimeContext`, less what the conversion does not use. -/
structure QueryRuntimeContext where
  kindScope : Option (Finset (Option String))
deriving DecidableEq

/-! ## Terms -/

/-- `validateTerm`. -/
def validateTerm (t : QueryTerm) : Except Failure Unit := do
  if t.range = none ∧ t.matchValue = none then
    throw (.illegalArgument "One of term.matchValue, term.range is required")
  if t.range ≠ none ∧ t.matchValue ≠ none then
    throw (.illegalArgument "term.matchValue and term.range are exclusive of each other")
  if t.propertyName = none then
    throw (.illegalArgument "term.propertyName is required")

/-- The name of an enumeration constant. -/
def typeNameText : TypeName → String
  | .long => "LONG" | .string => "STRING" | .bytes => "BYTES" | .podo => "PODO"
  | .collection => "COLLECTION" | .map => "MAP" | .boolean => "BOOLEAN" | .double => "DOUBLE"
  | .internetAddressV4 => "InternetAddressV4" | .internetAddressV6 => "InternetAddressV6"
  | .date => "DATE" | .uri => "URI" | .enum => "ENUM"

/-- `createLongRangeQuery`; `Math.addExact` throws where the sum overflows. -/
def createLongRangeQuery (propertyName : String) (r : NumericRange) : Except Failure LeafQuery := do
  let mut min := (r.min.map (·.longValue)).getD Int64.minValue
  let mut max := (r.max.map (·.longValue)).getD Int64.maxValue
  if !r.isMinInclusive then
    if min = Int64.maxValue then throw .arithmetic
    min := min + 1
  if !r.isMaxInclusive then
    if max = Int64.minValue then throw .arithmetic
    max := max - 1
  return .longRangeQuery propertyName min max

/-- `createDoubleRangeQuery`. -/
def createDoubleRangeQuery (propertyName : String) (r : NumericRange) : LeafQuery :=
  let min := (r.min.map (·.doubleValue)).getD .negativeInfinity
  let max := (r.max.map (·.doubleValue)).getD .positiveInfinity
  .doubleRangeQuery propertyName (if r.isMinInclusive then min else min.nextUp)
    (if r.isMaxInclusive then max else max.nextDown)

/-- `convertToLuceneNumericRangeQuery`. -/
def convertToLuceneNumericRangeQuery (propertyName : String) (r : NumericRange) :
    Except Failure LeafQuery := do
  r.validate
  match r.type with
  | some .long | some .date => createLongRangeQuery propertyName r
  | some .double => return createDoubleRangeQuery propertyName r
  | some type => throw (.illegalArgument ("Type is not supported:" ++ typeNameText type))
  | none => throw (.illegalArgument "Type is not supported:null")

/-- What `\W` does not match in a regular expression. -/
def isWordCharacter (c : Char) : Bool := c.isAlphanum || c = '_'

/-- `matchValue.split("\\W")`. -/
def phraseTokens (s : String) : List String :=
  if s.toList.all isWordCharacter then [s]
  else ((s.toList.splitOnP fun c => !isWordCharacter c).rdropWhile (·.isEmpty)).map String.ofList

/-- `convertToLuceneWildcardTermQuery`. -/
def convertToLuceneWildcardTermQuery (propertyName matchValue : String) : LeafQuery :=
  if propertyName = fieldNameSelfLink ∧ matchValue = "*" then .matchAllDocsQuery
  else .wildcardQuery propertyName matchValue

/-- `convertToLucenePrefixQuery`. -/
def convertToLucenePrefixQuery (propertyName matchValue : String) : LeafQuery :=
  if propertyName = fieldNameSelfLink ∧ matchValue = "/" then .matchAllDocsQuery
  else .prefixQuery propertyName matchValue

/-- The part of `convertToLuceneQuery` that converts a term. A missing match type is
set to `TERM`. -/
def convertTerm (t : QueryTerm) : Except Failure LeafQuery := do
  validateTerm t
  let propertyName := t.propertyName.getD ""
  let matchValue := t.matchValue.getD ""
  match t.range with
  | some r => convertToLuceneNumericRangeQuery propertyName r
  | none => return match t.matchType.getD .term with
      | .wildcard => convertToLuceneWildcardTermQuery propertyName matchValue
      | .phrase => .phraseQuery propertyName (phraseTokens matchValue)
      | .prefixMatch => convertToLucenePrefixQuery propertyName matchValue
      | .term => .termQuery propertyName matchValue

/-- Record the document kind of a term, if there is a context. -/
def addKind (o : Option Occurance) (t : QueryTerm) (context : Option QueryRuntimeContext) :
    Option QueryRuntimeContext :=
  if o ≠ some .mustNotOccur ∧ t.propertyName = some fieldNameKind then
    context.map fun c => ⟨some (insert t.matchValue (c.kindScope.getD ∅))⟩
  else context

/-! ## Lists of clauses -/

/-- `BOOLEAN_REWRITE_TERM_COUNT_THRESHOLD`. -/
def booleanRewriteTermCountThreshold : Nat := 16

/-- The loop that looks for a set of values: `none` if the clauses are no such
set. -/
def termInSetLoop : List Query → Option String → List String →
    Except Failure (Option (Option String × List String))
  | [], termKey, termList => .ok (some (termKey, termList))
  | q :: qs, termKey, termList =>
      match q.term with
      | none => .ok none
      | some t =>
          if q.occurance ≠ some .shouldOccur ∨
              (termKey ≠ none ∧ termKey ≠ t.propertyName) then .ok none
          else match t.matchValue with
            | none => .error .nullPointer
            | some value =>
                termInSetLoop qs (termKey.or t.propertyName) (termList ++ [value])

/-- A `TermInSetQuery` needs a field. -/
def newTermInSet : Option (Option String × List String) →
    Except Failure (Option (String × List String))
  | none => .ok none
  | some (none, _) => .error .nullPointer
  | some (some field, values) => .ok (some (field, values))

/-- The decision whether a list of clauses becomes a `TermInSetQuery`. -/
def termInSet (maxClauseCount : Nat) (qs : List Query) :
    Except Failure (Option (String × List String)) :=
  if min booleanRewriteTermCountThreshold maxClauseCount ≤ qs.length then
    termInSetLoop qs none [] >>= newTermInSet
  else .ok none

/-- `convertToLuceneOccur`. -/
def convertToLuceneOccur (o : Option Occurance) : Occurance := o.getD .mustOccur

/-- `BooleanQuery.Builder.add`, to a builder with `n` clauses. -/
def checkClauseCount (maxClauseCount n : Nat) : Except Failure Unit :=
  if maxClauseCount ≤ n then .error .tooManyClauses else .ok ()

mutual

/-- `convertToLuceneQuery`. -/
def convertToLuceneQuery (maxClauseCount : Nat) : Query → Option QueryRuntimeContext →
    Except Failure (LuceneQuery × Option QueryRuntimeContext)
  | .mk _ (some _) (some _), _ =>
      .error (.illegalArgument "term and booleanClauses are mutually exclusive")
  | .mk o (some t) none, context => do
      let q ← convertTerm t
      return (.leaf t q, addKind o t context)
  | .mk _ none qs, context => convertToLuceneBooleanQuery maxClauseCount qs context

/-- `convertToLuceneBooleanQuery`. -/
def convertToLuceneBooleanQuery (maxClauseCount : Nat) : Option (List Query) →
    Option QueryRuntimeContext → Except Failure (LuceneQuery × Option QueryRuntimeContext)
  | none, _ => .error (.illegalArgument "One of term, booleanClauses must be provided")
  | some qs, context => do
      match ← termInSet maxClauseCount qs with
      | some (field, values) => return (.termInSetQuery field values, context)
      | none =>
          let (clauses, context) ← buildBooleanQuery maxClauseCount qs 0 context
          return (.booleanQuery clauses, context)

/-- `buildBooleanQuery` for every clause; `n` of them are in the builder. -/
def buildBooleanQuery (maxClauseCount : Nat) : List Query → Nat → Option QueryRuntimeContext →
    Except Failure (List (Occurance × LuceneQuery) × Option QueryRuntimeContext)
  | [], _, context => return ([], context)
  | q :: qs, n, context => do
      let (lq, context) ← convertToLuceneQuery maxClauseCount q context
      checkClauseCount maxClauseCount n
      let (clauses, context) ← buildBooleanQuery maxClauseCount qs (n + 1) context
      return ((convertToLuceneOccur q.occurance, lq) :: clauses, context)

end

/-- `convert`: a list of clauses at the top is wrapped, so that its occurance
counts. -/
def convert (maxClauseCount : Nat) (q : Query) (context : Option QueryRuntimeContext) :
    Except Failure (LuceneQuery × Option QueryRuntimeContext) :=
  match q.booleanClauses with
  | none => convertToLuceneQuery maxClauseCount q context
  | some _ => do
      let (lq, context) ← convertToLuceneQuery maxClauseCount q context
      return (.booleanQuery [(convertToLuceneOccur q.occurance, lq)], context)

end Xenon.Lucene

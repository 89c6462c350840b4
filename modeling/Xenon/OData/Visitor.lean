import Xenon.Filter.Evaluator
import Xenon.OData.Tokenizer

/-!
# `ODataQueryVisitor`

The walk over the tokens of a `$filter`, and the query that it builds. The token list of the
code has a cursor; here a walk returns what is left of the list.
-/

namespace Xenon.OData

open Xenon.Filter (Occurance splitAt)
open Xenon.QueryTask

/-- `BinaryVerb`. -/
inductive BinaryVerb where
  | and | or | eq | ne | lt | le | gt | ge | all | any | add | sub | mul | div | modulo
deriving DecidableEq

/-- `BinaryVerb.operator`. -/
def BinaryVerb.operator : BinaryVerb → String
  | .and => "and" | .or => "or" | .eq => "eq" | .ne => "ne" | .lt => "lt" | .le => "le"
  | .gt => "gt" | .ge => "ge" | .all => "all" | .any => "any" | .add => "add" | .sub => "sub"
  | .mul => "mul" | .div => "div" | .modulo => "mod"

/-- `BinaryVerb.values()`. -/
def BinaryVerb.values : List BinaryVerb :=
  [.and, .or, .eq, .ne, .lt, .le, .gt, .ge, .all, .any, .add, .sub, .mul, .div, .modulo]

/-- `stringToVerb`; `none` is `null`. -/
def stringToVerb (s : String) : Option BinaryVerb := BinaryVerb.values.find? (·.operator = s)

/-! ## Ranges -/

/-- The number that a `Long` is. -/
def Java.long (java : Java) (n : Int64) : Number := ⟨false, n, java.toDouble n⟩

/-- The number that a `Double` is. -/
def Java.double (java : Java) (d : Double) : Number := ⟨true, java.toLong d, d⟩

/-- `createDoubleRange` for a `Double`, else `createLongRange`. -/
def createRangeOf (isDouble : Bool) (min max : Number) (isMinInclusive isMaxInclusive : Bool) :
    NumericRange :=
  ⟨some (if isDouble then .double else .long), some min, some max, isMinInclusive,
    isMaxInclusive⟩

/-- The lower end of a range without one. -/
def Java.minOf (java : Java) (isDouble : Bool) : Number :=
  if isDouble then java.double .minValue else java.long Int64.minValue

/-- The upper end of a range without one. -/
def Java.maxOf (java : Java) (isDouble : Bool) : Number :=
  if isDouble then java.double .maxValue else java.long Int64.maxValue

/-- `createLessThanRange`. -/
def createLessThanRange (java : Java) (max : Number) : NumericRange :=
  createRangeOf max.isDouble (java.minOf max.isDouble) max true false

/-- `createLessThanOrEqualRange`. -/
def createLessThanOrEqualRange (java : Java) (max : Number) : NumericRange :=
  createRangeOf max.isDouble (java.minOf max.isDouble) max true true

/-- `createGreaterThanRange`. -/
def createGreaterThanRange (java : Java) (min : Number) : NumericRange :=
  createRangeOf min.isDouble min (java.maxOf min.isDouble) false true

/-- `createGreaterThanOrEqualRange`. -/
def createGreaterThanOrEqualRange (java : Java) (min : Number) : NumericRange :=
  createRangeOf min.isDouble min (java.maxOf min.isDouble) true true

/-- `createEqualRange`. -/
def createEqualRange (num : Number) : NumericRange :=
  createRangeOf num.isDouble num num true true

/-- Decimal digits, at least one. -/
def parseDigits (digits : List Char) : Option Nat :=
  if digits ≠ [] ∧ digits.all (·.isDigit) then
    some (digits.foldl (fun n c => 10 * n + (c.toNat - '0'.toNat)) 0)
  else none

/-- The integer in a text of decimal digits with an optional sign. -/
def parseInteger : List Char → Option Int
  | '-' :: digits => (parseDigits digits).map fun n => -n
  | '+' :: digits => (parseDigits digits).map fun n => n
  | digits => (parseDigits digits).map fun n => n

/-- `Long.parseLong`. -/
def parseLong (s : String) : Option Int64 :=
  (parseInteger s.toList).bind fun n =>
    if Int64.minValue.toInt ≤ n ∧ n ≤ Int64.maxValue.toInt then some (Int64.ofInt n) else none

/-- The number of `createRange`: with a decimal point, a `Double`. -/
def parseNumber (java : Java) (num : String) : Option Number :=
  if '.' ∈ num.toList then (java.parseDouble num).map java.double
  else (parseLong num).map java.long

/-- `createRange`. -/
def createRange (java : Java) (num : String) (op : Option BinaryVerb) :
    Except Failure (Option NumericRange) :=
  match parseNumber java num with
  | none => .error .numberFormat
  | some d =>
      match op with
      | none => .error .nullPointer
      | some .lt => .ok (some (createLessThanRange java d))
      | some .le => .ok (some (createLessThanOrEqualRange java d))
      | some .gt => .ok (some (createGreaterThanRange java d))
      | some .ge => .ok (some (createGreaterThanOrEqualRange java d))
      | some .eq => .ok (some (createEqualRange d))
      | some _ => .ok none

/-- `isNumeric`. -/
def isNumeric (java : Java) (s : String) : Bool := (java.parseDouble s).isSome

/-! ## Comparisons -/

/-- `convertToLuceneOccur`. -/
def convertToLuceneOccur : Option BinaryVerb → Except Failure Occurance
  | some .or => .ok .shouldOccur
  | some .ne => .ok .mustNotOccur
  | none | some .and | some .eq | some .gt | some .ge | some .lt | some .le | some .any
  | some .all => .ok .mustOccur
  | some _ => .error (.illegalArgument "unsupported operation")

/-- `ODataUtils.FILTER_VALUE_ALL_FIELDS`. -/
def filterValueAllFields : String := "ALL_FIELDS"

/-- `isUnfoldQuery`. -/
def isUnfoldQuery (java : Java) (leftSide : String) (operator : Option BinaryVerb)
    (rightSide : String) : Bool :=
  leftSide = filterValueAllFields &&
    operator ∈ [some .eq, some .ne, some .all, some .any] && !isNumeric java rightSide

/-- `replace("\'", "")`. -/
def unquote (s : List Char) : List Char := s.filter (· ≠ '\'')

/-- `String.trim`. -/
def trim (s : List Char) : List Char := (s.dropWhile (· ≤ ' ')).rdropWhile (· ≤ ' ')

/-- The `MatchType` of a text, given the one already set. -/
def matchTypeOf (text : List Char) (set : Option MatchType) : MatchType :=
  if '*' ∈ text then .wildcard else set.getD .term

/-- The clause for an item of `any` or `all`. -/
def itemClause (leftSide : String) (itemOccurance : Occurance) (itemName : List Char) : Query :=
  .ofTerm (some itemOccurance)
    ⟨some leftSide, some (String.ofList (trim (unquote itemName))),
      some (matchTypeOf itemName none), none⟩

/-- The loop over the items of `any` or `all`. -/
def itemClauses (leftSide : String) (itemOccurance : Occurance) (rightSide : String) : List Query :=
  ((splitAt ';' rightSide.toList).filter (!·.isEmpty)).map (itemClause leftSide itemOccurance)

/-- The term of a comparison other than `any` and `all`. -/
def comparisonTerm (java : Java) (leftSide : String) (operator : Option BinaryVerb)
    (rightSide : String) : Except Failure QueryTerm :=
  let set := if '*' ∈ leftSide.toList then some MatchType.wildcard else none
  if isNumeric java rightSide then do
    return ⟨some leftSide, none, set, ← createRange java rightSide operator⟩
  else
    .ok ⟨some leftSide, some (String.ofList (unquote rightSide.toList)),
      some (matchTypeOf rightSide.toList set), none⟩

/-- `addBooleanClause` for every clause. -/
def addBooleanClauses (q : Query) (clauses : List Query) : Query :=
  clauses.foldl Query.addBooleanClause q

/-- The part of `visitBinaryComparator` after the test for an unfold query. -/
def visitProperty (java : Java) (leftSide : String) (operator : Option BinaryVerb)
    (rightSide : String) : Except Failure Query := do
  let o ← convertToLuceneOccur operator
  if operator = some .any then
    return addBooleanClauses (.mk (some o) none none)
      (itemClauses leftSide .shouldOccur rightSide)
  else if operator = some .all then
    return addBooleanClauses (.mk (some o) none none)
      (itemClauses leftSide .mustOccur rightSide)
  else return .ofTerm (some o) (← comparisonTerm java leftSide operator rightSide)

/-- The clause for one of the unfolded property names. A name that is the wildcard again is
unfolded again, without end. -/
def unfoldClause (java : Java) (operator : Option BinaryVerb) (rightSide name : String) :
    Except Failure Query :=
  if name = filterValueAllFields then .error .stackOverflow
  else do
    let .mk _ t qs ← visitProperty java name operator rightSide
    return .mk (some .shouldOccur) t qs

/-- `visitBinaryComparator`; `names` are the `wildcardUnfoldPropertyNames`, in the order of
their set, or `null`. -/
def visitBinaryComparator (java : Java) (names : Option (List String)) (leftSide : String)
    (operator : Option BinaryVerb) (rightSide : String) : Except Failure Query :=
  if isUnfoldQuery java leftSide operator rightSide then do
    let o ← convertToLuceneOccur operator
    match names with
    | none => .error .nullPointer
    | some names =>
        return addBooleanClauses (.mk (some o) none none)
          (← names.mapM (unfoldClause java operator rightSide))
  else visitProperty java leftSide operator rightSide

/-! ## Operators -/

/-- Set the occurance, unless it is `MUST_NOT_OCCUR`. -/
def setOccurance (o : Occurance) : Query → Query
  | .mk o' t qs => .mk (if o' = some .mustNotOccur then o' else some o) t qs

/-- Set the occurance. -/
def forceOccurance (o : Occurance) : Query → Query
  | .mk _ t qs => .mk (some o) t qs

/-- Both sides with one occurance, under a new query; two sides that must not occur get the
dual one, and the new query must not occur. -/
def joinClauses (o dual : Occurance) (leftSide rightSide : Query) : Query :=
  if leftSide.occurance = some .mustNotOccur ∧ rightSide.occurance = some .mustNotOccur then
    .ofClauses (some .mustNotOccur) [forceOccurance dual leftSide, forceOccurance dual rightSide]
  else .ofClauses (some .mustOccur) [setOccurance o leftSide, setOccurance o rightSide]

/-- `visitBinaryOperator`. No other operator than `and` and `or` gets here. -/
def visitBinaryOperator (leftSide : Option Query) (operator : Option BinaryVerb)
    (rightSide : Option Query) : Except Failure Query :=
  match leftSide, operator, rightSide with
  | some l, some .and, some r => .ok (joinClauses .mustOccur .shouldOccur l r)
  | some l, some .or, some r => .ok (joinClauses .shouldOccur .mustOccur l r)
  | some l, some _, some r => .ok (.ofClauses (some .mustOccur) [l, r])
  | _, _, _ => .error .nullPointer

/-! ## The walk -/

/-- `parseUnaryTerm`, at a token list that starts with a simple type. -/
def parseUnaryTerm (java : Java) (names : Option (List String)) (left : ODataToken) :
    List ODataToken → Except Failure (Query × List ODataToken)
  | [] => .error .noSuchElement
  | verb :: tokens =>
      if verb.kind ≠ .binaryComparison then .error (.illegalArgument "Term mismatch")
      else match tokens with
        | [] => .error .noSuchElement
        | right :: tokens =>
            if right.kind ≠ .simpleType then .error (.illegalArgument "Term mismatch")
            else do
              let q ← visitBinaryComparator java names left.uriLiteral
                (stringToVerb verb.uriLiteral) right.uriLiteral
              return (q, tokens)

/-- A walk over tokens with the query so far: the query, and what is left of the tokens. -/
abbrev Walk := List ODataToken → Option Query → Except Failure (Option Query × List ODataToken)

/-- `walkTokens` from the test for a closing paren on. -/
def walkOperator (walk : Walk) : Walk
  | [], left => .ok (left, [])
  | t :: tokens, left =>
      match t.kind with
      | .closeParen => .ok (left, tokens)
      | .binaryOperator => do
          let (right, tokens) ← walk tokens none
          let left ← visitBinaryOperator left (stringToVerb t.uriLiteral) right
          if tokens.isEmpty then return (some left, tokens) else walk tokens (some left)
      | _ => walk (t :: tokens) left

/-- `walkTokens` from the test for a simple type on. -/
def walkTerm (java : Java) (names : Option (List String)) (walk : Walk) : Walk
  | [], left => .ok (left, [])
  | t :: tokens, left =>
      if t.kind = .simpleType then do
        let (q, tokens) ← parseUnaryTerm java names t tokens
        walkOperator walk tokens (some q)
      else walkOperator walk (t :: tokens) left

/-- `walkTokens`, with a bound on the depth of the recursion: Java's stack overflows where the
walk does not get past a token. -/
def walkTokens (java : Java) (names : Option (List String)) : Nat → Walk
  | 0, _, _ => .error .stackOverflow
  | _ + 1, [], _ => .ok (none, [])
  | fuel + 1, t :: tokens, left =>
      if t.kind = .openParen then do
        let (left, tokens) ← walkTokens java names fuel tokens left
        walkTerm java names (walkTokens java names fuel) tokens left
      else walkTerm java names (walkTokens java names fuel) (t :: tokens) left

/-- `toQuery`. What the walk leaves of the tokens is ignored. -/
def toQuery (java : Java) (names : Option (List String)) (filterExp : String) :
    Except Failure (Option Query) := do
  let tokens ← tokenize java filterExp
  if tokens.isEmpty then return none
  let (q, _) ← walkTokens java names (tokens.length + 1) tokens none
  return q

end Xenon.OData

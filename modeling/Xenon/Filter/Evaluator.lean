import Mathlib.Data.List.DropRight
import Xenon.QueryTask.Query

/-!
# Evaluation of a filter

The second pass of `QueryFilter`: `ConjunctionEvaluator` checks the terms of a
conjunction one by one against a document, `DispatchEvaluator` looks the value
of one property up in a table, and `DisjunctionEvaluator` tries its evaluators
in turn.
-/

namespace Xenon.Filter

open Xenon.QueryTask

/-! ## Documents and their descriptions -/

/-- A Java value: what `ReflectionUtils.getPropertyValue` returns. `text` is its
`toString()`. -/
inductive Value where
  | null
  | string (s : String)
  | number (n : Number) (text : String)
  | boolean (b : Bool)
  | uri (text : String)
  | enum (name : String)
  | collection (items : List Value) (text : String)
  | map (get : String → Value) (text : String)
  | podo (field : String → Value) (text : String)
  | other (text : String)

/-- `QuerySpecification.toMatchValue`. -/
def toMatchValue : Value → Option String
  | .null => none
  | .string s => some s
  | .boolean b => some (if b then "true" else "false")
  | .uri text | .number _ text | .collection _ text | .map _ text | .podo _ text
  | .other text => some text
  | .enum name => some name

/-- `PropertyDescription`; `accessor` is the field it reads. -/
inductive PropertyDescription where
  | mk (typeName : TypeName) (accessor : String)
      (elementDescription : Option PropertyDescription)
      (fieldDescriptions : Option (String → Option PropertyDescription))

namespace PropertyDescription

def typeName : PropertyDescription → TypeName
  | .mk t _ _ _ => t

def accessor : PropertyDescription → String
  | .mk _ a _ _ => a

def elementDescription : PropertyDescription → Option PropertyDescription
  | .mk _ _ e _ => e

def fieldDescriptions : PropertyDescription → Option (String → Option PropertyDescription)
  | .mk _ _ _ f => f

end PropertyDescription

/-- `ReflectionUtils.getPropertyValue`; whatever the reflection throws is caught
and read as `null`. -/
def getPropertyValue (pd : PropertyDescription) (instanceOf : Value) : Value :=
  match instanceOf with
  | .podo field _ => field pd.accessor
  | _ => .null

/-- A document together with its description. -/
structure Described where
  document : Value
  propertyDescriptions : String → Option PropertyDescription

/-! ## Terms -/

/-- `String.split` at a single character: the pieces, without the empty ones at
the end, or the whole text if the character does not occur. -/
def splitAt (sep : Char) (s : List Char) : List (List Char) :=
  if sep ∈ s then (s.splitOn sep).rdropWhile (·.isEmpty) else [s]

/-- The property name of a `Term`, which is not `null` there. -/
def Term.name (t : Term QueryTerm) : String := t.term.propertyName.getD ""

/-- `Term.propertyParts`. -/
def Term.propertyParts (t : Term QueryTerm) : List String :=
  (splitAt '.' t.name.toList).map String.ofList

/-- What `.` does not match in a regular expression. -/
def isLineTerminator (c : Char) : Bool :=
  c = '\n' || c = '\r' || c = '\u0085' || c = '\u2028' || c = '\u2029'

/-- What is left after `.*` has matched some first characters. -/
def starRests : List Char → List (List Char)
  | [] => [[]]
  | c :: s => if isLineTerminator c then [c :: s] else (c :: s) :: starRests s

/-- The regular expression that `wildcardToRegex` builds, matched against a whole
text. -/
def wildcardMatches : List Char → List Char → Bool
  | [], s => s.isEmpty
  | w :: ws, s =>
      if w = '*' then (starRests s).any (wildcardMatches ws)
      else match s with
        | [] => false
        | c :: s =>
            if w = '+' then !isLineTerminator c && (starRests s).any (wildcardMatches ws)
            else if w = '?' then !isLineTerminator c && wildcardMatches ws s
            else c = w && wildcardMatches ws s

/-- The constructor of `Term`. -/
def newTerm (t : QueryTerm) (negate : Bool) : Except Failure (Term QueryTerm) :=
  if t.matchType = some .wildcard ∧ t.matchValue = none then .error .nullPointer
  else if t.propertyName = none then .error .nullPointer
  else .ok ⟨t, negate⟩

/-! ## `ConjunctionEvaluator` -/

/-- `evaluateString`; `none` is a `null` reference. -/
def evaluateString (t : QueryTerm) (o : Option String) : Except Failure Bool :=
  match t.matchType with
  | some .wildcard =>
      .ok (wildcardMatches (t.matchValue.getD "").toList (o.getD "").toList)
  | some .prefixMatch =>
      match o, t.matchValue with
      | none, _ => .ok false
      | some _, none => .error .nullPointer
      | some s, some m => .ok (m.toList.isPrefixOf s.toList)
  | _ => .ok (o = t.matchValue)

/-- `evaluateNumber`. -/
def evaluateNumber (t : QueryTerm) (o : Number) : Except Failure Bool :=
  match t.range with
  | none => .ok false
  | some r =>
      match r.max, r.min with
      | some max, some min =>
          let max := max.doubleValue.rank
          let min := min.doubleValue.rank
          let val := o.doubleValue.rank
          .ok ((r.isMaxInclusive && val = max) || (r.isMinInclusive && val = min) ||
            (min < val && val < max))
      | _, _ => .error .nullPointer

/-- A cast to `String`. -/
def Value.asString : Value → Except Failure (Option String)
  | .null => .ok none
  | .string s => .ok (some s)
  | _ => .error .classCast

/-- The loop over the elements of a collection: whether one of them matches. -/
def anyItem (t : QueryTerm) : List Value → Except Failure Bool
  | [] => .ok false
  | o :: items => do
      if ← evaluateString t (← o.asString) then pure true else anyItem t items

/-- `evaluateTerm`; `parts` are the parts of the property name from `depth` on. -/
def evaluateTerm (t : Term QueryTerm) (o : Value) (pd : PropertyDescription)
    (parts : List String) : Except Failure Bool :=
  match pd.typeName with
  | .string =>
      match o with
      | .null => return (← evaluateString t.term none) ^^ t.negate
      | .string s => return (← evaluateString t.term (some s)) ^^ t.negate
      | _ => .ok t.negate
  | .long | .double =>
      match o with
      | .number n _ => return (← evaluateNumber t.term n) ^^ t.negate
      | _ => .ok t.negate
  | .collection =>
      match o, parts with
      | .collection items _, part :: _ =>
          if part ≠ "item" then .ok false
          else match pd.elementDescription with
            | none => .error .nullPointer
            | some element =>
                if element.typeName = .string then return (← anyItem t.term items) ^^ t.negate
                else .ok false
      | _, _ => .ok t.negate
  | .map =>
      match o, parts with
      | .map get _, key :: parts =>
          match pd.elementDescription with
          | none => .error .nullPointer
          | some element => evaluateTerm t (get key) element parts
      | _, _ => .ok t.negate
  | .podo =>
      match parts with
      | [] => .ok t.negate
      | name :: parts =>
          match pd.fieldDescriptions with
          | none => .error .nullPointer
          | some fields =>
              match fields name with
              | none => .ok t.negate
              | some fd => evaluateTerm t (getPropertyValue fd o) fd parts
  | _ => .ok false
termination_by structural parts

/-- The body of the loop of `ConjunctionEvaluator.evaluate`. -/
def checkTerm (d : Described) (t : Term QueryTerm) : Except Failure Bool :=
  match t.propertyParts with
  | [] => .error .indexOutOfBounds
  | name :: parts =>
      match d.propertyDescriptions name with
      | none => .ok t.negate
      | some pd => evaluateTerm t (getPropertyValue pd d.document) pd parts

/-- `ConjunctionEvaluator.evaluate`. -/
def checkTerms (d : Described) : List (Term QueryTerm) → Except Failure Bool
  | [] => .ok true
  | t :: ts => do if ← checkTerm d t then checkTerms d ts else pure false

end Xenon.Filter

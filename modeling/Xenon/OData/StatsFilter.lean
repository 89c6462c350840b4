import Xenon.OData.Meaning
import Xenon.OData.Numbers
import Xenon.OData.OrderBy

/-!
# Filters on statistics

`UtilityService` answers a request for the statistics of a service. With a `$filter` it takes the
entries out that do not satisfy the clauses of the query. The loop over the clauses ends at the
first one that has clauses itself.
-/

namespace Xenon.OData

open Xenon.Common.UriUtils
open Xenon.Filter (Occurance)
open Xenon.Foundation
open Xenon.QueryTask

/-! ## The parameters of a request -/

/-- `getODataParamValueAsString`. -/
def getODataParamValueAsString (uri : Uri) (uriParamOdataType : List Char) : Option (List Char) :=
  let query := uri.query.getD []
  if query.isEmpty then none
  else if ¬uriParamOdataType <:+: query then none
  else
    let paramValue := (uri.params.lookup uriParamOdataType).getD []
    if paramValue.isEmpty then none else some paramValue

/-- `Integer.valueOf`. -/
def integerValueOf (s : List Char) : Except Failure Int :=
  match parseInteger s with
  | some n => if -2 ^ 31 ≤ n ∧ n < 2 ^ 31 then .ok n else .error .numberFormat
  | none => .error .numberFormat

/-- `getODataParamValue`. -/
def getODataParamValue (uri : Uri) (uriParamOdataType : List Char) :
    Except Failure (Option Int) :=
  match getODataParamValueAsString uri uriParamOdataType with
  | some paramValue => (integerValueOf paramValue).map some
  | none => .ok none

/-- `getODataCountParamValue`. -/
def getODataCountParamValue (uri : Uri) : Bool :=
  (getODataParamValueAsString uri "$count".toList).any fun paramValue =>
    paramValue.map Char.toLower = "true".toList

/-- `getODataFilterParamValue`. -/
def getODataFilterParamValue (uri : Uri) : Option (List Char) :=
  getODataParamValueAsString uri "$filter".toList

/-- The clauses of `ODataUtils.toQuery`, without unfolded property names, for a request that has
neither `$count` nor `$orderby` nor `$top`. -/
def toQueryClauses (java : Java) (uri : Uri) : Except Failure (List Query) := do
  let q ← match getODataFilterParamValue uri with
    | some filter => toQuery java none (String.ofList filter)
    | none => .ok none
  let _ ← getODataParamValue uri "$skip".toList
  let _ ← getODataParamValue uri "$limit".toList
  return q.toList

/-! ## Statistics -/

/-- `ServiceStat`; a value of NaN is `none`. -/
structure ServiceStat where
  latestValue : Option Double
  deriving DecidableEq

/-- An entry of `ServiceStats`. -/
abbrev Entry := List Char × ServiceStat

/-- `ServiceStat.FIELD_NAME_NAME`. -/
def fieldNameName : String := "name"

/-- `ServiceStat.FIELD_NAME_LATEST_VALUE`. -/
def fieldNameLatestValue : String := "latestValue"

/-- The name of an entry against the match value of a term. -/
def matchesName (name : List Char) (matchType : MatchType) (matchValue : Option (List Char)) :
    Except Failure Bool :=
  match matchType, matchValue with
  | .term, _ => .ok (matchValue = some name)
  | .prefixMatch, some value => .ok (value.isPrefixOf name)
  | .wildcard, some value =>
      let mv := value.filter (· ≠ '*')
      if value.getLast? = some '*' then .ok (mv.isPrefixOf name)
      else if value.head? = some '*' then .ok (mv.isSuffixOf name)
      else .ok false
  | .phrase, _ => .ok false
  | _, none => .error .nullPointer

/-- An end of a range of doubles. -/
def doubleOf : Option Number → Except Failure Double
  | none => .error .nullPointer
  | some n => if n.isDouble then .ok n.doubleValue else .error .classCast

/-- `withinMax`. -/
def withinMax (nr : NumericRange) (max : Double) (latestValue : Option Double) : Bool :=
  nr.isMaxInclusive && latestValue.any (·.rank ≤ max.rank) || latestValue.any (·.rank < max.rank)

/-- `withinMin`. -/
def withinMin (nr : NumericRange) (min : Double) (latestValue : Option Double) : Bool :=
  nr.isMinInclusive && latestValue.any (min.rank ≤ ·.rank) || latestValue.any (min.rank < ·.rank)

/-- Whether an entry stays when the entries are pruned by a term. -/
def keepsEntry (term : QueryTerm) (e : Entry) : Except Failure Bool :=
  if term.propertyName = some fieldNameName then
    match term.matchType with
    | none => .error .nullPointer
    | some matchType => matchesName e.1 matchType (term.matchValue.map String.toList)
  else if term.propertyName = some fieldNameLatestValue then
    match term.range with
    | none => .error (.illegalArgument "latestValuerequires double numeric range")
    | some nr =>
        if nr.type ≠ some .double then
          .error (.illegalArgument "latestValuerequires double numeric range")
        else do
          let max ← doubleOf nr.max
          let min ← doubleOf nr.min
          return withinMin nr min e.2.latestValue && withinMax nr max e.2.latestValue
  else .ok false

/-- The loop over the entries. -/
def pruneEntries (term : QueryTerm) : List Entry → Except Failure (List Entry)
  | [] => .ok []
  | e :: entries => do
      let keep ← keepsEntry term e
      let kept ← pruneEntries term entries
      return if keep then e :: kept else kept

/-- `processStatsODataQueryClauses`. A clause without a term is answered by its own clauses, and
those that come after it are not looked at. -/
def processStatsODataQueryClauses : List Query → List Entry → Except Failure (List Entry)
  | [], entries => .ok entries
  | .mk occurance term booleanClauses :: clauses, entries =>
      if occurance ≠ some .mustOccur then
        .error (.illegalArgument "only AND expressions are supported")
      else match term with
        | some term => do processStatsODataQueryClauses clauses (← pruneEntries term entries)
        | none =>
            match booleanClauses with
            | none => .error .nullPointer
            | some qs => processStatsODataQueryClauses qs entries

/-- `handleStatsGetWithODataRequest`: the entries of the response, or how the request fails. -/
def handleStatsGetWithODataRequest (java : Java) (uri : Uri) (entries : List Entry) :
    Except Failure (List Entry) :=
  if getODataCountParamValue uri then .error (.illegalArgument "$count is not supported")
  else match getODataOrderByParamValue uri with
    | .error message => .error (.illegalArgument message)
    | .ok (some _) => .error (.illegalArgument "$orderby is not supported")
    | .ok none =>
        if getODataParamValueAsString uri "$skipto".toList ≠ none then
          .error (.illegalArgument "$skipto is not supported")
        else match getODataParamValue uri "$top".toList with
          | .error failure => .error failure
          | .ok (some _) => .error (.illegalArgument "$top is not supported")
          | .ok none =>
              if getODataFilterParamValue uri = none then .ok entries
              else do
                let clauses ← toQueryClauses java uri
                processStatsODataQueryClauses clauses entries

/-! ## What a filter asks for -/

/-- The names that a text stands for: it, or with a wildcard at one end those that begin or end
like it. -/
def acceptsName (text name : List Char) : Bool :=
  if '*' ∉ text then name = text
  else if text.getLast? = some '*' then text.dropLast.isPrefixOf name
  else text.tail.isSuffixOf name

/-- At most one wildcard, at one of the ends. -/
def OneWildcard (text : List Char) : Prop :=
  '*' ∉ text ∨ ∃ s, '*' ∉ s ∧ (text = '*' :: s ∨ text = s ++ ['*'])

/-- A word or a text in quotes, as the tokenizer reads it. -/
def IsLiteral (right : String) : Prop := '\'' ∉ right.toList ∨ ∃ s, right = quoted s

/-- The comparisons that can be asked for: a name with a text, and the latest value with a
number. -/
def Comparison.OfStats (java : Java) (c : Comparison) : Prop :=
  (c.left = fieldNameName ∧ (c.verb = .eq ∨ c.verb = .ne) ∧ IsLiteral c.right ∧
      OneWildcard (literalText c.right.toList)) ∨
    (c.left = fieldNameLatestValue ∧ c.verb ≠ .any ∧ c.verb ≠ .all ∧
      isNumeric java c.right = true)

/-- An entry satisfies a comparison; NaN is in no relation. -/
def Comparison.satisfied (java : Java) (c : Comparison) (e : Entry) : Bool :=
  let related :=
    if c.left = fieldNameName then acceptsName (literalText c.right.toList) e.1
    else (java.parseDouble c.right).any fun d =>
      e.2.latestValue.any fun x => c.verb.relates x.rank d.rank
  if c.verb = .ne then !related else related

/-! ## What the service looks at -/

mutual

/-- The comparisons up to the first parens around several ones that something comes after. -/
def Primary.examined : Primary → List Comparison
  | .comparison c => [c]
  | .paren e => e.examined

def Expr.examined : Expr → List Comparison
  | .one p => p.examined
  | .chain p _ e => if p.comparisons.length = 1 then p.examined ++ e.examined else p.examined

end

/-- The values that the other end of a range leaves: those above zero for an upper bound, and the
finite ones for a lower bound. -/
def ComparisonVerb.reaches : ComparisonVerb → Double → Bool
  | .lt, x | .le, x => 0 < x.rank
  | .gt, x | .ge, x => x.rank ≤ Double.maxValue.rank
  | _, _ => true

/-- An entry is in reach of a comparison: its name for the literal without its quotes, its value
for the verb. -/
def Comparison.reaches (c : Comparison) (e : Entry) : Bool :=
  if c.left = fieldNameName then acceptsName (unquote c.right.toList) e.1
  else e.2.latestValue.any c.verb.reaches

/-- An entry is let pass by a comparison. -/
def Comparison.passed (java : Java) (c : Comparison) (e : Entry) : Bool :=
  (c.left = fieldNameName || c.satisfied java e) && c.reaches e

/-! ## The clauses that are reached -/

/-- The comparisons of a tree that the loop over the clauses gets to. -/
def Tree.reached : Tree → List Comparison
  | .leaf c => [c]
  | .node _ (.leaf c) r => c :: r.reached
  | .node _ (.node op l r) _ => (Tree.node op l r).reached

/-- The tree has an operator. -/
def Tree.IsNode : Tree → Prop
  | .leaf _ => False
  | .node _ _ _ => True

theorem length_comparisons_pos (T : Tree) : 0 < T.comparisons.length := by
  induction T with
  | leaf c => exact Nat.one_pos
  | node op l r hl hr =>
      rw [Tree.comparisons, List.length_append]
      omega

theorem Tree.IsNode.reached {l : Tree} (h : l.IsNode) (op : Connective) (r : Tree) :
    (Tree.node op l r).reached = l.reached := by
  cases l with
  | leaf c => exact h.elim
  | node op' l' r' => rw [Tree.reached]

/-- What is under waiting operators matters by what is reached of it. -/
theorem reached_settle_congr (pending : List Pending) {T U : Tree} (hT : T.IsNode) (hU : U.IsNode)
    (h : T.reached = U.reached) : (settle pending T).reached = (settle pending U).reached := by
  induction pending generalizing T U with
  | nil => exact h
  | cons f pending ih =>
      cases f with
      | paren => exact ih hT hU h
      | operand left op =>
          refine ih (T := .node op left T) (U := .node op left U) trivial trivial ?_
          cases left with
          | leaf c => rw [Tree.reached, Tree.reached, h]
          | node op' l r => rw [Tree.reached, Tree.reached]

mutual

/-- An operand that is a single comparison leaves nothing on the stack. -/
theorem Primary.walk_leaf : ∀ p : Primary, ¬p.walk.2.IsNode → p.walk.1 = []
  | .comparison _, _ => rfl
  | .paren e, h => by
      have hhead := e.walk_leaf
      rw [Primary.walk] at h ⊢
      generalize e.walk = w at h hhead ⊢
      obtain ⟨_ | ⟨_ | ⟨left, op⟩, pending⟩, v⟩ := w
      · rfl
      · exact absurd rfl (hhead h)
      · exact absurd trivial h

theorem Expr.walk_leaf : ∀ e : Expr, ¬e.walk.2.IsNode → e.walk.1.head? ≠ some .paren
  | .one p, h => by
      rw [Expr.walk, p.walk_leaf h]
      exact nofun
  | .chain p op e, h => by
      have hhead := e.walk_leaf h
      rw [Expr.walk]
      cases he : e.walk.1 with
      | nil => exact nofun
      | cons f pending =>
          rw [he] at hhead
          exact hhead

end

mutual

theorem Primary.reached_walk : ∀ p : Primary, (settle p.walk.1 p.walk.2).reached = p.examined
  | .comparison _ => rfl
  | .paren e => by
      rw [Primary.walk, settle_close]
      exact e.reached_visited

/-- The clauses that are reached are those of the comparisons that are examined. -/
theorem Expr.reached_visited : ∀ e : Expr, e.visited.reached = e.examined
  | .one p => p.reached_walk
  | .chain p op e => by
      have hp := p.reached_walk
      have hcomparisons := p.comparisons_walk
      rw [visited_chain, Expr.examined]
      by_cases hnode : p.walk.2.IsNode
      · have hlength : p.comparisons.length ≠ 1 := by
          rw [← hcomparisons, List.length_append]
          cases hv : p.walk.2 with
          | leaf c => exact absurd hnode (by rw [hv]; exact id)
          | node op' l r =>
              have hl := length_comparisons_pos l
              have hr := length_comparisons_pos r
              rw [Tree.comparisons, List.length_append]
              omega
        rw [if_neg hlength, ← hp]
        exact reached_settle_congr _ trivial hnode (hnode.reached op _)
      · rw [p.walk_leaf hnode] at hp hcomparisons ⊢
        cases hv : p.walk.2 with
        | node op' l r =>
            rw [hv] at hnode
            exact absurd trivial hnode
        | leaf c =>
            rw [hv] at hp hcomparisons
            rw [← hcomparisons, ← hp]
            show c :: e.visited.reached = [c] ++ e.examined
            rw [e.reached_visited]
            rfl

end

/-! ## Names -/

theorem undouble_cons {c : Char} (hc : c ≠ '\'') (s : List Char) :
    undouble (c :: s) = c :: undouble s := by
  cases s with
  | nil => rfl
  | cons c' s => rw [undouble, if_neg fun h => hc h.1]

theorem undouble_double (s : List Char) : undouble (double s) = s := by
  induction s with
  | nil => rfl
  | cons c s ih =>
      by_cases hc : c = '\''
      · subst hc
        rw [double_quote, undouble, if_pos ⟨rfl, rfl⟩, ih]
      · rw [double_cons hc, undouble_cons hc, ih]

theorem literalText_quoted (s : String) : literalText (quoted s).toList = s.toList := by
  rw [quoted, String.toList_ofList]
  show undouble (double s.toList ++ ['\'']).dropLast = _
  rw [List.dropLast_concat, undouble_double]

/-- Without the quotes in them, a literal and its text are the same. -/
theorem IsLiteral.unquote {right : String} (h : IsLiteral right) :
    unquote right.toList = OData.unquote (literalText right.toList) := by
  rcases h with hquote | ⟨s, rfl⟩
  · congr 1
    cases hright : right.toList with
    | nil => rfl
    | cons c s =>
        rw [hright] at hquote
        unfold literalText
        split
        · rename_i heq
          cases heq
          exact absurd List.mem_cons_self hquote
        · rfl
  · rw [unquote_quoted, literalText_quoted]

theorem mem_star_unquote {s : List Char} : '*' ∈ unquote s ↔ '*' ∈ s := by
  unfold unquote
  rw [List.mem_filter]
  exact and_iff_left (by decide)

theorem OneWildcard.unquote {text : List Char} (h : OneWildcard text) :
    OneWildcard (unquote text) := by
  rcases h with hnone | ⟨s, hs, rfl | rfl⟩
  · exact Or.inl fun h => hnone (mem_star_unquote.mp h)
  · exact Or.inr ⟨OData.unquote s, fun h => hs (mem_star_unquote.mp h), Or.inl rfl⟩
  · refine Or.inr ⟨OData.unquote s, fun h => hs (mem_star_unquote.mp h), Or.inr ?_⟩
    exact List.filter_append _ _

theorem filter_star {s : List Char} (hs : '*' ∉ s) : s.filter (· ≠ '*') = s := by
  rw [List.filter_eq_self]
  intro c hc
  rw [decide_eq_true_eq]
  rintro rfl
  exact hs hc

/-- A name is matched as the text of the term says. -/
theorem matchesName_eq {text : List Char} (h : OneWildcard text) (name : List Char) :
    matchesName name (if '*' ∈ text then .wildcard else .term) (some text) =
      .ok (acceptsName text name) := by
  unfold acceptsName
  by_cases hstar : '*' ∈ text
  · rw [if_pos hstar, if_neg (not_not_intro hstar)]
    obtain ⟨s, hs, rfl | rfl⟩ := h.resolve_left (not_not_intro hstar)
    · have hfilter : ('*' :: s).filter (· ≠ '*') = s := filter_star hs
      have hhead : ('*' :: s).head? = some '*' := rfl
      unfold matchesName
      dsimp only
      rw [hfilter, if_pos hhead]
      cases s with
      | nil => rfl
      | cons c s =>
          have hlast : ('*' :: c :: s).getLast? ≠ some '*' := by
            rw [List.getLast?_cons_cons]
            exact fun hlast => hs (List.mem_of_getLast? hlast)
          rw [if_neg hlast, if_neg hlast]
          rfl
    · have hfilter : (s ++ ['*']).filter (· ≠ '*') = s := by
        rw [List.filter_append, filter_star hs]
        exact List.append_nil s
      have hlast : (s ++ ['*']).getLast? = some '*' := List.getLast?_concat
      unfold matchesName
      dsimp only
      rw [hfilter, if_pos hlast, if_pos hlast, List.dropLast_concat]
  · rw [if_neg hstar, if_pos hstar]
    unfold matchesName
    simp only [Option.some.injEq, eq_comm]

/-! ## Values -/

section

variable {java : Java} {c : Comparison} {d : Double} {e : Entry}

/-- Only a number with a decimal point has a range of doubles. -/
theorem exists_double_of_type {right : String} {verb : ComparisonVerb} {nr : NumericRange}
    (h : createRange java right (some verb.toVerb) = .ok (some nr))
    (htype : nr.type = some .double) :
    ∃ d, java.parseDouble right = some d ∧ parseNumber java right = some (java.double d) := by
  have hnumber : ∃ n : Number, parseNumber java right = some n ∧ n.isDouble = true := by
    unfold createRange at h
    cases hn : parseNumber java right with
    | none =>
        rw [hn] at h
        cases h
    | some n =>
        rw [hn] at h
        refine ⟨n, rfl, ?_⟩
        by_contra hlong
        cases verb <;> cases h <;>
          simp [createRangeOf, createEqualRange, createLessThanRange, createLessThanOrEqualRange,
            createGreaterThanRange, createGreaterThanOrEqualRange, hlong] at htype
  obtain ⟨n, hn, hdouble⟩ := hnumber
  unfold parseNumber at hn ⊢
  split_ifs at hn ⊢
  · obtain ⟨d, hd, rfl⟩ := Option.map_eq_some_iff.mp hn
    exact ⟨d, hd, hn⟩
  · obtain ⟨m, -, rfl⟩ := Option.map_eq_some_iff.mp hn
    cases hdouble

/-- A value that a comparison with a double lets pass. -/
theorem passed_latestValue (hleft : c.left ≠ fieldNameName) (hne : c.verb ≠ .ne)
    (hd : java.parseDouble c.right = some d) : c.passed java e =
      e.2.latestValue.any fun x => c.verb.relates x.rank d.rank && c.verb.reaches x := by
  obtain ⟨name, ⟨latestValue⟩⟩ := e
  unfold Comparison.passed Comparison.satisfied Comparison.reaches
  dsimp only
  rw [if_neg hne, if_neg hleft, if_neg hleft, hd, decide_eq_false hleft, Bool.false_or]
  cases latestValue with
  | none => rfl
  | some x => rfl

/-- A value within a range of doubles. -/
theorem within_createRangeOf (java : Java) (min max : Double) (a b : Bool)
    (latestValue : Option Double) :
    (withinMin (createRangeOf true (java.double min) (java.double max) a b) min latestValue &&
        withinMax (createRangeOf true (java.double min) (java.double max) a b) max latestValue) =
      latestValue.any fun x => (if a then min.rank ≤ x.rank else min.rank < x.rank) &&
        if b then x.rank ≤ max.rank else x.rank < max.rank := by
  cases latestValue with
  | none =>
      unfold withinMin withinMax
      simp
  | some x =>
      have hmin : (decide (min.rank ≤ x.rank) || decide (min.rank < x.rank)) =
          decide (min.rank ≤ x.rank) := by
        rw [← Bool.decide_or, decide_eq_decide]
        exact ⟨fun h => h.elim id le_of_lt, Or.inl⟩
      have hmax : (decide (x.rank ≤ max.rank) || decide (x.rank < max.rank)) =
          decide (x.rank ≤ max.rank) := by
        rw [← Bool.decide_or, decide_eq_decide]
        exact ⟨fun h => h.elim id le_of_lt, Or.inl⟩
      cases a <;> cases b <;> simp [withinMin, withinMax, createRangeOf, hmin, hmax]

/-- The range of a comparison with a double. -/
theorem createRange_double {verb : ComparisonVerb} {right : String} (hany : verb ≠ .any)
    (hall : verb ≠ .all) (hne : verb ≠ .ne)
    (hpoint : parseNumber java right = some (java.double d)) {nr : NumericRange}
    (h : createRange java right (some verb.toVerb) = .ok (some nr)) :
    ∃ min max a b, nr = createRangeOf true (java.double min) (java.double max) a b ∧
      ∀ x : Double, ((if a then min.rank ≤ x.rank else min.rank < x.rank) &&
        if b then x.rank ≤ max.rank else x.rank < max.rank) =
          (verb.relates x.rank d.rank && verb.reaches x) := by
  rw [createRange_decimal hpoint] at h
  cases verb with
  | any => exact absurd rfl hany
  | all => exact absurd rfl hall
  | ne => exact absurd rfl hne
  | eq =>
      cases h
      refine ⟨d, d, true, true, rfl, fun x => ?_⟩
      show (decide (d.rank ≤ x.rank) && decide (x.rank ≤ d.rank)) =
        (decide (x.rank = d.rank) && true)
      rw [Bool.and_true, ← Bool.decide_and, decide_eq_decide]
      omega
  | lt =>
      cases h
      exact ⟨.minValue, d, true, false, rfl, fun x => Bool.and_comm _ _⟩
  | le =>
      cases h
      exact ⟨.minValue, d, true, true, rfl, fun x => Bool.and_comm _ _⟩
  | gt =>
      cases h
      exact ⟨d, .maxValue, false, true, rfl, fun x => rfl⟩
  | ge =>
      cases h
      exact ⟨d, .maxValue, true, true, rfl, fun x => rfl⟩

end

/-! ## Entries -/

section

variable {java : Java} {c : Comparison} {e : Entry} {keep : Bool}

/-- An entry is kept by its name. -/
theorem keepsEntry_name (hleft : c.left = fieldNameName) (hliteral : IsLiteral c.right)
    (hwildcard : OneWildcard (literalText c.right.toList)) {t : QueryTerm}
    (ht : comparisonTerm java c.left (some c.verb.toVerb) c.right = .ok t)
    (h : keepsEntry t e = .ok keep) : keep = c.passed java e := by
  have hstar : '*' ∉ c.left.toList := by
    rw [hleft]
    decide
  unfold comparisonTerm at ht
  dsimp only at ht
  rw [if_neg hstar] at ht
  split_ifs at ht with hnumeric
  · -- the term has no match type
    obtain ⟨range, -, ht⟩ := bind_eq_ok.mp ht
    cases ht
    unfold keepsEntry at h
    rw [if_pos (congrArg some hleft)] at h
    cases h
  · cases ht
    unfold keepsEntry at h
    rw [if_pos (congrArg some hleft)] at h
    have htype : matchTypeOf c.right.toList none =
        if '*' ∈ unquote c.right.toList then .wildcard else .term := by
      unfold matchTypeOf
      simp only [mem_star_unquote]
      rfl
    have hone : OneWildcard (unquote c.right.toList) := by
      rw [hliteral.unquote]
      exact hwildcard.unquote
    dsimp only at h
    rw [htype, Option.map_some, String.toList_ofList, matchesName_eq hone] at h
    cases h
    unfold Comparison.passed Comparison.reaches
    rw [if_pos hleft, decide_eq_true hleft]
    rfl

/-- An entry is kept by its value. -/
theorem keepsEntry_latestValue (hleft : c.left = fieldNameLatestValue) (hany : c.verb ≠ .any)
    (hall : c.verb ≠ .all) (hne : c.verb ≠ .ne) (hnumeric : isNumeric java c.right = true)
    {t : QueryTerm} (ht : comparisonTerm java c.left (some c.verb.toVerb) c.right = .ok t)
    (h : keepsEntry t e = .ok keep) : keep = c.passed java e := by
  have hname : c.left ≠ fieldNameName := by
    rw [hleft]
    decide
  unfold comparisonTerm at ht
  dsimp only at ht
  rw [if_pos hnumeric] at ht
  obtain ⟨range, hrange, ht⟩ := bind_eq_ok.mp ht
  cases ht
  unfold keepsEntry at h
  rw [if_neg (by simpa using hname), if_pos (congrArg some hleft)] at h
  dsimp only at h
  cases range with
  | none => cases h
  | some nr =>
      dsimp only at h
      split_ifs at h with htype
      obtain ⟨d, hd, hpoint⟩ := exists_double_of_type hrange (not_not.mp htype)
      obtain ⟨min, max, a, b, rfl, hwithin⟩ := createRange_double hany hall hne hpoint hrange
      have hkeep : (withinMin (createRangeOf true (java.double min) (java.double max) a b) min
          e.2.latestValue && withinMax (createRangeOf true (java.double min) (java.double max) a b)
            max e.2.latestValue) = keep := Except.ok.inj h
      rw [← hkeep, within_createRangeOf, passed_latestValue hname hne hd]
      exact congrArg (Option.any · e.2.latestValue) (funext hwithin)

/-- An entry is kept as its comparison lets it pass. -/
theorem keepsEntry_eq (hstats : c.OfStats java) (hne : c.verb ≠ .ne) {t : QueryTerm}
    (ht : comparisonTerm java c.left (some c.verb.toVerb) c.right = .ok t)
    (h : keepsEntry t e = .ok keep) : keep = c.passed java e := by
  rcases hstats with ⟨hleft, -, hliteral, hwildcard⟩ | ⟨hleft, hany, hall, hnumeric⟩
  · exact keepsEntry_name hleft hliteral hwildcard ht h
  · exact keepsEntry_latestValue hleft hany hall hne hnumeric ht h

theorem pruneEntries_eq {t : QueryTerm} {p : Entry → Bool}
    (hp : ∀ e keep, keepsEntry t e = .ok keep → keep = p e) {entries kept : List Entry}
    (h : pruneEntries t entries = .ok kept) : kept = entries.filter p := by
  induction entries generalizing kept with
  | nil =>
      cases h
      rfl
  | cons e entries ih =>
      obtain ⟨keep, hkeep, h⟩ := bind_eq_ok.mp h
      obtain ⟨rest, hrest, h⟩ := bind_eq_ok.mp h
      cases h
      rw [List.filter_cons, ← hp e keep hkeep, ← ih hrest]

end

/-! ## The loop over the clauses -/

section

variable {java : Java} {entries kept : List Entry}

/-- The query for a comparison of a filter on statistics. -/
theorem query_ofStats {c : Comparison} (hstats : c.OfStats java)
    (hreadable : c.readable java none = true) :
    ∃ t, comparisonTerm java c.left (some c.verb.toVerb) c.right = .ok t ∧
      c.query java none =
        .ofTerm (some (if c.verb = .ne then .mustNotOccur else .mustOccur)) t := by
  have hverb : c.verb ≠ .any ∧ c.verb ≠ .all := by
    rcases hstats with ⟨-, heq | hne, -⟩ | ⟨-, hany, hall, -⟩
    · rw [heq]
      decide
    · rw [hne]
      decide
    · exact ⟨hany, hall⟩
  have hleft : c.left ≠ filterValueAllFields := by
    rcases hstats with ⟨hleft, -⟩ | ⟨hleft, -⟩ <;> rw [hleft] <;> decide
  have hone : isUnfoldQuery java c.left (some c.verb.toVerb) c.right = false := by
    unfold isUnfoldQuery
    rw [decide_eq_false hleft]
    rfl
  obtain ⟨q, hq⟩ := (visitBinaryComparator_ok_iff c.left c.right c.verb).mpr hreadable
  have hquery : c.query java none = q := by simp only [Comparison.query, hq]
  unfold visitBinaryComparator at hq
  rw [hone, visitProperty_eq hverb.1 hverb.2] at hq
  cases ht : comparisonTerm java c.left (some c.verb.toVerb) c.right with
  | error failure =>
      rw [ht] at hq
      cases hq
  | ok t =>
      rw [ht] at hq
      cases hq
      exact ⟨t, rfl, hquery⟩

/-- A clause that is not required is refused. -/
theorem processStatsODataQueryClauses_refuses {q : Query} (h : q.occurance ≠ some .mustOccur)
    (clauses : List Query) :
    processStatsODataQueryClauses (q :: clauses) entries ≠ .ok kept := by
  obtain ⟨o, t, qs⟩ := q
  have hoccurance : o ≠ some .mustOccur := h
  intro hkept
  unfold processStatsODataQueryClauses at hkept
  rw [if_pos hoccurance] at hkept
  cases hkept

/-- What comes after a clause with clauses of its own makes no difference. -/
theorem processStatsODataQueryClauses_ofClauses (qs clauses : List Query) :
    processStatsODataQueryClauses (.ofClauses (some .mustOccur) qs :: clauses) entries =
      processStatsODataQueryClauses qs entries := by
  rw [Query.ofClauses, processStatsODataQueryClauses, if_neg (not_not_intro rfl)]

theorem mustNotOccur_ne : some Occurance.mustNotOccur ≠ some Occurance.mustOccur := nofun

/-- After a term come the other clauses. -/
theorem processStatsODataQueryClauses_ofTerm (t : QueryTerm) (clauses : List Query) :
    processStatsODataQueryClauses (.ofTerm (some .mustOccur) t :: clauses) entries =
      pruneEntries t entries >>= processStatsODataQueryClauses clauses := by
  rw [Query.ofTerm, processStatsODataQueryClauses, if_neg (not_not_intro rfl)]

/-- The query of a tree must occur or must not. -/
theorem occurance_eval (T : Tree)
    (hstats : ∀ c ∈ T.comparisons, c.OfStats java ∧ c.readable java none = true) :
    (T.eval (Comparison.query java none) joinQueries).occurance = some .mustOccur ∨
      (T.eval (Comparison.query java none) joinQueries).occurance = some .mustNotOccur := by
  cases T with
  | leaf c =>
      obtain ⟨h, hreadable⟩ := hstats c List.mem_cons_self
      obtain ⟨t, -, hquery⟩ := query_ofStats h hreadable
      rw [Tree.eval, hquery]
      by_cases hne : c.verb = .ne
      · rw [if_pos hne]
        exact Or.inr rfl
      · rw [if_neg hne]
        exact Or.inl rfl
  | node op l r =>
      rw [Tree.eval]
      cases op <;> unfold joinQueries joinClauses <;> dsimp only <;> split_ifs
      · exact Or.inr rfl
      · exact Or.inl rfl
      · exact Or.inr rfl
      · exact Or.inl rfl

theorem setOccurance_mustOccur {q : Query}
    (h : q.occurance = some .mustOccur ∨ q.occurance = some .mustNotOccur) :
    setOccurance .mustOccur q = q := by
  obtain ⟨o, t, qs⟩ := q
  rcases h with rfl | rfl <;> rfl

/-- A clause of an `or` is refused. -/
theorem occurance_setOccurance_shouldOccur (q : Query) :
    (setOccurance .shouldOccur q).occurance ≠ some .mustOccur := by
  obtain ⟨o, t, qs⟩ := q
  rw [setOccurance, Query.occurance_mk]
  split_ifs with h
  · rw [h]
    intro hsome
    cases hsome
  · intro hsome
    cases hsome

/-- Only of an `and` are the two sides looked at. -/
theorem processStatsODataQueryClauses_joinQueries {op : Connective} {l r : Query}
    (hl : l.occurance = some .mustOccur ∨ l.occurance = some .mustNotOccur)
    (hr : r.occurance = some .mustOccur ∨ r.occurance = some .mustNotOccur)
    (h : processStatsODataQueryClauses [joinQueries op l r] entries = .ok kept) :
    processStatsODataQueryClauses [l, r] entries = .ok kept := by
  cases op <;> unfold joinQueries joinClauses at h <;> dsimp only at h <;> split_ifs at h
  · exact absurd h (processStatsODataQueryClauses_refuses
      (q := .ofClauses (some .mustNotOccur) _) mustNotOccur_ne [])
  · rwa [processStatsODataQueryClauses_ofClauses, setOccurance_mustOccur hl,
      setOccurance_mustOccur hr] at h
  · exact absurd h (processStatsODataQueryClauses_refuses
      (q := .ofClauses (some .mustNotOccur) _) mustNotOccur_ne [])
  · rw [processStatsODataQueryClauses_ofClauses] at h
    exact absurd h (processStatsODataQueryClauses_refuses (occurance_setOccurance_shouldOccur l) _)

theorem eval_node (leaf : Comparison → Query) (op : Connective) (l r : Tree) :
    ∃ o qs, (Tree.node op l r).eval leaf joinQueries = .ofClauses o qs := by
  rw [Tree.eval]
  cases op <;> unfold joinQueries joinClauses <;> dsimp only <;> split_ifs <;>
    exact ⟨_, _, rfl⟩

/-- The first clause is a comparison. -/
theorem processStatsODataQueryClauses_comparison {c : Comparison} (hc : c.OfStats java)
    (hreadable : c.readable java none = true) {clauses : List Query}
    (h : processStatsODataQueryClauses (c.query java none :: clauses) entries = .ok kept) :
    processStatsODataQueryClauses clauses (entries.filter (c.passed java)) = .ok kept := by
  obtain ⟨t, ht, hquery⟩ := query_ofStats hc hreadable
  rw [hquery] at h
  by_cases hne : c.verb = .ne
  · rw [if_pos hne] at h
    exact absurd h (processStatsODataQueryClauses_refuses
      (q := .ofTerm (some .mustNotOccur) t) mustNotOccur_ne clauses)
  · rw [if_neg hne] at h
    rw [processStatsODataQueryClauses_ofTerm] at h
    obtain ⟨pruned, hpruned, hkept⟩ := bind_eq_ok.mp h
    rwa [pruneEntries_eq (fun e keep => keepsEntry_eq hc hne ht) hpruned] at hkept

/-- The first clause has clauses itself. -/
theorem processStatsODataQueryClauses_node {op : Connective} {l r : Tree} {clauses : List Query}
    (h : processStatsODataQueryClauses
      ((Tree.node op l r).eval (Comparison.query java none) joinQueries :: clauses) entries =
        .ok kept) :
    processStatsODataQueryClauses
      [(Tree.node op l r).eval (Comparison.query java none) joinQueries] entries = .ok kept := by
  obtain ⟨o, qs, hclauses⟩ := eval_node (Comparison.query java none) op l r
  rw [hclauses] at h ⊢
  by_cases ho : o = some .mustOccur
  · subst ho
    rwa [processStatsODataQueryClauses_ofClauses] at h ⊢
  · exact absurd h (processStatsODataQueryClauses_refuses (q := .ofClauses o qs) ho clauses)

/-- The service keeps the entries that the comparisons it gets to let pass. -/
theorem processStatsODataQueryClauses_eval (T : Tree) :
    (∀ c ∈ T.comparisons, c.OfStats java ∧ c.readable java none = true) →
      ∀ entries, processStatsODataQueryClauses
        [T.eval (Comparison.query java none) joinQueries] entries = .ok kept →
          kept = entries.filter fun e => T.reached.all (Comparison.passed java · e) := by
  induction T with
  | leaf c =>
      intro hstats entries h
      obtain ⟨hc, hreadable⟩ := hstats c List.mem_cons_self
      have hkept := processStatsODataQueryClauses_comparison hc hreadable h
      rw [processStatsODataQueryClauses] at hkept
      cases hkept
      simp [Tree.reached]
  | node op l r hl hr =>
      intro hstats entries h
      have hsl := fun c hc => hstats c (List.mem_append_left _ hc)
      have hsr := fun c hc => hstats c (List.mem_append_right _ hc)
      have hsides := processStatsODataQueryClauses_joinQueries (occurance_eval l hsl)
        (occurance_eval r hsr) h
      cases l with
      | node op' l' r' =>
          rw [Tree.reached]
          exact hl hsl entries (processStatsODataQueryClauses_node hsides)
      | leaf c =>
          obtain ⟨hc, hreadable⟩ := hsl c List.mem_cons_self
          have hkept := hr hsr _ (processStatsODataQueryClauses_comparison hc hreadable hsides)
          rw [hkept, List.filter_filter]
          simp only [Tree.reached, List.all_cons, Bool.and_comm]

end

/-! ## Requests -/

section

variable {java : Java} {uri : Uri} {filterExp : List Char} {e : Expr} {entries kept : List Entry}

/-- A request that is accepted has its clauses processed. -/
theorem processed_of_accepted (hfilter : getODataFilterParamValue uri = some filterExp)
    (h : handleStatsGetWithODataRequest java uri entries = .ok kept) :
    ∃ clauses, toQueryClauses java uri = .ok clauses ∧
      processStatsODataQueryClauses clauses entries = .ok kept := by
  unfold handleStatsGetWithODataRequest at h
  rw [if_neg (by rw [hfilter]; exact nofun : ¬getODataFilterParamValue uri = none)] at h
  cases hcount : getODataCountParamValue uri with
  | true =>
      rw [hcount] at h
      cases h
  | false =>
      rw [hcount] at h
      rcases horder : getODataOrderByParamValue uri with message | _ | tuple
      · rw [horder] at h
        cases h
      · rw [horder, if_neg Bool.false_ne_true] at h
        dsimp only at h
        split_ifs at h
        rcases htop : getODataParamValue uri "$top".toList with failure | _ | n
        · rw [htop] at h
          cases h
        · rw [htop] at h
          exact bind_eq_ok.mp h
        · rw [htop] at h
          cases h
      · rw [horder] at h
        cases h

/-- The clauses of a filter: the one of its query. -/
theorem toQueryClauses_eq (hfilter : getODataFilterParamValue uri = some filterExp)
    (htokens : tokenize java (String.ofList filterExp) = .ok e.tokens) {clauses : List Query}
    (h : toQueryClauses java uri = .ok clauses) :
    (∀ c ∈ e.comparisons, c.readable java none = true) ∧
      clauses = [e.visited.eval (Comparison.query java none) joinQueries] := by
  unfold toQueryClauses at h
  rw [hfilter] at h
  obtain ⟨q, hq, h⟩ := bind_eq_ok.mp h
  obtain ⟨skip, -, h⟩ := bind_eq_ok.mp h
  obtain ⟨limit, -, h⟩ := bind_eq_ok.mp h
  obtain ⟨hreadable, rfl⟩ := Expr.toQuery_visited htokens hq
  cases h
  exact ⟨hreadable, rfl⟩

/-- What the service answers to a filter: the entries that the examined comparisons let pass. -/
theorem handleStatsGetWithODataRequest_eq (hfilter : getODataFilterParamValue uri = some filterExp)
    (htokens : tokenize java (String.ofList filterExp) = .ok e.tokens)
    (hstats : ∀ c ∈ e.comparisons, c.OfStats java)
    (haccepted : handleStatsGetWithODataRequest java uri entries = .ok kept) :
    kept = entries.filter fun s => e.examined.all (Comparison.passed java · s) := by
  obtain ⟨clauses, hclauses, hprocessed⟩ := processed_of_accepted hfilter haccepted
  obtain ⟨hreadable, rfl⟩ := toQueryClauses_eq hfilter htokens hclauses
  rw [← e.reached_visited]
  refine processStatsODataQueryClauses_eval e.visited (fun c hc => ?_) entries hprocessed
  rw [e.comparisons_visited] at hc
  exact ⟨hstats c hc, hreadable c hc⟩

mutual

theorem Primary.examined_subset : ∀ p : Primary, p.examined ⊆ p.comparisons
  | .comparison _ => List.Subset.refl _
  | .paren e => e.examined_subset

theorem Expr.examined_subset : ∀ e : Expr, e.examined ⊆ e.comparisons
  | .one p => p.examined_subset
  | .chain p op e => by
      rw [Expr.examined, Expr.comparisons]
      split_ifs
      · exact List.append_subset.mpr
          ⟨List.Subset.trans p.examined_subset (List.subset_append_left _ _),
            List.Subset.trans e.examined_subset (List.subset_append_right _ _)⟩
      · exact List.Subset.trans p.examined_subset (List.subset_append_left _ _)

end

theorem filter_eq_filter_iff {α : Type} {xs : List α} {p q : α → Bool} :
    xs.filter p = xs.filter q ↔ ∀ x ∈ xs, p x = true ↔ q x = true := by
  constructor
  · intro h x hx
    have hmem : x ∈ xs.filter p ↔ x ∈ xs.filter q := by rw [h]
    rwa [List.mem_filter, List.mem_filter, and_iff_right hx, and_iff_right hx] at hmem
  · intro h
    exact List.filter_congr fun x hx => Bool.eq_iff_iff.mpr (h x hx)

/-- **The entries of a filtered response** are those that satisfy every comparison of the filter,
if and only if the entries that do are in reach of the comparisons that are examined, and the
entries that these let pass satisfy the others too. That the filter is a conjunction is not asked
for: a clause of an `or` that is looked at is refused. -/
theorem handleStatsGetWithODataRequest_iff
    (hfilter : getODataFilterParamValue uri = some filterExp)
    (htokens : tokenize java (String.ofList filterExp) = .ok e.tokens)
    (hstats : ∀ c ∈ e.comparisons, c.OfStats java)
    (haccepted : handleStatsGetWithODataRequest java uri entries = .ok kept) :
    (kept = entries.filter fun s => e.comparisons.all (Comparison.satisfied java · s)) ↔
      ∀ s ∈ entries,
        ((∀ c ∈ e.comparisons, c.satisfied java s = true) →
          ∀ c ∈ e.examined, c.reaches s = true) ∧
        ((∀ c ∈ e.examined, c.passed java s = true) →
          ∀ c ∈ e.comparisons, c.satisfied java s = true) := by
  rw [handleStatsGetWithODataRequest_eq hfilter htokens hstats haccepted]
  rw [filter_eq_filter_iff]
  simp only [List.all_eq_true]
  refine forall₂_congr fun s _ => ⟨fun h => ⟨fun hall c hc => ?_, h.mp⟩, fun h => ⟨h.2, ?_⟩⟩
  · have hpassed := h.mpr hall c hc
    unfold Comparison.passed at hpassed
    exact (Bool.and_eq_true _ _ ▸ hpassed).2
  · intro hall c hc
    unfold Comparison.passed
    rw [h.1 hall c hc, hall c (e.examined_subset hc), Bool.or_true]
    rfl

end

/-! ## Two groups -/

/-- The comparison of a name. -/
def nameIs (right : String) : Primary := .comparison ⟨fieldNameName, .eq, right⟩

/-- A request for statistics. -/
def statsRequest (filter : String) : Uri :=
  ⟨"http".toList, none, "host".toList, 8000, "/service/stats".toList,
    some ("$filter=" ++ filter).toList, none⟩

/-- `(name eq a* and name eq *b) and name eq c`. -/
def twoGroups : Expr :=
  .chain (.paren (.chain (nameIs "a*") .and (.one (nameIs "*b")))) .and (.one (nameIs "c"))

/-- The request for it. -/
def twoGroupsRequest : Uri := statsRequest "(name eq a* and name eq *b) and name eq c"

theorem tokenize_twoGroups :
    getODataFilterParamValue twoGroupsRequest =
        some "(name eq a* and name eq *b) and name eq c".toList ∧
      tokenize .words "(name eq a* and name eq *b) and name eq c" = .ok twoGroups.tokens := by
  refine ⟨by decide, ?_⟩
  rfl

/-- The clause for a name. -/
def nameClause (right : String) (matchType : MatchType) : Query :=
  .ofTerm (some .mustOccur) ⟨some fieldNameName, some right, some matchType, none⟩

theorem handleStatsGetWithODataRequest_twoGroups (entries : List Entry) :
    handleStatsGetWithODataRequest .words twoGroupsRequest entries =
      processStatsODataQueryClauses [nameClause "a*" .wildcard, nameClause "*b" .wildcard]
        entries := by
  have hclauses : handleStatsGetWithODataRequest .words twoGroupsRequest entries =
      processStatsODataQueryClauses [.ofClauses (some .mustOccur)
        [.ofClauses (some .mustOccur) [nameClause "a*" .wildcard, nameClause "*b" .wildcard],
          nameClause "c" .term]] entries := rfl
  rw [hclauses, processStatsODataQueryClauses_ofClauses, processStatsODataQueryClauses_ofClauses]

/-- The entry `ab`. -/
def entryAb : Entry := ("ab".toList, ⟨none⟩)

theorem accepts_twoGroups :
    handleStatsGetWithODataRequest .words twoGroupsRequest [entryAb] = .ok [entryAb] := by
  have hbegins : pruneEntries ⟨some fieldNameName, some "a*", some .wildcard, none⟩ [entryAb] =
      .ok [entryAb] := rfl
  have hends : pruneEntries ⟨some fieldNameName, some "*b", some .wildcard, none⟩ [entryAb] =
      .ok [entryAb] := rfl
  rw [handleStatsGetWithODataRequest_twoGroups, nameClause, nameClause,
    processStatsODataQueryClauses_ofTerm, hbegins]
  show processStatsODataQueryClauses _ [entryAb] = _
  rw [processStatsODataQueryClauses_ofTerm, hends]
  show processStatsODataQueryClauses [] [entryAb] = _
  rw [processStatsODataQueryClauses]

theorem ofStats_twoGroups : ∀ c ∈ twoGroups.comparisons, c.OfStats .words := by
  have hname : ∀ right, '\'' ∉ right.toList → OneWildcard (literalText right.toList) →
      Comparison.OfStats .words ⟨fieldNameName, .eq, right⟩ := fun right hquote hwildcard =>
    Or.inl ⟨rfl, Or.inl rfl, Or.inl hquote, hwildcard⟩
  have hcomparisons : twoGroups.comparisons = [⟨fieldNameName, .eq, "a*"⟩,
      ⟨fieldNameName, .eq, "*b"⟩, ⟨fieldNameName, .eq, "c"⟩] := rfl
  rw [hcomparisons]
  intro c hc
  simp only [List.mem_cons, List.not_mem_nil, or_false] at hc
  rcases hc with rfl | rfl | rfl
  · exact hname "a*" (by decide) (Or.inr ⟨['a'], by decide, Or.inr rfl⟩)
  · exact hname "*b" (by decide) (Or.inr ⟨['b'], by decide, Or.inl rfl⟩)
  · exact hname "c" (by decide) (Or.inl (by decide))

theorem handleStatsGetWithODataRequest_iff_twoGroups :
    ([entryAb] = [entryAb].filter fun s =>
        twoGroups.comparisons.all (Comparison.satisfied .words · s)) ↔
      ∀ s ∈ [entryAb],
        ((∀ c ∈ twoGroups.comparisons, c.satisfied .words s = true) →
          ∀ c ∈ twoGroups.examined, c.reaches s = true) ∧
        ((∀ c ∈ twoGroups.examined, c.passed .words s = true) →
          ∀ c ∈ twoGroups.comparisons, c.satisfied .words s = true) :=
  handleStatsGetWithODataRequest_iff tokenize_twoGroups.1 tokenize_twoGroups.2 ofStats_twoGroups
    accepts_twoGroups

/-- What comes after parens around two comparisons is not looked at. -/
theorem after_parens_ignored :
    getODataFilterParamValue twoGroupsRequest =
        some "(name eq a* and name eq *b) and name eq c".toList ∧
      tokenize .words "(name eq a* and name eq *b) and name eq c" = .ok twoGroups.tokens ∧
      (∀ c ∈ twoGroups.comparisons, c.OfStats .words) ∧
      handleStatsGetWithODataRequest .words twoGroupsRequest [entryAb] = .ok [entryAb] ∧
      [entryAb].filter (fun s => twoGroups.comparisons.all (Comparison.satisfied .words · s)) =
        [] :=
  ⟨tokenize_twoGroups.1, tokenize_twoGroups.2, ofStats_twoGroups, accepts_twoGroups, by decide⟩

end Xenon.OData

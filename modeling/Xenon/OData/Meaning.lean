import Xenon.OData.Comparisons
import Xenon.OData.Grouping

/-!
# The meaning of a filter

What the query of a `$filter` finds is what its tree says of the comparisons
(`finds_toQuery`). So for supported comparisons it is the meaning of the filter exactly where
the tree is.
-/

namespace Xenon.OData

open Xenon.Foundation
open Xenon.Filter (Occurance)
open Xenon.Lucene
open Xenon.QueryTask

variable {java : Java} {names : Option (List String)}

/-! ## The query of a tree -/

/-- What a query says of a document when it is a clause. -/
def signedQuery (r : Reading) (q : Query) : Signed :=
  ⟨if q.occurance = some .mustNotOccur then !reads noRewrite r q else reads noRewrite r q,
    q.occurance = some .mustNotOccur⟩

/-- Two clauses under a query. -/
theorem reads_pair (r : Reading) (o : Option Occurance) (l l' : Query) :
    reads noRewrite r (.mk o none (some [l, l'])) =
      booleanMatches [(l.effective, reads noRewrite r l), (l'.effective, reads noRewrite r l')] :=
  reads_clauses rfl

/-- `visitBinaryOperator` joins what the two sides say. -/
theorem signedQuery_joinQueries (r : Reading) (op : Connective) (l l' : Query) :
    signedQuery r (joinQueries op l l') =
      Signed.join op (signedQuery r l) (signedQuery r l') := by
  obtain ⟨o, t, qs⟩ := l
  obtain ⟨o', t', qs'⟩ := l'
  have hreads : ∀ u, reads noRewrite r (.mk u t qs) = reads noRewrite r (.mk o t qs) :=
    fun u => reads_mk noRewrite r u o t qs
  have hreads' : ∀ u, reads noRewrite r (.mk u t' qs') = reads noRewrite r (.mk o' t' qs') :=
    fun u => reads_mk noRewrite r u o' t' qs'
  by_cases h : o = some .mustNotOccur <;> by_cases h' : o' = some .mustNotOccur <;> cases op <;>
    simp [signedQuery, joinQueries, joinClauses, Signed.join, reads_pair, setOccurance,
      forceOccurance, Query.effective, Query.occurance, h, h', booleanMatches, hreads, hreads',
      Query.ofClauses, Bool.and_comm]

/-- What is found by a query as a whole: a negative list of clauses finds nothing. -/
theorem readsAtTop_eq (r : Reading) (q : Query) :
    readsAtTop noRewrite r q = if q.occurance = some .mustNotOccur then
      q.booleanClauses.isNone && !(signedQuery r q).holds else (signedQuery r q).holds := by
  obtain ⟨o, t, qs⟩ := q
  cases qs with
  | none => by_cases h : o = some .mustNotOccur <;>
      simp [readsAtTop, signedQuery, Query.booleanClauses, Query.occurance, h]
  | some qs =>
      rw [readsAtTop_clauses]
      by_cases h : o = some .mustNotOccur <;>
        simp [signedQuery, Query.booleanClauses, Query.occurance, h]

/-- The comparisons whose query is a single term. -/
def Comparison.single (java : Java) (names : Option (List String)) (c : Comparison) : Bool :=
  (c.query java names).booleanClauses.isNone

theorem Comparison.signedQuery_query {c : Comparison} (h : c.supported java names = true)
    {d : Document} (hd : Indexed d) :
    signedQuery (.ofDocument d) (c.query java names) =
      ⟨c.holds java names d, c.verb = .ne⟩ := by
  obtain ⟨-, hoccurance, hfinds⟩ := Comparison.finds_query h
  rw [signedQuery, hoccurance, hfinds.finds d hd]
  by_cases hne : c.verb = .ne <;> simp [Comparison.occurance, Comparison.holds, hne]

section

variable {T : Tree} (h : ∀ c ∈ T.comparisons, c.supported java names = true)
include h

/-- The query of a tree says what the tree says. -/
theorem Tree.signedQuery_eval {d : Document} (hd : Indexed d) :
    signedQuery (.ofDocument d) (T.eval (Comparison.query java names) joinQueries) =
      T.signed (Comparison.holds java names d) := by
  induction T with
  | leaf c => exact Comparison.signedQuery_query (h c (by simp [Tree.comparisons])) hd
  | node op l r hl hr =>
      rw [Tree.eval, signedQuery_joinQueries,
        hl fun c hc => h c (by simp [Tree.comparisons, hc]),
        hr fun c hc => h c (by simp [Tree.comparisons, hc])]
      rfl

/-- The query of a tree finds the documents that the tree says. -/
theorem Tree.readsAtTop_eval {d : Document} (hd : Indexed d) :
    readsAtTop noRewrite (.ofDocument d) (T.eval (Comparison.query java names) joinQueries) =
      T.matched (Comparison.single java names) (Comparison.holds java names d) := by
  have hsigned := Tree.signedQuery_eval h hd
  have hnegative : decide ((T.eval (Comparison.query java names) joinQueries).occurance =
      some .mustNotOccur) = (T.signed (Comparison.holds java names d)).negative := by
    rw [← hsigned]
    rfl
  rw [readsAtTop_eq, hsigned]
  cases T with
  | leaf c =>
      have hne : decide ((c.query java names).occurance = some .mustNotOccur) =
          decide (c.verb = .ne) := hnegative
      rw [decide_eq_decide] at hne
      simp only [Tree.eval, Tree.matched, hne, Comparison.single]
      rfl
  | node op l r =>
      have hclauses : ((Tree.node op l r).eval (Comparison.query java names)
          joinQueries).booleanClauses.isNone = false := by
        cases op <;> simp only [Tree.eval, joinQueries, joinClauses] <;> split_ifs <;> rfl
      rw [Tree.matched, ← hnegative, hclauses]
      by_cases hnot : ((Tree.node op l r).eval (Comparison.query java names)
        joinQueries).occurance = some .mustNotOccur <;> simp [hnot]

theorem Tree.converts_eval :
    ∀ t ∈ (T.eval (Comparison.query java names) joinQueries).terms,
      ∃ lq, convertTerm t = .ok lq := by
  intro t ht
  rw [terms_eval, List.mem_flatMap] at ht
  obtain ⟨c, hc, ht⟩ := ht
  exact (Comparison.finds_query (h c hc)).2.2.converts t ht

end

/-! ## The meaning of a filter -/

/-- The query of a filter can be converted, and of the indexed documents it finds those of
which the expression is true. -/
def Means (java : Java) (names : Option (List String)) (filterExp : String) (e : Expr) : Prop :=
  ∃ q, toQuery java names filterExp = .ok (some q) ∧
    (∀ t ∈ q.terms, ∃ lq, convertTerm t = .ok lq) ∧
      ∀ d, Indexed d → readsAtTop noRewrite (.ofDocument d) q =
        e.holds (Comparison.holds java names d)

/-- Comparisons with all combinations of truth values. -/
def Independent (java : Java) (names : Option (List String)) (cs : List Comparison) : Prop :=
  cs.Nodup ∧ ∀ v : Comparison → Bool, ∃ d, Indexed d ∧ ∀ c ∈ cs, c.holds java names d = v c

theorem finds_toQuery {filterExp : String} {e : Expr}
    (htokens : tokenize java filterExp = .ok e.tokens)
    (h : ∀ c ∈ e.comparisons, c.supported java names = true) :
    ∃ q, toQuery java names filterExp = .ok (some q) ∧
      (∀ t ∈ q.terms, ∃ lq, convertTerm t = .ok lq) ∧
        ∀ d, Indexed d → readsAtTop noRewrite (.ofDocument d) q =
          e.visited.matched (Comparison.single java names) (Comparison.holds java names d) := by
  have hvisited : ∀ c ∈ e.visited.comparisons, c.supported java names = true := by
    rwa [e.comparisons_visited]
  exact ⟨_, toQuery_expr htokens fun c hc => (Comparison.finds_query (h c hc)).1,
    Tree.converts_eval hvisited, fun d hd => Tree.readsAtTop_eval hvisited hd⟩

theorem Tree.matched_congr {v w : Comparison → Bool} {T : Tree}
    (h : ∀ c ∈ T.comparisons, v c = w c) (single : Comparison → Bool) :
    T.matched single v = T.matched single w := by
  cases T with
  | leaf c => rw [Tree.matched, Tree.matched, h c (by simp [Tree.comparisons])]
  | node op l r =>
      rw [Tree.matched, Tree.matched, Tree.signed_eq, Tree.signed_eq,
        Formula.eval_congr fun c hc => h c (by rwa [Tree.vars_effective] at hc)]

theorem Expr.holds_congr {v w : Comparison → Bool} {e : Expr}
    (h : ∀ c ∈ e.comparisons, v c = w c) : e.holds v = e.holds w := by
  have hvars : (e.parsedFrom none).vars = e.comparisons := by
    rw [e.vars_parsedFrom]
    rfl
  have heval := e.eval_parsedFrom v none
  rw [Formula.eval_congr fun c hc => h c (hvars ▸ hc), e.eval_parsedFrom w none] at heval
  exact heval.symm

/-- **The meaning of a filter.** For supported comparisons, the query of a filter has the
meaning of the filter if no `or` comes after an `and` and no closing paren is taken for that of
an operator before it, both sides of every `or` are negative or none is, and the whole is not
negative; and if the comparisons are independent, then only so. -/
theorem filter_means {filterExp : String} {e : Expr}
    (htokens : tokenize java filterExp = .ok e.tokens)
    (h : ∀ c ∈ e.comparisons, c.supported java names = true) :
    (e.grouped = true ∧ e.uniform = true ∧ e.negative = false →
        Means java names filterExp e) ∧
      (Independent java names e.comparisons → (Means java names filterExp e ↔
        e.grouped = true ∧ e.uniform = true ∧ e.negative = false)) := by
  obtain ⟨q, hq, hconvert, hfinds⟩ := finds_toQuery htokens h
  have henough : e.grouped = true ∧ e.uniform = true ∧ e.negative = false →
      Means java names filterExp e := by
    rintro ⟨hgrouped, huniform, hnegative⟩
    refine ⟨q, hq, hconvert, fun d hd => ?_⟩
    rw [hfinds d hd, Expr.matched_eq_holds hgrouped huniform hnegative]
  refine ⟨henough, fun ⟨hnd, hindependent⟩ => ⟨fun hmeans => ?_, henough⟩⟩
  obtain ⟨q', hq', -, hfinds'⟩ := hmeans
  obtain rfl : q = q' := by simpa using hq.symm.trans hq'
  rw [← e.matched_iff hnd (Comparison.single java names)]
  intro v
  obtain ⟨d, hd, hv⟩ := hindependent v
  rw [← Expr.holds_congr hv, ← hfinds' d hd, hfinds d hd]
  exact (Tree.matched_congr (by rwa [e.comparisons_visited]) _).symm

/-- The comparison of a property with a word. -/
def Comparison.equals (left right : String) : Comparison := ⟨left, .eq, right⟩

/-- `a eq b or c eq d` means what it says. -/
theorem filter_means_or :
    let e : Expr := .chain (.comparison (.equals "a" "b")) .or
      (.one (.comparison (.equals "c" "d")))
    tokenize .words "a eq b or c eq d" = .ok e.tokens ∧
      (∀ c ∈ e.comparisons, c.supported .words (some []) = true) ∧
        Means .words (some []) "a eq b or c eq d" e := by
  intro e
  have htokens : tokenize .words "a eq b or c eq d" = .ok e.tokens := rfl
  have h : ∀ c ∈ e.comparisons, c.supported .words (some []) = true := by decide
  exact ⟨htokens, h, (filter_means htokens h).1 ⟨rfl, rfl, rfl⟩⟩

/-- A document with one property besides its link. -/
def wordDocument (field value : String) : Document :=
  ⟨fun f => if f = fieldNameSelfLink then [(0, "/x")] else if f = field then [(0, value)] else [],
    fun _ => [], fun _ => []⟩

/-- `a eq b and c eq d or x eq y` is read as `a eq b and (c eq d or x eq y)`, and a document
with `y` in `x` is not found. -/
theorem filter_and_or_not_means :
    ¬ ∀ (java : Java) (names : Option (List String)) (filterExp : String) (e : Expr),
      tokenize java filterExp = .ok e.tokens → Means java names filterExp e := by
  intro h
  obtain ⟨q, hq, -, hfinds⟩ := h .words (some []) "a eq b and c eq d or x eq y"
    (.chain (.comparison (.equals "a" "b")) .and (.chain (.comparison (.equals "c" "d")) .or
      (.one (.comparison (.equals "x" "y"))))) rfl
  have hfinds := hfinds (wordDocument "x" "y") (by simp [Indexed, wordDocument])
  have hread : toQuery .words (some []) "a eq b and c eq d or x eq y" =
      .ok (some (.ofClauses (some .mustOccur)
        [.ofTerm (some .mustOccur) ⟨some "a", some "b", some .term, none⟩,
          .ofClauses (some .mustOccur)
            [.ofTerm (some .shouldOccur) ⟨some "c", some "d", some .term, none⟩,
              .ofTerm (some .shouldOccur) ⟨some "x", some "y", some .term, none⟩]])) := rfl
  obtain rfl := Option.some.inj (Except.ok.inj (hread.symm.trans hq))
  revert hfinds
  decide

end Xenon.OData

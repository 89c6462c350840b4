import Xenon.Lucene.Converter

/-!
# What a query means to Lucene

`reads` is the meaning of a query in the terms of the query itself: clauses are
combined as `BooleanQuery` does, and a list of clauses can be read as a set of
values (`Rewrite`). The conversion gives a query this meaning
(`holds_convertToLuceneQuery`).
-/

namespace Xenon.Lucene

open Xenon.Foundation
open Xenon.Filter (Occurance)
open Xenon.QueryTask

/-- Which lists of clauses are read as a set of values of a field. -/
abbrev Rewrite := List Query → Option (String × List String)

/-- The choice of `convertToLuceneBooleanQuery`. -/
def termInSetRewrite (maxClauseCount : Nat) : Rewrite := fun qs =>
  match termInSet maxClauseCount qs with
  | .ok r => r
  | .error _ => none

/-- Read every list by its clauses. -/
def noRewrite : Rewrite := fun _ => none

/-- The reading of a single term; one that cannot be converted matches nothing. -/
def Reading.ofTerm (r : Reading) (t : QueryTerm) : Bool :=
  match convertTerm t with
  | .ok q => r.term t q
  | .error _ => false

mutual

/-- Whether a query matches. What the conversion refuses matches nothing. -/
def reads (rewrite : Rewrite) (r : Reading) : Query → Bool
  | .mk _ (some _) (some _) => false
  | .mk _ (some t) none => r.ofTerm t
  | .mk _ none qs => readsClauses rewrite r qs

def readsClauses (rewrite : Rewrite) (r : Reading) : Option (List Query) → Bool
  | none => false
  | some qs =>
      match rewrite qs with
      | some (field, values) => r.inSet field values
      | none => booleanMatches (readsAll rewrite r qs)

def readsAll (rewrite : Rewrite) (r : Reading) : List Query → List (Occurance × Bool)
  | [] => []
  | q :: qs => (q.effective, reads rewrite r q) :: readsAll rewrite r qs

end

/-- At the top the occurance of a list of clauses counts. -/
def readsAtTop (rewrite : Rewrite) (r : Reading) (q : Query) : Bool :=
  match q.booleanClauses with
  | none => reads rewrite r q
  | some _ => booleanMatches [(q.effective, reads rewrite r q)]

theorem readsAll_eq (rewrite : Rewrite) (r : Reading) (qs : List Query) :
    readsAll rewrite r qs = qs.map fun q => (q.effective, reads rewrite r q) := by
  induction qs with
  | nil => rfl
  | cons q qs ih => rw [readsAll, ih, List.map_cons]

/-- The meaning of a list of clauses that is not read as a set. -/
theorem reads_clauses {rewrite : Rewrite} {r : Reading} {o : Option Occurance} {qs : List Query}
    (h : rewrite qs = none) :
    reads rewrite r (.mk o none (some qs)) =
      booleanMatches (qs.map fun q => (q.effective, reads rewrite r q)) := by
  rw [reads, readsClauses, h, readsAll_eq]

theorem reads_inSet {rewrite : Rewrite} {r : Reading} {o : Option Occurance} {qs : List Query}
    {field : String} {values : List String} (h : rewrite qs = some (field, values)) :
    reads rewrite r (.mk o none (some qs)) = r.inSet field values := by
  rw [reads, readsClauses, h]

theorem readsAtTop_clauses (rewrite : Rewrite) (r : Reading) (o : Option Occurance)
    (t : Option QueryTerm) (qs : List Query) :
    readsAtTop rewrite r (.mk o t (some qs)) =
      (decide (o ≠ some .mustNotOccur) && reads rewrite r (.mk o t (some qs))) := by
  cases o with
  | none => simp [readsAtTop, booleanMatches, Query.effective]
  | some o => cases o <;> simp [readsAtTop, booleanMatches, Query.effective]

/-- A query for which every term is false matches nothing. -/
theorem reads_false {rewrite : Rewrite} {r : Reading} (hterm : ∀ t, r.ofTerm t = false)
    (hset : ∀ field values, r.inSet field values = false) (q : Query) :
    reads rewrite r q = false := by
  induction q using Query.ofAll with
  | h o t qs ih =>
      rcases t with _ | t <;> rcases qs with _ | qs
      · rfl
      · cases hr : rewrite qs with
        | some p => rw [reads_inSet hr, hset]
        | none =>
            rw [reads_clauses hr]
            exact booleanMatches_false ih
      · rw [reads, hterm]
      · rfl

/-- The meaning depends on the terms of the query only. -/
theorem reads_congr {rewrite : Rewrite} {r r' : Reading} (hset : r.inSet = r'.inSet) (q : Query)
    (hterms : ∀ t ∈ q.terms, r.ofTerm t = r'.ofTerm t) :
    reads rewrite r q = reads rewrite r' q := by
  induction q using Query.ofAll with
  | h o t qs ih =>
      rcases t with _ | t <;> rcases qs with _ | qs
      · rfl
      · cases hr : rewrite qs with
        | some p => rw [reads_inSet hr, reads_inSet hr, hset]
        | none =>
            rw [reads_clauses hr, reads_clauses hr]
            congr 1
            refine List.map_congr_left fun q hq => ?_
            rw [ih q hq fun u hu => hterms u (Query.terms_subset hq hu)]
      · rw [reads, reads]
        exact hterms t (by simp [Query.terms_mk])
      · rfl

/-! ## The conversion -/

/-- The clauses that `buildBooleanQuery` adds, in the terms of the queries. -/
theorem buildBooleanQuery_spec {maxClauseCount : Nat} {r : Reading} {qs : List Query}
    (hqs : ∀ q ∈ qs, ∀ context lq context',
      convertToLuceneQuery maxClauseCount q context = .ok (lq, context') →
        lq.holds r = reads (termInSetRewrite maxClauseCount) r q) :
    ∀ {n context clauses context'},
      buildBooleanQuery maxClauseCount qs n context = .ok (clauses, context') →
        holdsAll r clauses = readsAll (termInSetRewrite maxClauseCount) r qs := by
  induction qs with
  | nil =>
      intro n context clauses context' h
      cases h
      rfl
  | cons q qs ih =>
      intro n context clauses context' h
      obtain ⟨⟨lq, context₁⟩, hq, h⟩ := bind_eq_ok.mp h
      dsimp only at h
      obtain ⟨_, -, h⟩ := bind_eq_ok.mp h
      obtain ⟨⟨rest, context₂⟩, hrest, h⟩ := bind_eq_ok.mp h
      cases h
      rw [holdsAll, holdsClause, readsAll, hqs q List.mem_cons_self _ _ _ hq,
        ih (fun q' hq' => hqs q' (List.mem_cons_of_mem _ hq')) hrest]
      rfl

/-- **The conversion keeps the meaning of a query**, read with the sets of values
that it chooses. -/
theorem holds_convertToLuceneQuery (maxClauseCount : Nat) (r : Reading) (q : Query) :
    ∀ context lq context', convertToLuceneQuery maxClauseCount q context = .ok (lq, context') →
      lq.holds r = reads (termInSetRewrite maxClauseCount) r q := by
  induction q using Query.ofAll with
  | h o t qs ih =>
      intro context lq context' h
      rcases t with _ | t <;> rcases qs with _ | qs
      · cases h
      · unfold convertToLuceneQuery convertToLuceneBooleanQuery at h
        obtain ⟨choice, hchoice, h⟩ := bind_eq_ok.mp h
        have hrewrite : termInSetRewrite maxClauseCount qs = choice := by
          simp [termInSetRewrite, hchoice]
        cases choice with
        | some p =>
            obtain ⟨field, values⟩ := p
            cases h
            rw [reads_inSet hrewrite]
            rfl
        | none =>
            dsimp only at h
            obtain ⟨⟨clauses, context₁⟩, hbuild, h⟩ := bind_eq_ok.mp h
            cases h
            rw [reads, readsClauses, hrewrite, LuceneQuery.holds,
              buildBooleanQuery_spec ih hbuild]
            rfl
      · obtain ⟨q, hq, h⟩ := bind_eq_ok.mp h
        cases h
        simp [reads, Reading.ofTerm, hq, LuceneQuery.holds]
      · cases h

theorem holds_convert {maxClauseCount : Nat} {r : Reading} {q : Query}
    {context context' : Option QueryRuntimeContext} {lq : LuceneQuery}
    (h : convert maxClauseCount q context = .ok (lq, context')) :
    lq.holds r = readsAtTop (termInSetRewrite maxClauseCount) r q := by
  obtain ⟨o, t, qs⟩ := q
  cases qs with
  | none => exact holds_convertToLuceneQuery maxClauseCount r _ _ _ _ h
  | some qs =>
      obtain ⟨⟨lq', context₁⟩, hlq, h⟩ := bind_eq_ok.mp h
      cases h
      rw [LuceneQuery.holds, holdsAll, holdsAll, holdsClause,
        holds_convertToLuceneQuery maxClauseCount r _ _ _ _ hlq]
      rfl

end Xenon.Lucene

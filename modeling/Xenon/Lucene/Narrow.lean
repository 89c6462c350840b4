import Xenon.Lucene.Meaning

/-!
# Narrowing a query

Callers add a `MUST` clause to the query of a user to narrow it. The clause joins
the clauses of the query, so it narrows a list that has a `MUST` clause already:
in any other list the `SHOULD` clauses become optional, and a query that was a
single term loses it.
-/

namespace Xenon.Lucene

open Xenon.Filter (Occurance)
open Xenon.QueryTask

/-- The query and the clause together. -/
def Narrows (q : Query) : Prop :=
  ∀ c : Query, c.occurance = some .mustOccur → ∀ r,
    readsAtTop noRewrite r (q.addBooleanClause c) =
      (readsAtTop noRewrite r q && readsAtTop noRewrite r c)

/-- A list of clauses one of which must occur. A list that must not occur matches
nothing at the top, and stays so. -/
def narrowable (q : Query) : Bool :=
  match q.booleanClauses with
  | none => false
  | some qs => q.occurance = some .mustNotOccur || qs.any fun c => c.effective = .mustOccur

/-- Terms that the conversion accepts, one for every number. -/
def numberedTerm (n : Nat) : QueryTerm where
  propertyName := some "name"
  matchValue := some (String.ofList (List.replicate n 'a'))
  matchType := some .term
  range := none

theorem numberedTerm_injective : Function.Injective numberedTerm := by
  intro m n h
  have hvalue : String.ofList (List.replicate m 'a') = String.ofList (List.replicate n 'a') :=
    Option.some.inj (congrArg QueryTerm.matchValue h)
  have hlist := String.ofList_injective hvalue
  simpa using congrArg List.length hlist

/-- The reading in which one term holds. -/
def onlyTerm (t : QueryTerm) : Reading := ⟨fun u _ => u = t, fun _ _ => false⟩

theorem exists_numberedTerm (ts : List QueryTerm) : ∃ n, numberedTerm n ∉ ts := by
  by_contra hall
  push Not at hall
  have hsub : Set.range numberedTerm ⊆ {t | t ∈ ts} := by
    rintro _ ⟨n, rfl⟩
    exact hall n
  exact (Set.infinite_range_of_injective numberedTerm_injective)
    ((List.finite_toSet ts).subset hsub)

@[simp] theorem onlyTerm_ofTerm_self (n : Nat) :
    (onlyTerm (numberedTerm n)).ofTerm (numberedTerm n) = true := by
  have hok : convertTerm (numberedTerm n) =
      .ok (.termQuery "name" (String.ofList (List.replicate n 'a'))) := rfl
  simp [Reading.ofTerm, hok, onlyTerm]

/-- The reading in which no term holds. -/
def noTerm : Reading := ⟨fun _ _ => false, fun _ _ => false⟩

theorem noTerm_ofTerm (t : QueryTerm) : noTerm.ofTerm t = false := by
  unfold Reading.ofTerm
  split <;> rfl

/-- A query without the one term that holds matches nothing. -/
theorem reads_onlyTerm {n : Nat} {q : Query} (h : numberedTerm n ∉ q.terms) :
    reads noRewrite (onlyTerm (numberedTerm n)) q = false := by
  have hnone : reads noRewrite noTerm q = false := reads_false noTerm_ofTerm (fun _ _ => rfl) q
  have hset : (onlyTerm (numberedTerm n)).inSet = noTerm.inSet := rfl
  rw [← hnone]
  refine reads_congr hset q fun t ht => ?_
  have hne : t ≠ numberedTerm n := fun heq => h (heq ▸ ht)
  rw [noTerm_ofTerm]
  unfold Reading.ofTerm onlyTerm
  split
  · exact decide_eq_false hne
  · rfl

/-! ## When a clause narrows -/

theorem narrows_of_narrowable {o : Option Occurance} {qs : List Query}
    (h : narrowable (.mk o none (some qs)) = true) : Narrows (.mk o none (some qs)) := by
  intro c hc r
  have hc' : c.effective = .mustOccur := by simp [Query.effective, hc]
  rw [Query.addBooleanClause, readsAtTop_clauses, readsAtTop_clauses]
  by_cases ho : o = some .mustNotOccur
  · simp [ho]
  · have hmust : ∃ q ∈ qs, q.effective = .mustOccur := by simpa [narrowable, ho] using h
    have hmust' : ∃ q ∈ qs ++ [c], q.effective = .mustOccur := ⟨c, by simp, hc'⟩
    have htop : readsAtTop noRewrite r c = reads noRewrite r c := by
      obtain ⟨oc, tc, qsc⟩ := c
      cases qsc with
      | none => rfl
      | some qsc =>
          rw [readsAtTop_clauses]
          simp [show oc = some .mustOccur from hc]
    rw [htop, reads_clauses rfl, reads_clauses rfl, Bool.eq_iff_iff, Bool.and_eq_true,
      Bool.and_eq_true, Bool.and_eq_true, booleanMatches_must hmust', booleanMatches_must hmust]
    simp only [List.forall_mem_append, List.forall_mem_singleton, hc', true_implies,
      reduceCtorEq, false_implies, and_true]
    tauto

/-- A list without a `MUST` clause: a clause on a new term is matched where the
list is not. -/
theorem not_narrows_clauses {o : Option Occurance} {qs : List Query}
    (h : narrowable (.mk o none (some qs)) = false) : ¬ Narrows (.mk o none (some qs)) := by
  intro hn
  obtain ⟨ho, hmust⟩ : o ≠ some .mustNotOccur ∧ ∀ q ∈ qs, q.effective ≠ .mustOccur := by
    obtain ⟨ho, hany⟩ := Bool.or_eq_false_iff.mp h
    exact ⟨of_decide_eq_false ho, fun q hq hm => List.any_eq_false.mp hany q hq (by simp [hm])⟩
  obtain ⟨n, hfresh⟩ := exists_numberedTerm (Query.mk o none (some qs)).terms
  have hq := reads_onlyTerm hfresh
  have hall : ∀ q ∈ qs, reads noRewrite (onlyTerm (numberedTerm n)) q = false := fun q hq =>
    reads_onlyTerm fun hmem => hfresh (Query.terms_subset hq hmem)
  have hnarrow := hn (.ofTerm (some .mustOccur) (numberedTerm n)) rfl (onlyTerm (numberedTerm n))
  rw [Query.addBooleanClause, readsAtTop_clauses, readsAtTop_clauses, hq, reads_clauses rfl,
    Bool.and_false, Bool.false_and] at hnarrow
  have hmatch : booleanMatches ((qs ++ [Query.ofTerm (some .mustOccur) (numberedTerm n)]).map
      fun q => (q.effective, reads noRewrite (onlyTerm (numberedTerm n)) q)) = true := by
    rw [booleanMatches_must ⟨_, List.mem_append_right _ (List.mem_singleton_self _), rfl⟩]
    simp only [List.forall_mem_append, List.forall_mem_singleton]
    refine ⟨⟨fun q hq hm => absurd hm (hmust q hq), fun _ => onlyTerm_ofTerm_self n⟩,
      fun q hq _ => hall q hq, fun h => ?_⟩
    cases h
  rw [hmatch] at hnarrow
  simp [ho] at hnarrow

/-- A term that is accepted: the clause takes its place. -/
theorem not_narrows_term {o : Option Occurance} {t : QueryTerm} {q : LeafQuery}
    (ht : convertTerm t = .ok q) : ¬ Narrows (.mk o (some t) none) := by
  intro hn
  by_cases ho : o = some .mustNotOccur
  · have := hn (.ofTerm (some .mustOccur) t) rfl ⟨fun _ _ => true, fun _ _ => true⟩
    rw [Query.addBooleanClause, readsAtTop_clauses] at this
    simp [ho, readsAtTop, Query.ofTerm, reads, Reading.ofTerm, ht] at this
  · obtain ⟨n, hfresh⟩ := exists_numberedTerm (Query.mk o (some t) none).terms
    have := hn (.ofTerm (some .mustOccur) (numberedTerm n)) rfl (onlyTerm (numberedTerm n))
    rw [Query.addBooleanClause, readsAtTop_clauses, reads_clauses rfl] at this
    have hq : readsAtTop noRewrite (onlyTerm (numberedTerm n)) (.mk o (some t) none) = false :=
      reads_onlyTerm hfresh
    rw [hq] at this
    simp [ho, booleanMatches, Query.ofTerm, Query.effective, reads] at this

/-- **Adding a `MUST` clause is conjunction exactly for a list that has a `MUST`
clause** (or that must not occur itself), among the queries that can be
converted. -/
theorem narrows_iff_narrowable {maxClauseCount : Nat} {q : Query} {lq : LuceneQuery}
    {context context' : Option QueryRuntimeContext}
    (hq : convert maxClauseCount q context = .ok (lq, context')) :
    Narrows q ↔ narrowable q = true := by
  obtain ⟨o, t, qs⟩ := q
  rcases qs with _ | qs
  · rcases t with _ | t
    · cases hq
    · obtain ⟨leaf, ht, -⟩ := Foundation.bind_eq_ok.mp hq
      exact iff_of_false (not_narrows_term ht) (by simp [narrowable])
  · rcases t with _ | t
    · constructor
      · intro hn
        by_contra hnot
        exact not_narrows_clauses (by simpa using hnot) hn
      · exact narrows_of_narrowable
    · obtain ⟨_, hbad, -⟩ := Foundation.bind_eq_ok.mp hq
      cases hbad

/-- `a AND NOT b`, narrowed. -/
theorem narrows_with_must :
    let q : Query := .ofClauses none [.ofTerm none (numberedTerm 1),
      .ofTerm (some .mustNotOccur) (numberedTerm 2)]
    narrowable q = true ∧ Narrows q := by
  intro q
  have h : narrowable q = true := by decide
  have hq : convert 1024 q none = .ok (.booleanQuery [(.mustOccur, .booleanQuery
      [(.mustOccur, .leaf (numberedTerm 1) (.termQuery "name" "a")),
        (.mustNotOccur, .leaf (numberedTerm 2) (.termQuery "name" "aa"))])], none) := rfl
  exact ⟨h, (narrows_iff_narrowable hq).mpr h⟩

/-- `a OR b`, narrowed to `c`: a document with `c` alone matches. -/
theorem narrowed_disjunction :
    ¬ ∀ maxClauseCount q context lq context',
      convert maxClauseCount q context = .ok (lq, context') → Narrows q := by
  intro h
  have hq := h 1024 (.ofClauses none [.ofTerm (some .shouldOccur) (numberedTerm 1),
    .ofTerm (some .shouldOccur) (numberedTerm 2)]) none _ _ rfl
    (.ofTerm (some .mustOccur) (numberedTerm 3)) rfl (onlyTerm (numberedTerm 3))
  revert hq
  decide

end Xenon.Lucene

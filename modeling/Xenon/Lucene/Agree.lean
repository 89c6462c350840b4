import Xenon.Filter.Objects
import Xenon.Lucene.Boolean
import Xenon.Lucene.TermInSet

/-!
# The filter and the index query

The authorization context has a resource query twice: as a filter for single
documents and, converted, as part of every search. The two agree on the queries of
`agreesAtTop`, and on no other query without repeated terms.
-/

namespace Xenon.Lucene

open Xenon.Foundation
open Xenon.Filter (Occurance Clauses Same Conj conjsHold createObjects toFilter)
open Xenon.QueryTask

/-! ## The sets of values, in the terms of a filter -/

/-- Truth values for the terms of a query. A set of values is the equality terms for
them. -/
def Reading.ofTerms (v : QueryTerm → Bool) : Reading where
  term t _ := v t
  inSet field values := values.any fun value => v ⟨some field, some value, some .term, none⟩

/-- What the rewrite looks at. -/
def outline : Filter.Query QueryTerm → Query
  | .term o t => .mk o (some t) none
  | .clauses o _ => .mk o none (some [])

/-- The equality terms that a list of clauses is read as. -/
def inSetTerms (maxClauseCount : Nat) (fs : Clauses QueryTerm) : Option (List QueryTerm) :=
  (termInSetRewrite maxClauseCount (fs.toList.map outline)).map fun p =>
    p.2.map fun value => ⟨some p.1, some value, some .term, none⟩

theorem termInSetLoop_congr {qs : List Query} {fs : List (Filter.Query QueryTerm)}
    (h : List.Forall₂ Same qs fs) : ∀ name acc,
    termInSetLoop qs name acc = termInSetLoop (fs.map outline) name acc := by
  induction h with
  | nil => exact fun _ _ => rfl
  | @cons q f qs fs hq _ ih =>
      intro name acc
      have hterm : q.term = (outline f).term := by
        obtain ⟨o, t, clauses⟩ := q
        cases t with
        | some t =>
            cases hq
            rfl
        | none =>
            obtain ⟨fs, -, rfl⟩ := Option.map_eq_some_iff.mp hq
            rfl
      have hocc : q.occurance = (outline f).occurance := by
        rw [hq.occurance]
        cases f <;> rfl
      rw [List.map_cons, termInSetLoop, termInSetLoop, hterm, hocc]
      simp only [ih]

theorem termInSetRewrite_congr (maxClauseCount : Nat) {qs : List Query}
    {fs : List (Filter.Query QueryTerm)} (h : List.Forall₂ Same qs fs) :
    termInSetRewrite maxClauseCount qs = termInSetRewrite maxClauseCount (fs.map outline) := by
  unfold termInSetRewrite termInSet
  rw [List.length_map, h.length_eq, termInSetLoop_congr h]

/-- A set of values is found in `SHOULD` terms only. -/
theorem readsSets_inSetTerms (maxClauseCount : Nat) :
    Filter.ReadsSets (inSetTerms maxClauseCount) := by
  refine ⟨fun fs atoms h f hf => ?_⟩
  obtain ⟨p, hp, -⟩ := Option.map_eq_some_iff.mp h
  have hset : termInSet maxClauseCount (fs.toList.map outline) = .ok (some p) := by
    unfold termInSetRewrite at hp
    split at hp
    · rename_i hok
      rw [hok, hp]
    · cases hp
  unfold termInSet at hset
  split_ifs at hset
  · obtain ⟨found, hloop, hfound⟩ := bind_eq_ok.mp hset
    rw [termInSetLoop_eq] at hloop
    split_ifs at hloop with hvalues hlen
    · have hqs := eq_map_setRun (fun q hq t ht => by
        obtain ⟨f, -, rfl⟩ := List.mem_map.mp hq
        cases f with
        | term o t => rfl
        | clauses o fs => cases ht) hlen
      have hmem := List.mem_map_of_mem (f := outline) hf
      rw [hqs] at hmem
      obtain ⟨t, -, ht⟩ := List.mem_map.mp hmem
      cases f with
      | term o t' =>
          simp only [outline, Query.ofTerm, Query.mk.injEq] at ht
          exact ⟨t', by rw [ht.1]⟩
      | clauses o fs => cases ht
    · cases hloop
      cases hfound
  · cases hset

/-! ## The converted query -/

theorem map_eq_of_forall₂ {α β γ : Type*} {R : α → β → Prop} {F : α → γ} {G : β → γ}
    {as : List α} {bs : List β} (h : List.Forall₂ R as bs)
    (hR : ∀ a ∈ as, ∀ b, R a b → F a = G b) : as.map F = bs.map G := by
  induction h with
  | nil => rfl
  | cons hab _ ih =>
      rw [List.map_cons, List.map_cons, hR _ List.mem_cons_self _ hab,
        ih fun a ha => hR a (List.mem_cons_of_mem _ ha)]

theorem accepted_clauses {maxClauseCount : Nat} {o : Option Occurance} {qs : List Query}
    (hr : termInSetRewrite maxClauseCount qs = none)
    (h : ∃ context r,
      convertToLuceneQuery maxClauseCount (.mk o none (some qs)) context = .ok r) :
    ∀ q ∈ qs, ∃ context r, convertToLuceneQuery maxClauseCount q context = .ok r := by
  obtain ⟨context, r, h⟩ := h
  unfold convertToLuceneQuery convertToLuceneBooleanQuery at h
  obtain ⟨choice, hchoice, h⟩ := bind_eq_ok.mp h
  obtain rfl : choice = none := by simpa [termInSetRewrite, hchoice] using hr
  obtain ⟨_, hbuild, -⟩ := bind_eq_ok.mp h
  exact accepted_of_build hbuild

/-- The meaning of the converted query is that of the filter's query to Lucene. -/
theorem reads_ofTerms (maxClauseCount : Nat) (v : QueryTerm → Bool) (q : Query) :
    ∀ f, Same q f → (∃ context r, convertToLuceneQuery maxClauseCount q context = .ok r) →
      reads (termInSetRewrite maxClauseCount) (.ofTerms v) q =
        f.lucene (inSetTerms maxClauseCount) v := by
  induction q using Query.ofAll with
  | h o t qs ih =>
      intro f hf haccepted
      rcases t with _ | t
      · rcases qs with _ | qs
        · obtain ⟨_, _, h⟩ := haccepted
          cases h
        · obtain ⟨fs, rfl, hsame⟩ := Filter.same_clauses hf
          have hrewrite := termInSetRewrite_congr maxClauseCount hsame
          cases hr : termInSetRewrite maxClauseCount qs with
          | some p =>
              have hset : inSetTerms maxClauseCount fs =
                  some (p.2.map fun value => ⟨some p.1, some value, some .term, none⟩) := by
                rw [inSetTerms, ← hrewrite, hr, Option.map_some]
              rw [reads_inSet hr, Filter.Query.lucene_set hset, List.any_map]
              rfl
          | none =>
              have hset : inSetTerms maxClauseCount fs = none := by
                rw [inSetTerms, ← hrewrite, hr, Option.map_none]
              rw [reads_clauses hr, Filter.Query.lucene_clauses hset]
              have hclauses := accepted_clauses hr haccepted
              congr 1
              refine map_eq_of_forall₂ hsame fun q hq f hqf => ?_
              rw [hqf.effective, ih q hq f hqf (hclauses q hq)]
      · cases hf
        obtain ⟨-, leaf, hleaf⟩ := accepted_term rfl haccepted
        rw [Filter.Query.lucene]
        rcases qs with _ | qs
        · simp [reads, Reading.ofTerm, hleaf, Reading.ofTerms]
        · obtain ⟨_, _, h⟩ := haccepted
          cases h

/-! ## Agreement -/

/-- The filter and the Lucene query agree: no list is empty, the occurances agree at
every depth, sets of values are of equality terms, and the whole is not a list that
must not occur. -/
def agreesAtTop (maxClauseCount : Nat) (q : Query) : Bool :=
  match toFilter q with
  | none => false
  | some f => f.agrees (inSetTerms maxClauseCount) false &&
      (q.booleanClauses.isNone || q.occurance ≠ some .mustNotOccur)

theorem holds_ofTerms {maxClauseCount : Nat} {q : Query} {f : Filter.Query QueryTerm}
    {lq : LuceneQuery} {context context' : Option QueryRuntimeContext} (hf : Same q f)
    (h : convert maxClauseCount q context = .ok (lq, context')) (v : QueryTerm → Bool) :
    lq.holds (.ofTerms v) = (f.lucene (inSetTerms maxClauseCount) v &&
      (q.booleanClauses.isNone || q.occurance ≠ some .mustNotOccur)) := by
  rw [holds_convert h, ← reads_ofTerms maxClauseCount v q f hf (accepted_of_convert h)]
  obtain ⟨o, t, qs⟩ := q
  cases qs with
  | none => simp [readsAtTop]
  | some qs =>
      rw [readsAtTop_clauses, Bool.and_comm]
      rfl

end Xenon.Lucene

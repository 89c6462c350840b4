import Mathlib.Data.List.Forall2
import Xenon.Filter.Dnf
import Xenon.Filter.Dispatch
import Xenon.Foundation.Run

/-!
# Queries of tasks as filters

`createObjects` is the normal form of a query as a task has it: with terms that can
fail, with identities of the conjunctions, and with lists that can be empty. For
queries without empty lists it is the normal form of `QueryFilter`.
-/

namespace Xenon.Filter

open Xenon.Foundation
open Xenon.QueryTask

mutual

/-- A query without empty lists. Its clauses are not looked at if it has a term. -/
def toFilter : QueryTask.Query → Option (Query QueryTerm)
  | .mk o (some t) _ => some (.term o t)
  | .mk o none qs => (toFilterOf qs).map (.clauses o)

def toFilterOf : Option (List QueryTask.Query) → Option (Clauses QueryTerm)
  | none => none
  | some qs => toFilterAll qs

def toFilterAll : List QueryTask.Query → Option (Clauses QueryTerm)
  | [] => none
  | q :: qs =>
      match toFilter q with
      | none => none
      | some f => if qs.isEmpty then some (.one f) else (toFilterAll qs).map (.cons f)

end

/-- The two forms of a query. -/
abbrev Same (q : QueryTask.Query) (f : Query QueryTerm) : Prop := toFilter q = some f

theorem forall₂_of_toFilterAll : ∀ {qs : List QueryTask.Query} {fs : Clauses QueryTerm},
    toFilterAll qs = some fs → List.Forall₂ Same qs fs.toList
  | [], fs, h => by cases h
  | q :: qs, fs, h => by
      unfold toFilterAll at h
      cases hq : toFilter q with
      | none => simp [hq] at h
      | some f =>
          simp only [hq] at h
          cases qs with
          | nil =>
              cases h
              exact .cons hq .nil
          | cons q' qs =>
              simp only [List.isEmpty_cons, Bool.false_eq_true, if_false,
                Option.map_eq_some_iff] at h
              obtain ⟨fs, hfs, rfl⟩ := h
              exact .cons hq (forall₂_of_toFilterAll hfs)

theorem same_clauses {o : Option Occurance} {qs : List QueryTask.Query} {f : Query QueryTerm}
    (h : Same (.mk o none (some qs)) f) :
    ∃ fs, f = .clauses o fs ∧ List.Forall₂ Same qs fs.toList := by
  unfold Same toFilter toFilterOf at h
  obtain ⟨fs, hfs, rfl⟩ := Option.map_eq_some_iff.mp h
  exact ⟨fs, rfl, forall₂_of_toFilterAll hfs⟩

theorem Same.occurance {q : QueryTask.Query} {f : Query QueryTerm} (h : Same q f) :
    q.occurance = f.occurance := by
  obtain ⟨o, t, qs⟩ := q
  cases t with
  | some t =>
      cases h
      rfl
  | none =>
      obtain ⟨fs, -, rfl⟩ := Option.map_eq_some_iff.mp h
      rfl

theorem Same.effective {q : QueryTask.Query} {f : Query QueryTerm} (h : Same q f) :
    q.effective = f.effective := by
  rw [QueryTask.Query.effective, Query.effective, h.occurance]

theorem countP_of_same {qs : List QueryTask.Query} {fs : List (Query QueryTerm)}
    (h : List.Forall₂ Same qs fs) (p : Occurance → Bool) :
    qs.countP (fun q => p q.effective) = fs.countP fun f => p f.effective := by
  induction h with
  | nil => rfl
  | cons hq _ ih => simp only [List.countP_cons, ih, hq.effective]

theorem isDisjunctionOf_of_same {qs : List QueryTask.Query} {fs : Clauses QueryTerm}
    (h : List.Forall₂ Same qs fs.toList) (n : Bool) :
    isDisjunctionOf qs n = fs.isDisjunction n := by
  unfold isDisjunctionOf Clauses.isDisjunction Clauses.mustClauses Clauses.shouldClauses
  rw [h.length_eq, countP_of_same h (fun o => o ≠ .shouldOccur),
    countP_of_same h (fun o => o = .shouldOccur)]

/-! ## The normal form -/

/-- The terms of a conjunction, as `QueryFilter` lists them. -/
def Conj.conjunction (c : Conj) : Conjunction QueryTerm := c.terms.reverse

theorem conjunction_addTermObjects (t : Term QueryTerm) (prefixes : List Conj) (n : Nat) :
    (addTermObjects t prefixes n).1.map Conj.conjunction =
      addTerm t (prefixes.map Conj.conjunction) := by
  unfold addTermObjects addTerm
  cases prefixes with
  | nil => rfl
  | cons c prefixes =>
      simp only [List.isEmpty_cons, Bool.false_eq_true, if_false, List.map_cons]
      apply List.ext_getElem
      · simp
      · intro i hi hi'
        cases i with
        | zero => simp [Conj.conjunction]
        | succ i => simp [Conj.conjunction]

theorem newTerm_eq {t : QueryTerm} {negate : Bool} {u : Term QueryTerm}
    (h : newTerm t negate = .ok u) : u = ⟨t, negate⟩ := by
  unfold newTerm at h
  split_ifs at h
  exact (Except.ok.inj h).symm

section

variable {fs : List (Query QueryTerm)} {qs : List QueryTask.Query}

/-- The first loop. -/
theorem conjunction_dnfLoop (hsame : List.Forall₂ Same qs fs) (negate : Bool)
    (hdnf : ∀ q ∈ qs, ∀ f, Same q f → ∀ prefixes m n r n', dnfObjects q prefixes m n = .ok (r, n') →
      r.map Conj.conjunction = f.dnf (prefixes.map Conj.conjunction) m) :
    ∀ {prefixes n r n'}, dnfLoop qs prefixes negate n = .ok (r, n') →
      r.map Conj.conjunction = fs.foldl
        (fun p f => match expandWith f.effective negate with
          | some m => f.dnf p m
          | none => p) (prefixes.map Conj.conjunction) := by
  induction hsame with
  | nil =>
      intro prefixes n r n' h
      cases h
      rfl
  | cons hq _ ih =>
      intro prefixes n r n' h
      have ih := @ih fun q hq => hdnf q (List.mem_cons_of_mem _ hq)
      unfold dnfLoop at h
      rw [List.foldl_cons, ← hq.effective]
      cases hm : expandWith _ negate with
      | none =>
          simp only [hm] at h
          exact ih h
      | some m =>
          simp only [hm] at h
          obtain ⟨⟨p, n₁⟩, hp, h⟩ := bind_eq_ok.mp h
          dsimp only
          rw [← hdnf _ List.mem_cons_self _ hq _ _ _ _ _ hp]
          exact ih h

/-- The second loop. -/
theorem conjunction_dnfExpand (hsame : List.Forall₂ Same qs fs) (negate : Bool)
    (hdnf : ∀ q ∈ qs, ∀ f, Same q f → ∀ prefixes m n r n', dnfObjects q prefixes m n = .ok (r, n') →
      r.map Conj.conjunction = f.dnf (prefixes.map Conj.conjunction) m) (prefixes : List Conj) :
    ∀ {n r n'}, dnfExpand qs prefixes negate n = .ok (r, n') →
      r.map Conj.conjunction = fs.flatMap fun f =>
        f.dnf (prefixes.map Conj.conjunction) (negateClause f negate) := by
  induction hsame with
  | nil =>
      intro n r n' h
      cases h
      rfl
  | cons hq _ ih =>
      intro n r n' h
      have ih := @ih fun q hq => hdnf q (List.mem_cons_of_mem _ hq)
      unfold dnfExpand at h
      obtain ⟨⟨p, n₁⟩, hp, h⟩ := bind_eq_ok.mp h
      obtain ⟨⟨rest, n₂⟩, hrest, h⟩ := bind_eq_ok.mp h
      cases h
      rw [List.map_append, List.flatMap_cons, ih hrest,
        hdnf _ List.mem_cons_self _ hq _ _ _ _ _ hp, negateClause, ← hq.occurance]

end

/-- **The normal form of a query without empty lists.** -/
theorem conjunction_dnfObjects (q : QueryTask.Query) : ∀ f, Same q f →
    ∀ prefixes negate n r n', dnfObjects q prefixes negate n = .ok (r, n') →
      r.map Conj.conjunction = f.dnf (prefixes.map Conj.conjunction) negate := by
  induction q using QueryTask.Query.ofAll with
  | h o t qs ih =>
      intro f hf prefixes negate n r n' h
      rcases t with _ | t
      · rcases qs with _ | qs
        · cases h
        · obtain ⟨fs, rfl, hsame⟩ := same_clauses hf
          unfold dnfObjects dnfClauses at h
          obtain ⟨⟨p, n₁⟩, hloop, h⟩ := bind_eq_ok.mp h
          have hp : p.map Conj.conjunction = fs.loop (prefixes.map Conj.conjunction) negate :=
            (conjunction_dnfLoop hsame negate ih hloop).trans (Clauses.loop_eq _ _ _).symm
          rw [Query.dnf, ← hp, Clauses.expand_eq, ← isDisjunctionOf_of_same hsame]
          dsimp only at h
          split_ifs at h ⊢
          · exact conjunction_dnfExpand hsame negate ih _ h
          · cases h
            rfl
      · cases hf
        unfold dnfObjects at h
        obtain ⟨u, hu, h⟩ := bind_eq_ok.mp h
        have hr := Except.ok.inj h
        rw [Query.dnf, ← newTerm_eq hu, ← conjunction_addTermObjects u prefixes n, hr]

/-- The truth of a normal form under an assignment of truth values to terms. -/
def conjsHold (v : QueryTerm → Bool) (dnf : List Conj) : Bool :=
  dnf.any fun c => c.terms.all (Term.holds v)

theorem conjsHold_createObjects {q : QueryTask.Query} {f : Query QueryTerm} {dnf : List Conj}
    (hf : Same q f) (h : createObjects q = .ok dnf) (v : QueryTerm → Bool) :
    conjsHold v dnf = f.dnfHolds false v := by
  obtain ⟨⟨r, n'⟩, hr, h⟩ := bind_eq_ok.mp h
  cases h
  have hdnf := conjunction_dnfObjects q f hf [] false 0 r n' hr
  rw [Query.dnfHolds, ← show r.map Conj.conjunction = f.dnf [] false from hdnf]
  simp [conjsHold, disjunctionHolds, Conjunction.holds, Conj.conjunction, List.any_map,
    Function.comp_def]

end Xenon.Filter

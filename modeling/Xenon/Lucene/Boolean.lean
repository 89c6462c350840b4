import Mathlib.Data.List.Dedup
import Xenon.Filter.Faithful
import Xenon.Lucene.Query

/-!
# Filters and boolean queries

A query is a filter and a Lucene query, and the two read its occurances in their
own ways. `Query.agrees` follows the recursion of the normal form: a list of
clauses has to be a disjunction of `SHOULD` clauses or to have a `MUST` clause,
and a negated list has to have a `MUST` and no `SHOULD` clause. Some lists of
terms are read by Lucene as another set of terms (`set`).
-/

namespace Xenon.Filter

open Xenon.Foundation
open Xenon.Lucene (booleanMatches booleanMatches_map booleanMatches_should booleanMatches_must
  booleanMatches_false)

universe u

variable {τ : Type u}

/-! ## What Lucene makes of a query -/

section

variable (set : Clauses τ → Option (List τ))

mutual

/-- Whether the Lucene query matches. -/
def Query.lucene (v : τ → Bool) : Query τ → Bool
  | .term _ t => v t
  | .clauses _ qs =>
      match set qs with
      | some atoms => atoms.any v
      | none => booleanMatches (qs.lucene v)

def Clauses.lucene (v : τ → Bool) : Clauses τ → List (Occurance × Bool)
  | .one q => [(q.effective, q.lucene v)]
  | .cons q qs => (q.effective, q.lucene v) :: qs.lucene v

end

/-- The list has a `MUST` clause. -/
def Clauses.hasMust (qs : Clauses τ) : Bool := qs.toList.any fun q => q.effective = .mustOccur

/-- The occurances in a list that is expanded with negation `n`. -/
def Clauses.shaped (qs : Clauses τ) (n : Bool) : Bool :=
  if n then qs.hasMust && qs.toList.all (!·.isShould) else qs.allShould || qs.hasMust

mutual

/-- The filter for the query, expanded with negation `n`, is the (negated) Lucene
query. -/
def Query.agrees [DecidableEq τ] : Query τ → Bool → Bool
  | .term _ _, _ => true
  | .clauses _ qs, n =>
      match set qs with
      | some atoms => !n && qs.terms.all (· ∈ atoms) && atoms.all (· ∈ qs.terms)
      | none => qs.shaped n && qs.agreesAll (qs.flag n)

def Clauses.agreesAll [DecidableEq τ] : Clauses τ → (Query τ → Option Bool) → Bool
  | .one q, flag =>
      match flag q with
      | some m => q.agrees m
      | none => true
  | .cons q qs, flag =>
      (match flag q with
      | some m => q.agrees m
      | none => true) && qs.agreesAll flag

end

/-- Only lists of `SHOULD` terms are read as sets. -/
structure ReadsSets : Prop where
  terms : ∀ qs atoms, set qs = some atoms →
    ∀ q ∈ qs.toList, ∃ t, q = .term (some .shouldOccur) t

end

variable {set : Clauses τ → Option (List τ)}

theorem Clauses.lucene_eq (v : τ → Bool) : ∀ qs : Clauses τ,
    qs.lucene set v = qs.toList.map fun q => (q.effective, q.lucene set v)
  | .one q => rfl
  | .cons q qs => by rw [Clauses.lucene, Clauses.toList, List.map_cons, qs.lucene_eq]

theorem Query.lucene_clauses {o : Option Occurance} {qs : Clauses τ} (h : set qs = none)
    (v : τ → Bool) : (Query.clauses o qs).lucene set v =
      booleanMatches (qs.toList.map fun q => (q.effective, q.lucene set v)) := by
  rw [Query.lucene, h, Clauses.lucene_eq]

theorem Query.lucene_set {o : Option Occurance} {qs : Clauses τ} {atoms : List τ}
    (h : set qs = some atoms) (v : τ → Bool) :
    (Query.clauses o qs).lucene set v = atoms.any v := by
  rw [Query.lucene, h]

theorem Clauses.agreesAll_iff [DecidableEq τ] {flag : Query τ → Option Bool} :
    ∀ qs : Clauses τ, qs.agreesAll set flag = true ↔
      ∀ q ∈ qs.toList, ∀ m, flag q = some m → q.agrees set m = true
  | .one q => by
      rw [Clauses.agreesAll, Clauses.toList]
      rcases hf : flag q with _ | _ | _ <;> simp [hf]
  | .cons q qs => by
      rw [Clauses.agreesAll, Clauses.toList, Bool.and_eq_true, qs.agreesAll_iff]
      rcases hf : flag q with _ | _ | _ <;> simp [hf]

theorem Query.agrees_clauses [DecidableEq τ] {o : Option Occurance} {qs : Clauses τ} {n : Bool}
    (h : set qs = none) : (Query.clauses o qs).agrees set n = true ↔
      qs.shaped n = true ∧ ∀ b ∈ qs.branches n, b.1.agrees set b.2 = true := by
  rw [Query.agrees, h]
  simp only [Bool.and_eq_true, Clauses.agreesAll_iff, Clauses.mem_branches, Prod.forall, and_imp]
  refine and_congr_right fun _ => ?_
  exact ⟨fun h q m hq hm => h q hq m hm, fun h q hq m hm => h q m hq hm⟩

theorem Query.agrees_set [DecidableEq τ] {o : Option Occurance} {qs : Clauses τ} {n : Bool}
    {atoms : List τ} (h : set qs = some atoms) : (Query.clauses o qs).agrees set n = true ↔
      n = false ∧ ∀ t, t ∈ qs.terms ↔ t ∈ atoms := by
  rw [Query.agrees, h]
  simp only [Bool.and_eq_true, Bool.not_eq_true', List.all_eq_true, decide_eq_true_eq, and_assoc]
  refine and_congr_right fun _ => ?_
  exact ⟨fun h t => ⟨h.1 t, h.2 t⟩, fun h => ⟨fun t => (h t).mp, fun t => (h t).mpr⟩⟩

/-! ## Lists with the right occurances -/

theorem Clauses.branches_of_isDisjunction {qs : Clauses τ} {n : Bool}
    (h : qs.isDisjunction n = true) :
    qs.branches n = qs.toList.map fun q => (q, negateClause q n) := by
  simp [Clauses.branches, Clauses.flag, h]

theorem Clauses.isDisjunction_of_should {qs : Clauses τ}
    (hsome : ∃ q ∈ qs.toList, q.isShould = true) : qs.isDisjunction true = false := by
  rw [← Bool.not_eq_true, Clauses.isDisjunction_true]
  obtain ⟨q, hq, hshould⟩ := hsome
  intro hnone
  rw [hnone q hq] at hshould
  cases hshould

theorem Clauses.branches_of_should {qs : Clauses τ}
    (hsome : ∃ q ∈ qs.toList, q.isShould = true) :
    ∀ b ∈ qs.branches true, b.1.isShould = true ∧ b.2 = false := by
  intro b hb
  obtain ⟨-, hm⟩ := Clauses.mem_branches.mp hb
  rw [Clauses.flag, Clauses.isDisjunction_of_should hsome, if_neg (by simp)] at hm
  cases ho : b.1.effective <;> rw [ho] at hm <;> simp [expandWith] at hm
  exact ⟨by simp [Query.isShould, ho], hm⟩

theorem Clauses.effective_ne_must {qs : Clauses τ} (hmust : qs.hasMust = false) {q : Query τ}
    (hq : q ∈ qs.toList) : q.effective ≠ .mustOccur := by
  have hnone : ∀ q ∈ qs.toList, q.effective ≠ .mustOccur := by
    simpa [Clauses.hasMust] using hmust
  exact hnone q hq

theorem Query.effective_of_isShould {q : Query τ} (h : q.isShould = true) :
    q.effective = .shouldOccur := of_decide_eq_true h

/-- The value of a clause in a list with a `MUST` clause. -/
def Query.luceneClause (set : Clauses τ → Option (List τ)) (v : τ → Bool) (q : Query τ) : Bool :=
  match q.effective with
  | .mustOccur => q.lucene set v
  | .mustNotOccur => !q.lucene set v
  | .shouldOccur => true

theorem Query.lucene_of_hasMust {o : Option Occurance} {qs : Clauses τ} (h : set qs = none)
    (hmust : qs.hasMust = true) (v : τ → Bool) :
    (Query.clauses o qs).lucene set v = qs.toList.all (Query.luceneClause set v) := by
  have hmust' : ∃ q ∈ qs.toList, q.effective = .mustOccur := by
    simpa [Clauses.hasMust] using hmust
  rw [Query.lucene_clauses h, Bool.eq_iff_iff, booleanMatches_must hmust', List.all_eq_true]
  constructor
  · rintro ⟨hm, hn⟩ q hq
    unfold Query.luceneClause
    cases ho : q.effective with
    | mustOccur => exact hm q hq ho
    | mustNotOccur => simp [hn q hq ho]
    | shouldOccur => rfl
  · intro hall
    refine ⟨fun q hq ho => ?_, fun q hq ho => ?_⟩
    · simpa [Query.luceneClause, ho] using hall q hq
    · simpa [Query.luceneClause, ho] using hall q hq

/-- A list with the right occurances combines its branches as the normal form
does. -/
theorem Query.lucene_shaped {o : Option Occurance} {qs : Clauses τ} {n : Bool}
    (h : set qs = none) (hshaped : qs.shaped n = true) (v : τ → Bool) :
    ((Query.clauses o qs).lucene set v ^^ n) = combine (qs.isDisjunction n)
      ((qs.branches n).map fun b => b.1.lucene set v ^^ b.2) := by
  cases n with
  | true =>
      simp only [Clauses.shaped, if_true, Bool.and_eq_true] at hshaped
      obtain ⟨hmust, hnone⟩ := hshaped
      have hnone' : ∀ q ∈ qs.toList, q.isShould = false := by simpa using hnone
      have hdisj : qs.isDisjunction true = true := Clauses.isDisjunction_true.mpr hnone'
      rw [Query.lucene_of_hasMust h hmust, hdisj, Clauses.branches_of_isDisjunction hdisj,
        combine, if_pos rfl, List.map_map, List.any_map, Bool.xor_true, List.not_all_eq_any_not]
      rw [Bool.eq_iff_iff, List.any_eq_true, List.any_eq_true]
      refine exists_congr fun q => and_congr_right fun hq => ?_
      have hq' := hnone' q hq
      unfold Query.isShould at hq'
      simp only [Query.luceneClause, Function.comp, id, negateClause]
      cases ho : q.occurance with
      | none => simp [Query.effective, ho]
      | some o => cases o <;> simp_all [Query.effective]
  | false =>
      rw [Bool.xor_false]
      by_cases hall : qs.allShould = true
      · have hall' : ∀ q ∈ qs.toList, q.isShould = true := by
          simpa [Clauses.allShould] using hall
        have hdisj : qs.isDisjunction false = true := Clauses.isDisjunction_false.mpr hall'
        rw [Query.lucene_clauses h, hdisj, Clauses.branches_of_isDisjunction hdisj, combine,
          if_pos rfl, Bool.eq_iff_iff,
          booleanMatches_should fun q hq => Query.effective_of_isShould (hall' q hq)]
        simp [negateClause]
      · have hmust : qs.hasMust = true := by simpa [Clauses.shaped, hall] using hshaped
        have hdisj : qs.isDisjunction false = false := by
          rw [← Bool.not_eq_true, Clauses.isDisjunction_false]
          simpa [Clauses.allShould] using hall
        have hbranches : qs.branches false = qs.toList.filterMap fun q =>
            (expandWith q.effective false).map fun m => (q, m) := by
          simp [Clauses.branches, Clauses.flag, hdisj]
        rw [Query.lucene_of_hasMust h hmust, hdisj, combine, if_neg (by simp), hbranches, List.all_map]
        refine all_filterMap_flag (fun q _ m hm => ?_) fun q _ hm => ?_
        · unfold Query.luceneClause
          cases ho : q.effective <;> rw [ho] at hm <;> simp [expandWith] at hm <;> subst hm <;>
            simp
        · have := Query.effective_of_isShould (expandWith_eq_none.mp hm)
          simp [Query.luceneClause, this]

/-- A list with the right occurances has a clause that is not negated. -/
theorem Clauses.exists_positive {qs : Clauses τ} (h : qs.shaped false = true) :
    ∃ q ∈ qs.toList, qs.flag false q = some false := by
  by_cases hdisj : qs.isDisjunction false = true
  · obtain ⟨q, hq⟩ := List.exists_mem_of_ne_nil _ qs.toList_ne_nil
    exact ⟨q, hq, by simp [Clauses.flag, hdisj, negateClause]⟩
  · have hall : qs.allShould = false := by
      rw [Clauses.isDisjunction_false] at hdisj
      simpa [Clauses.allShould] using hdisj
    obtain ⟨q, hq, ho⟩ : ∃ q ∈ qs.toList, q.effective = .mustOccur := by
      simpa [Clauses.shaped, hall, Clauses.hasMust] using h
    exact ⟨q, hq, by simp [Clauses.flag, hdisj, ho, expandWith]⟩

/-! ## Lists that are read as sets -/

/-- The filter for a list of `SHOULD` terms; negated, the terms are not. -/
theorem Query.dnfHolds_should_terms {o : Option Occurance} {qs : Clauses τ}
    (h : ∀ q ∈ qs.toList, ∃ t, q = .term (some .shouldOccur) t) (n : Bool) (v : τ → Bool) :
    (Query.clauses o qs).dnfHolds n v = if n then qs.terms.all v else qs.terms.any v := by
  have hshould : ∀ q ∈ qs.toList, q.isShould = true := by
    intro q hq
    obtain ⟨t, rfl⟩ := h q hq
    rfl
  rw [Query.dnfHolds_clauses, qs.terms_eq]
  cases n with
  | false =>
      have hdisj : qs.isDisjunction false = true := Clauses.isDisjunction_false.mpr hshould
      rw [hdisj, Clauses.branches_of_isDisjunction hdisj, combine, if_pos rfl,
        if_neg (by simp), List.map_map, List.any_map, List.any_flatMap]
      rw [Bool.eq_iff_iff, List.any_eq_true, List.any_eq_true]
      refine exists_congr fun q => and_congr_right fun hq => ?_
      obtain ⟨t, rfl⟩ := h q hq
      simp [Query.dnfHolds_term, Query.terms, negateClause]
  | true =>
      have hdisj : qs.isDisjunction true = false := by
        rw [← Bool.not_eq_true, Clauses.isDisjunction_true]
        intro hnone
        obtain ⟨q, hq⟩ := List.exists_mem_of_ne_nil _ qs.toList_ne_nil
        have := hnone q hq
        rw [hshould q hq] at this
        cases this
      have hbranches : qs.branches true = qs.toList.map fun q => (q, false) := by
        simp only [Clauses.branches, Clauses.flag, hdisj, Bool.false_eq_true, if_false]
        rw [← List.filterMap_eq_map]
        refine List.filterMap_congr fun q hq => ?_
        simp [Query.effective_of_isShould (hshould q hq), expandWith]
      rw [hdisj, combine, if_neg (by simp), if_pos rfl, hbranches, List.map_map, List.all_map,
        List.all_flatMap]
      rw [Bool.eq_iff_iff, List.all_eq_true, List.all_eq_true]
      refine forall₂_congr fun q hq => ?_
      obtain ⟨t, rfl⟩ := h q hq
      simp [Query.dnfHolds_term, Query.terms]

/-! ## Enough -/

/-- **A query that agrees filters what Lucene matches.** -/
theorem Query.dnfHolds_of_agrees [DecidableEq τ] (hset : ReadsSets set) (q : Query τ) :
    ∀ n, q.agrees set n = true → ∀ v, q.dnfHolds n v = (q.lucene set v ^^ n) := by
  induction q using Query.ofClauses with
  | term o t =>
      intro n _ v
      rw [dnfHolds_term, Query.lucene]
  | clauses o qs ih =>
      intro n h v
      cases hs : set qs with
      | some atoms =>
          obtain ⟨rfl, hterms⟩ := (Query.agrees_set hs).mp h
          rw [Query.dnfHolds_should_terms (hset.terms qs atoms hs), Query.lucene_set hs,
            if_neg (by simp), Bool.xor_false, Bool.eq_iff_iff, List.any_eq_true,
            List.any_eq_true]
          exact exists_congr fun t => and_congr_left fun _ => hterms t
      | none =>
          obtain ⟨hshaped, hall⟩ := (Query.agrees_clauses hs).mp h
          rw [dnfHolds_clauses, Query.lucene_shaped hs hshaped]
          congr 1
          refine List.map_congr_left fun b hb => ?_
          exact ih b.1 (Clauses.mem_branches.mp hb).1 b.2 (hall b hb) v

/-! ## Needed -/

section

variable [DecidableEq τ] (set)

mutual

/-- The terms that the filter or the Lucene query reads. -/
def Query.vars : Query τ → List τ
  | .term _ t => [t]
  | .clauses _ qs =>
      match set qs with
      | some atoms => qs.terms ++ (atoms.filter (· ∉ qs.terms)).dedup
      | none => qs.vars

def Clauses.vars : Clauses τ → List τ
  | .one q => q.vars
  | .cons q qs => q.vars ++ qs.vars

end

/-- The variables of the query, as a set. -/
def Query.scope (q : Query τ) : Set τ := {t | t ∈ q.vars set}

end

variable [DecidableEq τ]

theorem Clauses.vars_eq : ∀ qs : Clauses τ,
    qs.vars set = qs.toList.flatMap fun q => q.vars set
  | .one q => by simp [Clauses.vars, Clauses.toList]
  | .cons q qs => by rw [Clauses.vars, Clauses.toList, List.flatMap_cons, qs.vars_eq]

theorem Query.vars_clauses {o : Option Occurance} {qs : Clauses τ} (h : set qs = none) :
    (Query.clauses o qs).vars set = qs.toList.flatMap fun q => q.vars set := by
  rw [Query.vars, h]
  exact qs.vars_eq

theorem Query.scope_subset {o : Option Occurance} {qs : Clauses τ} (h : set qs = none)
    {q : Query τ} (hq : q ∈ qs.toList) : q.scope set ⊆ (Query.clauses o qs).scope set := by
  intro t ht
  show t ∈ (Query.clauses o qs).vars set
  rw [Query.vars_clauses h]
  exact List.mem_flatMap.mpr ⟨q, hq, ht⟩

theorem Query.support_subset_scope (q : Query τ) : q.support ⊆ q.scope set := by
  induction q using Query.ofClauses with
  | term o t => exact fun _ h => h
  | clauses o qs ih =>
      intro t ht
      have ht : t ∈ qs.terms := ht
      show t ∈ (Query.clauses o qs).vars set
      cases hs : set qs with
      | some atoms =>
          rw [Query.vars, hs]
          exact List.mem_append_left _ ht
      | none =>
          rw [Query.vars_clauses hs]
          rw [qs.terms_eq] at ht
          obtain ⟨q, hq, ht⟩ := List.mem_flatMap.mp ht
          exact List.mem_flatMap.mpr ⟨q, hq, ih q hq ht⟩

theorem Query.dependsOn_lucene (q : Query τ) :
    DependsOn (fun v => q.lucene set v) (q.scope set) := by
  induction q using Query.ofClauses with
  | term o t =>
      intro v w hvw
      exact hvw t (List.mem_singleton.mpr rfl)
  | clauses o qs ih =>
      intro v w hvw
      cases hs : set qs with
      | some atoms =>
          simp only [Query.lucene_set hs]
          rw [Bool.eq_iff_iff, List.any_eq_true, List.any_eq_true]
          refine exists_congr fun t => and_congr_right fun ht => ?_
          rw [hvw t]
          show t ∈ (Query.clauses o qs).vars set
          rw [Query.vars, hs]
          simp only [List.mem_append, List.mem_dedup, List.mem_filter, decide_eq_true_eq]
          tauto
      | none =>
          simp only [Query.lucene_clauses hs]
          congr 1
          refine List.map_congr_left fun q hq => ?_
          have := (ih q hq).mono (Query.scope_subset (o := o) hs hq) hvw
          simp only [this]

/-- Where all variables are false, Lucene matches nothing. -/
theorem Query.lucene_false (q : Query τ) {v : τ → Bool} (h : ∀ t ∈ q.vars set, v t = false) :
    q.lucene set v = false := by
  induction q using Query.ofClauses with
  | term o t => exact h t (List.mem_singleton.mpr rfl)
  | clauses o qs ih =>
      cases hs : set qs with
      | some atoms =>
          rw [Query.lucene_set hs, List.any_eq_false]
          intro t ht
          rw [h t]
          · simp
          · rw [Query.vars, hs]
            simp only [List.mem_append, List.mem_dedup, List.mem_filter, decide_eq_true_eq]
            tauto
      | none =>
          rw [Query.lucene_clauses hs]
          refine booleanMatches_false fun q hq => ih q hq fun t ht => h t ?_
          rw [Query.vars_clauses hs]
          exact List.mem_flatMap.mpr ⟨q, hq, ht⟩

/-- Queries without repeated variables: their clauses have disjoint scopes. -/
theorem Query.nodup_vars {o : Option Occurance} {qs : Clauses τ} (hs : set qs = none)
    (h : ((Query.clauses o qs).vars set).Nodup) :
    (∀ q ∈ qs.toList, (q.vars set).Nodup) ∧
      qs.toList.Pairwise fun q q' => Disjoint (q.scope set) (q'.scope set) := by
  rw [Query.vars_clauses hs, List.nodup_flatMap] at h
  refine ⟨h.1, h.2.imp fun hd => ?_⟩
  exact Set.disjoint_left.mpr fun t ht ht' => hd ht ht'

theorem Query.nodup_terms_of_vars (q : Query τ) (h : (q.vars set).Nodup) : q.terms.Nodup := by
  induction q using Query.ofClauses with
  | term o t => exact List.nodup_singleton t
  | clauses o qs ih =>
      show qs.terms.Nodup
      cases hs : set qs with
      | some atoms =>
          rw [Query.vars, hs] at h
          exact (List.nodup_append.mp h).1
      | none =>
          obtain ⟨hnodup, hdisj⟩ := Query.nodup_vars hs h
          rw [qs.terms_eq, List.nodup_flatMap]
          refine ⟨fun q hq => ih q hq (hnodup q hq), hdisj.imp fun {q q'} hd t ht ht' => ?_⟩
          exact Set.disjoint_left.mp hd (q.support_subset_scope ht) (q'.support_subset_scope ht')

theorem Clauses.independent_scope {o : Option Occurance} {qs : Clauses τ} {n : Bool}
    (hs : set qs = none) (h : ((Query.clauses o qs).vars set).Nodup)
    {F : Query τ × Bool → BoolFun τ} (hF : ∀ b, DependsOn (F b) (b.1.scope set)) :
    Independent (fun b => b.1.scope set) (qs.branches n) F := by
  refine ⟨?_, fun b _ => hF b⟩
  refine (Query.nodup_vars hs h).2.filterMap _ fun q q' hd b hb b' hb' => ?_
  obtain ⟨m, -, rfl⟩ := Option.map_eq_some_iff.mp hb
  obtain ⟨m', -, rfl⟩ := Option.map_eq_some_iff.mp hb'
  exact hd

/-- The variables of some clauses of a list. -/
def Clauses.scopeOf (qs : Clauses τ) (set : Clauses τ → Option (List τ)) (P : Query τ → Prop) :
    Set τ := {t | ∃ q ∈ qs.toList, P q ∧ t ∈ q.scope set}

/-- Every variable outside of the chosen clauses is made false. -/
noncomputable def Clauses.keep (qs : Clauses τ) (set : Clauses τ → Option (List τ))
    (P : Query τ → Prop) (v : τ → Bool) : τ → Bool :=
  override (qs.scopeOf set P) v fun _ => false

theorem Clauses.lucene_keep {qs : Clauses τ} {P : Query τ → Prop} {q : Query τ}
    (hq : q ∈ qs.toList) (hP : P q) (v : τ → Bool) :
    q.lucene set (qs.keep set P v) = q.lucene set v :=
  apply_override_self (q.dependsOn_lucene.mono fun _ ht =>
    show _ ∈ qs.scopeOf set P from ⟨q, hq, hP, ht⟩) v _

/-- Lucene does not match a clause that was not chosen. -/
theorem Clauses.lucene_keep_not {o : Option Occurance} {qs : Clauses τ} (hs : set qs = none)
    (hnd : ((Query.clauses o qs).vars set).Nodup) {P : Query τ → Prop} {q : Query τ}
    (hq : q ∈ qs.toList) (hP : ¬ P q) (v : τ → Bool) :
    q.lucene set (qs.keep set P v) = false := by
  refine q.lucene_false fun t ht => ?_
  have hout : t ∉ qs.scopeOf set P := by
    rintro ⟨q', hq', hP', ht'⟩
    have hne : q' ≠ q := by
      rintro rfl
      exact hP hP'
    have : Std.Symm fun q q' : Query τ => Disjoint (q.scope set) (q'.scope set) :=
      ⟨fun _ _ h => h.symm⟩
    exact Set.disjoint_left.mp ((Query.nodup_vars hs hnd).2.forall hq' hq hne) ht' ht
  simp [Clauses.keep, override, hout]

/-- The filter reads the chosen clauses only. -/
theorem Clauses.dnfHolds_keep {o : Option Occurance} {qs : Clauses τ} {n : Bool}
    {P : Query τ → Prop} (hP : ∀ b ∈ qs.branches n, P b.1) (v : τ → Bool) :
    (Query.clauses o qs).dnfHolds n (qs.keep set P v) = (Query.clauses o qs).dnfHolds n v := by
  rw [Query.dnfHolds_clauses, Query.dnfHolds_clauses]
  congr 1
  refine List.map_congr_left fun b hb => ?_
  have hq := (Clauses.mem_branches.mp hb).1
  refine apply_override_self ((b.1.dependsOn_dnfHolds b.2).mono fun t ht => ?_) v _
  exact ⟨b.1, hq, hP b hb, b.1.support_subset_scope ht⟩

/-- A list that is neither a disjunction nor has a `MUST` clause: Lucene needs one of
the `SHOULD` clauses, which the filter does not read. -/
theorem Clauses.exists_unmatched {o : Option Occurance} {qs : Clauses τ} (hs : set qs = none)
    (hnd : ((Query.clauses o qs).vars set).Nodup) (h : qs.shaped false = false) (b : Bool) :
    ∃ v, (Query.clauses o qs).dnfHolds false v = b ∧ (Query.clauses o qs).lucene set v = false := by
  obtain ⟨hall, hmust⟩ : qs.allShould = false ∧ qs.hasMust = false := by
    simpa [Clauses.shaped] using h
  have hdisj : qs.isDisjunction false = false := by
    rw [← Bool.not_eq_true, Clauses.isDisjunction_false]
    simpa [Clauses.allShould] using hall
  obtain ⟨v, hv⟩ := Query.nonconstant_dnfHolds _ (Query.nodup_terms_of_vars _ hnd) false b
  have hbranch : ∀ b ∈ qs.branches false, ¬ b.1.isShould = true := by
    intro b hb hshould
    obtain ⟨-, hm⟩ := Clauses.mem_branches.mp hb
    rw [Clauses.flag, hdisj, if_neg (by simp), expandWith_eq_none.mpr (by simpa using hshould)] at hm
    cases hm
  refine ⟨qs.keep set (fun q => ¬ q.isShould = true) v, ?_, ?_⟩
  · rw [Clauses.dnfHolds_keep hbranch, hv]
  · rw [Query.lucene_clauses hs, ← Bool.not_eq_true, booleanMatches_map]
    rintro ⟨-, -, ⟨q, hq, ho⟩ | ⟨q, hq, ho, hmatch⟩⟩
    · simp [Clauses.hasMust] at hmust
      exact hmust q hq ho
    · rw [Clauses.lucene_keep_not hs hnd hq (by simp [Query.isShould, ho])] at hmatch
      cases hmatch

/-- **The filter is never the opposite of the Lucene query.** -/
theorem Query.dnfHolds_ne_not (hset : ReadsSets set) (q : Query τ) (hnd : (q.vars set).Nodup) :
    ¬ ∀ v, q.dnfHolds false v = !q.lucene set v := by
  induction q using Query.ofClauses with
  | term o t =>
      intro h
      have := h fun _ => false
      simp [dnfHolds_term, Query.lucene] at this
  | clauses o qs ih =>
      intro h
      cases hs : set qs with
      | some atoms =>
          have hnone : ∀ l : List τ, l.any (fun _ => false) = false := fun l =>
            List.any_eq_false.mpr (by simp)
          have := h fun _ => false
          rw [Query.dnfHolds_should_terms (hset.terms qs atoms hs), Query.lucene_set hs,
            if_neg (by simp), hnone, hnone] at this
          cases this
      | none =>
          by_cases hshaped : qs.shaped false = true
          · -- a branch that is not negated is the opposite of its clause
            have hF : Independent _ (qs.branches false) fun b => b.1.dnfHolds b.2 :=
              Clauses.independent_scope hs hnd fun b =>
                (b.1.dependsOn_dnfHolds b.2).mono b.1.support_subset_scope
            have hG : Independent _ (qs.branches false) fun b v => b.1.lucene set v ^^ b.2 :=
              Clauses.independent_scope hs hnd fun b v w hvw =>
                congrArg (· ^^ b.2) (b.1.dependsOn_lucene hvw)
            have hnodup := (Query.nodup_vars hs hnd).1
            have heq : ∀ v, combine (qs.isDisjunction false)
                ((qs.branches false).map fun b => b.1.dnfHolds b.2 v) =
                  (combine (qs.isDisjunction false)
                    ((qs.branches false).map fun b => b.1.lucene set v ^^ b.2) ^^ true) := by
              intro v
              rw [← dnfHolds_clauses o, h v, ← Query.lucene_shaped (o := o) hs hshaped,
                Bool.xor_false, Bool.xor_true]
            obtain ⟨-, hopposite⟩ := hF.combine_eq hG (qs.branches_ne_nil false) (fun b hb =>
              b.1.nonconstant_dnfHolds (b.1.nodup_terms_of_vars
                (hnodup b.1 (Clauses.mem_branches.mp hb).1)) b.2) heq
            obtain ⟨q, hq, hflag⟩ := Clauses.exists_positive hshaped
            refine ih q hq (hnodup q hq) fun v => ?_
            have := hopposite (q, false) (Clauses.mem_branches.mpr ⟨hq, hflag⟩) v
            simpa using this
          · obtain ⟨v, hv, hmatch⟩ := Clauses.exists_unmatched hs hnd (by simpa using hshaped) false
            have := h v
            rw [hv, hmatch] at this
            cases this

/-! A negated list with the wrong occurances is never right: it has a `SHOULD` clause, and then
the filter reads these only, or all its clauses are `MUST_NOT`. -/

/-- Where the filter reads the `SHOULD` clauses, Lucene asks for a `MUST` clause too. -/
theorem Clauses.dnfHolds_ne_of_should_must {o : Option Occurance} {qs : Clauses τ}
    (hs : set qs = none) (hnd : ((Query.clauses o qs).vars set).Nodup)
    (hsome : ∃ q ∈ qs.toList, q.isShould = true) (hmust : qs.hasMust = true) :
    ¬ ∀ v, (Query.clauses o qs).dnfHolds true v = !(Query.clauses o qs).lucene set v := by
  intro heq
  obtain ⟨w, hw⟩ := Query.nonconstant_dnfHolds (Query.clauses o qs)
    (Query.nodup_terms_of_vars _ hnd) true false
  obtain ⟨q, hq, ho⟩ : ∃ q ∈ qs.toList, q.effective = .mustOccur := by
    simpa [Clauses.hasMust] using hmust
  have hfalse : (Query.clauses o qs).lucene set
      (qs.keep set (fun q => q.isShould = true) w) = false := by
    rw [Query.lucene_of_hasMust hs hmust, List.all_eq_false]
    refine ⟨q, hq, ?_⟩
    simp [Query.luceneClause, ho,
      Clauses.lucene_keep_not hs hnd hq (P := fun q => q.isShould = true)
        (by simp [Query.isShould, ho])]
  have hboth := heq (qs.keep set (fun q => q.isShould = true) w)
  rw [Clauses.dnfHolds_keep fun b hb => (Clauses.branches_of_should hsome b hb).1, hw,
    hfalse] at hboth
  cases hboth

/-- Where Lucene looks at the `SHOULD` clauses too, each of them would have to be the opposite of
its filter. -/
theorem Clauses.dnfHolds_ne_of_should (hset : ReadsSets set) {o : Option Occurance}
    {qs : Clauses τ} (hs : set qs = none) (hnd : ((Query.clauses o qs).vars set).Nodup)
    (hsome : ∃ q ∈ qs.toList, q.isShould = true) (hmust : qs.hasMust = false) :
    ¬ ∀ v, (Query.clauses o qs).dnfHolds true v = !(Query.clauses o qs).lucene set v := by
  intro heq
  have hnodup := (Query.nodup_vars hs hnd).1
  have hdisj := Clauses.isDisjunction_of_should hsome
  have hbranch := Clauses.branches_of_should hsome
  have hF : Independent _ (qs.branches true) fun b => b.1.dnfHolds b.2 :=
    Clauses.independent_scope hs hnd fun b =>
      (b.1.dependsOn_dnfHolds b.2).mono b.1.support_subset_scope
  have hG : Independent _ (qs.branches true) fun b v => !b.1.lucene set v :=
    Clauses.independent_scope hs hnd fun b v w hvw =>
      congrArg (!·) (b.1.dependsOn_lucene hvw)
  have hall : ∀ v, (qs.branches true).all (fun b => b.1.dnfHolds b.2 v) =
      (qs.branches true).all fun b => !b.1.lucene set v := by
    intro v
    -- under this assignment the clauses that must not occur do not match
    have hv := heq (qs.keep set (fun q => q.isShould = true) v)
    rw [Clauses.dnfHolds_keep fun b hb => (hbranch b hb).1, Query.dnfHolds_clauses, hdisj,
      combine_false_map] at hv
    rw [hv, List.all_eq_not_any_not, Bool.not_eq_eq_eq_not, Bool.not_not, Bool.eq_iff_iff,
      Query.lucene_clauses hs, booleanMatches_map, List.any_eq_true]
    constructor
    · rintro ⟨-, -, ⟨q, hq, ho⟩ | ⟨q, hq, ho, hmatch⟩⟩
      · exact absurd ho (Clauses.effective_ne_must hmust hq)
      · have hflag : qs.flag true q = some false := by
          simp [Clauses.flag, hdisj, ho, expandWith]
        rw [Clauses.lucene_keep hq (by simp [Query.isShould, ho])] at hmatch
        exact ⟨(q, false), Clauses.mem_branches.mpr ⟨hq, hflag⟩, by simpa using hmatch⟩
    · rintro ⟨b, hb, hmatch⟩
      have hq := (Clauses.mem_branches.mp hb).1
      have hshould := (hbranch b hb).1
      refine ⟨fun q hq ho => ?_, fun q hq ho => ?_, Or.inr ⟨b.1, hq,
        Query.effective_of_isShould hshould, ?_⟩⟩
      · exact absurd ho (Clauses.effective_ne_must hmust hq)
      · exact Clauses.lucene_keep_not hs hnd hq (by simp [Query.isShould, ho]) v
      · rw [Clauses.lucene_keep hq hshould]
        simpa using hmatch
  have hopposite := hF.eq_of_all_eq hG (fun b hb => b.1.nonconstant_dnfHolds
    (b.1.nodup_terms_of_vars (hnodup b.1 (Clauses.mem_branches.mp hb).1)) b.2 true) hall
  obtain ⟨b, hb⟩ := List.exists_mem_of_ne_nil _ (qs.branches_ne_nil true)
  obtain ⟨-, hflag⟩ := hbranch b hb
  have hq := (Clauses.mem_branches.mp hb).1
  refine b.1.dnfHolds_ne_not hset (hnodup b.1 hq) fun v => ?_
  have hv := hopposite b hb v
  rwa [hflag] at hv

/-- Of `MUST_NOT` clauses alone Lucene matches nothing. -/
theorem Clauses.dnfHolds_ne_of_mustNot {o : Option Occurance} {qs : Clauses τ}
    (hs : set qs = none) (hnd : ((Query.clauses o qs).vars set).Nodup)
    (hnone : ∀ q ∈ qs.toList, q.isShould = false) (hmust : qs.hasMust = false) :
    ¬ ∀ v, (Query.clauses o qs).dnfHolds true v = !(Query.clauses o qs).lucene set v := by
  intro heq
  obtain ⟨w, hw⟩ := Query.nonconstant_dnfHolds (Query.clauses o qs)
    (Query.nodup_terms_of_vars _ hnd) true false
  have hfalse : (Query.clauses o qs).lucene set w = false := by
    rw [Query.lucene_clauses hs, ← Bool.not_eq_true, booleanMatches_map]
    rintro ⟨-, -, ⟨q, hq, ho⟩ | ⟨q, hq, ho, -⟩⟩
    · exact Clauses.effective_ne_must hmust hq ho
    · have hshould := hnone q hq
      simp [Query.isShould, ho] at hshould
  have hboth := heq w
  rw [hw, hfalse] at hboth
  cases hboth

theorem Clauses.dnfHolds_ne_of_not_shaped (hset : ReadsSets set) {o : Option Occurance}
    {qs : Clauses τ} (hs : set qs = none) (hnd : ((Query.clauses o qs).vars set).Nodup)
    (h : qs.shaped true = false) :
    ¬ ∀ v, (Query.clauses o qs).dnfHolds true v = !(Query.clauses o qs).lucene set v := by
  by_cases hsome : ∃ q ∈ qs.toList, q.isShould = true
  · cases hmust : qs.hasMust with
    | true => exact Clauses.dnfHolds_ne_of_should_must hs hnd hsome hmust
    | false => exact Clauses.dnfHolds_ne_of_should hset hs hnd hsome hmust
  · have hnone : ∀ q ∈ qs.toList, q.isShould = false := by
      intro q hq
      by_contra hshould
      exact hsome ⟨q, hq, by simpa using hshould⟩
    apply Clauses.dnfHolds_ne_of_mustNot hs hnd hnone
    have hall : (qs.toList.all fun q => !q.isShould) = true := by simpa using hnone
    simpa [Clauses.shaped, hall] using h

/-- **Without repeated variables only a query that agrees filters what Lucene
matches.** -/
theorem Query.agrees_of_dnfHolds (hset : ReadsSets set) (q : Query τ) (hnd : (q.vars set).Nodup) :
    ∀ n, (∀ v, q.dnfHolds n v = (q.lucene set v ^^ n)) → q.agrees set n = true := by
  induction q using Query.ofClauses with
  | term o t =>
      intro n _
      rw [Query.agrees]
  | clauses o qs ih =>
      intro n h
      cases hs : set qs with
      | some atoms =>
          have hterms := hset.terms qs atoms hs
          have hne : qs.terms ≠ [] := by
            obtain ⟨q, hq⟩ := List.exists_mem_of_ne_nil _ qs.toList_ne_nil
            obtain ⟨t, rfl⟩ := hterms q hq
            rw [qs.terms_eq]
            exact List.ne_nil_of_mem (List.mem_flatMap.mpr ⟨_, hq, List.mem_singleton_self t⟩)
          simp only [Query.dnfHolds_should_terms hterms, Query.lucene_set hs] at h
          refine (Query.agrees_set hs).mpr ?_
          cases n with
          | true =>
              have := h fun _ => false
              obtain ⟨t, ts, hts⟩ := List.exists_cons_of_ne_nil hne
              simp [hts] at this
          | false =>
              refine ⟨rfl, fun t => ?_⟩
              have hany := Bool.eq_iff_iff.mp (h fun u => u = t)
              simpa using hany
      | none =>
          have hshaped : qs.shaped n = true := by
            by_contra hnot
            rw [Bool.not_eq_true] at hnot
            cases n with
            | true =>
                refine Clauses.dnfHolds_ne_of_not_shaped hset hs hnd hnot fun v => ?_
                rw [h v, Bool.xor_true]
            | false =>
                obtain ⟨v, hv, hmatch⟩ := Clauses.exists_unmatched hs hnd hnot true
                have := h v
                rw [hv, hmatch] at this
                cases this
          -- the clauses share no term, so equal combinations agree clause by clause
          have hF : Independent _ (qs.branches n) fun b => b.1.dnfHolds b.2 :=
            Clauses.independent_scope hs hnd fun b =>
              (b.1.dependsOn_dnfHolds b.2).mono b.1.support_subset_scope
          have hG : Independent _ (qs.branches n) fun b v => b.1.lucene set v ^^ b.2 :=
            Clauses.independent_scope hs hnd fun b v w hvw =>
              congrArg (· ^^ b.2) (b.1.dependsOn_lucene hvw)
          have hnodup := (Query.nodup_vars hs hnd).1
          have heq : ∀ v, combine (qs.isDisjunction n)
              ((qs.branches n).map fun b => b.1.dnfHolds b.2 v) =
                (combine (qs.isDisjunction n)
                  ((qs.branches n).map fun b => b.1.lucene set v ^^ b.2) ^^ false) := by
            intro v
            rw [← dnfHolds_clauses o, h v, ← Query.lucene_shaped (o := o) hs hshaped,
              Bool.xor_false]
          obtain ⟨-, hall⟩ := hF.combine_eq hG (qs.branches_ne_nil n) (fun b hb =>
            b.1.nonconstant_dnfHolds (b.1.nodup_terms_of_vars
              (hnodup b.1 (Clauses.mem_branches.mp hb).1)) b.2) heq
          refine (Query.agrees_clauses hs).mpr ⟨hshaped, fun b hb => ?_⟩
          have hq := (Clauses.mem_branches.mp hb).1
          refine ih b.1 hq (hnodup b.1 hq) b.2 fun v => ?_
          simpa using hall b hb v

end Xenon.Filter

import Xenon.Filter.Dnf

/-!
# When the normal form preserves the meaning

`Query.faithful` follows the recursion of `createDisjunctiveNormalForm`. Its
`sign` says what is asked of a subquery: to keep its meaning, or to invert it.
A list of `SHOULD` clauses under negation comes out right only if each of its
clauses comes out inverted; two such lists, one inside the other, can cancel. A
list that mixes `SHOULD` with `MUST` or `MUST_NOT` clauses never comes out
right under negation.
-/

namespace Xenon.Filter

open Xenon.Foundation

universe u

variable {τ : Type u}

mutual

/-- The normal form of the query, expanded with negation `n`, has the meaning
of the (negated) query, or with `sign` the opposite one. -/
def Query.faithful : Query τ → Bool → Bool → Bool
  | .term _ _, sign, _ => !sign
  | .clauses _ qs, sign, n =>
      !(n && qs.isMixed) && (!sign || (qs.branches n).length = 1) &&
        qs.faithfulAll (qs.flag n) (sign ^^ (n && qs.allShould))

def Clauses.faithfulAll : Clauses τ → (Query τ → Option Bool) → Bool → Bool
  | .one q, flag, sign =>
      match flag q with
      | some m => q.faithful sign m
      | none => true
  | .cons q qs, flag, sign =>
      (match flag q with
      | some m => q.faithful sign m
      | none => true) && qs.faithfulAll flag sign

end

theorem Clauses.faithfulAll_iff {flag : Query τ → Option Bool} {sign : Bool} :
    ∀ qs : Clauses τ, qs.faithfulAll flag sign = true ↔
      ∀ q ∈ qs.toList, ∀ m, flag q = some m → q.faithful sign m = true
  | .one q => by
      rw [Clauses.faithfulAll, Clauses.toList]
      rcases hf : flag q with _ | _ | _ <;> simp [hf]
  | .cons q qs => by
      rw [Clauses.faithfulAll, Clauses.toList, Bool.and_eq_true, qs.faithfulAll_iff]
      rcases hf : flag q with _ | _ | _ <;> simp [hf]

theorem Query.faithful_clauses {o : Option Occurance} {qs : Clauses τ} {sign n : Bool} :
    (Query.clauses o qs).faithful sign n = true ↔
      (n && qs.isMixed) = false ∧ (sign = true → (qs.branches n).length = 1) ∧
        ∀ b ∈ qs.branches n, b.1.faithful (sign ^^ (n && qs.allShould)) b.2 = true := by
  have hall : (∀ q ∈ qs.toList, ∀ m, qs.flag n q = some m →
      q.faithful (sign ^^ (n && qs.allShould)) m = true) ↔
      ∀ b ∈ qs.branches n, b.1.faithful (sign ^^ (n && qs.allShould)) b.2 = true := by
    simp only [Clauses.mem_branches]
    constructor
    · rintro h ⟨q, m⟩ ⟨hq, hm⟩
      exact h q hq m hm
    · intro h q hq m hm
      exact h (q, m) ⟨hq, hm⟩
  rw [Query.faithful, Bool.and_eq_true, Bool.and_eq_true, Clauses.faithfulAll_iff, hall,
    and_assoc, Bool.not_eq_true', Bool.or_eq_true, decide_eq_true_eq, Bool.not_eq_true']
  cases sign <;> simp

/-! ## Enough -/

theorem combine_singleton (disj b : Bool) : combine disj [b] = b := by
  cases disj <;> simp [combine]

/-- **A faithful query keeps its meaning.** -/
theorem Query.dnfHolds_of_faithful (q : Query τ) :
    ∀ sign n, q.faithful sign n = true → ∀ v, q.dnfHolds n v = ((q.eval v ^^ n) ^^ sign) := by
  induction q using Query.ofClauses with
  | term o t =>
      intro sign n h v
      obtain rfl : sign = false := by simpa [Query.faithful] using h
      rw [dnfHolds_term, Query.eval, Bool.xor_false]
  | clauses o qs ih =>
      intro sign n h v
      obtain ⟨hmixed, hone, hall⟩ := faithful_clauses.mp h
      have hbranch : ∀ b ∈ qs.branches n, b.1.dnfHolds b.2 v =
          (((b.1.eval v ^^ b.2) ^^ (n && qs.allShould)) ^^ sign) := by
        intro b hb
        rw [ih b.1 (Clauses.mem_branches.mp hb).1 _ _ (hall b hb) v]
        cases sign <;> cases (n && qs.allShould) <;> simp
      rw [dnfHolds_clauses, eval_clauses o qs n hmixed v, List.map_congr_left hbranch]
      cases hs : sign with
      | false => simp
      | true =>
          obtain ⟨b, hb⟩ := List.length_eq_one_iff.mp (hone hs)
          rw [hb]
          simp [combine_singleton]

/-! ## Needed -/

mutual

def Query.terms : Query τ → List τ
  | .term _ t => [t]
  | .clauses _ qs => qs.terms

def Clauses.terms : Clauses τ → List τ
  | .one q => q.terms
  | .cons q qs => q.terms ++ qs.terms

end

theorem Clauses.terms_eq : ∀ qs : Clauses τ, qs.terms = qs.toList.flatMap Query.terms
  | .one q => by simp [Clauses.terms, Clauses.toList]
  | .cons q qs => by rw [Clauses.terms, Clauses.toList, List.flatMap_cons, qs.terms_eq]

/-- The variables of a query. -/
def Query.support (q : Query τ) : Set τ := {t | t ∈ q.terms}

theorem support_subset {o : Option Occurance} {qs : Clauses τ} {q : Query τ}
    (h : q ∈ qs.toList) : q.support ⊆ (Query.clauses o qs).support := by
  intro t ht
  change t ∈ qs.terms
  rw [qs.terms_eq]
  exact List.mem_flatMap.mpr ⟨q, h, ht⟩

theorem dependsOn_combine {ι : Type*} {l : List ι} {F : ι → BoolFun τ} {s : Set τ}
    (h : ∀ i ∈ l, DependsOn (F i) s) (disj : Bool) :
    DependsOn (fun v => combine disj (l.map (F · v))) s := by
  intro v w hvw
  have : l.map (F · v) = l.map (F · w) :=
    List.map_congr_left fun i hi => h i hi hvw
  simp only [this]

theorem Query.dependsOn_dnfHolds (q : Query τ) : ∀ n, DependsOn (q.dnfHolds n) q.support := by
  induction q using Query.ofClauses with
  | term o t =>
      intro n v w hvw
      rw [dnfHolds_term, dnfHolds_term, hvw t (List.mem_singleton.mpr rfl)]
  | clauses o qs ih =>
      intro n v w hvw
      rw [dnfHolds_clauses, dnfHolds_clauses]
      refine dependsOn_combine (s := (Query.clauses o qs).support) ?_ _ hvw
      intro b hb
      have hq := (Clauses.mem_branches.mp hb).1
      exact (ih b.1 hq b.2).mono (support_subset hq)

/-- A `SHOULD` clause beside a `MUST` or `MUST_NOT` clause has no influence. -/
theorem eval_clauses_congr {o : Option Occurance} {qs : Clauses τ} {v w : τ → Bool}
    (h : ∀ q ∈ qs.toList, q.isShould = false ∨ qs.mustClauses = 0 → q.eval v = q.eval w) :
    (Query.clauses o qs).eval v = (Query.clauses o qs).eval w := by
  rw [Query.eval, Query.eval]
  split
  case isTrue hz =>
      rw [Clauses.evalShould_eq, Clauses.evalShould_eq, Bool.eq_iff_iff,
        List.any_eq_true, List.any_eq_true]
      refine exists_congr fun q => and_congr_right fun hq => ?_
      rw [h q hq (Or.inr hz)]
  case isFalse =>
      rw [Clauses.evalMust_eq, Clauses.evalMust_eq, Bool.eq_iff_iff,
        List.all_eq_true, List.all_eq_true]
      refine forall₂_congr fun q hq => ?_
      cases hs : q.isShould with
      | true =>
          simp only [Query.isShould, decide_eq_true_eq] at hs
          simp [Query.evalClause, hs]
      | false => simp only [Query.evalClause, h q hq (Or.inl hs)]

theorem Query.dependsOn_eval (q : Query τ) : DependsOn (fun v => q.eval v) q.support := by
  induction q using Query.ofClauses with
  | term o t =>
      intro v w hvw
      exact hvw t (List.mem_singleton.mpr rfl)
  | clauses o qs ih =>
      intro v w hvw
      exact eval_clauses_congr fun q hq _ => (ih q hq).mono (support_subset hq) hvw

/-- The clauses of a query without repeated terms have disjoint variables. -/
theorem Clauses.nodup_terms {o : Option Occurance} {qs : Clauses τ}
    (h : (Query.clauses o qs).terms.Nodup) :
    (∀ q ∈ qs.toList, q.terms.Nodup) ∧
      qs.toList.Pairwise fun q q' => Disjoint q.support q'.support := by
  have h' : qs.terms.Nodup := h
  rw [qs.terms_eq, List.nodup_flatMap] at h'
  refine ⟨h'.1, h'.2.imp fun hd => ?_⟩
  exact Set.disjoint_left.mpr fun t ht ht' => hd ht ht'

theorem Clauses.independent {o : Option Occurance} {qs : Clauses τ} {n : Bool}
    (h : (Query.clauses o qs).terms.Nodup) {F : Query τ × Bool → BoolFun τ}
    (hF : ∀ b, DependsOn (F b) b.1.support) :
    Independent (fun b => b.1.support) (qs.branches n) F := by
  refine ⟨?_, fun b _ => hF b⟩
  refine (Clauses.nodup_terms h).2.filterMap _ fun q q' hd b hb b' hb' => ?_
  obtain ⟨m, -, rfl⟩ := Option.map_eq_some_iff.mp hb
  obtain ⟨m', -, rfl⟩ := Option.map_eq_some_iff.mp hb'
  exact hd

theorem Query.nonconstant_dnfHolds (q : Query τ) (h : q.terms.Nodup) :
    ∀ n, Nonconstant (q.dnfHolds n) := by
  induction q using Query.ofClauses with
  | term o t =>
      intro n b
      exact ⟨fun _ => b ^^ n, by rw [dnfHolds_term]; simp⟩
  | clauses o qs ih =>
      intro n
      have hind : Independent _ (qs.branches n) fun b => b.1.dnfHolds b.2 :=
        Clauses.independent h fun b => b.1.dependsOn_dnfHolds b.2
      have hnc := hind.nonconstant_combine (qs.branches_ne_nil n) (fun b hb =>
        have hq := (Clauses.mem_branches.mp hb).1
        ih b.1 hq ((Clauses.nodup_terms h).1 b.1 hq) b.2) (qs.isDisjunction n)
      intro b
      obtain ⟨v, hv⟩ := hnc b
      exact ⟨v, by rw [dnfHolds_clauses]; exact hv⟩

/-- Mixed clauses under negation: the normal form reads other variables than
the query. -/
theorem dnfHolds_ne_of_mixed {o : Option Occurance} {qs : Clauses τ}
    (hnd : (Query.clauses o qs).terms.Nodup) (hmixed : qs.isMixed = true) (sign : Bool) :
    ¬ ∀ v, (Query.clauses o qs).dnfHolds true v =
      (((Query.clauses o qs).eval v ^^ true) ^^ sign) := by
  intro heq
  simp only [Clauses.isMixed, Bool.and_eq_true, List.any_eq_true, Bool.not_eq_true'] at hmixed
  obtain ⟨⟨qs', hqs', hshould⟩, qm, hqm, hmust⟩ := hmixed
  have hd : ¬ qs.isDisjunction true = true := fun hd => by
    have := Clauses.isDisjunction_true.mp hd qs' hqs'
    rw [hshould] at this
    simp at this
  let T : Set τ := {t | ∃ q ∈ qs.toList, q.isShould = true ∧ t ∈ q.support}
  have hbranch : ∀ b ∈ qs.branches true, b.1.support ⊆ T := by
    intro b hb t ht
    obtain ⟨hq, hm⟩ := Clauses.mem_branches.mp hb
    rw [Clauses.flag, if_neg hd] at hm
    refine ⟨b.1, hq, ?_, ht⟩
    by_contra hne
    rw [expandWith_eq_none.mpr (by simpa using hne)] at hm
    simp at hm
  have hD : DependsOn ((Query.clauses o qs).dnfHolds true) T := by
    intro v w hvw
    rw [Query.dnfHolds_clauses, Query.dnfHolds_clauses]
    exact dependsOn_combine (fun b hb =>
      (b.1.dependsOn_dnfHolds b.2).mono (hbranch b hb)) _ hvw
  have hE : ∀ v w, (Query.clauses o qs).eval (override T v w) =
      (Query.clauses o qs).eval w := by
    intro v w
    refine eval_clauses_congr fun q hq hcase => ?_
    have hqs : q.isShould = false :=
      hcase.resolve_right (Clauses.mustClauses_ne_zero hqm hmust)
    refine apply_override_other q.dependsOn_eval ?_ v w
    refine Set.disjoint_left.mpr ?_
    rintro t ⟨q', hq', hs', ht⟩ ht'
    have hne : q' ≠ q := by
      rintro rfl
      rw [hqs] at hs'
      simp at hs'
    have : Std.Symm fun q q' : Query τ => Disjoint q.support q'.support :=
      ⟨fun _ _ h => h.symm⟩
    exact Set.disjoint_left.mp ((Clauses.nodup_terms hnd).2.forall hq' hq hne) ht ht'
  -- the two values of the normal form agree with one value of the query
  obtain ⟨v, hv⟩ := Query.nonconstant_dnfHolds _ hnd true true
  obtain ⟨w, hw⟩ := Query.nonconstant_dnfHolds _ hnd true false
  have h1 := heq (override T v w)
  rw [apply_override_self hD, hE, ← heq w, hv, hw] at h1
  simp at h1

/-- **Without repeated terms only faithful queries keep their meaning.** -/
theorem Query.faithful_of_dnfHolds (q : Query τ) (hnd : q.terms.Nodup) :
    ∀ sign n, (∀ v, q.dnfHolds n v = ((q.eval v ^^ n) ^^ sign)) →
      q.faithful sign n = true := by
  induction q using Query.ofClauses with
  | term o t =>
      intro sign n h
      have := h fun _ => false
      rw [dnfHolds_term, Query.eval] at this
      cases sign <;> cases n <;> simp_all [Query.faithful]
  | clauses o qs ih =>
      intro sign n h
      have hmixed : (n && qs.isMixed) = false := by
        cases n with
        | false => rfl
        | true =>
            cases hm : qs.isMixed with
            | false => rfl
            | true => exact absurd h (dnfHolds_ne_of_mixed hnd hm sign)
      simp only [dnfHolds_clauses, eval_clauses o qs n hmixed] at h
      have hF : Independent _ (qs.branches n) fun b => b.1.dnfHolds b.2 :=
        Clauses.independent hnd fun b => b.1.dependsOn_dnfHolds b.2
      have hG : Independent _ (qs.branches n)
          fun b v => (b.1.eval v ^^ b.2) ^^ (n && qs.allShould) :=
        Clauses.independent hnd fun b v w hvw =>
          congrArg (fun x => (x ^^ b.2) ^^ (n && qs.allShould)) (b.1.dependsOn_eval hvw)
      have hnodup := (Clauses.nodup_terms hnd).1
      obtain ⟨hone, hall⟩ := hF.combine_eq hG (qs.branches_ne_nil n) (fun b hb =>
        b.1.nonconstant_dnfHolds (hnodup b.1 (Clauses.mem_branches.mp hb).1) b.2) h
      refine faithful_clauses.mpr ⟨hmixed, hone, fun b hb => ?_⟩
      have hq := (Clauses.mem_branches.mp hb).1
      refine ih b.1 hq (hnodup b.1 hq) _ _ fun v => ?_
      rw [hall b hb v]
      cases sign <;> cases (n && qs.allShould) <;> simp

/-! ## The normal form -/

/-- **The normal form of a faithful query has the meaning of the query**, under
every assignment; and of a query without repeated terms, only then. -/
theorem dnf_preserves_meaning (q : Query τ) :
    (q.faithful false false = true →
      ∀ v, disjunctionHolds v (createDisjunctiveNormalForm q) = q.eval v) ∧
    (q.terms.Nodup →
      (∀ v, disjunctionHolds v (createDisjunctiveNormalForm q) = q.eval v) →
      q.faithful false false = true) := by
  constructor
  · intro h v
    have hv := q.dnfHolds_of_faithful false false h v
    rwa [Bool.xor_false, Bool.xor_false] at hv
  · intro hnd h
    refine q.faithful_of_dnfHolds hnd false false fun v => ?_
    rw [Bool.xor_false, Bool.xor_false]
    exact h v

/-- `a AND NOT (b AND NOT c)`: De Morgan's law under a nested negation. -/
theorem dnf_preserves_nested_negation :
    let q : Query String := .clauses none (.cons (.term none "a") (.one
      (.clauses (some .mustNotOccur) (.cons (.term (some .mustOccur) "b")
        (.one (.term (some .mustNotOccur) "c"))))))
    q.faithful false false = true ∧ q.terms.Nodup ∧
      ∀ v, disjunctionHolds v (createDisjunctiveNormalForm q) = q.eval v := by
  intro q
  have h : q.faithful false false = true := by decide +kernel
  exact ⟨h, by decide +kernel, (dnf_preserves_meaning q).1 h⟩

/-- `NOT (a OR b)` becomes `a AND b`: the clauses of a negated disjunction are
not negated. -/
theorem dnf_negated_disjunction :
    ¬ ∀ (q : Query String) (v : String → Bool),
      disjunctionHolds v (createDisjunctiveNormalForm q) = q.eval v := by
  intro h
  have := h (.clauses none (.one (.clauses (some .mustNotOccur)
    (.cons (.term (some .shouldOccur) "a") (.one (.term (some .shouldOccur) "b"))))))
    fun _ => false
  revert this
  decide +kernel

end Xenon.Filter

import Xenon.Filter.QueryFilter

/-!
# What the normal form means

Both the normal form and the query combine the same clauses, each with a flag
that says whether it is negated (`Clauses.branches`). A clause list that
contains a `SHOULD` clause is expanded wrongly under negation: its `SHOULD`
clauses are expanded without negation, and `MUST` and `MUST_NOT` clauses beside
them are dropped. So the normal form of a subquery can be right, inverted, or
unrelated to the query; `Query.faithful` computes which, and is exact for
queries that do not repeat a term.
-/

namespace Xenon.Filter

open Xenon.Foundation

universe u

variable {τ : Type u}

/-! ## Induction over queries -/

mutual

/-- A property of queries holds if it holds of terms, and of a clause list
whenever it holds of every clause. -/
theorem Query.ofClauses {P : Query τ → Prop} (term : ∀ o t, P (.term o t))
    (clauses : ∀ o qs, (∀ q ∈ Clauses.toList qs, P q) → P (.clauses o qs)) : ∀ q, P q
  | .term o t => term o t
  | .clauses o qs => clauses o qs (Clauses.ofClauses term clauses qs)

theorem Clauses.ofClauses {P : Query τ → Prop} (term : ∀ o t, P (.term o t))
    (clauses : ∀ o qs, (∀ q ∈ Clauses.toList qs, P q) → P (.clauses o qs)) :
    ∀ qs : Clauses τ, ∀ q ∈ qs.toList, P q
  | .one q', q, h => by
      have hq' := Query.ofClauses term clauses q'
      rwa [show q = q' by simpa [Clauses.toList] using h]
  | .cons q' qs, q, h => by
      have hq' := Query.ofClauses term clauses q'
      have hqs := Clauses.ofClauses term clauses qs
      rcases List.mem_cons.mp h with rfl | h
      · exact hq'
      · exact hqs q h

end

theorem Clauses.toList_ne_nil (qs : Clauses τ) : qs.toList ≠ [] := by
  cases qs <;> simp [Clauses.toList]

/-! ## The loops as folds -/

theorem Clauses.loop_eq (qs : Clauses τ) (prefixes : List (Conjunction τ)) (n : Bool) :
    qs.loop prefixes n = qs.toList.foldl
      (fun p q => match expandWith q.effective n with
        | some m => q.dnf p m
        | none => p) prefixes :=
  match qs with
  | .one q => rfl
  | .cons q qs => by
      rw [Clauses.loop, Clauses.toList, List.foldl_cons]
      exact qs.loop_eq _ n

theorem Clauses.expand_eq (qs : Clauses τ) (prefixes : List (Conjunction τ)) (n : Bool) :
    qs.expand prefixes n = qs.toList.flatMap fun q => q.dnf prefixes (negateClause q n) :=
  match qs with
  | .one q => by simp [Clauses.expand, Clauses.toList]
  | .cons q qs => by
      rw [Clauses.expand, Clauses.toList, List.flatMap_cons, qs.expand_eq]

theorem Clauses.evalShould_eq (qs : Clauses τ) (v : τ → Bool) :
    qs.evalShould v = qs.toList.any (Query.eval v) :=
  match qs with
  | .one q => by simp [Clauses.evalShould, Clauses.toList]
  | .cons q qs => by
      rw [Clauses.evalShould, Clauses.toList, List.any_cons, qs.evalShould_eq]

/-- The value of a clause in a conjunction. -/
def Query.evalClause (v : τ → Bool) (q : Query τ) : Bool :=
  match q.effective with
  | .mustOccur => q.eval v
  | .mustNotOccur => !q.eval v
  | .shouldOccur => true

theorem Clauses.evalMust_eq (qs : Clauses τ) (v : τ → Bool) :
    qs.evalMust v = qs.toList.all (Query.evalClause v) :=
  match qs with
  | .one q => (Bool.and_true _).symm
  | .cons q qs => by
      rw [Clauses.evalMust, Clauses.toList, List.all_cons, qs.evalMust_eq]
      rfl

/-! ## Kinds of clause lists -/

def Query.isShould (q : Query τ) : Bool := q.effective = .shouldOccur

theorem Clauses.mustClauses_eq_zero {qs : Clauses τ} :
    qs.mustClauses = 0 ↔ ∀ q ∈ qs.toList, q.isShould = true := by
  simp [Clauses.mustClauses, Query.isShould, List.countP_eq_zero]

theorem Clauses.isDisjunction_false {qs : Clauses τ} :
    qs.isDisjunction false = true ↔ ∀ q ∈ qs.toList, q.isShould = true := by
  simp [Clauses.isDisjunction, Clauses.shouldClauses, Query.isShould,
    List.countP_eq_length]

theorem Clauses.isDisjunction_true {qs : Clauses τ} :
    qs.isDisjunction true = true ↔ ∀ q ∈ qs.toList, q.isShould = false := by
  simp [Clauses.isDisjunction, Clauses.mustClauses, Query.isShould,
    List.countP_eq_length]

/-- The clauses that are expanded, with the negation they are expanded with. -/
def Clauses.flag (qs : Clauses τ) (n : Bool) (q : Query τ) : Option Bool :=
  if qs.isDisjunction n then some (negateClause q n) else expandWith q.effective n

def Clauses.branches (qs : Clauses τ) (n : Bool) : List (Query τ × Bool) :=
  qs.toList.filterMap fun q => (qs.flag n q).map fun m => (q, m)

theorem Clauses.mem_branches {qs : Clauses τ} {n : Bool} {b : Query τ × Bool} :
    b ∈ qs.branches n ↔ b.1 ∈ qs.toList ∧ qs.flag n b.1 = some b.2 := by
  obtain ⟨q, m⟩ := b
  simp only [branches, List.mem_filterMap, Option.map_eq_some_iff, Prod.mk.injEq]
  constructor
  · rintro ⟨q', hq, m', hm, rfl, rfl⟩
    exact ⟨hq, hm⟩
  · rintro ⟨hq, hm⟩
    exact ⟨q, hq, m, hm, rfl, rfl⟩

theorem expandWith_eq_none {q : Query τ} {n : Bool} :
    expandWith q.effective n = none ↔ q.isShould = !n := by
  cases n <;> cases h : q.effective <;> simp [expandWith, Query.isShould, h]

/-- A disjunction is not expanded in the first loop. -/
theorem Clauses.loop_of_isDisjunction {qs : Clauses τ} {n : Bool}
    (h : qs.isDisjunction n = true) (p : List (Conjunction τ)) : qs.loop p n = p := by
  have hnone : ∀ q ∈ qs.toList, expandWith q.effective n = none := by
    intro q hq
    rw [expandWith_eq_none]
    cases n with
    | false => exact isDisjunction_false.mp h q hq
    | true => exact isDisjunction_true.mp h q hq
  rw [loop_eq]
  generalize qs.toList = l at hnone
  induction l with
  | nil => rfl
  | cons q l ih =>
      rw [List.foldl_cons, hnone q List.mem_cons_self]
      exact ih fun q' hq' => hnone q' (List.mem_cons_of_mem _ hq')

theorem Clauses.branches_ne_nil (qs : Clauses τ) (n : Bool) : qs.branches n ≠ [] := by
  obtain ⟨q, hq, m, hm⟩ : ∃ q ∈ qs.toList, ∃ m, qs.flag n q = some m := by
    by_cases hd : qs.isDisjunction n = true
    · obtain ⟨q, hq⟩ := List.exists_mem_of_ne_nil _ qs.toList_ne_nil
      exact ⟨q, hq, _, if_pos hd⟩
    · have hex : ∃ q ∈ qs.toList, q.isShould = n := by
        by_contra hall
        push Not at hall
        refine hd ?_
        cases n with
        | false => exact isDisjunction_false.mpr fun q hq => by simpa using hall q hq
        | true => exact isDisjunction_true.mpr fun q hq => by simpa using hall q hq
      obtain ⟨q, hq, hn⟩ := hex
      have hne : expandWith q.effective n ≠ none := by
        rw [Ne, expandWith_eq_none, hn]
        cases n <;> simp
      obtain ⟨m, hm⟩ := Option.ne_none_iff_exists'.mp hne
      exact ⟨q, hq, m, by rw [flag, if_neg hd, hm]⟩
  have hmem : (q, m) ∈ qs.branches n := mem_branches.mpr ⟨hq, hm⟩
  exact List.ne_nil_of_mem hmem

/-! ## The meaning of the normal form -/

/-- No prefix yet means that nothing is asked for. -/
def prefixHolds (v : τ → Bool) (p : List (Conjunction τ)) : Bool :=
  p.isEmpty || disjunctionHolds v p

theorem prefixHolds_of_ne_nil {v : τ → Bool} {p : List (Conjunction τ)} (h : p ≠ []) :
    prefixHolds v p = disjunctionHolds v p := by
  rw [prefixHolds, List.isEmpty_eq_false_iff.mpr h, Bool.false_or]

/-- The value of the normal form of `q`, expanded with negation `n`. -/
def Query.dnfHolds (q : Query τ) (n : Bool) : BoolFun τ :=
  fun v => disjunctionHolds v (q.dnf [] n)

/-- Expanding `q` adds its normal form to the prefixes. -/
def Query.Expands (q : Query τ) : Prop :=
  ∀ p n, q.dnf p n ≠ [] ∧
    ∀ v, disjunctionHolds v (q.dnf p n) = (prefixHolds v p && q.dnfHolds n v)

theorem addTerm_spec (t : Term τ) (p : List (Conjunction τ)) :
    addTerm t p ≠ [] ∧
      ∀ v, disjunctionHolds v (addTerm t p) = (prefixHolds v p && t.holds v) := by
  cases p with
  | nil => simp [addTerm, disjunctionHolds, prefixHolds, Conjunction.holds]
  | cons c cs =>
      refine ⟨by simp [addTerm], fun v => ?_⟩
      rw [prefixHolds_of_ne_nil (by simp)]
      simp only [addTerm, List.isEmpty_cons, Bool.false_eq_true, if_false,
        disjunctionHolds, List.any_map]
      have hcons : ∀ c : Conjunction τ, Conjunction.holds v (t :: c) =
          (t.holds v && Conjunction.holds v c) := fun c => List.all_cons
      cases ht : t.holds v <;> simp [Function.comp_def, hcons, ht]

/-- The first loop adds the normal forms of the clauses it expands. -/
theorem foldl_expands (n : Bool) : ∀ (l : List (Query τ)) (p : List (Conjunction τ)),
    (∀ q ∈ l, q.Expands) →
    let r := l.foldl (fun p q => match expandWith q.effective n with
      | some m => q.dnf p m
      | none => p) p
    let bs := l.filterMap fun q => (expandWith q.effective n).map fun m => (q, m)
    (p ≠ [] ∨ bs ≠ [] → r ≠ []) ∧
      ∀ v, prefixHolds v r = (prefixHolds v p && bs.all fun b => b.1.dnfHolds b.2 v) := by
  intro l
  induction l with
  | nil => simp
  | cons q l ih =>
      intro p h
      have hl := fun p => ih p fun q' hq' => h q' (List.mem_cons_of_mem _ hq')
      simp only [List.foldl_cons]
      cases hm : expandWith q.effective n with
      | none =>
          simp only [List.filterMap_cons, hm, Option.map_none]
          exact hl p
      | some m =>
          obtain ⟨hne, hv⟩ := h q List.mem_cons_self p m
          obtain ⟨h1, h2⟩ := hl (q.dnf p m)
          simp only [List.filterMap_cons, hm, Option.map_some, List.all_cons]
          refine ⟨fun _ => h1 (Or.inl hne), fun v => ?_⟩
          rw [h2, prefixHolds_of_ne_nil hne, hv, Bool.and_assoc]

/-- Any prefixes: the clauses are combined by `isDisjunction`. -/
theorem dnf_clauses (o : Option Occurance) (qs : Clauses τ)
    (h : ∀ q ∈ qs.toList, q.Expands) (p : List (Conjunction τ)) (n : Bool) :
    (Query.clauses o qs).dnf p n ≠ [] ∧
      ∀ v, disjunctionHolds v ((Query.clauses o qs).dnf p n) =
        (prefixHolds v p && combine (qs.isDisjunction n)
          ((qs.branches n).map fun b => b.1.dnfHolds b.2 v)) := by
  rw [Query.dnf]
  by_cases hd : qs.isDisjunction n = true
  · have hbr : qs.branches n = qs.toList.map fun q => (q, negateClause q n) := by
      simp [Clauses.branches, Clauses.flag, hd]
    simp only [hd, if_true, Clauses.loop_of_isDisjunction hd, Clauses.expand_eq, hbr]
    constructor
    · obtain ⟨q, hq⟩ := List.exists_mem_of_ne_nil _ qs.toList_ne_nil
      obtain ⟨c, hc⟩ := List.exists_mem_of_ne_nil _ (h q hq p (negateClause q n)).1
      exact List.ne_nil_of_mem (List.mem_flatMap.mpr ⟨q, hq, hc⟩)
    · intro v
      have hv : ∀ q ∈ qs.toList, disjunctionHolds v (q.dnf p (negateClause q n)) =
          (prefixHolds v p && q.dnfHolds (negateClause q n) v) :=
        fun q hq => (h q hq p _).2 v
      rw [disjunctionHolds, List.any_flatMap, Bool.eq_iff_iff]
      simp only [disjunctionHolds] at hv
      simp only [combine, if_true, List.any_map, List.any_eq_true, Bool.and_eq_true,
        Function.comp_apply, id_eq]
      constructor
      · rintro ⟨q, hq, hany⟩
        rw [← List.any_eq_true, hv q hq, Bool.and_eq_true] at hany
        exact ⟨hany.1, q, hq, hany.2⟩
      · rintro ⟨hp, q, hq, hd⟩
        refine ⟨q, hq, ?_⟩
        rw [← List.any_eq_true, hv q hq, hp, hd]
        rfl
  · have hbr : qs.branches n =
        qs.toList.filterMap fun q => (expandWith q.effective n).map fun m => (q, m) := by
      simp [Clauses.branches, Clauses.flag, hd]
    obtain ⟨h1, h2⟩ := foldl_expands n qs.toList p h
    rw [← hbr] at h1 h2
    have hne := h1 (Or.inr (qs.branches_ne_nil n))
    simp only [hd, Bool.false_eq_true, if_false, Clauses.loop_eq]
    refine ⟨hne, fun v => ?_⟩
    rw [← prefixHolds_of_ne_nil hne, h2 v]
    simp [combine, List.all_map]

/-- **Every query expands.** -/
theorem Query.expands (q : Query τ) : q.Expands := by
  induction q using Query.ofClauses with
  | term o t =>
      intro p n
      refine ⟨(addTerm_spec ⟨t, n⟩ p).1, fun v => ?_⟩
      change disjunctionHolds v (addTerm ⟨t, n⟩ p) =
        (prefixHolds v p && disjunctionHolds v (addTerm ⟨t, n⟩ []))
      rw [(addTerm_spec _ p).2, (addTerm_spec _ []).2]
      rfl
  | clauses o qs ih =>
      intro p n
      refine ⟨(dnf_clauses o qs ih p n).1, fun v => ?_⟩
      rw [(dnf_clauses o qs ih p n).2, dnfHolds, (dnf_clauses o qs ih [] n).2]
      rfl

theorem Query.dnfHolds_term (o : Option Occurance) (t : τ) (n : Bool) (v : τ → Bool) :
    (Query.term o t).dnfHolds n v = (v t ^^ n) :=
  (addTerm_spec ⟨t, n⟩ []).2 v

/-- The normal form of a clause list. -/
theorem Query.dnfHolds_clauses (o : Option Occurance) (qs : Clauses τ) (n : Bool)
    (v : τ → Bool) :
    (Query.clauses o qs).dnfHolds n v = combine (qs.isDisjunction n)
      ((qs.branches n).map fun b => b.1.dnfHolds b.2 v) :=
  (dnf_clauses o qs (fun q _ => q.expands) [] n).2 v

/-! ## The meaning of the query -/

/-- The list has both kinds of clauses. -/
def Clauses.isMixed (qs : Clauses τ) : Bool :=
  qs.toList.any Query.isShould && qs.toList.any fun q => !q.isShould

/-- All clauses are `SHOULD` clauses. -/
def Clauses.allShould (qs : Clauses τ) : Bool := qs.toList.all Query.isShould

theorem Clauses.kinds (qs : Clauses τ) :
    (∀ q ∈ qs.toList, q.isShould = true) ∨ (∀ q ∈ qs.toList, q.isShould = false) ∨
      qs.isMixed = true := by
  by_cases h1 : ∀ q ∈ qs.toList, q.isShould = true
  · exact Or.inl h1
  · by_cases h2 : ∀ q ∈ qs.toList, q.isShould = false
    · exact Or.inr (Or.inl h2)
    · push Not at h1 h2
      simp only [ne_eq, Bool.not_eq_true, Bool.not_eq_false] at h1 h2
      refine Or.inr (Or.inr ?_)
      simpa [isMixed] using ⟨h2, h1⟩

theorem negateClause_false (q : Query τ) : negateClause q false = false := by
  simp [negateClause]

theorem evalClause_of_flag {q : Query τ} {m : Bool} (v : τ → Bool)
    (h : expandWith q.effective false = some m) : q.evalClause v = (q.eval v ^^ m) := by
  unfold Query.evalClause
  cases ho : q.effective <;> rw [ho] at h <;> simp [expandWith] at h <;> subst h <;> simp

theorem evalClause_of_must {q : Query τ} (v : τ → Bool) (h : q.isShould = false) :
    q.evalClause v = !(q.eval v ^^ negateClause q true) := by
  unfold Query.evalClause negateClause
  unfold Query.isShould Query.effective at h
  unfold Query.effective
  cases ho : q.occurance with
  | none => simp
  | some o => cases o <;> simp_all

theorem all_filterMap_flag {l : List (Query τ)} {n : Bool} {f : Query τ → Bool}
    {g : Query τ × Bool → Bool}
    (hsome : ∀ q ∈ l, ∀ m, expandWith q.effective n = some m → f q = g (q, m))
    (hnone : ∀ q ∈ l, expandWith q.effective n = none → f q = true) :
    l.all f = (l.filterMap fun q => (expandWith q.effective n).map fun m => (q, m)).all g := by
  induction l with
  | nil => rfl
  | cons q l ih =>
      have ih := ih (fun q' hq' => hsome q' (List.mem_cons_of_mem _ hq'))
        (fun q' hq' => hnone q' (List.mem_cons_of_mem _ hq'))
      cases hm : expandWith q.effective n with
      | none => simp [hm, ih, hnone q List.mem_cons_self hm]
      | some m => simp [hm, ih, hsome q List.mem_cons_self m hm]

theorem Clauses.mustClauses_ne_zero {qs : Clauses τ} {q : Query τ} (hq : q ∈ qs.toList)
    (h : q.isShould = false) : qs.mustClauses ≠ 0 := by
  intro hz
  have := Clauses.mustClauses_eq_zero.mp hz q hq
  rw [h] at this
  simp at this

theorem eval_clauses_not_negated (o : Option Occurance) (qs : Clauses τ) (v : τ → Bool) :
    (Query.clauses o qs).eval v = combine (qs.isDisjunction false)
      ((qs.branches false).map fun b => b.1.eval v ^^ b.2) := by
  rw [Query.eval]
  by_cases hd : qs.isDisjunction false = true
  · have hall := Clauses.isDisjunction_false.mp hd
    rw [if_pos (Clauses.mustClauses_eq_zero.mpr hall), Clauses.evalShould_eq, hd]
    simp [combine, Clauses.branches, Clauses.flag, hd, negateClause_false, Function.comp_def]
  · have hne : qs.mustClauses ≠ 0 := by
      intro hz
      exact hd (Clauses.isDisjunction_false.mpr (Clauses.mustClauses_eq_zero.mp hz))
    have hall : qs.toList.all (Query.evalClause v) =
        (qs.branches false).all fun b => b.1.eval v ^^ b.2 := by
      simp only [Clauses.branches, Clauses.flag, hd, Bool.false_eq_true, if_false]
      apply all_filterMap_flag
      · intro q _ m hm
        exact evalClause_of_flag v hm
      · -- the `SHOULD` clauses that are not expanded are not evaluated either
        intro q _ hm
        have := expandWith_eq_none.mp hm
        simp only [Query.isShould, Bool.not_false, decide_eq_true_eq] at this
        simp [Query.evalClause, this]
    rw [if_neg hne, Clauses.evalMust_eq, hall]
    simp [combine, hd, List.all_map]

theorem eval_clauses_negated_should (o : Option Occurance) {qs : Clauses τ} (v : τ → Bool)
    (hall : ∀ q ∈ qs.toList, q.isShould = true) :
    (!(Query.clauses o qs).eval v) = combine (qs.isDisjunction true)
      ((qs.branches true).map fun b => !(b.1.eval v ^^ b.2)) := by
  have hd : ¬ qs.isDisjunction true = true := by
    intro hd
    obtain ⟨q, hq⟩ := List.exists_mem_of_ne_nil _ qs.toList_ne_nil
    have := Clauses.isDisjunction_true.mp hd q hq
    rw [hall q hq] at this
    simp at this
  have hand : qs.toList.all (fun q => !q.eval v) =
      (qs.branches true).all fun b => !(b.1.eval v ^^ b.2) := by
    simp only [Clauses.branches, Clauses.flag, hd, Bool.false_eq_true, if_false]
    apply all_filterMap_flag
    · intro q hq m hm
      have := hall q hq
      simp only [Query.isShould, decide_eq_true_eq] at this
      rw [this] at hm
      obtain rfl : false = m := by simpa [expandWith] using hm
      simp
    · intro q hq hm
      have := expandWith_eq_none.mp hm
      rw [hall q hq] at this
      simp at this
  rw [Query.eval, if_pos (Clauses.mustClauses_eq_zero.mpr hall), Clauses.evalShould_eq,
    List.any_eq_not_all_not, hand]
  simp [combine, hd, List.all_map]

theorem eval_clauses_negated_must (o : Option Occurance) {qs : Clauses τ} (v : τ → Bool)
    (hnone : ∀ q ∈ qs.toList, q.isShould = false) :
    (!(Query.clauses o qs).eval v) = combine (qs.isDisjunction true)
      ((qs.branches true).map fun b => b.1.eval v ^^ b.2) := by
  have hd := Clauses.isDisjunction_true.mpr hnone
  obtain ⟨q, hq⟩ := List.exists_mem_of_ne_nil _ qs.toList_ne_nil
  have hall : qs.toList.all (Query.evalClause v) =
      qs.toList.all fun q => !(q.eval v ^^ negateClause q true) := by
    rw [Bool.eq_iff_iff, List.all_eq_true, List.all_eq_true]
    exact forall₂_congr fun q hq => by rw [evalClause_of_must v (hnone q hq)]
  rw [Query.eval, if_neg (Clauses.mustClauses_ne_zero hq (hnone q hq)), Clauses.evalMust_eq, hall]
  simp [combine, Clauses.branches, Clauses.flag, hd, Function.comp_def, List.all_eq_not_any_not]

/-- **The query combines the same clauses**, unless `MUST` and `SHOULD` clauses
are mixed under negation. A list of `SHOULD` clauses under negation should
negate its clauses and does not. -/
theorem eval_clauses (o : Option Occurance) (qs : Clauses τ) (n : Bool)
    (hmixed : (n && qs.isMixed) = false) (v : τ → Bool) :
    ((Query.clauses o qs).eval v ^^ n) = combine (qs.isDisjunction n)
      ((qs.branches n).map fun b => (b.1.eval v ^^ b.2) ^^ (n && qs.allShould)) := by
  cases n with
  | false => simpa using eval_clauses_not_negated o qs v
  | true =>
      rcases qs.kinds with hall | hnone | hmix
      · have hshould : qs.allShould = true := by simpa [Clauses.allShould] using hall
        simpa [hshould] using eval_clauses_negated_should o v hall
      · obtain ⟨q, hq⟩ := List.exists_mem_of_ne_nil _ qs.toList_ne_nil
        have hshould : qs.allShould = false := by
          simpa [Clauses.allShould] using ⟨q, hq, hnone q hq⟩
        simpa [hshould] using eval_clauses_negated_must o v hnone
      · rw [hmix] at hmixed
        simp at hmixed

end Xenon.Filter

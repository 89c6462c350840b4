import Mathlib.Logic.Function.DependsOn
import Mathlib.Data.Set.Piecewise
import Mathlib.Data.List.Pairwise
import Mathlib.Tactic.Tauto
import Mathlib.Data.Set.BooleanAlgebra
import Mathlib.Order.CompletePartialOrder

/-!
# Boolean functions of disjoint variables

A family of Boolean functions whose variables are pairwise disjoint can be
assigned independently. A conjunction of such functions therefore determines
its members: if two conjunctions agree everywhere then so do their members
(`all_congr_iff`), and a conjunction is the negation of another one only if it
has a single member (`length_of_all_eq_not`). The same for disjunctions, by
duality.
-/

namespace Xenon.Foundation

/-- A Boolean function of an assignment. -/
abbrev BoolFun (τ : Type*) := (τ → Bool) → Bool

/-- The function takes both values. -/
def Nonconstant {τ : Type*} (F : BoolFun τ) : Prop := ∀ b, ∃ v, F v = b

/-- Disjunction or conjunction of the members of a list. -/
def combine (disj : Bool) (l : List Bool) : Bool := if disj then l.any id else l.all id

variable {ι τ : Type*} {F G : ι → BoolFun τ} {s : ι → Set τ} {l : List ι}

open Classical in
/-- Use `w` on the variables of one member and `v` elsewhere. -/
noncomputable def override (t : Set τ) (w v : τ → Bool) : τ → Bool := t.piecewise w v

theorem apply_override_self {H : BoolFun τ} {t : Set τ} (h : DependsOn H t)
    (w v : τ → Bool) : H (override t w v) = H w :=
  h fun x hx => by simp [override, hx]

theorem apply_override_other {H : BoolFun τ} {t t' : Set τ} (h : DependsOn H t')
    (hd : Disjoint t t') (w v : τ → Bool) : H (override t w v) = H v := by
  refine h fun x hx => ?_
  have : x ∉ t := fun hxt => Set.disjoint_left.mp hd hxt hx
  simp [override, this]

/-- Every member has its own variables. -/
structure Independent (s : ι → Set τ) (l : List ι) (F : ι → BoolFun τ) : Prop where
  disjoint : l.Pairwise fun i j => Disjoint (s i) (s j)
  depends : ∀ i ∈ l, DependsOn (F i) (s i)

namespace Independent

theorem disjoint_of_ne (h : Independent s l F) {i j : ι} (hi : i ∈ l) (hj : j ∈ l)
    (hne : i ≠ j) : Disjoint (s i) (s j) := by
  have : Std.Symm fun i j => Disjoint (s i) (s j) := ⟨fun _ _ h => h.symm⟩
  exact h.disjoint.forall hi hj hne

theorem tail {i : ι} (h : Independent s (i :: l) F) : Independent s l F :=
  ⟨h.disjoint.of_cons, fun j hj => h.depends j (List.mem_cons_of_mem _ hj)⟩

/-- Members that can each take a value can take it together. -/
theorem exists_common (h : Independent s l F) {b : Bool}
    (hb : ∀ i ∈ l, ∃ v, F i v = b) : ∃ v, ∀ i ∈ l, F i v = b := by
  induction l with
  | nil => exact ⟨fun _ => false, by simp⟩
  | cons i l ih =>
      obtain ⟨v, hv⟩ := ih h.tail fun j hj => hb j (List.mem_cons_of_mem _ hj)
      obtain ⟨w, hw⟩ := hb i List.mem_cons_self
      refine ⟨override (s i) w v, fun j hj => ?_⟩
      rcases List.mem_cons.mp hj with rfl | hj
      · rw [apply_override_self (h.depends j List.mem_cons_self), hw]
      · have hd := List.rel_of_pairwise_cons h.disjoint hj
        rw [apply_override_other (h.tail.depends j hj) hd, hv j hj]

/-- A conjunction of nonconstant functions is nonconstant. -/
theorem nonconstant_combine (h : Independent s l F) (hne : l ≠ [])
    (hF : ∀ i ∈ l, Nonconstant (F i)) (disj : Bool) :
    Nonconstant fun v => combine disj (l.map (F · v)) := by
  intro b
  obtain ⟨v, hv⟩ := h.exists_common fun i hi => hF i hi b
  refine ⟨v, ?_⟩
  have hmap : l.map (F · v) = List.replicate l.length b :=
    List.eq_replicate_iff.mpr ⟨by simp, by simpa using hv⟩
  obtain ⟨i, l', rfl⟩ := List.exists_cons_of_ne_nil hne
  simp only [hmap, combine]
  cases disj <;> cases b <;> simp [List.replicate_succ]

/-- **Equal conjunctions have equal members.** -/
theorem eq_of_all_eq (hF : Independent s l F) (hG : Independent s l G)
    (hsat : ∀ i ∈ l, ∃ v, F i v = true)
    (heq : ∀ v, l.all (F · v) = l.all (G · v)) :
    ∀ i ∈ l, ∀ v, F i v = G i v := by
  obtain ⟨u, hu⟩ := hF.exists_common hsat
  have hGu : ∀ i ∈ l, G i u = true := by
    have := heq u
    rw [List.all_eq_true.mpr hu] at this
    exact List.all_eq_true.mp this.symm
  intro i hi v
  -- every member but `i` is true at `override (s i) v u`
  have hone : ∀ {H : ι → BoolFun τ}, Independent s l H → (∀ j ∈ l, H j u = true) →
      l.all (H · (override (s i) v u)) = H i v := by
    intro H hH hHu
    rw [Bool.eq_iff_iff, List.all_eq_true]
    constructor
    · intro hall
      rw [← apply_override_self (hH.depends i hi) v u]
      exact hall i hi
    · intro hHv j hj
      by_cases hij : i = j
      · subst hij
        rwa [apply_override_self (hH.depends i hi)]
      · rw [apply_override_other (hH.depends j hj) (hH.disjoint_of_ne hi hj hij)]
        exact hHu j hj
  rw [← hone hF hu, ← hone hG hGu, heq]

/-- **A conjunction that is the negation of a conjunction has one member.** -/
theorem length_of_all_eq_not (hF : Independent s l F) (hG : Independent s l G)
    (hne : l ≠ []) (hnc : ∀ i ∈ l, Nonconstant (F i))
    (heq : ∀ v, l.all (F · v) = !l.all (G · v)) : l.length = 1 := by
  -- a member of `F` that is false leaves every other member of `G` no choice
  have hconst : ∀ i ∈ l, ∀ j ∈ l, i ≠ j → ∀ v, G j v = true := by
    intro i hi j hj hij v
    obtain ⟨w, hw⟩ := hnc i hi false
    have hfalse : l.all (F · (override (s i) w v)) = false := by
      rw [List.all_eq_false]
      refine ⟨i, hi, ?_⟩
      rw [apply_override_self (hF.depends i hi), hw]
      simp
    have hG' := heq (override (s i) w v)
    rw [hfalse, eq_comm, Bool.not_eq_false', List.all_eq_true] at hG'
    rw [← apply_override_other (hG.depends j hj) (hG.disjoint_of_ne hi hj hij) w v]
    exact hG' j hj
  match l, hne with
  | [i], _ => rfl
  | i :: j :: l, _ =>
      exfalso
      have hij : i ≠ j := by
        rintro rfl
        -- a member disjoint from itself has no variables
        have hd := List.rel_of_pairwise_cons hF.disjoint (List.mem_cons_self (a := i))
        obtain ⟨v, hv⟩ := hnc i List.mem_cons_self true
        obtain ⟨w, hw⟩ := hnc i List.mem_cons_self false
        have : F i v = F i w := hF.depends i List.mem_cons_self fun x hx =>
          absurd hx fun hx => Set.disjoint_left.mp hd hx hx
        rw [hv, hw] at this
        simp at this
      obtain ⟨u, hu⟩ := hF.exists_common fun k hk => hnc k hk true
      have hG' := heq u
      rw [List.all_eq_true.mpr hu, eq_comm, Bool.not_eq_true', List.all_eq_false] at hG'
      obtain ⟨k, hk, hk'⟩ := hG'
      refine hk' ?_
      by_cases hik : i = k
      · subst hik
        exact hconst j (by simp) i hk (Ne.symm hij) u
      · exact hconst i (by simp) k hk hik u

theorem not (h : Independent s l F) : Independent s l fun i v => !F i v :=
  ⟨h.disjoint, fun i hi _ _ hxy => congrArg (!·) (h.depends i hi hxy)⟩

end Independent

theorem Nonconstant.not {H : BoolFun τ} (h : Nonconstant H) :
    Nonconstant fun v => !H v := by
  intro b
  obtain ⟨v, hv⟩ := h !b
  exact ⟨v, by simp [hv]⟩

theorem combine_false_map (l : List ι) (F : ι → BoolFun τ) (v : τ → Bool) :
    combine false (l.map (F · v)) = l.all (F · v) := by
  simp [combine, List.all_map]

theorem combine_true_map (l : List ι) (F : ι → BoolFun τ) (v : τ → Bool) :
    combine true (l.map (F · v)) = !l.all fun i => !F i v := by
  rw [combine, if_pos rfl, List.any_eq_not_all_not, List.all_map]
  rfl

/-- Equal combinations have equal members; opposite ones a single member. -/
theorem Independent.combine_eq (hF : Independent s l F) (hG : Independent s l G)
    (hne : l ≠ []) (hnc : ∀ i ∈ l, Nonconstant (F i)) {disj sign : Bool}
    (heq : ∀ v, combine disj (l.map (F · v)) = (combine disj (l.map (G · v)) ^^ sign)) :
    (sign = true → l.length = 1) ∧ ∀ i ∈ l, ∀ v, F i v = (G i v ^^ sign) := by
  cases disj with
  | false =>
      simp only [combine_false_map] at heq
      cases sign with
      | false =>
          simp only [Bool.xor_false] at heq ⊢
          exact ⟨by simp, hF.eq_of_all_eq hG (fun i hi => hnc i hi true) heq⟩
      | true =>
          simp only [Bool.xor_true] at heq ⊢
          have hlen := hF.length_of_all_eq_not hG hne hnc heq
          refine ⟨fun _ => hlen, ?_⟩
          obtain ⟨i, rfl⟩ := List.length_eq_one_iff.mp hlen
          simpa using heq
  | true =>
      simp only [combine_true_map] at heq
      cases sign with
      | false =>
          simp only [Bool.xor_false, Bool.not_eq_eq_eq_not, Bool.not_not] at heq ⊢
          refine ⟨by simp, fun i hi v => ?_⟩
          have := hF.not.eq_of_all_eq hG.not (fun i hi => (hnc i hi).not true) heq i hi v
          simpa using this
      | true =>
          have hlen := hF.not.length_of_all_eq_not hG.not hne (fun i hi => (hnc i hi).not)
            (fun v => by simpa using heq v)
          refine ⟨fun _ => hlen, ?_⟩
          obtain ⟨i, rfl⟩ := List.length_eq_one_iff.mp hlen
          simpa using heq

end Xenon.Foundation

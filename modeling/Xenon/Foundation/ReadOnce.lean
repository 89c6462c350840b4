import Mathlib.Data.List.Chain
import Mathlib.Data.List.Nodup
import Xenon.Foundation.Disjoint

/-!
# Read-once formulas

In a formula of conjunctions and disjunctions in which every variable occurs once, two
variables are *joined* if the operator that brings them together is a conjunction. The
function of a formula says which variables are joined (`together_iff`), so formulas that are
equal as functions join the same variables. Formulas that join the same variables have the
same operators between them (`spine_eq_of_joined`).
-/

namespace Xenon.Foundation

variable {τ : Type*}

/-- A formula; `conj` says that an operator is a conjunction. -/
inductive Formula (τ : Type*) where
  | var (x : τ)
  | node (conj : Bool) (l r : Formula τ)

namespace Formula

def eval (v : τ → Bool) : Formula τ → Bool
  | .var x => v x
  | .node conj l r => if conj then l.eval v && r.eval v else l.eval v || r.eval v

def vars : Formula τ → List τ
  | .var x => [x]
  | .node _ l r => l.vars ++ r.vars

theorem eval_congr {v w : τ → Bool} {F : Formula τ} (h : ∀ x ∈ F.vars, v x = w x) :
    F.eval v = F.eval w := by
  induction F with
  | var x => exact h x (by simp [vars])
  | node conj l r hl hr =>
      rw [eval, eval, hl fun x hx => h x (by simp [vars, hx]),
        hr fun x hx => h x (by simp [vars, hx])]

/-- The variables are on both sides of a conjunction. -/
def Joined : Formula τ → τ → τ → Prop
  | .var _, _, _ => False
  | .node conj l r, x, y =>
      (x ∈ l.vars ∧ y ∈ l.vars ∧ l.Joined x y) ∨ (x ∈ r.vars ∧ y ∈ r.vars ∧ r.Joined x y) ∨
        (conj = true ∧ (x ∈ l.vars ∧ y ∈ r.vars ∨ x ∈ r.vars ∧ y ∈ l.vars))

section

variable {l r : Formula τ} {conj : Bool} {x y : τ}

theorem joined_left (h : l.vars.Disjoint r.vars) (hx : x ∈ l.vars) (hy : y ∈ l.vars) :
    (node conj l r).Joined x y ↔ l.Joined x y := by
  have hxr : x ∉ r.vars := fun hxr => h hx hxr
  have hyr : y ∉ r.vars := fun hyr => h hy hyr
  simp [Joined, hx, hy, hxr, hyr]

theorem joined_right (h : l.vars.Disjoint r.vars) (hx : x ∈ r.vars) (hy : y ∈ r.vars) :
    (node conj l r).Joined x y ↔ r.Joined x y := by
  have hxl : x ∉ l.vars := fun hxl => h hxl hx
  have hyl : y ∉ l.vars := fun hyl => h hyl hy
  simp [Joined, hx, hy, hxl, hyl]

theorem joined_across (h : l.vars.Disjoint r.vars) (hx : x ∈ l.vars) (hy : y ∈ r.vars) :
    (node conj l r).Joined x y ↔ conj = true := by
  have hxr : x ∉ r.vars := fun hxr => h hx hxr
  have hyl : y ∉ l.vars := fun hyl => h hyl hy
  simp [Joined, hx, hy, hxr, hyl]

theorem joined_comm (F : Formula τ) : F.Joined x y ↔ F.Joined y x := by
  induction F with
  | var z => exact Iff.rfl
  | node conj l r hl hr =>
      simp only [Joined, hl, hr]
      refine or_congr and_left_comm (or_congr and_left_comm (and_congr_right fun _ => ?_))
      constructor
      · rintro (⟨hx, hy⟩ | ⟨hx, hy⟩)
        · exact Or.inr ⟨hy, hx⟩
        · exact Or.inl ⟨hy, hx⟩
      · rintro (⟨hy, hx⟩ | ⟨hy, hx⟩)
        · exact Or.inr ⟨hx, hy⟩
        · exact Or.inl ⟨hx, hy⟩

theorem not_joined_self (F : Formula τ) (hnd : F.vars.Nodup) : ¬ F.Joined x x := by
  induction F with
  | var z => exact fun h => h
  | node conj l r hl hr =>
      obtain ⟨hnl, hnr, hdisj⟩ := List.nodup_append'.mp hnd
      rintro (⟨-, -, h⟩ | ⟨-, -, h⟩ | ⟨-, ⟨hl, hr⟩ | ⟨hr, hl⟩⟩)
      · exact hl hnl h
      · exact hr hnr h
      · exact hdisj hl hr
      · exact hdisj hl hr

theorem nodup_node : (node conj l r).vars.Nodup ↔
    l.vars.Nodup ∧ r.vars.Nodup ∧ l.vars.Disjoint r.vars := List.nodup_append'

end

theorem dependsOn_eval (F : Formula τ) : DependsOn (fun v => F.eval v) {x | x ∈ F.vars} := by
  intro v w h
  induction F with
  | var x => exact h x (by simp [vars])
  | node conj l r hl hr =>
      have hl : l.eval v = l.eval w := hl fun x hx => h x (List.mem_append_left _ hx)
      have hr : r.eval v = r.eval w := hr fun x hx => h x (List.mem_append_right _ hx)
      simp only [eval, hl, hr]

/-- Constant assignments. -/
theorem eval_const (F : Formula τ) (b : Bool) : F.eval (fun _ => b) = b := by
  induction F with
  | var x => rfl
  | node conj l r hl hr => cases conj <;> cases b <;> simp [eval, hl, hr]

theorem eval_comm (conj : Bool) (l r : Formula τ) (v : τ → Bool) :
    (node conj l r).eval v = (node conj r l).eval v := by
  cases conj <;> simp [eval, Bool.or_comm, Bool.and_comm]

/-- Use `w` on the variables of a formula and `v` elsewhere. -/
noncomputable def on (F : Formula τ) (w v : τ → Bool) : τ → Bool := override {x | x ∈ F.vars} w v

theorem eval_on (F : Formula τ) (w v : τ → Bool) : F.eval (F.on w v) = F.eval w :=
  apply_override_self F.dependsOn_eval w v

theorem eval_on_other {F G : Formula τ} (h : F.vars.Disjoint G.vars) (w v : τ → Bool) :
    G.eval (F.on w v) = G.eval v :=
  apply_override_other G.dependsOn_eval (Set.disjoint_left.mpr fun _ hx hx' => h hx hx') w v

section

variable [DecidableEq τ]

theorem eval_update {F : Formula τ} {x : τ} (hx : x ∉ F.vars) (v : τ → Bool) (b : Bool) :
    F.eval (Function.update v x b) = F.eval v := by
  refine F.dependsOn_eval fun y hy => Function.update_of_ne ?_ b v
  rintro rfl
  exact hx hy

theorem update_on {F : Formula τ} {x : τ} (hx : x ∈ F.vars) (w v : τ → Bool) (b : Bool) :
    Function.update (F.on w v) x b = F.on (Function.update w x b) v := by
  ext y
  by_cases hxy : y = x
  · subst hxy
    simp [on, override, hx]
  · by_cases hy : y ∈ F.vars <;> simp [on, override, hxy, hy]

/-- The function needs the variable. -/
def Needs (f : BoolFun τ) (v : τ → Bool) (x : τ) : Prop :=
  f v = true ∧ f (Function.update v x false) = false

/-- A function needs two variables at once. -/
def Together (f : BoolFun τ) (x y : τ) : Prop := ∃ v, Needs f v x ∧ Needs f v y

variable {l r : Formula τ} {conj : Bool}

/-- What the left side needs, the formula needs once the right side leaves the choice to it. -/
theorem needs_left (h : l.vars.Disjoint r.vars) {v : τ → Bool} {x : τ} (hx : x ∈ l.vars) :
    Needs (fun v => (node conj l r).eval v) (l.on v fun _ => conj) x ↔
      Needs (fun v => l.eval v) v x := by
  simp only [Needs, update_on hx, eval, eval_on, eval_on_other h, eval_const]
  cases conj <;> simp

theorem needs_of_needs_node (h : l.vars.Disjoint r.vars) {v : τ → Bool} {x : τ}
    (hx : x ∈ l.vars) (hneeds : Needs (fun v => (node conj l r).eval v) v x) :
    Needs (fun v => l.eval v) v x ∧ r.eval v = conj := by
  simp only [Needs, eval, eval_update (fun hr => h hx hr)] at hneeds ⊢
  cases conj with
  | true =>
      simp only [if_true, Bool.and_eq_true, Bool.and_eq_false_iff] at hneeds
      obtain ⟨⟨hl, hr⟩, hfalse | hfalse⟩ := hneeds
      · exact ⟨⟨hl, hfalse⟩, hr⟩
      · rw [hr] at hfalse
        cases hfalse
  | false =>
      simp only [Bool.false_eq_true, if_false, Bool.or_eq_true, Bool.or_eq_false_iff] at hneeds
      obtain ⟨hl | hr, hfalse, hr'⟩ := hneeds
      · exact ⟨⟨hl, hfalse⟩, hr'⟩
      · rw [hr] at hr'
        cases hr'

theorem exists_needs (F : Formula τ) (hnd : F.vars.Nodup) : ∀ x ∈ F.vars,
    ∃ v, Needs (fun v => F.eval v) v x := by
  induction F with
  | var x =>
      intro y hy
      obtain rfl : y = x := by simpa [vars] using hy
      exact ⟨fun _ => true, rfl, by simp [eval]⟩
  | node conj l r hl hr =>
      obtain ⟨hnl, hnr, hdisj⟩ := List.nodup_append'.mp hnd
      intro x hx
      rcases List.mem_append.mp hx with hx | hx
      · obtain ⟨v, hv⟩ := hl hnl x hx
        exact ⟨_, (needs_left hdisj hx).mpr hv⟩
      · obtain ⟨v, hv⟩ := hr hnr x hx
        refine ⟨r.on v fun _ => conj, ?_⟩
        simp only [eval_comm conj l r]
        exact (needs_left (List.disjoint_symm hdisj) hx).mpr hv

/-- Two variables of the left side. -/
theorem together_left (h : l.vars.Disjoint r.vars) {x y : τ} (hx : x ∈ l.vars)
    (hy : y ∈ l.vars) :
    Together (fun v => (node conj l r).eval v) x y ↔ Together (fun v => l.eval v) x y := by
  constructor
  · rintro ⟨v, hvx, hvy⟩
    exact ⟨v, (needs_of_needs_node h hx hvx).1, (needs_of_needs_node h hy hvy).1⟩
  · rintro ⟨v, hvx, hvy⟩
    exact ⟨_, (needs_left h hx).mpr hvx, (needs_left h hy).mpr hvy⟩

/-- A variable of either side. -/
theorem together_across (hl : l.vars.Nodup) (hr : r.vars.Nodup) (h : l.vars.Disjoint r.vars)
    {x y : τ} (hx : x ∈ l.vars) (hy : y ∈ r.vars) :
    Together (fun v => (node conj l r).eval v) x y ↔ conj = true := by
  constructor
  · rintro ⟨v, hvx, hvy⟩
    obtain ⟨-, hreval⟩ := needs_of_needs_node h hx hvx
    simp only [eval_comm conj l r] at hvy
    obtain ⟨hneeds, -⟩ := needs_of_needs_node (List.disjoint_symm h) hy hvy
    exact hreval.symm.trans hneeds.1
  · rintro rfl
    obtain ⟨v, hv⟩ := l.exists_needs hl x hx
    obtain ⟨w, hw⟩ := r.exists_needs hr y hy
    have hyl : y ∉ l.vars := fun hyl => h hyl hy
    refine ⟨l.on v w, ⟨?_, ?_⟩, ?_, ?_⟩
    · simp [eval, eval_on, eval_on_other h, hv.1, hw.1]
    · simp [eval, update_on hx, eval_on, hv.2]
    · simp [eval, eval_on, eval_on_other h, hv.1, hw.1]
    · have hother : r.eval (Function.update (l.on v w) y false) =
          r.eval (Function.update w y false) := by
        refine r.dependsOn_eval fun z hz => ?_
        have hzl : z ∉ l.vars := fun hzl => h hzl hz
        by_cases hzy : z = y
        · subst hzy
          simp
        · simp [on, override, hzy, hzl]
      simp [eval, hother, hw.2]

theorem together_comm {f : BoolFun τ} {x y : τ} : Together f x y ↔ Together f y x :=
  exists_congr fun _ => and_comm

/-- **The function of a formula says which of its variables are joined.** -/
theorem together_iff (F : Formula τ) (hnd : F.vars.Nodup) {x y : τ} (hx : x ∈ F.vars)
    (hy : y ∈ F.vars) (hne : x ≠ y) : Together (fun v => F.eval v) x y ↔ F.Joined x y := by
  induction F with
  | var z =>
      refine absurd ?_ hne
      rw [show x = z by simpa [vars] using hx, show y = z by simpa [vars] using hy]
  | node conj l r hl hr =>
      obtain ⟨hnl, hnr, hdisj⟩ := List.nodup_append'.mp hnd
      rcases List.mem_append.mp hx with hx | hx <;> rcases List.mem_append.mp hy with hy | hy
      · rw [together_left hdisj hx hy, hl hnl hx hy, joined_left hdisj hx hy]
      · rw [together_across hnl hnr hdisj hx hy, joined_across hdisj hx hy]
      · rw [together_comm, together_across hnl hnr hdisj hy hx, joined_comm,
          joined_across hdisj hy hx]
      · simp only [eval_comm conj l r]
        rw [together_left (List.disjoint_symm hdisj) hx hy, hr hnr hx hy,
          joined_right hdisj hx hy]

/-- Formulas that are equal as functions join the same variables. -/
theorem joined_iff_of_eval_eq {F G : Formula τ} (hvars : F.vars = G.vars) (hnd : F.vars.Nodup)
    (heq : ∀ v, F.eval v = G.eval v) {x y : τ} (hx : x ∈ F.vars) (hy : y ∈ F.vars) :
    F.Joined x y ↔ G.Joined x y := by
  by_cases hne : x = y
  · subst hne
    exact iff_of_false (F.not_joined_self hnd) (G.not_joined_self (hvars ▸ hnd))
  rw [← F.together_iff hnd hx hy hne, ← G.together_iff (hvars ▸ hnd) (hvars ▸ hx) (hvars ▸ hy) hne]
  simp only [heq]

end

section

variable {l r : Formula τ} {conj : Bool}

/-! ## Parts of a formula -/

/-- A formula joins the variables of another one as that does. -/
structure Within (F G : Formula τ) : Prop where
  vars : ∀ x ∈ F.vars, x ∈ G.vars
  joined : ∀ x ∈ F.vars, ∀ y ∈ F.vars, (G.Joined x y ↔ F.Joined x y)

theorem Within.refl (F : Formula τ) : F.Within F := ⟨fun _ h => h, fun _ _ _ _ => Iff.rfl⟩

theorem Within.trans {F G H : Formula τ} (h : F.Within G) (h' : G.Within H) : F.Within H :=
  ⟨fun x hx => h'.vars x (h.vars x hx), fun x hx y hy =>
    (h'.joined x (h.vars x hx) y (h.vars y hy)).trans (h.joined x hx y hy)⟩

theorem within_left (h : (node conj l r).vars.Nodup) : l.Within (node conj l r) :=
  ⟨fun _ hx => List.mem_append_left _ hx, fun _ hx _ hy => joined_left (nodup_node.mp h).2.2 hx hy⟩

theorem within_right (h : (node conj l r).vars.Nodup) : r.Within (node conj l r) :=
  ⟨fun _ hx => List.mem_append_right _ hx,
    fun _ hx _ hy => joined_right (nodup_node.mp h).2.2 hx hy⟩

theorem Within.node {l' r' : Formula τ} (hl : l.Within l') (hr : r.Within r')
    (h : (node conj l' r').vars.Nodup) : (node conj l r).Within (node conj l' r') := by
  have hdisj' := (nodup_node.mp h).2.2
  have hdisj : l.vars.Disjoint r.vars := fun x hx hx' => hdisj' (hl.vars x hx) (hr.vars x hx')
  constructor
  · intro x hx
    rcases List.mem_append.mp hx with hx | hx
    · exact List.mem_append_left _ (hl.vars x hx)
    · exact List.mem_append_right _ (hr.vars x hx)
  · intro x hx y hy
    rcases List.mem_append.mp hx with hx | hx <;> rcases List.mem_append.mp hy with hy | hy
    · rw [joined_left hdisj' (hl.vars x hx) (hl.vars y hy), joined_left hdisj hx hy,
        hl.joined x hx y hy]
    · rw [joined_across hdisj' (hl.vars x hx) (hr.vars y hy), joined_across hdisj hx hy]
    · rw [joined_comm, joined_across hdisj' (hl.vars y hy) (hr.vars x hx), joined_comm,
        joined_across hdisj hy hx]
    · rw [joined_right hdisj' (hr.vars x hx) (hr.vars y hy), joined_right hdisj hx hy,
        hr.joined x hx y hy]

/-! ## The operators between the variables -/

/-- The variables from left to right, each with the operator before it; `before` is the one
before the first of them. -/
def spine : Formula τ → (before : Bool) → List (Bool × τ)
  | .var x, before => [(before, x)]
  | .node conj l r, before => l.spine before ++ r.spine conj

theorem vars_eq_spine (F : Formula τ) (before : Bool) :
    F.vars = (F.spine before).map Prod.snd := by
  induction F generalizing before with
  | var x => rfl
  | node conj l r hl hr => rw [vars, spine, List.map_append, ← hl, ← hr]

theorem head_spine (F : Formula τ) (before : Bool) :
    ∃ x rest, x ∈ F.vars ∧ F.spine before = (before, x) :: rest := by
  induction F generalizing before with
  | var x => exact ⟨x, [], by simp [vars], rfl⟩
  | node conj l r hl hr =>
      obtain ⟨x, rest, hx, h⟩ := hl before
      exact ⟨x, rest ++ r.spine conj, List.mem_append_left _ hx, by rw [spine, h]; rfl⟩

/-- The operator between two neighbours says whether they are joined. -/
theorem isChain_spine (F : Formula τ) (hnd : F.vars.Nodup) (before : Bool) :
    (F.spine before).IsChain fun a b => F.Joined a.2 b.2 ↔ b.1 = true := by
  induction F generalizing before with
  | var x => exact List.isChain_singleton _
  | node conj l r hl hr =>
      obtain ⟨hnl, hnr, hdisj⟩ := nodup_node.mp hnd
      have hmem : ∀ {F : Formula τ} {b a}, a ∈ F.spine b → a.2 ∈ F.vars := by
        intro F b a ha
        rw [F.vars_eq_spine b]
        exact List.mem_map_of_mem ha
      rw [spine, List.isChain_append]
      refine ⟨(hl hnl before).imp_of_mem_imp fun a b ha hb hab => ?_,
        (hr hnr conj).imp_of_mem_imp fun a b ha hb hab => ?_, ?_⟩
      · rwa [joined_left hdisj (hmem ha) (hmem hb)]
      · rwa [joined_right hdisj (hmem ha) (hmem hb)]
      · intro a ha b hb
        obtain ⟨y, rest, hy, hspine⟩ := r.head_spine conj
        rw [hspine] at hb
        cases hb
        exact joined_across hdisj (hmem (List.mem_of_getLast? ha)) hy

theorem eq_of_isChain {J : τ → τ → Prop} {s t : List (Bool × τ)} {b : Bool} {x : τ}
    (hvars : s.map Prod.snd = t.map Prod.snd)
    (hs : ((b, x) :: s).IsChain fun a b => J a.2 b.2 ↔ b.1 = true)
    (ht : ((b, x) :: t).IsChain fun a b => J a.2 b.2 ↔ b.1 = true) : s = t := by
  induction s generalizing t b x with
  | nil =>
      rcases t with _ | ⟨c, t⟩
      · rfl
      · cases hvars
  | cons a s ih =>
      rcases t with _ | ⟨c, t⟩
      · cases hvars
      · obtain ⟨a₁, a₂⟩ := a
        obtain ⟨c₁, c₂⟩ := c
        simp only [List.map_cons, List.cons.injEq] at hvars
        obtain ⟨rfl, hvars⟩ := hvars
        obtain ⟨hs₁, hs⟩ := List.isChain_cons_cons.mp hs
        obtain ⟨ht₁, ht⟩ := List.isChain_cons_cons.mp ht
        obtain rfl : a₁ = c₁ := Bool.eq_iff_iff.mpr (hs₁.symm.trans ht₁)
        rw [ih hvars hs ht]

/-- **Formulas that join the same variables have the same operators between them.** -/
theorem spine_eq_of_joined {F G : Formula τ} (hvars : F.vars = G.vars) (hnd : F.vars.Nodup)
    (h : ∀ x ∈ F.vars, ∀ y ∈ F.vars, (F.Joined x y ↔ G.Joined x y)) (before : Bool) :
    F.spine before = G.spine before := by
  obtain ⟨x, s, -, hF⟩ := F.head_spine before
  obtain ⟨y, t, -, hG⟩ := G.head_spine before
  have hmap : (F.spine before).map Prod.snd = (G.spine before).map Prod.snd := by
    rw [← F.vars_eq_spine, ← G.vars_eq_spine, hvars]
  have hchainF := F.isChain_spine hnd before
  have hchainG : (G.spine before).IsChain fun a b => F.Joined a.2 b.2 ↔ b.1 = true := by
    refine (G.isChain_spine (hvars ▸ hnd) before).imp_of_mem_imp fun a b ha hb hab => ?_
    have hmem : ∀ {a}, a ∈ G.spine before → a.2 ∈ F.vars := fun ha => by
      rw [hvars, G.vars_eq_spine before]
      exact List.mem_map_of_mem ha
    rwa [h _ (hmem ha) _ (hmem hb)]
  rw [hF] at hmap hchainF ⊢
  rw [hG] at hmap hchainG ⊢
  simp only [List.map_cons, List.cons.injEq] at hmap
  obtain ⟨rfl, hmap⟩ := hmap
  rw [eq_of_isChain hmap hchainF hchainG]

end

end Formula

end Xenon.Foundation

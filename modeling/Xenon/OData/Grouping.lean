import Xenon.OData.Precedence

/-!
# Only these expressions

An expression whose comparisons are all different is a read-once formula, by the rules of
OData and as the visitor reads it. If the two are equal as functions then the visitor has the
operators of the expression between the same comparisons, so no `or` has sides of which one is
negative, and the operators bring the same comparisons together, so the expression is grouped
as the visitor groups it.
-/

namespace Xenon.OData

open Xenon.Foundation

/-! ## Formulas -/

/-- The formula of a tree. -/
def Tree.formula : Tree → Formula Comparison
  | .leaf c => .var c
  | .node op l r => .node (op = .and) l.formula r.formula

/-- All comparisons of a tree are with `ne`. -/
def Tree.negative : Tree → Bool
  | .leaf c => c.verb = .ne
  | .node _ l r => l.negative && r.negative

/-- The formula of the query of a tree. -/
def Tree.effective : Tree → Formula Comparison
  | .leaf c => .var c
  | .node op l r => .node (op = .and || l.negative ≠ r.negative) l.effective r.effective

theorem Tree.vars_formula (T : Tree) : T.formula.vars = T.comparisons := by
  induction T with
  | leaf c => rfl
  | node op l r hl hr => rw [Tree.formula, Formula.vars, hl, hr, Tree.comparisons]

theorem Tree.vars_effective (T : Tree) : T.effective.vars = T.comparisons := by
  induction T with
  | leaf c => rfl
  | node op l r hl hr => rw [Tree.effective, Formula.vars, hl, hr, Tree.comparisons]

theorem Tree.signed_eq (v : Comparison → Bool) (T : Tree) :
    T.signed v = ⟨T.effective.eval v, T.negative⟩ := by
  induction T with
  | leaf c => rfl
  | node op l r hl hr =>
      show Signed.join op (l.signed v) (r.signed v) = _
      rw [hl, hr]
      cases op with
      | and => simp [Signed.join, Tree.effective, Formula.eval, Tree.negative]
      | or =>
          by_cases hneg : l.negative = r.negative
          · simp [Signed.join, Tree.effective, Formula.eval, Tree.negative, hneg]
          · simp [Signed.join, Tree.effective, Formula.eval, Tree.negative, hneg,
              and_eq_false_of_ne hneg]

/-- An operand after what is joined to it by `and`. -/
def after (acc : Option (Formula Comparison)) (F : Formula Comparison) : Formula Comparison :=
  match acc with
  | none => F
  | some A => .node true A F

mutual

/-- The formula by the rules of OData. -/
def Primary.parsed : Primary → Formula Comparison
  | .comparison c => .var c
  | .paren e => e.parsedFrom none

def Expr.parsedFrom : Expr → (acc : Option (Formula Comparison)) → Formula Comparison
  | .one p, acc => after acc p.parsed
  | .chain p .and e, acc => e.parsedFrom (some (after acc p.parsed))
  | .chain p .or e, acc => .node false (after acc p.parsed) (e.parsedFrom none)

end

def accHolds (v : Comparison → Bool) (acc : Option (Formula Comparison)) : Bool :=
  acc.all (Formula.eval v)

theorem eval_after (v : Comparison → Bool) (acc : Option (Formula Comparison))
    (F : Formula Comparison) : (after acc F).eval v = (accHolds v acc && F.eval v) := by
  cases acc <;> simp [after, accHolds, Formula.eval]

mutual

theorem Primary.eval_parsed (v : Comparison → Bool) : ∀ p : Primary,
    p.parsed.eval v = p.holds v
  | .comparison _ => rfl
  | .paren e => e.eval_parsedFrom v none

theorem Expr.eval_parsedFrom (v : Comparison → Bool) : ∀ (e : Expr)
    (acc : Option (Formula Comparison)),
      (e.parsedFrom acc).eval v = e.holdsFrom v (accHolds v acc)
  | .one p, acc => by rw [Expr.parsedFrom, eval_after, p.eval_parsed, Expr.holdsFrom]
  | .chain p .and e, acc => by
      rw [Expr.parsedFrom, e.eval_parsedFrom, Expr.holdsFrom, accHolds, Option.all_some,
        eval_after, p.eval_parsed]
  | .chain p .or e, acc => by
      rw [Expr.parsedFrom, Formula.eval, eval_after, p.eval_parsed, e.eval_parsedFrom,
        Expr.holdsFrom]
      rfl

end

def accVars (acc : Option (Formula Comparison)) : List Comparison :=
  (acc.map Formula.vars).getD []

theorem vars_after (acc : Option (Formula Comparison)) (F : Formula Comparison) :
    (after acc F).vars = accVars acc ++ F.vars := by
  cases acc <;> simp [after, accVars, Formula.vars]

mutual

theorem Primary.vars_parsed : ∀ p : Primary, p.parsed.vars = p.comparisons
  | .comparison _ => rfl
  | .paren e => e.vars_parsedFrom none

theorem Expr.vars_parsedFrom : ∀ (e : Expr) (acc : Option (Formula Comparison)),
    (e.parsedFrom acc).vars = accVars acc ++ e.comparisons
  | .one p, acc => by rw [Expr.parsedFrom, vars_after, p.vars_parsed, Expr.comparisons]
  | .chain p .and e, acc => by
      rw [Expr.parsedFrom, e.vars_parsedFrom, accVars, Option.map_some, Option.getD_some,
        vars_after, p.vars_parsed, Expr.comparisons, List.append_assoc]
  | .chain p .or e, acc => by
      rw [Expr.parsedFrom, Formula.vars, vars_after, p.vars_parsed, e.vars_parsedFrom,
        Expr.comparisons, List.append_assoc]
      rfl

end

/-! ## The operators between the comparisons -/

/-- Spines are joined one after the other. -/
def joinSpine (op : Connective) (l r : Bool → List (Bool × Comparison)) (before : Bool) :
    List (Bool × Comparison) := l before ++ r (op = .and)

theorem spine_formula (T : Tree) :
    T.formula.spine = T.eval (fun c before => [(before, c)]) joinSpine := by
  induction T with
  | leaf c => rfl
  | node op l r hl hr =>
      rw [Tree.eval, ← hl, ← hr]
      rfl

/-- The visitor does not change the operators between the comparisons. -/
theorem Expr.spine_visited (e : Expr) : e.visited.formula.spine = e.nested.formula.spine := by
  rw [spine_formula, spine_formula]
  have hout : ∀ outer inner, TakesOut joinSpine outer inner := by
    intro outer inner a b c
    funext before
    simp [joinSpine]
  exact e.eval_visited (fun outer inner _ => hout outer inner)
    (e.allows_of_forall (R := fun _ _ => True) fun _ _ => trivial)

theorem spine_after (acc : Option (Formula Comparison)) (F : Formula Comparison)
    (before : Bool) : (after acc F).spine before =
      (acc.map fun A => A.spine before).getD [] ++ F.spine (acc.isSome || before) := by
  cases acc <;> simp [after, Formula.spine]

mutual

theorem Primary.spine_parsed : ∀ p : Primary, p.parsed.spine = p.nested.formula.spine
  | .comparison _ => rfl
  | .paren e => by
      funext before
      exact e.spine_parsedFrom none before

/-- Nor do the rules of OData. -/
theorem Expr.spine_parsedFrom : ∀ (e : Expr) (acc : Option (Formula Comparison)) (before : Bool),
    (e.parsedFrom acc).spine before = (acc.map fun A => A.spine before).getD [] ++
      e.nested.formula.spine (acc.isSome || before)
  | .one p, acc, before => by
      rw [Expr.parsedFrom, spine_after, p.spine_parsed]
      rfl
  | .chain p .and e, acc, before => by
      rw [Expr.parsedFrom, e.spine_parsedFrom]
      simp only [Option.map_some, Option.getD_some, spine_after, p.spine_parsed,
        Option.isSome_some, Bool.true_or, List.append_assoc]
      rfl
  | .chain p .or e, acc, before => by
      rw [Expr.parsedFrom, Formula.spine, spine_after, p.spine_parsed, e.spine_parsedFrom,
        List.append_assoc]
      rfl

end

/-- A tree with the operators of its query between its comparisons is its query. -/
theorem Tree.effective_eq_formula (T : Tree) : ∀ {before before' : Bool},
    T.effective.spine before = T.formula.spine before' →
      before = before' ∧ T.effective = T.formula := by
  induction T with
  | leaf c =>
      intro before before' h
      exact ⟨by simpa [Tree.effective, Tree.formula, Formula.spine] using h, rfl⟩
  | node op l r hl hr =>
      intro before before' h
      have hlength : (l.effective.spine before).length = (l.formula.spine before').length := by
        have hvars := congrArg List.length (l.vars_effective.trans l.vars_formula.symm)
        rwa [l.effective.vars_eq_spine before, l.formula.vars_eq_spine before',
          List.length_map, List.length_map] at hvars
      obtain ⟨hspine, hspine'⟩ := List.append_inj h hlength
      obtain ⟨hbefore, hl⟩ := hl hspine
      obtain ⟨hop, hr⟩ := hr hspine'
      exact ⟨hbefore, by rw [Tree.effective, Tree.formula, hop, hl, hr]⟩

/-! ## Which comparisons are brought together -/

theorem comparisons_ne_nil (T : Tree) : ∃ c, c ∈ T.comparisons := by
  induction T with
  | leaf c => exact ⟨c, by simp [Tree.comparisons]⟩
  | node op l r hl _ =>
      obtain ⟨c, hc⟩ := hl
      exact ⟨c, List.mem_append_left _ hc⟩

theorem nodup_of_settle {pending : List Pending} {T : Tree}
    (h : (settle pending T).comparisons.Nodup) : T.formula.vars.Nodup := by
  rw [comparisons_settle] at h
  rw [T.vars_formula]
  exact (List.nodup_append'.mp h).2.1

/-- A tree that is put under operators is a part of what they make. -/
theorem within_settle (pending : List Pending) {T : Tree}
    (hnd : (settle pending T).comparisons.Nodup) :
    T.formula.Within (settle pending T).formula := by
  induction pending generalizing T with
  | nil => exact .refl _
  | cons f pending ih =>
      cases f with
      | paren => exact ih hnd
      | operand left op =>
          have hnd : (settle pending (.node op left T)).comparisons.Nodup := hnd
          exact (Formula.within_right (nodup_of_settle hnd)).trans (ih hnd)

/-- A part stays a part under operators. -/
theorem within_settle_settle (pending : List Pending) {T U : Tree}
    (hTU : T.formula.Within U.formula) (hnd : (settle pending U).comparisons.Nodup) :
    (settle pending T).formula.Within (settle pending U).formula := by
  induction pending generalizing T U with
  | nil => exact hTU
  | cons f pending ih =>
      cases f with
      | paren => exact ih hTU hnd
      | operand left op =>
          refine ih (T := .node op left T) (U := .node op left U) ?_ hnd
          have hnd : (settle pending (.node op left U)).comparisons.Nodup := hnd
          exact Formula.Within.node (.refl _) hTU (nodup_of_settle hnd)

/-! Parts of an expression are parts of its formula. -/

theorem within_after {A B F : Formula Comparison} (h : A.Within B)
    (hnd : (after (some B) F).vars.Nodup) : (after (some A) F).Within (after (some B) F) :=
  h.node (.refl _) hnd

/-- What stands before an expression can be made longer. -/
theorem Expr.within_parsedFrom : ∀ (e : Expr) {A B : Formula Comparison}, A.Within B →
    (e.parsedFrom (some B)).vars.Nodup → (e.parsedFrom (some A)).Within (e.parsedFrom (some B))
  | .one p, A, B, h, hnd => within_after h hnd
  | .chain p .and e, A, B, h, hnd => by
      refine e.within_parsedFrom (within_after h ?_) hnd
      rw [Expr.parsedFrom, e.vars_parsedFrom] at hnd
      exact (List.nodup_append'.mp hnd).1
  | .chain p .or e, A, B, h, hnd =>
      (within_after h (Formula.nodup_node.mp hnd).1).node (.refl _) hnd

/-- What stands before an expression is a part of the whole. -/
theorem Expr.within_parsedFrom_acc : ∀ (e : Expr) {A : Formula Comparison},
    (e.parsedFrom (some A)).vars.Nodup → A.Within (e.parsedFrom (some A))
  | .one p, A, hnd => Formula.within_left hnd
  | .chain p .and e, A, hnd => by
      refine (Formula.within_left ?_).trans (e.within_parsedFrom_acc hnd)
      rw [Expr.parsedFrom, e.vars_parsedFrom] at hnd
      exact (List.nodup_append'.mp hnd).1
  | .chain p .or e, A, hnd =>
      (Formula.within_left (Formula.nodup_node.mp hnd).1).trans (Formula.within_left hnd)

/-- So is the expression. -/
theorem Expr.within_parsedFrom_none (e : Expr) {A : Formula Comparison}
    (hnd : (e.parsedFrom (some A)).vars.Nodup) :
    (e.parsedFrom none).Within (e.parsedFrom (some A)) := by
  match e with
  | .one p => exact Formula.within_right hnd
  | .chain p .and e =>
      refine e.within_parsedFrom (Formula.within_right ?_) hnd
      rw [Expr.parsedFrom, e.vars_parsedFrom] at hnd
      exact (List.nodup_append'.mp hnd).1
  | .chain p .or e =>
      exact (Formula.within_right (Formula.nodup_node.mp hnd).1).node (.refl _) hnd

/-- The first operand. -/
def Expr.first : Expr → Primary
  | .one p => p
  | .chain p _ _ => p

theorem Expr.first_subset (e : Expr) : e.first.comparisons ⊆ e.comparisons := by
  cases e with
  | one _ => exact fun _ h => h
  | chain _ _ _ => exact fun _ h => List.mem_append_left _ h

/-- `and` joins what stands before it to the operand after it. -/
theorem Expr.joined_first (e : Expr) {A : Formula Comparison}
    (hnd : (e.parsedFrom (some A)).vars.Nodup) {x y : Comparison} (hx : x ∈ A.vars)
    (hy : y ∈ e.first.comparisons) : (e.parsedFrom (some A)).Joined x y := by
  have hacross : ∀ {p : Primary}, (after (some A) p.parsed).vars.Nodup → y ∈ p.comparisons →
      (after (some A) p.parsed).Joined x y := by
    intro p hnd hy
    rw [← p.vars_parsed] at hy
    exact (Formula.joined_across (Formula.nodup_node.mp hnd).2.2 hx hy).mpr rfl
  have hmem : ∀ {p : Primary}, y ∈ p.comparisons → x ∈ (after (some A) p.parsed).vars ∧
      y ∈ (after (some A) p.parsed).vars := by
    intro p hy
    rw [← p.vars_parsed] at hy
    exact ⟨List.mem_append_left _ hx, List.mem_append_right _ hy⟩
  match e with
  | .one p => exact hacross hnd hy
  | .chain p .and e =>
      obtain ⟨hx', hy'⟩ := hmem hy
      have hwithin := e.within_parsedFrom_acc hnd
      rw [Expr.parsedFrom, e.vars_parsedFrom] at hnd
      exact (hwithin.joined x hx' y hy').mpr (hacross (List.nodup_append'.mp hnd).1 hy)
  | .chain p .or e =>
      obtain ⟨hx', hy'⟩ := hmem hy
      have hleft := Formula.nodup_node.mp hnd
      exact (Formula.joined_left hleft.2.2 hx' hy').mpr (hacross hleft.1 hy)

/-- An `or` keeps what stands before it from what comes after it. -/
theorem Expr.exists_not_joined : ∀ (e : Expr), e.connectives.all (· = .and) = false →
    ∃ y ∈ e.comparisons, ∀ A : Formula Comparison, (e.parsedFrom (some A)).vars.Nodup →
      ∀ x ∈ A.vars, ¬ (e.parsedFrom (some A)).Joined x y
  | .one p, h => by simp [Expr.connectives] at h
  | .chain p .and e, h => by
      obtain ⟨y, hy, hnot⟩ := e.exists_not_joined (by simpa [Expr.connectives] using h)
      refine ⟨y, List.mem_append_right _ hy, fun A hnd x hx => ?_⟩
      exact hnot _ hnd x (List.mem_append_left _ hx)
  | .chain p .or e, _ => by
      obtain ⟨y, hy⟩ := comparisons_ne_nil e.nested
      rw [e.comparisons_nested] at hy
      refine ⟨y, List.mem_append_right _ hy, fun A hnd x hx hjoined => ?_⟩
      have hy' : y ∈ (e.parsedFrom none).vars := by
        rw [e.vars_parsedFrom]
        exact hy
      have := (Formula.joined_across (Formula.nodup_node.mp hnd).2.2
        (List.mem_append_left _ hx) hy').mp hjoined
      cases this

/-! ## The expressions that the visitor groups rightly -/

/-- The visitor brings the same comparisons together as the rules of OData do. -/
def SameJoins (cs : List Comparison) (F G : Formula Comparison) : Prop :=
  ∀ x ∈ cs, ∀ y ∈ cs, (F.Joined x y ↔ G.Joined x y)

/-- On a part. -/
theorem SameJoins.part {cs cs' : List Comparison} {F G F' G' : Formula Comparison}
    (h : SameJoins cs F G) (hsub : cs' ⊆ cs) (hF : F'.Within F) (hG : G'.Within G)
    (hF' : F'.vars = cs') (hG' : G'.vars = cs') : SameJoins cs' F' G' := by
  intro x hx y hy
  rw [← hF.joined x (hF' ▸ hx) y (hF' ▸ hy), ← hG.joined x (hG' ▸ hx) y (hG' ▸ hy)]
  exact h x (hsub hx) y (hsub hy)

/-- The tree of a chain, under the operators that its first operand leaves. -/
theorem visited_parts (p : Primary) (op : Connective) (e : Expr)
    (hnd : (Expr.chain p op e).comparisons.Nodup) :
    (settle p.walk.1 p.walk.2).formula.Within (Expr.chain p op e).visited.formula ∧
      e.visited.formula.Within (Expr.chain p op e).visited.formula := by
  rw [← Expr.comparisons_visited, visited_chain] at hnd
  have hnode : (Tree.node op p.walk.2 e.visited).formula.vars.Nodup := nodup_of_settle hnd
  rw [visited_chain]
  exact ⟨within_settle_settle _ (Formula.within_left hnode) hnd,
    (Formula.within_right hnode).trans (within_settle _ hnd)⟩

theorem parsed_parts (p : Primary) (op : Connective) (e : Expr)
    (hnd : (Expr.chain p op e).comparisons.Nodup) :
    p.parsed.Within ((Expr.chain p op e).parsedFrom none) ∧
      (e.parsedFrom none).Within ((Expr.chain p op e).parsedFrom none) := by
  have hnd : ((Expr.chain p op e).parsedFrom none).vars.Nodup := by
    rw [Expr.vars_parsedFrom]
    exact hnd
  cases op with
  | and => exact ⟨e.within_parsedFrom_acc hnd, e.within_parsedFrom_none hnd⟩
  | or => exact ⟨Formula.within_left hnd, Formula.within_right hnd⟩

/-- The operator between an operand and the next one, by the rules of OData. -/
theorem parsed_joined_first {p : Primary} {op : Connective} {e : Expr}
    (hnd : (Expr.chain p op e).comparisons.Nodup) {x y : Comparison} (hx : x ∈ p.comparisons)
    (hy : y ∈ e.first.comparisons) :
    ((Expr.chain p op e).parsedFrom none).Joined x y ↔ op = .and := by
  have hnd : ((Expr.chain p op e).parsedFrom none).vars.Nodup := by
    rw [Expr.vars_parsedFrom]
    exact hnd
  rw [← p.vars_parsed] at hx
  cases op with
  | and => exact iff_of_true (e.joined_first hnd hx hy) rfl
  | or =>
      have hy : y ∈ (e.parsedFrom none).vars := by
        rw [e.vars_parsedFrom]
        exact e.first_subset hy
      exact (Formula.joined_across (Formula.nodup_node.mp hnd).2.2 hx hy).trans (by simp)

/-- Something on the stack, and what it waits for. -/
theorem settle_joined {pending : List Pending} {left T : Tree} {op : Connective}
    (hnd : (settle pending (.node op left T)).comparisons.Nodup) {x y : Comparison}
    (hx : x ∈ left.comparisons) (hy : y ∈ T.comparisons) :
    (settle pending (.node op left T)).formula.Joined x y ↔ op = .and := by
  have hnode := nodup_of_settle hnd
  rw [← left.vars_formula] at hx
  rw [← T.vars_formula] at hy
  rw [(within_settle pending hnd).joined x (List.mem_append_left _ hx) y
    (List.mem_append_right _ hy)]
  exact (Formula.joined_across (Formula.nodup_node.mp hnode).2.2 hx hy).trans (by simp)

section

variable {p : Primary} {op : Connective} {e : Expr}

theorem exists_first (e : Expr) : ∃ y, y ∈ e.first.comparisons := by
  obtain ⟨y, hy⟩ := comparisons_ne_nil e.first.nested
  exact ⟨y, e.first.comparisons_nested ▸ hy⟩

theorem mem_of_mem_walk {c : Comparison} (hc : c ∈ p.walk.2.comparisons) : c ∈ p.comparisons := by
  rw [← p.comparisons_walk]
  exact List.mem_append_right _ hc

/-- An operator that an operand leaves unended takes what follows the operand, so it is the
next operator. -/
theorem unended_eq_of_sameJoins (hnd : (Expr.chain p op e).comparisons.Nodup)
    (h : SameJoins (Expr.chain p op e).comparisons (Expr.chain p op e).visited.formula
      ((Expr.chain p op e).parsedFrom none))
    {outer : Connective} (houter : some outer ∈ p.unended) : outer = op := by
  rw [← p.kind_walk] at houter
  obtain ⟨f, hf, hkind⟩ := List.mem_map.mp houter
  obtain ⟨left, rfl⟩ : ∃ left, f = .operand left outer := by
    cases f with
    | paren => cases hkind
    | operand left op' =>
        cases hkind
        exact ⟨left, rfl⟩
  obtain ⟨F, G, hwalk⟩ := List.append_of_mem hf
  obtain ⟨x, hx⟩ := comparisons_ne_nil left
  obtain ⟨y, hy⟩ := exists_first e
  have hxp : x ∈ p.comparisons := by
    rw [← p.comparisons_walk, hwalk, pendingComparisons_append]
    simp [pendingComparisons, hx]
  have hye := e.first_subset hy
  have hsame := h x (List.mem_append_left _ hxp) y (List.mem_append_right _ hye)
  have hvisited : (Expr.chain p op e).visited =
      settle G (.node outer left (settle F (.node op p.walk.2 e.visited))) := by
    rw [visited_chain, hwalk, settle_append]
    rfl
  rw [parsed_joined_first hnd hxp hy] at hsame
  rw [← Expr.comparisons_visited, hvisited] at hnd
  have hyF : y ∈ (settle F (.node op p.walk.2 e.visited)).comparisons := by
    rw [comparisons_settle, Tree.comparisons, e.comparisons_visited]
    simp [hye]
  rw [hvisited, settle_joined hnd hx hyF] at hsame
  cases outer <;> cases op <;> simp_all

/-- After an `and` there is no `or`. -/
theorem connectives_of_sameJoins (hnd : (Expr.chain p .and e).comparisons.Nodup)
    (h : SameJoins (Expr.chain p .and e).comparisons (Expr.chain p .and e).visited.formula
      ((Expr.chain p .and e).parsedFrom none)) :
    e.connectives.all (· = .and) = true := by
  by_contra hnot
  obtain ⟨y, hy, hnot⟩ := e.exists_not_joined (Bool.not_eq_true _ ▸ hnot)
  obtain ⟨x, hx⟩ := comparisons_ne_nil p.walk.2
  have hxp := mem_of_mem_walk hx
  have hsame := h x (List.mem_append_left _ hxp) y (List.mem_append_right _ hy)
  have hparsed : ((Expr.chain p .and e).parsedFrom none).vars.Nodup := by
    rw [Expr.vars_parsedFrom]
    exact hnd
  rw [← Expr.comparisons_visited, visited_chain] at hnd
  rw [visited_chain, settle_joined hnd hx (by rwa [e.comparisons_visited])] at hsame
  exact hnot _ hparsed x (p.vars_parsed ▸ hxp) (hsame.mp rfl)

end

mutual

theorem Primary.grouped_of_sameJoins : ∀ p : Primary, p.comparisons.Nodup →
    SameJoins p.comparisons (settle p.walk.1 p.walk.2).formula p.parsed → p.grouped = true
  | .comparison _, _, _ => rfl
  | .paren e, hnd, h => by
      rw [Primary.walk, settle_close] at h
      exact e.grouped_of_sameJoins hnd h

/-- **An expression whose comparisons the visitor brings together as the rules of OData do is
grouped.** -/
theorem Expr.grouped_of_sameJoins : ∀ e : Expr, e.comparisons.Nodup →
    SameJoins e.comparisons e.visited.formula (e.parsedFrom none) → e.grouped = true
  | .one p, hnd, h => p.grouped_of_sameJoins hnd h
  | .chain p op e, hnd, h => by
      obtain ⟨hp, he⟩ := visited_parts p op e hnd
      obtain ⟨hp', he'⟩ := parsed_parts p op e hnd
      have hnodup := List.nodup_append'.mp hnd
      have hgp := p.grouped_of_sameJoins hnodup.1 (h.part (List.subset_append_left _ _) hp hp'
        (by rw [Tree.vars_formula, comparisons_settle, p.comparisons_walk]) p.vars_parsed)
      have hge := e.grouped_of_sameJoins hnodup.2.1 (h.part (List.subset_append_right _ _) he he'
        (by rw [Tree.vars_formula, e.comparisons_visited]) (e.vars_parsedFrom none))
      simp only [Expr.grouped, hgp, hge, Bool.true_and, Bool.and_eq_true, List.all_eq_true]
      constructor
      · rintro (_ | outer) ho
        · rfl
        · simp [unended_eq_of_sameJoins hnd h ho]
      · cases op with
        | or => rfl
        | and => simpa using connectives_of_sameJoins hnd h

end

/-! ## The visitor is right for no other expression -/

theorem Expr.negative_visited (e : Expr) : e.visited.negative = e.negative := by
  have h : ∀ T : Tree, T.negative = T.comparisons.all (fun c => c.verb = .ne) := by
    intro T
    induction T with
    | leaf c => simp [Tree.negative, Tree.comparisons]
    | node op l r hl hr => rw [Tree.negative, hl, hr, Tree.comparisons, List.all_append]
  have hnested : ∀ e : Expr, e.nested.negative = e.negative := by
    intro e
    have hsigned := (e.nested.signed_of_uniform fun _ => true).1
    rw [Tree.signed_eq, (e.summary_nested _).1] at hsigned
    exact hsigned
  rw [← hnested, h, h, e.comparisons_visited, e.comparisons_nested]

theorem Expr.holds_const (e : Expr) (b : Bool) : e.holds (fun _ => b) = b := by
  have h := e.eval_parsedFrom (fun _ => b) none
  rw [Formula.eval_const] at h
  exact h.symm

/-- What is found by the query of a tree that is not negative. -/
theorem Tree.matched_of_not_negative {T : Tree} (h : T.negative = false)
    (single v : Comparison → Bool) : T.matched single v = T.effective.eval v := by
  cases T with
  | leaf c => exact if_neg (of_decide_eq_false h)
  | node op l r =>
      rw [Tree.matched, Tree.signed_eq, h, Bool.not_false, Bool.true_and]

theorem Tree.summary_negative (v : Comparison → Bool) (T : Tree) :
    (T.summary v).negative = T.negative := by
  rw [← (T.signed_of_uniform v).1, T.signed_eq]

/-- If a tree is its query then the sides of every `or` are alike. -/
theorem Tree.uniform_of_effective (v : Comparison → Bool) {T : Tree}
    (h : T.effective = T.formula) : (T.summary v).uniform = true := by
  induction T with
  | leaf c => rfl
  | node op l r hl hr =>
      simp only [Tree.effective, Tree.formula, Formula.node.injEq] at h
      obtain ⟨hop, hleft, hright⟩ := h
      have hl := hl hleft
      have hr := hr hright
      have hnl := l.summary_negative v
      have hnr := r.summary_negative v
      simp only [Tree.summary] at hl hr hnl hnr
      cases op with
      | and => simp [Tree.summary, Tree.eval, Summary.join, hl, hr]
      | or =>
          have hneg : l.negative = r.negative := by simpa using hop
          simp [Tree.summary, Tree.eval, Summary.join, hl, hr, hnl, hnr, hneg]

/-- **Of expressions whose comparisons are all different, the query is right for these only**,
over all truth values of the comparisons. -/
theorem Expr.matched_iff (e : Expr) (hnd : e.comparisons.Nodup) (single : Comparison → Bool) :
    (∀ v, e.visited.matched single v = e.holds v) ↔
      e.grouped = true ∧ e.uniform = true ∧ e.negative = false := by
  constructor
  · intro h
    -- a negative expression is not found where it holds
    have hnegative : e.negative = false := by
      by_contra hneg
      rw [Bool.not_eq_false, ← e.negative_visited] at hneg
      have htrue := h fun _ => true
      rw [e.holds_const] at htrue
      cases hT : e.visited with
      | leaf c =>
          rw [hT] at hneg htrue
          rw [Tree.matched, if_pos (of_decide_eq_true hneg)] at htrue
          simp at htrue
      | node op l r =>
          rw [hT] at hneg htrue
          rw [Tree.matched, Tree.signed_eq, hneg] at htrue
          simp at htrue
    have heval : ∀ v, e.visited.effective.eval v = (e.parsedFrom none).eval v := by
      intro v
      rw [← Tree.matched_of_not_negative (e.negative_visited.trans hnegative) single v, h v,
        e.eval_parsedFrom]
      rfl
    have hvars : e.visited.effective.vars = e.comparisons := by
      rw [Tree.vars_effective, e.comparisons_visited]
    have hvars' : e.visited.effective.vars = (e.parsedFrom none).vars := by
      rw [hvars, e.vars_parsedFrom]
      rfl
    have hsame : SameJoins e.comparisons e.visited.effective (e.parsedFrom none) := by
      intro x hx y hy
      exact Formula.joined_iff_of_eval_eq hvars' (hvars ▸ hnd) heval (hvars ▸ hx) (hvars ▸ hy)
    have hspine : e.visited.effective.spine true = e.visited.formula.spine true := by
      rw [Formula.spine_eq_of_joined hvars' (hvars ▸ hnd) (hvars.symm ▸ hsame),
        e.spine_parsedFrom, e.spine_visited]
      rfl
    obtain ⟨-, heffective⟩ := e.visited.effective_eq_formula hspine
    have hgrouped : e.grouped = true :=
      e.grouped_of_sameJoins hnd (heffective ▸ hsame)
    refine ⟨hgrouped, ?_, hnegative⟩
    have hsummary : e.visited.summary (fun _ => true) = e.nested.summary fun _ => true :=
      e.eval_visited (fun _ op h => h ▸ Summary.takesOut op) (e.allows_of_grouped hgrouped)
    rw [← (e.summary_nested fun _ => true).2, ← hsummary]
    exact Tree.uniform_of_effective _ heffective
  · rintro ⟨hgrouped, huniform, hnegative⟩ v
    exact Expr.matched_eq_holds hgrouped huniform hnegative single v

end Xenon.OData

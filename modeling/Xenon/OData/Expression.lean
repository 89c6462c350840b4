import Xenon.OData.Walk

/-!
# Expressions

The grammar of a `$filter` and what the walk builds from an expression. After an expression
the stack of the walk holds the operators that wait for their right side (`Pending`), since a
closing paren ends only one of them.
-/

namespace Xenon.OData

open Xenon.QueryTask

/-- The verbs of comparisons. -/
inductive ComparisonVerb where
  | eq | ne | lt | le | gt | ge | any | all
deriving DecidableEq

def ComparisonVerb.toVerb : ComparisonVerb → BinaryVerb
  | .eq => .eq | .ne => .ne | .lt => .lt | .le => .le | .gt => .gt | .ge => .ge
  | .any => .any | .all => .all

/-- The binary operators. -/
inductive Connective where
  | and | or
deriving DecidableEq

def Connective.toVerb : Connective → BinaryVerb
  | .and => .and | .or => .or

/-- Property, verb and value. -/
structure Comparison where
  left : String
  verb : ComparisonVerb
  right : String
deriving DecidableEq

mutual

/-- An operand: a comparison, or an expression in parens. -/
inductive Primary where
  | comparison (c : Comparison)
  | paren (e : Expr)

/-- An expression: operands with operators between them. -/
inductive Expr where
  | one (p : Primary)
  | chain (p : Primary) (op : Connective) (e : Expr)

end

/-! ## Tokens and items -/

def Comparison.tokens (c : Comparison) : List ODataToken :=
  [⟨.simpleType, c.left⟩, ⟨.binaryComparison, c.verb.toVerb.operator⟩, ⟨.simpleType, c.right⟩]

def Comparison.item (c : Comparison) : Item := .comparison c.left c.verb.toVerb.operator c.right

mutual

def Primary.tokens : Primary → List ODataToken
  | .comparison c => c.tokens
  | .paren e => ⟨.openParen, "("⟩ :: (e.tokens ++ [⟨.closeParen, ")"⟩])

def Expr.tokens : Expr → List ODataToken
  | .one p => p.tokens
  | .chain p op e => p.tokens ++ ⟨.binaryOperator, op.toVerb.operator⟩ :: e.tokens

end

mutual

def Primary.items : Primary → List Item
  | .comparison c => [c.item]
  | .paren e => .openParen :: (e.items ++ [.closeParen])

def Expr.items : Expr → List Item
  | .one p => p.items
  | .chain p op e => p.items ++ .operator op.toVerb.operator :: e.items

end

mutual

/-- The comparisons, from left to right. -/
def Primary.comparisons : Primary → List Comparison
  | .comparison c => [c]
  | .paren e => e.comparisons

def Expr.comparisons : Expr → List Comparison
  | .one p => p.comparisons
  | .chain p _ e => p.comparisons ++ e.comparisons

end

mutual

theorem Primary.items_tokens : ∀ (p : Primary) (rest : List ODataToken),
    OData.items (p.tokens ++ rest) = p.items ++ OData.items rest
  | .comparison c, rest => by
      simp [Primary.tokens, Comparison.tokens, Primary.items, Comparison.item, OData.items]
  | .paren e, rest => by
      simp only [Primary.tokens, Primary.items, List.cons_append, List.append_assoc,
        List.nil_append]
      rw [items_openParen rfl, e.items_tokens, items_closeParen rfl]

theorem Expr.items_tokens : ∀ (e : Expr) (rest : List ODataToken),
    OData.items (e.tokens ++ rest) = e.items ++ OData.items rest
  | .one p, rest => p.items_tokens rest
  | .chain p op e, rest => by
      simp only [Expr.tokens, Expr.items, List.append_assoc, List.cons_append]
      rw [p.items_tokens, items_binaryOperator rfl, e.items_tokens]

end

theorem stringToVerb_operator (v : BinaryVerb) : stringToVerb v.operator = some v := by
  cases v <;> decide

/-! ## What the walk builds -/

/-- A tree of operators over comparisons. -/
inductive Tree where
  | leaf (c : Comparison)
  | node (op : Connective) (l r : Tree)

/-- The value of a tree, from values for comparisons and operators. -/
def Tree.eval {α : Type} (leaf : Comparison → α) (join : Connective → α → α → α) : Tree → α
  | .leaf c => leaf c
  | .node op l r => join op (l.eval leaf join) (r.eval leaf join)

/-- A frame of the stack as it is in the walk over an expression. -/
inductive Pending where
  | paren
  | operand (left : Tree) (op : Connective)

/-- The waiting calls return. -/
def settle : List Pending → Tree → Tree
  | [], v => v
  | .paren :: pending, v => settle pending v
  | .operand left op :: pending, v => settle pending (.node op left v)

/-- A closing paren, given what is on the stack above the opening one. -/
def close : List Pending × Tree → List Pending × Tree
  | ([], v) => ([], v)
  | (.paren :: pending, v) => (pending ++ [.paren], v)
  | (.operand left op :: pending, v) => (pending ++ [.paren], .node op left v)

mutual

/-- What an operand leaves on the stack, and its value so far. -/
def Primary.walk : Primary → List Pending × Tree
  | .comparison c => ([], .leaf c)
  | .paren e => close e.walk

def Expr.walk : Expr → List Pending × Tree
  | .one p => p.walk
  | .chain p op e => (e.walk.1 ++ .operand p.walk.2 op :: p.walk.1, e.walk.2)

end

/-- The tree that the walk builds for an expression. -/
def Expr.visited (e : Expr) : Tree := settle e.walk.1 e.walk.2

section

variable {α : Type} {V : Visits α} {leaf : Comparison → α} {join : Connective → α → α → α}

def Pending.frame (leaf : Comparison → α) (join : Connective → α → α → α) : Pending → Frame α
  | .paren => .paren
  | .operand left op => .operand (some (left.eval leaf join)) (some op.toVerb)

/-- The visitor returns for these comparisons, and for all operators. -/
structure Visits.Returns (V : Visits α) (leaf : Comparison → α)
    (join : Connective → α → α → α) (cs : List Comparison) : Prop where
  comparison : ∀ c ∈ cs, V.comparison c.left (some c.verb.toVerb) c.right = .ok (leaf c)
  operator : ∀ op l r, V.operator (some l) (some op.toVerb) (some r) = .ok (join op l r)

theorem Visits.Returns.mono {cs cs' : List Comparison} (h : V.Returns leaf join cs)
    (hsub : cs' ⊆ cs) : V.Returns leaf join cs' :=
  ⟨fun c hc => h.comparison c (hsub hc), h.operator⟩

/-- A closing paren pops what is on top. -/
theorem run_close (hjoin : ∀ op l r, V.operator (some l) (some op.toVerb) (some r) =
      .ok (join op l r)) (w : List Pending × Tree) (stack : List (Frame α)) (rest : List Item) :
    run V (w.1.map (Pending.frame leaf join) ++ .paren :: stack)
        (some (w.2.eval leaf join)) false (.closeParen :: rest) =
      run V ((close w).1.map (Pending.frame leaf join) ++ stack)
        (some ((close w).2.eval leaf join)) false rest := by
  obtain ⟨_ | ⟨_ | ⟨left, op⟩, pending⟩, v⟩ := w
  · simp [run, close]
  · simp [run, close, Pending.frame]
  · simp only [List.map_cons, Pending.frame, List.cons_append, run, hjoin, close, Tree.eval,
      List.map_append, List.map_nil, List.append_assoc, List.nil_append]
    rfl

mutual

/-- The machine over an operand. -/
theorem Primary.run_items : ∀ (p : Primary), V.Returns leaf join p.comparisons →
    ∀ (stack : List (Frame α)) (left : Option α) (entered : Bool) (rest : List Item),
      run V stack left entered (p.items ++ rest) =
        run V (p.walk.1.map (Pending.frame leaf join) ++ stack)
          (some (p.walk.2.eval leaf join)) false rest
  | .comparison c, h, stack, left, entered, rest => by
      have hc := h.comparison c (by simp [Primary.comparisons])
      simp only [Primary.items, Comparison.item, List.cons_append, List.nil_append, run,
        stringToVerb_operator, hc]
      rfl
  | .paren e, h, stack, left, entered, rest => by
      rw [Primary.walk, ← run_close h.operator]
      simp only [Primary.items, List.cons_append, List.append_assoc, List.nil_append, run]
      exact e.run_items h (.paren :: stack) left true (.closeParen :: rest)

theorem Expr.run_items : ∀ (e : Expr), V.Returns leaf join e.comparisons →
    ∀ (stack : List (Frame α)) (left : Option α) (entered : Bool) (rest : List Item),
      run V stack left entered (e.items ++ rest) =
        run V (e.walk.1.map (Pending.frame leaf join) ++ stack)
          (some (e.walk.2.eval leaf join)) false rest
  | .one p, h, stack, left, entered, rest => p.run_items h stack left entered rest
  | .chain p op e, h, stack, left, entered, rest => by
      have hp := h.mono (List.subset_append_left p.comparisons e.comparisons)
      have he := h.mono (List.subset_append_right p.comparisons e.comparisons)
      rw [Expr.items, List.append_assoc, p.run_items hp]
      simp only [List.cons_append, run, stringToVerb_operator]
      rw [e.run_items he]
      simp only [Expr.walk, List.map_append, List.map_cons, Pending.frame, List.append_assoc,
        List.cons_append]

end

theorem finish_settle (hjoin : ∀ op l r, V.operator (some l) (some op.toVerb) (some r) =
      .ok (join op l r)) (pending : List Pending) : ∀ v : Tree,
    finish V (pending.map (Pending.frame leaf join)) (some (v.eval leaf join)) =
      .ok (some ((settle pending v).eval leaf join)) := by
  induction pending with
  | nil => exact fun v => rfl
  | cons f pending ih =>
      intro v
      cases f with
      | paren => exact ih v
      | operand left op =>
          simp only [List.map_cons, Pending.frame, finish, hjoin, settle]
          exact ih (.node op left v)

/-- **The machine builds the tree of an expression.** -/
theorem Expr.run_visited (e : Expr) (h : V.Returns leaf join e.comparisons) :
    run V [] none true e.items = .ok (some (e.visited.eval leaf join)) := by
  have hrun := e.run_items h [] none true []
  rw [List.append_nil, List.append_nil] at hrun
  rw [hrun, Expr.visited, ← finish_settle h.operator]
  simp [run]

end

/-! ## The comparisons in the tree -/

def Tree.comparisons : Tree → List Comparison
  | .leaf c => [c]
  | .node _ l r => l.comparisons ++ r.comparisons

/-- The comparisons on the stack, from the bottom. -/
def pendingComparisons : List Pending → List Comparison
  | [] => []
  | .paren :: pending => pendingComparisons pending
  | .operand left _ :: pending => pendingComparisons pending ++ left.comparisons

theorem pendingComparisons_append (F G : List Pending) :
    pendingComparisons (F ++ G) = pendingComparisons G ++ pendingComparisons F := by
  induction F with
  | nil => simp [pendingComparisons]
  | cons f F ih => cases f <;> simp [pendingComparisons, ih]

theorem comparisons_settle (pending : List Pending) : ∀ v : Tree,
    (settle pending v).comparisons = pendingComparisons pending ++ v.comparisons := by
  induction pending with
  | nil => exact fun v => rfl
  | cons f pending ih =>
      intro v
      cases f with
      | paren => exact ih v
      | operand left op => simp [settle, ih, pendingComparisons, Tree.comparisons]

theorem comparisons_close (w : List Pending × Tree) :
    pendingComparisons (close w).1 ++ (close w).2.comparisons =
      pendingComparisons w.1 ++ w.2.comparisons := by
  obtain ⟨_ | ⟨_ | ⟨left, op⟩, pending⟩, v⟩ := w
  · rfl
  · simp [close, pendingComparisons, pendingComparisons_append]
  · simp [close, pendingComparisons, pendingComparisons_append, Tree.comparisons]

mutual

theorem Primary.comparisons_walk : ∀ p : Primary,
    pendingComparisons p.walk.1 ++ p.walk.2.comparisons = p.comparisons
  | .comparison c => rfl
  | .paren e => by rw [Primary.walk, comparisons_close, e.comparisons_walk, Primary.comparisons]

theorem Expr.comparisons_walk : ∀ e : Expr,
    pendingComparisons e.walk.1 ++ e.walk.2.comparisons = e.comparisons
  | .one p => p.comparisons_walk
  | .chain p op e => by
      simp only [Expr.walk, pendingComparisons_append, pendingComparisons, Expr.comparisons]
      rw [p.comparisons_walk, List.append_assoc, e.comparisons_walk]

end

/-- The tree of an expression has its comparisons, in their order. -/
theorem Expr.comparisons_visited (e : Expr) : e.visited.comparisons = e.comparisons := by
  rw [Expr.visited, comparisons_settle, e.comparisons_walk]

end Xenon.OData

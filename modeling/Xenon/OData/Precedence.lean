import Xenon.Foundation.ReadOnce
import Xenon.OData.Expression

/-!
# Operators and their operands

In a `$filter`, `and` binds tighter than `or`. The walk knows no precedence: an operator takes
all that follows it, up to the closing paren that ends it, and a closing paren ends only the
last operator or opening paren that none has ended. And where one side of an `or` is negative,
the query for it needs both sides. Here are the expressions for which all this makes no
difference.
-/

namespace Xenon.OData

open Xenon.Foundation

/-! ## The rules of OData -/

mutual

/-- The truth of an operand, from that of the comparisons. -/
def Primary.holds (v : Comparison → Bool) : Primary → Bool
  | .comparison c => v c
  | .paren e => e.holdsFrom v true

/-- The truth of an expression after `acc and`: an `or` ends a group of operands that are
joined by `and`. -/
def Expr.holdsFrom (v : Comparison → Bool) : Expr → (acc : Bool) → Bool
  | .one p, acc => acc && p.holds v
  | .chain p .and e, acc => e.holdsFrom v (acc && p.holds v)
  | .chain p .or e, acc => acc && p.holds v || e.holdsFrom v true

end

/-- The truth of an expression. -/
def Expr.holds (v : Comparison → Bool) (e : Expr) : Bool := e.holdsFrom v true

/-! ## What the query of a tree says -/

/-- What a query says of a document, and whether it must not occur. -/
structure Signed where
  holds : Bool
  negative : Bool
deriving DecidableEq

/-- The query for an operator: of an `or`, a negative side and one that is not are both
needed. -/
def Signed.join : Connective → Signed → Signed → Signed
  | .and, l, r => ⟨l.holds && r.holds, l.negative && r.negative⟩
  | .or, l, r =>
      if l.negative = r.negative then ⟨l.holds || r.holds, l.negative⟩
      else ⟨l.holds && r.holds, false⟩

def Tree.signed (v : Comparison → Bool) (T : Tree) : Signed :=
  T.eval (fun c => ⟨v c, c.verb = .ne⟩) Signed.join

/-- Whether a document is found by the query of a tree. As a whole query a negative one finds
nothing, except that a single term is searched for as if it were positive. -/
def Tree.matched (single : Comparison → Bool) (v : Comparison → Bool) : Tree → Bool
  | .leaf c => if c.verb = .ne then single c && !v c else v c
  | .node op l r =>
      !((Tree.node op l r).signed v).negative && ((Tree.node op l r).signed v).holds

/-! ## The expressions it is right for -/

mutual

/-- The operators, and as `none` the opening parens, that no closing paren has ended: one ends
the last of them. -/
def Primary.unended : Primary → List (Option Connective)
  | .comparison _ => []
  | .paren e => (e.unended ++ [none]).tail

def Expr.unended : Expr → List (Option Connective)
  | .one p => p.unended
  | .chain p op e => e.unended ++ some op :: p.unended

end

/-- The operators of an expression, without those in parens. -/
def Expr.connectives : Expr → List Connective
  | .one _ => []
  | .chain _ op e => op :: e.connectives

mutual

/-- No `or` comes after an `and`, and an operand leaves no other operator unended than the one
that follows it. -/
def Primary.grouped : Primary → Bool
  | .comparison _ => true
  | .paren e => e.grouped

def Expr.grouped : Expr → Bool
  | .one p => p.grouped
  | .chain p op e => p.grouped && e.grouped &&
      p.unended.all (fun o => o = none || o = some op) &&
        (op = .or || e.connectives.all (· = .and))

end

mutual

/-- All comparisons are with `ne`. -/
def Primary.negative : Primary → Bool
  | .comparison c => c.verb = .ne
  | .paren e => e.negative

def Expr.negative : Expr → Bool
  | .one p => p.negative
  | .chain p _ e => p.negative && e.negative

end

mutual

/-- Both sides of an `or` are negative or none is. -/
def Primary.uniform : Primary → Bool
  | .comparison _ => true
  | .paren e => e.uniform

def Expr.uniform : Expr → Bool
  | .one p => p.uniform
  | .chain p op e => p.uniform && e.uniform && (op = .and || p.negative = e.negative)

end

/-! ## Nesting to the right -/

mutual

/-- The tree in which every operator takes all that follows it in the same parens. -/
def Primary.nested : Primary → Tree
  | .comparison c => .leaf c
  | .paren e => e.nested

def Expr.nested : Expr → Tree
  | .one p => p.nested
  | .chain p op e => .node op p.nested e.nested

end

mutual

theorem Primary.comparisons_nested : ∀ p : Primary, p.nested.comparisons = p.comparisons
  | .comparison _ => rfl
  | .paren e => e.comparisons_nested

theorem Expr.comparisons_nested : ∀ e : Expr, e.nested.comparisons = e.comparisons
  | .one p => p.comparisons_nested
  | .chain p op e => by
      rw [Expr.nested, Tree.comparisons, p.comparisons_nested, e.comparisons_nested,
        Expr.comparisons]

end

/-- The kind of a frame. -/
def Pending.kind : Pending → Option Connective
  | .paren => none
  | .operand _ op => some op

theorem kind_close (w : List Pending × Tree) :
    (close w).1.map Pending.kind = (w.1.map Pending.kind ++ [none]).tail := by
  obtain ⟨_ | ⟨_ | ⟨left, op⟩, pending⟩, v⟩ := w <;> simp [close, Pending.kind]

mutual

theorem Primary.kind_walk : ∀ p : Primary, p.walk.1.map Pending.kind = p.unended
  | .comparison c => rfl
  | .paren e => by rw [Primary.walk, kind_close, e.kind_walk, Primary.unended]

theorem Expr.kind_walk : ∀ e : Expr, e.walk.1.map Pending.kind = e.unended
  | .one p => p.kind_walk
  | .chain p op e => by
      rw [Expr.walk, List.map_append, List.map_cons, e.kind_walk, p.kind_walk, Expr.unended]
      rfl

end

theorem settle_append (F G : List Pending) (v : Tree) :
    settle (F ++ G) v = settle G (settle F v) := by
  induction F generalizing v with
  | nil => rfl
  | cons f F ih => cases f <;> exact ih _

theorem settle_close (w : List Pending × Tree) :
    settle (close w).1 (close w).2 = settle w.1 w.2 := by
  obtain ⟨_ | ⟨_ | ⟨left, op⟩, pending⟩, v⟩ := w
  · rfl
  · simp [close, settle_append, settle]
  · simp [close, settle_append, settle]

/-- The tree of a chain: the rest is put under the operators that its first operand leaves. -/
theorem visited_chain (p : Primary) (op : Connective) (e : Expr) :
    (Expr.chain p op e).visited = settle p.walk.1 (.node op p.walk.2 e.visited) := by
  simp only [Expr.visited, Expr.walk, settle_append, settle]

section

variable {α : Type} {leaf : Comparison → α} {join : Connective → α → α → α}

/-- An operator inside the right side of another one can be taken out of it. -/
def TakesOut (join : Connective → α → α → α) (outer inner : Connective) : Prop :=
  ∀ a b c, join outer a (join inner b c) = join inner (join outer a b) c

theorem eval_settle_congr (pending : List Pending) {T U : Tree}
    (h : T.eval leaf join = U.eval leaf join) :
    (settle pending T).eval leaf join = (settle pending U).eval leaf join := by
  induction pending generalizing T U with
  | nil => exact h
  | cons f pending ih =>
      cases f with
      | paren => exact ih h
      | operand left op => exact ih (by rw [Tree.eval, Tree.eval, h])

/-- What is put under some operators can be joined to what they make without it. -/
theorem eval_settle {op : Connective} {pending : List Pending}
    (h : ∀ outer, some outer ∈ pending.map Pending.kind → TakesOut join outer op) (x : Tree) :
    ∀ v : Tree, (settle pending (.node op v x)).eval leaf join =
      join op ((settle pending v).eval leaf join) (x.eval leaf join) := by
  induction pending with
  | nil => exact fun v => rfl
  | cons f pending ih =>
      intro v
      have ih := ih fun outer ho => h outer (List.mem_cons_of_mem _ ho)
      cases f with
      | paren => exact ih v
      | operand left outer =>
          have hout : TakesOut join outer op := h outer List.mem_cons_self
          calc (settle pending (.node outer left (.node op v x))).eval leaf join
              = (settle pending (.node op (.node outer left v) x)).eval leaf join :=
                eval_settle_congr pending (hout _ _ _)
            _ = _ := ih (.node outer left v)

end

mutual

/-- Of every operator that an operand leaves unended, `R` relates it to the next one. -/
def Primary.Allows (R : Connective → Connective → Prop) : Primary → Prop
  | .comparison _ => True
  | .paren e => e.Allows R

def Expr.Allows (R : Connective → Connective → Prop) : Expr → Prop
  | .one p => p.Allows R
  | .chain p op e => p.Allows R ∧ e.Allows R ∧ ∀ outer, some outer ∈ p.unended → R outer op

end

section

variable {α : Type} {leaf : Comparison → α} {join : Connective → α → α → α}
  {R : Connective → Connective → Prop}

mutual

theorem Primary.eval_walk (hR : ∀ outer inner, R outer inner → TakesOut join outer inner) :
    ∀ p : Primary, p.Allows R →
      (settle p.walk.1 p.walk.2).eval leaf join = p.nested.eval leaf join
  | .comparison _, _ => rfl
  | .paren e, h => by
      rw [Primary.walk, settle_close]
      exact e.eval_visited hR h

/-- Where operators can be taken out, the tree of the walk is worth the one nested to the
right. -/
theorem Expr.eval_visited (hR : ∀ outer inner, R outer inner → TakesOut join outer inner) :
    ∀ e : Expr, e.Allows R → e.visited.eval leaf join = e.nested.eval leaf join
  | .one p, h => p.eval_walk hR h
  | .chain p op e, ⟨hp, he, hop⟩ => by
      have hout : ∀ outer, some outer ∈ p.walk.1.map Pending.kind → TakesOut join outer op := by
        rw [p.kind_walk]
        exact fun outer ho => hR outer op (hop outer ho)
      rw [visited_chain, eval_settle hout, p.eval_walk hR hp, e.eval_visited hR he]
      rfl

end

end

mutual

theorem Primary.allows_of_forall {R : Connective → Connective → Prop} (h : ∀ a b, R a b) :
    ∀ p : Primary, p.Allows R
  | .comparison _ => trivial
  | .paren e => e.allows_of_forall h

theorem Expr.allows_of_forall {R : Connective → Connective → Prop} (h : ∀ a b, R a b) :
    ∀ e : Expr, e.Allows R
  | .one p => p.allows_of_forall h
  | .chain p op e => ⟨p.allows_of_forall h, e.allows_of_forall h, fun outer _ => h outer op⟩

end

mutual

theorem Primary.allows_of_grouped : ∀ p : Primary, p.grouped = true → p.Allows (· = ·)
  | .comparison _, _ => trivial
  | .paren e, h => e.allows_of_grouped h

theorem Expr.allows_of_grouped : ∀ e : Expr, e.grouped = true → e.Allows (· = ·)
  | .one p, h => p.allows_of_grouped h
  | .chain p op e, h => by
      simp only [Expr.grouped, Bool.and_eq_true, List.all_eq_true] at h
      obtain ⟨⟨⟨hp, he⟩, hunended⟩, -⟩ := h
      refine ⟨p.allows_of_grouped hp, e.allows_of_grouped he, fun outer ho => ?_⟩
      simpa using hunended _ ho

end

/-! ## Summaries

All that decides what the query of a tree says is associative: the truth values, whether all
comparisons are negative, and whether the sides of every `or` are alike. -/

/-- The truth of a tree, and whether it is negative and the sides of every `or` are alike. -/
structure Summary where
  holds : Bool
  negative : Bool
  uniform : Bool
deriving DecidableEq

def Summary.join : Connective → Summary → Summary → Summary
  | .and, l, r => ⟨l.holds && r.holds, l.negative && r.negative, l.uniform && r.uniform⟩
  | .or, l, r => ⟨l.holds || r.holds, l.negative && r.negative,
      l.uniform && r.uniform && l.negative == r.negative⟩

theorem Summary.takesOut (op : Connective) : TakesOut Summary.join op op := by
  rintro ⟨a, b, c⟩ ⟨a', b', c'⟩ ⟨a'', b'', c''⟩
  cases op with
  | and => simp [Summary.join, Bool.and_assoc]
  | or =>
      simp only [Summary.join, Bool.or_assoc, Bool.and_assoc, Summary.mk.injEq, true_and]
      revert b b' b'' c c' c''
      decide

def Tree.summary (v : Comparison → Bool) (T : Tree) : Summary :=
  T.eval (fun c => ⟨v c, c.verb = .ne, true⟩) Summary.join

theorem and_eq_false_of_ne {a b : Bool} (h : a ≠ b) : (a && b) = false := by
  revert a b
  decide

/-- If the sides of every `or` are alike, the query of a tree says what the tree does. -/
theorem Tree.signed_of_uniform (v : Comparison → Bool) (T : Tree) :
    (T.signed v).negative = (T.summary v).negative ∧
      ((T.summary v).uniform = true → (T.signed v).holds = (T.summary v).holds) := by
  induction T with
  | leaf c => exact ⟨rfl, fun _ => rfl⟩
  | node op l r hl hr =>
      obtain ⟨hl, hl'⟩ := hl
      obtain ⟨hr, hr'⟩ := hr
      simp only [Tree.signed, Tree.summary, Tree.eval] at hl hr hl' hr' ⊢
      cases op with
      | and =>
          simp only [Signed.join, Summary.join, Bool.and_eq_true, hl, hr, true_and]
          rintro ⟨hul, hur⟩
          rw [hl' hul, hr' hur]
      | or =>
          simp only [Signed.join, Summary.join, hl, hr, Bool.and_eq_true, beq_iff_eq]
          split_ifs with hneg
          · refine ⟨by rw [hneg, Bool.and_self], ?_⟩
            rintro ⟨⟨hul, hur⟩, -⟩
            rw [hl' hul, hr' hur]
          · refine ⟨?_, fun h => absurd h.2 hneg⟩
            exact (and_eq_false_of_ne hneg).symm

mutual

theorem Primary.summary_nested (v : Comparison → Bool) : ∀ p : Primary,
    (p.nested.summary v).negative = p.negative ∧ (p.nested.summary v).uniform = p.uniform
  | .comparison _ => ⟨rfl, rfl⟩
  | .paren e => e.summary_nested v

theorem Expr.summary_nested (v : Comparison → Bool) : ∀ e : Expr,
    (e.nested.summary v).negative = e.negative ∧ (e.nested.summary v).uniform = e.uniform
  | .one p => p.summary_nested v
  | .chain p op e => by
      have hp := p.summary_nested v
      have he := e.summary_nested v
      simp only [Tree.summary] at hp he
      cases op with
      | and =>
          simp [Tree.summary, Expr.nested, Tree.eval, Summary.join, hp, he, Expr.negative,
            Expr.uniform]
      | or =>
          simp [Tree.summary, Expr.nested, Tree.eval, Summary.join, hp, he, Expr.negative,
            Expr.uniform, Bool.beq_eq_decide_eq]

end

mutual

theorem Primary.holds_nested (v : Comparison → Bool) : ∀ p : Primary, p.grouped = true →
    (p.nested.summary v).holds = p.holds v
  | .comparison _, _ => rfl
  | .paren e, h => by
      rw [Primary.holds, e.holdsFrom_nested v h true (Or.inl rfl), Bool.true_and]
      rfl

/-- If no `or` comes after an `and`, nesting to the right is what the precedence of `and`
asks for. -/
theorem Expr.holdsFrom_nested (v : Comparison → Bool) : ∀ e : Expr, e.grouped = true →
    ∀ acc : Bool, acc = true ∨ e.connectives.all (· = .and) = true →
      e.holdsFrom v acc = (acc && (e.nested.summary v).holds)
  | .one p, h, acc, _ => by
      rw [Expr.holdsFrom, ← p.holds_nested v h]
      rfl
  | .chain p op e, h, acc, hacc => by
      simp only [Expr.grouped, Bool.and_eq_true] at h
      obtain ⟨⟨⟨hp, he⟩, -⟩, hafter⟩ := h
      cases op with
      | and =>
          have hall : e.connectives.all (· = .and) = true := by simpa using hafter
          rw [Expr.holdsFrom, e.holdsFrom_nested v he _ (Or.inr hall), ← p.holds_nested v hp,
            Bool.and_assoc]
          rfl
      | or =>
          obtain rfl : acc = true := by simpa [Expr.connectives] using hacc
          rw [Expr.holdsFrom, e.holdsFrom_nested v he true (Or.inl rfl), ← p.holds_nested v hp,
            Bool.true_and, Bool.true_and, Bool.true_and]
          rfl

end

/-- **The query of an expression is right**: for every truth of the comparisons it finds what the
expression holds of. -/
theorem Expr.matched_eq_holds {e : Expr} (hgrouped : e.grouped = true)
    (huniform : e.uniform = true) (hnegative : e.negative = false) (single : Comparison → Bool)
    (v : Comparison → Bool) : e.visited.matched single v = e.holds v := by
  have hsummary : e.visited.summary v = e.nested.summary v :=
    e.eval_visited (fun _ op h => h ▸ Summary.takesOut op) (e.allows_of_grouped hgrouped)
  obtain ⟨hneg, hholds⟩ := e.visited.signed_of_uniform v
  rw [hsummary, (e.summary_nested v).1, hnegative] at hneg
  rw [hsummary, (e.summary_nested v).2, huniform] at hholds
  have hholds : (e.visited.signed v).holds = e.holds v := by
    rw [hholds rfl, Expr.holds, e.holdsFrom_nested v hgrouped true (Or.inl rfl), Bool.true_and]
  cases hT : e.visited with
  | leaf c =>
      rw [hT] at hneg hholds
      have hc : c.verb ≠ .ne := of_decide_eq_false hneg
      rw [Tree.matched, if_neg hc]
      exact hholds
  | node op l r =>
      rw [hT] at hneg hholds
      rw [Tree.matched, hneg, hholds, Bool.not_false, Bool.true_and]

end Xenon.OData

import Xenon.OData.Visitor

/-!
# The walk as a stack machine

The recursion of `walkTokens` keeps one thing for every call that waits: that it is past an
opening paren, or the left side of its operator. `run` keeps these on a stack and reads the
tokens once, from left to right. A closing paren pops the top of the stack, whatever it is.
-/

namespace Xenon.OData

open Xenon.Foundation
open Xenon.QueryTask

/-! ## Items -/

/-- What the walk sees: a comparison is three tokens. The walk fails at an item that is
none of the others. -/
inductive Item where
  | comparison (left verb right : String)
  | openParen
  | closeParen
  | operator (verb : String)
  | bad (failure : Failure)
deriving DecidableEq

/-- The items of a token list, up to the first bad one. -/
def items : List ODataToken → List Item
  | [] => []
  | t :: tokens =>
      match t.kind with
      | .openParen => .openParen :: items tokens
      | .closeParen => .closeParen :: items tokens
      | .binaryOperator => .operator t.uriLiteral :: items tokens
      | .simpleType =>
          match tokens with
          | [] => [.bad .noSuchElement]
          | verb :: tokens =>
              if verb.kind ≠ .binaryComparison then [.bad (.illegalArgument "Term mismatch")]
              else match tokens with
                | [] => [.bad .noSuchElement]
                | right :: tokens =>
                    if right.kind ≠ .simpleType then
                      [.bad (.illegalArgument "Term mismatch")]
                    else .comparison t.uriLiteral verb.uriLiteral right.uriLiteral ::
                      items tokens
      | _ => [.bad .stackOverflow]

/-! ## The machine -/

/-- What a walk makes of comparisons and operators. -/
structure Visits (α : Type) where
  comparison : String → Option BinaryVerb → String → Except Failure α
  operator : Option α → Option BinaryVerb → Option α → Except Failure α

/-- What the visitor makes of them. -/
def queryVisits (java : Java) (names : Option (List String)) : Visits Query where
  comparison := visitBinaryComparator java names
  operator := visitBinaryOperator

/-- A call that waits: past an opening paren, or for the right side of an operator. -/
inductive Frame (α : Type) where
  | paren
  | operand (left : Option α) (operator : Option BinaryVerb)

variable {α β : Type}

/-- All calls return a value, at the end of the tokens. -/
def finish (V : Visits α) : List (Frame α) → Option α → Except Failure (Option α)
  | [], value => .ok value
  | .paren :: stack, value => finish V stack value
  | .operand left op :: stack, value => do finish V stack (some (← V.operator left op value))

/-- The walk; `entered` says that a call has just been made, which returns `null` if there are
no more tokens. -/
def run (V : Visits α) : List (Frame α) → Option α → (entered : Bool) → List Item →
    Except Failure (Option α)
  | stack, left, entered, [] => finish V stack (if entered then none else left)
  | stack, left, _, .openParen :: is => run V (.paren :: stack) left true is
  | stack, _, _, .comparison l v r :: is => do
      run V stack (some (← V.comparison l (stringToVerb v) r)) false is
  | stack, left, _, .operator v :: is =>
      run V (.operand left (stringToVerb v) :: stack) none true is
  | [], left, _, .closeParen :: _ => .ok left
  | .paren :: stack, left, _, .closeParen :: is => run V stack left false is
  | .operand l op :: stack, left, _, .closeParen :: is => do
      run V stack (some (← V.operator l op left)) false is
  | _, _, _, .bad failure :: _ => .error failure

/-- A call returns a value, with some tokens left. -/
def returnTo (V : Visits α) : List (Frame α) → Option α × List ODataToken →
    Except Failure (Option α)
  | [], (value, _) => .ok value
  | .paren :: stack, (value, tokens) => run V stack value false (items tokens)
  | .operand left op :: stack, (value, tokens) => do
      run V stack (some (← V.operator left op value)) false (items tokens)

theorem returnTo_nil (V : Visits α) (stack : List (Frame α)) (value : Option α) :
    returnTo V stack (value, []) = finish V stack value := by
  rcases stack with _ | ⟨_ | ⟨left, op⟩, stack⟩
  · rfl
  · simp [returnTo, finish, items, run]
  · simp [returnTo, finish, items, run]

/-- Before a closing paren. -/
theorem run_closeParen (V : Visits α) (stack : List (Frame α)) (left : Option α)
    (entered : Bool) (tokens : List ODataToken) :
    run V stack left entered (.closeParen :: items tokens) =
      returnTo V stack (left, tokens) := by
  rcases stack with _ | ⟨_ | ⟨l, op⟩, stack⟩ <;> simp [run, returnTo]

/-- Only at the end of the tokens it matters whether a call has just been made. -/
theorem run_entered (V : Visits α) (stack : List (Frame α)) (left : Option α) (i : Item)
    (is : List Item) : run V stack left true (i :: is) = run V stack left false (i :: is) := by
  cases i with
  | closeParen => rcases stack with _ | ⟨_ | ⟨l, op⟩, stack⟩ <;> simp [run]
  | _ => simp [run]

/-- A nonempty token list has an item. -/
theorem items_cons (t : ODataToken) (tokens : List ODataToken) :
    ∃ i is, items (t :: tokens) = i :: is := by
  unfold items
  split
  · exact ⟨_, _, rfl⟩
  · exact ⟨_, _, rfl⟩
  · exact ⟨_, _, rfl⟩
  · split
    · exact ⟨_, _, rfl⟩
    · split_ifs
      · exact ⟨_, _, rfl⟩
      · split
        · exact ⟨_, _, rfl⟩
        · split_ifs <;> exact ⟨_, _, rfl⟩
  · exact ⟨_, _, rfl⟩

theorem items_openParen {t : ODataToken} (ht : t.kind = .openParen) (tokens : List ODataToken) :
    items (t :: tokens) = .openParen :: items tokens := by
  rw [items.eq_def]
  simp only [ht]

theorem items_closeParen {t : ODataToken} (ht : t.kind = .closeParen)
    (tokens : List ODataToken) : items (t :: tokens) = .closeParen :: items tokens := by
  rw [items.eq_def]
  simp only [ht]

theorem items_binaryOperator {t : ODataToken} (ht : t.kind = .binaryOperator)
    (tokens : List ODataToken) :
    items (t :: tokens) = .operator t.uriLiteral :: items tokens := by
  rw [items.eq_def]
  simp only [ht]

/-! ## The walk is the machine -/

section

variable {java : Java} {names : Option (List String)}

/-- At a simple type the machine parses a comparison. -/
theorem run_simpleType {t : ODataToken} (ht : t.kind = .simpleType)
    (stack : List (Frame Query)) (left : Option Query) (entered : Bool)
    (tokens : List ODataToken) :
    run (queryVisits java names) stack left entered (items (t :: tokens)) =
      parseUnaryTerm java names t tokens >>= fun p =>
        run (queryVisits java names) stack (some p.1) false (items p.2) := by
  rcases tokens with _ | ⟨verb, _ | ⟨right, tokens⟩⟩
  · simp only [items, ht, run, parseUnaryTerm]
    rfl
  · simp only [items, ht, parseUnaryTerm]
    split_ifs <;> simp only [run] <;> rfl
  · rw [items.eq_def]
    simp only [ht, parseUnaryTerm]
    split_ifs
    · simp only [run]
      rfl
    · simp only [run]
      rfl
    · simp only [run, queryVisits, bind_assoc, pure_bind]

theorem length_parseUnaryTerm {t : ODataToken} {tokens rest : List ODataToken} {q : Query}
    (h : parseUnaryTerm java names t tokens = .ok (q, rest)) : rest.length < tokens.length := by
  rcases tokens with _ | ⟨verb, _ | ⟨right, tokens⟩⟩
  · cases h
  · simp only [parseUnaryTerm] at h
    split_ifs at h
  · simp only [parseUnaryTerm] at h
    split_ifs at h
    obtain ⟨q', -, h⟩ := bind_eq_ok.mp h
    cases h
    simp

/-- A walk does not add tokens. -/
def Shrinks (walk : Walk) : Prop :=
  ∀ {tokens left value rest}, walk tokens left = .ok (value, rest) → rest.length ≤ tokens.length

theorem Shrinks.walkOperator {walk : Walk} (hwalk : Shrinks walk) : Shrinks (walkOperator walk) := by
  intro tokens left value rest h
  rcases tokens with _ | ⟨t, tokens⟩
  · cases h
    exact le_rfl
  · simp only [OData.walkOperator] at h
    split at h
    · cases h
      exact Nat.le_succ _
    · obtain ⟨⟨right, tokens'⟩, hright, h⟩ := bind_eq_ok.mp h
      obtain ⟨q, -, h⟩ := bind_eq_ok.mp h
      have hle := hwalk hright
      dsimp only at h
      split_ifs at h
      · cases h
        exact hle.trans (Nat.le_succ _)
      · exact ((hwalk h).trans hle).trans (Nat.le_succ _)
    · exact hwalk h

theorem Shrinks.walkTerm {walk : Walk} (hwalk : Shrinks walk) :
    Shrinks (walkTerm java names walk) := by
  intro tokens left value rest h
  rcases tokens with _ | ⟨t, tokens⟩
  · cases h
    exact le_rfl
  · simp only [OData.walkTerm] at h
    split_ifs at h
    · obtain ⟨⟨q, tokens'⟩, hterm, h⟩ := bind_eq_ok.mp h
      have hlt := length_parseUnaryTerm hterm
      have hle : rest.length ≤ tokens'.length := hwalk.walkOperator h
      rw [List.length_cons]
      omega
    · exact hwalk.walkOperator h

theorem shrinks_walkTokens (fuel : Nat) : Shrinks (walkTokens java names fuel) := by
  induction fuel with
  | zero =>
      intro tokens left value rest h
      cases h
  | succ fuel ih =>
      intro tokens left value rest h
      rcases tokens with _ | ⟨t, tokens⟩
      · cases h
        exact le_rfl
      · simp only [walkTokens] at h
        split_ifs at h
        · obtain ⟨⟨left', tokens'⟩, hinner, h⟩ := bind_eq_ok.mp h
          exact ((ih.walkTerm h).trans (ih hinner)).trans (Nat.le_succ _)
        · exact ih.walkTerm h

/-- The kinds at which the walk makes no progress. -/
def ODataToken.IsStuck (t : ODataToken) : Prop :=
  t.kind ≠ .openParen ∧ t.kind ≠ .closeParen ∧ t.kind ≠ .simpleType ∧ t.kind ≠ .binaryOperator

theorem ODataToken.IsStuck.items {t : ODataToken} (ht : t.IsStuck) (tokens : List ODataToken) :
    items (t :: tokens) = [.bad .stackOverflow] := by
  obtain ⟨h₁, h₂, h₃, h₄⟩ := ht
  rw [items.eq_def]
  dsimp only
  split <;> simp_all

/-- Whatever the depth of the stack, the walk overflows it. -/
theorem ODataToken.IsStuck.walkTokens {t : ODataToken} (ht : t.IsStuck)
    (tokens : List ODataToken) (left : Option Query) (fuel : Nat) :
    walkTokens java names fuel (t :: tokens) left = .error .stackOverflow := by
  induction fuel with
  | zero => rfl
  | succ fuel ih =>
      obtain ⟨h₁, h₂, h₃, h₄⟩ := ht
      simp only [OData.walkTokens, if_neg h₁, walkTerm, if_neg h₃, walkOperator]
      exact ih

/-- A walk does what the machine does with fewer than `n` tokens. -/
def Follows (java : Java) (names : Option (List String)) (n : Nat) (walk : Walk) : Prop :=
  ∀ tokens left stack, tokens.length < n →
    (walk tokens left >>= returnTo (queryVisits java names) stack) =
      run (queryVisits java names) stack left true (items tokens)

/-- The case of an operator. -/
theorem Follows.operator {n : Nat} {walk : Walk} (hwalk : Follows java names n walk)
    (hshrinks : Shrinks walk) {tokens : List ODataToken} (hn : tokens.length < n)
    (left : Option Query) (op : Option BinaryVerb) (stack : List (Frame Query)) :
    ((do
        let (right, tokens) ← walk tokens none
        let left ← visitBinaryOperator left op right
        if tokens.isEmpty then return (some left, tokens) else walk tokens (some left)) >>=
      returnTo (queryVisits java names) stack) =
        run (queryVisits java names) (.operand left op :: stack) none true (items tokens) := by
  rw [← hwalk tokens none (.operand left op :: stack) hn]
  cases hright : walk tokens none with
  | error e => rfl
  | ok r =>
      obtain ⟨right, rest⟩ := r
      have hrest : rest.length < n := (hshrinks hright).trans_lt hn
      show _ = visitBinaryOperator left op right >>= _
      cases hvisit : visitBinaryOperator left op right with
      | error e =>
          show (visitBinaryOperator left op right >>= _) >>= _ = _
          rw [hvisit]
          rfl
      | ok q =>
          show (visitBinaryOperator left op right >>= _) >>= _ = _
          rw [hvisit]
          show (if rest.isEmpty then _ else _) >>= _ = run _ _ _ _ _
          rcases rest with _ | ⟨t, rest⟩
          · show returnTo _ stack (some q, []) = _
            rw [returnTo_nil]
            simp [items, run]
          · show walk (t :: rest) (some q) >>= _ = _
            obtain ⟨i, is, hitems⟩ := items_cons t rest
            rw [hwalk _ _ _ hrest, hitems, run_entered]

theorem Follows.walkOperator {n : Nat} {walk : Walk} (hwalk : Follows java names n walk)
    (hshrinks : Shrinks walk)
    (hstuck : ∀ t tokens left, t.IsStuck → walk (t :: tokens) left = .error .stackOverflow)
    {tokens : List ODataToken} (hn : tokens.length ≤ n)
    (hfirst : tokens.length = n → ∀ t ∈ tokens.head?,
      t.kind ≠ .openParen ∧ t.kind ≠ .simpleType)
    (left : Option Query) (stack : List (Frame Query)) :
    (OData.walkOperator walk tokens left >>= returnTo (queryVisits java names) stack) =
      run (queryVisits java names) stack left false (items tokens) := by
  rcases tokens with _ | ⟨t, tokens⟩
  · show returnTo _ stack (left, []) = _
    rw [returnTo_nil]
    simp [items, run]
  · simp only [OData.walkOperator]
    split
    · rename_i hkind
      rw [items_closeParen hkind, run_closeParen]
      rfl
    · rename_i hkind
      rw [items_binaryOperator hkind]
      simp only [run]
      exact hwalk.operator hshrinks hn left _ stack
    · rename_i hclose hop
      rcases hn.lt_or_eq with hlt | heq
      · obtain ⟨i, is, hitems⟩ := items_cons t tokens
        rw [hwalk _ _ _ hlt, hitems, run_entered]
      · -- the walk is where it was
        obtain ⟨hopen, hsimple⟩ := hfirst heq t rfl
        have ht : t.IsStuck := ⟨hopen, hclose, hsimple, hop⟩
        rw [hstuck t tokens left ht, ht.items]
        simp only [run]
        rfl

theorem Follows.walkTerm {n : Nat} {walk : Walk} (hwalk : Follows java names n walk)
    (hshrinks : Shrinks walk)
    (hstuck : ∀ t tokens left, t.IsStuck → walk (t :: tokens) left = .error .stackOverflow)
    {tokens : List ODataToken} (hn : tokens.length ≤ n)
    (hfirst : tokens.length = n → ∀ t ∈ tokens.head?, t.kind ≠ .openParen)
    (left : Option Query) (stack : List (Frame Query)) :
    (OData.walkTerm java names walk tokens left >>= returnTo (queryVisits java names) stack) =
      run (queryVisits java names) stack left false (items tokens) := by
  rcases tokens with _ | ⟨t, tokens⟩
  · show returnTo _ stack (left, []) = _
    rw [returnTo_nil]
    simp [items, run]
  · simp only [OData.walkTerm]
    split_ifs with hsimple
    · rw [run_simpleType hsimple]
      cases hterm : parseUnaryTerm java names t tokens with
      | error e => rfl
      | ok p =>
          obtain ⟨q, rest⟩ := p
          have hlt := length_parseUnaryTerm hterm
          rw [List.length_cons] at hn
          have hrest : rest.length < n := by omega
          exact hwalk.walkOperator hshrinks hstuck hrest.le (fun h => absurd h hrest.ne) (some q)
            stack
    · exact hwalk.walkOperator hshrinks hstuck hn
        (fun h u hu => ⟨hfirst h u hu, by cases hu; exact hsimple⟩) left stack

/-- **`walkTokens` is the machine**, whenever its recursion may be as deep as the token list is
long. -/
theorem walkTokens_follows (fuel : Nat) : Follows java names fuel (walkTokens java names fuel) := by
  induction fuel with
  | zero => exact fun tokens left stack h => absurd h (Nat.not_lt_zero _)
  | succ fuel ih =>
      intro tokens left stack hn
      have hshrinks : Shrinks (walkTokens java names fuel) := shrinks_walkTokens fuel
      have hstuck : ∀ t tokens left, t.IsStuck →
          walkTokens java names fuel (t :: tokens) left = .error .stackOverflow :=
        fun t tokens left ht => ht.walkTokens tokens left fuel
      rcases tokens with _ | ⟨t, tokens⟩
      · show returnTo _ stack (none, []) = _
        rw [returnTo_nil]
        simp [items, run]
      · rw [List.length_cons] at hn
        simp only [walkTokens]
        split_ifs with hopen
        · rw [items_openParen hopen]
          simp only [run]
          rw [← ih tokens left (.paren :: stack) (by omega)]
          cases hinner : walkTokens java names fuel tokens left with
          | error e => rfl
          | ok r =>
              obtain ⟨left', rest⟩ := r
              have hrest : rest.length < fuel := (hshrinks hinner).trans_lt (by omega)
              exact ih.walkTerm hshrinks hstuck hrest.le (fun h => absurd h hrest.ne) left' stack
        · rw [ih.walkTerm hshrinks hstuck (by rw [List.length_cons]; omega)
            (fun _ u hu => by cases hu; exact hopen) left stack]
          obtain ⟨i, is, hitems⟩ := items_cons t tokens
          rw [hitems, run_entered]

/-- The query of a `$filter` is what the machine makes of its tokens. -/
theorem toQuery_eq (filterExp : String) :
    toQuery java names filterExp = tokenize java filterExp >>= fun tokens =>
      run (queryVisits java names) [] none true (items tokens) := by
  unfold toQuery
  cases tokenize java filterExp with
  | error e => rfl
  | ok tokens =>
      show _ = run _ _ _ _ _
      rw [← walkTokens_follows (tokens.length + 1) tokens none [] (Nat.lt_succ_self _)]
      rcases tokens with _ | ⟨t, tokens⟩ <;> rfl

end

end Xenon.OData

import Mathlib.Data.List.Induction
import Mathlib.Data.List.Pairwise

/-!
# Completion handlers of an operation

An operation has one completion field. `nestCompletion` and `appendCompletion`
put a closure into it that keeps the handler that was there; the closures write
the field again when they are invoked. `completeOrFail` takes the field, leaves
`null` behind and invokes what it took.

Both calls promise an order: nested handlers run last in, first out and before
the original one, appended handlers run after it in the order of the calls. The
promise is kept as long as no handler is appended to a field that holds a nested
one: the closure of `appendCompletion` parks its handler in the field and the
closure of `nestCompletion` overwrites it there.
-/

namespace Xenon.Common.Operation

/-- What the field `completion` can hold. A closure is written as the call that
made it, with the variables it captured. -/
inductive Completion (H : Type*) where
  | null
  /-- A handler that was set as it is. -/
  | handler (h : H)
  /-- The closure of `nestCompletion`. -/
  | nested (h : H) (existing : Completion H)
  /-- The closure of `appendCompletion`. -/
  | appended (h : H) (existing : Completion H)
deriving DecidableEq

namespace Completion

variable {H E : Type*}

def nestCompletion (existing : Completion H) (h : H) : Completion H :=
  .nested h existing

def appendCompletion : Completion H → H → Completion H
  | .null, h => .handler h
  | existing, h => .appended h existing

/-- Invoke a closure while the field holds `field`: the handler that is called
in the end, and what the field holds at that moment. -/
def handle : Completion H → Completion H → Option (H × Completion H)
  | .null, _ => none
  | .handler h, field => some (h, field)
  | .nested h existing, _ => some (h, existing)
  | .appended h existing, field => existing.handle (field.nestCompletion h)

/-- The handlers that a field refers to. -/
def size : Completion H → Nat
  | .null => 0
  | .handler _ => 1
  | .nested _ existing => existing.size + 1
  | .appended _ existing => existing.size + 1

theorem size_handle {c field rest : Completion H} {h : H}
    (hc : c.handle field = some (h, rest)) : rest.size < c.size + field.size := by
  induction c generalizing field with
  | null => simp [handle] at hc
  | handler g =>
      simp only [handle, Option.some.injEq, Prod.mk.injEq] at hc
      rw [← hc.2]
      simp [size]
  | nested g existing _ =>
      simp only [handle, Option.some.injEq, Prod.mk.injEq] at hc
      rw [← hc.2]
      simp only [size]
      omega
  | appended g existing ih =>
      have := ih hc
      simp only [nestCompletion, size] at this ⊢
      omega

/-- `completeOrFail` and every completion that follows from it. Each handler that
is invoked with an error (`none` for a completion) completes or fails the
operation once, as `react` says; the result lists the handlers in the order in
which they run, with the error that each was given. -/
def completeOrFail (react : H → Option E → Option E) (completion : Completion H)
    (e : Option E) : List (H × Option E) :=
  match _hc : completion.handle .null with
  | none => []
  | some (h, field) => (h, e) :: completeOrFail react field (react h e)
termination_by completion.size
decreasing_by
  have := size_handle _hc
  simpa [size] using this

/-- The handlers that run when the closure is invoked and those in `later` are
parked in the field. -/
def order : Completion H → List H → List H
  | .null, _ => []
  | .handler h, later => h :: later
  | .nested h existing, _ => h :: existing.order []
  | .appended h existing, later => existing.order (h :: later)

/-- Handlers that are parked in the field, the next one outermost. -/
def park (later : List H) : Completion H :=
  later.foldr .nested .null

theorem order_park (later : List H) : (park later).order [] = later := by
  induction later with
  | nil => rfl
  | cons h later ih =>
      show h :: (park later).order [] = h :: later
      rw [ih]

/-- One invocation consumes the first handler of the order. -/
theorem handle_park (c : Completion H) (later : List H) :
    (c.handle (park later)).map (fun r => r.1 :: r.2.order []) =
      if c.order later = [] then none else some (c.order later) := by
  induction c generalizing later with
  | null => rfl
  | handler h => simp [handle, order, order_park]
  | nested h existing _ => simp [handle, order]
  | appended h existing ih => exact ih (h :: later)

/-- Every handler of the order runs once, in that order, whatever the handlers
do with the error. -/
theorem completeOrFail_order (react : H → Option E → Option E) (c : Completion H)
    (e : Option E) : (completeOrFail react c e).map Prod.fst = c.order [] := by
  fun_induction completeOrFail react c e with
  | case1 c e hnone =>
      have hpark := handle_park c []
      rw [park, List.foldr_nil, hnone, Option.map_none] at hpark
      split at hpark
      next hnil => exact hnil.symm
      next => simp at hpark
  | case2 c e h field hsome ih =>
      have hpark := handle_park c []
      rw [park, List.foldr_nil, hsome, Option.map_some] at hpark
      rw [List.map_cons, ih]
      split at hpark
      · simp at hpark
      · exact Option.some.inj hpark

/-- The error a handler is given is the outcome of the handler before it. -/
theorem completeOrFail_chain (react : H → Option E → Option E) (c : Completion H)
    (e : Option E) :
    (completeOrFail react c e).IsChain fun a b => b.2 = react a.1 a.2 := by
  fun_induction completeOrFail react c e with
  | case1 c e hnone => exact List.IsChain.nil
  | case2 c e h field hsome ih =>
      rw [completeOrFail] at ih ⊢
      split at ih
      · exact List.IsChain.singleton _
      · exact List.IsChain.cons_cons rfl ih

end Completion

/-! ## Sequences of calls -/

/-- The calls that add a handler to an operation. -/
inductive CompletionCall (H : Type*) where
  | nest (h : H)
  | append (h : H)
deriving DecidableEq

namespace CompletionCall

variable {H E : Type*}

def apply (completion : Completion H) : CompletionCall H → Completion H
  | .nest h => completion.nestCompletion h
  | .append h => completion.appendCompletion h

/-- The completion field after `setCompletion(org)` and the calls. -/
def applyAll (org : H) (calls : List (CompletionCall H)) : Completion H :=
  calls.foldl apply (.handler org)

def isNest : CompletionCall H → Bool
  | .nest _ => true
  | .append _ => false

def nestedHandler : CompletionCall H → Option H
  | .nest h => some h
  | .append _ => none

def appendedHandler : CompletionCall H → Option H
  | .nest _ => none
  | .append h => some h

/-- The order that the two calls promise. -/
def promised (org : H) (calls : List (CompletionCall H)) : List H :=
  (calls.filterMap nestedHandler).reverse ++ org :: calls.filterMap appendedHandler

/-- The calls before the first nested handler. -/
def beforeNest (calls : List (CompletionCall H)) : List (CompletionCall H) :=
  calls.takeWhile (!·.isNest)

theorem applyAll_snoc (org : H) (calls : List (CompletionCall H)) (call : CompletionCall H) :
    applyAll org (calls ++ [call]) = apply (applyAll org calls) call := by
  simp [applyAll, List.foldl_append]

theorem applyAll_ne_null (org : H) (calls : List (CompletionCall H)) :
    applyAll org calls ≠ .null := by
  induction calls using List.reverseRecOn with
  | nil => nofun
  | append_singleton calls call ih =>
      rw [applyAll_snoc]
      cases call with
      | nest h => nofun
      | append h =>
          show (applyAll org calls).appendCompletion h ≠ .null
          cases applyAll org calls <;> nofun

theorem order_append {c : Completion H} (hc : c ≠ .null) (h : H) (later : List H) :
    (c.appendCompletion h).order later = c.order (h :: later) := by
  cases c with
  | null => exact absurd rfl hc
  | handler g => rfl
  | nested g existing => rfl
  | appended g existing => rfl

theorem beforeNest_snoc (calls : List (CompletionCall H)) (call : CompletionCall H) :
    beforeNest (calls ++ [call]) =
      if calls.any isNest then beforeNest calls
      else beforeNest calls ++ beforeNest [call] := by
  induction calls with
  | nil => rfl
  | cons c calls ih =>
      cases c with
      | nest h => rfl
      | append h =>
          show .append h :: beforeNest (calls ++ [call]) = _
          rw [ih]
          show _ = if calls.any isNest then .append h :: beforeNest calls
            else .append h :: beforeNest calls ++ beforeNest [call]
          split <;> rfl

/-- What runs: an appended handler that finds a nested one in the field is lost,
and with it what is parked when it is invoked. -/
theorem order_applyAll (org : H) (calls : List (CompletionCall H)) (later : List H) :
    (applyAll org calls).order later =
      (calls.filterMap nestedHandler).reverse ++
        org :: (beforeNest calls).filterMap appendedHandler ++
          if calls.any isNest then [] else later := by
  induction calls using List.reverseRecOn generalizing later with
  | nil => rfl
  | append_singleton calls call ih =>
      rw [applyAll_snoc, beforeNest_snoc]
      cases call with
      | nest h =>
          show h :: (applyAll org calls).order [] = _
          rw [ih]
          by_cases hany : calls.any isNest
          · simp [hany, nestedHandler]
          · simp [hany, nestedHandler, beforeNest, isNest]
      | append h =>
          show ((applyAll org calls).appendCompletion h).order later = _
          rw [order_append (applyAll_ne_null org calls), ih]
          by_cases hany : calls.any isNest
          · simp [hany, nestedHandler, isNest]
          · simp [hany, nestedHandler, appendedHandler, beforeNest, isNest]

/-- No handler is appended after one was nested. -/
def AppendsFirst (calls : List (CompletionCall H)) : Prop :=
  calls.Pairwise fun a b => a.isNest → b.isNest

theorem filterMap_appended_eq_nil {calls : List (CompletionCall H)} :
    calls.filterMap appendedHandler = [] ↔ ∀ call ∈ calls, call.isNest := by
  rw [List.filterMap_eq_nil_iff]
  refine forall₂_congr fun call _ => ?_
  cases call <;> simp [appendedHandler, isNest]

theorem appendsFirst_iff (calls : List (CompletionCall H)) :
    (beforeNest calls).filterMap appendedHandler = calls.filterMap appendedHandler ↔
      AppendsFirst calls := by
  induction calls with
  | nil => simp [beforeNest, AppendsFirst]
  | cons call calls ih =>
      cases call with
      | nest h =>
          have hall : (∀ c ∈ calls, c.isNest) → AppendsFirst calls :=
            fun hall => List.pairwise_of_forall_mem_list fun _ _ b hb _ => hall b hb
          show [] = calls.filterMap appendedHandler ↔ _
          rw [eq_comm, filterMap_appended_eq_nil, AppendsFirst, List.pairwise_cons]
          constructor
          · intro h
            exact ⟨fun b hb _ => h b hb, hall h⟩
          · intro h b hb
            exact h.1 b hb rfl
      | append h =>
          show h :: (beforeNest calls).filterMap appendedHandler =
            h :: calls.filterMap appendedHandler ↔ _
          rw [List.cons_inj_right, ih, AppendsFirst, AppendsFirst, List.pairwise_cons]
          constructor
          · intro h
            exact ⟨fun b _ hn => absurd hn Bool.false_ne_true, h⟩
          · intro h
            exact h.2

/-- One completion runs every handler once and in the promised order exactly when
no handler is appended after one was nested. -/
theorem completeOrFail_promised_iff (react : H → Option E → Option E) (org : H)
    (calls : List (CompletionCall H)) (e : Option E) :
    ((applyAll org calls).completeOrFail react e).map Prod.fst = promised org calls ↔
      AppendsFirst calls := by
  rw [Completion.completeOrFail_order, order_applyAll, promised, ite_self, List.append_nil,
    List.append_cancel_left_eq, List.cons_inj_right, appendsFirst_iff]

/-- `nestCompletion(A)`, `appendCompletion(B)`: `A` and the original handler run,
`B` never does. -/
theorem append_after_nest_is_lost :
    ((applyAll "ORG" [.nest "A", .append "B"]).completeOrFail
        (fun _ (e : Option String) => e) none).map Prod.fst = ["A", "ORG"] ∧
      ((applyAll "ORG" [.nest "A", .append "B"]).completeOrFail
        (fun _ (e : Option String) => e) none).map Prod.fst ≠
        promised "ORG" [.nest "A", .append "B"] := by
  rw [Completion.completeOrFail_order]
  exact ⟨rfl, by decide⟩

end CompletionCall

end Xenon.Common.Operation

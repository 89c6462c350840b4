import Mathlib.Data.List.Induction

/-!
# Runs of step functions

Two shapes of run are used throughout. A *total* step answers every input and
may emit an output (`runOut`); a *partial* step may refuse an event
(`exec`, `Reach`). The reachability relation carries a guard on every step, so
that a property which only holds while each step meets a condition can be
stated about whole runs, and its rule (`Reach.invariant`) asks for one step.
-/

namespace Xenon.Foundation

variable {σ ι ο ε : Type*}

/-! ## Total steps with outputs -/

/-- Feed the inputs one by one; the outputs accumulate in the order in which
they are emitted. -/
def runOut (step : σ → ι → σ × Option ο) (s : σ) (is : List ι) : σ × List ο :=
  is.foldl (fun p i => ((step p.1 i).1, p.2 ++ (step p.1 i).2.toList)) (s, [])

theorem runOut_nil (step : σ → ι → σ × Option ο) (s : σ) :
    runOut step s [] = (s, []) := rfl

theorem runOut_snoc (step : σ → ι → σ × Option ο) (s : σ) (is : List ι)
    (i : ι) :
    runOut step s (is ++ [i]) =
      ((step (runOut step s is).1 i).1,
        (runOut step s is).2 ++ (step (runOut step s is).1 i).2.toList) := by
  unfold runOut
  rw [List.foldl_append]
  rfl

/-- A set of states that no input leaves and in which no input is answered. -/
def Silent (step : σ → ι → σ × Option ο) (p : σ → Prop) : Prop :=
  ∀ s i, p s → p (step s i).1 ∧ (step s i).2 = none

/-- Once a run has entered a silent set, further inputs emit nothing and the
set is not left. -/
theorem Silent.run_append {step : σ → ι → σ × Option ο} {p : σ → Prop}
    (h : Silent step p) {s : σ} {is js : List ι}
    (hp : p (runOut step s is).1) :
    p (runOut step s (is ++ js)).1 ∧
      (runOut step s (is ++ js)).2 = (runOut step s is).2 := by
  induction js using List.reverseRecOn with
  | nil => simpa using hp
  | append_singleton js j ih =>
      obtain ⟨hin, hout⟩ := h _ j ih.1
      rw [← List.append_assoc, runOut_snoc]
      exact ⟨hin, by rw [hout, ih.2]; simp⟩

/-! ## Partial steps and guarded reachability -/

/-- Run a partial step over a list of events, stopping at the first refusal. -/
def exec (step : σ → ε → Option σ) (s : σ) : List ε → Option σ
  | [] => some s
  | e :: es => (step s e).bind fun s' => exec step s' es

/-- `Reach step ok s₀ es s`: the events `es` lead from `s₀` to `s`, and each of
them met `ok` in the state in which it was taken. -/
inductive Reach (step : σ → ε → Option σ) (ok : σ → ε → Prop) (s₀ : σ) :
    List ε → σ → Prop
  | refl : Reach step ok s₀ [] s₀
  | snoc {es : List ε} {s s' : σ} {e : ε} :
      Reach step ok s₀ es s → ok s e → step s e = some s' →
      Reach step ok s₀ (es ++ [e]) s'

variable {step : σ → ε → Option σ} {ok : σ → ε → Prop} {s₀ s : σ} {es : List ε}

/-- The invariant rule: what one admissible step preserves holds in every
state of an admissible run. -/
theorem Reach.invariant (Inv : σ → Prop) (h : Reach step ok s₀ es s)
    (init : Inv s₀)
    (pres : ∀ {s e s'}, ok s e → step s e = some s' → Inv s → Inv s') :
    Inv s := by
  induction h with
  | refl => exact init
  | snoc _ hok hstep ih => exact pres hok hstep ih

/-- Two runs that meet compose. -/
theorem Reach.trans {s' : σ} {es' : List ε} (h : Reach step ok s₀ es s)
    (h' : Reach step ok s es' s') : Reach step ok s₀ (es ++ es') s' := by
  induction h' with
  | refl => simpa using h
  | snoc _ hok hstep ih =>
      rw [← List.append_assoc]
      exact ih.snoc hok hstep

/-- A run that executes, with the guard checked at every step, is a guarded
run. -/
theorem reach_of_exec [∀ s e, Decidable (ok s e)] : ∀ {es : List ε} {s₀ : σ},
    exec (fun s e => if ok s e then step s e else none) s₀ es = some s →
      Reach step ok s₀ es s
  | [], s₀, h => by
      obtain rfl : s₀ = s := by simpa [exec] using h
      exact .refl
  | e :: es, s₀, h => by
      obtain ⟨s₁, h₁, h₂⟩ := Option.bind_eq_some_iff.mp h
      obtain ⟨hok, h₁⟩ := Option.ite_none_right_eq_some.mp h₁
      have first : Reach step ok s₀ [e] s₁ := Reach.refl.snoc hok h₁
      simpa using first.trans (reach_of_exec h₂)

/-! ## Computations that can fail -/

/-- A sequence of computations returns exactly when all of them do. -/
theorem bind_eq_ok {α β : Type} {x : Except ε α} {f : α → Except ε β} {b : β} :
    x >>= f = .ok b ↔ ∃ a, x = .ok a ∧ f a = .ok b := by
  cases x with
  | error e => exact iff_of_false (fun h => nomatch h) fun ⟨_, h, _⟩ => nomatch h
  | ok a =>
      constructor
      · exact fun h => ⟨a, rfl, h⟩
      · rintro ⟨_, ha, h⟩
        cases ha
        exact h

end Xenon.Foundation

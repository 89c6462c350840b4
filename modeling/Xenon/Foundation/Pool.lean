import Mathlib.Data.List.Perm.Basic
import Xenon.Foundation.Run

/-!
# Pools of tasks over a shared state

Concurrent code that runs on an executor is a bag of *tasks*, each of them the
rest of some activity up to its next atomic section, over one shared state. An
event fires one task of the bag with an answer of the environment, or brings an
input from outside; the task is replaced by the tasks that follow it. Which
task is fired next is open, so the runs of a pool are all interleavings.

Invariants of a pool do not depend on the order of the bag: the rule
(`Machine.invariant`) lets a proof put the fired task in front.

A machine can be made to keep a history of what it does (`Machine.record`), which
none of its tasks reads.
-/

namespace Xenon.Foundation

variable {σ τ ι κ : Type*}

/-- A shared state and the tasks that are still to run. -/
structure Pool (σ τ : Type*) where
  shared : σ
  tasks : List τ

/-- An input from outside, or the firing of the `n`-th task with an answer. -/
inductive PoolEvent (ι κ : Type*) where
  | input (i : ι)
  | fire (n : Nat) (k : κ)

/-- What inputs and tasks do: the new shared state and the tasks to add. A task
may refuse an answer. -/
structure Machine (σ τ ι κ : Type*) where
  input : σ → ι → σ × List τ
  fire : σ → τ → κ → Option (σ × List τ)

namespace Machine

variable (M : Machine σ τ ι κ)

def step (p : Pool σ τ) : PoolEvent ι κ → Option (Pool σ τ)
  | .input i => some ⟨(M.input p.shared i).1, (M.input p.shared i).2 ++ p.tasks⟩
  | .fire n k =>
      p.tasks[n]?.bind fun t =>
        (M.fire p.shared t k).map fun r => ⟨r.1, r.2 ++ p.tasks.eraseIdx n⟩

/-- The guard of a run: every task that is fired meets `ok` in the shared state
it finds. Inputs are not restricted. -/
def Admits (ok : σ → τ → κ → Prop) (p : Pool σ τ) : PoolEvent ι κ → Prop
  | .input _ => True
  | .fire n k => ∀ t ∈ p.tasks[n]?, ok p.shared t k

instance {ok : σ → τ → κ → Prop} [∀ s t k, Decidable (ok s t k)] (p : Pool σ τ) :
    ∀ e : PoolEvent ι κ, Decidable (Admits ok p e)
  | .input _ => inferInstanceAs (Decidable True)
  | .fire n k => inferInstanceAs (Decidable (∀ t ∈ p.tasks[n]?, ok p.shared t k))

/-- The pools that a run from `p₀` with guarded firings reaches. -/
def Reaches (ok : σ → τ → κ → Prop) (p₀ p : Pool σ τ) : Prop :=
  ∃ es, Reach M.step (Admits ok) p₀ es p

variable {M} {p p' p₀ : Pool σ τ} {e : PoolEvent ι κ} {ok : σ → τ → κ → Prop}

/-- The fired task can be put in front of the others. -/
theorem perm_eraseIdx {ts : List τ} {n : Nat} {t : τ} (h : ts[n]? = some t) :
    ts.Perm (t :: ts.eraseIdx n) := by
  obtain ⟨hn, rfl⟩ := List.getElem?_eq_some_iff.mp h
  exact (List.getElem_cons_eraseIdx_perm hn).symm

/-- What one event can do to a pool. -/
theorem step_cases (h : M.step p e = some p') :
    (∃ i, e = .input i ∧
      p' = ⟨(M.input p.shared i).1, (M.input p.shared i).2 ++ p.tasks⟩) ∨
    ∃ n k t r rest, e = .fire n k ∧ p.tasks[n]? = some t ∧
      p.tasks.Perm (t :: rest) ∧ M.fire p.shared t k = some r ∧
      p' = ⟨r.1, r.2 ++ rest⟩ := by
  cases e with
  | input i =>
      exact Or.inl ⟨i, rfl, (Option.some.inj h).symm⟩
  | fire n k =>
      obtain ⟨t, ht, h⟩ := Option.bind_eq_some_iff.mp h
      obtain ⟨r, hr, rfl⟩ := Option.map_eq_some_iff.mp h
      exact Or.inr ⟨n, k, t, r, _, rfl, ht, perm_eraseIdx ht, hr, rfl⟩

/-- The invariant rule for pools whose runs are guarded as a whole: a property
that does not depend on the order of the tasks, is kept by every admissible input
and by every admissible firing of the first task, holds at the end of a run. -/
theorem reach_invariant (Inv : σ → List τ → Prop) {guard : Pool σ τ → PoolEvent ι κ → Prop}
    {es : List (PoolEvent ι κ)} (h : Reach M.step guard p₀ es p)
    (perm : ∀ {s ts ts'}, ts.Perm ts' → Inv s ts → Inv s ts')
    (init : Inv p₀.shared p₀.tasks)
    (input : ∀ {s ts i}, guard ⟨s, ts⟩ (.input i) → Inv s ts →
      Inv (M.input s i).1 ((M.input s i).2 ++ ts))
    (fire : ∀ {s ts n t rest k r}, guard ⟨s, ts⟩ (.fire n k) → ts[n]? = some t →
      ts.Perm (t :: rest) → M.fire s t k = some r → Inv s (t :: rest) →
        Inv r.1 (r.2 ++ rest)) :
    Inv p.shared p.tasks := by
  refine h.invariant (fun p => Inv p.shared p.tasks) init ?_
  intro p e p' hok hstep hinv
  rcases step_cases hstep with ⟨i, rfl, rfl⟩ | ⟨n, k, t, r, rest, rfl, ht, hperm, hr, rfl⟩
  · exact input hok hinv
  · exact fire hok ht hperm hr (perm hperm hinv)

/-- The invariant rule for runs in which only the firings are guarded. -/
theorem invariant (Inv : σ → List τ → Prop) (h : M.Reaches ok p₀ p)
    (perm : ∀ {s ts ts'}, ts.Perm ts' → Inv s ts → Inv s ts')
    (init : Inv p₀.shared p₀.tasks)
    (input : ∀ {s ts} i, Inv s ts → Inv (M.input s i).1 ((M.input s i).2 ++ ts))
    (fire : ∀ {s t ts k r}, ok s t k → M.fire s t k = some r →
      Inv s (t :: ts) → Inv r.1 (r.2 ++ ts)) :
    Inv p.shared p.tasks := by
  obtain ⟨es, h⟩ := h
  apply reach_invariant Inv h perm init
  case input =>
    intro s ts i _ hinv
    exact input i hinv
  case fire =>
    intro s ts n t rest k r hok ht _ hr hinv
    exact fire (hok t ht) hr hinv

/-- Runs compose. -/
theorem Reaches.trans (h : M.Reaches ok p₀ p) (h' : M.Reaches ok p p') :
    M.Reaches ok p₀ p' := by
  obtain ⟨es, h⟩ := h
  obtain ⟨es', h'⟩ := h'
  exact ⟨_, h.trans h'⟩

/-- A run goes on with the firing of one task. -/
theorem Reaches.fire {s : σ} {ts : List τ} (h : M.Reaches ok p₀ ⟨s, ts⟩) (n : Nat) (k : κ)
    {t : τ} {r : σ × List τ} (ht : ts[n]? = some t) (hok : ok s t k)
    (hr : M.fire s t k = some r) : M.Reaches ok p₀ ⟨r.1, r.2 ++ ts.eraseIdx n⟩ := by
  obtain ⟨es, h⟩ := h
  refine ⟨es ++ [.fire n k], h.snoc ?_ ?_⟩
  · intro t' ht'
    obtain rfl : t = t' := Option.some.inj (ht.symm.trans ht')
    exact hok
  · simp [step, ht, hr]

/-- Where runs are bounded and every task can be fired, some run ends. -/
theorem exists_done (bound : Nat)
    (hbound : ∀ es p, Reach M.step (Admits ok) p₀ es p → es.length ≤ bound)
    (hfire : ∀ s t, ∃ k r, ok s t k ∧ M.fire s t k = some r) :
    ∃ es p, Reach M.step (Admits ok) p₀ es p ∧ p.tasks = [] := by
  by_contra hnone
  have hlong : ∀ n, ∃ es p, Reach M.step (Admits ok) p₀ es p ∧ es.length = n := by
    intro n
    induction n with
    | zero => exact ⟨[], p₀, .refl, rfl⟩
    | succ n ih =>
        obtain ⟨es, ⟨s, ts⟩, hreach, hlength⟩ := ih
        cases ts with
        | nil => exact absurd ⟨es, _, hreach, rfl⟩ hnone
        | cons t ts =>
            obtain ⟨k, r, hok, hr⟩ := hfire s t
            refine ⟨es ++ [.fire 0 k], ⟨r.1, r.2 ++ ts⟩, hreach.snoc ?_ ?_, ?_⟩
            · intro t' ht'
              obtain rfl : t = t' := Option.some.inj ht'
              exact hok
            · simp [step, hr]
            · rw [List.length_append, hlength, List.length_singleton]
  obtain ⟨es, p, hreach, hlength⟩ := hlong (bound + 1)
  have := hbound es p hreach
  omega

/-- Execute a list of events, checking the guard. -/
def exec (M : Machine σ τ ι κ) (ok : σ → τ → κ → Prop) [∀ s t k, Decidable (ok s t k)]
    (p₀ : Pool σ τ) (es : List (PoolEvent ι κ)) : Option (Pool σ τ) :=
  Foundation.exec (fun p e => if Admits ok p e then M.step p e else none) p₀ es

theorem reaches_of_exec [∀ s t k, Decidable (ok s t k)] {es : List (PoolEvent ι κ)}
    (h : M.exec ok p₀ es = some p) : M.Reaches ok p₀ p :=
  ⟨es, reach_of_exec h⟩

/-! ## Histories -/

section Histories

variable {η : Type*} (note : η → σ → τ → List τ → η)

/-- The machine with a history beside its shared state. `note` says what the
history is after a task was fired, from the shared state that the task found and
the tasks that follow it. -/
def record (M : Machine σ τ ι κ) : Machine (σ × η) τ ι κ where
  input s i := (((M.input s.1 i).1, s.2), (M.input s.1 i).2)
  fire s t k := (M.fire s.1 t k).map fun r => ((r.1, note s.2 s.1 t r.2), r.2)

/-- A pool without its history. -/
def forget (p : Pool (σ × η) τ) : Pool σ τ := ⟨p.shared.1, p.tasks⟩

variable {note}

theorem record_fire {s : σ × η} {t : τ} {k : κ} {r : (σ × η) × List τ}
    (h : (M.record note).fire s t k = some r) :
    M.fire s.1 t k = some (r.1.1, r.2) ∧ r.1.2 = note s.2 s.1 t r.2 := by
  obtain ⟨r', hr', rfl⟩ := Option.map_eq_some_iff.mp h
  exact ⟨hr', rfl⟩

theorem record_step (p : Pool (σ × η) τ) (e : PoolEvent ι κ) :
    ((M.record note).step p e).map forget = M.step (forget p) e := by
  cases e with
  | input i => rfl
  | fire n k =>
      simp only [step, forget, record]
      cases p.tasks[n]? with
      | none => rfl
      | some t =>
          simp only [Option.bind_some]
          cases M.fire p.shared.1 t k <;> rfl

/-- The machine does with a history what it does without. -/
theorem record_exec (es : List (PoolEvent ι κ)) (p : Pool (σ × η) τ) :
    (Foundation.exec (M.record note).step p es).map forget =
      Foundation.exec M.step (forget p) es := by
  induction es generalizing p with
  | nil => rfl
  | cons e es ih =>
      have hstep : ((M.record note).step p e).map forget = M.step (forget p) e :=
        record_step p e
      simp only [Foundation.exec]
      rw [← hstep]
      cases (M.record note).step p e with
      | none => rfl
      | some p' => exact ih p'

end Histories

end Machine

end Xenon.Foundation

import Mathlib.Logic.Function.Basic
import Mathlib.Data.List.Nodup

/-!
# Steps on the fields of a record

Steps that each read and write one field, and report whether they changed it. A run of steps stops
at the first failure, and reports a change if one of its steps does. Where no two steps are for one
field, each step finds its field as it was before the run.
-/

namespace Xenon.Foundation

variable {ν φ ε : Type*} [DecidableEq ν]

/-- A step on a field: whether it reports a change, or a failure, and the field after it. -/
abbrev FieldStep (φ ε : Type*) := φ → Except ε Bool × φ

/-- The step, on its field of a record. -/
def onField (name : ν) (step : FieldStep φ ε) (fields : ν → φ) : Except ε Bool × (ν → φ) :=
  let r := step (fields name)
  (r.1, Function.update fields name r.2)

/-- The steps in their order, with what was reported before. -/
def runSteps : List (ν × FieldStep φ ε) → Bool → (ν → φ) → Except ε Bool × (ν → φ)
  | [], changed, fields => (.ok changed, fields)
  | s :: steps, changed, fields =>
      match onField s.1 s.2 fields with
      | (.error e, fields) => (.error e, fields)
      | (.ok c, fields) => runSteps steps (changed || c) fields

section Run

variable {steps : List (ν × FieldStep φ ε)} {fields : ν → φ} {changed : Bool} {name : ν}

/-- A step succeeds without a change to report. -/
def Quiet (step : FieldStep φ ε) (field : φ) : Prop := (step field).1 = .ok false

/-- A field that its steps leave alone stays as it is, even if another step fails. -/
theorem runSteps_of_keeps (h : ∀ s ∈ steps, s.1 = name → (s.2 (fields name)).2 = fields name) :
    (runSteps steps changed fields).2 name = fields name := by
  induction steps generalizing changed fields with
  | nil => rfl
  | cons s steps ih =>
      obtain ⟨hs, hsteps⟩ := List.forall_mem_cons.mp h
      have hstep : (onField s.1 s.2 fields).2 name = fields name := by
        rcases eq_or_ne name s.1 with rfl | hne
        · exact (Function.update_self _ _ _).trans (hs rfl)
        · exact Function.update_of_ne hne _ _
      unfold runSteps
      cases hrun : onField s.1 s.2 fields with
      | mk r fields' =>
          rw [hrun] at hstep
          cases r with
          | error e => exact hstep
          | ok c =>
              refine (ih fun t ht hname => ?_).trans hstep
              rw [show fields' name = fields name from hstep]
              exact hsteps t ht hname

theorem runSteps_of_not_mem (h : name ∉ steps.map Prod.fst) :
    (runSteps steps changed fields).2 name = fields name :=
  runSteps_of_keeps fun s hs hname => absurd (List.mem_map.mpr ⟨s, hs, hname⟩) h

/-- The step for a field, where there is one. -/
def stepAt (steps : List (ν × FieldStep φ ε)) (name : ν) : FieldStep φ ε :=
  (steps.lookup name).getD fun field => (.ok false, field)

theorem stepAt_cons_self (s : ν × FieldStep φ ε) : stepAt (s :: steps) s.1 = s.2 := by
  cases s with
  | mk name step => simp [stepAt]

theorem stepAt_cons_of_ne {s : ν × FieldStep φ ε} (h : name ≠ s.1) :
    stepAt (s :: steps) name = stepAt steps name := by
  cases s with
  | mk other step => simp [stepAt, List.lookup_cons, beq_false_of_ne h]

theorem stepAt_of_not_mem (h : name ∉ steps.map Prod.fst) :
    stepAt steps name = fun field => (.ok false, field) := by
  induction steps with
  | nil => rfl
  | cons s steps ih =>
      rw [List.map_cons, List.mem_cons, not_or] at h
      rw [stepAt_cons_of_ne h.1, ih h.2]

theorem stepAt_of_mem (hnodup : (steps.map Prod.fst).Nodup) {s : ν × FieldStep φ ε}
    (hs : s ∈ steps) : stepAt steps s.1 = s.2 := by
  induction steps with
  | nil => cases hs
  | cons t steps ih =>
      obtain ⟨hnot, hnodup⟩ := List.nodup_cons.mp hnodup
      rcases List.mem_cons.mp hs with rfl | hs
      · exact stepAt_cons_self s
      · have hne : s.1 ≠ t.1 := fun heq => hnot (List.mem_map.mpr ⟨s, hs, heq⟩)
        rw [stepAt_cons_of_ne hne, ih hnodup hs]

/-- What holds where there is no step holds for every field if it holds at every step. -/
theorem forall_stepAt_iff (hnodup : (steps.map Prod.fst).Nodup) {P : ν → FieldStep φ ε → Prop}
    (hnone : ∀ name, P name fun field => (.ok false, field)) :
    (∀ name, P name (stepAt steps name)) ↔ ∀ s ∈ steps, P s.1 s.2 := by
  constructor
  · intro h s hs
    rw [← stepAt_of_mem hnodup hs]
    exact h s.1
  · intro h name
    by_cases hname : name ∈ steps.map Prod.fst
    · obtain ⟨s, hs, rfl⟩ := List.mem_map.mp hname
      rw [stepAt_of_mem hnodup hs]
      exact h s hs
    · rw [stepAt_of_not_mem hname]
      exact hnone name

/-- Nothing is reported exactly where no field's step has anything to report. -/
theorem runSteps_quiet_iff (hnodup : (steps.map Prod.fst).Nodup) :
    (runSteps steps changed fields).1 = .ok false ↔
      changed = false ∧ ∀ name, Quiet (stepAt steps name) (fields name) := by
  induction steps generalizing changed fields with
  | nil => simp [runSteps, stepAt, Quiet]
  | cons s steps ih =>
      obtain ⟨hnot, hnodup⟩ := List.nodup_cons.mp hnodup
      -- the later steps are for other fields, and find these as they were
      have hall : (∀ name, Quiet (stepAt (s :: steps) name) (fields name)) ↔
          Quiet s.2 (fields s.1) ∧
            ∀ name, Quiet (stepAt steps name) ((onField s.1 s.2 fields).2 name) := by
        constructor
        · intro h
          refine ⟨by simpa only [stepAt_cons_self] using h s.1, fun name => ?_⟩
          rcases eq_or_ne name s.1 with rfl | hne
          · rw [stepAt_of_not_mem hnot]
            rfl
          · rw [show (onField s.1 s.2 fields).2 name = fields name from
              Function.update_of_ne hne _ _, ← stepAt_cons_of_ne hne]
            exact h name
        · rintro ⟨hs, h⟩ name
          rcases eq_or_ne name s.1 with rfl | hne
          · rwa [stepAt_cons_self]
          · have := h name
            rw [show (onField s.1 s.2 fields).2 name = fields name from
              Function.update_of_ne hne _ _] at this
            rwa [stepAt_cons_of_ne hne]
      rw [hall]
      unfold runSteps
      cases hrun : onField s.1 s.2 fields with
      | mk r fields' =>
          have hr : (s.2 (fields s.1)).1 = r := congrArg Prod.fst hrun
          cases r with
          | error e => simp [Quiet, hr]
          | ok c =>
              show (runSteps steps (changed || c) fields').1 = .ok false ↔ _
              rw [ih hnodup, Bool.or_eq_false_iff, Quiet, hr, Except.ok.injEq, and_assoc]

/-- After a run that succeeds, each field is what its step makes of it. -/
theorem runSteps_fields (hnodup : (steps.map Prod.fst).Nodup)
    (hok : ∃ c, (runSteps steps changed fields).1 = .ok c) (name : ν) :
    (runSteps steps changed fields).2 name = (stepAt steps name (fields name)).2 := by
  induction steps generalizing changed fields with
  | nil => rfl
  | cons s steps ih =>
      obtain ⟨hnot, hnodup⟩ := List.nodup_cons.mp hnodup
      unfold runSteps at hok ⊢
      cases hrun : onField s.1 s.2 fields with
      | mk r fields' =>
          have hfields : fields' = Function.update fields s.1 (s.2 (fields s.1)).2 :=
            (congrArg Prod.snd hrun).symm
          rw [hrun] at hok
          cases r with
          | error e =>
              obtain ⟨c, hc⟩ := hok
              cases hc
          | ok c =>
              show (runSteps steps (changed || c) fields').2 name = _
              rw [ih hnodup hok, hfields]
              rcases eq_or_ne name s.1 with rfl | hne
              · rw [stepAt_of_not_mem hnot, stepAt_cons_self, Function.update_self]
              · rw [stepAt_cons_of_ne hne, Function.update_of_ne hne]

/-- A second run goes on where the first one ends, if it does not fail. -/
def runBoth (first second : List (ν × FieldStep φ ε)) (fields : ν → φ) :
    Except ε Bool × (ν → φ) :=
  match runSteps first false fields with
  | (.error e, fields) => (.error e, fields)
  | (.ok changed, fields) => runSteps second changed fields

variable {first second : List (ν × FieldStep φ ε)}

theorem runBoth_of_not_mem (hfirst : name ∉ first.map Prod.fst)
    (hsecond : name ∉ second.map Prod.fst) : (runBoth first second fields).2 name = fields name := by
  have hname := @runSteps_of_not_mem _ _ _ _ _ fields false _ hfirst
  unfold runBoth
  cases hrun : runSteps first false fields with
  | mk r fields' =>
      rw [hrun] at hname
      cases r with
      | error e => exact hname
      | ok c => exact (runSteps_of_not_mem hsecond).trans hname

theorem runBoth_quiet_iff (hfirst : (first.map Prod.fst).Nodup)
    (hsecond : (second.map Prod.fst).Nodup) :
    (runBoth first second fields).1 = .ok false ↔ ∀ name,
      Quiet (stepAt first name) (fields name) ∧
        Quiet (stepAt second name) (stepAt first name (fields name)).2 := by
  have hquiet := @runSteps_quiet_iff _ _ _ _ _ fields false hfirst
  have hfields := @runSteps_fields _ _ _ _ _ fields false hfirst
  rw [forall_and]
  unfold runBoth
  cases hrun : runSteps first false fields with
  | mk r fields' =>
      rw [hrun] at hquiet hfields
      cases r with
      | error e =>
          refine iff_of_false nofun fun h => ?_
          cases hquiet.mpr ⟨rfl, h.1⟩
      | ok c =>
          show (runSteps second c fields').1 = .ok false ↔ _
          rw [runSteps_quiet_iff hsecond, ← Except.ok.injEq (ε := ε), hquiet]
          refine and_congr (and_iff_right rfl) (forall_congr' fun name => ?_)
          rw [show fields' name = _ from hfields ⟨c, rfl⟩ name]

theorem runBoth_fields (hfirst : (first.map Prod.fst).Nodup)
    (hsecond : (second.map Prod.fst).Nodup) (hok : ∃ c, (runBoth first second fields).1 = .ok c)
    (name : ν) :
    (runBoth first second fields).2 name =
      (stepAt second name (stepAt first name (fields name)).2).2 := by
  have hfields := @runSteps_fields _ _ _ _ _ fields false hfirst
  unfold runBoth at hok ⊢
  cases hrun : runSteps first false fields with
  | mk r fields' =>
      rw [hrun] at hok hfields
      cases r with
      | error e =>
          obtain ⟨c, hc⟩ := hok
          cases hc
      | ok c =>
          show (runSteps second c fields').2 name = _
          rw [runSteps_fields hsecond hok, show fields' name = _ from hfields ⟨c, rfl⟩ name]

end Run

end Xenon.Foundation

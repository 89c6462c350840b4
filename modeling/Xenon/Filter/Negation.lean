import Xenon.Filter.Evaluator

/-!
# Negated terms

A negated term is checked by the same recursion over the description of a property as the term
itself. Most of its exits take the negation into account. Three do not: a collection that is not
named with its suffix, a collection of something other than strings, and a type that terms do not
reach.
-/

namespace Xenon.Filter

open Xenon.QueryTask

/-- The check of a term ends at an exit that takes the negation into account. -/
def Supported (o : Value) (pd : PropertyDescription) (parts : List String) : Prop :=
  match pd.typeName with
  | .string | .long | .double => True
  | .collection =>
      match o, parts with
      | .collection _ _, part :: _ =>
          part = "item" ∧ ∀ element ∈ pd.elementDescription, element.typeName = .string
      | _, _ => True
  | .map =>
      match o, parts with
      | .map get _, key :: parts =>
          match pd.elementDescription with
          | none => True
          | some element => Supported (get key) element parts
      | _, _ => True
  | .podo =>
      match parts with
      | [] => True
      | name :: parts =>
          match pd.fieldDescriptions with
          | none => True
          | some fields =>
              match fields name with
              | none => True
              | some fd => Supported (getPropertyValue fd o) fd parts
  | _ => False
termination_by structural parts

/-- The property of a term and its description end at such an exit, if there is a description. -/
def SupportedTerm (d : Described) (t : QueryTerm) : Prop :=
  match Term.propertyParts ⟨t, false⟩ with
  | [] => True
  | name :: parts =>
      ∀ pd ∈ d.propertyDescriptions name, Supported (getPropertyValue pd d.document) pd parts

/-- The negated term is true exactly where the term is false. -/
def Complements (negated plain : Except Failure Bool) : Prop :=
  negated = .ok true ↔ plain = .ok false

theorem complements_xor (x : Except Failure Bool) :
    Complements (do return (← x) ^^ true) (do return (← x) ^^ false) := by
  unfold Complements
  cases x with
  | error e => exact iff_of_false nofun nofun
  | ok b => cases b <;> decide

theorem complements_ok : Complements (.ok true) (.ok false) :=
  iff_of_true rfl rfl

theorem complements_error (e : Failure) : Complements (.error e) (.error e) :=
  iff_of_false nofun nofun

theorem not_complements_false : ¬ Complements (.ok false) (.ok false) := by
  intro h
  exact nomatch h.mpr rfl

variable {t : QueryTerm}

/-- Each exit of the recursion; the recursive calls are those of a map and of an object. -/
theorem evaluateTerm_complements_iff (o : Value) (pd : PropertyDescription)
    (parts : List String) :
    Complements (evaluateTerm ⟨t, true⟩ o pd parts) (evaluateTerm ⟨t, false⟩ o pd parts) ↔
      Supported o pd parts := by
  -- the induction is on the parts of the name; a map and a nested document take one each
  induction parts generalizing o pd with
  | nil =>
      unfold evaluateTerm Supported
      cases pd.typeName with
      | string =>
          cases o with
          | null | string => exact iff_of_true (complements_xor _) trivial
          | _ => exact iff_of_true complements_ok trivial
      | long | double =>
          cases o with
          | number => exact iff_of_true (complements_xor _) trivial
          | _ => exact iff_of_true complements_ok trivial
      | collection | map => cases o <;> exact iff_of_true complements_ok trivial
      | podo => exact iff_of_true complements_ok trivial
      | _ => exact iff_of_false not_complements_false id
  | cons part parts ih =>
      unfold evaluateTerm Supported
      cases pd.typeName with
      | string =>
          cases o with
          | null | string => exact iff_of_true (complements_xor _) trivial
          | _ => exact iff_of_true complements_ok trivial
      | long | double =>
          cases o with
          | number => exact iff_of_true (complements_xor _) trivial
          | _ => exact iff_of_true complements_ok trivial
      | collection =>
          cases o with
          | collection items text =>
              dsimp only
              split_ifs with hsuffix
              · exact iff_of_false not_complements_false fun h => hsuffix h.1
              · rw [ne_eq, not_not] at hsuffix
                cases pd.elementDescription with
                | none => exact iff_of_true (complements_error _) ⟨hsuffix, nofun⟩
                | some element =>
                    dsimp only
                    split_ifs with hstring
                    · refine iff_of_true (complements_xor _) ⟨hsuffix, ?_⟩
                      rintro _ ⟨⟩
                      exact hstring
                    · exact iff_of_false not_complements_false fun h => hstring (h.2 element rfl)
          | _ => exact iff_of_true complements_ok trivial
      | map =>
          cases o with
          | map get text =>
              cases pd.elementDescription with
              | none => exact iff_of_true (complements_error _) trivial
              | some element => exact ih (get part) element
          | _ => exact iff_of_true complements_ok trivial
      | podo =>
          cases pd.fieldDescriptions with
          | none => exact iff_of_true (complements_error _) trivial
          | some fields =>
              dsimp only
              cases fields part with
              | none => exact iff_of_true complements_ok trivial
              | some fd => exact ih (getPropertyValue fd o) fd
      | _ => exact iff_of_false not_complements_false id

theorem checkTerms_singleton (d : Described) (u : Term QueryTerm) :
    checkTerms d [u] = checkTerm d u := by
  rw [checkTerms]
  cases checkTerm d u with
  | error e => rfl
  | ok b => cases b <;> rfl

/-- `ConjunctionEvaluator` finds a negated term true exactly where it finds the term false, if and
only if the term ends at an exit that takes the negation into account. -/
theorem negated_complements_iff (d : Described) (t : QueryTerm) :
    Complements (checkTerms d [⟨t, true⟩]) (checkTerms d [⟨t, false⟩]) ↔ SupportedTerm d t := by
  rw [checkTerms_singleton, checkTerms_singleton]
  unfold checkTerm SupportedTerm
  have hparts : Term.propertyParts ⟨t, true⟩ = Term.propertyParts ⟨t, false⟩ := rfl
  rw [hparts]
  cases Term.propertyParts ⟨t, false⟩ with
  | nil => exact iff_of_true (complements_error _) trivial
  | cons name parts =>
      dsimp only
      cases d.propertyDescriptions name with
      | none => exact iff_of_true complements_ok nofun
      | some pd =>
          dsimp only
          rw [evaluateTerm_complements_iff]
          constructor
          · rintro h _ ⟨⟩
            exact h
          · intro h
            exact h pd rfl

/-- A document with one property, a boolean. -/
def enabledDocument : Described where
  document := .podo (fun _ => .boolean true) "{}"
  propertyDescriptions name :=
    if name = "enabled" then some (.mk .boolean "enabled" none none) else none

/-- Neither the term nor its negation is found true. -/
theorem boolean_not_complemented : ¬ ∀ (d : Described) (t : QueryTerm),
    Complements (checkTerms d [⟨t, true⟩]) (checkTerms d [⟨t, false⟩]) := by
  intro h
  have hboth : ∀ negate, checkTerms enabledDocument
      [⟨⟨some "enabled", some "true", some .term, none⟩, negate⟩] = .ok false := by
    intro negate
    have hparts : Term.propertyParts
        ⟨⟨some "enabled", some "true", some .term, none⟩, negate⟩ = ["enabled"] := by
      simp [Term.propertyParts, Term.name, splitAt]
    rw [checkTerms_singleton, checkTerm, hparts]
    rfl
  have hterm := h enabledDocument ⟨some "enabled", some "true", some .term, none⟩
  rw [hboth, hboth] at hterm
  exact not_complements_false hterm

end Xenon.Filter

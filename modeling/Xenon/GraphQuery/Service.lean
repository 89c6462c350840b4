import Mathlib.Data.Finset.Basic
import Xenon.Foundation.Run
import Xenon.QueryTask.Query

/-!
# `GraphQueryTaskService`

A graph query runs one query for each stage. The links that are selected from the documents of a
stage lead to the documents of the next one. The traversal ends at the last stage, or at a stage
without documents or without links; the stages after it have no results.
-/

namespace Xenon.GraphQuery

open Xenon.Foundation
open Xenon.QueryTask (Failure)

/-- `ServiceDocumentQueryResult`, less what a graph query does not read. A map is a list of its
entries. -/
structure Results where
  documentLinks : List String
  documents : Option (List (String × String))
  selectedLinks : Option (Finset String)
  selectedLinksPerDocument : Option (List (String × List (String × String)))
  documentCount : Option Int
  nextPageLink : Option String
deriving DecidableEq

/-- `GraphQueryTask`, with the results of its stages. -/
structure GraphQueryTask where
  useLinkTerm : Bool
  filterStageResults : Bool
  stages : List (Option Results)
  currentDepth : ℕ
  depthLimit : ℕ
deriving DecidableEq

/-- `hasInlineResults`. -/
def hasInlineResults (useLinkTerm : Bool) (results : Option Results) : Bool :=
  match results with
  | none => false
  | some r =>
      r.documentCount.any (0 < ·) && (useLinkTerm || r.selectedLinks.any (· ≠ ∅))

/-- `validateStartPost`, less the checks of the query specifications. -/
def validateStartPost (task : GraphQueryTask) : Bool :=
  task.currentDepth = 0 && 2 ≤ task.depthLimit && task.stages.length = task.depthLimit &&
    match task.stages.head?.join with
    | none => true
    | some r => r.nextPageLink.isSome || hasInlineResults task.useLinkTerm (some r)

/-- `initializeState`: only the first stage may have results. -/
def initializeState (task : GraphQueryTask) : GraphQueryTask :=
  { task with
    stages := task.stages.head?.toList ++ task.stages.tail.map fun _ => none
    currentDepth := if hasInlineResults task.useLinkTerm task.stages.head?.join then 1 else 0 }

/-- `checkAndPatchToFinished`: whether the traversal ends. -/
def endsTraversal (task : GraphQueryTask) (lastResults : Results) : Bool :=
  task.depthLimit - 1 < task.currentDepth ||
    (lastResults.documentCount = none || lastResults.documentCount = some 0) ||
    ((lastResults.selectedLinks = none || lastResults.selectedLinks = some ∅) &&
      task.currentDepth < task.depthLimit - 1)

/-- The part of `handleQueryStageCompletion` before the check. -/
def associateResults (task : GraphQueryTask) (response : Results) : GraphQueryTask :=
  { task with
    stages := task.stages.set (min (task.stages.length - 1) task.currentDepth) (some response)
    currentDepth := task.currentDepth + 1 }

/-! ## The filter -/

/-- The keys that are removed from a map. -/
def removeKeys {α : Type} (keys : List String) (m : List (String × α)) : List (String × α) :=
  m.filter fun e => e.1 ∉ keys

/-- The body of the loop of `applyFilterOnStageResults`. -/
def filterStage (previous current : Results) : Except Failure Results :=
  match previous.selectedLinksPerDocument, previous.selectedLinks with
  | some perDocument, some selectedLinks =>
      let unusedLinks := (perDocument.flatMap fun e => e.2.map (·.2)).filter
        (· ∉ current.documentLinks)
      let unusedDocumentLinks := (perDocument.filter fun e =>
        (e.2.filter fun l => l.2 ∉ current.documentLinks).length = e.2.length).map (·.1)
      let documentLinks := previous.documentLinks.filter (· ∉ unusedDocumentLinks)
      .ok { previous with
        documents := previous.documents.map (removeKeys unusedDocumentLinks)
        documentLinks
        selectedLinks := some (selectedLinks.filter (· ∉ unusedLinks))
        selectedLinksPerDocument := some (removeKeys unusedDocumentLinks perDocument)
        documentCount := some (documentLinks.length : Int) }
  | _, _ => .error .nullPointer

/-- The loop of `applyFilterOnStageResults`, from the stage `i` down. -/
def applyFilterFrom (stages : List (Option Results)) : ℕ → Except Failure (List (Option Results))
  | 0 => .ok stages
  | i + 1 =>
      match stages[i + 1]?, stages[i]? with
      | some (some current), some (some previous) => do
          applyFilterFrom (stages.set i (some (← filterStage previous current))) i
      | _, _ => .ok stages

/-- `applyFilterOnStageResults`. -/
def applyFilterOnStageResults (stages : List (Option Results)) :
    Except Failure (List (Option Results)) := applyFilterFrom stages (stages.length - 1)

/-- `finishTask`: the stages of the patch to `FINISHED`. -/
def finishTask (task : GraphQueryTask) : Except Failure (List (Option Results)) :=
  if !task.useLinkTerm && task.filterStageResults then applyFilterOnStageResults task.stages
  else .ok task.stages

/-! ## Runs -/

/-- A task, and whether its traversal has ended. -/
structure Traversal where
  task : GraphQueryTask
  ended : Bool
deriving DecidableEq

def start (task : GraphQueryTask) : Traversal := ⟨initializeState task, false⟩

/-- The results of the query for a stage, or of the first page of the results that a task came
with. A page without links fails the task. -/
def step (t : Traversal) (response : Results) : Option Traversal :=
  if t.ended then none
  else if t.task.currentDepth = 0 ∧ t.task.stages.head?.join ≠ none ∧
      (response.selectedLinks = none ∨ response.selectedLinks = some ∅) then none
  else
    let task := associateResults t.task response
    some ⟨task, endsTraversal task response⟩

/-! ## What a query returns -/

/-- The results of a query that selects links: every document has an entry, maybe without a link,
and the selected links are those of the entries. A query that finds nothing leaves them out. -/
structure Results.Selects (r : Results) : Prop where
  count : r.documentCount = some (r.documentLinks.length : Int)
  nothing : r.selectedLinksPerDocument = none ∨ r.selectedLinks = none → r.documentLinks = []
  entries : ∀ m ∈ r.selectedLinksPerDocument,
    (m.map (·.1)).Nodup ∧ ∀ link, link ∈ r.documentLinks ↔ link ∈ m.map (·.1)
  selected : ∀ m ∈ r.selectedLinksPerDocument, ∀ s ∈ r.selectedLinks, ∀ link,
    link ∈ s ↔ ∃ e ∈ m, ∃ l ∈ e.2, l.2 = link

/-- The results for the documents that a query finds, with the values of their link terms. -/
def Results.ofRows (rows : List (String × List (String × String))) : Results where
  documentLinks := rows.map (·.1)
  documents := none
  selectedLinks := if rows = [] then none else some (rows.flatMap fun e => e.2.map (·.2)).toFinset
  selectedLinksPerDocument := if rows = [] then none else some rows
  documentCount := some (rows.length : Int)
  nextPageLink := none

theorem selects_ofRows {rows : List (String × List (String × String))}
    (h : (rows.map (·.1)).Nodup) : (Results.ofRows rows).Selects := by
  unfold Results.ofRows
  constructor
  · rw [List.length_map]
  · intro hnone
    have hrows : rows = [] := by
      by_contra hne
      rw [if_neg hne, if_neg hne] at hnone
      rcases hnone with hnone | hnone <;> cases hnone
    rw [hrows]
    rfl
  · intro m hm
    split_ifs at hm with hrows
    · cases hm
    · cases hm
      exact ⟨h, fun _ => Iff.rfl⟩
  · intro m hm s hs link
    split_ifs at hm hs with hrows
    · cases hm
    · cases hm
      cases hs
      simp only [List.mem_toFinset, List.mem_flatMap, List.mem_map]

/-! ## Stages of a traversal -/

/-- A stage before the last one has the results of a query that selects links. -/
def Returned (t : Traversal) (response : Results) : Prop :=
  t.task.currentDepth + 1 < t.task.depthLimit → response.Selects

/-- The stages up to the current depth have results, those after it have none. A stage that another
one follows has documents. -/
structure Inv (t : Traversal) : Prop where
  length : t.task.stages.length = t.task.depthLimit
  pos : 2 ≤ t.task.depthLimit
  depth : t.task.currentDepth ≤ t.task.depthLimit
  running : t.ended = false → t.task.currentDepth < t.task.depthLimit
  done : ∀ i < t.task.currentDepth, ∃ r, t.task.stages[i]? = some (some r)
  todo : ∀ i, t.task.currentDepth ≤ i → 1 ≤ i → i < t.task.depthLimit →
    t.task.stages[i]? = some none
  selects : ∀ i r, t.task.stages[i]? = some (some r) → i < t.task.currentDepth →
    i + 1 < t.task.depthLimit → r.Selects
  continued : ∀ i r, t.task.stages[i]? = some (some r) → i < t.task.currentDepth →
    (t.ended = true → i + 1 < t.task.currentDepth) → r.documentLinks ≠ []

/-- A task that may be started: the results that it comes with are those of a query. -/
structure Startable (task : GraphQueryTask) : Prop where
  valid : validateStartPost task = true
  inline : ∀ r, task.stages.head?.join = some r → hasInlineResults task.useLinkTerm (some r) = true →
    r.Selects

theorem documentLinks_ne_nil_of_inline {useLinkTerm : Bool} {r : Results}
    (hselects : r.Selects) (h : hasInlineResults useLinkTerm (some r) = true) :
    r.documentLinks ≠ [] := by
  intro hnil
  rw [hasInlineResults, hselects.count, hnil] at h
  cases h

theorem stages_initializeState {task : GraphQueryTask} {first : Option Results}
    {later : List (Option Results)} (h : task.stages = first :: later) :
    (initializeState task).stages = first :: later.map fun _ => none := by
  rw [initializeState, h]
  rfl

theorem inv_start {task : GraphQueryTask} (h : Startable task) : Inv (start task) := by
  have hvalid := h.valid
  unfold validateStartPost at hvalid
  simp only [Bool.and_eq_true, decide_eq_true_eq] at hvalid
  obtain ⟨⟨⟨-, hpos⟩, hlength⟩, -⟩ := hvalid
  obtain ⟨first, later, hstages⟩ : ∃ first later, task.stages = first :: later := by
    cases hs : task.stages with
    | nil =>
        rw [hs, List.length_nil] at hlength
        omega
    | cons first later => exact ⟨first, later, rfl⟩
  have hinit := stages_initializeState hstages
  have hlater : ∀ i, 1 ≤ i → i < task.depthLimit →
      (initializeState task).stages[i]? = some none := by
    intro i hi hlt
    rw [hinit]
    cases i with
    | zero => omega
    | succ i =>
        rw [hstages, List.length_cons] at hlength
        rw [List.getElem?_cons_succ, List.getElem?_map, List.getElem?_eq_getElem (by omega)]
        rfl
  have hfirst : (initializeState task).stages[0]? = some first := by
    rw [hinit]
    rfl
  have hjoin : task.stages.head?.join = first := by
    rw [hstages]
    rfl
  have hdepth : (initializeState task).currentDepth =
      if hasInlineResults task.useLinkTerm first = true then 1 else 0 := by
    rw [← hjoin]
    rfl
  -- a traversal that starts with results of the caller starts behind the first stage
  have hone : ∀ i < (initializeState task).currentDepth,
      i = 0 ∧ hasInlineResults task.useLinkTerm first = true := by
    intro i hi
    rw [hdepth] at hi
    split_ifs at hi with hinline
    · exact ⟨by omega, hinline⟩
    · omega
  constructor
  · show (initializeState task).stages.length = task.depthLimit
    rw [hinit, List.length_cons, List.length_map, ← hlength, hstages, List.length_cons]
  · exact hpos
  · show (initializeState task).currentDepth ≤ task.depthLimit
    rw [hdepth]
    split_ifs <;> omega
  · intro _
    show (initializeState task).currentDepth < task.depthLimit
    rw [hdepth]
    split_ifs <;> omega
  · intro i hi
    obtain ⟨rfl, hinline⟩ := hone i hi
    cases first with
    | none => cases hinline
    | some r => exact ⟨r, hfirst⟩
  · intro i _ hi hlt
    exact hlater i hi hlt
  · intro i r hr hi _
    obtain ⟨rfl, hinline⟩ := hone i hi
    have heq : first = some r := Option.some.inj (hfirst.symm.trans hr)
    rw [heq] at hinline hjoin
    exact h.inline r hjoin hinline
  · intro i r hr hi _
    obtain ⟨rfl, hinline⟩ := hone i hi
    have heq : first = some r := Option.some.inj (hfirst.symm.trans hr)
    rw [heq] at hinline hjoin
    exact documentLinks_ne_nil_of_inline (h.inline r hjoin hinline) hinline

/-- The stage of a response, once it has arrived. -/
theorem Inv.getElem_associateResults {t : Traversal} (h : Inv t)
    (hdepth : t.task.currentDepth < t.task.depthLimit) (response : Results) (i : ℕ) :
    (associateResults t.task response).stages[i]? =
      if i = t.task.currentDepth then some (some response) else t.task.stages[i]? := by
  have hlength := h.length
  have hindex : min (t.task.stages.length - 1) t.task.currentDepth = t.task.currentDepth := by
    omega
  show (t.task.stages.set _ (some response))[i]? = _
  rw [hindex]
  by_cases hi : i = t.task.currentDepth
  · rw [if_pos hi, hi, List.getElem?_set_self (by omega)]
  · rw [if_neg hi, List.getElem?_set_ne (Ne.symm hi)]

/-- A traversal that goes on has found documents. -/
theorem documentLinks_ne_nil_of_not_ends {task : GraphQueryTask} {response : Results}
    (hselects : response.Selects) (h : endsTraversal task response = false) :
    response.documentLinks ≠ [] := by
  intro hnil
  rw [endsTraversal, hselects.count, hnil] at h
  simp at h

theorem currentDepth_le_of_not_ends {task : GraphQueryTask} {response : Results}
    (h : endsTraversal task response = false) : task.currentDepth ≤ task.depthLimit - 1 := by
  by_contra hlt
  rw [endsTraversal, decide_eq_true (by omega)] at h
  simp at h

/-- What a response does to a traversal. -/
theorem step_eq_some {t t' : Traversal} {response : Results} (h : step t response = some t') :
    t.ended = false ∧
      t' = ⟨associateResults t.task response,
        endsTraversal (associateResults t.task response) response⟩ := by
  unfold step at h
  split_ifs at h with hended
  rw [Bool.not_eq_true] at hended
  exact ⟨hended, (Option.some.inj h).symm⟩

theorem inv_step {t t' : Traversal} {response : Results} (hreturned : Returned t response)
    (hstep : step t response = some t') (h : Inv t) : Inv t' := by
  obtain ⟨hrunning, rfl⟩ := step_eq_some hstep
  have hdepth := h.running hrunning
  have hget := h.getElem_associateResults hdepth response
  have hpos := h.pos
  constructor
  · show (t.task.stages.set _ _).length = _
    rw [List.length_set]
    exact h.length
  · exact hpos
  · exact hdepth
  · intro hnot
    have hle := currentDepth_le_of_not_ends hnot
    show t.task.currentDepth + 1 < t.task.depthLimit
    change t.task.currentDepth + 1 ≤ t.task.depthLimit - 1 at hle
    omega
  · intro i hi
    change i < t.task.currentDepth + 1 at hi
    show ∃ r, (associateResults t.task response).stages[i]? = _
    rw [hget]
    -- the stage of the response is done, those below it were
    by_cases heq : i = t.task.currentDepth
    · rw [if_pos heq]
      exact ⟨response, rfl⟩
    · rw [if_neg heq]
      exact h.done i (by omega)
  · intro i hi hone hlt
    change t.task.currentDepth + 1 ≤ i at hi
    show (associateResults t.task response).stages[i]? = _
    rw [hget, if_neg (by omega)]
    exact h.todo i (by omega) hone hlt
  · intro i r hr hi hlt
    change (associateResults t.task response).stages[i]? = _ at hr
    change i < t.task.currentDepth + 1 at hi
    rw [hget] at hr
    by_cases heq : i = t.task.currentDepth
    · rw [if_pos heq] at hr
      cases hr
      exact hreturned (heq ▸ hlt)
    · rw [if_neg heq] at hr
      exact h.selects i r hr (by omega) hlt
  · intro i r hr hi hend
    change (associateResults t.task response).stages[i]? = _ at hr
    change i < t.task.currentDepth + 1 at hi
    change _ → i + 1 < t.task.currentDepth + 1 at hend
    rw [hget] at hr
    by_cases heq : i = t.task.currentDepth
    · -- the stage of the response: another one follows only if the traversal goes on
      rw [if_pos heq] at hr
      cases hr
      have hnot : endsTraversal (associateResults t.task response) response = false := by
        rw [← Bool.not_eq_true]
        intro hends
        have hlt := hend hends
        omega
      have hle := currentDepth_le_of_not_ends hnot
      change t.task.currentDepth + 1 ≤ t.task.depthLimit - 1 at hle
      exact documentLinks_ne_nil_of_not_ends (hreturned (by omega)) hnot
    · rw [if_neg heq] at hr
      apply h.continued i r hr (by omega)
      intro hended
      rw [hrunning] at hended
      cases hended

theorem inv_of_reach {task : GraphQueryTask} (htask : Startable task) {responses : List Results}
    {t : Traversal} (h : Reach step Returned (start task) responses t) : Inv t :=
  h.invariant Inv (inv_start htask) fun hok hstep hinv => inv_step hok hstep hinv

end Xenon.GraphQuery

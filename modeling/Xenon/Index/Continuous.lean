import Xenon.Common.Operation
import Xenon.Filter.Dispatch
import Xenon.Foundation.Run

/-!
# Continuous queries

`applyActiveQueries` evaluates the filters of all active query tasks on a document
that was just indexed, or that just expired, and sends a notification to the tasks
that are concerned. `CONTINUOUS` asks for the updates that match. For
`CONTINUOUS_STOP_MATCH` the previous version is looked up in the index and
evaluated; whether the new state still matches is not looked at.
-/

namespace Xenon.Index.Continuous

open Xenon.Common Xenon.Filter Xenon.Foundation Xenon.QueryTask

/-! ## Documents and tasks -/

/-- A `ServiceDocument`: what the index service reads of it, and the fields that a filter
reads, the built in ones included. -/
structure State where
  documentSelfLink : String
  documentVersion : Int64
  fields : String → Value
  text : String

/-- `ServiceDocumentDescription`, as far as filters read it. -/
abbrev Description := String → Option PropertyDescription

/-- The state as a Java object. -/
def State.value (s : State) : Value := .podo s.fields s.text

/-- `documentUpdateAction = Action.DELETE.name()`. -/
def State.setDeleted (s : State) : State :=
  { s with fields := Function.update s.fields "documentUpdateAction" (.string Action.delete.name) }

/-- A document in the index; a state that does not deserialize is `none`. -/
structure StoredDocument where
  documentSelfLink : String
  documentVersion : Int64
  documentExpirationTimeMicros : Option Int64
  state : Option State

/-- An entry of `activeQueries`. Tasks with neither of the two options are not put there. -/
structure ActiveTask where
  documentSelfLink : String
  continuous : Bool
  continuousStopMatch : Bool
  expandContent : Bool
  count : Bool
  filter : Evaluator
  isContinuous : (continuous || continuousStopMatch) = true

/-- The self PATCH of a task. -/
structure Notification where
  task : String
  documentLinks : List String
  documents : Option (String × State)

/-- What the loop meets when it comes to a task: whether the host is stopping, what a
refreshed searcher sees, and the time. -/
structure Moment where
  isStopping : Bool
  documents : List StoredDocument
  now : Int64

/-- `getHost().buildDocumentDescription`, and the moments of the tasks. -/
structure Host where
  buildDocumentDescription : String → Option Description
  moment : String → Moment

/-! ## `applyActiveQueries` -/

/-- `getDocumentAtVersion`. -/
def getDocumentAtVersion (m : Moment) (link : String) (version : Int64) : Option State :=
  match m.documents.find? fun d => d.documentSelfLink = link ∧ d.documentVersion = version with
  | none => none
  | some d => if d.documentExpirationTimeMicros.any (· ≤ m.now) then none else d.state

/-- `getPreviousStateForDoc`; what the lookup throws is logged. -/
def getPreviousStateForDoc (m : Moment) (latestState : State) : Option State :=
  if latestState.documentVersion > 0 then
    getDocumentAtVersion m latestState.documentSelfLink (latestState.documentVersion - 1)
  else none

/-- `evaluateQuery`. Without a description the one of the host is taken; a document that has
none matches no filter. -/
def evaluateQuery (host : Host) (desc : Option Description) (filter : Evaluator)
    (serviceState : Option State) : Except Failure Bool :=
  match serviceState with
  | none => .ok false
  | some s =>
      match desc.or (host.buildDocumentDescription s.documentSelfLink) with
      | none => .ok false
      | some desc => filter.evaluate ⟨s.value, desc⟩

/-- Whether a task is to be notified. -/
def notify (host : Host) (desc : Option Description) (latestState : State) (task : ActiveTask) :
    Except Failure Bool := do
  let continuous := if task.continuous then
      evaluateQuery host desc task.filter (some latestState)
    else .ok false
  let notify ← continuous
  if !notify && task.continuousStopMatch then
    evaluateQuery host desc task.filter
      (getPreviousStateForDoc (host.moment task.documentSelfLink) latestState)
  else return notify

def createPatch (latestState : State) (task : ActiveTask) : Notification :=
  ⟨task.documentSelfLink, [latestState.documentSelfLink],
    if task.expandContent || task.count then some (latestState.documentSelfLink, latestState)
    else none⟩

/-- The loop over the active tasks. A filter that throws ends it. -/
def notifyAll (host : Host) (desc : Option Description) (latestState : State) :
    List ActiveTask → List Notification × Option Failure
  | [] => ([], none)
  | task :: tasks =>
      if (host.moment task.documentSelfLink).isStopping then notifyAll host desc latestState tasks
      else match notify host desc latestState task with
        | .error e => ([], some e)
        | .ok false => notifyAll host desc latestState tasks
        | .ok true =>
            let (notifications, failure) := notifyAll host desc latestState tasks
            (createPatch latestState task :: notifications, failure)

/-- The state that the filters see: an expired document is made up as deleted. -/
def newState (action : Action) (latestState : State) : State :=
  if action = .delete then latestState.setDeleted else latestState

/-- `activeQueries`, in the order of its entries. -/
structure ActiveQueries where
  tasks : List ActiveTask
  nodup : (tasks.map (·.documentSelfLink)).Nodup

/-- `applyActiveQueries`. -/
def applyActiveQueries (host : Host) (activeQueries : ActiveQueries) (action : Action)
    (latestState : State) (desc : Option Description) : List Notification × Option Failure :=
  notifyAll host desc (newState action latestState) activeQueries.tasks

/-! ## What a task hears of -/

section

variable {host : Host} {desc : Option Description} {c : State} {task : ActiveTask}

/-- A state matches the filter of a task. -/
def Matches (host : Host) (desc : Option Description) (task : ActiveTask) (s : Option State) :
    Prop :=
  evaluateQuery host desc task.filter s = .ok true

/-- The loop comes to the task and its filter returns: the host is not stopping, and no filter
throws on the way. -/
def Served (host : Host) (desc : Option Description) (c : State) (before : List ActiveTask)
    (task : ActiveTask) : Prop :=
  (∀ u ∈ before, (host.moment u.documentSelfLink).isStopping = false →
    ∃ b, notify host desc c u = .ok b) ∧
  (host.moment task.documentSelfLink).isStopping = false ∧ ∃ b, notify host desc c task = .ok b

/-- One pass of the loop. -/
theorem mem_notifyAll_cons {u : ActiveTask} {tasks : List ActiveTask} {n : Notification} :
    n ∈ (notifyAll host desc c (u :: tasks)).1 ↔
      (host.moment u.documentSelfLink).isStopping = true ∧ n ∈ (notifyAll host desc c tasks).1 ∨
      (host.moment u.documentSelfLink).isStopping = false ∧ ∃ b, notify host desc c u = .ok b ∧
        (b = true ∧ n = createPatch c u ∨ n ∈ (notifyAll host desc c tasks).1) := by
  rw [notifyAll]
  cases (host.moment u.documentSelfLink).isStopping with
  | true => simp
  | false =>
      cases notify host desc c u with
      | error e => simp
      | ok b => cases b <;> simp

/-- Only active tasks are notified. -/
theorem task_of_mem_notifyAll {tasks : List ActiveTask} {n : Notification}
    (h : n ∈ (notifyAll host desc c tasks).1) :
    ∃ u ∈ tasks, n.task = u.documentSelfLink := by
  induction tasks with
  | nil => cases h
  | cons u tasks ih =>
      rw [List.exists_mem_cons_iff]
      rcases mem_notifyAll_cons.mp h with ⟨-, hrest⟩ | ⟨-, b, -, ⟨-, rfl⟩ | hrest⟩
      · exact Or.inr (ih hrest)
      · exact Or.inl rfl
      · exact Or.inr (ih hrest)

/-- The pass of another task leaves it to the rest of the loop, unless its filter throws. -/
theorem exists_mem_notifyAll_other {u : ActiveTask} {tasks : List ActiveTask}
    (hne : u.documentSelfLink ≠ task.documentSelfLink) :
    (∃ n ∈ (notifyAll host desc c (u :: tasks)).1, n.task = task.documentSelfLink) ↔
      ((host.moment u.documentSelfLink).isStopping = false → ∃ b, notify host desc c u = .ok b) ∧
      ∃ n ∈ (notifyAll host desc c tasks).1, n.task = task.documentSelfLink := by
  constructor
  · rintro ⟨n, hn, htask⟩
    rcases mem_notifyAll_cons.mp hn with ⟨hstop, hrest⟩ | ⟨-, b, hb, ⟨-, rfl⟩ | hrest⟩
    · exact ⟨fun hrun => by simp [hstop] at hrun, n, hrest, htask⟩
    · exact absurd htask hne
    · exact ⟨fun _ => ⟨b, hb⟩, n, hrest, htask⟩
  · rintro ⟨hpass, n, hrest, htask⟩
    refine ⟨n, mem_notifyAll_cons.mpr ?_, htask⟩
    cases hstop : (host.moment u.documentSelfLink).isStopping with
    | true => exact Or.inl ⟨rfl, hrest⟩
    | false =>
        obtain ⟨b, hb⟩ := hpass hstop
        exact Or.inr ⟨rfl, b, hb, Or.inr hrest⟩

/-- The pass of the task itself decides, if it does not come again. -/
theorem exists_mem_notifyAll_self {tasks : List ActiveTask}
    (hnew : ∀ u ∈ tasks, u.documentSelfLink ≠ task.documentSelfLink) :
    (∃ n ∈ (notifyAll host desc c (task :: tasks)).1, n.task = task.documentSelfLink) ↔
      (host.moment task.documentSelfLink).isStopping = false ∧
      notify host desc c task = .ok true := by
  have hother : ∀ n ∈ (notifyAll host desc c tasks).1, n.task ≠ task.documentSelfLink := by
    intro n hn htask
    obtain ⟨u, hu, hlink⟩ := task_of_mem_notifyAll hn
    exact hnew u hu (hlink.symm.trans htask)
  constructor
  · rintro ⟨n, hn, htask⟩
    rcases mem_notifyAll_cons.mp hn with ⟨-, hrest⟩ | ⟨hrun, b, hb, ⟨rfl, -⟩ | hrest⟩
    · exact absurd htask (hother n hrest)
    · exact ⟨hrun, hb⟩
    · exact absurd htask (hother n hrest)
  · rintro ⟨hrun, hnotify⟩
    refine ⟨createPatch c task, mem_notifyAll_cons.mpr ?_, rfl⟩
    exact Or.inr ⟨hrun, true, hnotify, Or.inl ⟨rfl, rfl⟩⟩

/-- The loop notifies a task just if it comes to it and the filter says so. -/
theorem mem_notifyAll_iff {before after : List ActiveTask}
    (hnodup : ((before ++ task :: after).map (·.documentSelfLink)).Nodup) :
    (∃ n ∈ (notifyAll host desc c (before ++ task :: after)).1, n.task = task.documentSelfLink) ↔
      Served host desc c before task ∧ notify host desc c task = .ok true := by
  induction before with
  | nil =>
      rw [List.nil_append, List.map_cons, List.nodup_cons] at hnodup
      rw [List.nil_append, exists_mem_notifyAll_self fun u hu heq =>
        hnodup.1 (List.mem_map.mpr ⟨u, hu, heq⟩)]
      constructor
      · rintro ⟨hrun, hnotify⟩
        exact ⟨⟨by simp, hrun, true, hnotify⟩, hnotify⟩
      · rintro ⟨⟨-, hrun, -⟩, hnotify⟩
        exact ⟨hrun, hnotify⟩
  | cons u before ih =>
      rw [List.cons_append, List.map_cons, List.nodup_cons] at hnodup
      have hne : u.documentSelfLink ≠ task.documentSelfLink := by
        intro heq
        apply hnodup.1
        rw [heq]
        exact List.mem_map_of_mem (List.mem_append_right _ List.mem_cons_self)
      rw [List.cons_append, exists_mem_notifyAll_other hne, ih hnodup.2, Served, Served,
        List.forall_mem_cons]
      simp only [and_assoc]

/-- Where the filter returns: `CONTINUOUS` looks at the new state, `CONTINUOUS_STOP_MATCH` at
the version before it in the index. -/
theorem notify_iff {b : Bool} (h : notify host desc c task = .ok b) :
    b = true ↔ (task.continuous = true ∧ Matches host desc task (some c)) ∨
      (task.continuousStopMatch = true ∧ Matches host desc task
        (getPreviousStateForDoc (host.moment task.documentSelfLink) c)) := by
  unfold notify at h
  obtain ⟨first, hfirst, h⟩ := bind_eq_ok.mp h
  have hcontinuous : first = true ↔
      task.continuous = true ∧ Matches host desc task (some c) := by
    cases hc : task.continuous with
    | false =>
        simp only [hc, Bool.false_eq_true, if_false] at hfirst
        obtain rfl := Except.ok.inj hfirst
        simp
    | true =>
        simp only [hc, if_true] at hfirst
        rw [Matches, hfirst]
        simp
  rw [← hcontinuous]
  cases first with
  | true =>
      obtain rfl : true = b := Except.ok.inj h
      simp
  | false =>
      cases hs : task.continuousStopMatch with
      | false =>
          simp only [hs, Bool.and_false, Bool.false_eq_true, if_false] at h
          obtain rfl : false = b := Except.ok.inj h
          simp
      | true =>
          simp only [hs, Bool.not_false, Bool.and_self, if_true] at h
          rw [Matches, h]
          simp

end

/-! ## The law of notifications -/

/-- What the options promise for an update: `c` and `p` say that the new and the previous state
match. -/
def ShouldNotify (task : ActiveTask) (c p : Prop) : Prop :=
  match task.continuous, task.continuousStopMatch with
  | true, true => c ∨ p
  | true, false => c
  | false, true => p ∧ ¬ c
  | false, false => False

/-- What the lookup for `CONTINUOUS_STOP_MATCH` has to meet: `found` says that the previous
version in the index matches. A new state that matches is no concern of the option, but the
lookup is made for it too unless `CONTINUOUS` takes it. -/
def LookupSuffices (task : ActiveTask) (c p found : Prop) : Prop :=
  task.continuousStopMatch = true →
    (c → task.continuous = true ∨ ¬ found) ∧ (¬ c → (found ↔ p))

theorem shouldNotify_iff (task : ActiveTask) (c p found : Prop) :
    ((task.continuous = true ∧ c ∨ task.continuousStopMatch = true ∧ found) ↔
      ShouldNotify task c p) ↔ LookupSuffices task c p found := by
  have hoption := task.isContinuous
  unfold ShouldNotify LookupSuffices
  cases hc : task.continuous <;> cases hs : task.continuousStopMatch
  · rw [hc, hs] at hoption
    cases hoption
  · simp only [Bool.false_eq_true, false_and, true_and, false_or, forall_const]
    tauto
  · simp only [Bool.false_eq_true, false_and, true_and, or_false, false_imp_iff]
  · simp only [true_and, true_or, implies_true, forall_const]
    tauto

/-- A task hears of an update. -/
def Notified (host : Host) (activeQueries : ActiveQueries) (action : Action) (latestState : State)
    (desc : Option Description) (task : ActiveTask) : Prop :=
  ∃ n ∈ (applyActiveQueries host activeQueries action latestState desc).1,
    n.task = task.documentSelfLink

/-- An update from `p`, or from nothing, is notified as the options promise just if one of two
things is the case. The loop comes to the task and the lookup suffices; or it does not come to
the task, and there is nothing to be notified of. -/
theorem notified_as_promised_iff (host : Host) (activeQueries : ActiveQueries)
    (before after : List ActiveTask) (task : ActiveTask)
    (hactive : activeQueries.tasks = before ++ task :: after) (action : Action) (p : Option State)
    (latestState : State) (desc : Option Description) :
    (Notified host activeQueries action latestState desc task ↔
      ShouldNotify task (Matches host desc task (some (newState action latestState)))
        (Matches host desc task p)) ↔
    (Served host desc (newState action latestState) before task →
      LookupSuffices task (Matches host desc task (some (newState action latestState)))
        (Matches host desc task p) (Matches host desc task
          (getPreviousStateForDoc (host.moment task.documentSelfLink)
            (newState action latestState)))) ∧
    (¬ Served host desc (newState action latestState) before task →
      ¬ ShouldNotify task (Matches host desc task (some (newState action latestState)))
        (Matches host desc task p)) := by
  set c := newState action latestState
  have hnodup := activeQueries.nodup
  rw [hactive] at hnodup
  have hnotified : Notified host activeQueries action latestState desc task ↔
      Served host desc c before task ∧ notify host desc c task = .ok true := by
    unfold Notified applyActiveQueries
    rw [hactive]
    exact mem_notifyAll_iff hnodup
  rw [hnotified]
  by_cases hserved : Served host desc c before task
  · obtain ⟨b, hb⟩ := hserved.2.2
    rw [← shouldNotify_iff, ← notify_iff hb, hb, Except.ok.injEq, and_iff_right hserved]
    simp only [hserved, true_imp_iff, not_true, false_imp_iff, and_true]
  · simp only [hserved, false_and, false_iff, false_imp_iff, not_false_iff, true_imp_iff, true_and]

/-- Where the index holds the previous state, only `CONTINUOUS_STOP_MATCH` by itself goes
wrong, and just at the updates from a match to a match. -/
theorem lookupSuffices_of_found {task : ActiveTask} {c p found : Prop} (h : found ↔ p) :
    LookupSuffices task c p found ↔
      ¬ (task.continuous = false ∧ task.continuousStopMatch = true ∧ c ∧ p) := by
  unfold LookupSuffices
  cases task.continuous <;> cases task.continuousStopMatch <;> simp [h]

/-! ## A match that has not stopped -/

section

/-- A document with an author and a rating. -/
def review (version : Int64) (author rating : String) : State where
  documentSelfLink := "/reviews/1"
  documentVersion := version
  fields name := if name = "rating" then .string rating else
    if name = "author" then .string author else .null
  text := ""

def reviewDescription : Description := fun name => some (.mk .string name none none)

/-- A task that waits for documents of Jane's to become another's. -/
def untilNotJanes : ActiveTask where
  documentSelfLink := "/query-tasks/1"
  continuous := false
  continuousStopMatch := true
  expandContent := true
  count := false
  filter := .conjunction [⟨⟨some "author", some "jane", some .term, none⟩, false⟩]
  isContinuous := rfl

/-- The index after an update of Jane's document. -/
def reviews (update : State) : Host where
  buildDocumentDescription _ := some reviewDescription
  moment _ := ⟨false, [⟨"/reviews/1", 0, none, some (review 0 "jane" "good")⟩,
    ⟨"/reviews/1", 1, none, some update⟩], 1000⟩

def waiting : ActiveQueries := ⟨[untilNotJanes], by simp⟩

/-- The document becomes John's. -/
theorem notified_as_promised_johns :
    Notified (reviews (review 1 "john" "good")) waiting .patch (review 1 "john" "good")
        (some reviewDescription) untilNotJanes ↔
      ShouldNotify untilNotJanes
        (Matches (reviews (review 1 "john" "good")) (some reviewDescription) untilNotJanes
          (some (newState .patch (review 1 "john" "good"))))
        (Matches (reviews (review 1 "john" "good")) (some reviewDescription) untilNotJanes
          (some (review 0 "jane" "good"))) := by
  refine (notified_as_promised_iff (reviews (review 1 "john" "good")) waiting [] [] untilNotJanes
    rfl .patch (some (review 0 "jane" "good")) (review 1 "john" "good")
    (some reviewDescription)).mpr ⟨fun _ _ => ⟨fun hmatches => ?_, fun _ => Iff.rfl⟩,
      fun hserved => ?_⟩
  · have hjohns : evaluateQuery (reviews (review 1 "john" "good")) (some reviewDescription)
        untilNotJanes.filter (some (review 1 "john" "good")) = .ok false := rfl
    cases hjohns.symm.trans hmatches
  · exact absurd ⟨by simp, rfl, true, rfl⟩ hserved

/-- Only the rating of the document is changed: both states are Jane's, the index has the
previous one, and the task is notified of the update. -/
theorem stop_match_notifies_of_match :
    getPreviousStateForDoc
        ((reviews (review 1 "jane" "bad")).moment untilNotJanes.documentSelfLink)
        (review 1 "jane" "bad") = some (review 0 "jane" "good") ∧
    ¬ (Notified (reviews (review 1 "jane" "bad")) waiting .patch (review 1 "jane" "bad")
        (some reviewDescription) untilNotJanes ↔
      ShouldNotify untilNotJanes
        (Matches (reviews (review 1 "jane" "bad")) (some reviewDescription) untilNotJanes
          (some (newState .patch (review 1 "jane" "bad"))))
        (Matches (reviews (review 1 "jane" "bad")) (some reviewDescription) untilNotJanes
          (some (review 0 "jane" "good")))) := by
  refine ⟨rfl, fun hlaw => ?_⟩
  have hnotify : notify (reviews (review 1 "jane" "bad")) (some reviewDescription)
      (review 1 "jane" "bad") untilNotJanes = .ok true := rfl
  have hnotified : Notified (reviews (review 1 "jane" "bad")) waiting .patch
      (review 1 "jane" "bad") (some reviewDescription) untilNotJanes := by
    refine ⟨createPatch (review 1 "jane" "bad") untilNotJanes, ?_, rfl⟩
    show _ ∈ (notifyAll (reviews (review 1 "jane" "bad")) (some reviewDescription)
      (review 1 "jane" "bad") [untilNotJanes]).1
    rw [notifyAll, if_neg (by decide), hnotify]
    exact List.mem_cons_self
  exact (hlaw.mp hnotified).2 rfl

end

end Xenon.Index.Continuous

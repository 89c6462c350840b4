import Mathlib.Algebra.BigOperators.Group.List.Basic
import Xenon.Index.Continuous

/-!
# Continuous counts

A query task with `CONTINUOUS` and `COUNT` registers its filter with the index,
counts the matching documents with a query, and from then on adjusts the count by
the notifications that it gets. Both the result of the query and the notifications
are self PATCHes. The count is exact if the result of the query is applied before any
notification, and if no document is both counted by the query and notified of; the
code does not see to either.
-/

namespace Xenon.QueryTask.Count

open Xenon.Common Xenon.Foundation Xenon.Index.Continuous

/-! ## `handlePatchForContinuousQuery` -/

/-- `TaskState.TaskStage`. -/
inductive TaskStage where
  | created | started | finished | failed | cancelled
deriving DecidableEq

/-- `ContinuousResult`. -/
structure ContinuousResult where
  documentCountAdded : Int
  documentCountUpdated : Int
  documentCountDeleted : Int
deriving DecidableEq

/-- The body of a self PATCH: its stage and its `results`. -/
structure PatchBody where
  stage : TaskStage
  documentLinks : List String
  documents : Option (List State)
  documentCount : Option Int
  continuousResults : Option ContinuousResult

/-- `state.results`. The first PATCH sets the two counters if they are missing. -/
structure Results where
  documentLinks : Option (List String)
  documents : Option (List State)
  documentCount : Int
  continuousResults : ContinuousResult

/-- The state of a query task, as far as the PATCHes of a continuous query use it. -/
structure Task where
  stage : TaskStage
  count : Bool
  results : Option Results

/-- `documentUpdateAction`. -/
def updateAction (s : State) : Option String :=
  match s.fields "documentUpdateAction" with
  | .string action => some action
  | _ => none

/-- The body of the loop over the documents of a notification. -/
def adjust (r : Results) (doc : State) : Results :=
  let c := r.continuousResults
  if updateAction doc = some Action.delete.name then
    { r with documentCount := r.documentCount - 1
             continuousResults := { c with documentCountDeleted := c.documentCountDeleted + 1 } }
  else if updateAction doc = some Action.post.name ∧ doc.documentVersion = 0 then
    { r with documentCount := r.documentCount + 1
             continuousResults := { c with documentCountAdded := c.documentCountAdded + 1 } }
  else if updateAction doc = some Action.patch.name ∨
      updateAction doc = some Action.put.name then
    { r with continuousResults := { c with documentCountUpdated := c.documentCountUpdated + 1 } }
  else r

/-- An update notification, or the result of the initial query. The first PATCH is stored as it
is. -/
def applyResults (count : Bool) (results : Option Results) (body : PatchBody) : Results :=
  match results with
  | none => ⟨some body.documentLinks, body.documents, body.documentCount.getD 0,
      body.continuousResults.getD ⟨0, 0, 0⟩⟩
  | some r =>
      match body.documents with
      | some documents =>
          let r := documents.foldl adjust r
          if count then { r with documents := none, documentLinks := none } else r
      | none => { r with documentCount := r.documentCount + body.documentCount.getD 0 }

/-- `handlePatchForContinuousQuery`: the new state, and whether the query is cancelled on the
index. `none` leaves the PATCH to its caller. -/
def handlePatchForContinuousQuery (task : Task) (body : PatchBody) : Option (Task × Bool) :=
  match task.stage, body.stage with
  | .started, .created => none
  | .started, .started =>
      some ({ task with results := some (applyResults task.count task.results body) }, false)
  | .started, _ => some (task, true)
  | _, _ => none

/-! ## What a PATCH adds to the count -/

/-- What a document adds. -/
def delta (doc : State) : Int :=
  if updateAction doc = some Action.delete.name then -1
  else if updateAction doc = some Action.post.name ∧ doc.documentVersion = 0 then 1
  else 0

/-- What a PATCH that is not the first adds. -/
def PatchBody.delta (body : PatchBody) : Int :=
  match body.documents with
  | some documents => (documents.map Count.delta).sum
  | none => body.documentCount.getD 0

theorem documentCount_adjust (r : Results) (doc : State) :
    (adjust r doc).documentCount = r.documentCount + delta doc := by
  unfold adjust delta
  split_ifs <;> simp [sub_eq_add_neg]

theorem documentCount_foldl (documents : List State) (r : Results) :
    (documents.foldl adjust r).documentCount =
      r.documentCount + (documents.map delta).sum := by
  induction documents generalizing r with
  | nil => simp
  | cons doc documents ih =>
      rw [List.foldl_cons, ih, documentCount_adjust, List.map_cons, List.sum_cons, add_assoc]

theorem documentCount_applyResults {count : Bool} {r : Results} {body : PatchBody} :
    (applyResults count (some r) body).documentCount = r.documentCount + body.delta := by
  unfold applyResults PatchBody.delta
  cases body.documents with
  | none => rfl
  | some documents =>
      rw [← documentCount_foldl]
      cases count <;> rfl

/-- The first PATCH is stored: a notification adds nothing then. -/
theorem documentCount_applyResults_first {count : Bool} {body : PatchBody} :
    (applyResults count none body).documentCount = body.documentCount.getD 0 := rfl

/-! ## The index and the task -/

/-- The current state of every link in the index. -/
structure Documents where
  states : List State
  nodup : (states.map (·.documentSelfLink)).Nodup

/-- Index a state: it is the current one of its link. -/
def Documents.put (ds : Documents) (s : State) : Documents where
  states := s :: ds.states.filter fun d => d.documentSelfLink ≠ s.documentSelfLink
  nodup := by
    rw [List.map_cons, List.nodup_cons]
    constructor
    · intro h
      obtain ⟨d, hd, hlink⟩ := List.mem_map.mp h
      have := (List.mem_filter.mp hd).2
      simp [hlink] at this
    · exact ds.nodup.sublist (List.filter_sublist.map _)

/-- A continuous count: its task, the host, and the descriptions of the documents. -/
structure Setup where
  host : Host
  task : ActiveTask
  description : State → Description
  isContinuous : task.continuous = true
  isCount : task.count = true
  running : (host.moment task.documentSelfLink).isStopping = false

section

variable (setup : Setup)

/-- A document matches the query of the task. -/
def Setup.matches (s : State) : Bool :=
  match evaluateQuery setup.host (some (setup.description s)) setup.task.filter (some s) with
  | .ok b => b
  | .error _ => false

def isDeleted (s : State) : Bool := updateAction s = some Action.delete.name

/-- A document that is to be counted. -/
def Setup.isLive (s : State) : Bool := setup.matches s && !isDeleted s

/-- The number of matching documents that are not deleted. -/
def Setup.liveCount (ds : Documents) : Nat := ds.states.countP setup.isLive

/-- A document that was indexed and on which the active queries have yet to be evaluated.
`isNew` says that it was indexed after the initial query. -/
structure Change where
  state : State
  isNew : Bool

/-- The index, the self PATCHes on their way, and the task. -/
structure System where
  documents : Documents
  pending : List Change
  registered : Bool
  queried : Bool
  patches : List PatchBody
  task : Task

/-- What can happen, in any order. -/
inductive Event where
  | create (s : State)
  | delete (s : State)
  | evaluate (n : Nat)
  | register
  | query
  | deliver (n : Nat)

/-- The active queries of the index: the task, once it is registered. -/
def Setup.activeQueries (registered : Bool) : ActiveQueries where
  tasks := if registered then [setup.task] else []
  nodup := by cases registered <;> simp

/-- The PATCH of a notification. -/
def ofNotification (n : Notification) : PatchBody :=
  ⟨.started, n.documentLinks, n.documents.map fun d => [d.2], none, none⟩

/-- The PATCH with the result of the initial query. -/
def ofCount (count : Nat) : PatchBody := ⟨.started, [], none, some count, none⟩

/-- `updateIndex`, up to the evaluation of the active queries. -/
def System.index (s : System) (d : State) : System :=
  { s with documents := s.documents.put d, pending := s.pending ++ [⟨d, s.queried⟩] }

def Setup.step (s : System) : Event → Option System
  | .create d =>
      if setup.matches d ∧ updateAction d = some Action.post.name ∧
          ∀ d' ∈ s.documents.states, d'.documentSelfLink = d.documentSelfLink → isDeleted d' then
        some (s.index d)
      else none
  | .delete d =>
      if setup.matches d ∧ isDeleted d ∧
          ∃ d' ∈ s.documents.states, d'.documentSelfLink = d.documentSelfLink ∧
            setup.isLive d' ∧ d.documentVersion = d'.documentVersion + 1 then
        some (s.index d)
      else none
  | .evaluate n =>
      match s.pending[n]? with
      | none => none
      | some change =>
          let notifications := (applyActiveQueries setup.host (setup.activeQueries s.registered)
            .post change.state (some (setup.description change.state))).1
          some { s with pending := s.pending.eraseIdx n
                        patches := s.patches ++ notifications.map ofNotification }
  | .register => if s.registered then none else some { s with registered := true }
  | .query =>
      if s.registered ∧ !s.queried then
        some { s with queried := true
                      patches := s.patches ++ [ofCount (setup.liveCount s.documents)] }
      else none
  | .deliver n =>
      match s.patches[n]? with
      | none => none
      | some body =>
          let task := match handlePatchForContinuousQuery s.task body with
            | none => s.task
            | some (task, _) => task
          some { s with patches := s.patches.eraseIdx n, task := task }

/-- Before the activation: any documents, and a task that has just been started. -/
def start (documents : Documents) : System :=
  ⟨documents, [], false, false, [], ⟨.started, true, none⟩⟩

/-- The order that makes the count exact. A document that is indexed before the initial query is
not evaluated for the task, a notification is not applied before the first result, and new
documents start at version 0. -/
def InOrder (s : System) : Event → Prop
  | .create d => d.documentVersion = 0
  | .evaluate n => s.registered = true → ∀ change ∈ s.pending[n]?, change.isNew = true
  | .deliver n => s.task.results = none → ∀ body ∈ s.patches[n]?, body.documents = none
  | _ => True

/-! ## Indexing a document -/

variable {setup}

/-- In a list without duplicate keys a key selects one element. -/
theorem filter_key_eq {α κ : Type*} [DecidableEq κ] {f : α → κ} {l : List α} {a : α}
    (hnodup : (l.map f).Nodup) (ha : a ∈ l) : (l.filter fun x => f x = f a) = [a] := by
  induction l with
  | nil => cases ha
  | cons x l ih =>
      rw [List.map_cons, List.nodup_cons] at hnodup
      rcases List.mem_cons.mp ha with rfl | ha
      · rw [List.filter_cons_of_pos (by simp), List.filter_eq_nil_iff.mpr]
        intro y hy heq
        exact hnodup.1 (List.mem_map.mpr ⟨y, hy, of_decide_eq_true heq⟩)
      · rw [List.filter_cons_of_neg, ih hnodup.2 ha]
        intro heq
        exact hnodup.1 (List.mem_map.mpr ⟨a, ha, (of_decide_eq_true heq).symm⟩)

/-- A new document adds one to the count. -/
theorem liveCount_put_create {ds : Documents} {d : State} (hd : setup.isLive d = true)
    (hnew : ∀ d' ∈ ds.states, d'.documentSelfLink = d.documentSelfLink →
      isDeleted d' = true) :
    setup.liveCount (ds.put d) = setup.liveCount ds + 1 := by
  unfold Setup.liveCount Documents.put
  rw [List.countP_cons_of_pos hd, List.countP_filter]
  congr 1
  refine List.countP_congr fun d' hd' => ?_
  rw [Bool.and_eq_true, and_iff_left_iff_imp]
  intro hlive
  rw [decide_eq_true_eq]
  intro hlink
  simp [Setup.isLive, hnew d' hd' hlink] at hlive

/-- The deletion of a document takes one from it. -/
theorem liveCount_put_delete {ds : Documents} {d d' : State} (hd : isDeleted d = true)
    (hd' : d' ∈ ds.states) (hlink : d'.documentSelfLink = d.documentSelfLink)
    (hlive : setup.isLive d' = true) :
    setup.liveCount (ds.put d) + 1 = setup.liveCount ds := by
  have hdead : ¬ setup.isLive d = true := by simp [Setup.isLive, hd]
  unfold Setup.liveCount Documents.put
  rw [List.countP_cons_of_neg hdead, List.countP_eq_countP_filter_add ds.states setup.isLive
    fun x => x.documentSelfLink ≠ d.documentSelfLink]
  have hone : (ds.states.filter fun x => !decide (x.documentSelfLink ≠ d.documentSelfLink)) =
      [d'] := by
    rw [← filter_key_eq ds.nodup hd']
    refine List.filter_congr fun x _ => ?_
    simp [hlink]
  rw [hone, List.countP_cons_of_pos hlive, List.countP_nil]

/-! ## The count is kept -/

/-- What a document that is not evaluated yet will add. -/
def Change.delta (c : Change) : Int := if c.isNew then Count.delta c.state else 0

/-- The count of the task, and all that is still to be added to it. -/
def System.total (s : System) : Int :=
  (s.task.results.map (·.documentCount)).getD 0 + (s.patches.map PatchBody.delta).sum +
    (s.pending.map Change.delta).sum

/-- The invariant of the runs that are in order. Up to the initial query nothing is sent to the
task; from then on, what the task has and what is on its way add up to the number of documents,
and the result of the query is there or on its way. -/
structure Counted (setup : Setup) (s : System) : Prop where
  started : s.task.stage = .started
  stages : ∀ body ∈ s.patches, body.stage = .started
  matching : ∀ c ∈ s.pending, setup.matches c.state = true
  registered : s.queried = true → s.registered = true
  before : s.queried = false → s.patches = [] ∧ s.task.results = none ∧
    ∀ c ∈ s.pending, c.isNew = false
  first : s.queried = true → s.task.results = none → ∃ body ∈ s.patches, body.documents = none
  total : s.queried = true → s.total = setup.liveCount s.documents

theorem counted_start (documents : Documents) : Counted setup (start documents) where
  started := rfl
  stages := by simp [start]
  matching := by simp [start]
  registered := by simp [start]
  before := by simp [start]
  first := by simp [start]
  total := by simp [start]

/-- An indexed document is counted when it is evaluated, unless the query counts it. -/
theorem Counted.index {s : System} (h : Counted setup s) {d : State}
    (hd : setup.matches d = true)
    (hcount : (setup.liveCount (s.documents.put d) : Int) = setup.liveCount s.documents + delta d) :
    Counted setup (s.index d) where
  started := h.started
  stages := h.stages
  matching c hc := by
    rcases List.mem_append.mp hc with hc | hc
    · exact h.matching c hc
    · obtain rfl := List.mem_singleton.mp hc
      exact hd
  registered := h.registered
  before hq := by
    obtain ⟨hpatches, hresults, hold⟩ := h.before hq
    refine ⟨hpatches, hresults, fun c hc => ?_⟩
    rcases List.mem_append.mp hc with hc | hc
    · exact hold c hc
    · obtain rfl := List.mem_singleton.mp hc
      exact hq
  first := h.first
  total hq := by
    have hq : s.queried = true := hq
    have htotal := h.total hq
    unfold System.total System.index at *
    rw [List.map_append, List.sum_append, hcount, ← htotal]
    simp [Change.delta, hq, add_assoc]

/-- The active queries send one PATCH for a matching document. -/
theorem applyActiveQueries_registered {d : State} (hd : setup.matches d = true) :
    (applyActiveQueries setup.host (setup.activeQueries true) .post d
      (some (setup.description d))).1 = [createPatch d setup.task] := by
  have hevaluate : evaluateQuery setup.host (some (setup.description d)) setup.task.filter
      (some d) = .ok true := by
    unfold Setup.matches at hd
    split at hd
    next b hb => rw [hb, hd]
    next => cases hd
  have hnotify : notify setup.host (some (setup.description d)) d setup.task = .ok true := by
    unfold notify
    rw [if_pos setup.isContinuous, hevaluate]
    rfl
  show (notifyAll setup.host (some (setup.description d)) d [setup.task]).1 = _
  rw [notifyAll, setup.running, if_neg (by decide), hnotify]
  rfl

theorem delta_ofNotification (d : State) :
    (ofNotification (createPatch d setup.task)).delta = delta d := by
  simp [ofNotification, createPatch, PatchBody.delta, setup.isCount]

theorem sum_eraseIdx {α : Type*} (f : α → Int) {l : List α} {n : Nat} {a : α}
    (h : l[n]? = some a) : ((l.eraseIdx n).map f).sum = (l.map f).sum - f a := by
  obtain ⟨hn, rfl⟩ := List.getElem?_eq_some_iff.mp h
  have hperm := ((List.getElem_cons_eraseIdx_perm hn).map f).sum_eq
  rw [List.map_cons, List.sum_cons] at hperm
  omega

/-- Before the query nothing is sent for a document. -/
theorem Counted.drop {s : System} (h : Counted setup s) (hqueried : s.queried = false) (n : Nat) :
    Counted setup { s with pending := s.pending.eraseIdx n } where
  started := h.started
  stages := h.stages
  matching c hc := h.matching c (List.mem_of_mem_eraseIdx hc)
  registered := h.registered
  before _ := by
    obtain ⟨hpatches, hresults, hold⟩ := h.before hqueried
    exact ⟨hpatches, hresults, fun c hc => hold c (List.mem_of_mem_eraseIdx hc)⟩
  first := h.first
  total hq := by
    have hq : s.queried = true := hq
    rw [hqueried] at hq
    cases hq

/-- A document that the query has not counted is on its way to the task. -/
theorem Counted.send {s : System} (h : Counted setup s) (hqueried : s.queried = true) {n : Nat}
    {change : Change} (hchange : s.pending[n]? = some change) (hnew : change.isNew = true) :
    Counted setup { s with
      pending := s.pending.eraseIdx n
      patches := s.patches ++ [ofNotification (createPatch change.state setup.task)] } where
  started := h.started
  stages body hbody := by
    rcases List.mem_append.mp hbody with hbody | hbody
    · exact h.stages body hbody
    · obtain rfl := List.mem_singleton.mp hbody
      rfl
  matching c hc := h.matching c (List.mem_of_mem_eraseIdx hc)
  registered := h.registered
  before hq := by
    have hq : s.queried = false := hq
    rw [hqueried] at hq
    cases hq
  first _ hresults := by
    obtain ⟨body, hbody, hfirst⟩ := h.first hqueried hresults
    exact ⟨body, List.mem_append_left _ hbody, hfirst⟩
  total _ := by
    have htotal := h.total hqueried
    have hsum := sum_eraseIdx Change.delta hchange
    have hdelta : change.delta = delta change.state := by rw [Change.delta, if_pos hnew]
    unfold System.total at htotal ⊢
    simp only [List.map_cons, List.map_nil, List.map_append, List.sum_append,
      List.sum_singleton, delta_ofNotification]
    omega

theorem Counted.evaluate {s s' : System} (h : Counted setup s) {n : Nat}
    (horder : InOrder s (.evaluate n)) (hstep : setup.step s (.evaluate n) = some s') :
    Counted setup s' := by
  simp only [Setup.step] at hstep
  split at hstep
  · cases hstep
  · rename_i change hchange
    obtain rfl := Option.some.inj hstep
    have hmem : change ∈ s.pending := List.mem_of_getElem? hchange
    cases hregistered : s.registered with
    | false =>
        -- the task is not active: nothing is sent, and the query is still to come
        have hqueried : s.queried = false := by
          by_contra hq
          rw [h.registered (by simpa using hq)] at hregistered
          cases hregistered
        have hnone : (applyActiveQueries setup.host (setup.activeQueries false) .post change.state
            (some (setup.description change.state))).1 = [] := rfl
        rw [hnone, List.map_nil, List.append_nil]
        have hdrop := h.drop hqueried n
        rwa [hregistered] at hdrop
    | true =>
        have hnew : change.isNew = true := horder hregistered change hchange
        have hqueried : s.queried = true := by
          by_contra hq
          have hold := (h.before (by simpa using hq)).2.2 change hmem
          rw [hnew] at hold
          cases hold
        rw [applyActiveQueries_registered (h.matching change hmem)]
        have hsend := h.send hqueried hchange hnew
        rwa [hregistered] at hsend

theorem Counted.query {s s' : System} (h : Counted setup s)
    (hstep : setup.step s .query = some s') : Counted setup s' := by
  simp only [Setup.step] at hstep
  split at hstep
  next hguard =>
    obtain ⟨hregistered, hqueried⟩ := hguard
    rw [Bool.not_eq_true'] at hqueried
    obtain rfl := Option.some.inj hstep
    obtain ⟨hpatches, hresults, hold⟩ := h.before hqueried
    refine ⟨h.started, ?_, h.matching, fun _ => hregistered, fun hq => absurd hq (by simp),
      fun _ _ => ⟨_, List.mem_append_right _ List.mem_cons_self, rfl⟩, fun _ => ?_⟩
    · intro body hbody
      rw [hpatches, List.nil_append] at hbody
      obtain rfl := List.mem_singleton.mp hbody
      rfl
    · -- what is not evaluated yet was counted by the query, and adds nothing
      have hzero : (s.pending.map Change.delta).sum = 0 := by
        refine List.sum_eq_zero fun x hx => ?_
        obtain ⟨c, hc, rfl⟩ := List.mem_map.mp hx
        simp [Change.delta, hold c hc]
      simp [System.total, hpatches, hresults, hzero, ofCount, PatchBody.delta]
  next => cases hstep

theorem Counted.deliver {s s' : System} (h : Counted setup s) {n : Nat}
    (horder : InOrder s (.deliver n)) (hstep : setup.step s (.deliver n) = some s') :
    Counted setup s' := by
  simp only [Setup.step] at hstep
  split at hstep
  · cases hstep
  · rename_i body hbody
    have hmem : body ∈ s.patches := List.mem_of_getElem? hbody
    have hqueried : s.queried = true := by
      by_contra hq
      rw [(h.before (by simpa using hq)).1] at hmem
      cases hmem
    have hpatch : handlePatchForContinuousQuery s.task body =
        some ({ s.task with results := some (applyResults s.task.count s.task.results body) },
          false) := by
      simp only [handlePatchForContinuousQuery, h.started, h.stages body hmem]
    rw [hpatch] at hstep
    obtain rfl := Option.some.inj hstep
    have hsum := sum_eraseIdx PatchBody.delta hbody
    -- the first PATCH is the result of the query, and is stored for what it adds
    have hcount : (applyResults s.task.count s.task.results body).documentCount =
        (s.task.results.map (·.documentCount)).getD 0 + body.delta := by
      cases hresults : s.task.results with
      | none =>
          have hfirst := horder hresults body hbody
          rw [documentCount_applyResults_first, PatchBody.delta, hfirst]
          simp
      | some r => exact documentCount_applyResults
    refine ⟨h.started, fun b hb => h.stages b (List.mem_of_mem_eraseIdx hb), h.matching,
      h.registered, fun hq => absurd hqueried (by simp [show s.queried = false from hq]),
      fun _ hresults => absurd hresults (by simp), fun _ => ?_⟩
    have htotal := h.total hqueried
    unfold System.total at htotal ⊢
    simp only [Option.map_some, Option.getD_some, hcount]
    omega

/-- Every step that is in order keeps the count. -/
theorem Counted.step {s s' : System} {e : Event} (h : Counted setup s) (horder : InOrder s e)
    (hstep : setup.step s e = some s') : Counted setup s' := by
  cases e with
  | create d =>
      simp only [Setup.step] at hstep
      split at hstep
      next hguard =>
        obtain ⟨hd, haction, hnew⟩ := hguard
        obtain rfl := Option.some.inj hstep
        have hversion : d.documentVersion = 0 := horder
        have hne : ¬ updateAction d = some Action.delete.name := by
          rw [haction]
          decide
        have hlive : setup.isLive d = true := by simp [Setup.isLive, hd, isDeleted, hne]
        refine h.index hd ?_
        rw [liveCount_put_create hlive hnew, delta, if_neg hne, if_pos ⟨haction, hversion⟩]
        exact Nat.cast_succ _
      next => cases hstep
  | delete d =>
      simp only [Setup.step] at hstep
      split at hstep
      next hguard =>
        obtain ⟨hd, hdeleted, d', hd', hlink, hlive, -⟩ := hguard
        obtain rfl := Option.some.inj hstep
        refine h.index hd ?_
        rw [← liveCount_put_delete hdeleted hd' hlink hlive, delta,
          if_pos (of_decide_eq_true hdeleted)]
        push_cast
        ring
      next => cases hstep
  | evaluate n => exact h.evaluate horder hstep
  | register =>
      simp only [Setup.step] at hstep
      split at hstep
      · cases hstep
      · obtain rfl := Option.some.inj hstep
        exact ⟨h.started, h.stages, h.matching, fun _ => rfl, h.before, h.first, h.total⟩
  | query => exact h.query hstep
  | deliver n => exact h.deliver horder hstep

end

/-- All that was indexed has been evaluated, and all that was sent has been applied. -/
def System.Settled (s : System) : Prop := s.queried = true ∧ s.pending = [] ∧ s.patches = []

/-- The task has the number of matching documents that are not deleted. -/
def System.Exact (setup : Setup) (s : System) : Prop :=
  ∃ r, s.task.results = some r ∧ r.documentCount = setup.liveCount s.documents

/-- In every run that is in order the count is exact as soon as all is settled. -/
theorem count_exact (setup : Setup) (documents : Documents) (es : List Event) (s : System)
    (h : Reach setup.step InOrder (start documents) es s) (hsettled : s.Settled) :
    s.Exact setup := by
  have hcounted : Counted setup s :=
    h.invariant (Counted setup) (counted_start documents) fun horder hstep hinv =>
      hinv.step horder hstep
  obtain ⟨hqueried, hpending, hpatches⟩ := hsettled
  have htotal := hcounted.total hqueried
  unfold System.total at htotal
  rw [hpending, hpatches] at htotal
  cases hresults : s.task.results with
  | none =>
      obtain ⟨body, hbody, -⟩ := hcounted.first hqueried hresults
      rw [hpatches] at hbody
      cases hbody
  | some r =>
      refine ⟨r, hresults, ?_⟩
      simpa [hresults] using htotal

/-! ## Runs -/

section

instance (s : System) : ∀ e : Event, Decidable (InOrder s e)
  | .create d => inferInstanceAs (Decidable (d.documentVersion = 0))
  | .evaluate n => inferInstanceAs
      (Decidable (s.registered = true → ∀ change ∈ s.pending[n]?, change.isNew = true))
  | .deliver n => inferInstanceAs
      (Decidable (s.task.results = none → ∀ body ∈ s.patches[n]?, body.documents = none))
  | .delete _ | .register | .query => isTrue trivial

/-- A document of Jane's that is posted for the first time. -/
def posted : State where
  documentSelfLink := "/reviews/1"
  documentVersion := 0
  fields name := if name = "author" then .string "jane" else
    if name = "documentUpdateAction" then .string "POST" else .null
  text := ""

/-- The number of Jane's documents. -/
def janesCount : Setup where
  host := ⟨fun _ => none, fun _ => ⟨false, [], 0⟩⟩
  task := ⟨"/query-tasks/1", true, false, false, true,
    .conjunction [⟨⟨some "author", some "jane", some .term, none⟩, false⟩], rfl⟩
  description _ := fun name => some (.mk .string name none none)
  isContinuous := rfl
  isCount := rfl
  running := rfl

/-- A document that is created after the result of the query was applied. -/
theorem count_exact_created_later : ∃ s : System, s.Exact janesCount ∧
    (s.task.results.map (·.documentCount)) = some 1 := by
  obtain ⟨s, hs, hsettled, hcount⟩ : ∃ s, exec (fun s e => if InOrder s e then
        janesCount.step s e else none) (start ⟨[], List.nodup_nil⟩)
      [.register, .query, .deliver 0, .create posted, .evaluate 0, .deliver 0] = some s ∧
      s.Settled ∧ (s.task.results.map (·.documentCount)) = some 1 :=
    ⟨_, rfl, ⟨rfl, rfl, rfl⟩, rfl⟩
  exact ⟨s, count_exact janesCount _ _ s (reach_of_exec hs) hsettled, hcount⟩

/-- The document is created between the registration of the filter and the query: it is counted
twice. -/
theorem count_not_exact : ¬ ∀ (setup : Setup) (documents : Documents) (es : List Event)
    (s : System), Reach setup.step (fun _ _ => True) (start documents) es s → s.Settled →
      s.Exact setup := by
  intro h
  obtain ⟨s, hs, hsettled, hcount, hlive⟩ : ∃ s, exec (fun s e => if True then
        janesCount.step s e else none) (start ⟨[], List.nodup_nil⟩)
      [.register, .create posted, .evaluate 0, .query, .deliver 1, .deliver 0] = some s ∧
      s.Settled ∧ (s.task.results.map (·.documentCount)) = some 2 ∧
      janesCount.liveCount s.documents = 1 :=
    ⟨_, rfl, ⟨rfl, rfl, rfl⟩, rfl, rfl⟩
  obtain ⟨r, hr, hexact⟩ := h janesCount _ _ s (reach_of_exec hs) hsettled
  rw [hr] at hcount
  rw [hlive] at hexact
  have htwo : r.documentCount = 2 := Option.some.inj hcount
  omega

/-- A notification that overtakes the result of the query is lost. -/
example : (exec janesCount.step (start ⟨[], List.nodup_nil⟩)
    [.register, .query, .create posted, .evaluate 0, .deliver 1, .deliver 0]).map
      (fun s => (s.task.results.map (·.documentCount), janesCount.liveCount s.documents)) =
    some (some 0, 1) := rfl

end

end Xenon.QueryTask.Count

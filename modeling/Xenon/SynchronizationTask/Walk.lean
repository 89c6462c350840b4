import Mathlib.Algebra.BigOperators.Group.List.Basic
import Mathlib.Algebra.Order.Group.Int
import Mathlib.Algebra.Ring.Int.Defs
import Mathlib.Algebra.Ring.Nat
import Mathlib.Data.List.TakeWhile
import Xenon.SynchronizationTask.Service

/-!
# The walk over the pages of the children

In the sub-stage `SYNCHRONIZE` an execution reads a page of the links of the children
and sends a synchronization request for each of them. When all have answered, it
sends itself the next page in a PATCH, or goes on to `CHECK_NG_AVAILABILITY` after the
last one. Requests that failed are repeated a number of times.

A page without links ends the walk, whether a page follows or not.

One execution is followed here, from its query to `CHECK_NG_AVAILABILITY`, while no PUT
restarts it; the host may begin to stop at any time.
-/

namespace Xenon.SynchronizationTask.Walk

open Foundation

variable {L : Type*}

/-- A page of the query result. The page behind its `nextPageLink` is the next one of
the chain. -/
structure Page (L : Type*) where
  documentCount : Nat
  documentLinks : List L
deriving DecidableEq

/-- The test with which the walk ends: `documentCount == 0 || documentLinks.isEmpty()`. -/
def Page.isEmpty (page : Page L) : Bool :=
  page.documentCount = 0 || page.documentLinks.isEmpty

structure Config (L : Type*) where
  replication : Bool
  factorySelfLink : L
  queryResultLimit : Int
  maxChildSynchRetryCount : Nat

/-- The committed stage and sub-stage with the page reference, the counter and the list
of failures that the children of a page share, whether the host stops, and the history
of the synchronization requests. -/
structure Shared (L : Type*) where
  stage : TaskStage
  subStage : SubStage
  queryPageReference : List (Page L)
  isStopping : Bool
  pendingStarts : Int
  failedServices : List L
  issued : List L

/-- What the completions of the children capture: the page and those that follow it,
and the number of repetitions. -/
structure Context (L : Type*) where
  page : Page L
  nextPages : List (Page L)
  retryCount : Nat

inductive Task (L : Type*) where
  /-- The query is on its way. -/
  | handleQueryStage (pages : List (Page L))
  /-- A self-PATCH. A page reference that is null is an empty list of pages. -/
  | patch (stage : TaskStage) (subStage : SubStage) (pages : List (Page L))
  | handleSynchronizeStage (pages : List (Page L))
  /-- The selection of the owner is on its way. -/
  | selectOwner (page : Page L) (nextPages : List (Page L))
  /-- The GET of the page is on its way. -/
  | getPage (page : Page L) (nextPages : List (Page L))
  /-- The loop over the links that are left. -/
  | synchronizeServices (c : Context L) (links : List L)
  /-- The request for a child is on its way. -/
  | awaitChild (c : Context L)
  /-- A repetition is scheduled. -/
  | retry (c : Context L) (links : List L)

inductive Answer where
  | done
  | failed (statusCode : Nat)
  | notOwner
deriving DecidableEq

section Code

variable (o : Config L) (s : Shared L)

def cancel (subStage : SubStage) : List (Task L) := [.patch .cancelled subStage []]

def fail (subStage : SubStage) : List (Task L) := [.patch .failed subStage []]

def synchronizeChildrenInQueryPage (c : Context L) (documentLinks : List L) :
    Shared L × List (Task L) :=
  if s.isStopping then (s, cancel .synchronize)
  else
    ({ s with pendingStarts := documentLinks.length, failedServices := [] },
      [.synchronizeServices c documentLinks])

/-- What follows when the children of a page have answered. -/
def childrenDone (c : Context L) : List (Task L) :=
  if s.failedServices.isEmpty then
    match c.nextPages with
    | [] => [.patch .started .checkNgAvailability []]
    | nextPages => [.patch .started .synchronize nextPages]
  else if s.failedServices.length ≤ o.queryResultLimit / 2 then
    if c.retryCount < o.maxChildSynchRetryCount then [.retry c s.failedServices]
    else fail .synchronize
  else fail .synchronize

/-- `statusCode >= STATUS_CODE_SERVER_FAILURE_THRESHOLD`, or a timeout. -/
def isCountedFailure : Answer → Bool
  | .failed statusCode => 500 ≤ statusCode || statusCode = 408
  | _ => false

/-- The completion of a request for a child. It records the path of the request, which
is the link of the factory. -/
def childCompletion (c : Context L) (a : Answer) : Shared L × List (Task L) :=
  if s.isStopping then ({ s with pendingStarts := s.pendingStarts - 1 }, cancel .synchronize)
  else
    let s :=
      { s with
        failedServices :=
          if isCountedFailure a then s.failedServices ++ [o.factorySelfLink]
          else s.failedServices
        pendingStarts := s.pendingStarts - 1 }
    (s, if s.pendingStarts ≠ 0 then [] else childrenDone o s c)

def handlePatch (stage : TaskStage) (subStage : SubStage) (pages : List (Page L)) :
    Shared L × List (Task L) :=
  if stage.ordinal < s.stage.ordinal || (!s.stage.isInProgress && !stage.isInProgress) then (s, [])
  else
    let pages := if pages.isEmpty then s.queryPageReference else pages
    ({ s with stage := stage, subStage := subStage, queryPageReference := pages },
      if stage = .started && subStage = .synchronize then [.handleSynchronizeStage pages] else [])

def fire (t : Task L) (a : Answer) : Option (Shared L × List (Task L)) :=
  match t, a with
  | .handleQueryStage pages, .done =>
      if s.isStopping then some (s, cancel .query)
      else
        match pages with
        | [] => some (s, [.patch .started .checkNgAvailability []])
        | pages => some (s, [.patch .started .synchronize pages])
  | .handleQueryStage _, .failed _ => some (s, if s.isStopping then cancel .query else fail .query)
  | .patch stage subStage pages, .done => some (handlePatch s stage subStage pages)
  | .handleSynchronizeStage [], .done => some (s, [.patch .started .checkNgAvailability []])
  | .handleSynchronizeStage (page :: nextPages), .done =>
      if s.isStopping then some (s, cancel .synchronize)
      else if o.replication then some (s, [.selectOwner page nextPages])
      else some (s, [.getPage page nextPages])
  | .selectOwner _ _, .failed _ => some (s, fail .synchronize)
  | .selectOwner _ _, .notOwner => some (s, cancel .synchronize)
  | .selectOwner page nextPages, .done =>
      if s.isStopping then some (s, cancel .synchronize) else some (s, [.getPage page nextPages])
  | .getPage _ _, .failed _ => some (s, fail .synchronize)
  | .getPage page nextPages, .done =>
      if page.isEmpty then some (s, [.patch .started .checkNgAvailability (page :: nextPages)])
      else some (synchronizeChildrenInQueryPage s ⟨page, nextPages, 0⟩ page.documentLinks)
  | .synchronizeServices _ [], .done => some (s, [])
  | .synchronizeServices c (link :: links), .done =>
      if s.isStopping then some (s, cancel .synchronize)
      else some ({ s with issued := s.issued ++ [link] }, [.synchronizeServices c links, .awaitChild c])
  | .awaitChild c, .done => some (childCompletion o s c .done)
  | .awaitChild c, .failed statusCode => some (childCompletion o s c (.failed statusCode))
  | .retry c links, .done =>
      some (synchronizeChildrenInQueryPage s { c with retryCount := c.retryCount + 1 } links)
  | _, _ => none

/-- One execution; the input is that the host begins to stop. -/
def walk : Machine (Shared L) (Task L) Unit Answer where
  input s _ := ({ s with isStopping := true }, [])
  fire := fire o

/-- An execution whose query finds the chain of pages `chain`. -/
def start (chain : List (Page L)) : Pool (Shared L) (Task L) :=
  ⟨⟨.started, .query, [], false, 0, [], []⟩, [.handleQueryStage chain]⟩

end Code

/-- The task is at `CHECK_NG_AVAILABILITY` and has not failed. -/
def AtCheck (s : Shared L) : Prop :=
  s.stage = .started ∧ s.subStage = .checkNgAvailability

/-- A request was issued for every link on every page. -/
def Covers (chain : List (Page L)) (issued : List L) : Prop :=
  ∀ page ∈ chain, page.documentLinks ⊆ issued

/-- The pages before the first empty one. -/
def walked (chain : List (Page L)) : List (Page L) :=
  chain.takeWhile (!·.isEmpty)

/-- Every link of the chain is on a page before the first empty one. -/
def ListedBeforeEmpty (chain : List (Page L)) : Prop :=
  Covers chain ((walked chain).flatMap Page.documentLinks)

/-! ## The accounting -/

section Weights

/-- The links that the loop has not come to. -/
@[simp] def remaining : Task L → List L
  | .synchronizeServices _ links => links
  | _ => []

/-- What a task stands for in `pendingStarts`. -/
@[simp] def pending : Task L → Int
  | .synchronizeServices _ links => links.length
  | .awaitChild _ => 1
  | _ => 0

/-- A task that leads the walk; the others belong to the children of a page. -/
@[simp] def leads : Task L → Bool
  | .synchronizeServices _ _ | .awaitChild _ => false
  | _ => true

@[simp] def context : Task L → Option (Context L)
  | .synchronizeServices c _ | .awaitChild c => some c
  | _ => none

def total (ts : List (Task L)) : Int := (ts.map pending).sum

@[simp] theorem total_nil : total ([] : List (Task L)) = 0 := rfl

@[simp] theorem total_cons (t : Task L) (ts : List (Task L)) :
    total (t :: ts) = pending t + total ts := by
  simp [total]

theorem pending_nonneg (t : Task L) : 0 ≤ pending t := by
  cases t <;> simp

theorem total_nonneg (ts : List (Task L)) : 0 ≤ total ts := by
  induction ts with
  | nil => exact le_refl _
  | cons t ts ih =>
      rw [total_cons]
      exact add_nonneg (pending_nonneg t) ih

theorem remaining_eq_nil {ts : List (Task L)} (h : total ts = 0) : ts.flatMap remaining = [] := by
  induction ts with
  | nil => rfl
  | cons t ts ih =>
      have ht := pending_nonneg t
      have hts := total_nonneg ts
      rw [total_cons] at h
      rw [List.flatMap_cons, ih (by omega), List.append_nil]
      have hzero : pending t = 0 := by omega
      cases t <;> first | rfl | simpa using hzero

end Weights

/-! ## The invariant -/

/-- The walk has come to `pages`: the pages before have links, and a request was issued
for each of them. -/
def Reached (chain : List (Page L)) (issued : List L) (pages : List (Page L)) : Prop :=
  ∃ before, chain = before ++ pages ∧
    ∀ page ∈ before, page.isEmpty = false ∧ page.documentLinks ⊆ issued

/-- The pages before the first empty one are done. -/
def Done (chain : List (Page L)) (issued : List L) : Prop :=
  Covers (walked chain) issued

/-- What a task that leads the walk says about the history. -/
def Fits (chain : List (Page L)) (issued : List L) : Task L → Prop
  | .handleQueryStage pages => pages = chain
  | .patch .started .checkNgAvailability _ => Done chain issued
  | .patch .started .synchronize pages => pages ≠ [] ∧ Reached chain issued pages
  | .patch .started _ _ => False
  | .patch _ _ _ => True
  | .handleSynchronizeStage pages => Reached chain issued pages
  | .selectOwner page nextPages => Reached chain issued (page :: nextPages)
  | .getPage page nextPages => Reached chain issued (page :: nextPages)
  | .retry c _ => Reached chain issued (c.page :: c.nextPages) ∧ c.page.isEmpty = false ∧
      c.page.documentLinks ⊆ issued
  | .synchronizeServices _ _ | .awaitChild _ => True

structure Inv (chain : List (Page L)) (s : Shared L) (ts : List (Task L)) : Prop where
  fits : ∀ t ∈ ts, Fits chain s.issued t
  check : AtCheck s → Done chain s.issued
  pending : s.isStopping = false → s.pendingStarts = total ts
  leads : s.isStopping = false → ts.countP leads ≤ 1 ∧ (0 < ts.countP leads → total ts = 0)
  children : s.isStopping = false → ∀ t ∈ ts, ∀ c ∈ context t,
    Reached chain s.issued (c.page :: c.nextPages) ∧ c.page.isEmpty = false ∧
      c.page.documentLinks ⊆ s.issued ++ ts.flatMap remaining

section Facts

variable {chain pages : List (Page L)} {page : Page L} {issued issued' : List L} {t : Task L}

theorem Done.mono (h : Done chain issued) (hsub : issued ⊆ issued') : Done chain issued' :=
  fun page hpage => List.Subset.trans (h page hpage) hsub

theorem Reached.mono (h : Reached chain issued pages) (hsub : issued ⊆ issued') :
    Reached chain issued' pages := by
  obtain ⟨before, hchain, hall⟩ := h
  exact ⟨before, hchain, fun page hpage => ⟨(hall page hpage).1, List.Subset.trans (hall page hpage).2 hsub⟩⟩

theorem Fits.mono (h : Fits chain issued t) (hsub : issued ⊆ issued') : Fits chain issued' t := by
  match t with
  | .handleQueryStage _ => exact h
  | .patch .started .checkNgAvailability _ => exact Done.mono h hsub
  | .patch .started .synchronize _ => exact ⟨h.1, Reached.mono h.2 hsub⟩
  | .patch .started .getCheckpoints _ | .patch .started .query _ | .patch .started .restart _ =>
      exact h
  | .patch .created _ _ | .patch .finished _ _ | .patch .failed _ _ | .patch .cancelled _ _ =>
      trivial
  | .handleSynchronizeStage _ | .selectOwner _ _ | .getPage _ _ => exact Reached.mono h hsub
  | .retry _ _ => exact ⟨Reached.mono h.1 hsub, h.2.1, List.Subset.trans h.2.2 hsub⟩
  | .synchronizeServices _ _ | .awaitChild _ => trivial

/-- The walk is over after the last page. -/
theorem Reached.done_of_nil (h : Reached chain issued []) : Done chain issued := by
  obtain ⟨before, hchain, hall⟩ := h
  rw [List.append_nil] at hchain
  subst hchain
  intro page hpage
  exact (hall page (List.takeWhile_subset _ hpage)).2

/-- The walk is over at an empty page. -/
theorem Reached.done_of_empty (h : Reached chain issued (page :: pages)) (hempty : page.isEmpty) :
    Done chain issued := by
  obtain ⟨before, rfl, hall⟩ := h
  have hwalked : walked (before ++ page :: pages) = before := by
    unfold walked
    rw [List.takeWhile_append_of_pos fun page hpage => by simp [(hall page hpage).1],
      List.takeWhile_cons_of_neg (by simp [hempty]), List.append_nil]
  intro page hpage
  rw [hwalked] at hpage
  exact (hall page hpage).2

/-- A page whose requests are issued is left behind. -/
theorem Reached.next (h : Reached chain issued (page :: pages)) (hpage : page.isEmpty = false)
    (hissued : page.documentLinks ⊆ issued) : Reached chain issued pages := by
  obtain ⟨before, rfl, hall⟩ := h
  refine ⟨before ++ [page], by simp, fun q hq => ?_⟩
  rw [List.mem_append, List.mem_singleton] at hq
  rcases hq with hq | rfl
  · exact hall q hq
  · exact ⟨hpage, hissued⟩

end Facts

namespace Inv

variable {o : Config L} {chain : List (Page L)} {s s' : Shared L} {t : Task L}
  {ts ts' new : List (Task L)}

theorem perm (hp : ts.Perm ts') (h : Inv chain s ts) : Inv chain s ts' := by
  have htotal : total ts = total ts' := (hp.map Walk.pending).sum_eq
  have hcount : ts.countP Walk.leads = ts'.countP Walk.leads := hp.countP_eq _
  exact
    { fits := fun t ht => h.fits t (hp.mem_iff.mpr ht)
      check := h.check
      pending := fun hrun => (h.pending hrun).trans htotal
      leads := by
        rw [← hcount, ← htotal]
        exact h.leads
      children := by
        intro hrun t ht c hc
        obtain ⟨hreached, hpage, hsub⟩ := h.children hrun t (hp.mem_iff.mpr ht) c hc
        refine ⟨hreached, hpage, fun link hlink => ?_⟩
        rw [List.mem_append, ← (hp.flatMap_right remaining).mem_iff, ← List.mem_append]
        exact hsub hlink }

/-- Once the host stops, only the stages matter. -/
theorem stopped (h : Inv chain s (t :: ts)) (hstop : s'.isStopping = true)
    (hissued : s'.issued = s.issued) (hcheck : AtCheck s' → Done chain s'.issued)
    (hnew : ∀ t ∈ new, Fits chain s'.issued t) : Inv chain s' (new ++ ts) where
  fits := List.forall_mem_append.mpr
    ⟨hnew, fun t ht => hissued ▸ h.fits t (List.mem_cons_of_mem _ ht)⟩
  check := hcheck
  pending hrun := absurd (hstop.symm.trans hrun) nofun
  leads hrun := absurd (hstop.symm.trans hrun) nofun
  children hrun := absurd (hstop.symm.trans hrun) nofun

/-- While a task leads the walk, no child is waited for. -/
theorem led (h : Inv chain s (t :: ts)) (ht : Walk.leads t) (hrun : s.isStopping = false) :
    total ts = 0 ∧ ts.countP Walk.leads = 0 ∧ s.pendingStarts = 0 := by
  obtain ⟨hone, hzero⟩ := h.leads hrun
  rw [List.countP_cons_of_pos ht] at hone hzero
  have htotal := hzero (Nat.succ_pos _)
  have hpending := h.pending hrun
  have hnonneg := pending_nonneg t
  have hnonneg' := total_nonneg ts
  rw [htotal] at hpending
  rw [total_cons] at htotal
  exact ⟨by omega, by omega, hpending⟩

/-- The task that leads the walk goes on, or ends it. -/
theorem lead (h : Inv chain s (t :: ts)) (ht : Walk.leads t)
    (hissued : s'.issued = s.issued) (hstop : s'.isStopping = s.isStopping)
    (hstarts : s'.pendingStarts = s.pendingStarts) (hcheck : AtCheck s' → Done chain s'.issued)
    (hnew : new = [] ∨ ∃ t', new = [t'] ∧ Walk.leads t' ∧ Fits chain s'.issued t') :
    Inv chain s' (new ++ ts) := by
  have hfits : ∀ t' ∈ new, Fits chain s'.issued t' := by
    rcases hnew with rfl | ⟨t', rfl, -, hfits⟩
    · exact fun t' ht' => absurd ht' List.not_mem_nil
    · intro x hx
      rw [List.mem_singleton.mp hx]
      exact hfits
  -- of a host that stops, the invariant asks nothing about the children
  cases hrun : s.isStopping with
  | true => exact h.stopped (hstop.trans hrun) hissued hcheck hfits
  | false =>
      obtain ⟨htotal, hcount, hpending⟩ := h.led ht hrun
      have htotal' : total (new ++ ts) = 0 := by
        rcases hnew with rfl | ⟨t', rfl, hleads, -⟩
        · exact htotal
        · rw [List.singleton_append, total_cons, htotal]
          cases t' <;> first | rfl | exact absurd hleads Bool.false_ne_true
      exact
        { fits := List.forall_mem_append.mpr
            ⟨hfits, fun t ht => hissued ▸ h.fits t (List.mem_cons_of_mem _ ht)⟩
          check := hcheck
          pending := fun _ => (hstarts.trans hpending).trans htotal'.symm
          leads := by
            refine fun _ => ⟨?_, fun _ => htotal'⟩
            rw [List.countP_append, hcount]
            rcases hnew with rfl | ⟨t', rfl, hleads, -⟩
            · exact Nat.zero_le _
            · rw [List.countP_cons_of_pos hleads]
              exact le_refl _
          children := by
            intro _ t' ht' c hc
            rw [List.mem_append] at ht'
            rcases ht' with ht' | ht'
            · rcases hnew with rfl | ⟨t'', rfl, hleads, -⟩
              · exact absurd ht' List.not_mem_nil
              · rw [List.mem_singleton.mp ht'] at hc
                cases t'' <;> first | exact absurd hleads Bool.false_ne_true | cases hc
            · obtain ⟨hreached, hpage, hsub⟩ := h.children hrun t' (List.mem_cons_of_mem _ ht') c hc
              have hnil : (t :: ts).flatMap remaining = [] := by
                apply remaining_eq_nil
                exact (h.leads hrun).2 (by rw [List.countP_cons_of_pos ht]; exact Nat.succ_pos _)
              rw [hnil, List.append_nil] at hsub
              rw [hissued]
              exact ⟨hreached, hpage, List.Subset.trans hsub (List.subset_append_left _ _)⟩ }

/-- The children of a page, or those that failed, are next. -/
theorem children_start {c : Context L} {links : List L} (h : Inv chain s (t :: ts))
    (ht : Walk.leads t) (hreached : Reached chain s.issued (c.page :: c.nextPages))
    (hpage : c.page.isEmpty = false) (hlinks : c.page.documentLinks ⊆ s.issued ++ links) :
    Inv chain (synchronizeChildrenInQueryPage s c links).1
      ((synchronizeChildrenInQueryPage s c links).2 ++ ts) := by
  unfold synchronizeChildrenInQueryPage
  cases hrun : s.isStopping with
  | true =>
      rw [if_pos rfl]
      refine h.stopped hrun rfl h.check fun t' ht' => ?_
      rw [List.mem_singleton.mp ht']
      trivial
  | false =>
      rw [if_neg Bool.false_ne_true]
      obtain ⟨htotal, hcount, -⟩ := h.led ht hrun
      exact
        { fits := List.forall_mem_cons.mpr
            ⟨trivial, fun t' ht' => h.fits t' (List.mem_cons_of_mem _ ht')⟩
          check := h.check
          pending := by
            intro _
            show (links.length : Int) = total (.synchronizeServices c links :: ts)
            rw [total_cons, htotal, add_zero]
            rfl
          leads := by
            intro _
            have hzero : (Task.synchronizeServices c links :: ts).countP Walk.leads = 0 := hcount
            exact ⟨hzero.trans_le (Nat.zero_le _), fun hpos => absurd hzero hpos.ne'⟩
          children := by
            intro _ t' ht' c' hc'
            show _ ∧ _ ∧ _ ⊆ s.issued ++ (links ++ ts.flatMap remaining)
            rw [remaining_eq_nil htotal, List.append_nil]
            rcases List.mem_cons.mp ht' with rfl | ht'
            · obtain rfl : c = c' := Option.some.inj hc'
              exact ⟨hreached, hpage, hlinks⟩
            · obtain ⟨hreached', hpage', hsub⟩ :=
                h.children hrun t' (List.mem_cons_of_mem _ ht') c' hc'
              have hnil : (t :: ts).flatMap remaining = [] := by
                apply remaining_eq_nil
                exact (h.leads hrun).2 (by rw [List.countP_cons_of_pos ht]; exact Nat.succ_pos _)
              rw [hnil, List.append_nil] at hsub
              exact ⟨hreached', hpage', List.Subset.trans hsub (List.subset_append_left _ _)⟩ }

/-- The loop is over. -/
theorem synchronizeServices_nil {c : Context L} (h : Inv chain s (.synchronizeServices c [] :: ts)) :
    Inv chain s ts where
  fits t ht := h.fits t (List.mem_cons_of_mem _ ht)
  check := h.check
  pending hrun := by simpa using h.pending hrun
  leads hrun := by simpa using h.leads hrun
  children hrun t ht := h.children hrun t (List.mem_cons_of_mem _ ht)

/-- A request is issued. -/
theorem synchronizeServices_cons {c : Context L} {link : L} {links : List L}
    (h : Inv chain s (.synchronizeServices c (link :: links) :: ts)) :
    Inv chain { s with issued := s.issued ++ [link] }
      (.synchronizeServices c links :: .awaitChild c :: ts) := by
  have hmore : s.issued ⊆ s.issued ++ [link] := List.subset_append_left _ _
  exact
    { fits := List.forall_mem_cons.mpr ⟨trivial, List.forall_mem_cons.mpr
        ⟨trivial, fun t ht => (h.fits t (List.mem_cons_of_mem _ ht)).mono hmore⟩⟩
      check := fun hcheck => (h.check hcheck).mono hmore
      pending := by
        intro hrun
        have := h.pending hrun
        simp only [total_cons, Walk.pending, List.length_cons] at this ⊢
        push_cast at this
        omega
      leads := by
        intro hrun
        have := h.leads hrun
        simp only [total_cons, Walk.pending, List.length_cons] at this
        simp only [total_cons, Walk.pending]
        push_cast at this
        refine ⟨this.1, fun hpos => ?_⟩
        have := this.2 hpos
        omega
      children := by
        intro hrun t ht c' hc'
        have hmem : ∃ t' ∈ .synchronizeServices c (link :: links) :: ts, c' ∈ context t' := by
          rcases List.mem_cons.mp ht with rfl | ht
          · exact ⟨_, List.mem_cons_self .., hc'⟩
          · rcases List.mem_cons.mp ht with rfl | ht
            · exact ⟨_, List.mem_cons_self .., hc'⟩
            · exact ⟨t, List.mem_cons_of_mem _ ht, hc'⟩
        obtain ⟨t', ht', hc''⟩ := hmem
        obtain ⟨hreached, hpage, hsub⟩ := h.children hrun t' ht' c' hc''
        refine ⟨hreached.mono hmore, hpage, ?_⟩
        simpa using hsub }

/-- What follows the children of a page, when a request was issued for each of its
links. -/
theorem fits_childrenDone {c : Context L} {issued : List L}
    (hreached : Reached chain issued (c.page :: c.nextPages)) (hpage : c.page.isEmpty = false)
    (hlinks : c.page.documentLinks ⊆ issued) :
    ∃ t', childrenDone o s c = [t'] ∧ Walk.leads t' ∧ Fits chain issued t' := by
  have hnext := hreached.next hpage hlinks
  unfold childrenDone
  split
  · match hpages : c.nextPages with
    | [] =>
        rw [hpages] at hnext
        exact ⟨_, rfl, rfl, hnext.done_of_nil⟩
    | page :: pages =>
        rw [hpages] at hnext
        exact ⟨_, rfl, rfl, List.cons_ne_nil _ _, hnext⟩
  · split
    · split
      · exact ⟨_, rfl, rfl, hreached, hpage, hlinks⟩
      · exact ⟨_, rfl, rfl, trivial⟩
    · exact ⟨_, rfl, rfl, trivial⟩

/-- A child has answered. -/
theorem answered {c : Context L} (h : Inv chain s (.awaitChild c :: ts))
    (hrun : s.isStopping = false) (failed : List L) :
    Inv chain { s with failedServices := failed, pendingStarts := s.pendingStarts - 1 } ts ∧
      ts.countP Walk.leads = 0 := by
  have hcount : ts.countP Walk.leads = 0 := by
    have hleads := (h.leads hrun).2
    have hnonneg := total_nonneg ts
    simp only [total_cons, Walk.pending] at hleads
    by_contra hne
    have := hleads (Nat.pos_of_ne_zero hne)
    omega
  refine ⟨?_, hcount⟩
  exact
    { fits := fun t ht => h.fits t (List.mem_cons_of_mem _ ht)
      check := h.check
      pending := by
        intro _
        have := h.pending hrun
        simp only [total_cons, Walk.pending] at this
        show s.pendingStarts - 1 = total ts
        omega
      leads := fun _ => ⟨hcount.trans_le (Nat.zero_le _), fun hpos => absurd hcount hpos.ne'⟩
      children := fun _ t ht => h.children hrun t (List.mem_cons_of_mem _ ht) }

/-- The walk goes on after the children of a page. -/
theorem cons_lead (h : Inv chain s ts) (hcount : ts.countP Walk.leads = 0) (htotal : total ts = 0)
    (ht : Walk.leads t) (hfits : Fits chain s.issued t) : Inv chain s (t :: ts) := by
  have hpending : Walk.pending t = 0 := by
    cases t <;> first | rfl | exact absurd ht Bool.false_ne_true
  have htotal' : total (t :: ts) = 0 := by rw [total_cons, hpending, htotal, add_zero]
  have hnil : (t :: ts).flatMap remaining = ts.flatMap remaining := by
    rw [remaining_eq_nil htotal', remaining_eq_nil htotal]
  exact
    { fits := List.forall_mem_cons.mpr ⟨hfits, h.fits⟩
      check := h.check
      pending := fun hrun => (h.pending hrun).trans (htotal.trans htotal'.symm)
      leads := by
        refine fun _ => ⟨?_, fun _ => htotal'⟩
        rw [List.countP_cons_of_pos ht, hcount]
      children := by
        rw [hnil]
        refine fun hrun => List.forall_mem_cons.mpr ⟨fun c hc => ?_, h.children hrun⟩
        cases t <;> first | exact absurd ht Bool.false_ne_true | cases hc }

/-- With the last answer the loop is over too, so that a request was issued for every
link of the page. -/
theorem childCompletion {c : Context L} (a : Answer) (h : Inv chain s (.awaitChild c :: ts)) :
    Inv chain (childCompletion o s c a).1 ((childCompletion o s c a).2 ++ ts) := by
  unfold Walk.childCompletion
  by_cases hstop : s.isStopping = true
  · rw [if_pos hstop]
    refine h.stopped hstop rfl h.check fun t' ht' => ?_
    rw [List.mem_singleton.mp ht']
    trivial
  · rw [if_neg hstop]
    have hrun : s.isStopping = false := by simpa using hstop
    obtain ⟨hinv, hcount⟩ := h.answered hrun
      (if isCountedFailure a then s.failedServices ++ [o.factorySelfLink] else s.failedServices)
    by_cases hlast : s.pendingStarts - 1 = 0
    · have htotal : total ts = 0 := (hinv.pending hrun).symm.trans hlast
      obtain ⟨hreached, hpage, hlinks⟩ := h.children hrun _ (List.mem_cons_self ..) c rfl
      have hnil : (.awaitChild c :: ts).flatMap remaining = [] :=
        (List.nil_append _).trans (remaining_eq_nil htotal)
      rw [hnil, List.append_nil] at hlinks
      dsimp only
      rw [if_neg (not_not.mpr hlast)]
      obtain ⟨t', hdone, hleads, hfit⟩ := fits_childrenDone hreached hpage hlinks
      rw [hdone]
      exact hinv.cons_lead hcount htotal hleads hfit
    · dsimp only
      rw [if_pos hlast]
      exact hinv

/-- The task that leads the walk is followed by another one, and nothing is committed. -/
theorem lead_one {t' : Task L} (h : Inv chain s (t :: ts)) (ht : Walk.leads t)
    (ht' : Walk.leads t') (hfits : Fits chain s.issued t') : Inv chain s (t' :: ts) :=
  h.lead ht rfl rfl rfl h.check (Or.inr ⟨t', rfl, ht', hfits⟩)

/-- A self-PATCH is handled. -/
theorem handlePatch {stage : TaskStage} {subStage : SubStage} {pages : List (Page L)}
    (h : Inv chain s (.patch stage subStage pages :: ts)) :
    Inv chain (handlePatch s stage subStage pages).1
      ((handlePatch s stage subStage pages).2 ++ ts) := by
  have hfits := h.fits _ (List.mem_cons_self ..)
  unfold Walk.handlePatch
  split
  · exact h.lead rfl rfl rfl rfl h.check (Or.inl rfl)
  · refine h.lead rfl rfl rfl rfl ?_ ?_
    · rintro ⟨hstage, hsub⟩
      obtain rfl : stage = .started := hstage
      obtain rfl : subStage = .checkNgAvailability := hsub
      exact hfits
    · dsimp only
      split
      next hgo =>
        obtain ⟨hstage, hsub⟩ := (Bool.and_eq_true _ _).mp hgo
        obtain rfl : stage = .started := of_decide_eq_true hstage
        obtain rfl : subStage = .synchronize := of_decide_eq_true hsub
        obtain ⟨hne, hreached⟩ := hfits
        refine Or.inr ⟨_, rfl, rfl, ?_⟩
        show Reached chain s.issued (if pages.isEmpty then s.queryPageReference else pages)
        rw [if_neg (by simpa using hne)]
        exact hreached
      next => exact Or.inl rfl

theorem fire {a : Answer} {r : Shared L × List (Task L)} (hfire : fire o s t a = some r)
    (h : Inv chain s (t :: ts)) : Inv chain r.1 (r.2 ++ ts) := by
  have hfits := h.fits _ (List.mem_cons_self ..)
  -- the pages that a task carries are those that are still to be read
  cases t with
  | handleQueryStage pages =>
      cases a with
      | done =>
          -- the answer of the query is the whole chain, and no page of it is read
          have hchain : pages = chain := hfits
          subst hchain
          have hreached : Reached pages s.issued pages :=
            ⟨[], rfl, fun page hpage => absurd hpage List.not_mem_nil⟩
          rcases ite_eq_iff.mp hfire with ⟨-, hfire⟩ | ⟨-, hfire⟩
          · cases hfire
            exact h.lead_one rfl rfl trivial
          · cases pages with
            | nil =>
                cases hfire
                exact h.lead_one rfl rfl hreached.done_of_nil
            | cons page pages =>
                cases hfire
                exact h.lead_one rfl rfl ⟨List.cons_ne_nil _ _, hreached⟩
      | failed statusCode =>
          cases hfire
          split
          · exact h.lead_one rfl rfl trivial
          · exact h.lead_one rfl rfl trivial
      | notOwner => cases hfire
  | patch stage subStage pages =>
      cases a with
      | done =>
          cases hfire
          exact h.handlePatch
      | failed | notOwner => cases hfire
  | handleSynchronizeStage pages =>
      cases a with
      | done =>
          cases pages with
          | nil =>
              cases hfire
              exact h.lead_one rfl rfl (Reached.done_of_nil hfits)
          | cons page nextPages =>
              rcases ite_eq_iff.mp hfire with ⟨-, hfire⟩ | ⟨-, hfire⟩
              · cases hfire
                exact h.lead_one rfl rfl trivial
              · rcases ite_eq_iff.mp hfire with ⟨-, hfire⟩ | ⟨-, hfire⟩
                · cases hfire
                  exact h.lead_one rfl rfl hfits
                · cases hfire
                  exact h.lead_one rfl rfl hfits
      | failed | notOwner =>
          cases pages with
          | nil | cons => cases hfire
  | selectOwner page nextPages =>
      cases a with
      | done =>
          rcases ite_eq_iff.mp hfire with ⟨-, hfire⟩ | ⟨-, hfire⟩
          · cases hfire
            exact h.lead_one rfl rfl trivial
          · cases hfire
            exact h.lead_one rfl rfl hfits
      | failed | notOwner =>
          cases hfire
          exact h.lead_one rfl rfl trivial
  | getPage page nextPages =>
      cases a with
      | done =>
          rcases ite_eq_iff.mp hfire with ⟨hempty, hfire⟩ | ⟨hempty, hfire⟩
          · cases hfire
            exact h.lead_one rfl rfl (Reached.done_of_empty hfits hempty)
          · cases hfire
            exact h.children_start rfl hfits (by simpa using hempty) (List.subset_append_right _ _)
      | failed statusCode =>
          cases hfire
          exact h.lead_one rfl rfl trivial
      | notOwner => cases hfire
  | synchronizeServices c links =>
      cases a with
      | done =>
          cases links with
          | nil =>
              cases hfire
              exact h.synchronizeServices_nil
          | cons link links =>
              rcases ite_eq_iff.mp hfire with ⟨hstop, hfire⟩ | ⟨-, hfire⟩
              · cases hfire
                refine h.stopped hstop rfl h.check fun t' ht' => ?_
                rw [List.mem_singleton.mp ht']
                trivial
              · cases hfire
                exact h.synchronizeServices_cons
      | failed | notOwner =>
          cases links with
          | nil | cons => cases hfire
  | awaitChild c =>
      cases a with
      | done | failed =>
          cases hfire
          exact h.childCompletion _
      | notOwner => cases hfire
  | retry c links =>
      cases a with
      | done =>
          cases hfire
          obtain ⟨hreached, hpage, hlinks⟩ := hfits
          exact h.children_start rfl hreached hpage
            (List.Subset.trans hlinks (List.subset_append_left _ _))
      | failed | notOwner => cases hfire

end Inv

/-! ## Runs -/

section Runs

variable {o : Config L} {chain : List (Page L)} {p : Pool (Shared L) (Task L)}

theorem reaches_inv (h : (walk o).Reaches (fun _ _ _ => True) (start chain) p) :
    Inv chain p.shared p.tasks := by
  apply Machine.invariant (Inv chain) h Inv.perm
  case init =>
    exact
      { fits := List.forall_mem_singleton.mpr rfl
        check := fun hcheck => absurd hcheck.2 nofun
        pending := fun _ => rfl
        leads := fun _ => ⟨le_refl 1, fun _ => rfl⟩
        children := fun _ t ht c hc => by
          rw [List.mem_singleton.mp ht] at hc
          cases hc }
  case input =>
    intro s ts _ hinv
    exact
      { fits := hinv.fits
        check := hinv.check
        pending := nofun
        leads := nofun
        children := nofun }
  case fire =>
    intro s t ts a r _ hfire hinv
    exact hinv.fire hfire

/-- A task at `CHECK_NG_AVAILABILITY` has covered the pages before the first empty one. -/
theorem covers_walked (h : (walk o).Reaches (fun _ _ _ => True) (start chain) p)
    (hcheck : AtCheck p.shared) : Covers (walked chain) p.shared.issued :=
  (reaches_inv h).check hcheck

/-! ## A walk on which nothing fails -/

theorem childCompletion_done {c : Context L} {s : Shared L} (hrun : s.isStopping = false) :
    childCompletion o s c .done =
      ({ s with pendingStarts := s.pendingStarts - 1 },
        if s.pendingStarts - 1 ≠ 0 then [] else childrenDone o s c) := by
  unfold childCompletion
  rw [if_neg (by simp [hrun])]
  rfl

/-- Every child of a page answers. -/
theorem reaches_children {p₀ : Pool (Shared L) (Task L)} {c : Context L} {links : List L}
    (hlinks : links ≠ []) {s : Shared L} (hrun : s.isStopping = false)
    (hpending : s.pendingStarts = links.length)
    (h : (walk o).Reaches (fun _ _ _ => True) p₀ ⟨s, [.synchronizeServices c links]⟩) :
    (walk o).Reaches (fun _ _ _ => True) p₀
      ⟨{ s with pendingStarts := 0, issued := s.issued ++ links }, childrenDone o s c⟩ := by
  induction links generalizing s with
  | nil => exact absurd rfl hlinks
  | cons link links ih =>
      have hsend := h.fire 0 .done rfl trivial
        (show fire o s (.synchronizeServices c (link :: links)) .done =
          some ({ s with issued := s.issued ++ [link] }, [.synchronizeServices c links, .awaitChild c])
          by simp [fire, hrun])
      have hdone := childCompletion_done (o := o) (c := c)
        (s := { s with issued := s.issued ++ [link] }) hrun
      match links with
      | [] =>
          -- the loop ends, then the last child answers
          have hloop := hsend.fire 0 .done rfl trivial rfl
          have hlast := hloop.fire 0 .done rfl trivial rfl
          have hcount : s.pendingStarts - 1 = 0 := by simp [hpending]
          rw [hdone] at hlast
          dsimp only at hlast
          rw [hcount, if_neg (not_not.mpr rfl)] at hlast
          simpa [childrenDone] using hlast
      | link' :: links =>
          have hanswer := hsend.fire 1 .done rfl trivial rfl
          have hcount : s.pendingStarts - 1 = (link' :: links).length := by
            rw [hpending, List.length_cons]
            omega
          have hne : ((link' :: links).length : Int) ≠ 0 := by
            rw [List.length_cons]
            omega
          rw [hdone] at hanswer
          dsimp only at hanswer
          rw [hcount, if_pos hne] at hanswer
          have hrest := ih (List.cons_ne_nil _ _) (s := { s with
            pendingStarts := (link' :: links).length, issued := s.issued ++ [link] }) hrun rfl hanswer
          simpa [childrenDone] using hrest

/-- A PATCH of a task that runs is handled. -/
theorem handlePatch_started {s : Shared L} (hstage : s.stage = .started) (subStage : SubStage)
    (pages : List (Page L)) :
    handlePatch s .started subStage pages =
      ({ s with
          subStage := subStage
          queryPageReference := if pages.isEmpty then s.queryPageReference else pages },
        if subStage = .synchronize then
          [.handleSynchronizeStage (if pages.isEmpty then s.queryPageReference else pages)]
        else []) := by
  unfold handlePatch
  rw [hstage, if_neg (by decide), ← hstage]
  simp

theorem reaches_check_of_patch {p₀ : Pool (Shared L) (Task L)} {pages : List (Page L)}
    {s : Shared L} (hstage : s.stage = .started)
    (h : (walk o).Reaches (fun _ _ _ => True) p₀ ⟨s, [.patch .started .checkNgAvailability pages]⟩) :
    ∃ p, (walk o).Reaches (fun _ _ _ => True) p₀ p ∧ AtCheck p.shared ∧
      p.shared.issued = s.issued := by
  have hpatch := h.fire 0 .done rfl trivial rfl
  rw [handlePatch_started hstage] at hpatch
  exact ⟨_, hpatch, ⟨hstage, rfl⟩, rfl⟩

/-- The page is fetched by its owner. -/
theorem reaches_getPage {p₀ : Pool (Shared L) (Task L)} {page : Page L} {pages : List (Page L)}
    {s : Shared L} (hrun : s.isStopping = false)
    (h : (walk o).Reaches (fun _ _ _ => True) p₀ ⟨s, [.handleSynchronizeStage (page :: pages)]⟩) :
    (walk o).Reaches (fun _ _ _ => True) p₀ ⟨s, [.getPage page pages]⟩ := by
  by_cases hrep : o.replication = true
  · have howner := h.fire 0 .done rfl trivial
      (show fire o s (.handleSynchronizeStage (page :: pages)) .done =
        some (s, [.selectOwner page pages]) by simp [fire, hrun, hrep])
    exact howner.fire 0 .done rfl trivial
      (show fire o s (.selectOwner page pages) .done = some (s, [.getPage page pages]) by
        simp [fire, hrun])
  · exact h.fire 0 .done rfl trivial
      (show fire o s (.handleSynchronizeStage (page :: pages)) .done =
        some (s, [.getPage page pages]) by simp [fire, hrun, hrep])

/-- The walk goes to the first empty page. -/
theorem reaches_check {p₀ : Pool (Shared L) (Task L)} (pages : List (Page L)) {s : Shared L}
    (hstage : s.stage = .started) (hrun : s.isStopping = false)
    (h : (walk o).Reaches (fun _ _ _ => True) p₀ ⟨s, [.handleSynchronizeStage pages]⟩) :
    ∃ p, (walk o).Reaches (fun _ _ _ => True) p₀ p ∧ AtCheck p.shared ∧
      p.shared.issued = s.issued ++ (walked pages).flatMap Page.documentLinks := by
  -- the walk ends at an empty page, also when others follow it
  induction pages generalizing s with
  | nil =>
      have hpatch := h.fire 0 .done rfl trivial rfl
      simpa [walked] using reaches_check_of_patch hstage hpatch
  | cons page pages ih =>
      have hget := reaches_getPage hrun h
      by_cases hempty : page.isEmpty = true
      · have hpatch := hget.fire 0 .done rfl trivial
          (show fire o s (.getPage page pages) .done =
            some (s, [.patch .started .checkNgAvailability (page :: pages)]) by simp [fire, hempty])
        have hwalked : walked (page :: pages) = [] :=
          List.takeWhile_cons_of_neg (by simp [hempty])
        rw [hwalked]
        simpa using reaches_check_of_patch hstage hpatch
      · have hstart := hget.fire 0 .done rfl trivial
          (show fire o s (.getPage page pages) .done =
            some ({ s with pendingStarts := page.documentLinks.length, failedServices := [] },
              [.synchronizeServices ⟨page, pages, 0⟩ page.documentLinks]) by
            simp [fire, hempty, synchronizeChildrenInQueryPage, hrun])
        have hlinks : page.documentLinks ≠ [] := by
          intro hnil
          simp [Page.isEmpty, hnil] at hempty
        have hwalked : walked (page :: pages) = page :: walked pages :=
          List.takeWhile_cons_of_pos (by simp [hempty])
        have hdone := reaches_children hlinks (s := { s with
          pendingStarts := page.documentLinks.length, failedServices := [] }) hrun rfl hstart
        obtain ⟨s', hs', hissued⟩ : ∃ s' : Shared L, s' =
            { s with
              pendingStarts := 0, failedServices := [], issued := s.issued ++ page.documentLinks } ∧
            s'.issued = s.issued ++ page.documentLinks := ⟨_, rfl, rfl⟩
        have hstage' : s'.stage = .started := by rw [hs', hstage]
        have hrun' : s'.isStopping = false := by rw [hs', hrun]
        rw [← hs'] at hdone
        rw [hwalked, List.flatMap_cons, ← List.append_assoc, ← hissued]
        cases pages with
        | nil =>
            rw [show walked ([] : List (Page L)) = [] from rfl, List.flatMap_nil, List.append_nil]
            exact reaches_check_of_patch hstage' hdone
        | cons page' pages =>
            have hpatch := hdone.fire 0 .done rfl trivial rfl
            rw [handlePatch_started hstage'] at hpatch
            exact ih (s := { s' with
              subStage := .synchronize, queryPageReference := page' :: pages }) hstage' hrun' hpatch

theorem exists_check (o : Config L) (chain : List (Page L)) :
    ∃ p, (walk o).Reaches (fun _ _ _ => True) (start chain) p ∧ AtCheck p.shared ∧
      p.shared.issued = (walked chain).flatMap Page.documentLinks := by
  have hstart : (walk o).Reaches (fun _ _ _ => True) (start chain) (start chain) := ⟨[], .refl⟩
  match chain with
  | [] =>
      have hpatch := hstart.fire 0 .done rfl trivial rfl
      exact reaches_check_of_patch rfl hpatch
  | page :: pages =>
      have hpatch := hstart.fire 0 .done rfl trivial rfl
      have hstage := hpatch.fire 0 .done rfl trivial rfl
      exact reaches_check (page :: pages) rfl rfl hstage

/-- Every run that comes to `CHECK_NG_AVAILABILITY` has issued a request for every link on
every page, exactly when every link is on a page before the first empty one. -/
theorem covers_iff (o : Config L) (chain : List (Page L)) :
    (∀ p, (walk o).Reaches (fun _ _ _ => True) (start chain) p → AtCheck p.shared →
      Covers chain p.shared.issued) ↔ ListedBeforeEmpty chain := by
  constructor
  · intro hall
    obtain ⟨p, hreach, hcheck, hissued⟩ := exists_check o chain
    have := hall p hreach hcheck
    rw [hissued] at this
    exact this
  · intro hlisted p hreach hcheck page hpage link hlink
    have hwalked := covers_walked hreach hcheck
    obtain ⟨q, hq, hlink'⟩ := List.mem_flatMap.mp (hlisted page hpage hlink)
    exact hwalked q hq hlink'

end Runs

/-- An empty page before one with a child: the task goes on without a request for it. -/
theorem empty_page_ends_walk : ∃ p : Pool (Shared String) (Task String),
    (walk ⟨false, "/factory", 10, 8⟩).Reaches (fun _ _ _ => True)
      (start [⟨0, []⟩, ⟨1, ["/factory/a"]⟩]) p ∧
      AtCheck p.shared ∧ ¬ Covers [⟨0, []⟩, ⟨1, ["/factory/a"]⟩] p.shared.issued := by
  obtain ⟨p, hreach, hcheck, hissued⟩ :=
    exists_check ⟨false, "/factory", 10, 8⟩ [⟨0, []⟩, ⟨1, ["/factory/a"]⟩]
  refine ⟨p, hreach, hcheck, fun hcovers => ?_⟩
  have hmem : "/factory/a" ∈ p.shared.issued :=
    hcovers ⟨1, ["/factory/a"]⟩ (by simp) (by simp)
  rw [hissued] at hmem
  exact absurd hmem (by decide)

end Xenon.SynchronizationTask.Walk

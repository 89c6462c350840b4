import Mathlib.Data.List.Nodup
import Mathlib.Logic.Function.Iterate
import Xenon.Common.Completion

/-!
# Synchronization of historical versions

A synchronization POST with `SYNCH_HISTORICAL_VERSIONS` walks over the pages of a
query for versioned links and synchronizes each link once. Two methods call each
other through the completion of the POST: `synchronizePage` nests a handler that
goes on with the next page, `synchronizeSingleVersion` one that goes on with the
next link of the page, and every synchronization of a version completes or fails
the POST itself.

The handler of a version passes an error on. The handler of a page is given that
error as `ee` and fails the POST with `e`, the error of the GET that fetched the
page, which is `null` there.
-/

namespace Xenon.Synchronization.Historical

open Common.Operation

variable {L E : Type*}

/-- The answer to the GET of a page: an error, or its document links. The next
page is the rest of the chain. -/
abbrev Page (L E : Type*) := Except E (List L)

/-- What becomes of one version: its number does not parse, or the broadcast and
what follows it complete the POST or fail it. -/
inductive VersionOutcome (E : Type*) where
  | notANumber (e : E)
  | answered (e : Option E)
deriving DecidableEq

def VersionOutcome.error : VersionOutcome E → Option E
  | .notANumber e => some e
  | .answered e => e

/-- The completion handlers of the POST: its own, and the two closures with what
they capture. -/
inductive Handler (L E : Type*) where
  | org
  | page (nextPages : List (Page L E))
  | version (documentLinks : List L) (documentLinkIndex : Nat)

/-- The POST and what the walk shares, with the history of the broadcasts, of the
deletions of the query task, and of the errors with which the POST was finished. -/
structure State (L E : Type*) where
  completion : Completion (Handler L E)
  synchronizedVersionedLinks : List L
  broadcasts : List L
  queryTaskDeleted : Nat
  finished : List (Option E)

/-- The next thing to be done. -/
inductive Call (L E : Type*) where
  | synchronizePage (pages : List (Page L E))
  | synchronizeSingleVersion (documentLinks : List L) (documentLinkIndex : Nat)
  | createAndBroadcastGetQuery (documentLink : L)
  /-- `post.complete()` for `none`, `post.fail(e)` otherwise. -/
  | completeOrFail (e : Option E)
  | returned

section Code

variable [DecidableEq L] (outcome : L → VersionOutcome E)

def synchronizePage (s : State L E) : List (Page L E) → State L E × Call L E
  | [] => ({ s with queryTaskDeleted := s.queryTaskDeleted + 1 }, .completeOrFail none)
  | .error e :: _ => (s, .completeOrFail (some e))
  | .ok documentLinks :: nextPages =>
      ({ s with completion := s.completion.nestCompletion (.page nextPages) },
        .synchronizeSingleVersion documentLinks 0)

def synchronizeSingleVersion (s : State L E) (documentLinks : List L) (documentLinkIndex : Nat) :
    State L E × Call L E :=
  match documentLinks[documentLinkIndex]? with
  | none => (s, .completeOrFail none)
  | some documentLink =>
      if documentLink ∈ s.synchronizedVersionedLinks then
        (s, .synchronizeSingleVersion documentLinks (documentLinkIndex + 1))
      else
        ({ s with
            completion := s.completion.nestCompletion (.version documentLinks documentLinkIndex)
            synchronizedVersionedLinks := s.synchronizedVersionedLinks ++ [documentLink] },
          .createAndBroadcastGetQuery documentLink)

def createAndBroadcastGetQuery (s : State L E) (documentLink : L) : State L E × Call L E :=
  match outcome documentLink with
  | .notANumber e => (s, .completeOrFail (some e))
  | .answered e => ({ s with broadcasts := s.broadcasts ++ [documentLink] }, .completeOrFail e)

/-- What a handler does with the error that it is given. -/
def Handler.handle (s : State L E) (e : Option E) : Handler L E → State L E × Call L E
  | .org => ({ s with finished := s.finished ++ [e] }, .returned)
  | .page nextPages =>
      match e with
      -- post.fail(e) with the error of the GET, which was checked to be null
      | some _ => (s, .completeOrFail none)
      | none => (s, .synchronizePage nextPages)
  | .version documentLinks documentLinkIndex =>
      match e with
      | some e => (s, .completeOrFail (some e))
      | none => (s, .synchronizeSingleVersion documentLinks (documentLinkIndex + 1))

def completeOrFail (s : State L E) (e : Option E) : State L E × Call L E :=
  match s.completion.handle .null with
  | none => (s, .returned)
  | some (h, completion) => h.handle { s with completion := completion } e

def step (c : State L E × Call L E) : State L E × Call L E :=
  match c.2 with
  | .synchronizePage pages => synchronizePage c.1 pages
  | .synchronizeSingleVersion documentLinks documentLinkIndex =>
      synchronizeSingleVersion c.1 documentLinks documentLinkIndex
  | .createAndBroadcastGetQuery documentLink => createAndBroadcastGetQuery outcome c.1 documentLink
  | .completeOrFail e => completeOrFail c.1 e
  | .returned => c

/-- The state after `n` calls. -/
def run (n : Nat) (c : State L E × Call L E) : State L E × Call L E :=
  (step outcome)^[n] c

/-- The completion of the POST to the query task: an error, or the pages. -/
def handleQueryTask (queryTask : Except E (List (Page L E))) : State L E × Call L E :=
  (⟨.handler .org, [], [], 0, []⟩,
    match queryTask with
    | .error e => .completeOrFail (some e)
    | .ok pages => .synchronizePage pages)

end Code

/-! ## What is asked for -/

/-- The links of all pages, and whether every page was fetched. -/
def linksOf : List (Page L E) → List L × Bool
  | [] => ([], true)
  | .error _ :: _ => ([], false)
  | .ok documentLinks :: pages => (documentLinks ++ (linksOf pages).1, (linksOf pages).2)

/-- The POST is finished with `e` as it should be: without an error only if every
page was fetched and every link on them was broadcast once and synchronized, and
with an error if the synchronization of a link failed. -/
structure Reported (outcome : L → VersionOutcome E) (pages : List (Page L E)) (s : State L E)
    (e : Option E) : Prop where
  complete : e = none → (linksOf pages).2 = true ∧ s.broadcasts.Nodup ∧
    ∀ link ∈ (linksOf pages).1, link ∈ s.broadcasts ∧ (outcome link).error = none
  failed : (∃ link ∈ s.synchronizedVersionedLinks, (outcome link).error ≠ none) → e ≠ none

/-! ## What the walk does -/

section Walk

variable [DecidableEq L] (outcome : L → VersionOutcome E)

/-- One version is synchronized. -/
def State.synchronize (s : State L E) (link : L) : State L E :=
  { s with
    synchronizedVersionedLinks := s.synchronizedVersionedLinks ++ [link]
    broadcasts :=
      match outcome link with
      | .notANumber _ => s.broadcasts
      | .answered _ => s.broadcasts ++ [link] }

/-- The links of a page up to the first that fails, and its error. -/
def syncLinks (s : State L E) : List L → State L E × Option E
  | [] => (s, none)
  | link :: links =>
      if link ∈ s.synchronizedVersionedLinks then syncLinks s links
      else
        match (outcome link).error with
        | some e => (s.synchronize outcome link, some e)
        | none => syncLinks (s.synchronize outcome link) links

/-- The pages up to the first that cannot be fetched or has a link that fails; the
error is what the POST is finished with. -/
def syncPages (s : State L E) : List (Page L E) → State L E × Option E
  | [] => ({ s with queryTaskDeleted := s.queryTaskDeleted + 1 }, none)
  | .error e :: _ => (s, some e)
  | .ok links :: pages =>
      match syncLinks outcome s links with
      | (s, some _) => (s, none)
      | (s, none) => syncPages s pages

variable {outcome} {s : State L E} {a b c : State L E × Call L E}

/-- Some number of calls leads from the one to the other. -/
def Runs (outcome : L → VersionOutcome E) (a b : State L E × Call L E) : Prop :=
  ∃ n, run outcome n a = b

theorem Runs.refl : Runs outcome a a := ⟨0, rfl⟩

theorem Runs.step_trans (h : Runs outcome (step outcome a) b) : Runs outcome a b := by
  obtain ⟨n, rfl⟩ := h
  exact ⟨n + 1, rfl⟩

theorem Runs.trans (h : Runs outcome a b) (h' : Runs outcome b c) : Runs outcome a c := by
  obtain ⟨n, rfl⟩ := h
  obtain ⟨m, rfl⟩ := h'
  exact ⟨m + n, Function.iterate_add_apply _ m n a⟩

/-- A version that has not been synchronized: its handler is nested, the version
synchronized, and the handler invoked with what came of it. -/
theorem runs_version {links : List L} {i : Nat} {link : L} (hlink : links[i]? = some link)
    (hnew : link ∉ s.synchronizedVersionedLinks) :
    Runs outcome (s, .synchronizeSingleVersion links i)
      ((Handler.version links i).handle (s.synchronize outcome link) (outcome link).error) := by
  have h₁ : step outcome (s, .synchronizeSingleVersion links i) =
      ({ s with
          completion := s.completion.nestCompletion (.version links i)
          synchronizedVersionedLinks := s.synchronizedVersionedLinks ++ [link] },
        .createAndBroadcastGetQuery link) := by
    simp only [step, synchronizeSingleVersion, hlink, if_neg hnew]
  apply Runs.step_trans
  rw [h₁]
  apply Runs.step_trans
  apply Runs.step_trans
  cases ho : outcome link with
  | notANumber e =>
      simp only [step, createAndBroadcastGetQuery, ho]
      exact ⟨0, by simp [run, completeOrFail, State.synchronize, ho, VersionOutcome.error,
        Completion.nestCompletion, Completion.handle]⟩
  | answered e =>
      simp only [step, createAndBroadcastGetQuery, ho]
      exact ⟨0, by simp [run, completeOrFail, State.synchronize, ho, VersionOutcome.error,
        Completion.nestCompletion, Completion.handle]⟩

/-- From a position on a page to the completion of the page. -/
theorem runs_links (links : List L) (i : Nat) (s : State L E) :
    Runs outcome (s, .synchronizeSingleVersion links i)
      ((syncLinks outcome s (links.drop i)).1,
        .completeOrFail (syncLinks outcome s (links.drop i)).2) := by
  induction hrest : links.drop i generalizing i s with
  | nil =>
      have hnone : links[i]? = none := by
        rw [List.getElem?_eq_none_iff]
        exact List.drop_eq_nil_iff.mp hrest
      apply Runs.step_trans
      simp only [step, synchronizeSingleVersion, hnone]
      exact Runs.refl
  | cons link rest ih =>
      have hlink : links[i]? = some link := by
        rw [← List.head?_drop, hrest]
        rfl
      have hnext : links.drop (i + 1) = rest := by
        rw [← List.tail_drop, hrest]
        rfl
      unfold syncLinks
      by_cases hseen : link ∈ s.synchronizedVersionedLinks
      · rw [if_pos hseen]
        apply Runs.step_trans
        simp only [step, synchronizeSingleVersion, hlink, if_pos hseen]
        exact ih (i + 1) s hnext
      · rw [if_neg hseen]
        refine (runs_version hlink hseen).trans ?_
        cases (outcome link).error with
        | some e => exact Runs.refl
        | none => exact ih (i + 1) _ hnext

/-- The walk over a page does not look at the completion. -/
theorem syncLinks_page (links : List L) (s : State L E) (completion : Completion (Handler L E)) :
    syncLinks outcome { s with completion := completion } links =
      ({ (syncLinks outcome s links).1 with completion := completion },
        (syncLinks outcome s links).2) := by
  induction links generalizing s with
  | nil => rfl
  | cons link links ih =>
      unfold syncLinks
      split
      · exact ih s
      · cases (outcome link).error with
        | some e => rfl
        | none => exact ih (s.synchronize outcome link)

theorem syncLinks_frame (s : State L E) (links : List L) :
    (syncLinks outcome s links).1.completion = s.completion := by
  have h : syncLinks outcome s links = _ := syncLinks_page links s s.completion
  rw [h]

theorem syncLinks_finished (s : State L E) (links : List L) :
    (syncLinks outcome s links).1.finished = s.finished := by
  induction links generalizing s with
  | nil => rfl
  | cons link links ih =>
      unfold syncLinks
      split
      · exact ih s
      · cases (outcome link).error with
        | some e => rfl
        | none => exact ih (s.synchronize outcome link)

theorem syncPages_finished (s : State L E) (pages : List (Page L E)) :
    (syncPages outcome s pages).1.finished = s.finished := by
  induction pages generalizing s with
  | nil => rfl
  | cons page pages ih =>
      match page with
      | .error e => rfl
      | .ok links =>
          have hlinks : (syncLinks outcome s links).1.finished = s.finished :=
            syncLinks_finished s links
          unfold syncPages
          cases hr : syncLinks outcome s links with
          | mk s' e =>
              rw [hr] at hlinks
              cases e with
              | some e => exact hlinks
              | none => exact (ih s').trans hlinks

/-- The POST is finished. -/
def State.finish (s : State L E) (e : Option E) : State L E :=
  { s with completion := .null, finished := s.finished ++ [e] }

theorem runs_finish (h : s.completion = .handler .org) (e : Option E) :
    Runs outcome (s, .completeOrFail e) (s.finish e, .returned) := by
  apply Runs.step_trans
  simp only [step, completeOrFail, h, Completion.handle, Handler.handle]
  exact Runs.refl

/-- A page that was fetched: its handler is nested under those of its versions, and
invoked when they are done. -/
theorem runs_page (links : List L) (pages : List (Page L E)) (h : s.completion = .handler .org) :
    Runs outcome (s, .synchronizePage (.ok links :: pages))
      ((Handler.page pages).handle (syncLinks outcome s links).1
        (syncLinks outcome s links).2) := by
  have hlinks : Runs outcome
      ({ s with completion := .nested (.page pages) (.handler .org) },
        .synchronizeSingleVersion links 0) _ := runs_links links 0 _
  rw [List.drop_zero, syncLinks_page] at hlinks
  apply Runs.step_trans
  simp only [step, synchronizePage, h, Completion.nestCompletion]
  refine hlinks.trans (Runs.step_trans ?_)
  simp only [step, completeOrFail, Completion.handle]
  rw [← h, ← syncLinks_frame s links]
  exact Runs.refl

/-- From a page to the end. The error of a version ends with the page: its handler
fails the POST with `null`. -/
theorem runs_pages (pages : List (Page L E)) (s : State L E) (h : s.completion = .handler .org) :
    Runs outcome (s, .synchronizePage pages)
      ((syncPages outcome s pages).1.finish (syncPages outcome s pages).2, .returned) := by
  induction pages generalizing s with
  | nil =>
      apply Runs.step_trans
      simp only [step, synchronizePage, syncPages]
      apply runs_finish
      exact h
  | cons page pages ih =>
      match page with
      | .error e =>
          apply Runs.step_trans
          simp only [step, synchronizePage, syncPages]
          exact runs_finish h (some e)
      | .ok links =>
          refine (runs_page links pages h).trans ?_
          have hframe : (syncLinks outcome s links).1.completion = .handler .org :=
            (syncLinks_frame s links).trans h
          unfold syncPages
          cases hr : syncLinks outcome s links with
          | mk s' e =>
              rw [hr] at hframe
              cases e with
              | some e => exact runs_finish hframe none
              | none => exact ih s' hframe

/-! ## What it reports -/

/-- Every link that was synchronized was broadcast once and did not fail. -/
structure Clean (outcome : L → VersionOutcome E) (s : State L E) : Prop where
  nodup : s.synchronizedVersionedLinks.Nodup
  broadcasts : s.broadcasts = s.synchronizedVersionedLinks
  error : ∀ link ∈ s.synchronizedVersionedLinks, (outcome link).error = none

omit [DecidableEq L] in
theorem Clean.synchronize {link : L} (h : Clean outcome s)
    (hnew : link ∉ s.synchronizedVersionedLinks) (hlink : (outcome link).error = none) :
    Clean outcome (s.synchronize outcome link) where
  nodup := by
    simpa [State.synchronize, List.nodup_append] using
      ⟨h.nodup, fun x hx heq => hnew (heq ▸ hx)⟩
  broadcasts := by
    cases ho : outcome link with
    | notANumber e => simp [ho, VersionOutcome.error] at hlink
    | answered e => simp [State.synchronize, ho, h.broadcasts]
  error x hx := by
    rw [State.synchronize, List.mem_append, List.mem_singleton] at hx
    rcases hx with hx | rfl
    · exact h.error x hx
    · exact hlink

theorem syncLinks_subset (outcome : L → VersionOutcome E) (s : State L E) (links : List L) :
    s.synchronizedVersionedLinks ⊆ (syncLinks outcome s links).1.synchronizedVersionedLinks := by
  induction links generalizing s with
  | nil => exact List.Subset.refl _
  | cons link links ih =>
      have hmore : s.synchronizedVersionedLinks ⊆
          (s.synchronize outcome link).synchronizedVersionedLinks :=
        List.subset_append_left _ _
      unfold syncLinks
      split
      · exact ih s
      · cases (outcome link).error with
        | some e => exact hmore
        | none => exact List.Subset.trans hmore (ih _)

/-- A page without a failing link. -/
theorem syncLinks_clean {links : List L} (hs : Clean outcome s)
    (hall : ∀ link ∈ links, (outcome link).error = none) :
    (syncLinks outcome s links).2 = none ∧ Clean outcome (syncLinks outcome s links).1 ∧
      links ⊆ (syncLinks outcome s links).1.synchronizedVersionedLinks := by
  induction links generalizing s with
  | nil => exact ⟨rfl, hs, List.nil_subset _⟩
  | cons link links ih =>
      have hrest : ∀ link ∈ links, (outcome link).error = none :=
        fun x hx => hall x (List.mem_cons_of_mem _ hx)
      unfold syncLinks
      by_cases hseen : link ∈ s.synchronizedVersionedLinks
      · rw [if_pos hseen]
        obtain ⟨he, hclean, hsub⟩ := ih hs hrest
        exact ⟨he, hclean, List.cons_subset.mpr ⟨syncLinks_subset outcome s links hseen, hsub⟩⟩
      · have hlink := hall link (List.mem_cons_self ..)
        rw [if_neg hseen, hlink]
        obtain ⟨he, hclean, hsub⟩ := ih (hs.synchronize hseen hlink) hrest
        refine ⟨he, hclean, List.cons_subset.mpr ⟨syncLinks_subset outcome _ links ?_, hsub⟩⟩
        exact List.mem_append_right _ (List.mem_singleton_self _)

/-- A page with a failing link stops there, with an error. -/
theorem syncLinks_failing {links : List L} (hs : Clean outcome s)
    (hsome : ∃ link ∈ links, (outcome link).error ≠ none) :
    (syncLinks outcome s links).2 ≠ none ∧
      ∃ link ∈ (syncLinks outcome s links).1.synchronizedVersionedLinks,
        (outcome link).error ≠ none := by
  induction links generalizing s with
  | nil =>
      obtain ⟨link, hlink, -⟩ := hsome
      exact absurd hlink List.not_mem_nil
  | cons link links ih =>
      have hrest : (outcome link).error = none → ∃ link ∈ links, (outcome link).error ≠ none := by
        intro hnone
        obtain ⟨x, hx, hne⟩ := hsome
        rcases List.mem_cons.mp hx with rfl | hx
        · exact absurd hnone hne
        · exact ⟨x, hx, hne⟩
      unfold syncLinks
      by_cases hseen : link ∈ s.synchronizedVersionedLinks
      · rw [if_pos hseen]
        exact ih hs (hrest (hs.error link hseen))
      · rw [if_neg hseen]
        cases hlink : (outcome link).error with
        | some e =>
            refine ⟨nofun, link, List.mem_append_right _ (List.mem_singleton_self _), ?_⟩
            rw [hlink]
            nofun
        | none => exact ih (hs.synchronize hseen hlink) (hrest hlink)

theorem syncPages_clean {pages : List (Page L E)} (hs : Clean outcome s)
    (hall : ∀ link ∈ (linksOf pages).1, (outcome link).error = none) :
    Clean outcome (syncPages outcome s pages).1 ∧
      s.synchronizedVersionedLinks ⊆ (syncPages outcome s pages).1.synchronizedVersionedLinks ∧
      ((syncPages outcome s pages).2 = none → (linksOf pages).2 = true ∧
        (linksOf pages).1 ⊆ (syncPages outcome s pages).1.synchronizedVersionedLinks) := by
  induction pages generalizing s with
  | nil =>
      exact ⟨⟨hs.nodup, hs.broadcasts, hs.error⟩, List.Subset.refl _,
        fun _ => ⟨rfl, List.nil_subset _⟩⟩
  | cons page pages ih =>
      match page with
      | .error e => exact ⟨hs, List.Subset.refl _, nofun⟩
      | .ok links =>
          obtain ⟨hlinks, hpages⟩ := List.forall_mem_append.mp hall
          obtain ⟨he, hclean, hsub⟩ := syncLinks_clean hs hlinks
          have hmore := syncLinks_subset outcome s links
          unfold syncPages
          cases hr : syncLinks outcome s links with
          | mk s' e =>
              simp only [hr] at he hclean hsub hmore
              subst he
              obtain ⟨hclean', hmore', hdone⟩ := ih hclean hpages
              refine ⟨hclean', List.Subset.trans hmore hmore', fun hnone => ⟨(hdone hnone).1, ?_⟩⟩
              exact List.append_subset.mpr ⟨List.Subset.trans hsub hmore', (hdone hnone).2⟩

/-- A link that fails: the POST is finished with `null`. -/
theorem syncPages_failing {pages : List (Page L E)} (hs : Clean outcome s)
    (hsome : ∃ link ∈ (linksOf pages).1, (outcome link).error ≠ none) :
    (syncPages outcome s pages).2 = none ∧
      ∃ link ∈ (syncPages outcome s pages).1.synchronizedVersionedLinks,
        (outcome link).error ≠ none := by
  induction pages generalizing s with
  | nil =>
      obtain ⟨link, hlink, -⟩ := hsome
      exact absurd hlink List.not_mem_nil
  | cons page pages ih =>
      match page with
      | .error e =>
          obtain ⟨link, hlink, -⟩ := hsome
          exact absurd hlink List.not_mem_nil
      | .ok links =>
          by_cases hfail : ∃ link ∈ links, (outcome link).error ≠ none
          · obtain ⟨he, hlink⟩ := syncLinks_failing hs hfail
            unfold syncPages
            cases hr : syncLinks outcome s links with
            | mk s' e =>
                simp only [hr] at he hlink
                cases e with
                | some e => exact ⟨rfl, hlink⟩
                | none => exact absurd rfl he
          · have hall : ∀ link ∈ links, (outcome link).error = none := by
              intro link hlink
              by_contra hne
              exact hfail ⟨link, hlink, hne⟩
            have hpages : ∃ link ∈ (linksOf pages).1, (outcome link).error ≠ none := by
              obtain ⟨link, hlink, hne⟩ := hsome
              rcases List.mem_append.mp hlink with hlink | hlink
              · exact absurd (hall link hlink) hne
              · exact ⟨link, hlink, hne⟩
            obtain ⟨he, hclean, -⟩ := syncLinks_clean hs hall
            unfold syncPages
            cases hr : syncLinks outcome s links with
            | mk s' e =>
                simp only [hr] at he hclean
                subst he
                exact ih hclean hpages

/-- The chain of pages behind the query task. -/
def chainOf : Except E (List (Page L E)) → List (Page L E)
  | .error e => [.error e]
  | .ok pages => pages

theorem runs_queryTask (queryTask : Except E (List (Page L E))) :
    Runs outcome (handleQueryTask queryTask)
      ((syncPages outcome (handleQueryTask queryTask).1 (chainOf queryTask)).1.finish
        (syncPages outcome (handleQueryTask queryTask).1 (chainOf queryTask)).2, .returned) := by
  match queryTask with
  | .error e => exact runs_finish rfl (some e)
  | .ok pages => exact runs_pages pages _ rfl

theorem run_returned (n m : Nat) {s : State L E} (h : run outcome n a = (s, .returned))
    (hm : n ≤ m) : run outcome m a = (s, .returned) := by
  obtain ⟨k, rfl⟩ := Nat.exists_eq_add_of_le' hm
  rw [run, Function.iterate_add_apply]
  show (step outcome)^[k] (run outcome n a) = _
  rw [h]
  exact Function.iterate_fixed rfl k

/-- Whatever the pages and the outcomes of the versions, the POST is finished once and
for all. It is reported as it should be exactly when no version fails that is on a page
before the first one that cannot be fetched. -/
theorem historical_reported_iff (outcome : L → VersionOutcome E)
    (queryTask : Except E (List (Page L E))) :
    ∃ n s e, (∀ m ≥ n, run outcome m (handleQueryTask queryTask) = (s, .returned)) ∧
      s.finished = [e] ∧
      (Reported outcome (chainOf queryTask) s e ↔
        ∀ link ∈ (linksOf (chainOf queryTask)).1, (outcome link).error = none) := by
  obtain ⟨n, hn⟩ : Runs outcome (handleQueryTask queryTask) _ := runs_queryTask queryTask
  have hstart : Clean outcome (handleQueryTask queryTask).1 :=
    ⟨List.nodup_nil, rfl, fun link hlink => absurd hlink List.not_mem_nil⟩
  refine ⟨n, _, (syncPages outcome (handleQueryTask queryTask).1 (chainOf queryTask)).2,
    fun m hm => run_returned n m hn hm, ?_, ?_⟩
  · rw [State.finish, syncPages_finished]
    rfl
  constructor
  · intro hreported
    by_contra hfail
    push Not at hfail
    obtain ⟨hnone, hlink⟩ := syncPages_failing hstart hfail
    exact hreported.failed hlink hnone
  · intro hall
    obtain ⟨hclean, -, hdone⟩ := syncPages_clean hstart hall
    constructor
    · intro hnone
      obtain ⟨hfetched, hsub⟩ := hdone hnone
      have hbroadcasts := hclean.broadcasts
      refine ⟨hfetched, ?_, fun link hlink => ⟨?_, hall link hlink⟩⟩
      · show List.Nodup (syncPages outcome _ _).1.broadcasts
        rw [hbroadcasts]
        exact hclean.nodup
      · show link ∈ (syncPages outcome _ _).1.broadcasts
        rw [hbroadcasts]
        exact hsub hlink
    · rintro ⟨link, hlink, hne⟩
      exact absurd (hclean.error link hlink) hne

end Walk

/-- One page with one version, whose synchronization fails: the POST is finished with
a null error. -/
theorem version_failure_is_lost :
    let outcome : String → VersionOutcome String := fun _ => .answered (some "mismatch")
    let queryTask : Except String (List (Page String String)) := .ok [.ok ["/s?documentVersion=0"]]
    (run outcome 6 (handleQueryTask queryTask)).1.finished = [none] ∧
      (run outcome 6 (handleQueryTask queryTask)).1.broadcasts = ["/s?documentVersion=0"] ∧
      ¬ Reported outcome (chainOf queryTask) (run outcome 6 (handleQueryTask queryTask)).1 none := by
  refine ⟨by decide, by decide, fun hreported => ?_⟩
  exact hreported.failed ⟨"/s?documentVersion=0", by decide, nofun⟩ rfl

end Xenon.Synchronization.Historical

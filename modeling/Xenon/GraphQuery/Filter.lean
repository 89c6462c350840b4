import Xenon.GraphQuery.Service

/-!
# The filter on the stages

Each stage before the last one is to keep the documents that lead into what the next stage keeps.
The filter goes through the stages from the last one down, and it stops at a stage without results.
So it does nothing at all where the traversal has ended before the last stage.
-/

namespace Xenon.GraphQuery

open Xenon.Foundation
open Xenon.QueryTask (Failure)

/-! ## One stage -/

/-- A link is selected from a document. -/
def Results.HasLink (r : Results) (document link : String) : Prop :=
  ∃ m ∈ r.selectedLinksPerDocument, ∃ e ∈ m, e.1 = document ∧ ∃ l ∈ e.2, l.2 = link

/-- `kept` is what `raw` is to be before `next`. -/
structure Filtered (raw next kept : Results) : Prop where
  documentLinks : ∀ document, document ∈ kept.documentLinks ↔ document ∈ raw.documentLinks ∧
    ∃ link ∈ next.documentLinks, raw.HasLink document link
  selectedLinks : ∃ s ∈ kept.selectedLinks, ∀ link, link ∈ s ↔ link ∈ next.documentLinks ∧
    ∃ document ∈ kept.documentLinks, raw.HasLink document link
  documentCount : kept.documentCount = some (kept.documentLinks.length : Int)
  documents : ∀ m ∈ raw.documents, ∃ m' ∈ kept.documents, ∀ e, e ∈ m' ↔
    e ∈ m ∧ (e.1 ∈ raw.documentLinks → e.1 ∈ kept.documentLinks)
  selectedLinksPerDocument : ∀ m ∈ raw.selectedLinksPerDocument,
    ∃ m' ∈ kept.selectedLinksPerDocument, ∀ e, e ∈ m' ↔ e ∈ m ∧ e.1 ∈ kept.documentLinks

section

variable {raw next : Results}

/-- The results of a query that has found documents. -/
theorem Results.Selects.exists_entries (h : raw.Selects) (hne : raw.documentLinks ≠ []) :
    ∃ m s, raw.selectedLinksPerDocument = some m ∧ raw.selectedLinks = some s := by
  cases hm : raw.selectedLinksPerDocument with
  | none => exact absurd (h.nothing (Or.inl hm)) hne
  | some m =>
      cases hs : raw.selectedLinks with
      | none => exact absurd (h.nothing (Or.inr hs)) hne
      | some s => exact ⟨m, s, rfl, rfl⟩

theorem hasLink_iff {m : List (String × List (String × String))}
    (hm : raw.selectedLinksPerDocument = some m) (document link : String) :
    raw.HasLink document link ↔ ∃ e ∈ m, e.1 = document ∧ ∃ l ∈ e.2, l.2 = link := by
  rw [Results.HasLink, hm]
  simp only [Option.mem_def, Option.some.injEq, exists_eq_left']

/-- The documents that the filter removes. -/
def unusedDocumentLinks (m : List (String × List (String × String))) (next : Results) :
    List String :=
  (m.filter fun e => (e.2.filter fun l => l.2 ∉ next.documentLinks).length = e.2.length).map (·.1)

theorem mem_unusedDocumentLinks {m : List (String × List (String × String))}
    (hm : raw.selectedLinksPerDocument = some m) (hkeys : (m.map (·.1)).Nodup)
    {e : String × List (String × String)} (he : e ∈ m) :
    e.1 ∈ unusedDocumentLinks m next ↔
      ¬ ∃ link ∈ next.documentLinks, raw.HasLink e.1 link := by
  have hone : ∀ e' ∈ m, e'.1 = e.1 → e' = e := fun e' he' heq =>
    List.inj_on_of_nodup_map hkeys he' he heq
  unfold unusedDocumentLinks
  simp only [List.mem_map, List.mem_filter, decide_eq_true_eq, List.length_filter_eq_length_iff,
    hasLink_iff hm]
  constructor
  · rintro ⟨e', ⟨he', hall⟩, heq⟩ ⟨link, hlink, e'', he'', heq'', l, hl, rfl⟩
    rw [hone e'' he'' heq'', ← hone e' he' heq] at hl
    exact hall l hl hlink
  · intro hnot
    refine ⟨e, ⟨he, ?_⟩, rfl⟩
    intro l hl hlink
    exact hnot ⟨l.2, hlink, e, he, rfl, l, hl, rfl⟩

theorem filterStage_spec (h : raw.Selects) (hne : raw.documentLinks ≠ []) (next : Results) :
    ∃ kept, filterStage raw next = .ok kept ∧ Filtered raw next kept := by
  obtain ⟨m, s, hm, hs⟩ := h.exists_entries hne
  obtain ⟨hkeys, hdocuments⟩ := h.entries m hm
  have hselected := h.selected m hm s hs
  -- a document is unused when none of its links leads to the next stage
  have hkept : ∀ document ∈ raw.documentLinks, (document ∉ unusedDocumentLinks m next ↔
      ∃ link ∈ next.documentLinks, raw.HasLink document link) := by
    intro document hdocument
    obtain ⟨e, he, rfl⟩ := List.mem_map.mp ((hdocuments document).mp hdocument)
    rw [mem_unusedDocumentLinks hm hkeys he, not_not]
  have hmem : ∀ document, document ∈ raw.documentLinks.filter
        (· ∉ unusedDocumentLinks m next) ↔ document ∈ raw.documentLinks ∧
      ∃ link ∈ next.documentLinks, raw.HasLink document link := by
    intro document
    rw [List.mem_filter, decide_eq_true_eq]
    exact and_congr_right (hkept document)
  have hfilter : filterStage raw next = .ok
      { raw with
        documents := raw.documents.map (removeKeys (unusedDocumentLinks m next))
        documentLinks := raw.documentLinks.filter (· ∉ unusedDocumentLinks m next)
        selectedLinks := some (s.filter (· ∉ (m.flatMap fun e => e.2.map (·.2)).filter
          (· ∉ next.documentLinks)))
        selectedLinksPerDocument := some (removeKeys (unusedDocumentLinks m next) m)
        documentCount := some ((raw.documentLinks.filter
          (· ∉ unusedDocumentLinks m next)).length : Int) } := by
    rw [filterStage, hm, hs]
    rfl
  refine ⟨_, hfilter, ?_⟩
  constructor
  · exact hmem
  · refine ⟨_, rfl, ?_⟩
    intro link
    simp only [Finset.mem_filter, List.mem_filter, decide_eq_true_eq, hmem, hselected,
      List.mem_flatMap, List.mem_map]
    constructor
    · rintro ⟨⟨e, he, l, hl, rfl⟩, hused⟩
      have hnext : l.2 ∈ next.documentLinks := by
        by_contra hnot
        exact hused ⟨⟨e, he, l, hl, rfl⟩, hnot⟩
      have hlink : raw.HasLink e.1 l.2 := (hasLink_iff hm _ _).mpr ⟨e, he, rfl, l, hl, rfl⟩
      have hdocument : e.1 ∈ raw.documentLinks := (hdocuments e.1).mpr (List.mem_map_of_mem he)
      exact ⟨hnext, e.1, ⟨hdocument, l.2, hnext, hlink⟩, hlink⟩
    · -- a selected link that the next stage uses is kept whatever document it is of
      rintro ⟨hnext, document, -, hlink⟩
      obtain ⟨e, he, -, l, hl, rfl⟩ := (hasLink_iff hm _ _).mp hlink
      exact ⟨⟨e, he, l, hl, rfl⟩, fun hunused => hunused.2 hnext⟩
  · rfl
  · intro d hd
    refine ⟨removeKeys (unusedDocumentLinks m next) d, ?_, ?_⟩
    · rw [Option.mem_def] at hd ⊢
      show raw.documents.map _ = _
      rw [hd]
      rfl
    · intro e
      rw [removeKeys, List.mem_filter, decide_eq_true_eq]
      apply and_congr_right
      intro _
      show _ ↔ (e.1 ∈ raw.documentLinks → e.1 ∈ raw.documentLinks.filter _)
      rw [List.mem_filter, decide_eq_true_eq]
      constructor
      · exact fun hused hdocument => ⟨hdocument, hused⟩
      · intro hfiltered hunused
        obtain ⟨e', he', heq⟩ := List.mem_map.mp hunused
        have hdocument : e.1 ∈ raw.documentLinks :=
          (hdocuments e.1).mpr (heq ▸ List.mem_map_of_mem (List.mem_of_mem_filter he'))
        exact (hfiltered hdocument).2 hunused
  · intro m' hm'
    rw [hm] at hm'
    cases hm'
    refine ⟨_, rfl, ?_⟩
    intro e
    rw [removeKeys, List.mem_filter, decide_eq_true_eq]
    apply and_congr_right
    intro he
    show _ ↔ e.1 ∈ raw.documentLinks.filter _
    rw [List.mem_filter, decide_eq_true_eq]
    exact ⟨fun hused => ⟨(hdocuments e.1).mpr (List.mem_map_of_mem he), hused⟩, fun h => h.2⟩

end

/-! ## All stages -/

/-- Every stage that another one with results follows keeps what leads into what that one keeps,
and the deepest stage keeps all. -/
structure StagesFiltered (raw final : List (Option Results)) : Prop where
  filtered : ∀ i r r', raw[i]? = some (some r) → raw[i + 1]? = some (some r') →
    ∃ kept next, final[i]? = some (some kept) ∧ final[i + 1]? = some (some next) ∧
      Filtered r next kept
  deepest : ∀ i r, raw[i]? = some (some r) → (∀ r', raw[i + 1]? ≠ some (some r')) →
    final[i]? = some (some r)

/-- The loop has filtered the stages from `i` on. -/
structure FilteredFrom (raw stages : List (Option Results)) (i : ℕ) : Prop where
  length : stages.length = raw.length
  below : ∀ j < i, stages[j]? = raw[j]?
  last : ∀ j, j + 1 = raw.length → stages[j]? = raw[j]?
  filtered : ∀ j r, i ≤ j → j + 1 < raw.length → raw[j]? = some (some r) →
    ∃ kept next, stages[j]? = some (some kept) ∧ stages[j + 1]? = some (some next) ∧
      Filtered r next kept

/-- All stages have results, and those before the last one are of queries that found documents. -/
structure Complete (raw : List (Option Results)) : Prop where
  all : ∀ j < raw.length, ∃ r, raw[j]? = some (some r)
  continued : ∀ j r, raw[j]? = some (some r) → j + 1 < raw.length →
    r.Selects ∧ r.documentLinks ≠ []

variable {raw stages : List (Option Results)} {i : ℕ}

theorem FilteredFrom.exists_current (hraw : Complete raw) (h : FilteredFrom raw stages i)
    (hi : i < raw.length) : ∃ current, stages[i]? = some (some current) := by
  by_cases hlast : i + 1 = raw.length
  · rw [h.last i hlast]
    exact hraw.all i hi
  · obtain ⟨r, hr⟩ := hraw.all i hi
    obtain ⟨kept, -, hkept, -⟩ := h.filtered i r le_rfl (by omega) hr
    exact ⟨kept, hkept⟩

/-- One turn of the loop. -/
theorem FilteredFrom.turn (h : FilteredFrom raw stages (i + 1))
    (hi : i + 1 < raw.length) {r current kept : Results} (hr : raw[i]? = some (some r))
    (hcurrent : stages[i + 1]? = some (some current)) (hkept : Filtered r current kept) :
    FilteredFrom raw (stages.set i (some kept)) i := by
  have hset : (stages.set i (some kept))[i]? = some (some kept) :=
    List.getElem?_set_self (by rw [h.length]; omega)
  have hother : ∀ j, i ≠ j → (stages.set i (some kept))[j]? = stages[j]? := fun j hj =>
    List.getElem?_set_ne hj
  constructor
  · rw [List.length_set]
    exact h.length
  · intro j hj
    rw [hother j (by omega)]
    exact h.below j (by omega)
  · intro j hj
    rw [hother j (by omega)]
    exact h.last j hj
  · intro j r' hj hlt hr'
    by_cases heq : i = j
    · subst heq
      rw [hr] at hr'
      cases hr'
      refine ⟨kept, current, hset, ?_, hkept⟩
      rw [hother (i + 1) (by omega)]
      exact hcurrent
    · rw [hother j heq, hother (j + 1) (by omega)]
      exact h.filtered j r' (by omega) hlt hr'

/-- The loop gets to the first stage. -/
theorem exists_applyFilterFrom (hraw : Complete raw)
    (h : FilteredFrom raw stages i) (hi : i < raw.length) :
    ∃ final, applyFilterFrom stages i = .ok final ∧ FilteredFrom raw final 0 := by
  induction i generalizing stages with
  | zero => exact ⟨stages, rfl, h⟩
  | succ i ih =>
      obtain ⟨current, hcurrent⟩ := h.exists_current hraw hi
      obtain ⟨r, hr⟩ := hraw.all i (by omega)
      obtain ⟨hselects, hne⟩ := hraw.continued i r hr hi
      obtain ⟨kept, hfilter, hkept⟩ := filterStage_spec hselects hne current
      have hprevious : stages[i]? = some (some r) := by
        rw [h.below i (Nat.lt_succ_self i), hr]
      obtain ⟨final, hfinal, hfiltered⟩ := ih (h.turn hi hr hcurrent hkept) (by omega)
      refine ⟨final, ?_, hfiltered⟩
      rw [applyFilterFrom, hcurrent, hprevious]
      show (filterStage r current >>= fun kept =>
        applyFilterFrom (stages.set i (some kept)) i) = _
      rw [hfilter]
      exact hfinal

theorem applyFilter_complete (hraw : Complete raw) (hne : raw ≠ []) :
    ∃ final, applyFilterOnStageResults raw = .ok final ∧ StagesFiltered raw final := by
  have hlength : 0 < raw.length := List.length_pos_of_ne_nil hne
  have hstart : FilteredFrom raw raw (raw.length - 1) := by
    constructor
    · rfl
    · exact fun _ _ => rfl
    · exact fun _ _ => rfl
    · intro j r hj hlt
      omega
  obtain ⟨final, hfinal, hfiltered⟩ := exists_applyFilterFrom hraw hstart (by omega)
  refine ⟨final, hfinal, ?_⟩
  constructor
  · intro i r r' hr hr'
    have hlt : i + 1 < raw.length := (List.getElem?_eq_some_iff.mp hr').1
    exact hfiltered.filtered i r (Nat.zero_le i) hlt hr
  · intro i r hr hdeepest
    have hlt : i < raw.length := (List.getElem?_eq_some_iff.mp hr).1
    have hlast : i + 1 = raw.length := by
      by_contra hnot
      obtain ⟨r', hr'⟩ := hraw.all (i + 1) (by omega)
      exact hdeepest r' hr'
    rw [hfiltered.last i hlast, hr]

/-! ## Where the traversal ended early -/

/-- Every document of a stage leads into the next one, and so does every link. -/
def NothingToRemove (raw : List (Option Results)) : Prop :=
  ∀ i r r', raw[i]? = some (some r) → raw[i + 1]? = some (some r') →
    ∀ document ∈ r.documentLinks, (∃ link, r.HasLink document link) ∧
      ∀ link, r.HasLink document link → link ∈ r'.documentLinks

/-- The loop stops at once at a last stage without results. -/
theorem applyFilter_of_last_none {m : ℕ} (hlength : raw.length = m + 2)
    (hlast : raw[m + 1]? = some none) : applyFilterOnStageResults raw = .ok raw := by
  rw [applyFilterOnStageResults, hlength]
  show applyFilterFrom raw (m + 1) = _
  rw [applyFilterFrom, hlast]

theorem filtered_self_iff {r next : Results} (h : r.Selects) (hne : r.documentLinks ≠ []) :
    Filtered r next r ↔ ∀ document ∈ r.documentLinks, (∃ link, r.HasLink document link) ∧
      ∀ link, r.HasLink document link → link ∈ next.documentLinks := by
  obtain ⟨m, s, hm, hs⟩ := h.exists_entries hne
  have hselected := h.selected m hm s hs
  have hdocuments := (h.entries m hm).2
  have hmem : ∀ document link, r.HasLink document link → link ∈ s := by
    intro document link hlink
    obtain ⟨e, he, -, hl⟩ := (hasLink_iff hm _ _).mp hlink
    exact (hselected link).mpr ⟨e, he, hl⟩
  constructor
  · rintro hfiltered document hdocument
    constructor
    · obtain ⟨-, link, -, hlink⟩ := (hfiltered.documentLinks document).mp hdocument
      exact ⟨link, hlink⟩
    · intro link hlink
      obtain ⟨s', hs', hiff⟩ := hfiltered.selectedLinks
      rw [hs] at hs'
      cases hs'
      exact ((hiff link).mp (hmem document link hlink)).1
  · intro hall
    constructor
    · intro document
      constructor
      · intro hdocument
        obtain ⟨⟨link, hlink⟩, hnext⟩ := hall document hdocument
        exact ⟨hdocument, link, hnext link hlink, hlink⟩
      · exact fun hdocument => hdocument.1
    · refine ⟨s, hs, ?_⟩
      intro link
      constructor
      · intro hlink
        obtain ⟨e, he, hl⟩ := (hselected link).mp hlink
        have hdocument : e.1 ∈ r.documentLinks := (hdocuments e.1).mpr (List.mem_map_of_mem he)
        have hhas : r.HasLink e.1 link := (hasLink_iff hm _ _).mpr ⟨e, he, rfl, hl⟩
        exact ⟨(hall e.1 hdocument).2 link hhas, e.1, hdocument, hhas⟩
      · rintro ⟨-, document, -, hlink⟩
        exact hmem document link hlink
    · exact h.count
    · intro d hd
      exact ⟨d, hd, fun e => ⟨fun he => ⟨he, id⟩, fun he => he.1⟩⟩
    · intro m' hm'
      rw [hm] at hm'
      cases hm'
      refine ⟨m, hm, fun e => ⟨fun he => ⟨he, ?_⟩, fun he => he.1⟩⟩
      exact (hdocuments e.1).mpr (List.mem_map_of_mem he)

theorem stagesFiltered_self_iff (h : ∀ i r r', raw[i]? = some (some r) →
    raw[i + 1]? = some (some r') → r.Selects ∧ r.documentLinks ≠ []) :
    StagesFiltered raw raw ↔ NothingToRemove raw := by
  constructor
  · intro hfiltered i r r' hr hr'
    obtain ⟨hselects, hne⟩ := h i r r' hr hr'
    obtain ⟨kept, next, hkept, hnext, hone⟩ := hfiltered.filtered i r r' hr hr'
    rw [hr] at hkept
    rw [hr'] at hnext
    cases hkept
    cases hnext
    exact (filtered_self_iff hselects hne).mp hone
  · intro hnothing
    constructor
    · intro i r r' hr hr'
      obtain ⟨hselects, hne⟩ := h i r r' hr hr'
      exact ⟨r, r', hr, hr', (filtered_self_iff hselects hne).mpr (hnothing i r r' hr hr')⟩
    · intro i r hr _
      exact hr

/-! ## Every traversal -/

/-- A stage that another one with results follows. -/
theorem Inv.continued_of_next {t : Traversal} (h : Inv t) {r r' : Results}
    (hr : t.task.stages[i]? = some (some r)) (hr' : t.task.stages[i + 1]? = some (some r')) :
    r.Selects ∧ r.documentLinks ≠ [] := by
  have hlt : i + 1 < t.task.depthLimit := by
    rw [← h.length]
    exact (List.getElem?_eq_some_iff.mp hr').1
  have hdepth : i + 1 < t.task.currentDepth := by
    by_contra hnot
    have hnone := h.todo (i + 1) (by omega) (by omega) hlt
    rw [hr'] at hnone
    cases hnone
  exact ⟨h.selects i r hr (by omega) hlt, h.continued i r hr (by omega) fun _ => hdepth⟩

/-- **The filter after a traversal.** -/
theorem stages_filtered_iff {task : GraphQueryTask} (htask : Startable task)
    {responses : List Results} {t : Traversal}
    (hrun : Reach step Returned (start task) responses t)
    (hoption : t.task.filterStageResults = true) (hterm : t.task.useLinkTerm = false) :
    (∃ final, finishTask t.task = .ok final ∧ StagesFiltered t.task.stages final) ↔
      t.task.currentDepth = t.task.depthLimit ∨ NothingToRemove t.task.stages := by
  have hinv := inv_of_reach htask hrun
  have hfinish : finishTask t.task = applyFilterOnStageResults t.task.stages := by
    rw [finishTask, hoption, hterm]
    rfl
  rw [hfinish]
  have hpos := hinv.pos
  by_cases hdepth : t.task.currentDepth = t.task.depthLimit
  · refine iff_of_true (applyFilter_complete ?_ ?_) (Or.inl hdepth)
    · constructor
      · intro j hj
        exact hinv.done j (by rw [hdepth, ← hinv.length]; exact hj)
      · intro j r hr hlt
        rw [hinv.length] at hlt
        exact ⟨hinv.selects j r hr (by omega) hlt,
          hinv.continued j r hr (by omega) fun _ => by omega⟩
    · intro hnil
      have hlength := hinv.length
      rw [hnil, List.length_nil] at hlength
      omega
  · have hlt := lt_of_le_of_ne hinv.depth hdepth
    obtain ⟨m, hm⟩ : ∃ m, t.task.depthLimit = m + 2 := ⟨t.task.depthLimit - 2, by omega⟩
    have hlast : t.task.stages[m + 1]? = some none := hinv.todo (m + 1) (by omega) (by omega) (by omega)
    rw [applyFilter_of_last_none (hinv.length.trans hm) hlast, or_iff_right hdepth,
      ← stagesFiltered_self_iff fun i r r' hr hr' => hinv.continued_of_next hr hr']
    constructor
    · rintro ⟨final, hfinal, hfiltered⟩
      cases hfinal
      exact hfiltered
    · intro hfiltered
      exact ⟨_, rfl, hfiltered⟩

/-- A query with `n` stages, none of which has run. -/
def newTask (n : ℕ) : GraphQueryTask := ⟨false, true, List.replicate n none, 0, n⟩

theorem startable_newTask (n : ℕ) : Startable (newTask (n + 2)) := by
  constructor
  · simp [validateStartPost, newTask, List.replicate_succ]
  · intro r hr
    simp [newTask, List.replicate_succ] at hr

/-- `/a` has a link to `/b`. -/
def linkedRows : List (String × List (String × String)) := [("/a", [("next", "/b")])]

theorem returned_ofRows {t : Traversal} {rows : List (String × List (String × String))}
    (h : (rows.map (·.1)).Nodup) : Returned t (.ofRows rows) := fun _ => selects_ofRows h

/-- The first stage has found `/a`. -/
def second (n : ℕ) : Traversal :=
  ⟨associateResults (start (newTask n)).task (.ofRows linkedRows), false⟩

def third (n : ℕ) (rows : List (String × List (String × String))) : Traversal :=
  ⟨associateResults (second n).task (.ofRows rows), true⟩

theorem reach_second {n : ℕ} (h : step (start (newTask n)) (.ofRows linkedRows) = some (second n)) :
    Reach step Returned (start (newTask n)) [.ofRows linkedRows] (second n) :=
  Reach.refl.snoc (returned_ofRows (by decide)) h

theorem stages_filtered_iff_two :
    ∃ t, Reach step Returned (start (newTask 2)) [.ofRows linkedRows, .ofRows [("/b", [])]] t ∧
      ((∃ final, finishTask t.task = .ok final ∧ StagesFiltered t.task.stages final) ↔
        t.task.currentDepth = t.task.depthLimit ∨ NothingToRemove t.task.stages) := by
  have hstep : step (second 2) (.ofRows [("/b", [])]) = some (third 2 [("/b", [])]) := rfl
  have hrun := (reach_second (n := 2) rfl).snoc (returned_ofRows (by decide)) hstep
  exact ⟨_, hrun, stages_filtered_iff (startable_newTask 0) hrun rfl rfl⟩

/-- The second of three stages finds nothing, and `/a` stays. -/
theorem early_end_not_filtered :
    ∃ t, Reach step Returned (start (newTask 3)) [.ofRows linkedRows, .ofRows []] t ∧
      t.ended = true ∧
        ¬ ∃ final, finishTask t.task = .ok final ∧ StagesFiltered t.task.stages final := by
  have hstep : step (second 3) (.ofRows []) = some (third 3 []) := rfl
  have hrun := (reach_second (n := 3) rfl).snoc (returned_ofRows (by decide)) hstep
  refine ⟨_, hrun, by decide, ?_⟩
  rintro ⟨final, hfinal, hfiltered⟩
  cases hfinal
  obtain ⟨kept, next, hkept, hnext, hone⟩ := hfiltered.filtered 0 (.ofRows linkedRows) (.ofRows [])
    rfl rfl
  cases hkept
  cases hnext
  obtain ⟨-, link, hlink, -⟩ := (hone.documentLinks "/a").mp (by decide)
  cases hlink

end Xenon.GraphQuery

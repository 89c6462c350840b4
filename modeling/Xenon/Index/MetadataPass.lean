import Xenon.Foundation.Cursor
import Xenon.Index.Metadata

/-!
# A metadata pass, page by page

The loop of `applyMetadataIndexingUpdate` goes through the documents of a link that have no
tombstone, in the order of their ids. The rule for it asks for what one page preserves.
-/

namespace Xenon.Index.Metadata

open Xenon.Foundation

/-! ## Pages -/

/-- The hits of the query for the documents without a tombstone. -/
def activeHits (searcher : List Doc) (link : String) : List (Doc × Nat) :=
  searcher.zipIdx.filter fun hit =>
    hit.1.link = link && hit.1.tombstone = activeDocumentTombstoneTime

/-- The documents of a page. -/
def pageDocs (pageSize : Nat) (searcher : List Doc) (link : String) (k : Nat) : List Doc :=
  (Cursor.page pageSize (activeHits searcher link) k).map fun hit => hit.1

/-- The documents of the first `k` pages. -/
def activeDocs (pageSize : Nat) (searcher : List Doc) (link : String) (k : Nat) : List Doc :=
  ((activeHits searcher link).take (k * pageSize)).map fun hit => hit.1

section

variable {pageSize : Nat} {searcher : List Doc} {link : String}

theorem pairwise_zipIdx (l : List Doc) (n : Nat) :
    (l.zipIdx n).Pairwise fun a b => a.2 < b.2 := by
  have h : ((l.zipIdx n).map Prod.snd).Pairwise (· < ·) := by
    rw [List.zipIdx_map_snd]
    exact List.pairwise_lt_range'
  exact List.pairwise_map.mp h

theorem pairwise_filter_zipIdx (searcher : List Doc) (query : Doc × Nat → Bool) :
    (searcher.zipIdx.filter query).Pairwise fun a b => a.2 < b.2 :=
  (pairwise_zipIdx searcher 0).sublist List.filter_sublist

/-- `searchAfter` gives a page of the hits behind a position. -/
theorem searchAfter_eq (searcher : List Doc) (after : Option Nat) (query : Doc → Bool)
    (pageSize : Nat) :
    searchAfter searcher after query pageSize =
      (Cursor.behind (searcher.zipIdx.filter fun hit => query hit.1) after).take pageSize := by
  unfold searchAfter Cursor.behind
  rw [List.filter_filter]
  simp only [Bool.and_comm]

theorem activeDocs_succ (k : Nat) : activeDocs pageSize searcher link (k + 1) =
    activeDocs pageSize searcher link k ++ pageDocs pageSize searcher link k := by
  unfold activeDocs pageDocs
  rw [Cursor.take_succ, List.map_append]

theorem mem_activeHits {hit : Doc × Nat} (h : hit ∈ activeHits searcher link) :
    hit.1 ∈ searcher ∧ hit.1.link = link ∧ hit.1.tombstone = activeDocumentTombstoneTime := by
  obtain ⟨hmem, hquery⟩ := List.mem_filter.mp h
  rw [Bool.and_eq_true, decide_eq_true_eq, decide_eq_true_eq] at hquery
  exact ⟨List.fst_mem_of_mem_zipIdx hmem, hquery⟩

theorem mem_activeDocs {k : Nat} {d : Doc} (h : d ∈ activeDocs pageSize searcher link k) :
    d ∈ searcher ∧ d.link = link ∧ d.tombstone = activeDocumentTombstoneTime := by
  obtain ⟨hit, hhit, rfl⟩ := List.mem_map.mp h
  exact mem_activeHits (List.mem_of_mem_take hhit)

theorem mem_pageDocs {k : Nat} {d : Doc} (h : d ∈ pageDocs pageSize searcher link k) :
    d ∈ activeDocs pageSize searcher link (k + 1) := by
  rw [activeDocs_succ]
  exact List.mem_append_right _ h

/-- A document without a tombstone is on one of the pages. -/
theorem mem_activeDocs_of_active {n : Nat} (hn : (activeHits searcher link).length ≤ n * pageSize)
    {d : Doc} (hd : d ∈ searcher) (hlink : d.link = link)
    (hactive : d.tombstone = activeDocumentTombstoneTime) :
    d ∈ activeDocs pageSize searcher link n := by
  unfold activeDocs
  rw [List.take_of_length_le hn]
  obtain ⟨i, hi⟩ := List.mem_iff_getElem?.mp hd
  have hmem : (d, i) ∈ searcher.zipIdx := List.mk_mem_zipIdx_iff_getElem?.mpr hi
  have hhit : (d, i) ∈ activeHits searcher link := by
    refine List.mem_filter.mpr ⟨hmem, ?_⟩
    rw [Bool.and_eq_true, decide_eq_true_eq, decide_eq_true_eq]
    exact ⟨hlink, hactive⟩
  exact List.mem_map_of_mem (f := fun hit : Doc × Nat => hit.1) hhit

/-! ## The loop -/

/-- A page, and the cursor behind it. -/
def Pass.next (pageSize : Nat) (searcher : List Doc) (link : String) (s : Pass) (docs : List Doc)
    (after : Option Nat) : Pass :=
  { s.page pageSize searcher link docs with after := after }

/-- The rule of the loop: what a page preserves holds behind the last page. -/
theorem Pass.loop_rule (pageSize : Nat) (searcher : List Doc) (link : String)
    {P : Nat → Pass → Prop} (hsize : 0 < pageSize)
    (step : ∀ k s after, k * pageSize < (activeHits searcher link).length →
      s.after = Cursor.cursor (activeHits searcher link) (k * pageSize) → P k s →
      P (k + 1) (s.next pageSize searcher link (pageDocs pageSize searcher link k) after)) :
    ∀ (fuel k : Nat) (s : Pass),
      s.after = Cursor.cursor (activeHits searcher link) (k * pageSize) →
      (activeHits searcher link).length < fuel + k * pageSize →
      (∀ j < k, j * pageSize < (activeHits searcher link).length) → P k s →
      ∃ n s', (activeHits searcher link).length ≤ n * pageSize ∧
        (∀ j < n, j * pageSize < (activeHits searcher link).length) ∧ P n s' ∧
        s.loop pageSize searcher link fuel = s'.updates
  | 0, k, s, _, hfuel, hpages, hP =>
      ⟨k, s, by omega, hpages, hP, rfl⟩
  | fuel + 1, k, s, hafter, hfuel, hpages, hP => by
      have hresults : searchAfter searcher s.after
          (fun d => d.link = link && d.tombstone = activeDocumentTombstoneTime) pageSize =
          Cursor.page pageSize (activeHits searcher link) k := by
        rw [searchAfter_eq, hafter]
        exact Cursor.take_behind (pairwise_filter_zipIdx _ _) k
      unfold Pass.loop
      simp only [hresults]
      -- an empty page ends the loop, and so does one that is not full
      cases hlast : (Cursor.page pageSize (activeHits searcher link) k).getLast? with
      | none =>
          have hnil := List.getLast?_eq_none_iff.mp hlast
          exact ⟨k, s, (Cursor.page_eq_nil_iff hsize).mp hnil, hpages, hP, rfl⟩
      | some last =>
          have hlt : k * pageSize < (activeHits searcher link).length := by
            rw [← Nat.not_le, ← Cursor.page_eq_nil_iff hsize]
            intro hnil
            rw [hnil] at hlast
            cases hlast
          have hpages' : ∀ j < k + 1, j * pageSize < (activeHits searcher link).length := by
            intro j hj
            rcases Nat.lt_succ_iff_lt_or_eq.mp hj with hj | rfl
            · exact hpages j hj
            · exact hlt
          have hP' := step k s (some last.2) hlt hafter hP
          dsimp only
          split_ifs with hfull
          · exact ⟨k + 1, _, Cursor.length_le_of_page_lt hfull, hpages', hP', rfl⟩
          · have hfuel' : (activeHits searcher link).length < fuel + (k + 1) * pageSize := by
              rw [Nat.add_mul, Nat.one_mul]
              omega
            exact Pass.loop_rule pageSize searcher link hsize step fuel (k + 1) _ (Cursor.cursor_succ hlast).symm hfuel'
              hpages' hP'

end

/-! ## The highest version -/

/-- What the loop knows of the highest one of the documents without a tombstone. -/
structure Pass.Highest (visited : List Doc) (s : Pass) : Prop where
  le : ∀ d ∈ visited, (d.version : Int) ≤ s.highestVersion
  eq : visited ≠ [] → ∃ d ∈ visited, (d.version : Int) = s.highestVersion ∧ d.isDeleted = s.isDeleted
  nil : visited = [] → s.highestVersion = -1 ∧ s.isDeleted = false

theorem Pass.highest_start : Pass.start.Highest [] where
  le := by simp
  eq h := absurd rfl h
  nil _ := ⟨rfl, rfl⟩

theorem Pass.Highest.visit {visited : List Doc} {s : Pass} (h : s.Highest visited) (d : Doc) :
    (s.visit d).Highest (visited ++ [d]) := by
  unfold Pass.visit
  dsimp only
  split_ifs with hgt
  · refine ⟨fun e he => ?_, fun _ => ⟨d, by simp, rfl, rfl⟩, fun hnil => by simp at hnil⟩
    rcases List.mem_append.mp he with he | he
    · have := h.le e he
      dsimp only
      omega
    · rw [List.mem_singleton.mp he]
  · have hle : (d.version : Int) ≤ s.highestVersion := Int.not_lt.mp hgt
    refine ⟨fun e he => ?_, fun _ => ?_, fun hnil => by simp at hnil⟩
    · rcases List.mem_append.mp he with he | he
      · exact h.le e he
      · rw [List.mem_singleton.mp he]
        exact hle
    · have hne : visited ≠ [] := by
        rintro rfl
        have := (h.nil rfl).1
        omega
      obtain ⟨e, he, hversion, hdeleted⟩ := h.eq hne
      exact ⟨e, List.mem_append_left _ he, hversion, hdeleted⟩

theorem Pass.Highest.foldl_visit {visited : List Doc} {s : Pass} (h : s.Highest visited)
    (docs : List Doc) : (docs.foldl Pass.visit s).Highest (visited ++ docs) := by
  induction docs generalizing visited s with
  | nil => simpa using h
  | cons d docs ih =>
      rw [List.foldl_cons, List.append_cons]
      exact ih (h.visit d)

/-- `Highest` is about two variables of the loop. -/
theorem Pass.Highest.congr {visited : List Doc} {s s' : Pass} (h : s.Highest visited)
    (hversion : s'.highestVersion = s.highestVersion) (hdeleted : s'.isDeleted = s.isDeleted) :
    s'.Highest visited where
  le := by rw [hversion]; exact h.le
  eq := by rw [hversion, hdeleted]; exact h.eq
  nil := by rw [hversion, hdeleted]; exact h.nil

theorem visit_versionToDocs (s : Pass) (d : Doc) :
    (s.visit d).versionToDocs = s.versionToDocs ++ [d] := by
  unfold Pass.visit
  dsimp only
  split_ifs <;> rfl

theorem visit_updates (s : Pass) (d : Doc) : (s.visit d).updates = s.updates := by
  unfold Pass.visit
  dsimp only
  split_ifs <;> rfl

theorem visit_after (s : Pass) (d : Doc) : (s.visit d).after = s.after := by
  unfold Pass.visit
  dsimp only
  split_ifs <;> rfl

theorem foldl_visit_versionToDocs (docs : List Doc) (s : Pass) :
    (docs.foldl Pass.visit s).versionToDocs = s.versionToDocs ++ docs := by
  induction docs generalizing s with
  | nil => simp
  | cons d docs ih => rw [List.foldl_cons, ih, visit_versionToDocs, List.append_assoc]; rfl

theorem foldl_visit_updates (docs : List Doc) (s : Pass) :
    (docs.foldl Pass.visit s).updates = s.updates := by
  induction docs generalizing s with
  | nil => rfl
  | cons d docs ih => rw [List.foldl_cons, ih, visit_updates]

theorem foldl_visit_after (docs : List Doc) (s : Pass) :
    (docs.foldl Pass.visit s).after = s.after := by
  induction docs generalizing s with
  | nil => rfl
  | cons d docs ih => rw [List.foldl_cons, ih, visit_after]

/-! ## The documents that are read -/

theorem mem_missing {pageSize : Nat} {searcher : List Doc} {link : String} {s : Pass} {d : Doc}
    (h : d ∈ s.missing pageSize searcher link) :
    d ∈ searcher ∧ d.link = link ∧ s.isMissing d.version = true := by
  obtain ⟨hit, hhit, rfl⟩ := List.mem_map.mp h
  obtain ⟨hmem, hquery⟩ := List.mem_filter.mp (List.mem_of_mem_take hhit)
  simp only [Bool.and_eq_true, decide_eq_true_eq] at hquery
  exact ⟨List.fst_mem_of_mem_zipIdx hmem, hquery.1⟩

theorem isMissing_iff {s : Pass} {version : Nat} : s.isMissing version = true ↔
    (∀ d ∈ s.versionToDocs, d.version ≠ version) ∧
      ∃ d ∈ s.versionToDocs, (d.version : Int) ≠ s.highestVersion ∧ d.version + 1 = version := by
  simp [Pass.isMissing]

/-- What was read so far: documents of the link, of which the ones that are not on a page have
a version below the highest. -/
structure Pass.Reads (searcher : List Doc) (link : String) (visited : List Doc) (s : Pass) :
    Prop where
  highest : s.Highest visited
  mem : ∀ d ∈ s.versionToDocs, d ∈ searcher ∧ d.link = link
  read : ∀ d ∈ visited, d ∈ s.versionToDocs
  old : ∀ d ∈ s.versionToDocs, d ∈ visited ∨ (d.version : Int) < s.highestVersion

section

variable {pageSize : Nat} {searcher : List Doc} {link : String} {visited : List Doc} {s : Pass}

theorem Pass.reads_start : Pass.start.Reads searcher link [] where
  highest := Pass.highest_start
  mem := by simp [Pass.start]
  read := by simp
  old := by simp [Pass.start]

/-- No version that was read is above the highest one. -/
theorem Pass.Reads.le (h : s.Reads searcher link visited) {d : Doc} (hd : d ∈ s.versionToDocs) :
    (d.version : Int) ≤ s.highestVersion := by
  rcases h.old d hd with hvisited | hlt
  · exact h.highest.le d hvisited
  · exact hlt.le

theorem Pass.Highest.mono {docs : List Doc} {s' : Pass} (h : s.Highest visited)
    (h' : s'.Highest (visited ++ docs)) : s.highestVersion ≤ s'.highestVersion := by
  by_cases hnil : visited = []
  · have := (h.nil hnil).1
    by_cases hall : visited ++ docs = []
    · rw [(h'.nil hall).1]
      exact this.le
    · obtain ⟨d, -, hd, -⟩ := h'.eq hall
      omega
  · obtain ⟨d, hd, hversion, -⟩ := h.eq hnil
    rw [← hversion]
    exact h'.le d (List.mem_append_left _ hd)

/-- The documents of a page are visited, and those of the missing versions are read. -/
theorem Pass.Reads.next (h : s.Reads searcher link visited) {docs : List Doc} {after : Option Nat}
    (hdocs : ∀ d ∈ docs, d ∈ searcher ∧ d.link = link) :
    (s.next pageSize searcher link docs after).Reads searcher link (visited ++ docs) := by
  have hhighest := h.highest.foldl_visit docs
  have hmono := h.highest.mono hhighest
  have hread := foldl_visit_versionToDocs docs s
  unfold Pass.next Pass.page
  dsimp only
  set s' := docs.foldl Pass.visit s with hs'
  have hle : ∀ d ∈ s'.versionToDocs, (d.version : Int) ≤ s'.highestVersion := by
    intro d hd
    rw [hread] at hd
    rcases List.mem_append.mp hd with hd | hd
    · exact (h.le hd).trans hmono
    · exact hhighest.le d (List.mem_append_right _ hd)
  refine ⟨hhighest.congr rfl rfl, fun d hd => ?_, fun d hd => ?_, fun d hd => ?_⟩
  · rcases List.mem_append.mp hd with hd | hd
    · rw [hread] at hd
      rcases List.mem_append.mp hd with hd | hd
      · exact h.mem d hd
      · exact hdocs d hd
    · exact ⟨(mem_missing hd).1, (mem_missing hd).2.1⟩
  · apply List.mem_append_left
    rw [hread]
    rcases List.mem_append.mp hd with hd | hd
    · exact List.mem_append_left _ (h.read d hd)
    · exact List.mem_append_right _ hd
  · rcases List.mem_append.mp hd with hd | hd
    · rw [hread] at hd
      rcases List.mem_append.mp hd with hd | hd
      · rcases h.old d hd with hvisited | hlt
        · exact .inl (List.mem_append_left _ hvisited)
        · exact .inr (hlt.trans_le hmono)
      · exact .inl (List.mem_append_right _ hd)
    · -- a missing version follows one below the highest, and is not that one
      obtain ⟨hnew, e, he, hother, hnext⟩ := isMissing_iff.mp (mem_missing hd).2.2
      right
      dsimp only
      have hlt : (e.version : Int) < s'.highestVersion := lt_of_le_of_ne (hle e he) hother
      have hne : (d.version : Int) ≠ s'.highestVersion := by
        intro heq
        by_cases hall : visited ++ docs = []
        · have := (hhighest.nil hall).1
          omega
        · obtain ⟨x, hx, hversion, -⟩ := hhighest.eq hall
          have hxread : x ∈ s'.versionToDocs := by
            rw [hread]
            rcases List.mem_append.mp hx with hx | hx
            · exact List.mem_append_left _ (h.read x hx)
            · exact List.mem_append_right _ hx
          exact hnew x hxread (by omega)
      omega

end

/-! ## The updates of a page -/

theorem tombstoneTime_eq_some {s : Pass} {version : Nat} {time : Int64}
    (h : s.tombstoneTime version = some time) :
    ((version : Int) = s.highestVersion ∧ s.isDeleted = true ∧
        ∃ e ∈ s.versionToDocs, e.version = version ∧ e.updateTime = time) ∨
      ∃ e ∈ s.versionToDocs, e.version = version + 1 ∧ e.updateTime = time := by
  unfold Pass.tombstoneTime at h
  split_ifs at h with hversion hdeleted
  · obtain ⟨e, he, htime⟩ := Option.map_eq_some_iff.mp h
    have heversion : e.version = version := by simpa using List.find?_some he
    exact .inl ⟨hversion, hdeleted, e, List.mem_of_find?_eq_some he, heversion, htime⟩
  · obtain ⟨e, he, htime⟩ := Option.map_eq_some_iff.mp h
    have heversion : e.version = version + 1 := by simpa using List.find?_some he
    exact .inr ⟨e, List.mem_of_find?_eq_some he, heversion, htime⟩

/-- A page adds the updates of what is read by then. -/
theorem next_updates (pageSize : Nat) (searcher : List Doc) (link : String) (s : Pass)
    (docs : List Doc) (after : Option Nat) :
    (s.next pageSize searcher link docs after).updates =
      s.updates ++ (s.next pageSize searcher link docs after).updatesOf link := by
  unfold Pass.next Pass.page
  dsimp only
  rw [foldl_visit_updates]
  rfl

/-- A deleted highest version is one of the documents without a tombstone. -/
theorem Pass.Highest.exists_deleted {visited : List Doc} {s : Pass} (h : s.Highest visited)
    (hdeleted : s.isDeleted = true) :
    ∃ d ∈ visited, (d.version : Int) = s.highestVersion ∧ d.isDeleted = true := by
  have hne : visited ≠ [] := by
    intro hnil
    rw [(h.nil hnil).2] at hdeleted
    cases hdeleted
  obtain ⟨d, hd, hversion, hsame⟩ := h.eq hne
  exact ⟨d, hd, hversion, hsame.trans hdeleted⟩

/-- The rule of a pass. -/
theorem pass_rule (searcher : List Doc) (link : String) {P : Nat → Pass → Prop}
    (hstart : P 0 Pass.start)
    (step : ∀ k s after, k * metadataPageSize < (activeHits searcher link).length →
      s.after = Cursor.cursor (activeHits searcher link) (k * metadataPageSize) →
      s.Reads searcher link (activeDocs metadataPageSize searcher link k) →
      (s.next metadataPageSize searcher link
        (pageDocs metadataPageSize searcher link k) after).Reads searcher link
          (activeDocs metadataPageSize searcher link (k + 1)) →
      P k s → P (k + 1) (s.next metadataPageSize searcher link
        (pageDocs metadataPageSize searcher link k) after)) :
    ∃ n s, (activeHits searcher link).length ≤ n * metadataPageSize ∧
      (∀ j < n, j * metadataPageSize < (activeHits searcher link).length) ∧
      s.Reads searcher link (activeDocs metadataPageSize searcher link n) ∧ P n s ∧
      applyMetadataIndexingUpdate searcher link = s.updates := by
  have hlength : (activeHits searcher link).length ≤ searcher.length := by
    unfold activeHits
    exact (List.length_filter_le _ _).trans_eq List.length_zipIdx
  have hreads : Pass.start.Reads searcher link (activeDocs metadataPageSize searcher link 0) := by
    simpa [activeDocs] using Pass.reads_start
  obtain ⟨n, s, hn, hpages, ⟨hs, hP⟩, heq⟩ := Pass.loop_rule metadataPageSize searcher link
    (P := fun k s => s.Reads searcher link (activeDocs metadataPageSize searcher link k) ∧ P k s)
    (by decide)
    (fun k s after hlt hafter hs => by
      have hnext : (s.next metadataPageSize searcher link
          (pageDocs metadataPageSize searcher link k) after).Reads searcher link
            (activeDocs metadataPageSize searcher link (k + 1)) := by
        rw [activeDocs_succ]
        refine hs.1.next fun d hd => ?_
        obtain ⟨hsearcher, hlink, -⟩ := mem_activeDocs (mem_pageDocs hd)
        exact ⟨hsearcher, hlink⟩
      exact ⟨hnext, step k s after hlt hafter hs.1 hnext hs.2⟩)
    (searcher.length + 1) 0 Pass.start (by simp [Pass.start, Cursor.cursor]) (by omega)
    (fun j hj => absurd hj (Nat.not_lt_zero j)) ⟨hreads, hstart⟩
  exact ⟨n, s, hn, hpages, hs, hP, heq⟩

end Xenon.Index.Metadata

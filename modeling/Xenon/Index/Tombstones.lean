import Xenon.Index.MetadataAgree

/-!
# Tombstone times after a metadata pass

A pass over a link rewrites the tombstone of a document with the update time of the next
version if it has read both; `readDocs` says what it reads. A version that follows a gap is no next
version, and one that has a tombstone is read only behind the cursor of the page, and
only if the version before it is not the highest one without a tombstone. A deleted version that
is the highest one so far on its page is stamped with its own time.
-/

namespace Xenon.Index.Metadata

open Xenon.Foundation

/-! ## Writing the tombstones -/

/-- The tombstones are written, in the order of the updates. -/
def writeTombstones (docs : List Doc) (updates : List TombstoneUpdate) : List Doc :=
  updates.foldl (fun docs u => docs.map (Doc.setTombstone u.indexingId u.time)) docs

/-- The time of the last update for an indexing id. -/
def lastTime (updates : List TombstoneUpdate) (indexingId : String) : Option Int64 :=
  (updates.filter fun u => u.indexingId = indexingId).getLast?.map fun u => u.time

theorem lastTime_append (us vs : List TombstoneUpdate) (indexingId : String) :
    lastTime (us ++ vs) indexingId = (lastTime vs indexingId).or (lastTime us indexingId) := by
  unfold lastTime
  rw [List.filter_append, List.getLast?_append]
  cases (vs.filter fun u => u.indexingId = indexingId).getLast? <;> rfl

theorem lastTime_singleton (u : TombstoneUpdate) (indexingId : String) :
    lastTime [u] indexingId = if u.indexingId = indexingId then some u.time else none := by
  unfold lastTime
  split_ifs with h <;> simp [h]

/-- A document with another tombstone time. -/
def Doc.withTombstone (d : Doc) (time : Int64) : Doc := { d with tombstone := time }

@[simp] theorem withTombstone_indexingId (d : Doc) (time : Int64) :
    (d.withTombstone time).indexingId = d.indexingId := rfl

@[simp] theorem withTombstone_tombstone (d : Doc) (time : Int64) :
    (d.withTombstone time).tombstone = time := rfl

theorem setTombstone_withTombstone (d : Doc) (indexingId : String) (time time' : Int64) :
    (d.withTombstone time).setTombstone indexingId time' =
      d.withTombstone (if d.indexingId = indexingId then time' else time) := by
  unfold Doc.setTombstone
  rw [withTombstone_indexingId]
  split_ifs <;> rfl

theorem writeTombstones_eq (docs : List Doc) (updates : List TombstoneUpdate) :
    writeTombstones docs updates = docs.map fun d =>
      d.withTombstone ((lastTime updates d.indexingId).getD d.tombstone) := by
  induction updates using List.reverseRecOn with
  | nil =>
      have hid : ∀ d : Doc, d.withTombstone ((lastTime [] d.indexingId).getD d.tombstone) = d :=
        fun _ => rfl
      simp only [hid, List.map_id']
      rfl
  | append_singleton updates u ih =>
      have hstep : writeTombstones docs (updates ++ [u]) =
          (writeTombstones docs updates).map (Doc.setTombstone u.indexingId u.time) := by
        unfold writeTombstones
        rw [List.foldl_append]
        rfl
      rw [hstep, ih, List.map_map]
      apply List.map_congr_left
      intro d _
      rw [Function.comp_apply, setTombstone_withTombstone, lastTime_append, lastTime_singleton]
      by_cases hid : d.indexingId = u.indexingId
      · rw [if_pos hid, if_pos hid.symm]
        rfl
      · rw [if_neg hid, if_neg (Ne.symm hid)]
        rfl

/-- The updates of some documents, if those with the indexing id have one version. -/
theorem lastTime_filterMap (link : String) {indexingId : String} {version : Nat}
    (time : Nat → Option Int64) (docs : List Doc)
    (h : ∀ d ∈ docs, d.indexingId = indexingId → d.version = version) :
    ((∃ d ∈ docs, d.indexingId = indexingId) →
      lastTime (docs.filterMap fun d => (time d.version).map fun t => ⟨link, d.indexingId, t⟩)
        indexingId = time version) ∧
    ((¬ ∃ d ∈ docs, d.indexingId = indexingId) →
      lastTime (docs.filterMap fun d => (time d.version).map fun t => ⟨link, d.indexingId, t⟩)
        indexingId = none) := by
  induction docs using List.reverseRecOn with
  | nil => simp [lastTime]
  | append_singleton docs d ih =>
      obtain ⟨ihread, ihnot⟩ := ih fun e he => h e (List.mem_append_left _ he)
      have hlast : lastTime ([d].filterMap fun d => (time d.version).map fun t =>
          (⟨link, d.indexingId, t⟩ : TombstoneUpdate)) indexingId =
          if d.indexingId = indexingId then time version else none := by
        have hd := h d (by simp)
        cases htime : time d.version with
        | none =>
            split_ifs with hid
            · rw [← hd hid, htime]
              simp [htime, lastTime]
            · simp [htime, lastTime]
        | some t =>
            have hsingle : ([d].filterMap fun d => (time d.version).map fun t =>
                (⟨link, d.indexingId, t⟩ : TombstoneUpdate)) = [⟨link, d.indexingId, t⟩] := by
              simp [htime]
            rw [hsingle, lastTime_singleton]
            split_ifs with hid
            · rw [← hd hid, htime]
            · rfl
      rw [List.filterMap_append, lastTime_append, hlast]
      -- the last update of an id decides, and all its updates have one time
      by_cases hid : d.indexingId = indexingId
      · rw [if_pos hid]
        refine ⟨fun _ => ?_, fun hnot => absurd ⟨d, by simp, hid⟩ hnot⟩
        cases htime : time version with
        | some t => rfl
        | none =>
            rw [Option.none_or]
            by_cases hread : ∃ e ∈ docs, e.indexingId = indexingId
            · rw [ihread hread, htime]
            · exact ihnot hread
      · rw [if_neg hid, Option.none_or]
        have hiff : (∃ e ∈ docs ++ [d], e.indexingId = indexingId) ↔
            ∃ e ∈ docs, e.indexingId = indexingId := by
          simp [hid]
        rw [hiff]
        exact ⟨ihread, ihnot⟩

/-! ## Indexing ids -/

theorem eq_of_append_cons {α : Type*} {a b x y : List α} {c : α} (h : a ++ c :: x = b ++ c :: y)
    (hx : c ∉ x) (hy : c ∉ y) : x = y := by
  rcases List.append_eq_append_iff.mp h with ⟨t, -, ht⟩ | ⟨t, -, ht⟩
  · cases t with
    | nil => exact (List.cons.inj ht).2
    | cons _ t =>
        obtain ⟨-, rfl⟩ := List.cons.inj ht
        exact absurd (by simp) hx
  · cases t with
    | nil => exact (List.cons.inj ht).2.symm
    | cons _ t =>
        obtain ⟨-, rfl⟩ := List.cons.inj ht
        exact absurd (by simp) hy

theorem colon_not_mem_toString (n : Nat) : ':' ∉ (toString n).toList := by
  intro h
  have hlist : (toString n).toList = Nat.toDigits 10 n := Nat.toList_repr
  rw [hlist] at h
  exact absurd (Nat.isDigit_of_mem_toDigits (by decide) (by decide) h) (by decide)

/-- The indexing ids of a link tell its versions apart. -/
theorem version_of_indexingId {d e : Doc} (hlink : d.link = e.link)
    (h : d.indexingId = e.indexingId) : d.version = e.version := by
  unfold Doc.indexingId at h
  have htext := congrArg String.toList h
  simp only [String.toList_append, List.append_assoc, hlink] at htext
  have htext := List.append_cancel_left htext
  have hcolon : (":" : String).toList = [':'] := rfl
  rw [hcolon, List.singleton_append, List.singleton_append] at htext
  have hdigits := eq_of_append_cons htext (colon_not_mem_toString _) (colon_not_mem_toString _)
  have hlist : ∀ n : Nat, (toString n).toList = Nat.toDigits 10 n := fun _ => Nat.toList_repr
  rw [hlist, hlist] at hdigits
  rw [← Nat.ofDigitChars_ten_toDigits (n := d.version), hdigits, Nat.ofDigitChars_ten_toDigits]

/-! ## What a pass reads -/

/-- The next version of a known one that is not there yet; no version is looked for behind the
highest one of the documents without a tombstone. -/
def follows (known active : List Doc) (version : Nat) : Bool :=
  (known.all fun d => d.version ≠ version) &&
    known.any fun d => (active.any fun a => d.version < a.version) && d.version + 1 = version

section

variable (searcher : List Doc) (link : String)

/-- The documents that a page adds to the known ones: those of the versions that follow, behind
the last document of the page before, as far as they fit on a page. -/
def nextDocs (k : Nat) (known : List Doc) : List Doc :=
  ((Cursor.behind
      (searcher.zipIdx.filter fun hit => hit.1.link = link &&
        follows known (activeDocs metadataPageSize searcher link (k + 1)) hit.1.version)
      (Cursor.cursor (activeHits searcher link) (k * metadataPageSize))).take metadataPageSize).map
    fun hit => hit.1

/-- The documents that are read for the first `k` pages. -/
def readDocs : Nat → List Doc
  | 0 => []
  | k + 1 =>
      let known := readDocs k ++ pageDocs metadataPageSize searcher link k
      known ++ nextDocs searcher link k known

/-- The number of the pages of documents without a tombstone. -/
def pageCount : Nat :=
  ((activeHits searcher link).length + metadataPageSize - 1) / metadataPageSize

/-- The documents that a pass reads. -/
def documentsRead : List Doc := readDocs searcher link (pageCount searcher link)

end

section

variable {searcher : List Doc} {link : String}

theorem pageCount_eq {n : Nat} (hn : (activeHits searcher link).length ≤ n * metadataPageSize)
    (hpages : ∀ j < n, j * metadataPageSize < (activeHits searcher link).length) :
    pageCount searcher link = n := by
  have hsize : metadataPageSize = 10000 := rfl
  unfold pageCount
  rw [hsize] at hn hpages ⊢
  cases n with
  | zero => omega
  | succ n =>
      have := hpages n (Nat.lt_succ_self n)
      omega

/-- A missing version of the loop is one that follows. -/
theorem isMissing_eq_follows {visited : List Doc} {s : Pass} (hhighest : s.Highest visited)
    (hle : ∀ d ∈ s.versionToDocs, (d.version : Int) ≤ s.highestVersion) (version : Nat) :
    s.isMissing version = follows s.versionToDocs visited version := by
  have hhigher : ∀ d ∈ s.versionToDocs, (d.version : Int) ≠ s.highestVersion ↔
      ∃ a ∈ visited, d.version < a.version := by
    intro d hd
    have hd := hle d hd
    constructor
    · intro hne
      by_cases hnil : visited = []
      · have := (hhighest.nil hnil).1
        omega
      · obtain ⟨a, ha, hversion, -⟩ := hhighest.eq hnil
        exact ⟨a, ha, by omega⟩
    · rintro ⟨a, ha, hlt⟩
      have := hhighest.le a ha
      omega
  apply Bool.eq_iff_iff.mpr
  rw [isMissing_iff]
  unfold follows
  simp only [Bool.and_eq_true, List.all_eq_true, List.any_eq_true, decide_eq_true_eq]
  apply and_congr_right
  intro _
  apply exists_congr
  intro d
  apply and_congr_right
  intro hd
  rw [hhigher d hd]

/-- The documents in the map of the loop. -/
theorem next_versionToDocs {k : Nat} {s : Pass} (after : Option Nat)
    (hafter : s.after = Cursor.cursor (activeHits searcher link) (k * metadataPageSize))
    (hreads : s.Reads searcher link (activeDocs metadataPageSize searcher link k))
    (h : s.versionToDocs = readDocs searcher link k) :
    (s.next metadataPageSize searcher link (pageDocs metadataPageSize searcher link k)
      after).versionToDocs = readDocs searcher link (k + 1) := by
  have hhighest := hreads.highest.foldl_visit (pageDocs metadataPageSize searcher link k)
  rw [← activeDocs_succ] at hhighest
  have hmono := hreads.highest.mono
    (hreads.highest.foldl_visit (pageDocs metadataPageSize searcher link k))
  have hread := foldl_visit_versionToDocs (pageDocs metadataPageSize searcher link k) s
  have hafter' := foldl_visit_after (pageDocs metadataPageSize searcher link k) s
  unfold Pass.next Pass.page
  dsimp only
  set s' := (pageDocs metadataPageSize searcher link k).foldl Pass.visit s with hs'
  have hle : ∀ d ∈ s'.versionToDocs, (d.version : Int) ≤ s'.highestVersion := by
    intro d hd
    rw [hread] at hd
    rcases List.mem_append.mp hd with hd | hd
    · exact (hreads.le hd).trans hmono
    · exact hhighest.le d (mem_pageDocs hd)
  have hmissing : s'.missing metadataPageSize searcher link =
      nextDocs searcher link k s'.versionToDocs := by
    unfold Pass.missing nextDocs
    rw [searchAfter_eq, hafter', hafter]
    simp only [isMissing_eq_follows hhighest hle]
  rw [hmissing, hread, h]
  rfl

theorem readDocs_subset (k : Nat) {d : Doc} (hd : d ∈ readDocs searcher link k) :
    d ∈ readDocs searcher link (k + 1) := by
  conv => rw [readDocs]
  exact List.mem_append_left _ (List.mem_append_left _ hd)

end

/-! ## The versions of a link -/

/-- An index, in the order of the ids of its documents. There may be several documents of one
version of the link; they agree on its time and on whether it is deleted. -/
structure Versions (link : String) where
  docs : List Doc
  agree : ∀ d ∈ docs, ∀ e ∈ docs, d.link = link → e.link = link → d.version = e.version →
    d.updateTime = e.updateTime ∧ d.isDeleted = e.isDeleted

section

variable {link : String} (v : Versions link)

/-- The index after a pass over the link. -/
def Versions.pass : List Doc :=
  writeTombstones v.docs (applyMetadataIndexingUpdate v.docs link)

/-- The document and its next version are among those that are read for the first `k` pages. -/
def Versions.RewrittenBy (k : Nat) (d : Doc) : Prop :=
  (∃ x ∈ readDocs v.docs link k, x.indexingId = d.indexingId) ∧
    ∃ y ∈ readDocs v.docs link k, y.version = d.version + 1

/-- The document is deleted, and on one of the first `k` pages, where no version up to the end of
the page is higher. -/
def Versions.StampedBy (k : Nat) (d : Doc) : Prop :=
  d.isDeleted = true ∧ ∃ j < k, ∃ x ∈ pageDocs metadataPageSize v.docs link j,
    x.indexingId = d.indexingId ∧
      ∀ y ∈ activeDocs metadataPageSize v.docs link (j + 1), y.version ≤ d.version

/-- The last updates of a document, for the first `k` pages. -/
structure Versions.Times (k : Nat) (d : Doc) (updates : List TombstoneUpdate) : Prop where
  rewritten : v.RewrittenBy k d → ∀ e ∈ v.docs, e.link = link → e.version = d.version + 1 →
    lastTime updates d.indexingId = some e.updateTime
  stamped : ¬ v.RewrittenBy k d → v.StampedBy k d →
    lastTime updates d.indexingId = some d.updateTime
  untouched : ¬ v.RewrittenBy k d → ¬ v.StampedBy k d → lastTime updates d.indexingId = none

variable {v} {d e : Doc} {s : Pass} {visited : List Doc} {k : Nat}

/-- The time for a document whose next version was read. -/
theorem tombstoneTime_of_next (hreads : s.Reads v.docs link visited) (he : e ∈ v.docs)
    (hlink : e.link = link) (hnext : e.version = d.version + 1)
    (h : ∃ y ∈ s.versionToDocs, y.version = d.version + 1) :
    s.tombstoneTime d.version = some e.updateTime := by
  obtain ⟨y, hy, hyversion⟩ := h
  have hne : (d.version : Int) ≠ s.highestVersion := by
    have := hreads.le hy
    omega
  unfold Pass.tombstoneTime
  rw [if_neg hne]
  cases hfind : s.versionToDocs.find? fun x => x.version = d.version + 1 with
  | none =>
      have := List.find?_eq_none.mp hfind y hy
      simp [hyversion] at this
  | some x =>
      obtain ⟨hx, hxlink⟩ := hreads.mem x (List.mem_of_find?_eq_some hfind)
      have hxversion : x.version = d.version + 1 := by simpa using List.find?_some hfind
      rw [Option.map_some, (v.agree x hx e he hxlink hlink (hxversion.trans hnext.symm)).1]

/-- The time for the highest version, if it is deleted. -/
theorem tombstoneTime_of_highest (hreads : s.Reads v.docs link visited) (hd : d ∈ v.docs)
    (hlink : d.link = link) (hread : ∃ x ∈ s.versionToDocs, x.version = d.version)
    (hhighest : (d.version : Int) = s.highestVersion) (hdeleted : s.isDeleted = true) :
    s.tombstoneTime d.version = some d.updateTime := by
  obtain ⟨x, hx, hxversion⟩ := hread
  unfold Pass.tombstoneTime
  rw [if_pos hhighest, if_pos hdeleted]
  cases hfind : s.versionToDocs.find? fun x => x.version = d.version with
  | none =>
      have := List.find?_eq_none.mp hfind x hx
      simp [hxversion] at this
  | some y =>
      obtain ⟨hy, hylink⟩ := hreads.mem y (List.mem_of_find?_eq_some hfind)
      have hyversion : y.version = d.version := by simpa using List.find?_some hfind
      rw [Option.map_some, (v.agree y hy d hd hylink hlink hyversion).1]

/-- No time for other documents. -/
theorem tombstoneTime_eq_none (hnext : ¬ ∃ y ∈ s.versionToDocs, y.version = d.version + 1)
    (hhighest : ¬ ((d.version : Int) = s.highestVersion ∧ s.isDeleted = true)) :
    s.tombstoneTime d.version = none := by
  cases htime : s.tombstoneTime d.version with
  | none => rfl
  | some time =>
      rcases tombstoneTime_eq_some htime with ⟨hversion, hdeleted, -⟩ | ⟨y, hy, hyversion, -⟩
      · exact absurd ⟨hversion, hdeleted⟩ hhighest
      · exact absurd ⟨y, hy, hyversion⟩ hnext

theorem Versions.RewrittenBy.mono (h : v.RewrittenBy k d) : v.RewrittenBy (k + 1) d := by
  obtain ⟨⟨x, hx, hid⟩, y, hy, hversion⟩ := h
  exact ⟨⟨x, readDocs_subset k hx, hid⟩, y, readDocs_subset k hy, hversion⟩

theorem Versions.StampedBy.mono (h : v.StampedBy k d) : v.StampedBy (k + 1) d := by
  obtain ⟨hdeleted, j, hj, hx⟩ := h
  exact ⟨hdeleted, j, Nat.lt_succ_of_lt hj, hx⟩

/-- The page on which a read document is, or the version is below the highest. -/
theorem exists_page_of_mem_activeDocs (h : d ∈ activeDocs metadataPageSize v.docs link k) :
    ∃ j < k, d ∈ pageDocs metadataPageSize v.docs link j := by
  induction k with
  | zero => simp [activeDocs] at h
  | succ k ih =>
      rw [activeDocs_succ] at h
      rcases List.mem_append.mp h with h | h
      · obtain ⟨j, hj, hd⟩ := ih h
        exact ⟨j, Nat.lt_succ_of_lt hj, hd⟩
      · exact ⟨k, Nat.lt_succ_self k, h⟩

theorem activeDocs_mono {j : Nat} (hjk : j ≤ k)
    (h : d ∈ activeDocs metadataPageSize v.docs link j) :
    d ∈ activeDocs metadataPageSize v.docs link k := by
  induction hjk with
  | refl => exact h
  | step _ ih =>
      rw [activeDocs_succ]
      exact List.mem_append_left _ ih

/-- A page stamps what is the highest version on it, and deleted. -/
theorem stampedBy_of_highest (hd : d ∈ v.docs) (hlink : d.link = link)
    (hreads : s.Reads v.docs link (activeDocs metadataPageSize v.docs link k))
    (hread : ∃ x ∈ s.versionToDocs, x.indexingId = d.indexingId)
    (hhighest : (d.version : Int) = s.highestVersion) (hdeleted : s.isDeleted = true) :
    v.StampedBy k d := by
  obtain ⟨x, hx, hid⟩ := hread
  obtain ⟨hxdocs, hxlink⟩ := hreads.mem x hx
  have hxversion := version_of_indexingId (hxlink.trans hlink.symm) hid
  obtain ⟨y, hy, hyversion, hydeleted⟩ := hreads.highest.exists_deleted hdeleted
  obtain ⟨hydocs, hylink⟩ := hreads.mem y (hreads.read y hy)
  refine ⟨?_, ?_⟩
  · rw [← (v.agree y hydocs d hd hylink hlink (by omega)).2]
    exact hydeleted
  · have hxvisited : x ∈ activeDocs metadataPageSize v.docs link k := by
      rcases hreads.old x hx with hvisited | hlt
      · exact hvisited
      · omega
    obtain ⟨j, hj, hpage⟩ := exists_page_of_mem_activeDocs hxvisited
    refine ⟨j, hj, x, hpage, hid, fun z hz => ?_⟩
    have := hreads.highest.le z (activeDocs_mono hj hz)
    omega

/-- What is stamped for the first time is the highest version on its page. -/
theorem highest_of_stampedBy (hd : d ∈ v.docs) (hlink : d.link = link)
    (hreads : s.Reads v.docs link (activeDocs metadataPageSize v.docs link (k + 1)))
    (hbefore : ¬ v.StampedBy k d) (h : v.StampedBy (k + 1) d) :
    (∃ x ∈ s.versionToDocs, x.indexingId = d.indexingId) ∧
      (d.version : Int) = s.highestVersion ∧ s.isDeleted = true := by
  obtain ⟨hdeleted, j, hj, x, hx, hid, hall⟩ := h
  obtain rfl : j = k := by
    by_contra hne
    exact hbefore ⟨hdeleted, j, by omega, x, hx, hid, hall⟩
  have hxvisited := mem_pageDocs hx
  obtain ⟨hxdocs, hxlink, -⟩ := mem_activeDocs hxvisited
  have hxversion := version_of_indexingId (hxlink.trans hlink.symm) hid
  obtain ⟨y, hy, hyversion, hysame⟩ := hreads.highest.eq (List.ne_nil_of_mem hxvisited)
  obtain ⟨hydocs, hylink, -⟩ := mem_activeDocs hy
  have hle := hreads.highest.le x hxvisited
  have hyle := hall y hy
  have hversion : y.version = d.version := by omega
  refine ⟨⟨x, hreads.read x hxvisited, hid⟩, by omega, ?_⟩
  rw [← hysame, (v.agree y hydocs d hd hylink hlink hversion).2]
  exact hdeleted

/-- The updates that a page adds for a document of the link. -/
theorem lastTime_updatesOf (hlink : d.link = link) (hreads : s.Reads v.docs link visited) :
    ((∃ x ∈ s.versionToDocs, x.indexingId = d.indexingId) →
      lastTime (s.updatesOf link) d.indexingId = s.tombstoneTime d.version) ∧
    ((¬ ∃ x ∈ s.versionToDocs, x.indexingId = d.indexingId) →
      lastTime (s.updatesOf link) d.indexingId = none) :=
  lastTime_filterMap link s.tombstoneTime s.versionToDocs fun x hx hid =>
    version_of_indexingId ((hreads.mem x hx).2.trans hlink.symm) hid

/-- A document that is not rewritten gets its own time from a page that stamps it, or nothing. -/
theorem lastTime_of_not_rewritten (hd : d ∈ v.docs) (hlink : d.link = link)
    (hreads : s.Reads v.docs link (activeDocs metadataPageSize v.docs link k))
    (hread : s.versionToDocs = readDocs v.docs link k) (h : ¬ v.RewrittenBy k d) :
    lastTime (s.updatesOf link) d.indexingId = none ∨
      v.StampedBy k d ∧ lastTime (s.updatesOf link) d.indexingId = some d.updateTime := by
  obtain ⟨hknown, hunknown⟩ := lastTime_updatesOf hlink hreads
  by_cases hid : ∃ x ∈ s.versionToDocs, x.indexingId = d.indexingId
  · rw [hknown hid]
    have hnext : ¬ ∃ y ∈ s.versionToDocs, y.version = d.version + 1 := by
      intro hy
      rw [hread] at hid hy
      exact h ⟨hid, hy⟩
    by_cases hhighest : (d.version : Int) = s.highestVersion ∧ s.isDeleted = true
    · obtain ⟨x, hx, hxid⟩ := hid
      have hversion := version_of_indexingId ((hreads.mem x hx).2.trans hlink.symm) hxid
      right
      exact ⟨stampedBy_of_highest hd hlink hreads ⟨x, hx, hxid⟩ hhighest.1 hhighest.2,
        tombstoneTime_of_highest hreads hd hlink ⟨x, hx, hversion⟩ hhighest.1 hhighest.2⟩
    · exact .inl (tombstoneTime_eq_none hnext hhighest)
  · exact .inl (hunknown hid)

/-- What a page adds to the updates of a document. -/
theorem Versions.Times.next (hd : d ∈ v.docs) (hlink : d.link = link) {after : Option Nat}
    {s' : Pass} (hs' : s' = s.next metadataPageSize v.docs link
      (pageDocs metadataPageSize v.docs link k) after)
    (hreads : s'.Reads v.docs link (activeDocs metadataPageSize v.docs link (k + 1)))
    (hread : s'.versionToDocs = readDocs v.docs link (k + 1)) (h : v.Times k d s.updates) :
    v.Times (k + 1) d s'.updates := by
  have hupdates : lastTime s'.updates d.indexingId =
      (lastTime (s'.updatesOf link) d.indexingId).or (lastTime s.updates d.indexingId) := by
    conv_lhs => rw [hs', next_updates, ← hs', lastTime_append]
  obtain ⟨hknown, -⟩ := lastTime_updatesOf hlink hreads
  constructor
  · intro hrewritten e he helink hnext
    obtain ⟨hid, hy⟩ := hrewritten
    rw [← hread] at hid hy
    rw [hupdates, hknown hid, tombstoneTime_of_next hreads he helink hnext hy]
    rfl
  · intro hnot hstamped
    rw [hupdates]
    rcases lastTime_of_not_rewritten hd hlink hreads hread hnot with hnone | ⟨-, hsome⟩
    · rw [hnone, Option.none_or]
      by_cases hbefore : v.StampedBy k d
      · exact h.stamped (fun hrewritten => hnot hrewritten.mono) hbefore
      · -- the page stamps it
        exfalso
        obtain ⟨hid, hhighest, hdeleted⟩ := highest_of_stampedBy hd hlink hreads hbefore hstamped
        obtain ⟨x, hx, hxid⟩ := hid
        have hversion := version_of_indexingId ((hreads.mem x hx).2.trans hlink.symm) hxid
        rw [hknown ⟨x, hx, hxid⟩, tombstoneTime_of_highest hreads hd hlink ⟨x, hx, hversion⟩
          hhighest hdeleted] at hnone
        cases hnone
    · rw [hsome]
      rfl
  · intro hnot hnever
    rw [hupdates]
    rcases lastTime_of_not_rewritten hd hlink hreads hread hnot with hnone | ⟨hstamped, -⟩
    · rw [hnone, Option.none_or]
      exact h.untouched (fun hrewritten => hnot hrewritten.mono) fun hstamped => hnever hstamped.mono
    · exact absurd hstamped hnever

/-! ## The tombstone times -/

variable (v)

/-- The document and its next version are read by the pass. -/
def Versions.Rewritten (d : Doc) : Prop :=
  (∃ x ∈ documentsRead v.docs link, x.indexingId = d.indexingId) ∧
    ∃ y ∈ documentsRead v.docs link, y.version = d.version + 1

/-- The document is deleted, and on a page up to the end of which no version is higher. -/
def Versions.Stamped (d : Doc) : Prop :=
  d.isDeleted = true ∧ ∃ k, ∃ x ∈ pageDocs metadataPageSize v.docs link k,
    x.indexingId = d.indexingId ∧
      ∀ y ∈ activeDocs metadataPageSize v.docs link (k + 1), y.version ≤ d.version

/-- The next higher version that is there. -/
def IsNext (docs : List Doc) (link : String) (d e : Doc) : Prop :=
  e ∈ docs ∧ e.link = link ∧ d.version < e.version ∧
    ∀ x ∈ docs, x.link = link → d.version < x.version → e.version ≤ x.version

/-- No version is higher. -/
def IsHighest (docs : List Doc) (link : String) (d : Doc) : Prop :=
  ∀ x ∈ docs, x.link = link → x.version ≤ d.version

/-- Every version but the highest has the time of the next one as its tombstone, and the highest
one has none unless it is deleted. -/
def Tombstoned (docs : List Doc) (link : String) : Prop :=
  ∀ d ∈ docs, d.link = link →
    (∀ e, IsNext docs link d e → d.tombstone = e.updateTime) ∧
      (IsHighest docs link d → d.isDeleted = false → d.tombstone = activeDocumentTombstoneTime)

/-- What the pass has to find for that. -/
def Versions.Settles : Prop :=
  ∀ d ∈ v.docs, d.link = link →
    (∀ e, IsNext v.docs link d e →
      v.Rewritten d ∨
        (¬ v.Rewritten d ∧ v.Stamped d ∧ d.updateTime = e.updateTime) ∨
        (¬ v.Rewritten d ∧ ¬ v.Stamped d ∧ d.tombstone = e.updateTime)) ∧
      (IsHighest v.docs link d → d.isDeleted = false → d.tombstone = activeDocumentTombstoneTime)

variable {v}

/-- The tombstone of a document after the pass. -/
def Versions.tombstoneAfter (v : Versions link) (d : Doc) : Int64 :=
  (lastTime (applyMetadataIndexingUpdate v.docs link) d.indexingId).getD d.tombstone

theorem times_of_pass (hd : d ∈ v.docs) (hlink : d.link = link) :
    (v.Rewritten d → ∀ e ∈ v.docs, e.link = link → e.version = d.version + 1 →
      v.tombstoneAfter d = e.updateTime) ∧
    (¬ v.Rewritten d → v.Stamped d → v.tombstoneAfter d = d.updateTime) ∧
    (¬ v.Rewritten d → ¬ v.Stamped d → v.tombstoneAfter d = d.tombstone) := by
  obtain ⟨n, s, hn, hpages, -, ⟨-, htimes⟩, heq⟩ := pass_rule v.docs link
    (P := fun k s => s.versionToDocs = readDocs v.docs link k ∧ v.Times k d s.updates)
    ⟨rfl, fun h => by
      obtain ⟨⟨x, hx, -⟩, -⟩ := h
      simp [readDocs] at hx, fun _ h => by
      obtain ⟨-, j, hj, -⟩ := h
      exact absurd hj (Nat.not_lt_zero j), fun _ _ => rfl⟩
    fun k s after _ hafter hreads hreads' hP => by
      have hread := next_versionToDocs after hafter hreads hP.1
      exact ⟨hread, hP.2.next hd hlink rfl hreads' hread⟩
  have hcount := pageCount_eq hn hpages
  have hrewritten : v.Rewritten d ↔ v.RewrittenBy n d := by
    unfold Versions.Rewritten Versions.RewrittenBy documentsRead
    rw [hcount]
  have hstamped : v.Stamped d ↔ v.StampedBy n d := by
    unfold Versions.Stamped Versions.StampedBy
    apply and_congr_right
    intro _
    constructor
    · rintro ⟨k, x, hx, hrest⟩
      refine ⟨k, ?_, x, hx, hrest⟩
      by_contra hk
      have hnil : Cursor.page metadataPageSize (activeHits v.docs link) k = [] := by
        rw [Cursor.page_eq_nil_iff (by decide)]
        exact hn.trans (Nat.mul_le_mul_right _ (Nat.le_of_not_lt hk))
      unfold pageDocs at hx
      rw [hnil] at hx
      cases hx
    · rintro ⟨k, -, hrest⟩
      exact ⟨k, hrest⟩
  unfold Versions.tombstoneAfter
  rw [heq, hrewritten, hstamped]
  refine ⟨fun h e he helink hnext => ?_, fun h h' => ?_, fun h h' => ?_⟩
  · rw [htimes.rewritten h e he helink hnext]
    rfl
  · rw [htimes.stamped h h']
    rfl
  · rw [htimes.untouched h h']
    rfl

theorem pass_eq (v : Versions link) :
    v.pass = v.docs.map fun d => d.withTombstone (v.tombstoneAfter d) :=
  writeTombstones_eq _ _

/-- The pass changes tombstones only. -/
theorem tombstoned_pass_iff (v : Versions link) : Tombstoned v.pass link ↔
    ∀ d ∈ v.docs, d.link = link →
      (∀ e, IsNext v.docs link d e → v.tombstoneAfter d = e.updateTime) ∧
        (IsHighest v.docs link d → d.isDeleted = false →
          v.tombstoneAfter d = activeDocumentTombstoneTime) := by
  rw [pass_eq]
  constructor
  · intro h d hd hlink
    obtain ⟨hnext, hhighest⟩ :=
      h (d.withTombstone (v.tombstoneAfter d)) (List.mem_map_of_mem hd) hlink
    constructor
    · rintro e ⟨he, helink, hlt, hleast⟩
      refine hnext (e.withTombstone (v.tombstoneAfter e)) ⟨List.mem_map_of_mem he, helink, hlt, ?_⟩
      intro x hx hxlink hxlt
      obtain ⟨y, hy, rfl⟩ := List.mem_map.mp hx
      exact hleast y hy hxlink hxlt
    · intro hall hdeleted
      refine hhighest ?_ hdeleted
      intro x hx hxlink
      obtain ⟨y, hy, rfl⟩ := List.mem_map.mp hx
      exact hall y hy hxlink
  · intro h d' hd' hlink
    obtain ⟨d, hd, rfl⟩ := List.mem_map.mp hd'
    obtain ⟨hnext, hhighest⟩ := h d hd hlink
    constructor
    · rintro e' ⟨he', helink, hlt, hleast⟩
      obtain ⟨e, he, rfl⟩ := List.mem_map.mp he'
      exact hnext e ⟨he, helink, hlt, fun x hx hxlink hxlt =>
        hleast (x.withTombstone (v.tombstoneAfter x)) (List.mem_map_of_mem hx) hxlink hxlt⟩
    · intro hall hdeleted
      exact hhighest (fun x hx hxlink =>
        hall (x.withTombstone (v.tombstoneAfter x)) (List.mem_map_of_mem hx) hxlink) hdeleted

/-- What a pass reads are documents of the link. -/
theorem mem_documentsRead (h : d ∈ documentsRead v.docs link) : d ∈ v.docs ∧ d.link = link := by
  obtain ⟨n, s, hn, hpages, hreads, hread, -⟩ := pass_rule v.docs link
    (P := fun k s => s.versionToDocs = readDocs v.docs link k) rfl
    fun k s after _ hafter hreads _ hP => next_versionToDocs after hafter hreads hP
  apply hreads.mem d
  rw [hread, ← pageCount_eq hn hpages]
  exact h

/-- A version that is rewritten has the time of the next one that is there. -/
theorem tombstoneAfter_of_rewritten (hd : d ∈ v.docs) (hlink : d.link = link)
    (h : v.Rewritten d) (hnext : IsNext v.docs link d e) : v.tombstoneAfter d = e.updateTime := by
  obtain ⟨he, helink, hlt, hleast⟩ := hnext
  obtain ⟨-, y, hy, hversion⟩ := id h
  obtain ⟨hydocs, hylink⟩ := mem_documentsRead hy
  have hle := hleast y hydocs hylink (by omega)
  exact (times_of_pass hd hlink).1 h e he helink (by omega)

/-- The highest version is updated by a stamp only. -/
theorem tombstoneAfter_of_highest (hd : d ∈ v.docs) (hlink : d.link = link)
    (hhighest : IsHighest v.docs link d) (hdeleted : d.isDeleted = false) :
    v.tombstoneAfter d = d.tombstone := by
  apply (times_of_pass hd hlink).2.2
  · rintro ⟨-, y, hy, hversion⟩
    obtain ⟨hydocs, hylink⟩ := mem_documentsRead hy
    have := hhighest y hydocs hylink
    omega
  · rintro ⟨hstamped, -⟩
    rw [hdeleted] at hstamped
    cases hstamped

/-- After a pass over all documents of the index the tombstones of a link are right if and only
if what the pass reads settles them. -/
theorem tombstoned_iff (link : String) (v : Versions link) :
    Tombstoned v.pass link ↔ v.Settles := by
  rw [tombstoned_pass_iff]
  unfold Versions.Settles
  apply forall_congr'
  intro d
  apply forall_congr'
  intro hd
  apply forall_congr'
  intro hlink
  obtain ⟨-, hstamp, huntouched⟩ := times_of_pass hd hlink
  apply and_congr
  · apply forall_congr'
    intro e
    apply forall_congr'
    intro hnext
    by_cases hrewritten : v.Rewritten d
    · exact iff_of_true (tombstoneAfter_of_rewritten hd hlink hrewritten hnext) (.inl hrewritten)
    · by_cases hstamped : v.Stamped d
      · rw [hstamp hrewritten hstamped]
        simp [hrewritten, hstamped]
      · rw [huntouched hrewritten hstamped]
        simp [hrewritten, hstamped]
  · apply forall_congr'
    intro hhighest
    apply forall_congr'
    intro hdeleted
    rw [tombstoneAfter_of_highest hd hlink hhighest hdeleted]

/-- A document without a tombstone is read. -/
theorem mem_documentsRead_of_active (hd : d ∈ v.docs) (hlink : d.link = link)
    (hactive : d.tombstone = activeDocumentTombstoneTime) : d ∈ documentsRead v.docs link := by
  obtain ⟨n, s, hn, hpages, hreads, hread, -⟩ := pass_rule v.docs link
    (P := fun k s => s.versionToDocs = readDocs v.docs link k) rfl
    fun k s after _ hafter hreads _ hP => next_versionToDocs after hafter hreads hP
  unfold documentsRead
  rw [pageCount_eq hn hpages, ← hread]
  exact hreads.read d (mem_activeDocs_of_active hn hd hlink hactive)

/-- Versions without gaps, of which none has a tombstone yet, are settled by one pass, on however
many pages they are. -/
theorem settles_of_consecutive (v : Versions link)
    (hactive : ∀ d ∈ v.docs, d.link = link → d.tombstone = activeDocumentTombstoneTime)
    (hgap : ∀ d ∈ v.docs, d.link = link → ∀ e, IsNext v.docs link d e → e.version = d.version + 1) :
    v.Settles := by
  intro d hd hlink
  refine ⟨fun e hnext => ?_, fun _ _ => hactive d hd hlink⟩
  obtain ⟨he, helink, -, -⟩ := id hnext
  left
  exact ⟨⟨d, mem_documentsRead_of_active hd hlink (hactive d hd hlink), rfl⟩,
    e, mem_documentsRead_of_active he helink (hactive e he helink), hgap d hd hlink e hnext⟩

end

/-! ## Two versions -/

/-- Two versions of a document, with times one and two. -/
def twoVersions (first second : Nat) (h : first ≠ second) : Versions "/notes/a" where
  docs := [note first 1 false, note second 2 false]
  agree := by
    intro d hd e he _ _ hversion
    rcases List.mem_pair.mp hd with rfl | rfl <;> rcases List.mem_pair.mp he with rfl | rfl
    · exact ⟨rfl, rfl⟩
    · exact absurd hversion h
    · exact absurd hversion.symm h
    · exact ⟨rfl, rfl⟩

theorem tombstoned_iff_consecutive :
    Tombstoned (twoVersions 0 1 (by decide)).pass "/notes/a" := by
  apply (tombstoned_iff "/notes/a" (twoVersions 0 1 (by decide))).mpr
  apply settles_of_consecutive
  · intro d hd _
    rcases List.mem_pair.mp hd with rfl | rfl <;> rfl
  · intro d hd _ e hnext
    obtain ⟨he, -, hlt, -⟩ := hnext
    rcases List.mem_pair.mp hd with rfl | rfl <;> rcases List.mem_pair.mp he with rfl | rfl <;>
      simp [note] at hlt ⊢

/-- Version 1 is not there: version 0 stays without a tombstone. -/
theorem gap_not_tombstoned : ¬ Tombstoned (twoVersions 0 2 (by decide)).pass "/notes/a" := by
  intro h
  have hpass : (twoVersions 0 2 (by decide)).pass = [note 0 1 false, note 2 2 false] := rfl
  rw [hpass] at h
  have hnext : IsNext [note 0 1 false, note 2 2 false] "/notes/a" (note 0 1 false)
      (note 2 2 false) := by
    refine ⟨by simp, rfl, by decide, fun x hx _ hlt => ?_⟩
    rcases List.mem_pair.mp hx with rfl | rfl
    · exact absurd hlt (by decide)
    · exact le_rfl
  have htime := (h (note 0 1 false) (by simp) rfl).1 (note 2 2 false) hnext
  exact absurd htime (by decide)

end Xenon.Index.Metadata

import Mathlib.Algebra.Order.Group.Nat
import Xenon.QueryTask.Merge

/-!
# Queries that read the latest writes

A query with `READ_AFTER_WRITE_CONSISTENCY` takes, for every link that a quorum of the nodes have
returned, the copy with the highest version, and reads the others from their owners. The version of
the copy that is highest so far is cut down to 32 bits when the next one is compared with it.
-/

namespace Xenon.QueryTask.ReadAfterWrite

open Merge

/-- What `mergeForReadAfterWriteConsistency` reads of a document, and the rest of it. -/
structure Document (L β : Type*) where
  documentSelfLink : L
  documentVersion : Nat
  body : β
deriving DecidableEq

structure VersionObjectPair (L β : Type*) where
  version : Nat
  object : Document L β

structure NodeGroupBroadcastResponse where
  nodeCount : Nat
  membershipQuorum : Nat

variable {L β : Type*} [LinearOrder L]

/-! ## `mergeForReadAfterWriteConsistency` -/

/-- `Long.intValue`. -/
def intValue (version : Nat) : Int := (version : Int).bmod (2 ^ 32)

/-- The number of copies and the latest one, for each link. -/
structure Tracked (L β : Type*) where
  linkToCountMap : AList fun _ : L => Nat
  linkToVersionObjectMap : AList fun _ : L => VersionObjectPair L β

def newer (v : Option (VersionObjectPair L β)) (entry : Document L β) : VersionObjectPair L β :=
  match v with
  | none => ⟨entry.documentVersion, entry⟩
  | some v =>
      if intValue v.version < entry.documentVersion then ⟨entry.documentVersion, entry⟩ else v

def track (t : Tracked L β) (entry : Document L β) : Tracked L β where
  linkToCountMap := t.linkToCountMap.insert entry.documentSelfLink
    ((t.linkToCountMap.lookup entry.documentSelfLink).elim 1 (· + 1))
  linkToVersionObjectMap := t.linkToVersionObjectMap.insert entry.documentSelfLink
    (newer (t.linkToVersionObjectMap.lookup entry.documentSelfLink) entry)

def trackAll (dataSources : List (ServiceDocumentQueryResult L (Document L β)))
    (t : Tracked L β) : Except Merge.Failure (Tracked L β) :=
  match dataSources with
  | [] => .ok t
  | partialResult :: dataSources =>
      match partialResult.documents with
      | none => .error .nullPointer
      | some documents =>
          trackAll dataSources ((documents.entries.map Sigma.snd).foldl track t)

/-- A link that enough nodes have returned. The two maps have the same keys. -/
def choose (t : Tracked L β) (membershipQuorum : Nat) (documents : AList fun _ : L => Document L β)
    (entry : Sigma fun _ : L => Nat) : AList fun _ : L => Document L β :=
  if membershipQuorum ≤ entry.2 then
    match t.linkToVersionObjectMap.lookup entry.1 with
    | some pair => documents.insert entry.1 pair.object
    | none => documents
  else documents

def chooseDocuments (t : Tracked L β) (membershipQuorum : Nat) : AList fun _ : L => Document L β :=
  t.linkToCountMap.entries.foldl (choose t membershipQuorum) ∅

def getLinks (t : Tracked L β) (membershipQuorum : Nat) : List L :=
  (t.linkToCountMap.entries.filter fun entry => entry.2 < membershipQuorum).map Sigma.fst

/-- The documents that the owners return for the other links. A service returns its state, with its
own link. -/
def readDocuments (get : (link : L) → Option { d : Document L β // d.documentSelfLink = link })
    (links : List L)
    (documents : AList fun _ : L => Document L β) :
    Except Merge.Failure (AList fun _ : L => Document L β) :=
  match links with
  | [] => .ok documents
  | link :: links =>
      match get link with
      | none => .error .get
      | some d => readDocuments get links (documents.insert d.1.documentSelfLink d.1)

/-- `populateResultObject` of a new result. -/
def populateResultObject (documents : AList fun _ : L => Document L β) (expandContent : Bool)
    (isAscOrder : Bool) : ServiceDocumentQueryResult L (Document L β) where
  documentLinks := documents.keys.mergeSort fun a b => ¬before isAscOrder b a
  documents := if expandContent then some documents else none
  documentCount := some documents.keys.length

def mergeForReadAfterWriteConsistency
    (dataSources : List (ServiceDocumentQueryResult L (Document L β))) (isAscOrder : Bool)
    (expandContent : Bool) (nodeGroupResponse : NodeGroupBroadcastResponse)
    (get : (link : L) → Option { d : Document L β // d.documentSelfLink = link }) :
    Except Merge.Failure (ServiceDocumentQueryResult L (Document L β)) :=
  if nodeGroupResponse.membershipQuorum < nodeGroupResponse.nodeCount / 2 + 1 then
    .error .illegalState
  else
    match trackAll dataSources ⟨∅, ∅⟩ with
    | .error e => .error e
    | .ok t =>
        match readDocuments get (getLinks t nodeGroupResponse.membershipQuorum)
          (chooseDocuments t nodeGroupResponse.membershipQuorum) with
        | .error e => .error e
        | .ok documents => .ok (populateResultObject documents expandContent isAscOrder)

/-! ## The latest of the copies of a link -/

section Latest

/-- The copy that is left after all have been compared. -/
def latest (copies : List (Document L β)) : Option (VersionObjectPair L β) :=
  copies.foldl (fun v entry => some (newer v entry)) none

/-- No copy that comes after the last one of the highest version has a version above what is left
of the highest one when it is cut down to 32 bits. -/
def KeepsHighest (copies : List (Document L β)) : Prop :=
  ∀ first d rest, copies = first ++ d :: rest →
    (∀ c ∈ first, c.documentVersion ≤ d.documentVersion) →
    (∀ c ∈ rest, c.documentVersion < d.documentVersion) →
    ∀ c ∈ rest, (c.documentVersion : Int) ≤ intValue d.documentVersion

omit [LinearOrder L]

theorem intValue_le (version : Nat) : intValue version ≤ version := by
  unfold intValue
  rw [Int.bmod_def]
  split_ifs <;> omega

/-- Versions that fit into 32 bits are compared as they are. -/
theorem keepsHighest_of_lt {copies : List (Document L β)}
    (h : ∀ c ∈ copies, c.documentVersion < 2 ^ 31) : KeepsHighest copies := by
  intro first d rest hcopies _ hrest c hc
  have hd := h d (by rw [hcopies]; simp)
  have hfits : intValue d.documentVersion = d.documentVersion := by
    unfold intValue
    apply Int.bmod_eq_of_le <;> omega
  rw [hfits]
  exact_mod_cast (hrest c hc).le

theorem newer_of_lt {v : VersionObjectPair L β} {d : Document L β}
    (h : intValue v.version < d.documentVersion) : newer (some v) d = ⟨d.documentVersion, d⟩ := by
  simp only [newer, if_pos h]

theorem newer_of_le {v : VersionObjectPair L β} {d : Document L β}
    (h : (d.documentVersion : Int) ≤ intValue v.version) : newer (some v) d = v := by
  simp only [newer, if_neg (not_lt.mpr h)]

theorem exists_last_highest {copies : List (Document L β)} (hne : copies ≠ []) :
    ∃ first d rest, copies = first ++ d :: rest ∧
      (∀ c ∈ first, c.documentVersion ≤ d.documentVersion) ∧
      ∀ c ∈ rest, c.documentVersion < d.documentVersion := by
  induction copies with
  | nil => exact absurd rfl hne
  | cons a copies ih =>
      by_cases hnil : copies = []
      · subst hnil
        exact ⟨[], a, [], rfl, List.forall_mem_nil _, List.forall_mem_nil _⟩
      · obtain ⟨first, d, rest, rfl, hfirst, hrest⟩ := ih hnil
        rcases le_or_gt a.documentVersion d.documentVersion with hle | hlt
        · refine ⟨a :: first, d, rest, rfl, fun c hc => ?_, hrest⟩
          rcases List.mem_cons.mp hc with rfl | hc
          · exact hle
          · exact hfirst c hc
        · refine ⟨[], a, first ++ d :: rest, rfl, List.forall_mem_nil _, fun c hc => ?_⟩
          rcases List.mem_append.mp hc with hc | hc
          · exact (hfirst c hc).trans_lt hlt
          · rcases List.mem_cons.mp hc with rfl | hc
            · exact hlt
            · exact (hrest c hc).trans hlt

/-- The copy that is left is one of them, with its own version. -/
theorem latest_spec (copies : List (Document L β)) :
    match latest copies with
    | none => copies = []
    | some v => v.version = v.object.documentVersion ∧ v.object ∈ copies := by
  induction copies using List.reverseRecOn with
  | nil => rfl
  | append_singleton copies d ih =>
      have hstep : latest (copies ++ [d]) = some (newer (latest copies) d) := by
        simp [latest]
      rw [hstep]
      cases hlatest : latest copies with
      | none => exact ⟨rfl, by simp [newer]⟩
      | some v =>
          rw [hlatest] at ih
          rcases lt_or_ge (intValue v.version) d.documentVersion with hlt | hle
          · rw [newer_of_lt hlt]
            exact ⟨rfl, by simp⟩
          · rw [newer_of_le hle]
            exact ⟨ih.1, List.mem_append_left _ ih.2⟩

theorem latest_append_cons (first : List (Document L β)) (d : Document L β)
    (rest : List (Document L β)) :
    latest (first ++ d :: rest) =
      some (rest.foldl (fun v entry => newer (some v) entry) (newer (latest first) d)) := by
  have hfold : ∀ (l : List (Document L β)) v,
      l.foldl (fun v entry => some (newer v entry)) (some v) =
        some (l.foldl (fun v entry => newer (some v) entry) v) := by
    intro l
    induction l with
    | nil => intro v; rfl
    | cons a l ih =>
        intro v
        rw [List.foldl_cons, List.foldl_cons]
        exact ih (newer (some v) a)
  unfold latest
  rw [List.foldl_append, List.foldl_cons, hfold]

/-- A copy of the highest version is always taken. -/
theorem version_newer_of_highest {first : List (Document L β)} {d : Document L β}
    (h : ∀ c ∈ first, c.documentVersion ≤ d.documentVersion) :
    (newer (latest first) d).version = d.documentVersion := by
  have hspec := latest_spec first
  cases hlatest : latest first with
  | none => rfl
  | some v =>
      rw [hlatest] at hspec
      rcases lt_or_ge (intValue v.version) d.documentVersion with hlt | hle
      · rw [newer_of_lt hlt]
      · rw [newer_of_le hle]
        have hlast := h v.object hspec.2
        have hcut := intValue_le v.version
        rw [← hspec.1] at hlast
        omega

/-- Copies that are lower leave what is lower. -/
theorem version_foldl_lt {rest : List (Document L β)} {v : VersionObjectPair L β} {n : Nat}
    (hv : v.version < n) (h : ∀ c ∈ rest, c.documentVersion < n) :
    (rest.foldl (fun v entry => newer (some v) entry) v).version < n := by
  induction rest generalizing v with
  | nil => exact hv
  | cons a rest ih =>
      rw [List.forall_mem_cons] at h
      rw [List.foldl_cons]
      rcases lt_or_ge (intValue v.version) a.documentVersion with hlt | hle
      · rw [newer_of_lt hlt]
        exact ih h.1 h.2
      · rw [newer_of_le hle]
        exact ih hv h.2

/-- After the last copy of the highest version, one of the copies that follow is taken or none. -/
theorem version_foldl_iff {rest : List (Document L β)} {v : VersionObjectPair L β}
    (h : ∀ c ∈ rest, c.documentVersion < v.version) :
    (rest.foldl (fun v entry => newer (some v) entry) v).version = v.version ↔
      ∀ c ∈ rest, (c.documentVersion : Int) ≤ intValue v.version := by
  induction rest with
  | nil => exact ⟨fun _ => List.forall_mem_nil _, fun _ => rfl⟩
  | cons a rest ih =>
      rw [List.forall_mem_cons] at h
      rw [List.foldl_cons, List.forall_mem_cons]
      rcases lt_or_ge (intValue v.version) a.documentVersion with hlt | hle
      · rw [newer_of_lt hlt]
        have hlower : (rest.foldl (fun v entry => newer (some v) entry)
            ⟨a.documentVersion, a⟩).version < v.version := version_foldl_lt h.1 h.2
        exact ⟨fun heq => absurd heq hlower.ne, fun hall => absurd hall.1 (not_le.mpr hlt)⟩
      · rw [newer_of_le hle]
        exact (ih h.2).trans ⟨fun hall => ⟨hle, hall⟩, fun hall => hall.2⟩

theorem latest_highest_iff {copies : List (Document L β)} (hne : copies ≠ []) :
    (∃ v, latest copies = some v ∧
      ∀ c ∈ copies, c.documentVersion ≤ v.object.documentVersion) ↔ KeepsHighest copies := by
  have hspec := latest_spec copies
  constructor
  · rintro ⟨v, hv, hhighest⟩ first d rest rfl hfirst hrest
    rw [hv] at hspec
    have hversion := version_newer_of_highest hfirst
    rw [latest_append_cons] at hv
    rw [← hversion] at hrest ⊢
    apply (version_foldl_iff hrest).mp
    rw [Option.some.inj hv, hversion, hspec.1]
    apply le_antisymm _ (hhighest d (by simp))
    rcases List.mem_append.mp hspec.2 with hmem | hmem
    · exact hfirst _ hmem
    · rcases List.mem_cons.mp hmem with heq | hmem
      · exact le_of_eq (congrArg Document.documentVersion heq)
      · rw [hversion] at hrest
        exact (hrest _ hmem).le
  · intro hkeeps
    obtain ⟨first, d, rest, rfl, hfirst, hrest⟩ := exists_last_highest hne
    have hcut := hkeeps first d rest rfl hfirst hrest
    have hversion := version_newer_of_highest hfirst
    rw [latest_append_cons] at hspec ⊢
    refine ⟨_, rfl, fun c hc => ?_⟩
    rw [← hspec.1, (version_foldl_iff (by rwa [hversion])).mpr (by rwa [hversion]), hversion]
    rcases List.mem_append.mp hc with hc | hc
    · exact hfirst c hc
    · rcases List.mem_cons.mp hc with rfl | hc
      · exact le_refl _
      · exact (hrest c hc).le

end Latest

/-! ## What is chosen -/

section Chosen

/-- The documents of a node. -/
def values (s : ServiceDocumentQueryResult L (Document L β)) : List (Document L β) :=
  s.documents.elim [] fun documents => documents.entries.map Sigma.snd

/-- The copies of a link, in the order of the nodes. -/
def copies (sources : List (ServiceDocumentQueryResult L (Document L β))) (link : L) :
    List (Document L β) :=
  (sources.flatMap values).filter fun d => d.documentSelfLink = link

/-- How many nodes have returned a link. -/
def nodesReturning (sources : List (ServiceDocumentQueryResult L (Document L β)))
    (link : L) : Nat :=
  sources.countP fun s => (values s).any fun d => d.documentSelfLink = link

theorem nodesReturning_le (sources : List (ServiceDocumentQueryResult L (Document L β)))
    (link : L) :
    nodesReturning sources link ≤ (copies sources link).length := by
  induction sources with
  | nil => exact le_refl _
  | cons s sources ih =>
      unfold nodesReturning copies at ih ⊢
      rw [List.countP_cons, List.flatMap_cons, List.filter_append, List.length_append, add_comm]
      apply Nat.add_le_add _ ih
      split_ifs with hany
      · obtain ⟨d, hd, hlink⟩ := List.any_eq_true.mp hany
        exact List.length_pos_of_mem (List.mem_filter.mpr ⟨hd, hlink⟩)
      · exact Nat.zero_le _

theorem trackAll_eq {sources : List (ServiceDocumentQueryResult L (Document L β))}
    (h : ∀ s ∈ sources, s.documents ≠ none) (t : Tracked L β) :
    trackAll sources t = .ok ((sources.flatMap values).foldl track t) := by
  induction sources generalizing t with
  | nil => rfl
  | cons s sources ih =>
      rw [List.forall_mem_cons] at h
      obtain ⟨documents, hdocuments⟩ := Option.ne_none_iff_exists'.mp h.1
      rw [List.flatMap_cons, List.foldl_append, ← ih h.2]
      simp only [trackAll, values, hdocuments, Option.elim_some]

/-- The two maps, by the copies of each link. -/
theorem foldl_track (entries : List (Document L β)) (link : L) :
    let t := entries.foldl track ⟨∅, ∅⟩
    let own := entries.filter fun d => d.documentSelfLink = link
    t.linkToCountMap.lookup link = (if own = [] then none else some own.length) ∧
      t.linkToVersionObjectMap.lookup link = latest own := by
  induction entries using List.reverseRecOn with
  | nil => exact ⟨rfl, rfl⟩
  | append_singleton entries d ih =>
      obtain ⟨hcount, hversion⟩ := ih
      dsimp only
      rw [List.foldl_append, List.filter_append]
      by_cases hlink : d.documentSelfLink = link
      · have hone : [d].filter (fun d => decide (d.documentSelfLink = link)) = [d] := by
          simp [hlink]
        rw [hone, if_neg (by simp)]
        subst hlink
        constructor
        · show AList.lookup _ (AList.insert _ _ _) = _
          rw [AList.lookup_insert, hcount, List.length_append, List.length_singleton]
          split_ifs with hnil
          · rw [hnil]
            rfl
          · rfl
        · show AList.lookup _ (AList.insert _ _ _) = _
          rw [AList.lookup_insert, hversion, latest_append_cons]
          rfl
      · have hnone : [d].filter (fun d => decide (d.documentSelfLink = link)) = [] := by
          simp [hlink]
        rw [hnone, List.append_nil]
        constructor
        · show AList.lookup _ (AList.insert _ _ _) = _
          rw [AList.lookup_insert_ne (Ne.symm hlink), hcount]
        · show AList.lookup _ (AList.insert _ _ _) = _
          rw [AList.lookup_insert_ne (Ne.symm hlink), hversion]

theorem lookup_chooseDocuments {t : Tracked L β} {membershipQuorum n : Nat} {link : L}
    {pair : VersionObjectPair L β} (hcount : t.linkToCountMap.lookup link = some n)
    (hn : membershipQuorum ≤ n) (hpair : t.linkToVersionObjectMap.lookup link = some pair) :
    (chooseDocuments t membershipQuorum).lookup link = some pair.object := by
  have hmem : (⟨link, n⟩ : Sigma fun _ : L => Nat) ∈ t.linkToCountMap.entries :=
    AList.mem_lookup_iff.mp hcount
  -- once the document is there, it stays: no other one is put under the link
  have hstays : ∀ (entries : List (Sigma fun _ : L => Nat)) documents,
      documents.lookup link = some pair.object →
        (entries.foldl (choose t membershipQuorum) documents).lookup link = some pair.object := by
    intro entries
    induction entries with
    | nil => exact fun _ h => h
    | cons entry entries ih =>
        intro documents h
        apply ih
        unfold choose
        split_ifs
        · by_cases heq : entry.1 = link
          · rw [heq, hpair]
            exact AList.lookup_insert _
          · split
            · rw [AList.lookup_insert_ne (Ne.symm heq)]
              exact h
            · exact h
        · exact h
  obtain ⟨first, rest, hentries⟩ := List.append_of_mem hmem
  unfold chooseDocuments
  rw [hentries, List.foldl_append, List.foldl_cons]
  apply hstays
  unfold choose
  rw [if_pos hn]
  dsimp only
  rw [hpair]
  exact AList.lookup_insert _

theorem readDocuments_spec
    {get : (link : L) → Option { d : Document L β // d.documentSelfLink = link }}
    (hget : ∀ link, get link ≠ none) (links : List L)
    (documents : AList fun _ : L => Document L β) :
    ∃ documents', readDocuments get links documents = .ok documents' ∧
      ∀ link, link ∉ links → documents'.lookup link = documents.lookup link := by
  induction links generalizing documents with
  | nil => exact ⟨documents, rfl, fun _ _ => rfl⟩
  | cons l links ih =>
      obtain ⟨d, hd⟩ := Option.ne_none_iff_exists'.mp (hget l)
      obtain ⟨documents', hread, hsame⟩ := ih (documents.insert d.1.documentSelfLink d.1)
      refine ⟨documents', ?_, fun link hlink => ?_⟩
      · simp only [readDocuments, hd]
        exact hread
      · rw [List.mem_cons, not_or] at hlink
        rw [hsame link hlink.2, AList.lookup_insert_ne]
        rw [d.2]
        exact hlink.1

/-- For every link that a quorum of the nodes have returned, a copy of the highest version. -/
def ChoosesLatest (sources : List (ServiceDocumentQueryResult L (Document L β)))
    (isAscOrder : Bool) (response : NodeGroupBroadcastResponse)
    (get : (link : L) → Option { d : Document L β // d.documentSelfLink = link }) : Prop :=
  ∃ result, mergeForReadAfterWriteConsistency sources isAscOrder true response get = .ok result ∧
    ∀ link, response.membershipQuorum ≤ nodesReturning sources link →
      ∃ d ∈ copies sources link, result.document link = some d ∧
        ∀ c ∈ copies sources link, c.documentVersion ≤ d.documentVersion

/-- The result has the copy that is left for a link that a quorum of the nodes have returned. -/
theorem mergeForReadAfterWriteConsistency_spec
    {sources : List (ServiceDocumentQueryResult L (Document L β))} (isAscOrder : Bool)
    {response : NodeGroupBroadcastResponse}
    {get : (link : L) → Option { d : Document L β // d.documentSelfLink = link }}
    (hmajority : response.nodeCount / 2 + 1 ≤ response.membershipQuorum)
    (hdocuments : ∀ s ∈ sources, s.documents ≠ none) (hget : ∀ link, get link ≠ none) :
    ∃ result, mergeForReadAfterWriteConsistency sources isAscOrder true response get = .ok result ∧
      ∀ link, response.membershipQuorum ≤ nodesReturning sources link →
        copies sources link ≠ [] ∧
          result.document link = (latest (copies sources link)).map (·.object) := by
  obtain ⟨documents, hread, hsame⟩ := readDocuments_spec hget
    (getLinks ((sources.flatMap values).foldl track ⟨∅, ∅⟩) response.membershipQuorum)
    (chooseDocuments ((sources.flatMap values).foldl track ⟨∅, ∅⟩) response.membershipQuorum)
  refine ⟨populateResultObject documents true isAscOrder, ?_, fun link hlink => ?_⟩
  · unfold mergeForReadAfterWriteConsistency
    rw [if_neg (not_lt.mpr hmajority), trackAll_eq hdocuments]
    dsimp only
    rw [hread]
  · obtain ⟨hcount, hversion⟩ := foldl_track (sources.flatMap values) link
    have hquorum := hlink.trans (nodesReturning_le sources link)
    have hne : copies sources link ≠ [] := by
      apply List.ne_nil_of_length_pos
      omega
    refine ⟨hne, ?_⟩
    rw [← copies, if_neg hne] at hcount
    have hspec := latest_spec (copies sources link)
    obtain ⟨pair, hpair⟩ : ∃ pair, latest (copies sources link) = some pair := by
      cases hlatest : latest (copies sources link) with
      | none =>
          rw [hlatest] at hspec
          exact absurd hspec hne
      | some pair => exact ⟨pair, rfl⟩
    rw [hpair] at hspec ⊢
    show documents.lookup link = some pair.object
    rw [hsame link, lookup_chooseDocuments hcount hquorum (hversion.trans hpair)]
    intro hmem
    obtain ⟨⟨l, n⟩, hentry, rfl⟩ := List.mem_map.mp hmem
    obtain ⟨hentry, hlt⟩ := List.mem_filter.mp hentry
    have hn := (AList.mem_lookup_iff.mpr hentry).symm.trans hcount
    rw [decide_eq_true_iff] at hlt
    have hlength := Option.some.inj hn
    dsimp only at hlt
    omega

end Chosen

/-- The links and the documents of a broadcast query are merged as they are to be, and the latest
copies chosen, where the comparison of versions keeps the highest one. -/
theorem broadcast_merge_iff (sources : List (ServiceDocumentQueryResult L (Document L β)))
    (isAscOrder : Bool) (response : NodeGroupBroadcastResponse)
    (get : (link : L) → Option { d : Document L β // d.documentSelfLink = link })
    (hmajority : response.nodeCount / 2 + 1 ≤ response.membershipQuorum)
    (hdocuments : ∀ s ∈ sources, s.documents ≠ none) (hget : ∀ link, get link ≠ none) :
    (MergesLinks sources isAscOrder ∧ ChoosesLatest sources isAscOrder response get) ↔
      ∀ link, response.membershipQuorum ≤ nodesReturning sources link →
        KeepsHighest (copies sources link) := by
  obtain ⟨result, hresult, hchosen⟩ :=
    mergeForReadAfterWriteConsistency_spec isAscOrder hmajority hdocuments hget
  constructor
  · rintro ⟨-, result', hresult', hlatest⟩ link hlink
    obtain rfl : result = result' := Except.ok.inj (hresult.symm.trans hresult')
    obtain ⟨hne, hdocument⟩ := hchosen link hlink
    obtain ⟨d, -, hd, hhighest⟩ := hlatest link hlink
    obtain ⟨v, hv, rfl⟩ := Option.map_eq_some_iff.mp (hdocument.symm.trans hd)
    exact (latest_highest_iff hne).mp ⟨v, hv, hhighest⟩
  · intro hkeeps
    refine ⟨mergesLinks sources isAscOrder, result, hresult, fun link hlink => ?_⟩
    obtain ⟨hne, hdocument⟩ := hchosen link hlink
    obtain ⟨v, hv, hhighest⟩ := (latest_highest_iff hne).mpr (hkeeps link hlink)
    have hspec := latest_spec (copies sources link)
    rw [hv] at hspec hdocument
    exact ⟨v.object, hspec.2, hdocument, hhighest⟩

/-- A node that returns one document. -/
def oneDocument (version : Nat) : ServiceDocumentQueryResult Nat (Document Nat Unit) where
  documentLinks := [0]
  documents := some (AList.singleton 0 ⟨0, version, ()⟩)
  documentCount := some 1

theorem broadcast_merge_of_two :
    MergesLinks [oneDocument 3, oneDocument 5] true ∧
      ChoosesLatest [oneDocument 3, oneDocument 5] true ⟨2, 2⟩
        fun link => some ⟨⟨link, 0, ()⟩, rfl⟩ := by
  apply (broadcast_merge_iff _ _ _ _ (by decide) (by simp [oneDocument]) (by simp)).mpr
  intro link _
  apply keepsHighest_of_lt
  intro c hc
  have hmem := (List.mem_filter.mp hc).1
  simp only [values, oneDocument, List.flatMap_cons, List.flatMap_nil, Option.elim_some,
    AList.singleton_entries, List.map_cons, List.map_nil, List.cons_append, List.nil_append,
    List.mem_cons, List.not_mem_nil, or_false] at hmem
  rcases hmem with rfl | rfl <;> decide

/-- Of the versions 2^32 and 1 the first is compared as 0. -/
theorem lower_version_chosen :
    ¬(MergesLinks [oneDocument (2 ^ 32), oneDocument 1] true ∧
      ChoosesLatest [oneDocument (2 ^ 32), oneDocument 1] true ⟨2, 2⟩
        fun link => some ⟨⟨link, 0, ()⟩, rfl⟩) := by
  rintro ⟨-, result, hresult, hlatest⟩
  obtain ⟨d, -, hd, hhighest⟩ := hlatest 0 (by decide)
  have hlow := hhighest ⟨0, 2 ^ 32, ()⟩ (by simp [copies, values, oneDocument])
  have hone : result.document 0 = some ⟨0, 1, ()⟩ := by
    obtain rfl := Except.ok.inj hresult
    decide
  rw [Option.some.inj (hd.symm.trans hone)] at hlow
  exact absurd hlow (by decide)

end Xenon.QueryTask.ReadAfterWrite

import Mathlib.Data.List.AList
import Mathlib.Data.List.Sort
import Xenon.Common.Operation
import Xenon.Index.Pagination

/-!
# Migration of all versions

With `ALL_VERSIONS` the migration task asks the source for the versions of each document, in their
order, and repeats them at the destination as a POST and the updates that follow. The query that
finds the versions has the retention limit as its result limit, and the task takes its first page
only. The index may hold more versions than that: the newest are then left behind.
-/

namespace Xenon.Migration

open Xenon.Common Xenon.Foundation Xenon.Index.Pages
open Xenon.QueryTask (Failure)

/-- A version in the index. -/
structure Version (β : Type) where
  documentVersion : Nat
  documentUpdateAction : Action
  documentExpirationTimeMicros : Int
  body : β
deriving DecidableEq

/-- A document of the source: its id under the factory, the limit in its template, and the versions
that the index holds. -/
structure SourceDocument (β : Type) where
  id : String
  versionRetentionLimit : Int
  versions : List (Version β)
  distinct : (versions.map (·.documentVersion)).Nodup

/-- A version as it is retrieved. -/
structure Document (β : Type) where
  documentSelfLink : String
  state : Version β
deriving DecidableEq

/-- What is sent to the destination, to the factory or to the service. -/
structure Request (β : Type) where
  action : Action
  toFactory : Bool
  body : Option (Document β)
  /-- `PRAGMA_DIRECTIVE_FORCE_INDEX_UPDATE`. -/
  forceIndexUpdate : Bool
  /-- `REPLICATION_QUORUM_HEADER_VALUE_ALL`. -/
  quorumAll : Bool
deriving DecidableEq

/-- What the task runs with: its factory, the clock of the source, and its limit on hits. -/
structure Task where
  sourceFactoryLink : String
  now : Int
  queryPageResultLimit : Nat

/-- The documents on a page of the task's query. -/
structure ResultPage (β : Type) where
  documents : List (SourceDocument β)
  distinct : (documents.map (·.id)).Nodup

/-- The order in which a hash map enumerates its entries. -/
structure Enumeration (α : Type) where
  order : List α → List α
  perm : ∀ l, (order l).Perm l

variable {β : Type}

/-! ## `retrieveAllVersions` -/

/-- `extractId`, for a factory link without characters that a regular expression reads otherwise. -/
def extractId (factoryPath selfLink : String) : String :=
  if factoryPath.toList.isPrefixOf selfLink.toList then
    String.ofList (selfLink.toList.drop factoryPath.toList.length)
  else selfLink

/-- The query leaves out what has expired. -/
def isExpired (now : Int) (v : Version β) : Bool :=
  1 ≤ v.documentExpirationTimeMicros ∧ v.documentExpirationTimeMicros ≤ now

/-- `orderAscending(FIELD_NAME_VERSION)`. -/
def ascending (versions : List (Version β)) : List (Version β) :=
  versions.insertionSort fun a b => a.documentVersion ≤ b.documentVersion

/-- What the query finds. -/
def found (now : Int) (d : SourceDocument β) : List (Version β) :=
  ascending (d.versions.filter fun v => !isExpired now v)

def toHit (selfLink : String) (v : Version β) : Hit :=
  ⟨selfLink, v.documentVersion, v.documentUpdateAction = .delete, true⟩

/-- `Long.intValue` of the limit in the template. -/
def resultLimit (d : SourceDocument β) : Int := int d.versionRetentionLimit

/-- A query for all versions with a result limit. -/
def allVersionsQuery (resultLimit : Int) (queryPageResultLimit : Nat) : Spec where
  includeAllVersions := true
  includeDeleted := false
  ownerSelection := false
  latestVersion _ := 0
  count := resultLimit.toNat
  queryPageResultLimit := queryPageResultLimit

/-- The versions of a document on the first page of its query. There is no page if nothing is
found, or if the limit is `Integer.MAX_VALUE`, which is none. -/
def retrieveVersions (task : Task) (d : SourceDocument β) : Except Failure (List (Document β)) := do
  let selfLink := task.sourceFactoryLink ++ d.id
  let q := allVersionsQuery (resultLimit d) task.queryPageResultLimit
  let versions := found task.now d
  if resultLimit d = 2 ^ 31 - 1 ∨ versions = [] then throw .nullPointer
  let page ← q.queryPage (versions.map (toHit selfLink)) none 0
  return page.links.filterMap fun link =>
    (versions.find? fun v => q.key (toHit selfLink v) = link).map fun v => ⟨selfLink, v⟩

/-- All of them, if none fails. -/
def retrieveAllVersions (task : Task) (results : List (SourceDocument β)) :
    Except Failure (List (Document β)) :=
  match results with
  | [] => .ok []
  | d :: results => do
      let docs ← retrieveVersions task d
      let rest ← retrieveAllVersions task results
      return docs ++ rest

/-! ## `migrateEntitiesForAllVersions` -/

/-- `TreeSet.add`, by the version. -/
def treeAdd (d : Document β) : List (Document β) → List (Document β)
  | [] => [d]
  | e :: docs =>
      if d.state.documentVersion < e.state.documentVersion then d :: e :: docs
      else if d.state.documentVersion = e.state.documentVersion then e :: docs
      else e :: treeAdd d docs

def addBySelfLink (docsBySelfLink : AList fun _ : String => List (Document β)) (d : Document β) :
    AList fun _ : String => List (Document β) :=
  docsBySelfLink.insert d.documentSelfLink
    (treeAdd d ((docsBySelfLink.lookup d.documentSelfLink).getD []))

def isSupported (a : Action) : Bool :=
  a = .put ∨ a = .patch ∨ a = .delete ∨ a = .post

/-- The request for a version that is not the first one. -/
def createMigrateOp (d : Document β) : Request β :=
  match d.state.documentUpdateAction with
  | .delete => ⟨.delete, false, none, false, true⟩
  | .post => ⟨.post, true, some d, true, false⟩
  | action => ⟨action, false, some d, false, false⟩

def createMigrateOpsWithAllVersions : List (Document β) → List (Request β)
  | [] => []
  | firstDoc :: docs => ⟨.post, true, some firstDoc, true, false⟩ :: docs.map createMigrateOp

/-- The requests for each document, by its link. -/
def migrateEntitiesForAllVersions (json : List (Document β)) :
    Except Failure (AList fun _ : String => List (Document β)) :=
  if json.all fun d => isSupported d.state.documentUpdateAction then
    .ok (json.foldl addBySelfLink ∅)
  else .error (.illegalArgument "action is not supported for ALL_VERSIONS migration")

/-- From a page of results to the requests for each link, while the destination accepts them. -/
def migrateAllVersions [DecidableEq β] (task : Task) (entries : Enumeration (Document β))
    (page : ResultPage β) : Except Failure (String → List (Request β)) := do
  let results ← retrieveAllVersions task page.documents
  let cleanJson := results.map fun d =>
    { d with documentSelfLink := extractId task.sourceFactoryLink d.documentSelfLink }
  -- `Collectors.toMap` refuses a key that it has
  if ¬cleanJson.Nodup then throw (.illegalArgument "Duplicate key")
  let docsBySelfLink ← migrateEntitiesForAllVersions (entries.order cleanJson)
  return fun link => createMigrateOpsWithAllVersions ((docsBySelfLink.lookup link).getD [])

/-! ## The first page -/

section FirstPage

/-- All versions are results, so a page has the first ones. -/
theorem queryPage_allVersions {q : Spec} (hall : q.includeAllVersions = true)
    (howner : q.ownerSelection = false) {hits : List Hit} (hdistinct : (hits.map q.key).Nodup)
    (hne : hits ≠ []) (hpos : 0 < q.count) (hlt : q.count < 2 ^ 31) :
    ∃ page, q.queryPage hits none 0 = .ok page ∧ page.links = (hits.take q.count).map q.key := by
  have hcurrent : ∀ h, q.isCurrent h = true := fun h => by
    simp [Spec.isCurrent, hall]
  have hpasses : ∀ h, q.passes true h = true := fun h => by
    simp [Spec.passes, Spec.isIncluded, Spec.isValid, Spec.isCurrent, hall, howner]
  have hfilter : ∀ l : List Hit, l.filter (q.passes true) = l := fun l =>
    List.filter_eq_self.mpr fun h _ => hpasses h
  have hd : q.Distinct hits := by
    unfold Spec.Distinct
    rwa [List.filter_eq_self.mpr fun h _ => hcurrent h]
  have hcount : (0 : Int) < q.count := by omega
  have hint : int ((q.count : Int) + (0 : Nat)) = q.count := by
    rw [Spec.int_eq] <;> omega
  have hfound : hits.take q.count ≠ [] := by
    rw [Ne, List.take_eq_nil_iff, not_or]
    exact ⟨hpos.ne', hne⟩
  have hprocess := Spec.processQueryResults_eq (q := q) true q.count (hits.take q.count) []
    (by simp [Spec.Apart]) (Spec.distinct_take hd none _)
  have hmore : q.count ≤ ((hits.take q.count).map q.key).length ∨
      ((hits.take q.count).length : Int) < q.count := by
    rw [List.length_map]
    omega
  rw [hfilter, List.nil_append, List.length_nil, Nat.sub_zero, List.take_take, min_self] at hprocess
  have hsearch : searchAfter hits none (q.count : Int) = .ok (hits.take q.count) := by
    rw [Spec.searchAfter_eq hcount, Int.toNat_natCast]
    rfl
  unfold Spec.queryPage Spec.hitCount
  rw [hall, if_pos rfl, Spec.pageLoop, hsearch]
  simp only [bind, Except.bind, hprocess, Spec.skip_eq, Nat.zero_sub, List.drop_zero, if_neg hfound]
  rw [if_pos (by exact_mod_cast hmore), hint]
  cases hbottom : bottom none (countUntil (q.passes true) q.count (hits.take q.count)) with
  | none => exact ⟨_, rfl, rfl⟩
  | some n =>
      rw [Spec.checkNextPageHasEntry_eq hd hcount _ _
        (Nat.lt_succ_of_le (Spec.remaining_sublist hits _).length_le)]
      exact ⟨_, rfl, rfl⟩

end FirstPage

/-! ## What is retrieved -/

section Retrieved

variable {task : Task} {d : SourceDocument β}

theorem toString_injective {m n : Nat} (h : toString (m : Int) = toString (n : Int)) : m = n := by
  have htext : Nat.toDigits 10 m = Nat.toDigits 10 n := by
    rw [← Nat.toList_repr, ← Nat.toList_repr]
    exact congrArg String.toList h
  rw [← Nat.ofDigitChars_ten_toDigits (n := m), htext, Nat.ofDigitChars_ten_toDigits]

theorem key_injective {selfLink : String} {limit : Int} {pageLimit : Nat} {v w : Version β}
    (h : (allVersionsQuery limit pageLimit).key (toHit selfLink v) =
      (allVersionsQuery limit pageLimit).key (toHit selfLink w)) :
    v.documentVersion = w.documentVersion := by
  have htext : (selfLink ++ "?documentVersion=" ++ toString (v.documentVersion : Int)).toList =
      (selfLink ++ "?documentVersion=" ++ toString (w.documentVersion : Int)).toList :=
    congrArg String.toList h
  rw [String.toList_append, String.toList_append (t := toString (w.documentVersion : Int))] at htext
  exact toString_injective (String.toList_inj.mp (List.append_cancel_left htext))

/-- The versions ascend, and none is there twice. -/
theorem pairwise_ascending {versions : List (Version β)}
    (h : (versions.map (·.documentVersion)).Nodup) :
    (ascending versions).Pairwise fun v w => v.documentVersion < w.documentVersion := by
  have hsorted : (ascending versions).Pairwise fun v w => v.documentVersion ≤ w.documentVersion :=
    List.pairwise_insertionSort _ versions
  have hnodup : ((ascending versions).map (·.documentVersion)).Nodup :=
    ((List.perm_insertionSort _ versions).map _).nodup_iff.mpr h
  rw [List.Nodup, List.pairwise_map] at hnodup
  exact (hsorted.and hnodup).imp fun hboth => lt_of_le_of_ne hboth.1 hboth.2

theorem pairwise_found (now : Int) (d : SourceDocument β) :
    (found now d).Pairwise fun v w => v.documentVersion < w.documentVersion :=
  pairwise_ascending (d.distinct.sublist (List.filter_sublist.map _))

/-- What the task retrieves of a document, under its id. -/
def retrieved (task : Task) (d : SourceDocument β) (link : String) : List (Document β) :=
  ((found task.now d).take (resultLimit d).toNat).map fun v => ⟨link, v⟩

/-- The query has a first page. -/
def Retrievable (task : Task) (d : SourceDocument β) : Prop :=
  0 < resultLimit d ∧ resultLimit d ≠ 2 ^ 31 - 1 ∧ found task.now d ≠ []

theorem resultLimit_lt (d : SourceDocument β) : resultLimit d < 2 ^ 31 := by
  unfold resultLimit int
  rw [Int.bmod_def]
  split_ifs <;> omega

theorem nodup_keys (selfLink : String) (limit : Int) (pageLimit : Nat) (now : Int)
    (d : SourceDocument β) :
    (((found now d).map (toHit selfLink)).map (allVersionsQuery limit pageLimit).key).Nodup := by
  rw [List.map_map, List.Nodup, List.pairwise_map]
  exact (pairwise_found now d).imp fun hlt heq => hlt.ne (key_injective heq)

theorem retrieveVersions_eq (h : Retrievable task d) :
    retrieveVersions task d = .ok (retrieved task d (task.sourceFactoryLink ++ d.id)) := by
  obtain ⟨hpos, hmax, hfound⟩ := h
  have hlt := resultLimit_lt d
  obtain ⟨page, hpage, hlinks⟩ := queryPage_allVersions
    (q := allVersionsQuery (resultLimit d) task.queryPageResultLimit) rfl rfl
    (nodup_keys (task.sourceFactoryLink ++ d.id) _ _ task.now d)
    (by rwa [Ne, List.map_eq_nil_iff]) (show 0 < (resultLimit d).toNat by omega)
    (show (resultLimit d).toNat < 2 ^ 31 by omega)
  have hkeys := nodup_keys (task.sourceFactoryLink ++ d.id) (resultLimit d)
    task.queryPageResultLimit task.now d
  unfold retrieveVersions
  dsimp only
  rw [if_neg (not_or.mpr ⟨hmax, hfound⟩), hpage]
  show Except.ok (page.links.filterMap _) = _
  rw [hlinks]
  congr 1
  rw [← List.map_take, List.map_map, List.filterMap_map]
  unfold retrieved
  rw [← List.filterMap_eq_map]
  apply List.filterMap_congr
  intro v hv
  have hmem : v ∈ found task.now d := List.mem_of_mem_take hv
  rw [List.map_map] at hkeys
  -- the key of a version finds the version
  have hfind : ((found task.now d).find? fun w => decide
      ((allVersionsQuery (resultLimit d) task.queryPageResultLimit).key
        (toHit (task.sourceFactoryLink ++ d.id) w) =
          (allVersionsQuery (resultLimit d) task.queryPageResultLimit).key
            (toHit (task.sourceFactoryLink ++ d.id) v))) = some v := by
    cases hsome : (found task.now d).find? _ with
    | none => exact absurd (decide_eq_true rfl) (List.find?_eq_none.mp hsome v hmem)
    | some w =>
        have hw := List.find?_some hsome
        rw [decide_eq_true_iff] at hw
        exact congrArg some
          (List.inj_on_of_nodup_map hkeys (List.mem_of_find?_eq_some hsome) hmem hw)
  show Option.map _ ((found task.now d).find? _) = _
  rw [Function.comp_apply, hfind]
  rfl

theorem retrievable_of_ok {docs : List (Document β)} (h : retrieveVersions task d = .ok docs) :
    Retrievable task d := by
  unfold retrieveVersions at h
  dsimp only at h
  split_ifs at h with hnone
  · cases h
  · rw [not_or] at hnone
    refine ⟨?_, hnone.1, hnone.2⟩
    by_contra hpos
    have hzero : (resultLimit d).toNat = 0 := Int.toNat_of_nonpos (not_lt.mp hpos)
    obtain ⟨page, hpage, -⟩ := bind_eq_ok.mp h
    -- a search for no hits is refused
    obtain ⟨hits, hsearch, -⟩ := bind_eq_ok.mp hpage
    rw [searchAfter, if_pos] at hsearch
    · cases hsearch
    · show (((resultLimit d).toNat : Nat) : Int) ≤ 0
      omega

theorem retrieveAllVersions_eq_ok {results : List (SourceDocument β)}
    {docs : List (Document β)} : retrieveAllVersions task results = .ok docs ↔
      (∀ d ∈ results, Retrievable task d) ∧
        docs = results.flatMap fun d => retrieved task d (task.sourceFactoryLink ++ d.id) := by
  induction results generalizing docs with
  | nil =>
      constructor
      · intro h
        exact ⟨List.forall_mem_nil _, (Except.ok.inj h).symm⟩
      · rintro ⟨-, rfl⟩
        rfl
  | cons d results ih =>
      rw [retrieveAllVersions, bind_eq_ok, List.forall_mem_cons, List.flatMap_cons]
      constructor
      · rintro ⟨first, hfirst, h⟩
        obtain ⟨rest, hrest, h⟩ := bind_eq_ok.mp h
        obtain rfl := Except.ok.inj h
        have hd := retrievable_of_ok hfirst
        obtain ⟨hall, rfl⟩ := ih.mp hrest
        obtain rfl := Except.ok.inj (hfirst.symm.trans (retrieveVersions_eq hd))
        exact ⟨⟨hd, hall⟩, rfl⟩
      · rintro ⟨⟨hd, hall⟩, rfl⟩
        exact ⟨_, retrieveVersions_eq hd, bind_eq_ok.mpr ⟨_, ih.mpr ⟨hall, rfl⟩, rfl⟩⟩

theorem extractId_append (factoryPath id : String) :
    extractId factoryPath (factoryPath ++ id) = id := by
  unfold extractId
  rw [String.toList_append, if_pos (by simp), List.drop_left, String.ofList_toList]

/-- The retrieved documents, under their ids. -/
theorem map_extractId (results : List (SourceDocument β)) :
    ((results.flatMap fun d => retrieved task d (task.sourceFactoryLink ++ d.id)).map fun d =>
      { d with documentSelfLink := extractId task.sourceFactoryLink d.documentSelfLink }) =
        results.flatMap fun d => retrieved task d d.id := by
  rw [List.map_flatMap]
  apply List.flatMap_congr
  intro d _
  unfold retrieved
  rw [List.map_map]
  apply List.map_congr_left
  intro v _
  simp only [Function.comp_apply, extractId_append]

theorem pairwise_retrieved (task : Task) (d : SourceDocument β) (link : String) :
    (retrieved task d link).Pairwise fun a b =>
      a.state.documentVersion < b.state.documentVersion :=
  List.pairwise_map.mpr ((pairwise_found task.now d).sublist (List.take_sublist _ _))

theorem documentSelfLink_of_mem {link : String} {a : Document β} (h : a ∈ retrieved task d link) :
    a.documentSelfLink = link := by
  obtain ⟨v, -, rfl⟩ := List.mem_map.mp h
  rfl

theorem nodup_retrieved {results : List (SourceDocument β)}
    (h : (results.map (·.id)).Nodup) : (results.flatMap fun d => retrieved task d d.id).Nodup := by
  apply List.nodup_flatMap.mpr
  constructor
  · intro d _
    apply (pairwise_retrieved task d d.id).imp
    rintro a b hlt rfl
    exact lt_irrefl _ hlt
  · apply (List.pairwise_map.mp h).imp
    intro d e hne a ha ha'
    exact hne ((documentSelfLink_of_mem ha).symm.trans (documentSelfLink_of_mem ha'))

/-- The documents of one id. -/
theorem filter_retrieved {results : List (SourceDocument β)} (h : (results.map (·.id)).Nodup)
    (hd : d ∈ results) :
    (results.flatMap fun d => retrieved task d d.id).filter (fun a => a.documentSelfLink = d.id) =
      retrieved task d d.id := by
  have hother : ∀ l : List (SourceDocument β), d.id ∉ l.map (·.id) →
      (l.flatMap fun d => retrieved task d d.id).filter (fun a => a.documentSelfLink = d.id) =
        [] := by
    intro l hl
    apply List.filter_eq_nil_iff.mpr
    intro a ha heq
    obtain ⟨e, he, hmem⟩ := List.mem_flatMap.mp ha
    rw [decide_eq_true_iff, documentSelfLink_of_mem hmem] at heq
    exact hl (List.mem_map.mpr ⟨e, he, heq⟩)
  obtain ⟨before, after, rfl⟩ := List.append_of_mem hd
  rw [List.map_append, List.map_cons, List.nodup_append, List.nodup_cons] at h
  obtain ⟨-, ⟨hafter, -⟩, hbefore⟩ := h
  have hbefore' : d.id ∉ before.map (·.id) := fun hmem =>
    hbefore _ hmem _ (List.mem_cons_self ..) rfl
  rw [List.flatMap_append, List.flatMap_cons, List.filter_append, List.filter_append,
    hother before hbefore', hother after hafter, List.append_nil, List.nil_append]
  apply List.filter_eq_self.mpr
  intro a ha
  exact decide_eq_true (documentSelfLink_of_mem ha)

end Retrieved

/-! ## What is sent -/

section Sent

theorem perm_treeAdd {d : Document β} {docs : List (Document β)}
    (h : ∀ e ∈ docs, e.state.documentVersion ≠ d.state.documentVersion) :
    (treeAdd d docs).Perm (d :: docs) := by
  induction docs with
  | nil => exact List.Perm.refl _
  | cons e docs ih =>
      rw [List.forall_mem_cons] at h
      unfold treeAdd
      rw [if_neg (Ne.symm h.1)]
      split_ifs
      · exact List.Perm.refl _
      · exact ((ih h.2).cons e).trans (List.Perm.swap d e docs)

theorem pairwise_treeAdd (d : Document β) {docs : List (Document β)}
    (h : docs.Pairwise fun a b => a.state.documentVersion < b.state.documentVersion) :
    (treeAdd d docs).Pairwise fun a b => a.state.documentVersion < b.state.documentVersion := by
  have hmem : ∀ (l : List (Document β)) a, a ∈ treeAdd d l → a = d ∨ a ∈ l := by
    intro l
    induction l with
    | nil => simp [treeAdd]
    | cons e l ih =>
        intro a ha
        unfold treeAdd at ha
        split_ifs at ha
        · exact List.mem_cons.mp ha
        · exact Or.inr ha
        · rcases List.mem_cons.mp ha with rfl | ha
          · exact Or.inr (List.mem_cons_self ..)
          · exact (ih a ha).imp id (List.mem_cons_of_mem _)
  induction docs with
  | nil => exact List.pairwise_singleton _ _
  | cons e docs ih =>
      have hrest := (List.pairwise_cons.mp h).2
      have hfirst := (List.pairwise_cons.mp h).1
      unfold treeAdd
      split_ifs with hlt heq
      · apply List.pairwise_cons.mpr
        refine ⟨fun a ha => ?_, h⟩
        rcases List.mem_cons.mp ha with rfl | ha
        · exact hlt
        · exact hlt.trans (hfirst a ha)
      · exact h
      · apply List.pairwise_cons.mpr
        refine ⟨fun a ha => ?_, ih hrest⟩
        rcases hmem docs a ha with rfl | ha
        · omega
        · exact hfirst a ha

/-- Documents of different versions, added in any order, are in the order of their versions. -/
theorem tree_eq {docs sorted : List (Document β)} (hperm : docs.Perm sorted)
    (hsorted : sorted.Pairwise fun a b => a.state.documentVersion < b.state.documentVersion) :
    docs.foldl (fun tree d => treeAdd d tree) [] = sorted := by
  have htree : ∀ l : List (Document β), (l.map (·.state.documentVersion)).Nodup →
      (l.foldl (fun tree d => treeAdd d tree) []).Perm l ∧
        (l.foldl (fun tree d => treeAdd d tree) []).Pairwise fun a b =>
          a.state.documentVersion < b.state.documentVersion := by
    intro l
    induction l using List.reverseRecOn with
    | nil => exact fun _ => ⟨List.Perm.refl _, List.Pairwise.nil⟩
    | append_singleton l d ih =>
        intro hnodup
        rw [List.map_append, List.nodup_append] at hnodup
        obtain ⟨hl, -, hnew⟩ := hnodup
        obtain ⟨hperm, hpairwise⟩ := ih hl
        rw [List.foldl_append]
        refine ⟨?_, pairwise_treeAdd d hpairwise⟩
        have hadd := perm_treeAdd fun e he =>
          hnew _ (List.mem_map_of_mem (hperm.mem_iff.mp he)) d.state.documentVersion (by simp)
        exact (hadd.trans (hperm.cons d)).trans (List.perm_append_singleton d l).symm
  have hnodup : (sorted.map (·.state.documentVersion)).Nodup :=
    List.pairwise_map.mpr (hsorted.imp fun hlt => hlt.ne)
  obtain ⟨htreePerm, htreeSorted⟩ := htree docs ((hperm.map _).nodup_iff.mpr hnodup)
  apply (htreePerm.trans hperm).eq_of_pairwise _ htreeSorted hsorted
  intro a b _ _ hab hba
  exact absurd (hab.trans hba) (lt_irrefl _)

/-- The set of each link has the documents of the link. -/
theorem lookup_addBySelfLink (json : List (Document β)) (link : String) :
    ((json.foldl addBySelfLink ∅).lookup link).getD [] =
      (json.filter fun d => d.documentSelfLink = link).foldl (fun tree d => treeAdd d tree) [] := by
  induction json using List.reverseRecOn with
  | nil => rfl
  | append_singleton json d ih =>
      rw [List.foldl_append, List.foldl_cons, List.foldl_nil, addBySelfLink, List.filter_append,
        List.foldl_append, ← ih]
      by_cases hlink : d.documentSelfLink = link
      · subst hlink
        rw [AList.lookup_insert]
        simp
      · rw [AList.lookup_insert_ne (Ne.symm hlink)]
        simp [hlink]

theorem length_createMigrateOps (docs : List (Document β)) :
    (createMigrateOpsWithAllVersions docs).length = docs.length := by
  cases docs with
  | nil => rfl
  | cons d docs => simp [createMigrateOpsWithAllVersions]

end Sent

/-- All versions of a document, in their order. -/
def history (d : SourceDocument β) : List (Document β) :=
  (ascending d.versions).map fun v => ⟨d.id, v⟩

/-- Of each document every version is sent, once and in the order of the versions. -/
def MigratesAllVersions [DecidableEq β] (task : Task) (entries : Enumeration (Document β))
    (page : ResultPage β) : Prop :=
  ∃ requests, migrateAllVersions task entries page = .ok requests ∧
    ∀ d ∈ page.documents, requests d.id = createMigrateOpsWithAllVersions (history d)

/-- The first page of the query has room for all versions, none of them has expired by itself, and
each can be repeated. -/
structure FitsOnPage (task : Task) (d : SourceDocument β) : Prop where
  nonempty : d.versions ≠ []
  room : (d.versions.length : Int) ≤ resultLimit d
  limited : resultLimit d ≠ 2 ^ 31 - 1
  unexpired : ∀ v ∈ d.versions, isExpired task.now v = false
  supported : ∀ v ∈ d.versions, isSupported v.documentUpdateAction = true

section Page

variable {task : Task} {d : SourceDocument β}

/-- Everything is retrieved just when nothing has expired and the page has room. -/
theorem retrieved_eq_history_iff : (retrieved task d d.id).length = d.versions.length ↔
    (∀ v ∈ d.versions, isExpired task.now v = false) ∧
      d.versions.length ≤ (resultLimit d).toNat := by
  have hlength : (retrieved task d d.id).length = min (resultLimit d).toNat
      (d.versions.filter fun v => !isExpired task.now v).length := by
    rw [retrieved, List.length_map, List.length_take, found, ascending, List.length_insertionSort]
  have hle := List.length_filter_le (fun v => !isExpired task.now v) d.versions
  have hall : (d.versions.filter fun v => !isExpired task.now v).length = d.versions.length ↔
      ∀ v ∈ d.versions, isExpired task.now v = false := by
    rw [List.length_filter_eq_length_iff]
    simp
  rw [hlength, ← hall]
  omega

theorem retrieved_eq_history (hunexpired : ∀ v ∈ d.versions, isExpired task.now v = false)
    (hroom : d.versions.length ≤ (resultLimit d).toNat) :
    retrieved task d d.id = history d := by
  have hfilter : (d.versions.filter fun v => !isExpired task.now v) = d.versions := by
    apply List.filter_eq_self.mpr
    intro v hv
    rw [hunexpired v hv]
    rfl
  unfold retrieved history found
  rw [hfilter, List.take_of_length_le]
  rw [ascending, List.length_insertionSort]
  exact hroom

/-- The requests for a document on the page. -/
theorem migrateAllVersions_eq_ok [DecidableEq β] (entries : Enumeration (Document β))
    (page : ResultPage β) {requests : String → List (Request β)} :
    migrateAllVersions task entries page = .ok requests →
      (∀ d ∈ page.documents, Retrievable task d) ∧
      (∀ d ∈ page.documents, ∀ a ∈ retrieved task d d.id,
        isSupported a.state.documentUpdateAction = true) ∧
      ∀ d ∈ page.documents,
        requests d.id = createMigrateOpsWithAllVersions (retrieved task d d.id) := by
  intro h
  obtain ⟨results, hresults, h⟩ := bind_eq_ok.mp h
  obtain ⟨hretrievable, rfl⟩ := retrieveAllVersions_eq_ok.mp hresults
  dsimp only at h
  rw [map_extractId, if_neg (not_not.mpr (nodup_retrieved page.distinct))] at h
  obtain ⟨docsBySelfLink, hdocs, h⟩ := bind_eq_ok.mp h
  obtain rfl := Except.ok.inj h
  unfold migrateEntitiesForAllVersions at hdocs
  split_ifs at hdocs with hsupported
  obtain rfl := Except.ok.inj hdocs
  have hperm := entries.perm (page.documents.flatMap fun d => retrieved task d d.id)
  refine ⟨hretrievable, fun d hd a ha => ?_, fun d hd => ?_⟩
  · apply List.all_eq_true.mp hsupported
    exact hperm.mem_iff.mpr (List.mem_flatMap.mpr ⟨d, hd, ha⟩)
  · dsimp only
    rw [lookup_addBySelfLink, tree_eq _ (pairwise_retrieved task d d.id)]
    rw [← filter_retrieved page.distinct hd]
    exact hperm.filter _

theorem exists_migrateAllVersions [DecidableEq β] (entries : Enumeration (Document β))
    (page : ResultPage β) (hretrievable : ∀ d ∈ page.documents, Retrievable task d)
    (hsupported : ∀ d ∈ page.documents, ∀ a ∈ retrieved task d d.id,
      isSupported a.state.documentUpdateAction = true) :
    ∃ requests, migrateAllVersions task entries page = .ok requests := by
  have hperm := entries.perm (page.documents.flatMap fun d => retrieved task d d.id)
  have hall : (entries.order (page.documents.flatMap fun d => retrieved task d d.id)).all
      (fun d => isSupported d.state.documentUpdateAction) = true := by
    apply List.all_eq_true.mpr
    intro a ha
    obtain ⟨d, hd, hmem⟩ := List.mem_flatMap.mp (hperm.mem_iff.mp ha)
    exact hsupported d hd a hmem
  have hjson : migrateEntitiesForAllVersions
      (entries.order (page.documents.flatMap fun d => retrieved task d d.id)) =
        .ok ((entries.order (page.documents.flatMap fun d => retrieved task d d.id)).foldl
          addBySelfLink ∅) := by
    unfold migrateEntitiesForAllVersions
    rw [if_pos hall]
  refine ⟨fun link => createMigrateOpsWithAllVersions
    ((((entries.order (page.documents.flatMap fun d => retrieved task d d.id)).foldl
      addBySelfLink ∅).lookup link).getD []), ?_⟩
  apply bind_eq_ok.mpr
  refine ⟨_, retrieveAllVersions_eq_ok.mpr ⟨hretrievable, rfl⟩, ?_⟩
  dsimp only
  rw [map_extractId, if_neg (not_not.mpr (nodup_retrieved page.distinct))]
  apply bind_eq_ok.mpr
  exact ⟨_, hjson, rfl⟩

end Page

/-- The migration sends every version of the documents on a page just when each has its versions
on the first page of its query. -/
theorem migrates_all_versions_iff [DecidableEq β] (task : Task) (entries : Enumeration (Document β))
    (page : ResultPage β) :
    MigratesAllVersions task entries page ↔ ∀ d ∈ page.documents, FitsOnPage task d := by
  constructor
  · rintro ⟨requests, hrequests, hsent⟩ d hd
    obtain ⟨hretrievable, hsupported, hall⟩ := migrateAllVersions_eq_ok entries page hrequests
    obtain ⟨hpos, hmax, hfound⟩ := hretrievable d hd
    have hlength : (retrieved task d d.id).length = d.versions.length := by
      rw [← length_createMigrateOps, ← hall d hd, hsent d hd, length_createMigrateOps, history,
        List.length_map, ascending, List.length_insertionSort]
    obtain ⟨hunexpired, hroom⟩ := retrieved_eq_history_iff.mp hlength
    refine ⟨?_, by omega, hmax, hunexpired, fun v hv => ?_⟩
    · intro hnil
      apply hfound
      rw [found, hnil]
      rfl
    · have hmem : (⟨d.id, v⟩ : Document β) ∈ retrieved task d d.id := by
        rw [retrieved_eq_history hunexpired hroom]
        exact List.mem_map.mpr ⟨v, (List.mem_insertionSort _).mpr hv, rfl⟩
      exact hsupported d hd _ hmem
  · intro hfits
    have heq : ∀ d ∈ page.documents, retrieved task d d.id = history d := fun d hd =>
      retrieved_eq_history (hfits d hd).unexpired (by have := (hfits d hd).room; omega)
    have hretrievable : ∀ d ∈ page.documents, Retrievable task d := by
      intro d hd
      have hpos := List.length_pos_iff.mpr (hfits d hd).nonempty
      have hroom := (hfits d hd).room
      refine ⟨by omega, (hfits d hd).limited, fun hnil => ?_⟩
      have hempty : (retrieved task d d.id).length = 0 := by
        rw [retrieved, hnil, List.take_nil]
        rfl
      rw [heq d hd, history, List.length_map, ascending, List.length_insertionSort] at hempty
      omega
    have hsupported : ∀ d ∈ page.documents, ∀ a ∈ retrieved task d d.id,
        isSupported a.state.documentUpdateAction = true := by
      intro d hd a ha
      rw [heq d hd] at ha
      obtain ⟨v, hv, rfl⟩ := List.mem_map.mp ha
      exact (hfits d hd).supported v ((List.mem_insertionSort _).mp hv)
    obtain ⟨requests, hrequests⟩ := exists_migrateAllVersions entries page hretrievable hsupported
    refine ⟨requests, hrequests, fun d hd => ?_⟩
    rw [(migrateAllVersions_eq_ok entries page hrequests).2.2 d hd, heq d hd]

section Left

/-- A document that keeps two versions, after two updates. -/
def updatedTwice : SourceDocument Nat where
  id := "/a"
  versionRetentionLimit := 2
  versions := [⟨0, .post, 0, 10⟩, ⟨1, .put, 0, 11⟩, ⟨2, .put, 0, 12⟩]
  distinct := by decide

def migration : Task := ⟨"/examples", 1000, 10000⟩

/-- Before the index removes the first version, the query for the document leaves the newest one. -/
theorem newest_version_left : ∃ requests,
    migrateAllVersions migration ⟨id, fun l => List.Perm.refl l⟩ ⟨[updatedTwice], by decide⟩ =
      .ok requests ∧
    requests "/a" = [⟨.post, true, some ⟨"/a", ⟨0, .post, 0, 10⟩⟩, true, false⟩,
      ⟨.put, false, some ⟨"/a", ⟨1, .put, 0, 11⟩⟩, false, false⟩] ∧
    ¬MigratesAllVersions migration ⟨id, fun l => List.Perm.refl l⟩ ⟨[updatedTwice], by decide⟩ := by
  have hfound : found migration.now updatedTwice = updatedTwice.versions := by decide
  have hretrieved : retrieved migration updatedTwice "/a" =
      [⟨"/a", ⟨0, .post, 0, 10⟩⟩, ⟨"/a", ⟨1, .put, 0, 11⟩⟩] := by
    rw [retrieved, hfound]
    rfl
  have hretrievable : Retrievable migration updatedTwice := by
    refine ⟨by decide, by decide, ?_⟩
    rw [hfound]
    exact List.cons_ne_nil _ _
  have hsupported : ∀ a ∈ retrieved migration updatedTwice "/a",
      isSupported a.state.documentUpdateAction = true := by
    rw [hretrieved]
    decide
  obtain ⟨requests, hrequests⟩ := exists_migrateAllVersions ⟨id, fun l => List.Perm.refl l⟩
    ⟨[updatedTwice], by decide⟩ (List.forall_mem_singleton.mpr hretrievable)
    (List.forall_mem_singleton.mpr hsupported)
  have hsent : requests "/a" =
      createMigrateOpsWithAllVersions (retrieved migration updatedTwice "/a") :=
    (migrateAllVersions_eq_ok _ _ hrequests).2.2 updatedTwice (List.mem_singleton_self _)
  refine ⟨requests, hrequests, ?_, ?_⟩
  · rw [hsent, hretrieved]
    rfl
  · rintro ⟨requests', hrequests', hall⟩
    obtain rfl := Except.ok.inj (hrequests.symm.trans hrequests')
    have hlength := congrArg List.length
      (hsent.symm.trans (hall updatedTwice (List.mem_singleton_self _)))
    rw [length_createMigrateOps, length_createMigrateOps, hretrieved] at hlength
    revert hlength
    decide

end Left

end Xenon.Migration

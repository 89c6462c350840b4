import Mathlib.Algebra.Ring.Nat
import Mathlib.Data.Int.Order.Basic
import Mathlib.Data.List.AList
import Mathlib.Data.List.Induction
import Mathlib.Data.List.Nodup
import Mathlib.Order.Defs.LinearOrder
import Mathlib.Order.Lattice
import Mathlib.Order.RelClasses

/-!
# Merging the results of a broadcast query

Every node answers a broadcast query with links that are sorted. `mergeQueryResults` takes the
first of the links that the nodes have left, moves on at every node that has it, and keeps the
document of the first of these nodes.

Links are of any type with a linear order, as `String.compareTo` is one.
-/

namespace Xenon.QueryTask.Merge

/-- `ServiceDocumentQueryResult`. -/
structure ServiceDocumentQueryResult (L V : Type*) where
  documentLinks : List L := []
  documents : Option (AList fun _ : L => V) := none
  documentCount : Option Int := none

inductive Failure where
  | nullPointer
  | indexOutOfBounds
  /-- The quorum is no majority. -/
  | illegalState
  /-- A GET has failed. -/
  | get
  /-- The rounds that were allowed for do not suffice; this does not happen. -/
  | unfinished
deriving DecidableEq

variable {L V : Type*} [LinearOrder L]

/-! ## `mergeQueryResults` -/

/-- What a round of the merge takes first. -/
def before (isAscOrder : Bool) (a b : L) : Prop :=
  if isAscOrder then a < b else b < a

instance (isAscOrder : Bool) (a b : L) : Decidable (before isAscOrder a b) :=
  inferInstanceAs (Decidable (if isAscOrder then a < b else b < a))

/-- The link that a node has next, if it has one left. -/
def currentLink (dataSource : ServiceDocumentQueryResult L V) (index : Nat) :
    Except Failure (Option L) :=
  match dataSource.documentCount with
  | none => .error .nullPointer
  | some documentCount =>
      if index < documentCount ∧ dataSource.documentLinks ≠ [] then
        match dataSource.documentLinks[index]? with
        | some documentLink => .ok (some documentLink)
        | none => .error .indexOutOfBounds
      else .ok none

/-- The winner so far, with the nodes that have it, and the link of the next node. -/
def pickLink (isAscOrder : Bool) (picked : Option (L × List Nat)) (current : Option L × Nat) :
    Option (L × List Nat) :=
  match current, picked with
  | (none, _), _ => picked
  | (some documentLink, i), none => some (documentLink, [i])
  | (some documentLink, i), some (documentLinkPicked, sourcesPicked) =>
      if before isAscOrder documentLink documentLinkPicked then some (documentLink, [i])
      else if documentLink = documentLinkPicked then some (documentLinkPicked, sourcesPicked ++ [i])
      else picked

def pickLinks (isAscOrder : Bool) (links : List (Option L)) : Option (L × List Nat) :=
  links.zipIdx.foldl (pickLink isAscOrder) none

/-- A round saves the winner, with the document of the first node that has it. -/
def save (dataSources : List (ServiceDocumentQueryResult L V))
    (result : ServiceDocumentQueryResult L (Option V)) (documentLinkPicked : L)
    (sourcesPicked : List Nat) : ServiceDocumentQueryResult L (Option V) where
  documentLinks := result.documentLinks ++ [documentLinkPicked]
  documents :=
    match sourcesPicked.head?.bind (dataSources[·]?) |>.bind (·.documents) with
    | some documents =>
        result.documents.map (·.insert documentLinkPicked (documents.lookup documentLinkPicked))
    | none => result.documents
  documentCount := result.documentCount.map (· + 1)

def mergeLoop (isAscOrder : Bool) (dataSources : List (ServiceDocumentQueryResult L V)) :
    Nat → List Nat → ServiceDocumentQueryResult L (Option V) →
      Except Failure (ServiceDocumentQueryResult L (Option V))
  | 0, _, _ => .error .unfinished
  | rounds + 1, indices, result =>
      match (dataSources.zip indices).mapM fun p => currentLink p.1 p.2 with
      | .error e => .error e
      | .ok links =>
          match pickLinks isAscOrder links with
          | none => .ok result
          | some (documentLinkPicked, sourcesPicked) =>
              mergeLoop isAscOrder dataSources rounds
                (indices.mapIdx fun i index => index + sourcesPicked.count i)
                (save dataSources result documentLinkPicked sourcesPicked)

/-- `mergeCountQueries`. -/
def mergeCountQueries (dataSources : List (ServiceDocumentQueryResult L V)) :
    ServiceDocumentQueryResult L (Option V) where
  documents := some ∅
  documentCount := some <| dataSources.foldl (fun highestCount dataSource =>
    match dataSource.documentCount with
    | some documentCount =>
        if dataSource.documentLinks = [] ∧
            (dataSource.documents.elim [] AList.keys) = [] ∧ 0 < documentCount then
          max highestCount documentCount
        else highestCount
    | none => highestCount) 0

/-- `mergeQueryResults` into a new result. Every round moves a pointer. -/
def mergeQueryResults (dataSources : List (ServiceDocumentQueryResult L V)) (isAscOrder : Bool)
    (isCount : Bool) : Except Failure (ServiceDocumentQueryResult L (Option V)) :=
  if isCount then .ok (mergeCountQueries dataSources)
  else
    mergeLoop isAscOrder dataSources
      ((dataSources.map fun dataSource => (dataSource.documentCount.getD 0).toNat).sum + 1)
      (dataSources.map fun _ => 0) { documents := some ∅, documentCount := some 0 }

/-! ## What a round picks -/

section Pick

instance (isAscOrder : Bool) : IsStrictTotalOrder L (before isAscOrder) := by
  cases isAscOrder with
  | true => exact inferInstanceAs (IsStrictTotalOrder L (· < ·))
  | false => exact inferInstanceAs (IsStrictTotalOrder L (· > ·))

variable {links : List (Option L)}

omit [LinearOrder L] in
theorem forall_some_mem_snoc {link : Option L} {P : L → Prop} :
    (∀ y, some y ∈ links ++ [link] → P y) ↔
      (∀ y, some y ∈ links → P y) ∧ ∀ y, link = some y → P y := by
  constructor
  · intro h
    constructor
    · intro y hy
      exact h y (List.mem_append_left _ hy)
    · rintro y rfl
      exact h y (List.mem_append_right _ (List.mem_singleton_self _))
  · rintro ⟨hold, hnew⟩ y hy
    rcases List.mem_append.mp hy with hy | hy
    · exact hold y hy
    · exact hnew y (List.mem_singleton.mp hy).symm

theorem findIdxs_snoc (link : Option L) (x : L) :
    (links ++ [link]).findIdxs (· = some x) =
      links.findIdxs (· = some x) ++ if link = some x then [links.length] else [] := by
  rw [List.findIdxs_append]
  split_ifs with h <;> simp [h]

/-- A link that comes before all the others is not one of them. -/
theorem findIdxs_eq_nil {y : L} (h : ∀ z, some z ∈ links → z ≠ y) :
    links.findIdxs (· = some y) = [] := by
  apply List.findIdxs_eq_nil_iff.mpr
  intro link hlink
  rw [decide_eq_false_iff_not]
  rintro rfl
  exact h y hlink rfl

/-- No link comes before the one that is picked, and the nodes that have it are in their order. -/
theorem pickLinks_spec (isAscOrder : Bool) (links : List (Option L)) :
    match pickLinks isAscOrder links with
    | none => ∀ link ∈ links, link = none
    | some (x, sources) => some x ∈ links ∧ (∀ y, some y ∈ links → ¬before isAscOrder y x) ∧
        sources = links.findIdxs (· = some x) := by
  -- the loop goes from left to right, so the induction takes the last link off
  induction links using List.reverseRecOn with
  | nil => intro link hlink; cases hlink
  | append_singleton links link ih =>
      have hstep : pickLinks isAscOrder (links ++ [link]) =
          pickLink isAscOrder (pickLinks isAscOrder links) (link, links.length) := by
        simp [pickLinks, List.zipIdx_append]
      have hself : ∀ y : L, ∀ z, some y = some z → ¬before isAscOrder z y := by
        rintro y _ ⟨⟩
        exact irrefl y
      rw [hstep]
      cases hpicked : pickLinks isAscOrder links with
      | none =>
          rw [hpicked] at ih
          cases link with
          | none =>
              intro l hl
              rcases List.mem_append.mp hl with hl | hl
              · exact ih l hl
              · exact List.mem_singleton.mp hl
          | some y =>
              have hnone : ∀ z, some z ∉ links := fun z hz => Option.some_ne_none z (ih _ hz)
              refine ⟨by simp, forall_some_mem_snoc.mpr ⟨?_, hself y⟩, ?_⟩
              · intro z hz
                exact absurd hz (hnone z)
              · rw [findIdxs_snoc, findIdxs_eq_nil fun z hz => absurd hz (hnone z), if_pos rfl,
                  List.nil_append]
      | some p =>
          obtain ⟨x, sources⟩ := p
          rw [hpicked] at ih
          obtain ⟨hmem, hfirst, hsources⟩ := ih
          cases link with
          | none =>
              refine ⟨List.mem_append_left _ hmem, forall_some_mem_snoc.mpr ⟨hfirst, ?_⟩, ?_⟩
              · rintro y ⟨⟩
              · rw [findIdxs_snoc, ← hsources, if_neg (Option.some_ne_none x).symm,
                  List.append_nil]
          | some y =>
              simp only [pickLink]
              split_ifs with hbefore heq
              · -- the new link comes before the one so far
                refine ⟨by simp, forall_some_mem_snoc.mpr ⟨?_, hself y⟩, ?_⟩
                · intro z hz hzy
                  exact hfirst z hz (Trans.trans hzy hbefore)
                · have hne : ∀ z, some z ∈ links → z ≠ y := by
                    rintro z hz rfl
                    exact hfirst z hz hbefore
                  rw [findIdxs_snoc, findIdxs_eq_nil hne, if_pos rfl, List.nil_append]
              · subst heq
                refine ⟨List.mem_append_left _ hmem,
                  forall_some_mem_snoc.mpr ⟨hfirst, hself y⟩, ?_⟩
                rw [findIdxs_snoc, ← hsources, if_pos rfl]
              · refine ⟨List.mem_append_left _ hmem, forall_some_mem_snoc.mpr ⟨hfirst, ?_⟩, ?_⟩
                · rintro z ⟨⟩
                  exact hbefore
                · have hne : some y ≠ some x := fun h => heq (Option.some.inj h)
                  rw [findIdxs_snoc, ← hsources, if_neg hne, List.append_nil]

end Pick

/-! ## The rounds -/

section Rounds

variable {isAscOrder : Bool} {sources : List (ServiceDocumentQueryResult L V)} {indices : List Nat}
  {result : ServiceDocumentQueryResult L (Option V)}

/-- The links of a node are strictly sorted, and counted. -/
structure Sorted (isAscOrder : Bool) (s : ServiceDocumentQueryResult L V) : Prop where
  links : s.documentLinks.Pairwise (before isAscOrder)
  count : s.documentCount = some (s.documentLinks.length : Int)

/-- The document of a link, if there is one. -/
def ServiceDocumentQueryResult.document (s : ServiceDocumentQueryResult L V) (link : L) :
    Option V :=
  s.documents.bind (·.lookup link)

/-- The links that the nodes have next. -/
def heads (sources : List (ServiceDocumentQueryResult L V)) (indices : List Nat) :
    List (Option L) :=
  (sources.zip indices).map fun p => p.1.documentLinks[p.2]?

theorem mapM_currentLink (h : ∀ s ∈ sources, Sorted isAscOrder s) (indices : List Nat) :
    ((sources.zip indices).mapM fun p => currentLink p.1 p.2) = .ok (heads sources indices) := by
  induction sources generalizing indices with
  | nil => rfl
  | cons s sources ih =>
      cases indices with
      | nil => rfl
      | cons index indices =>
          have hcurrent : currentLink s index = .ok s.documentLinks[index]? := by
            unfold currentLink
            rw [(h s (by simp)).count]
            dsimp only
            split_ifs with hindex
            · rw [List.getElem?_eq_getElem (Int.ofNat_lt.mp hindex.1)]
            · rw [List.getElem?_eq_none]
              by_contra hlt
              have hlength := not_le.mp hlt
              exact hindex ⟨Int.ofNat_lt.mpr hlength, List.ne_nil_of_length_pos (by omega)⟩
          have hrest := ih (fun s hs => h s (List.mem_cons_of_mem _ hs)) indices
          rw [List.zip_cons_cons, List.mapM_cons, hcurrent, hrest]
          rfl

/-- Between two rounds: what the nodes have passed is in the result, and what they have left comes
after it. -/
structure Inv (isAscOrder : Bool) (sources : List (ServiceDocumentQueryResult L V))
    (indices : List Nat) (result : ServiceDocumentQueryResult L (Option V)) : Prop where
  length : indices.length = sources.length
  taken : ∀ p ∈ sources.zip indices, ∀ x ∈ p.1.documentLinks.take p.2, x ∈ result.documentLinks
  remaining : ∀ p ∈ sources.zip indices, ∀ x ∈ p.1.documentLinks.drop p.2,
    ∀ y ∈ result.documentLinks, before isAscOrder y x
  sorted : result.documentLinks.Pairwise (before isAscOrder)
  union : ∀ x ∈ result.documentLinks, ∃ s ∈ sources, x ∈ s.documentLinks
  count : result.documentCount = some (result.documentLinks.length : Int)
  initialized : result.documents ≠ none
  fresh : ∀ x, x ∉ result.documentLinks → result.document x = none
  documents : ∀ x ∈ result.documentLinks, ∀ s,
    sources.find? (fun s => x ∈ s.documentLinks) = some s →
      (result.document x).join = s.document x

theorem inv_start (isAscOrder : Bool) (sources : List (ServiceDocumentQueryResult L V)) :
    Inv isAscOrder sources (sources.map fun _ => 0)
      { documents := some ∅, documentCount := some 0 } where
  length := List.length_map _
  taken p hp x hx := by
    obtain ⟨i, hi⟩ := List.mem_iff_getElem?.mp hp
    have hindex := (List.getElem?_zip_eq_some.mp hi).2
    rw [List.getElem?_map] at hindex
    obtain ⟨s, -, hzero⟩ := Option.map_eq_some_iff.mp hindex
    rw [← hzero] at hx
    cases hx
  remaining _ _ _ _ _ hy := by cases hy
  sorted := List.Pairwise.nil
  union _ hx := by cases hx
  count := rfl
  initialized := Option.some_ne_none _
  fresh _ _ := rfl
  documents _ hx := by cases hx

/-- The link that is first of those that are left is left wherever it was returned. -/
theorem Inv.getElem_eq_iff (h : Inv isAscOrder sources indices result)
    (hsorted : ∀ s ∈ sources, Sorted isAscOrder s) {x : L} (hx : some x ∈ heads sources indices)
    (hfirst : ∀ y, some y ∈ heads sources indices → ¬before isAscOrder y x)
    {p : ServiceDocumentQueryResult L V × Nat} (hp : p ∈ sources.zip indices) :
    p.1.documentLinks[p.2]? = some x ↔ x ∈ p.1.documentLinks := by
  refine ⟨List.mem_of_getElem?, fun hmem => ?_⟩
  obtain ⟨q, hq, hqx⟩ := List.mem_map.mp hx
  have hleft : x ∈ q.1.documentLinks.drop q.2 := by
    apply List.mem_of_getElem? (i := 0)
    rw [List.getElem?_drop, Nat.add_zero, hqx]
  have hnot : x ∉ p.1.documentLinks.take p.2 := fun htaken =>
    irrefl x (h.remaining q hq x hleft x (h.taken p hp x htaken))
  rw [← List.take_append_drop p.2 p.1.documentLinks, List.mem_append] at hmem
  have hdrop := hmem.resolve_left hnot
  have hpairwise := (hsorted p.1 (List.of_mem_zip hp).1).links.drop (i := p.2)
  have hhead : p.1.documentLinks[p.2]? = (p.1.documentLinks.drop p.2).head? := by
    rw [List.head?_drop]
  rw [hhead]
  cases hleft : p.1.documentLinks.drop p.2 with
  | nil =>
      rw [hleft] at hdrop
      cases hdrop
  | cons y rest =>
      rw [hleft] at hdrop hhead hpairwise
      rcases List.mem_cons.mp hdrop with rfl | hrest
      · rfl
      · exact absurd (List.rel_of_pairwise_cons hpairwise hrest)
          (hfirst y (List.mem_map.mpr ⟨p, hp, hhead⟩))

theorem Inv.findIdxs_heads (h : Inv isAscOrder sources indices result)
    (hsorted : ∀ s ∈ sources, Sorted isAscOrder s) {x : L} (hx : some x ∈ heads sources indices)
    (hfirst : ∀ y, some y ∈ heads sources indices → ¬before isAscOrder y x) :
    (heads sources indices).findIdxs (· = some x) =
      sources.findIdxs fun s => x ∈ s.documentLinks := by
  have hmap : (heads sources indices).map (fun l => decide (l = some x)) =
      sources.map fun s => decide (x ∈ s.documentLinks) := by
    calc (heads sources indices).map (fun l => decide (l = some x))
        = (sources.zip indices).map fun p => decide (x ∈ p.1.documentLinks) := by
          rw [heads, List.map_map]
          apply List.map_congr_left
          intro p hp
          exact decide_eq_decide.mpr (h.getElem_eq_iff hsorted hx hfirst hp)
      _ = ((sources.zip indices).map Prod.fst).map fun s => decide (x ∈ s.documentLinks) := by
          rw [List.map_map]
          rfl
      _ = sources.map fun s => decide (x ∈ s.documentLinks) := by
          rw [List.map_fst_zip h.length.ge]
  have hids := congrArg (List.findIdxs id) hmap
  rw [List.findIdxs_map, List.findIdxs_map] at hids
  exact hids

theorem head?_findIdxs_bind {α : Type*} (l : List α) (q : α → Bool) :
    ((l.findIdxs q).head?.bind fun i => l[i]?) = l.find? q := by
  cases hids : l.findIdxs q with
  | nil =>
      symm
      apply List.find?_eq_none.mpr
      intro s hs
      rw [List.findIdxs_eq_nil_iff.mp hids s hs]
      exact Bool.false_ne_true
  | cons i rest =>
      have hpos : 0 < (l.findIdxs q).length := by
        rw [hids]
        exact Nat.zero_lt_succ _
      have hi : i = l.findIdx q := by
        rw [← List.getElem_zero_findIdxs_eq_findIdx hpos]
        simp [hids]
      rw [List.find?_eq_getElem?_findIdx, ← hi]
      rfl

/-- Where the pointers are after a round. -/
theorem exists_of_mem_advanced {x : L} {p : ServiceDocumentQueryResult L V × Nat}
    (hp : p ∈ sources.zip (indices.mapIdx fun i index =>
      index + (sources.findIdxs fun s => x ∈ s.documentLinks).count i)) :
    ∃ index, (p.1, index) ∈ sources.zip indices ∧
      p.2 = if x ∈ p.1.documentLinks then index + 1 else index := by
  obtain ⟨i, hi⟩ := List.mem_iff_getElem?.mp hp
  obtain ⟨hsource, hindex⟩ := List.getElem?_zip_eq_some.mp hi
  rw [List.getElem?_mapIdx] at hindex
  obtain ⟨index, hold, hnew⟩ := Option.map_eq_some_iff.mp hindex
  refine ⟨index, List.mem_of_getElem? (List.getElem?_zip_eq_some.mpr ⟨hsource, hold⟩), ?_⟩
  obtain ⟨hlt, hget⟩ := List.getElem?_eq_some_iff.mp hsource
  have hmem : i ∈ (sources.findIdxs fun s => x ∈ s.documentLinks) ↔ x ∈ p.1.documentLinks := by
    rw [List.mem_findIdxs_iff_pos_getElem hlt, hget, decide_eq_true_iff]
  rw [← hnew, List.nodup_findIdxs.count, if_congr hmem rfl rfl]
  split_ifs <;> rfl

/-- What a node has left after a round comes after the link of the round. -/
theorem Inv.before_of_mem_drop (h : Inv isAscOrder sources indices result)
    (hsorted : ∀ s ∈ sources, Sorted isAscOrder s) {x : L} (hx : some x ∈ heads sources indices)
    (hfirst : ∀ y, some y ∈ heads sources indices → ¬before isAscOrder y x)
    {p : ServiceDocumentQueryResult L V × Nat} (hp : p ∈ sources.zip indices) {y : L}
    (hy : y ∈ p.1.documentLinks.drop (if x ∈ p.1.documentLinks then p.2 + 1 else p.2)) :
    before isAscOrder x y := by
  have hhead := h.getElem_eq_iff hsorted hx hfirst hp
  have hpairwise := (hsorted p.1 (List.of_mem_zip hp).1).links.drop (i := p.2)
  split_ifs at hy with hmem
  · obtain ⟨hlt, hget⟩ := List.getElem?_eq_some_iff.mp (hhead.mpr hmem)
    rw [List.drop_eq_getElem_cons hlt, hget] at hpairwise
    exact List.rel_of_pairwise_cons hpairwise hy
  · have hnext : p.1.documentLinks[p.2]? = (p.1.documentLinks.drop p.2).head? := by
      rw [List.head?_drop]
    cases hleft : p.1.documentLinks.drop p.2 with
    | nil =>
        rw [hleft] at hy
        cases hy
    | cons z rest =>
        rw [hleft] at hy hpairwise hnext
        have hz : before isAscOrder x z := by
          rcases trichotomous_of (before isAscOrder) x z with hxz | rfl | hzx
          · exact hxz
          · exact absurd (hhead.mp hnext) hmem
          · exact absurd hzx (hfirst z (List.mem_map.mpr ⟨p, hp, hnext⟩))
        rcases List.mem_cons.mp hy with rfl | hrest
        · exact hz
        · exact Trans.trans hz (List.rel_of_pairwise_cons hpairwise hrest)

theorem document_save_of_ne {x y : L} (hne : y ≠ x) (ids : List Nat) :
    (save sources result x ids).document y = result.document y := by
  unfold ServiceDocumentQueryResult.document save
  dsimp only
  split
  · cases result.documents with
    | none => rfl
    | some documents => exact AList.lookup_insert_ne hne
  · rfl

theorem join_document_save {x : L} {s : ServiceDocumentQueryResult L V}
    (hs : sources.find? (fun s => x ∈ s.documentLinks) = some s)
    (hdocuments : result.documents ≠ none) (hfresh : result.document x = none) :
    ((save sources result x (sources.findIdxs fun s => x ∈ s.documentLinks)).document x).join =
      s.document x := by
  obtain ⟨documents, hsome⟩ := Option.ne_none_iff_exists'.mp hdocuments
  unfold ServiceDocumentQueryResult.document save
  dsimp only
  rw [head?_findIdxs_bind, hs, Option.bind_some]
  cases hheld : s.documents with
  | none =>
      dsimp only
      unfold ServiceDocumentQueryResult.document at hfresh
      rw [hfresh]
      rfl
  | some held =>
      dsimp only
      rw [hsome, Option.map_some, Option.bind_some, AList.lookup_insert]
      rfl

theorem Inv.round (h : Inv isAscOrder sources indices result)
    (hsorted : ∀ s ∈ sources, Sorted isAscOrder s) {x : L} (hx : some x ∈ heads sources indices)
    (hfirst : ∀ y, some y ∈ heads sources indices → ¬before isAscOrder y x) :
    Inv isAscOrder sources
      (indices.mapIdx fun i index =>
        index + (sources.findIdxs fun s => x ∈ s.documentLinks).count i)
      (save sources result x (sources.findIdxs fun s => x ∈ s.documentLinks)) := by
  obtain ⟨q, hq, hqx⟩ := List.mem_map.mp hx
  have hleft : x ∈ q.1.documentLinks.drop q.2 := by
    apply List.mem_of_getElem? (i := 0)
    rw [List.getElem?_drop, Nat.add_zero, hqx]
  -- the picked link is behind all that is merged, so it is new
  have hlast : ∀ y ∈ result.documentLinks, before isAscOrder y x := h.remaining q hq x hleft
  have hnew : x ∉ result.documentLinks := fun hmem => irrefl x (hlast x hmem)
  constructor
  case length =>
    rw [List.length_mapIdx]
    exact h.length
  case taken =>
    intro p hp y hy
    obtain ⟨index, hold, hindex⟩ := exists_of_mem_advanced hp
    show y ∈ result.documentLinks ++ [x]
    rw [hindex] at hy
    split_ifs at hy with hmem
    · rw [List.take_add_one, (h.getElem_eq_iff hsorted hx hfirst hold).mpr hmem] at hy
      rcases List.mem_append.mp hy with hy | hy
      · exact List.mem_append_left _ (h.taken _ hold y hy)
      · exact List.mem_append_right _ hy
    · exact List.mem_append_left _ (h.taken _ hold y hy)
  case remaining =>
    intro p hp y hy z hz
    obtain ⟨index, hold, hindex⟩ := exists_of_mem_advanced hp
    rw [hindex] at hy
    rcases List.mem_append.mp (show z ∈ result.documentLinks ++ [x] from hz) with hz | hz
    · -- an index only moves forward
      have hdrop : y ∈ p.1.documentLinks.drop index := by
        split_ifs at hy
        · exact List.drop_subset_drop_left _ (Nat.le_succ index) hy
        · exact hy
      exact h.remaining _ hold y hdrop z hz
    · obtain rfl := List.mem_singleton.mp hz
      exact h.before_of_mem_drop hsorted hx hfirst hold hy
  case sorted =>
    apply List.pairwise_append.mpr
    refine ⟨h.sorted, List.pairwise_singleton _ _, fun y hy z hz => ?_⟩
    obtain rfl := List.mem_singleton.mp hz
    exact hlast y hy
  case union =>
    intro y hy
    rcases List.mem_append.mp (show y ∈ result.documentLinks ++ [x] from hy) with hy | hy
    · exact h.union y hy
    · obtain rfl := List.mem_singleton.mp hy
      exact ⟨q.1, (List.of_mem_zip hq).1, List.mem_of_mem_drop hleft⟩
  case count => simp [save, h.count]
  case initialized =>
    obtain ⟨documents, hsome⟩ := Option.ne_none_iff_exists'.mp h.initialized
    unfold save
    dsimp only
    split <;> simp [hsome]
  case fresh =>
    intro y hy
    have hy' : y ∉ result.documentLinks ++ [x] := hy
    rw [List.mem_append, List.mem_singleton, not_or] at hy'
    rw [document_save_of_ne hy'.2]
    exact h.fresh y hy'.1
  case documents =>
    intro y hy s hs
    by_cases hyx : y = x
    · subst hyx
      exact join_document_save hs h.initialized (h.fresh y hnew)
    · rw [document_save_of_ne hyx]
      refine h.documents y ?_ s hs
      exact (List.mem_append.mp hy).resolve_right fun hlast => hyx (List.mem_singleton.mp hlast)

/-- The result has no more links than the nodes have returned. -/
theorem Inv.length_le (h : Inv isAscOrder sources indices result) :
    result.documentLinks.length ≤ (sources.map fun s => s.documentLinks.length).sum := by
  have hnodup : result.documentLinks.Nodup := by
    apply h.sorted.imp
    rintro a b hab rfl
    exact irrefl a hab
  have hsubset : result.documentLinks ⊆ sources.flatMap fun s => s.documentLinks :=
    fun x hx => List.mem_flatMap.mpr (h.union x hx)
  rw [← List.length_flatMap]
  exact (List.subperm_of_subset hnodup hsubset).length_le

theorem Inv.mergeLoop (hsorted : ∀ s ∈ sources, Sorted isAscOrder s) {rounds : Nat}
    (h : Inv isAscOrder sources indices result)
    (hrounds : (sources.map fun s => s.documentLinks.length).sum <
      rounds + result.documentLinks.length) :
    ∃ indices' result', mergeLoop isAscOrder sources rounds indices result = .ok result' ∧
      Inv isAscOrder sources indices' result' ∧ ∀ link ∈ heads sources indices', link = none := by
  induction rounds generalizing indices result with
  | zero =>
      rw [Nat.zero_add] at hrounds
      exact absurd h.length_le (not_le.mpr hrounds)
  | succ rounds ih =>
      have hpick := pickLinks_spec isAscOrder (heads sources indices)
      unfold Merge.mergeLoop
      rw [mapM_currentLink hsorted]
      dsimp only
      cases hpicked : pickLinks isAscOrder (heads sources indices) with
      | none =>
          rw [hpicked] at hpick
          exact ⟨indices, result, rfl, h, hpick⟩
      | some p =>
          obtain ⟨x, ids⟩ := p
          rw [hpicked] at hpick
          obtain ⟨hx, hfirst, hids⟩ := hpick
          rw [h.findIdxs_heads hsorted hx hfirst] at hids
          subst hids
          apply ih (h.round hsorted hx hfirst)
          show _ < rounds + (result.documentLinks ++ [x]).length
          rw [List.length_append, List.length_singleton]
          omega

end Rounds

/-- The links of the nodes, in their order and without duplicates, and for each the document of the
first node that has returned it. -/
def MergesLinks (sources : List (ServiceDocumentQueryResult L V)) (isAscOrder : Bool) : Prop :=
  (∀ s ∈ sources, Sorted isAscOrder s) →
    ∃ result, mergeQueryResults sources isAscOrder false = .ok result ∧
      Sorted isAscOrder result ∧
      (∀ link, link ∈ result.documentLinks ↔ ∃ s ∈ sources, link ∈ s.documentLinks) ∧
      ∀ link s, sources.find? (fun s => link ∈ s.documentLinks) = some s →
        (result.document link).join = s.document link

theorem mergesLinks (sources : List (ServiceDocumentQueryResult L V)) (isAscOrder : Bool) :
    MergesLinks sources isAscOrder := by
  intro hsorted
  have hcounts : (sources.map fun s => (s.documentCount.getD 0).toNat) =
      sources.map fun s => s.documentLinks.length := by
    apply List.map_congr_left
    intro s hs
    rw [(hsorted s hs).count]
    rfl
  obtain ⟨indices, result, hmerge, hinv, hdone⟩ :=
    (inv_start isAscOrder sources).mergeLoop hsorted (Nat.lt_succ_self _)
  have hall : ∀ link, (∃ s ∈ sources, link ∈ s.documentLinks) → link ∈ result.documentLinks := by
    rintro link ⟨s, hs, hlink⟩
    rw [← List.map_fst_zip hinv.length.ge] at hs
    obtain ⟨p, hp, rfl⟩ := List.mem_map.mp hs
    have hlength := List.getElem?_eq_none_iff.mp (hdone _ (List.mem_map.mpr ⟨p, hp, rfl⟩))
    apply hinv.taken p hp
    rw [List.take_of_length_le hlength]
    exact hlink
  refine ⟨result, ?_, ⟨hinv.sorted, hinv.count⟩, fun link => ⟨hinv.union link, hall link⟩, ?_⟩
  · unfold mergeQueryResults
    rw [if_neg Bool.false_ne_true, hcounts]
    exact hmerge
  · intro link s hs
    have hfound := List.find?_some hs
    rw [decide_eq_true_iff] at hfound
    exact hinv.documents link (hall link ⟨s, List.mem_of_find?_eq_some hs, hfound⟩) s hs

end Xenon.QueryTask.Merge

import Xenon.QueryTask.Query

/-!
# Pages of query results

A query with a result limit answers with a link to its first page, and every page with a
link to the next one. A page asks Lucene for some hits after those of the page before,
filters them and asks for more until it is full; then it looks ahead whether there is
anything left for another page. All this is over the hits of one searcher.
-/

namespace Xenon.Index.Pages

open Xenon.QueryTask (Failure)

/-- A hit, and whether this node is the owner of the document
(`processQueryResultsForOwnerSelection`). -/
structure Hit where
  link : String
  version : Int
  isDeleted : Bool
  isOwner : Bool
deriving DecidableEq

/-- The options of a query that bear on its pages, its result limit, the limit on hits
(`queryPageResultLimit`), and the latest versions in its searcher. -/
structure Spec where
  includeAllVersions : Bool
  includeDeleted : Bool
  ownerSelection : Bool
  latestVersion : String → Int
  count : Nat
  queryPageResultLimit : Nat

/-- A Java `int`. -/
def int (x : Int) : Int := x.bmod (2 ^ 32)

/-! ## Filtering hits -/

/-- `LinkedHashSet.add`. -/
def insertLast (links : List String) (link : String) : List String :=
  if link ∈ links then links else links ++ [link]

/-- The link under which a hit is returned (`UriUtils.buildPathWithVersion`). -/
def Spec.key (q : Spec) (h : Hit) : String :=
  if q.includeAllVersions then h.link ++ "?documentVersion=" ++ toString h.version else h.link

/-- The body of the loop of `processQueryResults`. -/
def Spec.visit (q : Spec) (populateResponse : Bool) (uniques : List String) (h : Hit) :
    List String :=
  if !q.includeAllVersions && h.version < q.latestVersion h.link then uniques
  else if !q.includeAllVersions && h.isDeleted && !q.includeDeleted then uniques.erase h.link
  else if !populateResponse then insertLast uniques (q.key h)
  else if q.ownerSelection && !h.isOwner then uniques
  else insertLast uniques (q.key h)

/-- `processQueryResults`: the links, and how many hits were visited. -/
def Spec.processQueryResults (q : Spec) (resultLimit : Nat) (populateResponse : Bool) :
    List String → List Hit → List String × Nat
  | uniques, [] => (uniques, 0)
  | uniques, h :: hits =>
      if resultLimit ≤ uniques.length then (uniques, 0)
      else
        let r := q.processQueryResults resultLimit populateResponse
          (q.visit populateResponse uniques h) hits
        (r.1, r.2 + 1)

/-- The links that a query without a result limit returns. -/
def Spec.unpaginated (q : Spec) (hits : List Hit) (offset : Nat) : List String :=
  (hits.foldl (q.visit true) []).drop offset

/-! ## Searching -/

/-- The hits after a hit; `none` is before the first one. -/
def remaining (hits : List Hit) : Option Nat → List Hit
  | none => hits
  | some n => hits.drop (n + 1)

/-- The hit that was visited last, `null` if none was. -/
def bottom (after : Option Nat) (visited : Nat) : Option Nat :=
  if visited = 0 then none
  else match after with
    | none => some (visited - 1)
    | some n => some (n + visited)

/-- `IndexSearcher.searchAfter`. -/
def searchAfter (hits : List Hit) (after : Option Nat) (numHits : Int) :
    Except Failure (List Hit) :=
  if numHits ≤ 0 then .error (.illegalArgument "numHits must be > 0")
  else .ok ((remaining hits after).take numHits.toNat)

/-- `checkNextPageHasEntry`. -/
def Spec.checkNextPageHasEntry (q : Spec) (hits : List Hit) (count : Int) :
    Nat → Option Nat → Except Failure Bool
  | _, none => .ok false
  | 0, some _ => .error .outOfFuel
  | fuel + 1, some n => do
      let found ← searchAfter hits (some n) count
      if found = [] then return false
      let (links, visited) := q.processQueryResults 1 false [] found
      if links ≠ [] then return true
      q.checkNextPageHasEntry hits count fuel (bottom (some n) visited)

/-! ## Pages -/

/-- The links of a page, and where the next one starts. -/
structure Page where
  links : List String
  next : Option (Option Nat × Nat)
deriving DecidableEq

/-- Skip results for the offset: what is left of the links, and of the offset. -/
def skip (links : List String) (offset : Nat) : List String × Nat :=
  if links.length < offset then ([], offset - links.length) else (links.drop offset, 0)

/-- The loop of `queryIndexPaginated`, for a page. -/
def Spec.pageLoop (q : Spec) (hits : List Hit) : Nat → Option Nat → List String → Nat → Nat →
    Int → Except Failure Page
  | 0, _, _, _, _, _ => .error .outOfFuel
  | fuel + 1, after, links, offset, resultLimit, hitCount => do
      let found ← searchAfter hits after hitCount
      let (links, visited) := q.processQueryResults q.count true links found
      let (links, offset) := skip links offset
      if found = [] then return ⟨links, none⟩
      if q.count ≤ links.length ∨ found.length < resultLimit then
        let createNextPageLink ← q.checkNextPageHasEntry hits (int (hitCount + offset))
          (hits.length + 1) (bottom after visited)
        return ⟨links, if createNextPageLink then some (bottom after visited, offset) else none⟩
      if 0 < q.count - links.length then
        q.pageLoop hits fuel (bottom after visited) links offset (q.count - links.length)
          (min q.queryPageResultLimit (int (2 * hitCount)))
      else return ⟨links, none⟩

/-- The number of hits that a page asks for first. -/
def Spec.hitCount (q : Spec) : Int :=
  if q.includeAllVersions then q.count else min (int (2 * q.count)) q.queryPageResultLimit

/-- Get a page. -/
def Spec.queryPage (q : Spec) (hits : List Hit) (after : Option Nat) (offset : Nat) :
    Except Failure Page :=
  q.pageLoop hits (hits.length + 1) after [] offset q.count q.hitCount

/-- Follow the links from page to page. -/
def Spec.follow (q : Spec) (hits : List Hit) : Nat → Option Nat → Nat →
    Except Failure (List (List String))
  | 0, _, _ => .error .outOfFuel
  | fuel + 1, after, offset => do
      let page ← q.queryPage hits after offset
      match page.next with
      | none => return [page.links]
      | some (after, offset) =>
          let pages ← q.follow hits fuel after offset
          return page.links :: pages

/-- All pages of a query. The first answer has a link if there is any hit. -/
def Spec.paginate (q : Spec) (hits : List Hit) (offset : Nat) :
    Except Failure (List (List String)) := do
  let found ← searchAfter hits none 1
  if found = [] then return []
  q.follow hits (hits.length + 1) none offset

/-- **Pagination is complete**: all pages are there, they have the results of the query without
a limit, each has some and none has too many. -/
def Spec.Complete (q : Spec) (hits : List Hit) (offset : Nat) : Prop :=
  ∃ pages, q.paginate hits offset = .ok pages ∧ pages.flatten = q.unpaginated hits offset ∧
    ∀ page ∈ pages, page.length ≤ q.count ∧ page ≠ []

end Xenon.Index.Pages

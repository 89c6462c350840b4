import Mathlib.Data.Finset.Max
import Mathlib.Data.Finset.Option
import Mathlib.Logic.Function.Basic
import Mathlib.Tactic.Common

/-!
# What the index service remembers of updates

`LuceneDocumentIndexService` keeps the time and the version of the last update of
every link, and the time of the last update of every kind and of the index. From
these it decides whether a searcher is too old for a query, and which version of a
link is the latest. Times are in microseconds, from a clock that never returns the
same time twice.
-/

namespace Xenon.Index

/-- `DocumentUpdateInfo`. -/
structure DocumentUpdateInfo where
  updateTimeMicros : Int
  version : Int
deriving DecidableEq

/-- The fields that are guarded by `searchSync`, and `serviceRemovalDetectedTimeMicros`,
which is not always. -/
structure Cache where
  updatesPerLink : String → Option DocumentUpdateInfo := fun _ => none
  immutableParentLinks : Option String → Option Int := fun _ => none
  documentKindUpdateInfo : String → Option Int := fun _ => none
  writerUpdateTimeMicros : Int := 0
  serviceRemovalDetectedTimeMicros : Int := 0

/-- `UriUtils.getParentPath`. -/
def getParentPath (path : String) : Option String :=
  let s := path.toList
  match s.reverse.dropWhile (· ≠ '/') with
  | [] => none
  | _ :: front =>
      if front ≠ [] then some (String.ofList front.reverse)
      else if 1 < s.length then some "/" else none

/-! ## Recording an update -/

/-- The new entry of a link. One that does not exist yet starts with zeros. -/
def recordVersion (version lastAccessTime : Int) (entry : Option DocumentUpdateInfo) :
    DocumentUpdateInfo :=
  let entry := entry.getD ⟨0, 0⟩
  if entry.version ≤ version then ⟨max entry.updateTimeMicros lastAccessTime, version⟩ else entry

/-- `updateLinkInfoCache`. -/
def Cache.updateLinkInfoCache (c : Cache) (isImmutable : Bool) (link : String)
    (kind : Option String) (version lastAccessTime : Int) : Cache where
  updatesPerLink :=
    if isImmutable then c.updatesPerLink
    else Function.update c.updatesPerLink link
      (some (recordVersion version lastAccessTime (c.updatesPerLink link)))
  immutableParentLinks :=
    if isImmutable then
      Function.update c.immutableParentLinks (getParentPath link) (some
        (match c.immutableParentLinks (getParentPath link) with
        | none => lastAccessTime
        | some time => max time lastAccessTime))
    else c.immutableParentLinks
  documentKindUpdateInfo := match kind with
    | none => c.documentKindUpdateInfo
    | some kind => Function.update c.documentKindUpdateInfo kind
        (some (max ((c.documentKindUpdateInfo kind).getD 0) lastAccessTime))
  writerUpdateTimeMicros := max c.writerUpdateTimeMicros lastAccessTime
  serviceRemovalDetectedTimeMicros := c.serviceRemovalDetectedTimeMicros

section

variable (c : Cache) (isImmutable : Bool) (link : String) (kind : Option String)
  (version lastAccessTime : Int)

@[simp] theorem updateLinkInfoCache_writer :
    (c.updateLinkInfoCache isImmutable link kind version lastAccessTime).writerUpdateTimeMicros =
      max c.writerUpdateTimeMicros lastAccessTime := rfl

@[simp] theorem updateLinkInfoCache_removal :
    (c.updateLinkInfoCache isImmutable link kind version
      lastAccessTime).serviceRemovalDetectedTimeMicros = c.serviceRemovalDetectedTimeMicros := rfl

theorem updateLinkInfoCache_link_other {link' : String} (h : link' ≠ link) :
    (c.updateLinkInfoCache isImmutable link kind version lastAccessTime).updatesPerLink link' =
      c.updatesPerLink link' := by
  unfold Cache.updateLinkInfoCache
  cases isImmutable
  · exact Function.update_of_ne h _ _
  · rfl

@[simp] theorem updateLinkInfoCache_link :
    (c.updateLinkInfoCache false link kind version lastAccessTime).updatesPerLink link =
      some (recordVersion version lastAccessTime (c.updatesPerLink link)) :=
  Function.update_self _ _ _

@[simp] theorem updateLinkInfoCache_immutable_link (link' : String) :
    (c.updateLinkInfoCache true link kind version lastAccessTime).updatesPerLink link' =
      c.updatesPerLink link' := rfl

/-- The times of the parents of immutable services only grow. -/
theorem le_immutableParentLinks {parent : Option String} {time : Int}
    (h : c.immutableParentLinks parent = some time) : ∃ time', time ≤ time' ∧
      (c.updateLinkInfoCache isImmutable link kind version
        lastAccessTime).immutableParentLinks parent = some time' := by
  cases isImmutable with
  | false => exact ⟨time, le_rfl, h⟩
  | true =>
      by_cases hp : parent = getParentPath link
      · subst hp
        refine ⟨max time lastAccessTime, le_max_left _ _, ?_⟩
        simp [Cache.updateLinkInfoCache, h]
      · exact ⟨time, le_rfl, by simp [Cache.updateLinkInfoCache, hp, h]⟩

theorem immutableParentLinks_recorded : ∃ time, lastAccessTime ≤ time ∧
    (c.updateLinkInfoCache true link kind version lastAccessTime).immutableParentLinks
      (getParentPath link) = some time := by
  cases h : c.immutableParentLinks (getParentPath link) with
  | none => exact ⟨lastAccessTime, le_rfl, by simp [Cache.updateLinkInfoCache, h]⟩
  | some time =>
      exact ⟨max time lastAccessTime, le_max_right _ _, by simp [Cache.updateLinkInfoCache, h]⟩

/-- The times of the kinds only grow. -/
theorem le_documentKindUpdateInfo {kind' : String} {time : Int}
    (h : c.documentKindUpdateInfo kind' = some time) : ∃ time', time ≤ time' ∧
      (c.updateLinkInfoCache isImmutable link kind version
        lastAccessTime).documentKindUpdateInfo kind' = some time' := by
  cases kind with
  | none => exact ⟨time, le_rfl, h⟩
  | some kind =>
      by_cases hk : kind' = kind
      · subst hk
        refine ⟨max time lastAccessTime, le_max_left _ _, ?_⟩
        simp [Cache.updateLinkInfoCache, h]
      · exact ⟨time, le_rfl, by simp [Cache.updateLinkInfoCache, hk, h]⟩

theorem documentKindUpdateInfo_recorded {kind : String} : ∃ time, lastAccessTime ≤ time ∧
    (c.updateLinkInfoCache isImmutable link (some kind) version
      lastAccessTime).documentKindUpdateInfo kind = some time :=
  ⟨max ((c.documentKindUpdateInfo kind).getD 0) lastAccessTime, le_max_right _ _,
    by simp [Cache.updateLinkInfoCache]⟩

end

/-! ## Whether a searcher is too old -/

/-- The update time of a kind, or nothing. -/
def Cache.kindUpdateTime (c : Cache) (kind : Option String) : WithBot Int :=
  match kind.bind c.documentKindUpdateInfo with
  | none => ⊥
  | some time => time

/-- The latest update time of the kinds, `Long.MIN_VALUE` if there is none. -/
def Cache.kindsUpdateTime (c : Cache) (kindScope : Finset (Option String)) : Int :=
  (kindScope.sup c.kindUpdateTime).unbotD (-(2 ^ 63))

/-- The check of `documentNeedsNewSearcher` for a single link. -/
def Cache.linkNeedsNewSearcher (c : Cache) (selfLink : String) (searcherUpdateTime : Int) : Bool :=
  (match c.updatesPerLink selfLink with
  | none => searcherUpdateTime < c.serviceRemovalDetectedTimeMicros
  | some du => searcherUpdateTime ≤ du.updateTimeMicros) ||
  match c.immutableParentLinks (getParentPath selfLink) with
  | none => false
  | some updateTime => searcherUpdateTime ≤ updateTime

/-- `documentNeedsNewSearcher`. -/
def Cache.documentNeedsNewSearcher (c : Cache) (searcherRefreshIntervalMicros systemNow : Int)
    (selfLink : Option String) (kindScope : Option (Finset (Option String))) (resultLimit : Int)
    (searcherUpdateTime : Int) (doNotRefresh : Bool) : Bool :=
  match selfLink, decide (resultLimit = 1) with
  | some selfLink, true => c.linkNeedsNewSearcher selfLink searcherUpdateTime
  | _, _ =>
      let indexUpdateTime := match kindScope with
        | none => c.writerUpdateTimeMicros
        | some kinds => c.kindsUpdateTime kinds
      let needNewSearcher := decide (searcherUpdateTime < indexUpdateTime)
      if doNotRefresh && needNewSearcher &&
          decide (systemNow ≤ indexUpdateTime + searcherRefreshIntervalMicros) then false
      else needNewSearcher

theorem le_kindsUpdateTime {c : Cache} {kinds : Finset (Option String)} {kind : String} {time : Int}
    (hkind : some kind ∈ kinds) (htime : c.documentKindUpdateInfo kind = some time) :
    time ≤ c.kindsUpdateTime kinds := by
  have hle : (time : WithBot Int) ≤ kinds.sup c.kindUpdateTime := by
    have hsup : c.kindUpdateTime (some kind) ≤ kinds.sup c.kindUpdateTime := Finset.le_sup hkind
    simpa [Cache.kindUpdateTime, htime] using hsup
  unfold Cache.kindsUpdateTime
  cases h : kinds.sup c.kindUpdateTime with
  | bot =>
      rw [h] at hle
      simp at hle
  | coe latest =>
      rw [h] at hle
      simpa using hle

end Xenon.Index

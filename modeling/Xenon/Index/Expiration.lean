import Xenon.Index.Versions

/-!
# Expiration

A maintenance pass searches for expired documents on a searcher, and deletes all
versions of a link whose latest version has expired. Which version is the latest it
asks the cache of update times or the searcher, and both may be behind the index: a
version that is added after the searcher was opened, with a later expiration or none,
is deleted with the others.
-/

namespace Xenon.Index.Expiration

open Xenon.Foundation
open Latest (cachedVersion mem_of_lookup)

/-! ## Documents -/

/-- A version of a document; an expiration time of 0 is none. -/
structure Version where
  link : String
  version : Nat
  documentUpdateTimeMicros : Int
  documentExpirationTimeMicros : Int
deriving DecidableEq

/-- A document in the index; `id` tells documents with equal contents apart. -/
structure Document extends Version where
  id : Nat
deriving DecidableEq

/-- A document with an expiration time in `(0, now]`. -/
def Document.HasExpired (d : Document) (now : Int) : Prop :=
  0 < d.documentExpirationTimeMicros ∧ d.documentExpirationTimeMicros ≤ now

instance (d : Document) (now : Int) : Decidable (d.HasExpired now) := instDecidableAnd

/-- A searcher, and its entry in `searcherUpdateTimesMicros` or 0. -/
structure Searcher where
  docs : List Document
  updateTime : Int
deriving DecidableEq

/-- A run of `applyDocumentExpirationPolicy`: its searcher, the time of its query, and the
latest versions that it has looked up. -/
structure Pass where
  searcher : Searcher
  now : Int
  latestVersions : List (String × Int)
deriving DecidableEq

/-- A deletion of all versions of a link: those in the index then, and the time. -/
structure Deleted where
  docs : List Document
  now : Int
deriving DecidableEq

/-- The index service. `deletions` is not in the source: what expiration has deleted. -/
structure Shared where
  now : Int
  nextId : Nat
  docs : List Document
  cache : Cache
  searchers : List Searcher
  deletions : List Deleted

/-! ## `applyDocumentExpirationPolicy` -/

inductive Task where
  | maintain
  | pass (p : Pass)
  | queryIndexForVersion (p : Pass) (d : Document)
  | deleteAllDocuments (p : Pass) (d : Document)
  | recordDelete (p : Pass) (d : Document)
  | removeEntry (p : Pass) (d : Document)

/-- What a task meets: a searcher, the next hit, the description and kind of a document, a
time. -/
inductive Answer where
  | go
  | searcher (n : Nat)
  | hit (d : Document)
  | described (isImmutable : Bool) (kind : Option String) (t : Int)

/-- What else happens to the index: documents are added, versions of a link up to a bound are
deleted (by retention, or all of them by a forced update), searchers are opened. Updates,
queries and evictions write the cache; what they leave there is not restricted. -/
inductive Input where
  | addDocument (v : Version)
  | deleteVersions (link : String) (newestVersion : Int)
  | openSearcher (updateTime : Int)
  | writeCache (c : Cache)
  | tick (t : Int)
  | maintain

/-- The document with the highest version, in a searcher. -/
def latestDoc (x : Searcher) (link : String) : Option Document :=
  (x.docs.filter fun d => d.link = link).argmax fun d => d.version

/-- `latestVersions.put`. -/
def Pass.put (p : Pass) (link : String) (latestVersion : Int) : Pass :=
  { p with latestVersions := (link, latestVersion) :: p.latestVersions }

/-- What is done with a hit whose latest version is known. -/
def Pass.decide (p : Pass) (d : Document) (latestVersion : Int) : Task :=
  if (d.version : Int) < latestVersion then .pass p else .deleteAllDocuments p d

/-- `Long.MAX_VALUE`. -/
def maxVersion : Int := 2 ^ 63 - 1

def fire (s : Shared) : Task → Answer → Option (Shared × List Task)
  | .maintain, .searcher n => s.searchers[n]?.map fun x => (s, [.pass ⟨x, s.now, []⟩])
  -- there are no more hits, or the deadline is over
  | .pass _, .go => some (s, [])
  | .pass p, .hit d =>
      if d ∈ p.searcher.docs ∧ d.HasExpired p.now then
        match p.latestVersions.lookup d.link with
        | some latestVersion => some (s, [p.decide d latestVersion])
        | none =>
            match cachedVersion s.cache p.searcher.updateTime d.link 0 (-1) with
            | some latestVersion => some (s, [(p.put d.link latestVersion).decide d latestVersion])
            | none => some (s, [.queryIndexForVersion p d])
      else none
  | .queryIndexForVersion p d, .go =>
      match latestDoc p.searcher d.link with
      | none => some (s, [(p.put d.link 0).decide d 0])
      | some latest =>
          some ({ s with cache := s.cache.updateLinkInfoCache false d.link none latest.version
                          latest.documentUpdateTimeMicros },
            [(p.put d.link latest.version).decide d latest.version])
  | .deleteAllDocuments p d, .go =>
      some ({ s with docs := s.docs.filter fun d' => d'.link ≠ d.link
                     deletions := ⟨s.docs.filter fun d' => d'.link = d.link, s.now⟩ ::
                      s.deletions },
        [.recordDelete p d])
  | .recordDelete p d, .described isImmutable kind t =>
      some ({ s with cache := s.cache.updateLinkInfoCache isImmutable d.link kind maxVersion t },
        [.removeEntry p d])
  | .removeEntry p d, .described _ _ t =>
      some ({ s with cache := { s.cache.removeLinks [d.link] with
                writerUpdateTimeMicros := t, serviceRemovalDetectedTimeMicros := t } },
        [.pass p])
  | _, _ => none

def input (s : Shared) : Input → Shared × List Task
  | .addDocument v =>
      ({ s with nextId := s.nextId + 1, docs := s.docs ++ [⟨v, s.nextId⟩] }, [])
  | .deleteVersions link newestVersion =>
      ({ s with docs := s.docs.filter fun d =>
          ¬ (d.link = link ∧ (d.version : Int) ≤ newestVersion) }, [])
  | .openSearcher updateTime =>
      ({ s with searchers := ⟨s.docs, updateTime⟩ :: s.searchers }, [])
  | .writeCache c => ({ s with cache := c }, [])
  | .tick t => ({ s with now := max s.now t }, [])
  | .maintain => (s, [.maintain])

def machine : Machine Shared Task Input Answer := ⟨input, fire⟩

/-- The host has started: any documents are in the index, and the cache is empty. -/
def start (now : Int) (versions : List Version) : Pool Shared Task :=
  ⟨⟨now, versions.length, versions.zipIdx.map fun p => ⟨p.1, p.2⟩, {}, [], []⟩, []⟩

/-- **Only expired documents are deleted**: whatever version of the link was the latest when it
was deleted, had expired. -/
def ExpiredOnly (s : Shared) : Prop :=
  ∀ x ∈ s.deletions, ∀ d ∈ x.docs, (∀ d' ∈ x.docs, d'.version ≤ d.version) → d.HasExpired x.now

/-! ## When the pass is right -/

/-- No version of a link in a searcher is above this one. -/
def Searcher.NoneAbove (x : Searcher) (link : String) (version : Int) : Prop :=
  ∀ d ∈ x.docs, d.link = link → (d.version : Int) ≤ version

instance (x : Searcher) (link : String) (version : Int) : Decidable (x.NoneAbove link version) :=
  inferInstanceAs (Decidable (∀ d ∈ x.docs, d.link = link → (d.version : Int) ≤ version))

/-- What the steps of a pass have to meet. The version that the cache gives is not below those
of the searcher; documents with the version of the hit have expired with it; and when a link is
deleted, the index has no version of it that the searcher of the pass has not. -/
def Settled (s : Shared) : Task → Answer → Prop
  | .pass p, .hit d =>
      (p.latestVersions.lookup d.link = none →
        ∀ version ∈ cachedVersion s.cache p.searcher.updateTime d.link 0 (-1),
          p.searcher.NoneAbove d.link version) ∧
      ∀ d' ∈ p.searcher.docs, d'.link = d.link → d'.version = d.version → d'.HasExpired p.now
  | .deleteAllDocuments p d, _ => ∀ d' ∈ s.docs, d'.link = d.link → d' ∈ p.searcher.docs
  | _, _ => True

/-! ## The invariant -/

/-- Of what a searcher sees of a link, the lower versions go first. -/
structure Searcher.Ok (s : Shared) (x : Searcher) : Prop where
  ids : ∀ d ∈ x.docs, d.id < s.nextId
  upward : ∀ d ∈ x.docs, d ∈ s.docs → ∀ d' ∈ x.docs, d'.link = d.link →
    d.version ≤ d'.version → d' ∈ s.docs

structure Pass.Ok (s : Shared) (p : Pass) : Prop where
  searcher : p.searcher ∈ s.searchers
  now : p.now ≤ s.now
  latest : ∀ e ∈ p.latestVersions, p.searcher.NoneAbove e.1 e.2

/-- A hit: all documents of its version have expired. -/
structure Pass.Hit (p : Pass) (d : Document) : Prop where
  mem : d ∈ p.searcher.docs
  expired : ∀ d' ∈ p.searcher.docs, d'.link = d.link → d'.version = d.version →
    d'.HasExpired p.now

def Task.Ok (s : Shared) : Task → Prop
  | .maintain => True
  | .pass p | .recordDelete p _ | .removeEntry p _ => p.Ok s
  | .queryIndexForVersion p d => p.Ok s ∧ p.Hit d
  | .deleteAllDocuments p d => p.Ok s ∧ p.Hit d ∧ p.searcher.NoneAbove d.link d.version

structure Inv (s : Shared) (ts : List Task) : Prop where
  ids : ∀ d ∈ s.docs, d.id < s.nextId
  searchers : ∀ x ∈ s.searchers, x.Ok s
  tasks : ∀ t ∈ ts, t.Ok s
  deletions : ExpiredOnly s

section

variable {s s' : Shared} {t : Task} {ts : List Task}

theorem Pass.Ok.later {p : Pass} (h : p.Ok s) (hnow : s.now ≤ s'.now)
    (hsearchers : s.searchers ⊆ s'.searchers) : p.Ok s' :=
  ⟨hsearchers h.searcher, h.now.trans hnow, h.latest⟩

theorem Task.Ok.later (h : t.Ok s) (hnow : s.now ≤ s'.now)
    (hsearchers : s.searchers ⊆ s'.searchers) : t.Ok s' := by
  cases t with
  | maintain => trivial
  | pass p => exact Pass.Ok.later h hnow hsearchers
  | queryIndexForVersion p d => exact ⟨h.1.later hnow hsearchers, h.2⟩
  | deleteAllDocuments p d => exact ⟨h.1.later hnow hsearchers, h.2⟩
  | recordDelete p d => exact Pass.Ok.later h hnow hsearchers
  | removeEntry p d => exact Pass.Ok.later h hnow hsearchers

theorem Searcher.Ok.of_eq {x : Searcher} (h : x.Ok s) (hid : s'.nextId = s.nextId)
    (hdocs : s'.docs = s.docs) : x.Ok s' where
  ids d hd := hid.symm ▸ h.ids d hd
  upward := by
    rw [hdocs]
    exact h.upward

/-- A step that writes at most the cache. -/
theorem Inv.quiet (h : Inv s (t :: ts)) (c : Cache) {new : List Task}
    (hnew : ∀ t ∈ new, t.Ok s) : Inv { s with cache := c } (new ++ ts) where
  ids := h.ids
  searchers x hx := (h.searchers x hx).of_eq rfl rfl
  tasks u hu := by
    have hu : u.Ok s := by
      rcases List.mem_append.mp hu with hu | hu
      · exact hnew u hu
      · exact h.tasks u (List.mem_cons_of_mem _ hu)
    exact hu.later le_rfl (List.Subset.refl _)
  deletions := h.deletions

/-- A task goes on with another one. -/
theorem Inv.goesOn (h : Inv s (t :: ts)) (c : Cache) {u : Task} (hu : u.Ok s) :
    Inv { s with cache := c } ([u] ++ ts) :=
  h.quiet c (List.forall_mem_singleton.mpr hu)

/-- Documents are deleted, of every link the lower versions first. -/
theorem Searcher.Ok.filter {x : Searcher} (h : x.Ok s) {keep : Document → Bool}
    {deletions : List Deleted}
    (hkeep : ∀ d d' : Document, d'.link = d.link → d.version ≤ d'.version →
      keep d = true → keep d' = true) :
    x.Ok { s with docs := s.docs.filter keep, deletions := deletions } where
  ids := h.ids
  upward d hd hmem d' hd' hlink hle := by
    have hmem := List.mem_filter.mp hmem
    exact List.mem_filter.mpr
      ⟨h.upward d hd hmem.1 d' hd' hlink hle, hkeep d d' hlink hle hmem.2⟩

/-! ## Hits -/

theorem noneAbove_of_latestDoc {x : Searcher} {link : String} {latest : Document}
    (h : latestDoc x link = some latest) : x.NoneAbove link latest.version := by
  intro d hd hlink
  have hle : d.version ≤ latest.version :=
    List.le_of_mem_argmax (f := fun d : Document => d.version)
      (List.mem_filter.mpr ⟨hd, decide_eq_true hlink⟩) h
  exact Int.ofNat_le.mpr hle

theorem noneAbove_of_latestDoc_none {x : Searcher} {link : String} (h : latestDoc x link = none)
    (version : Int) : x.NoneAbove link version := by
  intro d hd hlink
  have hnil := List.argmax_eq_none.mp h
  have hmem : d ∈ x.docs.filter fun d => d.link = link :=
    List.mem_filter.mpr ⟨hd, decide_eq_true hlink⟩
  rw [hnil] at hmem
  cases hmem

theorem Pass.Ok.put {p : Pass} (h : p.Ok s) {link : String} {version : Int}
    (hnone : p.searcher.NoneAbove link version) : (p.put link version).Ok s where
  searcher := h.searcher
  now := h.now
  latest e he := by
    rcases List.mem_cons.mp he with rfl | he
    · exact hnone
    · exact h.latest e he

/-- A hit that is not below the latest version has the highest version of the searcher. -/
theorem Pass.Ok.decide {p : Pass} {d : Document} (h : p.Ok s) (hhit : p.Hit d) {version : Int}
    (hnone : p.searcher.NoneAbove d.link version) : (p.decide d version).Ok s := by
  unfold Pass.decide
  split
  · exact h
  · refine ⟨h, hhit, fun d' hd' hlink => ?_⟩
    have := hnone d' hd' hlink
    omega

/-- The same when the latest version has just been looked up. -/
theorem Pass.Ok.decide_put {p : Pass} {d : Document} (h : p.Ok s) (hhit : p.Hit d)
    {version : Int} (hnone : p.searcher.NoneAbove d.link version) :
    ((p.put d.link version).decide d version).Ok s :=
  (h.put hnone).decide ⟨hhit.mem, hhit.expired⟩ hnone

/-! ## Steps -/

/-- The deletion of a link: its latest version has expired, whether it is the hit itself or all
of them are gone. -/
theorem Inv.deleteAllDocuments {p : Pass} {d : Document}
    (h : Inv s (.deleteAllDocuments p d :: ts))
    (hsettled : ∀ d' ∈ s.docs, d'.link = d.link → d' ∈ p.searcher.docs) :
    Inv { s with docs := s.docs.filter fun d' => d'.link ≠ d.link
                 deletions := ⟨s.docs.filter fun d' => d'.link = d.link, s.now⟩ :: s.deletions }
      ([.recordDelete p d] ++ ts) where
  ids d' hd' := h.ids d' (List.mem_filter.mp hd').1
  searchers x hx := (h.searchers x hx).filter fun d₁ d₂ hlink _ hne => by
    rw [decide_eq_true_eq] at hne ⊢
    rwa [hlink]
  tasks u hu := by
    rcases List.mem_cons.mp hu with rfl | hu
    · exact (h.tasks _ List.mem_cons_self).1.later le_rfl (List.Subset.refl _)
    · exact (h.tasks u (List.mem_cons_of_mem _ hu)).later le_rfl (List.Subset.refl _)
  deletions x hx := by
    rcases List.mem_cons.mp hx with rfl | hx
    · intro m hm hhighest
      obtain ⟨hp, hhit, hnone⟩ := h.tasks _ List.mem_cons_self
      obtain ⟨hmdocs, hmlink⟩ := List.mem_filter.mp hm
      have hmlink := of_decide_eq_true hmlink
      have hmsearcher := hsettled m hmdocs hmlink
      -- what is left of the searcher's versions has the hit among it
      have hmd : m.version ≤ d.version := Int.ofNat_le.mp (hnone m hmsearcher hmlink)
      have hd : d ∈ s.docs := (h.searchers _ hp.searcher).upward m hmsearcher hmdocs d hhit.mem
        hmlink.symm hmd
      have hdm : d.version ≤ m.version := hhighest d (List.mem_filter.mpr ⟨hd, by simp⟩)
      obtain ⟨hpos, hle⟩ := hhit.expired m hmsearcher hmlink (le_antisymm hmd hdm)
      exact ⟨hpos, hle.trans hp.now⟩
    · exact h.deletions x hx

theorem Inv.hit {p : Pass} {d : Document} {r : Shared × List Task}
    (h : Inv s (.pass p :: ts)) (hsettled : Settled s (.pass p) (.hit d))
    (hfire : fire s (.pass p) (.hit d) = some r) : Inv r.1 (r.2 ++ ts) := by
  have hp : p.Ok s := h.tasks _ List.mem_cons_self
  obtain ⟨hcache, hsame⟩ := hsettled
  simp only [fire] at hfire
  split at hfire
  next hmem =>
    have hhit : p.Hit d := ⟨hmem.1, hsame⟩
    split at hfire
    · rename_i version hlookup
      obtain rfl := Option.some.inj hfire
      exact h.goesOn _ (hp.decide hhit (hp.latest _ (mem_of_lookup hlookup)))
    · rename_i hlookup
      split at hfire
      · rename_i version hcached
        obtain rfl := Option.some.inj hfire
        exact h.goesOn _ (hp.decide_put hhit (hcache hlookup version hcached))
      · obtain rfl := Option.some.inj hfire
        exact h.goesOn _ ⟨hp, hhit⟩
  next => cases hfire

theorem Inv.queryIndexForVersion {p : Pass} {d : Document} {r : Shared × List Task}
    (h : Inv s (.queryIndexForVersion p d :: ts))
    (hfire : fire s (.queryIndexForVersion p d) .go = some r) : Inv r.1 (r.2 ++ ts) := by
  obtain ⟨hp, hhit⟩ := h.tasks _ List.mem_cons_self
  simp only [fire] at hfire
  split at hfire
  · rename_i hlatest
    obtain rfl := Option.some.inj hfire
    exact h.goesOn _ (hp.decide_put hhit (noneAbove_of_latestDoc_none hlatest 0))
  · rename_i latest hlatest
    obtain rfl := Option.some.inj hfire
    exact h.goesOn _ (hp.decide_put hhit (noneAbove_of_latestDoc hlatest))

theorem Inv.fire {k : Answer} {r : Shared × List Task} (h : Inv s (t :: ts))
    (hsettled : Settled s t k) (hfire : fire s t k = some r) : Inv r.1 (r.2 ++ ts) := by
  cases t with
  | maintain =>
      cases k with
      | searcher n =>
          obtain ⟨x, hx, rfl⟩ := Option.map_eq_some_iff.mp hfire
          exact h.goesOn s.cache ⟨List.mem_of_getElem? hx, le_rfl, by simp⟩
      | go | hit | described => cases hfire
  | pass p =>
      cases k with
      | go =>
          obtain rfl := Option.some.inj hfire
          exact h.quiet s.cache (by simp)
      | hit d => exact h.hit hsettled hfire
      | searcher | described => cases hfire
  | queryIndexForVersion p d =>
      cases k with
      | go => exact h.queryIndexForVersion hfire
      | searcher | hit | described => cases hfire
  | deleteAllDocuments p d =>
      cases k with
      | go =>
          obtain rfl := Option.some.inj hfire
          exact h.deleteAllDocuments hsettled
      | searcher | hit | described => cases hfire
  | recordDelete p d =>
      have hp : p.Ok s := h.tasks _ List.mem_cons_self
      cases k with
      | described isImmutable kind t =>
          obtain rfl := Option.some.inj hfire
          exact h.goesOn _ hp
      | go | searcher | hit => cases hfire
  | removeEntry p d =>
      have hp : p.Ok s := h.tasks _ List.mem_cons_self
      cases k with
      | described isImmutable kind t =>
          obtain rfl := Option.some.inj hfire
          exact h.goesOn _ hp
      | go | searcher | hit => cases hfire

/-! What other requests do to the index. -/

theorem Inv.addDocument (h : Inv s ts) (v : Version) :
    Inv { s with nextId := s.nextId + 1, docs := s.docs ++ [⟨v, s.nextId⟩] } ts where
  ids d hd := by
    rcases List.mem_append.mp hd with hd | hd
    · exact (h.ids d hd).trans (Nat.lt_succ_self _)
    · obtain rfl := List.mem_singleton.mp hd
      exact Nat.lt_succ_self _
  searchers x hx := by
    obtain ⟨hids, hupward⟩ := h.searchers x hx
    refine ⟨fun d hd => (hids d hd).trans (Nat.lt_succ_self _), ?_⟩
    intro d hd hmem d' hd' hlink hle
    -- the new document is in no searcher
    rcases List.mem_append.mp hmem with hmem | hmem
    · exact List.mem_append_left _ (hupward d hd hmem d' hd' hlink hle)
    · obtain rfl := List.mem_singleton.mp hmem
      exact absurd (hids _ hd) (lt_irrefl _)
  tasks u hu := (h.tasks u hu).later le_rfl (List.Subset.refl _)
  deletions := h.deletions

theorem Inv.deleteVersions (h : Inv s ts) (link : String) (newestVersion : Int) :
    Inv { s with docs := s.docs.filter fun d =>
      ¬ (d.link = link ∧ (d.version : Int) ≤ newestVersion) } ts where
  ids d hd := h.ids d (List.mem_filter.mp hd).1
  searchers x hx := by
    refine (h.searchers x hx).filter fun d d' hlink hle hkeep => ?_
    rw [decide_eq_true_eq] at hkeep ⊢
    rintro ⟨hlink', hnewest⟩
    exact hkeep ⟨hlink.symm.trans hlink', by omega⟩
  tasks u hu := (h.tasks u hu).later le_rfl (List.Subset.refl _)
  deletions := h.deletions

theorem Inv.openSearcher (h : Inv s ts) (updateTime : Int) :
    Inv { s with searchers := ⟨s.docs, updateTime⟩ :: s.searchers } ts where
  ids := h.ids
  searchers x hx := by
    rcases List.mem_cons.mp hx with rfl | hx
    · exact ⟨h.ids, fun _ _ _ d' hd' _ _ => hd'⟩
    · exact (h.searchers x hx).of_eq rfl rfl
  tasks u hu := (h.tasks u hu).later le_rfl (List.subset_cons_self _ _)
  deletions := h.deletions

theorem Inv.input (i : Input) (h : Inv s ts) : Inv (input s i).1 ((input s i).2 ++ ts) := by
  cases i with
  | addDocument v => exact h.addDocument v
  | deleteVersions link newestVersion => exact h.deleteVersions link newestVersion
  | openSearcher updateTime => exact h.openSearcher updateTime
  | writeCache c =>
      exact ⟨h.ids, fun x hx => (h.searchers x hx).of_eq rfl rfl,
        fun u hu => (h.tasks u hu).later le_rfl (List.Subset.refl _), h.deletions⟩
  | tick t =>
      exact ⟨h.ids, fun x hx => (h.searchers x hx).of_eq rfl rfl,
        fun u hu => (h.tasks u hu).later (le_max_left _ _) (List.Subset.refl _), h.deletions⟩
  | maintain =>
      refine ⟨h.ids, h.searchers, fun u hu => ?_, h.deletions⟩
      rcases List.mem_cons.mp hu with rfl | hu
      · trivial
      · exact h.tasks u hu

theorem inv_start (now : Int) (versions : List Version) :
    Inv (start now versions).shared (start now versions).tasks where
  ids d hd := by
    obtain ⟨⟨v, i⟩, hmem, rfl⟩ := List.mem_map.mp hd
    simpa [start] using List.snd_lt_of_mem_zipIdx hmem
  searchers := by simp [start]
  tasks := by simp [start]
  deletions := by simp [ExpiredOnly, start]

end

/-- **Expiration deletes only expired documents**, in every run in which no version of a link is
added between the opening of the searcher of a pass and the deletion, and the cache is not
behind that searcher. -/
theorem expired_only {now : Int} {versions : List Version} {p : Pool Shared Task}
    (h : machine.Reaches Settled (start now versions) p) : ExpiredOnly p.shared := by
  refine (Machine.invariant Inv h (fun {s ts ts'} hperm hinv => ?_) (inv_start now versions)
    (fun i hinv => hinv.input i) fun hsettled hfire hinv => hinv.fire hsettled hfire).deletions
  exact ⟨hinv.ids, hinv.searchers, fun t ht => hinv.tasks t (hperm.mem_iff.mpr ht),
    hinv.deletions⟩

/-! ## An extension that comes too late -/

section

instance (s : Shared) : ∀ t k, Decidable (Settled s t k)
  | .pass p, .hit d => inferInstanceAs (Decidable
      ((p.latestVersions.lookup d.link = none →
        ∀ version ∈ cachedVersion s.cache p.searcher.updateTime d.link 0 (-1),
          p.searcher.NoneAbove d.link version) ∧
        ∀ d' ∈ p.searcher.docs, d'.link = d.link → d'.version = d.version → d'.HasExpired p.now))
  | .deleteAllDocuments p d, _ => inferInstanceAs (Decidable
      (∀ d' ∈ s.docs, d'.link = d.link → d' ∈ p.searcher.docs))
  | .pass _, .go | .pass _, .searcher _ | .pass _, .described _ _ _ => isTrue trivial
  | .maintain, _ | .queryIndexForVersion _ _, _ | .recordDelete _ _, _ | .removeEntry _ _, _ =>
      isTrue trivial

/-- A version of a document with an expiration time. -/
def lease (version : Nat) (expiration : Int) : Version := ⟨"/leases/a", version, 0, expiration⟩

/-- A document that has expired, of which the cache knows nothing. -/
theorem expired_only_lease : ∃ p, machine.Reaches Settled (start 10 [lease 0 5]) p ∧
    ExpiredOnly p.shared ∧ p.shared.deletions = [⟨[⟨lease 0 5, 0⟩], 10⟩] := by
  obtain ⟨p, hp⟩ : ∃ p, machine.exec Settled (start 10 [lease 0 5])
      [.input (.openSearcher 1), .input .maintain, .fire 0 (.searcher 0),
        .fire 0 (.hit ⟨lease 0 5, 0⟩), .fire 0 .go, .fire 0 .go] = some p := ⟨_, rfl⟩
  have hreach := Machine.reaches_of_exec hp
  refine ⟨p, hreach, expired_only hreach, ?_⟩
  cases hp
  rfl

/-- The lease is extended after the pass has looked its latest version up: the extended version
is deleted too. -/
theorem expiration_deletes_extended : ¬ ∀ (now : Int) (versions : List Version)
    (p : Pool Shared Task), machine.Reaches (fun _ _ _ => True) (start now versions) p →
      ExpiredOnly p.shared := by
  intro h
  obtain ⟨p, hp⟩ : ∃ p, machine.exec (fun _ _ _ => True) (start 10 [lease 0 5])
      [.input (.openSearcher 1), .input .maintain, .fire 0 (.searcher 0),
        .fire 0 (.hit ⟨lease 0 5, 0⟩), .fire 0 .go, .input (.addDocument (lease 1 100)),
        .fire 0 .go] = some p := ⟨_, rfl⟩
  have hdeleted : p.shared.deletions = [⟨[⟨lease 0 5, 0⟩, ⟨lease 1 100, 1⟩], 10⟩] := by
    cases hp
    rfl
  have hexpired := h 10 [lease 0 5] p (Machine.reaches_of_exec hp)
    ⟨[⟨lease 0 5, 0⟩, ⟨lease 1 100, 1⟩], 10⟩ (by rw [hdeleted]; simp) ⟨lease 1 100, 1⟩
    (by simp) (by simp [lease])
  revert hexpired
  decide

end

end Xenon.Index.Expiration

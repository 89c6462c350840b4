import Mathlib.Data.Finset.Max
import Mathlib.Data.Int.Interval
import Xenon.Foundation.Run

/-!
# Version retention

An update that takes a document across a threshold records, in
`liveVersionsPerLink`, up to which version the document can be deleted. Maintenance
takes the record out of the map and deletes these versions later on. The operations
that delete the whole history of a link leave the record where it is, so that it can
meet the versions of the next incarnation.
-/

namespace Xenon.Index.Retention

open Xenon.Foundation

/-! ## `checkDocumentRetentionLimit` -/

/-- `FIELD_VALUE_DISABLED_VERSION_RETENTION`: `Long.MIN_VALUE`. -/
def disabledVersionRetention : Int := -2 ^ 63

/-- The retention settings of a document description. -/
structure Policy where
  versionRetentionLimit : Int
  versionRetentionFloor : Int
deriving DecidableEq

def Policy.limit (p : Policy) : Int := max 1 p.versionRetentionLimit

/-- The number of versions that are kept at least. -/
def Policy.floor (p : Policy) : Int := min (max 1 p.versionRetentionFloor) p.limit

/-- The record of a link after `checkDocumentRetentionLimit`. -/
def checkDocumentRetentionLimit (p : Policy) (version : Int) (currentValue : Option Int) :
    Option Int :=
  if p.versionRetentionLimit = disabledVersionRetention then currentValue
  else if version < p.limit then currentValue
  else if (version - p.limit) % max 1 (p.limit - p.floor) ≠ 0 then currentValue
  else
    let newValue := version - p.floor
    match currentValue with
    | none => some newValue
    | some currentValue => some (if newValue > currentValue then newValue else currentValue)

theorem Policy.one_le_floor (p : Policy) : 1 ≤ p.floor := by
  unfold Policy.floor Policy.limit
  omega

/-- A record is an earlier one, or follows from the version that is checked. -/
theorem checkDocumentRetentionLimit_cases {p : Policy} {version bound : Int}
    {currentValue : Option Int}
    (h : checkDocumentRetentionLimit p version currentValue = some bound) :
    currentValue = some bound ∨ bound = version - p.floor := by
  unfold checkDocumentRetentionLimit at h
  split_ifs at h
  · exact Or.inl h
  · exact Or.inl h
  · exact Or.inl h
  · cases currentValue with
    | none => exact Or.inr (Option.some.inj h).symm
    | some current =>
        simp only [Option.some.injEq] at h
        split_ifs at h
        · exact Or.inr h.symm
        · exact Or.inl (congrArg some h)

/-! ## The index -/

/-- The versions in the index, the records, the updates whose check is still to be made, and the
deletions that a retention pass has taken out of the map. -/
structure System where
  versions : String → Finset Int
  liveVersionsPerLink : String → Option Int
  checks : List (String × Int)
  passes : List (String × Int)

/-- What can happen, in any order. An update with `FORCE_INDEX_UPDATE` is `forcedPost`, then
`addDocument`. -/
inductive Event where
  | forcedPost (link : String)
  | addDocument (link : String) (version : Int)
  | check (n : Nat)
  | collect (link : String)
  | deleteVersions (n : Nat)
  | expire (link : String)
  | restart

/-- `deleteDocumentFromIndex`. -/
def deleteDocumentFromIndex (s : System) (link : String) (oldestVersion newestVersion : Int) :
    System :=
  { s with
    versions := Function.update s.versions link
      ((s.versions link).filter fun v => ¬ (oldestVersion ≤ v ∧ v ≤ newestVersion)) }

/-- Delete the history of a link, as `deleteAllDocumentsForSelfLinkForcedPost` and
`deleteAllDocumentsForSelfLink` do. The record of the link stays. -/
def deleteAllDocumentsForSelfLink (s : System) (link : String) : System :=
  { s with versions := Function.update s.versions link ∅ }

def step (policy : String → Policy) (s : System) : Event → Option System
  | .forcedPost link => some (deleteAllDocumentsForSelfLink s link)
  | .addDocument link version =>
      some { s with versions := Function.update s.versions link (insert version (s.versions link))
                    checks := (link, version) :: s.checks }
  | .check n =>
      match s.checks[n]? with
      | none => none
      | some (link, version) =>
          some { s with
            liveVersionsPerLink := Function.update s.liveVersionsPerLink link
              (checkDocumentRetentionLimit (policy link) version (s.liveVersionsPerLink link))
            checks := s.checks.eraseIdx n }
  | .collect link =>
      match s.liveVersionsPerLink link with
      | none => none
      | some bound =>
          some { s with liveVersionsPerLink := Function.update s.liveVersionsPerLink link none
                        passes := (link, bound) :: s.passes }
  | .deleteVersions n =>
      match s.passes[n]? with
      | none => none
      | some (link, bound) =>
          some { deleteDocumentFromIndex s link 0 bound with passes := s.passes.eraseIdx n }
  | .expire link => some (deleteAllDocumentsForSelfLink s link)
  | .restart => some ⟨s.versions, fun _ => none, [], []⟩

def start : System := ⟨fun _ => ∅, fun _ => none, [], []⟩

/-- Nothing is recorded, checked or deleted for a link. -/
def Quiet (s : System) (link : String) : Prop :=
  s.liveVersionsPerLink link = none ∧ (∀ c ∈ s.checks, c.1 ≠ link) ∧ ∀ d ∈ s.passes, d.1 ≠ link

/-- The first version of an incarnation is indexed when retention has nothing more to do with
the link. Later versions are not lower, and follow the ones in the index without a gap. -/
def Fresh (s : System) : Event → Prop
  | .addDocument link version =>
      (s.versions link = ∅ ∧ Quiet s link) ∨
        ((∃ v ∈ s.versions link, v ≤ version) ∧ ∃ v ∈ s.versions link, version ≤ v + 1)
  | _ => True

/-! ## The newest versions -/

/-- Of the versions of a link, one of the newest `n`: less than `n` are newer. -/
def Newest (n : Int) (versions : Finset Int) (v : Int) : Prop :=
  ((versions.filter (v < ·)).card : Int) < n

/-- The versions of an incarnation with highest version `h`: above any of them, the last `n` up
to `h` are all there. -/
structure Incarnation (n : Int) (versions : Finset Int) (h : Int) : Prop where
  mem : h ∈ versions
  le : ∀ v ∈ versions, v ≤ h
  full : ∀ v ∈ versions, ∀ w, v < w → w ≤ h → h - n < w → w ∈ versions

section

variable {n h : Int} {versions : Finset Int}

theorem incarnation_singleton (n v : Int) : Incarnation n {v} v where
  mem := Finset.mem_singleton_self v
  le _ hw := (Finset.mem_singleton.mp hw).le
  full w hw x hwx hx _ := by
    rw [Finset.mem_singleton] at hw
    omega

/-- A version that follows without a gap. -/
theorem Incarnation.insert (hinc : Incarnation n versions h) {v : Int}
    (hlow : ∃ w ∈ versions, w ≤ v) (hhigh : ∃ w ∈ versions, v ≤ w + 1) :
    Incarnation n (insert v versions) (max h v) where
  mem := by
    rcases le_total v h with hle | hle
    · rw [max_eq_left hle]
      exact Finset.mem_insert_of_mem hinc.mem
    · rw [max_eq_right hle]
      exact Finset.mem_insert_self _ _
  le w hw := by
    rcases Finset.mem_insert.mp hw with rfl | hw
    · exact le_max_right _ _
    · exact (hinc.le w hw).trans (le_max_left _ _)
  full w hw x hwx hx hn := by
    obtain ⟨low, hlow, hlowv⟩ := hlow
    obtain ⟨high, hhigh, hvhigh⟩ := hhigh
    have hhigh := hinc.le high hhigh
    rw [Finset.mem_insert, or_iff_not_imp_left]
    intro hne
    -- the versions above `v`, if `v` is not the highest, are above `low` too
    rcases Finset.mem_insert.mp hw with rfl | hw
    · exact hinc.full low hlow x (by omega) (by omega) (by omega)
    · exact hinc.full w hw x hwx (by omega) (by omega)

/-- What is deleted is below the last `n` versions. -/
theorem Incarnation.filter (hinc : Incarnation n versions h) {bound : Int} (hn : 1 ≤ n)
    (hbound : bound ≤ h - n) :
    Incarnation n (versions.filter fun v => ¬ (0 ≤ v ∧ v ≤ bound)) h where
  mem := Finset.mem_filter.mpr ⟨hinc.mem, by omega⟩
  le v hv := hinc.le v (Finset.mem_filter.mp hv).1
  full v hv w hvw hw hlast := by
    rw [Finset.mem_filter] at hv ⊢
    exact ⟨hinc.full v hv.1 w hvw hw hlast, by omega⟩

/-- So none of the newest `n` versions is deleted. -/
theorem Incarnation.not_newest (hinc : Incarnation n versions h) {v bound : Int}
    (hv : v ∈ versions) (hle : v ≤ bound) (hbound : bound ≤ h - n) :
    ¬ Newest n versions v := by
  have hsub : Finset.Ioc (h - n) h ⊆ versions.filter (v < ·) := by
    intro w hw
    rw [Finset.mem_Ioc] at hw
    exact Finset.mem_filter.mpr
      ⟨hinc.full v hv w (by omega) hw.2 hw.1, by omega⟩
  have hcard := Finset.card_le_card hsub
  rw [Int.card_Ioc] at hcard
  unfold Newest
  omega

end

/-! ## The records fit the versions -/

/-- The invariant of a link: it has no versions, or what retention has recorded, will record or
is about to delete spares the last versions. -/
structure Fits (p : Policy) (s : System) (link : String) (h : Int) : Prop where
  incarnation : Incarnation p.floor (s.versions link) h
  record : ∀ bound, s.liveVersionsPerLink link = some bound → bound ≤ h - p.floor
  check : ∀ v, (link, v) ∈ s.checks → v ≤ h
  pass : ∀ bound, (link, bound) ∈ s.passes → bound ≤ h - p.floor

def Sound (policy : String → Policy) (s : System) : Prop :=
  ∀ link, s.versions link = ∅ ∨ ∃ h, Fits (policy link) s link h

section

variable {policy : String → Policy} {s s' : System}

/-- The deletion of a history. -/
theorem Sound.deleteAll (hs : Sound policy s) (link : String) :
    Sound policy (deleteAllDocumentsForSelfLink s link) := by
  intro other
  unfold deleteAllDocumentsForSelfLink
  rcases eq_or_ne other link with rfl | hne
  · exact Or.inl (Function.update_self ..)
  · rcases hs other with hempty | ⟨h, hinc, hrecord, hcheck, hpass⟩
    · exact Or.inl (by simpa [Function.update_of_ne hne] using hempty)
    · exact Or.inr ⟨h, by simpa [Function.update_of_ne hne] using hinc, hrecord, hcheck, hpass⟩

theorem Sound.addDocument (hs : Sound policy s) {link : String} {version : Int}
    (hfresh : Fresh s (.addDocument link version))
    (hstep : step policy s (.addDocument link version) = some s') : Sound policy s' := by
  obtain rfl := Option.some.inj hstep
  intro other
  rcases eq_or_ne other link with rfl | hne
  · right
    rcases hfresh with ⟨hempty, hrecord, hchecks, hpasses⟩ | ⟨hlow, hhigh⟩
    · refine ⟨version, ?_, ?_, ?_, ?_⟩
      · simpa [hempty] using incarnation_singleton _ version
      · intro bound hbound
        rw [show s.liveVersionsPerLink other = some bound from hbound] at hrecord
        cases hrecord
      · intro v hv
        rcases List.mem_cons.mp hv with heq | hv
        · exact (Prod.mk.inj heq).2.le
        · exact absurd rfl (hchecks _ hv)
      · intro bound hbound
        exact absurd rfl (hpasses _ hbound)
    · rcases hs other with hempty | ⟨h, hinc, hrecord, hcheck, hpass⟩
      · obtain ⟨v, hv, -⟩ := hlow
        rw [hempty] at hv
        exact absurd hv (Finset.notMem_empty v)
      · refine ⟨max h version, ?_, ?_, ?_, ?_⟩
        · simpa using hinc.insert hlow hhigh
        · intro bound hbound
          have := hrecord bound hbound
          omega
        · intro v hv
          rcases List.mem_cons.mp hv with heq | hv
          · have := (Prod.mk.inj heq).2
            omega
          · have := hcheck v hv
            omega
        · intro bound hbound
          have := hpass bound hbound
          omega
  · rcases hs other with hempty | ⟨h, hinc, hrecord, hcheck, hpass⟩
    · exact Or.inl (by simpa [Function.update_of_ne hne] using hempty)
    · refine Or.inr ⟨h, by simpa [Function.update_of_ne hne] using hinc, hrecord, ?_, hpass⟩
      intro v hv
      rcases List.mem_cons.mp hv with heq | hv
      · exact absurd (Prod.mk.inj heq).1 hne
      · exact hcheck v hv

theorem Sound.check (hs : Sound policy s) {n : Nat}
    (hstep : step policy s (.check n) = some s') : Sound policy s' := by
  simp only [step] at hstep
  split at hstep
  · cases hstep
  · rename_i link version hchecked
    obtain rfl := Option.some.inj hstep
    have hmem : (link, version) ∈ s.checks := List.mem_of_getElem? hchecked
    intro other
    rcases hs other with hempty | ⟨h, hinc, hrecord, hcheck, hpass⟩
    · exact Or.inl hempty
    · refine Or.inr ⟨h, hinc, ?_, fun v hv => hcheck v (List.mem_of_mem_eraseIdx hv), hpass⟩
      intro bound hbound
      dsimp only at hbound
      rcases eq_or_ne other link with rfl | hne
      · rw [Function.update_self] at hbound
        rcases checkDocumentRetentionLimit_cases hbound with hold | hnew
        · exact hrecord bound hold
        · have := hcheck version hmem
          omega
      · rw [Function.update_of_ne hne] at hbound
        exact hrecord bound hbound

theorem Sound.collect (hs : Sound policy s) {link : String}
    (hstep : step policy s (.collect link) = some s') : Sound policy s' := by
  simp only [step] at hstep
  split at hstep
  · cases hstep
  · rename_i bound hbound
    obtain rfl := Option.some.inj hstep
    intro other
    rcases hs other with hempty | ⟨h, hinc, hrecord, hcheck, hpass⟩
    · exact Or.inl hempty
    · refine Or.inr ⟨h, hinc, ?_, hcheck, ?_⟩
      · intro b hb
        dsimp only at hb
        rcases eq_or_ne other link with rfl | hne
        · rw [Function.update_self] at hb
          cases hb
        · rw [Function.update_of_ne hne] at hb
          exact hrecord b hb
      · intro b hb
        rcases List.mem_cons.mp hb with heq | hb
        · obtain ⟨rfl, rfl⟩ := Prod.mk.inj heq
          exact hrecord b hbound
        · exact hpass b hb

theorem Sound.deleteVersions (hs : Sound policy s) {n : Nat}
    (hstep : step policy s (.deleteVersions n) = some s') : Sound policy s' := by
  simp only [step] at hstep
  split at hstep
  · cases hstep
  · rename_i link bound htaken
    obtain rfl := Option.some.inj hstep
    have hmem : (link, bound) ∈ s.passes := List.mem_of_getElem? htaken
    intro other
    unfold deleteDocumentFromIndex
    rcases hs other with hempty | ⟨h, hinc, hrecord, hcheck, hpass⟩
    · left
      rcases eq_or_ne other link with rfl | hne
      · simp [hempty]
      · simpa [Function.update_of_ne hne] using hempty
    · refine Or.inr ⟨h, ?_, hrecord, hcheck, fun b hb => hpass b (List.mem_of_mem_eraseIdx hb)⟩
      dsimp only
      rcases eq_or_ne other link with rfl | hne
      · rw [Function.update_self]
        exact hinc.filter (policy other).one_le_floor (hpass bound hmem)
      · rwa [Function.update_of_ne hne]

/-- Every step keeps the records in line with the versions, if incarnations start afresh. -/
theorem Sound.step {e : Event} (hs : Sound policy s) (hfresh : Fresh s e)
    (hstep : step policy s e = some s') : Sound policy s' := by
  cases e with
  | forcedPost link =>
      obtain rfl := Option.some.inj hstep
      exact hs.deleteAll link
  | addDocument link version => exact hs.addDocument hfresh hstep
  | check n => exact hs.check hstep
  | collect link => exact hs.collect hstep
  | deleteVersions n => exact hs.deleteVersions hstep
  | expire link =>
      obtain rfl := Option.some.inj hstep
      exact hs.deleteAll link
  | restart =>
      obtain rfl := Option.some.inj hstep
      intro link
      rcases hs link with hempty | ⟨h, hinc, -, -, -⟩
      · exact Or.inl hempty
      · exact Or.inr ⟨h, hinc, by simp, by simp, by simp⟩

end

/-- A deletion of a retention pass spares the newest versions of every link. -/
def SparesNewest (policy : String → Policy) (s s' : System) : Prop :=
  ∀ link, ∀ v ∈ s.versions link, Newest (policy link).floor (s.versions link) v →
    v ∈ s'.versions link

/-- In every run in which incarnations start afresh, no retention pass deletes one of the newest
versions of a link. -/
theorem retention_spares_newest (policy : String → Policy) (es : List Event) (s s' : System)
    (n : Nat) (h : Reach (step policy) Fresh start es s)
    (hstep : step policy s (.deleteVersions n) = some s') : SparesNewest policy s s' := by
  have hsound : Sound policy s :=
    h.invariant (Sound policy) (fun _ => Or.inl rfl) fun hfresh hstep hs => hs.step hfresh hstep
  simp only [step] at hstep
  split at hstep
  · cases hstep
  · rename_i link bound htaken
    obtain rfl := Option.some.inj hstep
    have hmem : (link, bound) ∈ s.passes := List.mem_of_getElem? htaken
    intro other v hv hnewest
    show v ∈ Function.update s.versions link _ other
    rcases eq_or_ne other link with rfl | hne
    · rw [Function.update_self, Finset.mem_filter]
      refine ⟨hv, fun hdeleted => ?_⟩
      rcases hsound other with hempty | ⟨h, hinc, -, -, hpass⟩
      · rw [hempty] at hv
        exact absurd hv (Finset.notMem_empty v)
      · exact hinc.not_newest hv hdeleted.2 (hpass bound hmem) hnewest
    · rwa [Function.update_of_ne hne]

/-! ## A record that outlives its incarnation -/

section

/-- At most two versions are kept, and at least one. -/
def keepTwo : String → Policy := fun _ => ⟨2, 1⟩

instance (s : System) : ∀ e : Event, Decidable (Fresh s e)
  | .addDocument link version => inferInstanceAs (Decidable
      ((s.versions link = ∅ ∧ s.liveVersionsPerLink link = none ∧ (∀ c ∈ s.checks, c.1 ≠ link) ∧
        ∀ d ∈ s.passes, d.1 ≠ link) ∨
        ((∃ v ∈ s.versions link, v ≤ version) ∧ ∃ v ∈ s.versions link, version ≤ v + 1)))
  | .forcedPost _ | .check _ | .collect _ | .deleteVersions _ | .expire _ | .restart =>
      isTrue trivial

/-- Three versions of a document, the last of which is checked and collected. -/
def threeVersions (link : String) : List Event :=
  [.addDocument link 0, .addDocument link 1, .addDocument link 2, .check 0, .check 0, .check 0]

theorem retention_spares_newest_of_three : ∃ s s', SparesNewest keepTwo s s' ∧
    s.versions "/a" = {0, 1, 2} ∧ s'.versions "/a" = {2} := by
  obtain ⟨s, hs, s', hstep, hbefore, hafter⟩ : ∃ s, exec (fun s e => if Fresh s e then
        step keepTwo s e else none) start (threeVersions "/a" ++ [.collect "/a"]) = some s ∧
      ∃ s', step keepTwo s (.deleteVersions 0) = some s' ∧
        s.versions "/a" = {0, 1, 2} ∧ s'.versions "/a" = {2} :=
    ⟨_, rfl, _, rfl, by decide, by decide⟩
  exact ⟨s, s', retention_spares_newest keepTwo _ s s' 0 (reach_of_exec hs) hstep, hbefore,
    hafter⟩

/-- The document is created anew, with `FORCE_INDEX_UPDATE`, before the record of its first
incarnation is collected: its only version is deleted. -/
theorem retention_deletes_newest : ¬ ∀ (policy : String → Policy) (es : List Event)
    (s s' : System) (n : Nat), Reach (step policy) (fun _ _ => True) start es s →
      step policy s (.deleteVersions n) = some s' → SparesNewest policy s s' := by
  intro h
  obtain ⟨s, hs, s', hstep, hbefore, hafter⟩ : ∃ s, exec (fun s e => if True then
        step keepTwo s e else none) start (threeVersions "/a" ++
          [.forcedPost "/a", .addDocument "/a" 0, .check 0, .collect "/a"]) = some s ∧
      ∃ s', step keepTwo s (.deleteVersions 0) = some s' ∧
        s.versions "/a" = {0} ∧ s'.versions "/a" = ∅ :=
    ⟨_, rfl, _, rfl, by decide, by decide⟩
  have hspared := h keepTwo _ s s' 0 (reach_of_exec hs) hstep "/a" 0
  rw [hbefore, hafter] at hspared
  exact absurd (hspared (by decide) (by unfold Newest; decide)) (by decide)

end

end Xenon.Index.Retention

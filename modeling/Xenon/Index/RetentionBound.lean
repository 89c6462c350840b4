import Xenon.Index.Retention

/-!
# How many versions stay

A record is made only at the versions of a grid, `limit`, `limit + chunk`, and so on. Between two
of them the versions pile up, and a pass brings them back below the limit. The argument follows
each version of the grid: its check is still to be made, or its deletion is recorded, under way or
done.
-/

namespace Xenon.Index.Retention

open Xenon.Foundation

/-! ## The grid -/

/-- The distance between two versions at which a record is made. -/
def Policy.chunkThreshold (p : Policy) : Int := max 1 (p.limit - p.floor)

/-- A version at which `checkDocumentRetentionLimit` makes a record. -/
def Policy.Threshold (p : Policy) (version : Int) : Prop :=
  p.limit ≤ version ∧ (version - p.limit) % p.chunkThreshold = 0

theorem Policy.floor_le_limit (p : Policy) : p.floor ≤ p.limit := by
  unfold Policy.floor
  omega

/-- From the limit on, a threshold is never more than a chunk behind. -/
theorem Policy.exists_threshold (p : Policy) {version : Int} (h : p.limit ≤ version) :
    ∃ t, p.Threshold t ∧ t ≤ version ∧ version < t + p.chunkThreshold := by
  have hpos : 0 < p.chunkThreshold := by
    unfold Policy.chunkThreshold
    omega
  have hmod := Int.emod_nonneg (version - p.limit) hpos.ne'
  have hlt := Int.emod_lt_of_pos (version - p.limit) hpos
  have hdiv := Int.emod_add_mul_ediv (version - p.limit) p.chunkThreshold
  have hquot : 0 ≤ (version - p.limit) / p.chunkThreshold := Int.ediv_nonneg (by omega) hpos.le
  have hprod := Int.mul_nonneg hpos.le hquot
  refine ⟨version - (version - p.limit) % p.chunkThreshold, ⟨by omega, ?_⟩, by omega, by omega⟩
  rw [show version - (version - p.limit) % p.chunkThreshold - p.limit =
    p.chunkThreshold * ((version - p.limit) / p.chunkThreshold) by omega]
  exact Int.mul_emod_right _ _

section

variable {p : Policy} {version : Int}

/-- The check of a threshold leaves a record that reaches as far as the threshold asks. -/
theorem checkDocumentRetentionLimit_of_threshold
    (hlimit : p.versionRetentionLimit ≠ disabledVersionRetention) (h : p.Threshold version)
    (currentValue : Option Int) :
    ∃ bound, checkDocumentRetentionLimit p version currentValue = some bound ∧
      version - p.floor ≤ bound := by
  have hgrid : ¬ (version - p.limit) % max 1 (p.limit - p.floor) ≠ 0 := not_not.mpr h.2
  unfold checkDocumentRetentionLimit
  rw [if_neg hlimit, if_neg (not_lt.mpr h.1), if_neg hgrid]
  cases currentValue with
  | none => exact ⟨_, rfl, le_refl _⟩
  | some current =>
      refine ⟨_, rfl, ?_⟩
      split_ifs <;> omega

/-- A check never lowers a record. -/
theorem le_checkDocumentRetentionLimit (p : Policy) (version current : Int) :
    ∃ bound, checkDocumentRetentionLimit p version (some current) = some bound ∧
      current ≤ bound := by
  unfold checkDocumentRetentionLimit
  split_ifs
  · exact ⟨current, rfl, le_refl _⟩
  · exact ⟨current, rfl, le_refl _⟩
  · exact ⟨current, rfl, le_refl _⟩
  · refine ⟨_, rfl, ?_⟩
    split_ifs <;> omega

end

/-! ## A maintenance pass -/

/-- What a pass does for the record of one link. -/
def collectVersions (s : System) (link : String) : System :=
  match s.liveVersionsPerLink link with
  | none => s
  | some bound =>
      { deleteDocumentFromIndex s link 0 bound with
        liveVersionsPerLink := Function.update s.liveVersionsPerLink link none }

/-- `applyDocumentVersionRetentionPolicy`, that takes the records of `links` out of the map in this
order before its deadline. -/
def applyDocumentVersionRetentionPolicy (links : List String) (s : System) : System :=
  links.foldl collectVersions s

/-- The versions of a link that a run indexes, one after another. -/
def indexed (link : String) (es : List Event) : List Int :=
  es.filterMap fun
    | .addDocument l version => if l = link then some version else none
    | _ => none

theorem indexed_append (link : String) (es es' : List Event) :
    indexed link (es ++ es') = indexed link es ++ indexed link es' :=
  List.filterMap_append

/-- The event leaves the incarnation of the link, and the records, to retention. -/
def SameIncarnation (link : String) : Event → Prop
  | .forcedPost l | .expire l => l ≠ link
  | .restart => False
  | _ => True

instance (link : String) : ∀ e, Decidable (SameIncarnation link e)
  | .forcedPost l | .expire l => inferInstanceAs (Decidable (l ≠ link))
  | .restart => isFalse id
  | .addDocument _ _ | .check _ | .collect _ | .deleteVersions _ => isTrue trivial

/-- A run of one incarnation of a link. -/
def Runs (policy : String → Policy) (link : String) : List Event → System → Prop :=
  Reach (step policy) (fun _ e => SameIncarnation link e) start

section

variable {policy : String → Policy} {link : String} {es : List Event} {s : System}

/-- A pass over one record is a run, in which nothing is indexed. -/
theorem Runs.collectVersions (h : Runs policy link es s) (other : String) :
    ∃ es', Runs policy link (es ++ es') (collectVersions s other) ∧ indexed link es' = [] := by
  unfold Retention.collectVersions
  split
  · exact ⟨[], by simpa using h, rfl⟩
  · rename_i bound hbound
    refine ⟨[.collect other] ++ [.deleteVersions 0], ?_, rfl⟩
    have hcollect : step policy s (.collect other) =
        some { s with liveVersionsPerLink := Function.update s.liveVersionsPerLink other none
                      passes := (other, bound) :: s.passes } := by
      simp only [step, hbound]
    rw [← List.append_assoc]
    exact Reach.snoc (Reach.snoc h trivial hcollect) trivial rfl

theorem Runs.pass (h : Runs policy link es s) (links : List String) :
    ∃ es', Runs policy link (es ++ es') (applyDocumentVersionRetentionPolicy links s) ∧
      indexed link es' = [] := by
  induction links generalizing es s with
  | nil => exact ⟨[], (List.append_nil es).symm ▸ h, rfl⟩
  | cons other links ih =>
      obtain ⟨es₁, h₁, hnone₁⟩ := h.collectVersions other
      obtain ⟨es₂, h₂, hnone₂⟩ := ih h₁
      refine ⟨es₁ ++ es₂, ?_, ?_⟩
      · rw [← List.append_assoc]
        exact h₂
      · rw [indexed_append, hnone₁, hnone₂, List.append_nil]

end

/-! ## The invariant -/

/-- What is known of a link of which the versions below `n` have been indexed. -/
structure Tracks (p : Policy) (s : System) (link : String) (n : Int) : Prop where
  range : ∀ v ∈ s.versions link, 0 ≤ v ∧ v < n
  newest : ∀ v, 0 ≤ v → v < n → n - p.floor ≤ v → v ∈ s.versions link
  check : ∀ v, (link, v) ∈ s.checks → v < n
  record : ∀ bound, s.liveVersionsPerLink link = some bound → bound < n - p.floor
  pass : ∀ bound, (link, bound) ∈ s.passes → bound < n - p.floor
  /-- A threshold is to be checked, or what it asks for is recorded, under way or done. -/
  threshold : ∀ t, p.Threshold t → t < n →
    (link, t) ∈ s.checks ∨ (∃ bound, s.liveVersionsPerLink link = some bound ∧ t - p.floor ≤ bound) ∨
      (∃ bound, (link, bound) ∈ s.passes ∧ t - p.floor ≤ bound) ∨
      ∀ v ∈ s.versions link, t - p.floor < v

section

variable {policy : String → Policy} {p : Policy} {link : String} {s s' : System} {n : Int}

/-- What happens to other links does not matter. -/
theorem Tracks.congr (h : Tracks p s link n) (hversions : s'.versions link = s.versions link)
    (hrecord : s'.liveVersionsPerLink link = s.liveVersionsPerLink link)
    (hchecks : ∀ v, (link, v) ∈ s'.checks ↔ (link, v) ∈ s.checks)
    (hpasses : ∀ bound, (link, bound) ∈ s'.passes ↔ (link, bound) ∈ s.passes) :
    Tracks p s' link n where
  range := hversions ▸ h.range
  newest := hversions ▸ h.newest
  check v hv := h.check v ((hchecks v).mp hv)
  record := hrecord ▸ h.record
  pass bound hb := h.pass bound ((hpasses bound).mp hb)
  threshold := by
    simpa only [hversions, hrecord, hchecks, hpasses] using h.threshold

/-- An entry of a pool that is taken out. -/
theorem mem_iff_of_eraseIdx {α : Type} {l : List α} {i : Nat} {a : α} (h : l[i]? = some a)
    (x : α) : x ∈ l ↔ x = a ∨ x ∈ l.eraseIdx i := by
  obtain ⟨hi, rfl⟩ := List.getElem?_eq_some_iff.mp h
  rw [← (List.getElem_cons_eraseIdx_perm hi).mem_iff, List.mem_cons]

theorem Tracks.addDocument (h : Tracks p s link n) (hn : 0 ≤ n)
    (hstep : step policy s (.addDocument link n) = some s') : Tracks p s' link (n + 1) := by
  obtain rfl := Option.some.inj hstep
  have hfloor := p.one_le_floor
  refine ⟨?_, ?_, ?_, ?_, ?_, ?_⟩
  · intro v hv
    simp only [Function.update_self, Finset.mem_insert] at hv
    rcases hv with rfl | hv
    · omega
    · have := h.range v hv
      omega
  · intro v hv hlt hnew
    simp only [Function.update_self, Finset.mem_insert]
    rcases eq_or_ne v n with rfl | hne
    · exact Or.inl rfl
    · exact Or.inr (h.newest v hv (by omega) (by omega))
  · intro v hv
    rcases List.mem_cons.mp hv with heq | hv
    · have := (Prod.mk.inj heq).2
      omega
    · have := h.check v hv
      omega
  · intro bound hb
    have := h.record bound hb
    omega
  · intro bound hb
    have := h.pass bound hb
    omega
  · intro t ht hlt
    rcases eq_or_ne t n with rfl | hne
    · exact Or.inl (List.mem_cons_self ..)
    · rcases h.threshold t ht (by omega) with hc | hr | hpass | hdone
      · exact Or.inl (List.mem_cons_of_mem _ hc)
      · exact Or.inr (Or.inl hr)
      · exact Or.inr (Or.inr (Or.inl hpass))
      · refine Or.inr (Or.inr (Or.inr ?_))
        intro v hv
        simp only [Function.update_self, Finset.mem_insert] at hv
        rcases hv with rfl | hv
        · omega
        · exact hdone v hv

theorem Tracks.addDocument_of_ne {other : String} {version : Int} (h : Tracks p s link n)
    (hne : other ≠ link) (hstep : step policy s (.addDocument other version) = some s') :
    Tracks p s' link n := by
  obtain rfl := Option.some.inj hstep
  apply h.congr
  · exact Function.update_of_ne hne.symm _ _
  · rfl
  · intro v
    simp [hne.symm]
  · intro bound
    rfl

theorem Tracks.deleteAll_of_ne {other : String} (h : Tracks p s link n) (hne : other ≠ link) :
    Tracks p (deleteAllDocumentsForSelfLink s other) link n :=
  h.congr (Function.update_of_ne hne.symm _ _) rfl (fun _ => Iff.rfl) fun _ => Iff.rfl

theorem Tracks.check_step {i : Nat} (h : Tracks (policy link) s link n)
    (hlimit : (policy link).versionRetentionLimit ≠ disabledVersionRetention)
    (hstep : step policy s (.check i) = some s') : Tracks (policy link) s' link n := by
  simp only [step] at hstep
  split at hstep
  · cases hstep
  · rename_i other version hchecked
    obtain rfl := Option.some.inj hstep
    have hmem := mem_iff_of_eraseIdx hchecked
    rcases eq_or_ne other link with rfl | hne
    · have hversion : version < n := h.check version ((hmem _).mpr (Or.inl rfl))
      refine ⟨h.range, h.newest, fun v hv => h.check v ((hmem _).mpr (Or.inr hv)), ?_, h.pass, ?_⟩
      · intro bound hb
        dsimp only at hb
        rw [Function.update_self] at hb
        rcases checkDocumentRetentionLimit_cases hb with hold | rfl
        · exact h.record bound hold
        · omega
      · intro t ht hlt
        simp only [Function.update_self]
        rcases h.threshold t ht hlt with hc | ⟨bound, hr, hle⟩ | hrest
        · rcases (hmem _).mp hc with heq | hc
          · obtain ⟨-, rfl⟩ := Prod.mk.inj heq
            exact Or.inr (Or.inl (checkDocumentRetentionLimit_of_threshold hlimit ht _))
          · exact Or.inl hc
        · obtain ⟨bound', hbound', hge⟩ :=
            le_checkDocumentRetentionLimit (policy other) version bound
          rw [hr]
          exact Or.inr (Or.inl ⟨bound', hbound', hle.trans hge⟩)
        · exact Or.inr (Or.inr hrest)
    · apply h.congr
      · rfl
      · exact Function.update_of_ne hne.symm _ _
      · intro v
        rw [hmem]
        simp [hne.symm]
      · intro bound
        rfl

theorem Tracks.collect_step {other : String} (h : Tracks p s link n)
    (hstep : step policy s (.collect other) = some s') : Tracks p s' link n := by
  simp only [step] at hstep
  split at hstep
  · cases hstep
  · rename_i bound hbound
    obtain rfl := Option.some.inj hstep
    rcases eq_or_ne other link with rfl | hne
    · refine ⟨h.range, h.newest, h.check, ?_, ?_, ?_⟩
      · intro b hb
        dsimp only at hb
        rw [Function.update_self] at hb
        cases hb
      · intro b hb
        rcases List.mem_cons.mp hb with heq | hb
        · rw [(Prod.mk.inj heq).2]
          exact h.record bound hbound
        · exact h.pass b hb
      · intro t ht hlt
        rcases h.threshold t ht hlt with hc | ⟨b, hr, hle⟩ | ⟨b, hb, hle⟩ | hdone
        · exact Or.inl hc
        · obtain rfl : bound = b := Option.some.inj (hbound.symm.trans hr)
          exact Or.inr (Or.inr (Or.inl ⟨bound, List.mem_cons_self .., hle⟩))
        · exact Or.inr (Or.inr (Or.inl ⟨b, List.mem_cons_of_mem _ hb, hle⟩))
        · exact Or.inr (Or.inr (Or.inr hdone))
    · apply h.congr
      · rfl
      · exact Function.update_of_ne hne.symm _ _
      · intro v
        rfl
      · intro b
        simp [hne.symm]

theorem Tracks.deleteVersions_step {i : Nat} (h : Tracks p s link n)
    (hstep : step policy s (.deleteVersions i) = some s') : Tracks p s' link n := by
  simp only [step] at hstep
  split at hstep
  · cases hstep
  · rename_i other bound htaken
    obtain rfl := Option.some.inj hstep
    have hmem := mem_iff_of_eraseIdx htaken
    rcases eq_or_ne other link with rfl | hne
    · have hbound : bound < n - p.floor := h.pass bound ((hmem _).mpr (Or.inl rfl))
      have hversions : ∀ v, v ∈ (deleteDocumentFromIndex s other 0 bound).versions other ↔
          v ∈ s.versions other ∧ ¬ (0 ≤ v ∧ v ≤ bound) := by
        intro v
        simp only [deleteDocumentFromIndex, Function.update_self, Finset.mem_filter]
      refine ⟨?_, ?_, h.check, h.record, fun b hb => h.pass b ((hmem _).mpr (Or.inr hb)), ?_⟩
      · intro v hv
        exact h.range v ((hversions v).mp hv).1
      · intro v hv hlt hnew
        exact (hversions v).mpr ⟨h.newest v hv hlt hnew, by omega⟩
      · intro t ht hlt
        rcases h.threshold t ht hlt with hc | hr | ⟨b, hb, hle⟩ | hdone
        · exact Or.inl hc
        · exact Or.inr (Or.inl hr)
        · rcases (hmem _).mp hb with heq | hb
          · -- the deletion that is made now
            obtain ⟨-, rfl⟩ := Prod.mk.inj heq
            refine Or.inr (Or.inr (Or.inr fun v hv => ?_))
            obtain ⟨hv, hnot⟩ := (hversions v).mp hv
            have := (h.range v hv).1
            omega
          · exact Or.inr (Or.inr (Or.inl ⟨b, hb, hle⟩))
        · exact Or.inr (Or.inr (Or.inr fun v hv => hdone v ((hversions v).mp hv).1))
    · apply h.congr
      · exact Function.update_of_ne hne.symm _ _
      · rfl
      · intro v
        rfl
      · intro b
        rw [hmem]
        simp [hne.symm]

end

/-! ## Every run -/

section

variable {policy : String → Policy} {link : String} {es : List Event} {s : System}

theorem tracks_start (p : Policy) (link : String) : Tracks p start link 0 where
  range _ hv := absurd hv (Finset.notMem_empty _)
  newest _ hv hlt _ := absurd hv (not_le.mpr hlt)
  check _ hv := absurd hv List.not_mem_nil
  record _ hb := nomatch hb
  pass _ hb := absurd hb List.not_mem_nil
  threshold _ _ _ := Or.inr (Or.inr (Or.inr fun _ hv => absurd hv (Finset.notMem_empty _)))

/-- The versions `0`, `1`, …, of which the run has indexed the first `n`. -/
theorem Runs.tracks (hlimit : (policy link).versionRetentionLimit ≠ disabledVersionRetention)
    (h : Runs policy link es s) {n : Nat}
    (hindexed : indexed link es = (List.range n).map Int.ofNat) :
    Tracks (policy link) s link n := by
  induction h generalizing n with
  | refl =>
      have hn : n = 0 := by simpa [indexed] using hindexed.symm
      subst hn
      exact tracks_start _ _
  | @snoc es s s' e h hok hstep ih =>
      rw [indexed_append] at hindexed
      cases e with
      | addDocument other version =>
          rcases eq_or_ne other link with rfl | hne
          · have hlast : indexed other es ++ [version] = (List.range n).map Int.ofNat := by
              simpa [indexed] using hindexed
            cases n with
            | zero => simp at hlast
            | succ n =>
                rw [List.range_succ, List.map_append, List.map_singleton] at hlast
                obtain ⟨hbefore, hversion⟩ := List.append_inj' hlast rfl
                obtain rfl : version = n := List.singleton_inj.mp hversion
                push_cast
                exact (ih hbefore).addDocument (Int.natCast_nonneg n) hstep
          · apply (ih _).addDocument_of_ne hne hstep
            simpa [indexed, hne] using hindexed
      | forcedPost other =>
          obtain rfl := Option.some.inj hstep
          exact (ih (by simpa [indexed] using hindexed)).deleteAll_of_ne hok
      | expire other =>
          obtain rfl := Option.some.inj hstep
          exact (ih (by simpa [indexed] using hindexed)).deleteAll_of_ne hok
      | check i => exact (ih (by simpa [indexed] using hindexed)).check_step hlimit hstep
      | collect other => exact (ih (by simpa [indexed] using hindexed)).collect_step hstep
      | deleteVersions i => exact (ih (by simpa [indexed] using hindexed)).deleteVersions_step hstep
      | restart => exact absurd hok id

end

/-! ## The bound -/

/-- Of the versions `0`, …, `V`, at most `limit` are in the index, and the newest `floor` of them
are. -/
def Bounded (p : Policy) (V : Nat) (versions : Finset Int) : Prop :=
  (versions.card : Int) ≤ max 1 p.versionRetentionLimit ∧
    ∀ v : Int, V - min p.floor (V + 1) < v → v ≤ V → v ∈ versions

section

variable {p : Policy} {link : String} {s : System}

/-- Retention has done for a link what it has to do. -/
theorem Tracks.bounded {V : Nat} (h : Tracks p s link (V + 1 : Nat)) (hquiet : Quiet s link) :
    Bounded p V (s.versions link) := by
  obtain ⟨hrecord, hchecks, hpasses⟩ := hquiet
  have hfloor := p.one_le_floor
  have hfl := p.floor_le_limit
  push_cast at h
  constructor
  · show _ ≤ p.limit
    rcases lt_or_ge (V : Int) p.limit with hlt | hge
    · have hsub : s.versions link ⊆ Finset.Ico 0 (V + 1 : Int) :=
        fun v hv => Finset.mem_Ico.mpr (h.range v hv)
      have hcard := Finset.card_le_card hsub
      rw [Int.card_Ico] at hcard
      omega
    · -- the last threshold at or below `V`
      obtain ⟨t, ht, htV, hVt⟩ := p.exists_threshold hge
      have hdone : ∀ v ∈ s.versions link, t - p.floor < v := by
        rcases h.threshold t ht (by omega) with hc | ⟨bound, hr, -⟩ | ⟨bound, hb, -⟩ | hdone
        · exact absurd rfl (hchecks _ hc)
        · rw [hrecord] at hr
          cases hr
        · exact absurd rfl (hpasses _ hb)
        · exact hdone
      have hsub : s.versions link ⊆ Finset.Ioo (t - p.floor) (V + 1 : Int) :=
        fun v hv => Finset.mem_Ioo.mpr ⟨hdone v hv, (h.range v hv).2⟩
      have hcard := Finset.card_le_card hsub
      rw [Int.card_Ioo] at hcard
      unfold Policy.chunkThreshold at hVt
      omega
  · intro v hlow hhigh
    exact h.newest v (by omega) (by omega) (by omega)

/-- A pass over one record leaves the other records, and the checks and passes alone. -/
theorem collectVersions_record (s : System) (other : String) :
    (collectVersions s other).liveVersionsPerLink =
      Function.update s.liveVersionsPerLink other none := by
  unfold collectVersions
  split
  · rename_i hnone
    rw [← hnone, Function.update_eq_self]
  · rfl

theorem collectVersions_quiet (s : System) : Quiet (collectVersions s link) link ↔
    (∀ c ∈ s.checks, c.1 ≠ link) ∧ ∀ d ∈ s.passes, d.1 ≠ link := by
  unfold Quiet
  rw [collectVersions_record, Function.update_self, eq_self, true_and]
  unfold collectVersions
  split <;> rfl

theorem Quiet.collectVersions (h : Quiet s link) (other : String) :
    Quiet (collectVersions s other) link := by
  obtain ⟨hrecord, hrest⟩ := h
  refine ⟨?_, ?_⟩
  · rw [collectVersions_record]
    rcases eq_or_ne link other with rfl | hne
    · exact Function.update_self ..
    · rw [Function.update_of_ne hne]
      exact hrecord
  · unfold Retention.collectVersions
    split <;> exact hrest

/-- A pass that takes the record of a link is done with it. -/
theorem quiet_pass {links : List String} (hlink : link ∈ links)
    (hchecks : ∀ c ∈ s.checks, c.1 ≠ link) (hpasses : ∀ d ∈ s.passes, d.1 ≠ link) :
    Quiet (applyDocumentVersionRetentionPolicy links s) link := by
  have hkeeps : ∀ (links : List String) {s : System}, Quiet s link →
      Quiet (applyDocumentVersionRetentionPolicy links s) link := by
    intro links
    induction links with
    | nil => exact id
    | cons other links ih => exact fun h => ih (h.collectVersions other)
  induction links generalizing s with
  | nil => exact absurd hlink List.not_mem_nil
  | cons other links ih =>
      show Quiet (applyDocumentVersionRetentionPolicy links (collectVersions s other)) link
      rcases eq_or_ne other link with rfl | hne
      · exact hkeeps links ((collectVersions_quiet s).mpr ⟨hchecks, hpasses⟩)
      · have hsame : (collectVersions s other).checks = s.checks ∧
            (collectVersions s other).passes = s.passes := by
          unfold collectVersions
          split <;> exact ⟨rfl, rfl⟩
        apply ih
        · exact (List.mem_cons.mp hlink).resolve_left hne.symm
        · exact hsame.1 ▸ hchecks
        · exact hsame.2 ▸ hpasses

end

/-- Index the versions `0`, …, `V` of a link one after another, with passes in between at any
time, and then make a pass that takes the record of the link. -/
theorem versions_bounded_after_pass (policy : String → Policy) (link : String) (V : Nat)
    (es : List Event) (s : System) (links : List String)
    (hlimit : 1 ≤ (policy link).versionRetentionLimit)
    (hrun : Runs policy link es s)
    (hindexed : indexed link es = (List.range (V + 1)).map Int.ofNat)
    (hchecks : ∀ c ∈ s.checks, c.1 ≠ link) (hpasses : ∀ d ∈ s.passes, d.1 ≠ link)
    (hlink : link ∈ links) :
    Bounded (policy link) V
      ((applyDocumentVersionRetentionPolicy links s).versions link) := by
  have henabled : (policy link).versionRetentionLimit ≠ disabledVersionRetention := by
    unfold disabledVersionRetention
    omega
  obtain ⟨es', hpass, hnone⟩ := hrun.pass links
  have hsame : indexed link (es ++ es') = (List.range (V + 1)).map Int.ofNat := by
    rw [indexed_append, hnone, List.append_nil, hindexed]
  exact (hpass.tracks henabled hsame).bounded (quiet_pass hlink hchecks hpasses)

/-- Three versions, of which the pass leaves the newest. -/
theorem versions_bounded_after_pass_of_three : ∃ s, Runs keepTwo "/a" (threeVersions "/a") s ∧
    Bounded (keepTwo "/a") 2 ((applyDocumentVersionRetentionPolicy ["/a"] s).versions "/a") ∧
      (applyDocumentVersionRetentionPolicy ["/a"] s).versions "/a" = {2} := by
  obtain ⟨s, hs, hchecks, hpasses, hversions⟩ : ∃ s, exec (fun s e =>
        if SameIncarnation "/a" e then step keepTwo s e else none) start (threeVersions "/a") =
          some s ∧ s.checks = [] ∧ s.passes = [] ∧
      (applyDocumentVersionRetentionPolicy ["/a"] s).versions "/a" = {2} :=
    ⟨_, rfl, rfl, rfl, by decide⟩
  have hrun : Runs keepTwo "/a" (threeVersions "/a") s := reach_of_exec hs
  refine ⟨s, hrun, ?_, hversions⟩
  exact versions_bounded_after_pass keepTwo "/a" 2 _ s ["/a"] (by decide) hrun (by decide)
    (by simp [hchecks]) (by simp [hpasses]) (by simp)

end Xenon.Index.Retention

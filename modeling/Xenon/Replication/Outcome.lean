import Xenon.Replication.Context

/-!
# What a replication context decides

A run of the context is the sequence of responses it hears, in the order of
their arrival. The status after a run depends on the responses only through
three tallies (`successes`, `failures`, `heardLocations`) and through which
response came last while the context was still pending (`status_snoc`);
everything below is derived from that one equation.
-/

namespace Xenon.Replication

open Xenon.Common Xenon.Foundation

/-! ## Runs and tallies -/

def runResponses (c : Context) (rs : List Response) : Context × List Completion :=
  runOut checkAndCompleteOperation c rs

/-- The status of the context after the responses `rs`. -/
def statusAfter (c : Context) (rs : List Response) : Status :=
  (runResponses c rs).1.completionStatus

/-- What has been done to the parent operation after the responses `rs`. -/
def completions (c : Context) (rs : List Response) : List Completion :=
  (runResponses c rs).2

def successes (rs : List Response) : Nat := rs.countP (·.e.isNone)

def failures (rs : List Response) : Nat := rs.countP (·.e.isSome)

/-- Locations of all the responses heard, successful or not. -/
def heardLocations (rs : List Response) : Finset String :=
  (rs.filterMap (·.remoteLocation)).toFinset

/-- Locations from which a success was heard. -/
def successLocations (rs : List Response) : Finset String :=
  heardLocations (rs.filter (·.e.isNone))

/-- A context as `replicateUpdate` hands it over: nothing counted yet. -/
structure Fresh (c : Context) : Prop where
  successCount : c.successCount = 0
  failureCount : c.failureCount = 0
  locations : c.locations = none
  status : c.completionStatus = .pending

theorem successes_snoc (rs : List Response) (r : Response) :
    successes (rs ++ [r]) = successes rs + (if r.e = none then 1 else 0) := by
  cases h : r.e <;> simp [successes, List.countP_append, h]

theorem failures_snoc (rs : List Response) (r : Response) :
    failures (rs ++ [r]) = failures rs + (if r.e = none then 0 else 1) := by
  cases h : r.e <;> simp [failures, List.countP_append, h]

theorem successes_add_failures (rs : List Response) :
    successes rs + failures rs = rs.length := by
  induction rs using List.reverseRecOn with
  | nil => rfl
  | append_singleton rs r ih =>
      rw [successes_snoc, failures_snoc, List.length_append, ← ih]
      split <;> simp <;> omega

theorem heardLocations_snoc (rs : List Response) (r : Response) :
    heardLocations (rs ++ [r]) = addLocation (some (heardLocations rs)) r := by
  cases h : r.remoteLocation with
  | none => simp [heardLocations, addLocation, h]
  | some l =>
      ext x
      simp [heardLocations, addLocation, h]

/-! ## The status after a run -/

section Status

variable {c : Context}

theorem runResponses_snoc (c : Context) (rs : List Response) (r : Response) :
    (runResponses c (rs ++ [r])).1 =
      (checkAndCompleteOperation (runResponses c rs).1 r).1 := by
  rw [runResponses, runOut_snoc]
  rfl

/-- A decided context stays as it is decided, and is silent. -/
theorem silent_of_decided {st : Status} (h : st ≠ .pending) :
    Silent checkAndCompleteOperation (fun c => c.completionStatus = st) := by
  intro d r hd
  obtain ⟨hout, hst⟩ := check_decided (c := d) (by rw [hd]; exact h) r
  exact ⟨hst.trans hd, hout⟩

/-- **Responses after the decision change nothing**: neither the status nor
what was done to the parent operation. -/
theorem decided_stable {rs : List Response} (h : statusAfter c rs ≠ .pending)
    (rs' : List Response) :
    statusAfter c (rs ++ rs') = statusAfter c rs ∧
      completions c (rs ++ rs') = completions c rs :=
  (silent_of_decided h).run_append rfl

theorem pending_prefix {rs rs' : List Response}
    (h : statusAfter c (rs ++ rs') = .pending) : statusAfter c rs = .pending := by
  by_contra hne
  exact hne ((decided_stable hne rs').1.symm.trans h)

/-- While pending, the counters are the tallies of the run. -/
structure Tally (c : Context) (rs : List Response) (d : Context) : Prop where
  thresholds : SameThresholds c d
  successCount : d.successCount = successes rs
  failureCount : d.failureCount = failures rs
  locations : d.locations.getD ∅ = heardLocations rs

theorem addLocation_getD {ls : Option (Finset String)} {s : Finset String}
    (h : ls.getD ∅ = s) (r : Response) :
    addLocation ls r = addLocation (some s) r := by
  subst h
  cases hl : r.remoteLocation <;> simp [addLocation, hl]

theorem Tally.snoc {rs : List Response} {d : Context} (h : Tally c rs d)
    (hp : d.completionStatus = .pending) (r : Response) :
    Tally c (rs ++ [r]) (checkAndCompleteOperation d r).1 := by
  obtain ⟨ht, hS, hF, hL, -, -⟩ := check_pending hp r
  refine ⟨h.thresholds.trans ht, ?_, ?_, ?_⟩
  · rw [hS, h.successCount, successes_snoc]; push_cast; rfl
  · rw [hF, h.failureCount, failures_snoc]; push_cast; rfl
  · rw [hL, heardLocations_snoc, addLocation_getD h.locations]

theorem tally_of_pending (hc : Fresh c) {rs : List Response}
    (h : statusAfter c rs = .pending) : Tally c rs (runResponses c rs).1 := by
  induction rs using List.reverseRecOn with
  | nil =>
      exact ⟨⟨rfl, rfl, rfl⟩, hc.successCount, hc.failureCount,
        by simp [runResponses, runOut_nil, hc.locations, heardLocations]⟩
  | append_singleton rs r ih =>
      have hp := pending_prefix h
      rw [runResponses_snoc]
      exact (ih hp).snoc hp r

/-- **The status equation.** A decided context keeps its status; a pending one
takes the decision of its thresholds on the tallies. -/
theorem status_snoc (hc : Fresh c) (rs : List Response) (r : Response) :
    statusAfter c (rs ++ [r]) =
      if statusAfter c rs = .pending then
        decision c.successThreshold c.failureThreshold c.locationThreshold
          (successes (rs ++ [r])) (failures (rs ++ [r]))
          (heardLocations (rs ++ [r])).card r
      else statusAfter c rs := by
  split
  case isTrue hp =>
      have ht := tally_of_pending hc hp
      obtain ⟨-, -, -, -, hst, -⟩ := check_pending hp r
      have hsn := ht.snoc hp r
      rw [statusAfter, runResponses_snoc, hst, ht.thresholds.success, ht.thresholds.failure,
        ht.thresholds.location, hsn.successCount, hsn.failureCount,
        heardLocations_snoc, addLocation_getD ht.locations]
  case isFalse hp => exact (decided_stable hp [r]).1

/-- The parent operation is completed once if the context is decided, and not
at all while it is pending. -/
theorem completions_of_status (hc : Fresh c) (rs : List Response) :
    match statusAfter c rs with
    | .pending => completions c rs = []
    | .succeeded => completions c rs = [.complete statusCodeOk]
    | .failed => ∃ code msg, completions c rs = [.fail code msg] := by
  induction rs using List.reverseRecOn with
  | nil =>
      have : statusAfter c [] = .pending := hc.status
      rw [this]; rfl
  | append_singleton rs r ih =>
      by_cases hp : statusAfter c rs = .pending
      · rw [hp] at ih
        obtain ⟨-, -, -, -, -, hout⟩ := check_pending hp r
        have hrun : completions c (rs ++ [r]) =
            (completion (runResponses c (rs ++ [r])).1).toList := by
          rw [completions, runResponses, runOut_snoc]
          change (runResponses c rs).2 ++ _ = _
          rw [show (runResponses c rs).2 = [] from ih, List.nil_append]
          exact congrArg Option.toList hout
        cases hst : statusAfter c (rs ++ [r]) <;>
          rw [hrun, completion, show (runResponses c (rs ++ [r])).1.completionStatus
            = _ from hst] <;> simp
      · obtain ⟨h1, h2⟩ := decided_stable hp [r]
        rw [h1, h2]
        exact ih

end Status

/-! ## Thresholds without locations

A counter that starts at zero and is compared for equality meets its threshold
exactly when the threshold is positive and the counter gets that far. -/

/-- The counter `k` has met the threshold `t`. -/
def Met (t : Int) (k : Nat) : Prop := 0 < t ∧ t ≤ k

theorem Met.mono {t : Int} {k k' : Nat} (h : Met t k) (hk : k ≤ k') : Met t k' :=
  ⟨h.1, h.2.trans (by exact_mod_cast hk)⟩

/-- No response of the run carries a location. -/
def Unlocated (rs : List Response) : Prop := ∀ r ∈ rs, r.remoteLocation = none

theorem Unlocated.of_snoc {rs : List Response} {r : Response}
    (h : Unlocated (rs ++ [r])) : Unlocated rs ∧ r.remoteLocation = none :=
  ⟨fun x hx => h x (List.mem_append_left _ hx), h r (by simp)⟩

theorem successes_le_snoc (rs : List Response) (r : Response) :
    successes rs ≤ successes (rs ++ [r]) := by
  rw [successes_snoc]; omega

theorem failures_le_snoc (rs : List Response) (r : Response) :
    failures rs ≤ failures (rs ++ [r]) := by
  rw [failures_snoc]; omega

/-- **The status of a run without locations** says which thresholds were met:
succeeded only with the success threshold met, failed only with the failure
threshold met, pending only with neither. -/
theorem status_unlocated {c : Context} (hc : Fresh c) :
    ∀ {rs : List Response}, Unlocated rs →
    match statusAfter c rs with
    | .pending => ¬ Met c.successThreshold (successes rs) ∧
        ¬ Met c.failureThreshold (failures rs)
    | .succeeded => Met c.successThreshold (successes rs)
    | .failed => Met c.failureThreshold (failures rs) := by
  intro rs
  induction rs using List.reverseRecOn with
  | nil =>
      intro _
      have : statusAfter c [] = .pending := hc.status
      rw [this]
      exact ⟨fun h => absurd h.2 (by simpa [successes] using h.1),
        fun h => absurd h.2 (by simpa [failures] using h.1)⟩
  | append_singleton rs r ih =>
      intro hu
      obtain ⟨hrs, hr⟩ := hu.of_snoc
      have ih := ih hrs
      have hS := successes_snoc rs r
      have hF := failures_snoc rs r
      rw [status_snoc hc]
      cases hst : statusAfter c rs with
      | succeeded =>
          rw [hst] at ih
          exact ih.mono (successes_le_snoc rs r)
      | failed =>
          rw [hst] at ih
          exact ih.mono (failures_le_snoc rs r)
      | pending =>
          -- the counter of the last response moved by one, the other not
          rw [hst] at ih
          obtain ⟨hns, hnf⟩ := ih
          simp only [if_true, decision, hr, ne_eq, not_true_eq_false, false_and,
            if_false]
          by_cases he : r.e = none
          · simp only [he, if_true, Nat.add_zero] at hS hF ⊢
            by_cases hs : ((successes (rs ++ [r]) : Nat) : Int) = c.successThreshold
            · simp only [hs, if_true]
              exact ⟨by omega, by omega⟩
            · simp only [hs, if_false]
              exact ⟨fun h => hns ⟨h.1, by have := h.2; omega⟩, by rwa [hF]⟩
          · simp only [he, if_false, Nat.add_zero] at hS hF ⊢
            by_cases hf : ((failures (rs ++ [r]) : Nat) : Int) = c.failureThreshold
            · simp only [hf, if_true]
              exact ⟨by omega, by omega⟩
            · simp only [hf, if_false]
              exact ⟨by rwa [hS], fun h => hnf ⟨h.1, by have := h.2; omega⟩⟩

/-! ## The quorum outcome -/

theorem fresh_newContext (location : Option String) (nodes : List NodeState)
    (op : ParentOp) (s f L : Int) :
    Fresh { newContext location nodes op with
      successThreshold := s, failureThreshold := f, locationThreshold := L } :=
  ⟨rfl, rfl, rfl, rfl⟩

/-- All `n` nodes have answered and the thresholds are `k` and `n - k + 1`: two
unmet thresholds leave room for `n - 1` responses only. -/
theorem status_of_all_answered {c : Context} (hc : Fresh c) {rs : List Response} {n k : Nat}
    (hsuccess : c.successThreshold = k) (hfailure : c.failureThreshold = (n : Int) - k + 1)
    (hk : 1 ≤ k) (hn : k ≤ n) (hl : Unlocated rs) (hlen : successes rs + failures rs = n) :
    statusAfter c rs = if k ≤ successes rs then .succeeded else .failed := by
  have hst := status_unlocated hc hl
  cases h : statusAfter c rs with
  | succeeded =>
      rw [h] at hst
      obtain ⟨-, hle⟩ := hst
      rw [hsuccess] at hle
      rw [if_pos (by exact_mod_cast hle)]
  | failed =>
      rw [h] at hst
      obtain ⟨-, hle⟩ := hst
      rw [hfailure] at hle
      rw [if_neg (by omega)]
  | pending =>
      rw [h] at hst
      obtain ⟨hns, hnf⟩ := hst
      rw [hsuccess] at hns
      rw [hfailure] at hnf
      have hfew : ¬ k ≤ successes rs := by
        intro hle
        exact hns ⟨by omega, by exact_mod_cast hle⟩
      exact absurd ⟨by omega, by omega⟩ hnf

/-- **Quorum replication outcome.** The selected nodes report once each, in any
order, to a context without locations whose failure threshold is
`n - s + 1`. The parent operation is completed exactly once; it is completed
with success iff at least `s` nodes reported success; and nothing that arrives
after the decision changes it. -/
theorem quorum_outcome (nodes : List NodeState) (op : ParentOp) (s : Nat)
    (L : Int) (hs : 1 ≤ s) (hn : s ≤ nodes.length)
    (reports : List (NodeState × Response))
    (once : (reports.map Prod.fst).Perm nodes)
    (noLocation : Unlocated (reports.map Prod.snd)) :
    let c := { newContext none nodes op with
      successThreshold := s
      failureThreshold := (nodes.length : Int) - s + 1
      locationThreshold := L }
    let rs := reports.map Prod.snd
    (completions c rs).length = 1 ∧
      (completions c rs = [.complete statusCodeOk] ↔ s ≤ successes rs) ∧
      ∀ pre post, rs = pre ++ post → statusAfter c pre ≠ .pending →
        statusAfter c rs = statusAfter c pre ∧
          completions c rs = completions c pre := by
  intro c rs
  have hc : Fresh c := fresh_newContext ..
  have hlen : successes rs + failures rs = nodes.length := by
    rw [successes_add_failures, ← once.length_eq, List.length_map, List.length_map]
  have hst : statusAfter c rs = if s ≤ successes rs then .succeeded else .failed :=
    status_of_all_answered hc rfl rfl hs hn noLocation hlen
  have hout := completions_of_status hc rs
  rw [hst] at hout
  refine ⟨?_, ?_, ?_⟩
  · by_cases hle : s ≤ successes rs
    · rw [if_pos hle] at hout
      rw [hout]
      rfl
    · rw [if_neg hle] at hout
      obtain ⟨code, msg, hout⟩ := hout
      rw [hout]
      rfl
  · by_cases hle : s ≤ successes rs
    · rw [if_pos hle] at hout
      exact iff_of_true hout hle
    · rw [if_neg hle] at hout
      obtain ⟨code, msg, hout⟩ := hout
      rw [hout]
      exact iff_of_false (by simp) hle
  · rintro pre post heq hpre
    rw [heq]
    exact decided_stable hpre post

/-- Three nodes, two of which must accept: a failure between two successes. -/
theorem quorum_outcome_two_of_three :
    let node (id : String) : NodeState :=
      ⟨⟨"http", id, 8000, "/core/node-groups/default", none⟩, .available, [.peer],
        id, 2, 1, none⟩
    let peer (id : String) (code : Int) : Option PeerOp :=
      some ⟨⟨"http", id, 8000, "/core/examples/one", none⟩, code, none⟩
    let c := { newContext none [node "a", node "b", node "c"]
        ⟨1, .put, ⟨"http", "a", 8000, "/core/examples/one", none⟩⟩ with
      successThreshold := 2
      failureThreshold := 2
      locationThreshold := 1 }
    completions c [⟨none, none, none⟩, ⟨some "timeout", peer "c" 408, none⟩,
      ⟨none, peer "b" 200, none⟩] = [.complete statusCodeOk] := by
  intro node peer c
  exact (quorum_outcome [node "a", node "b", node "c"] _ 2 1 (by decide) (by decide)
    [(node "a", ⟨none, none, none⟩), (node "c", ⟨some "timeout", peer "c" 408, none⟩),
      (node "b", ⟨none, peer "b" 200, none⟩)]
    (.cons _ (.swap _ _ _)) (by simp [Unlocated])).2.1.mpr (by decide)

/-! ## Runs with locations -/

/-- **The status of any run.** Once the success threshold is reached only the
number of locations heard from matters, and it is asked for at every response
that has a location. -/
theorem status_located {c : Context} (hc : Fresh c) (rs : List Response) :
    match statusAfter c rs with
    | .pending =>
        ((successes rs : Int) < c.successThreshold →
          ¬ Met c.failureThreshold (failures rs)) ∧
        (heardLocations rs ≠ ∅ → c.successThreshold ≤ successes rs →
          ((heardLocations rs).card : Int) < c.locationThreshold)
    | .succeeded => c.successThreshold ≤ successes rs
    | .failed => Met c.failureThreshold (failures rs) := by
  induction rs using List.reverseRecOn with
  | nil =>
      have : statusAfter c [] = .pending := hc.status
      rw [this]
      exact ⟨fun _ h => absurd h.2 (by simpa [failures] using h.1),
        fun h => absurd rfl h⟩
  | append_singleton rs r ih =>
      have hS := successes_snoc rs r
      have hF := failures_snoc rs r
      have hL := heardLocations_snoc rs r
      rw [status_snoc hc]
      cases hst : statusAfter c rs with
      | succeeded =>
          rw [hst] at ih
          have := successes_le_snoc rs r
          change c.successThreshold ≤ _ at ih ⊢
          omega
      | failed =>
          rw [hst] at ih
          exact ih.mono (failures_le_snoc rs r)
      | pending =>
          rw [hst] at ih
          obtain ⟨hnf, hloc⟩ := ih
          simp only [if_true, decision]
          by_cases hr : r.remoteLocation ≠ none ∧
              c.successThreshold ≤ successes (rs ++ [r])
          · rw [if_pos hr]
            by_cases hlt : ((heardLocations (rs ++ [r])).card : Int) <
                c.locationThreshold
            · rw [if_pos hlt]
              exact ⟨fun h => absurd hr.2 (by omega), fun _ _ => hlt⟩
            · rw [if_neg hlt]
              exact hr.2
          · rw [if_neg hr]
            -- either the threshold is not reached or no location is added
            have hsame : c.successThreshold ≤ successes (rs ++ [r]) →
                heardLocations (rs ++ [r]) = heardLocations rs := by
              intro hle
              have hn : r.remoteLocation = none := by
                by_contra hne
                exact hr ⟨hne, hle⟩
              rw [hL]
              simp [addLocation, hn]
            by_cases he : r.e = none
            · simp only [he, if_true, Nat.add_zero] at hS hF ⊢
              by_cases hs : ((successes (rs ++ [r]) : Nat) : Int) =
                  c.successThreshold
              · simp only [hs, if_true]
                exact le_refl _
              · simp only [hs, if_false]
                refine ⟨fun h => by rw [hF]; exact hnf (by omega), ?_⟩
                intro hne hle
                rw [hsame hle] at hne ⊢
                exact hloc hne (by omega)
            · simp only [he, if_false, Nat.add_zero] at hS hF ⊢
              by_cases hf : ((failures (rs ++ [r]) : Nat) : Int) =
                  c.failureThreshold
              · simp only [hf, if_true]
                exact ⟨by omega, by omega⟩
              · simp only [hf, if_false]
                refine ⟨fun h hm => hnf (by omega) ⟨hm.1, ?_⟩, ?_⟩
                · have := hm.2
                  omega
                · intro hne hle
                  rw [hsame hle] at hne ⊢
                  exact hloc hne (by omega)

/-! ## The location quorum

The set `locations` is filled by every response that has a location, also by a
failed one. It is the set of locations that accepted the update as long as no
failure is the first response of its location. -/

/-- The response does not spoil the count of locations: a failure comes from a
location that was already counted, and a success from a node without location
does not complete the quorum before enough locations were counted. -/
def LocationSound (c : Context) (r : Response) : Prop :=
  c.completionStatus = .pending →
    (r.e ≠ none → ∀ l, r.remoteLocation = some l → l ∈ c.locations.getD ∅) ∧
    (r.e = none → r.remoteLocation = none →
      c.successCount + 1 = c.successThreshold →
      c.locationThreshold ≤ ((c.locations.getD ∅).card : Int))

/-- Every response of the run is sound in the context it meets. -/
def SoundRun (c : Context) (rs : List Response) : Prop :=
  ∀ pre r post, rs = pre ++ r :: post → LocationSound (runResponses c pre).1 r

theorem soundRun_nil (c : Context) : SoundRun c [] := by
  rintro pre r post h
  simp at h

theorem SoundRun.snoc {c : Context} {rs : List Response} {r : Response}
    (h : SoundRun c rs) (hr : LocationSound (runResponses c rs).1 r) :
    SoundRun c (rs ++ [r]) := by
  rintro pre x post heq
  rcases List.eq_nil_or_concat post with rfl | ⟨post, y, rfl⟩
  · obtain ⟨rfl, hx⟩ := List.append_inj' heq rfl
    obtain rfl : r = x := by simpa using hx
    exact hr
  · rw [List.concat_eq_append, ← List.cons_append, ← List.append_assoc] at heq
    exact h pre x post (List.append_inj' heq rfl).1

theorem SoundRun.of_snoc {c : Context} {rs : List Response} {r : Response}
    (h : SoundRun c (rs ++ [r])) :
    SoundRun c rs ∧ LocationSound (runResponses c rs).1 r := by
  refine ⟨?_, h rs r [] rfl⟩
  rintro pre x post rfl
  exact h pre x (post ++ [r]) (by simp)

theorem successLocations_snoc (rs : List Response) (r : Response) :
    successLocations (rs ++ [r]) =
      if r.e = none then addLocation (some (successLocations rs)) r
      else successLocations rs := by
  cases he : r.e with
  | none =>
      simp only [successLocations, List.filter_append, List.filter_singleton, he,
        Option.isNone_none, cond_true, if_true]
      exact heardLocations_snoc _ r
  | some m =>
      simp [successLocations, List.filter_append, he]

theorem addLocation_none {s : Finset String} {r : Response}
    (h : r.remoteLocation = none) : addLocation (some s) r = s := by
  simp [addLocation, h]

theorem successLocations_subset_snoc (rs : List Response) (r : Response) :
    successLocations rs ⊆ successLocations (rs ++ [r]) := by
  rw [successLocations_snoc]
  split
  · cases hl : r.remoteLocation with
    | none => rw [addLocation_none hl]
    | some l => simp [addLocation, hl]
  · exact Finset.Subset.refl _

/-- In a sound run the locations heard from are those that succeeded. -/
theorem sound_locations {c : Context} (hc : Fresh c) :
    ∀ {rs : List Response}, SoundRun c rs →
    match statusAfter c rs with
    | .pending => heardLocations rs = successLocations rs
    | .succeeded => c.locationThreshold ≤ ((successLocations rs).card : Int)
    | .failed => True := by
  intro rs
  induction rs using List.reverseRecOn with
  | nil =>
      intro _
      have : statusAfter c [] = .pending := hc.status
      rw [this]
      rfl
  | append_singleton rs r ih =>
      intro hsound
      obtain ⟨hrs, hr⟩ := hsound.of_snoc
      have ih := ih hrs
      cases hst : statusAfter c rs with
      | succeeded =>
          rw [hst] at ih
          rw [status_snoc hc, hst]
          have := Finset.card_le_card (successLocations_subset_snoc rs r)
          change c.locationThreshold ≤ _ at ih ⊢
          omega
      | failed => rw [status_snoc hc, hst]; trivial
      | pending =>
          rw [hst] at ih
          have ht := tally_of_pending hc hst
          obtain ⟨hfail, hsucc⟩ := hr hst
          rw [ht.locations] at hfail hsucc
          rw [ht.thresholds.location, ht.thresholds.success, ht.successCount]
            at hsucc
          -- a failed response adds no location that was not heard before
          have heq : heardLocations (rs ++ [r]) = successLocations (rs ++ [r]) := by
            rw [heardLocations_snoc, successLocations_snoc, ih]
            split
            · rfl
            · rename_i he
              cases hl : r.remoteLocation with
              | none => rw [addLocation_none hl]
              | some l =>
                  have := hfail he l hl
                  rw [ih] at this
                  simp [addLocation, hl, Finset.insert_eq_of_mem this]
          rw [status_snoc hc, hst]
          simp only [if_true, decision]
          split_ifs with h1 h2 h3 h4 h5
          · exact heq
          · rw [heq] at h2
            exact not_lt.mp h2
          · -- the success threshold is met by a response without location
            have hS := successes_snoc rs r
            rw [if_pos h3] at hS
            have hn : r.remoteLocation = none := by
              by_contra hne
              exact h1 ⟨hne, h4.ge⟩
            have := hsucc h3 hn (by omega)
            rw [← heq, heardLocations_snoc, addLocation_none hn]
            exact this
          · exact heq
          · trivial
          · exact heq

/-- **Location quorum.** While every response is sound, the operation is
reported as succeeded only after nodes of `L` distinct locations accepted the
update. That a decided operation is not decided again needs no condition. -/
theorem location_quorum (location : String) (nodes : List NodeState)
    (op : ParentOp) (s f L : Int) :
    let c := { newContext (some location) nodes op with
      successThreshold := s, failureThreshold := f, locationThreshold := L }
    (∀ rs, SoundRun c rs → ∀ pre post, rs = pre ++ post →
      statusAfter c pre = .succeeded → L ≤ ((successLocations pre).card : Int)) ∧
    (∀ pre post, statusAfter c pre ≠ .pending →
      statusAfter c (pre ++ post) = statusAfter c pre ∧
        completions c (pre ++ post) = completions c pre) := by
  intro c
  have hc : Fresh c := fresh_newContext ..
  constructor
  · rintro rs hsound pre post rfl hst
    have hpre : SoundRun c pre := by
      rintro pre' r post' rfl
      exact hsound pre' r (post' ++ post) (by simp)
    have := sound_locations hc hpre
    rwa [hst] at this
  · intro pre post h
    exact decided_stable h post

/-- Two locations that both accept make up a location quorum of two. -/
theorem location_quorum_two_locations :
    let c := { newContext (some "east") [] ⟨1, .put, ⟨"http", "a", 8000, "/x", none⟩⟩ with
      successThreshold := 2, failureThreshold := 1, locationThreshold := 2 }
    let rs : List Response := [⟨none, none, some "east"⟩, ⟨none, none, some "west"⟩]
    statusAfter c rs = .succeeded ∧ (2 : Int) ≤ ((successLocations rs).card : Int) := by
  intro c rs
  have hst : statusAfter c rs = .succeeded := by decide +kernel
  have hsound : SoundRun c rs := by
    refine SoundRun.snoc (SoundRun.snoc (soundRun_nil c) ?_) ?_
    · intro _; simp
    · intro _; simp
  exact ⟨hst, (location_quorum "east" [] _ 2 1 2).1 rs hsound rs []
    (by simp) hst⟩

/-- A failure counts its location: with two of three nodes accepting, both in
the east, the failed response of the west node completes the quorum of two
locations. -/
theorem location_quorum_counts_failures :
    ¬ ∀ (location : String) (nodes : List NodeState) (op : ParentOp)
      (s f L : Int), 1 < L → ∀ rs : List Response,
      let c := { newContext (some location) nodes op with
        successThreshold := s, failureThreshold := f, locationThreshold := L }
      statusAfter c rs = .succeeded → L ≤ ((successLocations rs).card : Int) := by
  intro h
  have := h "east" [] ⟨1, .put, ⟨"http", "a", 8000, "/x", none⟩⟩ 2 2 2 (by decide)
    [⟨none, none, some "east"⟩,
      ⟨none, some ⟨⟨"http", "b", 8000, "/x", none⟩, 200, none⟩, some "east"⟩,
      ⟨some "timeout", some ⟨⟨"http", "c", 8000, "/x", none⟩, 408, none⟩, some "west"⟩]
    (by decide +kernel)
  revert this
  decide +kernel

end Xenon.Replication

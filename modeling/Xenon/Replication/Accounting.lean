import Xenon.Replication.Service

/-!
# The accounting of a replication

A replication is over when every selected node has been accounted for. Whether
the parent operation has been decided by then depends on the responses only
through their number, the number of failures among them and their locations,
and these are fixed by the selected nodes up to the outcome of the nodes that
answer (`Accounted`). The thresholds of the source are compared with what can
really arrive: the local node, and the selected nodes that are neither skipped
as observers nor ignored for their location.
-/

namespace Xenon.Replication

open Xenon.Common Xenon.Foundation

/-! ## The nodes a context hears from -/

/-- The location under which the responses of `m` are counted. -/
def nodeLocation (service : ServiceState) (m : NodeState) : Option String :=
  (service.locationPerNodeURI m.groupReference).or m.location

/-- The responses of `m` reach the context: the loop does not skip the node,
and its responses are not ignored for their location. -/
def counted (hostId : String) (location : Option String) (locationQuorum : Int)
    (service : ServiceState) (m : NodeState) : Bool :=
  m.id ≠ hostId && !m.options.contains .observer &&
    (location = none || locationQuorum ≠ 1 || nodeLocation service m = location)

section Run

variable (hostId : String) (service : ServiceState) (c : Context)

/-- The response of the local node. -/
def selfResponse (c : Context) : Response := ⟨none, none, c.location⟩

theorem start_heard : (start service c).heard = [selfResponse c] := by
  have hl : remoteLocation service c none = c.location := by
    unfold remoteLocation
    cases c.location <;> rfl
  have h : handleReplicationCompletion service c none none = some (selfResponse c) := by
    unfold handleReplicationCompletion
    rw [if_neg (by simp [hl]), hl]
    rfl
  simp [start, h]

abbrev countedNode (m : NodeState) : Bool :=
  counted hostId c.location c.locationThreshold service m

/-- The caches answer for `m` what they will answer until the end. -/
def Located (s : State) (m : NodeState) : Prop :=
  c.location ≠ none →
    s.service.nodeGroupLink = some m.groupReference.path ∧
      s.service.locationPerNodeURI m.groupReference = nodeLocation service m

/-- The location a counted response carries. -/
def responseLocation (m : NodeState) : Option String :=
  if c.location = none then none else nodeLocation service m

/-- The response of `m` as the context hears it. -/
def nodeResponse (m : NodeState) (code : Int) (errorCode : Option Int)
    (e : Option String) : Response :=
  ⟨completionError (some (peerOp c m code errorCode)) e,
    some (peerOp c m code errorCode), responseLocation service c m⟩

variable {hostId service c}

/-- The response handed to the context for a node the loop has passed. -/
theorem handle_located {s : State} {m : NodeState} (hloc : Located service c s m)
    (hquery : m.groupReference.query = none) (hself : m.id ≠ hostId) (hobs : m.options.contains .observer = false)
    (code : Int) (errorCode : Option Int) (e : Option String) :
    handleReplicationCompletion s.service c (some (peerOp c m code errorCode)) e =
      if countedNode hostId service c m then
        some (nodeResponse service c m code errorCode e)
      else none := by
  have hrl : remoteLocation s.service c (some (peerOp c m code errorCode)) =
      responseLocation service c m := by
    unfold remoteLocation responseLocation
    cases hl : c.location with
    | none => simp
    | some l =>
        obtain ⟨hlink, hmap⟩ := hloc (by simp [hl])
        have huri : buildServiceUri (peerOp c m code errorCode).uri.scheme
            (peerOp c m code errorCode).uri.host (peerOp c m code errorCode).uri.port
            m.groupReference.path none = m.groupReference := by
          rw [← hquery]
          rfl
        simp [getLocation, hlink, huri, hmap]
  have hcnt : (countedNode hostId service c m = true) ↔
      ¬ (c.location ≠ none ∧ c.locationThreshold = 1 ∧
        c.location ≠ responseLocation service c m) := by
    have hskip : (decide (m.id ≠ hostId) && !m.options.contains .observer) = true := by
      rw [hobs, decide_eq_true hself]
      rfl
    simp only [countedNode, counted, hskip, Bool.true_and, Bool.or_eq_true,
      decide_eq_true_eq, responseLocation]
    by_cases hl : c.location = none
    · simp [hl]
    · rw [if_neg hl, @eq_comm _ (nodeLocation service m)]
      tauto
  unfold handleReplicationCompletion
  rw [hrl]
  by_cases hc : countedNode hostId service c m = true
  · rw [if_neg (hcnt.mp hc), if_pos hc]
    rfl
  · rw [if_pos (not_not.mp fun h => hc (hcnt.mpr h)), if_neg hc]

/-! ## The caches during a run

`updateLocation` only fills in what is absent, so a location that was looked
up once stays. -/

/-- Members of one group: one path, and one location per address. -/
structure Group (nodes : List NodeState) : Prop where
  path : ∀ m ∈ nodes, ∀ m' ∈ nodes, m.groupReference.path = m'.groupReference.path
  query : ∀ m ∈ nodes, m.groupReference.query = none
  location : ∀ m ∈ nodes, ∀ m' ∈ nodes,
    m.groupReference = m'.groupReference → m.location = m'.location

/-- The cache has for `m` what it had at the start, or what it will have. -/
def Cached (service : ServiceState) (s : State) (m : NodeState) : Prop :=
  s.service.locationPerNodeURI m.groupReference =
      service.locationPerNodeURI m.groupReference ∨
    s.service.locationPerNodeURI m.groupReference = nodeLocation service m

theorem or_or_self (a b : Option String) : (a.or b).or b = a.or b := by
  cases a <;> cases b <;> rfl

/-- Visiting `m'` fixes the location of the nodes at its address. -/
theorem updateLocation_same {s : State} {m m' : NodeState}
    (h : Cached service s m) (href : m.groupReference = m'.groupReference)
    (hloc : m.location = m'.location) :
    (updateLocation s.service m').locationPerNodeURI m.groupReference =
      nodeLocation service m := by
  simp only [updateLocation, if_pos href, ← hloc]
  rcases h with h | h
  · rw [h, nodeLocation]
  · rw [h, nodeLocation, or_or_self]

theorem updateLocation_other {s : State} {m m' : NodeState}
    (href : m.groupReference ≠ m'.groupReference) :
    (updateLocation s.service m').locationPerNodeURI m.groupReference =
      s.service.locationPerNodeURI m.groupReference := by
  simp only [updateLocation, if_neg href]

theorem Cached.updateLocation {nodes : List NodeState} (hg : Group nodes)
    {s s' : State} {m m' : NodeState} (hm : m ∈ nodes) (hm' : m' ∈ nodes)
    (hs : s'.service = Replication.updateLocation s.service m')
    (h : Cached service s m) : Cached service s' m := by
  unfold Cached
  rw [hs]
  by_cases href : m.groupReference = m'.groupReference
  · exact Or.inr (updateLocation_same h href (hg.location m hm m' hm' href))
  · rw [updateLocation_other href]
    exact h

theorem Located.updateLocation {nodes : List NodeState} (hg : Group nodes)
    {s s' : State} {m m' : NodeState} (hm : m ∈ nodes) (hm' : m' ∈ nodes)
    (hs : s'.service = Replication.updateLocation s.service m')
    (h : Located service c s m) : Located service c s' m := by
  intro hl
  obtain ⟨hlink, hmap⟩ := h hl
  rw [hs]
  refine ⟨by simp [Replication.updateLocation, hg.path m hm m' hm'], ?_⟩
  by_cases href : m.groupReference = m'.groupReference
  · exact updateLocation_same (Or.inr hmap) href (hg.location m hm m' hm' href)
  · rw [updateLocation_other href, hmap]

theorem located_visited {s s' : State} {m : NodeState}
    (hs : s'.service = Replication.updateLocation s.service m)
    (h : Cached service s m) : Located service c s' m := by
  intro _
  rw [hs]
  exact ⟨rfl, updateLocation_same h rfl rfl⟩

/-! ## Every node is accounted for once -/

/-- The node is sent to: not the local node, not an observer, not down. -/
structure Sent (hostId : String) (m : NodeState) : Prop where
  notSelf : m.id ≠ hostId
  notObserver : m.options.contains .observer = false
  available : isUnAvailable m = false

/-- The state of a run, with the nodes `done` that the context has heard from
and their responses. -/
structure Accounted (hostId : String) (service : ServiceState) (c : Context)
    (s : State) (done : List (NodeState × Response)) : Prop where
  heard : s.heard = selfResponse c :: done.map Prod.snd
  nodes : (done.map Prod.fst ++
      (s.inflight ++ s.todo).filter (countedNode hostId service c)).Perm
    (c.nodes.filter (countedNode hostId service c))
  location : ∀ p ∈ done, p.2.remoteLocation = responseLocation service c p.1
  unavailable : ∀ p ∈ done, isUnAvailable p.1 = true → p.2.e ≠ none
  inflight : ∀ m ∈ s.inflight, m ∈ c.nodes ∧ Sent hostId m ∧ Located service c s m
  todo : ∀ m ∈ s.todo, m ∈ c.nodes
  cached : ∀ m ∈ c.nodes, Cached service s m

theorem accounted_start : Accounted hostId service c (start service c) [] where
  heard := start_heard service c
  nodes := List.Perm.refl _
  location := by simp
  unavailable := by simp
  inflight := by simp [start]
  todo := fun _ h => h
  cached := fun _ _ => Or.inl rfl

/-- A node that the loop skips is not counted. -/
theorem not_counted_of_skipped {m : NodeState}
    (h : m.id = hostId ∨ m.options.contains .observer = true) :
    countedNode hostId service c m = false := by
  rcases h with h | h
  · simp [countedNode, counted, h]
  · simp only [countedNode, counted, h, Bool.not_true, Bool.and_false, Bool.false_and]

/-- What the response of `m` adds to the nodes heard from. -/
def heardFrom (hostId : String) (service : ServiceState) (c : Context)
    (m : NodeState) (code : Int) (errorCode : Option Int) (e : Option String) :
    List (NodeState × Response) :=
  if countedNode hostId service c m then
    [(m, nodeResponse service c m code errorCode e)]
  else []

theorem mem_heardFrom {m : NodeState} {code : Int} {errorCode : Option Int}
    {e : Option String} {p : NodeState × Response}
    (h : p ∈ heardFrom hostId service c m code errorCode e) :
    p = (m, nodeResponse service c m code errorCode e) := by
  unfold heardFrom at h
  split at h
  · exact List.mem_singleton.mp h
  · exact absurd h List.not_mem_nil

/-- The response to a node that leaves the loop or the network is added to the
context exactly if the node is counted. -/
theorem Accounted.add {s s' : State} {done : List (NodeState × Response)}
    {m : NodeState} {code : Int} {errorCode : Option Int} {e : Option String}
    (rest : List NodeState) (hg : Group c.nodes)
    (h : Accounted hostId service c s done) (hm : m ∈ c.nodes)
    (hself : m.id ≠ hostId) (hobs : m.options.contains .observer = false)
    (hloc : Located service c s' m)
    (hdown : isUnAvailable m = true → e ≠ none)
    (hpend : (s.inflight ++ s.todo).Perm (m :: rest))
    (hrest : (s'.inflight ++ s'.todo).Perm rest)
    (hheard : s'.heard = s.heard ++ (handleReplicationCompletion s'.service c
      (some (peerOp c m code errorCode)) e).toList)
    (hinflight : ∀ m ∈ s'.inflight, m ∈ c.nodes ∧ Sent hostId m ∧ Located service c s' m)
    (htodo : ∀ m ∈ s'.todo, m ∈ c.nodes)
    (hcached : ∀ m ∈ c.nodes, Cached service s' m) :
    Accounted hostId service c s'
      (done ++ heardFrom hostId service c m code errorCode e) := by
  rw [handle_located hloc (hg.query m hm) hself hobs] at hheard
  have hfilter := hpend.filter (countedNode hostId service c)
  have hfilter' := hrest.filter (countedNode hostId service c)
  refine ⟨?_, ?_, ?_, ?_, hinflight, htodo, hcached⟩
  · rw [hheard, h.heard, heardFrom]
    split <;> simp
  · rw [List.map_append, List.append_assoc]
    refine (List.Perm.append_left _ ?_).trans h.nodes
    refine List.Perm.trans ?_ hfilter.symm
    unfold heardFrom
    by_cases hc : countedNode hostId service c m = true
    · rw [if_pos hc, List.filter_cons_of_pos hc]
      exact List.Perm.cons m hfilter'
    · rw [if_neg hc, List.filter_cons_of_neg hc]
      exact hfilter'
  · intro p hp
    rcases List.mem_append.mp hp with hp | hp
    · exact h.location p hp
    · rw [mem_heardFrom hp]
      rfl
  · intro p hp
    rcases List.mem_append.mp hp with hp | hp
    · exact h.unavailable p hp
    · rw [mem_heardFrom hp]
      intro hu
      cases e with
      | none => exact absurd rfl (hdown hu)
      | some x => simp [nodeResponse, completionError]

/-! ## One step of the run -/

/-- The state after the loop has visited `m`. -/
def visited (c : Context) (s : State) (m : NodeState) : ServiceState :=
  if c.location ≠ none then updateLocation s.service m else s.service

theorem visited_cached (hg : Group c.nodes) {s s' : State} {m : NodeState}
    (hm : m ∈ c.nodes) (hs : s'.service = visited c s m)
    (h : ∀ m ∈ c.nodes, Cached service s m) :
    ∀ m ∈ c.nodes, Cached service s' m := by
  intro m' hm'
  unfold visited at hs
  split at hs
  · exact (h m' hm').updateLocation hg hm' hm hs
  · have := h m' hm'
    rwa [Cached, hs]

theorem visited_located (hg : Group c.nodes) {s s' : State} {m m' : NodeState}
    (hm : m ∈ c.nodes) (hm' : m' ∈ c.nodes) (hs : s'.service = visited c s m)
    (h : Located service c s m') : Located service c s' m' := by
  unfold visited at hs
  split at hs
  · exact h.updateLocation hg hm' hm hs
  · intro hl
    rw [hs]
    exact h hl

theorem located_of_visited {s s' : State} {m : NodeState}
    (hs : s'.service = visited c s m) (h : Cached service s m) :
    Located service c s' m := by
  intro hl
  rw [visited, if_pos hl] at hs
  exact located_visited (c := c) hs h hl

/-- **The loop takes a node**: it is skipped, or heard from as unavailable, or
sent to. -/
theorem Accounted.next (hg : Group c.nodes) {s s' : State}
    {done : List (NodeState × Response)} (h : Accounted hostId service c s done)
    (hstep : step hostId c s .next = some s') :
    ∃ m, s.todo = m :: s'.todo ∧
      ∃ more, Accounted hostId service c s' (done ++ more) ∧
        ∀ p ∈ more, isUnAvailable p.1 = true := by
  cases htodo : s.todo with
  | nil => simp [step, htodo] at hstep
  | cons m rest =>
      have hm : m ∈ c.nodes := h.todo m (by simp [htodo])
      have hsub : ∀ x ∈ rest, x ∈ c.nodes := fun x hx => h.todo x (by simp [htodo, hx])
      simp only [step, htodo] at hstep
      -- the host itself and observers are passed over and count nowhere
      by_cases hskip : m.id = hostId ∨ m.options.contains .observer = true
      · have hs' : s' = { s with todo := rest } := by
          rcases hskip with hk | hk
          · rw [if_pos hk] at hstep
            exact (Option.some.inj hstep).symm
          · rw [if_pos hk, ite_self] at hstep
            exact (Option.some.inj hstep).symm
        subst hs'
        refine ⟨m, rfl, [], ?_, by simp⟩
        rw [List.append_nil]
        refine ⟨h.heard, ?_, h.location, h.unavailable, h.inflight, hsub, h.cached⟩
        have hn := h.nodes
        rw [htodo, List.filter_append, List.filter_cons_of_neg
          (by rw [not_counted_of_skipped hskip]; simp)] at hn
        rwa [List.filter_append]
      · obtain ⟨hself, hobs⟩ := not_or.mp hskip
        rw [if_neg hself, if_neg hobs] at hstep
        have hobs : m.options.contains .observer = false := Bool.not_eq_true _ ▸ hobs
        -- an unavailable node fails at once, any other is sent the request
        by_cases hu : isUnAvailable m = true
        · rw [if_pos hu] at hstep
          obtain rfl := Option.some.inj hstep
          refine ⟨m, rfl, heardFrom hostId service c m statusCodeFailureThreshold none
            (some "node is not available"), ?_, ?_⟩
          · refine h.add (s.inflight ++ rest) hg hm hself hobs ?_ ?_ ?_
              (List.Perm.refl _) rfl ?_ hsub (visited_cached hg hm rfl h.cached)
            · exact located_of_visited rfl (h.cached m hm)
            · exact fun _ => by simp
            · rw [htodo]
              exact List.perm_middle
            · intro x hx
              obtain ⟨h1, h2, h3⟩ := h.inflight x hx
              exact ⟨h1, h2, visited_located hg hm h1 rfl h3⟩
          · intro p hp
            rw [mem_heardFrom hp]
            exact hu
        · rw [if_neg hu] at hstep
          obtain rfl := Option.some.inj hstep
          refine ⟨m, rfl, [], ?_, by simp⟩
          rw [List.append_nil]
          refine ⟨h.heard, ?_, h.location, h.unavailable, ?_, hsub,
            visited_cached hg hm rfl h.cached⟩
          · refine List.Perm.trans (List.Perm.append_left _ ?_) h.nodes
            refine List.Perm.filter _ ?_
            rw [htodo]
            exact List.perm_middle.symm
          · intro x hx
            rcases List.mem_cons.mp hx with rfl | hx
            · exact ⟨hm, ⟨hself, hobs, Bool.not_eq_true _ ▸ hu⟩,
                located_of_visited rfl (h.cached x hm)⟩
            · obtain ⟨h1, h2, h3⟩ := h.inflight x hx
              exact ⟨h1, h2, visited_located hg hm h1 rfl h3⟩

/-- **A response arrives** from a node that was sent to. -/
theorem Accounted.response (hg : Group c.nodes) {s s' : State}
    {done : List (NodeState × Response)} (h : Accounted hostId service c s done)
    {m : NodeState} {e : Option String} {code : Int} {errorCode : Option Int}
    (hstep : step hostId c s (.response m e code errorCode) = some s') :
    m ∈ s.inflight ∧ s'.inflight = s.inflight.erase m ∧ s'.todo = s.todo ∧
      Accounted hostId service c s'
        (done ++ heardFrom hostId service c m code errorCode e) := by
  simp only [step] at hstep
  split at hstep
  case isFalse => simp at hstep
  case isTrue hin =>
    obtain rfl := Option.some.inj hstep
    obtain ⟨hm, hsent, hloc⟩ := h.inflight m hin
    refine ⟨hin, rfl, rfl, ?_⟩
    refine h.add (s.inflight.erase m ++ s.todo) hg hm hsent.notSelf
      hsent.notObserver hloc ?_ ?_ (List.Perm.refl _) rfl ?_ h.todo h.cached
    · intro hu
      rw [hsent.available] at hu
      simp at hu
    · exact (List.perm_cons_erase hin).append_right _
    · exact fun x hx => h.inflight x (List.mem_of_mem_erase hx)

/-- **Every state of a run is accounted for.** -/
theorem accounted_reach (hg : Group c.nodes) {es : List Event} {s : State}
    {ok : State → Event → Prop}
    (h : Reach (step hostId c) ok (start service c) es s) :
    ∃ done, Accounted hostId service c s done := by
  refine h.invariant (fun s => ∃ done, Accounted hostId service c s done)
    ⟨[], accounted_start⟩ ?_
  rintro s e s' - hstep ⟨done, hacc⟩
  cases e with
  | next =>
      obtain ⟨_, _, more, hmore, _⟩ := hacc.next hg hstep
      exact ⟨_, hmore⟩
  | response m e code errorCode => exact ⟨_, (hacc.response hg hstep).2.2.2⟩

end Run

end Xenon.Replication

import Mathlib.Logic.Function.Basic
import Xenon.Foundation.Rotation
import Xenon.Foundation.Run

/-!
# The maintenance schedule

`ServiceMaintenanceTracker` keeps the links of the services by the time at which they are due. A
pass takes the first bucket that is due and then comes to its links one by one, while other
services, and the same ones, may be scheduled. The time at which a service is due is a sum of longs.
-/

namespace Xenon.Common.ServiceMaintenanceTracker

open Xenon.Foundation

/-- A sum of longs, which wraps around. -/
def long (x : Int) : Int := x.bmod (2 ^ 64)

/-- `SCHEDULING_EPSILON_MICROS`. -/
def schedulingEpsilonMicros : Int := 10000

/-- `nextExpirationMicros` of `schedule`. -/
def nextExpirationMicros (now interval : Nat) : Int :=
  max (now : Int) (long (now + interval - schedulingEpsilonMicros))

/-- `nextExpiration`, the links by time. -/
abbrev Buckets := SortedMap Int (List String)

/-- The set of a time without a link. -/
def Buckets.removeLink (buckets : Buckets) (expiration : Int) (selfLink : String) : Buckets :=
  match buckets.get expiration with
  | none => buckets
  | some services => buckets.insert expiration (services.filter (· ≠ selfLink))

/-- The set of a time, which may be a new one, with a link. -/
def Buckets.addLink (buckets : Buckets) (expiration : Int) (selfLink : String) : Buckets :=
  buckets.insert expiration (((buckets.get expiration).getD []).insert selfLink)

/-- The tracker, with the intervals of its host, and with the links that a pass has taken and not
come to, by the time of their bucket. -/
structure Tracker where
  trackedServices : String → Option Int
  nextExpiration : Buckets
  taken : List (String × Int)
  maintenanceIntervalMicros : Nat
  maintenanceCheckIntervalMicros : Nat

/-- The interval of a service, or of the host. -/
def Tracker.interval (s : Tracker) (interval : Nat) : Nat :=
  if interval = 0 then s.maintenanceIntervalMicros else interval

/-- `schedule`. -/
def Tracker.schedule (s : Tracker) (selfLink : String) (interval now : Nat) : Tracker :=
  let interval := s.interval interval
  let nextExpirationMicros := nextExpirationMicros now interval
  let nextExpiration := match s.trackedServices selfLink with
    | none => s.nextExpiration
    | some expiration => s.nextExpiration.removeLink expiration selfLink
  { s with
    trackedServices := Function.update s.trackedServices selfLink (some nextExpirationMicros)
    nextExpiration := nextExpiration.addLink nextExpirationMicros selfLink
    maintenanceCheckIntervalMicros :=
      if interval < s.maintenanceCheckIntervalMicros then interval
      else s.maintenanceCheckIntervalMicros }

/-- The first bucket is taken if it is due. -/
def Tracker.poll (s : Tracker) (now : Nat) : Tracker :=
  match s.nextExpiration.firstEntry with
  | none => s
  | some (expiration, services) =>
      if expiration ≥ now then s
      else { s with
        nextExpiration := s.nextExpiration.remove expiration
        taken := s.taken ++ services.map fun link => (link, expiration) }

/-- What happens to the tracker. -/
inductive Event where
  /-- A service is scheduled, as it starts or when its maintenance has completed. -/
  | schedule (selfLink : String) (interval now : Nat)
  /-- A pass looks for a bucket that is due. -/
  | poll (now : Nat)
  /-- A pass comes to a service that is not there, not available or not maintained. -/
  | skip (servicePath : String) (expiration : Int) (now : Nat)
  /-- A pass comes to a service that is not owned, or not known to be, and schedules it. -/
  | disown (servicePath : String) (expiration : Int) (interval now : Nat)
  /-- A pass hands a service to maintenance. -/
  | perform (servicePath : String) (expiration : Int) (now : Nat)

/-- The time of an event. -/
def Event.now : Event → Nat
  | schedule _ _ now | poll now | skip _ _ now | disown _ _ _ now | perform _ _ now => now

/-- A step of the tracker. A service that is skipped and not tracked makes the pass throw. -/
def step (s : Tracker) : Event → Option Tracker
  | .schedule selfLink interval now => some (s.schedule selfLink interval now)
  | .poll now => some (s.poll now)
  | .skip servicePath expiration _ =>
      if (servicePath, expiration) ∈ s.taken then
        let s := { s with taken := s.taken.erase (servicePath, expiration) }
        match s.trackedServices servicePath with
        | none => none
        | some serviceExpiration =>
            if serviceExpiration = expiration then
              some { s with trackedServices := Function.update s.trackedServices servicePath none }
            else some s
      else none
  | .disown servicePath expiration interval now =>
      if (servicePath, expiration) ∈ s.taken then
        let s := { s with taken := s.taken.erase (servicePath, expiration) }
        some (s.schedule servicePath interval now)
      else none
  | .perform servicePath expiration _ =>
      if (servicePath, expiration) ∈ s.taken then
        some { s with taken := s.taken.erase (servicePath, expiration) }
      else none

/-- A tracker of no services. -/
def create (maintenanceIntervalMicros maintenanceCheckIntervalMicros : Nat) : Tracker :=
  ⟨fun _ => none, SortedMap.empty, [], maintenanceIntervalMicros, maintenanceCheckIntervalMicros⟩

/-! ## What is expected -/

/-- A link is in the bucket of a time. -/
def Buckets.Has (buckets : Buckets) (link : String) (t : Int) : Prop :=
  ∃ services, (t, services) ∈ buckets.entries ∧ link ∈ services

/-- A link is in at most one bucket, that of the time it is tracked with. -/
def Tracker.OneBucket (s : Tracker) : Prop :=
  ∀ link t, s.nextExpiration.Has link t → s.trackedServices link = some t

/-- The link that an event schedules, with the interval that is asked for. -/
def Event.scheduled : Event → Option (String × Nat)
  | schedule selfLink interval _ => some (selfLink, interval)
  | disown servicePath _ interval _ => some (servicePath, interval)
  | _ => none

/-- A link that is scheduled gets into a bucket, and a link in a bucket stays in one until a pass
takes it. -/
structure Stays (s : Tracker) (e : Event) (s' : Tracker) : Prop where
  scheduled : ∀ link interval, e.scheduled = some (link, interval) →
    ∃ t, s'.nextExpiration.Has link t
  kept : ∀ link t, s.nextExpiration.Has link t →
    (∃ t', s'.nextExpiration.Has link t') ∨ (e = .poll e.now ∧ (link, t) ∈ s'.taken)

/-- When a link was scheduled last, and with which interval. -/
def lastScheduled (s₀ : Tracker) (es : List Event) (link : String) : Option (Nat × Nat) :=
  es.foldl (fun last e => match e.scheduled with
    | some (selfLink, interval) =>
        if selfLink = link then some (e.now, s₀.interval interval) else last
    | none => last) none

/-- A link that is handed to maintenance was scheduled as long ago as its interval, but for the
epsilon. -/
def NotEarly (s₀ : Tracker) (es : List Event) (e : Event) : Prop :=
  ∀ servicePath expiration now, e = .perform servicePath expiration now →
    ∃ last ∈ lastScheduled s₀ es servicePath,
      (last.1 : Int) + last.2 - schedulingEpsilonMicros ≤ now

/-- The events come one after the other in time. -/
def Chronological (es : List Event) : Prop := (es.map Event.now).Pairwise (· ≤ ·)

/-- A link is scheduled without overflow, and not while a pass has taken it. -/
def Schedulable (s : Tracker) : Event → Prop
  | .schedule selfLink interval now =>
      (now : Int) + s.interval interval - schedulingEpsilonMicros < 2 ^ 63 ∧
        ∀ t, (selfLink, t) ∉ s.taken
  | .disown servicePath expiration interval now =>
      (now : Int) + s.interval interval - schedulingEpsilonMicros < 2 ^ 63 ∧
        ∀ t, (servicePath, t) ∉ s.taken.erase (servicePath, expiration)
  | _ => True

/-! ## Buckets -/

namespace Buckets

variable {buckets : Buckets} {link selfLink : String} {t expiration : Int}

theorem has_iff_get : buckets.Has link t ↔ ∃ services, buckets.get t = some services ∧
    link ∈ services :=
  exists_congr fun _ => and_congr_left fun _ => SortedMap.get_eq_some.symm

theorem Has.mem_keys (h : buckets.Has link t) : t ∈ buckets.keys := by
  obtain ⟨services, hentry, -⟩ := h
  exact SortedMap.mem_keys.mpr ⟨services, hentry⟩

theorem has_remove : Has (buckets.remove expiration) link t ↔
    buckets.Has link t ∧ t ≠ expiration := by
  unfold Has
  simp only [SortedMap.mem_remove]
  constructor
  · rintro ⟨services, ⟨hentry, hne⟩, hlink⟩
    exact ⟨⟨services, hentry, hlink⟩, hne⟩
  · rintro ⟨⟨services, hentry, hlink⟩, hne⟩
    exact ⟨services, ⟨hentry, hne⟩, hlink⟩

theorem has_removeLink : (buckets.removeLink expiration selfLink).Has link t ↔
    buckets.Has link t ∧ ¬(link = selfLink ∧ t = expiration) := by
  unfold removeLink
  cases hget : buckets.get expiration with
  | none =>
      refine ⟨fun h => ⟨h, ?_⟩, fun h => h.1⟩
      rintro ⟨-, rfl⟩
      obtain ⟨services, hsome, -⟩ := has_iff_get.mp h
      rw [hget] at hsome
      cases hsome
  | some services =>
      rw [has_iff_get, has_iff_get]
      by_cases ht : t = expiration
      · subst ht
        rw [SortedMap.get_insert_self, hget]
        simp
      · rw [SortedMap.get_insert_of_ne ht]
        simp [ht]

theorem has_addLink : (buckets.addLink expiration selfLink).Has link t ↔
    buckets.Has link t ∨ link = selfLink ∧ t = expiration := by
  unfold addLink
  rw [has_iff_get, has_iff_get]
  by_cases ht : t = expiration
  · subst ht
    rw [SortedMap.get_insert_self]
    cases buckets.get t <;> simp [or_comm]
  · rw [SortedMap.get_insert_of_ne ht]
    simp [ht]

theorem keys_removeLink : (buckets.removeLink expiration selfLink).keys = buckets.keys := by
  unfold removeLink
  cases hget : buckets.get expiration with
  | none => rfl
  | some services =>
      have hmem : expiration ∈ buckets.keys :=
        SortedMap.mem_keys.mpr ⟨services, SortedMap.get_eq_some.mp hget⟩
      rw [SortedMap.keys_insert, Finset.insert_eq_of_mem hmem]

end Buckets

/-! ## One call -/

section Call

variable {s : Tracker} {link selfLink : String} {t : Int} {interval now : Nat}

/-- A link that is scheduled is in the bucket of its time alone. -/
theorem has_schedule (h : s.OneBucket) :
    (s.schedule selfLink interval now).nextExpiration.Has link t ↔
      link = selfLink ∧ t = nextExpirationMicros now (s.interval interval) ∨
        link ≠ selfLink ∧ s.nextExpiration.Has link t := by
  have hremoved : (match s.trackedServices selfLink with
      | none => s.nextExpiration
      | some expiration => s.nextExpiration.removeLink expiration selfLink).Has link t ↔
      link ≠ selfLink ∧ s.nextExpiration.Has link t := by
    cases htracked : s.trackedServices selfLink with
    | none =>
        refine ⟨fun hlink => ⟨?_, hlink⟩, fun hlink => hlink.2⟩
        rintro rfl
        rw [h _ _ hlink] at htracked
        cases htracked
    | some expiration =>
        rw [Buckets.has_removeLink]
        constructor
        · rintro ⟨hlink, hnot⟩
          refine ⟨?_, hlink⟩
          rintro rfl
          rw [h _ _ hlink] at htracked
          exact hnot ⟨rfl, Option.some.inj htracked⟩
        · rintro ⟨hne, hlink⟩
          exact ⟨hlink, fun heq => hne heq.1⟩
  show (Buckets.addLink _ _ _).Has link t ↔ _
  rw [Buckets.has_addLink, hremoved, or_comm]

theorem Tracker.OneBucket.schedule (h : s.OneBucket) (selfLink : String) (interval now : Nat) :
    (s.schedule selfLink interval now).OneBucket := by
  intro link t hlink
  show Function.update _ _ _ link = _
  rcases (has_schedule h).mp hlink with ⟨rfl, rfl⟩ | ⟨hne, hlink⟩
  · rw [Function.update_self]
  · rw [Function.update_of_ne hne, h link t hlink]

theorem keys_schedule (s : Tracker) (selfLink : String) (interval now : Nat) :
    (s.schedule selfLink interval now).nextExpiration.keys =
      insert (nextExpirationMicros now (s.interval interval)) s.nextExpiration.keys := by
  show (Buckets.addLink _ _ _).keys = _
  unfold Buckets.addLink
  rw [SortedMap.keys_insert]
  cases s.trackedServices selfLink with
  | none => rfl
  | some expiration => rw [Buckets.keys_removeLink]

/-- What a pass finds. -/
theorem poll_cases (s : Tracker) (now : Nat) : s.poll now = s ∨
    ∃ expiration services, s.nextExpiration.firstEntry = some (expiration, services) ∧
      expiration < now ∧ s.poll now = { s with
        nextExpiration := s.nextExpiration.remove expiration
        taken := s.taken ++ services.map fun link => (link, expiration) } := by
  unfold Tracker.poll
  cases hfirst : s.nextExpiration.firstEntry with
  | none => exact Or.inl rfl
  | some e =>
      obtain ⟨expiration, services⟩ := e
      dsimp only
      split_ifs with hdue
      · exact Or.inl rfl
      · exact Or.inr ⟨expiration, services, rfl, not_le.mp hdue, rfl⟩

/-- The sum does not wrap around if it stays below the end of the range. -/
theorem le_nextExpirationMicros
    (h : (now : Int) + interval - schedulingEpsilonMicros < 2 ^ 63) :
    (now : Int) + interval - schedulingEpsilonMicros ≤ nextExpirationMicros now interval := by
  have hlong : long (now + interval - schedulingEpsilonMicros) =
      now + interval - schedulingEpsilonMicros := by
    unfold long schedulingEpsilonMicros at *
    exact Int.bmod_eq_of_le (by omega) (by omega)
  unfold nextExpirationMicros
  rw [hlong]
  exact le_max_right _ _

end Call

/-! ## The invariant -/

section Runs

variable {ok : Tracker → Event → Prop} {s₀ s s' : Tracker} {es : List Event} {e : Event}
  {link : String} {t : Int}

/-- Links are in the buckets they are tracked with, and what was taken was due before all that is
still there. -/
structure Inv (es : List Event) (s : Tracker) : Prop where
  oneBucket : s.OneBucket
  later : ∀ p ∈ s.taken, ∀ t ∈ s.nextExpiration.keys, p.2 < t
  due : ∀ p ∈ s.taken, ∃ e ∈ es, p.2 < e.now

/-- What is taken was due before the next event. -/
theorem Inv.lt_now (h : Inv es s) (hnow : ∀ e' ∈ es, e'.now ≤ e.now) {p : String × Int}
    (hp : p ∈ s.taken) : p.2 < e.now := by
  obtain ⟨e', he', hlt⟩ := h.due p hp
  exact lt_of_lt_of_le hlt (Int.ofNat_le.mpr (hnow e' he'))

/-- An event that takes nothing leaves what was taken due. -/
theorem Inv.due_concat (h : Inv es s) (e : Event) {taken : List (String × Int)}
    (hsub : taken ⊆ s.taken) : ∀ p ∈ taken, ∃ e' ∈ es ++ [e], p.2 < e'.now := by
  intro p hp
  obtain ⟨e', he', hlt⟩ := h.due p (hsub hp)
  exact ⟨e', List.mem_append_left _ he', hlt⟩

theorem Inv.schedule (h : Inv es s) (hnow : ∀ e' ∈ es, e'.now ≤ e.now)
    {taken : List (String × Int)} (hsub : taken ⊆ s.taken) (selfLink : String) (interval : Nat) :
    Inv (es ++ [e]) ({ s with taken := taken }.schedule selfLink interval e.now) where
  oneBucket := Tracker.OneBucket.schedule (s := { s with taken := taken }) h.oneBucket _ _ _
  later := by
    intro p hp t ht
    rw [keys_schedule] at ht
    rcases Finset.mem_insert.mp ht with rfl | ht
    · exact lt_of_lt_of_le (h.lt_now hnow (hsub hp)) (le_max_left _ _)
    · exact h.later p (hsub hp) t ht
  due := h.due_concat e hsub

theorem Inv.poll (h : Inv es s) (now : Nat) : Inv (es ++ [.poll now]) (s.poll now) := by
  rcases poll_cases s now with hpoll | ⟨expiration, services, hfirst, hlt, hpoll⟩
  · rw [hpoll]
    exact ⟨h.oneBucket, h.later, h.due_concat _ (List.Subset.refl s.taken)⟩
  · obtain ⟨-, hleast⟩ := SortedMap.mem_firstEntry hfirst
    rw [hpoll]
    constructor
    · intro link t hlink
      exact h.oneBucket link t (Buckets.has_remove.mp hlink).1
    · intro p hp t ht
      have ht' : t ∈ s.nextExpiration.keys.erase expiration := by
        rw [← SortedMap.keys_remove]
        exact ht
      obtain ⟨hne, hmem⟩ := Finset.mem_erase.mp ht'
      rcases List.mem_append.mp hp with hp | hp
      · exact h.later p hp t hmem
      · obtain ⟨link, -, rfl⟩ := List.mem_map.mp hp
        exact lt_of_le_of_ne (hleast t hmem) (Ne.symm hne)
    · intro p hp
      rcases List.mem_append.mp hp with hp | hp
      · exact h.due_concat _ (List.Subset.refl s.taken) p hp
      · obtain ⟨link, -, rfl⟩ := List.mem_map.mp hp
        exact ⟨.poll now, List.mem_append_right _ List.mem_cons_self, hlt⟩

/-- What a step can do. -/
theorem step_cases (h : step s e = some s') :
    (∃ selfLink interval, e = .schedule selfLink interval e.now ∧
      s' = s.schedule selfLink interval e.now) ∨
    (e = .poll e.now ∧ s' = s.poll e.now) ∨
    (∃ servicePath expiration, e = .skip servicePath expiration e.now ∧
      (servicePath, expiration) ∈ s.taken ∧
      s' = { s with
        taken := s.taken.erase (servicePath, expiration)
        trackedServices :=
          if s.trackedServices servicePath = some expiration then
            Function.update s.trackedServices servicePath none
          else s.trackedServices }) ∨
    (∃ servicePath expiration interval, e = .disown servicePath expiration interval e.now ∧
      (servicePath, expiration) ∈ s.taken ∧
      s' = { s with taken := s.taken.erase (servicePath, expiration) }.schedule servicePath
        interval e.now) ∨
    (∃ servicePath expiration, e = .perform servicePath expiration e.now ∧
      (servicePath, expiration) ∈ s.taken ∧
      s' = { s with taken := s.taken.erase (servicePath, expiration) }) := by
  cases e with
  | schedule selfLink interval now =>
      exact Or.inl ⟨selfLink, interval, rfl, (Option.some.inj h).symm⟩
  | poll now => exact Or.inr (Or.inl ⟨rfl, (Option.some.inj h).symm⟩)
  | skip servicePath expiration now =>
      refine Or.inr (Or.inr (Or.inl ⟨servicePath, expiration, rfl, ?_⟩))
      unfold step at h
      dsimp only at h
      split_ifs at h with hmem
      refine ⟨hmem, ?_⟩
      cases htracked : s.trackedServices servicePath with
      | none =>
          rw [htracked] at h
          cases h
      | some serviceExpiration =>
          rw [htracked] at h
          dsimp only at h
          split_ifs at h with heq
          · rw [if_pos (congrArg some heq)]
            exact (Option.some.inj h).symm
          · rw [if_neg fun hsome => heq (Option.some.inj hsome)]
            exact (Option.some.inj h).symm
  | disown servicePath expiration interval now =>
      refine Or.inr (Or.inr (Or.inr (Or.inl ⟨servicePath, expiration, interval, rfl, ?_⟩)))
      unfold step at h
      dsimp only at h
      split_ifs at h with hmem
      exact ⟨hmem, (Option.some.inj h).symm⟩
  | perform servicePath expiration now =>
      refine Or.inr (Or.inr (Or.inr (Or.inr ⟨servicePath, expiration, rfl, ?_⟩)))
      unfold step at h
      dsimp only at h
      split_ifs at h with hmem
      exact ⟨hmem, (Option.some.inj h).symm⟩

/-- A link that is taken is in no bucket of its time. -/
theorem Inv.not_has (h : Inv es s) (hmem : (link, t) ∈ s.taken) : ¬s.nextExpiration.Has link t :=
  fun hlink => lt_irrefl t (h.later _ hmem t hlink.mem_keys)

theorem Inv.step (h : Inv es s) (hnow : ∀ e' ∈ es, e'.now ≤ e.now) (hstep : step s e = some s') :
    Inv (es ++ [e]) s' := by
  rcases step_cases hstep with ⟨selfLink, interval, -, rfl⟩ | ⟨he, rfl⟩ |
    ⟨servicePath, expiration, -, hmem, rfl⟩ | ⟨servicePath, expiration, interval, -, -, rfl⟩ |
    ⟨servicePath, expiration, -, -, rfl⟩
  · exact h.schedule hnow (List.Subset.refl _) selfLink interval
  · rw [he]
    exact h.poll _
  · refine ⟨?_, fun p hp => h.later p (List.mem_of_mem_erase hp),
      h.due_concat e List.erase_subset⟩
    intro link t hlink
    have htracked := h.oneBucket link t hlink
    dsimp only
    split_ifs with heq
    · -- a link of the bucket that was taken is in no bucket of that time
      have hne : link ≠ servicePath := by
        rintro rfl
        rw [htracked] at heq
        exact h.not_has hmem (Option.some.inj heq ▸ hlink)
      rw [Function.update_of_ne hne, htracked]
    · exact htracked
  · exact h.schedule hnow List.erase_subset servicePath interval
  · exact ⟨h.oneBucket, fun p hp => h.later p (List.mem_of_mem_erase hp),
      h.due_concat e List.erase_subset⟩

theorem stays_schedule (h : s.OneBucket) (taken : List (String × Int)) {selfLink : String}
    {interval : Nat} (he : e.scheduled = some (selfLink, interval)) :
    Stays s e ({ s with taken := taken }.schedule selfLink interval e.now) where
  scheduled := by
    intro link interval' hlink
    rw [he] at hlink
    cases hlink
    exact ⟨_, (has_schedule (s := { s with taken := taken }) h).mpr (Or.inl ⟨rfl, rfl⟩)⟩
  kept := by
    intro link t hlink
    have hhas := @has_schedule { s with taken := taken } link selfLink
    by_cases heq : link = selfLink
    · exact Or.inl ⟨_, (hhas h).mpr (Or.inl ⟨heq, rfl⟩)⟩
    · exact Or.inl ⟨t, (hhas h).mpr (Or.inr ⟨heq, hlink⟩)⟩

theorem stays_poll (s : Tracker) (now : Nat) : Stays s (.poll now) (s.poll now) where
  scheduled := by
    intro link interval hlink
    cases hlink
  kept := by
    intro link t hlink
    rcases poll_cases s now with hpoll | ⟨expiration, services, hfirst, -, hpoll⟩
    · rw [hpoll]
      exact Or.inl ⟨t, hlink⟩
    · rw [hpoll]
      by_cases ht : t = expiration
      · subst ht
        obtain ⟨services', hentry, hmem⟩ := hlink
        have heq := SortedMap.eq_of_key hentry (SortedMap.mem_firstEntry hfirst).1 rfl
        cases heq
        exact Or.inr ⟨rfl, List.mem_append_right _ (List.mem_map.mpr ⟨link, hmem, rfl⟩)⟩
      · exact Or.inl ⟨t, Buckets.has_remove.mpr ⟨hlink, ht⟩⟩

theorem Inv.stays (h : Inv es s) (hstep : ServiceMaintenanceTracker.step s e = some s') :
    Stays s e s' := by
  rcases step_cases hstep with ⟨selfLink, interval, he, rfl⟩ | ⟨he, rfl⟩ |
    ⟨servicePath, expiration, he, -, rfl⟩ | ⟨servicePath, expiration, interval, he, -, rfl⟩ |
    ⟨servicePath, expiration, he, -, rfl⟩
  · exact stays_schedule h.oneBucket s.taken (by rw [he]; rfl)
  · have hpoll := stays_poll s e.now
    rwa [← he] at hpoll
  · refine ⟨fun link interval hlink => ?_, fun link t hlink => Or.inl ⟨t, hlink⟩⟩
    rw [he] at hlink
    cases hlink
  · exact stays_schedule h.oneBucket _ (by rw [he]; rfl)
  · refine ⟨fun link interval hlink => ?_, fun link t hlink => Or.inl ⟨t, hlink⟩⟩
    rw [he] at hlink
    cases hlink

/-! ## When a link is due -/

theorem lastScheduled_concat (s₀ : Tracker) (es : List Event) (e : Event) (link : String) :
    lastScheduled s₀ (es ++ [e]) link = match e.scheduled with
      | some (selfLink, interval) =>
          if selfLink = link then some (e.now, s₀.interval interval)
          else lastScheduled s₀ es link
      | none => lastScheduled s₀ es link := by
  simp [lastScheduled]

theorem lastScheduled_of_none {s₀ : Tracker} (he : e.scheduled = none) :
    lastScheduled s₀ (es ++ [e]) = lastScheduled s₀ es := by
  funext link
  rw [lastScheduled_concat, he]

/-- A link that was scheduled last as long ago as its interval. -/
def DueAt (s₀ : Tracker) (es : List Event) (link : String) (t : Int) : Prop :=
  ∃ last ∈ lastScheduled s₀ es link, (last.1 : Int) + last.2 - schedulingEpsilonMicros ≤ t

/-- The links are due at the times of their buckets. -/
structure Due (s₀ : Tracker) (es : List Event) (s : Tracker) : Prop where
  interval : s.maintenanceIntervalMicros = s₀.maintenanceIntervalMicros
  bucket : ∀ link t, s.nextExpiration.Has link t → DueAt s₀ es link t
  taken : ∀ link t, (link, t) ∈ s.taken → DueAt s₀ es link t

theorem Due.schedule (h : Due s₀ es s) (hone : s.OneBucket) {selfLink : String} {interval : Nat}
    {taken : List (String × Int)} (hsub : taken ⊆ s.taken)
    (he : e.scheduled = some (selfLink, interval))
    (hlong : (e.now : Int) + s.interval interval - schedulingEpsilonMicros < 2 ^ 63)
    (hfree : ∀ t, (selfLink, t) ∉ taken) :
    Due s₀ (es ++ [e]) ({ s with taken := taken }.schedule selfLink interval e.now) where
  interval := h.interval
  bucket := by
    intro link t hlink
    rcases (@has_schedule { s with taken := taken } link selfLink t interval e.now hone).mp hlink
      with ⟨rfl, rfl⟩ | ⟨hne, hlink⟩
    · refine ⟨(e.now, s.interval interval), ?_, le_nextExpirationMicros hlong⟩
      rw [lastScheduled_concat, he]
      dsimp only
      rw [if_pos rfl]
      unfold Tracker.interval
      rw [h.interval]
      rfl
    · obtain ⟨last, hlast, hle⟩ := h.bucket link t hlink
      refine ⟨last, ?_, hle⟩
      rw [lastScheduled_concat, he]
      dsimp only
      rwa [if_neg (Ne.symm hne)]
  taken := by
    intro link t hmem
    have hne : selfLink ≠ link := fun heq => hfree t (heq ▸ hmem)
    obtain ⟨last, hlast, hle⟩ := h.taken link t (hsub hmem)
    refine ⟨last, ?_, hle⟩
    rw [lastScheduled_concat, he]
    dsimp only
    rwa [if_neg hne]

theorem Due.poll (h : Due s₀ es s) (now : Nat) : Due s₀ (es ++ [.poll now]) (s.poll now) := by
  have hlast : ∀ link t, DueAt s₀ es link t → DueAt s₀ (es ++ [.poll now]) link t := by
    intro link t hdue
    unfold DueAt
    rwa [lastScheduled_of_none rfl]
  rcases poll_cases s now with hpoll | ⟨expiration, services, hfirst, -, hpoll⟩
  · rw [hpoll]
    exact ⟨h.interval, fun link t hlink => hlast link t (h.bucket link t hlink),
      fun link t hmem => hlast link t (h.taken link t hmem)⟩
  · rw [hpoll]
    refine ⟨h.interval, fun link t hlink => ?_, fun link t hmem => ?_⟩
    · exact hlast link t (h.bucket link t (Buckets.has_remove.mp hlink).1)
    · rcases List.mem_append.mp hmem with hmem | hmem
      · exact hlast link t (h.taken link t hmem)
      · obtain ⟨link', hlink', heq⟩ := List.mem_map.mp hmem
        cases heq
        exact hlast link _ (h.bucket link _ ⟨services, (SortedMap.mem_firstEntry hfirst).1, hlink'⟩)

/-- A link leaves the pass. -/
theorem Due.leave (h : Due s₀ es s) (hnone : e.scheduled = none) (link : String × Int)
    (trackedServices : String → Option Int) :
    Due s₀ (es ++ [e])
      { s with taken := s.taken.erase link, trackedServices := trackedServices } := by
  refine ⟨h.interval, fun link t hlink => ?_, fun link t hmem => ?_⟩ <;>
    unfold DueAt <;> rw [lastScheduled_of_none hnone]
  · exact h.bucket link t hlink
  · exact h.taken link t (List.mem_of_mem_erase hmem)

theorem Due.step (h : Due s₀ es s) (hinv : Inv es s) (hok : Schedulable s e)
    (hstep : ServiceMaintenanceTracker.step s e = some s') : Due s₀ (es ++ [e]) s' := by
  rcases step_cases hstep with ⟨selfLink, interval, he, rfl⟩ | ⟨he, rfl⟩ |
    ⟨servicePath, expiration, he, -, rfl⟩ | ⟨servicePath, expiration, interval, he, -, rfl⟩ |
    ⟨servicePath, expiration, he, -, rfl⟩
  · rw [he] at hok
    exact h.schedule hinv.oneBucket (List.Subset.refl s.taken) (by rw [he]; rfl) hok.1 hok.2
  · rw [he]
    exact h.poll _
  · have hnone : e.scheduled = none := by rw [he]; rfl
    exact h.leave hnone (servicePath, expiration) _
  · rw [he] at hok
    exact h.schedule hinv.oneBucket List.erase_subset (by rw [he]; rfl) hok.1 hok.2
  · have hnone : e.scheduled = none := by rw [he]; rfl
    exact h.leave hnone (servicePath, expiration) _

/-! ## Runs -/

theorem chronological_concat :
    Chronological (es ++ [e]) ↔ Chronological es ∧ ∀ e' ∈ es, e'.now ≤ e.now := by
  unfold Chronological
  rw [List.map_append, List.pairwise_append]
  simp

variable {maintenanceInterval checkInterval : Nat}

/-- Whatever is scheduled, and when. -/
theorem inv_reach (h : Reach step ok (create maintenanceInterval checkInterval) es s)
    (htimes : Chronological es) : Inv es s := by
  induction h with
  | refl =>
      refine ⟨fun link t hlink => ?_, fun p hp => (by cases hp), fun p hp => (by cases hp)⟩
      obtain ⟨services, hentry, -⟩ := hlink
      cases hentry
  | snoc _ _ hstep ih =>
      obtain ⟨htimes, hnow⟩ := chronological_concat.mp htimes
      exact (ih htimes).step hnow hstep

theorem due_reach (h : Reach step Schedulable (create maintenanceInterval checkInterval) es s)
    (htimes : Chronological es) : Due (create maintenanceInterval checkInterval) es s := by
  induction h with
  | refl =>
      refine ⟨rfl, fun link t hlink => ?_, fun link t hmem => by cases hmem⟩
      obtain ⟨services, hentry, -⟩ := hlink
      cases hentry
  | snoc hreach hok hstep ih =>
      have htimes := (chronological_concat.mp htimes).1
      exact (ih htimes).step (inv_reach hreach htimes) hok hstep

/-- The two maps fit together in every run. -/
theorem oneBucket_stays (h : Reach step ok (create maintenanceInterval checkInterval) es s)
    (hstep : step s e = some s') (htimes : Chronological (es ++ [e])) :
    s'.OneBucket ∧ Stays s e s' := by
  obtain ⟨htimes, hnow⟩ := chronological_concat.mp htimes
  have hinv := inv_reach h htimes
  exact ⟨(hinv.step hnow hstep).oneBucket, hinv.stays hstep⟩

/-- In a run without overflows, in which nothing is scheduled that a pass has taken, no link is
handed to maintenance too early. -/
theorem schedule_correct
    (h : Reach step Schedulable (create maintenanceInterval checkInterval) es s)
    (hstep : step s e = some s') (htimes : Chronological (es ++ [e])) :
    s'.OneBucket ∧ Stays s e s' ∧ NotEarly (create maintenanceInterval checkInterval) es e := by
  obtain ⟨hone, hstays⟩ := oneBucket_stays h hstep htimes
  refine ⟨hone, hstays, fun servicePath expiration now he => ?_⟩
  subst he
  obtain ⟨htimes, hnow⟩ := chronological_concat.mp htimes
  have hmem : (servicePath, expiration) ∈ s.taken := by
    unfold step at hstep
    dsimp only at hstep
    split_ifs at hstep with hmem
    exact hmem
  obtain ⟨last, hlast, hle⟩ := (due_reach h htimes).taken servicePath expiration hmem
  have hlt : expiration < now := (inv_reach h htimes).lt_now hnow hmem
  exact ⟨last, hlast, hle.trans hlt.le⟩

end Runs

/-! ## A page that does not expire -/

/-- The interval of a `QueryPageService`, from its expiration. -/
def pageInterval (documentExpirationTimeMicros : Int) (now maintenanceIntervalMicros : Nat) : Int :=
  let ttl := long (documentExpirationTimeMicros - now)
  if ttl < 0 then max (long (maintenanceIntervalMicros * 2)) 60000000 else ttl

/-- A service with an interval of a second is scheduled, taken and handed to maintenance. -/
def scheduledOnce : Tracker := (create 1000000 1000000).schedule "/a" 1000000 0

theorem schedule_correct_once :
    Tracker.OneBucket { scheduledOnce.poll 2000000 with taken := [] } ∧
      Stays (scheduledOnce.poll 2000000) (.perform "/a" 990000 2000000)
        { scheduledOnce.poll 2000000 with taken := [] } ∧
      NotEarly (create 1000000 1000000) [.schedule "/a" 1000000 0, .poll 2000000]
        (.perform "/a" 990000 2000000) := by
  have hok : Schedulable (create 1000000 1000000) (.schedule "/a" 1000000 0) :=
    ⟨by decide, fun t hmem => by cases hmem⟩
  have hreach : Reach step Schedulable (create 1000000 1000000)
      ([] ++ [.schedule "/a" 1000000 0] ++ [.poll 2000000]) (scheduledOnce.poll 2000000) :=
    (Reach.refl.snoc hok rfl).snoc trivial rfl
  exact schedule_correct hreach rfl (by unfold Chronological; decide)

/-- A page that never expires, and is scheduled more than the epsilon after it has read the clock,
is handed to maintenance at once. -/
theorem page_performed_early :
    pageInterval (2 ^ 63 - 1) 0 1000000 = (2 ^ 63 - 1 : Nat) ∧
      ∃ s s', Reach step (fun _ _ => True) (create 1000000 1000000)
          [.schedule "/page" (2 ^ 63 - 1) 20000, .poll 30000] s ∧
        step s (.perform "/page" 20000 30000) = some s' ∧
        Chronological [.schedule "/page" (2 ^ 63 - 1) 20000, .poll 30000,
          .perform "/page" 20000 30000] ∧
        ¬NotEarly (create 1000000 1000000) [.schedule "/page" (2 ^ 63 - 1) 20000, .poll 30000]
          (.perform "/page" 20000 30000) := by
  have hreach : Reach step (fun _ _ => True) (create 1000000 1000000)
      ([] ++ [.schedule "/page" (2 ^ 63 - 1) 20000] ++ [.poll 30000])
      (((create 1000000 1000000).schedule "/page" (2 ^ 63 - 1) 20000).poll 30000) :=
    (Reach.refl.snoc trivial rfl).snoc trivial rfl
  refine ⟨by decide, _, _, hreach, rfl, by unfold Chronological; decide, fun hearly => ?_⟩
  obtain ⟨last, hlast, hle⟩ := hearly "/page" 20000 30000 rfl
  have heq : last = (20000, 2 ^ 63 - 1) := (Option.some.inj hlast).symm
  rw [heq] at hle
  exact absurd hle (by decide)

end Xenon.Common.ServiceMaintenanceTracker

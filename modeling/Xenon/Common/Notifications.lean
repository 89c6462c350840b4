import Mathlib.Data.Finset.Card
import Mathlib.Data.Finset.Option
import Mathlib.Data.List.TakeWhile
import Mathlib.Logic.Function.Basic
import Xenon.Foundation.Rotation
import Xenon.Foundation.Run

/-!
# Notifications

`UtilityService` notifies the subscribers of a service of its updates. A call of `notifySubscribers`
is a loop over the map of subscribers and then one more, in `performSubscriptionsMaintenance`.
Several calls can be under way, and requests change the map and deliveries end at any time.
-/

namespace Xenon.Common.UtilityService

open Xenon.Foundation (Reach SortedMap exec reach_of_exec)

variable {URI : Type} [LinearOrder URI]

/-! ## Subscribers -/

/-- `ServiceSubscriber.NOTIFICATION_FAILURE_LIMIT`. -/
def notificationFailureLimit : Int := 5

/-- `ServiceSubscriber`. -/
structure ServiceSubscriber (URI : Type) where
  reference : URI
  notificationLimit : Option Int
  documentExpirationTimeMicros : Int
  notificationCount : Option Int
  initialFailedNotificationTimeMicros : Option Int
  failedNotificationCount : Option Int

/-- The completion of a notification that was sent at `now`. -/
def ServiceSubscriber.complete (s : ServiceSubscriber URI) (now : Int) (delivered : Bool) :
    ServiceSubscriber URI :=
  if delivered then
    if s.failedNotificationCount = none then s
    else { s with failedNotificationCount := none, initialFailedNotificationTimeMicros := none }
  else { s with
    failedNotificationCount := some (s.failedNotificationCount.getD 0 + 1)
    initialFailedNotificationTimeMicros :=
      if s.failedNotificationCount = none then some now
      else s.initialFailedNotificationTimeMicros }

/-- The body of the loop of `performSubscriptionsMaintenance`: whether the subscriber is removed.
There is no result where the time of the first failure is missing. -/
def ServiceSubscriber.maintain (s : ServiceSubscriber URI) (now maintenanceIntervalMicros : Int) :
    Option (Bool × ServiceSubscriber URI) :=
  if s.documentExpirationTimeMicros ≠ 0 ∧ s.documentExpirationTimeMicros < now then some (true, s)
  else match s.notificationLimit with
    | some limit =>
        let count := s.notificationCount.getD 0 + 1
        some (limit ≤ count, { s with notificationCount := some count })
    | none =>
        if s.failedNotificationCount.any (notificationFailureLimit < ·) then
          s.initialFailedNotificationTimeMicros.map fun initial =>
            (maintenanceIntervalMicros < now - initial, s)
        else some (false, s)

/-! ## The service -/

/-- The iterators of the map have read the next entry already: its key, and the subscriber. -/
abbrev Next (URI : Type) := Option (URI × Nat)

/-- Where a call of `notifySubscribers` is. -/
inductive Phase (URI : Type) where
  | started
  | notifying (next : Next URI)
  | maintaining (next : Next URI)

/-- The entry that the iterator of the call has read. -/
def Phase.next : Phase URI → Next URI
  | .started => none
  | .notifying next | .maintaining next => next

/-- The call is in `performSubscriptionsMaintenance`. -/
def Phase.isMaintaining : Phase URI → Bool
  | .maintaining _ => true
  | .started | .notifying _ => false

/-- A call of `notifySubscribers`: its time, whether its clone of the update has the directive
`SKIPPED_NOTIFICATIONS`, and the references of the subscribers to delete. -/
structure Call (URI : Type) where
  now : Int
  skipped : Bool
  phase : Phase URI
  subscribersToDelete : List URI

/-- A notification, by the call that sent it. -/
structure Notification where
  call : Nat
  subscriber : Nat
  skipped : Bool
  deriving DecidableEq

/-- The subscriptions of a service. Subscribers and calls are objects with a number each.
`released` are the subscribers that a request took out of the map. -/
structure Service (URI : Type) [LinearOrder URI] where
  objects : Nat → ServiceSubscriber URI
  created : Finset Nat
  subscribers : SortedMap URI Nat
  released : Finset Nat
  calls : Nat → Call URI
  published : Finset Nat
  underWay : Finset Nat
  sent : List Notification
  inFlight : Finset (Nat × Nat)
  deleted : List URI

/-- `handleSubscriptionsRequest` of a POST. -/
def Service.subscribe (s : Service URI) (x : Nat) (body : ServiceSubscriber URI) : Service URI :=
  { s with
    objects := Function.update s.objects x body
    created := insert x s.created
    subscribers := s.subscribers.insert body.reference x
    released := s.released ∪ (s.subscribers.get body.reference).toFinset }

/-- `handleSubscriptionsRequest` of a DELETE. -/
def Service.unsubscribe (s : Service URI) (reference : URI) : Service URI :=
  { s with
    subscribers := s.subscribers.remove reference
    released := s.released ∪ (s.subscribers.get reference).toFinset }

/-- `notifySubscribers` up to its loop. -/
def Service.publish (s : Service URI) (p : Nat) (now : Int) (skipped : Bool) : Service URI :=
  if s.subscribers.entries = [] then { s with published := insert p s.published }
  else { s with
    published := insert p s.published
    underWay := insert p s.underWay
    calls := Function.update s.calls p ⟨now, skipped, .started, []⟩ }

/-- A call goes on. -/
def Service.setPhase (s : Service URI) (p : Nat) (phase : Phase URI) : Service URI :=
  { s with calls := Function.update s.calls p { s.calls p with phase := phase } }

/-- `notifySubscriber`. -/
def Service.notify (s : Service URI) (p x : Nat) : Service URI :=
  let skipped := (s.calls p).skipped || (s.objects x).failedNotificationCount.isSome
  { s with
    calls := Function.update s.calls p { s.calls p with skipped := skipped }
    sent := s.sent ++ [⟨p, x, skipped⟩]
    inFlight := insert (p, x) s.inFlight }

/-- A call ends. -/
def Service.finish (s : Service URI) (p : Nat) : Service URI :=
  { s with underWay := s.underWay.erase p }

/-- The body of the loop of `performSubscriptionsMaintenance`, at an entry. The entry is removed by
its key. Where the body throws, the call ends. -/
def Service.maintain (maintenanceIntervalMicros : Int) (s : Service URI) (p : Nat)
    (e : URI × Nat) : Service URI :=
  match (s.objects e.2).maintain (s.calls p).now maintenanceIntervalMicros with
  | none => s.finish p
  | some (remove, subscriber) =>
      let s := { s with objects := Function.update s.objects e.2 subscriber }
      if remove then { s with
        subscribers := s.subscribers.remove e.1
        calls := Function.update s.calls p { s.calls p with
          subscribersToDelete := (s.calls p).subscribersToDelete ++ [subscriber.reference] } }
      else s

/-- The next step of a call. Only one at a time is in `performSubscriptionsMaintenance`. -/
def Service.proceed (maintenanceIntervalMicros : Int) (s : Service URI) (p : Nat) :
    Option (Service URI) :=
  match (s.calls p).phase with
  | .started => some (s.setPhase p (.notifying s.subscribers.firstEntry))
  | .notifying (some e) =>
      some ((s.setPhase p (.notifying (s.subscribers.higherEntry e.1))).notify p e.2)
  | .notifying none =>
      if ∃ q ∈ s.underWay, (s.calls q).phase.isMaintaining = true then none
      else some (s.setPhase p (.maintaining s.subscribers.firstEntry))
  | .maintaining (some e) =>
      some ((s.setPhase p (.maintaining (s.subscribers.higherEntry e.1))).maintain
        maintenanceIntervalMicros p e)
  | .maintaining none =>
      some { s.finish p with deleted := s.deleted ++ (s.calls p).subscribersToDelete }

/-- What can happen: a request to subscribe or to unsubscribe, an update, a step of a call, and
the completion of a notification. -/
inductive Event (URI : Type) where
  | subscribe (x : Nat) (body : ServiceSubscriber URI)
  | unsubscribe (reference : URI)
  | publish (p : Nat) (now : Int) (skipped : Bool)
  | proceed (p : Nat)
  | complete (p x : Nat) (delivered : Bool)

/-- One step. Objects and calls get a new number. -/
def step (maintenanceIntervalMicros : Int) (s : Service URI) : Event URI → Option (Service URI)
  | .subscribe x body => if x ∈ s.created then none else some (s.subscribe x body)
  | .unsubscribe reference => some (s.unsubscribe reference)
  | .publish p now skipped => if p ∈ s.published then none else some (s.publish p now skipped)
  | .proceed p => if p ∈ s.underWay then s.proceed maintenanceIntervalMicros p else none
  | .complete p x delivered =>
      if (p, x) ∈ s.inFlight then some { s with
        objects := Function.update s.objects x ((s.objects x).complete (s.calls p).now delivered)
        inFlight := s.inFlight.erase (p, x) }
      else none

/-- A service without subscribers; what stands for an object before it is created does not
matter. -/
def create (none : ServiceSubscriber URI) : Service URI where
  objects _ := none
  created := ∅
  subscribers := .empty
  released := ∅
  calls _ := ⟨0, false, .started, []⟩
  published := ∅
  underWay := ∅
  sent := []
  inFlight := ∅
  deleted := []

/-! ## What subscribers are promised -/

/-- The event creates this subscriber. -/
def Event.creates (x : Nat) : Event URI → Bool
  | .subscribe y _ => y = x
  | _ => false

/-- The update that the event publishes. -/
def Event.published : Event URI → Option Nat
  | .publish p _ _ => some p
  | _ => none

/-- The updates that were published after a subscriber subscribed, in their order. -/
def publishedAfter (es : List (Event URI)) (x : Nat) : List Nat :=
  (es.dropWhile fun e => !e.creates x).filterMap Event.published

/-- The updates that a subscriber was notified of. -/
def Service.sentTo (s : Service URI) (x : Nat) : List Nat :=
  (s.sent.filter (·.subscriber = x)).map Notification.call

/-- The subscriber is in the map. -/
def Service.Subscribed (s : Service URI) (x : Nat) : Prop := x ∈ s.subscribers.values

/-- A subscriber with this limit is notified of that many updates, the first ones after it
subscribed, and is then removed. -/
structure FirstOnly (es : List (Event URI)) (s : Service URI) (x limit : Nat) : Prop where
  once : (s.sentTo x).Nodup
  first : ∀ p ∈ s.sentTo x, p ∈ (publishedAfter es x).take limit
  all : ∀ p ∈ (publishedAfter es x).take limit, p ∉ s.underWay → p ∈ s.sentTo x
  stays : (publishedAfter es x).length < limit → s.Subscribed x
  removed : limit ≤ (publishedAfter es x).length →
    (∀ p ∈ (publishedAfter es x).take limit, p ∉ s.underWay) → ¬s.Subscribed x

/-- A notification to the subscriber has failed since the last one that did not. -/
def FailedSince (es : List (Event URI)) (x : Nat) : Prop :=
  ∃ p before after, es = before ++ .complete p x false :: after ∧
    ∀ q, .complete q x true ∉ after

/-! ## When they are kept -/

/-- The call is yet to come to the key in its first loop. -/
def Phase.ToNotify (k : URI) : Phase URI → Prop
  | .started => True
  | .notifying next => ∃ e ∈ next, e.1 ≤ k
  | .maintaining _ => False

/-- The call is yet to come to the key in its second loop. -/
def Phase.ToCount (k : URI) : Phase URI → Prop
  | .started | .notifying _ => True
  | .maintaining next => ∃ e ∈ next, e.1 ≤ k

instance (k : URI) : DecidablePred (Phase.ToCount k)
  | .started | .notifying _ => isTrue trivial
  | .maintaining none => isFalse (by rintro ⟨e, he, -⟩; cases he)
  | .maintaining (some e) => decidable_of_iff (e.1 ≤ k) (by simp [Phase.ToCount])

/-- The calls that are yet to count a notification to the subscriber of a key. -/
def Service.pending (s : Service URI) (k : URI) : Finset Nat :=
  s.underWay.filter fun p => (s.calls p).phase.ToCount k

/-- A subscriber that has no expiration, and no limit or a positive one. -/
structure ServiceSubscriber.Valid (s : ServiceSubscriber URI) : Prop where
  expiration : s.documentExpirationTimeMicros = 0
  limit : ∀ limit ∈ s.notificationLimit, 1 ≤ limit

/-- Subscribers come without counts, and ones with a limit when no call is yet to count for their
reference. An update is published only when every subscriber with a limit has room for it, besides
the updates that are counted for it already and those that will be. And where the clone of an
update has the directive, the next subscriber has missed notifications itself. -/
def Allowed (s : Service URI) : Event URI → Prop
  | .subscribe _ body => body.Valid ∧ body.failedNotificationCount = none ∧
      (body.notificationLimit.isSome → body.notificationCount = none ∧
        s.pending body.reference = ∅)
  | .publish _ _ _ => ∀ e ∈ s.subscribers.entries, ∀ limit ∈ (s.objects e.2).notificationLimit,
      (s.objects e.2).notificationCount.getD 0 + (s.pending e.1).card < limit
  | .proceed p => ∀ e, (s.calls p).phase = .notifying (some e) → (s.calls p).skipped = true →
      (s.objects e.2).failedNotificationCount.isSome
  | .unsubscribe _ | .complete _ _ _ => True

/-! ## Events -/

section

variable {es : List (Event URI)} {e : Event URI} {x : Nat}

omit [LinearOrder URI] in
theorem failedSince_concat : FailedSince (es ++ [e]) x ↔
    (∃ p, e = .complete p x false) ∨ (FailedSince es x ∧ ∀ q, e ≠ .complete q x true) := by
  constructor
  · rintro ⟨p, before, after, heq, hafter⟩
    rcases List.eq_nil_or_concat after with rfl | ⟨after, e', rfl⟩
    · exact Or.inl ⟨p, (List.append_inj' heq rfl).2 |> List.head_eq_of_cons_eq⟩
    · rw [List.concat_eq_append, ← List.cons_append, ← List.append_assoc] at heq
      obtain ⟨rfl, he⟩ := List.append_inj' heq rfl
      obtain rfl := List.head_eq_of_cons_eq he
      rw [List.concat_eq_append] at hafter
      refine Or.inr ⟨⟨p, before, after, rfl, fun q hq => ?_⟩, fun q hq => ?_⟩
      · exact hafter q (List.mem_append_left _ hq)
      · exact hafter q (List.mem_append_right _ (hq ▸ List.mem_cons_self))
  · rintro (⟨p, rfl⟩ | ⟨⟨p, before, after, rfl, hafter⟩, he⟩)
    · exact ⟨p, es, [], rfl, fun q => List.not_mem_nil⟩
    · refine ⟨p, before, after ++ [e], by simp, fun q hq => ?_⟩
      rcases List.mem_append.mp hq with hq | hq
      · exact hafter q hq
      · exact he q (List.mem_singleton.mp hq).symm

omit [LinearOrder URI] in
/-- The completion of other notifications makes no difference. -/
theorem failedSince_concat_of_ne (h : ∀ p delivered, e ≠ .complete p x delivered) :
    FailedSince (es ++ [e]) x ↔ FailedSince es x := by
  rw [failedSince_concat]
  constructor
  · rintro (⟨p, he⟩ | hsince)
    · exact absurd he (h p false)
    · exact hsince.1
  · exact fun hsince => Or.inr ⟨hsince, fun q => h q true⟩

omit [LinearOrder URI] in
theorem exists_creates_concat : (∃ e' ∈ es ++ [e], e'.creates x = true) ↔
    (∃ e' ∈ es, e'.creates x = true) ∨ e.creates x = true := by
  simp only [List.mem_append, List.mem_singleton, or_and_right, exists_or, exists_eq_left]

omit [LinearOrder URI] in
theorem publishedAfter_concat (h : ∃ e' ∈ es, e'.creates x = true) :
    publishedAfter (es ++ [e]) x = publishedAfter es x ++ e.published.toList := by
  obtain ⟨e', he', hcreates⟩ := h
  have hdrop : (es.dropWhile fun e => !e.creates x) ≠ [] := by
    rw [ne_eq, List.dropWhile_eq_nil_iff]
    intro hall
    have hnot := hall e' he'
    rw [hcreates] at hnot
    cases hnot
  unfold publishedAfter
  rw [List.dropWhile_append, if_neg (by simpa using hdrop), List.filterMap_append]
  cases hp : e.published <;> simp [hp]

omit [LinearOrder URI] in
theorem publishedAfter_new {body : ServiceSubscriber URI} (h : ∀ e' ∈ es, e'.creates x = false) :
    publishedAfter (es ++ [.subscribe x body]) x = [] := by
  have hdrop : (es.dropWhile fun e => !e.creates x) = [] := by
    rw [List.dropWhile_eq_nil_iff]
    intro e' he'
    rw [h e' he']
    rfl
  have hcreates : (Event.subscribe x body : Event URI).creates x = true := decide_eq_true rfl
  unfold publishedAfter
  rw [List.dropWhile_append, hdrop, List.isEmpty_nil, if_pos rfl,
    List.dropWhile_cons_of_neg (by rw [hcreates]; decide)]
  rfl

end

/-! ## Subscribers one by one -/

section

variable {o o' : ServiceSubscriber URI} {now maintenanceIntervalMicros : Int} {remove : Bool}

omit [LinearOrder URI] in
/-- Maintenance counts, and leaves the rest of a subscriber as it is. -/
theorem eq_of_maintain (h : o.maintain now maintenanceIntervalMicros = some (remove, o')) :
    o' = { o with notificationCount := o'.notificationCount } := by
  unfold ServiceSubscriber.maintain at h
  by_cases hexpired : o.documentExpirationTimeMicros ≠ 0 ∧ o.documentExpirationTimeMicros < now
  · rw [if_pos hexpired] at h
    cases h
    rfl
  · rw [if_neg hexpired] at h
    rcases o.notificationLimit.eq_none_or_eq_some with hlimit | ⟨limit, hlimit⟩
    · rw [hlimit] at h
      dsimp only at h
      split_ifs at h
      · obtain ⟨initial, -, heq⟩ := Option.map_eq_some_iff.mp h
        cases heq
        rfl
      · cases h
        rfl
    · rw [hlimit] at h
      cases h
      rw [hlimit]

omit [LinearOrder URI] in
/-- A subscriber with a limit is removed when it is reached. -/
theorem maintain_of_limit (hexpiration : o.documentExpirationTimeMicros = 0) {limit : Int}
    (hlimit : o.notificationLimit = some limit) :
    o.maintain now maintenanceIntervalMicros =
      some (decide (limit ≤ o.notificationCount.getD 0 + 1),
        { o with notificationCount := some (o.notificationCount.getD 0 + 1) }) := by
  unfold ServiceSubscriber.maintain
  rw [if_neg fun h => h.1 hexpiration, hlimit]

omit [LinearOrder URI] in
/-- Maintenance does not throw where the time of the first failure is known. -/
theorem exists_maintain
    (h : o.failedNotificationCount.isSome → o.initialFailedNotificationTimeMicros.isSome) :
    ∃ r, o.maintain now maintenanceIntervalMicros = some r := by
  unfold ServiceSubscriber.maintain
  by_cases hexpired : o.documentExpirationTimeMicros ≠ 0 ∧ o.documentExpirationTimeMicros < now
  · exact ⟨_, if_pos hexpired⟩
  · rw [if_neg hexpired]
    cases o.notificationLimit with
    | some limit => exact ⟨_, rfl⟩
    | none =>
        dsimp only
        split_ifs with hfailed
        · have hsome : o.failedNotificationCount.isSome = true := by
            cases hcount : o.failedNotificationCount with
            | some n => rfl
            | none =>
                rw [hcount] at hfailed
                cases hfailed
          obtain ⟨initial, hinitial⟩ := Option.isSome_iff_exists.mp (h hsome)
          exact ⟨_, by rw [hinitial]; rfl⟩
        · exact ⟨_, rfl⟩

omit [LinearOrder URI] in
/-- A completion changes what is known of failures. -/
theorem eq_of_complete (o : ServiceSubscriber URI) (now : Int) (delivered : Bool) :
    o.complete now delivered = { o with
      failedNotificationCount := (o.complete now delivered).failedNotificationCount
      initialFailedNotificationTimeMicros :=
        (o.complete now delivered).initialFailedNotificationTimeMicros } := by
  unfold ServiceSubscriber.complete
  split_ifs <;> rfl

omit [LinearOrder URI] in
theorem isSome_complete (o : ServiceSubscriber URI) (now : Int) (delivered : Bool) :
    (o.complete now delivered).failedNotificationCount.isSome = !delivered := by
  unfold ServiceSubscriber.complete
  cases delivered with
  | true =>
      rw [if_pos rfl]
      split_ifs with h
      · rw [h]
        rfl
      · rfl
  | false => rfl

end

/-! ## Phases -/

section

variable (s : Service URI) (p q x : Nat)

theorem phase_setPhase (phase : Phase URI) : ((s.setPhase p phase).calls q).phase =
    if q = p then phase else (s.calls q).phase := by
  show (Function.update s.calls p _ q).phase = _
  by_cases hq : q = p
  · subst hq
    rw [Function.update_self, if_pos rfl]
  · rw [Function.update_of_ne hq, if_neg hq]

theorem phase_publish (now : Int) (skipped : Bool) : ((s.publish p now skipped).calls q).phase =
    if q = p ∧ s.subscribers.entries ≠ [] then .started else (s.calls q).phase := by
  unfold Service.publish
  by_cases hempty : s.subscribers.entries = []
  · rw [if_pos hempty, if_neg fun h => h.2 hempty]
  · rw [if_neg hempty]
    show (Function.update s.calls p _ q).phase = _
    by_cases hq : q = p
    · subst hq
      rw [Function.update_self, if_pos ⟨rfl, hempty⟩]
    · rw [Function.update_of_ne hq, if_neg fun h => hq h.1]

theorem phase_notify : ((s.notify p x).calls q).phase = (s.calls q).phase := by
  show (Function.update s.calls p _ q).phase = _
  by_cases hq : q = p
  · subst hq
    rw [Function.update_self]
  · rw [Function.update_of_ne hq]

end

/-! ## Objects -/

section

variable {s s' : Service URI} {es : List (Event URI)} {e : Event URI}

/-- A subscriber after some events. -/
structure Sound (es : List (Event URI)) (x : Nat) (o : ServiceSubscriber URI) : Prop where
  valid : o.Valid
  failed_iff : o.failedNotificationCount.isSome ↔ FailedSince es x
  initial : o.failedNotificationCount.isSome → o.initialFailedNotificationTimeMicros.isSome

/-- What holds of the objects and of the references to them. -/
structure Inv (es : List (Event URI)) (s : Service URI) : Prop where
  created_iff : ∀ x, x ∈ s.created ↔ ∃ e ∈ es, e.creates x = true
  entries : ∀ e ∈ s.subscribers.entries, e.2 ∈ s.created ∧ (s.objects e.2).reference = e.1
  next : ∀ p, ∀ e ∈ (s.calls p).phase.next, e.2 ∈ s.created ∧ (s.objects e.2).reference = e.1
  inFlight : ∀ p x, (p, x) ∈ s.inFlight → x ∈ s.created
  sent : ∀ n ∈ s.sent, n.subscriber ∈ s.created ∧ n.call ∈ s.published
  underWay : s.underWay ⊆ s.published
  sound : ∀ x ∈ s.created, Sound es x (s.objects x)
  unknown : ∀ x, x ∉ s.created → ¬FailedSince es x

theorem inv_create (o : ServiceSubscriber URI) : Inv [] (create o) where
  created_iff x := by simp [create]
  entries := by
    rintro e he
    cases he
  next := by
    rintro p e he
    cases he
  inFlight := by
    intro p x h
    cases h
  sent := by
    rintro n hn
    cases hn
  underWay := Finset.empty_subset _
  sound := by
    intro x hx
    cases hx
  unknown := by
    rintro x - ⟨p, before, after, heq, -⟩
    cases before <;> cases heq

/-- An event that neither creates a subscriber nor completes a notification. -/
theorem Inv.concat (h : Inv es s) (hcreates : ∀ x, e.creates x = false)
    (hcomplete : ∀ p x delivered, e ≠ .complete p x delivered) : Inv (es ++ [e]) s where
  created_iff x := by
    rw [h.created_iff, exists_creates_concat, hcreates x]
    simp
  entries := h.entries
  next := h.next
  inFlight := h.inFlight
  sent := h.sent
  underWay := h.underWay
  sound x hx := by
    obtain ⟨hvalid, hfailed, hinitial⟩ := h.sound x hx
    exact ⟨hvalid, hfailed.trans (failedSince_concat_of_ne fun p => hcomplete p x).symm, hinitial⟩
  unknown x hx := by
    rw [failedSince_concat_of_ne fun p => hcomplete p x]
    exact h.unknown x hx

theorem Inv.subscribe (h : Inv es s) {x : Nat} {body : ServiceSubscriber URI}
    (hx : x ∉ s.created) (hvalid : body.Valid) (hnone : body.failedNotificationCount = none) :
    Inv (es ++ [.subscribe x body]) (s.subscribe x body) := by
  have hcomplete : ∀ p y delivered, Event.subscribe x body ≠ .complete p y delivered := nofun
  have hold : ∀ y ∈ s.created, Function.update s.objects x body y = s.objects y := fun y hy =>
    Function.update_of_ne (by rintro rfl; exact hx hy) _ _
  constructor
  · intro y
    show y ∈ insert x s.created ↔ _
    rw [Finset.mem_insert, h.created_iff, exists_creates_concat, or_comm, Event.creates,
      decide_eq_true_eq, eq_comm]
  · intro e he
    rcases SortedMap.mem_insert.mp he with rfl | ⟨he, -⟩
    · exact ⟨Finset.mem_insert_self _ _, by rw [Service.subscribe]; simp⟩
    · obtain ⟨hmem, href⟩ := h.entries e he
      exact ⟨Finset.mem_insert_of_mem hmem, (congrArg _ (hold e.2 hmem)).trans href⟩
  · intro p e he
    obtain ⟨hmem, href⟩ := h.next p e he
    exact ⟨Finset.mem_insert_of_mem hmem, (congrArg _ (hold e.2 hmem)).trans href⟩
  · exact fun p y hy => Finset.mem_insert_of_mem (h.inFlight p y hy)
  · exact fun n hn => ⟨Finset.mem_insert_of_mem (h.sent n hn).1, (h.sent n hn).2⟩
  · exact h.underWay
  · intro y hy
    rcases Finset.mem_insert.mp hy with rfl | hy
    · have hself : Function.update s.objects y body y = body := Function.update_self _ _ _
      show Sound _ y (Function.update s.objects y body y)
      rw [hself]
      refine ⟨hvalid, ?_, ?_⟩
      · rw [failedSince_concat_of_ne fun p => hcomplete p y, hnone]
        exact iff_of_false (by decide) (h.unknown y hx)
      · rw [hnone]
        exact fun hsome => by cases hsome
    · obtain ⟨hvalid, hfailed, hinitial⟩ := h.sound y hy
      show Sound _ y (Function.update s.objects x body y)
      rw [hold y hy]
      exact ⟨hvalid, hfailed.trans (failedSince_concat_of_ne fun p => hcomplete p y).symm,
        hinitial⟩
  · intro y hy
    rw [failedSince_concat_of_ne fun p => hcomplete p y]
    exact h.unknown y fun hmem => hy (Finset.mem_insert_of_mem hmem)

/-- The objects stay as they are, and what refers to them did so before. -/
theorem Inv.mono (h : Inv es s) (hobjects : s'.objects = s.objects)
    (hcreated : s'.created = s.created)
    (hentries : ∀ e ∈ s'.subscribers.entries, e ∈ s.subscribers.entries)
    (hnext : ∀ p, ∀ e ∈ (s'.calls p).phase.next,
      e ∈ s.subscribers.entries ∨ e ∈ (s.calls p).phase.next)
    (hinFlight : ∀ p x, (p, x) ∈ s'.inFlight → (p, x) ∈ s.inFlight ∨ x ∈ s.created)
    (hsent : ∀ n ∈ s'.sent, n ∈ s.sent ∨ n.subscriber ∈ s.created ∧ n.call ∈ s'.published)
    (hpublished : s.published ⊆ s'.published) (hunderWay : s'.underWay ⊆ s'.published) :
    Inv es s' := by
  constructor
  · rw [hcreated]
    exact h.created_iff
  · rw [hcreated, hobjects]
    exact fun e he => h.entries e (hentries e he)
  · rw [hcreated, hobjects]
    exact fun p e he => (hnext p e he).elim (h.entries e) (h.next p e)
  · rw [hcreated]
    exact fun p x hx => (hinFlight p x hx).elim (h.inFlight p x) id
  · rw [hcreated]
    exact fun n hn => (hsent n hn).elim
      (fun hn => ⟨(h.sent n hn).1, hpublished (h.sent n hn).2⟩) id
  · exact hunderWay
  · rw [hcreated, hobjects]
    exact h.sound
  · rw [hcreated]
    exact h.unknown

theorem Inv.unsubscribe (h : Inv es s) (reference : URI) : Inv es (s.unsubscribe reference) :=
  h.mono rfl rfl (fun _ he => (SortedMap.mem_remove.mp he).1) (fun _ _ => Or.inr)
    (fun _ _ => Or.inl) (fun _ => Or.inl) (Finset.Subset.refl _) h.underWay

theorem Inv.publish (h : Inv es s) (p : Nat) (now : Int) (skipped : Bool) :
    Inv es (s.publish p now skipped) := by
  have hnext : ∀ q, ∀ e ∈ ((s.publish p now skipped).calls q).phase.next,
      e ∈ s.subscribers.entries ∨ e ∈ (s.calls q).phase.next := by
    intro q e he
    rw [phase_publish] at he
    split_ifs at he
    · cases he
    · exact Or.inr he
  unfold Service.publish at hnext ⊢
  split_ifs at hnext ⊢
  · exact h.mono rfl rfl (fun _ => id) hnext (fun _ _ => Or.inl) (fun _ => Or.inl)
      (Finset.subset_insert _ _) (h.underWay.trans (Finset.subset_insert _ _))
  · exact h.mono rfl rfl (fun _ => id) hnext (fun _ _ => Or.inl) (fun _ => Or.inl)
      (Finset.subset_insert _ _) (Finset.insert_subset_insert _ h.underWay)

theorem Inv.setPhase (h : Inv es s) (p : Nat) {phase : Phase URI}
    (hphase : ∀ e ∈ phase.next, e ∈ s.subscribers.entries) : Inv es (s.setPhase p phase) := by
  refine h.mono rfl rfl (fun _ => id) (fun q e he => ?_) (fun _ _ => Or.inl) (fun _ => Or.inl)
    (Finset.Subset.refl _) h.underWay
  rw [phase_setPhase] at he
  split_ifs at he
  · exact Or.inl (hphase e he)
  · exact Or.inr he

theorem Inv.notify (h : Inv es s) {p x : Nat} (hp : p ∈ s.published) (hx : x ∈ s.created) :
    Inv es (s.notify p x) := by
  refine h.mono rfl rfl (fun _ => id) (fun q e he => ?_) (fun q y hy => ?_) (fun n hn => ?_)
    (Finset.Subset.refl _) h.underWay
  · rw [phase_notify] at he
    exact Or.inr he
  · rcases Finset.mem_insert.mp hy with heq | hy
    · cases heq
      exact Or.inr hx
    · exact Or.inl hy
  · rcases List.mem_append.mp hn with hn | hn
    · exact Or.inl hn
    · rw [List.mem_singleton.mp hn]
      exact Or.inr ⟨hx, hp⟩

theorem Inv.finish (h : Inv es s) (p : Nat) : Inv es (s.finish p) :=
  h.mono rfl rfl (fun _ => id) (fun _ _ => Or.inr) (fun _ _ => Or.inl) (fun _ => Or.inl)
    (Finset.Subset.refl _) ((Finset.erase_subset _ _).trans h.underWay)

/-- One object changes, but not its reference. -/
theorem Inv.setObject (h : Inv es s) {x : Nat} {o : ServiceSubscriber URI}
    (hreference : o.reference = (s.objects x).reference) (ho : x ∈ s.created → Sound es x o) :
    Inv es { s with objects := Function.update s.objects x o } := by
  have href : ∀ y, (Function.update s.objects x o y).reference = (s.objects y).reference := by
    intro y
    by_cases hy : y = x
    · subst hy
      rw [Function.update_self, hreference]
    · rw [Function.update_of_ne hy]
  refine ⟨h.created_iff, fun e he => ?_, fun p e he => ?_, h.inFlight, h.sent, h.underWay,
    fun y hy => ?_, h.unknown⟩
  · exact ⟨(h.entries e he).1, (href e.2).trans (h.entries e he).2⟩
  · exact ⟨(h.next p e he).1, (href e.2).trans (h.next p e he).2⟩
  · show Sound es y (Function.update s.objects x o y)
    by_cases hyx : y = x
    · subst hyx
      rw [Function.update_self]
      exact ho hy
    · rw [Function.update_of_ne hyx]
      exact h.sound y hy

omit [LinearOrder URI] in
theorem Sound.maintain {x : Nat} {o o' : ServiceSubscriber URI} (h : Sound es x o)
    (heq : o' = { o with notificationCount := o'.notificationCount }) : Sound es x o' := by
  rw [heq]
  exact ⟨⟨h.valid.expiration, h.valid.limit⟩, h.failed_iff, h.initial⟩

theorem Inv.maintain (h : Inv es s) (maintenanceIntervalMicros : Int) (p : Nat) (e : URI × Nat) :
    Inv es (s.maintain maintenanceIntervalMicros p e) := by
  unfold Service.maintain
  split
  · exact h.finish p
  · rename_i remove o heq
    have ho := eq_of_maintain heq
    have hset : Inv es { s with objects := Function.update s.objects e.2 o } :=
      h.setObject (by rw [ho]) fun hx => (h.sound e.2 hx).maintain ho
    dsimp only
    split_ifs
    · refine hset.mono rfl rfl (fun _ he => (SortedMap.mem_remove.mp he).1) (fun q e' he => ?_)
        (fun _ _ => Or.inl) (fun _ => Or.inl) (Finset.Subset.refl _) h.underWay
      change e' ∈ (Function.update s.calls p _ q).phase.next at he
      by_cases hq : q = p
      · subst hq
        rw [Function.update_self] at he
        exact Or.inr he
      · rw [Function.update_of_ne hq] at he
        exact Or.inr he
    · exact hset

/-- The completion of a notification. -/
theorem Inv.complete (h : Inv es s) {p x : Nat} (hx : (p, x) ∈ s.inFlight) (delivered : Bool) :
    Inv (es ++ [.complete p x delivered]) { s with
      objects := Function.update s.objects x ((s.objects x).complete (s.calls p).now delivered)
      inFlight := s.inFlight.erase (p, x) } := by
  have hset := eq_of_complete (s.objects x) (s.calls p).now delivered
  have href : ∀ y, (Function.update s.objects x
      ((s.objects x).complete (s.calls p).now delivered) y).reference =
        (s.objects y).reference := by
    intro y
    by_cases hy : y = x
    · subst hy
      rw [Function.update_self, hset]
    · rw [Function.update_of_ne hy]
  have hother : ∀ y, y ≠ x → (FailedSince (es ++ [.complete p x delivered]) y ↔
      FailedSince es y) := fun y hy =>
    failedSince_concat_of_ne fun q d heq => hy (by cases heq; rfl)
  refine ⟨fun y => ?_, fun e he => ?_, fun q e he => ?_, fun q y hy => ?_, h.sent, h.underWay,
    fun y hy => ?_, fun y hy => ?_⟩
  · rw [exists_creates_concat, ← h.created_iff]
    simp [Event.creates]
  · exact ⟨(h.entries e he).1, (href e.2).trans (h.entries e he).2⟩
  · exact ⟨(h.next q e he).1, (href e.2).trans (h.next q e he).2⟩
  · exact h.inFlight q y (Finset.mem_of_mem_erase hy)
  · obtain ⟨hvalid, hfailed, hinitial⟩ := h.sound y hy
    show Sound _ y (Function.update s.objects x _ y)
    by_cases hyx : y = x
    · subst hyx
      rw [Function.update_self]
      refine ⟨?_, ?_, ?_⟩
      · rw [hset]
        exact ⟨hvalid.expiration, hvalid.limit⟩
      · rw [isSome_complete, failedSince_concat]
        -- a delivery clears the count of failures, and a failure sets it
        cases delivered with
        | true => simp
        | false => simp
      · rw [isSome_complete]
        cases delivered with
        | true => exact fun h => by cases h
        | false =>
            intro _
            show (if (s.objects y).failedNotificationCount = none then some (s.calls p).now
              else (s.objects y).initialFailedNotificationTimeMicros).isSome = true
            split_ifs with hnone
            · rfl
            · exact hinitial (Option.isSome_iff_ne_none.mpr hnone)
    · rw [Function.update_of_ne hyx]
      exact ⟨hvalid, hfailed.trans (hother y hyx).symm, hinitial⟩
  · rw [hother y fun heq => hy (by rw [heq]; exact h.inFlight p x hx)]
    exact h.unknown y hy

/-- What a step of a call can be. -/
theorem proceed_cases {maintenanceIntervalMicros : Int} {p : Nat}
    (h : s.proceed maintenanceIntervalMicros p = some s') :
    ((s.calls p).phase = .started ∧
        s' = s.setPhase p (.notifying s.subscribers.firstEntry)) ∨
      (∃ e, (s.calls p).phase = .notifying (some e) ∧
        s' = (s.setPhase p (.notifying (s.subscribers.higherEntry e.1))).notify p e.2) ∨
      ((s.calls p).phase = .notifying none ∧
        s' = s.setPhase p (.maintaining s.subscribers.firstEntry)) ∨
      (∃ e, (s.calls p).phase = .maintaining (some e) ∧
        s' = (s.setPhase p (.maintaining (s.subscribers.higherEntry e.1))).maintain
          maintenanceIntervalMicros p e) ∨
      ((s.calls p).phase = .maintaining none ∧
        s' = { s.finish p with deleted := s.deleted ++ (s.calls p).subscribersToDelete }) := by
  unfold Service.proceed at h
  split at h
  · rename_i hphase
    exact Or.inl ⟨hphase, (Option.some.inj h).symm⟩
  · rename_i e hphase
    exact Or.inr (Or.inl ⟨e, hphase, (Option.some.inj h).symm⟩)
  · rename_i hphase
    split_ifs at h
    exact Or.inr (Or.inr (Or.inl ⟨hphase, (Option.some.inj h).symm⟩))
  · rename_i e hphase
    exact Or.inr (Or.inr (Or.inr (Or.inl ⟨e, hphase, (Option.some.inj h).symm⟩)))
  · rename_i hphase
    exact Or.inr (Or.inr (Or.inr (Or.inr ⟨hphase, (Option.some.inj h).symm⟩)))

theorem Inv.proceed (h : Inv es s) {maintenanceIntervalMicros : Int} {p : Nat}
    (hp : p ∈ s.underWay) (hstep : s.proceed maintenanceIntervalMicros p = some s') :
    Inv es s' := by
  have hhigher : ∀ k : URI, ∀ e ∈ s.subscribers.higherEntry k, e ∈ s.subscribers.entries :=
    fun k e he => (SortedMap.mem_higherEntry he).1
  rcases proceed_cases hstep with ⟨-, rfl⟩ | ⟨e, hphase, rfl⟩ | ⟨-, rfl⟩ | ⟨e, -, rfl⟩ | ⟨-, rfl⟩
  · exact h.setPhase p fun e he => (SortedMap.mem_firstEntry he).1
  · have he : e ∈ (s.calls p).phase.next := by rw [hphase]; rfl
    have hset : Inv es (s.setPhase p (.notifying (s.subscribers.higherEntry e.1))) :=
      h.setPhase p (hhigher e.1)
    exact hset.notify (h.underWay hp) (h.next p e he).1
  · exact h.setPhase p fun e he => (SortedMap.mem_firstEntry he).1
  · have hset : Inv es (s.setPhase p (.maintaining (s.subscribers.higherEntry e.1))) :=
      h.setPhase p (hhigher e.1)
    exact hset.maintain maintenanceIntervalMicros p e
  · exact (h.finish p).mono rfl rfl (fun _ => id) (fun _ _ => Or.inr) (fun _ _ => Or.inl)
      (fun _ => Or.inl) (Finset.Subset.refl _) (h.finish p).underWay

theorem inv_step {maintenanceIntervalMicros : Int} (h : Inv es s) (hok : Allowed s e)
    (hstep : step maintenanceIntervalMicros s e = some s') : Inv (es ++ [e]) s' := by
  unfold step at hstep
  cases e with
  | subscribe x body =>
      dsimp only at hstep
      split_ifs at hstep with hx
      cases hstep
      exact h.subscribe hx hok.1 hok.2.1
  | unsubscribe reference =>
      cases hstep
      exact (h.unsubscribe reference).concat (fun _ => rfl) nofun
  | publish p now skipped =>
      dsimp only at hstep
      split_ifs at hstep
      cases hstep
      exact (h.publish p now skipped).concat (fun _ => rfl) nofun
  | proceed p =>
      dsimp only at hstep
      split_ifs at hstep with hp
      exact (h.proceed hp hstep).concat (fun _ => rfl) nofun
  | complete p x delivered =>
      dsimp only at hstep
      split_ifs at hstep with hx
      cases hstep
      exact h.complete hx delivered

theorem inv_reach {maintenanceIntervalMicros : Int} {o : ServiceSubscriber URI}
    (h : Reach (step maintenanceIntervalMicros) Allowed (create o) es s) : Inv es s := by
  induction h with
  | refl => exact inv_create o
  | snoc _ hok hstep ih => exact inv_step ih hok hstep

end

/-! ## Limits -/

section

variable {s s' : Service URI} {es es' : List (Event URI)} {e : Event URI} {x p : Nat} {k : URI}
  {limit : Int} {phase : Phase URI}

/-- A subscriber with a limit while it is in the map. Every update since it subscribed is counted,
or will be by a call under way. -/
structure Counting (es : List (Event URI)) (s : Service URI) (x : Nat) (k : URI) (limit : Int) :
    Prop where
  mem : (k, x) ∈ s.subscribers.entries
  counted : (s.objects x).notificationCount.getD 0 + (s.pending k).card =
    (publishedAfter es x).length
  room : (publishedAfter es x).length ≤ limit
  below : (s.objects x).notificationCount.getD 0 < limit
  own : ∀ p ∈ s.underWay, ∀ e ∈ (s.calls p).phase.next, e.1 = k → e.2 = x
  published : ∀ p ∈ s.pending k, p ∈ publishedAfter es x

/-- It was notified of the updates whose calls are past it. -/
def SentPast (es : List (Event URI)) (s : Service URI) (x : Nat) (k : URI) : Prop :=
  ∀ p, p ∈ s.sentTo x ↔
    p ∈ publishedAfter es x ∧ ¬(p ∈ s.underWay ∧ (s.calls p).phase.ToNotify k)

/-- A subscriber with a limit after it was removed. -/
structure Gone (es : List (Event URI)) (s : Service URI) (x : Nat) (limit : Int) : Prop where
  not_mem : ∀ e ∈ s.subscribers.entries, e.2 ≠ x
  next_ne : ∀ p ∈ s.underWay, ∀ e ∈ (s.calls p).phase.next, e.2 ≠ x
  length : limit ≤ (publishedAfter es x).length
  sent : ∀ p, p ∈ s.sentTo x ↔ p ∈ (publishedAfter es x).take limit.toNat

/-- A subscriber with a limit that was not released by a request. -/
structure Tracked (es : List (Event URI)) (s : Service URI) (x : Nat) (limit : Int) : Prop where
  once : (s.sentTo x).Nodup
  place : (∃ k, Counting es s x k limit ∧ SentPast es s x k) ∨ Gone es s x limit

/-! ### Iterators -/

theorem toNotify_firstEntry (h : (k, x) ∈ s.subscribers.entries) :
    (Phase.notifying s.subscribers.firstEntry).ToNotify k := by
  obtain ⟨q, hq, hle⟩ := SortedMap.exists_firstEntry h
  exact ⟨q, hq, hle⟩

theorem exists_higherEntry_iff (h : (k, x) ∈ s.subscribers.entries) {k' : URI} :
    (∃ e ∈ s.subscribers.higherEntry k', e.1 ≤ k) ↔ k' < k := by
  constructor
  · rintro ⟨e, he, hle⟩
    exact lt_of_lt_of_le (SortedMap.mem_higherEntry he).2 hle
  · intro hlt
    obtain ⟨q, hq, hle⟩ := SortedMap.exists_higherEntry h hlt
    exact ⟨q, hq, hle⟩

/-- An iterator that goes past another key is as far from this one as it was. -/
theorem exists_higherEntry_iff_of_ne (h : (k, x) ∈ s.subscribers.entries) {e : URI × Nat}
    (hne : k ≠ e.1) :
    (∃ e' ∈ s.subscribers.higherEntry e.1, e'.1 ≤ k) ↔ ∃ e' ∈ some e, e'.1 ≤ k := by
  have hsome : (∃ e' ∈ some e, e'.1 ≤ k) ↔ e.1 ≤ k := by simp
  rw [exists_higherEntry_iff h, hsome]
  exact ⟨le_of_lt, fun hle => lt_of_le_of_ne hle hne.symm⟩

theorem toCount_of_next {e : URI × Nat} (he : e ∈ phase.next) (hle : e.1 ≤ k) :
    phase.ToCount k := by
  cases phase with
  | started => trivial
  | notifying next => trivial
  | maintaining next => exact ⟨e, he, hle⟩

theorem toCount_of_toNotify (h : phase.ToNotify k) : phase.ToCount k := by
  cases phase with
  | started => trivial
  | notifying next => trivial
  | maintaining next => exact h.elim

/-! ### Steps of a call -/

theorem pending_setPhase (hcount : phase.ToCount k ↔ (s.calls p).phase.ToCount k) :
    (s.setPhase p phase).pending k = s.pending k := by
  refine Finset.filter_congr fun q _ => ?_
  rw [phase_setPhase]
  split_ifs with hq
  · subst hq
    exact hcount
  · rfl

theorem Counting.setPhase (h : Counting es s x k limit)
    (hnext : ∀ e ∈ phase.next, e ∈ s.subscribers.entries)
    (hcount : phase.ToCount k ↔ (s.calls p).phase.ToCount k) :
    Counting es (s.setPhase p phase) x k limit := by
  refine ⟨h.mem, ?_, h.room, h.below, fun q hq e he hk => ?_, ?_⟩
  · rw [pending_setPhase hcount]
    exact h.counted
  · rw [phase_setPhase] at he
    split_ifs at he
    · exact congrArg Prod.snd (SortedMap.eq_of_key (hnext e he) h.mem hk)
    · exact h.own q hq e he hk
  · rw [pending_setPhase hcount]
    exact h.published

theorem SentPast.setPhase (h : SentPast es s x k)
    (hnotify : phase.ToNotify k ↔ (s.calls p).phase.ToNotify k) :
    SentPast es (s.setPhase p phase) x k := by
  intro q
  rw [phase_setPhase]
  split_ifs with hq
  · subst hq
    rw [hnotify]
    exact h q
  · exact h q

theorem Gone.setPhase (h : Gone es s x limit)
    (hnext : ∀ e ∈ phase.next, e ∈ s.subscribers.entries) :
    Gone es (s.setPhase p phase) x limit := by
  refine ⟨h.not_mem, fun q hq e he => ?_, h.length, h.sent⟩
  rw [phase_setPhase] at he
  split_ifs at he
  · exact h.not_mem e (hnext e he)
  · exact h.next_ne q hq e he

theorem sentTo_notify (y : Nat) :
    (s.notify p y).sentTo x = if y = x then s.sentTo x ++ [p] else s.sentTo x := by
  show ((s.sent ++ [_]).filter (fun n : Notification => n.subscriber = x)).map Notification.call = _
  rw [List.filter_append, List.map_append]
  split_ifs with hy
  · rw [List.filter_cons_of_pos (by simpa using hy)]
    rfl
  · rw [List.filter_cons_of_neg (by simpa using hy)]
    exact List.append_nil _

theorem pending_notify (y : Nat) : (s.notify p y).pending k = s.pending k := by
  refine Finset.filter_congr fun q _ => ?_
  rw [phase_notify]

theorem Counting.notify (h : Counting es s x k limit) (y : Nat) :
    Counting es (s.notify p y) x k limit := by
  refine ⟨h.mem, ?_, h.room, h.below, fun q hq e he hk => ?_, ?_⟩
  · rw [pending_notify]
    exact h.counted
  · rw [phase_notify] at he
    exact h.own q hq e he hk
  · rw [pending_notify]
    exact h.published

/-! ### What makes no difference to a subscriber -/

theorem pending_congr (hunderWay : s'.underWay = s.underWay)
    (hphase : ∀ q, (s'.calls q).phase = (s.calls q).phase) : s'.pending k = s.pending k := by
  unfold Service.pending
  rw [hunderWay]
  refine Finset.filter_congr fun q _ => ?_
  rw [hphase]

theorem Tracked.frame (h : Tracked es s x limit)
    (hpublished : publishedAfter es' x = publishedAfter es x)
    (hentries : ∀ e ∈ s'.subscribers.entries, e ∈ s.subscribers.entries ∨ e.2 ≠ x)
    (hmem : ∀ k, Counting es s x k limit → (k, x) ∈ s'.subscribers.entries)
    (hcount : (s'.objects x).notificationCount = (s.objects x).notificationCount)
    (hsent : s'.sentTo x = s.sentTo x) (hunderWay : s'.underWay = s.underWay)
    (hphase : ∀ q, (s'.calls q).phase = (s.calls q).phase) : Tracked es' s' x limit := by
  refine ⟨hsent ▸ h.once, ?_⟩
  rcases h.place with ⟨k, hcounting, hpast⟩ | hgone
  · refine Or.inl ⟨k, ⟨hmem k hcounting, ?_, ?_, ?_, ?_, ?_⟩, fun p => ?_⟩
    · rw [hcount, pending_congr hunderWay hphase, hpublished]
      exact hcounting.counted
    · rw [hpublished]
      exact hcounting.room
    · rw [hcount]
      exact hcounting.below
    · intro p hp e he
      rw [hunderWay] at hp
      rw [hphase] at he
      exact hcounting.own p hp e he
    · rw [pending_congr hunderWay hphase, hpublished]
      exact hcounting.published
    · rw [hsent, hpublished, hunderWay, hphase]
      exact hpast p
  · refine Or.inr ⟨fun e he => ?_, fun p hp e he => ?_, ?_, fun p => ?_⟩
    · exact (hentries e he).elim (hgone.not_mem e) id
    · rw [hunderWay] at hp
      rw [hphase] at he
      exact hgone.next_ne p hp e he
    · rw [hpublished]
      exact hgone.length
    · rw [hsent, hpublished]
      exact hgone.sent p

/-- No iterator has read another subscriber under the key of one that is in the map. -/
theorem Tracked.key_ne (h : Tracked es s x limit) (hinv : Inv es s) (hp : p ∈ s.underWay)
    {e : URI × Nat} (he : e ∈ (s.calls p).phase.next) (hx : e.2 ≠ x)
    (hmem : (k, x) ∈ s.subscribers.entries) : k ≠ e.1 := by
  rcases h.place with ⟨k', hcounting, -⟩ | hgone
  · have hkey : k = k' :=
      (hinv.entries _ hmem).2.symm.trans (hinv.entries _ hcounting.mem).2
    exact fun heq => hx (hcounting.own p hp e he (heq.symm.trans hkey))
  · exact absurd rfl (hgone.not_mem (k, x) hmem)

/-! ### Requests -/

theorem Tracked.subscribe (h : Tracked es s x limit)
    (hpublished : publishedAfter es' x = publishedAfter es x) {y : Nat}
    {body : ServiceSubscriber URI} (hne : y ≠ x)
    (hreleased : x ∉ (s.subscribe y body).released) : Tracked es' (s.subscribe y body) x limit := by
  have hget : s.subscribers.get body.reference ≠ some x := fun hget =>
    hreleased (Finset.mem_union_right _ (by simp [hget]))
  refine h.frame hpublished (fun e he => ?_) (fun k hcounting => ?_) ?_ rfl rfl fun _ => rfl
  · rcases SortedMap.mem_insert.mp he with rfl | ⟨he, -⟩
    · exact Or.inr hne
    · exact Or.inl he
  · refine SortedMap.mem_insert.mpr (Or.inr ⟨hcounting.mem, ?_⟩)
    rintro rfl
    exact hget (SortedMap.get_eq_some.mpr hcounting.mem)
  · exact congrArg _ (Function.update_of_ne hne.symm _ _)

theorem Tracked.unsubscribe (h : Tracked es s x limit)
    (hpublished : publishedAfter es' x = publishedAfter es x) {reference : URI}
    (hreleased : x ∉ (s.unsubscribe reference).released) :
    Tracked es' (s.unsubscribe reference) x limit := by
  have hget : s.subscribers.get reference ≠ some x := fun hget =>
    hreleased (Finset.mem_union_right _ (by simp [hget]))
  refine h.frame hpublished (fun e he => Or.inl (SortedMap.mem_remove.mp he).1)
    (fun k hcounting => ?_) rfl rfl rfl fun _ => rfl
  refine SortedMap.mem_remove.mpr ⟨hcounting.mem, ?_⟩
  rintro rfl
  exact hget (SortedMap.get_eq_some.mpr hcounting.mem)

/-- A subscriber with a limit comes when no call is yet to count for its reference. -/
theorem tracked_subscribe (h : Inv es s) {body : ServiceSubscriber URI} (hx : x ∉ s.created)
    (hvalid : body.Valid) (hlimit : limit ∈ body.notificationLimit)
    (hnone : body.notificationCount = none) (hempty : s.pending body.reference = ∅) :
    Tracked (es ++ [.subscribe x body]) (s.subscribe x body) x limit := by
  have hself : (s.subscribe x body).objects x = body := Function.update_self _ _ _
  have hpublished : publishedAfter (es ++ [.subscribe x body]) x = [] := by
    refine publishedAfter_new fun e he => ?_
    rw [← Bool.not_eq_true]
    exact fun hcreates => hx ((h.created_iff x).mpr ⟨e, he, hcreates⟩)
  have hsent : (s.subscribe x body).sentTo x = [] := by
    unfold Service.sentTo
    rw [List.map_eq_nil_iff, List.filter_eq_nil_iff]
    intro n hn heq
    exact hx (of_decide_eq_true heq ▸ (h.sent n hn).1)
  have hpending : (s.subscribe x body).pending body.reference = ∅ := hempty
  have hpos : 1 ≤ limit := hvalid.limit limit hlimit
  have hno : ∀ p, p ∉ (s.subscribe x body).pending body.reference := fun p hp =>
    Finset.notMem_empty p (hpending ▸ hp)
  refine ⟨hsent ▸ List.nodup_nil, Or.inl ⟨body.reference, ⟨?_, ?_, ?_, ?_, ?_, ?_⟩, fun p => ?_⟩⟩
  · exact SortedMap.mem_insert_self _ _ _
  · rw [hself, hnone, hpending, hpublished]
    rfl
  · rw [hpublished]
    exact le_trans (by decide) hpos
  · rw [hself, hnone]
    exact hpos
  · exact fun p hp e he hk =>
      absurd (Finset.mem_filter.mpr ⟨hp, toCount_of_next he hk.le⟩) (hno p)
  · exact fun p hp => absurd hp (hno p)
  · rw [hsent, hpublished]
    exact iff_of_false List.not_mem_nil fun hp => List.not_mem_nil hp.1

/-! ### Updates -/

theorem publish_of_ne (hne : s.subscribers.entries ≠ []) (now : Int) (skipped : Bool) :
    s.publish p now skipped = { s with
      published := insert p s.published
      underWay := insert p s.underWay
      calls := Function.update s.calls p ⟨now, skipped, .started, []⟩ } :=
  if_neg hne

theorem pending_publish (hne : s.subscribers.entries ≠ []) (now : Int) (skipped : Bool) :
    (s.publish p now skipped).pending k = insert p (s.pending k) := by
  ext q
  unfold Service.pending
  rw [Finset.mem_filter, Finset.mem_insert, Finset.mem_filter, phase_publish, publish_of_ne hne,
    Finset.mem_insert]
  by_cases hq : q = p
  · rw [if_pos ⟨hq, hne⟩]
    exact iff_of_true ⟨Or.inl hq, trivial⟩ (Or.inl hq)
  · rw [if_neg fun hand => hq hand.1]
    simp only [hq, false_or]

theorem Counting.publish (h : Counting es s x k limit) (hsub : s.underWay ⊆ s.published)
    (hp : p ∉ s.published) {now : Int} {skipped : Bool}
    (hpublished : publishedAfter es' x = publishedAfter es x ++ [p])
    (hroom : (s.objects x).notificationCount.getD 0 + (s.pending k).card < limit) :
    Counting es' (s.publish p now skipped) x k limit := by
  have hne : s.subscribers.entries ≠ [] := List.ne_nil_of_mem h.mem
  have hcard : (insert p (s.pending k)).card = (s.pending k).card + 1 :=
    Finset.card_insert_of_notMem fun hmem => hp (hsub (Finset.mem_filter.mp hmem).1)
  have hlength : ((publishedAfter es' x).length : Int) = (publishedAfter es x).length + 1 := by
    rw [hpublished, List.length_append]
    rfl
  have hcounted := h.counted
  refine ⟨?_, ?_, ?_, ?_, fun q hq e he => ?_, fun q hq => ?_⟩
  · rw [publish_of_ne hne]
    exact h.mem
  · rw [pending_publish hne, hcard, hlength, publish_of_ne hne]
    dsimp only
    omega
  · omega
  · rw [publish_of_ne hne]
    exact h.below
  · rw [phase_publish] at he
    split_ifs at he with hcase
    · cases he
    · have hqp : q ≠ p := fun heq => hcase ⟨heq, hne⟩
      rw [publish_of_ne hne] at hq
      exact h.own q (Finset.mem_of_mem_insert_of_ne hq hqp) e he
  · rw [hpublished, List.mem_append, List.mem_singleton]
    rw [pending_publish hne] at hq
    exact (Finset.mem_insert.mp hq).elim Or.inr fun hq => Or.inl (h.published q hq)

theorem sentTo_publish (now : Int) (skipped : Bool) :
    (s.publish p now skipped).sentTo x = s.sentTo x := by
  unfold Service.publish
  split_ifs <;> rfl

theorem SentPast.publish (h : SentPast es s x k) (hinv : Inv es s) (hp : p ∉ s.published)
    {now : Int} {skipped : Bool} (hne : s.subscribers.entries ≠ [])
    (hpublished : publishedAfter es' x = publishedAfter es x ++ [p]) :
    SentPast es' (s.publish p now skipped) x k := by
  intro q
  have hunderWay : (s.publish p now skipped).underWay = insert p s.underWay := by
    rw [publish_of_ne hne]
  rw [sentTo_publish, hpublished, phase_publish, hunderWay, List.mem_append, List.mem_singleton,
    Finset.mem_insert]
  by_cases hq : q = p
  · subst hq
    rw [if_pos ⟨rfl, hne⟩]
    refine iff_of_false (fun hmem => hp ?_) fun hnot => hnot.2 ⟨Or.inl rfl, trivial⟩
    obtain ⟨n, hn, rfl⟩ := List.mem_map.mp hmem
    exact (hinv.sent n (List.mem_of_mem_filter hn)).2
  · rw [if_neg fun hand => hq hand.1]
    simp only [hq, or_false, false_or]
    exact h q

theorem Gone.publish (h : Gone es s x limit) {now : Int} {skipped : Bool}
    (hpublished : publishedAfter es' x = publishedAfter es x ++ [p]) :
    Gone es' (s.publish p now skipped) x limit := by
  have hlength := h.length
  have hsubscribers : (s.publish p now skipped).subscribers = s.subscribers := by
    unfold Service.publish
    split_ifs <;> rfl
  refine ⟨?_, fun q hq e he => ?_, ?_, fun q => ?_⟩
  · rw [hsubscribers]
    exact h.not_mem
  · rw [phase_publish] at he
    split_ifs at he with hcase
    · cases he
    · refine h.next_ne q ?_ e he
      unfold Service.publish at hq
      split_ifs at hq with hempty
      · exact hq
      · exact Finset.mem_of_mem_insert_of_ne hq fun heq => hcase ⟨heq, hempty⟩
  · rw [hpublished, List.length_append]
    omega
  · rw [sentTo_publish, hpublished, List.take_append_of_le_length (by omega)]
    exact h.sent q

theorem Tracked.publish (h : Tracked es s x limit) (hinv : Inv es s) (hp : p ∉ s.published)
    {now : Int} {skipped : Bool} (hlimit : limit ∈ (s.objects x).notificationLimit)
    (hpublished : publishedAfter es' x = publishedAfter es x ++ [p])
    (hok : Allowed s (.publish p now skipped)) :
    Tracked es' (s.publish p now skipped) x limit := by
  refine ⟨by rw [sentTo_publish]; exact h.once, ?_⟩
  rcases h.place with ⟨k, hcounting, hpast⟩ | hgone
  · exact Or.inl ⟨k, hcounting.publish hinv.underWay hp hpublished
      (hok _ hcounting.mem limit hlimit),
      hpast.publish hinv hp (List.ne_nil_of_mem hcounting.mem) hpublished⟩
  · exact Or.inr (hgone.publish hpublished)

/-! ### The first loop -/

theorem Tracked.setPhase (h : Tracked es s x limit)
    (hnext : ∀ e ∈ phase.next, e ∈ s.subscribers.entries)
    (hcount : ∀ k, (k, x) ∈ s.subscribers.entries →
      (phase.ToCount k ↔ (s.calls p).phase.ToCount k))
    (hnotify : ∀ k, (k, x) ∈ s.subscribers.entries →
      (phase.ToNotify k ↔ (s.calls p).phase.ToNotify k)) :
    Tracked es (s.setPhase p phase) x limit := by
  refine ⟨h.once, ?_⟩
  rcases h.place with ⟨k, hcounting, hpast⟩ | hgone
  · exact Or.inl ⟨k, hcounting.setPhase hnext (hcount k hcounting.mem),
      hpast.setPhase (hnotify k hcounting.mem)⟩
  · exact Or.inr (hgone.setPhase hnext)

/-- The call comes to an entry. -/
theorem Tracked.notify (h : Tracked es s x limit) (hinv : Inv es s) (hp : p ∈ s.underWay)
    {e : URI × Nat} (hphase : (s.calls p).phase = .notifying (some e)) :
    Tracked es ((s.setPhase p (.notifying (s.subscribers.higherEntry e.1))).notify p e.2) x
      limit := by
  have hnext : ∀ e' ∈ s.subscribers.higherEntry e.1, e' ∈ s.subscribers.entries :=
    fun e' he' => (SortedMap.mem_higherEntry he').1
  have he : e ∈ (s.calls p).phase.next := by rw [hphase]; rfl
  have hcount : ∀ k, (Phase.notifying (s.subscribers.higherEntry e.1)).ToCount k ↔
      (s.calls p).phase.ToCount k := fun k => by
    rw [hphase]
    exact Iff.rfl
  by_cases hx : e.2 = x
  · -- The entry is that of the subscriber, which is notified of the update now.
    rcases h.place with ⟨k, hcounting, hpast⟩ | hgone
    · have hkey : e.1 = k :=
        (hinv.next p e he).2.symm.trans (hx ▸ (hinv.entries _ hcounting.mem).2)
      have hyet : (s.calls p).phase.ToNotify k := by
        rw [hphase]
        exact ⟨e, rfl, hkey.le⟩
      have hnot : p ∉ s.sentTo x := fun hmem => ((hpast p).mp hmem).2 ⟨hp, hyet⟩
      have hsent : ((s.setPhase p (.notifying (s.subscribers.higherEntry e.1))).notify p
          e.2).sentTo x = s.sentTo x ++ [p] := by
        rw [sentTo_notify, if_pos hx]
        rfl
      have hset : Counting es (s.setPhase p (.notifying (s.subscribers.higherEntry e.1))) x k
          limit := hcounting.setPhase hnext (hcount k)
      refine ⟨?_, Or.inl ⟨k, hset.notify e.2, fun q => ?_⟩⟩
      · rw [hsent]
        exact List.nodup_append.mpr ⟨h.once, List.nodup_singleton p, by
          rintro q hq r hr rfl
          exact hnot (List.mem_singleton.mp hr ▸ hq)⟩
      · rw [hsent, List.mem_append, List.mem_singleton, phase_notify, phase_setPhase]
        split_ifs with hq
        · subst hq
          have hmem : q ∈ s.pending k :=
            Finset.mem_filter.mpr ⟨hp, toCount_of_toNotify hyet⟩
          refine iff_of_true (Or.inr rfl) ⟨hcounting.published q hmem, fun hto => ?_⟩
          exact lt_irrefl k (hkey ▸ (exists_higherEntry_iff hcounting.mem).mp hto.2)
        · rw [or_iff_left hq]
          exact hpast q
    · exact absurd hx (hgone.next_ne p hp e he)
  · -- It is that of another one, and not the same key.
    have hset : Tracked es (s.setPhase p (.notifying (s.subscribers.higherEntry e.1))) x
        limit := by
      refine h.setPhase hnext (fun k _ => hcount k) fun k hmem => ?_
      rw [hphase]
      exact exists_higherEntry_iff_of_ne hmem (h.key_ne hinv hp he hx hmem)
    refine hset.frame rfl (fun e' he' => Or.inl he') (fun k hcounting => hcounting.mem) rfl ?_ rfl
      fun q => phase_notify _ p q e.2
    rw [sentTo_notify, if_neg hx]

/-! ### The second loop -/

/-- The iterator goes past an entry of another subscriber. -/
theorem Tracked.setPhase_maintaining (h : Tracked es s x limit) (hinv : Inv es s)
    (hp : p ∈ s.underWay) {e : URI × Nat}
    (hphase : (s.calls p).phase = .maintaining (some e)) (hx : e.2 ≠ x) :
    Tracked es (s.setPhase p (.maintaining (s.subscribers.higherEntry e.1))) x limit := by
  have he : e ∈ (s.calls p).phase.next := by rw [hphase]; rfl
  refine h.setPhase (fun e' he' => (SortedMap.mem_higherEntry he').1) (fun k hmem => ?_)
    fun k _ => ?_
  · rw [hphase]
    exact exists_higherEntry_iff_of_ne hmem (h.key_ne hinv hp he hx hmem)
  · rw [hphase]
    exact Iff.rfl

theorem phase_maintain {maintenanceIntervalMicros : Int} {e : URI × Nat}
    (h : ∃ r, (s.objects e.2).maintain (s.calls p).now maintenanceIntervalMicros = some r)
    (q : Nat) :
    ((s.maintain maintenanceIntervalMicros p e).calls q).phase = (s.calls q).phase := by
  obtain ⟨⟨remove, o⟩, hr⟩ := h
  unfold Service.maintain
  rw [hr]
  dsimp only
  split_ifs
  · show (Function.update s.calls p _ q).phase = _
    by_cases hq : q = p
    · subst hq
      rw [Function.update_self]
    · rw [Function.update_of_ne hq]
  · rfl

theorem underWay_maintain {maintenanceIntervalMicros : Int} {e : URI × Nat}
    (h : ∃ r, (s.objects e.2).maintain (s.calls p).now maintenanceIntervalMicros = some r) :
    (s.maintain maintenanceIntervalMicros p e).underWay = s.underWay := by
  obtain ⟨⟨remove, o⟩, hr⟩ := h
  unfold Service.maintain
  rw [hr]
  dsimp only
  split_ifs
  · rfl
  · rfl

theorem sent_maintain (maintenanceIntervalMicros : Int) (e : URI × Nat) :
    (s.maintain maintenanceIntervalMicros p e).sent = s.sent := by
  unfold Service.maintain
  split
  · rfl
  · dsimp only
    split_ifs <;> rfl

/-- Maintenance of another subscriber. -/
theorem Tracked.maintain_of_ne (h : Tracked es s x limit) {maintenanceIntervalMicros : Int}
    {e : URI × Nat} (hx : e.2 ≠ x) (hkey : ∀ k, (k, x) ∈ s.subscribers.entries → k ≠ e.1)
    (hr : ∃ r, (s.objects e.2).maintain (s.calls p).now maintenanceIntervalMicros = some r) :
    Tracked es (s.maintain maintenanceIntervalMicros p e) x limit := by
  have hphase := phase_maintain hr
  obtain ⟨⟨remove, o⟩, hr⟩ := hr
  have hobject : (Function.update s.objects e.2 o x).notificationCount =
      (s.objects x).notificationCount := by rw [Function.update_of_ne hx.symm]
  unfold Service.maintain at hphase ⊢
  rw [hr] at hphase ⊢
  dsimp only at hphase ⊢
  split_ifs at hphase ⊢
  · exact h.frame rfl (fun e' he' => Or.inl (SortedMap.mem_remove.mp he').1)
      (fun k hcounting => SortedMap.mem_remove.mpr ⟨hcounting.mem, hkey k hcounting.mem⟩) hobject
      rfl rfl hphase
  · exact h.frame rfl (fun e' he' => Or.inl he') (fun k hcounting => hcounting.mem) hobject rfl
      rfl hphase

/-- What the entry of the subscriber itself leads to, for the call that comes to it. -/
structure Passed (s s' : Service URI) (p x : Nat) (k : URI) : Prop where
  underWay : s'.underWay = s.underWay
  sent : s'.sentTo x = s.sentTo x
  phase : ∀ q, (s'.calls q).phase =
    if q = p then .maintaining (s.subscribers.higherEntry k) else (s.calls q).phase

theorem Passed.pending (h : Passed s s' p x k) (hmem : (k, x) ∈ s.subscribers.entries) :
    s'.pending k = (s.pending k).erase p := by
  have hafter : ¬(Phase.maintaining (s.subscribers.higherEntry k)).ToCount k := fun hto =>
    lt_irrefl k ((exists_higherEntry_iff hmem).mp hto)
  ext q
  unfold Service.pending
  rw [Finset.mem_filter, Finset.mem_erase, Finset.mem_filter, h.phase, h.underWay]
  split_ifs with hq
  · exact iff_of_false (fun hand => hafter hand.2) fun hand => hand.1 hq
  · exact (and_iff_right hq).symm

/-- There is room for more updates. -/
theorem Passed.counting (h : Passed s s' p x k) (hcounting : Counting es s x k limit)
    (hpending : p ∈ s.pending k) (hsubscribers : s'.subscribers = s.subscribers)
    (hcount : (s'.objects x).notificationCount.getD 0 =
      (s.objects x).notificationCount.getD 0 + 1)
    (hbelow : (s.objects x).notificationCount.getD 0 + 1 < limit) :
    Counting es s' x k limit := by
  have hcard : ((s.pending k).erase p).card + 1 = (s.pending k).card :=
    Finset.card_erase_add_one hpending
  have hcounted := hcounting.counted
  refine ⟨hsubscribers ▸ hcounting.mem, ?_, hcounting.room, hcount.trans_lt hbelow,
    fun q hq e he hk => ?_, fun q hq => ?_⟩
  · rw [hcount, h.pending hcounting.mem]
    omega
  · rw [h.underWay] at hq
    rw [h.phase] at he
    split_ifs at he
    · obtain ⟨-, hlt⟩ := SortedMap.mem_higherEntry he
      exact absurd hk hlt.ne'
    · exact hcounting.own q hq e he hk
  · rw [h.pending hcounting.mem] at hq
    exact hcounting.published q (Finset.mem_of_mem_erase hq)

theorem Passed.sentPast (h : Passed s s' p x k) (hpast : SentPast es s x k)
    {next : Next URI} (hphase : (s.calls p).phase = .maintaining next) :
    SentPast es s' x k := by
  intro q
  rw [h.sent, h.phase, h.underWay]
  split_ifs with hq
  · have hold := hpast q
    rw [hq, hphase] at hold
    rw [hq]
    exact hold
  · exact hpast q

/-- This was the last update that it had room for, and no other call is to count one. -/
theorem Passed.gone (h : Passed s s' p x k) (hcounting : Counting es s x k limit)
    (hpast : SentPast es s x k) (hinv : Inv es s) (hpending : p ∈ s.pending k)
    {next : Next URI} (hphase : (s.calls p).phase = .maintaining next)
    (hsubscribers : s'.subscribers = s.subscribers.remove k)
    (hremove : limit ≤ (s.objects x).notificationCount.getD 0 + 1) : Gone es s' x limit := by
  have hcard : ((s.pending k).erase p).card + 1 = (s.pending k).card :=
    Finset.card_erase_add_one hpending
  have hcounted := hcounting.counted
  have hroom := hcounting.room
  have hbelow := hcounting.below
  have hempty : s'.pending k = ∅ := by
    rw [h.pending hcounting.mem]
    exact Finset.card_eq_zero.mp (by omega)
  have hnone : ∀ q ∈ s'.underWay, ¬(s'.calls q).phase.ToCount k := fun q hq hto =>
    Finset.notMem_empty q (hempty ▸ Finset.mem_filter.mpr ⟨hq, hto⟩)
  have hkey : ∀ e : URI × Nat, (s.objects e.2).reference = e.1 → e.2 = x → e.1 = k :=
    fun e href hx => href.symm.trans (hx ▸ (hinv.entries _ hcounting.mem).2)
  refine ⟨fun e he hx => ?_, fun q hq e he hx => ?_, by omega, fun q => ?_⟩
  · rw [hsubscribers] at he
    obtain ⟨hentry, hne⟩ := SortedMap.mem_remove.mp he
    exact hne (hkey e (hinv.entries e hentry).2 hx)
  · have href : (s.objects e.2).reference = e.1 := by
      rw [h.phase] at he
      split_ifs at he
      · exact (hinv.entries e (SortedMap.mem_higherEntry he).1).2
      · exact (hinv.next q e he).2
    exact hnone q hq (toCount_of_next he (hkey e href hx).le)
  · rw [List.take_of_length_le (by omega)]
    refine (h.sentPast hpast hphase q).trans (and_iff_left fun hand => ?_)
    exact hnone q hand.1 (toCount_of_toNotify hand.2)

/-- The call comes to the entry of the subscriber, which counts the update. -/
theorem Counting.maintain_self (h : Counting es s x k limit) (hpast : SentPast es s x k)
    (hinv : Inv es s) (hp : p ∈ s.underWay) (honce : (s.sentTo x).Nodup)
    {maintenanceIntervalMicros : Int} (hlimit : limit ∈ (s.objects x).notificationLimit)
    (hphase : (s.calls p).phase = .maintaining (some (k, x))) :
    Tracked es ((s.setPhase p (.maintaining (s.subscribers.higherEntry k))).maintain
      maintenanceIntervalMicros p (k, x)) x limit := by
  have hpending : p ∈ s.pending k := by
    refine Finset.mem_filter.mpr ⟨hp, ?_⟩
    rw [hphase]
    exact ⟨(k, x), rfl, le_refl k⟩
  have hexpiration := (hinv.sound x (hinv.entries _ h.mem).1).valid.expiration
  generalize hs₁ : s.setPhase p (.maintaining (s.subscribers.higherEntry k)) = s₁
  have hr : (s₁.objects x).maintain (s₁.calls p).now maintenanceIntervalMicros = _ :=
    maintain_of_limit (by rw [← hs₁]; exact hexpiration) (by rw [← hs₁]; exact hlimit)
  have hpassed : Passed s (s₁.maintain maintenanceIntervalMicros p (k, x)) p x k := by
    refine ⟨?_, ?_, fun q => ?_⟩
    · rw [underWay_maintain ⟨_, hr⟩, ← hs₁]
      rfl
    · unfold Service.sentTo
      rw [sent_maintain, ← hs₁]
      rfl
    · rw [phase_maintain ⟨_, hr⟩, ← hs₁, phase_setPhase]
  unfold Service.maintain at hpassed ⊢
  rw [hr] at hpassed ⊢
  dsimp only at hpassed ⊢
  by_cases hremove : limit ≤ (s₁.objects x).notificationCount.getD 0 + 1
  · rw [decide_eq_true hremove, if_pos rfl] at hpassed ⊢
    subst hs₁
    exact ⟨hpassed.sent ▸ honce,
      Or.inr (hpassed.gone h hpast hinv hpending hphase rfl hremove)⟩
  · rw [decide_eq_false hremove, if_neg Bool.false_ne_true] at hpassed ⊢
    subst hs₁
    have hself : ∀ o : ServiceSubscriber URI,
        (Function.update s.objects x o x).notificationCount.getD 0 =
          o.notificationCount.getD 0 := fun o => by rw [Function.update_self]
    exact ⟨hpassed.sent ▸ honce, Or.inl ⟨k, hpassed.counting h hpending rfl (hself _)
      (lt_of_not_ge hremove), hpassed.sentPast hpast hphase⟩⟩

/-- A call ends that has come to every entry. -/
theorem Tracked.finish (h : Tracked es s x limit) (hphase : (s.calls p).phase = .maintaining none)
    (deleted : List URI) : Tracked es { s.finish p with deleted := deleted } x limit := by
  have hcount : ∀ k, ¬(s.calls p).phase.ToCount k := by
    intro k
    rw [hphase]
    rintro ⟨e, he, -⟩
    cases he
  refine ⟨h.once, ?_⟩
  rcases h.place with ⟨k, hcounting, hpast⟩ | hgone
  · have hpending : (s.finish p).pending k = s.pending k := by
      ext q
      unfold Service.pending Service.finish
      rw [Finset.mem_filter, Finset.mem_filter, Finset.mem_erase]
      refine ⟨fun hq => ⟨hq.1.2, hq.2⟩, fun hq => ⟨⟨?_, hq.1⟩, hq.2⟩⟩
      rintro rfl
      exact hcount k hq.2
    refine Or.inl ⟨k, ⟨hcounting.mem, ?_, hcounting.room, hcounting.below,
      fun q hq => hcounting.own q (Finset.mem_of_mem_erase hq),
      ?_⟩, fun q => ?_⟩
    · exact hpending ▸ hcounting.counted
    · exact hpending ▸ hcounting.published
    · refine (hpast q).trans (and_congr_right fun _ => not_congr ?_)
      show q ∈ s.underWay ∧ _ ↔ q ∈ s.underWay.erase p ∧ _
      rw [Finset.mem_erase]
      refine ⟨fun hq => ⟨⟨?_, hq.1⟩, hq.2⟩, fun hq => ⟨hq.1.2, hq.2⟩⟩
      rintro rfl
      exact hcount k (toCount_of_toNotify hq.2)
  · exact Or.inr ⟨hgone.not_mem, fun q hq => hgone.next_ne q (Finset.mem_of_mem_erase hq),
      hgone.length, hgone.sent⟩

theorem Tracked.proceed (h : Tracked es s x limit) (hinv : Inv es s) (hp : p ∈ s.underWay)
    {maintenanceIntervalMicros : Int} (hlimit : limit ∈ (s.objects x).notificationLimit)
    (hstep : s.proceed maintenanceIntervalMicros p = some s') : Tracked es s' x limit := by
  have hfirst : ∀ e ∈ s.subscribers.firstEntry, e ∈ s.subscribers.entries :=
    fun e he => (SortedMap.mem_firstEntry he).1
  rcases proceed_cases hstep with ⟨hphase, rfl⟩ | ⟨e, hphase, rfl⟩ | ⟨hphase, rfl⟩ |
    ⟨e, hphase, rfl⟩ | ⟨hphase, rfl⟩
  · refine h.setPhase hfirst (fun k hmem => ?_) (fun k hmem => ?_)
    · rw [hphase]
      exact Iff.rfl
    · rw [hphase]
      exact iff_of_true (toNotify_firstEntry hmem) trivial
  · exact h.notify hinv hp hphase
  · refine h.setPhase hfirst (fun k hmem => ?_) (fun k hmem => ?_)
    · rw [hphase]
      exact iff_of_true (toNotify_firstEntry hmem) trivial
    · rw [hphase]
      refine iff_of_false id fun hto => ?_
      obtain ⟨e, he, -⟩ := hto
      cases he
  · have he : e ∈ (s.calls p).phase.next := by rw [hphase]; rfl
    by_cases hx : e.2 = x
    · rcases h.place with ⟨k, hcounting, hpast⟩ | hgone
      · have hkey : e.1 = k :=
          (hinv.next p e he).2.symm.trans (hx ▸ (hinv.entries _ hcounting.mem).2)
        obtain rfl : e = (k, x) := Prod.ext hkey hx
        exact hcounting.maintain_self hpast hinv hp h.once hlimit hphase
      · exact absurd hx (hgone.next_ne p hp e he)
    · have hset : Inv es (s.setPhase p (.maintaining (s.subscribers.higherEntry e.1))) :=
        hinv.setPhase p fun e' he' => (SortedMap.mem_higherEntry he').1
      have hsound := hset.sound e.2 (hinv.next p e he).1
      exact (h.setPhase_maintaining hinv hp hphase hx).maintain_of_ne hx
        (fun k hmem => h.key_ne hinv hp he hx hmem) (exists_maintain hsound.initial)
  · exact h.finish hphase _

/-! ### Whole runs -/

/-- The completion of a notification does not count. -/
theorem Tracked.complete (h : Tracked es s x limit)
    (hpublished : publishedAfter es' x = publishedAfter es x) (y : Nat) (delivered : Bool) :
    Tracked es' { s with
      objects := Function.update s.objects y ((s.objects y).complete (s.calls p).now delivered)
      inFlight := s.inFlight.erase (p, y) } x limit := by
  refine h.frame hpublished (fun _ => Or.inl) (fun k hcounting => hcounting.mem) ?_ rfl rfl
    fun _ => rfl
  show (Function.update s.objects y ((s.objects y).complete (s.calls p).now delivered)
    x).notificationCount = _
  by_cases hx : x = y
  · subst hx
    rw [Function.update_self, eq_of_complete]
  · rw [Function.update_of_ne hx]

/-- A step of a call leaves the limits of the subscribers, and what requests do, as they are. -/
theorem proceed_frame {maintenanceIntervalMicros : Int}
    (hstep : s.proceed maintenanceIntervalMicros p = some s') :
    s'.created = s.created ∧ s'.released = s.released ∧
      ∀ x, (s'.objects x).notificationLimit = (s.objects x).notificationLimit := by
  rcases proceed_cases hstep with ⟨-, rfl⟩ | ⟨e, -, rfl⟩ | ⟨-, rfl⟩ | ⟨e, -, rfl⟩ | ⟨-, rfl⟩
  · exact ⟨rfl, rfl, fun _ => rfl⟩
  · exact ⟨rfl, rfl, fun _ => rfl⟩
  · exact ⟨rfl, rfl, fun _ => rfl⟩
  · unfold Service.maintain
    split
    · exact ⟨rfl, rfl, fun _ => rfl⟩
    · rename_i remove o heq
      have hlimit : ∀ x, (Function.update s.objects e.2 o x).notificationLimit =
          (s.objects x).notificationLimit := by
        intro x
        by_cases hx : x = e.2
        · subst hx
          rw [Function.update_self, eq_of_maintain heq]
          rfl
        · rw [Function.update_of_ne hx]
      dsimp only
      split_ifs
      · exact ⟨rfl, rfl, hlimit⟩
      · exact ⟨rfl, rfl, hlimit⟩
  · exact ⟨rfl, rfl, fun _ => rfl⟩

/-- Every subscriber with a limit is where it should be, unless a request released it. -/
def AllTracked (es : List (Event URI)) (s : Service URI) : Prop :=
  ∀ x ∈ s.created, x ∉ s.released → ∀ limit ∈ (s.objects x).notificationLimit,
    Tracked es s x limit

theorem allTracked_step {maintenanceIntervalMicros : Int} (h : AllTracked es s) (hinv : Inv es s)
    (hok : Allowed s e) (hstep : step maintenanceIntervalMicros s e = some s') :
    AllTracked (es ++ [e]) s' := by
  intro x hx hreleased limit hlimit
  have hpublished : x ∈ s.created →
      publishedAfter (es ++ [e]) x = publishedAfter es x ++ e.published.toList :=
    fun hx => publishedAfter_concat ((hinv.created_iff x).mp hx)
  unfold step at hstep
  cases e with
  | subscribe y body =>
      dsimp only at hstep
      split_ifs at hstep with hy
      cases hstep
      -- tracking starts with the subscription; that of another subscriber goes on
      by_cases hxy : x = y
      · subst hxy
        have hbody : limit ∈ body.notificationLimit := by
          change limit ∈ (Function.update s.objects x body x).notificationLimit at hlimit
          rwa [Function.update_self] at hlimit
        obtain ⟨hnone, hempty⟩ := hok.2.2 (Option.isSome_of_mem hbody)
        exact tracked_subscribe hinv hy hok.1 hbody hnone hempty
      · have hcreated : x ∈ s.created := Finset.mem_of_mem_insert_of_ne hx hxy
        change limit ∈ (Function.update s.objects y body x).notificationLimit at hlimit
        rw [Function.update_of_ne hxy] at hlimit
        have htracked : Tracked es s x limit :=
          h x hcreated (fun hmem => hreleased (Finset.mem_union_left _ hmem)) limit hlimit
        exact htracked.subscribe ((hpublished hcreated).trans (List.append_nil _)) (Ne.symm hxy)
          hreleased
  | unsubscribe reference =>
      cases hstep
      exact (h x hx (fun hmem => hreleased (Finset.mem_union_left _ hmem)) limit
        hlimit).unsubscribe ((hpublished hx).trans (List.append_nil _)) hreleased
  | publish p now skipped =>
      dsimp only at hstep
      split_ifs at hstep with hp
      cases hstep
      have hsame : (s.publish p now skipped).created = s.created ∧
          (s.publish p now skipped).released = s.released ∧
            (s.publish p now skipped).objects = s.objects := by
        unfold Service.publish
        split_ifs
        · exact ⟨rfl, rfl, rfl⟩
        · exact ⟨rfl, rfl, rfl⟩
      rw [hsame.1] at hx
      rw [hsame.2.1] at hreleased
      rw [hsame.2.2] at hlimit
      exact (h x hx hreleased limit hlimit).publish hinv hp hlimit (hpublished hx) hok
  | proceed p =>
      dsimp only at hstep
      split_ifs at hstep with hp
      obtain ⟨hcreated, hsame, hlimits⟩ := proceed_frame hstep
      rw [hcreated] at hx
      rw [hsame] at hreleased
      rw [hlimits] at hlimit
      have htracked : Tracked es s' x limit :=
        (h x hx hreleased limit hlimit).proceed hinv hp hlimit hstep
      exact htracked.frame ((hpublished hx).trans (List.append_nil _)) (fun _ => Or.inl)
        (fun k hcounting => hcounting.mem) rfl rfl rfl fun _ => rfl
  | complete p y delivered =>
      dsimp only at hstep
      split_ifs at hstep with hy
      cases hstep
      -- a completion leaves the limits of the subscribers alone
      have hold : limit ∈ (s.objects x).notificationLimit := by
        change limit ∈ (Function.update s.objects y _ x).notificationLimit at hlimit
        by_cases hxy : x = y
        · subst hxy
          rwa [Function.update_self, eq_of_complete] at hlimit
        · rwa [Function.update_of_ne hxy] at hlimit
      exact (h x hx hreleased limit hold).complete ((hpublished hx).trans (List.append_nil _)) y
        delivered

theorem allTracked_reach {maintenanceIntervalMicros : Int} {o : ServiceSubscriber URI}
    (h : Reach (step maintenanceIntervalMicros) Allowed (create o) es s) : AllTracked es s := by
  induction h with
  | refl => exact fun x hx => absurd hx (Finset.notMem_empty x)
  | snoc h hok hstep ih => exact allTracked_step ih (inv_reach h) hok hstep

theorem Tracked.firstOnly (h : Tracked es s x limit) : FirstOnly es s x limit.toNat := by
  rcases h.place with ⟨k, hcounting, hpast⟩ | hgone
  · have hroom := hcounting.room
    have hall : (publishedAfter es x).take limit.toNat = publishedAfter es x :=
      List.take_of_length_le (by omega)
    refine ⟨h.once, fun p hp => ?_, fun p hp hdone => ?_, fun _ => ?_, fun hlength hdone => ?_⟩
    · rw [hall]
      exact ((hpast p).mp hp).1
    · rw [hall] at hp
      exact (hpast p).mpr ⟨hp, fun hto => hdone hto.1⟩
    · exact List.mem_map_of_mem hcounting.mem
    · -- No call is under way, so that all of them are counted.
      rw [hall] at hdone
      have hempty : s.pending k = ∅ := Finset.eq_empty_of_forall_notMem fun p hp =>
        hdone p (hcounting.published p hp) (Finset.mem_filter.mp hp).1
      have hcounted := hcounting.counted
      have hbelow := hcounting.below
      rw [hempty, Finset.card_empty] at hcounted
      omega
  · have hlength := hgone.length
    have hnot : ¬s.Subscribed x := by
      intro hmem
      obtain ⟨e, he, heq⟩ := List.mem_map.mp hmem
      exact hgone.not_mem e he heq
    exact ⟨h.once, fun p hp => (hgone.sent p).mp hp, fun p hp _ => (hgone.sent p).mpr hp,
      fun hlt => by omega, fun _ _ => hnot⟩

/-- A notification is sent where a call comes to an entry in its first loop. -/
theorem exists_notify {maintenanceIntervalMicros : Int} {n : Notification}
    (hstep : step maintenanceIntervalMicros s e = some s') (hsent : s'.sent = s.sent ++ [n]) :
    ∃ p e', e = .proceed p ∧ (s.calls p).phase = .notifying (some e') ∧
      n = ⟨p, e'.2, (s.calls p).skipped || (s.objects e'.2).failedNotificationCount.isSome⟩ := by
  have hne : s'.sent ≠ s.sent := fun heq => by
    rw [heq] at hsent
    exact List.cons_ne_nil n [] (List.self_eq_append_right.mp hsent)
  unfold step at hstep
  -- no other event sends a notification
  cases e with
  | subscribe x body =>
      dsimp only at hstep
      split_ifs at hstep
      cases hstep
      exact absurd rfl hne
  | unsubscribe reference =>
      cases hstep
      exact absurd rfl hne
  | publish p now skipped =>
      dsimp only at hstep
      split_ifs at hstep
      cases hstep
      unfold Service.publish at hne
      split_ifs at hne
      · exact absurd rfl hne
      · exact absurd rfl hne
  | proceed p =>
      dsimp only at hstep
      split_ifs at hstep
      rcases proceed_cases hstep with ⟨-, rfl⟩ | ⟨e', hphase, rfl⟩ | ⟨-, rfl⟩ | ⟨e', -, rfl⟩ |
        ⟨-, rfl⟩
      · exact absurd rfl hne
      · refine ⟨p, e', rfl, hphase, ?_⟩
        have hskipped : ((s.setPhase p (.notifying (s.subscribers.higherEntry e'.1))).calls
            p).skipped = (s.calls p).skipped := by
          show (Function.update s.calls p _ p).skipped = _
          rw [Function.update_self]
        rw [← hskipped]
        exact (List.head_eq_of_cons_eq (List.append_cancel_left hsent)).symm
      · exact absurd rfl hne
      · exact absurd (sent_maintain _ _) hne
      · exact absurd rfl hne
  | complete p x delivered =>
      dsimp only at hstep
      split_ifs at hstep
      cases hstep
      exact absurd rfl hne

end

/-! ## Runs that keep them and runs that break them -/

section

instance (s : ServiceSubscriber URI) : Decidable s.Valid :=
  decidable_of_iff (s.documentExpirationTimeMicros = 0 ∧ ∀ limit ∈ s.notificationLimit, 1 ≤ limit)
    ⟨fun h => ⟨h.1, h.2⟩, fun h => ⟨h.1, h.2⟩⟩

instance (s : Service URI) : ∀ e : Event URI, Decidable (Allowed s e)
  | .subscribe _ body => inferInstanceAs (Decidable (body.Valid ∧
      body.failedNotificationCount = none ∧ (body.notificationLimit.isSome →
        body.notificationCount = none ∧ s.pending body.reference = ∅)))
  | .publish _ _ _ => inferInstanceAs (Decidable (∀ e ∈ s.subscribers.entries,
      ∀ limit ∈ (s.objects e.2).notificationLimit,
        (s.objects e.2).notificationCount.getD 0 + (s.pending e.1).card < limit))
  | .proceed p =>
      match h : (s.calls p).phase with
      | .notifying (some e) => decidable_of_iff ((s.calls p).skipped = true →
          (s.objects e.2).failedNotificationCount.isSome)
          ⟨fun hok e' he' => by rw [h] at he'; cases he'; exact hok, fun hok => hok e h⟩
      | .started => isTrue fun e he => by rw [h] at he; cases he
      | .notifying none => isTrue fun e he => by rw [h] at he; cases he
      | .maintaining _ => isTrue fun e he => by rw [h] at he; cases he
  | .unsubscribe _ | .complete _ _ _ => isTrue trivial

/-- Subscribers come without counts, and updates without the directive. -/
def Fresh : Event URI → Prop
  | .subscribe _ body =>
      body.Valid ∧ body.notificationCount = none ∧ body.failedNotificationCount = none
  | .publish _ _ skipped => skipped = false
  | .unsubscribe _ | .proceed _ | .complete _ _ _ => True

instance : ∀ e : Event URI, Decidable (Fresh e)
  | .subscribe _ body => inferInstanceAs (Decidable (body.Valid ∧
      body.notificationCount = none ∧ body.failedNotificationCount = none))
  | .publish _ _ skipped => inferInstanceAs (Decidable (skipped = false))
  | .unsubscribe _ | .proceed _ | .complete _ _ _ => isTrue trivial

/-- A subscriber as requests create it. -/
def subscriber (reference : Nat) (notificationLimit : Option Int) : ServiceSubscriber Nat :=
  ⟨reference, notificationLimit, 0, none, none, none⟩

/-- An update for a subscriber that wants one. -/
def oneUpdate : List (Event Nat) :=
  [.subscribe 0 (subscriber 8 (some 1)), .publish 0 50 false, .proceed 0, .proceed 0, .proceed 0,
    .proceed 0, .proceed 0]

/-- Two updates that overlap are both sent to a subscriber that wants one. -/
def overlapping : List (Event Nat) :=
  [.subscribe 0 (subscriber 8 (some 1)), .publish 0 50 false, .publish 1 51 false, .proceed 0,
    .proceed 1, .proceed 0, .proceed 1]

/-- The first subscriber misses an update, and the second does not. -/
def oneMisses : List (Event Nat) :=
  [.subscribe 0 (subscriber 8 none), .subscribe 1 (subscriber 9 none), .publish 0 50 false,
    .proceed 0, .proceed 0, .proceed 0, .complete 0 0 false, .complete 0 1 true,
    .publish 1 51 false, .proceed 1, .proceed 1]

end

end Xenon.Common.UtilityService

import Mathlib.Data.List.Nodup
import Mathlib.Order.Basic
import Mathlib.Data.Int.Order.Basic
import Xenon.Foundation.Pool

/-!
# The logical clock

`Utils.getNowMicrosUtc`. Every call takes the shared value once before it looks at the wall clock
reading it has made, and once more when that reading is ahead; the value that a call returns is one
that it has taken. The shared value never goes back, so no value is taken twice and what is taken
later is greater.

A call is a task of a pool, with one atomic step of the source a firing: the reading of the wall
clock, `getAndIncrement`, `compareAndSet`, and the reading of the drift threshold.
-/

namespace Xenon.Common.LogicalClock

open Foundation

/-- What can be seen of a call. -/
inductive Event where
  | called (call : Nat)
  | returned (call : Nat) (value : Int)
  | threw (call : Nat) (message : String)
deriving DecidableEq

/-- The shared value, with the calls so far and their number. -/
structure Shared where
  previousTimeValue : Int
  calls : Nat := 0
  log : List Event := []
deriving DecidableEq

/-- The rest of a call of `getNowMicrosUtc`. -/
inductive Task where
  | currentTimeMillis (call : Nat)
  | getAndIncrement (call : Nat) (now : Int)
  /-- The reading is ahead of the value that was taken. -/
  | compareAndSet (call : Nat) (now time : Int)
  | getAndIncrementAgain (call : Nat)
  /-- The reading is not ahead. -/
  | checkDrift (call : Nat) (now time : Int)
deriving DecidableEq

/-- What the environment answers: the wall clock, or `timeDriftThresholdMicros`. -/
inductive Answer where
  | done
  | currentTimeMillis (millis : Int)
  | timeDriftThresholdMicros (micros : Int)
deriving DecidableEq

def Shared.see (s : Shared) (e : Event) : Shared := { s with log := s.log ++ [e] }

/-- `previousTimeValue.getAndIncrement()`. -/
def Shared.increment (s : Shared) : Shared :=
  { s with previousTimeValue := s.previousTimeValue + 1 }

/-- `previousTimeValue.compareAndSet(expected, value)`. -/
def Shared.compareAndSet (s : Shared) (expected value : Int) : Shared :=
  if s.previousTimeValue = expected then { s with previousTimeValue := value } else s

def fire (s : Shared) : Task → Answer → Option (Shared × List Task)
  | .currentTimeMillis c, .currentTimeMillis millis =>
      some (s, [.getAndIncrement c (millis * 1000)])
  | .getAndIncrement c now, .done =>
      let time := s.previousTimeValue
      some (s.increment,
        [if now > time then .compareAndSet c now time else .checkDrift c now time])
  | .compareAndSet c now time, .done =>
      some (s.compareAndSet (time + 1) now, [.getAndIncrementAgain c])
  | .getAndIncrementAgain c, .done =>
      some (s.increment.see (.returned c s.previousTimeValue), [])
  | .checkDrift c now time, .timeDriftThresholdMicros threshold =>
      if time - now > threshold then
        some (s.see (.threw c s!"Time drift is {time - now}"), [])
      else some (s.see (.returned c time), [])
  | _, _ => none

/-- Any number of calls, with their steps in any order. -/
def clock : Machine Shared Task Unit Answer where
  input s _ := ({ s.see (.called s.calls) with calls := s.calls + 1 },
    [.currentTimeMillis s.calls])
  fire := fire

/-- No call has been made, and the shared value is any. -/
def start (previousTimeValue : Int) : Pool Shared Task :=
  ⟨{ previousTimeValue := previousTimeValue }, []⟩

/-! ## What is taken -/

def Task.call : Task → Nat
  | .currentTimeMillis c => c
  | .getAndIncrement c _ => c
  | .compareAndSet c _ _ => c
  | .getAndIncrementAgain c => c
  | .checkDrift c _ _ => c

/-- The value that a call has taken and may return. -/
def Task.taken : Task → Option Int
  | .checkDrift _ _ time => some time
  | _ => none

def Event.value : Event → Option Int
  | .returned _ value => some value
  | _ => none

/-- The values that the calls have returned. -/
def values (log : List Event) : List Int := log.filterMap Event.value

/-- One event was seen before the other. -/
def Before (log : List Event) (e e' : Event) : Prop := [e, e'].Sublist log

/-- The values in the hands of the calls are below the shared value and differ. A value that was
returned before a call is less than what that call has taken or returned. -/
structure Inv (s : Shared) (ts : List Task) : Prop where
  tasks : ∀ t ∈ ts, t.call < s.calls
  calls : ∀ c v, .returned c v ∈ s.log → c < s.calls
  below : ∀ v ∈ ts.filterMap Task.taken ++ values s.log, v < s.previousTimeValue
  ahead : ∀ c now time, .compareAndSet c now time ∈ ts → time < now
  distinct : (ts.filterMap Task.taken ++ values s.log).Nodup
  laterTaken : ∀ d v c, Before s.log (.returned d v) (.called c) →
    ∀ t ∈ ts, t.call = c → ∀ w ∈ t.taken, v < w
  laterReturned : ∀ d v c, Before s.log (.returned d v) (.called c) →
    ∀ w, .returned c w ∈ s.log → v < w

section Log

variable {log : List Event} {e e' : Event} {c d : Nat} {v : Int}

theorem mem_values : v ∈ values log ↔ ∃ c, .returned c v ∈ log := by
  unfold values
  rw [List.mem_filterMap]
  constructor
  · rintro ⟨e, he, hv⟩
    cases e with
    | returned c w =>
        obtain rfl : w = v := Option.some.inj hv
        exact ⟨c, he⟩
    | called c => cases hv
    | threw c message => cases hv
  · rintro ⟨c, hc⟩
    exact ⟨_, hc, rfl⟩

theorem Before.mem (h : Before log e e') : e ∈ log ∧ e' ∈ log :=
  ⟨h.subset List.mem_cons_self, h.subset (List.mem_cons_of_mem _ List.mem_cons_self)⟩

/-- A new event is after all others. -/
theorem before_snoc {new : Event} :
    Before (log ++ [new]) e e' ↔ Before log e e' ∨ e ∈ log ∧ e' = new := by
  unfold Before
  constructor
  · intro h
    obtain ⟨l₁, l₂, hsplit, h₁, h₂⟩ := List.sublist_append_iff.mp h
    cases l₂ with
    | nil =>
        rw [List.append_nil] at hsplit
        exact Or.inl (hsplit ▸ h₁)
    | cons x l₂ =>
        have hlast : x = new ∧ l₂ = [] := by simpa using h₂
        obtain ⟨rfl, rfl⟩ := hlast
        obtain ⟨rfl, hnew⟩ := List.append_inj' (show [e] ++ [e'] = l₁ ++ [_] from hsplit) rfl
        exact Or.inr ⟨List.singleton_sublist.mp h₁, by simpa using hnew⟩
  · rintro (h | ⟨he, rfl⟩)
    · exact h.trans (List.sublist_append_left _ _)
    · exact (List.singleton_sublist.mpr he).append (List.Sublist.refl [e'])

end Log

section Steps

variable {s : Shared} {t : Task} {ts ts' : List Task} {c : Nat}

theorem Inv.perm (h : Inv s ts) (hp : ts.Perm ts') : Inv s ts' := by
  have htaken := (hp.filterMap Task.taken).append_right (values s.log)
  refine ⟨?_, h.calls, ?_, ?_, htaken.nodup h.distinct, ?_, h.laterReturned⟩
  · exact fun t ht => h.tasks t (hp.mem_iff.mpr ht)
  · exact fun v hv => h.below v (htaken.mem_iff.mpr hv)
  · exact fun c now time ht => h.ahead c now time (hp.mem_iff.mpr ht)
  · exact fun d v c hbefore t ht => h.laterTaken d v c hbefore t (hp.mem_iff.mpr ht)

theorem Inv.start (value : Int) : Inv (start value).shared (start value).tasks :=
  ⟨nofun, nofun, nofun, nofun, List.nodup_nil, nofun, fun _ _ _ _ _ hw => nomatch hw⟩

/-- A new call has taken nothing. -/
theorem Inv.input (h : Inv s ts) :
    Inv { s.see (.called s.calls) with calls := s.calls + 1 }
      (.currentTimeMillis s.calls :: ts) := by
  have hreturned : ∀ c v, Event.returned c v ∈ s.log ++ [.called s.calls] ↔
      .returned c v ∈ s.log := by simp
  have hvalues : values (s.log ++ [.called s.calls]) = values s.log := by
    simp [values, Event.value]
  refine ⟨?_, ?_, ?_, ?_, ?_, ?_, ?_⟩
  · intro t ht
    rcases List.mem_cons.mp ht with rfl | ht
    · exact Nat.lt_succ_self s.calls
    · exact Nat.lt_succ_of_lt (h.tasks t ht)
  · exact fun c v hv => Nat.lt_succ_of_lt (h.calls c v ((hreturned c v).mp hv))
  · intro v hv
    apply h.below v
    rwa [Shared.see, hvalues] at hv
  · exact fun c now time ht => h.ahead c now time (by simpa using ht)
  · show (_ ++ values (s.log ++ [.called s.calls])).Nodup
    rw [hvalues]
    exact h.distinct
  · intro d v c hbefore t ht hc w hw
    rcases List.mem_cons.mp ht with rfl | ht
    · cases hw
    · rcases before_snoc.mp hbefore with hbefore | ⟨-, hnew⟩
      · exact h.laterTaken d v c hbefore t ht hc w hw
      · cases hnew
        exact absurd (h.tasks t ht) (by omega)
  · intro d v c hbefore w hw
    rw [Shared.see, hreturned] at hw
    rcases before_snoc.mp hbefore with hbefore | ⟨-, hnew⟩
    · exact h.laterReturned d v c hbefore w hw
    · cases hnew
      exact absurd (h.calls _ w hw) (Nat.lt_irrefl _)

/-- A call goes on without a value in its hands, and the shared value does not go back. -/
theorem Inv.proceed {t' : Task} (h : Inv s (t :: ts)) {value : Int}
    (hvalue : s.previousTimeValue ≤ value) (hcall : t'.call = t.call) (ht : t.taken = none)
    (ht' : t'.taken = none) (hahead : ∀ c now time, t' = .compareAndSet c now time → time < now) :
    Inv { s with previousTimeValue := value } (t' :: ts) := by
  have htaken : (t' :: ts).filterMap Task.taken = (t :: ts).filterMap Task.taken := by
    rw [List.filterMap_cons_none ht, List.filterMap_cons_none ht']
  refine ⟨?_, h.calls, ?_, ?_, by simpa only [htaken] using h.distinct, ?_, h.laterReturned⟩
  · intro t'' ht''
    rcases List.mem_cons.mp ht'' with rfl | ht''
    · exact hcall ▸ h.tasks t List.mem_cons_self
    · exact h.tasks t'' (List.mem_cons_of_mem _ ht'')
  · intro v hv
    rw [htaken] at hv
    exact (h.below v hv).trans_le hvalue
  · intro c now time hmem
    rcases List.mem_cons.mp hmem with heq | hmem
    · exact hahead c now time heq.symm
    · exact h.ahead c now time (List.mem_cons_of_mem _ hmem)
  · intro d v c hbefore t'' ht'' hc w hw
    rcases List.mem_cons.mp ht'' with rfl | ht''
    · rw [ht'] at hw
      cases hw
    · exact h.laterTaken d v c hbefore t'' (List.mem_cons_of_mem _ ht'') hc w hw

/-- The value that is taken is greater than every one before. -/
theorem Inv.take {t' : Task} (h : Inv s (t :: ts)) (hcall : t'.call = t.call)
    (ht : t.taken = none) (ht' : t'.taken = some s.previousTimeValue) :
    Inv s.increment (t' :: ts) := by
  have hbelow : ∀ v ∈ ts.filterMap Task.taken ++ values s.log, v < s.previousTimeValue := by
    intro v hv
    apply h.below v
    rwa [List.filterMap_cons_none ht]
  have hnot : ∀ c now time, t' ≠ .compareAndSet c now time := by
    rintro c now time rfl
    cases ht'
  refine ⟨?_, h.calls, ?_, ?_, ?_, ?_, h.laterReturned⟩
  · intro t'' ht''
    rcases List.mem_cons.mp ht'' with rfl | ht''
    · exact hcall ▸ h.tasks t List.mem_cons_self
    · exact h.tasks t'' (List.mem_cons_of_mem _ ht'')
  · intro v hv
    rw [List.filterMap_cons_some ht', List.cons_append, List.mem_cons] at hv
    show v < s.previousTimeValue + 1
    rcases hv with rfl | hv
    · omega
    · have hlt := hbelow v hv
      omega
  · intro c now time hmem
    rcases List.mem_cons.mp hmem with heq | hmem
    · exact absurd heq.symm (hnot c now time)
    · exact h.ahead c now time (List.mem_cons_of_mem _ hmem)
  · rw [List.filterMap_cons_some ht', List.cons_append, List.nodup_cons]
    refine ⟨fun hmem => Int.lt_irrefl _ (hbelow _ hmem), ?_⟩
    have hdistinct := h.distinct
    rwa [List.filterMap_cons_none ht] at hdistinct
  · intro d v c hbefore t'' ht'' hc w hw
    rcases List.mem_cons.mp ht'' with rfl | ht''
    · rw [ht', Option.mem_some_iff] at hw
      subst hw
      exact hbelow v (List.mem_append_right _ (mem_values.mpr ⟨d, hbefore.mem.1⟩))
    · exact h.laterTaken d v c hbefore t'' (List.mem_cons_of_mem _ ht'') hc w hw

/-- A call that has taken nothing else ends, and the value that it returns is new. -/
theorem Inv.return (h : Inv s (t :: ts)) {w value : Int} (hvalue : s.previousTimeValue ≤ value)
    (hlt : w < value) (hnew : w ∉ ts.filterMap Task.taken ++ values s.log)
    (hlater : ∀ d v, Before s.log (.returned d v) (.called t.call) → v < w) :
    Inv ({ s with previousTimeValue := value }.see (.returned t.call w)) ts := by
  have hvalues : values (s.log ++ [.returned t.call w]) = values s.log ++ [w] := by
    simp [values, Event.value]
  have hbefore : ∀ {d v c}, Before (s.log ++ [.returned t.call w]) (.returned d v) (.called c) →
      Before s.log (.returned d v) (.called c) := by
    intro d v c hbefore
    rcases before_snoc.mp hbefore with hbefore | ⟨-, hnew⟩
    · exact hbefore
    · cases hnew
  have hsub : (ts.filterMap Task.taken).Sublist ((t :: ts).filterMap Task.taken) :=
    (List.sublist_cons_self t ts).filterMap Task.taken
  have hreturned : ∀ {c v}, Event.returned c v ∈ s.log ++ [.returned t.call w] →
      .returned c v ∈ s.log ∨ c = t.call ∧ v = w := by
    intro c v hv
    simpa using hv
  refine ⟨fun t' ht' => h.tasks t' (List.mem_cons_of_mem _ ht'), ?_, ?_, ?_, ?_, ?_, ?_⟩
  · intro c v hv
    rcases hreturned hv with hv | ⟨rfl, -⟩
    · exact h.calls c v hv
    · exact h.tasks t List.mem_cons_self
  · intro v hv
    rw [Shared.see, hvalues, ← List.append_assoc, List.mem_append, List.mem_singleton] at hv
    rcases hv with hv | rfl
    · exact (h.below v ((hsub.append_right _).subset hv)).trans_le hvalue
    · exact hlt
  · exact fun c now time hmem => h.ahead c now time (List.mem_cons_of_mem _ hmem)
  · show (_ ++ values (s.log ++ [.returned t.call w])).Nodup
    rw [hvalues, ← List.append_assoc]
    have hrest := h.distinct.sublist (hsub.append_right (values s.log))
    exact List.nodup_append.mpr ⟨hrest, List.nodup_singleton w, by
      rintro v hv v' hv' rfl
      exact hnew (List.mem_singleton.mp hv' ▸ hv)⟩
  · exact fun d v c hb t' ht' => h.laterTaken d v c (hbefore hb) t' (List.mem_cons_of_mem _ ht')
  · intro d v c hb w' hw'
    rcases hreturned hw' with hw' | ⟨rfl, rfl⟩
    · exact h.laterReturned d v c (hbefore hb) w' hw'
    · exact hlater d v (hbefore hb)

/-- A call that throws returns nothing. -/
theorem Inv.throw (h : Inv s (t :: ts)) (message : String) :
    Inv (s.see (.threw t.call message)) ts := by
  have hvalues : values (s.log ++ [.threw t.call message]) = values s.log := by
    simp [values, Event.value]
  have hreturned : ∀ {c v}, Event.returned c v ∈ s.log ++ [.threw t.call message] →
      .returned c v ∈ s.log := by
    intro c v hv
    simpa using hv
  have hbefore : ∀ {d v c}, Before (s.log ++ [.threw t.call message]) (.returned d v) (.called c) →
      Before s.log (.returned d v) (.called c) := by
    intro d v c hbefore
    rcases before_snoc.mp hbefore with hbefore | ⟨-, hnew⟩
    · exact hbefore
    · cases hnew
  have hsub : (ts.filterMap Task.taken).Sublist ((t :: ts).filterMap Task.taken) :=
    (List.sublist_cons_self t ts).filterMap Task.taken
  refine ⟨fun t' ht' => h.tasks t' (List.mem_cons_of_mem _ ht'),
    fun c v hv => h.calls c v (hreturned hv), ?_,
    fun c now time hmem => h.ahead c now time (List.mem_cons_of_mem _ hmem), ?_,
    fun d v c hb t' ht' => h.laterTaken d v c (hbefore hb) t' (List.mem_cons_of_mem _ ht'),
    fun d v c hb w hw => h.laterReturned d v c (hbefore hb) w (hreturned hw)⟩
  · intro v hv
    rw [Shared.see, hvalues] at hv
    exact h.below v ((hsub.append_right _).subset hv)
  · show (_ ++ values (s.log ++ [.threw t.call message])).Nodup
    rw [hvalues]
    exact h.distinct.sublist (hsub.append_right _)

theorem Inv.fire {k : Answer} {r : Shared × List Task} (h : Inv s (t :: ts))
    (hr : fire s t k = some r) : Inv r.1 (r.2 ++ ts) := by
  cases t with
  | currentTimeMillis c =>
      cases k with
      | currentTimeMillis millis =>
          cases hr
          exact h.proceed le_rfl rfl rfl rfl nofun
      | done => cases hr
      | timeDriftThresholdMicros micros => cases hr
  | getAndIncrement c now =>
      cases k with
      | done =>
          cases hr
          by_cases hlt : now > s.previousTimeValue
          · rw [if_pos hlt]
            refine h.proceed (Int.le_add_one le_rfl) rfl rfl rfl ?_
            rintro c' now' time' ⟨⟩
            exact hlt
          · rw [if_neg hlt]
            exact h.take rfl rfl rfl
      | currentTimeMillis millis => cases hr
      | timeDriftThresholdMicros micros => cases hr
  | compareAndSet c now time =>
      cases k with
      | done =>
          cases hr
          -- the call found `now` ahead of the value that it replaces
          have hahead := h.ahead c now time List.mem_cons_self
          unfold Shared.compareAndSet
          split_ifs with heq
          · exact h.proceed (by omega) rfl rfl rfl nofun
          · exact h.proceed le_rfl rfl rfl rfl nofun
      | currentTimeMillis millis => cases hr
      | timeDriftThresholdMicros micros => cases hr
  | getAndIncrementAgain c =>
      cases k with
      | done =>
          cases hr
          refine h.return (Int.le_add_one le_rfl) (Int.lt_succ _) ?_ ?_
          · exact fun hmem => Int.lt_irrefl _ (h.below _ hmem)
          · intro d v hbefore
            exact h.below v (List.mem_append_right _ (mem_values.mpr ⟨d, hbefore.mem.1⟩))
      | currentTimeMillis millis => cases hr
      | timeDriftThresholdMicros micros => cases hr
  | checkDrift c now time =>
      cases k with
      | timeDriftThresholdMicros threshold =>
          simp only [LogicalClock.fire] at hr
          split_ifs at hr with hdrift
          · cases hr
            exact h.throw _
          · cases hr
            have hdistinct := h.distinct
            rw [List.filterMap_cons_some (f := Task.taken) rfl, List.cons_append,
              List.nodup_cons] at hdistinct
            refine h.return le_rfl (h.below time List.mem_cons_self) hdistinct.1 ?_
            exact fun d v hbefore =>
              h.laterTaken d v c hbefore _ List.mem_cons_self rfl time rfl
      | done => cases hr
      | currentTimeMillis millis => cases hr

end Steps

/-- **The logical clock is unique and monotonic.** In every interleaving of any number of calls, with
any readings of the wall clock and any drift thresholds, the values that are returned differ, and a
call that is made after another has returned returns a greater value. -/
theorem unique_and_monotonic (value : Int) {p : Pool Shared Task}
    (h : clock.Reaches (fun _ _ _ => True) (start value) p) :
    (values p.shared.log).Nodup ∧
    ∀ d v c w, Before p.shared.log (.returned d v) (.called c) →
      .returned c w ∈ p.shared.log → v < w := by
  have hinv := Machine.invariant Inv h (fun hp hinv => hinv.perm hp) (Inv.start value)
    (fun _ hinv => hinv.input) (fun _ hr hinv => hinv.fire hr)
  exact ⟨(List.nodup_append.mp hinv.distinct).2.1,
    fun d v c w hbefore => hinv.laterReturned d v c hbefore w⟩

/-- Two calls overlap, and the `compareAndSet` of the first fails. A third call reads an earlier
time. -/
def overlapping : List (PoolEvent Unit Answer) :=
  [.input (), .input (), .fire 1 (.currentTimeMillis 7), .fire 1 (.currentTimeMillis 7),
    .fire 1 .done, .fire 1 .done, .fire 1 .done, .fire 1 .done, .fire 1 .done, .fire 0 .done,
    .input (), .fire 0 (.currentTimeMillis 6), .fire 0 .done,
    .fire 0 (.timeDriftThresholdMicros 5000)]

theorem unique_and_monotonic_overlapping :
    ∃ p, clock.Reaches (fun _ _ _ => True) (start 0) p ∧
      values p.shared.log = [7000, 7001, 7002] ∧ (values p.shared.log).Nodup := by
  have hrun : (clock.exec (fun _ _ _ => True) (start 0) overlapping).map
      (fun p => values p.shared.log) = some [7000, 7001, 7002] := by decide +kernel
  obtain ⟨p, hexec, hvalues⟩ := Option.map_eq_some_iff.mp hrun
  have hreach := Machine.reaches_of_exec hexec
  exact ⟨p, hreach, hvalues, (unique_and_monotonic 0 hreach).1⟩

end Xenon.Common.LogicalClock

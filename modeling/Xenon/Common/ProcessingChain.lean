import Mathlib.Data.List.Count
import Mathlib.Order.Nat
import Xenon.Foundation.Pool

/-!
# The operation processing chain

A request is passed through a chain of filters by a loop. A filter that suspends
the request hands it to a suspend consumer, and the loop returns; whoever has the
request then calls `resumeProcessingRequest`, which enters the loop again at a
position that the context remembers. The resumption may come from inside the
suspend consumer, before the loop that suspended has returned, or later: the two
activities are separate tasks of a pool, and a resumption from inside is the
schedule in which the resumed one runs first.

What the filters do is open. Each call of a filter answers with a return code,
and each suspended request is resumed once, with a code.

The loop stops at every code but two. `CONTINUE_PROCESSING` goes on, and so does
the `default` branch of its switch, which is taken when a filter returns
`RESUME_PROCESSING`: it logs that processing stops and then does not stop.
-/

namespace Xenon.Common.ProcessingChain

open Foundation

inductive FilterReturnCode where
  | continueProcessing
  | resumeProcessing
  | failedStopProcessing
  | successStopProcessing
  | suspendProcessing
deriving DecidableEq

open FilterReturnCode

/-- What happens to a request. -/
inductive Event where
  /-- The filter at a position was run and returned a code. -/
  | ran (i : Nat) (rc : FilterReturnCode)
  /-- The request, suspended by the filter at a position, was resumed. -/
  | resumed (i : Nat) (rc : FilterReturnCode)
  /-- The operation consumer was invoked. -/
  | consumed
deriving DecidableEq

/-- The context of one request, with the history of what happened to it. The
position is `-1` in the source (here `none`) before the first filter is run. -/
structure OperationProcessingContext where
  currentFilterPosition : Option Nat
  log : List Event
deriving DecidableEq

/-- The answer of whoever is called: the code of a filter or of a resumption,
and whether the context has a suspend consumer when the filter returns. -/
structure Answer where
  code : FilterReturnCode
  suspendConsumer : Bool
deriving DecidableEq

inductive Task where
  /-- The loop of `processRequest` is at this index. -/
  | loop (i : Nat)
  /-- The loop returned a code to the method that called it. -/
  | returned (rc : FilterReturnCode)
  /-- The request is with the suspend consumer, to be resumed. -/
  | suspended
deriving DecidableEq

/-- One iteration of the loop, in a chain of `size` filters. -/
def processRequest (size : Nat) (context : OperationProcessingContext) (i : Nat) (a : Answer) :
    OperationProcessingContext × List Task :=
  if i < size then
    let context := { currentFilterPosition := some i, log := context.log ++ [.ran i a.code] }
    match a.code with
    | continueProcessing => (context, [.loop (i + 1)])
    | successStopProcessing => (context, [.returned successStopProcessing])
    | failedStopProcessing => (context, [.returned failedStopProcessing])
    | suspendProcessing =>
        if a.suspendConsumer then (context, [.suspended, .returned suspendProcessing])
        -- IllegalStateException: suspended with a null suspendConsumer
        else (context, [])
    -- the default branch: "failing operation and stopping processing"
    | resumeProcessing => (context, [.loop (i + 1)])
  else (context, [.returned continueProcessing])

def resumeProcessingRequest (size : Nat) (context : OperationProcessingContext)
    (filterReturnCode : FilterReturnCode) : OperationProcessingContext × List Task :=
  match context.currentFilterPosition with
  | none => (context, [])
  | some i =>
      let context := { context with log := context.log ++ [.resumed i filterReturnCode] }
      match filterReturnCode with
      | continueProcessing =>
          (context, if i + 1 < size then [.loop (i + 1)] else [.returned continueProcessing])
      | resumeProcessing =>
          (context, if i < size then [.loop i] else [.returned continueProcessing])
      | _ => (context, [])

/-- Both callers of the loop invoke the consumer when it returned
`CONTINUE_PROCESSING`. -/
def afterProcessRequest (context : OperationProcessingContext) (rc : FilterReturnCode) :
    OperationProcessingContext :=
  if rc = continueProcessing then { context with log := context.log ++ [.consumed] }
  else context

def fire (size : Nat) (context : OperationProcessingContext) (t : Task) (a : Answer) :
    OperationProcessingContext × List Task :=
  match t with
  | .loop i => processRequest size context i a
  | .returned rc => (afterProcessRequest context rc, [])
  | .suspended => resumeProcessingRequest size context a.code

/-- The processing of one request by a chain of `size` filters. -/
def chain (size : Nat) : Machine OperationProcessingContext Task Empty Answer where
  input _ i := nomatch i
  fire context t a := some (fire size context t a)

def start : Pool OperationProcessingContext Task :=
  ⟨⟨none, []⟩, [.loop 0]⟩

/-! ## What a history has to look like -/

/-- The filter at a position has returned or been resumed with
`CONTINUE_PROCESSING`. -/
def Passed (log : List Event) (i : Nat) : Prop :=
  .ran i continueProcessing ∈ log ∨ .resumed i continueProcessing ∈ log

instance (log : List Event) (i : Nat) : Decidable (Passed log i) :=
  inferInstanceAs (Decidable (_ ∨ _))

/-- An event may follow a history: a filter is run when all earlier ones have
passed, and every filter that ran before it is an earlier one, or is itself and
was just resumed with `RESUME_PROCESSING`; only a filter that has just suspended
the request is resumed; the consumer is invoked when all filters have passed, and
was not invoked before. -/
def Follows (size : Nat) (log : List Event) : Event → Prop
  | .ran i _ => i < size ∧ (∀ j < i, Passed log j) ∧
      ∀ j rc, .ran j rc ∈ log →
        j < i ∨ (j = i ∧ log.getLast? = some (.resumed i resumeProcessing))
  | .resumed i _ => log.getLast? = some (.ran i suspendProcessing)
  | .consumed => (∀ j < size, Passed log j) ∧ .consumed ∉ log

/-- Every event of a history may follow what is before it. -/
def Orderly (size : Nat) (log : List Event) : Prop :=
  ∀ before e after, log = before ++ e :: after → Follows size before e

/-- The consumer is invoked once if all filters have passed, else never. -/
def ConsumedOnce (size : Nat) (log : List Event) : Prop :=
  log.count .consumed = if ∀ j < size, Passed log j then 1 else 0

theorem orderly_nil (size : Nat) : Orderly size [] := by
  intro before e after h
  simp at h

theorem orderly_snoc {size : Nat} {log : List Event} {e : Event} :
    Orderly size (log ++ [e]) ↔ Orderly size log ∧ Follows size log e := by
  constructor
  · intro h
    constructor
    · intro before e' after heq
      exact h before e' (after ++ [e]) (by simp [heq])
    · exact h log e [] rfl
  · rintro ⟨hlog, he⟩ before e' after heq
    rcases List.eq_nil_or_concat after with rfl | ⟨after, x, rfl⟩
    · obtain ⟨rfl, h⟩ := List.append_inj' heq rfl
      obtain rfl : e = e' := by simpa using h
      exact he
    · rw [List.concat_eq_append, ← List.cons_append, ← List.append_assoc] at heq
      obtain ⟨rfl, -⟩ := List.append_inj' heq rfl
      exact hlog before e' after rfl

theorem passed_snoc {log : List Event} {e : Event} {i : Nat} :
    Passed (log ++ [e]) i ↔
      Passed log i ∨ e = .ran i continueProcessing ∨ e = .resumed i continueProcessing := by
  simp only [Passed, List.mem_append, List.mem_singleton, eq_comm (b := e)]
  tauto

/-! ## The walk along the chain -/

/-- The request has got past the filters before a position, and no further. -/
structure Walk (size i : Nat) (log : List Event) : Prop where
  le : i ≤ size
  passed : ∀ j, Passed log j ↔ j < i
  ran : ∀ j rc, .ran j rc ∈ log → j ≤ i
  fresh : .consumed ∉ log

namespace Walk

variable {size i : Nat} {log : List Event} {e : Event} {rc : FilterReturnCode}

theorem consumedOnce (h : Walk size i log) (hi : i < size) : ConsumedOnce size log := by
  have hall : ¬ ∀ j < size, Passed log j :=
    fun hall => lt_irrefl i ((h.passed i).mp (hall i hi))
  rw [ConsumedOnce, if_neg hall, List.count_eq_zero]
  exact h.fresh

/-- A filter that returns another code than `CONTINUE_PROCESSING` keeps the
request at its position. -/
theorem stay (h : Walk size i log) (hrc : rc ≠ continueProcessing)
    (he : e = .ran i rc ∨ e = .resumed i rc) : Walk size i (log ++ [e]) where
  le := h.le
  passed j := by
    rw [passed_snoc, h.passed]
    rcases he with rfl | rfl <;> simp [hrc]
  ran j rc' hj := by
    rw [List.mem_append, List.mem_singleton] at hj
    rcases hj with hj | rfl
    · exact h.ran j rc' hj
    · rcases he with he | he <;> cases he
      exact le_refl i
  fresh := by
    rcases he with rfl | rfl <;> simpa using h.fresh

theorem advance (h : Walk size i log) (hi : i < size)
    (he : e = .ran i continueProcessing ∨ e = .resumed i continueProcessing) :
    Walk size (i + 1) (log ++ [e]) where
  le := hi
  passed j := by
    rw [passed_snoc, h.passed]
    rcases he with rfl | rfl <;> simp <;> omega
  ran j rc' hj := by
    rw [List.mem_append, List.mem_singleton] at hj
    rcases hj with hj | rfl
    · exact Nat.le_succ_of_le (h.ran j rc' hj)
    · rcases he with he | he <;> cases he
      exact Nat.le_succ i
  fresh := by
    rcases he with rfl | rfl <;> simpa using h.fresh

end Walk

/-- A task that can still run a filter or the consumer. -/
def Task.live : Task → Bool
  | .loop _ => true
  | .returned rc => rc = continueProcessing
  | .suspended => true

/-- What has happened when a live task is to run. -/
def At (size : Nat) (context : OperationProcessingContext) : Task → Prop
  | .loop i => Walk size i context.log ∧
      ∀ rc, .ran i rc ∈ context.log →
        context.log.getLast? = some (.resumed i resumeProcessing)
  | .suspended => ∃ i < size, context.currentFilterPosition = some i ∧
      Walk size i context.log ∧ context.log.getLast? = some (.ran i suspendProcessing)
  | .returned _ => Walk size size context.log

/-- One task is live, and the history is as it says; or none is, and the consumer
has been invoked as often as it has to be. -/
def Live (size : Nat) (context : OperationProcessingContext) (ts : List Task) : Prop :=
  (∃ t, ts.filter Task.live = [t] ∧ At size context t) ∨
    (ts.filter Task.live = [] ∧ ConsumedOnce size context.log)

section Steps

variable {size i : Nat} {context : OperationProcessingContext} {a : Answer} {ts : List Task}

theorem At.follows (h : At size context (.loop i)) (hi : i < size) (rc : FilterReturnCode) :
    Follows size context.log (.ran i rc) := by
  obtain ⟨hw, hlast⟩ := h
  refine ⟨hi, fun j hj => (hw.passed j).mpr hj, fun j rc' hj => ?_⟩
  rcases (hw.ran j rc' hj).lt_or_eq with hlt | rfl
  · exact Or.inl hlt
  · exact Or.inr ⟨rfl, hlast rc' hj⟩

/-- The loop goes on, at a position whose filter has not run. -/
theorem live_advance {e : Event} {pos : Option Nat} (hw : Walk size (i + 1) (context.log ++ [e]))
    (he : e = .ran i continueProcessing ∨ e = .resumed i continueProcessing)
    (hran : ∀ j rc, .ran j rc ∈ context.log → j ≤ i) :
    At size ⟨pos, context.log ++ [e]⟩ (.loop (i + 1)) := by
  refine ⟨hw, fun rc hrc => ?_⟩
  rw [List.mem_append, List.mem_singleton] at hrc
  rcases hrc with hrc | rfl
  · exact absurd (hran _ _ hrc) (Nat.not_succ_le_self i)
  · rcases he with he | he <;> simp at he

/-- A filter has stopped the request. -/
theorem live_stop {e : Event} {pos : Option Nat} {rc : FilterReturnCode}
    (hw : Walk size i context.log) (hi : i < size) (he : e = .ran i rc ∨ e = .resumed i rc)
    (hrc : rc ≠ continueProcessing) (hts : ts.filter Task.live = []) :
    Live size ⟨pos, context.log ++ [e]⟩ ts :=
  Or.inr ⟨hts, (hw.stay hrc he).consumedOnce hi⟩

/-- One iteration of the loop, unless its filter returns `RESUME_PROCESSING`. -/
theorem processRequest_live (h : At size context (.loop i))
    (hrc : i < size → a.code ≠ resumeProcessing) :
    Live size (processRequest size context i a).1 (processRequest size context i a).2 := by
  have hw := h.1
  unfold processRequest
  by_cases hi : i < size
  · rw [if_pos hi]
    match hcode : a.code with
    | continueProcessing =>
        exact Or.inl ⟨_, rfl, live_advance (hw.advance hi (Or.inl rfl)) (Or.inl rfl) hw.ran⟩
    | resumeProcessing => exact absurd hcode (hrc hi)
    | failedStopProcessing => exact live_stop hw hi (Or.inl rfl) (by decide) rfl
    | successStopProcessing => exact live_stop hw hi (Or.inl rfl) (by decide) rfl
    | suspendProcessing =>
        show Live size (if a.suspendConsumer then _ else _ : _ × _).1
          (if a.suspendConsumer then _ else _ : _ × _).2
        by_cases hs : a.suspendConsumer = true
        · rw [if_pos hs]
          refine Or.inl ⟨.suspended, rfl, i, hi, rfl, ?_, List.getLast?_concat⟩
          exact hw.stay (by decide) (Or.inl rfl)
        · rw [if_neg hs]
          exact live_stop hw hi (Or.inl rfl) (by decide) rfl
  · rw [if_neg hi]
    obtain rfl : i = size := le_antisymm hw.le (not_lt.mp hi)
    exact Or.inl ⟨.returned continueProcessing, rfl, hw⟩

theorem resumeProcessingRequest_live (h : At size context .suspended) (rc : FilterReturnCode) :
    Live size (resumeProcessingRequest size context rc).1
      (resumeProcessingRequest size context rc).2 := by
  obtain ⟨i, hi, hpos, hw, hlast⟩ := h
  unfold resumeProcessingRequest
  rw [hpos]
  match rc with
  | continueProcessing =>
      have hw' : Walk size (i + 1) (context.log ++ [.resumed i continueProcessing]) :=
        hw.advance hi (Or.inr rfl)
      show Live size ⟨some i, context.log ++ [.resumed i continueProcessing]⟩
        (if i + 1 < size then [.loop (i + 1)] else [.returned continueProcessing])
      by_cases hlt : i + 1 < size
      · rw [if_pos hlt]
        exact Or.inl ⟨_, rfl, live_advance hw' (Or.inr rfl) hw.ran⟩
      · rw [if_neg hlt]
        obtain rfl : i + 1 = size := le_antisymm hi (not_lt.mp hlt)
        exact Or.inl ⟨.returned continueProcessing, rfl, hw'⟩
  | resumeProcessing =>
      show Live size ⟨some i, context.log ++ [.resumed i resumeProcessing]⟩
        (if i < size then [.loop i] else [.returned continueProcessing])
      rw [if_pos hi]
      refine Or.inl ⟨.loop i, rfl, hw.stay (by decide) (Or.inr rfl), fun rc _ => ?_⟩
      exact List.getLast?_concat
  | failedStopProcessing => exact live_stop hw hi (Or.inr rfl) (by decide) rfl
  | successStopProcessing => exact live_stop hw hi (Or.inr rfl) (by decide) rfl
  | suspendProcessing => exact live_stop hw hi (Or.inr rfl) (by decide) rfl

theorem afterProcessRequest_live (h : Walk size size context.log) :
    Live size (afterProcessRequest context continueProcessing) [] := by
  refine Or.inr ⟨rfl, ?_⟩
  have hall : ∀ j < size, Passed (context.log ++ [.consumed]) j :=
    fun j hj => passed_snoc.mpr (Or.inl ((h.passed j).mpr hj))
  show ConsumedOnce size (context.log ++ [.consumed])
  rw [ConsumedOnce, if_pos hall, List.count_append, List.count_eq_zero.mpr h.fresh]
  rfl

/-- A live task of an orderly history, when no filter returns
`RESUME_PROCESSING`. -/
theorem fire_live {t : Task} (hlive : t.live) (h : At size context t)
    (ha : ∀ i < size, t = .loop i → a.code ≠ resumeProcessing) :
    Live size (fire size context t a).1 (fire size context t a).2 := by
  match t with
  | .loop i => exact processRequest_live h fun hi => ha i hi rfl
  | .suspended => exact resumeProcessingRequest_live h a.code
  | .returned rc =>
      obtain rfl : rc = continueProcessing := by simpa [Task.live] using hlive
      exact afterProcessRequest_live h

/-- The event that a task adds to the history. -/
def Task.event (size : Nat) (context : OperationProcessingContext) (a : Answer) :
    Task → Option Event
  | .loop i => if i < size then some (.ran i a.code) else none
  | .suspended => context.currentFilterPosition.map (.resumed · a.code)
  | .returned rc => if rc = continueProcessing then some .consumed else none

theorem fire_log (t : Task) :
    (fire size context t a).1.log = context.log ++ (t.event size context a).toList := by
  match t with
  | .loop i =>
      simp only [fire, processRequest, Task.event]
      by_cases hi : i < size
      · rw [if_pos hi, if_pos hi]
        match a with
        | ⟨suspendProcessing, suspendConsumer⟩ => cases suspendConsumer <;> rfl
        | ⟨continueProcessing, _⟩ | ⟨resumeProcessing, _⟩ | ⟨failedStopProcessing, _⟩
        | ⟨successStopProcessing, _⟩ => rfl
      · simp [hi]
  | .suspended =>
      simp only [fire, resumeProcessingRequest, Task.event]
      match context.currentFilterPosition with
      | none => simp
      | some i => cases a.code <;> rfl
  | .returned rc =>
      simp only [fire, afterProcessRequest, Task.event]
      split <;> simp

/-- What a live task adds may follow. -/
theorem event_follows {t : Task} {e : Event} (hlive : t.live) (h : At size context t)
    (he : t.event size context a = some e) : Follows size context.log e := by
  match t with
  | .loop i =>
      obtain ⟨hi, he⟩ := Option.ite_none_right_eq_some.mp he
      cases he
      exact h.follows hi a.code
  | .suspended =>
      obtain ⟨i, hi, hpos, hw, hlast⟩ := h
      simp only [Task.event, hpos, Option.map_some, Option.some.injEq] at he
      subst he
      exact hlast
  | .returned rc =>
      have hw : Walk size size context.log := h
      obtain ⟨-, he⟩ := Option.ite_none_right_eq_some.mp he
      cases he
      exact ⟨fun j hj => (hw.passed j).mpr hj, hw.fresh⟩

/-- A history that is not orderly stays so. -/
theorem orderly_of_append {log log' : List Event} (h : Orderly size (log ++ log')) :
    Orderly size log := by
  intro before e after heq
  exact h before e (after ++ log') (by simp [heq])

theorem orderly_fire {t : Task} (hlive : t.live) (h : At size context t)
    (hlog : Orderly size context.log) : Orderly size (fire size context t a).1.log := by
  rw [fire_log]
  match he : t.event size context a with
  | none => simpa using hlog
  | some e => exact orderly_snoc.mpr ⟨hlog, event_follows hlive h he⟩

end Steps

/-! ## Runs -/

/-- No filter has returned `RESUME_PROCESSING`. -/
def NoResumeReturned (log : List Event) : Prop :=
  ∀ i, .ran i resumeProcessing ∉ log

/-- The request has gone past a filter that has not passed it: the history shows
it, or the next task will. -/
def Astray (size : Nat) (context : OperationProcessingContext) (ts : List Task) : Prop :=
  ¬ NoResumeReturned context.log ∧
    (¬ Orderly size context.log ∨ ∃ i < size, ¬ Passed context.log i ∧
      ∃ t, ts.filter Task.live = [t] ∧ (t = .loop (i + 1) ∨ t = .returned continueProcessing))

def Inv (size : Nat) (context : OperationProcessingContext) (ts : List Task) : Prop :=
  (NoResumeReturned context.log ∧ Orderly size context.log ∧ Live size context ts) ∨
    Astray size context ts

section Runs

variable {size : Nat} {context : OperationProcessingContext} {a : Answer} {t : Task}
  {ts ts' : List Task} {p : Pool OperationProcessingContext Task}

theorem Inv.perm (hp : ts.Perm ts') (h : Inv size context ts) : Inv size context ts' := by
  have hf : (ts.filter Task.live).Perm (ts'.filter Task.live) := hp.filter _
  have hone : ∀ {t}, ts.filter Task.live = [t] → ts'.filter Task.live = [t] :=
    fun ht => List.perm_singleton.mp (ht ▸ hf).symm
  rcases h with ⟨hno, hlog, ⟨t, ht, hat⟩ | ⟨hnil, hc⟩⟩ | ⟨hr, h | ⟨i, hi, hi', t, ht, hcase⟩⟩
  · exact Or.inl ⟨hno, hlog, Or.inl ⟨t, hone ht, hat⟩⟩
  · exact Or.inl ⟨hno, hlog, Or.inr ⟨List.perm_nil.mp (hnil ▸ hf).symm, hc⟩⟩
  · exact Or.inr ⟨hr, Or.inl h⟩
  · exact Or.inr ⟨hr, Or.inr ⟨i, hi, hi', t, hone ht, hcase⟩⟩

/-- The loop has returned a code that no caller acts on. -/
theorem fire_not_live (ht : ¬ t.live) : fire size context t a = (context, []) := by
  match t with
  | .loop i | .suspended => exact absurd rfl ht
  | .returned rc =>
      have hrc : rc ≠ continueProcessing := by simpa [Task.live] using ht
      simp [fire, afterProcessRequest, hrc]

theorem filter_cons_live {t' : Task} (ht : t.live)
    (h : (t :: ts).filter Task.live = [t']) : t = t' ∧ ts.filter Task.live = [] := by
  rw [List.filter_cons_of_pos ht] at h
  exact List.cons_eq_cons.mp h

theorem Live.append (h : Live size context ts') (hts : ts.filter Task.live = []) :
    Live size context (ts' ++ ts) := by
  unfold Live
  rw [List.filter_append, hts, List.append_nil]
  exact h

theorem noResumeReturned_snoc {log : List Event} {e : Event} :
    NoResumeReturned (log ++ [e]) ↔
      NoResumeReturned log ∧ ∀ i, e ≠ .ran i resumeProcessing := by
  simp only [NoResumeReturned, List.mem_append, List.mem_singleton, not_or, forall_and, ne_comm]

/-- A filter returns `RESUME_PROCESSING`: the loop goes on past it. -/
theorem resume_returned {i : Nat} (h : At size context (.loop i)) (hi : i < size)
    (ha : a.code = resumeProcessing) (hts : ts.filter Task.live = []) :
    Astray size (fire size context (.loop i) a).1 ((fire size context (.loop i) a).2 ++ ts) := by
  have hw : Walk size i (context.log ++ [.ran i resumeProcessing]) :=
    h.1.stay (by decide) (Or.inl rfl)
  have hf : fire size context (.loop i) a =
      (⟨some i, context.log ++ [.ran i resumeProcessing]⟩, [.loop (i + 1)]) := by
    simp only [fire, processRequest, if_pos hi, ha]
  rw [hf]
  refine ⟨fun hno => (noResumeReturned_snoc.mp hno).2 i rfl, Or.inr ⟨i, hi, ?_, _, ?_, Or.inl rfl⟩⟩
  · exact fun hp => lt_irrefl i ((hw.passed i).mp hp)
  · rw [List.filter_append, hts]
    rfl

theorem fire_noResumeReturned (hno : NoResumeReturned context.log)
    (ha : ∀ i < size, t = .loop i → a.code ≠ resumeProcessing) :
    NoResumeReturned (fire size context t a).1.log := by
  rw [fire_log]
  match he : t.event size context a with
  | none => simpa using hno
  | some e =>
      refine noResumeReturned_snoc.mpr ⟨hno, fun i hi => ?_⟩
      subst hi
      match t with
      | .loop j =>
          obtain ⟨hj, he⟩ := Option.ite_none_right_eq_some.mp he
          obtain ⟨rfl, hcode⟩ := Event.ran.inj (Option.some.inj he)
          exact ha j hj rfl hcode
      | .suspended =>
          obtain ⟨j, -, hj⟩ := Option.map_eq_some_iff.mp he
          exact Event.noConfusion hj
      | .returned rc =>
          obtain ⟨-, he⟩ := Option.ite_none_right_eq_some.mp he
          exact Event.noConfusion (Option.some.inj he)

theorem fire_inv_live (hno : NoResumeReturned context.log) (hlog : Orderly size context.log)
    (hl : Live size context (t :: ts)) :
    Inv size (fire size context t a).1 ((fire size context t a).2 ++ ts) := by
  by_cases ht : t.live
  · -- the fired task is the live one: it is at the end of an orderly history
    rcases hl with ⟨t', hone, hat⟩ | ⟨hnil, -⟩
    · obtain ⟨rfl, hts⟩ := filter_cons_live ht hone
      by_cases ha : ∀ i < size, t = .loop i → a.code ≠ resumeProcessing
      · exact Or.inl ⟨fire_noResumeReturned hno ha, orderly_fire ht hat hlog,
          (fire_live ht hat ha).append hts⟩
      · push Not at ha
        obtain ⟨i, hi, rfl, hcode⟩ := ha
        exact Or.inr (resume_returned hat hi hcode hts)
    · rw [List.filter_cons_of_pos ht] at hnil
      exact absurd hnil (List.cons_ne_nil _ _)
  · rw [fire_not_live ht]
    refine Or.inl ⟨hno, hlog, ?_⟩
    unfold Live at hl ⊢
    rwa [List.filter_cons_of_neg ht] at hl

/-- Beyond a filter that has not passed the request, the next event is out of
order. -/
theorem fire_inv_astray (h : Astray size context (t :: ts)) :
    Astray size (fire size context t a).1 ((fire size context t a).2 ++ ts) := by
  obtain ⟨hr, h⟩ := h
  have hr' : ¬ NoResumeReturned (fire size context t a).1.log := by
    intro hno
    refine hr fun i hi => hno i ?_
    rw [fire_log]
    exact List.mem_append_left _ hi
  refine ⟨hr', ?_⟩
  rcases h with h | ⟨i, hi, hnot, t', hone, hcase⟩
  · left
    rw [fire_log]
    exact fun hlog => h (orderly_of_append hlog)
  · by_cases ht : t.live
    · obtain ⟨rfl, hts⟩ := filter_cons_live ht hone
      rcases hcase with rfl | rfl
      · by_cases hlt : i + 1 < size
        · left
          rw [fire_log, Task.event, if_pos hlt]
          intro hlog
          exact hnot ((orderly_snoc.mp hlog).2.2.1 i (Nat.lt_succ_self i))
        · right
          refine ⟨i, hi, ?_, .returned continueProcessing, ?_, Or.inr rfl⟩
          · simpa [fire, processRequest, hlt] using hnot
          · simp only [fire, processRequest, if_neg hlt, List.filter_append, hts]
            rfl
      · left
        rw [fire_log, Task.event, if_pos rfl]
        intro hlog
        exact hnot ((orderly_snoc.mp hlog).2.1 i hi)
    · rw [fire_not_live ht]
      rw [List.filter_cons_of_neg ht] at hone
      exact Or.inr ⟨i, hi, hnot, t', hone, hcase⟩

theorem start_inv (size : Nat) : Inv size start.shared start.tasks := by
  refine Or.inl ⟨fun i => List.not_mem_nil, orderly_nil size, Or.inl ⟨.loop 0, rfl, ?_, ?_⟩⟩
  · exact ⟨Nat.zero_le _, fun j => by simp [start, Passed], fun j rc h => absurd h List.not_mem_nil,
      List.not_mem_nil⟩
  · exact fun rc h => absurd h List.not_mem_nil

theorem reaches_inv (h : (chain size).Reaches (fun _ _ _ => True) start p) :
    Inv size p.shared p.tasks := by
  refine Machine.invariant (Inv size) h Inv.perm (start_inv size) (fun i => nomatch i) ?_
  intro context t ts a r _ hfire hinv
  obtain rfl : fire size context t a = r := Option.some.inj hfire
  rcases hinv with ⟨hno, hlog, hl⟩ | hastray
  · exact fire_inv_live hno hlog hl
  · exact Or.inr (fire_inv_astray hastray)

/-- In every state of every run in which no filter has returned
`RESUME_PROCESSING`, the history is orderly, and it is complete when nothing is
left to run. In a finished run this holds only if no filter has. -/
theorem chain_orderly_iff (h : (chain size).Reaches (fun _ _ _ => True) start p) :
    (NoResumeReturned p.shared.log → Orderly size p.shared.log ∧
      (p.tasks = [] → ConsumedOnce size p.shared.log)) ∧
    (p.tasks = [] → (Orderly size p.shared.log ∧ ConsumedOnce size p.shared.log ↔
      NoResumeReturned p.shared.log)) := by
  have hgood : NoResumeReturned p.shared.log → Orderly size p.shared.log ∧
      (p.tasks = [] → ConsumedOnce size p.shared.log) := by
    intro hno
    rcases reaches_inv h with ⟨-, hlog, hl⟩ | hastray
    · refine ⟨hlog, fun hnil => ?_⟩
      rcases hl with ⟨t, hone, -⟩ | ⟨-, hc⟩
      · rw [hnil] at hone
        exact absurd hone.symm (List.cons_ne_nil _ _)
      · exact hc
    · exact absurd hno hastray.1
  refine ⟨hgood, fun hnil => ⟨fun hlog => ?_, fun hno => ⟨(hgood hno).1, (hgood hno).2 hnil⟩⟩⟩
  rcases reaches_inv h with ⟨hno, -, -⟩ | ⟨-, hastray | ⟨i, -, -, t, hone, -⟩⟩
  · exact hno
  · exact absurd hlog.1 hastray
  · rw [hnil] at hone
    exact absurd hone.symm (List.cons_ne_nil _ _)

end Runs

/-- One filter that suspends, is resumed from inside the suspend consumer and
then continues. -/
theorem chain_orderly_suspended :
    Orderly 1 [.ran 0 suspendProcessing, .resumed 0 resumeProcessing,
      .ran 0 continueProcessing, .consumed] ∧
    ConsumedOnce 1 [.ran 0 suspendProcessing, .resumed 0 resumeProcessing,
      .ran 0 continueProcessing, .consumed] := by
  have hexec : (chain 1).exec (fun _ _ _ => True) start
      [.fire 0 ⟨suspendProcessing, true⟩, .fire 0 ⟨resumeProcessing, false⟩,
        .fire 0 ⟨continueProcessing, false⟩, .fire 0 ⟨continueProcessing, false⟩,
        .fire 0 ⟨continueProcessing, false⟩, .fire 0 ⟨continueProcessing, false⟩] =
      some ⟨⟨some 0, [.ran 0 suspendProcessing, .resumed 0 resumeProcessing,
        .ran 0 continueProcessing, .consumed]⟩, []⟩ := rfl
  refine ((chain_orderly_iff (Machine.reaches_of_exec hexec)).2 rfl).mpr fun i hi => ?_
  simp at hi

/-- The only filter of a chain returns `RESUME_PROCESSING`, and the consumer is
invoked. -/
theorem resume_returned_is_consumed : ∃ p : Pool OperationProcessingContext Task,
    (chain 1).Reaches (fun _ _ _ => True) start p ∧
      p.shared.log = [.ran 0 resumeProcessing, .consumed] ∧ ¬ Orderly 1 p.shared.log := by
  have hexec : (chain 1).exec (fun _ _ _ => True) start
      [.fire 0 ⟨resumeProcessing, false⟩, .fire 0 ⟨continueProcessing, false⟩,
        .fire 0 ⟨continueProcessing, false⟩] =
      some ⟨⟨some 0, [.ran 0 resumeProcessing, .consumed]⟩, []⟩ := rfl
  refine ⟨_, Machine.reaches_of_exec hexec, rfl, fun hlog => ?_⟩
  have hpassed := (hlog [.ran 0 resumeProcessing] .consumed [] rfl).1 0 Nat.zero_lt_one
  exact absurd hpassed (by decide)

end Xenon.Common.ProcessingChain

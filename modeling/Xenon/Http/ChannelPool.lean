import Mathlib.Algebra.Order.Group.Nat
import Mathlib.Data.List.Count
import Mathlib.Data.List.Nodup
import Mathlib.Data.List.Perm.Basic
import Xenon.Foundation.Pool
import Xenon.Stateful.OperationQueue

/-!
# The channel pool of HTTP/1.1

A channel context serves one request at a time. The contexts of a group are in use or available,
and there are at most as many as the connection limit says; a request that finds none waits for
one to be returned.

Every section of the pool that is synchronized on the group is a step. What the caller does between
two of them runs at any time, as do the connections that are being opened and the clients that hold
a context. A context which a client holds is a task, so it is returned once for every request that
it serves.
-/

namespace Xenon.Http.ChannelPool

open Xenon.Foundation Xenon.Stateful

variable {R : Type*}

/-! ## The group -/

/-- `NettyChannelGroup`, with the number of contexts that were ever created (a context is the number
that it was created as), and the history of the requests: those that came, those that were
completed with a context, and those that were failed. A context is abandoned when the attempt to
connect throws. -/
structure Group (R : Type*) where
  /-- `getConnectionLimitPerTag`. -/
  limit : Nat
  availableChannels : List Nat
  inUseChannels : List Nat
  pendingRequests : OperationQueue R
  created : Nat
  arrived : List R
  handed : List (R × Nat)
  failed : List R
  abandoned : List Nat

inductive Task (R : Type*) where
  /-- A call of `connectOrReuse`, by a client or for a request that has waited (`handover`). -/
  | connectOrReuse (request : R) (handover : Bool)
  /-- The request is to be completed on a context with an open channel. -/
  | use (request : R) (context : Nat)
  /-- The connection of a new context is being opened. -/
  | connect (request : R) (context : Nat)
  | closeBadChannelContext (badContext : Nat)
  /-- `returnOrClose(context, true)`, after a failed connection. -/
  | close (context : Nat)
  | fail (request : R)
  /-- The client has the context, until it calls `returnOrClose`. -/
  | serve (context : Nat)

/-- How an attempt to connect ends. -/
inductive Connection where
  | success
  | failure
  | exception
deriving DecidableEq

/-- What the steps find out about the channel and the request. -/
structure Answer where
  /-- The channel that was available is still open. -/
  isOpen : Bool
  connection : Connection
  /-- The status code of the request is below the failure threshold. -/
  isOk : Bool
  /-- The client closes the context, or its channel cannot be used again. -/
  isClose : Bool

/-- The part of `selectHttp11Context` that is synchronized on the group. -/
def selectHttp11Context (g : Group R) (request : R) (isOpen : Bool) : Group R × List (Task R) :=
  match g.availableChannels with
  | context :: rest =>
      if isOpen then
        ({ g with availableChannels := rest, inUseChannels := g.inUseChannels ++ [context] },
          [.use request context])
      else
        -- the channel has been closed, so the context is replaced
        ({ g with availableChannels := rest, inUseChannels := g.inUseChannels ++ [g.created]
                  created := g.created + 1 },
          [.closeBadChannelContext context, .connect request g.created])
  | [] =>
      if g.inUseChannels.length ≥ g.limit then
        match g.pendingRequests.offer request with
        | some pendingRequests => ({ g with pendingRequests := pendingRequests }, [])
        | none => (g, [.fail request])
      else
        ({ g with inUseChannels := g.inUseChannels ++ [g.created], created := g.created + 1 },
          [.connect request g.created])

/-- `returnOrCloseDirect`. -/
def returnOrCloseDirect (g : Group R) (context : Nat) (isClose : Bool) : Group R × List (Task R) :=
  match g.pendingRequests.poll with
  | some (pendingOp, pendingRequests) =>
      if isClose then
        ({ g with pendingRequests := pendingRequests
                  inUseChannels := g.inUseChannels.erase context },
          [.connectOrReuse pendingOp true])
      else ({ g with pendingRequests := pendingRequests }, [.use pendingOp context])
  | none =>
      if isClose then ({ g with inUseChannels := g.inUseChannels.erase context }, [])
      else if context ∈ g.inUseChannels then
        ({ g with inUseChannels := g.inUseChannels.erase context
                  availableChannels := g.availableChannels ++ [context] }, [])
      else (g, [])

def fire (g : Group R) (t : Task R) (answer : Answer) : Group R × List (Task R) :=
  match t with
  | .connectOrReuse request _ => selectHttp11Context g request answer.isOpen
  | .use request context =>
      ({ g with handed := g.handed ++ [(request, context)] }, [.serve context])
  | .connect request context =>
      match answer.connection with
      | .success =>
          -- `sendAfterConnect`: the client returns the context in either case
          if answer.isOk then
            ({ g with handed := g.handed ++ [(request, context)] }, [.serve context])
          else ({ g with failed := g.failed ++ [request] }, [.serve context])
      | .failure => (g, [.close context, .fail request])
      | .exception =>
          ({ g with failed := g.failed ++ [request], abandoned := g.abandoned ++ [context] }, [])
  | .closeBadChannelContext badContext => returnOrCloseDirect g badContext true
  | .close context => returnOrCloseDirect g context true
  | .fail request => ({ g with failed := g.failed ++ [request] }, [])
  | .serve context => returnOrCloseDirect g context answer.isClose

def channelPool : Machine (Group R) (Task R) R Answer where
  input g request := ({ g with arrived := g.arrived ++ [request] }, [.connectOrReuse request false])
  fire g t answer := some (fire g t answer)

/-- A group without a request, with the limits of its connections and of its queue. -/
def start (limit : Nat) (queueLimit : Int) : Pool (Group R) (Task R) where
  shared := ⟨limit, [], [], .createFifo queueLimit, 0, [], [], [], []⟩
  tasks := []

/-! ## Who has what -/

section Parts

/-- The context that a task has of those in use. -/
@[simp] def bound : Task R → List Nat
  | .use _ context | .connect _ context | .close context | .serve context => [context]
  | _ => []

/-- The context that is neither in use nor available. -/
@[simp] def bad : Task R → List Nat
  | .closeBadChannelContext badContext => [badContext]
  | _ => []

/-- The request that a task has. -/
@[simp] def pending : Task R → List R
  | .connectOrReuse request _ | .use request _ | .connect request _ | .fail request => [request]
  | _ => []

/-- A context was returned and closed, and a request that has waited is on its way to take its
place. -/
@[simp] def isHandover : Task R → Bool
  | .connectOrReuse _ handover => handover
  | _ => false

end Parts

/-- The invariant, in numbers of occurrences. -/
structure Inv [DecidableEq R] (g : Group R) (ts : List (Task R)) : Prop where
  inUse : ∀ c, g.inUseChannels.count c = (ts.flatMap bound).count c + g.abandoned.count c
  distinct : ∀ c,
    g.inUseChannels.count c + g.availableChannels.count c + (ts.flatMap bad).count c ≤ 1
  created : ∀ c, g.created ≤ c →
    g.inUseChannels.count c + g.availableChannels.count c + (ts.flatMap bad).count c = 0
  limit : g.inUseChannels.length + g.availableChannels.length ≤ g.limit
  waiting : g.pendingRequests.store ≠ [] → g.availableChannels = [] ∧
    g.limit ≤ g.inUseChannels.length + ts.countP isHandover
  requests : ∀ r, g.arrived.count r = (g.handed.map Prod.fst).count r + g.failed.count r +
    g.pendingRequests.store.count r + (ts.flatMap pending).count r

/-! ## One step -/

section Step

variable [DecidableEq R] {g : Group R} {ts : List (Task R)} {t : Task R} {r : R}

/-- A context is taken from the pool. -/
theorem Inv.reuse {b : Bool} {c : Nat} {rest : List Nat} (h : Inv g (.connectOrReuse r b :: ts))
    (havailable : g.availableChannels = c :: rest) :
    Inv { g with availableChannels := rest, inUseChannels := g.inUseChannels ++ [c] }
      ([.use r c] ++ ts) := by
  have hidle : g.pendingRequests.store = [] := by
    by_contra hne
    have := (h.waiting hne).1
    rw [havailable] at this
    cases this
  refine ⟨fun x => ?_, fun x => ?_, fun x hx => ?_, ?_, fun hne => absurd hidle hne, fun x => ?_⟩
  · have := h.inUse x
    simp [List.count_cons] at this ⊢
    omega
  · have := h.distinct x
    rw [havailable] at this
    simp [List.count_cons] at this ⊢
    omega
  · have := h.created x hx
    rw [havailable] at this
    simp [List.count_cons] at this ⊢
    omega
  · have := h.limit
    rw [havailable] at this
    simp at this ⊢
    omega
  · have := h.requests x
    simp [List.count_cons] at this ⊢
    omega

/-- The context that was available has been closed, and a new one takes its place. -/
theorem Inv.replace {b : Bool} {c : Nat} {rest : List Nat} (h : Inv g (.connectOrReuse r b :: ts))
    (havailable : g.availableChannels = c :: rest) :
    Inv { g with availableChannels := rest, inUseChannels := g.inUseChannels ++ [g.created]
                 created := g.created + 1 }
      ([.closeBadChannelContext c, .connect r g.created] ++ ts) := by
  have hidle : g.pendingRequests.store = [] := by
    by_contra hne
    have := (h.waiting hne).1
    rw [havailable] at this
    cases this
  refine ⟨fun x => ?_, fun x => ?_, fun x hx => ?_, ?_, fun hne => absurd hidle hne, fun x => ?_⟩
  · have := h.inUse x
    simp [List.count_cons] at this ⊢
    omega
  · have hdistinct := h.distinct x
    rw [havailable] at hdistinct
    simp [List.count_cons] at hdistinct ⊢
    rcases eq_or_ne g.created x with rfl | hne
    · have hcreated := h.created _ (le_refl _)
      rw [havailable] at hcreated
      simp only [List.flatMap_cons, bad, List.nil_append, List.count_cons, beq_iff_eq] at hcreated
      rw [if_pos rfl]
      omega
    · rw [if_neg hne]
      omega
  · have := h.created x (Nat.le_of_succ_le hx)
    have hne : g.created ≠ x := Nat.ne_of_lt hx
    rw [havailable] at this
    simp [List.count_cons, hne] at this ⊢
    omega
  · have := h.limit
    rw [havailable] at this
    simp at this ⊢
    omega
  · have := h.requests x
    simp [List.count_cons] at this ⊢
    omega

/-- There is room for one more context. -/
theorem Inv.create {b : Bool} (h : Inv g (.connectOrReuse r b :: ts))
    (havailable : g.availableChannels = []) (hroom : g.inUseChannels.length < g.limit) :
    Inv { g with inUseChannels := g.inUseChannels ++ [g.created], created := g.created + 1 }
      ([.connect r g.created] ++ ts) := by
  refine ⟨fun x => ?_, fun x => ?_, fun x hx => ?_, ?_, fun hne => ⟨havailable, ?_⟩, fun x => ?_⟩
  · have := h.inUse x
    simp [List.count_cons] at this ⊢
    omega
  · have hdistinct := h.distinct x
    simp [List.count_cons] at hdistinct ⊢
    rcases eq_or_ne g.created x with rfl | hne
    · have hcreated := h.created _ (le_refl _)
      simp only [List.flatMap_cons, bad, List.nil_append] at hcreated
      rw [if_pos rfl]
      omega
    · rw [if_neg hne]
      omega
  · have := h.created x (Nat.le_of_succ_le hx)
    have hne : g.created ≠ x := Nat.ne_of_lt hx
    simp [hne] at this ⊢
    omega
  · rw [havailable]
    simp
    omega
  · have := (h.waiting hne).2
    cases b <;> simp [List.countP_cons] at this ⊢ <;> omega
  · have := h.requests x
    simp [List.count_cons] at this ⊢
    omega

/-- The limit is reached, and the request waits. -/
theorem Inv.queue {b : Bool} {q : OperationQueue R} (h : Inv g (.connectOrReuse r b :: ts))
    (havailable : g.availableChannels = []) (hfull : g.limit ≤ g.inUseChannels.length)
    (hoffer : g.pendingRequests.offer r = some q) :
    Inv { g with pendingRequests := q } ([] ++ ts) := by
  refine ⟨h.inUse, h.distinct, h.created, h.limit, fun _ => ⟨havailable, ?_⟩, fun x => ?_⟩
  · exact hfull.trans (Nat.le_add_right _ _)
  · have hrequests := h.requests x
    have hstore := (OperationQueue.perm_of_offer hoffer).count_eq x
    simp [List.count_cons] at hrequests hstore ⊢
    omega

/-- The limit is reached, and there is no more room to wait. -/
theorem Inv.refuse {b : Bool} (h : Inv g (.connectOrReuse r b :: ts))
    (havailable : g.availableChannels = []) (hfull : g.limit ≤ g.inUseChannels.length) :
    Inv g ([.fail r] ++ ts) := by
  refine ⟨h.inUse, h.distinct, h.created, h.limit, fun _ => ⟨havailable, ?_⟩, h.requests⟩
  exact hfull.trans (Nat.le_add_right _ _)

theorem Inv.selectHttp11Context {b : Bool} (h : Inv g (.connectOrReuse r b :: ts)) (isOpen : Bool) :
    Inv (selectHttp11Context g r isOpen).1 ((selectHttp11Context g r isOpen).2 ++ ts) := by
  unfold ChannelPool.selectHttp11Context
  split
  · rename_i c rest havailable
    split
    · exact h.reuse havailable
    · exact h.replace havailable
  · rename_i havailable
    split
    · rename_i hfull
      split
      · rename_i q hoffer
        exact h.queue havailable hfull hoffer
      · exact h.refuse havailable hfull
    · rename_i hroom
      exact h.create havailable (not_le.mp hroom)

/-- A step that leaves the contexts and those that wait as they are. -/
theorem Inv.settle {handed : List (R × Nat)} {failed : List R} {abandoned : List Nat}
    {next : List (Task R)} (h : Inv g (t :: ts))
    (hbound : ∀ c, (next.flatMap bound).count c + abandoned.count c =
      (bound t).count c + g.abandoned.count c)
    (hbad : next.flatMap bad = bad t) (hhandover : isHandover t = false)
    (hrequests : ∀ r, (handed.map Prod.fst).count r + failed.count r +
      (next.flatMap pending).count r =
        (g.handed.map Prod.fst).count r + g.failed.count r + (pending t).count r) :
    Inv { g with handed := handed, failed := failed, abandoned := abandoned } (next ++ ts) := by
  refine ⟨fun x => ?_, fun x => ?_, fun x hx => ?_, h.limit, fun hne => ?_, fun x => ?_⟩
  · have hold := h.inUse x
    have hstep := hbound x
    rw [List.flatMap_append, List.count_append]
    rw [List.flatMap_cons, List.count_append] at hold
    dsimp only
    omega
  · rw [List.flatMap_append, hbad]
    exact h.distinct x
  · rw [List.flatMap_append, hbad]
    exact h.created x hx
  · obtain ⟨hnone, hle⟩ := h.waiting hne
    rw [List.countP_cons_of_neg (Bool.eq_false_iff.mp hhandover)] at hle
    rw [List.countP_append]
    refine ⟨hnone, hle.trans ?_⟩
    dsimp only
    omega
  · have hold := h.requests x
    have hstep := hrequests x
    rw [List.flatMap_append, List.count_append]
    rw [List.flatMap_cons, List.count_append] at hold
    dsimp only
    omega

/-- The task has the context, which is in use, or has been replaced. -/
structure Returns (t : Task R) (c : Nat) : Prop where
  pending : pending t = []
  handover : isHandover t = false
  context : (bound t = [c] ∧ bad t = []) ∨ (bound t = [] ∧ bad t = [c])

theorem Inv.mem_inUse {c : Nat} (h : Inv g (t :: ts)) (hbound : bound t = [c]) :
    c ∈ g.inUseChannels := by
  have := h.inUse c
  rw [List.flatMap_cons, hbound, List.count_append, List.count_singleton_self] at this
  exact List.count_pos_iff.mp (by omega)

/-- What closing a context does to those in use. -/
theorem Inv.erase {c : Nat} (h : Inv g (t :: ts)) (ht : Returns t c) :
    (∀ x, (g.inUseChannels.erase c).count x + (bound t).count x = g.inUseChannels.count x) ∧
      (g.inUseChannels.erase c).length + (bound t).length = g.inUseChannels.length := by
  rcases ht.context with ⟨hbound, -⟩ | ⟨hbound, hbad⟩
  · have hperm := List.perm_cons_erase (h.mem_inUse hbound)
    rw [hbound]
    refine ⟨fun x => ?_, ?_⟩
    · rw [hperm.count_eq x, List.count_cons, List.count_cons, List.count_nil, zero_add]
    · rw [hperm.length_eq]
      rfl
  · have hnot : c ∉ g.inUseChannels := by
      have := h.distinct c
      rw [List.flatMap_cons, hbad, List.count_append, List.count_singleton_self] at this
      exact List.count_eq_zero.mp (by omega)
    rw [List.erase_of_not_mem hnot, hbound]
    exact ⟨fun x => rfl, rfl⟩

theorem Inv.close {c : Nat} (h : Inv g (t :: ts)) (ht : Returns t c) :
    Inv (returnOrCloseDirect g c true).1 ((returnOrCloseDirect g c true).2 ++ ts) := by
  obtain ⟨hcount, hlength⟩ := h.erase ht
  have hinUse : ∀ x, (g.inUseChannels.erase c).count x =
      (ts.flatMap bound).count x + g.abandoned.count x := by
    intro x
    have hold := h.inUse x
    have hx := hcount x
    rw [List.flatMap_cons, List.count_append] at hold
    omega
  have hdistinct : ∀ x, (g.inUseChannels.erase c).count x + g.availableChannels.count x +
      (ts.flatMap bad).count x ≤
        g.inUseChannels.count x + g.availableChannels.count x +
          ((t :: ts).flatMap bad).count x := by
    intro x
    have hx := hcount x
    rw [List.flatMap_cons, List.count_append]
    omega
  have hlimit := h.limit
  have hrequests := h.requests
  simp only [List.flatMap_cons, ht.pending, List.nil_append] at hrequests
  unfold returnOrCloseDirect
  -- a pending request gets the room of the closed channel
  split
  · rename_i r q hpoll
    have hstore := OperationQueue.store_of_poll hpoll
    rw [if_pos rfl]
    refine ⟨hinUse, fun x => (hdistinct x).trans (h.distinct x), fun x hx => ?_, ?_, fun hne => ?_,
      fun x => ?_⟩
    · exact Nat.le_zero.mp ((hdistinct x).trans (h.created x hx).le)
    · dsimp only
      omega
    · obtain ⟨havailable, hle⟩ := h.waiting (by rw [hstore]; simp)
      rw [List.countP_cons_of_neg (Bool.eq_false_iff.mp ht.handover)] at hle
      refine ⟨havailable, ?_⟩
      have hone : (bound t).length ≤ 1 := by
        rcases ht.context with ⟨hbound, -⟩ | ⟨hbound, -⟩
        · exact (congrArg List.length hbound).le
        · exact (congrArg List.length hbound).le.trans (Nat.zero_le 1)
      simp only [List.cons_append, List.nil_append, List.countP_cons, isHandover, if_true]
      omega
    · have := hrequests x
      rw [hstore] at this
      simp [List.count_cons] at this ⊢
      omega
  · rename_i hpoll
    have hstore := OperationQueue.poll_eq_none.mp hpoll
    rw [if_pos rfl]
    refine ⟨hinUse, fun x => (hdistinct x).trans (h.distinct x), fun x hx => ?_, ?_,
      fun hne => absurd hstore hne, hrequests⟩
    · exact Nat.le_zero.mp ((hdistinct x).trans (h.created x hx).le)
    · dsimp only
      omega

/-- A context that can be used again serves the next request, or is available. -/
theorem Inv.returned {c : Nat} (h : Inv g (.serve c :: ts)) :
    Inv (returnOrCloseDirect g c false).1 ((returnOrCloseDirect g c false).2 ++ ts) := by
  unfold returnOrCloseDirect
  split
  · rename_i r q hpoll
    have hstore := OperationQueue.store_of_poll hpoll
    rw [if_neg Bool.false_ne_true]
    refine ⟨h.inUse, h.distinct, h.created, h.limit, fun hne => ?_, fun x => ?_⟩
    · exact h.waiting (by rw [hstore]; simp)
    · have := h.requests x
      rw [hstore] at this
      simp [List.count_cons] at this ⊢
      omega
  · rename_i hpoll
    have hstore := OperationQueue.poll_eq_none.mp hpoll
    have hmem : c ∈ g.inUseChannels := h.mem_inUse rfl
    obtain ⟨hcount, hlength⟩ := h.erase ⟨rfl, rfl, Or.inl ⟨rfl, rfl⟩⟩
    rw [if_neg Bool.false_ne_true, if_pos hmem]
    refine ⟨fun x => ?_, fun x => ?_, fun x hx => ?_, ?_, fun hne => absurd hstore hne, h.requests⟩
    · have hx := hcount x
      have := h.inUse x
      simp [List.count_cons] at hx this ⊢
      omega
    · have hx := hcount x
      have := h.distinct x
      simp [List.count_cons] at hx this ⊢
      omega
    · have hold := h.created x hx
      have hx := hcount x
      simp only [List.flatMap_cons, bad, bound, List.nil_append, List.count_append] at hold hx ⊢
      omega
    · have := h.limit
      simp only [bound, List.length_append, List.length_singleton] at hlength ⊢
      omega

theorem Inv.fire (h : Inv g (t :: ts)) (answer : Answer) :
    Inv (fire g t answer).1 ((fire g t answer).2 ++ ts) := by
  cases t with
  | connectOrReuse r handover => exact h.selectHttp11Context answer.isOpen
  | use r c =>
      apply h.settle (fun _ => rfl) rfl rfl
      intro x
      simp [ChannelPool.fire]
      omega
  | connect r c =>
      simp only [ChannelPool.fire]
      split
      · split
        · apply h.settle (fun _ => rfl) rfl rfl
          intro x
          simp
          omega
        · apply h.settle (fun _ => rfl) rfl rfl
          intro x
          simp
          omega
      · exact h.settle (fun _ => rfl) rfl rfl fun _ => rfl
      · apply h.settle _ rfl rfl
        · intro x
          simp
          omega
        · intro x
          simp
          omega
  | closeBadChannelContext c => exact h.close ⟨rfl, rfl, Or.inr ⟨rfl, rfl⟩⟩
  | close c => exact h.close ⟨rfl, rfl, Or.inl ⟨rfl, rfl⟩⟩
  | fail r =>
      apply h.settle (fun _ => rfl) rfl rfl
      intro x
      simp [ChannelPool.fire]
      omega
  | serve c =>
      simp only [ChannelPool.fire]
      cases answer.isClose with
      | true => exact h.close ⟨rfl, rfl, Or.inl ⟨rfl, rfl⟩⟩
      | false => exact h.returned

end Step

/-! ## Every run -/

section Runs

variable {p : Pool (Group R) (Task R)} {limit : Nat} {queueLimit : Int}

theorem inv_start [DecidableEq R] : Inv (start (R := R) limit queueLimit).shared [] where
  inUse _ := rfl
  distinct _ := Nat.zero_le 1
  created _ _ := rfl
  limit := Nat.zero_le _
  waiting h := absurd rfl h
  requests _ := rfl

theorem inv_reaches [DecidableEq R]
    (h : channelPool.Reaches (fun _ _ _ => True) (start limit queueLimit) p) :
    Inv p.shared p.tasks := by
  apply Machine.invariant Inv h
  case perm =>
    intro g ts ts' hperm hinv
    have hbound := hperm.flatMap_right bound
    have hbad := hperm.flatMap_right bad
    have hpending := hperm.flatMap_right pending
    refine ⟨fun x => ?_, fun x => ?_, fun x hx => ?_, hinv.limit, fun hne => ?_, fun x => ?_⟩
    · rw [← hbound.count_eq]
      exact hinv.inUse x
    · rw [← hbad.count_eq]
      exact hinv.distinct x
    · rw [← hbad.count_eq]
      exact hinv.created x hx
    · rw [← hperm.countP_eq]
      exact hinv.waiting hne
    · rw [← hpending.count_eq]
      exact hinv.requests x
  case init => exact inv_start
  case input =>
    intro g ts request hinv
    refine ⟨hinv.inUse, hinv.distinct, hinv.created, hinv.limit, hinv.waiting, fun x => ?_⟩
    have := hinv.requests x
    simp [channelPool, List.count_cons] at this ⊢
    omega
  case fire =>
    intro g t ts answer r _ hr hinv
    obtain rfl := Option.some.inj hr
    exact hinv.fire answer

theorem limit_reaches (h : channelPool.Reaches (fun _ _ _ => True) (start limit queueLimit) p) :
    p.shared.limit = limit := by
  have hreturn : ∀ (g : Group R) (c : Nat) (b : Bool),
      (returnOrCloseDirect g c b).1.limit = g.limit := by
    intro g c b
    unfold returnOrCloseDirect
    repeat' split
    all_goals rfl
  apply Machine.invariant (fun g _ => g.limit = limit) h
  case perm => exact fun _ hinv => hinv
  case init => rfl
  case input => exact fun _ hinv => hinv
  case fire =>
    intro g t ts answer r _ hr hinv
    obtain rfl := Option.some.inj hr
    rw [← hinv]
    cases t with
    | connectOrReuse r handover =>
        simp only [fire, selectHttp11Context]
        repeat' split
        all_goals rfl
    | use r c => rfl
    | connect r c =>
        simp only [fire]
        repeat' split
        all_goals rfl
    | closeBadChannelContext c => exact hreturn g c true
    | close c => exact hreturn g c true
    | fail r => rfl
    | serve c => exact hreturn g c answer.isClose

end Runs

/-- The contexts that serve a request, or are about to. -/
def serving (p : Pool (Group R) (Task R)) : List Nat := p.tasks.flatMap bound

/-- Any requests, connections that succeed or fail, channels found closed, and contexts that are
returned once for each request they serve, in any order. -/
theorem channel_pool_sound [DecidableEq R] (limit : Nat) (queueLimit : Int)
    (p : Pool (Group R) (Task R))
    (h : channelPool.Reaches (fun _ _ _ => True) (start limit queueLimit) p) :
    (serving p).Nodup ∧ serving p ⊆ p.shared.inUseChannels ∧
      p.shared.inUseChannels.length ≤ limit ∧
      p.shared.inUseChannels.Disjoint p.shared.availableChannels ∧
      p.shared.arrived.Perm (p.shared.handed.map Prod.fst ++ p.shared.failed ++
        p.shared.pendingRequests.store ++ p.tasks.flatMap pending) ∧
      (p.shared.pendingRequests.store ≠ [] → limit ≤ p.shared.inUseChannels.length ∨
        ∃ t ∈ p.tasks, isHandover t = true) := by
  have hinv := inv_reaches h
  have hlimit := limit_reaches h
  refine ⟨?_, ?_, ?_, ?_, ?_, ?_⟩
  · apply List.nodup_iff_count_le_one.mpr
    intro c
    have hinUse := hinv.inUse c
    have hdistinct := hinv.distinct c
    show (p.tasks.flatMap bound).count c ≤ 1
    omega
  · intro c hc
    have hpos : 0 < (p.tasks.flatMap bound).count c := List.count_pos_iff.mpr hc
    have hinUse := hinv.inUse c
    exact List.count_pos_iff.mp (by omega)
  · have := hinv.limit
    omega
  · intro c hinUse havailable
    have hpos := List.count_pos_iff.mpr hinUse
    have hpos' := List.count_pos_iff.mpr havailable
    have := hinv.distinct c
    omega
  · apply List.perm_iff_count.mpr
    intro r
    rw [hinv.requests r, List.count_append, List.count_append, List.count_append]
  · intro hne
    rw [or_iff_not_imp_right]
    intro hnone
    have hzero : p.tasks.countP isHandover = 0 :=
      List.countP_eq_zero.mpr fun t ht hhandover => hnone ⟨t, ht, hhandover⟩
    have := (hinv.waiting hne).2
    omega

/-- One connection and three requests: the second waits for the first, whose channel is closed, and
the third arrives while the second is on its way. -/
theorem channel_pool_sound_of_three : ∃ p : Pool (Group Nat) (Task Nat),
    (serving p).Nodup ∧ p.shared.arrived = [0, 1, 2] ∧ p.shared.handed = [(0, 0), (2, 1)] ∧
      p.shared.inUseChannels = [1] ∧ p.shared.pendingRequests.store = [1] := by
  obtain ⟨p, hp, hrest⟩ : ∃ p, (channelPool (R := Nat)).exec (fun _ _ _ => True) (start 1 10)
      [.input 0, .fire 0 ⟨true, .success, true, true⟩, .fire 0 ⟨true, .success, true, true⟩,
        .input 1, .fire 0 ⟨true, .success, true, true⟩, .fire 0 ⟨true, .success, true, true⟩,
        .input 2, .fire 0 ⟨true, .success, true, true⟩, .fire 0 ⟨true, .success, true, true⟩,
        .fire 1 ⟨true, .success, true, true⟩] = some p ∧
      p.shared.arrived = [0, 1, 2] ∧ p.shared.handed = [(0, 0), (2, 1)] ∧
        p.shared.inUseChannels = [1] ∧ p.shared.pendingRequests.store = [1] :=
    ⟨_, rfl, rfl, rfl, rfl, rfl⟩
  exact ⟨p, (channel_pool_sound 1 10 p (Machine.reaches_of_exec hp)).1, hrest⟩

end Xenon.Http.ChannelPool

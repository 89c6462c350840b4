import Mathlib.Data.Nat.Find
import Xenon.Common.OperationSequence

/-!
# Runs of operation sequences

In a run the first joins of the chain have been sent, each when the proxy before it was called. Of
these joins each is in a state of a join on its own. What a whole run does follows from where the
chain stops, which the outcomes of the operations determine.
-/

namespace Xenon.Common.OperationSequence

open Foundation Common.OperationJoin

variable {I E : Type*}

section Tasks

/-- A task of the join at a position. -/
def taskOf (k : Nat) : Task I E → Option (OperationJoin.Task I E)
  | .join j t => if j = k then some t else none
  | .handle _ _ => none

def tasksOf (k : Nat) (ts : List (Task I E)) : List (OperationJoin.Task I E) :=
  ts.filterMap (taskOf k)

def isHandle (k : Nat) : Task I E → Bool
  | .join _ _ => false
  | .handle j _ => j = k

variable {j k : Nat} (ts : List (OperationJoin.Task I E)) (ts' : List (Task I E))
  (fs : List (Option (List (I × E))))

theorem tasksOf_append (ts : List (Task I E)) :
    tasksOf k (ts ++ ts') = tasksOf k ts ++ tasksOf k ts' :=
  List.filterMap_append

@[simp] theorem tasksOf_cons_self (t : OperationJoin.Task I E) :
    tasksOf k (.join k t :: ts') = t :: tasksOf k ts' :=
  List.filterMap_cons_some (if_pos rfl)

theorem tasksOf_cons_of_ne (h : j ≠ k) (t : OperationJoin.Task I E) :
    tasksOf k (.join j t :: ts') = tasksOf k ts' :=
  List.filterMap_cons_none (if_neg h)

@[simp] theorem tasksOf_cons_handle (f : Option (List (I × E))) :
    tasksOf k (.handle j f :: ts') = tasksOf k ts' :=
  List.filterMap_cons_none rfl

@[simp] theorem tasksOf_map_self : tasksOf k (ts.map (.join k)) = ts := by
  induction ts with
  | nil => rfl
  | cons t ts ih => rw [List.map_cons, tasksOf_cons_self, ih]

theorem tasksOf_map_of_ne (h : j ≠ k) : tasksOf k (ts.map (.join j)) = [] := by
  induction ts with
  | nil => rfl
  | cons t ts ih => rw [List.map_cons, tasksOf_cons_of_ne _ h, ih]

@[simp] theorem tasksOf_map_handle : tasksOf k (fs.map (.handle j)) = [] := by
  induction fs with
  | nil => rfl
  | cons f fs ih => rw [List.map_cons, tasksOf_cons_handle, ih]

theorem countP_cons_handle_self (f : Option (List (I × E))) :
    (Task.handle k f :: ts').countP (isHandle k) = ts'.countP (isHandle k) + 1 :=
  List.countP_cons_of_pos (decide_eq_true rfl)

theorem countP_cons_handle_of_ne (h : j ≠ k) (f : Option (List (I × E))) :
    (Task.handle j f :: ts').countP (isHandle k) = ts'.countP (isHandle k) :=
  List.countP_cons_of_neg fun heq => h (of_decide_eq_true heq)

@[simp] theorem countP_map_join : (ts.map (Task.join j)).countP (isHandle k) = 0 := by
  rw [List.countP_map]
  exact List.countP_eq_zero.mpr fun _ _ => nofun

@[simp] theorem countP_map_handle_self : (fs.map (Task.handle k)).countP (isHandle k) =
    fs.length := by
  rw [List.countP_map]
  exact List.countP_eq_length.mpr fun _ _ => decide_eq_true rfl

theorem countP_map_handle_of_ne (h : j ≠ k) :
    (fs.map (Task.handle j)).countP (isHandle k) = 0 := by
  rw [List.countP_map]
  exact List.countP_eq_zero.mpr fun _ _ heq => h (of_decide_eq_true heq)

end Tasks

section Measure

/-- The steps that an element leads to. -/
def cost (e : Element I) : Nat :=
  2 * (e.operations.length * (e.operations.length + 9) + 1)

@[simp] def weight (c : Chain I) : Task I E → Nat
  | .join k t => 2 * work (c.ops k).length t
  | .handle _ _ => 1

/-- What the tasks lead to, when `n` joins have been sent. -/
def left (c : Chain I) (n : Nat) (ts : List (Task I E)) : Nat :=
  (ts.map (weight c)).sum + ((c.elements.drop n).map cost).sum

theorem left_perm {c : Chain I} {n : Nat} {ts ts' : List (Task I E)} (h : ts.Perm ts') :
    left c n ts = left c n ts' := by
  unfold left
  rw [(h.map _).sum_eq]

theorem sum_weight_join (c : Chain I) (k : Nat) (ts : List (OperationJoin.Task I E)) :
    ((ts.map (Task.join k)).map (weight c)).sum =
      2 * (ts.map (work (c.ops k).length)).sum := by
  induction ts with
  | nil => rfl
  | cons t ts ih =>
      simp only [List.map_cons, List.sum_cons, weight]
      rw [ih]
      omega

theorem sum_weight_handle (c : Chain I) (k : Nat) (fs : List (Option (List (I × E)))) :
    ((fs.map (Task.handle k)).map (weight c)).sum = fs.length := by
  induction fs with
  | nil => rfl
  | cons f fs ih =>
      simp only [List.map_cons, List.sum_cons, weight, List.length_cons]
      rw [ih]
      omega

end Measure

/-- The proxies: each is called once when the handler of its join is, and what it has done. -/
structure Accounts (c : Chain I) (fails : I → Option E) (s : State I E) (ts : List (Task I E)) :
    Prop where
  counts : ∀ k, ts.countP (isHandle k) + (s.completed k).toNat = (s.join k).handled.length
  handles : ∀ k f, .handle k f ∈ ts → f ∈ (s.join k).handled
  added : ∀ i, ∀ p ∈ s.added i, Good c fails i p
  calls : ∀ k, s.calls.countP (fun call => call.index = k) =
    (s.completed k && c.called fails k).toNat
  tells : ∀ call ∈ s.calls, Tells fails (c.known call.index) call

/-- The invariant of a run in which `n` joins have been sent. -/
structure Inv (c : Chain I) (fails : I → Option E) (n : Nat) (s : State I E)
    (ts : List (Task I E)) : Prop extends Accounts c fails s ts where
  range : 0 < n ∧ n ≤ c.elements.length
  running : ∀ k < n, Unbatched fails (c.ops k) (s.join k) (tasksOf k ts)
  waiting : ∀ k, n ≤ k →
    s.join k = (OperationJoin.start (c.ops k) 0).shared ∧ tasksOf k ts = []
  before : ∀ k, k + 1 < n → s.completed k = true ∧ c.stops fails k = false
  last : ∀ k, k + 1 = n → n < c.elements.length → s.completed k = true → c.stops fails k = true

variable {c : Chain I} {fails : I → Option E} {n k : Nat} {s : State I E} {ts ts' : List (Task I E)}

namespace Accounts

theorem perm (hp : ts.Perm ts') (h : Accounts c fails s ts) : Accounts c fails s ts' :=
  { h with
    counts := fun k => by rw [← hp.countP_eq]; exact h.counts k
    handles := fun k f hf => h.handles k f (hp.mem_iff.mpr hf) }

/-- The end of a join is the call of its proxy. -/
theorem fireJoin [DecidableEq I] {t : OperationJoin.Task I E} (answer : Option E)
    (h : Accounts c fails s (.join k t :: ts)) :
    Accounts c fails (fire c s (.join k t) answer).1 ((fire c s (.join k t) answer).2 ++ ts) := by
  have hhandled : ∀ j, ((fire c s (.join k t) answer).1.join j).handled =
      (s.join j).handled ++ if j = k then joinedCalls (s.join k) t else [] := by
    intro j
    show (Function.update s.join k (OperationJoin.fire (s.join k) t answer).1 j).handled = _
    by_cases hj : j = k
    · subst hj
      rw [Function.update_self, if_pos rfl, handled_fire]
    · rw [Function.update_of_ne hj, if_neg hj, List.append_nil]
  refine
    { h with
      counts := fun j => ?_
      handles := fun j f hf => ?_ }
  · have hcounts : ts.countP (isHandle j) + (s.completed j).toNat = (s.join j).handled.length :=
      h.counts j
    rw [hhandled, fire, List.countP_append, List.countP_append, countP_map_join,
      List.length_append, ← hcounts]
    dsimp only
    by_cases hjk : j = k
    · subst hjk
      rw [countP_map_handle_self, if_pos rfl]
      omega
    · rw [countP_map_handle_of_ne _ (Ne.symm hjk), if_neg hjk, List.length_nil]
      omega
  · rw [hhandled, List.mem_append]
    rcases List.mem_append.mp hf with hf | hf
    · rcases List.mem_append.mp hf with hf | hf
      · obtain ⟨t', -, ht'⟩ := List.mem_map.mp hf
        cases ht'
      · obtain ⟨f', hf', heq⟩ := List.mem_map.mp hf
        obtain ⟨rfl, rfl⟩ := Task.handle.inj heq
        rw [if_pos rfl]
        exact Or.inr hf'
    · exact Or.inl (h.handles j f (List.mem_cons_of_mem _ hf))

/-- The next join has no proxy that is called yet. -/
theorem countP_next (j : Nat) :
    (c.next fails k : List (Task I E)).countP (isHandle j) = 0 := by
  rw [Chain.next]
  split_ifs
  · exact countP_map_join _
  · rfl

theorem fireHandle [DecidableEq I] {f : Option (List (I × E))} {r : State I E × List (Task I E)}
    (h : Accounts c fails s (.handle k f :: ts)) (hnew : s.completed k = false)
    (hspec : Handles c fails s k r) : Accounts c fails r.1 (r.2 ++ ts) := by
  obtain ⟨hjoin, hcompleted, hadded, ⟨new, hcalls, hlength, hnewcalls⟩, hnext⟩ := hspec
  have hself : r.1.completed k = true := by
    rw [hcompleted, Function.update_self]
  have hother : ∀ j, j ≠ k → r.1.completed j = s.completed j := fun j hj => by
    rw [hcompleted, Function.update_of_ne hj]
  refine ⟨fun j => ?_, fun j f' hf => ?_, hadded, fun j => ?_, fun call hcall => ?_⟩
  · have hj := h.counts j
    rw [List.countP_append, hnext, countP_next, Nat.zero_add, hjoin]
    by_cases hjk : j = k
    · subst hjk
      rw [countP_cons_handle_self, hnew] at hj
      rw [hself, ← hj]
      rfl
    · rw [countP_cons_handle_of_ne _ (Ne.symm hjk)] at hj
      rw [hother j hjk, hj]
  · rw [hjoin]
    rcases List.mem_append.mp hf with hf | hf
    · rw [hnext] at hf
      exact absurd (countP_next j) (List.countP_pos_iff.mpr ⟨_, hf, decide_eq_true rfl⟩).ne'
    · exact h.handles j f' (List.mem_cons_of_mem _ hf)
  · rw [hcalls, List.countP_append, h.calls]
    by_cases hjk : j = k
    · subst hjk
      have hall : new.countP (fun call => call.index = j) = new.length :=
        List.countP_eq_length.mpr fun call hcall => decide_eq_true (hnewcalls call hcall).1
      rw [hall, hlength, hself, hnew, Bool.false_and, Bool.true_and]
      exact Nat.zero_add _
    · have hnone : new.countP (fun call => call.index = j) = 0 :=
        List.countP_eq_zero.mpr fun call hcall heq =>
          hjk ((of_decide_eq_true heq).symm.trans (hnewcalls call hcall).1)
      rw [hnone, hother j hjk]
      rfl
  · rw [hcalls] at hcall
    rcases List.mem_append.mp hcall with hcall | hcall
    · exact h.tells call hcall
    · obtain ⟨hindex, htells⟩ := hnewcalls call hcall
      rwa [hindex]

end Accounts

namespace Inv

theorem perm (hp : ts.Perm ts') (h : Inv c fails n s ts) : Inv c fails n s ts' :=
  { h with
    toAccounts := h.toAccounts.perm hp
    running := fun k hk => (h.running k hk).perm (hp.filterMap _)
    waiting := fun k hk => by
      obtain ⟨hjoin, hnil⟩ := h.waiting k hk
      refine ⟨hjoin, ?_⟩
      unfold tasksOf at hnil ⊢
      have := hp.filterMap (taskOf k)
      rw [hnil] at this
      exact this.symm.eq_nil }

theorem init : Inv c fails 1 (start c : Pool (State I E) (Task I E)).shared (start c).tasks where
  counts := fun k => by
    rw [start, countP_map_join]
    rfl
  handles := fun k f hf => by
    obtain ⟨t, -, ht⟩ := List.mem_map.mp hf
    exact nomatch ht
  added := fun i p hp => absurd hp List.not_mem_nil
  calls := fun k => rfl
  tells := fun call hcall => absurd hcall List.not_mem_nil
  range := ⟨Nat.one_pos, List.length_pos_iff.mpr c.nonempty⟩
  running := fun k hk => by
    obtain rfl := Nat.lt_one_iff.mp hk
    rw [start, tasksOf_map_self]
    exact Unbatched.init (Chain.ops_ne_nil (List.length_pos_iff.mpr c.nonempty))
  waiting := fun k hk => ⟨rfl, tasksOf_map_of_ne _ (by omega)⟩
  before := fun k hk => absurd hk (by omega)
  last := fun k _ _ hcompleted => nomatch hcompleted

/-- A join whose handler was called is one that was sent. -/
theorem lt_of_handled (h : Inv c fails n s ts) (hhandled : (s.join k).handled ≠ []) : k < n := by
  by_contra hnot
  rw [(h.waiting k (not_lt.mp hnot)).1] at hhandled
  exact hhandled rfl

theorem handled_ne_nil (h : Inv c fails n s ts) (hcompleted : s.completed k = true) :
    (s.join k).handled ≠ [] := by
  intro hnil
  have hcounts := h.counts k
  rw [hnil, hcompleted] at hcounts
  exact absurd hcounts (by simp)

/-- The joins up to one whose handler was called have completed. -/
theorem settled (h : Inv c fails n s ts) (hhandled : (s.join k).handled ≠ []) :
    Settled c fails k s := by
  have hk := h.lt_of_handled hhandled
  intro i hi
  have hi' : (s.join i).handled ≠ [] := by
    rcases Nat.lt_or_eq_of_le hi with hlt | rfl
    · exact h.handled_ne_nil (h.before i (by omega)).1
    · exact hhandled
  exact ((h.running i (by omega)).of_handled hi').2

/-- The join of a task has been sent. -/
theorem running_of_task {t : OperationJoin.Task I E} (h : Inv c fails n s (.join k t :: ts)) :
    k < n ∧ Unbatched fails (c.ops k) (s.join k) (t :: tasksOf k ts) := by
  have hk : k < n := by
    by_contra hnot
    have hnil := (h.waiting k (not_lt.mp hnot)).2
    rw [tasksOf_cons_self] at hnil
    exact List.cons_ne_nil _ _ hnil
  have hrun := h.running k hk
  rw [tasksOf_cons_self] at hrun
  exact ⟨hk, hrun⟩

section Steps

variable [DecidableEq I]

theorem fireJoin {t : OperationJoin.Task I E} {answer : Option E} (hends : Ends fails t answer)
    (h : Inv c fails n s (.join k t :: ts)) :
    Inv c fails n (fire c s (.join k t) answer).1 ((fire c s (.join k t) answer).2 ++ ts) := by
  obtain ⟨hk, hrun⟩ := h.running_of_task
  have htasks : ∀ j, tasksOf j ((fire c s (.join k t) answer).2 ++ ts) =
      (if j = k then (OperationJoin.fire (s.join k) t answer).2 else []) ++ tasksOf j ts := by
    intro j
    rw [fire, tasksOf_append, tasksOf_append, tasksOf_map_handle, List.append_nil]
    by_cases hjk : j = k
    · subst hjk
      rw [tasksOf_map_self, if_pos rfl]
    · rw [tasksOf_map_of_ne _ (Ne.symm hjk), if_neg hjk]
  refine
    { h with
      toAccounts := h.toAccounts.fireJoin answer
      running := fun j hj => ?_
      waiting := fun j hj => ?_ }
  · rw [htasks]
    show Unbatched fails (c.ops j) (Function.update s.join k _ j) _
    by_cases hjk : j = k
    · subst hjk
      rw [Function.update_self, if_pos rfl]
      exact hrun.fire (Chain.ops_ne_nil (hk.trans_le h.range.2)) (Chain.nodup_ops j) hends
    · have := h.running j hj
      rw [tasksOf_cons_of_ne _ (Ne.symm hjk)] at this
      rwa [Function.update_of_ne hjk, if_neg hjk, List.nil_append]
  · have hjk : j ≠ k := by omega
    have := h.waiting j hj
    rw [tasksOf_cons_of_ne _ (Ne.symm hjk)] at this
    rw [htasks, if_neg hjk, List.nil_append]
    show Function.update s.join k _ j = _ ∧ _
    rwa [Function.update_of_ne hjk]

/-- A step of a join takes a unit off what is left, also where the join ends. -/
theorem left_fireJoin {t : OperationJoin.Task I E} {answer : Option E} (hends : Ends fails t answer)
    (h : Inv c fails n s (.join k t :: ts)) :
    left c n ((fire c s (.join k t) answer).2 ++ ts) + 1 ≤ left c n (.join k t :: ts) := by
  obtain ⟨hk, hrun⟩ := h.running_of_task
  have hwork := fire_work (s.join k) t answer
  have hcalls : (joinedCalls (s.join k) t).length ≤ 1 := by
    have := (hrun.fire (Chain.ops_ne_nil (hk.trans_le h.range.2)) (Chain.nodup_ops k)
      hends).length_handled_le
    rw [handled_fire, List.length_append] at this
    omega
  have hoperations : (OperationJoin.fire (s.join k) t answer).1.operations = c.ops k :=
    (fire_operations _ _ _).trans hrun.operations
  unfold workLeft at hwork
  rw [hrun.iterator, operationIterator_fire hrun.iterator, hoperations, hrun.operations] at hwork
  simp only [List.length_nil, Nat.zero_mul, Nat.zero_add, List.map_cons, List.map_nil,
    List.sum_cons, List.sum_nil, Nat.add_zero] at hwork
  unfold left
  rw [fire, List.map_append, List.map_append, List.sum_append, List.sum_append, sum_weight_join,
    sum_weight_handle, List.map_cons, List.sum_cons]
  simp only [weight]
  omega

/-- The proxy that is called is the one of the join that was sent last. -/
theorem handle_last {f : Option (List (I × E))} (h : Inv c fails n s (.handle k f :: ts)) :
    k + 1 = n ∧ s.completed k = false ∧ Handles c fails s k (handle c s k f) := by
  have hmem : f ∈ (s.join k).handled := h.handles k f (List.mem_cons_self ..)
  have hne : (s.join k).handled ≠ [] := List.ne_nil_of_mem hmem
  have hk := h.lt_of_handled hne
  have hrun := h.running k hk
  have hcounts := h.counts k
  have hle := hrun.length_handled_le
  rw [countP_cons_handle_self] at hcounts
  have hnew : s.completed k = false := by
    cases hc : s.completed k with
    | false => rfl
    | true =>
        rw [hc, Bool.toNat_true] at hcounts
        omega
  refine ⟨?_, hnew, handle_spec (hk.trans_le h.range.2) hnew h.added (h.settled hne)
    (hrun.handled f hmem)⟩
  by_contra hother
  have := (h.before k (by omega)).1
  rw [hnew] at this
  exact nomatch this

/-- The next join is sent. -/
theorem sendNext {f : Option (List (I × E))} {r : State I E × List (Task I E)}
    (h : Inv c fails n s (.handle k f :: ts)) (hkn : k + 1 = n) (hnew : s.completed k = false)
    (hspec : Handles c fails s k r) (hlength : n < c.elements.length)
    (hstops : c.stops fails k = false)
    (hnext : r.2 = (OperationJoin.start (c.ops n) 0).tasks.map (.join n)) :
    Inv c fails (n + 1) r.1 (r.2 ++ ts) ∧ left c (n + 1) (r.2 ++ ts) + 1 ≤
      left c n (.handle k f :: ts) := by
  have htasks : ∀ j, tasksOf j (r.2 ++ ts) =
      (if j = n then (OperationJoin.start (c.ops n) 0).tasks else []) ++ tasksOf j ts := by
    intro j
    rw [tasksOf_append, hnext]
    by_cases hj : j = n
    · subst hj
      rw [tasksOf_map_self, if_pos rfl]
    · rw [tasksOf_map_of_ne _ (Ne.symm hj), if_neg hj]
  constructor
  · refine
      { toAccounts := h.toAccounts.fireHandle hnew hspec
        range := ⟨Nat.succ_pos n, hlength⟩
        running := fun j hj => ?_
        waiting := fun j hj => ?_
        before := fun j hj => ?_
        last := fun j hj _ hdone => ?_ }
    · rw [htasks, hspec.join]
      rcases Nat.lt_succ_iff_lt_or_eq.mp hj with hj | rfl
      · have := h.running j hj
        rw [tasksOf_cons_handle] at this
        rwa [if_neg hj.ne]
      · obtain ⟨hinit, hnil⟩ := h.waiting j (le_refl j)
        rw [tasksOf_cons_handle] at hnil
        rw [hinit, hnil, if_pos rfl, List.append_nil]
        exact Unbatched.init (Chain.ops_ne_nil hlength)
    · have := h.waiting j (by omega)
      rw [tasksOf_cons_handle] at this
      rwa [htasks, if_neg (by omega), hspec.join]
    · rw [hspec.completed]
      by_cases hjk : j = k
      · subst hjk
        exact ⟨Function.update_self .., hstops⟩
      · rw [Function.update_of_ne hjk]
        exact h.before j (by omega)
    · -- the join that is sent has not completed
      obtain rfl : j = n := by omega
      rw [hspec.completed, Function.update_of_ne (by omega)] at hdone
      exact absurd (h.lt_of_handled (h.handled_ne_nil hdone)) (lt_irrefl j)
  · -- the element that is sent was still counted with those left
    have hdrop : c.elements.drop n = c.elements[n] :: c.elements.drop (n + 1) :=
      List.drop_eq_getElem_cons hlength
    have hops : c.ops n = c.elements[n].operations := by
      rw [Chain.ops, List.getElem?_eq_getElem hlength]
      rfl
    unfold left
    rw [hdrop, List.map_append, List.sum_append, hnext, sum_weight_join, hops]
    simp only [OperationJoin.start, firstBatch, List.map_cons, List.map_nil, List.sum_cons,
      List.sum_nil, work, weight, cost, lt_self_iff_false, if_false]
    omega

/-- Nothing else is sent. -/
theorem stop {f : Option (List (I × E))} {r : State I E × List (Task I E)}
    (h : Inv c fails n s (.handle k f :: ts)) (hkn : k + 1 = n) (hnew : s.completed k = false)
    (hspec : Handles c fails s k r) (hstops : n < c.elements.length → c.stops fails k = true)
    (hnext : r.2 = []) :
    Inv c fails n r.1 (r.2 ++ ts) ∧ left c n (r.2 ++ ts) + 1 ≤ left c n (.handle k f :: ts) := by
  constructor
  · refine
      { toAccounts := h.toAccounts.fireHandle hnew hspec
        range := h.range
        running := fun j hj => ?_
        waiting := fun j hj => ?_
        before := fun j hj => ?_
        last := fun j hj hlength _ => ?_ }
    · have := h.running j hj
      rw [tasksOf_cons_handle] at this
      rwa [hnext, List.nil_append, hspec.join]
    · have := h.waiting j hj
      rw [tasksOf_cons_handle] at this
      rwa [hnext, List.nil_append, hspec.join]
    · rw [hspec.completed, Function.update_of_ne (by omega)]
      exact h.before j hj
    · obtain rfl : j = k := by omega
      exact hstops hlength
  · unfold left
    rw [hnext, List.nil_append, List.map_cons, List.sum_cons]
    simp only [weight]
    omega

theorem fireHandle {f : Option (List (I × E))} (answer : Option E)
    (h : Inv c fails n s (.handle k f :: ts)) :
    ∃ n', Inv c fails n' (fire c s (.handle k f) answer).1
        ((fire c s (.handle k f) answer).2 ++ ts) ∧
      left c n' ((fire c s (.handle k f) answer).2 ++ ts) + 1 ≤ left c n (.handle k f :: ts) := by
  obtain ⟨hkn, hnew, hspec⟩ := h.handle_last
  have hnext := hspec.next
  unfold Chain.next at hnext
  rw [hkn] at hnext
  split_ifs at hnext with hsends
  · exact ⟨n + 1, h.sendNext hkn hnew hspec hsends.1 hsends.2 hnext⟩
  · refine ⟨n, h.stop hkn hnew hspec (fun hlength => ?_) hnext⟩
    by_contra hstops
    exact hsends ⟨hlength, Bool.eq_false_iff.mpr hstops⟩

end Steps

/-- A task whose join has no task left. -/
theorem done (h : Inv c fails n s []) (hk : k < n) :
    s.completed k = true ∧ (s.join k).handled ≠ [] ∧ (s.join k).sent.Perm (c.ops k) := by
  obtain ⟨hhandled, hsent⟩ := (h.running k hk).handled_of_done
  have hcounts := h.counts k
  rw [hhandled] at hcounts
  refine ⟨?_, List.ne_nil_of_length_pos (by omega), hsent⟩
  cases hc : s.completed k with
  | true => rfl
  | false =>
      rw [hc] at hcounts
      exact absurd hcounts (by simp)

/-- A join that was not sent is as it was created. -/
theorem lt_of_sent (h : Inv c fails n s ts) (hsent : (s.join k).sent ≠ []) : k < n := by
  by_contra hnot
  rw [(h.waiting k (not_lt.mp hnot)).1] at hsent
  exact hsent rfl

theorem lt_of_completed (h : Inv c fails n s ts) (hcompleted : s.completed k = true) : k < n :=
  h.lt_of_handled (h.handled_ne_nil hcompleted)

/-- A handler that was called is one that the chain calls. -/
theorem of_mem_calls {call : Call I E} (h : Inv c fails n s ts) (hcall : call ∈ s.calls) :
    s.completed call.index = true ∧ c.called fails call.index = true := by
  have hcount := h.calls call.index
  have hpos : 0 < s.calls.countP fun call' => call'.index = call.index :=
    List.countP_pos_iff.mpr ⟨call, hcall, decide_eq_true rfl⟩
  cases hboth : s.completed call.index && c.called fails call.index with
  | true => exact Bool.and_eq_true_iff.mp hboth
  | false =>
      rw [hboth] at hcount
      exact absurd hcount hpos.ne'

end Inv

theorem Chain.stops_eq_false (h : ∀ j ≤ k, anyFails fails (c.ops j) = false) :
    c.stops fails k = false := by
  have hknown : anyFails fails (c.known k) = false := by
    rw [anyFails_eq_false]
    intro op hop
    unfold Chain.known at hop
    split_ifs at hop
    · obtain ⟨j, hj, hop⟩ := Chain.mem_upTo.mp hop
      exact anyFails_eq_false.mp (h j hj) op hop
    · exact anyFails_eq_false.mp (h k (le_refl k)) op hop
  rw [Chain.stops, Chain.aborted, h k (le_refl k), hknown, Bool.false_and, Bool.and_false]
  rfl

/-- Without failures the joins are sent one after the other. -/
theorem Inv.reaches (h : Inv c fails n s []) (hk : k < c.elements.length)
    (hbefore : ∀ j < k, anyFails fails (c.ops j) = false) : k < n := by
  by_contra hnot
  obtain ⟨m, rfl⟩ := Nat.exists_eq_succ_of_ne_zero h.range.1.ne'
  have hstops := h.last m rfl (by omega) (h.done (Nat.lt_succ_self m)).1
  rw [Chain.stops_eq_false fun j hj => hbefore j (by omega)] at hstops
  exact nomatch hstops

section Runs

variable [DecidableEq I] {c : Chain I} {fails : I → Option E} {p : Pool (State I E) (Task I E)}
  {es : List (PoolEvent Empty (Option E))}

/-- Every run keeps the invariant, and is no longer than what the chain leads to. -/
theorem reach_inv (h : Reach (sequence c).step (Machine.Admits (Outcomes fails)) (start c) es p) :
    ∃ n, Inv c fails n p.shared p.tasks ∧
      es.length + left c n p.tasks ≤ (c.elements.map cost).sum := by
  induction h with
  | refl =>
      refine ⟨1, Inv.init, ?_⟩
      obtain ⟨e, rest, he⟩ := List.exists_cons_of_ne_nil c.nonempty
      have hops : c.ops 0 = e.operations := by
        rw [Chain.ops, he]
        rfl
      unfold left start
      rw [sum_weight_join, hops, he]
      simp only [OperationJoin.start, firstBatch, List.map_cons, List.map_nil, List.sum_cons,
        List.sum_nil, work, cost, lt_self_iff_false, if_false, List.length_nil, List.drop_succ_cons,
        List.drop_zero]
      omega
  | @snoc es q q' e _ hok hstep ih =>
      obtain ⟨n, hinv, hle⟩ := ih
      rcases Machine.step_cases hstep with ⟨i, -⟩ | ⟨m, answer, t, r, rest, rfl, ht, hperm, hr, rfl⟩
      · cases i
      · obtain rfl : fire c q.shared t answer = r := Option.some.inj hr
        rw [left_perm hperm] at hle
        have hinv := hinv.perm hperm
        have houtcome : Outcomes fails q.shared t answer := hok t ht
        rw [List.length_append, List.length_singleton]
        cases t with
        | join k t =>
            have hends : Ends fails t answer := by
              rintro op rfl
              exact houtcome op rfl
            have hleft := hinv.left_fireJoin hends
            exact ⟨n, hinv.fireJoin hends, by dsimp only; omega⟩
        | handle k f =>
            obtain ⟨n', hnext, hleft⟩ := hinv.fireHandle answer
            exact ⟨n', hnext, by dsimp only; omega⟩

/-- Some run ends. -/
theorem exists_done (c : Chain I) (fails : I → Option E) :
    ∃ es p, Reach (sequence c).step (Machine.Admits (Outcomes fails)) (start c) es p ∧
      p.tasks = [] := by
  refine Machine.exists_done (c.elements.map cost).sum (fun es p h => ?_) fun s t => ?_
  · obtain ⟨n, -, hle⟩ := reach_inv h
    omega
  · cases t with
    | join k t =>
        cases t with
        | await op =>
            refine ⟨fails op, _, ?_, rfl⟩
            rintro op' ⟨⟩
            rfl
        | _ => exact ⟨none, _, nofun, rfl⟩
    | handle k f => exact ⟨none, _, nofun, rfl⟩

end Runs

/-! ## The order of the chain, and its handlers -/

section Follows

variable (c : Chain I) (fails : I → Option E)

/-- `abortOnFirstFailure` is set on some element. -/
def Chain.Aborting : Prop :=
  ∃ e ∈ c.elements, e.abortOnFirstFailure = true

/-- What is to hold in every state of a run. -/
structure Follows (p : Pool (State I E) (Task I E)) : Prop where
  /-- A join is sent when the one before it has completed. -/
  ordered : ∀ k, (p.shared.join (k + 1)).sent ≠ [] →
    ((p.shared.join k).completed.map Prod.fst).Perm (c.ops k)
  /-- Once an operation has failed, no handler is called and no join is sent. -/
  aborts : c.Aborting → ∀ k op e, (op, some e) ∈ (p.shared.join k).completed →
    (∀ call ∈ p.shared.calls, call.index < k) ∧ ∀ j, k < j → (p.shared.join j).sent = []
  /-- Every handler is called once, and told of the operations and failures so far. -/
  called : ¬c.Aborting → ∀ k, c.hasHandler k = true →
    p.shared.calls.countP (fun call => call.index = k) ≤ 1 ∧
      (∀ call ∈ p.shared.calls, call.index = k → Tells fails (c.known k) call) ∧
      (p.tasks = [] → (p.shared.join k).sent ≠ [] →
        p.shared.calls.countP (fun call => call.index = k) = 1)

/-- It holds in every run, and every run ends. -/
def Sequenced [DecidableEq I] : Prop :=
  ∀ es p, Reach (sequence c).step (Machine.Admits (Outcomes fails)) (start c) es p →
    Follows c fails p ∧ es.length ≤ (c.elements.map cost).sum

/-- The first join with a failure has an element with `abortOnFirstFailure` after it, or there is
nothing that could be called or sent. -/
def AbortsInTime : Prop :=
  ∀ k, anyFails fails (c.ops k) = true → (∀ j < k, anyFails fails (c.ops j) = false) →
    c.hasAbortOnFirstFailureInChildSequences k = true ∨
      (k + 1 = c.elements.length ∧ c.hasHandler k = false)

variable {c fails} {n : Nat} {s : State I E} {ts : List (Task I E)}

theorem Chain.aborted_eq_false (h : ¬c.Aborting) (k : Nat) : c.aborted fails k = false := by
  have habort : c.hasAbortOnFirstFailureInChildSequences k = false := by
    apply List.any_eq_false.mpr
    intro e he htrue
    exact h ⟨e, List.mem_of_mem_drop he, htrue⟩
  rw [Chain.aborted, habort, Bool.and_false]

theorem lt_length_of_mem_ops {k : Nat} {op : I} (h : op ∈ c.ops k) : k < c.elements.length := by
  by_contra hnot
  rw [Chain.ops, List.getElem?_eq_none (not_lt.mp hnot)] at h
  exact List.not_mem_nil h

theorem Inv.ordered {k : Nat} (h : Inv c fails n s ts) (hsent : (s.join (k + 1)).sent ≠ []) :
    ((s.join k).completed.map Prod.fst).Perm (c.ops k) := by
  have hk := h.lt_of_sent hsent
  have hcompleted := (h.before k hk).1
  exact ((h.running k (by omega)).of_handled (h.handled_ne_nil hcompleted)).1

theorem exists_first {k : Nat} (h : anyFails fails (c.ops k) = true) :
    ∃ k₀ ≤ k, anyFails fails (c.ops k₀) = true ∧ ∀ j < k₀, anyFails fails (c.ops j) = false := by
  have hex : ∃ k, anyFails fails (c.ops k) = true := ⟨k, h⟩
  refine ⟨Nat.find hex, Nat.find_min' hex h, Nat.find_spec hex, fun j hj => ?_⟩
  exact Bool.eq_false_iff.mpr (Nat.find_min hex hj)

/-- An operation that failed is one of the join, and fails. -/
theorem Inv.anyFails {k : Nat} {op : I} {e : E} (h : Inv c fails n s ts)
    (hmem : (op, some e) ∈ (s.join k).completed) :
    k < n ∧ anyFails fails (c.ops k) = true := by
  have hk : k < n := by
    by_contra hnot
    rw [(h.waiting k (not_lt.mp hnot)).1] at hmem
    exact List.not_mem_nil hmem
  have hrun := h.running k hk
  obtain ⟨guard, hinv⟩ := hrun.batched
  have hsent : op ∈ (s.join k).sent := hinv.inFlight.mem_iff.mpr
    (List.mem_append_left _ (List.mem_map.mpr ⟨_, hmem, rfl⟩))
  have hop : op ∈ c.ops k := hinv.all.mem_iff.mp (List.mem_append_left _ hsent)
  exact ⟨hk, anyFails_iff.mpr ⟨op, hop, e, (hrun.outcomes _ hmem).symm⟩⟩

/-- The chain does not go on after the first join with a failure. -/
theorem Inv.aborts (hintime : AbortsInTime c fails) (h : Inv c fails n s ts) {k : Nat} {op : I}
    {e : E} (hmem : (op, some e) ∈ (s.join k).completed) :
    (∀ call ∈ s.calls, call.index < k) ∧ ∀ j, k < j → (s.join j).sent = [] := by
  obtain ⟨hk, hfails⟩ := h.anyFails hmem
  obtain ⟨k₀, hle, hfails₀, hbefore⟩ := exists_first hfails
  have hend : n ≤ k₀ + 1 ∧ c.called fails k₀ = false := by
    rcases hintime k₀ hfails₀ hbefore with habort | ⟨hlast, hhandler⟩
    · have haborted : c.aborted fails k₀ = true := by
        rw [Chain.aborted, hfails₀, habort]
        rfl
      constructor
      · by_contra hnot
        have hstops := (h.before k₀ (by omega)).2
        rw [Chain.stops, haborted, Bool.true_or] at hstops
        cases hstops
      · rw [Chain.called, haborted, Bool.not_true, Bool.and_false]
    · refine ⟨hlast ▸ h.range.2, ?_⟩
      rw [Chain.called, hhandler, Bool.false_and]
  obtain ⟨hn, hcalled⟩ := hend
  obtain rfl : k = k₀ := by omega
  constructor
  · intro call hcall
    obtain ⟨hcompleted, hcalled'⟩ := h.of_mem_calls hcall
    have hlt := h.lt_of_completed hcompleted
    have hne : call.index ≠ k := by
      intro heq
      rw [heq, hcalled] at hcalled'
      cases hcalled'
    omega
  · intro j hj
    rw [(h.waiting j (by omega)).1]
    rfl

/-- Without `abortOnFirstFailure` the handlers of all joins are called. -/
theorem Inv.called (hnone : ¬c.Aborting) (h : Inv c fails n s ts) {k : Nat}
    (hhandler : c.hasHandler k = true) :
    s.calls.countP (fun call => call.index = k) ≤ 1 ∧
      (∀ call ∈ s.calls, call.index = k → Tells fails (c.known k) call) ∧
      (ts = [] → (s.join k).sent ≠ [] → s.calls.countP (fun call => call.index = k) = 1) := by
  have hcalled : c.called fails k = true := by
    rw [Chain.called, hhandler, Chain.aborted_eq_false hnone]
    rfl
  have hcount := h.calls k
  rw [hcalled, Bool.and_true] at hcount
  refine ⟨?_, ?_, ?_⟩
  · rw [hcount]
    exact Bool.toNat_le _
  · rintro call hcall rfl
    exact h.tells call hcall
  · rintro rfl hsent
    rw [hcount, (h.done (h.lt_of_sent hsent)).1]
    rfl

end Follows

/-- A chain of joins is worked off in order, with its handlers, just when `abortOnFirstFailure` is
set nowhere or set after the first join that has a failure. -/
theorem sequenced_iff [DecidableEq I] (c : Chain I) (fails : I → Option E) :
    Sequenced c fails ↔ (¬c.Aborting ∨ AbortsInTime c fails) := by
  constructor
  · intro h
    by_contra hnot
    rw [not_or, not_not] at hnot
    obtain ⟨haborting, hlate⟩ := hnot
    unfold AbortsInTime at hlate
    push Not at hlate
    obtain ⟨k, hfails, hbefore, habort, hgoes⟩ := hlate
    obtain ⟨es, p, hreach, hdone⟩ := exists_done c fails
    obtain ⟨n, hinv, -⟩ := reach_inv hreach
    rw [hdone] at hinv
    obtain ⟨op, hop, e, he⟩ := anyFails_iff.mp hfails
    have hk := hinv.reaches (lt_length_of_mem_ops hop) hbefore
    obtain ⟨hcompleted, hhandled, -⟩ := hinv.done hk
    have hrun := hinv.running k hk
    -- the operation has failed
    have hmem : (op, some e) ∈ (p.shared.join k).completed := by
      obtain ⟨r, hr, rfl⟩ := List.mem_map.mp ((hrun.of_handled hhandled).1.mem_iff.mpr hop)
      rw [← he, ← hrun.outcomes r hr]
      exact hr
    obtain ⟨hcalls, hsent⟩ := (h es p hreach).1.aborts haborting k op e hmem
    have haborted : c.aborted fails k = false := by
      rw [Chain.aborted, Bool.eq_false_iff.mpr habort, Bool.and_false]
    cases hhandler : c.hasHandler k with
    | true =>
        have hcount := hinv.calls k
        rw [hcompleted, Chain.called, hhandler, haborted] at hcount
        obtain ⟨call, hcall, hindex⟩ := List.countP_pos_iff.mp
          (show 0 < p.shared.calls.countP fun call => call.index = k by rw [hcount]; decide)
        exact absurd (of_decide_eq_true hindex) (hcalls call hcall).ne
    | false =>
        have hnext : k + 1 < c.elements.length := by
          have hlength := lt_length_of_mem_ops hop
          have hne : k + 1 ≠ c.elements.length := fun hlast => hgoes hlast hhandler
          omega
        have hstops : c.stops fails k = false := by
          rw [Chain.stops, haborted, hhandler]
          rfl
        have hkn : k + 1 < n := by
          by_contra hnot
          rw [hinv.last k (by omega) (by omega) hcompleted] at hstops
          cases hstops
        have hperm := (hinv.done hkn).2.2
        rw [hsent (k + 1) (Nat.lt_succ_self k)] at hperm
        exact Chain.ops_ne_nil hnext hperm.symm.eq_nil
  · intro h es p hreach
    obtain ⟨n, hinv, hle⟩ := reach_inv hreach
    refine ⟨⟨fun k hsent => hinv.ordered hsent, fun haborting k op e hmem => ?_,
      fun hnone k hhandler => hinv.called hnone hhandler⟩, by omega⟩
    exact hinv.aborts (h.resolve_left (not_not.mpr haborting)) hmem

/-- One join, with a handler and `abortOnFirstFailure`. -/
def single : Chain Nat where
  elements := [⟨[1], true, true, true⟩]
  nonempty := List.cons_ne_nil _ _
  operations := by decide
  distinct := by decide

/-- Its handler is called although its operation fails. -/
theorem handler_called_on_failure :
    (∃ p : Pool (State Nat String) (Task Nat String),
      (sequence single).Reaches (Outcomes fun _ => some "timeout") (start single) p ∧
        ∃ call ∈ p.shared.calls, call.index = 0 ∧ call.failures = some [(1, "timeout")]) ∧
      ¬Sequenced single fun _ => some "timeout" := by
  have hexec : ∃ p : Pool (State Nat String) (Task Nat String),
      (sequence single).exec (Outcomes fun _ => some "timeout") (start single)
        [.fire 0 none, .fire 1 (some "timeout"), .fire 0 none, .fire 0 none, .fire 0 none,
          .fire 0 none, .fire 0 none, .fire 0 none, .fire 0 none, .fire 0 none] = some p ∧
        p.shared.calls = [⟨0, [1], some [(1, "timeout")]⟩] ∧
        (p.shared.join 0).completed = [(1, some "timeout")] :=
    ⟨_, rfl, rfl, rfl⟩
  obtain ⟨p, hp, hcalls, hcompleted⟩ := hexec
  have hreaches := Machine.reaches_of_exec hp
  refine ⟨⟨p, hreaches, ?_⟩, fun h => ?_⟩
  · rw [hcalls]
    exact ⟨_, List.mem_singleton_self _, rfl, rfl⟩
  · obtain ⟨es, hrun⟩ := hreaches
    have haborts := (h es p hrun).1.aborts ⟨_, List.mem_singleton_self _, rfl⟩ 0 1 "timeout"
      (by rw [hcompleted]; exact List.mem_singleton_self _)
    rw [hcalls] at haborts
    exact absurd (haborts.1 _ (List.mem_singleton_self _)) (lt_irrefl 0)

end Xenon.Common.OperationSequence

import Mathlib.Algebra.Order.Group.Int
import Mathlib.Data.List.Perm.Basic
import Xenon.Foundation.Pool

/-!
# Fan-out with a shared counter

A loop sends a request for each of its items and goes on; the answers come in any
order, also while the loop still runs, and each of them counts a shared counter
down. An item without a request is counted by the loop itself. Whoever counts to
zero ends the whole. Instead of being sent, an item may throw: then the loop is
over, the whole ends at once, and the counter never gets to zero.

A request that was given up may still arrive, so a message is a task of its own.
-/

namespace Xenon.Foundation

/-- What the loop does with an item. -/
inductive Issue where
  | inline
  | send
  | throw
deriving DecidableEq

/-- The requests of a fan-out: the loop's choice, what the arrival of a message does
to the accumulator, and what an answer does. An answer may be impossible. -/
structure FanOut (α σ κ : Type*) where
  issue : α → Issue
  deliver : σ → α → σ
  answer : σ → α → κ → Option σ

namespace FanOut

variable {α σ κ : Type*}

/-- How it ends: by the counter, with the accumulator of that moment, or by an
exception. -/
inductive End (σ : Type*) where
  | counted (acc : σ)
  | thrown

/-- The counter and the accumulator. What was sent, which items are accounted for
and how it ended are recorded in order. -/
structure State (α σ : Type*) where
  pending : Int
  acc : σ
  sent : List α
  settled : List α
  ends : List (End σ)

inductive Task (α : Type*) where
  | loop (items : List α)
  | message (x : α)
  | await (x : α)

/-- An item is accounted for. -/
def State.settle (s : State α σ) (x : α) (acc : σ) : State α σ :=
  { s with
    pending := s.pending - 1
    acc := acc
    settled := s.settled ++ [x]
    ends := if s.pending - 1 = 0 then s.ends ++ [.counted acc] else s.ends }

def machine (F : FanOut α σ κ) : Machine (State α σ) (Task α) Empty (Option κ) where
  input := fun _ i => nomatch i
  fire := fun s t k =>
    match t, k with
    | .loop [], none => some (s, [])
    | .loop (x :: xs), none =>
        match F.issue x with
        | .inline => some (s.settle x s.acc, [.loop xs])
        | .send => some ({ s with sent := s.sent ++ [x] }, [.loop xs, .await x, .message x])
        | .throw => some ({ s with ends := s.ends ++ [.thrown] }, [])
    | .message x, none => some ({ s with acc := F.deliver s.acc x }, [])
    | .await x, some k => (F.answer s.acc x k).map fun acc => (s.settle x acc, [])
    | _, _ => none

def start (items : List α) (acc : σ) : Pool (State α σ) (Task α) :=
  ⟨⟨items.length, acc, [], [], []⟩, [.loop items]⟩

/-- Every interleaving. -/
def Reaches (F : FanOut α σ κ) (items : List α) (acc : σ) (p : Pool (State α σ) (Task α)) : Prop :=
  F.machine.Reaches (fun _ _ _ => True) (start items acc) p

/-! ## What is open -/

/-- The items that the loop has not come to. -/
def todo (ts : List (Task α)) : List α :=
  ts.flatMap fun
    | .loop items => items
    | _ => []

def awaiting (ts : List (Task α)) : List α :=
  ts.flatMap fun
    | .await x => [x]
    | _ => []

def isLoop : Task α → Bool
  | .loop _ => true
  | _ => false

section Open

variable (ts : List (Task α)) (x : α) (items : List α)

@[simp] theorem todo_loop : todo (.loop items :: ts) = items ++ todo ts := rfl
@[simp] theorem todo_message : todo (.message x :: ts) = todo ts := rfl
@[simp] theorem todo_await : todo (.await x :: ts) = todo ts := rfl
@[simp] theorem awaiting_loop : awaiting (.loop items :: ts) = awaiting ts := rfl
@[simp] theorem awaiting_message : awaiting (.message x :: ts) = awaiting ts := rfl
@[simp] theorem awaiting_await : awaiting (.await x :: ts) = x :: awaiting ts := rfl
@[simp] theorem isLoop_loop : isLoop (.loop items) = true := rfl
@[simp] theorem isLoop_message : isLoop (.message x) = false := rfl
@[simp] theorem isLoop_await : isLoop (.await x) = false := rfl

variable {ts}

/-- Where there is no loop there is nothing left to do. -/
theorem todo_eq_nil_of_countP (h : ts.countP isLoop = 0) : todo ts = [] := by
  induction ts with
  | nil => rfl
  | cons t ts ih =>
      cases t with
      | loop items => simp at h
      | message x => exact ih (by simpa using h)
      | await x => exact ih (by simpa using h)

end Open

/-! ## Every item is accounted for once -/

section Accounting

variable (F : FanOut α σ κ)

/-- What the open items are worth, `P`, does not depend on their order, and goes on when one of
them is settled or a message arrives. -/
structure Rule (P : σ → List α → Prop) : Prop where
  perm : ∀ {acc xs ys}, xs.Perm ys → P acc xs → P acc ys
  inline : ∀ {acc x xs}, F.issue x = .inline → P acc (x :: xs) → P acc xs
  deliver : ∀ {acc x xs}, P acc xs → P (F.deliver acc x) xs
  answer : ∀ {acc acc' x xs k}, F.answer acc x k = some acc' → P acc (x :: xs) → P acc' xs

/-- The rule that asks for nothing. -/
theorem rule_true : F.Rule fun _ _ => True where
  perm := fun _ h => h
  inline := fun _ _ => trivial
  deliver := fun h => h
  answer := fun _ _ => trivial

/-- An item is settled, awaited, or the loop has not come to it, unless it was lost when the loop
threw. -/
structure Accounting (P : σ → List α → Prop) (items lost : List α) (s : State α σ)
    (ts : List (Task α)) : Prop where
  all : (s.settled ++ (awaiting ts ++ (todo ts ++ lost))).Perm items
  pending : s.pending = (awaiting ts ++ (todo ts ++ lost)).length
  acc : P s.acc (awaiting ts ++ (todo ts ++ lost))
  sent : (s.sent ++ (todo ts ++ lost).filter fun x => F.issue x = .send).Perm
    (items.filter fun x => F.issue x = .send)
  throwing : ∀ x ∈ items, F.issue x = .throw → x ∈ todo ts ++ lost
  ends :
    lost = [] ∧ ts.countP isLoop ≤ 1 ∧
        (if awaiting ts ++ todo ts = [] then ∃ acc, s.ends = [.counted acc] ∧ P acc []
        else s.ends = []) ∨
      (∃ x ∈ items, F.issue x = .throw) ∧ lost ≠ [] ∧ ts.countP isLoop = 0 ∧ s.ends = [.thrown]

variable {F} {P : σ → List α → Prop} {items lost : List α} {s : State α σ} {ts ts' : List (Task α)}
  {x : α} {xs : List α}

theorem Accounting.of_perm (hP : F.Rule P) (hperm : ts.Perm ts')
    (h : F.Accounting P items lost s ts) : F.Accounting P items lost s ts' := by
  have htodo : (todo ts).Perm (todo ts') := hperm.flatMap_right _
  have hawait : (awaiting ts).Perm (awaiting ts') := hperm.flatMap_right _
  have hopen : (awaiting ts ++ (todo ts ++ lost)).Perm (awaiting ts' ++ (todo ts' ++ lost)) :=
    hawait.append (htodo.append_right _)
  refine ⟨?_, h.pending.trans (by rw [hopen.length_eq]), hP.perm hopen h.acc, ?_, ?_, ?_⟩
  · exact ((hopen.append_left _).symm).trans h.all
  · exact (((htodo.append_right _).filter _).append_left _).symm.trans h.sent
  · intro x hx hthrow
    exact (htodo.append_right lost).mem_iff.mp (h.throwing x hx hthrow)
  · have hnil : awaiting ts ++ todo ts = [] ↔ awaiting ts' ++ todo ts' = [] := by
      rw [← List.length_eq_zero_iff, ← List.length_eq_zero_iff, (hawait.append htodo).length_eq]
    rw [← hperm.countP_eq]
    simp only [← hnil]
    exact h.ends

theorem accounting_start (hitems : items ≠ []) {acc : σ} (hacc : P acc items) :
    F.Accounting P items [] (start items acc).shared (start items acc).tasks := by
  refine ⟨?_, ?_, ?_, ?_, ?_, Or.inl ⟨rfl, by simp [start], ?_⟩⟩
  · simp [start, todo, awaiting]
  · simp [start, todo, awaiting]
  · simpa [start, todo, awaiting] using hacc
  · simp [start, todo]
  · intro x hx _
    simpa [start, todo] using hx
  · simp [start, todo, awaiting, hitems]

/-- An item that is settled, in the loop or by its answer. -/
theorem Accounting.settle {acc : σ} (h : F.Accounting P items lost s ts)
    (hopen : (awaiting ts ++ todo ts).Perm (x :: (awaiting ts' ++ todo ts')))
    (htodo : todo ts = todo ts' ∨ F.issue x = .inline ∧ todo ts = x :: todo ts')
    (hloops : ts'.countP isLoop = ts.countP isLoop)
    (hacc : P acc (awaiting ts' ++ (todo ts' ++ lost))) :
    F.Accounting P items lost (s.settle x acc) ts' := by
  have hall : (awaiting ts ++ (todo ts ++ lost)).Perm
      (x :: (awaiting ts' ++ (todo ts' ++ lost))) := by
    simpa [List.append_assoc] using hopen.append_right lost
  have hpending : s.pending - 1 = (awaiting ts' ++ (todo ts' ++ lost)).length := by
    rw [h.pending, hall.length_eq, List.length_cons]
    omega
  refine ⟨?_, hpending, hacc, ?_, ?_, ?_⟩
  · refine List.Perm.trans ?_ h.all
    show (s.settled ++ [x] ++ _).Perm _
    rw [List.append_assoc]
    exact (hall.append_left s.settled).symm
  · refine List.Perm.trans ?_ h.sent
    rcases htodo with htodo | ⟨hinline, htodo⟩
    · rw [htodo]
      rfl
    · rw [htodo]
      simp [State.settle, hinline]
  · intro y hy hthrow
    have hmem := h.throwing y hy hthrow
    rcases htodo with htodo | ⟨hinline, htodo⟩
    · rwa [htodo] at hmem
    · rw [htodo, List.cons_append, List.mem_cons] at hmem
      rcases hmem with rfl | hmem
      · rw [hinline] at hthrow
        cases hthrow
      · exact hmem
  · have hne : awaiting ts ++ todo ts ≠ [] := fun hnil => by simp [hnil] at hopen
    rcases h.ends with ⟨hlost, hle, hends⟩ | ⟨hthrow, hlost, hloop, hends⟩
    · left
      rw [if_neg hne] at hends
      subst hlost
      refine ⟨rfl, hloops ▸ hle, ?_⟩
      rw [List.append_nil] at hpending hacc
      show if _ then ∃ acc', (if s.pending - 1 = 0 then _ else _) = _ ∧ _
        else (if s.pending - 1 = 0 then _ else _) = _
      -- this was the last one, or others are open
      by_cases hnil : awaiting ts' ++ todo ts' = []
      · rw [hnil] at hpending hacc
        rw [if_pos hnil, if_pos (by simpa using hpending), hends]
        exact ⟨acc, rfl, hacc⟩
      · have hpos := List.length_pos_iff.mpr hnil
        rw [if_neg hnil, if_neg (by omega), hends]
    · right
      refine ⟨hthrow, hlost, hloops.trans hloop, ?_⟩
      have hpos := List.length_pos_iff.mpr hlost
      show (if s.pending - 1 = 0 then _ else s.ends) = _
      rw [if_neg, hends]
      rw [hpending, List.length_append, List.length_append]
      omega

/-- While the loop runs it has lost nothing, and it is the only one. -/
theorem Accounting.running (h : F.Accounting P items lost s (.loop xs :: ts)) :
    lost = [] ∧ ts.countP isLoop = 0 ∧
      (if awaiting (.loop xs :: ts) ++ todo (.loop xs :: ts) = [] then
        ∃ acc, s.ends = [.counted acc] ∧ P acc [] else s.ends = []) := by
  have hrunning := h.ends
  simp only [List.countP_cons, isLoop_loop, if_true] at hrunning
  rcases hrunning with ⟨hlost, hle, hends⟩ | ⟨-, -, hloop, -⟩
  · exact ⟨hlost, by omega, hends⟩
  · omega

/-- An item that is sent is awaited. -/
theorem Accounting.send (hP : F.Rule P) (h : F.Accounting P items [] s (.loop (x :: xs) :: ts))
    (hissue : F.issue x = .send) (hloops : ts.countP isLoop = 0) (hends : s.ends = []) :
    F.Accounting P items [] { s with sent := s.sent ++ [x] }
      ([.loop xs, .await x, .message x] ++ ts) where
  all := by
    refine List.Perm.trans (List.Perm.append_left _ ?_) h.all
    exact List.perm_middle.symm
  pending := by
    show s.pending = _
    rw [h.pending]
    simp
    omega
  acc := hP.perm List.perm_middle h.acc
  sent := by
    refine List.Perm.trans ?_ h.sent
    simp [hissue]
  throwing := by
    intro y hy hthrow
    have hmem := h.throwing y hy hthrow
    rw [todo_loop, List.cons_append, List.cons_append, List.mem_cons] at hmem
    rcases hmem with rfl | hmem
    · rw [hissue] at hthrow
      cases hthrow
    · exact hmem
  ends := by
    refine Or.inl ⟨rfl, ?_, ?_⟩
    · simp [List.countP_cons, hloops]
    · simpa using hends

/-- An item that throws is lost with those that the loop has not come to. -/
theorem Accounting.throw (h : F.Accounting P items [] s (.loop (x :: xs) :: ts))
    (hissue : F.issue x = .throw) (hloops : ts.countP isLoop = 0) (hends : s.ends = []) :
    F.Accounting P items (x :: xs) { s with ends := s.ends ++ [.thrown] } ts := by
  have htodo : todo ts = [] := todo_eq_nil_of_countP hloops
  refine ⟨?_, ?_, ?_, ?_, ?_, Or.inr ⟨?_, by simp, hloops, ?_⟩⟩
  · simpa [htodo] using h.all
  · simpa [htodo] using h.pending
  · simpa [htodo] using h.acc
  · simpa [htodo] using h.sent
  · simpa [htodo] using h.throwing
  · exact ⟨x, h.all.mem_iff.mp (by simp), hissue⟩
  · rw [hends]
    rfl

/-- What one round of the loop keeps. -/
theorem accounting_loop (hP : F.Rule P) {r : State α σ × List (Task α)}
    (hr : F.machine.fire s (.loop (x :: xs)) none = some r)
    (h : F.Accounting P items lost s (.loop (x :: xs) :: ts)) :
    ∃ lost, F.Accounting P items lost r.1 (r.2 ++ ts) := by
  obtain ⟨rfl, hloops, hends⟩ := h.running
  rw [if_neg (by simp)] at hends
  cases hissue : F.issue x with
  | inline =>
      simp only [machine, hissue] at hr
      cases hr
      refine ⟨[], h.settle ?_ (Or.inr ⟨hissue, rfl⟩) ?_ ?_⟩
      · exact List.perm_middle
      · simp [List.countP_cons]
      · refine hP.inline hissue (hP.perm ?_ h.acc)
        exact List.perm_middle
  | send =>
      simp only [machine, hissue] at hr
      cases hr
      exact ⟨[], h.send hP hissue hloops hends⟩
  | throw =>
      simp only [machine, hissue] at hr
      cases hr
      exact ⟨x :: xs, h.throw hissue hloops hends⟩

/-- What one task keeps. -/
theorem accounting_fire (hP : F.Rule P) {t : Task α} {k : Option κ}
    {r : State α σ × List (Task α)} (hr : F.machine.fire s t k = some r)
    (h : F.Accounting P items lost s (t :: ts)) :
    ∃ lost, F.Accounting P items lost r.1 (r.2 ++ ts) := by
  match t, k with
  | .loop [], none =>
      obtain ⟨rfl, hloops, hends⟩ := h.running
      cases hr
      refine ⟨[], h.all, h.pending, h.acc, h.sent, h.throwing, Or.inl ⟨rfl, ?_, hends⟩⟩
      simp [hloops]
  | .loop (x :: xs), none => exact accounting_loop hP hr h
  | .message x, none =>
      cases hr
      refine ⟨lost, h.all, h.pending, hP.deliver h.acc, h.sent, h.throwing, ?_⟩
      simpa using h.ends
  | .await x, some k =>
      obtain ⟨acc, hacc, rfl⟩ := Option.map_eq_some_iff.mp hr
      refine ⟨lost, h.settle (List.Perm.refl _) (Or.inl rfl) ?_ (hP.answer hacc h.acc)⟩
      simp
  | .loop [], some k => cases hr
  | .loop (_ :: _), some k => cases hr
  | .message x, some k => cases hr
  | .await x, none => cases hr

theorem reaches_start (acc : σ) :
    F.Reaches items acc ⟨⟨items.length, acc, [], [], []⟩, [.loop items]⟩ := ⟨[], .refl⟩

/-- The run lemma. -/
theorem Reaches.accounting {acc : σ} {p : Pool (State α σ) (Task α)} (h : F.Reaches items acc p)
    (hP : F.Rule P) (hitems : items ≠ []) (hacc : P acc items) :
    ∃ lost, F.Accounting P items lost p.shared p.tasks := by
  refine Machine.invariant (fun s ts => ∃ lost, F.Accounting P items lost s ts) h ?_
    ⟨[], accounting_start hitems hacc⟩ (fun i => nomatch i) ?_
  · rintro s ts ts' hperm ⟨lost, h⟩
    exact ⟨lost, h.of_perm hP hperm⟩
  · rintro s t ts k r - hr ⟨lost, h⟩
    exact accounting_fire hP hr h

/-- It ends at most once. -/
theorem Accounting.ends_length_le (h : F.Accounting P items lost s ts) : s.ends.length ≤ 1 := by
  rcases h.ends with ⟨-, -, hends⟩ | ⟨-, -, -, hends⟩
  · split_ifs at hends with hnil
    · obtain ⟨acc, hends, -⟩ := hends
      rw [hends, List.length_singleton]
    · rw [hends]
      exact Nat.zero_le _
  · rw [hends, List.length_singleton]

/-- It ends when nothing is open. -/
theorem Accounting.ends_ne_nil (h : F.Accounting P items lost s ts) (htodo : todo ts = [])
    (hawait : awaiting ts = []) : s.ends ≠ [] := by
  rcases h.ends with ⟨-, -, hends⟩ | ⟨-, -, -, hends⟩
  · rw [if_pos (by rw [htodo, hawait]; rfl)] at hends
    obtain ⟨acc, hends, -⟩ := hends
    simp [hends]
  · simp [hends]

/-- When it ends by the counter every item is accounted for, and those to send are sent. -/
theorem Accounting.counted (h : F.Accounting P items lost s ts) {acc : σ}
    (hcounted : .counted acc ∈ s.ends) : s.settled.Perm items ∧
      s.sent.Perm (items.filter fun x => F.issue x = .send) ∧ P acc [] ∧
        ∀ x ∈ items, F.issue x ≠ .throw := by
  rcases h.ends with ⟨rfl, -, hends⟩ | ⟨-, -, -, hends⟩
  · split_ifs at hends with hnil
    · obtain ⟨acc', hends, hacc⟩ := hends
      rw [hends, List.mem_singleton] at hcounted
      cases hcounted
      obtain ⟨hawait, htodo⟩ := List.append_eq_nil_iff.mp hnil
      have hall := h.all
      have hsent := h.sent
      have hthrowing := h.throwing
      rw [hawait, htodo] at hall
      rw [htodo] at hsent hthrowing
      refine ⟨by simpa using hall, by simpa using hsent, hacc, fun x hx hthrow => ?_⟩
      simpa using hthrowing x hx hthrow
    · simp [hends] at hcounted
  · simp [hends] at hcounted

/-- When it ends by an exception some item is not accounted for, and never will be. -/
theorem Accounting.thrown (h : F.Accounting P items lost s ts) (hthrown : .thrown ∈ s.ends) :
    ¬ s.settled.Perm items ∧ ∃ x ∈ items, F.issue x = .throw := by
  rcases h.ends with ⟨rfl, -, hends⟩ | ⟨hthrow, hlost, -, -⟩
  · split_ifs at hends with hnil
    · obtain ⟨acc, hends, -⟩ := hends
      simp [hends] at hthrown
    · simp [hends] at hthrown
  · refine ⟨fun hperm => ?_, hthrow⟩
    have hlength := h.all.length_eq
    have hpos := List.length_pos_iff.mpr hlost
    simp only [List.length_append, hperm.length_eq] at hlength
    omega

/-- Nothing else is ever sent. -/
theorem Accounting.issue_of_sent (h : F.Accounting P items lost s ts) (hx : x ∈ s.sent) :
    x ∈ items ∧ F.issue x = .send := by
  have hmem := h.sent.mem_iff.mp (List.mem_append_left _ hx)
  simpa using hmem

/-- If an item throws, the loop ends by it. -/
theorem Accounting.thrown_of_todo (h : F.Accounting P items lost s ts)
    (hthrow : ∃ x ∈ items, F.issue x = .throw) (htodo : todo ts = []) : s.ends = [.thrown] := by
  obtain ⟨x, hx, hthrow⟩ := hthrow
  have hlost := h.throwing x hx hthrow
  rw [htodo, List.nil_append] at hlost
  rcases h.ends with ⟨rfl, -, -⟩ | ⟨-, -, -, hends⟩
  · cases hlost
  · exact hends

end Accounting

/-! ## Runs -/

section Runs

variable (F : FanOut α σ κ)

/-- One item from its request to its answer, which is given for an item together with
whether the message arrives before it. -/
def serve (choice : α → Bool × κ) (acc : σ) (x : α) : Option σ :=
  match F.issue x with
  | .inline => some acc
  | .send => F.answer (if (choice x).1 then F.deliver acc x else acc) x (choice x).2
  | .throw => none

variable {F} {items : List α} {s : State α σ} {ts : List (Task α)}

theorem Reaches.fire {acc : σ} (h : F.Reaches items acc ⟨s, ts⟩) (n : Nat) (k : Option κ)
    (r : State α σ × List (Task α)) {t : Task α} (ht : ts[n]? = some t)
    (hfire : F.machine.fire s t k = some r) :
    F.Reaches items acc ⟨r.1, r.2 ++ ts.eraseIdx n⟩ :=
  Machine.Reaches.fire h n k ht trivial hfire

/-- The loop waits for every answer before it goes on. -/
theorem Reaches.serve (choice : α → Bool × κ) {acc₀ : σ} : ∀ {xs : List α} {acc : σ}
    {s : State α σ} {ts : List (Task α)}, F.Reaches items acc₀ ⟨s, .loop xs :: ts⟩ →
    s.pending = xs.length → s.ends = [] → xs.foldlM (F.serve choice) s.acc = some acc →
      ∃ p, F.Reaches items acc₀ p ∧ p.shared.acc = acc ∧
        (xs ≠ [] → p.shared.ends = [.counted acc])
  | [], acc, s, ts, h, _, _, hserve => by
      refine ⟨_, h, ?_, fun hne => absurd rfl hne⟩
      simpa using hserve
  | x :: xs, acc, s, ts, h, hpending, hends, hserve => by
      rw [List.foldlM_cons] at hserve
      obtain ⟨acc₁, hx, hxs⟩ := Option.bind_eq_some_iff.mp hserve
      rw [List.length_cons] at hpending
      -- settled with `acc₁`, after which the loop goes on
      have hnext : ∀ {s₁ : State α σ} {ts₁ : List (Task α)},
          F.Reaches items acc₀ ⟨s₁.settle x acc₁, .loop xs :: ts₁⟩ → s₁.pending = s.pending →
            s₁.ends = s.ends → ∃ p, F.Reaches items acc₀ p ∧ p.shared.acc = acc ∧
              (x :: xs ≠ [] → p.shared.ends = [.counted acc]) := by
        intro s₁ ts₁ h₁ hpending₁ hends₁
        have hcount : s₁.pending - 1 = xs.length := by
          rw [hpending₁, hpending]
          omega
        cases xs with
        | nil =>
            obtain rfl : acc₁ = acc := by simpa using hxs
            refine ⟨_, h₁, rfl, fun _ => ?_⟩
            show (if s₁.pending - 1 = 0 then _ else _) = _
            rw [if_pos (by simpa using hcount), hends₁, hends]
            rfl
        | cons y ys =>
            have hne : ¬ s₁.pending - 1 = 0 := by
              rw [hcount, List.length_cons]
              omega
            have hnone : (s₁.settle x acc₁).ends = [] := by
              show (if s₁.pending - 1 = 0 then _ else _) = _
              rw [if_neg hne, hends₁, hends]
            obtain ⟨p, hp, hpacc, hpends⟩ := Reaches.serve choice h₁ hcount hnone hxs
            exact ⟨p, hp, hpacc, fun _ => hpends (List.cons_ne_nil _ _)⟩
      unfold FanOut.serve at hx
      cases hissue : F.issue x with
      | inline =>
          rw [hissue] at hx
          cases hx
          have h₁ := h.fire 0 none (s.settle x s.acc, [.loop xs]) rfl
            (by simp only [machine, hissue])
          exact hnext h₁ rfl rfl
      | send =>
          rw [hissue] at hx
          have h₁ := h.fire 0 none ({ s with sent := s.sent ++ [x] },
            [.loop xs, .await x, .message x]) rfl (by simp only [machine, hissue])
          cases hdeliver : (choice x).1 with
          | false =>
              rw [hdeliver] at hx
              have h₂ := h₁.fire 1 (some (choice x).2) _ rfl
                (Option.map_eq_some_iff.mpr ⟨acc₁, hx, rfl⟩)
              exact hnext h₂ rfl rfl
          | true =>
              rw [hdeliver] at hx
              have h₂ := h₁.fire 2 none _ rfl rfl
              have h₃ := h₂.fire 1 (some (choice x).2) _ rfl
                (Option.map_eq_some_iff.mpr ⟨acc₁, hx, rfl⟩)
              exact hnext h₃ rfl rfl
      | throw =>
          rw [hissue] at hx
          cases hx

/-- A loop that comes to an item that throws, before any answer. -/
theorem Reaches.throw {acc₀ : σ} : ∀ {xs : List α} {s : State α σ} {ts : List (Task α)},
    F.Reaches items acc₀ ⟨s, .loop xs :: ts⟩ → (∃ x ∈ xs, F.issue x = .throw) →
      ∃ p, F.Reaches items acc₀ p ∧ .thrown ∈ p.shared.ends
  | [], _, _, _, hthrow => by
      obtain ⟨x, hx, -⟩ := hthrow
      cases hx
  | x :: xs, s, ts, h, hthrow => by
      cases hissue : F.issue x with
      | inline =>
          have h₁ := h.fire 0 none (s.settle x s.acc, [.loop xs]) rfl
            (by simp only [machine, hissue])
          exact Reaches.throw h₁ (by simpa [hissue] using hthrow)
      | send =>
          have h₁ := h.fire 0 none ({ s with sent := s.sent ++ [x] },
            [.loop xs, .await x, .message x]) rfl (by simp only [machine, hissue])
          exact Reaches.throw h₁ (by simpa [hissue] using hthrow)
      | throw =>
          have h₁ := h.fire 0 none ({ s with ends := s.ends ++ [.thrown] }, []) rfl
            (by simp only [machine, hissue])
          exact ⟨_, h₁, by simp⟩

end Runs

end FanOut

end Xenon.Foundation

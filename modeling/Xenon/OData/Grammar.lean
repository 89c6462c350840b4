import Xenon.OData.Expression

/-!
# What the visitor accepts

The walk never looks whether its tokens are one expression. It checks that an operator has a
comparison on either side and that it can read every comparison it meets; it does not check
that parens match, that there is one comparison between two operators, or that anything is
left once a closing paren has ended the outermost call (`tolerates`).
-/

namespace Xenon.OData

open Xenon.Foundation
open Xenon.Filter (Occurance)
open Xenon.QueryTask

variable {java : Java} {names : Option (List String)}

/-! ## Comparisons that can be read -/

/-- A comparison that the visitor does not fail at: a value that `Double.parseDouble` takes for
a number is one for `createRange`, and a wildcard has property names to unfold to. -/
def readable (java : Java) (names : Option (List String)) (left : String)
    (verb : Option BinaryVerb) (right : String) : Bool :=
  if isUnfoldQuery java left verb right then names.any (filterValueAllFields ∉ ·)
  else verb = some .any || verb = some .all || !isNumeric java right ||
    (parseNumber java right).isSome

theorem createRange_ok_iff (right : String) (v : ComparisonVerb) :
    (∃ r, createRange java right (some v.toVerb) = .ok r) ↔
      (parseNumber java right).isSome = true := by
  unfold createRange
  cases parseNumber java right with
  | none => simp
  | some d => cases v <;> simp [ComparisonVerb.toVerb]

theorem comparisonTerm_ok_iff (left right : String) (v : ComparisonVerb) :
    (∃ t, comparisonTerm java left (some v.toVerb) right = .ok t) ↔
      (!isNumeric java right || (parseNumber java right).isSome) = true := by
  unfold comparisonTerm
  cases hn : isNumeric java right with
  | false => simp
  | true =>
      rw [Bool.not_true, Bool.false_or, ← createRange_ok_iff right v]
      constructor
      · rintro ⟨t, ht⟩
        obtain ⟨r, hr, -⟩ := bind_eq_ok.mp ht
        exact ⟨r, hr⟩
      · rintro ⟨r, hr⟩
        exact ⟨_, bind_eq_ok.mpr ⟨r, hr, rfl⟩⟩

theorem visitProperty_ok_iff (left right : String) (v : ComparisonVerb) :
    (∃ q, visitProperty java left (some v.toVerb) right = .ok q) ↔
      (decide (v = .any) || decide (v = .all) || !isNumeric java right ||
        (parseNumber java right).isSome) = true := by
  have hcomparison (h₁ : v ≠ .any) (h₂ : v ≠ .all) :
      (∃ q, visitProperty java left (some v.toVerb) right = .ok q) ↔
        ∃ t, comparisonTerm java left (some v.toVerb) right = .ok t := by
    unfold visitProperty
    constructor
    · rintro ⟨q, hq⟩
      obtain ⟨o, -, hq⟩ := bind_eq_ok.mp hq
      rw [if_neg (by cases v <;> simp_all [ComparisonVerb.toVerb]),
        if_neg (by cases v <;> simp_all [ComparisonVerb.toVerb])] at hq
      obtain ⟨t, ht, -⟩ := bind_eq_ok.mp hq
      exact ⟨t, ht⟩
    · rintro ⟨t, ht⟩
      cases v <;> first
        | contradiction
        | exact ⟨_, bind_eq_ok.mpr ⟨_, rfl, bind_eq_ok.mpr ⟨t, ht, rfl⟩⟩⟩
  by_cases h₁ : v = .any
  · subst h₁
    exact iff_of_true ⟨_, rfl⟩ (by simp)
  · by_cases h₂ : v = .all
    · subst h₂
      exact iff_of_true ⟨_, rfl⟩ (by simp)
    · rw [hcomparison h₁ h₂, comparisonTerm_ok_iff]
      simp [h₁, h₂]

theorem mapM_ok_iff {α β ε : Type} {f : α → Except ε β} {xs : List α} :
    (∃ ys, xs.mapM f = .ok ys) ↔ ∀ x ∈ xs, ∃ y, f x = .ok y := by
  induction xs with
  | nil => exact iff_of_true ⟨[], rfl⟩ nofun
  | cons x xs ih =>
      rw [List.forall_mem_cons, ← ih]
      simp only [List.mapM_cons]
      constructor
      · rintro ⟨ys, hys⟩
        obtain ⟨y, hy, hys⟩ := bind_eq_ok.mp hys
        obtain ⟨ys', hys', -⟩ := bind_eq_ok.mp hys
        exact ⟨⟨y, hy⟩, ys', hys'⟩
      · rintro ⟨⟨y, hy⟩, ys, hys⟩
        exact ⟨_, bind_eq_ok.mpr ⟨y, hy, bind_eq_ok.mpr ⟨ys, hys, rfl⟩⟩⟩

theorem unfoldClause_ok_iff {right : String} (hright : isNumeric java right = false)
    (v : ComparisonVerb) (name : String) :
    (∃ q, unfoldClause java (some v.toVerb) right name = .ok q) ↔ name ≠ filterValueAllFields := by
  unfold unfoldClause
  split_ifs with hname
  · simp [hname]
  · obtain ⟨⟨o, t, qs⟩, hq⟩ := (@visitProperty_ok_iff java name right v).mpr (by
      simp [hright])
    exact iff_of_true ⟨_, bind_eq_ok.mpr ⟨_, hq, rfl⟩⟩ hname

/-- `readable` says when `visitBinaryComparator` returns. -/
theorem visitBinaryComparator_ok_iff (left right : String) (v : ComparisonVerb) :
    (∃ q, visitBinaryComparator java names left (some v.toVerb) right = .ok q) ↔
      readable java names left (some v.toVerb) right = true := by
  unfold visitBinaryComparator readable
  split_ifs with hunfold
  · have hright : isNumeric java right = false := by
      simp only [isUnfoldQuery, Bool.and_eq_true, Bool.not_eq_true'] at hunfold
      exact hunfold.2
    obtain ⟨o, ho⟩ : ∃ o, convertToLuceneOccur (some v.toVerb) = .ok o := by
      cases v <;> exact ⟨_, rfl⟩
    rw [ho]
    cases names with
    | none => exact iff_of_false (fun ⟨q, hq⟩ => nomatch hq) (by simp)
    | some names =>
        have hall : (∃ qs, names.mapM (unfoldClause java (some v.toVerb) right) = .ok qs) ↔
            (some names).any (filterValueAllFields ∉ ·) = true := by
          rw [mapM_ok_iff]
          simp only [unfoldClause_ok_iff hright, Option.any_some, decide_eq_true_eq]
          exact ⟨fun h hmem => h _ hmem rfl, fun h name hname heq => h (heq ▸ hname)⟩
        rw [← hall]
        constructor
        · rintro ⟨q, hq⟩
          obtain ⟨_, -, hq⟩ := bind_eq_ok.mp hq
          obtain ⟨qs, hqs, -⟩ := bind_eq_ok.mp hq
          exact ⟨qs, hqs⟩
        · rintro ⟨qs, hqs⟩
          exact ⟨_, bind_eq_ok.mpr ⟨o, rfl, bind_eq_ok.mpr ⟨qs, hqs, rfl⟩⟩⟩
  · rw [visitProperty_ok_iff]
    cases v <;> simp [ComparisonVerb.toVerb]

/-! ## Scanning -/

/-- The scan of the items as the walk does it. `pending` counts the parens and the operators
that nothing has closed. `missing` counts the opening parens since the last operator, until a
comparison follows; then it is `none`. `opened` says that the last item was an opening
paren. -/
def tolerates (java : Java) (names : Option (List String)) :
    (pending : Nat) → (missing : Option Nat) → (opened : Bool) → List Item → Bool
  | _, missing, opened, [] => missing.isNone && !opened
  | pending, missing, _, .openParen :: is =>
      tolerates java names (pending + 1) (missing.map (· + 1)) true is
  | pending, _, _, .comparison l v r :: is =>
      readable java names l (stringToVerb v) r && tolerates java names pending none false is
  | pending, missing, _, .operator _ :: is =>
      missing.isNone && tolerates java names (pending + 1) (some 0) false is
  -- an operator without its right side, or nothing at all
  | _, some 0, _, .closeParen :: _ => false
  | pending, some (k + 1), _, .closeParen :: is =>
      tolerates java names (pending - 1) (some k) false is
  -- the outermost call returns, and the rest is not looked at
  | 0, none, _, .closeParen :: _ => true
  | pending + 1, none, _, .closeParen :: is => tolerates java names pending none false is
  | _, _, _, .bad _ :: _ => false

/-- The verbs of an item are known. -/
def Item.WellFormed : Item → Prop
  | .comparison _ v _ => ∃ w : ComparisonVerb, v = w.toVerb.operator
  | .operator v => ∃ op : Connective, v = op.toVerb.operator
  | _ => True

theorem exists_comparisonVerb {s : String} (h : s ∈ binaryComparisons) :
    ∃ v : ComparisonVerb, s = v.toVerb.operator := by
  simp only [binaryComparisons, List.mem_cons, List.not_mem_nil, or_false] at h
  rcases h with rfl | rfl | rfl | rfl | rfl | rfl | rfl | rfl
  · exact ⟨.eq, rfl⟩
  · exact ⟨.ne, rfl⟩
  · exact ⟨.lt, rfl⟩
  · exact ⟨.gt, rfl⟩
  · exact ⟨.le, rfl⟩
  · exact ⟨.ge, rfl⟩
  · exact ⟨.any, rfl⟩
  · exact ⟨.all, rfl⟩

theorem exists_connective {s : String} (h : s ∈ binaryOperators) :
    ∃ op : Connective, s = op.toVerb.operator := by
  simp only [binaryOperators, List.mem_cons, List.not_mem_nil, or_false] at h
  rcases h with rfl | rfl
  · exact ⟨.and, rfl⟩
  · exact ⟨.or, rfl⟩

theorem wellFormed_items (tokens : List ODataToken) (h : ∀ t ∈ tokens, t.WellFormed) :
    ∀ i ∈ items tokens, i.WellFormed := by
  fun_induction items tokens with
  | case1 => exact nofun
  | case2 t tokens hkind ih =>
      exact List.forall_mem_cons.mpr ⟨trivial, ih fun t ht => h t (List.mem_cons_of_mem _ ht)⟩
  | case3 t tokens hkind ih =>
      exact List.forall_mem_cons.mpr ⟨trivial, ih fun t ht => h t (List.mem_cons_of_mem _ ht)⟩
  | case4 t tokens hkind ih =>
      have ht := h t List.mem_cons_self
      exact List.forall_mem_cons.mpr ⟨exists_connective (ht.operator hkind),
        ih fun t ht => h t (List.mem_cons_of_mem _ ht)⟩
  | case5 => simp [Item.WellFormed]
  | case6 => simp [Item.WellFormed]
  | case7 => simp [Item.WellFormed]
  | case8 => simp [Item.WellFormed]
  | case9 t hkind verb hverb right tokens hright ih =>
      have hv := h verb (by simp)
      refine List.forall_mem_cons.mpr ⟨exists_comparisonVerb (hv.comparison ?_),
        ih fun t ht => h t (by simp [ht])⟩
      simpa using hverb
  | case10 => simp [Item.WellFormed]

/-! ## The scan decides what is accepted -/

/-- A frame whose call can return. -/
def Frame.Sound : Frame Query → Prop
  | .paren => True
  | .operand left op => left.isSome ∧ ∃ c : Connective, op = some c.toVerb

theorem visitBinaryOperator_sound {left : Option Query} {op : Option BinaryVerb}
    (h : (Frame.operand left op).Sound) (q : Query) :
    ∃ q', visitBinaryOperator left op (some q) = .ok q' := by
  obtain ⟨hleft, c, rfl⟩ := h
  obtain ⟨l, rfl⟩ := Option.isSome_iff_exists.mp hleft
  cases c <;> exact ⟨_, rfl⟩

theorem visitBinaryOperator_null_right (left : Option Query) (op : Option BinaryVerb) :
    visitBinaryOperator left op none = .error .nullPointer := by
  unfold visitBinaryOperator
  split <;> simp_all

/-- At the end of the tokens a value is returned exactly if there is one. -/
theorem finish_some_iff {stack : List (Frame Query)} (hsound : ∀ f ∈ stack, f.Sound) :
    ∀ value : Option Query,
      (∃ q, finish (queryVisits java names) stack value = .ok (some q)) ↔ value.isSome = true := by
  induction stack with
  | nil =>
      intro value
      cases value <;> simp [finish]
  | cons f stack ih =>
      intro value
      have ih := ih fun f hf => hsound f (List.mem_cons_of_mem _ hf)
      cases f with
      | paren => exact ih value
      | operand left op =>
          cases value with
          | none =>
              simp only [finish, queryVisits, visitBinaryOperator_null_right]
              refine iff_of_false ?_ (by simp)
              rintro ⟨q, hq⟩
              cases hq
          | some q =>
              obtain ⟨q', hq'⟩ := visitBinaryOperator_sound (hsound _ List.mem_cons_self) q
              simp only [finish, queryVisits, hq']
              exact (ih (some q')).trans (by simp)

theorem finish_null_left {stack : List (Frame Query)} {op : Option BinaryVerb}
    (h : .operand none op ∈ stack) : ∀ {value r},
      finish (queryVisits java names) stack value ≠ .ok r := by
  induction stack with
  | nil => cases h
  | cons f stack ih =>
      intro value r hr
      cases f with
      | paren => exact ih (by simpa using h) hr
      | operand left op' =>
          obtain ⟨q, hq, hr⟩ := bind_eq_ok.mp hr
          rcases List.mem_cons.mp h with heq | hmem
          · cases heq
            cases hq
          · exact ih hmem hr

/-- An operator without a left side fails, sooner or later. -/
theorem run_null_left (is : List Item) : ∀ {stack : List (Frame Query)} {op : Option BinaryVerb},
    .operand none op ∈ stack → ∀ {left entered r},
      run (queryVisits java names) stack left entered is ≠ .ok r := by
  induction is with
  | nil =>
      intro stack op h left entered r hr
      simp only [run] at hr
      exact finish_null_left h hr
  | cons i is ih =>
      intro stack op h left entered r hr
      cases i with
      | comparison l v r' =>
          simp only [run] at hr
          obtain ⟨q, -, hr⟩ := bind_eq_ok.mp hr
          exact ih h hr
      | openParen =>
          simp only [run] at hr
          exact ih (List.mem_cons_of_mem _ h) hr
      | operator v =>
          simp only [run] at hr
          exact ih (List.mem_cons_of_mem _ h) hr
      | bad failure => simp [run] at hr
      | closeParen =>
          rcases stack with _ | ⟨_ | ⟨l, op'⟩, stack⟩
          · cases h
          · simp only [run] at hr
            exact ih (by simpa using h) hr
          · simp only [run] at hr
            obtain ⟨q, hq, hr⟩ := bind_eq_ok.mp hr
            rcases List.mem_cons.mp h with heq | hmem
            · cases heq
              cases hq
            · exact ih hmem hr

/-- The state of the scan against that of the machine. -/
structure Tracks (stack : List (Frame Query)) (left : Option Query) (entered : Bool)
    (missing : Option Nat) (opened : Bool) : Prop where
  sound : ∀ f ∈ stack, f.Sound
  value : missing = none ↔ left.isSome = true
  flags : left.isSome = true → entered = opened
  /-- Only parens have been opened since the last operator. -/
  parens : ∀ k, missing = some k → ∃ below, stack = List.replicate k .paren ++ below ∧
    ∀ f ∈ below.head?, f ≠ .paren

theorem Tracks.comparison {stack : List (Frame Query)} {left : Option Query} {entered : Bool}
    {missing : Option Nat} {opened : Bool} (h : Tracks stack left entered missing opened)
    (q : Query) : Tracks stack (some q) false none false :=
  ⟨h.sound, by simp, by simp, nofun⟩

theorem Tracks.openParen {stack : List (Frame Query)} {left : Option Query} {entered : Bool}
    {missing : Option Nat} {opened : Bool} (h : Tracks stack left entered missing opened) :
    Tracks (.paren :: stack) left true (missing.map (· + 1)) true := by
  refine ⟨List.forall_mem_cons.mpr ⟨trivial, h.sound⟩, ?_, fun _ => rfl, ?_⟩
  · rw [← h.value]
    simp
  · intro k hk
    obtain ⟨j, hj, rfl⟩ := Option.map_eq_some_iff.mp hk
    obtain ⟨below, rfl, hbelow⟩ := h.parens j hj
    exact ⟨below, rfl, hbelow⟩

theorem Tracks.operator {stack : List (Frame Query)} {q : Query} {entered : Bool}
    {missing : Option Nat} {opened : Bool} (h : Tracks stack (some q) entered missing opened)
    (op : Connective) :
    Tracks (.operand (some q) (some op.toVerb) :: stack) none true (some 0) false := by
  refine ⟨List.forall_mem_cons.mpr ⟨⟨rfl, op, rfl⟩, h.sound⟩, by simp, by simp, ?_⟩
  rintro k ⟨⟩
  refine ⟨_, rfl, ?_⟩
  rintro f ⟨⟩
  exact nofun

/-- **The visitor accepts what the scan tolerates.** -/
theorem run_some_iff (is : List Item) (hwf : ∀ i ∈ is, i.WellFormed) :
    ∀ {stack : List (Frame Query)} {left : Option Query} {entered : Bool} {missing : Option Nat}
      {opened : Bool}, Tracks stack left entered missing opened →
        ((∃ q, run (queryVisits java names) stack left entered is = .ok (some q)) ↔
          tolerates java names stack.length missing opened is = true) := by
  -- the induction is on the items; `Tracks` ties the numbers of the scan to the stack of the
  -- machine, and each item but the closing paren keeps it by a lemma of its own
  induction is with
  | nil =>
      intro stack left entered missing opened h
      simp only [run, tolerates]
      rw [finish_some_iff h.sound, Bool.and_eq_true, Option.isNone_iff_eq_none, h.value,
        Bool.not_eq_true']
      constructor
      · intro hsome
        cases entered with
        | true => simp at hsome
        | false => exact ⟨hsome, (h.flags hsome).symm⟩
      · rintro ⟨hsome, hopened⟩
        rw [h.flags hsome, hopened]
        exact hsome
  | cons i is ih =>
      intro stack left entered missing opened h
      have hi := hwf i List.mem_cons_self
      have ih := @ih fun i hi => hwf i (List.mem_cons_of_mem _ hi)
      cases i with
      | comparison l v r =>
          obtain ⟨w, rfl⟩ := hi
          simp only [run, tolerates, stringToVerb_operator, Bool.and_eq_true]
          rw [← visitBinaryComparator_ok_iff]
          constructor
          · rintro ⟨q, hq⟩
            obtain ⟨q', hq', hq⟩ := bind_eq_ok.mp hq
            exact ⟨⟨q', hq'⟩, (ih (h.comparison q')).mp ⟨q, hq⟩⟩
          · rintro ⟨⟨q', hq'⟩, hrest⟩
            obtain ⟨q, hq⟩ := (ih (h.comparison q')).mpr hrest
            exact ⟨q, bind_eq_ok.mpr ⟨q', hq', hq⟩⟩
      | openParen =>
          simp only [run, tolerates]
          exact ih h.openParen
      | operator v =>
          obtain ⟨op, rfl⟩ := hi
          simp only [run, tolerates, stringToVerb_operator, Bool.and_eq_true,
            Option.isNone_iff_eq_none]
          rw [h.value]
          cases left with
          | none =>
              -- an operator without a left side fails, sooner or later
              exact iff_of_false (fun ⟨q, hq⟩ => run_null_left is List.mem_cons_self hq) (by simp)
          | some q => exact (ih (h.operator op)).trans (by simp)
      | bad failure => simp [run, tolerates]
      | closeParen =>
          match missing, left, h with
          | none, none, h => exact absurd (h.value.mp rfl) (by simp)
          | some k, some q, h => exact absurd (h.value.mpr rfl) (by simp)
          | none, some q, h =>
              -- the outermost call returns, a paren is closed, or an operator gets its right side
              rcases stack with _ | ⟨_ | ⟨l, op⟩, stack⟩
              · simp [run, tolerates]
              · simp only [run, tolerates, List.length_cons]
                exact ih ⟨fun f hf => h.sound f (List.mem_cons_of_mem _ hf), by simp, by simp,
                  nofun⟩
              · obtain ⟨q', hq'⟩ := visitBinaryOperator_sound (h.sound _ List.mem_cons_self) q
                simp only [run, tolerates, List.length_cons, queryVisits, hq']
                exact ih ⟨fun f hf => h.sound f (List.mem_cons_of_mem _ hf), by simp, by simp,
                  nofun⟩
          | some 0, none, h =>
              obtain ⟨_, rfl, hbelow⟩ := h.parens 0 rfl
              -- the paren follows an operator: its right side is null
              rcases stack with _ | ⟨_ | ⟨l, op⟩, stack⟩
              · simp [run, tolerates]
              · exact absurd rfl (hbelow _ rfl)
              · simp only [run, tolerates, queryVisits, visitBinaryOperator_null_right]
                refine iff_of_false ?_ (by simp)
                rintro ⟨q, hq⟩
                cases hq
          | some (k + 1), none, h =>
              obtain ⟨below, hstack, hbelow⟩ := h.parens (k + 1) rfl
              rw [List.replicate_succ, List.cons_append] at hstack
              subst hstack
              simp only [run, tolerates, List.length_cons, Nat.add_sub_cancel]
              refine ih ⟨fun f hf => h.sound f (List.mem_cons_of_mem _ hf), by simp, by simp, ?_⟩
              rintro _ ⟨⟩
              exact ⟨below, rfl, hbelow⟩

/-- The initial state of the walk. -/
theorem Tracks.init : Tracks [] none true (some 0) false :=
  ⟨nofun, by simp, by simp, by rintro _ ⟨⟩; exact ⟨[], rfl, nofun⟩⟩

/-! ## The scan over an expression -/

def Comparison.readable (java : Java) (names : Option (List String)) (c : Comparison) : Bool :=
  OData.readable java names c.left (some c.verb.toVerb) c.right

mutual

/-- The scan gets past an operand whose comparisons can be read. -/
theorem Primary.tolerates_items : ∀ (p : Primary) (pending : Nat) (missing : Option Nat)
    (opened : Bool) (rest : List Item), ∃ pending' ≥ pending,
      tolerates java names pending missing opened (p.items ++ rest) =
        (p.comparisons.all (Comparison.readable java names) &&
          tolerates java names pending' none false rest)
  | .comparison c, pending, missing, opened, rest => by
      refine ⟨pending, le_rfl, ?_⟩
      simp [Primary.items, Comparison.item, tolerates, stringToVerb_operator,
        Primary.comparisons, Comparison.readable]
  | .paren e, pending, missing, opened, rest => by
      obtain ⟨pending', hle, he⟩ := e.tolerates_items (pending + 1) (missing.map (· + 1)) true
        (.closeParen :: rest)
      obtain ⟨m, rfl⟩ : ∃ m, pending' = m + 1 := ⟨pending' - 1, by omega⟩
      refine ⟨m, by omega, ?_⟩
      simp only [Primary.items, List.cons_append, List.append_assoc, List.nil_append, tolerates,
        Primary.comparisons, he]

theorem Expr.tolerates_items : ∀ (e : Expr) (pending : Nat) (missing : Option Nat)
    (opened : Bool) (rest : List Item), ∃ pending' ≥ pending,
      tolerates java names pending missing opened (e.items ++ rest) =
        (e.comparisons.all (Comparison.readable java names) &&
          tolerates java names pending' none false rest)
  | .one p, pending, missing, opened, rest => p.tolerates_items pending missing opened rest
  | .chain p op e, pending, missing, opened, rest => by
      obtain ⟨n, hn, hp⟩ := p.tolerates_items pending missing opened
        (.operator op.toVerb.operator :: (e.items ++ rest))
      obtain ⟨m, hm, he⟩ := e.tolerates_items (n + 1) (some 0) false rest
      refine ⟨m, by omega, ?_⟩
      simp only [Expr.items, List.append_assoc, List.cons_append, hp, tolerates, he,
        Expr.comparisons, List.all_append, Option.isNone_none, Bool.true_and, Bool.and_assoc]

end

/-- Of expressions the scan tolerates those that can be read. -/
theorem Expr.tolerates_iff (e : Expr) : tolerates java names 0 (some 0) false e.items = true ↔
    ∀ c ∈ e.comparisons, c.readable java names = true := by
  obtain ⟨pending, -, h⟩ := @Expr.tolerates_items java names e 0 (some 0) false []
  rw [List.append_nil] at h
  simp [h, tolerates]

/-! ## The terms of the query -/

/-- The query for a comparison that can be read. -/
def Comparison.query (java : Java) (names : Option (List String)) (c : Comparison) : Query :=
  match visitBinaryComparator java names c.left (some c.verb.toVerb) c.right with
  | .ok q => q
  | .error _ => .mk none none none

/-- `visitBinaryOperator` for two queries. -/
def joinQueries : Connective → Query → Query → Query
  | .and => joinClauses .mustOccur .shouldOccur
  | .or => joinClauses .shouldOccur .mustOccur

theorem returns_queryVisits {cs : List Comparison}
    (h : ∀ c ∈ cs, c.readable java names = true) :
    (queryVisits java names).Returns (Comparison.query java names) joinQueries cs := by
  constructor
  · intro c hc
    obtain ⟨q, hq⟩ := (visitBinaryComparator_ok_iff c.left c.right c.verb).mpr (h c hc)
    simp [queryVisits, Comparison.query, hq]
  · intro op l r
    cases op <;> rfl

theorem Expr.items_self (e : Expr) : OData.items e.tokens = e.items := by
  have h := e.items_tokens []
  rwa [List.append_nil, show OData.items [] = [] by simp [OData.items], List.append_nil] at h

/-- The query of a `$filter` that is an expression. -/
theorem toQuery_expr {filterExp : String} {e : Expr}
    (htokens : tokenize java filterExp = .ok e.tokens)
    (h : ∀ c ∈ e.comparisons, c.readable java names = true) :
    toQuery java names filterExp =
      .ok (some (e.visited.eval (Comparison.query java names) joinQueries)) := by
  rw [toQuery_eq, htokens]
  show run _ _ _ _ (items e.tokens) = _
  rw [e.items_self]
  exact e.run_visited (returns_queryVisits h)

mutual

/-- Where the walk returns, it has read the comparisons. -/
theorem Primary.readable_of_run : ∀ (p : Primary) {stack : List (Frame Query)}
    {left : Option Query} {entered : Bool} {rest : List Item} {r : Option Query},
      run (queryVisits java names) stack left entered (p.items ++ rest) = .ok r →
        ∀ c ∈ p.comparisons, c.readable java names = true
  | .comparison c, stack, left, entered, rest, r, h => by
      simp only [Primary.items, Comparison.item, List.cons_append, List.nil_append, run,
        stringToVerb_operator] at h
      obtain ⟨q, hq, -⟩ := bind_eq_ok.mp h
      intro c' hc
      obtain rfl : c' = c := by simpa [Primary.comparisons] using hc
      exact (visitBinaryComparator_ok_iff c'.left c'.right c'.verb).mp ⟨q, hq⟩
  | .paren e, stack, left, entered, rest, r, h => by
      simp only [Primary.items, List.cons_append, List.append_assoc, run] at h
      exact e.readable_of_run h

theorem Expr.readable_of_run : ∀ (e : Expr) {stack : List (Frame Query)}
    {left : Option Query} {entered : Bool} {rest : List Item} {r : Option Query},
      run (queryVisits java names) stack left entered (e.items ++ rest) = .ok r →
        ∀ c ∈ e.comparisons, c.readable java names = true
  | .one p, stack, left, entered, rest, r, h => p.readable_of_run h
  | .chain p op e, stack, left, entered, rest, r, h => by
      rw [Expr.items, List.append_assoc] at h
      have hp := p.readable_of_run h
      rw [p.run_items (returns_queryVisits hp), List.cons_append, run] at h
      intro c hc
      exact (List.mem_append.mp hc).elim (hp c) (e.readable_of_run h c)

end

/-- What the visitor returns for an expression is the query of its tree. -/
theorem Expr.toQuery_visited {filterExp : String} {e : Expr} {r : Option Query}
    (htokens : tokenize java filterExp = .ok e.tokens)
    (h : toQuery java names filterExp = .ok r) :
    (∀ c ∈ e.comparisons, c.readable java names = true) ∧
      r = some (e.visited.eval (Comparison.query java names) joinQueries) := by
  have hreadable : ∀ c ∈ e.comparisons, c.readable java names = true := by
    rw [toQuery_eq, htokens] at h
    change run _ _ _ _ (OData.items e.tokens) = _ at h
    rw [e.items_self, ← List.append_nil e.items] at h
    exact e.readable_of_run h
  rw [toQuery_expr htokens hreadable] at h
  exact ⟨hreadable, (Except.ok.inj h).symm⟩

theorem terms_setOccurance (o : Occurance) (q : Query) : (setOccurance o q).terms = q.terms := by
  obtain ⟨o', t, qs⟩ := q
  simp [setOccurance, Query.terms_mk]

theorem terms_forceOccurance (o : Occurance) (q : Query) :
    (forceOccurance o q).terms = q.terms := by
  obtain ⟨o', t, qs⟩ := q
  simp [forceOccurance, Query.terms_mk]

theorem terms_joinQueries (op : Connective) (l r : Query) :
    (joinQueries op l r).terms = l.terms ++ r.terms := by
  cases op <;> simp only [joinQueries, joinClauses] <;> split_ifs <;>
    simp [Query.ofClauses, Query.terms_mk, terms_setOccurance, terms_forceOccurance]

theorem terms_eval {leaf : Comparison → Query} (T : Tree) :
    (T.eval leaf joinQueries).terms = T.comparisons.flatMap fun c => (leaf c).terms := by
  induction T with
  | leaf c => simp [Tree.eval, Tree.comparisons]
  | node op l r hl hr =>
      rw [Tree.eval, terms_joinQueries, hl, hr, Tree.comparisons, List.flatMap_append]

/-! ## The comparisons of a token list -/

/-- The comparisons that stand in a token list, as texts. -/
def comparisons : List ODataToken → List (String × String × String)
  | left :: verb :: right :: tokens =>
      if left.kind = .simpleType ∧ verb.kind = .binaryComparison ∧ right.kind = .simpleType then
        (left.uriLiteral, verb.uriLiteral, right.uriLiteral) :: comparisons tokens
      else comparisons (verb :: right :: tokens)
  | _ => []

def Comparison.texts (c : Comparison) : String × String × String :=
  (c.left, c.verb.toVerb.operator, c.right)

theorem comparisons_cons {t : ODataToken} (ht : t.kind ≠ .simpleType)
    (tokens : List ODataToken) : comparisons (t :: tokens) = comparisons tokens := by
  rcases tokens with _ | ⟨verb, _ | ⟨right, tokens⟩⟩
  · simp [comparisons]
  · simp [comparisons]
  · simp [comparisons, ht]

mutual

theorem Primary.comparisons_tokens : ∀ (p : Primary) (rest : List ODataToken),
    OData.comparisons (p.tokens ++ rest) =
      p.comparisons.map Comparison.texts ++ OData.comparisons rest
  | .comparison c, rest => by
      simp [Primary.tokens, Comparison.tokens, OData.comparisons, Primary.comparisons,
        Comparison.texts]
  | .paren e, rest => by
      simp only [Primary.tokens, List.cons_append, List.append_assoc, List.nil_append,
        Primary.comparisons]
      rw [comparisons_cons (by simp), e.comparisons_tokens, comparisons_cons (by simp)]

theorem Expr.comparisons_tokens : ∀ (e : Expr) (rest : List ODataToken),
    OData.comparisons (e.tokens ++ rest) =
      e.comparisons.map Comparison.texts ++ OData.comparisons rest
  | .one p, rest => p.comparisons_tokens rest
  | .chain p op e, rest => by
      simp only [Expr.tokens, List.append_assoc, List.cons_append, Expr.comparisons,
        List.map_append]
      rw [p.comparisons_tokens, comparisons_cons (by simp), e.comparisons_tokens]

end

/-- A comparison without `any`, `all` and the wildcard for all fields. -/
def Plain : String × String × String → Prop
  | (left, verb, _) => verb ≠ "any" ∧ verb ≠ "all" ∧ left ≠ filterValueAllFields

/-- A term is that of a comparison: the property, and the value as a range if it is a number
or else as a text without its quotes. -/
def IsTermOf (java : Java) : String × String × String → QueryTerm → Prop
  | (left, verb, right), t =>
      t.propertyName = some left ∧
        if isNumeric java right then
          t.matchValue = none ∧ createRange java right (stringToVerb verb) = .ok t.range
        else t.matchValue = some (String.ofList (unquote right.toList)) ∧ t.range = none

theorem comparisonTerm_isTermOf {c : Comparison} {t : QueryTerm}
    (h : comparisonTerm java c.left (some c.verb.toVerb) c.right = .ok t) :
    IsTermOf java c.texts t := by
  unfold comparisonTerm at h
  cases hnumeric : isNumeric java c.right with
  | true =>
      rw [if_pos hnumeric] at h
      obtain ⟨r, hr, h⟩ := bind_eq_ok.mp h
      cases h
      simp [IsTermOf, Comparison.texts, hnumeric, stringToVerb_operator, hr]
  | false =>
      rw [if_neg (by simp [hnumeric])] at h
      cases h
      simp [IsTermOf, Comparison.texts, hnumeric]

/-- A plain comparison is one term. -/
theorem Comparison.terms_query {c : Comparison} (hplain : Plain c.texts)
    (hreadable : c.readable java names = true) :
    ∃ t, (c.query java names).terms = [t] ∧ IsTermOf java c.texts t := by
  obtain ⟨hany, hall, hleft⟩ := hplain
  have hany : some c.verb.toVerb ≠ some .any := fun h =>
    hany (congrArg BinaryVerb.operator (Option.some.inj h))
  have hall : some c.verb.toVerb ≠ some .all := fun h =>
    hall (congrArg BinaryVerb.operator (Option.some.inj h))
  obtain ⟨q, hq⟩ := (visitBinaryComparator_ok_iff c.left c.right c.verb).mpr hreadable
  have hquery : c.query java names = q := by simp [Comparison.query, hq]
  unfold visitBinaryComparator at hq
  rw [if_neg (by simp [isUnfoldQuery, hleft])] at hq
  unfold visitProperty at hq
  obtain ⟨o, -, hq⟩ := bind_eq_ok.mp hq
  rw [if_neg hany, if_neg hall] at hq
  obtain ⟨t, ht, hq⟩ := bind_eq_ok.mp hq
  cases hq
  exact ⟨t, by simp [hquery, Query.ofTerm, Query.terms_mk], comparisonTerm_isTermOf ht⟩

theorem forall₂_flatMap {ι β γ : Type} {R : β → γ → Prop} {f : ι → List γ} {g : ι → β}
    {xs : List ι} (h : ∀ x ∈ xs, ∃ y, f x = [y] ∧ R (g x) y) :
    List.Forall₂ R (xs.map g) (xs.flatMap f) := by
  induction xs with
  | nil => exact .nil
  | cons x xs ih =>
      obtain ⟨y, hy, hR⟩ := h x List.mem_cons_self
      rw [List.map_cons, List.flatMap_cons, hy]
      exact .cons hR (ih fun x hx => h x (List.mem_cons_of_mem _ hx))

/-! ## Acceptance against the grammar -/

/-- The tokens are one expression. -/
def Grammatical (tokens : List ODataToken) : Prop := ∃ e : Expr, e.tokens = tokens

/-- The visitor accepts a string exactly if its tokens are an expression, and what it accepts
has one term for every comparison. -/
structure ParsesGrammar (java : Java) (names : Option (List String)) (filterExp : String) :
    Prop where
  accepts : (∃ q, toQuery java names filterExp = .ok (some q)) ↔
    ∃ tokens, tokenize java filterExp = .ok tokens ∧ Grammatical tokens
  terms : ∀ tokens q, tokenize java filterExp = .ok tokens →
    toQuery java names filterExp = .ok (some q) → (∀ c ∈ comparisons tokens, Plain c) →
      List.Forall₂ (IsTermOf java) (comparisons tokens) q.terms

/-- The visitor can read all comparisons. -/
def Readable (java : Java) (names : Option (List String)) (tokens : List ODataToken) : Prop :=
  ∀ c ∈ comparisons tokens, readable java names c.1 (stringToVerb c.2.1) c.2.2 = true

/-- The visitor accepts tokens, whether they are an expression or not. -/
def Tolerated (java : Java) (names : Option (List String)) (tokens : List ODataToken) : Prop :=
  tolerates java names 0 (some 0) false (items tokens) = true

theorem toQuery_some_iff {filterExp : String} {tokens : List ODataToken}
    (htokens : tokenize java filterExp = .ok tokens) :
    (∃ q, toQuery java names filterExp = .ok (some q)) ↔ Tolerated java names tokens := by
  rw [toQuery_eq, htokens]
  exact run_some_iff (items tokens) (wellFormed_items tokens (wellFormed_tokenize htokens))
    Tracks.init

theorem Expr.comparisons_self (e : Expr) :
    OData.comparisons e.tokens = e.comparisons.map Comparison.texts := by
  have h := e.comparisons_tokens []
  rwa [List.append_nil, show OData.comparisons [] = [] by simp [OData.comparisons],
    List.append_nil] at h

theorem Expr.readable_iff (e : Expr) : Readable java names e.tokens ↔
    ∀ c ∈ e.comparisons, c.readable java names = true := by
  rw [Readable, e.comparisons_self]
  simp [Comparison.texts, stringToVerb_operator, Comparison.readable]

theorem Expr.tolerated_iff (e : Expr) :
    Tolerated java names e.tokens ↔ Readable java names e.tokens := by
  rw [Tolerated, e.items_self, e.tolerates_iff, e.readable_iff]

theorem Expr.terms_toQuery {filterExp : String} {e : Expr} {q : Query}
    (htokens : tokenize java filterExp = .ok e.tokens)
    (hq : toQuery java names filterExp = .ok (some q))
    (hplain : ∀ c ∈ OData.comparisons e.tokens, Plain c) :
    List.Forall₂ (IsTermOf java) (OData.comparisons e.tokens) q.terms := by
  obtain ⟨hreadable, heval⟩ := Expr.toQuery_visited htokens hq
  cases heval
  rw [e.comparisons_self] at hplain ⊢
  rw [terms_eval, e.comparisons_visited]
  refine forall₂_flatMap fun c hc => ?_
  exact Comparison.terms_query (hplain _ (List.mem_map_of_mem hc)) (hreadable c hc)

/-- **The visitor parses the grammar** on the strings whose tokens are an expression that it can
read, and on the other ones that it fails at: no comparison on one side of an operator, an
opening paren at the end, a token out of place or a comparison that it cannot read. -/
theorem parses_grammar_iff (java : Java) (names : Option (List String)) (filterExp : String) :
    ParsesGrammar java names filterExp ↔ ∀ tokens, tokenize java filterExp = .ok tokens →
      (Grammatical tokens ∧ Readable java names tokens) ∨
        (¬ Grammatical tokens ∧ ¬ Tolerated java names tokens) := by
  constructor
  · intro h tokens htokens
    have haccepts := h.accepts
    rw [toQuery_some_iff htokens] at haccepts
    by_cases hgrammar : Grammatical tokens
    · obtain ⟨e, rfl⟩ := hgrammar
      have := haccepts.mpr ⟨_, htokens, e, rfl⟩
      exact Or.inl ⟨⟨e, rfl⟩, e.tolerated_iff.mp this⟩
    · refine Or.inr ⟨hgrammar, fun htolerated => hgrammar ?_⟩
      obtain ⟨tokens', htokens', h'⟩ := haccepts.mp htolerated
      rw [htokens] at htokens'
      cases htokens'
      exact h'
  · intro h
    constructor
    · constructor
      · rintro ⟨q, hq⟩
        rw [toQuery_eq] at hq
        obtain ⟨tokens, htokens, -⟩ := bind_eq_ok.mp hq
        rw [← toQuery_eq] at hq
        rcases h tokens htokens with ⟨hgrammar, -⟩ | ⟨-, hnot⟩
        · exact ⟨tokens, htokens, hgrammar⟩
        · exact absurd ((toQuery_some_iff htokens).mp ⟨q, hq⟩) hnot
      · rintro ⟨_, htokens, e, rfl⟩
        rcases h e.tokens htokens with ⟨-, hreadable⟩ | ⟨hnot, -⟩
        · exact ⟨_, toQuery_expr htokens (e.readable_iff.mp hreadable)⟩
        · exact absurd ⟨e, rfl⟩ hnot
    · intro tokens q htokens hq hplain
      rcases h tokens htokens with ⟨⟨e, rfl⟩, -⟩ | ⟨-, hnot⟩
      · exact Expr.terms_toQuery htokens hq hplain
      · exact absurd ((toQuery_some_iff htokens).mp ⟨q, hq⟩) hnot

/-- Java's library, as far as filters with the words `a` to `d` need it. -/
def Java.words : Java := ⟨Char.isAlpha, fun _ => none, fun _ => ⟨0⟩, fun _ => 0⟩

/-- Two comparisons without an operator between them: the first one is dropped. -/
theorem toQuery_drops_comparison :
    ¬ ∀ (java : Java) (names : Option (List String)) (filterExp : String),
      ParsesGrammar java names filterExp := by
  intro h
  have htokens : tokenize .words "a eq b c eq d" = .ok
      [⟨.simpleType, "a"⟩, ⟨.binaryComparison, "eq"⟩, ⟨.simpleType, "b"⟩,
        ⟨.simpleType, "c"⟩, ⟨.binaryComparison, "eq"⟩, ⟨.simpleType, "d"⟩] := rfl
  have hq : toQuery .words (some []) "a eq b c eq d" =
      .ok (some (.ofTerm (some .mustOccur) ⟨some "c", some "d", some .term, none⟩)) := rfl
  have hterms := (h .words (some []) "a eq b c eq d").terms _ _ htokens hq
    (by simp [comparisons, Plain, filterValueAllFields])
  have hlength := hterms.length_eq
  simp [comparisons, Query.ofTerm, Query.terms_mk] at hlength

end Xenon.OData

import Xenon.Authorization.Context

/-!
# What the composed filter accepts

After the loop over the roles of an action every shared query object has the
occurance of the *last* role that refers to it (`effectivePolicy`). If none of
them is `MUST_NOT` the query is the disjunction of all the resource groups; if
one is, the `SHOULD` clauses are discarded and whatever no such group matches
is accepted, also what no `ALLOW` role grants.
-/

namespace Xenon.Authorization

open Xenon.Common Xenon.Filter Xenon.Foundation

universe u

variable {τ : Type u}

/-! ## The shared query objects -/

theorem setOccurance_setOccurance (q : Query τ) (o o' : Occurance) :
    setOccurance (setOccurance q o) o' = setOccurance q o' := by
  cases q <;> rfl

theorem effective_setOccurance (q : Query τ) (o : Occurance) :
    (setOccurance q o).effective = o := by
  cases q <;> rfl

/-- The occurance of a query says nothing about its own normal form. -/
theorem dnfHolds_setOccurance (q : Query τ) (o : Occurance) (n : Bool) :
    (setOccurance q o).dnfHolds n = q.dnfHolds n := by
  cases q <;> rfl

/-- The policy of the last role that refers to the resource group. -/
def effectivePolicy (roles : List RoleState) (link : String) : Option Policy :=
  roles.foldl (fun p role => if role.resourceGroupLink = link then some role.policy else p)
    none

theorem effectivePolicy_snoc (roles : List RoleState) (role : RoleState) (link : String) :
    effectivePolicy (roles ++ [role]) link =
      if role.resourceGroupLink = link then some role.policy
      else effectivePolicy roles link := by
  rw [effectivePolicy, List.foldl_append]
  rfl

/-- It is the policy of one of these roles. -/
theorem exists_role_of_effectivePolicy {roles : List RoleState} {link : String}
    {p : Policy} (h : effectivePolicy roles link = some p) :
    ∃ role ∈ roles, role.resourceGroupLink = link ∧ role.policy = p := by
  induction roles using List.reverseRecOn with
  | nil => simp [effectivePolicy] at h
  | append_singleton roles role ih =>
      rw [effectivePolicy_snoc] at h
      split at h
      case isTrue hl => exact ⟨role, by simp, hl, Option.some.inj h⟩
      case isFalse =>
          obtain ⟨r, hr, hrest⟩ := ih h
          exact ⟨r, List.mem_append_left _ hr, hrest⟩

theorem effectivePolicy_isSome {roles : List RoleState} {role : RoleState}
    (h : role ∈ roles) : ∃ p, effectivePolicy roles role.resourceGroupLink = some p := by
  induction roles using List.reverseRecOn with
  | nil => simp at h
  | append_singleton roles r ih =>
      rw [effectivePolicy_snoc]
      split
      case isTrue => exact ⟨_, rfl⟩
      case isFalse hne =>
          rcases List.mem_append.mp h with h | h
          · exact ih h
          · obtain rfl : role = r := by simpa using h
            exact absurd rfl hne

/-- **The loop over the roles.** -/
theorem foldl_addRole (heap : Heap τ) (roles : List RoleState) :
    let r := roles.foldl addRole (heap, [])
    (∀ link, r.1 link = match effectivePolicy roles link with
      | none => heap link
      | some p => (heap link).map (setOccurance · p.occurance)) ∧
    r.2 = (roles.filter fun role => (heap role.resourceGroupLink).isSome).map
      (·.resourceGroupLink) := by
  -- the roles are added from left to right, and the last one of a group wins
  induction roles using List.reverseRecOn with
  | nil => simp [effectivePolicy]
  | append_singleton roles role ih =>
      obtain ⟨hheap, hrefs⟩ := ih
      simp only [List.foldl_append, List.foldl_cons, List.foldl_nil]
      generalize roles.foldl addRole (heap, []) = acc at hheap hrefs
      have hnone : acc.1 role.resourceGroupLink = none ↔
          heap role.resourceGroupLink = none := by
        rw [hheap]
        cases effectivePolicy roles role.resourceGroupLink <;> simp
      cases hg : acc.1 role.resourceGroupLink with
      | none =>
          have hg' := hnone.mp hg
          simp only [addRole, hg]
          refine ⟨fun link => ?_, by simp [hrefs, hg']⟩
          rw [hheap, effectivePolicy_snoc]
          split_ifs with hl
          · subst hl
            simp only [hg', Option.map_none]
            cases effectivePolicy roles role.resourceGroupLink <;> rfl
          · rfl
      | some q =>
          obtain ⟨q₀, hq₀⟩ := Option.ne_none_iff_exists'.mp
            (fun hn => by simp [hnone.mpr hn] at hg : heap role.resourceGroupLink ≠ none)
          simp only [addRole, hg]
          refine ⟨fun link => ?_, by simp [hrefs, hq₀]⟩
          rw [effectivePolicy_snoc]
          by_cases hl : role.resourceGroupLink = link
          · subst hl
            rw [Function.update_self, if_pos rfl, hq₀]
            rw [hheap, hq₀] at hg
            cases hp : effectivePolicy roles role.resourceGroupLink with
            | none =>
                rw [hp] at hg
                obtain rfl := Option.some.inj hg
                rfl
            | some p =>
                rw [hp] at hg
                obtain rfl := Option.some.inj hg
                simp [setOccurance_setOccurance]
          · rw [Function.update_of_ne (Ne.symm hl), if_neg hl, hheap]

/-- The clauses of an action: one for each role with a resource group, with
the occurance its query object has after the loop. -/
def clauseList (heap : Heap τ) (roles : List RoleState) : List (Query τ) :=
  roles.filterMap fun role =>
    (heap role.resourceGroupLink).bind fun q =>
      (effectivePolicy roles role.resourceGroupLink).map fun p => setOccurance q p.occurance

theorem mem_clauseList {heap : Heap τ} {roles : List RoleState} {c : Query τ} :
    c ∈ clauseList heap roles ↔ ∃ role ∈ roles, ∃ q p,
      heap role.resourceGroupLink = some q ∧
        effectivePolicy roles role.resourceGroupLink = some p ∧
        setOccurance q p.occurance = c := by
  simp only [clauseList, List.mem_filterMap, Option.bind_eq_some_iff,
    Option.map_eq_some_iff]
  constructor
  · rintro ⟨role, hr, q, hq, p, hp, rfl⟩
    exact ⟨role, hr, q, p, hq, hp, rfl⟩
  · rintro ⟨role, hr, q, p, hq, hp, rfl⟩
    exact ⟨role, hr, q, hq, p, hp, rfl⟩

theorem filterMap_references (heap : Heap τ) (roles : List RoleState) :
    let r := roles.foldl addRole (heap, [])
    r.2.filterMap r.1 = clauseList heap roles := by
  obtain ⟨hheap, hrefs⟩ := foldl_addRole heap roles
  simp only [hrefs, clauseList]
  generalize hr : roles.foldl addRole (heap, []) = r at hheap
  rw [List.filterMap_map, List.filterMap_filter]
  refine List.filterMap_congr fun role hrole => ?_
  obtain ⟨p, hp⟩ := effectivePolicy_isSome hrole
  cases hq : heap role.resourceGroupLink <;> simp [hheap, hp, hq]

/-- The query of an action, as its clause list alone. -/
def queryOf : List (Query τ) → Option (Query τ)
  | [] => none
  | q :: qs => some (.clauses (some .mustOccur) (clausesOf q qs))

theorem composeQuery_query (heap : Heap τ) (roles : List RoleState) :
    (composeQuery heap roles).2 = queryOf (clauseList heap roles) := by
  rw [← filterMap_references]
  unfold composeQuery queryOf
  dsimp only
  split <;> simp_all

/-! ## The heap between actions

The occurances that one action leaves behind do not matter for the next. -/

/-- The heaps have the same queries up to their occurance. -/
def Similar (heap heap' : Heap τ) : Prop :=
  ∀ link o, (heap link).map (setOccurance · o) = (heap' link).map (setOccurance · o)

theorem clauseList_similar {heap heap' : Heap τ} (h : Similar heap heap')
    (roles : List RoleState) : clauseList heap roles = clauseList heap' roles := by
  refine List.filterMap_congr fun role _ => ?_
  cases hp : effectivePolicy roles role.resourceGroupLink with
  | none => simp
  | some p =>
      have := h role.resourceGroupLink p.occurance
      cases hq : heap role.resourceGroupLink <;> cases hq' : heap' role.resourceGroupLink <;>
        simp_all

theorem similar_composeQuery {heap heap' : Heap τ} (h : Similar heap heap')
    (roles : List RoleState) : Similar (composeQuery heap roles).1 heap' := by
  have hfst : (composeQuery heap roles).1 = (roles.foldl addRole (heap, [])).1 := by
    unfold composeQuery
    dsimp only
    split <;> rfl
  intro link o
  rw [hfst, (foldl_addRole heap roles).1 link, ← h link o]
  cases effectivePolicy roles link with
  | none => rfl
  | some p =>
      rw [Option.map_map]
      refine congrArg (Option.map · _) (funext fun q => ?_)
      exact setOccurance_setOccurance q _ o

theorem lookup_populate (roles : List RoleState) (heap₀ : Heap τ) (a : Action) :
    ∀ (actions : List Action) (heap : Heap τ), Similar heap heap₀ →
    (populate roles heap actions).lookup a =
      if a ∈ actions then
        (queryOf (clauseList heap₀ (roleList roles a))).map createDisjunctiveNormalForm
      else none := by
  intro actions
  induction actions with
  | nil =>
      intro heap _
      rfl
  | cons b actions ih =>
      intro heap h
      have hrest := ih _ (similar_composeQuery h (roleList roles b))
      have hquery : (composeQuery heap (roleList roles b)).2 =
          queryOf (clauseList heap₀ (roleList roles b)) := by
        rw [composeQuery_query, clauseList_similar h]
      rw [populate]
      dsimp only
      by_cases hab : a = b
      · subst hab
        cases hq : queryOf (clauseList heap₀ (roleList roles a)) with
        | none =>
            rw [hquery, hq]
            simp only [hrest, hq, Option.map_none, ite_self]
        | some q =>
            rw [hquery, hq]
            simp
      · have hmem : a ∈ b :: actions ↔ a ∈ actions := by simp [hab]
        cases hq : queryOf (clauseList heap₀ (roleList roles b)) with
        | none =>
            rw [hquery, hq]
            simp only [hrest, hmem]
        | some q =>
            rw [hquery, hq]
            have hba : (a == b) = false := by simpa using hab
            simp only [List.lookup_cons, hba, hrest, hmem]

/-- **The filter of an action** is the normal form of the query of its clause
list, in whatever order the actions are processed. -/
theorem accepts_eq (heap : Heap τ) (roles : List RoleState) (order : EntryOrder)
    (a : Action) (document : τ → Bool) :
    accepts (populateAuthorizationContext heap roles order) a document =
      match queryOf (clauseList heap (roleList roles a)) with
      | none => false
      | some q => q.dnfHolds false document := by
  have hlookup := lookup_populate roles heap a
    (order.actions.filter fun a => !(roleList roles a).isEmpty) heap fun _ _ => rfl
  unfold accepts populateAuthorizationContext
  rw [hlookup]
  by_cases hempty : roleList roles a = []
  · have hnot : a ∉ order.actions.filter fun a => !(roleList roles a).isEmpty := by
      simp [hempty]
    rw [if_neg hnot, hempty]
    rfl
  · rw [if_pos (List.mem_filter.mpr ⟨order.complete a, by simpa using hempty⟩)]
    cases queryOf (clauseList heap (roleList roles a)) <;> rfl

/-! ## What is accepted -/

theorem toList_clausesOf (q : Query τ) (qs : List (Query τ)) :
    (clausesOf q qs).toList = q :: qs := by
  induction qs generalizing q with
  | nil => rfl
  | cons q' qs ih => rw [clausesOf, Clauses.toList, ih]

/-- The normal form of `SHOULD` and `MUST_NOT` clauses: one `MUST_NOT` clause
and all `SHOULD` clauses are discarded. -/
theorem dnfHolds_clauses_iff (o : Option Occurance) (qs : Clauses τ) (v : τ → Bool)
    (h : ∀ q ∈ qs.toList, q.effective = .shouldOccur ∨ q.effective = .mustNotOccur) :
    (Query.clauses o qs).dnfHolds false v = true ↔
      if ∃ q ∈ qs.toList, q.effective = .mustNotOccur then
        ∀ q ∈ qs.toList, q.effective = .mustNotOccur → q.dnfHolds true v = true
      else ∃ q ∈ qs.toList, q.dnfHolds false v = true := by
  rw [Query.dnfHolds_clauses]
  split
  case isTrue hex =>
      obtain ⟨q₀, hq₀, hnot⟩ := hex
      -- one clause that must not occur makes a conjunction of such clauses, and drops the others
      have hd : ¬ qs.isDisjunction false = true := fun hd => by
        have := Clauses.isDisjunction_false.mp hd q₀ hq₀
        simp [Query.isShould, hnot] at this
      have hflag : ∀ q m, qs.flag false q = some m ∧ q ∈ qs.toList ↔
          q ∈ qs.toList ∧ q.effective = .mustNotOccur ∧ m = true := by
        intro q m
        rw [Clauses.flag, if_neg hd]
        constructor
        · rintro ⟨hm, hq⟩
          rcases h q hq with ho | ho <;> rw [ho] at hm <;> simp [expandWith] at hm
          exact ⟨hq, ho, hm⟩
        · rintro ⟨hq, ho, rfl⟩
          exact ⟨by rw [ho]; rfl, hq⟩
      simp only [combine, hd, Bool.false_eq_true, if_false, List.all_map, List.all_eq_true,
        Function.comp_apply, id_eq]
      constructor
      · intro hall q hq ho
        exact hall (q, true) (Clauses.mem_branches.mpr ⟨hq, ((hflag q true).mpr ⟨hq, ho, rfl⟩).1⟩)
      · rintro hall ⟨q, m⟩ hb
        obtain ⟨hq, hm⟩ := Clauses.mem_branches.mp hb
        obtain ⟨-, ho, rfl⟩ := (hflag q m).mp ⟨hm, hq⟩
        exact hall q hq ho
  case isFalse hnone =>
      have hd : qs.isDisjunction false = true := Clauses.isDisjunction_false.mpr fun q hq => by
        have := (h q hq).resolve_right fun ho => hnone ⟨q, hq, ho⟩
        simp [Query.isShould, this]
      simp only [combine, hd, if_true, List.any_map, List.any_eq_true, Function.comp_apply,
        id_eq]
      constructor
      · rintro ⟨⟨q, m⟩, hb, hv⟩
        obtain ⟨hq, hm⟩ := Clauses.mem_branches.mp hb
        rw [Clauses.flag, if_pos hd, negateClause_false] at hm
        obtain rfl := Option.some.inj hm
        exact ⟨q, hq, hv⟩
      · rintro ⟨q, hq, hv⟩
        refine ⟨(q, false), Clauses.mem_branches.mpr ⟨hq, ?_⟩, hv⟩
        rw [Clauses.flag, if_pos hd, negateClause_false]

section Decision

variable (heap : Heap τ) (roles : List RoleState) (a : Action) (document : τ → Bool)

/-- The resource group of the role matches the document. -/
def RoleMatches (role : RoleState) : Prop :=
  ∃ q, heap role.resourceGroupLink = some q ∧ q.eval document = true

/-- Some role with the verb and the policy matches the document. -/
def Granted (policy : Policy) : Prop :=
  ∃ role ∈ roles, a ∈ role.verbs ∧ role.policy = policy ∧ RoleMatches heap document role

/-- The last role with the verb that refers to the resource group of `role`
denies. -/
def EffectivelyDenies (role : RoleState) : Prop :=
  role ∈ roleList roles a ∧
    effectivePolicy (roleList roles a) role.resourceGroupLink = some .deny

/-- Some resource group is left with `MUST_NOT`. -/
def HasEffectiveDeny : Prop :=
  ∃ role, EffectivelyDenies roles a role ∧ heap role.resourceGroupLink ≠ none

/-- The normal forms of the resource group queries that end up in the filter
are faithful. -/
def GroupsFaithful : Prop :=
  ∀ role ∈ roleList roles a, ∀ q, heap role.resourceGroupLink = some q →
    (HasEffectiveDeny heap roles a → EffectivelyDenies roles a role →
      q.faithful false true = true) ∧
    (¬ HasEffectiveDeny heap roles a → q.faithful false false = true)

variable {heap roles a document}

theorem mem_roleList {role : RoleState} :
    role ∈ roleList roles a ↔ role ∈ roles ∧ a ∈ role.verbs := by
  simp [roleList]

theorem effective_of_mem_clauseList {rs : List RoleState} {c : Query τ}
    (h : c ∈ clauseList heap rs) :
    c.effective = .shouldOccur ∨ c.effective = .mustNotOccur := by
  obtain ⟨_, _, q, p, _, _, rfl⟩ := mem_clauseList.mp h
  rw [effective_setOccurance]
  cases p
  · exact Or.inl rfl
  · exact Or.inr rfl

theorem exists_mustNot_iff :
    (∃ c ∈ clauseList heap (roleList roles a), c.effective = .mustNotOccur) ↔
      HasEffectiveDeny heap roles a := by
  constructor
  · rintro ⟨c, hc, ho⟩
    obtain ⟨role, hr, q, p, hq, hp, rfl⟩ := mem_clauseList.mp hc
    rw [effective_setOccurance] at ho
    cases p with
    | allow => simp [Policy.occurance] at ho
    | deny => exact ⟨role, ⟨hr, hp⟩, by simp [hq]⟩
  · rintro ⟨role, ⟨hr, hp⟩, hne⟩
    obtain ⟨q, hq⟩ := Option.ne_none_iff_exists'.mp hne
    exact ⟨_, mem_clauseList.mpr ⟨role, hr, q, .deny, hq, hp, rfl⟩,
      effective_setOccurance q _⟩

/-- The `MUST_NOT` clauses hold iff no effectively denying role matches. -/
theorem mustNot_holds_iff (hf : GroupsFaithful heap roles a)
    (hE : HasEffectiveDeny heap roles a) :
    (∀ c ∈ clauseList heap (roleList roles a), c.effective = .mustNotOccur →
      c.dnfHolds true document = true) ↔
    ¬ ∃ role, EffectivelyDenies roles a role ∧ RoleMatches heap document role := by
  constructor
  · rintro hall ⟨role, hden, q, hq, hv⟩
    have := hall _ (mem_clauseList.mpr ⟨role, hden.1, q, .deny, hq, hden.2, rfl⟩)
      (effective_setOccurance q _)
    rw [dnfHolds_setOccurance, q.dnfHolds_of_faithful false true
      ((hf role hden.1 q hq).1 hE hden), hv] at this
    simp at this
  · intro hnone c hc ho
    obtain ⟨role, hr, q, p, hq, hp, rfl⟩ := mem_clauseList.mp hc
    rw [effective_setOccurance] at ho
    obtain rfl : p = .deny := by
      cases p
      · simp [Policy.occurance] at ho
      · rfl
    have hden : EffectivelyDenies roles a role := ⟨hr, hp⟩
    rw [dnfHolds_setOccurance, q.dnfHolds_of_faithful false true
      ((hf role hr q hq).1 hE hden)]
    cases hv : q.eval document with
    | false => rfl
    | true => exact absurd ⟨role, hden, q, hq, hv⟩ hnone

/-- Without `MUST_NOT` clause one clause holds iff some role matches. -/
theorem should_holds_iff (hf : GroupsFaithful heap roles a)
    (hE : ¬ HasEffectiveDeny heap roles a) :
    (∃ c ∈ clauseList heap (roleList roles a), c.dnfHolds false document = true) ↔
      ∃ role ∈ roleList roles a, RoleMatches heap document role := by
  constructor
  · rintro ⟨c, hc, hv⟩
    obtain ⟨role, hr, q, p, hq, hp, rfl⟩ := mem_clauseList.mp hc
    rw [dnfHolds_setOccurance, q.dnfHolds_of_faithful false false
      ((hf role hr q hq).2 hE)] at hv
    exact ⟨role, hr, q, hq, by simpa using hv⟩
  · rintro ⟨role, hr, q, hq, hv⟩
    obtain ⟨p, hp⟩ := effectivePolicy_isSome hr
    refine ⟨_, mem_clauseList.mpr ⟨role, hr, q, p, hq, hp, rfl⟩, ?_⟩
    rw [dnfHolds_setOccurance, q.dnfHolds_of_faithful false false
      ((hf role hr q hq).2 hE), hv]
    rfl

/-- **What the filter accepts**, for faithful resource group queries. -/
theorem accepts_iff (order : EntryOrder) (hf : GroupsFaithful heap roles a) :
    accepts (populateAuthorizationContext heap roles order) a document = true ↔
      (HasEffectiveDeny heap roles a ∧
        ¬ ∃ role, EffectivelyDenies roles a role ∧ RoleMatches heap document role) ∨
      (¬ HasEffectiveDeny heap roles a ∧
        ∃ role ∈ roleList roles a, RoleMatches heap document role) := by
  have haccepts : accepts (populateAuthorizationContext heap roles order) a document = true ↔
      if ∃ c ∈ clauseList heap (roleList roles a), c.effective = .mustNotOccur then
        ∀ c ∈ clauseList heap (roleList roles a), c.effective = .mustNotOccur →
          c.dnfHolds true document = true
      else ∃ c ∈ clauseList heap (roleList roles a), c.dnfHolds false document = true := by
    rw [accepts_eq]
    cases hcs : clauseList heap (roleList roles a) with
    | nil => simp [queryOf]
    | cons c cs =>
        simp only [queryOf]
        rw [dnfHolds_clauses_iff, toList_clausesOf]
        rw [toList_clausesOf, ← hcs]
        exact fun q hq => effective_of_mem_clauseList hq
  rw [haccepts]
  split
  case isTrue h =>
      have hE := exists_mustNot_iff.mp h
      rw [mustNot_holds_iff hf hE]
      simp only [hE, true_and, not_true_eq_false, false_and, or_false]
  case isFalse h =>
      have hE : ¬ HasEffectiveDeny heap roles a := fun hE => h (exists_mustNot_iff.mpr hE)
      rw [should_holds_iff hf hE]
      simp only [hE, false_and, false_or, not_false_eq_true, true_and]

theorem denied_of_effectivelyDenies {role : RoleState}
    (h : EffectivelyDenies roles a role) (hm : RoleMatches heap document role) :
    Granted heap roles a document .deny := by
  obtain ⟨r, hr, hlink, hp⟩ := exists_role_of_effectivePolicy h.2
  obtain ⟨q, hq, hv⟩ := hm
  exact ⟨r, (mem_roleList.mp hr).1, (mem_roleList.mp hr).2, hp, q, by rw [hlink]; exact hq, hv⟩

theorem granted_iff :
    (∃ role ∈ roleList roles a, RoleMatches heap document role) ↔
      Granted heap roles a document .allow ∨ Granted heap roles a document .deny := by
  constructor
  · rintro ⟨role, hr, hm⟩
    obtain ⟨hr, ha⟩ := mem_roleList.mp hr
    cases hp : role.policy with
    | allow => exact Or.inl ⟨role, hr, ha, hp, hm⟩
    | deny => exact Or.inr ⟨role, hr, ha, hp, hm⟩
  · rintro (⟨role, hr, ha, -, hm⟩ | ⟨role, hr, ha, -, hm⟩) <;>
      exact ⟨role, mem_roleList.mpr ⟨hr, ha⟩, hm⟩

end Decision

/-- The actions in the order of the enumeration. -/
def actionOrder : EntryOrder where
  actions := [.get, .post, .patch, .put, .delete, .options]
  complete := by rintro (_ | _ | _ | _ | _ | _) <;> simp
  nodup := by decide

/-- Two resource groups, each of the documents with one term. -/
def exampleGroups : Heap String := fun link =>
  if link = "/core/resource-groups/a" then some (.term none "a")
  else if link = "/core/resource-groups/b" then some (.term none "b")
  else none

def allowA : RoleState := ⟨"/core/resource-groups/a", [.get], .allow⟩

def denyB : RoleState := ⟨"/core/resource-groups/b", [.get], .deny⟩

theorem exampleGroups_faithful (roles : List RoleState) :
    GroupsFaithful exampleGroups roles .get := by
  intro role _ q hq
  have hterm : ∃ t, q = .term none t := by
    unfold exampleGroups at hq
    split_ifs at hq
    · exact ⟨_, (Option.some.inj hq).symm⟩
    · exact ⟨_, (Option.some.inj hq).symm⟩
  obtain ⟨t, rfl⟩ := hterm
  exact ⟨fun _ _ => by simp [Query.faithful], fun _ => by simp [Query.faithful]⟩

end Xenon.Authorization

import Xenon.Common.Operation
import Xenon.Filter.Faithful

/-!
# The authorization context

`AuthorizationContextServiceHelper` collects the roles of a user, loads their
resource groups and composes, for every action, the queries of the resource
groups into one query whose normal form is the resource query filter of the
action. The queries are objects shared by every role that refers to the same
resource group, and composing them writes their occurance; they are kept in a
heap that is threaded through the loops.
-/

namespace Xenon.Authorization

open Xenon.Common Xenon.Filter

universe u

variable {τ : Type u}

/-! ## The datatype -/

/-- `RoleService.Policy`. -/
inductive Policy where
  | allow | deny
deriving DecidableEq

/-- `RoleService.RoleState`, as far as it is read; `RoleService.validate` checks
only that the fields are there. -/
structure RoleState where
  resourceGroupLink : String
  verbs : List Action
  policy : Policy
deriving DecidableEq

/-- The response to the GET of a resource group: its query, not found, or
another failure. -/
inductive GroupResponse (τ : Type u) where
  | found (query : Query τ)
  | notFound
  | failed (message : String)

/-- The query objects of the resource groups that were found, by link. -/
abbrev Heap (τ : Type u) := String → Option (Query τ)

/-! ## `loadResourceGroups` -/

/-- A group that is not found is ignored: the roles that refer to it are left
without a resource group. Any other failure fails the operation. -/
def loadResourceGroups (roles : List RoleState) (get : String → GroupResponse τ) :
    Except String (Heap τ) :=
  let failures := (roles.map (·.resourceGroupLink)).filterMap fun link =>
    match get link with
    | .failed message => some message
    | _ => none
  match failures with
  | message :: _ => .error message
  | [] => .ok fun link =>
      if link ∈ roles.map (·.resourceGroupLink) then
        match get link with
        | .found query => some query
        | _ => none
      else none

/-- A role is left with the query of its resource group, if that was found. -/
theorem loadResourceGroups_ok {roles : List RoleState} {get : String → GroupResponse τ}
    {heap : Heap τ} (h : loadResourceGroups roles get = .ok heap) {role : RoleState}
    (hr : role ∈ roles) (q : Query τ) :
    heap role.resourceGroupLink = some q ↔ get role.resourceGroupLink = .found q := by
  unfold loadResourceGroups at h
  dsimp only at h
  split at h
  · simp at h
  · obtain rfl := Except.ok.inj h
    have hmem : role.resourceGroupLink ∈ roles.map (·.resourceGroupLink) :=
      List.mem_map_of_mem hr
    simp only [hmem, if_true]
    cases get role.resourceGroupLink <;> simp

/-! ## `populateAuthorizationContext` -/

/-- `roleListByAction.get(action)`. -/
def roleList (roles : List RoleState) (action : Action) : List RoleState :=
  roles.filter fun role => action ∈ role.verbs

/-- The occurance written for a policy. -/
def Policy.occurance : Policy → Occurance
  | .allow => .shouldOccur
  | .deny => .mustNotOccur

/-- `query.occurance = occurance`. -/
def setOccurance (q : Query τ) (o : Occurance) : Query τ :=
  match q with
  | .term _ t => .term (some o) t
  | .clauses _ qs => .clauses (some o) qs

/-- The body of the loop over the roles of an action: the query object of the
resource group is written and a reference to it is added. -/
def addRole (acc : Heap τ × List String) (role : RoleState) : Heap τ × List String :=
  match acc.1 role.resourceGroupLink with
  | none => acc
  | some query =>
      (Function.update acc.1 role.resourceGroupLink
          (some (setOccurance query role.policy.occurance)),
        acc.2 ++ [role.resourceGroupLink])

/-- A nonempty list as `booleanClauses`. -/
def clausesOf (q : Query τ) : List (Query τ) → Clauses τ
  | [] => .one q
  | q' :: qs => .cons q (clausesOf q' qs)

/-- The query of an action; the references are read after the loop. There is
none if no role has a resource group. -/
def composeQuery (heap : Heap τ) (roles : List RoleState) :
    Heap τ × Option (Query τ) :=
  let (heap, references) := roles.foldl addRole (heap, [])
  match references.filterMap heap with
  | [] => (heap, none)
  | q :: qs => (heap, some (.clauses (some .mustOccur) (clausesOf q qs)))

/-- The loop over the entries of `roleListByAction`, in the order of the
actions: `queryFilterByAction`. -/
def populate (roles : List RoleState) :
    Heap τ → List Action → List (Action × List (Conjunction τ))
  | _, [] => []
  | heap, action :: actions =>
      let (heap, query) := composeQuery heap (roleList roles action)
      let filters := populate roles heap actions
      match query with
      | none => filters
      | some q => (action, createDisjunctiveNormalForm q) :: filters

/-- The order in which the entries of a map over the actions are enumerated. -/
structure EntryOrder where
  actions : List Action
  complete : ∀ a, a ∈ actions
  nodup : actions.Nodup

def populateAuthorizationContext (heap : Heap τ) (roles : List RoleState)
    (order : EntryOrder) : List (Action × List (Conjunction τ)) :=
  populate roles heap (order.actions.filter fun a => !(roleList roles a).isEmpty)

/-- The stored filter of the action accepts the document, given by the terms it
makes true. Without a filter nothing is accepted. -/
def accepts (filters : List (Action × List (Conjunction τ))) (action : Action)
    (document : τ → Bool) : Bool :=
  match filters.lookup action with
  | none => false
  | some dnf => disjunctionHolds document dnf

end Xenon.Authorization

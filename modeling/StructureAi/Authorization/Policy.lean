import StructureAi.Foundation.Entries
import StructureAi.Foundation.Text

/-! # Policies

A policy definition is validated, and its roles are resolved into the grants they end up
holding. What conditions look at is a parameter; the functions behind their names are
total.
-/
namespace StructureAi.Authorization
open StructureAi.Foundation

/-- A permission, every action of one resource, or everything, alone or under a named condition. -/
inductive Grant where
  | always (permission : String)
  | conditional (permission condition : String)
deriving DecidableEq

namespace Grant

def permission : Grant → String
  | always permission => permission
  | conditional permission _ => permission

/-- `when`. -/
def condition : Grant → Option String
  | always _ => none
  | conditional _ condition => some condition

end Grant

structure RoleDefinition where
  inherits : Option (List String)
  grants : Option (List Grant)

/-- The own entries of the two records, in the order they are enumerated. -/
structure PolicyDefinition where
  resources : List (String × List String)
  roles : List (String × RoleDefinition)
  resourceKeys : (resources.map Prod.fst).Nodup
  roleKeys : (roles.map Prod.fst).Nodup

namespace PolicyDefinition
variable (d : PolicyDefinition)

def roleNames : List String := d.roles.map Prod.fst

/-- `definition.roles[role]?.inherits ?? []`. -/
def parents (role : String) : List String := ((d.roles.lookup role).bind RoleDefinition.inherits).getD []

def grants (role : String) : List Grant := ((d.roles.lookup role).bind RoleDefinition.grants).getD []

/-- Every `resource:action` permission, in definition order. -/
def permissions : List String :=
  d.resources.flatMap fun resource => resource.2.map fun action => resource.1 ++ ":" ++ action

end PolicyDefinition

/-- The names every object inherits, which `in` finds as well. -/
def inherited : List String :=
  ["__proto__","constructor","hasOwnProperty","isPrototypeOf","propertyIsEnumerable","toLocaleString",
    "toString","valueOf","__defineGetter__","__defineSetter__","__lookupGetter__","__lookupSetter__"]

/-- `name in object`, with the own keys of the object. -/
def isIn (name : String) (keys : List String) : Bool := name ∈ keys || name ∈ inherited

/-- The resource of a grant that ends with `:*`. -/
def wildcardOf (permission : String) : Option String :=
  match permission.toList.reverse with
  | '*' :: ':' :: resource => some (String.ofList resource.reverse)
  | _ => none

section Validation

def malformedName (name : String) : Bool :=
  name.toList = [] || ':' ∈ name.toList || '*' ∈ name.toList || trim name.toList ≠ name.toList

/-- The issues of a resource; `seen` are its actions so far. -/
def actionIssues (resource : String) : List String → List String → List String
  | _,[] => []
  | seen,action :: actions =>
    (if malformedName action then
      ["resource \"" ++ resource ++ "\": action \"" ++ action ++ "\" must be non-empty, without \":\" or \"*\""]
    else []) ++
    (if action ∈ seen then ["resource \"" ++ resource ++ "\": duplicate action \"" ++ action ++ "\""] else []) ++
    actionIssues resource (action :: seen) actions

def resourceIssues (resource : String × List String) : List String :=
  (if malformedName resource.1 then
    ["resource \"" ++ resource.1 ++ "\": name must be non-empty, without \":\" or \"*\""] else []) ++
  (if resource.2 = [] then ["resource \"" ++ resource.1 ++ "\": declares no action"] else []) ++
  actionIssues resource.1 [] resource.2

variable (d : PolicyDefinition) (conditions : List String)

def grantIssues (role : String) (grant : Grant) : List String :=
  (if grant.permission = "*" then []
  else match wildcardOf grant.permission with
    | some resource =>
      if isIn resource (d.resources.map Prod.fst) then []
      else ["role \"" ++ role ++ "\": grant \"" ++ grant.permission ++ "\" names unknown resource \"" ++
        resource ++ "\""]
    | none =>
      if grant.permission ∈ d.permissions then []
      else ["role \"" ++ role ++ "\": grant \"" ++ grant.permission ++ "\" is not a declared permission"]) ++
  (match grant.condition with
    | none => []
    | some condition =>
      if isIn condition conditions then []
      else ["role \"" ++ role ++ "\": grant \"" ++ grant.permission ++ "\" references unknown condition \"" ++
        condition ++ "\""])

def roleIssues (role : String) : List String :=
  (if role.toList = [] || trim role.toList ≠ role.toList then
    ["role \"" ++ role ++ "\": name must be non-empty without surrounding whitespace"] else []) ++
  ((d.parents role).flatMap fun parent =>
    if parent ∈ d.roleNames then [] else ["role \"" ++ role ++ "\": inherits unknown role \"" ++ parent ++ "\""]) ++
  (d.grants role).flatMap (grantIssues d conditions role)

inductive VisitStatus where
  | visiting
  | done
deriving DecidableEq

structure Visits where
  state : List (String × VisitStatus)
  issues : List String

/-- The issue of a role that is met again on its own path. -/
def cycleIssue (role : String) (path : List String) : String :=
  "inheritance cycle: " ++ " -> ".intercalate (path.dropWhile (· ≠ role) ++ [role])

/-- Visits a role after its parents; `none` if the roles on one path are more than the fuel. A parent
that is in no own entry is reported elsewhere, and has no parents. -/
def visit : ℕ → String → List String → Visits → Option Visits
  | fuel,role,path,v =>
    match v.state.lookup role,fuel with
    | some .done,_ => some v
    | some .visiting,_ => some {v with issues := v.issues ++ [cycleIssue role path]}
    | none,0 => none
    | none,fuel + 1 => do
      let v ← (d.parents role).foldlM (fun v parent =>
        if parent ∈ d.roleNames then visit fuel parent (path ++ [role]) v else some v)
        {v with state := put role .visiting v.state}
      return {v with state := put role .done v.state}

def cycleIssues : Option (List String) := do
  let v ← d.roleNames.foldlM (fun v role => visit d d.roleNames.length role [] v) ⟨[],[]⟩
  return v.issues

/-- `validate`. -/
def validate : Option (List String) := do
  let cycles ← cycleIssues d
  return d.resources.flatMap resourceIssues ++ d.roleNames.flatMap (roleIssues d conditions) ++ cycles

end Validation

section Resolution
variable (d : PolicyDefinition)

/-- Fails for a resource that is no own entry but inherited, since that has no `map`. -/
def expandGrant (permission : String) : Option (List String) :=
  if permission = "*" then some d.permissions
  else match wildcardOf permission with
    | none => some [permission]
    | some resource =>
      match d.resources.lookup resource with
      | some actions => some (actions.map fun action => resource ++ ":" ++ action)
      | none => if resource ∈ inherited then none else some []

/-- `none` marks an unconditional grant; a list are the alternatives. -/
abbrev ResolvedRole := List (String × Option (List String))

def merge (own : ResolvedRole) (permission : String) (condition : Option String) : ResolvedRole :=
  match own.lookup permission,condition with
  | some none,_ => own
  | _,none => put permission none own
  | none,some c => put permission (some [c]) own
  | some (some cs),some c => put permission (some (if c ∈ cs then cs else cs ++ [c])) own

def mergeEntry (own : ResolvedRole) (entry : String × Option (List String)) : ResolvedRole :=
  match entry.2 with
  | none => merge own entry.1 none
  | some cs => cs.foldl (fun own c => merge own entry.1 (some c)) own

def mergeGrant (own : ResolvedRole) (grant : Grant) : Option ResolvedRole :=
  (expandGrant d grant.permission).map fun expanded =>
    expanded.foldl (fun own permission => merge own permission grant.condition) own

abbrev Resolved := List (String × ResolvedRole)

/-- What a role holds, and the memo; `none` if the inheritance is deeper than the fuel. -/
def resolve : ℕ → String → Resolved → Option (ResolvedRole × Resolved)
  | fuel,role,resolved =>
    match resolved.lookup role,fuel with
    | some own,_ => some (own,resolved)
    | none,0 => none
    | none,fuel + 1 => do
      let (own,resolved) ← (d.parents role).foldlM (fun (own,resolved) parent => do
        let (entries,resolved) ← resolve fuel parent resolved
        return (entries.foldl mergeEntry own,resolved)) ([],resolved)
      let own ← (d.grants role).foldlM (mergeGrant d) own
      return (own,put role own resolved)

def resolveRoles : Option Resolved :=
  d.roleNames.foldlM (fun resolved role => (resolve d d.roleNames.length role resolved).map Prod.snd) []

end Resolution

section Principals
variable {α : Type}

inductive Assignment where
  | everywhere (role : String)
  | inScope (role scope : String)
deriving DecidableEq

inductive PrincipalKind where
  | user
  | service
  | anonymous

structure Principal (α : Type) where
  id : String
  roles : List Assignment
  kind : Option PrincipalKind
  tenantId : Option String
  attributes : Option (List (String × α))

structure ConditionContext (α : Type) where
  principal : Principal α
  attributes : List (String × α)
  scope : Option String

abbrev ConditionMap (α : Type) := List (String × (ConditionContext α → Bool))

structure CheckOptions (α : Type) where
  scope : Option String
  attributes : Option (List (String × α))

/-- Role names of the principal effective in `scope`, each once. -/
def rolesIn (principal : Principal α) (scope : Option String) : List String :=
  principal.roles.foldl (fun out assignment =>
    match assignment with
    | .everywhere role => if role ∈ out then out else out ++ [role]
    | .inScope role scope' => if scope = some scope' ∧ role ∉ out then out ++ [role] else out) []

structure Decision where
  allowed : Bool
  permission : String
  principal : String
  scope : Option String
  role : Option String
  condition : Option String
  reason : String
deriving DecidableEq

inductive MatrixCell where
  | granted
  | conditional (conditions : List String)
  | denied
deriving DecidableEq

structure PolicyMatrix where
  permissions : List String
  roles : List String
  cells : List (String × List (String × MatrixCell))

structure ResolvedGrant where
  permission : String
  conditions : List String
deriving DecidableEq

/-- `[...entry].sort()`. -/
def sorted (conditions : List String) : List String := conditions.insertionSort textLe

/-- What `build` closes over. -/
structure Policy (α : Type) where
  definition : PolicyDefinition
  conditions : ConditionMap α
  resolved : Resolved

/-- `none` if the roles cannot be resolved. -/
def build (d : PolicyDefinition) (conditions : ConditionMap α) : Option (Policy α) :=
  (resolveRoles d).map fun resolved => ⟨d,conditions,resolved⟩

namespace Policy
variable (policy : Policy α)

def isRole (role : String) : Bool := isIn role policy.definition.roleNames

/-- `resolved.get(role)?.get(permission)`. -/
def entry (role permission : String) : Option (Option (List String)) :=
  (policy.resolved.lookup role).bind fun own => own.lookup permission

def grantsOf (role : String) : List ResolvedGrant :=
  policy.definition.permissions.filterMap fun permission =>
    (policy.entry role permission).map fun entry => ⟨permission,(entry.map sorted).getD []⟩

def holds (context : ConditionContext α) (name : String) : Bool :=
  (policy.conditions.lookup name).any fun condition => condition context

/-- The loop over the roles of the principal; `unmet` are the conditional grants that did not hold. -/
def decideIn (base : Decision) (context : ConditionContext α) (known : List String) :
    List String → List String → Decision
  | unmet,[] =>
    {base with reason :=
      if unmet ≠ [] then "conditional grant(s) not met: " ++ ", ".intercalate unmet
      else "no role of [" ++ ", ".intercalate known ++ "] grants \"" ++ base.permission ++ "\""}
  | unmet,role :: roles =>
    match policy.entry role base.permission with
    | none => decideIn base context known unmet roles
    | some none =>
      {base with allowed := true, role := some role, reason := "granted by role \"" ++ role ++ "\""}
    | some (some entry) =>
      match entry.find? (policy.holds context) with
      | some name =>
        {base with
          allowed := true, role := some role, condition := some name
          reason := "granted by role \"" ++ role ++ "\" under condition \"" ++ name ++ "\""}
      | none =>
        decideIn base context known (unmet ++ [role ++ " (" ++ " | ".intercalate (sorted entry) ++ ")"]) roles

def contextOf (principal : Principal α) (options : Option (CheckOptions α)) : ConditionContext α :=
  ⟨principal,(options.bind CheckOptions.attributes).getD [],options.bind CheckOptions.scope⟩

def decide (principal : Principal α) (permission : String) (options : Option (CheckOptions α)) : Decision :=
  let scope := options.bind CheckOptions.scope
  let base : Decision := ⟨false,permission,principal.id,scope,none,none,""⟩
  if permission ∉ policy.definition.permissions then
    {base with reason := "unknown permission \"" ++ permission ++ "\""}
  else
    let held := rolesIn principal scope
    let known := held.filter policy.isRole
    if known = [] then
      {base with reason :=
        if held = [] then
          "principal holds no role" ++ (scope.map fun scope => " in scope \"" ++ scope ++ "\"").getD ""
        else "none of the roles [" ++ ", ".intercalate held ++ "] is defined in the policy"}
    else policy.decideIn base (contextOf principal options) known [] known

def cell (role permission : String) : MatrixCell :=
  match policy.entry role permission with
  | none => .denied
  | some none => .granted
  | some (some conditions) => .conditional (sorted conditions)

def matrix : PolicyMatrix :=
  ⟨policy.definition.permissions,policy.definition.roleNames,policy.definition.roleNames.map fun role =>
    (role,policy.definition.permissions.map fun permission => (permission,policy.cell role permission))⟩

end Policy
end Principals

/-- `Policy.make`: the issues of an invalid definition, or the policy. -/
def make {α : Type} (d : PolicyDefinition) (conditions : ConditionMap α) :
    Option (Except (List String) (Policy α)) := do
  let issues ← validate d (conditions.map Prod.fst)
  if issues ≠ [] then return .error issues
  else return .ok (← build d conditions)

end StructureAi.Authorization

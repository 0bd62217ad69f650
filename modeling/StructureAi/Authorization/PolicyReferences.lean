import StructureAi.Authorization.PolicyMeaning
import StructureAi.Authorization.PolicyValidation

/-! # References of roles

Validation looks every reference of a role up: the roles it inherits from, and what its
grants name. Two of these lookups are by `in`, which finds the names that every object
inherits as well.
-/
namespace StructureAi.Authorization
open StructureAi.Foundation

/-- A name a role refers to, with the grant that does. -/
inductive Reference where
  | role (name : String)
  | resource (grant name : String)
  | permission (grant : String)
  | condition (grant name : String)
deriving DecidableEq

def Grant.references (grant : Grant) : List Reference :=
  (if grant.permission = "*" then []
  else match wildcardOf grant.permission with
    | some resource => [.resource grant.permission resource]
    | none => [.permission grant.permission]) ++
  (match grant.condition with
    | none => []
    | some condition => [.condition grant.permission condition])

def PolicyDefinition.references (d : PolicyDefinition) (role : String) : List Reference :=
  (d.parents role).map .role ++ (d.grants role).flatMap Grant.references

namespace Reference
variable (d : PolicyDefinition) (conditions : List String)

/-- The name is an own entry of the definition, or of the conditions it comes with. -/
def Declared : Reference → Prop
  | role name => name ∈ d.roleNames
  | resource _ name => name ∈ d.resources.map Prod.fst
  | permission grant => grant ∈ d.permissions
  | condition _ name => name ∈ conditions

instance (r : Reference) : Decidable (r.Declared d conditions) := by
  cases r <;> unfold Declared <;> infer_instance

/-- The name of a resource or a condition that every object inherits. -/
def Inherited : Reference → Prop
  | resource _ name | condition _ name => name ∈ inherited
  | _ => False

instance (r : Reference) : Decidable r.Inherited := by
  cases r <;> unfold Inherited <;> infer_instance

/-- The issue of a reference to nothing that is declared. -/
def issue (holder : String) : Reference → String
  | role name => "role \"" ++ holder ++ "\": inherits unknown role \"" ++ name ++ "\""
  | resource grant name => "role \"" ++ holder ++ "\": grant \"" ++ grant ++ "\" names unknown resource \"" ++ name ++ "\""
  | permission grant => "role \"" ++ holder ++ "\": grant \"" ++ grant ++ "\" is not a declared permission"
  | condition grant name =>
    "role \"" ++ holder ++ "\": grant \"" ++ grant ++ "\" references unknown condition \"" ++ name ++ "\""

end Reference

section Issues
variable (d : PolicyDefinition) (conditions : List String)

def nameIssues (role : String) : List String :=
  if role.toList = [] || trim role.toList ≠ role.toList then
    ["role \"" ++ role ++ "\": name must be non-empty without surrounding whitespace"] else []

/-- The references of a role to nothing that is declared. -/
def violations (role : String) : List Reference :=
  (d.references role).filter fun r => ¬ r.Declared d conditions

/-- The references that validation does not find. -/
def missed (role : String) : List Reference :=
  (d.references role).filter fun r => ¬ (r.Declared d conditions ∨ r.Inherited)

variable {d conditions}

theorem isIn_iff {name : String} {keys : List String} : isIn name keys = true ↔ name ∈ keys ∨ name ∈ inherited := by
  rw [isIn,Bool.or_eq_true,decide_eq_true_eq,decide_eq_true_eq]

theorem issue_of_one (role : String) (r : Reference) {found : Prop} [Decidable found]
    (h : found ↔ r.Declared d conditions ∨ r.Inherited) : (if found then [] else [r.issue role]) =
      ([r].filter fun r => ¬ (r.Declared d conditions ∨ r.Inherited)).map (Reference.issue role) := by
  by_cases hf : found
  · have hno : ¬ ¬ (r.Declared d conditions ∨ r.Inherited) := not_not.mpr (h.mp hf)
    rw [if_pos hf,List.filter_cons_of_neg (by simpa using hno)]
    rfl
  · have hyes : ¬ (r.Declared d conditions ∨ r.Inherited) := fun hd => hf (h.mpr hd)
    rw [if_neg hf,List.filter_cons_of_pos (by simpa using hyes)]
    rfl

theorem grantIssues_eq (role : String) (grant : Grant) : grantIssues d conditions role grant =
    (grant.references.filter fun r => ¬ (r.Declared d conditions ∨ r.Inherited)).map (Reference.issue role) := by
  unfold grantIssues Grant.references
  rw [List.filter_append,List.map_append]
  congr 1
  · by_cases hstar : grant.permission = "*"
    · rw [if_pos hstar,if_pos hstar]
      rfl
    · rw [if_neg hstar,if_neg hstar]
      cases wildcardOf grant.permission with
      | some resource => exact issue_of_one role (.resource grant.permission resource) isIn_iff
      | none => exact issue_of_one role (.permission grant.permission) (or_iff_left not_false).symm
  · cases grant.condition with
    | none => rfl
    | some condition => exact issue_of_one role (.condition grant.permission condition) isIn_iff

/-- The issues of a role are those of its name and of the references that are missed. -/
theorem roleIssues_eq (role : String) : roleIssues d conditions role =
    nameIssues role ++ (missed d conditions role).map (Reference.issue role) := by
  unfold roleIssues missed PolicyDefinition.references
  rw [List.filter_append,List.map_append,List.append_assoc]
  congr 1
  congr 1
  · rw [List.map_eq_flatMap (f := Reference.role),List.filter_flatMap,List.map_flatMap]
    apply List.flatMap_congr
    exact fun parent _ => issue_of_one role (.role parent) (or_iff_left not_false).symm
  · rw [List.filter_flatMap,List.map_flatMap]
    apply List.flatMap_congr
    exact fun grant _ => grantIssues_eq role grant

theorem missed_sublist (role : String) : (missed d conditions role).Sublist (violations d conditions role) := by
  have hmissed : missed d conditions role =
      (violations d conditions role).filter fun r => ¬ (r.Declared d conditions ∨ r.Inherited) := by
    rw [violations,List.filter_filter]
    apply List.filter_congr
    intro r _
    by_cases hd : r.Declared d conditions <;> simp [hd]
  rw [hmissed]
  exact List.filter_sublist

/-- Lists whose parts are sublists of one another have the same parts, if they are the same. -/
theorem parts_eq {κ β : Type*} {f g : κ → List β} {keys : List κ} (hsub : ∀ key, (f key).Sublist (g key))
    (h : keys.flatMap f = keys.flatMap g) : ∀ key ∈ keys, f key = g key := by
  induction keys with
  | nil => exact fun _ hin => by cases hin
  | cons key keys ih =>
    have hrest : ∀ keys : List κ, (keys.flatMap f).length ≤ (keys.flatMap g).length := by
      intro keys
      induction keys with
      | nil => exact le_rfl
      | cons key keys ih =>
        rw [List.flatMap_cons,List.flatMap_cons,List.length_append,List.length_append]
        exact Nat.add_le_add (hsub key).length_le ih
    have hlength := congrArg List.length h
    rw [List.flatMap_cons,List.flatMap_cons,List.length_append,List.length_append] at hlength
    have hfirst := (hsub key).length_le
    have hothers := hrest keys
    have hsame : f key = g key := (hsub key).eq_of_length (by omega)
    rw [List.flatMap_cons,List.flatMap_cons,hsame] at h
    intro key' hin
    rcases List.mem_cons.mp hin with rfl | hin
    · exact hsame
    · exact ih (List.append_cancel_left h) key' hin

end Issues

section Exactness
variable {α : Type}

/-- Every reference to nothing that is declared has its issue, beside those of names and of cycles. -/
def ReportsReferences (d : PolicyDefinition) (conditions : List String) : Prop :=
  ∃ cycles, cycleIssues d = some cycles ∧ validate d conditions = some (d.resources.flatMap resourceIssues ++
    d.roleNames.flatMap (fun role =>
      nameIssues role ++ (violations d conditions role).map (Reference.issue role)) ++ cycles)

/-- A policy is made only of a definition whose references are declared, and all others are reported. -/
structure ExactOnReferences (d : PolicyDefinition) (conditions : ConditionMap α) : Prop where
  declared : ∀ policy, make d conditions = some (.ok policy) → ∀ role ∈ d.roleNames, ∀ r ∈ d.references role,
    r.Declared d (conditions.map Prod.fst)
  reported : ReportsReferences d (conditions.map Prod.fst)

variable {d : PolicyDefinition} {conditions : List String}

theorem cycleIssues_total (d : PolicyDefinition) : ∃ cycles, cycleIssues d = some cycles := by
  obtain ⟨issues,hissues⟩ := validate_total (d := d) []
  obtain ⟨cycles,hcycles,-⟩ := Option.bind_eq_some_iff.mp hissues
  exact ⟨cycles,hcycles⟩

theorem validate_eq {cycles : List String} (h : cycleIssues d = some cycles) : validate d conditions =
    some (d.resources.flatMap resourceIssues ++ d.roleNames.flatMap (fun role =>
      nameIssues role ++ (missed d conditions role).map (Reference.issue role)) ++ cycles) := by
  rw [validate,h]
  simp only [Option.bind_eq_bind,Option.bind_some,Option.pure_def,Option.some.injEq]
  congr 2
  apply List.flatMap_congr
  exact fun role _ => roleIssues_eq role

theorem reportsReferences_iff : ReportsReferences d conditions ↔
    ∀ role ∈ d.roleNames, missed d conditions role = violations d conditions role := by
  obtain ⟨cycles,hcycles⟩ := cycleIssues_total d
  constructor
  · rintro ⟨cycles',hcycles',hvalidate⟩
    obtain rfl := Option.some.inj (hcycles.symm.trans hcycles')
    rw [validate_eq hcycles] at hvalidate
    have hroles := List.append_cancel_left (List.append_cancel_right (Option.some.inj hvalidate))
    have hparts := parts_eq (fun role => List.Sublist.append_left ((missed_sublist role).map _) _) hroles
    intro role hrole
    have hlength := congrArg List.length (List.append_cancel_left (hparts role hrole))
    rw [List.length_map,List.length_map] at hlength
    exact (missed_sublist role).eq_of_length hlength
  · intro h
    refine ⟨cycles,hcycles,?_⟩
    rw [validate_eq hcycles]
    congr 3
    apply List.flatMap_congr
    intro role hrole
    rw [h role hrole]

/-- A reported reference is in the issues that `make` fails with. -/
theorem issue_mem (h : ReportsReferences d conditions) {role : String} (hrole : role ∈ d.roleNames) {r : Reference}
    (hr : r ∈ violations d conditions role) : ∃ issues, validate d conditions = some issues ∧ r.issue role ∈ issues := by
  obtain ⟨cycles,-,hvalidate⟩ := h
  refine ⟨_,hvalidate,List.mem_append_left _ (List.mem_append_right _ ?_)⟩
  apply List.mem_flatMap_of_mem hrole
  exact List.mem_append_right _ (List.mem_map_of_mem hr)

/-- Validation is exact on the references of just the definitions that name nothing inherited. -/
theorem references_exact_iff (d : PolicyDefinition) (conditions : ConditionMap α) :
    ExactOnReferences d conditions ↔
      ∀ role ∈ d.roleNames, ∀ r ∈ d.references role, r.Inherited → r.Declared d (conditions.map Prod.fst) := by
  constructor
  · intro h role hrole r hr hinherited
    by_contra hnot
    have hviolation : r ∈ violations d (conditions.map Prod.fst) role := List.mem_filter.mpr ⟨hr,decide_eq_true hnot⟩
    rw [← reportsReferences_iff.mp h.reported role hrole] at hviolation
    have hmissed := of_decide_eq_true (List.mem_filter.mp hviolation).2
    exact hmissed (Or.inr hinherited)
  · intro h
    have hreports : ReportsReferences d (conditions.map Prod.fst) := by
      rw [reportsReferences_iff]
      intro role hrole
      apply List.filter_congr
      intro r hr
      simp only [decide_eq_decide,not_iff_not,or_iff_left_iff_imp]
      exact h role hrole r hr
    refine ⟨?_,hreports⟩
    intro policy hmake role hrole r hr
    by_contra hnot
    obtain ⟨issues,hissues,hmem⟩ := issue_mem hreports hrole (List.mem_filter.mpr ⟨hr,decide_eq_true hnot⟩)
    have hne : issues ≠ [] := List.ne_nil_of_mem hmem
    rw [make,hissues] at hmake
    simp [hne] at hmake

theorem undeclared_resources : ([("invoice",["approve"])].map Prod.fst).Nodup := by decide

def undeclared : PolicyDefinition where
  resources := [("invoice",["approve"])]
  roles := [("clerk",⟨none,some [.conditional "invoice:approve" "constructor"]⟩)]
  resourceKeys := undeclared_resources
  roleKeys := by decide

theorem make_undeclared : (∃ policy, make undeclared ([] : ConditionMap Unit) = some (.ok policy)) ∧
    ¬ ExactOnReferences undeclared ([] : ConditionMap Unit) := by
  have hmake : (make undeclared ([] : ConditionMap Unit)).isSome = true ∧
      ((make undeclared ([] : ConditionMap Unit)).map fun r => r.toBool) = some true := by decide +kernel
  obtain ⟨result,hresult,hok⟩ := Option.map_eq_some_iff.mp hmake.2
  cases result with
  | error issues => cases hok
  | ok policy =>
    refine ⟨⟨policy,hresult⟩,?_⟩
    intro h
    have hnone := h.declared policy hresult "clerk" (by decide) (.condition "invoice:approve" "constructor") (by decide +kernel)
    cases hnone

end Exactness

end StructureAi.Authorization

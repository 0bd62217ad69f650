import StructureAi.Authorization.PolicyValidation

/-! # What a policy means

A role holds what it, or a role it inherits from by any chain, is granted. Nothing here
depends on an order.
-/
namespace StructureAi.Authorization
open StructureAi.Foundation
variable (d : PolicyDefinition)

section Meaning

def Declares (permission : String) : Prop :=
  ∃ resource ∈ d.resources, ∃ action ∈ resource.2, permission = resource.1 ++ ":" ++ action

/-- The permissions of a grant: with `*` all that are declared, with `resource:*` those of the resource. -/
inductive Covers : String → String → Prop
  | everything (permission : String) (declared : Declares d permission) : Covers "*" permission
  | resource (name : String) (actions : List String) (action : String) (declared : (name,actions) ∈ d.resources)
      (mem : action ∈ actions) : Covers (name ++ ":*") (name ++ ":" ++ action)
  | exactly (permission : String) (single : permission ≠ "*") (whole : ∀ name, permission ≠ name ++ ":*") :
      Covers permission permission

def Inherits : String → String → Prop := Relation.ReflTransGen fun role parent => parent ∈ d.parents role

/-- The role, or a role it inherits from by any chain, has a grant of the permission. -/
def Grants (role permission : String) (condition : Option String) : Prop :=
  ∃ ancestor, Inherits d role ancestor ∧ ∃ grant ∈ d.grants ancestor,
    grant.condition = condition ∧ Covers d grant.permission permission

variable {α : Type} (conditions : ConditionMap α)

def HoldsRole (principal : Principal α) (scope : Option String) (role : String) : Prop :=
  .everywhere role ∈ principal.roles ∨ ∃ name, scope = some name ∧ .inScope role name ∈ principal.roles

/-- Some declared role the principal holds reaches a grant without condition or whose condition holds. -/
def Allows (principal : Principal α) (permission : String) (options : Option (CheckOptions α)) : Prop :=
  Declares d permission ∧ ∃ role ∈ d.roleNames, HoldsRole principal (options.bind CheckOptions.scope) role ∧
    (Grants d role permission none ∨ ∃ name condition, Grants d role permission (some name) ∧
      conditions.lookup name = some condition ∧ condition (Policy.contextOf principal options) = true)

/-- Every resource and condition a grant names is an own entry. -/
structure OwnReferences (conditions : List String) : Prop where
  resources : ∀ role, ∀ grant ∈ d.grants role, ∀ name, wildcardOf grant.permission = some name →
    name ∈ d.resources.map Prod.fst
  conditions : ∀ role, ∀ grant ∈ d.grants role, ∀ name, grant.condition = some name → name ∈ conditions

/-- The conditions of a permission are the grants it is held under, if it is not held without one. -/
structure Alternatives (role permission : String) (names : List String) : Prop where
  conditional : ¬ Grants d role permission none
  nonempty : names ≠ []
  exact : ∀ name, name ∈ names ↔ Grants d role permission (some name)
  nodup : names.Nodup
  ascending : names.Pairwise textLe

def Reports (role permission : String) : MatrixCell → Prop
  | .granted => Grants d role permission none
  | .conditional names => Alternatives d role permission names
  | .denied => ∀ condition, ¬ Grants d role permission condition

end Meaning

section Expansion
variable {d}

theorem wildcardOf_eq_some {permission name : String} : wildcardOf permission = some name ↔ permission = name ++ ":*" := by
  constructor
  · intro h
    unfold wildcardOf at h
    split at h
    · rename_i resource hr
      obtain rfl := Option.some.inj h
      apply String.toList_injective
      rw [String.toList_append,String.toList_ofList,← List.reverse_reverse permission.toList,hr]
      simp
    · cases h
  · rintro rfl
    have hr : (name ++ ":*").toList.reverse = '*' :: ':' :: name.toList.reverse := by
      rw [String.toList_append,List.reverse_append]
      rfl
    rw [wildcardOf,hr]
    simp

theorem mem_permissions {permission : String} : permission ∈ d.permissions ↔ Declares d permission := by
  unfold PolicyDefinition.permissions Declares
  simp only [List.mem_flatMap,List.mem_map]
  constructor
  · rintro ⟨resource,hr,action,ha,rfl⟩
    exact ⟨resource,hr,action,ha,rfl⟩
  · rintro ⟨resource,hr,action,ha,rfl⟩
    exact ⟨resource,hr,action,ha,rfl⟩

theorem star_ne (name : String) : "*" ≠ name ++ ":*" := by
  intro h
  have hlen := congrArg (fun s => s.toList.length) h
  simp [String.toList_append] at hlen

theorem expandGrant_covers {pattern : String}
    (hown : ∀ name, wildcardOf pattern = some name → name ∈ d.resources.map Prod.fst) :
    ∃ expanded, expandGrant d pattern = some expanded ∧
      ∀ permission, permission ∈ expanded ↔ Covers d pattern permission := by
  unfold expandGrant
  by_cases hstar : pattern = "*"
  · subst hstar
    refine ⟨d.permissions,if_pos rfl,?_⟩
    intro permission
    rw [mem_permissions]
    constructor
    · exact .everything permission
    · intro h
      generalize hp : "*" = pattern at h
      cases h with
      | everything permission declared => exact declared
      | resource name actions action declared mem => exact absurd hp (star_ne name)
      | exactly permission single whole => exact absurd hp.symm single
  · rw [if_neg hstar]
    cases hw : wildcardOf pattern with
    | none =>
      refine ⟨[pattern],rfl,?_⟩
      intro permission
      rw [List.mem_singleton]
      constructor
      · rintro rfl
        apply Covers.exactly permission hstar
        intro name hname
        rw [wildcardOf_eq_some.mpr hname] at hw
        cases hw
      · intro h
        cases h with
        | everything permission declared => exact absurd rfl hstar
        | resource name actions action declared mem =>
          rw [wildcardOf_eq_some.mpr rfl] at hw
          cases hw
        | exactly => rfl
    | some name =>
      obtain ⟨actions,hactions⟩ := Option.isSome_iff_exists.mp (lookup_isSome.mpr (hown name hw))
      have hmem := (lookup_eq_some_iff d.resourceKeys).mp hactions
      obtain rfl := wildcardOf_eq_some.mp hw
      simp only [hactions]
      refine ⟨_,rfl,?_⟩
      intro permission
      rw [List.mem_map]
      constructor
      · rintro ⟨action,ha,rfl⟩
        exact .resource name actions action hmem ha
      · intro h
        generalize hp : name ++ ":*" = pattern at h
        cases h with
        | everything permission declared => exact absurd hp hstar
        | resource name' actions' action declared mem =>
          have hname := wildcardOf_eq_some.mpr hp
          rw [wildcardOf_eq_some.mpr rfl] at hname
          obtain rfl := Option.some.inj hname
          have hsame := (lookup_eq_some_iff d.resourceKeys).mpr declared
          rw [hactions] at hsame
          obtain rfl := Option.some.inj hsame
          exact ⟨action,mem,rfl⟩
        | exactly permission single whole => exact absurd hp.symm (whole name)

end Expansion

end StructureAi.Authorization

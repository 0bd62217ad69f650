import StructureAi.Authorization.PolicyResolution

/-! # Decisions

The entries of a built policy represent the grants of the declared roles, so a decision,
a row of the matrix and the grants of a role are read off the declarative meaning.
-/
namespace StructureAi.Authorization
open StructureAi.Foundation
variable {α : Type}

section Principals

theorem mem_foldl {β γ : Type*} {f : List β → γ → List β} {P : γ → Prop} {x : β}
    (hstep : ∀ out a, x ∈ f out a ↔ x ∈ out ∨ P a) (as : List γ) (out : List β) :
    x ∈ as.foldl f out ↔ x ∈ out ∨ ∃ a ∈ as, P a := by
  induction as generalizing out with
  | nil => simp
  | cons a as ih =>
    rw [List.foldl_cons,ih,hstep]
    simp only [List.mem_cons,exists_eq_or_imp]
    rw [or_assoc]

theorem mem_rolesIn {principal : Principal α} {scope : Option String} {role : String} :
    role ∈ rolesIn principal scope ↔ HoldsRole principal scope role := by
  unfold rolesIn HoldsRole
  rw [mem_foldl (P := fun assignment =>
    assignment = .everywhere role ∨ ∃ name, scope = some name ∧ assignment = .inScope role name)]
  · simp only [List.not_mem_nil,false_or]
    constructor
    · rintro ⟨assignment,hin,rfl | ⟨name,hs,rfl⟩⟩
      · exact Or.inl hin
      · exact Or.inr ⟨name,hs,hin⟩
    · rintro (hin | ⟨name,hs,hin⟩)
      · exact ⟨_,hin,Or.inl rfl⟩
      · exact ⟨_,hin,Or.inr ⟨name,hs,rfl⟩⟩
  · intro out assignment
    cases assignment with
    | everywhere role' =>
      simp only [Assignment.everywhere.injEq,reduceCtorEq,and_false,exists_false,or_false]
      split
      · rename_i hout
        constructor
        · exact Or.inl
        · rintro (h | rfl)
          · exact h
          · exact hout
      · rw [List.mem_append,List.mem_singleton,eq_comm]
    | inScope role' name' =>
      simp only [Assignment.inScope.injEq,reduceCtorEq,false_or]
      split
      · rename_i hs
        rw [List.mem_append,List.mem_singleton]
        constructor
        · rintro (h | rfl)
          · exact Or.inl h
          · exact Or.inr ⟨name',hs.1,rfl,rfl⟩
        · rintro (h | ⟨name,-,rfl,-⟩)
          · exact Or.inl h
          · exact Or.inr rfl
      · rename_i hs
        constructor
        · exact Or.inl
        · rintro (h | ⟨name,hn,rfl,rfl⟩)
          · exact h
          · by_contra hout
            exact hs ⟨hn,hout⟩

end Principals

section Sorting

theorem sorted_perm (names : List String) : (sorted names).Perm names :=
  List.perm_insertionSort textLe names

theorem sorted_ascending (names : List String) : (sorted names).Pairwise textLe :=
  List.pairwise_insertionSort textLe names

theorem Alternatives.unique {d d' : PolicyDefinition} {role permission : String} {names names' : List String}
    (hsame : ∀ condition, Grants d role permission condition ↔ Grants d' role permission condition)
    (h : Alternatives d role permission names) (h' : Alternatives d' role permission names') : names = names' := by
  have hperm : names.Perm names' := by
    apply (List.perm_ext_iff_of_nodup h.nodup h'.nodup).mpr
    intro name
    rw [h.exact,h'.exact,hsame]
  exact hperm.eq_of_pairwise (fun _ _ _ _ hle hge => antisymm hle hge) h.ascending h'.ascending

end Sorting

section Entries

/-- Every declared role is resolved, to what it is granted; no other role is. -/
structure Policy.Faithful (policy : Policy α) : Prop where
  declared : ∀ role ∈ policy.definition.roleNames, ∃ own,
    policy.resolved.lookup role = some own ∧ Represents own (Grants policy.definition role)
  undeclared : ∀ role, role ∉ policy.definition.roleNames → policy.resolved.lookup role = none

namespace Policy.Faithful
variable {policy : Policy α} {role permission : String}

theorem entry_declared (h : policy.Faithful) {entry : Option (List String)}
    (he : policy.entry role permission = some entry) : role ∈ policy.definition.roleNames := by
  by_contra hout
  rw [Policy.entry,h.undeclared role hout] at he
  cases he

theorem entry_always (h : policy.Faithful) (hrole : role ∈ policy.definition.roleNames) :
    policy.entry role permission = some none ↔ Grants policy.definition role permission none := by
  obtain ⟨own,hl,hr⟩ := h.declared role hrole
  rw [Policy.entry,hl]
  exact hr.always permission

theorem entry_listed (h : policy.Faithful) {names : List String}
    (he : policy.entry role permission = some (some names)) :
    Alternatives policy.definition role permission (sorted names) := by
  have hrole := h.entry_declared he
  have hnot : ¬ Grants policy.definition role permission none := by
    rw [← h.entry_always hrole,he]
    rintro ⟨⟩
  obtain ⟨own,hl,hr⟩ := h.declared role hrole
  rw [Policy.entry,hl] at he
  obtain ⟨hne,hnodup,hmem⟩ := hr.listed permission names he
  constructor
  · exact hnot
  · intro hnil
    exact hne (List.nil_perm.mp (hnil ▸ sorted_perm names))
  · intro name
    rw [(sorted_perm names).mem_iff,hmem]
  · exact (sorted_perm names).nodup_iff.mpr hnodup
  · exact sorted_ascending names

theorem entry_absent (h : policy.Faithful) (hrole : role ∈ policy.definition.roleNames)
    (he : policy.entry role permission = none) (condition : Option String) :
    ¬ Grants policy.definition role permission condition := by
  obtain ⟨own,hl,hr⟩ := h.declared role hrole
  rw [Policy.entry,hl] at he
  exact hr.absent permission he condition

theorem cell_reports (h : policy.Faithful) (hrole : role ∈ policy.definition.roleNames) :
    Reports policy.definition role permission (policy.cell role permission) := by
  unfold Policy.cell
  split
  · rename_i he
    exact h.entry_absent hrole he
  · rename_i he
    exact (h.entry_always hrole).mp he
  · rename_i names he
    exact h.entry_listed he

end Policy.Faithful
end Entries

section Deciding
variable {policy : Policy α}

theorem decideIn_allowed (base : Decision) (hbase : base.allowed = false) (context : ConditionContext α)
    (known : List String) (roles unmet : List String) :
    (policy.decideIn base context known unmet roles).allowed = true ↔ ∃ role ∈ roles,
      policy.entry role base.permission = some none ∨ ∃ names,
        policy.entry role base.permission = some (some names) ∧ ∃ name ∈ names, policy.holds context name = true := by
  induction roles generalizing unmet with
  | nil => simp [Policy.decideIn,hbase]
  | cons role roles ih =>
    rw [Policy.decideIn]
    simp only [List.mem_cons,exists_eq_or_imp]
    split
    · rename_i he
      rw [ih,he]
      simp
    · rename_i he
      rw [he]
      simp
    · rename_i names he
      rw [he]
      split
      · rename_i name hfind
        apply iff_of_true rfl
        left
        right
        exact ⟨names,rfl,name,List.mem_of_find?_eq_some hfind,List.find?_some hfind⟩
      · rename_i hfind
        rw [ih]
        apply (or_iff_right _).symm
        rintro (hn | ⟨names',hn,name,hin,hholds⟩)
        · cases hn
        · obtain rfl := Option.some.inj (Option.some.inj hn)
          exact List.find?_eq_none.mp hfind name hin hholds

theorem holds_iff {context : ConditionContext α} {name : String} :
    policy.holds context name = true ↔ ∃ condition, policy.conditions.lookup name = some condition ∧
      condition context = true := by
  unfold Policy.holds
  rw [Option.any_eq_true]

theorem Policy.Faithful.decides (h : policy.Faithful) (principal : Principal α) (permission : String)
    (options : Option (CheckOptions α)) :
    (policy.decide principal permission options).allowed = true ↔
      Allows policy.definition policy.conditions principal permission options := by
  have hknown : ∀ role, role ∈ policy.definition.roleNames →
      (role ∈ (rolesIn principal (options.bind CheckOptions.scope)).filter policy.isRole ↔
        HoldsRole principal (options.bind CheckOptions.scope) role) := by
    intro role hrole
    have his : policy.isRole role = true := by simp [Policy.isRole,isIn,hrole]
    rw [List.mem_filter,mem_rolesIn,his]
    exact and_iff_left rfl
  unfold Policy.decide Allows
  rw [← mem_permissions]
  split
  · rename_i hout
    exact iff_of_false (by simp) fun hallow => hout hallow.1
  · rename_i hin
    rw [and_iff_right (not_not.mp hin)]
    dsimp only
    split
    · rename_i hnil
      apply iff_of_false (by simp)
      rintro ⟨role,hrole,hholds,-⟩
      have hmem := (hknown role hrole).mpr hholds
      rw [hnil] at hmem
      cases hmem
    · rw [decideIn_allowed _ rfl]
      constructor
      · rintro ⟨role,hmem,hentry⟩
        obtain ⟨entry,he⟩ : ∃ entry, policy.entry role permission = some entry := by
          rcases hentry with he | ⟨names,he,-⟩
          · exact ⟨_,he⟩
          · exact ⟨_,he⟩
        have hrole := h.entry_declared he
        refine ⟨role,hrole,(hknown role hrole).mp hmem,?_⟩
        rcases hentry with he | ⟨names,he,name,hname,hholds⟩
        · left
          exact (h.entry_always hrole).mp he
        · right
          obtain ⟨condition,hl,hc⟩ := holds_iff.mp hholds
          exact ⟨name,condition,((h.entry_listed he).exact name).mp ((sorted_perm names).mem_iff.mpr hname),hl,hc⟩
      · rintro ⟨role,hrole,hholds,hgrants⟩
        refine ⟨role,(hknown role hrole).mpr hholds,?_⟩
        rcases hgrants with hg | ⟨name,condition,hg,hl,hc⟩
        · left
          exact (h.entry_always hrole).mpr hg
        · -- an unconditional grant has absorbed the condition, or the condition is listed
          change policy.entry role permission = _ ∨ ∃ names, policy.entry role permission = _ ∧ _
          cases he : policy.entry role permission with
          | none => exact absurd hg (h.entry_absent hrole he (some name))
          | some entry =>
            cases entry with
            | none => exact Or.inl rfl
            | some names =>
              right
              have hmem := ((h.entry_listed he).exact name).mpr hg
              exact ⟨names,rfl,name,(sorted_perm names).mem_iff.mp hmem,holds_iff.mpr ⟨condition,hl,hc⟩⟩

end Deciding

section Reporting
variable {d : PolicyDefinition} {conditions : ConditionMap α} {role permission : String}

theorem not_grants (hrole : role ∉ d.roleNames) (condition : Option String) : ¬ Grants d role permission condition := by
  have hl := lookup_eq_none.mpr hrole
  rintro ⟨ancestor,hinherits,grant,hgrant,-⟩
  rcases Relation.ReflTransGen.cases_head hinherits with rfl | ⟨parent,hparent,-⟩
  · simp [PolicyDefinition.grants,hl] at hgrant
  · simp [PolicyDefinition.parents,hl] at hparent

theorem Reports.unique {d' : PolicyDefinition}
    (hsame : ∀ condition, Grants d role permission condition ↔ Grants d' role permission condition)
    {cell cell' : MatrixCell} (h : Reports d role permission cell) (h' : Reports d' role permission cell') :
    cell = cell' := by
  have hnot : ∀ names, Alternatives d' role permission names → ∃ name, Grants d role permission (some name) := by
    intro names hn
    obtain ⟨name,hname⟩ := List.exists_mem_of_ne_nil names hn.nonempty
    exact ⟨name,(hsame _).mpr ((hn.exact name).mp hname)⟩
  have hnot' : ∀ names, Alternatives d role permission names → ∃ name, Grants d' role permission (some name) := by
    intro names hn
    obtain ⟨name,hname⟩ := List.exists_mem_of_ne_nil names hn.nonempty
    exact ⟨name,(hsame _).mp ((hn.exact name).mp hname)⟩
  cases cell with
  | granted =>
    cases cell' with
    | granted => rfl
    | conditional names => exact absurd ((hsame none).mp h) h'.conditional
    | denied => exact absurd ((hsame none).mp h) (h' none)
  | conditional names =>
    cases cell' with
    | granted => exact absurd ((hsame none).mpr h') h.conditional
    | conditional names' => rw [Alternatives.unique hsame h h']
    | denied =>
      obtain ⟨name,hname⟩ := hnot' names h
      exact absurd hname (h' (some name))
  | denied =>
    cases cell' with
    | granted => exact absurd ((hsame none).mpr h') (h none)
    | conditional names =>
      obtain ⟨name,hname⟩ := hnot names h'
      exact absurd hname (h (some name))
    | denied => rfl

/-- `cells[role]?.[permission]`. -/
def PolicyMatrix.cell (matrix : PolicyMatrix) (role permission : String) : Option MatrixCell :=
  (matrix.cells.lookup role).bind fun row => row.lookup permission

/-- What a policy answers is what its definition means. -/
structure Policy.Exact (policy : Policy α) (d : PolicyDefinition) (conditions : ConditionMap α) : Prop where
  decides : ∀ principal permission options, (policy.decide principal permission options).allowed = true ↔
    Allows d conditions principal permission options
  cells : ∀ role permission cell, policy.matrix.cell role permission = some cell ↔
    role ∈ d.roleNames ∧ Declares d permission ∧ Reports d role permission cell
  grants : ∀ role permission names, ⟨permission,names⟩ ∈ policy.grantsOf role ↔ Declares d permission ∧
    (names = [] ∧ Grants d role permission none ∨ Alternatives d role permission names)

theorem Policy.Faithful.exact {policy : Policy α} (h : policy.Faithful) :
    policy.Exact policy.definition policy.conditions := by
  constructor
  · exact h.decides
  · intro role permission cell
    unfold PolicyMatrix.cell Policy.matrix
    dsimp only
    rw [lookup_map,← mem_permissions]
    by_cases hrole : role ∈ policy.definition.roleNames
    · rw [if_pos hrole,Option.bind_some,lookup_map]
      by_cases hp : permission ∈ policy.definition.permissions
      · rw [if_pos hp,Option.some.injEq]
        constructor
        · rintro rfl
          exact ⟨hrole,hp,h.cell_reports hrole⟩
        · rintro ⟨-,-,hreports⟩
          exact Reports.unique (fun _ => Iff.rfl) (h.cell_reports hrole) hreports
      · simp [hp]
    · simp [hrole]
  · intro role permission names
    unfold Policy.grantsOf
    rw [List.mem_filterMap,← mem_permissions]
    constructor
    · rintro ⟨permission',hp,hentry⟩
      obtain ⟨entry,he,hgrant⟩ := Option.map_eq_some_iff.mp hentry
      obtain ⟨rfl,rfl⟩ := ResolvedGrant.mk.inj hgrant
      refine ⟨hp,?_⟩
      cases entry with
      | none =>
        left
        exact ⟨rfl,(h.entry_always (h.entry_declared he)).mp he⟩
      | some names =>
        right
        exact h.entry_listed he
    · rintro ⟨hp,hgrants⟩
      refine ⟨permission,hp,?_⟩
      have hrole : role ∈ policy.definition.roleNames := by
        by_contra hout
        rcases hgrants with ⟨-,hg⟩ | ha
        · exact not_grants hout none hg
        · obtain ⟨name,hname⟩ := List.exists_mem_of_ne_nil names ha.nonempty
          exact not_grants hout _ ((ha.exact name).mp hname)
      rcases hgrants with ⟨rfl,hg⟩ | ha
      · rw [(h.entry_always hrole).mpr hg]
        rfl
      · cases he : policy.entry role permission with
        | none =>
          obtain ⟨name,hname⟩ := List.exists_mem_of_ne_nil names ha.nonempty
          exact absurd ((ha.exact name).mp hname) (h.entry_absent hrole he _)
        | some entry =>
          cases entry with
          | none => exact absurd ((h.entry_always hrole).mp he) ha.conditional
          | some names' =>
            rw [Alternatives.unique (fun _ => Iff.rfl) ha (h.entry_listed he)]
            rfl

/-- The same resources, actions, roles, parents and grants, in whatever order and however often. -/
structure Reordered (d d' : PolicyDefinition) : Prop where
  actions : ∀ name action, (∃ actions, (name,actions) ∈ d.resources ∧ action ∈ actions) ↔
    ∃ actions, (name,actions) ∈ d'.resources ∧ action ∈ actions
  roles : ∀ role, role ∈ d.roleNames ↔ role ∈ d'.roleNames
  parents : ∀ role parent, parent ∈ d.parents role ↔ parent ∈ d'.parents role
  grants : ∀ role grant, grant ∈ d.grants role ↔ grant ∈ d'.grants role

namespace Reordered
variable {d' : PolicyDefinition}

theorem symm (h : Reordered d d') : Reordered d' d := by
  constructor
  · exact fun name action => (h.actions name action).symm
  · exact fun role => (h.roles role).symm
  · exact fun role parent => (h.parents role parent).symm
  · exact fun role grant => (h.grants role grant).symm

theorem declares (h : Reordered d d') (hp : Declares d permission) : Declares d' permission := by
  obtain ⟨⟨name,actions⟩,hr,action,ha,rfl⟩ := hp
  obtain ⟨actions',hr',ha'⟩ := (h.actions name action).mp ⟨actions,hr,ha⟩
  exact ⟨(name,actions'),hr',action,ha',rfl⟩

theorem covers (h : Reordered d d') {pattern : String} (hc : Covers d pattern permission) :
    Covers d' pattern permission := by
  cases hc with
  | everything permission declared => exact .everything permission (h.declares declared)
  | resource name actions action declared mem =>
    obtain ⟨actions',hr',ha'⟩ := (h.actions name action).mp ⟨actions,declared,mem⟩
    exact .resource name actions' action hr' ha'
  | exactly permission single whole => exact .exactly permission single whole

theorem grants_of (h : Reordered d d') {condition : Option String} (hg : Grants d role permission condition) :
    Grants d' role permission condition := by
  obtain ⟨ancestor,hinherits,grant,hgrant,hc,hcovers⟩ := hg
  have hinherits' : Inherits d' role ancestor :=
    Relation.ReflTransGen.mono (fun role parent hparent => (h.parents role parent).mp hparent) _ _ hinherits
  exact ⟨ancestor,hinherits',grant,(h.grants ancestor grant).mp hgrant,hc,h.covers hcovers⟩

theorem grants_iff (h : Reordered d d') {condition : Option String} :
    Grants d role permission condition ↔ Grants d' role permission condition :=
  ⟨h.grants_of,h.symm.grants_of⟩

theorem allows (h : Reordered d d') {principal : Principal α} {options : Option (CheckOptions α)}
    (ha : Allows d conditions principal permission options) : Allows d' conditions principal permission options := by
  obtain ⟨hp,role,hrole,hholds,hgrants⟩ := ha
  refine ⟨h.declares hp,role,(h.roles role).mp hrole,hholds,?_⟩
  rcases hgrants with hg | ⟨name,condition,hg,hl,hc⟩
  · exact Or.inl (h.grants_of hg)
  · exact Or.inr ⟨name,condition,h.grants_of hg,hl,hc⟩

end Reordered

theorem make_faithful (hv : validate d (conditions.map Prod.fst) = some [])
    (hown : OwnReferences d (conditions.map Prod.fst)) :
    ∃ policy : Policy α, make d conditions = some (.ok policy) ∧ policy.definition = d ∧
      policy.conditions = conditions ∧ policy.Faithful := by
  obtain ⟨resolved,hr,hmemo,hfound⟩ := resolveRoles_valid hv hown.resources
  refine ⟨⟨d,conditions,resolved⟩,?_,rfl,rfl,?_⟩
  · simp [make,hv,build,hr]
  · constructor
    · intro role hrole
      obtain ⟨own,hl⟩ := Option.ne_none_iff_exists'.mp (hfound role hrole)
      exact ⟨own,hl,(hmemo role own hl).2⟩
    · intro role hrole
      by_contra hl
      obtain ⟨own,hl⟩ := Option.ne_none_iff_exists'.mp hl
      exact hrole (hmemo role own hl).1

/-- A policy decides and reports what its definition means, in whatever order the definition is written. -/
theorem make_exact (d : PolicyDefinition) (conditions : ConditionMap α)
    (hv : validate d (conditions.map Prod.fst) = some []) (hown : OwnReferences d (conditions.map Prod.fst)) :
    ∃ policy : Policy α, make d conditions = some (.ok policy) ∧ policy.Exact d conditions ∧
      ∀ d' policy', Reordered d d' → OwnReferences d' (conditions.map Prod.fst) →
        make d' conditions = some (.ok policy') →
        (∀ principal permission options,
          (policy'.decide principal permission options).allowed = (policy.decide principal permission options).allowed) ∧
        ∀ role permission, policy'.matrix.cell role permission = policy.matrix.cell role permission := by
  obtain ⟨policy,hmake,rfl,rfl,hf⟩ := make_faithful hv hown
  refine ⟨policy,hmake,hf.exact,?_⟩
  intro d' policy' hsame hown' hmake'
  -- a policy is made of definitions without issues only
  have hv' : validate d' (policy.conditions.map Prod.fst) = some [] := by
    obtain ⟨issues,hissues,hrest⟩ := Option.bind_eq_some_iff.mp hmake'
    rw [hissues]
    split at hrest
    · cases hrest
    · rename_i hnil
      rw [not_not.mp hnil]
  obtain ⟨policy₁,hmake₁,rfl,hconditions,hf'⟩ := make_faithful hv' hown'
  rw [hmake'] at hmake₁
  obtain rfl := Except.ok.inj (Option.some.inj hmake₁)
  have hexact := hf'.exact
  rw [hconditions] at hexact
  constructor
  · intro principal permission options
    rw [Bool.eq_iff_iff,hexact.decides,hf.exact.decides]
    exact ⟨hsame.symm.allows,hsame.allows⟩
  · intro role permission
    apply Option.ext
    intro cell
    rw [hexact.cells,hf.exact.cells,← hsame.roles]
    apply and_congr_right
    intro hrole
    apply and_congr ⟨hsame.symm.declares,hsame.declares⟩
    have hreports : Reports _ role permission _ := hf.cell_reports hrole
    have hreports' : Reports _ role permission _ := hf'.cell_reports ((hsame.roles role).mp hrole)
    constructor
    · intro hc
      rw [Reports.unique (fun _ => hsame.grants_iff.symm) hc hreports]
      exact hreports
    · intro hc
      rw [Reports.unique (fun _ => hsame.grants_iff) hc hreports']
      exact hreports'

theorem ownReferences_of {names : List String}
    (h : ∀ entry ∈ d.roles, ∀ grant ∈ entry.2.grants.getD [],
      (wildcardOf grant.permission).all (fun name => name ∈ d.resources.map Prod.fst) = true ∧
      grant.condition.all (fun name => name ∈ names) = true) : OwnReferences d names := by
  have hgrant : ∀ role, ∀ grant ∈ d.grants role,
      (wildcardOf grant.permission).all (fun name => name ∈ d.resources.map Prod.fst) = true ∧
      grant.condition.all (fun name => name ∈ names) = true := by
    intro role grant hin
    unfold PolicyDefinition.grants at hin
    cases hl : d.roles.lookup role with
    | none =>
      rw [hl] at hin
      cases hin
    | some spec =>
      rw [hl,Option.bind_some] at hin
      exact h (role,spec) (mem_of_lookup hl) grant hin
  constructor
  · intro role grant hin name hw
    have hall := (hgrant role grant hin).1
    rw [hw] at hall
    exact of_decide_eq_true hall
  · intro role grant hin name hc
    have hall := (hgrant role grant hin).2
    rw [hc] at hall
    exact of_decide_eq_true hall

/-- An editor reads by two ways, always by one of them and its own documents by the other. -/
def documents : PolicyDefinition where
  resources := [("document",["read","write"]),("user",["invite"])]
  roles :=
    [("editor",⟨some ["author","reviewer"],none⟩),
     ("author",⟨some ["reader"],some [.conditional "document:*" "own"]⟩),
     ("reviewer",⟨some ["reader"],some [.conditional "user:invite" "own"]⟩),
     ("reader",⟨none,some [.always "document:read"]⟩)]
  resourceKeys := by decide
  roleKeys := by decide

def ownOnly : ConditionMap Unit := [("own",fun context => Decidable.decide (context.scope = some context.principal.id))]

theorem make_exact_documents : ∃ policy : Policy Unit, make documents ownOnly = some (.ok policy) ∧
    policy.Exact documents ownOnly := by
  have hv : validate documents (ownOnly.map Prod.fst) = some [] := by decide +kernel
  have hown : OwnReferences documents (ownOnly.map Prod.fst) := ownReferences_of (by decide +kernel)
  obtain ⟨policy,hmake,hexact,-⟩ := make_exact documents ownOnly hv hown
  exact ⟨policy,hmake,hexact⟩

end Reporting

end StructureAi.Authorization

import StructureAi.Authorization.PolicyReferences
import StructureAi.Authorization.PolicyResolution

/-! # Cycles of inheritance

The visit of the roles carries its path as the roles that are being visited. It meets one
of them again only on a cycle, and without a cycle issue the roles it is done with are
layered. Parents that are in no own entry have no parents, so that cycles are those of the
declared roles.
-/
namespace StructureAi.Authorization
open StructureAi.Foundation
variable (d : PolicyDefinition)

def InheritsFrom (role parent : String) : Prop := parent ∈ d.parents role ∧ parent ∈ d.roleNames

def Cyclic : Prop := ∃ role ∈ d.roleNames, Relation.TransGen (InheritsFrom d) role role

section Found
variable {d}

def Visits.LeadTo (d : PolicyDefinition) (v : Visits) (role : String) : Prop :=
  ∀ r ∈ d.roleNames, v.status r = some .visiting → Relation.TransGen (InheritsFrom d) r role

theorem samePath_done {v w : Visits} {role : String} (hs : v.state.lookup role = none)
    (h : Visits.SamePath {v with state := put role .visiting v.state} w) :
    v.SamePath {w with state := put role .done w.state} := by
  intro role'
  have hpath := h role'
  unfold Visits.status at hpath ⊢
  dsimp only at hpath ⊢
  by_cases hr : role' = role
  · subst hr
    rw [lookup_put_self,hs]
    exact iff_of_false nofun nofun
  · rw [lookup_put_of_ne hr] at hpath ⊢
    exact hpath

theorem visit_acyclic (hacyclic : ¬ Cyclic d) {fuel : ℕ} : ∀ (role : String) (path : List String) (v v' : Visits),
    role ∈ d.roleNames → v.LeadTo d role → visit d fuel role path v = some v' →
    v'.issues = v.issues ∧ v.SamePath v' := by
  induction fuel with
  | zero =>
    intro role path v v' hrole hlead h
    cases hs : v.state.lookup role with
    | none =>
      simp only [visit,hs] at h
      cases h
    | some status =>
      cases status with
      | done =>
        rw [visit_done hs] at h
        obtain rfl := Option.some.inj h
        exact ⟨rfl,fun _ => Iff.rfl⟩
      | visiting => exact absurd ⟨role,hrole,hlead role hrole hs⟩ hacyclic
  | succ fuel ih =>
    intro role path v v' hrole hlead h
    cases hs : v.state.lookup role with
    | some status =>
      cases status with
      | done =>
        rw [visit_done hs] at h
        obtain rfl := Option.some.inj h
        exact ⟨rfl,fun _ => Iff.rfl⟩
      | visiting => exact absurd ⟨role,hrole,hlead role hrole hs⟩ hacyclic
    | none =>
      rw [visit_new hs] at h
      obtain ⟨w,hw,rfl⟩ := Option.map_eq_some_iff.mp h
      -- the role itself is on the path of its parents
      have hparents : ∀ (parents : List String) (u : Visits), (∀ parent ∈ parents, parent ∈ d.parents role) →
          Visits.SamePath {v with state := put role .visiting v.state} u →
          visitParents d fuel (path ++ [role]) parents u = some w →
          w.issues = u.issues ∧ Visits.SamePath {v with state := put role .visiting v.state} w := by
        intro parents
        induction parents with
        | nil =>
          intro u _ hu hfold
          obtain rfl := Option.some.inj hfold
          exact ⟨rfl,hu⟩
        | cons parent parents ihp =>
          intro u hin hu hfold
          rw [visitParents,List.foldlM_cons] at hfold
          obtain ⟨u₁,hu₁,hrest⟩ := Option.bind_eq_some_iff.mp hfold
          have hothers : ∀ parent ∈ parents, parent ∈ d.parents role := fun p hp => hin p (List.mem_cons_of_mem parent hp)
          split at hu₁
          · rename_i hparent
            have hedge : InheritsFrom d role parent := ⟨hin parent List.mem_cons_self,hparent⟩
            have hleads : u.LeadTo d parent := by
              intro r hr hvisiting
              have hbefore := (hu r).mp hvisiting
              change (put role .visiting v.state).lookup r = _ at hbefore
              by_cases heq : r = role
              · exact heq ▸ Relation.TransGen.single hedge
              · rw [lookup_put_of_ne heq] at hbefore
                exact (hlead r hr hbefore).tail hedge
            obtain ⟨hsame,hpath⟩ := ih parent (path ++ [role]) u u₁ hparent hleads hu₁
            obtain ⟨hrest,hw⟩ := ihp u₁ hothers (fun r => (hpath r).trans (hu r)) hrest
            exact ⟨hrest.trans hsame,hw⟩
          · obtain rfl := Option.some.inj hu₁
            exact ihp u hothers hu hrest
      obtain ⟨hissues,hpath⟩ := hparents (d.parents role) _ (fun _ h => h) (fun _ => Iff.rfl) hw
      exact ⟨hissues,samePath_done hs hpath⟩

theorem cycleIssues_acyclic (hacyclic : ¬ Cyclic d) : cycleIssues d = some [] := by
  obtain ⟨issues,hissues⟩ := validate_total (d := d) []
  obtain ⟨cycles,hcycles,-⟩ := Option.bind_eq_some_iff.mp hissues
  obtain ⟨v,hv,hvi⟩ := Option.bind_eq_some_iff.mp hcycles
  have hroles : ∀ (roles : List String) (u : Visits), (∀ role ∈ roles, role ∈ d.roleNames) →
      (∀ r, u.status r ≠ some .visiting) →
      roles.foldlM (fun v role => visit d d.roleNames.length role [] v) u = some v → v.issues = u.issues := by
    intro roles
    induction roles with
    | nil =>
      intro u _ _ hfold
      obtain rfl := Option.some.inj hfold
      rfl
    | cons role roles ih =>
      intro u hin hu hfold
      rw [List.foldlM_cons] at hfold
      obtain ⟨u₁,hu₁,hrest⟩ := Option.bind_eq_some_iff.mp hfold
      obtain ⟨hsame,hpath⟩ := visit_acyclic hacyclic role [] u u₁ (hin role List.mem_cons_self)
        (fun r _ hr => absurd hr (hu r)) hu₁
      rw [← hsame]
      exact ih u₁ (fun r hr => hin r (List.mem_cons_of_mem role hr)) (fun r hr => hu r ((hpath r).mp hr)) hrest
  have hnone := hroles d.roleNames ⟨[],[]⟩ (fun _ h => h) (fun _ => nofun) hv
  obtain rfl := Option.some.inj hvi
  rw [hcycles]
  exact congrArg some hnone

end Found

section Missed

/-- The definition with the declared parents only. -/
def declaredOnly : PolicyDefinition where
  resources := d.resources
  roles := d.roles.map fun entry =>
    (entry.1,{entry.2 with inherits := entry.2.inherits.map fun parents => parents.filter (· ∈ d.roleNames)})
  resourceKeys := d.resourceKeys
  roleKeys := by
    rw [List.map_map]
    exact d.roleKeys

theorem declaredOnly_roleNames : (declaredOnly d).roleNames = d.roleNames := List.map_map

theorem declaredOnly_parents (role : String) :
    (declaredOnly d).parents role = (d.parents role).filter (· ∈ d.roleNames) := by
  have hlookup : ∀ roles : List (String × RoleDefinition), (roles.map fun entry =>
      (entry.1,({entry.2 with inherits := entry.2.inherits.map fun parents => parents.filter (· ∈ d.roleNames)} :
        RoleDefinition))).lookup role = (roles.lookup role).map fun spec =>
          {spec with inherits := spec.inherits.map fun parents => parents.filter (· ∈ d.roleNames)} := by
    intro roles
    induction roles with
    | nil => rfl
    | cons entry roles ih =>
      rw [List.map_cons,lookup_cons,lookup_cons,ih]
      split
      · rfl
      · rfl
  unfold PolicyDefinition.parents
  change (((d.roles.map _).lookup role).bind RoleDefinition.inherits).getD [] = _
  rw [hlookup d.roles]
  cases d.roles.lookup role with
  | none => rfl
  | some spec =>
    cases hparents : spec.inherits with
    | none => simp [hparents]
    | some parents => simp [hparents]

theorem visit_declaredOnly (fuel : ℕ) : ∀ (role : String) (path : List String) (v : Visits),
    visit (declaredOnly d) fuel role path v = visit d fuel role path v := by
  induction fuel with
  | zero =>
    intro role path v
    cases hs : v.state.lookup role with
    | none => simp only [visit,hs]
    | some status => cases status <;> simp only [visit,hs]
  | succ fuel ih =>
    intro role path v
    cases hs : v.state.lookup role with
    | some status => cases status <;> simp only [visit,hs]
    | none =>
      rw [visit_new hs,visit_new hs,declaredOnly_parents]
      have hparents : ∀ (parents : List String) (w : Visits),
          visitParents (declaredOnly d) fuel (path ++ [role]) (parents.filter (· ∈ d.roleNames)) w =
            visitParents d fuel (path ++ [role]) parents w := by
        intro parents
        induction parents with
        | nil => exact fun _ => rfl
        | cons parent parents ihp =>
          intro w
          by_cases hp : parent ∈ d.roleNames
          · rw [List.filter_cons_of_pos (by simpa using hp),visitParents,visitParents,List.foldlM_cons,List.foldlM_cons,
              declaredOnly_roleNames,if_pos hp,if_pos hp,ih]
            apply congrArg
            funext u
            have hrest := ihp u
            rw [visitParents,visitParents,declaredOnly_roleNames] at hrest
            exact hrest
          · rw [List.filter_cons_of_neg (by simpa using hp),ihp]
            rw [visitParents,visitParents,List.foldlM_cons,if_neg hp]
            rfl
      rw [hparents]

theorem cycleIssues_declaredOnly : cycleIssues (declaredOnly d) = cycleIssues d := by
  unfold cycleIssues
  rw [declaredOnly_roleNames]
  simp only [visit_declaredOnly]

end Missed

section Exactness
variable {d} {conditions : List String}

theorem Layered.not_cyclic {order : List String} (h : Layered d order) (hn : order.Nodup) :
    ∀ role ∈ order, ¬ Relation.TransGen (InheritsFrom d) role role := by
  induction order with
  | nil => exact fun _ hin => by cases hin
  | cons role roles ih =>
    obtain ⟨hnew,hn⟩ := List.nodup_cons.mp hn
    have hclosed : ∀ {order : List String}, Layered d order → ∀ {r parent : String}, r ∈ order → InheritsFrom d r parent →
        parent ∈ order := by
      intro order hl
      induction order with
      | nil => exact fun hin => by cases hin
      | cons first order ih =>
        intro r parent hin hedge
        rcases List.mem_cons.mp hin with rfl | hin
        · exact List.mem_cons_of_mem r (hl.1 parent hedge.1)
        · exact List.mem_cons_of_mem first (ih hl.2 hin hedge)
    have hbelow : ∀ r r', r ∈ roles → Relation.TransGen (InheritsFrom d) r r' → r' ∈ roles := by
      intro r r' hr hpath
      induction hpath with
      | single hedge => exact hclosed h.2 hr hedge
      | tail _ hedge ihpath => exact hclosed h.2 ihpath hedge
    intro r hr hcycle
    rcases List.mem_cons.mp hr with rfl | hr
    · -- the first step leaves the role for good
      obtain ⟨parent,hedge,hrest⟩ := Relation.TransGen.head'_iff.mp hcycle
      have hparent : parent ∈ roles := h.1 parent hedge.1
      rcases Relation.reflTransGen_iff_eq_or_transGen.mp hrest with heq | hrest
      · exact hnew (heq ▸ hparent)
      · exact hnew (hbelow parent r hparent hrest)
    · exact ih h.2 hn r hr hcycle

theorem cycleIssues_nil_iff : cycleIssues d = some [] ↔ ¬ Cyclic d := by
  constructor
  · intro h
    have hedges : ∀ role parent, InheritsFrom d role parent → InheritsFrom (declaredOnly d) role parent := by
      rintro role parent ⟨hparent,hdeclared⟩
      refine ⟨?_,?_⟩
      · rw [declaredOnly_parents]
        exact List.mem_filter.mpr ⟨hparent,decide_eq_true hdeclared⟩
      · rw [declaredOnly_roleNames]
        exact hdeclared
    obtain ⟨order,hl,hnodup,hmem⟩ := layered_of_noCycles (d := declaredOnly d) (by
      intro role _ parent hparent
      rw [declaredOnly_parents] at hparent
      rw [declaredOnly_roleNames]
      exact of_decide_eq_true (List.mem_filter.mp hparent).2) (by rw [cycleIssues_declaredOnly,h])
    rintro ⟨role,hrole,hcycle⟩
    rw [← declaredOnly_roleNames,← hmem] at hrole
    exact hl.not_cyclic hnodup role hrole (Relation.TransGen.mono hedges role role hcycle)
  · exact cycleIssues_acyclic

/-- An issue that is a cycle; the others begin with a resource or a role. -/
def IsCycleIssue (issue : String) : Prop := ∃ roles, issue = "inheritance cycle: " ++ roles

theorem not_isCycleIssue {issue : String} (h : ∃ cs, issue.toList = 'r' :: cs) : ¬ IsCycleIssue issue := by
  obtain ⟨cs,h⟩ := h
  rintro ⟨roles,rfl⟩
  rw [String.toList_append] at h
  have hc : 'i' = 'r' := (List.cons.inj h).1
  exact absurd hc (by decide)

theorem toList_append_of {text rest : String} {c : Char} {cs : List Char} (h : text.toList = c :: cs) :
    ∃ cs, (text ++ rest).toList = c :: cs := by
  rw [String.toList_append,h]
  exact ⟨_,rfl⟩

theorem actionIssues_begin {resource : String} {actions seen : List String} {issue : String}
    (h : issue ∈ actionIssues resource seen actions) : ∃ rest, issue = "resource \"" ++ rest := by
  induction actions generalizing seen with
  | nil => cases h
  | cons action actions ih =>
    simp only [actionIssues,List.mem_append,List.mem_ite_nil_right,List.mem_singleton,String.append_assoc] at h
    rcases h with (⟨-,rfl⟩ | ⟨-,rfl⟩) | h
    · exact ⟨_,rfl⟩
    · exact ⟨_,rfl⟩
    · exact ih h

theorem resourceIssues_begin {resource : String × List String} {issue : String} (h : issue ∈ resourceIssues resource) :
    ∃ rest, issue = "resource \"" ++ rest := by
  simp only [resourceIssues,List.mem_append,List.mem_ite_nil_right,List.mem_singleton,String.append_assoc] at h
  rcases h with (⟨-,rfl⟩ | ⟨-,rfl⟩) | h
  · exact ⟨_,rfl⟩
  · exact ⟨_,rfl⟩
  · exact actionIssues_begin h

theorem roleIssues_begin {role issue : String} (h : issue ∈ roleIssues d conditions role) :
    ∃ rest, issue = "role \"" ++ rest := by
  simp only [roleIssues_eq,nameIssues,List.mem_append,List.mem_ite_nil_right,List.mem_singleton,List.mem_map,
    String.append_assoc] at h
  rcases h with ⟨-,rfl⟩ | ⟨r,-,rfl⟩
  · exact ⟨_,rfl⟩
  · cases r <;>
    · simp only [Reference.issue,String.append_assoc]
      exact ⟨_,rfl⟩

theorem visit_invariant {P : Visits → Prop}
    (hissue : ∀ v role path, P v → P {v with issues := v.issues ++ [cycleIssue role path]})
    (hmark : ∀ v role status, P v → P {v with state := put role status v.state}) {fuel : ℕ} :
    ∀ (role : String) (path : List String) (v v' : Visits), P v → visit d fuel role path v = some v' → P v' := by
  induction fuel with
  | zero =>
    intro role path v v' hv h
    cases hs : v.state.lookup role with
    | none =>
      simp only [visit,hs] at h
      cases h
    | some status =>
      cases status with
      | done =>
        rw [visit_done hs] at h
        exact Option.some.inj h ▸ hv
      | visiting =>
        rw [visit_visiting hs] at h
        exact Option.some.inj h ▸ hissue v role path hv
  | succ fuel ih =>
    intro role path v v' hv h
    cases hs : v.state.lookup role with
    | some status =>
      cases status with
      | done =>
        rw [visit_done hs] at h
        exact Option.some.inj h ▸ hv
      | visiting =>
        rw [visit_visiting hs] at h
        exact Option.some.inj h ▸ hissue v role path hv
    | none =>
      rw [visit_new hs] at h
      obtain ⟨w,hw,rfl⟩ := Option.map_eq_some_iff.mp h
      have hparents : ∀ (parents : List String) (u : Visits), P u →
          visitParents d fuel (path ++ [role]) parents u = some w → P w := by
        intro parents
        induction parents with
        | nil => exact fun u hu hfold => Option.some.inj hfold ▸ hu
        | cons parent parents ihp =>
          intro u hu hfold
          rw [visitParents,List.foldlM_cons] at hfold
          obtain ⟨u₁,hu₁,hrest⟩ := Option.bind_eq_some_iff.mp hfold
          apply ihp u₁ _ hrest
          split at hu₁
          · exact ih parent (path ++ [role]) u u₁ hu hu₁
          · exact Option.some.inj hu₁ ▸ hu
      exact hmark w role .done (hparents (d.parents role) _ (hmark v role .visiting hv) hw)

theorem isCycleIssue_of_mem {cycles : List String} (h : cycleIssues d = some cycles) :
    ∀ issue ∈ cycles, IsCycleIssue issue := by
  obtain ⟨v,hv,hvi⟩ := Option.bind_eq_some_iff.mp h
  obtain rfl := Option.some.inj hvi
  have hroles : ∀ (roles : List String) (u : Visits), (∀ issue ∈ u.issues, IsCycleIssue issue) →
      roles.foldlM (fun v role => visit d d.roleNames.length role [] v) u = some v →
      ∀ issue ∈ v.issues, IsCycleIssue issue := by
    intro roles
    induction roles with
    | nil => exact fun u hu hfold => Option.some.inj hfold ▸ hu
    | cons role roles ih =>
      intro u hu hfold
      rw [List.foldlM_cons] at hfold
      obtain ⟨u₁,hu₁,hrest⟩ := Option.bind_eq_some_iff.mp hfold
      apply ih u₁ _ hrest
      apply visit_invariant (P := fun v => ∀ issue ∈ v.issues, IsCycleIssue issue) _ _ role [] u u₁ hu hu₁
      · intro w role path hw issue hin
        rcases List.mem_append.mp hin with hin | hin
        · exact hw issue hin
        · rw [List.mem_singleton.mp hin]
          exact ⟨_,rfl⟩
      · exact fun _ _ _ hw => hw
  exact hroles d.roleNames ⟨[],[]⟩ (fun _ hin => by cases hin) hv

theorem wellFounded_of_layered {order : List String} (h : Layered d order) (hall : ∀ role, role ∉ order → d.parents role = []) :
    WellFounded fun parent role => parent ∈ d.parents role := by
  have hacc : ∀ {order : List String}, Layered d order → ∀ role ∈ order,
      Acc (fun parent role => parent ∈ d.parents role) role := by
    intro order hl
    induction order with
    | nil => exact fun _ hin => by cases hin
    | cons role roles ih =>
      intro r hr
      rcases List.mem_cons.mp hr with rfl | hr
      · exact Acc.intro r fun parent hparent => ih hl.2 parent (hl.1 parent hparent)
      · exact ih hl.2 r hr
  constructor
  intro role
  by_cases hrole : role ∈ order
  · exact hacc h role hrole
  · apply Acc.intro
    intro parent hparent
    rw [hall role hrole] at hparent
    cases hparent

theorem parents_undeclared {role : String} (h : role ∉ d.roleNames) : d.parents role = [] := by
  unfold PolicyDefinition.parents
  rw [lookup_eq_none.mpr h]
  rfl

theorem grants_undeclared {role : String} (h : role ∉ d.roleNames) : d.grants role = [] := by
  unfold PolicyDefinition.grants
  rw [lookup_eq_none.mpr h]
  rfl

theorem wildcard_declared (hv : validate d conditions = some [])
    (hexpand : ∀ role ∈ d.roleNames, ∀ grant ∈ d.grants role, expandGrant d grant.permission ≠ none) :
    ∀ role, ∀ grant ∈ d.grants role, ∀ name, wildcardOf grant.permission = some name →
      name ∈ d.resources.map Prod.fst := by
  intro role grant hgrant name hname
  by_cases hrole : role ∈ d.roleNames
  · by_contra hnot
    have hstar : grant.permission ≠ "*" := by
      intro hstar
      rw [hstar] at hname
      exact star_ne name (wildcardOf_eq_some.mp hname)
    obtain ⟨cycles,-,hissues⟩ := Option.bind_eq_some_iff.mp hv
    have hall := Option.some.inj hissues
    simp only [List.append_eq_nil_iff,List.flatMap_eq_nil_iff] at hall
    have hnone := hall.1.2 role hrole
    rw [roleIssues_eq,List.append_eq_nil_iff,List.map_eq_nil_iff,missed,List.filter_eq_nil_iff] at hnone
    have hreference : Reference.resource grant.permission name ∈ d.references role := by
      apply List.mem_append_right
      apply List.mem_flatMap_of_mem hgrant
      rw [Grant.references,if_neg hstar,hname]
      exact List.mem_append_left _ List.mem_cons_self
    have hfound := hnone.2 _ hreference
    rw [decide_eq_true_eq,not_not] at hfound
    have hinherited : name ∈ inherited := hfound.resolve_left hnot
    apply hexpand role hrole grant hgrant
    simp only [expandGrant,if_neg hstar,hname,lookup_eq_none.mpr hnot,if_pos hinherited]
  · rw [grants_undeclared hrole] at hgrant
    cases hgrant

/-- A cycle is reported just where there is one, and where none is, the recursion over the parents ends. -/
theorem cycles_exact (d : PolicyDefinition) (conditions : List String) :
    (∃ issues, validate d conditions = some issues ∧ ((∃ issue ∈ issues, IsCycleIssue issue) ↔ Cyclic d)) ∧
    (validate d conditions = some [] → (WellFounded fun parent role => parent ∈ d.parents role) ∧
      ((∀ role ∈ d.roleNames, ∀ grant ∈ d.grants role, expandGrant d grant.permission ≠ none) →
        ∃ resolved, resolveRoles d = some resolved)) := by
  constructor
  · obtain ⟨cycles,hcycles⟩ := cycleIssues_total d
    refine ⟨_,validate_eq hcycles,?_⟩
    have hiff := cycleIssues_nil_iff (d := d)
    rw [hcycles,Option.some.injEq] at hiff
    rw [← not_iff_not,← hiff]
    constructor
    · intro hnone
      apply List.eq_nil_iff_forall_not_mem.mpr
      intro issue hin
      exact hnone ⟨issue,List.mem_append_right _ hin,isCycleIssue_of_mem hcycles issue hin⟩
    · rintro rfl ⟨issue,hin,hissue⟩
      rw [List.append_nil] at hin
      refine not_isCycleIssue ?_ hissue
      rcases List.mem_append.mp hin with hin | hin
      · obtain ⟨resource,-,hin⟩ := List.mem_flatMap.mp hin
        obtain ⟨rest,rfl⟩ := resourceIssues_begin hin
        exact toList_append_of rfl
      · obtain ⟨role,-,hin⟩ := List.mem_flatMap.mp hin
        rw [← roleIssues_eq] at hin
        obtain ⟨rest,rfl⟩ := roleIssues_begin hin
        exact toList_append_of rfl
  · intro hv
    obtain ⟨order,hl,-,hmem⟩ := layered_of_valid hv
    constructor
    · apply wellFounded_of_layered hl
      intro role hrole
      exact parents_undeclared fun hdeclared => hrole ((hmem role).mpr hdeclared)
    · intro hexpand
      obtain ⟨resolved,hresolved,-⟩ := resolveRoles_valid hv (wildcard_declared hv hexpand)
      exact ⟨resolved,hresolved⟩

end Exactness

end StructureAi.Authorization

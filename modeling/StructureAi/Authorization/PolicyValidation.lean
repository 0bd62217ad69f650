import StructureAi.Authorization.Policy

/-! # What validation guarantees

The visit of the roles ends, and without an issue it has put every role after its
parents. Such a layering is what the recursion over parents needs.
-/
namespace StructureAi.Authorization
open StructureAi.Foundation
variable (d : PolicyDefinition)

/-- Every role comes after all of its parents; the list has the latest first. -/
def Layered : List String → Prop
  | [] => True
  | role :: roles => (∀ parent ∈ d.parents role, parent ∈ roles) ∧ Layered roles

namespace Visits

def status (v : Visits) (role : String) : Option VisitStatus := v.state.lookup role

/-- The visited roles are declared ones, each with one status. -/
structure Declared (v : Visits) : Prop where
  nodup : (v.state.map Prod.fst).Nodup
  subset : ∀ role ∈ v.state.map Prod.fst, role ∈ d.roleNames

/-- The roles that are done, layered. -/
structure Ordered (v : Visits) (order : List String) : Prop where
  done : ∀ role, v.status role = some .done ↔ role ∈ order
  nodup : order.Nodup
  subset : ∀ role ∈ order, role ∈ d.roleNames
  layered : Layered d order

end Visits

section Visiting
variable {d}

theorem visit_done {v : Visits} {role : String} (hs : v.state.lookup role = some .done) (fuel : ℕ)
    (path : List String) : visit d fuel role path v = some v := by
  cases fuel <;> simp only [visit,hs]

theorem visit_visiting {v : Visits} {role : String} (hs : v.state.lookup role = some .visiting) (fuel : ℕ)
    (path : List String) :
    visit d fuel role path v = some {v with issues := v.issues ++ [cycleIssue role path]} := by
  cases fuel <;> simp only [visit,hs]

/-- The parents of a role, visited one after the other. -/
def visitParents (d : PolicyDefinition) (fuel : ℕ) (path : List String) (parents : List String) (v : Visits) :
    Option Visits :=
  parents.foldlM (fun v parent => if parent ∈ d.roleNames then visit d fuel parent path v else some v) v

theorem visit_new {v : Visits} {role : String} (hs : v.state.lookup role = none) (fuel : ℕ) (path : List String) :
    visit d (fuel + 1) role path v =
      (visitParents d fuel (path ++ [role]) (d.parents role) {v with state := put role .visiting v.state}).map
        fun v => {v with state := put role .done v.state} := by
  simp only [visit,hs]
  rw [visitParents,Option.map_eq_bind]
  rfl

theorem Visits.Declared.mark {v : Visits} (hv : v.Declared d) {role : String} (hrole : role ∈ d.roleNames)
    (status : VisitStatus) : Visits.Declared d {v with state := put role status v.state} := by
  constructor
  · exact nodup_put hv.nodup
  · intro role' hrole'
    rcases mem_keys_put.mp hrole' with rfl | hin
    · exact hrole
    · exact hv.subset role' hin

theorem lt_of_unvisited {v : Visits} (hv : v.Declared d) {role : String} (hrole : role ∈ d.roleNames)
    (hnone : v.state.lookup role = none) : v.state.length < d.roleNames.length := by
  have hnodup : (role :: v.state.map Prod.fst).Nodup :=
    List.nodup_cons.mpr ⟨lookup_eq_none.mp hnone,hv.nodup⟩
  have hsub : role :: v.state.map Prod.fst ⊆ d.roleNames := by
    intro role' hrole'
    rcases List.mem_cons.mp hrole' with rfl | hin
    · exact hrole
    · exact hv.subset role' hin
  have hle := (hnodup.subperm hsub).length_le
  rw [List.length_cons,List.length_map] at hle
  exact hle

theorem visit_total (fuel : ℕ) : ∀ (role : String) (path : List String) (v : Visits), role ∈ d.roleNames →
    v.Declared d → d.roleNames.length ≤ fuel + v.state.length →
    ∃ v', visit d fuel role path v = some v' ∧ v'.Declared d ∧ v.state.length ≤ v'.state.length := by
  induction fuel with
  | zero =>
    intro role path v hrole hv hfuel
    cases hs : v.state.lookup role with
    | none =>
      have hlt := lt_of_unvisited hv hrole hs
      omega
    | some status =>
      cases status with
      | done => exact ⟨v,visit_done hs _ _,hv,le_rfl⟩
      | visiting => exact ⟨_,visit_visiting hs _ _,⟨hv.nodup,hv.subset⟩,le_rfl⟩
  | succ fuel ih =>
    intro role path v hrole hv hfuel
    cases hs : v.state.lookup role with
    | some status =>
      cases status with
      | done => exact ⟨v,visit_done hs _ _,hv,le_rfl⟩
      | visiting => exact ⟨_,visit_visiting hs _ _,⟨hv.nodup,hv.subset⟩,le_rfl⟩
    | none =>
      -- each visited parent leaves at least as many roles marked
      have hparents : ∀ (parents : List String) (w : Visits), w.Declared d →
          d.roleNames.length ≤ fuel + w.state.length → ∃ w',
            visitParents d fuel (path ++ [role]) parents w = some w' ∧
            w'.Declared d ∧ w.state.length ≤ w'.state.length := by
        intro parents
        induction parents with
        | nil => exact fun w hw _ => ⟨w,rfl,hw,le_rfl⟩
        | cons parent parents ihp =>
          intro w hw hwf
          rw [visitParents,List.foldlM_cons]
          by_cases hp : parent ∈ d.roleNames
          · obtain ⟨w₁,h₁,hw₁,hle₁⟩ := ih parent (path ++ [role]) w hp hw hwf
            obtain ⟨w₂,h₂,hw₂,hle₂⟩ := ihp w₁ hw₁ (by omega)
            rw [if_pos hp,h₁]
            exact ⟨w₂,h₂,hw₂,hle₁.trans hle₂⟩
          · rw [if_neg hp]
            exact ihp w hw hwf
      have hlength := length_put_of_lookup (v := VisitStatus.visiting) hs
      obtain ⟨w,hw,hdeclared,hle⟩ := hparents (d.parents role) {v with state := put role .visiting v.state}
        (hv.mark hrole .visiting) (by dsimp only; omega)
      refine ⟨{w with state := put role .done w.state},?_,hdeclared.mark hrole .done,?_⟩
      · rw [visit_new hs,hw]
        rfl
      · dsimp only at hle ⊢
        have hput : w.state.length ≤ (put role .done w.state).length := length_le_put
        omega

theorem validate_total (conditions : List String) : ∃ issues, validate d conditions = some issues := by
  have hroles : ∀ (roles : List String) (v : Visits), (∀ role ∈ roles, role ∈ d.roleNames) → v.Declared d →
      ∃ v', roles.foldlM (fun v role => visit d d.roleNames.length role [] v) v = some v' := by
    intro roles
    induction roles with
    | nil => exact fun v _ _ => ⟨v,rfl⟩
    | cons role roles ih =>
      intro v hroles hv
      obtain ⟨w,hw,hdeclared,-⟩ := visit_total d.roleNames.length role [] v (hroles role List.mem_cons_self) hv
        (Nat.le_add_right _ _)
      rw [List.foldlM_cons,hw]
      exact ih w (fun role' hrole' => hroles role' (List.mem_cons_of_mem role hrole')) hdeclared
  obtain ⟨v,hv⟩ := hroles d.roleNames ⟨[],[]⟩ (fun _ hrole => hrole) ⟨List.nodup_nil,fun _ hrole => by cases hrole⟩
  rw [validate,cycleIssues,hv]
  exact ⟨_,rfl⟩

/-- The roles a visit leaves in the making are those it found so. -/
def Visits.SamePath (v v' : Visits) : Prop := ∀ role, v'.status role = some .visiting ↔ v.status role = some .visiting

theorem visitParents_issues {fuel : ℕ} {path : List String}
    (hvisit : ∀ role path v v', visit d fuel role path v = some v' → v.issues <+: v'.issues)
    {parents : List String} {v v' : Visits} (h : visitParents d fuel path parents v = some v') :
    v.issues <+: v'.issues := by
  induction parents generalizing v with
  | nil =>
    obtain rfl := Option.some.inj h
    exact List.prefix_rfl
  | cons parent parents ih =>
    rw [visitParents,List.foldlM_cons] at h
    obtain ⟨w,hw,hrest⟩ := Option.bind_eq_some_iff.mp h
    apply List.IsPrefix.trans _ (ih hrest)
    split at hw
    · exact hvisit parent path v w hw
    · obtain rfl := Option.some.inj hw
      exact List.prefix_rfl

theorem visit_issues {fuel : ℕ} : ∀ (role : String) (path : List String) (v v' : Visits),
    visit d fuel role path v = some v' → v.issues <+: v'.issues := by
  induction fuel with
  | zero =>
    intro role path v v' h
    cases hs : v.state.lookup role with
    | none =>
      simp only [visit,hs] at h
      cases h
    | some status =>
      cases status with
      | done =>
        rw [visit_done hs] at h
        obtain rfl := Option.some.inj h
        exact List.prefix_rfl
      | visiting =>
        rw [visit_visiting hs] at h
        obtain rfl := Option.some.inj h
        exact List.prefix_append ..
  | succ fuel ih =>
    intro role path v v' h
    cases hs : v.state.lookup role with
    | none =>
      rw [visit_new hs] at h
      obtain ⟨w,hw,rfl⟩ := Option.map_eq_some_iff.mp h
      have hparents := visitParents_issues ih hw
      exact hparents
    | some status =>
      cases status with
      | done =>
        rw [visit_done hs] at h
        obtain rfl := Option.some.inj h
        exact List.prefix_rfl
      | visiting =>
        rw [visit_visiting hs] at h
        obtain rfl := Option.some.inj h
        exact List.prefix_append ..

theorem no_issues {v v' : Visits} (h : v.issues <+: v'.issues) (hv : v'.issues = []) : v.issues = [] := by
  rw [hv] at h
  exact List.prefix_nil.mp h

/-- What a visit without a new issue achieves: its role is in the layering, and the path is as before. -/
structure Visits.Extends (d : PolicyDefinition) (v v' : Visits) (order order' : List String) : Prop where
  ordered : v'.Ordered d order'
  subset : order ⊆ order'
  path : v.SamePath v'

theorem Visits.Extends.close {v w : Visits} {role : String} {order order' : List String}
    (h : Extends d {v with state := put role .visiting v.state} w order order')
    (hs : v.state.lookup role = none) (hrole : role ∈ d.roleNames)
    (hparents : ∀ parent ∈ d.parents role, parent ∈ order') :
    Extends d v {w with state := put role .done w.state} order (role :: order') := by
  have hvisiting : w.status role = some .visiting := (h.path role).mpr lookup_put_self
  have hnew : role ∉ order' := by
    intro hin
    have hdone := (h.ordered.done role).mpr hin
    rw [hvisiting] at hdone
    cases hdone
  constructor
  · constructor
    · intro role'
      change (put role .done w.state).lookup role' = some .done ↔ _
      by_cases hr : role' = role
      · subst hr
        exact iff_of_true lookup_put_self List.mem_cons_self
      · rw [lookup_put_of_ne hr,List.mem_cons]
        exact (h.ordered.done role').trans (or_iff_right hr).symm
    · exact List.nodup_cons.mpr ⟨hnew,h.ordered.nodup⟩
    · intro role' hrole'
      rcases List.mem_cons.mp hrole' with rfl | hin
      · exact hrole
      · exact h.ordered.subset role' hin
    · exact ⟨hparents,h.ordered.layered⟩
  · exact fun role' hrole' => List.mem_cons_of_mem role (h.subset hrole')
  · intro role'
    change (put role .done w.state).lookup role' = some .visiting ↔ _
    by_cases hr : role' = role
    · subst hr
      apply iff_of_false
      · rw [lookup_put_self]
        rintro ⟨⟩
      · change ¬ v.state.lookup role' = _
        rw [hs]
        rintro ⟨⟩
    · rw [lookup_put_of_ne hr]
      have hpath := h.path role'
      change w.state.lookup role' = _ ↔ (put role .visiting v.state).lookup role' = _ at hpath
      rw [lookup_put_of_ne hr] at hpath
      exact hpath

theorem Visits.Ordered.mark {v : Visits} {order : List String} (h : v.Ordered d order) {role : String}
    (hs : v.state.lookup role = none) : Visits.Ordered d {v with state := put role .visiting v.state} order := by
  constructor
  · intro role'
    change (put role .visiting v.state).lookup role' = some .done ↔ _
    by_cases hr : role' = role
    · subst hr
      apply iff_of_false
      · rw [lookup_put_self]
        rintro ⟨⟩
      · rw [← h.done]
        change ¬ v.state.lookup role' = _
        rw [hs]
        rintro ⟨⟩
    · rw [lookup_put_of_ne hr]
      exact h.done role'
  · exact h.nodup
  · exact h.subset
  · exact h.layered

/-- A visit that adds no issue puts its role, and every declared parent before it, into the layering. -/
theorem visit_extends (hdeclared : ∀ role ∈ d.roleNames, ∀ parent ∈ d.parents role, parent ∈ d.roleNames)
    {fuel : ℕ} : ∀ (role : String) (path : List String) (v v' : Visits) (order : List String),
    role ∈ d.roleNames → v.Ordered d order → visit d fuel role path v = some v' → v'.issues = [] →
    ∃ order', v.Extends d v' order order' ∧ role ∈ order' := by
  have hknown : ∀ {fuel : ℕ} {role : String} {path : List String} {v v' : Visits} {order : List String}
      {status : VisitStatus}, v.Ordered d order → v.state.lookup role = some status →
      visit d fuel role path v = some v' → v'.issues = [] →
      ∃ order', v.Extends d v' order order' ∧ role ∈ order' := by
    intro fuel role path v v' order status ho hs h hissues
    cases status with
    | done =>
      rw [visit_done hs] at h
      obtain rfl := Option.some.inj h
      exact ⟨order,⟨ho,List.Subset.refl order,fun _ => Iff.rfl⟩,(ho.done role).mp hs⟩
    | visiting =>
      rw [visit_visiting hs] at h
      obtain rfl := Option.some.inj h
      simp at hissues
  induction fuel with
  | zero =>
    intro role path v v' order hrole ho h hissues
    cases hs : v.state.lookup role with
    | none =>
      simp only [visit,hs] at h
      cases h
    | some status => exact hknown ho hs h hissues
  | succ fuel ih =>
    intro role path v v' order hrole ho h hissues
    cases hs : v.state.lookup role with
    | some status => exact hknown ho hs h hissues
    | none =>
      rw [visit_new hs] at h
      obtain ⟨w,hw,rfl⟩ := Option.map_eq_some_iff.mp h
      have hall : ∀ (parents : List String) (u : Visits) (order : List String),
          (∀ parent ∈ parents, parent ∈ d.roleNames) → u.Ordered d order →
          visitParents d fuel (path ++ [role]) parents u = some w →
          ∃ order', u.Extends d w order order' ∧ ∀ parent ∈ parents, parent ∈ order' := by
        intro parents
        induction parents with
        | nil =>
          intro u order _ hu hfold
          obtain rfl := Option.some.inj hfold
          exact ⟨order,⟨hu,List.Subset.refl order,fun _ => Iff.rfl⟩,fun _ hin => by cases hin⟩
        | cons parent parents ihp =>
          intro u order hin hu hfold
          have hparent := hin parent List.mem_cons_self
          rw [visitParents,List.foldlM_cons,if_pos hparent] at hfold
          obtain ⟨u₁,hu₁,hrest⟩ := Option.bind_eq_some_iff.mp hfold
          have hissues₁ : u₁.issues = [] := no_issues (visitParents_issues (fun _ _ _ _ => visit_issues _ _ _ _) hrest) hissues
          obtain ⟨order₁,hext₁,hmem₁⟩ := ih parent (path ++ [role]) u u₁ order hparent hu hu₁ hissues₁
          obtain ⟨order₂,hext₂,hmem₂⟩ := ihp u₁ order₁ (fun p hp => hin p (List.mem_cons_of_mem parent hp))
            hext₁.ordered hrest
          refine ⟨order₂,⟨hext₂.ordered,List.Subset.trans hext₁.subset hext₂.subset,?_⟩,?_⟩
          · exact fun role' => (hext₂.path role').trans (hext₁.path role')
          · intro p hp
            rcases List.mem_cons.mp hp with rfl | hp
            · exact hext₂.subset hmem₁
            · exact hmem₂ p hp
      obtain ⟨order',hext,hmem⟩ := hall (d.parents role) _ order (hdeclared role hrole) (ho.mark hs) hw
      exact ⟨role :: order',hext.close hs hrole hmem,List.mem_cons_self⟩

end Visiting

section Valid
variable {d} {conditions : List String}

theorem parents_declared (h : validate d conditions = some []) {role : String} (hrole : role ∈ d.roleNames)
    {parent : String} (hparent : parent ∈ d.parents role) : parent ∈ d.roleNames := by
  obtain ⟨cycles,-,hissues⟩ := Option.bind_eq_some_iff.mp h
  have hall := Option.some.inj hissues
  simp only [List.append_eq_nil_iff,List.flatMap_eq_nil_iff] at hall
  have hroleIssues := hall.1.2 role hrole
  simp only [roleIssues,List.append_eq_nil_iff,List.flatMap_eq_nil_iff] at hroleIssues
  have hnone := hroleIssues.1.2 parent hparent
  by_contra hnot
  rw [if_neg hnot] at hnone
  cases hnone

theorem layered_of_noCycles (hdeclared : ∀ role ∈ d.roleNames, ∀ parent ∈ d.parents role, parent ∈ d.roleNames)
    (hcycles : cycleIssues d = some []) :
    ∃ order : List String, Layered d order ∧ order.Nodup ∧ ∀ role, role ∈ order ↔ role ∈ d.roleNames := by
  obtain ⟨v,hv,hvi⟩ := Option.bind_eq_some_iff.mp hcycles
  have hnone : v.issues = [] := Option.some.inj hvi
  have hroles : ∀ (roles : List String) (u : Visits) (order : List String), (∀ role ∈ roles, role ∈ d.roleNames) →
      u.Ordered d order → roles.foldlM (fun v role => visit d d.roleNames.length role [] v) u = some v →
      ∃ order', v.Ordered d order' ∧ order ⊆ order' ∧ ∀ role ∈ roles, role ∈ order' := by
    intro roles
    induction roles with
    | nil =>
      intro u order _ hu hfold
      obtain rfl := Option.some.inj hfold
      exact ⟨order,hu,List.Subset.refl order,fun _ hin => by cases hin⟩
    | cons role roles ih =>
      intro u order hin hu hfold
      rw [List.foldlM_cons] at hfold
      obtain ⟨u₁,hu₁,hrest⟩ := Option.bind_eq_some_iff.mp hfold
      have hbefore : ∀ (roles : List String) (u : Visits),
          roles.foldlM (fun v role => visit d d.roleNames.length role [] v) u = some v → u.issues <+: v.issues := by
        intro roles
        induction roles with
        | nil =>
          intro u hu
          obtain rfl := Option.some.inj hu
          exact List.prefix_rfl
        | cons role roles ih =>
          intro u hu
          rw [List.foldlM_cons] at hu
          obtain ⟨u',hu',hrest'⟩ := Option.bind_eq_some_iff.mp hu
          exact (visit_issues role [] u u' hu').trans (ih u' hrest')
      obtain ⟨order₁,hext,hmem⟩ := visit_extends hdeclared role [] u u₁ order (hin role List.mem_cons_self) hu hu₁
        (no_issues (hbefore roles u₁ hrest) hnone)
      obtain ⟨order₂,hord,hsub,hmem₂⟩ := ih u₁ order₁ (fun r hr => hin r (List.mem_cons_of_mem role hr)) hext.ordered
        hrest
      refine ⟨order₂,hord,List.Subset.trans hext.subset hsub,?_⟩
      intro r hr
      rcases List.mem_cons.mp hr with rfl | hr
      · exact hsub hmem
      · exact hmem₂ r hr
  have hempty : Visits.Ordered d ⟨[],[]⟩ [] := by
    constructor
    · intro role
      exact iff_of_false (fun hs => by cases hs) List.not_mem_nil
    · exact List.nodup_nil
    · exact fun _ hin => by cases hin
    · trivial
  obtain ⟨order,hord,-,hmem⟩ := hroles d.roleNames ⟨[],[]⟩ [] (fun _ hr => hr) hempty hv
  exact ⟨order,hord.layered,hord.nodup,fun role => ⟨hord.subset role,hmem role⟩⟩

theorem layered_of_valid (h : validate d conditions = some []) :
    ∃ order : List String, Layered d order ∧ order.Nodup ∧ ∀ role, role ∈ order ↔ role ∈ d.roleNames := by
  apply layered_of_noCycles
  · exact fun _ hrole _ hparent => parents_declared h hrole hparent
  · obtain ⟨cycles,hcycles,hissues⟩ := Option.bind_eq_some_iff.mp h
    have hall := Option.some.inj hissues
    simp only [List.append_eq_nil_iff] at hall
    rw [hcycles,hall.2]

end Valid

end StructureAi.Authorization

import StructureAi.Authorization.PolicyMeaning

/-! # Resolved roles

A resolved role represents a set of grants: a permission that is held without a
condition forgets its alternatives, any other lists them. Merging adds grants, and so the
recursion over parents represents what a role and its ancestors are granted.
-/
namespace StructureAi.Authorization
open StructureAi.Foundation

/-- The entries of a resolved role say which grants are in the set. -/
structure Represents (own : ResolvedRole) (G : String → Option String → Prop) : Prop where
  nodup : (own.map Prod.fst).Nodup
  always : ∀ permission, own.lookup permission = some none ↔ G permission none
  listed : ∀ permission names, own.lookup permission = some (some names) →
    names ≠ [] ∧ names.Nodup ∧ ∀ name, name ∈ names ↔ G permission (some name)
  absent : ∀ permission, own.lookup permission = none → ∀ condition, ¬ G permission condition

section Merging
variable {own : ResolvedRole} {G G' : String → Option String → Prop}

theorem Represents.congr (h : Represents own G) (hnone : ∀ permission, G permission none ↔ G' permission none)
    (hsome : ∀ permission name, ¬ G permission none → (G permission (some name) ↔ G' permission (some name))) :
    Represents own G' := by
  constructor
  · exact h.nodup
  · exact fun permission => (h.always permission).trans (hnone permission)
  · intro permission names hl
    have hnot : ¬ G permission none := by
      rw [← h.always,hl]
      rintro ⟨⟩
    obtain ⟨hne,hnodup,hmem⟩ := h.listed permission names hl
    exact ⟨hne,hnodup,fun name => (hmem name).trans (hsome permission name hnot)⟩
  · intro permission hl condition hG
    have hnot := h.absent permission hl
    cases condition with
    | none => exact hnot none ((hnone permission).mpr hG)
    | some name => exact hnot (some name) ((hsome permission name (hnot none)).mpr hG)

theorem represents_nil : Represents [] fun _ _ => False := by
  constructor
  · exact List.nodup_nil
  · exact fun permission => iff_of_false (fun h => by cases h) id
  · intro permission names h
    cases h
  · exact fun _ _ _ h => h

def Add (G : String → Option String → Prop) (permission : String) (condition : Option String) :
    String → Option String → Prop :=
  fun p c => G p c ∨ (p = permission ∧ c = condition)

theorem add_of_ne {permission p : String} (hne : p ≠ permission) (condition c : Option String) :
    Add G permission condition p c ↔ G p c := by
  constructor
  · rintro (h | ⟨h,-⟩)
    · exact h
    · exact absurd h hne
  · exact Or.inl

theorem Represents.put (h : Represents own G) {permission : String} {condition : Option String}
    {entry : Option (List String)} (hnone : entry = none ↔ Add G permission condition permission none)
    (hsome : ∀ names, entry = some names → names ≠ [] ∧ names.Nodup ∧
      ∀ name, name ∈ names ↔ Add G permission condition permission (some name)) :
    Represents (Foundation.put permission entry own) (Add G permission condition) := by
  constructor
  · exact nodup_put h.nodup
  · intro p
    rw [lookup_put]
    by_cases hp : p = permission
    · subst hp
      rw [if_pos rfl,Option.some.injEq]
      exact hnone
    · rw [if_neg hp,add_of_ne hp]
      exact h.always p
  · intro p names hl
    rw [lookup_put] at hl
    by_cases hp : p = permission
    · subst hp
      rw [if_pos rfl,Option.some.injEq] at hl
      exact hsome names hl
    · rw [if_neg hp] at hl
      simp only [add_of_ne hp]
      exact h.listed p names hl
  · intro p hl c
    rw [lookup_put] at hl
    by_cases hp : p = permission
    · rw [if_pos hp] at hl
      cases hl
    · rw [if_neg hp] at hl
      rw [add_of_ne hp]
      exact h.absent p hl c

theorem Represents.merge (h : Represents own G) (permission : String) (condition : Option String) :
    Represents (merge own permission condition) (Add G permission condition) := by
  unfold Authorization.merge
  split
  · -- an unconditional grant absorbs the others
    rename_i hl
    have hG := (h.always permission).mp hl
    apply h.congr
    · intro p
      constructor
      · exact Or.inl
      · rintro (hp | ⟨rfl,-⟩)
        · exact hp
        · exact hG
    · intro p name hnot
      have hp : p ≠ permission := by
        rintro rfl
        exact hnot hG
      exact (add_of_ne hp _ (some name)).symm
  · apply h.put
    · exact iff_of_true rfl (Or.inr ⟨rfl,rfl⟩)
    · rintro names ⟨⟩
  · rename_i name hl
    have hnot := h.absent permission hl
    apply h.put
    · apply iff_of_false
      · rintro ⟨⟩
      · rintro (hG | ⟨-,⟨⟩⟩)
        exact hnot none hG
    · rintro names ⟨⟩
      refine ⟨List.cons_ne_nil _ _,List.nodup_singleton _,?_⟩
      intro name'
      rw [List.mem_singleton]
      constructor
      · rintro rfl
        exact Or.inr ⟨rfl,rfl⟩
      · rintro (hG | ⟨-,he⟩)
        · exact absurd hG (hnot (some name'))
        · exact Option.some.inj he
  · rename_i names name hl
    obtain ⟨hne,hnodup,hmem⟩ := h.listed permission names hl
    have hnot : ¬ G permission none := by
      rw [← h.always,hl]
      rintro ⟨⟩
    apply h.put
    · apply iff_of_false
      · rintro ⟨⟩
      · rintro (hG | ⟨-,⟨⟩⟩)
        exact hnot hG
    · rintro names' hnames'
      obtain rfl := Option.some.inj hnames'
      have hiff : ∀ name', Add G permission (some name) permission (some name') ↔ name' ∈ names ∨ name' = name := by
        intro name'
        rw [hmem]
        constructor
        · rintro (hG | ⟨-,he⟩)
          · exact Or.inl hG
          · exact Or.inr (Option.some.inj he)
        · rintro (hG | rfl)
          · exact Or.inl hG
          · exact Or.inr ⟨rfl,rfl⟩
      split
      · rename_i hin
        refine ⟨hne,hnodup,?_⟩
        intro name'
        rw [hiff]
        constructor
        · exact Or.inl
        · rintro (hin' | rfl)
          · exact hin'
          · exact hin
      · rename_i hout
        refine ⟨by simp,?_,?_⟩
        · apply List.Nodup.append hnodup (List.nodup_singleton name)
          intro name' hin hin'
          rw [List.mem_singleton.mp hin'] at hin
          exact hout hin
        · intro name'
          rw [hiff,List.mem_append,List.mem_singleton]

def EntryGrants (entry : String × Option (List String)) (permission : String) (condition : Option String) : Prop :=
  permission = entry.1 ∧ (entry.2 = none ∧ condition = none ∨
    ∃ names, entry.2 = some names ∧ ∃ name ∈ names, condition = some name)

theorem Represents.mergeEntry (h : Represents own G) (entry : String × Option (List String)) :
    Represents (mergeEntry own entry) fun p c => G p c ∨ EntryGrants entry p c := by
  obtain ⟨permission,alternatives⟩ := entry
  cases alternatives with
  | none =>
    have hiff : ∀ p c, Add G permission none p c ↔ G p c ∨ EntryGrants (permission,none) p c := by
      intro p c
      simp [Add,EntryGrants]
    exact (h.merge permission none).congr (fun p => hiff p none) fun p name _ => hiff p (some name)
  | some names =>
    have hfold : ∀ (names : List String) (own : ResolvedRole) (G : String → Option String → Prop),
        Represents own G → Represents (names.foldl (fun own c => Authorization.merge own permission (some c)) own)
          fun p c => G p c ∨ (p = permission ∧ ∃ name ∈ names, c = some name) := by
      intro names
      induction names with
      | nil =>
        intro own G h
        exact h.congr (fun p => by simp) fun p name _ => by simp
      | cons name names ih =>
        intro own G h
        rw [List.foldl_cons]
        have hiff : ∀ p c, (Add G permission (some name) p c ∨ (p = permission ∧ ∃ name ∈ names, c = some name)) ↔
            (G p c ∨ (p = permission ∧ ∃ name' ∈ name :: names, c = some name')) := by
          intro p c
          simp only [Add,List.mem_cons,exists_eq_or_imp]
          tauto
        exact (ih _ _ (h.merge permission (some name))).congr (fun p => hiff p none) fun p n _ => hiff p (some n)
    have hiff : ∀ p c, (G p c ∨ (p = permission ∧ ∃ name ∈ names, c = some name)) ↔
        G p c ∨ EntryGrants (permission,some names) p c := by
      intro p c
      simp [EntryGrants]
    exact (hfold names own G h).congr (fun p => hiff p none) fun p name _ => hiff p (some name)

theorem Represents.mergeRole (h : Represents own G) {entries : ResolvedRole} (hr : Represents entries G') :
    Represents (entries.foldl Authorization.mergeEntry own) fun p c => G p c ∨ G' p c := by
  have hfold : ∀ (entries : ResolvedRole) (own : ResolvedRole) (G : String → Option String → Prop),
      Represents own G → Represents (entries.foldl Authorization.mergeEntry own)
        fun p c => G p c ∨ ∃ entry ∈ entries, EntryGrants entry p c := by
    intro entries
    induction entries with
    | nil =>
      intro own G h
      exact h.congr (fun p => by simp) fun p name _ => by simp
    | cons entry entries ih =>
      intro own G h
      rw [List.foldl_cons]
      have hiff : ∀ p c, ((G p c ∨ EntryGrants entry p c) ∨ ∃ entry ∈ entries, EntryGrants entry p c) ↔
          (G p c ∨ ∃ entry' ∈ entry :: entries, EntryGrants entry' p c) := by
        intro p c
        simp only [List.mem_cons,exists_eq_or_imp]
        tauto
      exact (ih _ _ (h.mergeEntry entry)).congr (fun p => hiff p none) fun p n _ => hiff p (some n)
  have hentries : ∀ p c, (∃ entry ∈ entries, EntryGrants entry p c) ↔
      (entries.lookup p = some none ∧ c = none) ∨
        ∃ names, entries.lookup p = some (some names) ∧ ∃ name ∈ names, c = some name := by
    intro p c
    constructor
    · rintro ⟨⟨permission,alternatives⟩,hmem,rfl,hc⟩
      have hl := (lookup_eq_some_iff hr.nodup).mpr hmem
      rcases hc with ⟨halt,hc⟩ | ⟨names,halt,hc⟩
      · left
        exact ⟨halt ▸ hl,hc⟩
      · right
        exact ⟨names,halt ▸ hl,hc⟩
    · rintro (⟨hl,hc⟩ | ⟨names,hl,hc⟩)
      · exact ⟨_,mem_of_lookup hl,rfl,Or.inl ⟨rfl,hc⟩⟩
      · exact ⟨_,mem_of_lookup hl,rfl,Or.inr ⟨names,rfl,hc⟩⟩
  apply (hfold entries own G h).congr
  · intro p
    rw [hentries]
    constructor
    · rintro (hG | ⟨hl,-⟩ | ⟨names,-,name,-,hc⟩)
      · exact Or.inl hG
      · exact Or.inr ((hr.always p).mp hl)
      · cases hc
    · rintro (hG | hG)
      · exact Or.inl hG
      · exact Or.inr (Or.inl ⟨(hr.always p).mpr hG,rfl⟩)
  · intro p name hnot
    rw [hentries] at hnot ⊢
    -- the parent holds it under conditions at most
    have hparent : ¬ G' p none := fun hG => hnot (Or.inr (Or.inl ⟨(hr.always p).mpr hG,rfl⟩))
    constructor
    · rintro (hG | ⟨-,hc⟩ | ⟨names,hl,name',hin,hc⟩)
      · exact Or.inl hG
      · cases hc
      · obtain rfl := Option.some.inj hc
        exact Or.inr (((hr.listed p names hl).2.2 name).mp hin)
    · rintro (hG | hG)
      · exact Or.inl hG
      · right
        right
        cases hl : entries.lookup p with
        | none => exact absurd hG (hr.absent p hl (some name))
        | some alternatives =>
          cases alternatives with
          | none => exact absurd ((hr.always p).mp hl) hparent
          | some names => exact ⟨names,rfl,name,((hr.listed p names hl).2.2 name).mpr hG,rfl⟩

end Merging

section Resolving
variable {d : PolicyDefinition} {own : ResolvedRole} {G : String → Option String → Prop}

def OwnGrants (d : PolicyDefinition) (grants : List Grant) (permission : String) (condition : Option String) : Prop :=
  ∃ grant ∈ grants, grant.condition = condition ∧ Covers d grant.permission permission

theorem grants_iff {role permission : String} {condition : Option String} :
    Grants d role permission condition ↔ (∃ parent ∈ d.parents role, Grants d parent permission condition) ∨
      OwnGrants d (d.grants role) permission condition := by
  constructor
  · rintro ⟨ancestor,hinherits,hgrant⟩
    rcases Relation.ReflTransGen.cases_head hinherits with rfl | ⟨parent,hparent,hrest⟩
    · exact Or.inr hgrant
    · exact Or.inl ⟨parent,hparent,ancestor,hrest,hgrant⟩
  · rintro (⟨parent,hparent,ancestor,hinherits,hgrant⟩ | hgrant)
    · exact ⟨ancestor,Relation.ReflTransGen.head hparent hinherits,hgrant⟩
    · exact ⟨role,Relation.ReflTransGen.refl,hgrant⟩

theorem Represents.mergeGrant (h : Represents own G) {grant : Grant}
    (hown : ∀ name, wildcardOf grant.permission = some name → name ∈ d.resources.map Prod.fst) :
    ∃ own', mergeGrant d own grant = some own' ∧ Represents own' fun p c => G p c ∨ OwnGrants d [grant] p c := by
  obtain ⟨expanded,hexpanded,hcovers⟩ := expandGrant_covers hown
  have hfold : ∀ (expanded : List String) (own : ResolvedRole) (G : String → Option String → Prop),
      Represents own G → Represents (expanded.foldl (fun own p => Authorization.merge own p grant.condition) own)
        fun p c => G p c ∨ (p ∈ expanded ∧ c = grant.condition) := by
    intro expanded
    induction expanded with
    | nil =>
      intro own G h
      exact h.congr (fun p => by simp) fun p name _ => by simp
    | cons permission expanded ih =>
      intro own G h
      rw [List.foldl_cons]
      have hiff : ∀ p c, (Add G permission grant.condition p c ∨ (p ∈ expanded ∧ c = grant.condition)) ↔
          (G p c ∨ (p ∈ permission :: expanded ∧ c = grant.condition)) := by
        intro p c
        simp only [Add,List.mem_cons]
        tauto
      exact (ih _ _ (h.merge permission grant.condition)).congr (fun p => hiff p none) fun p n _ => hiff p (some n)
  have hiff : ∀ p c, (G p c ∨ (p ∈ expanded ∧ c = grant.condition)) ↔ (G p c ∨ OwnGrants d [grant] p c) := by
    intro p c
    simp only [OwnGrants,List.mem_singleton,exists_eq_left,hcovers]
    tauto
  rw [Authorization.mergeGrant,hexpanded]
  exact ⟨_,rfl,(hfold expanded own G h).congr (fun p => hiff p none) fun p n _ => hiff p (some n)⟩

theorem Represents.mergeGrants {grants : List Grant} (h : Represents own G)
    (hown : ∀ grant ∈ grants, ∀ name, wildcardOf grant.permission = some name → name ∈ d.resources.map Prod.fst) :
    ∃ own', grants.foldlM (Authorization.mergeGrant d) own = some own' ∧
      Represents own' fun p c => G p c ∨ OwnGrants d grants p c := by
  induction grants generalizing own G with
  | nil => exact ⟨own,rfl,h.congr (fun p => by simp [OwnGrants]) fun p n _ => by simp [OwnGrants]⟩
  | cons grant grants ih =>
    obtain ⟨own₁,h₁,hrep₁⟩ := h.mergeGrant (hown grant List.mem_cons_self)
    obtain ⟨own₂,h₂,hrep₂⟩ := ih hrep₁ fun g hg => hown g (List.mem_cons_of_mem grant hg)
    have hiff : ∀ p c, ((G p c ∨ OwnGrants d [grant] p c) ∨ OwnGrants d grants p c) ↔
        (G p c ∨ OwnGrants d (grant :: grants) p c) := by
      intro p c
      simp only [OwnGrants,List.mem_cons,List.not_mem_nil,or_false,exists_eq_left,exists_eq_or_imp]
      tauto
    rw [List.foldlM_cons,h₁]
    exact ⟨own₂,h₂,hrep₂.congr (fun p => hiff p none) fun p n _ => hiff p (some n)⟩

def Memo (d : PolicyDefinition) (resolved : Resolved) : Prop :=
  ∀ role own, resolved.lookup role = some own → role ∈ d.roleNames ∧ Represents own (Grants d role)

/-- A resolution: the role represents its grants, and the memo only grows. -/
structure Resolves (d : PolicyDefinition) (role : String) (own : ResolvedRole) (resolved resolved' : Resolved) :
    Prop where
  represents : Represents own (Grants d role)
  memo : Memo d resolved'
  grows : ∀ r, resolved.lookup r ≠ none → resolved'.lookup r ≠ none
  found : resolved'.lookup role ≠ none

theorem resolve_cached {role : String} {resolved : Resolved} (h : resolved.lookup role = some own) (fuel : ℕ) :
    resolve d fuel role resolved = some (own,resolved) :=
  resolve.eq_1 d role resolved fuel own h

/-- The parents of a role, resolved and merged one after the other. -/
def resolveParents (d : PolicyDefinition) (fuel : ℕ) (parents : List String) (x : ResolvedRole × Resolved) :
    Option (ResolvedRole × Resolved) :=
  parents.foldlM (fun (own,resolved) parent => do
    let (entries,resolved) ← resolve d fuel parent resolved
    return (entries.foldl mergeEntry own,resolved)) x

theorem resolve_new {role : String} {resolved : Resolved} (h : resolved.lookup role = none) (fuel : ℕ) :
    resolve d (fuel + 1) role resolved = (resolveParents d fuel (d.parents role) ([],resolved)).bind fun x =>
      ((d.grants role).foldlM (mergeGrant d) x.1).map fun own => (own,put role own x.2) := by
  simp only [resolve,h,resolveParents,Option.map_eq_bind]
  rfl

theorem resolve_layered (hown : ∀ role, ∀ grant ∈ d.grants role, ∀ name, wildcardOf grant.permission = some name →
      name ∈ d.resources.map Prod.fst) {order : List String} (hl : Layered d order)
    (hd : ∀ role ∈ order, role ∈ d.roleNames) : ∀ (fuel : ℕ), order.length ≤ fuel → ∀ role ∈ order,
    ∀ resolved, Memo d resolved →
    ∃ own resolved', resolve d fuel role resolved = some (own,resolved') ∧ Resolves d role own resolved resolved' := by
  induction order with
  | nil =>
    intro fuel _ role hrole
    cases hrole
  | cons first order ih =>
    intro fuel hfuel role hrole resolved hmemo
    have hih := ih hl.2 fun r hr => hd r (List.mem_cons_of_mem first hr)
    rw [List.length_cons] at hfuel
    rcases List.mem_cons.mp hrole with rfl | hrole
    · cases hc : resolved.lookup role with
      | some own =>
        refine ⟨own,resolved,resolve_cached hc fuel,(hmemo role own hc).2,hmemo,fun _ h => h,?_⟩
        rw [hc]
        exact Option.some_ne_none own
      | none =>
        obtain ⟨f,rfl⟩ : ∃ f, fuel = f + 1 := ⟨fuel - 1,by omega⟩
        have hparents : ∀ (parents : List String), (∀ parent ∈ parents, parent ∈ order) →
            ∀ (own : ResolvedRole) (G : String → Option String → Prop) (resolved : Resolved),
            Represents own G → Memo d resolved → ∃ own' resolved',
              resolveParents d f parents (own,resolved) = some (own',resolved') ∧
              Represents own' (fun p c => G p c ∨ ∃ parent ∈ parents, Grants d parent p c) ∧ Memo d resolved' ∧
              ∀ r, resolved.lookup r ≠ none → resolved'.lookup r ≠ none := by
          intro parents
          induction parents with
          | nil =>
            intro _ own G resolved h hm
            exact ⟨own,resolved,rfl,h.congr (fun p => by simp) fun p n _ => by simp,hm,fun _ hr => hr⟩
          | cons parent parents ihp =>
            intro hin own G resolved h hm
            obtain ⟨entries,resolved₁,h₁,hres₁⟩ := hih f (by omega) parent (hin parent List.mem_cons_self) resolved hm
            obtain ⟨own₂,resolved₂,h₂,hrep₂,hm₂,hg₂⟩ := ihp (fun q hq => hin q (List.mem_cons_of_mem parent hq)) _ _
              resolved₁ (h.mergeRole hres₁.represents) hres₁.memo
            refine ⟨own₂,resolved₂,?_,?_,hm₂,fun r hr => hg₂ r (hres₁.grows r hr)⟩
            · rw [resolveParents,List.foldlM_cons]
              simp only [h₁]
              exact h₂
            · have hiff : ∀ p c, ((G p c ∨ Grants d parent p c) ∨ ∃ q ∈ parents, Grants d q p c) ↔
                  (G p c ∨ ∃ q ∈ parent :: parents, Grants d q p c) := by
                intro p c
                simp only [List.mem_cons,exists_eq_or_imp]
                tauto
              exact hrep₂.congr (fun p => hiff p none) fun p n _ => hiff p (some n)
        obtain ⟨own₁,resolved₁,h₁,hrep₁,hm₁,hg₁⟩ := hparents (d.parents role) hl.1 [] _ resolved represents_nil hmemo
        obtain ⟨own₂,h₂,hrep₂⟩ := hrep₁.mergeGrants (hown role)
        have hiff : ∀ p c, ((False ∨ ∃ parent ∈ d.parents role, Grants d parent p c) ∨
            OwnGrants d (d.grants role) p c) ↔ Grants d role p c := by
          intro p c
          rw [grants_iff,false_or]
        have hrep : Represents own₂ (Grants d role) :=
          hrep₂.congr (fun p => hiff p none) fun p n _ => hiff p (some n)
        refine ⟨own₂,put role own₂ resolved₁,?_,hrep,?_,?_,?_⟩
        · rw [resolve_new hc,h₁]
          simp only [Option.bind_some,h₂]
          rfl
        · intro r own hr
          rw [lookup_put] at hr
          split at hr
          · rename_i heq
            obtain rfl := Option.some.inj hr
            rw [heq]
            exact ⟨hd role List.mem_cons_self,hrep⟩
          · exact hm₁ r own hr
        · intro r hr
          rw [lookup_put]
          split
          · exact Option.some_ne_none own₂
          · exact hg₁ r hr
        · rw [lookup_put_self]
          exact Option.some_ne_none own₂
    · exact hih fuel (by omega) role hrole resolved hmemo

/-- The roles of a definition without issues are resolved, and represent their grants. -/
theorem resolveRoles_valid {conditions : List String} (hv : validate d conditions = some [])
    (hown : ∀ role, ∀ grant ∈ d.grants role, ∀ name, wildcardOf grant.permission = some name →
      name ∈ d.resources.map Prod.fst) :
    ∃ resolved, resolveRoles d = some resolved ∧ Memo d resolved ∧
      ∀ role ∈ d.roleNames, resolved.lookup role ≠ none := by
  obtain ⟨order,hl,hnodup,hmem⟩ := layered_of_valid hv
  have hlength : order.length ≤ d.roleNames.length :=
    (hnodup.subperm fun role hrole => (hmem role).mp hrole).length_le
  have hroles : ∀ (roles : List String), (∀ role ∈ roles, role ∈ d.roleNames) → ∀ resolved, Memo d resolved →
      ∃ resolved', roles.foldlM (fun resolved role => (resolve d d.roleNames.length role resolved).map Prod.snd)
        resolved = some resolved' ∧ Memo d resolved' ∧ (∀ r, resolved.lookup r ≠ none → resolved'.lookup r ≠ none) ∧
        ∀ role ∈ roles, resolved'.lookup role ≠ none := by
    intro roles
    induction roles with
    | nil => exact fun _ resolved hm => ⟨resolved,rfl,hm,fun _ h => h,fun _ hin => by cases hin⟩
    | cons role roles ih =>
      intro hin resolved hm
      obtain ⟨own,resolved₁,h₁,hres⟩ := resolve_layered hown hl (fun r hr => (hmem r).mp hr) d.roleNames.length
        hlength role ((hmem role).mpr (hin role List.mem_cons_self)) resolved hm
      obtain ⟨resolved₂,h₂,hm₂,hg₂,hf₂⟩ := ih (fun r hr => hin r (List.mem_cons_of_mem role hr)) resolved₁ hres.memo
      refine ⟨resolved₂,?_,hm₂,fun r hr => hg₂ r (hres.grows r hr),?_⟩
      · rw [List.foldlM_cons,h₁]
        exact h₂
      · intro r hr
        rcases List.mem_cons.mp hr with rfl | hr
        · exact hg₂ r hres.found
        · exact hf₂ r hr
  have hempty : Memo d [] := by
    intro role own h
    cases h
  obtain ⟨resolved,h,hm,-,hfound⟩ := hroles d.roleNames (fun _ hr => hr) [] hempty
  exact ⟨resolved,h,hm,hfound⟩

end Resolving

end StructureAi.Authorization

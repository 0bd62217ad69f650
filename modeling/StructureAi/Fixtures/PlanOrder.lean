import StructureAi.Fixtures.Plan
import StructureAi.Foundation.DependencyOrder

/-! # The order of a plan

A search is at a path of fixtures that were entered and not yet left. The map of seen fixtures holds these and the nodes that are
in order, each under its key; a fixture that is met again is therefore either in order already, on the path, or another one of
its key.
-/
namespace StructureAi.Fixtures
open StructureAi.Foundation
variable {α ε V : Type*} {graph : Graph α} {search after : Search α} {path nodes : List α} {node : α} {depth : ℕ}

def Edge (graph : Graph α) (node dependency : α) : Prop := dependency ∈ (graph.dependencies node).map Prod.snd

section Invariant

/-- The path starts with the fixture that was entered last. -/
structure Searching (graph : Graph α) (search : Search α) (path : List α) : Prop where
  seen : ∀ k x, search.seen.lookup k = some x ↔ (x ∈ search.nodes ∨ x ∈ path) ∧ graph.key x = k
  visiting : search.visiting = path.map graph.key
  order : DependencyOrder (Edge graph) search.nodes
  apart : ∀ x ∈ path, x ∉ search.nodes
  keys : ∀ x, x ∈ search.nodes ∨ x ∈ path → isKey (graph.key x) = true

theorem searching_nil : Searching graph ⟨[],[],[]⟩ [] where
  seen := by simp
  visiting := rfl
  order := .nil
  apart := by simp
  keys := by simp

/-- What visits of targets add to the nodes. -/
structure Grown (graph : Graph α) (search after : Search α) (targets : List α) : Prop where
  kept : ∀ x ∈ search.nodes, x ∈ after.nodes
  reached : ∀ x ∈ after.nodes, x ∈ search.nodes ∨ ∃ t ∈ targets, Relation.ReflTransGen (Edge graph) t x
  visited : ∀ t ∈ targets, t ∈ after.nodes

theorem grown_nil : Grown graph search search [] where
  kept := fun x hx => hx
  reached := fun x hx => Or.inl hx
  visited := by simp

theorem Grown.cons {between : Search α} {targets : List α} (h : Grown graph search between [node])
    (hrest : Grown graph between after targets) : Grown graph search after (node :: targets) where
  kept := fun x hx => hrest.kept x (h.kept x hx)
  reached := by
    intro x hx
    obtain hx | ⟨t,ht,hreach⟩ := hrest.reached x hx
    · obtain hx | ⟨t,ht,hreach⟩ := h.reached x hx
      · exact Or.inl hx
      · obtain rfl := List.mem_singleton.mp ht
        exact Or.inr ⟨t,List.mem_cons_self,hreach⟩
    · exact Or.inr ⟨t,List.mem_cons_of_mem _ ht,hreach⟩
  visited := by
    intro t ht
    obtain rfl | ht := List.mem_cons.mp ht
    · exact hrest.kept t (h.visited t List.mem_cons_self)
    · exact hrest.visited t ht

namespace Searching

theorem injective (h : Searching graph search path) {x y : α} (hx : x ∈ search.nodes ∨ x ∈ path) (hy : y ∈ search.nodes ∨
    y ∈ path)
    (hkey : graph.key x = graph.key y) : x = y := by
  have hlookup := (h.seen (graph.key y) x).mpr ⟨hx,hkey⟩
  rw [(h.seen (graph.key y) y).mpr ⟨hy,rfl⟩] at hlookup
  exact (Option.some.inj hlookup).symm

theorem mem_nodes (h : Searching graph search path) (hseen : search.seen.lookup (graph.key node) = some node)
    (hvisiting : graph.key node ∉ search.visiting) : node ∈ search.nodes := by
  obtain ⟨hnode | hnode,-⟩ := (h.seen _ _).mp hseen
  · exact hnode
  · rw [h.visiting] at hvisiting
    cases hvisiting (List.mem_map_of_mem hnode)

theorem unseen (h : Searching graph search path) (hseen : search.seen.lookup (graph.key node) = none) :
    node ∉ search.nodes ∧ node ∉ path := by
  constructor
  · intro hnode
    rw [(h.seen _ node).mpr ⟨Or.inl hnode,rfl⟩] at hseen
    cases hseen
  · intro hnode
    rw [(h.seen _ node).mpr ⟨Or.inr hnode,rfl⟩] at hseen
    cases hseen

theorem enter (h : Searching graph search path) (hkey : isKey (graph.key node) = true)
    (hseen : search.seen.lookup (graph.key node) = none) :
    Searching graph ⟨put (graph.key node) node search.seen,graph.key node :: search.visiting,search.nodes⟩ (node :: path) where
  seen := by
    intro k x
    rw [lookup_put]
    split
    · rename_i hk
      subst hk
      constructor
      · intro hx
        obtain rfl := Option.some.inj hx
        exact ⟨Or.inr List.mem_cons_self,rfl⟩
      · rintro ⟨hx,hx'⟩
        obtain hx | hx := hx
        · rw [(h.seen _ x).mpr ⟨Or.inl hx,hx'⟩] at hseen
          cases hseen
        · obtain rfl | hx := List.mem_cons.mp hx
          · rfl
          · rw [(h.seen _ x).mpr ⟨Or.inr hx,hx'⟩] at hseen
            cases hseen
    · rename_i hk
      rw [h.seen,List.mem_cons]
      constructor
      · rintro ⟨hx | hx,hx'⟩
        · exact ⟨Or.inl hx,hx'⟩
        · exact ⟨Or.inr (Or.inr hx),hx'⟩
      · rintro ⟨hx | rfl | hx,hx'⟩
        · exact ⟨Or.inl hx,hx'⟩
        · cases hk hx'.symm
        · exact ⟨Or.inr hx,hx'⟩
  visiting := by rw [h.visiting,List.map_cons]
  order := h.order
  apart := by
    intro x hx
    obtain rfl | hx := List.mem_cons.mp hx
    · exact (h.unseen hseen).1
    · exact h.apart x hx
  keys := by
    rintro x (hx | hx)
    · exact h.keys x (Or.inl hx)
    · obtain rfl | hx := List.mem_cons.mp hx
      · exact hkey
      · exact h.keys x (Or.inr hx)

theorem leave (h : Searching graph search (node :: path)) (hpath : node ∉ path) (hedges : ∀ y, Edge graph node y →
    y ∈ search.nodes) :
    Searching graph ⟨search.seen,search.visiting.erase (graph.key node),search.nodes ++ [node]⟩ path where
  seen := by
    intro k x
    rw [h.seen,List.mem_cons,List.mem_append,List.mem_singleton,or_assoc]
  visiting := by
    rw [h.visiting,List.map_cons,List.erase_cons_head]
  order := h.order.concat (h.apart node List.mem_cons_self) hedges
  apart := by
    intro x hx hmem
    obtain hmem | hmem := List.mem_append.mp hmem
    · exact h.apart x (List.mem_cons_of_mem _ hx) hmem
    · obtain rfl := List.mem_singleton.mp hmem
      exact hpath hx
  keys := by
    intro x hx
    rw [List.mem_append,List.mem_singleton,or_assoc,← List.mem_cons] at hx
    exact h.keys x hx

end Searching

end Invariant

section Visit
variable [DecidableEq α]

theorem visit_ok (h : visit (ε := ε) graph (depth + 1) node search = .ok after) :
    isKey (graph.key node) = true ∧ graph.key node ∉ search.visiting ∧
      (search.seen.lookup (graph.key node) = some node ∧ after = search ∨
        search.seen.lookup (graph.key node) = none ∧ ∃ left,
          ((graph.dependencies node).map Prod.snd).foldlM (fun search dependency => visit (ε := ε) graph depth dependency search)
              ⟨put (graph.key node) node search.seen,graph.key node :: search.visiting,search.nodes⟩ = .ok left ∧
            after = ⟨left.seen,left.visiting.erase (graph.key node),left.nodes ++ [node]⟩) := by
  unfold visit at h
  split at h
  swap
  · cases h
  rename_i hkey
  dsimp only at h
  split at h
  · cases h
  rename_i hconflict
  split at h
  · cases h
  rename_i hvisiting
  refine ⟨hkey,hvisiting,?_⟩
  split at h
  · rename_i hseen
    left
    have hnode : search.seen.lookup (graph.key node) = some node := by
      by_contra hother
      exact hconflict ⟨hseen,hother⟩
    exact ⟨hnode,(Except.ok.inj h).symm⟩
  · rename_i hseen
    right
    refine ⟨not_not.mp hseen,?_⟩
    rw [List.foldlM_map]
    split at h
    · cases h
    · rename_i left hleft
      exact ⟨left,hleft,(Except.ok.inj h).symm⟩

theorem visits_ok {targets : List α}
    (hvisit : ∀ {t : α} {search after : Search α}, visit (ε := ε) graph depth t search = .ok after →
      Searching graph search path →
      Searching graph after path ∧ Grown graph search after [t])
    (h : targets.foldlM (fun search target => visit (ε := ε) graph depth target search) search = .ok after)
    (hsearch : Searching graph search path) : Searching graph after path ∧ Grown graph search after targets := by
  induction targets generalizing search with
  | nil =>
    obtain rfl := Except.ok.inj h
    exact ⟨hsearch,grown_nil⟩
  | cons t targets ih =>
    rw [List.foldlM_cons] at h
    cases hone : visit (ε := ε) graph depth t search with
    | error e =>
      rw [hone] at h
      cases h
    | ok between =>
      rw [hone] at h
      obtain ⟨hbetween,hgrown⟩ := hvisit hone hsearch
      obtain ⟨hafter,hrest⟩ := ih h hbetween
      exact ⟨hafter,hgrown.cons hrest⟩

theorem visit_searching (h : visit (ε := ε) graph depth node search = .ok after) (hsearch : Searching graph search path) :
    Searching graph after path ∧ Grown graph search after [node] := by
  induction depth generalizing node search after path with
  | zero => cases h
  | succ depth ih =>
    obtain ⟨hkey,hvisiting,⟨hseen,rfl⟩ | ⟨hseen,left,hleft,rfl⟩⟩ := visit_ok h
    · refine ⟨hsearch,fun x hx => hx,fun x hx => Or.inl hx,fun t ht => ?_⟩
      obtain rfl := List.mem_singleton.mp ht
      exact hsearch.mem_nodes hseen hvisiting
    · obtain ⟨hafter,hgrown⟩ := visits_ok (fun hone => ih hone) hleft (hsearch.enter hkey hseen)
      refine ⟨hafter.leave (hsearch.unseen hseen).2 hgrown.visited,fun x hx => ?_,fun x hx => ?_,fun t ht => ?_⟩
      · exact List.mem_append_left _ (hgrown.kept x hx)
      · obtain hx | hx := List.mem_append.mp hx
        · obtain hx | ⟨t,ht,hreach⟩ := hgrown.reached x hx
          · exact Or.inl hx
          · exact Or.inr ⟨node,List.mem_cons_self,hreach.head ht⟩
        · obtain rfl := List.mem_singleton.mp hx
          exact Or.inr ⟨x,List.mem_cons_self,.refl⟩
      · exact List.mem_append_right _ ht

end Visit

section Complete
variable {R : α → Prop}

/-- Fixtures whose keys are good and their own, and none of which depends on itself. -/
structure Sound (graph : Graph α) (R : α → Prop) : Prop where
  keys : ∀ x, R x → isKey (graph.key x) = true
  distinct : ∀ x y, R x → R y → graph.key x = graph.key y → x = y
  acyclic : ∀ x, R x → ¬ Relation.TransGen (Edge graph) x x

variable [DecidableEq α]

theorem visits_succeed (hR : ∀ x y, R x → Edge graph x y → R y) {targets : List α}
    (hvisit : ∀ {t : α} {search : Search α}, t ∈ targets → Searching graph search path → (∀ x ∈ search.nodes, R x) →
      ∃ after, visit (ε := ε) graph depth t search = .ok after)
    (hsearch : Searching graph search path) (hnodes : ∀ x ∈ search.nodes, R x) (htargets : ∀ t ∈ targets, R t) :
    ∃ after, targets.foldlM (fun search target => visit (ε := ε) graph depth target search) search = .ok after := by
  induction targets generalizing search with
  | nil => exact ⟨search,rfl⟩
  | cons t targets ih =>
    obtain ⟨between,hone⟩ := hvisit List.mem_cons_self hsearch hnodes
    obtain ⟨hbetween,hgrown⟩ := visit_searching hone hsearch
    rw [List.foldlM_cons,hone]
    refine ih (fun ht => hvisit (List.mem_cons_of_mem _ ht)) hbetween (fun x hx => ?_)
      (fun t ht => htargets t (List.mem_cons_of_mem _ ht))
    obtain hx | ⟨t',ht',hreach⟩ := hgrown.reached x hx
    · exact hnodes x hx
    · obtain rfl := List.mem_singleton.mp ht'
      have ht := htargets t' List.mem_cons_self
      clear hone hx
      induction hreach with
      | refl => exact ht
      | tail _ hedge ih => exact hR _ _ ih hedge

variable [Fintype α]

/-- The path has no fixture twice, so a call is left for each fixture that is not on it. -/
theorem visit_succeeds (hsound : Sound graph R) (hR : ∀ x y, R x → Edge graph x y → R y) (hnode : R node)
    (hsearch : Searching graph search path) (hnodes : ∀ x ∈ search.nodes, R x) (hpath : ∀ x ∈ path, R x)
    (hnodup : path.Nodup) (hchain : ∀ x ∈ path, Relation.TransGen (Edge graph) x node)
    (hdepth : Fintype.card α < depth + path.length) : ∃ after, visit (ε := ε) graph depth node search = .ok after := by
  induction depth generalizing node search path with
  | zero =>
    have := hnodup.length_le_card
    omega
  | succ depth ih =>
    have hmember : ∀ x, x ∈ search.nodes ∨ x ∈ path → R x := by
      rintro x (hx | hx)
      · exact hnodes x hx
      · exact hpath x hx
    have hvisiting : graph.key node ∉ search.visiting := by
      rw [hsearch.visiting]
      intro hvisiting
      obtain ⟨x,hx,hkey⟩ := List.mem_map.mp hvisiting
      obtain rfl := hsound.distinct x node (hpath x hx) hnode hkey
      exact hsound.acyclic x hnode (hchain x hx)
    have hexisting : ∀ x, search.seen.lookup (graph.key node) = some x → x = node := by
      intro x hx
      obtain ⟨hx,hkey⟩ := (hsearch.seen _ x).mp hx
      exact hsound.distinct x node (hmember x hx) hnode hkey
    unfold visit
    rw [if_pos (hsound.keys node hnode)]
    dsimp only
    cases hseen : search.seen.lookup (graph.key node) with
    | some x =>
      obtain rfl := hexisting x hseen
      rw [if_neg (by simp),if_neg hvisiting,if_pos (by simp)]
      exact ⟨search,rfl⟩
    | none =>
      have hone : ∀ {t : α} {search' : Search α}, t ∈ (graph.dependencies node).map Prod.snd →
        Searching graph search' (node :: path) →
          (∀ x ∈ search'.nodes, R x) → ∃ after, visit (ε := ε) graph depth t search' = .ok after := by
        intro t search' ht hsearch' hnodes'
        refine ih (hR node t hnode ht) hsearch' hnodes' (fun x hx => ?_) (hnodup.cons (hsearch.unseen hseen).2)
          (fun x hx => ?_) ?_
        · obtain rfl | hx := List.mem_cons.mp hx
          · exact hnode
          · exact hpath x hx
        · obtain rfl | hx := List.mem_cons.mp hx
          · exact .single ht
          · exact (hchain x hx).tail ht
        · rw [List.length_cons]
          omega
      obtain ⟨left,hleft⟩ := visits_succeed hR hone (hsearch.enter (hsound.keys node hnode) hseen) hnodes (fun t ht =>
        hR node t hnode ht)
      rw [if_neg (by simp),if_neg hvisiting,if_neg (by simp)]
      rw [List.foldlM_map] at hleft
      rw [hleft]
      exact ⟨_,rfl⟩

end Complete

section Ordered
variable [DecidableEq α] [Fintype α] {selection : Selection α}

def Reached (graph : Graph α) (selection : Selection α) (node : α) : Prop :=
  ∃ root ∈ selection.roots, Relation.ReflTransGen (Edge graph) root node

theorem ordered_ok (h : ordered (ε := ε) graph selection = .ok nodes) :
    ∃ search, Searching graph search [] ∧ Grown graph ⟨[],[],[]⟩ search selection.roots ∧ search.nodes = nodes := by
  unfold ordered at h
  cases hfold : selection.roots.foldlM (fun search root => visit (ε := ε) graph (Fintype.card α + 1) root search) ⟨[],[],[]⟩ with
  | error e =>
    rw [hfold] at h
    cases h
  | ok search =>
    rw [hfold] at h
    obtain ⟨hsearch,hgrown⟩ := visits_ok (fun hone => visit_searching hone) hfold searching_nil
    exact ⟨search,hsearch,hgrown,Except.ok.inj h⟩

theorem mem_ordered (h : ordered (ε := ε) graph selection = .ok nodes) : node ∈ nodes ↔ Reached graph selection node := by
  obtain ⟨search,hsearch,hgrown,rfl⟩ := ordered_ok h
  constructor
  · intro hnode
    obtain hnode | hnode := hgrown.reached node hnode
    · cases hnode
    · exact hnode
  · rintro ⟨root,hroot,hreach⟩
    exact hsearch.order.closed_reach (hgrown.visited root hroot) hreach

theorem ordered_sound (h : ordered (ε := ε) graph selection = .ok nodes) : Sound graph (Reached graph selection) := by
  have hmem : ∀ x, Reached graph selection x → x ∈ nodes := fun x => (mem_ordered h).mpr
  obtain ⟨search,hsearch,-,rfl⟩ := ordered_ok h
  exact ⟨fun x hx => hsearch.keys x (Or.inl (hmem x hx)),
    fun x y hx hy => hsearch.injective (Or.inl (hmem x hx)) (Or.inl (hmem y hy)),
    fun x hx => hsearch.order.acyclic (hmem x hx)⟩

theorem ordered_complete (h : Sound graph (Reached graph selection)) : ∃ nodes, ordered (ε := ε) graph selection =
    .ok nodes := by
  have hR : ∀ x y, Reached graph selection x → Edge graph x y → Reached graph selection y := by
    rintro x y ⟨root,hroot,hreach⟩ hedge
    exact ⟨root,hroot,hreach.tail hedge⟩
  have hroot : ∀ root ∈ selection.roots, Reached graph selection root := fun root hroot => ⟨root,hroot,.refl⟩
  obtain ⟨search,hsearch⟩ := visits_succeed (ε := ε) hR
    (fun ht hsearch hnodes => visit_succeeds h hR (hroot _ ht) hsearch hnodes (by simp) List.nodup_nil (by simp)
      (Nat.lt_succ_self _))
    (searching_nil : Searching graph ⟨[],[],[]⟩ []) (by simp) hroot
  exact ⟨search.nodes,by rw [ordered,hsearch]; rfl⟩

end Ordered

section Run
variable {progress : ℕ → Except ε Unit} {create : ℕ → α → List (String × Option V) → Except ε V} {done left : Progress α V}
  {created more : List (α × List (String × Option V))} {i : ℕ} {handed : List (String × Option V)} {result : Except ε Unit}

/-- What a fixture was handed: under the name of each dependency the value that the creation of that dependency gave,
  in a call before
this one. -/
def HandedOutputs (graph : Graph α) (create : ℕ → α → List (String × Option V) → Except ε V)
    (created : List (α × List (String × Option V))) (i : ℕ) (node : α) (handed : List (String × Option V)) : Prop :=
  List.Forall₂ (fun dependency entry => entry.1 = dependency.1 ∧ ∃ j args value, j < i ∧ created[j]? = some (dependency.2,args) ∧
    create j dependency.2 args = .ok value ∧ entry.2 = some value) (graph.dependencies node) handed

theorem HandedOutputs.append (h : HandedOutputs graph create created i node handed) :
    HandedOutputs graph create (created ++ more) i node handed := by
  refine List.Forall₂.imp ?_ h
  rintro dependency entry ⟨hname,j,args,value,hj,hcreated,hvalue,hentry⟩
  have hlength : j < created.length := (List.getElem?_eq_some_iff.mp hcreated).1
  exact ⟨hname,j,args,value,hj,by rw [List.getElem?_append_left hlength,hcreated],hvalue,hentry⟩

/-- Every fixture that was created was handed its outputs. -/
def AllHanded (graph : Graph α) (create : ℕ → α → List (String × Option V) → Except ε V)
    (created : List (α × List (String × Option V))) :
    Prop :=
  ∀ i node handed, created[i]? = some (node,handed) → HandedOutputs graph create created i node handed

theorem AllHanded.concat (h : AllHanded graph create created)
    (hnode : HandedOutputs graph create created created.length node handed) :
    AllHanded graph create (created ++ [(node,handed)]) := by
  intro i node' handed' hi
  rw [List.getElem?_append] at hi
  split at hi
  · exact (h i node' handed' hi).append
  · rename_i hlength
    obtain ⟨hsub,hlast⟩ := List.getElem?_eq_some_iff.mp hi
    rw [List.length_singleton] at hsub
    obtain rfl : i = created.length := by omega
    simp only [Nat.sub_self,List.getElem_cons_zero,Prod.mk.injEq] at hlast
    obtain ⟨rfl,rfl⟩ := hlast
    exact hnode.append

/-- A run whose creations so far have all given a value. -/
structure Running (graph : Graph α) (create : ℕ → α → List (String × Option V) → Except ε V) (done : Progress α V) : Prop where
  values : ∀ i node args, done.created[i]? = some (node,args) →
    ∃ value, create i node args = .ok value ∧ done.values.lookup (graph.key node) = some value
  completed : done.completed = done.created.map fun call => graph.key call.1
  handed : AllHanded graph create done.created

theorem running_nil : Running graph create (⟨[],[],[]⟩ : Progress α V) where
  values := by simp
  completed := rfl
  handed := by
    intro i node handed hi
    simp at hi

theorem Running.inputs (h : Running graph create done) (hedges : ∀ y, Edge graph node y → y ∈ done.created.map Prod.fst) :
    HandedOutputs graph create done.created done.created.length node (inputs graph done.values node) := by
  unfold HandedOutputs Fixtures.inputs
  rw [List.forall₂_map_right_iff,List.forall₂_same]
  intro dependency hdependency
  refine ⟨rfl,?_⟩
  obtain ⟨⟨-,args⟩,hmem,rfl⟩ := List.mem_map.mp (hedges dependency.2 (List.mem_map_of_mem hdependency))
  obtain ⟨j,hj,hcreated⟩ := List.getElem_of_mem hmem
  have hcall := List.getElem?_eq_some_iff.mpr ⟨hj,hcreated⟩
  obtain ⟨value,hvalue,hlookup⟩ := h.values j _ args hcall
  exact ⟨j,args,value,hj,hcall,hvalue,hlookup⟩

theorem Running.concat {value : V} (h : Running graph create done)
    (hnew : ∀ x ∈ done.created.map Prod.fst, graph.key x ≠ graph.key node)
    (hhanded : HandedOutputs graph create done.created done.created.length node handed)
    (hvalue : create done.created.length node handed = .ok value) :
    Running graph create ⟨put (graph.key node) value done.values,done.completed ++ [graph.key node],done.created ++
      [(node,handed)]⟩ where
  values := by
    intro i node' args hi
    simp only [List.getElem?_append] at hi
    split at hi
    · obtain ⟨value',hvalue',hlookup⟩ := h.values i node' args hi
      refine ⟨value',hvalue',?_⟩
      rw [lookup_put_of_ne (hnew node' (List.mem_map_of_mem (List.mem_of_getElem? hi))),hlookup]
    · obtain ⟨hsub,hlast⟩ := List.getElem?_eq_some_iff.mp hi
      rw [List.length_singleton] at hsub
      obtain rfl : i = done.created.length := by omega
      simp only [Nat.sub_self,List.getElem_cons_zero,Prod.mk.injEq] at hlast
      obtain ⟨rfl,rfl⟩ := hlast
      exact ⟨value,hvalue,lookup_put_self⟩
  completed := by rw [h.completed,List.map_append,List.map_singleton]
  handed := h.handed.concat hhanded

/-- What stops a run is a failed report or a failed creation. -/
def Failed (progress : ℕ → Except ε Unit) (create : ℕ → α → List (String × Option V) → Except ε V) : Prop :=
  (∃ n cause, progress n = .error cause) ∨ ∃ i node args cause, create i node args = .error cause

theorem execute_running {all : List α} (horder : DependencyOrder (Edge graph) all)
    (hkeys : ∀ x ∈ all, ∀ y ∈ all, graph.key x = graph.key y → x = y) (hall : done.created.map Prod.fst ++ nodes = all)
    (h : Running graph create done) (hrun : execute graph progress create nodes done = (result,left)) :
    left.created.map Prod.fst <+: all ∧ AllHanded graph create left.created ∧
      (result = .ok () ∧ Running graph create left ∧ left.created.map Prod.fst = all ∨
        (∃ cause, result = .error cause) ∧ Failed progress create) := by
  induction nodes generalizing done with
  | nil =>
    obtain ⟨rfl,rfl⟩ := Prod.mk.inj hrun
    rw [List.append_nil] at hall
    exact ⟨hall ▸ List.prefix_refl _,h.handed,Or.inl ⟨rfl,h,hall⟩⟩
  | cons node nodes ih =>
    unfold execute at hrun
    cases hprogress : progress (done.created.length + 1) with
    | error cause =>
      rw [hprogress] at hrun
      obtain ⟨rfl,rfl⟩ := Prod.mk.inj hrun
      exact ⟨⟨_,hall⟩,h.handed,Or.inr ⟨⟨cause,rfl⟩,Or.inl ⟨_,cause,hprogress⟩⟩⟩
    | ok u =>
      rw [hprogress] at hrun
      dsimp only at hrun
      have hinputs := h.inputs fun y hedge => horder.mem_before hall.symm hedge
      cases hcreate : create done.created.length node (inputs graph done.values node) with
      | error cause =>
        rw [hcreate] at hrun
        obtain ⟨rfl,rfl⟩ := Prod.mk.inj hrun
        refine ⟨⟨nodes,?_⟩,h.handed.concat hinputs,Or.inr ⟨⟨cause,rfl⟩,Or.inr ⟨_,_,_,cause,hcreate⟩⟩⟩
        rw [List.map_append,List.map_singleton,List.append_assoc,List.singleton_append,hall]
      | ok value =>
        rw [hcreate] at hrun
        have hnew : ∀ x ∈ done.created.map Prod.fst, graph.key x ≠ graph.key node := by
          intro x hx hkey
          obtain rfl := hkeys x (hall ▸ List.mem_append_left _ hx) node
            (hall ▸ List.mem_append_right _ List.mem_cons_self) hkey
          exact (List.disjoint_of_nodup_append (hall ▸ horder.nodup)) hx List.mem_cons_self
        refine ih ?_ (h.concat hnew hinputs hcreate) hrun
        rw [List.map_append,List.map_singleton,List.append_assoc,List.singleton_append,hall]

variable [DecidableEq α] [Fintype α] {selection : Selection α}

theorem run_created {options : RunOptions α ε} {report : Except (FixtureError ε) (RunReport V)}
    (hnodes : ordered (ε := ε) graph options.fixtures = .ok nodes) (hrun : run graph progress create options = (report,done)) :
    done.created.map Prod.fst <+: nodes ∧ AllHanded graph create done.created ∧
      (∀ r, report = .ok r → done.created.map Prod.fst = nodes ∧ r.completed = nodes.map graph.key) ∧
      (options.enabled = some true → (∃ t ∈ options.timeoutMs, 0 < t) → ¬ Failed progress create →
        done.created.map Prod.fst = nodes) := by
  have hdistinct := (ordered_sound hnodes).distinct
  have hmem : ∀ x, x ∈ nodes → Reached graph options.fixtures x := fun x => (mem_ordered hnodes).mp
  have horder : DependencyOrder (Edge graph) nodes := by
    obtain ⟨search,hsearch,-,rfl⟩ := ordered_ok hnodes
    exact hsearch.order
  unfold run at hrun
  dsimp only at hrun
  split at hrun
  swap
  · rename_i henabled
    obtain ⟨rfl,rfl⟩ := Prod.mk.inj hrun
    exact ⟨List.nil_prefix,running_nil.handed,(fun r hr => nomatch hr),fun h => absurd h henabled⟩
  split at hrun
  swap
  · rename_i htimeout
    obtain ⟨rfl,rfl⟩ := Prod.mk.inj hrun
    exact ⟨List.nil_prefix,running_nil.handed,(fun r hr => nomatch hr),fun _ h => absurd h htimeout⟩
  rw [hnodes] at hrun
  dsimp only at hrun
  cases hstart : progress 0 with
  | error cause =>
    rw [hstart] at hrun
    obtain ⟨rfl,rfl⟩ := Prod.mk.inj hrun
    exact ⟨List.nil_prefix,running_nil.handed,(fun r hr => nomatch hr),fun _ _ h => absurd (Or.inl ⟨0,cause,hstart⟩) h⟩
  | ok u =>
    rw [hstart] at hrun
    dsimp only at hrun
    cases hexecute : execute graph progress create nodes ⟨[],[],[]⟩ with
    | mk result left =>
      rw [hexecute] at hrun
      obtain ⟨hcalled,hhanded,⟨rfl,hleft,hcreated⟩ | ⟨⟨cause,rfl⟩,hfailed⟩⟩ := execute_running horder
        (fun x hx y hy => hdistinct x y (hmem x hx) (hmem y hy)) (by simp) running_nil hexecute
      · dsimp only at hrun
        have hdone : left = done := by
          split at hrun
          all_goals exact (Prod.mk.inj hrun).2
        subst hdone
        refine ⟨hcalled,hhanded,fun r hr => ⟨hcreated,?_⟩,fun _ _ _ => hcreated⟩
        have hcompleted : left.completed = nodes.map graph.key := by
          rw [hleft.completed,← hcreated,List.map_map]
          rfl
        split at hrun
        · cases hr ▸ (Prod.mk.inj hrun).1
        · cases hr ▸ (Prod.mk.inj hrun).1
        · have hreport := Except.ok.inj (hr ▸ (Prod.mk.inj hrun).1)
          rw [← hreport,hcompleted]
      · obtain ⟨rfl,rfl⟩ := Prod.mk.inj hrun
        exact ⟨hcalled,hhanded,(fun r hr => nomatch hr),fun _ _ h => absurd hfailed h⟩

/-- A plan is made exactly when each fixture that is reached has a good key, no other has that key,
  and none depends on itself. It has
each of them once, after its dependencies. A run creates them in this order as far as nothing fails, and hands to each what
its dependencies gave. -/
theorem plan_exact (graph : Graph α) (selection : Selection α) :
    ((∃ keys, plan (ε := ε) graph selection = .ok keys) ↔ Sound graph (Reached graph selection)) ∧
    ∀ nodes, ordered (ε := ε) graph selection = .ok nodes →
      plan (ε := ε) graph selection = .ok (nodes.map graph.key) ∧ nodes.Nodup ∧
        (∀ node, node ∈ nodes ↔ Reached graph selection node) ∧
      (∀ before node after dependency, nodes = before ++ node :: after → Edge graph node dependency → dependency ∈ before) ∧
      ∀ (progress : ℕ → Except ε Unit) (create : ℕ → α → List (String × Option V) → Except ε V)
        (options : RunOptions α ε) report done,
        options.fixtures = selection → run graph progress create options = (report,done) →
          done.created.map Prod.fst <+: nodes ∧ AllHanded graph create done.created ∧
          (∀ r, report = .ok r → done.created.map Prod.fst = nodes ∧ r.completed = nodes.map graph.key) ∧
          (options.enabled = some true → (∃ t ∈ options.timeoutMs, 0 < t) → ¬ Failed progress create →
            done.created.map Prod.fst = nodes) := by
  constructor
  · constructor
    · rintro ⟨keys,hkeys⟩
      cases hnodes : ordered (ε := ε) graph selection with
      | error e =>
        rw [plan,hnodes] at hkeys
        cases hkeys
      | ok nodes => exact ordered_sound hnodes
    · intro h
      obtain ⟨nodes,hnodes⟩ := ordered_complete (ε := ε) h
      exact ⟨nodes.map graph.key,by rw [plan,hnodes]; rfl⟩
  · intro nodes hnodes
    obtain ⟨search,hsearch,-,hsearched⟩ := ordered_ok hnodes
    have horder : DependencyOrder (Edge graph) nodes := hsearched ▸ hsearch.order
    refine ⟨by rw [plan,hnodes]; rfl,horder.nodup,fun node => mem_ordered hnodes,
      fun before node after dependency hsplit hedge => horder.mem_before hsplit hedge,?_⟩
    rintro progress create options report done rfl hrun
    exact run_created hnodes hrun

end Run

end StructureAi.Fixtures

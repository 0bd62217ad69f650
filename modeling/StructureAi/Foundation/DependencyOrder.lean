import Mathlib

/-! # Dependency orders

A list of nodes in which each comes once, and after all that it depends on. What is reached from its nodes is in it,
and no node of it depends on itself.
-/
namespace StructureAi.Foundation
variable {α : Type*} {edge : α → α → Prop} {nodes : List α} {x y : α}

inductive DependencyOrder (edge : α → α → Prop) : List α → Prop
  | nil : DependencyOrder edge []
  | concat {nodes : List α} {x : α} (h : DependencyOrder edge nodes) (hnew : x ∉ nodes) (hedges : ∀ y, edge x y → y ∈ nodes) :
      DependencyOrder edge (nodes ++ [x])

namespace DependencyOrder

theorem nodup (h : DependencyOrder edge nodes) : nodes.Nodup := by
  induction h with
  | nil => exact List.nodup_nil
  | concat h hnew hedges ih => simpa using ih.concat hnew

theorem closed (h : DependencyOrder edge nodes) (hx : x ∈ nodes) (hedge : edge x y) : y ∈ nodes := by
  induction h with
  | nil => cases hx
  | concat h hnew hedges ih =>
    obtain hx | hx := List.mem_append.mp hx
    · exact List.mem_append_left _ (ih hx)
    · obtain rfl := List.mem_singleton.mp hx
      exact List.mem_append_left _ (hedges y hedge)

theorem closed_reach (h : DependencyOrder edge nodes) (hx : x ∈ nodes) (hreach : Relation.ReflTransGen edge x y) :
    y ∈ nodes := by
  induction hreach with
  | refl => exact hx
  | tail _ hedge ih => exact h.closed ih hedge

theorem acyclic (h : DependencyOrder edge nodes) (hx : x ∈ nodes) : ¬ Relation.TransGen edge x x := by
  induction h with
  | nil => cases hx
  | @concat nodes last h hnew hedges ih =>
    obtain hx | hx := List.mem_append.mp hx
    · exact ih hx
    · obtain rfl := List.mem_singleton.mp hx
      intro hcycle
      -- the first step leads into the earlier nodes, and nothing leads out of them
      obtain ⟨y,hedge,hback⟩ := Relation.TransGen.head'_iff.mp hcycle
      exact hnew (h.closed_reach (hedges y hedge) hback)

theorem mem_before (h : DependencyOrder edge nodes) {before after : List α} (hsplit : nodes = before ++ x :: after)
    (hedge : edge x y) :
    y ∈ before := by
  induction h generalizing after with
  | nil => cases List.append_ne_nil_of_right_ne_nil before (List.cons_ne_nil x after) hsplit.symm
  | concat h hnew hedges ih =>
    obtain rfl | ⟨after,last,rfl⟩ := after.eq_nil_or_concat
    · obtain ⟨rfl,hlast⟩ := List.append_inj' hsplit rfl
      obtain rfl := (List.cons.inj hlast).1
      exact hedges y hedge
    · rw [List.concat_eq_append,← List.cons_append,← List.append_assoc] at hsplit
      exact ih (List.append_inj' hsplit rfl).1

end DependencyOrder

end StructureAi.Foundation

import Mathlib

/-! # Fibers

Concurrent activities by number, at most one to a number. A step of one of them
writes its entry; what holds of all entries, or of every two, is re-established
by looking at the written one.
-/
namespace StructureAi.Foundation

abbrev Fibers (F : Type*) := ℕ → Option F

namespace Fibers
variable {F : Type*} {fs : Fibers F} {i j : ℕ} {f g : F}

def empty : Fibers F := fun _ => none

def set (fs : Fibers F) (i : ℕ) (f : F) : Fibers F := Function.update fs i (some f)

def remove (fs : Fibers F) (i : ℕ) : Fibers F := Function.update fs i none

@[simp] theorem set_self (fs : Fibers F) (i : ℕ) (f : F) : fs.set i f i = some f :=
  Function.update_self ..

theorem set_of_ne (fs : Fibers F) (f : F) (h : j ≠ i) : fs.set i f j = fs j :=
  Function.update_of_ne h ..

theorem remove_of_ne (fs : Fibers F) (h : j ≠ i) : fs.remove i j = fs j :=
  Function.update_of_ne h ..

theorem remove_cases (h : fs.remove i j = some g) : j ≠ i ∧ fs j = some g := by
  by_cases hn : j = i
  · rw [hn,remove,Function.update_self] at h
    cases h
  · rw [remove_of_ne fs hn] at h
    exact ⟨hn,h⟩

theorem set_cases (h : fs.set i f j = some g) : (j = i ∧ g = f) ∨ (j ≠ i ∧ fs j = some g) := by
  by_cases hn : j = i
  · rw [hn,set_self] at h
    exact Or.inl ⟨hn,(Option.some.inj h).symm⟩
  · rw [set_of_ne fs f hn] at h
    exact Or.inr ⟨hn,h⟩

def All (P : F → Prop) (fs : Fibers F) : Prop := ∀ i f, fs i = some f → P f

theorem all_empty (P : F → Prop) : All P empty := by
  intro i f h
  cases h

theorem All.set {P : F → Prop} (h : All P fs) (hf : P f) : All P (fs.set i f) := by
  intro j g hg
  rcases set_cases hg with ⟨-,rfl⟩ | ⟨-,hg⟩
  · exact hf
  · exact h j g hg

theorem All.remove {P : F → Prop} (h : All P fs) : All P (fs.remove i) := by
  intro j g hg
  exact h j g (remove_cases hg).2

theorem All.imp {P Q : F → Prop} (h : All P fs) (hpq : ∀ f, P f → Q f) : All Q fs :=
  fun j g hg => hpq g (h j g hg)

/-- Every two entries under different numbers are related. -/
def Pairwise (R : F → F → Prop) (fs : Fibers F) : Prop :=
  ∀ i j f g, i ≠ j → fs i = some f → fs j = some g → R f g

theorem pairwise_empty (R : F → F → Prop) : Pairwise R empty := by
  intro i j f g _ h
  cases h

theorem Pairwise.set {R : F → F → Prop} (h : Pairwise R fs) (hR : ∀ f g, R f g → R g f)
    (hf : ∀ j g, j ≠ i → fs j = some g → R f g) : Pairwise R (fs.set i f) := by
  intro j k g g' hne hg hg'
  rcases set_cases hg with ⟨rfl,rfl⟩ | ⟨hj,hold⟩
  · rcases set_cases hg' with ⟨rfl,-⟩ | ⟨hk,hold'⟩
    · exact absurd rfl hne
    · exact hf k g' hk hold'
  · rcases set_cases hg' with ⟨rfl,rfl⟩ | ⟨-,hold'⟩
    · exact hR g' g (hf j g hj hold)
    · exact h j k g g' hne hold hold'

theorem Pairwise.remove {R : F → F → Prop} (h : Pairwise R fs) : Pairwise R (fs.remove i) := by
  intro j k g g' hne hg hg'
  exact h j k g g' hne (remove_cases hg).2 (remove_cases hg').2

section Map
variable {G : Type*}

/-- The same fibers, each seen through a function. -/
def map (k : F → G) (fs : Fibers F) : Fibers G := fun i => (fs i).map k

theorem map_set (k : F → G) (fs : Fibers F) (i : ℕ) (f : F) : (fs.set i f).map k = (fs.map k).set i (k f) := by
  funext j
  by_cases hn : j = i
  · subst hn
    rw [map,set_self,set_self]
    rfl
  · rw [map,set_of_ne _ _ hn,set_of_ne _ _ hn]
    rfl

theorem map_remove (k : F → G) (fs : Fibers F) (i : ℕ) : (fs.remove i).map k = (fs.map k).remove i := by
  funext j
  by_cases hn : j = i
  · subst hn
    rw [map,remove,remove,Function.update_self,Function.update_self]
    rfl
  · rw [map,remove_of_ne _ hn,remove_of_ne _ hn]
    rfl

end Map

end Fibers
end StructureAi.Foundation

import Mathlib.Data.List.Basic

/-! # Anchored expressions

Sequences of single characters and of runs of a class, matched against a whole text. A run may end
wherever what follows it matches, so the test backtracks.
-/
namespace StructureAi.Foundation

inductive Atom (α : Type _) where
  | one (a : α)
  /-- A run that is not empty. -/
  | plus (inRun : α → Bool)
  | star (inRun : α → Bool)

namespace Atom
variable {α : Type _} [DecidableEq α]

/-- A run of a class and then what is left to match. -/
def run (inRun : α → Bool) (left : List α → Bool) : List α → Bool
  | [] => left []
  | x :: xs => left (x :: xs) || (inRun x && run inRun left xs)

def matchAll : List (Atom α) → List α → Bool
  | [],text => text.isEmpty
  | one a :: atoms,text =>
    match text with
    | [] => false
    | x :: xs => decide (x = a) && matchAll atoms xs
  | plus inRun :: atoms,text =>
    match text with
    | [] => false
    | x :: xs => inRun x && run inRun (matchAll atoms) xs
  | star inRun :: atoms,text => run inRun (matchAll atoms) text

section Rules
variable {inRun : α → Bool} {left : List α → Bool} {atoms : List (Atom α)} {text : List α}

omit [DecidableEq α] in
theorem run_iff : run inRun left text = true ↔ ∃ before after, text = before ++ after ∧ (∀ x ∈ before, inRun x = true) ∧
    left after = true := by
  induction text with
  | nil =>
    constructor
    · exact fun h => ⟨[],[],rfl,fun _ hx => absurd hx List.not_mem_nil,h⟩
    · rintro ⟨before,after,hsplit,-,hleft⟩
      obtain ⟨-,rfl⟩ := List.append_eq_nil_iff.mp hsplit.symm
      exact hleft
  | cons x xs ih =>
    rw [run,Bool.or_eq_true,Bool.and_eq_true,ih]
    constructor
    · rintro (hleft | ⟨hx,before,after,rfl,hbefore,hleft⟩)
      · exact ⟨[],x :: xs,rfl,fun _ hx => absurd hx List.not_mem_nil,hleft⟩
      · exact ⟨x :: before,after,rfl,List.forall_mem_cons.mpr ⟨hx,hbefore⟩,hleft⟩
    · rintro ⟨before,after,hsplit,hbefore,hleft⟩
      cases before with
      | nil => exact Or.inl (hsplit ▸ hleft)
      | cons y before =>
        obtain ⟨rfl,rfl⟩ := List.cons.inj hsplit
        obtain ⟨hx,hbefore⟩ := List.forall_mem_cons.mp hbefore
        exact Or.inr ⟨hx,before,after,rfl,hbefore,hleft⟩

theorem matchAll_plus : matchAll (plus inRun :: atoms) text = true ↔
    ∃ before after, text = before ++ after ∧ before ≠ [] ∧ (∀ x ∈ before, inRun x = true) ∧ matchAll atoms after = true := by
  cases text with
  | nil =>
    refine ⟨fun h => (nomatch h),?_⟩
    rintro ⟨before,after,hsplit,hne,-⟩
    exact absurd (List.append_eq_nil_iff.mp hsplit.symm).1 hne
  | cons x xs =>
    rw [matchAll,Bool.and_eq_true,run_iff]
    constructor
    · rintro ⟨hx,before,after,rfl,hbefore,hleft⟩
      exact ⟨x :: before,after,rfl,List.cons_ne_nil _ _,List.forall_mem_cons.mpr ⟨hx,hbefore⟩,hleft⟩
    · rintro ⟨before,after,hsplit,hne,hbefore,hleft⟩
      obtain ⟨y,before,rfl⟩ := List.exists_cons_of_ne_nil hne
      obtain ⟨rfl,rfl⟩ := List.cons.inj hsplit
      obtain ⟨hx,hbefore⟩ := List.forall_mem_cons.mp hbefore
      exact ⟨hx,before,after,rfl,hbefore,hleft⟩

theorem matchAll_star (h : ∀ x ∈ text, inRun x = true) : matchAll [star inRun] text = true := by
  rw [matchAll,run_iff]
  exact ⟨text,[],(List.append_nil text).symm,h,rfl⟩

theorem matchAll_word {word : List α} : matchAll (word.map one ++ atoms) text = true ↔
    ∃ after, text = word ++ after ∧ matchAll atoms after = true := by
  induction word generalizing text with
  | nil =>
    constructor
    · exact fun h => ⟨text,rfl,h⟩
    · rintro ⟨after,rfl,h⟩
      exact h
  | cons a word ih =>
    cases text with
    | nil =>
      refine ⟨fun h => (nomatch h),?_⟩
      rintro ⟨after,hsplit,-⟩
      exact nomatch hsplit
    | cons x xs =>
      rw [List.map_cons,List.cons_append,matchAll,Bool.and_eq_true,decide_eq_true_iff,ih]
      constructor
      · rintro ⟨rfl,after,rfl,h⟩
        exact ⟨after,rfl,h⟩
      · rintro ⟨after,hsplit,h⟩
        obtain ⟨rfl,rfl⟩ := List.cons.inj hsplit
        exact ⟨rfl,after,rfl,h⟩

end Rules

end Atom

end StructureAi.Foundation

import Mathlib.Data.List.Basic

/-! # Texts in pieces

Pieces joined by a separator, which none of them has, are told apart again.
-/
namespace StructureAi.Foundation
variable {α : Type _} {sep : α} {piece : List α} {pieces : List (List α)} {p : α → Bool}

theorem not_mem_of_mem_splitOn {α : Type _} [BEq α] [LawfulBEq α] {sep : α} {xs piece : List α} (h : piece ∈ xs.splitOn sep) :
    sep ∉ piece := by
  induction xs generalizing piece with
  | nil =>
    rw [List.splitOn_nil,List.mem_singleton] at h
    rw [h]
    exact List.not_mem_nil
  | cons x xs ih =>
    rw [List.splitOn_cons_eq_if_modifyHead] at h
    split at h
    · rcases List.mem_cons.mp h with rfl | h
      · exact List.not_mem_nil
      · exact ih h
    · rename_i hx
      obtain ⟨first,pieces,hpieces⟩ := List.exists_cons_of_ne_nil (List.splitOn_ne_nil sep xs)
      rw [hpieces,List.modifyHead_cons] at h
      rcases List.mem_cons.mp h with rfl | h
      · intro hin
        rcases List.mem_cons.mp hin with rfl | hin
        · exact hx (beq_self_eq_true _)
        · exact ih (hpieces ▸ List.mem_cons_self) hin
      · exact ih (hpieces ▸ List.mem_cons_of_mem first h)

theorem intercalate_cons (sep : α) (piece : List α) (pieces : List (List α)) :
    List.intercalate [sep] (piece :: pieces) = piece ++ pieces.flatMap fun other => sep :: other := by
  induction pieces generalizing piece with
  | nil => rw [List.intercalate_singleton,List.flatMap_nil,List.append_nil]
  | cons other pieces ih =>
    rw [List.intercalate_cons_cons,ih,List.flatMap_cons,List.append_assoc]
    rfl

theorem mem_intercalate {x : α} (h : x ∈ List.intercalate [sep] pieces) : x = sep ∨ ∃ other ∈ pieces, x ∈ other := by
  cases pieces with
  | nil => exact absurd h List.not_mem_nil
  | cons piece pieces =>
    rw [intercalate_cons,List.mem_append,List.mem_flatMap] at h
    rcases h with hin | ⟨other,hother,hin⟩
    · exact Or.inr ⟨piece,List.mem_cons_self,hin⟩
    · rcases List.mem_cons.mp hin with rfl | hin
      · exact Or.inl rfl
      · exact Or.inr ⟨other,List.mem_cons_of_mem piece hother,hin⟩

theorem splitOnP_pieces (hsep : p sep = true) (hpiece : ∀ x ∈ piece, p x = false)
    (hpieces : ∀ other ∈ pieces, ∀ x ∈ other, p x = false) :
    (piece ++ pieces.flatMap fun other => sep :: other).splitOnP p = piece :: pieces := by
  induction pieces generalizing piece with
  | nil =>
    rw [List.flatMap_nil,List.append_nil]
    exact List.splitOnP_eq_singleton hpiece
  | cons other pieces ih =>
    rw [List.flatMap_cons,List.cons_append,List.splitOnP_append_cons_of_forall_mem hpiece sep hsep,
      ih (hpieces other List.mem_cons_self) fun x hx => hpieces x (List.mem_cons_of_mem other hx)]

theorem takeWhile_stop {before after : List α} (hbefore : ∀ c ∈ before, p c = true) (hafter : ∀ c ∈ after.head?, p c = false) :
    (before ++ after).takeWhile p = before ∧ (before ++ after).dropWhile p = after := by
  induction before with
  | nil =>
    cases after with
    | nil => exact ⟨rfl,rfl⟩
    | cons c after =>
      have hc : ¬ p c = true := by rw [hafter c rfl]; decide
      exact ⟨List.takeWhile_cons_of_neg hc,List.dropWhile_cons_of_neg hc⟩
  | cons c before ih =>
    have hc := hbefore c List.mem_cons_self
    obtain ⟨htake,hdrop⟩ := ih fun d hd => hbefore d (List.mem_cons_of_mem c hd)
    rw [List.cons_append,List.takeWhile_cons_of_pos hc,List.dropWhile_cons_of_pos hc,htake,hdrop]
    exact ⟨rfl,rfl⟩

end StructureAi.Foundation

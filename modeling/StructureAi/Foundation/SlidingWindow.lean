import Mathlib

/-! # Sliding windows

The times of a log that lie in the window ending at an instant. A log whose every time finds
room in the window that ends with it stays within its budget in every interval of that length.
-/
namespace StructureAi.Foundation
section Window
variable {T : Type*} [Sub T] [LinearOrder T] {window now : T}

/-- The times after the start of the window that ends now. -/
def recent (window now : T) (times : List T) : List T := times.filter fun t => now - window < t

@[simp]
theorem recent_append (times times' : List T) : recent window now (times ++ times') =
    recent window now times ++ recent window now times' := List.filter_append times times'

theorem recent_reverse (times : List T) : recent window now times.reverse = (recent window now times).reverse :=
  List.filter_reverse

theorem recent_eq_nil {times : List T} (h : ∀ t ∈ times, t ≤ now - window) : recent window now times = [] := by
  rw [recent,List.filter_eq_nil_iff]
  intro t ht
  rw [decide_eq_true_eq]
  exact not_lt.mpr (h t ht)

/-- No time finds room in the window that ends with it among those before it unless fewer than `n` are there. -/
def Budgeted (window : T) (n : ℕ) : List T → Prop
  | [] => True
  | t :: earlier => (recent window t earlier).length < n ∧ Budgeted window n earlier

end Window

variable {T : Type*} [AddCommGroup T] [LinearOrder T] {window now later : T} {times : List T}

/-- Times that are closer to each other than the window are at most as many as the budget. -/
theorem Budgeted.countP_le {n : ℕ} (h : Budgeted window n times) (P : T → Bool)
    (hclose : ∀ s t, P s = true → P t = true → t - window < s) : times.countP P ≤ n := by
  induction times with
  | nil => exact Nat.zero_le n
  | cons t earlier ih =>
    obtain ⟨hroom,hrest⟩ := h
    by_cases ht : P t = true
    · have hrecent : earlier.countP P ≤ (recent window t earlier).length := by
        rw [recent,← List.countP_eq_length_filter]
        apply List.countP_mono_left
        intro s _ hs
        exact decide_eq_true (hclose s t hs ht)
      rw [List.countP_cons_of_pos ht]
      omega
    · rw [List.countP_cons_of_neg ht]
      exact ih hrest

variable [IsOrderedAddMonoid T]

theorem recent_recent (h : now ≤ later) (times : List T) :
    recent window later (recent window now times) = recent window later times := by
  rw [recent,recent,List.filter_filter]
  apply List.filter_congr
  intro t _
  rw [Bool.and_eq_left_iff_imp,decide_eq_true_eq,decide_eq_true_eq]
  exact lt_of_le_of_lt (sub_le_sub_right h window)

theorem recent_of_recent_eq {times' : List T} (h : now ≤ later) (hsame : recent window now times = recent window now times') :
    recent window later times = recent window later times' := by
  rw [← recent_recent h times,hsame,recent_recent h times']

theorem Budgeted.countP_interval_le {n : ℕ} (h : Budgeted window n times) (a : T) :
    times.countP (fun t => a < t ∧ t ≤ a + window) ≤ n ∧ times.countP (fun t => a ≤ t ∧ t < a + window) ≤ n := by
  constructor
  · apply h.countP_le
    intro s t hs ht
    obtain ⟨hs,-⟩ := of_decide_eq_true hs
    obtain ⟨-,ht⟩ := of_decide_eq_true ht
    exact lt_of_le_of_lt (sub_le_iff_le_add.mpr ht) hs
  · apply h.countP_le
    intro s t hs ht
    obtain ⟨hs,-⟩ := of_decide_eq_true hs
    obtain ⟨-,ht⟩ := of_decide_eq_true ht
    exact lt_of_lt_of_le (sub_lt_iff_lt_add.mpr ht) hs

end StructureAi.Foundation

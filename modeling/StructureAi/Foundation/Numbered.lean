import Mathlib

/-! # Lists numbered without gaps

`NumberedFrom f n xs` says that `f` takes the values `n + 1`, `n + 2`, … along
`xs`. Such a list is strictly increasing in `f`, its last value is its length
beyond `n`, and an element is determined by its number.
-/
namespace StructureAi.Foundation
variable {α β : Type*} {f : α → ℤ}

def NumberedFrom (f : α → ℤ) : ℤ → List α → Prop
  | _,[] => True
  | n,x :: xs => f x = n + 1 ∧ NumberedFrom f (n + 1) xs

abbrev Numbered (f : α → ℤ) (xs : List α) : Prop := NumberedFrom f 0 xs

namespace NumberedFrom

theorem append_iff {n : ℤ} {xs ys : List α} :
    NumberedFrom f n (xs ++ ys) ↔ NumberedFrom f n xs ∧ NumberedFrom f (n + xs.length) ys := by
  induction xs generalizing n with
  | nil => simp [NumberedFrom]
  | cons x xs ih =>
    have hlen : n + 1 + (xs.length : ℤ) = n + ((x :: xs).length : ℤ) := by
      rw [List.length_cons]
      push_cast
      ring
    simp only [List.cons_append,NumberedFrom,ih,hlen,and_assoc]

theorem append {n : ℤ} {xs ys : List α} (hx : NumberedFrom f n xs)
    (hy : NumberedFrom f (n + xs.length) ys) : NumberedFrom f n (xs ++ ys) :=
  append_iff.mpr ⟨hx,hy⟩

theorem map {g : β → ℤ} {h : α → β} (hg : ∀ x, g (h x) = f x) {n : ℤ} {xs : List α}
    (hx : NumberedFrom f n xs) : NumberedFrom g n (xs.map h) := by
  induction xs generalizing n with
  | nil => trivial
  | cons x xs ih => exact ⟨(hg x).trans hx.1,ih hx.2⟩

theorem getElem {n : ℤ} {xs : List α} (hx : NumberedFrom f n xs) (i : ℕ) (hi : i < xs.length) :
    f xs[i] = n + i + 1 := by
  induction xs generalizing n i with
  | nil => simp at hi
  | cons x xs ih =>
    cases i with
    | zero => simpa using hx.1
    | succ i =>
      have hi' : i < xs.length := by simpa using hi
      rw [List.getElem_cons_succ,ih hx.2 i hi']
      push_cast
      ring

theorem bounds {n : ℤ} {xs : List α} (hx : NumberedFrom f n xs) {x : α} (h : x ∈ xs) :
    n < f x ∧ f x ≤ n + xs.length := by
  obtain ⟨i,hi,rfl⟩ := List.mem_iff_getElem.mp h
  rw [hx.getElem i hi]
  omega

theorem pairwise {n : ℤ} {xs : List α} (hx : NumberedFrom f n xs) :
    xs.Pairwise fun a b => f a < f b := by
  induction xs generalizing n with
  | nil => exact List.Pairwise.nil
  | cons x xs ih =>
    refine List.Pairwise.cons ?_ (ih hx.2)
    intro y hy
    rw [hx.1]
    exact (hx.2.bounds hy).1

theorem eq_of_number {n : ℤ} {xs : List α} (hx : NumberedFrom f n xs) {a b : α} (ha : a ∈ xs)
    (hb : b ∈ xs) (h : f a = f b) : a = b := by
  obtain ⟨i,hi,rfl⟩ := List.mem_iff_getElem.mp ha
  obtain ⟨j,hj,rfl⟩ := List.mem_iff_getElem.mp hb
  rw [hx.getElem i hi,hx.getElem j hj] at h
  obtain rfl : i = j := by omega
  rfl

theorem exists_number {n : ℤ} {xs : List α} (hx : NumberedFrom f n xs) {k : ℤ} (hlo : n < k)
    (hhi : k ≤ n + xs.length) : ∃ x ∈ xs, f x = k := by
  have hi : (k - n - 1).toNat < xs.length := by omega
  refine ⟨xs[(k - n - 1).toNat],List.getElem_mem hi,?_⟩
  rw [hx.getElem _ hi]
  omega

theorem take {n : ℤ} {xs : List α} (hx : NumberedFrom f n xs) (k : ℕ) :
    NumberedFrom f n (xs.take k) := by
  rw [← List.take_append_drop k xs] at hx
  exact (append_iff.mp hx).1

theorem filter_gt {n k : ℤ} {xs : List α} (hx : NumberedFrom f n xs) (hk : n ≤ k) :
    NumberedFrom f k (xs.filter fun x => k + 1 ≤ f x) := by
  induction xs generalizing n with
  | nil => trivial
  | cons x xs ih =>
    obtain ⟨hf,hxs⟩ := hx
    by_cases hn : n = k
    · subst hn
      rw [List.filter_cons_of_pos (by rw [hf]; simp)]
      refine ⟨hf,?_⟩
      have hall : xs.filter (fun x => n + 1 ≤ f x) = xs := by
        rw [List.filter_eq_self]
        intro y hy
        have := (hxs.bounds hy).1
        exact decide_eq_true (by omega)
      rwa [hall]
    · rw [List.filter_cons_of_neg (by rw [hf,decide_eq_true_eq]; omega)]
      exact ih hxs (by omega)

theorem filter_ge_eq_drop {n : ℤ} {xs : List α} (hx : NumberedFrom f n xs) {k : ℕ} (hk : k ≤ xs.length) :
    (xs.filter fun x => n + k + 1 ≤ f x) = xs.drop k := by
  have hsplit := hx
  rw [← List.take_append_drop k xs,append_iff,List.length_take_of_le hk] at hsplit
  have hlow : (xs.take k).filter (fun x => n + k + 1 ≤ f x) = [] := by
    rw [List.filter_eq_nil_iff]
    intro x hm
    have hb := (hsplit.1.bounds hm).2
    rw [List.length_take_of_le hk] at hb
    rw [decide_eq_true_eq]
    omega
  have hhigh : (xs.drop k).filter (fun x => n + k + 1 ≤ f x) = xs.drop k := by
    rw [List.filter_eq_self]
    intro x hm
    have hb := (hsplit.2.bounds hm).1
    exact decide_eq_true (by omega)
  conv_lhs => rw [← List.take_append_drop k xs]
  rw [List.filter_append,hlow,hhigh,List.nil_append]

theorem last {n : ℤ} {xs : List α} (hx : NumberedFrom f n xs) :
    (xs.getLast?.map f).getD n = n + xs.length := by
  induction xs generalizing n with
  | nil => simp
  | cons x xs ih =>
    have hi := ih hx.2
    cases xs with
    | nil => simpa using hx.1
    | cons y ys =>
      rw [List.getLast?_cons_cons,List.length_cons]
      rw [List.getLast?_cons] at hi ⊢
      simp only [Option.map_some,Option.getD_some] at hi ⊢
      rw [hi]
      push_cast
      ring

theorem foldl_max {n : ℤ} {xs : List α} (hx : NumberedFrom f n xs) :
    xs.foldl (fun m x => max m (f x)) n = n + xs.length := by
  induction xs generalizing n with
  | nil => simp
  | cons x xs ih =>
    have hm : max n (f x) = n + 1 := by rw [hx.1]; omega
    rw [List.foldl_cons,hm,ih hx.2,List.length_cons]
    push_cast
    ring

end NumberedFrom
end StructureAi.Foundation

import Mathlib

/-! # Folds under redelivery

A consumer folds a growing list from a saved place on and may be thrown back to it.
If handling a stretch again changes nothing, the accumulated value is always one
from which the fold of the rest catches up with the fold of the whole list.
-/
namespace StructureAi.Foundation
variable {α M : Type*}

/-- The elements from index `i` up to index `j`. -/
def stretch (xs : List α) (i j : ℕ) : List α := (xs.take j).drop i

section Stretch
variable {xs : List α} {i j k : ℕ}

@[simp] theorem stretch_self : stretch xs i i = [] :=
  List.drop_eq_nil_of_le (List.length_take_le i xs)

theorem stretch_zero : stretch xs 0 j = xs.take j := rfl

theorem stretch_append (hij : i ≤ j) (hjk : j ≤ k) (hk : k ≤ xs.length) :
    stretch xs i j ++ stretch xs j k = stretch xs i k := by
  have hsplit : xs.take k = xs.take j ++ (xs.take k).drop j := by
    have htake : (xs.take k).take j = xs.take j := by
      rw [List.take_take,min_eq_left hjk]
    rw [← htake,List.take_append_drop]
  have hlen : i ≤ (xs.take j).length := by
    rw [List.length_take]
    omega
  unfold stretch
  conv_rhs => rw [hsplit]
  rw [List.drop_append_of_le_length hlen]

theorem stretch_succ {x : α} (hx : xs[i]? = some x) : stretch xs i (i + 1) = [x] := by
  have hi := (List.getElem?_eq_some_iff.mp hx).1
  have hlen : (xs.take i).length = i := List.length_take_of_le hi.le
  unfold stretch
  rw [List.take_add_one,hx,Option.toList_some,List.drop_left' hlen]

theorem stretch_grow {ys : List α} (hj : j ≤ xs.length) : stretch (xs ++ ys) i j = stretch xs i j := by
  unfold stretch
  rw [List.take_append_of_le_length hj]

end Stretch

/-- Handling a stretch of the lists in question again changes nothing. -/
def Idempotent (P : List α → Prop) (f : M → α → M) : Prop :=
  ∀ xs, P xs → ∀ m, xs.foldl f (xs.foldl f m) = xs.foldl f m

theorem idempotent_of_ignores {P : List α → Prop} {f : M → α → M}
    (h : ∀ xs, P xs → ∀ m, ∀ x ∈ xs, f (xs.foldl f m) x = xs.foldl f m) : Idempotent P f := by
  intro xs hxs m
  have hall : ∀ ys : List α, (∀ y ∈ ys, y ∈ xs) → ys.foldl f (xs.foldl f m) = xs.foldl f m := by
    intro ys
    induction ys with
    | nil => intro _; rfl
    | cons y ys ih =>
      intro hys
      rw [List.foldl_cons,h xs hxs m y (hys y List.mem_cons_self)]
      exact ih fun z hz => hys z (List.mem_cons_of_mem _ hz)
  exact hall xs fun y hy => hy

/-- The value `m` after the elements from `saved` up to `place` were handled, and some of those
beyond `saved` perhaps before. -/
def Delivered (f : M → α → M) (xs : List α) (init : M) (saved place : ℕ) (m : M) : Prop :=
  saved ≤ place ∧ place ≤ xs.length ∧ ∃ start reached, saved ≤ reached ∧ reached ≤ xs.length ∧
    (stretch xs saved reached).foldl f start = (xs.take reached).foldl f init ∧
    m = (stretch xs saved place).foldl f start

namespace Delivered
variable {f : M → α → M} {xs : List α} {init m : M} {saved place : ℕ}

theorem start (xs : List α) : Delivered f xs init 0 0 init := by
  refine ⟨le_rfl,Nat.zero_le _,init,0,le_rfl,Nat.zero_le _,?_,?_⟩ <;> simp

theorem foldl_stretch (i j k : ℕ) (hij : i ≤ j) (hjk : j ≤ k) (hk : k ≤ xs.length) (m : M) :
    (stretch xs j k).foldl f ((stretch xs i j).foldl f m) = (stretch xs i k).foldl f m := by
  rw [← stretch_append hij hjk hk,List.foldl_append]

theorem next (h : Delivered f xs init saved place m) {x : α} (hx : xs[place]? = some x) :
    Delivered f xs init saved (place + 1) (f m x) := by
  obtain ⟨hle,-,start,reached,hsr,hr,hstart,rfl⟩ := h
  have hplace := (List.getElem?_eq_some_iff.mp hx).1
  refine ⟨hle.trans (Nat.le_succ _),hplace,start,reached,hsr,hr,hstart,?_⟩
  rw [← stretch_append hle (Nat.le_succ place) hplace,List.foldl_append,stretch_succ hx]
  rfl

theorem eq_fold_of_ge {start : M} {reached : ℕ} (hsr : saved ≤ reached) (hrp : reached ≤ place)
    (hp : place ≤ xs.length)
    (hstart : (stretch xs saved reached).foldl f start = (xs.take reached).foldl f init) :
    (stretch xs saved place).foldl f start = (xs.take place).foldl f init := by
  rw [← foldl_stretch saved reached place hsr hrp hp,hstart,← stretch_zero,
    foldl_stretch 0 reached place (Nat.zero_le _) hrp hp]
  rfl

theorem of_catches_up {reached : ℕ} (hsr : saved ≤ reached) (hr : reached ≤ xs.length)
    (h : (stretch xs saved reached).foldl f m = (xs.take reached).foldl f init) :
    Delivered f xs init saved saved m := by
  refine ⟨le_rfl,hsr.trans hr,m,reached,hsr,hr,h,?_⟩
  rw [stretch_self]
  rfl

theorem save (h : Delivered f xs init saved place m) : Delivered f xs init place place m := by
  obtain ⟨hle,hp,start,reached,hsr,hr,hstart,rfl⟩ := h
  rcases le_total place reached with hpr | hrp
  · apply of_catches_up hpr hr
    rw [foldl_stretch saved place reached hle hpr hr]
    exact hstart
  · apply of_catches_up le_rfl hp
    rw [stretch_self]
    exact eq_fold_of_ge hsr hrp hp hstart

theorem retry {P : List α → Prop} (hf : Idempotent P f) (hP : ∀ i j, j ≤ xs.length → P (stretch xs i j))
    (h : Delivered f xs init saved place m) : Delivered f xs init saved saved m := by
  obtain ⟨hle,hp,start,reached,hsr,hr,hstart,rfl⟩ := h
  have htwice := hf _ (hP saved place hp)
  rcases le_total place reached with hpr | hrp
  · apply of_catches_up hsr hr
    rw [← hstart,← foldl_stretch saved place reached hle hpr hr,htwice,
      foldl_stretch saved place reached hle hpr hr]
  · apply of_catches_up hle hp
    rw [htwice]
    exact eq_fold_of_ge hsr hrp hp hstart

theorem grow (h : Delivered f xs init saved place m) (ys : List α) :
    Delivered f (xs ++ ys) init saved place m := by
  obtain ⟨hle,hp,start,reached,hsr,hr,hstart,rfl⟩ := h
  have hlen : xs.length ≤ (xs ++ ys).length := by
    rw [List.length_append]
    omega
  refine ⟨hle,hp.trans hlen,start,reached,hsr,hr.trans hlen,?_,?_⟩
  · rw [stretch_grow hr,List.take_append_of_le_length hr]
    exact hstart
  · rw [stretch_grow hp]

theorem done (h : Delivered f xs init saved place m) (hall : saved = xs.length) : m = xs.foldl f init := by
  obtain ⟨hle,hp,start,reached,hsr,hr,hstart,rfl⟩ := h
  obtain rfl : place = saved := by omega
  obtain rfl : reached = place := by omega
  rw [stretch_self] at hstart ⊢
  rw [hall,List.take_length] at hstart
  exact hstart

end Delivered
end StructureAi.Foundation

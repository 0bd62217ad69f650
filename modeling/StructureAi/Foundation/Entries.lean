import Mathlib

/-! # Entries of a map

A map keeps its entries in insertion order; setting a key that is there keeps its
place. `lookup` reads the entries, each key at most once.
-/
namespace StructureAi.Foundation
variable {κ ν : Type*} [DecidableEq κ] {k k' : κ} {v : ν} {es : List (κ × ν)}

/-- `map.set(k, v)`. -/
def put (k : κ) (v : ν) : List (κ × ν) → List (κ × ν)
  | [] => [(k,v)]
  | e :: es => if e.1 = k then (k,v) :: es else e :: put k v es

theorem lookup_cons (e : κ × ν) : (e :: es).lookup k = if k = e.1 then some e.2 else es.lookup k := by
  obtain ⟨k₁,v₁⟩ := e
  rw [List.lookup_cons]
  by_cases h : k = k₁
  · simp [h]
  · rw [if_neg h,beq_eq_false_iff_ne.mpr h]

theorem lookup_put (k : κ) (v : ν) (es : List (κ × ν)) (k' : κ) :
    (put k v es).lookup k' = if k' = k then some v else es.lookup k' := by
  induction es with
  | nil => rw [put,lookup_cons]
  | cons e es ih =>
    rw [put]
    by_cases he : e.1 = k
    · rw [if_pos he,lookup_cons,lookup_cons,he]
      split
      · rfl
      · rfl
    · rw [if_neg he,lookup_cons,lookup_cons,ih]
      by_cases hk : k' = k
      · subst hk
        rw [if_neg (Ne.symm he),if_pos rfl,if_pos rfl]
      · rw [if_neg hk,if_neg hk]

theorem lookup_put_self : (put k v es).lookup k = some v := by
  rw [lookup_put,if_pos rfl]

theorem lookup_put_of_ne (h : k' ≠ k) : (put k v es).lookup k' = es.lookup k' := by
  rw [lookup_put,if_neg h]

theorem lookup_isSome : (es.lookup k).isSome = true ↔ k ∈ es.map Prod.fst := by
  induction es with
  | nil => simp
  | cons e es ih =>
    rw [lookup_cons,List.map_cons,List.mem_cons]
    split
    · rename_i h
      simp [h]
    · rename_i h
      rw [ih]
      simp [h]

theorem lookup_eq_none : es.lookup k = none ↔ k ∉ es.map Prod.fst := by
  rw [← lookup_isSome,Bool.not_eq_true,Option.isSome_eq_false_iff,Option.isNone_iff_eq_none]

theorem mem_of_lookup (h : es.lookup k = some v) : (k,v) ∈ es := by
  obtain ⟨before,after,he,-⟩ := List.lookup_eq_some_iff.mp h
  rw [he]
  exact List.mem_append_right before List.mem_cons_self

theorem lookup_eq_some_iff (hn : (es.map Prod.fst).Nodup) : es.lookup k = some v ↔ (k,v) ∈ es := by
  constructor
  · exact mem_of_lookup
  · intro h
    induction es with
    | nil => cases h
    | cons e es ih =>
      obtain ⟨hout,hn⟩ := List.nodup_cons.mp hn
      rw [lookup_cons]
      rcases List.mem_cons.mp h with rfl | h
      · exact if_pos rfl
      · rw [if_neg,ih hn h]
        intro he
        exact hout (List.mem_map.mpr ⟨_,h,he⟩)

theorem lookup_map (f : κ → ν) (ks : List κ) (k : κ) :
    (ks.map fun k => (k,f k)).lookup k = if k ∈ ks then some (f k) else none := by
  induction ks with
  | nil => simp
  | cons k' ks ih =>
    rw [List.map_cons,lookup_cons,ih]
    by_cases hk : k = k'
    · subst hk
      simp
    · simp [hk]

theorem mem_keys_put : k' ∈ (put k v es).map Prod.fst ↔ k' = k ∨ k' ∈ es.map Prod.fst := by
  rw [← lookup_isSome,lookup_put,← lookup_isSome]
  split
  · rename_i h
    simp [h]
  · rename_i h
    simp [h]

theorem nodup_put (hn : (es.map Prod.fst).Nodup) : ((put k v es).map Prod.fst).Nodup := by
  induction es with
  | nil => exact List.nodup_singleton k
  | cons e es ih =>
    obtain ⟨hout,hrest⟩ := List.nodup_cons.mp hn
    rw [put]
    by_cases he : e.1 = k
    · rw [if_pos he,List.map_cons,← he]
      exact hn
    · rw [if_neg he,List.map_cons,List.nodup_cons,mem_keys_put]
      exact ⟨fun hin => hin.elim he hout,ih hrest⟩

theorem length_put_of_lookup (h : es.lookup k = none) : (put k v es).length = es.length + 1 := by
  induction es with
  | nil => rfl
  | cons e es ih =>
    rw [lookup_cons] at h
    split at h
    · cases h
    · rename_i hne
      rw [put,if_neg (Ne.symm hne),List.length_cons,ih h,List.length_cons]

theorem length_le_put : es.length ≤ (put k v es).length := by
  induction es with
  | nil => exact Nat.zero_le _
  | cons e es ih =>
    rw [put]
    split
    · exact le_rfl
    · exact Nat.succ_le_succ ih

end StructureAi.Foundation

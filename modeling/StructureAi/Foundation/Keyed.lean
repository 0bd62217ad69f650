import StructureAi.Foundation.Table

/-! # Keyed tables

A table with a primary key, read by its keys: what an update, a deletion and an
insertion leave under each of them.
-/
namespace StructureAi.Foundation
variable {α κ : Type*} {key : α → κ} {rows : List α} {k : κ} {r : α}

theorem map_key_updateWhere {p : α → Bool} {g : α → α} (hg : ∀ r, key (g r) = key r) :
    (updateWhere p g rows).map key = rows.map key := by
  rw [updateWhere,List.map_map]
  apply List.map_congr_left
  intro r _
  simp only [Function.comp_apply]
  split
  · exact hg r
  · rfl

theorem nodup_deleteWhere {p : α → Bool} (hn : (rows.map key).Nodup) : ((deleteWhere p rows).map key).Nodup :=
  hn.sublist (List.filter_sublist.map key)

theorem nodup_insert (hn : (rows.map key).Nodup) (hr : ∀ r' ∈ rows, key r' ≠ key r) :
    ((rows ++ [r]).map key).Nodup := by
  rw [List.map_append,List.map_singleton]
  apply List.Nodup.append hn (List.nodup_singleton _)
  intro k hk hk'
  obtain ⟨r',hr',rfl⟩ := List.mem_map.mp hk
  exact hr r' hr' (List.mem_singleton.mp hk')

variable [DecidableEq κ]

theorem find?_key (h : rows.find? (fun r => key r = k) = some r) : r ∈ rows ∧ key r = k :=
  ⟨List.mem_of_find?_eq_some h,by simpa using List.find?_some h⟩

theorem find?_key_iff (hn : (rows.map key).Nodup) :
    rows.find? (fun r => key r = k) = some r ↔ r ∈ rows ∧ key r = k := by
  constructor
  · exact find?_key
  · rintro ⟨hr,hk⟩
    have hsome : (rows.find? fun r => key r = k).isSome = true :=
      List.find?_isSome.mpr ⟨r,hr,decide_eq_true hk⟩
    obtain ⟨r',hr'⟩ := Option.isSome_iff_exists.mp hsome
    obtain ⟨hmem,hk'⟩ := find?_key hr'
    rw [hr',List.inj_on_of_nodup_map hn hmem hr (hk'.trans hk.symm)]

theorem find?_key_isSome : (rows.find? fun r => key r = k).isSome = true ↔ ∃ r ∈ rows, key r = k := by
  simp only [List.find?_isSome,decide_eq_true_eq]

theorem find?_updateWhere_key {p : α → Bool} {g : α → α} (hg : ∀ r, key (g r) = key r) :
    (updateWhere p g rows).find? (fun r => key r = k) =
      (rows.find? fun r => key r = k).map fun r => if p r then g r else r := by
  rw [updateWhere,List.find?_map]
  congr 1
  apply List.find?_congr
  intro r _
  simp only [Function.comp_apply]
  split
  · rw [hg]
  · rfl

theorem find?_deleteWhere_key {p : α → Bool} (hn : (rows.map key).Nodup) :
    (deleteWhere p rows).find? (fun r => key r = k) = (rows.find? fun r => key r = k).filter fun r => !p r := by
  have hsub : ((deleteWhere p rows).map key).Nodup := hn.sublist (List.filter_sublist.map key)
  ext r
  rw [Option.filter_eq_some_iff]
  rw [find?_key_iff hsub,find?_key_iff hn,deleteWhere,List.mem_filter]
  exact and_right_comm

theorem find?_insert : (rows ++ [r]).find? (fun r => key r = k) =
    (rows.find? fun r => key r = k).or (if key r = k then some r else none) := by
  rw [List.find?_append,List.find?_singleton]
  simp only [decide_eq_true_eq]

theorem mem_updateWhere {p : α → Bool} {g : α → α} : r ∈ updateWhere p g rows ↔ ∃ r' ∈ rows, (if p r' then g r' else r') = r :=
  List.mem_map

theorem nodup_upsert (hn : (rows.map key).Nodup) : ((upsert key r rows).map key).Nodup := by
  unfold upsert
  split
  · have hkeys : (updateWhere (fun r' => key r' = key r) (fun _ => r) rows).map key = rows.map key := by
      rw [updateWhere,List.map_map]
      apply List.map_congr_left
      intro r' _
      simp only [Function.comp_apply,decide_eq_true_eq]
      split
      · rename_i h
        exact h.symm
      · rfl
    rw [hkeys]
    exact hn
  · rename_i h
    apply nodup_insert hn
    intro r' hr' hk
    exact h (List.any_eq_true.mpr ⟨r',hr',decide_eq_true hk⟩)

/-- A map whose values know their keys, in insertion order. -/
structure Records {α κ : Type*} (key : α → κ) where
  rows : List α
  distinct : (rows.map key).Nodup

namespace Records
variable {t : Records key}

def empty : Records key := ⟨[],List.nodup_nil⟩

/-- `map.get(k)`. -/
def get (t : Records key) (k : κ) : Option α := t.rows.find? fun r => key r = k

/-- `map.set(key(r), r)`. -/
def set (t : Records key) (r : α) : Records key := ⟨upsert key r t.rows,nodup_upsert t.distinct⟩

def modify (t : Records key) (p : α → Bool) (g : α → α) (hg : ∀ r, key (g r) = key r) : Records key :=
  ⟨updateWhere p g t.rows,by
    rw [map_key_updateWhere hg]
    exact t.distinct⟩

def deleteWhere (t : Records key) (p : α → Bool) : Records key :=
  ⟨StructureAi.Foundation.deleteWhere p t.rows,nodup_deleteWhere t.distinct⟩

/-- `map.delete(k)`. -/
def delete (t : Records key) (k : κ) : Records key := t.deleteWhere fun r => key r = k

theorem get_eq_some_iff : t.get k = some r ↔ r ∈ t.rows ∧ key r = k := find?_key_iff t.distinct

theorem get_key (h : r ∈ t.rows) : t.get (key r) = some r := get_eq_some_iff.mpr ⟨h,rfl⟩

omit [DecidableEq κ] in
theorem eq_of_key {r' : α} (h : r ∈ t.rows) (h' : r' ∈ t.rows) (hk : key r = key r') : r = r' :=
  List.inj_on_of_nodup_map t.distinct h h' hk

theorem get_set : (t.set r).get k = if k = key r then some r else t.get k := find?_upsert k

theorem mem_set {r' : α} : r' ∈ (t.set r).rows ↔ r' = r ∨ r' ∈ t.rows ∧ key r' ≠ key r := by
  have hget : r' ∈ (t.set r).rows ↔ (t.set r).get (key r') = some r' :=
    ⟨get_key,fun h => (get_eq_some_iff.mp h).1⟩
  rw [hget,get_set]
  split
  · rename_i hk
    constructor
    · intro h
      exact Or.inl (Option.some.inj h).symm
    · rintro (rfl | ⟨-,hne⟩)
      · rfl
      · exact absurd hk hne
  · rename_i hk
    rw [get_eq_some_iff]
    constructor
    · rintro ⟨h,-⟩
      exact Or.inr ⟨h,hk⟩
    · rintro (rfl | ⟨h,-⟩)
      · exact absurd rfl hk
      · exact ⟨h,rfl⟩

omit [DecidableEq κ] in
theorem mem_modify {p : α → Bool} {g : α → α} {hg : ∀ r, key (g r) = key r} :
    r ∈ (t.modify p g hg).rows ↔ ∃ r' ∈ t.rows, (if p r' then g r' else r') = r := mem_updateWhere

theorem get_deleteWhere {p : α → Bool} : (t.deleteWhere p).get k = (t.get k).filter fun r => !p r :=
  find?_deleteWhere_key t.distinct

theorem get_delete {k' : κ} : (t.delete k').get k = if k = k' then none else t.get k := by
  rw [delete,get_deleteWhere]
  cases hk : t.get k with
  | none => simp
  | some r =>
    obtain ⟨-,rfl⟩ := get_eq_some_iff.mp hk
    simp only [Option.filter_some,Bool.not_eq_true',decide_eq_false_iff_not]
    split <;> simp_all

omit [DecidableEq κ] in
theorem mem_deleteWhere {p : α → Bool} : r ∈ (t.deleteWhere p).rows ↔ r ∈ t.rows ∧ p r = false := by
  simp [deleteWhere,StructureAi.Foundation.deleteWhere]

theorem mem_delete : r ∈ (t.delete k).rows ↔ r ∈ t.rows ∧ key r ≠ k := by
  rw [delete,mem_deleteWhere,decide_eq_false_iff_not]

omit [DecidableEq κ] in
theorem ext_rows {t' : Records key} (h : t.rows = t'.rows) : t = t' := by
  cases t
  cases t'
  cases h
  rfl

section Only
variable {p q : α → Bool} {g : α → α}

def only (t : Records key) (p : α → Bool) : Records key := t.deleteWhere fun r => !p r

omit [DecidableEq κ] in
theorem rows_only : (t.only p).rows = t.rows.filter p := by
  change t.rows.filter (fun r => !!p r) = _
  simp only [Bool.not_not]

theorem get_only (h : ∀ r ∈ t.rows, key r = k → p r = true) : (t.only p).get k = t.get k := by
  rw [only,get_deleteWhere]
  cases hk : t.get k with
  | none => rfl
  | some r =>
    obtain ⟨hr,hkey⟩ := get_eq_some_iff.mp hk
    simp [h r hr hkey]

theorem only_set (hp : p r = true) (h : ∀ r' ∈ t.rows, key r' = key r → p r' = true) :
    (t.set r).only p = (t.only p).set r := by
  apply ext_rows
  rw [rows_only]
  change (upsert key r t.rows).filter p = upsert key r (t.only p).rows
  rw [rows_only]
  have hany : (t.rows.filter p).any (fun r' => key r' = key r) = t.rows.any fun r' => key r' = key r := by
    rw [Bool.eq_iff_iff,List.any_eq_true,List.any_eq_true]
    constructor
    · rintro ⟨r',hr',hk⟩
      exact ⟨r',(List.mem_filter.mp hr').1,hk⟩
    · rintro ⟨r',hr',hk⟩
      exact ⟨r',List.mem_filter.mpr ⟨hr',h r' hr' (of_decide_eq_true hk)⟩,hk⟩
  unfold upsert
  rw [hany]
  split
  · rw [updateWhere,updateWhere,List.filter_map]
    congr 1
    apply List.filter_congr
    intro r' hr'
    by_cases hk : key r' = key r
    · simp [hk,hp,h r' hr' hk]
    · simp [hk]
  · rw [List.filter_append,List.filter_singleton,hp]
    rfl

theorem only_set_of_not (hp : p r = false) (h : ∀ r' ∈ t.rows, key r' = key r → p r' = false) :
    (t.set r).only p = t.only p := by
  apply ext_rows
  rw [rows_only,rows_only]
  change (upsert key r t.rows).filter p = _
  unfold upsert
  split
  · have hsame : ∀ rows : List α, (∀ r' ∈ rows, key r' = key r → p r' = false) →
        (updateWhere (fun r' => key r' = key r) (fun _ => r) rows).filter p = rows.filter p := by
      intro rows hrows
      induction rows with
      | nil => rfl
      | cons r' rows ih =>
        have hrest := ih fun x hx => hrows x (List.mem_cons_of_mem _ hx)
        simp only [updateWhere,decide_eq_true_eq,List.map_cons] at hrest ⊢
        by_cases hk : key r' = key r
        · have hr' := hrows r' List.mem_cons_self hk
          simp [hk,hp,hr',hrest]
        · simp [hk,List.filter_cons,hrest]
    exact hsame t.rows h
  · rw [List.filter_append,List.filter_singleton,hp]
    simp

omit [DecidableEq κ] in
theorem only_deleteWhere : (t.deleteWhere q).only p = (t.only p).deleteWhere q := by
  apply ext_rows
  rw [rows_only]
  change (t.rows.filter _).filter p = (t.only p).rows.filter _
  rw [rows_only,List.filter_filter,List.filter_filter]
  apply List.filter_congr
  intro r _
  exact Bool.and_comm _ _

omit [DecidableEq κ] in
theorem only_deleteWhere_of_not (h : ∀ r ∈ t.rows, q r = true → p r = false) : (t.deleteWhere q).only p = t.only p := by
  apply ext_rows
  rw [rows_only,rows_only]
  change (t.rows.filter _).filter p = _
  rw [List.filter_filter]
  apply List.filter_congr
  intro r hr
  cases hq : q r with
  | true => simp [h r hr hq]
  | false => simp

omit [DecidableEq κ] in
theorem only_modify (hg : ∀ r, key (g r) = key r) (hp : ∀ r, p (g r) = p r) :
    (t.modify q g hg).only p = (t.only p).modify q g hg := by
  apply ext_rows
  rw [rows_only]
  change (updateWhere q g t.rows).filter p = updateWhere q g (t.only p).rows
  rw [rows_only,updateWhere,updateWhere,List.filter_map]
  congr 1
  apply List.filter_congr
  intro r _
  simp only [Function.comp_apply]
  split
  · exact hp r
  · rfl

omit [DecidableEq κ] in
theorem only_modify_of_not (hg : ∀ r, key (g r) = key r) (hp : ∀ r, p (g r) = p r)
    (h : ∀ r ∈ t.rows, q r = true → p r = false) : (t.modify q g hg).only p = t.only p := by
  rw [only_modify hg hp]
  apply ext_rows
  change updateWhere q g (t.only p).rows = _
  apply updateWhere_eq_self
  intro r hr hq
  rw [rows_only] at hr
  obtain ⟨hmem,hpr⟩ := List.mem_filter.mp hr
  rw [h r hmem hq] at hpr
  cases hpr

end Only

end Records
end StructureAi.Foundation

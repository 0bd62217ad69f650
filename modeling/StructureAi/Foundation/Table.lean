import StructureAi.Foundation.Numbered

/-! # Tables

The statements of the SQL adapters over a table kept as a list of rows in
insertion order.
-/
namespace StructureAi.Foundation
variable {α β : Type*}

/-- `ORDER BY f ASC`. -/
def orderBy (f : α → ℤ) (rows : List α) : List α := rows.insertionSort fun a b => f a ≤ f b

/-- `SELECT max(f)`, which is NULL over no rows. -/
def maxOf (f : α → ℤ) : List α → Option ℤ
  | [] => none
  | r :: rs => some (rs.foldl (fun m r => max m (f r)) (f r))

/-- `UPDATE … SET g WHERE p`. -/
def updateWhere (p : α → Bool) (g : α → α) (rows : List α) : List α :=
  rows.map fun r => if p r then g r else r

/-- `DELETE … WHERE p`. -/
def deleteWhere (p : α → Bool) (rows : List α) : List α := rows.filter fun r => !p r

/-- `UPDATE … SET g` of the first `n` rows that satisfy `p`. -/
def updateFirst : ℕ → (α → Bool) → (α → α) → List α → List α
  | 0,_,_,rows => rows
  | _,_,_,[] => []
  | n + 1,p,g,r :: rows => if p r then g r :: updateFirst n p g rows else r :: updateFirst (n + 1) p g rows

/-- `INSERT … ON CONFLICT (key) DO UPDATE`. -/
def upsert {κ : Type*} [DecidableEq κ] (key : α → κ) (row : α) (rows : List α) : List α :=
  if rows.any (fun r => key r = key row) then
    updateWhere (fun r => key r = key row) (fun _ => row) rows
  else rows ++ [row]

theorem orderBy_filter {f : α → ℤ} {n : ℤ} {rows : List α} (h : NumberedFrom f n rows) (p : α → Bool) :
    orderBy f (rows.filter p) = rows.filter p := by
  refine List.Pairwise.insertionSort_eq ?_
  refine (h.pairwise.filter p).imp ?_
  intro a b hab
  exact hab.le

theorem maxOf_numbered {f : α → ℤ} {n : ℤ} {rows : List α} (h : NumberedFrom f n rows) :
    (maxOf f rows).getD n = n + rows.length := by
  cases rows with
  | nil => simp [maxOf]
  | cons r rs =>
    rw [maxOf,Option.getD_some,h.1,h.2.foldl_max,List.length_cons]
    push_cast
    ring

theorem orderBy_map {f : β → ℤ} {g : α → ℤ} {h : α → β} (hfg : ∀ a, f (h a) = g a) (rows : List α) :
    orderBy f (rows.map h) = (orderBy g rows).map h := by
  refine (List.map_insertionSort _ _ h rows ?_).symm
  intro a _ b _
  rw [hfg,hfg]

theorem maxOf_map {f : β → ℤ} {g : α → ℤ} {h : α → β} (hfg : ∀ a, f (h a) = g a) (rows : List α) :
    maxOf f (rows.map h) = maxOf g rows := by
  cases rows with
  | nil => rfl
  | cons r rs => simp only [List.map_cons,maxOf,List.foldl_map,hfg]

theorem any_congr_mem {p q : α → Bool} {rows : List α} (h : ∀ r ∈ rows, p r = q r) :
    rows.any p = rows.any q := by
  rw [Bool.eq_iff_iff,List.any_eq_true,List.any_eq_true]
  refine exists_congr fun r => and_congr_right fun hr => ?_
  rw [h r hr]

theorem updateWhere_eq_self {p : α → Bool} {g : α → α} {rows : List α}
    (h : ∀ r ∈ rows, p r = true → g r = r) : updateWhere p g rows = rows := by
  refine (List.map_congr_left fun r hr => ?_).trans (List.map_id rows)
  split
  next hp => exact h r hr hp
  next => rfl

theorem updateWhere_congr {p q : α → Bool} {g g' : α → α} {rows : List α}
    (h : ∀ r ∈ rows, p r = q r) (hg : ∀ r ∈ rows, p r = true → g r = g' r) :
    updateWhere p g rows = updateWhere q g' rows := by
  refine List.map_congr_left fun r hr => ?_
  rw [← h r hr]
  split
  next hp => exact hg r hr hp
  next => rfl

theorem updateWhere_narrow {p q : α → Bool} {g : α → α} {rows : List α}
    (hq : ∀ r ∈ rows, q r = true → p r = true) (hg : ∀ r ∈ rows, p r = true → q r = false → g r = r) :
    updateWhere p g rows = updateWhere q g rows := by
  refine List.map_congr_left fun r hr => ?_
  cases hqr : q r with
  | true => rw [hq r hr hqr]
  | false =>
    rw [if_neg Bool.false_ne_true]
    split
    next hp => exact hg r hr hp hqr
    next => rfl

theorem map_updateWhere {p : α → Bool} {q : β → Bool} {g : α → α} {g' : β → β} {h : α → β}
    {rows : List α} (hp : ∀ r ∈ rows, q (h r) = p r) (hg : ∀ r ∈ rows, p r = true → h (g r) = g' (h r)) :
    (updateWhere p g rows).map h = updateWhere q g' (rows.map h) := by
  simp only [updateWhere,List.map_map]
  refine List.map_congr_left ?_
  intro r hr
  simp only [Function.comp_apply,hp r hr]
  split
  next hpr => exact hg r hr hpr
  next => rfl

theorem foldl_updateWhere {κ : Type*} [DecidableEq κ] {key : α → κ} {g : α → α}
    (hk : ∀ r, key (g r) = key r) (hg : ∀ r, g (g r) = g r) (ks : List κ) (rows : List α) :
    ks.foldl (fun rows k => updateWhere (fun r => key r = k) g rows) rows =
      updateWhere (fun r => key r ∈ ks) g rows := by
  induction ks generalizing rows with
  | nil => simp [updateWhere]
  | cons k ks ih =>
    rw [List.foldl_cons,ih]
    simp only [updateWhere,List.map_map]
    refine List.map_congr_left fun r _ => ?_
    by_cases h : key r = k
    · by_cases hm : k ∈ ks <;> simp [h,hm,hk,hg]
    · simp [h]

theorem map_updateFirst {p : α → Bool} {q : β → Bool} {g : α → α} {g' : β → β} {h : α → β} (n : ℕ)
    {rows : List α} (hp : ∀ r ∈ rows, q (h r) = p r) (hg : ∀ r ∈ rows, p r = true → h (g r) = g' (h r)) :
    (updateFirst n p g rows).map h = updateFirst n q g' (rows.map h) := by
  induction rows generalizing n with
  | nil => cases n <;> rfl
  | cons r rows ih =>
    obtain ⟨hpr,hp⟩ := List.forall_mem_cons.mp hp
    obtain ⟨hgr,hg⟩ := List.forall_mem_cons.mp hg
    cases n with
    | zero => rfl
    | succ n =>
      simp only [updateFirst,List.map_cons,hpr]
      split
      next hc => rw [List.map_cons,hgr hc,ih n hp hg]
      next => rw [List.map_cons,ih (n + 1) hp hg]

/-- With distinct keys, the rows an update of the first ones reaches are given by their keys. -/
theorem updateFirst_eq_map {κ : Type*} [DecidableEq κ] {key : α → κ} {p : α → Bool} {g : α → α} (n : ℕ)
    {rows : List α} (hn : (rows.map key).Nodup) :
    updateFirst n p g rows =
      rows.map fun r => if key r ∈ ((rows.filter p).take n).map key then g r else r := by
  induction rows generalizing n with
  | nil => cases n <;> rfl
  | cons r rows ih =>
    obtain ⟨hr,hn⟩ := List.nodup_cons.mp hn
    have hout : ∀ k, key r ∉ ((rows.filter p).take k).map key := by
      intro k hk
      obtain ⟨r',hr',he⟩ := List.mem_map.mp hk
      exact hr (he ▸ List.mem_map_of_mem (List.mem_filter.mp (List.mem_of_mem_take hr')).1)
    cases n with
    | zero => simp [updateFirst]
    | succ n =>
      rw [updateFirst]
      split
      next hp =>
        rw [List.filter_cons_of_pos hp,List.take_succ_cons,List.map_cons,List.map_cons,
          if_pos List.mem_cons_self,ih n hn]
        refine congrArg _ (List.map_congr_left fun r' hr' => ?_)
        have hne : key r' ≠ key r := fun he => hr (he ▸ List.mem_map_of_mem hr')
        simp only [List.mem_cons,hne,false_or]
      next hp =>
        rw [List.filter_cons_of_neg hp,List.map_cons,if_neg (hout (n + 1)),ih (n + 1) hn]

/-- Every row after an update of the first ones is a row from before or one of these updated. -/
theorem mem_updateFirst {p : α → Bool} {g : α → α} {n : ℕ} {rows : List α} {r : α}
    (h : r ∈ updateFirst n p g rows) : r ∈ rows ∨ ∃ r' ∈ (rows.filter p).take n, r = g r' := by
  induction rows generalizing n with
  | nil => cases n <;> cases h
  | cons r' rows ih =>
    cases n with
    | zero => exact Or.inl h
    | succ n =>
      rw [updateFirst] at h
      split at h
      next hp =>
        rw [List.filter_cons_of_pos hp,List.take_succ_cons]
        rcases List.mem_cons.mp h with rfl | h
        · exact Or.inr ⟨r',List.mem_cons_self,rfl⟩
        · rcases ih h with h | ⟨r'',hr,rfl⟩
          · exact Or.inl (List.mem_cons_of_mem _ h)
          · exact Or.inr ⟨r'',List.mem_cons_of_mem _ hr,rfl⟩
      next hp =>
        rw [List.filter_cons_of_neg hp]
        rcases List.mem_cons.mp h with rfl | h
        · exact Or.inl List.mem_cons_self
        · rcases ih h with h | ⟨r'',hr,rfl⟩
          · exact Or.inl (List.mem_cons_of_mem _ h)
          · exact Or.inr ⟨r'',hr,rfl⟩

section Upsert
variable {κ : Type*} [DecidableEq κ] {key : α → κ} {row : α} {rows : List α}

theorem find?_updateWhere_self (h : ∃ r ∈ rows, key r = key row) :
    (updateWhere (fun r => key r = key row) (fun _ => row) rows).find? (fun r => key r = key row) =
      some row := by
  induction rows with
  | nil =>
    obtain ⟨r,hr,-⟩ := h
    cases hr
  | cons r rs ih =>
    rw [updateWhere,List.map_cons]
    by_cases hr : key r = key row
    · rw [if_pos (by simpa using hr),List.find?_cons_of_pos (by simp)]
    · rw [if_neg (by simpa using hr),List.find?_cons_of_neg (by simpa using hr)]
      refine ih ?_
      obtain ⟨r',hr',hk⟩ := h
      rcases List.mem_cons.mp hr' with rfl | hr'
      · exact absurd hk hr
      · exact ⟨r',hr',hk⟩

theorem find?_updateWhere_of_ne {k : κ} (h : k ≠ key row) :
    (updateWhere (fun r => key r = key row) (fun _ => row) rows).find? (fun r => key r = k) =
      rows.find? fun r => key r = k := by
  induction rows with
  | nil => rfl
  | cons r rs ih =>
    rw [updateWhere,List.map_cons]
    by_cases hr : key r = key row
    · have hk : ¬ key r = k := fun hk => h (hk.symm.trans hr)
      rw [if_pos (by simpa using hr),List.find?_cons_of_neg (by simpa using h.symm),
        List.find?_cons_of_neg (by simpa using hk)]
      exact ih
    · rw [if_neg (by simpa using hr),List.find?_cons,List.find?_cons]
      split
      · rfl
      · exact ih

/-- After an upsert the row of its key is the written one and the others are as before. -/
theorem find?_upsert (k : κ) : (upsert key row rows).find? (fun r => key r = k) =
    if k = key row then some row else rows.find? fun r => key r = k := by
  unfold upsert
  split
  next hc =>
    split
    next hk =>
      subst hk
      exact find?_updateWhere_self (by simpa using hc)
    next hk => exact find?_updateWhere_of_ne hk
  next hc =>
    have hnone : ∀ r ∈ rows, ¬ key r = key row := by simpa using hc
    rw [List.find?_append]
    split
    next hk =>
      subst hk
      have hn : rows.find? (fun r => key r = key row) = none := by simpa using hnone
      rw [hn,Option.none_or,List.find?_singleton,if_pos (by simp)]
    next hk =>
      rw [List.find?_singleton,if_neg (by simpa using Ne.symm hk),Option.or_none]

end Upsert

end StructureAi.Foundation

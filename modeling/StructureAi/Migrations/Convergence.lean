import StructureAi.Migrations.Run

/-! # Migrations converge and run once

A run compares the set with what is recorded, and the migrator looks at the highest recorded id
only. The two agree where the recorded history has no gap, and a run over such a history leaves
none.
-/
namespace StructureAi.Migrations
open StructureAi.Foundation

section Stamping

/-- What the updates of `stampChecksums` do to one row. -/
def stampOne (migrations : List Migration) (r : AppliedRow) : AppliedRow :=
  migrations.foldl (fun r m => if r.id = m.id ∧ r.checksum = none then {r with checksum := some m.checksum}
    else r) r

theorem foldl_stampRow (migrations : List Migration) (rows : List AppliedRow) :
    migrations.foldl Tables.stampRow rows = rows.map (stampOne migrations) := by
  induction migrations generalizing rows with
  | nil => exact (List.map_id rows).symm
  | cons m migrations ih =>
    rw [List.foldl_cons,ih,Tables.stampRow,updateWhere,List.map_map]
    refine List.map_congr_left fun r _ => ?_
    have hcond : (decide (r.id = m.id) && r.checksum.isNone) = decide (r.id = m.id ∧ r.checksum = none) := by
      cases r.checksum <;> simp
    simp only [Function.comp_apply,stampOne,List.foldl_cons,hcond,decide_eq_true_eq]

theorem stampOne_stamped {migrations : List Migration} {r : AppliedRow} (h : r.checksum ≠ none) :
    stampOne migrations r = r := by
  induction migrations with
  | nil => rfl
  | cons m migrations ih =>
    rw [stampOne,List.foldl_cons,if_neg fun hc => h hc.2]
    exact ih

@[simp] theorem stampOne_id (migrations : List Migration) (r : AppliedRow) :
    (stampOne migrations r).id = r.id := by
  unfold stampOne
  induction migrations generalizing r with
  | nil => rfl
  | cons m migrations ih =>
    rw [List.foldl_cons,ih]
    split <;> rfl

theorem stampOne_unstamped {migrations : List Migration} {r : AppliedRow} (h : r.checksum = none)
    (hm : ∃ m ∈ migrations, m.id = r.id) :
    ∃ m ∈ migrations, m.id = r.id ∧ (stampOne migrations r).checksum = some m.checksum := by
  induction migrations with
  | nil =>
    obtain ⟨m,hmem,-⟩ := hm
    cases hmem
  | cons m migrations ih =>
    by_cases hid : r.id = m.id
    · refine ⟨m,List.mem_cons_self,hid.symm,?_⟩
      have hstep : stampOne (m :: migrations) r = stampOne migrations {r with checksum := some m.checksum} := by
        rw [stampOne,List.foldl_cons,if_pos ⟨hid,h⟩]
        rfl
      rw [hstep,stampOne_stamped (Option.some_ne_none _)]
    · have hstep : stampOne (m :: migrations) r = stampOne migrations r := by
        rw [stampOne,List.foldl_cons,if_neg fun hc => hid hc.1]
        rfl
      obtain ⟨n,hn,hnid⟩ := hm
      rcases List.mem_cons.mp hn with rfl | hn
      · exact absurd hnid.symm hid
      · obtain ⟨k,hk,hkid,hsum⟩ := ih ⟨n,hn,hnid⟩
        exact ⟨k,List.mem_cons_of_mem _ hk,hkid,hstep ▸ hsum⟩

end Stamping

section Section
variable {migrate : List Migration → List AppliedRow → List Migration} {set : MigrationSet}
  {rows : List AppliedRow}

/-- The rows after a run over `rows` that has applied some migrations. -/
def stampedRows (set : MigrationSet) (rows : List AppliedRow) (applied : List Migration) : List AppliedRow :=
  (rows ++ applied.map Migration.row).map (stampOne set.migrations)

theorem stampedRows_ids (applied : List Migration) : (stampedRows set rows applied).map AppliedRow.id =
    rows.map AppliedRow.id ++ applied.map Migration.id := by
  have hid : AppliedRow.id ∘ stampOne set.migrations = AppliedRow.id :=
    funext fun r => stampOne_id set.migrations r
  rw [stampedRows,List.map_map,hid,List.map_append,List.map_map]
  rfl

theorem mem_applied (hm : MigratesAbove migrate) {m : Migration} :
    m ∈ migrate set.migrations rows ↔ m ∈ set.migrations ∧ ∀ r ∈ rows, r.id < m.id := by
  rw [hm,List.mem_filter]
  simp

theorem applied_ids_nodup (hm : MigratesAbove migrate) :
    ((migrate set.migrations rows).map Migration.id).Nodup := by
  rw [hm]
  exact List.pairwise_map.mpr ((set.ordered.filter _).imp fun h => h.ne)

theorem stampedRows_checksum (hc : Consistent set rows) (hm : MigratesAbove migrate) {r : AppliedRow}
    (hr : r ∈ stampedRows set rows (migrate set.migrations rows)) :
    ∃ m ∈ set.migrations, m.id = r.id ∧ r.checksum = some m.checksum := by
  obtain ⟨r',hr',rfl⟩ := List.mem_map.mp hr
  have hknown : ∃ m ∈ set.migrations, m.id = r'.id := by
    rcases List.mem_append.mp hr' with hr' | hr'
    · exact hc.known r' hr'
    · obtain ⟨m,hmem,rfl⟩ := List.mem_map.mp hr'
      exact ⟨m,((mem_applied hm).mp hmem).1,rfl⟩
  rw [stampOne_id]
  cases hsum : r'.checksum with
  | none => exact stampOne_unstamped hsum hknown
  | some actual =>
    obtain ⟨m,hmem,hid⟩ := hknown
    refine ⟨m,hmem,hid,?_⟩
    rw [stampOne_stamped (by rw [hsum]; exact Option.some_ne_none _)]
    rcases List.mem_append.mp hr' with hr' | hr'
    · rcases hc.checksums m hmem r' hr' hid.symm with hnone | hsome
      · rw [hsum] at hnone
        cases hnone
      · exact hsome
    · obtain ⟨n,-,rfl⟩ := List.mem_map.mp hr'
      cases hsum

theorem stampedRows_consistent (hc : Consistent set rows) (hm : MigratesAbove migrate) :
    Consistent set (stampedRows set rows (migrate set.migrations rows)) := by
  refine ⟨fun r hr => ?_,fun m hmem r hr hid => ?_⟩
  · obtain ⟨m,hmem,hid,-⟩ := stampedRows_checksum hc hm hr
    exact ⟨m,hmem,hid⟩
  · obtain ⟨n,hn,hnid,hsum⟩ := stampedRows_checksum hc hm hr
    obtain rfl := set.eq_of_id hmem hn (hid.symm.trans hnid.symm)
    exact Or.inr hsum

theorem mem_ids {id : ℤ} : id ∈ rows.map AppliedRow.id ↔ ∃ r ∈ rows, r.id = id := List.mem_map

theorem stampedRows_nodup (hpk : (rows.map AppliedRow.id).Nodup) (hm : MigratesAbove migrate) :
    ((stampedRows set rows (migrate set.migrations rows)).map AppliedRow.id).Nodup := by
  rw [stampedRows_ids]
  refine List.nodup_append.mpr ⟨hpk,applied_ids_nodup hm,fun id hid id' hid' => ?_⟩
  obtain ⟨r,hr,rfl⟩ := List.mem_map.mp hid
  obtain ⟨m,hmem,rfl⟩ := List.mem_map.mp hid'
  exact (((mem_applied hm).mp hmem).2 r hr).ne

theorem stampedRows_complete (hg : Gapless set rows) (hm : MigratesAbove migrate) :
    ∀ m ∈ set.migrations, ∃ r ∈ stampedRows set rows (migrate set.migrations rows), r.id = m.id := by
  intro m hmem
  rw [← mem_ids,stampedRows_ids,List.mem_append,mem_ids]
  rcases hg m hmem with hrow | habove
  · exact Or.inl hrow
  · exact Or.inr (List.mem_map_of_mem ((mem_applied hm).mpr ⟨hmem,habove⟩))

theorem gapless_of_complete (h : ∀ m ∈ set.migrations, ∃ r ∈ rows, r.id = m.id) : Gapless set rows :=
  fun m hmem => Or.inl (h m hmem)

theorem upToDate_of_complete (hpk : (rows.map AppliedRow.id).Nodup) (hc : Consistent set rows)
    (hall : ∀ m ∈ set.migrations, ∃ r ∈ rows, r.id = m.id)
    (hsum : ∀ r ∈ rows, ∃ m ∈ set.migrations, m.id = r.id ∧ r.checksum = some m.checksum) :
    UpToDate set rows := by
  refine ⟨pending_eq_nil.mpr hall,unknown_eq_nil.mpr hc.known,(mismatched_eq_nil hpk).mpr hc.checksums,?_⟩
  intro m hmem
  obtain ⟨r,hr,hid⟩ := hall m hmem
  obtain ⟨n,hn,hnid,hs⟩ := hsum r hr
  obtain rfl := set.eq_of_id hmem hn (hid.symm.trans hnid.symm)
  exact ⟨r,hr,hid,hs⟩

end Section

section Work
variable {migrate : List Migration → List AppliedRow → List Migration} {set : MigrationSet} {t : Tables}

/-- What a runner works on after it has verified the history. -/
structure Verified (set : MigrationSet) (t work : Tables) (before : MigrationStatus) : Prop where
  of_tables : work = t.ensureChecksumColumn
  of_rows : before = reportOf set t.rows
  consistent : inconsistencies before = []

theorem Verified.rows_consistent {work : Tables} {before : MigrationStatus} (h : Verified set t work before)
    (hpk : (t.rows.map AppliedRow.id).Nodup) : Consistent set t.rows :=
  (consistent_iff hpk).mpr (h.of_rows ▸ h.consistent)

theorem ensureChecksumColumn_eq (h : t.bookkeeping ≠ none) :
    t.ensureChecksumColumn = ⟨some ⟨t.rows,true⟩,t.executed⟩ := by
  obtain ⟨b,hb⟩ := Option.ne_none_iff_exists'.mp h
  rw [Tables.ensureChecksumColumn,Tables.rows,hb]
  rfl

def committed (set : MigrationSet) (t : Tables) (applied : List Migration) : Tables :=
  ⟨some ⟨stampedRows set t.rows applied,true⟩,t.executed ++ applied.map Migration.id⟩

theorem stampChecksums_record (h : t.bookkeeping ≠ none) (applied : List Migration) :
    (t.ensureChecksumColumn.record applied).stampChecksums set.migrations = committed set t applied := by
  rw [ensureChecksumColumn_eq h,committed,stampedRows,← foldl_stampRow]
  rfl

theorem ensureTable_of_some (h : t.bookkeeping ≠ none) : t.ensureTable = t := by
  obtain ⟨b,hb⟩ := Option.ne_none_iff_exists'.mp h
  cases t
  subst hb
  rfl

theorem ensureTable_rows (t : Tables) : t.ensureTable.rows = t.rows := by
  rcases t with ⟨_ | b,executed⟩ <;> rfl

end Work

namespace Migrating
variable {migrate : List Migration → List AppliedRow → List Migration} {set : MigrationSet}
  {history : List AppliedRow} {s s' : Migrating}

def Agrees (set : MigrationSet) (history : List AppliedRow) : Prop :=
  Consistent set history → Gapless set history

/-- The tables beside the history that was there first. -/
structure TablesInv (set : MigrationSet) (history : List AppliedRow) (t : Tables) : Prop where
  primaryKey : (t.rows.map AppliedRow.id).Nodup
  kept : history.map AppliedRow.id ⊆ t.rows.map AppliedRow.id
  once : t.executed.Nodup
  fresh : ∀ id ∈ t.executed, id ∈ t.rows.map AppliedRow.id ∧ id ∉ history.map AppliedRow.id
  refused : ¬ Consistent set history → t.rows = history ∧ t.executed = []
  consistent : Consistent set history → Consistent set t.rows
  gapless : Consistent set history → Gapless set history → Gapless set t.rows

section Tables
variable {t : Tables}

theorem TablesInv.first (h : TablesInv set history t) (hc : Consistent set t.rows) : Consistent set history := by
  by_contra hn
  exact hn ((h.refused hn).1 ▸ hc)

theorem TablesInv.ensureTable (h : TablesInv set history t) : TablesInv set history t.ensureTable := by
  have hrows := ensureTable_rows t
  exact ⟨hrows ▸ h.primaryKey,hrows ▸ h.kept,h.once,hrows ▸ h.fresh,hrows ▸ h.refused,hrows ▸ h.consistent,
    hrows ▸ h.gapless⟩

theorem TablesInv.commit (h : TablesInv set history t) (hm : MigratesAbove migrate)
    (hc : Consistent set t.rows) :
    TablesInv set history (committed set t (migrate set.migrations t.rows)) := by
  have hids : (committed set t (migrate set.migrations t.rows)).rows.map AppliedRow.id =
      t.rows.map AppliedRow.id ++ (migrate set.migrations t.rows).map Migration.id := stampedRows_ids _
  have habove : ∀ id ∈ (migrate set.migrations t.rows).map Migration.id, id ∉ t.rows.map AppliedRow.id := by
    intro id hid hold
    obtain ⟨m,hmem,rfl⟩ := List.mem_map.mp hid
    obtain ⟨r,hr,hrid⟩ := List.mem_map.mp hold
    exact (((mem_applied hm).mp hmem).2 r hr).ne hrid
  have hfirst := h.first hc
  refine ⟨stampedRows_nodup h.primaryKey hm,?_,?_,?_,fun hn => absurd hfirst hn,
    fun _ => stampedRows_consistent hc hm,fun _ hg => ?_⟩
  · rw [hids]
    exact fun id hid => List.mem_append_left _ (h.kept hid)
  · refine List.nodup_append.mpr ⟨h.once,applied_ids_nodup hm,fun id hid id' hid' heq => ?_⟩
    exact habove id' hid' (heq ▸ (h.fresh id hid).1)
  · intro id hid
    rw [hids]
    rcases List.mem_append.mp hid with hid | hid
    · exact ⟨List.mem_append_left _ (h.fresh id hid).1,(h.fresh id hid).2⟩
    · exact ⟨List.mem_append_right _ hid,fun hold => habove id hid (h.kept hold)⟩
  · exact gapless_of_complete (stampedRows_complete (h.gapless hfirst hg) hm)

theorem TablesInv.upToDate (h : TablesInv set history t) (hm : MigratesAbove migrate)
    (hc : Consistent set t.rows) (hfine : Agrees set history) :
    UpToDate set (committed set t (migrate set.migrations t.rows)).rows := by
  have hg := h.gapless (h.first hc) (hfine (h.first hc))
  exact upToDate_of_complete (stampedRows_nodup h.primaryKey hm) (stampedRows_consistent hc hm)
    (stampedRows_complete hg hm) fun r hr => stampedRows_checksum hc hm hr

theorem TablesInv.applies (h : TablesInv set history t) (hm : MigratesAbove migrate)
    (hc : Consistent set t.rows) (hfine : Agrees set history) (hp : (reportOf set t.rows).pending ≠ []) :
    migrate set.migrations t.rows ≠ [] := by
  have hg := h.gapless (h.first hc) (hfine (h.first hc))
  intro hnone
  refine hp (pending_eq_nil.mpr fun m hmem => ?_)
  rcases hg m hmem with hrow | habove
  · exact hrow
  · have happlied := (mem_applied hm).mpr ⟨hmem,habove⟩
    rw [hnone] at happlied
    cases happlied

end Tables

/-- Where runner `i` is beside the committed tables. -/
def RunnerInv (migrate : List Migration → List AppliedRow → List Migration) (set : MigrationSet)
    (history : List AppliedRow) (t : Tables) (holder : Option ℕ) (i : ℕ) (r : Runner) : Prop :=
  match r.phase with
  | .ensureTable => True
  | .lock => t.bookkeeping ≠ none
  | .verify => t.bookkeeping ≠ none ∧ holder = some i
  | .migrate work before => t.bookkeeping ≠ none ∧ holder = some i ∧ Verified set t work before
  | .stamp work before applied => t.bookkeeping ≠ none ∧ holder = some i ∧
    Verified set t t.ensureChecksumColumn before ∧ applied = migrate set.migrations t.rows ∧
    work = t.ensureChecksumColumn.record applied
  | .commit work applied => t.bookkeeping ≠ none ∧ holder = some i ∧ Consistent set t.rows ∧
    applied = migrate set.migrations t.rows ∧ work = committed set t applied
  | .retry j => t.bookkeeping ≠ none ∧ (Agrees set history → j ≠ none)

theorem RunnerInv.mono {t t' : Tables} {holder holder' : Option ℕ} {i : ℕ} {r : Runner}
    (h : RunnerInv migrate set history t holder i r)
    (hholder : holder = some i → holder' = some i ∧ t' = t)
    (hbook : t.bookkeeping ≠ none → t'.bookkeeping ≠ none) :
    RunnerInv migrate set history t' holder' i r := by
  unfold RunnerInv at h ⊢
  split at h
  next => trivial
  next => exact hbook h
  next => exact ⟨hbook h.1,(hholder h.2).1⟩
  next =>
    obtain ⟨hh,rfl⟩ := hholder h.2.1
    exact ⟨h.1,hh,h.2.2⟩
  next =>
    obtain ⟨hh,rfl⟩ := hholder h.2.1
    exact ⟨h.1,hh,h.2.2⟩
  next =>
    obtain ⟨hh,rfl⟩ := hholder h.2.1
    exact ⟨h.1,hh,h.2.2⟩
  next => exact ⟨hbook h.1,h.2⟩

theorem RunnerInv.of_none {t t' : Tables} {holder holder' : Option ℕ} {i : ℕ} {r : Runner}
    (h : RunnerInv migrate set history t holder i r) (hbook : t.bookkeeping = none) :
    RunnerInv migrate set history t' holder' i r := by
  unfold RunnerInv at h ⊢
  split at h
  next => trivial
  next => exact absurd hbook h
  next => exact absurd hbook h.1
  next => exact absurd hbook h.1
  next => exact absurd hbook h.1
  next => exact absurd hbook h.1
  next => exact absurd hbook h.1

/-- A run that succeeded left the set up to date, and one was refused by a holder of the lock only. -/
structure OutcomeInv (set : MigrationSet) (o : RunOutcome) : Prop where
  upToDate : ∀ applied, o.result = .ok applied → UpToDate set o.tables.rows
  locked : o.result = .error locked → o.holder ≠ none

structure Inv (migrate : List Migration → List AppliedRow → List Migration) (set : MigrationSet)
    (history : List AppliedRow) (s : Migrating) : Prop where
  tables : TablesInv set history s.tables
  runners : ∀ i r, s.runners i = some r → RunnerInv migrate set history s.tables s.holder i r
  outcomes : Agrees set history → ∀ o ∈ s.outcomes, OutcomeInv set o

theorem Inv.advance (h : Inv migrate set history s) {t : Tables} {holder : Option ℕ} {i : ℕ} {r : Runner}
    (ht : TablesInv set history t)
    (hothers : ∀ j, j ≠ i → s.holder = some j → holder = some j ∧ t = s.tables)
    (hbook : s.tables.bookkeeping ≠ none → t.bookkeeping ≠ none)
    (hr : RunnerInv migrate set history t holder i r) :
    Inv migrate set history ⟨t,holder,s.runners.set i r,s.outcomes⟩ := by
  refine ⟨ht,fun j r' hj => ?_,h.outcomes⟩
  rcases Fibers.set_cases hj with ⟨rfl,rfl⟩ | ⟨hne,hj⟩
  · exact hr
  · exact (h.runners j r' hj).mono (hothers j hne) hbook

theorem Inv.ended (h : Inv migrate set history s) {t : Tables} {holder : Option ℕ} {i : ℕ}
    {new : List RunOutcome} (ht : TablesInv set history t)
    (hothers : ∀ j, j ≠ i → s.holder = some j → holder = some j ∧ t = s.tables)
    (hbook : s.tables.bookkeeping ≠ none → t.bookkeeping ≠ none)
    (hnew : Agrees set history → ∀ o ∈ new, OutcomeInv set o) :
    Inv migrate set history ⟨t,holder,s.runners.remove i,s.outcomes ++ new⟩ := by
  refine ⟨ht,fun j r' hj => ?_,fun hfine o ho => ?_⟩
  · obtain ⟨hne,hj⟩ := Fibers.remove_cases hj
    exact (h.runners j r' hj).mono (hothers j hne) hbook
  · rcases List.mem_append.mp ho with ho | ho
    · exact h.outcomes hfine o ho
    · exact hnew hfine o ho

theorem locked_outcome {j : Option ℕ} {t : Tables} (hj : j ≠ none) :
    OutcomeInv set ⟨.error locked,j,t⟩ :=
  ⟨nofun,fun _ => hj⟩

/-- An attempt that ends with `locked`, the lock released where the runner had it. -/
theorem Inv.refused (h : Inv migrate set history s) {i : ℕ} {r : Runner} {holder j : Option ℕ}
    (hothers : ∀ k, k ≠ i → s.holder = some k → holder = some k)
    (hbook : s.tables.bookkeeping ≠ none) (hj : Agrees set history → j ≠ none) :
    Inv migrate set history ({s with holder := holder}.refused i r j) := by
  have hfinish : Inv migrate set history ({s with holder := holder}.finish i (.error locked) j) := by
    refine h.ended h.tables (fun k hk hh => ⟨hothers k hk hh,rfl⟩) id fun hfine o ho => ?_
    rw [List.mem_singleton.mp ho]
    exact locked_outcome (hj hfine)
  unfold Migrating.refused
  split
  · exact h.advance h.tables (fun k hk hh => ⟨hothers k hk hh,rfl⟩) id ⟨hbook,hj⟩
  · exact hfinish

theorem Inv.stepRunner (h : Inv migrate set history s) (hm : MigratesAbove migrate) {i : ℕ} {r : Runner}
    (hr : s.runners i = some r) (hs : s.stepRunner migrate set i r = some s') :
    Inv migrate set history s' := by
  have hri := h.runners i r hr
  have hpk := h.tables.primaryKey
  unfold RunnerInv at hri
  unfold Migrating.stepRunner at hs
  split at hs
  next =>
    obtain rfl := Option.some.inj hs
    by_cases hbook : s.tables.bookkeeping = none
    · refine ⟨h.tables.ensureTable,fun j r' hj => ?_,h.outcomes⟩
      rcases Fibers.set_cases hj with ⟨rfl,rfl⟩ | ⟨hne,hj⟩
      · exact Option.some_ne_none _
      · exact (h.runners j r' hj).of_none hbook
    · have hsame : s.tables.ensureTable = s.tables := ensureTable_of_some hbook
      rw [hsame]
      exact h.advance h.tables (fun _ _ hh => ⟨hh,rfl⟩) id hbook
  next hphase =>
    rw [hphase] at hri
    split at hs
    next hfree =>
      obtain rfl := Option.some.inj hs
      refine h.advance h.tables (fun _ _ hh => ?_) id ⟨hri,rfl⟩
      rw [hfree] at hh
      cases hh
    next j hheld =>
      split at hs
      next => cases hs
      next =>
        obtain rfl := Option.some.inj hs
        exact h.refused (fun _ _ hh => hh) hri fun _ => Option.some_ne_none j
  next hphase =>
    rw [hphase] at hri
    obtain ⟨hbook,hholder⟩ := hri
    have hwork : s.tables.ensureChecksumColumn.rows = s.tables.rows := by
      rw [ensureChecksumColumn_eq hbook]
      rfl
    have hfree : ∀ k, k ≠ i → s.holder = some k → (none : Option ℕ) = some k := by
      intro k hk hh
      exact absurd (Option.some.inj (hh.symm.trans hholder)) hk
    dsimp only at hs
    rw [hwork] at hs
    split at hs
    next hbad =>
      obtain rfl := Option.some.inj hs
      refine h.ended h.tables (fun k hk hh => ⟨hfree k hk hh,rfl⟩) id fun _ o ho => ?_
      rw [List.mem_singleton.mp ho]
      refine ⟨nofun,fun heq => ?_⟩
      have hreason := congrArg MigrationError.reason (Except.error.inj heq)
      cases hreason
    next hgood =>
      obtain rfl := Option.some.inj hs
      refine h.advance h.tables (fun _ _ hh => ⟨hh,rfl⟩) id ⟨hbook,hholder,rfl,rfl,?_⟩
      exact List.eq_nil_of_length_eq_zero (by omega)
  next work before hphase =>
    rw [hphase] at hri
    obtain ⟨hbook,hholder,hv⟩ := hri
    obtain rfl := hv.of_tables
    have hwork : s.tables.ensureChecksumColumn.rows = s.tables.rows := by
      rw [ensureChecksumColumn_eq hbook]
      rfl
    dsimp only at hs
    rw [hwork] at hs
    obtain rfl := Option.some.inj hs
    exact h.advance h.tables (fun _ _ hh => ⟨hh,rfl⟩) id ⟨hbook,hholder,hv,rfl,rfl⟩
  next work before applied hphase =>
    rw [hphase] at hri
    obtain ⟨hbook,hholder,hv,rfl,rfl⟩ := hri
    have hc := hv.rows_consistent hpk
    split at hs
    next hnothing =>
      obtain rfl := Option.some.inj hs
      refine h.refused (fun k hk hh => ?_) hbook fun hfine => ?_
      · exact absurd (Option.some.inj (hh.symm.trans hholder)) hk
      · refine absurd (List.eq_nil_of_length_eq_zero hnothing.2) (h.tables.applies hm hc hfine ?_)
        rw [← hv.of_rows]
        exact List.ne_nil_of_length_pos hnothing.1
    next =>
      obtain rfl := Option.some.inj hs
      refine h.advance h.tables (fun _ _ hh => ⟨hh,rfl⟩) id ⟨hbook,hholder,hc,rfl,?_⟩
      exact stampChecksums_record hbook _
  next work applied hphase =>
    rw [hphase] at hri
    obtain ⟨hbook,hholder,hc,rfl,rfl⟩ := hri
    obtain rfl := Option.some.inj hs
    refine h.ended (h.tables.commit hm hc) (fun k hk hh => ?_) (fun _ => Option.some_ne_none _)
      fun hfine o ho => ?_
    · exact absurd (Option.some.inj (hh.symm.trans hholder)) hk
    · rw [List.mem_singleton.mp ho]
      exact ⟨fun _ _ => h.tables.upToDate hm hc hfine,nofun⟩
  next => cases hs

theorem Inv.step (h : Inv migrate set history s) (hm : MigratesAbove migrate) {l : MigratingStep}
    (hs : s.step migrate set l = some s') : Inv migrate set history s' := by
  cases l with
  | start i dialect lock =>
    simp only [Migrating.step] at hs
    split at hs
    · obtain rfl := Option.some.inj hs
      exact h.advance h.tables (fun _ _ hh => ⟨hh,rfl⟩) id trivial
    · cases hs
  | step i =>
    obtain ⟨r,hr,hs⟩ := Option.bind_eq_some_iff.mp hs
    exact h.stepRunner hm hr hs
  | timeOut i =>
    simp only [Migrating.step] at hs
    split at hs
    next j hr hheld =>
      obtain rfl := Option.some.inj hs
      refine h.ended h.tables (fun _ _ hh => ⟨hh,rfl⟩) id fun _ o ho => ?_
      rw [List.mem_singleton.mp ho]
      exact locked_outcome (Option.some_ne_none j)
    next => cases hs
  | retry i =>
    simp only [Migrating.step] at hs
    split at hs
    next hr =>
      obtain rfl := Option.some.inj hs
      exact h.advance h.tables (fun _ _ hh => ⟨hh,rfl⟩) id (h.runners i _ hr).1
    next => cases hs
  | giveUp i =>
    simp only [Migrating.step] at hs
    split at hs
    next hr =>
      obtain rfl := Option.some.inj hs
      refine h.ended h.tables (fun _ _ hh => ⟨hh,rfl⟩) id fun hfine o ho => ?_
      rw [List.mem_singleton.mp ho]
      exact locked_outcome ((h.runners i _ hr).2 hfine)
    next => cases hs
  | abort i =>
    simp only [Migrating.step] at hs
    split at hs
    · cases hs
    · obtain rfl := Option.some.inj hs
      have hothers : ∀ k, k ≠ i → s.holder = some k →
          (if s.holder = some i then none else s.holder) = some k := by
        intro k hk hh
        rw [if_neg fun heq => hk (Option.some.inj (hh.symm.trans heq))]
        exact hh
      have hnew : Inv migrate set history ⟨s.tables,if s.holder = some i then none else s.holder,
          s.runners.remove i,s.outcomes ++ []⟩ :=
        h.ended h.tables (fun k hk hh => ⟨hothers k hk hh,rfl⟩) id fun _ o ho => absurd ho List.not_mem_nil
      rwa [List.append_nil] at hnew

theorem inv_of_reachable (hm : MigratesAbove migrate) {table : Option Bookkeeping}
    (hpk : ((readAppliedRows table).map AppliedRow.id).Nodup)
    (h : (runs migrate set table).Reachable s) : Inv migrate set (readAppliedRows table) s := by
  refine h.invariant (Inv migrate set (readAppliedRows table)) ⟨?_,nofun,fun _ => nofun⟩ ?_
  · exact ⟨hpk,List.Subset.refl _,List.nodup_nil,nofun,fun _ => ⟨rfl,rfl⟩,id,fun _ => id⟩
  · intro a l b ha _ hs
    exact ha.step hm hs

/-- What is asked of the runners of a set over a recorded history. -/
structure Converges (set : MigrationSet) (history : List AppliedRow) (s : Migrating) : Prop where
  /-- After a run that succeeded the status has nothing to report, and every row its checksum. -/
  succeeded : ∀ o ∈ s.outcomes, ∀ applied, o.result = .ok applied → UpToDate set o.tables.rows
  /-- A history with unknown or mismatched rows stays as it is. -/
  refused : ¬ Consistent set history → s.tables.rows = history ∧ s.tables.executed = []
  /-- No migration runs twice, or that was recorded before. -/
  once : s.tables.executed.Nodup ∧ ∀ id ∈ s.tables.executed, id ∉ history.map AppliedRow.id
  /-- A run is refused as locked by another holder of the lock only. -/
  locked : ∀ o ∈ s.outcomes, o.result = .error locked → o.holder ≠ none

theorem Inv.converges (h : Inv migrate set history s) (hfine : Agrees set history) :
    Converges set history s :=
  ⟨fun o ho => (h.outcomes hfine o ho).upToDate,h.tables.refused,
    ⟨h.tables.once,fun id hid => (h.tables.fresh id hid).2⟩,fun o ho => (h.outcomes hfine o ho).locked⟩

section Gap
variable {table : Option Bookkeeping}

/-- The one runner of a consistent history, with its transaction over the tables as they were. -/
structure Alone (table : Option Bookkeeping) (phase : RunnerPhase) (s : Migrating) : Prop where
  tables : s.tables = Tables.ensureTable ⟨table,[]⟩
  holder : s.holder = some 0
  runner : s.runners 0 = some ⟨.pg,.transaction,phase⟩

theorem Alone.step (migrate : List Migration → List AppliedRow → List Migration) (set : MigrationSet)
    {phase : RunnerPhase} (h : Alone table phase s) :
    s.step migrate set (.step 0) = s.stepRunner migrate set 0 ⟨.pg,.transaction,phase⟩ := by
  rw [Migrating.step,h.runner]
  rfl

theorem Alone.move {phase : RunnerPhase} (h : Alone table phase s) (phase' : RunnerPhase) :
    Alone table phase' (s.move 0 ⟨.pg,.transaction,phase⟩ phase') :=
  ⟨h.tables,h.holder,Fibers.set_self s.runners 0 ⟨.pg,.transaction,phase'⟩⟩

theorem reachable_step {l : MigratingStep} (h : (runs migrate set table).Reachable s)
    (hs : s.step migrate set l = some s') : (runs migrate set table).Reachable s' :=
  System.Reaches.step h trivial hs

theorem alone_verify (migrate : List Migration → List AppliedRow → List Migration) (set : MigrationSet)
    (table : Option Bookkeeping) : ∃ s, (runs migrate set table).Reachable s ∧ Alone table .verify s := by
  have hreach : (runs migrate set table).Reachable (runs migrate set table).init :=
    Relation.ReflTransGen.refl
  have hstart : (runs migrate set table).init.step migrate set (.start 0 .pg .transaction) = some
      ⟨⟨table,[]⟩,none,Fibers.set Fibers.empty 0 ⟨.pg,.transaction,.ensureTable⟩,[]⟩ := rfl
  have hbegun := reachable_step hreach hstart
  have hensure : Migrating.step migrate set
      ⟨⟨table,[]⟩,none,Fibers.set Fibers.empty 0 ⟨.pg,.transaction,.ensureTable⟩,[]⟩ (.step 0) = some
      (Migrating.move ⟨Tables.ensureTable ⟨table,[]⟩,none,
        Fibers.set Fibers.empty 0 ⟨.pg,.transaction,.ensureTable⟩,[]⟩ 0 ⟨.pg,.transaction,.ensureTable⟩ .lock) := rfl
  have hready := reachable_step hbegun hensure
  exact ⟨_,reachable_step hready (l := .step 0) rfl,rfl,rfl,rfl⟩

theorem alone_rows : (Tables.ensureTable ⟨table,[]⟩).ensureChecksumColumn.rows = readAppliedRows table := by
  rw [ensureChecksumColumn_eq (Option.some_ne_none _)]
  exact ensureTable_rows ⟨table,[]⟩

theorem alone_stamp (migrate : List Migration → List AppliedRow → List Migration)
    (hpk : ((readAppliedRows table).map AppliedRow.id).Nodup)
    (hc : Consistent set (readAppliedRows table)) :
    ∃ s, (runs migrate set table).Reachable s ∧ Alone table
      (.stamp ((Tables.ensureTable ⟨table,[]⟩).ensureChecksumColumn.record
          (migrate set.migrations (readAppliedRows table)))
        (reportOf set (readAppliedRows table)) (migrate set.migrations (readAppliedRows table))) s := by
  obtain ⟨s,hreach,halone⟩ := alone_verify migrate set table
  have hverify : s.step migrate set (.step 0) = some (s.move 0 ⟨.pg,.transaction,.verify⟩
      (.migrate (Tables.ensureTable ⟨table,[]⟩).ensureChecksumColumn
        (reportOf set (readAppliedRows table)))) := by
    rw [halone.step migrate set,Migrating.stepRunner]
    dsimp only
    rw [halone.tables,alone_rows,(consistent_iff hpk).mp hc]
    rfl
  have hnext := reachable_step hreach hverify
  have halone' := halone.move (.migrate (Tables.ensureTable ⟨table,[]⟩).ensureChecksumColumn
        (reportOf set (readAppliedRows table)))
  have hmigrate := halone'.step migrate set
  rw [Migrating.stepRunner] at hmigrate
  dsimp only at hmigrate
  rw [alone_rows] at hmigrate
  exact ⟨_,reachable_step hnext hmigrate,halone'.move _⟩

theorem not_upToDate_of_gap (hm : MigratesAbove migrate) {rows : List AppliedRow}
    (hgap : ¬ Gapless set rows) : ¬ UpToDate set (stampedRows set rows (migrate set.migrations rows)) := by
  intro h
  refine hgap fun m hmem => ?_
  have hrow := pending_eq_nil.mp h.pending m hmem
  rw [← mem_ids,stampedRows_ids,List.mem_append,mem_ids] at hrow
  refine hrow.imp_right fun happlied => ?_
  obtain ⟨n,hn,hid⟩ := List.mem_map.mp happlied
  rw [← hid]
  exact ((mem_applied hm).mp hn).2

theorem exists_not_converges (hm : MigratesAbove migrate)
    (hpk : ((readAppliedRows table).map AppliedRow.id).Nodup)
    (hc : Consistent set (readAppliedRows table)) (hgap : ¬ Gapless set (readAppliedRows table)) :
    ∃ s, (runs migrate set table).Reachable s ∧ ¬ Converges set (readAppliedRows table) s := by
  obtain ⟨s,hreach,halone⟩ := alone_stamp migrate hpk hc
  have hstep := halone.step migrate set
  rw [Migrating.stepRunner] at hstep
  dsimp only at hstep
  split at hstep
  next =>
    refine ⟨_,reachable_step hreach hstep,fun h => ?_⟩
    exact h.locked ⟨.error locked,none,s.tables⟩ (List.mem_append_right _ (List.mem_singleton.mpr rfl)) rfl rfl
  next =>
    have hbook : (Tables.ensureTable ⟨table,[]⟩).bookkeeping ≠ none := Option.some_ne_none _
    rw [stampChecksums_record hbook] at hstep
    have hnext := reachable_step hreach hstep
    have halone' := halone.move (.commit (committed set (Tables.ensureTable ⟨table,[]⟩)
      (migrate set.migrations (readAppliedRows table))) (migrate set.migrations (readAppliedRows table)))
    have hcommit := halone'.step migrate set
    rw [Migrating.stepRunner] at hcommit
    refine ⟨_,reachable_step hnext hcommit,fun h => ?_⟩
    have hup := h.succeeded ⟨_,none,committed set (Tables.ensureTable ⟨table,[]⟩)
      (migrate set.migrations (readAppliedRows table))⟩
      (List.mem_append_right _ (List.mem_singleton.mpr rfl)) _ rfl
    refine not_upToDate_of_gap hm hgap ?_
    have hrows : (Tables.ensureTable ⟨table,[]⟩).rows = readAppliedRows table := ensureTable_rows _
    rw [← hrows] at hup ⊢
    exact hup

end Gap

/-- Runners of a set converge, whatever they do, just where the recorded history is one the set refuses
or has no gap. -/
theorem converges_iff (hm : MigratesAbove migrate) (set : MigrationSet) (table : Option Bookkeeping)
    (hpk : ((readAppliedRows table).map AppliedRow.id).Nodup) :
    (∀ s, (runs migrate set table).Reachable s → Converges set (readAppliedRows table) s) ↔
      (Consistent set (readAppliedRows table) → Gapless set (readAppliedRows table)) := by
  constructor
  · intro h hc
    by_contra hgap
    obtain ⟨s,hreach,hnot⟩ := exists_not_converges hm hpk hc hgap
    exact hnot (h s hreach)
  · intro hfine s hreach
    exact (inv_of_reachable hm hpk hreach).converges hfine

def migrateAbove (migrations : List Migration) (rows : List AppliedRow) : List Migration :=
  migrations.filter fun m => rows.all fun r => r.id < m.id

def orders : MigrationSet where
  migrations := [⟨1,"create orders","a"⟩,⟨2,"add customers","b"⟩,⟨3,"index orders","c"⟩]
  ordered := by decide
  positive := by decide

theorem converges_iff_orders :
    (∀ s, (runs migrateAbove orders (some ⟨[⟨1,"create orders",none⟩],true⟩)).Reachable s →
      Converges orders [⟨1,"create orders",none⟩] s) ↔
    (Consistent orders [⟨1,"create orders",none⟩] → Gapless orders [⟨1,"create orders",none⟩]) :=
  converges_iff (fun _ _ => rfl) orders (some ⟨[⟨1,"create orders",none⟩],true⟩) (by decide)

/-- The second migration came with a branch that was merged after the third had run. -/
def merged : Bookkeeping := ⟨[⟨1,"create orders",some "a"⟩,⟨3,"index orders",some "c"⟩],true⟩

/-- A run with nobody else reports that migrations are running already, or leaves one out. -/
theorem merged_not_converges :
    ¬ ∀ s, (runs migrateAbove orders (some merged)).Reachable s → Converges orders merged.rows s := by
  have hpk : ((readAppliedRows (some merged)).map AppliedRow.id).Nodup := by decide
  have hconsistent : Consistent orders merged.rows :=
    (consistent_iff hpk).mpr (inconsistencies_eq_nil.mpr (by decide +kernel))
  have hgap : ¬ Gapless orders merged.rows := by
    unfold Gapless
    decide
  have habove : MigratesAbove migrateAbove := fun _ _ => rfl
  obtain ⟨s,hreach,hnot⟩ := exists_not_converges habove hpk hconsistent hgap
  exact fun h => hnot (h s hreach)

end Migrating
end StructureAi.Migrations

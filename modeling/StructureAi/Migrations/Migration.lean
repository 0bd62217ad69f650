import StructureAi.Foundation.Table

/-! # Migration sets and what is recorded of them

A set is ordered by id when it is made. The bookkeeping table holds a row for each migration
that ran; rows from before the `checksum` column carry none.
-/
namespace StructureAi.Migrations
open StructureAi.Foundation

structure Migration where
  id : ℤ
  name : String
  checksum : String
deriving DecidableEq

/-- A validated, id-ordered collection of migrations. -/
structure MigrationSet where
  migrations : List Migration
  ordered : migrations.Pairwise fun m n => m.id < n.id
  positive : ∀ m ∈ migrations, 1 ≤ m.id

section MakeSet

/-- The problems the loop of `makeSet` lists, with the migrations it has seen, latest first. -/
def problems : List Migration → List Migration → List String
  | _,[] => []
  | seen,m :: rest =>
    (if m.id < 1 then ["migration \"" ++ m.name ++ "\" has invalid id " ++ toString m.id ++
      " (ids are integers >= 1)"] else []) ++
    (match seen.find? fun n => n.id = m.id with
      | some existing => ["duplicate id " ++ toString m.id ++ ": \"" ++ existing.name ++ "\" and \"" ++
          m.name ++ "\""]
      | none => []) ++
    problems (m :: seen) rest

theorem problems_eq_nil {seen migrations : List Migration} (h : problems seen migrations = []) :
    (∀ m ∈ migrations, 1 ≤ m.id) ∧ (∀ m ∈ migrations, ∀ n ∈ seen, n.id ≠ m.id) ∧
      migrations.Pairwise fun m n => m.id ≠ n.id := by
  induction migrations generalizing seen with
  | nil => simp
  | cons m rest ih =>
    rw [problems,List.append_eq_nil_iff,List.append_eq_nil_iff] at h
    obtain ⟨⟨hpos,hdup⟩,hrest⟩ := h
    obtain ⟨hpositive,hseen,hpair⟩ := ih hrest
    have hm : 1 ≤ m.id := by
      by_contra hlt
      rw [if_pos (by omega)] at hpos
      cases hpos
    have hnew : ∀ n ∈ seen, n.id ≠ m.id := by
      cases hfind : seen.find? fun n => n.id = m.id with
      | some existing =>
        rw [hfind] at hdup
        cases hdup
      | none => simpa using hfind
    refine ⟨?_,?_,?_⟩
    · intro n hn
      rcases List.mem_cons.mp hn with rfl | hn
      · exact hm
      · exact hpositive n hn
    · intro k hk n hn
      rcases List.mem_cons.mp hk with rfl | hk
      · exact hnew n hn
      · exact hseen k hk n (List.mem_cons_of_mem _ hn)
    · exact List.pairwise_cons.mpr ⟨fun n hn => hseen n hn m List.mem_cons_self,hpair⟩

theorem orderBy_strict {α : Type*} {f : α → ℤ} {rows : List α} (h : rows.Pairwise fun a b => f a ≠ f b) :
    (orderBy f rows).Pairwise fun a b => f a < f b := by
  have hsorted : (orderBy f rows).Pairwise fun a b => f a ≤ f b := List.pairwise_insertionSort _ _
  have hperm : (orderBy f rows).Perm rows := List.perm_insertionSort _ _
  have hne : (orderBy f rows).Pairwise fun a b => f a ≠ f b :=
    (hperm.pairwise_iff fun {_ _} hab => Ne.symm hab).mpr h
  exact (hsorted.and hne).imp fun h => lt_of_le_of_ne h.1 h.2

def makeSet (migrations : List Migration) : Except (List String) MigrationSet :=
  if h : problems [] migrations = [] then
    .ok ⟨orderBy Migration.id migrations,orderBy_strict (problems_eq_nil h).2.2,fun m hm =>
      (problems_eq_nil h).1 m ((List.perm_insertionSort _ _).mem_iff.mp hm)⟩
  else .error (problems [] migrations)

end MakeSet

structure AppliedRow where
  id : ℤ
  name : String
  checksum : Option String
deriving DecidableEq

structure MigrationRef where
  id : ℤ
  name : String
deriving DecidableEq

structure MismatchedMigration where
  id : ℤ
  name : String
  expected : String
  actual : String
deriving DecidableEq

structure MigrationStatus where
  applied : List MigrationRef
  pending : List MigrationRef
  unknown : List MigrationRef
  mismatched : List MismatchedMigration
deriving DecidableEq

section Report
variable (set : MigrationSet) (rows : List AppliedRow)

/-- The row of an id, the last one where a map is built of them. -/
def recorded (id : ℤ) : Option AppliedRow := rows.reverse.find? fun r => r.id = id

def Migration.ref (m : Migration) : MigrationRef := ⟨m.id,m.name⟩

def AppliedRow.ref (r : AppliedRow) : MigrationRef := ⟨r.id,r.name⟩

def mismatchOf (m : Migration) : Option MismatchedMigration :=
  match (recorded rows m.id).bind AppliedRow.checksum with
  | none => none
  | some actual => if actual ≠ m.checksum then some ⟨m.id,m.name,m.checksum,actual⟩ else none

def reportOf : MigrationStatus where
  applied := (set.migrations.filter fun m => (recorded rows m.id).isSome).map Migration.ref
  pending := (set.migrations.filter fun m => (recorded rows m.id).isNone).map Migration.ref
  unknown := (orderBy AppliedRow.id (rows.filter fun r => set.migrations.all fun m => m.id ≠ r.id)).map
    AppliedRow.ref
  mismatched := set.migrations.filterMap (mismatchOf rows)

/-- The start of a checksum, as messages show it. -/
def shortened (checksum : String) : String := String.ofList (checksum.toList.take 12)

def inconsistencies (report : MigrationStatus) : List String :=
  report.unknown.map (fun m => toString m.id ++ " " ++ m.name ++
    ": recorded in the database but not in this migration set") ++
  report.mismatched.map (fun m => toString m.id ++ " " ++ m.name ++ ": checksum " ++ shortened m.actual ++
    "… recorded, " ++ shortened m.expected ++ "… defined")

variable {set rows}

theorem inconsistencies_eq_nil {report : MigrationStatus} :
    inconsistencies report = [] ↔ report.unknown = [] ∧ report.mismatched = [] := by
  rw [inconsistencies,List.append_eq_nil_iff,List.map_eq_nil_iff,List.map_eq_nil_iff]

theorem recorded_isSome {id : ℤ} : (recorded rows id).isSome = true ↔ ∃ r ∈ rows, r.id = id := by
  rw [recorded,List.find?_isSome]
  simp

theorem recorded_eq_some {id : ℤ} {r : AppliedRow} (hpk : (rows.map AppliedRow.id).Nodup)
    (hr : r ∈ rows) (hid : r.id = id) : recorded rows id = some r := by
  obtain ⟨r',hr'⟩ := Option.isSome_iff_exists.mp (recorded_isSome.mpr ⟨r,hr,hid⟩)
  have hmem : r' ∈ rows := List.mem_reverse.mp (List.mem_of_find?_eq_some hr')
  have hid' : r'.id = id := by simpa using List.find?_some hr'
  rw [hr',List.inj_on_of_nodup_map hpk hmem hr (hid'.trans hid.symm)]

theorem pending_eq_nil : (reportOf set rows).pending = [] ↔
    ∀ m ∈ set.migrations, ∃ r ∈ rows, r.id = m.id := by
  simp only [reportOf,List.map_eq_nil_iff,List.filter_eq_nil_iff]
  refine forall_congr' fun m => imp_congr_right fun _ => ?_
  rw [← recorded_isSome,Option.isNone_iff_eq_none,Option.isSome_iff_ne_none]

theorem unknown_eq_nil : (reportOf set rows).unknown = [] ↔
    ∀ r ∈ rows, ∃ m ∈ set.migrations, m.id = r.id := by
  have hlen : orderBy AppliedRow.id (rows.filter fun r => set.migrations.all fun m => m.id ≠ r.id) = [] ↔
      (rows.filter fun r => set.migrations.all fun m => m.id ≠ r.id) = [] := by
    rw [← List.length_eq_zero_iff,← List.length_eq_zero_iff,orderBy,List.length_insertionSort]
  simp only [reportOf,List.map_eq_nil_iff]
  rw [hlen,List.filter_eq_nil_iff]
  refine forall_congr' fun r => imp_congr_right fun _ => ?_
  simp

theorem mismatched_eq_nil (hpk : (rows.map AppliedRow.id).Nodup) : (reportOf set rows).mismatched = [] ↔
    ∀ m ∈ set.migrations, ∀ r ∈ rows, r.id = m.id → r.checksum = none ∨ r.checksum = some m.checksum := by
  simp only [reportOf,List.filterMap_eq_nil_iff]
  refine forall_congr' fun m => imp_congr_right fun _ => ?_
  unfold mismatchOf
  constructor
  · intro h r hr hid
    rw [recorded_eq_some hpk hr hid] at h
    cases hc : r.checksum with
    | none => exact Or.inl rfl
    | some actual =>
      right
      rw [Option.bind_some,hc] at h
      by_contra hne
      dsimp only at h
      rw [if_pos fun heq => hne (congrArg some heq)] at h
      cases h
  · intro h
    cases hrec : recorded rows m.id with
    | none => rfl
    | some r =>
      have hr : r ∈ rows := List.mem_reverse.mp (List.mem_of_find?_eq_some hrec)
      have hid : r.id = m.id := by simpa using List.find?_some hrec
      rcases h r hr hid with hc | hc
      · rw [Option.bind_some,hc]
      · rw [Option.bind_some,hc]
        exact if_neg fun hne => hne rfl

end Report
end StructureAi.Migrations

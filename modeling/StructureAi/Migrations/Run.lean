import StructureAi.Foundation.Fibers
import StructureAi.Foundation.Run
import StructureAi.Migrations.Migration

/-! # Runners of one migration set

What a runner does under the lock is read, verify, apply and stamp, in a transaction: the tables it
works on become the tables at its commit. The migrator that applies and records is code outside of
the package and stays a parameter.
-/
namespace StructureAi.Migrations
open StructureAi.Foundation

structure Bookkeeping where
  rows : List AppliedRow
  checksumColumn : Bool
deriving DecidableEq

/-- The bookkeeping table, if there is one, and the ids of the migrations that have run. -/
structure Tables where
  bookkeeping : Option Bookkeeping
  executed : List ℤ
deriving DecidableEq

def Migration.row (m : Migration) : AppliedRow := ⟨m.id,m.name,none⟩

/-- A table without the checksum column reads as one without checksums, a missing one as empty. -/
def readAppliedRows : Option Bookkeeping → List AppliedRow
  | none => []
  | some b => if b.checksumColumn then b.rows else b.rows.map fun r => {r with checksum := none}

namespace Tables
variable (t : Tables)

def rows : List AppliedRow := readAppliedRows t.bookkeeping

def ensureTable : Tables := {t with bookkeeping := some (t.bookkeeping.getD ⟨[],false⟩)}

def ensureChecksumColumn : Tables := {t with
  bookkeeping := t.bookkeeping.map fun b => ⟨readAppliedRows (some b),true⟩}

/-- The migrator runs the migrations and inserts a row for each. -/
def record (applied : List Migration) : Tables where
  bookkeeping := t.bookkeeping.map fun b =>
    {b with rows := b.rows ++ applied.map Migration.row}
  executed := t.executed ++ applied.map Migration.id

/-- The `UPDATE` of `stampChecksums` for one migration. -/
def stampRow (rows : List AppliedRow) (m : Migration) : List AppliedRow :=
  updateWhere (fun r => r.id = m.id && r.checksum.isNone) (fun r => {r with checksum := some m.checksum}) rows

def stampChecksums (migrations : List Migration) : Tables := {t with
  bookkeeping := t.bookkeeping.map fun b => {b with rows := migrations.foldl stampRow b.rows}}

end Tables

inductive Dialect where
  | pg
  /-- No advisory lock; the write lock of the transaction excludes other runners. -/
  | other
deriving DecidableEq

inductive LockMode where
  | transaction
  | session
deriving DecidableEq

inductive MigrationErrorReason where
  | locked
  | badState
deriving DecidableEq

structure MigrationError where
  reason : MigrationErrorReason
  message : String
deriving DecidableEq

def locked : MigrationError := ⟨.locked,"Migrations already running"⟩

def inconsistent (report : MigrationStatus) : MigrationError where
  reason := .badState
  message := "Database history does not match the migration set:\n" ++
    "\n".intercalate ((inconsistencies report).map fun line => "  - " ++ line)

inductive RunnerPhase where
  | ensureTable
  | lock
  | verify
  | migrate (work : Tables) (before : MigrationStatus)
  | stamp (work : Tables) (before : MigrationStatus) (applied : List Migration)
  | commit (work : Tables) (applied : List Migration)
  /-- Between two attempts of a session runner without an advisory lock, the last one refused by a
  holder of the lock, if there was one. -/
  | retry (holder : Option ℕ)

structure Runner where
  dialect : Dialect
  lock : LockMode
  phase : RunnerPhase

/-- How a run ended: with another holder of the lock, if it was refused by one, and over which tables. -/
structure RunOutcome where
  result : Except MigrationError (List (ℤ × String))
  holder : Option ℕ
  tables : Tables

structure Migrating where
  tables : Tables
  holder : Option ℕ
  runners : Fibers Runner
  outcomes : List RunOutcome

inductive MigratingStep where
  | start (i : ℕ) (dialect : Dialect) (lock : LockMode)
  | step (i : ℕ)
  /-- `lock_timeout` expires. -/
  | timeOut (i : ℕ)
  | retry (i : ℕ)
  /-- `waitFor` has elapsed. -/
  | giveUp (i : ℕ)
  /-- A failed statement or migration, an interruption or a crash, at any point. -/
  | abort (i : ℕ)

namespace Migrating
variable (migrate : List Migration → List AppliedRow → List Migration) (set : MigrationSet) (s : Migrating)

def move (i : ℕ) (r : Runner) (phase : RunnerPhase) : Migrating :=
  {s with runners := s.runners.set i {r with phase := phase}}

/-- The run of runner `i` is over. -/
def finish (i : ℕ) (result : Except MigrationError (List (ℤ × String))) (holder : Option ℕ) : Migrating :=
  {s with runners := s.runners.remove i, outcomes := s.outcomes ++ [⟨result,holder,s.tables⟩]}

/-- An attempt ends with `locked`, which a session runner without an advisory lock tries again. -/
def refused (i : ℕ) (r : Runner) (holder : Option ℕ) : Migrating :=
  match r.dialect,r.lock with
  | .other,.session => s.move i r (.retry holder)
  | _,_ => s.finish i (.error locked) holder

/-- The transaction of the lock's holder is over. -/
def release : Migrating := {s with holder := none}

/-- The next statement of a runner; one that waits for the lock is not enabled. -/
def stepRunner (i : ℕ) (r : Runner) : Option Migrating :=
  match r.phase with
  | .ensureTable => some ({s with tables := s.tables.ensureTable}.move i r .lock)
  | .lock =>
    match s.holder with
    | none => some ({s with holder := some i}.move i r .verify)
    | some j =>
      match r.dialect,r.lock with
      | .pg,.session => none
      | _,_ => some (s.refused i r (some j))
  | .verify =>
    let work := s.tables.ensureChecksumColumn
    let before := reportOf set work.rows
    if (inconsistencies before).length > 0 then
      some (s.release.finish i (.error (inconsistent before)) none)
    else some (s.move i r (.migrate work before))
  | .migrate work before =>
    let applied := migrate set.migrations work.rows
    some (s.move i r (.stamp (work.record applied) before applied))
  | .stamp work before applied =>
    if before.pending.length > 0 ∧ applied.length = 0 then some (s.release.refused i r none)
    else some (s.move i r (.commit (work.stampChecksums set.migrations) applied))
  | .commit work applied =>
    some ({s.release with tables := work}.finish i (Except.ok (applied.map fun m : Migration => (m.id,m.name))) none)
  | .retry _ => none

def step : MigratingStep → Option Migrating
  | .start i dialect lock =>
    if s.runners i = none then some {s with runners := s.runners.set i ⟨dialect,lock,.ensureTable⟩} else none
  | .step i => (s.runners i).bind fun r => s.stepRunner migrate set i r
  | .timeOut i =>
    match s.runners i,s.holder with
    | some ⟨.pg,.session,.lock⟩,some j => some (s.finish i (.error locked) (some j))
    | _,_ => none
  | .retry i =>
    match s.runners i with
    | some ⟨dialect,lock,.retry _⟩ => some (s.move i ⟨dialect,lock,.retry none⟩ .lock)
    | _ => none
  | .giveUp i =>
    match s.runners i with
    | some ⟨_,_,.retry holder⟩ => some (s.finish i (.error locked) holder)
    | _ => none
  | .abort i =>
    if s.runners i = none then none
    else some {s with
      runners := s.runners.remove i
      holder := if s.holder = some i then none else s.holder}

def runs (table : Option Bookkeeping) : System Migrating MigratingStep :=
  ⟨⟨⟨table,[]⟩,none,Fibers.empty,[]⟩,fun s l => s.step migrate set l⟩

end Migrating

/-- The migrator applies, in order, the migrations above the highest recorded id. -/
def MigratesAbove (migrate : List Migration → List AppliedRow → List Migration) : Prop :=
  ∀ migrations rows, migrate migrations rows = migrations.filter fun m => rows.all fun r => r.id < m.id

section History
variable (set : MigrationSet)

/-- Nothing recorded is unknown to the set or mismatched. -/
structure Consistent (rows : List AppliedRow) : Prop where
  known : ∀ r ∈ rows, ∃ m ∈ set.migrations, m.id = r.id
  checksums : ∀ m ∈ set.migrations, ∀ r ∈ rows, r.id = m.id →
    r.checksum = none ∨ r.checksum = some m.checksum

/-- What is not recorded comes after all that is. -/
def Gapless (rows : List AppliedRow) : Prop :=
  ∀ m ∈ set.migrations, (∃ r ∈ rows, r.id = m.id) ∨ ∀ r ∈ rows, r.id < m.id

/-- What a status reports after a run that succeeded. -/
structure UpToDate (rows : List AppliedRow) : Prop where
  pending : (reportOf set rows).pending = []
  unknown : (reportOf set rows).unknown = []
  mismatched : (reportOf set rows).mismatched = []
  checksums : ∀ m ∈ set.migrations, ∃ r ∈ rows, r.id = m.id ∧ r.checksum = some m.checksum

variable {set} {rows : List AppliedRow}

theorem consistent_iff (hpk : (rows.map AppliedRow.id).Nodup) :
    Consistent set rows ↔ inconsistencies (reportOf set rows) = [] := by
  rw [inconsistencies_eq_nil,unknown_eq_nil,mismatched_eq_nil hpk]
  exact ⟨fun h => ⟨h.known,h.checksums⟩,fun h => ⟨h.1,h.2⟩⟩

theorem MigrationSet.eq_of_id (set : MigrationSet) {m n : Migration} (hm : m ∈ set.migrations)
    (hn : n ∈ set.migrations) (h : m.id = n.id) : m = n := by
  have hnodup : (set.migrations.map Migration.id).Nodup :=
    List.pairwise_map.mpr (set.ordered.imp fun h => h.ne)
  exact List.inj_on_of_nodup_map hnodup hm hn h

end History

end StructureAi.Migrations

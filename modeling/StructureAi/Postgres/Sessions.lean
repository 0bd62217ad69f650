import StructureAi.Foundation.Fibers
import StructureAi.Foundation.Run
import StructureAi.Postgres.EventStore

/-! # Sessions of the PostgreSQL event store

Sessions over one database take their statements in any order. A statement reads what is
committed and what its own transaction has written. An append runs under a savepoint of its
unit of work, a plain one in a unit of its own; locks are held to the end of the transaction,
or to the rollback of the savepoint they were taken under.
-/
namespace StructureAi.Postgres
open StructureAi.Foundation StructureAi.EventSourcing

/-- The uniqueness constraints of the events table, in the order their indexes are looked up. -/
inductive EventsConstraint where
  | primaryKey
  | streamVersion
deriving DecidableEq

/-- How an insert into the events table fails. -/
inductive InsertError where
  /-- Code `23505`, with the events table as its table. -/
  | unique (c : EventsConstraint)
  | column (e : SqlError)
deriving DecidableEq

/-- The code and the table are all that is looked at. -/
def isEventsVersionConflict : InsertError → Bool
  | .unique _ => true
  | .column _ => false

section Rows
variable (jsonb : String → Option String)

/-- The row of an event, its column types checked. -/
def eventRow (position : ℤ) (streamName : String) (version : ℤ) (event : AppendEvent) :
    Except SqlError EventRow :=
  match jsonb (jsonText event.payload),jsonb (jsonText event.metadata.toJson) with
  | some payload,some metadata =>
    if event.schemaVersion < -maxPgInteger - 1 ∨ maxPgInteger < event.schemaVersion then
      .error .integerOutOfRange
    else .ok ⟨position,streamName,version,event.type,event.schemaVersion,payload,metadata,
      arrowText metadata "partition"⟩
  | _,_ => .error .invalidJson

def violated (rows : List EventRow) (row : EventRow) : Option EventsConstraint :=
  if rows.any (fun r => r.position = row.position) then some .primaryKey
  else if rows.any (fun r => r.streamName = row.streamName ∧ r.version = row.version) then
    some .streamVersion
  else none

/-- An insert, by the constraint it may violate. -/
def insertInto (rows : List EventRow) (position : ℤ) (streamName : String) (version : ℤ)
    (event : AppendEvent) : Except InsertError EventRow :=
  match eventRow jsonb position streamName version event with
  | .error e => .error (.column e)
  | .ok row =>
    match violated rows row with
    | some c => .error (.unique c)
    | none => .ok row

end Rows

structure AppendCall where
  streamName : String
  expectedVersion : ℤ
  events : List AppendEvent

/-- The statement an append is about to run. -/
inductive AppendPhase where
  /-- The unit runs no append. -/
  | idle
  | lockStream (c : AppendCall)
  | checkErased (c : AppendCall)
  | checkVersion (c : AppendCall)
  | serializeCommitOrder (c : AppendCall)
  /-- `nextval` for the event after the first `done` ones. -/
  | nextval (c : AppendCall) (done : ℕ)
  | insert (c : AppendCall) (done : ℕ) (position : ℤ)
  /-- Rolled back after a violation that counts as a conflict. -/
  | currentVersion (c : AppendCall) (v : EventsConstraint)

/-- A transaction of appends. -/
structure WorkUnit where
  phase : AppendPhase
  /-- Written and not committed. -/
  rows : List EventRow
  /-- What it had written at the savepoint of the running append. -/
  saved : List EventRow
  /-- The locks taken since the savepoint. -/
  tookStream : Option ℤ
  tookOrder : Bool
  tookTable : Bool

inductive ImportPhase where
  | lockTables (batch : HistoryImportBatch) (eventIds : List String) (lastPosition : ℤ)
  | body (batch : HistoryImportBatch) (eventIds : List String) (lastPosition : ℤ)
  /-- The rows the body inserted, and what it left of the tables of imports. -/
  | commit (rows : List EventRow) (written : Database)
  /-- After the commit, outside of the transaction. -/
  | setval

inductive Session where
  | unit (u : WorkUnit)
  | importing (phase : ImportPhase)

structure Locks where
  /-- The holder of a stream's advisory lock, by the hash of its name. -/
  stream : ℤ → Option ℕ
  /-- The holder of the advisory lock of the events table. -/
  order : Option ℕ
  /-- The holder of the table locks of an import. -/
  exclusive : Option ℕ
  /-- The sessions that have inserted into the events table, which excludes an import. -/
  writers : Finset ℕ

namespace Locks

def none : Locks := ⟨fun _ => .none,.none,.none,∅⟩

variable (locks : Locks)

def dropHolder (i : ℕ) (holder : Option ℕ) : Option ℕ := if holder = some i then .none else holder

def release (i : ℕ) : Locks where
  stream key := dropHolder i (locks.stream key)
  order := dropHolder i locks.order
  exclusive := dropHolder i locks.exclusive
  writers := locks.writers.erase i

/-- The locks after the rollback to a savepoint. -/
def releaseTook (i : ℕ) (u : WorkUnit) : Locks where
  stream key := if u.tookStream = some key then .none else locks.stream key
  order := if u.tookOrder then .none else locks.order
  exclusive := locks.exclusive
  writers := if u.tookTable then locks.writers.erase i else locks.writers

end Locks

/-- The answer of an append, with what its session saw of the database then. -/
structure AppendAnswer where
  call : AppendCall
  outcome : Except StoreFailure AppendResult
  /-- The violation the answer stands for. -/
  violation : Option EventsConstraint
  view : Database

structure Cluster where
  db : Database
  locks : Locks
  sessions : Fibers Session
  answers : List AppendAnswer

inductive ClusterStep where
  | start (i : ℕ)
  | append (i : ℕ) (c : AppendCall)
  /-- The next statement of a session. -/
  | statement (i : ℕ)
  /-- A failure of the running append that is none of the events table's constraints. -/
  | fail (i : ℕ)
  | commit (i : ℕ)
  /-- The end of a session at any point, its transaction rolled back. -/
  | abort (i : ℕ)
  | importBatch (i : ℕ) (batch : HistoryImportBatch) (decoder : HistoryEventDecoder)

namespace WorkUnit

def opened : WorkUnit := ⟨.idle,[],[],none,false,false⟩

variable (u : WorkUnit)

def moved (phase : AppendPhase) : WorkUnit := {u with phase := phase}

/-- A savepoint and the first statement of an append. -/
def savepoint (c : AppendCall) : WorkUnit := ⟨.lockStream c,u.rows,u.rows,none,false,false⟩

def rollback (phase : AppendPhase) : WorkUnit := ⟨phase,u.saved,u.saved,none,false,false⟩

end WorkUnit

namespace Cluster
variable (jsonb : String → Option String) (p : ImportPrimitives) (hashtext : String → ℤ) (s : Cluster)

/-- What a session that has written `rows` sees. -/
def view (rows : List EventRow) : Database := {s.db with events := s.db.events ++ rows}

def put (i : ℕ) (u : WorkUnit) : Cluster := {s with sessions := s.sessions.set i (.unit u)}

def answer (c : AppendCall) (outcome : Except StoreFailure AppendResult) (v : Option EventsConstraint)
    (rows : List EventRow) : Cluster := {s with answers := s.answers ++ [⟨c,outcome,v,s.view rows⟩]}

/-- The running append answers, and its unit keeps what it wrote. -/
def succeed (i : ℕ) (u : WorkUnit) (c : AppendCall) (result : AppendResult) : Cluster :=
  (s.put i (u.moved .idle)).answer c (.ok result) none u.rows

def rollback (i : ℕ) (u : WorkUnit) (phase : AppendPhase) : Cluster :=
  {s.put i (u.rollback phase) with locks := s.locks.releaseTook i u}

/-- The running append is rolled back and fails. -/
def refuse (i : ℕ) (u : WorkUnit) (c : AppendCall) (failure : StoreFailure) : Cluster :=
  (s.rollback i u .idle).answer c (.error failure) none u.saved

/-- The next statement of an append. A statement that waits for a lock is not enabled. -/
def appendStatement (i : ℕ) (u : WorkUnit) : Option Cluster :=
  match u.phase with
  | .idle => none
  | .lockStream c =>
    let key := hashtext c.streamName
    match s.locks.stream key with
    | none => some {s.put i {u with phase := .checkErased c, tookStream := some key} with
        locks := {s.locks with stream := Function.update s.locks.stream key (some i)}}
    | some j => if j = i then some (s.put i (u.moved (.checkErased c))) else none
  | .checkErased c =>
    match s.db.erasedStreams.find? fun r => r.streamName = c.streamName with
    | some erased => some (s.refuse i u c (.concurrencyConflict
        (conflict c.streamName c.expectedVersion erased.lastVersion)))
    | none => some (s.put i (u.moved (.checkVersion c)))
  | .checkVersion c =>
    let actualVersion := (s.view u.rows).currentVersion c.streamName
    if actualVersion ≠ c.expectedVersion then
      some (s.refuse i u c (.concurrencyConflict
        (conflict c.streamName c.expectedVersion actualVersion)))
    else if c.events = [] then some (s.succeed i u c ⟨actualVersion,actualVersion⟩)
    else some (s.put i (u.moved (.serializeCommitOrder c)))
  | .serializeCommitOrder c =>
    match s.locks.order with
    | none => some {s.put i {u with phase := .nextval c 0, tookOrder := true} with
        locks := {s.locks with order := some i}}
    | some j => if j = i then some (s.put i (u.moved (.nextval c 0))) else none
  | .nextval c done =>
    if done = c.events.length then
      some (s.succeed i u c ⟨c.expectedVersion + 1,c.expectedVersion + c.events.length⟩)
    else if s.locks.exclusive ≠ none then none
    else
      let position := s.db.sequence + 1
      some {s.put i {u with
          phase := .insert c done position, tookTable := u.tookTable || decide (i ∉ s.locks.writers)} with
        db := {s.db with sequence := position}
        locks := {s.locks with writers := insert i s.locks.writers}}
  | .insert c done position =>
    c.events[done]?.map fun event =>
      match insertInto jsonb (s.db.events ++ u.rows) position c.streamName
          (c.expectedVersion + done + 1) event with
      | .ok row => s.put i {u with phase := .nextval c (done + 1), rows := u.rows ++ [row]}
      | .error e =>
        match isEventsVersionConflict e,e with
        | true,.unique v => s.rollback i u (.currentVersion c v)
        | _,_ => s.refuse i u c (.persistence ⟨"EventStore"⟩)
  | .currentVersion c v =>
    some ((s.put i (u.moved .idle)).answer c (.error (.concurrencyConflict (conflict c.streamName
      c.expectedVersion ((s.view u.rows).currentVersion c.streamName)))) (some v) u.rows)

def running : AppendPhase → Option AppendCall
  | .idle => none
  | .lockStream c | .checkErased c | .checkVersion c | .serializeCommitOrder c | .nextval c _
  | .insert c _ _ | .currentVersion c _ => some c

def importStatement (i : ℕ) : ImportPhase → Option Cluster
  | .lockTables batch eventIds lastPosition =>
    if s.locks.exclusive = none ∧ s.locks.writers = ∅ then
      some {s with
        sessions := s.sessions.set i (.importing (.body batch eventIds lastPosition))
        locks := {s.locks with exclusive := some i}}
    else none
  | .body batch eventIds lastPosition =>
    match Database.importBody jsonb batch eventIds lastPosition
        (historyImportResumeToken p batch lastPosition) s.db with
    | (written,.ok _) => some {s with
        sessions := s.sessions.set i
          (.importing (.commit (written.events.drop s.db.events.length) written))}
    | (_,.error _) => some {s with sessions := s.sessions.remove i, locks := s.locks.release i}
  | .commit rows written => some {s with
      db := {s.db with
        events := s.db.events ++ rows
        historyImports := written.historyImports
        historyImportBatches := written.historyImportBatches}
      locks := s.locks.release i
      sessions := s.sessions.set i (.importing .setval)}
  | .setval => some {s with db := s.db.realign, sessions := s.sessions.remove i}

def step : ClusterStep → Option Cluster
  | .start i => if s.sessions i = none then some (s.put i .opened) else none
  | .append i c =>
    match s.sessions i with
    | some (.unit u) => match u.phase with
      | .idle => some (s.put i (u.savepoint c))
      | _ => none
    | _ => none
  | .statement i =>
    match s.sessions i with
    | some (.unit u) => s.appendStatement jsonb hashtext i u
    | some (.importing phase) => s.importStatement jsonb p i phase
    | none => none
  | .fail i =>
    match s.sessions i with
    | some (.unit u) => (running u.phase).map fun c => s.refuse i u c (.persistence ⟨"EventStore"⟩)
    | _ => none
  | .commit i =>
    match s.sessions i with
    | some (.unit u) => match u.phase with
      | .idle => some {s with
          db := s.view u.rows, locks := s.locks.release i, sessions := s.sessions.remove i}
      | _ => none
    | _ => none
  | .abort i =>
    if s.sessions i = none then none
    else some {s with locks := s.locks.release i, sessions := s.sessions.remove i}
  | .importBatch i batch decoder =>
    if s.sessions i = none then
      match prepareHistoryImportBatch p batch decoder,batch.events.getLast? with
      | .ok eventIds,some lastEvent => some {s with
          sessions := s.sessions.set i (.importing (.lockTables batch eventIds lastEvent.position))}
      | _,_ => none
    else none

def runs (db : Database) : System Cluster ClusterStep :=
  ⟨⟨db,Locks.none,Fibers.empty,[]⟩,fun s l => s.step jsonb p hashtext l⟩

end Cluster

section Insert
variable (jsonb : String → Option String)

theorem insertRow_eq (db : Database) (position : ℤ) (streamName : String) (version : ℤ)
    (event : AppendEvent) : db.insertRow jsonb position streamName version event =
    match insertInto jsonb db.events position streamName version event with
    | .ok row => ({db with events := db.events ++ [row]},.ok ())
    | .error (.unique _) => (db,.error .uniqueEvents)
    | .error (.column e) => (db,.error e) := by
  have hany : db.events.any (fun r => r.position = position ∨
      (r.streamName = streamName ∧ r.version = version)) =
      (db.events.any (fun r => r.position = position) ||
        db.events.any fun r => r.streamName = streamName ∧ r.version = version) := by
    rw [Bool.eq_iff_iff]
    simp only [Bool.or_eq_true,List.any_eq_true,decide_eq_true_eq]
    grind
  unfold Database.insertRow insertInto eventRow violated
  cases jsonb (jsonText event.payload) with
  | none => rfl
  | some payload =>
    cases jsonb (jsonText event.metadata.toJson) with
    | none => rfl
    | some metadata =>
      dsimp only
      rw [hany]
      by_cases hrange : event.schemaVersion < -maxPgInteger - 1 ∨ maxPgInteger < event.schemaVersion
      · rw [if_pos hrange,if_pos hrange]
      · rw [if_neg hrange,if_neg hrange]
        dsimp only
        cases db.events.any (fun r => r.position = position) with
        | true => rfl
        | false => cases db.events.any (fun r => r.streamName = streamName ∧ r.version = version) <;> rfl

end Insert
end StructureAi.Postgres

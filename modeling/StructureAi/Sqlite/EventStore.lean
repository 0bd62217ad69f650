import StructureAi.Foundation.Table
import StructureAi.EventSourcing.EventLog

/-! # The SQLite event store

The tables are lists of rows, JSON columns hold text, and `AUTOINCREMENT` is the
largest position ever given. A transaction body returns the new tables or fails,
and a failed one leaves the tables as they were, the counter included. What the
engine and its driver take is a parameter.
-/
namespace StructureAi.Sqlite
open StructureAi.Foundation StructureAi.EventSourcing

structure EventRow where
  position : ℤ
  streamName : String
  version : ℤ
  type : String
  schemaVersion : ℤ
  payload : String
  metadata : String
deriving DecidableEq

structure ErasedStreamRow where
  streamName : String
  lastVersion : ℤ
  erasedAt : String
  reason : String
deriving DecidableEq

structure SnapshotRow where
  streamName : String
  state : String
  version : ℤ
deriving DecidableEq

structure Database where
  events : List EventRow := []
  /-- The `sqlite_sequence` entry of the events table. -/
  sequence : ℤ := 0
  erasedStreams : List ErasedStreamRow := []
  snapshots : List SnapshotRow := []
deriving DecidableEq

/-- An `INSERT` into the events violates the constraint on `(stream_name, version)`, or the index on the
partition cannot read the metadata. -/
inductive SqlError where
  | uniqueVersion
  | malformedJson
deriving DecidableEq

/-- What an engine takes of the statements that its driver sends. -/
structure Engine where
  /-- Whether `json_extract` reads the text of a document. -/
  reads : Json → Bool
  /-- The integer that a `bigint` parameter carries, if the driver takes it. -/
  bind : ℤ → Option ℤ
  /-- Whether a `LIMIT` may be so large. -/
  limits : ℕ → Bool
  /-- Whether a statement may have so many parameters. -/
  parameters : ℕ → Bool

def Engine.unlimited : Engine := ⟨fun _ => true,some,fun _ => true,fun _ => true⟩

/-- SQLite with its default limits; what the driver makes of larger integers is its own. -/
def sqlite3 (bind : ℤ → Option ℤ) : Engine where
  reads document := document.depth ≤ 1000
  bind
  limits n := n < 2 ^ 63
  parameters n := n ≤ 32766

/-- Whether the engine takes the query of `readAll`. -/
def Engine.takesQuery (engine : Engine) (partitions : Option (List String)) (batchSize : Option ℕ) : Bool :=
  engine.parameters (1 + (partitions.getD []).length + batchSize.toList.length) && batchSize.all engine.limits

/-- What a transaction body fails with. -/
inductive TxFailure where
  | sql (e : SqlError)
  | store (e : StoreFailure)
deriving DecidableEq

/-- Runs a body and keeps its tables only if it succeeds. -/
def withTransaction {A : Type} (db : Database) (body : Except TxFailure (Database × A)) :
    Database × Except TxFailure A :=
  match body with
  | .ok (db',a) => (db',.ok a)
  | .error e => (db,.error e)

def jsonText (v : Json) : String := Json.stringify v

/-- `json_extract(text, '$.name')` where it is text: a string, or the text of an array or object. -/
def jsonExtract (text : String) (name : String) : Option String :=
  match (Json.parse text).bind fun v => v.get name with
  | some (.str s) => some s
  | some (.arr vs) => some (Json.stringify (.arr vs))
  | some (.obj ms) => some (Json.stringify (.obj ms))
  | _ => none

def decodeEvent (row : EventRow) : Option StoredEvent := do
  return {
    position := row.position
    streamName := row.streamName
    version := row.version
    type := row.type
    schemaVersion := row.schemaVersion
    payload := ← Json.parse row.payload
    metadata := ← (Json.parse row.metadata).bind StoredEventMetadata.ofJson }

def decodeEvents (rows : List EventRow) : Except StoreFailure (List StoredEvent) :=
  match rows.mapM decodeEvent with
  | some events => .ok events
  | none => .error (.persistence ⟨"events.decode"⟩)

namespace Database
variable (engine : Engine) (db : Database)

def currentVersion (streamName : String) : ℤ :=
  (maxOf EventRow.version (db.events.filter fun r => r.streamName = streamName)).getD 0

def insertEvent (streamName : String) (version : ℤ) (event : AppendEvent) : Except SqlError Database :=
  if !engine.reads event.metadata.toJson then .error .malformedJson
  else if db.events.any (fun r => r.streamName = streamName ∧ r.version = version) then .error .uniqueVersion
  else
    let position := db.sequence + 1
    .ok {db with
      events := db.events ++ [⟨position,streamName,version,event.type,event.schemaVersion,
        jsonText event.payload,jsonText event.metadata.toJson⟩]
      sequence := position}

/-- Inserts the events at the versions after `version`, one statement each. -/
def insertEvents (streamName : String) : ℤ → List AppendEvent → Database → Except SqlError Database
  | _,[],db => .ok db
  | version,event :: events,db =>
    match db.insertEvent engine streamName (version + 1) event with
    | .error e => .error e
    | .ok db' => insertEvents streamName (version + 1) events db'

def appendBody (streamName : String) (expectedVersion : ℤ) (events : List AppendEvent) :
    Except TxFailure (Database × AppendResult) :=
  match db.erasedStreams.find? fun r => r.streamName = streamName with
  | some erased =>
    .error (.store (.concurrencyConflict (conflict streamName expectedVersion erased.lastVersion)))
  | none =>
    let actualVersion := db.currentVersion streamName
    if actualVersion ≠ expectedVersion then
      .error (.store (.concurrencyConflict (conflict streamName expectedVersion actualVersion)))
    else match db.insertEvents engine streamName expectedVersion events with
      | .error e => .error (.sql e)
      | .ok db' => .ok (db',if events = [] then ⟨actualVersion,actualVersion⟩
          else ⟨expectedVersion + 1,expectedVersion + events.length⟩)

/-- A violated version constraint becomes a conflict at the version read after the rollback. -/
def append (streamName : String) (expectedVersion : ℤ) (events : List AppendEvent) :
    Database × Except StoreFailure AppendResult :=
  match withTransaction db (db.appendBody engine streamName expectedVersion events) with
  | (db',.ok result) => (db',.ok result)
  | (db',.error (.store e)) => (db',.error e)
  | (db',.error (.sql .uniqueVersion)) => (db',.error (.concurrencyConflict
      (conflict streamName expectedVersion (db'.currentVersion streamName))))
  | (db',.error (.sql .malformedJson)) => (db',.error (.persistence ⟨"EventStore"⟩))

def read (streamName : String) (fromVersion : Option ℤ) : Except StoreFailure (List StoredEvent) :=
  decodeEvents (orderBy EventRow.version (db.events.filter fun r =>
    r.streamName = streamName ∧ r.version ≥ fromVersion.getD 1))

/-- The `partitionFilter` clause of a `readAll` query. -/
def partitionFilter : Option (List String) → EventRow → Bool
  | none,_ => true
  | some [],_ => false
  | some partitions,row => (jsonExtract row.metadata "partition").any fun p => p ∈ partitions

def readAll (options : ReadAllOptions) : Except StoreFailure (List StoredEvent) :=
  let partitions := readAllPartitions options.partition
  match engine.bind (options.fromPosition.getD 1) with
  | none => .error (.persistence ⟨"EventStore"⟩)
  | some fromPosition =>
    if engine.takesQuery partitions options.batchSize then
      let rows := orderBy EventRow.position (db.events.filter fun r =>
        r.position ≥ fromPosition && partitionFilter partitions r)
      match options.batchSize with
      | none => decodeEvents rows
      | some batchSize => decodeEvents (rows.take batchSize)
    else .error (.persistence ⟨"EventStore"⟩)

/-- The `SET` clause that writes a tombstone over a row; its metadata is flat, so that the index reads it. -/
def setTombstone (tombstone : AppendEvent) (row : EventRow) : EventRow := {row with
  type := tombstone.type
  schemaVersion := tombstone.schemaVersion
  payload := jsonText tombstone.payload
  metadata := jsonText tombstone.metadata.toJson}

def updateTombstone (streamName erasedAt : String) (version : ℤ) (db : Database) : Database := {db with
  events := updateWhere (fun r => r.streamName = streamName ∧ r.version = version)
    (setTombstone (erasedTombstone streamName version erasedAt)) db.events}

/-- One `UPDATE` per version from 1 up to the given number. -/
def updateTombstones (streamName erasedAt : String) : ℕ → Database → Database
  | 0,db => db
  | n + 1,db => updateTombstone streamName erasedAt (n + 1) (updateTombstones streamName erasedAt n db)

def eraseBody (request : StreamErasureRequest) (erasedAt : String) :
    Except TxFailure (Database × StreamErasureResult) :=
  match db.erasedStreams.find? fun r => r.streamName = request.streamName with
  | some recorded =>
    if request.expectedVersion ≠ recorded.lastVersion then
      .error (.store (.streamErasure
        (streamErasureConflict request.streamName request.expectedVersion recorded.lastVersion)))
    else .ok (db,⟨0,recorded.lastVersion,recorded.erasedAt,recorded.reason⟩)
  | none =>
    let actualVersion := db.currentVersion request.streamName
    if actualVersion ≠ request.expectedVersion then
      .error (.store (.streamErasure
        (streamErasureConflict request.streamName request.expectedVersion actualVersion)))
    else
      let db := updateTombstones request.streamName erasedAt request.expectedVersion.toNat db
      .ok ({db with
          snapshots := deleteWhere (fun r => r.streamName = request.streamName) db.snapshots
          erasedStreams := db.erasedStreams ++
            [⟨request.streamName,request.expectedVersion,erasedAt,request.reason⟩]},
        ⟨request.expectedVersion,request.expectedVersion,erasedAt,request.reason⟩)

def eraseStream (request : StreamErasureRequest) (erasedAt : String) :
    Database × Except StoreFailure StreamErasureResult :=
  match prepareStreamErasure request with
  | .error e => (db,.error (.streamErasure e))
  | .ok () =>
    match withTransaction db (db.eraseBody request erasedAt) with
    | (db',.ok result) => (db',.ok result)
    | (db',.error (.store e)) => (db',.error e)
    | (db',.error (.sql _)) => (db',.error (.persistence ⟨"StreamEraser"⟩))

def apply : StoreCall → Database × StoreAnswer
  | .append streamName expectedVersion events =>
    ((db.append engine streamName expectedVersion events).1,
      .appended (db.append engine streamName expectedVersion events).2)
  | .eraseStream request erasedAt =>
    ((db.eraseStream request erasedAt).1,.erased (db.eraseStream request erasedAt).2)
  | .read streamName fromVersion => (db,.events (db.read streamName fromVersion))
  | .readAll options => (db,.events (db.readAll engine options))

end Database

/-- The SQLite event store on empty tables, answering calls one after another. -/
def eventStore (engine : Engine) : Machine Database StoreCall StoreAnswer := ⟨{},Database.apply engine⟩

end StructureAi.Sqlite

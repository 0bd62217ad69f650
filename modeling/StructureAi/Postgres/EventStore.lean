import StructureAi.Foundation.Table
import StructureAi.EventSourcing.EventLog

/-! # The PostgreSQL event store

As for SQLite the tables are lists of rows, but the position sequence is not
rolled back with a transaction, JSON columns go through `jsonb`, whose text form
is a parameter, and history imports are supported. A statement is refused where a
parameter does not fit its column: text with U+0000, a number beyond 32 or 64
bits, or too many parameters. Of the rows themselves neither positions nor
versions are bounded.
-/
namespace StructureAi.Postgres
open StructureAi.Foundation StructureAi.EventSourcing

structure EventRow where
  position : ℤ
  streamName : String
  version : ℤ
  type : String
  schemaVersion : ℤ
  /-- The text form of the `jsonb` value. -/
  payload : String
  metadata : String
  /-- Generated from the metadata. -/
  partition : Option String
deriving DecidableEq

structure ErasedStreamRow where
  streamName : String
  lastVersion : ℤ
  erasedAt : String
  reason : String
deriving DecidableEq

structure SnapshotRow where
  streamName : String
  state : String
  version : ℤ
deriving DecidableEq

structure HistoryImportRow where
  importId : String
  resumeToken : String
  lastPosition : ℤ
  complete : Bool
deriving DecidableEq

structure HistoryImportBatchRow where
  importId : String
  batchId : String
  previousToken : Option String
  checksum : String
  complete : Bool
  importedCount : ℕ
  lastPosition : ℤ
  resultToken : String
deriving DecidableEq

structure Database where
  events : List EventRow := []
  historyImports : List HistoryImportRow := []
  historyImportBatches : List HistoryImportBatchRow := []
  erasedStreams : List ErasedStreamRow := []
  snapshots : List SnapshotRow := []
  /-- The last value drawn from the sequence of the position column. -/
  sequence : ℤ := 0
deriving DecidableEq

inductive SqlError where
  /-- `23505` on the events table. -/
  | uniqueEvents
  | invalidJson
  | integerOutOfRange
  | invalidText
deriving DecidableEq

inductive TxFailure where
  | sql (e : SqlError)
  | store (e : StoreFailure)
deriving DecidableEq

/-- A failed body leaves every table as it was, and the sequence where the body left it. -/
def withTransaction {A : Type} (db : Database) (body : Database → Database × Except TxFailure A) :
    Database × Except TxFailure A :=
  match body db with
  | (db',.ok a) => (db',.ok a)
  | (db',.error e) => ({db with sequence := db'.sequence},.error e)

def jsonText (v : Json) : String := Json.stringify v

/-- A text that a parameter can carry. -/
def IsText (s : String) : Prop := '\x00' ∉ s.toList

instance : DecidablePred IsText := fun s => inferInstanceAs (Decidable ('\x00' ∉ s.toList))

def maxPgBigint : ℤ := 2 ^ 63 - 1

/-- The driver's limit for one statement. -/
def maxParameters : ℕ := 65534

/-- `column->>'name'` of a `jsonb` column given by its text form. -/
def arrowText (text : String) (name : String) : Option String :=
  match (Json.parse text).bind fun v => v.get name with
  | none | some .null => none
  | some (.str s) => some s
  | some v => some (Json.stringify v)

def decodeEvent (row : EventRow) : Option StoredEvent := do
  return {
    position := row.position
    streamName := row.streamName
    version := row.version
    type := row.type
    schemaVersion := row.schemaVersion
    payload := ← Json.parse row.payload
    metadata := ← (Json.parse row.metadata).bind StoredEventMetadata.ofJson }

def decodeEvents (rows : List EventRow) : Except StoreFailure (List StoredEvent) :=
  match rows.mapM decodeEvent with
  | some events => .ok events
  | none => .error (.persistence ⟨"events.decode"⟩)

namespace Database
variable (jsonb : String → Option String) (p : ImportPrimitives) (db : Database)

def currentVersion (streamName : String) : ℤ :=
  (maxOf EventRow.version (db.events.filter fun r => r.streamName = streamName)).getD 0

/-- `INSERT INTO events` at a given position, its constraints and column types checked. -/
def insertRow (position : ℤ) (streamName : String) (version : ℤ) (event : AppendEvent) :
    Database × Except SqlError Unit :=
  match jsonb (jsonText event.payload),jsonb (jsonText event.metadata.toJson) with
  | some payload,some metadata =>
    if event.schemaVersion < -maxPgInteger - 1 ∨ maxPgInteger < event.schemaVersion then
      (db,.error .integerOutOfRange)
    else if db.events.any (fun r => r.position = position ∨
        (r.streamName = streamName ∧ r.version = version)) then (db,.error .uniqueEvents)
    else ({db with
      events := db.events ++ [⟨position,streamName,version,event.type,event.schemaVersion,payload,
        metadata,arrowText metadata "partition"⟩]},.ok ())
  | _,_ => (db,.error .invalidJson)

/-- An insert that draws its position from the sequence, unless its parameters are refused. -/
def insertEvent (streamName : String) (version : ℤ) (event : AppendEvent) :
    Database × Except SqlError Unit :=
  if IsText event.type then
    match insertRow jsonb {db with sequence := db.sequence + 1} (db.sequence + 1) streamName version event with
    | (db',.ok ()) => (db',.ok ())
    | (db',.error .uniqueEvents) => (db',.error .uniqueEvents)
    | (_,.error e) => (db,.error e)
  else (db,.error .invalidText)

def insertEvents (streamName : String) : ℤ → List AppendEvent → Database →
    Database × Except SqlError Unit
  | _,[],db => (db,.ok ())
  | version,event :: events,db =>
    match db.insertEvent jsonb streamName (version + 1) event with
    | (db',.error e) => (db',.error e)
    | (db',.ok ()) => insertEvents streamName (version + 1) events db'

def appendBody (streamName : String) (expectedVersion : ℤ) (events : List AppendEvent)
    (db : Database) : Database × Except TxFailure AppendResult :=
  if IsText streamName then
    match db.erasedStreams.find? fun r => r.streamName = streamName with
    | some erased => (db,.error (.store (.concurrencyConflict
        (conflict streamName expectedVersion erased.lastVersion))))
    | none =>
      let actualVersion := db.currentVersion streamName
      if actualVersion ≠ expectedVersion then
        (db,.error (.store (.concurrencyConflict (conflict streamName expectedVersion actualVersion))))
      else match db.insertEvents jsonb streamName expectedVersion events with
        | (db',.error e) => (db',.error (.sql e))
        | (db',.ok ()) => (db',.ok (if events = [] then ⟨actualVersion,actualVersion⟩
            else ⟨expectedVersion + 1,expectedVersion + events.length⟩))
  else (db,.error (.sql .invalidText))

def append (streamName : String) (expectedVersion : ℤ) (events : List AppendEvent) :
    Database × Except StoreFailure AppendResult :=
  match withTransaction db (appendBody jsonb streamName expectedVersion events) with
  | (db',.ok result) => (db',.ok result)
  | (db',.error (.store e)) => (db',.error e)
  | (db',.error (.sql .uniqueEvents)) => (db',.error (.concurrencyConflict
      (conflict streamName expectedVersion (db'.currentVersion streamName))))
  | (db',.error (.sql _)) => (db',.error (.persistence ⟨"EventStore"⟩))

/-- The parameters of `read` fit their columns. -/
def TakesRead (streamName : String) (fromVersion : Option ℤ) : Prop :=
  IsText streamName ∧ -maxPgInteger - 1 ≤ fromVersion.getD 1 ∧ fromVersion.getD 1 ≤ maxPgInteger

instance (streamName : String) (fromVersion : Option ℤ) : Decidable (TakesRead streamName fromVersion) :=
  inferInstanceAs (Decidable (_ ∧ _))

def read (streamName : String) (fromVersion : Option ℤ) : Except StoreFailure (List StoredEvent) :=
  if TakesRead streamName fromVersion then
    decodeEvents (orderBy EventRow.version (db.events.filter fun r =>
      r.streamName = streamName ∧ r.version ≥ fromVersion.getD 1))
  else .error (.persistence ⟨"EventStore"⟩)

/-- `partition IN (…)`, rendered `1=0` for an empty list; NULL never matches. -/
def partitionFilter : Option (List String) → EventRow → Bool
  | none,_ => true
  | some [],_ => false
  | some partitions,row => row.partition.any fun p => p ∈ partitions

/-- The parameters of `readAll` fit their columns, and they are not too many. -/
def TakesReadAll (options : ReadAllOptions) : Prop :=
  -maxPgBigint - 1 ≤ options.fromPosition.getD 1 ∧ options.fromPosition.getD 1 ≤ maxPgBigint ∧
    (∀ s ∈ (readAllPartitions options.partition).getD [], IsText s) ∧ (options.batchSize.getD 0 : ℤ) ≤ maxPgBigint ∧
    1 + ((readAllPartitions options.partition).getD []).length + options.batchSize.toList.length ≤ maxParameters

instance (options : ReadAllOptions) : Decidable (TakesReadAll options) :=
  inferInstanceAs (Decidable (_ ∧ _ ∧ _ ∧ _ ∧ _))

def readAll (options : ReadAllOptions) : Except StoreFailure (List StoredEvent) :=
  let fromPosition := options.fromPosition.getD 1
  let partitions := readAllPartitions options.partition
  if TakesReadAll options then
    let rows := orderBy EventRow.position (db.events.filter fun r =>
      r.position ≥ fromPosition && partitionFilter partitions r)
    match options.batchSize with
    | none => decodeEvents rows
    | some batchSize => decodeEvents (rows.take batchSize)
  else .error (.persistence ⟨"EventStore"⟩)

/-- The target of a batch: the last position, the versions of its streams and those of its event
ids that are taken. -/
def importTarget (batch : HistoryImportBatch) (eventIds : List String) : HistoryImportTarget where
  lastPosition := (maxOf EventRow.position db.events).getD 0
  streamVersions := (batch.events.map (·.streamName)).dedup.foldl (fun versions streamName =>
    match maxOf EventRow.version (db.events.filter fun r => r.streamName = streamName) with
    | some version => versions.insert streamName version
    | none => versions) ∅
  eventIds := (db.events.filterMap fun r => arrowText r.metadata "eventId").filter fun id =>
    id ∈ eventIds

/-- The checks of an import whose batch id is new, up to the continuation check. -/
def sessionCheck (batch : HistoryImportBatch) (target : HistoryImportTarget) :
    Except StoreFailure Unit :=
  match db.historyImports.find? fun r => r.importId = batch.importId with
  | none =>
    if target.lastPosition > 0 then
      .error (historyImportConflict .targetNotEmpty "a new import requires an empty event store")
    else if batch.resumeToken ≠ none then
      .error (historyImportConflict .resumeTokenMismatch
        "the first batch must not include a resume token")
    else .ok ()
  | some session =>
    if session.complete then
      .error (historyImportConflict .importComplete
        ("import " ++ batch.importId ++ " is already complete"))
    else if batch.resumeToken ≠ some session.resumeToken then
      .error (historyImportConflict .resumeTokenMismatch
        ("batch " ++ batch.batchId ++ " does not resume the latest committed batch"))
    else if target.lastPosition ≠ session.lastPosition then
      .error (historyImportConflict .targetNotEmpty
        "the target changed after the latest import batch")
    else .ok ()

/-- The inserts of an import, each at the position of its event. -/
def insertImported : List StoredEvent → Database → Database × Except SqlError Unit
  | [],db => (db,.ok ())
  | event :: events,db =>
    if IsText event.type then
      match db.insertRow jsonb event.position event.streamName event.version event.toAppend with
      | (db',.error e) => (db',.error e)
      | (db',.ok ()) => insertImported events db'
    else (db,.error .invalidText)

/-- The stream names and event ids that a batch is looked up by are parameters. -/
def TakesLookups (batch : HistoryImportBatch) : Prop :=
  (∀ e ∈ batch.events, IsText e.streamName ∧ IsText e.metadata.eventId) ∧ batch.events.length ≤ maxParameters

instance (batch : HistoryImportBatch) : Decidable (TakesLookups batch) :=
  inferInstanceAs (Decidable (_ ∧ _))

/-- Checksums and tokens that get as far as a parameter are digests. -/
def importBody (batch : HistoryImportBatch) (eventIds : List String) (lastPosition : ℤ)
    (resultToken : String) (db : Database) : Database × Except TxFailure HistoryImportResult :=
  if db.erasedStreams.length > 0 then
    (db,.error (.store (historyImportConflict .targetNotEmpty
      "a target with erased streams cannot be imported into")))
  else if ¬(IsText batch.importId ∧ IsText batch.batchId) then (db,.error (.sql .invalidText))
  else
    let complete := batch.complete.getD false
    match db.historyImportBatches.find? fun r =>
      r.importId = batch.importId ∧ r.batchId = batch.batchId with
    | some recorded =>
      if recorded.checksum ≠ batch.checksum ∨ recorded.previousToken ≠ batch.resumeToken ∨
          recorded.complete ≠ complete then
        (db,.error (.store (historyImportConflict .divergentBatch
          ("batch " ++ batch.batchId ++ " was already committed with different content or state"))))
      else (db,.ok ⟨.unchanged,recorded.importedCount,recorded.lastPosition,recorded.resultToken,
        recorded.complete⟩)
    | none =>
      let target := db.importTarget batch eventIds
      if ¬TakesLookups batch then (db,.error (.sql .invalidText))
      else match db.sessionCheck batch target with
        | .error e => (db,.error (.store e))
        | .ok () =>
          match validateHistoryImportContinuation batch.events target with
          | .error e => (db,.error (.store e))
          | .ok () =>
            match db.insertImported jsonb batch.events with
            | (db',.error e) => (db',.error (.sql e))
            | (db',.ok ()) => ({db' with
                historyImports := upsert HistoryImportRow.importId
                  ⟨batch.importId,resultToken,lastPosition,complete⟩ db'.historyImports
                historyImportBatches := db'.historyImportBatches ++ [⟨batch.importId,batch.batchId,
                  batch.resumeToken,batch.checksum,complete,batch.events.length,lastPosition,
                  resultToken⟩]},
              .ok ⟨.imported,batch.events.length,lastPosition,resultToken,complete⟩)

/-- `setval(sequence, max(position), true)`, which an empty table leaves alone. -/
def realign : Database := {db with sequence := (maxOf EventRow.position db.events).getD db.sequence}

def importBatch (batch : HistoryImportBatch) (decoder : HistoryEventDecoder) :
    Database × Except StoreFailure HistoryImportResult :=
  match prepareHistoryImportBatch p batch decoder,batch.events.getLast? with
  | .error e,_ => (db,.error e)
  | .ok _,none => (db,.error (.defect "validated batch has no events"))
  | .ok eventIds,some lastEvent =>
    let resultToken := historyImportResumeToken p batch lastEvent.position
    match withTransaction db (importBody jsonb batch eventIds lastEvent.position resultToken) with
    | (db',.ok result) => (db'.realign,.ok result)
    | (db',.error (.store e)) => (db',.error e)
    | (db',.error (.sql _)) => (db',.error (.persistence ⟨"EventStore"⟩))

/-- The `SET` clause that writes a tombstone over a row. -/
def setTombstone (tombstone : AppendEvent) (payload metadata : String) (row : EventRow) : EventRow :=
  {row with
    type := tombstone.type
    schemaVersion := tombstone.schemaVersion
    payload := payload
    metadata := metadata
    partition := arrowText metadata "partition"}

def updateTombstone (streamName erasedAt : String) (version : ℤ) (db : Database) :
    Except SqlError Database :=
  let tombstone := erasedTombstone streamName version erasedAt
  match jsonb (jsonText tombstone.payload),jsonb (jsonText tombstone.metadata.toJson) with
  | some payload,some metadata => .ok {db with
      events := updateWhere (fun r => r.streamName = streamName ∧ r.version = version)
        (setTombstone tombstone payload metadata) db.events}
  | _,_ => .error .invalidJson

/-- One `UPDATE` per version from 1 up to the given number. -/
def updateTombstones (streamName erasedAt : String) : ℕ → Database → Except SqlError Database
  | 0,db => .ok db
  | n + 1,db =>
    match updateTombstones streamName erasedAt n db with
    | .error e => .error e
    | .ok db' => updateTombstone jsonb streamName erasedAt (n + 1) db'

def eraseBody (request : StreamErasureRequest) (erasedAt : String) (db : Database) :
    Database × Except TxFailure StreamErasureResult :=
  if IsText request.streamName then
    match db.erasedStreams.find? fun r => r.streamName = request.streamName with
    | some recorded =>
      if request.expectedVersion ≠ recorded.lastVersion then
        (db,.error (.store (.streamErasure
          (streamErasureConflict request.streamName request.expectedVersion recorded.lastVersion))))
      else (db,.ok ⟨0,recorded.lastVersion,recorded.erasedAt,recorded.reason⟩)
    | none =>
      let actualVersion := db.currentVersion request.streamName
      if actualVersion ≠ request.expectedVersion then
        (db,.error (.store (.streamErasure
          (streamErasureConflict request.streamName request.expectedVersion actualVersion))))
      else match updateTombstones jsonb request.streamName erasedAt request.expectedVersion.toNat db with
        | .error e => (db,.error (.sql e))
        | .ok db' =>
          if IsText erasedAt ∧ IsText request.reason then ({db' with
              snapshots := deleteWhere (fun r => r.streamName = request.streamName) db'.snapshots
              erasedStreams := db'.erasedStreams ++
                [⟨request.streamName,request.expectedVersion,erasedAt,request.reason⟩]},
            .ok ⟨request.expectedVersion,request.expectedVersion,erasedAt,request.reason⟩)
          else (db,.error (.sql .invalidText))
  else (db,.error (.sql .invalidText))

def eraseStream (request : StreamErasureRequest) (erasedAt : String) :
    Database × Except StoreFailure StreamErasureResult :=
  match prepareStreamErasure request with
  | .error e => (db,.error (.streamErasure e))
  | .ok () =>
    match withTransaction db (eraseBody jsonb request erasedAt) with
    | (db',.ok result) => (db',.ok result)
    | (db',.error (.store e)) => (db',.error e)
    | (db',.error (.sql _)) => (db',.error (.defect "SqlError"))

def apply : HistoryCall → Database × StoreAnswer
  | .store (.append streamName expectedVersion events) =>
    ((db.append jsonb streamName expectedVersion events).1,
      .appended (db.append jsonb streamName expectedVersion events).2)
  | .store (.eraseStream request erasedAt) =>
    ((db.eraseStream jsonb request erasedAt).1,.erased (db.eraseStream jsonb request erasedAt).2)
  | .store (.read streamName fromVersion) => (db,.events (db.read streamName fromVersion))
  | .store (.readAll options) => (db,.events (db.readAll options))
  | .importBatch batch decoder =>
    ((db.importBatch jsonb p batch decoder).1,.imported (db.importBatch jsonb p batch decoder).2)

end Database

/-- The PostgreSQL event store on empty tables, answering calls one after another. -/
def eventStore (jsonb : String → Option String) (p : ImportPrimitives) :
    Machine Database HistoryCall StoreAnswer := ⟨{},fun db call => db.apply jsonb p call⟩

end StructureAi.Postgres

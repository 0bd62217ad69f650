import StructureAi.Foundation.Numbered
import StructureAi.Foundation.Run
import StructureAi.EventSourcing.HistoryImport

/-! # The abstract event log

What an event store is for, apart from how it is kept: one list of events, whose
streams are its sublists, a ledger of pinned streams and the progress of imports.
The adapters are related to this log, and through it to each other.
-/
namespace StructureAi.EventSourcing
open StructureAi.Foundation

/-- A ledger entry: the stream is pinned and every append to it fails. -/
structure ErasedStreamRecord where
  lastVersion : ℤ
  erasedAt : String
  reason : String
deriving DecidableEq

structure HistoryImportSession where
  resumeToken : String
  lastPosition : ℤ
  complete : Bool
deriving DecidableEq

structure HistoryImportBatchRecord where
  checksum : String
  previousToken : Option String
  complete : Bool
  result : HistoryImportResult
deriving DecidableEq

/-- A call of the event store and its stream eraser; the clock is in the call. -/
inductive StoreCall where
  | append (streamName : String) (expectedVersion : ℤ) (events : List AppendEvent)
  | eraseStream (request : StreamErasureRequest) (erasedAt : String)
  | read (streamName : String) (fromVersion : Option ℤ)
  | readAll (options : ReadAllOptions)

/-- A call of a store that also imports histories. -/
inductive HistoryCall where
  | store (call : StoreCall)
  | importBatch (batch : HistoryImportBatch) (decoder : HistoryEventDecoder)

inductive StoreAnswer where
  | appended (result : Except StoreFailure AppendResult)
  | erased (result : Except StoreFailure StreamErasureResult)
  | events (result : Except StoreFailure (List StoredEvent))
  | imported (result : Except StoreFailure HistoryImportResult)

/-- The events of an append at consecutive positions and versions. -/
def stampFrom (streamName : String) (position version : ℤ) : List AppendEvent → List StoredEvent
  | [] => []
  | e :: es => e.stored (position + 1) streamName (version + 1) ::
      stampFrom streamName (position + 1) (version + 1) es

@[simp] theorem stampFrom_length (streamName : String) (position version : ℤ)
    (events : List AppendEvent) :
    (stampFrom streamName position version events).length = events.length := by
  induction events generalizing position version with
  | nil => rfl
  | cons e es ih => rw [stampFrom,List.length_cons,ih,List.length_cons]

theorem streamName_of_mem_stampFrom {streamName : String} {position version : ℤ}
    {events : List AppendEvent} {e : StoredEvent}
    (h : e ∈ stampFrom streamName position version events) : e.streamName = streamName := by
  induction events generalizing position version with
  | nil => cases h
  | cons a as ih =>
    rcases List.mem_cons.mp h with rfl | h
    · rfl
    · exact ih h

theorem stampFrom_positions (streamName : String) (position version : ℤ) (events : List AppendEvent) :
    NumberedFrom StoredEvent.position position (stampFrom streamName position version events) := by
  induction events generalizing position version with
  | nil => trivial
  | cons e es ih => exact ⟨rfl,ih _ _⟩

theorem stampFrom_versions (streamName : String) (position version : ℤ) (events : List AppendEvent) :
    NumberedFrom StoredEvent.version version (stampFrom streamName position version events) := by
  induction events generalizing position version with
  | nil => trivial
  | cons e es ih => exact ⟨rfl,ih _ _⟩

def streamOf (log : List StoredEvent) (streamName : String) : List StoredEvent :=
  log.filter fun e => e.streamName = streamName

theorem streamOf_append (xs ys : List StoredEvent) (streamName : String) :
    streamOf (xs ++ ys) streamName = streamOf xs streamName ++ streamOf ys streamName :=
  List.filter_append ..

theorem streamOf_stampFrom_self (streamName : String) (position version : ℤ)
    (events : List AppendEvent) :
    streamOf (stampFrom streamName position version events) streamName =
      stampFrom streamName position version events := by
  rw [streamOf,List.filter_eq_self]
  intro e he
  simpa using streamName_of_mem_stampFrom he

theorem streamOf_stampFrom_ne {streamName other : String} (h : other ≠ streamName)
    (position version : ℤ) (events : List AppendEvent) :
    streamOf (stampFrom streamName position version events) other = [] := by
  rw [streamOf,List.filter_eq_nil_iff]
  intro e he
  rw [streamName_of_mem_stampFrom he]
  simpa using h.symm

/-- Whether an event passes a partition filter. -/
def inPartitions (partitions : Option (List String)) (e : StoredEvent) : Bool :=
  match partitions with
  | none => true
  | some ps => e.metadata.partition.any fun p => p ∈ ps

def readAllOf (log : List StoredEvent) (options : ReadAllOptions) : List StoredEvent :=
  let events := log.filter fun e => options.fromPosition.getD 1 ≤ e.position ∧
    inPartitions (readAllPartitions options.partition) e
  match options.batchSize with
  | none => events
  | some n => events.take n

def readOf (events : List StoredEvent) (fromVersion : Option ℤ) : List StoredEvent :=
  events.filter fun e => fromVersion.getD 1 ≤ e.version

structure EventLog where
  log : List StoredEvent
  erased : String → Option ErasedStreamRecord
  sessions : String → Option HistoryImportSession
  /-- Committed batches by import and batch id. -/
  batches : String → String → Option HistoryImportBatchRecord

namespace EventLog

def empty : EventLog := ⟨[],fun _ => none,fun _ => none,fun _ _ => none⟩

variable (p : ImportPrimitives) (l : EventLog)

def stream (streamName : String) : List StoredEvent := streamOf l.log streamName

def version (streamName : String) : ℤ := (l.stream streamName).length

def extend (events : List StoredEvent) : EventLog := {l with log := l.log ++ events}

def append (streamName : String) (expectedVersion : ℤ) (events : List AppendEvent) :
    EventLog × Except StoreFailure AppendResult :=
  match l.erased streamName with
  | some record =>
    (l,.error (.concurrencyConflict (conflict streamName expectedVersion record.lastVersion)))
  | none =>
    if l.version streamName ≠ expectedVersion then
      (l,.error (.concurrencyConflict (conflict streamName expectedVersion (l.version streamName))))
    else if events = [] then (l,.ok ⟨l.version streamName,l.version streamName⟩)
    else (l.extend (stampFrom streamName l.log.length (l.version streamName) events),
      .ok ⟨l.version streamName + 1,l.version streamName + events.length⟩)

/-- Rewrites every event of one stream to its tombstone. -/
def eraseIn (streamName erasedAt : String) (log : List StoredEvent) : List StoredEvent :=
  log.map fun e => if e.streamName = streamName then e.erase erasedAt else e

/-- The log with one stream erased and pinned at its version. -/
def pin (streamName erasedAt reason : String) : EventLog := {l with
  log := eraseIn streamName erasedAt l.log
  erased := Function.update l.erased streamName (some ⟨l.version streamName,erasedAt,reason⟩)}

def eraseStream (request : StreamErasureRequest) (erasedAt : String) :
    EventLog × Except StoreFailure StreamErasureResult :=
  match prepareStreamErasure request with
  | .error e => (l,.error (.streamErasure e))
  | .ok () =>
    match l.erased request.streamName with
    | some record =>
      if request.expectedVersion ≠ record.lastVersion then
        (l,.error (.streamErasure
          (streamErasureConflict request.streamName request.expectedVersion record.lastVersion)))
      else (l,.ok ⟨0,record.lastVersion,record.erasedAt,record.reason⟩)
    | none =>
      if l.version request.streamName ≠ request.expectedVersion then
        (l,.error (.streamErasure (streamErasureConflict request.streamName request.expectedVersion
          (l.version request.streamName))))
      else (l.pin request.streamName erasedAt request.reason,
        .ok ⟨l.version request.streamName,l.version request.streamName,erasedAt,request.reason⟩)

/-- The answer to a batch id that is already committed. -/
def retried (record : HistoryImportBatchRecord) (batch : HistoryImportBatch) :
    Except StoreFailure HistoryImportResult :=
  if record.checksum ≠ batch.checksum ∨ record.previousToken ≠ batch.resumeToken ∨
      record.complete ≠ batch.complete.getD false then
    .error (historyImportConflict .divergentBatch
      ("batch " ++ batch.batchId ++ " was already committed with different content or state"))
  else .ok {record.result with status := .unchanged}

/-- Whether a new batch may follow what the log and its import session hold. -/
def resumes (batch : HistoryImportBatch) : Except StoreFailure Unit :=
  match l.sessions batch.importId with
  | none =>
    if l.log ≠ [] then
      .error (historyImportConflict .targetNotEmpty "a new import requires an empty event store")
    else if batch.resumeToken ≠ none then
      .error (historyImportConflict .resumeTokenMismatch
        "the first batch must not include a resume token")
    else .ok ()
  | some session =>
    if session.complete then
      .error (historyImportConflict .importComplete
        ("import " ++ batch.importId ++ " is already complete"))
    else if batch.resumeToken ≠ some session.resumeToken then
      .error (historyImportConflict .resumeTokenMismatch
        ("batch " ++ batch.batchId ++ " does not resume the latest committed batch"))
    else if (l.log.length : ℤ) ≠ session.lastPosition then
      .error (historyImportConflict .targetNotEmpty
        "the target changed after the latest import batch")
    else .ok ()

/-- The log and the answer after a batch that passed every check. -/
def commit (batch : HistoryImportBatch) (lastPosition : ℤ) : EventLog × HistoryImportResult :=
  let result : HistoryImportResult := ⟨.imported,batch.events.length,lastPosition,
    historyImportResumeToken p batch lastPosition,batch.complete.getD false⟩
  ({l.extend batch.events with
      sessions := Function.update l.sessions batch.importId
        (some ⟨result.resumeToken,lastPosition,result.complete⟩)
      batches := Function.update l.batches batch.importId (Function.update (l.batches batch.importId)
        batch.batchId (some ⟨batch.checksum,batch.resumeToken,result.complete,result⟩))},
    result)

open Classical in
noncomputable def importBatch (batch : HistoryImportBatch) (decoder : HistoryEventDecoder) :
    EventLog × Except StoreFailure HistoryImportResult :=
  match prepareHistoryImportBatch p batch decoder,batch.events.getLast? with
  | .error e,_ => (l,.error e)
  | .ok _,none => (l,.error (.defect "validated batch has no events"))
  | .ok _,some lastEvent =>
    if ∃ streamName, l.erased streamName ≠ none then
      (l,.error (historyImportConflict .targetNotEmpty
        "a target with erased streams cannot be imported into"))
    else match l.batches batch.importId batch.batchId with
      | some record => (l,retried record batch)
      | none =>
        match l.resumes batch with
        | .error e => (l,.error e)
        | .ok () =>
          match validateHistoryImportContinuation batch.events (historyImportTarget l.log) with
          | .error e => (l,.error e)
          | .ok () => ((l.commit p batch lastEvent.position).1,
              .ok (l.commit p batch lastEvent.position).2)

def apply : StoreCall → EventLog × StoreAnswer
  | .append streamName expectedVersion events =>
    ((l.append streamName expectedVersion events).1,
      .appended (l.append streamName expectedVersion events).2)
  | .eraseStream request erasedAt =>
    ((l.eraseStream request erasedAt).1,.erased (l.eraseStream request erasedAt).2)
  | .read streamName fromVersion => (l,.events (.ok (readOf (l.stream streamName) fromVersion)))
  | .readAll options => (l,.events (.ok (readAllOf l.log options)))

noncomputable def applyHistory : HistoryCall → EventLog × StoreAnswer
  | .store call => l.apply call
  | .importBatch batch decoder =>
    ((l.importBatch p batch decoder).1,.imported (l.importBatch p batch decoder).2)

/-- Positions count the log, versions count each stream, a pinned stream is all tombstones
and a session stands for at least one committed event. -/
structure WellFormed : Prop where
  positions : Numbered StoredEvent.position l.log
  versions : ∀ streamName, Numbered StoredEvent.version (l.stream streamName)
  pinned : ∀ streamName record, l.erased streamName = some record →
    (∀ e ∈ l.stream streamName, e.IsTombstone record.erasedAt) ∧
      l.version streamName = record.lastVersion
  started : ∀ importId session, l.sessions importId = some session → 1 ≤ session.lastPosition

end EventLog
end StructureAi.EventSourcing

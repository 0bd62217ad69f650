import StructureAi.EventSourcing.EventLogInvariant

/-! # The in-memory event store

The two views of the log, the map of streams and the list of all events, are
kept apart as in the source, and each operation updates both. The outcome of
removing a snapshot after an erasure is chosen by the caller's environment.
-/
namespace StructureAi.EventSourcing
open StructureAi.Foundation

structure EventStoreState where
  streams : JsMap (List StoredEvent)
  all : List StoredEvent
  imports : JsMap HistoryImportSession
  importBatches : JsMap HistoryImportBatchRecord
  /-- Erasure ledger: a stream in this map is pinned. -/
  erased : JsMap ErasedStreamRecord

def importBatchKey (importId batchId : String) : String :=
  toString (utf16Length importId) ++ ":" ++ importId ++ batchId

namespace EventStoreState
variable (p : ImportPrimitives) (s : EventStoreState)

def empty : EventStoreState := ⟨∅,[],∅,∅,∅⟩

/-- The list kept for a stream; a missing one reads as empty. -/
def stream (streamName : String) : List StoredEvent := (s.streams.lookup streamName).getD []

def append (streamName : String) (expectedVersion : ℤ) (events : List AppendEvent) :
    EventStoreState × Except StoreFailure AppendResult :=
  match s.erased.lookup streamName with
  | some erasedRecord =>
    (s,.error (.concurrencyConflict (conflict streamName expectedVersion erasedRecord.lastVersion)))
  | none =>
    let existing := s.stream streamName
    let actualVersion : ℤ := existing.length
    if actualVersion ≠ expectedVersion then
      (s,.error (.concurrencyConflict (conflict streamName expectedVersion actualVersion)))
    else if events = [] then (s,.ok ⟨actualVersion,actualVersion⟩)
    else
      let basePosition : ℤ := s.all.length
      let stored := stampFrom streamName basePosition actualVersion events
      let streams := match s.streams.lookup streamName with
        | none => s.streams.insert streamName stored
        | some stream => s.streams.insert streamName (stream ++ stored)
      ({s with streams := streams, all := s.all ++ stored},
        .ok ⟨actualVersion + 1,actualVersion + events.length⟩)

def read (streamName : String) (fromVersion : Option ℤ) : List StoredEvent :=
  (s.stream streamName).filter fun e => e.version ≥ fromVersion.getD 1

def readAll (options : ReadAllOptions) : List StoredEvent :=
  let fromPosition := options.fromPosition.getD 1
  let partitions := readAllPartitions options.partition
  let events := s.all.filter fun e => e.position ≥ fromPosition &&
    match partitions with
    | none => true
    | some partitions => e.metadata.partition.any fun partition => partition ∈ partitions
  match options.batchSize with
  | none => events
  | some batchSize => events.take batchSize

/-- The checks of an import whose batch id is new, up to the continuation check. -/
def sessionCheck (batch : HistoryImportBatch) : Except StoreFailure Unit :=
  match s.imports.lookup batch.importId with
  | none =>
    if s.all.length > 0 then
      .error (historyImportConflict .targetNotEmpty "a new import requires an empty event store")
    else if batch.resumeToken ≠ none then
      .error (historyImportConflict .resumeTokenMismatch
        "the first batch must not include a resume token")
    else .ok ()
  | some session =>
    if session.complete then
      .error (historyImportConflict .importComplete
        ("import " ++ batch.importId ++ " is already complete"))
    else if batch.resumeToken ≠ some session.resumeToken then
      .error (historyImportConflict .resumeTokenMismatch
        ("batch " ++ batch.batchId ++ " does not resume the latest committed batch"))
    else if s.all.getLast?.map (·.position) ≠ some session.lastPosition then
      .error (historyImportConflict .targetNotEmpty
        "the target changed after the latest import batch")
    else .ok ()

def importBatch (batch : HistoryImportBatch) (decoder : HistoryEventDecoder) :
    EventStoreState × Except StoreFailure HistoryImportResult :=
  match prepareHistoryImportBatch p batch decoder,batch.events.getLast? with
  | .error e,_ => (s,.error e)
  | .ok _,none => (s,.error (.defect "validated batch has no events"))
  | .ok _,some lastEvent =>
    let token := historyImportResumeToken p batch lastEvent.position
    if s.erased.entries.length > 0 then
      (s,.error (historyImportConflict .targetNotEmpty
        "a target with erased streams cannot be imported into"))
    else
      let key := importBatchKey batch.importId batch.batchId
      let complete := batch.complete.getD false
      match s.importBatches.lookup key with
      | some recorded =>
        if recorded.checksum ≠ batch.checksum ∨ recorded.previousToken ≠ batch.resumeToken ∨
            recorded.complete ≠ complete then
          (s,.error (historyImportConflict .divergentBatch
            ("batch " ++ batch.batchId ++ " was already committed with different content or state")))
        else (s,.ok {recorded.result with status := .unchanged})
      | none =>
        match s.sessionCheck batch with
        | .error e => (s,.error e)
        | .ok () =>
          match validateHistoryImportContinuation batch.events (historyImportTarget s.all) with
          | .error e => (s,.error e)
          | .ok () =>
            let streams := batch.events.foldl (fun streams event => streams.insert event.streamName
              ((streams.lookup event.streamName).getD [] ++ [event])) s.streams
            let result : HistoryImportResult :=
              ⟨.imported,batch.events.length,lastEvent.position,token,complete⟩
            ({s with
                streams := streams
                all := s.all ++ batch.events
                imports := s.imports.insert batch.importId ⟨token,lastEvent.position,complete⟩
                importBatches := s.importBatches.insert key
                  ⟨batch.checksum,batch.resumeToken,complete,result⟩},
              .ok result)

/-- The ledger check, the version check and the rewrite, all under the store's lock. -/
def eraseUnderLock (request : StreamErasureRequest) (erasedAt : String) :
    EventStoreState × Except StoreFailure StreamErasureResult :=
  match s.erased.lookup request.streamName with
  | some recorded =>
    if request.expectedVersion ≠ recorded.lastVersion then
      (s,.error (.streamErasure
        (streamErasureConflict request.streamName request.expectedVersion recorded.lastVersion)))
    else (s,.ok ⟨0,recorded.lastVersion,recorded.erasedAt,recorded.reason⟩)
  | none =>
    let existing := s.stream request.streamName
    let actualVersion : ℤ := existing.length
    if actualVersion ≠ request.expectedVersion then
      (s,.error (.streamErasure
        (streamErasureConflict request.streamName request.expectedVersion actualVersion)))
    else
      let tombstones := existing.map fun event =>
        (erasedTombstone request.streamName event.version erasedAt).stored event.position
          event.streamName event.version
      -- `new Map(tombstones.map(...))`: the last tombstone of a version is kept
      let byVersion := fun version : ℤ => tombstones.reverse.find? fun event => event.version = version
      let all := s.all.map fun event =>
        if event.streamName ≠ request.streamName then event
        else (byVersion event.version).getD event
      ({s with
          streams := s.streams.insert request.streamName tombstones
          all := all
          erased := s.erased.insert request.streamName ⟨actualVersion,erasedAt,request.reason⟩},
        .ok ⟨existing.length,actualVersion,erasedAt,request.reason⟩)

/-- `snapshotRemoval` is the failure of the ambient `SnapshotStore.remove`; `none` when there is
no store or the removal succeeds. -/
def eraseStream (request : StreamErasureRequest) (erasedAt : String)
    (snapshotRemoval : Option PersistenceError) :
    EventStoreState × Except StoreFailure StreamErasureResult :=
  match prepareStreamErasure request with
  | .error e => (s,.error (.streamErasure e))
  | .ok () =>
    match s.eraseUnderLock request erasedAt,snapshotRemoval with
    | (s',.ok _),some e => (s',.error (.persistence e))
    | answer,_ => answer

/-- A call beside an in-memory snapshot store, whose removals succeed. -/
def apply : HistoryCall → EventStoreState × StoreAnswer
  | .store (.append streamName expectedVersion events) =>
    ((s.append streamName expectedVersion events).1,
      .appended (s.append streamName expectedVersion events).2)
  | .store (.eraseStream request erasedAt) =>
    ((s.eraseStream request erasedAt none).1,.erased (s.eraseStream request erasedAt none).2)
  | .store (.read streamName fromVersion) => (s,.events (.ok (s.read streamName fromVersion)))
  | .store (.readAll options) => (s,.events (.ok (s.readAll options)))
  | .importBatch batch decoder =>
    ((s.importBatch p batch decoder).1,.imported (s.importBatch p batch decoder).2)

end EventStoreState

/-- `InMemoryEventStore` answering calls one after another. -/
def inMemoryEventStore (p : ImportPrimitives) : Machine EventStoreState HistoryCall StoreAnswer :=
  ⟨EventStoreState.empty,fun s call => s.apply p call⟩

end StructureAi.EventSourcing

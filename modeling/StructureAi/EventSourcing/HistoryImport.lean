import StructureAi.Foundation.JsonOrder
import StructureAi.EventSourcing.StreamErasure

/-! # Frozen-history batches and their validation

The hash, the date decoder and the event decoder are code outside the package
and stay parameters. The loop over the events is a fold whose state is the
source's local variables.
-/
namespace StructureAi.EventSourcing
open StructureAi.Foundation

/-- A JavaScript `Map` keyed by strings. -/
abbrev JsMap (V : Type) := AList fun _ : String => V

structure HistoryImportBatch where
  importId : String
  batchId : String
  events : List StoredEvent
  checksum : String
  resumeToken : Option String := none
  complete : Option Bool := none
deriving DecidableEq

inductive HistoryImportStatus where
  | imported
  | unchanged
deriving DecidableEq

structure HistoryImportResult where
  status : HistoryImportStatus
  importedCount : ℕ
  lastPosition : ℤ
  resumeToken : String
  complete : Bool
deriving DecidableEq

inductive HistoryImportFailureReason where
  | invalidImportId
  | invalidBatchId
  | checksumMismatch
  | invalidPosition
  | globalPositionGap
  | streamVersionGap
  | duplicateEventId
  | invalidMetadata
  | targetNotEmpty
  | resumeTokenMismatch
  | divergentBatch
  | importComplete
deriving DecidableEq

structure HistoryImportError where
  reason : HistoryImportFailureReason
  detail : String
deriving DecidableEq

/-- What the event-store ports fail with; `defect` is `Effect.die`. -/
inductive StoreFailure where
  | concurrencyConflict (e : ConcurrencyConflict)
  | streamErasure (e : StreamErasureError)
  | historyImport (e : HistoryImportError)
  | eventDecode (e : EventDecodeError)
  | persistence (e : PersistenceError)
  | defect (message : String)
deriving DecidableEq

/-- The library functions the import relies on. -/
structure ImportPrimitives where
  sha256Hex : String → String
  /-- Whether `Schema.DateTimeUtc` decodes an `occurredAt`. -/
  decodesDateTimeUtc : String → Bool

/-- A payload decoder: the error it fails with, if it fails. -/
abbrev HistoryEventDecoder := SerializedEvent → Option EventDecodeError

def failure (reason : HistoryImportFailureReason) (detail : String) : StoreFailure :=
  .historyImport ⟨reason,detail⟩

/-- The event as the checksum sees it, its `bigint` position as a string. -/
def StoredEvent.toJson (e : StoredEvent) : Json :=
  .obj [("position",.str (toString e.position)),("streamName",.str e.streamName),
    ("version",.num (Decimal.ofInt e.version)),("type",.str e.type),
    ("schemaVersion",.num (Decimal.ofInt e.schemaVersion)),("payload",e.payload),
    ("metadata",e.metadata.toJson)]

variable (p : ImportPrimitives)

def checksum (events : List StoredEvent) : String :=
  p.sha256Hex (Json.stableJson (.arr (events.map StoredEvent.toJson)))

def maxPgInteger : ℤ := 2147483647

def maxPgBigInt : ℤ := 9223372036854775807

/-- The variables of the validation loop. -/
structure PrepareState where
  ids : List String := []
  versions : JsMap ℤ := ∅
  previousPosition : Option ℤ := none

def prepareEvent (decoder : HistoryEventDecoder) (st : PrepareState) (event : StoredEvent) :
    Except StoreFailure PrepareState :=
  if isBlank event.streamName then
    .error (failure .streamVersionGap "stream names must not be empty")
  else if event.position < 1 ∨ event.position > maxPgBigInt then
    .error (failure .invalidPosition
      ("global positions must be between 1 and " ++ toString maxPgBigInt))
  else if st.previousPosition.any (fun previous => event.position ≠ previous + 1) then
    .error (failure .globalPositionGap ("position " ++ toString event.position ++
      " does not follow " ++ toString (st.previousPosition.getD 0)))
  else if !isSafeInteger event.version ∨ event.version < 1 ∨ event.version > maxPgInteger then
    .error (failure .streamVersionGap ("stream " ++ event.streamName ++ " has invalid version " ++
      numberText event.version))
  else if !isSafeInteger event.schemaVersion ∨ event.schemaVersion < 1 ∨
      event.schemaVersion > maxPgInteger then
    .error (failure .invalidMetadata ("event at position " ++ toString event.position ++
      " has invalid schema version " ++ numberText event.schemaVersion))
  else if (st.versions.lookup event.streamName).any (fun previous => event.version ≠ previous + 1) then
    .error (failure .streamVersionGap ("stream " ++ event.streamName ++ " version " ++
      numberText event.version ++ " does not follow " ++
      numberText ((st.versions.lookup event.streamName).getD 0)))
  else if !p.decodesDateTimeUtc event.metadata.occurredAt then
    .error (failure .invalidMetadata ("event at position " ++ toString event.position ++
      " has invalid metadata"))
  else if event.metadata.aggregateVersion ≠ Decimal.ofInt event.version then
    .error (failure .invalidMetadata ("event at position " ++ toString event.position ++
      " metadata version does not match stream version"))
  else if isBlank event.metadata.eventId ∨ event.metadata.eventId ∈ st.ids then
    .error (failure .duplicateEventId ("event id " ++
      (if event.metadata.eventId = "" then "<empty>" else event.metadata.eventId) ++
      " is duplicated or empty"))
  else match decoder event.serialized with
    | some e => .error (.eventDecode e)
    | none => .ok ⟨event.metadata.eventId :: st.ids,st.versions.insert event.streamName event.version,
        some event.position⟩

/-- Validates a batch without observing adapter state; answers its event ids. -/
def prepareHistoryImportBatch (batch : HistoryImportBatch) (decoder : HistoryEventDecoder) :
    Except StoreFailure (List String) :=
  if isBlank batch.importId then
    .error (failure .invalidImportId "importId must not be empty")
  else if isBlank batch.batchId then
    .error (failure .invalidBatchId "batchId must not be empty")
  else if batch.events = [] then
    .error (failure .invalidPosition "a history import batch must contain events")
  else if checksum p batch.events ≠ batch.checksum then
    .error (failure .checksumMismatch ("batch " ++ batch.batchId ++
      " checksum does not match its events"))
  else (batch.events.foldlM (prepareEvent p decoder) {}).map PrepareState.ids

/-- Minimal target state needed to validate the next import batch. -/
structure HistoryImportTarget where
  lastPosition : ℤ
  streamVersions : JsMap ℤ
  eventIds : List String

def historyImportTarget (existing : List StoredEvent) : HistoryImportTarget where
  lastPosition := (existing.getLast?.map (·.position)).getD 0
  streamVersions := existing.foldl (fun versions e => versions.insert e.streamName e.version) ∅
  eventIds := existing.map (·.metadata.eventId)

def continueEvent (target : HistoryImportTarget) (event : StoredEvent) :
    Except StoreFailure HistoryImportTarget :=
  if event.position ≠ target.lastPosition + 1 then
    .error (failure .globalPositionGap ("position " ++ toString event.position ++
      " does not follow target position " ++ toString target.lastPosition))
  else if event.version ≠ (target.streamVersions.lookup event.streamName).getD 0 + 1 then
    .error (failure .streamVersionGap ("stream " ++ event.streamName ++ " version " ++
      numberText event.version ++ " does not follow target version " ++
      numberText ((target.streamVersions.lookup event.streamName).getD 0)))
  else if event.metadata.eventId ∈ target.eventIds then
    .error (failure .duplicateEventId ("event id " ++ event.metadata.eventId ++
      " already exists in the target"))
  else .ok ⟨event.position,target.streamVersions.insert event.streamName event.version,
    event.metadata.eventId :: target.eventIds⟩

/-- Validates a new batch against the exact history already in the target. -/
def validateHistoryImportContinuation (events : List StoredEvent) (target : HistoryImportTarget) :
    Except StoreFailure Unit :=
  (events.foldlM continueEvent target).map fun _ => ()

def historyImportConflict (reason : HistoryImportFailureReason) (detail : String) : StoreFailure :=
  failure reason detail

/-- Resume tokens are consistency markers, not credentials. -/
def historyImportResumeToken (batch : HistoryImportBatch) (lastPosition : ℤ) : String :=
  p.sha256Hex (Json.stableJson (.obj [("importId",.str batch.importId),("batchId",.str batch.batchId),
    ("checksum",.str batch.checksum),("previous",(batch.resumeToken.map Json.str).getD .null),
    ("lastPosition",.str (toString lastPosition)),("complete",.bool (batch.complete.getD false))]))

end StructureAi.EventSourcing

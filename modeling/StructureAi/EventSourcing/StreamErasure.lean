import StructureAi.EventSourcing.Events

/-! # Stream erasure requests and tombstones -/
namespace StructureAi.EventSourcing
open StructureAi.Foundation

/-- The reserved event type written in place of erased events. -/
def erasedEventType : String := "Erased"

structure StreamErasureRequest where
  streamName : String
  expectedVersion : ℤ
  reason : String
deriving DecidableEq

structure StreamErasureResult where
  erasedEvents : ℤ
  lastVersion : ℤ
  erasedAt : String
  reason : String
deriving DecidableEq

inductive StreamErasureFailureReason where
  | invalidRequest
  | streamModified
deriving DecidableEq

structure StreamErasureError where
  reason : StreamErasureFailureReason
  detail : String
  /-- The expected and the found version of a modified stream. -/
  conflict : Option (ℤ × ℤ) := none
deriving DecidableEq

/-- `String(value)` of an integer `number`. -/
def numberText (z : ℤ) : String := String.ofList (Decimal.ofInt z).text

def prepareStreamErasure (request : StreamErasureRequest) : Except StreamErasureError Unit :=
  if isBlank request.streamName then
    .error {reason := .invalidRequest, detail := "streamName must not be empty"}
  else if !isSafeInteger request.expectedVersion || request.expectedVersion < 0 then
    .error {
      reason := .invalidRequest
      detail := "expectedVersion must be a non-negative safe integer, got " ++
        numberText request.expectedVersion }
  else if isBlank request.reason then
    .error {reason := .invalidRequest, detail := "reason must not be empty"}
  else .ok ()

/-- The tombstone written over one erased event. -/
def erasedTombstone (streamName : String) (version : ℤ) (erasedAt : String) : AppendEvent where
  type := erasedEventType
  schemaVersion := 1
  payload := .obj [("_tag",.str erasedEventType)]
  metadata := {
    eventId := "erased:" ++ streamName ++ ":" ++ numberText version
    occurredAt := erasedAt
    aggregateName := (conflictIdentity streamName).1
    aggregateId := (conflictIdentity streamName).2
    aggregateVersion := Decimal.ofInt version }

def streamErasureConflict (streamName : String) (expectedVersion actualVersion : ℤ) :
    StreamErasureError where
  reason := .streamModified
  detail := "stream " ++ streamName ++ " was modified: expected version " ++
    numberText expectedVersion ++ ", found " ++ numberText actualVersion
  conflict := some (expectedVersion,actualVersion)

def AppendEvent.stored (e : AppendEvent) (position : ℤ) (streamName : String) (version : ℤ) :
    StoredEvent :=
  ⟨position,streamName,version,e.type,e.schemaVersion,e.payload,e.metadata⟩

/-- The content of a stored event, without its place in the log. -/
def StoredEvent.toAppend (e : StoredEvent) : AppendEvent := ⟨e.type,e.schemaVersion,e.payload,e.metadata⟩

/-- A stored event with its content replaced, its place in the log kept. -/
def StoredEvent.erase (e : StoredEvent) (erasedAt : String) : StoredEvent :=
  (erasedTombstone e.streamName e.version erasedAt).stored e.position e.streamName e.version

@[simp] theorem StoredEvent.erase_position (e : StoredEvent) (t : String) :
    (e.erase t).position = e.position := rfl
@[simp] theorem StoredEvent.erase_streamName (e : StoredEvent) (t : String) :
    (e.erase t).streamName = e.streamName := rfl
@[simp] theorem StoredEvent.erase_version (e : StoredEvent) (t : String) :
    (e.erase t).version = e.version := rfl
@[simp] theorem StoredEvent.erase_partition (e : StoredEvent) (t : String) :
    (e.erase t).metadata.partition = none := rfl

/-- An event that `eraseStream` has written at the given time. -/
def StoredEvent.IsTombstone (e : StoredEvent) (erasedAt : String) : Prop := e = e.erase erasedAt

theorem StoredEvent.isTombstone_erase (e : StoredEvent) (t : String) : (e.erase t).IsTombstone t := rfl

end StructureAi.EventSourcing

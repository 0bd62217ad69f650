import StructureAi.EventSourcing.EventLog
import StructureAi.EventSourcing.Projection
import StructureAi.Foundation.Entries
import StructureAi.Foundation.Fibers
import StructureAi.Foundation.Run
import StructureAi.Foundation.Table

/-! # The event store over a topic

An append reserves its versions in a ledger, produces its records and confirms them; a relay
produces what the ledger still holds. A request that was sent may reach the broker after the
client has given it up. Records of the topic are numbered by their offsets.
-/
namespace StructureAi.Nisshi
open StructureAi.Foundation StructureAi.EventSourcing

section Envelopes

structure WireEvent where
  type : String
  schemaVersion : ℤ
  version : ℤ
  payload : Json
  metadata : StoredEventMetadata

def WireEvent.fields (e : WireEvent) : List (String × Option Json) :=
  [("type",some (.str e.type)),("schemaVersion",some (.num (Decimal.ofInt e.schemaVersion))),
    ("version",some (.num (Decimal.ofInt e.version))),("payload",some e.payload),("metadata",some e.metadata.toJson)]

def encodeWireEvent (e : WireEvent) : String := Json.stringify (Json.ofFields e.fields)

/-- The integer that a JSON value holds, if it is one. -/
def asInteger (v : Json) : Option ℤ := do
  let d ← v.asNumber
  if (⌊d.value⌋ : ℚ) = d.value then some ⌊d.value⌋ else none

/-- The reason of a `NisshiProtocolError`. -/
abbrev ProtocolReason := String

def decodeWireEvent (value streamName : String) : Except ProtocolReason WireEvent :=
  match Json.parse value with
  | none => .error ("malformed event envelope for " ++ streamName)
  | some (.obj members) =>
    let record := Json.obj members
    match (record.get "type").bind Json.asString,(record.get "schemaVersion").bind asInteger,
      (record.get "version").bind asInteger with
    | some type,some schemaVersion,some version =>
      match (record.get "metadata").bind StoredEventMetadata.ofJson with
      | some metadata => .ok ⟨type,schemaVersion,version,(record.get "payload").getD .null,metadata⟩
      | none => .error ("event envelope for " ++ streamName ++ " has no metadata object")
    | _,_,_ => .error ("event envelope for " ++ streamName ++ " misses typed fields")
  | some _ => .error ("event envelope for " ++ streamName ++ " is not an object")

/-- What `validateWireEvent` throws, if it does. -/
def validateWireEvent (e : WireEvent) (streamName : String) : Option ProtocolReason :=
  if e.type = "" then some ("event for " ++ streamName ++ " has an empty type")
  else if ¬ isSafeInteger e.schemaVersion ∨ e.schemaVersion < 1 then
    some ("event " ++ e.type ++ " for " ++ streamName ++ " has schemaVersion " ++ toString e.schemaVersion)
  else if ¬ isSafeInteger e.version ∨ e.version < 1 then
    some ("event " ++ e.type ++ " for " ++ streamName ++ " has version " ++ toString e.version)
  else if e.metadata.occurredAt = "" then some ("event " ++ e.type ++ " for " ++ streamName ++ " misses metadata.occurredAt")
  else none

def wireEvent (version : ℤ) (event : AppendEvent) : WireEvent :=
  ⟨event.type,event.schemaVersion,version,event.payload,event.metadata⟩

end Envelopes

section Reading

structure TopicRecord where
  key : String
  value : String

structure FetchedTopicRecord where
  offset : ℤ
  record : TopicRecord

structure FetchPage where
  records : List FetchedTopicRecord
  highWatermark : ℤ

def storedEvent (offset : ℤ) (streamName : String) (envelope : WireEvent) : StoredEvent :=
  ⟨offset + 1,streamName,envelope.version,envelope.type,envelope.schemaVersion,envelope.payload,envelope.metadata⟩

def fetchedAt : ℤ → List TopicRecord → List FetchedTopicRecord
  | _,[] => []
  | offset,r :: rs => ⟨offset,r⟩ :: fetchedAt (offset + 1) rs

/-- A page of a topic: how many records after the first it holds is up to the broker. -/
def fetch (topic : List TopicRecord) (more : ℤ → ℕ) (offset : ℤ) : Except StoreFailure FetchPage :=
  if offset < 0 ∨ topic.length < offset then .error (.persistence ⟨"nisshi.fetch"⟩)
  else .ok ⟨fetchedAt offset ((topic.drop offset.toNat).take (more offset + 1)),topic.length⟩

def decodeRecord (r : FetchedTopicRecord) : Except StoreFailure StoredEvent :=
  match decodeWireEvent r.record.value r.record.key with
  | .ok envelope => .ok (storedEvent r.offset r.record.key envelope)
  | .error _ => .error (.persistence ⟨"nisshi.decode"⟩)

def decodeRecords : List FetchedTopicRecord → Except StoreFailure (List StoredEvent)
  | [] => .ok []
  | r :: rs => do return (← decodeRecord r) :: (← decodeRecords rs)

variable (topic : List TopicRecord) (more : ℤ → ℕ)

/-- The records from an offset on, page by page. -/
def readTopic : ℕ → ℤ → List FetchedTopicRecord → Except StoreFailure (List FetchedTopicRecord)
  | 0,_,out => .ok out
  | fuel + 1,offset,out =>
    match fetch topic more offset with
    | .error e => .error e
    | .ok page =>
      match page.records.getLast? with
      | none => .ok out
      | some last =>
        if page.highWatermark ≤ last.offset + 1 then .ok (out ++ page.records)
        else readTopic fuel (last.offset + 1) (out ++ page.records)

/-- The events of a stream whose versions are not seen yet. -/
def unseen (streamName : String) (fromVersion : ℤ) : List ℤ → List FetchedTopicRecord → Except StoreFailure (List StoredEvent)
  | _,[] => .ok []
  | seen,r :: rs =>
    if r.record.key ≠ streamName then unseen streamName fromVersion seen rs
    else do
      let event ← decodeRecord r
      if event.version < fromVersion ∨ event.version ∈ seen then unseen streamName fromVersion seen rs
      else return event :: (← unseen streamName fromVersion (event.version :: seen) rs)

def read (streamName : String) (fromVersion : Option ℤ) : Except StoreFailure (List StoredEvent) := do
  let records ← readTopic topic more (topic.length + 1) 0 []
  let events ← unseen streamName (fromVersion.getD 1) [] records
  return orderBy StoredEvent.version events

/-- The loop of `readAll`. -/
def collect (keep : StoredEvent → Bool) (limit : Option ℕ) : ℕ → ℤ → List StoredEvent → Except StoreFailure (List StoredEvent)
  | 0,_,events => .ok events
  | fuel + 1,offset,events =>
    if limit.any fun n => n ≤ events.length then .ok events
    else match fetch topic more offset with
      | .error e => .error e
      | .ok page =>
        match page.records.getLast? with
        | none => .ok events
        | some last =>
          match decodeRecords page.records with
          | .error e => .error e
          | .ok stored =>
            if page.highWatermark ≤ last.offset + 1 then .ok (events ++ stored.filter keep)
            else collect keep limit fuel (last.offset + 1) (events ++ stored.filter keep)

def readAll (options : ReadAllOptions) : Except StoreFailure (List StoredEvent) := do
  let offset := options.fromPosition.getD 1 - 1
  let keep := inPartitions (readAllPartitions options.partition)
  let events ← collect topic more keep options.batchSize (topic.length + 1) offset []
  return match options.batchSize with
    | none => events
    | some n => events.take n

end Reading

section Ledgers

structure PendingRow where
  streamName : String
  version : ℤ
  topic : String
  recordValue : String

/-- The tables of the sidecar that appends use. -/
structure Ledger where
  streams : List (String × ℤ)
  pending : List PendingRow

namespace Ledger
variable (l : Ledger)

def currentVersion (streamName : String) : ℤ := (l.streams.lookup streamName).getD 0

/-- What a transaction fails with: a failure of its own or a violated key. -/
inductive Refused where
  | store (e : StoreFailure)
  | unique

/-- Stages the events at the versions after `version`. -/
def stage (topic : String) (validate : Bool) (streamName : String) : ℤ → List AppendEvent → Ledger → Except Refused Ledger
  | _,[],l => .ok l
  | version,event :: events,l =>
    let wire := wireEvent (version + 1) event
    if validate ∧ (validateWireEvent wire streamName).isSome then .error (.store (.persistence ⟨"nisshi.encode"⟩))
    else if l.pending.any fun row => row.streamName = streamName ∧ row.version = version + 1 then .error .unique
    else stage topic validate streamName (version + 1) events
      {l with pending := l.pending ++ [⟨streamName,version + 1,topic,encodeWireEvent wire⟩]}

/-- The insert of a new stream, or the conditional update of one. -/
def bump (streamName : String) (expectedVersion : ℤ) (count : ℕ) : Except Refused Ledger :=
  if expectedVersion = 0 then
    match l.streams.lookup streamName with
    | some _ => .error .unique
    | none => .ok {l with streams := put streamName (count : ℤ) l.streams}
  else if l.streams.lookup streamName = some expectedVersion then
    .ok {l with streams := put streamName (expectedVersion + count) l.streams}
  else .ok l

def reserveBody (topic : String) (validate : Bool) (streamName : String) (expectedVersion : ℤ) (events : List AppendEvent) :
    Except Refused (Ledger × AppendResult) :=
  if events = [] then
    if l.currentVersion streamName ≠ expectedVersion then
      .error (.store (.concurrencyConflict (conflict streamName expectedVersion (l.currentVersion streamName))))
    else .ok (l,⟨expectedVersion,expectedVersion⟩)
  else do
    let bumped ← l.bump streamName expectedVersion events.length
    let actual := bumped.currentVersion streamName
    if actual ≠ expectedVersion + events.length then
      .error (.store (.concurrencyConflict (conflict streamName expectedVersion actual)))
    else
      let staged ← stage topic validate streamName expectedVersion events bumped
      return (staged,⟨expectedVersion + 1,expectedVersion + events.length⟩)

/-- A violated key becomes a conflict at the version read after the rollback. -/
def reserve (topic : String) (validate : Bool) (streamName : String) (expectedVersion : ℤ) (events : List AppendEvent) :
    Except StoreFailure (Ledger × AppendResult) :=
  match l.reserveBody topic validate streamName expectedVersion events with
  | .ok r => .ok r
  | .error (.store e) => .error e
  | .error .unique => .error (.concurrencyConflict (conflict streamName expectedVersion (l.currentVersion streamName)))

/-- The pending rows of an append leave the ledger. -/
def confirm (streamName : String) (expectedVersion : ℤ) (count : ℕ) : Ledger :=
  {l with pending := l.pending.filter fun row =>
    ¬ (row.streamName = streamName ∧ expectedVersion < row.version ∧ row.version ≤ expectedVersion + count)}

def rollback (streamName : String) (expectedVersion : ℤ) (count : ℕ) : Ledger :=
  let restored := if l.streams.lookup streamName = some (expectedVersion + count) then put streamName expectedVersion l.streams
    else l.streams
  {l.confirm streamName expectedVersion count with streams := restored}

def rowLe (a b : PendingRow) : Prop := toLex (a.streamName,a.version) ≤ toLex (b.streamName,b.version)

instance (a b : PendingRow) : Decidable (rowLe a b) := inferInstanceAs (Decidable (toLex _ ≤ toLex _))

def select (batchSize : ℕ) : List PendingRow := (l.pending.insertionSort rowLe).take batchSize

def remove (row : PendingRow) : Ledger :=
  {l with pending := l.pending.filter fun r => ¬ (r.streamName = row.streamName ∧ r.version = row.version)}

end Ledger
end Ledgers

section Calls

/-- A produce request that was sent to the broker. -/
structure Request where
  topic : String
  records : List TopicRecord
  written : Bool

inductive AppendPhase where
  | reserve
  | produce
  | producing (request : ℕ)
  | rollback
  | confirm

structure AppendCall where
  topic : String
  validate : Bool
  streamName : String
  expectedVersion : ℤ
  events : List AppendEvent
  phase : AppendPhase

inductive RelayPhase where
  | select
  | produce (row : PendingRow) (rows : List PendingRow)
  | producing (request : ℕ) (row : PendingRow) (rows : List PendingRow)
  | delete (row : PendingRow) (rows : List PendingRow)

inductive Call where
  | append (call : AppendCall)
  | relay (batchSize : ℕ) (phase : RelayPhase)

structure NisshiState where
  ledger : Ledger
  topics : String → List TopicRecord
  /-- Every request that was sent, in turn. -/
  requests : List Request
  calls : Fibers Call

/-- The environment says how a statement or a request ends for the one that waits for it. -/
inductive Label where
  | append (caller : ℕ) (topic : String) (validate : Bool) (streamName : String) (expectedVersion : ℤ)
      (events : List AppendEvent)
  | relay (caller : ℕ) (batchSize : ℕ)
  | call (caller : ℕ) (outcome : StepOutcome)
  | crash (caller : ℕ)
  /-- The broker writes the records of a request. -/
  | write (request : ℕ)

/-- The records that an append produces, at the versions after `version`. -/
def recordsFrom (streamName : String) : ℤ → List AppendEvent → List TopicRecord
  | _,[] => []
  | version,event :: events => ⟨streamName,encodeWireEvent (wireEvent (version + 1) event)⟩ :: recordsFrom streamName (version +
      1) events

namespace NisshiState
variable (s : NisshiState)

def isWritten (request : ℕ) : Bool := (s.requests[request]?).any Request.written

def send (topic : String) (records : List TopicRecord) : NisshiState :=
  {s with requests := s.requests ++ [⟨topic,records,false⟩]}

def goOn (caller : ℕ) : Option Call → NisshiState
  | some call => {s with calls := s.calls.set caller call}
  | none => {s with calls := s.calls.remove caller}

/-- A statement that may fail, before or after it took effect. -/
def execute (l : Ledger) : StepOutcome → NisshiState
  | .failed => s
  | .ok | .failedAfterWrite => {s with ledger := l}

def onOk {A : Type} (outcome : StepOutcome) (a : A) : Option A :=
  match outcome with
  | .ok => some a
  | .failed | .failedAfterWrite => none

def appendStep (caller : ℕ) (c : AppendCall) (outcome : StepOutcome) : Option NisshiState :=
  let next (phase : AppendPhase) : Option Call := some (.append {c with phase := phase})
  let n := c.events.length
  match c.phase with
  | .reserve => some <|
    match s.ledger.reserve c.topic c.validate c.streamName c.expectedVersion c.events with
    | .error _ => s.goOn caller none
    | .ok (ledger,_) => (s.execute ledger outcome).goOn caller
        (if c.events = [] then none else (onOk outcome AppendPhase.produce).bind next)
  | .produce => some ((s.send c.topic (recordsFrom c.streamName c.expectedVersion c.events)).goOn caller
      (next (.producing s.requests.length)))
  | .producing request =>
    match outcome with
    | .ok => if s.isWritten request then some (s.goOn caller (next .confirm)) else none
    | .failed | .failedAfterWrite => some (s.goOn caller (next .rollback))
  | .rollback => some ((s.execute (s.ledger.rollback c.streamName c.expectedVersion n) outcome).goOn caller none)
  | .confirm => some ((s.execute (s.ledger.confirm c.streamName c.expectedVersion n) outcome).goOn caller none)

/-- A relay goes on with the next of its rows, or selects more. -/
def rowsPhase : List PendingRow → RelayPhase
  | [] => .select
  | row :: rows => .produce row rows

def relayStep (caller batchSize : ℕ) (phase : RelayPhase) (outcome : StepOutcome) : Option NisshiState :=
  match phase with
  | .select => some <|
    match s.ledger.select batchSize with
    | [] => s.goOn caller none
    | row :: rows => s.goOn caller ((onOk outcome (RelayPhase.produce row rows)).map (.relay batchSize))
  | .produce row rows => some ((s.send row.topic [⟨row.streamName,row.recordValue⟩]).goOn caller
      (some (.relay batchSize (.producing s.requests.length row rows))))
  | .producing request row rows =>
    match outcome with
    | .ok => if s.isWritten request then some (s.goOn caller (some (.relay batchSize (.delete row rows)))) else none
    | .failed | .failedAfterWrite => some (s.goOn caller none)
  | .delete row rows => some ((s.execute (s.ledger.remove row) outcome).goOn caller
      ((onOk outcome (rowsPhase rows)).map (.relay batchSize)))

def write (request : ℕ) : Option NisshiState :=
  match s.requests[request]? with
  | some ⟨topic,records,false⟩ => some {s with
      topics := Function.update s.topics topic (s.topics topic ++ records)
      requests := s.requests.set request ⟨topic,records,true⟩}
  | _ => none

def begin (caller : ℕ) (call : Call) : Option NisshiState :=
  match s.calls caller with
  | none => some (s.goOn caller (some call))
  | some _ => none

def step (s : NisshiState) : Label → Option NisshiState
  | .append caller topic validate streamName expectedVersion events =>
    s.begin caller (.append ⟨topic,validate,streamName,expectedVersion,events,.reserve⟩)
  | .relay caller batchSize => s.begin caller (.relay batchSize .select)
  | .call caller outcome =>
    match s.calls caller with
    | some (.append c) => s.appendStep caller c outcome
    | some (.relay batchSize phase) => s.relayStep caller batchSize phase outcome
    | none => none
  | .crash caller => (s.calls caller).map fun _ => s.goOn caller none
  | .write request => s.write request

end NisshiState

def nisshi : System NisshiState Label := ⟨⟨⟨[],[]⟩,fun _ => [],[],Fibers.empty⟩,NisshiState.step⟩

end Calls
end StructureAi.Nisshi

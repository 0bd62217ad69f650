import StructureAi.Foundation.JsonFields

/-! # Events, their metadata and the errors of the event-store ports

JavaScript strings are Lean strings, `bigint` positions and integer `number`s are
integers. The metadata is the encoded form that adapters persist; its JSON text
reads back as the same metadata.
-/
namespace StructureAi.EventSourcing
open StructureAi.Foundation

structure EventOrigin where
  node : String
  position : String
deriving DecidableEq

/-- `EventMetadata` in its encoded form: `occurredAt` is an ISO string. -/
structure StoredEventMetadata where
  eventId : String
  occurredAt : String
  aggregateName : String
  aggregateId : String
  aggregateVersion : Decimal
  correlationId : Option String := none
  causationId : Option String := none
  actor : Option String := none
  partition : Option String := none
  origin : Option EventOrigin := none
  extensions : Option (List (String × Json)) := none
deriving DecidableEq

/-- An event to append: wire form plus its stamped metadata. -/
structure AppendEvent where
  type : String
  schemaVersion : ℤ
  payload : Json
  metadata : StoredEventMetadata
deriving DecidableEq

/-- `version` counts within one stream and `position` across the store, both from 1. -/
structure StoredEvent where
  position : ℤ
  streamName : String
  version : ℤ
  type : String
  schemaVersion : ℤ
  payload : Json
  metadata : StoredEventMetadata
deriving DecidableEq

/-- The partition filter: one value or a list of them. -/
inductive PartitionFilter where
  | one (partition : String)
  | many (partitions : List String)
deriving DecidableEq

structure ReadAllOptions where
  fromPosition : Option ℤ := none
  batchSize : Option ℕ := none
  partition : Option PartitionFilter := none
deriving DecidableEq

/-- The distinct partitions a `readAll` call asked to keep; `none` asks for no filter. -/
def readAllPartitions : Option PartitionFilter → Option (List String)
  | none => none
  | some (.one p) => some [p]
  | some (.many ps) => some ps.dedup

structure AppendResult where
  firstVersion : ℤ
  lastVersion : ℤ
deriving DecidableEq

structure ConcurrencyConflict where
  entity : String
  id : String
  expectedVersion : ℤ
  actualVersion : ℤ
deriving DecidableEq

structure PersistenceError where
  operation : String
deriving DecidableEq

structure SerializedEvent where
  type : String
  schemaVersion : ℤ
  payload : Json
deriving DecidableEq

structure EventDecodeError where
  type : String
  schemaVersion : ℤ
  reason : String
deriving DecidableEq

/-- Encodes and decodes the events of a set of types; `encode` throws where it answers `none`. -/
structure EventRegistry (Event : Type) where
  encode : Event → Option SerializedEvent
  decode : SerializedEvent → Except EventDecodeError Event
  has : String → Bool

def StoredEvent.serialized (e : StoredEvent) : SerializedEvent := ⟨e.type,e.schemaVersion,e.payload⟩

/-- Splits a stream name into entity and id at its first `-`. -/
def conflictIdentity (streamName : String) : String × String :=
  let cs := streamName.toList
  if '-' ∈ cs then
    (String.ofList (cs.takeWhile (· ≠ '-')),String.ofList ((cs.dropWhile (· ≠ '-')).drop 1))
  else (streamName,streamName)

def conflict (streamName : String) (expectedVersion actualVersion : ℤ) : ConcurrencyConflict :=
  ⟨(conflictIdentity streamName).1,(conflictIdentity streamName).2,expectedVersion,actualVersion⟩

example : conflictIdentity "order-4-a" = ("order","4-a") := by decide

/-- The characters `String.prototype.trim` removes. -/
def isTrimmed (c : Char) : Bool :=
  c ∈ ['\t','\n','\x0b','\x0c','\r',' ','\u00a0','\u1680','\u2028','\u2029','\u202f','\u205f',
    '\u3000','\ufeff'] || (0x2000 ≤ c.toNat && c.toNat ≤ 0x200a)

/-- `s.trim() === ""`. -/
def isBlank (s : String) : Bool := s.toList.all isTrimmed

/-- `Number.isSafeInteger` of an integer. -/
def isSafeInteger (z : ℤ) : Bool := z.natAbs ≤ 9007199254740991

namespace EventOrigin

def fields (o : EventOrigin) : List (String × Option Json) :=
  [("node",some (.str o.node)),("position",some (.str o.position))]

def toJson (o : EventOrigin) : Json := Json.ofFields o.fields

def ofJson (v : Json) : Option EventOrigin := do
  return ⟨← (v.get "node").bind Json.asString,← (v.get "position").bind Json.asString⟩

end EventOrigin

namespace StoredEventMetadata

def fields (m : StoredEventMetadata) : List (String × Option Json) :=
  [("eventId",some (.str m.eventId)),("occurredAt",some (.str m.occurredAt)),
    ("aggregateName",some (.str m.aggregateName)),("aggregateId",some (.str m.aggregateId)),
    ("aggregateVersion",some (.num m.aggregateVersion)),
    ("correlationId",m.correlationId.map .str),("causationId",m.causationId.map .str),
    ("actor",m.actor.map .str),("partition",m.partition.map .str),
    ("origin",m.origin.map EventOrigin.toJson),("extensions",m.extensions.map .obj)]

def toJson (m : StoredEventMetadata) : Json := Json.ofFields m.fields

/-- The cast of parsed JSON to `StoredEventMetadata`, defined where the value has that shape. -/
def ofJson (v : Json) : Option StoredEventMetadata := do
  return {
    eventId := ← (v.get "eventId").bind Json.asString
    occurredAt := ← (v.get "occurredAt").bind Json.asString
    aggregateName := ← (v.get "aggregateName").bind Json.asString
    aggregateId := ← (v.get "aggregateId").bind Json.asString
    aggregateVersion := ← (v.get "aggregateVersion").bind Json.asNumber
    correlationId := ← Json.optionalMember Json.asString (v.get "correlationId")
    causationId := ← Json.optionalMember Json.asString (v.get "causationId")
    actor := ← Json.optionalMember Json.asString (v.get "actor")
    partition := ← Json.optionalMember Json.asString (v.get "partition")
    origin := ← Json.optionalMember EventOrigin.ofJson (v.get "origin")
    extensions := ← Json.optionalMember Json.asMembers (v.get "extensions") }

theorem get_toJson (m : StoredEventMetadata) {k : String} {v : Option Json} (hk : (k,v) ∈ m.fields) :
    m.toJson.get k = v := by
  have hn : (m.fields.map Prod.fst).Nodup := by
    simp only [fields,List.map_cons,List.map_nil]
    decide
  exact Json.get_ofFields hn hk

end StoredEventMetadata

theorem EventOrigin.get_toJson (o : EventOrigin) {k : String} {v : Option Json}
    (hk : (k,v) ∈ o.fields) : o.toJson.get k = v := by
  have hn : (o.fields.map Prod.fst).Nodup := by
    simp only [fields,List.map_cons,List.map_nil]
    decide
  exact Json.get_ofFields hn hk

theorem EventOrigin.ofJson_toJson (o : EventOrigin) : EventOrigin.ofJson o.toJson = some o := by
  have hn := o.get_toJson (show ("node",some (.str o.node)) ∈ o.fields by simp [fields])
  have hp := o.get_toJson (show ("position",some (.str o.position)) ∈ o.fields by simp [fields])
  simp only [ofJson,hn,hp,Option.bind_some,Json.asString,Option.bind_eq_bind,Option.pure_def]

@[simp] theorem StoredEventMetadata.ofJson_toJson (m : StoredEventMetadata) :
    ofJson m.toJson = some m := by
  have ho : Json.optionalMember EventOrigin.ofJson (m.origin.map EventOrigin.toJson) =
      some m.origin := by
    cases m.origin with
    | none => rfl
    | some o => simp only [Option.map_some,Json.optionalMember,EventOrigin.ofJson_toJson]
  have he : Json.optionalMember Json.asMembers (m.extensions.map .obj) = some m.extensions := by
    cases m.extensions <;> rfl
  have h1 := m.get_toJson (show ("eventId",some (.str m.eventId)) ∈ m.fields by simp [fields])
  have h2 := m.get_toJson (show ("occurredAt",some (.str m.occurredAt)) ∈ m.fields by simp [fields])
  have h3 := m.get_toJson (show ("aggregateName",some (.str m.aggregateName)) ∈ m.fields by simp [fields])
  have h4 := m.get_toJson (show ("aggregateId",some (.str m.aggregateId)) ∈ m.fields by simp [fields])
  have h5 := m.get_toJson (show ("aggregateVersion",some (.num m.aggregateVersion)) ∈ m.fields by simp [fields])
  have h6 := m.get_toJson (show ("correlationId",m.correlationId.map .str) ∈ m.fields by simp [fields])
  have h7 := m.get_toJson (show ("causationId",m.causationId.map .str) ∈ m.fields by simp [fields])
  have h8 := m.get_toJson (show ("actor",m.actor.map .str) ∈ m.fields by simp [fields])
  have h9 := m.get_toJson (show ("partition",m.partition.map .str) ∈ m.fields by simp [fields])
  have h10 := m.get_toJson (show ("origin",m.origin.map EventOrigin.toJson) ∈ m.fields by simp [fields])
  have h11 := m.get_toJson (show ("extensions",m.extensions.map .obj) ∈ m.fields by simp [fields])
  simp only [ofJson,h1,h2,h3,h4,h5,h6,h7,h8,h9,h10,h11,ho,he,Option.bind_some,Json.asString,
    Json.asNumber,Json.optionalMember_str,Option.bind_eq_bind,Option.pure_def]

end StructureAi.EventSourcing

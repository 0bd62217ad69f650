import StructureAi.EventSourcing.EventStoreService
import StructureAi.Foundation.Fibers

/-! # The aggregate runtime over an event store

`execute` loads an aggregate, decides a command and appends the emitted events
at the loaded version. Its accesses to the store are separate steps, so that any
number of executions, of any runtimes, interleave with direct appends. A retry
after a conflict is another execution of the same command.
-/
namespace StructureAi.EventSourcing
open StructureAi.Foundation

structure Aggregate (State Command Event Err : Type) where
  name : String
  initial : State
  decide : State → Command → Except Err (List Event)
  evolve : State → Event → State

/-- `Aggregate.rehydrate`. -/
def Aggregate.rehydrate {State Command Event Err : Type} (aggregate : Aggregate State Command Event Err)
    (events : List Event) (start : State) : State := events.foldl aggregate.evolve start

structure CommandMetadata where
  correlationId : Option String := none
  causationId : Option String := none
  actor : Option String := none
  partition : Option String := none
  extensions : Option (List (String × Json)) := none

/-- What `AggregateStore.make` closes over; `snapshotEvery` is set where snapshots are taken. -/
structure Runtime where
  State : Type
  Command : Type
  Event : Type
  Err : Type
  aggregate : Aggregate State Command Event Err
  registry : EventRegistry Event
  snapshotEvery : Option ℤ

/-- The answers a step takes from the snapshot store, the clock and `crypto.randomUUID`. -/
structure Environment where
  snapshots : (rt : Runtime) → Except PersistenceError (Option (rt.State × ℤ))
  saved : Except PersistenceError Unit
  occurredAt : String
  eventIds : ℕ → String

namespace Runtime
variable (rt : Runtime)

structure Loaded where
  state : rt.State
  version : ℤ
  snapshotVersion : ℤ

structure ExecuteResult where
  state : rt.State
  version : ℤ
  events : List rt.Event

inductive ExecuteFailure where
  | domain (e : rt.Err)
  | store (e : StoreFailure)

inductive Phase where
  | loadSnapshot
  | readStream (start : rt.Loaded)
  | append (loaded : rt.Loaded) (events : List rt.Event) (toAppend : List AppendEvent)
  | saveSnapshot (result : rt.ExecuteResult)
  | done (result : Except rt.ExecuteFailure rt.ExecuteResult)

def streamName (id : String) : String := rt.aggregate.name ++ "-" ++ id

/-- The fold of `loadFrom` over the events read after the snapshot. -/
def loadEvents (start : rt.Loaded) (events : List StoredEvent) : Except EventDecodeError rt.Loaded :=
  events.foldlM (fun loaded stored =>
    (rt.registry.decode stored.serialized).map fun event =>
      {loaded with state := rt.aggregate.evolve loaded.state event, version := stored.version}) start

/-- The metadata of the event at `version`, never with an origin. -/
def metadataOf (id : String) (metadata : Option CommandMetadata) (occurredAt eventId : String)
    (version : ℤ) : StoredEventMetadata where
  eventId := eventId
  occurredAt := occurredAt
  aggregateName := rt.aggregate.name
  aggregateId := id
  aggregateVersion := Decimal.ofInt version
  correlationId := metadata.bind (·.correlationId)
  causationId := metadata.bind (·.causationId)
  actor := metadata.bind (·.actor)
  partition := metadata.bind (·.partition)
  extensions := metadata.bind (·.extensions)

/-- The emitted events from `index` on, encoded and stamped; `none` where encoding throws. -/
def stamp (id : String) (metadata : Option CommandMetadata) (env : Environment) (loadedVersion : ℤ) :
    ℕ → List rt.Event → Option (List AppendEvent)
  | _,[] => some []
  | index,event :: events => do
    let serialized ← rt.registry.encode event
    let rest ← stamp id metadata env loadedVersion (index + 1) events
    return ⟨serialized.type,serialized.schemaVersion,serialized.payload,
      rt.metadataOf id metadata env.occurredAt (env.eventIds index) (loadedVersion + index + 1)⟩ :: rest

/-- The decision on a loaded state and the stamping of its events. -/
def decided (id : String) (command : rt.Command) (metadata : Option CommandMetadata)
    (env : Environment) (loaded : rt.Loaded) : rt.Phase :=
  match rt.aggregate.decide loaded.state command with
  | .error e => .done (.error (.domain e))
  | .ok events =>
    if events.length = 0 then .done (.ok ⟨loaded.state,loaded.version,[]⟩)
    else match rt.stamp id metadata env loaded.version 0 events with
      | none => .done (.error (.store (.defect "encode")))
      | some toAppend => .append loaded events toAppend

def appended (loaded : rt.Loaded) (events : List rt.Event) (result : AppendResult) : rt.Phase :=
  let state := rt.aggregate.rehydrate events loaded.state
  let answer : rt.ExecuteResult := ⟨state,result.lastVersion,events⟩
  match rt.snapshotEvery with
  | none => .done (.ok answer)
  | some snapshotEvery =>
    if result.lastVersion - loaded.snapshotVersion ≥ snapshotEvery then .saveSnapshot answer
    else .done (.ok answer)

end Runtime

/-- One call of `execute` on its way. -/
structure Execution where
  runtime : Runtime
  id : String
  command : runtime.Command
  metadata : Option CommandMetadata
  phase : runtime.Phase

namespace Execution

def start (rt : Runtime) (id : String) (command : rt.Command) (metadata : Option CommandMetadata) :
    Execution where
  runtime := rt
  id := id
  command := command
  metadata := metadata
  phase := match rt.snapshotEvery with
    | none => .readStream ⟨rt.aggregate.initial,0,0⟩
    | some _ => .loadSnapshot

def streamName (x : Execution) : String := x.runtime.streamName x.id

def partition (x : Execution) : Option String := x.metadata.bind (·.partition)

variable {S : Type} (svc : EventStoreService S) (env : Environment)

/-- The next access of an execution to the store or to the snapshot store; a finished one takes
none. -/
def proceed (x : Execution) (s : S) : Option (S × Execution) :=
  match x.phase with
  | .loadSnapshot => some (s,{x with phase := match env.snapshots x.runtime with
      | .error e => .done (.error (.store (.persistence e)))
      | .ok none => .readStream ⟨x.runtime.aggregate.initial,0,0⟩
      | .ok (some (state,version)) => .readStream ⟨state,version,version⟩})
  | .readStream start => some (s,{x with
      phase := match svc.read s x.streamName (some (start.version + 1)) with
        | .error e => .done (.error (.store e))
        | .ok events => match x.runtime.loadEvents start events with
          | .error e => .done (.error (.store (.eventDecode e)))
          | .ok loaded => x.runtime.decided x.id x.command x.metadata env loaded})
  | .append loaded events toAppend =>
    let r := svc.append s x.streamName loaded.version toAppend
    some (r.1,{x with phase := match r.2 with
      | .error e => .done (.error (.store e))
      | .ok result => x.runtime.appended loaded events result})
  | .saveSnapshot result => some (s,{x with phase := match env.saved with
      | .error e => .done (.error (.store (.persistence e)))
      | .ok () => .done (.ok result)})
  | .done _ => none

end Execution

structure AggregateStores (S : Type) where
  store : S
  executions : Fibers Execution

namespace AggregateStores

inductive Label where
  | append (streamName : String) (expectedVersion : ℤ) (events : List AppendEvent)
  | eraseStream (request : StreamErasureRequest) (erasedAt : String)
  | execute (fiber : ℕ) (rt : Runtime) (id : String) (command : rt.Command)
      (metadata : Option CommandMetadata)
  | proceed (fiber : ℕ) (env : Environment)
  | interrupt (fiber : ℕ)

variable {S : Type} (svc : EventStoreService S)

def step (x : AggregateStores S) : Label → Option (AggregateStores S)
  | .append streamName expectedVersion events =>
    some {x with store := (svc.append x.store streamName expectedVersion events).1}
  | .eraseStream request erasedAt =>
    some {x with store := (svc.eraseStream x.store request erasedAt).1}
  | .execute fiber rt id command metadata =>
    if x.executions fiber = none then some {x with
      executions := x.executions.set fiber (Execution.start rt id command metadata)}
    else none
  | .proceed fiber env => do
    let (store,execution) ← (← x.executions fiber).proceed svc env x.store
    return ⟨store,x.executions.set fiber execution⟩
  | .interrupt fiber => some {x with executions := x.executions.remove fiber}

/-- Any runtimes and direct writers on one event store that starts empty. -/
def runs : System (AggregateStores S) Label := ⟨⟨svc.init,Fibers.empty⟩,step svc⟩

end AggregateStores
end StructureAi.EventSourcing

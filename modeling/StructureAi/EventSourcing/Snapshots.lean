import StructureAi.EventSourcing.AggregateStore
import StructureAi.Foundation.Table

/-! # Loads and executions beside a snapshot store

The runtimes of one aggregate share an event store and a snapshot store. Each access
of a call to either is a step of its own, and so are the ledger write and the snapshot
removal of an erasure outside a transaction.
-/
namespace StructureAi.EventSourcing
open StructureAi.Foundation

structure SnapshotStoreService (C State : Type) where
  init : C
  load : C → String → Option (State × ℤ)
  save : C → String → State → ℤ → C
  remove : C → String → C

structure SnapshotStoreService.Lawful {C State : Type} (snapshots : SnapshotStoreService C State) : Prop where
  load_init : ∀ streamName, snapshots.load snapshots.init streamName = none
  load_save : ∀ c streamName state version,
    snapshots.load (snapshots.save c streamName state version) streamName = some (state,version)
  load_save_ne : ∀ c streamName other state version, other ≠ streamName →
    snapshots.load (snapshots.save c streamName state version) other = snapshots.load c other
  load_remove : ∀ c streamName, snapshots.load (snapshots.remove c streamName) streamName = none
  load_remove_ne : ∀ c streamName other, other ≠ streamName →
    snapshots.load (snapshots.remove c streamName) other = snapshots.load c other

def inMemorySnapshotStore (State : Type) : SnapshotStoreService (JsMap (State × ℤ)) State where
  init := ∅
  load c streamName := c.lookup streamName
  save c streamName state version := c.insert streamName (state,version)
  remove c streamName := c.erase streamName

theorem inMemorySnapshotStore_lawful (State : Type) : (inMemorySnapshotStore State).Lawful where
  load_init _ := rfl
  load_save c _ _ _ := AList.lookup_insert c
  load_save_ne _ _ _ _ _ h := AList.lookup_insert_ne h
  load_remove c streamName := AList.lookup_erase streamName c
  load_remove_ne _ _ _ h := AList.lookup_erase_ne h

structure SnapshotRow where
  streamName : String
  state : String
  version : ℤ

/-- How the SQL adapters keep a state as JSON text. -/
structure StateCodec (State : Type) where
  encode : State → Json
  decode : Json → Option State
  decode_encode : ∀ state, decode (encode state) = some state

def sqlSnapshotStore {State : Type} (codec : StateCodec State) :
    SnapshotStoreService (List SnapshotRow) State where
  init := []
  load rows streamName := do
    let row ← rows.find? fun r => r.streamName = streamName
    let state ← codec.decode (← Json.parse row.state)
    return (state,row.version)
  save rows streamName state version :=
    upsert SnapshotRow.streamName ⟨streamName,(codec.encode state).stringify,version⟩ rows
  remove rows streamName := deleteWhere (fun r => r.streamName = streamName) rows

theorem sqlSnapshotStore_lawful {State : Type} (codec : StateCodec State) :
    (sqlSnapshotStore codec).Lawful where
  load_init _ := rfl
  load_save rows streamName state version := by
    simp only [sqlSnapshotStore,find?_upsert,if_true,Option.bind_eq_bind,Option.bind_some,
      Json.parse_stringify,codec.decode_encode]
    rfl
  load_save_ne rows streamName other state version h := by
    simp only [sqlSnapshotStore,find?_upsert,if_neg h]
  load_remove rows streamName := by
    have hnone : (deleteWhere (fun r : SnapshotRow => r.streamName = streamName) rows).find?
        (fun r => r.streamName = streamName) = none := by
      rw [List.find?_eq_none]
      intro r hr hs
      have hn := (List.mem_filter.mp hr).2
      dsimp only at hn hs
      rw [hs] at hn
      cases hn
    simp only [sqlSnapshotStore,hnone,Option.bind_eq_bind,Option.bind_none]
  load_remove_ne rows streamName other h := by
    have hsame : (deleteWhere (fun r : SnapshotRow => r.streamName = streamName) rows).find?
        (fun r => r.streamName = other) = rows.find? fun r => r.streamName = other := by
      rw [deleteWhere,List.find?_filter]
      refine congrArg (List.find? · rows) (funext fun r => ?_)
      by_cases hr : r.streamName = other
      · simp [hr,h]
      · simp [hr]
    simp only [sqlSnapshotStore,hsame]

/-- One aggregate, for which `make` builds runtimes with any `snapshotEvery`. -/
structure AggregateKind (State Command Event Err : Type) where
  aggregate : Aggregate State Command Event Err
  registry : EventRegistry Event
  /-- Whether a domain error is itself tagged `ConcurrencyConflict`, as `executeWithRetry` asks. -/
  tagged : Err → Bool

variable {State Command Event Err : Type}

abbrev AggregateKind.runtime (kind : AggregateKind State Command Event Err) (snapshotEvery : Option ℤ) :
    Runtime := ⟨State,Command,Event,Err,kind.aggregate,kind.registry,snapshotEvery⟩

inductive Request (Command : Type) where
  | load
  | execute (command : Command) (metadata : Option CommandMetadata)

/-- A call of `load`, of `execute`, or of `executeWithRetry` with some retries left. -/
structure Call (kind : AggregateKind State Command Event Err) where
  snapshotEvery : Option ℤ
  id : String
  request : Request Command
  retries : ℕ
  phase : (kind.runtime snapshotEvery).Phase
  /-- How many calls had begun before it. -/
  begun : ℕ

namespace Call
variable {kind : AggregateKind State Command Event Err} (x : Call kind)

def streamName : String := (kind.runtime x.snapshotEvery).streamName x.id

/-- `loadFrom` asks the snapshot store where one is used. -/
def firstPhase (kind : AggregateKind State Command Event Err) :
    (snapshotEvery : Option ℤ) → (kind.runtime snapshotEvery).Phase
  | none => .readStream ⟨kind.aggregate.initial,0,0⟩
  | some _ => .loadSnapshot

def retriable (kind : AggregateKind State Command Event Err) {snapshotEvery : Option ℤ} :
    (kind.runtime snapshotEvery).ExecuteFailure → Bool
  | .store (.concurrencyConflict _) => true
  | .domain e => kind.tagged e
  | _ => false

/-- The call fails, or starts over after a conflict. -/
def fail (e : (kind.runtime x.snapshotEvery).ExecuteFailure) : Call kind :=
  if 0 < x.retries ∧ retriable kind e then
    {x with retries := x.retries - 1, phase := firstPhase kind x.snapshotEvery}
  else {x with phase := .done (.error e)}

def goOn (phase : (kind.runtime x.snapshotEvery).Phase) : Call kind :=
  match phase with
  | .done (.error e) => x.fail e
  | phase => {x with phase := phase}

def use (env : Environment) (loaded : (kind.runtime x.snapshotEvery).Loaded) : Call kind :=
  match x.request with
  | .load => {x with phase := .done (.ok ⟨loaded.state,loaded.version,[]⟩)}
  | .execute command metadata =>
    x.goOn ((kind.runtime x.snapshotEvery).decided x.id command metadata env loaded)

variable {S C : Type} (svc : EventStoreService S) (snapshots : SnapshotStoreService C State)
  (env : Environment)

/-- The next access of a call to the event store or to the snapshot store; the clock and the ids of
`env` are used, its snapshots are not. -/
def proceed (s : S) (c : C) : Option (S × C × Call kind) :=
  match x.phase with
  | .loadSnapshot => some (s,c,{x with phase := match snapshots.load c x.streamName with
      | none => .readStream ⟨kind.aggregate.initial,0,0⟩
      | some (state,version) => .readStream ⟨state,version,version⟩})
  | .readStream start => some (s,c,match svc.read s x.streamName (some (start.version + 1)) with
    | .error e => x.fail (.store e)
    | .ok events => match (kind.runtime x.snapshotEvery).loadEvents start events with
      | .error e => x.fail (.store (.eventDecode e))
      | .ok loaded => x.use env loaded)
  | .append loaded events toAppend =>
    let r := svc.append s x.streamName loaded.version toAppend
    some (r.1,c,match r.2 with
      | .error e => x.fail (.store e)
      | .ok result => {x with phase := (kind.runtime x.snapshotEvery).appended loaded events result})
  | .saveSnapshot result =>
    some (s,snapshots.save c x.streamName result.state result.version,{x with phase := .done (.ok result)})
  | .done _ => none

/-- The snapshot the next step of the call saves. -/
def saves : Option (State × ℤ) :=
  match x.phase with
  | .saveSnapshot result => some (result.state,result.version)
  | _ => none

inductive Failure (Err : Type) where
  | domain (e : Err)
  | store (e : StoreFailure)

/-- What a call has returned: state, version and events, or its error. -/
def answer : Option (Except (Failure Err) (State × ℤ × List Event)) :=
  match x.phase with
  | .done (.ok r) => some (.ok (r.state,r.version,r.events))
  | .done (.error (.domain e)) => some (.error (.domain e))
  | .done (.error (.store e)) => some (.error (.store e))
  | _ => none

def finished : Bool := x.answer.isSome

end Call

inductive EraserPhase where
  | ledger
  | removeSnapshot
  | done (result : Except StoreFailure Unit)

/-- A call of `eraseStream` on its way. -/
structure Eraser where
  request : StreamErasureRequest
  /-- Whether it removes snapshots from the aggregate's store: in memory its context provides that store with
  a `remove`, and the SQLite adapter deletes from its own table. -/
  removes : Bool
  phase : EraserPhase

/-- One aggregate's calls and erasures over one event store and one snapshot store. -/
structure Snapshotted (S C : Type) (kind : AggregateKind State Command Event Err) where
  store : S
  snapshots : C
  calls : Fibers (Call kind)
  erasers : Fibers Eraser
  /-- How many calls have begun. -/
  begun : ℕ
  /-- Every snapshot ever stored. -/
  saved : List (String × State × ℤ)
  /-- The streams whose erasure has succeeded. -/
  erased : List String

namespace Snapshotted

inductive Label (Command : Type) where
  | append (streamName : String) (expectedVersion : ℤ) (events : List AppendEvent)
  | call (fiber : ℕ) (snapshotEvery : Option ℤ) (id : String) (request : Request Command) (retries : ℕ)
  | proceed (fiber : ℕ) (env : Environment)
  | interrupt (fiber : ℕ)
  | eraseStream (eraser : ℕ) (removes : Bool) (request : StreamErasureRequest)
  | proceedErasure (eraser : ℕ) (erasedAt : String)
  | interruptErasure (eraser : ℕ)

variable {S C : Type} {kind : AggregateKind State Command Event Err} (svc : EventStoreService S)
  (snapshots : SnapshotStoreService C State) (transactional : Bool) (x : Snapshotted S C kind)

def succeed (eraser : ℕ) (e : Eraser) : Snapshotted S C kind := {x with
  erasers := x.erasers.set eraser {e with phase := .done (.ok ())}
  erased := e.request.streamName :: x.erased}

def removeSnapshot (streamName : String) : Snapshotted S C kind :=
  {x with snapshots := snapshots.remove x.snapshots streamName}

/-- The ledger write, which takes the snapshot removal with it in a transaction. There an erasure
that is already recorded is answered before the removal. -/
def writeLedger (eraser : ℕ) (e : Eraser) (erasedAt : String) : Snapshotted S C kind :=
  let r := svc.eraseStream x.store e.request erasedAt
  let y : Snapshotted S C kind := {x with store := r.1}
  match r.2 with
  | .error failure => {y with erasers := x.erasers.set eraser {e with phase := .done (.error failure)}}
  | .ok _ =>
    if transactional then
      (if svc.isErased x.store e.request.streamName || !e.removes then y
        else y.removeSnapshot snapshots e.request.streamName).succeed eraser e
    else if e.removes then {y with erasers := x.erasers.set eraser {e with phase := .removeSnapshot}}
    else y.succeed eraser e

def step : Label Command → Option (Snapshotted S C kind)
  | .append streamName expectedVersion events =>
    some {x with store := (svc.append x.store streamName expectedVersion events).1}
  | .call fiber snapshotEvery id request retries =>
    match x.calls fiber with
    | some _ => none
    | none => some {x with
        calls := x.calls.set fiber
          ⟨snapshotEvery,id,request,retries,Call.firstPhase kind snapshotEvery,x.begun⟩
        begun := x.begun + 1}
  | .proceed fiber env => (x.calls fiber).bind fun call =>
    (call.proceed svc snapshots env x.store x.snapshots).map fun r => {x with
      store := r.1
      snapshots := r.2.1
      calls := x.calls.set fiber r.2.2
      saved := x.saved ++ (call.saves.map fun p => (call.streamName,p)).toList}
  | .interrupt fiber => some {x with calls := x.calls.remove fiber}
  | .eraseStream eraser removes request =>
    match x.erasers eraser with
    | some _ => none
    | none => some {x with erasers := x.erasers.set eraser ⟨request,removes,.ledger⟩}
  | .proceedErasure eraser erasedAt => (x.erasers eraser).bind fun e =>
    match e.phase with
    | .ledger => some (x.writeLedger svc snapshots transactional eraser e erasedAt)
    | .removeSnapshot => some ((x.removeSnapshot snapshots e.request.streamName).succeed eraser e)
    | .done _ => none
  | .interruptErasure eraser => some {x with erasers := x.erasers.remove eraser}

variable {svc snapshots transactional x}

theorem step_call {y : Snapshotted S C kind} {fiber : ℕ} {snapshotEvery : Option ℤ} {id : String}
    {request : Request Command} {retries : ℕ}
    (h : step svc snapshots transactional x (.call fiber snapshotEvery id request retries) = some y) :
    x.calls fiber = none ∧ y = {x with
      calls := x.calls.set fiber
        ⟨snapshotEvery,id,request,retries,Call.firstPhase kind snapshotEvery,x.begun⟩
      begun := x.begun + 1} := by
  cases hc : x.calls fiber with
  | some _ =>
    simp only [step,hc] at h
    cases h
  | none =>
    simp only [step,hc,Option.some.injEq] at h
    exact ⟨rfl,h.symm⟩

theorem step_proceed {y : Snapshotted S C kind} {fiber : ℕ} {env : Environment}
    (h : step svc snapshots transactional x (.proceed fiber env) = some y) :
    ∃ call r, x.calls fiber = some call ∧ call.proceed svc snapshots env x.store x.snapshots = some r ∧
      y = {x with
        store := r.1
        snapshots := r.2.1
        calls := x.calls.set fiber r.2.2
        saved := x.saved ++ (call.saves.map fun p => (call.streamName,p)).toList} := by
  obtain ⟨call,hcall,h⟩ := Option.bind_eq_some_iff.mp h
  obtain ⟨r,hp,rfl⟩ := Option.map_eq_some_iff.mp h
  exact ⟨call,r,hcall,hp,rfl⟩

theorem writeLedger_error {eraser : ℕ} {e : Eraser} {erasedAt : String} {failure : StoreFailure}
    (h : (svc.eraseStream x.store e.request erasedAt).2 = .error failure) :
    x.writeLedger svc snapshots transactional eraser e erasedAt = {x with
      store := (svc.eraseStream x.store e.request erasedAt).1
      erasers := x.erasers.set eraser {e with phase := .done (.error failure)}} := by
  simp only [writeLedger,h]

theorem writeLedger_ok {eraser : ℕ} {e : Eraser} {erasedAt : String} {result : StreamErasureResult}
    (h : (svc.eraseStream x.store e.request erasedAt).2 = .ok result) :
    x.writeLedger svc snapshots transactional eraser e erasedAt =
      let y : Snapshotted S C kind := {x with store := (svc.eraseStream x.store e.request erasedAt).1}
      if transactional then
        (if svc.isErased x.store e.request.streamName || !e.removes then y
          else y.removeSnapshot snapshots e.request.streamName).succeed eraser e
      else if e.removes then {y with erasers := x.erasers.set eraser {e with phase := .removeSnapshot}}
      else y.succeed eraser e := by
  simp only [writeLedger,h]

theorem step_eraseStream {y : Snapshotted S C kind} {eraser : ℕ} {removes : Bool} {request : StreamErasureRequest}
    (h : step svc snapshots transactional x (.eraseStream eraser removes request) = some y) :
    y = {x with erasers := x.erasers.set eraser ⟨request,removes,.ledger⟩} := by
  cases he : x.erasers eraser with
  | some _ =>
    simp only [step,he] at h
    cases h
  | none =>
    simp only [step,he,Option.some.injEq] at h
    exact h.symm

theorem step_proceedErasure {y : Snapshotted S C kind} {eraser : ℕ} {erasedAt : String}
    (h : step svc snapshots transactional x (.proceedErasure eraser erasedAt) = some y) :
    ∃ e, x.erasers eraser = some e ∧
      ((e.phase = .ledger ∧ y = x.writeLedger svc snapshots transactional eraser e erasedAt) ∨
        (e.phase = .removeSnapshot ∧
          y = (x.removeSnapshot snapshots e.request.streamName).succeed eraser e)) := by
  obtain ⟨e,he,h⟩ := Option.bind_eq_some_iff.mp h
  refine ⟨e,he,?_⟩
  split at h
  next hphase => exact Or.inl ⟨hphase,(Option.some.inj h).symm⟩
  next hphase => exact Or.inr ⟨hphase,(Option.some.inj h).symm⟩
  · cases h

variable (svc snapshots transactional)

/-- Any runtimes, direct writers and erasures in any order, over stores that start empty. -/
def runs (kind : AggregateKind State Command Event Err) : System (Snapshotted S C kind) (Label Command) :=
  ⟨⟨svc.init,snapshots.init,Fibers.empty,Fibers.empty,0,[],[]⟩,step svc snapshots transactional⟩

end Snapshotted
end StructureAi.EventSourcing

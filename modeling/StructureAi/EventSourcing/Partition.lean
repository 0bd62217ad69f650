import StructureAi.EventSourcing.AggregateStore
import StructureAi.Sqlite.Agreement

/-! # The partition of a stream

Nothing on the way of an append compares the partition of its events with the
stream's, so a stream keeps one partition in the runs whose appends carry it,
and in no others.
-/
namespace StructureAi.EventSourcing
open StructureAi.Foundation StructureAi.Sqlite

namespace EventLog
variable {l : EventLog}

/-- All events of one stream carry the same partition. -/
def OnePartition (l : EventLog) : Prop :=
  ∀ streamName, ∃ partition, ∀ e ∈ l.stream streamName, e.metadata.partition = partition

theorem onePartition_empty : EventLog.empty.OnePartition := by
  intro streamName
  exact ⟨none,fun e he => absurd he List.not_mem_nil⟩

theorem partition_of_mem_stampFrom {streamName : String} {position version : ℤ}
    {events : List AppendEvent} {partition : Option String}
    (h : ∀ e ∈ events, e.metadata.partition = partition) :
    ∀ e ∈ stampFrom streamName position version events, e.metadata.partition = partition := by
  induction events generalizing position version with
  | nil => exact fun e he => absurd he List.not_mem_nil
  | cons a as ih =>
    obtain ⟨ha,has⟩ := List.forall_mem_cons.mp h
    exact List.forall_mem_cons.mpr ⟨ha,ih has⟩

/-- An append keeps streams within their partition if, where the version check admits it, it
carries the partition of its stream. -/
theorem OnePartition.append (h : l.OnePartition) {streamName : String} {expectedVersion : ℤ}
    {events : List AppendEvent}
    (hagree : l.erased streamName = none → l.version streamName = expectedVersion →
      ∃ partition, (∀ e ∈ events, e.metadata.partition = partition) ∧
        ∀ e ∈ l.stream streamName, e.metadata.partition = partition) :
    (l.append streamName expectedVersion events).1.OnePartition := by
  rcases l.append_cases streamName expectedVersion events with
    ⟨e,ha⟩ | ⟨hr,hv,⟨-,ha⟩ | ⟨-,ha⟩⟩ <;> rw [ha]
  · exact h
  · exact h
  · intro other
    rw [stream,extend,streamOf_append]
    by_cases hn : other = streamName
    · subst hn
      obtain ⟨partition,hevents,hstream⟩ := hagree hr hv
      rw [streamOf_stampFrom_self]
      exact ⟨partition,List.forall_mem_append.mpr ⟨hstream,partition_of_mem_stampFrom hevents⟩⟩
    · rw [streamOf_stampFrom_ne hn,List.append_nil]
      exact h other

theorem OnePartition.eraseStream (h : l.OnePartition) (request : StreamErasureRequest)
    (erasedAt : String) : (l.eraseStream request erasedAt).1.OnePartition := by
  rcases l.eraseStream_cases request erasedAt with ⟨e,he⟩ | ⟨record,-,he⟩ | ⟨-,he⟩ <;> rw [he]
  · exact h
  · exact h
  · intro other
    rw [stream,EventLog.pin,streamOf_eraseIn]
    by_cases hn : other = request.streamName
    · subst hn
      rw [eraseIn_streamOf_self]
      refine ⟨none,fun e he => ?_⟩
      obtain ⟨e',-,rfl⟩ := List.mem_map.mp he
      exact e'.erase_partition erasedAt
    · rw [eraseIn_streamOf_ne hn]
      exact h other

theorem inPartitions_congr {e e' : StoredEvent} (h : e.metadata.partition = e'.metadata.partition)
    (partitions : Option (List String)) : inPartitions partitions e = inPartitions partitions e' := by
  cases partitions with
  | none => rfl
  | some ps => simp only [inPartitions,h]

end EventLog

namespace EventStoreService
variable {S : Type} (svc : EventStoreService S)

/-- An append at this version passes the ledger and the version check. -/
def Admits (s : S) (streamName : String) (expectedVersion : ℤ) : Prop :=
  svc.isErased s streamName = false ∧ ((svc.stream s streamName).length : ℤ) = expectedVersion

/-- The events of a stream that is not erased carry one partition, and a read of some partitions
answers all events of a stream or none. -/
def PartitionFixed (s : S) : Prop :=
  (∀ streamName, svc.isErased s streamName = false →
    ∃ events, svc.read s streamName none = .ok events ∧
      ∀ e ∈ events, ∀ e' ∈ events, e.metadata.partition = e'.metadata.partition) ∧
  ∀ partition, ∃ all kept, svc.readAll s {} = .ok all ∧
    svc.readAll s {partition := some partition} = .ok kept ∧
    ∀ streamName, (∀ e ∈ all, e.streamName = streamName → e ∈ kept) ∨
      ∀ e ∈ kept, e.streamName ≠ streamName

variable {svc} {R : S → EventLog → Prop}

theorem KeepsLog.admits (hk : svc.KeepsLog R) {s : S} {l : EventLog} (h : R s l)
    {streamName : String} {expectedVersion : ℤ} (he : l.erased streamName = none)
    (hv : l.version streamName = expectedVersion) : svc.Admits s streamName expectedVersion := by
  constructor
  · rw [Bool.eq_false_iff]
    intro hc
    exact (hk.isErased s l streamName h).mp hc he
  · rw [hk.stream_eq h]
    exact hv

theorem KeepsLog.partitionFixed (hk : svc.KeepsLog R) {s : S} {l : EventLog} (h : R s l)
    (hp : l.OnePartition) : svc.PartitionFixed s := by
  have hw := hk.wellFormed s l h
  constructor
  · intro streamName _
    refine ⟨l.stream streamName,?_,fun e he e' he' => ?_⟩
    · rw [hk.read s l streamName none h,hw.readOf_stream]
    · obtain ⟨partition,hq⟩ := hp streamName
      rw [hq e he,hq e' he']
  · intro partition
    refine ⟨_,_,hk.readAll s l {} h,hk.readAll s l {partition := some partition} h,?_⟩
    rw [hw.readAllOf_partition,hw.readAllOf_partition]
    intro streamName
    obtain ⟨q,hq⟩ := hp streamName
    have hcarry : ∀ e ∈ l.log, e.streamName = streamName → e.metadata.partition = q := by
      intro e he hn
      exact hq e (List.mem_filter.mpr ⟨he,by simpa using hn⟩)
    by_cases hex : ∃ e ∈ l.log, e.streamName = streamName ∧
      inPartitions (readAllPartitions (some partition)) e = true
    · obtain ⟨e,he,hn,hin⟩ := hex
      left
      intro e' he' hn'
      have hlog := (List.mem_filter.mp he').1
      refine List.mem_filter.mpr ⟨hlog,?_⟩
      rwa [EventLog.inPartitions_congr ((hcarry e' hlog hn').trans (hcarry e he hn).symm)]
    · right
      intro e he hn
      obtain ⟨hlog,hin⟩ := List.mem_filter.mp he
      exact hex ⟨e,hlog,hn,hin⟩

end EventStoreService

/-- The appended events of an execution carry the partition its caller passed. -/
def Execution.Stamped (x : Execution) : Prop :=
  ∀ loaded events toAppend, x.phase = .append loaded events toAppend →
    ∀ e ∈ toAppend, e.metadata.partition = x.partition

theorem Runtime.partition_of_stamp {rt : Runtime} {id : String} {metadata : Option CommandMetadata}
    {env : Environment} {version : ℤ} {index : ℕ} {events : List rt.Event} {toAppend : List AppendEvent}
    (h : rt.stamp id metadata env version index events = some toAppend) :
    ∀ e ∈ toAppend, e.metadata.partition = metadata.bind (·.partition) := by
  induction events generalizing index toAppend with
  | nil =>
    obtain rfl := Option.some.inj h
    exact fun e he => absurd he List.not_mem_nil
  | cons event events ih =>
    simp only [Runtime.stamp,Option.bind_eq_bind,Option.bind_eq_some_iff,Option.pure_def,
      Option.some.injEq] at h
    obtain ⟨serialized,-,rest,hrest,rfl⟩ := h
    exact List.forall_mem_cons.mpr ⟨rfl,ih hrest⟩

theorem Runtime.stamped_of_decided {rt : Runtime} {id : String} {command : rt.Command}
    {metadata : Option CommandMetadata} {env : Environment} {start loaded : rt.Loaded}
    {events : List rt.Event} {toAppend : List AppendEvent}
    (h : rt.decided id command metadata env start = .append loaded events toAppend) :
    ∀ e ∈ toAppend, e.metadata.partition = metadata.bind (·.partition) := by
  unfold Runtime.decided at h
  split at h
  · cases h
  split at h
  · cases h
  split at h
  · cases h
  next hs =>
    cases h
    exact partition_of_stamp hs

theorem Runtime.appended_ne_append {rt : Runtime} {start loaded : rt.Loaded} {emitted events : List rt.Event}
    {result : AppendResult} {toAppend : List AppendEvent} :
    rt.appended start emitted result ≠ .append loaded events toAppend := by
  unfold Runtime.appended
  dsimp only
  intro h
  split at h
  · cases h
  · split at h <;> cases h

theorem Execution.stamped_start (rt : Runtime) (id : String) (command : rt.Command)
    (metadata : Option CommandMetadata) : (Execution.start rt id command metadata).Stamped := by
  intro loaded events toAppend h
  unfold Execution.start at h
  dsimp only at h
  split at h <;> cases h

theorem Execution.proceed_cases {S : Type} {svc : EventStoreService S} {env : Environment}
    {x x' : Execution} {s s' : S} (h : x.proceed svc env s = some (s',x')) :
    x'.Stamped ∧ (s' = s ∨ ∃ loaded events toAppend, x.phase = .append loaded events toAppend ∧
      s' = (svc.append s x.streamName loaded.version toAppend).1) := by
  unfold Execution.proceed at h
  cases hp : x.phase with
  | loadSnapshot =>
    rw [hp] at h
    cases h
    refine ⟨?_,Or.inl rfl⟩
    intro loaded events toAppend hphase
    dsimp only at hphase
    split at hphase <;> cases hphase
  | readStream start =>
    rw [hp] at h
    cases h
    refine ⟨?_,Or.inl rfl⟩
    intro loaded events toAppend hphase
    dsimp only at hphase
    split at hphase
    · cases hphase
    split at hphase
    · cases hphase
    · exact Runtime.stamped_of_decided hphase
  | append loaded events toAppend =>
    rw [hp] at h
    cases h
    refine ⟨?_,Or.inr ⟨loaded,events,toAppend,rfl,rfl⟩⟩
    intro loaded events toAppend hphase
    dsimp only at hphase
    split at hphase
    · cases hphase
    · exact absurd hphase Runtime.appended_ne_append
  | saveSnapshot result =>
    rw [hp] at h
    cases h
    refine ⟨?_,Or.inl rfl⟩
    intro loaded events toAppend hphase
    dsimp only at hphase
    split at hphase <;> cases hphase
  | done result =>
    rw [hp] at h
    cases h

namespace AggregateStores
variable {S : Type} {svc : EventStoreService S} {R : S → EventLog → Prop}

/-- Where the step is an append that the store admits, its events carry the partition of the
stream. -/
def CarriesPartition (svc : EventStoreService S) (x : AggregateStores S) : Label → Prop
  | .append streamName expectedVersion events => svc.Admits x.store streamName expectedVersion →
    ∃ partition, (∀ e ∈ events, e.metadata.partition = partition) ∧
      ∀ e ∈ svc.stream x.store streamName, e.metadata.partition = partition
  | .proceed fiber _ => ∀ execution, x.executions fiber = some execution →
    ∀ loaded events toAppend, execution.phase = .append loaded events toAppend →
      svc.Admits x.store execution.streamName loaded.version →
      ∀ e ∈ svc.stream x.store execution.streamName, e.metadata.partition = execution.partition
  | _ => True

/-- The store stands for a log of streams with one partition each, and the events about to be
appended carry their callers' partitions. -/
structure Partitioned (R : S → EventLog → Prop) (x : AggregateStores S) : Prop where
  log : ∃ l, R x.store l ∧ l.OnePartition
  stamped : x.executions.All Execution.Stamped

theorem Partitioned.step (hk : svc.KeepsLog R) {x x' : AggregateStores S} {label : Label}
    (h : x.Partitioned R) (hc : x.CarriesPartition svc label) (hs : x.step svc label = some x') :
    x'.Partitioned R := by
  obtain ⟨l,hr,hp⟩ := h.log
  cases label with
  | append streamName expectedVersion events =>
    obtain rfl := Option.some.inj hs
    refine ⟨⟨_,(hk.append _ _ streamName expectedVersion events hr).1,hp.append ?_⟩,h.stamped⟩
    intro he hv
    rw [← hk.stream_eq hr]
    exact hc (hk.admits hr he hv)
  | eraseStream request erasedAt =>
    obtain rfl := Option.some.inj hs
    exact ⟨⟨_,(hk.eraseStream _ _ request erasedAt hr).1,hp.eraseStream request erasedAt⟩,h.stamped⟩
  | execute fiber rt id command metadata =>
    simp only [AggregateStores.step] at hs
    split at hs
    · obtain rfl := Option.some.inj hs
      exact ⟨⟨l,hr,hp⟩,h.stamped.set (Execution.stamped_start rt id command metadata)⟩
    · cases hs
  | proceed fiber env =>
    simp only [AggregateStores.step,Option.bind_eq_bind,Option.bind_eq_some_iff,Option.pure_def,
      Option.some.injEq,Prod.exists] at hs
    obtain ⟨execution,hx,s',execution',hproceed,rfl⟩ := hs
    obtain ⟨hst,hs'⟩ := Execution.proceed_cases hproceed
    have hup : (x.executions.set fiber execution').All Execution.Stamped := h.stamped.set hst
    rcases hs' with rfl | ⟨loaded,events,toAppend,hphase,rfl⟩
    · exact ⟨⟨l,hr,hp⟩,hup⟩
    · refine ⟨⟨_,(hk.append _ _ execution.streamName loaded.version toAppend hr).1,hp.append ?_⟩,hup⟩
      intro he hv
      refine ⟨execution.partition,h.stamped fiber execution hx loaded events toAppend hphase,?_⟩
      rw [← hk.stream_eq hr]
      exact hc execution hx loaded events toAppend hphase (hk.admits hr he hv)
  | interrupt fiber =>
    obtain rfl := Option.some.inj hs
    exact ⟨⟨l,hr,hp⟩,h.stamped.remove⟩

/-- In the runs whose admitted appends carry the partition of their stream, the partition of a
stream is fixed. -/
theorem partitionFixed_of_reaches (hk : svc.KeepsLog R) {x : AggregateStores S}
    (h : (runs svc).Reaches (CarriesPartition svc) x) : svc.PartitionFixed x.store := by
  have hp : x.Partitioned R := by
    refine h.invariant (Partitioned R) ?_ ?_
    · exact ⟨⟨EventLog.empty,hk.init,EventLog.onePartition_empty⟩,Fibers.all_empty _⟩
    · intro a label b ha hc hs
      exact ha.step hk hc hs
  obtain ⟨l,hr,hone⟩ := hp.log
  exact hk.partitionFixed hr hone

/-- Over either store, for any runtimes, commands and direct appends. -/
theorem stream_partition_fixed (x : AggregateStores EventStoreState) (y : AggregateStores Sqlite.Database) :
    ((runs inMemoryService).Reaches (CarriesPartition inMemoryService) x →
      inMemoryService.PartitionFixed x.store) ∧
    ((runs sqliteService).Reaches (CarriesPartition sqliteService) y →
      sqliteService.PartitionFixed y.store) :=
  ⟨fun h => partitionFixed_of_reaches inMemoryService_keepsLog h,
    fun h => partitionFixed_of_reaches sqliteService_keepsLog h⟩

/-- An aggregate that places an order on every command. -/
def orders : Runtime where
  State := ℕ
  Command := Unit
  Event := Unit
  Err := Empty
  aggregate := ⟨"order",0,fun _ _ => .ok [()],fun placed _ => placed + 1⟩
  registry := ⟨fun _ => some ⟨"OrderPlaced",1,.obj [("_tag",.str "OrderPlaced")]⟩,fun _ => .ok (),
    fun type => type = "OrderPlaced"⟩
  snapshotEvery := none

def ordersEnvironment : Environment where
  snapshots _ := .ok none
  saved := .ok ()
  occurredAt := "2024-05-01T00:00:00.000Z"
  eventIds index := "e" ++ toString index

/-- Two orders of one stream, placed one after the other. -/
def placeTwice (first second : String) : List Label :=
  [.execute 0 orders "1" () (some {partition := some first}),.proceed 0 ordersEnvironment,
    .proceed 0 ordersEnvironment,.execute 1 orders "1" () (some {partition := some second}),
    .proceed 1 ordersEnvironment,.proceed 1 ordersEnvironment]

theorem stream_partition_fixed_orders :
    ∃ x, (runs inMemoryService).run (placeTwice "north" "north") = some x ∧
      inMemoryService.PartitionFixed x.store := by
  have r0 : (runs inMemoryService).Reaches (CarriesPartition inMemoryService)
      (runs inMemoryService).init := Relation.ReflTransGen.refl
  have r1 := r0.step (l := .execute 0 orders "1" () (some {partition := some "north"}))
    (by exact trivial) rfl
  have r2 := r1.step (l := .proceed 0 ordersEnvironment) (by
    intro execution hx loaded events toAppend hphase
    obtain rfl := Option.some.inj hx
    cases hphase) rfl
  have r3 := r2.step (l := .proceed 0 ordersEnvironment) (by
    intro execution hx loaded events toAppend hphase _ e he
    obtain rfl := Option.some.inj hx
    cases he) rfl
  have r4 := r3.step (l := .execute 1 orders "1" () (some {partition := some "north"}))
    (by exact trivial) rfl
  have r5 := r4.step (l := .proceed 1 ordersEnvironment) (by
    intro execution hx loaded events toAppend hphase
    obtain rfl := Option.some.inj hx
    cases hphase) rfl
  have r6 := r5.step (l := .proceed 1 ordersEnvironment) (by
    intro execution hx loaded events toAppend hphase _ e he
    obtain rfl := Option.some.inj hx
    obtain rfl := List.mem_singleton.mp he
    rfl) rfl
  exact ⟨_,rfl,(stream_partition_fixed _ (runs sqliteService).init).1 r6⟩

/-- Nothing refuses the second order, and its stream is in two partitions. -/
theorem stream_in_two_partitions :
    ¬ ((∀ x, (runs inMemoryService).Reachable x → inMemoryService.PartitionFixed x.store) ∧
      ∀ x, (runs sqliteService).Reachable x → sqliteService.PartitionFixed x.store) := by
  rintro ⟨h,-⟩
  have hr := System.run_reachable 
    (show (runs inMemoryService).run (placeTwice "north" "south") = some _ from rfl)
  obtain ⟨events,hread,hone⟩ := (h _ hr).1 "order-1" rfl
  have hpartitions : events.map (·.metadata.partition) = [some "north",some "south"] := by
    obtain rfl := Except.ok.inj hread
    rfl
  have hnorth : some "north" ∈ events.map (·.metadata.partition) := by simp [hpartitions]
  have hsouth : some "south" ∈ events.map (·.metadata.partition) := by simp [hpartitions]
  obtain ⟨e,he,hen⟩ := List.mem_map.mp hnorth
  obtain ⟨e',he',hes⟩ := List.mem_map.mp hsouth
  have heq := hone e he e' he'
  rw [hen,hes] at heq
  revert heq
  decide

end AggregateStores
end StructureAi.EventSourcing

import StructureAi.EventSourcing.MemoryInvariants

/-! # The event-store port

An adapter is given by its operations over a state. It keeps the log when every
operation is that of the event log its state stands for, so that what is proved
of the users of the port holds over each adapter.
-/
namespace StructureAi.EventSourcing
open StructureAi.Foundation

/-- The operations of an event-store adapter and of its stream eraser over a state. -/
structure EventStoreService (S : Type) where
  init : S
  append : S → String → ℤ → List AppendEvent → S × Except StoreFailure AppendResult
  read : S → String → Option ℤ → Except StoreFailure (List StoredEvent)
  readAll : S → ReadAllOptions → Except StoreFailure (List StoredEvent)
  eraseStream : S → StreamErasureRequest → String → S × Except StoreFailure StreamErasureResult
  /-- Whether the erasure ledger holds the stream. -/
  isErased : S → String → Bool

/-- Every call of the adapter is the call of the event log its state stands for. -/
structure EventStoreService.KeepsLog {S : Type} (svc : EventStoreService S) (R : S → EventLog → Prop) :
    Prop where
  init : R svc.init EventLog.empty
  wellFormed : ∀ s l, R s l → l.WellFormed
  append : ∀ s l streamName expectedVersion events, R s l →
    R (svc.append s streamName expectedVersion events).1
        (l.append streamName expectedVersion events).1 ∧
      (svc.append s streamName expectedVersion events).2 =
        (l.append streamName expectedVersion events).2
  eraseStream : ∀ s l request erasedAt, R s l →
    R (svc.eraseStream s request erasedAt).1 (l.eraseStream request erasedAt).1 ∧
      (svc.eraseStream s request erasedAt).2 = (l.eraseStream request erasedAt).2
  read : ∀ s l streamName fromVersion, R s l →
    svc.read s streamName fromVersion = .ok (readOf (l.stream streamName) fromVersion)
  readAll : ∀ s l options, R s l → svc.readAll s options = .ok (readAllOf l.log options)
  isErased : ∀ s l streamName, R s l → (svc.isErased s streamName = true ↔ l.erased streamName ≠ none)

/-- The in-memory adapters beside a snapshot store whose removals succeed. -/
def inMemoryService : EventStoreService EventStoreState where
  init := EventStoreState.empty
  append := EventStoreState.append
  read s streamName fromVersion := .ok (s.read streamName fromVersion)
  readAll s options := .ok (s.readAll options)
  eraseStream s request erasedAt := s.eraseStream request erasedAt none
  isErased s streamName := (s.erased.lookup streamName).isSome

theorem inMemoryService_keepsLog :
    inMemoryService.KeepsLog fun s l => s.Consistent ∧ s.log = l where
  init := ⟨EventStoreState.consistent_empty,rfl⟩
  wellFormed := by
    rintro s l ⟨hc,rfl⟩
    exact hc.wellFormed
  append := by
    rintro s l streamName expectedVersion events ⟨hc,rfl⟩
    have hr := EventStoreState.append_refines hc.mirrors streamName expectedVersion events
    have hw := hc.write (p := EventStoreState.noImports) (.append streamName expectedVersion events)
    exact ⟨⟨hw,hr.log⟩,hr.answer⟩
  eraseStream := by
    rintro s l request erasedAt ⟨hc,rfl⟩
    obtain ⟨hl,-,ha⟩ := EventStoreState.eraseStream_refines hc.mirrors hc.wellFormed request erasedAt none
    have hw := hc.write (p := EventStoreState.noImports) (.eraseStream request erasedAt none)
    exact ⟨⟨hw,hl⟩,ha rfl⟩
  read := by
    rintro s l streamName fromVersion ⟨hc,rfl⟩
    simp only [inMemoryService,EventStoreState.read,hc.mirrors.stream_eq]
    rfl
  readAll := by
    rintro s l options ⟨hc,rfl⟩
    exact congrArg Except.ok (s.readAll_eq options)
  isErased := by
    rintro s l streamName ⟨hc,rfl⟩
    exact Option.isSome_iff_ne_none

namespace EventLog
variable {l : EventLog}

theorem WellFormed.readOf_stream (h : l.WellFormed) (streamName : String) :
    readOf (l.stream streamName) none = l.stream streamName := by
  rw [readOf,List.filter_eq_self]
  intro e he
  have hb := ((h.versions streamName).bounds he).1
  rw [Option.getD_none]
  exact decide_eq_true (by omega)

theorem WellFormed.readAllOf_partition (h : l.WellFormed) (partition : Option PartitionFilter) :
    readAllOf l.log {partition := partition} =
      l.log.filter fun e => inPartitions (readAllPartitions partition) e := by
  rw [readAllOf]
  refine List.filter_congr fun e he => ?_
  have hb := (h.positions.bounds he).1
  have hp : ((none : Option ℤ).getD 1) ≤ e.position := by
    rw [Option.getD_none]
    omega
  rw [Bool.decide_and,decide_eq_true hp,Bool.true_and,Bool.decide_eq_true]

end EventLog

namespace EventStoreService
variable {S : Type} (svc : EventStoreService S)

/-- The events a read of the whole stream answers. -/
def stream (s : S) (streamName : String) : List StoredEvent :=
  match svc.read s streamName none with
  | .ok events => events
  | .error _ => []

/-- The events a read of the whole feed answers. -/
def feed (s : S) : List StoredEvent :=
  match svc.readAll s {} with
  | .ok events => events
  | .error _ => []

variable {svc} {R : S → EventLog → Prop}

theorem KeepsLog.stream_eq (hk : svc.KeepsLog R) {s : S} {l : EventLog} (h : R s l)
    (streamName : String) : svc.stream s streamName = l.stream streamName := by
  rw [stream,hk.read s l streamName none h]
  exact (hk.wellFormed s l h).readOf_stream streamName

theorem KeepsLog.feed_eq (hk : svc.KeepsLog R) {s : S} {l : EventLog} (h : R s l) :
    svc.feed s = l.log := by
  have hw := (hk.wellFormed s l h).readAllOf_partition none
  rw [feed,hk.readAll s l {} h]
  exact hw.trans (List.filter_eq_self.mpr fun _ _ => rfl)

end EventStoreService
end StructureAi.EventSourcing

import StructureAi.EventSourcing.EventStoreService
import StructureAi.Foundation.Table

/-! # Projections and their checkpoint

A catch-up loads the checkpoint, reads a batch, handles its events one by one and
saves the position of the last, until a read finds nothing. Each of these is a
step of its own.
-/
namespace StructureAi.EventSourcing
open StructureAi.Foundation

/-- A projection; `when` tells for which types it has a handler. -/
structure Projection (Event : Type) where
  name : String
  registry : EventRegistry Event
  when : String → Bool

def Projection.handles {Event : Type} (projection : Projection Event) (type : String) : Bool :=
  projection.registry.has type && projection.when type

structure CheckpointStoreService (C : Type) where
  init : C
  load : C → String → ℤ
  save : C → String → ℤ → C

structure CheckpointStoreService.Lawful {C : Type} (checkpoints : CheckpointStoreService C) : Prop where
  load_init : ∀ name, checkpoints.load checkpoints.init name = 0
  load_save : ∀ c name position, checkpoints.load (checkpoints.save c name position) name = position

def inMemoryCheckpointStore : CheckpointStoreService (JsMap ℤ) where
  init := ∅
  load c name := (c.lookup name).getD 0
  save c name position := c.insert name position

structure CheckpointRow where
  name : String
  position : ℤ

def sqlCheckpointStore : CheckpointStoreService (List CheckpointRow) where
  init := []
  load rows name := ((rows.find? fun r => r.name = name).map CheckpointRow.position).getD 0
  save rows name position := upsert CheckpointRow.name ⟨name,position⟩ rows

theorem inMemoryCheckpointStore_lawful : inMemoryCheckpointStore.Lawful where
  load_init _ := rfl
  load_save c name position := by
    simp only [inMemoryCheckpointStore,AList.lookup_insert,Option.getD_some]

theorem sqlCheckpointStore_lawful : sqlCheckpointStore.Lawful where
  load_init _ := rfl
  load_save rows name position := by
    simp only [sqlCheckpointStore,find?_upsert,if_true,Option.map_some,Option.getD_some]

inductive ProjectionFailure where
  | handler
  | eventDecode (e : EventDecodeError)
  | store (e : StoreFailure)
  | checkpoints

/-- How a step ends that can fail outside the package: a handler, a load or a save. -/
inductive StepOutcome where
  | ok
  | failed
  /-- A save whose failure follows the write. -/
  | failedAfterWrite

structure CatchupStats where
  processed : ℕ
  skipped : ℕ

inductive CatchupPhase where
  | load
  | read (checkpoint : ℤ)
  /-- In a batch, after the event at `position`; a save follows the last event. -/
  | batch (position : ℤ) (rest : List StoredEvent)
  | returned
  | failed (e : ProjectionFailure)

structure Catchup where
  live : Bool
  batchSize : ℕ
  phase : CatchupPhase
  stats : CatchupStats

namespace Catchup
variable {Event : Type} (projection : Projection Event)

def start (live : Bool) (batchSize : ℕ) : Catchup := ⟨live,batchSize,.load,⟨0,0⟩⟩

/-- A step and what it does outside the fiber: the event it handled and the position it saved. -/
structure Step where
  next : Catchup
  handled : Option StoredEvent := none
  saved : Option ℤ := none

def handleNext (x : Catchup) (stored : StoredEvent) (rest : List StoredEvent) (outcome : StepOutcome) :
    Step :=
  if !projection.registry.has stored.type then
    {next := {x with
      phase := .batch stored.position rest
      stats := {x.stats with skipped := x.stats.skipped + 1}}}
  else if projection.when stored.type then
    match projection.registry.decode stored.serialized,outcome with
    | .error e,_ => {next := {x with phase := .failed (.eventDecode e)}}
    | .ok _,.ok => {
        next := {x with
          phase := .batch stored.position rest
          stats := {x.stats with processed := x.stats.processed + 1}}
        handled := some stored}
    | .ok _,_ => {next := {x with phase := .failed .handler}}
  else {next := {x with phase := .batch stored.position rest}}

/-- The next step of a catch-up, given the feed and the saved checkpoint. -/
def step (readAll : ReadAllOptions → Except StoreFailure (List StoredEvent)) (checkpoint : ℤ)
    (outcome : StepOutcome) (x : Catchup) : Option Step :=
  match x.phase with
  | .load => some (match outcome with
    | .ok => {next := {x with phase := .read checkpoint}}
    | _ => {next := {x with phase := .failed .checkpoints}})
  | .read checkpoint =>
    some (match readAll {fromPosition := some (checkpoint + 1), batchSize := some x.batchSize} with
      | .error e => {next := {x with phase := .failed (.store e)}}
      | .ok [] => {next := {x with phase := .returned}}
      | .ok (stored :: rest) => {next := {x with phase := .batch checkpoint (stored :: rest)}})
  | .batch position [] => some (match outcome with
    | .ok => {next := {x with phase := .load}, saved := some position}
    | .failed => {next := {x with phase := .failed .checkpoints}}
    | .failedAfterWrite => {next := {x with phase := .failed .checkpoints}, saved := some position})
  | .batch _ (stored :: rest) => some (handleNext projection x stored rest outcome)
  | .returned | .failed _ => none

theorem handleNext_cases (x : Catchup) (stored : StoredEvent) (rest : List StoredEvent)
    (outcome : StepOutcome) :
    (∃ e, x.handleNext projection stored rest outcome = {next := {x with phase := .failed e}}) ∨
      ∃ stats handled, x.handleNext projection stored rest outcome =
          {next := {x with phase := .batch stored.position rest, stats := stats}, handled := handled} ∧
        (projection.handles stored.type = true → handled = some stored) := by
  unfold handleNext
  split
  next hhas =>
    refine Or.inr ⟨_,none,rfl,fun hh => ?_⟩
    rw [Bool.not_eq_true'] at hhas
    rw [Projection.handles,hhas,Bool.false_and] at hh
    cases hh
  next =>
    split
    next =>
      split
      · exact Or.inl ⟨_,rfl⟩
      · exact Or.inr ⟨_,some stored,rfl,fun _ => rfl⟩
      · exact Or.inl ⟨_,rfl⟩
    next hwhen =>
      refine Or.inr ⟨x.stats,none,rfl,fun hh => ?_⟩
      rw [Projection.handles,Bool.and_eq_true] at hh
      exact absurd hh.2 hwhen

end Catchup

/-- A batch is a stretch of the log after the checkpoint, and nothing only at the end of the log. -/
theorem EventStoreService.KeepsLog.batch {S : Type} {svc : EventStoreService S}
    {R : S → EventLog → Prop} (hk : svc.KeepsLog R) {s : S} {l : EventLog} (h : R s l) {k : ℤ}
    (h0 : 0 ≤ k) (batchSize : ℕ) :
    ∃ events, svc.readAll s {fromPosition := some (k + 1), batchSize := some batchSize} = .ok events ∧
      NumberedFrom StoredEvent.position k events ∧ (∀ e ∈ events, e ∈ l.log) ∧
      (events = [] → 0 < batchSize → l.log.length ≤ k) := by
  have hw := (hk.wellFormed s l h).positions
  have hfilter : readAllOf l.log {fromPosition := some (k + 1), batchSize := some batchSize} =
      (l.log.filter fun e => k + 1 ≤ e.position).take batchSize := by
    unfold readAllOf
    refine congrArg (List.take batchSize) (List.filter_congr fun e _ => ?_)
    rw [Bool.decide_and]
    exact Bool.and_true _
  refine ⟨_,hk.readAll s l _ h,?_⟩
  rw [hfilter]
  refine ⟨(hw.filter_gt h0).take batchSize,?_,?_⟩
  · intro e he
    exact (List.mem_filter.mp (List.mem_of_mem_take he)).1
  · intro hnil hpos
    by_contra hlt
    obtain ⟨e,he,hp⟩ := hw.exists_number (k := k + 1) (by omega) (by omega)
    have hm : e ∈ l.log.filter fun e => k + 1 ≤ e.position :=
      List.mem_filter.mpr ⟨he,decide_eq_true hp.ge⟩
    rcases List.take_eq_nil_iff.mp hnil with hz | hz
    · omega
    · rw [hz] at hm
      cases hm

theorem EventLog.append_extends {l : EventLog} (streamName : String) (expectedVersion : ℤ)
    (events : List AppendEvent) :
    ∃ added, (l.append streamName expectedVersion events).1.log = l.log ++ added ∧
      ∀ e ∈ added, (l.log.length : ℤ) < e.position := by
  rcases l.append_cases streamName expectedVersion events with
    ⟨e,ha⟩ | ⟨-,-,⟨-,ha⟩ | ⟨-,ha⟩⟩ <;> rw [ha]
  · exact ⟨[],by simp,fun e he => absurd he List.not_mem_nil⟩
  · exact ⟨[],by simp,fun e he => absurd he List.not_mem_nil⟩
  · exact ⟨_,rfl,fun e he => ((stampFrom_positions ..).bounds he).1⟩

/-- What a catch-up has read is a stretch of the log after where it stands. -/
def Catchup.InPlace (log : List StoredEvent) (x : Catchup) : Prop :=
  match x.phase with
  | .read k => 0 ≤ k ∧ k ≤ log.length
  | .batch position rest => (0 ≤ position ∧ position ≤ log.length) ∧
    NumberedFrom StoredEvent.position position rest ∧ ∀ e ∈ rest, e ∈ log
  | _ => True

namespace Catchup.InPlace
variable {Event S : Type} {projection : Projection Event} {svc : EventStoreService S}
  {R : S → EventLog → Prop} {log added : List StoredEvent} {x : Catchup}

theorem append (h : x.InPlace log) (added : List StoredEvent) : x.InPlace (log ++ added) := by
  have hlen : (log.length : ℤ) ≤ (log ++ added).length := by
    rw [List.length_append]
    omega
  unfold InPlace at h ⊢
  split
  next k hp =>
    rw [hp] at h
    exact ⟨h.1,h.2.trans hlen⟩
  next position rest hp =>
    rw [hp] at h
    obtain ⟨⟨h0,h1⟩,hn,hm⟩ := h
    exact ⟨⟨h0,h1.trans hlen⟩,hn,fun e he => List.mem_append_left _ (hm e he)⟩
  · trivial

theorem read {k : ℤ} (h : x.InPlace log) (hp : x.phase = .read k) : 0 ≤ k ∧ k ≤ log.length := by
  unfold InPlace at h
  rwa [hp] at h

theorem batch {position : ℤ} {rest : List StoredEvent} (h : x.InPlace log)
    (hp : x.phase = .batch position rest) : (0 ≤ position ∧ position ≤ log.length) ∧
      NumberedFrom StoredEvent.position position rest ∧ ∀ e ∈ rest, e ∈ log := by
  unfold InPlace at h
  rwa [hp] at h

theorem step (hk : svc.KeepsLog R) {store : S} {l : EventLog} (hr : R store l) {c : ℤ}
    {outcome : StepOutcome} {r : Catchup.Step} (h : x.InPlace l.log) (hc : 0 ≤ c ∧ c ≤ l.log.length)
    (hs : x.step projection (svc.readAll store) c outcome = some r) :
    r.next.InPlace l.log ∧ ∀ position, r.saved = some position →
      x.phase = .batch position [] ∧ r.handled = none := by
  unfold Catchup.step at hs
  cases hp : x.phase with
  | load =>
    rw [hp] at hs
    obtain rfl := Option.some.inj hs
    cases outcome with
    | ok => exact ⟨hc,fun position hq => by cases hq⟩
    | failed | failedAfterWrite => exact ⟨trivial,fun position hq => by cases hq⟩
  | read k =>
    rw [hp] at hs
    obtain rfl := Option.some.inj hs
    obtain ⟨events,hread,hnum,hmem,-⟩ := hk.batch hr (h.read hp).1 x.batchSize
    rw [hread]
    cases events with
    | nil => exact ⟨trivial,fun position hq => by cases hq⟩
    | cons stored rest => exact ⟨⟨h.read hp,hnum,hmem⟩,fun position hq => by cases hq⟩
  | batch position rest =>
    obtain ⟨⟨h0,h1⟩,hnum,hmem⟩ := h.batch hp
    rw [hp] at hs
    cases rest with
    | nil =>
      obtain rfl := Option.some.inj hs
      cases outcome with
      | failed => exact ⟨trivial,fun position hq => by cases hq⟩
      | ok | failedAfterWrite =>
        refine ⟨trivial,fun position' hq => ?_⟩
        obtain rfl := Option.some.inj hq
        exact ⟨rfl,rfl⟩
    | cons stored rest =>
      obtain ⟨hpos,hnum'⟩ := hnum
      obtain ⟨hstored,hmem'⟩ := List.forall_mem_cons.mp hmem
      have hb := ((hk.wellFormed store l hr).positions.bounds hstored).2
      obtain rfl := Option.some.inj hs
      rcases Catchup.handleNext_cases projection x stored rest outcome with
        ⟨e,he⟩ | ⟨stats,handled,he,-⟩ <;> rw [he]
      · exact ⟨trivial,fun position hq => by cases hq⟩
      · exact ⟨⟨⟨by omega,by omega⟩,hpos ▸ hnum',hmem'⟩,fun position hq => by cases hq⟩
  | returned =>
    rw [hp] at hs
    cases hs
  | failed e =>
    rw [hp] at hs
    cases hs

end Catchup.InPlace

def orderTotals : Projection Unit where
  name := "order-totals"
  registry := ⟨fun _ => some ⟨"OrderPlaced",1,.null⟩,fun _ => .ok (),fun type => type = "OrderPlaced"⟩
  when type := type = "OrderPlaced"

def orderPlacedEvent : AppendEvent where
  type := "OrderPlaced"
  schemaVersion := 1
  payload := .null
  metadata := {
    eventId := "e1", occurredAt := "2024-05-01T00:00:00.000Z", aggregateName := "order"
    aggregateId := "1", aggregateVersion := Decimal.ofInt 1 }

end StructureAi.EventSourcing

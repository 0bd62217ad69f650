import StructureAi.EventSourcing.MemoryRefinement

/-! # Runs of the in-memory event store

Writers call `append`, `importBatch` and `eraseStream` in any order and with any
arguments. The label of an erasure carries the outcome of the snapshot removal
that follows the ledger write.
-/
namespace StructureAi.EventSourcing
open StructureAi.Foundation

inductive WriteCall where
  | append (streamName : String) (expectedVersion : ℤ) (events : List AppendEvent)
  | importBatch (batch : HistoryImportBatch) (decoder : HistoryEventDecoder)
  | eraseStream (request : StreamErasureRequest) (erasedAt : String)
      (snapshotRemoval : Option PersistenceError)

def failed {R : Type} : Except StoreFailure R → Option StoreFailure
  | .error e => some e
  | .ok _ => none

namespace EventStoreState
variable (p : ImportPrimitives)

def write (s : EventStoreState) : WriteCall → EventStoreState × Option StoreFailure
  | .append streamName expectedVersion events =>
    ((s.append streamName expectedVersion events).1,
      failed (s.append streamName expectedVersion events).2)
  | .importBatch batch decoder =>
    ((s.importBatch p batch decoder).1,failed (s.importBatch p batch decoder).2)
  | .eraseStream request erasedAt snapshotRemoval =>
    ((s.eraseStream request erasedAt snapshotRemoval).1,
      failed (s.eraseStream request erasedAt snapshotRemoval).2)

def writes : System EventStoreState WriteCall := ⟨empty,fun s call => some (s.write p call).1⟩

variable {p} {s : EventStoreState}

/-- The two views agree and their log is well formed. -/
structure Consistent (s : EventStoreState) : Prop where
  mirrors : s.Mirrors
  wellFormed : s.log.WellFormed

theorem consistent_empty : Consistent empty := ⟨mirrors_empty,EventLog.wellFormed_empty⟩

theorem Consistent.write (h : s.Consistent) (call : WriteCall) : (s.write p call).1.Consistent := by
  cases call with
  | append streamName expectedVersion events =>
    have hr := append_refines h.mirrors streamName expectedVersion events
    refine ⟨hr.mirrors,?_⟩
    simp only [EventStoreState.write,hr.log]
    exact h.wellFormed.append ..
  | importBatch batch decoder =>
    have hr := importBatch_refines (p := p) h.mirrors h.wellFormed batch decoder
    refine ⟨hr.mirrors,?_⟩
    simp only [EventStoreState.write,hr.log]
    exact h.wellFormed.importBatch ..
  | eraseStream request erasedAt snapshotRemoval =>
    obtain ⟨hl,hm,-⟩ := eraseStream_refines h.mirrors h.wellFormed request erasedAt snapshotRemoval
    refine ⟨hm,?_⟩
    simp only [EventStoreState.write,hl]
    exact h.wellFormed.eraseStream ..

theorem readAll_eq (s : EventStoreState) (options : ReadAllOptions) :
    s.readAll options = readAllOf s.log.log options := by
  have hf : (s.all.filter fun e => e.position ≥ options.fromPosition.getD 1 &&
    inPartitions (readAllPartitions options.partition) e) =
      s.log.log.filter fun e => options.fromPosition.getD 1 ≤ e.position ∧
        inPartitions (readAllPartitions options.partition) e := by
    refine List.filter_congr fun e _ => ?_
    rw [Bool.decide_and,Bool.decide_eq_true]
  unfold EventStoreState.readAll readAllOf
  cases options.batchSize with
  | none => exact hf
  | some batchSize => exact congrArg (List.take batchSize) hf

theorem Consistent.apply (h : s.Consistent) (call : HistoryCall) :
    (s.apply p call).1.Consistent ∧ (s.apply p call).1.log = (s.log.applyHistory p call).1 ∧
      (s.apply p call).2 = (s.log.applyHistory p call).2 := by
  cases call with
  | importBatch batch decoder =>
    have hr := importBatch_refines (p := p) h.mirrors h.wellFormed batch decoder
    exact ⟨h.write (.importBatch batch decoder),hr.log,congrArg StoreAnswer.imported hr.answer⟩
  | store call =>
    cases call with
    | append streamName expectedVersion events =>
      have hr := append_refines h.mirrors streamName expectedVersion events
      exact ⟨h.write (p := p) (.append streamName expectedVersion events),hr.log,
        congrArg StoreAnswer.appended hr.answer⟩
    | eraseStream request erasedAt =>
      obtain ⟨hl,-,ha⟩ := eraseStream_refines h.mirrors h.wellFormed request erasedAt none
      exact ⟨h.write (p := p) (.eraseStream request erasedAt none),hl,congrArg StoreAnswer.erased (ha rfl)⟩
    | read streamName fromVersion =>
      refine ⟨h,rfl,?_⟩
      simp only [EventStoreState.apply,EventStoreState.read,h.mirrors.stream_eq]
      rfl
    | readAll options =>
      refine ⟨h,rfl,?_⟩
      simp only [EventStoreState.apply,readAll_eq]
      rfl

theorem consistent_of_reachable (h : (writes p).Reachable s) : s.Consistent := by
  refine h.invariant Consistent consistent_empty ?_
  intro a call b ha _ hs
  obtain rfl := Option.some.inj hs
  exact ha.write call

theorem write_keepsPinned (h : s.Consistent) (call : WriteCall) :
    EventLog.KeepsPinned s.log (s.write p call).1.log := by
  cases call with
  | append streamName expectedVersion events =>
    simp only [write,(append_refines h.mirrors streamName expectedVersion events).log]
    exact EventLog.KeepsPinned.append _ _ _ _
  | importBatch batch decoder =>
    simp only [write,(importBatch_refines (p := p) h.mirrors h.wellFormed batch decoder).log]
    exact EventLog.KeepsPinned.importBatch _ _ _
  | eraseStream request erasedAt snapshotRemoval =>
    simp only [write,(eraseStream_refines h.mirrors h.wellFormed request erasedAt snapshotRemoval).1]
    exact EventLog.KeepsPinned.eraseStream _ _ _

theorem leads_keepsPinned {s' : EventStoreState} (h : s.Consistent)
    (hr : (writes p).Leads (fun _ _ => True) s s') : EventLog.KeepsPinned s.log s'.log := by
  have key : s'.Consistent ∧ EventLog.KeepsPinned s.log s'.log := by
    refine hr.invariant (fun a => a.Consistent ∧ EventLog.KeepsPinned s.log a.log) ?_ ?_
    · exact ⟨h,EventLog.KeepsPinned.refl s.log⟩
    · rintro a call b ⟨ha,hk⟩ - hs
      obtain rfl := Option.some.inj hs
      refine ⟨ha.write call,fun streamName record he => ?_⟩
      obtain ⟨he',hs'⟩ := hk streamName record he
      obtain ⟨he'',hs''⟩ := write_keepsPinned ha call streamName record he'
      exact ⟨he'',hs''.trans hs'⟩
  exact key.2

theorem append_failed {streamName : String} {expectedVersion : ℤ} {events : List AppendEvent}
    (h : failed (s.append streamName expectedVersion events).2 ≠ none) :
    (s.append streamName expectedVersion events).1 = s := by
  revert h
  unfold append
  split
  · exact fun _ => rfl
  dsimp only
  split
  · exact fun _ => rfl
  split
  · exact fun _ => rfl
  · exact fun h => absurd rfl h

theorem importBatch_failed {batch : HistoryImportBatch} {decoder : HistoryEventDecoder}
    (h : failed (s.importBatch p batch decoder).2 ≠ none) : (s.importBatch p batch decoder).1 = s := by
  revert h
  unfold importBatch
  split
  · exact fun _ => rfl
  · exact fun _ => rfl
  dsimp only
  split
  · exact fun _ => rfl
  split
  · split <;> exact fun _ => rfl
  split
  · exact fun _ => rfl
  split
  · exact fun _ => rfl
  · exact fun h => absurd rfl h

theorem eraseUnderLock_failed {request : StreamErasureRequest} {erasedAt : String} {e : StoreFailure}
    (h : (s.eraseUnderLock request erasedAt).2 = .error e) :
    (s.eraseUnderLock request erasedAt).1 = s := by
  revert h
  unfold eraseUnderLock
  split
  · split <;> exact fun _ => rfl
  dsimp only
  split
  · exact fun _ => rfl
  · exact fun h => by cases h

/-- A failed erasure changes nothing, unless what failed is the snapshot removal: then the ledger
write stands as after the successful call. -/
theorem eraseStream_failed {request : StreamErasureRequest} {erasedAt : String}
    {snapshotRemoval : Option PersistenceError} {e : StoreFailure}
    (h : failed (s.eraseStream request erasedAt snapshotRemoval).2 = some e) :
    (s.eraseStream request erasedAt snapshotRemoval).1 = s ∨
      ∃ cause, snapshotRemoval = some cause ∧ e = .persistence cause ∧
        failed (s.eraseStream request erasedAt none).2 = none ∧
        (s.eraseStream request erasedAt snapshotRemoval).1 = (s.eraseStream request erasedAt none).1 := by
  unfold eraseStream at h ⊢
  cases hr : prepareStreamErasure request with
  | error err => exact Or.inl rfl
  | ok _ =>
    rw [hr] at h
    cases hu : s.eraseUnderLock request erasedAt with
    | mk s' answer =>
      rw [hu] at h
      cases answer with
      | error err =>
        have hs := eraseUnderLock_failed (show (s.eraseUnderLock request erasedAt).2 = .error err by rw [hu])
        rw [hu] at hs
        exact Or.inl hs
      | ok result =>
        cases snapshotRemoval with
        | none => cases h
        | some cause => exact Or.inr ⟨cause,rfl,(Option.some.inj h).symm,rfl,rfl⟩

/-- In every reachable state positions count the log, every stream is the sublist of the log with
its name and counts its versions, a failed call has changed nothing unless only the snapshot removal
of an erasure failed, and an erased stream is a fixed list of tombstones of the recorded length. -/
theorem reachable_invariants (h : (writes p).Reachable s) :
    (∀ i (hi : i < s.all.length), s.all[i].position = i + 1) ∧
    (∀ streamName, s.stream streamName = s.all.filter fun e => e.streamName = streamName) ∧
    (∀ streamName i (hi : i < (s.stream streamName).length),
      (s.stream streamName)[i].version = i + 1) ∧
    (∀ call e, (s.write p call).2 = some e → (s.write p call).1 = s ∨
      ∃ request erasedAt cause, call = .eraseStream request erasedAt (some cause) ∧
        e = .persistence cause ∧ (s.write p (.eraseStream request erasedAt none)).2 = none ∧
        (s.write p call).1 = (s.write p (.eraseStream request erasedAt none)).1) ∧
    (∀ streamName record, s.erased.lookup streamName = some record →
      (∀ e ∈ s.stream streamName, e.IsTombstone record.erasedAt) ∧
      (s.stream streamName).length = record.lastVersion ∧
      ∀ s', (writes p).Leads (fun _ _ => True) s s' →
        s'.stream streamName = s.stream streamName ∧ s'.erased.lookup streamName = some record) := by
  have hc := consistent_of_reachable h
  refine ⟨fun i hi => ?_,hc.mirrors,fun streamName i hi => ?_,fun call e he => ?_,
    fun streamName record hr => ⟨?_,?_,fun s' hs' => ?_⟩⟩
  · have hp : Numbered StoredEvent.position s.all := hc.wellFormed.positions
    simpa using hp.getElem i hi
  · have hv : Numbered StoredEvent.version (s.stream streamName) := by
      rw [hc.mirrors.stream_eq]
      exact hc.wellFormed.versions streamName
    simpa using hv.getElem i hi
  · cases call with
    | append streamName expectedVersion events =>
      exact Or.inl (append_failed (by rw [show failed _ = some e from he]; simp))
    | importBatch batch decoder =>
      exact Or.inl (importBatch_failed (by rw [show failed _ = some e from he]; simp))
    | eraseStream request erasedAt snapshotRemoval =>
      rcases eraseStream_failed he with hs | ⟨cause,rfl,hec,hn,hs⟩
      · exact Or.inl hs
      · exact Or.inr ⟨request,erasedAt,cause,rfl,hec,hn,hs⟩
  · rw [hc.mirrors.stream_eq]
    exact (hc.wellFormed.pinned streamName record hr).1
  · rw [hc.mirrors.stream_eq]
    exact (hc.wellFormed.pinned streamName record hr).2
  · obtain ⟨he,hs⟩ := leads_keepsPinned hc hs' streamName record hr
    have hc' : s'.Consistent := by
      refine hs'.invariant Consistent hc ?_
      intro a call b ha _ hb
      obtain rfl := Option.some.inj hb
      exact ha.write call
    exact ⟨by rw [hc'.mirrors.stream_eq,hs,← hc.mirrors.stream_eq],he⟩

/-- An order with one event, then erased beside a snapshot store that cannot be reached. -/
def orderPlaced : WriteCall := .append "order-1" 0 [{
  type := "OrderPlaced", schemaVersion := 1, payload := .obj [("total",.num (Decimal.ofInt 20))]
  metadata := {
    eventId := "e1", occurredAt := "2024-05-01T00:00:00.000Z", aggregateName := "order"
    aggregateId := "1", aggregateVersion := Decimal.ofInt 1 }}]

def orderErased (snapshotRemoval : Option PersistenceError) : WriteCall :=
  .eraseStream ⟨"order-1",1,"customer request"⟩ "2024-06-01T00:00:00.000Z" snapshotRemoval

def noImports : ImportPrimitives := ⟨fun text => text,fun _ => true⟩

theorem reachable_invariants_order :
    (((empty.write noImports orderPlaced).1.write noImports (orderErased none)).1.stream
      "order-1").length = 1 := by
  have hr : (writes noImports).Reachable
      ((empty.write noImports orderPlaced).1.write noImports (orderErased none)).1 :=
    System.run_reachable (show (writes noImports).run [orderPlaced,orderErased none] = some _ from rfl)
  obtain ⟨-,-,-,-,hpin⟩ := reachable_invariants hr
  have hlen := (hpin "order-1" ⟨1,"2024-06-01T00:00:00.000Z","customer request"⟩ rfl).2.1
  dsimp only at hlen
  exact_mod_cast hlen

/-- The erasure fails with the removal of its snapshot and still rewrites the log. -/
theorem failed_erasure_changes_log :
    ¬ ∀ s, (writes noImports).Reachable s → ∀ call, (s.write noImports call).2 ≠ none →
      (s.write noImports call).1 = s := by
  intro h
  have hr : (writes noImports).Reachable (empty.write noImports orderPlaced).1 :=
    System.run_reachable (show (writes noImports).run [orderPlaced] = some _ from rfl)
  have hs := h _ hr (orderErased (some ⟨"SnapshotStore"⟩)) (by decide)
  have ht := congrArg (fun s => s.all.map StoredEvent.type) hs
  revert ht
  decide

end EventStoreState
end StructureAi.EventSourcing

import StructureAi.EventSourcing.EventStoreService
import StructureAi.Sqlite.EventStore

/-! # The SQLite event store keeps the same event log

A database represents a log when its rows are the events of the log in order,
its counter is the number of events and its erased streams are the pinned ones.
Every call that the engine takes keeps the representation and answers as the log
does, and so as the in-memory store does.
-/
namespace StructureAi.Sqlite
open StructureAi.Foundation StructureAi.EventSourcing

def row (e : StoredEvent) : EventRow :=
  ⟨e.position,e.streamName,e.version,e.type,e.schemaVersion,jsonText e.payload,jsonText e.metadata.toJson⟩

def ErasedStreamRow.record (r : ErasedStreamRow) : ErasedStreamRecord :=
  ⟨r.lastVersion,r.erasedAt,r.reason⟩

@[simp] theorem decodeEvent_row (e : StoredEvent) : decodeEvent (row e) = some e := by
  simp [decodeEvent,row,jsonText]

theorem decodeEvents_rows (events : List StoredEvent) : decodeEvents (events.map row) = .ok events := by
  have h : (events.map row).mapM decodeEvent = some events := by
    induction events with
    | nil => rfl
    | cons e es ih => rw [List.map_cons,List.mapM_cons,decodeEvent_row,ih]; rfl
  rw [decodeEvents,h]

theorem orderBy_position_rows (events : List StoredEvent) :
    orderBy EventRow.position (events.map row) = (orderBy StoredEvent.position events).map row :=
  orderBy_map (fun _ => rfl) events

theorem orderBy_version_rows (events : List StoredEvent) :
    orderBy EventRow.version (events.map row) = (orderBy StoredEvent.version events).map row :=
  orderBy_map (fun _ => rfl) events

theorem maxOf_version_rows (events : List StoredEvent) :
    maxOf EventRow.version (events.map row) = maxOf StoredEvent.version events :=
  maxOf_map (fun _ => rfl) events

theorem jsonExtract_partition (e : StoredEvent) :
    jsonExtract (row e).metadata "partition" = e.metadata.partition := by
  have hp := e.metadata.get_toJson
    (show ("partition",e.metadata.partition.map .str) ∈ e.metadata.fields by
      simp [StoredEventMetadata.fields])
  simp only [row,jsonExtract,jsonText,Json.parse_stringify,Option.bind_some,hp]
  cases e.metadata.partition <;> rfl

/-- A call is within what the engine takes. -/
def Engine.Takes (engine : Engine) : StoreCall → Prop
  | .append _ _ events => ∀ event ∈ events, engine.reads event.metadata.toJson = true
  | .readAll options => engine.bind (options.fromPosition.getD 1) = some (options.fromPosition.getD 1) ∧
    engine.takesQuery (readAllPartitions options.partition) options.batchSize = true
  | _ => True

namespace Database
variable {engine : Engine} {db : Database} {l : EventLog}

structure Represents (db : Database) (l : EventLog) : Prop where
  events : db.events = l.log.map row
  sequence : db.sequence = l.log.length
  erased : ∀ streamName,
    (db.erasedStreams.find? fun r => r.streamName = streamName).map ErasedStreamRow.record =
      l.erased streamName
  wellFormed : l.WellFormed

theorem represents_empty : Represents {} EventLog.empty where
  events := rfl
  sequence := rfl
  erased _ := rfl
  wellFormed := EventLog.wellFormed_empty

theorem Represents.streamRows (h : db.Represents l) (streamName : String) :
    (db.events.filter fun r => r.streamName = streamName) = (l.stream streamName).map row := by
  rw [h.events,List.filter_map]
  rfl

theorem Represents.currentVersion (h : db.Represents l) (streamName : String) :
    db.currentVersion streamName = l.version streamName := by
  have hv := maxOf_numbered (h.wellFormed.versions streamName)
  rw [Database.currentVersion,h.streamRows,maxOf_version_rows,hv,EventLog.version]
  ring

theorem insertEvents_eq (streamName : String) (version : ℤ) (events : List AppendEvent)
    (hv : ∀ r ∈ db.events, r.streamName = streamName → r.version ≤ version)
    (hreads : ∀ event ∈ events, engine.reads event.metadata.toJson = true) :
    db.insertEvents engine streamName version events = .ok {db with
      events := db.events ++ (stampFrom streamName db.sequence version events).map row
      sequence := db.sequence + events.length} := by
  induction events generalizing db version with
  | nil => simp [insertEvents,stampFrom]
  | cons e es ih =>
    have hfree : db.events.any (fun r => r.streamName = streamName ∧ r.version = version + 1) = false := by
      rw [List.any_eq_false]
      intro r hr hc
      obtain ⟨hn,hr'⟩ := of_decide_eq_true hc
      have := hv r hr hn
      omega
    simp only [insertEvents,insertEvent,hreads e List.mem_cons_self,hfree,Bool.not_true,Bool.false_eq_true,if_false]
    rw [ih _ ?_ fun event hevent => hreads event (List.mem_cons_of_mem e hevent)]
    · simp only [stampFrom,List.map_cons,List.append_assoc,List.singleton_append,List.length_cons]
      congr 2
      push_cast
      ring
    · intro r hr hn
      rcases List.mem_append.mp hr with hr | hr
      · have := hv r hr hn
        omega
      · rw [List.mem_singleton.mp hr]

theorem Represents.version_le (h : db.Represents l) {streamName : String} :
    ∀ r ∈ db.events, r.streamName = streamName → r.version ≤ l.version streamName := by
  intro r hr hn
  rw [h.events] at hr
  obtain ⟨e,he,rfl⟩ := List.mem_map.mp hr
  have hm : e ∈ l.stream streamName := List.mem_filter.mpr ⟨he,by simpa [row] using hn⟩
  have hb := ((h.wellFormed.versions streamName).bounds hm).2
  rw [zero_add] at hb
  exact hb

theorem Represents.append (h : db.Represents l) (streamName : String) (expectedVersion : ℤ)
    (events : List AppendEvent) (hreads : ∀ event ∈ events, engine.reads event.metadata.toJson = true) :
    (db.append engine streamName expectedVersion events).1.Represents
        (l.append streamName expectedVersion events).1 ∧
      (db.append engine streamName expectedVersion events).2 =
        (l.append streamName expectedVersion events).2 := by
  have he := h.erased streamName
  cases hf : db.erasedStreams.find? fun r => r.streamName = streamName with
  | some erased =>
    rw [hf] at he
    have hs : db.append engine streamName expectedVersion events = (db,.error (.concurrencyConflict
        (conflict streamName expectedVersion erased.lastVersion))) := by
      simp only [Database.append,appendBody,hf,withTransaction]
    have hl : l.append streamName expectedVersion events = (l,.error (.concurrencyConflict
        (conflict streamName expectedVersion erased.lastVersion))) := by
      simp only [EventLog.append,← he,Option.map_some,ErasedStreamRow.record]
    rw [hs,hl]
    exact ⟨h,rfl⟩
  | none =>
    rw [hf] at he
    by_cases hv : l.version streamName = expectedVersion
    · subst hv
      have hi := insertEvents_eq streamName (l.version streamName) events h.version_le hreads
      have hs : db.append engine streamName (l.version streamName) events = ({db with
            events := db.events ++
              (stampFrom streamName db.sequence (l.version streamName) events).map row
            sequence := db.sequence + events.length},
          .ok (if events = [] then ⟨l.version streamName,l.version streamName⟩
            else ⟨l.version streamName + 1,l.version streamName + events.length⟩)) := by
        simp only [Database.append,appendBody,hf,h.currentVersion,ne_eq,not_true_eq_false,if_false,hi,
          withTransaction]
      by_cases hn : events = []
      · have hl : l.append streamName (l.version streamName) events =
            (l,.ok ⟨l.version streamName,l.version streamName⟩) := by
          simp only [EventLog.append,← he,Option.map_none,ne_eq,not_true_eq_false,if_false,if_pos hn]
        rw [hs,hl,if_pos hn,hn]
        exact ⟨⟨by simpa [stampFrom] using h.events,by simpa using h.sequence,h.erased,h.wellFormed⟩,rfl⟩
      · have hl : l.append streamName (l.version streamName) events =
            (l.extend (stampFrom streamName l.log.length (l.version streamName) events),
              .ok ⟨l.version streamName + 1,l.version streamName + events.length⟩) := by
          simp only [EventLog.append,← he,Option.map_none,ne_eq,not_true_eq_false,if_false,if_neg hn]
        have hw := h.wellFormed.append streamName (l.version streamName) events
        rw [hl] at hw
        rw [hs,hl,if_neg hn]
        refine ⟨⟨?_,?_,h.erased,hw⟩,rfl⟩
        · rw [EventLog.extend,List.map_append,← h.events,h.sequence]
        · simp only [h.sequence,EventLog.extend,List.length_append,stampFrom_length]
          push_cast
          rfl
    · have hs : db.append engine streamName expectedVersion events = (db,.error (.concurrencyConflict
          (conflict streamName expectedVersion (l.version streamName)))) := by
        simp only [Database.append,appendBody,hf,h.currentVersion,ne_eq,hv,not_false_eq_true,if_true,
          withTransaction]
      have hl : l.append streamName expectedVersion events = (l,.error (.concurrencyConflict
          (conflict streamName expectedVersion (l.version streamName)))) := by
        simp only [EventLog.append,← he,Option.map_none,ne_eq,hv,not_false_eq_true,if_true]
      rw [hs,hl]
      exact ⟨h,rfl⟩

theorem Represents.read (h : db.Represents l) (streamName : String) (fromVersion : Option ℤ) :
    db.read streamName fromVersion = .ok (readOf (l.stream streamName) fromVersion) := by
  have hrows : (db.events.filter fun r => r.streamName = streamName ∧ r.version ≥ fromVersion.getD 1) =
      (readOf (l.stream streamName) fromVersion).map row := by
    rw [h.events,List.filter_map,readOf,EventLog.stream,streamOf,List.filter_filter]
    congr 1
    refine List.filter_congr fun e _ => ?_
    simp only [row,Function.comp_apply,ge_iff_le,Bool.decide_and]
    exact Bool.and_comm _ _
  rw [Database.read,hrows,orderBy_version_rows,readOf,
    orderBy_filter (h.wellFormed.versions streamName),decodeEvents_rows]

theorem partitionFilter_row (partitions : Option (List String)) (e : StoredEvent) :
    partitionFilter partitions (row e) = inPartitions partitions e := by
  match partitions with
  | none => rfl
  | some [] => simp [partitionFilter,inPartitions]
  | some (p :: ps) => simp only [partitionFilter,inPartitions,jsonExtract_partition]

theorem Represents.readAll (h : db.Represents l) (options : ReadAllOptions) (htakes : engine.Takes (.readAll options)) :
    db.readAll engine options = .ok (readAllOf l.log options) := by
  have hrows : (db.events.filter fun r => r.position ≥ options.fromPosition.getD 1 &&
        partitionFilter (readAllPartitions options.partition) r) =
      (l.log.filter fun e => options.fromPosition.getD 1 ≤ e.position ∧
        inPartitions (readAllPartitions options.partition) e).map row := by
    rw [h.events,List.filter_map]
    congr 1
    refine List.filter_congr fun e _ => ?_
    simp only [Function.comp_apply,partitionFilter_row,Bool.decide_and,Bool.decide_eq_true]
    rfl
  simp only [Database.readAll,htakes.1,htakes.2,if_true,hrows,orderBy_position_rows,
    orderBy_filter h.wellFormed.positions,readAllOf]
  cases options.batchSize with
  | none => exact decodeEvents_rows _
  | some batchSize => simp only [← List.map_take,decodeEvents_rows]

/-- The loop writes the tombstones of the versions 1 to `n`. -/
theorem updateTombstones_eq {log : List StoredEvent} (h : db.events = log.map row)
    (streamName erasedAt : String) (n : ℕ) :
    updateTombstones streamName erasedAt n db =
      {db with events := (log.map (EventLog.eraseUpTo streamName erasedAt n)).map row} := by
  induction n with
  | zero =>
    have hid : log.map (EventLog.eraseUpTo streamName erasedAt 0) = log :=
      (List.map_congr_left fun e _ => EventLog.eraseUpTo_zero streamName erasedAt e).trans
        (List.map_id log)
    rw [hid,← h]
    rfl
  | succ n ih =>
    have hstep : updateTombstones streamName erasedAt (n + 1) db =
        updateTombstone streamName erasedAt (n + 1) (updateTombstones streamName erasedAt n db) := rfl
    rw [hstep,ih]
    simp only [updateTombstone,updateWhere,List.map_map]
    congr 1
    refine List.map_congr_left fun e _ => ?_
    rw [Function.comp_apply,Function.comp_apply,Function.comp_apply,← EventLog.eraseUpTo_succ]
    simp only [row,EventLog.eraseUpTo_streamName,EventLog.eraseUpTo_version,decide_eq_true_eq]
    split
    next hc =>
      obtain ⟨rfl,hv⟩ := hc
      simp only [setTombstone,StoredEvent.erase,AppendEvent.stored,EventLog.eraseUpTo_streamName,
        EventLog.eraseUpTo_version,hv]
    next => simp only [EventLog.eraseUpTo_streamName,EventLog.eraseUpTo_version]

theorem Represents.eraseStream (h : db.Represents l) (request : StreamErasureRequest)
    (erasedAt : String) :
    (db.eraseStream request erasedAt).1.Represents (l.eraseStream request erasedAt).1 ∧
      (db.eraseStream request erasedAt).2 = (l.eraseStream request erasedAt).2 := by
  have he := h.erased request.streamName
  cases hp : prepareStreamErasure request with
  | error e =>
    have hs : db.eraseStream request erasedAt = (db,.error (.streamErasure e)) := by
      simp only [Database.eraseStream,hp]
    have hl : l.eraseStream request erasedAt = (l,.error (.streamErasure e)) := by
      simp only [EventLog.eraseStream,hp]
    rw [hs,hl]
    exact ⟨h,rfl⟩
  | ok _ =>
    cases hf : db.erasedStreams.find? fun r => r.streamName = request.streamName with
    | some recorded =>
      rw [hf] at he
      by_cases hv : request.expectedVersion = recorded.lastVersion
      · have hs : db.eraseStream request erasedAt =
            (db,.ok ⟨0,recorded.lastVersion,recorded.erasedAt,recorded.reason⟩) := by
          simp only [Database.eraseStream,hp,eraseBody,hf,ne_eq,hv,not_true_eq_false,if_false,
            withTransaction]
        have hl : l.eraseStream request erasedAt =
            (l,.ok ⟨0,recorded.lastVersion,recorded.erasedAt,recorded.reason⟩) := by
          simp only [EventLog.eraseStream,hp,← he,Option.map_some,ErasedStreamRow.record,ne_eq,hv,
            not_true_eq_false,if_false]
        rw [hs,hl]
        exact ⟨h,rfl⟩
      · have hs : db.eraseStream request erasedAt = (db,.error (.streamErasure (streamErasureConflict
            request.streamName request.expectedVersion recorded.lastVersion))) := by
          simp only [Database.eraseStream,hp,eraseBody,hf,ne_eq,hv,not_false_eq_true,if_true,
            withTransaction]
        have hl : l.eraseStream request erasedAt = (l,.error (.streamErasure (streamErasureConflict
            request.streamName request.expectedVersion recorded.lastVersion))) := by
          simp only [EventLog.eraseStream,hp,← he,Option.map_some,ErasedStreamRow.record,ne_eq,hv,
            not_false_eq_true,if_true]
        rw [hs,hl]
        exact ⟨h,rfl⟩
    | none =>
      rw [hf] at he
      by_cases hv : l.version request.streamName = request.expectedVersion
      · have hl : l.eraseStream request erasedAt = (l.pin request.streamName erasedAt request.reason,
            .ok ⟨l.version request.streamName,l.version request.streamName,erasedAt,request.reason⟩) := by
          simp only [EventLog.eraseStream,hp,← he,Option.map_none,ne_eq,hv,not_true_eq_false,if_false]
        have hw := h.wellFormed.pin request.streamName erasedAt request.reason
        have hs : db.eraseStream request erasedAt = ({db with
              events := (EventLog.eraseIn request.streamName erasedAt l.log).map row
              snapshots := deleteWhere (fun r => r.streamName = request.streamName) db.snapshots
              erasedStreams := db.erasedStreams ++
                [⟨request.streamName,request.expectedVersion,erasedAt,request.reason⟩]},
            .ok ⟨request.expectedVersion,request.expectedVersion,erasedAt,request.reason⟩) := by
          simp only [Database.eraseStream,hp,eraseBody,hf,h.currentVersion,ne_eq,hv,not_true_eq_false,
            if_false,withTransaction]
          rw [← hv,updateTombstones_eq h.events,h.wellFormed.map_eraseUpTo]
        rw [hs,hl,hv]
        refine ⟨⟨rfl,?_,fun other => ?_,hw⟩,rfl⟩
        · simpa [EventLog.pin] using h.sequence
        · simp only [List.find?_append,EventLog.pin]
          by_cases hn : other = request.streamName
          · subst hn
            simp [hf,ErasedStreamRow.record,hv]
          · rw [Function.update_of_ne hn,← h.erased other]
            simp [Ne.symm hn]
      · have hs : db.eraseStream request erasedAt = (db,.error (.streamErasure (streamErasureConflict
            request.streamName request.expectedVersion (l.version request.streamName)))) := by
          simp only [Database.eraseStream,hp,eraseBody,hf,h.currentVersion,ne_eq,hv,not_false_eq_true,
            if_true,withTransaction]
        have hl : l.eraseStream request erasedAt = (l,.error (.streamErasure (streamErasureConflict
            request.streamName request.expectedVersion (l.version request.streamName)))) := by
          simp only [EventLog.eraseStream,hp,← he,Option.map_none,ne_eq,hv,not_false_eq_true,if_true]
        rw [hs,hl]
        exact ⟨h,rfl⟩

theorem Represents.apply (h : db.Represents l) (call : StoreCall) (htakes : engine.Takes call) :
    (db.apply engine call).1.Represents (l.apply call).1 ∧ (db.apply engine call).2 = (l.apply call).2 := by
  cases call with
  | append streamName expectedVersion events =>
    obtain ⟨hr,ha⟩ := h.append streamName expectedVersion events htakes
    exact ⟨hr,congrArg StoreAnswer.appended ha⟩
  | eraseStream request erasedAt =>
    obtain ⟨hr,ha⟩ := h.eraseStream request erasedAt
    exact ⟨hr,congrArg StoreAnswer.erased ha⟩
  | read streamName fromVersion => exact ⟨h,congrArg StoreAnswer.events (h.read streamName fromVersion)⟩
  | readAll options => exact ⟨h,congrArg StoreAnswer.events (h.readAll options htakes)⟩

end Database

theorem sqlite3_reads (bind : ℤ → Option ℤ) (document : Json) :
    (sqlite3 bind).reads document = decide (document.depth ≤ 1000) := rfl

/-- Started empty, the in-memory and the SQLite store give the same answers to every sequence of calls within the
limits: the same events, positions, versions, results and failures. -/
theorem memory_sqlite_agree (p : ImportPrimitives) (bind : ℤ → Option ℤ)
    (hbind : ∀ n, -2 ^ 63 ≤ n → n < 2 ^ 63 → bind n = some n) (calls : List StoreCall)
    (happend : ∀ streamName expectedVersion events, .append streamName expectedVersion events ∈ calls →
      ∀ event ∈ events, event.metadata.toJson.depth ≤ 1000)
    (hreadAll : ∀ options, .readAll options ∈ calls →
      -2 ^ 63 ≤ options.fromPosition.getD 1 ∧ options.fromPosition.getD 1 < 2 ^ 63 ∧ options.batchSize.getD 0 < 2 ^ 63 ∧
        ((readAllPartitions options.partition).getD []).length ≤ 32764) :
    ((inMemoryEventStore p).comap .store).outputs calls = (eventStore (sqlite3 bind)).outputs calls := by
  have htakes : ∀ call ∈ calls, (sqlite3 bind).Takes call := by
    intro call hcall
    cases call with
    | append streamName expectedVersion events =>
      intro event hevent
      rw [sqlite3_reads]
      exact decide_eq_true (happend streamName expectedVersion events hcall event hevent)
    | eraseStream request erasedAt => trivial
    | read streamName fromVersion => trivial
    | readAll options =>
      obtain ⟨hlow,hhigh,hbatch,hpartitions⟩ := hreadAll options hcall
      refine ⟨hbind _ hlow hhigh,?_⟩
      unfold Engine.takesQuery sqlite3
      cases hsize : options.batchSize with
      | none =>
        refine Bool.and_eq_true_iff.mpr ⟨decide_eq_true ?_,rfl⟩
        simp only [Option.toList_none,List.length_nil]
        omega
      | some batchSize =>
        rw [hsize,Option.getD_some] at hbatch
        refine Bool.and_eq_true_iff.mpr ⟨decide_eq_true ?_,decide_eq_true hbatch⟩
        simp only [Option.toList_some,List.length_singleton]
        omega
  have hrelated : List.Forall₂ Eq (((inMemoryEventStore p).comap .store).outputs calls)
      ((eventStore (sqlite3 bind)).outputs calls) := by
    refine Machine.outputs_related (R := fun s db => s.Consistent ∧ db.Represents s.log)
      ⟨EventStoreState.consistent_empty,Database.represents_empty⟩ ?_ calls htakes
    rintro s db call ⟨hc,hr⟩ hcall
    obtain ⟨hc',hl,ha⟩ := hc.apply (p := p) (.store call)
    obtain ⟨hr',ha'⟩ := hr.apply call hcall
    exact ⟨⟨hc',hl ▸ hr'⟩,ha.trans ha'.symm⟩
  rwa [List.forall₂_eq_eq_eq] at hrelated

/-- An event whose metadata is extended with arrays inside of arrays. -/
def nestedEvent (depth : ℕ) : AppendEvent where
  type := "Placed"
  schemaVersion := 1
  payload := .null
  metadata := {
    eventId := "e1"
    occurredAt := "2024-01-01T00:00:00.000Z"
    aggregateName := "order"
    aggregateId := "1"
    aggregateVersion := Decimal.ofInt 1
    extensions := some [("nested",(fun v => .arr [v])^[depth] .null)] }

theorem depth_nested (n : ℕ) : ((fun v => Json.arr [v])^[n] .null).depth = n := by
  induction n with
  | zero => rfl
  | succ n ih =>
    rw [Function.iterate_succ_apply',Json.depth,Json.depthItems,Json.depthItems,ih]
    omega

theorem depth_nestedEvent (n : ℕ) : (nestedEvent n).metadata.toJson.depth = n + 2 := by
  have hnested := depth_nested n
  simp only [nestedEvent,StoredEventMetadata.toJson,StoredEventMetadata.fields,Json.ofFields] at hnested ⊢
  simp [Json.depth,Json.depthMembers,hnested]

theorem memory_sqlite_agree_order :
    ((inMemoryEventStore ⟨id,fun _ => true⟩).comap .store).outputs
        [.append "order-1" 0 [nestedEvent 998],.readAll ⟨none,some 10,none⟩,.append "order-1" 0 [nestedEvent 0]] =
      (eventStore (sqlite3 fun n => some (n.bmod (2 ^ 64)))).outputs
        [.append "order-1" 0 [nestedEvent 998],.readAll ⟨none,some 10,none⟩,.append "order-1" 0 [nestedEvent 0]] := by
  refine memory_sqlite_agree _ _ ?_ _ ?_ ?_
  · intro n hlow hhigh
    rw [Int.bmod_eq_of_le (by omega) (by omega)]
  · intro streamName expectedVersion events hcall event hevent
    simp only [List.mem_cons,StoreCall.append.injEq,List.not_mem_nil,or_false,reduceCtorEq,false_or] at hcall
    rcases hcall with ⟨-,-,rfl⟩ | ⟨-,-,rfl⟩
    all_goals
      obtain rfl := List.mem_singleton.mp hevent
      exact (depth_nestedEvent _).le.trans (by omega)
  · intro options hcall
    simp only [List.mem_cons,StoreCall.readAll.injEq,List.not_mem_nil,or_false,reduceCtorEq,false_or] at hcall
    obtain rfl := hcall
    decide

/-- The index refuses metadata that is nested a thousand deep, which the in-memory store keeps. -/
theorem memory_sqlite_differ :
    ((inMemoryEventStore ⟨id,fun _ => true⟩).comap .store).outputs [.append "order-1" 0 [nestedEvent 1000]] =
      [.appended (.ok ⟨1,1⟩)] ∧
    (eventStore (sqlite3 fun n => some (n.bmod (2 ^ 64)))).outputs [.append "order-1" 0 [nestedEvent 1000]] =
      [.appended (.error (.persistence ⟨"EventStore"⟩))] := by
  have hkeeps : ∀ event, ((inMemoryEventStore ⟨id,fun _ => true⟩).comap .store).outputs [.append "order-1" 0 [event]] =
      [.appended (.ok ⟨1,1⟩)] := fun _ => rfl
  have hrefuses : ∀ (engine : Engine) (event : AppendEvent), engine.reads event.metadata.toJson = false →
      (eventStore engine).outputs [.append "order-1" 0 [event]] =
        [.appended (.error (.persistence ⟨"EventStore"⟩))] := by
    intro engine event hrefused
    simp [eventStore,Machine.outputs,Machine.outputsFrom,Database.apply,Database.append,Database.appendBody,
      Database.currentVersion,Database.insertEvents,Database.insertEvent,withTransaction,maxOf,hrefused]
  have hrefused : (sqlite3 fun n => some (n.bmod (2 ^ 64))).reads (nestedEvent 1000).metadata.toJson = false := by
    rw [sqlite3_reads,depth_nestedEvent]
    rfl
  exact ⟨hkeeps _,hrefuses _ _ hrefused⟩

theorem takesQuery_unlimited (partitions : Option (List String)) (batchSize : Option ℕ) :
    Engine.unlimited.takesQuery partitions batchSize = true := by
  cases batchSize <;> rfl

/-- The service over an engine without limits. -/
def sqliteService : EventStoreService Database where
  init := {}
  append := Database.append .unlimited
  read := Database.read
  readAll := Database.readAll .unlimited
  eraseStream := Database.eraseStream
  isErased db streamName := (db.erasedStreams.find? fun r => r.streamName = streamName).isSome

theorem sqliteService_keepsLog : sqliteService.KeepsLog Database.Represents where
  init := Database.represents_empty
  wellFormed _ _ h := h.wellFormed
  append _ _ streamName expectedVersion events h := h.append streamName expectedVersion events fun _ _ => rfl
  eraseStream _ _ request erasedAt h := h.eraseStream request erasedAt
  read _ _ streamName fromVersion h := h.read streamName fromVersion
  readAll _ _ options h := h.readAll options ⟨rfl,takesQuery_unlimited _ _⟩
  isErased db l streamName h := by
    rw [← h.erased streamName]
    simp only [sqliteService,Option.isSome_iff_ne_none,ne_eq,Option.map_eq_none_iff]

end StructureAi.Sqlite

import StructureAi.EventSourcing.KeyOrder
import StructureAi.EventSourcing.MemoryInvariants
import StructureAi.Postgres.EventStore

/-! # The PostgreSQL event store keeps the same event log

The rows hold the events of the log up to the member order that `jsonb` may
change, the sequence stands at the last position between calls, and the import
tables hold the sessions and batches of the log.
-/
namespace StructureAi.Postgres
open StructureAi.Foundation StructureAi.EventSourcing

/-- `jsonb` keeps the value of a JSON text, apart from the order of object members. -/
def JsonbPreserves (jsonb : String → Option String) : Prop :=
  ∀ v : Json, v.WellFormed → v.NulFree → ∃ text v', jsonb (Json.stringify v) = some text ∧
    Json.parse text = some v' ∧ v'.WellFormed ∧ v'.canonical = v.canonical

/-- Content the columns of the events table accept. -/
structure Storable (event : AppendEvent) : Prop where
  type : IsText event.type
  payload : event.payload.WellFormed ∧ event.payload.NulFree
  metadata : event.metadata.toJson.WellFormed ∧ event.metadata.toJson.NulFree
  schemaVersion : -maxPgInteger - 1 ≤ event.schemaVersion ∧ event.schemaVersion ≤ maxPgInteger

/-- The row holds the event up to member order. -/
structure Holds (r : EventRow) (e : StoredEvent) : Prop where
  position : r.position = e.position
  streamName : r.streamName = e.streamName
  version : r.version = e.version
  decoded : ∃ e', decodeEvent r = some e' ∧ e'.canonical = e.canonical
  partition : r.partition = e.metadata.partition
  eventId : arrowText r.metadata "eventId" = some e.metadata.eventId

theorem arrowText_string {text name : String} {v : Json} {m : StoredEventMetadata} {s : Option String}
    (ht : Json.parse text = some v) (hv : v.WellFormed) (hm : m.toJson.WellFormed)
    (hc : v.canonical = m.toJson.canonical) (hs : (name,s.map Json.str) ∈ m.fields) :
    arrowText text name = s := by
  have hg : (v.get name).map Json.canonical = (m.toJson.get name).map Json.canonical := by
    rw [← Json.get_canonical hv,← Json.get_canonical hm,hc]
  rw [m.get_toJson hs] at hg
  simp only [arrowText,ht,Option.bind_some]
  cases s with
  | none =>
    rw [Option.map_none,Option.map_none,Option.map_eq_none_iff] at hg
    rw [hg]
  | some s =>
    obtain ⟨w,hw,hws⟩ := Option.map_eq_some_iff.mp hg
    rw [hw]
    cases w <;> simp_all [Json.canonical]

theorem holds_of_jsonb {event : AppendEvent} (hs : Storable event) {payload metadata : String}
    {v w : Json} (hp : Json.parse payload = some v) (hpc : v.canonical = event.payload.canonical)
    (hm : Json.parse metadata = some w) (hw : w.WellFormed)
    (hmc : w.canonical = event.metadata.toJson.canonical) (position : ℤ) (streamName : String)
    (version : ℤ) :
    Holds ⟨position,streamName,version,event.type,event.schemaVersion,payload,metadata,
      arrowText metadata "partition"⟩ (event.stored position streamName version) := by
  have hcongr := StoredEventMetadata.ofJson_congr hw hs.metadata.1 hmc
  rw [StoredEventMetadata.ofJson_toJson,Option.map_some] at hcongr
  obtain ⟨m,hmw,hmm⟩ := Option.map_eq_some_iff.mp hcongr
  refine ⟨rfl,rfl,rfl,?_,?_,?_⟩
  · refine ⟨⟨position,streamName,version,event.type,event.schemaVersion,v,m⟩,?_,?_⟩
    · simp only [decodeEvent,hp,hm,Option.bind_some,hmw,Option.bind_eq_bind,Option.pure_def]
    · simp only [StoredEvent.canonical,AppendEvent.stored,hpc,hmm]
  · exact arrowText_string hm hw hs.metadata.1 hmc (by simp [StoredEventMetadata.fields,AppendEvent.stored])
  · exact arrowText_string (s := some _) hm hw hs.metadata.1 hmc
      (by simp [StoredEventMetadata.fields,AppendEvent.stored])

theorem decodeEvents_of_holds {rows : List EventRow} {events : List StoredEvent}
    (h : List.Forall₂ Holds rows events) : ∃ events', decodeEvents rows = .ok events' ∧
      events'.map StoredEvent.canonical = events.map StoredEvent.canonical := by
  have key : ∃ events', rows.mapM decodeEvent = some events' ∧
      events'.map StoredEvent.canonical = events.map StoredEvent.canonical := by
    induction h with
    | nil => exact ⟨[],rfl,rfl⟩
    | cons hr _ ih =>
      obtain ⟨e,he,hc⟩ := hr.decoded
      obtain ⟨es,hes,hcs⟩ := ih
      refine ⟨e :: es,?_,by rw [List.map_cons,List.map_cons,hc,hcs]⟩
      rw [List.mapM_cons,he,hes]
      rfl
  obtain ⟨events',he,hc⟩ := key
  exact ⟨events',by rw [decodeEvents,he],hc⟩

theorem numberedFrom_of_forall₂ {f : EventRow → ℤ} {g : StoredEvent → ℤ}
    (hfg : ∀ r e, Holds r e → f r = g e) {rows : List EventRow} {events : List StoredEvent}
    (h : List.Forall₂ Holds rows events) {n : ℤ} (hn : NumberedFrom g n events) :
    NumberedFrom f n rows := by
  induction h generalizing n with
  | nil => trivial
  | cons hr _ ih => exact ⟨(hfg _ _ hr).trans hn.1,ih hn.2⟩

def ErasedStreamRow.record (r : ErasedStreamRow) : ErasedStreamRecord :=
  ⟨r.lastVersion,r.erasedAt,r.reason⟩

def HistoryImportRow.session (r : HistoryImportRow) : HistoryImportSession :=
  ⟨r.resumeToken,r.lastPosition,r.complete⟩

def HistoryImportBatchRow.record (r : HistoryImportBatchRow) : HistoryImportBatchRecord :=
  ⟨r.checksum,r.previousToken,r.complete,
    ⟨.imported,r.importedCount,r.lastPosition,r.resultToken,r.complete⟩⟩

namespace Database
variable {jsonb : String → Option String} {p : ImportPrimitives} {db : Database} {l : EventLog}

structure Represents (db : Database) (l : EventLog) : Prop where
  events : List.Forall₂ Holds db.events l.log
  sequence : db.sequence = l.log.length
  erased : ∀ streamName,
    (db.erasedStreams.find? fun r => r.streamName = streamName).map ErasedStreamRow.record =
      l.erased streamName
  sessions : ∀ importId,
    (db.historyImports.find? fun r => r.importId = importId).map HistoryImportRow.session =
      l.sessions importId
  batches : ∀ importId batchId,
    (db.historyImportBatches.find? fun r => r.importId = importId ∧ r.batchId = batchId).map
      HistoryImportBatchRow.record = l.batches importId batchId
  wellFormed : l.WellFormed

theorem represents_empty : Represents {} EventLog.empty where
  events := List.Forall₂.nil
  sequence := rfl
  erased _ := rfl
  sessions _ := rfl
  batches _ _ := rfl
  wellFormed := EventLog.wellFormed_empty

theorem Represents.streamRows (h : db.Represents l) (streamName : String) :
    List.Forall₂ Holds (db.events.filter fun r => r.streamName = streamName) (l.stream streamName) := by
  refine List.rel_filter ?_ h.events
  intro r e hr
  simp only [decide_eq_true_eq,hr.streamName]

theorem Represents.positions (h : db.Represents l) : Numbered EventRow.position db.events :=
  numberedFrom_of_forall₂ (fun _ _ hr => hr.position) h.events h.wellFormed.positions

theorem Represents.versions (h : db.Represents l) (streamName : String) :
    Numbered EventRow.version (db.events.filter fun r => r.streamName = streamName) :=
  numberedFrom_of_forall₂ (fun _ _ hr => hr.version) (h.streamRows streamName)
    (h.wellFormed.versions streamName)

theorem Represents.currentVersion (h : db.Represents l) (streamName : String) :
    db.currentVersion streamName = l.version streamName := by
  rw [Database.currentVersion,maxOf_numbered (h.versions streamName),(h.streamRows streamName).length_eq,
    EventLog.version]
  ring

theorem Represents.position_le (h : db.Represents l) : ∀ r ∈ db.events, r.position ≤ db.sequence := by
  intro r hr
  have hb := (h.positions.bounds hr).2
  rw [h.events.length_eq] at hb
  rw [h.sequence]
  omega

theorem Represents.version_le (h : db.Represents l) :
    ∀ r ∈ db.events, r.version ≤ l.version r.streamName := by
  intro r hr
  have hm : r ∈ db.events.filter fun r' => r'.streamName = r.streamName :=
    List.mem_filter.mpr ⟨hr,by simp⟩
  have hb := ((h.versions r.streamName).bounds hm).2
  rw [(h.streamRows r.streamName).length_eq,zero_add] at hb
  exact hb

theorem insertRow_eq (hj : JsonbPreserves jsonb) (db : Database) {event : AppendEvent}
    (hs : Storable event) {position : ℤ} {streamName : String} {version : ℤ}
    (hfree : ∀ r ∈ db.events, r.position ≠ position ∧
      ¬ (r.streamName = streamName ∧ r.version = version)) :
    ∃ r, db.insertRow jsonb position streamName version event =
        ({db with events := db.events ++ [r]},.ok ()) ∧
      Holds r (event.stored position streamName version) := by
  obtain ⟨payload,v,hp,hv,-,hvc⟩ := hj _ hs.payload.1 hs.payload.2
  obtain ⟨metadata,w,hm,hw,hww,hwc⟩ := hj _ hs.metadata.1 hs.metadata.2
  have hrange : ¬ (event.schemaVersion < -maxPgInteger - 1 ∨ maxPgInteger < event.schemaVersion) := by
    have := hs.schemaVersion
    omega
  have hany : db.events.any (fun r => r.position = position ∨
      (r.streamName = streamName ∧ r.version = version)) = false := by
    rw [List.any_eq_false]
    intro r hr hc
    rcases of_decide_eq_true hc with hc | hc
    · exact (hfree r hr).1 hc
    · exact (hfree r hr).2 hc
  refine ⟨_,?_,holds_of_jsonb hs hv hvc hw hww hwc position streamName version⟩
  simp only [insertRow,jsonText,hp,hm,if_neg hrange,hany,Bool.false_eq_true,if_false]

theorem insertEvents_eq (hj : JsonbPreserves jsonb) (streamName : String) (version : ℤ)
    (events : List AppendEvent) (db : Database) (hs : ∀ e ∈ events, Storable e)
    (hp : ∀ r ∈ db.events, r.position ≤ db.sequence)
    (hv : ∀ r ∈ db.events, r.streamName = streamName → r.version ≤ version) :
    ∃ rows, db.insertEvents jsonb streamName version events = ({db with
        events := db.events ++ rows
        sequence := db.sequence + events.length},.ok ()) ∧
      List.Forall₂ Holds rows (stampFrom streamName db.sequence version events) := by
  induction events generalizing db version with
  | nil => exact ⟨[],by simp [insertEvents],List.Forall₂.nil⟩
  | cons e es ih =>
    have hfree : ∀ r ∈ db.events, r.position ≠ db.sequence + 1 ∧
        ¬ (r.streamName = streamName ∧ r.version = version + 1) := by
      intro r hr
      have hpos := hp r hr
      refine ⟨by omega,?_⟩
      rintro ⟨hn,hver⟩
      have := hv r hr hn
      omega
    obtain ⟨r,hr,hh⟩ := insertRow_eq hj {db with sequence := db.sequence + 1}
      (hs e List.mem_cons_self) hfree
    let db' : Database := {db with
      events := db.events ++ [r]
      sequence := db.sequence + 1}
    have hp' : ∀ r' ∈ db'.events, r'.position ≤ db'.sequence := by
      intro r' hr'
      rcases List.mem_append.mp hr' with hr' | hr'
      · exact (hp r' hr').trans (Int.le_add_one le_rfl)
      · rw [List.mem_singleton.mp hr']
        exact hh.position.le
    have hv' : ∀ r' ∈ db'.events, r'.streamName = streamName → r'.version ≤ version + 1 := by
      intro r' hr' hn
      rcases List.mem_append.mp hr' with hr' | hr'
      · exact (hv r' hr' hn).trans (Int.le_add_one le_rfl)
      · rw [List.mem_singleton.mp hr']
        exact hh.version.le
    obtain ⟨rows,hrows,hforall⟩ := ih (version + 1) db'
      (fun e' he' => hs e' (List.mem_cons_of_mem e he')) hp' hv'
    refine ⟨r :: rows,?_,List.Forall₂.cons hh hforall⟩
    simp only [insertEvents,insertEvent,if_pos (hs e List.mem_cons_self).type,hr]
    rw [hrows]
    simp only [db',List.append_assoc,List.singleton_append,List.length_cons]
    congr 2
    push_cast
    ring

theorem Represents.append (hj : JsonbPreserves jsonb) (h : db.Represents l) {streamName : String}
    (hname : IsText streamName) (expectedVersion : ℤ) {events : List AppendEvent} (hs : ∀ e ∈ events, Storable e) :
    (db.append jsonb streamName expectedVersion events).1.Represents
        (l.append streamName expectedVersion events).1 ∧
      (db.append jsonb streamName expectedVersion events).2 =
        (l.append streamName expectedVersion events).2 := by
  have he := h.erased streamName
  cases hf : db.erasedStreams.find? fun r => r.streamName = streamName with
  | some erased =>
    rw [hf] at he
    have hs : db.append jsonb streamName expectedVersion events = (db,.error (.concurrencyConflict
        (conflict streamName expectedVersion erased.lastVersion))) := by
      simp only [Database.append,appendBody,if_pos hname,hf,withTransaction]
    have hl : l.append streamName expectedVersion events = (l,.error (.concurrencyConflict
        (conflict streamName expectedVersion erased.lastVersion))) := by
      simp only [EventLog.append,← he,Option.map_some,ErasedStreamRow.record]
    rw [hs,hl]
    exact ⟨h,rfl⟩
  | none =>
    rw [hf] at he
    by_cases hv : l.version streamName = expectedVersion
    · subst hv
      obtain ⟨rows,hi,hrows⟩ := insertEvents_eq hj streamName (l.version streamName) events db hs
        h.position_le (fun r hr hn => hn ▸ h.version_le r hr)
      have hs : db.append jsonb streamName (l.version streamName) events = ({db with
            events := db.events ++ rows
            sequence := db.sequence + events.length},
          .ok (if events = [] then ⟨l.version streamName,l.version streamName⟩
            else ⟨l.version streamName + 1,l.version streamName + events.length⟩)) := by
        simp only [Database.append,appendBody,if_pos hname,hf,h.currentVersion,ne_eq,not_true_eq_false,if_false,hi,
          withTransaction]
      by_cases hn : events = []
      · have hl : l.append streamName (l.version streamName) events =
            (l,.ok ⟨l.version streamName,l.version streamName⟩) := by
          simp only [EventLog.append,← he,Option.map_none,ne_eq,not_true_eq_false,if_false,if_pos hn]
        subst hn
        obtain rfl : rows = [] := List.forall₂_nil_right_iff.mp hrows
        rw [hs,hl,if_pos rfl]
        refine ⟨⟨?_,?_,h.erased,h.sessions,h.batches,h.wellFormed⟩,rfl⟩
        · simpa using h.events
        · simpa using h.sequence
      · have hl : l.append streamName (l.version streamName) events =
            (l.extend (stampFrom streamName l.log.length (l.version streamName) events),
              .ok ⟨l.version streamName + 1,l.version streamName + events.length⟩) := by
          simp only [EventLog.append,← he,Option.map_none,ne_eq,not_true_eq_false,if_false,if_neg hn]
        have hw := h.wellFormed.append streamName (l.version streamName) events
        rw [hl] at hw
        rw [hs,hl,if_neg hn]
        refine ⟨⟨?_,?_,h.erased,h.sessions,h.batches,hw⟩,rfl⟩
        · exact List.rel_append h.events (h.sequence ▸ hrows)
        · simp only [h.sequence,EventLog.extend,List.length_append,stampFrom_length]
          push_cast
          rfl
    · have hs : db.append jsonb streamName expectedVersion events = (db,.error (.concurrencyConflict
          (conflict streamName expectedVersion (l.version streamName)))) := by
        simp only [Database.append,appendBody,if_pos hname,hf,h.currentVersion,ne_eq,hv,not_false_eq_true,if_true,
          withTransaction]
      have hl : l.append streamName expectedVersion events = (l,.error (.concurrencyConflict
          (conflict streamName expectedVersion (l.version streamName)))) := by
        simp only [EventLog.append,← he,Option.map_none,ne_eq,hv,not_false_eq_true,if_true]
      rw [hs,hl]
      exact ⟨h,rfl⟩

/-- The store reads the events of the log up to member order. -/
def Reads (read : Except StoreFailure (List StoredEvent)) (events : List StoredEvent) : Prop :=
  ∃ events', read = .ok events' ∧ events'.map StoredEvent.canonical = events.map StoredEvent.canonical

theorem Represents.read (h : db.Represents l) {streamName : String} {fromVersion : Option ℤ}
    (htakes : TakesRead streamName fromVersion) :
    Reads (db.read streamName fromVersion) (readOf (l.stream streamName) fromVersion) := by
  have hfilter : (db.events.filter fun r => r.streamName = streamName ∧ r.version ≥ fromVersion.getD 1) =
      (db.events.filter fun r => r.streamName = streamName).filter fun r =>
        fromVersion.getD 1 ≤ r.version := by
    rw [List.filter_filter]
    refine List.filter_congr fun r _ => ?_
    rw [Bool.decide_and]
    exact Bool.and_comm _ _
  rw [Database.read,if_pos htakes,hfilter,orderBy_filter (h.versions streamName)]
  refine decodeEvents_of_holds (List.rel_filter ?_ (h.streamRows streamName))
  intro r e hr
  simp only [decide_eq_true_eq,hr.version]

theorem partitionFilter_of_holds {r : EventRow} {e : StoredEvent} (h : Holds r e)
    (partitions : Option (List String)) : partitionFilter partitions r = inPartitions partitions e := by
  match partitions with
  | none => rfl
  | some [] => simp [partitionFilter,inPartitions]
  | some (p :: ps) => simp only [partitionFilter,inPartitions,h.partition]

theorem Represents.readAll (h : db.Represents l) {options : ReadAllOptions} (htakes : TakesReadAll options) :
    Reads (db.readAll options) (readAllOf l.log options) := by
  have hrows : List.Forall₂ Holds
      (db.events.filter fun r => r.position ≥ options.fromPosition.getD 1 &&
        partitionFilter (readAllPartitions options.partition) r)
      (l.log.filter fun e => options.fromPosition.getD 1 ≤ e.position ∧
        inPartitions (readAllPartitions options.partition) e) := by
    refine List.rel_filter ?_ h.events
    intro r e hr
    simp only [partitionFilter_of_holds hr,hr.position,Bool.and_eq_true,decide_eq_true_eq,ge_iff_le]
  simp only [Database.readAll,if_pos htakes,orderBy_filter h.positions,readAllOf]
  cases options.batchSize with
  | none => exact decodeEvents_of_holds hrows
  | some batchSize => exact decodeEvents_of_holds (List.forall₂_take batchSize hrows)

theorem insertImported_eq (hj : JsonbPreserves jsonb) (events : List StoredEvent) (db : Database)
    (position : ℤ) (version : String → ℤ) (hs : ∀ e ∈ events, Storable e.toAppend)
    (hp : ∀ r ∈ db.events, r.position ≤ position)
    (hv : ∀ r ∈ db.events, r.version ≤ version r.streamName)
    (hep : NumberedFrom StoredEvent.position position events)
    (hev : ∀ streamName,
      NumberedFrom StoredEvent.version (version streamName) (streamOf events streamName)) :
    ∃ rows, db.insertImported jsonb events = ({db with events := db.events ++ rows},.ok ()) ∧
      List.Forall₂ Holds rows events := by
  induction events generalizing db position version with
  | nil => exact ⟨[],by simp [insertImported],List.Forall₂.nil⟩
  | cons e es ih =>
    obtain ⟨hpos,hep'⟩ := hep
    have hself := hev e.streamName
    rw [streamOf,List.filter_cons_of_pos (by simp)] at hself
    obtain ⟨hver,hev'⟩ := hself
    have hfree : ∀ r ∈ db.events, r.position ≠ e.position ∧
        ¬ (r.streamName = e.streamName ∧ r.version = e.version) := by
      intro r hr
      have hrp := hp r hr
      refine ⟨by omega,?_⟩
      rintro ⟨hn,hrv⟩
      have := hv r hr
      rw [hn] at this
      omega
    obtain ⟨r,hr,hh⟩ := insertRow_eq hj db (hs e List.mem_cons_self) hfree
    have hp' : ∀ r' ∈ db.events ++ [r], r'.position ≤ position + 1 := by
      intro r' hr'
      rcases List.mem_append.mp hr' with hr' | hr'
      · exact (hp r' hr').trans (Int.le_add_one le_rfl)
      · rw [List.mem_singleton.mp hr',← hpos]
        exact hh.position.le
    have hv' : ∀ r' ∈ db.events ++ [r],
        r'.version ≤ Function.update version e.streamName (version e.streamName + 1) r'.streamName := by
      intro r' hr'
      rcases List.mem_append.mp hr' with hr' | hr'
      · have := hv r' hr'
        by_cases hn : r'.streamName = e.streamName
        · rw [hn,Function.update_self]
          rw [hn] at this
          omega
        · rwa [Function.update_of_ne hn]
      · have hn : r.streamName = e.streamName := hh.streamName
        rw [List.mem_singleton.mp hr',hn,Function.update_self,← hver]
        exact hh.version.le
    obtain ⟨rows,hrows,hforall⟩ := ih {db with events := db.events ++ [r]} (position + 1)
      (Function.update version e.streamName (version e.streamName + 1))
      (fun e' he' => hs e' (List.mem_cons_of_mem e he')) hp' hv' hep' (by
        intro streamName
        by_cases hn : streamName = e.streamName
        · rw [hn,Function.update_self]
          exact hev'
        · have := hev streamName
          rw [streamOf,List.filter_cons_of_neg (by simpa using Ne.symm hn)] at this
          rwa [Function.update_of_ne hn])
    refine ⟨r :: rows,?_,List.Forall₂.cons hh hforall⟩
    have htype : IsText e.type := (hs e List.mem_cons_self).type
    simp only [insertImported,if_pos htype,hr,hrows,List.append_assoc,List.singleton_append]

theorem lookup_streamVersions (version : String → Option ℤ) (names : List String) (m : JsMap ℤ)
    (streamName : String) :
    (names.foldl (fun versions name => match version name with
        | some v => versions.insert name v
        | none => versions) m).lookup streamName =
      if streamName ∈ names then (version streamName).or (m.lookup streamName)
      else m.lookup streamName := by
  induction names generalizing m with
  | nil => simp
  | cons name names ih =>
    rw [List.foldl_cons,ih]
    by_cases hn : streamName = name
    · subst hn
      cases version streamName with
      | none => simp
      | some v => simp [AList.lookup_insert]
    · have hm : (match version name with
          | some v => m.insert name v
          | none => m).lookup streamName = m.lookup streamName := by
        cases version name with
        | none => rfl
        | some v => exact AList.lookup_insert_ne hn
      simp only [hm,List.mem_cons,hn,false_or]

theorem Represents.lastPosition (h : db.Represents l) :
    (maxOf EventRow.position db.events).getD 0 = l.log.length := by
  rw [maxOf_numbered h.positions,h.events.length_eq,zero_add]

theorem exists_eventId {rows : List EventRow} {events : List StoredEvent}
    (h : List.Forall₂ Holds rows events) (id : String) :
    (∃ r ∈ rows, arrowText r.metadata "eventId" = some id) ↔
      ∃ e ∈ events, e.metadata.eventId = id := by
  induction h with
  | nil => simp
  | cons hr _ ih => simp [hr.eventId,ih]

theorem Represents.importTarget (h : db.Represents l) {batch : HistoryImportBatch}
    {eventIds : List String} (hids : ∀ e ∈ batch.events, e.metadata.eventId ∈ eventIds) :
    (db.importTarget batch eventIds).AgreeOn batch.events (historyImportTarget l.log) where
  lastPosition := by
    have hl := h.wellFormed.positions.last
    rw [Database.importTarget,historyImportTarget,h.lastPosition,hl,zero_add]
  streamVersions e he := by
    have hm : e.streamName ∈ (batch.events.map (·.streamName)).dedup :=
      List.mem_dedup.mpr (List.mem_map_of_mem he)
    have hl := (h.wellFormed.versions e.streamName).last
    have hr := maxOf_numbered (h.versions e.streamName)
    rw [historyImportTarget,historyImportTarget_lookup,AList.lookup_empty,Option.getD_none]
    have hrow : (db.importTarget batch eventIds).streamVersions.lookup e.streamName =
        maxOf EventRow.version (db.events.filter fun r => r.streamName = e.streamName) := by
      refine (lookup_streamVersions (fun streamName => maxOf EventRow.version
        (db.events.filter fun r => r.streamName = streamName)) _ ∅ e.streamName).trans ?_
      rw [if_pos hm,AList.lookup_empty,Option.or_none]
    rw [hrow,hr,(h.streamRows e.streamName).length_eq]
    exact hl.symm
  eventIds e he := by
    simp only [Database.importTarget,historyImportTarget,List.mem_filter,List.mem_filterMap,
      exists_eventId h.events,List.mem_map,hids e he,decide_true,and_true]

theorem Represents.sessionCheck (h : db.Represents l) (batch : HistoryImportBatch)
    (eventIds : List String) :
    db.sessionCheck batch (db.importTarget batch eventIds) = l.resumes batch := by
  have hs := h.sessions batch.importId
  have hpos : (l.log.length : ℤ) > 0 ↔ l.log ≠ [] := by
    rw [gt_iff_lt,Int.natCast_pos,List.length_pos_iff]
  unfold Database.sessionCheck EventLog.resumes
  cases hf : db.historyImports.find? fun r => r.importId = batch.importId with
  | none =>
    rw [hf] at hs
    simp only [Database.importTarget,h.lastPosition,← hs,Option.map_none,hpos]
  | some session =>
    rw [hf] at hs
    simp only [Database.importTarget,h.lastPosition,← hs,Option.map_some,HistoryImportRow.session]

theorem Represents.erasedStreams_length (h : db.Represents l) :
    db.erasedStreams.length > 0 ↔ ∃ streamName, l.erased streamName ≠ none := by
  rw [gt_iff_lt,List.length_pos_iff]
  constructor
  · intro hne
    obtain ⟨r,rs,hr⟩ := List.exists_cons_of_ne_nil hne
    refine ⟨r.streamName,?_⟩
    rw [← h.erased,hr,List.find?_cons_of_pos (by simp)]
    exact Option.some_ne_none _
  · rintro ⟨streamName,hn⟩ hnil
    rw [← h.erased,hnil] at hn
    exact hn rfl

theorem Represents.realign (h : db.Represents l) : db.realign = db := by
  have hp := h.positions
  have hs : (maxOf EventRow.position db.events).getD db.sequence = db.sequence := by
    cases hr : db.events with
    | nil => rfl
    | cons r rs =>
      have hm : maxOf EventRow.position db.events = some (db.events.length : ℤ) := by
        have := maxOf_numbered hp
        rw [zero_add,hr] at this
        rw [hr]
        exact congrArg some this
      rw [← hr,hm,Option.getD_some,h.sequence,h.events.length_eq]
  rw [Database.realign,hs]

/-- The tables after a committed batch, the sequence realigned, represent the log after it. -/
theorem Represents.commit (h : db.Represents l) {batch : HistoryImportBatch} {lastPosition : ℤ}
    {rows : List EventRow} (hrows : List.Forall₂ Holds rows batch.events) (hne : batch.events ≠ [])
    (hw : (l.commit p batch lastPosition).1.WellFormed)
    (hb : db.historyImportBatches.find? (fun r => r.importId = batch.importId ∧
      r.batchId = batch.batchId) = none) :
    Database.Represents (Database.realign {db with
      events := db.events ++ rows
      historyImports := upsert HistoryImportRow.importId ⟨batch.importId,
        historyImportResumeToken p batch lastPosition,lastPosition,batch.complete.getD false⟩
        db.historyImports
      historyImportBatches := db.historyImportBatches ++ [⟨batch.importId,batch.batchId,
        batch.resumeToken,batch.checksum,batch.complete.getD false,batch.events.length,lastPosition,
        historyImportResumeToken p batch lastPosition⟩]}) (l.commit p batch lastPosition).1 := by
  have hall : List.Forall₂ Holds (db.events ++ rows) (l.log ++ batch.events) :=
    List.rel_append h.events hrows
  refine ⟨hall,?_,h.erased,?_,?_,hw⟩
  · have hn := maxOf_numbered (numberedFrom_of_forall₂ (fun _ _ hr => hr.position) hall hw.positions)
    rw [hall.length_eq,zero_add] at hn
    cases hm : maxOf EventRow.position (db.events ++ rows) with
    | none =>
      rw [hm,Option.getD_none] at hn
      have : 0 < (l.log ++ batch.events).length := by
        rw [List.length_append]
        have := List.length_pos_of_ne_nil hne
        omega
      omega
    | some m =>
      rw [hm,Option.getD_some] at hn
      simp only [Database.realign,hm,Option.getD_some,hn]
      rfl
  · intro importId
    simp only [Database.realign,EventLog.commit,find?_upsert]
    by_cases hn : importId = batch.importId
    · rw [if_pos hn,hn,Function.update_self]
      rfl
    · rw [if_neg hn,Function.update_of_ne hn]
      exact h.sessions importId
  · intro importId batchId
    simp only [Database.realign,EventLog.commit,List.find?_append,List.find?_singleton]
    by_cases hn : importId = batch.importId
    · subst hn
      by_cases hn' : batchId = batch.batchId
      · subst hn'
        rw [hb,Function.update_self,Function.update_self]
        simp [HistoryImportBatchRow.record]
      · rw [Function.update_self,Function.update_of_ne hn',← h.batches]
        simp [Ne.symm hn']
    · rw [Function.update_of_ne hn,← h.batches]
      simp [Ne.symm hn]

theorem Represents.importBatch (hj : JsonbPreserves jsonb) (h : db.Represents l)
    {batch : HistoryImportBatch} (decoder : HistoryEventDecoder) (himport : IsText batch.importId ∧ IsText batch.batchId)
    (hs : ∀ e ∈ batch.events, Storable e.toAppend) (hlookups : TakesLookups batch) :
    (db.importBatch jsonb p batch decoder).1.Represents (l.importBatch p batch decoder).1 ∧
      (db.importBatch jsonb p batch decoder).2 = (l.importBatch p batch decoder).2 := by
  have hwf := h.wellFormed.importBatch (p := p) batch decoder
  cases hp : prepareHistoryImportBatch p batch decoder with
  | error e =>
    have hd : db.importBatch jsonb p batch decoder = (db,.error e) := by
      simp only [Database.importBatch,hp]
    have hl : l.importBatch p batch decoder = (l,.error e) := by
      simp only [EventLog.importBatch,hp]
    rw [hd,hl]
    exact ⟨h,rfl⟩
  | ok eventIds =>
    have hids := prepareHistoryImportBatch_ids hp
    cases hlast : batch.events.getLast? with
    | none =>
      have hd : db.importBatch jsonb p batch decoder =
          (db,.error (.defect "validated batch has no events")) := by
        simp only [Database.importBatch,hp,hlast]
      have hl : l.importBatch p batch decoder =
          (l,.error (.defect "validated batch has no events")) := by
        simp only [EventLog.importBatch,hp,hlast]
      rw [hd,hl]
      exact ⟨h,rfl⟩
    | some lastEvent =>
      -- what the body answers with a refusal, the import answers with it
      have hrefuse : ∀ e, importBody jsonb batch eventIds lastEvent.position
            (historyImportResumeToken p batch lastEvent.position) db = (db,.error (.store e)) →
          l.importBatch p batch decoder = (l,.error e) →
          (db.importBatch jsonb p batch decoder).1.Represents (l.importBatch p batch decoder).1 ∧
            (db.importBatch jsonb p batch decoder).2 = (l.importBatch p batch decoder).2 := by
        intro e hbody hl
        have hd : db.importBatch jsonb p batch decoder = (db,.error e) := by
          simp only [Database.importBatch,hp,hlast,withTransaction,hbody]
        rw [hd,hl]
        exact ⟨h,rfl⟩
      by_cases hpin : ∃ streamName, l.erased streamName ≠ none
      · refine hrefuse (historyImportConflict .targetNotEmpty
          "a target with erased streams cannot be imported into") ?_ ?_
        · simp only [importBody,if_pos (h.erasedStreams_length.mpr hpin)]
        · simp only [EventLog.importBatch,hp,hlast,if_pos hpin]
      have hpin' : ¬ db.erasedStreams.length > 0 := fun hc => hpin (h.erasedStreams_length.mp hc)
      have hsends : ¬(IsText batch.importId ∧ IsText batch.batchId) ↔ False := iff_false_intro (not_not.mpr himport)
      have hfound : ¬TakesLookups batch ↔ False := iff_false_intro (not_not.mpr hlookups)
      have hb := h.batches batch.importId batch.batchId
      cases hf : db.historyImportBatches.find? fun r =>
        r.importId = batch.importId ∧ r.batchId = batch.batchId with
      | some recorded =>
        rw [hf] at hb
        have hl : l.importBatch p batch decoder = (l,EventLog.retried recorded.record batch) := by
          simp only [EventLog.importBatch,hp,hlast,if_neg hpin,← hb,Option.map_some]
        by_cases hdiv : recorded.checksum ≠ batch.checksum ∨ recorded.previousToken ≠ batch.resumeToken ∨
            recorded.complete ≠ batch.complete.getD false
        · refine hrefuse (historyImportConflict .divergentBatch ("batch " ++ batch.batchId ++
            " was already committed with different content or state")) ?_ ?_
          · simp only [importBody,if_neg hpin',hsends,if_false,hf,if_pos hdiv]
          · rw [hl]
            exact congrArg (Prod.mk l) (if_pos hdiv)
        · have hd : db.importBatch jsonb p batch decoder = (db.realign,.ok ⟨.unchanged,
              recorded.importedCount,recorded.lastPosition,recorded.resultToken,recorded.complete⟩) := by
            simp only [Database.importBatch,hp,hlast,withTransaction,importBody,if_neg hpin',hsends,if_false,hf,
              if_neg hdiv]
          rw [hd,hl,h.realign]
          exact ⟨h,(if_neg hdiv).symm⟩
      | none =>
        rw [hf] at hb
        have hsession := h.sessionCheck batch eventIds
        have hval := (h.importTarget hids).validate
        cases hr : l.resumes batch with
        | error e =>
          refine hrefuse e ?_ ?_
          · simp only [importBody,if_neg hpin',hsends,if_false,hf,hfound,if_false,hsession,hr]
          · simp only [EventLog.importBatch,hp,hlast,if_neg hpin,← hb,Option.map_none,hr]
        | ok _ =>
          cases hv : validateHistoryImportContinuation batch.events (historyImportTarget l.log) with
          | error e =>
            refine hrefuse e ?_ ?_
            · simp only [importBody,if_neg hpin',hsends,if_false,hf,hfound,if_false,hsession,hr,hval,hv]
            · simp only [EventLog.importBatch,hp,hlast,if_neg hpin,← hb,Option.map_none,hr,hv]
          | ok _ =>
            have hl : l.importBatch p batch decoder = ((l.commit p batch lastEvent.position).1,
                .ok (l.commit p batch lastEvent.position).2) := by
              simp only [EventLog.importBatch,hp,hlast,if_neg hpin,← hb,Option.map_none,hr,hv]
            obtain ⟨hep,hev⟩ := h.wellFormed.continuation hv
            obtain ⟨rows,hi,hrows⟩ := insertImported_eq hj batch.events db l.log.length l.version hs
              (h.sequence ▸ h.position_le) h.version_le hep hev
            have hne : batch.events ≠ [] := by
              rintro hnil
              rw [hnil] at hlast
              cases hlast
            have hd : db.importBatch jsonb p batch decoder = (Database.realign {db with
                  events := db.events ++ rows
                  historyImports := upsert HistoryImportRow.importId ⟨batch.importId,
                    historyImportResumeToken p batch lastEvent.position,lastEvent.position,
                    batch.complete.getD false⟩ db.historyImports
                  historyImportBatches := db.historyImportBatches ++ [⟨batch.importId,batch.batchId,
                    batch.resumeToken,batch.checksum,batch.complete.getD false,batch.events.length,
                    lastEvent.position,historyImportResumeToken p batch lastEvent.position⟩]},
                .ok (l.commit p batch lastEvent.position).2) := by
              simp only [Database.importBatch,hp,hlast,withTransaction,importBody,if_neg hpin',hsends,if_false,hf,hfound,
                hsession,hr,hval,hv,hi]
              rfl
            rw [hl] at hwf
            rw [hd,hl]
            exact ⟨h.commit hrows hne hwf hf,rfl⟩

theorem not_mem_conflictIdentity {streamName : String} {c : Char} (h : c ∉ streamName.toList) :
    c ∉ (conflictIdentity streamName).1.toList ∧ c ∉ (conflictIdentity streamName).2.toList := by
  simp only [conflictIdentity]
  split
  · rw [String.toList_ofList,String.toList_ofList]
    constructor
    · exact fun hc => h (List.takeWhile_subset _ hc)
    · exact fun hc => h (List.dropWhile_subset _ (List.mem_of_mem_drop hc))
  · exact ⟨h,h⟩

theorem isText_numberText (z : ℤ) : IsText (numberText z) := by
  unfold IsText
  rw [numberText,String.toList_ofList]
  intro hc
  rcases Decimal.isNumberChar_text _ _ hc with hc | hc
  · exact absurd hc (by decide)
  · exact absurd hc (by decide)

theorem storable_erasedTombstone {streamName erasedAt : String} (hs : IsText streamName)
    (ht : IsText erasedAt) (version : ℤ) :
    Storable (erasedTombstone streamName version erasedAt) := by
  have htag : IsText erasedEventType := by decide
  obtain ⟨hn,hi⟩ := not_mem_conflictIdentity hs
  have hv := isText_numberText version
  unfold IsText at hs ht htag hv
  have hpayload : (erasedTombstone streamName version erasedAt).payload =
      .obj [("_tag",.str erasedEventType)] := rfl
  have hmetadata : (erasedTombstone streamName version erasedAt).metadata.toJson =
      .obj [("eventId",.str ("erased:" ++ streamName ++ ":" ++ numberText version)),
        ("occurredAt",.str erasedAt),("aggregateName",.str (conflictIdentity streamName).1),
        ("aggregateId",.str (conflictIdentity streamName).2),
        ("aggregateVersion",.num (Decimal.ofInt version))] := rfl
  constructor
  · exact htag
  · rw [hpayload]
    simp [Json.WellFormed,Json.WellFormedMembers,Json.NulFree,Json.NulFreeMembers,htag]
  · rw [hmetadata]
    simp [Json.WellFormed,Json.WellFormedMembers,Json.NulFree,Json.NulFreeMembers,hs,hv,ht,hn,hi]
  · constructor
    · exact (by decide : -maxPgInteger - 1 ≤ 1)
    · exact (by decide : 1 ≤ maxPgInteger)

/-- The loop writes the tombstones of the versions 1 to `n`. -/
theorem updateTombstones_eq (hj : JsonbPreserves jsonb) {log : List StoredEvent}
    (h : List.Forall₂ Holds db.events log) {streamName erasedAt : String} (hs : IsText streamName)
    (ht : IsText erasedAt) (n : ℕ) :
    ∃ rows, updateTombstones jsonb streamName erasedAt n db = .ok {db with events := rows} ∧
      List.Forall₂ Holds rows (log.map (EventLog.eraseUpTo streamName erasedAt n)) := by
  induction n with
  | zero =>
    have hid : log.map (EventLog.eraseUpTo streamName erasedAt 0) = log :=
      (List.map_congr_left fun e _ => EventLog.eraseUpTo_zero streamName erasedAt e).trans
        (List.map_id log)
    refine ⟨db.events,rfl,?_⟩
    rw [hid]
    exact h
  | succ n ih =>
    obtain ⟨rows,hrows,hh⟩ := ih
    have ht := storable_erasedTombstone hs ht (n + 1)
    obtain ⟨payload,v,hp,hv,-,hvc⟩ := hj _ ht.payload.1 ht.payload.2
    obtain ⟨metadata,w,hm,hw,hww,hwc⟩ := hj _ ht.metadata.1 ht.metadata.2
    refine ⟨updateWhere (fun r => r.streamName = streamName ∧ r.version = n + 1)
      (setTombstone (erasedTombstone streamName (n + 1) erasedAt) payload metadata) rows,?_,?_⟩
    · simp only [updateTombstones,hrows,updateTombstone,jsonText,hp,hm]
    · have hmap : log.map (EventLog.eraseUpTo streamName erasedAt (n + 1)) =
          (log.map (EventLog.eraseUpTo streamName erasedAt n)).map fun e =>
            if e.streamName = streamName ∧ e.version = (n : ℤ) + 1 then e.erase erasedAt else e := by
        rw [List.map_map]
        refine List.map_congr_left fun e _ => ?_
        rw [Function.comp_apply,← EventLog.eraseUpTo_succ]
        simp only [EventLog.eraseUpTo_streamName,EventLog.eraseUpTo_version]
      rw [hmap]
      refine List.rel_map ?_ hh
      intro r e hr
      simp only [hr.streamName,hr.version,decide_eq_true_eq]
      split
      next hc =>
        obtain ⟨rfl,hver⟩ := hc
        have herase : e.erase erasedAt = (erasedTombstone e.streamName (n + 1) erasedAt).stored
            r.position r.streamName r.version := by
          rw [hr.position,hr.streamName,hr.version,StoredEvent.erase,hver]
        rw [herase]
        exact holds_of_jsonb ht hv hvc hw hww hwc r.position r.streamName r.version
      next => exact hr

theorem Represents.eraseStream (hj : JsonbPreserves jsonb) (h : db.Represents l)
    (request : StreamErasureRequest) (erasedAt : String) (hs : IsText request.streamName)
    (ht : IsText erasedAt) (hreason : IsText request.reason) :
    (db.eraseStream jsonb request erasedAt).1.Represents (l.eraseStream request erasedAt).1 ∧
      (db.eraseStream jsonb request erasedAt).2 = (l.eraseStream request erasedAt).2 := by
  have he := h.erased request.streamName
  cases hp : prepareStreamErasure request with
  | error e =>
    have hd : db.eraseStream jsonb request erasedAt = (db,.error (.streamErasure e)) := by
      simp only [Database.eraseStream,hp]
    have hl : l.eraseStream request erasedAt = (l,.error (.streamErasure e)) := by
      simp only [EventLog.eraseStream,hp]
    rw [hd,hl]
    exact ⟨h,rfl⟩
  | ok _ =>
    cases hf : db.erasedStreams.find? fun r => r.streamName = request.streamName with
    | some recorded =>
      rw [hf] at he
      by_cases hv : request.expectedVersion = recorded.lastVersion
      · have hd : db.eraseStream jsonb request erasedAt =
            (db,.ok ⟨0,recorded.lastVersion,recorded.erasedAt,recorded.reason⟩) := by
          simp only [Database.eraseStream,hp,eraseBody,if_pos hs,hf,ne_eq,hv,not_true_eq_false,if_false,
            withTransaction]
        have hl : l.eraseStream request erasedAt =
            (l,.ok ⟨0,recorded.lastVersion,recorded.erasedAt,recorded.reason⟩) := by
          simp only [EventLog.eraseStream,hp,← he,Option.map_some,ErasedStreamRow.record,ne_eq,hv,
            not_true_eq_false,if_false]
        rw [hd,hl]
        exact ⟨h,rfl⟩
      · have hd : db.eraseStream jsonb request erasedAt = (db,.error (.streamErasure
            (streamErasureConflict request.streamName request.expectedVersion recorded.lastVersion))) := by
          simp only [Database.eraseStream,hp,eraseBody,if_pos hs,hf,ne_eq,hv,not_false_eq_true,if_true,
            withTransaction]
        have hl : l.eraseStream request erasedAt = (l,.error (.streamErasure
            (streamErasureConflict request.streamName request.expectedVersion recorded.lastVersion))) := by
          simp only [EventLog.eraseStream,hp,← he,Option.map_some,ErasedStreamRow.record,ne_eq,hv,
            not_false_eq_true,if_true]
        rw [hd,hl]
        exact ⟨h,rfl⟩
    | none =>
      rw [hf] at he
      by_cases hv : l.version request.streamName = request.expectedVersion
      · have hl : l.eraseStream request erasedAt = (l.pin request.streamName erasedAt request.reason,
            .ok ⟨l.version request.streamName,l.version request.streamName,erasedAt,request.reason⟩) := by
          simp only [EventLog.eraseStream,hp,← he,Option.map_none,ne_eq,hv,not_true_eq_false,if_false]
        have hw := h.wellFormed.pin request.streamName erasedAt request.reason
        obtain ⟨rows,hu,hrows⟩ := updateTombstones_eq hj h.events hs ht request.expectedVersion.toNat
        have hd : db.eraseStream jsonb request erasedAt = ({db with
              events := rows
              snapshots := deleteWhere (fun r => r.streamName = request.streamName) db.snapshots
              erasedStreams := db.erasedStreams ++
                [⟨request.streamName,request.expectedVersion,erasedAt,request.reason⟩]},
            .ok ⟨request.expectedVersion,request.expectedVersion,erasedAt,request.reason⟩) := by
          simp only [Database.eraseStream,hp,eraseBody,if_pos hs,hf,h.currentVersion,ne_eq,hv,not_true_eq_false,
            if_false,hu,if_pos (And.intro ht hreason),withTransaction]
        rw [← hv,h.wellFormed.map_eraseUpTo] at hrows
        rw [hd,hl,hv]
        refine ⟨⟨hrows,?_,?_,h.sessions,h.batches,hw⟩,rfl⟩
        · simpa [EventLog.pin] using h.sequence
        · intro other
          simp only [List.find?_append,EventLog.pin]
          by_cases hn : other = request.streamName
          · subst hn
            simp [hf,ErasedStreamRow.record,hv]
          · rw [Function.update_of_ne hn,← h.erased other]
            simp [Ne.symm hn]
      · have hd : db.eraseStream jsonb request erasedAt = (db,.error (.streamErasure
            (streamErasureConflict request.streamName request.expectedVersion
              (l.version request.streamName)))) := by
          simp only [Database.eraseStream,hp,eraseBody,if_pos hs,hf,h.currentVersion,ne_eq,hv,not_false_eq_true,
            if_true,withTransaction]
        have hl : l.eraseStream request erasedAt = (l,.error (.streamErasure
            (streamErasureConflict request.streamName request.expectedVersion
              (l.version request.streamName)))) := by
          simp only [EventLog.eraseStream,hp,← he,Option.map_none,ne_eq,hv,not_false_eq_true,if_true]
        rw [hd,hl]
        exact ⟨h,rfl⟩

theorem Reads.canonical {read : Except StoreFailure (List StoredEvent)} {events : List StoredEvent}
    (h : Reads read events) :
    (StoreAnswer.events read).canonical = (StoreAnswer.events (.ok events)).canonical := by
  obtain ⟨events',rfl,he⟩ := h
  simp only [StoreAnswer.canonical,he]

end Database

/-- Calls within what the columns and the driver accept. -/
def Admissible : HistoryCall → Prop
  | .store (.append streamName _ events) => IsText streamName ∧ ∀ e ∈ events, Storable e
  | .store (.eraseStream request erasedAt) =>
    IsText request.streamName ∧ IsText erasedAt ∧ IsText request.reason
  | .store (.read streamName fromVersion) => Database.TakesRead streamName fromVersion
  | .store (.readAll options) => Database.TakesReadAll options
  | .importBatch batch _ => (IsText batch.importId ∧ IsText batch.batchId) ∧
    (∀ e ∈ batch.events, IsText e.streamName ∧ Storable e.toAppend) ∧ batch.events.length ≤ maxParameters

theorem Storable.eventId {event : AppendEvent} (h : Storable event) : IsText event.metadata.eventId := by
  have hfree := h.metadata.2
  simp only [StoredEventMetadata.toJson,StoredEventMetadata.fields,Json.ofFields,List.filterMap_cons,Option.map_some,
    Json.NulFree,Json.NulFreeMembers] at hfree
  exact hfree.2.1

theorem Database.Represents.apply {jsonb : String → Option String} {p : ImportPrimitives}
    {db : Database} {l : EventLog} (hj : JsonbPreserves jsonb) (h : db.Represents l)
    {call : HistoryCall} (hc : Admissible call) :
    (db.apply jsonb p call).1.Represents (l.applyHistory p call).1 ∧
      (db.apply jsonb p call).2.canonical = (l.applyHistory p call).2.canonical := by
  cases call with
  | importBatch batch decoder =>
    obtain ⟨himport,hs,hlength⟩ := hc
    have hlookups : Database.TakesLookups batch := ⟨fun e he => ⟨(hs e he).1,(hs e he).2.eventId⟩,hlength⟩
    obtain ⟨hr,ha⟩ := h.importBatch (p := p) hj decoder himport (fun e he => (hs e he).2) hlookups
    exact ⟨hr,congrArg (fun a => StoreAnswer.canonical (.imported a)) ha⟩
  | store call =>
    cases call with
    | append streamName expectedVersion events =>
      obtain ⟨hr,ha⟩ := h.append hj hc.1 expectedVersion hc.2
      exact ⟨hr,congrArg (fun a => StoreAnswer.canonical (.appended a)) ha⟩
    | eraseStream request erasedAt =>
      obtain ⟨hs,ht,hreason⟩ := hc
      obtain ⟨hr,ha⟩ := h.eraseStream hj request erasedAt hs ht hreason
      exact ⟨hr,congrArg (fun a => StoreAnswer.canonical (.erased a)) ha⟩
    | read streamName fromVersion => exact ⟨h,(h.read hc).canonical⟩
    | readAll options => exact ⟨h,(h.readAll hc).canonical⟩

/-- Started empty, the in-memory and the PostgreSQL store give the same answers to every sequence of
admissible calls, up to the order of object members in the events they read. -/
theorem memory_postgres_agree {jsonb : String → Option String} (hj : JsonbPreserves jsonb)
    (p : ImportPrimitives) (calls : List HistoryCall) (hc : ∀ call ∈ calls, Admissible call) :
    List.Forall₂ (fun a b => a.canonical = b.canonical) ((inMemoryEventStore p).outputs calls)
      ((eventStore jsonb p).outputs calls) := by
  refine Machine.outputs_related (R := fun s db => s.Consistent ∧ db.Represents s.log)
    ⟨EventStoreState.consistent_empty,Database.represents_empty⟩ ?_ calls hc
  rintro s db call ⟨hs,hr⟩ hcall
  obtain ⟨hs',hl,ha⟩ := hs.apply (p := p) call
  obtain ⟨hr',ha'⟩ := hr.apply (p := p) hj hcall
  exact ⟨⟨hs',hl ▸ hr'⟩,(congrArg StoreAnswer.canonical ha).trans ha'.symm⟩

def orderMetadata : StoredEventMetadata where
  eventId := "e1"
  occurredAt := "2024-01-01T00:00:00.000Z"
  aggregateName := "order"
  aggregateId := "1"
  aggregateVersion := Decimal.ofInt 1

/-- A `jsonb` for it: members by the length of their names, and spaces. -/
def orderJsonb (text : String) : Option String :=
  if text = Json.stringify orderMetadata.toJson then
    some ("\x7b\"eventId\": \"e1\", \"occurredAt\": \"2024-01-01T00:00:00.000Z\", \"aggregateId\": \"1\", " ++
      "\"aggregateName\": \"order\", \"aggregateVersion\": 1\x7d")
  else (Json.parse text).map Json.stringify

theorem jsonbPreserves_orderJsonb : JsonbPreserves orderJsonb := by
  intro v hv _
  by_cases hm : Json.stringify v = Json.stringify orderMetadata.toJson
  · obtain rfl := Json.stringify_injective hm
    refine ⟨_,.obj [("eventId",.str "e1"),("occurredAt",.str "2024-01-01T00:00:00.000Z"),
      ("aggregateId",.str "1"),("aggregateName",.str "order"),
      ("aggregateVersion",.num (Decimal.ofInt 1))],if_pos rfl,by decide +kernel,?_,by decide +kernel⟩
    simp [Json.WellFormed,Json.WellFormedMembers]
  · refine ⟨Json.stringify v,v,?_,Json.parse_stringify v,hv,rfl⟩
    rw [orderJsonb,if_neg hm,Json.parse_stringify,Option.map_some]

theorem memory_postgres_agree_order :
    List.Forall₂ (fun a b => a.canonical = b.canonical)
      ((inMemoryEventStore ⟨id,fun _ => true⟩).outputs
        [.store (.append "order-1" 0 [⟨"Placed",1,.str "new",orderMetadata⟩]),
          .store (.read "order-1" none)])
      ((eventStore orderJsonb ⟨id,fun _ => true⟩).outputs
        [.store (.append "order-1" 0 [⟨"Placed",1,.str "new",orderMetadata⟩]),
          .store (.read "order-1" none)]) := by
  have hname : IsText "order-1" := by decide
  have hmetadata : orderMetadata.toJson = .obj [("eventId",.str "e1"),
      ("occurredAt",.str "2024-01-01T00:00:00.000Z"),("aggregateName",.str "order"),
      ("aggregateId",.str "1"),("aggregateVersion",.num (Decimal.ofInt 1))] := rfl
  have hevent : Storable ⟨"Placed",1,.str "new",orderMetadata⟩ := by
    refine ⟨by decide,⟨trivial,by simp [Json.NulFree]⟩,?_,by decide,by decide⟩
    rw [hmetadata]
    simp [Json.WellFormed,Json.WellFormedMembers,Json.NulFree,Json.NulFreeMembers]
  refine memory_postgres_agree jsonbPreserves_orderJsonb _ _ ?_
  intro call hcall
  simp only [List.mem_cons,List.not_mem_nil,or_false] at hcall
  rcases hcall with rfl | rfl
  · exact ⟨hname,by simpa using hevent⟩
  · exact ⟨hname,by decide,by decide⟩

/-- The in-memory store keeps a stream whose name holds U+0000, and reads it from any version. -/
theorem memory_postgres_differ :
    (inMemoryEventStore ⟨id,fun _ => true⟩).outputs
        [.store (.append "order\x00" 0 []),.store (.read "order" (some 3000000000))] =
      [.appended (.ok ⟨0,0⟩),.events (.ok [])] ∧
    (eventStore orderJsonb ⟨id,fun _ => true⟩).outputs
        [.store (.append "order\x00" 0 []),.store (.read "order" (some 3000000000))] =
      [.appended (.error (.persistence ⟨"EventStore"⟩)),.events (.error (.persistence ⟨"EventStore"⟩))] :=
  ⟨rfl,rfl⟩

end StructureAi.Postgres

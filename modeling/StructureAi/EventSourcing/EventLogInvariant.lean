import StructureAi.EventSourcing.EventLog

/-! # What every operation keeps of the event log

Each operation either refuses and leaves the log as it was or keeps it
well formed, and none of them changes a stream that is already pinned.
-/
namespace StructureAi.EventSourcing
open StructureAi.Foundation

theorem continueEvents_numbered {events : List StoredEvent} {target target' : HistoryImportTarget}
    (h : events.foldlM continueEvent target = .ok target') :
    NumberedFrom StoredEvent.position target.lastPosition events ∧
      ∀ streamName, NumberedFrom StoredEvent.version
        ((target.streamVersions.lookup streamName).getD 0) (streamOf events streamName) := by
  induction events generalizing target with
  | nil => exact ⟨trivial,fun _ => trivial⟩
  | cons e es ih =>
    rw [List.foldlM_cons] at h
    cases hc : continueEvent target e with
    | error err => rw [hc] at h; cases h
    | ok t =>
      rw [hc] at h
      obtain ⟨hp,hv⟩ := ih h
      simp only [continueEvent] at hc
      split at hc
      · cases hc
      next hpos =>
      split at hc
      · cases hc
      next hver =>
      split at hc
      · cases hc
      obtain rfl := Except.ok.inj hc
      push Not at hpos hver
      refine ⟨⟨hpos,hpos ▸ hp⟩,fun streamName => ?_⟩
      have hs := hv streamName
      by_cases hn : e.streamName = streamName
      · subst hn
        rw [AList.lookup_insert,Option.getD_some] at hs
        rw [streamOf,List.filter_cons_of_pos (by simp)]
        exact ⟨hver,hver ▸ hs⟩
      · rw [AList.lookup_insert_ne (Ne.symm hn)] at hs
        rwa [streamOf,List.filter_cons_of_neg (by simpa using hn)]

/-- Two targets that the events of a batch cannot tell apart. -/
structure HistoryImportTarget.AgreeOn (events : List StoredEvent) (t t' : HistoryImportTarget) :
    Prop where
  lastPosition : t.lastPosition = t'.lastPosition
  streamVersions : ∀ e ∈ events, (t.streamVersions.lookup e.streamName).getD 0 =
    (t'.streamVersions.lookup e.streamName).getD 0
  eventIds : ∀ e ∈ events, e.metadata.eventId ∈ t.eventIds ↔ e.metadata.eventId ∈ t'.eventIds

theorem HistoryImportTarget.AgreeOn.validate {events : List StoredEvent} {t t' : HistoryImportTarget}
    (h : t.AgreeOn events t') :
    validateHistoryImportContinuation events t = validateHistoryImportContinuation events t' := by
  unfold validateHistoryImportContinuation
  induction events generalizing t t' with
  | nil => rfl
  | cons e es ih =>
    have hid := h.eventIds e List.mem_cons_self
    simp only [List.foldlM_cons,continueEvent,h.lastPosition,
      h.streamVersions e List.mem_cons_self,hid]
    split_ifs
    · rfl
    · rfl
    · rfl
    · refine ih ⟨rfl,fun e' he' => ?_,fun e' he' => ?_⟩
      · by_cases hn : e'.streamName = e.streamName
        · rw [hn,AList.lookup_insert,AList.lookup_insert]
        · rw [AList.lookup_insert_ne hn,AList.lookup_insert_ne hn]
          exact h.streamVersions e' (List.mem_cons_of_mem e he')
      · simp only [List.mem_cons,h.eventIds e' (List.mem_cons_of_mem e he')]

theorem prepareEvent_ids {p : ImportPrimitives} {decoder : HistoryEventDecoder}
    {st st' : PrepareState} {e : StoredEvent} (h : prepareEvent p decoder st e = .ok st') :
    st'.ids = e.metadata.eventId :: st.ids := by
  unfold prepareEvent at h
  repeat' (split at h; · cases h)
  rw [← Except.ok.inj h]

theorem prepareHistoryImportBatch_ids {p : ImportPrimitives} {batch : HistoryImportBatch}
    {decoder : HistoryEventDecoder} {ids : List String}
    (h : prepareHistoryImportBatch p batch decoder = .ok ids) :
    ∀ e ∈ batch.events, e.metadata.eventId ∈ ids := by
  have key : ∀ (events : List StoredEvent) (st st' : PrepareState),
      events.foldlM (prepareEvent p decoder) st = .ok st' →
      (∀ id ∈ st.ids, id ∈ st'.ids) ∧ ∀ e ∈ events, e.metadata.eventId ∈ st'.ids := by
    intro events
    induction events with
    | nil =>
      intro st st' hf
      obtain rfl := Except.ok.inj hf
      exact ⟨fun _ hid => hid,fun _ he => absurd he List.not_mem_nil⟩
    | cons a as ih =>
      intro st st' hf
      rw [List.foldlM_cons] at hf
      cases ha : prepareEvent p decoder st a with
      | error err => rw [ha] at hf; cases hf
      | ok st₁ =>
        rw [ha] at hf
        obtain ⟨hids,hevents⟩ := ih st₁ st' hf
        have hst := prepareEvent_ids ha
        refine ⟨fun id hid => hids id (hst ▸ List.mem_cons_of_mem _ hid),fun e he => ?_⟩
        rcases List.mem_cons.mp he with rfl | he
        · exact hids _ (hst ▸ List.mem_cons_self)
        · exact hevents e he
  unfold prepareHistoryImportBatch at h
  repeat' (split at h; · cases h)
  cases hf : batch.events.foldlM (prepareEvent p decoder) {} with
  | error err => rw [hf] at h; cases h
  | ok st =>
    rw [hf] at h
    obtain rfl := Except.ok.inj h
    exact (key _ _ _ hf).2

theorem historyImportTarget_lookup (log : List StoredEvent) (versions : JsMap ℤ) (streamName : String) :
    ((log.foldl (fun m e => m.insert e.streamName e.version) versions).lookup streamName).getD 0 =
      ((streamOf log streamName).getLast?.map StoredEvent.version).getD
        ((versions.lookup streamName).getD 0) := by
  induction log generalizing versions with
  | nil => rfl
  | cons e es ih =>
    rw [List.foldl_cons,ih]
    by_cases hn : e.streamName = streamName
    · subst hn
      rw [streamOf,streamOf,List.filter_cons_of_pos (by simp),AList.lookup_insert]
      cases List.filter (fun x : StoredEvent => decide (x.streamName = e.streamName)) es with
      | nil => rfl
      | cons y ys => rw [List.getLast?_cons_cons,List.getLast?_cons]; rfl
    · rw [AList.lookup_insert_ne (Ne.symm hn),streamOf,streamOf,
        List.filter_cons_of_neg (by simpa using hn)]

theorem streamOf_eraseIn (streamName erasedAt : String) (log : List StoredEvent) (other : String) :
    streamOf (EventLog.eraseIn streamName erasedAt log) other =
      EventLog.eraseIn streamName erasedAt (streamOf log other) := by
  rw [streamOf,EventLog.eraseIn,List.filter_map,streamOf,EventLog.eraseIn]
  congr 1
  refine List.filter_congr fun e _ => ?_
  by_cases h : e.streamName = streamName <;> simp [h]

theorem eraseIn_streamOf_ne {streamName other : String} (h : other ≠ streamName) (erasedAt : String)
    (log : List StoredEvent) :
    EventLog.eraseIn streamName erasedAt (streamOf log other) = streamOf log other := by
  refine (List.map_congr_left fun e he => ?_).trans (List.map_id _)
  have hn : e.streamName = other := by simpa [streamOf] using (List.mem_filter.mp he).2
  rw [if_neg (by rw [hn]; exact h),id]

theorem eraseIn_streamOf_self (streamName erasedAt : String) (log : List StoredEvent) :
    EventLog.eraseIn streamName erasedAt (streamOf log streamName) =
      (streamOf log streamName).map fun e => e.erase erasedAt := by
  refine List.map_congr_left fun e he => ?_
  have hn : e.streamName = streamName := by simpa [streamOf] using (List.mem_filter.mp he).2
  rw [if_pos hn]

@[simp] theorem eraseIn_length (streamName erasedAt : String) (log : List StoredEvent) :
    (EventLog.eraseIn streamName erasedAt log).length = log.length := List.length_map ..

namespace EventLog
variable {p : ImportPrimitives} {l : EventLog}

theorem numberedFrom_eraseIn {f : StoredEvent → ℤ} (hf : ∀ e t, f (e.erase t) = f e) {n : ℤ}
    {log : List StoredEvent} (h : NumberedFrom f n log) (streamName erasedAt : String) :
    NumberedFrom f n (eraseIn streamName erasedAt log) := by
  refine h.map fun e => ?_
  split
  · exact hf e erasedAt
  · rfl

theorem wellFormed_empty : empty.WellFormed where
  positions := trivial
  versions _ := trivial
  pinned _ _ h := by cases h
  started _ _ h := by cases h

/-- Events numbered after the log and its streams extend a log whose pinned streams they avoid. -/
theorem WellFormed.extend (h : l.WellFormed) {events : List StoredEvent}
    (hp : NumberedFrom StoredEvent.position l.log.length events)
    (hv : ∀ streamName, NumberedFrom StoredEvent.version (l.version streamName)
      (streamOf events streamName))
    (he : ∀ streamName, l.erased streamName ≠ none → streamOf events streamName = []) :
    (l.extend events).WellFormed where
  positions := h.positions.append (by simpa using hp)
  versions streamName := by
    rw [stream,EventLog.extend,streamOf_append]
    exact (h.versions streamName).append (by simpa [version,stream] using hv streamName)
  pinned streamName record hr := by
    have hn := he streamName (by rw [show l.erased streamName = some record from hr]; simp)
    simp only [stream,version,EventLog.extend,streamOf_append,hn,List.append_nil]
    exact h.pinned streamName record hr
  started := h.started

theorem WellFormed.pin (h : l.WellFormed) (streamName erasedAt reason : String) :
    (l.pin streamName erasedAt reason).WellFormed where
  positions := numberedFrom_eraseIn StoredEvent.erase_position h.positions _ _
  versions other := by
    rw [stream,EventLog.pin,streamOf_eraseIn]
    exact numberedFrom_eraseIn StoredEvent.erase_version (h.versions other) _ _
  pinned other record hr := by
    simp only [stream,version,EventLog.pin,streamOf_eraseIn,eraseIn_length] at hr ⊢
    by_cases hn : other = streamName
    · subst hn
      rw [Function.update_self,Option.some.injEq] at hr
      subst hr
      refine ⟨fun e he => ?_,rfl⟩
      rw [eraseIn_streamOf_self] at he
      obtain ⟨e',-,rfl⟩ := List.mem_map.mp he
      exact e'.isTombstone_erase erasedAt
    · rw [Function.update_of_ne hn] at hr
      rw [eraseIn_streamOf_ne hn]
      exact h.pinned other record hr
  started := h.started

theorem append_cases (l : EventLog) (streamName : String) (expectedVersion : ℤ)
    (events : List AppendEvent) :
    (∃ e, l.append streamName expectedVersion events = (l,.error e)) ∨
      (l.erased streamName = none ∧ l.version streamName = expectedVersion ∧
        ((events = [] ∧ l.append streamName expectedVersion events =
            (l,.ok ⟨l.version streamName,l.version streamName⟩)) ∨
          (events ≠ [] ∧ l.append streamName expectedVersion events =
            (l.extend (stampFrom streamName l.log.length (l.version streamName) events),
              .ok ⟨l.version streamName + 1,l.version streamName + events.length⟩)))) := by
  unfold EventLog.append
  split
  · exact Or.inl ⟨_,rfl⟩
  next hr =>
  split
  · exact Or.inl ⟨_,rfl⟩
  next hv =>
  push Not at hv
  split
  next hn => exact Or.inr ⟨hr,hv,Or.inl ⟨hn,rfl⟩⟩
  next hn => exact Or.inr ⟨hr,hv,Or.inr ⟨hn,rfl⟩⟩

theorem append_stream (l : EventLog) (streamName : String) (expectedVersion : ℤ) (events : List AppendEvent)
    (other : String) :
    ∃ added, (l.append streamName expectedVersion events).1.stream other = l.stream other ++ added := by
  rcases l.append_cases streamName expectedVersion events with
    ⟨e,ha⟩ | ⟨-,-,⟨-,ha⟩ | ⟨-,ha⟩⟩ <;> rw [ha]
  · exact ⟨[],(List.append_nil _).symm⟩
  · exact ⟨[],(List.append_nil _).symm⟩
  · exact ⟨_,streamOf_append ..⟩

theorem append_erased (l : EventLog) (streamName : String) (expectedVersion : ℤ)
    (events : List AppendEvent) : (l.append streamName expectedVersion events).1.erased = l.erased := by
  rcases l.append_cases streamName expectedVersion events with
    ⟨e,ha⟩ | ⟨-,-,⟨-,ha⟩ | ⟨-,ha⟩⟩ <;> rw [ha]
  rfl

theorem append_ok {l : EventLog} {streamName : String} {expectedVersion : ℤ} {events : List AppendEvent}
    {result : AppendResult} (h : (l.append streamName expectedVersion events).2 = .ok result) :
    l.version streamName = expectedVersion ∧
      (l.append streamName expectedVersion events).1.stream streamName =
        l.stream streamName ++ stampFrom streamName l.log.length expectedVersion events ∧
      result.lastVersion = expectedVersion + events.length := by
  rcases l.append_cases streamName expectedVersion events with
    ⟨e,ha⟩ | ⟨-,hv,⟨rfl,ha⟩ | ⟨-,ha⟩⟩ <;> rw [ha] at h ⊢
  · cases h
  · obtain rfl := Except.ok.inj h
    exact ⟨hv,(List.append_nil _).symm,by simpa using hv⟩
  · obtain rfl := Except.ok.inj h
    subst hv
    refine ⟨rfl,?_,rfl⟩
    rw [stream,extend,streamOf_append,streamOf_stampFrom_self]
    rfl

theorem eraseStream_cases (l : EventLog) (request : StreamErasureRequest) (erasedAt : String) :
    (∃ e, l.eraseStream request erasedAt = (l,.error e)) ∨
      (∃ record, l.erased request.streamName = some record ∧ l.eraseStream request erasedAt =
        (l,.ok ⟨0,record.lastVersion,record.erasedAt,record.reason⟩)) ∨
      (l.erased request.streamName = none ∧ l.eraseStream request erasedAt =
        (l.pin request.streamName erasedAt request.reason,
          .ok ⟨l.version request.streamName,l.version request.streamName,erasedAt,request.reason⟩)) := by
  unfold EventLog.eraseStream
  split
  · exact Or.inl ⟨_,rfl⟩
  split
  next record hr =>
    split
    · exact Or.inl ⟨_,rfl⟩
    · exact Or.inr (Or.inl ⟨record,hr,rfl⟩)
  next hr =>
    split
    · exact Or.inl ⟨_,rfl⟩
    · exact Or.inr (Or.inr ⟨hr,rfl⟩)

/-- Only an erasure at the version of its stream succeeds. -/
theorem WellFormed.eraseStream_version (h : l.WellFormed) {request : StreamErasureRequest} {erasedAt : String}
    {result : StreamErasureResult} (hok : (l.eraseStream request erasedAt).2 = .ok result) :
    l.version request.streamName = request.expectedVersion := by
  unfold EventLog.eraseStream at hok
  split at hok
  · cases hok
  split at hok
  next record hrecord =>
    split at hok
    · cases hok
    next hversion => exact (h.pinned _ record hrecord).2.trans (not_not.mp hversion).symm
  · split at hok
    · cases hok
    next hversion => exact not_not.mp hversion

theorem importBatch_cases (l : EventLog) (batch : HistoryImportBatch) (decoder : HistoryEventDecoder) :
    (l.importBatch p batch decoder).1 = l ∨
      ∃ lastEvent, batch.events.getLast? = some lastEvent ∧ (∀ streamName, l.erased streamName = none) ∧
        validateHistoryImportContinuation batch.events (historyImportTarget l.log) = .ok () ∧
        l.importBatch p batch decoder = ((l.commit p batch lastEvent.position).1,
          .ok (l.commit p batch lastEvent.position).2) := by
  unfold EventLog.importBatch
  split
  · exact Or.inl rfl
  · exact Or.inl rfl
  next lastEvent _ hlast =>
  split
  · exact Or.inl rfl
  next hpin =>
  push Not at hpin
  split
  · exact Or.inl rfl
  split
  · exact Or.inl rfl
  split
  · exact Or.inl rfl
  next hval => exact Or.inr ⟨lastEvent,hlast,hpin,hval,rfl⟩

theorem WellFormed.continuation (h : l.WellFormed) {events : List StoredEvent}
    (hval : validateHistoryImportContinuation events (historyImportTarget l.log) = .ok ()) :
    NumberedFrom StoredEvent.position l.log.length events ∧ ∀ streamName,
      NumberedFrom StoredEvent.version (l.version streamName) (streamOf events streamName) := by
  unfold validateHistoryImportContinuation at hval
  cases hf : events.foldlM continueEvent (historyImportTarget l.log) with
  | error e => rw [hf] at hval; cases hval
  | ok target =>
    obtain ⟨hp,hv⟩ := continueEvents_numbered hf
    have hlast := h.positions.last
    refine ⟨by simpa [historyImportTarget,hlast] using hp,fun streamName => ?_⟩
    have hs := hv streamName
    rw [historyImportTarget,historyImportTarget_lookup] at hs
    have hl : ((streamOf l.log streamName).getLast?.map StoredEvent.version).getD 0 = _ :=
      (h.versions streamName).last
    simpa [AList.lookup_empty,version,hl] using hs

theorem WellFormed.append (h : l.WellFormed) (streamName : String) (expectedVersion : ℤ)
    (events : List AppendEvent) : (l.append streamName expectedVersion events).1.WellFormed := by
  rcases l.append_cases streamName expectedVersion events with
    ⟨e,ha⟩ | ⟨hr,-,⟨-,ha⟩ | ⟨-,ha⟩⟩ <;> rw [ha]
  · exact h
  · exact h
  · refine h.extend (stampFrom_positions ..) (fun other => ?_) (fun other ho => ?_)
    · by_cases hn : other = streamName
      · subst hn
        rw [streamOf_stampFrom_self]
        exact stampFrom_versions ..
      · rw [streamOf_stampFrom_ne hn]
        trivial
    · refine streamOf_stampFrom_ne ?_ _ _ _
      rintro rfl
      exact ho hr

theorem WellFormed.eraseStream (h : l.WellFormed) (request : StreamErasureRequest) (erasedAt : String) :
    (l.eraseStream request erasedAt).1.WellFormed := by
  rcases l.eraseStream_cases request erasedAt with ⟨e,he⟩ | ⟨record,-,he⟩ | ⟨-,he⟩ <;> rw [he]
  · exact h
  · exact h
  · exact h.pin _ _ _

theorem WellFormed.importBatch (h : l.WellFormed) (batch : HistoryImportBatch)
    (decoder : HistoryEventDecoder) : (l.importBatch p batch decoder).1.WellFormed := by
  rcases l.importBatch_cases (p := p) batch decoder with hs | ⟨lastEvent,hlast,hpin,hval,hs⟩
  · rwa [hs]
  · obtain ⟨hp,hv⟩ := h.continuation hval
    have he := h.extend hp hv fun streamName hn => absurd (hpin streamName) hn
    have hpos := (hp.bounds (List.mem_of_getLast? hlast)).1
    rw [hs]
    refine ⟨he.positions,he.versions,he.pinned,fun importId session hi => ?_⟩
    by_cases hn : importId = batch.importId
    · subst hn
      simp only [commit,Function.update_self,Option.some.injEq] at hi
      subst hi
      show 1 ≤ lastEvent.position
      omega
    · simp only [commit,Function.update_of_ne hn] at hi
      exact h.started importId session hi

/-- An event after a loop has erased the versions 1 to `n` of the stream. -/
def eraseUpTo (streamName erasedAt : String) (n : ℕ) (e : StoredEvent) : StoredEvent :=
  if e.streamName = streamName ∧ 1 ≤ e.version ∧ e.version ≤ n then e.erase erasedAt else e

@[simp] theorem eraseUpTo_streamName (streamName erasedAt : String) (n : ℕ) (e : StoredEvent) :
    (eraseUpTo streamName erasedAt n e).streamName = e.streamName := by
  unfold eraseUpTo
  split <;> rfl

@[simp] theorem eraseUpTo_version (streamName erasedAt : String) (n : ℕ) (e : StoredEvent) :
    (eraseUpTo streamName erasedAt n e).version = e.version := by
  unfold eraseUpTo
  split <;> rfl

theorem eraseUpTo_zero (streamName erasedAt : String) (e : StoredEvent) :
    eraseUpTo streamName erasedAt 0 e = e := by
  refine if_neg ?_
  rintro ⟨-,hlo,hhi⟩
  push_cast at hhi
  omega

theorem eraseUpTo_succ (streamName erasedAt : String) (n : ℕ) (e : StoredEvent) :
    (if e.streamName = streamName ∧ e.version = n + 1 then
      (eraseUpTo streamName erasedAt n e).erase erasedAt else eraseUpTo streamName erasedAt n e) =
      eraseUpTo streamName erasedAt (n + 1) e := by
  by_cases hc : e.streamName = streamName ∧ e.version = n + 1
  · obtain ⟨hn,hr⟩ := hc
    have hhi : 1 ≤ e.version ∧ e.version ≤ ((n + 1 : ℕ) : ℤ) := by
      push_cast
      omega
    have hnext : eraseUpTo streamName erasedAt (n + 1) e = e.erase erasedAt := if_pos ⟨hn,hhi⟩
    rw [if_pos ⟨hn,hr⟩,hnext]
    unfold eraseUpTo
    split <;> rfl
  · have hiff : (e.streamName = streamName ∧ 1 ≤ e.version ∧ e.version ≤ n) ↔
        (e.streamName = streamName ∧ 1 ≤ e.version ∧ e.version ≤ ((n + 1 : ℕ) : ℤ)) := by
      push_cast
      constructor
      · rintro ⟨hn,hlo,hhi⟩
        exact ⟨hn,hlo,by omega⟩
      · rintro ⟨hn,hlo,hhi⟩
        have hne : e.version ≠ n + 1 := fun hr => hc ⟨hn,hr⟩
        exact ⟨hn,hlo,by omega⟩
    rw [if_neg hc,eraseUpTo,eraseUpTo]
    simp only [hiff]

theorem WellFormed.map_eraseUpTo (h : l.WellFormed) (streamName erasedAt : String) :
    l.log.map (eraseUpTo streamName erasedAt (l.version streamName).toNat) =
      eraseIn streamName erasedAt l.log := by
  refine List.map_congr_left fun e he => ?_
  unfold eraseUpTo
  by_cases hn : e.streamName = streamName
  · have hm : e ∈ l.stream streamName := List.mem_filter.mpr ⟨he,by simpa using hn⟩
    have hb := (h.versions streamName).bounds hm
    have hlen : l.version streamName = (l.stream streamName).length := rfl
    have hc : 1 ≤ e.version ∧ e.version ≤ ((l.version streamName).toNat : ℤ) := by omega
    rw [if_pos ⟨hn,hc⟩,if_pos hn]
  · rw [if_neg (fun hc => hn hc.1),if_neg hn]

/-- The later log holds the same record and the same events for a pinned stream. -/
def KeepsPinned (l l' : EventLog) : Prop := ∀ streamName record, l.erased streamName = some record →
  l'.erased streamName = some record ∧ l'.stream streamName = l.stream streamName

theorem KeepsPinned.refl (l : EventLog) : KeepsPinned l l := fun _ _ h => ⟨h,rfl⟩

theorem KeepsPinned.ne_none {l l' : EventLog} (h : KeepsPinned l l') {streamName : String}
    (hpin : l.erased streamName ≠ none) : l'.erased streamName ≠ none := by
  obtain ⟨record,hrecord⟩ := Option.ne_none_iff_exists'.mp hpin
  rw [(h streamName record hrecord).1]
  exact Option.some_ne_none record

theorem KeepsPinned.append (l : EventLog) (streamName : String) (expectedVersion : ℤ)
    (events : List AppendEvent) : KeepsPinned l (l.append streamName expectedVersion events).1 := by
  rcases l.append_cases streamName expectedVersion events with
    ⟨e,ha⟩ | ⟨hr,-,⟨-,ha⟩ | ⟨-,ha⟩⟩ <;> rw [ha]
  · exact KeepsPinned.refl l
  · exact KeepsPinned.refl l
  · intro other record ho
    have hn : other ≠ streamName := by
      rintro rfl
      rw [hr] at ho
      cases ho
    refine ⟨ho,?_⟩
    rw [stream,extend,streamOf_append,streamOf_stampFrom_ne hn,List.append_nil]
    rfl

theorem KeepsPinned.pin {streamName : String} (hr : l.erased streamName = none)
    (erasedAt reason : String) : KeepsPinned l (l.pin streamName erasedAt reason) := by
  intro other record ho
  have hn : other ≠ streamName := by
    rintro rfl
    rw [hr] at ho
    cases ho
  constructor
  · simp only [EventLog.pin,Function.update_of_ne hn]
    exact ho
  · simp only [stream,EventLog.pin,streamOf_eraseIn,eraseIn_streamOf_ne hn]

theorem KeepsPinned.eraseStream (l : EventLog) (request : StreamErasureRequest) (erasedAt : String) :
    KeepsPinned l (l.eraseStream request erasedAt).1 := by
  rcases l.eraseStream_cases request erasedAt with ⟨e,he⟩ | ⟨record,-,he⟩ | ⟨hr,he⟩ <;> rw [he]
  · exact KeepsPinned.refl l
  · exact KeepsPinned.refl l
  · exact KeepsPinned.pin hr _ _

theorem KeepsPinned.importBatch (l : EventLog) (batch : HistoryImportBatch)
    (decoder : HistoryEventDecoder) : KeepsPinned l (l.importBatch p batch decoder).1 := by
  rcases l.importBatch_cases (p := p) batch decoder with hs | ⟨lastEvent,-,hpin,-,-⟩
  · rw [hs]
    exact KeepsPinned.refl l
  · intro other record ho
    rw [hpin other] at ho
    cases ho

end EventLog
end StructureAi.EventSourcing

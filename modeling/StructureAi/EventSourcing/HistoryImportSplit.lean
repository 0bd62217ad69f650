import StructureAi.EventSourcing.MemoryInvariants

/-! # Frozen histories imported in parts

A history that imports in one batch also imports in any parts, each resuming from
the token of the one before. What carries an import from part to part is that the
checks of the whole history are checks of the parts.
-/
namespace StructureAi.EventSourcing
open StructureAi.Foundation
variable {p : ImportPrimitives} {decoder : HistoryEventDecoder}

/-- Whatever passes in the later state of the validation loop passes in the earlier one. -/
structure PrepareState.Weaker (st st' : PrepareState) : Prop where
  ids : st.ids ⊆ st'.ids
  versions : ∀ streamName version, st.versions.lookup streamName = some version →
    st'.versions.lookup streamName = some version
  previousPosition : ∀ position, st.previousPosition = some position → st'.previousPosition = some position

theorem PrepareState.weaker_init (st : PrepareState) : PrepareState.Weaker {} st where
  ids := List.nil_subset _
  versions _ _ h := by cases h
  previousPosition _ h := by cases h

theorem any_of_weaker {V : Type} {a b : Option V} {f : V → Bool} (h : ∀ v, a = some v → b = some v)
    (hb : ¬ b.any f = true) : ¬ a.any f = true := by
  cases a with
  | none => simp
  | some v =>
    rw [h v rfl] at hb
    exact hb

theorem PrepareState.Weaker.insert {st st' : PrepareState} (h : st.Weaker st') (id streamName : String)
    (version position : ℤ) :
    PrepareState.Weaker ⟨id :: st.ids,st.versions.insert streamName version,some position⟩
      ⟨id :: st'.ids,st'.versions.insert streamName version,some position⟩ where
  ids := List.cons_subset_cons id h.ids
  versions other v hv := by
    by_cases hn : other = streamName
    · subst hn
      rw [AList.lookup_insert] at hv ⊢
      exact hv
    · rw [AList.lookup_insert_ne hn] at hv ⊢
      exact h.versions other v hv
  previousPosition _ hp := hp

theorem PrepareState.Weaker.prepareEvent {sub st st' : PrepareState} (h : sub.Weaker st) {e : StoredEvent}
    (hp : prepareEvent p decoder st e = .ok st') :
    ∃ sub', EventSourcing.prepareEvent p decoder sub e = .ok sub' ∧ sub'.Weaker st' := by
  unfold EventSourcing.prepareEvent at hp
  split at hp
  · cases hp
  next h1 =>
  split at hp
  · cases hp
  next h2 =>
  split at hp
  · cases hp
  next h3 =>
  split at hp
  · cases hp
  next h4 =>
  split at hp
  · cases hp
  next h5 =>
  split at hp
  · cases hp
  next h6 =>
  split at hp
  · cases hp
  next h7 =>
  split at hp
  · cases hp
  next h8 =>
  split at hp
  · cases hp
  next h9 =>
  split at hp
  · cases hp
  next hd =>
  obtain rfl := Except.ok.inj hp
  have h3' := any_of_weaker h.previousPosition h3
  have h6' := any_of_weaker (h.versions e.streamName) h6
  have h9' : ¬ (isBlank e.metadata.eventId = true ∨ e.metadata.eventId ∈ sub.ids) := fun hc =>
    h9 (hc.imp id fun hm => h.ids hm)
  refine ⟨_,?_,h.insert e.metadata.eventId e.streamName e.version e.position⟩
  rw [EventSourcing.prepareEvent,if_neg h1,if_neg h2,if_neg h3',if_neg h4,if_neg h5,if_neg h6',if_neg h7,
    if_neg h8,if_neg h9',hd]

theorem PrepareState.Weaker.prepareEvents {sub st st' : PrepareState} (h : sub.Weaker st)
    {events : List StoredEvent} (hp : events.foldlM (EventSourcing.prepareEvent p decoder) st = .ok st') :
    ∃ sub', events.foldlM (EventSourcing.prepareEvent p decoder) sub = .ok sub' := by
  induction events generalizing sub st with
  | nil => exact ⟨sub,rfl⟩
  | cons e events ih =>
    rw [List.foldlM_cons] at hp
    cases he : EventSourcing.prepareEvent p decoder st e with
    | error failure =>
      rw [he] at hp
      cases hp
    | ok st₁ =>
      rw [he] at hp
      obtain ⟨sub₁,hsub,hw⟩ := h.prepareEvent he
      obtain ⟨sub',hrest⟩ := ih hw hp
      refine ⟨sub',?_⟩
      rw [List.foldlM_cons,hsub]
      exact hrest

theorem prepareEvents_append {xs ys : List StoredEvent} {st' : PrepareState}
    (hp : (xs ++ ys).foldlM (prepareEvent p decoder) {} = .ok st') :
    (∃ st, xs.foldlM (prepareEvent p decoder) {} = .ok st) ∧
      ∃ st, ys.foldlM (prepareEvent p decoder) {} = .ok st := by
  rw [List.foldlM_append] at hp
  cases hx : xs.foldlM (prepareEvent p decoder) {} with
  | error failure =>
    rw [hx] at hp
    cases hp
  | ok st =>
    rw [hx] at hp
    exact ⟨⟨st,rfl⟩,(PrepareState.weaker_init st).prepareEvents hp⟩

theorem continueEvent_target {log : List StoredEvent} {e : StoredEvent} {target : HistoryImportTarget}
    (h : continueEvent (historyImportTarget log) e = .ok target) (events : List StoredEvent) :
    target.AgreeOn events (historyImportTarget (log ++ [e])) := by
  unfold continueEvent at h
  split at h
  · cases h
  split at h
  · cases h
  split at h
  · cases h
  obtain rfl := Except.ok.inj h
  constructor
  · simp [historyImportTarget]
  · intro e' _
    simp [historyImportTarget]
  · intro e' _
    simp [historyImportTarget,or_comm]

/-- The continuation check of two parts is that of the first and then that of the second. -/
theorem validateHistoryImportContinuation_append {log xs ys : List StoredEvent}
    (h : validateHistoryImportContinuation (xs ++ ys) (historyImportTarget log) = .ok ()) :
    validateHistoryImportContinuation xs (historyImportTarget log) = .ok () ∧
      validateHistoryImportContinuation ys (historyImportTarget (log ++ xs)) = .ok () := by
  induction xs generalizing log with
  | nil =>
    rw [List.append_nil]
    exact ⟨rfl,h⟩
  | cons e xs ih =>
    have hcons : ∀ events, validateHistoryImportContinuation (e :: events) (historyImportTarget log) =
        (continueEvent (historyImportTarget log) e).bind fun target =>
          validateHistoryImportContinuation events target := by
      intro events
      unfold validateHistoryImportContinuation
      rw [List.foldlM_cons]
      cases continueEvent (historyImportTarget log) e <;> rfl
    rw [List.cons_append,hcons] at h
    rw [hcons]
    cases he : continueEvent (historyImportTarget log) e with
    | error failure =>
      rw [he] at h
      cases h
    | ok target =>
      rw [he] at h
      have hagree := continueEvent_target he
      have hrest := ((hagree (xs ++ ys)).validate).symm.trans h
      obtain ⟨hx,hy⟩ := ih hrest
      rw [List.append_assoc] at hy
      exact ⟨(hagree xs).validate.trans hx,hy⟩

theorem prepareHistoryImportBatch_ok {batch : HistoryImportBatch} {ids : List String}
    (h : prepareHistoryImportBatch p batch decoder = .ok ids) :
    ¬ isBlank batch.importId = true ∧ batch.events ≠ [] ∧
      ∃ st, batch.events.foldlM (prepareEvent p decoder) {} = .ok st := by
  unfold prepareHistoryImportBatch at h
  split at h
  · cases h
  next himport =>
  split at h
  · cases h
  split at h
  · cases h
  next hevents =>
  split at h
  · cases h
  cases hf : batch.events.foldlM (prepareEvent p decoder) {} with
  | error failure =>
    rw [hf] at h
    cases h
  | ok st => exact ⟨himport,hevents,st,rfl⟩

/-- A batch of a part of some events, with the checksum of that part. -/
structure PartOf (p : ImportPrimitives) (importId : String) (part : HistoryImportBatch) : Prop where
  importId : part.importId = importId
  batchId : ¬ isBlank part.batchId = true
  events : part.events ≠ []
  checksum : checksum p part.events = part.checksum

/-- Consecutive parts of the events, of which only the last one may complete the import. -/
inductive Splits (p : ImportPrimitives) (batch : HistoryImportBatch) :
    List StoredEvent → List HistoryImportBatch → Prop
  | last {part : HistoryImportBatch} (hp : PartOf p batch.importId part)
      (hcomplete : part.complete.getD false = batch.complete.getD false) : Splits p batch part.events [part]
  | cons {part : HistoryImportBatch} {rest : List StoredEvent} {parts : List HistoryImportBatch}
      (hp : PartOf p batch.importId part) (hcomplete : part.complete.getD false = false)
      (hrest : Splits p batch rest parts) : Splits p batch (part.events ++ rest) (part :: parts)

theorem Splits.head {batch part : HistoryImportBatch} {events : List StoredEvent}
    {parts : List HistoryImportBatch} (h : Splits p batch events (part :: parts)) :
    PartOf p batch.importId part ∧ ∃ rest, events = part.events ++ rest ∧
      ((rest = [] ∧ parts = [] ∧ part.complete.getD false = batch.complete.getD false) ∨
        (part.complete.getD false = false ∧ Splits p batch rest parts)) := by
  cases h with
  | last hp hcomplete => exact ⟨hp,[],(List.append_nil _).symm,Or.inl ⟨rfl,rfl,hcomplete⟩⟩
  | cons hp hcomplete hrest => exact ⟨hp,_,rfl,Or.inr ⟨hcomplete,hrest⟩⟩

namespace EventLog
variable {l : EventLog} {importId : String} {token : Option String}

/-- Events that may follow what the log and the session hold, in one batch or in parts. -/
structure Ready (p : ImportPrimitives) (decoder : HistoryEventDecoder) (importId : String) (l : EventLog)
    (token : Option String) (events : List StoredEvent) : Prop where
  named : ¬ isBlank importId = true
  unpinned : ¬ ∃ streamName, l.erased streamName ≠ none
  prepared : ∃ st, events.foldlM (prepareEvent p decoder) {} = .ok st
  continues : validateHistoryImportContinuation events (historyImportTarget l.log) = .ok ()
  resumes : ∀ batch : HistoryImportBatch, batch.importId = importId → batch.resumeToken = token →
    l.resumes batch = .ok ()

theorem resumes_ok_congr {batch batch' : HistoryImportBatch} (hi : batch.importId = batch'.importId)
    (ht : batch.resumeToken = batch'.resumeToken) (h : l.resumes batch = .ok ()) :
    l.resumes batch' = .ok () := by
  unfold resumes at h ⊢
  rw [hi,ht] at h
  cases hsession : l.sessions batch'.importId with
  | none =>
    rw [hsession] at h
    exact h
  | some session =>
    rw [hsession] at h
    dsimp only at h ⊢
    split at h
    · cases h
    next hcomplete =>
    split at h
    · cases h
    next htoken =>
    split at h
    · cases h
    next hlast => rw [if_neg hcomplete,if_neg htoken,if_neg hlast]

theorem ready_of_imported {batch : HistoryImportBatch} {result : HistoryImportResult}
    (h : (l.importBatch p batch decoder).2 = .ok result) (hi : result.status = .imported) :
    Ready p decoder batch.importId l batch.resumeToken batch.events ∧
      ∃ lastEvent, batch.events.getLast? = some lastEvent ∧
        l.importBatch p batch decoder = ((l.commit p batch lastEvent.position).1,
          .ok (l.commit p batch lastEvent.position).2) := by
  unfold EventLog.importBatch at h ⊢
  split at h
  · cases h
  · cases h
  next lastEvent hprepare hlast =>
  obtain ⟨hnamed,-,hprepared⟩ := prepareHistoryImportBatch_ok hprepare
  split at h
  · cases h
  next hpin =>
  rw [if_neg hpin]
  split at h
  next record hrecord =>
    unfold retried at h
    split at h
    · cases h
    · obtain rfl := Except.ok.inj h
      cases hi
  next hrecord =>
  split at h
  · cases h
  next hresumes =>
  split at h
  · cases h
  next hcontinues =>
  refine ⟨⟨hnamed,hpin,hprepared,hcontinues,?_⟩,lastEvent,hlast,rfl⟩
  intro batch' hi' ht'
  exact resumes_ok_congr hi'.symm ht'.symm hresumes

theorem Ready.importBatch {part : HistoryImportBatch} {rest : List StoredEvent}
    (h : Ready p decoder importId l token (part.events ++ rest)) (hp : PartOf p importId part)
    (ht : part.resumeToken = token) (hnew : l.batches importId part.batchId = none) :
    ∃ ids lastEvent, prepareHistoryImportBatch p part decoder = .ok ids ∧
      part.events.getLast? = some lastEvent ∧
      l.importBatch p part decoder = ((l.commit p part lastEvent.position).1,
        .ok (l.commit p part lastEvent.position).2) := by
  obtain ⟨st,hst⟩ := h.prepared
  obtain ⟨⟨st₁,hst₁⟩,-⟩ := prepareEvents_append hst
  have hprepare : prepareHistoryImportBatch p part decoder = .ok st₁.ids := by
    have hnamed : ¬ isBlank part.importId = true := hp.importId ▸ h.named
    rw [prepareHistoryImportBatch,if_neg hnamed,if_neg hp.batchId,if_neg hp.events,
      if_neg (not_not.mpr hp.checksum),hst₁]
    rfl
  have hcontinues := (validateHistoryImportContinuation_append h.continues).1
  have hlast := List.getLast?_eq_some_getLast hp.events
  refine ⟨_,_,hprepare,hlast,?_⟩
  rw [EventLog.importBatch,hprepare,hlast]
  dsimp only
  rw [if_neg h.unpinned,hp.importId,hnew,h.resumes part hp.importId ht,hcontinues]

theorem commit_batches {batch : HistoryImportBatch} (hi : batch.importId = importId) (l : EventLog)
    (lastPosition : ℤ) {batchId : String} (hn : batchId ≠ batch.batchId) :
    (l.commit p batch lastPosition).1.batches importId batchId = l.batches importId batchId := by
  subst hi
  simp only [EventLog.commit,Function.update_self,Function.update_of_ne hn]

theorem commit_recorded {batch : HistoryImportBatch} (hi : batch.importId = importId) (l : EventLog)
    (lastPosition : ℤ) : (l.commit p batch lastPosition).1.batches importId batch.batchId =
      some ⟨batch.checksum,batch.resumeToken,batch.complete.getD false,
        (l.commit p batch lastPosition).2⟩ := by
  subst hi
  simp only [EventLog.commit,Function.update_self]

theorem commit_session {batch : HistoryImportBatch} (hi : batch.importId = importId) (l : EventLog)
    (lastPosition : ℤ) : (l.commit p batch lastPosition).1.sessions importId =
      some ⟨historyImportResumeToken p batch lastPosition,lastPosition,batch.complete.getD false⟩ := by
  subst hi
  simp only [EventLog.commit,Function.update_self]

theorem Ready.commit (hw : l.WellFormed) {part : HistoryImportBatch} {rest : List StoredEvent}
    (h : Ready p decoder importId l token (part.events ++ rest)) (hp : PartOf p importId part)
    (hcomplete : part.complete.getD false = false) {lastEvent : StoredEvent}
    (hlast : part.events.getLast? = some lastEvent) :
    Ready p decoder importId (l.commit p part lastEvent.position).1
      (some (historyImportResumeToken p part lastEvent.position)) rest := by
  obtain ⟨st,hst⟩ := h.prepared
  obtain ⟨hpart,hrest⟩ := validateHistoryImportContinuation_append h.continues
  have hposition : lastEvent.position = (l.log ++ part.events).length := by
    have hn := (hw.continuation hpart).1.last
    rw [hlast] at hn
    rw [List.length_append,Nat.cast_add]
    exact hn
  refine ⟨h.named,h.unpinned,(prepareEvents_append hst).2,hrest,?_⟩
  intro batch hi ht
  have hsession := commit_session (p := p) hp.importId l lastEvent.position
  rw [hcomplete,← hi] at hsession
  have hlog : (l.commit p part lastEvent.position).1.log = l.log ++ part.events := rfl
  rw [EventLog.resumes,hsession]
  dsimp only
  rw [if_neg (by decide),ht,if_neg (not_not.mpr rfl),hlog,hposition,if_neg (not_not.mpr rfl)]

/-- A batch the log has committed, with the answer it gave. -/
structure Committed (p : ImportPrimitives) (decoder : HistoryEventDecoder) (importId : String) (l : EventLog)
    (batch : HistoryImportBatch) (result : HistoryImportResult) : Prop where
  sameImport : batch.importId = importId
  prepared : ∃ ids, prepareHistoryImportBatch p batch decoder = .ok ids
  recorded : l.batches importId batch.batchId =
    some ⟨batch.checksum,batch.resumeToken,batch.complete.getD false,result⟩

theorem Committed.importBatch {batch : HistoryImportBatch} {result : HistoryImportResult}
    (h : Committed p decoder importId l batch result) (hpin : ¬ ∃ streamName, l.erased streamName ≠ none) :
    l.importBatch p batch decoder = (l,.ok {result with status := .unchanged}) := by
  obtain ⟨ids,hprepare⟩ := h.prepared
  obtain ⟨-,hevents,-⟩ := prepareHistoryImportBatch_ok hprepare
  have hlast := List.getLast?_eq_some_getLast hevents
  rw [EventLog.importBatch,hprepare,hlast]
  dsimp only
  rw [if_neg hpin,h.sameImport,h.recorded]
  dsimp only
  rw [retried,if_neg (by simp)]

/-- How far an import of a history in parts has come since the log was `start`. -/
structure Midway (p : ImportPrimitives) (decoder : HistoryEventDecoder) (batch : HistoryImportBatch)
    (start l : EventLog) (remaining : List HistoryImportBatch) (token : Option String)
    (committed : List (HistoryImportBatch × HistoryImportResult)) : Prop where
  unpinned : ¬ ∃ streamName, l.erased streamName ≠ none
  erased : l.erased = start.erased
  others : ∀ importId, importId ≠ batch.importId → l.sessions importId = start.sessions importId
  committed : ∀ c ∈ committed, Committed p decoder batch.importId l c.1 c.2
  fresh : ∀ part ∈ remaining, l.batches batch.importId part.batchId = none
  ids : (remaining.map HistoryImportBatch.batchId).Nodup
  ahead : (∃ before rest, batch.events = before ++ rest ∧ l.log = start.log ++ before ∧
      Splits p batch rest remaining ∧ Ready p decoder batch.importId l token rest) ∨
    (remaining = [] ∧ l.log = start.log ++ batch.events ∧
      ∃ resumeToken lastEvent, batch.events.getLast? = some lastEvent ∧
        l.sessions batch.importId = some ⟨resumeToken,lastEvent.position,batch.complete.getD false⟩)

theorem Midway.next (hw : l.WellFormed) {batch part : HistoryImportBatch} {start : EventLog}
    {parts : List HistoryImportBatch} {committed : List (HistoryImportBatch × HistoryImportResult)}
    (h : Midway p decoder batch start l (part :: parts) token committed) :
    ∃ lastEvent, part.events.getLast? = some lastEvent ∧
      l.importBatch p {part with resumeToken := token} decoder =
        ((l.commit p {part with resumeToken := token} lastEvent.position).1,
          .ok (l.commit p {part with resumeToken := token} lastEvent.position).2) ∧
      Midway p decoder batch start (l.commit p {part with resumeToken := token} lastEvent.position).1 parts
        (some (l.commit p {part with resumeToken := token} lastEvent.position).2.resumeToken)
        (committed ++ [({part with resumeToken := token},
          (l.commit p {part with resumeToken := token} lastEvent.position).2)]) := by
  rcases h.ahead with ⟨before,events,hevents,hlog,hsplits,hready⟩ | ⟨hnil,-⟩
  swap
  · cases hnil
  obtain ⟨hpart,rest,rfl,hrest⟩ := hsplits.head
  have hpart' : PartOf p batch.importId {part with resumeToken := token} :=
    ⟨hpart.importId,hpart.batchId,hpart.events,hpart.checksum⟩
  have hready' : Ready p decoder batch.importId l token
      (({part with resumeToken := token} : HistoryImportBatch).events ++ rest) := hready
  have hnew := h.fresh part List.mem_cons_self
  obtain ⟨ids,lastEvent,hprepare,hlast,himport⟩ := hready'.importBatch hpart' rfl hnew
  refine ⟨lastEvent,hlast,himport,?_⟩
  have hids := List.nodup_cons.mp h.ids
  constructor
  · exact h.unpinned
  · exact h.erased
  · intro importId hn
    have hn' : importId ≠ part.importId := hpart.importId ▸ hn
    simp only [EventLog.commit,Function.update_of_ne hn']
    exact h.others importId hn
  · intro c hc
    rcases List.mem_append.mp hc with hc | hc
    · have hold := h.committed c hc
      refine ⟨hold.sameImport,hold.prepared,?_⟩
      rw [commit_batches hpart'.importId]
      · exact hold.recorded
      · intro heq
        have hsome := hold.recorded
        rw [heq,hnew] at hsome
        cases hsome
    · obtain rfl := List.mem_singleton.mp hc
      exact ⟨hpart.importId,⟨ids,hprepare⟩,commit_recorded hpart'.importId ..⟩
  · intro other hmem
    rw [commit_batches hpart'.importId]
    · exact h.fresh other (List.mem_cons_of_mem part hmem)
    · intro heq
      exact hids.1 (heq ▸ List.mem_map_of_mem hmem)
  · exact hids.2
  · have hlog' : (l.commit p {part with resumeToken := token} lastEvent.position).1.log =
        start.log ++ (before ++ part.events) := by
      rw [← List.append_assoc,← hlog]
      rfl
    rcases hrest with ⟨rfl,hparts,hcomplete⟩ | ⟨hcomplete,hsplits⟩
    · right
      rw [List.append_nil] at hevents
      have hsession := commit_session (p := p) hpart'.importId l lastEvent.position
      rw [hcomplete] at hsession
      refine ⟨hparts,hevents ▸ hlog',_,lastEvent,?_,hsession⟩
      rw [hevents,List.getLast?_append,hlast]
      rfl
    · left
      refine ⟨before ++ part.events,rest,?_,hlog',hsplits,?_⟩
      · rw [List.append_assoc]
        exact hevents
      · exact hready'.commit hw hpart' hcomplete hlast

theorem Midway.start {batch : HistoryImportBatch} {parts : List HistoryImportBatch}
    (h : Ready p decoder batch.importId l batch.resumeToken batch.events)
    (hsplit : Splits p batch batch.events parts) (hids : (parts.map HistoryImportBatch.batchId).Nodup)
    (hfresh : ∀ part ∈ parts, l.batches batch.importId part.batchId = none) :
    Midway p decoder batch l l parts batch.resumeToken [] where
  unpinned := h.unpinned
  erased := rfl
  others _ _ := rfl
  committed _ hc := absurd hc List.not_mem_nil
  fresh := hfresh
  ids := hids
  ahead := Or.inl ⟨[],batch.events,rfl,(List.append_nil _).symm,hsplit,h⟩

end EventLog

/-- A client on its way through the parts of a history. -/
structure Importing where
  store : EventStoreState
  /-- The parts it has not submitted, their resume tokens still to be filled in. -/
  remaining : List HistoryImportBatch
  /-- The token of the latest committed part. -/
  token : Option String
  /-- The parts it has submitted, with their answers. -/
  committed : List (HistoryImportBatch × HistoryImportResult)

namespace Importing

inductive Label where
  | next
  | again (i : ℕ)
  | other (batch : HistoryImportBatch) (decoder : HistoryEventDecoder)

def step (p : ImportPrimitives) (decoder : HistoryEventDecoder) (x : Importing) : Label → Option Importing
  | .next =>
    match x.remaining with
    | [] => none
    | part :: parts =>
      let batch := {part with resumeToken := x.token}
      match x.store.importBatch p batch decoder with
      | (store,.error _) => some {x with store := store}
      | (store,.ok result) => some ⟨store,parts,some result.resumeToken,x.committed ++ [(batch,result)]⟩
  | .again i => (x.committed[i]?).map fun c => {x with store := (x.store.importBatch p c.1 decoder).1}
  | .other batch decoder => some {x with store := (x.store.importBatch p batch decoder).1}

/-- The parts in turn, committed ones again at any time, and other imports. -/
def runs (p : ImportPrimitives) (decoder : HistoryEventDecoder) (store : EventStoreState)
    (token : Option String) (parts : List HistoryImportBatch) : System Importing Label :=
  ⟨⟨store,parts,token,[]⟩,step p decoder⟩

def OthersFail (p : ImportPrimitives) (x : Importing) : Label → Prop
  | .other batch decoder => ∃ e, (x.store.importBatch p batch decoder).2 = .error e
  | _ => True

end Importing

namespace EventStoreState
variable {s : EventStoreState}

theorem importBatch_unchanged {batch : HistoryImportBatch} {result : HistoryImportResult}
    (h : (s.importBatch p batch decoder).2 = .ok result) (hu : result.status = .unchanged) :
    (s.importBatch p batch decoder).1 = s := by
  revert h
  unfold importBatch
  split
  · exact fun _ => rfl
  · exact fun _ => rfl
  dsimp only
  split
  · exact fun _ => rfl
  split
  · split <;> exact fun _ => rfl
  split
  · exact fun _ => rfl
  split
  · exact fun _ => rfl
  · intro h
    obtain rfl := Except.ok.inj h
    cases hu

/-- Two stores with the same events, ledger and sessions, the tokens of one import apart. -/
structure SameImport (importId : String) (s s' : EventStoreState) : Prop where
  all : s.all = s'.all
  streams : ∀ streamName, s.stream streamName = s'.stream streamName
  erased : ∀ streamName, s.erased.lookup streamName = s'.erased.lookup streamName
  session : (s.imports.lookup importId).map (fun session => (session.lastPosition,session.complete)) =
    (s'.imports.lookup importId).map fun session => (session.lastPosition,session.complete)
  sessions : ∀ other, other ≠ importId → s.imports.lookup other = s'.imports.lookup other

end EventStoreState

namespace Importing
open EventStoreState EventLog
variable {batch : HistoryImportBatch} {start : EventLog} {x y : Importing}

/-- The store is consistent and holds the history up to the next part. -/
def Holds (p : ImportPrimitives) (decoder : HistoryEventDecoder) (batch : HistoryImportBatch)
    (start : EventLog) (x : Importing) : Prop :=
  x.store.Consistent ∧ Midway p decoder batch start x.store.log x.remaining x.token x.committed

theorem Holds.again (h : Holds p decoder batch start x) {c : HistoryImportBatch × HistoryImportResult}
    (hc : c ∈ x.committed) :
    x.store.importBatch p c.1 decoder = (x.store,.ok {c.2 with status := .unchanged}) := by
  have hr := importBatch_refines (p := p) h.1.mirrors h.1.wellFormed c.1 decoder
  have hanswer := hr.answer
  rw [(h.2.committed c hc).importBatch h.2.unpinned] at hanswer
  exact Prod.ext (importBatch_unchanged hanswer rfl) hanswer

theorem step_next {part : HistoryImportBatch} {parts : List HistoryImportBatch}
    (hx : x.remaining = part :: parts) {store : EventStoreState} {result : HistoryImportResult}
    (h : x.store.importBatch p {part with resumeToken := x.token} decoder = (store,.ok result)) :
    step p decoder x .next = some ⟨store,parts,some result.resumeToken,
      x.committed ++ [({part with resumeToken := x.token},result)]⟩ := by
  simp only [Importing.step,hx,h]

theorem reaches_next {s : EventStoreState} {token : Option String} {all : List HistoryImportBatch}
    (hr : (runs p decoder s token all).Reaches (OthersFail p) x) {part : HistoryImportBatch}
    {parts : List HistoryImportBatch} (hx : x.remaining = part :: parts) {store : EventStoreState}
    {result : HistoryImportResult}
    (h : x.store.importBatch p {part with resumeToken := x.token} decoder = (store,.ok result)) :
    (runs p decoder s token all).Reaches (OthersFail p) ⟨store,parts,some result.resumeToken,
      x.committed ++ [({part with resumeToken := x.token},result)]⟩ :=
  hr.step (l := .next) trivial (step_next hx h)

theorem Holds.next (h : Holds p decoder batch start x) {part : HistoryImportBatch}
    {parts : List HistoryImportBatch} (hx : x.remaining = part :: parts) :
    ∃ store result, x.store.importBatch p {part with resumeToken := x.token} decoder = (store,.ok result) ∧
      result.status = .imported ∧ result.importedCount = part.events.length ∧
      result.complete = part.complete.getD false ∧
      Holds p decoder batch start
        ⟨store,parts,some result.resumeToken,x.committed ++ [({part with resumeToken := x.token},result)]⟩ := by
  have hmid := h.2
  rw [hx] at hmid
  obtain ⟨lastEvent,-,himport,hnext⟩ := hmid.next h.1.wellFormed
  have hr := importBatch_refines (p := p) h.1.mirrors h.1.wellFormed {part with resumeToken := x.token} decoder
  have hconsistent := h.1.write (p := p) (.importBatch {part with resumeToken := x.token} decoder)
  have hlog := hr.log
  have hanswer := hr.answer
  rw [himport] at hlog hanswer
  refine ⟨_,_,Prod.ext rfl hanswer,rfl,rfl,rfl,hconsistent,?_⟩
  dsimp only
  rw [hlog]
  exact hnext

theorem Holds.step (h : Holds p decoder batch start x) {label : Label} (hl : OthersFail p x label)
    (hs : step p decoder x label = some y) : Holds p decoder batch start y := by
  cases label with
  | next =>
    cases hx : x.remaining with
    | nil =>
      simp only [Importing.step,hx] at hs
      cases hs
    | cons part parts =>
      obtain ⟨store,result,himport,-,-,-,hnext⟩ := h.next hx
      obtain rfl := Option.some.inj ((step_next hx himport).symm.trans hs)
      exact hnext
  | again i =>
    obtain ⟨c,hc,rfl⟩ := Option.map_eq_some_iff.mp hs
    rw [h.again (List.mem_of_getElem? hc)]
    exact h
  | other batch' decoder' =>
    obtain rfl := Option.some.inj hs
    obtain ⟨e,he⟩ := hl
    have hfailed : failed (x.store.importBatch p batch' decoder').2 ≠ none := by
      rw [he]
      exact Option.some_ne_none e
    have hsame := importBatch_failed hfailed
    rw [hsame]
    exact h

theorem Holds.sameImport {s : EventStoreState} (hs : s.Consistent) (h : Holds p decoder batch s.log x)
    (hx : x.remaining = []) {lastEvent : StoredEvent} (hlast : batch.events.getLast? = some lastEvent)
    (hone : s.log.importBatch p batch decoder = ((s.log.commit p batch lastEvent.position).1,
      .ok (s.log.commit p batch lastEvent.position).2)) :
    SameImport batch.importId x.store (s.importBatch p batch decoder).1 := by
  have hr := importBatch_refines (p := p) hs.mirrors hs.wellFormed batch decoder
  have hlog := hr.log
  rw [hone] at hlog
  have hall : x.store.log.log = (s.importBatch p batch decoder).1.log.log := by
    rw [hlog]
    rcases h.2.ahead with ⟨_,_,-,-,hsplits,-⟩ | ⟨-,hend,-⟩
    · rw [hx] at hsplits
      cases hsplits
    · exact hend
  constructor
  · exact hall
  · intro streamName
    rw [h.1.mirrors streamName,hr.mirrors streamName]
    exact congrArg (streamOf · streamName) hall
  · intro streamName
    have herased := congrArg (fun l => l.erased streamName) hlog
    exact (congrFun h.2.erased streamName).trans herased.symm
  · have hsession : (s.log.commit p batch lastEvent.position).1.sessions batch.importId =
        some ⟨historyImportResumeToken p batch lastEvent.position,lastEvent.position,batch.complete.getD false⟩ :=
      commit_session rfl s.log lastEvent.position
    rw [← hlog] at hsession
    rcases h.2.ahead with ⟨_,_,-,-,hsplits,-⟩ | ⟨-,-,token,lastEvent',hlast',hend⟩
    · rw [hx] at hsplits
      cases hsplits
    · obtain rfl := Option.some.inj (hlast.symm.trans hlast')
      rw [show x.store.imports.lookup batch.importId = _ from hend,
        show (s.importBatch p batch decoder).1.imports.lookup batch.importId = _ from hsession]
      rfl
  · intro other hn
    have hsame : (s.log.commit p batch lastEvent.position).1.sessions other = s.log.sessions other :=
      Function.update_of_ne hn ..
    rw [← hlog] at hsame
    exact (h.2.others other hn).trans hsame.symm

/-- A history that imports in one batch imports in any parts, submitted in turn and again at any
time: no part is refused, a committed one is answered with its counts and token, and the store ends
as after the one batch. An import that fails leaves the store alone. -/
theorem split_import {s : EventStoreState} (hs : (writes p).Reachable s) {result : HistoryImportResult}
    (hone : (s.importBatch p batch decoder).2 = .ok result) (hi : result.status = .imported)
    {parts : List HistoryImportBatch} (hsplit : Splits p batch batch.events parts)
    (hids : (parts.map HistoryImportBatch.batchId).Nodup)
    (hfresh : ∀ part ∈ parts,
      s.importBatches.lookup (importBatchKey batch.importId part.batchId) = none) :
    (∀ x, (runs p decoder s batch.resumeToken parts).Reaches (OthersFail p) x →
      (∀ part rest, x.remaining = part :: rest → ∃ store result',
        x.store.importBatch p {part with resumeToken := x.token} decoder = (store,.ok result') ∧
          result'.status = .imported ∧ result'.importedCount = part.events.length ∧
          result'.complete = part.complete.getD false) ∧
      (∀ c ∈ x.committed,
        x.store.importBatch p c.1 decoder = (x.store,.ok {c.2 with status := .unchanged})) ∧
      (x.remaining = [] → SameImport batch.importId x.store (s.importBatch p batch decoder).1)) ∧
    ∀ (s' : EventStoreState) batch' decoder' e, (s'.importBatch p batch' decoder').2 = .error e →
      (s'.importBatch p batch' decoder').1 = s' := by
  have hc := consistent_of_reachable hs
  have hr := importBatch_refines (p := p) hc.mirrors hc.wellFormed batch decoder
  obtain ⟨hready,lastEvent,hlast,himport⟩ := ready_of_imported (hr.answer.symm.trans hone) hi
  constructor
  · intro x hx
    have hholds : Holds p decoder batch s.log x := by
      refine hx.invariant (Holds p decoder batch s.log) ?_ ?_
      · exact ⟨hc,Midway.start hready hsplit hids hfresh⟩
      · intro a label b ha hl hs
        exact ha.step hl hs
    refine ⟨?_,?_,?_⟩
    · intro part rest hremaining
      obtain ⟨store,result',himport,hstatus,hcount,hcomplete,-⟩ := hholds.next hremaining
      exact ⟨store,result',himport,hstatus,hcount,hcomplete⟩
    · intro c hmem
      exact hholds.again hmem
    · intro hnil
      exact hholds.sameImport hc hnil hlast himport
  · intro s' batch' decoder' e he
    refine importBatch_failed ?_
    rw [he]
    exact Option.some_ne_none e

def orderEvent (version : ℤ) (eventId : String) : StoredEvent :=
  ⟨version,"order-1",version,"Placed",1,.str "new",{
    eventId := eventId, occurredAt := "2024-05-01T00:00:00.000Z", aggregateName := "order"
    aggregateId := "1", aggregateVersion := Decimal.ofInt version }⟩

def firstOrder : HistoryImportBatch :=
  ⟨"orders","first",[orderEvent 1 "e1"],checksum noImports [orderEvent 1 "e1"],none,none⟩

def secondOrder : HistoryImportBatch :=
  ⟨"orders","second",[orderEvent 2 "e2"],checksum noImports [orderEvent 2 "e2"],none,some true⟩

def orderHistory : HistoryImportBatch :=
  ⟨"orders","all",[orderEvent 1 "e1",orderEvent 2 "e2"],
    checksum noImports [orderEvent 1 "e1",orderEvent 2 "e2"],none,some true⟩

theorem orders_split : Splits noImports orderHistory orderHistory.events [firstOrder,secondOrder] := by
  have hfirst : PartOf noImports orderHistory.importId firstOrder :=
    ⟨rfl,by decide,List.cons_ne_nil _ _,rfl⟩
  have hsecond : PartOf noImports orderHistory.importId secondOrder :=
    ⟨rfl,by decide,List.cons_ne_nil _ _,rfl⟩
  exact .cons hfirst rfl (.last hsecond rfl)

theorem orderHistory_ready :
    Ready noImports (fun _ => none) orderHistory.importId EventLog.empty orderHistory.resumeToken
      (orderHistory.events ++ []) where
  named := by decide
  unpinned := by simp [EventLog.empty]
  prepared := ⟨_,rfl⟩
  continues := rfl
  resumes batch _ ht := by
    rw [EventLog.resumes,ht]
    rfl

theorem split_import_orders :
    ∃ x, (runs noImports (fun _ => none) EventStoreState.empty none [firstOrder,secondOrder]).Reaches
        (OthersFail noImports) x ∧ x.remaining = [] ∧
      SameImport "orders" x.store
        (EventStoreState.empty.importBatch noImports orderHistory fun _ => none).1 := by
  have hpart : PartOf noImports orderHistory.importId orderHistory :=
    ⟨rfl,by decide,List.cons_ne_nil _ _,rfl⟩
  obtain ⟨-,lastEvent,-,-,himport⟩ := orderHistory_ready.importBatch hpart rfl rfl
  have hr := importBatch_refines (p := noImports) consistent_empty.mirrors consistent_empty.wellFormed
    orderHistory fun _ => none
  have hone : (EventStoreState.empty.importBatch noImports orderHistory fun _ => none).2 =
      .ok (EventLog.empty.commit noImports orderHistory lastEvent.position).2 :=
    hr.answer.trans (congrArg Prod.snd himport)
  have hempty : (writes noImports).Reachable EventStoreState.empty := Relation.ReflTransGen.refl
  have hids : ([firstOrder,secondOrder].map HistoryImportBatch.batchId).Nodup := by decide
  have r0 : (runs noImports (fun _ => none) EventStoreState.empty none [firstOrder,secondOrder]).Reaches
      (OthersFail noImports) ⟨EventStoreState.empty,[firstOrder,secondOrder],none,[]⟩ :=
    Relation.ReflTransGen.refl
  have hall := (split_import hempty hone rfl orders_split hids fun _ _ => rfl).1
  obtain ⟨store,result,hfirst,-⟩ := (hall _ r0).1 _ _ rfl
  have r1 := reaches_next r0 rfl hfirst
  obtain ⟨store',result',hsecond,-⟩ := (hall _ r1).1 _ _ rfl
  have r2 := reaches_next r1 rfl hsecond
  exact ⟨_,r2,rfl,(hall _ r2).2.2 rfl⟩

end Importing
end StructureAi.EventSourcing

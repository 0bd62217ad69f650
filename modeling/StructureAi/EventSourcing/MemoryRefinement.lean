import StructureAi.EventSourcing.Memory

/-! # The in-memory event store keeps an event log

`EventStoreState.log` reads the abstract log off the list of all events. As long
as the map of streams mirrors that list, every operation of the store is the
operation of the log.
-/
namespace StructureAi.EventSourcing
open StructureAi.Foundation

theorem utf16Units_ne_nil (c : Char) : utf16Units c ≠ [] := by
  unfold utf16Units
  split <;> simp

theorem eq_of_append_of_utf16Length {xs ys us vs : List Char} (h : xs ++ us = ys ++ vs)
    (hl : (xs.flatMap utf16Units).length = (ys.flatMap utf16Units).length) : xs = ys := by
  induction xs generalizing ys with
  | nil =>
    cases ys with
    | nil => rfl
    | cons y ys =>
      have hy := List.length_pos_of_ne_nil (utf16Units_ne_nil y)
      simp only [List.flatMap_nil,List.length_nil,List.flatMap_cons,List.length_append] at hl
      omega
  | cons x xs ih =>
    cases ys with
    | nil =>
      have hx := List.length_pos_of_ne_nil (utf16Units_ne_nil x)
      simp only [List.flatMap_nil,List.length_nil,List.flatMap_cons,List.length_append] at hl
      omega
    | cons y ys =>
      obtain ⟨rfl,ht⟩ := List.cons.inj h
      simp only [List.flatMap_cons,List.length_append] at hl
      rw [ih ht (by omega)]

theorem importBatchKey_inj {i b i' b' : String} (h : importBatchKey i b = importBatchKey i' b') :
    i = i' ∧ b = b' := by
  have hl : Nat.toDigits 10 (utf16Length i) ++ ':' :: (i.toList ++ b.toList) =
      Nat.toDigits 10 (utf16Length i') ++ ':' :: (i'.toList ++ b'.toList) := by
    simpa [importBatchKey,Nat.toString_eq_repr,String.toList_append] using congrArg String.toList h
  have hsplit : ∀ n rest, (Nat.toDigits 10 n ++ ':' :: rest).takeWhile Char.isDigit =
      Nat.toDigits 10 n := fun n rest => takeWhile_digits (isDigit_toDigits n) (by simp)
  have hd := congrArg (List.takeWhile Char.isDigit) hl
  rw [hsplit,hsplit] at hd
  rw [hd,List.append_cancel_left_eq,List.cons.injEq] at hl
  have hn := congrArg (fun ds => Nat.ofDigitChars 10 ds 0) hd
  simp only [Nat.ofDigitChars_ten_toDigits] at hn
  have hi := eq_of_append_of_utf16Length hl.2 hn
  refine ⟨String.toList_injective hi,String.toList_injective ?_⟩
  rw [hi] at hl
  exact List.append_cancel_left hl.2

theorem JsMap.length_pos_iff {V : Type} (m : JsMap V) :
    m.entries.length > 0 ↔ ∃ k, m.lookup k ≠ none := by
  constructor
  · intro h
    obtain ⟨e,he⟩ := List.exists_mem_of_length_pos h
    exact ⟨e.1,by rw [AList.mem_lookup_iff.mpr he]; simp⟩
  · rintro ⟨k,hk⟩
    obtain ⟨v,hv⟩ := Option.ne_none_iff_exists'.mp hk
    exact List.length_pos_of_mem (AList.mem_lookup_iff.mp hv)

namespace EventStoreState
variable {p : ImportPrimitives} {s : EventStoreState}

def log (s : EventStoreState) : EventLog where
  log := s.all
  erased streamName := s.erased.lookup streamName
  sessions importId := s.imports.lookup importId
  batches importId batchId := s.importBatches.lookup (importBatchKey importId batchId)

/-- The map of streams holds the sublists of the list of all events. -/
def Mirrors (s : EventStoreState) : Prop := ∀ streamName, s.stream streamName = streamOf s.all streamName

theorem mirrors_empty : empty.Mirrors := fun _ => rfl

theorem Mirrors.stream_eq (h : s.Mirrors) (streamName : String) :
    s.stream streamName = s.log.stream streamName := h streamName

@[simp] theorem lookup_insert_getD (m : JsMap (List StoredEvent)) (streamName other : String)
    (events : List StoredEvent) :
    ((m.insert streamName events).lookup other).getD [] =
      if other = streamName then events else (m.lookup other).getD [] := by
  by_cases h : other = streamName
  · subst h
    rw [AList.lookup_insert,if_pos rfl,Option.getD_some]
  · rw [AList.lookup_insert_ne h,if_neg h]

/-- A step of the store that is a step of its log with the same answer. -/
structure Refines {R : Type} (step : EventStoreState × R) (abstract : EventLog × R) : Prop where
  log : step.1.log = abstract.1
  answer : step.2 = abstract.2
  mirrors : step.1.Mirrors

theorem Mirrors.refused {R : Type} (h : s.Mirrors) (answer : R) : Refines (s,answer) (s.log,answer) :=
  ⟨rfl,rfl,h⟩

theorem append_refines (h : s.Mirrors) (streamName : String) (expectedVersion : ℤ)
    (events : List AppendEvent) :
    Refines (s.append streamName expectedVersion events)
      (s.log.append streamName expectedVersion events) := by
  have hv : ((s.stream streamName).length : ℤ) = s.log.version streamName := by
    rw [h.stream_eq]
    rfl
  simp only [append,EventLog.append,hv]
  cases hr : s.erased.lookup streamName with
  | some record =>
    simp only [show s.log.erased streamName = some record from hr]
    exact h.refused _
  | none =>
    simp only [show s.log.erased streamName = none from hr]
    split
    · exact h.refused _
    split
    · exact h.refused _
    refine ⟨rfl,rfl,fun other => ?_⟩
    have hs := h other
    simp only [stream] at hs ⊢
    rw [streamOf_append]
    by_cases hn : other = streamName
    · subst hn
      rw [streamOf_stampFrom_self,← hs]
      cases hl : s.streams.lookup other with
      | none => simp
      | some stream => simp
    · rw [streamOf_stampFrom_ne hn,List.append_nil,← hs]
      cases s.streams.lookup streamName with
      | none => simp [hn]
      | some stream => simp [hn]

theorem foldl_streams (events : List StoredEvent) (streams : JsMap (List StoredEvent))
    (streamName : String) :
    ((events.foldl (fun m e => m.insert e.streamName ((m.lookup e.streamName).getD [] ++ [e]))
        streams).lookup streamName).getD [] =
      (streams.lookup streamName).getD [] ++ streamOf events streamName := by
  induction events generalizing streams with
  | nil => simp [streamOf]
  | cons e es ih =>
    rw [List.foldl_cons,ih,lookup_insert_getD]
    by_cases hn : e.streamName = streamName
    · subst hn
      simp [streamOf]
    · rw [if_neg (Ne.symm hn),streamOf,streamOf,List.filter_cons_of_neg (by simpa using hn)]

theorem lookup_insert_eq_update {V : Type} (m : JsMap V) (k : String) (v : V) :
    (fun k' => (m.insert k v).lookup k') = Function.update (fun k' => m.lookup k') k (some v) := by
  funext k'
  by_cases h : k' = k
  · subst h
    rw [AList.lookup_insert,Function.update_self]
  · rw [AList.lookup_insert_ne h,Function.update_of_ne h]

theorem batches_insert (m : JsMap HistoryImportBatchRecord) (importId batchId : String)
    (record : HistoryImportBatchRecord) :
    (fun i b => (m.insert (importBatchKey importId batchId) record).lookup (importBatchKey i b)) =
      Function.update (fun i b => m.lookup (importBatchKey i b)) importId
        (Function.update (fun b => m.lookup (importBatchKey importId b)) batchId (some record)) := by
  funext i b
  by_cases hi : i = importId
  · subst hi
    rw [Function.update_self]
    by_cases hb : b = batchId
    · subst hb
      rw [AList.lookup_insert,Function.update_self]
    · rw [Function.update_of_ne hb,AList.lookup_insert_ne]
      exact fun h => hb (importBatchKey_inj h).2
  · rw [Function.update_of_ne hi,AList.lookup_insert_ne]
    exact fun h => hi (importBatchKey_inj h).1

theorem sessionCheck_eq (hw : s.log.WellFormed) (batch : HistoryImportBatch) :
    s.sessionCheck batch = s.log.resumes batch := by
  have hp : Numbered StoredEvent.position s.all := hw.positions
  simp only [sessionCheck,EventLog.resumes]
  cases hs : s.imports.lookup batch.importId with
  | none =>
    simp only [show s.log.sessions batch.importId = none from hs]
    have hne : s.all.length > 0 ↔ s.log.log ≠ [] := List.length_pos_iff
    simp only [hne]
  | some session =>
    simp only [show s.log.sessions batch.importId = some session from hs]
    have hstart := hw.started _ _ hs
    have hlast := hp.last
    have hpos : s.all.getLast?.map StoredEvent.position ≠ some session.lastPosition ↔
        (s.log.log.length : ℤ) ≠ session.lastPosition := by
      change _ ↔ (s.all.length : ℤ) ≠ _
      cases hg : s.all.getLast?.map StoredEvent.position with
      | none =>
        rw [hg,Option.getD_none] at hlast
        simp only [ne_eq,reduceCtorEq,not_false_eq_true,true_iff]
        omega
      | some position =>
        rw [hg,Option.getD_some] at hlast
        rw [ne_eq,Option.some.injEq,hlast,zero_add]
    simp only [hpos]

theorem importBatch_refines (h : s.Mirrors) (hw : s.log.WellFormed) (batch : HistoryImportBatch)
    (decoder : HistoryEventDecoder) :
    Refines (s.importBatch p batch decoder) (s.log.importBatch p batch decoder) := by
  have hpin : s.erased.entries.length > 0 ↔ ∃ streamName, s.log.erased streamName ≠ none :=
    JsMap.length_pos_iff s.erased
  unfold importBatch EventLog.importBatch
  cases prepareHistoryImportBatch p batch decoder with
  | error e => exact h.refused _
  | ok ids =>
    cases batch.events.getLast? with
    | none => exact h.refused _
    | some lastEvent =>
      by_cases he : ∃ streamName, s.log.erased streamName ≠ none
      · simp only [if_pos (hpin.mpr he),if_pos he]
        exact h.refused _
      simp only [if_neg (fun hlen => he (hpin.mp hlen)),if_neg he]
      cases hb : s.importBatches.lookup (importBatchKey batch.importId batch.batchId) with
      | some recorded =>
        simp only [show s.log.batches batch.importId batch.batchId = some recorded from hb,
          EventLog.retried]
        split
        · exact h.refused _
        · exact h.refused _
      | none =>
        simp only [show s.log.batches batch.importId batch.batchId = none from hb,sessionCheck_eq hw]
        cases s.log.resumes batch with
        | error e => exact h.refused _
        | ok _ =>
          have hval : validateHistoryImportContinuation batch.events (historyImportTarget s.all) =
            validateHistoryImportContinuation batch.events (historyImportTarget s.log.log) := rfl
          simp only [hval]
          cases validateHistoryImportContinuation batch.events (historyImportTarget s.log.log) with
          | error e => exact h.refused _
          | ok _ =>
            refine ⟨?_,rfl,fun streamName => ?_⟩
            · simp only [log,EventLog.commit,EventLog.extend,lookup_insert_eq_update,batches_insert]
            · simp only [stream]
              rw [foldl_streams,streamOf_append,← h streamName]
              rfl

theorem find_tombstone (hw : s.log.WellFormed) {streamName : String} (erasedAt : String)
    {e : StoredEvent} (he : e ∈ streamOf s.all streamName) :
    (((streamOf s.all streamName).map fun e => e.erase erasedAt).reverse.find?
      fun t => t.version = e.version) = some (e.erase erasedAt) := by
  have hv : Numbered StoredEvent.version (streamOf s.all streamName) := hw.versions streamName
  have hmem : e.erase erasedAt ∈ ((streamOf s.all streamName).map fun e => e.erase erasedAt).reverse :=
    List.mem_reverse.mpr (List.mem_map_of_mem he)
  cases hf : ((streamOf s.all streamName).map fun e => e.erase erasedAt).reverse.find?
      fun t => t.version = e.version with
  | none =>
    have hne := List.find?_eq_none.mp hf _ hmem
    simp at hne
  | some t =>
    have ht := List.find?_some hf
    obtain ⟨e',he',rfl⟩ := List.mem_map.mp (List.mem_reverse.mp (List.mem_of_find?_eq_some hf))
    rw [hv.eq_of_number he' he (of_decide_eq_true ht)]

theorem eraseUnderLock_refines (h : s.Mirrors) (hw : s.log.WellFormed) {request : StreamErasureRequest}
    (erasedAt : String) (hr : prepareStreamErasure request = .ok ()) :
    Refines (s.eraseUnderLock request erasedAt) (s.log.eraseStream request erasedAt) := by
  have hv : ((s.stream request.streamName).length : ℤ) = s.log.version request.streamName := by
    rw [h.stream_eq]
    rfl
  simp only [eraseUnderLock,EventLog.eraseStream,hr,hv]
  cases hl : s.erased.lookup request.streamName with
  | some recorded =>
    simp only [show s.log.erased request.streamName = some recorded from hl]
    split
    · exact h.refused _
    · exact h.refused _
  | none =>
    simp only [show s.log.erased request.streamName = none from hl]
    split
    · exact h.refused _
    have htomb : (s.stream request.streamName).map (fun event =>
        (erasedTombstone request.streamName event.version erasedAt).stored event.position
          event.streamName event.version) =
        (streamOf s.all request.streamName).map fun e => e.erase erasedAt := by
      rw [h request.streamName]
      refine List.map_congr_left fun e he => ?_
      have hn : e.streamName = request.streamName := by
        simpa [streamOf] using (List.mem_filter.mp he).2
      rw [StoredEvent.erase,hn]
    have hall : (s.all.map fun event => if event.streamName ≠ request.streamName then event else
        (((streamOf s.all request.streamName).map fun e => e.erase erasedAt).reverse.find?
          fun t => t.version = event.version).getD event) =
        EventLog.eraseIn request.streamName erasedAt s.all := by
      refine List.map_congr_left fun e he => ?_
      by_cases hn : e.streamName = request.streamName
      · have hs : e ∈ streamOf s.all request.streamName := List.mem_filter.mpr ⟨he,by simpa using hn⟩
        rw [if_neg (not_not.mpr hn),if_pos hn,find_tombstone hw erasedAt hs,Option.getD_some]
      · rw [if_pos hn,if_neg hn]
    simp only [htomb,hall]
    refine ⟨?_,rfl,fun other => ?_⟩
    · simp only [log,EventLog.pin,lookup_insert_eq_update]
    · simp only [stream,lookup_insert_getD,streamOf_eraseIn]
      split
      next hn => rw [hn,eraseIn_streamOf_self]
      next hn =>
        rw [eraseIn_streamOf_ne hn]
        exact h other

theorem eraseStream_refines (h : s.Mirrors) (hw : s.log.WellFormed) (request : StreamErasureRequest)
    (erasedAt : String) (snapshotRemoval : Option PersistenceError) :
    (s.eraseStream request erasedAt snapshotRemoval).1.log = (s.log.eraseStream request erasedAt).1 ∧
      (s.eraseStream request erasedAt snapshotRemoval).1.Mirrors ∧
      (snapshotRemoval = none →
        (s.eraseStream request erasedAt snapshotRemoval).2 = (s.log.eraseStream request erasedAt).2) := by
  cases hr : prepareStreamErasure request with
  | error e =>
    have hs : s.eraseStream request erasedAt snapshotRemoval = (s,.error (.streamErasure e)) := by
      simp only [eraseStream,hr]
    have ha : s.log.eraseStream request erasedAt = (s.log,.error (.streamErasure e)) := by
      simp only [EventLog.eraseStream,hr]
    rw [hs,ha]
    exact ⟨rfl,h,fun _ => rfl⟩
  | ok _ =>
    obtain ⟨hl,ha,hm⟩ := eraseUnderLock_refines h hw erasedAt hr
    simp only [eraseStream,hr]
    generalize s.eraseUnderLock request erasedAt = step at hl ha hm ⊢
    obtain ⟨s',answer⟩ := step
    cases answer with
    | error e => exact ⟨hl,hm,fun _ => ha⟩
    | ok result =>
      cases snapshotRemoval with
      | none => exact ⟨hl,hm,fun _ => ha⟩
      | some e => exact ⟨hl,hm,fun hn => by cases hn⟩

end EventStoreState
end StructureAi.EventSourcing

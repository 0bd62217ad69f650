import StructureAi.EventSourcing.Snapshots
import StructureAi.Sqlite.Agreement

/-! # Snapshots do not show

Without erasures every snapshot is the fold of the first events of its stream, so a
load that starts from one ends where a load from the beginning ends. A run with
snapshots is a run without a snapshot store, its accesses to that store left out.
-/
namespace StructureAi.EventSourcing
open StructureAi.Foundation StructureAi.Sqlite
variable {State Command Event Err : Type}

namespace AggregateKind
variable (kind : AggregateKind State Command Event Err)

/-- The state and the version after some events, as `loadFrom` folds them. -/
def fold (start : State × ℤ) (events : List StoredEvent) : Except EventDecodeError (State × ℤ) :=
  events.foldlM (fun loaded stored => (kind.registry.decode stored.serialized).map fun event =>
    (kind.aggregate.evolve loaded.1 event,stored.version)) start

/-- The fold of the first `version` events of the stream. -/
def FoldsTo (stream : List StoredEvent) (loaded : State × ℤ) : Prop :=
  ∃ n : ℕ, n ≤ stream.length ∧ loaded.2 = n ∧ kind.fold (kind.aggregate.initial,0) (stream.take n) = .ok loaded

variable {kind}

theorem fold_cons (start : State × ℤ) (stored : StoredEvent) (events : List StoredEvent) :
    kind.fold start (stored :: events) = (kind.registry.decode stored.serialized).bind fun event =>
      kind.fold (kind.aggregate.evolve start.1 event,stored.version) events := by
  rw [fold,List.foldlM_cons]
  cases kind.registry.decode stored.serialized <;> rfl

theorem fold_append (start : State × ℤ) (xs ys : List StoredEvent) :
    kind.fold start (xs ++ ys) = (kind.fold start xs).bind fun loaded => kind.fold loaded ys := by
  rw [fold,List.foldlM_append]
  rfl

theorem loadEvents_eq (snapshotEvery : Option ℤ) (start : (kind.runtime snapshotEvery).Loaded)
    (events : List StoredEvent) : (kind.runtime snapshotEvery).loadEvents start events =
      (kind.fold (start.state,start.version) events).map fun loaded =>
        ⟨loaded.1,loaded.2,start.snapshotVersion⟩ := by
  induction events generalizing start with
  | nil => rfl
  | cons stored events ih =>
    rw [Runtime.loadEvents,List.foldlM_cons,fold_cons]
    cases hd : kind.registry.decode stored.serialized with
    | error e => rfl
    | ok event => exact ih ⟨kind.aggregate.evolve start.state event,stored.version,start.snapshotVersion⟩

theorem fold_version {start loaded : State × ℤ} {events : List StoredEvent}
    (hn : NumberedFrom StoredEvent.version start.2 events) (h : kind.fold start events = .ok loaded) :
    loaded.2 = start.2 + events.length := by
  induction events generalizing start with
  | nil =>
    obtain rfl := Except.ok.inj h
    simp
  | cons stored events ih =>
    rw [fold_cons] at h
    cases hd : kind.registry.decode stored.serialized with
    | error e =>
      rw [hd] at h
      cases h
    | ok event =>
      rw [hd] at h
      obtain ⟨hv,hn⟩ := hn
      have hi : loaded.2 = stored.version + events.length := ih (hv ▸ hn) h
      rw [hi,hv,List.length_cons]
      push_cast
      ring

theorem foldsTo_zero (stream : List StoredEvent) : kind.FoldsTo stream (kind.aggregate.initial,0) :=
  ⟨0,Nat.zero_le _,rfl,rfl⟩

theorem FoldsTo.grow {stream : List StoredEvent} {loaded : State × ℤ} (h : kind.FoldsTo stream loaded)
    (added : List StoredEvent) : kind.FoldsTo (stream ++ added) loaded := by
  obtain ⟨n,hle,hv,hfold⟩ := h
  refine ⟨n,?_,hv,?_⟩
  · rw [List.length_append]
    omega
  · rw [List.take_append_of_le_length hle]
    exact hfold

theorem foldsTo_of_fold {stream : List StoredEvent} (hn : Numbered StoredEvent.version stream)
    {loaded : State × ℤ} (h : kind.fold (kind.aggregate.initial,0) stream = .ok loaded) :
    kind.FoldsTo stream loaded := by
  have hv : loaded.2 = 0 + stream.length := fold_version hn h
  refine ⟨stream.length,le_rfl,?_,?_⟩
  · rw [hv]
    simp
  · rw [List.take_length]
    exact h

theorem FoldsTo.resume {stream : List StoredEvent} (hn : Numbered StoredEvent.version stream)
    {loaded : State × ℤ} (h : kind.FoldsTo stream loaded) :
    kind.fold loaded (readOf stream (some (loaded.2 + 1))) =
      kind.fold (kind.aggregate.initial,0) stream := by
  obtain ⟨n,hle,hv,hfold⟩ := h
  have hrest : readOf stream (some (loaded.2 + 1)) = stream.drop n := by
    have hdrop := hn.filter_ge_eq_drop hle
    rw [zero_add] at hdrop
    rw [readOf,Option.getD_some,hv]
    exact hdrop
  rw [hrest,← List.take_append_drop n stream,fold_append,hfold,List.take_append_drop]
  rfl

theorem stamp_cons (snapshotEvery : Option ℤ) (id : String) (metadata : Option CommandMetadata)
    (env : Environment) (loadedVersion : ℤ) (index : ℕ) (event : Event) (events : List Event) :
    (kind.runtime snapshotEvery).stamp id metadata env loadedVersion index (event :: events) =
      (kind.registry.encode event).bind fun serialized =>
        ((kind.runtime snapshotEvery).stamp id metadata env loadedVersion (index + 1) events).bind
          fun rest => some (⟨serialized.type,serialized.schemaVersion,serialized.payload,
            (kind.runtime snapshotEvery).metadataOf id metadata env.occurredAt (env.eventIds index)
              (loadedVersion + index + 1)⟩ :: rest) := rfl

/-- The encoded events of an append fold to what `rehydrate` makes of the events. -/
theorem fold_stamped (hcodec : ∀ event serialized, kind.registry.encode event = some serialized →
      kind.registry.decode serialized = .ok event)
    {snapshotEvery : Option ℤ} {id : String} {metadata : Option CommandMetadata} {env : Environment}
    {loadedVersion : ℤ} {index : ℕ} {events : List Event} {toAppend : List AppendEvent}
    (hs : (kind.runtime snapshotEvery).stamp id metadata env loadedVersion index events = some toAppend)
    (streamName : String) (position : ℤ) (start : State × ℤ) :
    kind.fold start (stampFrom streamName position start.2 toAppend) =
      .ok (kind.aggregate.rehydrate events start.1,start.2 + events.length) := by
  induction events generalizing index toAppend position start with
  | nil =>
    obtain rfl := Option.some.inj hs
    simp [stampFrom,fold,Aggregate.rehydrate]
    rfl
  | cons event events ih =>
    rw [stamp_cons] at hs
    obtain ⟨serialized,hserialized,hs⟩ := Option.bind_eq_some_iff.mp hs
    obtain ⟨rest,hrest,hs⟩ := Option.bind_eq_some_iff.mp hs
    obtain rfl := Option.some.inj hs
    have hdecode := hcodec event serialized hserialized
    rw [stampFrom,fold_cons]
    have hstored : ∀ m : StoredEventMetadata,
        (AppendEvent.stored ⟨serialized.type,serialized.schemaVersion,serialized.payload,m⟩ (position + 1)
          streamName (start.2 + 1)).serialized = serialized := fun m => rfl
    rw [hstored,hdecode]
    have hi := ih hrest (position + 1) (kind.aggregate.evolve start.1 event,start.2 + 1)
    refine Eq.trans hi ?_
    rw [List.length_cons]
    push_cast
    refine congrArg Except.ok (Prod.ext rfl ?_)
    ring

theorem stamp_runtime (snapshotEvery : Option ℤ) (id : String) (metadata : Option CommandMetadata)
    (env : Environment) (loadedVersion : ℤ) (index : ℕ) (events : List Event) :
    (kind.runtime snapshotEvery).stamp id metadata env loadedVersion index events =
      (kind.runtime none).stamp id metadata env loadedVersion index events := by
  induction events generalizing index with
  | nil => rfl
  | cons event events ih =>
    rw [stamp_cons,stamp_cons,ih]
    rfl

end AggregateKind

namespace Call
variable {kind : AggregateKind State Command Event Err}

/-- The phase of the same call where there is no snapshot store. -/
def plainPhase {snapshotEvery : Option ℤ} :
    (kind.runtime snapshotEvery).Phase → (kind.runtime none).Phase
  | .loadSnapshot => firstPhase kind none
  | .readStream _ => firstPhase kind none
  | .append loaded events toAppend => .append ⟨loaded.state,loaded.version,0⟩ events toAppend
  | .saveSnapshot r => .done (.ok ⟨r.state,r.version,r.events⟩)
  | .done (.ok r) => .done (.ok ⟨r.state,r.version,r.events⟩)
  | .done (.error (.domain e)) => .done (.error (.domain e))
  | .done (.error (.store e)) => .done (.error (.store e))

/-- The same call where there is no snapshot store. -/
def plain (x : Call kind) : Call kind := ⟨none,x.id,x.request,x.retries,plainPhase x.phase,x.begun⟩

theorem answer_plain {x : Call kind} {r : Except (Failure Err) (State × ℤ × List Event)}
    (h : x.answer = some r) : x.plain.answer = some r := by
  unfold answer at h
  unfold plain answer
  split at h
  next hp =>
    rw [hp]
    exact h
  next hp =>
    rw [hp]
    exact h
  next hp =>
    rw [hp]
    exact h
  next => cases h

theorem plain_saves (x : Call kind) : x.plain.saves = none := by
  unfold saves plain
  cases x.phase with
  | loadSnapshot | readStream _ | append _ _ _ | saveSnapshot _ => rfl
  | done r =>
    cases r with
    | ok r => rfl
    | error e => cases e <;> rfl

theorem fail_again {x : Call kind} {e : (kind.runtime x.snapshotEvery).ExecuteFailure}
    (h : 0 < x.retries ∧ retriable kind e = true) :
    x.fail e = {x with retries := x.retries - 1, phase := firstPhase kind x.snapshotEvery} := if_pos h

theorem fail_done {x : Call kind} {e : (kind.runtime x.snapshotEvery).ExecuteFailure}
    (h : ¬ (0 < x.retries ∧ retriable kind e = true)) : x.fail e = {x with phase := .done (.error e)} :=
  if_neg h

theorem plainPhase_first (snapshotEvery : Option ℤ) :
    plainPhase (firstPhase kind snapshotEvery) = firstPhase kind none := by
  cases snapshotEvery <;> rfl

theorem plain_fail (x : Call kind) (e : (kind.runtime x.snapshotEvery).ExecuteFailure)
    (e' : (kind.runtime none).ExecuteFailure) (hr : retriable kind e = retriable kind e')
    (he : plainPhase (.done (.error e)) = .done (.error e')) : (x.fail e).plain = x.plain.fail e' := by
  by_cases hc : 0 < x.retries ∧ retriable kind e = true
  · have hc' : 0 < x.plain.retries ∧ retriable kind e' = true := ⟨hc.1,hr ▸ hc.2⟩
    rw [fail_again hc,fail_again (x := x.plain) hc']
    simp only [plain,plainPhase_first]
  · have hc' : ¬ (0 < x.plain.retries ∧ retriable kind e' = true) := fun h => hc ⟨h.1,hr.symm ▸ h.2⟩
    rw [fail_done hc,fail_done (x := x.plain) hc']
    simp only [plain,he]

theorem plain_fail_domain (x : Call kind) (e : Err) :
    (x.fail (.domain e)).plain = x.plain.fail (.domain e) := x.plain_fail _ _ rfl rfl

theorem plain_fail_store (x : Call kind) (e : StoreFailure) :
    (x.fail (.store e)).plain = x.plain.fail (.store e) :=
  x.plain_fail _ _ (by cases e <;> rfl) rfl

theorem plain_use (x : Call kind) (env : Environment) (state : State) (version snapshotVersion : ℤ) :
    (x.use env ⟨state,version,snapshotVersion⟩).plain = x.plain.use env ⟨state,version,0⟩ := by
  cases hreq : x.request with
  | load =>
    have hreq' : x.plain.request = .load := hreq
    unfold use
    rw [hreq,hreq']
    rfl
  | execute command metadata =>
    have hreq' : x.plain.request = .execute command metadata := hreq
    unfold use
    rw [hreq,hreq']
    dsimp only
    cases hdecide : kind.aggregate.decide state command with
    | error e =>
      simp only [Runtime.decided,hdecide,goOn]
      exact x.plain_fail_domain e
    | ok events =>
      by_cases hz : events.length = 0
      · simp only [Runtime.decided,hdecide,hz,if_true,goOn]
        rfl
      · have hstamp : (kind.runtime x.snapshotEvery).stamp x.id metadata env version 0 events =
            (kind.runtime none).stamp x.id metadata env version 0 events :=
          AggregateKind.stamp_runtime x.snapshotEvery x.id metadata env version 0 events
        simp only [Runtime.decided,hdecide,if_neg hz,goOn,hstamp]
        have hplain : (kind.runtime x.plain.snapshotEvery).stamp x.plain.id metadata env version 0 events =
            (kind.runtime none).stamp x.id metadata env version 0 events := rfl
        rw [hplain]
        cases (kind.runtime none).stamp x.id metadata env version 0 events with
        | none => exact x.plain_fail_store _
        | some toAppend => rfl

/-- What a call holds of its stream is the fold of the first events. -/
def Ok (l : EventLog) (x : Call kind) : Prop :=
  match x.phase with
  | .readStream start => kind.FoldsTo (l.stream x.streamName) (start.state,start.version)
  | .append loaded events toAppend => kind.FoldsTo (l.stream x.streamName) (loaded.state,loaded.version) ∧
    ∃ metadata env, (kind.runtime x.snapshotEvery).stamp x.id metadata env loaded.version 0 events =
      some toAppend
  | .saveSnapshot r => kind.FoldsTo (l.stream x.streamName) (r.state,r.version)
  | _ => True

variable {l l' : EventLog} {S C : Type} {svc : EventStoreService S}
  {snapshots : SnapshotStoreService C State} {R : S → EventLog → Prop} {s : S} {c : C} {env : Environment}

theorem Ok.grow {x : Call kind} (h : x.Ok l) {added : List StoredEvent}
    (hl : l'.stream x.streamName = l.stream x.streamName ++ added) : x.Ok l' := by
  unfold Ok at h ⊢
  rw [hl]
  split
  next hp =>
    rw [hp] at h
    exact h.grow added
  next hp =>
    rw [hp] at h
    exact ⟨h.1.grow added,h.2⟩
  next hp =>
    rw [hp] at h
    exact h.grow added
  · trivial

theorem ok_fail (x : Call kind) (e : (kind.runtime x.snapshotEvery).ExecuteFailure) :
    (x.fail e).Ok l := by
  unfold fail
  split
  · obtain ⟨snapshotEvery,id,request,retries,phase,begun⟩ := x
    cases snapshotEvery with
    | none => exact AggregateKind.foldsTo_zero _
    | some _ => trivial
  · trivial

theorem ok_use (x : Call kind) (env : Environment) {loaded : (kind.runtime x.snapshotEvery).Loaded}
    (h : kind.FoldsTo (l.stream x.streamName) (loaded.state,loaded.version)) : (x.use env loaded).Ok l := by
  unfold use
  split
  · trivial
  · unfold Runtime.decided
    split
    · exact x.ok_fail _
    · split
      · trivial
      · split
        · exact x.ok_fail _
        next hs => exact ⟨h,_,_,hs⟩

theorem ok_appended (hcodec : ∀ event serialized, kind.registry.encode event = some serialized →
      kind.registry.decode serialized = .ok event) {x : Call kind}
    {loaded : (kind.runtime x.snapshotEvery).Loaded} {events : List Event} {toAppend : List AppendEvent}
    (hfold : kind.FoldsTo (l.stream x.streamName) (loaded.state,loaded.version))
    (hstamp : ∃ metadata env, (kind.runtime x.snapshotEvery).stamp x.id metadata env loaded.version 0 events =
      some toAppend)
    (hw : l'.WellFormed) {position : ℤ}
    (hversion : l.version x.streamName = loaded.version)
    (hstream : l'.stream x.streamName =
      l.stream x.streamName ++ stampFrom x.streamName position loaded.version toAppend)
    {result : AppendResult} (hresult : result.lastVersion = loaded.version + toAppend.length) :
    Ok l' {x with phase := (kind.runtime x.snapshotEvery).appended loaded events result} := by
  obtain ⟨metadata,env,hstamp⟩ := hstamp
  have hlast := AggregateKind.fold_stamped hcodec hstamp x.streamName position (loaded.state,loaded.version)
  have hwhole : kind.fold (kind.aggregate.initial,0) (l.stream x.streamName) =
      .ok (loaded.state,loaded.version) := by
    obtain ⟨n,hle,hv,hf⟩ := hfold
    have hlen : n = (l.stream x.streamName).length := by
      have hv' : loaded.version = n := hv
      have hl : ((l.stream x.streamName).length : ℤ) = loaded.version := hversion
      omega
    rw [hlen,List.take_length] at hf
    exact hf
  have hall : kind.fold (kind.aggregate.initial,0) (l'.stream x.streamName) =
      .ok (kind.aggregate.rehydrate events loaded.state,loaded.version + events.length) := by
    rw [hstream,AggregateKind.fold_append,hwhole]
    exact hlast
  have hfolds := AggregateKind.foldsTo_of_fold (hw.versions x.streamName) hall
  have hcount : result.lastVersion = loaded.version + events.length := by
    have hstamped := stampFrom_versions x.streamName position loaded.version toAppend
    have hv : loaded.version + events.length = loaded.version +
      (stampFrom x.streamName position loaded.version toAppend).length :=
      AggregateKind.fold_version hstamped hlast
    rw [stampFrom_length] at hv
    exact hresult.trans hv.symm
  unfold Runtime.appended
  dsimp only
  rw [← hcount] at hfolds
  split
  · trivial
  · split
    · exact hfolds
    · trivial

theorem proceed_read (hk : svc.KeepsLog R) (hr : R s l) {x : Call kind}
    {start : (kind.runtime x.snapshotEvery).Loaded} (hphase : x.phase = .readStream start)
    (hfolds : kind.FoldsTo (l.stream x.streamName) (start.state,start.version)) :
    x.proceed svc snapshots env s c =
      some (s,c,match kind.fold (kind.aggregate.initial,0) (l.stream x.streamName) with
        | .error e => x.fail (.store (.eventDecode e))
        | .ok loaded => x.use env ⟨loaded.1,loaded.2,start.snapshotVersion⟩) := by
  have hread := hk.read s l x.streamName (some (start.version + 1)) hr
  have hresume := AggregateKind.FoldsTo.resume ((hk.wellFormed s l hr).versions _) hfolds
  unfold proceed
  rw [hphase]
  dsimp only at hresume ⊢
  rw [hread]
  dsimp only
  rw [AggregateKind.loadEvents_eq,hresume]
  cases kind.fold (kind.aggregate.initial,0) (l.stream x.streamName) <;> rfl

theorem proceed_append {x : Call kind} {loaded : (kind.runtime x.snapshotEvery).Loaded} {events : List Event}
    {toAppend : List AppendEvent} (hphase : x.phase = .append loaded events toAppend) :
    x.proceed svc snapshots env s c =
      some ((svc.append s x.streamName loaded.version toAppend).1,c,
        match (svc.append s x.streamName loaded.version toAppend).2 with
        | .error e => x.fail (.store e)
        | .ok result => {x with phase := (kind.runtime x.snapshotEvery).appended loaded events result}) := by
  unfold proceed
  rewrite [hphase]
  rfl

theorem plain_appended (x : Call kind) (loaded : (kind.runtime x.snapshotEvery).Loaded) (events : List Event)
    (result : AppendResult) :
    plain {x with phase := (kind.runtime x.snapshotEvery).appended loaded events result} =
      {x.plain with phase := (kind.runtime none).appended ⟨loaded.state,loaded.version,0⟩ events result} := by
  obtain ⟨snapshotEvery,id,request,retries,phase,begun⟩ := x
  cases snapshotEvery with
  | none => rfl
  | some snapshotEvery =>
    unfold plain Runtime.appended
    dsimp only
    split <;> rfl

theorem proceed_ok (hk : svc.KeepsLog R) (hr : R s l) (hcodec : ∀ event serialized,
      kind.registry.encode event = some serialized → kind.registry.decode serialized = .ok event)
    {x x' : Call kind} (h : x.Ok l)
    (hsnap : ∀ p, snapshots.load c x.streamName = some p → kind.FoldsTo (l.stream x.streamName) p)
    {s' : S} {c' : C} (hp : x.proceed svc snapshots env s c = some (s',c',x')) :
    ∃ l', R s' l' ∧ x'.Ok l' ∧ ∀ name, ∃ added, l'.stream name = l.stream name ++ added := by
  have hw := hk.wellFormed s l hr
  have hsame : ∀ name, ∃ added, l.stream name = l.stream name ++ added := fun name =>
    ⟨[],(List.append_nil _).symm⟩
  unfold Ok at h
  cases hphase : x.phase with
  | loadSnapshot =>
    unfold proceed at hp
    rw [hphase] at hp
    obtain ⟨rfl,rfl,rfl⟩ := hp
    refine ⟨l,hr,?_,hsame⟩
    cases hload : snapshots.load c x.streamName with
    | none => exact AggregateKind.foldsTo_zero _
    | some p => exact hsnap p hload
  | readStream start =>
    rw [hphase] at h
    rw [proceed_read hk hr hphase h] at hp
    obtain ⟨rfl,rfl,rfl⟩ := hp
    refine ⟨l,hr,?_,hsame⟩
    cases hfold : kind.fold (kind.aggregate.initial,0) (l.stream x.streamName) with
    | error e => exact ok_fail _ _
    | ok loaded => exact ok_use _ env (AggregateKind.foldsTo_of_fold (hw.versions _) hfold)
  | append loaded events toAppend =>
    rw [hphase] at h
    rw [proceed_append hphase] at hp
    obtain ⟨rfl,rfl,rfl⟩ := hp
    obtain ⟨hlog,hanswer⟩ := hk.append s l x.streamName loaded.version toAppend hr
    refine ⟨_,hlog,?_,l.append_stream _ _ _⟩
    rw [hanswer]
    cases ha : (l.append x.streamName loaded.version toAppend).2 with
    | error e => exact ok_fail _ _
    | ok result =>
      obtain ⟨hversion,hstream,hresult⟩ := EventLog.append_ok ha
      exact ok_appended hcodec h.1 h.2 (hk.wellFormed _ _ hlog) hversion hstream hresult
  | saveSnapshot r =>
    unfold proceed at hp
    rw [hphase] at hp
    obtain ⟨rfl,rfl,rfl⟩ := hp
    exact ⟨l,hr,trivial,hsame⟩
  | done r =>
    unfold proceed at hp
    rw [hphase] at hp
    cases hp

theorem proceed_plain (hk : svc.KeepsLog R) (hr : R s l) {x x' : Call kind} (h : x.Ok l) {s' : S} {c' d : C}
    (hp : x.proceed svc snapshots env s c = some (s',c',x')) :
    (s' = s ∧ x'.plain = x.plain) ∨
      x.plain.proceed svc snapshots env s d = some (s',d,x'.plain) := by
  unfold Ok at h
  cases hphase : x.phase with
  | loadSnapshot =>
    have hplain : x.plain.phase = firstPhase kind none := congrArg plainPhase hphase
    unfold proceed at hp
    rw [hphase] at hp
    obtain ⟨rfl,rfl,rfl⟩ := hp
    refine Or.inl ⟨rfl,?_⟩
    simp only [plain,hphase]
    split <;> rfl
  | readStream start =>
    have hplain : x.plain.phase = .readStream ⟨kind.aggregate.initial,0,0⟩ := congrArg plainPhase hphase
    rw [hphase] at h
    rw [proceed_read hk hr hphase h] at hp
    obtain ⟨rfl,rfl,rfl⟩ := hp
    right
    rw [proceed_read hk hr hplain (AggregateKind.foldsTo_zero _)]
    have hname : x.plain.streamName = x.streamName := rfl
    rw [hname]
    cases kind.fold (kind.aggregate.initial,0) (l.stream x.streamName) with
    | error e =>
      dsimp only
      rw [plain_fail_store]
    | ok loaded =>
      dsimp only
      rw [plain_use]
  | append loaded events toAppend =>
    have hplain : x.plain.phase = .append ⟨loaded.state,loaded.version,0⟩ events toAppend :=
      congrArg plainPhase hphase
    rw [proceed_append hphase] at hp
    obtain ⟨rfl,rfl,rfl⟩ := hp
    right
    rw [proceed_append hplain]
    have hname : x.plain.streamName = x.streamName := rfl
    rw [hname]
    dsimp only
    cases (svc.append s x.streamName loaded.version toAppend).2 with
    | error e =>
      dsimp only
      rw [plain_fail_store]
    | ok result =>
      dsimp only
      rw [plain_appended]
      rfl
  | saveSnapshot r =>
    unfold proceed at hp
    rw [hphase] at hp
    obtain ⟨rfl,rfl,rfl⟩ := hp
    refine Or.inl ⟨rfl,?_⟩
    simp only [plain,hphase]
    rfl
  | done r =>
    unfold proceed at hp
    rw [hphase] at hp
    cases hp

theorem proceed_snapshots {x x' : Call kind} {s' : S} {c' : C}
    (hp : x.proceed svc snapshots env s c = some (s',c',x')) :
    (x.saves = none ∧ c' = c) ∨
      ∃ p, x.saves = some p ∧ c' = snapshots.save c x.streamName p.1 p.2 := by
  unfold proceed at hp
  unfold saves
  cases hphase : x.phase with
  | loadSnapshot =>
    rw [hphase] at hp
    obtain ⟨-,rfl,-⟩ := hp
    exact Or.inl ⟨rfl,rfl⟩
  | readStream start =>
    rw [hphase] at hp
    obtain ⟨-,rfl,-⟩ := hp
    exact Or.inl ⟨rfl,rfl⟩
  | append loaded events toAppend =>
    rw [hphase] at hp
    obtain ⟨-,rfl,-⟩ := hp
    exact Or.inl ⟨rfl,rfl⟩
  | saveSnapshot r =>
    rw [hphase] at hp
    obtain ⟨-,rfl,-⟩ := hp
    exact Or.inr ⟨(r.state,r.version),rfl,rfl⟩
  | done r =>
    rw [hphase] at hp
    cases hp

theorem Ok.saves {x : Call kind} (h : x.Ok l) {p : State × ℤ} (hs : x.saves = some p) :
    kind.FoldsTo (l.stream x.streamName) p := by
  unfold Call.saves at hs
  unfold Ok at h
  cases hphase : x.phase with
  | saveSnapshot r =>
    rw [hphase] at h hs
    obtain rfl := Option.some.inj hs
    exact h
  | loadSnapshot | readStream _ | append _ _ _ | done _ =>
    rw [hphase] at hs
    cases hs

end Call

namespace Snapshotted
variable {S C : Type} {kind : AggregateKind State Command Event Err} {svc : EventStoreService S}
  {snapshots : SnapshotStoreService C State} {transactional : Bool} {R : S → EventLog → Prop}
  {x y : Snapshotted S C kind}

def NoErasure (_ : Snapshotted S C kind) : Label Command → Prop
  | .eraseStream _ _ _ | .proceedErasure _ _ => False
  | _ => True

/-- Only runtimes without a snapshot store, and no erasure. -/
def NoSnapshots (_ : Snapshotted S C kind) : Label Command → Prop
  | .call _ snapshotEvery _ _ _ => snapshotEvery = none
  | .eraseStream _ _ _ | .proceedErasure _ _ => False
  | _ => True

/-- The label of the same step where there is no snapshot store. -/
def Label.plain : Label Command → Label Command
  | .call fiber _ id request retries => .call fiber none id request retries
  | label => label

/-- The same stores and calls where there is no snapshot store. -/
def plain (snapshots : SnapshotStoreService C State) (x : Snapshotted S C kind) : Snapshotted S C kind :=
  {x with snapshots := snapshots.init, calls := x.calls.map Call.plain, saved := []}

structure Inv (snapshots : SnapshotStoreService C State) (x : Snapshotted S C kind) (l : EventLog) :
    Prop where
  saved : ∀ streamName p, (streamName,p) ∈ x.saved → kind.FoldsTo (l.stream streamName) p
  stored : ∀ streamName p, snapshots.load x.snapshots streamName = some p →
    kind.FoldsTo (l.stream streamName) p
  calls : Fibers.All (Call.Ok l) x.calls

theorem Inv.grow {l l' : EventLog} (h : Inv snapshots x l)
    (hl : ∀ streamName, ∃ added, l'.stream streamName = l.stream streamName ++ added) :
    Inv snapshots x l' where
  saved streamName p hp := by
    obtain ⟨added,ha⟩ := hl streamName
    rw [ha]
    exact (h.saved streamName p hp).grow added
  stored streamName p hp := by
    obtain ⟨added,ha⟩ := hl streamName
    rw [ha]
    exact (h.stored streamName p hp).grow added
  calls := h.calls.imp fun call hc => by
    obtain ⟨added,ha⟩ := hl call.streamName
    exact hc.grow ha

theorem Inv.proceed (hsnap : snapshots.Lawful) (hk : svc.KeepsLog R) (hcodec : ∀ event serialized,
      kind.registry.encode event = some serialized → kind.registry.decode serialized = .ok event)
    {l : EventLog} (hr : R x.store l) (h : Inv snapshots x l) {fiber : ℕ} {env : Environment}
    {call : Call kind} (hcall : x.calls fiber = some call) {r : S × C × Call kind}
    (hp : call.proceed svc snapshots env x.store x.snapshots = some r) :
    ∃ l', R r.1 l' ∧ Inv snapshots {x with
      store := r.1
      snapshots := r.2.1
      calls := x.calls.set fiber r.2.2
      saved := x.saved ++ (call.saves.map fun p => (call.streamName,p)).toList} l' := by
  obtain ⟨s',c',call'⟩ := r
  have hok := h.calls fiber call hcall
  obtain ⟨l',hr',hok',hgrow⟩ := Call.proceed_ok hk hr hcodec hok (h.stored _) hp
  have hg := h.grow hgrow
  have hok := hg.calls fiber call hcall
  refine ⟨l',hr',?_⟩
  rcases Call.proceed_snapshots hp with ⟨hs,rfl⟩ | ⟨p,hs,rfl⟩
  · rw [hs]
    constructor
    · intro streamName p hp
      rw [Option.map_none,Option.toList_none,List.append_nil] at hp
      exact hg.saved streamName p hp
    · exact hg.stored
    · exact hg.calls.set hok'
  · have hfolds := hok.saves hs
    rw [hs]
    constructor
    · intro streamName q hq
      rw [Option.map_some,Option.toList_some,List.mem_append,List.mem_singleton] at hq
      rcases hq with hq | hq
      · exact hg.saved streamName q hq
      · cases hq
        exact hfolds
    · intro streamName q hq
      by_cases hn : streamName = call.streamName
      · subst hn
        rw [hsnap.load_save] at hq
        obtain rfl := Option.some.inj hq
        exact hfolds
      · rw [hsnap.load_save_ne _ _ _ _ _ hn] at hq
        exact hg.stored streamName q hq
    · exact hg.calls.set hok'

theorem Inv.step (hsnap : snapshots.Lawful) (hk : svc.KeepsLog R) (hcodec : ∀ event serialized,
      kind.registry.encode event = some serialized → kind.registry.decode serialized = .ok event)
    (h : ∃ l, R x.store l ∧ Inv snapshots x l) {label : Label Command} (hl : NoErasure x label)
    (hs : step svc snapshots transactional x label = some y) : ∃ l, R y.store l ∧ Inv snapshots y l := by
  obtain ⟨l,hr,h⟩ := h
  cases label with
  | append streamName expectedVersion events =>
    obtain rfl := Option.some.inj hs
    have hlog := (hk.append x.store l streamName expectedVersion events hr).1
    have hg := h.grow (l.append_stream streamName expectedVersion events)
    exact ⟨_,hlog,⟨hg.saved,hg.stored,hg.calls⟩⟩
  | call fiber snapshotEvery id request retries =>
    obtain ⟨-,rfl⟩ := step_call hs
    refine ⟨l,hr,⟨h.saved,h.stored,h.calls.set ?_⟩⟩
    cases snapshotEvery with
    | none => exact AggregateKind.foldsTo_zero _
    | some _ => trivial
  | proceed fiber env =>
    obtain ⟨call,r,hcall,hp,rfl⟩ := step_proceed hs
    exact h.proceed hsnap hk hcodec hr hcall hp
  | interrupt fiber =>
    obtain rfl := Option.some.inj hs
    exact ⟨l,hr,⟨h.saved,h.stored,h.calls.remove⟩⟩
  | eraseStream eraser removes request => exact hl.elim
  | proceedErasure eraser erasedAt => exact hl.elim
  | interruptErasure eraser =>
    obtain rfl := Option.some.inj hs
    exact ⟨l,hr,⟨h.saved,h.stored,h.calls⟩⟩

theorem inv_of_reaches (hsnap : snapshots.Lawful) (hk : svc.KeepsLog R) (hcodec : ∀ event serialized,
      kind.registry.encode event = some serialized → kind.registry.decode serialized = .ok event)
    (h : (runs svc snapshots transactional kind).Reaches NoErasure x) :
    ∃ l, R x.store l ∧ Inv snapshots x l := by
  refine h.invariant (fun x => ∃ l, R x.store l ∧ Inv snapshots x l) ?_ ?_
  · refine ⟨EventLog.empty,hk.init,?_⟩
    constructor
    · intro streamName p hp
      cases hp
    · intro streamName p hp
      have hnone := hsnap.load_init streamName
      rw [show (runs svc snapshots transactional kind).init.snapshots = snapshots.init from rfl,hnone] at hp
      cases hp
    · exact Fibers.all_empty _
  · intro a label b ha hl hs
    exact Inv.step hsnap hk hcodec ha hl hs

/-- A step is a step of the same calls without a snapshot store, or touches only that store. -/
theorem step_plain (hk : svc.KeepsLog R) {l : EventLog} (hr : R x.store l) (h : Inv snapshots x l)
    {label : Label Command} (hl : NoErasure x label)
    (hs : step svc snapshots transactional x label = some y) :
    y.plain snapshots = x.plain snapshots ∨
      step svc snapshots transactional (x.plain snapshots) label.plain = some (y.plain snapshots) := by
  cases label with
  | append streamName expectedVersion events =>
    obtain rfl := Option.some.inj hs
    exact Or.inr rfl
  | call fiber snapshotEvery id request retries =>
    obtain ⟨hnone,rfl⟩ := step_call hs
    right
    have hplain : (x.plain snapshots).calls fiber = none := congrArg (Option.map Call.plain) hnone
    simp only [Label.plain,Snapshotted.step,hplain]
    unfold plain
    dsimp only
    rw [Fibers.map_set,Call.plain,Call.plainPhase_first]
  | proceed fiber env =>
    obtain ⟨call,⟨s',c',call'⟩,hcall,hp,rfl⟩ := step_proceed hs
    have hplain : (x.plain snapshots).calls fiber = some call.plain :=
      congrArg (Option.map Call.plain) hcall
    rcases Call.proceed_plain (d := snapshots.init) hk hr (h.calls fiber call hcall) hp with
      ⟨rfl,hsame⟩ | hstep
    · left
      unfold plain
      dsimp only
      rw [Fibers.map_set,hsame]
      have hset : (x.calls.map Call.plain).set fiber call.plain = x.calls.map Call.plain :=
        Function.update_eq_self_iff.mpr hplain.symm
      rw [hset]
    · right
      have hsaves := call.plain_saves
      simp only [Label.plain,Snapshotted.step,hplain,Option.bind_some]
      have hcalled : call.plain.proceed svc snapshots env (x.plain snapshots).store
          (x.plain snapshots).snapshots = _ := hstep
      rw [hcalled,hsaves]
      unfold plain
      dsimp only
      rw [Fibers.map_set]
      rfl
  | interrupt fiber =>
    obtain rfl := Option.some.inj hs
    right
    unfold plain Label.plain Snapshotted.step
    dsimp only
    rw [Fibers.map_remove]
  | eraseStream eraser removes request => exact hl.elim
  | proceedErasure eraser erasedAt => exact hl.elim
  | interruptErasure eraser =>
    obtain rfl := Option.some.inj hs
    exact Or.inr rfl

theorem noSnapshots_plain {label : Label Command} (h : NoErasure x label) (x' : Snapshotted S C kind) :
    NoSnapshots x' label.plain := by
  cases label with
  | call fiber snapshotEvery id request retries => rfl
  | append _ _ _ | proceed _ _ | interrupt _ | interruptErasure _ => trivial
  | eraseStream _ _ _ | proceedErasure _ _ => exact h.elim

theorem plain_reaches (hsnap : snapshots.Lawful) (hk : svc.KeepsLog R) (hcodec : ∀ event serialized,
      kind.registry.encode event = some serialized → kind.registry.decode serialized = .ok event)
    (h : (runs svc snapshots transactional kind).Reaches NoErasure x) :
    (runs svc snapshots transactional kind).Reaches NoSnapshots (x.plain snapshots) := by
  have hall : (∃ l, R x.store l ∧ Inv snapshots x l) ∧
      (runs svc snapshots transactional kind).Reaches NoSnapshots (x.plain snapshots) := by
    refine h.invariant (fun x => (∃ l, R x.store l ∧ Inv snapshots x l) ∧
      (runs svc snapshots transactional kind).Reaches NoSnapshots (x.plain snapshots)) ?_ ?_
    · constructor
      · exact inv_of_reaches hsnap hk hcodec Relation.ReflTransGen.refl
      · exact Relation.ReflTransGen.refl
    · rintro a label b ⟨⟨l,hr,ha⟩,hreach⟩ hl hs
      refine ⟨Inv.step hsnap hk hcodec ⟨l,hr,ha⟩ hl hs,?_⟩
      rcases step_plain hk hr ha hl hs with hsame | hstep
      · rw [hsame]
        exact hreach
      · exact hreach.step (noSnapshots_plain hl _) hstep
  exact hall.2

/-- Snapshots hold folds of their streams, and calls answer what they answer without them: a run
with the snapshot store is a run without it, step for step or standing still. -/
def Transparent (svc : EventStoreService S) (snapshots : SnapshotStoreService C State)
    (transactional : Bool) (kind : AggregateKind State Command Event Err) : Prop :=
  ∀ x, (runs svc snapshots transactional kind).Reaches NoErasure x →
    (∀ streamName p, (streamName,p) ∈ x.saved → kind.FoldsTo (svc.stream x.store streamName) p) ∧
    (runs svc snapshots transactional kind).Reaches NoSnapshots (x.plain snapshots) ∧
    (∀ fiber call r, x.calls fiber = some call → call.answer = some r →
      ∃ call', (x.plain snapshots).calls fiber = some call' ∧ call'.answer = some r) ∧
    ∀ label y, NoErasure x label → step svc snapshots transactional x label = some y →
      y.plain snapshots = x.plain snapshots ∨
        step svc snapshots transactional (x.plain snapshots) label.plain = some (y.plain snapshots)

theorem transparent (hsnap : snapshots.Lawful) (hk : svc.KeepsLog R) (hcodec : ∀ event serialized,
      kind.registry.encode event = some serialized → kind.registry.decode serialized = .ok event) :
    Transparent svc snapshots transactional kind := by
  intro x h
  obtain ⟨l,hr,hinv⟩ := inv_of_reaches hsnap hk hcodec h
  refine ⟨?_,plain_reaches hsnap hk hcodec h,?_,?_⟩
  · intro streamName p hp
    rw [hk.stream_eq hr]
    exact hinv.saved streamName p hp
  · intro fiber call r hcall hanswer
    exact ⟨call.plain,congrArg (Option.map Call.plain) hcall,Call.answer_plain hanswer⟩
  · intro label y hl hs
    exact step_plain hk hr hinv hl hs

/-- Any runtimes of an aggregate whose events decode to what was encoded, over either store. -/
theorem snapshots_transparent (kind : AggregateKind State Command Event Err) (codec : StateCodec State)
    (hcodec : ∀ event serialized, kind.registry.encode event = some serialized →
      kind.registry.decode serialized = .ok event) :
    Transparent inMemoryService (inMemorySnapshotStore State) false kind ∧
      Transparent sqliteService (sqlSnapshotStore codec) true kind :=
  ⟨transparent (inMemorySnapshotStore_lawful State) inMemoryService_keepsLog hcodec,
    transparent (sqlSnapshotStore_lawful codec) sqliteService_keepsLog hcodec⟩

/-- An aggregate that counts its placed orders. -/
def orderCount : AggregateKind ℕ Unit Unit Empty where
  aggregate := ⟨"order",0,fun _ _ => .ok [()],fun placed _ => placed + 1⟩
  registry := {
    encode := fun _ => some ⟨"OrderPlaced",1,.obj [("_tag",.str "OrderPlaced")]⟩
    decode := fun stored => if stored.type = "OrderPlaced" then .ok ()
      else .error ⟨stored.type,stored.schemaVersion,"unknown event type"⟩
    has := fun type => type = "OrderPlaced" }
  tagged := nofun

theorem orderCount_decode (event : Unit) (serialized : SerializedEvent)
    (h : orderCount.registry.encode event = some serialized) :
    orderCount.registry.decode serialized = .ok event := by
  obtain rfl := Option.some.inj h
  rfl

def orderCodec : StateCodec ℕ where
  encode placed := .arr (List.replicate placed (.bool true))
  decode
    | .arr orders => some orders.length
    | _ => none
  decode_encode _ := congrArg some List.length_replicate

def clock : Environment where
  snapshots _ := .ok none
  saved := .ok ()
  occurredAt := "2024-05-01T00:00:00.000Z"
  eventIds index := "e" ++ toString index

/-- A placed order whose snapshot is saved, and a load that starts from it. -/
def placeThenLoad : List (Label Unit) :=
  [.call 0 (some 1) "1" (.execute () none) 3,.proceed 0 clock,.proceed 0 clock,.proceed 0 clock,
    .proceed 0 clock,.call 1 (some 1) "1" .load 0,.proceed 1 clock,.proceed 1 clock]

theorem snapshots_transparent_orders :
    ∃ x, (runs inMemoryService (inMemorySnapshotStore ℕ) false orderCount).run placeThenLoad = some x ∧
      x.saved = [("order-1",1,1)] ∧
      orderCount.FoldsTo (inMemoryService.stream x.store "order-1") (1,1) := by
  obtain ⟨x,hrun,hsaved⟩ : ∃ x, (runs inMemoryService (inMemorySnapshotStore ℕ) false orderCount).run
      placeThenLoad = some x ∧ x.saved = [("order-1",1,1)] := ⟨_,rfl,rfl⟩
  have hlabels : ∀ label ∈ placeThenLoad, ∀ x : Snapshotted EventStoreState (JsMap (ℕ × ℤ)) orderCount,
      NoErasure x label := by simp [placeThenLoad,NoErasure]
  have hr := System.run_reaches hlabels hrun
  have hall := (snapshots_transparent orderCount orderCodec orderCount_decode).1 x hr
  refine ⟨x,hrun,hsaved,hall.1 "order-1" (1,1) ?_⟩
  rw [hsaved]
  exact List.mem_singleton_self _

end Snapshotted
end StructureAi.EventSourcing

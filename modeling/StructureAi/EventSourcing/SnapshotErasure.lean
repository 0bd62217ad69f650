import StructureAi.EventSourcing.SnapshotTransparency

/-! # Snapshots of erased streams

An append to an erased stream fails, so a call that begins after an erasure never
saves a snapshot of the stream. A call whose append came before it still does, and
its save is not fenced by the ledger.
-/
namespace StructureAi.EventSourcing
open StructureAi.Foundation StructureAi.Sqlite
variable {State Command Event Err : Type}

namespace Call
variable {kind : AggregateKind State Command Event Err} {l l' : EventLog} {S C : Type}
  {svc : EventStoreService S} {snapshots : SnapshotStoreService C State} {R : S → EventLog → Prop}
  {s s' : S} {c c' : C} {env : Environment} {x x' : Call kind}

theorem fail_streamName (x : Call kind) (e : (kind.runtime x.snapshotEvery).ExecuteFailure) :
    (x.fail e).streamName = x.streamName ∧ (x.fail e).begun = x.begun := by
  unfold fail
  split <;> exact ⟨rfl,rfl⟩

theorem use_streamName (x : Call kind) (env : Environment) (loaded : (kind.runtime x.snapshotEvery).Loaded) :
    (x.use env loaded).streamName = x.streamName ∧ (x.use env loaded).begun = x.begun := by
  unfold use goOn
  split
  · exact ⟨rfl,rfl⟩
  · split
    · exact x.fail_streamName _
    · exact ⟨rfl,rfl⟩

theorem proceed_streamName (hp : x.proceed svc snapshots env s c = some (s',c',x')) :
    x'.streamName = x.streamName ∧ x'.begun = x.begun := by
  unfold proceed at hp
  split at hp
  · obtain ⟨-,-,rfl⟩ := hp
    exact ⟨rfl,rfl⟩
  · obtain ⟨-,-,rfl⟩ := hp
    split
    · exact x.fail_streamName _
    · split
      · exact x.fail_streamName _
      · exact x.use_streamName env _
  · obtain ⟨-,-,rfl⟩ := hp
    split
    · exact x.fail_streamName _
    · exact ⟨rfl,rfl⟩
  · obtain ⟨-,-,rfl⟩ := hp
    exact ⟨rfl,rfl⟩
  · cases hp

theorem proceed_log (hk : svc.KeepsLog R) (hr : R s l)
    (hp : x.proceed svc snapshots env s c = some (s',c',x')) :
    ∃ l', R s' l' ∧ l.KeepsPinned l' ∧ l'.erased = l.erased := by
  unfold proceed at hp
  split at hp
  · obtain ⟨rfl,-,-⟩ := hp
    exact ⟨l,hr,EventLog.KeepsPinned.refl l,rfl⟩
  · obtain ⟨rfl,-,-⟩ := hp
    exact ⟨l,hr,EventLog.KeepsPinned.refl l,rfl⟩
  next loaded events toAppend _ =>
    obtain ⟨rfl,-,-⟩ := hp
    exact ⟨_,(hk.append s l x.streamName loaded.version toAppend hr).1,EventLog.KeepsPinned.append l _ _ _,
      l.append_erased _ _ _⟩
  · obtain ⟨rfl,-,-⟩ := hp
    exact ⟨l,hr,EventLog.KeepsPinned.refl l,rfl⟩
  · cases hp

/-- The call holds nothing but what its stream holds now. -/
def Late (l : EventLog) (x : Call kind) : Prop :=
  match x.phase with
  | .readStream start => (start.state,start.version) = (kind.aggregate.initial,0)
  | .saveSnapshot _ => False
  | .done (.ok r) => kind.fold (kind.aggregate.initial,0) (l.stream x.streamName) = .ok (r.state,r.version)
  | _ => True

theorem late_first (l : EventLog) (snapshotEvery : Option ℤ) (id : String) (request : Request Command)
    (retries begun : ℕ) :
    Late l (⟨snapshotEvery,id,request,retries,firstPhase kind snapshotEvery,begun⟩ : Call kind) := by
  cases snapshotEvery with
  | none => exact rfl
  | some _ => trivial

theorem late_fail (x : Call kind) (e : (kind.runtime x.snapshotEvery).ExecuteFailure) :
    (x.fail e).Late l := by
  unfold fail
  split
  · exact late_first l ..
  · trivial

theorem late_use (x : Call kind) (env : Environment) {loaded : (kind.runtime x.snapshotEvery).Loaded}
    (h : kind.fold (kind.aggregate.initial,0) (l.stream x.streamName) = .ok (loaded.state,loaded.version)) :
    (x.use env loaded).Late l := by
  unfold use
  split
  · exact h
  · unfold Runtime.decided
    split
    · exact x.late_fail _
    · split
      · exact h
      · split
        · exact x.late_fail _
        · trivial

theorem Late.keepsPinned (h : x.Late l) (hpin : l.erased x.streamName ≠ none) (hl : l.KeepsPinned l') :
    x.Late l' := by
  obtain ⟨record,hrecord⟩ := Option.ne_none_iff_exists'.mp hpin
  unfold Late at h ⊢
  rw [(hl x.streamName record hrecord).2]
  exact h

/-- A call on an erased stream without a snapshot appends nothing and holds nothing old. -/
theorem Late.proceed (hk : svc.KeepsLog R) (hr : R s l) (h : x.Late l) (hpin : l.erased x.streamName ≠ none)
    (hsnap : snapshots.load c x.streamName = none)
    (hp : x.proceed svc snapshots env s c = some (s',c',x')) : x'.Late l := by
  unfold Late at h
  cases hphase : x.phase with
  | loadSnapshot =>
    unfold Call.proceed at hp
    rw [hphase,hsnap] at hp
    obtain ⟨-,-,rfl⟩ := hp
    exact rfl
  | readStream start =>
    rw [hphase] at h
    have hfolds : kind.FoldsTo (l.stream x.streamName) (start.state,start.version) :=
      h ▸ AggregateKind.foldsTo_zero _
    rw [proceed_read hk hr hphase hfolds] at hp
    obtain ⟨-,-,rfl⟩ := hp
    cases hfold : kind.fold (kind.aggregate.initial,0) (l.stream x.streamName) with
    | error e => exact x.late_fail _
    | ok loaded => exact x.late_use env hfold
  | append loaded events toAppend =>
    rw [proceed_append hphase] at hp
    obtain ⟨-,-,rfl⟩ := hp
    have hanswer := (hk.append s l x.streamName loaded.version toAppend hr).2
    rw [hanswer]
    cases ha : (l.append x.streamName loaded.version toAppend).2 with
    | error e => exact x.late_fail _
    | ok result =>
      rcases l.append_cases x.streamName loaded.version toAppend with ⟨e,he⟩ | ⟨hnone,-⟩
      · rw [he] at ha
        cases ha
      · exact absurd hnone hpin
  | saveSnapshot r =>
    rw [hphase] at h
    exact h.elim
  | done r =>
    unfold Call.proceed at hp
    rw [hphase] at hp
    cases hp

theorem answer_ok {r : State × ℤ × List Event} (h : x.answer = some (.ok r)) :
    ∃ result, x.phase = .done (.ok result) ∧ r = (result.state,result.version,result.events) := by
  unfold answer at h
  split at h
  next result hphase => exact ⟨result,hphase,(Except.ok.inj (Option.some.inj h)).symm⟩
  · cases Option.some.inj h
  · cases Option.some.inj h
  · cases h

end Call

namespace Snapshotted
variable {S C : Type} {kind : AggregateKind State Command Event Err} {svc : EventStoreService S}
  {snapshots : SnapshotStoreService C State} {transactional : Bool} {R : S → EventLog → Prop}
  {x y : Snapshotted S C kind} {l l' : EventLog} {streamName : String}

/-- No snapshot is saved for a stream whose erasure has succeeded, and an erasure that removes none is of a
stream without one, or not at its version. -/
def KeepsRemoved (svc : EventStoreService S) (snapshots : SnapshotStoreService C State) (x : Snapshotted S C kind) :
    Label Command → Prop
  | .proceed fiber _ => ∀ call, x.calls fiber = some call → call.saves ≠ none → call.streamName ∉ x.erased
  | .proceedErasure eraser _ => ∀ e, x.erasers eraser = some e → e.removes = false →
      (svc.stream x.store e.request.streamName).length = e.request.expectedVersion →
      snapshots.load x.snapshots e.request.streamName = none
  | _ => True

def Quiet (x : Snapshotted S C kind) (streamName : String) : Prop :=
  ∀ fiber call, x.calls fiber = some call → call.streamName = streamName → call.finished = true

/-- An erased stream has a ledger entry and no snapshot. -/
structure Removed (snapshots : SnapshotStoreService C State) (x : Snapshotted S C kind) (l : EventLog) :
    Prop where
  pinned : ∀ streamName ∈ x.erased, l.erased streamName ≠ none
  removed : ∀ streamName ∈ x.erased, snapshots.load x.snapshots streamName = none
  removing : x.erasers.All fun e => e.phase = .removeSnapshot → l.erased e.request.streamName ≠ none
  begun : x.calls.All fun call => call.begun < x.begun

/-- In one transaction the ledger holds no stream whose erasure has not succeeded. -/
def Recorded (transactional : Bool) (x : Snapshotted S C kind) (l : EventLog) : Prop :=
  transactional = true → ∀ streamName, l.erased streamName ≠ none → streamName ∈ x.erased

theorem Removed.keepsPinned (h : Removed snapshots x l) (hl : l.KeepsPinned l') : Removed snapshots x l' where
  pinned streamName he := hl.ne_none (h.pinned streamName he)
  removed := h.removed
  removing := h.removing.imp fun _ he hphase => hl.ne_none (he hphase)
  begun := h.begun

theorem Removed.write (h : Removed snapshots x l) (store : S) : Removed snapshots {x with store := store} l :=
  ⟨h.pinned,h.removed,h.removing,h.begun⟩

theorem Removed.setEraser (h : Removed snapshots x l) {eraser : ℕ} {e : Eraser}
    (he : e.phase = .removeSnapshot → l.erased e.request.streamName ≠ none) :
    Removed snapshots {x with erasers := x.erasers.set eraser e} l :=
  ⟨h.pinned,h.removed,h.removing.set he,h.begun⟩

theorem Removed.removeSnapshot (hsnap : snapshots.Lawful) (h : Removed snapshots x l) (streamName : String) :
    Removed snapshots (x.removeSnapshot snapshots streamName) l := by
  refine ⟨h.pinned,?_,h.removing,h.begun⟩
  intro other he
  by_cases hn : other = streamName
  · rw [hn]
    exact hsnap.load_remove _ _
  · exact (hsnap.load_remove_ne _ _ _ hn).trans (h.removed other he)

theorem Removed.succeed (h : Removed snapshots x l) {eraser : ℕ} {e : Eraser}
    (hpin : l.erased e.request.streamName ≠ none)
    (hnone : snapshots.load x.snapshots e.request.streamName = none) :
    Removed snapshots (x.succeed eraser e) l := by
  constructor
  · intro streamName he
    rcases List.mem_cons.mp he with rfl | he
    · exact hpin
    · exact h.pinned streamName he
  · intro streamName he
    rcases List.mem_cons.mp he with rfl | he
    · exact hnone
    · exact h.removed streamName he
  · apply h.removing.set
    intro hphase
    cases hphase
  · exact h.begun

theorem Removed.proceed (hsnap : snapshots.Lawful) (hk : svc.KeepsLog R) (hr : R x.store l)
    (h : Removed snapshots x l) {fiber : ℕ} {env : Environment}
    (hl : KeepsRemoved svc snapshots x (.proceed fiber env))
    (hs : step svc snapshots transactional x (.proceed fiber env) = some y) :
    ∃ l', R y.store l' ∧ l.KeepsPinned l' ∧ Removed snapshots y l' ∧
      l'.erased = l.erased ∧ y.erased = x.erased := by
  obtain ⟨call,⟨s',c',call'⟩,hcall,hp,rfl⟩ := step_proceed hs
  obtain ⟨l',hr',hkeep,herased⟩ := Call.proceed_log hk hr hp
  obtain ⟨-,hbegun⟩ := Call.proceed_streamName hp
  refine ⟨l',hr',hkeep,?_,herased,rfl⟩
  constructor
  · rw [herased]
    exact h.pinned
  · intro streamName he
    have hnone := h.removed streamName he
    rcases Call.proceed_snapshots hp with ⟨-,rfl⟩ | ⟨p,hsaves,rfl⟩
    · exact hnone
    · have hn : streamName ≠ call.streamName := by
        rintro rfl
        exact hl call hcall (by rw [hsaves]; exact Option.some_ne_none p) he
      dsimp only
      rw [hsnap.load_save_ne _ _ _ _ _ hn]
      exact hnone
  · rw [herased]
    exact h.removing
  · have hold := h.begun fiber call hcall
    exact h.begun.set (hbegun ▸ hold)

theorem writeLedger_frame (x : Snapshotted S C kind) (eraser : ℕ) (e : Eraser) (erasedAt : String) :
    (x.writeLedger svc snapshots transactional eraser e erasedAt).store =
        (svc.eraseStream x.store e.request erasedAt).1 ∧
      (x.writeLedger svc snapshots transactional eraser e erasedAt).calls = x.calls ∧
      (x.writeLedger svc snapshots transactional eraser e erasedAt).begun = x.begun ∧
      x.erased ⊆ (x.writeLedger svc snapshots transactional eraser e erasedAt).erased := by
  have hself := List.Subset.refl x.erased
  have hmore := List.subset_cons_self e.request.streamName x.erased
  cases hanswer : (svc.eraseStream x.store e.request erasedAt).2 with
  | error failure =>
    rw [writeLedger_error hanswer]
    exact ⟨rfl,rfl,rfl,hself⟩
  | ok result =>
    rw [writeLedger_ok hanswer]
    dsimp only
    split
    · split <;> exact ⟨rfl,rfl,rfl,hmore⟩
    · split
      · exact ⟨rfl,rfl,rfl,hself⟩
      · exact ⟨rfl,rfl,rfl,hmore⟩

/-- Outside a transaction an erasure that the ledger takes succeeds, or goes on to the removal. -/
theorem Removed.leaveLedger (h : Removed snapshots x l) {eraser : ℕ} {e : Eraser}
    (hpin : l.erased e.request.streamName ≠ none)
    (hnone : e.removes = false → snapshots.load x.snapshots e.request.streamName = none) :
    Removed snapshots (if e.removes then {x with erasers := x.erasers.set eraser {e with phase := .removeSnapshot}}
      else x.succeed eraser e) l := by
  split
  · exact h.setEraser fun _ => hpin
  next hremoves => exact h.succeed hpin (hnone (Bool.not_eq_true _ ▸ hremoves))

theorem Removed.writeLedger (hsnap : snapshots.Lawful) (hk : svc.KeepsLog R) (hr : R x.store l)
    (h : Removed snapshots x l) (hrec : Recorded transactional x l) (eraser : ℕ) (e : Eraser)
    (erasedAt : String) (hl : e.removes = false →
      (svc.stream x.store e.request.streamName).length = e.request.expectedVersion →
      snapshots.load x.snapshots e.request.streamName = none) :
    ∃ l', R (x.writeLedger svc snapshots transactional eraser e erasedAt).store l' ∧ l.KeepsPinned l' ∧
      Removed snapshots (x.writeLedger svc snapshots transactional eraser e erasedAt) l' ∧
      Recorded transactional (x.writeLedger svc snapshots transactional eraser e erasedAt) l' := by
  obtain ⟨hlog,hanswer⟩ := hk.eraseStream x.store l e.request erasedAt hr
  have hkeep := EventLog.KeepsPinned.eraseStream l e.request erasedAt
  have hisErased := hk.isErased x.store l e.request.streamName hr
  have hmoved := (h.keepsPinned hkeep).write (svc.eraseStream x.store e.request erasedAt).1
  have hnone : ∀ result, (l.eraseStream e.request erasedAt).2 = .ok result → e.removes = false →
      snapshots.load x.snapshots e.request.streamName = none := by
    intro result hok hremoves
    refine hl hremoves ?_
    rw [hk.stream_eq hr]
    exact (hk.wellFormed _ _ hr).eraseStream_version hok
  refine ⟨_,?_,hkeep,?_⟩
  · rw [(x.writeLedger_frame eraser e erasedAt).1]
    exact hlog
  rcases l.eraseStream_cases e.request erasedAt with
    ⟨failure,he⟩ | ⟨record,hrecord,he⟩ | ⟨hfresh,he⟩ <;> rw [he] at hmoved hanswer hnone ⊢
  · rw [writeLedger_error hanswer]
    refine ⟨hmoved.setEraser ?_,hrec⟩
    intro h
    cases h
  · have hpin : l.erased e.request.streamName ≠ none := by
      rw [hrecord]
      exact Option.some_ne_none record
    rw [writeLedger_ok hanswer]
    cases transactional with
    | false =>
      refine ⟨hmoved.leaveLedger hpin (hnone _ rfl),?_⟩
      intro h
      cases h
    | true =>
      have hmem := hrec rfl e.request.streamName hpin
      dsimp only
      rw [if_pos rfl,if_pos (Bool.or_eq_true_iff.mpr (Or.inl (hisErased.mpr hpin)))]
      refine ⟨hmoved.succeed hpin (h.removed _ hmem),?_⟩
      intro _ streamName hs
      exact List.mem_cons_of_mem _ (hrec rfl streamName hs)
  · have hpin : (l.pin e.request.streamName erasedAt e.request.reason).erased e.request.streamName ≠ none := by
      simp [EventLog.pin]
    rw [writeLedger_ok hanswer]
    cases transactional with
    | false =>
      refine ⟨hmoved.leaveLedger hpin (hnone _ rfl),?_⟩
      intro h
      cases h
    | true =>
      have hunrecorded : svc.isErased x.store e.request.streamName = false := by
        rw [← Bool.not_eq_true]
        exact fun hc => hisErased.mp hc hfresh
      dsimp only
      rw [if_pos rfl,hunrecorded,Bool.false_or]
      refine ⟨?_,?_⟩
      · cases hremoves : e.removes with
        | false => exact hmoved.succeed hpin (hnone _ rfl hremoves)
        | true => exact (hmoved.removeSnapshot hsnap _).succeed hpin (hsnap.load_remove _ _)
      · intro _ streamName hs
        have herased : e.request.streamName = streamName ∨ streamName ∈ x.erased := by
          by_cases hn : streamName = e.request.streamName
          · exact Or.inl hn.symm
          · simp only [EventLog.pin,Function.update_of_ne hn] at hs
            exact Or.inr (hrec rfl streamName hs)
        have hsucceeded : streamName ∈ e.request.streamName :: x.erased := by
          rcases herased with rfl | herased
          · exact List.mem_cons_self
          · exact List.mem_cons_of_mem _ herased
        split <;> exact hsucceeded

theorem Removed.step (hsnap : snapshots.Lawful) (hk : svc.KeepsLog R) (hr : R x.store l)
    (h : Removed snapshots x l) (hrec : Recorded transactional x l) {label : Label Command}
    (hl : KeepsRemoved svc snapshots x label) (hs : step svc snapshots transactional x label = some y) :
    ∃ l', R y.store l' ∧ l.KeepsPinned l' ∧ Removed snapshots y l' ∧ Recorded transactional y l' := by
  have hkeep := EventLog.KeepsPinned.refl l
  cases label with
  | append streamName expectedVersion events =>
    obtain rfl := Option.some.inj hs
    have hgrow := EventLog.KeepsPinned.append l streamName expectedVersion events
    refine ⟨_,(hk.append x.store l streamName expectedVersion events hr).1,hgrow,(h.keepsPinned hgrow).write _,?_⟩
    unfold Recorded
    rw [l.append_erased]
    exact hrec
  | call fiber snapshotEvery id request retries =>
    obtain ⟨-,rfl⟩ := step_call hs
    refine ⟨l,hr,hkeep,⟨h.pinned,h.removed,h.removing,?_⟩,hrec⟩
    have hold : x.calls.All fun call => call.begun < x.begun + 1 := h.begun.imp fun call hb => by omega
    apply hold.set
    dsimp only
    omega
  | proceed fiber env =>
    obtain ⟨l',hr',hkeep,hremoved,herased,herased'⟩ := h.proceed hsnap hk hr hl hs
    refine ⟨l',hr',hkeep,hremoved,?_⟩
    unfold Recorded
    rw [herased,herased']
    exact hrec
  | interrupt fiber =>
    obtain rfl := Option.some.inj hs
    exact ⟨l,hr,hkeep,⟨h.pinned,h.removed,h.removing,h.begun.remove⟩,hrec⟩
  | eraseStream eraser removes request =>
    obtain rfl := step_eraseStream hs
    exact ⟨l,hr,hkeep,h.setEraser nofun,hrec⟩
  | proceedErasure eraser erasedAt =>
    obtain ⟨e,he,⟨-,rfl⟩ | ⟨hphase,rfl⟩⟩ := step_proceedErasure hs
    · exact h.writeLedger hsnap hk hr hrec eraser e erasedAt (hl e he)
    · have hpin := h.removing eraser e he hphase
      refine ⟨l,hr,hkeep,(h.removeSnapshot hsnap _).succeed hpin (hsnap.load_remove _ _),?_⟩
      intro ht streamName hs
      exact List.mem_cons_of_mem _ (hrec ht streamName hs)
  | interruptErasure eraser =>
    obtain rfl := Option.some.inj hs
    exact ⟨l,hr,hkeep,⟨h.pinned,h.removed,h.removing.remove,h.begun⟩,hrec⟩

theorem removed_of_reaches (hsnap : snapshots.Lawful) (hk : svc.KeepsLog R)
    (h : (runs svc snapshots transactional kind).Reaches (KeepsRemoved svc snapshots) x) :
    ∃ l, R x.store l ∧ Removed snapshots x l ∧ Recorded transactional x l := by
  refine h.invariant (fun x => ∃ l, R x.store l ∧ Removed snapshots x l ∧ Recorded transactional x l) ?_ ?_
  · refine ⟨EventLog.empty,hk.init,?_,?_⟩
    · constructor
      · intro streamName he
        cases he
      · intro streamName he
        cases he
      · exact Fibers.all_empty _
      · exact Fibers.all_empty _
    · intro _ streamName hs
      exact absurd rfl hs
  · rintro a label b ⟨l,hr,ha,hrec⟩ hl hs
    obtain ⟨l',hr',-,hb⟩ := ha.step hsnap hk hr hrec hl hs
    exact ⟨l',hr',hb⟩

/-- What the calls hold of an erased stream that began after the first `first` ones is what it
holds now. -/
structure Forgotten (streamName : String) (first : ℕ) (x : Snapshotted S C kind) (l : EventLog) : Prop where
  erased : streamName ∈ x.erased
  begun : first ≤ x.begun
  late : x.calls.All fun call => call.streamName = streamName → first ≤ call.begun → call.Late l

theorem Forgotten.step {first : ℕ} (hk : svc.KeepsLog R) (hr : R x.store l) (h : Removed snapshots x l)
    (hf : Forgotten streamName first x l) {label : Label Command}
    (hs : step svc snapshots transactional x label = some y) (hkeep : l.KeepsPinned l') :
    Forgotten streamName first y l' := by
  have hpin := h.pinned streamName hf.erased
  have hlate : x.calls.All fun call => call.streamName = streamName → first ≤ call.begun → call.Late l' := by
    intro fiber call hcall hn hb
    exact (hf.late fiber call hcall hn hb).keepsPinned (hn ▸ hpin) hkeep
  cases label with
  | append streamName expectedVersion events =>
    obtain rfl := Option.some.inj hs
    exact ⟨hf.erased,hf.begun,hlate⟩
  | call fiber snapshotEvery id request retries =>
    obtain ⟨-,rfl⟩ := step_call hs
    refine ⟨hf.erased,?_,hlate.set fun _ _ => Call.late_first l' ..⟩
    exact Nat.le_succ_of_le hf.begun
  | proceed fiber env =>
    obtain ⟨call,⟨s',c',call'⟩,hcall,hp,rfl⟩ := step_proceed hs
    obtain ⟨hname,hbegun⟩ := Call.proceed_streamName hp
    refine ⟨hf.erased,hf.begun,hlate.set ?_⟩
    rintro hn hb
    have hn' : call.streamName = streamName := hname.symm.trans hn
    have hnow := hf.late fiber call hcall hn' (hbegun ▸ hb)
    have hpin' : l.erased call.streamName ≠ none := hn' ▸ hpin
    have hnone := h.removed call.streamName (hn' ▸ hf.erased)
    have hnext := hnow.proceed hk hr hpin' hnone hp
    exact hnext.keepsPinned (hname ▸ hpin') hkeep
  | interrupt fiber =>
    obtain rfl := Option.some.inj hs
    exact ⟨hf.erased,hf.begun,hlate.remove⟩
  | eraseStream eraser removes request =>
    obtain rfl := step_eraseStream hs
    exact ⟨hf.erased,hf.begun,hlate⟩
  | proceedErasure eraser erasedAt =>
    obtain ⟨e,-,⟨-,rfl⟩ | ⟨-,rfl⟩⟩ := step_proceedErasure hs
    · have hframe : (x.writeLedger svc snapshots transactional eraser e erasedAt).calls = x.calls ∧
          (x.writeLedger svc snapshots transactional eraser e erasedAt).begun = x.begun ∧
          x.erased ⊆ (x.writeLedger svc snapshots transactional eraser e erasedAt).erased :=
        (x.writeLedger_frame eraser e erasedAt).2
      obtain ⟨hcalls,hbegun,herased⟩ := hframe
      constructor
      · exact herased hf.erased
      · rw [hbegun]
        exact hf.begun
      · rw [hcalls]
        exact hlate
    · exact ⟨List.mem_cons_of_mem _ hf.erased,hf.begun,hlate⟩
  | interruptErasure eraser =>
    obtain rfl := Option.some.inj hs
    exact ⟨hf.erased,hf.begun,hlate⟩

/-- Once the erasure of a stream has succeeded and its calls have finished, there is no snapshot of
the stream, and a later call returns nothing but the fold of its tombstones. -/
def ErasureRemoves (svc : EventStoreService S) (snapshots : SnapshotStoreService C State)
    (transactional : Bool) (kind : AggregateKind State Command Event Err)
    (allow : Snapshotted S C kind → Label Command → Prop) : Prop :=
  ∀ x, (runs svc snapshots transactional kind).Reaches allow x →
    ∀ streamName ∈ x.erased, x.Quiet streamName →
      snapshots.load x.snapshots streamName = none ∧
      ∀ y, (runs svc snapshots transactional kind).Leads allow x y →
        ∀ fiber call r, y.calls fiber = some call → call.streamName = streamName →
          x.begun ≤ call.begun → call.answer = some (.ok r) →
          kind.fold (kind.aggregate.initial,0) (svc.stream y.store streamName) = .ok (r.1,r.2.1) ∧
          ∀ e ∈ svc.stream y.store streamName, ∃ erasedAt, e.IsTombstone erasedAt

theorem erasureRemoves (hsnap : snapshots.Lawful) (hk : svc.KeepsLog R) :
    ErasureRemoves svc snapshots transactional kind (KeepsRemoved svc snapshots) := by
  intro x hx streamName he _
  obtain ⟨l,hr,hremoved,hrec⟩ := removed_of_reaches hsnap hk hx
  refine ⟨hremoved.removed streamName he,?_⟩
  intro y hy fiber call r hcall hname hbegun hanswer
  have hstart : Forgotten streamName x.begun x l := by
    refine ⟨he,le_rfl,?_⟩
    intro i call hcall _ hb
    have hlt := hremoved.begun i call hcall
    omega
  obtain ⟨l',hr',hremoved',-,hforgotten⟩ := hy.invariant
    (fun y => ∃ l, R y.store l ∧ Removed snapshots y l ∧ Recorded transactional y l ∧
      Forgotten streamName x.begun y l) ⟨l,hr,hremoved,hrec,hstart⟩ (by
    rintro a label b ⟨l,hr,ha,hrec,hf⟩ hl hs
    obtain ⟨l',hr',hkeep,hb,hrec'⟩ := ha.step hsnap hk hr hrec hl hs
    exact ⟨l',hr',hb,hrec',hf.step hk hr ha hs hkeep⟩)
  rw [hk.stream_eq hr']
  constructor
  · obtain ⟨result,hphase,rfl⟩ := Call.answer_ok hanswer
    have hlate := hforgotten.late fiber call hcall hname hbegun
    unfold Call.Late at hlate
    rw [hphase,hname] at hlate
    exact hlate
  · obtain ⟨record,hrecord⟩ := Option.ne_none_iff_exists'.mp (hremoved'.pinned streamName hforgotten.erased)
    intro e hmem
    exact ⟨record.erasedAt,((hk.wellFormed _ _ hr').pinned streamName record hrecord).1 e hmem⟩

/-- Any runtimes of an aggregate and any erasures, over either store. -/
theorem erasure_removes_snapshots (kind : AggregateKind State Command Event Err) (codec : StateCodec State) :
    ErasureRemoves inMemoryService (inMemorySnapshotStore State) false kind
        (KeepsRemoved inMemoryService (inMemorySnapshotStore State)) ∧
      ErasureRemoves sqliteService (sqlSnapshotStore codec) true kind
        (KeepsRemoved sqliteService (sqlSnapshotStore codec)) :=
  ⟨erasureRemoves (inMemorySnapshotStore_lawful State) inMemoryService_keepsLog,
    erasureRemoves (sqlSnapshotStore_lawful codec) sqliteService_keepsLog⟩

theorem keepsRemoved_of_none (h : x.erased = []) (hremoves : x.erasers.All fun e => e.removes = true)
    (label : Label Command) : KeepsRemoved svc snapshots x label := by
  cases label with
  | proceed fiber env =>
    intro call _ _
    rw [h]
    exact List.not_mem_nil
  | proceedErasure eraser erasedAt =>
    intro e he hkeeps
    rw [hremoves eraser e he] at hkeeps
    cases hkeeps
  | append _ _ _ | call _ _ _ _ _ | interrupt _ | eraseStream _ _ _ | interruptErasure _ => trivial

/-- An order is placed and its snapshot saved, and then its stream is erased. -/
def saveBeforeErasure : List (Label Unit) :=
  [.call 0 (some 1) "1" (.execute () none) 3,.proceed 0 clock,.proceed 0 clock,.proceed 0 clock,
    .proceed 0 clock,.eraseStream 0 true ⟨"order-1",1,"requested"⟩,
    .proceedErasure 0 "2024-06-01T00:00:00.000Z",.proceedErasure 0 "2024-06-01T00:00:00.000Z"]

theorem erasure_removes_snapshots_order :
    ∃ x, (runs inMemoryService (inMemorySnapshotStore ℕ) false orderCount).run saveBeforeErasure = some x ∧
      x.erased = ["order-1"] ∧ x.saved = [("order-1",1,1)] ∧
      (inMemorySnapshotStore ℕ).load x.snapshots "order-1" = none := by
  have hempty : (Fibers.empty : Fibers Eraser).All fun e => e.removes = true := Fibers.all_empty _
  have hone : ∀ phase, ((Fibers.empty : Fibers Eraser).set 0 ⟨⟨"order-1",1,"requested"⟩,true,phase⟩).All
      fun e => e.removes = true := fun _ => hempty.set rfl
  have r0 : (runs inMemoryService (inMemorySnapshotStore ℕ) false orderCount).Reaches
      (KeepsRemoved inMemoryService (inMemorySnapshotStore ℕ))
      (runs inMemoryService (inMemorySnapshotStore ℕ) false orderCount).init := Relation.ReflTransGen.refl
  have r1 := r0.step (keepsRemoved_of_none rfl hempty (.call 0 (some 1) "1" (.execute () none) 3)) rfl
  have r2 := r1.step (keepsRemoved_of_none rfl hempty (.proceed 0 clock)) rfl
  have r3 := r2.step (keepsRemoved_of_none rfl hempty (.proceed 0 clock)) rfl
  have r4 := r3.step (keepsRemoved_of_none rfl hempty (.proceed 0 clock)) rfl
  have r5 := r4.step (keepsRemoved_of_none rfl hempty (.proceed 0 clock)) rfl
  have r6 := r5.step (keepsRemoved_of_none rfl hempty (.eraseStream 0 true ⟨"order-1",1,"requested"⟩)) rfl
  have r7 := r6.step (keepsRemoved_of_none rfl (hone _) (.proceedErasure 0 "2024-06-01T00:00:00.000Z")) rfl
  have r8 := r7.step (keepsRemoved_of_none rfl ((hone _).set rfl) (.proceedErasure 0 "2024-06-01T00:00:00.000Z")) rfl
  refine ⟨_,rfl,rfl,rfl,?_⟩
  refine ((erasure_removes_snapshots orderCount orderCodec).1 _ r8 "order-1" List.mem_cons_self ?_).1
  intro fiber call hcall _
  cases fiber with
  | zero =>
    obtain rfl := Option.some.inj hcall
    rfl
  | succ fiber => cases hcall

/-- An order is placed and its stream erased, and then the snapshot of the order is saved. -/
def saveAfterErasure : List (Label Unit) :=
  [.call 0 (some 1) "1" (.execute () none) 3,.proceed 0 clock,.proceed 0 clock,.proceed 0 clock,
    .eraseStream 0 true ⟨"order-1",1,"requested"⟩,.proceedErasure 0 "2024-06-01T00:00:00.000Z",
    .proceedErasure 0 "2024-06-01T00:00:00.000Z",.proceed 0 clock]

/-- The save is not fenced by the erasure, and the snapshot of the erased order stays. -/
theorem erased_order_in_snapshot :
    ¬ ∀ (kind : AggregateKind ℕ Unit Unit Empty) (codec : StateCodec ℕ),
      ErasureRemoves inMemoryService (inMemorySnapshotStore ℕ) false kind (fun _ _ => True) ∧
        ErasureRemoves sqliteService (sqlSnapshotStore codec) true kind (fun _ _ => True) := by
  intro h
  obtain ⟨x,hrun,herased,hcall,hothers,hsnapshot⟩ : ∃ x,
      (runs inMemoryService (inMemorySnapshotStore ℕ) false orderCount).run saveAfterErasure = some x ∧
        x.erased = ["order-1"] ∧ ((x.calls 0).map Call.finished) = some true ∧
        (∀ fiber, x.calls (fiber + 1) = none) ∧
        (inMemorySnapshotStore ℕ).load x.snapshots "order-1" = some (1,1) :=
    ⟨_,rfl,rfl,rfl,fun _ => rfl,rfl⟩
  have hquiet : x.Quiet "order-1" := by
    intro fiber call hc _
    cases fiber with
    | zero =>
      rw [hc] at hcall
      exact Option.some.inj hcall
    | succ fiber =>
      rw [hothers] at hc
      cases hc
  have hmem : "order-1" ∈ x.erased := by
    rw [herased]
    exact List.mem_singleton_self _
  have hnone := ((h orderCount orderCodec).1 x (System.run_reachable hrun) "order-1" hmem hquiet).1
  rw [hsnapshot] at hnone
  cases hnone

end Snapshotted
end StructureAi.EventSourcing

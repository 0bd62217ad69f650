import StructureAi.EventSourcing.Projection
import StructureAi.Foundation.Fibers
import StructureAi.Sqlite.Agreement

/-! # Concurrent workers and rebuilds of a projection

Catch-ups, running workers and rebuilds of one projection interleave with each
other and with appends. A worker that loaded the checkpoint before a reset may
save after it; the runs in which none does lose no event.
-/
namespace StructureAi.EventSourcing
open StructureAi.Foundation StructureAi.Sqlite

inductive WorkerKind where
  | catchup
  | run
  | rebuild

inductive WorkerPhase where
  | reset
  | zero
  | catchup (x : Catchup)

structure Worker where
  kind : WorkerKind
  batchSize : ℕ
  phase : WorkerPhase
  /-- The reset count at its last load, if the checkpoint was then valid for the read model. -/
  loadedIn : Option ℕ

/-- Workers of one projection. `handled` holds the positions handled since the last reset;
`valid` is lost when a reset leaves the checkpoint beyond a handled event, until a zeroing. -/
structure Projecting (S C : Type) where
  store : S
  checkpoints : C
  workers : Fibers Worker
  handled : List ℤ
  resets : ℕ
  valid : Bool

namespace Projecting

inductive Label where
  | append (streamName : String) (expectedVersion : ℤ) (events : List AppendEvent)
  | start (worker : ℕ) (kind : WorkerKind) (batchSize : ℕ)
  | reset (worker : ℕ)
  | zero (worker : ℕ) (outcome : StepOutcome)
  | step (worker : ℕ) (outcome : StepOutcome)
  /-- The wait of a running worker ends: a signal or a poll. -/
  | wake (worker : ℕ)
  | interrupt (worker : ℕ)

variable {Event S C : Type} (projection : Projection Event) (svc : EventStoreService S)
  (checkpoints : CheckpointStoreService C)

def checkpoint (s : Projecting S C) : ℤ := checkpoints.load s.checkpoints projection.name

/-- No event at or below the checkpoint is of a type the projection handles. -/
def NothingToLose (s : Projecting S C) : Prop :=
  ∀ e ∈ svc.feed s.store, projection.handles e.type = true →
    s.checkpoint projection checkpoints < e.position

instance (s : Projecting S C) : Decidable (s.NothingToLose projection svc checkpoints) := by
  unfold NothingToLose
  infer_instance

def step (s : Projecting S C) : Label → Option (Projecting S C)
  | .append streamName expectedVersion events =>
    some {s with store := (svc.append s.store streamName expectedVersion events).1}
  | .start worker kind batchSize =>
    match s.workers worker with
    | some _ => none
    | none => some {s with workers := s.workers.set worker ⟨kind,batchSize,match kind with
        | .rebuild => .reset
        | _ => .catchup (Catchup.start true batchSize),none⟩}
  | .reset worker =>
    match s.workers worker with
    | some ⟨kind,batchSize,.reset,loadedIn⟩ => some {s with
        workers := s.workers.set worker ⟨kind,batchSize,.zero,loadedIn⟩
        handled := []
        resets := s.resets + 1
        valid := decide (s.NothingToLose projection svc checkpoints)}
    | _ => none
  | .zero worker outcome =>
    match s.workers worker,outcome with
    | some ⟨kind,batchSize,.zero,loadedIn⟩,.ok => some {s with
        checkpoints := checkpoints.save s.checkpoints projection.name 0
        workers := s.workers.set worker
          ⟨kind,batchSize,.catchup (Catchup.start false batchSize),loadedIn⟩
        valid := true}
    | some ⟨_,_,.zero,_⟩,.failed => some {s with workers := s.workers.remove worker}
    | some ⟨_,_,.zero,_⟩,.failedAfterWrite => some {s with
        checkpoints := checkpoints.save s.checkpoints projection.name 0
        workers := s.workers.remove worker
        valid := true}
    | _,_ => none
  | .step worker outcome =>
    match s.workers worker with
    | some ⟨kind,batchSize,.catchup x,loadedIn⟩ =>
      (x.step projection (svc.readAll s.store) (s.checkpoint projection checkpoints) outcome).map
        fun r => {s with
          checkpoints := match r.saved with
            | none => s.checkpoints
            | some position => checkpoints.save s.checkpoints projection.name position
          workers := s.workers.set worker ⟨kind,batchSize,.catchup r.next,match x.phase with
            | .load => if s.valid then some s.resets else none
            | _ => loadedIn⟩
          handled := (r.handled.map StoredEvent.position).toList ++ s.handled}
    | _ => none
  | .wake worker =>
    match s.workers worker with
    | some ⟨.run,batchSize,.catchup ⟨_,_,.returned,_⟩,loadedIn⟩ => some {s with
        workers := s.workers.set worker
          ⟨.run,batchSize,.catchup (Catchup.start true batchSize),loadedIn⟩}
    | _ => none
  | .interrupt worker => some {s with workers := s.workers.remove worker}

def runs : System (Projecting S C) Label :=
  ⟨⟨svc.init,checkpoints.init,Fibers.empty,[],0,true⟩,step projection svc checkpoints⟩

/-- A save follows a load that saw a valid checkpoint and no reset since; where the checkpoint is
not valid a save is free, as the zeroing overwrites it. -/
def SavesAfterLoad (s : Projecting S C) : Label → Prop
  | .step worker _ => ∀ w x position, s.workers worker = some w → w.phase = .catchup x →
    x.phase = .batch position [] → s.valid = true → w.loadedIn = some s.resets
  | _ => True

/-- A reset leaves no handled event at or below the checkpoint. -/
def ResetsNothing (s : Projecting S C) : Label → Prop
  | .reset _ => s.NothingToLose projection svc checkpoints
  | _ => True

/-- Every event up to the checkpoint that has a handler has been handled since the last reset. -/
def Complete (s : Projecting S C) : Prop :=
  ∀ e ∈ svc.feed s.store, e.position ≤ s.checkpoint projection checkpoints →
    projection.handles e.type = true → e.position ∈ s.handled

/-- A worker about to return, with no reset since its load, leaves a complete read model. -/
def ReturnsComplete (s : Projecting S C) : Prop :=
  ∀ worker w x k, s.workers worker = some w → w.phase = .catchup x → x.phase = .read k →
    w.loadedIn = some s.resets → 0 < x.batchSize →
    svc.readAll s.store {fromPosition := some (k + 1), batchSize := some x.batchSize} = .ok [] →
    ∀ e ∈ svc.feed s.store, projection.handles e.type = true → e.position ∈ s.handled

/-- The events of the log up to a position that have a handler have been handled. -/
def Covered (log : List StoredEvent) (handled : List ℤ) (position : ℤ) : Prop :=
  ∀ e ∈ log, e.position ≤ position → projection.handles e.type = true → e.position ∈ handled

variable {projection}

theorem Covered.mono {log : List StoredEvent} {handled handled' : List ℤ} {position : ℤ}
    (h : Covered projection log handled position) (hs : ∀ i ∈ handled, i ∈ handled') :
    Covered projection log handled' position :=
  fun e he hp hh => hs _ (h e he hp hh)

theorem Covered.append {log added : List StoredEvent} {handled : List ℤ} {position : ℤ}
    (h : Covered projection log handled position) (hp : position ≤ log.length)
    (ha : ∀ e ∈ added, (log.length : ℤ) < e.position) :
    Covered projection (log ++ added) handled position := by
  intro e he hle hh
  rcases List.mem_append.mp he with he | he
  · exact h e he hle hh
  · have := ha e he
    omega

/-- The next event of the log is covered once it has been handled or needs no handling. -/
theorem Covered.next {log : List StoredEvent} {handled handled' : List ℤ} {position : ℤ}
    {stored : StoredEvent} (h : Covered projection log handled position)
    (hw : Numbered StoredEvent.position log) (hm : stored ∈ log)
    (hp : stored.position = position + 1) (hs : ∀ i ∈ handled, i ∈ handled')
    (hh : projection.handles stored.type = true → stored.position ∈ handled') :
    Covered projection log handled' stored.position := by
  intro e he hle hhe
  by_cases hlt : e.position ≤ position
  · exact hs _ (h e he hlt hhe)
  · obtain rfl := hw.eq_of_number he hm (by omega)
    exact hh hhe

variable (projection)

/-- If the load of a fiber is still good, the events before what it has left are covered. -/
def CatchupCovered (log : List StoredEvent) (handled : List ℤ) (good : Prop) (x : Catchup) : Prop :=
  match x.phase with
  | .read k => good → Covered projection log handled k
  | .batch position _ => good → Covered projection log handled position
  | _ => True

def WorkerOk (log : List StoredEvent) (handled : List ℤ) (resets : ℕ) (w : Worker) : Prop :=
  (∀ n, w.loadedIn = some n → n ≤ resets) ∧
    match w.phase with
    | .catchup x => x.InPlace log ∧ CatchupCovered projection log handled (w.loadedIn = some resets) x
    | _ => True

structure Inv (R : S → EventLog → Prop) (s : Projecting S C) (l : EventLog) : Prop where
  store : R s.store l
  bounds : 0 ≤ s.checkpoint projection checkpoints ∧
    s.checkpoint projection checkpoints ≤ l.log.length
  covered : s.valid = true →
    Covered projection l.log s.handled (s.checkpoint projection checkpoints)
  workers : s.workers.All (WorkerOk projection l.log s.handled s.resets)

variable {projection svc checkpoints} {R : S → EventLog → Prop} {s s' : Projecting S C} {l : EventLog}

theorem CatchupCovered.mono {log : List StoredEvent} {handled handled' : List ℤ} {good good' : Prop}
    {x : Catchup} (h : CatchupCovered projection log handled good x) (hg : good' → good)
    (hs : good' → ∀ i ∈ handled, i ∈ handled') : CatchupCovered projection log handled' good' x := by
  unfold CatchupCovered at h ⊢
  split
  next k hp =>
    rw [hp] at h
    exact fun g => (h (hg g)).mono (hs g)
  next position rest hp =>
    rw [hp] at h
    exact fun g => (h (hg g)).mono (hs g)
  · trivial

theorem CatchupCovered.append {log added : List StoredEvent} {handled : List ℤ} {good : Prop}
    {x : Catchup} (h : CatchupCovered projection log handled good x) (hx : x.InPlace log)
    (ha : ∀ e ∈ added, (log.length : ℤ) < e.position) :
    CatchupCovered projection (log ++ added) handled good x := by
  unfold CatchupCovered at h ⊢
  split
  next k hp =>
    rw [hp] at h
    exact fun g => (h g).append (hx.read hp).2 ha
  next position rest hp =>
    rw [hp] at h
    exact fun g => (h g).append (hx.batch hp).1.2 ha
  · trivial

theorem Inv.append (hk : svc.KeepsLog R) (h : Inv projection checkpoints R s l) (streamName : String)
    (expectedVersion : ℤ) (events : List AppendEvent) :
    Inv projection checkpoints R
      {s with store := (svc.append s.store streamName expectedVersion events).1}
      (l.append streamName expectedVersion events).1 := by
  obtain ⟨added,hlog,ha⟩ := l.append_extends streamName expectedVersion events
  refine ⟨(hk.append _ _ streamName expectedVersion events h.store).1,⟨h.bounds.1,?_⟩,?_,?_⟩
  · rw [hlog,List.length_append]
    exact h.bounds.2.trans (by omega)
  · intro hv
    rw [hlog]
    exact (h.covered hv).append h.bounds.2 ha
  · rw [hlog]
    refine h.workers.imp fun w hw => ⟨hw.1,?_⟩
    obtain ⟨-,hphase⟩ := hw
    split
    next x hp =>
      rw [hp] at hphase
      exact ⟨hphase.1.append added,hphase.2.append hphase.1 ha⟩
    · trivial

/-- A step covers the event it passes; a load that may count as good finds the checkpoint covered. -/
theorem CatchupCovered.step (hk : svc.KeepsLog R) {store : S} (hr : R store l) {handled : List ℤ}
    {good good' : Prop} {x : Catchup} {c : ℤ} {outcome : StepOutcome} {r : Catchup.Step}
    (h : CatchupCovered projection l.log handled good x) (hx : x.InPlace l.log)
    (hload : x.phase = .load → good' → Covered projection l.log handled c)
    (hkeep : x.phase ≠ .load → good' → good)
    (hs : x.step projection (svc.readAll store) c outcome = some r) :
    CatchupCovered projection l.log ((r.handled.map StoredEvent.position).toList ++ handled) good'
      r.next := by
  unfold Catchup.step at hs
  unfold CatchupCovered at h
  cases hp : x.phase with
  | load =>
    rw [hp] at hs
    obtain rfl := Option.some.inj hs
    cases outcome with
    | ok => exact hload hp
    | failed | failedAfterWrite => trivial
  | read k =>
    have hne : x.phase ≠ .load := by rw [hp]; exact fun he => by cases he
    rw [hp] at hs h
    obtain rfl := Option.some.inj hs
    obtain ⟨events,hread,-⟩ := hk.batch hr (hx.read hp).1 x.batchSize
    rw [hread]
    cases events with
    | nil => trivial
    | cons stored rest => exact fun g => h (hkeep hne g)
  | batch position rest =>
    have hne : x.phase ≠ .load := by rw [hp]; exact fun he => by cases he
    obtain ⟨-,hnum,hmem⟩ := hx.batch hp
    rw [hp] at hs h
    cases rest with
    | nil =>
      obtain rfl := Option.some.inj hs
      cases outcome <;> trivial
    | cons stored rest =>
      obtain rfl := Option.some.inj hs
      rcases Catchup.handleNext_cases projection x stored rest outcome with
        ⟨e,he⟩ | ⟨stats,handled',he,hh⟩ <;> rw [he]
      · trivial
      · intro g
        refine (h (hkeep hne g)).next (hk.wellFormed store l hr).positions
          (hmem stored List.mem_cons_self) hnum.1 ?_ ?_
        · exact fun i hi => List.mem_append_right _ hi
        · intro hhandles
          rw [hh hhandles]
          exact List.mem_append_left _ List.mem_cons_self
  | returned =>
    rw [hp] at hs
    cases hs
  | failed e =>
    rw [hp] at hs
    cases hs

theorem WorkerOk.mono {log : List StoredEvent} {handled handled' : List ℤ} {resets : ℕ} {w : Worker}
    (h : WorkerOk projection log handled resets w) (hs : ∀ i ∈ handled, i ∈ handled') :
    WorkerOk projection log handled' resets w := by
  refine ⟨h.1,?_⟩
  obtain ⟨-,hphase⟩ := h
  split
  next x hp =>
    rw [hp] at hphase
    exact ⟨hphase.1,hphase.2.mono id fun _ => hs⟩
  · trivial

theorem WorkerOk.reset {log : List StoredEvent} {handled : List ℤ} {resets : ℕ} {w : Worker}
    (h : WorkerOk projection log handled resets w) : WorkerOk projection log [] (resets + 1) w := by
  obtain ⟨hle,hphase⟩ := h
  have hstale : w.loadedIn ≠ some (resets + 1) := by
    intro hl
    have := hle _ hl
    omega
  refine ⟨fun n hn => (hle n hn).trans (Nat.le_succ resets),?_⟩
  split
  next x hp =>
    rw [hp] at hphase
    exact ⟨hphase.1,hphase.2.mono (fun hl => absurd hl hstale) fun hl => absurd hl hstale⟩
  · trivial

theorem covered_zero (hw : l.WellFormed) (handled : List ℤ) : Covered projection l.log handled 0 := by
  intro e he hle
  have := (hw.positions.bounds he).1
  omega

theorem Inv.step (hk : svc.KeepsLog R) (hc : checkpoints.Lawful) {label : Label}
    (h : Inv projection checkpoints R s l) (ha : s.SavesAfterLoad label)
    (hs : s.step projection svc checkpoints label = some s') :
    ∃ l', Inv projection checkpoints R s' l' := by
  have hw := hk.wellFormed s.store l h.store
  cases label with
  | append streamName expectedVersion events =>
    obtain rfl := Option.some.inj hs
    exact ⟨_,h.append hk streamName expectedVersion events⟩
  | start worker kind batchSize =>
    simp only [Projecting.step] at hs
    split at hs
    · cases hs
    · obtain rfl := Option.some.inj hs
      refine ⟨l,h.store,h.bounds,h.covered,h.workers.set ⟨?_,?_⟩⟩
      · exact fun n hn => by cases hn
      · cases kind <;> trivial
  | reset worker =>
    simp only [Projecting.step] at hs
    split at hs
    next kind batchSize loadedIn hx =>
      obtain rfl := Option.some.inj hs
      refine ⟨l,h.store,h.bounds,fun hv => ?_,?_⟩
      · have hnothing : s.NothingToLose projection svc checkpoints := of_decide_eq_true hv
        intro e he hle hh
        have hlt := hnothing e (by rwa [hk.feed_eq h.store]) hh
        exact absurd hle (not_le.mpr hlt)
      · have hall := h.workers.imp fun w hw => hw.reset
        exact hall.set ⟨fun n hn => (hall worker _ hx).1 n hn,trivial⟩
    · cases hs
  | zero worker outcome =>
    simp only [Projecting.step] at hs
    split at hs
    next hx =>
      obtain rfl := Option.some.inj hs
      refine ⟨l,h.store,?_,fun _ => ?_,h.workers.set ⟨(h.workers worker _ hx).1,trivial,trivial⟩⟩
      · simp only [checkpoint,hc.load_save]
        omega
      · simp only [checkpoint,hc.load_save]
        exact covered_zero hw _
    · obtain rfl := Option.some.inj hs
      exact ⟨l,h.store,h.bounds,h.covered,h.workers.remove⟩
    · obtain rfl := Option.some.inj hs
      refine ⟨l,h.store,?_,fun _ => ?_,h.workers.remove⟩
      · simp only [checkpoint,hc.load_save]
        omega
      · simp only [checkpoint,hc.load_save]
        exact covered_zero hw _
    · cases hs
  | step worker outcome =>
    simp only [Projecting.step] at hs
    split at hs
    next kind batchSize x loadedIn hx =>
      obtain ⟨r,hr,rfl⟩ := Option.map_eq_some_iff.mp hs
      obtain ⟨hle,hplace,hcov⟩ := h.workers worker _ hx
      let loaded : Option ℕ := match x.phase with
        | .load => if s.valid then some s.resets else none
        | _ => loadedIn
      have hload : x.phase = .load → loaded = some s.resets →
          Covered projection l.log s.handled (s.checkpoint projection checkpoints) := by
        intro hp hl
        refine h.covered ?_
        simp only [loaded,hp] at hl
        by_contra hv
        rw [if_neg hv] at hl
        cases hl
      have hkeep : x.phase ≠ .load → loaded = some s.resets → loadedIn = some s.resets := by
        intro hp hl
        cases hx' : x.phase <;> simp_all [loaded]
      have hle' : ∀ n, loaded = some n → n ≤ s.resets := by
        intro n hn
        cases hp : x.phase with
        | load =>
          simp only [loaded,hp] at hn
          split at hn
          · exact (Option.some.inj hn).ge
          · cases hn
        | read k => simp only [loaded,hp] at hn; exact hle n hn
        | batch position rest => simp only [loaded,hp] at hn; exact hle n hn
        | returned => simp only [loaded,hp] at hn; exact hle n hn
        | failed e => simp only [loaded,hp] at hn; exact hle n hn
      obtain ⟨hnext,hsaved⟩ := hplace.step hk h.store h.bounds hr
      have hcov' := hcov.step hk h.store hplace hload hkeep hr
      have hmono : ∀ i ∈ s.handled,
          i ∈ (r.handled.map StoredEvent.position).toList ++ s.handled :=
        fun i hi => List.mem_append_right _ hi
      have hnew : WorkerOk projection l.log
          ((r.handled.map StoredEvent.position).toList ++ s.handled) s.resets
          ⟨kind,batchSize,.catchup r.next,loaded⟩ := ⟨hle',hnext,hcov'⟩
      refine ⟨l,h.store,?_,?_,(h.workers.imp fun w hw => hw.mono hmono).set hnew⟩
      · cases hq : r.saved with
        | none => exact h.bounds
        | some position =>
          simp only [checkpoint,hc.load_save]
          exact (hplace.batch (hsaved position hq).1).1
      · intro hv
        cases hq : r.saved with
        | none => exact (h.covered hv).mono hmono
        | some position =>
          have hp := (hsaved position hq).1
          unfold CatchupCovered at hcov
          rw [hp] at hcov
          simp only [checkpoint,hc.load_save]
          exact (hcov (ha _ x position hx rfl hp hv)).mono hmono
    · cases hs
  | wake worker =>
    simp only [Projecting.step] at hs
    split at hs
    next hx =>
      obtain rfl := Option.some.inj hs
      exact ⟨l,h.store,h.bounds,h.covered,h.workers.set ⟨(h.workers worker _ hx).1,trivial,trivial⟩⟩
    · cases hs
  | interrupt worker =>
    obtain rfl := Option.some.inj hs
    exact ⟨l,h.store,h.bounds,h.covered,h.workers.remove⟩

theorem Inv.complete (hk : svc.KeepsLog R) (h : Inv projection checkpoints R s l)
    (hv : s.valid = true) : s.Complete projection svc checkpoints := by
  unfold Complete
  rw [hk.feed_eq h.store]
  exact h.covered hv

theorem Inv.returnsComplete (hk : svc.KeepsLog R) (h : Inv projection checkpoints R s l) :
    s.ReturnsComplete projection svc := by
  intro worker w x k hw hx hp hl hpos hread
  obtain ⟨-,hok⟩ := h.workers worker w hw
  rw [hx] at hok
  obtain ⟨hplace,hcov⟩ := hok
  unfold CatchupCovered at hcov
  rw [hp] at hcov
  obtain ⟨events,hread',-,-,hend⟩ := hk.batch h.store (hplace.read hp).1 x.batchSize
  have hlen := hend (Except.ok.inj (hread'.symm.trans hread)) hpos
  rw [hk.feed_eq h.store]
  intro e he hh
  have hb := ((hk.wellFormed s.store l h.store).positions.bounds he).2
  exact hcov hl e he (by omega) hh

theorem inv_of_reaches (hk : svc.KeepsLog R) (hc : checkpoints.Lawful)
    (h : (runs projection svc checkpoints).Reaches SavesAfterLoad s) :
    ∃ l, Inv projection checkpoints R s l := by
  refine h.invariant (fun s => ∃ l, Inv projection checkpoints R s l) ?_ ?_
  · refine ⟨EventLog.empty,hk.init,?_,?_,Fibers.all_empty _⟩
    · simp only [runs,checkpoint,hc.load_init]
      exact ⟨le_rfl,le_rfl⟩
    · intro _ e he
      cases he
  · rintro a label b ⟨l,ha⟩ hl hs
    exact ha.step hk hc hl hs

theorem valid_of_reaches (h : (runs projection svc checkpoints).Reaches
    (fun s label => s.SavesAfterLoad label ∧ s.ResetsNothing projection svc checkpoints label) s) :
    s.valid = true := by
  refine h.invariant (fun s => s.valid = true) rfl ?_
  rintro a label b ha ⟨-,hr⟩ hs
  cases label with
  | append streamName expectedVersion events =>
    obtain rfl := Option.some.inj hs
    exact ha
  | reset worker =>
    simp only [runs,Projecting.step] at hs
    split at hs
    · obtain rfl := Option.some.inj hs
      exact decide_eq_true hr
    · cases hs
  | zero worker outcome =>
    simp only [runs,Projecting.step] at hs
    split at hs
    · obtain rfl := Option.some.inj hs
      rfl
    · obtain rfl := Option.some.inj hs
      exact ha
    · obtain rfl := Option.some.inj hs
      rfl
    · cases hs
  | start worker kind batchSize =>
    simp only [runs,Projecting.step] at hs
    split at hs
    · cases hs
    · obtain rfl := Option.some.inj hs
      exact ha
  | step worker outcome =>
    simp only [runs,Projecting.step] at hs
    split at hs
    · obtain ⟨r,-,rfl⟩ := Option.map_eq_some_iff.mp hs
      exact ha
    · cases hs
  | wake worker =>
    simp only [runs,Projecting.step] at hs
    split at hs
    · obtain rfl := Option.some.inj hs
      exact ha
    · cases hs
  | interrupt worker =>
    obtain rfl := Option.some.inj hs
    exact ha

variable (projection svc checkpoints)

/-- In the runs whose saves follow a good load, the read model is complete up to every valid
checkpoint and a worker returns with a complete one; if no reset finds anything to lose the
checkpoint is valid throughout. -/
def LosesNothing : Prop :=
  (∀ s, (runs projection svc checkpoints).Reaches SavesAfterLoad s →
    (s.valid = true → s.Complete projection svc checkpoints) ∧ s.ReturnsComplete projection svc) ∧
  ∀ s, (runs projection svc checkpoints).Reaches
      (fun s label => s.SavesAfterLoad label ∧ s.ResetsNothing projection svc checkpoints label) s →
    s.Complete projection svc checkpoints

variable {projection svc checkpoints}

theorem losesNothing (hk : svc.KeepsLog R) (hc : checkpoints.Lawful) :
    LosesNothing projection svc checkpoints := by
  constructor
  · intro s h
    obtain ⟨l,hi⟩ := inv_of_reaches hk hc h
    exact ⟨hi.complete hk,hi.returnsComplete hk⟩
  · intro s h
    have hsaves := System.Leads.mono (fun _ _ ha => ha.1) h
    obtain ⟨l,hi⟩ := inv_of_reaches hk hc hsaves
    exact hi.complete hk (valid_of_reaches h)

/-- Over the in-memory and the SQL stores, for any number of workers and rebuilds. -/
theorem workers_lose_nothing (projection : Projection Event) :
    LosesNothing projection inMemoryService inMemoryCheckpointStore ∧
    LosesNothing projection inMemoryService sqlCheckpointStore ∧
    LosesNothing projection sqliteService sqlCheckpointStore :=
  ⟨losesNothing inMemoryService_keepsLog inMemoryCheckpointStore_lawful,
    losesNothing inMemoryService_keepsLog sqlCheckpointStore_lawful,
    losesNothing sqliteService_keepsLog sqlCheckpointStore_lawful⟩

/-- What the runs below check of every step. -/
def loadedSince (s : Projecting S C) : Label → Bool
  | .step worker _ => (s.workers worker).all fun w =>
    match w.phase with
    | .catchup ⟨_,_,.batch _ [],_⟩ => decide (w.loadedIn = some s.resets)
    | _ => true
  | _ => true

theorem savesAfterLoad_of_loadedSince {label : Label} (h : loadedSince s label = true) : s.SavesAfterLoad label := by
  cases label with
  | step worker outcome =>
    rintro ⟨kind,batchSize,phase,loadedIn⟩ ⟨live,size,place,stats⟩ position hw hphase hplace -
    dsimp only at hphase hplace
    subst hphase hplace
    rw [loadedSince,hw,Option.all_some] at h
    exact of_decide_eq_true h
  | append _ _ _ | start _ _ _ | reset _ | zero _ _ | wake _ | interrupt _ => trivial

def placeOrder : Label := .append "order-1" 0 [orderPlacedEvent]

def stepsOf (worker n : ℕ) : List Label := List.replicate n (.step worker .ok)

/-- Two workers handle the order and wait; a rebuild resets and zeroes, and beside it one of them wakes, loads the
zeroed checkpoint and handles the order again. -/
def rebuildBesideWaiting : List Label :=
  placeOrder :: .start 0 .run 100 :: .start 1 .run 100 :: stepsOf 0 6 ++ stepsOf 1 2 ++
    .start 2 .rebuild 100 :: .reset 2 :: .zero 2 .ok :: stepsOf 2 2 ++ .wake 0 :: stepsOf 0 4 ++ stepsOf 2 4

theorem workers_lose_nothing_alone :
    ∃ s, ((runs orderTotals inMemoryService inMemoryCheckpointStore).guard loadedSince).run rebuildBesideWaiting =
        some s ∧ s.checkpoint orderTotals inMemoryCheckpointStore = 1 ∧ s.resets = 1 ∧ s.handled = [1,1] ∧
      s.Complete orderTotals inMemoryService inMemoryCheckpointStore := by
  have hends : (((runs orderTotals inMemoryService inMemoryCheckpointStore).guard loadedSince).run rebuildBesideWaiting).map
      (fun s => (s.valid,s.checkpoint orderTotals inMemoryCheckpointStore,s.resets,s.handled)) = some (true,1,1,[1,1]) := by
    decide +kernel
  obtain ⟨s,hs,hends⟩ := Option.map_eq_some_iff.mp hends
  obtain ⟨hvalid,hends⟩ := Prod.mk.inj hends
  obtain ⟨hcheckpoint,hends⟩ := Prod.mk.inj hends
  obtain ⟨hresets,hhandled⟩ := Prod.mk.inj hends
  have hr := System.guard_run_reaches (fun _ _ => savesAfterLoad_of_loadedSince) hs
  exact ⟨s,hs,hcheckpoint,hresets,hhandled,((workers_lose_nothing orderTotals).1.1 s hr).1 hvalid⟩

/-- A worker reads the order before a rebuild resets the read model and saves its checkpoint after
the zeroing, so that nothing is left to replay. -/
def rebuildBesideWorker : List Label :=
  [placeOrder,.start 0 .run 100,.step 0 .ok,.step 0 .ok,.step 0 .ok,.start 1 .rebuild 100,.reset 1,
    .zero 1 .ok,.step 0 .ok]

theorem rebuild_beside_worker_loses_order :
    ¬ ∀ s, (runs orderTotals inMemoryService inMemoryCheckpointStore).Reachable s →
      s.Complete orderTotals inMemoryService inMemoryCheckpointStore := by
  intro h
  have hr := System.run_reachable
    (show (runs orderTotals inMemoryService inMemoryCheckpointStore).run rebuildBesideWorker =
      some _ from rfl)
  have hc := h _ hr
  unfold Complete at hc
  exact absurd (hc _ List.mem_cons_self (by decide) (by decide)) (by decide)

end Projecting
end StructureAi.EventSourcing

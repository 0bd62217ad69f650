import StructureAi.EventSourcing.ProjectionRebuild
import StructureAi.Foundation.Redelivery

/-! # One runner of a projection

Catch-ups run one after the other, and any handler, decoder, load or save may fail,
before or after its effect. Each run handles exactly the events between the
checkpoint it started from and where it stands, and the read model catches up with
the fold over the feed.
-/
namespace StructureAi.EventSourcing
open StructureAi.Foundation StructureAi.Sqlite

section Project
variable {Event M : Type} (projection : Projection Event) (handler : Event → StoredEvent → M → M)

/-- What an event of the feed does to the read model. That an event is replayed (`live`) only
suppresses effects elsewhere. -/
def Projection.project (m : M) (stored : StoredEvent) : M :=
  if projection.handles stored.type then
    match projection.registry.decode stored.serialized with
    | .ok event => handler event stored m
    | .error _ => m
  else m

def Projection.breaking : Option EventDecodeError → Projection Event
  | none => projection
  | some e => {projection with registry := {projection.registry with decode := fun _ => .error e}}

def FeedStretch (events : List StoredEvent) : Prop := ∃ k, NumberedFrom StoredEvent.position k events

/-- Handling a stretch of the feed again changes nothing. -/
def IdempotentHandlers : Prop := Idempotent FeedStretch (projection.project handler)

end Project

/-- A projection with one runner; its catch-ups and what they did are followed by position. -/
structure Projected (S C M : Type) where
  store : S
  checkpoints : C
  model : M
  runner : Option Catchup
  /-- The checkpoint the current run started from. -/
  since : Option ℤ
  /-- The last event the current run has passed. -/
  reached : ℤ
  /-- The events handled in the current run, oldest first. -/
  run : List ℤ
  handled : List ℤ

namespace Projected

inductive Label where
  | append (streamName : String) (expectedVersion : ℤ) (events : List AppendEvent)
  | start (batchSize : ℕ)
  /-- `broken` is how the decoder fails at this step, if it does. -/
  | step (broken : Option EventDecodeError) (outcome : StepOutcome)
  | interrupt

variable {Event S C M : Type} (projection : Projection Event) (handler : Event → StoredEvent → M → M)
  (svc : EventStoreService S) (checkpoints : CheckpointStoreService C) (init : M)

def checkpoint (s : Projected S C M) : ℤ := checkpoints.load s.checkpoints projection.name

def begin (s : Projected S C M) (live : Bool) (batchSize : ℕ) : Projected S C M :=
  {s with runner := some (Catchup.start live batchSize), since := none, reached := 0, run := []}

/-- The event a step brings into the read model; a handler may fail after its effect. -/
def effect (x : Catchup) (broken : Option EventDecodeError) (outcome : StepOutcome) : Option StoredEvent :=
  match x.phase,broken,outcome with
  | .batch _ (stored :: _),none,.ok => some stored
  | .batch _ (stored :: _),none,.failedAfterWrite => some stored
  | _,_,_ => none

def advance (s : Projected S C M) (broken : Option EventDecodeError) (outcome : StepOutcome) :
    Option Catchup.Step :=
  s.runner.bind fun x =>
    x.step (projection.breaking broken) (svc.readAll s.store) (s.checkpoint projection checkpoints) outcome

def record (s : Projected S C M) (x : Catchup) (broken : Option EventDecodeError) (outcome : StepOutcome)
    (r : Catchup.Step) : Projected S C M := {s with
  checkpoints := match r.saved with
    | none => s.checkpoints
    | some position => checkpoints.save s.checkpoints projection.name position
  model := (effect x broken outcome).elim s.model (projection.project handler s.model)
  runner := some r.next
  since := match r.next.phase with
    | .read k => some (s.since.getD k)
    | _ => s.since
  reached := match r.next.phase with
    | .read k => k
    | .batch position _ => position
    | _ => s.reached
  run := s.run ++ (r.handled.map StoredEvent.position).toList
  handled := (r.handled.map StoredEvent.position).toList ++ s.handled}

def Idle (s : Projected S C M) : Bool :=
  match s.runner with
  | none | some ⟨_,_,.returned,_⟩ | some ⟨_,_,.failed _,_⟩ => true
  | _ => false

def step (s : Projected S C M) : Label → Option (Projected S C M)
  | .append streamName expectedVersion events =>
    some {s with store := (svc.append s.store streamName expectedVersion events).1}
  | .start batchSize => if s.Idle ∧ 0 < batchSize then some (s.begin true batchSize) else none
  | .step broken outcome => s.runner.bind fun x =>
    (s.advance projection svc checkpoints broken outcome).map
      (s.record projection handler checkpoints x broken outcome)
  | .interrupt => some {s with runner := none}

/-- Catch-ups by one runner, with `batchSize` at least one, of a consumer that starts unseen. -/
def runs : System (Projected S C M) Label :=
  ⟨⟨svc.init,checkpoints.init,init,none,none,0,[],[]⟩,step projection handler svc checkpoints⟩

/-- A rebuild after its reset and the zeroing of the checkpoint. -/
def rebuild (s : Projected S C M) (batchSize : ℕ) : Projected S C M :=
  {s with
    checkpoints := checkpoints.save s.checkpoints projection.name 0
    model := init
    handled := []}.begin false batchSize

/-- What is claimed of a state and of the next step of the run. -/
structure Exact (s : Projected S C M) : Prop where
  /-- The run has handled the events of handled types it has passed, and no others. -/
  passed : ∀ a, s.since = some a → s.run = (((stretch (svc.feed s.store) a.toNat s.reached.toNat).filter
    fun e => projection.handles e.type).map StoredEvent.position)
  increasing : s.run.Pairwise (· < ·)
  covered : ∀ e ∈ svc.feed s.store, e.position ≤ s.checkpoint projection checkpoints →
    projection.handles e.type = true → e.position ∈ s.handled
  /-- A handled event lies beyond the saved checkpoint. -/
  unsaved : ∀ broken outcome r stored, s.advance projection svc checkpoints broken outcome = some r →
    r.handled = some stored → s.checkpoint projection checkpoints < stored.position
  /-- A save advances, past events that were handled or need no handling. -/
  advances : ∀ broken outcome r position, s.advance projection svc checkpoints broken outcome = some r →
    r.saved = some position → s.checkpoint projection checkpoints < position ∧
      ∀ e ∈ svc.feed s.store, e.position ≤ position → projection.handles e.type = true →
        e.position ∈ s.handled
  /-- A run that returns leaves the fold over the feed. -/
  returned : ∀ broken outcome r, s.advance projection svc checkpoints broken outcome = some r →
    r.next.phase = .returned →
      s.model = (svc.feed s.store).foldl (projection.project handler) init ∧
        ∀ e ∈ svc.feed s.store, projection.handles e.type = true → e.position ∈ s.handled

/-- Where the runner stands: after the event it has passed in a batch, else at the checkpoint. -/
def place (s : Projected S C M) : ℤ :=
  match s.runner with
  | some ⟨_,_,.batch position _,_⟩ => position
  | _ => s.checkpoint projection checkpoints

/-- The positions of the events of handled types of a stretch. -/
def passedIn (log : List StoredEvent) (since reached : ℤ) : List ℤ :=
  ((stretch log since.toNat reached.toNat).filter fun e => projection.handles e.type).map
    StoredEvent.position

def RunOk (log : List StoredEvent) (since : Option ℤ) (reached : ℤ) (run : List ℤ) : Prop :=
  match since with
  | none => run = []
  | some a => 0 ≤ a ∧ a ≤ reached ∧ reached ≤ log.length ∧ run = passedIn projection log a reached

def RunnerOk (log : List StoredEvent) (checkpoint : ℤ) (since : Option ℤ) (reached : ℤ) (x : Catchup) :
    Prop :=
  0 < x.batchSize ∧ x.InPlace log ∧ match x.phase with
    | .load => since ≠ none → reached = checkpoint
    | .read k => k = checkpoint ∧ since ≠ none ∧ reached = k
    | .batch position rest => since ≠ none ∧ reached = position ∧ (rest = [] → checkpoint < position)
    | _ => True

structure Inv (R : S → EventLog → Prop) (s : Projected S C M) (l : EventLog) : Prop where
  store : R s.store l
  bounds : 0 ≤ s.checkpoint projection checkpoints ∧
    s.checkpoint projection checkpoints ≤ s.place projection checkpoints
  delivered : Delivered (projection.project handler) l.log init (s.checkpoint projection checkpoints).toNat
    (s.place projection checkpoints).toNat s.model
  covered : Projecting.Covered projection l.log s.handled (s.place projection checkpoints)
  runner : ∀ x, s.runner = some x →
    RunnerOk l.log (s.checkpoint projection checkpoints) s.since s.reached x
  run : RunOk projection l.log s.since s.reached s.run

variable {projection handler svc checkpoints init} {R : S → EventLog → Prop} {s s' : Projected S C M}
  {l : EventLog}

theorem feedStretch_stretch {log : List StoredEvent} (hn : Numbered StoredEvent.position log) (i j : ℕ) :
    FeedStretch (stretch log i j) := by
  have ht := hn.take j
  rw [← List.take_append_drop i (log.take j),NumberedFrom.append_iff] at ht
  exact ⟨_,ht.2⟩

theorem getElem_of_next {log : List StoredEvent} (hn : Numbered StoredEvent.position log)
    {stored : StoredEvent} (hm : stored ∈ log) {position : ℤ} (h0 : 0 ≤ position)
    (hp : stored.position = position + 1) : log[position.toNat]? = some stored := by
  obtain ⟨i,hi,rfl⟩ := List.mem_iff_getElem.mp hm
  have hpos := hn.getElem i hi
  have hindex : position.toNat = i := by omega
  rw [hindex,List.getElem?_eq_getElem hi]

theorem handles_breaking (broken : Option EventDecodeError) (type : String) :
    (projection.breaking broken).handles type = projection.handles type := by
  cases broken <;> rfl

theorem project_of_not_handles {m : M} {stored : StoredEvent} (h : projection.handles stored.type = false) :
    projection.project handler m stored = m := by
  rw [Projection.project,if_neg (by rw [h]; exact Bool.false_ne_true)]

theorem batch_cases (handler : Event → StoredEvent → M → M) (x : Catchup) (position : ℤ) (stored : StoredEvent)
    (rest : List StoredEvent)
    (hx : x.phase = .batch position (stored :: rest)) (broken : Option EventDecodeError)
    (outcome : StepOutcome) (m : M) :
    (∃ e, x.handleNext (projection.breaking broken) stored rest outcome =
        {next := {x with phase := .failed e}} ∧
      ((effect x broken outcome).elim m (projection.project handler m) = m ∨
        (effect x broken outcome).elim m (projection.project handler m) =
          projection.project handler m stored)) ∨
    ∃ stats, x.handleNext (projection.breaking broken) stored rest outcome =
        {next := {x with phase := .batch stored.position rest, stats := stats}
         handled := if projection.handles stored.type then some stored else none} ∧
      (effect x broken outcome).elim m (projection.project handler m) =
        projection.project handler m stored := by
  have heffect : (effect x broken outcome).elim m (projection.project handler m) = m ∨
      (effect x broken outcome).elim m (projection.project handler m) =
        projection.project handler m stored := by
    unfold effect
    rw [hx]
    cases broken <;> cases outcome <;> simp
  cases hh : projection.handles stored.type with
  | false =>
    rw [project_of_not_handles hh,or_self] at heffect
    right
    rw [project_of_not_handles hh,heffect]
    rw [← handles_breaking broken,Projection.handles,Bool.and_eq_false_iff] at hh
    unfold Catchup.handleNext
    split
    next => exact ⟨_,rfl,rfl⟩
    next hhas =>
      have hwhen : (projection.breaking broken).when stored.type = false := by
        refine hh.resolve_left fun hnone => hhas ?_
        rw [hnone]
        rfl
      rw [if_neg (by rw [hwhen]; exact Bool.false_ne_true)]
      exact ⟨x.stats,rfl,rfl⟩
  | true =>
    have hboth := hh
    rw [← handles_breaking broken,Projection.handles,Bool.and_eq_true] at hboth
    unfold Catchup.handleNext
    simp only [hboth.1,hboth.2,Bool.not_true,Bool.false_eq_true,if_false,if_true]
    cases broken with
    | some e => exact Or.inl ⟨_,rfl,heffect⟩
    | none =>
      cases hdecode : (projection.breaking none).registry.decode stored.serialized with
      | error e => exact Or.inl ⟨_,rfl,heffect⟩
      | ok event =>
        cases outcome with
        | ok =>
          refine Or.inr ⟨_,rfl,?_⟩
          unfold effect
          rw [hx]
          rfl
        | failed | failedAfterWrite => exact Or.inl ⟨_,rfl,heffect⟩

theorem Inv.place_le (h : Inv projection handler checkpoints init R s l) :
    s.place projection checkpoints ≤ l.log.length := by
  have := h.delivered.2.1
  omega

theorem Inv.back (hn : Numbered StoredEvent.position l.log) (hf : IdempotentHandlers projection handler)
    (h : Inv projection handler checkpoints init R s l) :
    Delivered (projection.project handler) l.log init (s.checkpoint projection checkpoints).toNat
      (s.checkpoint projection checkpoints).toNat s.model ∧
    Projecting.Covered projection l.log s.handled (s.checkpoint projection checkpoints) := by
  refine ⟨h.delivered.retry hf fun i j _ => feedStretch_stretch hn i j,fun e he hle hh => ?_⟩
  exact h.covered e he (hle.trans h.bounds.2) hh

theorem RunOk.append {log added : List StoredEvent} {since : Option ℤ} {reached : ℤ} {run : List ℤ}
    (h : RunOk projection log since reached run) :
    RunOk projection (log ++ added) since reached run := by
  cases since with
  | none => exact h
  | some a =>
    obtain ⟨h0,har,hr,hrun⟩ := h
    refine ⟨h0,har,?_,?_⟩
    · rw [List.length_append]
      omega
    · rw [hrun,passedIn,passedIn,stretch_grow (by omega)]

theorem RunOk.next {log : List StoredEvent} (hn : Numbered StoredEvent.position log) {since : Option ℤ}
    {position : ℤ} {run : List ℤ} (h : RunOk projection log since position run) (hs : since ≠ none)
    {stored : StoredEvent} (hm : stored ∈ log) (hp : stored.position = position + 1) :
    RunOk projection log since stored.position
      (run ++ ((if projection.handles stored.type then some stored else none).map
        StoredEvent.position).toList) := by
  cases since with
  | none => exact absurd rfl hs
  | some a =>
    obtain ⟨h0,har,hr,hrun⟩ := h
    have hb := (hn.bounds hm).2
    have hget := getElem_of_next hn hm (by omega) hp
    have hnat : stored.position.toNat = position.toNat + 1 := by omega
    refine ⟨h0,by omega,by omega,?_⟩
    rw [hrun,passedIn,passedIn,hnat,← stretch_append (by omega) (Nat.le_succ position.toNat) (by omega),
      stretch_succ hget,List.filter_append,List.map_append]
    congr 1
    by_cases hh : projection.handles stored.type = true
    · simp [hh]
    · simp [hh]

theorem RunOk.begin {log : List StoredEvent} {since : Option ℤ} {reached : ℤ} {run : List ℤ} {c : ℤ}
    (h : RunOk projection log since reached run) (hr : since ≠ none → reached = c) (h0 : 0 ≤ c)
    (hc : c ≤ log.length) : RunOk projection log (some (since.getD c)) c run := by
  cases since with
  | none =>
    obtain rfl : run = [] := h
    refine ⟨h0,le_rfl,hc,?_⟩
    rw [passedIn,Option.getD_none,stretch_self]
    rfl
  | some a =>
    obtain rfl := hr (Option.some_ne_none a)
    exact h

section Step
variable {live : Bool} {batchSize : ℕ} {stats : CatchupStats} {broken : Option EventDecodeError}
  {outcome : StepOutcome}

theorem Inv.fail (hn : Numbered StoredEvent.position l.log) (hf : IdempotentHandlers projection handler)
    (h : Inv projection handler checkpoints init R s l) {x : Catchup} (hx : s.runner = some x)
    {e : ProjectionFailure} {place : ℕ}
    (hd : Delivered (projection.project handler) l.log init (s.checkpoint projection checkpoints).toNat place
      ((effect x broken outcome).elim s.model (projection.project handler s.model))) :
    Inv projection handler checkpoints init R
      (s.record projection handler checkpoints x broken outcome {next := {x with phase := .failed e}}) l := by
  have hback := hd.retry hf fun i j _ => feedStretch_stretch hn i j
  refine ⟨h.store,⟨h.bounds.1,le_rfl⟩,hback,(h.back hn hf).2,?_,?_⟩
  · intro y hy
    obtain rfl := Option.some.inj hy
    exact ⟨(h.runner x hx).1,trivial,trivial⟩
  · simp only [record,Option.map_none,Option.toList_none,List.append_nil]
    exact h.run

theorem Inv.load (hn : Numbered StoredEvent.position l.log) (hf : IdempotentHandlers projection handler)
    (h : Inv projection handler checkpoints init R s l) (hx : s.runner = some ⟨live,batchSize,.load,stats⟩) :
    Inv projection handler checkpoints init R
      (s.record projection handler checkpoints ⟨live,batchSize,.load,stats⟩ broken outcome
        {next := ⟨live,batchSize,.read (s.checkpoint projection checkpoints),stats⟩}) l := by
  obtain ⟨hd,hcov⟩ := h.back hn hf
  obtain ⟨hpos,-,hload⟩ := h.runner _ hx
  have hle := h.bounds.2.trans h.place_le
  refine ⟨h.store,⟨h.bounds.1,le_rfl⟩,hd,hcov,?_,?_⟩
  · intro y hy
    obtain rfl := Option.some.inj hy
    exact ⟨hpos,⟨h.bounds.1,hle⟩,rfl,Option.some_ne_none _,rfl⟩
  · simp only [record,Option.map_none,Option.toList_none,List.append_nil]
    exact h.run.begin hload h.bounds.1 hle

theorem Inv.read (hk : svc.KeepsLog R) (hf : IdempotentHandlers projection handler)
    (h : Inv projection handler checkpoints init R s l) {k : ℤ}
    (hx : s.runner = some ⟨live,batchSize,.read k,stats⟩) {r : Catchup.Step}
    (hr : (⟨live,batchSize,.read k,stats⟩ : Catchup).step (projection.breaking broken)
      (svc.readAll s.store) (s.checkpoint projection checkpoints) outcome = some r) :
    Inv projection handler checkpoints init R
      (s.record projection handler checkpoints ⟨live,batchSize,.read k,stats⟩ broken outcome r) l := by
  have hw := hk.wellFormed s.store l h.store
  obtain ⟨hd,hcov⟩ := h.back hw.positions hf
  obtain ⟨hpos,hplace,rfl,hsince,hreached⟩ := h.runner _ hx
  obtain rfl := Option.some.inj hr
  obtain ⟨events,hread,hnum,hmem,-⟩ := hk.batch h.store h.bounds.1 batchSize
  dsimp only [Catchup.step]
  rw [hread]
  cases events with
  | nil =>
    refine ⟨h.store,⟨h.bounds.1,le_rfl⟩,hd,hcov,?_,?_⟩
    · intro y hy
      obtain rfl := Option.some.inj hy
      exact ⟨hpos,trivial,trivial⟩
    · simp only [record,Option.map_none,Option.toList_none,List.append_nil]
      exact h.run
  | cons stored rest =>
    refine ⟨h.store,⟨h.bounds.1,le_rfl⟩,hd,hcov,?_,?_⟩
    · intro y hy
      obtain rfl := Option.some.inj hy
      exact ⟨hpos,⟨hplace,hnum,hmem⟩,hsince,rfl,fun hnil => by cases hnil⟩
    · simp only [record,Option.map_none,Option.toList_none,List.append_nil]
      have hrun := h.run
      rwa [hreached] at hrun

/-- A save, whether or not it then fails, moves the checkpoint to where the runner stands. -/
theorem Inv.save (hc : checkpoints.Lawful) (h : Inv projection handler checkpoints init R s l) {position : ℤ}
    (hx : s.runner = some ⟨live,batchSize,.batch position [],stats⟩) {phase : CatchupPhase}
    (hphase : phase = .load ∨ ∃ e, phase = .failed e) :
    Inv projection handler checkpoints init R
      (s.record projection handler checkpoints ⟨live,batchSize,.batch position [],stats⟩ broken outcome
        {next := ⟨live,batchSize,phase,stats⟩, saved := some position}) l := by
  have hplace : s.place projection checkpoints = position := by
    unfold place
    rw [hx]
  obtain ⟨hpos,-,-,hreached,-⟩ := h.runner _ hx
  have hd := h.delivered.save
  have hb := h.bounds
  have hcov := h.covered
  have hrun := h.run
  rw [hplace] at hd hb hcov
  have hcheck : (s.record projection handler checkpoints ⟨live,batchSize,.batch position [],stats⟩ broken
      outcome {next := ⟨live,batchSize,phase,stats⟩, saved := some position}).checkpoint projection
        checkpoints = position := hc.load_save _ _ _
  have hplace' : (s.record projection handler checkpoints ⟨live,batchSize,.batch position [],stats⟩ broken
      outcome {next := ⟨live,batchSize,phase,stats⟩, saved := some position}).place projection
        checkpoints = position := by
    rcases hphase with rfl | ⟨e,rfl⟩ <;> exact hcheck
  refine ⟨h.store,?_,?_,?_,?_,?_⟩
  · rw [hcheck,hplace']
    exact ⟨hb.1.trans hb.2,le_rfl⟩
  · rw [hcheck,hplace']
    exact hd
  · rw [hplace']
    exact hcov
  · intro y hy
    obtain rfl := Option.some.inj hy
    rw [hcheck]
    rcases hphase with rfl | ⟨e,rfl⟩
    · exact ⟨hpos,trivial,fun _ => hreached⟩
    · exact ⟨hpos,trivial,trivial⟩
  · rcases hphase with rfl | ⟨e,rfl⟩
    · simp only [record,Option.map_none,Option.toList_none,List.append_nil]
      exact hrun
    · simp only [record,Option.map_none,Option.toList_none,List.append_nil]
      exact hrun

theorem Inv.turn (hn : Numbered StoredEvent.position l.log) (hf : IdempotentHandlers projection handler)
    (h : Inv projection handler checkpoints init R s l) {position : ℤ} {stored : StoredEvent}
    {rest : List StoredEvent} (hx : s.runner = some ⟨live,batchSize,.batch position (stored :: rest),stats⟩) :
    Inv projection handler checkpoints init R
      (s.record projection handler checkpoints ⟨live,batchSize,.batch position (stored :: rest),stats⟩ broken
        outcome ((⟨live,batchSize,.batch position (stored :: rest),stats⟩ : Catchup).handleNext
          (projection.breaking broken) stored rest outcome)) l := by
  have hplace : s.place projection checkpoints = position := by
    unfold place
    rw [hx]
  obtain ⟨hpos,hin,hsince,hreached,-⟩ := h.runner _ hx
  obtain ⟨⟨h0,h1⟩,⟨hnext,hnum⟩,hmem⟩ := hin
  obtain ⟨hstored,hmem'⟩ := List.forall_mem_cons.mp hmem
  have hb := (hn.bounds hstored).2
  have hget := getElem_of_next hn hstored h0 hnext
  have hnat : stored.position.toNat = position.toNat + 1 := by omega
  have hbounds := h.bounds
  have hcov := h.covered
  have hd := h.delivered
  have hrun := h.run
  rw [hplace] at hbounds hcov hd
  rw [hreached] at hrun
  have hd' := hd.next hget
  rcases batch_cases handler ⟨live,batchSize,.batch position (stored :: rest),stats⟩ position
    stored rest rfl broken outcome s.model with ⟨e,he,heffect⟩ | ⟨stats',he,heffect⟩
  · rw [he]
    rcases heffect with heffect | heffect
    · exact h.fail hn hf hx (heffect ▸ hd)
    · exact h.fail hn hf hx (heffect ▸ hd')
  · rw [he]
    refine ⟨h.store,⟨hbounds.1,?_⟩,?_,?_,?_,?_⟩
    · exact hbounds.2.trans (by change position ≤ stored.position; omega)
    · simp only [record,heffect]
      change Delivered _ _ _ _ stored.position.toNat _
      rw [hnat]
      exact hd'
    · refine hcov.next hn hstored hnext (fun i hi => List.mem_append_right _ hi) fun hh => ?_
      simp only [hh,if_true]
      exact List.mem_append_left _ List.mem_cons_self
    · intro y hy
      obtain rfl := Option.some.inj hy
      exact ⟨hpos,⟨⟨by omega,by omega⟩,hnext ▸ hnum,hmem'⟩,hsince,rfl,fun _ => by
        change s.checkpoint projection checkpoints < stored.position
        omega⟩
    · exact hrun.next hn hsince hstored hnext

theorem Inv.record (hk : svc.KeepsLog R) (hc : checkpoints.Lawful)
    (hf : IdempotentHandlers projection handler) (h : Inv projection handler checkpoints init R s l)
    {x : Catchup} (hx : s.runner = some x) {r : Catchup.Step}
    (hr : s.advance projection svc checkpoints broken outcome = some r) :
    Inv projection handler checkpoints init R (s.record projection handler checkpoints x broken outcome r) l := by
  have hn := (hk.wellFormed s.store l h.store).positions
  rw [advance,hx,Option.bind_some] at hr
  obtain ⟨live,batchSize,phase,stats⟩ := x
  cases phase with
  | load =>
    obtain rfl := Option.some.inj hr
    cases outcome with
    | ok => exact h.load hn hf hx
    | failed | failedAfterWrite => exact h.fail hn hf hx h.delivered
  | read k => exact h.read hk hf hx hr
  | batch position rest =>
    cases rest with
    | nil =>
      obtain rfl := Option.some.inj hr
      cases outcome with
      | ok => exact h.save hc hx (Or.inl rfl)
      | failed => exact h.fail hn hf hx h.delivered
      | failedAfterWrite => exact h.save hc hx (Or.inr ⟨_,rfl⟩)
    | cons stored rest =>
      obtain rfl := Option.some.inj hr
      exact h.turn hn hf hx
  | returned => cases hr
  | failed e => cases hr

end Step

theorem Inv.append (hk : svc.KeepsLog R) (h : Inv projection handler checkpoints init R s l)
    (streamName : String) (expectedVersion : ℤ) (events : List AppendEvent) :
    Inv projection handler checkpoints init R
      {s with store := (svc.append s.store streamName expectedVersion events).1}
      (l.append streamName expectedVersion events).1 := by
  obtain ⟨added,hlog,ha⟩ := l.append_extends streamName expectedVersion events
  have hp := h.place_le
  refine ⟨(hk.append _ _ streamName expectedVersion events h.store).1,h.bounds,?_,?_,?_,?_⟩
  · rw [hlog]
    exact h.delivered.grow added
  · rw [hlog]
    exact h.covered.append hp ha
  · intro x hx
    obtain ⟨hpos,hin,hphase⟩ := h.runner x hx
    rw [hlog]
    exact ⟨hpos,hin.append added,hphase⟩
  · rw [hlog]
    exact h.run.append

theorem Inv.restart (hn : Numbered StoredEvent.position l.log) (hf : IdempotentHandlers projection handler)
    (h : Inv projection handler checkpoints init R s l) :
    Inv projection handler checkpoints init R {s with runner := none} l ∧
    ∀ live batchSize, 0 < batchSize →
      Inv projection handler checkpoints init R (s.begin live batchSize) l := by
  obtain ⟨hd,hcov⟩ := h.back hn hf
  constructor
  · refine ⟨h.store,⟨h.bounds.1,le_rfl⟩,hd,hcov,?_,h.run⟩
    intro x hx
    cases hx
  · intro live batchSize hpos
    refine ⟨h.store,⟨h.bounds.1,le_rfl⟩,hd,hcov,?_,rfl⟩
    intro x hx
    obtain rfl := Option.some.inj hx
    exact ⟨hpos,trivial,fun hs => absurd rfl hs⟩

theorem Inv.step (hk : svc.KeepsLog R) (hc : checkpoints.Lawful)
    (hf : IdempotentHandlers projection handler) (h : Inv projection handler checkpoints init R s l)
    {label : Label} (hs : s.step projection handler svc checkpoints label = some s') :
    ∃ l', Inv projection handler checkpoints init R s' l' := by
  have hn := (hk.wellFormed s.store l h.store).positions
  cases label with
  | append streamName expectedVersion events =>
    obtain rfl := Option.some.inj hs
    exact ⟨_,h.append hk streamName expectedVersion events⟩
  | start batchSize =>
    simp only [Projected.step] at hs
    split at hs
    next hidle =>
      obtain rfl := Option.some.inj hs
      exact ⟨l,(h.restart hn hf).2 true batchSize hidle.2⟩
    next => cases hs
  | step broken outcome =>
    obtain ⟨x,hx,hs⟩ := Option.bind_eq_some_iff.mp hs
    obtain ⟨r,hr,rfl⟩ := Option.map_eq_some_iff.mp hs
    exact ⟨l,h.record hk hc hf hx hr⟩
  | interrupt =>
    obtain rfl := Option.some.inj hs
    exact ⟨l,(h.restart hn hf).1⟩

theorem Inv.fresh (hr : R s.store l) (hcheck : s.checkpoint projection checkpoints = 0) (hw : l.WellFormed)
    (hmodel : s.model = init) (hrunner : s.runner = none) (hsince : s.since = none) (hrun : s.run = []) :
    Inv projection handler checkpoints init R s l := by
  have hplace : s.place projection checkpoints = 0 := by
    rw [place,hrunner]
    exact hcheck
  refine ⟨hr,?_,?_,?_,?_,?_⟩
  · rw [hplace,hcheck]
    exact ⟨le_rfl,le_rfl⟩
  · rw [hplace,hcheck,hmodel]
    exact Delivered.start l.log
  · rw [hplace]
    exact Projecting.covered_zero hw _
  · intro x hx
    rw [hrunner] at hx
    cases hx
  · rw [hsince,hrun]
    rfl

theorem Inv.rebuild (hk : svc.KeepsLog R) (hc : checkpoints.Lawful)
    (hf : IdempotentHandlers projection handler) (hr : R s.store l) {batchSize : ℕ} (hpos : 0 < batchSize) :
    Inv projection handler checkpoints init R (s.rebuild projection checkpoints init batchSize) l := by
  let zeroed : Projected S C M := {s with
    checkpoints := checkpoints.save s.checkpoints projection.name 0
    model := init, handled := [], runner := none, since := none, run := []}
  have hw := hk.wellFormed s.store l hr
  have hfresh : Inv projection handler checkpoints init R zeroed l :=
    Inv.fresh hr (hc.load_save _ _ _) hw rfl rfl rfl rfl
  exact (hfresh.restart hw.positions hf).2 false batchSize hpos

theorem handled_cases {x : Catchup} {broken : Option EventDecodeError} {outcome : StepOutcome}
    {readAll : ReadAllOptions → Except StoreFailure (List StoredEvent)} {checkpoint : ℤ} {r : Catchup.Step}
    (hr : x.step (projection.breaking broken) readAll checkpoint outcome = some r) {stored : StoredEvent}
    (hh : r.handled = some stored) : ∃ position rest, x.phase = .batch position (stored :: rest) := by
  unfold Catchup.step at hr
  cases hp : x.phase with
  | load =>
    rw [hp] at hr
    obtain rfl := Option.some.inj hr
    cases outcome <;> cases hh
  | read k =>
    rw [hp] at hr
    obtain rfl := Option.some.inj hr
    split at hh <;> cases hh
  | batch position rest =>
    rw [hp] at hr
    cases rest with
    | nil =>
      obtain rfl := Option.some.inj hr
      cases outcome <;> cases hh
    | cons next rest =>
      obtain rfl := Option.some.inj hr
      rcases batch_cases (fun (_ : Event) _ (m : Unit) => m) x position next rest hp broken outcome
        () with ⟨e,he,-⟩ | ⟨stats,he,-⟩
      · rw [he] at hh
        cases hh
      · rw [he] at hh
        dsimp only at hh
        split at hh
        · obtain rfl := Option.some.inj hh
          exact ⟨position,rest,rfl⟩
        · cases hh
  | returned =>
    rw [hp] at hr
    cases hr
  | failed e =>
    rw [hp] at hr
    cases hr

theorem returned_cases {x : Catchup} {broken : Option EventDecodeError} {outcome : StepOutcome}
    {readAll : ReadAllOptions → Except StoreFailure (List StoredEvent)} {checkpoint : ℤ} {r : Catchup.Step}
    (hr : x.step (projection.breaking broken) readAll checkpoint outcome = some r)
    (hret : r.next.phase = .returned) : ∃ k, x.phase = .read k ∧
      readAll {fromPosition := some (k + 1), batchSize := some x.batchSize} = .ok [] := by
  unfold Catchup.step at hr
  cases hp : x.phase with
  | load =>
    rw [hp] at hr
    obtain rfl := Option.some.inj hr
    cases outcome <;> cases hret
  | read k =>
    rw [hp] at hr
    obtain rfl := Option.some.inj hr
    split at hret
    next => cases hret
    next hread => exact ⟨k,rfl,hread⟩
    next => cases hret
  | batch position rest =>
    rw [hp] at hr
    cases rest with
    | nil =>
      obtain rfl := Option.some.inj hr
      cases outcome <;> cases hret
    | cons stored rest =>
      obtain rfl := Option.some.inj hr
      rcases Catchup.handleNext_cases (projection.breaking broken) x stored rest outcome with
        ⟨e,he⟩ | ⟨stats,handled,he,-⟩
      · rw [he] at hret
        cases hret
      · rw [he] at hret
        cases hret
  | returned =>
    rw [hp] at hr
    cases hr
  | failed e =>
    rw [hp] at hr
    cases hr

theorem Inv.increasing (hn : Numbered StoredEvent.position l.log)
    (h : Inv projection handler checkpoints init R s l) : s.run.Pairwise (· < ·) := by
  have hrun := h.run
  cases hs : s.since with
  | none =>
    rw [hs] at hrun
    have hnil : s.run = [] := hrun
    rw [hnil]
    exact List.Pairwise.nil
  | some a =>
    rw [hs] at hrun
    obtain ⟨-,-,-,hrun⟩ := hrun
    obtain ⟨k,hnum⟩ := feedStretch_stretch hn a.toNat s.reached.toNat
    rw [hrun,passedIn,List.pairwise_map]
    exact hnum.pairwise.filter _

theorem Inv.exact (hk : svc.KeepsLog R) (h : Inv projection handler checkpoints init R s l) :
    s.Exact projection handler svc checkpoints init := by
  have hn := (hk.wellFormed s.store l h.store).positions
  have hfeed := hk.feed_eq h.store
  constructor
  · intro a ha
    have hrun := h.run
    rw [ha] at hrun
    rw [hfeed]
    exact hrun.2.2.2
  · exact h.increasing hn
  · intro e he hle hh
    exact h.covered e (hfeed ▸ he) (hle.trans h.bounds.2) hh
  · intro broken outcome r stored hr hh
    obtain ⟨x,hx,hr⟩ := Option.bind_eq_some_iff.mp hr
    obtain ⟨position,rest,hp⟩ := handled_cases hr hh
    have hin := (h.runner x hx).2.1
    obtain ⟨-,⟨hnext,-⟩,-⟩ := hin.batch hp
    obtain ⟨live,batchSize,phase,stats⟩ := x
    obtain rfl : phase = .batch position (stored :: rest) := hp
    have hplace : s.place projection checkpoints = position := by rw [place,hx]
    have hb := h.bounds.2
    omega
  · intro broken outcome r position hr hsaved
    obtain ⟨x,hx,hr⟩ := Option.bind_eq_some_iff.mp hr
    obtain ⟨-,hin,hphase⟩ := h.runner x hx
    have hb : 0 ≤ s.checkpoint projection checkpoints ∧
        s.checkpoint projection checkpoints ≤ l.log.length :=
      ⟨h.bounds.1,h.bounds.2.trans h.place_le⟩
    have hp := ((hin.step hk h.store hb hr).2 position hsaved).1
    obtain ⟨live,batchSize,phase,stats⟩ := x
    obtain rfl : phase = .batch position [] := hp
    have hplace : s.place projection checkpoints = position := by rw [place,hx]
    refine ⟨hphase.2.2 rfl,fun e he hle hh => ?_⟩
    exact h.covered e (hfeed ▸ he) (hplace ▸ hle) hh
  · intro broken outcome r hr hret
    obtain ⟨x,hx,hr⟩ := Option.bind_eq_some_iff.mp hr
    obtain ⟨k,hp,hread⟩ := returned_cases hr hret
    obtain ⟨hpos,hin,hphase⟩ := h.runner x hx
    rw [hp] at hphase
    obtain ⟨rfl,-⟩ := hphase
    obtain ⟨events,hread',-,-,hend⟩ := hk.batch h.store h.bounds.1 x.batchSize
    have hlen := hend (Except.ok.inj (hread'.symm.trans hread)) hpos
    have hle := h.bounds.2.trans h.place_le
    rw [hfeed]
    refine ⟨h.delivered.done (by omega),fun e he hh => ?_⟩
    have hb := (hn.bounds he).2
    exact h.covered e he (by have := h.bounds.2; omega) hh

theorem inv_of_leads (hk : svc.KeepsLog R) (hc : checkpoints.Lawful)
    (hf : IdempotentHandlers projection handler) (h0 : ∃ l, Inv projection handler checkpoints init R s l)
    (h : (runs projection handler svc checkpoints init).Leads (fun _ _ => True) s s') :
    ∃ l, Inv projection handler checkpoints init R s' l := by
  refine h.invariant (fun s => ∃ l, Inv projection handler checkpoints init R s l) h0 ?_
  rintro a label b ⟨l,ha⟩ - hs
  exact ha.step hk hc hf hs

variable (projection handler svc checkpoints init)

/-- Every state of every run is exact, and so is every state after a rebuild over its feed, whatever the read
model, the checkpoint and the runner are before. -/
def StaysExact : Prop :=
  ∀ s, (runs projection handler svc checkpoints init).Reachable s →
    s.Exact projection handler svc checkpoints init ∧
    ∀ old : Projected S C M, old.store = s.store →
      ∀ batchSize s', 0 < batchSize → (runs projection handler svc checkpoints init).Leads (fun _ _ => True)
        (old.rebuild projection checkpoints init batchSize) s' → s'.Exact projection handler svc checkpoints init

variable {projection handler svc checkpoints init}

theorem staysExact (hk : svc.KeepsLog R) (hc : checkpoints.Lawful)
    (hf : IdempotentHandlers projection handler) :
    StaysExact projection handler svc checkpoints init := by
  have h0 : ∃ l, Inv projection handler checkpoints init R
      (runs projection handler svc checkpoints init).init l :=
    ⟨EventLog.empty,Inv.fresh hk.init (hc.load_init _) (hk.wellFormed _ _ hk.init) rfl rfl rfl rfl⟩
  intro s h
  obtain ⟨l,hs⟩ := inv_of_leads hk hc hf h0 h
  refine ⟨hs.exact hk,fun old hold batchSize s' hpos h' => ?_⟩
  have hstore : R old.store l := hold ▸ hs.store
  obtain ⟨l',hs'⟩ := inv_of_leads hk hc hf ⟨l,Inv.rebuild hk hc hf hstore hpos⟩ h'
  exact hs'.exact hk

/-- Over the in-memory and the SQL stores, for idempotent handlers. -/
theorem projection_exact (projection : Projection Event) (handler : Event → StoredEvent → M → M) (init : M)
    (hf : IdempotentHandlers projection handler) :
    StaysExact projection handler inMemoryService inMemoryCheckpointStore init ∧
    StaysExact projection handler inMemoryService sqlCheckpointStore init ∧
    StaysExact projection handler sqliteService sqlCheckpointStore init :=
  ⟨staysExact inMemoryService_keepsLog inMemoryCheckpointStore_lawful hf,
    staysExact inMemoryService_keepsLog sqlCheckpointStore_lawful hf,
    staysExact sqliteService_keepsLog sqlCheckpointStore_lawful hf⟩

/-- Collects the positions of placed orders, each once. -/
def collectOrder (_ : Unit) (stored : StoredEvent) (orders : List ℤ) : List ℤ :=
  if stored.position ∈ orders then orders else orders ++ [stored.position]

theorem project_collectOrder (orders : List ℤ) (stored : StoredEvent) :
    orderTotals.project collectOrder orders stored =
      if orderTotals.handles stored.type then collectOrder () stored orders else orders := rfl

theorem collectOrder_idempotent : IdempotentHandlers orderTotals collectOrder := by
  have hmono : ∀ (i : ℤ) (xs : List StoredEvent) (m : List ℤ), i ∈ m →
      i ∈ xs.foldl (orderTotals.project collectOrder) m := by
    intro i xs
    induction xs with
    | nil => exact fun m hm => hm
    | cons x xs ih =>
      intro m hm
      apply ih
      rw [project_collectOrder,collectOrder]
      split <;> [split; skip]
      · exact hm
      · exact List.mem_append_left _ hm
      · exact hm
  refine idempotent_of_ignores fun xs _ m x hx => ?_
  have hin : orderTotals.handles x.type = true →
      x.position ∈ xs.foldl (orderTotals.project collectOrder) m := by
    intro hh
    obtain ⟨before,after,rfl⟩ := List.append_of_mem hx
    rw [List.foldl_append,List.foldl_cons]
    apply hmono
    rw [project_collectOrder,if_pos hh,collectOrder]
    split
    next hm => exact hm
    next => exact List.mem_append_right _ List.mem_cons_self
  rw [project_collectOrder]
  split
  next hh => rw [collectOrder,if_pos (hin hh)]
  next => rfl

/-- The handler fails after its effect, and the next run handles the order again. -/
def redeliveredOrder : List Label :=
  [.append "order-1" 0 [orderPlacedEvent],.start 100,.step none .ok,.step none .ok,
    .step none .failedAfterWrite,.start 100,.step none .ok,.step none .ok,.step none .ok,.step none .ok,
    .step none .ok]

/-- A read model with orders that were never placed, and a checkpoint beyond the feed. -/
def spoilt (s : Projected EventStoreState (JsMap ℤ) (List ℤ)) : Projected EventStoreState (JsMap ℤ) (List ℤ) :=
  {s with model := [7,5], handled := [7], checkpoints := inMemoryCheckpointStore.save s.checkpoints orderTotals.name 9}

/-- A catch-up to the end of a feed of one event. -/
def catchUpOrder : List Label := [.step none .ok,.step none .ok,.step none .ok,.step none .ok,.step none .ok]

theorem projection_exact_order :
    ∃ s s', (runs orderTotals collectOrder inMemoryService inMemoryCheckpointStore []).run redeliveredOrder = some s ∧
      s.model = [1] ∧ s.Exact orderTotals collectOrder inMemoryService inMemoryCheckpointStore [] ∧
      (runs orderTotals collectOrder inMemoryService inMemoryCheckpointStore []).runFrom
        ((spoilt s).rebuild orderTotals inMemoryCheckpointStore [] 100) catchUpOrder = some s' ∧
      s'.model = [1] ∧ s'.Exact orderTotals collectOrder inMemoryService inMemoryCheckpointStore [] := by
  obtain ⟨s,hs,hmodel,s',hs',hmodel'⟩ : ∃ s,
      (runs orderTotals collectOrder inMemoryService inMemoryCheckpointStore []).run redeliveredOrder = some s ∧
        s.model = [1] ∧ ∃ s', (runs orderTotals collectOrder inMemoryService inMemoryCheckpointStore []).runFrom
          ((spoilt s).rebuild orderTotals inMemoryCheckpointStore [] 100) catchUpOrder = some s' ∧ s'.model = [1] :=
    ⟨_,rfl,rfl,_,rfl,rfl⟩
  obtain ⟨hexact,hrebuild⟩ :=
    (projection_exact orderTotals collectOrder [] collectOrder_idempotent).1 s (System.run_reachable hs)
  exact ⟨s,s',hs,hmodel,hexact,hs',hmodel',hrebuild (spoilt s) rfl 100 s' (by decide)
    (System.runFrom_leads (fun _ _ _ => trivial) hs')⟩

end Projected
end StructureAi.EventSourcing

import StructureAi.EventSourcing.Projection
import StructureAi.Foundation.Fibers

/-! # A running projection and the event bus

Writers append and then notify; the runner subscribes, catches up and waits for a
signal. Signals carry nothing and coalesce: a subscription holds at most one that
it has not taken since the latest publish.
-/
namespace StructureAi.EventSourcing
open StructureAi.Foundation

/-- The sliding hub of capacity one: whether a signal is pending, by subscription. -/
abbrev EventBus := Fibers Bool

namespace EventBus

def notify (bus : EventBus) : EventBus := fun subscriber => (bus subscriber).map fun _ => true

def subscribe (bus : EventBus) (subscriber : ℕ) : EventBus := bus.set subscriber false

/-- `Queue.take`, which waits while nothing is pending. -/
def take (bus : EventBus) (subscriber : ℕ) : Option EventBus :=
  match bus subscriber with
  | some true => some (bus.set subscriber false)
  | _ => none

end EventBus

/-- An append of the in-memory store: the critical section, then the signal. -/
inductive WriterPhase where
  | append (streamName : String) (expectedVersion : ℤ) (events : List AppendEvent)
  | notify

inductive RunnerPhase where
  | subscribe
  | catchup (x : Catchup)

structure ProjectionRun (S C : Type) where
  store : S
  checkpoints : C
  bus : EventBus
  writers : Fibers WriterPhase
  runner : RunnerPhase

namespace ProjectionRun

inductive Label where
  | write (writer : ℕ) (streamName : String) (expectedVersion : ℤ) (events : List AppendEvent)
  | writer (writer : ℕ)
  | runner (handlerFails : Bool)

variable {Event S C : Type} (projection : Projection Event) (batchSize : ℕ)
  (svc : EventStoreService S) (checkpoints : CheckpointStoreService C)

/-- Only a handler can fail: loads and saves of the in-memory store do not. -/
def outcomeOf (handlerFails : Bool) (x : Catchup) : StepOutcome :=
  match x.phase with
  | .batch _ (_ :: _) => if handlerFails then .failed else .ok
  | _ => .ok

def checkpoint (s : ProjectionRun S C) : ℤ := checkpoints.load s.checkpoints projection.name

def step (s : ProjectionRun S C) : Label → Option (ProjectionRun S C)
  | .write writer streamName expectedVersion events =>
    match s.writers writer with
    | some _ => none
    | none => some {s with writers := s.writers.set writer (.append streamName expectedVersion events)}
  | .writer writer =>
    match s.writers writer with
    | none => none
    | some (.append streamName expectedVersion events) =>
      let r := svc.append s.store streamName expectedVersion events
      some {s with
        store := r.1
        writers := match r.2 with
          | .ok _ => if events.length > 0 then s.writers.set writer .notify else s.writers.remove writer
          | .error _ => s.writers.remove writer}
    | some .notify => some {s with bus := s.bus.notify, writers := s.writers.remove writer}
  | .runner handlerFails =>
    match s.runner with
    | .subscribe => some {s with
        bus := s.bus.subscribe 0
        runner := .catchup (Catchup.start true batchSize)}
    | .catchup x =>
      match x.phase with
      | .returned => (s.bus.take 0).map fun bus => {s with
          bus := bus
          runner := .catchup (Catchup.start true batchSize)}
      | _ =>
        (x.step projection (svc.readAll s.store) (s.checkpoint projection checkpoints)
          (outcomeOf handlerFails x)).map fun r => {s with
            checkpoints := match r.saved with
              | none => s.checkpoints
              | some position => checkpoints.save s.checkpoints projection.name position
            runner := .catchup r.next}

def runs : System (ProjectionRun S C) Label :=
  ⟨⟨svc.init,checkpoints.init,Fibers.empty,Fibers.empty,.subscribe⟩,
    step projection batchSize svc checkpoints⟩

/-- No writer and not the runner can take a step. -/
def Quiescent (s : ProjectionRun S C) : Prop :=
  (∀ writer, step projection batchSize svc checkpoints s (.writer writer) = none) ∧
    ∀ handlerFails, step projection batchSize svc checkpoints s (.runner handlerFails) = none

def lastPosition (s : ProjectionRun S C) : ℤ :=
  ((svc.feed s.store).getLast?.map StoredEvent.position).getD 0

def failure (s : ProjectionRun S C) : Option ProjectionFailure :=
  match s.runner with
  | .catchup ⟨_,_,.failed e,_⟩ => some e
  | _ => none

end ProjectionRun

/-- What a step of a catch-up leaves behind: a read starts from the loaded checkpoint, and only
an empty read returns. -/
theorem Catchup.step_next {Event : Type} {projection : Projection Event} {c : ℤ}
    {readAll : ReadAllOptions → Except StoreFailure (List StoredEvent)} {outcome : StepOutcome}
    {x : Catchup} {r : Catchup.Step} (hs : x.step projection readAll c outcome = some r) :
    r.next.batchSize = x.batchSize ∧
      (∀ k, r.next.phase = .read k → k = c ∧ r.saved = none) ∧
      (r.next.phase = .returned → r.saved = none ∧ ∃ k, x.phase = .read k ∧
        readAll {fromPosition := some (k + 1), batchSize := some x.batchSize} = .ok []) := by
  unfold Catchup.step at hs
  split at hs
  next =>
    obtain rfl := Option.some.inj hs
    cases outcome with
    | ok =>
      refine ⟨rfl,fun k hk => ?_,fun hr => by cases hr⟩
      cases hk
      exact ⟨rfl,rfl⟩
    | failed | failedAfterWrite => exact ⟨rfl,fun k hk => (by cases hk),fun hr => by cases hr⟩
  next k hp =>
    obtain rfl := Option.some.inj hs
    split
    next => exact ⟨rfl,fun k hk => (by cases hk),fun hr => by cases hr⟩
    next hread => exact ⟨rfl,fun k hk => (by cases hk),fun _ => ⟨rfl,k,hp,hread⟩⟩
    next => exact ⟨rfl,fun k hk => (by cases hk),fun hr => by cases hr⟩
  next =>
    obtain rfl := Option.some.inj hs
    cases outcome <;> exact ⟨rfl,fun k hk => (by cases hk),fun hr => by cases hr⟩
  next stored rest hp =>
    obtain rfl := Option.some.inj hs
    rcases Catchup.handleNext_cases projection x stored rest outcome with
      ⟨e,he⟩ | ⟨stats,handled,he,-⟩ <;> rw [he]
    · exact ⟨rfl,fun k hk => (by cases hk),fun hr => by cases hr⟩
    · exact ⟨rfl,fun k hk => (by cases hk),fun hr => by cases hr⟩
  next => cases hs
  next => cases hs

theorem EventLog.append_grows (l : EventLog) (streamName : String) (expectedVersion : ℤ)
    (events : List AppendEvent) :
    (l.append streamName expectedVersion events).1 = l ∨
      0 < events.length ∧ ∃ result, (l.append streamName expectedVersion events).2 = .ok result := by
  rcases l.append_cases streamName expectedVersion events with
    ⟨e,ha⟩ | ⟨-,-,⟨-,ha⟩ | ⟨hne,ha⟩⟩ <;> rw [ha]
  · exact Or.inl rfl
  · exact Or.inl rfl
  · exact Or.inr ⟨List.length_pos_iff.mpr hne,_,rfl⟩

namespace ProjectionRun
variable {Event S C : Type} {projection : Projection Event} {batchSize : ℕ}
  {svc : EventStoreService S} {checkpoints : CheckpointStoreService C} {R : S → EventLog → Prop}
  {s s' : ProjectionRun S C} {l : EventLog}

/-- A signal is pending or about to be sent, or there is nothing left to read. -/
def Signalled (projection : Projection Event) (checkpoints : CheckpointStoreService C)
    (log : List StoredEvent) (s : ProjectionRun S C) : Prop :=
  s.bus 0 = some true ∨ (log.length : ℤ) = s.checkpoint projection checkpoints ∨
    ∃ writer, s.writers writer = some .notify

/-- What holds of the runner once it has subscribed. -/
structure RunnerOk (projection : Projection Event) (batchSize : ℕ)
    (checkpoints : CheckpointStoreService C) (log : List StoredEvent) (s : ProjectionRun S C)
    (x : Catchup) : Prop where
  subscribed : s.bus 0 ≠ none
  batchSize : x.batchSize = batchSize
  inPlace : x.InPlace log
  /-- The only saver is the runner itself. -/
  current : ∀ k, x.phase = .read k → k = s.checkpoint projection checkpoints
  signalled : x.phase = .returned → s.Signalled projection checkpoints log

structure Inv (projection : Projection Event) (batchSize : ℕ) (checkpoints : CheckpointStoreService C)
    (R : S → EventLog → Prop) (s : ProjectionRun S C) (l : EventLog) : Prop where
  store : R s.store l
  bounds : 0 ≤ s.checkpoint projection checkpoints ∧ s.checkpoint projection checkpoints ≤ l.log.length
  runner : ∀ x, s.runner = .catchup x → RunnerOk projection batchSize checkpoints l.log s x

theorem Inv.append (hk : svc.KeepsLog R) {writer : ℕ} {streamName : String} {expectedVersion : ℤ}
    {events : List AppendEvent} (h : Inv projection batchSize checkpoints R s l)
    (hw : s.writers writer = some (.append streamName expectedVersion events))
    (hs : s.step projection batchSize svc checkpoints (.writer writer) = some s') :
    Inv projection batchSize checkpoints R s' (l.append streamName expectedVersion events).1 := by
  obtain ⟨hr,hanswer⟩ := hk.append s.store l streamName expectedVersion events h.store
  obtain ⟨added,hlog,-⟩ := l.append_extends streamName expectedVersion events
  simp only [step,hw] at hs
  obtain rfl := Option.some.inj hs
  refine ⟨hr,⟨h.bounds.1,h.bounds.2.trans ?_⟩,fun x hx => ?_⟩
  · rw [hlog,List.length_append]
    omega
  · have ho := h.runner x hx
    refine ⟨ho.subscribed,ho.batchSize,hlog ▸ ho.inPlace.append added,ho.current,fun hp => ?_⟩
    rcases l.append_grows streamName expectedVersion events with hsame | ⟨hpos,result,hok⟩
    · rw [hsame]
      rcases ho.signalled hp with hb | hb | ⟨other,hother⟩
      · exact Or.inl hb
      · exact Or.inr (Or.inl hb)
      · have hne : other ≠ writer := by
          rintro rfl
          rw [hw] at hother
          cases hother
        refine Or.inr (Or.inr ⟨other,?_⟩)
        cases (svc.append s.store streamName expectedVersion events).2 with
        | error e => exact (Fibers.remove_of_ne _ hne).trans hother
        | ok result =>
          dsimp only
          split
          · exact (Fibers.set_of_ne _ _ hne).trans hother
          · exact (Fibers.remove_of_ne _ hne).trans hother
    · refine Or.inr (Or.inr ⟨writer,?_⟩)
      simp only [hanswer,hok,if_pos hpos,Fibers.set_self]

theorem Inv.notify {writer : ℕ} (h : Inv projection batchSize checkpoints R s l)
    (hw : s.writers writer = some .notify)
    (hs : s.step projection batchSize svc checkpoints (.writer writer) = some s') :
    Inv projection batchSize checkpoints R s' l := by
  simp only [step,hw] at hs
  obtain rfl := Option.some.inj hs
  refine ⟨h.store,h.bounds,fun x hx => ?_⟩
  have ho := h.runner x hx
  obtain ⟨pending,hb⟩ := Option.ne_none_iff_exists'.mp ho.subscribed
  have hnotified : s.bus.notify 0 = some true := by rw [EventBus.notify,hb,Option.map_some]
  have hsubscribed : s.bus.notify 0 ≠ none := hnotified ▸ Option.some_ne_none true
  exact ⟨hsubscribed,ho.batchSize,ho.inPlace,ho.current,fun _ => Or.inl hnotified⟩

theorem RunnerOk.start (log : List StoredEvent) (hb : s.bus 0 ≠ none) :
    RunnerOk projection batchSize checkpoints log s (Catchup.start true batchSize) where
  subscribed := hb
  batchSize := rfl
  inPlace := trivial
  current := by
    intro k hk
    cases hk
  signalled := by
    intro hp
    cases hp

theorem Inv.catchup (hk : svc.KeepsLog R) (hc : checkpoints.Lawful) (hb : 0 < batchSize)
    (h : Inv projection batchSize checkpoints R s l) {x : Catchup} (hx : s.runner = .catchup x)
    {outcome : StepOutcome} {r : Catchup.Step}
    (hr : x.step projection (svc.readAll s.store) (s.checkpoint projection checkpoints) outcome = some r) :
    Inv projection batchSize checkpoints R {s with
      checkpoints := match r.saved with
        | none => s.checkpoints
        | some position => checkpoints.save s.checkpoints projection.name position
      runner := .catchup r.next} l := by
  have ho := h.runner x hx
  obtain ⟨hplace,hsaved⟩ := ho.inPlace.step hk h.store h.bounds hr
  obtain ⟨hsize,hread,hreturned⟩ := Catchup.step_next hr
  refine ⟨h.store,?_,?_⟩
  · cases hq : r.saved with
    | none => exact h.bounds
    | some position =>
      simp only [checkpoint,hc.load_save]
      exact (ho.inPlace.batch (hsaved position hq).1).1
  · rintro _ ⟨⟩
    refine ⟨ho.subscribed,hsize.trans ho.batchSize,hplace,fun k hp => ?_,fun hp => ?_⟩
    · obtain ⟨rfl,hq⟩ := hread k hp
      simp only [checkpoint,hq]
    · obtain ⟨hq,k,hpk,hnil⟩ := hreturned hp
      obtain ⟨events,hbatch,-,-,hend⟩ := hk.batch h.store (ho.inPlace.read hpk).1 x.batchSize
      have hlen := hend (Except.ok.inj (hbatch.symm.trans hnil)) (ho.batchSize ▸ hb)
      refine Or.inr (Or.inl ?_)
      simp only [checkpoint,hq]
      exact le_antisymm (hlen.trans_eq (ho.current k hpk)) h.bounds.2

theorem Inv.step (hk : svc.KeepsLog R) (hc : checkpoints.Lawful) (hb : 0 < batchSize) {label : Label}
    (h : Inv projection batchSize checkpoints R s l)
    (hs : s.step projection batchSize svc checkpoints label = some s') :
    ∃ l', Inv projection batchSize checkpoints R s' l' := by
  cases label with
  | write writer streamName expectedVersion events =>
    simp only [ProjectionRun.step] at hs
    split at hs
    · cases hs
    next hw =>
      obtain rfl := Option.some.inj hs
      refine ⟨l,h.store,h.bounds,fun x hx => ?_⟩
      have ho := h.runner x hx
      refine ⟨ho.subscribed,ho.batchSize,ho.inPlace,ho.current,fun hp => ?_⟩
      rcases ho.signalled hp with hp | hp | ⟨other,hother⟩
      · exact Or.inl hp
      · exact Or.inr (Or.inl hp)
      · have hne : other ≠ writer := by
          rintro rfl
          rw [hw] at hother
          cases hother
        exact Or.inr (Or.inr ⟨other,(Fibers.set_of_ne _ _ hne).trans hother⟩)
  | writer writer =>
    cases hw : s.writers writer with
    | none =>
      simp only [ProjectionRun.step,hw] at hs
      cases hs
    | some phase =>
      cases phase with
      | append streamName expectedVersion events => exact ⟨_,h.append hk hw hs⟩
      | notify => exact ⟨l,h.notify hw hs⟩
  | runner handlerFails =>
    simp only [ProjectionRun.step] at hs
    split at hs
    next hx =>
      obtain rfl := Option.some.inj hs
      refine ⟨l,h.store,h.bounds,?_⟩
      rintro _ ⟨⟩
      refine RunnerOk.start l.log ?_
      simp only [EventBus.subscribe,Fibers.set_self]
      exact Option.some_ne_none false
    next x hx =>
      split at hs
      next =>
        obtain ⟨bus,ht,rfl⟩ := Option.map_eq_some_iff.mp hs
        refine ⟨l,h.store,h.bounds,?_⟩
        rintro _ ⟨⟩
        refine RunnerOk.start l.log ?_
        unfold EventBus.take at ht
        split at ht
        · obtain rfl := Option.some.inj ht
          simp only [Fibers.set_self]
          exact Option.some_ne_none false
        · cases ht
      next =>
        obtain ⟨r,hr,rfl⟩ := Option.map_eq_some_iff.mp hs
        exact ⟨l,h.catchup hk hc hb hx hr⟩

theorem inv_of_reachable (hk : svc.KeepsLog R) (hc : checkpoints.Lawful) (hb : 0 < batchSize)
    (h : (runs projection batchSize svc checkpoints).Reachable s) :
    ∃ l, Inv projection batchSize checkpoints R s l := by
  refine h.invariant (fun s => ∃ l, Inv projection batchSize checkpoints R s l) ?_ ?_
  · refine ⟨EventLog.empty,hk.init,?_,fun x hx => by cases hx⟩
    simp only [runs,checkpoint,hc.load_init]
    exact ⟨le_rfl,le_rfl⟩
  · rintro a label b ⟨l,ha⟩ _ hs
    exact ha.step hk hc hb hs

theorem Quiescent.returned (hq : s.Quiescent projection batchSize svc checkpoints)
    (hf : s.failure = none) : ∃ x, s.runner = .catchup x ∧ x.phase = .returned ∧ s.bus 0 ≠ some true := by
  have hrunner := hq.2 false
  cases hx : s.runner with
  | subscribe =>
    simp only [ProjectionRun.step,hx] at hrunner
    cases hrunner
  | catchup x =>
    obtain ⟨live,size,phase,stats⟩ := x
    simp only [ProjectionRun.step,hx] at hrunner
    cases phase with
    | returned =>
      refine ⟨_,rfl,rfl,fun hb => ?_⟩
      simp only [EventBus.take,hb] at hrunner
      cases hrunner
    | failed e =>
      simp only [failure,hx] at hf
      cases hf
    | load => cases hrunner
    | read k => cases hrunner
    | batch position rest => cases rest <;> cases hrunner

theorem checkpoint_of_quiescent (hk : svc.KeepsLog R) (hc : checkpoints.Lawful) (hb : 0 < batchSize)
    (h : (runs projection batchSize svc checkpoints).Reachable s)
    (hq : s.Quiescent projection batchSize svc checkpoints) (hf : s.failure = none) :
    s.checkpoint projection checkpoints = s.lastPosition svc := by
  obtain ⟨l,hi⟩ := inv_of_reachable hk hc hb h
  obtain ⟨x,hx,hp,hbus⟩ := hq.returned hf
  have hlast : s.lastPosition svc = l.log.length := by
    rw [lastPosition,hk.feed_eq hi.store]
    exact (hk.wellFormed s.store l hi.store).positions.last.trans (zero_add _)
  rw [hlast]
  rcases (hi.runner x hx).signalled hp with hsignal | hcaught | ⟨writer,hw⟩
  · exact absurd hsignal hbus
  · exact hcaught.symm
  · have hnotify := hq.1 writer
    simp only [ProjectionRun.step,hw] at hnotify
    cases hnotify

/-- No wake-up is lost over the in-memory adapters: a run that has not failed comes to rest only
with its checkpoint at the last event. -/
theorem no_wakeup_lost (projection : Projection Event) {batchSize : ℕ} (hb : 0 < batchSize)
    {s : ProjectionRun EventStoreState (JsMap ℤ)}
    (h : (runs projection batchSize inMemoryService inMemoryCheckpointStore).Reachable s)
    (hq : s.Quiescent projection batchSize inMemoryService inMemoryCheckpointStore)
    (hf : s.failure = none) :
    s.checkpoint projection inMemoryCheckpointStore = s.lastPosition inMemoryService :=
  checkpoint_of_quiescent inMemoryService_keepsLog inMemoryCheckpointStore_lawful hb h hq hf

theorem quiescent_of_idle {x : Catchup} (hw : ∀ writer, s.writers writer = none)
    (hx : s.runner = .catchup x) (hp : x.phase = .returned) (hb : s.bus 0 = some false) :
    s.Quiescent projection batchSize svc checkpoints := by
  constructor
  · intro writer
    simp only [ProjectionRun.step,hw]
  · intro handlerFails
    simp only [ProjectionRun.step,hx,hp,EventBus.take,hb,Option.map_none]

theorem quiescent_of_failed {x : Catchup} {e : ProjectionFailure}
    (hw : ∀ writer, s.writers writer = none) (hx : s.runner = .catchup x) (hp : x.phase = .failed e) :
    s.Quiescent projection batchSize svc checkpoints := by
  constructor
  · intro writer
    simp only [ProjectionRun.step,hw]
  · intro handlerFails
    simp only [ProjectionRun.step,hx,hp,Catchup.step,Option.map_none]

/-- A writer beside a runner that waits for its signal. -/
def orderWhileWaiting : List Label :=
  [.runner false,.runner false,.runner false,.write 0 "order-1" 0 [orderPlacedEvent],.writer 0,.writer 0,
    .runner false,.runner false,.runner false,.runner false,.runner false,.runner false,.runner false]

theorem writers_after_order (writer : ℕ) (f g : WriterPhase) :
    ((Fibers.empty.set 0 f).set 0 g).remove 0 writer = none := by
  by_cases hn : writer = 0
  · rw [hn]
    rfl
  · rw [Fibers.remove_of_ne _ hn,Fibers.set_of_ne _ _ hn,Fibers.set_of_ne _ _ hn]
    rfl

theorem no_wakeup_lost_order :
    ∃ s, (runs orderTotals 100 inMemoryService inMemoryCheckpointStore).run orderWhileWaiting = some s ∧
      s.checkpoint orderTotals inMemoryCheckpointStore = 1 ∧
      s.checkpoint orderTotals inMemoryCheckpointStore = s.lastPosition inMemoryService := by
  refine ⟨_,rfl,rfl,no_wakeup_lost orderTotals (by decide) (System.run_reachable
    (show (runs orderTotals 100 inMemoryService inMemoryCheckpointStore).run orderWhileWaiting =
      some _ from rfl)) ?_ rfl⟩
  exact quiescent_of_idle (fun writer => writers_after_order writer _ _) rfl rfl rfl

def undecodableTotals : Projection Unit := {orderTotals with
  registry := {orderTotals.registry with decode := fun _ => .error ⟨"OrderPlaced",1,"Expected total"⟩}}

def orderBeforeRun : List Label :=
  [.write 0 "order-1" 0 [orderPlacedEvent],.writer 0,.writer 0,.runner false,.runner false,.runner false,
    .runner false]

/-- An event that does not decode ends the run without a handler failing, and in batches of no
events the runner never reads one. -/
theorem runner_stays_behind :
    (¬ ∀ s, (runs undecodableTotals 100 inMemoryService inMemoryCheckpointStore).Reachable s →
      s.Quiescent undecodableTotals 100 inMemoryService inMemoryCheckpointStore →
      s.failure ≠ some .handler →
      s.checkpoint undecodableTotals inMemoryCheckpointStore = s.lastPosition inMemoryService) ∧
    ¬ ∀ s, (runs orderTotals 0 inMemoryService inMemoryCheckpointStore).Reachable s →
      s.Quiescent orderTotals 0 inMemoryService inMemoryCheckpointStore →
      s.failure ≠ some .handler →
      s.checkpoint orderTotals inMemoryCheckpointStore = s.lastPosition inMemoryService := by
  constructor
  · intro h
    have hr := System.run_reachable
      (show (runs undecodableTotals 100 inMemoryService inMemoryCheckpointStore).run orderBeforeRun =
        some _ from rfl)
    refine absurd (h _ hr ?_ (fun hf => by cases hf)) (by decide)
    exact quiescent_of_failed (fun writer => writers_after_order writer _ _) rfl rfl
  · intro h
    have hr := System.run_reachable
      (show (runs orderTotals 0 inMemoryService inMemoryCheckpointStore).run
        (orderBeforeRun.take 6) = some _ from rfl)
    refine absurd (h _ hr ?_ (fun hf => by cases hf)) (by decide)
    exact quiescent_of_idle (fun writer => writers_after_order writer _ _) rfl rfl rfl

end ProjectionRun
end StructureAi.EventSourcing

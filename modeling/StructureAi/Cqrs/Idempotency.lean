import StructureAi.Foundation.Fibers
import StructureAi.Foundation.JsonOrder
import StructureAi.Foundation.Run

/-! # Commands under an idempotency key

A dispatch claims its key, runs the handler, encodes the success and records it, or releases the
key. Any number of dispatches of any commands take these steps in turn over one store. `catches`
says whether the runtime lets a fiber that was interrupted from outside run its `catchAllCause`.
-/
namespace StructureAi.Cqrs
open StructureAi.Foundation

structure IdempotencyContext where
  key : String
  tag : String
  actor : Option String
  payloadHash : String
deriving DecidableEq

/-- The same command from the same actor under the same key. -/
def IdempotencyContext.SameKey (context context' : IdempotencyContext) : Prop :=
  context.tag = context'.tag ∧ context.actor = context'.actor ∧ context.key = context'.key

inductive BeginOutcome where
  | completed (result : Json)
  | claimed
  | inFlight
  | mismatch
deriving DecidableEq

/-- The port over a state. What `claim` does not answer, `existing` does, from a second look that
claims nothing; `none` is a record that no longer decodes. Operations of a durable store can fail. -/
structure IdempotencyStoreService (S K W : Type) where
  init : S
  id : IdempotencyContext → K
  claim : IdempotencyContext → S → Option BeginOutcome × S
  existing : IdempotencyContext → S → Option BeginOutcome
  existing_ne : ∀ context store, existing context store ≠ some .claimed
  complete : IdempotencyContext → Json → S → Option S
  release : IdempotencyContext → S → S
  durable : Bool
  outside : W → S → S

/-- The schemas of a command; `none` is a value that does not encode or decode. -/
structure CommandDefinition (P A : Type) where
  encodePayload : P → Option Json
  encode : A → Option Json
  decode : Json → Option A

inductive Cause (E : Type) where
  | fail (e : E)
  | dispatchTimeout
  | die
  | interrupt

inductive DispatchExit (A E : Type) where
  | success (result : A)
  | failed (cause : Cause E) (releaseFailed : Bool)
  | idempotencyInFlight
  | idempotencyMismatch
  | persistenceError
  | interrupted

/-- What a dispatch is about to do; `execute` is the handler running. -/
inductive Phase (A E : Type) where
  | begin
  | existing
  | claimed
  | execute
  | encode (result : A)
  | release (cause : Cause E)
  | complete (result : A) (encoded : Json)
  | ended (exit : DispatchExit A E)

/-- A dispatch with its payload in wire form; `succeeded` is what its handler returned. -/
structure Dispatch (A E : Type) where
  context : IdempotencyContext
  encodedPayload : Json
  phase : Phase A E
  succeeded : Option A

/-- What becomes of a statement: it may take effect without the dispatch learning of it. -/
inductive Answer where
  | ok
  | failed (applied : Bool)
  | interrupted (applied : Bool)
deriving DecidableEq

def Answer.applied : Answer → Bool
  | .ok => true
  | .failed applied => applied
  | .interrupted applied => applied

/-- Where the dispatch goes on, if the statement answers. -/
def Answer.goOn {A E : Type} (phase : Phase A E) : Answer → Phase A E
  | .ok => phase
  | .failed _ => .ended .persistenceError
  | .interrupted _ => .ended .interrupted

inductive Act (A E : Type) where
  | begin (answer : Answer)
  | existing (answer : Answer)
  | enter
  | handler (exit : Except (Cause E) A)
  | encode
  | complete (answer : Answer)
  | release (answer : Answer)
  | interrupt

namespace Phase
variable {A E : Type}

/-- The dispatch was told that the key is its own, and has not ended. -/
def Holds : Phase A E → Prop
  | claimed | execute | encode _ | release _ | complete _ _ => True
  | begin | existing | ended _ => False

/-- What the handler returned, as far as the phase shows it. -/
def Shows (encodes : A → Option Json) (succeeded : Option A) : Phase A E → Prop
  | encode result => succeeded = some result
  | complete result encoded => succeeded = some result ∧ encodes result = some encoded
  | _ => True

/-- Where an interruption leaves the dispatch: `catchAllCause` is around the handler and the
encoding, and the release that follows it can no longer be interrupted once it runs. -/
def cut (catches : Bool) : Phase A E → Option (Phase A E)
  | ended _ => none
  | execute | encode _ => some (if catches then release .interrupt else ended .interrupted)
  | _ => some (ended .interrupted)

end Phase

/-- The dispatches so far, each under its number; `claimedBy` is whose `begin` was the last one to
be answered `Claimed`. -/
structure Dispatches (S K A E : Type) where
  store : S
  dispatches : Fibers (Dispatch A E)
  claimedBy : K → Option ℕ

inductive Label (P A E W : Type) where
  | dispatch (i : ℕ) (tag key : String) (actor : Option String) (payload : P)
  | act (i : ℕ) (a : Act A E)
  | outside (w : W)

section Steps
variable {S K W P A E : Type}

def CommandDefinition.replay (definition : CommandDefinition P A) (result : Json) : DispatchExit A E :=
  match definition.decode result with
  | some success => .success success
  | none => .persistenceError

/-- The phase after an answered `begin`. -/
def CommandDefinition.begun (definition : CommandDefinition P A) : BeginOutcome → Phase A E
  | .completed result => .ended (definition.replay result)
  | .inFlight => .ended .idempotencyInFlight
  | .mismatch => .ended .idempotencyMismatch
  | .claimed => .claimed

variable (svc : IdempotencyStoreService S K W) (registry : String → CommandDefinition P A) (sha256Hex : String → String)
  (catches : Bool)

/-- A statement can fail, or be cut off, where the store is durable. -/
def Possible (answer : Answer) : Prop := answer = .ok ∨ svc.durable = true

instance (answer : Answer) : Decidable (Possible svc answer) := by unfold Possible; infer_instance

/-- One step of a dispatch and what it does to the store. -/
def Dispatch.next (store : S) (d : Dispatch A E) (a : Act A E) : Option (Dispatch A E × S) :=
  match a,d.phase with
  | .begin answer,.begin =>
    let claimed := svc.claim d.context store
    let phase := match claimed.1 with
      | some outcome => (registry d.context.tag).begun outcome
      | none => .existing
    if Possible svc answer then some ({d with phase := answer.goOn phase},if answer.applied then claimed.2 else store) else none
  | .existing answer,.existing =>
    let phase := match svc.existing d.context store with
      | some outcome => (registry d.context.tag).begun outcome
      | none => .ended .persistenceError
    if Possible svc answer then some ({d with phase := answer.goOn phase},store) else none
  | .enter,.claimed => some ({d with phase := .execute},store)
  | .handler (.ok result),.execute => some ({d with phase := .encode result, succeeded := some result},store)
  | .handler (.error cause),.execute => some ({d with phase := .release cause},store)
  | .encode,.encode result =>
    match (registry d.context.tag).encode result with
    | some encoded => some ({d with phase := .complete result encoded},store)
    | none => some ({d with phase := .release .die},store)
  | .complete answer,.complete result encoded =>
    if Possible svc answer then
      match svc.complete d.context encoded store with
      | some recorded => some ({d with phase := answer.goOn (.ended (.success result))},
          if answer.applied then recorded else store)
      | none => some ({d with phase := .ended .persistenceError},store)
    else none
  | .release .ok,.release cause => some ({d with phase := .ended (.failed cause false)},svc.release d.context store)
  | .release (.failed applied),.release cause =>
    if svc.durable then
      some ({d with phase := .ended (.failed cause true)},if applied then svc.release d.context store else store)
    else none
  | .interrupt,phase => (phase.cut catches).map fun phase => ({d with phase := phase},store)
  | _,_ => none

def Dispatch.claims (store : S) (d : Dispatch A E) : Act A E → Bool
  | .begin answer => answer.applied && match (svc.claim d.context store).1 with
    | some .claimed => true
    | _ => false
  | _ => false

def Dispatches.Quiet (s : Dispatches S K A E) : Prop := ∀ i d, s.dispatches i = some d → ∃ exit, d.phase = .ended exit

/-- The handler runs for the key of the context. -/
def Dispatches.Runs (s : Dispatches S K A E) (i : ℕ) (context : IdempotencyContext) : Prop :=
  ∃ d, s.dispatches i = some d ∧ d.phase = .execute ∧ d.context.SameKey context

/-- What a dispatch shows of its own run is true of it. -/
structure Dispatch.Sound (d : Dispatch A E) : Prop where
  payloadHash : d.context.payloadHash = sha256Hex d.encodedPayload.stableJson
  shows : d.phase.Shows (registry d.context.tag).encode d.succeeded

variable {svc registry sha256Hex catches} {store store' : S} {d d' : Dispatch A E} {a : Act A E}

theorem Phase.holds_cut {phase phase' : Phase A E} (h : phase.cut catches = some phase') (hp : phase'.Holds) : phase.Holds := by
  cases phase <;> cases catches <;> cases h <;> trivial

theorem Phase.shows_cut {phase phase' : Phase A E} (h : phase.cut catches = some phase') (encodes : A → Option Json)
    (succeeded : Option A) : phase'.Shows encodes succeeded := by
  cases phase <;> cases catches <;> cases h <;> trivial

theorem Phase.holds_begun {outcome : BeginOutcome} (definition : CommandDefinition P A)
    (h : (definition.begun outcome : Phase A E).Holds) : outcome = .claimed := by
  cases outcome with
  | claimed => rfl
  | completed result => exact absurd h id
  | inFlight => exact absurd h id
  | mismatch => exact absurd h id

theorem Phase.shows_begun (outcome : BeginOutcome) (definition : CommandDefinition P A) (encodes : A → Option Json)
    (succeeded : Option A) : (definition.begun outcome : Phase A E).Shows encodes succeeded := by
  cases outcome <;> trivial

theorem Answer.shows_goOn {answer : Answer} {phase : Phase A E} {encodes : A → Option Json} {succeeded : Option A}
    (h : phase.Shows encodes succeeded) : (answer.goOn phase).Shows encodes succeeded := by
  cases answer with
  | ok => exact h
  | failed applied => trivial
  | interrupted applied => trivial

theorem Answer.holds_goOn {answer : Answer} {phase : Phase A E} (h : (answer.goOn phase).Holds) : answer = .ok ∧
    phase.Holds := by
  cases answer with
  | ok => exact ⟨rfl,h⟩
  | failed applied => exact absurd h id
  | interrupted applied => exact absurd h id

variable (svc registry) in
/-- The phase after the first statement of `begin`, if it answers. -/
def Dispatch.claimedPhase (store : S) (d : Dispatch A E) : Phase A E :=
  match (svc.claim d.context store).1 with
  | some outcome => (registry d.context.tag).begun outcome
  | none => .existing

/-- The steps that leave the store as it is. -/
structure Dispatch.Still (registry : String → CommandDefinition P A) (catches : Bool) (d d' : Dispatch A E) (a : Act A E) :
    Prop where
  context : d'.context = d.context
  encodedPayload : d'.encodedPayload = d.encodedPayload
  shows : d.phase.Shows (registry d.context.tag).encode d.succeeded → d'.phase.Shows (registry d.context.tag).encode d'.succeeded
  holds : d'.phase.Holds → d.phase.Holds
  keeps : d.phase.Holds → d'.phase.Holds ∨ a = .interrupt ∧ d.phase.cut catches = some d'.phase
  claims : ∀ answer, a ≠ .begin answer

/-- A step asks the store to claim, to complete or to release, or leaves it as it is. -/
theorem Dispatch.next_cases (h : d.next svc registry catches store a = some (d',store')) :
    (∃ answer, a = .begin answer ∧ d.phase = .begin ∧ Possible svc answer ∧
      d' = {d with phase := answer.goOn (d.claimedPhase svc registry store)} ∧
      store' = if answer.applied then (svc.claim d.context store).2 else store) ∨
    (∃ answer result encoded recorded, a = .complete answer ∧ d.phase = .complete result encoded ∧ Possible svc answer ∧
      svc.complete d.context encoded store = some recorded ∧
      d' = {d with phase := answer.goOn (.ended (.success result))} ∧ store' = if answer.applied then recorded else store) ∨
    (∃ answer result encoded, a = .complete answer ∧ d.phase = .complete result encoded ∧ Possible svc answer ∧
      svc.complete d.context encoded store = none ∧ d' = {d with phase := .ended .persistenceError} ∧ store' = store) ∨
    (∃ answer cause, a = .release answer ∧ d.phase = .release cause ∧ Possible svc answer ∧
      (∃ exit, d' = {d with phase := .ended exit}) ∧
      store' = if answer.applied then svc.release d.context store else store) ∨
    (store' = store ∧ Dispatch.Still registry catches d d' a) := by
  unfold Dispatch.next at h
  split at h
  next answer hphase =>
    by_cases hp : Possible svc answer
    · rw [if_pos hp] at h
      cases h
      exact Or.inl ⟨answer,rfl,hphase,hp,rfl,rfl⟩
    · rw [if_neg hp] at h
      cases h
  next answer hphase =>
    by_cases hp : Possible svc answer
    · rw [if_pos hp] at h
      cases h
      refine Or.inr (Or.inr (Or.inr (Or.inr ⟨rfl,rfl,rfl,?_,?_,?_,fun _ => nofun⟩)))
      · intro _
        apply Answer.shows_goOn
        split
        · exact Phase.shows_begun _ _ _ _
        · trivial
      · intro holds
        have hgone := (Answer.holds_goOn holds).2
        split at hgone
        next outcome hfound =>
          rw [Phase.holds_begun _ hgone] at hfound
          exact absurd hfound (svc.existing_ne _ _)
        next => exact absurd hgone id
      · intro holds
        rw [hphase] at holds
        exact absurd holds id
    · rw [if_neg hp] at h
      cases h
  next hphase =>
    cases h
    refine Or.inr (Or.inr (Or.inr (Or.inr ⟨rfl,rfl,rfl,fun _ => trivial,?_,fun _ => Or.inl trivial,fun _ => nofun⟩)))
    intro _
    rw [hphase]
    trivial
  next result hphase =>
    cases h
    refine Or.inr (Or.inr (Or.inr (Or.inr ⟨rfl,rfl,rfl,fun _ => rfl,?_,fun _ => Or.inl trivial,fun _ => nofun⟩)))
    intro _
    rw [hphase]
    trivial
  next cause hphase =>
    cases h
    refine Or.inr (Or.inr (Or.inr (Or.inr ⟨rfl,rfl,rfl,fun _ => trivial,?_,fun _ => Or.inl trivial,fun _ => nofun⟩)))
    intro _
    rw [hphase]
    trivial
  next result hphase =>
    have holds : d.phase.Holds := by
      rw [hphase]
      trivial
    split at h
    next encoded hencoded =>
      cases h
      refine Or.inr (Or.inr (Or.inr (Or.inr ⟨rfl,rfl,rfl,?_,fun _ => holds,fun _ => Or.inl trivial,fun _ => nofun⟩)))
      intro shows
      rw [hphase] at shows
      exact ⟨shows,hencoded⟩
    next =>
      cases h
      exact Or.inr (Or.inr (Or.inr (Or.inr ⟨rfl,rfl,rfl,fun _ => trivial,fun _ => holds,fun _ => Or.inl trivial,fun _ =>
        nofun⟩)))
  next answer result encoded hphase =>
    by_cases hp : Possible svc answer
    · rw [if_pos hp] at h
      split at h
      next recorded hrecorded =>
        cases h
        exact Or.inr (Or.inl ⟨answer,result,encoded,recorded,rfl,hphase,hp,hrecorded,rfl,rfl⟩)
      next hfails =>
        cases h
        exact Or.inr (Or.inr (Or.inl ⟨answer,result,encoded,rfl,hphase,hp,hfails,rfl,rfl⟩))
    · rw [if_neg hp] at h
      cases h
  next cause hphase =>
    cases h
    exact Or.inr (Or.inr (Or.inr (Or.inl ⟨.ok,cause,rfl,hphase,Or.inl rfl,⟨_,rfl⟩,rfl⟩)))
  next applied cause hphase =>
    by_cases hd : svc.durable = true
    · rw [if_pos hd] at h
      cases h
      exact Or.inr (Or.inr (Or.inr (Or.inl ⟨.failed applied,cause,rfl,hphase,Or.inr hd,⟨_,rfl⟩,rfl⟩)))
    · rw [if_neg hd] at h
      cases h
  next =>
    obtain ⟨phase,hcut,hd⟩ := Option.map_eq_some_iff.mp h
    cases hd
    exact Or.inr (Or.inr (Or.inr (Or.inr ⟨rfl,rfl,rfl,fun _ => Phase.shows_cut hcut _ _,Phase.holds_cut hcut,
      fun _ => Or.inr ⟨rfl,hcut⟩,fun _ => nofun⟩)))
  next => cases h

theorem Dispatch.next_ended {exit : DispatchExit A E} (h : d.phase = .ended exit) : d.next svc registry catches store a =
    none := by
  obtain ⟨context,encodedPayload,phase,succeeded⟩ := d
  obtain rfl : phase = .ended exit := h
  cases a with
  | handler exit => cases exit <;> rfl
  | release answer => cases answer <;> rfl
  | _ => rfl

theorem Dispatch.next_keeps (h : d.next svc registry catches store a = some (d',store')) :
    d'.context = d.context ∧ d'.encodedPayload = d.encodedPayload := by
  rcases Dispatch.next_cases h with ⟨answer,-,-,-,rfl,-⟩ | ⟨answer,result,-,-,-,-,-,-,rfl,-⟩ | ⟨-,-,-,-,-,-,-,rfl,-⟩ |
    ⟨-,-,-,-,-,⟨exit,rfl⟩,-⟩ | ⟨-,hstill⟩
  · exact ⟨rfl,rfl⟩
  · exact ⟨rfl,rfl⟩
  · exact ⟨rfl,rfl⟩
  · exact ⟨rfl,rfl⟩
  · exact ⟨hstill.context,hstill.encodedPayload⟩

theorem Dispatch.next_sound (hd : d.Sound registry sha256Hex) (h : d.next svc registry catches store a = some (d',store')) :
    d'.Sound registry sha256Hex := by
  obtain ⟨hcontext,hpayload⟩ := Dispatch.next_keeps h
  constructor
  · rw [hcontext,hpayload]
    exact hd.payloadHash
  rw [hcontext]
  rcases Dispatch.next_cases h with ⟨answer,-,-,-,rfl,-⟩ | ⟨answer,result,-,-,-,-,-,-,rfl,-⟩ | ⟨-,-,-,-,-,-,-,rfl,-⟩ |
    ⟨-,-,-,-,-,⟨exit,rfl⟩,-⟩ | ⟨-,hstill⟩
  · apply Answer.shows_goOn
    unfold Dispatch.claimedPhase
    split
    · exact Phase.shows_begun _ _ _ _
    · trivial
  · exact Answer.shows_goOn trivial
  · trivial
  · trivial
  · exact hstill.shows hd.shows

variable [DecidableEq K]

section
variable (svc registry sha256Hex catches)

/-- A dispatch whose payload does not encode dies before the store is asked. -/
def Dispatches.step (s : Dispatches S K A E) : Label P A E W → Option (Dispatches S K A E)
  | .dispatch i tag key actor payload =>
    match s.dispatches i,(registry tag).encodePayload payload with
    | none,some encodedPayload => some {s with
        dispatches := s.dispatches.set i ⟨⟨key,tag,actor,sha256Hex encodedPayload.stableJson⟩,encodedPayload,.begin,none⟩}
    | none,none => some s
    | some _,_ => none
  | .act i a => do
    let d ← s.dispatches i
    let (d',store) ← d.next svc registry catches s.store a
    return {
      store := store
      dispatches := s.dispatches.set i d'
      claimedBy := if d.claims svc s.store a then Function.update s.claimedBy (svc.id d.context) (some i) else s.claimedBy}
  | .outside w => some {s with store := svc.outside w s.store}

def dispatches : System (Dispatches S K A E) (Label P A E W) :=
  ⟨⟨svc.init,Fibers.empty,fun _ => none⟩,fun s l => s.step svc registry sha256Hex catches l⟩

end


theorem Dispatches.step_cases {s s' : Dispatches S K A E} {l : Label P A E W}
    (h : s.step svc registry sha256Hex catches l = some s') :
    (∃ i tag key actor payload encodedPayload, l = .dispatch i tag key actor payload ∧ s.dispatches i = none ∧
      s' = ⟨s.store,s.dispatches.set i ⟨⟨key,tag,actor,sha256Hex (encodedPayload : Json).stableJson⟩,encodedPayload,.begin,none⟩,
        s.claimedBy⟩) ∨
    (∃ i tag key actor payload, l = .dispatch i tag key actor payload ∧ s' = s) ∨
    (∃ i a d d' store, l = .act i a ∧ s.dispatches i = some d ∧ d.next svc registry catches s.store a = some (d',store) ∧
      s' = ⟨store,s.dispatches.set i d',
        if d.claims svc s.store a then Function.update s.claimedBy (svc.id d.context) (some i) else s.claimedBy⟩) ∨
    ∃ w, l = .outside w ∧ s' = {s with store := svc.outside w s.store} := by
  cases l with
  | dispatch i tag key actor payload =>
    simp only [Dispatches.step] at h
    split at h
    next encodedPayload hfree _ =>
      exact Or.inl ⟨i,tag,key,actor,payload,encodedPayload,rfl,hfree,(Option.some.inj h).symm⟩
    next => exact Or.inr (Or.inl ⟨i,tag,key,actor,payload,rfl,(Option.some.inj h).symm⟩)
    next => cases h
  | act i a =>
    obtain ⟨d,hd,hrest⟩ := Option.bind_eq_some_iff.mp h
    obtain ⟨⟨d',store⟩,hnext,hs⟩ := Option.bind_eq_some_iff.mp hrest
    exact Or.inr (Or.inr (Or.inl ⟨i,a,d,d',store,rfl,hd,hnext,(Option.some.inj hs).symm⟩))
  | outside w => exact Or.inr (Or.inr (Or.inr ⟨w,rfl,(Option.some.inj h).symm⟩))

theorem Dispatches.sound_step {s s' : Dispatches S K A E} {l : Label P A E W}
    (hs : Fibers.All (Dispatch.Sound registry sha256Hex) s.dispatches) (h : s.step svc registry sha256Hex catches l = some s') :
    Fibers.All (Dispatch.Sound registry sha256Hex) s'.dispatches := by
  rcases Dispatches.step_cases h with ⟨i,tag,key,actor,payload,encodedPayload,-,-,rfl⟩ | ⟨-,-,-,-,-,-,rfl⟩ |
    ⟨i,a,d,d',store,-,hd,hnext,rfl⟩ | ⟨w,-,rfl⟩
  · exact hs.set ⟨rfl,trivial⟩
  · exact hs
  · exact hs.set (Dispatch.next_sound (hs i d hd) hnext)
  · exact hs

end Steps
end StructureAi.Cqrs

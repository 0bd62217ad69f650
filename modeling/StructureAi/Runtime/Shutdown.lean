import StructureAi.Foundation.Fibers
import StructureAi.Foundation.Run

/-! # Shutdown

Whoever triggers the shutdown first marks it, publishes the reason and forks the drain, in three
steps; everybody waits for the drain to end. An interruption can take a caller away before any of
its steps, but not the drain once it is forked.
-/
namespace StructureAi.Runtime
open StructureAi.Foundation

variable {F : Type}

section Coordinators

structure RegisteredFinalizer (F : Type) where
  name : String
  finalizer : F

/-- How a finalizer ends: with a value, cut by its timeout, or with any other cause. -/
inductive Ending where
  | completed
  | overran
  | failed

inductive LogLine where
  | error (message : String)
  | warning (message : String)

def logOf (finalizerTimeout : ℕ) (registered : RegisteredFinalizer F) : Ending → Option LogLine
  | .completed => none
  | .overran => some (.error ("shutdown finalizer \"" ++ registered.name ++ "\" exceeded its " ++
      toString finalizerTimeout ++ " ms budget and was cut"))
  | .failed => some (.warning ("shutdown finalizer \"" ++ registered.name ++ "\" failed; skipping"))

/-- A caller before the step that its phase names, or after all of them. -/
inductive Caller where
  | mark (reason : String)
  | publish (reason : String)
  | fork
  | awaitDrained
  | awaitShutdown
  | awaitReason
  | returned
  | resolved (reason : String)
  | interrupted
deriving DecidableEq

/-- A fiber of the drain. -/
inductive Drain (F : Type) where
  | setUnready
  | read
  | next (rest : List (RegisteredFinalizer F))
  | run (registered : RegisteredFinalizer F) (rest : List (RegisteredFinalizer F))
  | ended

/-- What a drain does, as others see it. -/
inductive Act (F : Type) where
  | turnedUnready
  | started (registered : RegisteredFinalizer F)
  | finished (registered : RegisteredFinalizer F)

structure Coordinator (F : Type) where
  started : Bool
  reason : Option String
  drained : Bool
  finalizers : List (RegisteredFinalizer F)
  ready : Bool
  log : List LogLine
  callers : Fibers Caller
  /-- By the caller that forked it. -/
  drains : Fibers (Drain F)
  /-- Everything the drains have done. -/
  acts : List (Act F)
  /-- What was registered before the first trigger. -/
  first : Option (List (RegisteredFinalizer F))

inductive Label (F : Type) where
  | onShutdown (name : String) (finalizer : F)
  | trigger (caller : ℕ) (reason : String)
  | awaitShutdown (caller : ℕ)
  | setReady
  | interrupt (caller : ℕ)
  | caller (caller : ℕ)
  | drain (caller : ℕ) (ending : Ending)

namespace Coordinator

def callerStep (s : Coordinator F) (caller : ℕ) : Option (Coordinator F) :=
  match s.callers caller with
  | some (.mark reason) => some {s with
      started := true
      first := if s.started then s.first else some s.finalizers
      callers := s.callers.set caller (if s.started then .awaitDrained else .publish reason)}
  | some (.publish reason) => some {s with
      reason := s.reason.or (some reason)
      callers := s.callers.set caller .fork}
  | some .fork => some {s with
      drains := s.drains.set caller .setUnready
      callers := s.callers.set caller .awaitDrained}
  | some .awaitDrained => if s.drained then some {s with callers := s.callers.set caller .returned} else none
  | some .awaitShutdown => if s.drained then some {s with callers := s.callers.set caller .awaitReason} else none
  | some .awaitReason => s.reason.map fun reason => {s with callers := s.callers.set caller (.resolved reason)}
  | _ => none

/-- The next step of a drain; how a finalizer ends is its own. -/
def drainStep (finalizerTimeout : ℕ) (s : Coordinator F) (caller : ℕ) (ending : Ending) : Option (Coordinator F) :=
  match s.drains caller with
  | some .setUnready => some {s with
      ready := false
      acts := s.acts ++ [.turnedUnready]
      drains := s.drains.set caller .read}
  | some .read => some {s with drains := s.drains.set caller (.next s.finalizers.reverse)}
  | some (.next (registered :: rest)) => some {s with
      acts := s.acts ++ [.started registered]
      drains := s.drains.set caller (.run registered rest)}
  | some (.run registered rest) => some {s with
      log := s.log ++ (logOf finalizerTimeout registered ending).toList
      acts := s.acts ++ [.finished registered]
      drains := s.drains.set caller (.next rest)}
  | some (.next []) => some {s with
      drained := true
      drains := s.drains.set caller .ended}
  | _ => none

def begin (s : Coordinator F) (caller : ℕ) (phase : Caller) : Option (Coordinator F) :=
  match s.callers caller with
  | none => some {s with callers := s.callers.set caller phase}
  | some _ => none

/-- A caller that is not done yet goes no further. -/
def interrupt (s : Coordinator F) (caller : ℕ) : Option (Coordinator F) :=
  match s.callers caller with
  | none | some .returned | some (.resolved _) | some .interrupted => none
  | some _ => some {s with callers := s.callers.set caller .interrupted}

def step (finalizerTimeout : ℕ) (s : Coordinator F) : Label F → Option (Coordinator F)
  | .onShutdown name finalizer => some {s with finalizers := s.finalizers ++ [⟨name,finalizer⟩]}
  | .trigger caller reason => s.begin caller (.mark reason)
  | .awaitShutdown caller => s.begin caller .awaitShutdown
  | .setReady => some {s with ready := true}
  | .interrupt caller => s.interrupt caller
  | .caller caller => s.callerStep caller
  | .drain caller ending => s.drainStep finalizerTimeout caller ending

/-- The service that `make` gives. -/
def make : Coordinator F := ⟨false,none,false,[],false,[],Fibers.empty,Fibers.empty,[],none⟩

def shutdowns (F : Type) (finalizerTimeout : ℕ) : System (Coordinator F) (Label F) := ⟨make,step finalizerTimeout⟩

end Coordinator
end Coordinators

namespace Coordinator

section Contract
variable (s : Coordinator F)

/-- The acts of the drain of some finalizers, given in the order of their registration. -/
def drainActs (registered : List (RegisteredFinalizer F)) : List (Act F) :=
  .turnedUnready :: registered.reverse.flatMap fun r => [.started r,.finished r]

/-- All that were registered before the first trigger, and then some that were registered later. -/
def Registered (registered : List (RegisteredFinalizer F)) : Prop :=
  ∃ first, s.first = some first ∧ first <+: registered ∧ registered <+: s.finalizers

/-- The finalizers were started once each, one at a time, the latest registered first. -/
def InOrder : Prop := s.acts ≠ [] → ∃ registered, s.Registered registered ∧ s.acts <+: drainActs registered

def Drained : Prop := s.drained = true ∧ ∃ registered, s.Registered registered ∧ s.acts = drainActs registered

def Stuck (finalizerTimeout : ℕ) : Prop :=
  (∀ caller, s.callerStep caller = none) ∧ ∀ caller ending, s.drainStep finalizerTimeout caller ending = none

def gone : Caller → Bool
  | .returned | .resolved _ | .interrupted => true
  | _ => false

structure DrainsOnce (finalizerTimeout : ℕ) : Prop where
  inOrder : s.InOrder
  returnsLast : ∀ caller, s.callers caller = some .returned → s.Drained
  completes : s.started = true → s.Stuck finalizerTimeout →
    s.Drained ∧ ∀ caller phase, s.callers caller = some phase → gone phase = true

end Contract

/-- The shutdown is marked and the drain is still to be forked by the caller. -/
def starting : Caller → Bool
  | .publish _ | .fork => true
  | _ => false

/-- The label does not take away the caller that is about to fork the drain. -/
def Unbroken (s : Coordinator F) (l : Label F) : Prop :=
  ∀ caller phase, l = .interrupt caller → s.callers caller = some phase → starting phase = false

end Coordinator
end StructureAi.Runtime

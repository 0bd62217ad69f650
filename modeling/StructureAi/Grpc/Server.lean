import StructureAi.Foundation.Run
import StructureAi.Foundation.Entries

/-! # A unary call of the server

The operation of a call verifies it and hands the handler's effect to a hook, which may run it at any time,
again, or not at all, and
may go on after it. A run that gives a value answers the call there. The operation is cut off at the deadline, and by an
interrupt after the call was cancelled; what is on its way at that moment may still be done. A failure of the operation is
answered at its end.
-/
namespace StructureAi.Grpc
open StructureAi.Foundation

inductive Status
  | ok
  | cancelled
  | unknown
  | invalidArgument
  | deadlineExceeded
  | notFound
  | alreadyExists
  | permissionDenied
  | resourceExhausted
  | failedPrecondition
  | aborted
  | outOfRange
  | unimplemented
  | internal
  | unavailable
  | dataLoss
  | unauthenticated
deriving DecidableEq

def statusMessage : Status → String
  | .cancelled => "Call cancelled"
  | .invalidArgument => "Invalid request"
  | .deadlineExceeded => "Deadline exceeded"
  | .notFound => "Not found"
  | .alreadyExists => "Already exists"
  | .permissionDenied => "Permission denied"
  | .resourceExhausted => "Resource limit exceeded"
  | .failedPrecondition => "Business failure"
  | .aborted => "Conflict"
  | .unimplemented => "Method unavailable"
  | .unavailable => "Service unavailable"
  | .unauthenticated => "Authentication required"
  | _ => "Unexpected failure"

inductive Taxonomy
  | validationFailed
  | unauthenticated
  | permissionDenied
  | unauthorized
  | concurrencyConflict
  | idempotencyMismatch
  | idempotencyInFlight
  | dispatchTimeout
  | notFound
deriving DecidableEq

inductive Failure (E : Type)
  | grpc (code : Status)
  | parse
  | taxonomy (tag : Taxonomy)
  | other (error : E)

def toStatus {E : Type} : Failure E → Status
  | .grpc code => code
  | .parse => .invalidArgument
  | .taxonomy .validationFailed => .invalidArgument
  | .taxonomy .unauthenticated => .unauthenticated
  | .taxonomy .unauthorized => .permissionDenied
  | .taxonomy .permissionDenied => .permissionDenied
  | .taxonomy .concurrencyConflict => .aborted
  | .taxonomy .idempotencyMismatch => .aborted
  | .taxonomy .idempotencyInFlight => .unavailable
  | .taxonomy .dispatchTimeout => .deadlineExceeded
  | .taxonomy .notFound => .notFound
  | .other _ => .internal

/-- Why an effect did not succeed. -/
inductive Cause (E : Type)
  | empty
  | fail (error : Failure E)
  | die
  | interrupt
  | sequential (left right : Cause E)
  | parallel (left right : Cause E)

namespace Cause
variable {E : Type}

def isInterrupted : Cause E → Bool
  | interrupt => true
  | sequential left right => left.isInterrupted || right.isInterrupted
  | parallel left right => left.isInterrupted || right.isInterrupted
  | _ => false

/-- The error of a cause that is a failure and nothing else. -/
def error? : Cause E → Option (Failure E)
  | fail error => some error
  | _ => none

end Cause

inductive MetadataValue
  | text (value : String)
  | binary (bytes : List UInt8)
deriving DecidableEq

abbrev Metadata := List (String × List MetadataValue)

def Metadata.set (metadata : Metadata) (key : String) (value : MetadataValue) : Metadata := put key [value] metadata

def FAILURE_KEY : String := "structure-failure-bin"

def FAILURE_VERSION : String := "structure-failure-version"

def MAX_FAILURE_BYTES : ℕ := 8192

/-- An invocation of the callback. -/
inductive Reply (V : Type)
  | success (value : V) (trailers : Metadata)
  | error (code : Status) (details : String) (trailers : Metadata)

def Reply.isSuccess {V : Type} : Reply V → Bool
  | success _ _ => true
  | error _ _ _ => false

inductive Stage (E : Type)
  | entering
  | verifying
  | working
  | failed (cause : Cause E)
  /-- The failure was answered. -/
  | reported
  | finished

/-- What is fixed for a call. -/
structure Config (E : Type) where
  correlationId : String
  atCapacity : Bool
  invalidRequest : Bool
  encode : Failure E → Option (List UInt8)

structure Call (E V : Type) where
  accepting : Bool
  stage : Stage E
  /-- The hook has been given the work. -/
  hooked : Bool
  /-- The runs of the work that go on. -/
  running : ℕ
  /-- The values that runs of the handler's effect have given. -/
  given : List V
  expired : Bool
  cancelled : Bool
  interrupted : Bool
  headers : Option Metadata
  trailers : Metadata
  replies : List (Reply V)

inductive Move (E V : Type)
  | enter
  | verify (exit : Except (Cause E) Unit)
  | runWork
  | handle (exit : Except (Cause E) V)
  | setTrailers (metadata : Metadata)
  | sendHeaders (metadata : Metadata)
  | hookEnd (exit : Except (Cause E) Unit)
  | expire
  | report
  | close
  | forceShutdown
  | cancel
  | interrupt

section Invoke
variable {E V : Type} (config : Config E)

def Call.sendHeaders (call : Call E V) (metadata : Metadata) : Call E V :=
  if call.headers.isSome then call
  else {call with headers := some (metadata.set "x-correlation-id" (.text config.correlationId))}

def Call.sendDefault (call : Call E V) : Call E V := call.sendHeaders config []

/-- The end of the operation: an interrupt passes by the error path, and the deadline goes before how the work ended. -/
def Call.conclude (call : Call E V) (exit : Except (Cause E) Unit) : Call E V :=
  {call with stage :=
    if call.interrupted then .finished
    else if call.expired then .failed (.fail (.grpc .deadlineExceeded))
    else match exit with
      | .ok _ => .finished
      | .error cause => .failed cause}

/-- The code of a failure and the trailers that go with it. -/
def failure (cause : Cause E) (trailers : Metadata) : Status × Metadata :=
  let code := if cause.isInterrupted then .cancelled else (cause.error?.map toStatus).getD .internal
  match cause.error?.bind config.encode with
  | none => (code,trailers)
  | some bytes =>
    if bytes.length ≤ MAX_FAILURE_BYTES then
      (.failedPrecondition,(trailers.set FAILURE_VERSION (.text "1")).set FAILURE_KEY (.binary bytes))
    else (.internal,trailers)

def Call.report (call : Call E V) (cause : Cause E) : Call E V :=
  let (code,trailers) := failure config cause call.trailers
  if call.cancelled then {call with trailers := trailers, stage := .finished}
  else
    let sent := call.sendDefault config
    {sent with trailers := trailers, replies := call.replies ++ [.error code (statusMessage code) trailers], stage := .reported}

def step (call : Call E V) : Move E V → Option (Call E V)
  | .enter =>
    match call.stage with
    | .entering =>
      if ¬ call.accepting then some (call.conclude (.error (.fail (.grpc .unavailable))))
      else if config.atCapacity then some (call.conclude (.error (.fail (.grpc .resourceExhausted))))
      else some {call with stage := .verifying}
    | _ => none
  | .verify exit =>
    match call.stage,exit with
    | .verifying,.error cause => some (call.conclude (.error cause))
    | .verifying,.ok _ =>
      if config.invalidRequest then some (call.conclude (.error (.fail (.grpc .invalidArgument))))
      else some {call with stage := .working, hooked := true}
    | _,_ => none
  | .runWork => if call.hooked then some {call with running := call.running + 1} else none
  | .handle exit =>
    if call.running = 0 then none
    else
      match exit with
      | .error _ => some {call with running := call.running - 1}
      | .ok value =>
        let sent := call.sendDefault config
        some {sent with running := call.running - 1, given := call.given ++ [value],
                        replies := call.replies ++ [.success value call.trailers]}
  | .setTrailers metadata => if call.hooked then some {call with trailers := metadata} else none
  | .sendHeaders metadata => if call.hooked then some (call.sendHeaders config metadata) else none
  | .hookEnd exit =>
    match call.stage with
    | .working => some (call.conclude exit)
    | _ => none
  | .expire =>
    if call.expired then none
    else
      match call.stage with
      | .entering | .verifying | .working => some {call with expired := true}
      | _ => none
  | .report =>
    match call.stage with
    | .failed cause => if call.interrupted then some {call with stage := .finished} else some (call.report config cause)
    | _ => none
  | .close => some {call with accepting := false}
  -- the transport cancels the calls that are open
  | .forceShutdown => if call.accepting then none else some {call with cancelled := true}
  | .cancel => some {call with cancelled := true}
  | .interrupt => if call.cancelled then some {call with interrupted := true} else none

/-- `invoke` for a unary method. -/
def invoke : System (Call E V) (Move E V) where
  init := ⟨true,.entering,false,0,[],false,false,false,none,[],[]⟩
  step := step config

end Invoke

end StructureAi.Grpc

import StructureAi.Foundation.Table
import StructureAi.Foundation.Run
import StructureAi.Jobs.Cron

/-! # The job scheduler

The queue and dead-letter tables, and the statements of the schedulers and workers
that share them. Every statement is atomic; the dead-letter transaction holds its row
locked from the fenced DELETE on, so that it is one write too, or none if it is rolled
back. A worker may stall between any two of its statements.
-/
namespace StructureAi.Jobs
open StructureAi.Foundation

inductive Classification where
  | transient
  | permanent
deriving DecidableEq

structure JobFailure where
  reason : String
  classification : Classification

/-- How a handler ends; after a defect or an interruption its worker writes nothing. -/
inductive HandlerExit where
  | success
  | failure (error : JobFailure)

/-- A registered handler: what its payload schema says of a stored payload, and its own maximum. -/
structure StoredJobHandler where
  decode : String → Except String Unit
  maxAttempts : Option ℕ

abbrev Handlers := String → Option StoredJobHandler

def maxAttemptsFor (handlers : Handlers) (jobName : String) : ℕ :=
  ((handlers jobName).bind StoredJobHandler.maxAttempts).getD 5

inductive JobStatus where
  | queued
  | running
deriving DecidableEq

/-- A row as a claim returns it; the owner is the token of the claim. -/
structure QueueRow where
  id : String
  jobName : String
  payload : String
  attempt : ℕ
  maxAttempts : ℕ
  cronExpr : Option String
  cronTimezone : Option String
  correlationId : Option String
  runAt : ℤ
  leaseOwner : String
deriving DecidableEq

/-- A row of the queue table. -/
structure JobRow where
  id : String
  jobName : String
  payload : String
  status : JobStatus
  runAt : ℤ
  cronExpr : Option String
  cronTimezone : Option String
  attempt : ℕ
  maxAttempts : ℕ
  leaseExpiresAt : Option ℤ
  leaseOwner : Option String
  lastError : Option String
  correlationId : Option String
deriving DecidableEq

structure DeadLetter where
  id : String
  jobName : String
  payload : String
  attempts : ℕ
  lastError : String
  correlationId : Option String
  deadAt : ℤ
deriving DecidableEq

namespace JobRow

def HeldBy (token : String) (r : JobRow) : Prop := r.status = .running ∧ r.leaseOwner = some token

instance (token : String) (r : JobRow) : Decidable (r.HeldBy token) := inferInstanceAs (Decidable (_ ∧ _))

def claimable (now : ℤ) (r : JobRow) : Bool :=
  match r.status with
  | .queued => r.runAt ≤ now
  | .running => r.leaseExpiresAt.any fun leaseExpiresAt => leaseExpiresAt ≤ now

def claimed (leaseUntil : ℤ) (owner : String) (r : JobRow) : JobRow :=
  {r with status := .running, attempt := r.attempt + 1, leaseExpiresAt := some leaseUntil, leaseOwner := some owner}

def returned (owner : String) (r : JobRow) : QueueRow :=
  ⟨r.id,r.jobName,r.payload,r.attempt,r.maxAttempts,r.cronExpr,r.cronTimezone,r.correlationId,r.runAt,owner⟩

/-- Back in the queue until `runAt`. -/
def released (runAt : ℤ) (r : JobRow) : JobRow :=
  {r with status := .queued, runAt := runAt, leaseExpiresAt := none, leaseOwner := none}

end JobRow

/-- What `runOutcome` does about a row. -/
inductive Settlement where
  | completeSuccess
  | rescheduleRetry (reason : String)
  | deadLetter (reason : String)

/-- `text.slice(0, n)`. -/
def slice (n : ℕ) (text : String) : String := String.ofList (text.toList.take n)

def runOutcome (handlers : Handlers) (row : QueueRow) (exit : HandlerExit) : Settlement :=
  match handlers row.jobName with
  | none => .deadLetter "unknown-job"
  | some handler =>
    match handler.decode row.payload with
    | .error problem => .deadLetter ("invalid-payload: " ++ slice 128 problem)
    | .ok () =>
      match exit with
      | .success => .completeSuccess
      | .failure error =>
        let maxAttempts := if row.maxAttempts = 0 then maxAttemptsFor handlers row.jobName else row.maxAttempts
        if error.classification = .permanent ∨ maxAttempts ≤ row.attempt then .deadLetter error.reason
        else .rescheduleRetry error.reason

/-- Backoff for attempt N (1-based): exponential, capped, ±50% jitter. -/
def backoffMillis (attempt : ℕ) (random : ℚ) (baseMillis capMillis : ℚ) : ℤ :=
  let exponential := min (baseMillis * 2 ^ ((attempt : ℤ) - 1)) capMillis
  ⌊exponential * (1 / 2 + random) + 1 / 2⌋

/-- What the formatters of the time zones show. `wallClockFormatter` has one for every name: for one that `Intl` does
not know it is that of UTC. -/
abbrev Zones := String → Option (ℤ → WallClock)

/-- The occurrence after an instant, which an invalid expression or a zone without a formatter does not have
even the question of. -/
def nextOccurrence (zones : Zones) (cron timezone : String) (after : ℤ) : Option (Option ℤ) :=
  match parseCron cron,zones timezone with
  | .ok fields,some wallClockOf => some (nextRun wallClockOf after fields)
  | _,_ => none

/-- The next run of a completed row; a row without one is deleted. -/
def completion (zones : Zones) (row : QueueRow) (now : ℤ) : Option (Option ℤ) :=
  match row.cronExpr with
  | none => some none
  -- missed runs are skipped: strictly after the scheduled time and now
  | some cron => nextOccurrence zones cron (row.cronTimezone.getD "UTC") (max row.runAt now)

/-- A write that took effect, on one row. -/
inductive Write where
  | schedule (id : String)
  | recur (id cron timezone : String) (now runAt : ℤ)
  | cancel (id : String)
  | claim (id token : String)
  | heartbeat (id token : String)
  | complete (id token : String) (now : ℤ) (next : Option ℤ)
  | retry (id token : String) (now backoff : ℤ)
  | deadLetter (id token : String) (letter : DeadLetter)
  | abandon (id token : String) (now : ℤ)
deriving DecidableEq

namespace Write

def id : Write → String
  | schedule id => id
  | recur id _ _ _ _ => id
  | cancel id => id
  | claim id _ => id
  | heartbeat id _ => id
  | complete id _ _ _ => id
  | retry id _ _ _ => id
  | deadLetter id _ _ => id
  | abandon id _ _ => id

def holder : Write → Option String
  | heartbeat _ token => some token
  | complete _ token _ _ => some token
  | retry _ token _ _ => some token
  | deadLetter _ token _ => some token
  | abandon _ token _ => some token
  | _ => none

def token : Write → Option String
  | claim _ token => some token
  | w => w.holder

def releases : Write → Option String
  | heartbeat _ _ => none
  | w => w.holder

def removes : Write → Bool
  | cancel _ => true
  | complete _ _ _ none => true
  | deadLetter _ _ _ => true
  | _ => false

def inserts : Write → Bool
  | schedule _ => true
  | recur _ _ _ _ _ => true
  | _ => false

def recurs : Write → Bool
  | recur _ _ _ _ _ => true
  | _ => false

def letter : Write → Option DeadLetter
  | deadLetter _ _ letter => some letter
  | _ => none

end Write

/-- The tables, the executions of all workers, and the writes so far, the latest first. -/
structure Scheduler where
  queue : List JobRow
  deadLetters : List DeadLetter
  /-- Claimed rows whose handlers have not been settled. -/
  executions : List QueueRow
  /-- Settled rows whose fibers have not ended. -/
  settled : List QueueRow
  history : List Write

/-- Statements of any scheduler and worker; times, random values and outcomes are the environment's. -/
inductive SchedulerCall where
  | schedule (handlers : Handlers) (id jobName payload : String) (runAt : ℤ) (correlationId : Option String)
  | recur (handlers : Handlers) (id jobName payload cron : String) (timezone : Option String) (now : ℤ)
      (correlationId : Option String)
  | cancel (id : String)
  /-- `skipped` are the rows other transactions hold locked. -/
  | claim (batchSize : ℕ) (now leaseMillis : ℤ) (owner : String) (skipped : List String)
  | heartbeat (row : QueueRow) (now leaseMillis : ℤ)
  | settle (handlers : Handlers) (row : QueueRow) (exit : HandlerExit) (now : ℤ) (random : ℚ)
      (letterId : String) (committed : Bool)
  | abandonDrain (row : QueueRow) (now : ℤ)
  /-- The fiber of the row ended, failed or died with its process. -/
  | stop (row : QueueRow)

namespace Scheduler

def init : Scheduler := ⟨[],[],[],[],[]⟩

def held (row : QueueRow) (r : JobRow) : Bool := r.id = row.id ∧ r.HeldBy row.leaseOwner

/-- A write scoped to the row and the lease of an execution. -/
def fenced (s : Scheduler) (row : QueueRow) (statement : List JobRow → List JobRow) (w : Write) : Scheduler :=
  if s.queue.any (held row) then {s with queue := statement s.queue, history := w :: s.history} else s

def schedule (s : Scheduler) (handlers : Handlers) (id jobName payload : String) (runAt : ℤ)
    (correlationId : Option String) : Scheduler :=
  {s with
    queue := s.queue ++
      [⟨id,jobName,payload,.queued,runAt,none,none,0,maxAttemptsFor handlers jobName,none,none,none,correlationId⟩]
    history := .schedule id :: s.history}

/-- `INSERT … ON CONFLICT (id) DO UPDATE`, which leaves the name, the maximum and the owner of a row. -/
def recur (s : Scheduler) (handlers : Handlers) (id jobName payload cron timezone : String) (now first : ℤ)
    (correlationId : Option String) : Scheduler :=
  {s with
    queue :=
      if s.queue.any fun r => r.id = id then
        updateWhere (fun r => r.id = id) (fun r => {r with
          payload := payload, runAt := first, cronExpr := some cron, cronTimezone := some timezone,
          status := .queued, attempt := 0, leaseExpiresAt := none, correlationId := correlationId}) s.queue
      else s.queue ++
        [⟨id,jobName,payload,.queued,first,some cron,some timezone,0,maxAttemptsFor handlers jobName,none,none,
          none,correlationId⟩]
    history := .recur id cron timezone now first :: s.history}

def cancel (s : Scheduler) (id : String) : Scheduler :=
  if s.queue.any fun r => r.id = id then
    {s with queue := deleteWhere (fun r => r.id = id) s.queue, history := .cancel id :: s.history}
  else s

/-- The ids of a claim: claimable rows that are not locked, the longest due first. -/
def picked (s : Scheduler) (batchSize : ℕ) (now : ℤ) (skipped : List String) : List String :=
  ((orderBy JobRow.runAt (s.queue.filter fun r => r.claimable now && r.id ∉ skipped)).take batchSize).map
    JobRow.id

def claim (s : Scheduler) (batchSize : ℕ) (now leaseMillis : ℤ) (owner : String) (skipped : List String) : Scheduler :=
  let ids := s.picked batchSize now skipped
  let queue := updateWhere (fun r => r.id ∈ ids) (JobRow.claimed (now + leaseMillis) owner) s.queue
  {s with
    queue := queue
    executions := (queue.filter fun r => r.id ∈ ids).map (JobRow.returned owner) ++ s.executions
    history := ids.map (Write.claim · owner) ++ s.history}

def heartbeat (s : Scheduler) (row : QueueRow) (now leaseMillis : ℤ) : Scheduler :=
  s.fenced row (updateWhere (held row) fun r => {r with leaseExpiresAt := some (now + leaseMillis)})
    (.heartbeat row.id row.leaseOwner)

/-- `completeSuccess`, once the next run is known. -/
def completeSuccess (s : Scheduler) (row : QueueRow) (now : ℤ) (next : Option ℤ) : Scheduler :=
  s.fenced row
    (match next with
      | none => deleteWhere (held row)
      | some runAt => updateWhere (held row) fun r => {r.released runAt with attempt := 0})
    (.complete row.id row.leaseOwner now next)

def rescheduleRetry (s : Scheduler) (row : QueueRow) (reason : String) (now : ℤ) (random : ℚ) : Scheduler :=
  let backoff := backoffMillis row.attempt random 1000 300000
  s.fenced row
    (updateWhere (held row) fun r => {r.released (now + backoff) with lastError := some (slice 2048 reason)})
    (.retry row.id row.leaseOwner now backoff)

/-- The fenced DELETE and the insert in one transaction, which may not commit. -/
def deadLetter (s : Scheduler) (row : QueueRow) (reason : String) (now : ℤ) (letterId : String)
    (committed : Bool) : Scheduler :=
  let letter := ⟨letterId,row.jobName,row.payload,row.attempt,slice 2048 reason,row.correlationId,now⟩
  if committed ∧ s.queue.any (held row) ∧ ∀ l ∈ s.deadLetters, l.id ≠ letterId then
    {s with
      queue := deleteWhere (held row) s.queue
      deadLetters := s.deadLetters ++ [letter]
      history := .deadLetter row.id row.leaseOwner letter :: s.history}
  else s

def abandonDrain (s : Scheduler) (row : QueueRow) (now : ℤ) : Scheduler :=
  s.fenced row (updateWhere (held row) (JobRow.released now)) (.abandon row.id row.leaseOwner now)

/-- The execution has made its terminal write, whether it took effect or not. -/
def settle (s : Scheduler) (row : QueueRow) : Scheduler :=
  {s with executions := s.executions.erase row, settled := row :: s.settled}

variable (zones : Zones)

def step (s : Scheduler) : SchedulerCall → Option Scheduler
  | .schedule handlers id jobName payload runAt correlationId =>
    -- `crypto.randomUUID()`
    if ∀ w ∈ s.history, w.id ≠ id then some (s.schedule handlers id jobName payload runAt correlationId) else none
  | .recur handlers id jobName payload cron timezone now correlationId =>
    match nextOccurrence zones cron (timezone.getD "UTC") now with
    | some (some first) =>
      some (s.recur handlers id jobName payload cron (timezone.getD "UTC") now first correlationId)
    | _ => none
  | .cancel id => some (s.cancel id)
  | .claim batchSize now leaseMillis owner skipped =>
    if ∀ w ∈ s.history, w.token ≠ some owner then some (s.claim batchSize now leaseMillis owner skipped) else none
  | .heartbeat row now leaseMillis =>
    if row ∈ s.executions ++ s.settled then some (s.heartbeat row now leaseMillis) else none
  | .settle handlers row exit now random letterId committed =>
    if row ∈ s.executions then
      match runOutcome handlers row exit with
      | .completeSuccess => (completion zones row now).map fun next => (s.completeSuccess row now next).settle row
      | .rescheduleRetry reason => some ((s.rescheduleRetry row reason now random).settle row)
      | .deadLetter reason => some ((s.deadLetter row reason now letterId committed).settle row)
    else none
  | .abandonDrain row now =>
    if row ∈ s.executions ++ s.settled then some (s.abandonDrain row now) else none
  | .stop row => some {s with executions := s.executions.erase row, settled := s.settled.erase row}

/-- Any schedulers and workers over tables that start empty. -/
def runs : System Scheduler SchedulerCall := ⟨init,step zones⟩

end Scheduler

end StructureAi.Jobs

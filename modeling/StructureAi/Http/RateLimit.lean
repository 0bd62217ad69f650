import StructureAi.Foundation.Entries
import StructureAi.Foundation.Run
import StructureAi.Foundation.SlidingWindow

/-! # The in-memory rate limiter

Times are of any type with the operations that the store performs on them: the integers, or the
doubles of a clock that reads fractions. `consume` prunes the hits of its key and decides; the map
around it is swept of stale entries and bounded by evicting the entry that was consumed the longest ago.
-/
namespace StructureAi.Http
open StructureAi.Foundation

/-- `points` allowed per sliding `windowMillis`; once exhausted, the key is blocked for `blockMillis`. -/
structure RateLimitRule (T : Type) where
  points : ℕ
  windowMillis : T
  blockMillis : T

structure RateLimitDecision (T : Type) where
  allowed : Bool
  retryAfterMillis : T
  limit : ℕ
  remaining : ℤ
  resetMillis : T
deriving DecidableEq

structure MemoryEntry (T : Type) where
  hits : List T
  blockedUntil : T
deriving DecidableEq

section Decisions
variable {T : Type} [Zero T] [One T] [NatCast T] [Add T] [Sub T] [LinearOrder T]

def denied (rule : RateLimitRule T) (retryAfterMillis resetMillis : T) : RateLimitDecision T :=
  ⟨false,retryAfterMillis,rule.points,0,resetMillis⟩

/-- Time until the newest hit leaves the window. -/
def windowReset (hits : List T) (rule : RateLimitRule T) (timestamp : T) : T :=
  match hits.getLast? with
  | none => 0
  | some newest => newest + rule.windowMillis - timestamp

/-- Time until every hit left the window and any block lifted. -/
def resetOf (hits : List T) (blockedUntil : T) (rule : RateLimitRule T) (timestamp : T) : T :=
  max (max 0 (windowReset hits rule timestamp)) (blockedUntil - timestamp)

/-- Time until the oldest hit leaves a full window. -/
def untilOldestLeaves (hits : List T) (rule : RateLimitRule T) (timestamp : T) : T :=
  match hits.head? with
  | none => rule.windowMillis
  | some oldest => oldest + rule.windowMillis - timestamp

namespace MemoryEntry

def fresh : MemoryEntry T := ⟨[],0⟩

/-- The entry without the hits that left the window. -/
def inWindow (entry : MemoryEntry T) (rule : RateLimitRule T) (timestamp : T) : MemoryEntry T :=
  {entry with hits := recent rule.windowMillis timestamp entry.hits}

/-- The decision of `consume` on a pruned entry, and the entry it remembers. -/
def consume (rule : RateLimitRule T) (timestamp : T) (entry : MemoryEntry T) : RateLimitDecision T × MemoryEntry T :=
  let ⟨hits,blockedUntil⟩ := entry
  if blockedUntil > timestamp then
    (denied rule (blockedUntil - timestamp) (resetOf hits blockedUntil rule timestamp),entry)
  else if hits.length ≥ rule.points then
    let blockedFromNow := timestamp + rule.blockMillis
    let retryAfterMillis := if rule.blockMillis > 0 then rule.blockMillis else max 1 (untilOldestLeaves hits rule timestamp)
    (denied rule retryAfterMillis (max retryAfterMillis (resetOf hits blockedFromNow rule timestamp)),⟨hits,blockedFromNow⟩)
  else
    (⟨true,0,rule.points,rule.points - (hits.length + 1),rule.windowMillis⟩,⟨hits ++ [timestamp],0⟩)

/-- The decision of `peek` on a pruned entry. -/
def peek (rule : RateLimitRule T) (timestamp : T) (entry : MemoryEntry T) : RateLimitDecision T :=
  let ⟨hits,blockedUntil⟩ := entry
  let resetMillis := resetOf hits blockedUntil rule timestamp
  if blockedUntil > timestamp then denied rule (blockedUntil - timestamp) resetMillis
  else if hits.length ≥ rule.points then
    let retryAfterMillis := max 1 (untilOldestLeaves hits rule timestamp)
    denied rule retryAfterMillis (max retryAfterMillis resetMillis)
  else ⟨true,0,rule.points,rule.points - hits.length,resetMillis⟩

end MemoryEntry

inductive RateLimitOperation
  | consume
  | peek
deriving DecidableEq

/-- A call of a store, with the reading of its clock and the identifier it draws for its hit. -/
structure RateLimitCall (T : Type) where
  operation : RateLimitOperation
  key : String
  now : T
  uuid : String

structure MemoryOptions (T : Type) where
  maxKeys : Option ℕ
  sweepIntervalMillis : Option T

namespace MemoryOptions

def keyCap (options : MemoryOptions T) : ℕ := max 1 (options.maxKeys.getD 100000)

def sweepInterval (options : MemoryOptions T) : T := max 1 (options.sweepIntervalMillis.getD 60000)

end MemoryOptions

/-- The entries, the least recently consumed first, and the bookkeeping of the sweep. -/
structure MemoryStore (T : Type) where
  entries : List (String × MemoryEntry T)
  longestWindow : T
  lastSweep : Option T

namespace MemoryStore

def newStore : MemoryStore T := ⟨[],0,none⟩

/-- Every hit is older than the longest window, and no block runs. -/
def isStale (timestamp horizon : T) (entry : MemoryEntry T) : Bool :=
  entry.blockedUntil ≤ timestamp && entry.hits.all fun hit => hit ≤ horizon

def sweep (timestamp : T) (s : MemoryStore T) : MemoryStore T :=
  {s with
    lastSweep := some timestamp
    entries := s.entries.filter fun e => ¬ isStale timestamp (timestamp - s.longestWindow) e.2}

/-- A sweep is due once its interval elapsed; there was none before the first. -/
def sweepIsDue (options : MemoryOptions T) (timestamp : T) (s : MemoryStore T) : Bool :=
  s.lastSweep.all fun lastSweep => timestamp - lastSweep ≥ options.sweepInterval

/-- Re-inserts the key as the most recent entry, evicting the oldest past the cap. -/
def remember (options : MemoryOptions T) (key : String) (entry : MemoryEntry T) (s : MemoryStore T) : MemoryStore T :=
  let others := s.entries.filter fun e => e.1 ≠ key
  let kept := if others.length = s.entries.length ∧ s.entries.length ≥ options.keyCap then others.tail else others
  {s with entries := kept ++ [(key,entry)]}

def entryOf (s : MemoryStore T) (key : String) : MemoryEntry T := (s.entries.lookup key).getD .fresh

def windowOf (s : MemoryStore T) (key : String) (rule : RateLimitRule T) (timestamp : T) : MemoryEntry T :=
  (s.entryOf key).inWindow rule timestamp

/-- The window is measured, and the stale entries go if it is time. -/
def swept (options : MemoryOptions T) (rule : RateLimitRule T) (timestamp : T) (s : MemoryStore T) : MemoryStore T :=
  let measured := {s with longestWindow := max s.longestWindow rule.windowMillis}
  if measured.sweepIsDue options timestamp then measured.sweep timestamp else measured

def consume (options : MemoryOptions T) (key : String) (rule : RateLimitRule T) (timestamp : T) (s : MemoryStore T) :
    MemoryStore T × RateLimitDecision T :=
  let swept := s.swept options rule timestamp
  let (decision,entry) := (swept.windowOf key rule timestamp).consume rule timestamp
  (swept.remember options key entry,decision)

def peek (key : String) (rule : RateLimitRule T) (timestamp : T) (s : MemoryStore T) : RateLimitDecision T :=
  (s.windowOf key rule timestamp).peek rule timestamp

def perform (options : MemoryOptions T) (rules : String → RateLimitRule T) (s : MemoryStore T) (call : RateLimitCall T) :
    MemoryStore T × RateLimitDecision T :=
  match call.operation with
  | .consume => s.consume options call.key (rules call.key) call.now
  | .peek => (s,s.peek call.key (rules call.key) call.now)

end MemoryStore

/-- `makeInMemoryStore`. -/
def memoryLimiter (options : MemoryOptions T) (rules : String → RateLimitRule T) :
    Machine (MemoryStore T) (RateLimitCall T) (RateLimitDecision T) := ⟨MemoryStore.newStore,MemoryStore.perform options rules⟩

end Decisions
end StructureAi.Http

import StructureAi.Http.RateLimit

/-! # The Redis rate limiter

The commands that the scripts use, on a keyspace whose keys may have a deadline, and the two
scripts over them. A sorted set is kept by score and then by member; a string holds a number.
-/
namespace StructureAi.Http
open StructureAi.Foundation

inductive RedisValue
  | zset (members : List (ℤ × String))
  | number (n : ℤ)
deriving DecidableEq

structure RedisSlot where
  value : RedisValue
  expireAt : Option ℤ
deriving DecidableEq

abbrev Keyspace := String → Option RedisSlot

/-- Which keys are gone: those past their deadline, and at the deadline itself either. -/
structure Expiry where
  gone : ℤ → ℤ → Bool
  live : ∀ deadline now, now < deadline → gone deadline now = false
  past : ∀ deadline now, deadline < now → gone deadline now = true

inductive RedisFault
  | wrongType
  | invalidExpireTime
deriving DecidableEq

/-- A script: no other command runs before it is done. -/
abbrev RedisScript := StateT Keyspace (Except RedisFault)

/-- Inserted after every lower score, and among equal scores by its member. -/
def insertMember (e : ℤ × String) : List (ℤ × String) → List (ℤ × String)
  | [] => [e]
  | x :: xs => if e.1 < x.1 ∨ e.1 = x.1 ∧ e.2 < x.2 then e :: x :: xs else x :: insertMember e xs

namespace RedisScript
variable (expiry : Expiry) (now : ℤ)

def slot (db : Keyspace) (key : String) : Option RedisSlot :=
  (db key).filter fun slot => !slot.expireAt.any fun deadline => expiry.gone deadline now

/-- The members of a sorted set, and its deadline; no key is an empty one. -/
def members (key : String) : RedisScript (List (ℤ × String) × Option ℤ) := fun db =>
  match slot expiry now db key with
  | none => .ok (([],none),db)
  | some ⟨.zset members,expireAt⟩ => .ok ((members,expireAt),db)
  | some ⟨.number _,_⟩ => .error .wrongType

def store (key : String) (members : List (ℤ × String)) (expireAt : Option ℤ) : RedisScript Unit := fun db =>
  .ok ((),Function.update db key (if members = [] then none else some ⟨.zset members,expireAt⟩))

def zremrangebyscore (key : String) (low high : ℤ) : RedisScript Unit := do
  let (members,expireAt) ← members expiry now key
  store key (members.filter fun e => ¬ (low ≤ e.1 ∧ e.1 ≤ high)) expireAt

def zcard (key : String) : RedisScript ℕ := do
  let (members,_) ← members expiry now key
  return members.length

/-- `ZRANGE key 0 0 WITHSCORES`. -/
def zrangeFirst (key : String) : RedisScript (Option ℤ) := do
  let (members,_) ← members expiry now key
  return (members.map Prod.fst).head?

/-- `ZRANGE key -1 -1 WITHSCORES`. -/
def zrangeLast (key : String) : RedisScript (Option ℤ) := do
  let (members,_) ← members expiry now key
  return (members.map Prod.fst).getLast?

def zadd (key : String) (score : ℤ) (member : String) : RedisScript Unit := do
  let (members,expireAt) ← members expiry now key
  store key (insertMember (score,member) (members.filter fun e => e.2 ≠ member)) expireAt

def pexpire (key : String) (millis : ℤ) : RedisScript Unit := fun db =>
  match slot expiry now db key with
  | none => .ok ((),db)
  | some slot => .ok ((),Function.update db key (if millis ≤ 0 then none else some {slot with expireAt := some (now + millis)}))

def get (key : String) : RedisScript (Option ℤ) := fun db =>
  match slot expiry now db key with
  | none => .ok (none,db)
  | some ⟨.number n,_⟩ => .ok (some n,db)
  | some ⟨.zset _,_⟩ => .error .wrongType

/-- `SET key value PX millis`. -/
def setPx (key : String) (value millis : ℤ) : RedisScript Unit := fun db =>
  if millis ≤ 0 then .error .invalidExpireTime
  else .ok ((),Function.update db key (some ⟨.number value,some (now + millis)⟩))

/-- `CONSUME_SCRIPT`. -/
def consumeScript (windowKey blockKey : String) (points window block : ℤ) (member : String) : RedisScript (List ℤ) := do
  zremrangebyscore expiry now windowKey 0 (now - window)
  let used ← zcard expiry now windowKey
  let newest ← zrangeLast expiry now windowKey
  let windowReset := newest.elim 0 fun score => score + window - now
  let blockedUntil := (← get expiry now blockKey).getD 0
  if blockedUntil > now then
    let retry := blockedUntil - now
    return [0,retry,0,max retry windowReset]
  else if used ≥ points then
    let oldest ← zrangeFirst expiry now windowKey
    let untilOldestLeaves := oldest.elim window fun score => score + window - now
    if block > 0 then
      setPx now blockKey (now + block) block
      let retry := block
      return [0,retry,0,max retry windowReset]
    else
      let retry := max 1 untilOldestLeaves
      return [0,retry,0,max retry windowReset]
  else
    zadd expiry now windowKey now member
    pexpire expiry now windowKey window
    return [1,0,points - used - 1,window]

/-- `PEEK_SCRIPT`. -/
def peekScript (windowKey blockKey : String) (points window : ℤ) : RedisScript (List ℤ) := do
  zremrangebyscore expiry now windowKey 0 (now - window)
  let used ← zcard expiry now windowKey
  let newest ← zrangeLast expiry now windowKey
  let windowReset := newest.elim 0 fun score => score + window - now
  let blockedUntil := (← get expiry now blockKey).getD 0
  if blockedUntil > now then
    let retry := blockedUntil - now
    return [0,retry,0,max retry windowReset]
  else if used ≥ points then
    let oldest ← zrangeFirst expiry now windowKey
    let retry := max 1 (oldest.elim window fun score => score + window - now)
    return [0,retry,0,max retry windowReset]
  else
    return [1,0,points - used,windowReset]

end RedisScript

inductive RedisStoreError
  | fault (fault : RedisFault)
  | unexpectedEvalReply
deriving DecidableEq

/-- `decode`. -/
def decodeReply (rule : RateLimitRule ℤ) : List ℤ → Except RedisStoreError (RateLimitDecision ℤ)
  | [allowed,retryAfterMillis,remaining,resetMillis] =>
    .ok ⟨allowed = 1,retryAfterMillis,rule.points,remaining,resetMillis⟩
  | _ => .error .unexpectedEvalReply

section Store
variable (keyPrefix : Option String)

def windowKeyOf (key : String) : String := keyPrefix.getD "rl" ++ ":w:" ++ key

def blockKeyOf (key : String) : String := keyPrefix.getD "rl" ++ ":b:" ++ key

/-- The member that a consume adds for its hit. -/
def RateLimitCall.member (call : RateLimitCall ℤ) : String := toString call.now ++ "-" ++ call.uuid

def redisScript (expiry : Expiry) (rule : RateLimitRule ℤ) (call : RateLimitCall ℤ) : RedisScript (List ℤ) :=
  match call.operation with
  | .consume => RedisScript.consumeScript expiry call.now (windowKeyOf keyPrefix call.key) (blockKeyOf keyPrefix call.key)
    rule.points rule.windowMillis rule.blockMillis call.member
  | .peek => RedisScript.peekScript expiry call.now (windowKeyOf keyPrefix call.key) (blockKeyOf keyPrefix call.key)
    rule.points rule.windowMillis

/-- One call: its script, run at the time of the call, and its reply decoded. -/
def redisPerform (expiry : Expiry) (rules : String → RateLimitRule ℤ) (db : Keyspace) (call : RateLimitCall ℤ) :
    Keyspace × Except RedisStoreError (RateLimitDecision ℤ) :=
  match redisScript keyPrefix expiry (rules call.key) call db with
  | .error fault => (db,.error (.fault fault))
  | .ok (reply,db) => (db,decodeReply (rules call.key) reply)

/-- `makeRedisStore`, over an empty server. -/
def redisLimiter (expiry : Expiry) (rules : String → RateLimitRule ℤ) :
    Machine Keyspace (RateLimitCall ℤ) (Except RedisStoreError (RateLimitDecision ℤ)) :=
  ⟨fun _ => none,redisPerform keyPrefix expiry rules⟩

end Store
end StructureAi.Http

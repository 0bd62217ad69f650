import StructureAi.Auth.OAuthServer
import StructureAi.Foundation.Keyed

/-! # The in-memory store, and the world a server runs in

The maps of the store join the parts of a key with a NUL character. The world adds the
clock, the source of random tokens, the signing keys, the signatures made so far and the
trace of what was performed.
-/
namespace StructureAi.Auth
open StructureAi.Foundation

section Keys

def scopedKey (tenantId value : String) : String := tenantId ++ "\x00" ++ value

def OAuthClientRecord.key (record : OAuthClientRecord) : String := scopedKey record.tenantId record.clientId

def AuthorizationCodeRecord.key (record : AuthorizationCodeRecord) : String := scopedKey record.tenantId record.codeHash

def ConsentRecord.key (record : ConsentRecord) : String :=
  scopedKey record.tenantId (record.clientId ++ "\x00" ++ record.userId)

def OAuthTokenRecord.key (record : OAuthTokenRecord) : String := scopedKey record.tenantId record.tokenId

end Keys

/-- The state of `inMemoryOAuthServerStore`. -/
structure OAuthStore where
  clients : Records OAuthClientRecord.key
  codes : Records AuthorizationCodeRecord.key
  consents : Records ConsentRecord.key
  tokens : Records OAuthTokenRecord.key

namespace OAuthStore

def empty : OAuthStore := ⟨.empty,.empty,.empty,.empty⟩

/-- `revokedAt: now`. -/
def revoked (now : ℤ) (token : OAuthTokenRecord) : OAuthTokenRecord := {token with revokedAt := some now}

def sweeps (tenantId familyId : String) (token : OAuthTokenRecord) : Bool :=
  token.tenantId = tenantId && token.familyId = some familyId && token.revokedAt = none

def perform : (op : StoreOp) → OAuthStore → Except AuthError op.Answer × OAuthStore
  | .putClient record,s => (.ok (),{s with clients := s.clients.set record})
  | .findClient tenantId clientId,s => (.ok (s.clients.get (scopedKey tenantId clientId)),s)
  | .putAuthorizationCode record,s => (.ok (),{s with codes := s.codes.set record})
  | .consumeAuthorizationCode tenantId codeHash now,s =>
    match s.codes.get (scopedKey tenantId codeHash) with
    | none => (.ok none,s)
    | some record =>
      if record.consumedAt.isSome ∨ record.expiresAt ≤ now then (.ok none,s)
      else (.ok (some record),{s with codes := s.codes.set {record with consumedAt := some now}})
  | .findConsent tenantId clientId userId,s =>
    (.ok (s.consents.get (scopedKey tenantId (clientId ++ "\x00" ++ userId))),s)
  | .putConsent record,s => (.ok (),{s with consents := s.consents.set record})
  | .putToken record,s => (.ok (),{s with tokens := s.tokens.set record})
  | .findTokenByHash tenantId tokenHash,s =>
    (.ok (s.tokens.rows.find? fun token => token.tenantId = tenantId && token.tokenHash = some tokenHash),s)
  | .findTokenById tenantId tokenId,s => (.ok (s.tokens.get (scopedKey tenantId tokenId)),s)
  | .revokeToken tenantId tokenId now,s =>
    match s.tokens.get (scopedKey tenantId tokenId) with
    | none => (.ok (),s)
    | some current => (.ok (),{s with tokens := s.tokens.set (revoked now current)})
  | .rotateToken tenantId tokenId now,s =>
    match s.tokens.get (scopedKey tenantId tokenId) with
    | none => (.ok false,s)
    | some current =>
      if current.revokedAt.isSome then (.ok false,s)
      else (.ok true,{s with tokens := s.tokens.set {revoked now current with rotatedAt := some now}})
  | .revokeFamily tenantId familyId now,s =>
    (.ok ((s.tokens.rows.filter (sweeps tenantId familyId)).length),
      {s with tokens := s.tokens.modify (sweeps tenantId familyId) (revoked now) fun _ => rfl})

end OAuthStore

section World

/-- An operation a call performed, and its reply. -/
structure Event where
  call : Call
  op : OAuthOp
  reply : op.Reply

/-- The clock by the number of its reading, random tokens by the place and the number of the
drawing, and the signature made with a key over an input. -/
structure Environment where
  clock : ℕ → ℤ
  randomToken : ℕ → ℕ → ℕ → String
  signature : SigningKey → String → List UInt8

structure World (S : Type) where
  store : S
  ticks : ℕ
  draws : ℕ → ℕ
  keys : SigningKeys
  signatures : List (ℕ × String × List UInt8)
  trace : List Event

variable {S : Type} (perform : (op : StoreOp) → S → Except AuthError op.Answer × S) (env : Environment)

def World.answer (place : ℕ) : (op : OAuthOp) → World S → op.Reply × World S
  | .store op,w => ((perform op w.store).1,{w with store := (perform op w.store).2})
  | .now,w => (env.clock w.ticks,{w with ticks := w.ticks + 1})
  | .randomToken byteLength,w =>
    (env.randomToken place (w.draws place) byteLength,
      {w with draws := Function.update w.draws place (w.draws place + 1)})
  | .signingKeys,w => (w.keys,w)
  | .sign key input,w =>
    (env.signature key input,{w with signatures := (key.pair,input,env.signature key input) :: w.signatures})
  | .verify key input signature,w => (decide ((key.pair,input,signature) ∈ w.signatures),w)
  | .audit _,w => ((),w)

def World.handle (place : ℕ) (call : Call) : Program.Handler OAuthOp OAuthOp.Reply (World S) := fun op w =>
  let (reply,w') := World.answer perform env place op w
  (reply,{w' with trace := ⟨call,op,reply⟩ :: w'.trace})

/-- The server over a store; the environment rotates the signing keys. -/
def oauthService (o : ServerOptions) :
    Service OAuthOp OAuthOp.Reply Call (Except AuthError Answer) (World S) SigningKeys where
  program call := (serve o call).run
  handle := World.handle perform env
  outside keys w := {w with keys}

def World.call (o : ServerOptions) (call : Call) (w : World S) : Except AuthError Answer × World S :=
  (serve o call).run.run (World.handle perform env 0 call) w

end World

namespace Server
variable {α β W : Type} {h : Program.Handler OAuthOp OAuthOp.Reply W} {w : W}

def exec (h : Program.Handler OAuthOp OAuthOp.Reply W) (x : Server α) (w : W) : Except AuthError α × W :=
  x.run.run h w

@[simp] theorem exec_pure (a : α) : exec h (pure a : Server α) w = (.ok a,w) := rfl

@[simp] theorem exec_throw (e : AuthError) : exec h (throw e : Server α) w = (.error e,w) := rfl

@[simp] theorem exec_ofExcept (x : Except AuthError α) : exec h (ofExcept x) w = (x,w) := rfl

@[simp] theorem exec_perform (op : OAuthOp) : exec h (perform op) w = (.ok (h op w).1,(h op w).2) := rfl

@[simp] theorem exec_store (op : StoreOp) : exec h (store op) w = h (OAuthOp.store op) w := rfl

@[simp] theorem exec_now : exec h now w = (.ok (h .now w).1,(h .now w).2) := rfl

theorem exec_bind (x : Server α) (f : α → Server β) : exec h (x >>= f) w =
    match exec h x w with
    | (.ok a,w') => exec h (f a) w'
    | (.error e,w') => (.error e,w') := by
  unfold exec
  rw [ExceptT.run_bind,Program.run_bind]
  cases hx : Program.run h x.run w with
  | mk r w' =>
    cases r with
    | ok a => rfl
    | error e => rfl

theorem exec_bind_ok {x : Server α} {f : α → Server β} {a : α} {w' : W} (hx : exec h x w = (.ok a,w')) :
    exec h (x >>= f) w = exec h (f a) w' := by
  rw [exec_bind,hx]

theorem exec_map (f : α → β) (x : Server α) :
    exec h (f <$> x) w = ((exec h x w).1.map f,(exec h x w).2) := by
  rw [map_eq_pure_bind,exec_bind]
  cases hx : exec h x w with
  | mk r w' =>
    cases r with
    | ok a => rfl
    | error e => rfl

theorem exec_tryCatch (x : Server α) (f : AuthError → Server α) : exec h (tryCatch x f) w =
    match exec h x w with
    | (.ok a,w') => (.ok a,w')
    | (.error e,w') => exec h (f e) w' := by
  change Program.run h (x.run >>= _) w = _
  rw [Program.run_bind]
  cases hx : exec h x w with
  | mk r w' =>
    rw [exec] at hx
    rw [hx]
    cases r with
    | ok a => rfl
    | error e => rfl

end Server

end StructureAi.Auth

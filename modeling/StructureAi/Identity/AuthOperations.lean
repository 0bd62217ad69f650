import StructureAi.Foundation.Bytes
import StructureAi.Foundation.History
import StructureAi.Foundation.Text
import StructureAi.Identity.AuthStore

/-! # What the services of identity ask for

Errors, the configuration of a tenant, and the operations of a call: on the store, one step
each, and to what lies around the service, which may answer anything. Hashing is a function of
the platform.
-/
namespace StructureAi.Identity
open StructureAi.Foundation

section Errors

inductive AuthServiceError where
  | accountLinkDenied (provider : String) (reason : Option String)
  | authDependencyError (dependency operation : String)
  | authStoreError (operation : String)
  | authValidationError (field reason : String)
  | emailNotVerified (userId : String)
  | identityConflict (conflict : IdentityConflict)
  | invalidAuthToken (purpose : String)
  | invalidCredentials (reason : String)
  | secondFactorRequired (userId : String)
  | rateLimitExceeded (action : String) (retryAfterSeconds : Option ℤ)
  | unsupportedPasskey (reason : String)
  /-- An exception that the code does not catch. -/
  | defect (operation : String)
deriving DecidableEq

inductive AuthAction where
  | passwordRegister | emailVerify | passwordSignIn | passwordResetRequest | passwordResetComplete | passwordChange
  | magicLinkRequest | magicLinkConsume | oauthStart | oauthComplete
  | passkeyRegister | passkeyRename | passkeyRemove | passkeyAuthenticate
  | totpEnroll | totpConfirm | totpVerify | totpUnenroll
  | sessionSignOut | sessionsRevoked | totpLocked | totpReset | oauthUnlink
deriving DecidableEq

structure AuthAuditEvent where
  tenantId : String
  action : AuthAction
  userId : Option String
  provider : Option String
  actor : Option String
deriving DecidableEq

structure RateLimitRequest where
  tenantId : String
  action : AuthAction
  keyHash : String
deriving DecidableEq

end Errors

section Configuration

structure AuthLinks where
  emailVerification : Option String
  magicLink : Option String
  passwordReset : Option String
deriving DecidableEq

structure TokenTtls where
  emailVerificationTtlMillis : Option ℤ
  magicLinkTtlMillis : Option ℤ
  passwordResetTtlMillis : Option ℤ
  oauthStateTtlMillis : Option ℤ
  passkeyChallengeTtlMillis : Option ℤ
deriving DecidableEq

structure PasskeyTenantConfig where
  rpId : String
  rpName : String
  origins : List String
  requireUserVerification : Option Bool
deriving DecidableEq

/-- A URL, as far as the services read one. -/
structure Url where
  href : String
  origin : String
deriving DecidableEq

structure TenantAuthConfig where
  baseUrl : Url
  links : AuthLinks
  minLength : Option ℕ
  maxLength : Option ℕ
  sessionTtlMillis : Option ℤ
  tokens : TokenTtls
  passkey : Option PasskeyTenantConfig
deriving DecidableEq

structure AuthEmail where
  kind : OneTimeTokenPurpose
  tenantId : String
  recipient : String
  url : String
  token : String
  expiresAt : ℤ
deriving DecidableEq

structure OAuthProfile where
  subject : String
  email : Option String
  emailVerified : Bool
  displayName : Option String
deriving DecidableEq

structure OAuthProvider where
  id : String
  clientId : String
  clientSecret : String
  authorizationEndpoint : String
  tokenEndpoint : String
  scopes : List String
deriving DecidableEq

structure AccountLinkRequest where
  tenantId : String
  provider : String
  providerSubject : String
  profile : OAuthProfile
  existingUserId : String
  requestedByUserId : Option String
deriving DecidableEq

structure IdentityProvisionRequest where
  tenantId : String
  provider : String
  subject : String
  email : Option String
deriving DecidableEq

structure PasskeyRegistrationResponse where
  credentialId : String
  clientDataJSON : String
  attestationObject : String
  transports : Option (List String)
deriving DecidableEq

structure VerifiedPasskeyRegistration where
  challenge : String
  credentialId : String
  publicKey : String
  algorithm : PasskeyAlgorithm
  counter : ℕ
  transports : List String
  aaguid : Option String
deriving DecidableEq

/-- A key that was imported, by its algorithm and its bytes. -/
structure ParsedCoseKey where
  algorithm : PasskeyAlgorithm
  key : List UInt8
deriving DecidableEq

end Configuration

section Operations

/-- What a call asks of all but the store. -/
inductive AuthQuery where
  | now
  | randomBytes (bytes : ℕ)
  | configFor (tenantId : String)
  | check (request : RateLimitRequest)
  | peek (request : RateLimitRequest)
  | hashPassword (password : String)
  | verifyPassword (password encodedHash : String)
  | send (email : AuthEmail)
  | isEnrolled (tenantId userId : String)
  | resolveProvider (tenantId provider : String) (config : TenantAuthConfig)
  | exchangeOAuthCode (provider : OAuthProvider) (code codeVerifier redirectUri : String)
  | authorizeLink (request : AccountLinkRequest)
  | allowProvisioning (request : IdentityProvisionRequest)
  | verifyPasskeyRegistration (config : PasskeyTenantConfig) (input : PasskeyRegistrationResponse)
  | importCoseKey (encoded : List UInt8)
  | verifySignature (cose : ParsedCoseKey) (signature signed : List UInt8)
  | record (event : AuthAuditEvent)
deriving DecidableEq

abbrev AuthQuery.Reply : AuthQuery → Type
  | now => ℤ
  | randomBytes bytes => {buffer : List UInt8 // buffer.length = bytes}
  | configFor _ => Except AuthServiceError TenantAuthConfig
  | check _ => Except AuthServiceError Unit
  | peek _ => Except AuthServiceError Unit
  | hashPassword _ => Except AuthServiceError String
  | verifyPassword _ _ => Except AuthServiceError Bool
  | send _ => Except AuthServiceError Unit
  | isEnrolled _ _ => Except AuthServiceError Bool
  | resolveProvider _ _ _ => Except AuthServiceError (Option OAuthProvider)
  | exchangeOAuthCode _ _ _ _ => Except AuthServiceError OAuthProfile
  | authorizeLink _ => Except AuthServiceError Bool
  | allowProvisioning _ => Bool
  | verifyPasskeyRegistration _ _ => Except AuthServiceError VerifiedPasskeyRegistration
  | importCoseKey _ => Except AuthServiceError ParsedCoseKey
  | verifySignature _ _ _ => Except AuthServiceError Bool
  | record _ => Unit

inductive AuthOp where
  | store (op : StoreOp)
  | query (q : AuthQuery)

abbrev AuthOp.Reply : AuthOp → Type
  | store op => Except IdentityConflict op.Answer
  | query q => q.Reply

abbrev AuthProgram (α : Type) := ExceptT AuthServiceError (Program AuthOp AuthOp.Reply) α

namespace AuthProgram

def fromExcept {α : Type} (x : Except AuthServiceError α) : AuthProgram α := ExceptT.mk (pure x)

/-- An operation on the store, and a conflict as its answer. -/
def attempt (op : StoreOp) : AuthProgram (Except IdentityConflict op.Answer) := ExceptT.lift (Program.perform (AuthOp.store op))

def store (op : StoreOp) : AuthProgram op.Answer := do
  match ← attempt op with
  | .ok answer => return answer
  | .error conflict => throw (.identityConflict conflict)

def query (q : AuthQuery) : AuthProgram q.Reply := ExceptT.lift (Program.perform (AuthOp.query q))

def now : AuthProgram ℤ := query .now

/-- `randomToken(byteLength)`. -/
def randomToken (byteLength : ℕ) : AuthProgram String := do
  let buffer ← query (.randomBytes byteLength)
  return encodeBase64Url buffer.1

def configFor (tenantId : String) : AuthProgram TenantAuthConfig := do fromExcept (← query (.configFor tenantId))

end AuthProgram

/-- What the runtime provides: SHA-256, `toLowerCase`, `new URL(reference, base)` and `searchParams.set`. -/
structure Platform where
  sha256 : List UInt8 → List UInt8
  toLowerCase : List Char → List Char
  /-- No character has NUL as its lower case. -/
  lowers_nul : ∀ cs, '\x00' ∉ cs → '\x00' ∉ toLowerCase cs
  newUrl : String → Option Url → Option Url
  setParameters : Url → List (String × String) → Url

def Platform.hashToken (p : Platform) (token : String) : String := encodeBase64Url (p.sha256 (encodeUtf8 token.toList))

theorem Platform.not_mem_hashToken (p : Platform) (token : String) : '\x00' ∉ (p.hashToken token).toList :=
  (not_mem_encodeBase64Url _).2

end Operations
end StructureAi.Identity

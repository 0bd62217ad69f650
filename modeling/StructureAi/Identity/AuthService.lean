import StructureAi.Foundation.Percent
import StructureAi.Identity.Webauthn

/-! # The auth service

`makeAuth`: accounts with passwords, emailed tokens, external identities and passkeys, and the
sessions they open. A session of a user with a second factor waits for it. Every call is one
program over the store and the queries.
-/
namespace StructureAi.Identity
open StructureAi.Foundation

/-- What the service is made with, beside the store and the ports behind the queries. -/
structure MakeAuthOptions where
  platform : Platform
  /-- The rate limiter has `peek`. -/
  peeks : Bool
  /-- `identityProvisioning` is given. -/
  gatesProvisioning : Bool
  /-- `secondFactor` is given. -/
  secondFactor : Bool

structure AuthSession where
  token : String
  user : AuthUser
  expiresAt : ℤ
deriving DecidableEq

structure PasskeyRegistrationOptions where
  challenge : String
  rpId : String
  rpName : String
  userHandle : String
  userName : String
  userDisplayName : String
  pubKeyCredParams : List ℤ
  timeout : ℤ
  userVerificationRequired : Bool
  excludeCredentials : List (String × List String)
deriving DecidableEq

structure PasskeyAuthenticationOptions where
  challenge : String
  rpId : String
  timeout : ℤ
  userVerificationRequired : Bool
  allowCredentials : Option (List (String × List String))
deriving DecidableEq

namespace AuthService
open AuthProgram

section Validation

def DEFAULT_SESSION_TTL : ℤ := 30 * 24 * 60 * 60 * 1000

def DEFAULT_VERIFY_TTL : ℤ := 24 * 60 * 60 * 1000

def DEFAULT_MAGIC_TTL : ℤ := 15 * 60 * 1000

def DEFAULT_RESET_TTL : ℤ := 60 * 60 * 1000

/-- `lastIndexOf`, of a unit that occurs. -/
def lastIndexOf (units : List ℕ) (unit : ℕ) : ℕ := units.length - 1 - units.reverse.idxOf unit

def hasAsciiControlOrSpace (email : List Char) : Bool := email.any fun c => c.toNat ≤ 32 || c.toNat = 127

def normalizeEmail (platform : Platform) (value : String) : Except AuthServiceError String :=
  let email := platform.toLowerCase (trim value.toList)
  let units := codeUnits (String.ofList email)
  match units.idxOf? '@'.toNat with
  | none => .error (.authValidationError "email" "must be valid")
  | some at_ =>
    if units.length > 320 ∨ at_ = 0 ∨ at_ ≠ lastIndexOf units '@'.toNat ∨ at_ > 64 ∨ units.length - at_ - 1 > 255 ∨
        at_ = units.length - 1 ∨ hasAsciiControlOrSpace email then
      .error (.authValidationError "email" "must be valid")
    else .ok (String.ofList email)

def providerFailure (operation : String) : AuthServiceError := .authDependencyError "oauth-provider" operation

def validateProfileEmail (platform : Platform) : Option String → Except AuthServiceError (Option String)
  | none => .ok none
  | some email => match normalizeEmail platform email with
    | .error _ => .error (providerFailure "validate-profile-email")
    | .ok email => .ok (some email)

def validateOAuthProfile (platform : Platform) (profile : OAuthProfile) : Except AuthServiceError OAuthProfile :=
  if profile.subject = "" ∨ (codeUnits profile.subject).length > 1024 ∨
      String.ofList (trim profile.subject.toList) ≠ profile.subject ∨ '\x00' ∈ profile.subject.toList then
    .error (providerFailure "validate-profile-subject")
  else do
    let email ← validateProfileEmail platform profile.email
    if profile.displayName.any fun name => (codeUnits name).length > 512 || name.toList.contains '\x00' then
      throw (providerFailure "validate-profile-display-name")
    return { profile with email, emailVerified := email.isSome && profile.emailVerified }

def validatePassword (password : String) (config : TenantAuthConfig) : Except AuthServiceError Unit :=
  let min := config.minLength.getD 12
  let max := config.maxLength.getD 256
  if (codeUnits password).length < min then
    .error (.authValidationError "password" ("must contain at least " ++ toString min ++ " characters"))
  else if (codeUnits password).length > max then
    .error (.authValidationError "password" ("must contain at most " ++ toString max ++ " characters"))
  else .ok ()

end Validation

variable (o : MakeAuthOptions)

section Helpers

def limit (tenantId : String) (action : AuthAction) (key : String) : AuthProgram Unit := do
  fromExcept (← query (.check ⟨tenantId,action,o.platform.hashToken key⟩))

def limitAny (tenantId : String) (action : AuthAction) : Option String → AuthProgram Unit
  | none => pure ()
  | some key => limit o tenantId action key

/-- `failureWall(tenantId, action, key).before`. -/
def wallBefore (tenantId : String) (action : AuthAction) (key : String) : AuthProgram Unit :=
  if o.peeks then do fromExcept (← query (.peek ⟨tenantId,action,o.platform.hashToken key⟩))
  else limit o tenantId action key

/-- `failureWall(tenantId, action, key).onFailure`. -/
def wallOnFailure (tenantId : String) (action : AuthAction) (key : String) : AuthProgram Unit :=
  if o.peeks then limit o tenantId action key else pure ()

def recordAudit (tenantId : String) (action : AuthAction) (userId provider : Option String) : AuthProgram Unit :=
  query (.record ⟨tenantId,action,userId,provider,none⟩)

def auditIf (done : Bool) (tenantId : String) (action : AuthAction) (userId : String) : AuthProgram Unit :=
  if done then recordAudit tenantId action (some userId) none else pure ()

def isPending (tenantId userId : String) : AuthProgram Bool :=
  if o.secondFactor then do fromExcept (← query (.isEnrolled tenantId userId)) else pure false

def createSession (tenantId : String) (user : AuthUser) (config : TenantAuthConfig) : AuthProgram AuthSession := do
  let raw ← randomToken 32
  let now ← now
  let expiresAt := now + config.sessionTtlMillis.getD DEFAULT_SESSION_TTL
  let pendingSecondFactor ← isPending o tenantId user.id
  let id ← randomToken 18
  store (.createSession
    { id, tenantId, userId := user.id, tokenHash := o.platform.hashToken raw, createdAt := now, expiresAt
      elevatedAt := if pendingSecondFactor then none else some now })
  return ⟨raw,user,expiresAt⟩

def ttlOf (config : TenantAuthConfig) : OneTimeTokenPurpose → ℤ
  | .emailVerification => config.tokens.emailVerificationTtlMillis.getD DEFAULT_VERIFY_TTL
  | .magicLink => config.tokens.magicLinkTtlMillis.getD DEFAULT_MAGIC_TTL
  | .passwordReset => config.tokens.passwordResetTtlMillis.getD DEFAULT_RESET_TTL

def pathOf (config : TenantAuthConfig) : OneTimeTokenPurpose → String
  | .emailVerification => config.links.emailVerification.getD "/auth/verify-email"
  | .magicLink => config.links.magicLink.getD "/auth/magic-link"
  | .passwordReset => config.links.passwordReset.getD "/auth/reset-password"

/-- The mail with the link that carries a token. -/
def sendToken (tenantId : String) (config : TenantAuthConfig) (purpose : OneTimeTokenPurpose) (email raw : String)
    (expiresAt : ℤ) : AuthProgram Unit :=
  match o.platform.newUrl (pathOf config purpose) (some config.baseUrl) with
  | none => throw (.defect "new URL")
  | some url => do
    let url := (o.platform.setParameters url [("token",raw)]).href
    fromExcept (← query (.send ⟨purpose,tenantId,email,url,raw,expiresAt⟩))

def issueEmailToken (tenantId : String) (config : TenantAuthConfig) (purpose : OneTimeTokenPurpose) (email : String)
    (userId : Option String) : AuthProgram Unit := do
  let raw ← randomToken 32
  let now ← now
  let expiresAt := now + ttlOf config purpose
  store (.putOneTimeToken { tenantId, purpose, tokenHash := o.platform.hashToken raw, email, userId, expiresAt })
  sendToken o tenantId config purpose email raw expiresAt

def consumeToken (tenantId : String) (purpose : OneTimeTokenPurpose) (token : String) : AuthProgram OneTimeTokenRecord := do
  let now ← now
  match ← store (.consumeOneTimeToken tenantId purpose (o.platform.hashToken token) now) with
  | none => throw (.invalidAuthToken purpose.text)
  | some record => return record

def resolveSession (tenantId token : String) : AuthProgram (AuthSession × Option ℤ) := do
  let now ← now
  match ← store (.findSession tenantId (o.platform.hashToken token) now) with
  | none => throw (.invalidCredentials "session")
  | some record =>
    match ← store (.findUserById tenantId record.userId) with
    | none => throw (.invalidCredentials "session-user")
    | some user => return (⟨token,user,record.expiresAt⟩,record.elevatedAt)

def getSession (tenantId token : String) : AuthProgram AuthSession := do
  let resolved ← resolveSession o tenantId token
  return resolved.1

def requireElevatedSession (tenantId token : String) : AuthProgram AuthSession := do
  let resolved ← resolveSession o tenantId token
  if o.secondFactor ∧ resolved.2 = none then throw (.secondFactorRequired resolved.1.user.id)
  else return resolved.1

end Helpers

section Passwords

def registerPassword (tenantId email password : String) (displayName : Option String) : AuthProgram AuthUser := do
  let config ← configFor tenantId
  let email ← fromExcept (normalizeEmail o.platform email)
  limit o tenantId .passwordRegister email
  fromExcept (validatePassword password config)
  let passwordHash ← fromExcept (← query (.hashPassword password))
  let now ← now
  let id ← randomToken 18
  let user : AuthUser :=
    { id, tenantId, email := some email, emailVerified := false, displayName, createdAt := now, updatedAt := now }
  store (.createPasswordUser user { tenantId, userId := id, email, passwordHash, updatedAt := now })
  issueEmailToken o tenantId config .emailVerification email (some id)
  recordAudit tenantId .passwordRegister (some id) none
  return user

def requestEmailVerification (tenantId inputEmail : String) : AuthProgram Unit := do
  let config ← configFor tenantId
  let email ← fromExcept (normalizeEmail o.platform inputEmail)
  limit o tenantId .emailVerify email
  match ← store (.findUserByEmail tenantId email) with
  | none => pure ()
  | some user =>
    if user.emailVerified then pure ()
    else issueEmailToken o tenantId config .emailVerification email (some user.id)

def verifyEmail (tenantId token : String) : AuthProgram AuthUser := do
  let _ ← configFor tenantId
  limit o tenantId .emailVerify token
  let record ← consumeToken o tenantId .emailVerification token
  match record.userId with
  | none => throw (.invalidAuthToken "email-verification")
  | some userId =>
    let now ← now
    match ← store (.setEmailVerified tenantId userId now) with
    | none => throw (.invalidAuthToken "email-verification")
    | some user =>
      recordAudit tenantId .emailVerify (some user.id) none
      return user

def signInWalls (email : String) : Option String → List String
  | none => [email]
  | some subject => [email ++ "\x00" ++ subject,subject]

def charge (tenantId : String) (walls : List String) : AuthProgram Unit :=
  walls.forM (wallOnFailure o tenantId .passwordSignIn)

def refused {α : Type} (tenantId : String) (walls : List String) (reason : String) : AuthProgram α := do
  charge o tenantId walls
  throw (.invalidCredentials reason)

/-- The credential and the user whose password matches. -/
def matchPassword (tenantId email password : String) (walls : List String) : AuthProgram AuthUser := do
  match ← store (.findPassword tenantId email) with
  | none =>
    let _ ← fromExcept (← query (.hashPassword "structure-auth-dummy-password"))
    refused o tenantId walls "password"
  | some credential =>
    let matches_ ← fromExcept (← query (.verifyPassword password credential.passwordHash))
    if ¬ matches_ then refused o tenantId walls "password"
    else
      match ← store (.findUserById tenantId credential.userId) with
      | none => refused o tenantId walls "password-user"
      | some user => return user

def signInPassword (tenantId inputEmail password : String) (caller : Option String) : AuthProgram AuthSession := do
  let config ← configFor tenantId
  let email ← fromExcept (normalizeEmail o.platform inputEmail)
  let walls := signInWalls email caller
  walls.forM (wallBefore o tenantId .passwordSignIn)
  if password = "" ∨ (codeUnits password).length > config.maxLength.getD 256 then refused o tenantId walls "password"
  else
    let user ← matchPassword o tenantId email password walls
    if ¬ user.emailVerified then do
      charge o tenantId walls
      throw (.emailNotVerified user.id)
    else
      let session ← createSession o tenantId user config
      recordAudit tenantId .passwordSignIn (some user.id) none
      return session

def requestPasswordReset (tenantId inputEmail : String) : AuthProgram Unit := do
  let config ← configFor tenantId
  let email ← fromExcept (normalizeEmail o.platform inputEmail)
  limit o tenantId .passwordResetRequest email
  match ← store (.findPassword tenantId email) with
  | none => pure ()
  | some credential => issueEmailToken o tenantId config .passwordReset email (some credential.userId)

def resetPassword (tenantId token newPassword : String) : AuthProgram AuthSession := do
  let config ← configFor tenantId
  limit o tenantId .passwordResetComplete token
  fromExcept (validatePassword newPassword config)
  let record ← consumeToken o tenantId .passwordReset token
  match record.userId with
  | none => throw (.invalidAuthToken "password-reset")
  | some userId =>
    let passwordHash ← fromExcept (← query (.hashPassword newPassword))
    let now ← now
    store (.replacePasswordAndRevokeSessions tenantId userId passwordHash now)
    match ← store (.findUserById tenantId userId) with
    | none => throw (.invalidAuthToken "password-reset")
    | some user =>
      let session ← createSession o tenantId user config
      recordAudit tenantId .passwordResetComplete (some user.id) none
      return session

def changePassword (tenantId sessionToken currentPassword newPassword : String) : AuthProgram AuthSession := do
  let config ← configFor tenantId
  limit o tenantId .passwordChange sessionToken
  let session ← requireElevatedSession o tenantId sessionToken
  fromExcept (validatePassword newPassword config)
  match session.user.email with
  | none => throw (.invalidCredentials "password-identity")
  | some email =>
    match ← store (.findPassword tenantId email) with
    | none => throw (.invalidCredentials "password-identity")
    | some credential =>
      let matches_ ← fromExcept (← query (.verifyPassword currentPassword credential.passwordHash))
      if ¬ matches_ then throw (.invalidCredentials "password")
      else
        let passwordHash ← fromExcept (← query (.hashPassword newPassword))
        let now ← now
        store (.replacePasswordAndRevokeSessions tenantId session.user.id passwordHash now)
        let changed ← createSession o tenantId session.user config
        recordAudit tenantId .passwordChange (some session.user.id) none
        return changed

end Passwords

section MagicLinks

def requestMagicLink (tenantId inputEmail : String) : AuthProgram Unit := do
  let config ← configFor tenantId
  let email ← fromExcept (normalizeEmail o.platform inputEmail)
  limit o tenantId .magicLinkRequest email
  let user ← store (.findUserByEmail tenantId email)
  issueEmailToken o tenantId config .magicLink email (user.map AuthUser.id)

def verifiedUser (tenantId : String) (user : AuthUser) : AuthProgram (Option AuthUser) :=
  if user.emailVerified then pure (some user)
  else do
    let now ← now
    store (.setEmailVerified tenantId user.id now)

def userMeanwhile (tenantId email : String) : AuthProgram (Option AuthUser) := do
  match ← store (.findUserByEmail tenantId email) with
  | none => return none
  | some user => verifiedUser tenantId user

/-- The user a magic link makes, or the one that was made meanwhile. -/
def magicLinkUser (tenantId email : String) : AuthProgram (Option AuthUser) := do
  let now ← now
  let id ← randomToken 18
  let created : AuthUser :=
    { id, tenantId, email := some email, emailVerified := true, displayName := none, createdAt := now, updatedAt := now }
  match ← attempt (.createMagicLinkUser created) with
  | .ok _ => return some created
  | .error _ => userMeanwhile tenantId email

def userOfMagicLink (tenantId email : String) : AuthProgram (Option AuthUser) := do
  match ← store (.findUserByEmail tenantId email) with
  | none => magicLinkUser tenantId email
  | some user => verifiedUser tenantId user

def consumeMagicLink (tenantId token : String) : AuthProgram AuthSession := do
  let config ← configFor tenantId
  limit o tenantId .magicLinkConsume token
  let record ← consumeToken o tenantId .magicLink token
  match ← userOfMagicLink tenantId record.email with
  | none => throw (.invalidAuthToken "magic-link")
  | some user =>
    let session ← createSession o tenantId user config
    recordAudit tenantId .magicLinkConsume (some user.id) none
    return session

end MagicLinks

section Sessions

def signOut (tenantId token : String) : AuthProgram Unit := do
  let _ ← configFor tenantId
  store (.revokeSession tenantId (o.platform.hashToken token))
  recordAudit tenantId .sessionSignOut none none

def revokeAllSessions (tenantId userId : String) : AuthProgram Unit := do
  let _ ← configFor tenantId
  store (.revokeUserSessions tenantId userId)
  recordAudit tenantId .sessionsRevoked (some userId) none

end Sessions

section OAuth

def authorizationServerRedirectUri (config : TenantAuthConfig) (provider : String) (callbackPath : Option String) :
    Except AuthServiceError String :=
  let refusal := AuthServiceError.authValidationError "oauth.callbackPath"
    "must be an absolute path on the tenant base URL origin"
  let path := callbackPath.getD ("/auth/oauth/" ++ encodeURIComponent provider ++ "/callback")
  if ¬ ("/".toList <+: path.toList) ∨ "//".toList <+: path.toList then .error refusal
  else match o.platform.newUrl path (some config.baseUrl) with
    | none => .error refusal
    | some redirect => if redirect.origin ≠ config.baseUrl.origin then .error refusal else .ok redirect.href

def validateReturnTo (config : TenantAuthConfig) : Option String → Except AuthServiceError (Option String)
  | none => .ok none
  | some returnTo =>
    let refusal := AuthServiceError.authValidationError "returnTo" "must resolve to the tenant base URL origin"
    match o.platform.newUrl returnTo (some config.baseUrl) with
    | none => .error refusal
    | some resolved => if resolved.origin ≠ config.baseUrl.origin then .error refusal else .ok (some resolved.href)

def pkceChallenge (verifier : String) : String := encodeBase64Url (o.platform.sha256 (encodeUtf8 verifier.toList))

/-- The provider of a tenant, with its credentials. -/
def requireProvider (tenantId providerId : String) (config : TenantAuthConfig) : AuthProgram OAuthProvider := do
  match ← fromExcept (← query (.resolveProvider tenantId providerId config)) with
  | none => throw (.authValidationError "provider" "is not configured for this tenant")
  | some provider =>
    if provider.id ≠ providerId ∨ trim provider.clientId.toList = [] ∨ provider.clientSecret = "" then
      throw (.authValidationError "oauth.credentials"
        "must match the requested provider and contain a client ID and redacted secret")
    else return provider

def beginOAuth (tenantId providerId : String) (returnTo callbackPath caller : Option String) : AuthProgram String := do
  let config ← configFor tenantId
  limitAny o tenantId .oauthStart caller
  let provider ← requireProvider tenantId providerId config
  let safeReturnTo ← fromExcept (validateReturnTo o config returnTo)
  let state ← randomToken 32
  let verifier ← randomToken 48
  let redirectUri ← fromExcept (authorizationServerRedirectUri o config provider.id callbackPath)
  let now ← now
  store (.putOAuthState
    { tenantId, provider := provider.id, stateHash := o.platform.hashToken state, codeVerifier := verifier, redirectUri
      returnTo := safeReturnTo, expiresAt := now + config.tokens.oauthStateTtlMillis.getD (10 * 60 * 1000) })
  match o.platform.newUrl provider.authorizationEndpoint none with
  | none => throw (.defect "new URL")
  | some url =>
    return (o.platform.setParameters url
      [("response_type","code"),("client_id",provider.clientId),("redirect_uri",redirectUri),
        ("scope",String.intercalate " " provider.scopes),("state",state),("code_challenge",pkceChallenge o verifier),
        ("code_challenge_method","S256")]).href

/-- The state of a sign-in that was begun with this provider. -/
def consumeState (tenantId providerId state : String) : AuthProgram OAuthStateRecord := do
  let now ← now
  match ← store (.consumeOAuthState tenantId (o.platform.hashToken state) now) with
  | none => throw (.invalidAuthToken "oauth-state")
  | some record => if record.provider ≠ providerId then throw (.invalidAuthToken "oauth-state") else return record

/-- The profile that the provider gives for a code. -/
def fetchProfile (provider : OAuthProvider) (code : String) (state : OAuthStateRecord) : AuthProgram OAuthProfile := do
  let profile ← fromExcept (← query (.exchangeOAuthCode provider code state.codeVerifier state.redirectUri))
  fromExcept (validateOAuthProfile o.platform profile)

/-- The session the caller is in, if it gives one. -/
def currentSession (tenantId : String) : Option String → AuthProgram (Option AuthSession)
  | none => pure none
  | some token => do return some (← getSession o tenantId token)

def identityOf (tenantId providerId : String) (profile : OAuthProfile) (user : AuthUser) (createdAt : ℤ) : OAuthIdentity where
  tenantId := tenantId
  userId := user.id
  provider := providerId
  subject := profile.subject
  email := profile.email
  createdAt := createdAt

/-- `profile.email.trim().toLowerCase()`. -/
def profileEmail (email : String) : String := String.ofList (o.platform.toLowerCase (trim email.toList))

/-- The user of a verified email of the profile. -/
def matchedUser (tenantId : String) (profile : OAuthProfile) : AuthProgram (Option AuthUser) :=
  match profile.email with
  | none => pure none
  | some email => if profile.emailVerified then store (.findUserByEmail tenantId (profileEmail o email)) else pure none

def knownUser (tenantId providerId : String) (identity : OAuthIdentity) (requestedBy : Option AuthSession) :
    AuthProgram AuthUser := do
  if requestedBy.any fun session => session.user.id ≠ identity.userId then
    throw (.accountLinkDenied providerId (some "identity-belongs-to-another-user"))
  else
    match ← store (.findUserById tenantId identity.userId) with
    | none => throw (.invalidCredentials "oauth-user")
    | some user => return user

/-- The email of a linked user is verified if the provider vouches for it. -/
def vouchedUser (tenantId : String) (profile : OAuthProfile) (user : AuthUser) : AuthProgram AuthUser := do
  if ¬ user.emailVerified ∧ profile.emailVerified ∧ profile.email.isSome ∧ user.email = profile.email then
    let now ← now
    return (← store (.setEmailVerified tenantId user.id now)).getD user
  else return user

def linkUser (tenantId providerId : String) (profile : OAuthProfile) (target : AuthUser) (requestedBy : Option AuthSession) :
    AuthProgram AuthUser := do
  let allowed ← fromExcept (← query (.authorizeLink
    ⟨tenantId,providerId,profile.subject,profile,target.id,requestedBy.map fun session => session.user.id⟩))
  if ¬ allowed then throw (.accountLinkDenied providerId none)
  else
    let createdAt ← now
    store (.addOAuthIdentity (identityOf tenantId providerId profile target createdAt))
    vouchedUser tenantId profile target

def provisioningAllowed (request : IdentityProvisionRequest) : AuthProgram Bool :=
  if o.gatesProvisioning then query (.allowProvisioning request) else pure true

/-- A new user for an identity that is not known. -/
def provisionUser (tenantId providerId : String) (profile : OAuthProfile) : AuthProgram AuthUser := do
  let provisioned ← provisioningAllowed o ⟨tenantId,providerId,profile.subject,profile.email⟩
  if ¬ provisioned then throw (.invalidCredentials "oauth-identity")
  else
    let now ← now
    let id ← randomToken 18
    let user : AuthUser :=
      { id, tenantId, email := if profile.emailVerified then profile.email.map (profileEmail o) else none
        emailVerified := profile.email.isSome && profile.emailVerified, displayName := profile.displayName
        createdAt := now, updatedAt := now }
    store (.createOAuthUser user (identityOf tenantId providerId profile user now))
    return user

/-- The user a profile signs in: that of its identity, else one it is linked to, else a new one. -/
def oauthUser (tenantId providerId : String) (profile : OAuthProfile) (currentSessionToken : Option String) :
    AuthProgram AuthUser := do
  let identity ← store (.findOAuthIdentity tenantId providerId profile.subject)
  let requestedBy ← currentSession o tenantId currentSessionToken
  match identity with
  | some identity => knownUser tenantId providerId identity requestedBy
  | none =>
    let matched ← matchedUser o tenantId profile
    match (requestedBy.map AuthSession.user).or matched with
    | some target => linkUser tenantId providerId profile target requestedBy
    | none => provisionUser o tenantId providerId profile

def completeOAuth (tenantId providerId state code : String) (currentSessionToken : Option String) :
    AuthProgram (AuthSession × Option String) := do
  let config ← configFor tenantId
  limit o tenantId .oauthComplete state
  let record ← consumeState o tenantId providerId state
  let provider ← requireProvider tenantId providerId config
  let profile ← fetchProfile o provider code record
  let user ← oauthUser o tenantId providerId profile currentSessionToken
  let session ← createSession o tenantId user config
  recordAudit tenantId .oauthComplete (some user.id) (some providerId)
  return (session,record.returnTo)

def unlinkOAuthIdentity (tenantId sessionToken provider : String) : AuthProgram Unit := do
  let _ ← configFor tenantId
  limit o tenantId .oauthComplete sessionToken
  let session ← requireElevatedSession o tenantId sessionToken
  store (.removeOAuthIdentity tenantId session.user.id provider)
  recordAudit tenantId .oauthUnlink (some session.user.id) (some provider)

end OAuth

section Passkeys

def challengeTtl (config : TenantAuthConfig) : ℤ := config.tokens.passkeyChallengeTtlMillis.getD (5 * 60 * 1000)

def requirePasskeyConfig (config : TenantAuthConfig) : Except AuthServiceError PasskeyTenantConfig :=
  match config.passkey with
  | none => .error (.authValidationError "passkey" "is not configured for this tenant")
  | some passkey => .ok passkey

def issueChallenge (tenantId : String) (config : TenantAuthConfig) (purpose : PasskeyChallengePurpose)
    (userId : Option String) : AuthProgram String := do
  let challenge ← randomToken 32
  let now ← now
  store (.putPasskeyChallenge
    { tenantId, purpose, challengeHash := o.platform.hashToken challenge, userId, expiresAt := now + challengeTtl config })
  return challenge

def credentialsOf (passkeys : List PasskeyRecord) : List (String × List String) :=
  passkeys.map fun passkey => (passkey.credentialId,passkey.transports)

def beginPasskeyRegistration (tenantId sessionToken : String) : AuthProgram PasskeyRegistrationOptions := do
  let config ← configFor tenantId
  limit o tenantId .passkeyRegister sessionToken
  let passkey ← fromExcept (requirePasskeyConfig config)
  let session ← requireElevatedSession o tenantId sessionToken
  let challenge ← issueChallenge o tenantId config .registration (some session.user.id)
  let existing ← store (.listPasskeys tenantId session.user.id)
  return {
    challenge, rpId := passkey.rpId, rpName := passkey.rpName
    userHandle := encodeBase64Url (encodeUtf8 session.user.id.toList)
    userName := session.user.email.getD session.user.id
    userDisplayName := (session.user.displayName.or session.user.email).getD session.user.id
    pubKeyCredParams := [-7,-257,-8], timeout := challengeTtl config
    userVerificationRequired := passkey.requireUserVerification.getD true, excludeCredentials := credentialsOf existing }

def finishPasskeyRegistration (tenantId sessionToken : String) (response : PasskeyRegistrationResponse)
    (label : Option String) : AuthProgram Unit := do
  let config ← configFor tenantId
  limit o tenantId .passkeyRegister sessionToken
  let passkey ← fromExcept (requirePasskeyConfig config)
  let session ← requireElevatedSession o tenantId sessionToken
  let clientChallenge ← fromExcept (Webauthn.passkeyChallengeFromClientData response.clientDataJSON)
  let consumedAt ← now
  let challenge ← store (.consumePasskeyChallenge tenantId .registration (o.platform.hashToken clientChallenge) consumedAt)
  if ¬ challenge.any fun challenge => challenge.userId = some session.user.id then
    throw (.invalidAuthToken "passkey-registration-challenge")
  else
    let verified ← fromExcept (← query (.verifyPasskeyRegistration passkey response))
    let createdAt ← now
    store (.addPasskey
      { tenantId, userId := session.user.id, credentialId := verified.credentialId, publicKey := verified.publicKey
        algorithm := verified.algorithm, counter := verified.counter, transports := verified.transports, label
        aaguid := verified.aaguid, createdAt })
    recordAudit tenantId .passkeyRegister (some session.user.id) none

/-- The user that an email names, if one is given. -/
def namedUser (tenantId : String) : Option String → AuthProgram (Option AuthUser)
  | none => pure none
  | some inputEmail => do
    let email ← fromExcept (normalizeEmail o.platform inputEmail)
    store (.findUserByEmail tenantId email)

def passkeysOf (tenantId : String) : Option AuthUser → AuthProgram (List PasskeyRecord)
  | none => pure []
  | some user => store (.listPasskeys tenantId user.id)

def beginPasskeyAuthentication (tenantId : String) (inputEmail caller : Option String) :
    AuthProgram PasskeyAuthenticationOptions := do
  let config ← configFor tenantId
  limitAny o tenantId .passkeyAuthenticate (inputEmail.or caller)
  let passkey ← fromExcept (requirePasskeyConfig config)
  let user ← namedUser o tenantId inputEmail
  let passkeys ← passkeysOf tenantId user
  let challenge ← issueChallenge o tenantId config .authentication (user.map AuthUser.id)
  return {
    challenge, rpId := passkey.rpId, timeout := challengeTtl config
    userVerificationRequired := passkey.requireUserVerification.getD true
    allowCredentials := inputEmail.map fun _ => credentialsOf passkeys }

/-- The passkey that a challenge may be answered with. -/
def answeringPasskey (tenantId credentialId clientChallenge : String) : AuthProgram PasskeyRecord := do
  let now ← now
  match ← store (.consumePasskeyChallenge tenantId .authentication (o.platform.hashToken clientChallenge) now) with
  | none => throw (.invalidAuthToken "passkey-authentication-challenge")
  | some challenge =>
    match ← store (.findPasskey tenantId credentialId) with
    | none => throw (.invalidCredentials "passkey")
    | some passkey =>
      if challenge.userId.any fun userId => userId ≠ passkey.userId then throw (.invalidCredentials "passkey")
      else return passkey

def finishPasskeyAuthentication (tenantId : String) (response : PasskeyAuthenticationResponse) (caller : Option String) :
    AuthProgram AuthSession := do
  let config ← configFor tenantId
  limit o tenantId .passkeyAuthenticate (caller.getD response.credentialId)
  let passkeyConfig ← fromExcept (requirePasskeyConfig config)
  let clientChallenge ← fromExcept (Webauthn.passkeyChallengeFromClientData response.clientDataJSON)
  let passkey ← answeringPasskey o tenantId response.credentialId clientChallenge
  let verified ← Webauthn.verifyPasskeyAuthentication o.platform passkeyConfig passkey response
  store (.updatePasskeyCounter tenantId passkey.credentialId passkey.counter verified.counter)
  match ← store (.findUserById tenantId passkey.userId) with
  | none => throw (.invalidCredentials "passkey-user")
  | some user =>
    let session ← createSession o tenantId user config
    recordAudit tenantId .passkeyAuthenticate (some user.id) none
    return session

def renamePasskey (tenantId sessionToken credentialId : String) (label : Option String) : AuthProgram Bool := do
  let _ ← configFor tenantId
  limit o tenantId .passkeyRename sessionToken
  let session ← requireElevatedSession o tenantId sessionToken
  let renamed ← store (.renamePasskey tenantId session.user.id credentialId label)
  auditIf renamed tenantId .passkeyRename session.user.id
  return renamed

def removePasskey (tenantId sessionToken credentialId : String) : AuthProgram Bool := do
  let _ ← configFor tenantId
  limit o tenantId .passkeyRemove sessionToken
  let session ← requireElevatedSession o tenantId sessionToken
  let removed ← store (.removePasskey tenantId session.user.id credentialId)
  auditIf removed tenantId .passkeyRemove session.user.id
  return removed

end Passkeys
end AuthService

section Calls

inductive AuthRequest where
  | registerPassword (email password : String) (displayName : Option String)
  | requestEmailVerification (email : String)
  | verifyEmail (token : String)
  | signInPassword (email password : String) (caller : Option String)
  | requestPasswordReset (email : String)
  | resetPassword (token newPassword : String)
  | changePassword (sessionToken currentPassword newPassword : String)
  | requestMagicLink (email : String)
  | consumeMagicLink (token : String)
  | getSession (token : String)
  | signOut (token : String)
  | revokeAllSessions (userId : String)
  | beginOAuth (provider : String) (returnTo callbackPath caller : Option String)
  | completeOAuth (provider state code : String) (currentSessionToken : Option String)
  | unlinkOAuthIdentity (sessionToken provider : String)
  | beginPasskeyRegistration (sessionToken : String)
  | finishPasskeyRegistration (sessionToken : String) (response : PasskeyRegistrationResponse) (label : Option String)
  | beginPasskeyAuthentication (email caller : Option String)
  | finishPasskeyAuthentication (response : PasskeyAuthenticationResponse) (caller : Option String)
  | renamePasskey (sessionToken credentialId : String) (label : Option String)
  | removePasskey (sessionToken credentialId : String)
deriving DecidableEq

structure AuthCall where
  tenantId : String
  request : AuthRequest
deriving DecidableEq

inductive AuthAnswer where
  | done
  | user (user : AuthUser)
  | session (session : AuthSession)
  | signedIn (session : AuthSession) (returnTo : Option String)
  | authorizationUrl (url : String)
  | registrationOptions (options : PasskeyRegistrationOptions)
  | authenticationOptions (options : PasskeyAuthenticationOptions)
  | changed (changed : Bool)
deriving DecidableEq

/-- The call that a request of a tenant makes of the service. -/
def AuthCall.program (o : MakeAuthOptions) (call : AuthCall) : AuthProgram AuthAnswer :=
  match call.request with
  | .registerPassword email password displayName =>
    AuthAnswer.user <$> AuthService.registerPassword o call.tenantId email password displayName
  | .requestEmailVerification email => (fun _ => .done) <$> AuthService.requestEmailVerification o call.tenantId email
  | .verifyEmail token => AuthAnswer.user <$> AuthService.verifyEmail o call.tenantId token
  | .signInPassword email password caller =>
    AuthAnswer.session <$> AuthService.signInPassword o call.tenantId email password caller
  | .requestPasswordReset email => (fun _ => .done) <$> AuthService.requestPasswordReset o call.tenantId email
  | .resetPassword token newPassword => AuthAnswer.session <$> AuthService.resetPassword o call.tenantId token newPassword
  | .changePassword sessionToken currentPassword newPassword =>
    AuthAnswer.session <$> AuthService.changePassword o call.tenantId sessionToken currentPassword newPassword
  | .requestMagicLink email => (fun _ => .done) <$> AuthService.requestMagicLink o call.tenantId email
  | .consumeMagicLink token => AuthAnswer.session <$> AuthService.consumeMagicLink o call.tenantId token
  | .getSession token => AuthAnswer.session <$> AuthService.getSession o call.tenantId token
  | .signOut token => (fun _ => .done) <$> AuthService.signOut o call.tenantId token
  | .revokeAllSessions userId => (fun _ => .done) <$> AuthService.revokeAllSessions call.tenantId userId
  | .beginOAuth provider returnTo callbackPath caller =>
    AuthAnswer.authorizationUrl <$> AuthService.beginOAuth o call.tenantId provider returnTo callbackPath caller
  | .completeOAuth provider state code currentSessionToken =>
    (fun r => .signedIn r.1 r.2) <$> AuthService.completeOAuth o call.tenantId provider state code currentSessionToken
  | .unlinkOAuthIdentity sessionToken provider =>
    (fun _ => .done) <$> AuthService.unlinkOAuthIdentity o call.tenantId sessionToken provider
  | .beginPasskeyRegistration sessionToken =>
    AuthAnswer.registrationOptions <$> AuthService.beginPasskeyRegistration o call.tenantId sessionToken
  | .finishPasskeyRegistration sessionToken response label =>
    (fun _ => .done) <$> AuthService.finishPasskeyRegistration o call.tenantId sessionToken response label
  | .beginPasskeyAuthentication email caller =>
    AuthAnswer.authenticationOptions <$> AuthService.beginPasskeyAuthentication o call.tenantId email caller
  | .finishPasskeyAuthentication response caller =>
    AuthAnswer.session <$> AuthService.finishPasskeyAuthentication o call.tenantId response caller
  | .renamePasskey sessionToken credentialId label =>
    AuthAnswer.changed <$> AuthService.renamePasskey o call.tenantId sessionToken credentialId label
  | .removePasskey sessionToken credentialId =>
    AuthAnswer.changed <$> AuthService.removePasskey o call.tenantId sessionToken credentialId

end Calls
end StructureAi.Identity

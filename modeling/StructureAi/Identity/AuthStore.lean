import StructureAi.Foundation.Keyed

/-! # The store of the auth service

The records of accounts, their credentials, sessions and tokens, and the store that keeps
them in memory: one map a kind, its keys joined from the tenant and the value by a NUL
character. Times are milliseconds.
-/
namespace StructureAi.Identity
open StructureAi.Foundation

section Records

inductive OneTimeTokenPurpose where
  | emailVerification
  | magicLink
  | passwordReset
deriving DecidableEq

def OneTimeTokenPurpose.text : OneTimeTokenPurpose → String
  | emailVerification => "email-verification"
  | magicLink => "magic-link"
  | passwordReset => "password-reset"

inductive PasskeyChallengePurpose where
  | registration
  | authentication
deriving DecidableEq

def PasskeyChallengePurpose.text : PasskeyChallengePurpose → String
  | registration => "registration"
  | authentication => "authentication"

structure AuthUser where
  id : String
  tenantId : String
  email : Option String
  emailVerified : Bool
  displayName : Option String
  createdAt : ℤ
  updatedAt : ℤ
deriving DecidableEq

structure PasswordCredential where
  tenantId : String
  userId : String
  email : String
  passwordHash : String
  updatedAt : ℤ
deriving DecidableEq

structure OAuthIdentity where
  tenantId : String
  userId : String
  provider : String
  subject : String
  email : Option String
  createdAt : ℤ
deriving DecidableEq

structure SessionRecord where
  id : String
  tenantId : String
  userId : String
  tokenHash : String
  createdAt : ℤ
  expiresAt : ℤ
  /-- Absent while the session waits for a second factor. -/
  elevatedAt : Option ℤ
deriving DecidableEq

structure TotpRecord where
  tenantId : String
  userId : String
  secretBase32 : String
  confirmed : Bool
  recoveryCodeHashes : List String
  failedAttempts : ℤ
  lockedUntil : Option ℤ
  lastUsedStep : Option ℤ
  enrolledAt : ℤ
deriving DecidableEq

structure OneTimeTokenRecord where
  tenantId : String
  purpose : OneTimeTokenPurpose
  tokenHash : String
  email : String
  userId : Option String
  expiresAt : ℤ
deriving DecidableEq

structure OAuthStateRecord where
  tenantId : String
  provider : String
  stateHash : String
  codeVerifier : String
  redirectUri : String
  returnTo : Option String
  expiresAt : ℤ
deriving DecidableEq

structure PasskeyChallengeRecord where
  tenantId : String
  purpose : PasskeyChallengePurpose
  challengeHash : String
  userId : Option String
  expiresAt : ℤ
deriving DecidableEq

inductive PasskeyAlgorithm where
  | es256
  | rs256
  | ed25519
deriving DecidableEq

structure PasskeyRecord where
  tenantId : String
  userId : String
  credentialId : String
  publicKey : String
  algorithm : PasskeyAlgorithm
  counter : ℕ
  transports : List String
  label : Option String
  aaguid : Option String
  createdAt : ℤ
deriving DecidableEq

/-- An entry of the index of users by email. -/
structure EmailEntry where
  tenantId : String
  email : String
  userId : String
deriving DecidableEq

end Records

structure IdentityConflict where
  tenantId : String
  identity : String
deriving DecidableEq

structure TotpFailure where
  tenantId : String
  userId : String
  threshold : ℤ
  cooldownMillis : ℤ
  now : ℤ

section Operations

/-- `AuthStore`. -/
inductive StoreOp where
  | createPasswordUser (user : AuthUser) (credential : PasswordCredential)
  | createOAuthUser (user : AuthUser) (identity : OAuthIdentity)
  | createMagicLinkUser (user : AuthUser)
  | findUserById (tenantId userId : String)
  | findUserByEmail (tenantId email : String)
  | findPassword (tenantId email : String)
  | setEmailVerified (tenantId userId : String) (now : ℤ)
  | replacePasswordAndRevokeSessions (tenantId userId passwordHash : String) (now : ℤ)
  | putOneTimeToken (record : OneTimeTokenRecord)
  | consumeOneTimeToken (tenantId : String) (purpose : OneTimeTokenPurpose) (tokenHash : String) (now : ℤ)
  | createSession (record : SessionRecord)
  | findSession (tenantId tokenHash : String) (now : ℤ)
  | revokeSession (tenantId tokenHash : String)
  | revokeUserSessions (tenantId userId : String)
  | putOAuthState (record : OAuthStateRecord)
  | consumeOAuthState (tenantId stateHash : String) (now : ℤ)
  | findOAuthIdentity (tenantId provider subject : String)
  | addOAuthIdentity (identity : OAuthIdentity)
  | removeOAuthIdentity (tenantId userId provider : String)
  | putPasskeyChallenge (record : PasskeyChallengeRecord)
  | consumePasskeyChallenge (tenantId : String) (purpose : PasskeyChallengePurpose) (challengeHash : String) (now : ℤ)
  | addPasskey (record : PasskeyRecord)
  | findPasskey (tenantId credentialId : String)
  | listPasskeys (tenantId userId : String)
  | renamePasskey (tenantId userId credentialId : String) (label : Option String)
  | removePasskey (tenantId userId credentialId : String)
  | updatePasskeyCounter (tenantId credentialId : String) (expectedCounter counter : ℕ)
  | putTotpSecret (record : TotpRecord)
  | findTotp (tenantId userId : String)
  | confirmTotp (tenantId userId : String) (recoveryCodeHashes : List String) (now : ℤ)
  | removeTotp (tenantId userId : String)
  | replaceTotpSecret (tenantId userId secretBase32 : String)
  | recordTotpFailure (input : TotpFailure)
  | resetTotpFailures (tenantId userId : String)
  | markTotpStepUsed (tenantId userId : String) (step : ℤ)
  | consumeRecoveryCode (tenantId userId codeHash : String)
  | elevateSession (tenantId tokenHash : String) (now : ℤ)

/-- A recorded failure answers whether it locks, and until when. -/
abbrev StoreOp.Answer : StoreOp → Type
  | findUserById _ _ => Option AuthUser
  | findUserByEmail _ _ => Option AuthUser
  | findPassword _ _ => Option PasswordCredential
  | setEmailVerified _ _ _ => Option AuthUser
  | consumeOneTimeToken _ _ _ _ => Option OneTimeTokenRecord
  | findSession _ _ _ => Option SessionRecord
  | consumeOAuthState _ _ _ => Option OAuthStateRecord
  | findOAuthIdentity _ _ _ => Option OAuthIdentity
  | consumePasskeyChallenge _ _ _ _ => Option PasskeyChallengeRecord
  | findPasskey _ _ => Option PasskeyRecord
  | listPasskeys _ _ => List PasskeyRecord
  | renamePasskey _ _ _ _ => Bool
  | removePasskey _ _ _ => Bool
  | findTotp _ _ => Option TotpRecord
  | confirmTotp _ _ _ _ => Option TotpRecord
  | recordTotpFailure _ => Option ℤ
  | markTotpStepUsed _ _ _ => Bool
  | consumeRecoveryCode _ _ _ => Bool
  | _ => Unit

end Operations

section Keys

def scopedKey (tenantId value : String) : String := tenantId ++ "\x00" ++ value

def tokenKey (tenantId purpose hash : String) : String := tenantId ++ "\x00" ++ purpose ++ "\x00" ++ hash

def oauthKey (tenantId provider subject : String) : String := tenantId ++ "\x00" ++ provider ++ "\x00" ++ subject

def AuthUser.key (user : AuthUser) : String := scopedKey user.tenantId user.id

def EmailEntry.key (entry : EmailEntry) : String := scopedKey entry.tenantId entry.email

def PasswordCredential.key (credential : PasswordCredential) : String := scopedKey credential.tenantId credential.email

def OneTimeTokenRecord.key (record : OneTimeTokenRecord) : String :=
  tokenKey record.tenantId record.purpose.text record.tokenHash

def SessionRecord.key (record : SessionRecord) : String := scopedKey record.tenantId record.tokenHash

def OAuthStateRecord.key (record : OAuthStateRecord) : String := scopedKey record.tenantId record.stateHash

def OAuthIdentity.key (identity : OAuthIdentity) : String :=
  oauthKey identity.tenantId identity.provider identity.subject

def PasskeyChallengeRecord.key (record : PasskeyChallengeRecord) : String :=
  tokenKey record.tenantId record.purpose.text record.challengeHash

def PasskeyRecord.key (record : PasskeyRecord) : String := scopedKey record.tenantId record.credentialId

def TotpRecord.key (record : TotpRecord) : String := scopedKey record.tenantId record.userId

end Keys

/-- The state of `inMemoryAuthStore`. -/
structure MemoryState where
  users : Records AuthUser.key
  usersByEmail : Records EmailEntry.key
  passwords : Records PasswordCredential.key
  tokens : Records OneTimeTokenRecord.key
  sessions : Records SessionRecord.key
  oauthStates : Records OAuthStateRecord.key
  oauthIdentities : Records OAuthIdentity.key
  passkeyChallenges : Records PasskeyChallengeRecord.key
  passkeys : Records PasskeyRecord.key
  totp : Records TotpRecord.key

namespace MemoryState

def newState : MemoryState := ⟨.empty,.empty,.empty,.empty,.empty,.empty,.empty,.empty,.empty,.empty⟩

def assertUserUnique (s : MemoryState) (user : AuthUser) : Option IdentityConflict :=
  if (s.users.get user.key).isSome then some ⟨user.tenantId,"user:" ++ user.id⟩
  else if user.email.any fun email => (s.usersByEmail.get (scopedKey user.tenantId email)).isSome then
    some ⟨user.tenantId,"email"⟩
  else none

def insertUser (s : MemoryState) (user : AuthUser) : MemoryState :=
  {s with
    users := s.users.set user
    usersByEmail := user.email.elim s.usersByEmail fun email => s.usersByEmail.set ⟨user.tenantId,email,user.id⟩}

/-- A one-time token that a new one supersedes. -/
def superseded (record existing : OneTimeTokenRecord) : Bool :=
  existing.tenantId = record.tenantId && existing.purpose = record.purpose && existing.email = record.email

def revokes (tenantId userId : String) (session : SessionRecord) : Bool :=
  session.tenantId = tenantId && session.userId = userId

/-- `putOneTimeToken`. -/
def putOneTimeToken (s : MemoryState) (record : OneTimeTokenRecord) : MemoryState :=
  {s with tokens := (s.tokens.deleteWhere (superseded record)).set record}

/-- The record of a failed attempt, and until when it is locked if this attempt locks it. -/
def failed (input : TotpFailure) (current : TotpRecord) : TotpRecord × Option ℤ :=
  let failedAttempts := current.failedAttempts + 1
  let lockedUntil := if failedAttempts ≥ input.threshold then some (input.now + input.cooldownMillis) else none
  ({current with failedAttempts, lockedUntil := lockedUntil.or current.lockedUntil},lockedUntil)

def perform : (op : StoreOp) → MemoryState → Except IdentityConflict op.Answer × MemoryState
  | .createPasswordUser user credential,s =>
    match s.assertUserUnique user with
    | some conflict => (.error conflict,s)
    | none =>
      if (s.passwords.get credential.key).isSome then (.error ⟨credential.tenantId,"password-email"⟩,s)
      else (.ok (),{s.insertUser user with passwords := s.passwords.set credential})
  | .createOAuthUser user identity,s =>
    match s.assertUserUnique user with
    | some conflict => (.error conflict,s)
    | none =>
      if (s.oauthIdentities.get identity.key).isSome then (.error ⟨identity.tenantId,"oauth"⟩,s)
      else (.ok (),{s.insertUser user with oauthIdentities := s.oauthIdentities.set identity})
  | .createMagicLinkUser user,s =>
    match s.assertUserUnique user with
    | some conflict => (.error conflict,s)
    | none => (.ok (),s.insertUser user)
  | .findUserById tenantId userId,s => (.ok (s.users.get (scopedKey tenantId userId)),s)
  | .findUserByEmail tenantId email,s =>
    (.ok ((s.usersByEmail.get (scopedKey tenantId email)).bind fun entry => s.users.get (scopedKey tenantId entry.userId)),s)
  | .findPassword tenantId email,s => (.ok (s.passwords.get (scopedKey tenantId email)),s)
  | .setEmailVerified tenantId userId now,s =>
    match s.users.get (scopedKey tenantId userId) with
    | none => (.ok none,s)
    | some current =>
      let updated := {current with emailVerified := true, updatedAt := now}
      (.ok (some updated),{s with users := s.users.set updated})
  | .replacePasswordAndRevokeSessions tenantId userId passwordHash now,s =>
    (.ok (),{s with
      passwords := s.passwords.modify (fun credential => credential.tenantId = tenantId && credential.userId = userId)
        (fun credential => {credential with passwordHash, updatedAt := now}) fun _ => rfl
      sessions := s.sessions.deleteWhere (revokes tenantId userId)})
  | .putOneTimeToken record,s => (.ok (),s.putOneTimeToken record)
  | .consumeOneTimeToken tenantId purpose tokenHash now,s =>
    let key := tokenKey tenantId purpose.text tokenHash
    (.ok ((s.tokens.get key).filter fun record => now < record.expiresAt),{s with tokens := s.tokens.delete key})
  | .createSession record,s =>
    if (s.sessions.get record.key).isSome then (.error ⟨record.tenantId,"session-token"⟩,s)
    else (.ok (),{s with sessions := s.sessions.set record})
  | .findSession tenantId tokenHash now,s =>
    let key := scopedKey tenantId tokenHash
    match s.sessions.get key with
    | none => (.ok none,s)
    | some record =>
      if record.expiresAt ≤ now then (.ok none,{s with sessions := s.sessions.delete key}) else (.ok (some record),s)
  | .revokeSession tenantId tokenHash,s => (.ok (),{s with sessions := s.sessions.delete (scopedKey tenantId tokenHash)})
  | .revokeUserSessions tenantId userId,s =>
    (.ok (),{s with sessions := s.sessions.deleteWhere (revokes tenantId userId)})
  | .putOAuthState record,s => (.ok (),{s with oauthStates := s.oauthStates.set record})
  | .consumeOAuthState tenantId stateHash now,s =>
    let key := scopedKey tenantId stateHash
    (.ok ((s.oauthStates.get key).filter fun record => now < record.expiresAt),
      {s with oauthStates := s.oauthStates.delete key})
  | .findOAuthIdentity tenantId provider subject,s => (.ok (s.oauthIdentities.get (oauthKey tenantId provider subject)),s)
  | .addOAuthIdentity identity,s =>
    if (s.oauthIdentities.get identity.key).isSome then (.error ⟨identity.tenantId,"oauth"⟩,s)
    else (.ok (),{s with oauthIdentities := s.oauthIdentities.set identity})
  | .removeOAuthIdentity tenantId userId provider,s =>
    (.ok (),{s with oauthIdentities := s.oauthIdentities.deleteWhere fun identity =>
      identity.tenantId = tenantId && identity.userId = userId && identity.provider = provider})
  | .putPasskeyChallenge record,s => (.ok (),{s with passkeyChallenges := s.passkeyChallenges.set record})
  | .consumePasskeyChallenge tenantId purpose challengeHash now,s =>
    let key := tokenKey tenantId purpose.text challengeHash
    (.ok ((s.passkeyChallenges.get key).filter fun record => now < record.expiresAt),
      {s with passkeyChallenges := s.passkeyChallenges.delete key})
  | .addPasskey record,s =>
    if (s.passkeys.get record.key).isSome then (.error ⟨record.tenantId,"passkey"⟩,s)
    else (.ok (),{s with passkeys := s.passkeys.set record})
  | .findPasskey tenantId credentialId,s => (.ok (s.passkeys.get (scopedKey tenantId credentialId)),s)
  | .listPasskeys tenantId userId,s =>
    (.ok (s.passkeys.rows.filter fun passkey => passkey.tenantId = tenantId && passkey.userId = userId),s)
  | .renamePasskey tenantId userId credentialId label,s =>
    match s.passkeys.get (scopedKey tenantId credentialId) with
    | none => (.ok false,s)
    | some current =>
      if current.userId = userId then (.ok true,{s with passkeys := s.passkeys.set {current with label}})
      else (.ok false,s)
  | .removePasskey tenantId userId credentialId,s =>
    let key := scopedKey tenantId credentialId
    match s.passkeys.get key with
    | none => (.ok false,s)
    | some current =>
      if current.userId = userId then (.ok true,{s with passkeys := s.passkeys.delete key}) else (.ok false,s)
  | .updatePasskeyCounter tenantId credentialId expectedCounter counter,s =>
    match s.passkeys.get (scopedKey tenantId credentialId) with
    | none => (.error ⟨tenantId,"passkey-counter"⟩,s)
    | some current =>
      if current.counter = expectedCounter then (.ok (),{s with passkeys := s.passkeys.set {current with counter}})
      else (.error ⟨tenantId,"passkey-counter"⟩,s)
  | .putTotpSecret record,s => (.ok (),{s with totp := s.totp.set record})
  | .findTotp tenantId userId,s => (.ok (s.totp.get (scopedKey tenantId userId)),s)
  | .confirmTotp tenantId userId recoveryCodeHashes now,s =>
    match s.totp.get (scopedKey tenantId userId) with
    | none => (.ok none,s)
    | some current =>
      if current.confirmed then (.ok none,s)
      else
        let updated := {current with confirmed := true, recoveryCodeHashes, failedAttempts := 0, enrolledAt := now}
        (.ok (some updated),{s with totp := s.totp.set updated})
  | .removeTotp tenantId userId,s => (.ok (),{s with totp := s.totp.delete (scopedKey tenantId userId)})
  | .replaceTotpSecret tenantId userId secretBase32,s =>
    match s.totp.get (scopedKey tenantId userId) with
    | none => (.ok (),s)
    | some current => (.ok (),{s with totp := s.totp.set {current with secretBase32}})
  | .recordTotpFailure input,s =>
    match s.totp.get (scopedKey input.tenantId input.userId) with
    | none => (.ok none,s)
    | some current => (.ok (failed input current).2,{s with totp := s.totp.set (failed input current).1})
  | .resetTotpFailures tenantId userId,s =>
    match s.totp.get (scopedKey tenantId userId) with
    | none => (.ok (),s)
    | some current => (.ok (),{s with totp := s.totp.set {current with failedAttempts := 0, lockedUntil := none}})
  | .markTotpStepUsed tenantId userId step,s =>
    match s.totp.get (scopedKey tenantId userId) with
    | none => (.ok false,s)
    | some current =>
      if current.lastUsedStep.any fun last => last ≥ step then (.ok false,s)
      else (.ok true,{s with totp := s.totp.set {current with lastUsedStep := some step}})
  | .consumeRecoveryCode tenantId userId codeHash,s =>
    match s.totp.get (scopedKey tenantId userId) with
    | none => (.ok false,s)
    | some current =>
      if codeHash ∈ current.recoveryCodeHashes then
        (.ok true,{s with totp := s.totp.set {current with
          recoveryCodeHashes := current.recoveryCodeHashes.filter fun hash => hash ≠ codeHash}})
      else (.ok false,s)
  | .elevateSession tenantId tokenHash now,s =>
    match s.sessions.get (scopedKey tenantId tokenHash) with
    | none => (.ok (),s)
    | some session => (.ok (),{s with sessions := s.sessions.set {session with elevatedAt := some now}})

end MemoryState
end StructureAi.Identity

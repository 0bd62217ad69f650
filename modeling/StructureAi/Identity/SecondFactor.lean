import StructureAi.Foundation.Percent
import StructureAi.Identity.AuthService
import StructureAi.Identity.Totp

/-! # The second factor

`makeTotp`: the enrolment of an authenticator, its recovery codes, and the verification that
elevates a session. A code is accepted once; a run of wrong ones locks the second factor until a
cooldown has passed. Every call is one program over the store and the queries.
-/
namespace StructureAi.Identity
open StructureAi.Foundation

/-- What the service is made with, beside the store and the ports behind the queries. -/
structure TotpOptions where
  platform : Platform
  auth : MakeAuthOptions
  totp : TotpPlatform
  /-- `new URL(baseUrl).hostname`. -/
  hostname : Url → String
  secret : String
  secret_long : 32 ≤ (codeUnits secret).length
  lockoutThreshold : Option ℤ
  lockoutCooldownMillis : Option ℤ

structure EnrollmentSecret where
  secretBase32 : String
  otpauthUrl : String
deriving DecidableEq

namespace SecondFactor
open AuthProgram Totp

section Settings

def DEFAULT_LOCKOUT_THRESHOLD : ℤ := 5

def DEFAULT_LOCKOUT_COOLDOWN : ℤ := 15 * 60 * 1000

variable (o : TotpOptions)

def threshold : ℤ := o.lockoutThreshold.getD DEFAULT_LOCKOUT_THRESHOLD

def cooldown : ℤ := o.lockoutCooldownMillis.getD DEFAULT_LOCKOUT_COOLDOWN

def sealer : SecondFactorSealer := ⟨o.totp.crypto,o.secret⟩

theorem secret_ne_empty : (sealer o).secret ≠ "" := by
  intro hempty
  have hlong := o.secret_long
  have hnone : (codeUnits o.secret).length = 0 := by
    rw [show o.secret = "" from hempty]
    decide
  omega

def totpQrPayload (secretBase32 account issuer : String) : String :=
  "otpauth://totp/" ++ encodeURIComponent issuer ++ ":" ++ encodeURIComponent account ++
    "?secret=" ++ secretBase32 ++ "&issuer=" ++ encodeURIComponent issuer ++
    "&algorithm=SHA1&digits=6&period=" ++ toString TOTP_STEP_SECONDS

def isCodeChar (c : Char) : Bool := ('a' ≤ c && c ≤ 'z') || ('2' ≤ c && c ≤ '7')

/-- `/^[a-z2-7]{5}-[a-z2-7]{5}$/u`. -/
def isRecoveryCode (code : String) : Bool :=
  let text := code.toList
  text.length = 11 && (text.take 5).all isCodeChar && text[5]? = some '-' && (text.drop 6).all isCodeChar

end Settings

variable (o : TotpOptions)

section Helpers

/-- The stored entry behind a code; every entry is compared. -/
def recoveryEntryFor (hashes : List String) (code : String) : Option String :=
  hashes.find? fun stored => (sealer o).matchRecoveryCode o.platform.hashToken code stored

/-- An entry that is still there after the store refused it was not spent: another code of the list was, and the
consumption is tried again. -/
def consumeAttempts (tenantId userId code : String) : ℕ → List String → AuthProgram Bool
  | 0,_ => return false
  | attempts + 1,entries =>
    match recoveryEntryFor o entries code with
    | none => return false
    | some entry => do
      let consumed ← store (.consumeRecoveryCode tenantId userId entry)
      if consumed then return true
      else
        match ← store (.findTotp tenantId userId) with
        | none => return false
        | some current =>
          if entry ∉ current.recoveryCodeHashes then return false
          else consumeAttempts tenantId userId code attempts current.recoveryCodeHashes

def consumeRecoveryCode (tenantId userId : String) (hashes : List String) (code : String) : AuthProgram Bool :=
  consumeAttempts o tenantId userId code 3 hashes

/-- A secret that predates sealing is sealed in place. -/
def sealLegacySecret (tenantId userId stored : String) : AuthProgram Unit :=
  if Sealing.isSealed stored then return ()
  else do
    let sealed ← (sealer o).seal_ stored
    store (.replaceTotpSecret tenantId userId sealed)

def limit (tenantId : String) (action : AuthAction) (key : String) : AuthProgram Unit := do
  fromExcept (← query (.check ⟨tenantId,action,o.platform.hashToken key⟩))

def recordAudit (tenantId : String) (action : AuthAction) (userId : String) : AuthProgram Unit :=
  query (.record ⟨tenantId,action,some userId,none,none⟩)

def sessionUser (tenantId sessionToken : String) : AuthProgram AuthUser := do
  let session ← AuthService.getSession o.auth tenantId sessionToken
  return session.user

def confirmedEnrollmentOrNone (tenantId userId : String) : AuthProgram (Option TotpRecord) := do
  let record ← store (.findTotp tenantId userId)
  return record.filter fun record => record.confirmed

/-- The enrolment that a code is checked against. -/
def requireEnrollment (tenantId userId : String) : AuthProgram TotpRecord := do
  match ← confirmedEnrollmentOrNone tenantId userId with
  | none => throw (.invalidAuthToken "totp-enrollment")
  | some enrollment => return enrollment

/-- Whole seconds until the lock is over, and one at least. -/
def lockoutError (lockedUntil now : ℤ) : AuthServiceError :=
  .rateLimitExceeded "totp-verify" (some (max 1 (-((now - lockedUntil) / 1000))))

/-- A locked second factor waits out its cooldown. -/
def refuseLocked (enrollment : TotpRecord) : AuthProgram Unit :=
  match enrollment.lockedUntil with
  | none => return ()
  | some lockedUntil => do
    let at_ ← now
    if lockedUntil > at_ then
      let now ← now
      throw (lockoutError lockedUntil now)
    else return ()

def openSecret (stored : String) : AuthProgram String := fromExcept ((sealer o).open_ stored)

def matchCode (secretBase32 code : String) : AuthProgram (Option ℤ) := do
  let at_ ← now
  fromExcept (matchTotpCode o.totp secretBase32 code at_)

/-- A code that was not accepted is counted, and may lock. -/
def refuse {α : Type} (tenantId userId : String) : AuthProgram α := do
  let at_ ← now
  match ← store (.recordTotpFailure ⟨tenantId,userId,threshold o,cooldown o,at_⟩) with
  | some lockedUntil =>
    recordAudit tenantId .totpLocked userId
    let now ← now
    throw (lockoutError lockedUntil now)
  | none => throw (.invalidCredentials "totp")

def elevate (tenantId sessionToken userId : String) : AuthProgram Unit := do
  let at_ ← now
  store (.elevateSession tenantId (o.platform.hashToken sessionToken) at_)
  recordAudit tenantId .totpVerify userId

/-- `generateRecoveryCodes`. -/
def generateRecoveryCodes : ℕ → AuthProgram (List String)
  | 0 => return []
  | count + 1 => do
    let bytes ← query (.randomBytes 8)
    let codes ← generateRecoveryCodes count
    return recoveryCode bytes.1 :: codes

def hashRecoveryCodes : List String → AuthProgram (List String)
  | [] => return []
  | code :: codes => do
    let hash ← (sealer o).hashRecoveryCode code
    let hashes ← hashRecoveryCodes codes
    return hash :: hashes

end Helpers

section Calls

def beginEnrollment (tenantId sessionToken : String) : AuthProgram EnrollmentSecret := do
  let _ ← configFor tenantId
  limit o tenantId .totpEnroll sessionToken
  let user ← sessionUser o tenantId sessionToken
  match ← confirmedEnrollmentOrNone tenantId user.id with
  | some _ => throw (.authValidationError "totp" "is already enrolled; unenroll first to re-enroll")
  | none =>
    let bytes ← query (.randomBytes 20)
    let secretBase32 := secretText bytes.1
    let sealed ← (sealer o).seal_ secretBase32
    let enrolledAt ← now
    store (.putTotpSecret
      { tenantId, userId := user.id, secretBase32 := sealed, confirmed := false, recoveryCodeHashes := []
        failedAttempts := 0, lockedUntil := none, lastUsedStep := none, enrolledAt })
    let config ← configFor tenantId
    return ⟨secretBase32,totpQrPayload secretBase32 (user.email.getD user.id) (o.hostname config.baseUrl)⟩

def confirmEnrollment (tenantId sessionToken code : String) : AuthProgram (List String) := do
  let _ ← configFor tenantId
  limit o tenantId .totpConfirm sessionToken
  let user ← sessionUser o tenantId sessionToken
  match ← store (.findTotp tenantId user.id) with
  | none => throw (.invalidAuthToken "totp-enrollment")
  | some pending =>
    if pending.confirmed then throw (.invalidAuthToken "totp-enrollment")
    else
      let secretBase32 ← openSecret o pending.secretBase32
      match ← matchCode o secretBase32 code with
      | none => throw (.invalidCredentials "totp")
      | some step =>
        let recoveryCodes ← generateRecoveryCodes 10
        let hashes ← hashRecoveryCodes o recoveryCodes
        let at_ ← now
        let _ ← store (.confirmTotp tenantId user.id hashes at_)
        -- the confirming code is spent too
        let _ ← store (.markTotpStepUsed tenantId user.id step)
        recordAudit tenantId .totpConfirm user.id
        return recoveryCodes

/-- A step of a code is claimed, if the code has one. -/
def claimStep (tenantId userId : String) : Option ℤ → AuthProgram Bool
  | none => return false
  | some step => store (.markTotpStepUsed tenantId userId step)

/-- A code of the shape of a recovery code is consumed. -/
def claimRecoveryCode (tenantId : String) (enrollment : TotpRecord) (userId code : String) : AuthProgram Bool :=
  if isRecoveryCode code then consumeRecoveryCode o tenantId userId enrollment.recoveryCodeHashes code else return false

def afterAccepted (tenantId sessionToken userId : String) (enrollment : TotpRecord) : AuthProgram Unit := do
  sealLegacySecret o tenantId userId enrollment.secretBase32
  store (.resetTotpFailures tenantId userId)
  elevate o tenantId sessionToken userId

def verify (tenantId sessionToken code : String) : AuthProgram Unit := do
  let _ ← configFor tenantId
  limit o tenantId .totpVerify sessionToken
  let user ← sessionUser o tenantId sessionToken
  let enrollment ← requireEnrollment tenantId user.id
  refuseLocked enrollment
  let secretBase32 ← openSecret o enrollment.secretBase32
  let step ← matchCode o secretBase32 code
  let claimed ← claimStep tenantId user.id step
  if claimed then afterAccepted o tenantId sessionToken user.id enrollment
  else
    let consumed ← claimRecoveryCode o tenantId enrollment user.id code
    if consumed then afterAccepted o tenantId sessionToken user.id enrollment
    else refuse o tenantId user.id

/-- A code of the authenticator is its step's, any other a recovery code. -/
def acceptCode (tenantId : String) (enrollment : TotpRecord) (userId code : String) (step : Option ℤ) : AuthProgram Bool :=
  if step.isSome then claimStep tenantId userId step else claimRecoveryCode o tenantId enrollment userId code

def unenroll (tenantId sessionToken code : String) : AuthProgram Unit := do
  let _ ← configFor tenantId
  limit o tenantId .totpUnenroll sessionToken
  let user ← sessionUser o tenantId sessionToken
  let enrollment ← requireEnrollment tenantId user.id
  refuseLocked enrollment
  let secretBase32 ← openSecret o enrollment.secretBase32
  let step ← matchCode o secretBase32 code
  let accepted ← acceptCode o tenantId enrollment user.id code step
  if ¬ accepted then refuse o tenantId user.id
  else
    store (.removeTotp tenantId user.id)
    recordAudit tenantId .totpUnenroll user.id

def resetSecondFactor (tenantId userId actor : String) : AuthProgram Unit := do
  let _ ← configFor tenantId
  match ← store (.findTotp tenantId userId) with
  | none => return ()
  | some _ =>
    store (.removeTotp tenantId userId)
    query (.record ⟨tenantId,.totpReset,some userId,none,some actor⟩)

def sessionRequiresElevation (tenantId sessionToken : String) : AuthProgram Bool := do
  let _ ← configFor tenantId
  let at_ ← now
  match ← store (.findSession tenantId (o.platform.hashToken sessionToken) at_) with
  | none => throw (.invalidCredentials "session")
  | some session =>
    if session.elevatedAt.isSome then return false
    else
      let enrollment ← confirmedEnrollmentOrNone tenantId session.userId
      return enrollment.isSome

def isEnrolled (tenantId userId : String) : AuthProgram Bool := do
  let record ← confirmedEnrollmentOrNone tenantId userId
  return record.isSome

end Calls
end SecondFactor

section Requests

inductive TotpRequest where
  | beginEnrollment (sessionToken : String)
  | confirmEnrollment (sessionToken code : String)
  | verify (sessionToken code : String)
  | unenroll (sessionToken code : String)
  | resetSecondFactor (userId actor : String)
  | sessionRequiresElevation (sessionToken : String)
  | isEnrolled (userId : String)
deriving DecidableEq

structure TotpCall where
  tenantId : String
  request : TotpRequest
deriving DecidableEq

inductive TotpAnswer where
  | enrollment (secret : EnrollmentSecret)
  | recoveryCodes (codes : List String)
  | elevated
  | done
  | holds (holds : Bool)
deriving DecidableEq

/-- The call that a request of a tenant makes of the service. -/
def TotpCall.program (o : TotpOptions) (call : TotpCall) : AuthProgram TotpAnswer :=
  match call.request with
  | .beginEnrollment sessionToken => TotpAnswer.enrollment <$> SecondFactor.beginEnrollment o call.tenantId sessionToken
  | .confirmEnrollment sessionToken code =>
    TotpAnswer.recoveryCodes <$> SecondFactor.confirmEnrollment o call.tenantId sessionToken code
  | .verify sessionToken code => (fun _ => .elevated) <$> SecondFactor.verify o call.tenantId sessionToken code
  | .unenroll sessionToken code => (fun _ => .done) <$> SecondFactor.unenroll o call.tenantId sessionToken code
  | .resetSecondFactor userId actor => (fun _ => .done) <$> SecondFactor.resetSecondFactor call.tenantId userId actor
  | .sessionRequiresElevation sessionToken =>
    TotpAnswer.holds <$> SecondFactor.sessionRequiresElevation o call.tenantId sessionToken
  | .isEnrolled userId => TotpAnswer.holds <$> SecondFactor.isEnrolled call.tenantId userId

end Requests
end StructureAi.Identity

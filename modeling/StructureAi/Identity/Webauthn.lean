import StructureAi.Foundation.JsonFields
import StructureAi.Identity.AuthOperations

/-! # Passkey assertions

The checks of an assertion: the client data and its challenge, the authenticator data and its
counter, and last the signature, which the platform verifies.
-/
namespace StructureAi.Identity
open StructureAi.Foundation

structure PasskeyAuthenticationResponse where
  credentialId : String
  clientDataJSON : String
  authenticatorData : String
  signature : String
deriving DecidableEq

structure VerifiedPasskeyAuthentication where
  challenge : String
  counter : ℕ
deriving DecidableEq

namespace Webauthn

structure ClientData where
  challenge : String
  origin : String
  bytes : List UInt8

structure ParsedAuthenticatorData where
  bytes : List UInt8
  flags : UInt8
  counter : ℕ

def passkeyFailure (reason : String) : AuthServiceError := .unsupportedPasskey reason

/-- `/^[A-Za-z0-9_-]*$/u`. -/
def isBase64UrlText (value : String) : Bool :=
  value.toList.all fun c => c.isAlphanum || c = '_' || c = '-'

def safeBytes (value field : String) : Except AuthServiceError (List UInt8) :=
  if ¬ isBase64UrlText value ∨ (codeUnits value).length > 1398102 then
    .error (passkeyFailure (field ++ " is not bounded base64url"))
  else match decodeBase64Url value with
    | none => .error (passkeyFailure (field ++ " is not base64url"))
    | some bytes => .ok bytes

/-- `new TextDecoder("utf-8", {fatal: true}).decode(bytes)`: bytes that are no encoding are refused. -/
def fatalText (bytes : List UInt8) : Option (List Char) :=
  if encodeUtf8 (decodeUtf8 bytes) = bytes then some (decodeText bytes) else none

/-- The bytes of client data and what they parse to. -/
def parsedClientData (encoded : String) : Except AuthServiceError (List UInt8 × Json) := do
  let bytes ← safeBytes encoded "clientDataJSON"
  match (fatalText bytes).bind fun text => Json.parse (String.ofList text) with
  | none => throw (passkeyFailure "clientDataJSON is invalid")
  | some parsed => return (bytes,parsed)

/-- `crossOrigin` is absent or `false`. -/
def isUncrossed : Option Json → Bool
  | none => true
  | some (.bool b) => !b
  | _ => false

def clientData (encoded expectedType : String) (config : PasskeyTenantConfig) : Except AuthServiceError ClientData := do
  let (bytes,parsed) ← parsedClientData encoded
  match parsed with
  | .obj _ =>
    match parsed.get "challenge",parsed.get "origin" with
    | some (.str challenge),some (.str origin) =>
      if (parsed.get "type").bind Json.asString ≠ some expectedType ∨ ¬ isUncrossed (parsed.get "crossOrigin") then
        throw (passkeyFailure "client data type, challenge, origin, or cross-origin flag is invalid")
      else if origin ∉ config.origins then throw (passkeyFailure "origin is not allowed")
      else return ⟨challenge,origin,bytes⟩
    | _,_ => throw (passkeyFailure "client data type, challenge, origin, or cross-origin flag is invalid")
  | _ => throw (passkeyFailure "clientDataJSON must be an object")

def passkeyChallengeFromClientData (encoded : String) : Except AuthServiceError String := do
  let (_,parsed) ← parsedClientData encoded
  match parsed with
  | .obj _ =>
    match parsed.get "challenge" with
    | some (.str challenge) => return challenge
    | _ => throw (passkeyFailure "clientDataJSON challenge is missing")
  | _ => throw (passkeyFailure "clientDataJSON challenge is missing")

/-- `getUint32`, at the head of the bytes. -/
def bigEndian (bytes : List UInt8) : ℕ := bytes.foldl (fun n b => n * 256 + b.toNat) 0

/-- `parseAuthenticatorData(bytes, false)`. -/
def parseAuthenticatorData (bytes : List UInt8) : Except AuthServiceError ParsedAuthenticatorData :=
  if bytes.length < 37 then .error (passkeyFailure "authenticator data is truncated")
  else
    let flags := bytes.getD 32 0
    if flags &&& 0x80 ≠ 0 then .error (passkeyFailure "authenticator extensions are unsupported")
    else if flags &&& 0x40 ≠ 0 ∨ bytes.length ≠ 37 then
      .error (passkeyFailure "authentication data has unexpected trailing fields")
    else .ok ⟨bytes,flags,bigEndian ((bytes.drop 33).take 4)⟩

def assertedCounter (input : PasskeyAuthenticationResponse) : Except AuthServiceError ℕ := do
  let bytes ← safeBytes input.authenticatorData "authenticatorData"
  let authData ← parseAuthenticatorData bytes
  return authData.counter

def validateAuthenticator (platform : Platform) (parsed : ParsedAuthenticatorData) (config : PasskeyTenantConfig) :
    Except AuthServiceError Unit :=
  if parsed.bytes.take 32 ≠ platform.sha256 (encodeUtf8 config.rpId.toList) then
    .error (passkeyFailure "RP ID hash does not match")
  else if parsed.flags &&& 0x01 = 0 then .error (passkeyFailure "user presence is required")
  else if config.requireUserVerification.getD true ∧ parsed.flags &&& 0x04 = 0 then
    .error (passkeyFailure "user verification is required")
  else .ok ()

/-- The signature counter of an assertion is above that of its passkey, unless that one is zero. -/
def requireCounter (passkey : PasskeyRecord) (authData : ParsedAuthenticatorData) : Except AuthServiceError Unit :=
  if passkey.counter > 0 ∧ authData.counter ≤ passkey.counter then
    .error (passkeyFailure "signature counter did not increase")
  else .ok ()

/-- The checks of an assertion before its signature. -/
def checkAssertion (platform : Platform) (config : PasskeyTenantConfig) (passkey : PasskeyRecord)
    (input : PasskeyAuthenticationResponse) :
    Except AuthServiceError (ClientData × ParsedAuthenticatorData × List UInt8 × List UInt8) := do
  if input.credentialId ≠ passkey.credentialId then
    throw (passkeyFailure "credential id does not match stored passkey")
  let client ← clientData input.clientDataJSON "webauthn.get" config
  let authDataBytes ← safeBytes input.authenticatorData "authenticatorData"
  let signature ← safeBytes input.signature "signature"
  let authData ← parseAuthenticatorData authDataBytes
  validateAuthenticator platform authData config
  requireCounter passkey authData
  let coseBytes ← safeBytes passkey.publicKey "stored public key"
  return (client,authData,signature,coseBytes)

def verifyPasskeyAuthentication (platform : Platform) (config : PasskeyTenantConfig) (passkey : PasskeyRecord)
    (input : PasskeyAuthenticationResponse) : AuthProgram VerifiedPasskeyAuthentication := do
  let (client,authData,signature,coseBytes) ← AuthProgram.fromExcept (checkAssertion platform config passkey input)
  let cose ← AuthProgram.fromExcept (← AuthProgram.query (.importCoseKey coseBytes))
  if cose.algorithm ≠ passkey.algorithm then
    throw (passkeyFailure "stored passkey algorithm does not match its key")
  let verified ← AuthProgram.fromExcept
    (← AuthProgram.query (.verifySignature cose signature (authData.bytes ++ platform.sha256 client.bytes)))
  if ¬ verified then throw (passkeyFailure "authentication signature is invalid")
  return ⟨client.challenge,authData.counter⟩

end Webauthn
end StructureAi.Identity

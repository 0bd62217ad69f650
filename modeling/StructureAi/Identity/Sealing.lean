import StructureAi.Foundation.Separated
import StructureAi.Identity.AuthOperations

/-! # Second-factor material at rest

The secret of a second factor is stored sealed, as `v1:<iv>:<ciphertext>`, and a recovery code as
a salted digest, `v1:<salt>:<mac>`, each under a key of its own that is derived from the secret of
the instance. What was stored before sealing existed has no such prefix and is taken as it is.
-/
namespace StructureAi.Identity
open StructureAi.Foundation

/-- What WebCrypto computes: keys by HKDF-SHA-256, AES-256-GCM and HMAC. -/
structure WebCrypto where
  deriveKey (secret salt info : List UInt8) : List UInt8
  encrypt (key iv plaintext : List UInt8) : List UInt8
  /-- `none` where the ciphertext does not authenticate. -/
  decrypt (key iv ciphertext : List UInt8) : Option (List UInt8)
  hmacSha256 (key message : List UInt8) : List UInt8
  hmacSha1 (key message : List UInt8) : List UInt8
  decrypt_encrypt : ∀ key iv plaintext, decrypt key iv (encrypt key iv plaintext) = some plaintext
  /-- A ciphertext ends in its tag. -/
  encrypt_ne_nil : ∀ key iv plaintext, encrypt key iv plaintext ≠ []
  hmacSha256_ne_nil : ∀ key message, hmacSha256 key message ≠ []

namespace Sealing

def VERSION : String := "v1"

def HKDF_SALT : String := "structure-auth/second-factor"

def constantTimeEqual (a b : List UInt8) : Bool :=
  a.length = b.length && (a.zip b).foldl (fun diff bytes => diff ||| (bytes.1 ^^^ bytes.2)) 0 = 0

def malformed : AuthServiceError := .authValidationError "sealed-value" "is malformed"

def isSealed (stored : String) : Bool := (VERSION ++ ":").toList.isPrefixOf stored.toList

def parse (stored : String) : Except AuthServiceError (List UInt8 × List UInt8) :=
  match (stored.toList.splitOn ':').map String.ofList with
  | [version,first,second] =>
    if version ≠ VERSION ∨ first = "" ∨ second = "" then .error malformed
    else match decodeBase64Url first,decodeBase64Url second with
      | some first,some second => .ok (first,second)
      | _,_ => .error malformed
  | _ => .error malformed

def sealedText (first second : List UInt8) : String :=
  VERSION ++ ":" ++ encodeBase64Url first ++ ":" ++ encodeBase64Url second

def saltedCode (salt : List UInt8) (code : String) : List UInt8 := salt ++ encodeUtf8 code.toList

theorem constantTimeEqual_iff {a b : List UInt8} : constantTimeEqual a b = true ↔ a = b := by
  have hfold := foldl_differences (fun _ _ => UInt8.or_eq_zero_iff) (fun _ _ => UInt8.xor_eq_zero_iff) a
  rw [constantTimeEqual,Bool.and_eq_true,decide_eq_true_eq,decide_eq_true_eq]
  constructor
  · rintro ⟨hl,hdiff⟩
    exact ((hfold b 0 hl).mp hdiff).2
  · rintro rfl
    exact ⟨rfl,(hfold a 0 rfl).mpr ⟨rfl,rfl⟩⟩

theorem colon_not_mem (bytes : List UInt8) : ':' ∉ (encodeBase64Url bytes).toList := by
  rw [encodeBase64Url_eq]
  intro hin
  obtain ⟨n,hn,he⟩ := List.mem_map.mp hin
  have hkind : ∀ n < 64, toUrlChar (base64Char n) ≠ ':' := by decide
  exact hkind n (sextets_lt bytes n hn) he

theorem encodeBase64Url_ne_empty {bytes : List UInt8} (h : bytes ≠ []) : encodeBase64Url bytes ≠ "" := by
  intro hempty
  have hnil : encodeBase64Url [] = "" := by decide
  exact h (encodeBase64Url_injective (hempty.trans hnil.symm))

theorem isSealed_sealedText (first second : List UInt8) : isSealed (sealedText first second) = true := by
  rw [isSealed,List.isPrefixOf_iff_prefix]
  refine ⟨(encodeBase64Url first ++ ":" ++ encodeBase64Url second).toList,?_⟩
  simp [sealedText]

theorem parse_sealedText {first second : List UInt8} (hfirst : first ≠ []) (hsecond : second ≠ []) :
    parse (sealedText first second) = .ok (first,second) := by
  have hjoined : (sealedText first second).toList =
      [':'].intercalate [VERSION.toList,(encodeBase64Url first).toList,(encodeBase64Url second).toList] := by
    simp [sealedText,List.intercalate_cons_cons]
  have hsplit : (sealedText first second).toList.splitOn ':' =
      [VERSION.toList,(encodeBase64Url first).toList,(encodeBase64Url second).toList] := by
    rw [hjoined,List.splitOn_intercalate]
    · intro piece hin
      simp only [List.mem_cons,List.not_mem_nil,or_false] at hin
      rcases hin with rfl | rfl | rfl
      · decide
      · exact colon_not_mem first
      · exact colon_not_mem second
    · exact List.cons_ne_nil _ _
  have hkept : ¬ (VERSION ≠ VERSION ∨ encodeBase64Url first = "" ∨ encodeBase64Url second = "") := by
    rintro (h | h | h)
    · exact h rfl
    · exact encodeBase64Url_ne_empty hfirst h
    · exact encodeBase64Url_ne_empty hsecond h
  simp only [parse,hsplit,List.map_cons,List.map_nil,String.ofList_toList]
  rw [if_neg hkept]
  simp only [decodeBase64Url_encodeBase64Url]

end Sealing

/-- `makeSecondFactorSealer(secret)`. -/
structure SecondFactorSealer where
  crypto : WebCrypto
  secret : String

structure DerivedKeys where
  aes : List UInt8
  mac : List UInt8

namespace SecondFactorSealer
open AuthProgram Sealing
variable (s : SecondFactorSealer)

section Operations

def deriveKeys : DerivedKeys where
  aes := s.crypto.deriveKey (encodeUtf8 s.secret.toList) (encodeUtf8 HKDF_SALT.toList) (encodeUtf8 "totp-secret/v1".toList)
  mac := s.crypto.deriveKey (encodeUtf8 s.secret.toList) (encodeUtf8 HKDF_SALT.toList) (encodeUtf8 "recovery-code/v1".toList)

def keys : Except AuthServiceError DerivedKeys :=
  if s.secret = "" then .error (.authValidationError "secret" "must not be empty") else .ok s.deriveKeys

/-- A secret as it is sealed under an initialisation vector. -/
def sealedSecret (iv : List UInt8) (secretBase32 : String) : String :=
  sealedText iv (s.crypto.encrypt s.deriveKeys.aes iv (encodeUtf8 secretBase32.toList))

def digest (salt : List UInt8) (code : String) : List UInt8 := s.crypto.hmacSha256 s.deriveKeys.mac (saltedCode salt code)

/-- A recovery code as it is hashed with a salt. -/
def hashedCode (salt : List UInt8) (code : String) : String := sealedText salt (s.digest salt code)

def seal_ (secretBase32 : String) : AuthProgram String := do
  let _ ← fromExcept s.keys
  let iv ← query (.randomBytes 12)
  return s.sealedSecret iv.1 secretBase32

def open_ (stored : String) : Except AuthServiceError String :=
  if isSealed stored then do
    let keys ← s.keys
    let (iv,ciphertext) ← parse stored
    match s.crypto.decrypt keys.aes iv ciphertext with
    | none => throw (.authDependencyError "second-factor-sealing" "open-totp-secret")
    | some plaintext => return String.ofList (decodeText plaintext)
  else return stored

def hashRecoveryCode (code : String) : AuthProgram String := do
  let _ ← fromExcept s.keys
  let salt ← query (.randomBytes 16)
  return s.hashedCode salt.1 code

def matchRecoveryCode (legacyHash : String → String) (code stored : String) : Bool :=
  if isSealed stored then
    match s.keys,parse stored with
    | .ok _,.ok (salt,expected) => constantTimeEqual (s.digest salt code) expected
    | _,_ => false
  else constantTimeEqual (encodeUtf8 (legacyHash code).toList) (encodeUtf8 stored.toList)

end Operations

section RoundTrips
variable {s}

theorem keys_ok (h : s.secret ≠ "") : s.keys = .ok s.deriveKeys := if_neg h

theorem open_sealedSecret (h : s.secret ≠ "") {iv : List UInt8} (hiv : iv ≠ []) {c : Char} {cs : List Char}
    (hc : c.toNat < 0x80) :
    s.open_ (s.sealedSecret iv (String.ofList (c :: cs))) = .ok (String.ofList (c :: cs)) := by
  have hparse := parse_sealedText hiv (s.crypto.encrypt_ne_nil s.deriveKeys.aes iv (encodeUtf8 (c :: cs)))
  rw [open_,sealedSecret,String.toList_ofList,isSealed_sealedText,if_pos rfl,keys_ok h,hparse]
  simp only [bind,Except.bind,s.crypto.decrypt_encrypt,decodeText_encodeUtf8 hc]
  rfl

theorem matchRecoveryCode_hashedCode (h : s.secret ≠ "") {salt : List UInt8} (hsalt : salt ≠ []) {legacyHash : String → String}
    {code code' : String} :
    s.matchRecoveryCode legacyHash code' (s.hashedCode salt code) = true ↔ s.digest salt code' = s.digest salt code := by
  have hparse := parse_sealedText hsalt (s.crypto.hmacSha256_ne_nil s.deriveKeys.mac (saltedCode salt code))
  rw [matchRecoveryCode,hashedCode,isSealed_sealedText,if_pos rfl,keys_ok h,digest,hparse]
  exact constantTimeEqual_iff

theorem sealedSecret_isSealed (iv : List UInt8) (secretBase32 : String) : isSealed (s.sealedSecret iv secretBase32) = true :=
  isSealed_sealedText _ _

end RoundTrips
end SecondFactorSealer
end StructureAi.Identity

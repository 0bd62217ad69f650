import StructureAi.Identity.ApiKeys
import StructureAi.Identity.Base32
import StructureAi.Identity.Sealing

/-! # Time-based one-time codes

A code is a truncated HMAC of the secret and the number of a half minute, in six digits. It is
accepted in the half minute it is for and in the ones beside it, and the last of these that has
the code is answered.
-/
namespace StructureAi.Identity
open StructureAi.Foundation

/-- The platform of the one-time codes. -/
structure TotpPlatform where
  crypto : WebCrypto
  toUpperCase : String → String
  ascii_upper : ∀ text : String, (∀ c ∈ text.toList, c.toNat < 0x80) →
    toUpperCase text = String.ofList (text.toList.map Char.toUpper)

namespace Totp

section Codes

/-- `view.setUint32`, of any number. -/
def uint32Bytes (n : ℤ) : List UInt8 :=
  let m := (n % 2 ^ 32).toNat
  [UInt8.ofNat (m / 2 ^ 24),UInt8.ofNat (m / 2 ^ 16),UInt8.ofNat (m / 2 ^ 8),UInt8.ofNat m]

def counterBytes (counter : ℤ) : List UInt8 := uint32Bytes (counter / 2 ^ 32) ++ uint32Bytes (counter.tmod (2 ^ 32))

/-- `String(n).padStart(6, "0")`. -/
def sixDigits (n : ℕ) : String :=
  let digits := Nat.toDigits 10 n
  String.ofList (List.replicate (6 - digits.length) '0' ++ digits)

variable (p : TotpPlatform)

def codeOf (secret : List UInt8) (counter : ℤ) : String :=
  let digest := p.crypto.hmacSha1 secret (counterBytes counter)
  let offset := (digest.getLastD 0 &&& 0x0f).toNat
  let byte0 := (digest.getD offset 0 &&& 0x7f).toNat
  let byte1 := (digest.getD (offset + 1) 0).toNat
  let byte2 := (digest.getD (offset + 2) 0).toNat
  let byte3 := (digest.getD (offset + 3) 0).toNat
  let binary := byte0 <<< 24 ||| byte1 <<< 16 ||| byte2 <<< 8 ||| byte3
  sixDigits (binary % 1000000)

def hotp (secret : List UInt8) (counter : ℤ) : Except AuthServiceError String :=
  if secret = [] then .error (.authDependencyError "hmac-sha1" "hotp") else .ok (codeOf p secret counter)

def TOTP_STEP_SECONDS : ℤ := 30

def timeCounter (at_ : ℤ) : ℤ := at_ / (1000 * TOTP_STEP_SECONDS)

def decodeSecret (secretBase32 : String) : Except AuthServiceError (List UInt8) :=
  (base32Decode p.toUpperCase secretBase32).mapError fun e => .authValidationError e.field e.reason

def totpCode (secretBase32 : String) (at_ : ℤ) : Except AuthServiceError String := do
  let secret ← decodeSecret p secretBase32
  hotp p secret (timeCounter at_)

/-- `/^\d{6}$/u`. -/
def isTotpCode (code : String) : Bool := code.toList.length = 6 && code.toList.all Char.isDigit

def lastMatch (code : String) (candidates : List (ℤ × String)) : Option ℤ :=
  candidates.foldl (fun matched candidate => if timingSafeEqual candidate.2 code then some candidate.1 else matched) none

def matchTotpCode (secretBase32 code : String) (at_ : ℤ) : Except AuthServiceError (Option ℤ) :=
  if ¬ isTotpCode code then .ok none
  else do
    let secret ← decodeSecret p secretBase32
    let current := timeCounter at_
    let steps := [current - 1,current,current + 1]
    let candidates ← steps.mapM (hotp p secret)
    return lastMatch code (steps.zip candidates)

def verifyTotpCode (secretBase32 code : String) (at_ : ℤ) : Except AuthServiceError Bool := do
  let step ← matchTotpCode p secretBase32 code at_
  return step.isSome

def secretText (bytes : List UInt8) : String := base32Encode bytes

/-- A recovery code as it is drawn, from eight bytes. -/
def recoveryCode (bytes : List UInt8) : String :=
  let text := (base32Encode bytes).toList.map Char.toLower
  String.ofList (text.take 5 ++ '-' :: (text.drop 5).take 5)

end Codes

section Shapes

theorem isTotpCode_sixDigits {n : ℕ} (h : n < 1000000) : isTotpCode (sixDigits n) = true := by
  have hlength : (Nat.toDigits 10 n).length ≤ 6 := (Nat.length_toDigits_le_iff (by decide) (by decide)).mpr h
  rw [isTotpCode,sixDigits,String.toList_ofList,Bool.and_eq_true,decide_eq_true_eq,List.all_append,Bool.and_eq_true]
  refine ⟨?_,?_,?_⟩
  · rw [List.length_append,List.length_replicate]
    omega
  · exact List.all_replicate.trans (by simp)
  · exact List.all_eq_true.mpr (isDigit_toDigits n)

variable {p : TotpPlatform} {secret : List UInt8} {secretBase32 code : String} {at_ step counter : ℤ}

theorem isTotpCode_codeOf : isTotpCode (codeOf p secret counter) = true := isTotpCode_sixDigits (Nat.mod_lt _ (by decide))

theorem hotp_eq_ok_iff : hotp p secret counter = .ok code ↔ secret ≠ [] ∧ codeOf p secret counter = code := by
  unfold hotp
  split
  · rename_i hempty
    simp [hempty]
  · rename_i hkey
    simp [hkey]

end Shapes

section Matching
variable {p : TotpPlatform} {secret : List UInt8} {secretBase32 code : String} {at_ at_' step : ℤ}

def window (at_ : ℤ) : List ℤ := [timeCounter at_ - 1,timeCounter at_,timeCounter at_ + 1]

theorem matchTotpCode_of_key (hcode : isTotpCode code = true) (hsecret : decodeSecret p secretBase32 = .ok secret)
    (hkey : secret ≠ []) :
    matchTotpCode p secretBase32 code at_ = .ok (lastMatch code ((window at_).map fun step => (step,codeOf p secret step))) := by
  have hhotp : ∀ step, hotp p secret step = .ok (codeOf p secret step) := fun step => if_neg hkey
  rw [matchTotpCode,if_neg (not_not.mpr hcode),hsecret]
  simp only [window,List.mapM_cons,List.mapM_nil,hhotp,bind,Except.bind,pure,Except.pure]
  rfl

theorem mem_window : step ∈ window at_ ↔ timeCounter at_ - 1 ≤ step ∧ step ≤ timeCounter at_ + 1 := by
  simp only [window,List.mem_cons,List.not_mem_nil,or_false]
  omega

theorem lastMatch_window : lastMatch code ((window at_).map fun step => (step,codeOf p secret step)) = some step ↔
    step ∈ window at_ ∧ codeOf p secret step = code ∧ ∀ later ∈ window at_, step < later → codeOf p secret later ≠ code := by
  have hlast : lastMatch code ((window at_).map fun step => (step,codeOf p secret step)) =
      if codeOf p secret (timeCounter at_ + 1) = code then some (timeCounter at_ + 1)
      else if codeOf p secret (timeCounter at_) = code then some (timeCounter at_)
      else if codeOf p secret (timeCounter at_ - 1) = code then some (timeCounter at_ - 1) else none := by
    simp only [lastMatch,window,List.map_cons,List.map_nil,List.foldl_cons,List.foldl_nil,timingSafeEqual_iff]
  rw [hlast]
  constructor
  · intro h
    split at h
    · rename_i hnext
      cases h
      refine ⟨mem_window.mpr (by omega),hnext,?_⟩
      intro later hin hlt
      have hbound := (mem_window.mp hin).2
      omega
    · rename_i hnext
      split at h
      · rename_i hcurrent
        cases h
        refine ⟨mem_window.mpr (by omega),hcurrent,?_⟩
        intro later hin hlt
        obtain rfl : later = timeCounter at_ + 1 := by
          have hbound := (mem_window.mp hin).2
          omega
        exact hnext
      · rename_i hcurrent
        obtain ⟨hprevious,hstep⟩ := Option.ite_none_right_eq_some.mp h
        cases hstep
        refine ⟨mem_window.mpr (by omega),hprevious,?_⟩
        intro later hin hlt
        have hbound := (mem_window.mp hin).2
        have hlater : later = timeCounter at_ ∨ later = timeCounter at_ + 1 := by omega
        rcases hlater with rfl | rfl
        · exact hcurrent
        · exact hnext
  · rintro ⟨hin,hcode,hnone⟩
    have hstep : step = timeCounter at_ - 1 ∨ step = timeCounter at_ ∨ step = timeCounter at_ + 1 := by
      have hbounds := mem_window.mp hin
      omega
    have hnext : timeCounter at_ + 1 ∈ window at_ := mem_window.mpr (by omega)
    have hcurrent : timeCounter at_ ∈ window at_ := mem_window.mpr (by omega)
    rcases hstep with rfl | rfl | rfl
    · rw [if_neg (hnone _ hnext (by omega)),if_neg (hnone _ hcurrent (by omega)),if_pos hcode]
    · rw [if_neg (hnone _ hnext (by omega)),if_pos hcode]
    · rw [if_pos hcode]

/-- A code is accepted as that of a step: it is the code of the step, which the time is in or beside, and of no later
one of these. -/
theorem matchTotpCode_eq_some_iff : matchTotpCode p secretBase32 code at_ = .ok (some step) ↔
    ∃ secret, decodeSecret p secretBase32 = .ok secret ∧ hotp p secret step = .ok code ∧ step ∈ window at_ ∧
      ∀ later ∈ window at_, step < later → hotp p secret later ≠ .ok code := by
  constructor
  · intro h
    by_cases hcode : isTotpCode code = true
    · cases hsecret : decodeSecret p secretBase32 with
      | error e =>
        rw [matchTotpCode,if_neg (not_not.mpr hcode),hsecret] at h
        cases h
      | ok secret =>
        by_cases hkey : secret = []
        · rw [matchTotpCode,if_neg (not_not.mpr hcode),hsecret,hkey] at h
          cases h
        · rw [matchTotpCode_of_key hcode hsecret hkey] at h
          obtain ⟨hin,hsame,hnone⟩ := lastMatch_window.mp (Except.ok.inj h)
          refine ⟨secret,rfl,hotp_eq_ok_iff.mpr ⟨hkey,hsame⟩,hin,?_⟩
          intro later hlater hlt hhotp
          exact hnone later hlater hlt (hotp_eq_ok_iff.mp hhotp).2
    · rw [matchTotpCode,if_pos hcode] at h
      cases h
  · rintro ⟨secret,hsecret,hhotp,hin,hnone⟩
    obtain ⟨hkey,rfl⟩ := hotp_eq_ok_iff.mp hhotp
    rw [matchTotpCode_of_key isTotpCode_codeOf hsecret hkey]
    have hlast : ∀ later ∈ window at_, step < later → codeOf p secret later ≠ codeOf p secret step :=
      fun later hlater hlt hsame => hnone later hlater hlt (hotp_eq_ok_iff.mpr ⟨hkey,hsame⟩)
    exact congrArg Except.ok (lastMatch_window.mpr ⟨hin,rfl,hlast⟩)

theorem exists_last (hin : step ∈ window at_) (hcode : codeOf p secret step = code) :
    ∃ last ∈ window at_, step ≤ last ∧ codeOf p secret last = code ∧
      ∀ later ∈ window at_, last < later → codeOf p secret later ≠ code := by
  have hbounds := mem_window.mp hin
  by_cases hnext : codeOf p secret (timeCounter at_ + 1) = code
  · refine ⟨timeCounter at_ + 1,mem_window.mpr (by omega),by omega,hnext,?_⟩
    intro later hlater hlt
    have hbound := (mem_window.mp hlater).2
    omega
  · have hstep : step ≠ timeCounter at_ + 1 := by
      rintro rfl
      exact hnext hcode
    by_cases hcurrent : codeOf p secret (timeCounter at_) = code
    · refine ⟨timeCounter at_,mem_window.mpr (by omega),by omega,hcurrent,?_⟩
      intro later hlater hlt
      obtain rfl : later = timeCounter at_ + 1 := by
        have hbound := (mem_window.mp hlater).2
        omega
      exact hnext
    · refine ⟨step,hin,le_refl step,hcode,?_⟩
      intro later hlater hlt
      have hlater' : later = timeCounter at_ ∨ later = timeCounter at_ + 1 := by
        have hbound := (mem_window.mp hlater).2
        omega
      rcases hlater' with rfl | rfl
      · exact hcurrent
      · exact hnext

theorem matchTotpCode_totpCode (hcode : totpCode p secretBase32 at_' = .ok code)
    (hclock : |at_ - at_'| ≤ 1000 * TOTP_STEP_SECONDS) :
    ∃ step, matchTotpCode p secretBase32 code at_ = .ok (some step) ∧ timeCounter at_' ≤ step := by
  cases hsecret : decodeSecret p secretBase32 with
  | error e =>
    rw [totpCode,hsecret] at hcode
    cases hcode
  | ok secret =>
    rw [totpCode,hsecret] at hcode
    obtain ⟨hkey,hsame⟩ := hotp_eq_ok_iff.mp hcode
    have hin : timeCounter at_' ∈ window at_ := by
      obtain ⟨hlow,hhigh⟩ := abs_le.mp hclock
      rw [mem_window]
      simp only [timeCounter,TOTP_STEP_SECONDS] at hlow hhigh ⊢
      omega
    obtain ⟨last,hlast,hle,hlastCode,hnone⟩ := exists_last hin hsame
    refine ⟨last,?_,hle⟩
    rw [matchTotpCode_of_key (hsame ▸ isTotpCode_codeOf) hsecret hkey]
    exact congrArg Except.ok (lastMatch_window.mpr ⟨hlast,hlastCode,hnone⟩)

theorem decodeSecret_secretText (bytes : List UInt8) : decodeSecret p (secretText bytes) = .ok bytes := by
  obtain ⟨⟨k,hk,hbits⟩,halphabet⟩ := base32Encode_bits bytes
  obtain ⟨hascii,hletters⟩ := (Respelled.refl (base32Encode bytes).toList).cleaned halphabet
  obtain ⟨s,hrun,hout⟩ := decoded_bytes halphabet hk hbits
  have hupper := p.ascii_upper (String.ofList ((base32Encode bytes).toList.filter fun c => !isSkipped c))
    (by rw [String.toList_ofList]; exact hascii)
  rw [String.toList_ofList,hletters] at hupper
  simp only [decodeSecret,base32Decode,secretText,hupper,String.toList_ofList,hrun,hout]
  rfl

theorem secretText_cons (p : TotpPlatform) {bytes : List UInt8} (h : bytes ≠ []) :
    ∃ c cs, secretText bytes = String.ofList (c :: cs) ∧ c.toNat < 0x80 := by
  cases htext : (base32Encode bytes).toList with
  | nil =>
    have hempty : secretText bytes = secretText [] := String.toList_injective htext
    have hsame := (@decodeSecret_secretText p bytes).symm.trans (hempty ▸ @decodeSecret_secretText p [])
    exact absurd (Except.ok.inj hsame) h
  | cons c cs =>
    have hletter : c ∈ base32Alphabet := (base32Encode_bits bytes).2 c (htext ▸ List.mem_cons_self)
    refine ⟨c,cs,String.toList_injective ?_,alphabet_ascii hletter⟩
    rw [String.toList_ofList]
    exact htext

/-- Of a secret that was drawn, the codes of the three half minutes around the time are accepted, whatever clock within
half a minute of it they were read from, no others are, and the answer is never an error. -/
theorem drawn_secret_codes (p : TotpPlatform) (drawn : {buffer : List UInt8 // buffer.length = 20}) (code : String) (at_ : ℤ) :
    (∃ answer, matchTotpCode p (secretText drawn.1) code at_ = .ok answer) ∧
    (∀ step, matchTotpCode p (secretText drawn.1) code at_ = .ok (some step) ↔ step ∈ window at_ ∧ codeOf p drawn.1 step = code ∧
      ∀ later ∈ window at_, step < later → codeOf p drawn.1 later ≠ code) ∧
    ∀ at_', |at_ - at_'| ≤ 1000 * TOTP_STEP_SECONDS → totpCode p (secretText drawn.1) at_' = .ok code →
      ∃ step, matchTotpCode p (secretText drawn.1) code at_ = .ok (some step) ∧ timeCounter at_' ≤ step := by
  obtain ⟨bytes,hlength⟩ := drawn
  have hkey : bytes ≠ [] := by
    rintro rfl
    cases hlength
  refine ⟨?_,?_,?_⟩
  · by_cases hcode : isTotpCode code = true
    · exact ⟨_,matchTotpCode_of_key hcode (decodeSecret_secretText bytes) hkey⟩
    · exact ⟨none,if_pos hcode⟩
  · intro step
    rw [matchTotpCode_eq_some_iff]
    constructor
    · rintro ⟨secret,hsecret,hhotp,hin,hnone⟩
      obtain rfl := Except.ok.inj ((decodeSecret_secretText bytes).symm.trans hsecret)
      refine ⟨hin,(hotp_eq_ok_iff.mp hhotp).2,?_⟩
      intro later hlater hlt hsame
      exact hnone later hlater hlt (hotp_eq_ok_iff.mpr ⟨hkey,hsame⟩)
    · rintro ⟨hin,hsame,hnone⟩
      refine ⟨bytes,decodeSecret_secretText bytes,hotp_eq_ok_iff.mpr ⟨hkey,hsame⟩,hin,?_⟩
      intro later hlater hlt hhotp
      exact hnone later hlater hlt (hotp_eq_ok_iff.mp hhotp).2
  · intro at_' hclock hcode
    exact matchTotpCode_totpCode hcode hclock

end Matching

end Totp
end StructureAi.Identity

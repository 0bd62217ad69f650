import StructureAi.Foundation.Bytes
import StructureAi.Foundation.Numeral
import StructureAi.Foundation.Program
import StructureAi.Identity.AuthStore

/-! # API keys

A key is minted once, as `sk_<keyId>_<pepperVersion>_<secret>`, and stored as an HMAC of its
secret under a versioned pepper. A key that verifies under a retired pepper is hashed again
under the current one. The store is in memory; the HMAC is a parameter. Times are milliseconds.
-/
namespace StructureAi.Identity
open StructureAi.Foundation

section Records

/-- A version of a pepper: a positive integer that is a number. -/
structure PepperVersion where
  number : ℕ
  positive : 0 < number
  finite : number < numberLimit
deriving DecidableEq

/-- `${version}`. -/
def PepperVersion.text (version : PepperVersion) : String := String.ofList (Decimal.ofInt version.number).text

structure Pepper where
  version : PepperVersion
  pepper : String
deriving DecidableEq

/-- `current` mints and rehashes; retired versions only verify. -/
structure ApiKeyPeppers where
  current : Pepper
  retired : List Pepper

structure ApiKeyRecord where
  tenantId : String
  keyId : String
  userId : String
  name : Option String
  scopes : List String
  secretHash : String
  pepperVersion : PepperVersion
  workspaceId : Option String
  expiresAt : Option ℤ
  createdAt : ℤ
  lastUsedAt : Option ℤ
  revokedAt : Option ℤ
deriving DecidableEq

def ApiKeyRecord.key (record : ApiKeyRecord) : String := scopedKey record.tenantId record.keyId

structure MintedApiKey where
  key : String
  record : ApiKeyRecord
deriving DecidableEq

structure ApiKeyPrincipal where
  id : String
  kind : String
  roles : List String
  tenantId : String
  apiKeyId : String
  scopes : List String
  workspaceId : Option String
deriving DecidableEq

structure ApiKeyStanding where
  userId : String
  tenantId : String
  keyId : String
  scopes : List String
  workspaceId : Option String
  principal : ApiKeyPrincipal
deriving DecidableEq

structure MintApiKeyInput where
  userId : String
  name : Option String
  scopes : List String
  workspaceId : Option String
  expiresAt : Option ℤ

inductive ApiKeyServiceError where
  | invalidCredentials (reason : String)
  | authDependencyError (dependency operation : String)
deriving DecidableEq

end Records

section Operations

inductive ApiKeyStoreOp where
  | create (record : ApiKeyRecord)
  | findByKeyId (tenantId keyId : String)
  | markUsed (tenantId keyId : String) (now : ℤ)
  | replaceHash (tenantId keyId secretHash : String) (pepperVersion : PepperVersion)
  | revoke (tenantId keyId : String) (now : ℤ)
  | listByUser (tenantId userId : String)

abbrev ApiKeyStoreOp.Answer : ApiKeyStoreOp → Type
  | findByKeyId _ _ => Option ApiKeyRecord
  | listByUser _ _ => List ApiKeyRecord
  | _ => Unit

abbrev ApiKeyTable := Records ApiKeyRecord.key

/-- The record under a key changes, if there is one. -/
def ApiKeyTable.update (t : ApiKeyTable) (tenantId keyId : String) (g : ApiKeyRecord → ApiKeyRecord) : ApiKeyTable :=
  (t.get (scopedKey tenantId keyId)).elim t fun current => t.set (g current)

/-- `inMemoryApiKeyStore`. -/
def ApiKeyTable.perform : (op : ApiKeyStoreOp) → ApiKeyTable → op.Answer × ApiKeyTable
  | .create record,t => ((),t.set record)
  | .findByKeyId tenantId keyId,t => (t.get (scopedKey tenantId keyId),t)
  | .markUsed tenantId keyId now,t => ((),t.update tenantId keyId fun current => {current with lastUsedAt := some now})
  | .replaceHash tenantId keyId secretHash pepperVersion,t =>
    ((),t.update tenantId keyId fun current => {current with secretHash, pepperVersion})
  | .revoke tenantId keyId now,t => ((),t.update tenantId keyId fun current => {current with revokedAt := some now})
  | .listByUser tenantId userId,t =>
    (t.rows.filter fun record => record.tenantId = tenantId && record.userId = userId,t)

inductive ApiKeyOp where
  | store (op : ApiKeyStoreOp)
  | now
  | randomBytes (bytes : ℕ)
  | resolveUser (tenantId userId : String)

abbrev ApiKeyOp.Reply : ApiKeyOp → Type
  | store op => op.Answer
  | now => ℤ
  | randomBytes bytes => {buffer : List UInt8 // buffer.length = bytes}
  | resolveUser _ _ => Except ApiKeyServiceError Bool

abbrev ApiKeyProgram (α : Type) := ExceptT ApiKeyServiceError (Program ApiKeyOp ApiKeyOp.Reply) α

namespace ApiKeyProgram

def perform (op : ApiKeyOp) : ApiKeyProgram op.Reply := ExceptT.lift (Program.perform op)

def store (op : ApiKeyStoreOp) : ApiKeyProgram op.Answer := perform (.store op)

def now : ApiKeyProgram ℤ := perform .now

def ofExcept {α : Type} (x : Except ApiKeyServiceError α) : ApiKeyProgram α := ExceptT.mk (pure x)

end ApiKeyProgram
end Operations

section Keys

def secretBytes : ℕ := 32

def keyIdBytes : ℕ := 12

/-- `Buffer.from(buffer).toString("hex")`. -/
def hexText (buffer : List UInt8) : String :=
  String.ofList (buffer.flatMap fun b => [Nat.digitChar (b.toNat / 16),Nat.digitChar (b.toNat % 16)])

/-- Constant-time comparison of two equal-length strings. -/
def timingSafeEqual (a b : String) : Bool :=
  (codeUnits a).length = (codeUnits b).length &&
    ((codeUnits a).zip (codeUnits b)).foldl (fun diff units => diff ||| (units.1 ^^^ units.2)) 0 = 0

structure ParsedKey where
  keyId : String
  version : Decimal
  secret : String

def keyShape : ApiKeyServiceError := .invalidCredentials "api-key-shape"

def parseKey (raw : String) : Except ApiKeyServiceError ParsedKey :=
  match (raw.toList.splitOn '_').map String.ofList with
  | [keyPrefix,keyId,version,secret] =>
    if keyPrefix ≠ "sk" then .error keyShape
    else match numberOf version with
      | none => .error keyShape
      | some version =>
        if (codeUnits keyId).length = 0 ∨ (codeUnits secret).length < 32 ∨ ¬ version.IsPositiveInteger then
          .error keyShape
        else .ok ⟨keyId,version,secret⟩
  | _ => .error keyShape

/-- `sk_<keyId>_<pepperVersion>_<secret>`. -/
def keyText (keyId : String) (version : PepperVersion) (secret : String) : String :=
  "sk" ++ "_" ++ keyId ++ "_" ++ version.text ++ "_" ++ secret

def ApiKeyPeppers.all (peppers : ApiKeyPeppers) : List Pepper := peppers.current :: peppers.retired

def pepperFor (peppers : ApiKeyPeppers) (version : PepperVersion) : Option String :=
  (peppers.all.find? fun entry => entry.version = version).map Pepper.pepper

theorem timingSafeEqual_iff {a b : String} : timingSafeEqual a b = true ↔ a = b := by
  have hfold := foldl_differences (fun _ _ => Nat.or_eq_zero_iff) (fun _ _ => Nat.xor_eq_zero_iff) (codeUnits a)
  rw [timingSafeEqual,Bool.and_eq_true,decide_eq_true_eq,decide_eq_true_eq]
  constructor
  · rintro ⟨hl,hdiff⟩
    exact codeUnits_injective ((hfold _ 0 hl).mp hdiff).2
  · rintro rfl
    exact ⟨rfl,(hfold _ 0 rfl).mpr ⟨rfl,rfl⟩⟩

theorem hexDigit_kind : ∀ n < 16, Nat.digitChar n ≠ '_' ∧ Nat.digitChar n ≠ '\x00' ∧
    (unitsOf (Nat.digitChar n)).length = 1 := by decide

theorem hexText_digit {buffer : List UInt8} {c : Char} (hc : c ∈ (hexText buffer).toList) :
    ∃ n < 16, c = Nat.digitChar n := by
  rw [hexText,String.toList_ofList,List.mem_flatMap] at hc
  obtain ⟨b,-,hc⟩ := hc
  have hb := b.toNat_lt
  rcases List.mem_cons.mp hc with rfl | hc
  · exact ⟨b.toNat / 16,by omega,rfl⟩
  · exact ⟨b.toNat % 16,by omega,List.mem_singleton.mp hc⟩

theorem hexText_kind (buffer : List UInt8) : '_' ∉ (hexText buffer).toList ∧ '\x00' ∉ (hexText buffer).toList ∧
    (codeUnits (hexText buffer)).length = 2 * buffer.length := by
  constructor
  · intro h
    obtain ⟨n,hn,he⟩ := hexText_digit h
    exact (hexDigit_kind n hn).1 he.symm
  · constructor
    · intro h
      obtain ⟨n,hn,he⟩ := hexText_digit h
      exact (hexDigit_kind n hn).2.1 he.symm
    · rw [codeUnits,hexText,String.toList_ofList]
      induction buffer with
      | nil => rfl
      | cons b buffer ih =>
        have hb := b.toNat_lt
        have h₁ := (hexDigit_kind (b.toNat / 16) (by omega)).2.2
        have h₂ := (hexDigit_kind (b.toNat % 16) (by omega)).2.2
        rw [List.flatMap_cons,List.flatMap_append,List.length_append,ih]
        simp only [List.flatMap_cons,List.flatMap_nil,List.length_append,List.length_nil,List.length_cons,h₁,h₂]
        omega

theorem hexText_injective : Function.Injective hexText := by
  have hdigit : ∀ n < 16, ∀ m < 16, Nat.digitChar n = Nat.digitChar m → n = m := by decide
  have hlist : ∀ a b : List UInt8, (a.flatMap fun u => [Nat.digitChar (u.toNat / 16),Nat.digitChar (u.toNat % 16)]) =
      (b.flatMap fun u => [Nat.digitChar (u.toNat / 16),Nat.digitChar (u.toNat % 16)]) → a = b := by
    intro a
    induction a with
    | nil =>
      intro b h
      cases b with
      | nil => rfl
      | cons v b => cases h
    | cons u a ih =>
      intro b h
      cases b with
      | nil => cases h
      | cons v b =>
        have hu := u.toNat_lt
        have hv := v.toNat_lt
        obtain ⟨hhigh,h⟩ := List.cons.inj h
        obtain ⟨hlow,h⟩ := List.cons.inj h
        have h₁ := hdigit _ (by omega) _ (by omega) hhigh
        have h₂ := hdigit _ (by omega) _ (by omega) hlow
        rw [ih b h,UInt8.toNat_inj.mp (show u.toNat = v.toNat by omega)]
  intro a b h
  exact hlist a b (String.ofList_injective h)

theorem not_mem_text (version : PepperVersion) : '_' ∉ version.text.toList := by
  rw [PepperVersion.text,String.toList_ofList]
  intro h
  have hchar := (Decimal.ofInt version.number).isNumberChar_text '_' h
  revert hchar
  unfold IsNumberChar
  decide

theorem parseKey_keyText {keyId secret : String} (version : PepperVersion) (hid : '_' ∉ keyId.toList)
    (hsecret : '_' ∉ secret.toList) (hne : (codeUnits keyId).length ≠ 0) (hl : 32 ≤ (codeUnits secret).length) :
    parseKey (keyText keyId version secret) = .ok ⟨keyId,.ofInt version.number,secret⟩ := by
  have hsplit : (keyText keyId version secret).toList.splitOn '_' =
      [['s','k'],keyId.toList,version.text.toList,secret.toList] := by
    have htext : (keyText keyId version secret).toList =
        ['s','k'] ++ '_' :: (keyId.toList ++ '_' :: (version.text.toList ++ '_' :: secret.toList)) := by
      simp [keyText]
    rw [htext,List.splitOn_append_cons_self_of_not_mem (by decide),List.splitOn_append_cons_self_of_not_mem hid,
      List.splitOn_append_cons_self_of_not_mem (not_mem_text version),List.splitOn_eq_singleton hsecret]
  have hpositive := isPositiveInteger_ofInt version.positive version.finite
  have hnumber : numberOf version.text = some (.ofInt version.number) := numberOf_text hpositive.1
  unfold parseKey
  rw [hsplit]
  simp only [List.map_cons,List.map_nil,String.ofList_toList,hnumber]
  rw [if_neg (by decide),if_neg]
  simp [hne,hpositive,hl]

end Keys

structure MakeApiKeysOptions where
  peppers : ApiKeyPeppers
  /-- `resolveUser` is given. -/
  resolvesUser : Bool

namespace ApiKeys
variable (hmac : List UInt8 → List UInt8 → List UInt8) (o : MakeApiKeysOptions)

def hmacSha256 (pepper value : String) : String :=
  encodeBase64Url (hmac (encodeUtf8 pepper.toList) (encodeUtf8 value.toList))

theorem hmacSha256_injective {hmac : List UInt8 → List UInt8 → List UInt8} (h : ∀ key, Function.Injective (hmac key))
    (pepper : String) : Function.Injective (hmacSha256 hmac pepper) := by
  intro a b hab
  exact String.toList_injective (encodeUtf8_injective (h _ (encodeBase64Url_injective hab)))

def randomHex (bytes : ℕ) : ApiKeyProgram String := do
  let buffer ← ApiKeyProgram.perform (.randomBytes bytes)
  return hexText buffer.1

def mint (tenantId : String) (input : MintApiKeyInput) : ApiKeyProgram MintedApiKey := do
  let keyId ← randomHex keyIdBytes
  let secret ← randomHex secretBytes
  let record : ApiKeyRecord :=
    { tenantId, keyId, userId := input.userId, name := input.name, scopes := input.scopes
      secretHash := hmacSha256 hmac o.peppers.current.pepper secret, pepperVersion := o.peppers.current.version
      workspaceId := input.workspaceId, expiresAt := input.expiresAt, createdAt := ← ApiKeyProgram.now
      lastUsedAt := none, revokedAt := none }
  ApiKeyProgram.store (.create record)
  return ⟨keyText keyId o.peppers.current.version secret,record⟩

def standingOf (tenantId : String) (record : ApiKeyRecord) : ApiKeyStanding where
  userId := record.userId
  tenantId := tenantId
  keyId := record.keyId
  scopes := record.scopes
  workspaceId := record.workspaceId
  principal :=
    { id := "apikey:" ++ record.keyId, kind := "service", roles := ["machine"], tenantId
      apiKeyId := record.keyId, scopes := record.scopes, workspaceId := record.workspaceId }

def requireUnexpired (record : ApiKeyRecord) : ApiKeyProgram Unit :=
  match record.expiresAt with
  | none => pure ()
  | some expiresAt => do
    if expiresAt ≤ (← ApiKeyProgram.now) then throw (.invalidCredentials "api-key-expired")

/-- A dead owning user fails before any workspace or scope answer. -/
def requireStanding (tenantId : String) (record : ApiKeyRecord) : ApiKeyProgram Unit :=
  if o.resolvesUser then do
    let alive ← ApiKeyProgram.ofExcept (← ApiKeyProgram.perform (.resolveUser tenantId record.userId))
    if alive then pure () else throw (.invalidCredentials "api-key-user")
  else pure ()

/-- The first successful use under an old pepper hashes again. -/
def rehash (tenantId : String) (record : ApiKeyRecord) (secret : String) : ApiKeyProgram Unit :=
  if record.pepperVersion ≠ o.peppers.current.version then
    ApiKeyProgram.store (.replaceHash tenantId record.keyId (hmacSha256 hmac o.peppers.current.pepper secret)
      o.peppers.current.version)
  else pure ()

def verify (tenantId rawKey : String) : ApiKeyProgram ApiKeyStanding := do
  let parsed ← ApiKeyProgram.ofExcept (parseKey rawKey)
  match ← ApiKeyProgram.store (.findByKeyId tenantId parsed.keyId) with
  | none => throw (.invalidCredentials "api-key")
  | some record =>
    if record.revokedAt.isSome then throw (.invalidCredentials "api-key-revoked")
    else
      requireUnexpired record
      requireStanding o tenantId record
      match pepperFor o.peppers record.pepperVersion with
      | none => throw (.invalidCredentials "api-key-pepper-retired")
      | some pepper =>
        if timingSafeEqual (hmacSha256 hmac pepper parsed.secret) record.secretHash then
          rehash hmac o tenantId record parsed.secret
          ApiKeyProgram.store (.markUsed tenantId record.keyId (← ApiKeyProgram.now))
          return standingOf tenantId record
        else throw (.invalidCredentials "api-key")

def revoke (tenantId keyId : String) : ApiKeyProgram Unit := do
  ApiKeyProgram.store (.revoke tenantId keyId (← ApiKeyProgram.now))

def listByUser (tenantId userId : String) : ApiKeyProgram (List ApiKeyRecord) :=
  ApiKeyProgram.store (.listByUser tenantId userId)

end ApiKeys

section Instances

inductive ApiKeyRequest where
  | mint (input : MintApiKeyInput)
  | verify (rawKey : String)
  | revoke (keyId : String)
  | listByUser (userId : String)

/-- A request of a tenant, to an instance with its peppers. -/
structure ApiKeyCall where
  options : MakeApiKeysOptions
  tenantId : String
  request : ApiKeyRequest

inductive ApiKeyAnswer where
  | minted (key : MintedApiKey)
  | standing (standing : ApiKeyStanding)
  | done
  | records (records : List ApiKeyRecord)
deriving DecidableEq

def ApiKeyCall.program (hmac : List UInt8 → List UInt8 → List UInt8) (call : ApiKeyCall) :
    ApiKeyProgram ApiKeyAnswer :=
  match call.request with
  | .mint input => do return .minted (← ApiKeys.mint hmac call.options call.tenantId input)
  | .verify rawKey => do return .standing (← ApiKeys.verify hmac call.options call.tenantId rawKey)
  | .revoke keyId => do
    ApiKeys.revoke call.tenantId keyId
    return .done
  | .listByUser userId => do return .records (← ApiKeys.listByUser call.tenantId userId)

/-- The clock, the random bytes and the standing of users, at the operation of a number. -/
structure ApiKeyEnvironment where
  now : ℕ → ℤ
  randomBytes : ℕ → (bytes : ℕ) → {buffer : List UInt8 // buffer.length = bytes}
  resolveUser : ℕ → String → String → Except ApiKeyServiceError Bool

/-- The store, and what was answered so far, the latest first. -/
structure ApiKeyWorld where
  keys : ApiKeyTable
  history : List (Answered ApiKeyOp ApiKeyOp.Reply)

variable (env : ApiKeyEnvironment)

def ApiKeyEnvironment.answer : (op : ApiKeyOp) → ApiKeyWorld → op.Reply × ApiKeyTable
  | .store op,w => w.keys.perform op
  | .now,w => (env.now w.history.length,w.keys)
  | .randomBytes bytes,w => (env.randomBytes w.history.length bytes,w.keys)
  | .resolveUser tenantId userId,w => (env.resolveUser w.history.length tenantId userId,w.keys)

def ApiKeyEnvironment.handle (op : ApiKeyOp) (w : ApiKeyWorld) : op.Reply × ApiKeyWorld :=
  let answer := env.answer op w
  (answer.1,⟨answer.2,⟨op,answer.1⟩ :: w.history⟩)

def apiKeyService (hmac : List UInt8 → List UInt8 → List UInt8) :
    Service ApiKeyOp ApiKeyOp.Reply ApiKeyCall (Except ApiKeyServiceError ApiKeyAnswer) ApiKeyWorld Empty where
  program call := call.program hmac
  handle _ _ op w := env.handle op w
  outside e _ := e.elim

def newApiKeyWorld : ApiKeyWorld := ⟨.empty,[]⟩

end Instances
end StructureAi.Identity

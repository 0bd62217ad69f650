import StructureAi.Foundation.Bytes
import StructureAi.Foundation.JsonFields
import StructureAi.Foundation.Program
import StructureAi.Foundation.Text

/-! # The authorization server

Its operations are programs over a store, a clock, a source of random tokens, the signing
keys and an audit sink. Hashes, tenants and URLs are functions of the options; times are
milliseconds. A signature verifies if it was made with the key over that input.
-/
namespace StructureAi.Auth
open StructureAi.Foundation

inductive AuthError where
  | authValidationError (field reason : String)
  | invalidCredentials (reason : String)
  | invalidAuthToken (purpose : String)
  | authDependencyError (dependency operation : String)
  | authStoreError (operation : String)
deriving DecidableEq

section Records

inductive ClientType where
  | confidential
  | public_
deriving DecidableEq

structure OAuthClientRecord where
  tenantId : String
  clientId : String
  clientName : Option String
  clientType : ClientType
  secretHash : Option String
  redirectUris : List String
  scopes : List String
  createdAt : ℤ
deriving DecidableEq

structure AuthorizationCodeRecord where
  tenantId : String
  codeHash : String
  clientId : String
  userId : String
  redirectUri : String
  scope : List String
  codeChallenge : String
  expiresAt : ℤ
  consumedAt : Option ℤ
deriving DecidableEq

inductive TokenKind where
  | access
  | refresh
deriving DecidableEq

structure OAuthTokenRecord where
  tenantId : String
  tokenId : String
  kind : TokenKind
  clientId : String
  userId : Option String
  scope : List String
  tokenHash : Option String
  familyId : Option String
  expiresAt : ℤ
  revokedAt : Option ℤ
  rotatedAt : Option ℤ
  createdAt : ℤ
deriving DecidableEq

structure ConsentRecord where
  tenantId : String
  clientId : String
  userId : String
  scope : List String
  grantedAt : ℤ
deriving DecidableEq

end Records

section Operations

/-- `OAuthServerStore`, without the end-session hints. -/
inductive StoreOp where
  | putClient (record : OAuthClientRecord)
  | findClient (tenantId clientId : String)
  | putAuthorizationCode (record : AuthorizationCodeRecord)
  | consumeAuthorizationCode (tenantId codeHash : String) (now : ℤ)
  | findConsent (tenantId clientId userId : String)
  | putConsent (record : ConsentRecord)
  | putToken (record : OAuthTokenRecord)
  | findTokenByHash (tenantId tokenHash : String)
  | findTokenById (tenantId tokenId : String)
  | revokeToken (tenantId tokenId : String) (now : ℤ)
  | rotateToken (tenantId tokenId : String) (now : ℤ)
  | revokeFamily (tenantId familyId : String) (now : ℤ)

abbrev StoreOp.Answer : StoreOp → Type
  | putClient _ => Unit
  | findClient _ _ => Option OAuthClientRecord
  | putAuthorizationCode _ => Unit
  | consumeAuthorizationCode _ _ _ => Option AuthorizationCodeRecord
  | findConsent _ _ _ => Option ConsentRecord
  | putConsent _ => Unit
  | putToken _ => Unit
  | findTokenByHash _ _ => Option OAuthTokenRecord
  | findTokenById _ _ => Option OAuthTokenRecord
  | revokeToken _ _ _ => Unit
  | rotateToken _ _ _ => Bool
  | revokeFamily _ _ _ => ℕ

/-- A signing key by its `kid` and the identity of its pair. -/
structure SigningKey where
  kid : String
  pair : ℕ
deriving DecidableEq

structure SigningKeys where
  current : SigningKey
  previous : Option SigningKey

structure AuthAuditEvent where
  tenantId : String
  action : String
  outcome : String
  userId : Option String
deriving DecidableEq

inductive OAuthOp where
  | store (op : StoreOp)
  | now
  | randomToken (byteLength : ℕ)
  | signingKeys
  | sign (key : SigningKey) (input : String)
  | verify (key : SigningKey) (input : String) (signature : List UInt8)
  | audit (event : AuthAuditEvent)

abbrev OAuthOp.Reply : OAuthOp → Type
  | store op => Except AuthError op.Answer
  | now => ℤ
  | randomToken _ => String
  | signingKeys => SigningKeys
  | sign _ _ => List UInt8
  | verify _ _ _ => Bool
  | audit _ => Unit

abbrev Server (α : Type) := ExceptT AuthError (Program OAuthOp OAuthOp.Reply) α

namespace Server

def perform (op : OAuthOp) : Server op.Reply := ExceptT.lift (Program.perform op)

def store (op : StoreOp) : Server op.Answer := ExceptT.mk (Program.perform (OAuthOp.store op))

def now : Server ℤ := perform .now

def randomToken (byteLength : ℕ) : Server String := perform (.randomToken byteLength)

def ofExcept {α : Type} (x : Except AuthError α) : Server α := ExceptT.mk (pure x)

end Server

structure ServerOptions where
  /-- The base URL of a tenant. -/
  resolveTenant : String → Except AuthError String
  anonymousRegistration : Bool
  signedInRegistration : Bool
  accessTokenTtlMillis : ℤ
  refreshTokenTtlMillis : ℤ
  codeTtlMillis : ℤ
  hashToken : String → String
  pkceS256 : String → String
  /-- `new URL` takes it, with the protocol `https:` or `http:`. -/
  isHttpUrl : String → Bool
  /-- The redirect URI with the parameters `code` and `state`. -/
  redirectUrl : String → String → Option String → String

end Operations

section Jwt

def encodeJwtSegment (value : Json) : String := encodeBase64Url (encodeUtf8 value.stringify.toList)

def signJwt (key : SigningKey) (claims : Json) : Server String := do
  let header := Json.obj [("alg",.str "RS256"),("typ",.str "JWT"),("kid",.str key.kid)]
  let signingInput := encodeJwtSegment header ++ "." ++ encodeJwtSegment claims
  let signature ← Server.perform (.sign key signingInput)
  return signingInput ++ "." ++ encodeBase64Url signature

/-- `none` if it throws. -/
def decodeJwtSegment (part : String) : Option Json :=
  (decodeBase64Url part).bind fun bytes => Json.parse (String.ofList (decodeText bytes))

/-- `token.split(".")`. -/
def segmentsOf (token : String) : List String := (token.toList.splitOn '.').map String.ofList

/-- Header and claims, unverified; `none` if it throws. -/
def decodeJwtParts (token : String) : Option (Json × Json) :=
  match segmentsOf token with
  | [header,claims,_] => do return (← decodeJwtSegment header,← decodeJwtSegment claims)
  | _ => none

/-- The `jti` of the unverified claims, if it is a string. -/
def jtiOf (token : String) : Option String :=
  (decodeJwtParts token).bind fun decoded => (decoded.2.get "jti").bind Json.asString

def verifyJwsSignature (key : SigningKey) (signingInput signatureSegment : String) : Server Bool :=
  match decodeBase64Url signatureSegment with
  | none => pure false
  | some signature => if signature = [] then pure false else Server.perform (.verify key signingInput signature)

/-- `String(value ?? "")`, of a member of the claims. -/
def textOf : Option Json → String
  | none => ""
  | some .null => ""
  | some (.bool b) => if b then "true" else "false"
  | some (.num d) => String.ofList d.text
  | some (.str s) => s
  | some (.arr items) => ",".intercalate (items.attach.map fun item => textOf (some item.1))
  | some (.obj _) => "[object Object]"
termination_by v => sizeOf v
decreasing_by
  have := List.sizeOf_lt_of_mem item.2
  simp only [Option.some.sizeOf_spec,Json.arr.sizeOf_spec]
  omega

end Jwt

section Requests

structure RegisterClientInput where
  clientName : Option String
  clientType : ClientType
  redirectUris : List String
  scopes : List String

inductive RegistrationContext where
  | anonymous
  | signedIn (userId : String)

structure MintedClient where
  clientSecret : Option String
  record : OAuthClientRecord
deriving DecidableEq

structure AuthorizationRequest where
  tenantId : String
  clientId : String
  redirectUri : String
  scope : List String
  state : Option String
  codeChallenge : String
  codeChallengeMethod : String

inductive AuthorizationDecision where
  | redirect (redirectUrl : String)
  | consentRequired (state : Option String)
deriving DecidableEq

structure GrantConsentInput where
  tenantId : String
  userId : String
  clientId : String
  scope : List String

structure ExchangeCodeInput where
  tenantId : String
  clientId : String
  clientSecret : Option String
  code : String
  codeVerifier : String
  redirectUri : String

structure RefreshInput where
  tenantId : String
  clientId : String
  clientSecret : Option String
  refreshToken : String

/-- Of `revoke` and `introspect`. -/
structure TokenInput where
  tenantId : String
  clientId : String
  clientSecret : Option String
  token : String

structure IssuedTokens where
  accessToken : String
  refreshToken : Option String
  tokenType : String
  expiresIn : ℤ
  scope : List String
deriving DecidableEq

/-- An issued pair with the id of its refresh token, which stays inside. -/
structure IssuedPair where
  tokens : IssuedTokens
  refreshTokenId : Option String

structure TokenIntrospection where
  active : Bool
  scope : Option String
  clientId : Option String
  userId : Option String
  expiresAt : Option ℤ
  revokedAt : Option ℤ
deriving DecidableEq

/-- `iat` is what `Number` is applied to. -/
structure AccessTokenClaims where
  iss : String
  sub : String
  aud : String
  scope : String
  jti : String
  exp : Decimal
  iat : Json
  tenantId : String

end Requests

section Service
variable (o : ServerOptions)

def clientError (reason : String) : AuthError := .authValidationError "client" reason

def checkClient (clientSecret : Option String) : Option OAuthClientRecord → Except AuthError OAuthClientRecord
  | none => .error (.invalidCredentials "oauth-client")
  | some client =>
    match client.clientType with
    | .public_ => .ok client
    | .confidential =>
      match clientSecret,client.secretHash with
      | some clientSecret,some secretHash =>
        if o.hashToken clientSecret ≠ secretHash then .error (.invalidCredentials "oauth-client-secret")
        else .ok client
      | _,_ => .error (.invalidCredentials "oauth-client-secret")

def authenticateClient (tenantId clientId : String) (clientSecret : Option String) : Server OAuthClientRecord := do
  let client ← Server.store (.findClient tenantId clientId)
  Server.ofExcept (checkClient o clientSecret client)

def accessTokenClaims (issuer : String) (token : OAuthTokenRecord) : Json :=
  .ofFields
    [("iss",some (.str issuer)),("sub",token.userId.map .str),("aud",some (.str token.clientId)),
     ("scope",some (.str (" ".intercalate token.scope))),("jti",some (.str token.tokenId)),
     ("iat",some (.num (.ofInt (token.createdAt / 1000)))),("exp",some (.num (.ofInt (token.expiresAt / 1000)))),
     ("tid",some (.str token.tenantId))]

def issueTokens (tenantId issuer : String) (client : OAuthClientRecord) (userId : Option String)
    (scope : List String) (withRefresh : Bool) (familyId : String) : Server IssuedPair := do
  let issuedAt ← Server.now
  let accessTokenId ← Server.randomToken 12
  let access : OAuthTokenRecord :=
    { tenantId, tokenId := accessTokenId, kind := .access, clientId := client.clientId, userId, scope
      tokenHash := none, familyId := some familyId, expiresAt := issuedAt + o.accessTokenTtlMillis
      revokedAt := none, rotatedAt := none, createdAt := issuedAt }
  let keys ← Server.perform .signingKeys
  let accessToken ← signJwt keys.current (accessTokenClaims issuer access)
  Server.store (.putToken access)
  let expiresIn := o.accessTokenTtlMillis / 1000
  if withRefresh then
    let refreshToken ← Server.randomToken 32
    let refreshTokenId ← Server.randomToken 12
    Server.store (.putToken
      { access with
        tokenId := refreshTokenId, kind := .refresh, tokenHash := some (o.hashToken refreshToken)
        expiresAt := issuedAt + o.refreshTokenTtlMillis })
    return ⟨⟨accessToken,some refreshToken,"Bearer",expiresIn,scope⟩,some refreshTokenId⟩
  else return ⟨⟨accessToken,none,"Bearer",expiresIn,scope⟩,none⟩

def registerClient (tenantId : String) (input : RegisterClientInput) (context : RegistrationContext) :
    Server MintedClient := do
  let gate := match context with
    | .anonymous => o.anonymousRegistration
    | .signedIn _ => o.signedInRegistration
  if gate = false then throw (clientError "registration is closed on this server")
  else if input.redirectUris.length = 0 ∨ input.scopes.length = 0 then
    throw (clientError "requires redirect URIs and scopes")
  else if input.redirectUris.any (fun uri => !o.isHttpUrl uri) then
    throw (clientError "redirect URIs must be absolute http(s) URLs")
  else
    let clientId := "as_" ++ (← Server.randomToken 12)
    let clientSecret ← match input.clientType with
      | .confidential => some <$> Server.randomToken 32
      | .public_ => pure none
    let record : OAuthClientRecord :=
      { tenantId, clientId, clientName := input.clientName, clientType := input.clientType
        secretHash := clientSecret.map o.hashToken, redirectUris := input.redirectUris
        scopes := input.scopes, createdAt := ← Server.now }
    Server.store (.putClient record)
    return ⟨clientSecret,record⟩

def authorize (request : AuthorizationRequest) (userId : String) : Server AuthorizationDecision := do
  let _ ← Server.ofExcept (o.resolveTenant request.tenantId)
  match ← Server.store (.findClient request.tenantId request.clientId) with
  | none => throw (clientError "is unknown")
  | some client =>
    if request.redirectUri ∉ client.redirectUris then throw (clientError "redirect_uri is not registered")
    else if request.codeChallengeMethod ≠ "S256" then throw (clientError "code_challenge_method must be S256")
    else if (codeUnits request.codeChallenge).length < 43 ∨ (codeUnits request.codeChallenge).length > 128 then
      throw (clientError "code_challenge length must be 43..128")
    else if request.scope.any (fun scope => scope ∉ client.scopes) then
      throw (clientError "requested scopes exceed the client's vocabulary")
    else
      -- a grant that misses a requested scope needs fresh consent
      let consent ← Server.store (.findConsent request.tenantId request.clientId userId)
      if consent.all (fun consent => request.scope.any fun scope => scope ∉ consent.scope) then
        return .consentRequired request.state
      else
        let code ← Server.randomToken 32
        Server.store (.putAuthorizationCode
          { tenantId := request.tenantId, codeHash := o.hashToken code, clientId := client.clientId, userId
            redirectUri := request.redirectUri, scope := request.scope, codeChallenge := request.codeChallenge
            expiresAt := (← Server.now) + o.codeTtlMillis, consumedAt := none })
        return .redirect (o.redirectUrl request.redirectUri code request.state)

def grantConsent (input : GrantConsentInput) : Server Unit := do
  match ← Server.store (.findClient input.tenantId input.clientId) with
  | none => throw (clientError "is unknown")
  | some client =>
    if input.scope.any (fun scope => scope ∉ client.scopes) then
      throw (clientError "consent scopes exceed the client's vocabulary")
    else
      Server.store (.putConsent ⟨input.tenantId,input.clientId,input.userId,input.scope,← Server.now⟩)

def exchangeCode (input : ExchangeCodeInput) : Server IssuedTokens := do
  let issuer ← Server.ofExcept (o.resolveTenant input.tenantId)
  let client ← authenticateClient o input.tenantId input.clientId input.clientSecret
  match ← Server.store (.consumeAuthorizationCode input.tenantId (o.hashToken input.code) (← Server.now)) with
  | none => throw (.invalidAuthToken "oauth-code")
  | some record =>
    if record.clientId ≠ client.clientId ∨ record.redirectUri ≠ input.redirectUri then
      throw (.invalidAuthToken "oauth-code")
    else if o.pkceS256 input.codeVerifier ≠ record.codeChallenge then throw (.invalidCredentials "pkce")
    else
      let familyId ← Server.randomToken 12
      let issued ← issueTokens o input.tenantId issuer client (some record.userId) record.scope true familyId
      return issued.tokens

section Refresh
variable (input : RefreshInput) (record : OAuthTokenRecord)

/-- `record.familyId ?? record.tokenId`. -/
def familyOf (record : OAuthTokenRecord) : String := record.familyId.getD record.tokenId

def reuseEvent : AuthAuditEvent := ⟨input.tenantId,"oauth-refresh-reuse","succeeded",record.userId⟩

/-- The family of a rotated-away token that was presented again. -/
def reuse : Server Unit := do
  let revoked ← Server.store (.revokeFamily input.tenantId (familyOf record) (← Server.now))
  if revoked > 0 then Server.perform (.audit (reuseEvent input record))

/-- The rotation did not land: the family goes, and the fresh pair with it. -/
def lostRotation : Server IssuedTokens := do
  let current ← Server.store (.findTokenById input.tenantId record.tokenId)
  let revoked ← Server.store (.revokeFamily input.tenantId (familyOf record) (← Server.now))
  if (current.bind OAuthTokenRecord.rotatedAt).isSome ∧ revoked > 0 then
    Server.perform (.audit (reuseEvent input record))
  throw (.invalidAuthToken "oauth-refresh-token")

/-- The rotation landed; a fresh pair that was swept meanwhile is not handed out. -/
def wonRotation (issued : IssuedPair) : Server IssuedTokens := do
  let fresh ← match issued.refreshTokenId with
    | none => pure none
    | some refreshTokenId => Server.store (.findTokenById input.tenantId refreshTokenId)
  if fresh.all (fun fresh => fresh.revokedAt.isSome) then
    let _ ← Server.store (.revokeFamily input.tenantId (familyOf record) (← Server.now))
    throw (.invalidAuthToken "oauth-refresh-token")
  else return issued.tokens

/-- A token of the client that has not expired. -/
def refreshRecord (issuer : String) (client : OAuthClientRecord) : Server IssuedTokens := do
  match record.revokedAt with
  | some _ =>
    if record.rotatedAt.isSome then reuse input record
    throw (.invalidAuthToken "oauth-refresh-token")
  | none =>
    let issued ← issueTokens o input.tenantId issuer client record.userId record.scope true (familyOf record)
    let rotated ← Server.store (.rotateToken input.tenantId record.tokenId (← Server.now))
    if rotated then wonRotation input record issued else lostRotation input record

def refreshPresented (issuer : String) (client : OAuthClientRecord) : Server IssuedTokens := do
  if record.expiresAt ≤ (← Server.now) then throw (.invalidAuthToken "oauth-refresh-token")
  else refreshRecord o input record issuer client

def refresh : Server IssuedTokens := do
  let issuer ← Server.ofExcept (o.resolveTenant input.tenantId)
  let client ← authenticateClient o input.tenantId input.clientId input.clientSecret
  match ← Server.store (.findTokenByHash input.tenantId (o.hashToken input.refreshToken)) with
  | none => throw (.invalidAuthToken "oauth-refresh-token")
  | some record =>
    if record.kind ≠ .refresh ∨ record.clientId ≠ client.clientId then
      throw (.invalidAuthToken "oauth-refresh-token")
    else refreshPresented o input record issuer client

end Refresh

def revoke (input : TokenInput) : Server Unit := do
  tryCatch ((fun _ => ()) <$> authenticateClient o input.tenantId input.clientId input.clientSecret) fun _ => pure ()
  match ← Server.store (.findTokenByHash input.tenantId (o.hashToken input.token)) with
  | some byHash => Server.store (.revokeToken input.tenantId byHash.tokenId (← Server.now))
  | none =>
    match jtiOf input.token with
    | some jti => Server.store (.revokeToken input.tenantId jti (← Server.now))
    | none => pure ()

/-- `record.revokedAt === undefined && record.expiresAt.getTime() > now().getTime()`. -/
def isActive (record : OAuthTokenRecord) : Server Bool := do
  if record.revokedAt.isSome then return false else return decide (record.expiresAt > (← Server.now))

def introspect (input : TokenInput) : Server TokenIntrospection := do
  let _ ← authenticateClient o input.tenantId input.clientId input.clientSecret
  match ← Server.store (.findTokenByHash input.tenantId (o.hashToken input.token)) with
  | some byHash =>
    let active ← isActive byHash
    return ⟨active,some (" ".intercalate byHash.scope),some byHash.clientId,byHash.userId,some byHash.expiresAt,
      byHash.revokedAt⟩
  | none =>
    match jtiOf input.token with
    | none => return ⟨false,none,none,none,none,none⟩
    | some tokenId =>
      match ← Server.store (.findTokenById input.tenantId tokenId) with
      | none => return ⟨false,none,none,none,none,none⟩
      | some record =>
        if ← isActive record then
          return ⟨true,some (" ".intercalate record.scope),some record.clientId,record.userId,some record.expiresAt,
            none⟩
        else return ⟨false,none,none,none,none,record.revokedAt⟩

def invalidAccessToken : AuthError := .invalidAuthToken "oauth-access-token"

/-- The key the header names, if the algorithm is the one this server signs with. -/
def keyOf (keys : SigningKeys) (header : Json) : Option SigningKey :=
  match header.get "alg",header.get "kid" with
  | some (.str "RS256"),some (.str kid) =>
    if kid = keys.current.kid then some keys.current else keys.previous.filter fun previous => kid = previous.kid
  | _,_ => none

/-- The claims of a token whose signature verifies. -/
def verifyClaims (tenantId : String) (claims : Json) : Server AccessTokenClaims := do
  match claims.get "jti",claims.get "exp" with
  | some (.str tokenId),some (.num exp) =>
    if exp.value * 1000 ≤ (← Server.now) then throw invalidAccessToken
    else if (claims.get "tid").bind Json.asString ≠ some tenantId then throw invalidAccessToken
    else
      let record ← tryCatch (Server.store (.findTokenById tenantId tokenId)) fun _ => pure none
      match record with
      | none => throw invalidAccessToken
      | some record =>
        if record.revokedAt.isSome then throw invalidAccessToken
        else
          return {
            iss := textOf (claims.get "iss"), sub := textOf (claims.get "sub"), aud := textOf (claims.get "aud")
            scope := textOf (claims.get "scope"), jti := tokenId, exp
            iat := ((claims.get "iat").filter fun v => !v matches .null).getD (.num (.ofInt 0)), tenantId }
  | _,_ => throw invalidAccessToken

def verifyAccessToken (tenantId token : String) : Server AccessTokenClaims := do
  match segmentsOf token with
  | [headerSegment,claimsSegment,signatureSegment] =>
    match decodeJwtSegment headerSegment with
    | none => throw invalidAccessToken
    | some header =>
      match keyOf (← Server.perform .signingKeys) header with
      | none => throw invalidAccessToken
      | some key =>
        if ← verifyJwsSignature key (headerSegment ++ "." ++ claimsSegment) signatureSegment then
          match decodeJwtSegment claimsSegment with
          | none => throw invalidAccessToken
          | some claims => verifyClaims tenantId claims
        else throw invalidAccessToken
  | _ => throw invalidAccessToken

end Service

section Calls

inductive Call where
  | registerClient (tenantId : String) (input : RegisterClientInput) (context : RegistrationContext)
  | authorize (request : AuthorizationRequest) (userId : String)
  | grantConsent (input : GrantConsentInput)
  | exchangeCode (input : ExchangeCodeInput)
  | refresh (input : RefreshInput)
  | revoke (input : TokenInput)
  | introspect (input : TokenInput)
  | verifyAccessToken (tenantId token : String)

inductive Answer where
  | client (minted : MintedClient)
  | decision (decision : AuthorizationDecision)
  | done
  | tokens (tokens : IssuedTokens)
  | introspection (introspection : TokenIntrospection)
  | claims (claims : AccessTokenClaims)

def serve (o : ServerOptions) : Call → Server Answer
  | .registerClient tenantId input context => .client <$> registerClient o tenantId input context
  | .authorize request userId => .decision <$> authorize o request userId
  | .grantConsent input => (fun _ => .done) <$> grantConsent input
  | .exchangeCode input => .tokens <$> exchangeCode o input
  | .refresh input => .tokens <$> refresh o input
  | .revoke input => (fun _ => .done) <$> revoke o input
  | .introspect input => .introspection <$> introspect o input
  | .verifyAccessToken tenantId token => .claims <$> verifyAccessToken tenantId token

end Calls

end StructureAi.Auth

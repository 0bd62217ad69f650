import StructureAi.Auth.OAuthStore
import StructureAi.Foundation.History

/-! # What the calls of the authorization server rest on

One rule for each operation that writes: which answers of the same call it rests on, whatever the
others do meanwhile. The rules are read off the programs once, and the results about runs use
nothing else of them.
-/
namespace StructureAi.Auth
open StructureAi.Foundation Program

section Pasts

abbrev OAuthAnswered := Answered OAuthOp OAuthOp.Reply

abbrev stored (op : StoreOp) (answer : op.Answer) : OAuthAnswered := ⟨.store op,Except.ok answer⟩

def putOf : OAuthOp → Option OAuthTokenRecord
  | .store (.putToken token) => some token
  | _ => none

/-- The tokens a call has put, the latest first. -/
def minted (past : List OAuthAnswered) : List OAuthTokenRecord := past.filterMap fun a => putOf a.op

def drawOf : OAuthAnswered → Option String
  | ⟨.randomToken _,token⟩ => some token
  | _ => none

/-- The random tokens a call has drawn, the latest first. -/
def drawn (past : List OAuthAnswered) : List String := past.filterMap drawOf

def isCode : OAuthOp → Bool
  | .store (.putAuthorizationCode _) => true
  | _ => false

def isWon : OAuthAnswered → Bool
  | ⟨.store (.rotateToken _ _ _),.ok true⟩ => true
  | _ => false

def won (past : List OAuthAnswered) : Bool := past.any isWon

def isSweep : OAuthOp → Bool
  | .store (.revokeFamily _ _ _) => true
  | _ => false

def swept (past : List OAuthAnswered) : Bool := past.any fun a => isSweep a.op

def isLookup : OAuthOp → Bool
  | .store (.findTokenByHash _ _) => true
  | _ => false

/-- The tokens a call has looked up by their hashes, the latest first. -/
def lookups (past : List OAuthAnswered) : List OAuthAnswered := past.filter fun a => isLookup a.op

def isFailure : OAuthAnswered → Bool
  | ⟨.store _,.error _⟩ => true
  | _ => false

def failed (past : List OAuthAnswered) : Bool := past.any isFailure

end Pasts

section Rules
variable (o : ServerOptions) (call : Call) (past : List OAuthAnswered)

/-- A client that was looked up, and that the secret is of. -/
structure Authenticates (tenantId clientId : String) (clientSecret : Option String) (client : OAuthClientRecord) : Prop where
  found : stored (.findClient tenantId clientId) (some client) ∈ past
  checked : checkClient o clientSecret (some client) = .ok client

/-- What a registration stores. -/
structure Registers (client : OAuthClientRecord) : Prop where
  request : ∃ input context, call = .registerClient client.tenantId input context ∧ client.redirectUris = input.redirectUris ∧
    client.scopes = input.scopes ∧ ∀ uri ∈ input.redirectUris, o.isHttpUrl uri = true

/-- A consent of the user of the request, within the scopes of the client. -/
structure Consents (input : GrantConsentInput) (client : OAuthClientRecord) (consent : ConsentRecord) : Prop where
  call : call = .grantConsent input
  found : stored (.findClient input.tenantId input.clientId) (some client) ∈ past
  tenant : consent.tenantId = input.tenantId
  names : consent.clientId = input.clientId ∧ consent.userId = input.userId
  scope : consent.scope = input.scope ∧ ∀ scope ∈ input.scope, scope ∈ client.scopes

/-- A code for a request of the user: a redirect URI and scopes of the client, within a consent of the user. -/
structure Authorizes (request : AuthorizationRequest) (client : OAuthClientRecord) (consent : ConsentRecord)
    (code : AuthorizationCodeRecord) : Prop where
  call : call = .authorize request code.userId
  known : stored (.findClient request.tenantId request.clientId) (some client) ∈ past
  consented : stored (.findConsent request.tenantId request.clientId code.userId) (some consent) ∈ past
  tenant : code.tenantId = request.tenantId
  sameClient : code.clientId = client.clientId
  redirectUri : code.redirectUri = request.redirectUri ∧ request.redirectUri ∈ client.redirectUris
  scope : code.scope = request.scope ∧ ∀ scope ∈ request.scope, scope ∈ client.scopes ∧ scope ∈ consent.scope
  challenge : code.codeChallenge = request.codeChallenge ∧ request.codeChallengeMethod = "S256"
  hash : ∃ secret ∈ drawn past, code.codeHash = o.hashToken secret

/-- A code that was consumed for the client it was made for, with its redirect URI and the verifier of its challenge. -/
structure Exchanges (input : ExchangeCodeInput) (client : OAuthClientRecord) (code : AuthorizationCodeRecord) : Prop where
  call : call = .exchangeCode input
  authenticates : Authenticates o past input.tenantId input.clientId input.clientSecret client
  consumed : ∃ now, stored (.consumeAuthorizationCode input.tenantId (o.hashToken input.code) now) (some code) ∈ past
  sameClient : code.clientId = client.clientId
  redirectUri : code.redirectUri = input.redirectUri
  verifier : o.pkceS256 input.codeVerifier = code.codeChallenge

/-- A refresh token that its client presents before it runs out. -/
structure Presents (input : RefreshInput) (client : OAuthClientRecord) (record : OAuthTokenRecord) : Prop where
  call : call = .refresh input
  authenticates : Authenticates o past input.tenantId input.clientId input.clientSecret client
  found : stored (.findTokenByHash input.tenantId (o.hashToken input.refreshToken)) (some record) ∈ past
  kind : record.kind = .refresh
  sameClient : record.clientId = client.clientId
  unexpired : ∃ now, ⟨.now,now⟩ ∈ past ∧ now < record.expiresAt

/-- A refresh token that was not revoked when it was looked up. -/
structure Renews (input : RefreshInput) (client : OAuthClientRecord) (record : OAuthTokenRecord) : Prop where
  presents : Presents o call past input client record
  live : record.revokedAt = none

/-- A token as it is minted. -/
structure Carries (tenantId clientId : String) (userId : Option String) (scope : List String) (familyId : String)
    (token : OAuthTokenRecord) : Prop where
  tenant : token.tenantId = tenantId
  client : token.clientId = clientId
  user : token.userId = userId
  scope : token.scope = scope
  family : token.familyId = some familyId
  live : token.revokedAt = none ∧ token.rotatedAt = none

/-- A token takes over what a code or a refresh token grants. -/
inductive Mints (token : OAuthTokenRecord) : Prop where
  | exchange (input : ExchangeCodeInput) (client : OAuthClientRecord) (code : AuthorizationCodeRecord) (familyId : String)
    (exchanges : Exchanges o call past input client code) (family : familyId ∈ drawn past)
    (carries : Carries input.tenantId client.clientId (some code.userId) code.scope familyId token)
  | refresh (input : RefreshInput) (client : OAuthClientRecord) (record : OAuthTokenRecord)
    (renews : Renews o call past input client record)
    (carries : Carries input.tenantId client.clientId record.userId record.scope (familyOf record) token)

/-- The access token is put first, then the refresh token with the hash of a fresh secret, each under an id of its own. -/
structure Minting (token : OAuthTokenRecord) : Prop where
  access : token.kind = .access → minted past = [] ∧ token.tokenHash = none
  refresh : token.kind = .refresh → (∃ access, minted past = [access] ∧ access.kind = .access) ∧
    ∃ secret ∈ drawn past, token.tokenHash = some (o.hashToken secret)
  id : ∃ earlier, drawn past = token.tokenId :: earlier ∧ ∀ other ∈ minted past, other.tokenId ∈ earlier
  pending : won past = false ∧ swept past = false

/-- The alarm of a call whose sweep found a live token: it presented a token that was rotated away,
  or lost the rotation to another. -/
structure Alarms (event : AuthAuditEvent) (input : RefreshInput) (client : OAuthClientRecord) (record : OAuthTokenRecord) :
    Prop where
  presents : Presents o call past input client record
  event : event = reuseEvent input record
  swept : ∃ now revoked, stored (.revokeFamily input.tenantId (familyOf record) now) revoked ∈ past ∧ 0 < revoked
  lost : won past = false
  rotated : record.rotatedAt.isSome = true ∨
    ∃ current, stored (.findTokenById input.tenantId record.tokenId) (some current) ∈ past ∧ current.rotatedAt.isSome = true

def signingInput (key : SigningKey) (issuer : String) (token : OAuthTokenRecord) : String :=
  encodeJwtSegment (.obj [("alg",.str "RS256"),("typ",.str "JWT"),("kid",.str key.kid)]) ++ "." ++
    encodeJwtSegment (accessTokenClaims issuer token)

def Rests : OAuthOp → Prop
  | .store (.putClient client) => Registers o call client
  | .store (.putConsent consent) => ∃ input client, Consents call past input client consent
  | .store (.putAuthorizationCode code) => (∃ request client consent, Authorizes o call past request client consent code) ∧
    past.any (fun a => isCode a.op) = false
  | .store (.putToken token) => Mints o call past token ∧ Minting o past token
  | .store (.findTokenByHash _ _) => lookups past = []
  | .store (.rotateToken tenantId tokenId _) => ∃ input client record, Renews o call past input client record ∧
    tenantId = input.tenantId ∧ tokenId = record.tokenId ∧ won past = false ∧ swept past = false ∧
    ∃ fresh access, minted past = [fresh,access] ∧ fresh.kind = .refresh ∧ access.kind = .access
  | .store (.revokeFamily tenantId familyId _) => ∃ input client record, Presents o call past input client record ∧
    tenantId = input.tenantId ∧ familyId = familyOf record ∧ swept past = false
  | .audit event => ∃ input client record, Alarms o call past event input client record
  | .sign key input => ∃ issuer token, Mints o call past token ∧ token.kind = .access ∧ input = signingInput key issuer token
  | _ => True

def answeredClaims (tenantId tokenId : String) (exp : Decimal) (claims : Json) : AccessTokenClaims where
  iss := textOf (claims.get "iss")
  sub := textOf (claims.get "sub")
  aud := textOf (claims.get "aud")
  scope := textOf (claims.get "scope")
  jti := tokenId
  exp := exp
  iat := ((claims.get "iat").filter fun v => !v matches .null).getD (.num (.ofInt 0))
  tenantId := tenantId

/-- The answers that an accepted token rests on. -/
structure Verifies (tenantId token : String) (answer : AccessTokenClaims) : Prop where
  verified : ∃ header payload signature key bytes, segmentsOf token = [header,payload,signature] ∧
    ⟨.verify key (header ++ "." ++ payload) bytes,true⟩ ∈ past ∧
    ∃ claims tokenId exp, ∃ now : ℤ, ∃ record, decodeJwtSegment payload = some claims ∧ claims.get "jti" = some (.str tokenId) ∧
      claims.get "exp" = some (.num exp) ∧ (claims.get "tid").bind Json.asString = some tenantId ∧
      (⟨.now,now⟩ : OAuthAnswered) ∈ past ∧ ((now : ℤ) : ℚ) < exp.value * 1000 ∧
      stored (.findTokenById tenantId tokenId) (some record) ∈ past ∧ record.revokedAt = none ∧
      answer = answeredClaims tenantId tokenId exp claims

/-- What a call that returns rests on. -/
structure Concludes (answer : Answer) : Prop where
  tokens : ∀ tokens, answer = .tokens tokens → (∃ input client code, Exchanges o call past input client code) ∨
    ∃ input client record, Renews o call past input client record ∧ won past = true
  claims : ∀ claims, answer = .claims claims → ∃ tenantId token, call = .verifyAccessToken tenantId token ∧
    Verifies past tenantId token claims

/-- A call that renews a token hands a pair out that it saw live last, or has revoked the family; one that presents a
token rotated away has. -/
structure Clears (input : RefreshInput) (record : OAuthTokenRecord) : Prop where
  renewed : record.revokedAt = none → swept past = true ∨ won past = true ∧ ∃ fresh kept earlier, fresh ∈ minted past ∧
    fresh.kind = .refresh ∧ past = stored (.findTokenById input.tenantId fresh.tokenId) (some kept) :: earlier ∧
      kept.revokedAt = none
  reused : record.revokedAt.isSome = true → record.rotatedAt.isSome = true → swept past = true

def Cleared : Prop := failed past = true ∨ ∀ input client record, Presents o call past input client record →
    Clears past input record

def Ends (r : Except AuthError Answer) : Prop := (∀ answer, r = .ok answer → Concludes o call past answer) ∧ Cleared o call past

end Rules

section Steps
variable {o : ServerOptions} {call : Call} {past past' : List OAuthAnswered} {α : Type}

theorem Authenticates.mono {tenantId clientId : String} {clientSecret : Option String} {client : OAuthClientRecord}
    (h : Authenticates o past tenantId clientId clientSecret client) (hs : past <:+ past') :
    Authenticates o past' tenantId clientId clientSecret client := ⟨hs.subset h.found,h.checked⟩

theorem Presents.mono {input : RefreshInput} {client : OAuthClientRecord} {record : OAuthTokenRecord}
    (h : Presents o call past input client record) (hs : past <:+ past') : Presents o call past' input client record :=
  ⟨h.call,h.authenticates.mono hs,hs.subset h.found,h.kind,h.sameClient,h.unexpired.imp fun _ hin => ⟨hs.subset hin.1,hin.2⟩⟩

theorem Renews.mono {input : RefreshInput} {client : OAuthClientRecord} {record : OAuthTokenRecord}
    (h : Renews o call past input client record) (hs : past <:+ past') : Renews o call past' input client record :=
  ⟨h.presents.mono hs,h.live⟩

theorem drawn_mono (hs : past <:+ past') : drawn past <:+ drawn past' := hs.filterMap _

abbrev Keeps (o : ServerOptions) (call : Call) (ok : List OAuthAnswered → α → Prop) (error : List OAuthAnswered →
    AuthError → Prop)
    (x : Server α) (past : List OAuthAnswered) : Prop := Settles (Rests o call) ok error x past

variable {error : List OAuthAnswered → AuthError → Prop}

theorem store_keeps {op : StoreOp} {ok : List OAuthAnswered → op.Answer → Prop} (hrests : Rests o call past (.store op))
    (hok : ∀ answer, ok (stored op answer :: past) answer) (herror : ∀ e, error (⟨.store op,Except.error e⟩ :: past) e) :
    Keeps o call ok error (Server.store op) past := by
  refine ⟨hrests,fun reply => ?_⟩
  cases reply with
  | ok answer => exact hok answer
  | error e => exact herror e

theorem perform_keeps {op : OAuthOp} {ok : List OAuthAnswered → op.Reply → Prop} (hrests : Rests o call past op)
    (hok : ∀ reply, ok (⟨op,reply⟩ :: past) reply) : Keeps o call ok error (Server.perform op) past := Settles.lift hrests hok

theorem ofExcept_keeps {x : Except AuthError α} {ok : List OAuthAnswered → α → Prop} (hok : ∀ a, x = .ok a → ok past a)
    (herror : ∀ e, x = .error e → error past e) : Keeps o call ok error (Server.ofExcept x) past := by
  cases x with
  | ok a => exact hok a rfl
  | error e => exact herror e rfl

theorem checkClient_ok {clientSecret : Option String} {found : Option OAuthClientRecord} {client : OAuthClientRecord}
    (h : checkClient o clientSecret found = .ok client) : found = some client := by
  unfold checkClient at h
  cases found with
  | none => cases h
  | some client' =>
    dsimp only at h
    split at h
    · cases h
      rfl
    · split at h
      · split at h
        · cases h
        · cases h
          rfl
      · cases h

theorem authenticateClient_keeps {tenantId clientId : String} {clientSecret : Option String}
    {ok : List OAuthAnswered → OAuthClientRecord → Prop}
    (hok : ∀ client, checkClient o clientSecret (some client) = .ok client →
      ok (stored (.findClient tenantId clientId) (some client) :: past) client)
    (herror : ∀ reply e, error (⟨.store (.findClient tenantId clientId),reply⟩ :: past) e) :
    Keeps o call ok error (authenticateClient o tenantId clientId clientSecret) past := by
  apply Settles.bind
  apply store_keeps
  · trivial
  · intro found
    apply ofExcept_keeps
    · intro client hchecked
      obtain rfl := checkClient_ok hchecked
      exact hok client hchecked
    · intro e _
      exact herror _ e
  · intro e
    exact herror _ e

end Steps

section Issuing
variable {o : ServerOptions} {call : Call} {past : List OAuthAnswered} {error : List OAuthAnswered → AuthError → Prop}

/-- The pair that `issueTokens` has put since. -/
structure Issued (past past' : List OAuthAnswered) (tenantId clientId : String) (userId : Option String) (scope : List String)
    (familyId : String)
    (issued : IssuedPair) (fresh access : OAuthTokenRecord) : Prop where
  since : past <:+ past'
  minted : minted past' = [fresh,access]
  kinds : fresh.kind = .refresh ∧ access.kind = .access
  carries : Carries tenantId clientId userId scope familyId fresh
  id : issued.refreshTokenId = some fresh.tokenId
  pending : won past' = false ∧ swept past' = false
  lookups : lookups past' = lookups past

theorem issueTokens_keeps {tenantId issuer familyId : String} {client : OAuthClientRecord} {userId : Option String}
    {scope : List String}
    {ok : List OAuthAnswered → IssuedPair → Prop} (hminted : minted past = []) (hpending : won past = false ∧ swept past = false)
    (hsource : ∀ past' token, past <:+ past' → Carries tenantId client.clientId userId scope familyId token →
      Mints o call past' token)
    (hok : ∀ past' issued fresh access, Issued past past' tenantId client.clientId userId scope familyId issued fresh access →
      ok past' issued)
    (herror : ∀ past' e, failed past' = true → error past' e) :
    Keeps o call ok error (issueTokens o tenantId issuer client userId scope true familyId) past := by
  apply Settles.bind
  apply perform_keeps
  · trivial
  intro issuedAt
  apply Settles.bind
  apply perform_keeps
  · trivial
  intro accessTokenId
  apply Settles.bind
  apply perform_keeps
  · trivial
  intro keys
  have hcarries : ∀ tokenId kind tokenHash expiresAt, Carries tenantId client.clientId userId scope familyId
      ⟨tenantId,tokenId,kind,client.clientId,userId,scope,tokenHash,some familyId,expiresAt,none,none,issuedAt⟩ :=
    fun _ _ _ _ => ⟨rfl,rfl,rfl,rfl,rfl,rfl,rfl⟩
  have hs : past <:+ (⟨.signingKeys,keys⟩ : OAuthAnswered) :: ⟨.randomToken 12,accessTokenId⟩ :: ⟨.now,issuedAt⟩ :: past :=
    ((List.suffix_cons _ _).trans (List.suffix_cons _ _)).trans (List.suffix_cons _ _)
  apply Settles.bind
  apply Settles.bind
  apply perform_keeps
  · exact ⟨issuer,_,hsource _ _ hs (hcarries accessTokenId .access none _),rfl,rfl⟩
  intro signature
  apply Settles.pure
  have hs' := hs.trans (List.suffix_cons (⟨.sign keys.current _,signature⟩ : OAuthAnswered) _)
  apply Settles.bind
  apply store_keeps
  · refine ⟨hsource _ _ hs' (hcarries _ _ _ _),fun _ => ⟨hminted,rfl⟩,nofun,⟨drawn past,rfl,?_⟩,hpending⟩
    intro other hother
    change other ∈ minted past at hother
    rw [hminted] at hother
    cases hother
  · intro answer
    apply Settles.bind
    apply perform_keeps
    · trivial
    intro refreshToken
    apply Settles.bind
    apply perform_keeps
    · trivial
    intro refreshTokenId
    have hs'' := ((hs'.trans (List.suffix_cons (stored _ answer) _)).trans
      (List.suffix_cons (⟨.randomToken 32,refreshToken⟩ : OAuthAnswered) _)).trans
        (List.suffix_cons (⟨.randomToken 12,refreshTokenId⟩ : OAuthAnswered) _)
    apply Settles.bind
    apply store_keeps
    · refine ⟨hsource _ _ hs'' (hcarries _ _ _ _),nofun,fun _ => ⟨⟨_,congrArg (List.cons _) hminted,rfl⟩,refreshToken,?_,rfl⟩,
        ⟨refreshToken :: accessTokenId :: drawn past,rfl,?_⟩,hpending⟩
      · exact List.mem_cons_of_mem _ List.mem_cons_self
      intro other hother
      change other ∈ _ :: minted past at hother
      rw [hminted,List.mem_singleton] at hother
      subst hother
      exact List.mem_cons_of_mem _ List.mem_cons_self
    · intro answer'
      apply Settles.pure
      exact hok _ _ _ _ ⟨hs''.trans (List.suffix_cons _ _),congrArg (fun tokens => _ :: _ :: tokens) hminted,⟨rfl,rfl⟩,
        hcarries _ _ _ _,rfl,hpending,rfl⟩
    · intro e
      exact herror _ e rfl
  · intro e
    exact herror _ e rfl

end Issuing

section Calls
variable {o : ServerOptions} {past : List OAuthAnswered}

theorem cleared_of_failed {call : Call} (h : failed past = true) : Cleared o call past := Or.inl h

theorem cleared_of_swept {call : Call} (h : swept past = true) : Cleared o call past :=
  Or.inr fun _ _ _ _ => ⟨fun _ => Or.inl h,fun _ _ => h⟩

theorem cleared_of_call {call : Call} (h : ∀ input, call ≠ .refresh input) : Cleared o call past :=
  Or.inr fun input _ _ hpresents => absurd hpresents.call (h input)

theorem cleared_of_timeless {call : Call} (h : ∀ now : ℤ, (⟨.now,now⟩ : OAuthAnswered) ∉ past) : Cleared o call past := by
  right
  intro input client record hpresents
  obtain ⟨now,hin,-⟩ := hpresents.unexpired
  exact absurd hin (h now)

theorem registerClient_keeps {tenantId : String} {input : RegisterClientInput} {context : RegistrationContext}
    {ok : List OAuthAnswered → MintedClient → Prop} {error : List OAuthAnswered → AuthError → Prop}
    (hok : ∀ past minted, ok past minted) (herror : ∀ past e, error past e) :
    Keeps o (.registerClient tenantId input context) ok error (registerClient o tenantId input context) past := by
  unfold registerClient
  apply Settles.ite
  · exact fun _ => Settles.throw (herror _ _)
  intro _
  apply Settles.ite
  · exact fun _ => Settles.throw (herror _ _)
  intro _
  apply Settles.ite
  · exact fun _ => Settles.throw (herror _ _)
  intro huris
  have hhttp : ∀ uri ∈ input.redirectUris, o.isHttpUrl uri = true := by
    intro uri hin
    by_contra hnot
    exact huris (List.any_eq_true.mpr ⟨uri,hin,by simpa using hnot⟩)
  apply Settles.bind
  apply perform_keeps
  · trivial
  intro id
  have hrest : ∀ past clientType (clientSecret : Option String), Keeps o (.registerClient tenantId input context) ok error
      (do
        let record : OAuthClientRecord :=
          { tenantId, clientId := "as_" ++ id, clientName := input.clientName, clientType
            secretHash := clientSecret.map o.hashToken, redirectUris := input.redirectUris
            scopes := input.scopes, createdAt := ← Server.now }
        Server.store (.putClient record)
        return ⟨clientSecret,record⟩) past := by
    intro past clientType clientSecret
    apply Settles.bind
    apply perform_keeps
    · trivial
    intro createdAt
    apply Settles.bind
    apply store_keeps
    · exact ⟨input,context,rfl,rfl,rfl,hhttp⟩
    · intro answer
      exact Settles.pure (hok _ _)
    · intro e
      exact herror _ e
  dsimp only
  cases input.clientType with
  | confidential =>
    apply Settles.bind
    apply Settles.map
    apply perform_keeps
    · trivial
    intro clientSecret
    exact hrest _ _ _
  | public_ =>
    apply Settles.bind
    apply Settles.pure
    exact hrest _ _ _

theorem authorize_keeps {request : AuthorizationRequest} {userId : String} {ok : List OAuthAnswered →
    AuthorizationDecision → Prop}
    {error : List OAuthAnswered → AuthError → Prop} (hok : ∀ past decision, ok past decision) (herror : ∀ past e, error past e) :
    Keeps o (.authorize request userId) ok error (authorize o request userId) [] := by
  unfold authorize
  apply Settles.bind
  apply ofExcept_keeps
  · intro issuer _
    apply Settles.bind
    apply store_keeps
    · trivial
    · intro found
      cases found with
      | none => exact Settles.throw (herror _ _)
      | some client =>
        apply Settles.ite
        · exact fun _ => Settles.throw (herror _ _)
        intro hredirect
        apply Settles.ite
        · exact fun _ => Settles.throw (herror _ _)
        intro hmethod
        apply Settles.ite
        · exact fun _ => Settles.throw (herror _ _)
        intro _
        apply Settles.ite
        · exact fun _ => Settles.throw (herror _ _)
        intro hscope
        apply Settles.bind
        apply store_keeps
        · trivial
        · intro found
          apply Settles.ite
          · exact fun _ => Settles.pure (hok _ _)
          intro hconsent
          cases found with
          | none => exact absurd rfl hconsent
          | some consent =>
            have hwithin : ∀ scope ∈ request.scope, scope ∈ client.scopes ∧ scope ∈ consent.scope := by
              intro scope hin
              constructor
              · by_contra hnot
                exact hscope (List.any_eq_true.mpr ⟨scope,hin,decide_eq_true hnot⟩)
              · by_contra hnot
                exact hconsent (List.any_eq_true.mpr ⟨scope,hin,decide_eq_true hnot⟩)
            apply Settles.bind
            apply perform_keeps
            · trivial
            intro code
            apply Settles.bind
            apply perform_keeps
            · trivial
            intro now
            apply Settles.bind
            apply store_keeps
            · refine ⟨⟨request,client,consent,rfl,?_,?_,rfl,rfl,⟨rfl,not_not.mp hredirect⟩,⟨rfl,hwithin⟩,
                ⟨rfl,not_not.mp hmethod⟩,
                code,List.mem_cons_self,rfl⟩,rfl⟩
              · simp
              · simp
            · intro answer
              exact Settles.pure (hok _ _)
            · exact fun e => herror _ e
        · exact fun e => herror _ e
    · exact fun e => herror _ e
  · exact fun e _ => herror _ e

theorem grantConsent_keeps {input : GrantConsentInput} {ok : List OAuthAnswered → Unit → Prop}
    {error : List OAuthAnswered → AuthError → Prop} (hok : ∀ past u, ok past u) (herror : ∀ past e, error past e) :
    Keeps o (.grantConsent input) ok error (grantConsent input) [] := by
  unfold grantConsent
  apply Settles.bind
  apply store_keeps
  · trivial
  · intro found
    cases found with
    | none => exact Settles.throw (herror _ _)
    | some client =>
      apply Settles.ite
      · exact fun _ => Settles.throw (herror _ _)
      intro hscope
      have hwithin : ∀ scope ∈ input.scope, scope ∈ client.scopes := by
        intro scope hin
        by_contra hnot
        exact hscope (List.any_eq_true.mpr ⟨scope,hin,decide_eq_true hnot⟩)
      apply Settles.bind
      apply perform_keeps
      · trivial
      intro now
      apply store_keeps
      · refine ⟨input,client,rfl,?_,rfl,⟨rfl,rfl⟩,rfl,hwithin⟩
        simp
      · exact fun answer => hok _ _
      · exact fun e => herror _ e
  · exact fun e => herror _ e

theorem exchangeCode_keeps {input : ExchangeCodeInput} {error : List OAuthAnswered → AuthError → Prop}
    (herror : ∀ past e, error past e) :
    Keeps o (.exchangeCode input)
      (fun past _ => ∃ client code, Exchanges o (.exchangeCode input) past input client code) error
        (exchangeCode o input) [] := by
  unfold exchangeCode
  apply Settles.bind
  apply ofExcept_keeps
  · intro issuer _
    apply Settles.bind
    apply authenticateClient_keeps
    · intro client hchecked
      apply Settles.bind
      apply perform_keeps
      · trivial
      intro now
      apply Settles.bind
      apply store_keeps
      · trivial
      · intro found
        cases found with
        | none => exact Settles.throw (herror _ _)
        | some code =>
          apply Settles.ite
          · exact fun _ => Settles.throw (herror _ _)
          intro hclient
          apply Settles.ite
          · exact fun _ => Settles.throw (herror _ _)
          intro hverifier
          rw [not_or,not_not,not_not] at hclient
          have hexchanges : ∀ past, [stored (.consumeAuthorizationCode input.tenantId (o.hashToken input.code) now) (some code),
              ⟨.now,now⟩,stored (.findClient input.tenantId input.clientId) (some client)] <:+ past →
              Exchanges o (.exchangeCode input) past input client code := by
            intro past hs
            exact ⟨rfl,⟨hs.subset (by simp),hchecked⟩,⟨now,hs.subset (by simp)⟩,hclient.1,hclient.2,not_not.mp hverifier⟩
          apply Settles.bind
          apply perform_keeps
          · trivial
          intro familyId
          apply Settles.bind
          apply issueTokens_keeps rfl ⟨rfl,rfl⟩
          · intro past token hs hcarries
            refine .exchange input client code familyId (hexchanges past ((List.suffix_cons _ _).trans hs)) ?_ hcarries
            exact (drawn_mono hs).subset List.mem_cons_self
          · intro past issued fresh access hissued
            exact Settles.pure ⟨client,code,hexchanges past ((List.suffix_cons _ _).trans hissued.since)⟩
          · exact fun past e _ => herror past e
      · exact fun e => herror _ e
    · exact fun reply e => herror _ e
  · exact fun e _ => herror _ e

end Calls

section Refreshing
variable {o : ServerOptions} {past : List OAuthAnswered} {input : RefreshInput} {client : OAuthClientRecord}
    {record : OAuthTokenRecord}

/-- The token is the only one that was looked up. -/
def Sole (o : ServerOptions) (input : RefreshInput) (record : OAuthTokenRecord) (past : List OAuthAnswered) : Prop :=
  lookups past = [stored (.findTokenByHash input.tenantId (o.hashToken input.refreshToken)) (some record)]

theorem Sole.eq (h : Sole o input record past) {other : OAuthTokenRecord}
    (hin : stored (.findTokenByHash input.tenantId (o.hashToken input.refreshToken)) (some other) ∈ past) : other = record := by
  have hlookup : stored (.findTokenByHash input.tenantId (o.hashToken input.refreshToken)) (some other) ∈ lookups past :=
    List.mem_filter.mpr ⟨hin,rfl⟩
  rw [h,List.mem_singleton] at hlookup
  cases hlookup
  rfl

def Renewed (o : ServerOptions) (input : RefreshInput) (past : List OAuthAnswered) : Prop :=
  (∃ client record, Renews o (.refresh input) past input client record ∧ won past = true) ∧ Cleared o (.refresh input) past

theorem reuse_keeps {ok : List OAuthAnswered → Unit → Prop} (hpresents : Presents o (.refresh input) past input client record)
    (hrotated : record.rotatedAt.isSome = true) (hpending : won past = false ∧ swept past = false)
      (hok : ∀ past, swept past = true → ok past ()) :
    Keeps o (.refresh input) ok (fun past _ => Cleared o (.refresh input) past) (reuse input record) past := by
  unfold reuse
  apply Settles.bind
  apply perform_keeps
  · trivial
  intro now
  apply Settles.bind
  apply store_keeps
  · exact ⟨input,client,record,hpresents.mono (List.suffix_cons _ _),rfl,rfl,hpending.2⟩
  · intro revoked
    apply Settles.ite
    · intro hfound
      apply perform_keeps
      · exact ⟨input,client,record,hpresents.mono ((List.suffix_cons _ _).trans (List.suffix_cons _ _)),rfl,
          ⟨now,revoked,List.mem_cons_self,hfound⟩,hpending.1,Or.inl hrotated⟩
      exact fun reply => hok _ rfl
    · exact fun _ => Settles.pure (hok _ rfl)
  · exact fun e => cleared_of_failed rfl

theorem lostRotation_keeps {ok : List OAuthAnswered → IssuedTokens → Prop}
    (hpresents : Presents o (.refresh input) past input client record) (hpending : won past = false ∧ swept past = false) :
    Keeps o (.refresh input) ok (fun past _ => Cleared o (.refresh input) past) (lostRotation input record) past := by
  unfold lostRotation
  apply Settles.bind
  apply store_keeps
  · trivial
  · intro current
    apply Settles.bind
    apply perform_keeps
    · trivial
    intro now
    apply Settles.bind
    apply store_keeps
    · exact ⟨input,client,record,hpresents.mono ((List.suffix_cons _ _).trans (List.suffix_cons _ _)),rfl,rfl,hpending.2⟩
    · intro revoked
      apply Settles.ite
      · intro hfound
        apply Settles.bind
        apply perform_keeps
        · have hs := ((List.suffix_cons (stored (.findTokenById input.tenantId record.tokenId) current) past).trans
            (List.suffix_cons (⟨.now,now⟩ : OAuthAnswered) _)).trans
              (List.suffix_cons (stored (.revokeFamily input.tenantId (familyOf record) now) revoked) _)
          obtain ⟨kept,hkept,hrotated⟩ : ∃ kept, current = some kept ∧ kept.rotatedAt.isSome = true := by
            cases current with
            | none => cases hfound.1
            | some kept => exact ⟨kept,rfl,hfound.1⟩
          refine ⟨input,client,record,hpresents.mono hs,rfl,⟨now,revoked,List.mem_cons_self,hfound.2⟩,hpending.1,
            Or.inr ⟨kept,?_,hrotated⟩⟩
          simp [hkept]
        exact fun reply => Settles.throw (cleared_of_swept rfl)
      · exact fun _ => Settles.throw (cleared_of_swept rfl)
    · exact fun e => cleared_of_failed rfl
  · exact fun e => cleared_of_failed rfl

theorem wonRotation_keeps {issued : IssuedPair} {fresh : OAuthTokenRecord}
    (hrenews : Renews o (.refresh input) past input client record)
    (hfresh : fresh ∈ minted past) (hkind : fresh.kind = .refresh) (hid : issued.refreshTokenId = some fresh.tokenId)
    (hwon : won past = true) (hswept : swept past = false) (hsole : Sole o input record past) :
    Keeps o (.refresh input) (fun past _ => Renewed o input past) (fun past _ => Cleared o (.refresh input) past)
      (wonRotation input record issued) past := by
  unfold wonRotation
  rw [hid]
  apply Settles.bind
  apply store_keeps
  · trivial
  · intro found
    have hs : past <:+ stored (.findTokenById input.tenantId fresh.tokenId) found :: past := List.suffix_cons _ _
    apply Settles.ite
    · intro _
      apply Settles.bind
      apply perform_keeps
      · trivial
      intro now
      apply Settles.bind
      apply store_keeps
      · exact ⟨input,client,record,hrenews.presents.mono (hs.trans (List.suffix_cons _ _)),rfl,rfl,hswept⟩
      · exact fun revoked => Settles.throw (cleared_of_swept rfl)
      · exact fun e => cleared_of_failed rfl
    · intro hlive
      cases found with
      | none => exact absurd rfl hlive
      | some kept =>
        apply Settles.pure
        refine ⟨⟨client,record,hrenews.mono hs,hwon⟩,Or.inr ?_⟩
        intro input' client' record' hpresents
        obtain rfl : input = input' := Call.refresh.inj hpresents.call
        have hstill : Sole o input record (stored (.findTokenById input.tenantId fresh.tokenId) (some kept) :: past) := hsole
        obtain rfl := hstill.eq hpresents.found
        constructor
        · intro _
          refine Or.inr ⟨hwon,fresh,kept,past,hfresh,hkind,rfl,?_⟩
          cases hrevoked : kept.revokedAt with
          | none => rfl
          | some time =>
            rw [Option.all_some,hrevoked] at hlive
            exact absurd rfl hlive
        · intro hrevoked
          rw [hrenews.live] at hrevoked
          cases hrevoked
  · exact fun e => cleared_of_failed rfl

theorem refreshRecord_keeps {issuer : String} (hpresents : Presents o (.refresh input) past input client record)
    (hminted : minted past = []) (hpending : won past = false ∧ swept past = false) (hsole : Sole o input record past) :
    Keeps o (.refresh input) (fun past _ => Renewed o input past) (fun past _ => Cleared o (.refresh input) past)
      (refreshRecord o input record issuer client) past := by
  unfold refreshRecord
  cases hrevoked : record.revokedAt with
  | some time =>
    dsimp only
    apply Settles.ite
    · intro hrotated
      apply Settles.bind
      apply reuse_keeps hpresents hrotated hpending
      exact fun past hswept => Settles.throw (cleared_of_swept hswept)
    · intro hrotated
      apply Settles.throw
      right
      intro input' client' record' hpresents'
      obtain rfl : input = input' := Call.refresh.inj hpresents'.call
      obtain rfl := hsole.eq hpresents'.found
      constructor
      · intro hnone
        rw [hrevoked] at hnone
        cases hnone
      · exact fun _ hr => absurd hr hrotated
  | none =>
    have hrenews : Renews o (.refresh input) past input client record := ⟨hpresents,hrevoked⟩
    dsimp only
    apply Settles.bind
    apply issueTokens_keeps hminted hpending
    · exact fun past' token hs hcarries => .refresh input client record (hrenews.mono hs) hcarries
    · intro past' issued fresh access hissued
      apply Settles.bind
      apply perform_keeps
      · trivial
      intro now
      have hs' := hissued.since.trans (List.suffix_cons (⟨.now,now⟩ : OAuthAnswered) past')
      have hsole' : Sole o input record past' := hissued.lookups.trans hsole
      have hmem : fresh ∈ minted past' := hissued.minted ▸ List.mem_cons_self
      apply Settles.bind
      apply store_keeps
      · exact ⟨input,client,record,hrenews.mono hs',rfl,rfl,hissued.pending.1,hissued.pending.2,fresh,access,hissued.minted,
          hissued.kinds⟩
      · intro rotated
        have hs'' := hs'.trans (List.suffix_cons (stored (.rotateToken input.tenantId record.tokenId now) rotated) _)
        apply Settles.ite
        · intro hrotated
          subst hrotated
          exact wonRotation_keeps (hrenews.mono hs'') hmem hissued.kinds.1 hissued.id rfl hissued.pending.2 hsole'
        · intro hrotated
          rw [Bool.not_eq_true] at hrotated
          subst hrotated
          exact lostRotation_keeps (hpresents.mono hs'') ⟨hissued.pending.1,hissued.pending.2⟩
      · exact fun e => cleared_of_failed rfl
    · exact fun past' e hfailed => cleared_of_failed hfailed

theorem refresh_keeps : Keeps o (.refresh input) (fun past _ => Renewed o input past)
    (fun past _ => Cleared o (.refresh input) past) (refresh o input) [] := by
  unfold refresh
  apply Settles.bind
  apply ofExcept_keeps
  · intro issuer _
    apply Settles.bind
    apply authenticateClient_keeps
    · intro client hchecked
      apply Settles.bind
      apply store_keeps
      · rfl
      · intro found
        cases found with
        | none => exact Settles.throw (cleared_of_timeless (by simp))
        | some record =>
          apply Settles.ite
          · exact fun _ => Settles.throw (cleared_of_timeless (by simp))
          intro hrecord
          rw [not_or,not_not,not_not] at hrecord
          unfold refreshPresented
          apply Settles.bind
          apply perform_keeps
          · trivial
          intro now
          apply Settles.ite
          · intro hexpired
            apply Settles.throw
            right
            intro input' client' record' hpresents
            obtain rfl : input = input' := Call.refresh.inj hpresents.call
            obtain ⟨now',hin,hlater⟩ := hpresents.unexpired
            have hsole : Sole o input record [⟨.now,now⟩,stored
              (.findTokenByHash input.tenantId (o.hashToken input.refreshToken)) (some record),
                stored (.findClient input.tenantId input.clientId) (some client)] := rfl
            obtain rfl := hsole.eq hpresents.found
            have hnow : now' = now := by simpa using hin
            rw [hnow] at hlater
            exact absurd hexpired (not_le.mpr hlater)
          · intro hunexpired
            refine refreshRecord_keeps ⟨rfl,⟨?_,hchecked⟩,?_,hrecord.1,hrecord.2,now,List.mem_cons_self,
              not_le.mp hunexpired⟩ ?_ ⟨?_,?_⟩ ?_
            · simp
            · simp
            · rfl
            · rfl
            · rfl
            · rfl
      · exact fun e => cleared_of_failed rfl
    · intro reply e
      exact cleared_of_timeless (by simp)
  · intro e _
    exact cleared_of_timeless (by simp)

end Refreshing

section Inspecting
variable {o : ServerOptions} {past : List OAuthAnswered}

theorem revoke_keeps {input : TokenInput} {ok : List OAuthAnswered → Unit → Prop} {error : List OAuthAnswered → AuthError → Prop}
    (hok : ∀ past u, ok past u) (herror : ∀ past e, error past e) : Keeps o (.revoke input) ok error (revoke o input) [] := by
  have hrevoke : ∀ past tokenId, Keeps o (.revoke input) ok error
      (do Server.store (.revokeToken input.tenantId tokenId (← Server.now))) past := by
    intro past tokenId
    apply Settles.bind
    apply perform_keeps
    · trivial
    intro now
    apply store_keeps
    · trivial
    · exact fun answer => hok _ _
    · exact fun e => herror _ e
  have hauthenticated : Keeps o (.revoke input) (fun past _ => lookups past = []) error
      (tryCatch ((fun _ => ()) <$> authenticateClient o input.tenantId input.clientId input.clientSecret) fun _ =>
        pure ()) [] := by
    apply Settles.tryCatch
    apply Settles.map
    apply authenticateClient_keeps
    · exact fun client _ => rfl
    · exact fun reply e => Settles.pure rfl
  unfold revoke
  apply Settles.bind
  refine Settles.mono hauthenticated ?_ fun _ _ h => h
  intro past _ hlookups
  apply Settles.bind
  apply store_keeps
  · exact hlookups
  · intro found
    cases found with
    | some byHash => exact hrevoke _ _
    | none =>
      dsimp only
      cases jtiOf input.token with
      | some jti => exact hrevoke _ _
      | none => exact Settles.pure (hok _ _)
  · exact fun e => herror _ e

theorem isActive_keeps {call : Call} {record : OAuthTokenRecord} {ok : List OAuthAnswered → Bool → Prop}
    {error : List OAuthAnswered → AuthError → Prop} (hok : ∀ past active, ok past active) :
    Keeps o call ok error (isActive record) past := by
  unfold isActive
  apply Settles.ite
  · exact fun _ => Settles.pure (hok _ _)
  · intro _
    apply Settles.bind
    apply perform_keeps
    · trivial
    exact fun now => Settles.pure (hok _ _)

theorem introspect_keeps {input : TokenInput} {ok : List OAuthAnswered → TokenIntrospection → Prop}
    {error : List OAuthAnswered → AuthError → Prop} (hok : ∀ past introspection, ok past introspection)
      (herror : ∀ past e, error past e) :
    Keeps o (.introspect input) ok error (introspect o input) [] := by
  unfold introspect
  apply Settles.bind
  apply authenticateClient_keeps
  · intro client _
    apply Settles.bind
    apply store_keeps
    · rfl
    · intro found
      cases found with
      | some byHash =>
        apply Settles.bind
        exact isActive_keeps fun past active => Settles.pure (hok _ _)
      | none =>
        dsimp only
        cases jtiOf input.token with
        | none => exact Settles.pure (hok _ _)
        | some tokenId =>
          apply Settles.bind
          apply store_keeps
          · trivial
          · intro found
            cases found with
            | none => exact Settles.pure (hok _ _)
            | some record =>
              apply Settles.bind
              apply isActive_keeps
              intro past active
              exact Settles.ite (fun _ => Settles.pure (hok _ _)) fun _ => Settles.pure (hok _ _)
          · exact fun e => herror _ e
    · exact fun e => herror _ e
  · exact fun reply e => herror _ e

theorem verifyAccessToken_keeps {tenantId token : String} {error : List OAuthAnswered → AuthError → Prop}
    (herror : ∀ past e, error past e) :
    Keeps o (.verifyAccessToken tenantId token) (fun past claims => Verifies past tenantId token claims) error
      (verifyAccessToken tenantId token) [] := by
  unfold verifyAccessToken
  split
  · rename_i header payload signature hsegments
    cases decodeJwtSegment header with
    | none => exact Settles.throw (herror _ _)
    | some decodedHeader =>
      apply Settles.bind
      apply perform_keeps
      · trivial
      intro keys
      cases keyOf keys decodedHeader with
      | none => exact Settles.throw (herror _ _)
      | some key =>
        apply Settles.bind
        unfold verifyJwsSignature
        cases decodeBase64Url signature with
        | none => exact Settles.pure (Settles.throw (herror _ _))
        | some bytes =>
          apply Settles.ite
          · exact fun _ => Settles.pure (Settles.throw (herror _ _))
          intro _
          apply perform_keeps
          · trivial
          intro verified
          cases verified with
          | false => exact Settles.throw (herror _ _)
          | true =>
            rw [if_pos rfl]
            cases hclaims : decodeJwtSegment payload with
            | none => exact Settles.throw (herror _ _)
            | some claims =>
              dsimp only
              unfold verifyClaims
              split
              · rename_i tokenId exp hjti hexp
                apply Settles.bind
                apply perform_keeps
                · trivial
                intro now
                apply Settles.ite
                · exact fun _ => Settles.throw (herror _ _)
                intro hearly
                apply Settles.ite
                · exact fun _ => Settles.throw (herror _ _)
                intro htid
                apply Settles.bind
                apply Settles.tryCatch
                apply store_keeps
                · trivial
                · intro found
                  cases found with
                  | none => exact Settles.throw (herror _ _)
                  | some record =>
                    apply Settles.ite
                    · exact fun _ => Settles.throw (herror _ _)
                    intro hlive
                    apply Settles.pure
                    refine ⟨header,payload,signature,key,bytes,hsegments,?_,claims,tokenId,exp,now,record,hclaims,hjti,hexp,
                      not_not.mp htid,?_,not_le.mp hearly,?_,?_,rfl⟩
                    · simp
                    · simp
                    · simp
                    · simpa using hlive
                · exact fun e => Settles.pure (Settles.throw (herror _ _))
              · exact Settles.throw (herror _ _)
  · exact Settles.throw (herror _ _)

theorem serve_follows (o : ServerOptions) (call : Call) : Follows (Rests o call) (Ends o call) (serve o call).run [] := by
  have hserve : Settles (Rests o call) (fun past answer => Concludes o call past answer ∧ Cleared o call past)
      (fun past _ => Cleared o call past) (serve o call) [] := by
    cases call with
    | registerClient tenantId input context =>
      apply Settles.map
      apply registerClient_keeps
      · exact fun past minted => ⟨⟨nofun,nofun⟩,cleared_of_call nofun⟩
      · exact fun past e => cleared_of_call nofun
    | authorize request userId =>
      apply Settles.map
      apply authorize_keeps
      · exact fun past decision => ⟨⟨nofun,nofun⟩,cleared_of_call nofun⟩
      · exact fun past e => cleared_of_call nofun
    | grantConsent input =>
      apply Settles.map
      apply grantConsent_keeps
      · exact fun past u => ⟨⟨nofun,nofun⟩,cleared_of_call nofun⟩
      · exact fun past e => cleared_of_call nofun
    | exchangeCode input =>
      have hexchange : Keeps o (.exchangeCode input) (fun past _ => ∃ client code,
        Exchanges o (.exchangeCode input) past input client code)
          (fun past _ => Cleared o (.exchangeCode input) past) (exchangeCode o input) [] :=
        exchangeCode_keeps fun past e => cleared_of_call nofun
      apply Settles.map
      refine Settles.mono hexchange ?_ fun _ _ h => h
      rintro past issued ⟨client,code,hexchanges⟩
      exact ⟨⟨fun _ _ => Or.inl ⟨input,client,code,hexchanges⟩,nofun⟩,cleared_of_call nofun⟩
    | refresh input =>
      apply Settles.map
      refine Settles.mono refresh_keeps ?_ fun _ _ h => h
      rintro past issued ⟨⟨client,record,hrenews,hwon⟩,hcleared⟩
      exact ⟨⟨fun _ _ => Or.inr ⟨input,client,record,hrenews,hwon⟩,nofun⟩,hcleared⟩
    | revoke input =>
      apply Settles.map
      apply revoke_keeps
      · exact fun past u => ⟨⟨nofun,nofun⟩,cleared_of_call nofun⟩
      · exact fun past e => cleared_of_call nofun
    | introspect input =>
      apply Settles.map
      apply introspect_keeps
      · exact fun past introspection => ⟨⟨nofun,nofun⟩,cleared_of_call nofun⟩
      · exact fun past e => cleared_of_call nofun
    | verifyAccessToken tenantId token =>
      have hverify : Keeps o (.verifyAccessToken tenantId token) (fun past claims => Verifies past tenantId token claims)
          (fun past _ => Cleared o (.verifyAccessToken tenantId token) past) (verifyAccessToken tenantId token) [] :=
        verifyAccessToken_keeps fun past e => cleared_of_call nofun
      apply Settles.map
      refine Settles.mono hverify ?_ fun _ _ h => h
      intro past claims hverifies
      refine ⟨⟨nofun,?_⟩,cleared_of_call nofun⟩
      rintro claims' ⟨⟩
      exact ⟨tenantId,token,rfl,hverifies⟩
  refine Follows.mono ?_ hserve
  intro past r hr
  cases r with
  | ok answer =>
    refine ⟨?_,hr.2⟩
    rintro answer' ⟨⟩
    exact hr.1
  | error e => exact ⟨nofun,hr⟩

end Inspecting

section Runs

/-- A call was answered so, according to the trace. -/
def Told (trace : List Event) (call : Call) (past : List OAuthAnswered) : Prop :=
    ∀ a ∈ past, (⟨call,a.op,a.reply⟩ : Event) ∈ trace

abbrev OAuthPool := Pool OAuthOp OAuthOp.Reply Call (Except AuthError Answer) (World OAuthStore)

def newOAuthWorld (keys : SigningKeys) : World OAuthStore := ⟨.empty,0,fun _ => 0,keys,[],[]⟩

/-- All calls of the server, their operations in any order, and the keys rotated in between. -/
abbrev oauthSystem (o : ServerOptions) (env : Environment) (keys : SigningKeys) : System OAuthPool (Turn Call SigningKeys) :=
  (oauthService OAuthStore.perform env o).system (newOAuthWorld keys)

variable {o : ServerOptions} {env : Environment} {keys : SigningKeys} {s s' : OAuthPool} {turn : Turn Call SigningKeys}
  {allow : OAuthPool → Turn Call SigningKeys → Prop} {trace trace' : List Event} {call : Call} {past : List OAuthAnswered}

theorem Told.grow (h : Told trace call past) (hs : trace ⊆ trace') : Told trace' call past := fun a ha => hs (h a ha)

theorem Told.cons {e : Event} (h : Told trace call past) : Told (e :: trace) call past := h.grow (List.subset_cons_self _ _)

theorem handle_trace (place : ℕ) (call : Call) (op : OAuthOp) (w : World OAuthStore) :
    (World.handle OAuthStore.perform env place call op w).2.trace =
      ⟨call,op,(World.handle OAuthStore.perform env place call op w).1⟩ :: w.trace := by
  cases op <;> rfl

/-- What the calls were answered stands in the trace. -/
def AllTold (s : OAuthPool) : Prop := ∀ call past, s.Was call past → Told s.world.trace call past

theorem allTold_start (w : World OAuthStore) : AllTold (.start w) := by
  rintro call past (⟨i,f,hf,-⟩ | ⟨e,he,-⟩)
  · cases hf
  · cases he

theorem AllTold.step (h : AllTold s) (hs : (oauthService OAuthStore.perform env o).step s turn = some s') : AllTold s' := by
  intro call past hwas
  rcases Service.step_cases hs with ⟨i,call',rfl,-,rfl⟩ | ⟨i,f,rfl,hf,rfl⟩ | ⟨keys,rfl,rfl⟩
  · rw [Pool.place_world]
    rcases Pool.was_place hwas with ⟨rfl,rfl⟩ | hold
    · intro a ha
      cases ha
    · exact h call past hold
  · rw [Service.resumed_world]
    change Told (World.handle OAuthStore.perform env i f.call f.op s.world).2.trace call past
    rw [handle_trace]
    rcases Pool.was_place hwas with ⟨rfl,rfl⟩ | hold
    · intro a ha
      rcases List.mem_cons.mp ha with rfl | ha
      · exact List.mem_cons_self
      · exact List.mem_cons_of_mem _ (h _ _ (Or.inl ⟨i,f,hf,rfl,rfl⟩) a ha)
    · exact (h call past hold).cons
  · exact h call past hwas

/-- What the calls rest on and were answered, at every state of a run. -/
structure Accounted (o : ServerOptions) (s : OAuthPool) : Prop where
  ruled : Ruled (Rests o) (Ends o) s
  told : AllTold s

theorem accounted_start (w : World OAuthStore) : Accounted o (.start w) := ⟨ruled_start w,allTold_start w⟩

theorem Accounted.step (h : Accounted o s) (hs : (oauthService OAuthStore.perform env o).step s turn = some s') :
    Accounted o s' :=
  ⟨h.ruled.step (serve_follows o) hs,h.told.step hs⟩

end Runs
end StructureAi.Auth

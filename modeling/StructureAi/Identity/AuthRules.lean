import StructureAi.Identity.AuthService

/-! # What the calls of the auth service rest on

The runs of the service over its store in memory, and one rule for each operation that writes:
which answers of the same call it rests on, whatever the others do meanwhile. The rules are
read off the programs once, and the results about runs use nothing else of them.
-/
namespace StructureAi.Identity
open StructureAi.Foundation AuthService AuthProgram
open Program (Yields)

section Runs

abbrev AuthAnswered := Answered AuthOp AuthOp.Reply

abbrev AuthEntry := Entry AuthOp AuthOp.Reply AuthCall

abbrev AuthWorld := Logged AuthOp AuthOp.Reply AuthCall MemoryState

abbrev AuthPool := Pool AuthOp AuthOp.Reply AuthCall (Except AuthServiceError AuthAnswer) AuthWorld

/-- What lies around the service answers a query by the number of the operation. -/
abbrev AuthEnvironment := ℕ → (q : AuthQuery) → q.Reply

def AuthEnvironment.perform (env : AuthEnvironment) (asked : ℕ) : (op : AuthOp) → MemoryState → op.Reply × MemoryState
  | .store op,s => s.perform op
  | .query q,s => (env asked q,s)

/-- The operations of the second factor, which shares the store. -/
def StoreOp.ofSecondFactor : StoreOp → Bool
  | .findSession _ _ _ | .findUserById _ _ | .elevateSession _ _ _ | .putTotpSecret _ | .findTotp _ _
  | .confirmTotp _ _ _ _ | .removeTotp _ _ | .replaceTotpSecret _ _ _ | .recordTotpFailure _ | .resetTotpFailures _ _
  | .markTotpStepUsed _ _ _ | .consumeRecoveryCode _ _ _ => true
  | _ => false

abbrev SecondFactorOp := {op : StoreOp // op.ofSecondFactor = true}

def authService (o : MakeAuthOptions) (env : AuthEnvironment) :
    Service AuthOp AuthOp.Reply AuthCall (Except AuthServiceError AuthAnswer) AuthWorld SecondFactorOp :=
  loggedService (fun call => call.program o) env.perform fun op s => (s.perform op.1).2

abbrev stored (op : StoreOp) (answer : op.Answer) : AuthAnswered := ⟨.store op,Except.ok answer⟩

abbrev asked (q : AuthQuery) (reply : q.Reply) : AuthAnswered := ⟨.query q,reply⟩

end Runs

theorem Except.bind_ok {ε α β : Type} {x : Except ε α} {f : α → Except ε β} {b : β} (h : x >>= f = .ok b) :
    ∃ a, x = .ok a ∧ f a = .ok b := by
  cases x with
  | error e => cases h
  | ok a => exact ⟨a,rfl,h⟩

section Rules

/-- An answer names a user. -/
inductive Names : AuthAnswered → String → Prop where
  | byId {tenantId userId : String} {user : AuthUser} : Names (stored (.findUserById tenantId userId) (some user)) user.id
  | byEmail {tenantId email : String} {user : AuthUser} :
    Names (stored (.findUserByEmail tenantId email) (some user)) user.id
  | verified {tenantId userId : String} {now : ℤ} {user : AuthUser} :
    Names (stored (.setEmailVerified tenantId userId now) (some user)) user.id
  | credential {tenantId email : String} {credential : PasswordCredential} :
    Names (stored (.findPassword tenantId email) (some credential)) credential.userId

def KnownUser (past : List AuthAnswered) (userId : String) : Prop :=
  '\x00' ∉ userId.toList ∨ ∃ a ∈ past, Names a userId

/-- A user was found by an email, or through a session. -/
inductive FoundUser (tenantId : String) (past : List AuthAnswered) (user : AuthUser) : Prop where
  | byEmail (email : String) (found : stored (.findUserByEmail tenantId email) (some user) ∈ past)
  | bySession (tokenHash : String) (now : ℤ) (session : SessionRecord)
    (session_found : stored (.findSession tenantId tokenHash now) (some session) ∈ past)
    (found : stored (.findUserById tenantId session.userId) (some user) ∈ past)

/-- The token that a request presents, and for what. -/
def AuthRequest.presents : AuthRequest → Option (OneTimeTokenPurpose × String)
  | .verifyEmail token => some (.emailVerification,token)
  | .consumeMagicLink token => some (.magicLink,token)
  | .resetPassword token _ => some (.passwordReset,token)
  | _ => none

/-- The requests of an authentication with a passkey. -/
def AuthRequest.authenticates : AuthRequest → Bool
  | .beginPasskeyAuthentication _ _ | .finishPasskeyAuthentication _ _ => true
  | _ => false

variable (o : MakeAuthOptions) (call : AuthCall)

def ConsumedToken (past : List AuthAnswered) (purpose : OneTimeTokenPurpose) (record : OneTimeTokenRecord) : Prop :=
  ∃ token now, call.request.presents = some (purpose,token) ∧
    stored (.consumeOneTimeToken call.tenantId purpose (o.platform.hashToken token) now) (some record) ∈ past

/-- What a call has seen of the mailbox of a user: a token that was mailed for the user or to the email, or a
provider that vouches for the email. -/
inductive MailboxProof (past : List AuthAnswered) (userId : String) : Prop where
  | verification (record : OneTimeTokenRecord) (consumed : ConsumedToken o call past .emailVerification record)
    (names : record.userId = some userId)
  | magicLink (record : OneTimeTokenRecord) (user : AuthUser) (consumed : ConsumedToken o call past .magicLink record)
    (found : stored (.findUserByEmail call.tenantId record.email) (some user) ∈ past) (names : user.id = userId)
  | oauth (provider : OAuthProvider) (code codeVerifier redirectUri : String) (given profile : OAuthProfile) (email : String)
    (user : AuthUser) (request : ∃ state code current, call.request = .completeOAuth provider.id state code current)
    (exchanged : asked (.exchangeOAuthCode provider code codeVerifier redirectUri) (.ok given) ∈ past)
    (valid : validateOAuthProfile o.platform given = .ok profile) (vouched : profile.emailVerified = true)
    (address : profile.email = some email) (found : FoundUser call.tenantId past user) (owns : user.email = some email)
    (names : user.id = userId)

def AuthRequest.newPassword : AuthRequest → Option String
  | .resetPassword _ newPassword => some newPassword
  | .changePassword _ _ newPassword => some newPassword
  | _ => none

/-- A user and its password, as a registration makes them. -/
structure RegisteredBy (past : List AuthAnswered) (user : AuthUser) (credential : PasswordCredential) : Prop where
  request : ∃ email password displayName, call.request = .registerPassword email password displayName ∧
    normalizeEmail o.platform email = .ok credential.email ∧
    asked (.hashPassword password) (.ok credential.passwordHash) ∈ past
  tenant : user.tenantId = call.tenantId ∧ credential.tenantId = call.tenantId
  same : user.id = credential.userId ∧ user.email = some credential.email
  unverified : user.emailVerified = false
  drawn : '\x00' ∉ user.id.toList

/-- A token as it is issued. -/
structure IssuedBy (past : List AuthAnswered) (record : OneTimeTokenRecord) : Prop where
  tenant : record.tenantId = call.tenantId
  hash : ∃ token, record.tokenHash = o.platform.hashToken token
  email : ∃ value, normalizeEmail o.platform value = .ok record.email
  user : ∀ userId ∈ record.userId, KnownUser past userId

/-- A counter that may replace the one of a passkey that was found. -/
def CountsOn (past : List AuthAnswered) (tenantId credentialId : String) (expectedCounter counter : ℕ) : Prop :=
  tenantId = call.tenantId ∧ ∃ looked passkey, stored (.findPasskey tenantId looked) (some passkey) ∈ past ∧
    passkey.credentialId = credentialId ∧ passkey.counter = expectedCounter ∧ (0 < expectedCounter → expectedCounter < counter)

def Grounded (past : List AuthAnswered) : AuthOp → Prop
  | .store (.createPasswordUser user credential) => RegisteredBy o call past user credential
  | .store (.createOAuthUser user _) => user.tenantId = call.tenantId ∧ '\x00' ∉ user.id.toList ∧
    ∀ email ∈ user.email, '\x00' ∉ email.toList
  | .store (.createMagicLinkUser user) => user.tenantId = call.tenantId ∧ '\x00' ∉ user.id.toList ∧
    ∃ record, ConsumedToken o call past .magicLink record ∧ user.email = some record.email
  | .store (.setEmailVerified tenantId userId _) => tenantId = call.tenantId ∧ MailboxProof o call past userId
  | .store (.replacePasswordAndRevokeSessions tenantId _ passwordHash _) => tenantId = call.tenantId ∧
    ∃ password, call.request.newPassword = some password ∧ asked (.hashPassword password) (.ok passwordHash) ∈ past
  | .store (.putOneTimeToken record) => IssuedBy o call past record
  | .store (.consumeOneTimeToken tenantId purpose tokenHash now) => tenantId = call.tenantId ∧
    (∃ token, call.request.presents = some (purpose,token) ∧ tokenHash = o.platform.hashToken token) ∧
    ∃ earlier, past = asked .now now :: earlier
  | .store (.createSession record) => record.tenantId = call.tenantId ∧ KnownUser past record.userId
  | .store (.putPasskeyChallenge record) => record.tenantId = call.tenantId ∧
    ∃ challenge, record.challengeHash = o.platform.hashToken challenge
  | .store (.consumePasskeyChallenge tenantId _ challengeHash now) => tenantId = call.tenantId ∧
    (∃ challenge, challengeHash = o.platform.hashToken challenge) ∧ ∃ earlier, past = asked .now now :: earlier
  | .store (.updatePasskeyCounter tenantId credentialId expectedCounter counter) =>
    CountsOn call past tenantId credentialId expectedCounter counter
  | .store (.addPasskey _) | .store (.renamePasskey _ _ _ _) | .store (.removePasskey _ _ _) =>
    call.request.authenticates = false
  | _ => True

/-- The answers that a sign-in with a password rests on. -/
structure SignedInBy (past : List AuthAnswered) (email password : String) : Prop where
  accepted : ∃ address credential user, normalizeEmail o.platform email = .ok address ∧
    stored (.findPassword call.tenantId address) (some credential) ∈ past ∧
    asked (.verifyPassword password credential.passwordHash) (.ok true) ∈ past ∧
    stored (.findUserById call.tenantId credential.userId) (some user) ∈ past ∧ user.emailVerified = true

/-- The answers that a sign-in with a passkey rests on. -/
structure AssertedBy (past : List AuthAnswered) (response : PasskeyAuthenticationResponse) : Prop where
  accepted : ∃ clientChallenge challenge passkey counter consumedAt,
    Webauthn.passkeyChallengeFromClientData response.clientDataJSON = .ok clientChallenge ∧
    stored (.consumePasskeyChallenge call.tenantId .authentication (o.platform.hashToken clientChallenge) consumedAt)
      (some challenge) ∈ past ∧
    stored (.findPasskey call.tenantId response.credentialId) (some passkey) ∈ past ∧
    (∀ userId ∈ challenge.userId, userId = passkey.userId) ∧ Webauthn.assertedCounter response = .ok counter ∧
    stored (.updatePasskeyCounter call.tenantId response.credentialId passkey.counter counter) () ∈ past

/-- What a call that returns rests on. -/
structure Concluded (past : List AuthAnswered) (answer : AuthAnswer) : Prop where
  consumed : ∀ purpose token, call.request.presents = some (purpose,token) → ∃ record, ConsumedToken o call past purpose record
  signedIn : ∀ email password caller, call.request = .signInPassword email password caller →
    SignedInBy o call past email password
  asserted : ∀ response caller, call.request = .finishPasskeyAuthentication response caller → AssertedBy o call past response

variable {o call} {past past' : List AuthAnswered}

theorem normalizeEmail_kind {platform : Platform} {value email : String} (h : normalizeEmail platform value = .ok email) :
    '\x00' ∉ email.toList := by
  unfold normalizeEmail at h
  simp only at h
  split at h
  · cases h
  · split at h
    · cases h
    · rename_i hvalid
      cases h
      rw [String.toList_ofList]
      intro hnul
      refine hvalid (Or.inr (Or.inr (Or.inr (Or.inr (Or.inr (Or.inr ?_))))))
      exact List.any_eq_true.mpr ⟨_,hnul,by decide⟩

theorem trim_sublist (cs : List Char) : (trim cs).Sublist cs := by
  unfold trim trimOf
  exact (List.rdropWhile_prefix _ _).sublist.trans (List.dropWhile_suffix _).sublist

theorem profileEmail_kind {email : String} (h : '\x00' ∉ email.toList) : '\x00' ∉ (profileEmail o email).toList := by
  rw [profileEmail,String.toList_ofList]
  exact o.platform.lowers_nul _ fun hin => h ((trim_sublist _).subset hin)

theorem KnownUser.mono {userId : String} (h : KnownUser past userId) (hs : past <:+ past') : KnownUser past' userId := by
  rcases h with hdrawn | ⟨a,ha,hnames⟩
  · exact Or.inl hdrawn
  · exact Or.inr ⟨a,hs.subset ha,hnames⟩

theorem ConsumedToken.mono {purpose : OneTimeTokenPurpose} {record : OneTimeTokenRecord}
    (h : ConsumedToken o call past purpose record) (hs : past <:+ past') : ConsumedToken o call past' purpose record := by
  obtain ⟨token,now,hpresents,hin⟩ := h
  exact ⟨token,now,hpresents,hs.subset hin⟩

theorem FoundUser.mono {tenantId : String} {user : AuthUser} (h : FoundUser tenantId past user) (hs : past <:+ past') :
    FoundUser tenantId past' user := by
  cases h with
  | byEmail email found => exact .byEmail email (hs.subset found)
  | bySession tokenHash now session session_found found =>
    exact .bySession tokenHash now session (hs.subset session_found) (hs.subset found)

theorem FoundUser.known {tenantId : String} {user : AuthUser} (h : FoundUser tenantId past user) : KnownUser past user.id := by
  cases h with
  | byEmail email found => exact Or.inr ⟨_,found,.byEmail⟩
  | bySession tokenHash now session session_found found => exact Or.inr ⟨_,found,.byId⟩

end Rules

/-- Rules by which operations rest on the answers before them, queries on none. -/
class AsksFreely (rests : List AuthAnswered → AuthOp → Prop) : Prop where
  free : ∀ past q, rests past (.query q)

section Queries
variable {rests : List AuthAnswered → AuthOp → Prop} {past : List AuthAnswered} {α : Type}

theorem fromExcept_keeps {x : Except AuthServiceError α} {ok : List AuthAnswered → α → Prop} (h : ∀ a, x = .ok a → ok past a) :
    Yields rests ok (fromExcept x) past := h

theorem query_keeps [AsksFreely rests] {q : AuthQuery} {ok : List AuthAnswered → q.Reply → Prop}
    (h : ∀ reply, ok (asked q reply :: past) reply) : Yields rests ok (query q) past :=
  Yields.lift (AsksFreely.free past q) h

theorem fromExcept_then {β : Type} {x : Except AuthServiceError α} {f : α → AuthProgram β} {ok : List AuthAnswered → β → Prop}
    (h : ∀ a, x = .ok a → Yields rests ok (f a) past) : Yields rests ok (fromExcept x >>= f) past :=
  Yields.bind (fromExcept_keeps h)

theorem query_then [AsksFreely rests] {q : AuthQuery} {f : q.Reply → AuthProgram α} {ok : List AuthAnswered → α → Prop}
    (h : ∀ reply, Yields rests ok (f reply) (asked q reply :: past)) :
    Yields rests ok (query q >>= f) past :=
  Yields.bind (query_keeps h)

theorem configFor_keeps [AsksFreely rests] {tenantId : String} {ok : List AuthAnswered → TenantAuthConfig → Prop}
    (h : ∀ past' config, past <:+ past' → ok past' config) : Yields rests ok (configFor tenantId) past := by
  apply query_then
  rintro reply
  apply fromExcept_keeps
  rintro config rfl
  exact h _ config (List.suffix_cons _ _)

theorem configFor_then [AsksFreely rests] {tenantId : String} {f : TenantAuthConfig → AuthProgram α}
    {ok : List AuthAnswered → α → Prop} (h : ∀ past' config, past <:+ past' → Yields rests ok (f config) past') :
    Yields rests ok (configFor tenantId >>= f) past :=
  Yields.bind (configFor_keeps h)

end Queries

section Steps
variable {o : MakeAuthOptions} {call : AuthCall} {past : List AuthAnswered} {α : Type}

abbrev Keeps (o : MakeAuthOptions) (call : AuthCall) (ok : List AuthAnswered → α → Prop) (x : AuthProgram α)
    (past : List AuthAnswered) : Prop := Yields (Grounded o call) ok x past

instance : AsksFreely (Grounded o call) := ⟨fun _ _ => trivial⟩

theorem attempt_keeps {op : StoreOp} {ok : List AuthAnswered → Except IdentityConflict op.Answer → Prop}
    (hrests : Grounded o call past (.store op)) (h : ∀ reply, ok (⟨.store op,reply⟩ :: past) reply) :
    Keeps o call ok (attempt op) past := Yields.lift hrests h

theorem store_keeps (op : StoreOp) {ok : List AuthAnswered → op.Answer → Prop} (hrests : Grounded o call past (.store op))
    (h : ∀ answer, ok (stored op answer :: past) answer) : Keeps o call ok (store op) past := by
  apply Yields.bind
  apply attempt_keeps hrests
  intro reply
  cases reply with
  | error conflict => exact Yields.throw
  | ok answer => exact Yields.pure (h answer)

theorem store_then (op : StoreOp) {f : op.Answer → AuthProgram α} {ok : List AuthAnswered → α → Prop}
    (hrests : Grounded o call past (.store op)) (h : ∀ answer, Keeps o call ok (f answer) (stored op answer :: past)) :
    Keeps o call ok (store op >>= f) past :=
  Yields.bind (store_keeps op hrests h)

theorem randomToken_keeps {byteLength : ℕ} {ok : List AuthAnswered → String → Prop}
    (h : ∀ past' buffer, past <:+ past' → ok past' (encodeBase64Url buffer)) :
    Keeps o call ok (randomToken byteLength) past := by
  apply query_then
  intro buffer
  apply Yields.pure
  exact h _ buffer.1 (List.suffix_cons _ _)

section Walls
variable {tenantId : String} {action : AuthAction} {key : String} {ok : List AuthAnswered → Unit → Prop}
  (h : ∀ past', past <:+ past' → ok past' ())
include h

theorem limit_keeps : Keeps o call ok (limit o tenantId action key) past := by
  apply query_then
  rintro reply
  apply fromExcept_keeps
  rintro ⟨⟩ rfl
  exact h _ (List.suffix_cons _ _)

omit h in
theorem limit_then {f : Unit → AuthProgram α} {ok : List AuthAnswered → α → Prop}
    (h : ∀ past', past <:+ past' → Keeps o call ok (f ()) past') :
    Keeps o call ok (limit o tenantId action key >>= f) past :=
  Yields.bind (limit_keeps h)

theorem limitAny_keeps {key : Option String} : Keeps o call ok (limitAny o tenantId action key) past := by
  cases key with
  | none => exact Yields.pure (h past (List.suffix_refl _))
  | some key => exact limit_keeps h

theorem wallBefore_keeps : Keeps o call ok (wallBefore o tenantId action key) past := by
  unfold wallBefore
  split
  · apply Yields.bind
    apply query_keeps
    rintro reply
    apply fromExcept_keeps
    rintro ⟨⟩ rfl
    exact h _ (List.suffix_cons _ _)
  · exact limit_keeps h

theorem wallOnFailure_keeps : Keeps o call ok (wallOnFailure o tenantId action key) past := by
  unfold wallOnFailure
  split
  · exact limit_keeps h
  · exact Yields.pure (h past (List.suffix_refl _))

theorem recordAudit_keeps {userId provider : Option String} :
    Keeps o call ok (recordAudit tenantId action userId provider) past := by
  apply query_keeps
  rintro ⟨⟩
  exact h _ (List.suffix_cons _ _)

theorem auditIf_keeps {done : Bool} {userId : String} : Keeps o call ok (auditIf done tenantId action userId) past := by
  unfold auditIf
  split
  · exact recordAudit_keeps h
  · exact Yields.pure (h past (List.suffix_refl _))

theorem walls_keeps {wall : String → AuthProgram Unit}
    (hwall : ∀ key past (ok : List AuthAnswered → Unit → Prop), (∀ past', past <:+ past' → ok past' ()) →
      Keeps o call ok (wall key) past)
    (walls : List String) : Keeps o call ok (walls.forM wall) past := by
  induction walls generalizing past with
  | nil => exact Yields.pure (h past (List.suffix_refl _))
  | cons key walls ih =>
    apply Yields.bind
    apply hwall
    intro past' hs
    apply ih
    intro past'' hs'
    exact h past'' (hs.trans hs')

end Walls

theorem charge_keeps {tenantId : String} {walls : List String} {ok : List AuthAnswered → Unit → Prop}
    (h : ∀ past', past <:+ past' → ok past' ()) : Keeps o call ok (charge o tenantId walls) past := by
  apply walls_keeps h
  intro key past ok hok
  exact wallOnFailure_keeps hok

theorem refused_keeps {tenantId reason : String} {walls : List String} {ok : List AuthAnswered → α → Prop} :
    Keeps o call ok (refused o tenantId walls reason) past := by
  apply Yields.bind
  apply charge_keeps
  intro past' _
  exact Yields.throw

theorem isPending_keeps {tenantId userId : String} {ok : List AuthAnswered → Bool → Prop}
    (h : ∀ past' pending, past <:+ past' → ok past' pending) : Keeps o call ok (isPending o tenantId userId) past := by
  unfold isPending
  split
  · apply Yields.bind
    apply query_keeps
    rintro reply
    apply fromExcept_keeps
    rintro pending rfl
    exact h _ pending (List.suffix_cons _ _)
  · exact Yields.pure (h past false (List.suffix_refl _))

theorem createSession_keeps {user : AuthUser} {config : TenantAuthConfig} {ok : List AuthAnswered → AuthSession → Prop}
    (hknown : KnownUser past user.id) (h : ∀ past' session, past <:+ past' → session.user = user → ok past' session) :
    Keeps o call ok (createSession o call.tenantId user config) past := by
  apply Yields.bind
  apply randomToken_keeps
  intro past₁ raw hs₁
  apply query_then
  intro now
  apply Yields.bind
  apply isPending_keeps
  intro past₂ pending hs₂
  apply Yields.bind
  apply randomToken_keeps
  intro past₃ id hs₃
  have hs : past <:+ past₃ := hs₁.trans ((List.suffix_cons _ _).trans (hs₂.trans hs₃))
  apply store_then
  · exact ⟨rfl,hknown.mono hs⟩
  · rintro ⟨⟩
    apply Yields.pure
    exact h _ _ (hs.trans (List.suffix_cons _ _)) rfl

theorem sendToken_keeps {config : TenantAuthConfig} {purpose : OneTimeTokenPurpose} {email raw : String} {expiresAt : ℤ}
    {tenantId : String} {ok : List AuthAnswered → Unit → Prop} (h : ∀ past', past <:+ past' → ok past' ()) :
    Keeps o call ok (sendToken o tenantId config purpose email raw expiresAt) past := by
  unfold sendToken
  split
  · exact Yields.throw
  · apply Yields.bind
    apply query_keeps
    rintro reply
    apply fromExcept_keeps
    rintro ⟨⟩ rfl
    exact h _ (List.suffix_cons _ _)

theorem issueEmailToken_keeps {config : TenantAuthConfig} {purpose : OneTimeTokenPurpose} {email : String}
    {userId : Option String} {ok : List AuthAnswered → Unit → Prop} (hemail : ∃ value, normalizeEmail o.platform value =
      .ok email)
    (huser : ∀ id ∈ userId, KnownUser past id) (h : ∀ past', past <:+ past' → ok past' ()) :
    Keeps o call ok (issueEmailToken o call.tenantId config purpose email userId) past := by
  apply Yields.bind
  apply randomToken_keeps
  intro past₁ raw hs₁
  apply query_then
  intro now
  have hs : past <:+ asked .now now :: past₁ := hs₁.trans (List.suffix_cons _ _)
  apply store_then
  · exact ⟨rfl,⟨_,rfl⟩,hemail,fun id hin => (huser id hin).mono hs⟩
  · rintro ⟨⟩
    apply sendToken_keeps
    intro past₂ hs₂
    exact h past₂ (hs.trans ((List.suffix_cons _ _).trans hs₂))

theorem consumeToken_keeps {purpose : OneTimeTokenPurpose} {token : String} {ok : List AuthAnswered → OneTimeTokenRecord → Prop}
    (hpresents : call.request.presents = some (purpose,token))
    (h : ∀ past' record, past <:+ past' → ConsumedToken o call past' purpose record → ok past' record) :
    Keeps o call ok (consumeToken o call.tenantId purpose token) past := by
  apply query_then
  intro now
  apply store_then
  · exact ⟨rfl,⟨token,hpresents,rfl⟩,past,rfl⟩
  · intro answer
    cases answer with
    | none => exact Yields.throw
    | some record =>
      apply Yields.pure
      apply h
      · exact (List.suffix_cons _ _).trans (List.suffix_cons _ _)
      · exact ⟨token,now,hpresents,List.mem_cons_self⟩

theorem resolveSession_keeps {tenantId token : String} {ok : List AuthAnswered → AuthSession × Option ℤ → Prop}
    (h : ∀ past' resolved, past <:+ past' → FoundUser tenantId past' resolved.1.user → ok past' resolved) :
    Keeps o call ok (resolveSession o tenantId token) past := by
  apply query_then
  intro now
  apply store_then (.findSession _ _ _) trivial
  intro found
  cases found with
  | none => exact Yields.throw
  | some record =>
    apply store_then (.findUserById _ _) trivial
    intro found
    cases found with
    | none => exact Yields.throw
    | some user =>
      apply Yields.pure
      apply h
      · exact (List.suffix_cons _ _).trans ((List.suffix_cons _ _).trans (List.suffix_cons _ _))
      · exact .bySession _ now record (List.mem_cons_of_mem _ List.mem_cons_self) List.mem_cons_self

theorem getSession_keeps {tenantId token : String} {ok : List AuthAnswered → AuthSession → Prop}
    (h : ∀ past' session, past <:+ past' → FoundUser tenantId past' session.user → ok past' session) :
    Keeps o call ok (getSession o tenantId token) past := by
  apply Yields.bind
  apply resolveSession_keeps
  intro past' resolved hs hfound
  exact Yields.pure (h past' resolved.1 hs hfound)

theorem requireElevatedSession_keeps {tenantId token : String} {ok : List AuthAnswered → AuthSession → Prop}
    (h : ∀ past' session, past <:+ past' → FoundUser tenantId past' session.user → ok past' session) :
    Keeps o call ok (requireElevatedSession o tenantId token) past := by
  apply Yields.bind
  apply resolveSession_keeps
  intro past' resolved hs hfound
  split
  · exact Yields.throw
  · exact Yields.pure (h past' resolved.1 hs hfound)

end Steps

section Passwords
variable {o : MakeAuthOptions} {call : AuthCall} {past : List AuthAnswered}

theorem registerPassword_keeps {email password : String} {displayName : Option String}
    (hcall : call.request = .registerPassword email password displayName) :
    Keeps o call (fun _ _ => True) (registerPassword o call.tenantId email password displayName) past := by
  apply configFor_then
  intro past₁ config _
  apply fromExcept_then
  intro address haddress
  apply limit_then
  intro past₂ _
  apply fromExcept_then
  intro _ _
  apply query_then
  intro reply
  apply fromExcept_then
  rintro passwordHash rfl
  apply query_then
  intro now
  apply Yields.bind
  apply randomToken_keeps
  intro past₃ id hs₃
  have hdrawn := (not_mem_encodeBase64Url id).2
  apply store_then
  · constructor
    · exact ⟨email,password,displayName,hcall,haddress,hs₃.subset (List.mem_cons_of_mem _ List.mem_cons_self)⟩
    · exact ⟨rfl,rfl⟩
    · exact ⟨rfl,rfl⟩
    · rfl
    · exact hdrawn
  · rintro ⟨⟩
    apply Yields.bind
    apply issueEmailToken_keeps ⟨email,haddress⟩
    · rintro _ ⟨⟩
      exact Or.inl hdrawn
    · intro past₄ _
      apply Yields.bind
      apply recordAudit_keeps
      intro past₅ _
      exact Yields.pure trivial

theorem requestEmailVerification_keeps {email : String} :
    Keeps o call (fun _ _ => True) (requestEmailVerification o call.tenantId email) past := by
  apply configFor_then
  intro past₁ config _
  apply fromExcept_then
  intro address haddress
  apply limit_then
  intro past₂ _
  apply store_then (.findUserByEmail _ _) trivial
  intro found
  cases found with
  | none => exact Yields.pure trivial
  | some user =>
    change Keeps o call _ (if user.emailVerified then _ else _) _
    split
    · exact Yields.pure trivial
    · apply issueEmailToken_keeps ⟨email,haddress⟩
      · rintro _ ⟨⟩
        exact Or.inr ⟨_,List.mem_cons_self,.byEmail⟩
      · exact fun _ _ => trivial

theorem verifyEmail_keeps {token : String} (hcall : call.request = .verifyEmail token) :
    Keeps o call (fun past _ => ∃ record, ConsumedToken o call past .emailVerification record)
      (verifyEmail o call.tenantId token) past := by
  apply configFor_then
  intro past₁ config _
  apply limit_then
  intro past₂ _
  apply Yields.bind
  apply consumeToken_keeps
  · rw [hcall]
    rfl
  · intro past₃ record _ hconsumed
    cases huser : record.userId with
    | none => exact Yields.throw
    | some userId =>
      apply query_then
      intro now
      have hnow := hconsumed.mono (List.suffix_cons (asked .now now) past₃)
      apply store_then
      · exact ⟨rfl,.verification record hnow huser⟩
      · intro answer
        cases answer with
        | none => exact Yields.throw
        | some user =>
          apply Yields.bind
          apply recordAudit_keeps
          intro past₄ hs₄
          apply Yields.pure
          exact ⟨record,hnow.mono ((List.suffix_cons _ _).trans hs₄)⟩

theorem matchPassword_keeps {email password : String} {walls : List String} {ok : List AuthAnswered → AuthUser → Prop}
    (h : ∀ past' credential user, stored (.findPassword call.tenantId email) (some credential) ∈ past' →
      asked (.verifyPassword password credential.passwordHash) (.ok true) ∈ past' →
      stored (.findUserById call.tenantId credential.userId) (some user) ∈ past' → ok past' user) :
    Keeps o call ok (matchPassword o call.tenantId email password walls) past := by
  apply store_then (.findPassword _ _) trivial
  intro found
  cases found with
  | none =>
    apply query_then
    intro reply
    apply fromExcept_then
    intro _ _
    exact refused_keeps
  | some credential =>
    apply query_then
    intro reply
    apply fromExcept_then
    rintro matches_ rfl
    cases matches_ with
    | false => exact refused_keeps
    | true =>
      apply store_then (.findUserById _ _) trivial
      intro found
      cases found with
      | none => exact refused_keeps
      | some user =>
        apply Yields.pure
        apply h _ credential user
        · simp
        · simp
        · exact List.mem_cons_self

theorem signInPassword_keeps {email password : String} {caller : Option String} :
    Keeps o call (fun past _ => SignedInBy o call past email password)
      (signInPassword o call.tenantId email password caller) past := by
  apply configFor_then
  intro past₁ config _
  apply fromExcept_then
  intro address haddress
  apply Yields.bind
  refine walls_keeps ?_ (fun key past ok hok => wallBefore_keeps hok) _
  intro past₂ _
  split
  · exact refused_keeps
  · apply Yields.bind
    apply matchPassword_keeps
    intro past₃ credential user hcredential hmatches huser
    change Keeps o call _ (if ¬ user.emailVerified then _ else _) _
    split
    · apply Yields.bind
      apply charge_keeps
      intro past₄ _
      exact Yields.throw
    · rename_i hverified
      apply Yields.bind
      apply createSession_keeps (Or.inr ⟨_,huser,.byId⟩)
      intro past₄ session hs₄ _
      apply Yields.bind
      apply recordAudit_keeps
      intro past₅ hs₅
      apply Yields.pure
      have hs := hs₄.trans hs₅
      exact ⟨address,credential,user,haddress,hs.subset hcredential,hs.subset hmatches,hs.subset huser,by simpa using hverified⟩

theorem requestPasswordReset_keeps {email : String} :
    Keeps o call (fun _ _ => True) (requestPasswordReset o call.tenantId email) past := by
  apply configFor_then
  intro past₁ config _
  apply fromExcept_then
  intro address haddress
  apply limit_then
  intro past₂ _
  apply store_then (.findPassword _ _) trivial
  intro found
  cases found with
  | none => exact Yields.pure trivial
  | some credential =>
    apply issueEmailToken_keeps ⟨email,haddress⟩
    · rintro _ ⟨⟩
      exact Or.inr ⟨_,List.mem_cons_self,.credential⟩
    · exact fun _ _ => trivial

theorem resetPassword_keeps {token newPassword : String} (hcall : call.request = .resetPassword token newPassword) :
    Keeps o call (fun past _ => ∃ record, ConsumedToken o call past .passwordReset record)
      (resetPassword o call.tenantId token newPassword) past := by
  apply configFor_then
  intro past₁ config _
  apply limit_then
  intro past₂ _
  apply fromExcept_then
  intro _ _
  apply Yields.bind
  apply consumeToken_keeps
  · rw [hcall]
    rfl
  · intro past₃ record _ hconsumed
    cases huser : record.userId with
    | none => exact Yields.throw
    | some userId =>
      apply query_then
      intro reply
      apply fromExcept_then
      rintro passwordHash rfl
      apply query_then
      intro now
      apply store_then
      · exact ⟨rfl,newPassword,by rw [hcall]; rfl,by simp⟩
      · rintro ⟨⟩
        apply store_then (.findUserById _ _) trivial
        intro found
        cases found with
        | none => exact Yields.throw
        | some user =>
          apply Yields.bind
          apply createSession_keeps (Or.inr ⟨_,List.mem_cons_self,.byId⟩)
          intro past₄ session hs₄ _
          apply Yields.bind
          apply recordAudit_keeps
          intro past₅ hs₅
          apply Yields.pure
          refine ⟨record,hconsumed.mono (List.IsSuffix.trans ?_ (hs₄.trans hs₅))⟩
          exact (List.suffix_cons _ _).trans ((List.suffix_cons _ _).trans
            ((List.suffix_cons _ _).trans (List.suffix_cons _ _)))

theorem changePassword_keeps {sessionToken currentPassword newPassword : String}
    (hcall : call.request = .changePassword sessionToken currentPassword newPassword) :
    Keeps o call (fun _ _ => True) (changePassword o call.tenantId sessionToken currentPassword newPassword) past := by
  apply configFor_then
  intro past₁ config _
  apply limit_then
  intro past₂ _
  apply Yields.bind
  apply requireElevatedSession_keeps
  intro past₃ session _ hfound
  apply fromExcept_then
  intro _ _
  split
  · exact Yields.throw
  · apply Yields.bind
    apply store_keeps (.findPassword _ _) trivial
    intro found
    cases found with
    | none => exact Yields.throw
    | some credential =>
      apply query_then
      intro reply
      apply fromExcept_then
      rintro matches_ rfl
      cases matches_ with
      | false => exact Yields.throw
      | true =>
        apply query_then
        intro reply
        apply fromExcept_then
        rintro passwordHash rfl
        apply query_then
        intro now
        apply store_then
        · exact ⟨rfl,newPassword,by rw [hcall]; rfl,by simp⟩
        · rintro ⟨⟩
          apply Yields.bind
          apply createSession_keeps
          · apply hfound.known.mono
            exact (List.suffix_cons _ _).trans ((List.suffix_cons _ _).trans ((List.suffix_cons _ _).trans
              ((List.suffix_cons _ _).trans (List.suffix_cons _ _))))
          · intro past₄ changed _ _
            apply Yields.bind
            apply recordAudit_keeps
            intro past₅ _
            exact Yields.pure trivial

end Passwords

section MagicLinks
variable {o : MakeAuthOptions} {call : AuthCall} {past : List AuthAnswered}

theorem requestMagicLink_keeps {email : String} :
    Keeps o call (fun _ _ => True) (requestMagicLink o call.tenantId email) past := by
  apply configFor_then
  intro past₁ config _
  apply fromExcept_then
  intro address haddress
  apply limit_then
  intro past₂ _
  apply store_then (.findUserByEmail _ _) trivial
  intro found
  apply issueEmailToken_keeps ⟨email,haddress⟩
  · cases found with
    | none =>
      intro _ hin
      cases hin
    | some user =>
      rintro _ ⟨⟩
      exact Or.inr ⟨_,List.mem_cons_self,.byEmail⟩
  · exact fun _ _ => trivial

theorem verifiedUser_keeps {record : OneTimeTokenRecord} {user : AuthUser} {ok : List AuthAnswered → Option AuthUser → Prop}
    (hconsumed : ConsumedToken o call past .magicLink record)
    (hfound : stored (.findUserByEmail call.tenantId record.email) (some user) ∈ past)
    (h : ∀ past' (user : Option AuthUser), past <:+ past' → (∀ u ∈ user, KnownUser past' u.id) → ok past' user) :
    Keeps o call ok (verifiedUser call.tenantId user) past := by
  unfold verifiedUser
  split
  · apply Yields.pure
    apply h _ _ (List.suffix_refl _)
    rintro _ ⟨⟩
    exact Or.inr ⟨_,hfound,.byEmail⟩
  · apply Yields.bind
    apply query_keeps
    intro now
    have hs := List.suffix_cons (asked .now now) past
    apply store_keeps
    · exact ⟨rfl,.magicLink record user (hconsumed.mono hs) (hs.subset hfound) rfl⟩
    · intro answer
      apply h _ _ (hs.trans (List.suffix_cons _ _))
      rintro verified ⟨⟩
      exact Or.inr ⟨_,List.mem_cons_self,.verified⟩

theorem userMeanwhile_keeps {record : OneTimeTokenRecord} {ok : List AuthAnswered → Option AuthUser → Prop}
    (hconsumed : ConsumedToken o call past .magicLink record)
    (h : ∀ past' (user : Option AuthUser), past <:+ past' → (∀ u ∈ user, KnownUser past' u.id) → ok past' user) :
    Keeps o call ok (userMeanwhile call.tenantId record.email) past := by
  apply store_then (.findUserByEmail _ _) trivial
  intro found
  have hs := List.suffix_cons (stored (.findUserByEmail call.tenantId record.email) found) past
  cases found with
  | none =>
    apply Yields.pure
    apply h _ _ hs
    intro _ hin
    cases hin
  | some user =>
    apply verifiedUser_keeps (hconsumed.mono hs) List.mem_cons_self
    intro past' user' hs'
    exact h past' user' (hs.trans hs')

theorem magicLinkUser_keeps {record : OneTimeTokenRecord} {ok : List AuthAnswered → Option AuthUser → Prop}
    (hconsumed : ConsumedToken o call past .magicLink record)
    (h : ∀ past' (user : Option AuthUser), past <:+ past' → (∀ u ∈ user, KnownUser past' u.id) → ok past' user) :
    Keeps o call ok (magicLinkUser call.tenantId record.email) past := by
  apply query_then
  intro now
  apply Yields.bind
  apply randomToken_keeps
  intro past₁ id hs₁
  have hs : past <:+ past₁ := (List.suffix_cons _ _).trans hs₁
  have hdrawn := (not_mem_encodeBase64Url id).2
  apply Yields.bind
  apply attempt_keeps
  · exact ⟨rfl,hdrawn,record,hconsumed.mono hs,rfl⟩
  · intro reply
    cases reply with
    | ok answer =>
      apply Yields.pure
      apply h _ _ (hs.trans (List.suffix_cons _ _))
      rintro _ ⟨⟩
      exact Or.inl hdrawn
    | error conflict =>
      apply userMeanwhile_keeps (hconsumed.mono (hs.trans (List.suffix_cons _ _)))
      intro past' user' hs'
      exact h past' user' (hs.trans ((List.suffix_cons _ _).trans hs'))

theorem userOfMagicLink_keeps {record : OneTimeTokenRecord} {ok : List AuthAnswered → Option AuthUser → Prop}
    (hconsumed : ConsumedToken o call past .magicLink record)
    (h : ∀ past' (user : Option AuthUser), past <:+ past' → (∀ u ∈ user, KnownUser past' u.id) → ok past' user) :
    Keeps o call ok (userOfMagicLink call.tenantId record.email) past := by
  apply store_then (.findUserByEmail _ _) trivial
  intro found
  have hs := List.suffix_cons (stored (.findUserByEmail call.tenantId record.email) found) past
  cases found with
  | none =>
    apply magicLinkUser_keeps (hconsumed.mono hs)
    intro past' user' hs'
    exact h past' user' (hs.trans hs')
  | some user =>
    apply verifiedUser_keeps (hconsumed.mono hs) List.mem_cons_self
    intro past' user' hs'
    exact h past' user' (hs.trans hs')

theorem consumeMagicLink_keeps {token : String} (hcall : call.request = .consumeMagicLink token) :
    Keeps o call (fun past _ => ∃ record, ConsumedToken o call past .magicLink record)
      (consumeMagicLink o call.tenantId token) past := by
  apply configFor_then
  intro past₁ config _
  apply limit_then
  intro past₂ _
  apply Yields.bind
  apply consumeToken_keeps
  · rw [hcall]
    rfl
  · intro past₃ record _ hconsumed
    apply Yields.bind
    apply userOfMagicLink_keeps hconsumed
    intro past₄ user hs₄ hknown
    cases user with
    | none => exact Yields.throw
    | some user =>
      apply Yields.bind
      apply createSession_keeps (hknown user rfl)
      intro past₅ session hs₅ _
      apply Yields.bind
      apply recordAudit_keeps
      intro past₆ hs₆
      exact Yields.pure ⟨record,hconsumed.mono (hs₄.trans (hs₅.trans hs₆))⟩

end MagicLinks

section OAuth
variable {o : MakeAuthOptions} {call : AuthCall} {past : List AuthAnswered}

theorem requireProvider_keeps {tenantId providerId : String} {config : TenantAuthConfig}
    {ok : List AuthAnswered → OAuthProvider → Prop} (h : ∀ past' provider, past <:+ past' → provider.id = providerId →
      ok past' provider) :
    Keeps o call ok (requireProvider tenantId providerId config) past := by
  apply query_then
  intro reply
  apply fromExcept_then
  rintro found rfl
  cases found with
  | none => exact Yields.throw
  | some provider =>
    change Keeps o call _ (if _ then _ else _) _
    split
    · exact Yields.throw
    · rename_i hvalid
      push Not at hvalid
      exact Yields.pure (h _ provider (List.suffix_cons _ _) hvalid.1)

theorem beginOAuth_keeps {providerId : String} {returnTo callbackPath caller : Option String} :
    Keeps o call (fun _ _ => True) (beginOAuth o call.tenantId providerId returnTo callbackPath caller) past := by
  apply configFor_then
  intro past₁ config _
  apply Yields.bind
  apply limitAny_keeps
  intro past₂ _
  apply Yields.bind
  apply requireProvider_keeps
  intro past₃ provider _ _
  apply fromExcept_then
  intro safeReturnTo _
  apply Yields.bind
  apply randomToken_keeps
  intro past₄ state _
  apply Yields.bind
  apply randomToken_keeps
  intro past₅ verifier _
  apply fromExcept_then
  intro redirectUri _
  apply query_then
  intro now
  apply store_then (.putOAuthState _) trivial
  rintro ⟨⟩
  split
  · exact Yields.throw
  · exact Yields.pure trivial

theorem consumeState_keeps {tenantId providerId state : String} {ok : List AuthAnswered → OAuthStateRecord → Prop}
    (h : ∀ past' record, past <:+ past' → ok past' record) :
    Keeps o call ok (consumeState o tenantId providerId state) past := by
  apply query_then
  intro now
  apply store_then (.consumeOAuthState _ _ _) trivial
  intro found
  cases found with
  | none => exact Yields.throw
  | some record =>
    change Keeps o call _ (if _ then _ else _) _
    split
    · exact Yields.throw
    · exact Yields.pure (h _ record ((List.suffix_cons _ _).trans (List.suffix_cons _ _)))

def Exchanged (o : MakeAuthOptions) (past : List AuthAnswered) (provider : OAuthProvider) (profile : OAuthProfile) : Prop :=
  ∃ code codeVerifier redirectUri given, asked (.exchangeOAuthCode provider code codeVerifier redirectUri) (.ok given) ∈ past ∧
    validateOAuthProfile o.platform given = .ok profile

theorem Exchanged.mono {past' : List AuthAnswered} {provider : OAuthProvider} {profile : OAuthProfile}
    (h : Exchanged o past provider profile) (hs : past <:+ past') : Exchanged o past' provider profile := by
  obtain ⟨code,codeVerifier,redirectUri,given,hin,hvalid⟩ := h
  exact ⟨code,codeVerifier,redirectUri,given,hs.subset hin,hvalid⟩

theorem validateProfileEmail_kind {platform : Platform} {given : Option String} {email : String}
    (h : validateProfileEmail platform given = .ok (some email)) : '\x00' ∉ email.toList := by
  unfold validateProfileEmail at h
  split at h
  · cases h
  · split at h
    · cases h
    · rename_i address hnormal
      cases h
      exact normalizeEmail_kind hnormal

theorem validateOAuthProfile_email {platform : Platform} {given profile : OAuthProfile} {email : String}
    (h : validateOAuthProfile platform given = .ok profile) (hemail : profile.email = some email) : '\x00' ∉ email.toList := by
  unfold validateOAuthProfile at h
  split at h
  · cases h
  · cases hvalid : validateProfileEmail platform given.email with
    | error e =>
      rw [hvalid] at h
      cases h
    | ok address =>
      rw [hvalid] at h
      dsimp only [bind,Except.bind] at h
      split at h
      · cases h
      · cases h
        cases hemail
        exact validateProfileEmail_kind hvalid

theorem fetchProfile_keeps {provider : OAuthProvider} {code : String} {state : OAuthStateRecord}
    {ok : List AuthAnswered → OAuthProfile → Prop}
    (h : ∀ past' profile, past <:+ past' → Exchanged o past' provider profile → ok past' profile) :
    Keeps o call ok (fetchProfile o provider code state) past := by
  apply query_then
  intro reply
  apply fromExcept_then
  rintro given rfl
  apply fromExcept_keeps
  intro profile hvalid
  exact h _ profile (List.suffix_cons _ _) ⟨_,_,_,given,List.mem_cons_self,hvalid⟩

theorem currentSession_keeps {tenantId : String} {token : Option String} {ok : List AuthAnswered → Option AuthSession → Prop}
    (h : ∀ past' (session : Option AuthSession), past <:+ past' → (∀ given ∈ session, FoundUser tenantId past' given.user) →
      ok past' session) :
    Keeps o call ok (currentSession o tenantId token) past := by
  cases token with
  | none =>
    apply Yields.pure
    apply h _ _ (List.suffix_refl _)
    intro _ hin
    cases hin
  | some token =>
    apply Yields.bind
    apply getSession_keeps
    intro past' session hs hfound
    apply Yields.pure
    apply h _ _ hs
    rintro _ ⟨⟩
    exact hfound

theorem matchedUser_keeps {tenantId : String} {profile : OAuthProfile} {ok : List AuthAnswered → Option AuthUser → Prop}
    (h : ∀ past' (user : Option AuthUser), past <:+ past' → (∀ u ∈ user, FoundUser tenantId past' u) → ok past' user) :
    Keeps o call ok (matchedUser o tenantId profile) past := by
  have hnone : ok past none := by
    apply h _ _ (List.suffix_refl _)
    intro _ hin
    cases hin
  unfold matchedUser
  split
  · exact Yields.pure hnone
  · split
    · apply store_keeps (.findUserByEmail _ _) trivial
      intro found
      apply h _ _ (List.suffix_cons _ _)
      rintro user ⟨⟩
      exact .byEmail _ List.mem_cons_self
    · exact Yields.pure hnone

theorem knownUser_keeps {tenantId providerId : String} {identity : OAuthIdentity} {requestedBy : Option AuthSession}
    {ok : List AuthAnswered → AuthUser → Prop} (h : ∀ past' user, KnownUser past' user.id → ok past' user) :
    Keeps o call ok (knownUser tenantId providerId identity requestedBy) past := by
  unfold knownUser
  split
  · exact Yields.throw
  · apply Yields.bind
    apply store_keeps (.findUserById _ _) trivial
    intro found
    cases found with
    | none => exact Yields.throw
    | some user => exact Yields.pure (h _ user (Or.inr ⟨_,List.mem_cons_self,.byId⟩))

theorem vouchedUser_keeps {provider : OAuthProvider} {profile : OAuthProfile} {user : AuthUser}
    {ok : List AuthAnswered → AuthUser → Prop}
    (hrequest : ∃ state code current, call.request = .completeOAuth provider.id state code current)
    (hexchanged : Exchanged o past provider profile) (hfound : FoundUser call.tenantId past user)
    (h : ∀ past' user, KnownUser past' user.id → ok past' user) :
    Keeps o call ok (vouchedUser call.tenantId profile user) past := by
  unfold vouchedUser
  split
  · rename_i hproof
    obtain ⟨-,hvouched,hsome,howns⟩ := hproof
    obtain ⟨email,hemail⟩ := Option.isSome_iff_exists.mp hsome
    apply query_then
    intro now
    have hs := List.suffix_cons (asked .now now) past
    apply store_then
    · obtain ⟨code,codeVerifier,redirectUri,given,hin,hvalid⟩ := hexchanged
      exact ⟨rfl,.oauth provider code codeVerifier redirectUri given profile email user hrequest (hs.subset hin) hvalid
        hvouched hemail (hfound.mono hs) (howns.trans hemail) rfl⟩
    · intro answer
      apply Yields.pure
      apply h
      cases answer with
      | none => exact (hfound.mono (hs.trans (List.suffix_cons _ _))).known
      | some verified => exact Or.inr ⟨_,List.mem_cons_self,.verified⟩
  · exact Yields.pure (h past user hfound.known)

theorem linkUser_keeps {provider : OAuthProvider} {profile : OAuthProfile} {target : AuthUser}
    {requestedBy : Option AuthSession} {ok : List AuthAnswered → AuthUser → Prop}
    (hrequest : ∃ state code current, call.request = .completeOAuth provider.id state code current)
    (hexchanged : Exchanged o past provider profile) (hfound : FoundUser call.tenantId past target)
    (h : ∀ past' user, KnownUser past' user.id → ok past' user) :
    Keeps o call ok (linkUser call.tenantId provider.id profile target requestedBy) past := by
  apply query_then
  intro reply
  apply fromExcept_then
  rintro allowed rfl
  split
  · exact Yields.throw
  · apply Yields.bind
    apply query_keeps
    intro createdAt
    apply store_then (.addOAuthIdentity _) trivial
    rintro ⟨⟩
    apply vouchedUser_keeps hrequest (hexchanged.mono ?_) (hfound.mono ?_) h
    · exact (List.suffix_cons _ _).trans ((List.suffix_cons _ _).trans (List.suffix_cons _ _))
    · exact (List.suffix_cons _ _).trans ((List.suffix_cons _ _).trans (List.suffix_cons _ _))

theorem provisioningAllowed_keeps {request : IdentityProvisionRequest} {ok : List AuthAnswered → Bool → Prop}
    (h : ∀ past' provisioned, ok past' provisioned) : Keeps o call ok (provisioningAllowed o request) past := by
  unfold provisioningAllowed
  split
  · apply query_keeps
    exact fun provisioned => h _ provisioned
  · exact Yields.pure (h past true)

theorem provisionUser_keeps {provider : OAuthProvider} {profile : OAuthProfile} {ok : List AuthAnswered → AuthUser → Prop}
    (hexchanged : Exchanged o past provider profile) (h : ∀ past' user, KnownUser past' user.id → ok past' user) :
    Keeps o call ok (provisionUser o call.tenantId provider.id profile) past := by
  apply Yields.bind
  apply provisioningAllowed_keeps
  intro past₁ provisioned
  split
  · exact Yields.throw
  · apply Yields.bind
    apply query_keeps
    intro now
    apply Yields.bind
    apply randomToken_keeps
    intro past₂ id _
    have hdrawn := (not_mem_encodeBase64Url id).2
    apply store_then
    · refine ⟨rfl,hdrawn,?_⟩
      intro email hemail
      obtain ⟨_,_,_,given,_,hvalid⟩ := hexchanged
      change (if _ then _ else _) = some email at hemail
      split at hemail
      · obtain ⟨address,haddress,rfl⟩ := Option.map_eq_some_iff.mp hemail
        exact profileEmail_kind (validateOAuthProfile_email hvalid haddress)
      · cases hemail
    · rintro ⟨⟩
      apply Yields.pure
      exact h _ _ (Or.inl hdrawn)

theorem oauthUser_keeps {provider : OAuthProvider} {profile : OAuthProfile} {current : Option String}
    {ok : List AuthAnswered → AuthUser → Prop}
    (hrequest : ∃ state code current, call.request = .completeOAuth provider.id state code current)
    (hexchanged : Exchanged o past provider profile) (h : ∀ past' user, KnownUser past' user.id → ok past' user) :
    Keeps o call ok (oauthUser o call.tenantId provider.id profile current) past := by
  apply store_then (.findOAuthIdentity _ _ _) trivial
  intro identity
  apply Yields.bind
  apply currentSession_keeps
  intro past₁ requestedBy hs₁ hrequested
  cases identity with
  | some identity => exact knownUser_keeps h
  | none =>
    apply Yields.bind
    apply matchedUser_keeps
    intro past₂ matched hs₂ hmatched
    have hexchanged₂ := hexchanged.mono ((List.suffix_cons _ _).trans (hs₁.trans hs₂))
    cases requestedBy with
    | some session => exact linkUser_keeps hrequest hexchanged₂ ((hrequested session rfl).mono hs₂) h
    | none =>
      cases matched with
      | some user => exact linkUser_keeps hrequest hexchanged₂ (hmatched user rfl) h
      | none => exact provisionUser_keeps hexchanged₂ h

theorem completeOAuth_keeps {providerId state code : String} {current : Option String}
    (hcall : call.request = .completeOAuth providerId state code current) :
    Keeps o call (fun _ _ => True) (completeOAuth o call.tenantId providerId state code current) past := by
  apply configFor_then
  intro past₁ config _
  apply limit_then
  intro past₂ _
  apply Yields.bind
  apply consumeState_keeps
  intro past₃ record _
  apply Yields.bind
  apply requireProvider_keeps
  rintro past₄ provider _ rfl
  apply Yields.bind
  apply fetchProfile_keeps
  intro past₅ profile _ hexchanged
  apply Yields.bind
  apply oauthUser_keeps ⟨state,code,current,hcall⟩ hexchanged
  intro past₆ user hknown
  apply Yields.bind
  apply createSession_keeps hknown
  intro past₇ session _ _
  apply Yields.bind
  apply recordAudit_keeps
  intro past₈ _
  exact Yields.pure trivial

end OAuth

section Sessions
variable {o : MakeAuthOptions} {call : AuthCall} {past : List AuthAnswered}

theorem signOut_keeps {token : String} : Keeps o call (fun _ _ => True) (signOut o call.tenantId token) past := by
  apply configFor_then
  intro past₁ config _
  apply store_then (.revokeSession _ _) trivial
  rintro ⟨⟩
  apply recordAudit_keeps
  exact fun _ _ => trivial

theorem revokeAllSessions_keeps {userId : String} :
    Keeps o call (fun _ _ => True) (revokeAllSessions call.tenantId userId) past := by
  apply configFor_then
  intro past₁ config _
  apply store_then (.revokeUserSessions _ _) trivial
  rintro ⟨⟩
  apply recordAudit_keeps
  exact fun _ _ => trivial

theorem unlinkOAuthIdentity_keeps {sessionToken provider : String} :
    Keeps o call (fun _ _ => True) (unlinkOAuthIdentity o call.tenantId sessionToken provider) past := by
  apply configFor_then
  intro past₁ config _
  apply limit_then
  intro past₂ _
  apply Yields.bind
  apply requireElevatedSession_keeps
  intro past₃ session _ _
  apply store_then (.removeOAuthIdentity _ _ _) trivial
  rintro ⟨⟩
  apply recordAudit_keeps
  exact fun _ _ => trivial

end Sessions

section Passkeys
variable {o : MakeAuthOptions} {call : AuthCall} {past : List AuthAnswered}

theorem issueChallenge_keeps {config : TenantAuthConfig} {purpose : PasskeyChallengePurpose} {userId : Option String}
    {ok : List AuthAnswered → String → Prop} (h : ∀ past' challenge, ok past' challenge) :
    Keeps o call ok (issueChallenge o call.tenantId config purpose userId) past := by
  apply Yields.bind
  apply randomToken_keeps
  intro past₁ challenge _
  apply query_then
  intro now
  apply store_then
  · exact ⟨rfl,_,rfl⟩
  · rintro ⟨⟩
    exact Yields.pure (h _ _)

theorem beginPasskeyRegistration_keeps {sessionToken : String} :
    Keeps o call (fun _ _ => True) (beginPasskeyRegistration o call.tenantId sessionToken) past := by
  apply configFor_then
  intro past₁ config _
  apply limit_then
  intro past₂ _
  apply fromExcept_then
  intro passkey _
  apply Yields.bind
  apply requireElevatedSession_keeps
  intro past₃ session _ _
  apply Yields.bind
  apply issueChallenge_keeps
  intro past₄ challenge
  apply store_then (.listPasskeys _ _) trivial
  intro existing
  exact Yields.pure trivial

theorem finishPasskeyRegistration_keeps {sessionToken : String} {response : PasskeyRegistrationResponse} {label : Option String}
    (hcall : call.request = .finishPasskeyRegistration sessionToken response label) :
    Keeps o call (fun _ _ => True) (finishPasskeyRegistration o call.tenantId sessionToken response label) past := by
  apply configFor_then
  intro past₁ config _
  apply limit_then
  intro past₂ _
  apply fromExcept_then
  intro passkey _
  apply Yields.bind
  apply requireElevatedSession_keeps
  intro past₃ session _ _
  apply fromExcept_then
  intro clientChallenge _
  apply query_then
  intro consumedAt
  apply store_then
  · exact ⟨rfl,⟨clientChallenge,rfl⟩,past₃,rfl⟩
  · intro challenge
    split
    · exact Yields.throw
    · apply Yields.bind
      apply query_keeps
      intro reply
      apply fromExcept_then
      rintro verified rfl
      apply query_then
      intro createdAt
      apply store_then
      · change call.request.authenticates = false
        rw [hcall]
        rfl
      · rintro ⟨⟩
        apply recordAudit_keeps
        exact fun _ _ => trivial

theorem namedUser_keeps {tenantId : String} {email : Option String} {ok : List AuthAnswered → Option AuthUser → Prop}
    (h : ∀ past' user, ok past' user) : Keeps o call ok (namedUser o tenantId email) past := by
  cases email with
  | none => exact Yields.pure (h past none)
  | some email =>
    apply fromExcept_then
    intro address _
    apply store_keeps (.findUserByEmail _ _) trivial
    exact fun found => h _ found

theorem passkeysOf_keeps {tenantId : String} {user : Option AuthUser} {ok : List AuthAnswered → List PasskeyRecord → Prop}
    (h : ∀ past' passkeys, ok past' passkeys) : Keeps o call ok (passkeysOf tenantId user) past := by
  cases user with
  | none => exact Yields.pure (h past [])
  | some user =>
    apply store_keeps (.listPasskeys _ _) trivial
    exact fun passkeys => h _ passkeys

theorem beginPasskeyAuthentication_keeps {email caller : Option String} :
    Keeps o call (fun _ _ => True) (beginPasskeyAuthentication o call.tenantId email caller) past := by
  apply configFor_then
  intro past₁ config _
  apply Yields.bind
  apply limitAny_keeps
  intro past₂ _
  apply fromExcept_then
  intro passkey _
  apply Yields.bind
  apply namedUser_keeps
  intro past₃ user
  apply Yields.bind
  apply passkeysOf_keeps
  intro past₄ passkeys
  apply Yields.bind
  apply issueChallenge_keeps
  intro past₅ challenge
  exact Yields.pure trivial

theorem answeringPasskey_keeps {credentialId clientChallenge : String} {ok : List AuthAnswered → PasskeyRecord → Prop}
    (h : ∀ past' consumedAt challenge passkey, past <:+ past' →
      stored (.consumePasskeyChallenge call.tenantId .authentication (o.platform.hashToken clientChallenge) consumedAt)
        (some challenge) ∈ past' →
      stored (.findPasskey call.tenantId credentialId) (some passkey) ∈ past' →
      (∀ userId ∈ challenge.userId, userId = passkey.userId) → ok past' passkey) :
    Keeps o call ok (answeringPasskey o call.tenantId credentialId clientChallenge) past := by
  apply query_then
  intro now
  apply store_then
  · exact ⟨rfl,⟨clientChallenge,rfl⟩,past,rfl⟩
  · intro found
    cases found with
    | none => exact Yields.throw
    | some challenge =>
      apply store_then (.findPasskey _ _) trivial
      intro found
      cases found with
      | none => exact Yields.throw
      | some passkey =>
        change Keeps o call _ (if _ then _ else _) _
        split
        · exact Yields.throw
        · rename_i hsame
          apply Yields.pure
          apply h _ now challenge passkey
          · exact (List.suffix_cons _ _).trans ((List.suffix_cons _ _).trans (List.suffix_cons _ _))
          · exact List.mem_cons_of_mem _ List.mem_cons_self
          · exact List.mem_cons_self
          · intro userId hin
            by_contra hne
            refine hsame ?_
            rw [Option.mem_def] at hin
            simp [hin,hne]

theorem requireCounter_ok {passkey : PasskeyRecord} {authData : Webauthn.ParsedAuthenticatorData}
    (h : Webauthn.requireCounter passkey authData = .ok ()) : 0 < passkey.counter → passkey.counter < authData.counter := by
  intro hpos
  by_contra hle
  rw [Webauthn.requireCounter,if_pos ⟨hpos,by omega⟩] at h
  cases h

/-- What an assertion that is checked shows of its passkey and its counter. -/
structure CountedAssertion (passkey : PasskeyRecord) (input : PasskeyAuthenticationResponse) (counter : ℕ) : Prop where
  same : passkey.credentialId = input.credentialId
  asserted : Webauthn.assertedCounter input = .ok counter
  increases : 0 < passkey.counter → passkey.counter < counter

theorem checkAssertion_counted {platform : Platform} {config : PasskeyTenantConfig} {passkey : PasskeyRecord}
    {input : PasskeyAuthenticationResponse} {client : Webauthn.ClientData} {authData : Webauthn.ParsedAuthenticatorData}
    {signature coseBytes : List UInt8}
    (h : Webauthn.checkAssertion platform config passkey input = .ok (client,authData,signature,coseBytes)) :
    CountedAssertion passkey input authData.counter := by
  unfold Webauthn.checkAssertion at h
  split at h
  · cases h
  · rename_i hsame
    obtain ⟨client',-,h⟩ := Except.bind_ok h
    obtain ⟨authDataBytes,hbytes,h⟩ := Except.bind_ok h
    obtain ⟨signature',-,h⟩ := Except.bind_ok h
    obtain ⟨authData',hparsed,h⟩ := Except.bind_ok h
    obtain ⟨_,-,h⟩ := Except.bind_ok h
    obtain ⟨⟨⟩,hcounter,h⟩ := Except.bind_ok h
    obtain ⟨coseBytes',-,h⟩ := Except.bind_ok h
    cases h
    constructor
    · exact (not_not.mp hsame).symm
    · rw [Webauthn.assertedCounter,hbytes]
      dsimp only [bind,Except.bind]
      rw [hparsed]
      rfl
    · exact requireCounter_ok hcounter

/-- An assertion that verifies has a counter that may replace the one of its passkey. -/
theorem verifyPasskeyAuthentication_keeps {config : PasskeyTenantConfig} {passkey : PasskeyRecord}
    {input : PasskeyAuthenticationResponse} {ok : List AuthAnswered → VerifiedPasskeyAuthentication → Prop}
    (h : ∀ past' verified, past <:+ past' → CountedAssertion passkey input verified.counter → ok past' verified) :
    Keeps o call ok (Webauthn.verifyPasskeyAuthentication o.platform config passkey input) past := by
  apply fromExcept_then
  rintro ⟨client,authData,signature,coseBytes⟩ hchecked
  apply query_then
  intro reply
  apply fromExcept_then
  rintro cose rfl
  dsimp only
  split
  · exact Yields.throw
  · apply Yields.bind
    apply query_keeps
    intro reply
    apply fromExcept_then
    rintro verified rfl
    cases verified with
    | false => exact Yields.throw
    | true =>
      apply Yields.pure
      exact h _ _ ((List.suffix_cons _ _).trans (List.suffix_cons _ _)) (checkAssertion_counted hchecked)

theorem finishPasskeyAuthentication_keeps {response : PasskeyAuthenticationResponse} {caller : Option String} :
    Keeps o call (fun past _ => AssertedBy o call past response)
      (finishPasskeyAuthentication o call.tenantId response caller) past := by
  apply configFor_then
  intro past₁ config _
  apply limit_then
  intro past₂ _
  apply fromExcept_then
  intro passkeyConfig _
  apply fromExcept_then
  intro clientChallenge hchallenge
  apply Yields.bind
  apply answeringPasskey_keeps
  intro past₃ consumedAt challenge passkey _ hconsumed hfound hsame
  apply Yields.bind
  apply verifyPasskeyAuthentication_keeps
  intro past₄ verified hs₄ hcounter
  apply store_then
  · exact ⟨rfl,response.credentialId,passkey,hs₄.subset hfound,rfl,rfl,hcounter.increases⟩
  · rintro ⟨⟩
    apply store_then (.findUserById _ _) trivial
    intro found
    cases found with
    | none => exact Yields.throw
    | some user =>
      apply Yields.bind
      apply createSession_keeps (Or.inr ⟨_,List.mem_cons_self,.byId⟩)
      intro past₅ session hs₅ _
      apply Yields.bind
      apply recordAudit_keeps
      intro past₆ hs₆
      apply Yields.pure
      have hs := (List.suffix_cons _ _).trans ((List.suffix_cons _ _).trans (hs₅.trans hs₆))
      exact ⟨clientChallenge,challenge,passkey,verified.counter,consumedAt,hchallenge,
        hs.subset (hs₄.subset hconsumed),hs.subset (hs₄.subset hfound),hsame,hcounter.asserted,
        (hs₅.trans hs₆).subset (by simp [hcounter.same])⟩

theorem renamePasskey_keeps {sessionToken credentialId : String} {label : Option String}
    (hcall : call.request = .renamePasskey sessionToken credentialId label) :
    Keeps o call (fun _ _ => True) (renamePasskey o call.tenantId sessionToken credentialId label) past := by
  apply configFor_then
  intro past₁ config _
  apply limit_then
  intro past₂ _
  apply Yields.bind
  apply requireElevatedSession_keeps
  intro past₃ session _ _
  apply store_then
  · change call.request.authenticates = false
    rw [hcall]
    rfl
  · intro renamed
    apply Yields.bind
    apply auditIf_keeps
    intro past₄ _
    exact Yields.pure trivial

theorem removePasskey_keeps {sessionToken credentialId : String}
    (hcall : call.request = .removePasskey sessionToken credentialId) :
    Keeps o call (fun _ _ => True) (removePasskey o call.tenantId sessionToken credentialId) past := by
  apply configFor_then
  intro past₁ config _
  apply limit_then
  intro past₂ _
  apply Yields.bind
  apply requireElevatedSession_keeps
  intro past₃ session _ _
  apply store_then
  · change call.request.authenticates = false
    rw [hcall]
    rfl
  · intro removed
    apply Yields.bind
    apply auditIf_keeps
    intro past₄ _
    exact Yields.pure trivial

end Passkeys

section Calls
variable {o : MakeAuthOptions} {call : AuthCall}

/-- The requests that show something when they are answered. -/
def AuthRequest.shows : AuthRequest → Bool
  | .verifyEmail _ | .consumeMagicLink _ | .resetPassword _ _ | .signInPassword _ _ _
  | .finishPasskeyAuthentication _ _ => true
  | _ => false

theorem settled_of_plain {past : List AuthAnswered} {answer : AuthAnswer} {request : AuthRequest}
    (hcall : call.request = request) (hplain : request.shows = false) : Concluded o call past answer := by
  subst hcall
  constructor
  · intro purpose token h
    unfold AuthRequest.presents at h
    split at h <;> simp_all [AuthRequest.shows]
  · intro email password caller h
    rw [h] at hplain
    cases hplain
  · intro response caller h
    rw [h] at hplain
    cases hplain

theorem settled_of_consumed {past : List AuthAnswered} {answer : AuthAnswer} {purpose : OneTimeTokenPurpose} {token : String}
    (hpresents : call.request.presents = some (purpose,token)) (h : ∃ record, ConsumedToken o call past purpose record) :
    Concluded o call past answer := by
  constructor
  · intro purpose' token' hpresents'
    obtain ⟨rfl,-⟩ := Prod.mk.inj (Option.some.inj (hpresents.symm.trans hpresents'))
    exact h
  · intro email password caller hcall
    rw [hcall] at hpresents
    cases hpresents
  · intro response caller hcall
    rw [hcall] at hpresents
    cases hpresents

theorem program_follows (o : MakeAuthOptions) (call : AuthCall) :
    Yields (Grounded o call) (Concluded o call) (call.program o) [] := by
  unfold AuthCall.program
  split <;> rename_i hcall <;> apply Yields.map
  · exact (registerPassword_keeps hcall).mono fun _ _ _ => settled_of_plain hcall rfl
  · exact requestEmailVerification_keeps.mono fun _ _ _ => settled_of_plain hcall rfl
  · refine (verifyEmail_keeps hcall).mono fun past _ h => ?_
    exact settled_of_consumed (congrArg AuthRequest.presents hcall) h
  · refine signInPassword_keeps.mono fun past _ h => ?_
    constructor
    · intro purpose token hpresents
      rw [hcall] at hpresents
      cases hpresents
    · intro email password caller hsame
      rw [hcall] at hsame
      cases hsame
      exact h
    · intro response caller hsame
      rw [hcall] at hsame
      cases hsame
  · exact requestPasswordReset_keeps.mono fun _ _ _ => settled_of_plain hcall rfl
  · refine (resetPassword_keeps hcall).mono fun past _ h => ?_
    exact settled_of_consumed (congrArg AuthRequest.presents hcall) h
  · exact (changePassword_keeps hcall).mono fun _ _ _ => settled_of_plain hcall rfl
  · exact requestMagicLink_keeps.mono fun _ _ _ => settled_of_plain hcall rfl
  · refine (consumeMagicLink_keeps hcall).mono fun past _ h => ?_
    exact settled_of_consumed (congrArg AuthRequest.presents hcall) h
  · exact (getSession_keeps fun _ _ _ _ => trivial).mono fun _ _ (_ : True) => settled_of_plain hcall rfl
  · exact signOut_keeps.mono fun _ _ _ => settled_of_plain hcall rfl
  · exact revokeAllSessions_keeps.mono fun _ _ _ => settled_of_plain hcall rfl
  · exact beginOAuth_keeps.mono fun _ _ _ => settled_of_plain hcall rfl
  · exact (completeOAuth_keeps hcall).mono fun _ _ _ => settled_of_plain hcall rfl
  · exact unlinkOAuthIdentity_keeps.mono fun _ _ _ => settled_of_plain hcall rfl
  · exact beginPasskeyRegistration_keeps.mono fun _ _ _ => settled_of_plain hcall rfl
  · exact (finishPasskeyRegistration_keeps hcall).mono fun _ _ _ => settled_of_plain hcall rfl
  · exact beginPasskeyAuthentication_keeps.mono fun _ _ _ => settled_of_plain hcall rfl
  · refine finishPasskeyAuthentication_keeps.mono fun past _ h => ?_
    constructor
    · intro purpose token hpresents
      rw [hcall] at hpresents
      cases hpresents
    · intro email password caller hsame
      rw [hcall] at hsame
      cases hsame
    · intro response caller hsame
      rw [hcall] at hsame
      cases hsame
      exact h
  · exact (renamePasskey_keeps hcall).mono fun _ _ _ => settled_of_plain hcall rfl
  · exact (removePasskey_keeps hcall).mono fun _ _ _ => settled_of_plain hcall rfl

end Calls

section Plain

def plainPlatform : Platform where
  sha256 bytes := bytes
  toLowerCase cs := cs
  lowers_nul _ h := h
  newUrl reference _ := some ⟨reference,""⟩
  setParameters url _ := url

def plainConfig : TenantAuthConfig where
  baseUrl := ⟨"",""⟩
  links := ⟨none,none,none⟩
  minLength := some 1
  maxLength := none
  sessionTtlMillis := none
  tokens := ⟨none,none,none,none,none⟩
  passkey := some ⟨"rp","rp",["o"],some false⟩

/-- Everybody is let through, and the clock stands at the number of the operation. -/
def plainAuthEnvironment : AuthEnvironment
  | n,.now => n
  | n,.randomBytes bytes => ⟨List.replicate bytes (UInt8.ofNat n),List.length_replicate⟩
  | _,.configFor _ => .ok plainConfig
  | _,.check _ => .ok ()
  | _,.peek _ => .ok ()
  | _,.hashPassword password => .ok password
  | _,.verifyPassword password encodedHash => .ok (password = encodedHash)
  | _,.send _ => .ok ()
  | _,.isEnrolled _ _ => .ok true
  | _,.resolveProvider _ provider _ => .ok (some ⟨provider,"id","secret","","",[]⟩)
  | _,.exchangeOAuthCode _ code _ _ => .ok ⟨code,none,false,none⟩
  | _,.authorizeLink _ => .ok true
  | _,.allowProvisioning _ => true
  | _,.verifyPasskeyRegistration _ input => .ok ⟨"",input.credentialId,"",.es256,0,[],none⟩
  | _,.importCoseKey encoded => .ok ⟨.es256,encoded⟩
  | _,.verifySignature _ _ _ => .ok true
  | _,.record _ => ()

def plainAuthOptions : MakeAuthOptions := ⟨plainPlatform,false,false,true⟩

end Plain
end StructureAi.Identity

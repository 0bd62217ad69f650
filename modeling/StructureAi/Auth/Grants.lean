import StructureAi.Auth.OAuthRules
import StructureAi.Auth.TokenViews

/-! # What stands behind a token

Every token of the server, stored or accepted, goes back to one code: consumed before it ran out, by
its client, with its redirect URI and the verifier of its challenge, and made for scopes that the
client had registered and the user had consented to. No call, and no order of calls, adds to that.
-/
namespace StructureAi.Auth
open StructureAi.Foundation Program

section Grants
variable (o : ServerOptions) (trace : List Event)

def Registered (client : OAuthClientRecord) : Prop :=
  ∃ call, (⟨call,.store (.putClient client),.ok ()⟩ : Event) ∈ trace ∧ Registers o call client

/-- A consent that its user gave, to a client that had registered the scopes. -/
def Consented (consent : ConsentRecord) : Prop :=
  ∃ call past input client, Told trace call past ∧ Consents call past input client consent ∧
    Registered o trace client ∧ client.key = scopedKey input.tenantId input.clientId

/-- A code whose user asked for it, for a redirect URI and scopes that the client had registered, within a consent that
the user had given the client. -/
def Authorized (code : AuthorizationCodeRecord) : Prop :=
  ∃ call past request client consent, Told trace call past ∧ Authorizes o call past request client consent code ∧
    Registered o trace client ∧ client.key = scopedKey request.tenantId request.clientId ∧
    Consented o trace consent ∧ consent.key = scopedKey request.tenantId (request.clientId ++ "\x00" ++ code.userId)

/-- A code that was worth its while when it was consumed: not consumed before, and not run out. -/
structure Redeemed (tenantId codeHash : String) (now : ℤ) (code : AuthorizationCodeRecord) : Prop where
  key : code.key = scopedKey tenantId codeHash
  unspent : code.consumedAt = none
  unexpired : now < code.expiresAt

/-- A token that goes back to a code: its tenant, client, user and scopes are the code's. -/
def Granted (token : OAuthTokenRecord) : Prop :=
  ∃ call past input client code, Told trace call past ∧ Exchanges o call past input client code ∧ Authorized o trace code ∧
    (∃ now, (⟨call,.store (.consumeAuthorizationCode input.tenantId (o.hashToken input.code) now),
      .ok (some code)⟩ : Event) ∈ trace ∧
      Redeemed input.tenantId (o.hashToken input.code) now code) ∧
    token.tenantId = input.tenantId ∧ token.clientId = code.clientId ∧ token.userId = some code.userId ∧ token.scope = code.scope

/-- A signature over the claims of an access token of this server. -/
def Vouched (key : SigningKey) (input : String) : Prop :=
  ∃ signer issuer token, signer.pair = key.pair ∧ input = signingInput signer issuer token ∧ token.kind = .access ∧
    Granted o trace token

/-- What is answered of a record is true of it. -/
def Truthful : Event → Prop
  | ⟨_,.store (.findClient tenantId clientId),.ok (some client)⟩ => Registered o trace client ∧
      client.key = scopedKey tenantId clientId
  | ⟨_,.store (.findConsent tenantId clientId userId),.ok (some consent)⟩ =>
    Consented o trace consent ∧ consent.key = scopedKey tenantId (clientId ++ "\x00" ++ userId)
  | ⟨_,.store (.consumeAuthorizationCode tenantId codeHash now),.ok (some code)⟩ =>
    Authorized o trace code ∧ Redeemed tenantId codeHash now code
  | ⟨_,.store (.findTokenByHash tenantId _),.ok (some token)⟩ => Granted o trace token ∧ token.tenantId = tenantId
  | ⟨_,.store (.findTokenById tenantId tokenId),.ok (some token)⟩ => Granted o trace token ∧
      token.key = scopedKey tenantId tokenId
  | ⟨_,.verify key input _,true⟩ => Vouched o trace key input
  | _ => True

structure GrantsKept (w : World OAuthStore) : Prop where
  clients : ∀ client ∈ w.store.clients.rows, Registered o w.trace client
  consents : ∀ consent ∈ w.store.consents.rows, Consented o w.trace consent
  codes : ∀ code ∈ w.store.codes.rows, Authorized o w.trace code
  tokens : ∀ token ∈ w.store.tokens.rows, Granted o w.trace token
  signatures : ∀ key input bytes, (key.pair,input,bytes) ∈ w.signatures → Vouched o w.trace key input
  answers : ∀ e ∈ w.trace, Truthful o w.trace e

end Grants

section Growing
variable {o : ServerOptions} {trace trace' : List Event} (hs : trace ⊆ trace')
include hs

theorem Registered.grow {client : OAuthClientRecord} (h : Registered o trace client) : Registered o trace' client := by
  obtain ⟨call,hin,hregisters⟩ := h
  exact ⟨call,hs hin,hregisters⟩

theorem Consented.grow {consent : ConsentRecord} (h : Consented o trace consent) : Consented o trace' consent := by
  obtain ⟨call,past,input,client,htold,hconsents,hregistered,hkey⟩ := h
  exact ⟨call,past,input,client,htold.grow hs,hconsents,hregistered.grow hs,hkey⟩

theorem Authorized.grow {code : AuthorizationCodeRecord} (h : Authorized o trace code) : Authorized o trace' code := by
  obtain ⟨call,past,request,client,consent,htold,hauthorizes,hregistered,hkey,hconsented,hconsent⟩ := h
  exact ⟨call,past,request,client,consent,htold.grow hs,hauthorizes,hregistered.grow hs,hkey,hconsented.grow hs,hconsent⟩

theorem Granted.grow {token : OAuthTokenRecord} (h : Granted o trace token) : Granted o trace' token := by
  obtain ⟨call,past,input,client,code,htold,hexchanges,hauthorized,⟨now,hin,hredeemed⟩,hcarries⟩ := h
  exact ⟨call,past,input,client,code,htold.grow hs,hexchanges,hauthorized.grow hs,⟨now,hs hin,hredeemed⟩,hcarries⟩

theorem Vouched.grow {key : SigningKey} {input : String} (h : Vouched o trace key input) : Vouched o trace' key input := by
  obtain ⟨signer,issuer,token,hpair,hinput,hkind,hgranted⟩ := h
  exact ⟨signer,issuer,token,hpair,hinput,hkind,hgranted.grow hs⟩

theorem Truthful.grow {e : Event} (h : Truthful o trace e) : Truthful o trace' e := by
  unfold Truthful at h ⊢
  split <;> simp only at h
  · exact ⟨h.1.grow hs,h.2⟩
  · exact ⟨h.1.grow hs,h.2⟩
  · exact ⟨h.1.grow hs,h.2⟩
  · exact ⟨h.1.grow hs,h.2⟩
  · exact ⟨h.1.grow hs,h.2⟩
  · exact h.grow hs
  · trivial

end Growing

section Copies
variable {o : ServerOptions} {trace : List Event}

theorem Authorized.consume {code : AuthorizationCodeRecord} (h : Authorized o trace code) (time : Option ℤ) :
    Authorized o trace {code with consumedAt := time} := by
  obtain ⟨call,past,request,client,consent,htold,hauthorizes,hrest⟩ := h
  exact ⟨call,past,request,client,consent,htold,{hauthorizes with},hrest⟩

theorem Granted.same {token other : OAuthTokenRecord} (h : Granted o trace token) (htenant : other.tenantId = token.tenantId)
    (hclient : other.clientId = token.clientId) (huser : other.userId = token.userId) (hscope : other.scope = token.scope) :
    Granted o trace other := by
  obtain ⟨call,past,input,client,code,htold,hexchanges,hauthorized,hredeemed,h₁,h₂,h₃,h₄⟩ := h
  exact ⟨call,past,input,client,code,htold,hexchanges,hauthorized,hredeemed,htenant.trans h₁,hclient.trans h₂,huser.trans h₃,
    hscope.trans h₄⟩

end Copies

section Steps
variable {o : ServerOptions} {env : Environment} {call : Call} {past : List OAuthAnswered} {w : World OAuthStore}

theorem Exchanges.redeemed (h : GrantsKept o w) (htold : Told w.trace call past) {input : ExchangeCodeInput}
    {client : OAuthClientRecord}
    {code : AuthorizationCodeRecord} (hexchanges : Exchanges o call past input client code) :
    Authorized o w.trace code ∧
      ∃ now, (⟨call,.store (.consumeAuthorizationCode input.tenantId (o.hashToken input.code) now),
        .ok (some code)⟩ : Event) ∈ w.trace ∧
        Redeemed input.tenantId (o.hashToken input.code) now code := by
  obtain ⟨now,hin⟩ := hexchanges.consumed
  obtain ⟨hauthorized,hredeemed⟩ := h.answers _ (htold _ hin)
  exact ⟨hauthorized,now,htold _ hin,hredeemed⟩

theorem Mints.granted (h : GrantsKept o w) (htold : Told w.trace call past) {token : OAuthTokenRecord}
    (hmints : Mints o call past token) :
    Granted o w.trace token := by
  cases hmints with
  | exchange input client code familyId hexchanges _ hcarries =>
    obtain ⟨hauthorized,hredeemed⟩ := hexchanges.redeemed h htold
    exact ⟨call,past,input,client,code,htold,hexchanges,hauthorized,hredeemed,hcarries.tenant,
      hcarries.client.trans hexchanges.sameClient.symm,hcarries.user,hcarries.scope⟩
  | refresh input client record hrenews hcarries =>
    obtain ⟨hgranted,htenant⟩ := h.answers _ (htold _ hrenews.presents.found)
    exact hgranted.same (hcarries.tenant.trans htenant.symm)
      (hcarries.client.trans hrenews.presents.sameClient.symm) hcarries.user
      hcarries.scope

theorem Consents.consented (h : GrantsKept o w) (htold : Told w.trace call past) {input : GrantConsentInput}
    {client : OAuthClientRecord}
    {consent : ConsentRecord} (hconsents : Consents call past input client consent) : Consented o w.trace consent := by
  obtain ⟨hregistered,hkey⟩ := h.answers _ (htold _ hconsents.found)
  exact ⟨call,past,input,client,htold,hconsents,hregistered,hkey⟩

theorem Authorizes.authorized (h : GrantsKept o w) (htold : Told w.trace call past) {request : AuthorizationRequest}
    {client : OAuthClientRecord} {consent : ConsentRecord} {code : AuthorizationCodeRecord}
    (hauthorizes : Authorizes o call past request client consent code) : Authorized o w.trace code := by
  obtain ⟨hregistered,hkey⟩ := h.answers _ (htold _ hauthorizes.known)
  obtain ⟨hconsented,hconsent⟩ := h.answers _ (htold _ hauthorizes.consented)
  exact ⟨call,past,request,client,consent,htold,hauthorizes,hregistered,hkey,hconsented,hconsent⟩

theorem GrantsKept.answer (h : GrantsKept o w) {w' : World OAuthStore} {e : Event} (hstore : w'.store = w.store)
    (hsignatures : w'.signatures = w.signatures) (htrace : w'.trace = e :: w.trace) (htrue : Truthful o w.trace e) :
      GrantsKept o w' := by
  have hs : w.trace ⊆ w'.trace := by
    rw [htrace]
    exact List.subset_cons_self _ _
  constructor
  · intro client hin
    rw [hstore] at hin
    exact (h.clients client hin).grow hs
  · intro consent hin
    rw [hstore] at hin
    exact (h.consents consent hin).grow hs
  · intro code hin
    rw [hstore] at hin
    exact (h.codes code hin).grow hs
  · intro token hin
    rw [hstore] at hin
    exact (h.tokens token hin).grow hs
  · intro key input bytes hin
    rw [hsignatures] at hin
    exact (h.signatures key input bytes hin).grow hs
  · intro e' hin
    rw [htrace] at hin
    rcases List.mem_cons.mp hin with rfl | hold
    · exact htrue.grow hs
    · exact (h.answers e' hold).grow hs

theorem GrantsKept.withTokens (h : GrantsKept o w) {tokens : Records OAuthTokenRecord.key}
    (htokens : ∀ token ∈ tokens.rows, Granted o w.trace token) : GrantsKept o {w with store := {w.store with tokens}} :=
  {h with tokens := htokens}

theorem GrantsKept.withCodes (h : GrantsKept o w) {codes : Records AuthorizationCodeRecord.key}
    (hcodes : ∀ code ∈ codes.rows, Authorized o w.trace code) : GrantsKept o {w with store := {w.store with codes}} :=
  {h with codes := hcodes}

theorem GrantsKept.setToken (h : GrantsKept o w) {token : OAuthTokenRecord} (htoken : Granted o w.trace token) :
    GrantsKept o {w with store := {w.store with tokens := w.store.tokens.set token}} := by
  apply h.withTokens
  intro other hin
  rcases Records.mem_set.mp hin with rfl | ⟨hold,-⟩
  · exact htoken
  · exact h.tokens other hold

theorem Granted.revoked {token : OAuthTokenRecord} {trace : List Event} (h : Granted o trace token) (now : ℤ) :
    Granted o trace (OAuthStore.revoked now token) := h.same rfl rfl rfl rfl

/-- The world once the store has performed an operation. -/
def storeWorld (w : World OAuthStore) (op : StoreOp) : World OAuthStore := {w with store := (OAuthStore.perform op w.store).2}

theorem GrantsKept.store (h : GrantsKept o w) (htold : Told w.trace call past) {op : StoreOp}
    (hrests : Rests o call past (.store op))
    (hput : ∀ client, op = .putClient client → Registered o w.trace client) : GrantsKept o (storeWorld w op) := by
  cases op with
  | putClient client =>
    refine {h with clients := ?_}
    intro other hin
    rcases Records.mem_set.mp hin with rfl | ⟨hold,-⟩
    · exact hput _ rfl
    · exact h.clients other hold
  | findClient tenantId clientId => exact h
  | putAuthorizationCode code =>
    obtain ⟨⟨request,client,consent,hauthorizes⟩,-⟩ := hrests
    apply h.withCodes
    intro other hin
    rcases Records.mem_set.mp hin with rfl | ⟨hold,-⟩
    · exact hauthorizes.authorized h htold
    · exact h.codes other hold
  | consumeAuthorizationCode tenantId codeHash now =>
    unfold storeWorld OAuthStore.perform
    dsimp only
    split
    · exact h
    · rename_i code hget
      split
      · exact h
      · apply h.withCodes
        intro other hin
        rcases Records.mem_set.mp hin with rfl | ⟨hold,-⟩
        · exact (h.codes code (Records.get_eq_some_iff.mp hget).1).consume _
        · exact h.codes other hold
  | findConsent tenantId clientId userId => exact h
  | putConsent consent =>
    obtain ⟨input,client,hconsents⟩ := hrests
    refine {h with consents := ?_}
    intro other hin
    rcases Records.mem_set.mp hin with rfl | ⟨hold,-⟩
    · exact hconsents.consented h htold
    · exact h.consents other hold
  | putToken token => exact h.setToken (hrests.1.granted h htold)
  | findTokenByHash tenantId tokenHash => exact h
  | findTokenById tenantId tokenId => exact h
  | revokeToken tenantId tokenId now =>
    unfold storeWorld OAuthStore.perform
    dsimp only
    split
    · exact h
    · rename_i token hget
      exact h.setToken ((h.tokens token (Records.get_eq_some_iff.mp hget).1).revoked now)
  | rotateToken tenantId tokenId now =>
    unfold storeWorld OAuthStore.perform
    dsimp only
    split
    · exact h
    · rename_i token hget
      split
      · exact h
      · exact h.setToken ((h.tokens token (Records.get_eq_some_iff.mp hget).1).same rfl rfl rfl rfl)
  | revokeFamily tenantId familyId now =>
    apply h.withTokens
    intro other hin
    obtain ⟨token,hold,rfl⟩ := Records.mem_modify.mp hin
    split
    · exact (h.tokens token hold).revoked now
    · exact h.tokens token hold

theorem GrantsKept.truthful (h : GrantsKept o w) (op : StoreOp) :
    Truthful o w.trace ⟨call,.store op,(OAuthStore.perform op w.store).1⟩ := by
  cases op with
  | findClient tenantId clientId =>
    change Truthful o w.trace ⟨call,.store (.findClient tenantId clientId),
      .ok (w.store.clients.get (scopedKey tenantId clientId))⟩
    cases hget : w.store.clients.get (scopedKey tenantId clientId) with
    | none => trivial
    | some client =>
      obtain ⟨hin,hkey⟩ := Records.get_eq_some_iff.mp hget
      exact ⟨h.clients client hin,hkey⟩
  | consumeAuthorizationCode tenantId codeHash now =>
    unfold OAuthStore.perform
    dsimp only
    split
    · trivial
    · rename_i code hget
      split
      · trivial
      · rename_i hgood
        rw [not_or,Bool.not_eq_true,Option.isSome_eq_false_iff,Option.isNone_iff_eq_none,not_le] at hgood
        obtain ⟨hin,hkey⟩ := Records.get_eq_some_iff.mp hget
        exact ⟨h.codes code hin,hkey,hgood.1,hgood.2⟩
  | findConsent tenantId clientId userId =>
    change Truthful o w.trace ⟨call,.store (.findConsent tenantId clientId userId),
      .ok (w.store.consents.get (scopedKey tenantId (clientId ++ "\x00" ++ userId)))⟩
    cases hget : w.store.consents.get (scopedKey tenantId (clientId ++ "\x00" ++ userId)) with
    | none => trivial
    | some consent =>
      obtain ⟨hin,hkey⟩ := Records.get_eq_some_iff.mp hget
      exact ⟨h.consents consent hin,hkey⟩
  | findTokenByHash tenantId tokenHash =>
    change Truthful o w.trace ⟨call,.store (.findTokenByHash tenantId tokenHash),
      .ok (w.store.tokens.rows.find? fun token => token.tenantId = tenantId && token.tokenHash = some tokenHash)⟩
    cases hfind : w.store.tokens.rows.find? fun token => token.tenantId = tenantId && token.tokenHash = some tokenHash with
    | none => trivial
    | some token =>
      have hfound := List.find?_some hfind
      rw [Bool.and_eq_true,decide_eq_true_eq] at hfound
      exact ⟨h.tokens token (List.mem_of_find?_eq_some hfind),hfound.1⟩
  | findTokenById tenantId tokenId =>
    change Truthful o w.trace ⟨call,.store (.findTokenById tenantId tokenId),
      .ok (w.store.tokens.get (scopedKey tenantId tokenId))⟩
    cases hget : w.store.tokens.get (scopedKey tenantId tokenId) with
    | none => trivial
    | some token =>
      obtain ⟨hin,hkey⟩ := Records.get_eq_some_iff.mp hget
      exact ⟨h.tokens token hin,hkey⟩
  | putClient client => trivial
  | putAuthorizationCode code => trivial
  | putConsent consent => trivial
  | putToken token => trivial
  | revokeToken tenantId tokenId now => trivial
  | rotateToken tenantId tokenId now => trivial
  | revokeFamily tenantId familyId now => trivial

/-- Whatever a call performs that follows the rules, everything still goes back to what it should. -/
theorem GrantsKept.step (h : GrantsKept o w) (htold : Told w.trace call past) {op : OAuthOp} (hrests : Rests o call past op)
    (place : ℕ) :
    GrantsKept o (World.handle OAuthStore.perform env place call op w).2 := by
  cases op with
  | store op =>
    have htraced : GrantsKept o {w with trace := ⟨call,.store op,(OAuthStore.perform op w.store).1⟩ :: w.trace} :=
      h.answer rfl rfl rfl (h.truthful op)
    apply htraced.store htold.cons hrests
    rintro client rfl
    exact ⟨call,List.mem_cons_self,hrests⟩
  | now => exact h.answer rfl rfl rfl trivial
  | randomToken byteLength => exact h.answer rfl rfl rfl trivial
  | signingKeys => exact h.answer rfl rfl rfl trivial
  | sign key input =>
    obtain ⟨issuer,token,hmints,hkind,hinput⟩ := hrests
    have hvouched : Vouched o w.trace key input := ⟨key,issuer,token,rfl,hinput,hkind,hmints.granted h htold⟩
    have hsigned : GrantsKept o {w with signatures := (key.pair,input,env.signature key input) :: w.signatures} := by
      refine {h with signatures := ?_}
      intro key' input' bytes hin
      rcases List.mem_cons.mp hin with heq | hold
      · obtain ⟨hpair,hrest⟩ := Prod.mk.inj heq
        obtain ⟨rfl,-⟩ := Prod.mk.inj hrest
        obtain ⟨signer,issuer,token,hsigner,hrest⟩ := hvouched
        exact ⟨signer,issuer,token,hsigner.trans hpair.symm,hrest⟩
      · exact h.signatures key' input' bytes hold
    exact hsigned.answer rfl rfl rfl trivial
  | verify key input bytes =>
    refine h.answer rfl rfl rfl ?_
    by_cases hin : (key.pair,input,bytes) ∈ w.signatures
    · rw [decide_eq_true hin]
      exact h.signatures key input bytes hin
    · rw [decide_eq_false hin]
      trivial
  | audit event => exact h.answer rfl rfl rfl trivial

end Steps

section Names
variable (o : ServerOptions) (trace : List Event)

/-- The tenant and the client of the call hold no U+0000. -/
def Call.Named : Call → Prop
  | .registerClient tenantId _ _ => '\x00' ∉ tenantId.toList
  | .authorize request _ => '\x00' ∉ request.tenantId.toList ∧ '\x00' ∉ request.clientId.toList
  | .grantConsent input => '\x00' ∉ input.tenantId.toList ∧ '\x00' ∉ input.clientId.toList
  | .exchangeCode input => '\x00' ∉ input.tenantId.toList
  | _ => True

/-- The calls name no tenant and no client with U+0000 inside. -/
def NamedTurn : Turn Call SigningKeys → Prop
  | .arrive _ call => call.Named
  | _ => True

instance : DecidablePred Call.Named := fun call =>
  match call with
  | .registerClient _ _ _ | .exchangeCode _ => inferInstanceAs (Decidable (_ ∉ _))
  | .authorize _ _ | .grantConsent _ => inferInstanceAs (Decidable (_ ∧ _))
  | .refresh _ | .revoke _ | .introspect _ | .verifyAccessToken _ _ => isTrue trivial

instance : DecidablePred NamedTurn := fun turn =>
  match turn with
  | .arrive _ call => inferInstanceAs (Decidable call.Named)
  | .resume _ | .outside _ => isTrue trivial

/-- A consent that its user gave to its client, within the scopes that the client had registered. -/
def ConsentStands (consent : ConsentRecord) : Prop :=
  ∃ call past input client, Told trace call past ∧ Consents call past input client consent ∧
    Registered o trace client ∧ client.tenantId = consent.tenantId ∧ client.clientId = consent.clientId

/-- A code whose user asked for it, for a redirect URI and scopes that its client had registered, within a consent that
the user had given this client. -/
def CodeStands (code : AuthorizationCodeRecord) : Prop :=
  ∃ call past request client consent, Told trace call past ∧ Authorizes o call past request client consent code ∧
    (Registered o trace client ∧ client.tenantId = code.tenantId ∧ client.clientId = code.clientId) ∧
    ConsentStands o trace consent ∧ consent.tenantId = code.tenantId ∧ consent.clientId = code.clientId ∧
    consent.userId = code.userId

/-- A token with a code behind it, which its client consumed before it ran out and which was not consumed before. Tenant,
client, user and scopes of the token are the code's. -/
def TokenStands (token : OAuthTokenRecord) : Prop :=
  ∃ call past input client code now, Told trace call past ∧ Exchanges o call past input client code ∧
    (Registered o trace client ∧ client.tenantId = code.tenantId ∧ client.clientId = code.clientId) ∧
    (⟨call,.store (.consumeAuthorizationCode input.tenantId (o.hashToken input.code) now),.ok (some code)⟩ : Event) ∈ trace ∧
    (code.tenantId = input.tenantId ∧ code.codeHash = o.hashToken input.code ∧ code.consumedAt = none ∧
      now < code.expiresAt) ∧
    CodeStands o trace code ∧ token.tenantId = code.tenantId ∧ token.clientId = code.clientId ∧
    token.userId = some code.userId ∧ token.scope = code.scope

variable {o : ServerOptions} {trace : List Event} {env : Environment} {s s' : OAuthPool} {turn : Turn Call SigningKeys}

theorem Registered.named (hn : ∀ e ∈ trace, e.call.Named) {client : OAuthClientRecord} (h : Registered o trace client) :
    '\x00' ∉ client.tenantId.toList := by
  obtain ⟨call,hin,hregisters⟩ := h
  obtain ⟨input,context,rfl,-⟩ := hregisters.request
  exact hn _ hin

/-- A client under the key of two names is the one of these names. -/
theorem Registered.under (hn : ∀ e ∈ trace, e.call.Named) {client : OAuthClientRecord} (h : Registered o trace client)
    {tenantId clientId : String} (htenant : '\x00' ∉ tenantId.toList) (hkey : client.key = scopedKey tenantId clientId) :
    client.tenantId = tenantId ∧ client.clientId = clientId := separated_inj_left (h.named hn) htenant hkey

theorem Consented.stands (hn : ∀ e ∈ trace, e.call.Named) {consent : ConsentRecord} (h : Consented o trace consent) :
    ConsentStands o trace consent ∧ '\x00' ∉ consent.tenantId.toList ∧ '\x00' ∉ consent.clientId.toList := by
  obtain ⟨call,past,input,client,htold,hconsents,hregistered,hkey⟩ := h
  have hcall := hn _ (htold _ hconsents.found)
  dsimp only at hcall
  rw [hconsents.call] at hcall
  obtain ⟨htenant,hclient⟩ := hregistered.under hn hcall.1 hkey
  refine ⟨⟨call,past,input,client,htold,hconsents,hregistered,?_,?_⟩,?_,?_⟩
  · exact htenant.trans hconsents.tenant.symm
  · exact hclient.trans hconsents.names.1.symm
  · rw [hconsents.tenant]
    exact hcall.1
  · rw [hconsents.names.1]
    exact hcall.2

theorem Authorized.stands (hn : ∀ e ∈ trace, e.call.Named) {code : AuthorizationCodeRecord} (h : Authorized o trace code) :
    CodeStands o trace code ∧ '\x00' ∉ code.tenantId.toList := by
  obtain ⟨call,past,request,client,consent,htold,hauthorizes,hregistered,hkey,hconsented,hconsentKey⟩ := h
  have hcall := hn _ (htold _ hauthorizes.known)
  dsimp only at hcall
  rw [hauthorizes.call] at hcall
  obtain ⟨htenant,hclient⟩ := hregistered.under hn hcall.1 hkey
  obtain ⟨hstands,hconsentTenant,hconsentClient⟩ := hconsented.stands hn
  obtain ⟨htenant',hnames⟩ := separated_inj_left hconsentTenant hcall.1 hconsentKey
  obtain ⟨hclient',huser⟩ := separated_inj_left hconsentClient hcall.2 hnames
  refine ⟨⟨call,past,request,client,consent,htold,hauthorizes,⟨hregistered,?_,?_⟩,hstands,?_,?_,huser⟩,?_⟩
  · exact htenant.trans hauthorizes.tenant.symm
  · exact hauthorizes.sameClient.symm
  · exact htenant'.trans hauthorizes.tenant.symm
  · exact hclient'.trans (hclient.symm.trans hauthorizes.sameClient.symm)
  · rw [hauthorizes.tenant]
    exact hcall.1

theorem Granted.stands {w : World OAuthStore} (hw : GrantsKept o w) (hn : ∀ e ∈ w.trace, e.call.Named)
    {token : OAuthTokenRecord} (h : Granted o w.trace token) : TokenStands o w.trace token := by
  obtain ⟨call,past,input,client,code,htold,hexchanges,hauthorized,⟨now,hin,hredeemed⟩,htenant,hcarries⟩ := h
  obtain ⟨hstands,hcodeTenant⟩ := hauthorized.stands hn
  have hcall := hn _ hin
  dsimp only at hcall
  rw [hexchanges.call] at hcall
  obtain ⟨hcode,hhash⟩ := separated_inj_left hcodeTenant hcall hredeemed.key
  obtain ⟨hregistered,hkey⟩ := hw.answers _ (htold _ hexchanges.authenticates.found)
  obtain ⟨hclientTenant,-⟩ := hregistered.under hn hcall hkey
  refine ⟨call,past,input,client,code,now,htold,hexchanges,⟨hregistered,?_,hexchanges.sameClient.symm⟩,hin,
    ⟨hcode,hhash,hredeemed.unspent,hredeemed.unexpired⟩,hstands,htenant.trans hcode.symm,hcarries⟩
  exact hclientTenant.trans hcode.symm

/-- All calls that arrived are named, and so are those of the trace. -/
structure AllNamed (s : OAuthPool) : Prop where
  calls : ∀ call past, s.Was call past → call.Named
  trace : ∀ e ∈ s.world.trace, e.call.Named

theorem AllNamed.step (h : AllNamed s) (hturn : NamedTurn turn)
    (hs : (oauthService OAuthStore.perform env o).step s turn = some s') : AllNamed s' := by
  rcases Service.step_cases hs with ⟨i,call,rfl,-,rfl⟩ | ⟨i,f,rfl,hf,rfl⟩ | ⟨keys,rfl,rfl⟩
  · constructor
    · intro call' past hwas
      rcases Pool.was_place hwas with ⟨rfl,-⟩ | hold
      · exact hturn
      · exact h.calls call' past hold
    · rw [Pool.place_world]
      exact h.trace
  · have hcall := h.calls f.call f.past (Or.inl ⟨i,f,hf,rfl,rfl⟩)
    constructor
    · intro call' past hwas
      rcases Pool.was_place hwas with ⟨rfl,-⟩ | hold
      · exact hcall
      · exact h.calls call' past hold
    · rw [Service.resumed_world]
      change ∀ e ∈ (World.handle OAuthStore.perform env i f.call f.op s.world).2.trace, e.call.Named
      rw [handle_trace]
      intro e he
      rcases List.mem_cons.mp he with rfl | hold
      · exact hcall
      · exact h.trace e hold
  · exact ⟨h.calls,h.trace⟩

end Names

section Claims

end Claims

section Runs
variable {o : ServerOptions} {env : Environment} {keys : SigningKeys} {s : OAuthPool}
    {allow : OAuthPool → Turn Call SigningKeys → Prop}

theorem grantsKept_new : GrantsKept o (newOAuthWorld keys) := by
  constructor
  · intro client hin
    cases hin
  · intro consent hin
    cases hin
  · intro code hin
    cases hin
  · intro token hin
    cases hin
  · intro key input bytes hin
    cases hin
  · intro e hin
    cases hin

theorem grantsKept (hr : (oauthSystem o env keys).Reaches allow s) : Accounted o s ∧ GrantsKept o s.world := by
  apply hr.invariant fun s => Accounted o s ∧ GrantsKept o s.world
  · exact ⟨accounted_start _,grantsKept_new⟩
  · rintro a turn b ⟨haccounted,h⟩ _ hs
    refine ⟨haccounted.step hs,?_⟩
    rcases Service.step_cases hs with ⟨i,call,rfl,-,rfl⟩ | ⟨i,f,rfl,hf,rfl⟩ | ⟨keys,rfl,rfl⟩
    · rw [Pool.place_world]
      exact h
    · rw [Service.resumed_world]
      exact h.step (haccounted.told _ _ (Or.inl ⟨i,f,hf,rfl,rfl⟩)) (haccounted.ruled.asks hf) i
    · exact {h with}

theorem allNamed (hr : (oauthSystem o env keys).Reaches (fun _ turn => NamedTurn turn) s) : AllNamed s := by
  apply hr.invariant
  · constructor
    · rintro call past (⟨i,f,hf,-⟩ | ⟨e,he,-⟩)
      · cases hf
      · cases he
    · intro e he
      cases he
  · intro a turn b h hturn hs
    exact h.step hturn hs

/-- Behind every token of the store, access or refresh, stands a code, and so a registration and a consent. -/
theorem tokens_granted (hr : (oauthSystem o env keys).Reaches (fun _ turn => NamedTurn turn) s) :
    ∀ token ∈ s.world.store.tokens.rows, TokenStands o s.world.trace token :=
  fun token hin => ((grantsKept hr).2.tokens token hin).stands (grantsKept hr).2 (allNamed hr).trace

end Runs

section Exchanged

/-- The clock counts its readings, and every random token is another. -/
def countingEnvironment : Environment where
  clock n := n
  randomToken place n _ := String.ofList (List.replicate place 'a' ++ 'b' :: List.replicate n 'c')
  signature _ _ := [1]

def serverKeys : SigningKeys := ⟨⟨"key",0⟩,none⟩

def codeVerifier : String := "aaaaaaaaaaaaaaaaaaaaaaaaaaaaaaaaaaaaaaaaaaaaaaaa"

def resumes (i n : ℕ) : List (Turn Call SigningKeys) := List.replicate n (.resume i)

/-- A client registers, a user consents to one of its scopes and authorizes it, and the client exchanges the code. -/
def exchangeTurns : List (Turn Call SigningKeys) :=
  .arrive 0 (.registerClient "acme" ⟨none,.public_,["https://app.example/cb"],["read","write"]⟩ .anonymous) :: resumes 0 3 ++
  .arrive 1 (.grantConsent ⟨"acme","user-1","as_b",["read"]⟩) :: resumes 1 3 ++
  .arrive 2 (.authorize ⟨"acme","as_b","https://app.example/cb",["read"],none,codeVerifier,"S256"⟩ "user-1") :: resumes 2 5 ++
  .arrive 3 (.exchangeCode ⟨"acme","as_b",none,"aab",codeVerifier,"https://app.example/cb"⟩) :: resumes 3 12

/-- The access token that the exchange answers. -/
def accessText : String := "eyJhbGciOiJSUzI1NiIsInR5cCI6IkpXVCIsImtpZCI6ImtleSJ9." ++
  "eyJpc3MiOiJhY21lIiwic3ViIjoidXNlci0xIiwiYXVkIjoiYXNfYiIsInNjb3BlIjoicmVhZCIsImp0aSI6ImFhYWJjIiwiaWF0IjowLCJl" ++
  "eHAiOjYwMCwidGlkIjoiYWNtZSJ9.AQ"

/-- Then the access token is verified, and the refresh token renewed. -/
def grantTurns : List (Turn Call SigningKeys) :=
  exchangeTurns ++ .arrive 4 (.verifyAccessToken "acme" accessText) :: resumes 4 4 ++
  .arrive 5 (.refresh ⟨"acme","as_b",none,"aaabcc"⟩) :: resumes 5 14

def acceptedOf : Except AuthError Answer → Option AccessTokenClaims
  | .ok (.claims claims) => some claims
  | _ => none

set_option maxRecDepth 20000 in
theorem grantTurns_run : ((oauthSystem plainOptions countingEnvironment serverKeys).run grantTurns).map (fun s =>
    ((s.ended.filterMap fun e => acceptedOf e.answer).map AccessTokenClaims.jti,
      s.world.store.tokens.rows.map OAuthTokenRecord.tokenId)) =
    some (["aaabc"],["aaabc","aaabccc","aaaaab","aaaaabcc"]) := by
  decide +kernel

theorem grantTurns_named : ∀ turn ∈ grantTurns, NamedTurn turn := by decide +kernel

theorem tokens_granted_exchanged : ∃ s, (oauthSystem plainOptions countingEnvironment serverKeys).run grantTurns = some s ∧
    s.world.store.tokens.rows.map OAuthTokenRecord.tokenId = ["aaabc","aaabccc","aaaaab","aaaaabcc"] ∧
    ∀ token ∈ s.world.store.tokens.rows, TokenStands plainOptions s.world.trace token := by
  obtain ⟨s,hs,hends⟩ := Option.map_eq_some_iff.mp grantTurns_run
  exact ⟨s,hs,(Prod.mk.inj hends).2,tokens_granted (System.run_reaches (fun turn hin _ => grantTurns_named turn hin) hs)⟩

end Exchanged
end StructureAi.Auth

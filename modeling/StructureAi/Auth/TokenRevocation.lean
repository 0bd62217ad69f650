import StructureAi.Auth.OAuthStore

/-! # Who can revoke a token

`revoke` revokes the token that a request names, by its value or by the `jti` of a
payload that nobody has signed. Whether the request is the owner's makes no difference.
-/
namespace StructureAi.Auth
open StructureAi.Foundation OAuthStore
variable (o : ServerOptions) (env : Environment)

section Naming

def authenticated (s : OAuthStore) (input : TokenInput) : Option OAuthClientRecord :=
  (checkClient o input.clientSecret (s.clients.get (scopedKey input.tenantId input.clientId))).toOption

/-- The record a request names: by the hash of its token, or else by the `jti` the token carries. -/
def named (s : OAuthStore) (input : TokenInput) : Option OAuthTokenRecord :=
  match s.tokens.rows.find? fun token =>
    token.tenantId = input.tenantId && token.tokenHash = some (o.hashToken input.token) with
  | some byHash => some byHash
  | none => (jtiOf input.token).bind fun jti => s.tokens.get (scopedKey input.tenantId jti)

structure OAuthTokenRecord.IssuedTo (token : OAuthTokenRecord) (client : OAuthClientRecord) : Prop where
  tenant : token.tenantId = client.tenantId
  client : token.clientId = client.clientId

/-- A request changes the revocation of tokens of the client it authenticates as only, and one that
names no such token changes no record. -/
structure RevokesOwn (input : TokenInput) (s s' : OAuthStore) : Prop where
  owner : ∀ token ∈ s.tokens.rows, ∀ token' ∈ s'.tokens.rows, token'.key = token.key →
    token'.revokedAt ≠ token.revokedAt → ∃ client, authenticated o s input = some client ∧ token.IssuedTo client
  refused : (∀ client, authenticated o s input = some client → ∀ token, named o s input = some token →
    ¬ token.IssuedTo client) → s'.tokens.rows = s.tokens.rows

/-- The token a request names is the client's own, or was revoked at this very time. -/
def NamesOwn (input : TokenInput) (time : ℤ) (s : OAuthStore) : Prop :=
  ∀ token, named o s input = some token →
    token.revokedAt = some time ∨ ∃ client, authenticated o s input = some client ∧ token.IssuedTo client

end Naming

section Revoking
variable {o env}

theorem named_mem {s : OAuthStore} {input : TokenInput} {token : OAuthTokenRecord} (h : named o s input = some token) :
    token ∈ s.tokens.rows := by
  unfold named at h
  split at h
  · rename_i byHash hfind
    obtain rfl := Option.some.inj h
    exact List.mem_of_find?_eq_some hfind
  · obtain ⟨jti,-,hget⟩ := Option.bind_eq_some_iff.mp h
    exact (Records.get_eq_some_iff.mp hget).1

/-- What `revoke` does to the store. -/
def revokeNamed (input : TokenInput) (time : ℤ) (o : ServerOptions) (s : OAuthStore) : OAuthStore :=
  match named o s input with
  | none => s
  | some token => {s with tokens := s.tokens.set (revoked time token)}

theorem exec_authenticateClient {place : ℕ} {call : Call} {tenantId clientId : String} {clientSecret : Option String}
    {w : World OAuthStore} :
    Server.exec (World.handle OAuthStore.perform env place call) (authenticateClient o tenantId clientId clientSecret) w =
      (checkClient o clientSecret (w.store.clients.get (scopedKey tenantId clientId)),
        {w with trace := ⟨call,.store (.findClient tenantId clientId),
          .ok (w.store.clients.get (scopedKey tenantId clientId))⟩ :: w.trace}) := rfl

theorem exec_ignoredAuthentication {place : ℕ} {call : Call} {tenantId clientId : String}
    {clientSecret : Option String} {w : World OAuthStore} :
    Server.exec (World.handle OAuthStore.perform env place call)
      (tryCatch ((fun _ => ()) <$> authenticateClient o tenantId clientId clientSecret) fun _ => pure ()) w =
      (.ok (),{w with trace := ⟨call,.store (.findClient tenantId clientId),
        .ok (w.store.clients.get (scopedKey tenantId clientId))⟩ :: w.trace}) := by
  rw [Server.exec_tryCatch,Server.exec_map,exec_authenticateClient]
  cases checkClient o clientSecret (w.store.clients.get (scopedKey tenantId clientId)) with
  | ok client => rfl
  | error e => rfl

theorem exec_findTokenByHash {place : ℕ} {call : Call} {tenantId tokenHash : String} {w : World OAuthStore} :
    Server.exec (World.handle OAuthStore.perform env place call) (Server.store (.findTokenByHash tenantId tokenHash)) w =
      (.ok (w.store.tokens.rows.find? fun token => token.tenantId = tenantId && token.tokenHash = some tokenHash),
        {w with trace := ⟨call,.store (.findTokenByHash tenantId tokenHash),.ok (w.store.tokens.rows.find? fun token =>
          token.tenantId = tenantId && token.tokenHash = some tokenHash)⟩ :: w.trace}) := rfl

theorem exec_store_store {place : ℕ} {call : Call} {op : StoreOp} {w : World OAuthStore} :
    (Server.exec (World.handle OAuthStore.perform env place call) (Server.store op) w).2.store =
      (OAuthStore.perform op w.store).2 := rfl

/-- `revokeToken` under the key of a record. -/
theorem perform_revokeToken {s : OAuthStore} {tenantId tokenId : String} {time : ℤ} :
    (OAuthStore.perform (.revokeToken tenantId tokenId time) s).2 =
      match s.tokens.get (scopedKey tenantId tokenId) with
      | none => s
      | some token => {s with tokens := s.tokens.set (revoked time token)} := by
  cases h : s.tokens.get (scopedKey tenantId tokenId) with
  | none => simp only [OAuthStore.perform,h]
  | some current => simp only [OAuthStore.perform,h]

theorem revoke_store {input : TokenInput} {w : World OAuthStore} :
    (World.call OAuthStore.perform env o (.revoke input) w).2.store = revokeNamed input (env.clock w.ticks) o w.store := by
  change (Server.exec _ ((fun _ => Answer.done) <$> revoke o input) w).2.store = _
  rw [Server.exec_map,revoke,Server.exec_bind_ok exec_ignoredAuthentication,
    Server.exec_bind_ok exec_findTokenByHash,revokeNamed,named]
  dsimp only
  split
  · rename_i byHash hfind
    rw [hfind]
    have hmem := List.mem_of_find?_eq_some hfind
    have htenant : byHash.tenantId = input.tenantId := by
      have hb := List.find?_some hfind
      simp only [Bool.and_eq_true,decide_eq_true_eq] at hb
      exact hb.1
    have hget : w.store.tokens.get (scopedKey input.tenantId byHash.tokenId) = some byHash := by
      rw [← htenant]
      exact Records.get_key hmem
    rw [Server.exec_bind_ok Server.exec_now,exec_store_store,perform_revokeToken]
    change (match w.store.tokens.get (scopedKey input.tenantId byHash.tokenId) with
      | none => w.store
      | some token => {w.store with tokens := w.store.tokens.set (revoked (env.clock w.ticks) token)}) = _
    rw [hget]
  · rename_i hfind
    rw [hfind]
    cases hj : jtiOf input.token with
    | none => rfl
    | some jti =>
      rw [Server.exec_bind_ok Server.exec_now,exec_store_store,perform_revokeToken]
      rfl

theorem set_self {t : Records OAuthTokenRecord.key} {token : OAuthTokenRecord} (h : token ∈ t.rows) :
    (t.set token).rows = t.rows := by
  change upsert OAuthTokenRecord.key token t.rows = _
  unfold upsert
  split
  · apply updateWhere_eq_self
    intro r hr hk
    exact (Records.eq_of_key hr h (of_decide_eq_true hk)).symm
  · rename_i hnot
    exact absurd (List.any_eq_true.mpr ⟨token,h,decide_eq_true rfl⟩) hnot

/-- A request revokes nothing but its client's own tokens exactly if the token it names is its client's own,
or was revoked at this very time. -/
theorem revokesOwn_iff (input : TokenInput) (w : World OAuthStore) :
    RevokesOwn o input w.store (World.call OAuthStore.perform env o (.revoke input) w).2.store ↔
      NamesOwn o input (env.clock w.ticks) w.store := by
  rw [revoke_store]
  constructor
  · intro h token hn
    have hmem := named_mem hn
    by_cases ht : token.revokedAt = some (env.clock w.ticks)
    · exact Or.inl ht
    · right
      apply h.owner token hmem (revoked (env.clock w.ticks) token)
      · rw [revokeNamed,hn]
        exact Records.mem_set.mpr (Or.inl rfl)
      · rfl
      · exact fun he => ht he.symm
  · intro h
    cases hn : named o w.store input with
    | none =>
      rw [revokeNamed,hn]
      constructor
      · intro token hmem token' hmem' hk hne
        exact absurd (congrArg OAuthTokenRecord.revokedAt (Records.eq_of_key hmem' hmem hk)) hne
      · exact fun _ => rfl
    | some token =>
      have hmem := named_mem hn
      rw [revokeNamed,hn]
      change RevokesOwn o input w.store {w.store with tokens := w.store.tokens.set (revoked (env.clock w.ticks) token)}
      rcases h token hn with ht | ⟨client,hauth,howner⟩
      · -- the record is written as it was
        have hsame : revoked (env.clock w.ticks) token = token := by
          rw [revoked,← ht]
        rw [hsame]
        constructor
        · intro token₁ hmem₁ token' hmem' hk hne
          dsimp only at hmem'
          rw [set_self hmem] at hmem'
          exact absurd (congrArg OAuthTokenRecord.revokedAt (Records.eq_of_key hmem' hmem₁ hk)) hne
        · exact fun _ => set_self hmem
      · constructor
        · intro token₁ hmem₁ token' hmem' hk hne
          rcases Records.mem_set.mp hmem' with rfl | ⟨hold,-⟩
          · obtain rfl := Records.eq_of_key hmem hmem₁ hk
            exact ⟨client,hauth,howner⟩
          · exact absurd (congrArg OAuthTokenRecord.revokedAt (Records.eq_of_key hold hmem₁ hk)) hne
        · exact fun hnone => absurd howner (hnone client hauth token hn)

end Revoking

section Stranger

def plainOptions : ServerOptions where
  resolveTenant tenantId := .ok tenantId
  anonymousRegistration := true
  signedInRegistration := true
  accessTokenTtlMillis := 600000
  refreshTokenTtlMillis := 2592000000
  codeTtlMillis := 60000
  hashToken token := token
  pkceS256 verifier := verifier
  isHttpUrl _ := true
  redirectUrl uri _ _ := uri

/-- A refresh token of the client `as_1`, in a store that knows no client `nobody`. -/
def refreshToken : OAuthTokenRecord :=
  ⟨"acme","token-1",.refresh,"as_1",some "user-1",["read"],some "secret",some "family-1",1000,none,none,0⟩

def refreshTokenStore : OAuthStore :=
  {OAuthStore.empty with tokens := OAuthStore.empty.tokens.set refreshToken}

def strangerWorld : World OAuthStore := ⟨refreshTokenStore,0,fun _ => 0,⟨⟨"key",0⟩,none⟩,[],[]⟩

/-- A request without a registered client revokes the token. -/
theorem not_revokesOwn_stranger : ¬ ∀ (o : ServerOptions) (env : Environment) (input : TokenInput)
    (w : World OAuthStore),
    RevokesOwn o input w.store (World.call OAuthStore.perform env o (.revoke input) w).2.store := by
  intro h
  have hstranger := (revokesOwn_iff _ _).mp
    (h plainOptions ⟨fun _ => 0,fun _ _ _ => "",fun _ _ => []⟩ ⟨"acme","nobody",none,"secret"⟩ strangerWorld)
  have hnamed : named plainOptions refreshTokenStore ⟨"acme","nobody",none,"secret"⟩ = some refreshToken := by
    decide +kernel
  rcases hstranger refreshToken hnamed with ht | ⟨client,hauth,-⟩
  · cases ht
  · have hnone : authenticated plainOptions refreshTokenStore ⟨"acme","nobody",none,"secret"⟩ = none := by
      decide +kernel
    change authenticated plainOptions refreshTokenStore _ = _ at hauth
    rw [hnone] at hauth
    cases hauth

end Stranger

end StructureAi.Auth

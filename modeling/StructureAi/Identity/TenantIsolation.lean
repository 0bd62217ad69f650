import StructureAi.Foundation.Program
import StructureAi.Foundation.Text
import StructureAi.Identity.AuthStore

/-! # Tenants of one store

The maps of the store are shared by the tenants, and a key begins with its tenant up to the
first NUL character. What a tenant sees of the store is the rows of this tenant: its own
operations depend on nothing else, and those of the others leave it as it is.
-/
namespace StructureAi.Identity
open StructureAi.Foundation

section Keys

def NulFree (text : String) : Prop := '\x00' ∉ text.toList

theorem scopedKey_tenant {tenantId tenantId' value value' : String} (h : NulFree tenantId) (h' : NulFree tenantId')
    (he : scopedKey tenantId value = scopedKey tenantId' value') : tenantId = tenantId' :=
  (separated_inj_left h h' he).1

theorem tokenKey_eq (tenantId purpose hash : String) :
    tokenKey tenantId purpose hash = scopedKey tenantId (purpose ++ "\x00" ++ hash) := by
  simp only [tokenKey,scopedKey,String.append_assoc]

theorem oauthKey_eq (tenantId provider subject : String) :
    oauthKey tenantId provider subject = scopedKey tenantId (provider ++ "\x00" ++ subject) := by
  simp only [oauthKey,scopedKey,String.append_assoc]

/-- Records of a tenant, under keys that begin with it. -/
class Tenanted {α : Type} (key : α → String) where
  tenant : α → String
  value : α → String
  key_eq : ∀ r, key r = scopedKey (tenant r) (value r)

instance : Tenanted AuthUser.key := ⟨AuthUser.tenantId,AuthUser.id,fun _ => rfl⟩

instance : Tenanted EmailEntry.key := ⟨EmailEntry.tenantId,EmailEntry.email,fun _ => rfl⟩

instance : Tenanted PasswordCredential.key := ⟨PasswordCredential.tenantId,PasswordCredential.email,fun _ => rfl⟩

instance : Tenanted OneTimeTokenRecord.key := ⟨OneTimeTokenRecord.tenantId,_,fun _ => tokenKey_eq _ _ _⟩

instance : Tenanted SessionRecord.key := ⟨SessionRecord.tenantId,SessionRecord.tokenHash,fun _ => rfl⟩

instance : Tenanted OAuthStateRecord.key := ⟨OAuthStateRecord.tenantId,OAuthStateRecord.stateHash,fun _ => rfl⟩

instance : Tenanted OAuthIdentity.key := ⟨OAuthIdentity.tenantId,_,fun _ => oauthKey_eq _ _ _⟩

instance : Tenanted PasskeyChallengeRecord.key := ⟨PasskeyChallengeRecord.tenantId,_,fun _ => tokenKey_eq _ _ _⟩

instance : Tenanted PasskeyRecord.key := ⟨PasskeyRecord.tenantId,PasskeyRecord.credentialId,fun _ => rfl⟩

instance : Tenanted TotpRecord.key := ⟨TotpRecord.tenantId,TotpRecord.userId,fun _ => rfl⟩

end Keys

section Tables
variable {α : Type} {key : α → String} [Tenanted key] {t : Records key} {A B v : String} {r : α}

def ofTenant (A : String) (t : Records key) : Records key := t.only fun r => Tenanted.tenant key r = A

def NulFreeTenants (t : Records key) : Prop := ∀ r ∈ t.rows, NulFree (Tenanted.tenant key r)

theorem tenant_of_key (ht : NulFreeTenants t) (hA : NulFree A) (hr : r ∈ t.rows) (hk : key r = scopedKey A v) :
    Tenanted.tenant key r = A :=
  scopedKey_tenant (ht r hr) hA ((Tenanted.key_eq r).symm.trans hk)

theorem tenant_of_get (ht : NulFreeTenants t) (hA : NulFree A) (hg : t.get (scopedKey A v) = some r) :
    Tenanted.tenant key r = A :=
  tenant_of_key ht hA (Records.get_eq_some_iff.mp hg).1 (Records.get_eq_some_iff.mp hg).2

theorem get_ofTenant (ht : NulFreeTenants t) (hA : NulFree A) (v : String) :
    (ofTenant A t).get (scopedKey A v) = t.get (scopedKey A v) :=
  Records.get_only fun _ hr hk => decide_eq_true (tenant_of_key ht hA hr hk)

theorem get_key_ofTenant (ht : NulFreeTenants t) (hA : NulFree A) (hr : Tenanted.tenant key r = A) :
    (ofTenant A t).get (key r) = t.get (key r) := by
  have hkey : key r = scopedKey A (Tenanted.value key r) := hr ▸ Tenanted.key_eq r
  rw [hkey]
  exact get_ofTenant ht hA _

theorem set_ofTenant (ht : NulFreeTenants t) (hA : NulFree A) (hr : Tenanted.tenant key r = A) :
    ofTenant A (t.set r) = (ofTenant A t).set r := by
  refine Records.only_set (decide_eq_true hr) ?_
  intro r' hr' hk
  have hkey : key r = scopedKey A (Tenanted.value key r) := hr ▸ Tenanted.key_eq r
  exact decide_eq_true (tenant_of_key ht hA hr' (hk.trans hkey))

theorem update_ofTenant {r' : α} (ht : NulFreeTenants t) (hA : NulFree A) (hg : t.get (scopedKey A v) = some r)
    (hr : Tenanted.tenant key r' = Tenanted.tenant key r) : ofTenant A (t.set r') = (ofTenant A t).set r' :=
  set_ofTenant ht hA (hr.trans (tenant_of_get ht hA hg))

theorem deleteWhere_ofTenant (q : α → Bool) : ofTenant A (t.deleteWhere q) = (ofTenant A t).deleteWhere q :=
  Records.only_deleteWhere

theorem delete_ofTenant (k : String) : ofTenant A (t.delete k) = (ofTenant A t).delete k := Records.only_deleteWhere

theorem nulFree_deleteWhere (ht : NulFreeTenants t) (q : α → Bool) : NulFreeTenants (t.deleteWhere q) :=
  fun r hr => ht r (Records.mem_deleteWhere.mp hr).1

/-- A table changed in the rows of one tenant. -/
structure TableWrites (B : String) (t t' : Records key) : Prop where
  others : ∀ A, B ≠ A → ofTenant A t' = ofTenant A t
  nulFree : NulFreeTenants t'

theorem TableWrites.refl (ht : NulFreeTenants t) : TableWrites B t t := ⟨fun _ _ => rfl,ht⟩

theorem TableWrites.trans {t' t'' : Records key} (h : TableWrites B t t') (h' : TableWrites B t' t'') :
    TableWrites B t t'' := ⟨fun A hA => (h'.others A hA).trans (h.others A hA),h'.nulFree⟩

theorem TableWrites.set (ht : NulFreeTenants t) (hB : NulFree B) (hr : Tenanted.tenant key r = B) :
    TableWrites B t (t.set r) := by
  constructor
  · intro A hne
    refine Records.only_set_of_not (decide_eq_false (by rwa [hr])) ?_
    intro r' hr' hk
    have hkey : key r = scopedKey B (Tenanted.value key r) := hr ▸ Tenanted.key_eq r
    rw [decide_eq_false_iff_not,tenant_of_key ht hB hr' (hk.trans hkey)]
    exact hne
  · intro r' hr'
    rcases Records.mem_set.mp hr' with rfl | ⟨hold,-⟩
    · rw [hr]
      exact hB
    · exact ht r' hold

theorem TableWrites.update {r' : α} (ht : NulFreeTenants t) (hB : NulFree B) (hg : t.get (scopedKey B v) = some r)
    (hr : Tenanted.tenant key r' = Tenanted.tenant key r) : TableWrites B t (t.set r') :=
  .set ht hB (hr.trans (tenant_of_get ht hB hg))

theorem TableWrites.deleteWhere {q : α → Bool} (ht : NulFreeTenants t)
    (hq : ∀ r ∈ t.rows, q r = true → Tenanted.tenant key r = B) : TableWrites B t (t.deleteWhere q) := by
  constructor
  · intro A hne
    apply Records.only_deleteWhere_of_not
    intro r hr hqr
    rw [decide_eq_false_iff_not,hq r hr hqr]
    exact hne
  · exact nulFree_deleteWhere ht q

theorem TableWrites.delete (ht : NulFreeTenants t) (hB : NulFree B) (v : String) :
    TableWrites B t (t.delete (scopedKey B v)) :=
  .deleteWhere ht fun _ hr hk => tenant_of_key ht hB hr (of_decide_eq_true hk)

theorem TableWrites.modify {q : α → Bool} {g : α → α} (ht : NulFreeTenants t) (hg : ∀ r, key (g r) = key r)
    (hsame : ∀ r, Tenanted.tenant key (g r) = Tenanted.tenant key r)
    (hq : ∀ r ∈ t.rows, q r = true → Tenanted.tenant key r = B) : TableWrites B t (t.modify q g hg) := by
  constructor
  · intro A hne
    apply Records.only_modify_of_not hg
    · intro r
      rw [hsame]
    · intro r hr hqr
      rw [decide_eq_false_iff_not,hq r hr hqr]
      exact hne
  · intro r hr
    obtain ⟨r',hr',rfl⟩ := Records.mem_modify.mp hr
    split
    · rw [hsame]
      exact ht r' hr'
    · exact ht r' hr'

end Tables

def StoreOp.tenants : StoreOp → List String
  | createPasswordUser user credential => [user.tenantId,credential.tenantId]
  | createOAuthUser user identity => [user.tenantId,identity.tenantId]
  | createMagicLinkUser user => [user.tenantId]
  | putOneTimeToken record => [record.tenantId]
  | createSession record => [record.tenantId]
  | putOAuthState record => [record.tenantId]
  | addOAuthIdentity identity => [identity.tenantId]
  | putPasskeyChallenge record => [record.tenantId]
  | addPasskey record => [record.tenantId]
  | putTotpSecret record => [record.tenantId]
  | recordTotpFailure input => [input.tenantId]
  | findUserById tenantId _ | findUserByEmail tenantId _ | findPassword tenantId _ | setEmailVerified tenantId _ _
  | replacePasswordAndRevokeSessions tenantId _ _ _ | consumeOneTimeToken tenantId _ _ _ | findSession tenantId _ _
  | revokeSession tenantId _ | revokeUserSessions tenantId _ | consumeOAuthState tenantId _ _
  | findOAuthIdentity tenantId _ _ | removeOAuthIdentity tenantId _ _ | consumePasskeyChallenge tenantId _ _ _
  | findPasskey tenantId _ | listPasskeys tenantId _ | renamePasskey tenantId _ _ _ | removePasskey tenantId _ _
  | updatePasskeyCounter tenantId _ _ _ | findTotp tenantId _ | confirmTotp tenantId _ _ _ | removeTotp tenantId _
  | replaceTotpSecret tenantId _ _ | resetTotpFailures tenantId _ | markTotpStepUsed tenantId _ _
  | consumeRecoveryCode tenantId _ _ | elevateSession tenantId _ _ => [tenantId]

def StoreOp.On (A : String) (op : StoreOp) : Bool := op.tenants.all fun tenantId => tenantId = A

theorem op_tenant {op : StoreOp} {A tenantId : String} (hop : op.On A = true) (hmem : tenantId ∈ op.tenants) :
    tenantId = A :=
  of_decide_eq_true (List.all_eq_true.mp hop tenantId hmem)

namespace MemoryState

def ofTenant (A : String) (s : MemoryState) : MemoryState where
  users := Identity.ofTenant A s.users
  usersByEmail := Identity.ofTenant A s.usersByEmail
  passwords := Identity.ofTenant A s.passwords
  tokens := Identity.ofTenant A s.tokens
  sessions := Identity.ofTenant A s.sessions
  oauthStates := Identity.ofTenant A s.oauthStates
  oauthIdentities := Identity.ofTenant A s.oauthIdentities
  passkeyChallenges := Identity.ofTenant A s.passkeyChallenges
  passkeys := Identity.ofTenant A s.passkeys
  totp := Identity.ofTenant A s.totp

/-- No tenant of the store has a NUL character. -/
structure NulFree (s : MemoryState) : Prop where
  users : NulFreeTenants s.users
  usersByEmail : NulFreeTenants s.usersByEmail
  passwords : NulFreeTenants s.passwords
  tokens : NulFreeTenants s.tokens
  sessions : NulFreeTenants s.sessions
  oauthStates : NulFreeTenants s.oauthStates
  oauthIdentities : NulFreeTenants s.oauthIdentities
  passkeyChallenges : NulFreeTenants s.passkeyChallenges
  passkeys : NulFreeTenants s.passkeys
  totp : NulFreeTenants s.totp

/-- The store changed in the rows of one tenant. -/
structure Writes (B : String) (s s' : MemoryState) : Prop where
  users : TableWrites B s.users s'.users
  usersByEmail : TableWrites B s.usersByEmail s'.usersByEmail
  passwords : TableWrites B s.passwords s'.passwords
  tokens : TableWrites B s.tokens s'.tokens
  sessions : TableWrites B s.sessions s'.sessions
  oauthStates : TableWrites B s.oauthStates s'.oauthStates
  oauthIdentities : TableWrites B s.oauthIdentities s'.oauthIdentities
  passkeyChallenges : TableWrites B s.passkeyChallenges s'.passkeyChallenges
  passkeys : TableWrites B s.passkeys s'.passkeys
  totp : TableWrites B s.totp s'.totp

variable {s s' : MemoryState} {A B : String} {op : StoreOp}

theorem Writes.refl (h : s.NulFree) : Writes B s s where
  users := .refl h.users
  usersByEmail := .refl h.usersByEmail
  passwords := .refl h.passwords
  tokens := .refl h.tokens
  sessions := .refl h.sessions
  oauthStates := .refl h.oauthStates
  oauthIdentities := .refl h.oauthIdentities
  passkeyChallenges := .refl h.passkeyChallenges
  passkeys := .refl h.passkeys
  totp := .refl h.totp

theorem Writes.nulFree (h : Writes B s s') : s'.NulFree where
  users := h.users.nulFree
  usersByEmail := h.usersByEmail.nulFree
  passwords := h.passwords.nulFree
  tokens := h.tokens.nulFree
  sessions := h.sessions.nulFree
  oauthStates := h.oauthStates.nulFree
  oauthIdentities := h.oauthIdentities.nulFree
  passkeyChallenges := h.passkeyChallenges.nulFree
  passkeys := h.passkeys.nulFree
  totp := h.totp.nulFree

theorem Writes.ofTenant (h : Writes B s s') (hne : B ≠ A) : s'.ofTenant A = s.ofTenant A := by
  unfold MemoryState.ofTenant
  congr 1
  · exact h.users.others A hne
  · exact h.usersByEmail.others A hne
  · exact h.passwords.others A hne
  · exact h.tokens.others A hne
  · exact h.sessions.others A hne
  · exact h.oauthStates.others A hne
  · exact h.oauthIdentities.others A hne
  · exact h.passkeyChallenges.others A hne
  · exact h.passkeys.others A hne
  · exact h.totp.others A hne

theorem insertUser_writes (h : s.NulFree) (hB : Identity.NulFree B) {user : AuthUser} (hu : user.tenantId = B) :
    Writes B s (s.insertUser user) := by
  have hemail : TableWrites B s.usersByEmail (s.insertUser user).usersByEmail := by
    unfold insertUser
    cases user.email with
    | none => exact .refl h.usersByEmail
    | some email => exact .set h.usersByEmail hB hu
  exact {Writes.refl h with users := .set h.users hB hu, usersByEmail := hemail}

theorem revokes_writes (h : s.NulFree) (tenantId userId : String) :
    TableWrites tenantId s.sessions (s.sessions.deleteWhere (revokes tenantId userId)) := by
  apply TableWrites.deleteWhere h.sessions
  intro session _ hr
  simp only [revokes,Bool.and_eq_true,decide_eq_true_eq] at hr
  exact hr.1

theorem perform_writes (h : s.NulFree) (hB : Identity.NulFree B) (hop : op.On B = true) :
    Writes B s (perform op s).2 := by
  have hself : Writes B s s := .refl h
  cases op with
  | createPasswordUser user credential =>
    obtain ⟨hu,hc⟩ : user.tenantId = B ∧ credential.tenantId = B := by simpa [StoreOp.On,StoreOp.tenants] using hop
    simp only [perform]
    split
    · exact hself
    · split
      · exact hself
      · exact {insertUser_writes h hB hu with passwords := .set h.passwords hB hc}
  | createOAuthUser user identity =>
    obtain ⟨hu,hi⟩ : user.tenantId = B ∧ identity.tenantId = B := by simpa [StoreOp.On,StoreOp.tenants] using hop
    simp only [perform]
    split
    · exact hself
    · split
      · exact hself
      · exact {insertUser_writes h hB hu with oauthIdentities := .set h.oauthIdentities hB hi}
  | createMagicLinkUser user =>
    have hu : user.tenantId = B := op_tenant hop List.mem_cons_self
    simp only [perform]
    split
    · exact hself
    · exact insertUser_writes h hB hu
  | putOneTimeToken record =>
    have hr : record.tenantId = B := op_tenant hop List.mem_cons_self
    have hdelete : TableWrites B s.tokens (s.tokens.deleteWhere (superseded record)) := by
      apply TableWrites.deleteWhere h.tokens
      intro existing _ hs
      simp only [superseded,Bool.and_eq_true,decide_eq_true_eq] at hs
      exact hs.1.1.trans hr
    exact {hself with tokens := hdelete.trans (.set hdelete.nulFree hB hr)}
  | createSession record =>
    have hr : record.tenantId = B := op_tenant hop List.mem_cons_self
    simp only [perform]
    split
    · exact hself
    · exact {hself with sessions := .set h.sessions hB hr}
  | putOAuthState record =>
    have hr : record.tenantId = B := op_tenant hop List.mem_cons_self
    exact {hself with oauthStates := .set h.oauthStates hB hr}
  | addOAuthIdentity identity =>
    have hi : identity.tenantId = B := op_tenant hop List.mem_cons_self
    simp only [perform]
    split
    · exact hself
    · exact {hself with oauthIdentities := .set h.oauthIdentities hB hi}
  | putPasskeyChallenge record =>
    have hr : record.tenantId = B := op_tenant hop List.mem_cons_self
    exact {hself with passkeyChallenges := .set h.passkeyChallenges hB hr}
  | addPasskey record =>
    have hr : record.tenantId = B := op_tenant hop List.mem_cons_self
    simp only [perform]
    split
    · exact hself
    · exact {hself with passkeys := .set h.passkeys hB hr}
  | putTotpSecret record =>
    have hr : record.tenantId = B := op_tenant hop List.mem_cons_self
    exact {hself with totp := .set h.totp hB hr}
  | findUserById _ _ => exact hself
  | findUserByEmail _ _ => exact hself
  | findPassword _ _ => exact hself
  | findOAuthIdentity _ _ _ => exact hself
  | findPasskey _ _ => exact hself
  | listPasskeys _ _ => exact hself
  | findTotp _ _ => exact hself
  | setEmailVerified tenantId userId now =>
    obtain rfl := op_tenant hop List.mem_cons_self
    simp only [perform]
    split
    · exact hself
    · rename_i hg
      exact {hself with users := .update h.users hB hg rfl}
  | replacePasswordAndRevokeSessions tenantId userId passwordHash now =>
    obtain rfl := op_tenant hop List.mem_cons_self
    have hpasswords : TableWrites tenantId s.passwords
        (perform (.replacePasswordAndRevokeSessions tenantId userId passwordHash now) s).2.passwords := by
      refine TableWrites.modify h.passwords ?_ ?_ ?_
      · exact fun _ => rfl
      · exact fun _ => rfl
      · intro credential _ hq
        simp only [Bool.and_eq_true,decide_eq_true_eq] at hq
        exact hq.1
    exact {hself with passwords := hpasswords, sessions := revokes_writes h tenantId userId}
  | consumeOneTimeToken tenantId purpose tokenHash now =>
    obtain rfl := op_tenant hop List.mem_cons_self
    have hdelete := TableWrites.delete h.tokens hB (purpose.text ++ "\x00" ++ tokenHash)
    rw [← tokenKey_eq] at hdelete
    exact {hself with tokens := hdelete}
  | findSession tenantId tokenHash now =>
    obtain rfl := op_tenant hop List.mem_cons_self
    simp only [perform]
    split
    · exact hself
    · split
      · exact {hself with sessions := .delete h.sessions hB _}
      · exact hself
  | revokeSession tenantId tokenHash =>
    obtain rfl := op_tenant hop List.mem_cons_self
    exact {hself with sessions := .delete h.sessions hB _}
  | revokeUserSessions tenantId userId =>
    obtain rfl := op_tenant hop List.mem_cons_self
    exact {hself with sessions := revokes_writes h tenantId userId}
  | consumeOAuthState tenantId stateHash now =>
    obtain rfl := op_tenant hop List.mem_cons_self
    exact {hself with oauthStates := .delete h.oauthStates hB _}
  | removeOAuthIdentity tenantId userId provider =>
    obtain rfl := op_tenant hop List.mem_cons_self
    have hdelete : TableWrites tenantId s.oauthIdentities
        (perform (.removeOAuthIdentity tenantId userId provider) s).2.oauthIdentities := by
      apply TableWrites.deleteWhere h.oauthIdentities
      intro identity _ hq
      simp only [Bool.and_eq_true,decide_eq_true_eq] at hq
      exact hq.1.1
    exact {hself with oauthIdentities := hdelete}
  | consumePasskeyChallenge tenantId purpose challengeHash now =>
    obtain rfl := op_tenant hop List.mem_cons_self
    have hdelete := TableWrites.delete h.passkeyChallenges hB (purpose.text ++ "\x00" ++ challengeHash)
    rw [← tokenKey_eq] at hdelete
    exact {hself with passkeyChallenges := hdelete}
  | renamePasskey tenantId userId credentialId label =>
    obtain rfl := op_tenant hop List.mem_cons_self
    simp only [perform]
    split
    · exact hself
    · rename_i hg
      split
      · exact {hself with passkeys := .update h.passkeys hB hg rfl}
      · exact hself
  | removePasskey tenantId userId credentialId =>
    obtain rfl := op_tenant hop List.mem_cons_self
    simp only [perform]
    split
    · exact hself
    · split
      · exact {hself with passkeys := .delete h.passkeys hB _}
      · exact hself
  | updatePasskeyCounter tenantId credentialId expectedCounter counter =>
    obtain rfl := op_tenant hop List.mem_cons_self
    simp only [perform]
    split
    · exact hself
    · rename_i hg
      split
      · exact {hself with passkeys := .update h.passkeys hB hg rfl}
      · exact hself
  | confirmTotp tenantId userId recoveryCodeHashes now =>
    obtain rfl := op_tenant hop List.mem_cons_self
    simp only [perform]
    split
    · exact hself
    · rename_i hg
      split
      · exact hself
      · exact {hself with totp := .update h.totp hB hg rfl}
  | removeTotp tenantId userId =>
    obtain rfl := op_tenant hop List.mem_cons_self
    exact {hself with totp := .delete h.totp hB _}
  | replaceTotpSecret tenantId userId secretBase32 =>
    obtain rfl := op_tenant hop List.mem_cons_self
    simp only [perform]
    split
    · exact hself
    · rename_i hg
      exact {hself with totp := .update h.totp hB hg rfl}
  | recordTotpFailure input =>
    have hr : input.tenantId = B := op_tenant hop List.mem_cons_self
    simp only [perform,hr]
    split
    · exact hself
    · rename_i hg
      exact {hself with totp := .update h.totp hB hg rfl}
  | resetTotpFailures tenantId userId =>
    obtain rfl := op_tenant hop List.mem_cons_self
    simp only [perform]
    split
    · exact hself
    · rename_i hg
      exact {hself with totp := .update h.totp hB hg rfl}
  | markTotpStepUsed tenantId userId step =>
    obtain rfl := op_tenant hop List.mem_cons_self
    simp only [perform]
    split
    · exact hself
    · rename_i hg
      split
      · exact hself
      · exact {hself with totp := .update h.totp hB hg rfl}
  | consumeRecoveryCode tenantId userId codeHash =>
    obtain rfl := op_tenant hop List.mem_cons_self
    simp only [perform]
    split
    · exact hself
    · rename_i hg
      split
      · exact {hself with totp := .update h.totp hB hg rfl}
      · exact hself
  | elevateSession tenantId tokenHash now =>
    obtain rfl := op_tenant hop List.mem_cons_self
    simp only [perform]
    split
    · exact hself
    · rename_i hg
      exact {hself with sessions := .update h.sessions hB hg rfl}

section Seen
variable (hA : Identity.NulFree A) (h : s.NulFree)
include hA h

theorem get_users (v : String) : (s.ofTenant A).users.get (scopedKey A v) = s.users.get (scopedKey A v) :=
  get_ofTenant h.users hA v

theorem get_sessions (v : String) : (s.ofTenant A).sessions.get (scopedKey A v) = s.sessions.get (scopedKey A v) :=
  get_ofTenant h.sessions hA v

theorem get_passkeys (v : String) : (s.ofTenant A).passkeys.get (scopedKey A v) = s.passkeys.get (scopedKey A v) :=
  get_ofTenant h.passkeys hA v

theorem get_totp (v : String) : (s.ofTenant A).totp.get (scopedKey A v) = s.totp.get (scopedKey A v) :=
  get_ofTenant h.totp hA v

theorem update_passkeys {v : String} {r r' : PasskeyRecord} (hg : s.passkeys.get (scopedKey A v) = some r)
    (hr : r'.tenantId = r.tenantId) :
    {s.ofTenant A with passkeys := (s.ofTenant A).passkeys.set r'} = ofTenant A {s with passkeys := s.passkeys.set r'} :=
  congrArg (fun passkeys => {s.ofTenant A with passkeys}) (update_ofTenant h.passkeys hA hg hr).symm

theorem update_totp {v : String} {r r' : TotpRecord} (hg : s.totp.get (scopedKey A v) = some r)
    (hr : r'.tenantId = r.tenantId) :
    {s.ofTenant A with totp := (s.ofTenant A).totp.set r'} = ofTenant A {s with totp := s.totp.set r'} :=
  congrArg (fun totp => {s.ofTenant A with totp}) (update_ofTenant h.totp hA hg hr).symm

end Seen

theorem assertUserUnique_ofTenant (hA : Identity.NulFree A) (h : s.NulFree) {user : AuthUser} (hu : user.tenantId = A) :
    (s.ofTenant A).assertUserUnique user = s.assertUserUnique user := by
  subst hu
  have hid : (s.ofTenant user.tenantId).users.get user.key = s.users.get user.key := get_ofTenant h.users hA user.id
  have hemail : ∀ email, (s.ofTenant user.tenantId).usersByEmail.get (scopedKey user.tenantId email) =
      s.usersByEmail.get (scopedKey user.tenantId email) := get_ofTenant h.usersByEmail hA
  unfold assertUserUnique
  simp only [hid,hemail]

theorem insertUser_ofTenant (hA : Identity.NulFree A) (h : s.NulFree) {user : AuthUser} (hu : user.tenantId = A) :
    (s.insertUser user).ofTenant A = (s.ofTenant A).insertUser user := by
  have hemail : Identity.ofTenant A (s.insertUser user).usersByEmail = ((s.ofTenant A).insertUser user).usersByEmail := by
    unfold insertUser
    cases user.email with
    | none => rfl
    | some email => exact set_ofTenant h.usersByEmail hA hu
  unfold ofTenant
  congr 1
  exact set_ofTenant h.users hA hu

/-- What an operation on a tenant answers, and what it does, is seen in the rows of this tenant. -/
theorem perform_ofTenant (hA : Identity.NulFree A) (h : s.NulFree) (hop : op.On A = true) :
    perform op (s.ofTenant A) = ((perform op s).1,(perform op s).2.ofTenant A) := by
  cases op with
  | createPasswordUser user credential =>
    obtain ⟨hu,hc⟩ : user.tenantId = A ∧ credential.tenantId = A := by simpa [StoreOp.On,StoreOp.tenants] using hop
    have hget : (s.ofTenant A).passwords.get credential.key = s.passwords.get credential.key :=
      get_key_ofTenant h.passwords hA hc
    simp only [perform,assertUserUnique_ofTenant hA h hu,hget]
    split
    · rfl
    · split
      · rfl
      · rw [← insertUser_ofTenant hA h hu]
        exact Prod.ext rfl (congrArg (fun passwords => {(s.insertUser user).ofTenant A with passwords})
          (set_ofTenant h.passwords hA hc).symm)
  | createOAuthUser user identity =>
    obtain ⟨hu,hi⟩ : user.tenantId = A ∧ identity.tenantId = A := by simpa [StoreOp.On,StoreOp.tenants] using hop
    have hget : (s.ofTenant A).oauthIdentities.get identity.key = s.oauthIdentities.get identity.key :=
      get_key_ofTenant h.oauthIdentities hA hi
    simp only [perform,assertUserUnique_ofTenant hA h hu,hget]
    split
    · rfl
    · split
      · rfl
      · rw [← insertUser_ofTenant hA h hu]
        exact Prod.ext rfl (congrArg (fun oauthIdentities => {(s.insertUser user).ofTenant A with oauthIdentities})
          (set_ofTenant h.oauthIdentities hA hi).symm)
  | createMagicLinkUser user =>
    have hu : user.tenantId = A := op_tenant hop List.mem_cons_self
    simp only [perform,assertUserUnique_ofTenant hA h hu,← insertUser_ofTenant hA h hu]
    split <;> rfl
  | findUserById tenantId userId =>
    obtain rfl := op_tenant hop List.mem_cons_self
    simp only [perform,get_users hA h]
  | findUserByEmail tenantId email =>
    obtain rfl := op_tenant hop List.mem_cons_self
    have hget : (s.ofTenant tenantId).usersByEmail.get (scopedKey tenantId email) =
      s.usersByEmail.get (scopedKey tenantId email) :=
      get_ofTenant h.usersByEmail hA _
    have hid : ∀ userId, (s.ofTenant tenantId).users.get (scopedKey tenantId userId) = s.users.get (scopedKey tenantId userId) :=
      get_ofTenant h.users hA
    simp only [perform,hget,hid]
  | findPassword tenantId email =>
    obtain rfl := op_tenant hop List.mem_cons_self
    have hget : (s.ofTenant tenantId).passwords.get (scopedKey tenantId email) = s.passwords.get (scopedKey tenantId email) :=
      get_ofTenant h.passwords hA _
    simp only [perform,hget]
  | setEmailVerified tenantId userId now =>
    obtain rfl := op_tenant hop List.mem_cons_self
    simp only [perform,get_users hA h]
    split
    · rfl
    · rename_i hg
      refine Prod.ext rfl (congrArg (fun users => {s.ofTenant tenantId with users}) ?_)
      exact (update_ofTenant h.users hA hg (by rfl)).symm
  | replacePasswordAndRevokeSessions tenantId userId passwordHash now =>
    obtain rfl := op_tenant hop List.mem_cons_self
    have hpasswords : Identity.ofTenant tenantId
          (perform (.replacePasswordAndRevokeSessions tenantId userId passwordHash now) s).2.passwords =
        (perform (.replacePasswordAndRevokeSessions tenantId userId passwordHash now) (s.ofTenant tenantId)).2.passwords :=
      Records.only_modify (by exact fun _ => rfl) (by exact fun _ => rfl)
    have hsessions := deleteWhere_ofTenant (A := tenantId) (t := s.sessions) (revokes tenantId userId)
    exact Prod.ext rfl (congrArg₂ (fun passwords sessions => {s.ofTenant tenantId with passwords, sessions})
      hpasswords.symm hsessions.symm)
  | putOneTimeToken record =>
    have hr : record.tenantId = A := op_tenant hop List.mem_cons_self
    have htokens : Identity.ofTenant A (s.putOneTimeToken record).tokens = ((s.ofTenant A).putOneTimeToken record).tokens :=
      (set_ofTenant (nulFree_deleteWhere h.tokens _) hA hr).trans (congrArg (Records.set · record) (deleteWhere_ofTenant _))
    exact Prod.ext rfl (congrArg (fun tokens => {s.ofTenant A with tokens}) htokens.symm)
  | consumeOneTimeToken tenantId purpose tokenHash now =>
    obtain rfl := op_tenant hop List.mem_cons_self
    have hget : (s.ofTenant tenantId).tokens.get (tokenKey tenantId purpose.text tokenHash) =
        s.tokens.get (tokenKey tenantId purpose.text tokenHash) := by
      rw [tokenKey_eq]
      exact get_ofTenant h.tokens hA _
    simp only [perform,hget]
    refine Prod.ext rfl (congrArg (fun tokens => {s.ofTenant tenantId with tokens}) ?_)
    exact (delete_ofTenant _).symm
  | createSession record =>
    have hr : record.tenantId = A := op_tenant hop List.mem_cons_self
    have hget : (s.ofTenant A).sessions.get record.key = s.sessions.get record.key := get_key_ofTenant h.sessions hA hr
    simp only [perform,hget]
    split
    · rfl
    · refine Prod.ext rfl (congrArg (fun sessions => {s.ofTenant A with sessions}) ?_)
      exact (set_ofTenant h.sessions hA hr).symm
  | findSession tenantId tokenHash now =>
    obtain rfl := op_tenant hop List.mem_cons_self
    simp only [perform,get_sessions hA h]
    split
    · rfl
    · split
      · refine Prod.ext rfl (congrArg (fun sessions => {s.ofTenant tenantId with sessions}) ?_)
        exact (delete_ofTenant _).symm
      · rfl
  | revokeSession tenantId tokenHash =>
    obtain rfl := op_tenant hop List.mem_cons_self
    refine Prod.ext rfl (congrArg (fun sessions => {s.ofTenant tenantId with sessions}) ?_)
    exact (delete_ofTenant _).symm
  | revokeUserSessions tenantId userId =>
    obtain rfl := op_tenant hop List.mem_cons_self
    refine Prod.ext rfl (congrArg (fun sessions => {s.ofTenant tenantId with sessions}) ?_)
    exact (deleteWhere_ofTenant _).symm
  | putOAuthState record =>
    have hr : record.tenantId = A := op_tenant hop List.mem_cons_self
    refine Prod.ext rfl (congrArg (fun oauthStates => {s.ofTenant A with oauthStates}) ?_)
    exact (set_ofTenant h.oauthStates hA hr).symm
  | consumeOAuthState tenantId stateHash now =>
    obtain rfl := op_tenant hop List.mem_cons_self
    have hget : (s.ofTenant tenantId).oauthStates.get (scopedKey tenantId stateHash) =
      s.oauthStates.get (scopedKey tenantId stateHash) :=
      get_ofTenant h.oauthStates hA _
    simp only [perform,hget]
    refine Prod.ext rfl (congrArg (fun oauthStates => {s.ofTenant tenantId with oauthStates}) ?_)
    exact (delete_ofTenant _).symm
  | findOAuthIdentity tenantId provider subject =>
    obtain rfl := op_tenant hop List.mem_cons_self
    have hget : (s.ofTenant tenantId).oauthIdentities.get (oauthKey tenantId provider subject) =
        s.oauthIdentities.get (oauthKey tenantId provider subject) := by
      rw [oauthKey_eq]
      exact get_ofTenant h.oauthIdentities hA _
    simp only [perform,hget]
  | addOAuthIdentity identity =>
    have hr : identity.tenantId = A := op_tenant hop List.mem_cons_self
    have hget : (s.ofTenant A).oauthIdentities.get identity.key = s.oauthIdentities.get identity.key :=
      get_key_ofTenant h.oauthIdentities hA hr
    simp only [perform,hget]
    split
    · rfl
    · refine Prod.ext rfl (congrArg (fun oauthIdentities => {s.ofTenant A with oauthIdentities}) ?_)
      exact (set_ofTenant h.oauthIdentities hA hr).symm
  | removeOAuthIdentity tenantId userId provider =>
    obtain rfl := op_tenant hop List.mem_cons_self
    refine Prod.ext rfl (congrArg (fun oauthIdentities => {s.ofTenant tenantId with oauthIdentities}) ?_)
    exact (deleteWhere_ofTenant _).symm
  | putPasskeyChallenge record =>
    have hr : record.tenantId = A := op_tenant hop List.mem_cons_self
    refine Prod.ext rfl (congrArg (fun passkeyChallenges => {s.ofTenant A with passkeyChallenges}) ?_)
    exact (set_ofTenant h.passkeyChallenges hA hr).symm
  | consumePasskeyChallenge tenantId purpose challengeHash now =>
    obtain rfl := op_tenant hop List.mem_cons_self
    have hget : (s.ofTenant tenantId).passkeyChallenges.get (tokenKey tenantId purpose.text challengeHash) =
        s.passkeyChallenges.get (tokenKey tenantId purpose.text challengeHash) := by
      rw [tokenKey_eq]
      exact get_ofTenant h.passkeyChallenges hA _
    simp only [perform,hget]
    refine Prod.ext rfl (congrArg (fun passkeyChallenges => {s.ofTenant tenantId with passkeyChallenges}) ?_)
    exact (delete_ofTenant _).symm
  | addPasskey record =>
    have hr : record.tenantId = A := op_tenant hop List.mem_cons_self
    have hget : (s.ofTenant A).passkeys.get record.key = s.passkeys.get record.key := get_key_ofTenant h.passkeys hA hr
    simp only [perform,hget]
    split
    · rfl
    · refine Prod.ext rfl (congrArg (fun passkeys => {s.ofTenant A with passkeys}) ?_)
      exact (set_ofTenant h.passkeys hA hr).symm
  | findPasskey tenantId credentialId =>
    obtain rfl := op_tenant hop List.mem_cons_self
    simp only [perform,get_passkeys hA h]
  | listPasskeys tenantId userId =>
    obtain rfl := op_tenant hop List.mem_cons_self
    refine Prod.ext (congrArg Except.ok ?_) rfl
    change ((Identity.ofTenant tenantId s.passkeys).rows.filter _) = s.passkeys.rows.filter _
    rw [Identity.ofTenant,Records.rows_only,List.filter_filter]
    apply List.filter_congr
    intro passkey _
    change (_ && decide (passkey.tenantId = tenantId)) = _
    by_cases ht : passkey.tenantId = tenantId
    · simp [ht]
    · simp [ht]
  | renamePasskey tenantId userId credentialId label =>
    obtain rfl := op_tenant hop List.mem_cons_self
    simp only [perform,get_passkeys hA h]
    split
    · rfl
    · rename_i hg
      split
      · exact Prod.ext rfl (update_passkeys hA h hg (by rfl))
      · rfl
  | removePasskey tenantId userId credentialId =>
    obtain rfl := op_tenant hop List.mem_cons_self
    simp only [perform,get_passkeys hA h]
    split
    · rfl
    · rename_i hg
      split
      · refine Prod.ext rfl (congrArg (fun passkeys => {s.ofTenant tenantId with passkeys}) ?_)
        exact (delete_ofTenant _).symm
      · rfl
  | updatePasskeyCounter tenantId credentialId expectedCounter counter =>
    obtain rfl := op_tenant hop List.mem_cons_self
    simp only [perform,get_passkeys hA h]
    split
    · rfl
    · rename_i hg
      split
      · exact Prod.ext rfl (update_passkeys hA h hg (by rfl))
      · rfl
  | putTotpSecret record =>
    have hr : record.tenantId = A := op_tenant hop List.mem_cons_self
    refine Prod.ext rfl (congrArg (fun totp => {s.ofTenant A with totp}) ?_)
    exact (set_ofTenant h.totp hA hr).symm
  | findTotp tenantId userId =>
    obtain rfl := op_tenant hop List.mem_cons_self
    simp only [perform,get_totp hA h]
  | confirmTotp tenantId userId recoveryCodeHashes now =>
    obtain rfl := op_tenant hop List.mem_cons_self
    simp only [perform,get_totp hA h]
    split
    · rfl
    · rename_i hg
      split
      · rfl
      · exact Prod.ext rfl (update_totp hA h hg (by rfl))
  | removeTotp tenantId userId =>
    obtain rfl := op_tenant hop List.mem_cons_self
    refine Prod.ext rfl (congrArg (fun totp => {s.ofTenant tenantId with totp}) ?_)
    exact (delete_ofTenant _).symm
  | replaceTotpSecret tenantId userId secretBase32 =>
    obtain rfl := op_tenant hop List.mem_cons_self
    simp only [perform,get_totp hA h]
    split
    · rfl
    · rename_i hg
      exact Prod.ext rfl (update_totp hA h hg (by rfl))
  | recordTotpFailure input =>
    have hr : input.tenantId = A := op_tenant hop List.mem_cons_self
    simp only [perform,hr,get_totp hA h]
    split
    · rfl
    · rename_i hg
      exact Prod.ext rfl (update_totp hA h hg (by rfl))
  | resetTotpFailures tenantId userId =>
    obtain rfl := op_tenant hop List.mem_cons_self
    simp only [perform,get_totp hA h]
    split
    · rfl
    · rename_i hg
      exact Prod.ext rfl (update_totp hA h hg (by rfl))
  | markTotpStepUsed tenantId userId step =>
    obtain rfl := op_tenant hop List.mem_cons_self
    simp only [perform,get_totp hA h]
    split
    · rfl
    · rename_i hg
      split
      · rfl
      · exact Prod.ext rfl (update_totp hA h hg (by rfl))
  | consumeRecoveryCode tenantId userId codeHash =>
    obtain rfl := op_tenant hop List.mem_cons_self
    simp only [perform,get_totp hA h]
    split
    · rfl
    · rename_i hg
      split
      · exact Prod.ext rfl (update_totp hA h hg (by rfl))
      · rfl
  | elevateSession tenantId tokenHash now =>
    obtain rfl := op_tenant hop List.mem_cons_self
    simp only [perform,get_sessions hA h]
    split
    · rfl
    · rename_i hg
      refine Prod.ext rfl (congrArg (fun sessions => {s.ofTenant tenantId with sessions}) ?_)
      exact (update_ofTenant h.sessions hA hg (by rfl)).symm

theorem newState_nulFree : newState.NulFree := by
  constructor <;> exact fun _ hr => absurd hr List.not_mem_nil

end MemoryState

section Runs

def answers : MemoryState → List StoreOp → List (Answered StoreOp fun op => Except IdentityConflict op.Answer)
  | _,[] => []
  | s,op :: ops => ⟨op,(MemoryState.perform op s).1⟩ :: answers (MemoryState.perform op s).2 ops

/-- The operation is on one tenant, which has no NUL character. -/
def StoreOp.OneTenant (op : StoreOp) : Prop := ∃ tenantId, NulFree tenantId ∧ op.On tenantId = true

variable {A : String}

theorem not_on_of_on {op : StoreOp} {B : String} (hB : op.On B = true) (hne : B ≠ A) : op.On A = false := by
  rw [← Bool.not_eq_true]
  intro hA
  cases op <;> simp_all [StoreOp.On,StoreOp.tenants]

/-- The answers on a tenant are those of its operations run alone, from what it sees of the store. -/
theorem answers_on (hA : NulFree A) {s : MemoryState} (h : s.NulFree) (ops : List StoreOp)
    (hops : ∀ op ∈ ops, op.OneTenant) :
    (answers s ops).filter (fun answered => answered.op.On A) =
      answers (s.ofTenant A) (ops.filter fun op => op.On A) := by
  induction ops generalizing s with
  | nil => rfl
  | cons op ops ih =>
    obtain ⟨B,hB,hop⟩ := hops op List.mem_cons_self
    have hwrites := MemoryState.perform_writes h hB hop
    have hrest := ih hwrites.nulFree fun op' hop' => hops op' (List.mem_cons_of_mem _ hop')
    rw [answers]
    by_cases hBA : B = A
    · subst hBA
      simp only [List.filter_cons,hop,if_true]
      rw [answers,MemoryState.perform_ofTenant hA h hop,hrest]
    · simp only [List.filter_cons,not_on_of_on hop hBA,Bool.false_eq_true,if_false]
      rw [hrest,hwrites.ofTenant hBA]

/-- Two runs with the same operations on a tenant answer them alike, whatever else they contain. -/
theorem tenants_isolated (hA : NulFree A) {ops ops' : List StoreOp} (hops : ∀ op ∈ ops, op.OneTenant)
    (hops' : ∀ op ∈ ops', op.OneTenant) (hsame : ops.filter (fun op => op.On A) = ops'.filter fun op => op.On A) :
    (answers .newState ops).filter (fun answered => answered.op.On A) =
      (answers .newState ops').filter fun answered => answered.op.On A := by
  rw [answers_on hA MemoryState.newState_nulFree ops hops,answers_on hA MemoryState.newState_nulFree ops' hops',hsame]

/-- The same user of two tenants: the operations on one of them, alone and among those on the other. -/
theorem tenants_isolated_same_user :
    let user : String → AuthUser := fun tenantId => ⟨"u",tenantId,some "ada@example.com",false,none,0,0⟩
    let ops : List StoreOp := [.createMagicLinkUser (user "acme"),.findUserByEmail "acme" "ada@example.com"]
    let others : List StoreOp := [.createMagicLinkUser (user "umbrella"),.createMagicLinkUser (user "acme"),
      .setEmailVerified "umbrella" "u" 1,.findUserByEmail "acme" "ada@example.com"]
    (answers .newState ops).filter (fun answered => answered.op.On "acme") =
      (answers .newState others).filter fun answered => answered.op.On "acme" := by
  have hacme : NulFree "acme" := by
    unfold NulFree
    decide
  have humbrella : NulFree "umbrella" := by
    unfold NulFree
    decide
  apply tenants_isolated hacme
  · intro op hop
    fin_cases hop
    · exact ⟨"acme",hacme,by decide⟩
    · exact ⟨"acme",hacme,by decide⟩
  · intro op hop
    fin_cases hop
    · exact ⟨"umbrella",humbrella,by decide⟩
    · exact ⟨"acme",hacme,by decide⟩
    · exact ⟨"umbrella",humbrella,by decide⟩
    · exact ⟨"acme",hacme,by decide⟩
  · rfl

end Runs
end StructureAi.Identity

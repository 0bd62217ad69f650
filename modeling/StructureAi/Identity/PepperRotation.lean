import StructureAi.Identity.ApiKeys

/-! # Keys through rotations of the pepper

Instances come and go with their sets of peppers. As long as a set has the version of every
live record, a record is hashed under its version from the secret its key was minted with,
whatever verifications rehash it meanwhile, and the secret is what verifies.
-/
namespace StructureAi.Identity
open StructureAi.Foundation ApiKeys

abbrev ApiKeyPool := Pool ApiKeyOp ApiKeyOp.Reply ApiKeyCall (Except ApiKeyServiceError ApiKeyAnswer) ApiKeyWorld

abbrev ApiKeyAnswered := Answered ApiKeyOp ApiKeyOp.Reply

section Rotation
variable (env : ApiKeyEnvironment) (pepper : PepperVersion → String)

def ApiKeyPeppers.Consistent (peppers : ApiKeyPeppers) : Prop := ∀ entry ∈ peppers.all, entry.pepper = pepper entry.version

/-- Not revoked, and not expired for the clock from here on. -/
def ApiKeyRecord.Live (asked : ℕ) (record : ApiKeyRecord) : Prop :=
  record.revokedAt = none ∧ ∀ expiresAt ∈ record.expiresAt, ∃ n ≥ asked, env.now n < expiresAt

/-- The set has the version of every live record. -/
def ApiKeyPeppers.Covers (w : ApiKeyWorld) (peppers : ApiKeyPeppers) : Prop :=
  ∀ record ∈ w.keys.rows, record.Live env w.history.length → ∃ entry ∈ peppers.all, entry.version = record.pepperVersion

def FreshKeyId (op : ApiKeyOp) (w : ApiKeyWorld) : Prop :=
  op = .randomBytes keyIdBytes → (⟨op,(env.handle op w).1⟩ : ApiKeyAnswered) ∉ w.history

/-- What the peppers of an instance and the source of key ids promise at an operation. -/
structure Rotating (call : ApiKeyCall) (op : ApiKeyOp) (w : ApiKeyWorld) : Prop where
  consistent : call.options.peppers.Consistent pepper
  covers : call.options.peppers.Covers env w
  fresh : FreshKeyId env op w

def Rotates (s : ApiKeyPool) (turn : Turn ApiKeyCall Empty) : Prop :=
  ∀ i f, turn = .resume i → s.fibers i = some f → Rotating env pepper f.call f.op s.world

theorem pepperFor_eq_some {peppers : ApiKeyPeppers} (hc : peppers.Consistent pepper) {version : PepperVersion} {p : String}
    (h : pepperFor peppers version = some p) : p = pepper version := by
  obtain ⟨entry,hfind,rfl⟩ := Option.map_eq_some_iff.mp h
  have hversion : entry.version = version := by simpa using List.find?_some hfind
  rw [hc entry (List.mem_of_find?_eq_some hfind),hversion]

theorem pepperFor_of_mem {peppers : ApiKeyPeppers} (hc : peppers.Consistent pepper) {version : PepperVersion}
    (h : ∃ entry ∈ peppers.all, entry.version = version) : pepperFor peppers version = some (pepper version) := by
  cases hp : pepperFor peppers version with
  | some p => rw [pepperFor_eq_some pepper hc hp]
  | none =>
    obtain ⟨entry,hentry,hversion⟩ := h
    have hnone := List.find?_eq_none.mp (Option.map_eq_none_iff.mp hp) entry hentry
    exact absurd (decide_eq_true hversion) hnone

end Rotation

section Calls
variable (hmac : List UInt8 → List UInt8 → List UInt8) (env : ApiKeyEnvironment) (pepper : PepperVersion → String)

/-- A call drew the parts of a key and stored its record. -/
structure MintedBy (call : ApiKeyCall) (past : List ApiKeyAnswered) (minted : MintedApiKey) (secret : String) : Prop where
  drawn : ∃ id buffer createdAt, minted.record.keyId = hexText id.1 ∧ secret = hexText buffer.1 ∧
    ([⟨.store (.create minted.record),()⟩,⟨.now,createdAt⟩,⟨.randomBytes secretBytes,buffer⟩,
      ⟨.randomBytes keyIdBytes,id⟩] : List ApiKeyAnswered) <:+ past
  tenant : minted.record.tenantId = call.tenantId
  hash : minted.record.secretHash = hmacSha256 hmac (pepper minted.record.pepperVersion) secret
  key : minted.key = keyText minted.record.keyId minted.record.pepperVersion secret

def RestsOn (call : ApiKeyCall) (past : List ApiKeyAnswered) : ApiKeyOp → Prop
  | .store (.create record) => ∃ key secret, MintedBy hmac pepper call (⟨.store (.create record),()⟩ :: past) ⟨key,record⟩ secret
  | .store (.replaceHash _ keyId secretHash pepperVersion) => ∃ tenantId looked record secret,
    (⟨.store (.findByKeyId tenantId looked),some record⟩ : ApiKeyAnswered) ∈ past ∧ record.keyId = keyId ∧
      record.secretHash = hmacSha256 hmac (pepper record.pepperVersion) secret ∧
      secretHash = hmacSha256 hmac (pepper pepperVersion) secret
  | _ => True

/-- The record of a verification was found, is not revoked, not expired at any reading of the call, and its
user stands. -/
structure FoundStanding (call : ApiKeyCall) (past : List ApiKeyAnswered) (keyId : String) (record : ApiKeyRecord) : Prop where
  found : (⟨.store (.findByKeyId call.tenantId keyId),some record⟩ : ApiKeyAnswered) ∈ past
  unrevoked : record.revokedAt = none
  unexpired : ∀ expiresAt ∈ record.expiresAt, ∀ time, (⟨.now,time⟩ : ApiKeyAnswered) ∈ past → time < expiresAt
  standing : ∀ reply, (⟨.resolveUser call.tenantId record.userId,reply⟩ : ApiKeyAnswered) ∈ past → reply = .ok true

/-- What a call ends with. -/
structure Settled (call : ApiKeyCall) (past : List ApiKeyAnswered) (answer : Except ApiKeyServiceError ApiKeyAnswer) : Prop where
  minted : ∀ minted, answer = .ok (.minted minted) → ∃ secret, MintedBy hmac pepper call past minted secret
  accepted : ∀ rawKey standing, call.request = .verify rawKey → answer = .ok (.standing standing) →
    ∃ parsed record, parseKey rawKey = .ok parsed ∧
      (⟨.store (.findByKeyId call.tenantId parsed.keyId),some record⟩ : ApiKeyAnswered) ∈ past ∧
      record.secretHash = hmacSha256 hmac (pepper record.pepperVersion) parsed.secret ∧
      standing = standingOf call.tenantId record
  accepts : ∀ rawKey parsed record, call.request = .verify rawKey → parseKey rawKey = .ok parsed →
    FoundStanding call past parsed.keyId record →
    record.secretHash = hmacSha256 hmac (pepper record.pepperVersion) parsed.secret →
    answer = .ok (.standing (standingOf call.tenantId record))

def apiKeyDiscipline : Discipline (apiKeyService env hmac) where
  inv _ := True
  rely _ w w' := w.history.length ≤ w'.history.length
  given _ call _ op w := Rotating env pepper call op w
  may _ call past op _ := RestsOn hmac pepper call past op
  refl _ _ := le_refl _
  trans _ _ _ _ h h' := le_trans h h'
  keeps _ _ _ _ _ _ _ _ := trivial
  frames _ _ _ _ _ _ _ _ _ _ := Nat.le_succ _
  outside_inv e := e.elim
  outside_rely _ e := e.elim

variable {hmac env pepper} {i : ℕ} {call : ApiKeyCall} {w : ApiKeyWorld}

theorem mint_settles {input : MintApiKeyInput} :
    (apiKeyDiscipline hmac env pepper).Returns i call
      (fun past minted _ => ∃ secret, MintedBy hmac pepper call past minted secret) (fun _ _ _ => True)
      (mint hmac call.options call.tenantId input) [] w := by
  apply Discipline.Returns.bind
  apply Discipline.Returns.bind
  apply Discipline.Returns.lift
  intro w₁ _ _ _
  refine ⟨trivial,?_⟩
  apply Discipline.Returns.pure
  apply Discipline.Returns.bind
  apply Discipline.Returns.bind
  apply Discipline.Returns.lift
  intro w₂ _ _ _
  refine ⟨trivial,?_⟩
  apply Discipline.Returns.pure
  apply Discipline.Returns.bind
  apply Discipline.Returns.lift
  intro w₃ _ _ _
  refine ⟨trivial,?_⟩
  apply Discipline.Returns.bind
  apply Discipline.Returns.lift
  intro w₄ _ _ hgiven
  have hpepper := hgiven.consistent call.options.peppers.current List.mem_cons_self
  have hhash := fun secret => congrArg (hmacSha256 hmac · secret) hpepper
  constructor
  · exact ⟨keyText _ _ _,hexText _,⟨_,_,_,rfl,rfl,List.suffix_refl _⟩,rfl,hhash _,rfl⟩
  · apply Discipline.Returns.pure
    exact ⟨hexText _,⟨_,_,_,rfl,rfl,List.suffix_refl _⟩,rfl,hhash _,rfl⟩

/-- A verification found the record, and looked for no other. -/
structure Found (call : ApiKeyCall) (keyId : String) (record : ApiKeyRecord) (past : List ApiKeyAnswered) : Prop where
  found : (⟨.store (.findByKeyId call.tenantId keyId),some record⟩ : ApiKeyAnswered) ∈ past
  only : ∀ reply, (⟨.store (.findByKeyId call.tenantId keyId),reply⟩ : ApiKeyAnswered) ∈ past → reply = some record

variable {keyId secret : String} {record : ApiKeyRecord} {past : List ApiKeyAnswered}

theorem Found.cons (h : Found call keyId record past) {op : ApiKeyOp} {reply : op.Reply}
    (hop : ∀ keyId, op ≠ .store (.findByKeyId call.tenantId keyId)) : Found call keyId record (⟨op,reply⟩ :: past) := by
  constructor
  · exact List.mem_cons_of_mem _ h.found
  · intro reply' hin
    rcases List.mem_cons.mp hin with he | hold
    · exact absurd (congrArg Answered.op he).symm (hop keyId)
    · exact h.only reply' hold

theorem requireUnexpired_settles (h : Found call keyId record past) :
    (apiKeyDiscipline hmac env pepper).Returns i call
      (fun past _ _ => Found call keyId record past ∧
        ∀ expiresAt ∈ record.expiresAt, ∃ n ≥ w.history.length, env.now n < expiresAt)
      (fun past _ _ => Found call keyId record past ∧ ¬ FoundStanding call past keyId record)
      (requireUnexpired record) past w := by
  unfold requireUnexpired
  cases he : record.expiresAt with
  | none =>
    apply Discipline.Returns.pure
    exact ⟨h,by simp⟩
  | some expiresAt =>
    apply Discipline.Returns.bind
    apply Discipline.Returns.lift
    intro w' hrely _ _
    have hfound : Found call keyId record (⟨.now,env.now w'.history.length⟩ :: past) := h.cons fun _ hop => by cases hop
    refine ⟨trivial,?_⟩
    change (apiKeyDiscipline hmac env pepper).Returns _ _ _ _ (if expiresAt ≤ env.now w'.history.length then _ else _) _ _
    by_cases hle : expiresAt ≤ env.now w'.history.length
    · rw [if_pos hle]
      apply Discipline.Returns.throw
      refine ⟨hfound,fun hs => ?_⟩
      have hlt : env.now w'.history.length < expiresAt := hs.unexpired expiresAt he _ List.mem_cons_self
      omega
    · rw [if_neg hle]
      apply Discipline.Returns.pure
      refine ⟨hfound,?_⟩
      rintro at_ ⟨rfl⟩
      exact ⟨w'.history.length,hrely,by omega⟩

theorem requireStanding_settles (h : Found call keyId record past) :
    (apiKeyDiscipline hmac env pepper).Returns i call (fun past _ _ => Found call keyId record past)
      (fun past _ _ => Found call keyId record past ∧ ¬ FoundStanding call past keyId record)
      (requireStanding call.options call.tenantId record) past w := by
  unfold requireStanding
  split
  · apply Discipline.Returns.bind
    apply Discipline.Returns.lift
    intro w' _ _ _
    refine ⟨trivial,?_⟩
    generalize hreply : ((apiKeyService env hmac).handle i call (.resolveUser call.tenantId record.userId) w').1 = reply
    have hfound : Found call keyId record (⟨.resolveUser call.tenantId record.userId,reply⟩ :: past) :=
      h.cons fun _ hop => by cases hop
    cases reply with
    | error e =>
      refine ⟨hfound,fun hs => ?_⟩
      cases hs.standing _ List.mem_cons_self
    | ok alive =>
      cases alive with
      | true => exact hfound
      | false =>
        refine ⟨hfound,fun hs => ?_⟩
        cases hs.standing _ List.mem_cons_self
  · exact h

theorem rehash_settles (h : Found call keyId record past)
    (hsecret : record.secretHash = hmacSha256 hmac (pepper record.pepperVersion) secret) :
    (apiKeyDiscipline hmac env pepper).Returns i call (fun past _ _ => Found call keyId record past) (fun _ _ _ => False)
      (rehash hmac call.options call.tenantId record secret) past w := by
  unfold rehash
  split
  · apply Discipline.Returns.lift
    intro w' _ _ hgiven
    have hpepper := hgiven.consistent call.options.peppers.current List.mem_cons_self
    constructor
    · exact ⟨_,_,record,secret,h.found,rfl,hsecret,congrArg (hmacSha256 hmac · secret) hpepper⟩
    · exact h.cons fun _ hop => by cases hop
  · exact h

theorem verify_settles {rawKey : String} :
    (apiKeyDiscipline hmac env pepper).Returns i call
      (fun past standing _ => ∃ parsed record, parseKey rawKey = .ok parsed ∧ Found call parsed.keyId record past ∧
        record.secretHash = hmacSha256 hmac (pepper record.pepperVersion) parsed.secret ∧
        standing = standingOf call.tenantId record)
      (fun past _ _ => ∀ parsed record, parseKey rawKey = .ok parsed → FoundStanding call past parsed.keyId record →
        record.secretHash ≠ hmacSha256 hmac (pepper record.pepperVersion) parsed.secret)
      (verify hmac call.options call.tenantId rawKey) [] w := by
  unfold verify
  apply Discipline.Returns.bind
  cases hparse : parseKey rawKey with
  | error e =>
    intro parsed record he
    cases he
  | ok parsed =>
    apply Discipline.Returns.bind
    apply Discipline.Returns.lift
    intro w₁ _ _ hgiven
    refine ⟨trivial,?_⟩
    generalize hreply : ((apiKeyService env hmac).handle i call (.store (.findByKeyId call.tenantId parsed.keyId)) w₁).1 = reply
    have hrow : w₁.keys.get (scopedKey call.tenantId parsed.keyId) = reply := hreply
    -- the record that stands can only be the one that was found
    have hfail : ∀ {past : List ApiKeyAnswered} {record : ApiKeyRecord}, Found call parsed.keyId record past →
        (FoundStanding call past parsed.keyId record →
          record.secretHash ≠ hmacSha256 hmac (pepper record.pepperVersion) parsed.secret) →
        ∀ parsed' record', (Except.ok parsed : Except ApiKeyServiceError ParsedKey) = .ok parsed' →
          FoundStanding call past parsed'.keyId record' →
          record'.secretHash ≠ hmacSha256 hmac (pepper record'.pepperVersion) parsed'.secret := by
      rintro past record hfound hne parsed' record' ⟨rfl⟩ hs
      obtain rfl := Option.some.inj (hfound.only _ hs.found)
      exact hne hs
    cases reply with
    | none =>
      apply Discipline.Returns.throw
      rintro parsed' record' ⟨rfl⟩ hs
      have hin := List.mem_singleton.mp hs.found
      cases hin
    | some record =>
      have hfound : Found call parsed.keyId record [⟨.store (.findByKeyId call.tenantId parsed.keyId),some record⟩] := by
        constructor
        · exact List.mem_cons_self
        · intro reply' hin
          cases List.mem_singleton.mp hin
          rfl
      apply Discipline.Returns.ite
      · intro hrevoked
        apply Discipline.Returns.throw
        refine hfail hfound fun hs => ?_
        rw [hs.unrevoked] at hrevoked
        cases hrevoked
      · intro hrevoked
        apply Discipline.Returns.bind
        refine (requireUnexpired_settles hfound).mono ?_ fun past _ _ hf => hfail hf.1 fun hs => absurd hs hf.2
        rintro past₁ - w₂ ⟨hfound₁,hlive⟩
        apply Discipline.Returns.bind
        refine (requireStanding_settles hfound₁).mono ?_ fun past _ _ hf => hfail hf.1 fun hs => absurd hs hf.2
        intro past₂ _ w₃ hfound₂
        -- what was looked up live is in the set of peppers
        have hpepper : pepperFor call.options.peppers record.pepperVersion = some (pepper record.pepperVersion) := by
          apply pepperFor_of_mem pepper hgiven.consistent
          apply hgiven.covers record (Records.get_eq_some_iff.mp hrow).1
          refine ⟨by simpa using hrevoked,?_⟩
          intro expiresAt he
          obtain ⟨n,hn,hlt⟩ := hlive expiresAt he
          exact ⟨n,Nat.le_of_succ_le hn,hlt⟩
        rw [hpepper]
        dsimp only
        refine Discipline.Returns.ite ?_ ?_
        · intro hequal
          have hsecret := (timingSafeEqual_iff.mp hequal).symm
          apply Discipline.Returns.bind
          refine (rehash_settles hfound₂ hsecret).mono ?_ fun _ _ _ => False.elim
          intro past₃ _ w₄ hfound₃
          apply Discipline.Returns.bind
          apply Discipline.Returns.lift
          intro w₅ _ _ _
          refine ⟨trivial,?_⟩
          apply Discipline.Returns.bind
          apply Discipline.Returns.lift
          intro w₆ _ _ _
          refine ⟨trivial,?_⟩
          apply Discipline.Returns.pure
          refine ⟨parsed,record,rfl,?_,hsecret,rfl⟩
          exact (hfound₃.cons fun _ hop => by cases hop).cons fun _ hop => by cases hop
        · intro hequal
          apply Discipline.Returns.throw
          refine hfail hfound₂ fun _ hsecret => ?_
          exact hequal (timingSafeEqual_iff.mpr hsecret.symm)

theorem settled_of_other {answer : Except ApiKeyServiceError ApiKeyAnswer} (h : ∀ rawKey, call.request ≠ .verify rawKey)
    (hminted : ∀ minted, answer = .ok (.minted minted) → ∃ secret, MintedBy hmac pepper call past minted secret) :
    Settled hmac pepper call past answer := by
  constructor
  · exact hminted
  · intro rawKey standing hr
    exact absurd hr (h rawKey)
  · intro rawKey parsed record hr
    exact absurd hr (h rawKey)

theorem apiKeys_settle : (apiKeyDiscipline hmac env pepper).Starts
    fun _ call past answer _ => Settled hmac pepper call past answer := by
  intro i call w _
  have hreturns : (apiKeyDiscipline hmac env pepper).Returns i call
      (fun past answer _ => Settled hmac pepper call past (.ok answer))
      (fun past error _ => Settled hmac pepper call past (.error error)) (call.program hmac) [] w := by
    unfold ApiKeyCall.program
    cases hrequest : call.request with
    | mint input =>
      apply Discipline.Returns.bind
      refine mint_settles.mono ?_ ?_
      · intro past minted _ hminted
        apply Discipline.Returns.pure
        apply settled_of_other (by simp [hrequest])
        rintro _ ⟨rfl⟩
        exact hminted
      · intro past error _ _
        apply settled_of_other (by simp [hrequest])
        rintro _ ⟨⟩
    | verify rawKey =>
      apply Discipline.Returns.bind
      refine verify_settles.mono ?_ ?_
      · rintro past standing _ ⟨parsed,record,hparse,hfound,hsecret,rfl⟩
        apply Discipline.Returns.pure
        constructor
        · rintro _ ⟨⟩
        · rintro _ _ hr ⟨rfl⟩
          cases hrequest.symm.trans hr
          exact ⟨parsed,record,hparse,hfound.found,hsecret,rfl⟩
        · rintro _ parsed' record' hr hparse' hs _
          cases hrequest.symm.trans hr
          cases hparse.symm.trans hparse'
          obtain rfl := Option.some.inj (hfound.only _ hs.found)
          rfl
      · intro past error _ hrefused
        constructor
        · rintro _ ⟨⟩
        · rintro _ _ _ ⟨⟩
        · rintro _ parsed record hr hparse hs hsecret
          cases hrequest.symm.trans hr
          exact absurd hsecret (hrefused parsed record hparse hs)
    | revoke keyId =>
      apply Discipline.Returns.bind
      apply Discipline.Returns.bind
      apply Discipline.Returns.lift
      intro w₁ _ _ _
      refine ⟨trivial,?_⟩
      apply Discipline.Returns.lift
      intro w₂ _ _ _
      refine ⟨trivial,?_⟩
      apply settled_of_other (by simp [hrequest])
      rintro _ ⟨⟩
    | listByUser userId =>
      apply Discipline.Returns.bind
      apply Discipline.Returns.lift
      intro w₁ _ _ _
      refine ⟨trivial,?_⟩
      apply settled_of_other (by simp [hrequest])
      rintro _ ⟨⟩
  refine Discipline.Along.mono ?_ hreturns
  intro past answer _ h
  cases answer with
  | ok answer => exact h
  | error error => exact h

end Calls

section Ids

def drawnKeyId : ApiKeyAnswered → Option (List UInt8)
  | ⟨.randomBytes bytes,buffer⟩ => if bytes = keyIdBytes then some buffer.1 else none
  | _ => none

theorem drawnKeyId_eq_some {a : ApiKeyAnswered} {t : List UInt8} :
    drawnKeyId a = some t ↔ ∃ buffer, a = ⟨.randomBytes keyIdBytes,buffer⟩ ∧ buffer.1 = t := by
  constructor
  · intro h
    unfold drawnKeyId at h
    split at h
    · rename_i bytes buffer
      split at h
      · rename_i hb
        subst hb
        exact ⟨buffer,rfl,Option.some.inj h⟩
      · cases h
    · cases h
  · rintro ⟨buffer,rfl,rfl⟩
    simp [drawnKeyId]

variable (hmac : List UInt8 → List UInt8 → List UInt8) (env : ApiKeyEnvironment) (pepper : PepperVersion → String)

def keyIdTaking : (apiKeyDiscipline hmac env pepper).Taking (List UInt8) where
  takes _ a := drawnKeyId a
  spent t w := ∃ a ∈ w.history, drawnKeyId a = some t
  fresh := by
    intro i call past op w t _ hgiven _ ht
    constructor
    · rintro ⟨a,ha,hat⟩
      obtain ⟨buffer,hop,hb⟩ := drawnKeyId_eq_some.mp ht
      obtain ⟨buffer',rfl,hb'⟩ := drawnKeyId_eq_some.mp hat
      obtain rfl : buffer' = buffer := Subtype.ext (hb'.trans hb.symm)
      exact hgiven.fresh (congrArg Answered.op hop) (hop ▸ ha)
    · exact ⟨_,List.mem_cons_self,ht⟩
  lasts := by
    rintro i call past op w t _ _ _ ⟨a,ha,hat⟩
    exact ⟨a,List.mem_cons_of_mem _ ha,hat⟩
  outside e := e.elim

end Ids
section Stored
variable (hmac : List UInt8 → List UInt8 → List UInt8) (env : ApiKeyEnvironment) (pepper : PepperVersion → String)

def MintedIn (s : ApiKeyPool) (minted : MintedApiKey) (secret : String) : Prop :=
  ∃ call past, s.Was call past ∧ MintedBy hmac pepper call past minted secret

/-- The record of a key, up to what rotation, use and revocation change. -/
def SameKey (minted record : ApiKeyRecord) : Prop :=
  record = {minted with
    secretHash := record.secretHash, pepperVersion := record.pepperVersion
    lastUsedAt := record.lastUsedAt, revokedAt := record.revokedAt}

/-- The record is hashed under its version from the secret its key was minted with. -/
def Held (s : ApiKeyPool) (record : ApiKeyRecord) : Prop :=
  ∃ minted secret, MintedIn hmac pepper s minted secret ∧ SameKey minted.record record ∧
    record.secretHash = hmacSha256 hmac (pepper record.pepperVersion) secret

/-- The records a call looked up are held, each under the key of its lookup. -/
def Looked (s : ApiKeyPool) (past : List ApiKeyAnswered) : Prop := ∀ tenantId keyId record,
  (⟨.store (.findByKeyId tenantId keyId),some record⟩ : ApiKeyAnswered) ∈ past →
    Held hmac pepper s record ∧ record.key = scopedKey tenantId keyId

/-- Every record is held, stored or looked up, and the record of every key is stored. -/
structure Faithful (s : ApiKeyPool) : Prop where
  stored : ∀ record ∈ s.world.keys.rows, Held hmac pepper s record
  kept : ∀ minted secret, MintedIn hmac pepper s minted secret → (s.world.keys.get minted.record.key).isSome = true
  looked : ∀ call past, s.Was call past → Looked hmac pepper s past

variable {hmac env pepper} {s s' : ApiKeyPool} {turn : Turn ApiKeyCall Empty} {minted minted' : MintedApiKey}
  {secret secret' : String} {record : ApiKeyRecord}

theorem SameKey.change {a r : ApiKeyRecord} (h : SameKey a r) (secretHash : String) (pepperVersion : PepperVersion)
    (lastUsedAt revokedAt : Option ℤ) : SameKey a {r with secretHash, pepperVersion, lastUsedAt, revokedAt} := by
  unfold SameKey at h ⊢
  exact congrArg (fun r : ApiKeyRecord => {r with secretHash, pepperVersion, lastUsedAt, revokedAt}) h

theorem MintedIn.keyId_nulFree (h : MintedIn hmac pepper s minted secret) : '\x00' ∉ minted.record.keyId.toList := by
  obtain ⟨call,past,-,hby⟩ := h
  obtain ⟨id,-,-,hid,-⟩ := hby.drawn
  rw [hid]
  exact (hexText_kind _).2.1

theorem MintedIn.mono (h : MintedIn hmac pepper s minted secret) (hs : (apiKeyService env hmac).step s turn = some s') :
    MintedIn hmac pepper s' minted secret := by
  obtain ⟨call,past,hwas,hby⟩ := h
  obtain ⟨past',hwas',hsuffix⟩ := Service.was_mono hs hwas
  obtain ⟨id,buffer,createdAt,hid,hsecret,hdrawn⟩ := hby.drawn
  exact ⟨call,past',hwas',⟨id,buffer,createdAt,hid,hsecret,hdrawn.trans hsuffix⟩,hby.tenant,hby.hash,hby.key⟩

theorem Held.mono (h : Held hmac pepper s record) (hs : (apiKeyService env hmac).step s turn = some s') :
    Held hmac pepper s' record := by
  obtain ⟨minted,secret,hminted,hheld⟩ := h
  exact ⟨minted,secret,hminted.mono hs,hheld⟩

theorem MintedIn.unique (hx : (keyIdTaking hmac env pepper).Exclusive s) (h : MintedIn hmac pepper s minted secret)
    (h' : MintedIn hmac pepper s minted' secret') (hid : minted.record.keyId = minted'.record.keyId) :
    minted = minted' ∧ secret = secret' := by
  obtain ⟨call,past,hwas,hby⟩ := h
  obtain ⟨call',past',hwas',hby'⟩ := h'
  obtain ⟨id,buffer,createdAt,hkey,hsecret,hdrawn⟩ := hby.drawn
  obtain ⟨id',buffer',createdAt',hkey',hsecret',hdrawn'⟩ := hby'.drawn
  have hids : id = id' := Subtype.ext (hexText_injective (hkey.symm.trans (hid.trans hkey')))
  subst hids
  have htaken : ∀ {call : ApiKeyCall} {past : List ApiKeyAnswered},
      (⟨.randomBytes keyIdBytes,id⟩ : ApiKeyAnswered) ∈ past → id.1 ∈ (keyIdTaking hmac env pepper).taken call past :=
    fun hin => List.mem_filterMap.mpr ⟨_,hin,drawnKeyId_eq_some.mpr ⟨id,rfl,rfl⟩⟩
  obtain ⟨rfl,rfl⟩ := hx.same hwas hwas' (htaken (hdrawn.subset (by simp))) (htaken (hdrawn'.subset (by simp)))
  have hlists := List.IsSuffix.eq_of_length (List.suffix_of_suffix_length_le hdrawn hdrawn' le_rfl) rfl
  simp only [List.cons.injEq,Answered.mk.injEq,ApiKeyOp.store.injEq,ApiKeyStoreOp.create.injEq,true_and] at hlists
  have hrecord : minted.record = minted'.record := hlists.1.1
  have hbuffer : buffer = buffer' := by simpa using hlists.2.2.1
  subst hbuffer
  have hsame : secret = secret' := hsecret.trans hsecret'.symm
  have hkeys : minted.key = minted'.key := by rw [hby.key,hby'.key,hrecord,hsame]
  constructor
  · cases minted
    cases minted'
    cases hrecord
    cases hkeys
    rfl
  · exact hsame

section Tables
variable {t : ApiKeyTable} {tenantId keyId : String} {g : ApiKeyRecord → ApiKeyRecord}

theorem mem_update (h : record ∈ (t.update tenantId keyId g).rows) :
    record ∈ t.rows ∨ ∃ r ∈ t.rows, r.key = scopedKey tenantId keyId ∧ record = g r := by
  unfold ApiKeyTable.update at h
  cases hr : t.get (scopedKey tenantId keyId) with
  | none =>
    rw [hr] at h
    exact Or.inl h
  | some r =>
    rw [hr] at h
    obtain ⟨hmem,hkey⟩ := Records.get_eq_some_iff.mp hr
    rcases Records.mem_set.mp h with rfl | ⟨hold,-⟩
    · exact Or.inr ⟨r,hmem,hkey,rfl⟩
    · exact Or.inl hold

theorem isSome_set {r : ApiKeyRecord} {k : String} (h : (t.get k).isSome = true) : ((t.set r).get k).isSome = true := by
  rw [Records.get_set]
  split
  · rfl
  · exact h

theorem isSome_update {k : String} (h : (t.get k).isSome = true) : ((t.update tenantId keyId g).get k).isSome = true := by
  unfold ApiKeyTable.update
  cases t.get (scopedKey tenantId keyId) with
  | none => exact h
  | some r => exact isSome_set h

theorem isSome_perform (op : ApiKeyStoreOp) {k : String} (h : (t.get k).isSome = true) :
    ((t.perform op).2.get k).isSome = true := by
  cases op with
  | create record => exact isSome_set h
  | findByKeyId tenantId keyId => exact h
  | markUsed tenantId keyId now => exact isSome_update h
  | replaceHash tenantId keyId secretHash pepperVersion => exact isSome_update h
  | revoke tenantId keyId now => exact isSome_update h
  | listByUser tenantId userId => exact h

theorem isSome_answer (op : ApiKeyOp) {w : ApiKeyWorld} {k : String} (h : (w.keys.get k).isSome = true) :
    ((env.answer op w).2.get k).isSome = true := by
  cases op with
  | store op => exact isSome_perform op h
  | now => exact h
  | randomBytes bytes => exact h
  | resolveUser tenantId userId => exact h

end Tables

theorem stored_answer (hinj : ∀ key, Function.Injective (hmac key)) (hx : (keyIdTaking hmac env pepper).Exclusive s)
    (h : ∀ record ∈ s.world.keys.rows, Held hmac pepper s record) {call : ApiKeyCall} {past : List ApiKeyAnswered}
    {op : ApiKeyOp} (hlooked : Looked hmac pepper s past) (hrests : RestsOn hmac pepper call past op) :
    ∀ record ∈ (env.answer op s.world).2.rows, Held hmac pepper s record ∨ op = .store (.create record) := by
  have hupdate : ∀ {tenantId keyId : String} {g : ApiKeyRecord → ApiKeyRecord},
      (∀ r, r.key = scopedKey tenantId keyId → Held hmac pepper s r → Held hmac pepper s (g r)) →
      ∀ record ∈ (s.world.keys.update tenantId keyId g).rows, Held hmac pepper s record := by
    intro tenantId keyId g hheld record hin
    rcases mem_update hin with hold | ⟨r,hr,hkey,rfl⟩
    · exact h record hold
    · exact hheld r hkey (h r hr)
  intro record hin
  cases op with
  | now => exact Or.inl (h record hin)
  | randomBytes bytes => exact Or.inl (h record hin)
  | resolveUser tenantId userId => exact Or.inl (h record hin)
  | store op =>
    cases op with
    | create record' =>
      rcases Records.mem_set.mp hin with rfl | ⟨hold,-⟩
      · exact Or.inr rfl
      · exact Or.inl (h record hold)
    | findByKeyId tenantId keyId => exact Or.inl (h record hin)
    | listByUser tenantId userId => exact Or.inl (h record hin)
    | markUsed tenantId keyId now =>
      left
      refine hupdate ?_ record hin
      rintro r - ⟨minted,secret,hminted,hsame,hhash⟩
      exact ⟨minted,secret,hminted,hsame.change _ _ _ _,hhash⟩
    | revoke tenantId keyId now =>
      left
      refine hupdate ?_ record hin
      rintro r - ⟨minted,secret,hminted,hsame,hhash⟩
      exact ⟨minted,secret,hminted,hsame.change _ _ _ _,hhash⟩
    | replaceHash tenantId keyId secretHash pepperVersion =>
      left
      refine hupdate ?_ record hin
      rintro r hkey ⟨minted,secret,hminted,hsame,hhash⟩
      obtain ⟨tenantId',looked,found,secret',hfound,hid,hold,hnew⟩ := hrests
      obtain ⟨⟨minted',secret'',hminted',hsame',hhash'⟩,-⟩ := hlooked tenantId' looked found hfound
      -- the record that was looked up and the one that is written are of one key
      have hminted_id : minted.record.keyId = r.keyId := by rw [hsame]
      have hminted_id' : minted'.record.keyId = found.keyId := by rw [hsame']
      have hids : r.keyId = keyId := by
        refine (separated_inj ?_ ?_ hkey).2
        · rw [← hminted_id]
          exact hminted.keyId_nulFree
        · rw [← hid,← hminted_id']
          exact hminted'.keyId_nulFree
      obtain ⟨rfl,rfl⟩ := hminted.unique hx hminted' (by rw [hminted_id,hids,hminted_id',hid])
      have hsecret : secret' = secret := hmacSha256_injective hinj _ (hold.symm.trans hhash')
      refine ⟨minted,secret,hminted,hsame.change _ _ _ _,?_⟩
      rw [hnew,hsecret]

theorem Faithful.step (hinj : ∀ key, Function.Injective (hmac key)) (hx : (keyIdTaking hmac env pepper).Exclusive s)
    {ends : ℕ → ApiKeyCall → List ApiKeyAnswered → Except ApiKeyServiceError ApiKeyAnswer → ApiKeyWorld → Prop}
    (hkept : (apiKeyDiscipline hmac env pepper).Kept ends s) (hallow : Rotates env pepper s turn)
    (hs : (apiKeyService env hmac).step s turn = some s') (h : Faithful hmac pepper s) : Faithful hmac pepper s' := by
  rcases Service.step_cases hs with ⟨i,call,rfl,hfree,rfl⟩ | ⟨i,f,rfl,hf,rfl⟩ | ⟨e,-⟩
  · constructor
    · intro record hin
      rw [Pool.place_world] at hin
      exact (h.stored record hin).mono hs
    · rintro minted secret ⟨call',past,hwas,hby⟩
      rw [Pool.place_world]
      rcases Pool.was_place hwas with ⟨-,rfl⟩ | hold
      · obtain ⟨_,_,_,-,-,hdrawn⟩ := hby.drawn
        cases List.suffix_nil.mp hdrawn
      · exact h.kept minted secret ⟨call',past,hold,hby⟩
    · intro call' past hwas tenantId keyId record hin
      rcases Pool.was_place hwas with ⟨-,rfl⟩ | hold
      · cases hin
      · obtain ⟨hheld,hkey⟩ := h.looked call' past hold tenantId keyId record hin
        exact ⟨hheld.mono hs,hkey⟩
  · have hrests := (hkept.asks hf (hallow i f rfl hf)).1
    have hwasf : s.Was f.call f.past := Or.inl ⟨i,f,hf,rfl,rfl⟩
    obtain ⟨call,past,op,next⟩ := f
    constructor
    · intro record hin
      rw [Service.resumed_world] at hin
      rcases stored_answer hinj hx h.stored (h.looked _ _ hwasf) hrests record hin with hheld | rfl
      · exact hheld.mono hs
      · obtain ⟨key,secret,hby⟩ := hrests
        exact ⟨⟨key,record⟩,secret,⟨call,_,Pool.place_was,hby⟩,rfl,hby.hash⟩
    · rintro minted secret ⟨call',past',hwas,hby⟩
      rw [Service.resumed_world]
      -- the record was stored before, or this turn stores it
      rcases Pool.was_place hwas with ⟨rfl,rfl⟩ | hold
      · obtain ⟨id,buffer,createdAt,hid,hsecret,hdrawn⟩ := hby.drawn
        rcases List.suffix_cons_iff.mp hdrawn with he | hdrawn'
        · obtain ⟨hop,-⟩ := Answered.mk.inj (List.cons.inj he).1
          subst hop
          change ((s.world.keys.set minted.record).get minted.record.key).isSome = true
          rw [Records.get_set,if_pos rfl]
          rfl
        · exact isSome_answer op (h.kept minted secret ⟨call',past,hwasf,⟨id,buffer,createdAt,hid,hsecret,hdrawn'⟩,
            hby.tenant,hby.hash,hby.key⟩)
      · exact isSome_answer op (h.kept minted secret ⟨call',past',hold,hby⟩)
    · intro call' past' hwas tenantId keyId record hin
      rcases Pool.was_place hwas with ⟨rfl,rfl⟩ | hold
      · rcases List.mem_cons.mp hin with he | hin'
        · obtain ⟨hop,hreply⟩ := Answered.mk.inj he
          subst hop
          have hget : some record = s.world.keys.get (scopedKey tenantId keyId) := eq_of_heq hreply
          obtain ⟨hmem,hkey⟩ := Records.get_eq_some_iff.mp hget.symm
          exact ⟨(h.stored record hmem).mono hs,hkey⟩
        · obtain ⟨hheld,hkey⟩ := h.looked call' past hwasf tenantId keyId record hin'
          exact ⟨hheld.mono hs,hkey⟩
      · obtain ⟨hheld,hkey⟩ := h.looked call' past' hold tenantId keyId record hin
        exact ⟨hheld.mono hs,hkey⟩
  · exact e.elim

theorem faithful_start (w : ApiKeyWorld) (h : w.keys = .empty) : Faithful hmac pepper (.start w) := by
  have hnone : ∀ call past, ¬ (Pool.start w : ApiKeyPool).Was call past := by
    rintro call past (⟨i,f,hf,-⟩ | ⟨e,he,-⟩)
    · cases hf
    · cases he
  constructor
  · intro record hin
    change record ∈ w.keys.rows at hin
    rw [h] at hin
    cases hin
  · rintro minted secret ⟨call,past,hwas,-⟩
    exact absurd hwas (hnone call past)
  · intro call past hwas
    exact absurd hwas (hnone call past)

theorem faithful_run (hinj : ∀ key, Function.Injective (hmac key))
    (hr : ((apiKeyService env hmac).system newApiKeyWorld).Reaches (Rotates env pepper) s) :
    (keyIdTaking hmac env pepper).Exclusive s ∧ Faithful hmac pepper s := by
  have hallow : ∀ s turn, Rotates env pepper s turn → (apiKeyDiscipline hmac env pepper).Given s turn := fun _ _ h => h
  refine (Discipline.Kept.leads apiKeys_settle hallow
    (J := fun s => (keyIdTaking hmac env pepper).Exclusive s ∧ Faithful hmac pepper s) ?_ hr
    (Discipline.kept_start trivial) ⟨Discipline.Taking.exclusive_start _,faithful_start _ rfl⟩).2
  rintro a turn b hkept hl hstep ⟨hx,hfaithful⟩
  exact ⟨hx.step hkept (hallow a turn hl) hstep,hfaithful.step hinj hx hkept hl hstep⟩

theorem MintedBy.parse {call : ApiKeyCall} {past : List ApiKeyAnswered} (h : MintedBy hmac pepper call past minted secret) :
    parseKey minted.key = .ok ⟨minted.record.keyId,.ofInt minted.record.pepperVersion.number,secret⟩ := by
  obtain ⟨id,buffer,-,hid,hsecret,-⟩ := h.drawn
  have hidKind := hexText_kind id.1
  have hsecretKind := hexText_kind buffer.1
  rw [h.key,hid,hsecret]
  apply parseKey_keyText
  · exact hidKind.1
  · exact hsecretKind.1
  · rw [hidKind.2.2,id.2]
    decide
  · rw [hsecretKind.2.2,buffer.2]
    decide

theorem Held.of_key {tenantId keyId : String} (hx : (keyIdTaking hmac env pepper).Exclusive s)
    (h : Held hmac pepper s record) (hkey : record.key = scopedKey tenantId keyId)
    (hminted : MintedIn hmac pepper s minted secret) (hid : keyId = minted.record.keyId) :
    SameKey minted.record record ∧ record.secretHash = hmacSha256 hmac (pepper record.pepperVersion) secret ∧
      tenantId = minted.record.tenantId := by
  obtain ⟨minted',secret',hminted',hsame,hhash⟩ := h
  have hrecord : record.keyId = minted'.record.keyId := by rw [hsame]
  obtain ⟨htenant,hids⟩ := separated_inj (by
    rw [hrecord]
    exact hminted'.keyId_nulFree) (by
    rw [hid]
    exact hminted.keyId_nulFree) hkey
  obtain ⟨rfl,rfl⟩ := hminted'.unique hx hminted (by rw [← hrecord,hids,hid])
  refine ⟨hsame,hhash,?_⟩
  rw [← htenant,hsame]

end Stored

section Verification
variable (hmac : List UInt8 → List UInt8 → List UInt8) (pepper : PepperVersion → String)

/-- What holds of the keys of a run, whatever was rotated meanwhile. -/
structure KeysSurvive (s : ApiKeyPool) : Prop where
  stored : ∀ record ∈ s.world.keys.rows, Held hmac pepper s record
  kept : ∀ minted secret, MintedIn hmac pepper s minted secret → ∃ record,
    s.world.keys.get minted.record.key = some record ∧ SameKey minted.record record ∧
      record.secretHash = hmacSha256 hmac (pepper record.pepperVersion) secret
  answers : ∀ e ∈ s.ended, ∀ minted, e.answer = .ok (.minted minted) → ∃ secret, MintedIn hmac pepper s minted secret
  parses : ∀ minted secret, MintedIn hmac pepper s minted secret →
    parseKey minted.key = .ok ⟨minted.record.keyId,.ofInt minted.record.pepperVersion.number,secret⟩
  /-- A key with the secret verifies, unless its record was revoked or expired, or its user does not stand. -/
  accepts : ∀ minted secret, MintedIn hmac pepper s minted secret → ∀ e ∈ s.ended, ∀ rawKey parsed record,
    e.call.request = .verify rawKey → parseKey rawKey = .ok parsed → parsed.keyId = minted.record.keyId →
    parsed.secret = secret → FoundStanding e.call e.past parsed.keyId record →
    e.answer = .ok (.standing (standingOf minted.record.tenantId minted.record))
  /-- A key that verifies has the tenant, the id and the secret it was minted with. -/
  refuses : ∀ minted secret, MintedIn hmac pepper s minted secret → ∀ e ∈ s.ended, ∀ rawKey parsed standing,
    e.call.request = .verify rawKey → parseKey rawKey = .ok parsed → parsed.keyId = minted.record.keyId →
    e.answer = .ok (.standing standing) → parsed.secret = secret ∧ e.call.tenantId = minted.record.tenantId ∧
      standing = standingOf minted.record.tenantId minted.record

variable {hmac env pepper} {s : ApiKeyPool}

theorem standingOf_sameKey {a r : ApiKeyRecord} (h : SameKey a r) (tenantId : String) :
    standingOf tenantId r = standingOf tenantId a := by
  rw [h]
  rfl

theorem keys_survive_rotation {env : ApiKeyEnvironment} (hinj : ∀ key, Function.Injective (hmac key))
    (hr : ((apiKeyService env hmac).system newApiKeyWorld).Reaches (Rotates env pepper) s) : KeysSurvive hmac pepper s := by
  obtain ⟨hx,h⟩ := faithful_run hinj hr
  have hsettled : ∀ e ∈ s.ended, ∃ (i : ℕ) (w : ApiKeyWorld), Settled hmac pepper e.call e.past e.answer :=
    apiKeys_settle.ended (fun _ _ h => h) trivial hr
  have hwas : ∀ e ∈ s.ended, s.Was e.call e.past := fun e he => Or.inr ⟨e,he,rfl,rfl⟩
  constructor
  · exact h.stored
  · intro minted secret hminted
    obtain ⟨record,hget⟩ := Option.isSome_iff_exists.mp (h.kept minted secret hminted)
    obtain ⟨hmem,hkey⟩ := Records.get_eq_some_iff.mp hget
    obtain ⟨hsame,hhash,-⟩ := (h.stored record hmem).of_key hx hkey hminted rfl
    exact ⟨record,hget,hsame,hhash⟩
  · intro e he minted hanswer
    obtain ⟨-,-,hs⟩ := hsettled e he
    obtain ⟨secret,hby⟩ := hs.minted minted hanswer
    exact ⟨secret,e.call,e.past,hwas e he,hby⟩
  · rintro minted secret ⟨call,past,-,hby⟩
    exact hby.parse
  · intro minted secret hminted e he rawKey parsed record hrequest hparse hid hsecret hstanding
    obtain ⟨-,-,hs⟩ := hsettled e he
    obtain ⟨hheld,hkey⟩ := h.looked _ _ (hwas e he) _ _ record hstanding.found
    obtain ⟨hsame,hhash,htenant⟩ := hheld.of_key hx hkey hminted hid
    rw [hs.accepts rawKey parsed record hrequest hparse hstanding (by rw [hhash,hsecret]),htenant,
      standingOf_sameKey hsame]
  · intro minted secret hminted e he rawKey parsed standing hrequest hparse hid hanswer
    obtain ⟨-,-,hs⟩ := hsettled e he
    obtain ⟨parsed',record,hparse',hfound,hsecret,rfl⟩ := hs.accepted rawKey standing hrequest hanswer
    cases hparse.symm.trans hparse'
    obtain ⟨hheld,hkey⟩ := h.looked _ _ (hwas e he) _ _ record hfound
    obtain ⟨hsame,hhash,htenant⟩ := hheld.of_key hx hkey hminted hid
    refine ⟨?_,htenant,?_⟩
    · exact hmacSha256_injective hinj _ (hsecret.symm.trans hhash)
    · rw [htenant,standingOf_sameKey hsame]

end Verification
section OtherText

def plainHmac (_ message : List UInt8) : List UInt8 := message

def plainEnvironment : ApiKeyEnvironment where
  now _ := 1000
  randomBytes _ bytes := ⟨List.replicate bytes 0,List.length_replicate⟩
  resolveUser _ _ _ := .ok true

def firstVersion : PepperVersion := ⟨1,by decide,lt_of_lt_of_le (by decide) le_numberLimit⟩

def secondVersion : PepperVersion := ⟨2,by decide,lt_of_lt_of_le (by decide) le_numberLimit⟩

def plainPepper (version : PepperVersion) : String := if version = firstVersion then "pepper" else "second pepper"

def plainOptions : MakeApiKeysOptions := ⟨⟨⟨firstVersion,"pepper"⟩,[]⟩,false⟩

/-- An instance that has the second pepper for its own. -/
def rotatedOptions : MakeApiKeysOptions := ⟨⟨⟨secondVersion,"second pepper"⟩,[⟨firstVersion,"pepper"⟩]⟩,false⟩

def mintCall : ApiKeyCall := ⟨plainOptions,"acme",.mint ⟨"user",none,["read"],none,none⟩⟩

def mintedKey : MintedApiKey :=
  let keyId := hexText (List.replicate keyIdBytes 0)
  let secret := hexText (List.replicate secretBytes 0)
  ⟨keyText keyId firstVersion secret,
    { tenantId := "acme", keyId, userId := "user", name := none, scopes := ["read"]
      secretHash := hmacSha256 plainHmac "pepper" secret, pepperVersion := firstVersion, workspaceId := none
      expiresAt := none, createdAt := 1000, lastUsedAt := none, revokedAt := none }⟩

/-- The key with its version written another way. -/
def otherText : String :=
  "sk" ++ "_" ++ mintedKey.record.keyId ++ "_" ++ "01" ++ "_" ++ hexText (List.replicate secretBytes 0)

def otherTurns : List (Turn ApiKeyCall Empty) :=
  [.arrive 0 mintCall,.resume 0,.resume 0,.resume 0,.resume 0,
    .arrive 0 ⟨plainOptions,"acme",.verify otherText⟩,.resume 0,.resume 0,.resume 0]

def rawKeyOf : ApiKeyRequest → Option String
  | .verify rawKey => some rawKey
  | _ => none

/-- A turn that meets what rotation promises, as far as it can be computed. -/
def plainTurn (s : ApiKeyPool) : Turn ApiKeyCall Empty → Bool
  | .resume i => (s.fibers i).all fun f =>
    f.call.options.peppers.all.all (fun entry => entry.pepper = plainPepper entry.version) &&
    (s.world.keys.rows.all fun record => record.pepperVersion ∈ f.call.options.peppers.all.map Pepper.version) &&
    ((drawnKeyId ⟨f.op,(plainEnvironment.handle f.op s.world).1⟩).isNone ||
      s.world.history.all fun a => (drawnKeyId a).isNone)
  | _ => true

theorem rotates_of_plainTurn {s : ApiKeyPool} {turn : Turn ApiKeyCall Empty} (h : plainTurn s turn = true) :
    Rotates plainEnvironment plainPepper s turn := by
  rintro i f rfl hf
  simp only [plainTurn,hf,Option.all_some,Bool.and_eq_true,List.all_eq_true,decide_eq_true_eq,Bool.or_eq_true] at h
  obtain ⟨⟨hconsistent,hcovers⟩,hfresh⟩ := h
  constructor
  · exact hconsistent
  · intro record hin _
    obtain ⟨entry,hentry,he⟩ := List.mem_map.mp (hcovers record hin)
    exact ⟨entry,hentry,he⟩
  · intro hop hin
    obtain ⟨t,ht⟩ : ∃ t, drawnKeyId ⟨f.op,(plainEnvironment.handle f.op s.world).1⟩ = some t := by
      generalize (plainEnvironment.handle f.op s.world).1 = reply
      obtain ⟨call,past,op,next⟩ := f
      dsimp only at hop reply ⊢
      subst hop
      exact ⟨reply.1,drawnKeyId_eq_some.mpr ⟨reply,rfl,rfl⟩⟩
    rcases hfresh with hnone | hall
    · rw [ht] at hnone
      cases hnone
    · have hnone := hall _ hin
      rw [ht] at hnone
      cases hnone

theorem otherTurns_run : ((((apiKeyService plainEnvironment plainHmac).system newApiKeyWorld).guard plainTurn).run
    otherTurns).map (fun s => s.ended.map fun e => (rawKeyOf e.call.request,e.answer)) =
      some [(some otherText,.ok (.standing (standingOf "acme" mintedKey.record))),(none,.ok (.minted mintedKey))] := by
  decide +kernel

def resumedTurns (i n : ℕ) : List (Turn ApiKeyCall Empty) := List.replicate n (.resume i)

def rotatedCall : ApiKeyCall := ⟨rotatedOptions,"acme",.verify mintedKey.key⟩

/-- An instance mints a key, and two calls of one that has rotated its peppers verify it. Both read the old hash. -/
def rotatedTurns : List (Turn ApiKeyCall Empty) :=
  .arrive 0 mintCall :: resumedTurns 0 4 ++ .arrive 1 rotatedCall :: resumedTurns 1 1 ++
    .arrive 2 rotatedCall :: resumedTurns 2 1 ++ resumedTurns 1 3 ++ resumedTurns 2 3

theorem rotatedTurns_run : ((((apiKeyService plainEnvironment plainHmac).system newApiKeyWorld).guard plainTurn).run
    rotatedTurns).map (fun s => (s.ended.map fun e => e.answer,s.world.keys.rows.map ApiKeyRecord.pepperVersion)) =
      some ([.ok (.standing (standingOf "acme" mintedKey.record)),.ok (.standing (standingOf "acme" mintedKey.record)),
        .ok (.minted mintedKey)],[secondVersion]) := by
  decide +kernel

theorem keys_survive_plain_turns : ∃ s, (((apiKeyService plainEnvironment plainHmac).system newApiKeyWorld).guard
    plainTurn).run rotatedTurns = some s ∧ s.world.keys.rows.map ApiKeyRecord.pepperVersion = [secondVersion] ∧
    KeysSurvive plainHmac plainPepper s := by
  obtain ⟨s,hrun,hends⟩ := Option.map_eq_some_iff.mp rotatedTurns_run
  exact ⟨s,hrun,(Prod.mk.inj hends).2,keys_survive_rotation (fun _ _ _ he => he)
    (System.guard_run_reaches (fun _ _ => rotates_of_plainTurn) hrun)⟩

/-- A key verifies with its version written another way. -/
theorem not_only_minted_text : ¬ ∀ (hmac : List UInt8 → List UInt8 → List UInt8) (env : ApiKeyEnvironment)
    (pepper : PepperVersion → String) (s : ApiKeyPool), (∀ key, Function.Injective (hmac key)) →
    ((apiKeyService env hmac).system newApiKeyWorld).Reaches (Rotates env pepper) s →
    ∀ minted secret, MintedIn hmac pepper s minted secret → ∀ e ∈ s.ended, ∀ rawKey parsed standing,
      e.call.request = .verify rawKey → parseKey rawKey = .ok parsed → parsed.keyId = minted.record.keyId →
      e.answer = .ok (.standing standing) → rawKey = minted.key := by
  intro h
  obtain ⟨s,hrun,hends⟩ := Option.map_eq_some_iff.mp otherTurns_run
  have hr := System.guard_run_reaches (fun _ _ => rotates_of_plainTurn) hrun
  obtain ⟨verified,rest,hended,hverified,hrest⟩ := List.map_eq_cons_iff.mp hends
  obtain ⟨mint,rest',hended',hmint,-⟩ := List.map_eq_cons_iff.mp hrest
  obtain ⟨hraw,hanswer⟩ := Prod.mk.inj hverified
  have hin : verified ∈ s.ended := by simp [hended]
  have hin' : mint ∈ s.ended := by simp [hended,hended']
  obtain ⟨i,w,hsettled⟩ := apiKeys_settle.ended (fun _ _ h => h) trivial hr mint hin'
  obtain ⟨secret,hby⟩ := hsettled.minted mintedKey (Prod.mk.inj hmint).2
  have hrequest : verified.call.request = .verify otherText := by
    cases hreq : verified.call.request with
    | verify rawKey =>
      rw [hreq] at hraw
      exact congrArg ApiKeyRequest.verify (Option.some.inj hraw)
    | mint input =>
      rw [hreq] at hraw
      cases hraw
    | revoke keyId =>
      rw [hreq] at hraw
      cases hraw
    | listByUser userId =>
      rw [hreq] at hraw
      cases hraw
  obtain ⟨parsed,hparse,hid⟩ : ∃ parsed, parseKey otherText = .ok parsed ∧ parsed.keyId = mintedKey.record.keyId := by
    have hsome : (parseKey otherText).toOption.map ParsedKey.keyId = some mintedKey.record.keyId := by decide +kernel
    cases hparse : parseKey otherText with
    | ok parsed =>
      rw [hparse] at hsome
      exact ⟨parsed,rfl,Option.some.inj hsome⟩
    | error error =>
      rw [hparse] at hsome
      cases hsome
  have hsame := h plainHmac plainEnvironment plainPepper s (fun _ _ _ he => he) hr mintedKey secret
    ⟨mint.call,mint.past,Or.inr ⟨mint,hin',rfl,rfl⟩,hby⟩ verified hin otherText parsed _ hrequest hparse hid hanswer
  have hne : otherText ≠ mintedKey.key := by decide +kernel
  exact hne hsame

end OtherText
end StructureAi.Identity

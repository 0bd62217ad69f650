import StructureAi.Auth.OAuthRules

/-! # What becomes of the tokens

Random tokens are drawn once. So every token of the store is one that a call of the server put under a
key of its own; it stays there, its names stay what they are, and all that happens to it is that it
is revoked.
-/
namespace StructureAi.Auth
open StructureAi.Foundation Program

section Draws

/-- Random tokens never repeat, and have no NUL character. -/
structure FreshTokens (env : Environment) : Prop where
  distinct : ∀ place n byteLength place' n' byteLength',
    env.randomToken place n byteLength = env.randomToken place' n' byteLength' → place = place' ∧ n = n'
  clean : ∀ place n byteLength, '\x00' ∉ (env.randomToken place n byteLength).toList

theorem drawOf_eq_some {a : OAuthAnswered} {token : String} :
    drawOf a = some token ↔ ∃ byteLength, a = ⟨.randomToken byteLength,token⟩ := by
  constructor
  · intro h
    unfold drawOf at h
    split at h
    · rename_i byteLength drawn
      exact ⟨byteLength,congrArg (Answered.mk (OAuthOp.randomToken byteLength)) (Option.some.inj h)⟩
    · cases h
  · rintro ⟨byteLength,rfl⟩
    rfl

variable {env : Environment}

def drawTaking (henv : FreshTokens env) (o : ServerOptions) :
    (looseDiscipline (oauthService OAuthStore.perform env o) fun _ _ => True).Taking String where
  takes _ a := drawOf a
  spent token w := ∃ place n byteLength, n < w.draws place ∧ token = env.randomToken place n byteLength
  fresh := by
    intro i call past op w token _ _ _ ht
    obtain ⟨byteLength,ha⟩ := drawOf_eq_some.mp ht
    obtain rfl : op = .randomToken byteLength := congrArg Answered.op ha
    have hsame : env.randomToken i (w.draws i) byteLength = token := by
      have hreply := eq_of_heq (Answered.mk.inj ha).2
      exact hreply
    subst hsame
    constructor
    · rintro ⟨place,n,byteLength',hn,hsame⟩
      obtain ⟨rfl,rfl⟩ := henv.distinct _ _ _ _ _ _ hsame
      exact lt_irrefl _ hn
    · refine ⟨i,w.draws i,byteLength,?_,rfl⟩
      change w.draws i < Function.update w.draws i (w.draws i + 1) i
      rw [Function.update_self]
      exact Nat.lt_succ_self _
  lasts := by
    rintro i call past op w token _ _ _ ⟨place,n,byteLength,hn,rfl⟩
    refine ⟨place,n,byteLength,?_,rfl⟩
    cases op with
    | randomToken byteLength' =>
      change n < Function.update w.draws i (w.draws i + 1) place
      by_cases hplace : place = i
      · subst hplace
        rw [Function.update_self]
        exact Nat.lt_succ_of_lt hn
      · rw [Function.update_of_ne hplace]
        exact hn
    | _ => exact hn
  outside := fun _ _ _ _ h => h

variable {henv : FreshTokens env} {o : ServerOptions} {s : OAuthPool} {call call' : Call} {past past' : List OAuthAnswered}

theorem drawn_clean (h : Apart (drawTaking henv o) s) (hw : s.Was call past) {token : String} (ht : token ∈ drawn past) :
    '\x00' ∉ token.toList := by
  obtain ⟨place,n,byteLength,-,rfl⟩ := h.exclusive.spent call past hw token ht
  exact henv.clean _ _ _

theorem drawn_same (h : Apart (drawTaking henv o) s) (hw : s.Was call past) (hw' : s.Was call' past') {token : String}
    (ht : token ∈ drawn past) (ht' : token ∈ drawn past') : call = call' ∧ past = past' := h.exclusive.same hw hw' ht ht'

end Draws

section Minted
variable {o : ServerOptions} {call : Call} {past : List OAuthAnswered}

theorem putOf_eq_some {op : OAuthOp} {token : OAuthTokenRecord} : putOf op = some token ↔ op = .store (.putToken token) := by
  constructor
  · intro h
    unfold putOf at h
    split at h
    · cases h
      rfl
    · cases h
  · rintro rfl
    rfl

theorem minted_asked (h : Lawful (Rests o call) past) {token : OAuthTokenRecord} (hin : token ∈ minted past) :
    ∃ earlier, earlier <:+ past ∧ Mints o call earlier token ∧ Minting o earlier token := by
  obtain ⟨a,ha,hput⟩ := List.mem_filterMap.mp hin
  obtain ⟨earlier,hs,hrests⟩ := h.asked ha
  rw [putOf_eq_some.mp hput] at hrests
  exact ⟨earlier,(List.suffix_cons _ _).trans hs,hrests⟩

theorem minted_drawn (h : Lawful (Rests o call) past) {token : OAuthTokenRecord} (hin : token ∈ minted past) :
    token.tokenId ∈ drawn past := by
  obtain ⟨earlier,hs,-,hminting⟩ := minted_asked h hin
  obtain ⟨before,hdrawn,-⟩ := hminting.id
  apply (drawn_mono hs).subset
  rw [hdrawn]
  exact List.mem_cons_self

theorem minted_shape (h : Lawful (Rests o call) past) : minted past = [] ∨
    (∃ access, minted past = [access] ∧ access.kind = .access) ∨
    ∃ fresh access, minted past = [fresh,access] ∧ fresh.kind = .refresh ∧ access.kind = .access := by
  induction past with
  | nil => exact Or.inl rfl
  | cons a past ih =>
    unfold minted
    rw [List.filterMap_cons]
    cases hput : putOf a.op with
    | none => exact ih h.2
    | some token =>
      have hrests := h.1
      rw [putOf_eq_some.mp hput] at hrests
      cases hkind : token.kind with
      | access =>
        have hnone := (hrests.2.access hkind).1
        exact Or.inr (Or.inl ⟨token,congrArg (List.cons token) hnone,hkind⟩)
      | refresh =>
        obtain ⟨access,hone,haccess⟩ := (hrests.2.refresh hkind).1
        exact Or.inr (Or.inr ⟨token,access,congrArg (List.cons token) hone,hkind,haccess⟩)

theorem minted_fresh (h : Lawful (Rests o call) past) {fresh fresh' : OAuthTokenRecord} (hin : fresh ∈ minted past)
    (hin' : fresh' ∈ minted past) (hkind : fresh.kind = .refresh) (hkind' : fresh'.kind = .refresh) : fresh = fresh' := by
  have hne : ∀ {token : OAuthTokenRecord}, token.kind = .access → token.kind ≠ .refresh := by
    intro token haccess hrefresh
    rw [haccess] at hrefresh
    cases hrefresh
  rcases minted_shape h with hnone | ⟨access,hone,haccess⟩ | ⟨token,access,htwo,-,haccess⟩
  · rw [hnone] at hin
    cases hin
  · rw [hone,List.mem_singleton] at hin
    exact absurd (hin ▸ hkind) (hne haccess)
  · have hself : ∀ {other : OAuthTokenRecord}, other ∈ minted past → other.kind = .refresh → other = token := by
      intro other hother hrefresh
      rw [htwo] at hother
      rcases List.mem_pair.mp hother with rfl | rfl
      · rfl
      · exact absurd hrefresh (hne haccess)
    rw [hself hin hkind,hself hin' hkind']

theorem lookup_once (h : Lawful (Rests o call) past) {a b : OAuthAnswered} (ha : a ∈ lookups past) (hb : b ∈ lookups past) :
    a = b := by
  have hsole : ∀ {past : List OAuthAnswered}, Lawful (Rests o call) past → (lookups past).length ≤ 1 := by
    intro past h
    induction past with
    | nil => exact Nat.zero_le 1
    | cons a past ih =>
      unfold lookups
      by_cases hlookup : isLookup a.op = true
      · rw [List.filter_cons_of_pos (p := fun a : OAuthAnswered => isLookup a.op) hlookup]
        have hnone : lookups past = [] := by
          obtain ⟨op,reply⟩ := a
          have hrests := h.1
          unfold isLookup at hlookup
          dsimp only at hlookup hrests
          split at hlookup
          · exact hrests
          · cases hlookup
        exact Nat.le_of_eq (congrArg (fun l => List.length (a :: l)) hnone)
      · rw [List.filter_cons_of_neg (p := fun a : OAuthAnswered => isLookup a.op) hlookup]
        exact ih h.2
  have hone := hsole h
  cases hl : lookups past with
  | nil =>
    rw [hl] at ha
    cases ha
  | cons c rest =>
    rw [hl,List.length_cons] at hone
    obtain rfl : rest = [] := List.length_eq_zero_iff.mp (by omega)
    rw [hl,List.mem_singleton] at ha hb
    exact ha.trans hb.symm

theorem Presents.same (h : Lawful (Rests o call) past) {input input' : RefreshInput} {client client' : OAuthClientRecord}
    {record record' : OAuthTokenRecord} (hp : Presents o call past input client record)
    (hp' : Presents o call past input' client' record') : input = input' ∧ record = record' := by
  obtain rfl : input = input' := Call.refresh.inj (hp.call.symm.trans hp'.call)
  have hsame := lookup_once h (List.mem_filter.mpr ⟨hp.found,rfl⟩) (List.mem_filter.mpr ⟨hp'.found,rfl⟩)
  have hrecord : record = record' := by simpa using hsame
  exact ⟨rfl,hrecord⟩

end Minted

section Ageing

/-- What may become of a token. -/
structure Ages (old new : OAuthTokenRecord) : Prop where
  tenant : new.tenantId = old.tenantId
  id : new.tokenId = old.tokenId
  kind : new.kind = old.kind
  family : new.familyId = old.familyId
  hash : new.tokenHash = old.tokenHash
  revoked : old.revokedAt.isSome = true → new.revokedAt.isSome = true

variable {old new token kept : OAuthTokenRecord} {tokens : Records OAuthTokenRecord.key} {w : OAuthStore} {op : StoreOp}

theorem Ages.refl (token : OAuthTokenRecord) : Ages token token := ⟨rfl,rfl,rfl,rfl,rfl,fun h => h⟩

theorem Ages.trans (h : Ages old token) (h' : Ages token new) : Ages old new :=
  ⟨h'.tenant.trans h.tenant,h'.id.trans h.id,h'.kind.trans h.kind,h'.family.trans h.family,h'.hash.trans h.hash,
    h'.revoked ∘ h.revoked⟩

theorem Ages.key (h : Ages old new) : new.key = old.key := by
  unfold OAuthTokenRecord.key
  rw [h.tenant,h.id]

theorem ages_revoked (now : ℤ) (token : OAuthTokenRecord) : Ages token (OAuthStore.revoked now token) :=
  ⟨rfl,rfl,rfl,rfl,rfl,fun _ => rfl⟩

theorem ages_rotated (now : ℤ) (token : OAuthTokenRecord) :
    Ages token {OAuthStore.revoked now token with rotatedAt := some now} :=
  ⟨rfl,rfl,rfl,rfl,rfl,fun _ => rfl⟩

def Holds (tokens : Records OAuthTokenRecord.key) (token : OAuthTokenRecord) : Prop := ∃ kept ∈ tokens.rows, Ages token kept

def Gone (tokens : Records OAuthTokenRecord.key) (key : String) : Prop :=
  ∃ kept ∈ tokens.rows, kept.key = key ∧ kept.revokedAt.isSome = true

theorem Gone.revoked {key : String} (h : Gone tokens key) (hin : token ∈ tokens.rows) (hkey : token.key = key) :
    token.revokedAt.isSome = true := by
  obtain ⟨kept,hkept,hsame,hrevoked⟩ := h
  rwa [Records.eq_of_key hin hkept (hkey.trans hsame.symm)]

theorem Holds.ages (h : Holds tokens token) (hin : kept ∈ tokens.rows) (hkey : kept.key = token.key) : Ages token kept := by
  obtain ⟨other,hother,hages⟩ := h
  rwa [Records.eq_of_key hin hother (hkey.trans hages.key.symm)]

def Lands (op : StoreOp) (w : OAuthStore) (key : String) : Prop :=
  ∃ tenantId tokenId now, (⟨.store op,(OAuthStore.perform op w).1⟩ : OAuthAnswered) =
    stored (.rotateToken tenantId tokenId now) true ∧
    key = scopedKey tenantId tokenId

theorem tokens_stay (hfresh : ∀ put, op = .putToken put → ∀ kept ∈ w.tokens.rows, kept.key ≠ put.key)
    (hin : token ∈ w.tokens.rows) :
    Holds (OAuthStore.perform op w).2.tokens token := by
  have hset : ∀ {current changed : OAuthTokenRecord}, current ∈ w.tokens.rows → Ages current changed →
      Holds (w.tokens.set changed) token := by
    intro current changed hcurrent hages
    by_cases hkey : token.key = changed.key
    · obtain rfl := Records.eq_of_key hin hcurrent (hkey.trans hages.key)
      exact ⟨changed,Records.mem_set.mpr (Or.inl rfl),hages⟩
    · exact ⟨token,Records.mem_set.mpr (Or.inr ⟨hin,hkey⟩),Ages.refl token⟩
  cases op with
  | putToken put => exact ⟨token,Records.mem_set.mpr (Or.inr ⟨hin,hfresh put rfl token hin⟩),Ages.refl token⟩
  | revokeToken tenantId tokenId now =>
    unfold OAuthStore.perform
    dsimp only
    split
    · exact ⟨token,hin,Ages.refl token⟩
    · rename_i current hget
      exact hset (Records.get_eq_some_iff.mp hget).1 (ages_revoked now current)
  | rotateToken tenantId tokenId now =>
    unfold OAuthStore.perform
    dsimp only
    split
    · exact ⟨token,hin,Ages.refl token⟩
    · rename_i current hget
      split
      · exact ⟨token,hin,Ages.refl token⟩
      · exact hset (Records.get_eq_some_iff.mp hget).1 (ages_rotated now current)
  | revokeFamily tenantId familyId now =>
    refine ⟨if OAuthStore.sweeps tenantId familyId token then OAuthStore.revoked now token else token,
      List.mem_map.mpr ⟨token,hin,rfl⟩,?_⟩
    split
    · exact ages_revoked now token
    · exact Ages.refl token
  | consumeAuthorizationCode tenantId codeHash now =>
    unfold OAuthStore.perform
    dsimp only
    split
    · exact ⟨token,hin,Ages.refl token⟩
    · split <;> exact ⟨token,hin,Ages.refl token⟩
  | _ => exact ⟨token,hin,Ages.refl token⟩

/-- Every token was there before, or is put now; what is rotated was before, or is now. -/
theorem tokens_came (hin : kept ∈ (OAuthStore.perform op w).2.tokens.rows) : op = .putToken kept ∨
    ∃ token ∈ w.tokens.rows, Ages token kept ∧
      (kept.rotatedAt.isSome = true → token.rotatedAt.isSome = true ∨ Lands op w kept.key) := by
  have hold : kept ∈ w.tokens.rows → ∃ token ∈ w.tokens.rows, Ages token kept ∧
      (kept.rotatedAt.isSome = true → token.rotatedAt.isSome = true ∨ Lands op w kept.key) :=
    fun hin => ⟨kept,hin,Ages.refl kept,Or.inl⟩
  cases op with
  | putToken put =>
    rcases Records.mem_set.mp hin with rfl | ⟨hin,-⟩
    · exact Or.inl rfl
    · exact Or.inr (hold hin)
  | revokeToken tenantId tokenId now =>
    right
    unfold OAuthStore.perform at hin
    dsimp only at hin
    split at hin
    · exact hold hin
    · rename_i current hget
      rcases Records.mem_set.mp hin with rfl | ⟨hin,-⟩
      · exact ⟨current,(Records.get_eq_some_iff.mp hget).1,ages_revoked now current,Or.inl⟩
      · exact hold hin
  | rotateToken tenantId tokenId now =>
    right
    cases hget : w.tokens.get (scopedKey tenantId tokenId) with
    | none =>
      simp only [OAuthStore.perform,hget] at hin
      exact hold hin
    | some current =>
      obtain ⟨hcurrent,hkey⟩ := Records.get_eq_some_iff.mp hget
      by_cases hrevoked : current.revokedAt.isSome = true
      · simp only [OAuthStore.perform,hget,hrevoked,if_true] at hin
        exact hold hin
      · have hlands : Lands (.rotateToken tenantId tokenId now) w (scopedKey tenantId tokenId) := by
          refine ⟨tenantId,tokenId,now,?_,rfl⟩
          simp [OAuthStore.perform,hget,hrevoked]
        simp only [OAuthStore.perform,hget,hrevoked] at hin
        rcases Records.mem_set.mp hin with rfl | ⟨hin,-⟩
        · exact ⟨current,hcurrent,ages_rotated now current,fun _ => Or.inr (hkey ▸ hlands)⟩
        · exact hold hin
  | revokeFamily tenantId familyId now =>
    right
    obtain ⟨token,htoken,rfl⟩ := List.mem_map.mp hin
    refine ⟨token,htoken,?_⟩
    split
    · exact ⟨ages_revoked now token,Or.inl⟩
    · exact ⟨Ages.refl token,Or.inl⟩
  | consumeAuthorizationCode tenantId codeHash now =>
    right
    unfold OAuthStore.perform at hin
    dsimp only at hin
    split at hin
    · exact hold hin
    · split at hin <;> exact hold hin
  | _ => exact Or.inr (hold hin)

theorem lands_live {tenantId tokenId : String} {now : ℤ} (h : (OAuthStore.perform (.rotateToken tenantId tokenId now) w).1 =
    .ok true) :
    ¬ Gone w.tokens (scopedKey tenantId tokenId) ∧
      Gone (OAuthStore.perform (.rotateToken tenantId tokenId now) w).2.tokens (scopedKey tenantId tokenId) := by
  cases hget : w.tokens.get (scopedKey tenantId tokenId) with
  | none => simp [OAuthStore.perform,hget] at h
  | some current =>
    obtain ⟨hcurrent,hkey⟩ := Records.get_eq_some_iff.mp hget
    by_cases hrevoked : current.revokedAt.isSome = true
    · simp [OAuthStore.perform,hget,hrevoked] at h
    · constructor
      · intro hgone
        exact hrevoked (hgone.revoked hcurrent hkey)
      · refine ⟨{OAuthStore.revoked now current with rotatedAt := some now},?_,hkey,rfl⟩
        simp only [OAuthStore.perform,hget,hrevoked]
        exact Records.mem_set.mpr (Or.inl rfl)

theorem sweep_revoked {tenantId familyId : String} {now : ℤ}
    (hin : kept ∈ (OAuthStore.perform (.revokeFamily tenantId familyId now) w).2.tokens.rows)
      (htenant : kept.tenantId = tenantId)
    (hfamily : kept.familyId = some familyId) : kept.revokedAt.isSome = true := by
  obtain ⟨token,-,hkept⟩ := List.mem_map.mp hin
  split at hkept
  · subst hkept
    rfl
  · rename_i hnot
    subst hkept
    simp only [OAuthStore.sweeps,Bool.and_eq_true,decide_eq_true_eq,not_and] at hnot
    exact Option.isSome_iff_ne_none.mpr (hnot ⟨htenant,hfamily⟩)

end Ageing

section Stock
variable {env : Environment} {henv : FreshTokens env} {o : ServerOptions} {s s' : OAuthPool} {turn : Turn Call SigningKeys}
  {allow : OAuthPool → Turn Call SigningKeys → Prop} {keys : SigningKeys}

abbrev stock (s : OAuthPool) : Records OAuthTokenRecord.key := s.world.store.tokens

/-- A call has rotated the token under the key. -/
def Rotated (s : OAuthPool) (key : String) : Prop :=
  ∃ call past, s.Was call past ∧ ∃ tenantId tokenId now, stored (.rotateToken tenantId tokenId now) true ∈ past ∧
    key = scopedKey tenantId tokenId

/-- What a call was answered of a token is true of it still. -/
def Seen (s : OAuthPool) : OAuthAnswered → Prop
  | ⟨.store (.findTokenByHash tenantId tokenHash),.ok (some record)⟩ => Holds (stock s) record ∧
    (record.tenantId = tenantId ∧ record.tokenHash = some tokenHash) ∧ (record.rotatedAt.isSome = true → Rotated s record.key)
  | ⟨.store (.findTokenById tenantId tokenId),.ok (some record)⟩ => Holds (stock s) record ∧
      record.key = scopedKey tenantId tokenId ∧
    (record.rotatedAt.isSome = true → Rotated s record.key)
  | ⟨.store (.rotateToken tenantId tokenId _),.ok true⟩ => Gone (stock s) (scopedKey tenantId tokenId)
  | _ => True

/-- The store never fails; it has the tokens that the calls put, and no others. -/
structure Stocked (s : OAuthPool) : Prop where
  works : ∀ call past, s.Was call past → failed past = false
  holds : ∀ call past, s.Was call past → ∀ token ∈ minted past, Holds (stock s) token
  came : ∀ kept ∈ (stock s).rows, ∃ call past, s.Was call past ∧ ∃ token ∈ minted past, Ages token kept
  rotated : ∀ kept ∈ (stock s).rows, kept.rotatedAt.isSome = true → Rotated s kept.key
  seen : ∀ call past, s.Was call past → ∀ a ∈ past, Seen s a

theorem Stocked.put_new (h : Stocked s) (hdraws : Apart (drawTaking henv o) s) (haccounted : Accounted o s) {i : ℕ}
    {f : Running OAuthOp OAuthOp.Reply Call (Except AuthError Answer)} (hf : s.fibers i = some f) {token : OAuthTokenRecord}
    (hop : f.op = .store (.putToken token)) : ∀ kept ∈ (stock s).rows, kept.key ≠ token.key := by
  intro kept hkept hkey
  have hself : s.Was f.call f.past := Or.inl ⟨i,f,hf,rfl,rfl⟩
  obtain ⟨call,past,hwas,put,hput,hages⟩ := h.came kept hkept
  have hrests := haccounted.ruled.asks hf
  rw [hop] at hrests
  obtain ⟨earlier,hdrawn,hothers⟩ := hrests.2.id
  have htoken : token.tokenId ∈ drawn f.past := by
    rw [hdrawn]
    exact List.mem_cons_self
  have hother : put.tokenId ∈ drawn past := minted_drawn (haccounted.ruled.lawful call past hwas) hput
  have hid : put.tokenId = token.tokenId :=
    (separated_inj (drawn_clean hdraws hwas hother) (drawn_clean hdraws hself htoken) (hages.key.symm.trans hkey)).2
  obtain ⟨rfl,rfl⟩ := drawn_same hdraws hwas hself (hid ▸ hother) htoken
  have hnodup : (drawn f.past).Nodup := hdraws.once _ _ hself
  rw [hdrawn] at hnodup
  exact (List.nodup_cons.mp hnodup).1 (hid ▸ hothers put hput)

theorem handle_store (place : ℕ) (call : Call) {op : OAuthOp} (h : ∀ op', op ≠ .store op') (w : World OAuthStore) :
    (World.handle OAuthStore.perform env place call op w).2.store = w.store := by
  cases op with
  | store op' => exact absurd rfl (h op')
  | _ => rfl

theorem stock_stays (hnew : ∀ i f token, s.fibers i = some f → f.op = .store (.putToken token) →
    ∀ kept ∈ (stock s).rows, kept.key ≠ token.key)
    (hs : (oauthService OAuthStore.perform env o).step s turn = some s') {token : OAuthTokenRecord}
      (hin : token ∈ (stock s).rows) :
    Holds (stock s') token := by
  rcases Service.step_cases hs with ⟨i,call,rfl,-,rfl⟩ | ⟨i,f,rfl,hf,rfl⟩ | ⟨keys,rfl,rfl⟩
  · rw [stock,Pool.place_world]
    exact ⟨token,hin,Ages.refl token⟩
  · rw [stock,Service.resumed_world]
    change Holds (World.handle OAuthStore.perform env i f.call f.op s.world).2.store.tokens token
    by_cases hstore : ∃ op, f.op = .store op
    · obtain ⟨op,hop⟩ := hstore
      rw [hop]
      apply tokens_stay _ hin
      rintro put rfl
      exact hnew i f put hf hop
    · push Not at hstore
      rw [handle_store i f.call hstore]
      exact ⟨token,hin,Ages.refl token⟩
  · exact ⟨token,hin,Ages.refl token⟩

theorem stock_came (hs : (oauthService OAuthStore.perform env o).step s turn = some s') {kept : OAuthTokenRecord}
    (hin : kept ∈ (stock s').rows) : (∃ i f, turn = .resume i ∧ s.fibers i = some f ∧ f.op = .store (.putToken kept)) ∨
      ∃ token ∈ (stock s).rows, Ages token kept ∧
        (kept.rotatedAt.isSome = true → token.rotatedAt.isSome = true ∨ Rotated s' kept.key) := by
  have hold : kept ∈ (stock s).rows → ∃ token ∈ (stock s).rows, Ages token kept ∧
      (kept.rotatedAt.isSome = true → token.rotatedAt.isSome = true ∨ Rotated s' kept.key) :=
    fun hin => ⟨kept,hin,Ages.refl kept,Or.inl⟩
  rcases Service.step_cases hs with ⟨i,call,rfl,-,rfl⟩ | ⟨i,f,rfl,hf,rfl⟩ | ⟨keys,rfl,rfl⟩
  · rw [stock,Pool.place_world] at hin
    exact Or.inr (hold hin)
  · have hworld : stock (Service.resumed (oauthService OAuthStore.perform env o) s i f) =
        (World.handle OAuthStore.perform env i f.call f.op s.world).2.store.tokens := by
      rw [stock,Service.resumed_world]
      rfl
    rw [hworld] at hin
    by_cases hstore : ∃ op, f.op = .store op
    · obtain ⟨op,hop⟩ := hstore
      rw [hop] at hin
      rcases tokens_came hin with rfl | ⟨token,htoken,hages,hrotated⟩
      · exact Or.inl ⟨i,f,rfl,hf,hop⟩
      · refine Or.inr ⟨token,htoken,hages,fun h => (hrotated h).imp_right ?_⟩
        rintro ⟨tenantId,tokenId,now,hlanded,hkey⟩
        have hwas : (Service.resumed (oauthService OAuthStore.perform env o) s i f).Was f.call
            (⟨f.op,((oauthService OAuthStore.perform env o).handle i f.call f.op s.world).1⟩ :: f.past) := Pool.place_was
        refine ⟨f.call,_,hwas,tenantId,tokenId,now,?_,hkey⟩
        rw [← hlanded,hop]
        exact List.mem_cons_self
    · push Not at hstore
      rw [handle_store i f.call hstore] at hin
      exact Or.inr (hold hin)
  · exact Or.inr (hold hin)

theorem Rotated.step {key : String} (h : Rotated s key) (hs : (oauthService OAuthStore.perform env o).step s turn = some s') :
    Rotated s' key := by
  obtain ⟨call,past,hwas,tenantId,tokenId,now,hin,hkey⟩ := h
  obtain ⟨past',hwas',hsuffix⟩ := Service.was_mono hs hwas
  exact ⟨call,past',hwas',tenantId,tokenId,now,hsuffix.subset hin,hkey⟩

def Stays (s s' : OAuthPool) : Prop := ∀ token ∈ (stock s).rows, Holds (stock s') token

theorem Holds.step {token : OAuthTokenRecord} (h : Holds (stock s) token) (hstays : Stays s s') : Holds (stock s') token := by
  obtain ⟨kept,hkept,hages⟩ := h
  obtain ⟨later,hlater,hages'⟩ := hstays kept hkept
  exact ⟨later,hlater,hages.trans hages'⟩

theorem Gone.step {key : String} (h : Gone (stock s) key) (hstays : Stays s s') : Gone (stock s') key := by
  obtain ⟨kept,hkept,hkey,hrevoked⟩ := h
  obtain ⟨later,hlater,hages⟩ := hstays kept hkept
  exact ⟨later,hlater,hages.key.trans hkey,hages.revoked hrevoked⟩

theorem Seen.step {a : OAuthAnswered} (h : Seen s a) (hstays : Stays s s')
    (hs : (oauthService OAuthStore.perform env o).step s turn = some s') : Seen s' a := by
  unfold Seen at h ⊢
  split <;> simp only at h
  · exact ⟨h.1.step hstays,h.2.1,fun hr => (h.2.2 hr).step hs⟩
  · exact ⟨h.1.step hstays,h.2.1,fun hr => (h.2.2 hr).step hs⟩
  · exact h.step hstays
  · trivial

theorem perform_ok (op : StoreOp) (w : OAuthStore) : ∃ answer, (OAuthStore.perform op w).1 = .ok answer := by
  cases op with
  | consumeAuthorizationCode tenantId codeHash now =>
    unfold OAuthStore.perform
    dsimp only
    split
    · exact ⟨_,rfl⟩
    · split <;> exact ⟨_,rfl⟩
  | revokeToken tenantId tokenId now =>
    unfold OAuthStore.perform
    dsimp only
    split <;> exact ⟨_,rfl⟩
  | rotateToken tenantId tokenId now =>
    unfold OAuthStore.perform
    dsimp only
    split
    · exact ⟨_,rfl⟩
    · split <;> exact ⟨_,rfl⟩
  | _ => exact ⟨_,rfl⟩

theorem step_resume {i : ℕ} {f : Running OAuthOp OAuthOp.Reply Call (Except AuthError Answer)} (hf : s.fibers i = some f)
    (hs : (oauthService OAuthStore.perform env o).step s (.resume i) = some s') :
    s' = Service.resumed (oauthService OAuthStore.perform env o) s i f := by
  simpa [Service.step,hf] using hs.symm

theorem answered_works (place : ℕ) (call : Call) (op : OAuthOp) (w : World OAuthStore) :
    isFailure ⟨op,(World.handle OAuthStore.perform env place call op w).1⟩ = false := by
  cases op with
  | store op =>
    obtain ⟨answer,hanswer⟩ := perform_ok op w.store
    change isFailure ⟨.store op,(OAuthStore.perform op w.store).1⟩ = false
    rw [hanswer]
    rfl
  | _ => rfl

theorem Stocked.answered (h : Stocked s) {i : ℕ} {f : Running OAuthOp OAuthOp.Reply Call (Except AuthError Answer)}
    (hf : s.fibers i = some f) (hs : (oauthService OAuthStore.perform env o).step s (.resume i) = some s') :
    Seen s' ⟨f.op,(World.handle OAuthStore.perform env i f.call f.op s.world).1⟩ := by
  have hworld : stock s' = (World.handle OAuthStore.perform env i f.call f.op s.world).2.store.tokens := by
    rw [step_resume hf hs,stock,Service.resumed_world]
    rfl
  have hrecord : stock s' = stock s → ∀ record ∈ (stock s).rows, Holds (stock s') record ∧
      (record.rotatedAt.isSome = true → Rotated s' record.key) := by
    intro hsame record hin
    rw [hsame]
    exact ⟨⟨record,hin,Ages.refl record⟩,fun hr => (h.rotated record hin hr).step hs⟩
  cases hop : f.op with
  | store op =>
    rw [hop] at hworld
    change Seen s' ⟨.store op,(OAuthStore.perform op s.world.store).1⟩
    cases op with
    | findTokenByHash tenantId tokenHash =>
      change Seen s' ⟨.store (.findTokenByHash tenantId tokenHash),
        .ok ((stock s).rows.find? fun token => token.tenantId = tenantId && token.tokenHash = some tokenHash)⟩
      cases hfind : (stock s).rows.find? fun token => token.tenantId = tenantId && token.tokenHash = some tokenHash with
      | none => trivial
      | some record =>
        have hfound := List.find?_some hfind
        rw [Bool.and_eq_true,decide_eq_true_eq,decide_eq_true_eq] at hfound
        obtain ⟨hholds,hrotated⟩ := hrecord hworld record (List.mem_of_find?_eq_some hfind)
        exact ⟨hholds,hfound,hrotated⟩
    | findTokenById tenantId tokenId =>
      change Seen s' ⟨.store (.findTokenById tenantId tokenId),.ok ((stock s).get (scopedKey tenantId tokenId))⟩
      cases hget : (stock s).get (scopedKey tenantId tokenId) with
      | none => trivial
      | some record =>
        obtain ⟨hin,hkey⟩ := Records.get_eq_some_iff.mp hget
        obtain ⟨hholds,hrotated⟩ := hrecord hworld record hin
        exact ⟨hholds,hkey,hrotated⟩
    | rotateToken tenantId tokenId now =>
      obtain ⟨answer,hanswer⟩ := perform_ok (.rotateToken tenantId tokenId now) s.world.store
      cases answer with
      | false =>
        rw [hanswer]
        trivial
      | true =>
        rw [hanswer]
        change Gone (stock s') (scopedKey tenantId tokenId)
        rw [hworld]
        exact (lands_live hanswer).2
    | _ => trivial
  | _ => trivial

theorem stocked_start (w : World OAuthStore) (h : w.store.tokens.rows = []) : Stocked (.start w) := by
  have hnone : ∀ {call : Call} {past : List OAuthAnswered}, ¬ (.start w : OAuthPool).Was call past := by
    rintro call past (⟨i,f,hf,-⟩ | ⟨e,he,-⟩)
    · cases hf
    · cases he
  have hempty : ∀ kept, kept ∉ (stock (.start w)).rows := by
    intro kept hkept
    change kept ∈ w.store.tokens.rows at hkept
    rw [h] at hkept
    cases hkept
  constructor
  · exact fun call past hwas => absurd hwas hnone
  · exact fun call past hwas => absurd hwas hnone
  · exact fun kept hkept => absurd hkept (hempty kept)
  · exact fun kept hkept => absurd hkept (hempty kept)
  · exact fun call past hwas => absurd hwas hnone

theorem Stocked.step (h : Stocked s) (hdraws : Apart (drawTaking henv o) s) (haccounted : Accounted o s)
    (hs : (oauthService OAuthStore.perform env o).step s turn = some s') : Stocked s' ∧ Stays s s' := by
  have hstays : Stays s s' := fun token hin => stock_stays (fun i f token hf hop => h.put_new hdraws haccounted hf hop) hs hin
  refine ⟨⟨?_,?_,?_,?_,?_⟩,hstays⟩
  · intro call past hwas
    rcases Service.was_step hs hwas with rfl | hold | ⟨i,f,rfl,hf,rfl,rfl⟩
    · rfl
    · exact h.works call past hold
    · exact Bool.or_eq_false_iff.mpr ⟨answered_works _ _ _ _,h.works _ _ (Or.inl ⟨i,f,hf,rfl,rfl⟩)⟩
  · intro call past hwas token hin
    rcases Service.was_step hs hwas with rfl | hold | ⟨i,f,rfl,hf,rfl,rfl⟩
    · cases hin
    · exact (h.holds call past hold token hin).step hstays
    · obtain ⟨a,ha,hput⟩ := List.mem_filterMap.mp hin
      rcases List.mem_cons.mp ha with rfl | ha
      · have hop : f.op = .store (.putToken token) := putOf_eq_some.mp hput
        refine ⟨token,?_,Ages.refl token⟩
        rw [step_resume hf hs,stock,Service.resumed_world,hop]
        exact Records.mem_set.mpr (Or.inl rfl)
      · exact (h.holds _ _ (Or.inl ⟨i,f,hf,rfl,rfl⟩) token (List.mem_filterMap.mpr ⟨a,ha,hput⟩)).step hstays
  · intro kept hin
    rcases stock_came hs hin with ⟨i,f,rfl,hf,hop⟩ | ⟨token,htoken,hages,-⟩
    · obtain rfl := step_resume hf hs
      refine ⟨f.call,_,Pool.place_was,kept,?_,Ages.refl kept⟩
      exact List.mem_filterMap.mpr ⟨_,List.mem_cons_self,putOf_eq_some.mpr hop⟩
    · obtain ⟨call,past,hwas,put,hput,hold⟩ := h.came token htoken
      obtain ⟨past',hwas',hsuffix⟩ := Service.was_mono hs hwas
      exact ⟨call,past',hwas',put,(hsuffix.filterMap _).subset hput,hold.trans hages⟩
  · intro kept hin hrotated
    rcases stock_came hs hin with ⟨i,f,rfl,hf,hop⟩ | ⟨token,htoken,hages,hcases⟩
    · have hrests := haccounted.ruled.asks hf
      rw [hop] at hrests
      have hlive : kept.rotatedAt = none := by
        cases hrests.1 with
        | exchange input client code familyId exchanges family carries => exact carries.live.2
        | refresh input client record renews carries => exact carries.live.2
      rw [hlive] at hrotated
      cases hrotated
    · rcases hcases hrotated with hold | hnow
      · rw [hages.key]
        exact (h.rotated token htoken hold).step hs
      · exact hnow
  · intro call past hwas a ha
    rcases Service.was_step hs hwas with rfl | hold | ⟨i,f,rfl,hf,rfl,rfl⟩
    · cases ha
    · exact (h.seen call past hold a ha).step hstays hs
    · rcases List.mem_cons.mp ha with rfl | ha
      · exact h.answered hf hs
      · exact (h.seen _ _ (Or.inl ⟨i,f,hf,rfl,rfl⟩) a ha).step hstays hs

/-- What the results about the tokens of a run rest on. -/
structure Known (henv : FreshTokens env) (o : ServerOptions) (s : OAuthPool) : Prop where
  accounted : Accounted o s
  draws : Apart (drawTaking henv o) s
  stocked : Stocked s

theorem known_start : Known henv o (.start (newOAuthWorld keys)) := ⟨accounted_start _,apart_start _,stocked_start _ rfl⟩

theorem Known.step (h : Known henv o s) (hs : (oauthService OAuthStore.perform env o).step s turn = some s') : Known henv o s' ∧
    Stays s s' :=
  ⟨⟨h.accounted.step hs,h.draws.step (fun _ _ _ _ => trivial) hs,(h.stocked.step h.draws h.accounted hs).1⟩,
    (h.stocked.step h.draws h.accounted hs).2⟩

theorem known_of_reaches (henv : FreshTokens env) (hr : (oauthSystem o env keys).Reaches allow s) : Known henv o s := by
  apply hr.invariant (Known henv o) known_start
  intro a turn b h _ hs
  exact (h.step hs).1

end Stock
end StructureAi.Auth

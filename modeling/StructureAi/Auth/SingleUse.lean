import StructureAi.Auth.Grants
import StructureAi.Auth.TokenStock

/-! # Codes and refresh tokens are good for once

However many calls present a code or a refresh token, and however their operations interleave, one of
them at most is answered with tokens: a consumption of a code and a rotation of a token are each taken
by one call.
-/
namespace StructureAi.Auth
open StructureAi.Foundation Program

section Takings

def PutNew (op : OAuthOp) (w : World OAuthStore) : Prop :=
  (∀ code, op = .store (.putAuthorizationCode code) → ∀ kept ∈ w.store.codes.rows, kept.key ≠ code.key) ∧
    ∀ token, op = .store (.putToken token) → ∀ kept ∈ w.store.tokens.rows, kept.key ≠ token.key

/-- The key of the code that an answer consumed. -/
def consumption : OAuthAnswered → Option String
  | ⟨.store (.consumeAuthorizationCode tenantId codeHash _),.ok (some _)⟩ => some (scopedKey tenantId codeHash)
  | _ => none

/-- The key of the token that an answer rotated. -/
def rotation : OAuthAnswered → Option String
  | ⟨.store (.rotateToken tenantId tokenId _),.ok true⟩ => some (scopedKey tenantId tokenId)
  | _ => none

def Consumed (codes : Records AuthorizationCodeRecord.key) (key : String) : Prop :=
  ∃ code, codes.get key = some code ∧ code.consumedAt.isSome = true

variable {w : OAuthStore}

theorem consumes {tenantId codeHash : String} {now : ℤ} {code : AuthorizationCodeRecord}
    (h : (OAuthStore.perform (.consumeAuthorizationCode tenantId codeHash now) w).1 = .ok (some code)) :
    ¬ Consumed w.codes (scopedKey tenantId codeHash) ∧
      Consumed (OAuthStore.perform (.consumeAuthorizationCode tenantId codeHash now) w).2.codes
        (scopedKey tenantId codeHash) := by
  cases hget : w.codes.get (scopedKey tenantId codeHash) with
  | none => simp [OAuthStore.perform,hget] at h
  | some current =>
    by_cases hbad : current.consumedAt.isSome ∨ current.expiresAt ≤ now
    · simp [OAuthStore.perform,hget,hbad] at h
    · constructor
      · rintro ⟨other,hother,hconsumed⟩
        obtain rfl := Option.some.inj (hget.symm.trans hother)
        exact hbad (Or.inl hconsumed)
      · refine ⟨{current with consumedAt := some now},?_,rfl⟩
        simp only [OAuthStore.perform,hget,hbad,if_false]
        rw [Records.get_set]
        exact if_pos (Records.get_eq_some_iff.mp hget).2.symm

theorem consumed_lasts {op : StoreOp} {key : String} (h : Consumed w.codes key)
    (hnew : ∀ code, op = .putAuthorizationCode code → ∀ kept ∈ w.codes.rows, kept.key ≠ code.key) :
    Consumed (OAuthStore.perform op w).2.codes key := by
  obtain ⟨code,hget,hconsumed⟩ := h
  obtain ⟨hin,hkey⟩ := Records.get_eq_some_iff.mp hget
  cases op with
  | putAuthorizationCode put =>
    refine ⟨code,?_,hconsumed⟩
    change (w.codes.set put).get key = some code
    rw [Records.get_set,if_neg]
    · exact hget
    · rintro rfl
      exact hnew put rfl code hin hkey
  | consumeAuthorizationCode tenantId codeHash now =>
    unfold OAuthStore.perform
    dsimp only
    split
    · exact ⟨code,hget,hconsumed⟩
    · rename_i current hcurrent
      split
      · exact ⟨code,hget,hconsumed⟩
      · dsimp only [Consumed]
        rw [Records.get_set]
        split
        · exact ⟨_,rfl,rfl⟩
        · exact ⟨code,hget,hconsumed⟩
  | revokeToken tenantId tokenId now =>
    unfold OAuthStore.perform
    dsimp only
    split <;> exact ⟨code,hget,hconsumed⟩
  | rotateToken tenantId tokenId now =>
    unfold OAuthStore.perform
    dsimp only
    split
    · exact ⟨code,hget,hconsumed⟩
    · split <;> exact ⟨code,hget,hconsumed⟩
  | _ => exact ⟨code,hget,hconsumed⟩

variable (env : Environment) (o : ServerOptions)

def codeTaking : (looseDiscipline (oauthService OAuthStore.perform env o) PutNew).Taking String where
  takes _ a := consumption a
  spent key w := Consumed w.store.codes key
  fresh := by
    intro i call past op w key _ _ _ ht
    cases op with
    | store op =>
      cases op with
      | consumeAuthorizationCode tenantId codeHash now =>
        obtain ⟨answer,hanswer⟩ := perform_ok (.consumeAuthorizationCode tenantId codeHash now) w.store
        cases answer with
        | none =>
          change consumption ⟨.store (.consumeAuthorizationCode tenantId codeHash now),
            (OAuthStore.perform (.consumeAuthorizationCode tenantId codeHash now) w.store).1⟩ = some key at ht
          rw [hanswer] at ht
          cases ht
        | some code =>
          change consumption ⟨.store (.consumeAuthorizationCode tenantId codeHash now),
            (OAuthStore.perform (.consumeAuthorizationCode tenantId codeHash now) w.store).1⟩ = some key at ht
          rw [hanswer] at ht
          obtain rfl := Option.some.inj ht
          exact consumes hanswer
      | _ => cases ht
    | _ => cases ht
  lasts := by
    intro i call past op w key _ hgiven _ hspent
    cases op with
    | store op => exact consumed_lasts hspent fun code hop => hgiven.1 code (congrArg OAuthOp.store hop)
    | _ => exact hspent
  outside := fun _ _ _ _ h => h

def rotationTaking : (looseDiscipline (oauthService OAuthStore.perform env o) PutNew).Taking String where
  takes _ a := rotation a
  spent key w := Gone w.store.tokens key
  fresh := by
    intro i call past op w key _ _ _ ht
    cases op with
    | store op =>
      cases op with
      | rotateToken tenantId tokenId now =>
        obtain ⟨answer,hanswer⟩ := perform_ok (.rotateToken tenantId tokenId now) w.store
        cases answer with
        | false =>
          change rotation ⟨.store (.rotateToken tenantId tokenId now),
            (OAuthStore.perform (.rotateToken tenantId tokenId now) w.store).1⟩ = some key at ht
          rw [hanswer] at ht
          cases ht
        | true =>
          change rotation ⟨.store (.rotateToken tenantId tokenId now),
            (OAuthStore.perform (.rotateToken tenantId tokenId now) w.store).1⟩ = some key at ht
          rw [hanswer] at ht
          obtain rfl := Option.some.inj ht
          exact lands_live hanswer
      | _ => cases ht
    | _ => cases ht
  lasts := by
    intro i call past op w key _ hgiven _ hspent
    cases op with
    | store op =>
      obtain ⟨token,hin,rfl,hrevoked⟩ := hspent
      obtain ⟨kept,hkept,hages⟩ := tokens_stay (fun put hop => hgiven.2 put (congrArg OAuthOp.store hop)) hin
      exact ⟨kept,hkept,hages.key,hages.revoked hrevoked⟩
    | _ => exact hspent
  outside := fun _ _ _ _ h => h

end Takings

section Runs

/-- Hashes differ where the tokens do, and add no NUL character. -/
structure PlainHashes (o : ServerOptions) : Prop where
  injective : Function.Injective o.hashToken
  clean : ∀ token, '\x00' ∉ token.toList → '\x00' ∉ (o.hashToken token).toList

variable {env : Environment} {henv : FreshTokens env} {o : ServerOptions} {s s' : OAuthPool} {turn : Turn Call SigningKeys}
  {allow : OAuthPool → Turn Call SigningKeys → Prop} {keys : SigningKeys}

/-- Every code was put by a call that has put no other. -/
def CodesKnown (o : ServerOptions) (s : OAuthPool) : Prop :=
  ∀ code ∈ s.world.store.codes.rows, ∃ call past, s.Was call past ∧ past.any (fun a => isCode a.op) = true ∧
    ∃ secret ∈ drawn past, code.codeHash = o.hashToken secret

theorem codes_came {op : StoreOp} {w : OAuthStore} {kept : AuthorizationCodeRecord}
    (hin : kept ∈ (OAuthStore.perform op w).2.codes.rows) :
    op = .putAuthorizationCode kept ∨ ∃ code ∈ w.codes.rows, code.codeHash = kept.codeHash := by
  have hold : kept ∈ w.codes.rows → ∃ code ∈ w.codes.rows, code.codeHash = kept.codeHash := fun hin => ⟨kept,hin,rfl⟩
  cases op with
  | putAuthorizationCode put =>
    rcases Records.mem_set.mp hin with rfl | ⟨hin,-⟩
    · exact Or.inl rfl
    · exact Or.inr (hold hin)
  | consumeAuthorizationCode tenantId codeHash now =>
    right
    unfold OAuthStore.perform at hin
    dsimp only at hin
    split at hin
    · exact hold hin
    · rename_i current hget
      split at hin
      · exact hold hin
      · rcases Records.mem_set.mp hin with rfl | ⟨hin,-⟩
        · exact ⟨current,(Records.get_eq_some_iff.mp hget).1,rfl⟩
        · exact hold hin
  | revokeToken tenantId tokenId now =>
    right
    unfold OAuthStore.perform at hin
    dsimp only at hin
    split at hin <;> exact hold hin
  | rotateToken tenantId tokenId now =>
    right
    unfold OAuthStore.perform at hin
    dsimp only at hin
    split at hin
    · exact hold hin
    · split at hin <;> exact hold hin
  | _ => exact Or.inr (hold hin)

theorem CodesKnown.step (h : CodesKnown o s) (haccounted : Accounted o s)
    (hs : (oauthService OAuthStore.perform env o).step s turn = some s') : CodesKnown o s' := by
  have hlater : ∀ {code kept : AuthorizationCodeRecord}, code ∈ s.world.store.codes.rows → code.codeHash = kept.codeHash →
      ∃ call past, s'.Was call past ∧ past.any (fun a => isCode a.op) = true ∧ ∃ secret ∈ drawn past, kept.codeHash =
        o.hashToken secret := by
    intro code kept hin hsame
    obtain ⟨call,past,hwas,hcode,secret,hsecret,hhash⟩ := h code hin
    obtain ⟨past',hwas',hsuffix⟩ := Service.was_mono hs hwas
    refine ⟨call,past',hwas',?_,secret,(drawn_mono hsuffix).subset hsecret,hsame ▸ hhash⟩
    obtain ⟨a,ha,his⟩ := List.any_eq_true.mp hcode
    exact List.any_eq_true.mpr ⟨a,hsuffix.subset ha,his⟩
  intro kept hin
  rcases Service.step_cases hs with ⟨i,call,rfl,-,rfl⟩ | ⟨i,f,rfl,hf,rfl⟩ | ⟨keys,rfl,rfl⟩
  · rw [Pool.place_world] at hin
    exact hlater hin rfl
  · rw [Service.resumed_world] at hin
    change kept ∈ (World.handle OAuthStore.perform env i f.call f.op s.world).2.store.codes.rows at hin
    by_cases hstore : ∃ op, f.op = .store op
    · obtain ⟨op,hop⟩ := hstore
      rw [hop] at hin
      rcases codes_came hin with rfl | ⟨code,hcode,hsame⟩
      · have hrests := haccounted.ruled.asks hf
        rw [hop] at hrests
        obtain ⟨⟨request,client,consent,hauthorizes⟩,-⟩ := hrests
        obtain ⟨secret,hsecret,hhash⟩ := hauthorizes.hash
        refine ⟨f.call,_,Pool.place_was,?_,secret,?_,hhash⟩
        · refine List.any_eq_true.mpr ⟨_,List.mem_cons_self,?_⟩
          rw [hop]
          rfl
        · exact (drawn_mono (List.suffix_cons _ _)).subset hsecret
      · exact hlater hcode hsame
    · push Not at hstore
      rw [handle_store i f.call hstore] at hin
      exact hlater hin rfl
  · exact hlater hin rfl

theorem given_putNew (hhash : PlainHashes o) (h : Known henv o s) (hcodes : CodesKnown o s) (turn : Turn Call SigningKeys) :
    (looseDiscipline (oauthService OAuthStore.perform env o) PutNew).Given s turn := by
  intro i f _ hf
  have hself : s.Was f.call f.past := Or.inl ⟨i,f,hf,rfl,rfl⟩
  constructor
  · intro code hop kept hkept hkey
    have hrests := h.accounted.ruled.asks hf
    rw [hop] at hrests
    obtain ⟨⟨request,client,consent,hauthorizes⟩,hnone⟩ := hrests
    obtain ⟨secret,hsecret,hcode⟩ := hauthorizes.hash
    obtain ⟨call,past,hwas,hput,secret',hsecret',hkeptHash⟩ := hcodes kept hkept
    rw [AuthorizationCodeRecord.key,AuthorizationCodeRecord.key,hcode,hkeptHash] at hkey
    have hclean := hhash.clean secret (drawn_clean h.draws hself hsecret)
    have hclean' := hhash.clean secret' (drawn_clean h.draws hwas hsecret')
    obtain rfl := hhash.injective (separated_inj hclean' hclean hkey).2
    obtain ⟨rfl,rfl⟩ := drawn_same h.draws hwas hself hsecret' hsecret
    rw [hput] at hnone
    cases hnone
  · exact fun token hop => h.stocked.put_new h.draws h.accounted hf hop

theorem reaches_putNew (henv : FreshTokens env) (hhash : PlainHashes o) (hr : (oauthSystem o env keys).Reaches allow s) :
    (oauthSystem o env keys).Reaches (looseDiscipline (oauthService OAuthStore.perform env o) PutNew).Given s := by
  apply hr.strengthen fun s => Known henv o s ∧ CodesKnown o s
  · refine ⟨known_start,?_⟩
    intro code hin
    cases hin
  · rintro a turn b ⟨hknown,hcodes⟩ _ hs
    exact ⟨(hknown.step hs).1,hcodes.step hknown.accounted hs⟩
  · exact fun a turn h _ => given_putNew hhash h.1 h.2 turn

/-- A call was answered with tokens for a code. -/
def exchanged (tenantId code : String) (e : Ended OAuthOp OAuthOp.Reply Call (Except AuthError Answer)) : Bool :=
  match e.call,e.answer with
  | .exchangeCode input,.ok (.tokens _) => input.tenantId = tenantId && input.code = code
  | _,_ => false

/-- A call was answered with tokens for a refresh token. -/
def refreshed (tenantId token : String) (e : Ended OAuthOp OAuthOp.Reply Call (Except AuthError Answer)) : Bool :=
  match e.call,e.answer with
  | .refresh input,.ok (.tokens _) => input.tenantId = tenantId && input.refreshToken = token
  | _,_ => false

theorem exchanged_eq_true {tenantId code : String} {e : Ended OAuthOp OAuthOp.Reply Call (Except AuthError Answer)}
    (h : exchanged tenantId code e = true) :
    ∃ input tokens, e.call = .exchangeCode input ∧ e.answer = .ok (.tokens tokens) ∧ input.tenantId = tenantId ∧
      input.code = code := by
  unfold exchanged at h
  split at h
  · rename_i input tokens hcall hanswer
    rw [Bool.and_eq_true,decide_eq_true_eq,decide_eq_true_eq] at h
    exact ⟨input,tokens,hcall,hanswer,h⟩
  · cases h

theorem refreshed_eq_true {tenantId token : String} {e : Ended OAuthOp OAuthOp.Reply Call (Except AuthError Answer)}
    (h : refreshed tenantId token e = true) :
    ∃ input tokens, e.call = .refresh input ∧ e.answer = .ok (.tokens tokens) ∧ input.tenantId = tenantId ∧
      input.refreshToken = token := by
  unfold refreshed at h
  split at h
  · rename_i input tokens hcall hanswer
    rw [Bool.and_eq_true,decide_eq_true_eq,decide_eq_true_eq] at h
    exact ⟨input,tokens,hcall,hanswer,h⟩
  · cases h

theorem Known.hash_unique (h : Known henv o s) (hhash : PlainHashes o) {a b : OAuthTokenRecord} (ha : Holds (stock s) a)
    (hb : Holds (stock s) b) (hka : a.kind = .refresh) (hkb : b.kind = .refresh) (hsame : a.tokenHash = b.tokenHash) :
      a.key = b.key := by
  have hput : ∀ {token : OAuthTokenRecord}, Holds (stock s) token → token.kind = .refresh → ∃ call past, s.Was call past ∧
      ∃ put ∈ minted past, put.kind = .refresh ∧ put.key = token.key ∧ ∃ secret ∈ drawn past, token.tokenHash =
        some (o.hashToken secret) := by
    rintro token ⟨kept,hkept,hages⟩ hkind
    obtain ⟨call,past,hwas,put,hput,hold⟩ := h.stocked.came kept hkept
    have hrefresh : put.kind = .refresh := hold.kind.symm.trans (hages.kind.trans hkind)
    obtain ⟨earlier,hs,-,hminting⟩ := minted_asked (h.accounted.ruled.lawful call past hwas) hput
    obtain ⟨-,secret,hsecret,hhash⟩ := hminting.refresh hrefresh
    exact ⟨call,past,hwas,put,hput,hrefresh,hold.key.symm.trans hages.key,secret,(drawn_mono hs).subset hsecret,
      hages.hash.symm.trans (hold.hash.trans hhash)⟩
  obtain ⟨call,past,hwas,put,hin,hrefresh,hkey,secret,hsecret,htoken⟩ := hput ha hka
  obtain ⟨call',past',hwas',put',hin',hrefresh',hkey',secret',hsecret',htoken'⟩ := hput hb hkb
  obtain rfl : secret = secret' := hhash.injective (Option.some.inj (htoken.symm.trans (hsame.trans htoken')))
  obtain ⟨rfl,rfl⟩ := drawn_same h.draws hwas hwas' hsecret hsecret'
  rw [← hkey,← hkey',minted_fresh (h.accounted.ruled.lawful call past hwas) hin hin' hrefresh hrefresh']

theorem Known.refreshed_key (h : Known henv o s) {e : Ended OAuthOp OAuthOp.Reply Call (Except AuthError Answer)}
    (he : e ∈ s.ended)
    {tenantId token : String} (hrefreshed : refreshed tenantId token e = true) : ∃ record, Holds (stock s) record ∧
      record.kind = .refresh ∧
      record.tokenHash = some (o.hashToken token) ∧ record.key ∈ (rotationTaking env o).taken e.call e.past := by
  obtain ⟨input,tokens,hcall,hanswer,htenant,htoken⟩ := refreshed_eq_true hrefreshed
  have hwas : s.Was e.call e.past := Or.inr ⟨e,he,rfl,rfl⟩
  have hlawful := h.accounted.ruled.lawful _ _ hwas
  rcases ((h.accounted.ruled.ended e he).1 _ hanswer).tokens tokens rfl with ⟨input',client,code,hexchanges⟩ |
    ⟨input',client,record,hrenews,hwon⟩
  · rw [hexchanges.call] at hcall
    cases hcall
  · obtain rfl : input' = input := Call.refresh.inj (hrenews.presents.call.symm.trans hcall)
    obtain ⟨hholds,⟨hrecord,hhash⟩,-⟩ := h.stocked.seen _ _ hwas _ hrenews.presents.found
    refine ⟨record,hholds,hrenews.presents.kind,htoken ▸ hhash,?_⟩
    obtain ⟨a,ha,hiswon⟩ := List.any_eq_true.mp hwon
    obtain ⟨earlier,hs,hrests⟩ := hlawful.asked ha
    refine List.mem_filterMap.mpr ⟨a,ha,?_⟩
    unfold isWon at hiswon
    split at hiswon
    · obtain ⟨input'',client'',record'',hrenews'',htenant'',hid,-⟩ := hrests
      obtain ⟨rfl,rfl⟩ := (hrenews''.presents.mono ((List.suffix_cons _ _).trans hs)).same hlawful hrenews.presents
      subst htenant''
      subst hid
      change some (scopedKey _ _) = some (scopedKey _ _)
      rw [hrecord]
    · cases hiswon

/-- One exchange at most of a code, and one refresh at most with a token, is answered with tokens. -/
theorem single_use (henv : FreshTokens env) (hhash : PlainHashes o) (hr : (oauthSystem o env keys).Reaches allow s) :
    (∀ tenantId code, s.ended.countP (exchanged tenantId code) ≤ 1) ∧
      ∀ tenantId token, s.ended.countP (refreshed tenantId token) ≤ 1 := by
  have hknown := known_of_reaches henv hr
  have hnew := reaches_putNew henv hhash hr
  constructor
  · intro tenantId code
    have hcodes := apart_of_reaches (codeTaking env o) (fun _ _ h => h) hnew
    apply hcodes.countP_le_one (t := scopedKey tenantId (o.hashToken code))
    intro e he hexchanged
    obtain ⟨input,tokens,hcall,hanswer,rfl,rfl⟩ := exchanged_eq_true hexchanged
    rcases ((hknown.accounted.ruled.ended e he).1 _ hanswer).tokens tokens rfl with ⟨input',client,record,hexchanges⟩ |
      ⟨input',client,record,hrenews,-⟩
    · obtain rfl : input' = input := Call.exchangeCode.inj (hexchanges.call.symm.trans hcall)
      obtain ⟨now,hin⟩ := hexchanges.consumed
      exact List.mem_filterMap.mpr ⟨_,hin,rfl⟩
    · rw [hrenews.presents.call] at hcall
      cases hcall
  · intro tenantId token
    have hrotations := apart_of_reaches (rotationTaking env o) (fun _ _ h => h) hnew
    by_cases hany : ∃ e ∈ s.ended, refreshed tenantId token e = true
    · obtain ⟨e,he,hrefreshed⟩ := hany
      obtain ⟨record,hholds,hkind,hhashed,-⟩ := hknown.refreshed_key he hrefreshed
      apply hrotations.countP_le_one (t := record.key)
      intro e' he' hrefreshed'
      obtain ⟨record',hholds',hkind',hhashed',htaken⟩ := hknown.refreshed_key he' hrefreshed'
      rwa [hknown.hash_unique hhash hholds hholds' hkind hkind' (hhashed.trans hhashed'.symm)]
    · push Not at hany
      rw [List.countP_eq_zero.mpr hany]
      exact Nat.zero_le 1

end Runs

section Replayed

theorem freshTokens_counting : FreshTokens countingEnvironment := by
  constructor
  · intro place n byteLength place' n' byteLength' h
    have hlist := String.ofList_injective h
    obtain ⟨hplace,hn⟩ := @append_cons_cancel Char 'b' _ _ _ _ (by simp) (by simp) hlist
    exact ⟨by simpa using congrArg List.length hplace,by simpa using congrArg List.length hn⟩
  · intro place n byteLength
    simp [countingEnvironment]

theorem plainHashes_plain : PlainHashes plainOptions := ⟨fun _ _ h => h,fun _ h => h⟩

/-- The code and the refresh token of the exchange are presented twice each. -/
def replayTurns : List (Turn Call SigningKeys) :=
  let exchange : Call := .exchangeCode ⟨"acme","as_b",none,"aab",codeVerifier,"https://app.example/cb"⟩
  let refresh : Call := .refresh ⟨"acme","as_b",none,"aaabcc"⟩
  exchangeTurns ++ .arrive 4 exchange :: resumes 4 3 ++ .arrive 5 refresh :: resumes 5 14 ++ .arrive 6 refresh :: resumes 6 6

set_option maxRecDepth 20000 in
theorem replayTurns_run : ((oauthSystem plainOptions countingEnvironment serverKeys).run replayTurns).map (fun s =>
    (s.ended.length,(List.range 7).all fun i => (s.fibers i).isNone,s.ended.countP (exchanged "acme" "aab"),
      s.ended.countP (refreshed "acme" "aaabcc"))) = some (7,true,1,1) := by
  decide +kernel

theorem single_use_replayed : ∃ s, (oauthSystem plainOptions countingEnvironment serverKeys).run replayTurns = some s ∧
    s.ended.length = 7 ∧ s.ended.countP (exchanged "acme" "aab") = 1 ∧ s.ended.countP (refreshed "acme" "aaabcc") = 1 ∧
    (∀ tenantId code, s.ended.countP (exchanged tenantId code) ≤ 1) ∧
      ∀ tenantId token, s.ended.countP (refreshed tenantId token) ≤ 1 := by
  obtain ⟨s,hs,hends⟩ := Option.map_eq_some_iff.mp replayTurns_run
  simp only [Prod.mk.injEq] at hends
  exact ⟨s,hs,hends.1,hends.2.2.1,hends.2.2.2,single_use freshTokens_counting plainHashes_plain (System.run_reachable hs)⟩

end Replayed
end StructureAi.Auth

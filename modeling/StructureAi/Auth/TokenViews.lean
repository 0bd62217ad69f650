import StructureAi.Auth.TokenRevocation
import StructureAi.Foundation.Separated

/-! # Two views of an access token

`introspect` answers from the record under the `jti` that the token carries, and reads nothing else of the token.
`verifyAccessToken` reads the signature and the claims first, and of the record only whether it is revoked.
-/
namespace StructureAi.Auth
open StructureAi.Foundation OAuthStore
variable (o : ServerOptions) (env : Environment)

section Views

/-- The record of the tenant under the `jti` that the token carries. -/
def carried (s : OAuthStore) (tenantId token : String) : Option OAuthTokenRecord :=
  (jtiOf token).bind fun jti => s.tokens.get (scopedKey tenantId jti)

/-- Claims of the tenant that have not run out. -/
def InForce (tenantId : String) (claims : Json) (time : ℤ) : Prop :=
  (∃ exp, claims.get "exp" = some (.num exp) ∧ (time : ℚ) < exp.value * 1000) ∧ (claims.get "tid").bind Json.asString =
    some tenantId

/-- A header that names a key of this server, and the signature of that key over both segments. -/
def Signed (w : World OAuthStore) (header claims signature : String) : Prop :=
  ∃ decoded key bytes, decodeJwtSegment header = some decoded ∧ keyOf w.keys decoded = some key ∧
    decodeBase64Url signature = some bytes ∧ bytes ≠ [] ∧ (key.pair,header ++ "." ++ claims,bytes) ∈ w.signatures

/-- A signed token whose claims are the tenant's and have not run out. -/
def Genuine (w : World OAuthStore) (tenantId token : String) (time : ℤ) : Prop :=
  ∃ header claims signature decoded, segmentsOf token = [header,claims,signature] ∧ Signed w header claims signature ∧
    decodeJwtSegment claims = some decoded ∧ InForce tenantId decoded time

/-- `introspect` answers that the token is active. -/
def Introspects (input : TokenInput) (w : World OAuthStore) : Prop :=
  ∃ answer, (World.call OAuthStore.perform env o (.introspect input) w).1 = .ok (.introspection answer) ∧ answer.active = true

/-- `verifyAccessToken` answers the claims. -/
def Accepts (tenantId token : String) (w : World OAuthStore) : Prop :=
  ∃ claims, (World.call OAuthStore.perform env o (.verifyAccessToken tenantId token) w).1 = .ok (.claims claims)

end Views

section Verifying
variable {o env} {place : ℕ} {call : Call} {tenantId : String}

theorem verifyClaims_ok_iff {claims : Json} {w : World OAuthStore} :
    (∃ answer, (Server.exec (World.handle OAuthStore.perform env place call) (verifyClaims tenantId claims) w).1 = .ok answer) ↔
      InForce tenantId claims (env.clock w.ticks) ∧
      ∃ jti, (claims.get "jti").bind Json.asString = some jti ∧
        ∃ record, w.store.tokens.get (scopedKey tenantId jti) = some record ∧ record.revokedAt = none := by
  unfold verifyClaims
  split
  · rename_i tokenId exp hjti hexp
    rw [Server.exec_bind_ok Server.exec_now]
    change (∃ answer, (Server.exec _ (if exp.value * 1000 ≤ ((env.clock w.ticks : ℤ) : ℚ) then _ else _) _).1 = _) ↔ _
    by_cases hlate : exp.value * 1000 ≤ ((env.clock w.ticks : ℤ) : ℚ)
    · rw [if_pos hlate]
      apply iff_of_false
      · rintro ⟨answer,h⟩
        cases h
      · rintro ⟨⟨⟨exp',hexp',hearly⟩,-⟩,-⟩
        obtain rfl : exp = exp' := Json.num.inj (Option.some.inj (hexp.symm.trans hexp'))
        exact absurd hlate (not_le.mpr hearly)
    · rw [if_neg hlate]
      by_cases htid : (claims.get "tid").bind Json.asString = some tenantId
      · rw [if_neg (not_not.mpr htid)]
        have hfind : ∀ w : World OAuthStore, Server.exec (World.handle OAuthStore.perform env place call)
            (tryCatch (Server.store (.findTokenById tenantId tokenId)) fun _ => pure none) w =
            (.ok (w.store.tokens.get (scopedKey tenantId tokenId)),{w with trace :=
              ⟨call,.store (.findTokenById tenantId tokenId),
              .ok (w.store.tokens.get (scopedKey tenantId tokenId))⟩ :: w.trace}) := fun _ => rfl
        have hnamed : (claims.get "jti").bind Json.asString = some tokenId := by
          rw [hjti]
          rfl
        have hearly : InForce tenantId claims (env.clock w.ticks) := ⟨⟨exp,hexp,not_le.mp hlate⟩,htid⟩
        have hstore : (World.handle OAuthStore.perform env place call .now w).2.store = w.store := rfl
        rw [Server.exec_bind_ok (hfind _),hstore]
        cases hget : w.store.tokens.get (scopedKey tenantId tokenId) with
        | none =>
          apply iff_of_false
          · rintro ⟨answer,h⟩
            cases h
          · rintro ⟨-,jti,hjti',record,hrecord,-⟩
            obtain rfl : tokenId = jti := Option.some.inj (hnamed.symm.trans hjti')
            rw [hget] at hrecord
            cases hrecord
        | some record =>
          dsimp only
          cases hrevoked : record.revokedAt with
          | none => exact iff_of_true ⟨_,rfl⟩ ⟨hearly,tokenId,hnamed,record,hget,hrevoked⟩
          | some time =>
            apply iff_of_false
            · rintro ⟨answer,h⟩
              cases h
            · rintro ⟨-,jti,hjti',record',hrecord,hlive⟩
              obtain rfl : tokenId = jti := Option.some.inj (hnamed.symm.trans hjti')
              obtain rfl : record = record' := Option.some.inj (hget.symm.trans hrecord)
              rw [hrevoked] at hlive
              cases hlive
      · rw [if_pos htid]
        apply iff_of_false
        · rintro ⟨answer,h⟩
          cases h
        · rintro ⟨⟨-,htid'⟩,-⟩
          exact htid htid'
  · rename_i hnot
    apply iff_of_false
    · rintro ⟨answer,h⟩
      cases h
    · rintro ⟨⟨⟨exp,hexp,-⟩,-⟩,jti,hjti,-⟩
      obtain ⟨v,hv,hstr⟩ := Option.bind_eq_some_iff.mp hjti
      cases v with
      | str s => exact hnot s exp hv hexp
      | _ => cases hstr

theorem exec_verifyJwsSignature (env : Environment) (place : ℕ) (call : Call) (key : SigningKey) (input signature : String)
    (w : World OAuthStore) :
    ∃ verified w', Server.exec (World.handle OAuthStore.perform env place call) (verifyJwsSignature key input signature) w =
      (.ok verified,w') ∧
      w'.store = w.store ∧ w'.ticks = w.ticks ∧
      (verified = true ↔ ∃ bytes, decodeBase64Url signature = some bytes ∧ bytes ≠ [] ∧
        (key.pair,input,bytes) ∈ w.signatures) := by
  unfold verifyJwsSignature
  cases hbytes : decodeBase64Url signature with
  | none =>
    refine ⟨false,w,rfl,rfl,rfl,iff_of_false Bool.false_ne_true ?_⟩
    rintro ⟨bytes,h,-⟩
    cases h
  | some bytes =>
    dsimp only
    by_cases hempty : bytes = []
    · rw [if_pos hempty]
      refine ⟨false,w,rfl,rfl,rfl,iff_of_false Bool.false_ne_true ?_⟩
      rintro ⟨bytes',h,hne,-⟩
      obtain rfl := Option.some.inj h
      exact hne hempty
    · rw [if_neg hempty]
      refine ⟨decide ((key.pair,input,bytes) ∈ w.signatures),_,rfl,rfl,rfl,?_⟩
      constructor
      · exact fun h => ⟨bytes,rfl,hempty,of_decide_eq_true h⟩
      · rintro ⟨bytes',h,-,hmem⟩
        obtain rfl := Option.some.inj h
        exact decide_eq_true hmem

theorem jtiOf_eq {token header claims signature : String} {decodedHeader decoded : Json}
    (hsegments : segmentsOf token = [header,claims,signature]) (hheader : decodeJwtSegment header = some decodedHeader)
    (hclaims : decodeJwtSegment claims = some decoded) : jtiOf token = (decoded.get "jti").bind Json.asString := by
  rw [jtiOf,decodeJwtParts,hsegments]
  simp only [hheader,hclaims]
  rfl

/-- A token is accepted just if it is genuine and names a record that is not revoked. -/
theorem verifyAccessToken_ok_iff {token : String} {w : World OAuthStore} :
    (∃ answer, (Server.exec (World.handle OAuthStore.perform env place call) (verifyAccessToken tenantId token) w).1 =
      .ok answer) ↔
      Genuine w tenantId token (env.clock w.ticks) ∧ ∃ record, carried w.store tenantId token = some record ∧
        record.revokedAt = none := by
  unfold verifyAccessToken
  split
  · rename_i header claims signature hsegments
    have hrefused : ∀ {answer : Except AuthError AccessTokenClaims}, (∀ a, answer ≠ .ok a) → ¬ Signed w header claims signature →
        ((∃ a, answer = .ok a) ↔ Genuine w tenantId token (env.clock w.ticks) ∧
          ∃ record, carried w.store tenantId token = some record ∧ record.revokedAt = none) := by
      intro answer hanswer hsigned
      apply iff_of_false
      · rintro ⟨a,h⟩
        exact hanswer a h
      · rintro ⟨⟨header',claims',signature',decoded,hsegments',hs,-⟩,-⟩
        rw [hsegments] at hsegments'
        cases hsegments'
        exact hsigned hs
    cases hheader : decodeJwtSegment header with
    | none =>
      refine hrefused nofun ?_
      rintro ⟨decoded,key,bytes,h,-⟩
      rw [hheader] at h
      cases h
    | some decodedHeader =>
      have hkeys : (World.handle OAuthStore.perform env place call .signingKeys w).1 = w.keys := rfl
      dsimp only
      rw [Server.exec_bind_ok (Server.exec_perform _),hkeys]
      cases hkey : keyOf w.keys decodedHeader with
      | none =>
        refine hrefused nofun ?_
        rintro ⟨decoded,key,bytes,h,hk,-⟩
        obtain rfl := Option.some.inj (hheader.symm.trans h)
        rw [hkey] at hk
        cases hk
      | some key =>
        obtain ⟨verified,w',hexec,hstore,hticks,hverified⟩ :=
          exec_verifyJwsSignature env place call key (header ++ "." ++ claims)
          signature (World.handle OAuthStore.perform env place call .signingKeys w).2
        dsimp only
        rw [Server.exec_bind_ok hexec]
        cases verified with
        | false =>
          refine hrefused nofun ?_
          rintro ⟨decoded,key',bytes,h,hk,hrest⟩
          obtain rfl := Option.some.inj (hheader.symm.trans h)
          obtain rfl := Option.some.inj (hkey.symm.trans hk)
          exact Bool.false_ne_true (hverified.mpr ⟨bytes,hrest⟩)
        | true =>
          obtain ⟨bytes,hbytes⟩ := hverified.mp rfl
          have hsigned : Signed w header claims signature := ⟨decodedHeader,key,bytes,hheader,hkey,hbytes⟩
          rw [if_pos rfl]
          cases hclaims : decodeJwtSegment claims with
          | none =>
            apply iff_of_false
            · rintro ⟨answer,h⟩
              cases h
            · rintro ⟨⟨header',claims',signature',decoded,hsegments',-,hd,-⟩,-⟩
              rw [hsegments] at hsegments'
              cases hsegments'
              rw [hclaims] at hd
              cases hd
          | some decoded =>
            dsimp only
            rw [verifyClaims_ok_iff,hstore,hticks]
            have hjti := jtiOf_eq hsegments hheader hclaims
            constructor
            · rintro ⟨hforce,jti,hj,record,hget,hlive⟩
              refine ⟨⟨header,claims,signature,decoded,hsegments,hsigned,hclaims,hforce⟩,record,?_,hlive⟩
              rw [carried,hjti,hj]
              exact hget
            · rintro ⟨⟨header',claims',signature',decoded',hsegments',-,hd,hforce⟩,record,hcarried,hlive⟩
              rw [hsegments] at hsegments'
              cases hsegments'
              obtain rfl := Option.some.inj (hclaims.symm.trans hd)
              obtain ⟨jti,hj,hget⟩ := Option.bind_eq_some_iff.mp hcarried
              rw [hjti] at hj
              exact ⟨hforce,jti,hj,record,hget,hlive⟩
  · rename_i hnot
    apply iff_of_false
    · rintro ⟨answer,h⟩
      cases h
    · rintro ⟨⟨header,claims,signature,decoded,hsegments,-⟩,-⟩
      exact hnot header claims signature hsegments

theorem accepts_iff {token : String} {w : World OAuthStore} : Accepts o env tenantId token w ↔
    Genuine w tenantId token (env.clock w.ticks) ∧ ∃ record, carried w.store tenantId token = some record ∧
      record.revokedAt = none := by
  have hcall : (World.call OAuthStore.perform env o (.verifyAccessToken tenantId token) w).1 =
      (Server.exec (World.handle OAuthStore.perform env 0 (.verifyAccessToken tenantId token))
        (verifyAccessToken tenantId token) w).1.map
        .claims := by
    change (Server.exec _ (Answer.claims <$> verifyAccessToken tenantId token) w).1 = _
    rw [Server.exec_map]
  have hanswers : (∃ answer, (Server.exec (World.handle OAuthStore.perform env 0 (.verifyAccessToken tenantId token))
      (verifyAccessToken tenantId token) w).1 = .ok answer) ↔ _ := verifyAccessToken_ok_iff
  rw [Accepts,hcall,← hanswers]
  constructor
  · rintro ⟨claims,h⟩
    cases hexec : (Server.exec (World.handle OAuthStore.perform env 0 (.verifyAccessToken tenantId token))
        (verifyAccessToken tenantId token) w).1 with
    | ok answer => exact ⟨answer,rfl⟩
    | error e =>
      rw [hexec] at h
      cases h
  · rintro ⟨answer,h⟩
    rw [h]
    exact ⟨answer,rfl⟩

end Verifying

section Introspecting
variable {o} {input : TokenInput} {w : World OAuthStore} {client : OAuthClientRecord}

variable {env} in
theorem exec_isActive {place : ℕ} {call : Call} {record : OAuthTokenRecord} :
    Server.exec (World.handle OAuthStore.perform env place call) (isActive record) w =
      (.ok (decide (record.revokedAt = none ∧ env.clock w.ticks < record.expiresAt)),
        if record.revokedAt.isSome then w else (World.handle OAuthStore.perform env place call .now w).2) := by
  unfold isActive
  cases hrevoked : record.revokedAt with
  | none =>
    simp only [true_and]
    rfl
  | some time => rfl

theorem introspects_iff (hclient : authenticated o w.store input = some client)
    (hvalue : ∀ token ∈ w.store.tokens.rows, token.tenantId = input.tenantId →
      token.tokenHash ≠ some (o.hashToken input.token)) :
    Introspects o env input w ↔ ∃ record, carried w.store input.tenantId input.token = some record ∧ record.revokedAt = none ∧
      env.clock w.ticks < record.expiresAt := by
  have hchecked : checkClient o input.clientSecret (w.store.clients.get (scopedKey input.tenantId input.clientId)) =
    .ok client := by
    unfold authenticated at hclient
    cases hc : checkClient o input.clientSecret (w.store.clients.get (scopedKey input.tenantId input.clientId)) with
    | ok client' =>
      rw [hc] at hclient
      rw [Option.some.inj hclient]
    | error e =>
      rw [hc] at hclient
      cases hclient
  have hnone : (w.store.tokens.rows.find? fun token => token.tenantId = input.tenantId && token.tokenHash =
    some (o.hashToken input.token)) =
      none := by
    rw [List.find?_eq_none]
    intro token hmem h
    rw [Bool.and_eq_true] at h
    exact hvalue token hmem (of_decide_eq_true h.1) (of_decide_eq_true h.2)
  have hcall : (World.call OAuthStore.perform env o (.introspect input) w).1 =
      (Server.exec (World.handle OAuthStore.perform env 0 (.introspect input)) (introspect o input) w).1.map .introspection := by
    change (Server.exec _ (Answer.introspection <$> introspect o input) w).1 = _
    rw [Server.exec_map]
  rw [Introspects,hcall,introspect,Server.exec_bind_ok (exec_authenticateClient.trans (by rw [hchecked])),
    Server.exec_bind_ok exec_findTokenByHash,hnone]
  dsimp only
  cases hjti : jtiOf input.token with
  | none =>
    apply iff_of_false
    · rintro ⟨answer,h,hactive⟩
      obtain rfl := Answer.introspection.inj (Except.ok.inj h)
      cases hactive
    · rintro ⟨record,hcarried,-⟩
      rw [carried,hjti] at hcarried
      cases hcarried
  | some jti =>
    have hcarried : carried w.store input.tenantId input.token = w.store.tokens.get (scopedKey input.tenantId jti) := by
      rw [carried,hjti]
      rfl
    have hfind : ∀ w : World OAuthStore, Server.exec (World.handle OAuthStore.perform env 0 (.introspect input))
        (Server.store (.findTokenById input.tenantId jti)) w =
        (.ok (w.store.tokens.get (scopedKey input.tenantId jti)),{w with trace :=
          ⟨.introspect input,.store (.findTokenById input.tenantId jti),
          .ok (w.store.tokens.get (scopedKey input.tenantId jti))⟩ :: w.trace}) := fun _ => rfl
    dsimp only
    rw [Server.exec_bind_ok (hfind _),hcarried]
    dsimp only
    cases hget : w.store.tokens.get (scopedKey input.tenantId jti) with
    | none =>
      apply iff_of_false
      · rintro ⟨answer,h,hactive⟩
        obtain rfl := Answer.introspection.inj (Except.ok.inj h)
        cases hactive
      · rintro ⟨record,h,-⟩
        cases h
    | some record =>
      dsimp only
      rw [Server.exec_bind_ok exec_isActive]
      dsimp only
      by_cases hlives : record.revokedAt = none ∧ env.clock w.ticks < record.expiresAt
      · rw [decide_eq_true hlives]
        exact iff_of_true ⟨_,rfl,rfl⟩ ⟨record,rfl,hlives⟩
      · rw [decide_eq_false hlives]
        apply iff_of_false
        · rintro ⟨answer,h,hactive⟩
          obtain rfl := Answer.introspection.inj (Except.ok.inj h)
          cases hactive
        · rintro ⟨record',h,hlives'⟩
          obtain rfl := Option.some.inj h
          exact hlives hlives'

/-- `introspect` reads the record of a token, and `verifyAccessToken` the signature and the claims too. At a token that
  names a record
that is not revoked they agree just if the record has not run out where, and only where, the token is
genuine; at any other they do. -/
theorem token_views (hclient : authenticated o w.store input = some client)
    (hvalue : ∀ token ∈ w.store.tokens.rows, token.tenantId = input.tenantId →
      token.tokenHash ≠ some (o.hashToken input.token)) :
    (Introspects o env input w ↔ ∃ record, carried w.store input.tenantId input.token = some record ∧ record.revokedAt = none ∧
      env.clock w.ticks < record.expiresAt) ∧
    (Accepts o env input.tenantId input.token w ↔ Genuine w input.tenantId input.token (env.clock w.ticks) ∧
      ∃ record, carried w.store input.tenantId input.token = some record ∧ record.revokedAt = none) ∧
    ((Introspects o env input w ↔ Accepts o env input.tenantId input.token w) ↔
      ∀ record, carried w.store input.tenantId input.token = some record → record.revokedAt = none →
        (env.clock w.ticks < record.expiresAt ↔ Genuine w input.tenantId input.token (env.clock w.ticks))) := by
  have hintrospects := introspects_iff env hclient hvalue
  refine ⟨hintrospects,accepts_iff,?_⟩
  rw [hintrospects,accepts_iff]
  constructor
  · intro h record hcarried hlive
    constructor
    · intro hearly
      exact (h.mp ⟨record,hcarried,hlive,hearly⟩).1
    · intro hgenuine
      obtain ⟨record',hcarried',-,hearly⟩ := h.mpr ⟨hgenuine,record,hcarried,hlive⟩
      obtain rfl := Option.some.inj (hcarried.symm.trans hcarried')
      exact hearly
  · intro h
    constructor
    · rintro ⟨record,hcarried,hlive,hearly⟩
      exact ⟨(h record hcarried hlive).mp hearly,record,hcarried,hlive⟩
    · rintro ⟨hgenuine,record,hcarried,hlive⟩
      exact ⟨record,hcarried,hlive,(h record hcarried hlive).mpr hgenuine⟩

end Introspecting

section Segments

theorem decodeJwtSegment_encode (ms : List (String × Json)) : decodeJwtSegment (encodeJwtSegment (.obj ms)) =
    some (.obj ms) := by
  have hhead : ∃ cs, (Json.obj ms).write = '\x7b' :: cs := by
    cases ms with
    | nil => exact ⟨_,rfl⟩
    | cons m ms => exact ⟨_,rfl⟩
  obtain ⟨cs,hcs⟩ := hhead
  unfold decodeJwtSegment encodeJwtSegment
  rw [decodeBase64Url_encodeBase64Url,Option.bind_some,Json.stringify,String.toList_ofList,hcs,
    decodeText_encodeUtf8 (by decide),← hcs,
    ← Json.stringify,Json.parse_stringify]

theorem not_mem_segment (value : Json) : '.' ∉ (encodeJwtSegment value).toList := (not_mem_encodeBase64Url _).1

theorem segmentsOf_three {header claims signature : String} (hheader : '.' ∉ header.toList) (hclaims : '.' ∉ claims.toList)
    (hsignature : '.' ∉ signature.toList) : segmentsOf (header ++ "." ++ claims ++ "." ++ signature) =
      [header,claims,signature] := by
  have htext : (header ++ "." ++ claims ++ "." ++ signature).toList =
      header.toList ++ [claims.toList,signature.toList].flatMap fun other => '.' :: other := by
    simp
  have hplain : ∀ {text : List Char}, '.' ∉ text → ∀ c ∈ text, (c == '.') = false := by
    intro text h c hc
    rw [beq_eq_false_iff_ne]
    rintro rfl
    exact h hc
  rw [segmentsOf,htext,List.splitOn,splitOnP_pieces (by decide) (hplain hheader)]
  · simp
  · intro other hother
    simp only [List.mem_cons,List.not_mem_nil,or_false] at hother
    rcases hother with rfl | rfl
    · exact hplain hclaims
    · exact hplain hsignature

end Segments

section Forged

/-- An access token of the client `as_1`, which ends at 1000. -/
def accessToken : OAuthTokenRecord :=
  ⟨"acme","token-1",.access,"as_1",some "user-1",["read"],none,some "family-1",1000,none,none,0⟩

def publicClient : OAuthClientRecord := ⟨"acme","as_1",none,.public_,none,["https://app.example/cb"],["read"],0⟩

def accessTokenStore : OAuthStore :=
  {OAuthStore.empty with clients := OAuthStore.empty.clients.set publicClient, tokens := OAuthStore.empty.tokens.set accessToken}

/-- `alg: "RS256"`, `typ: "JWT"`, `kid: "key"`, and the claims of the record at its issue. -/
def signedHeader : String := "eyJhbGciOiJSUzI1NiIsInR5cCI6IkpXVCIsImtpZCI6ImtleSJ9"
def signedClaims : String := "eyJqdGkiOiJ0b2tlbi0xIiwiZXhwIjoxLCJ0aWQiOiJhY21lIn0"
def signedToken : String := signedHeader ++ "." ++ signedClaims ++ ".AQ"

/-- `alg: "none"` and the `jti` of the record, with no signature. -/
def forgedToken : String := "eyJhbGciOiJub25lIn0.eyJqdGkiOiJ0b2tlbi0xIn0."

def issuedWorld : World OAuthStore := ⟨accessTokenStore,0,fun _ => 0,⟨⟨"key",0⟩,none⟩,
    [(0,signedHeader ++ "." ++ signedClaims,[1])],[]⟩

def stillClock : Environment := ⟨fun _ => 0,fun _ _ _ => "",fun _ _ => []⟩

def inspected (token : String) : TokenInput := ⟨"acme","as_1",none,token⟩

theorem rows_accessTokenStore : accessTokenStore.tokens.rows = [accessToken] := rfl

theorem get_accessToken : accessTokenStore.tokens.get (scopedKey "acme" "token-1") = some accessToken := by
  have hmem : accessToken ∈ accessTokenStore.tokens.rows := by
    rw [rows_accessTokenStore]
    exact List.mem_singleton.mpr rfl
  exact Records.get_key hmem

theorem authenticated_inspected (token : String) : authenticated plainOptions issuedWorld.store (inspected token) =
    some publicClient := by
  have hmem : publicClient ∈ accessTokenStore.clients.rows := List.mem_singleton.mpr rfl
  have hget : accessTokenStore.clients.get (scopedKey "acme" "as_1") = some publicClient := Records.get_key hmem
  change (checkClient plainOptions none (accessTokenStore.clients.get (scopedKey "acme" "as_1"))).toOption = _
  rw [hget]
  rfl

theorem hashless_inspected (token : String) : ∀ record ∈ issuedWorld.store.tokens.rows, record.tenantId =
    (inspected token).tenantId →
    record.tokenHash ≠ some (plainOptions.hashToken (inspected token).token) := by
  intro record hmem _
  change record ∈ accessTokenStore.tokens.rows at hmem
  rw [rows_accessTokenStore,List.mem_singleton] at hmem
  rw [hmem]
  exact nofun

theorem tokens_encode :
    signedHeader = encodeJwtSegment (.obj [("alg",.str "RS256"),("typ",.str "JWT"),("kid",.str "key")]) ∧
    signedClaims = encodeJwtSegment (.obj [("jti",.str "token-1"),("exp",.num (.ofInt 1)),("tid",.str "acme")]) ∧
    forgedToken = encodeJwtSegment (.obj [("alg",.str "none")]) ++ "." ++
      encodeJwtSegment (.obj [("jti",.str "token-1")]) ++ "." ++ "" ∧
    decodeBase64Url "AQ" = some [1] := by
  decide +kernel

theorem segmentsOf_signed : segmentsOf signedToken = [signedHeader,signedClaims,"AQ"] := by
  have htoken : signedToken = signedHeader ++ "." ++ signedClaims ++ "." ++ "AQ" := by
    have hlast : ".AQ" = "." ++ "AQ" := rfl
    rw [signedToken,hlast,← String.append_assoc]
  rw [htoken,tokens_encode.1,tokens_encode.2.1]
  exact segmentsOf_three (not_mem_segment _) (not_mem_segment _) (by simp)

theorem segmentsOf_forged : segmentsOf forgedToken =
    [encodeJwtSegment (.obj [("alg",.str "none")]),encodeJwtSegment (.obj [("jti",.str "token-1")]),""] := by
  rw [tokens_encode.2.2.1]
  exact segmentsOf_three (not_mem_segment _) (not_mem_segment _) (by simp)

theorem decode_signedHeader : decodeJwtSegment signedHeader =
    some (.obj [("alg",.str "RS256"),("typ",.str "JWT"),("kid",.str "key")]) := by
  rw [tokens_encode.1]
  exact decodeJwtSegment_encode _

theorem decode_signedClaims : decodeJwtSegment signedClaims =
    some (.obj [("jti",.str "token-1"),("exp",.num (.ofInt 1)),("tid",.str "acme")]) := by
  rw [tokens_encode.2.1]
  exact decodeJwtSegment_encode _

theorem genuine_signed : Genuine issuedWorld "acme" signedToken 0 := by
  refine ⟨signedHeader,signedClaims,"AQ",_,segmentsOf_signed,?_,decode_signedClaims,?_⟩
  · refine ⟨_,⟨"key",0⟩,[1],decode_signedHeader,?_,tokens_encode.2.2.2,List.cons_ne_nil _ _,List.mem_singleton.mpr rfl⟩
    simp [keyOf,Json.get,issuedWorld]
  · refine ⟨⟨.ofInt 1,?_,?_⟩,?_⟩
    · simp [Json.get]
    · rw [Decimal.ofInt,Decimal.value_ofScaled]
      norm_num [stillClock]
    · simp [Json.get,Json.asString]

theorem carried_signed : carried accessTokenStore "acme" signedToken = some accessToken := by
  have hjti : jtiOf signedToken = some "token-1" := by
    rw [jtiOf_eq segmentsOf_signed decode_signedHeader decode_signedClaims]
    simp [Json.get,Json.asString]
  rw [carried,hjti]
  exact get_accessToken

theorem carried_forged : carried accessTokenStore "acme" forgedToken = some accessToken := by
  have hjti : jtiOf forgedToken = some "token-1" := by
    rw [jtiOf_eq segmentsOf_forged (decodeJwtSegment_encode _) (decodeJwtSegment_encode _)]
    simp [Json.get,Json.asString]
  rw [carried,hjti]
  exact get_accessToken

theorem token_views_signed : Introspects plainOptions stillClock (inspected signedToken) issuedWorld ∧
    Accepts plainOptions stillClock "acme" signedToken issuedWorld := by
  obtain ⟨hintrospects,haccepts,-⟩ :=
    token_views stillClock (authenticated_inspected signedToken) (hashless_inspected signedToken)
  constructor
  · exact hintrospects.mpr ⟨accessToken,carried_signed,rfl,by decide⟩
  · exact haccepts.mpr ⟨genuine_signed,accessToken,carried_signed,rfl⟩

/-- The unsigned token is active to one view, and no token to the other. -/
theorem forged_views : ¬ ∀ (o : ServerOptions) (env : Environment) (input : TokenInput) (w : World OAuthStore)
    (client : OAuthClientRecord),
    authenticated o w.store input = some client →
    (∀ token ∈ w.store.tokens.rows, token.tenantId = input.tenantId → token.tokenHash ≠ some (o.hashToken input.token)) →
    (Introspects o env input w ↔ Accepts o env input.tenantId input.token w) := by
  intro h
  have hviews := h plainOptions stillClock (inspected forgedToken) issuedWorld publicClient (authenticated_inspected _)
    (hashless_inspected _)
  have hactive := (introspects_iff stillClock (authenticated_inspected forgedToken) (hashless_inspected forgedToken)).mpr
    ⟨accessToken,carried_forged,rfl,by decide⟩
  obtain ⟨⟨header,claims,signature,decoded,hsegments,⟨decodedHeader,key,bytes,hheader,hkey,-⟩,-⟩,-⟩ :=
    accepts_iff.mp (hviews.mp hactive)
  change segmentsOf forgedToken = _ at hsegments
  rw [segmentsOf_forged] at hsegments
  obtain ⟨rfl,-⟩ := List.cons.inj hsegments
  rw [decodeJwtSegment_encode] at hheader
  obtain rfl := Option.some.inj hheader
  cases hkey

end Forged

end StructureAi.Auth

import StructureAi.Auth.SingleUse

/-! # Families of refresh tokens

The tokens that come from one code are a family, and at rest one refresh token of it at most is live.
Between, a family may have more: then a call is in flight that will sweep it, since it lost its rotation
or its fresh token is gone. What is swept stays so: no call mints for a family that has been swept, but
calls that sweep it again.
-/
namespace StructureAi.Auth
open StructureAi.Foundation Program

section Sources
variable {env : Environment} {henv : FreshTokens env} {o : ServerOptions} {s s' : OAuthPool} {turn : Turn Call SigningKeys}
  {i : ℕ} {f : Running OAuthOp OAuthOp.Reply Call (Except AuthError Answer)} {call : Call} {past : List OAuthAnswered}
  {tenantId familyId : String}

def InFamily (tenantId familyId : String) (token : OAuthTokenRecord) : Prop :=
    token.tenantId = tenantId ∧ token.familyId = some familyId

theorem Ages.inFamily {old new : OAuthTokenRecord} (h : Ages old new) : InFamily tenantId familyId new ↔
    InFamily tenantId familyId old := by
  unfold InFamily
  rw [h.tenant,h.family]

/-- A family goes back to the call that drew its id, which puts the first refresh token before any other call puts one. -/
def Rooted (s : OAuthPool) (token : OAuthTokenRecord) : Prop :=
  ∃ call past, s.Was call past ∧ (∃ familyId ∈ drawn past, token.familyId = some familyId) ∧
    (token ∈ minted past ∨ ∃ first ∈ minted past, first.kind = .refresh)

def AllRooted (s : OAuthPool) : Prop := ∀ call past, s.Was call past → ∀ token ∈ minted past, Rooted s token

theorem Known.found (h : Known henv o s) (hw : s.Was call past) {tokenHash : String} {record : OAuthTokenRecord}
    (hin : stored (.findTokenByHash tenantId tokenHash) (some record) ∈ past) :
    Holds (stock s) record ∧ record.tenantId = tenantId := by
  obtain ⟨hholds,hfound,-⟩ := h.stocked.seen call past hw _ hin
  exact ⟨hholds,hfound.1⟩

theorem Known.put (h : Known henv o s) {token : OAuthTokenRecord} (hholds : Holds (stock s) token) :
    ∃ call past, s.Was call past ∧ ∃ put ∈ minted past, put.kind = token.kind ∧ put.tenantId = token.tenantId ∧
      put.familyId = token.familyId ∧ ∃ familyId, token.familyId = some familyId := by
  obtain ⟨kept,hkept,hages⟩ := hholds
  obtain ⟨call,past,hwas,put,hput,hold⟩ := h.stocked.came kept hkept
  obtain ⟨earlier,-,hmints,-⟩ := minted_asked (h.accounted.ruled.lawful call past hwas) hput
  have hfamily : put.familyId = token.familyId := hold.family.symm.trans hages.family
  refine ⟨call,past,hwas,put,hput,hold.kind.symm.trans hages.kind,hold.tenant.symm.trans hages.tenant,hfamily,?_⟩
  rw [← hfamily]
  cases hmints with
  | exchange input client code familyId exchanges family carries => exact ⟨familyId,carries.family⟩
  | refresh input client record renews carries => exact ⟨familyOf record,carries.family⟩

theorem Known.presented (h : Known henv o s) (hw : s.Was call past) {input : RefreshInput} {client : OAuthClientRecord}
    {record : OAuthTokenRecord} (hpresents : Presents o call past input client record) :
    Holds (stock s) record ∧ InFamily input.tenantId (familyOf record) record := by
  obtain ⟨hholds,htenant⟩ := h.found hw hpresents.found
  obtain ⟨-,-,-,put,-,-,-,-,familyId,hfamily⟩ := h.put hholds
  refine ⟨hholds,htenant,?_⟩
  rw [familyOf,hfamily]
  rfl

theorem Rooted.step {token : OAuthTokenRecord} (h : Rooted s token) (hs : (oauthService OAuthStore.perform env o).step s turn =
    some s') :
    Rooted s' token := by
  obtain ⟨call,past,hwas,⟨familyId,hdrawn,hfamily⟩,hfirst⟩ := h
  obtain ⟨past',hwas',hsuffix⟩ := Service.was_mono hs hwas
  have hminted := (hsuffix.filterMap fun a => putOf a.op).subset
  exact ⟨call,past',hwas',⟨familyId,(drawn_mono hsuffix).subset hdrawn,hfamily⟩,
    hfirst.imp (fun hin => hminted hin) fun ⟨first,hin,hkind⟩ => ⟨first,hminted hin,hkind⟩⟩

theorem Rooted.minted (hrooted : AllRooted s) (h : Known henv o s) (hf : s.fibers i = some f) {token : OAuthTokenRecord}
    (hop : f.op = .store (.putToken token)) (hs : (oauthService OAuthStore.perform env o).step s (.resume i) = some s') :
      Rooted s' token := by
  have hself : s.Was f.call f.past := Or.inl ⟨i,f,hf,rfl,rfl⟩
  have hrests := h.accounted.ruled.asks hf
  rw [hop] at hrests
  cases hrests.1 with
  | exchange input client code familyId exchanges family carries =>
    obtain rfl := step_resume hf hs
    refine ⟨f.call,_,Pool.place_was,⟨familyId,?_,carries.family⟩,Or.inl ?_⟩
    · exact (drawn_mono (List.suffix_cons _ _)).subset family
    · exact List.mem_filterMap.mpr ⟨_,List.mem_cons_self,putOf_eq_some.mpr hop⟩
  | refresh input client record renews carries =>
    obtain ⟨hholds,-,hfamily⟩ := h.presented hself renews.presents
    obtain ⟨call,past,hwas,put,hput,hkind,-,hsame,-⟩ := h.put hholds
    obtain ⟨root,rootPast,hroot,⟨familyId,hdrawn,hrootFamily⟩,hfirst⟩ := (hrooted call past hwas put hput).step hs
    refine ⟨root,rootPast,hroot,⟨familyId,hdrawn,?_⟩,Or.inr ?_⟩
    · rw [carries.family,← hfamily,← hsame,hrootFamily]
    · rcases hfirst with hin | hfirst
      · exact ⟨put,hin,hkind.trans renews.presents.kind⟩
      · exact hfirst

theorem AllRooted.step (hrooted : AllRooted s) (h : Known henv o s) (hs : (oauthService OAuthStore.perform env o).step s turn =
    some s') :
    AllRooted s' := by
  intro call past hwas token hin
  rcases Service.was_step hs hwas with rfl | hold | ⟨i,f,rfl,hf,rfl,rfl⟩
  · cases hin
  · exact (hrooted call past hold token hin).step hs
  · obtain ⟨a,ha,hput⟩ := List.mem_filterMap.mp hin
    rcases List.mem_cons.mp ha with rfl | ha
    · exact Rooted.minted hrooted h hf (putOf_eq_some.mp hput) hs
    · exact (hrooted _ _ (Or.inl ⟨i,f,hf,rfl,rfl⟩) token (List.mem_filterMap.mpr ⟨a,ha,hput⟩)).step hs

theorem AllRooted.first (hrooted : AllRooted s) (h : Known henv o s) (hf : s.fibers i = some f) {token : OAuthTokenRecord}
    (hop : f.op = .store (.putToken token)) (hdrawn : familyId ∈ drawn f.past) {record : OAuthTokenRecord}
    (hholds : Holds (stock s) record) (hfamily : record.familyId = some familyId) : record.kind ≠ .refresh := by
  intro hkind
  have hself : s.Was f.call f.past := Or.inl ⟨i,f,hf,rfl,rfl⟩
  obtain ⟨call,past,hwas,put,hput,hputKind,-,hputFamily,-⟩ := h.put hholds
  obtain ⟨root,rootPast,hroot,⟨familyId',hdrawn',hrootFamily⟩,hfirst⟩ := hrooted call past hwas put hput
  obtain rfl : familyId' = familyId := Option.some.inj (hrootFamily.symm.trans (hputFamily.trans hfamily))
  obtain ⟨-,rfl⟩ := drawn_same h.draws hroot hself hdrawn' hdrawn
  -- a refresh token of the family would be the exchange's own, which it has yet to put
  have hnone : ∀ first ∈ minted f.past, first.kind ≠ .refresh := by
    intro first hin hrefresh
    have hrests := h.accounted.ruled.asks hf
    rw [hop] at hrests
    cases hnew : token.kind with
    | access =>
      rw [(hrests.2.access hnew).1] at hin
      cases hin
    | refresh =>
      obtain ⟨⟨access,hminted,haccess⟩,-⟩ := hrests.2.refresh hnew
      rw [hminted,List.mem_singleton] at hin
      subst hin
      rw [haccess] at hrefresh
      cases hrefresh
  rcases hfirst with hin | ⟨first,hin,hrefresh⟩
  · exact hnone put hin (hputKind.trans hkind)
  · exact hnone first hin hrefresh

/-- What a sweep of a call left behind is gone. -/
def SweptGone (s : OAuthPool) : Prop :=
  ∀ call past, s.Was call past → swept past = true → ∀ token ∈ minted past, Gone (stock s) token.key

theorem isSweep_eq_true {op : OAuthOp} (h : isSweep op = true) : ∃ tenantId familyId now, op =
    .store (.revokeFamily tenantId familyId now) := by
  unfold isSweep at h
  split at h
  · exact ⟨_,_,_,rfl⟩
  · cases h

theorem swept_family (hf : s.fibers i = some f) {now : ℤ} (hop : f.op = .store (.revokeFamily tenantId familyId now))
    (hs : (oauthService OAuthStore.perform env o).step s (.resume i) = some s') {kept : OAuthTokenRecord}
      (hin : kept ∈ (stock s').rows)
    (hfamily : InFamily tenantId familyId kept) : kept.revokedAt.isSome = true := by
  rw [step_resume hf hs,stock,Service.resumed_world,hop] at hin
  exact sweep_revoked hin hfamily.1 hfamily.2

theorem Known.minted_family (h : Known henv o s) (hw : s.Was call past) {input : RefreshInput} {client : OAuthClientRecord}
    {record : OAuthTokenRecord} (hpresents : Presents o call past input client record) {token : OAuthTokenRecord}
      (hin : token ∈ minted past) :
    record.revokedAt = none ∧ InFamily input.tenantId (familyOf record) token := by
  have hlawful := h.accounted.ruled.lawful call past hw
  obtain ⟨earlier,hs,hmints,-⟩ := minted_asked hlawful hin
  cases hmints with
  | exchange input' client' code familyId exchanges family carries =>
    have hcall := exchanges.call.symm.trans hpresents.call
    cases hcall
  | refresh input' client' record' renews carries =>
    obtain ⟨rfl,rfl⟩ := (renews.presents.mono hs).same hlawful hpresents
    exact ⟨renews.live,carries.tenant,carries.family⟩

theorem SweptGone.step (hswept : SweptGone s) (h : Known henv o s) (hs : (oauthService OAuthStore.perform env o).step s turn =
    some s') :
    SweptGone s' := by
  obtain ⟨h',hstays⟩ := h.step hs
  intro call past hwas hsweep token hin
  rcases Service.was_step hs hwas with rfl | hold | ⟨i,f,rfl,hf,rfl,rfl⟩
  · cases hin
  · exact (hswept call past hold hsweep token hin).step hstays
  · have hself : s.Was f.call f.past := Or.inl ⟨i,f,hf,rfl,rfl⟩
    by_cases hnow : isSweep f.op = true
    · obtain ⟨tenantId,familyId,now,hop⟩ := isSweep_eq_true hnow
      have hrests := h.accounted.ruled.asks hf
      rw [hop] at hrests
      obtain ⟨input,client,record,hpresents,rfl,rfl,-⟩ := hrests
      have hpresents' := hpresents.mono (List.suffix_cons ⟨f.op,
        ((oauthService OAuthStore.perform env o).handle i f.call f.op s.world).1⟩ f.past)
      obtain ⟨kept,hkept,hages⟩ := h'.stocked.holds _ _ hwas token hin
      have hfamily := (h'.minted_family hwas hpresents' hin).2
      exact ⟨kept,hkept,hages.key,swept_family hf hop hs hkept (hages.inFamily.mpr hfamily)⟩
    · rw [Bool.not_eq_true] at hnow
      have hearlier : swept f.past = true := by
        unfold swept at hsweep ⊢
        rwa [List.any_cons,hnow,Bool.false_or] at hsweep
      obtain ⟨a,ha,hput⟩ := List.mem_filterMap.mp hin
      rcases List.mem_cons.mp ha with rfl | ha
      · have hrests := h.accounted.ruled.asks hf
        have hop : f.op = .store (.putToken token) := putOf_eq_some.mp hput
        rw [hop] at hrests
        rw [hrests.2.pending.2] at hearlier
        cases hearlier
      · exact (hswept _ _ hself hearlier token (List.mem_filterMap.mpr ⟨a,ha,hput⟩)).step hstays

end Sources

section Verdicts
variable {env : Environment} {henv : FreshTokens env} {o : ServerOptions} {s s' : OAuthPool} {turn : Turn Call SigningKeys}
  {i : ℕ} {f : Running OAuthOp OAuthOp.Reply Call (Except AuthError Answer)} {call : Call} {past : List OAuthAnswered}
  {tenantId familyId : String}

/-- A refresh that is bound to sweep its family: it has not won and what it presented is gone, or its fresh token is gone. -/
structure Sentenced (o : ServerOptions) (tokens : Records OAuthTokenRecord.key) (tenantId familyId : String) (call : Call)
    (past : List OAuthAnswered) : Prop where
  pending : swept past = false
  loses : ∃ input client record, Renews o call past input client record ∧ input.tenantId = tenantId ∧
    familyOf record = familyId ∧
    ((won past = false ∧ Gone tokens record.key) ∨ ∃ fresh ∈ minted past, fresh.kind = .refresh ∧ Gone tokens fresh.key)

/-- A call in flight is bound to sweep the family. -/
def Doomed (o : ServerOptions) (s : OAuthPool) (tenantId familyId : String) : Prop :=
  ∃ i f, s.fibers i = some f ∧ Sentenced o (stock s) tenantId familyId f.call f.past

abbrev answerTo (env : Environment) (o : ServerOptions) (s : OAuthPool) (i : ℕ)
    (f : Running OAuthOp OAuthOp.Reply Call (Except AuthError Answer)) : OAuthAnswered :=
  ⟨f.op,((oauthService OAuthStore.perform env o).handle i f.call f.op s.world).1⟩

theorem answerTo_op {op : OAuthOp} (hop : f.op = op) :
    answerTo env o s i f = ⟨op,(World.handle OAuthStore.perform env i f.call op s.world).1⟩ := by
  unfold answerTo
  rw [hop]
  rfl

theorem isWon_eq_true {a : OAuthAnswered} (h : isWon a = true) :
    ∃ tenantId tokenId now, a = stored (.rotateToken tenantId tokenId now) true := by
  unfold isWon at h
  split at h
  · exact ⟨_,_,_,rfl⟩
  · cases h

theorem Known.rotates (h : Known henv o s) (hf : s.fibers i = some f)
    (hs : (oauthService OAuthStore.perform env o).step s (.resume i) = some s') (hwon : isWon (answerTo env o s i f) = true) :
    ∃ input client record, Renews o f.call f.past input client record ∧ won f.past = false ∧ swept f.past = false ∧
      isSweep f.op = false ∧ ¬ Gone (stock s) record.key ∧ Gone (stock s') record.key := by
  obtain ⟨tenantId,tokenId,now,ha⟩ := isWon_eq_true hwon
  have hop : f.op = .store (.rotateToken tenantId tokenId now) := congrArg Answered.op ha
  have hrests := h.accounted.ruled.asks hf
  rw [hop] at hrests
  obtain ⟨input,client,record,hrenews,rfl,rfl,hnot,hpending,-⟩ := hrests
  obtain ⟨-,htenant,-⟩ := h.presented (Or.inl ⟨i,f,hf,rfl,rfl⟩) hrenews.presents
  rw [answerTo_op hop] at ha
  have hlanded : (OAuthStore.perform (.rotateToken input.tenantId record.tokenId now) s.world.store).1 = .ok true :=
    eq_of_heq (Answered.mk.inj ha).2
  have hkey : record.key = scopedKey input.tenantId record.tokenId := by rw [OAuthTokenRecord.key,htenant]
  obtain ⟨hlive,hgone⟩ := lands_live hlanded
  refine ⟨input,client,record,hrenews,hnot,hpending,by rw [hop]; rfl,hkey ▸ hlive,?_⟩
  rw [step_resume hf hs,stock,Service.resumed_world,hop,hkey]
  exact hgone

theorem found_stands (hf : s.fibers i = some f) (hs : (oauthService OAuthStore.perform env o).step s (.resume i) = some s')
    {tokenId : String} {record : OAuthTokenRecord} (ha : answerTo env o s i f = stored (.findTokenById tenantId tokenId)
      (some record)) :
    record ∈ (stock s').rows ∧ record.key = scopedKey tenantId tokenId := by
  have hop : f.op = .store (.findTokenById tenantId tokenId) := congrArg Answered.op ha
  rw [answerTo_op hop] at ha
  have hget : (stock s).get (scopedKey tenantId tokenId) = some record := Except.ok.inj (eq_of_heq (Answered.mk.inj ha).2)
  rw [step_resume hf hs,stock,Service.resumed_world,hop]
  exact Records.get_eq_some_iff.mp hget

theorem Sentenced.doomed (h : Known henv o s) (hf : s.fibers i = some f)
    (hs : (oauthService OAuthStore.perform env o).step s (.resume i) = some s')
    (hsentenced : Sentenced o (stock s') tenantId familyId f.call (answerTo env o s i f :: f.past)) :
      Doomed o s' tenantId familyId := by
  obtain ⟨h',-⟩ := h.step hs
  have hwas : s'.Was f.call (answerTo env o s i f :: f.past) := by
    rw [step_resume hf hs]
    exact Pool.place_was
  obtain ⟨hpending,input,client,record,hrenews,htenant,hfamily,hlost⟩ := hsentenced
  rcases hwas with ⟨j,g,hg,hcall,hpast⟩ | ⟨e,he,hcall,hpast⟩
  · refine ⟨j,g,hg,?_⟩
    rw [hcall,hpast]
    exact ⟨hpending,input,client,record,hrenews,htenant,hfamily,hlost⟩
  · exfalso
    have hlawful := h'.accounted.ruled.lawful _ _ (Or.inr ⟨e,he,hcall,hpast⟩)
    have hworks := h'.stocked.works _ _ (Or.inr ⟨e,he,hcall,hpast⟩)
    have hcleared := (h'.accounted.ruled.ended e he).2
    rw [hcall,hpast] at hcleared
    rcases hcleared with hfailed | hclears
    · rw [hworks] at hfailed
      cases hfailed
    · rcases (hclears input client record hrenews.presents).renewed hrenews.live with hswept | ⟨hwon,fresh,kept,earlier,hfresh,
        hkind,hlast,hlive⟩
      · rw [hpending] at hswept
        cases hswept
      · obtain ⟨hkept,hkey⟩ := found_stands hf hs (List.cons.inj hlast).1
        have hfreshKey : fresh.key = scopedKey input.tenantId fresh.tokenId := by
          rw [OAuthTokenRecord.key,(h'.minted_family (Or.inr ⟨e,he,hcall,hpast⟩) hrenews.presents hfresh).2.1]
        rcases hlost with ⟨hnot,-⟩ | ⟨other,hother,hrefresh,hgone⟩
        · rw [hwon] at hnot
          cases hnot
        · obtain rfl := minted_fresh hlawful hfresh hother hkind hrefresh
          have hrevoked := hgone.revoked hkept (hkey.trans hfreshKey.symm)
          rw [hlive] at hrevoked
          cases hrevoked

theorem fiber_next (hs : (oauthService OAuthStore.perform env o).step s turn = some s') (hf : s.fibers i = some f) :
    turn = .resume i ∨ s'.fibers i = some f := by
  rcases Service.step_cases hs with ⟨j,call,rfl,hj,rfl⟩ | ⟨j,g,rfl,-,rfl⟩ | ⟨keys,rfl,rfl⟩
  · right
    have hne : i ≠ j := by
      rintro rfl
      rw [hj] at hf
      cases hf
    exact (Pool.place_of_ne hne).trans hf
  · by_cases hne : i = j
    · exact Or.inl (congrArg Turn.resume hne.symm)
    · exact Or.inr ((Pool.place_of_ne hne).trans hf)
  · exact Or.inr hf

def Revoked (s : OAuthPool) (tenantId familyId : String) : Prop :=
  ∀ kept ∈ (stock s).rows, InFamily tenantId familyId kept → kept.revokedAt.isSome = true

theorem Doomed.step (hdoomed : Doomed o s tenantId familyId) (h : Known henv o s)
    (hs : (oauthService OAuthStore.perform env o).step s turn = some s') : Doomed o s' tenantId familyId ∨
      Revoked s' tenantId familyId := by
  obtain ⟨-,hstays⟩ := h.step hs
  obtain ⟨i,f,hf,hpending,input,client,record,hrenews,htenant,hfamily,hlost⟩ := hdoomed
  rcases fiber_next hs hf with rfl | hf'
  · have hself : s.Was f.call f.past := Or.inl ⟨i,f,hf,rfl,rfl⟩
    have hsuffix : f.past <:+ answerTo env o s i f :: f.past := List.suffix_cons _ _
    by_cases hsweep : isSweep f.op = true
    · right
      obtain ⟨tenantId',familyId',now,hop⟩ := isSweep_eq_true hsweep
      have hrests := h.accounted.ruled.asks hf
      rw [hop] at hrests
      obtain ⟨input',client',record',hpresents,rfl,rfl,-⟩ := hrests
      obtain ⟨rfl,rfl⟩ := hpresents.same (h.accounted.ruled.lawful _ _ hself) hrenews.presents
      subst htenant
      subst hfamily
      exact fun kept hkept hin => swept_family hf hop hs hkept hin
    · left
      rw [Bool.not_eq_true] at hsweep
      refine Sentenced.doomed h hf hs ⟨?_,input,client,record,hrenews.mono hsuffix,htenant,hfamily,?_⟩
      · exact Bool.or_eq_false_iff.mpr ⟨hsweep,hpending⟩
      · rcases hlost with ⟨hnot,hgone⟩ | ⟨fresh,hfresh,hkind,hgone⟩
        · left
          refine ⟨Bool.or_eq_false_iff.mpr ⟨?_,hnot⟩,hgone.step hstays⟩
          rw [← Bool.not_eq_true]
          intro hwon
          obtain ⟨input',client',record',hrenews',-,-,-,hlive,-⟩ := h.rotates hf hs hwon
          obtain ⟨-,rfl⟩ := hrenews'.presents.same (h.accounted.ruled.lawful _ _ hself) hrenews.presents
          exact hlive hgone
        · exact Or.inr ⟨fresh,(hsuffix.filterMap _).subset hfresh,hkind,hgone.step hstays⟩
  · left
    refine ⟨i,f,hf',hpending,input,client,record,hrenews,htenant,hfamily,?_⟩
    exact hlost.imp (fun hlost => ⟨hlost.1,hlost.2.step hstays⟩) fun ⟨fresh,hfresh,hkind,hgone⟩ =>
      ⟨fresh,hfresh,hkind,hgone.step hstays⟩

end Verdicts

section Settling
variable {env : Environment} {henv : FreshTokens env} {o : ServerOptions} {s s' : OAuthPool} {turn : Turn Call SigningKeys}
  {i : ℕ} {f : Running OAuthOp OAuthOp.Reply Call (Except AuthError Answer)} {call : Call} {past : List OAuthAnswered}
  {tenantId familyId : String} {allow : OAuthPool → Turn Call SigningKeys → Prop} {keys : SigningKeys}

/-- The token was put by a refresh that has not rotated what it presented. -/
def Pending (s : OAuthPool) (key : String) : Prop :=
  ∃ call past, s.Was call past ∧ (∃ input, call = .refresh input) ∧ won past = false ∧ ∃ token ∈ minted past, token.key = key

/-- A refresh token of the family that is live, and takes the place of another if it has one to take. -/
structure Leads (s : OAuthPool) (tenantId familyId : String) (token : OAuthTokenRecord) : Prop where
  stored : token ∈ (stock s).rows
  family : InFamily tenantId familyId token
  kind : token.kind = .refresh
  live : token.revokedAt = none
  settled : ¬ Pending s token.key

def FamilySwept (s : OAuthPool) (tenantId familyId : String) : Prop :=
  ∃ call past, s.Was call past ∧ ∃ now revoked, stored (.revokeFamily tenantId familyId now) revoked ∈ past

structure Settled (s : OAuthPool) (tenantId familyId : String) : Prop where
  one : ∀ a b, Leads s tenantId familyId a → Leads s tenantId familyId b → a = b
  swept : FamilySwept s tenantId familyId → Revoked s tenantId familyId

theorem settled_of_revoked (h : Revoked s tenantId familyId) : Settled s tenantId familyId := by
  refine ⟨?_,fun _ => h⟩
  intro a b ha _
  have hrevoked := h a ha.stored ha.family
  rw [ha.live] at hrevoked
  cases hrevoked

theorem FamilySwept.presented (hswept : FamilySwept s tenantId familyId) (h : Known henv o s) :
    ∃ record, Holds (stock s) record ∧ InFamily tenantId familyId record ∧ record.kind = .refresh := by
  obtain ⟨call,past,hwas,now,revoked,hin⟩ := hswept
  obtain ⟨earlier,hs,input,client,record,hpresents,rfl,rfl,-⟩ := (h.accounted.ruled.lawful call past hwas).asked hin
  obtain ⟨hholds,hfamily⟩ := h.presented hwas (hpresents.mono ((List.suffix_cons _ _).trans hs))
  exact ⟨record,hholds,hfamily,hpresents.kind⟩

/-- A token that is put for a settled family is its first, or takes over from a token that is live. -/
inductive Arrives (o : ServerOptions) (s : OAuthPool) (tenantId familyId : String)
    (f : Running OAuthOp OAuthOp.Reply Call (Except AuthError Answer)) : Prop where
  | first (none : ∀ record, Holds (stock s) record → InFamily tenantId familyId record → record.kind ≠ .refresh)
  | renewal (input : RefreshInput) (call : f.call = .refresh input) (record : OAuthTokenRecord)
      (stored : record ∈ (stock s).rows)
    (family : InFamily tenantId familyId record) (live : record.revokedAt = none)

theorem arrives (h : Known henv o s) (hrooted : AllRooted s) (hnot : ¬ Doomed o s tenantId familyId) (hf : s.fibers i = some f)
    {token : OAuthTokenRecord} (hop : f.op = .store (.putToken token)) (hfamily : InFamily tenantId familyId token) :
    Arrives o s tenantId familyId f := by
  have hself : s.Was f.call f.past := Or.inl ⟨i,f,hf,rfl,rfl⟩
  have hrests := h.accounted.ruled.asks hf
  rw [hop] at hrests
  cases hrests.1 with
  | exchange input client code familyId' exchanges family carries =>
    obtain rfl := Option.some.inj (carries.family.symm.trans hfamily.2)
    exact .first fun record hholds hin => hrooted.first h hf hop family hholds hin.2
  | refresh input client record renews carries =>
    obtain ⟨⟨kept,hkept,hages⟩,hin⟩ := h.presented hself renews.presents
    obtain rfl : familyOf record = familyId := Option.some.inj (carries.family.symm.trans hfamily.2)
    obtain rfl : input.tenantId = tenantId := carries.tenant.symm.trans hfamily.1
    refine .renewal input renews.presents.call kept hkept (hages.inFamily.mpr hin) ?_
    -- were it gone, the call would be bound to sweep
    by_contra hrevoked
    exact hnot ⟨i,f,hf,hrests.2.pending.2,input,client,record,renews,rfl,rfl,
      Or.inl ⟨hrests.2.pending.1,kept,hkept,hages.key,Option.isSome_iff_ne_none.mpr hrevoked⟩⟩

theorem revoked_step (h : Known henv o s) (hrooted : AllRooted s) (hnot : ¬ Doomed o s tenantId familyId)
    (hsettled : FamilySwept s tenantId familyId → Revoked s tenantId familyId)
    (hs : (oauthService OAuthStore.perform env o).step s turn = some s') (hswept : FamilySwept s' tenantId familyId) :
    Revoked s' tenantId familyId := by
  have hcases : FamilySwept s tenantId familyId ∨ Revoked s' tenantId familyId := by
    obtain ⟨call,past,hwas,now,revoked,hin⟩ := hswept
    rcases Service.was_step hs hwas with rfl | hold | ⟨i,f,rfl,hf,rfl,rfl⟩
    · cases hin
    · exact Or.inl ⟨call,past,hold,now,revoked,hin⟩
    · rcases List.mem_cons.mp hin with ha | hin
      · have hop : f.op = .store (.revokeFamily tenantId familyId now) := (congrArg Answered.op ha).symm
        exact Or.inr fun kept hkept hfamily => swept_family hf hop hs hkept hfamily
      · exact Or.inl ⟨f.call,f.past,Or.inl ⟨i,f,hf,rfl,rfl⟩,now,revoked,hin⟩
  rcases hcases with hbefore | hnow
  · intro kept hkept hfamily
    have hrevoked := hsettled hbefore
    rcases stock_came hs hkept with ⟨i,f,rfl,hf,hop⟩ | ⟨token,htoken,hages,-⟩
    · exfalso
      cases arrives h hrooted hnot hf hop hfamily with
      | first none =>
        obtain ⟨record,hholds,hin,hkind⟩ := hbefore.presented h
        exact none record hholds hin hkind
      | renewal input call record stored family live =>
        have hgone := hrevoked record stored family
        rw [live] at hgone
        cases hgone
    · exact hages.revoked (hrevoked token htoken (hages.inFamily.mp hfamily))
  · exact hnow

/-- How a token comes to lead its family. -/
inductive Led (o : ServerOptions) (s : OAuthPool) (tenantId familyId : String) (turn : Turn Call SigningKeys) (env : Environment)
    (token : OAuthTokenRecord) : Prop where
  | before (old : OAuthTokenRecord) (leads : Leads s tenantId familyId old) (key : old.key = token.key)
  | first (i : ℕ) (f : Running OAuthOp OAuthOp.Reply Call (Except AuthError Answer)) (turns : turn = .resume i)
      (at_ : s.fibers i = some f)
    (puts : f.op = .store (.putToken token)) (none : ∀ record, Holds (stock s) record → InFamily tenantId familyId record →
      record.kind ≠ .refresh)
  | won (i : ℕ) (f : Running OAuthOp OAuthOp.Reply Call (Except AuthError Answer)) (turns : turn = .resume i)
      (at_ : s.fibers i = some f)
    (wins : isWon (answerTo env o s i f) = true) (fresh : OAuthTokenRecord) (minted : fresh ∈ minted f.past)
      (key : fresh.key = token.key)
    (kind : fresh.kind = .refresh) (family : InFamily tenantId familyId fresh)

theorem isWon_put {token : OAuthTokenRecord} (hop : f.op = .store (.putToken token)) : isWon (answerTo env o s i f) = false := by
  rw [answerTo_op hop]
  rfl

theorem Leads.led (h : Known henv o s) (hrooted : AllRooted s) (hnot : ¬ Doomed o s tenantId familyId)
    (hs : (oauthService OAuthStore.perform env o).step s turn = some s') {token : OAuthTokenRecord}
      (hleads : Leads s' tenantId familyId token) :
    Led o s tenantId familyId turn env token := by
  rcases stock_came hs hleads.stored with ⟨i,f,rfl,hf,hop⟩ | ⟨old,hold,hages,-⟩
  · cases arrives h hrooted hnot hf hop hleads.family with
    | first none => exact .first i f rfl hf hop none
    | renewal input call record stored family live =>
      exfalso
      have hrests := h.accounted.ruled.asks hf
      rw [hop] at hrests
      obtain rfl := step_resume hf hs
      refine hleads.settled ⟨f.call,_,Pool.place_was,⟨input,call⟩,?_,token,?_,rfl⟩
      · exact Bool.or_eq_false_iff.mpr ⟨isWon_put hop,hrests.2.pending.1⟩
      · exact List.mem_filterMap.mpr ⟨_,List.mem_cons_self,putOf_eq_some.mpr hop⟩
  · have hlive : old.revokedAt = none := by
      by_contra hrevoked
      have hgone := hages.revoked (Option.isSome_iff_ne_none.mpr hrevoked)
      rw [hleads.live] at hgone
      cases hgone
    by_cases hpending : Pending s old.key
    · obtain ⟨call,past,hwas,hrefresh,hnotWon,fresh,hfresh,hkey⟩ := hpending
      rcases Service.was_next hs hwas with hstill | ⟨i,f,rfl,hf,rfl,rfl⟩
      · exact absurd ⟨call,past,hstill,hrefresh,hnotWon,fresh,hfresh,hkey.trans hages.key.symm⟩ hleads.settled
      · have hageing := (h.stocked.holds _ _ hwas fresh hfresh).ages hold hkey.symm
        refine .won i f rfl hf ?_ fresh hfresh (hkey.trans hages.key.symm) ?_
          (hageing.inFamily.mp (hages.inFamily.mp hleads.family))
        · by_contra hnotNow
          rw [Bool.not_eq_true] at hnotNow
          obtain rfl := step_resume hf hs
          refine hleads.settled ⟨f.call,_,Pool.place_was,hrefresh,Bool.or_eq_false_iff.mpr ⟨hnotNow,hnotWon⟩,fresh,?_,
            hkey.trans hages.key.symm⟩
          exact ((List.suffix_cons _ _).filterMap _).subset hfresh
        · exact hageing.kind.symm.trans (hages.kind.symm.trans hleads.kind)
    · exact .before old ⟨hold,hages.inFamily.mp hleads.family,hages.kind.symm.trans hleads.kind,hlive,hpending⟩ hages.key.symm

/-- A refresh that put a token presented one that was live then, and is of the family. -/
theorem Known.renewed (h : Known henv o s) (hw : s.Was call past) {input : RefreshInput} (hcall : call = .refresh input)
    {token : OAuthTokenRecord} (hin : token ∈ minted past) : ∃ client record, Renews o call past input client record ∧
      InFamily input.tenantId (familyOf record) token := by
  obtain ⟨earlier,hs,hmints,-⟩ := minted_asked (h.accounted.ruled.lawful call past hw) hin
  cases hmints with
  | exchange input' client code familyId exchanges family carries =>
    rw [exchanges.call] at hcall
    cases hcall
  | refresh input' client record renews carries =>
    obtain rfl : input' = input := Call.refresh.inj (renews.presents.call.symm.trans hcall)
    exact ⟨client,record,renews.mono hs,carries.tenant,carries.family⟩

theorem Known.left (h : Known henv o s) (hsweptGone : SweptGone s)
    {e : Ended OAuthOp OAuthOp.Reply Call (Except AuthError Answer)}
    (he : e ∈ s.ended) {input : RefreshInput} (hcall : e.call = .refresh input) (hnot : won e.past = false)
      {token : OAuthTokenRecord}
    (hin : token ∈ minted e.past) : Gone (stock s) token.key := by
  have hwas : s.Was e.call e.past := Or.inr ⟨e,he,rfl,rfl⟩
  obtain ⟨client,record,hrenews,-⟩ := h.renewed hwas hcall hin
  rcases (h.accounted.ruled.ended e he).2 with hfailed | hclears
  · rw [h.stocked.works _ _ hwas] at hfailed
    cases hfailed
  · rcases (hclears input client record hrenews.presents).renewed hrenews.live with hswept | ⟨hwon,-⟩
    · exact hsweptGone _ _ hwas hswept token hin
    · rw [hnot] at hwon
      cases hwon

theorem Leads.taken (h : Known henv o s) (hsweptGone : SweptGone s)
    (hone : ∀ a b, Leads s tenantId familyId a → Leads s tenantId familyId b → a = b) (hnot : ¬ Doomed o s' tenantId familyId)
    (hf : s.fibers i = some f) (hs : (oauthService OAuthStore.perform env o).step s (.resume i) = some s')
    (hwon : isWon (answerTo env o s i f) = true) {fresh : OAuthTokenRecord} (hfresh : fresh ∈ minted f.past)
    (hfamily : InFamily tenantId familyId fresh) {old : OAuthTokenRecord} (hold : Leads s tenantId familyId old) :
      Gone (stock s') old.key := by
  have hself : s.Was f.call f.past := Or.inl ⟨i,f,hf,rfl,rfl⟩
  obtain ⟨-,hstays⟩ := h.step hs
  obtain ⟨input,client,record,hrenews,-,-,hnotSweep,hlive,hgone⟩ := h.rotates hf hs hwon
  obtain ⟨-,hfreshFamily⟩ := h.minted_family hself hrenews.presents hfresh
  obtain rfl : input.tenantId = tenantId := hfreshFamily.1.symm.trans hfamily.1
  obtain rfl : familyOf record = familyId := Option.some.inj (hfreshFamily.2.symm.trans hfamily.2)
  obtain ⟨⟨kept,hkept,hages⟩,hrecordFamily⟩ := h.presented hself hrenews.presents
  have hkeptLive : kept.revokedAt = none := by
    by_contra hrevoked
    exact hlive ⟨kept,hkept,hages.key,Option.isSome_iff_ne_none.mpr hrevoked⟩
  by_cases hpending : Pending s kept.key
  · -- another refresh put what is rotated now: it has lost its fresh token
    exfalso
    obtain ⟨call,past,hwas,⟨input',hcall⟩,hnotWon,other,hother,hkey⟩ := hpending
    have hgone' : Gone (stock s') other.key := by
      rw [hkey,hages.key]
      exact hgone
    have hstill : ¬ Gone (stock s) other.key := by
      rw [hkey,hages.key]
      exact hlive
    have hotherAges := (h.stocked.holds _ _ hwas other hother).ages hkept hkey.symm
    have hotherFamily := hotherAges.inFamily.mp (hages.inFamily.mpr hrecordFamily)
    have hotherKind : other.kind = .refresh := hotherAges.kind.symm.trans (hages.kind.trans hrenews.presents.kind)
    obtain ⟨client',record',hrenews',hfamily'⟩ := h.renewed hwas hcall hother
    have htenant : input'.tenantId = input.tenantId := hfamily'.1.symm.trans hotherFamily.1
    have hsame : familyOf record' = familyOf record := Option.some.inj (hfamily'.2.symm.trans hotherFamily.2)
    have hpendingSweep : swept past = false := by
      rw [← Bool.not_eq_true]
      exact fun hswept => hstill (hsweptGone _ _ hwas hswept other hother)
    rcases hwas with ⟨j,g,hg,rfl,rfl⟩ | ⟨e,he,rfl,rfl⟩
    · rcases fiber_next hs hg with hturn | hg'
      · obtain rfl : i = j := Turn.resume.inj hturn
        obtain rfl := Option.some.inj (hf.symm.trans hg)
        have hsuffix : f.past <:+ answerTo env o s i f :: f.past := List.suffix_cons _ _
        exact hnot (Sentenced.doomed h hf hs ⟨Bool.or_eq_false_iff.mpr ⟨hnotSweep,hpendingSweep⟩,input',client',record',
          hrenews'.mono hsuffix,htenant,hsame,Or.inr ⟨other,(hsuffix.filterMap _).subset hother,hotherKind,hgone'⟩⟩)
      · exact hnot ⟨j,g,hg',hpendingSweep,input',client',record',hrenews',htenant,hsame,Or.inr ⟨other,hother,hotherKind,hgone'⟩⟩
    · exact hstill (h.left hsweptGone he hcall hnotWon hother)
  · have hkeptLeads : Leads s input.tenantId (familyOf record) kept :=
      ⟨hkept,hages.inFamily.mpr hrecordFamily,hages.kind.trans hrenews.presents.kind,hkeptLive,hpending⟩
    rw [hone old kept hold hkeptLeads,hages.key]
    exact hgone

theorem Settled.step (hsettled : Settled s tenantId familyId) (h : Known henv o s) (hrooted : AllRooted s)
    (hsweptGone : SweptGone s)
    (hnot : ¬ Doomed o s tenantId familyId) (hnot' : ¬ Doomed o s' tenantId familyId)
    (hs : (oauthService OAuthStore.perform env o).step s turn = some s') : Settled s' tenantId familyId := by
  refine ⟨?_,revoked_step h hrooted hnot hsettled.swept hs⟩
  have hkeys : ∀ {a b : OAuthTokenRecord}, Leads s' tenantId familyId a → Leads s' tenantId familyId b → a.key = b.key → a = b :=
    fun ha hb hkey => Records.eq_of_key ha.stored hb.stored hkey
  have hover : ∀ {a b old : OAuthTokenRecord} {i : ℕ} {f : Running OAuthOp OAuthOp.Reply Call (Except AuthError Answer)}
      {fresh : OAuthTokenRecord}, Leads s' tenantId familyId a → Leads s tenantId familyId old → old.key = a.key →
        turn = .resume i →
        s.fibers i = some f → isWon (answerTo env o s i f) = true → fresh ∈ minted f.past → InFamily tenantId familyId fresh →
          a = b := by
    rintro a b old i f fresh ha hold hkey rfl hf hwon hfresh hfamily
    have hgone := Leads.taken h hsweptGone hsettled.one hnot' hf hs hwon hfresh hfamily hold
    have hrevoked := hgone.revoked ha.stored hkey.symm
    rw [ha.live] at hrevoked
    cases hrevoked
  intro a b ha hb
  cases Leads.led h hrooted hnot hs ha with
  | before old leads key =>
    cases Leads.led h hrooted hnot hs hb with
    | before old' leads' key' =>
      rw [hsettled.one old old' leads leads'] at key
      exact hkeys ha hb (key.symm.trans key')
    | first i f turns at_ puts none => exact absurd leads.kind (none old ⟨old,leads.stored,Ages.refl old⟩ leads.family)
    | won i f turns at_ wins fresh minted key' kind family => exact hover ha leads key turns at_ wins minted family
  | first i f turns at_ puts none =>
    cases Leads.led h hrooted hnot hs hb with
    | before old leads key => exact absurd leads.kind (none old ⟨old,leads.stored,Ages.refl old⟩ leads.family)
    | first j g turns' at_' puts' none' =>
      obtain rfl := Turn.resume.inj (turns.symm.trans turns')
      obtain rfl := Option.some.inj (at_.symm.trans at_')
      have hput := puts.symm.trans puts'
      cases hput
      rfl
    | won j g turns' at_' wins fresh minted key kind family =>
      obtain rfl := Turn.resume.inj (turns.symm.trans turns')
      obtain rfl := Option.some.inj (at_.symm.trans at_')
      rw [isWon_put puts] at wins
      cases wins
  | won i f turns at_ wins fresh minted key kind family =>
    cases Leads.led h hrooted hnot hs hb with
    | before old leads key' => exact (hover hb leads key' turns at_ wins minted family : b = a).symm
    | first j g turns' at_' puts none =>
      obtain rfl := Turn.resume.inj (turns.symm.trans turns')
      obtain rfl := Option.some.inj (at_.symm.trans at_')
      rw [isWon_put puts] at wins
      cases wins
    | won j g turns' at_' wins' fresh' minted' key' kind' family' =>
      obtain rfl := Turn.resume.inj (turns.symm.trans turns')
      obtain rfl := Option.some.inj (at_.symm.trans at_')
      obtain rfl := minted_fresh (h.accounted.ruled.lawful _ _ (Or.inl ⟨i,f,at_,rfl,rfl⟩)) minted minted' kind kind'
      exact hkeys ha hb (key.symm.trans key')

/-- Every family is settled, or doomed to be swept. -/
structure FamiliesKept (henv : FreshTokens env) (o : ServerOptions) (s : OAuthPool) : Prop where
  known : Known henv o s
  rooted : AllRooted s
  swept : SweptGone s
  families : ∀ tenantId familyId, Doomed o s tenantId familyId ∨ Settled s tenantId familyId

theorem familiesKept_start : FamiliesKept henv o (.start (newOAuthWorld keys)) := by
  have hnone : ∀ {call : Call} {past : List OAuthAnswered}, ¬ (.start (newOAuthWorld keys) : OAuthPool).Was call past := by
    rintro call past (⟨i,f,hf,-⟩ | ⟨e,he,-⟩)
    · cases hf
    · cases he
  refine ⟨known_start,fun call past hwas => absurd hwas hnone,fun call past hwas => absurd hwas hnone,fun tenantId familyId =>
    Or.inr ?_⟩
  apply settled_of_revoked
  intro kept hkept
  cases hkept

theorem FamiliesKept.step (h : FamiliesKept henv o s) (hs : (oauthService OAuthStore.perform env o).step s turn = some s') :
    FamiliesKept henv o s' := by
  refine ⟨(h.known.step hs).1,h.rooted.step h.known hs,h.swept.step h.known hs,?_⟩
  intro tenantId familyId
  by_cases hdoomed : Doomed o s tenantId familyId
  · exact (hdoomed.step h.known hs).imp_right settled_of_revoked
  · by_cases hdoomed' : Doomed o s' tenantId familyId
    · exact Or.inl hdoomed'
    · exact Or.inr (((h.families tenantId familyId).resolve_left hdoomed).step h.known h.rooted h.swept hdoomed hdoomed' hs)

theorem familiesKept (henv : FreshTokens env) (hr : (oauthSystem o env keys).Reaches allow s) : FamiliesKept henv o s := by
  apply hr.invariant (FamiliesKept henv o) familiesKept_start
  intro a turn b h _ hs
  exact h.step hs

end Settling

section Rest
variable {env : Environment} {henv : FreshTokens env} {o : ServerOptions} {s s' : OAuthPool} {turn : Turn Call SigningKeys}
  {i : ℕ} {f : Running OAuthOp OAuthOp.Reply Call (Except AuthError Answer)} {call : Call} {past : List OAuthAnswered}
  {tenantId familyId : String} {allow : OAuthPool → Turn Call SigningKeys → Prop} {keys : SigningKeys}

/-- A client presented, before it ran out, a refresh token of the family that had been rotated away. -/
def Reused (o : ServerOptions) (s : OAuthPool) (tenantId familyId : String) : Prop :=
  ∃ call past input client record, s.Was call past ∧ Presents o call past input client record ∧
    InFamily tenantId familyId record ∧
    record.revokedAt.isSome = true ∧ record.rotatedAt.isSome = true

theorem Known.swept_of_presented (h : Known henv o s) (hw : s.Was call past) {input : RefreshInput} {client : OAuthClientRecord}
    {record : OAuthTokenRecord} (hpresents : Presents o call past input client record) (hswept : swept past = true) :
    FamilySwept s input.tenantId (familyOf record) := by
  have hlawful := h.accounted.ruled.lawful call past hw
  obtain ⟨a,ha,hsweep⟩ := List.any_eq_true.mp hswept
  have hworks := List.any_eq_false.mp (h.stocked.works call past hw) a ha
  obtain ⟨earlier,hs,hrests⟩ := hlawful.asked ha
  obtain ⟨op,reply⟩ := a
  obtain ⟨tenantId,familyId,now,rfl⟩ := isSweep_eq_true hsweep
  obtain ⟨input',client',record',hpresents',rfl,rfl,-⟩ := hrests
  obtain ⟨rfl,rfl⟩ := (hpresents'.mono ((List.suffix_cons _ _).trans hs)).same hlawful hpresents
  cases reply with
  | error e => exact absurd rfl hworks
  | ok revoked => exact ⟨call,past,hw,now,revoked,ha⟩

theorem FamiliesKept.reused_swept (h : FamiliesKept henv o s) (hquiet : s.Quiet) (hreused : Reused o s tenantId familyId) :
    FamilySwept s tenantId familyId := by
  obtain ⟨call,past,input,client,record,hwas,hpresents,hfamily,hrevoked,hrotated⟩ := hreused
  obtain ⟨-,hown⟩ := h.known.presented hwas hpresents
  obtain rfl : input.tenantId = tenantId := hown.1.symm.trans hfamily.1
  obtain rfl : familyOf record = familyId := Option.some.inj (hown.2.symm.trans hfamily.2)
  apply h.known.swept_of_presented hwas hpresents
  rcases hwas with ⟨i,f,hf,-⟩ | ⟨e,he,rfl,rfl⟩
  · rw [hquiet i] at hf
    cases hf
  · rcases (h.known.accounted.ruled.ended e he).2 with hfailed | hclears
    · rw [h.known.stocked.works _ _ (Or.inr ⟨e,he,rfl,rfl⟩)] at hfailed
      cases hfailed
    · exact (hclears input client record hpresents).reused hrevoked hrotated

theorem FamiliesKept.settled (h : FamiliesKept henv o s) (hquiet : s.Quiet) : Settled s tenantId familyId := by
  rcases h.families tenantId familyId with ⟨i,f,hf,-⟩ | hsettled
  · rw [hquiet i] at hf
    cases hf
  · exact hsettled

theorem FamiliesKept.not_pending (h : FamiliesKept henv o s) (hquiet : s.Quiet) {token : OAuthTokenRecord}
    (hin : token ∈ (stock s).rows)
    (hlive : token.revokedAt = none) : ¬ Pending s token.key := by
  rintro ⟨call,past,⟨i,f,hf,-⟩ | ⟨e,he,rfl,rfl⟩,⟨input,hcall⟩,hnot,other,hother,hkey⟩
  · rw [hquiet i] at hf
    cases hf
  · have hrevoked := (h.known.left h.swept he hcall hnot hother).revoked hin hkey.symm
    rw [hlive] at hrevoked
    cases hrevoked

/-- A family is swept, and no call in flight has found a token of it live. -/
structure Buried (s : OAuthPool) (tenantId familyId : String) : Prop where
  revoked : Revoked s tenantId familyId
  begun : ∃ record, Holds (stock s) record ∧ InFamily tenantId familyId record ∧ record.kind = .refresh
  found : ∀ i f, s.fibers i = some f → ∀ tenantId' tokenHash record,
    stored (.findTokenByHash tenantId' tokenHash) (some record) ∈ f.past → InFamily tenantId familyId record →
      record.revokedAt.isSome = true

theorem found_by_hash {tokenHash : String} {record : OAuthTokenRecord}
    (ha : answerTo env o s i f = stored (.findTokenByHash tenantId tokenHash) (some record)) : record ∈ (stock s).rows := by
  have hop : f.op = .store (.findTokenByHash tenantId tokenHash) := congrArg Answered.op ha
  rw [answerTo_op hop] at ha
  exact List.mem_of_find?_eq_some (Except.ok.inj (eq_of_heq (Answered.mk.inj ha).2))

theorem Buried.step (hburied : Buried s tenantId familyId) (h : Known henv o s) (hrooted : AllRooted s)
    (hs : (oauthService OAuthStore.perform env o).step s turn = some s') : Buried s' tenantId familyId := by
  obtain ⟨-,hstays⟩ := h.step hs
  obtain ⟨record,hholds,hfamily,hkind⟩ := hburied.begun
  refine ⟨?_,⟨record,hholds.step hstays,hfamily,hkind⟩,?_⟩
  · intro kept hkept hin
    rcases stock_came hs hkept with ⟨i,f,rfl,hf,hop⟩ | ⟨token,htoken,hages,-⟩
    · exfalso
      have hrests := h.accounted.ruled.asks hf
      rw [hop] at hrests
      cases hrests.1 with
      | exchange input client code familyId' exchanges family carries =>
        obtain rfl := Option.some.inj (carries.family.symm.trans hin.2)
        exact hrooted.first h hf hop family hholds hfamily.2 hkind
      | refresh input client other renews carries =>
        obtain ⟨-,hother⟩ := h.presented (Or.inl ⟨i,f,hf,rfl,rfl⟩) renews.presents
        have hsame : InFamily tenantId familyId other :=
          ⟨hother.1.trans (carries.tenant.symm.trans hin.1),hother.2.trans (carries.family.symm.trans hin.2)⟩
        have hrevoked := hburied.found i f hf _ _ other renews.presents.found hsame
        rw [renews.live] at hrevoked
        cases hrevoked
    · exact hages.revoked (hburied.revoked token htoken (hages.inFamily.mp hin))
  · intro j g hg tenantId' tokenHash other hfound hother
    rcases Service.step_cases hs with ⟨i,call,rfl,-,rfl⟩ | ⟨i,f,rfl,hf,rfl⟩ | ⟨keys,rfl,rfl⟩
    · rcases Pool.place_fibers hg with ⟨-,op,next,-,rfl⟩ | ⟨-,hold⟩
      · cases hfound
      · exact hburied.found j g hold _ _ other hfound hother
    · rcases Pool.place_fibers hg with ⟨-,op,next,-,rfl⟩ | ⟨-,hold⟩
      · rcases List.mem_cons.mp hfound with ha | hfound
        · exact hburied.revoked other (found_by_hash ha.symm) hother
        · exact hburied.found i f hf _ _ other hfound hother
      · exact hburied.found j g hold _ _ other hfound hother
    · exact hburied.found j g hg _ _ other hfound hother

/-- Whatever calls there were, in whatever order: at rest a family has one live refresh token at most, and once it was
swept, or a token of it was presented again after its rotation, none of its tokens is live then or ever after. -/
theorem families_at_rest (henv : FreshTokens env) (hr : (oauthSystem o env keys).Reaches allow s) (hquiet : s.Quiet)
    (tenantId familyId : String) :
    (∀ a ∈ s.world.store.tokens.rows, ∀ b ∈ s.world.store.tokens.rows, InFamily tenantId familyId a →
      InFamily tenantId familyId b →
      a.kind = .refresh → b.kind = .refresh → a.revokedAt = none → b.revokedAt = none → a = b) ∧
    (Reused o s tenantId familyId ∨ FamilySwept s tenantId familyId →
      ∀ s', (oauthSystem o env keys).Leads allow s s' → Revoked s' tenantId familyId) := by
  have h := familiesKept henv hr
  have hsettled : Settled s tenantId familyId := h.settled hquiet
  constructor
  · intro a ha b hb hfa hfb hka hkb hla hlb
    exact hsettled.one a b ⟨ha,hfa,hka,hla,h.not_pending hquiet ha hla⟩ ⟨hb,hfb,hkb,hlb,h.not_pending hquiet hb hlb⟩
  · intro hcases s' hleads
    have hswept : FamilySwept s tenantId familyId := hcases.elim (h.reused_swept hquiet) id
    have hburied : Buried s tenantId familyId := by
      refine ⟨hsettled.swept hswept,hswept.presented h.known,?_⟩
      intro i f hf
      rw [hquiet i] at hf
      cases hf
    apply (hleads.invariant (fun s => FamiliesKept henv o s ∧ Buried s tenantId familyId) ⟨h,hburied⟩ _).2.revoked
    rintro a turn b ⟨hkept,hburied⟩ _ hs
    exact ⟨hkept.step hs,hburied.step hkept.known hkept.rooted hs⟩

theorem quiet_replayed {s : OAuthPool} (hs : (oauthSystem plainOptions countingEnvironment serverKeys).run replayTurns =
    some s) : s.Quiet := by
  obtain ⟨t,ht,hends⟩ := Option.map_eq_some_iff.mp replayTurns_run
  obtain rfl := Option.some.inj (hs.symm.trans ht)
  simp only [Prod.mk.injEq,List.all_eq_true,List.mem_range,Option.isNone_iff_eq_none] at hends
  apply quiet_of_run _ hs hends.2.1
  intro i call hin
  simp [replayTurns,exchangeTurns,resumes] at hin
  omega

theorem families_at_rest_replayed : ∃ s, (oauthSystem plainOptions countingEnvironment serverKeys).run replayTurns = some s ∧
    (∀ a ∈ s.world.store.tokens.rows, ∀ b ∈ s.world.store.tokens.rows, InFamily "acme" "aaab" a → InFamily "acme" "aaab" b →
      a.kind = .refresh → b.kind = .refresh → a.revokedAt = none → b.revokedAt = none → a = b) ∧
    (Reused plainOptions s "acme" "aaab" ∨ FamilySwept s "acme" "aaab" →
      ∀ s', (oauthSystem plainOptions countingEnvironment serverKeys).Leads (fun _ _ => True) s s' →
        Revoked s' "acme" "aaab") := by
  obtain ⟨s,hs,-⟩ := Option.map_eq_some_iff.mp replayTurns_run
  exact ⟨s,hs,families_at_rest freshTokens_counting (System.run_reachable hs) (quiet_replayed hs) "acme" "aaab"⟩

end Rest
end StructureAi.Auth

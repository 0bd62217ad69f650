import StructureAi.Auth.SingleUse

/-! # Alarms over reused refresh tokens

An alarm is raised over a token that two calls presented: one of them had rotated it, and the sweep of
the other found a token to revoke. Clients that present each refresh token once raise none.
-/
namespace StructureAi.Auth
open StructureAi.Foundation Program

variable {env : Environment} {henv : FreshTokens env} {o : ServerOptions} {s s' : OAuthPool} {turn : Turn Call SigningKeys}
  {call : Call} {past past' : List OAuthAnswered} {allow : OAuthPool → Turn Call SigningKeys → Prop} {keys : SigningKeys}

/-- Whatever stands in the trace was answered to a call. -/
def TraceAnswered (s : OAuthPool) : Prop :=
  ∀ e ∈ s.world.trace, ∃ past, s.Was e.call past ∧ (⟨e.op,e.reply⟩ : OAuthAnswered) ∈ past

theorem TraceAnswered.step (h : TraceAnswered s) (hs : (oauthService OAuthStore.perform env o).step s turn = some s') :
    TraceAnswered s' := by
  have hold : ∀ e ∈ s.world.trace, ∃ past, s'.Was e.call past ∧ (⟨e.op,e.reply⟩ : OAuthAnswered) ∈ past := by
    intro e he
    obtain ⟨past,hwas,hin⟩ := h e he
    obtain ⟨past',hwas',hsuffix⟩ := Service.was_mono hs hwas
    exact ⟨past',hwas',hsuffix.subset hin⟩
  intro e he
  rcases Service.step_cases hs with ⟨i,call,rfl,-,rfl⟩ | ⟨i,f,rfl,hf,rfl⟩ | ⟨keys,rfl,rfl⟩
  · rw [Pool.place_world] at he
    exact hold e he
  · rw [Service.resumed_world] at he
    change e ∈ (World.handle OAuthStore.perform env i f.call f.op s.world).2.trace at he
    rw [handle_trace] at he
    rcases List.mem_cons.mp he with rfl | he
    · exact ⟨_,Pool.place_was,List.mem_cons_self⟩
    · exact hold e he
  · exact hold e he

theorem traceAnswered (hr : (oauthSystem o env keys).Reaches allow s) : TraceAnswered s := by
  apply hr.invariant TraceAnswered
  · intro e he
    cases he
  · intro a turn b h _ hs
    exact h.step hs

theorem won_of_swept (h : Lawful (Rests o call) past') (hs : past <:+ past') (hswept : swept past = true)
    (hwon : won past = false) :
    won past' = false := by
  induction past' with
  | nil => rfl
  | cons a later ih =>
    rcases List.suffix_cons_iff.mp hs with rfl | hlater
    · exact hwon
    · refine Bool.or_eq_false_iff.mpr ⟨?_,ih h.2 hlater⟩
      cases hnow : isWon a with
      | false => rfl
      | true =>
        have hrests := h.1
        unfold isWon at hnow
        split at hnow
        · obtain ⟨-,-,-,-,-,-,-,hnone,-⟩ := hrests
          obtain ⟨b,hb,hsweep⟩ := List.any_eq_true.mp hswept
          have hearlier : swept later = true := List.any_eq_true.mpr ⟨b,hlater.subset hb,hsweep⟩
          rw [hnone] at hearlier
          cases hearlier
        · cases hnow

/-- A call presented a token that another had rotated, and its sweep found one to revoke. -/
def Justified (o : ServerOptions) (s : OAuthPool) (call : Call) (event : AuthAuditEvent) : Prop :=
  ∃ past input client record, s.Was call past ∧ won past = false ∧ Presents o call past input client record ∧
    event = reuseEvent input record ∧
    (∃ now revoked, stored (.revokeFamily input.tenantId (familyOf record) now) revoked ∈ past ∧ 0 < revoked) ∧
    ∃ other past' input' client' record', s.Was other past' ∧ won past' = true ∧ Presents o other past' input' client' record' ∧
      record'.key = record.key

theorem Rotated.presented {key : String} (h : Rotated s key) (hknown : Known henv o s) :
    ∃ call past input client record, s.Was call past ∧ won past = true ∧ Presents o call past input client record ∧
      record.key = key := by
  obtain ⟨call,past,hwas,tenantId,tokenId,now,hin,rfl⟩ := h
  obtain ⟨earlier,hs,input,client,record,hrenews,rfl,rfl,-⟩ := (hknown.accounted.ruled.lawful call past hwas).asked hin
  have hpresents := hrenews.presents.mono ((List.suffix_cons _ _).trans hs)
  obtain ⟨-,⟨htenant,-⟩,-⟩ := hknown.stocked.seen call past hwas _ hpresents.found
  refine ⟨call,past,input,client,record,hwas,List.any_eq_true.mpr ⟨_,hin,rfl⟩,hpresents,?_⟩
  rw [OAuthTokenRecord.key,htenant]

theorem Alarms.justified {event : AuthAuditEvent} {input : RefreshInput} {client : OAuthClientRecord} {record : OAuthTokenRecord}
    (h : Alarms o call past event input client record) (hknown : Known henv o s) (hw : s.Was call past') (hs : past <:+ past') :
    Justified o s call event := by
  obtain ⟨now,revoked,hin,hfound⟩ := h.swept
  have hlawful := hknown.accounted.ruled.lawful call past' hw
  have hpresents := h.presents.mono hs
  obtain ⟨-,⟨htenant,-⟩,hrotated⟩ := hknown.stocked.seen call past' hw _ hpresents.found
  refine ⟨past',input,client,record,hw,won_of_swept hlawful hs (List.any_eq_true.mpr ⟨_,hin,rfl⟩) h.lost,hpresents,h.event,
    ⟨now,revoked,hs.subset hin,hfound⟩,?_⟩
  rcases h.rotated with hrecord | ⟨current,hcurrent,hcurrentRotated⟩
  · exact (hrotated hrecord).presented hknown
  · obtain ⟨-,hkey,hrotated'⟩ := hknown.stocked.seen call past' hw _ (hs.subset hcurrent)
    have hsame : current.key = record.key := by rw [hkey,OAuthTokenRecord.key,htenant]
    rw [← hsame]
    exact (hrotated' hcurrentRotated).presented hknown

theorem Known.justified (hknown : Known henv o s) (hanswered : TraceAnswered s) {e : Event} (he : e ∈ s.world.trace)
    {event : AuthAuditEvent} (hop : e.op = .audit event) : Justified o s e.call event := by
  obtain ⟨past,hwas,hin⟩ := hanswered e he
  obtain ⟨earlier,hs,hrests⟩ := (hknown.accounted.ruled.lawful _ _ hwas).asked hin
  have hasked : Rests o e.call earlier e.op := hrests
  rw [hop] at hasked
  obtain ⟨input,client,record,halarms⟩ := hasked
  exact halarms.justified hknown hwas ((List.suffix_cons _ _).trans hs)

def PresentedOnce (o : ServerOptions) (s : OAuthPool) : Prop :=
  ∀ call past input client record call' past' input' client' record', s.Was call past →
    Presents o call past input client record →
    s.Was call' past' → Presents o call' past' input' client' record' → record.key = record'.key → past = past'

/-- Whatever the calls and their order, every alarm is over a token that another call had rotated; where no two calls
present one refresh token, there is none. -/
theorem reuse_alarms (henv : FreshTokens env) (hr : (oauthSystem o env keys).Reaches allow s) :
    (∀ e ∈ s.world.trace, ∀ event, e.op = .audit event → Justified o s e.call event) ∧
      (PresentedOnce o s → ∀ e ∈ s.world.trace, ∀ event, e.op ≠ .audit event) := by
  have hknown := known_of_reaches henv hr
  refine ⟨fun e he event hop => hknown.justified (traceAnswered hr) he hop,?_⟩
  intro honce e he event hop
  obtain ⟨past,input,client,record,hwas,hlost,hpresents,-,-,other,past',input',client',record',hwas',hwon,hpresents',hkey⟩ :=
    hknown.justified (traceAnswered hr) he hop
  rw [← honce _ _ _ _ _ _ _ _ _ _ hwas hpresents hwas' hpresents' hkey.symm,hlost] at hwon
  cases hwon

theorem reuse_alarms_replayed : ∃ s, (oauthSystem plainOptions countingEnvironment serverKeys).run replayTurns = some s ∧
    (∀ e ∈ s.world.trace, ∀ event, e.op = .audit event → Justified plainOptions s e.call event) ∧
      (PresentedOnce plainOptions s → ∀ e ∈ s.world.trace, ∀ event, e.op ≠ .audit event) := by
  obtain ⟨s,hs,-⟩ := Option.map_eq_some_iff.mp replayTurns_run
  exact ⟨s,hs,reuse_alarms freshTokens_counting (System.run_reachable hs)⟩

end StructureAi.Auth

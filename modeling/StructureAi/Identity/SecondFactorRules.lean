import StructureAi.Identity.AuthRules
import StructureAi.Identity.SecondFactor

/-! # What the calls of the second factor rest on

Which answers of the same call an operation rests on that spends a code, counts a failure, elevates
a session or removes an enrolment, whatever the others do meanwhile. The rules are read off the
programs once, and the results about runs use nothing else of them.
-/
namespace StructureAi.Identity
open StructureAi.Foundation

/-- The session token and the code that are checked against a confirmed enrolment. -/
def TotpRequest.presents : TotpRequest → Option (String × String)
  | .verify sessionToken code => some (sessionToken,code)
  | .unenroll sessionToken code => some (sessionToken,code)
  | _ => none

namespace SecondFactor
open AuthProgram Totp Program

section Rules
variable (o : TotpOptions) (call : TotpCall) (past : List AuthAnswered)

def SessionOf (sessionToken userId : String) : Prop := ∃ now session user,
  stored (.findSession call.tenantId (o.auth.platform.hashToken sessionToken) now) (some session) ∈ past ∧
    stored (.findUserById call.tenantId session.userId) (some user) ∈ past ∧ user.id = userId

/-- The confirmed enrolment of the user was read, and a lock on it was seen to be over since. -/
structure Unlocked (userId : String) (enrollment : TotpRecord) : Prop where
  confirmed : enrollment.confirmed = true
  read : ∃ since before, past = since ++ stored (.findTotp call.tenantId userId) (some enrollment) :: before ∧
    ∀ lockedUntil ∈ enrollment.lockedUntil, ∃ at_, asked .now at_ ∈ since ∧ lockedUntil ≤ at_

/-- A code that is checked for the user whose session presents it. -/
structure Checks (userId code : String) (enrollment : TotpRecord) : Prop where
  presents : ∃ sessionToken, call.request.presents = some (sessionToken,code) ∧ SessionOf o call past sessionToken userId
  unlocked : Unlocked call past userId enrollment

/-- The code is that of a step, for the secret of an enrolment and the time of the call. -/
def OfStep (enrollment : TotpRecord) (code : String) (step : ℤ) : Prop := ∃ secretBase32 at_, asked .now at_ ∈ past ∧
  (sealer o).open_ enrollment.secretBase32 = .ok secretBase32 ∧ matchTotpCode o.totp secretBase32 code at_ = .ok (some step)

/-- The code is the recovery code behind an entry that was read. -/
structure OfEntry (userId code entry : String) : Prop where
  shape : isRecoveryCode code = true
  same : (sealer o).matchRecoveryCode o.platform.hashToken code entry = true
  read : ∃ enrollment, stored (.findTotp call.tenantId userId) (some enrollment) ∈ past ∧ entry ∈ enrollment.recoveryCodeHashes

/-- A code was accepted for the user whose session presents it. -/
inductive Accepted (userId code : String) : Prop where
  | step (enrollment : TotpRecord) (step : ℤ) (checks : Checks o call past userId code enrollment)
    (same : OfStep o past enrollment code step) (claimed : stored (.markTotpStepUsed call.tenantId userId step) true ∈ past)
  | recovery (enrollment : TotpRecord) (entry : String) (checks : Checks o call past userId code enrollment)
    (same : OfEntry o call past userId code entry) (consumed : stored
      (.consumeRecoveryCode call.tenantId userId entry) true ∈ past)

def Rests : AuthOp → Prop
  | .store (.removeTotp tenantId userId) => tenantId = call.tenantId ∧
    ((∃ sessionToken code, call.request = .unenroll sessionToken code ∧ Accepted o call past userId code) ∨
      ∃ actor, call.request = .resetSecondFactor userId actor)
  | .store (.recordTotpFailure input) => input.tenantId = call.tenantId ∧ input.threshold = threshold o ∧
    input.cooldownMillis = cooldown o ∧ ∃ code enrollment, Checks o call past input.userId code enrollment
  | .store (.resetTotpFailures tenantId userId) => tenantId = call.tenantId ∧ ∃ code, Accepted o call past userId code
  | .store (.consumeRecoveryCode tenantId userId entry) => tenantId = call.tenantId ∧
    ∃ code enrollment, Checks o call past userId code enrollment ∧ OfEntry o call past userId code entry
  | .store (.elevateSession tenantId tokenHash _) => tenantId = call.tenantId ∧ ∃ sessionToken code userId,
    call.request = .verify sessionToken code ∧ tokenHash = o.platform.hashToken sessionToken ∧ Accepted o call past userId code
  | _ => True

/-- What a call that returns rests on. -/
structure Concludes : Prop where
  elevated : ∀ sessionToken code, call.request = .verify sessionToken code → ∃ userId now, Accepted o call past userId code ∧
    stored (.elevateSession call.tenantId (o.platform.hashToken sessionToken) now) () ∈ past
  removed : ∀ sessionToken code, call.request = .unenroll sessionToken code → ∃ userId, Accepted o call past userId code ∧
    stored (.removeTotp call.tenantId userId) () ∈ past

def Ends (r : Except AuthServiceError TotpAnswer) : Prop := ∀ answer, r = .ok answer → Concludes o call past

end Rules

section Steps
variable {o : TotpOptions} {call : TotpCall} {past past' : List AuthAnswered} {α : Type} {userId code : String}
  {enrollment : TotpRecord}

theorem SessionOf.mono {sessionToken : String} (h : SessionOf o call past sessionToken userId) (hs : past <:+ past') :
    SessionOf o call past' sessionToken userId := by
  obtain ⟨now,session,user,hsession,huser,hid⟩ := h
  exact ⟨now,session,user,hs.subset hsession,hs.subset huser,hid⟩

theorem Unlocked.mono (h : Unlocked call past userId enrollment) (hs : past <:+ past') :
    Unlocked call past' userId enrollment := by
  obtain ⟨hconfirmed,since,before,rfl,hlock⟩ := h
  obtain ⟨later,rfl⟩ := hs
  refine ⟨hconfirmed,later ++ since,before,(List.append_assoc _ _ _).symm,?_⟩
  intro lockedUntil hin
  obtain ⟨at_,hat,hle⟩ := hlock lockedUntil hin
  exact ⟨at_,List.mem_append_right _ hat,hle⟩

theorem Checks.mono (h : Checks o call past userId code enrollment) (hs : past <:+ past') :
    Checks o call past' userId code enrollment := by
  obtain ⟨⟨sessionToken,hpresents,hsession⟩,hunlocked⟩ := h
  exact ⟨⟨sessionToken,hpresents,hsession.mono hs⟩,hunlocked.mono hs⟩

theorem OfStep.mono {step : ℤ} (h : OfStep o past enrollment code step) (hs : past <:+ past') :
    OfStep o past' enrollment code step := by
  obtain ⟨secretBase32,at_,hat,hopen,hmatch⟩ := h
  exact ⟨secretBase32,at_,hs.subset hat,hopen,hmatch⟩

theorem OfEntry.mono {entry : String} (h : OfEntry o call past userId code entry) (hs : past <:+ past') :
    OfEntry o call past' userId code entry := by
  obtain ⟨hshape,hsame,enrollment,hread,hin⟩ := h
  exact ⟨hshape,hsame,enrollment,hs.subset hread,hin⟩

theorem Accepted.mono (h : Accepted o call past userId code) (hs : past <:+ past') : Accepted o call past' userId code := by
  cases h with
  | step enrollment step checks same claimed => exact .step enrollment step (checks.mono hs) (same.mono hs) (hs.subset claimed)
  | recovery enrollment entry checks same consumed =>
    exact .recovery enrollment entry (checks.mono hs) (same.mono hs) (hs.subset consumed)

abbrev Keeps (o : TotpOptions) (call : TotpCall) (ok : List AuthAnswered → α → Prop) (x : AuthProgram α)
    (past : List AuthAnswered) : Prop := Yields (Rests o call) ok x past

instance : AsksFreely (Rests o call) := ⟨fun _ _ => trivial⟩

theorem store_keeps (op : StoreOp) {ok : List AuthAnswered → op.Answer → Prop} (hrests : Rests o call past (.store op))
    (h : ∀ answer, ok (stored op answer :: past) answer) : Keeps o call ok (store op) past := by
  apply Yields.bind
  apply Yields.lift hrests
  intro reply
  cases reply with
  | error conflict => exact Yields.throw
  | ok answer => exact Yields.pure (h answer)

theorem limit_keeps {tenantId key : String} {action : AuthAction} {ok : List AuthAnswered → Unit → Prop}
    (h : ∀ past', past <:+ past' → ok past' ()) : Keeps o call ok (limit o tenantId action key) past := by
  apply query_then
  intro reply
  apply fromExcept_keeps
  rintro ⟨⟩ rfl
  exact h _ (List.suffix_cons _ _)

theorem sessionUser_keeps {sessionToken : String} {ok : List AuthAnswered → AuthUser → Prop}
    (h : ∀ past' user, past <:+ past' → SessionOf o call past' sessionToken user.id → ok past' user) :
    Keeps o call ok (sessionUser o call.tenantId sessionToken) past := by
  apply Yields.bind
  apply Yields.bind
  apply query_then
  intro now
  apply Yields.bind
  apply store_keeps (.findSession _ _ _) trivial
  intro found
  cases found with
  | none => exact Yields.throw
  | some session =>
    apply Yields.bind
    apply store_keeps (.findUserById _ _) trivial
    intro found
    cases found with
    | none => exact Yields.throw
    | some user =>
      apply Yields.pure
      apply Yields.pure
      apply Yields.pure
      apply h
      · exact (List.suffix_cons _ _).trans ((List.suffix_cons _ _).trans (List.suffix_cons _ _))
      · exact ⟨now,session,user,List.mem_cons_of_mem _ List.mem_cons_self,List.mem_cons_self,rfl⟩

theorem confirmedEnrollmentOrNone_keeps {tenantId : String} {ok : List AuthAnswered → Option TotpRecord → Prop}
    (h : ∀ record, ok (stored (.findTotp tenantId userId) record :: past) (record.filter fun record => record.confirmed)) :
    Keeps o call ok (confirmedEnrollmentOrNone tenantId userId) past := by
  apply Yields.bind
  apply store_keeps (.findTotp _ _) trivial
  intro record
  exact Yields.pure (h record)

theorem refuse_keeps (hchecks : Checks o call past userId code enrollment) {ok : List AuthAnswered → α → Prop} :
    Keeps o call ok (refuse o call.tenantId userId) past := by
  apply query_then
  intro at_
  apply Yields.bind
  apply store_keeps
  · exact ⟨rfl,rfl,rfl,code,enrollment,hchecks.mono (List.suffix_cons _ _)⟩
  · intro lockedUntil
    cases lockedUntil with
    | none => exact Yields.throw
    | some lockedUntil =>
      apply query_then
      intro _
      apply query_then
      intro now
      exact Yields.throw

theorem enrollment_keeps {ok : List AuthAnswered → α → Prop} {rest : TotpRecord → AuthProgram α}
    (h : ∀ past' enrollment, past <:+ past' → Unlocked call past' userId enrollment →
      stored (.findTotp call.tenantId userId) (some enrollment) ∈ past' → Keeps o call ok (rest enrollment) past') :
    Keeps o call ok (do
      let enrollment ← requireEnrollment call.tenantId userId
      refuseLocked enrollment
      rest enrollment) past := by
  apply Yields.bind
  apply Yields.bind
  apply confirmedEnrollmentOrNone_keeps
  intro record
  cases hrecord : record.filter fun record => record.confirmed with
  | none => exact Yields.throw
  | some enrollment =>
    obtain ⟨rfl,hconfirmed⟩ := Option.filter_eq_some_iff.mp hrecord
    apply Yields.pure
    apply Yields.bind
    unfold refuseLocked
    cases hlock : enrollment.lockedUntil with
    | none =>
      apply Yields.pure
      refine h _ enrollment (List.suffix_cons _ _) ⟨hconfirmed,[],past,rfl,?_⟩ List.mem_cons_self
      intro lockedUntil hin
      rw [hlock] at hin
      cases hin
    | some lockedUntil =>
      apply query_then
      intro at_
      split
      · apply query_then
        intro now
        exact Yields.throw
      · rename_i hover
        apply Yields.pure
        refine h _ enrollment ((List.suffix_cons _ _).trans (List.suffix_cons _ _)) ⟨hconfirmed,[asked .now at_],past,rfl,?_⟩
          (List.mem_cons_of_mem _ List.mem_cons_self)
        intro until_ hin
        obtain rfl := Option.some.inj (hlock.symm.trans hin)
        exact ⟨at_,List.mem_singleton.mpr rfl,not_lt.mp hover⟩

theorem code_keeps {ok : List AuthAnswered → α → Prop} {rest : Option ℤ → AuthProgram α}
    (h : ∀ past' step, past <:+ past' → (∀ s, step = some s → OfStep o past' enrollment code s) →
      Keeps o call ok (rest step) past') :
    Keeps o call ok (do
      let secretBase32 ← openSecret o enrollment.secretBase32
      let step ← matchCode o secretBase32 code
      rest step) past := by
  apply fromExcept_then
  intro secretBase32 hopen
  apply Yields.bind
  apply query_then
  intro at_
  apply fromExcept_keeps
  intro step hmatch
  apply h _ step (List.suffix_cons _ _)
  rintro s rfl
  exact ⟨secretBase32,at_,List.mem_cons_self,hopen,hmatch⟩

end Steps

section Claims
variable {o : TotpOptions} {call : TotpCall} {past : List AuthAnswered} {α : Type} {userId code : String}
  {enrollment : TotpRecord}

theorem claimStep_keeps {step : Option ℤ} {ok : List AuthAnswered → Bool → Prop}
    (hchecks : Checks o call past userId code enrollment)
    (hcode : ∀ s, step = some s → OfStep o past enrollment code s)
    (h : ∀ past' claimed, past <:+ past' → (claimed = true → Accepted o call past' userId code) → ok past' claimed) :
    Keeps o call ok (claimStep call.tenantId userId step) past := by
  cases step with
  | none =>
    apply Yields.pure
    apply h past false (List.suffix_refl _)
    intro hclaimed
    cases hclaimed
  | some step =>
    apply store_keeps (.markTotpStepUsed _ _ _) trivial
    intro claimed
    apply h _ claimed (List.suffix_cons _ _)
    rintro rfl
    exact .step enrollment step (hchecks.mono (List.suffix_cons _ _))
      ((hcode step rfl).mono (List.suffix_cons _ _)) List.mem_cons_self

theorem consumeAttempts_keeps {attempts : ℕ} {entries : List String} {current : TotpRecord} {ok : List AuthAnswered →
    Bool → Prop}
    (hchecks : Checks o call past userId code enrollment) (hshape : isRecoveryCode code = true)
    (hread : stored (.findTotp call.tenantId userId) (some current) ∈ past) (hentries : entries = current.recoveryCodeHashes)
    (h : ∀ past' consumed, past <:+ past' → (consumed = true → Accepted o call past' userId code) → ok past' consumed) :
    Keeps o call ok (consumeAttempts o call.tenantId userId code attempts entries) past := by
  have hnot : ∀ past', past <:+ past' → ok past' false := by
    intro past' hs
    apply h past' false hs
    intro hconsumed
    cases hconsumed
  induction attempts generalizing past entries current with
  | zero => exact Yields.pure (hnot past (List.suffix_refl _))
  | succ attempts ih =>
    unfold consumeAttempts
    cases hentry : recoveryEntryFor o entries code with
    | none => exact Yields.pure (hnot past (List.suffix_refl _))
    | some entry =>
      have hcode : OfEntry o call past userId code entry :=
        ⟨hshape,List.find?_some hentry,current,hread,hentries ▸ List.mem_of_find?_eq_some hentry⟩
      apply Yields.bind
      apply store_keeps
      · exact ⟨rfl,code,enrollment,hchecks,hcode⟩
      · intro consumed
        have hs := List.suffix_cons (stored (.consumeRecoveryCode call.tenantId userId entry) consumed) past
        cases consumed with
        | true =>
          apply Yields.pure
          apply h _ true hs
          intro _
          exact .recovery enrollment entry (hchecks.mono hs) (hcode.mono hs) List.mem_cons_self
        | false =>
          apply Yields.bind
          apply store_keeps (.findTotp _ _) trivial
          intro found
          have hs' := hs.trans (List.suffix_cons (stored (.findTotp call.tenantId userId) found) _)
          cases found with
          | none => exact Yields.pure (hnot _ hs')
          | some current =>
            dsimp only
            split
            · exact Yields.pure (hnot _ hs')
            · apply ih (hchecks.mono hs') List.mem_cons_self rfl
              · intro past'' consumed hs'' haccepted
                exact h past'' consumed (hs'.trans hs'') haccepted
              · intro past'' hs''
                exact hnot past'' (hs'.trans hs'')

theorem claimRecoveryCode_keeps {ok : List AuthAnswered → Bool → Prop} (hchecks : Checks o call past userId code enrollment)
    (hread : stored (.findTotp call.tenantId userId) (some enrollment) ∈ past)
    (h : ∀ past' consumed, past <:+ past' → (consumed = true → Accepted o call past' userId code) → ok past' consumed) :
    Keeps o call ok (claimRecoveryCode o call.tenantId enrollment userId code) past := by
  unfold claimRecoveryCode
  split
  · rename_i hshape
    exact consumeAttempts_keeps hchecks hshape hread rfl h
  · apply Yields.pure
    apply h past false (List.suffix_refl _)
    intro hconsumed
    cases hconsumed

theorem seal_keeps {text : String} {ok : List AuthAnswered → String → Prop} (h : ∀ past' sealed, past <:+ past' →
    ok past' sealed) :
    Keeps o call ok ((sealer o).seal_ text) past := by
  apply fromExcept_then
  intro _ _
  apply query_then
  intro iv
  exact Yields.pure (h _ _ (List.suffix_cons _ _))

theorem sealLegacySecret_keeps {text : String} {ok : List AuthAnswered → Unit → Prop} (h : ∀ past', past <:+ past' →
    ok past' ()) :
    Keeps o call ok (sealLegacySecret o call.tenantId userId text) past := by
  unfold sealLegacySecret
  split
  · exact Yields.pure (h past (List.suffix_refl _))
  · apply Yields.bind
    apply seal_keeps
    intro past' sealed hs
    apply store_keeps (.replaceTotpSecret _ _ _) trivial
    rintro ⟨⟩
    exact h _ (hs.trans (List.suffix_cons _ _))

theorem afterAccepted_keeps {sessionToken : String} {ok : List AuthAnswered → Unit → Prop}
    (hrequest : call.request = .verify sessionToken code) (haccepted : Accepted o call past userId code)
    (h : ∀ past' now, past <:+ past' → stored (.elevateSession call.tenantId (o.platform.hashToken sessionToken) now)
      () ∈ past' →
      ok past' ()) :
    Keeps o call ok (afterAccepted o call.tenantId sessionToken userId enrollment) past := by
  apply Yields.bind
  apply sealLegacySecret_keeps
  intro past₁ hs₁
  apply Yields.bind
  apply store_keeps
  · exact ⟨rfl,code,haccepted.mono hs₁⟩
  · rintro ⟨⟩
    have hs₂ := hs₁.trans (List.suffix_cons (stored (.resetTotpFailures call.tenantId userId) ()) past₁)
    apply query_then
    intro now
    have hs₃ := hs₂.trans (List.suffix_cons (asked .now now) _)
    apply Yields.bind
    apply store_keeps
    · exact ⟨rfl,sessionToken,code,userId,hrequest,rfl,haccepted.mono hs₃⟩
    · rintro ⟨⟩
      apply query_keeps
      rintro ⟨⟩
      apply h _ now (hs₃.trans ((List.suffix_cons _ _).trans (List.suffix_cons _ _)))
      exact List.mem_cons_of_mem _ List.mem_cons_self

end Claims

section Calls
variable {o : TotpOptions} {call : TotpCall} {past : List AuthAnswered} {sessionToken code : String}

theorem entered_keeps {α : Type} {action : AuthAction} {ok : List AuthAnswered → α → Prop} {rest : AuthUser → AuthProgram α}
    (h : ∀ past' (user : AuthUser), past <:+ past' → SessionOf o call past' sessionToken user.id →
      Keeps o call ok (rest user) past') :
    Keeps o call ok (do
      let _ ← configFor call.tenantId
      limit o call.tenantId action sessionToken
      let user ← sessionUser o call.tenantId sessionToken
      rest user) past := by
  apply configFor_then
  intro past₁ config hs₁
  apply Yields.bind
  apply limit_keeps
  intro past₂ hs₂
  apply Yields.bind
  apply sessionUser_keeps
  intro past₃ user hs₃ hsession
  exact h past₃ user (hs₁.trans (hs₂.trans hs₃)) hsession

theorem checked_keeps {α : Type} {action : AuthAction} {ok : List AuthAnswered → α → Prop}
    {rest : AuthUser → TotpRecord → Option ℤ → AuthProgram α} (hpresents : call.request.presents = some (sessionToken,code))
    (h : ∀ past' (user : AuthUser) enrollment step, past <:+ past' → Checks o call past' user.id code enrollment →
      stored (.findTotp call.tenantId user.id) (some enrollment) ∈ past' →
      (∀ s, step = some s → OfStep o past' enrollment code s) → Keeps o call ok (rest user enrollment step) past') :
    Keeps o call ok (do
      let _ ← configFor call.tenantId
      limit o call.tenantId action sessionToken
      let user ← sessionUser o call.tenantId sessionToken
      let enrollment ← requireEnrollment call.tenantId user.id
      refuseLocked enrollment
      let secretBase32 ← openSecret o enrollment.secretBase32
      let step ← matchCode o secretBase32 code
      rest user enrollment step) past := by
  apply entered_keeps
  intro past₁ user hs₁ hsession
  apply enrollment_keeps
  intro past₂ enrollment hs₂ hunlocked hread
  have hchecks : Checks o call past₂ user.id code enrollment := ⟨⟨sessionToken,hpresents,hsession.mono hs₂⟩,hunlocked⟩
  apply code_keeps
  intro past₃ step hs₃ hcode
  exact h past₃ user enrollment step (hs₁.trans (hs₂.trans hs₃)) (hchecks.mono hs₃) (hs₃.subset hread) hcode

theorem verify_keeps (hrequest : call.request = .verify sessionToken code) :
    Keeps o call (fun past _ => ∃ userId now, Accepted o call past userId code ∧
      stored (.elevateSession call.tenantId (o.platform.hashToken sessionToken) now) () ∈ past)
      (verify o call.tenantId sessionToken code) past := by
  have hpresents : call.request.presents = some (sessionToken,code) := by
    rw [hrequest]
    rfl
  apply checked_keeps hpresents
  intro past₁ user enrollment step hs₁ hchecks hread hcode
  apply Yields.bind
  apply claimStep_keeps hchecks hcode
  intro past₂ claimed hs₂ haccepted
  cases claimed with
  | true =>
    apply afterAccepted_keeps hrequest (haccepted rfl)
    intro past₃ now hs₃ helevated
    exact ⟨user.id,now,(haccepted rfl).mono hs₃,helevated⟩
  | false =>
    apply Yields.bind
    apply claimRecoveryCode_keeps (hchecks.mono hs₂) (hs₂.subset hread)
    intro past₃ consumed hs₃ haccepted'
    cases consumed with
    | true =>
      apply afterAccepted_keeps hrequest (haccepted' rfl)
      intro past₄ now hs₄ helevated
      exact ⟨user.id,now,(haccepted' rfl).mono hs₄,helevated⟩
    | false => exact refuse_keeps (hchecks.mono (hs₂.trans hs₃))

theorem unenroll_keeps (hrequest : call.request = .unenroll sessionToken code) :
    Keeps o call (fun past _ => ∃ userId, Accepted o call past userId code ∧ stored (.removeTotp call.tenantId userId) () ∈ past)
      (unenroll o call.tenantId sessionToken code) past := by
  have hpresents : call.request.presents = some (sessionToken,code) := by
    rw [hrequest]
    rfl
  apply checked_keeps hpresents
  intro past₁ user enrollment step hs₁ hchecks hread hcode
  apply Yields.bind
  have hrest : ∀ past₂ accepted, past₁ <:+ past₂ → (accepted = true → Accepted o call past₂ user.id code) →
      Keeps o call (fun past _ => ∃ userId, Accepted o call past userId code ∧ stored (.removeTotp call.tenantId userId)
        () ∈ past)
        (if ¬ accepted then refuse o call.tenantId user.id
        else do
          store (.removeTotp call.tenantId user.id)
          recordAudit call.tenantId .totpUnenroll user.id) past₂ := by
    intro past₂ accepted hs₂ haccepted
    split
    · exact refuse_keeps (hchecks.mono hs₂)
    · rename_i hheld
      have hgranted := haccepted (not_not.mp hheld)
      apply Yields.bind
      apply store_keeps
      · exact ⟨rfl,Or.inl ⟨sessionToken,code,hrequest,hgranted⟩⟩
      · rintro ⟨⟩
        apply query_keeps
        rintro ⟨⟩
        refine ⟨user.id,hgranted.mono ((List.suffix_cons _ _).trans (List.suffix_cons _ _)),?_⟩
        exact List.mem_cons_of_mem _ List.mem_cons_self
  unfold acceptCode
  split
  · exact claimStep_keeps hchecks hcode hrest
  · exact claimRecoveryCode_keeps hchecks hread hrest

theorem beginEnrollment_keeps : Keeps o call (fun _ _ => True) (beginEnrollment o call.tenantId sessionToken) past := by
  apply entered_keeps
  intro past₁ user _ _
  apply Yields.bind
  apply confirmedEnrollmentOrNone_keeps
  intro record
  cases record.filter fun record => record.confirmed with
  | some enrollment => exact Yields.throw
  | none =>
    apply query_then
    intro bytes
    apply Yields.bind
    apply seal_keeps
    intro past₂ sealed _
    apply query_then
    intro enrolledAt
    apply Yields.bind
    apply store_keeps (.putTotpSecret _) trivial
    rintro ⟨⟩
    apply configFor_then
    intro past₃ config _
    exact Yields.pure trivial

theorem generateRecoveryCodes_keeps {count : ℕ} {ok : List AuthAnswered → List String → Prop}
    (h : ∀ past' codes, ok past' codes) :
    Keeps o call ok (generateRecoveryCodes count) past := by
  induction count generalizing past ok with
  | zero => exact Yields.pure (h past [])
  | succ count ih =>
    apply query_then
    intro bytes
    apply Yields.bind
    apply ih
    intro past' codes
    exact Yields.pure (h past' _)

theorem hashRecoveryCodes_keeps {codes : List String} {ok : List AuthAnswered → List String → Prop}
    (h : ∀ past' hashes, ok past' hashes) :
    Keeps o call ok (hashRecoveryCodes o codes) past := by
  induction codes generalizing past ok with
  | nil => exact Yields.pure (h past [])
  | cons code codes ih =>
    apply Yields.bind
    apply fromExcept_then
    intro _ _
    apply query_then
    intro salt
    apply Yields.pure
    apply Yields.bind
    apply ih
    intro past' hashes
    exact Yields.pure (h past' _)

theorem confirmEnrollment_keeps : Keeps o call (fun _ _ => True) (confirmEnrollment o call.tenantId sessionToken code) past := by
  apply entered_keeps
  intro past₁ user _ _
  apply Yields.bind
  apply store_keeps (.findTotp _ _) trivial
  intro found
  cases found with
  | none => exact Yields.throw
  | some pending =>
    dsimp only
    split
    · exact Yields.throw
    · apply code_keeps
      intro past₂ step _ _
      cases step with
      | none => exact Yields.throw
      | some step =>
        apply Yields.bind
        apply generateRecoveryCodes_keeps
        intro past₃ codes
        apply Yields.bind
        apply hashRecoveryCodes_keeps
        intro past₄ hashes
        apply query_then
        intro now
        apply Yields.bind
        apply store_keeps (.confirmTotp _ _ _ _) trivial
        intro _
        apply Yields.bind
        apply store_keeps (.markTotpStepUsed _ _ _) trivial
        intro _
        apply query_then
        rintro ⟨⟩
        exact Yields.pure trivial

theorem resetSecondFactor_keeps {userId actor : String} (hrequest : call.request = .resetSecondFactor userId actor) :
    Keeps o call (fun _ _ => True) (resetSecondFactor call.tenantId userId actor) past := by
  apply configFor_then
  intro past₁ config hs₁
  apply Yields.bind
  apply store_keeps (.findTotp _ _) trivial
  intro found
  cases found with
  | none => exact Yields.pure trivial
  | some record =>
    apply Yields.bind
    apply store_keeps
    · exact ⟨rfl,Or.inr ⟨actor,hrequest⟩⟩
    · rintro ⟨⟩
      apply query_keeps
      rintro ⟨⟩
      trivial

theorem isEnrolled_keeps {userId : String} : Keeps o call (fun _ _ => True) (isEnrolled call.tenantId userId) past := by
  apply Yields.bind
  apply confirmedEnrollmentOrNone_keeps
  intro record
  exact Yields.pure trivial

theorem sessionRequiresElevation_keeps : Keeps o call (fun _ _ => True)
    (sessionRequiresElevation o call.tenantId sessionToken) past := by
  apply configFor_then
  intro past₁ config hs₁
  apply query_then
  intro now
  apply Yields.bind
  apply store_keeps (.findSession _ _ _) trivial
  intro found
  cases found with
  | none => exact Yields.throw
  | some session =>
    dsimp only
    split
    · exact Yields.pure trivial
    · apply Yields.bind
      apply confirmedEnrollmentOrNone_keeps
      intro record
      exact Yields.pure trivial

theorem Concludes.of_presents (h : call.request.presents = none) : Concludes o call past := by
  constructor
  · intro sessionToken code hrequest
    rw [hrequest] at h
    cases h
  · intro sessionToken code hrequest
    rw [hrequest] at h
    cases h

theorem program_follows (o : TotpOptions) (call : TotpCall) :
    Follows (Rests o call) (Ends o call) (call.program o) [] := by
  change Keeps o call (fun past _ => Concludes o call past) (call.program o) []
  unfold TotpCall.program
  cases hrequest : call.request with
  | beginEnrollment sessionToken =>
    exact Yields.map (beginEnrollment_keeps.mono fun _ _ _ => .of_presents (by rw [hrequest]; rfl))
  | confirmEnrollment sessionToken code =>
    exact Yields.map (confirmEnrollment_keeps.mono fun _ _ _ => .of_presents (by rw [hrequest]; rfl))
  | verify sessionToken code =>
    apply Yields.map
    apply (verify_keeps hrequest).mono
    rintro past ⟨⟩ helevated
    constructor
    · intro _ _ h
      cases hrequest.symm.trans h
      exact helevated
    · intro _ _ h
      cases hrequest.symm.trans h
  | unenroll sessionToken code =>
    apply Yields.map
    apply (unenroll_keeps hrequest).mono
    rintro past ⟨⟩ hremoved
    constructor
    · intro _ _ h
      cases hrequest.symm.trans h
    · intro _ _ h
      cases hrequest.symm.trans h
      exact hremoved
  | resetSecondFactor userId actor =>
    exact Yields.map ((resetSecondFactor_keeps hrequest).mono fun _ _ _ => .of_presents (by rw [hrequest]; rfl))
  | sessionRequiresElevation sessionToken =>
    exact Yields.map (sessionRequiresElevation_keeps.mono fun _ _ _ => .of_presents (by rw [hrequest]; rfl))
  | isEnrolled userId => exact Yields.map (isEnrolled_keeps.mono fun _ _ _ => .of_presents (by rw [hrequest]; rfl))

end Calls
section Runs

abbrev TotpPool :=
  Pool AuthOp AuthOp.Reply TotpCall (Except AuthServiceError TotpAnswer) (Logged AuthOp AuthOp.Reply TotpCall MemoryState)

/-- The calls, among any operations of the others on the store. -/
abbrev totpSystem (o : TotpOptions) (env : AuthEnvironment) : System TotpPool (Turn TotpCall StoreOp) :=
  (loggedService (fun call => call.program o) env.perform fun op s => (s.perform op).2).system ⟨.newState,[]⟩

variable {o : TotpOptions} {env : AuthEnvironment} {s : TotpPool} {call : TotpCall} {past : List AuthAnswered}

theorem was_rests (hr : (totpSystem o env).Reachable s) (hwas : s.Was call past) {a : AuthAnswered} (ha : a ∈ past) :
    ∃ earlier, earlier <:+ past ∧ Rests o call earlier a.op := by
  obtain ⟨earlier,hs,hrests⟩ := ((ruled_of_reaches (program_follows o) hr).lawful call past hwas).asked ha
  exact ⟨earlier,(List.suffix_cons _ _).trans hs,hrests⟩

/-- What an enrolment stores of the secret it draws is sealed, and opens to that secret. -/
theorem open_drawn (o : TotpOptions) (iv : {buffer : List UInt8 // buffer.length = 12})
    (drawn : {buffer : List UInt8 // buffer.length = 20}) :
    Sealing.isSealed ((sealer o).sealedSecret iv.1 (secretText drawn.1)) = true ∧
      (sealer o).open_ ((sealer o).sealedSecret iv.1 (secretText drawn.1)) = .ok (secretText drawn.1) := by
  refine ⟨SecondFactorSealer.sealedSecret_isSealed _ _,?_⟩
  have hiv : iv.1 ≠ [] := List.ne_nil_of_length_pos (by rw [iv.2]; decide)
  have hdrawn : drawn.1 ≠ [] := List.ne_nil_of_length_pos (by rw [drawn.2]; decide)
  obtain ⟨c,cs,htext,hascii⟩ := secretText_cons o.totp hdrawn
  rw [htext]
  exact SecondFactorSealer.open_sealedSecret (secret_ne_empty o) hiv hascii

/-- The entry of a recovery code is that of the codes with its digest alone. -/
theorem matches_hashed (o : TotpOptions) (salt : {buffer : List UInt8 // buffer.length = 16}) (code code' : String) :
    (sealer o).matchRecoveryCode o.platform.hashToken code' ((sealer o).hashedCode salt.1 code) = true ↔
      (sealer o).digest salt.1 code' = (sealer o).digest salt.1 code :=
  SecondFactorSealer.matchRecoveryCode_hashedCode (secret_ne_empty o) (List.ne_nil_of_length_pos (by rw [salt.2]; decide))

/-- A session is elevated by an accepted code of its own user alone, an enrolment removed by one or by an operator, and
a call that returns has done what it says. The codes are those of what was drawn, for it opens as it was sealed. -/
theorem second_factor_rests (o : TotpOptions) (env : AuthEnvironment) (s : TotpPool) (hr : (totpSystem o env).Reachable s) :
    (∀ call past, s.Was call past →
      (∀ tenantId tokenHash now, stored (.elevateSession tenantId tokenHash now) () ∈ past → tenantId = call.tenantId ∧
        ∃ sessionToken code userId, call.request = .verify sessionToken code ∧ tokenHash = o.platform.hashToken sessionToken ∧
          Accepted o call past userId code) ∧
      ∀ tenantId userId, stored (.removeTotp tenantId userId) () ∈ past → tenantId = call.tenantId ∧
        ((∃ sessionToken code, call.request = .unenroll sessionToken code ∧ Accepted o call past userId code) ∨
          ∃ actor, call.request = .resetSecondFactor userId actor)) ∧
    (∀ e ∈ s.ended, ∀ answer, e.answer = .ok answer → Concludes o e.call e.past) ∧
    (∀ (iv : {buffer : List UInt8 // buffer.length = 12}) (drawn : {buffer : List UInt8 // buffer.length = 20}),
      Sealing.isSealed ((sealer o).sealedSecret iv.1 (secretText drawn.1)) = true ∧
        (sealer o).open_ ((sealer o).sealedSecret iv.1 (secretText drawn.1)) = .ok (secretText drawn.1)) ∧
    ∀ (salt : {buffer : List UInt8 // buffer.length = 16}) (code code' : String),
      (sealer o).matchRecoveryCode o.platform.hashToken code' ((sealer o).hashedCode salt.1 code) = true ↔
        (sealer o).digest salt.1 code' = (sealer o).digest salt.1 code := by
  refine ⟨fun call past hwas => ⟨?_,?_⟩,?_,open_drawn o,matches_hashed o⟩
  · intro tenantId tokenHash now ha
    obtain ⟨earlier,hs,htenant,sessionToken,code,userId,hrequest,hhash,haccepted⟩ := was_rests hr hwas ha
    exact ⟨htenant,sessionToken,code,userId,hrequest,hhash,haccepted.mono hs⟩
  · intro tenantId userId ha
    obtain ⟨earlier,hs,htenant,⟨sessionToken,code,hrequest,haccepted⟩ | hreset⟩ := was_rests hr hwas ha
    · exact ⟨htenant,Or.inl ⟨sessionToken,code,hrequest,haccepted.mono hs⟩⟩
    · exact ⟨htenant,Or.inr hreset⟩
  · intro e he answer hanswer
    exact (ruled_of_reaches (program_follows o) hr).ended e he answer hanswer

end Runs

section CooldownRun

/-- A platform whose ciphertexts and digests are plain, and whose codes are the numbers of the half minutes. -/
def plainTotpPlatform : TotpPlatform where
  crypto :=
    { deriveKey := fun _ _ _ => []
      encrypt := fun _ _ plaintext => plaintext ++ [0]
      decrypt := fun _ _ ciphertext => some ciphertext.dropLast
      hmacSha256 := fun _ message => 0 :: message
      hmacSha1 := fun _ message => [0,0,0,message.getLastD 0,0]
      decrypt_encrypt := fun _ _ _ => congrArg some List.dropLast_concat
      encrypt_ne_nil := fun _ _ _ => List.append_ne_nil_of_right_ne_nil _ (List.cons_ne_nil _ _)
      hmacSha256_ne_nil := fun _ _ => List.cons_ne_nil _ _ }
  toUpperCase text := String.ofList (text.toList.map Char.toUpper)
  ascii_upper _ _ := rfl

def strictTotpOptions : TotpOptions where
  platform := plainPlatform
  auth := plainAuthOptions
  totp := plainTotpPlatform
  hostname _ := "h"
  secret := "0123456789abcdef0123456789abcdef"
  secret_long := by decide +kernel
  lockoutThreshold := some 1
  lockoutCooldownMillis := some 30000

def slowEnvironment : AuthEnvironment
  | n,.now => 30000 * n
  | n,q => plainAuthEnvironment n q

def enrollingUser : AuthUser := ⟨"u","acme",none,true,none,0,0⟩

def enrollingSession : SessionRecord := ⟨"s","acme","u",plainPlatform.hashToken "t",0,100000000,none⟩

def servedTurns (request : TotpRequest) (operations : ℕ) : List (Turn TotpCall StoreOp) :=
  .arrive 0 ⟨"acme",request⟩ :: List.replicate operations (.resume 0)

/-- An enrolment, a wrong code, and the right one after the cooldown. -/
def cooldownTurns : List (Turn TotpCall StoreOp) :=
  .outside (.createMagicLinkUser enrollingUser) :: .outside (.createSession enrollingSession) ::
    servedTurns (.beginEnrollment "t") 11 ++ servedTurns (.confirmEnrollment "t" "000017") 31 ++
    servedTurns (.verify "t" "000000") 11 ++ servedTurns (.verify "t" "000060") 13

def elevates (a : AuthAnswered) : Bool :=
  match a with
  | ⟨.store (.elevateSession _ _ _),.ok _⟩ => true
  | _ => false

theorem cooldownTurns_run : ((totpSystem strictTotpOptions slowEnvironment).run cooldownTurns).map
    (fun s => s.ended.map fun e => (e.answer.toOption.isSome,e.past.any elevates)) =
      some [(true,true),(false,false),(true,false),(true,false)] := by
  decide +kernel

/-- Of a run that is locked by a wrong code and elevates its session after the cooldown. -/
theorem second_factor_rests_cooldown : ∃ s, (totpSystem strictTotpOptions slowEnvironment).run cooldownTurns = some s ∧
    ∃ e ∈ s.ended, ∃ sessionToken code userId, e.call.request = .verify sessionToken code ∧
      Accepted strictTotpOptions e.call e.past userId code := by
  obtain ⟨s,hrun,hends⟩ := Option.map_eq_some_iff.mp cooldownTurns_run
  have hlast : (true,true) ∈ s.ended.map fun e => (e.answer.toOption.isSome,e.past.any elevates) := by
    rw [hends]
    exact List.mem_cons_self
  obtain ⟨e,he,hentry⟩ := List.mem_map.mp hlast
  obtain ⟨a,ha,helevates⟩ := List.any_eq_true.mp (congrArg Prod.snd hentry)
  have hrests := (second_factor_rests strictTotpOptions slowEnvironment s (System.run_reachable hrun)).1 e.call e.past
    (Or.inr ⟨e,he,rfl,rfl⟩)
  unfold elevates at helevates
  split at helevates
  · obtain ⟨-,sessionToken,code,userId,hrequest,-,haccepted⟩ := hrests.1 _ _ _ ha
    exact ⟨s,hrun,e,he,sessionToken,code,userId,hrequest,haccepted⟩
  · cases helevates

end CooldownRun
end SecondFactor
end StructureAi.Identity

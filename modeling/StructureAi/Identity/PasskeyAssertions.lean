import StructureAi.Identity.AuthRules

/-! # Assertions of passkeys

Authentications with passkeys, in any interleaving over any store: a challenge signs in no
more often than it was issued, and the counters that are accepted for a passkey increase, for
the store replaces the counter that the call compared, or none.
-/
namespace StructureAi.Identity
open StructureAi.Foundation AuthService

section Authentications

/-- The calls of an authentication with a passkey. -/
abbrev AuthenticationCall := {call : AuthCall // call.request.authenticates = true}

abbrev AuthenticationEntry := Entry AuthOp AuthOp.Reply AuthenticationCall

abbrev AuthenticationWorld := Logged AuthOp AuthOp.Reply AuthenticationCall MemoryState

abbrev AuthenticationPool :=
  Pool AuthOp AuthOp.Reply AuthenticationCall (Except AuthServiceError AuthAnswer) AuthenticationWorld

def authenticationService (o : MakeAuthOptions) (env : AuthEnvironment) :
    Service AuthOp AuthOp.Reply AuthenticationCall (Except AuthServiceError AuthAnswer) AuthenticationWorld SecondFactorOp :=
  loggedService (fun call => call.1.program o) env.perform fun op s => (s.perform op.1).2

/-- The entry issues a challenge under the key. -/
def issuesChallenge (k : String) (e : AuthenticationEntry) : Bool :=
  match e.answered.op with
  | .store (.putPasskeyChallenge record) => record.key = k
  | _ => false

/-- The entry consumes the challenge under the key. -/
def consumesChallenge (k : String) (e : AuthenticationEntry) : Bool :=
  match e.answered with
  | ⟨.store (.consumePasskeyChallenge tenantId purpose challengeHash _),.ok (some _)⟩ =>
    tokenKey tenantId purpose.text challengeHash = k
  | _ => false

/-- The entry replaces the counter of the passkey under the key. -/
def countsTo (k : String) (counter : ℕ) (e : AuthenticationEntry) : Bool :=
  match e.answered with
  | ⟨.store (.updatePasskeyCounter tenantId credentialId _ n),.ok _⟩ => scopedKey tenantId credentialId = k && n = counter
  | _ => false

/-- A challenge was in the store, or was issued. -/
def WasIssued (init : MemoryState) (log : List AuthenticationEntry) (challenge : PasskeyChallengeRecord) : Prop :=
  challenge ∈ init.passkeyChallenges.rows ∨ ∃ e ∈ log, e.answered = stored (.putPasskeyChallenge challenge) ()

/-- What the log says of the challenges that wait, and of those that were consumed. -/
structure ChallengesKept (init : MemoryState) (w : AuthenticationWorld) : Prop where
  issued : ∀ challenge ∈ w.state.passkeyChallenges.rows, WasIssued init w.log challenge
  consumed : ∀ call tenantId purpose challengeHash now challenge before,
    (⟨call,stored (.consumePasskeyChallenge tenantId purpose challengeHash now)
      (some challenge)⟩ : AuthenticationEntry) :: before <:+
      w.log → challenge.key = tokenKey tenantId purpose.text challengeHash ∧ now < challenge.expiresAt ∧
        WasIssued init before challenge
  counted : ∀ k, w.log.countP (consumesChallenge k) + (w.state.passkeyChallenges.get k).isSome.toNat ≤
    w.log.countP (issuesChallenge k) + (init.passkeyChallenges.get k).isSome.toNat

/-- The counters that were accepted, below those of the passkeys and in their order. -/
structure CountersKept (w : AuthenticationWorld) : Prop where
  reached : ∀ k counter, ∀ e ∈ w.log, countsTo k counter e = true → ∃ passkey, w.state.passkeys.get k = some passkey ∧
    counter ≤ passkey.counter
  increasing : ∀ k, w.log.Pairwise fun later earlier => ∀ n m, countsTo k n earlier = true → countsTo k m later = true →
    0 < n → n < m

end Authentications

section Challenges
variable {o : MakeAuthOptions} {env : AuthEnvironment} {init : MemoryState} {w : AuthenticationWorld} {call : AuthenticationCall}
  {past : List AuthAnswered}

theorem WasIssued.cons {log : List AuthenticationEntry} {challenge : PasskeyChallengeRecord}
    (h : WasIssued init log challenge) (e : AuthenticationEntry) : WasIssued init (e :: log) challenge := by
  rcases h with hinit | ⟨e',hin,he⟩
  · exact Or.inl hinit
  · exact Or.inr ⟨e',List.mem_cons_of_mem _ hin,he⟩

theorem perform_challenges {op : StoreOp} (hput : ∀ record, op ≠ .putPasskeyChallenge record)
    (hconsume : ∀ tenantId purpose challengeHash now, op ≠ .consumePasskeyChallenge tenantId purpose challengeHash now)
    (s : MemoryState) : (s.perform op).2.passkeyChallenges = s.passkeyChallenges := by
  cases op <;> simp only [MemoryState.perform] <;> first
    | rfl
    | exact absurd rfl (hput _)
    | exact absurd rfl (hconsume _ _ _ _)
    | (split <;> first | rfl | (split <;> rfl))

theorem ChallengesKept.other (h : ChallengesKept init w) {state : MemoryState} {e : AuthenticationEntry}
    (hchallenges : state.passkeyChallenges = w.state.passkeyChallenges)
    (hput : ∀ record, e.answered.op ≠ .store (.putPasskeyChallenge record))
    (hconsume : ∀ tenantId purpose challengeHash now,
      e.answered.op ≠ .store (.consumePasskeyChallenge tenantId purpose challengeHash now)) :
    ChallengesKept init ⟨state,e :: w.log⟩ := by
  constructor
  · intro challenge hin
    exact (h.issued challenge (hchallenges ▸ hin)).cons e
  · intro call' tenantId purpose challengeHash now challenge before hs
    rcases List.suffix_cons_iff.mp hs with heq | hold
    · obtain ⟨rfl,-⟩ := List.cons.inj heq
      exact absurd rfl (hconsume tenantId purpose challengeHash now)
    · exact h.consumed _ _ _ _ _ _ _ hold
  · intro k
    have hissues : ¬ issuesChallenge k e = true := by
      unfold issuesChallenge
      split
      · rename_i heq
        exact absurd heq (hput _)
      · exact Bool.false_ne_true
    have hconsumes : ¬ consumesChallenge k e = true := by
      unfold consumesChallenge
      split
      · rename_i heq
        exact absurd (congrArg Answered.op heq) (hconsume _ _ _ _)
      · exact Bool.false_ne_true
    rw [List.countP_cons_of_neg hconsumes,List.countP_cons_of_neg hissues,hchallenges]
    exact h.counted k

theorem ChallengesKept.put (h : ChallengesKept init w) (record : PasskeyChallengeRecord) :
    ChallengesKept init (w.after env.perform call (.store (.putPasskeyChallenge record))) := by
  constructor
  · intro challenge hin
    rcases Records.mem_set.mp hin with rfl | ⟨hold,-⟩
    · exact Or.inr ⟨_,List.mem_cons_self,rfl⟩
    · exact (h.issued challenge hold).cons _
  · intro call' tenantId purpose challengeHash now challenge before hs
    rcases List.suffix_cons_iff.mp hs with heq | hold
    · cases heq
    · exact h.consumed _ _ _ _ _ _ _ hold
  · intro k
    have hcounted := h.counted k
    rw [List.countP_cons_of_neg (by simp [consumesChallenge])]
    change _ + ((w.state.passkeyChallenges.set record).get k).isSome.toNat ≤ _
    rw [Records.get_set]
    by_cases hk : k = record.key
    · subst hk
      rw [List.countP_cons_of_pos (by simp [issuesChallenge]),if_pos rfl,Option.isSome_some,Bool.toNat_true]
      omega
    · rw [List.countP_cons_of_neg (by simpa [issuesChallenge] using Ne.symm hk),if_neg hk]
      exact hcounted

theorem ChallengesKept.consume (h : ChallengesKept init w) (tenantId : String) (purpose : PasskeyChallengePurpose)
    (challengeHash : String) (now : ℤ) :
    ChallengesKept init (w.after env.perform call (.store (.consumePasskeyChallenge tenantId purpose challengeHash now))) := by
  constructor
  · intro challenge hin
    exact (h.issued challenge (Records.mem_delete.mp hin).1).cons _
  · intro call' tenantId' purpose' challengeHash' now' challenge before hs
    rcases List.suffix_cons_iff.mp hs with heq | hold
    · obtain ⟨hentry,rfl⟩ := List.cons.inj heq
      obtain ⟨-,hanswered⟩ := Entry.mk.inj hentry
      obtain ⟨hop,hreply⟩ := Answered.mk.inj hanswered
      cases hop
      obtain ⟨hget,hlive⟩ := Option.filter_eq_some_iff.mp (Except.ok.inj (eq_of_heq hreply)).symm
      obtain ⟨hrow,hkey⟩ := Records.get_eq_some_iff.mp hget
      exact ⟨hkey,of_decide_eq_true hlive,h.issued challenge hrow⟩
    · exact h.consumed _ _ _ _ _ _ _ hold
  · intro k
    have hcounted := h.counted k
    -- what is consumed under a key was the row under it
    have htaken : (if consumesChallenge k ⟨call,stored (.consumePasskeyChallenge tenantId purpose challengeHash now)
        ((w.state.passkeyChallenges.get (tokenKey tenantId purpose.text challengeHash)).filter fun r =>
          now < r.expiresAt)⟩ = true
          then 1 else 0) +
        (if k = tokenKey tenantId purpose.text challengeHash then none else w.state.passkeyChallenges.get k).isSome.toNat ≤
          (w.state.passkeyChallenges.get k).isSome.toNat := by
      by_cases hk : k = tokenKey tenantId purpose.text challengeHash
      · subst hk
        rw [if_pos rfl]
        cases hget : w.state.passkeyChallenges.get (tokenKey tenantId purpose.text challengeHash) with
        | none => simp [consumesChallenge]
        | some record =>
          rw [Option.isSome_none,Option.isSome_some]
          split <;> decide
      · rw [if_neg hk,if_neg]
        · omega
        · intro hconsumes
          unfold consumesChallenge at hconsumes
          split at hconsumes
          · rename_i heq
            have hop := congrArg Answered.op heq
            cases hop
            exact hk (of_decide_eq_true hconsumes).symm
          · cases hconsumes
    change List.countP _ (_ :: w.log) + ((w.state.passkeyChallenges.delete _).get k).isSome.toNat ≤
      List.countP _ (_ :: w.log) + _
    rw [List.countP_cons (p := issuesChallenge k),List.countP_cons (p := consumesChallenge k),Records.get_delete]
    change List.countP _ w.log + (if consumesChallenge k ⟨call,stored _ _⟩ = true then 1 else 0) + _ ≤ _
    omega

theorem ChallengesKept.step (h : ChallengesKept init w) (op : AuthOp) :
    ChallengesKept init (w.after env.perform call op) := by
  cases op with
  | query q =>
    apply h.other rfl
    · intro record hop
      cases hop
    · intro tenantId purpose challengeHash now hop
      cases hop
  | store op =>
    by_cases hput : ∃ record, op = .putPasskeyChallenge record
    · obtain ⟨record,rfl⟩ := hput
      exact h.put record
    · by_cases hconsume : ∃ tenantId purpose challengeHash now, op = .consumePasskeyChallenge tenantId purpose challengeHash now
      · obtain ⟨tenantId,purpose,challengeHash,now,rfl⟩ := hconsume
        exact h.consume tenantId purpose challengeHash now
      · push Not at hput hconsume
        apply h.other (perform_challenges hput hconsume w.state)
        · intro record hop
          cases hop
          exact hput record rfl
        · intro tenantId purpose challengeHash now hop
          cases hop
          exact hconsume tenantId purpose challengeHash now rfl

end Challenges

section Counters
variable {o : MakeAuthOptions} {env : AuthEnvironment} {w : AuthenticationWorld} {call : AuthenticationCall}
  {past : List AuthAnswered}

def StoreOp.writesPasskeys : StoreOp → Bool
  | .addPasskey _ | .renamePasskey _ _ _ _ | .removePasskey _ _ _ | .updatePasskeyCounter _ _ _ _ => true
  | _ => false

theorem perform_passkeys {op : StoreOp} (h : op.writesPasskeys = false) (s : MemoryState) :
    (s.perform op).2.passkeys = s.passkeys := by
  cases op <;> simp only [MemoryState.perform] <;> first
    | rfl
    | (split <;> first | rfl | (split <;> rfl))
    | cases h

theorem CountersKept.other (h : CountersKept w) {state : MemoryState} {e : AuthenticationEntry}
    (hpasskeys : state.passkeys = w.state.passkeys) (he : ∀ k counter, countsTo k counter e = false) :
    CountersKept ⟨state,e :: w.log⟩ := by
  constructor
  · intro k counter e' hin hcounts
    rcases List.mem_cons.mp hin with rfl | hold
    · rw [he] at hcounts
      cases hcounts
    · rw [hpasskeys]
      exact h.reached k counter e' hold hcounts
  · intro k
    refine List.pairwise_cons.mpr ⟨?_,h.increasing k⟩
    intro e' _ n m _ hcounts
    rw [he] at hcounts
    cases hcounts

theorem countsTo_iff {k : String} {counter : ℕ} {tenantId credentialId : String} {expectedCounter n : ℕ}
    {reply : Except IdentityConflict Unit} {call : AuthenticationCall} :
    countsTo k counter ⟨call,⟨.store (.updatePasskeyCounter tenantId credentialId expectedCounter n),reply⟩⟩ = true ↔
      reply = .ok () ∧ scopedKey tenantId credentialId = k ∧ n = counter := by
  cases reply with
  | error conflict => simp [countsTo]
  | ok answer => simp [countsTo]

theorem CountersKept.update (h : CountersKept w) {tenantId credentialId : String} {expectedCounter counter : ℕ}
    (hincreases : 0 < expectedCounter → expectedCounter < counter) :
    CountersKept (w.after env.perform call (.store (.updatePasskeyCounter tenantId credentialId expectedCounter counter))) := by
  have hanswer : (w.state.passkeys.get (scopedKey tenantId credentialId)).any (fun current => current.counter =
    expectedCounter) =
      false ∧ w.state.perform (.updatePasskeyCounter tenantId credentialId expectedCounter counter) =
        (.error ⟨tenantId,"passkey-counter"⟩,w.state) ∨
      ∃ current, w.state.passkeys.get (scopedKey tenantId credentialId) = some current ∧ current.counter = expectedCounter ∧
        w.state.perform (.updatePasskeyCounter tenantId credentialId expectedCounter counter) =
          (.ok (),{w.state with passkeys := w.state.passkeys.set {current with counter}}) := by
    simp only [MemoryState.perform]
    cases hget : w.state.passkeys.get (scopedKey tenantId credentialId) with
    | none => exact Or.inl ⟨rfl,rfl⟩
    | some current =>
      by_cases hsame : current.counter = expectedCounter
      · exact Or.inr ⟨current,rfl,hsame,by simp [hsame]⟩
      · exact Or.inl ⟨by simpa using hsame,by simp [hsame]⟩
  rcases hanswer with ⟨-,hfails⟩ | ⟨current,hget,hsame,hreplaces⟩
  · have hperform : env.perform w.log.length (.store (.updatePasskeyCounter tenantId credentialId expectedCounter counter))
      w.state =
        (.error ⟨tenantId,"passkey-counter"⟩,w.state) := hfails
    unfold Logged.after
    rw [hperform]
    apply h.other rfl
    intro k n
    rfl
  · have hperform : env.perform w.log.length (.store (.updatePasskeyCounter tenantId credentialId expectedCounter counter))
      w.state =
        (.ok (),{w.state with passkeys := w.state.passkeys.set {current with counter}}) := hreplaces
    obtain ⟨-,hkey⟩ := Records.get_eq_some_iff.mp hget
    unfold Logged.after
    rw [hperform]
    constructor
    · intro k n e hin hcounts
      change ∃ passkey, (w.state.passkeys.set {current with counter}).get k = some passkey ∧ _
      rw [Records.get_set]
      change ∃ passkey, (if k = current.key then _ else _) = some passkey ∧ _
      rcases List.mem_cons.mp hin with rfl | hold
      · obtain ⟨-,hk,rfl⟩ := countsTo_iff.mp hcounts
        rw [if_pos (hk.symm.trans hkey.symm)]
        exact ⟨_,rfl,le_refl _⟩
      · obtain ⟨passkey,hpasskey,hle⟩ := h.reached k n e hold hcounts
        by_cases hk : k = current.key
        · rw [if_pos hk]
          refine ⟨_,rfl,?_⟩
          rw [hk,hkey,hget] at hpasskey
          cases hpasskey
          change n ≤ counter
          omega
        · rw [if_neg hk]
          exact ⟨passkey,hpasskey,hle⟩
    · intro k
      refine List.pairwise_cons.mpr ⟨?_,h.increasing k⟩
      intro earlier hin n m hearlier hlater hpos
      obtain ⟨-,rfl,rfl⟩ := countsTo_iff.mp hlater
      obtain ⟨passkey,hpasskey,hle⟩ := h.reached _ n earlier hin hearlier
      rw [hget] at hpasskey
      cases hpasskey
      omega

theorem CountersKept.step (h : CountersKept w) {op : AuthOp} (hrests : Grounded o call.1 past op) :
    CountersKept (w.after env.perform call op) := by
  cases op with
  | query q =>
    apply h.other rfl
    intro k counter
    rfl
  | store op =>
    by_cases hupdate : ∃ tenantId credentialId expectedCounter counter,
        op = .updatePasskeyCounter tenantId credentialId expectedCounter counter
    · obtain ⟨tenantId,credentialId,expectedCounter,counter,rfl⟩ := hupdate
      obtain ⟨-,looked,passkey,-,-,-,hincreases⟩ := hrests
      exact h.update hincreases
    · have hwrites : op.writesPasskeys = false := by
        cases op <;> first
          | rfl
          | exact absurd ⟨_,_,_,_,rfl⟩ hupdate
          | (have hcall := call.2; rw [show call.1.request.authenticates = false from hrests] at hcall; cases hcall)
      apply h.other (perform_passkeys hwrites w.state)
      intro k counter
      unfold countsTo
      split
      · rename_i heq
        have hop := congrArg Answered.op heq
        cases hop
        exact absurd ⟨_,_,_,_,rfl⟩ hupdate
      · rfl

end Counters

section Results
variable (o : MakeAuthOptions) (env : AuthEnvironment) (init : MemoryState)

abbrev authenticationSystem : System AuthenticationPool (Turn AuthenticationCall SecondFactorOp) :=
  (authenticationService o env).system ⟨init,[]⟩

abbrev EndedAuthentication := Ended AuthOp AuthOp.Reply AuthenticationCall (Except AuthServiceError AuthAnswer)

/-- What a finished authentication answers a challenge with, if it succeeded. -/
def successfulAssertion (e : EndedAuthentication) : Option PasskeyAuthenticationResponse :=
  match e.call.1.request,e.answer with
  | .finishPasskeyAuthentication response _,.ok _ => some response
  | _,_ => none

/-- The call signed in with the challenge of this hash. -/
def signedInWith (tenantId challengeHash : String) (e : EndedAuthentication) : Bool :=
  e.call.1.tenantId = tenantId && (successfulAssertion e).any fun response =>
    ((Webauthn.passkeyChallengeFromClientData response.clientDataJSON).toOption.map o.platform.hashToken) = some challengeHash

/-- The call signed in with the passkey, at this counter. -/
def acceptedAt (tenantId credentialId : String) (counter : ℕ) (e : EndedAuthentication) : Bool :=
  e.call.1.tenantId = tenantId && (successfulAssertion e).any fun response =>
    response.credentialId = credentialId && (Webauthn.assertedCounter response).toOption = some counter

/-- A sign-in rests on a challenge that was issued and has not expired, for no user or for that of the passkey, and on
the replacement of the counter of the passkey by that of the assertion. -/
def RestsOnChallenge (log : List AuthenticationEntry) (call : AuthenticationCall)
    (response : PasskeyAuthenticationResponse) : Prop :=
  ∃ clientChallenge challenge passkey counter now later before,
    Webauthn.passkeyChallengeFromClientData response.clientDataJSON = .ok clientChallenge ∧
    log = later ++ ⟨call,stored (.consumePasskeyChallenge call.1.tenantId .authentication (o.platform.hashToken clientChallenge)
      now) (some challenge)⟩ :: before ∧
    challenge.key = tokenKey call.1.tenantId PasskeyChallengePurpose.authentication.text (o.platform.hashToken clientChallenge) ∧
    now < challenge.expiresAt ∧ WasIssued init before challenge ∧
    ⟨call,stored (.findPasskey call.1.tenantId response.credentialId) (some passkey)⟩ ∈ log ∧
    (∀ userId ∈ challenge.userId, userId = passkey.userId) ∧ Webauthn.assertedCounter response = .ok counter ∧
    ⟨call,stored (.updatePasskeyCounter call.1.tenantId response.credentialId passkey.counter counter) ()⟩ ∈ log

variable {o env init} {s : AuthenticationPool}

theorem challengesKept_init : ChallengesKept init (⟨init,[]⟩ : AuthenticationWorld) := by
  constructor
  · intro challenge hin
    exact Or.inl hin
  · intro call tenantId purpose challengeHash now challenge before hs
    have hnil := List.suffix_nil.mp hs
    cases hnil
  · intro k
    exact Nat.le_refl _

theorem countersKept_init : CountersKept (⟨init,[]⟩ : AuthenticationWorld) := by
  constructor
  · intro k counter e hin
    cases hin
  · intro k
    exact List.Pairwise.nil

theorem ofSecondFactor_passkeys (op : SecondFactorOp) (state : MemoryState) :
    (state.perform op.1).2.passkeyChallenges = state.passkeyChallenges ∧ (state.perform op.1).2.passkeys = state.passkeys := by
  obtain ⟨op,hop⟩ := op
  constructor
  · apply perform_challenges
    · rintro record rfl
      cases hop
    · rintro tenantId purpose challengeHash now rfl
      cases hop
  · apply perform_passkeys
    cases op <;> first
      | rfl
      | cases hop

theorem authentications_kept (hr : (authenticationSystem o env init).Reachable s) :
    (ChallengesKept init s.world ∧ CountersKept s.world) ∧
      Historic (fun call => Grounded o call.1) (fun call past r => ∀ a, r = .ok a → Concluded o call.1 past a) s := by
  have hprogram : ∀ call : AuthenticationCall, Program.Follows (Grounded o call.1)
      (fun past r => ∀ a, r = .ok a → Concluded o call.1 past a) (call.1.program o) [] := fun call => program_follows o call.1
  have hallow : ∀ (s : AuthenticationPool) (turn : Turn AuthenticationCall SecondFactorOp), True →
      GivenTurn (fun _ _ _ => True) s turn := fun _ _ _ _ _ _ _ => trivial
  refine historic_invariant (J := fun w => ChallengesKept init w ∧ CountersKept w) hprogram hallow
    ⟨challengesKept_init,countersKept_init⟩ ?_ ?_ hr
  · rintro op w ⟨hchallenges,hcounters⟩
    obtain ⟨hsame,hpasskeys⟩ := ofSecondFactor_passkeys op w.state
    constructor
    · constructor
      · intro challenge hin
        exact hchallenges.issued challenge (hsame ▸ hin)
      · exact hchallenges.consumed
      · intro k
        exact hsame ▸ hchallenges.counted k
    · constructor
      · intro k counter e hin hcounts
        exact hpasskeys ▸ hcounters.reached k counter e hin hcounts
      · exact hcounters.increasing
  · rintro call past op w ⟨hchallenges,hcounters⟩ _ hrests _
    exact ⟨hchallenges.step op,hcounters.step hrests⟩

theorem CountersKept.once {w : AuthenticationWorld} (h : CountersKept w) {k : String} {counter : ℕ} (hpos : 0 < counter) :
    w.log.countP (countsTo k counter) ≤ 1 := by
  have hpairwise := h.increasing k
  generalize w.log = log at hpairwise
  induction log with
  | nil => exact Nat.zero_le 1
  | cons e log ih =>
    obtain ⟨hhead,htail⟩ := List.pairwise_cons.mp hpairwise
    rw [List.countP_cons]
    split
    · rename_i hcounts
      have hzero : log.countP (countsTo k counter) = 0 := by
        rw [List.countP_eq_zero]
        intro e' hin hcounts'
        exact absurd (hhead e' hin counter counter hcounts' hcounts hpos) (lt_irrefl counter)
      omega
    · have hle := ih htail
      omega

theorem successfulAssertion_eq_some {e : EndedAuthentication} {response : PasskeyAuthenticationResponse}
    (h : successfulAssertion e = some response) : ∃ caller answer,
      e.call.1.request = .finishPasskeyAuthentication response caller ∧ e.answer = .ok answer := by
  unfold successfulAssertion at h
  split at h
  · rename_i response' caller answer hrequest hanswer
    cases h
    exact ⟨caller,answer,hrequest,hanswer⟩
  · cases h

/-- Assertions of passkeys are not replayed. -/
theorem assertions_not_replayed (o : MakeAuthOptions) (env : AuthEnvironment) (init : MemoryState) (s : AuthenticationPool)
    (hr : (authenticationSystem o env init).Reachable s) :
    (∀ e ∈ s.ended, ∀ response, successfulAssertion e = some response → RestsOnChallenge o init s.world.log e.call response) ∧
    (∀ tenantId challengeHash, s.ended.countP (signedInWith o tenantId challengeHash) ≤
      s.world.log.countP (issuesChallenge (tokenKey tenantId PasskeyChallengePurpose.authentication.text challengeHash)) +
        (init.passkeyChallenges.get (tokenKey tenantId PasskeyChallengePurpose.authentication.text
          challengeHash)).isSome.toNat) ∧
    (∀ k, s.world.log.Pairwise fun later earlier => ∀ n m, countsTo k n earlier = true → countsTo k m later = true →
      0 < n → n < m) ∧
    ∀ tenantId credentialId counter, 0 < counter → s.ended.countP (acceptedAt tenantId credentialId counter) ≤ 1 := by
  obtain ⟨⟨hchallenges,hcounters⟩,hhistoric⟩ := authentications_kept hr
  have hasserted : ∀ e ∈ s.ended, ∀ response, successfulAssertion e = some response → AssertedBy o e.call.1 e.past response := by
    intro e he response hsuccess
    obtain ⟨caller,answer,hrequest,hanswer⟩ := successfulAssertion_eq_some hsuccess
    exact ((hhistoric.ended e he).1 answer hanswer).asserted response caller hrequest
  refine ⟨?_,?_,hcounters.increasing,?_⟩
  · intro e he response hsuccess
    obtain ⟨clientChallenge,challenge,passkey,counter,now,hclient,hconsumed,hfound,hsame,hcounter,hupdated⟩ :=
      (hasserted e he response hsuccess).accepted
    have hrecorded := (hhistoric.ended e he).2
    obtain ⟨later,before,hlog⟩ := List.append_of_mem (hrecorded.mem hconsumed)
    obtain ⟨hkey,hlive,hissued⟩ := hchallenges.consumed _ _ _ _ _ _ _ ⟨later,hlog.symm⟩
    exact ⟨clientChallenge,challenge,passkey,counter,now,later,before,hclient,hlog,hkey,hlive,hissued,hrecorded.mem hfound,
      hsame,hcounter,hrecorded.mem hupdated⟩
  · intro tenantId challengeHash
    have hle := ended_le_answered hr (P := signedInWith o tenantId challengeHash)
      (q := consumesChallenge (tokenKey tenantId PasskeyChallengePurpose.authentication.text challengeHash)) ?_
    · have hcounted := hchallenges.counted (tokenKey tenantId PasskeyChallengePurpose.authentication.text challengeHash)
      omega
    · intro e he hP
      simp only [signedInWith,Bool.and_eq_true,decide_eq_true_eq,Option.any_eq_true] at hP
      obtain ⟨rfl,response,hsuccess,hhash⟩ := hP
      obtain ⟨clientChallenge,challenge,passkey,counter,now,hclient,hconsumed,-⟩ := (hasserted e he response hsuccess).accepted
      rw [hclient] at hhash
      refine ⟨_,hconsumed,?_⟩
      simp only [consumesChallenge,decide_eq_true_eq]
      rw [Option.some.inj hhash]
  · intro tenantId credentialId counter hpos
    have hle := ended_le_answered hr (P := acceptedAt tenantId credentialId counter)
      (q := countsTo (scopedKey tenantId credentialId) counter) ?_
    · exact hle.trans (hcounters.once hpos)
    · intro e he hP
      simp only [acceptedAt,Bool.and_eq_true,decide_eq_true_eq,Option.any_eq_true] at hP
      obtain ⟨rfl,response,hsuccess,rfl,hcounter⟩ := hP
      obtain ⟨_,_,passkey,counter',_,_,_,_,_,hasserts,hupdated⟩ := (hasserted e he response hsuccess).accepted
      rw [hasserts] at hcounter
      obtain rfl := Option.some.inj hcounter
      exact ⟨_,hupdated,by simp [countsTo]⟩

end Results

section AssertionRun

/-- A relying party whose name is as long as its hash. -/
def rpId : String := String.ofList (List.replicate 32 'r')

def passkeyEnvironment : AuthEnvironment
  | _,.configFor _ => .ok {plainConfig with passkey := some ⟨rpId,"rp",["o"],some false⟩}
  | n,q => plainAuthEnvironment n q

def passkeyUser : AuthUser := ⟨"u","acme",none,true,none,0,0⟩

def storedPasskey : PasskeyRecord := ⟨"acme","u","cred","",.es256,0,[],none,none,0⟩

def passkeyStore : MemoryState :=
  {MemoryState.newState with
    users := MemoryState.newState.users.set passkeyUser
    passkeys := MemoryState.newState.passkeys.set storedPasskey}

/-- The challenge whose bytes are drawn by the `n`th operation. -/
def drawnChallenge (n : UInt8) : String := encodeBase64Url (List.replicate 32 n)

def clientData (challenge : String) : String :=
  "\x7b\"type\":\"webauthn.get\",\"origin\":\"o\",\"challenge\":\"" ++ challenge ++ "\"\x7d"

def assertionAt (n counter : UInt8) : PasskeyAuthenticationResponse where
  credentialId := "cred"
  clientDataJSON := encodeBase64Url (encodeUtf8 (clientData (drawnChallenge n)).toList)
  authenticatorData := encodeBase64Url (encodeUtf8 rpId.toList ++ [1,0,0,0,counter])
  signature := ""

def beginTurns : List (Turn AuthenticationCall SecondFactorOp) :=
  .arrive 0 ⟨⟨"acme",.beginPasskeyAuthentication none none⟩,rfl⟩ :: List.replicate 4 (.resume 0)

def finishTurns (n counter : UInt8) (operations : ℕ) : List (Turn AuthenticationCall SecondFactorOp) :=
  .arrive 0 ⟨⟨"acme",.finishPasskeyAuthentication (assertionAt n counter) none⟩,rfl⟩ :: List.replicate operations (.resume 0)

/-- An assertion and its replay. -/
def assertionTurns : List (Turn AuthenticationCall SecondFactorOp) :=
  beginTurns ++ finishTurns 1 7 15 ++ finishTurns 1 7 4

theorem assertionTurns_run : ((authenticationSystem plainAuthOptions passkeyEnvironment passkeyStore).run assertionTurns).map
    (fun s => (s.ended.map fun e => (successfulAssertion e).isSome,
      s.ended.countP (signedInWith plainAuthOptions "acme" (plainPlatform.hashToken (drawnChallenge 1))),
      s.ended.countP (acceptedAt "acme" "cred" 7))) = some ([false,true,false],1,1) := by
  decide +kernel

/-- The challenge and the counter of the assertion have signed in once, though it was presented twice. -/
theorem assertions_not_replayed_first : ∃ s,
    (authenticationSystem plainAuthOptions passkeyEnvironment passkeyStore).run assertionTurns = some s ∧
    (s.ended.map fun e => (successfulAssertion e).isSome) = [false,true,false] ∧
    s.ended.countP (signedInWith plainAuthOptions "acme" (plainPlatform.hashToken (drawnChallenge 1))) = 1 ∧
    s.ended.countP (acceptedAt "acme" "cred" 7) = 1 ∧
    (∀ e ∈ s.ended, ∀ response, successfulAssertion e = some response →
      RestsOnChallenge plainAuthOptions passkeyStore s.world.log e.call response) ∧
    ∀ tenantId credentialId counter, 0 < counter → s.ended.countP (acceptedAt tenantId credentialId counter) ≤ 1 := by
  obtain ⟨s,hrun,hends⟩ := Option.map_eq_some_iff.mp assertionTurns_run
  obtain ⟨hended,huses⟩ := Prod.mk.inj hends
  obtain ⟨hchallenge,hcounter⟩ := Prod.mk.inj huses
  obtain ⟨hrests,-,-,hcounters⟩ :=
    assertions_not_replayed plainAuthOptions passkeyEnvironment passkeyStore s (System.run_reachable hrun)
  exact ⟨s,hrun,hended,hchallenge,hcounter,hrests,hcounters⟩

end AssertionRun
end StructureAi.Identity

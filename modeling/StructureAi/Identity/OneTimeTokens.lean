import StructureAi.Identity.ApiKeys
import StructureAi.Identity.AuthRules

/-! # One-time tokens

A token that was mailed authorises one success at most: the log of the store has as many
consumptions of a hash as the hash was issued, less the rows that still wait. What a
consumption answers was issued for the same tenant and purpose, and not superseded since.
-/
namespace StructureAi.Identity
open StructureAi.Foundation AuthService

section Keys

theorem purpose_clean (purpose : OneTimeTokenPurpose) : '\x00' ∉ purpose.text.toList := by
  cases purpose <;> decide

theorem purpose_text_injective : Function.Injective OneTimeTokenPurpose.text := by
  intro p q h
  cases p <;> cases q <;> first | rfl | (revert h; decide)

theorem tokenKey_inj {tenantId tenantId' hash hash' : String} {purpose purpose' : OneTimeTokenPurpose}
    (h : '\x00' ∉ hash.toList) (h' : '\x00' ∉ hash'.toList)
    (he : tokenKey tenantId purpose.text hash = tokenKey tenantId' purpose'.text hash') :
    tenantId = tenantId' ∧ purpose = purpose' ∧ hash = hash' := by
  obtain ⟨hrest,hhash⟩ := @separated_inj (scopedKey tenantId purpose.text)
    (scopedKey tenantId' purpose'.text) _ _ h h' he
  obtain ⟨htenant,hpurpose⟩ := separated_inj (purpose_clean purpose) (purpose_clean purpose') hrest
  exact ⟨htenant,purpose_text_injective hpurpose,hhash⟩

end Keys

section Log

/-- A record was issued, and no later one for the same tenant, purpose and email. -/
def Standing (record : OneTimeTokenRecord) (log : List AuthEntry) : Prop :=
  ∃ since call before, log = since ++ ⟨call,stored (.putOneTimeToken record) ()⟩ :: before ∧
    ∀ e ∈ since, ∀ newer, e.answered.op = .store (.putOneTimeToken newer) →
      ¬ (newer.tenantId = record.tenantId ∧ newer.purpose = record.purpose ∧ newer.email = record.email)

theorem superseded_iff {newer record : OneTimeTokenRecord} : MemoryState.superseded newer record = true ↔
    newer.tenantId = record.tenantId ∧ newer.purpose = record.purpose ∧ newer.email = record.email := by
  rw [MemoryState.superseded,Bool.and_eq_true,Bool.and_eq_true,decide_eq_true_eq,decide_eq_true_eq,decide_eq_true_eq,and_assoc,
    eq_comm,@eq_comm _ record.purpose,@eq_comm _ record.email]

theorem Standing.cons {record : OneTimeTokenRecord} {log : List AuthEntry} (h : Standing record log) {e : AuthEntry}
    (he : ∀ newer, e.answered.op = .store (.putOneTimeToken newer) →
      ¬ (newer.tenantId = record.tenantId ∧ newer.purpose = record.purpose ∧ newer.email = record.email)) :
    Standing record (e :: log) := by
  obtain ⟨since,call,before,rfl,hsince⟩ := h
  refine ⟨e :: since,call,before,rfl,?_⟩
  intro e' hin
  rcases List.mem_cons.mp hin with rfl | hold
  · exact he
  · exact hsince e' hold

def issuesKey (k : String) (e : AuthEntry) : Bool :=
  match e.answered.op with
  | .store (.putOneTimeToken record) => record.key = k
  | _ => false

/-- The entry consumes the token under the key. -/
def consumesKey (k : String) (e : AuthEntry) : Bool :=
  match e.answered with
  | ⟨.store (.consumeOneTimeToken tenantId purpose tokenHash _),.ok (some _)⟩ => tokenKey tenantId purpose.text tokenHash = k
  | _ => false

/-- The hash of a token that is issued was not issued before. -/
def FreshToken (_ : AuthCall) (op : AuthOp) (w : AuthWorld) : Prop :=
  ∀ record, op = .store (.putOneTimeToken record) → ∀ e ∈ w.log, ∀ earlier,
    e.answered.op = .store (.putOneTimeToken earlier) → earlier.tokenHash ≠ record.tokenHash

/-- What the log says of the tokens that wait, and of those that were consumed. -/
structure TokensKept (w : AuthWorld) : Prop where
  clean : ∀ e ∈ w.log, ∀ record, e.answered.op = .store (.putOneTimeToken record) → '\x00' ∉ record.tokenHash.toList
  standing : ∀ record ∈ w.state.tokens.rows, Standing record w.log
  consumed : ∀ call tenantId purpose tokenHash now record before,
    (⟨call,stored (.consumeOneTimeToken tenantId purpose tokenHash now) (some record)⟩ : AuthEntry) :: before <:+ w.log →
      record.tenantId = tenantId ∧ record.purpose = purpose ∧ record.tokenHash = tokenHash ∧ now < record.expiresAt ∧
        Standing record before
  counted : ∀ k, w.log.countP (consumesKey k) + (w.state.tokens.get k).isSome.toNat ≤ w.log.countP (issuesKey k)
  once : ∀ k, w.log.countP (issuesKey k) ≤ 1

end Log

section Steps
variable {o : MakeAuthOptions} {env : AuthEnvironment} {w : AuthWorld} {call : AuthCall} {past : List AuthAnswered}

theorem perform_tokens {op : StoreOp} (hput : ∀ record, op ≠ .putOneTimeToken record)
    (hconsume : ∀ tenantId purpose tokenHash now, op ≠ .consumeOneTimeToken tenantId purpose tokenHash now) (s : MemoryState) :
    (s.perform op).2.tokens = s.tokens := by
  cases op <;> simp only [MemoryState.perform] <;> first
    | rfl
    | exact absurd rfl (hput _)
    | exact absurd rfl (hconsume _ _ _ _)
    | (split <;> first | rfl | (split <;> rfl))

theorem TokensKept.row_clean (h : TokensKept w) {record : OneTimeTokenRecord} (hr : record ∈ w.state.tokens.rows) :
    '\x00' ∉ record.tokenHash.toList := by
  obtain ⟨since,call,before,hlog,-⟩ := h.standing record hr
  have hin : (⟨call,stored (.putOneTimeToken record) ()⟩ : AuthEntry) ∈ w.log := by
    rw [hlog]
    simp
  exact h.clean _ hin record rfl

theorem TokensKept.other (h : TokensKept w) {state : MemoryState} {e : AuthEntry} (htokens : state.tokens = w.state.tokens)
    (hput : ∀ record, e.answered.op ≠ .store (.putOneTimeToken record))
    (hconsume : ∀ tenantId purpose tokenHash now, e.answered.op ≠ .store (.consumeOneTimeToken tenantId purpose tokenHash now)) :
    TokensKept ⟨state,e :: w.log⟩ := by
  have hissues : ∀ k, issuesKey k e = false := by
    intro k
    unfold issuesKey
    split
    · rename_i heq
      exact absurd heq (hput _)
    · rfl
  have hconsumes : ∀ k, consumesKey k e = false := by
    intro k
    unfold consumesKey
    split
    · rename_i heq
      exact absurd (congrArg Answered.op heq) (hconsume _ _ _ _)
    · rfl
  constructor
  · intro e' hin record hop
    rcases List.mem_cons.mp hin with rfl | hold
    · exact absurd hop (hput record)
    · exact h.clean e' hold record hop
  · intro record hr
    rw [htokens] at hr
    exact (h.standing record hr).cons fun newer hop => absurd hop (hput newer)
  · intro call' tenantId purpose tokenHash now record before hs
    rcases List.suffix_cons_iff.mp hs with heq | hold
    · obtain ⟨rfl,-⟩ := List.cons.inj heq
      exact absurd rfl (hconsume tenantId purpose tokenHash now)
    · exact h.consumed _ _ _ _ _ _ _ hold
  · intro k
    rw [List.countP_cons_of_neg (by simp [hconsumes]),List.countP_cons_of_neg (by simp [hissues]),htokens]
    exact h.counted k
  · intro k
    rw [List.countP_cons_of_neg (by simp [hissues])]
    exact h.once k

theorem TokensKept.put (h : TokensKept w) {record : OneTimeTokenRecord} (hclean : '\x00' ∉ record.tokenHash.toList)
    (hfresh : FreshToken call (.store (.putOneTimeToken record)) w) :
    TokensKept (w.after env.perform call (.store (.putOneTimeToken record))) := by
  -- no token was issued under the key before
  have hnew : w.log.countP (issuesKey record.key) = 0 := by
    rw [List.countP_eq_zero]
    intro e hin hissues
    unfold issuesKey at hissues
    split at hissues
    · rename_i earlier hop
      obtain ⟨-,-,hhash⟩ := tokenKey_inj (h.clean e hin earlier hop) hclean (of_decide_eq_true hissues)
      exact hfresh record rfl e hin earlier hop hhash
    · cases hissues
  constructor
  · intro e hin record' hop
    rcases List.mem_cons.mp hin with rfl | hold
    · cases hop
      exact hclean
    · exact h.clean e hold record' hop
  · intro r hr
    rcases Records.mem_set.mp hr with rfl | ⟨hr,-⟩
    · refine ⟨[],call,w.log,rfl,?_⟩
      intro e hin
      cases hin
    · obtain ⟨hrow,hstays⟩ := Records.mem_deleteWhere.mp hr
      refine (h.standing r hrow).cons ?_
      rintro newer ⟨⟩ hsame
      rw [superseded_iff.mpr hsame] at hstays
      cases hstays
  · intro call' tenantId purpose tokenHash now record' before hs
    rcases List.suffix_cons_iff.mp hs with heq | hold
    · cases heq
    · exact h.consumed _ _ _ _ _ _ _ hold
  · intro k
    rw [List.countP_cons_of_neg (by simp [consumesKey])]
    change _ + (((w.state.tokens.deleteWhere (MemoryState.superseded record)).set record).get k).isSome.toNat ≤ _
    have hcounted := h.counted k
    rw [Records.get_set]
    by_cases hk : k = record.key
    · subst hk
      rw [List.countP_cons_of_pos (by simp [issuesKey]),if_pos rfl,Option.isSome_some,Bool.toNat_true]
      omega
    · rw [List.countP_cons_of_neg (by simpa [issuesKey] using Ne.symm hk),if_neg hk,Records.get_deleteWhere]
      have hle : ((w.state.tokens.get k).filter fun r => !MemoryState.superseded record r).isSome.toNat ≤
          (w.state.tokens.get k).isSome.toNat := by
        cases w.state.tokens.get k with
        | none => exact Nat.le_refl _
        | some r => exact Bool.toNat_le _
      omega
  · intro k
    by_cases hk : k = record.key
    · subst hk
      rw [List.countP_cons_of_pos (by simp [issuesKey]),hnew]
    · rw [List.countP_cons_of_neg (by simpa [issuesKey] using Ne.symm hk)]
      exact h.once k

theorem TokensKept.consume (h : TokensKept w) {tenantId tokenHash : String} {purpose : OneTimeTokenPurpose} {now : ℤ}
    (hclean : '\x00' ∉ tokenHash.toList) :
    TokensKept (w.after env.perform call (.store (.consumeOneTimeToken tenantId purpose tokenHash now))) := by
  constructor
  · intro e hin record hop
    rcases List.mem_cons.mp hin with rfl | hold
    · cases hop
    · exact h.clean e hold record hop
  · intro r hr
    obtain ⟨hrow,-⟩ := Records.mem_delete.mp hr
    exact (h.standing r hrow).cons fun newer hop => by cases hop
  · intro call' tenantId' purpose' tokenHash' now' record before hs
    rcases List.suffix_cons_iff.mp hs with heq | hold
    · obtain ⟨hentry,rfl⟩ := List.cons.inj heq
      obtain ⟨-,hanswered⟩ := Entry.mk.inj hentry
      obtain ⟨hop,hreply⟩ := Answered.mk.inj hanswered
      cases hop
      obtain ⟨hget,hlive⟩ := Option.filter_eq_some_iff.mp (Except.ok.inj (eq_of_heq hreply)).symm
      obtain ⟨hrow,hkey⟩ := Records.get_eq_some_iff.mp hget
      obtain ⟨htenant,hpurpose,hhash⟩ := tokenKey_inj (h.row_clean hrow) hclean hkey
      exact ⟨htenant,hpurpose,hhash,of_decide_eq_true hlive,h.standing record hrow⟩
    · exact h.consumed _ _ _ _ _ _ _ hold
  · intro k
    have hcounted := h.counted k
    -- what is consumed under a key was the row under it
    have htaken : (if consumesKey k ⟨call,stored (.consumeOneTimeToken tenantId purpose tokenHash now)
        ((w.state.tokens.get (tokenKey tenantId purpose.text tokenHash)).filter fun r => now < r.expiresAt)⟩ =
          true then 1 else 0) +
        (if k = tokenKey tenantId purpose.text tokenHash then none else w.state.tokens.get k).isSome.toNat ≤
          (w.state.tokens.get k).isSome.toNat := by
      by_cases hk : k = tokenKey tenantId purpose.text tokenHash
      · subst hk
        rw [if_pos rfl]
        cases hget : w.state.tokens.get (tokenKey tenantId purpose.text tokenHash) with
        | none => simp [consumesKey]
        | some record =>
          rw [Option.isSome_none,Option.isSome_some]
          split <;> decide
      · rw [if_neg hk,if_neg]
        · omega
        · intro hconsumes
          unfold consumesKey at hconsumes
          split at hconsumes
          · rename_i heq
            have hop := congrArg Answered.op heq
            cases hop
            exact hk (of_decide_eq_true hconsumes).symm
          · cases hconsumes
    change List.countP _ (_ :: w.log) + ((w.state.tokens.delete _).get k).isSome.toNat ≤ List.countP _ (_ :: w.log)
    rw [List.countP_cons (p := issuesKey k),List.countP_cons (p := consumesKey k),Records.get_delete]
    change List.countP _ w.log + (if consumesKey k ⟨call,stored _ _⟩ = true then 1 else 0) + _ ≤ _
    omega
  · intro k
    rw [List.countP_cons_of_neg (by simp [issuesKey])]
    exact h.once k

theorem TokensKept.step (h : TokensKept w) {op : AuthOp} (hrests : Grounded o call past op) (hfresh : FreshToken call op w) :
    TokensKept (w.after env.perform call op) := by
  cases op with
  | query q =>
    apply h.other rfl
    · intro record hop
      cases hop
    · intro tenantId purpose tokenHash now hop
      cases hop
  | store op =>
    by_cases hput : ∃ record, op = .putOneTimeToken record
    · obtain ⟨record,rfl⟩ := hput
      obtain ⟨token,hhash⟩ := hrests.hash
      exact h.put (hhash ▸ o.platform.not_mem_hashToken token) hfresh
    · by_cases hconsume : ∃ tenantId purpose tokenHash now, op = .consumeOneTimeToken tenantId purpose tokenHash now
      · obtain ⟨tenantId,purpose,tokenHash,now,rfl⟩ := hconsume
        obtain ⟨-,⟨token,-,rfl⟩,-⟩ := hrests
        exact h.consume (o.platform.not_mem_hashToken token)
      · push Not at hput hconsume
        apply h.other (perform_tokens hput hconsume w.state)
        · intro record hop
          cases hop
          exact hput record rfl
        · intro tenantId purpose tokenHash now hop
          cases hop
          exact hconsume tenantId purpose tokenHash now rfl

end Steps

section Service
variable (o : MakeAuthOptions) (env : AuthEnvironment)

def newAuthWorld : AuthWorld := ⟨.newState,[]⟩

abbrev authSystem : System AuthPool (Turn AuthCall SecondFactorOp) := (authService o env).system newAuthWorld

def authorisedBy (tenantId : String) (purpose : OneTimeTokenPurpose) (tokenHash : String)
    (e : Ended AuthOp AuthOp.Reply AuthCall (Except AuthServiceError AuthAnswer)) : Bool :=
  e.answer.toOption.isSome && e.call.tenantId = tenantId &&
    e.call.request.presents.any fun presented => presented.1 = purpose && o.platform.hashToken presented.2 = tokenHash

/-- A success on a token rests on a consumption of it: the token was issued for this tenant, purpose and hash, has not
expired, and no newer one was issued for its email. -/
def RestsOnIssue (log : List AuthEntry) (call : AuthCall) (purpose : OneTimeTokenPurpose) (tokenHash : String) : Prop :=
  ∃ record now later before,
    log = later ++ ⟨call,stored (.consumeOneTimeToken call.tenantId purpose tokenHash now) (some record)⟩ :: before ∧
      record.tenantId = call.tenantId ∧ record.purpose = purpose ∧ record.tokenHash = tokenHash ∧ now < record.expiresAt ∧
      Standing record before

/-- A turn takes a token away only as its consumption or as that of a newer one for the same tenant, purpose and email,
and adds one only as its issue. -/
def TokensApart (s : AuthPool) (turn : Turn AuthCall SecondFactorOp) (s' : AuthPool) : Prop :=
  (∀ record ∈ s.world.state.tokens.rows, record ∈ s'.world.state.tokens.rows ∨
    ∃ i f, turn = .resume i ∧ s.fibers i = some f ∧
      ((∃ now, f.op = .store (.consumeOneTimeToken record.tenantId record.purpose record.tokenHash now)) ∨
        ∃ newer, f.op = .store (.putOneTimeToken newer) ∧ newer.tenantId = record.tenantId ∧
          newer.purpose = record.purpose ∧ newer.email = record.email)) ∧
  ∀ record ∈ s'.world.state.tokens.rows, record ∈ s.world.state.tokens.rows ∨
    ∃ i f, turn = .resume i ∧ s.fibers i = some f ∧ f.op = .store (.putOneTimeToken record)

variable {o env} {s s' : AuthPool}

theorem ofSecondFactor_tokens (op : SecondFactorOp) (state : MemoryState) : (state.perform op.1).2.tokens = state.tokens := by
  apply perform_tokens
  · rintro record hop
    have hsecond := op.2
    rw [hop] at hsecond
    cases hsecond
  · rintro tenantId purpose tokenHash now hop
    have hsecond := op.2
    rw [hop] at hsecond
    cases hsecond

theorem tokensKept_new : TokensKept newAuthWorld := by
  constructor
  · intro e hin
    cases hin
  · intro record hin
    cases hin
  · intro call tenantId purpose tokenHash now record before hs
    have hnil := List.suffix_nil.mp hs
    cases hnil
  · intro k
    exact Nat.le_refl 0
  · intro k
    exact Nat.zero_le 1

theorem tokens_kept (hr : (authSystem o env).Reaches (GivenTurn FreshToken) s) :
    TokensKept s.world ∧ Historic (Grounded o) (fun call past r => ∀ a, r = .ok a → Concluded o call past a) s := by
  refine historic_invariant (program_follows o) (fun _ _ h => h) tokensKept_new ?_ ?_ hr
  · intro op w h
    have htokens := ofSecondFactor_tokens op w.state
    constructor
    · exact h.clean
    · intro record hin
      exact h.standing record (htokens ▸ hin)
    · exact h.consumed
    · intro k
      exact htokens ▸ h.counted k
    · exact h.once
  · intro call past op w h _ hrests hfresh
    exact h.step hrests hfresh

theorem tokens_after (h : TokensKept s.world) {call : AuthCall} {past : List AuthAnswered} {op : AuthOp}
    (hrests : Grounded o call past op) (hfresh : FreshToken call op s.world) (record : OneTimeTokenRecord) :
    (record ∈ s.world.state.tokens.rows → record ∈ (s.world.after env.perform call op).state.tokens.rows ∨
      (∃ now, op = .store (.consumeOneTimeToken record.tenantId record.purpose record.tokenHash now)) ∨
        ∃ newer, op = .store (.putOneTimeToken newer) ∧ newer.tenantId = record.tenantId ∧
          newer.purpose = record.purpose ∧ newer.email = record.email) ∧
    (record ∈ (s.world.after env.perform call op).state.tokens.rows → record ∈ s.world.state.tokens.rows ∨
      op = .store (.putOneTimeToken record)) := by
  cases op with
  | query q => exact ⟨Or.inl,Or.inl⟩
  | store op =>
    by_cases hput : ∃ newer, op = .putOneTimeToken newer
    · obtain ⟨newer,rfl⟩ := hput
      constructor
      · intro hin
        by_cases hsuperseded : MemoryState.superseded newer record = true
        · exact Or.inr (Or.inr ⟨newer,rfl,superseded_iff.mp hsuperseded⟩)
        · left
          refine Records.mem_set.mpr (Or.inr ⟨Records.mem_deleteWhere.mpr ⟨hin,by simpa using hsuperseded⟩,?_⟩)
          -- the same key would be the same hash issued twice
          intro hkey
          obtain ⟨token,hhash⟩ := hrests.hash
          obtain ⟨-,-,hsame⟩ := tokenKey_inj (h.row_clean hin) (hhash ▸ o.platform.not_mem_hashToken token) hkey
          obtain ⟨since,call',before,hlog,-⟩ := h.standing record hin
          refine hfresh newer rfl ⟨call',stored (.putOneTimeToken record) ()⟩ ?_ record rfl hsame
          rw [hlog]
          simp
      · intro hin
        rcases Records.mem_set.mp hin with rfl | ⟨hold,-⟩
        · exact Or.inr rfl
        · exact Or.inl (Records.mem_deleteWhere.mp hold).1
    · by_cases hconsume : ∃ tenantId purpose tokenHash now, op = .consumeOneTimeToken tenantId purpose tokenHash now
      · obtain ⟨tenantId,purpose,tokenHash,now,rfl⟩ := hconsume
        obtain ⟨-,⟨token,-,hhash⟩,-⟩ := hrests
        have hclean : '\x00' ∉ tokenHash.toList := hhash ▸ o.platform.not_mem_hashToken token
        constructor
        · intro hin
          by_cases hkey : record.key = tokenKey tenantId purpose.text tokenHash
          · obtain ⟨rfl,rfl,rfl⟩ := tokenKey_inj (h.row_clean hin) hclean hkey
            exact Or.inr (Or.inl ⟨now,rfl⟩)
          · exact Or.inl (Records.mem_delete.mpr ⟨hin,hkey⟩)
        · intro hin
          exact Or.inl (Records.mem_delete.mp hin).1
      · push Not at hput hconsume
        have htokens := perform_tokens hput hconsume s.world.state
        constructor
        · intro hin
          exact Or.inl (htokens.symm ▸ hin)
        · intro hin
          exact Or.inl (htokens ▸ hin)

/-- One-time tokens are single use, superseded by newer ones, and apart from each other. -/
theorem one_time_tokens (o : MakeAuthOptions) (env : AuthEnvironment) (s : AuthPool)
    (hr : (authSystem o env).Reaches (GivenTurn FreshToken) s) :
    (∀ e ∈ s.ended, ∀ answer purpose token, e.answer = .ok answer → e.call.request.presents = some (purpose,token) →
      RestsOnIssue s.world.log e.call purpose (o.platform.hashToken token)) ∧
    (∀ tenantId purpose tokenHash, s.ended.countP (authorisedBy o tenantId purpose tokenHash) ≤ 1) ∧
    ∀ turn s', GivenTurn FreshToken s turn → (authService o env).step s turn = some s' → TokensApart s turn s' := by
  obtain ⟨hkept,hhistoric⟩ := tokens_kept hr
  have hconsumed : ∀ e ∈ s.ended, ∀ answer purpose token, e.answer = .ok answer →
      e.call.request.presents = some (purpose,token) → ∃ record now,
        stored (.consumeOneTimeToken e.call.tenantId purpose (o.platform.hashToken token) now) (some record) ∈ e.past := by
    intro e he answer purpose token hanswer hpresents
    obtain ⟨record,token',now,hpresents',hin⟩ := ((hhistoric.ended e he).1 answer hanswer).consumed purpose token hpresents
    obtain ⟨-,rfl⟩ := Prod.mk.inj (Option.some.inj (hpresents.symm.trans hpresents'))
    exact ⟨record,now,hin⟩
  refine ⟨?_,?_,?_⟩
  · intro e he answer purpose token hanswer hpresents
    obtain ⟨record,now,hin⟩ := hconsumed e he answer purpose token hanswer hpresents
    obtain ⟨later,before,hlog⟩ := List.append_of_mem ((hhistoric.ended e he).2.mem hin)
    have hsuffix : (⟨e.call,stored (.consumeOneTimeToken e.call.tenantId purpose (o.platform.hashToken token) now)
        (some record)⟩ : AuthEntry) :: before <:+ s.world.log := ⟨later,hlog.symm⟩
    obtain ⟨htenant,hpurpose,hhash,hlive,hstanding⟩ := hkept.consumed _ _ _ _ _ _ _ hsuffix
    exact ⟨record,now,later,before,hlog,htenant,hpurpose,hhash,hlive,hstanding⟩
  · intro tenantId purpose tokenHash
    have hle := ended_le_answered hr (P := authorisedBy o tenantId purpose tokenHash)
      (q := consumesKey (tokenKey tenantId purpose.text tokenHash)) ?_
    · have hcounted := hkept.counted (tokenKey tenantId purpose.text tokenHash)
      have honce := hkept.once (tokenKey tenantId purpose.text tokenHash)
      omega
    · intro e he hP
      simp only [authorisedBy,Bool.and_eq_true,decide_eq_true_eq,Option.any_eq_true] at hP
      obtain ⟨⟨hok,rfl⟩,⟨purpose',token⟩,hpresents,rfl,rfl⟩ := hP
      obtain ⟨answer,hanswer⟩ : ∃ answer, e.answer = .ok answer := by
        cases hanswer : e.answer with
        | error error =>
          rw [hanswer] at hok
          cases hok
        | ok answer => exact ⟨answer,rfl⟩
      obtain ⟨record,now,hin⟩ := hconsumed e he answer purpose' token hanswer hpresents
      exact ⟨_,hin,by simp [consumesKey]⟩
  · intro turn s' hgiven hs
    rcases Service.step_cases hs with ⟨i,call,rfl,-,rfl⟩ | ⟨i,f,rfl,hf,rfl⟩ | ⟨op,rfl,rfl⟩
    · constructor
      · intro record hin
        rw [Pool.place_world]
        exact Or.inl hin
      · intro record hin
        rw [Pool.place_world] at hin
        exact Or.inl hin
    · have hafter := @tokens_after _ env _ hkept _ _ _ (hhistoric.fibers i f hf).1.1 (hgiven i f rfl hf)
      constructor
      · intro record hin
        rw [Service.resumed_world]
        rcases (hafter record).1 hin with hstays | hop
        · exact Or.inl hstays
        · exact Or.inr ⟨i,f,rfl,hf,hop⟩
      · intro record hin
        rw [Service.resumed_world] at hin
        rcases (hafter record).2 hin with hold | hop
        · exact Or.inl hold
        · exact Or.inr ⟨i,f,rfl,hf,hop⟩
    · have htokens := ofSecondFactor_tokens op s.world.state
      constructor
      · intro record hin
        exact Or.inl (htokens.symm ▸ hin)
      · intro record hin
        exact Or.inl (htokens ▸ hin)

end Service

section MagicLinkRun

/-- A turn whose token, if it issues one, was not issued before. -/
def freshTurn (s : AuthPool) : Turn AuthCall SecondFactorOp → Bool
  | .resume i => (s.fibers i).all fun f =>
    match f.op with
    | .store (.putOneTimeToken record) => s.world.log.all fun e =>
      match e.answered.op with
      | .store (.putOneTimeToken earlier) => earlier.tokenHash ≠ record.tokenHash
      | _ => true
    | _ => true
  | _ => true

theorem fresh_of_freshTurn {s : AuthPool} {turn : Turn AuthCall SecondFactorOp} (h : freshTurn s turn = true) :
    GivenTurn FreshToken s turn := by
  rintro i f rfl hf record hop e hin earlier hearlier
  simp only [freshTurn,hf,Option.all_some,hop,List.all_eq_true] at h
  have hne := h e hin
  rw [hearlier] at hne
  simpa using hne

/-- The token of a link whose bytes are drawn by the `n`th operation. -/
def magicToken (n : UInt8) : String := encodeBase64Url (List.replicate 32 n)

def servedTurns (request : AuthRequest) (operations : ℕ) : List (Turn AuthCall SecondFactorOp) :=
  .arrive 0 ⟨"acme",request⟩ :: List.replicate operations (.resume 0)

/-- Two links are mailed. The first is then tried, and the second twice. -/
def magicLinkTurns : List (Turn AuthCall SecondFactorOp) :=
  servedTurns (.requestMagicLink "a@b") 7 ++ servedTurns (.requestMagicLink "a@b") 7 ++
    servedTurns (.consumeMagicLink (magicToken 3)) 4 ++ servedTurns (.consumeMagicLink (magicToken 10)) 14 ++
    servedTurns (.consumeMagicLink (magicToken 10)) 4

def linkUses (n : UInt8) (s : AuthPool) : ℕ :=
  s.ended.countP (authorisedBy plainAuthOptions "acme" .magicLink (plainPlatform.hashToken (magicToken n)))

theorem magicLinkTurns_run : (((authSystem plainAuthOptions plainAuthEnvironment).guard freshTurn).run magicLinkTurns).map
    (fun s => (s.ended.map fun e => e.answer.toOption.isSome,linkUses 3 s,linkUses 10 s)) =
      some ([false,true,false,true,true],0,1) := by
  decide +kernel

/-- Only the newer of two links signs in, and once: it was issued, and the older one is superseded. -/
theorem one_time_tokens_magic_link : ∃ s, ((authSystem plainAuthOptions plainAuthEnvironment).guard freshTurn).run
    magicLinkTurns =
    some s ∧ s.ended.map (fun e => e.answer.toOption.isSome) = [false,true,false,true,true] ∧ linkUses 3 s = 0 ∧
    linkUses 10 s = 1 ∧
    (∀ tenantId purpose tokenHash, s.ended.countP (authorisedBy plainAuthOptions tenantId purpose tokenHash) ≤ 1) ∧
    ∀ e ∈ s.ended, ∀ answer, e.answer = .ok answer → e.call.request.presents = some (.magicLink,magicToken 10) →
      RestsOnIssue s.world.log e.call .magicLink (plainPlatform.hashToken (magicToken 10)) := by
  obtain ⟨s,hrun,hends⟩ := Option.map_eq_some_iff.mp magicLinkTurns_run
  have hr := System.guard_run_reaches (fun _ _ => fresh_of_freshTurn) hrun
  obtain ⟨hends,hrest⟩ := Prod.mk.inj hends
  obtain ⟨hissued,hsingle,-⟩ := one_time_tokens plainAuthOptions plainAuthEnvironment s hr
  exact ⟨s,hrun,hends,congrArg Prod.fst hrest,congrArg Prod.snd hrest,hsingle,
    fun e he answer hok hpresents => hissued e he answer .magicLink (magicToken 10) hok hpresents⟩

end MagicLinkRun
end StructureAi.Identity

import StructureAi.Cqrs.Idempotency
import StructureAi.Foundation.JsonRoundTrip

/-! # Idempotency in one process

Over the in-memory store no handler runs beside or after another of its key. The key is free again
once the dispatch is over, unless the dispatch is interrupted where nothing releases it.
-/
namespace StructureAi.Cqrs
open StructureAi.Foundation

inductive MemoryRecord where
  | claimed (payloadHash : String)
  | completed (payloadHash : String) (result : Json)
deriving DecidableEq

def MemoryRecord.payloadHash : MemoryRecord → String
  | claimed payloadHash => payloadHash
  | completed payloadHash _ => payloadHash

abbrev MemoryRecords := String → Option MemoryRecord

def compositeKey (context : IdempotencyContext) : String :=
  context.tag ++ "\x00" ++ context.actor.getD "" ++ "\x00" ++ context.key

namespace MemoryRecords

/-- What `begin` finds under its key. -/
def found (payloadHash : String) (existing : MemoryRecord) : BeginOutcome :=
  if existing.payloadHash ≠ payloadHash then .mismatch
  else match existing with
    | .claimed _ => .inFlight
    | .completed _ result => .completed result

def begin (context : IdempotencyContext) (records : MemoryRecords) : BeginOutcome × MemoryRecords :=
  match records (compositeKey context) with
  | none => (.claimed,Function.update records (compositeKey context) (some (.claimed context.payloadHash)))
  | some existing => (found context.payloadHash existing,records)

def complete (context : IdempotencyContext) (result : Json) (records : MemoryRecords) : MemoryRecords :=
  Function.update records (compositeKey context) (some (.completed context.payloadHash result))

def release (context : IdempotencyContext) (records : MemoryRecords) : MemoryRecords :=
  match records (compositeKey context) with
  | some (.claimed _) => Function.update records (compositeKey context) none
  | _ => records

end MemoryRecords

/-- `IdempotencyStore.inMemory`: `begin` answers at once, and nothing fails. -/
def inMemory : IdempotencyStoreService MemoryRecords String Empty where
  init := fun _ => none
  id := compositeKey
  claim context records := (some (records.begin context).1,(records.begin context).2)
  existing _ _ := none
  existing_ne _ _ := nofun
  complete context result records := some (records.complete context result)
  release context records := records.release context
  durable := false
  outside := Empty.elim

section Run
variable {P A E : Type}

abbrev MemoryDispatches (A E : Type) := Dispatches MemoryRecords String A E

variable (registry : String → CommandDefinition P A) (sha256Hex : String → String) (catches : Bool)

abbrev memoryDispatches : System (MemoryDispatches A E) (Label P A E Empty) := dispatches inMemory registry sha256Hex catches

/-- Whoever holds a key made the claim that is recorded under it. -/
structure Dispatches.Kept (s : MemoryDispatches A E) : Prop where
  sound : Fibers.All (Dispatch.Sound registry sha256Hex) s.dispatches
  held : ∀ i d, s.dispatches i = some d → d.phase.Holds →
    s.store (compositeKey d.context) = some (.claimed d.context.payloadHash) ∧ s.claimedBy (compositeKey d.context) = some i

def Dispatches.Held (s : MemoryDispatches A E) : Prop := ∀ k payloadHash, s.store k = some (.claimed payloadHash) →
  ∃ i d, s.dispatches i = some d ∧ d.phase.Holds ∧ compositeKey d.context = k

variable {registry sha256Hex catches} {store store' : MemoryRecords} {d d' : Dispatch A E} {a : Act A E}
    {s s' : MemoryDispatches A E}

theorem MemoryRecords.begin_claimed {context : IdempotencyContext} {records : MemoryRecords}
    (h : (records.begin context).1 = .claimed) : records (compositeKey context) = none ∧
      (records.begin context).2 = Function.update records (compositeKey context) (some (.claimed context.payloadHash)) := by
  unfold MemoryRecords.begin at h ⊢
  split at h
  next hfree => simp only [hfree,and_self]
  next existing hfound =>
    unfold MemoryRecords.found at h
    split at h
    · cases h
    · split at h <;> cases h

theorem MemoryRecords.begin_of_ne {context : IdempotencyContext} {records : MemoryRecords}
    (h : (records.begin context).1 ≠ .claimed) : (records.begin context).2 = records := by
  unfold MemoryRecords.begin at h ⊢
  split at h
  next => exact absurd rfl h
  next existing _ => rfl

/-- What a step does to the records: it claims a free key, records a success under the key it
holds, frees it, or leaves them as they are. -/
theorem Dispatch.memory_cases (h : d.next inMemory registry catches store a = some (d',store')) :
    (d'.phase = .claimed ∧ d.claims inMemory store a = true ∧ store (compositeKey d.context) = none ∧
      store' = Function.update store (compositeKey d.context) (some (.claimed d.context.payloadHash))) ∨
    (∃ result encoded, d.phase = .complete result encoded ∧ d'.phase = .ended (.success result) ∧
      d.claims inMemory store a = false ∧
      d'.succeeded = d.succeeded ∧ store' = store.complete d.context encoded) ∨
    (∃ cause exit, d.phase = .release cause ∧ d'.phase = .ended exit ∧ d.claims inMemory store a = false ∧
      store' = store.release d.context) ∨
    (store' = store ∧ (d'.phase.Holds → d.phase.Holds) ∧ d.claims inMemory store a = false ∧
      (d.phase.Holds → d'.phase.Holds ∨ a = .interrupt ∧ d.phase.cut catches = some d'.phase)) := by
  have hok : ∀ {answer : Answer}, Possible inMemory answer → answer = .ok := by
    intro answer hp
    exact hp.resolve_right Bool.false_ne_true
  rcases Dispatch.next_cases h with ⟨answer,rfl,hphase,hp,rfl,rfl⟩ | ⟨answer,result,encoded,recorded,rfl,hphase,hp,hrec,
    rfl,rfl⟩ |
    ⟨_,_,encoded,-,-,-,hnone,-,-⟩ | ⟨answer,cause,rfl,hphase,hp,⟨exit,rfl⟩,rfl⟩ | ⟨rfl,hstill⟩
  · obtain rfl := hok hp
    by_cases hclaimed : (store.begin d.context).1 = .claimed
    · obtain ⟨hfree,hafter⟩ := MemoryRecords.begin_claimed hclaimed
      refine Or.inl ⟨?_,?_,hfree,hafter⟩
      · simp only [Answer.goOn,Dispatch.claimedPhase,inMemory,hclaimed]
        rfl
      · simp only [Dispatch.claims,inMemory,hclaimed]
        rfl
    · refine Or.inr (Or.inr (Or.inr ⟨MemoryRecords.begin_of_ne hclaimed,?_,?_,?_⟩))
      · intro holds
        exact absurd (Phase.holds_begun _ holds) hclaimed
      · simp only [Dispatch.claims,inMemory]
        split
        next heq => exact absurd (Option.some.inj heq) hclaimed
        next => rfl
      · intro holds
        rw [hphase] at holds
        exact absurd holds id
  · obtain rfl := hok hp
    cases hrec
    exact Or.inr (Or.inl ⟨result,encoded,hphase,rfl,rfl,rfl,rfl⟩)
  · cases hnone
  · obtain rfl := hok hp
    exact Or.inr (Or.inr (Or.inl ⟨cause,exit,hphase,rfl,rfl,rfl⟩))
  · refine Or.inr (Or.inr (Or.inr ⟨rfl,hstill.holds,?_,hstill.keeps⟩))
    cases a with
    | begin answer => exact absurd rfl (hstill.claims answer)
    | _ => rfl

theorem MemoryRecords.complete_self (records : MemoryRecords) (context : IdempotencyContext) (result : Json) :
    records.complete context result (compositeKey context) = some (.completed context.payloadHash result) :=
  Function.update_self _ _ _

theorem MemoryRecords.release_of_ne (records : MemoryRecords) {context : IdempotencyContext} {k : String}
    (h : k ≠ compositeKey context) : records.release context k = records k := by
  unfold MemoryRecords.release
  cases hrecord : records (compositeKey context) with
  | none => rfl
  | some record =>
    cases record with
    | claimed payloadHash => exact Function.update_of_ne h _ _
    | completed payloadHash result => rfl

theorem MemoryRecords.release_self (records : MemoryRecords) (context : IdempotencyContext) {payloadHash : String} :
    records.release context (compositeKey context) ≠ some (.claimed payloadHash) := by
  unfold MemoryRecords.release
  cases hrecord : records (compositeKey context) with
  | none =>
    change records (compositeKey context) ≠ _
    rw [hrecord]
    exact nofun
  | some record =>
    cases record with
    | claimed payloadHash =>
      change Function.update records (compositeKey context) none (compositeKey context) ≠ _
      rw [Function.update_self]
      exact nofun
    | completed payloadHash result =>
      change records (compositeKey context) ≠ _
      rw [hrecord]
      exact nofun

theorem Dispatch.memory_frame (h : d.next inMemory registry catches store a = some (d',store')) {k : String}
    (hk : k ≠ compositeKey d.context) : store' k = store k := by
  rcases Dispatch.memory_cases h with ⟨-,-,-,rfl⟩ | ⟨-,-,-,-,-,-,rfl⟩ | ⟨-,-,-,-,-,rfl⟩ | ⟨rfl,-⟩
  · exact Function.update_of_ne hk _ _
  · exact Function.update_of_ne hk _ _
  · exact store.release_of_ne hk
  · rfl

theorem IdempotencyContext.SameKey.compositeKey_eq {context context' : IdempotencyContext} (h : context.SameKey context') :
    compositeKey context = compositeKey context' := by
  obtain ⟨htag,hactor,hkey⟩ := h
  rw [compositeKey,compositeKey,htag,hactor,hkey]

theorem Dispatches.Kept.holds_unique (hs : s.Kept registry sha256Hex) {i j : ℕ} {e : Dispatch A E} (hd : s.dispatches i = some d)
    (he : s.dispatches j = some e) (hd' : d.phase.Holds) (he' : e.phase.Holds)
    (hk : compositeKey d.context = compositeKey e.context) : i = j := by
  have hi := (hs.held i d hd hd').2
  rw [hk,(hs.held j e he he').2] at hi
  exact (Option.some.inj hi).symm

theorem Dispatches.Kept.step {l : Label P A E Empty} (hs : s.Kept registry sha256Hex)
    (h : s.step inMemory registry sha256Hex catches l = some s') : s'.Kept registry sha256Hex := by
  refine ⟨Dispatches.sound_step hs.sound h,?_⟩
  rcases Dispatches.step_cases h with ⟨i,tag,key,actor,payload,encodedPayload,-,-,rfl⟩ | ⟨-,-,-,-,-,-,rfl⟩ |
    ⟨i,a,d,d',store,-,hd,hnext,rfl⟩ | ⟨w,-,-⟩
  · intro j g hg holds
    rcases Fibers.set_cases hg with ⟨-,rfl⟩ | ⟨-,hold⟩
    · exact absurd holds id
    · exact hs.held j g hold holds
  · exact hs.held
  · have hcontext := (Dispatch.next_keeps hnext).1
    intro j g hg holds
    rcases Fibers.set_cases hg with ⟨rfl,rfl⟩ | ⟨hj,hold⟩
    · rcases Dispatch.memory_cases hnext with ⟨-,hclaims,-,rfl⟩ | ⟨result,_,-,hended,-⟩ | ⟨_,exit,-,hended,-⟩ |
        ⟨rfl,hholds,hclaims,-⟩
      · rw [hcontext]
        simp only [hclaims,if_true]
        exact ⟨Function.update_self _ _ _,Function.update_self _ _ _⟩
      · rw [hended] at holds
        exact absurd holds id
      · rw [hended] at holds
        exact absurd holds id
      · rw [hcontext]
        simp only [hclaims]
        exact hs.held j d hd (hholds holds)
    · obtain ⟨hclaimed,howner⟩ := hs.held j g hold holds
      by_cases hk : compositeKey g.context = compositeKey d.context
      · rcases Dispatch.memory_cases hnext with ⟨-,-,hfree,-⟩ | ⟨result,encoded,hphase,-⟩ | ⟨cause,exit,hphase,-⟩ |
          ⟨rfl,-,hclaims,-⟩
        · rw [← hk,hclaimed] at hfree
          cases hfree
        · have hdholds : d.phase.Holds := by
            rw [hphase]
            trivial
          exact absurd (hs.holds_unique hold hd holds hdholds hk) hj
        · have hdholds : d.phase.Holds := by
            rw [hphase]
            trivial
          exact absurd (hs.holds_unique hold hd holds hdholds hk) hj
        · simp only [hclaims]
          exact ⟨hclaimed,howner⟩
      · refine ⟨(Dispatch.memory_frame hnext hk).trans hclaimed,?_⟩
        change (if d.claims inMemory s.store a = true then _ else _ : String → Option ℕ) _ = _
        split
        · exact (Function.update_of_ne hk _ _).trans howner
        · exact howner
  · exact w.elim

theorem kept_of_leads {allow : MemoryDispatches A E → Label P A E Empty → Prop} (hs : s.Kept registry sha256Hex)
    (h : (memoryDispatches registry sha256Hex catches).Leads allow s s') : s'.Kept registry sha256Hex :=
  h.invariant (Dispatches.Kept registry sha256Hex) hs fun _ _ _ ha _ hstep => ha.step hstep

theorem kept_of_reachable (h : (memoryDispatches registry sha256Hex catches).Reachable s) : s.Kept registry sha256Hex := by
  apply kept_of_leads ⟨Fibers.all_empty _,?_⟩ h
  intro i d hd
  cases hd

theorem Dispatches.Kept.recorded_step {l : Label P A E Empty} (hs : s.Kept registry sha256Hex) {k : String}
    {payloadHash : String}
    {result : Json} (hr : s.store k = some (.completed payloadHash result))
    (h : s.step inMemory registry sha256Hex catches l = some s') : s'.store k = some (.completed payloadHash result) := by
  rcases Dispatches.step_cases h with ⟨i,tag,key,actor,payload,encodedPayload,-,-,rfl⟩ | ⟨-,-,-,-,-,-,rfl⟩ |
    ⟨i,a,d,d',store,-,hd,hnext,rfl⟩ | ⟨w,-,-⟩
  · exact hr
  · exact hr
  · by_cases hk : k = compositeKey d.context
    · have hfree : ¬ d.phase.Holds := by
        intro holds
        have hclaimed := (hs.held i d hd holds).1
        rw [← hk,hr] at hclaimed
        cases hclaimed
      rcases Dispatch.memory_cases hnext with ⟨-,-,hnone,-⟩ | ⟨result,encoded,hphase,-⟩ | ⟨cause,exit,hphase,-⟩ | ⟨rfl,-⟩
      · rw [← hk,hr] at hnone
        cases hnone
      · rw [hphase] at hfree
        exact absurd trivial hfree
      · rw [hphase] at hfree
        exact absurd trivial hfree
      · exact hr
    · exact (Dispatch.memory_frame hnext hk).trans hr
  · exact w.elim

theorem recorded_of_leads {allow : MemoryDispatches A E → Label P A E Empty → Prop} (hs : s.Kept registry sha256Hex) {k : String}
    {payloadHash : String} {result : Json} (hr : s.store k = some (.completed payloadHash result))
    (h : (memoryDispatches registry sha256Hex catches).Leads allow s s') : s'.store k =
      some (.completed payloadHash result) := by
  have hboth : s'.Kept registry sha256Hex ∧ s'.store k = some (.completed payloadHash result) := by
    apply h.invariant (fun t => t.Kept registry sha256Hex ∧ t.store k = some (.completed payloadHash result)) ⟨hs,hr⟩
    intro t l t' ht _ hstep
    exact ⟨ht.1.step hstep,ht.1.recorded_step ht.2 hstep⟩
  exact hboth.2

/-- The handler and the encoding of its success are under `catchAllCause`. -/
def Phase.Guarded : Phase A E → Prop
  | execute | encode _ => True
  | _ => False

/-- An interruption does not hit a dispatch that holds its key, but where the runtime lets
`catchAllCause` see it. -/
def Uncut (catches : Bool) (s : MemoryDispatches A E) : Label P A E Empty → Prop
  | .act i .interrupt => ∀ d, s.dispatches i = some d → d.phase.Holds → catches = true ∧ d.phase.Guarded
  | _ => True

theorem Phase.holds_cut_guarded {phase phase' : Phase A E} (h : phase.cut true = some phase') (hg : phase.Guarded) :
    phase'.Holds := by
  cases phase with
  | execute =>
    cases h
    trivial
  | encode result =>
    cases h
    trivial
  | _ => exact absurd hg id

theorem Phase.cut_ended {phase phase' : Phase A E} (h : phase.cut catches = some phase') (hp : phase.Holds)
    (hg : ¬ (catches = true ∧ phase.Guarded)) : phase' = .ended .interrupted := by
  cases phase with
  | claimed => exact (Option.some.inj h).symm
  | execute =>
    cases catches with
    | false => exact (Option.some.inj h).symm
    | true => exact absurd ⟨rfl,trivial⟩ hg
  | encode result =>
    cases catches with
    | false => exact (Option.some.inj h).symm
    | true => exact absurd ⟨rfl,trivial⟩ hg
  | release cause => exact (Option.some.inj h).symm
  | complete result encoded => exact (Option.some.inj h).symm
  | _ => exact absurd hp id

theorem Dispatches.Held.step {l : Label P A E Empty} (hheld : s.Held) (hl : Uncut catches s l)
    (h : s.step inMemory registry sha256Hex catches l = some s') : s'.Held := by
  intro k payloadHash hk
  rcases Dispatches.step_cases h with ⟨i,tag,key,actor,payload,encodedPayload,-,hfree,rfl⟩ | ⟨-,-,-,-,-,-,rfl⟩ |
    ⟨i,a,d,d',store,rfl,hd,hnext,rfl⟩ | ⟨w,-,-⟩
  · obtain ⟨j,e,he,holds,hek⟩ := hheld k payloadHash hk
    have hj : j ≠ i := by
      rintro rfl
      rw [hfree] at he
      cases he
    exact ⟨j,e,(Fibers.set_of_ne _ _ hj).trans he,holds,hek⟩
  · exact hheld k payloadHash hk
  · have hcontext : d'.context = d.context := (Dispatch.next_keeps hnext).1
    by_cases hkd : k = compositeKey d.context
    · rcases Dispatch.memory_cases hnext with ⟨hphase,-⟩ | ⟨result,encoded,-,-,-,-,rfl⟩ | ⟨cause,exit,-,-,-,rfl⟩ |
        ⟨rfl,-,-,hkeeps⟩
      · refine ⟨i,d',Fibers.set_self _ _ _,?_,?_⟩
        · rw [hphase]
          trivial
        · rw [hcontext,hkd]
      · rw [hkd] at hk
        cases hk.symm.trans (MemoryRecords.complete_self s.store d.context encoded)
      · rw [hkd] at hk
        exact absurd hk (MemoryRecords.release_self _ _)
      · obtain ⟨j,e,he,holds,hek⟩ := hheld k payloadHash hk
        by_cases hj : j = i
        · subst hj
          obtain rfl : d = e := Option.some.inj (hd.symm.trans he)
          refine ⟨j,d',Fibers.set_self _ _ _,?_,by rw [hcontext,hek]⟩
          rcases hkeeps holds with hd' | ⟨rfl,hcut⟩
          · exact hd'
          · obtain ⟨rfl,hg⟩ := hl d hd holds
            exact Phase.holds_cut_guarded hcut hg
        · exact ⟨j,e,(Fibers.set_of_ne _ _ hj).trans he,holds,hek⟩
    · replace hk : s.store k = some (.claimed payloadHash) := (Dispatch.memory_frame hnext hkd).symm.trans hk
      obtain ⟨j,e,he,holds,hek⟩ := hheld k payloadHash hk
      have hj : j ≠ i := by
        rintro rfl
        obtain rfl : d = e := Option.some.inj (hd.symm.trans he)
        exact hkd hek.symm
      exact ⟨j,e,(Fibers.set_of_ne _ _ hj).trans he,holds,hek⟩
  · exact w.elim

theorem held_of_reaches (h : (memoryDispatches registry sha256Hex catches).Reaches (Uncut catches) s) : s.Held := by
  apply h.invariant Dispatches.Held
  · intro k payloadHash hk
    cases hk
  · intro t l t' ht hl hstep
    exact ht.step hl hstep

variable (registry sha256Hex) in
/-- The dispatch that claimed the key is over, and the claim is still there. -/
structure Dispatches.Lost (s : MemoryDispatches A E) (i : ℕ) (k payloadHash : String) : Prop where
  kept : s.Kept registry sha256Hex
  claimed : s.store k = some (.claimed payloadHash)
  claimedBy : s.claimedBy k = some i
  ended : ∃ d exit, s.dispatches i = some d ∧ d.phase = .ended exit

theorem Dispatches.Lost.step {l : Label P A E Empty} {i : ℕ} {k payloadHash : String}
    (hs : s.Lost registry sha256Hex i k payloadHash)
    (h : s.step inMemory registry sha256Hex catches l = some s') : s'.Lost registry sha256Hex i k payloadHash := by
  have hkept := hs.kept.step h
  obtain ⟨e,exit,he,hexit⟩ := hs.ended
  rcases Dispatches.step_cases h with ⟨j,tag,key,actor,payload,encodedPayload,-,hfree,rfl⟩ | ⟨-,-,-,-,-,-,rfl⟩ |
    ⟨j,a,d,d',store,rfl,hd,hnext,rfl⟩ | ⟨w,-,-⟩
  · have hi : i ≠ j := by
      rintro rfl
      rw [hfree] at he
      cases he
    exact ⟨hkept,hs.claimed,hs.claimedBy,e,exit,(Fibers.set_of_ne _ _ hi).trans he,hexit⟩
  · exact hs
  · have hi : i ≠ j := by
      rintro rfl
      obtain rfl : d = e := Option.some.inj (hd.symm.trans he)
      rw [Dispatch.next_ended hexit] at hnext
      cases hnext
    have hended := (Fibers.set_of_ne s.dispatches d' hi).trans he
    by_cases hk : k = compositeKey d.context
    · have hnot : ¬ d.phase.Holds := by
        intro holds
        have howner := (hs.kept.held j d hd holds).2
        rw [← hk,hs.claimedBy] at howner
        exact hi (Option.some.inj howner)
      rcases Dispatch.memory_cases hnext with ⟨-,-,hnone,-⟩ | ⟨result,encoded,hphase,-⟩ | ⟨cause,exit,hphase,-⟩ |
        ⟨rfl,-,hclaims,-⟩
      · rw [← hk,hs.claimed] at hnone
        cases hnone
      · rw [hphase] at hnot
        exact absurd trivial hnot
      · rw [hphase] at hnot
        exact absurd trivial hnot
      · refine ⟨hkept,hs.claimed,?_,e,exit,hended,hexit⟩
        simp only [hclaims]
        exact hs.claimedBy
    · refine ⟨hkept,(Dispatch.memory_frame hnext hk).trans hs.claimed,?_,e,exit,hended,hexit⟩
      change (if d.claims inMemory s.store a = true then _ else _ : String → Option ℕ) _ = _
      split
      · exact (Function.update_of_ne hk _ _).trans hs.claimedBy
      · exact hs.claimedBy
  · exact w.elim

theorem lost_of_cut {l : Label P A E Empty} (hs : s.Kept registry sha256Hex) (hl : ¬ Uncut catches s l)
    (h : s.step inMemory registry sha256Hex catches l = some s') : ∃ i d, s.dispatches i = some d ∧
      s'.Lost registry sha256Hex i (compositeKey d.context) d.context.payloadHash := by
  have hkept := hs.step h
  rcases Dispatches.step_cases h with ⟨j,tag,key,actor,payload,encodedPayload,rfl,hfree,rfl⟩ | ⟨_,_,_,_,_,rfl,-⟩ |
    ⟨j,a,d,d',store,rfl,hd,hnext,rfl⟩ | ⟨w,-,-⟩
  · exact absurd trivial hl
  · exact absurd trivial hl
  · cases a with
    | interrupt =>
      obtain ⟨phase,hcut,hstep⟩ := Option.map_eq_some_iff.mp (show (d.phase.cut catches).map _ = some (d',store) from hnext)
      cases hstep
      have hboth : d.phase.Holds ∧ ¬ (catches = true ∧ d.phase.Guarded) := by
        by_contra hcon
        apply hl
        intro e he holds
        obtain rfl : d = e := Option.some.inj (hd.symm.trans he)
        by_contra hnot
        exact hcon ⟨holds,hnot⟩
      obtain ⟨hclaimed,howner⟩ := hs.held j d hd hboth.1
      exact ⟨j,d,hd,hkept,hclaimed,howner,_,_,Fibers.set_self _ _ _,Phase.cut_ended hcut hboth.1 hboth.2⟩
    | _ => exact absurd trivial hl
  · exact w.elim

theorem Dispatches.Kept.exclusive (hs : s.Kept registry sha256Hex) {i j : ℕ} {context : IdempotencyContext}
    (hi : s.Runs i context)
    (hj : s.Runs j context) : i = j := by
  obtain ⟨d,hd,hphase,hkey⟩ := hi
  obtain ⟨e,he,hphase',hkey'⟩ := hj
  have hdh : d.phase.Holds := by
    rw [hphase]
    trivial
  have heh : e.phase.Holds := by
    rw [hphase']
    trivial
  exact hs.holds_unique hd he hdh heh (hkey.compositeKey_eq.trans hkey'.compositeKey_eq.symm)

theorem Dispatch.next_complete (h : d.next inMemory registry catches store (.complete .ok) = some (d',store')) :
    ∃ result encoded, d.phase = .complete result encoded ∧ store' = store.complete d.context encoded := by
  obtain ⟨context,encodedPayload,phase,succeeded⟩ := d
  cases phase with
  | complete result encoded =>
    cases h
    exact ⟨result,encoded,rfl,rfl⟩
  | _ => cases h

theorem Dispatch.next_begin (h : d.next inMemory registry catches store (.begin .ok) = some (d',store')) :
    d' = {d with phase := (registry d.context.tag).begun (store.begin d.context).1} := by
  obtain ⟨context,encodedPayload,phase,succeeded⟩ := d
  cases phase with
  | begin =>
    cases h
    rfl
  | _ => cases h

theorem Dispatches.Kept.recorded_complete (hs : s.Kept registry sha256Hex) {i : ℕ}
    (h : s.step inMemory registry sha256Hex catches (.act i (.complete .ok) : Label P A E Empty) = some s') :
    ∃ d result encoded, s.dispatches i = some d ∧ d.succeeded = some result ∧ (registry d.context.tag).encode result =
      some encoded ∧
      s'.store (compositeKey d.context) = some (.completed d.context.payloadHash encoded) := by
  rcases Dispatches.step_cases h with ⟨_,_,_,_,_,_,hl,-⟩ | ⟨_,_,_,_,_,hl,-⟩ | ⟨j,a,d,d',store,hl,hd,hnext,rfl⟩ | ⟨w,-,-⟩
  · cases hl
  · cases hl
  · cases hl
    obtain ⟨result,encoded,hphase,rfl⟩ := Dispatch.next_complete hnext
    have hshows := (hs.sound i d hd).shows
    rw [hphase] at hshows
    exact ⟨d,result,encoded,hd,hshows.1,hshows.2,MemoryRecords.complete_self _ _ _⟩
  · exact w.elim

theorem Dispatches.Kept.begin_recorded (hs : s.Kept registry sha256Hex) {j : ℕ} {e : Dispatch A E} (he : s.dispatches j = some e)
    {payloadHash : String} {encoded : Json} (hr : s.store (compositeKey e.context) = some (.completed payloadHash encoded))
    (h : s.step inMemory registry sha256Hex catches (.act j (.begin .ok) : Label P A E Empty) = some s') :
    (sha256Hex e.encodedPayload.stableJson = payloadHash → s'.dispatches j =
      some {e with phase := .ended ((registry e.context.tag).replay encoded)}) ∧
    (sha256Hex e.encodedPayload.stableJson ≠ payloadHash →
      s'.dispatches j = some {e with phase := .ended .idempotencyMismatch}) := by
  have hhash := (hs.sound j e he).payloadHash
  rcases Dispatches.step_cases h with ⟨_,_,_,_,_,_,hl,-⟩ | ⟨_,_,_,_,_,hl,-⟩ | ⟨i,a,d,d',store,hl,hd,hnext,rfl⟩ | ⟨w,-,-⟩
  · cases hl
  · cases hl
  · cases hl
    obtain rfl : d = e := Option.some.inj (hd.symm.trans he)
    obtain rfl := Dispatch.next_begin hnext
    have hbegin : (s.store.begin d.context).1 = MemoryRecords.found d.context.payloadHash (.completed payloadHash encoded) := by
      rw [MemoryRecords.begin,hr]
    have hset : ∀ g : Dispatch A E, (s.dispatches.set j g) j = some g := fun g => Fibers.set_self _ _ _
    constructor
    · intro hsame
      refine (hset _).trans ?_
      rw [hbegin,MemoryRecords.found,if_neg (fun hne => hne (hsame.symm.trans hhash.symm))]
      rfl
    · intro hother
      refine (hset _).trans ?_
      rw [hbegin,MemoryRecords.found,if_pos (fun heq => hother (hhash.symm.trans heq.symm))]
      rfl
  · exact w.elim

theorem Dispatches.Held.free (hs : s.Held) (hq : s.Quiet) (k payloadHash : String) :
    s.store k ≠ some (.claimed payloadHash) := by
  intro hk
  obtain ⟨i,d,hd,holds,-⟩ := hs k payloadHash hk
  obtain ⟨exit,hexit⟩ := hq i d hd
  rw [hexit] at holds
  exact holds

theorem MemoryRecords.begin_inFlight {records : MemoryRecords} {context : IdempotencyContext}
    (h : (records.begin context).1 = .inFlight) : ∃ payloadHash, records (compositeKey context) =
      some (.claimed payloadHash) := by
  unfold MemoryRecords.begin at h
  split at h
  next => cases h
  next existing hfound =>
    unfold MemoryRecords.found at h
    split at h
    · cases h
    · cases existing with
      | claimed payloadHash => exact ⟨payloadHash,hfound⟩
      | completed payloadHash result => cases h

section Protocol
variable (registry sha256Hex catches)

/-- The protocol. In every run, the handler of a key never runs beside itself; once a success of it is
recorded, it never runs again, and a later dispatch is answered with this success if its payload
is the same one but for members named `__proto__`, or fails if it is another that the hash tells
apart. In a run without an interruption that is cut off, no key is claimed when nothing is in
flight; and any other interruption leaves its key claimed for good. -/
theorem idempotency_protocol :
    (∀ s : MemoryDispatches A E, (memoryDispatches registry sha256Hex catches).Reachable s → ∀ i j context,
      s.Runs i context → s.Runs j context → i = j) ∧
    (∀ (s s₁ : MemoryDispatches A E) i, (memoryDispatches registry sha256Hex catches).Reachable s →
      (memoryDispatches registry sha256Hex catches).step s (.act i (.complete .ok)) = some s₁ →
      ∃ d result encoded, s.dispatches i = some d ∧ d.succeeded = some result ∧ (registry d.context.tag).encode result =
        some encoded ∧
        ∀ s', (memoryDispatches registry sha256Hex catches).Leads (fun _ _ => True) s₁ s' → (∀ j, ¬ s'.Runs j d.context) ∧
          ∀ j e s'', s'.dispatches j = some e → e.context.SameKey d.context →
            (memoryDispatches registry sha256Hex catches).step s' (.act j (.begin .ok)) = some s'' →
            (e.encodedPayload.withoutProto.canonical = d.encodedPayload.withoutProto.canonical → s''.dispatches j =
              some {e with phase := .ended ((registry d.context.tag).replay encoded)}) ∧
            ((sha256Hex e.encodedPayload.stableJson = sha256Hex d.encodedPayload.stableJson →
                e.encodedPayload.stableJson = d.encodedPayload.stableJson) →
              e.encodedPayload.withoutProto.canonical ≠ d.encodedPayload.withoutProto.canonical → s''.dispatches j =
                some {e with phase := .ended .idempotencyMismatch})) ∧
    (∀ s : MemoryDispatches A E, (memoryDispatches registry sha256Hex catches).Reaches (Uncut catches) s → s.Quiet →
      ∀ context, (∀ payloadHash, s.store (compositeKey context) ≠ some (.claimed payloadHash)) ∧
        (s.store.begin context).1 ≠ .inFlight) ∧
    ∀ (s s₁ : MemoryDispatches A E) l, (memoryDispatches registry sha256Hex catches).Reachable s → ¬ Uncut catches s l →
      (memoryDispatches registry sha256Hex catches).step s l = some s₁ → ∃ i d, s.dispatches i = some d ∧
        ∀ s', (memoryDispatches registry sha256Hex catches).Leads (fun _ _ => True) s₁ s' →
          s'.store (compositeKey d.context) = some (.claimed d.context.payloadHash) := by
  refine ⟨?_,?_,?_,?_⟩
  · intro s hs i j context hi hj
    exact (kept_of_reachable hs).exclusive hi hj
  · intro s s₁ i hs hstep
    have hkept := kept_of_reachable hs
    obtain ⟨d,result,encoded,hd,hsucceeded,hencoded,hrecorded⟩ := hkept.recorded_complete hstep
    refine ⟨d,result,encoded,hd,hsucceeded,hencoded,?_⟩
    intro s' hleads
    have hkept₁ : s₁.Kept registry sha256Hex :=
      hkept.step (show s.step inMemory registry sha256Hex catches (.act i (.complete .ok)) = some s₁ from hstep)
    have hkept' := kept_of_leads hkept₁ hleads
    have hstays := recorded_of_leads hkept₁ hrecorded hleads
    constructor
    · rintro j ⟨e,he,hphase,hkey⟩
      have holds : e.phase.Holds := by
        rw [hphase]
        trivial
      have hclaimed := (hkept'.held j e he holds).1
      rw [hkey.compositeKey_eq,hstays] at hclaimed
      cases hclaimed
    · intro j e s'' he hkey hbegin
      have hfound := hkept'.begin_recorded he (hkey.compositeKey_eq ▸ hstays) hbegin
      rw [hkey.1,(hkept.sound i d hd).payloadHash] at hfound
      constructor
      · intro hsame
        apply hfound.1
        rw [Json.stableJson,Json.stableJson,hsame]
      · intro hcollide hother
        apply hfound.2
        intro heq
        exact hother (Json.stringify_injective (hcollide heq))
  · intro s hs hq context
    have hfree := (held_of_reaches hs).free hq
    refine ⟨hfree _,?_⟩
    intro hin
    obtain ⟨payloadHash,hclaimed⟩ := MemoryRecords.begin_inFlight hin
    exact hfree _ _ hclaimed
  · intro s s₁ l hs hl hstep
    obtain ⟨i,d,hd,hlost⟩ := lost_of_cut (kept_of_reachable hs) hl hstep
    refine ⟨i,d,hd,?_⟩
    intro s' hleads
    have hlost' : s'.Lost registry sha256Hex i (compositeKey d.context) d.context.payloadHash :=
      hleads.invariant (fun t => t.Lost registry sha256Hex i (compositeKey d.context) d.context.payloadHash) hlost
        fun _ _ _ ht _ hnext => ht.step hnext
    exact hlost'.claimed

end Protocol

section Interrupted

/-- A command whose payload and success are their own wire forms. -/
def plainCommand : CommandDefinition Json Json := ⟨some,some,some⟩

/-- The digest of `null`. -/
def digestOfNull : String := "74234e98afe7498fb5daf1f36ac2d78acc339464f950703b8c019892f982b90b"

/-- One dispatch, whose handler succeeded, is interrupted before the success is recorded. -/
def interruptedRun : List (Label Json Json Unit Empty) :=
  [.dispatch 0 "PlaceOrder" "k" none .null,.act 0 (.begin .ok),.act 0 .enter,.act 0 (.handler (.ok .null)),.act 0 .encode,
    .act 0 .interrupt]

def interruptedContext : IdempotencyContext := ⟨"k","PlaceOrder",none,digestOfNull⟩

def alone (store : MemoryRecords) (phase : Phase Json Unit) (succeeded : Option Json) (claimedBy : String → Option ℕ) :
    MemoryDispatches Json Unit := ⟨store,Fibers.empty.set 0 ⟨interruptedContext,.null,phase,succeeded⟩,claimedBy⟩

theorem step_alone {catches : Bool} {store store' : MemoryRecords} {phase phase' : Phase Json Unit}
    {succeeded succeeded' : Option Json}
    {claimedBy : String → Option ℕ} {a : Act Json Unit}
    (hnext : Dispatch.next inMemory (fun _ => plainCommand) catches store ⟨interruptedContext,.null,phase,succeeded⟩ a =
      some (⟨interruptedContext,.null,phase',succeeded'⟩,store')) :
    (memoryDispatches (fun _ => plainCommand) (fun _ => digestOfNull) catches).step (alone store phase succeeded claimedBy)
        (.act 0 a : Label Json Json Unit Empty) =
      some (alone store' phase' succeeded' (if Dispatch.claims inMemory store ⟨interruptedContext,.null,phase,succeeded⟩ a then
        Function.update claimedBy (compositeKey interruptedContext) (some 0) else claimedBy)) := by
  have hset : (alone store phase succeeded claimedBy).dispatches.set 0 ⟨interruptedContext,.null,phase',succeeded'⟩ =
      Fibers.empty.set 0 ⟨interruptedContext,.null,phase',succeeded'⟩ := by
    exact Function.update_idem _ _ _
  change (((alone store phase succeeded claimedBy).dispatches 0).bind fun d =>
    (d.next inMemory (fun _ => plainCommand) catches store a).bind _) = _
  rw [show (alone store phase succeeded claimedBy).dispatches 0 = some ⟨interruptedContext,.null,phase,succeeded⟩ from rfl,
    Option.bind_some,hnext,Option.bind_some]
  simp only [hset]
  rfl

def claimedRecords : MemoryRecords := Function.update (fun _ => none) (compositeKey interruptedContext)
    (some (.claimed digestOfNull))

def claimedByFirst : String → Option ℕ := Function.update (fun _ => none) (compositeKey interruptedContext) (some 0)

theorem run_interrupted (catches : Bool) : (memoryDispatches (fun _ => plainCommand)
    (fun _ => digestOfNull) catches).run interruptedRun =
    some (alone claimedRecords (.ended .interrupted) (some .null) claimedByFirst) := by
  let sys : System (MemoryDispatches Json Unit) (Label Json Json Unit Empty) :=
    memoryDispatches (fun _ => plainCommand) (fun _ => digestOfNull) catches
  have hbegin : sys.step (alone (fun _ => none) .begin none fun _ => none) (.act 0 (.begin .ok)) =
      some (alone claimedRecords .claimed none claimedByFirst) := step_alone rfl
  have henter : sys.step (alone claimedRecords .claimed none claimedByFirst) (.act 0 .enter) =
      some (alone claimedRecords .execute none claimedByFirst) := step_alone rfl
  have hhandler : sys.step (alone claimedRecords .execute none claimedByFirst) (.act 0 (.handler (.ok .null))) =
      some (alone claimedRecords (.encode .null) (some .null) claimedByFirst) := step_alone rfl
  have hencode : sys.step (alone claimedRecords (.encode .null) (some .null) claimedByFirst) (.act 0 .encode) =
      some (alone claimedRecords (.complete .null .null) (some .null) claimedByFirst) := step_alone rfl
  have hinterrupt : sys.step (alone claimedRecords (.complete .null .null) (some .null) claimedByFirst) (.act 0 .interrupt) =
      some (alone claimedRecords (.ended .interrupted) (some .null) claimedByFirst) := step_alone rfl
  have hdispatch : sys.step sys.init (.dispatch 0 "PlaceOrder" "k" none .null) =
      some (alone (fun _ => none) .begin none fun _ => none) := rfl
  change sys.runFrom sys.init interruptedRun = _
  rw [interruptedRun,System.runFrom,hdispatch,Option.bind_some,System.runFrom,hbegin,Option.bind_some,System.runFrom,henter,
    Option.bind_some,System.runFrom,hhandler,Option.bind_some,System.runFrom,
    hencode,Option.bind_some,System.runFrom,hinterrupt,Option.bind_some,System.runFrom]

theorem quiet_interrupted : (alone claimedRecords (.ended .interrupted) (some .null) claimedByFirst).Quiet := by
  intro i d hd
  rcases Fibers.set_cases hd with ⟨-,rfl⟩ | ⟨-,hold⟩
  · exact ⟨_,rfl⟩
  · cases hold

theorem begin_interrupted : (claimedRecords.begin interruptedContext).1 = .inFlight := by
  have hfound : claimedRecords (compositeKey interruptedContext) = some (.claimed digestOfNull) := Function.update_self _ _ _
  rw [MemoryRecords.begin,hfound]
  rfl

/-- Nothing is in flight, but the key is: whether or not the runtime runs `catchAllCause` on an
interruption from outside. -/
theorem idempotency_protocol_interrupted :
    (∃ s, (memoryDispatches (fun _ => plainCommand) (fun _ => digestOfNull) true).run interruptedRun = some s ∧ s.Quiet ∧
      (s.store.begin interruptedContext).1 = .inFlight) ∧
    ∃ s, (memoryDispatches (fun _ => plainCommand) (fun _ => digestOfNull) false).run interruptedRun = some s ∧ s.Quiet ∧
      (s.store.begin interruptedContext).1 = .inFlight :=
  ⟨⟨_,run_interrupted true,quiet_interrupted,begin_interrupted⟩,⟨_,run_interrupted false,quiet_interrupted,begin_interrupted⟩⟩

end Interrupted
end Run
end StructureAi.Cqrs

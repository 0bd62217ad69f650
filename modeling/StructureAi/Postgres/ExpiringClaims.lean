import StructureAi.Postgres.IdempotencyStore

/-! # Claims that expire

A claim, and a recorded success, lives for so long after its statement. `begin` takes the key of an expired record over, and a
purge removes the record; the statements that settle a claim name its key, and not the claim. Times are microseconds.
-/
namespace StructureAi.Postgres
open StructureAi.Foundation StructureAi.Cqrs

structure ExpiringRow extends IdempotencyRow where
  expiresAt : ℕ

structure ClaimTable where
  rows : IdempotencyKey → Option ExpiringRow
  now : ℕ

/-- What goes on beside the dispatches: time passes, and `purgeExpiredIdempotency` runs. -/
inductive ClaimEvent
  | elapse (time : ℕ)
  | purge

namespace ClaimTable
variable (jsonb : String → Option String) (ttl : ℕ) (context : IdempotencyContext) (table : ClaimTable)

/-- `expires_at <= now()` -/
def expired (row : ExpiringRow) : Bool := row.expiresAt ≤ table.now

def put (row : Option ExpiringRow) : ClaimTable := {table with rows := Function.update table.rows (rowKey context) row}

/-- The texts of `begin` can be sent. -/
def sendsClaim : Bool := sendsKey context && isText context.payloadHash

/-- The upsert: a record that lives is not replaced. -/
def claim : Option BeginOutcome × ClaimTable :=
  if sendsClaim context then
    if (table.rows (rowKey context)).any fun row => !table.expired row then (none,table)
    else (some .claimed,table.put context (some ⟨⟨.claimed,context.payloadHash,none⟩,table.now + ttl⟩))
  else (none,table)

/-- What is read back, whether it is expired by then or not. -/
def existing : Option BeginOutcome :=
  if sendsClaim context then
    match table.rows (rowKey context) with
    | none => some .inFlight
    | some row =>
      match IdempotencyTable.existing context row.toIdempotencyRow with
      | .begun outcome => some outcome
      | _ => none
  else none

def complete (result : Json) : Option ClaimTable :=
  match jsonb (Json.stringify result) with
  | some text =>
    if sendsKey context then
      some (table.put context ((table.rows (rowKey context)).map fun row =>
        {row with status := .completed, result := some text, expiresAt := table.now + ttl}))
    else none
  | none => none

def release : ClaimTable :=
  if sendsKey context then table.put context ((table.rows (rowKey context)).filter fun row => row.status ≠ .claimed) else table

def happen : ClaimEvent → ClaimTable
  | .elapse time => {table with now := table.now + time}
  | .purge => {table with rows := fun k => (table.rows k).filter fun row => !table.expired row}

variable {ttl context table}

theorem put_self (row : Option ExpiringRow) : (table.put context row).rows (rowKey context) = row := Function.update_self _ _ _

theorem put_of_ne {k : IdempotencyKey} (h : k ≠ rowKey context) (row : Option ExpiringRow) : (table.put context row).rows k =
    table.rows k :=
  Function.update_of_ne h _ _

variable (ttl context table) in
theorem claim_cases : table.claim ttl context = (some .claimed,
    table.put context (some ⟨⟨.claimed,context.payloadHash,none⟩,table.now + ttl⟩)) ∨
    table.claim ttl context = (none,table) := by
  unfold claim
  by_cases hsends : sendsClaim context = true
  · rw [if_pos hsends]
    split
    · exact Or.inr rfl
    · exact Or.inl rfl
  · rw [if_neg hsends]
    exact Or.inr rfl

theorem existing_ne : table.existing context ≠ some .claimed := by
  unfold existing
  split
  · split
    · intro h
      cases h
    · rename_i row _
      have hread : ∀ outcome, IdempotencyTable.existing context row.toIdempotencyRow = .begun outcome → outcome ≠ .claimed := by
        intro outcome h
        unfold IdempotencyTable.existing at h
        split at h
        · cases h
          intro h
          cases h
        · split at h
          · cases h
            intro h
            cases h
          · split at h
            · cases h
              intro h
              cases h
            · split at h
              · cases h
                intro h
                cases h
              · cases h
      split
      · rename_i outcome houtcome
        intro h
        exact hread outcome houtcome (Option.some.inj h)
      · intro h
        cases h
  · intro h
    cases h

end ClaimTable

/-- `idempotencyStoreLayer` with its times. -/
def claimStore (jsonb : String → Option String) (ttl : ℕ) : IdempotencyStoreService ClaimTable IdempotencyKey ClaimEvent where
  init := ⟨fun _ => none,0⟩
  id := rowKey
  claim context table := table.claim ttl context
  existing context table := table.existing context
  existing_ne _ _ := ClaimTable.existing_ne
  complete context result table := table.complete jsonb ttl context result
  release context table := table.release context
  durable := true
  outside event table := table.happen event

section Runs
variable {P A E : Type}

abbrev ClaimDispatches (A E : Type) := Dispatches ClaimTable IdempotencyKey A E

variable (jsonb : String → Option String) (ttl : ℕ) (registry : String → CommandDefinition P A) (sha256Hex : String → String)
    (catches : Bool)

abbrev claimDispatches : System (ClaimDispatches A E) (Label P A E ClaimEvent) :=
  dispatches (claimStore jsonb ttl) registry sha256Hex catches

/-- Where a step takes a key, no dispatch that took it before is still running. -/
def Timely (s : ClaimDispatches A E) : Label P A E ClaimEvent → Prop
  | .act i a => ∀ d, s.dispatches i = some d → d.claims (claimStore jsonb ttl) s.store a = true →
    ∀ j e, s.dispatches j = some e → e.phase.Holds → rowKey e.context ≠ rowKey d.context
  | _ => True

/-- The dispatch returned a success, and this is what is recorded of it. -/
def RecordsOf (d : Dispatch A E) (row : ExpiringRow) : Prop :=
  ∃ result encoded, d.succeeded = some result ∧ (registry d.context.tag).encode result = some encoded ∧
    row.result = jsonb (Json.stringify encoded)

/-- A recorded result is the encoded success of a run under the hash beside it. -/
def ResultsRecorded (s : ClaimDispatches A E) : Prop := ∀ k row, s.store.rows k = some row → row.status = .completed →
  ∃ i d, s.dispatches i = some d ∧ rowKey d.context = k ∧ d.context.payloadHash = row.payloadHash ∧
    d.context.payloadHash = sha256Hex d.encodedPayload.stableJson ∧ RecordsOf jsonb registry d row

/-- What a dispatch does to a record after its `begin`, it does to one that it claimed itself. -/
def SettlesOwn (s : ClaimDispatches A E) (l : Label P A E ClaimEvent) (s' : ClaimDispatches A E) : Prop :=
  ∀ i a, l = .act i a → (∀ answer, a ≠ .begin answer) → ∀ k, s'.store.rows k ≠ s.store.rows k → s.claimedBy k = some i

/-- Every dispatch that runs has its key, and every record is of the dispatch that has its key. -/
structure Claims (s : ClaimDispatches A E) : Prop where
  sound : Fibers.All (Dispatch.Sound registry sha256Hex) s.dispatches
  held : ∀ i d, s.dispatches i = some d → d.phase.Holds → s.claimedBy (rowKey d.context) = some i
  rows : ∀ k row, s.store.rows k = some row → ∃ i d, s.claimedBy k = some i ∧ s.dispatches i = some d ∧ rowKey d.context = k ∧
    d.context.payloadHash = row.payloadHash ∧
    (row.status = .completed → (∃ exit, d.phase = .ended exit) ∧ RecordsOf jsonb registry d row)

variable {jsonb ttl registry sha256Hex catches} {store store' : ClaimTable} {d d' : Dispatch A E} {a : Act A E}
    {s s' : ClaimDispatches A E}

theorem claims_of_ne (h : ∀ answer, a ≠ .begin answer) : d.claims (claimStore jsonb ttl) store a = false := by
  cases a with
  | begin answer => exact absurd rfl (h answer)
  | _ => rfl

/-- A step takes a key, records a success, frees a key, or leaves the table as it is. -/
theorem table_cases (h : d.next (claimStore jsonb ttl) registry catches store a = some (d',store')) :
    (d.claims (claimStore jsonb ttl) store a = true ∧ (∃ answer, a = .begin answer) ∧ d.phase = .begin ∧
      store' = store.put d.context (some ⟨⟨.claimed,d.context.payloadHash,none⟩,store.now + ttl⟩)) ∨
    (d.claims (claimStore jsonb ttl) store a = false ∧ ∃ result encoded exit, d.phase = .complete result encoded ∧
      d' = {d with phase := .ended exit} ∧ ∃ text, jsonb (Json.stringify encoded) = some text ∧
      store' = store.put d.context ((store.rows (rowKey d.context)).map fun row =>
        {row with status := .completed, result := some text, expiresAt := store.now + ttl})) ∨
    (d.claims (claimStore jsonb ttl) store a = false ∧ ∃ cause exit, d.phase = .release cause ∧
      d' = {d with phase := .ended exit} ∧
      store' = store.put d.context ((store.rows (rowKey d.context)).filter fun row => row.status ≠ .claimed)) ∨
    (d.claims (claimStore jsonb ttl) store a = false ∧ store' = store ∧ (d'.phase.Holds → d.phase.Holds)) := by
  have hends : ∀ (answer : Answer) (exit : DispatchExit A E), ∃ exit', answer.goOn (.ended exit) = .ended exit' := by
    intro answer exit
    cases answer with
    | ok => exact ⟨exit,rfl⟩
    | failed applied => exact ⟨.persistenceError,rfl⟩
    | interrupted applied => exact ⟨.interrupted,rfl⟩
  rcases Dispatch.next_cases h with ⟨answer,rfl,hphase,hp,rfl,rfl⟩ | ⟨answer,result,encoded,recorded,rfl,hphase,hp,hrec,
    rfl,rfl⟩ |
    ⟨answer,result,encoded,rfl,hphase,hp,hnone,rfl,rfl⟩ | ⟨answer,cause,rfl,hphase,hp,⟨exit,rfl⟩,rfl⟩ | ⟨rfl,hstill⟩
  · rcases ClaimTable.claim_cases ttl d.context store with hclaim | hclaim
    · have hstore : ((claimStore jsonb ttl).claim d.context store) =
          (some .claimed,store.put d.context (some ⟨⟨.claimed,d.context.payloadHash,none⟩,store.now + ttl⟩)) := hclaim
      cases happlied : answer.applied with
      | true =>
        refine Or.inl ⟨?_,⟨answer,rfl⟩,hphase,?_⟩
        · simp only [Dispatch.claims,happlied,hstore,Bool.true_and]
        · rw [if_pos rfl,hstore]
      | false =>
        refine Or.inr (Or.inr (Or.inr ⟨?_,if_neg Bool.false_ne_true,fun holds => ?_⟩))
        · simp only [Dispatch.claims,happlied,Bool.false_and]
        · obtain ⟨rfl,-⟩ := Answer.holds_goOn holds
          cases happlied
    · have hstore : ((claimStore jsonb ttl).claim d.context store) = (none,store) := hclaim
      refine Or.inr (Or.inr (Or.inr ⟨?_,?_,fun holds => ?_⟩))
      · simp only [Dispatch.claims,hstore,Bool.and_false]
      · rw [hstore]
        exact ite_self store
      · have hphase' := (Answer.holds_goOn holds).2
        simp only [Dispatch.claimedPhase,hstore] at hphase'
        exact absurd hphase' id
  · obtain ⟨exit,hexit⟩ := hends answer (.success result)
    cases happlied : answer.applied with
    | true =>
      have hcomplete : store.complete jsonb ttl d.context encoded = some recorded := hrec
      unfold ClaimTable.complete at hcomplete
      split at hcomplete
      · rename_i text htext
        split at hcomplete
        · refine Or.inr (Or.inl ⟨rfl,result,encoded,exit,hphase,by rw [hexit],text,htext,?_⟩)
          rw [if_pos rfl]
          exact (Option.some.inj hcomplete).symm
        · cases hcomplete
      · cases hcomplete
    | false =>
      refine Or.inr (Or.inr (Or.inr ⟨rfl,if_neg Bool.false_ne_true,fun holds => ?_⟩))
      rw [hexit] at holds
      exact absurd holds id
  · exact Or.inr (Or.inr (Or.inr ⟨rfl,rfl,fun holds => absurd holds id⟩))
  · have hsame : ∀ holds : (Phase.ended exit : Phase A E).Holds, d.phase.Holds := fun holds => absurd holds id
    cases happlied : answer.applied with
    | true =>
      have hrelease : (claimStore jsonb ttl).release d.context store = store.release d.context := rfl
      rw [if_pos rfl,hrelease,ClaimTable.release]
      split
      · exact Or.inr (Or.inr (Or.inl ⟨rfl,cause,exit,hphase,rfl,rfl⟩))
      · exact Or.inr (Or.inr (Or.inr ⟨rfl,rfl,hsame⟩))
    | false => exact Or.inr (Or.inr (Or.inr ⟨rfl,if_neg Bool.false_ne_true,hsame⟩))
  · exact Or.inr (Or.inr (Or.inr ⟨claims_of_ne hstill.claims,rfl,hstill.holds⟩))

theorem Claims.held_step {l : Label P A E ClaimEvent} (hs : Claims jsonb registry sha256Hex s) (hl : Timely jsonb ttl s l)
    (h : s.step (claimStore jsonb ttl) registry sha256Hex catches l = some s') :
    ∀ i d, s'.dispatches i = some d → d.phase.Holds → s'.claimedBy (rowKey d.context) = some i := by
  intro j g hg holds
  rcases Dispatches.step_cases h with ⟨i,tag,key,actor,payload,encodedPayload,-,-,rfl⟩ | ⟨-,-,-,-,-,-,rfl⟩ |
    ⟨i,a,d,d',store,rfl,hd,hnext,rfl⟩ | ⟨w,-,rfl⟩
  · rcases Fibers.set_cases hg with ⟨-,rfl⟩ | ⟨-,hold⟩
    · exact absurd holds id
    · exact hs.held j g hold holds
  · exact hs.held j g hg holds
  · have hcontext := (Dispatch.next_keeps hnext).1
    rcases Fibers.set_cases hg with ⟨rfl,rfl⟩ | ⟨-,hold⟩
    · rcases table_cases hnext with ⟨hclaims,-⟩ | ⟨-,_,_,exit,-,rfl,-⟩ | ⟨-,_,exit,-,rfl,-⟩ | ⟨hclaims,-,hholds⟩
      · rw [hcontext]
        dsimp only
        rw [if_pos hclaims]
        exact Function.update_self _ _ _
      · exact absurd holds id
      · exact absurd holds id
      · rw [hcontext]
        dsimp only
        rw [hclaims,if_neg Bool.false_ne_true]
        exact hs.held j d hd (hholds holds)
    · have howner := hs.held j g hold holds
      dsimp only
      split
      · rename_i hclaims
        exact (Function.update_of_ne (hl d hd hclaims j g hold holds) _ _).trans howner
      · exact howner
  · exact hs.held j g hg holds

/-- The owner of a record that stays is still there, and is still over if the record is complete. -/
theorem Claims.rows_keep (hs : Claims jsonb registry sha256Hex s) {i : ℕ} (hd : s.dispatches i = some d)
    (hnext : d.next (claimStore jsonb ttl) registry catches s.store a = some (d',store')) {k : IdempotencyKey}
      {row : ExpiringRow}
    (hrow : s.store.rows k = some row) :
    ∃ j e, s.claimedBy k = some j ∧ s.dispatches.set i d' j = some e ∧ rowKey e.context = k ∧
      e.context.payloadHash = row.payloadHash ∧
      (row.status = .completed → (∃ exit, e.phase = .ended exit) ∧ RecordsOf jsonb registry e row) := by
  obtain ⟨j,e,howner,he,hkey,hhash,hcompleted⟩ := hs.rows k row hrow
  by_cases hj : j = i
  · subst hj
    obtain rfl : d = e := Option.some.inj (hd.symm.trans he)
    have hcontext := (Dispatch.next_keeps hnext).1
    refine ⟨j,d',howner,Fibers.set_self _ _ _,by rw [hcontext,hkey],by rw [hcontext,hhash],fun hstatus => ?_⟩
    obtain ⟨⟨exit,hended⟩,-⟩ := hcompleted hstatus
    rw [Dispatch.next_ended hended] at hnext
    cases hnext
  · exact ⟨j,e,howner,(Fibers.set_of_ne _ _ hj).trans he,hkey,hhash,hcompleted⟩

theorem Claims.rows_step {l : Label P A E ClaimEvent} (hs : Claims jsonb registry sha256Hex s)
    (h : s.step (claimStore jsonb ttl) registry sha256Hex catches l = some s') :
    ∀ k row, s'.store.rows k = some row → ∃ i d, s'.claimedBy k = some i ∧ s'.dispatches i = some d ∧ rowKey d.context = k ∧
      d.context.payloadHash = row.payloadHash ∧
      (row.status = .completed → (∃ exit, d.phase = .ended exit) ∧ RecordsOf jsonb registry d row) := by
  intro k row hrow
  rcases Dispatches.step_cases h with ⟨i,tag,key,actor,payload,encodedPayload,-,hfree,rfl⟩ | ⟨-,-,-,-,-,-,rfl⟩ |
    ⟨i,a,d,d',store,rfl,hd,hnext,rfl⟩ | ⟨w,-,rfl⟩
  · obtain ⟨j,e,howner,he,hrest⟩ := hs.rows k row hrow
    have hj : j ≠ i := by
      rintro rfl
      rw [hfree] at he
      cases he
    exact ⟨j,e,howner,(Fibers.set_of_ne _ _ hj).trans he,hrest⟩
  · exact hs.rows k row hrow
  · have hcontext := (Dispatch.next_keeps hnext).1
    have hown : d.phase.Holds → ∀ j e, s.claimedBy (rowKey d.context) = some j → s.dispatches j = some e → j = i ∧ e = d := by
      intro holds j e howner he
      obtain rfl : j = i := Option.some.inj (howner.symm.trans (hs.held i d hd holds))
      exact ⟨rfl,Option.some.inj (he.symm.trans hd)⟩
    rcases table_cases hnext with ⟨hclaims,-,-,rfl⟩ | ⟨hclaims,result,encoded,exit,hphase,rfl,text,htext,rfl⟩ |
      ⟨hclaims,cause,exit,hphase,rfl,rfl⟩ | ⟨hclaims,rfl,-⟩
    · dsimp only
      rw [if_pos hclaims]
      by_cases hk : k = rowKey d.context
      · subst hk
        obtain rfl := Option.some.inj ((ClaimTable.put_self _).symm.trans hrow)
        exact ⟨i,d',Function.update_self _ _ _,Fibers.set_self _ _ _,by rw [hcontext],by rw [hcontext],nofun⟩
      · obtain ⟨j,e,howner,hrest⟩ := hs.rows_keep hd hnext ((ClaimTable.put_of_ne hk _).symm.trans hrow)
        exact ⟨j,e,(Function.update_of_ne hk _ _).trans howner,hrest⟩
    · dsimp only
      rw [hclaims,if_neg Bool.false_ne_true]
      by_cases hk : k = rowKey d.context
      · subst hk
        have holds : d.phase.Holds := by
          rw [hphase]
          trivial
        obtain ⟨old,hold,rfl⟩ := Option.map_eq_some_iff.mp ((ClaimTable.put_self _).symm.trans hrow)
        obtain ⟨j,e,howner,he,-,hhash,-⟩ := hs.rows _ _ hold
        obtain ⟨rfl,rfl⟩ := hown holds j e howner he
        have hshows := (hs.sound j e he).shows
        rw [hphase] at hshows
        exact ⟨j,_,howner,Fibers.set_self _ _ _,rfl,hhash,fun _ => ⟨⟨exit,rfl⟩,result,encoded,hshows.1,hshows.2,htext.symm⟩⟩
      · exact hs.rows_keep hd hnext ((ClaimTable.put_of_ne hk _).symm.trans hrow)
    · dsimp only
      rw [hclaims,if_neg Bool.false_ne_true]
      by_cases hk : k = rowKey d.context
      · subst hk
        have holds : d.phase.Holds := by
          rw [hphase]
          trivial
        obtain ⟨hold,hstatus⟩ := Option.filter_eq_some_iff.mp ((ClaimTable.put_self _).symm.trans hrow)
        obtain ⟨j,e,howner,he,-,-,hcompleted⟩ := hs.rows _ _ hold
        obtain ⟨rfl,rfl⟩ := hown holds j e howner he
        have hdone : row.status = .completed := by
          cases hs' : row.status with
          | completed => rfl
          | claimed => exact absurd hs' (of_decide_eq_true hstatus)
        obtain ⟨⟨exit',hended⟩,-⟩ := hcompleted hdone
        rw [hphase] at hended
        cases hended
      · exact hs.rows_keep hd hnext ((ClaimTable.put_of_ne hk _).symm.trans hrow)
    · dsimp only
      rw [hclaims,if_neg Bool.false_ne_true]
      exact hs.rows_keep hd hnext hrow
  · cases w with
    | elapse time => exact hs.rows k row hrow
    | purge => exact hs.rows k row (Option.filter_eq_some_iff.mp hrow).1

theorem Claims.step {l : Label P A E ClaimEvent} (hs : Claims jsonb registry sha256Hex s) (hl : Timely jsonb ttl s l)
    (h : s.step (claimStore jsonb ttl) registry sha256Hex catches l = some s') : Claims jsonb registry sha256Hex s' :=
  ⟨Dispatches.sound_step hs.sound h,hs.held_step hl h,hs.rows_step h⟩

theorem claims_of_reaches (h : (claimDispatches jsonb ttl registry sha256Hex catches).Reaches (Timely jsonb ttl) s) :
    Claims jsonb registry sha256Hex s := by
  apply h.invariant (Claims jsonb registry sha256Hex)
  · exact ⟨Fibers.all_empty _,nofun,nofun⟩
  · intro t l t' ht hl hstep
    exact ht.step hl hstep

theorem Claims.settlesOwn {l : Label P A E ClaimEvent} (hs : Claims jsonb registry sha256Hex s)
    (h : s.step (claimStore jsonb ttl) registry sha256Hex catches l = some s') : SettlesOwn s l s' := by
  rintro i a rfl ha k hchanged
  rcases Dispatches.step_cases h with ⟨i,tag,key,actor,payload,encodedPayload,hl,-⟩ | ⟨_,_,_,_,_,hl,-⟩ |
    ⟨j,b,d,d',store,hl,hd,hnext,rfl⟩ |
    ⟨w,hl,-⟩
  · cases hl
  · cases hl
  · obtain ⟨rfl,rfl⟩ := Label.act.inj hl
    have hput : ∀ {row}, d.phase.Holds → (s.store.put d.context row).rows k ≠ s.store.rows k → s.claimedBy k = some i := by
      intro row holds hne
      by_cases hk : k = rowKey d.context
      · rw [hk]
        exact hs.held i d hd holds
      · exact absurd (ClaimTable.put_of_ne hk row) hne
    rcases table_cases hnext with ⟨-,⟨answer,rfl⟩,-⟩ | ⟨-,result,encoded,exit,hphase,-,text,-,rfl⟩ |
      ⟨-,cause,exit,hphase,-,rfl⟩ |
      ⟨-,rfl,-⟩
    · exact absurd rfl (ha answer)
    · refine hput ?_ hchanged
      rw [hphase]
      trivial
    · refine hput ?_ hchanged
      rw [hphase]
      trivial
    · exact absurd rfl hchanged
  · cases hl

/-- Where no key is taken over while the dispatch that took it is running, whatever is settled is one's own, and a recorded
result is that of a run under the hash beside it. -/
theorem claims_owned (h : (claimDispatches jsonb ttl registry sha256Hex catches).Reaches (Timely jsonb ttl) s) :
    ResultsRecorded jsonb registry sha256Hex s ∧
    ∀ l s', s.step (claimStore jsonb ttl) registry sha256Hex catches l = some s' → SettlesOwn s l s' := by
  have hs := claims_of_reaches h
  refine ⟨fun k row hrow hstatus => ?_,fun l s' hstep => hs.settlesOwn hstep⟩
  obtain ⟨i,d,-,hd,hkey,hhash,hcompleted⟩ := hs.rows k row hrow
  exact ⟨i,d,hd,hkey,hhash,(hs.sound i d hd).payloadHash,(hcompleted hstatus).2⟩

end Runs

section Overtaken

/-- A command whose payload and success are their own wire forms. -/
def wireCommand : CommandDefinition Json Json := ⟨some,some,some⟩

/-- SHA-256 on the texts of `null` and `true`. -/
def digestOf (text : String) : String :=
  if text = "null" then "74234e98afe7498fb5daf1f36ac2d78acc339464f950703b8c019892f982b90b"
  else "b5bea41b6c623f7c09f1bf24dcae58ebab3c0cdd90ad966bc43a45b44867e12b"

def defaultTtl : ℕ := 86400000000

/-- One key with the payloads `null` and `true`. -/
def slowContext : IdempotencyContext := ⟨"k","PlaceOrder",none,digestOf "null"⟩
def laterContext : IdempotencyContext := ⟨"k","PlaceOrder",none,digestOf "true"⟩

abbrev claimRun : System (ClaimDispatches Json Unit) (Label Json Json Unit ClaimEvent) :=
  claimDispatches some defaultTtl (fun _ => wireCommand) digestOf true

theorem sends_slow : ClaimTable.sendsClaim slowContext = true := by
  simp [ClaimTable.sendsClaim,sendsKey,isText,actorColumn,slowContext,digestOf]

theorem sends_later : ClaimTable.sendsClaim laterContext = true := by
  simp [ClaimTable.sendsClaim,sendsKey,isText,actorColumn,laterContext,digestOf]

def slots (first later : Option (Dispatch Json Unit)) : Fibers (Dispatch Json Unit)
  | 0 => first
  | 1 => later
  | _ => none

theorem set_first (first later : Option (Dispatch Json Unit)) (d : Dispatch Json Unit) : (slots first later).set 0 d =
    slots (some d) later := by
  funext i
  match i with
  | 0 => exact Fibers.set_self _ _ _
  | 1 => exact Fibers.set_of_ne _ _ Nat.one_ne_zero
  | i + 2 => exact (Fibers.set_of_ne _ _ (by omega)).trans rfl

theorem set_later (first later : Option (Dispatch Json Unit)) (d : Dispatch Json Unit) : (slots first later).set 1 d =
    slots first (some d) := by
  funext i
  match i with
  | 0 => exact Fibers.set_of_ne _ _ Nat.zero_ne_one
  | 1 => exact Fibers.set_self _ _ _
  | i + 2 => exact (Fibers.set_of_ne _ _ (by omega)).trans rfl

variable {table table' : ClaimTable} {first later d d' : Dispatch Json Unit} {other : Option (Dispatch Json Unit)}
  {claimedBy : IdempotencyKey → Option ℕ} {a : Act Json Unit}

theorem step_first (hnext : d.next (claimStore some defaultTtl) (fun _ => wireCommand) true table a = some (d',table')) :
    claimRun.step ⟨table,slots (some d) other,claimedBy⟩ (.act 0 a) = some ⟨table',slots (some d') other,
      if d.claims (claimStore some defaultTtl) table a then Function.update claimedBy (rowKey d.context)
        (some 0) else claimedBy⟩ := by
  change (some d).bind (fun d => (d.next (claimStore some defaultTtl) (fun _ => wireCommand) true table a).bind _) = _
  rw [Option.bind_some,hnext,Option.bind_some,← set_first (some d) other d']
  rfl

theorem step_later (hnext : d.next (claimStore some defaultTtl) (fun _ => wireCommand) true table a = some (d',table')) :
    claimRun.step ⟨table,slots other (some d),claimedBy⟩ (.act 1 a) = some ⟨table',slots other (some d'),
      if d.claims (claimStore some defaultTtl) table a then Function.update claimedBy (rowKey d.context)
        (some 1) else claimedBy⟩ := by
  change (some d).bind (fun d => (d.next (claimStore some defaultTtl) (fun _ => wireCommand) true table a).bind _) = _
  rw [Option.bind_some,hnext,Option.bind_some,← set_later other (some d) d']
  rfl

/-- A `begin` whose upsert takes the key. -/
theorem next_begin (hphase : d.phase = .begin) (hclaim : (table.claim defaultTtl d.context) = (some .claimed,table')) :
    d.next (claimStore some defaultTtl) (fun _ => wireCommand) true table (.begin .ok) =
      some ({d with phase := .claimed},table') ∧
    d.claims (claimStore some defaultTtl) table (.begin .ok) = true := by
  obtain ⟨context,encodedPayload,phase,succeeded⟩ := d
  obtain rfl : phase = .begin := hphase
  have hstore : (claimStore some defaultTtl).claim context table = (some .claimed,table') := hclaim
  constructor
  · simp only [Dispatch.next,hstore,CommandDefinition.begun,Answer.goOn,Answer.applied,if_true]
    rfl
  · simp only [Dispatch.claims,hstore,Answer.applied,Bool.true_and]

/-- The dispatches before their `begin`. -/
def slowDispatch : Dispatch Json Unit := ⟨slowContext,.null,.begin,none⟩
def laterDispatch : Dispatch Json Unit := ⟨laterContext,.bool true,.begin,none⟩

/-- The table as the first dispatch claims the key, once the claim has expired, and as the second one takes the key over. -/
def claimedTable : ClaimTable := (⟨fun _ => none,0⟩ : ClaimTable).put slowContext (some ⟨⟨.claimed,slowContext.payloadHash,none⟩,
    0 + defaultTtl⟩)
def expiredTable : ClaimTable := claimedTable.happen (.elapse defaultTtl)
def takenTable : ClaimTable :=
  expiredTable.put laterContext (some ⟨⟨.claimed,laterContext.payloadHash,none⟩,expiredTable.now + defaultTtl⟩)

theorem claim_slow : (⟨fun _ => none,0⟩ : ClaimTable).claim defaultTtl slowContext = (some .claimed,claimedTable) := by
  rw [ClaimTable.claim,if_pos sends_slow]
  rfl

/-- The second dispatch takes over whatever has expired. -/
theorem claim_expired {row : ExpiringRow} (hrow : table.rows (rowKey laterContext) = some row)
    (hexpired : table.expired row = true) : table.claim defaultTtl laterContext = (some .claimed,
      table.put laterContext (some ⟨⟨.claimed,laterContext.payloadHash,none⟩,table.now + defaultTtl⟩)) := by
  have hlives : ¬ ((table.rows (rowKey laterContext)).any fun row => !table.expired row) = true := by
    rw [hrow,Option.any_some,hexpired]
    exact Bool.false_ne_true
  rw [ClaimTable.claim,if_pos sends_later,if_neg hlives]

theorem claim_later : expiredTable.claim defaultTtl laterContext = (some .claimed,takenTable) := by
  have hrow : expiredTable.rows (rowKey laterContext) = some ⟨⟨.claimed,slowContext.payloadHash,none⟩,0 + defaultTtl⟩ :=
    (ClaimTable.put_self _ : claimedTable.rows (rowKey slowContext) = _)
  exact claim_expired hrow (decide_eq_true le_rfl)

def begunDispatch : Dispatch Json Unit := {slowDispatch with phase := .claimed}
def laterBegun : Dispatch Json Unit := {laterDispatch with phase := .claimed}

/-- A dispatch whose handler has succeeded with its payload, before and after it records that. -/
def handled (d : Dispatch Json Unit) (payload : Json) : Dispatch Json Unit :=
  {d with phase := .complete payload payload, succeeded := some payload}
def ended (d : Dispatch Json Unit) (payload : Json) : Dispatch Json Unit :=
  {handled d payload with phase := .ended (.success payload)}

def handledDispatch : Dispatch Json Unit := handled slowDispatch .null
def endedDispatch : Dispatch Json Unit := ended slowDispatch .null

def claimedBySlow : IdempotencyKey → Option ℕ := Function.update (fun _ => none) (rowKey slowContext) (some 0)

/-- The first dispatch up to its claim, and on to the success that it is about to record. -/
def begunRun : List (Label Json Json Unit ClaimEvent) := [.dispatch 0 "PlaceOrder" "k" none .null,.act 0 (.begin .ok)]
def handlerRun : List (Label Json Json Unit ClaimEvent) := [.act 0 .enter,.act 0 (.handler (.ok .null)),.act 0 .encode]

theorem step_dispatch_slow : claimRun.step claimRun.init (.dispatch 0 "PlaceOrder" "k" none .null) =
    some ⟨⟨fun _ => none,0⟩,slots (some slowDispatch) none,fun _ => none⟩ := by
  have hslots : (Fibers.empty : Fibers (Dispatch Json Unit)).set 0 slowDispatch = slots (some slowDispatch) none := by
    rw [← set_first none none]
    congr 1
    funext i
    match i with
    | 0 => rfl
    | 1 => rfl
    | i + 2 => rfl
  rw [← hslots]
  rfl

theorem step_begin_slow : claimRun.step ⟨⟨fun _ => none,0⟩,slots (some slowDispatch) none,fun _ => none⟩ (.act 0 (.begin .ok)) =
    some ⟨claimedTable,slots (some begunDispatch) none,claimedBySlow⟩ := by
  obtain ⟨hnext,hclaims⟩ := next_begin (d := slowDispatch) rfl claim_slow
  rw [step_first hnext,if_pos hclaims]
  rfl

theorem run_begun : claimRun.run begunRun = some ⟨claimedTable,slots (some begunDispatch) none,claimedBySlow⟩ := by
  change claimRun.runFrom claimRun.init begunRun = _
  rw [begunRun,System.runFrom,step_dispatch_slow,Option.bind_some,System.runFrom,step_begin_slow,Option.bind_some,System.runFrom]

theorem run_handler : claimRun.runFrom ⟨claimedTable,slots (some begunDispatch) none,claimedBySlow⟩ handlerRun =
    some ⟨claimedTable,slots (some handledDispatch) none,claimedBySlow⟩ := by
  have henter : claimRun.step ⟨claimedTable,slots (some begunDispatch) none,claimedBySlow⟩ (.act 0 .enter) =
      some ⟨claimedTable,slots (some {slowDispatch with phase := .execute}) none,claimedBySlow⟩ := step_first rfl
  have hhandler : claimRun.step ⟨claimedTable,slots (some {slowDispatch with phase := .execute}) none,claimedBySlow⟩
        (.act 0 (.handler (.ok .null))) =
      some ⟨claimedTable,slots (some {slowDispatch with phase := .encode .null, succeeded := some .null}) none,claimedBySlow⟩ :=
    step_first rfl
  have hencode : claimRun.step
        ⟨claimedTable,slots (some {slowDispatch with phase := .encode .null, succeeded := some .null}) none,claimedBySlow⟩
        (.act 0 .encode) = some ⟨claimedTable,slots (some handledDispatch) none,claimedBySlow⟩ := step_first rfl
  rw [handlerRun,System.runFrom,henter,Option.bind_some,System.runFrom,hhandler,Option.bind_some,System.runFrom,hencode,
    Option.bind_some,System.runFrom]

/-- What a success records on top of a table. -/
def recorded (context : IdempotencyContext) (payload : Json) (table : ClaimTable) : ClaimTable :=
  table.put context ((table.rows (rowKey context)).map fun row =>
    {row with status := .completed, result := some (Json.stringify payload), expiresAt := table.now + defaultTtl})

def recordedBySlow (table : ClaimTable) : ClaimTable := recorded slowContext .null table

theorem next_complete {payload : Json} (hsends : sendsKey d.context = true) :
    (handled d payload).next (claimStore some defaultTtl) (fun _ => wireCommand) true table (.complete .ok) =
      some (ended d payload,recorded d.context payload table) := by
  have hcomplete : (claimStore some defaultTtl).complete d.context payload table = some (recorded d.context payload table) := by
    change table.complete some defaultTtl d.context payload = _
    simp only [ClaimTable.complete,hsends,if_true]
    rfl
  have hpossible : Possible (claimStore some defaultTtl) .ok := Or.inl rfl
  simp only [Dispatch.next,handled]
  rw [if_pos hpossible,hcomplete]
  rfl

theorem sendsKey_slow : sendsKey slowContext = true := by simp [sendsKey,isText,actorColumn,slowContext]

theorem sendsKey_later : sendsKey laterContext = true := by simp [sendsKey,isText,actorColumn,laterContext]

theorem step_complete_slow : claimRun.step ⟨table,slots (some handledDispatch) other,claimedBy⟩ (.act 0 (.complete .ok)) =
    some ⟨recordedBySlow table,slots (some endedDispatch) other,claimedBy⟩ :=
  step_first (next_complete sendsKey_slow)

theorem timely_of_ne {s : ClaimDispatches Json Unit} {i : ℕ} (h : ∀ answer, a ≠ .begin answer) :
    Timely some defaultTtl s (.act i a : Label Json Json Unit ClaimEvent) := by
  intro d _ hclaims
  rw [claims_of_ne h] at hclaims
  cases hclaims

/-- The one dispatch claims a key that no one claimed, and records its success under it. -/
theorem reaches_recorded : claimRun.Reaches (Timely some defaultTtl)
    ⟨recordedBySlow claimedTable,slots (some endedDispatch) none,claimedBySlow⟩ := by
  have hdispatch : claimRun.Reaches (Timely some defaultTtl) ⟨⟨fun _ => none,0⟩,slots (some slowDispatch) none,fun _ =>
    none⟩ := by
    refine System.Reaches.step Relation.ReflTransGen.refl ?_ step_dispatch_slow
    trivial
  have hbegin : claimRun.Reaches (Timely some defaultTtl) ⟨claimedTable,slots (some begunDispatch) none,claimedBySlow⟩ := by
    refine hdispatch.step ?_ step_begin_slow
    intro d _ _ j e he holds
    match j with
    | 0 =>
      obtain rfl : slowDispatch = e := Option.some.inj he
      exact absurd holds id
    | 1 => cases he
    | j + 2 => cases he
  have hhandled : claimRun.Reaches (Timely some defaultTtl) ⟨claimedTable,slots (some handledDispatch) none,claimedBySlow⟩ := by
    refine hbegin.trans (System.runFrom_leads ?_ run_handler)
    intro l hl s
    simp only [handlerRun,List.mem_cons,List.not_mem_nil,or_false] at hl
    rcases hl with rfl | rfl | rfl
    · exact timely_of_ne nofun
    · exact timely_of_ne nofun
    · exact timely_of_ne nofun
  refine hhandled.step ?_ step_complete_slow
  exact timely_of_ne nofun

/-- A day after that its record has expired, and a dispatch with another payload takes the key. -/
def lapsedTable : ClaimTable := (recordedBySlow claimedTable).happen (.elapse defaultTtl)
def reclaimedTable : ClaimTable :=
  lapsedTable.put laterContext (some ⟨⟨.claimed,laterContext.payloadHash,none⟩,lapsedTable.now + defaultTtl⟩)

theorem claim_lapsed : lapsedTable.claim defaultTtl laterContext = (some .claimed,reclaimedTable) := by
  have hclaimed : claimedTable.rows (rowKey slowContext) = some ⟨⟨.claimed,slowContext.payloadHash,none⟩,0 + defaultTtl⟩ :=
    ClaimTable.put_self _
  have hrow : (recordedBySlow claimedTable).rows (rowKey slowContext) =
      some ⟨⟨.completed,slowContext.payloadHash,some "null"⟩,claimedTable.now + defaultTtl⟩ := by
    rw [recordedBySlow,recorded,ClaimTable.put_self,hclaimed]
    rfl
  have hlapsed : lapsedTable.rows (rowKey laterContext) =
      some ⟨⟨.completed,slowContext.payloadHash,some "null"⟩,claimedTable.now + defaultTtl⟩ := hrow
  exact claim_expired hlapsed (decide_eq_true le_rfl)

def claimedByLater : IdempotencyKey → Option ℕ := Function.update claimedBySlow (rowKey laterContext) (some 1)

/-- The second dispatch before it records its success, and after. -/
def reclaimed : ClaimDispatches Json Unit :=
  ⟨reclaimedTable,slots (some endedDispatch) (some (handled laterDispatch (.bool true))),claimedByLater⟩
def recordedAgain : ClaimDispatches Json Unit :=
  ⟨recorded laterContext (.bool true) reclaimedTable,slots (some endedDispatch) (some (ended laterDispatch (.bool true))),
    claimedByLater⟩

theorem step_dispatch_later : claimRun.step ⟨table,slots first none,claimedBySlow⟩
      (.dispatch 1 "PlaceOrder" "k" none (.bool true)) =
    some ⟨table,slots first (some laterDispatch),claimedBySlow⟩ := by
  rw [← set_later first none laterDispatch]
  rfl

theorem step_begin_later (hclaim : table.claim defaultTtl laterContext = (some .claimed,table')) :
    claimRun.step ⟨table,slots first (some laterDispatch),claimedBySlow⟩ (.act 1 (.begin .ok)) =
      some ⟨table',slots first (some laterBegun),claimedByLater⟩ := by
  obtain ⟨hnext,hclaims⟩ := next_begin (d := laterDispatch) rfl hclaim
  rw [step_later hnext,if_pos hclaims]
  rfl

theorem reaches_reclaimed : claimRun.Reaches (Timely some defaultTtl) reclaimed := by
  have hlapsed : claimRun.Reaches (Timely some defaultTtl) ⟨lapsedTable,slots (some endedDispatch) none,claimedBySlow⟩ := by
    have hstep : claimRun.step ⟨recordedBySlow claimedTable,slots (some endedDispatch) none,claimedBySlow⟩
        (.outside (.elapse defaultTtl)) = some ⟨lapsedTable,slots (some endedDispatch) none,claimedBySlow⟩ := rfl
    refine reaches_recorded.step ?_ hstep
    trivial
  have hdispatched : claimRun.Reaches (Timely some defaultTtl)
      ⟨lapsedTable,slots (some endedDispatch) (some laterDispatch),claimedBySlow⟩ := by
    refine hlapsed.step ?_ step_dispatch_later
    trivial
  have hbegun : claimRun.Reaches (Timely some defaultTtl)
      ⟨reclaimedTable,slots (some endedDispatch) (some laterBegun),claimedByLater⟩ := by
    refine hdispatched.step ?_ (step_begin_later claim_lapsed)
    -- the dispatch that had the key has ended
    intro d _ _ j e he holds
    match j with
    | 0 =>
      obtain rfl : endedDispatch = e := Option.some.inj he
      exact absurd holds id
    | 1 =>
      obtain rfl : laterDispatch = e := Option.some.inj he
      exact absurd holds id
    | j + 2 => cases he
  have henter : claimRun.step ⟨reclaimedTable,slots (some endedDispatch) (some laterBegun),claimedByLater⟩ (.act 1 .enter) =
      some ⟨reclaimedTable,slots (some endedDispatch) (some {laterDispatch with phase := .execute}),claimedByLater⟩ :=
    step_later rfl
  have hhandler : claimRun.step
        ⟨reclaimedTable,slots (some endedDispatch) (some {laterDispatch with phase := .execute}),claimedByLater⟩
        (.act 1 (.handler (.ok (.bool true)))) =
      some ⟨reclaimedTable,slots (some endedDispatch)
        (some {laterDispatch with phase := .encode (.bool true), succeeded := some (.bool true)}),claimedByLater⟩ :=
    step_later rfl
  have hencode : claimRun.step ⟨reclaimedTable,slots (some endedDispatch)
        (some {laterDispatch with phase := .encode (.bool true), succeeded := some (.bool true)}),claimedByLater⟩
        (.act 1 .encode) = some reclaimed := step_later rfl
  refine ((hbegun.step ?_ henter).step ?_ hhandler).step ?_ hencode
  · exact timely_of_ne nofun
  · exact timely_of_ne nofun
  · exact timely_of_ne nofun

theorem step_reclaimed : claimRun.step reclaimed (.act 1 (.complete .ok)) = some recordedAgain :=
  step_later (next_complete sendsKey_later)

/-- It records its success on its own claim, under the hash of its own payload. -/
theorem claims_owned_reclaimed :
    SettlesOwn reclaimed (.act 1 (.complete .ok) : Label Json Json Unit ClaimEvent) recordedAgain ∧
    ResultsRecorded some (fun _ => wireCommand) digestOf recordedAgain ∧
    ∃ row, recordedAgain.store.rows (rowKey slowContext) = some row ∧
      (row.status,row.payloadHash,row.result) = (.completed,digestOf "true",some "true") := by
  have hafter : claimRun.Reaches (Timely some defaultTtl) recordedAgain := by
    refine reaches_reclaimed.step ?_ step_reclaimed
    exact timely_of_ne nofun
  have hclaim : reclaimedTable.rows (rowKey laterContext) =
      some ⟨⟨.claimed,laterContext.payloadHash,none⟩,lapsedTable.now + defaultTtl⟩ := ClaimTable.put_self _
  have hrow : recordedAgain.store.rows (rowKey laterContext) =
      some ⟨⟨.completed,laterContext.payloadHash,some "true"⟩,reclaimedTable.now + defaultTtl⟩ := by
    change (recorded laterContext (.bool true) reclaimedTable).rows (rowKey laterContext) = _
    rw [recorded,ClaimTable.put_self,hclaim]
    rfl
  exact ⟨(claims_owned reaches_reclaimed).2 _ _ step_reclaimed,(claims_owned hafter).1,_,hrow,rfl⟩

/-- Past its 24 hours the claim of a dispatch that still runs is taken over for another payload. -/
def overtakenRun : List (Label Json Json Unit ClaimEvent) :=
  [.outside (.elapse defaultTtl),.dispatch 1 "PlaceOrder" "k" none (.bool true),.act 1 (.begin .ok)]

theorem run_overtaken : claimRun.runFrom ⟨claimedTable,slots (some handledDispatch) none,claimedBySlow⟩ overtakenRun =
    some ⟨takenTable,slots (some handledDispatch) (some laterBegun),claimedByLater⟩ := by
  have helapse : claimRun.step ⟨claimedTable,slots (some handledDispatch) none,claimedBySlow⟩ (.outside (.elapse defaultTtl)) =
      some ⟨expiredTable,slots (some handledDispatch) none,claimedBySlow⟩ := rfl
  rw [overtakenRun,System.runFrom,helapse,Option.bind_some,System.runFrom,step_dispatch_later,Option.bind_some,System.runFrom,
    step_begin_later claim_later,Option.bind_some,System.runFrom]

/-- The overtaken dispatch records its success on the claim of the other one, beside the hash of a payload that never ran. -/
theorem overtaken_not_owned :
    ∃ s t : ClaimDispatches Json Unit, claimRun.Reachable s ∧
      s.step (claimStore some defaultTtl) (fun _ => wireCommand) digestOf true (.act 0 (.complete .ok)) = some t ∧
      s.claimedBy (rowKey slowContext) = some 1 ∧ ¬ SettlesOwn s (.act 0 (.complete .ok) : Label Json Json Unit ClaimEvent) t ∧
      ¬ ResultsRecorded some (fun _ => wireCommand) digestOf t := by
  have hreach : claimRun.Reachable ⟨takenTable,slots (some handledDispatch) (some laterBegun),claimedByLater⟩ := by
    have hbegun := System.run_reachable run_begun
    have hhandled := hbegun.trans (System.runFrom_leads (fun _ _ _ => trivial) run_handler)
    exact hhandled.trans (System.runFrom_leads (fun _ _ _ => trivial) run_overtaken)
  have howner : claimedByLater (rowKey slowContext) = some 1 := Function.update_self (rowKey laterContext) _ _
  have htaken : takenTable.rows (rowKey slowContext) =
      some ⟨⟨.claimed,laterContext.payloadHash,none⟩,expiredTable.now + defaultTtl⟩ :=
    (ClaimTable.put_self _ : (expiredTable.put laterContext _).rows (rowKey laterContext) = _)
  have hrecorded : (recordedBySlow takenTable).rows (rowKey slowContext) =
      some ⟨⟨.completed,laterContext.payloadHash,some "null"⟩,takenTable.now + defaultTtl⟩ := by
    rw [recordedBySlow,recorded,ClaimTable.put_self,htaken]
    rfl
  refine ⟨_,_,hreach,step_complete_slow,howner,fun hsettles => ?_,fun hrecords => ?_⟩
  · have hchanged : (recordedBySlow takenTable).rows (rowKey slowContext) ≠ takenTable.rows (rowKey slowContext) := by
      rw [hrecorded,htaken]
      intro h
      cases h
    have hmine : claimedByLater (rowKey slowContext) = some 0 := hsettles 0 (.complete .ok) rfl nofun _ hchanged
    rw [howner] at hmine
    cases hmine
  · obtain ⟨i,d,hd,-,hhash,-,result,encoded,hsucceeded,-⟩ := hrecords _ _ hrecorded rfl
    match i with
    | 0 =>
      obtain rfl : endedDispatch = d := Option.some.inj hd
      have hne : slowContext.payloadHash ≠ laterContext.payloadHash := by simp [slowContext,laterContext,digestOf]
      exact hne hhash
    | 1 =>
      obtain rfl : laterBegun = d := Option.some.inj hd
      cases hsucceeded
    | i + 2 => cases hd

end Overtaken

end StructureAi.Postgres

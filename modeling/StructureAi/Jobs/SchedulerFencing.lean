import StructureAi.Foundation.Keyed
import StructureAi.Jobs.JobLife

/-! # Fencing of the job scheduler

Each statement of a scheduler or worker turns at most the row it names, and a claim one
row after the other. So the tables live the life of their rows, and a write whose lease
was lost leaves everything as it is.
-/
namespace StructureAi.Jobs
open StructureAi.Foundation

namespace SchedulerCall

def writer : SchedulerCall → Option QueueRow
  | heartbeat row _ _ => some row
  | settle _ row _ _ _ _ _ => some row
  | abandonDrain row _ => some row
  | _ => none

/-- The execution whose job is to be dead-lettered, by a transaction that can commit. -/
def buries : SchedulerCall → Option QueueRow
  | settle handlers row exit _ _ _ committed =>
    match runOutcome handlers row exit with
    | .deadLetter _ => if committed then some row else none
    | _ => none
  | _ => none

end SchedulerCall

namespace Scheduler

def row (s : Scheduler) (id : String) : Option JobRow := s.queue.find? fun r => r.id = id

def life (s : Scheduler) : Life := ⟨s.row,s.deadLetters,s.history⟩

/-- What the tables and executions keep. -/
structure Kept (s : Scheduler) : Prop where
  nodup : (s.queue.map JobRow.id).Nodup
  told : s.life.Told
  copied : ∀ row ∈ s.executions ++ s.settled, s.life.Copied row

/-- What a call has to do with its write. -/
structure Causes (c : SchedulerCall) (w : Write) : Prop where
  writer : ∀ row, c.writer = some row → w.id = row.id ∧ w.holder = some row.leaseOwner
  buries : w.letter.isSome = c.buries.isSome

section Statements
variable {zones : Zones} {s : Scheduler} {row : QueueRow}

theorem any_held (hn : (s.queue.map JobRow.id).Nodup) :
    s.queue.any (held row) = true ↔ ∃ r, s.row row.id = some r ∧ r.HeldBy row.leaseOwner := by
  rw [List.any_eq_true]
  constructor
  · rintro ⟨r,hr,hheld⟩
    obtain ⟨hid,hheld⟩ := of_decide_eq_true hheld
    exact ⟨r,(find?_key_iff hn).mpr ⟨hr,hid⟩,hheld⟩
  · rintro ⟨r,hr,hheld⟩
    obtain ⟨hmem,hid⟩ := find?_key hr
    exact ⟨r,hmem,decide_eq_true ⟨hid,hheld⟩⟩

theorem fenced_cases {statement : List JobRow → List JobRow} {w : Write} (k : s.Kept) (hid : w.id = row.id)
    (hw : w.holder = some row.leaseOwner) (hl : w.letter = none)
    (hturns : ∀ r, s.row row.id = some r → r.HeldBy row.leaseOwner →
      w.Turns zones (some r) ((statement s.queue).find? fun r => r.id = row.id))
    (hframe : ∀ id, id ≠ row.id → ((statement s.queue).find? fun r => r.id = id) = s.row id) :
    s.fenced row statement w = s ∨ s.life.Turn zones w (s.fenced row statement w).life := by
  unfold fenced
  split
  · rename_i hany
    obtain ⟨r,hr,hheld⟩ := (any_held k.nodup).mp hany
    right
    constructor
    · rw [hid]
      change w.Turns zones (s.row row.id) _
      rw [hr]
      exact hturns r hr hheld
    · intro id hne
      rw [hid] at hne
      exact hframe id hne
    · rfl
    · rw [hl,Option.toList_none,List.append_nil]
      rfl
    · rintro id rfl
      cases hw
    · rintro id token rfl
      cases hw
  · exact Or.inl rfl

theorem held_of_ne {r : JobRow} (h : r.id ≠ row.id) : held row r = false := by
  simp [held,h]

theorem row_updateHeld {g : JobRow → JobRow} (hg : ∀ r, (g r).id = r.id) (id : String) :
    ((updateWhere (held row) g s.queue).find? fun r => r.id = id) =
      (s.row id).map fun r => if held row r then g r else r := find?_updateWhere_key hg

theorem row_updateHeld_self {g : JobRow → JobRow} (hg : ∀ r, (g r).id = r.id) {r : JobRow}
    (hr : s.row row.id = some r) (hheld : r.HeldBy row.leaseOwner) :
    ((updateWhere (held row) g s.queue).find? fun r => r.id = row.id) = some (g r) := by
  have hid := (find?_key hr).2
  have htrue : held row r = true := decide_eq_true ⟨hid,hheld⟩
  rw [row_updateHeld hg,hr,Option.map_some,if_pos htrue]

theorem row_updateHeld_of_ne {g : JobRow → JobRow} (hg : ∀ r, (g r).id = r.id) {id : String} (h : id ≠ row.id) :
    ((updateWhere (held row) g s.queue).find? fun r => r.id = id) = s.row id := by
  rw [row_updateHeld hg]
  cases hr : s.row id with
  | none => rfl
  | some r =>
    have hid := (find?_key hr).2
    rw [Option.map_some,held_of_ne (hid.trans_ne h)]
    rfl

theorem row_deleteHeld_self (hn : (s.queue.map JobRow.id).Nodup) {r : JobRow} (hr : s.row row.id = some r)
    (hheld : r.HeldBy row.leaseOwner) :
    ((deleteWhere (held row) s.queue).find? fun r => r.id = row.id) = none := by
  have hid := (find?_key hr).2
  rw [find?_deleteWhere_key hn]
  change (s.row row.id).filter _ = none
  rw [hr,Option.filter_some,if_neg]
  simp [held,hid,hheld]

theorem row_deleteHeld_of_ne (hn : (s.queue.map JobRow.id).Nodup) {id : String} (h : id ≠ row.id) :
    ((deleteWhere (held row) s.queue).find? fun r => r.id = id) = s.row id := by
  rw [find?_deleteWhere_key hn]
  change (s.row id).filter _ = s.row id
  cases hr : s.row id with
  | none => rfl
  | some r =>
    have hid := (find?_key hr).2
    rw [Option.filter_some,held_of_ne (hid.trans_ne h)]
    rfl

theorem fenced_update_cases {g : JobRow → JobRow} {w : Write} (k : s.Kept) (hid : w.id = row.id)
    (hw : w.holder = some row.leaseOwner) (hl : w.letter = none) (hg : ∀ r, (g r).id = r.id)
    (hturns : ∀ r, s.row row.id = some r → r.HeldBy row.leaseOwner → w.Turns zones (some r) (some (g r))) :
    s.fenced row (updateWhere (held row) g) w = s ∨
      s.life.Turn zones w (s.fenced row (updateWhere (held row) g) w).life := by
  apply fenced_cases k hid hw hl
  · intro r hr hheld
    rw [row_updateHeld_self hg hr hheld]
    exact hturns r hr hheld
  · exact fun id hne => row_updateHeld_of_ne hg hne

theorem heartbeat_cases (k : s.Kept) (now leaseMillis : ℤ) :
    s.heartbeat row now leaseMillis = s ∨
      s.life.Turn zones (.heartbeat row.id row.leaseOwner) (s.heartbeat row now leaseMillis).life := by
  unfold heartbeat
  refine fenced_update_cases k rfl rfl rfl (fun _ => rfl) ?_
  intro r hr hheld
  rw [← (find?_key hr).2]
  exact .heartbeat r hheld _

theorem completeSuccess_cases (k : s.Kept) (hrow : s.life.Copied row) {now : ℤ} {next : Option ℤ}
    (hnext : completion zones row now = some next) :
    s.completeSuccess row now next = s ∨
      s.life.Turn zones (.complete row.id row.leaseOwner now next) (s.completeSuccess row now next).life := by
  have hcopy : ∀ r, s.row row.id = some r → r.HeldBy row.leaseOwner →
      completion zones (r.returned row.leaseOwner) now = some next := by
    intro r hr hheld
    rw [hrow.copy r hr hheld]
    exact hnext
  cases next with
  | none =>
    apply fenced_cases k rfl rfl rfl
    · intro r hr hheld
      rw [row_deleteHeld_self k.nodup hr hheld]
      have hturns := Write.Turns.completeLast r hheld (hcopy r hr hheld)
      rw [(find?_key hr).2] at hturns
      exact hturns
    · exact fun id hne => row_deleteHeld_of_ne k.nodup hne
  | some runAt =>
    unfold completeSuccess
    refine fenced_update_cases k rfl rfl rfl (fun _ => rfl) ?_
    intro r hr hheld
    have hturns := Write.Turns.complete r hheld (hcopy r hr hheld)
    rw [(find?_key hr).2] at hturns
    exact hturns

theorem rescheduleRetry_cases (k : s.Kept) (hrow : s.life.Copied row) (reason : String) (now : ℤ) (random : ℚ) :
    s.rescheduleRetry row reason now random = s ∨
      s.life.Turn zones (.retry row.id row.leaseOwner now (backoffMillis row.attempt random 1000 300000))
        (s.rescheduleRetry row reason now random).life := by
  unfold rescheduleRetry
  refine fenced_update_cases k rfl rfl rfl (fun _ => rfl) ?_
  intro r hr hheld
  have hattempt : r.attempt = row.attempt := congrArg QueueRow.attempt (hrow.copy r hr hheld)
  have hturns : Write.Turns zones (.retry r.id row.leaseOwner now (backoffMillis r.attempt random 1000 300000))
      (some r) _ := .retry r hheld random (slice 2048 reason)
  rw [(find?_key hr).2,hattempt] at hturns
  exact hturns

theorem abandonDrain_cases (k : s.Kept) (now : ℤ) :
    s.abandonDrain row now = s ∨
      s.life.Turn zones (.abandon row.id row.leaseOwner now) (s.abandonDrain row now).life := by
  unfold abandonDrain
  refine fenced_update_cases k rfl rfl rfl (fun _ => rfl) ?_
  intro r hr hheld
  rw [← (find?_key hr).2]
  exact .abandon r hheld

theorem deadLetter_cases (k : s.Kept) (reason : String) (now : ℤ) (letterId : String) (committed : Bool) :
    s.deadLetter row reason now letterId committed = s ∨ committed = true ∧ ∃ letter,
      s.life.Turn zones (.deadLetter row.id row.leaseOwner letter)
        (s.deadLetter row reason now letterId committed).life := by
  unfold deadLetter
  dsimp only
  split
  · rename_i hc
    obtain ⟨r,hr,hheld⟩ := (any_held k.nodup).mp hc.2.1
    right
    refine ⟨hc.1,_,?_,?_,rfl,rfl,?_,?_⟩
    · have hturns : Write.Turns zones (.deadLetter r.id row.leaseOwner
          ⟨letterId,row.jobName,row.payload,row.attempt,slice 2048 reason,row.correlationId,now⟩) (some r) none :=
        .deadLetter r hheld _
      rw [(find?_key hr).2] at hturns
      change Write.Turns zones _ (s.row row.id) ((deleteWhere (held row) s.queue).find? fun r => r.id = row.id)
      rw [hr,row_deleteHeld_self k.nodup hr hheld]
      exact hturns
    · exact fun id hne => row_deleteHeld_of_ne k.nodup hne
    · rintro id hw
      cases hw
    · rintro id token hw
      cases hw
  · exact Or.inl rfl

theorem schedule_turn (k : s.Kept) (handlers : Handlers) {id : String} (hid : ∀ w ∈ s.history, w.id ≠ id)
    (jobName payload : String) (runAt : ℤ) (correlationId : Option String) :
    s.life.Turn zones (.schedule id) (s.schedule handlers id jobName payload runAt correlationId).life := by
  have hnone : s.row id = none := by
    rw [← Option.not_isSome_iff_eq_none]
    have hpresent := k.told.present id
    have habsent : ∀ ws : List Write, (∀ w ∈ ws, w.id ≠ id) → present id ws = false := by
      intro ws
      induction ws with
      | nil => exact fun _ => rfl
      | cons w ws ih =>
        intro hws
        rw [present_cons_of_ne (hws w List.mem_cons_self)]
        exact ih fun w' hw' => hws w' (List.mem_cons_of_mem w hw')
    rw [habsent s.life.history hid] at hpresent
    change (s.row id).isSome = false at hpresent
    simp [hpresent]
  constructor
  · change Write.Turns zones _ (s.row id) ((s.queue ++ [_]).find? fun r => r.id = id)
    rw [find?_insert]
    change Write.Turns zones _ (s.row id) ((s.row id).or _)
    rw [hnone,if_pos rfl]
    exact .schedule ⟨id,jobName,payload,.queued,runAt,none,none,0,maxAttemptsFor handlers jobName,none,none,none,
      correlationId⟩ rfl rfl
  · intro id' hne
    change id' ≠ id at hne
    change ((s.queue ++ [_]).find? fun r => r.id = id') = s.row id'
    rw [find?_insert]
    change (s.row id').or _ = s.row id'
    rw [if_neg (Ne.symm hne),Option.or_none]
  · rfl
  · exact (List.append_nil _).symm
  · intro id' hw
    obtain rfl := Write.schedule.inj hw
    exact hid
  · intro id' token hw
    cases hw

theorem row_recur (handlers : Handlers) (id jobName payload cron timezone : String) (now first : ℤ)
    (correlationId : Option String) (id' : String) :
    (s.recur handlers id jobName payload cron timezone now first correlationId).row id' =
      if id' = id then
        match s.row id with
        | some r => some {r with
            payload := payload, runAt := first, cronExpr := some cron, cronTimezone := some timezone,
            status := .queued, attempt := 0, leaseExpiresAt := none, correlationId := correlationId}
        | none => some ⟨id,jobName,payload,.queued,first,some cron,some timezone,0,
            maxAttemptsFor handlers jobName,none,none,none,correlationId⟩
      else s.row id' := by
  unfold row recur
  dsimp only
  split
  · rename_i hany
    obtain ⟨r,hr⟩ := Option.isSome_iff_exists.mp (find?_key_isSome.mpr (by simpa using hany))
    rw [find?_updateWhere_key]
    · by_cases hid : id' = id
      · subst hid
        rw [if_pos rfl,hr,Option.map_some,if_pos (by simpa using (find?_key hr).2)]
      · rw [if_neg hid]
        cases hr' : s.queue.find? fun r => r.id = id' with
        | none => rfl
        | some r' =>
          rw [Option.map_some,if_neg]
          have hid' := (find?_key hr').2
          simpa [hid'] using hid
    · exact fun _ => rfl
  · rename_i hany
    have hnone : (s.queue.find? fun r => r.id = id) = none := by simpa using hany
    rw [find?_insert]
    by_cases hid : id' = id
    · subst hid
      rw [if_pos rfl,hnone]
      simp
    · rw [if_neg hid,if_neg (Ne.symm hid),Option.or_none]

theorem recur_turn {cron timezone : String} {now first : ℤ}
    (hnext : nextOccurrence zones cron timezone now = some (some first)) (handlers : Handlers)
    (id jobName payload : String) (correlationId : Option String) :
    s.life.Turn zones (.recur id cron timezone now first)
      (s.recur handlers id jobName payload cron timezone now first correlationId).life := by
  constructor
  · change Write.Turns zones (.recur id cron timezone now first) (s.row id)
      ((s.recur handlers id jobName payload cron timezone now first correlationId).row id)
    rw [row_recur,if_pos rfl]
    cases hr : s.row id with
    | none => exact .recur none ⟨id,jobName,payload,.queued,first,some cron,some timezone,0,
        maxAttemptsFor handlers jobName,none,none,none,correlationId⟩ rfl rfl rfl rfl hnext
    | some r =>
      obtain rfl := (find?_key hr).2
      exact .recur (some r) {r with
        payload := payload, runAt := first, cronExpr := some cron, cronTimezone := some timezone,
        status := .queued, attempt := 0, leaseExpiresAt := none, correlationId := correlationId} rfl rfl rfl rfl hnext
  · intro id' hne
    change id' ≠ id at hne
    change (s.recur handlers id jobName payload cron timezone now first correlationId).row id' = s.row id'
    rw [row_recur,if_neg hne]
  · rfl
  · exact (List.append_nil _).symm
  · intro id' hw
    cases hw
  · intro id' token hw
    cases hw

theorem cancel_cases (k : s.Kept) (id : String) :
    s.cancel id = s ∨ s.life.Turn zones (.cancel id) (s.cancel id).life := by
  unfold cancel
  split
  · rename_i hany
    obtain ⟨r,hr⟩ := Option.isSome_iff_exists.mp (find?_key_isSome.mpr (by simpa using hany))
    right
    constructor
    · obtain rfl := (find?_key hr).2
      change Write.Turns zones (.cancel r.id) (s.row r.id) ((deleteWhere _ s.queue).find? fun r' => r'.id = r.id)
      rw [find?_deleteWhere_key k.nodup]
      change Write.Turns zones (.cancel r.id) (s.row r.id) ((s.row r.id).filter _)
      have hrow : s.row r.id = some r := hr
      rw [hrow,Option.filter_some,if_neg (by simp)]
      exact .cancel r
    · intro id' hne
      change id' ≠ id at hne
      change ((deleteWhere _ s.queue).find? fun r' => r'.id = id') = s.row id'
      rw [find?_deleteWhere_key k.nodup]
      change (s.row id').filter _ = s.row id'
      cases hr' : s.row id' with
      | none => rfl
      | some r' =>
        have hid' := (find?_key hr').2
        rw [Option.filter_some,if_pos]
        simpa [hid'] using hne
    · rfl
    · exact (List.append_nil _).symm
    · intro id' hw
      cases hw
    · intro id' token hw
      cases hw
  · exact Or.inl rfl

theorem picked_nodup (hn : (s.queue.map JobRow.id).Nodup) (batchSize : ℕ) (now : ℤ) (skipped : List String) :
    (s.picked batchSize now skipped).Nodup := by
  have hfilter : ((s.queue.filter fun r => r.claimable now && r.id ∉ skipped).map JobRow.id).Nodup :=
    hn.sublist (List.filter_sublist.map _)
  have hsort : ((orderBy JobRow.runAt (s.queue.filter fun r => r.claimable now && r.id ∉ skipped)).map
      JobRow.id).Nodup := ((List.perm_insertionSort _ _).map _).nodup_iff.mpr hfilter
  exact hsort.sublist ((List.take_sublist batchSize _).map _)

theorem row_of_mem_picked {batchSize : ℕ} {now : ℤ} {skipped : List String} {id : String}
    (h : id ∈ s.picked batchSize now skipped) : (s.row id).isSome = true := by
  obtain ⟨r,hr,rfl⟩ := List.mem_map.mp h
  have hmem := (List.perm_insertionSort _ _).mem_iff.mp (List.mem_of_mem_take hr)
  exact find?_key_isSome.mpr ⟨r,(List.mem_filter.mp hmem).1,rfl⟩

theorem claim_turns (k : s.Kept) {owner : String} (hfresh : ∀ w ∈ s.history, w.token ≠ some owner)
    (batchSize : ℕ) (now leaseMillis : ℤ) (skipped : List String) :
    Relation.ReflTransGen (fun x x' => ∃ id, Life.Turn zones x (.claim id owner) x') s.life
      (s.claim batchSize now leaseMillis owner skipped).life := by
  have hchain : ∀ done : List String, done.Nodup → (∀ id ∈ done, (s.row id).isSome = true) →
      Relation.ReflTransGen (fun x x' => ∃ id, Life.Turn zones x (.claim id owner) x') s.life
        ⟨fun id => (s.row id).map fun r => if r.id ∈ done then r.claimed (now + leaseMillis) owner else r,
          s.deadLetters,done.map (Write.claim · owner) ++ s.history⟩ := by
    intro done
    induction done with
    | nil =>
      intro _ _
      have hsame : (fun id => (s.row id).map fun r =>
          if r.id ∈ ([] : List String) then r.claimed (now + leaseMillis) owner else r) = s.row := by
        funext id
        simp
      rw [hsame]
      exact Relation.ReflTransGen.refl
    | cons id done ih =>
      intro hnd hsome
      obtain ⟨hnot,hnd⟩ := List.nodup_cons.mp hnd
      apply Relation.ReflTransGen.tail (ih hnd fun id' hid' => hsome id' (List.mem_cons_of_mem id hid'))
      obtain ⟨r,hr⟩ := Option.isSome_iff_exists.mp (hsome id List.mem_cons_self)
      obtain rfl := (find?_key hr).2
      refine ⟨r.id,?_,?_,rfl,(List.append_nil _).symm,?_,?_⟩
      · change Write.Turns zones (.claim r.id owner) ((s.row r.id).map _) ((s.row r.id).map _)
        rw [hr,Option.map_some,Option.map_some,if_neg hnot,if_pos List.mem_cons_self]
        exact .claim r (now + leaseMillis)
      · intro id' hne
        change (s.row id').map _ = (s.row id').map _
        cases hr' : s.row id' with
        | none => rfl
        | some r' =>
          have hid' : r'.id ≠ r.id := (find?_key hr').2.trans_ne hne
          simp only [Option.map_some,List.mem_cons,hid',false_or]
      · intro id' hw
        cases hw
      · rintro id' token hw w' hw' hid'
        obtain ⟨rfl,rfl⟩ := Write.claim.inj hw
        rcases List.mem_append.mp hw' with hw' | hw'
        · obtain ⟨id'',hin,rfl⟩ := List.mem_map.mp hw'
          exact absurd (hid' ▸ hin) hnot
        · exact hfresh w' hw'
  have hrows : (s.claim batchSize now leaseMillis owner skipped).row = fun id => (s.row id).map fun r =>
      if r.id ∈ s.picked batchSize now skipped then r.claimed (now + leaseMillis) owner else r := by
    funext id
    change ((updateWhere _ _ s.queue).find? fun r => r.id = id) = _
    rw [find?_updateWhere_key]
    · simp only [decide_eq_true_eq]
      rfl
    · exact fun _ => rfl
  have hlife := hchain (s.picked batchSize now skipped) (picked_nodup k.nodup batchSize now skipped)
    fun id hid => row_of_mem_picked hid
  rw [← hrows] at hlife
  exact hlife

theorem life_eq {t : Scheduler} (h : s.queue = t.queue ∧ s.deadLetters = t.deadLetters ∧ s.history = t.history) :
    s.life = t.life := by
  obtain ⟨hqueue,hletters,hhistory⟩ := h
  have hrow : s.row = t.row := by
    funext id
    rw [row,row,hqueue]
  rw [life,life,hrow,hletters,hhistory]

theorem step_cases (k : s.Kept) {c : SchedulerCall} {s' : Scheduler} (h : step zones s c = some s') :
    (s'.queue = s.queue ∧ s'.deadLetters = s.deadLetters ∧ s'.history = s.history) ∨
    (∃ w, s.life.Turn zones w s'.life ∧ Causes c w) ∨
    ∃ batchSize now leaseMillis owner skipped, c = .claim batchSize now leaseMillis owner skipped ∧
      (∀ w ∈ s.history, w.token ≠ some owner) ∧ s' = s.claim batchSize now leaseMillis owner skipped := by
  have hone : ∀ {t : Scheduler} {w : Write}, t = s ∨ s.life.Turn zones w t.life → Causes c w →
      (s'.queue = t.queue ∧ s'.deadLetters = t.deadLetters ∧ s'.history = t.history) →
      (s'.queue = s.queue ∧ s'.deadLetters = s.deadLetters ∧ s'.history = s.history) ∨
      (∃ w, s.life.Turn zones w s'.life ∧ Causes c w) ∨
      ∃ batchSize now leaseMillis owner skipped, c = .claim batchSize now leaseMillis owner skipped ∧
        (∀ w ∈ s.history, w.token ≠ some owner) ∧ s' = s.claim batchSize now leaseMillis owner skipped := by
    rintro t w (rfl | hturn) hc hs
    · exact Or.inl hs
    · rw [← life_eq hs] at hturn
      exact Or.inr (Or.inl ⟨w,hturn,hc⟩)
  have hfree : ∀ {w : Write}, c.writer = none → c.buries = none → w.letter = none → Causes c w := by
    intro w hw hb hl
    constructor
    · intro row hrow
      rw [hw] at hrow
      cases hrow
    · rw [hb,hl]
      rfl
  cases c with
  | schedule handlers id jobName payload runAt correlationId =>
    simp only [step] at h
    split at h
    · rename_i hid
      obtain rfl := Option.some.inj h
      exact hone (Or.inr (schedule_turn k handlers hid jobName payload runAt correlationId))
        (hfree rfl rfl rfl) ⟨rfl,rfl,rfl⟩
    · cases h
  | recur handlers id jobName payload cron timezone now correlationId =>
    simp only [step] at h
    split at h
    · rename_i first hnext
      obtain rfl := Option.some.inj h
      exact hone (Or.inr (recur_turn hnext handlers id jobName payload correlationId)) (hfree rfl rfl rfl)
        ⟨rfl,rfl,rfl⟩
    · cases h
  | cancel id =>
    obtain rfl := Option.some.inj h
    exact hone (cancel_cases k id) (hfree rfl rfl rfl) ⟨rfl,rfl,rfl⟩
  | claim batchSize now leaseMillis owner skipped =>
    simp only [step] at h
    split at h
    · rename_i hfresh
      exact Or.inr (Or.inr ⟨_,_,_,_,_,rfl,hfresh,(Option.some.inj h).symm⟩)
    · cases h
  | heartbeat row now leaseMillis =>
    simp only [step] at h
    split at h
    · obtain rfl := Option.some.inj h
      refine hone (heartbeat_cases k now leaseMillis) ⟨?_,rfl⟩ ⟨rfl,rfl,rfl⟩
      rintro row' ⟨⟩
      exact ⟨rfl,rfl⟩
    · cases h
  | settle handlers row exit now random letterId committed =>
    simp only [step] at h
    split at h
    · rename_i hrow
      have hcopied := k.copied row (List.mem_append_left _ hrow)
      cases ho : runOutcome handlers row exit with
      | completeSuccess =>
        simp only [ho] at h
        obtain ⟨next,hnext,rfl⟩ := Option.map_eq_some_iff.mp h
        refine hone (completeSuccess_cases k hcopied hnext) ⟨?_,?_⟩ ⟨rfl,rfl,rfl⟩
        · rintro row' ⟨⟩
          exact ⟨rfl,rfl⟩
        · simp only [SchedulerCall.buries,ho]
          rfl
      | rescheduleRetry reason =>
        simp only [ho] at h
        obtain rfl := Option.some.inj h
        refine hone (rescheduleRetry_cases k hcopied reason now random) ⟨?_,?_⟩ ⟨rfl,rfl,rfl⟩
        · rintro row' ⟨⟩
          exact ⟨rfl,rfl⟩
        · simp only [SchedulerCall.buries,ho]
          rfl
      | deadLetter reason =>
        simp only [ho] at h
        obtain rfl := Option.some.inj h
        have hcases : _ ∨ committed = true ∧ ∃ letter,
            s.life.Turn zones (.deadLetter row.id row.leaseOwner letter) _ :=
          deadLetter_cases k reason now letterId committed
        rcases hcases with hs | ⟨rfl,letter,hturn⟩
        · rw [hs]
          exact Or.inl ⟨rfl,rfl,rfl⟩
        · refine hone (Or.inr hturn) ⟨?_,?_⟩ ⟨rfl,rfl,rfl⟩
          · rintro row' ⟨⟩
            exact ⟨rfl,rfl⟩
          · simp only [SchedulerCall.buries,ho]
            rfl
    · cases h
  | abandonDrain row now =>
    simp only [step] at h
    split at h
    · obtain rfl := Option.some.inj h
      refine hone (abandonDrain_cases k now) ⟨?_,rfl⟩ ⟨rfl,rfl,rfl⟩
      rintro row' ⟨⟩
      exact ⟨rfl,rfl⟩
    · cases h
  | stop row =>
    obtain rfl := Option.some.inj h
    exact Or.inl ⟨rfl,rfl,rfl⟩

theorem fenced_nodup {statement : List JobRow → List JobRow} {w : Write} (hn : (s.queue.map JobRow.id).Nodup)
    (hs : ((statement s.queue).map JobRow.id).Nodup) : ((s.fenced row statement w).queue.map JobRow.id).Nodup := by
  unfold fenced
  split
  · exact hs
  · exact hn

theorem fenced_update_nodup {g : JobRow → JobRow} {w : Write} (hn : (s.queue.map JobRow.id).Nodup)
    (hg : ∀ r, (g r).id = r.id) : ((s.fenced row (updateWhere (held row) g) w).queue.map JobRow.id).Nodup := by
  apply fenced_nodup hn
  rw [map_key_updateWhere hg]
  exact hn

theorem settle_nodup {handlers : Handlers} {exit : HandlerExit} {now : ℤ} {random : ℚ} {letterId : String}
    {committed : Bool} {s' : Scheduler} (hn : (s.queue.map JobRow.id).Nodup)
    (h : step zones s (.settle handlers row exit now random letterId committed) = some s') :
    (s'.queue.map JobRow.id).Nodup := by
  simp only [step] at h
  split at h
  · cases ho : runOutcome handlers row exit with
    | completeSuccess =>
      simp only [ho] at h
      obtain ⟨next,-,rfl⟩ := Option.map_eq_some_iff.mp h
      cases next with
      | none => exact fenced_nodup hn (nodup_deleteWhere hn)
      | some runAt => exact fenced_update_nodup hn fun _ => rfl
    | rescheduleRetry reason =>
      simp only [ho] at h
      obtain rfl := Option.some.inj h
      exact fenced_update_nodup hn fun _ => rfl
    | deadLetter reason =>
      simp only [ho] at h
      obtain rfl := Option.some.inj h
      change ((s.deadLetter row reason now letterId committed).queue.map JobRow.id).Nodup
      unfold deadLetter
      dsimp only
      split
      · exact nodup_deleteWhere hn
      · exact hn
  · cases h

theorem step_nodup (hn : (s.queue.map JobRow.id).Nodup) (ht : s.life.Told) {c : SchedulerCall} {s' : Scheduler}
    (h : step zones s c = some s') : (s'.queue.map JobRow.id).Nodup := by
  cases c with
  | settle => exact settle_nodup hn h
  | schedule handlers id jobName payload runAt correlationId =>
    simp only [step] at h
    split at h
    · rename_i hid
      obtain rfl := Option.some.inj h
      apply nodup_insert hn
      rintro r hr rfl
      -- a row in the table has been written
      have hsome : (s.row r.id).isSome = true := find?_key_isSome.mpr ⟨r,hr,rfl⟩
      obtain ⟨w,hw,he⟩ := exists_of_present (ht.present r.id ▸ hsome)
      exact hid w hw he
    · cases h
  | recur handlers id jobName payload cron timezone now correlationId =>
    simp only [step] at h
    split at h
    · obtain rfl := Option.some.inj h
      unfold recur
      dsimp only
      split
      · rw [map_key_updateWhere]
        · exact hn
        · exact fun _ => rfl
      · rename_i hany
        apply nodup_insert hn
        intro r hr hid
        apply hany
        exact List.any_eq_true.mpr ⟨r,hr,decide_eq_true hid⟩
    · cases h
  | cancel id =>
    obtain rfl := Option.some.inj h
    unfold cancel
    split
    · exact nodup_deleteWhere hn
    · exact hn
  | claim batchSize now leaseMillis owner skipped =>
    simp only [step] at h
    split at h
    · obtain rfl := Option.some.inj h
      change ((updateWhere _ _ s.queue).map JobRow.id).Nodup
      rw [map_key_updateWhere]
      · exact hn
      · exact fun _ => rfl
    · cases h
  | heartbeat row now leaseMillis =>
    simp only [step] at h
    split at h
    · obtain rfl := Option.some.inj h
      exact fenced_update_nodup hn fun _ => rfl
    · cases h
  | abandonDrain row now =>
    simp only [step] at h
    split at h
    · obtain rfl := Option.some.inj h
      exact fenced_update_nodup hn fun _ => rfl
    · cases h
  | stop row =>
    obtain rfl := Option.some.inj h
    exact hn

theorem fenced_executions {statement : List JobRow → List JobRow} {w : Write} :
    (s.fenced row statement w).executions = s.executions ∧ (s.fenced row statement w).settled = s.settled := by
  unfold fenced
  split
  · exact ⟨rfl,rfl⟩
  · exact ⟨rfl,rfl⟩

theorem step_executions {c : SchedulerCall} {s' : Scheduler} (h : step zones s c = some s') {row : QueueRow}
    (hrow : row ∈ s'.executions ++ s'.settled) : row ∈ s.executions ++ s.settled ∨
      ∃ batchSize now leaseMillis owner skipped, c = .claim batchSize now leaseMillis owner skipped ∧
        ∃ r ∈ s'.queue, r.id ∈ s.picked batchSize now skipped ∧ r.returned owner = row := by
  have hsame : ∀ {t : Scheduler}, (t.executions = s.executions ∧ t.settled = s.settled) → s' = t →
      row ∈ s.executions ++ s.settled := by
    rintro t ⟨he,hs⟩ rfl
    rw [he,hs] at hrow
    exact hrow
  have hsettle : ∀ {t : Scheduler} {done : QueueRow}, done ∈ s.executions →
      (t.executions = s.executions ∧ t.settled = s.settled) → s' = t.settle done →
      row ∈ s.executions ++ s.settled := by
    rintro t done hdone ⟨he,hs⟩ rfl
    change row ∈ t.executions.erase done ++ done :: t.settled at hrow
    rw [he,hs] at hrow
    rcases List.mem_append.mp hrow with hrow | hrow
    · exact List.mem_append_left _ (List.mem_of_mem_erase hrow)
    · rcases List.mem_cons.mp hrow with rfl | hrow
      · exact List.mem_append_left _ hdone
      · exact List.mem_append_right _ hrow
  cases c with
  | schedule handlers id jobName payload runAt correlationId =>
    simp only [step] at h
    split at h
    · exact Or.inl (hsame (t := s.schedule handlers id jobName payload runAt correlationId) ⟨rfl,rfl⟩
        (Option.some.inj h).symm)
    · cases h
  | recur handlers id jobName payload cron timezone now correlationId =>
    simp only [step] at h
    split at h
    · rename_i first hnext
      exact Or.inl (hsame (t := s.recur handlers id jobName payload cron _ now first correlationId) ⟨rfl,rfl⟩
        (Option.some.inj h).symm)
    · cases h
  | cancel id =>
    have he : (s.cancel id).executions = s.executions ∧ (s.cancel id).settled = s.settled := by
      unfold cancel
      split
      · exact ⟨rfl,rfl⟩
      · exact ⟨rfl,rfl⟩
    exact Or.inl (hsame he (Option.some.inj h).symm)
  | claim batchSize now leaseMillis owner skipped =>
    simp only [step] at h
    split at h
    · obtain rfl := Option.some.inj h
      rw [claim,List.append_assoc] at hrow
      rcases List.mem_append.mp hrow with hrow | hrow
      · obtain ⟨r,hr,rfl⟩ := List.mem_map.mp hrow
        obtain ⟨hr,hid⟩ := List.mem_filter.mp hr
        exact Or.inr ⟨_,_,_,_,_,rfl,r,hr,of_decide_eq_true hid,rfl⟩
      · exact Or.inl hrow
    · cases h
  | heartbeat done now leaseMillis =>
    simp only [step] at h
    split at h
    · exact Or.inl (hsame fenced_executions (Option.some.inj h).symm)
    · cases h
  | settle handlers done exit now random letterId committed =>
    simp only [step] at h
    split at h
    · rename_i hdone
      left
      cases ho : runOutcome handlers done exit with
      | completeSuccess =>
        simp only [ho] at h
        obtain ⟨next,-,rfl⟩ := Option.map_eq_some_iff.mp h
        exact hsettle hdone fenced_executions rfl
      | rescheduleRetry reason =>
        simp only [ho] at h
        exact hsettle hdone fenced_executions (Option.some.inj h).symm
      | deadLetter reason =>
        simp only [ho] at h
        have he : (s.deadLetter done reason now letterId committed).executions = s.executions ∧
            (s.deadLetter done reason now letterId committed).settled = s.settled := by
          unfold deadLetter
          dsimp only
          split
          · exact ⟨rfl,rfl⟩
          · exact ⟨rfl,rfl⟩
        exact hsettle hdone he (Option.some.inj h).symm
    · cases h
  | abandonDrain done now =>
    simp only [step] at h
    split at h
    · exact Or.inl (hsame fenced_executions (Option.some.inj h).symm)
    · cases h
  | stop done =>
    obtain rfl := Option.some.inj h
    left
    rcases List.mem_append.mp hrow with hrow | hrow
    · exact List.mem_append_left _ (List.mem_of_mem_erase hrow)
    · exact List.mem_append_right _ (List.mem_of_mem_erase hrow)

theorem step_preserves (k : s.Kept) {c : SchedulerCall} {s' : Scheduler} (h : step zones s c = some s')
    {P : Life → Prop} (hP : ∀ x w x', Life.Turn zones x w x' → P x → P x') (hs : P s.life) : P s'.life := by
  rcases step_cases k h with hsame | ⟨w,hturn,-⟩ | ⟨batchSize,now,leaseMillis,owner,skipped,-,hfresh,rfl⟩
  · rw [life_eq hsame]
    exact hs
  · exact hP _ w _ hturn hs
  · have hchain : ∀ x', Relation.ReflTransGen (fun x x' => ∃ id, Life.Turn zones x (.claim id owner) x') s.life x' →
        P x' := by
      intro x' hx'
      induction hx' with
      | refl => exact hs
      | tail _ hturn ih =>
        obtain ⟨id,hturn⟩ := hturn
        exact hP _ _ _ hturn ih
    exact hchain _ (claim_turns k hfresh batchSize now leaseMillis skipped)

theorem step_kept (k : s.Kept) {c : SchedulerCall} {s' : Scheduler} (h : step zones s c = some s') :
    s'.Kept := by
  have hn := step_nodup k.nodup k.told h
  constructor
  · exact hn
  · exact step_preserves k h (fun _ _ _ hturn hx => hturn.told hx) k.told
  · intro row hrow
    rcases step_executions h hrow with hold | ⟨batchSize,now,leaseMillis,owner,skipped,rfl,r,hr,hid,rfl⟩
    · exact step_preserves k h (fun _ _ _ hturn hx => hturn.copied hx) (k.copied row hold)
    · simp only [step] at h
      split at h
      · obtain rfl := Option.some.inj h
        constructor
        · apply List.mem_append_left
          exact List.mem_map_of_mem hid
        · intro r' hr' _
          have hrow : (s.claim batchSize now leaseMillis _ skipped).row r.id = some r := (find?_key_iff hn).mpr ⟨hr,rfl⟩
          have hsame := hrow.symm.trans hr'
          rw [Option.some.inj hsame]
          rfl
      · cases h

theorem reachable_kept (hr : (runs zones).Reachable s) : s.Kept := by
  apply System.Reaches.invariant hr Kept
  · constructor
    · exact List.nodup_nil
    · constructor
      · intro id r h
        cases h
      · trivial
      · exact fun _ => rfl
      · intro id r h
        cases h
      · rfl
    · intro row hrow
      cases hrow
  · intro a l b k _ h
    exact step_kept k h

end Statements

def Has (s : Scheduler) (id : String) : Prop := ∃ r ∈ s.queue, r.id = id

/-- What fencing on the token of the claim guarantees. -/
structure Fenced (zones : Zones) (s : Scheduler) : Prop where
  /-- A worker's write takes effect only with the token of the latest claim of its row. -/
  latest : ∀ c row s', c.writer = some row → step zones s c = some s' →
    (s'.queue ≠ s.queue ∨ s'.deadLetters ≠ s.deadLetters) → latestClaim row.id s.history = some row.leaseOwner
  /-- A claim is completed, retried, dead-lettered or abandoned once at most. -/
  settledOnce : ∀ id token, (releasesOf id token s.history).length ≤ 1
  /-- The history tells of every row that leaves, and of no other. -/
  leaves : ∀ c s', step zones s c = some s' → ∀ id,
    (s.Has id ∧ ¬ s'.Has id) ↔ ∃ w, s'.history = w :: s.history ∧ w.id = id ∧ w.removes = true
  /-- Until its id is given to a recurring schedule, a one-shot job leaves by one write at most. -/
  removedOnce : ∀ later middle earlier id, s.history = later ++ (middle ++ .schedule id :: earlier) →
    (∀ w ∈ middle, w.id = id → w.recurs = false) → (removalsOf id middle).length ≤ 1
  /-- It is in the table, or it has left by one write. -/
  leftOrThere : ∀ middle earlier id, s.history = middle ++ .schedule id :: earlier →
    (∀ w ∈ middle, w.id = id → w.recurs = false) → (s.Has id ↔ removalsOf id middle = [])
  /-- A dead letter is written exactly when the claim holder that dead-letters the job removes it. -/
  lettered : ∀ c s', step zones s c = some s' → (s'.deadLetters ≠ s.deadLetters ↔
    ∃ row, c.buries = some row ∧ s.Has row.id ∧ ¬ s'.Has row.id)
  /-- There is one letter for every such removal. -/
  letters : s.deadLetters = (s.history.filterMap Write.letter).reverse

section Fencing
variable {zones : Zones} {s : Scheduler}

theorem has_iff {id : String} : s.Has id ↔ (s.row id).isSome = true := find?_key_isSome.symm

theorem writer_of_buries {c : SchedulerCall} {row : QueueRow} (h : c.buries = some row) : c.writer = some row := by
  cases c with
  | settle handlers row' exit now random letterId committed =>
    simp only [SchedulerCall.buries] at h
    split at h
    · split at h
      · exact h
      · cases h
    · cases h
  | _ => cases h

theorem has_claim {batchSize : ℕ} {now leaseMillis : ℤ} {owner : String} {skipped : List String} (id : String) :
    (s.claim batchSize now leaseMillis owner skipped).Has id ↔ s.Has id := by
  have hids : (s.claim batchSize now leaseMillis owner skipped).queue.map JobRow.id = s.queue.map JobRow.id :=
    map_key_updateWhere fun _ => rfl
  unfold Has
  rw [← List.mem_map,← List.mem_map,hids]

theorem leaves_iff (k : s.Kept) {c : SchedulerCall} {s' : Scheduler} (h : step zones s c = some s') (id : String) :
    (s.Has id ∧ ¬ s'.Has id) ↔ ∃ w, s'.history = w :: s.history ∧ w.id = id ∧ w.removes = true := by
  rcases step_cases k h with hsame | ⟨w,hturn,-⟩ | ⟨batchSize,now,leaseMillis,owner,skipped,-,hfresh,rfl⟩
  · constructor
    · rintro ⟨hhas,hnot⟩
      unfold Has at hnot
      rw [hsame.1] at hnot
      exact absurd hhas hnot
    · rintro ⟨w,hw,-⟩
      rw [hsame.2.2] at hw
      exact absurd hw.symm (List.cons_ne_self w s.history)
  · have hhistory : s'.history = w :: s.history := hturn.history
    rw [has_iff,has_iff]
    constructor
    · rintro ⟨hhas,hnot⟩
      refine ⟨w,hhistory,?_⟩
      by_cases hid : id = w.id
      · subst hid
        have hafter : (s'.row w.id).isSome = !w.removes := hturn.turns.after_isSome
        rw [hafter] at hnot
        exact ⟨rfl,by simpa using hnot⟩
      · have hframe : s'.row id = s.row id := hturn.frame id hid
        rw [hframe] at hnot
        exact absurd hhas hnot
    · rintro ⟨w',hw',rfl,hrem⟩
      rw [hhistory] at hw'
      obtain rfl := (List.cons.inj hw').1
      have hbefore : (s.row w.id).isSome = true := by
        apply hturn.turns.before_isSome
        cases w <;> first | rfl | cases hrem
      have hafter : (s'.row w.id).isSome = !w.removes := hturn.turns.after_isSome
      rw [hrem] at hafter
      exact ⟨hbefore,by simp [hafter]⟩
  · rw [has_claim]
    constructor
    · exact fun hboth => absurd hboth.1 hboth.2
    · rintro ⟨w,hw,-,hrem⟩
      have hw : (s.picked batchSize now skipped).map (Write.claim · owner) ++ s.history = w :: s.history := hw
      cases hp : s.picked batchSize now skipped with
      | nil =>
        rw [hp] at hw
        exact absurd hw.symm (List.cons_ne_self w s.history)
      | cons id' ids =>
        rw [hp] at hw
        obtain rfl := (List.cons.inj hw).1
        cases hrem

/-- Fencing holds in every reachable state, whatever the workers and the clock do. -/
theorem fenced_of_reachable (zones : Zones) (s : Scheduler) (hr : (runs zones).Reachable s) : s.Fenced zones := by
  have k := reachable_kept hr
  constructor
  · intro c row s' hwriter h hchange
    rcases step_cases k h with hsame | ⟨w,hturn,hc⟩ | ⟨_,_,_,_,_,rfl,-,-⟩
    · rcases hchange with hchange | hchange
      · exact absurd hsame.1 hchange
      · exact absurd hsame.2.1 hchange
    · obtain ⟨hid,hholder⟩ := hc.writer row hwriter
      have hfenced := ((hturn.legal k.told).fenced row.leaseOwner hholder).1
      rw [hid] at hfenced
      exact hfenced
    · cases hwriter
  · exact k.told.legal.releases_le
  · exact fun c s' h id => leaves_iff k h id
  · intro later middle earlier id hsplit hone
    have hlegal : LegalHistory (later ++ (middle ++ .schedule id :: earlier)) := hsplit ▸ k.told.legal
    rw [hlegal.of_append.removals hone]
    split
    · exact Nat.zero_le 1
    · exact le_rfl
  · intro middle earlier id hsplit hone
    have hlegal : LegalHistory (middle ++ .schedule id :: earlier) := hsplit ▸ k.told.legal
    have hcount := hlegal.removals hone
    have hpresent : (s.row id).isSome = present id s.history := k.told.present id
    rw [has_iff,hpresent,hsplit,← List.length_eq_zero_iff,hcount]
    split
    · rename_i htrue
      exact iff_of_true htrue rfl
    · rename_i hfalse
      exact iff_of_false hfalse Nat.one_ne_zero
  · intro c s' h
    rcases step_cases k h with hsame | ⟨w,hturn,hc⟩ | ⟨_,_,_,_,_,rfl,hfresh,rfl⟩
    · apply iff_of_false
      · exact fun hne => hne hsame.2.1
      · rintro ⟨row,-,hhas,hnot⟩
        unfold Has at hnot
        rw [hsame.1] at hnot
        exact hnot hhas
    · have hletters : s'.deadLetters = s.deadLetters ++ w.letter.toList := hturn.deadLetters
      constructor
      · intro hne
        have hsome : w.letter.isSome = true := by
          by_contra hnone
          apply hne
          rw [hletters,Option.not_isSome_iff_eq_none.mp hnone,Option.toList_none,List.append_nil]
        obtain ⟨row,hrow⟩ := Option.isSome_iff_exists.mp (hc.buries ▸ hsome)
        refine ⟨row,hrow,?_⟩
        rw [leaves_iff k h]
        refine ⟨w,hturn.history,(hc.writer row (writer_of_buries hrow)).1,?_⟩
        cases w <;> first | rfl | cases hsome
      · rintro ⟨row,hrow,-⟩ heq
        have hsome : w.letter.isSome = true := by
          rw [hc.buries,hrow]
          rfl
        obtain ⟨letter,hletter⟩ := Option.isSome_iff_exists.mp hsome
        rw [hletters,hletter,Option.toList_some] at heq
        exact absurd heq (by simp)
    · apply iff_of_false
      · exact fun hne => hne rfl
      · rintro ⟨row,hrow,-⟩
        cases hrow
  · exact k.told.letters

/-- A job whose first worker stalls past its lease; the second fails for good, then the first wakes. -/
def stalledWorker : List SchedulerCall :=
  let handlers : Handlers := fun _ => some ⟨fun _ => .ok (),none⟩
  let row : String → ℕ → QueueRow := fun owner attempt => ⟨"job","mail","{}",attempt,5,none,none,none,10,owner⟩
  [.schedule handlers "job" "mail" "{}" 10 none,
    .claim 10 20 100 "first" [],
    .claim 10 200 100 "second" [],
    .settle handlers (row "second" 2) (.failure ⟨"gone",.permanent⟩) 210 0 "letter" true,
    .settle handlers (row "first" 1) .success 220 0 "" true]

theorem fenced_stalledWorker : ∃ s, (runs fun _ => none).run stalledWorker = some s ∧ s.Fenced (fun _ => none) ∧
    s.history.map Write.holder = [some "second",none,none,none] ∧ s.deadLetters.length = 1 := by
  obtain ⟨s,hs,hhistory,hletters⟩ : ∃ s, (runs fun _ => none).run stalledWorker = some s ∧
      s.history.map Write.holder = [some "second",none,none,none] ∧ s.deadLetters.length = 1 := by
    refine ⟨_,rfl,?_,?_⟩
    · decide +kernel
    · decide +kernel
  exact ⟨s,hs,fenced_of_reachable _ s (System.run_reachable hs),hhistory,hletters⟩

end Fencing

end Scheduler

end StructureAi.Jobs

import StructureAi.Jobs.RecurringJobs

/-! # Declaring a schedule again

`recur` on a key that has a row writes the columns that it lists. The others stay, and so
the row is that of a fresh declaration just where they were as the declaration has them.
The workers of older claims are out of it in any case.
-/
namespace StructureAi.Jobs
open StructureAi.Foundation

def declaredRow (handlers : Handlers) (id jobName payload cron timezone : String) (first : ℤ)
    (correlationId : Option String) : JobRow where
  id := id
  jobName := jobName
  payload := payload
  status := .queued
  runAt := first
  cronExpr := some cron
  cronTimezone := some timezone
  attempt := 0
  maxAttempts := maxAttemptsFor handlers jobName
  leaseExpiresAt := none
  leaseOwner := none
  lastError := none
  correlationId := correlationId

namespace Scheduler
variable (zones : Zones)

/-- Nothing that the workers of a state's claims still do changes the row of a key. -/
def Disowned (s : Scheduler) (id : String) : Prop :=
  ∀ t, (runs zones).Leads (fun _ _ => True) s t → ∀ row ∈ s.executions ++ s.settled, row.id = id →
    ∀ c t', SchedulerCall.writer c = some row → step zones t c = some t' → t'.queue = t.queue ∧ t'.history = t.history

/-- A key has the row of a fresh declaration, whoever has worked on it before. -/
structure Replaced (s : Scheduler) (id : String) (r : JobRow) : Prop where
  row : s.row id = some r
  disowned : s.Disowned zones id

/-- A claim that nobody runs under any more. -/
structure Shut (x : Life) (id token : String) : Prop where
  claimed : Write.claim id token ∈ x.history
  free : ∀ r, x.rows id = some r → ¬ r.HeldBy token

variable {zones} {s s' : Scheduler} {id token : String}

theorem Shut.turn {x x' : Life} {w : Write} (h : Shut x id token) (hturn : x.Turn zones w x') : Shut x' id token := by
  constructor
  · rw [hturn.history]
    exact List.mem_cons_of_mem w h.claimed
  · intro r hr hheld
    by_cases hid : id = w.id
    · subst hid
      rcases hturn.turns.running hr hheld.1 with ⟨token',hw,howner⟩ | ⟨token',r',-,-,hr',hheld',howner,-⟩
      · obtain rfl := Option.some.inj (hheld.2.symm.trans howner)
        exact hturn.freshToken _ _ hw _ h.claimed rfl rfl
      · obtain rfl := Option.some.inj (hheld.2.symm.trans howner)
        exact h.free r' hr' hheld'
    · rw [hturn.frame id hid] at hr
      exact h.free r hr hheld

theorem Shut.advance (h : Shut s.life id token) (k : s.Kept) {c : SchedulerCall} (hs : step zones s c = some s') :
    Shut s'.life id token := by
  rcases step_cases k hs with hsame | ⟨w,hturn,-⟩ | ⟨batchSize,now,leaseMillis,owner,skipped,-,hfresh,rfl⟩
  · rw [life_eq hsame]
    exact h
  · exact h.turn hturn
  · have hchain : ∀ x', Relation.ReflTransGen (fun x x' => ∃ id, Life.Turn zones x (.claim id owner) x') s.life x' →
        Shut x' id token := by
      intro x' hx'
      induction hx' with
      | refl => exact h
      | tail _ hturn ih =>
        obtain ⟨_,hturn⟩ := hturn
        exact ih.turn hturn
    exact hchain _ (claim_turns k hfresh batchSize now leaseMillis skipped)

theorem Shut.idle {row : QueueRow} (h : Shut s.life row.id row.leaseOwner) (k : s.Kept) {c : SchedulerCall}
    (hc : SchedulerCall.writer c = some row) (hs : step zones s c = some s') : s'.queue = s.queue ∧ s'.history = s.history := by
  rcases step_cases k hs with hsame | ⟨w,hturn,hcause⟩ | ⟨_,_,_,_,_,rfl,-,-⟩
  · exact ⟨hsame.1,hsame.2.2⟩
  · obtain ⟨hid,hholder⟩ := hcause.writer row hc
    obtain ⟨r,hr,hheld⟩ := hturn.turns.held hholder
    rw [hid] at hr
    exact absurd hheld (h.free r hr)
  · cases hc

theorem disowned_of_queued (k : s.Kept) {r : JobRow} (hrow : s.row id = some r) (hqueued : r.status = .queued) :
    s.Disowned zones id := by
  intro t ht row hmem hid c t' hc hs
  subst hid
  have hshut : Shut s.life row.id row.leaseOwner := by
    constructor
    · exact (k.copied row hmem).claimed
    · intro r' hr' hheld
      obtain rfl := Option.some.inj (hrow.symm.trans hr')
      exact absurd (hqueued.symm.trans hheld.1) (by decide)
  have hboth : t.Kept ∧ Shut t.life row.id row.leaseOwner := by
    apply System.Leads.invariant ht (fun t => t.Kept ∧ Shut t.life row.id row.leaseOwner) ⟨k,hshut⟩
    rintro a l b ⟨ka,ha⟩ - hstep
    exact ⟨step_kept ka hstep,ha.advance ka hstep⟩
  exact hboth.2.idle hboth.1 hc hs

/-- Declaring a schedule again replaces its row just where the columns that `recur` leaves are as the new
declaration has them. -/
theorem recur_replaces_iff (hr : (runs zones).Reachable s) {r : JobRow} (hrow : s.row id = some r) {handlers : Handlers}
    {jobName payload cron : String} {timezone : Option String} {now : ℤ} {correlationId : Option String}
    (hstep : step zones s (.recur handlers id jobName payload cron timezone now correlationId) = some s') :
    ∃ first, nextOccurrence zones cron (timezone.getD "UTC") now = some (some first) ∧
      (s'.Replaced zones id
          (declaredRow handlers id jobName payload cron (timezone.getD "UTC") first correlationId) ↔
        r.jobName = jobName ∧ r.maxAttempts = maxAttemptsFor handlers jobName ∧ r.leaseOwner = none ∧
          r.lastError = none) := by
  have k := step_kept (reachable_kept hr) hstep
  simp only [step] at hstep
  split at hstep
  · rename_i first hnext
    refine ⟨first,hnext,?_⟩
    obtain rfl := Option.some.inj hstep
    have hnew := row_recur (s := s) handlers id jobName payload cron (timezone.getD "UTC") now first correlationId id
    rw [if_pos rfl,hrow] at hnew
    have hkey : r.id = id := (find?_key hrow).2
    constructor
    · intro h
      have heq := Option.some.inj (hnew.symm.trans h.row)
      simp only [declaredRow,JobRow.mk.injEq] at heq
      exact ⟨heq.2.1,heq.2.2.2.2.2.2.2.2.1,heq.2.2.2.2.2.2.2.2.2.2.1,heq.2.2.2.2.2.2.2.2.2.2.2.1⟩
    · rintro ⟨hname,hmax,howner,herror⟩
      refine ⟨?_,disowned_of_queued k hnew rfl⟩
      rw [hnew]
      simp only [declaredRow,hkey,hname,hmax,howner,herror]
  · cases hstep

section Again

def redeclaring (jobName : String) : SchedulerCall :=
  .recur (fun _ => none) "digest" jobName "\x7b\x7d" "* * * * *" none 30000 none

/-- The schedule of one job, then the same key for another. -/
def redeclared (jobName : String) : Option (Scheduler × Scheduler) := do
  let s ← (runs januaryZones).run [.recur (fun _ => none) "digest" "send" "\x7b\x7d" "* * * * *" none 0 none]
  let s' ← step januaryZones s (redeclaring jobName)
  return (s,s')

theorem redeclared_steps {jobName : String} (h : redeclared jobName = some (s,s')) :
    (runs januaryZones).Reachable s ∧ step januaryZones s (redeclaring jobName) = some s' := by
  unfold redeclared at h
  obtain ⟨s₁,hrun,hrest⟩ := Option.bind_eq_some_iff.mp h
  obtain ⟨s₂,hstep,hsame⟩ := Option.bind_eq_some_iff.mp hrest
  obtain ⟨rfl,rfl⟩ := Prod.mk.inj (Option.some.inj hsame)
  exact ⟨System.run_reachable hrun,hstep⟩

theorem recur_replaces_send : ∃ s s' r, (runs januaryZones).Reachable s ∧ s.row "digest" = some r ∧
    step januaryZones s (redeclaring "send") = some s' ∧ ∃ first,
      s'.Replaced januaryZones "digest" (declaredRow (fun _ =>
        none) "digest" "send" "\x7b\x7d" "* * * * *" "UTC" first none) := by
  obtain ⟨⟨s,s'⟩,hpair,hrow⟩ : ∃ p, redeclared "send" = some p ∧ (p.1.row "digest").map (fun r =>
      (r.jobName,r.maxAttempts,r.leaseOwner,r.lastError)) = some ("send",5,none,none) := by
    have hrun : (redeclared "send").map (fun p => (p.1.row "digest").map fun r =>
        (r.jobName,r.maxAttempts,r.leaseOwner,r.lastError)) = some (some ("send",5,none,none)) := by decide +kernel
    exact Option.map_eq_some_iff.mp hrun
  obtain ⟨hreach,hstep⟩ := redeclared_steps hpair
  obtain ⟨r,hr,hfields⟩ := Option.map_eq_some_iff.mp hrow
  simp only [Prod.mk.injEq] at hfields
  obtain ⟨first,-,hiff⟩ := recur_replaces_iff hreach hr hstep
  exact ⟨s,s',r,hreach,hr,hstep,first,hiff.mpr hfields⟩

/-- The row keeps the name of the old job. -/
theorem recur_keeps_name : ¬ ∀ zones s s' r handlers id jobName payload cron timezone now correlationId,
    (runs zones).Reachable s → s.row id = some r →
    step zones s (.recur handlers id jobName payload cron timezone now correlationId) = some s' →
    ∃ first, s'.Replaced zones id
      (declaredRow handlers id jobName payload cron (timezone.getD "UTC") first correlationId) := by
  intro hall
  obtain ⟨⟨s,s'⟩,hpair,hrow⟩ : ∃ p, redeclared "report" = some p ∧ ((p.1.row "digest").isSome = true ∧
      (p.2.row "digest").map JobRow.jobName = some "send") := by
    have hrun : (redeclared "report").map (fun p => ((p.1.row "digest").isSome,(p.2.row "digest").map JobRow.jobName)) =
        some (true,some "send") := by decide +kernel
    obtain ⟨p,hp,hboth⟩ := Option.map_eq_some_iff.mp hrun
    exact ⟨p,hp,Prod.mk.inj hboth⟩
  obtain ⟨hreach,hstep⟩ := redeclared_steps hpair
  obtain ⟨r,hr⟩ := Option.isSome_iff_exists.mp hrow.1
  obtain ⟨first,hreplaced⟩ := hall _ _ _ _ _ _ _ _ _ _ _ _ hreach hr hstep
  have hname := hrow.2
  rw [hreplaced.row] at hname
  have hreport : "report" = "send" := Option.some.inj hname
  exact absurd hreport (by decide)

end Again

end Scheduler

end StructureAi.Jobs

import StructureAi.Jobs.SchedulerFencing

/-! # Recurring schedules

The row of a recurring job is its schedule and its current run. A completed run puts it
back for the next occurrence and a failed attempt for its retry, but the last failed
attempt moves it to the dead letters, and the schedule with it.
-/
namespace StructureAi.Jobs
open StructureAi.Foundation

/-- Cron expression and time zone of an id that was given to a recurring schedule, and not cancelled since. -/
def recurring (id : String) : List Write → Option (String × String)
  | [] => none
  | .recur id' cron timezone _ _ :: ws => if id' = id then some (cron,timezone) else recurring id ws
  | .schedule id' :: ws => if id' = id then none else recurring id ws
  | .cancel id' :: ws => if id' = id then none else recurring id ws
  | _ :: ws => recurring id ws

/-- The run time that a write gives its row. -/
def Write.runAt : Write → Option ℤ
  | .recur _ _ _ _ runAt => some runAt
  | .complete _ _ _ next => next
  | .retry _ _ now backoff => some (now + backoff)
  | .abandon _ _ now => some now
  | _ => none

/-- The latest write that set the run time of a row, and the writes before it. -/
def timedBy (id : String) : List Write → Option (Write × List Write)
  | [] => none
  | w :: ws => if w.id = id ∧ w.runAt.isSome then some (w,ws) else timedBy id ws

/-- The run time of a row after the writes. -/
def runTime (id : String) (ws : List Write) : Option ℤ := (timedBy id ws).bind fun timed => timed.1.runAt

/-- How often a row has been claimed since its current run was scheduled. -/
def attempts (id : String) : List Write → ℕ
  | [] => 0
  | .claim id' _ :: ws => if id' = id then attempts id ws + 1 else attempts id ws
  | .recur id' _ _ _ _ :: ws => if id' = id then 0 else attempts id ws
  | .complete id' _ _ _ :: ws => if id' = id then 0 else attempts id ws
  | _ :: ws => attempts id ws

def AlwaysNext (zones : Zones) (cron timezone : String) : Prop :=
  ∀ after, ∃ next, nextOccurrence zones cron timezone after = some (some next)

/-- The run time that a write sets after the earlier ones: the next occurrence, for a completed run that after its
own run time and the present, or that of a retry, or at once for an abandoned run. -/
inductive Due (zones : Zones) (cron timezone : String) (earlier : List Write) : Write → ℤ → Prop
  | first {id : String} {now runAt : ℤ} (next : nextOccurrence zones cron timezone now = some (some runAt)) :
      Due zones cron timezone earlier (.recur id cron timezone now runAt) runAt
  | next {id token : String} {now scheduled runAt : ℤ} (previous : runTime id earlier = some scheduled)
      (next : nextOccurrence zones cron timezone (max scheduled now) = some (some runAt)) :
      Due zones cron timezone earlier (.complete id token now (some runAt)) runAt
  | retry {id token : String} {now : ℤ} (random : ℚ) :
      Due zones cron timezone earlier
        (.retry id token now (backoffMillis (attempts id earlier) random 1000 300000))
        (now + backoffMillis (attempts id earlier) random 1000 300000)
  | abandoned {id token : String} {now : ℤ} : Due zones cron timezone earlier (.abandon id token now) now

section Rows
variable {zones : Zones} {w : Write} {ws earlier : List Write} {id cron timezone : String} {runAt : ℤ}

/-- The row carries the schedule and is due. -/
structure JobRow.Recurs (zones : Zones) (cron timezone : String) (ws : List Write) (r : JobRow) : Prop where
  expr : r.cronExpr = some cron
  zone : r.cronTimezone = some timezone
  attempt : r.attempt = attempts r.id ws
  due : ∃ w earlier, timedBy r.id ws = some (w,earlier) ∧ Due zones cron timezone earlier w r.runAt

theorem timedBy_cons_of_ne (h : w.id ≠ id) : timedBy id (w :: ws) = timedBy id ws :=
  if_neg fun hw => h hw.1

theorem timedBy_cons_untimed (h : w.runAt = none) : timedBy id (w :: ws) = timedBy id ws := by
  rw [timedBy,if_neg]
  simp [h]

theorem timedBy_cons_self (h : w.runAt = some runAt) : timedBy w.id (w :: ws) = some (w,ws) := by
  rw [timedBy,if_pos]
  simp [h]

theorem attempts_cons_of_ne (h : w.id ≠ id) : attempts id (w :: ws) = attempts id ws := by
  cases w with
  | claim | recur | complete => exact if_neg h
  | _ => rfl

theorem Due.runAt_eq (h : Due zones cron timezone earlier w runAt) : w.runAt = some runAt := by
  cases h <;> rfl

theorem JobRow.Recurs.runTime {r : JobRow} (h : r.Recurs zones cron timezone ws) : runTime r.id ws = some r.runAt := by
  obtain ⟨w,earlier,htimed,hdue⟩ := h.due
  rw [Jobs.runTime,htimed,Option.bind_some]
  exact hdue.runAt_eq

theorem recurring_cons_of_ne (h : w.id ≠ id) : recurring id (w :: ws) = recurring id ws := by
  cases w with
  | schedule | recur | cancel => exact if_neg h
  | _ => rfl

end Rows

namespace Life
variable {zones : Zones} {x x' : Life} {w : Write}

/-- Every uncancelled recurring schedule has its row. -/
def Recurs (zones : Zones) (x : Life) : Prop := ∀ id cron timezone, recurring id x.history = some (cron,timezone) →
  AlwaysNext zones cron timezone → ∃ r, x.rows id = some r ∧ r.Recurs zones cron timezone x.history

theorem Turn.recurs (h : x.Turn zones w x') (hx : x.Recurs zones) (hkey : ∀ id r, x.rows id = some r → r.id = id)
    (hspare : w.letter ≠ none → ∀ r, x.rows w.id = some r → r.cronExpr = none) : x'.Recurs zones := by
  intro id cron timezone hrec halways
  rw [h.history] at hrec
  rw [h.history]
  by_cases hid : id = w.id
  · subst hid
    have hturns := h.turns
    -- the schedule is from before, unless the write is its `recur`
    generalize hb : x.rows w.id = before at hturns
    generalize ha : x'.rows w.id = after at hturns
    have hold : recurring w.id (w :: x.history) = recurring w.id x.history → ∀ r, before = some r →
        r.Recurs zones cron timezone x.history := by
      intro hsame r hr
      rw [hsame] at hrec
      obtain ⟨r',hr',hrecurs⟩ := hx w.id cron timezone hrec halways
      rw [hb,hr] at hr'
      rw [Option.some.inj hr']
      exact hrecurs
    cases hturns with
    | schedule r | cancel r =>
      simp [recurring,Write.id] at hrec
    | recur before r queued expr zone fresh next =>
      obtain ⟨rfl,rfl⟩ : _ ∧ _ := by simpa [recurring,Write.id] using hrec
      exact ⟨r,rfl,expr,zone,fresh.trans (if_pos rfl).symm,_,_,timedBy_cons_self rfl,.first next⟩
    | claim r leaseUntil =>
      obtain ⟨hexpr,hzone,hattempt,w',earlier,hw',hdue⟩ := hold rfl r rfl
      refine ⟨_,rfl,hexpr,hzone,?_,w',earlier,(timedBy_cons_untimed rfl).trans hw',hdue⟩
      rw [attempts]
      exact (congrArg (· + 1) hattempt).trans (if_pos rfl).symm
    | heartbeat r held leaseUntil =>
      obtain ⟨hexpr,hzone,hattempt,w',earlier,hw',hdue⟩ := hold rfl r rfl
      exact ⟨_,rfl,hexpr,hzone,hattempt,w',earlier,(timedBy_cons_untimed rfl).trans hw',hdue⟩
    | completeLast r held next =>
      obtain ⟨hexpr,hzone,-⟩ := hold rfl r rfl
      simp only [completion,JobRow.returned,hexpr,hzone,Option.getD_some] at next
      obtain ⟨runAt,hnext⟩ := halways (max r.runAt _)
      rw [hnext] at next
      cases next
    | complete r held next =>
      have hrecurs := hold rfl r rfl
      simp only [completion,JobRow.returned,hrecurs.expr,hrecurs.zone,Option.getD_some] at next
      exact ⟨_,rfl,hrecurs.expr,hrecurs.zone,(if_pos rfl).symm,_,_,timedBy_cons_self rfl,.next hrecurs.runTime next⟩
    | retry r held random lastError =>
      obtain ⟨hexpr,hzone,hattempt,-⟩ := hold rfl r rfl
      refine ⟨_,rfl,hexpr,hzone,hattempt,_,_,timedBy_cons_self rfl,?_⟩
      rw [hattempt]
      exact .retry random
    | deadLetter r held letter =>
      obtain ⟨hexpr,-⟩ := hold rfl r rfl
      have hnone := hspare (Option.some_ne_none letter) r hb
      rw [hexpr] at hnone
      cases hnone
    | abandon r held =>
      obtain ⟨hexpr,hzone,hattempt,-⟩ := hold rfl r rfl
      exact ⟨_,rfl,hexpr,hzone,hattempt,_,_,timedBy_cons_self rfl,.abandoned⟩
  · rw [recurring_cons_of_ne (Ne.symm hid)] at hrec
    obtain ⟨r,hr,hexpr,hzone,hattempt,w',earlier,hw',hdue⟩ := hx id cron timezone hrec halways
    have hkept := hkey id r hr
    refine ⟨r,?_,hexpr,hzone,?_,w',earlier,?_,hdue⟩
    · rw [h.frame id hid]
      exact hr
    · rw [hkept] at hattempt ⊢
      rw [attempts_cons_of_ne (Ne.symm hid)]
      exact hattempt
    · rw [hkept] at hw' ⊢
      rw [timedBy_cons_of_ne (Ne.symm hid)]
      exact hw'

end Life

namespace Scheduler
variable {zones : Zones} {s : Scheduler}

/-- Every uncancelled recurring schedule whose expression always has a next occurrence has its row, due at
its next occurrence or retry. -/
def SchedulesSurvive (zones : Zones) (s : Scheduler) : Prop := ∀ id cron timezone,
  recurring id s.history = some (cron,timezone) → AlwaysNext zones cron timezone →
    ∃ r ∈ s.queue, r.id = id ∧ r.Recurs zones cron timezone s.history

/-- No dead-lettering of a recurring job by the worker that holds it. -/
def SparesRecurring (s : Scheduler) (c : SchedulerCall) : Prop :=
  ∀ row, c.buries = some row → ∀ r ∈ s.queue, held row r = true → r.cronExpr = none

theorem step_recurs (k : s.Kept) {c : SchedulerCall} {s' : Scheduler} (h : step zones s c = some s')
    (hc : s.SparesRecurring c) (hs : s.life.Recurs zones) : s'.life.Recurs zones := by
  rcases step_cases k h with hsame | ⟨w,hturn,hcause⟩ | ⟨batchSize,now,leaseMillis,owner,skipped,-,hfresh,rfl⟩
  · rw [life_eq hsame]
    exact hs
  · apply hturn.recurs hs k.told.key
    intro hletter r hr
    have hsome : c.buries.isSome = true := by
      rw [← hcause.buries]
      exact Option.isSome_iff_ne_none.mpr hletter
    obtain ⟨row,hrow⟩ := Option.isSome_iff_exists.mp hsome
    obtain ⟨hid,hholder⟩ := hcause.writer row (writer_of_buries hrow)
    obtain ⟨r',hr',hheld⟩ := hturn.turns.held hholder
    obtain rfl := Option.some.inj (hr.symm.trans hr')
    obtain ⟨hmem,hkey⟩ := find?_key hr
    exact hc row hrow r hmem (decide_eq_true ⟨hkey.trans hid,hheld⟩)
  · have hchain : ∀ x', Relation.ReflTransGen (fun x x' => ∃ id, Life.Turn zones x (.claim id owner) x') s.life x' →
        x'.Told ∧ x'.Recurs zones := by
      intro x' hx'
      induction hx' with
      | refl => exact ⟨k.told,hs⟩
      | tail _ hturn ih =>
        obtain ⟨id,hturn⟩ := hturn
        refine ⟨hturn.told ih.1,hturn.recurs ih.2 ih.1.key ?_⟩
        exact fun hletter => absurd rfl hletter
    exact (hchain _ (claim_turns k hfresh batchSize now leaseMillis skipped)).2

/-- In the runs that dead-letter no recurring job, the schedules survive. -/
theorem schedules_survive (hr : (runs zones).Reaches SparesRecurring s) : s.SchedulesSurvive zones := by
  have hboth : s.Kept ∧ s.life.Recurs zones := by
    apply System.Reaches.invariant hr fun s => s.Kept ∧ s.life.Recurs zones
    · constructor
      · have hinit : (runs zones).Reachable (runs zones).init := Relation.ReflTransGen.refl
        exact reachable_kept hinit
      · intro id cron timezone hrec
        cases hrec
    · rintro a c b ⟨k,ha⟩ hc h
      exact ⟨step_kept k h,step_recurs k h hc ha⟩
  intro id cron timezone hrec halways
  obtain ⟨r,hr,hrecurs⟩ := hboth.2 id cron timezone hrec halways
  obtain ⟨hmem,hid⟩ := find?_key hr
  exact ⟨r,hmem,hid,hrecurs⟩

section January

def januaryClock (t : ℤ) : WallClock where
  year := 1970
  month := 1
  day := (t / 86400000).toNat + 1
  hour := (t / 3600000).toNat % 24
  minute := (t / 60000).toNat % 60
  weekday := ((t / 86400000).toNat + 4) % 7

def januaryZones : Zones := fun timezone => if timezone = "UTC" then some januaryClock else none

theorem dateUTC_january (day hour minute : ℕ) :
    dateUTC 1970 1 (day + 1) hour minute = (((day : ℤ) * 24 + hour) * 60 + minute) * 60000 := by
  simp only [dateUTC,daysFromCivil]
  norm_num
  ring

theorem instant_january (day : ℕ) : instantFromWallClock januaryClock 1970 1 (day + 1) 0 0 = day * 86400000 := by
  have hguess : dateUTC 1970 1 (day + 1) 0 0 = day * 86400000 := by
    rw [dateUTC_january]
    push_cast
    ring
  have hday : ((day : ℤ) * 86400000 / 86400000).toNat = day := by omega
  have hhour : ((day : ℤ) * 86400000 / 3600000).toNat % 24 = 0 := by omega
  have hminute : ((day : ℤ) * 86400000 / 60000).toNat % 60 = 0 := by omega
  simp only [instantFromWallClock,hguess,januaryClock,hday,hhour,hminute]
  ring

theorem alwaysNext_everyMinute : AlwaysNext januaryZones "* * * * *" "UTC" := by
  intro after
  have hfields : parseCron "* * * * *" = .ok ⟨List.range 60,List.range 24,(List.range 31).map (· + 1),
      (List.range 12).map (· + 1),List.range 7,false,false⟩ := by decide +kernel
  have hzone : januaryZones "UTC" = some januaryClock := if_pos rfl
  simp only [nextOccurrence,hfields,hzone,Option.some.injEq]
  rw [← Option.isSome_iff_exists,nextRun,List.findSome?_isSome_iff]
  refine ⟨1,by decide,?_⟩
  have hmatch : ∀ day : ℕ, dayMatches (januaryClock (day * 86400000)) ⟨List.range 60,List.range 24,
      (List.range 31).map (· + 1),(List.range 12).map (· + 1),List.range 7,false,false⟩ = true := fun _ => rfl
  have hbase : instantFromWallClock januaryClock (januaryClock after).year (januaryClock after).month
      (januaryClock after).day 0 0 = (after / 86400000).toNat * 86400000 := instant_january _
  have hnext : ((after / 86400000).toNat : ℤ) * 86400000 + 1 * 86400000 =
      (((after / 86400000).toNat + 1 : ℕ) : ℤ) * 86400000 := by
    push_cast
    ring
  rw [hbase,hnext,if_pos (hmatch _),nextOnDay,List.find?_isSome]
  refine ⟨(((after / 86400000).toNat + 1 : ℕ) : ℤ) * 86400000,?_,?_⟩
  · have hday : ((((after / 86400000).toNat + 1 : ℕ) : ℤ) * 86400000 / 86400000).toNat =
        (after / 86400000).toNat + 1 := by omega
    apply List.mem_flatMap.mpr
    refine ⟨0,by decide,List.mem_map.mpr ⟨0,by decide,?_⟩⟩
    simp only [januaryClock,hday]
    exact instant_january _
  · apply decide_eq_true
    omega

def sendHandlers : Handlers := fun _ => some ⟨fun _ => .ok (),none⟩

def everyMinuteRun (exit : HandlerExit) : List SchedulerCall :=
  [.recur sendHandlers "digest" "send" "{}" "* * * * *" none 0 none,
    .claim 10 60000 60000 "worker" [],
    .settle sendHandlers ⟨"digest","send","{}",1,5,some "* * * * *",some "UTC",none,60000,"worker"⟩ exit 60001 0
      "letter" true]

/-- The first attempt fails and the second succeeds. -/
def retriedRun : List SchedulerCall :=
  everyMinuteRun (.failure ⟨"down",.transient⟩) ++
    [.claim 10 61000 60000 "second" [],
      .settle sendHandlers ⟨"digest","send","{}",2,5,some "* * * * *",some "UTC",none,60501,"second"⟩ .success 61001 0
        "letter" true]

theorem not_schedulesSurvive : ¬ ∀ zones s, (runs zones).Reachable s → s.SchedulesSurvive zones := by
  intro hall
  obtain ⟨s,hs,hrec,hqueue⟩ : ∃ s, (runs januaryZones).run (everyMinuteRun (.failure ⟨"gone",.permanent⟩)) = some s ∧
      recurring "digest" s.history = some ("* * * * *","UTC") ∧ s.queue = [] := by
    have hrun : (((runs januaryZones).run (everyMinuteRun (.failure ⟨"gone",.permanent⟩))).map fun s =>
        (recurring "digest" s.history,s.queue)) = some (some ("* * * * *","UTC"),[]) := by decide +kernel
    obtain ⟨s,hs,hpair⟩ := Option.map_eq_some_iff.mp hrun
    exact ⟨s,hs,(Prod.mk.inj hpair).1,(Prod.mk.inj hpair).2⟩
  obtain ⟨r,hr,-⟩ := hall januaryZones s (System.run_reachable hs) "digest" _ _ hrec alwaysNext_everyMinute
  rw [hqueue] at hr
  cases hr

theorem schedules_survive_success : ∃ s, (runs januaryZones).run retriedRun = some s ∧
    s.SchedulesSurvive januaryZones ∧ s.queue.map JobRow.runAt = [120000] ∧
    runTime "digest" (s.history.drop 2) = some 60501 := by
  have hrun : (((runs januaryZones).run retriedRun).map fun s =>
      (s.queue.map JobRow.runAt,runTime "digest" (s.history.drop 2))) = some ([120000],some 60501) := by decide +kernel
  obtain ⟨s,hs,hends⟩ := Option.map_eq_some_iff.mp hrun
  have hreach : (runs januaryZones).Reaches SparesRecurring s := by
    apply System.run_reaches _ hs
    intro c hc t row hrow
    simp only [retriedRun,everyMinuteRun,List.mem_append,List.mem_cons,List.not_mem_nil,or_false] at hc
    rcases hc with (rfl | rfl | rfl) | rfl | rfl
    all_goals cases hrow
  exact ⟨s,hs,schedules_survive hreach,(Prod.mk.inj hends).1,(Prod.mk.inj hends).2⟩

end January

end Scheduler

end StructureAi.Jobs

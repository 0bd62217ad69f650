import StructureAi.Jobs.CronFields
import StructureAi.Jobs.Scheduler
import StructureAi.Jobs.UtcSchedule

/-! # Schedules that fire rarely

The search of `nextRun` covers a little more than a year. Every date but 29 February that an
expression can ask for comes back within it.
-/
namespace StructureAi.Jobs
open StructureAi.Foundation

/-- The sets of a parsed expression: none is empty, and each is within its range. -/
structure CronFields.Ranged (fields : CronFields) : Prop where
  clocked : fields.Clocked
  minutes_nonempty : fields.minutes ≠ []
  hours_nonempty : fields.hours ≠ []
  months_nonempty : fields.months ≠ []
  months_range : ∀ month ∈ fields.months, 1 ≤ month ∧ month ≤ 12
  daysOfWeek_nonempty : fields.daysOfWeek ≠ []
  daysOfWeek_range : ∀ weekday ∈ fields.daysOfWeek, weekday < 7

section Parsed
variable {range : FieldRange} {field part : List Char} {values : List ℕ}

theorem parsePart_range (h : parsePart range part = .ok values) :
    values ≠ [] ∧ ∀ value ∈ values, range.min ≤ value ∧ value ≤ range.max := by
  unfold parsePart at h
  split at h
  · cases h
  · split at h
    · cases h
    · cases h
    · rename_i step hzero _
      split at h
      · rename_i first last _
        split at h
        · cases h
        · rename_i hbounds
          have hstep : 1 ≤ step := Nat.one_le_iff_ne_zero.mpr fun hstep => hzero (hstep ▸ rfl)
          have hmem := fun value => @mem_progression step last hstep value (last + 1) first (by omega)
          cases h
          constructor
          · exact List.ne_nil_of_mem ((hmem first).mpr ⟨0,by omega,by omega⟩)
          · intro value hvalue
            obtain ⟨k,rfl,hle⟩ := (hmem value).mp hvalue
            exact ⟨by omega,by omega⟩
      · cases h

theorem parseField_values (h : parseField range field = .ok values) : values.Pairwise (· < ·) ∧
    (∃ part ∈ field.splitOn ',', ∃ vs, parsePart range part = .ok vs ∧ ∀ value ∈ vs, value ∈ values) ∧
    ∀ value ∈ values, ∃ part ∈ field.splitOn ',', ∃ vs, parsePart range part = .ok vs ∧ value ∈ vs := by
  have hparts : ∀ part ∈ field.splitOn ',', ∃ vs, parsePart range part = .ok vs := by
    intro part hpart
    cases hparse : parsePart range part with
    | ok vs => exact ⟨vs,rfl⟩
    | error problem =>
      obtain ⟨problem',hproblem⟩ := mapM_error hpart hparse
      rw [parseField,hproblem] at h
      cases h
  obtain ⟨parsed,hparsed,hmem⟩ := mapM_ok hparts
  rw [parseField,hparsed] at h
  have hvalues : parsed.flatten.dedup.insertionSort (· ≤ ·) = values := Except.ok.inj h
  have hin : ∀ value, value ∈ values ↔ ∃ vs ∈ parsed, value ∈ vs := by
    intro value
    rw [← hvalues,List.mem_insertionSort,List.mem_dedup,List.mem_flatten]
  refine ⟨?_,?_,?_⟩
  · have hsorted : values.Pairwise (· ≤ ·) := by
      rw [← hvalues]
      exact List.pairwise_insertionSort _ _
    have hnodup : values.Nodup := by
      rw [← hvalues,(List.perm_insertionSort _ _).nodup_iff]
      exact List.nodup_dedup _
    exact (hsorted.and hnodup).imp fun hle => lt_of_le_of_ne hle.1 hle.2
  · obtain ⟨part,later,hsplit⟩ := List.exists_cons_of_ne_nil (List.splitOn_ne_nil ',' field)
    have hpart : part ∈ field.splitOn ',' := by
      rw [hsplit]
      exact List.mem_cons_self
    obtain ⟨vs,hvs⟩ := hparts part hpart
    exact ⟨part,hpart,vs,hvs,fun value hvalue => (hin value).mpr ⟨vs,(hmem vs).mpr ⟨part,hpart,hvs⟩,hvalue⟩⟩
  · intro value hvalue
    obtain ⟨vs,hvs,hvalue⟩ := (hin value).mp hvalue
    obtain ⟨part,hpart,hparse⟩ := (hmem vs).mp hvs
    exact ⟨part,hpart,vs,hparse,hvalue⟩

theorem parseField_range (h : parseField range field = .ok values) : values ≠ [] ∧ values.Pairwise (· < ·) ∧
    ∀ value ∈ values, range.min ≤ value ∧ value ≤ range.max := by
  obtain ⟨hsorted,⟨part,_,vs,hparse,hsub⟩,hall⟩ := parseField_values h
  refine ⟨?_,hsorted,?_⟩
  · obtain ⟨value,hvalue⟩ := List.exists_mem_of_ne_nil vs (parsePart_range hparse).1
    exact List.ne_nil_of_mem (hsub value hvalue)
  · intro value hvalue
    obtain ⟨part,_,vs,hparse,hvalue⟩ := hall value hvalue
    exact (parsePart_range hparse).2 value hvalue

theorem parseCron_ranged {expression : String} {fields : CronFields} (h : parseCron expression = .ok fields) :
    fields.Ranged := by
  unfold parseCron at h
  split at h
  · split at h
    · rename_i hminutes hhours _ hmonths hdaysOfWeek
      cases h
      have hminute := parseField_range hminutes
      have hhour := parseField_range hhours
      have hmonth := parseField_range hmonths
      have hdayOfWeek := parseField_range hdaysOfWeek
      exact
        { clocked :=
            { hours_sorted := hhour.2.1
              hours_range := fun hour hin => Nat.lt_succ_of_le (hhour.2.2 hour hin).2
              minutes_sorted := hminute.2.1
              minutes_range := fun minute hin => Nat.lt_succ_of_le (hminute.2.2 minute hin).2 }
          minutes_nonempty := hminute.1
          hours_nonempty := hhour.1
          months_nonempty := hmonth.1
          months_range := hmonth.2.2
          daysOfWeek_nonempty := hdayOfWeek.1
          daysOfWeek_range := fun weekday hin => Nat.lt_succ_of_le (hdayOfWeek.2.2 weekday hin).2 }
    · cases h
  · cases h

end Parsed

/-- The one date the fields ask for is 29 February. -/
structure CronFields.OnlyLeapDay (fields : CronFields) : Prop where
  byDay : fields.domRestricted = true ∧ fields.dowRestricted = false
  asked : 2 ∈ fields.months ∧ 29 ∈ fields.daysOfMonth
  only : ∀ date : CivilDate, date.month ∈ fields.months → date.day ∈ fields.daysOfMonth → date.month = 2 ∧ date.day = 29

/-- A 29 February with a time left is among the days that are searched. -/
def CronFields.LeapDaySearched (fields : CronFields) (after : ℤ) : Prop :=
  ∃ dayOffset ≤ searchLimitDays, (CivilDate.ofDays (searchStart after + dayOffset)).month = 2 ∧
    (CivilDate.ofDays (searchStart after + dayOffset)).day = 29 ∧ ∃ s ∈ fields.times (searchStart after + dayOffset), after < s

/-- No occurrence is answered only where there is none at all. -/
def CronFields.Complete (fields : CronFields) (next : Option ℤ) : Prop :=
  next = none → ∀ t, ¬ fields.Satisfied (utcClock t)

section Search
variable {fields : CronFields} {after days : ℤ}

/-- The days of the search after its first one lie after `after`. -/
theorem after_lt_searchStart (after : ℤ) : after < timeOfDay (searchStart after + 1) 0 0 := by
  have hstart := centuryStart_le_searchStart after
  have hlate : after / 86400000 ≤ searchStart after := by
    by_cases hcentury : centuryStart ≤ after / 86400000
    · exact (searchStart_eq hcentury).ge
    · omega
  unfold timeOfDay
  omega

theorem CronFields.Ranged.exists_time (h : fields.Ranged) (days : ℤ) :
    ∃ hour < 24, ∃ minute < 60, hour ∈ fields.hours ∧ minute ∈ fields.minutes ∧
      timeOfDay days hour minute ∈ fields.times days := by
  obtain ⟨hour,hhour⟩ := List.exists_mem_of_ne_nil _ h.hours_nonempty
  obtain ⟨minute,hminute⟩ := List.exists_mem_of_ne_nil _ h.minutes_nonempty
  exact ⟨hour,h.clocked.hours_range hour hhour,minute,h.clocked.minutes_range minute hminute,hhour,hminute,
    CronFields.mem_times.mpr ⟨hour,hhour,minute,hminute,rfl⟩⟩

theorem CronFields.Ranged.nextRun_ne_none (h : fields.Ranged) {dayOffset : ℕ} (hone : 1 ≤ dayOffset)
    (hlimit : dayOffset ≤ searchLimitDays)
    (hmatch : dayMatches (clockOfDay (searchStart after + dayOffset) 0 0) fields = true) :
      nextRun utcClock after fields ≠ none := by
  intro hnone
  obtain ⟨hour,_,minute,_,_,_,htime⟩ := h.exists_time (searchStart after + dayOffset)
  have hpassed := (nextRun_none h.clocked).mp hnone dayOffset hlimit hmatch _ htime
  have hlater := after_lt_searchStart after
  unfold timeOfDay at hpassed hlater
  omega

theorem day_every_year (date : CivilDate) (h : ¬ (date.month = 2 ∧ date.day = 29)) (year : ℤ) :
    1 ≤ date.day ∧ date.day ≤ daysInMonth year date.month := by
  have hlast := date.day_le
  have hrange := date.day_range
  refine ⟨hrange.1,?_⟩
  have hlow := daysInMonth_ge year date.month
  unfold daysInMonth at hrange hlow ⊢
  split_ifs at hrange hlow ⊢ <;> omega

/-- Fields that match some day, but not on 29 February alone, match one in the year after any day. -/
theorem CronFields.Ranged.exists_match (h : fields.Ranged) (honly : ¬ fields.OnlyLeapDay) {some : ℤ}
    (hsome : dayMatches (clockOfDay some 0 0) fields = true) (days : ℤ) :
    ∃ k : ℕ, 1 ≤ k ∧ k ≤ 372 ∧ dayMatches (clockOfDay (days + k) 0 0) fields = true := by
  simp only [dayMatches_iff] at hsome ⊢
  cases hdow : fields.dowRestricted with
  | true =>
    obtain ⟨month,hmonth⟩ := List.exists_mem_of_ne_nil _ h.months_nonempty
    obtain ⟨weekday,hweekday⟩ := List.exists_mem_of_ne_nil _ h.daysOfWeek_nonempty
    obtain ⟨k,hone,hlimit,hm,hw⟩ := CivilDate.exists_weekday_after days (h.months_range month hmonth) 4
      (h.daysOfWeek_range weekday hweekday)
    have hshown : (clockOfDay (days + k) 0 0).weekday = weekday := by
      change ((days + k + 4) % 7).toNat = weekday
      rw [hw,Int.toNat_natCast]
    have hin : (clockOfDay (days + k) 0 0).month ∈ fields.months := by
      change (CivilDate.ofDays (days + k)).month ∈ fields.months
      rwa [hm]
    rw [← hshown] at hweekday
    exact ⟨k,hone,hlimit,hin,fun _ _ => Or.inr hweekday,fun _ hfalse => absurd hfalse (by decide),fun _ _ => hweekday⟩
  | false =>
    have hdate : ∃ date : CivilDate, date.month ∈ fields.months ∧ ¬ (date.month = 2 ∧ date.day = 29) ∧
        (fields.domRestricted = true → date.day ∈ fields.daysOfMonth) := by
      cases hdom : fields.domRestricted with
      | true =>
        by_contra hnone
        have hall : ∀ date : CivilDate, date.month ∈ fields.months → date.day ∈ fields.daysOfMonth →
            date.month = 2 ∧ date.day = 29 := by
          intro date hm hd
          by_contra hother
          exact hnone ⟨date,hm,hother,fun _ => hd⟩
        have hday := hsome.2.2.1 hdom hdow
        obtain ⟨hm,hd⟩ := hall (CivilDate.ofDays some) hsome.1 hday
        exact honly ⟨⟨hdom,hdow⟩,⟨hm ▸ hsome.1,hd ▸ hday⟩,hall⟩
      | false =>
        obtain ⟨month,hmonth⟩ := List.exists_mem_of_ne_nil _ h.months_nonempty
        have hlow := daysInMonth_ge 2000 month
        exact ⟨⟨2000,month,1,h.months_range month hmonth,le_rfl,by omega⟩,hmonth,fun hleap =>
          absurd hleap.2 (by decide : 1 ≠ 29),
          fun hfalse => absurd hfalse (by decide)⟩
    obtain ⟨date,hm,hother,hd⟩ := hdate
    obtain ⟨k,hone,hlimit,found,hfound,hfm,hfd⟩ := CivilDate.exists_date_after days _ date.month_range
      (day_every_year date hother)
    have hclock : (clockOfDay (days + k) 0 0).month = date.month ∧ (clockOfDay (days + k) 0 0).day = date.day := by
      change (CivilDate.ofDays (days + k)).month = _ ∧ (CivilDate.ofDays (days + k)).day = _
      rw [hfound]
      exact ⟨hfm,hfd⟩
    rw [← hclock.1] at hm
    rw [← hclock.2] at hd
    exact ⟨k,hone,by omega,hm,fun _ hfalse => absurd hfalse (by decide),fun hdom _ => hd hdom,fun _ hfalse =>
      absurd hfalse (by decide)⟩

theorem CronFields.Satisfied.day_matches {t : ℤ} (h : fields.Satisfied (utcClock t)) :
    dayMatches (clockOfDay (t / 60000 / 1440) 0 0) fields = true :=
  (CronFields.satisfied_iff.mp h).1

/-- The search answers no occurrence wrongly just where 29 February is all that is asked for and not reached. -/
theorem complete_iff (h : fields.Ranged) (after : ℤ) :
    fields.Complete (nextRun utcClock after fields) ↔ (fields.OnlyLeapDay → fields.LeapDaySearched after) := by
  constructor
  · intro hcomplete hleap
    by_contra hsearched
    have hnone : nextRun utcClock after fields = none := by
      rw [nextRun_none h.clocked]
      intro dayOffset hlimit hmatch s hs
      by_contra hlater
      rw [dayMatches_iff] at hmatch
      obtain ⟨hm,hd⟩ := hleap.only _ hmatch.1 (hmatch.2.2.1 hleap.byDay.1 hleap.byDay.2)
      exact hsearched ⟨dayOffset,hlimit,hm,hd,s,hs,not_le.mp hlater⟩
    -- 29 February 2000
    obtain ⟨hour,hhour24,minute,hminute60,hhour,hminute,_⟩ := h.exists_time 11016
    refine hcomplete hnone (timeOfDay 11016 hour minute) ((satisfied_timeOfDay (by decide) hhour24 hminute60).mpr ⟨?_,hhour,
      hminute⟩)
    rw [dayMatches_iff]
    exact ⟨hleap.asked.1,fun _ _ => Or.inl hleap.asked.2,fun _ _ => hleap.asked.2,
      fun hfalse => absurd hleap.byDay.1 (by rw [hfalse]; decide)⟩
  · intro hleap hnone t ht
    by_cases honly : fields.OnlyLeapDay
    · obtain ⟨dayOffset,hlimit,hm,hd,s,hs,hlater⟩ := hleap honly
      have hmatch : dayMatches (clockOfDay (searchStart after + dayOffset) 0 0) fields = true := by
        have hmonth : (clockOfDay (searchStart after + dayOffset) 0 0).month = 2 := hm
        have hday : (clockOfDay (searchStart after + dayOffset) 0 0).day = 29 := hd
        rw [dayMatches_iff,hmonth,hday]
        exact ⟨honly.asked.1,fun _ _ => Or.inl honly.asked.2,fun _ _ => honly.asked.2,
          fun hfalse => absurd honly.byDay.1 (by rw [hfalse]; decide)⟩
      exact absurd ((nextRun_none h.clocked).mp hnone dayOffset hlimit hmatch s hs) (not_le.mpr hlater)
    · obtain ⟨k,hone,hlimit,hmatch⟩ := h.exists_match honly ht.day_matches (searchStart after)
      exact h.nextRun_ne_none hone (hlimit.trans (by decide)) hmatch hnone

end Search

/-- A parsed expression that occurs at all has a next occurrence, is accepted by `recur` and keeps its row after a
success, unless 29 February is its one date and not within the days searched. -/
theorem schedules_complete_iff {expression : String} {fields : CronFields} (hparse : parseCron expression = .ok fields) :
    (∀ after, fields.Complete (nextRun utcClock after fields) ↔ (fields.OnlyLeapDay → fields.LeapDaySearched after)) ∧
    ∀ (zones : Zones) (timezone : Option String), zones (timezone.getD "UTC") = some utcClock →
      (∀ (s : Scheduler) handlers id jobName payload now correlationId,
        ((s.step zones (.recur handlers id jobName payload expression timezone now correlationId) = none →
          ∀ t, ¬ fields.Satisfied (utcClock t)) ↔ (fields.OnlyLeapDay → fields.LeapDaySearched now))) ∧
      ∀ (row : QueueRow) now, row.cronExpr = some expression → row.cronTimezone = timezone →
        ((completion zones row now = some none → ∀ t, ¬ fields.Satisfied (utcClock t)) ↔
          (fields.OnlyLeapDay → fields.LeapDaySearched (max row.runAt now))) := by
  have hranged := parseCron_ranged hparse
  refine ⟨complete_iff hranged,?_⟩
  intro zones timezone hzone
  have hnext : ∀ after, nextOccurrence zones expression (timezone.getD "UTC") after = some (nextRun utcClock after fields) := by
    intro after
    simp only [nextOccurrence,hparse,hzone]
  constructor
  · intro s handlers id jobName payload now correlationId
    rw [← complete_iff hranged]
    have hrefused : s.step zones (.recur handlers id jobName payload expression timezone now correlationId) = none ↔
        nextRun utcClock now fields = none := by
      rw [Scheduler.step,hnext]
      cases nextRun utcClock now fields with
      | none => exact iff_of_true rfl rfl
      | some first => exact iff_of_false (Option.some_ne_none _) (Option.some_ne_none _)
    exact imp_congr_left hrefused
  · intro row now hcron htimezone
    rw [← complete_iff hranged]
    have hdeleted : completion zones row now = some none ↔ nextRun utcClock (max row.runAt now) fields = none := by
      simp only [completion,hcron,htimezone,hnext,Option.some.injEq]
    exact imp_congr_left hdeleted

theorem leapDay_parsed : parseCron "30 9 29 2 *" = .ok leapDayFields := by decide +kernel

theorem schedules_complete_weekdays : ∃ fields, parseCron "0 8 * * 1-5" = .ok fields ∧
    (fields.Complete (nextRun utcClock 1709251200000 fields) ↔
      (fields.OnlyLeapDay → fields.LeapDaySearched 1709251200000)) := by
  obtain ⟨fields,hfields⟩ : ∃ fields, parseCron "0 8 * * 1-5" = .ok fields :=
    ⟨⟨[0],[8],(List.range 31).map (· + 1),(List.range 12).map (· + 1),[1,2,3,4,5],false,true⟩,by decide +kernel⟩
  exact ⟨fields,hfields,(schedules_complete_iff hfields).1 1709251200000⟩

/-- From 1 March 2024 on, 29 February seems never to come. -/
theorem leapDay_incomplete : ¬ ∀ expression fields, parseCron expression = .ok fields → ∀ after,
    nextRun utcClock after fields = none → ∀ t, ¬ fields.Satisfied (utcClock t) := by
  intro h
  have hnone : nextRun utcClock 1709251200000 leapDayFields = none := by decide +kernel
  have hmatch : dayMatches (clockOfDay 19782 0 0) leapDayFields = true := by decide +kernel
  have hsatisfied : leapDayFields.Satisfied (utcClock (timeOfDay 19782 9 30)) :=
    (satisfied_timeOfDay (by decide) (by decide) (by decide)).mpr ⟨hmatch,by decide,by decide⟩
  exact h _ _ leapDay_parsed 1709251200000 hnone _ hsatisfied

end StructureAi.Jobs

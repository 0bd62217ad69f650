import StructureAi.Foundation.Calendar
import StructureAi.Jobs.Cron

/-! # Schedules in UTC

The clock of UTC is the calendar. There a wall-clock time and its instant determine each other,
and `nextRun` finds the first matching minute.
-/
namespace StructureAi.Jobs
open StructureAi.Foundation

theorem daysFromCivil_eq (year : ℤ) (month day : ℕ) : daysFromCivil year month day = dayNumber year month day := by
  unfold daysFromCivil dayNumber daysToMarch daysSinceMarch marchYear marchMonth
  dsimp only
  by_cases hearly : month ≤ 2
  · simp only [if_pos hearly,if_neg (not_lt.mpr hearly)]
    push_cast
    omega
  · simp only [if_neg hearly,if_pos (not_le.mp hearly)]
    push_cast [Nat.cast_sub (show 3 ≤ month by omega)]
    omega

/-- The clock of UTC. A year before the first is shown without its era. -/
def utcClock (instant : ℤ) : WallClock :=
  let minutes := instant / 60000
  let date := CivilDate.ofDays (minutes / 1440)
  { year := if 0 < date.year then date.year else 1 - date.year
    month := date.month
    day := date.day
    hour := (minutes % 1440 / 60).toNat
    minute := (minutes % 60).toNat
    weekday := ((minutes / 1440 + 4) % 7).toNat }

def clockOfDay (days : ℤ) (hour minute : ℕ) : WallClock :=
  let date := CivilDate.ofDays days
  ⟨date.year,date.month,date.day,hour,minute,((days + 4) % 7).toNat⟩

def timeOfDay (days : ℤ) (hour minute : ℕ) : ℤ := ((days * 24 + hour) * 60 + minute) * 60000

/-- The first day of the year 100, from which on no year has two digits. -/
def centuryStart : ℤ := -683003

/-- A clock shows a time that the fields ask for. -/
structure CronFields.Satisfied (fields : CronFields) (clock : WallClock) : Prop where
  minute : clock.minute ∈ fields.minutes
  hour : clock.hour ∈ fields.hours
  month : clock.month ∈ fields.months
  either : fields.domRestricted = true → fields.dowRestricted = true →
    clock.day ∈ fields.daysOfMonth ∨ clock.weekday ∈ fields.daysOfWeek
  day : fields.domRestricted = true → fields.dowRestricted = false → clock.day ∈ fields.daysOfMonth
  weekday : fields.domRestricted = false → fields.dowRestricted = true → clock.weekday ∈ fields.daysOfWeek

section Clock
variable {days : ℤ} {hour minute : ℕ}

theorem year_of_centuryStart (h : centuryStart ≤ days) : 100 ≤ (CivilDate.ofDays days).year := by
  apply CivilDate.year_le_of_toDays
  rw [CivilDate.toDays_ofDays]
  have hstart : dayNumber 100 1 1 = centuryStart := by decide
  rwa [hstart]

theorem timeOfDay_split (days : ℤ) (hhour : hour < 24) (hminute : minute < 60) :
    timeOfDay days hour minute / 60000 / 1440 = days ∧
    timeOfDay days hour minute / 60000 % 1440 / 60 = hour ∧ timeOfDay days hour minute / 60000 % 60 = minute := by
  unfold timeOfDay
  omega

theorem utcClock_timeOfDay (h : centuryStart ≤ days) (hhour : hour < 24) (hminute : minute < 60) :
    utcClock (timeOfDay days hour minute) = clockOfDay days hour minute := by
  have hyear := year_of_centuryStart h
  obtain ⟨hdays,hhours,hminutes⟩ := timeOfDay_split days hhour hminute
  unfold utcClock clockOfDay
  dsimp only
  rw [hdays,hhours,hminutes,if_pos (by omega),Int.toNat_natCast,Int.toNat_natCast]

/-- `Date.UTC` of a date that is not of the first century. -/
theorem dateUTC_ofDays (h : centuryStart ≤ days) : dateUTC (CivilDate.ofDays days).year (CivilDate.ofDays days).month
    (CivilDate.ofDays days).day hour minute = timeOfDay days hour minute := by
  have hyear := year_of_centuryStart h
  have hdays : daysFromCivil (CivilDate.ofDays days).year (CivilDate.ofDays days).month (CivilDate.ofDays days).day = days := by
    rw [daysFromCivil_eq]
    exact CivilDate.toDays_ofDays days
  unfold dateUTC timeOfDay
  dsimp only
  rw [if_neg (by omega),hdays]

theorem instantFromWallClock_utc {year : ℤ} {month day : ℕ} (hdays : centuryStart ≤ days) (hhour : hour < 24)
    (hminute : minute < 60)
    (hguess : dateUTC year month day hour minute = timeOfDay days hour minute) :
    instantFromWallClock utcClock year month day hour minute = timeOfDay days hour minute := by
  have hshown : dateUTC (clockOfDay days hour minute).year (clockOfDay days hour minute).month (clockOfDay days hour minute).day
      (clockOfDay days hour minute).hour (clockOfDay days hour minute).minute = timeOfDay days hour minute :=
    dateUTC_ofDays hdays
  unfold instantFromWallClock
  dsimp only
  rw [hguess,utcClock_timeOfDay hdays hhour hminute,hshown]
  omega

/-- The day from which `nextRun` walks. -/
def searchStart (after : ℤ) : ℤ :=
  let start := utcClock after
  dayNumber (if start.year ≤ 99 then start.year + 1900 else start.year) start.month start.day

theorem utcClock_range (t : ℤ) : 1 ≤ (utcClock t).year ∧ 1 ≤ (utcClock t).month ∧ (utcClock t).month ≤ 12 ∧
    1 ≤ (utcClock t).day := by
  have hmonth := (CivilDate.ofDays (t / 60000 / 1440)).month_range
  have hday := (CivilDate.ofDays (t / 60000 / 1440)).day_range
  refine ⟨?_,hmonth.1,hmonth.2,hday.1⟩
  unfold utcClock
  dsimp only
  split_ifs <;> omega

theorem centuryStart_le {year : ℤ} {month day : ℕ} (hyear : 100 ≤ year) (hmonth : 1 ≤ month) (hday : 1 ≤ day) :
    centuryStart ≤ dayNumber year month day := by
  have hstart : dayNumber 100 1 1 = centuryStart := by decide
  rw [← hstart]
  exact dayNumber_ge hyear hmonth hday

theorem centuryStart_le_searchStart (after : ℤ) : centuryStart ≤ searchStart after := by
  have hrange := utcClock_range after
  apply centuryStart_le _ hrange.2.1 hrange.2.2.2
  split_ifs <;> omega

theorem dateUTC_start (after : ℤ) : dateUTC (utcClock after).year (utcClock after).month (utcClock after).day 0 0 =
    timeOfDay (searchStart after) 0 0 := by
  have hyear := (utcClock_range after).1
  unfold dateUTC searchStart timeOfDay
  dsimp only
  rw [daysFromCivil_eq]
  by_cases hshort : (utcClock after).year ≤ 99
  · rw [if_pos hshort,if_pos ⟨by omega,hshort⟩]
  · rw [if_neg hshort,if_neg (by omega)]

/-- From the second century on the walk starts on the day of `after`. -/
theorem searchStart_eq {after : ℤ} (h : centuryStart ≤ after / 86400000) : searchStart after = after / 86400000 := by
  have hdays : after / 60000 / 1440 = after / 86400000 := by omega
  have hyear := year_of_centuryStart h
  have hshown : (utcClock after).year = (CivilDate.ofDays (after / 86400000)).year := by
    unfold utcClock
    dsimp only
    rw [hdays,if_pos (by omega)]
  have hdate : (utcClock after).month = (CivilDate.ofDays (after / 86400000)).month ∧
      (utcClock after).day = (CivilDate.ofDays (after / 86400000)).day := by
    unfold utcClock
    dsimp only
    rw [hdays]
    exact ⟨rfl,rfl⟩
  unfold searchStart
  dsimp only
  rw [hshown,hdate.1,hdate.2,if_neg (by omega)]
  exact CivilDate.toDays_ofDays _

end Clock

section Search
variable {β : Type} {n : ℕ} {f : ℕ → Option β} {b : β}

theorem findSome?_range_some (h : (List.range n).findSome? f = some b) :
    ∃ k < n, f k = some b ∧ ∀ j < k, f j = none := by
  induction n with
  | zero => cases h
  | succ n ih =>
    rw [List.range_succ,List.findSome?_append] at h
    cases hearlier : (List.range n).findSome? f with
    | some c =>
      rw [hearlier,Option.some_or] at h
      cases h
      obtain ⟨k,hk,hfk,hnone⟩ := ih hearlier
      exact ⟨k,Nat.lt_succ_of_lt hk,hfk,hnone⟩
    | none =>
      rw [hearlier,Option.none_or,List.findSome?_singleton] at h
      refine ⟨n,Nat.lt_succ_self n,h,?_⟩
      intro j hj
      exact List.findSome?_eq_none_iff.mp hearlier j (List.mem_range.mpr hj)

theorem find?_least {α : Type} [Preorder α] {l : List α} {p : α → Bool} {a : α} (hsorted : l.Pairwise (· ≤ ·))
    (h : l.find? p = some a) : ∀ c ∈ l, p c = true → a ≤ c := by
  obtain ⟨_,before,behind,rfl,hnone⟩ := List.find?_eq_some_iff_append.mp h
  intro c hc hpc
  rcases List.mem_append.mp hc with hbefore | hbehind
  · have hfalse := hnone c hbefore
    rw [hpc] at hfalse
    cases hfalse
  · rcases List.mem_cons.mp hbehind with rfl | hbehind
    · exact le_rfl
    · exact (List.pairwise_cons.mp (List.pairwise_append.mp hsorted).2.1).1 c hbehind

end Search

section Fields
variable {fields : CronFields} {days after t : ℤ} {hour minute : ℕ}

theorem dayMatches_iff {clock : WallClock} : dayMatches clock fields = true ↔ clock.month ∈ fields.months ∧
    (fields.domRestricted = true → fields.dowRestricted = true →
      clock.day ∈ fields.daysOfMonth ∨ clock.weekday ∈ fields.daysOfWeek) ∧
    (fields.domRestricted = true → fields.dowRestricted = false → clock.day ∈ fields.daysOfMonth) ∧
    (fields.domRestricted = false → fields.dowRestricted = true → clock.weekday ∈ fields.daysOfWeek) := by
  unfold dayMatches
  cases fields.domRestricted <;> cases fields.dowRestricted <;> by_cases hmonth : clock.month ∈ fields.months <;> simp [hmonth]

theorem CronFields.satisfied_iff {clock : WallClock} : fields.Satisfied clock ↔
    dayMatches clock fields = true ∧ clock.hour ∈ fields.hours ∧ clock.minute ∈ fields.minutes := by
  rw [dayMatches_iff]
  constructor
  · exact fun h => ⟨⟨h.month,h.either,h.day,h.weekday⟩,h.hour,h.minute⟩
  · rintro ⟨⟨hmonth,heither,hday,hweekday⟩,hhour,hminute⟩
    exact ⟨hminute,hhour,hmonth,heither,hday,hweekday⟩

/-- The times of a day that the fields ask for, in their order. -/
def CronFields.times (fields : CronFields) (days : ℤ) : List ℤ :=
  fields.hours.flatMap fun hour => fields.minutes.map fun minute => timeOfDay days hour minute

/-- The hours and the minutes are those of a day, in increasing order. -/
structure CronFields.Clocked (fields : CronFields) : Prop where
  hours_sorted : fields.hours.Pairwise (· < ·)
  hours_range : ∀ hour ∈ fields.hours, hour < 24
  minutes_sorted : fields.minutes.Pairwise (· < ·)
  minutes_range : ∀ minute ∈ fields.minutes, minute < 60

theorem CronFields.mem_times : t ∈ fields.times days ↔
    ∃ hour ∈ fields.hours, ∃ minute ∈ fields.minutes, timeOfDay days hour minute = t := by
  simp only [CronFields.times,List.mem_flatMap,List.mem_map]

theorem CronFields.Clocked.times_sorted (h : fields.Clocked) : (fields.times days).Pairwise (· ≤ ·) := by
  rw [CronFields.times,List.pairwise_flatMap]
  constructor
  · intro hour _
    rw [List.pairwise_map]
    refine h.minutes_sorted.imp ?_
    intro minute minute' hlt
    unfold timeOfDay
    omega
  · refine h.hours_sorted.imp ?_
    intro hour hour' hlt t ht t' ht'
    obtain ⟨minute,hminute,rfl⟩ := List.mem_map.mp ht
    obtain ⟨minute',_,rfl⟩ := List.mem_map.mp ht'
    have hrange := h.minutes_range minute hminute
    unfold timeOfDay
    omega

theorem nextOnDay_utc (h : fields.Clocked) (hdays : centuryStart ≤ days) :
    nextOnDay utcClock after fields (clockOfDay days 0 0) = (fields.times days).find? fun candidate => candidate > after := by
  have htimes : (fields.hours.flatMap fun hour => fields.minutes.map fun minute => instantFromWallClock utcClock
      (clockOfDay days 0 0).year (clockOfDay days 0 0).month (clockOfDay days 0 0).day hour minute) = fields.times days := by
    apply List.flatMap_congr
    intro hour hhour
    apply List.map_congr_left
    intro minute hminute
    exact instantFromWallClock_utc hdays (h.hours_range hour hhour) (h.minutes_range minute hminute) (dateUTC_ofDays hdays)
  rw [nextOnDay,htimes]

/-- The search of `nextRun`, over the days from its start. -/
theorem nextRun_utc (h : fields.Clocked) : nextRun utcClock after fields =
    (List.range (searchLimitDays + 1)).findSome? fun dayOffset : ℕ =>
      if dayMatches (clockOfDay (searchStart after + dayOffset) 0 0) fields then
        (fields.times (searchStart after + dayOffset)).find? fun candidate => candidate > after
      else none := by
  have hstart := centuryStart_le_searchStart after
  have hbase := instantFromWallClock_utc hstart (by decide) (by decide) (dateUTC_start after)
  unfold nextRun
  dsimp only
  rw [hbase,bind_pure_comp,List.map_eq_map,List.findSome?_map]
  congr 1
  funext dayOffset
  have hday : timeOfDay (searchStart after) 0 0 + dayOffset * 86400000 = timeOfDay (searchStart after + dayOffset) 0 0 := by
    unfold timeOfDay
    push_cast
    ring
  dsimp only [Function.comp_apply]
  rw [hday,utcClock_timeOfDay (by omega) (by decide) (by decide),nextOnDay_utc h (by omega)]

/-- A day of the search yields nothing when it does not match or all its times have passed. -/
theorem day_none : (if dayMatches (clockOfDay days 0 0) fields then
    (fields.times days).find? fun candidate => decide (candidate > after) else none) = none ↔
      (dayMatches (clockOfDay days 0 0) fields = true → ∀ s ∈ fields.times days, s ≤ after) := by
  by_cases hmatch : dayMatches (clockOfDay days 0 0) fields = true
  · rw [if_pos hmatch,List.find?_eq_none]
    simp only [decide_eq_true_eq,gt_iff_lt,not_lt,hmatch,true_imp_iff]
  · rw [if_neg hmatch]
    exact iff_of_true rfl fun h => absurd h hmatch

theorem nextRun_none (h : fields.Clocked) : nextRun utcClock after fields = none ↔
    ∀ dayOffset ≤ searchLimitDays, dayMatches (clockOfDay (searchStart after + dayOffset) 0 0) fields = true →
      ∀ s ∈ fields.times (searchStart after + dayOffset), s ≤ after := by
  rw [nextRun_utc h,List.findSome?_eq_none_iff]
  simp only [List.mem_range,Nat.lt_succ_iff,day_none]

/-- What `nextRun` answers is the least time left of the first day that matches and has one. -/
theorem nextRun_some (h : fields.Clocked) (ht : nextRun utcClock after fields = some t) :
    ∃ dayOffset : ℕ, dayMatches (clockOfDay (searchStart after + dayOffset) 0 0) fields = true ∧
      t ∈ fields.times (searchStart after + dayOffset) ∧ after < t ∧
      (∀ s ∈ fields.times (searchStart after + dayOffset), after < s → t ≤ s) ∧
      ∀ earlier < dayOffset, dayMatches (clockOfDay (searchStart after + earlier) 0 0) fields = true →
        ∀ s ∈ fields.times (searchStart after + earlier), s ≤ after := by
  rw [nextRun_utc h] at ht
  obtain ⟨dayOffset,_,hday,hearlier⟩ := findSome?_range_some ht
  by_cases hmatch : dayMatches (clockOfDay (searchStart after + dayOffset) 0 0) fields = true
  · rw [if_pos hmatch] at hday
    have hlater := List.find?_some hday
    refine ⟨dayOffset,hmatch,List.mem_of_find?_eq_some hday,of_decide_eq_true hlater,?_,?_⟩
    · exact fun s hs hlt => find?_least h.times_sorted hday s hs (decide_eq_true hlt)
    · exact fun earlier hlt => day_none.mp (hearlier earlier hlt)
  · rw [if_neg hmatch] at hday
    cases hday

theorem exists_timeOfDay (haligned : t % 60000 = 0) :
    ∃ hour < 24, ∃ minute < 60, timeOfDay (t / 86400000) hour minute = t := by
  refine ⟨(t / 60000 % 1440 / 60).toNat,by omega,(t / 60000 % 60).toNat,by omega,?_⟩
  unfold timeOfDay
  omega

theorem dayMatches_clockOfDay : dayMatches (clockOfDay days hour minute) fields = dayMatches (clockOfDay days 0 0) fields := rfl

theorem satisfied_timeOfDay (hdays : centuryStart ≤ days) (hhour : hour < 24) (hminute : minute < 60) :
    fields.Satisfied (utcClock (timeOfDay days hour minute)) ↔
      dayMatches (clockOfDay days 0 0) fields = true ∧ hour ∈ fields.hours ∧ minute ∈ fields.minutes := by
  rw [utcClock_timeOfDay hdays hhour hminute,CronFields.satisfied_iff,dayMatches_clockOfDay]
  exact Iff.rfl

end Fields

/-- In UTC `nextRun` answers the first minute after `after` that satisfies the fields. -/
theorem nextRun_least {fields : CronFields} (hfields : fields.Clocked) {after t : ℤ} (hafter : 0 ≤ after)
    (ht : nextRun utcClock after fields = some t) :
    t % 60000 = 0 ∧ after < t ∧ fields.Satisfied (utcClock t) ∧
      ∀ s, after < s → s < t → s % 60000 = 0 → ¬ fields.Satisfied (utcClock s) := by
  have hcentury : centuryStart ≤ 0 := by decide
  obtain ⟨dayOffset,hmatch,hmem,hlater,hleast,hearlier⟩ := nextRun_some hfields ht
  rw [searchStart_eq (by omega)] at hmatch hmem hleast hearlier
  obtain ⟨hour,hhour,minute,hminute,rfl⟩ := CronFields.mem_times.mp hmem
  have hhour24 := hfields.hours_range hour hhour
  have hminute60 := hfields.minutes_range minute hminute
  refine ⟨?_,hlater,(satisfied_timeOfDay (by omega) hhour24 hminute60).mpr ⟨hmatch,hhour,hminute⟩,?_⟩
  · unfold timeOfDay
    omega
  · intro s hafter' hbefore haligned hsatisfied
    obtain ⟨hour',hhour',minute',hminute',hs⟩ := exists_timeOfDay haligned
    have hdays : after / 86400000 ≤ s / 86400000 := Int.ediv_le_ediv (by decide) hafter'.le
    obtain ⟨offset,hoffset⟩ := Int.le.dest hdays
    rw [← hs,satisfied_timeOfDay (by omega) hhour' hminute',← hoffset] at hsatisfied
    have htime : s ∈ fields.times (after / 86400000 + offset) :=
      CronFields.mem_times.mpr ⟨hour',hsatisfied.2.1,minute',hsatisfied.2.2,by rw [hoffset,hs]⟩
    have hday : offset ≤ dayOffset := by
      have hlast : (timeOfDay (after / 86400000 + dayOffset) hour minute) / 86400000 = after / 86400000 + dayOffset := by
        unfold timeOfDay
        omega
      have hle := Int.ediv_le_ediv (show (0 : ℤ) < 86400000 by decide) hbefore.le
      omega
    rcases hday.lt_or_eq with hlt | rfl
    · exact absurd (hearlier offset hlt hsatisfied.1 s htime) (not_le.mpr hafter')
    · exact absurd (hleast s htime hafter') (not_le.mpr hbefore)

/-- Half past nine on the last day of February. -/
def leapDayFields : CronFields := ⟨[30],[9],[29],[2],[0,1,2,3,4,5,6],true,false⟩

theorem leapDayFields_clocked : leapDayFields.Clocked where
  hours_sorted := by decide
  hours_range := by decide
  minutes_sorted := by decide
  minutes_range := by decide

/-- After New Year 2024 comes 29 February 2024. -/
theorem nextRun_least_leapDay : ∃ t, nextRun utcClock 1704067200000 leapDayFields = some t ∧ t = 1709199000000 ∧
    leapDayFields.Satisfied (utcClock t) := by
  have hrun : nextRun utcClock 1704067200000 leapDayFields = some 1709199000000 := by decide +kernel
  exact ⟨1709199000000,hrun,rfl,(nextRun_least leapDayFields_clocked (by decide) hrun).2.2.1⟩

end StructureAi.Jobs

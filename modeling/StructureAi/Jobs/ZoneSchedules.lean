import StructureAi.Jobs.UtcSchedule

/-! # Schedules in a time zone

A zone shows the calendar at an offset from UTC. The instant of a wall-clock time is found by one
correction of a guess; it shows that time where the offset at the guess is the one at the answer.
-/
namespace StructureAi.Jobs
open StructureAi.Foundation

/-- A time of a date. -/
@[ext]
structure WallTime where
  date : CivilDate
  hour : ℕ
  minute : ℕ
  hour_lt : hour < 24
  minute_lt : minute < 60
deriving DecidableEq

namespace WallTime

def asUTC (w : WallTime) : ℤ := timeOfDay w.date.toDays w.hour w.minute

def ofUTC (t : ℤ) : WallTime where
  date := CivilDate.ofDays (t / 60000 / 1440)
  hour := (t / 60000 % 1440 / 60).toNat
  minute := (t / 60000 % 60).toNat
  hour_lt := by omega
  minute_lt := by omega

theorem ofUTC_asUTC (w : WallTime) : ofUTC w.asUTC = w := by
  obtain ⟨hdays,hhour,hminute⟩ := timeOfDay_split w.date.toDays w.hour_lt w.minute_lt
  unfold ofUTC asUTC
  ext1
  · dsimp only
    rw [hdays,CivilDate.ofDays_toDays]
  · dsimp only
    rw [hhour,Int.toNat_natCast]
  · dsimp only
    rw [hminute,Int.toNat_natCast]

theorem asUTC_ofUTC (t : ℤ) : (ofUTC t).asUTC = t / 60000 * 60000 := by
  unfold asUTC ofUTC timeOfDay
  dsimp only
  rw [CivilDate.toDays_ofDays]
  omega

theorem asUTC_aligned (w : WallTime) : w.asUTC % 60000 = 0 := by
  unfold asUTC timeOfDay
  omega

theorem ofUTC_eq_iff {t : ℤ} {w : WallTime} : ofUTC t = w ↔ t / 60000 = w.asUTC / 60000 := by
  constructor
  · rintro rfl
    rw [asUTC_ofUTC]
    omega
  · intro h
    have haligned : (ofUTC t).asUTC = w.asUTC := by
      have hw := w.asUTC_aligned
      rw [asUTC_ofUTC]
      omega
    rw [← ofUTC_asUTC w,← haligned,ofUTC_asUTC]

theorem year_le_iff {w : WallTime} {year : ℤ} : year ≤ w.date.year ↔ dayNumber year 1 1 * 86400000 ≤ w.asUTC := by
  have hhour := w.hour_lt
  have hminute := w.minute_lt
  unfold asUTC timeOfDay
  constructor
  · intro h
    have hge := dayNumber_ge h w.date.month_range.1 w.date.day_range.1
    change dayNumber year 1 1 ≤ w.date.toDays at hge
    omega
  · intro h
    exact w.date.year_le_of_toDays (by omega)

end WallTime

section Zone
variable (offset : ℤ → ℤ)

/-- The clock of a zone whose offset from UTC, in minutes, depends on the instant. -/
def zoneClock (t : ℤ) : WallClock := utcClock (t + offset t * 60000)

def localTime (t : ℤ) : WallTime := WallTime.ofUTC (t + offset t * 60000)

/-- `instantFromWallClock` of a time in the zone. -/
def instantOf (w : WallTime) : ℤ :=
  instantFromWallClock (zoneClock offset) w.date.year w.date.month w.date.day w.hour w.minute

/-- The offset at the guess is the one at the answer, and neither the year of the time nor that of the guess
has two digits or comes before the first. -/
structure OffsetHolds (w : WallTime) : Prop where
  century : 100 ≤ w.date.year
  guessCentury : 100 ≤ (localTime offset w.asUTC).date.year
  same : offset (w.asUTC - offset w.asUTC * 60000) = offset w.asUTC

end Zone

/-- The instant that `Date.UTC` makes of what UTC shows. -/
def shownUTC (t : ℤ) : ℤ :=
  dateUTC (utcClock t).year (utcClock t).month (utcClock t).day (utcClock t).hour (utcClock t).minute

theorem dateUTC_late (w : WallTime) (h : 100 ≤ w.date.year ∨ w.date.year < 0) :
    dateUTC w.date.year w.date.month w.date.day w.hour w.minute = w.asUTC := by
  unfold dateUTC
  dsimp only
  rw [if_neg (by omega),daysFromCivil_eq]
  rfl

theorem dateUTC_century (w : WallTime) (h : 0 ≤ w.date.year) (h' : w.date.year ≤ 99) : dayNumber 1900 1 1 * 86400000 ≤
    dateUTC w.date.year w.date.month w.date.day w.hour w.minute := by
  have hge := dayNumber_ge (show 1900 ≤ w.date.year + 1900 by omega) w.date.month_range.1 w.date.day_range.1
  unfold dateUTC
  dsimp only
  rw [if_pos ⟨h,h'⟩,daysFromCivil_eq]
  omega

section Shown
variable {t : ℤ}

theorem shownUTC_late (h : 100 ≤ (WallTime.ofUTC t).date.year) : shownUTC t = t / 60000 * 60000 := by
  have hyear : (utcClock t).year = (WallTime.ofUTC t).date.year := if_pos (show 0 < (WallTime.ofUTC t).date.year by omega)
  unfold shownUTC
  rw [hyear,← WallTime.asUTC_ofUTC]
  exact dateUTC_late (WallTime.ofUTC t) (Or.inl h)

theorem shownUTC_century (h : 1 ≤ (WallTime.ofUTC t).date.year) (h' : (WallTime.ofUTC t).date.year ≤ 99) :
    dayNumber 1900 1 1 * 86400000 ≤ shownUTC t := by
  have hyear : (utcClock t).year = (WallTime.ofUTC t).date.year := if_pos (show 0 < (WallTime.ofUTC t).date.year by omega)
  unfold shownUTC
  rw [hyear]
  exact dateUTC_century (WallTime.ofUTC t) (by omega) h'

/-- No clock shows a year that `Date.UTC` takes for one before 100. -/
theorem centuryStart_le_shownUTC (t : ℤ) : centuryStart * 86400000 ≤ shownUTC t := by
  obtain ⟨hyear,hmonth,_,hday⟩ := utcClock_range t
  unfold shownUTC dateUTC
  dsimp only
  rw [daysFromCivil_eq]
  have hge : centuryStart ≤ dayNumber (if 0 ≤ (utcClock t).year ∧ (utcClock t).year ≤ 99 then (utcClock t).year + 1900
      else (utcClock t).year) (utcClock t).month (utcClock t).day := by
    apply centuryStart_le _ hmonth hday
    split_ifs <;> omega
  omega

end Shown

section Instants
variable {offset : ℤ → ℤ} {w : WallTime}

theorem instantOf_eq : instantOf offset w =
    2 * dateUTC w.date.year w.date.month w.date.day w.hour w.minute -
      shownUTC (dateUTC w.date.year w.date.month w.date.day w.hour w.minute +
        offset (dateUTC w.date.year w.date.month w.date.day w.hour w.minute) * 60000) := by
  unfold instantOf instantFromWallClock shownUTC zoneClock
  dsimp only
  omega

theorem instantOf_late (h : 100 ≤ w.date.year) (hguess : 100 ≤ (localTime offset w.asUTC).date.year) :
    instantOf offset w = w.asUTC - offset w.asUTC * 60000 := by
  have haligned := w.asUTC_aligned
  rw [instantOf_eq,dateUTC_late w (Or.inl h),shownUTC_late hguess]
  omega

variable (hoffset : ∀ t, |offset t| ≤ 1440)
include hoffset

theorem offset_bounds (t : ℤ) : -1440 ≤ offset t ∧ offset t ≤ 1440 := abs_le.mp (hoffset t)

/-- A time of a year of two digits is looked for in the twentieth century, and one before the first year far back. -/
theorem instantOf_early (h : w.date.year ≤ 99) : localTime offset (instantOf offset w) ≠ w := by
  have hcentury : dayNumber 100 1 1 = -683003 := by decide
  have htwentieth : dayNumber 1900 1 1 = -25567 := by decide
  have hbefore : ¬ dayNumber 100 1 1 * 86400000 ≤ w.asUTC := fun hle => absurd (WallTime.year_le_iff.mpr hle) (by omega)
  unfold localTime
  rw [Ne,WallTime.ofUTC_eq_iff]
  have hlast := offset_bounds hoffset (instantOf offset w)
  rw [instantOf_eq] at hlast ⊢
  by_cases hnegative : w.date.year < 0
  · have hzero : dayNumber 0 1 1 = -719528 := by decide
    have hearly : ¬ dayNumber 0 1 1 * 86400000 ≤ w.asUTC := fun hle => absurd (WallTime.year_le_iff.mpr hle) (by omega)
    rw [dateUTC_late w (Or.inr hnegative)] at hlast ⊢
    have hshown := centuryStart_le_shownUTC (w.asUTC + offset w.asUTC * 60000)
    unfold centuryStart at hshown
    omega
  · have hguess := dateUTC_century w (by omega) h
    obtain ⟨guess,hguessed⟩ : ∃ guess, guess = dateUTC w.date.year w.date.month w.date.day w.hour w.minute := ⟨_,rfl⟩
    rw [← hguessed] at hguess hlast ⊢
    have hfirst := offset_bounds hoffset guess
    have hyear : 100 ≤ (WallTime.ofUTC (guess + offset guess * 60000)).date.year := by
      rw [WallTime.year_le_iff,WallTime.asUTC_ofUTC]
      omega
    rw [shownUTC_late hyear] at hlast ⊢
    omega

/-- Where the guess falls into a year of two digits, its clock is read in the twentieth century. -/
theorem instantOf_boundary (h : 100 ≤ w.date.year) (hguess : (localTime offset w.asUTC).date.year ≤ 99) :
    localTime offset (instantOf offset w) ≠ w := by
  have hcentury : dayNumber 100 1 1 = -683003 := by decide
  have htwentieth : dayNumber 1900 1 1 = -25567 := by decide
  have hone : dayNumber 1 1 1 = -719162 := by decide
  have hw := WallTime.year_le_iff.mp h
  have hfirst := offset_bounds hoffset w.asUTC
  have hlast := offset_bounds hoffset (instantOf offset w)
  have hyear : 1 ≤ (localTime offset w.asUTC).date.year := by
    unfold localTime
    rw [WallTime.year_le_iff,WallTime.asUTC_ofUTC]
    omega
  have hearly : ¬ dayNumber 100 1 1 * 86400000 ≤ (localTime offset w.asUTC).asUTC :=
    fun hle => absurd (WallTime.year_le_iff.mpr hle) (by omega)
  have hshown := shownUTC_century hyear hguess
  unfold localTime at hearly ⊢
  rw [WallTime.asUTC_ofUTC] at hearly
  rw [Ne,WallTime.ofUTC_eq_iff]
  rw [instantOf_eq,dateUTC_late w (Or.inl h)] at hlast ⊢
  omega

theorem instantOf_shows_iff : localTime offset (instantOf offset w) = w ↔ OffsetHolds offset w := by
  by_cases hcentury : 100 ≤ w.date.year
  · by_cases hguess : 100 ≤ (localTime offset w.asUTC).date.year
    · have haligned := w.asUTC_aligned
      unfold localTime
      rw [WallTime.ofUTC_eq_iff,instantOf_late hcentury hguess]
      constructor
      · intro hshows
        exact ⟨hcentury,hguess,by omega⟩
      · intro hholds
        rw [hholds.same]
        omega
    · exact iff_of_false (instantOf_boundary hoffset hcentury (by omega)) fun hholds => hguess hholds.guessCentury
  · exact iff_of_false (instantOf_early hoffset (by omega)) fun hholds => hcentury hholds.century

end Instants

section NextRun
variable {offset : ℤ → ℤ} {fields : CronFields} {after t : ℤ}

theorem utcClock_congr {s : ℤ} (h : t / 60000 = s / 60000) : utcClock t = utcClock s := by
  unfold utcClock
  rw [h]

/-- What `nextRun` answers is the instant of an asked time on a day that some clock of the walk shows. -/
theorem nextRun_asked {wallClockOf : ℤ → WallClock} (ht : nextRun wallClockOf after fields = some t) : after < t ∧
    ∃ dayOffset : ℤ, 0 ≤ dayOffset ∧ ∃ hour ∈ fields.hours, ∃ minute ∈ fields.minutes,
      let start := wallClockOf after
      let clock := wallClockOf (instantFromWallClock wallClockOf start.year start.month start.day 0 0 + dayOffset * 86400000)
      dayMatches clock fields = true ∧ t = instantFromWallClock wallClockOf clock.year clock.month clock.day hour minute := by
  unfold nextRun at ht
  dsimp only at ht
  rw [bind_pure_comp,List.map_eq_map] at ht
  obtain ⟨dayOffset,hin,hday⟩ := List.exists_of_findSome?_eq_some ht
  obtain ⟨k,_,rfl⟩ := List.mem_map.mp hin
  split at hday
  · rename_i hmatch
    unfold nextOnDay at hday
    have hlater := List.find?_some hday
    obtain ⟨hour,hhour,hmem⟩ := List.mem_flatMap.mp (List.mem_of_find?_eq_some hday)
    obtain ⟨minute,hminute,rfl⟩ := List.mem_map.mp hmem
    exact ⟨of_decide_eq_true hlater,k,by omega,hour,hhour,minute,hminute,hmatch,rfl⟩
  · cases hday

/-- The times that the fields ask for. -/
structure CronFields.Asks (fields : CronFields) (w : WallTime) : Prop where
  day : dayMatches (clockOfDay w.date.toDays 0 0) fields = true
  hour : w.hour ∈ fields.hours
  minute : w.minute ∈ fields.minutes

theorem CronFields.Asks.satisfied {w : WallTime} (h : fields.Asks w) (hyear : 100 ≤ w.date.year)
    (hshows : localTime offset t = w) : fields.Satisfied (zoneClock offset t) := by
  have hdays : centuryStart ≤ w.date.toDays := centuryStart_le hyear w.date.month_range.1 w.date.day_range.1
  unfold zoneClock
  rw [utcClock_congr (WallTime.ofUTC_eq_iff.mp hshows),WallTime.asUTC,satisfied_timeOfDay hdays w.hour_lt w.minute_lt]
  exact ⟨h.day,h.hour,h.minute⟩

theorem utcClock_date (h : 1 ≤ (WallTime.ofUTC t).date.year) : (utcClock t).year = (WallTime.ofUTC t).date.year ∧
    (utcClock t).month = (WallTime.ofUTC t).date.month ∧ (utcClock t).day = (WallTime.ofUTC t).date.day :=
  ⟨if_pos (show 0 < (WallTime.ofUTC t).date.year by omega),rfl,rfl⟩

/-- What `nextRun` answers is the instant found for an asked time. -/
theorem nextRun_instantOf (hoffset : ∀ t, |offset t| ≤ 1440) (hfields : fields.Clocked)
    (hafter : 101 ≤ (localTime offset after).date.year) (ht : nextRun (zoneClock offset) after fields = some t) :
    after < t ∧ ∃ w, fields.Asks w ∧ 100 ≤ w.date.year ∧ t = instantOf offset w := by
  obtain ⟨hlater,dayOffset,hdayOffset,hour,hhour,minute,hminute,hmatch,hanswer⟩ := nextRun_asked ht
  have hnext : dayNumber 101 1 1 = -682638 := by decide
  have hcentury : dayNumber 100 1 1 = -683003 := by decide
  -- the walk starts from the midnight of the date shown
  obtain ⟨midnight,hmidnight⟩ : ∃ midnight : WallTime, midnight =
      ⟨(localTime offset after).date,0,0,by decide,by decide⟩ := ⟨_,rfl⟩
  have hdate : midnight.date = (localTime offset after).date := by rw [hmidnight]
  have hstart : instantFromWallClock (zoneClock offset) (zoneClock offset after).year (zoneClock offset after).month
      (zoneClock offset after).day 0 0 = instantOf offset midnight := by
    obtain ⟨hyear,hmonth,hday⟩ := utcClock_date (t := after + offset after * 60000) (by unfold localTime at hafter; omega)
    rw [hmidnight]
    unfold instantOf zoneClock localTime
    dsimp only
    rw [hyear,hmonth,hday]
  rw [hstart] at hmatch hanswer
  have hguess := WallTime.year_le_iff.mp (hdate.symm ▸ hafter : 101 ≤ midnight.date.year)
  have hfirst := offset_bounds hoffset midnight.asUTC
  have hshown : 100 ≤ (localTime offset midnight.asUTC).date.year := by
    unfold localTime
    rw [WallTime.year_le_iff,WallTime.asUTC_ofUTC]
    omega
  have hbase := instantOf_late (by rw [hdate]; omega) hshown
  obtain ⟨shown,hshown'⟩ : ∃ shown, shown = instantOf offset midnight + dayOffset * 86400000 := ⟨_,rfl⟩
  rw [← hshown'] at hmatch hanswer
  have hlast := offset_bounds hoffset shown
  have hyear : 100 ≤ (localTime offset shown).date.year := by
    unfold localTime
    rw [WallTime.year_le_iff,WallTime.asUTC_ofUTC]
    omega
  obtain ⟨hy,hm,hd⟩ := utcClock_date (t := shown + offset shown * 60000) (by unfold localTime at hyear; omega)
  refine ⟨hlater,⟨(localTime offset shown).date,hour,minute,hfields.hours_range hour hhour,hfields.minutes_range minute hminute⟩,
    ⟨?_,hhour,hminute⟩,hyear,?_⟩
  · have hdays : (localTime offset shown).date.toDays = (shown + offset shown * 60000) / 60000 / 1440 :=
      CivilDate.toDays_ofDays _
    rw [hdays]
    exact hmatch
  · rw [hanswer]
    unfold instantOf zoneClock localTime
    dsimp only
    rw [hy,hm,hd]

end NextRun

/-- In every zone the instant found for a time shows that time just where the offset holds, and what `nextRun` answers
comes later than asked and then satisfies the fields. -/
theorem nextRun_shows_iff {offset : ℤ → ℤ} (hoffset : ∀ t, |offset t| ≤ 1440) :
    (∀ w, localTime offset (instantOf offset w) = w ↔ OffsetHolds offset w) ∧
    ∀ fields : CronFields, fields.Clocked → ∀ after, 101 ≤ (localTime offset after).date.year → ∀ t,
      nextRun (zoneClock offset) after fields = some t → after < t ∧ ∃ w, fields.Asks w ∧ t = instantOf offset w ∧
        (OffsetHolds offset w → localTime offset t = w ∧ fields.Satisfied (zoneClock offset t)) := by
  constructor
  · exact fun w => instantOf_shows_iff hoffset
  · intro fields hfields after hafter t ht
    obtain ⟨hlater,w,hasks,hyear,hanswer⟩ := nextRun_instantOf hoffset hfields hafter ht
    refine ⟨hlater,w,hasks,hanswer,?_⟩
    intro hholds
    have hshows : localTime offset t = w := by
      rw [hanswer]
      exact (instantOf_shows_iff hoffset).mpr hholds
    exact ⟨hshows,hasks.satisfied hyear hshows⟩

section NewYork

/-- New York in the winters around the summer of 2024. -/
def newYork (t : ℤ) : ℤ := if 1710054000000 ≤ t ∧ t < 1730613600000 then -240 else -300

theorem newYork_bound (t : ℤ) : |newYork t| ≤ 1440 := by
  unfold newYork
  split_ifs <;> decide

/-- A time of 10 March 2024, when the clocks go forward at two. -/
def springTime (hour : ℕ) (h : hour < 24) : WallTime := ⟨CivilDate.ofDays 19792,hour,30,h,by decide⟩

/-- Half past nine on that day is found, at its instant. -/
theorem nextRun_shows_newYork : localTime newYork (instantOf newYork (springTime 9 (by decide))) = springTime 9 (by decide) ∧
    instantOf newYork (springTime 9 (by decide)) = 1710077400000 := by
  refine ⟨((nextRun_shows_iff newYork_bound).1 _).mpr ⟨by decide +kernel,by decide +kernel,by decide +kernel⟩,?_⟩
  decide +kernel

/-- Half past three, which New York shows that day, is answered with an instant that shows half past four. -/
theorem newYork_spring : (∃ t, localTime newYork t = springTime 3 (by decide)) ∧
    localTime newYork (instantOf newYork (springTime 3 (by decide))) ≠ springTime 3 (by decide) ∧
    ∃ t, nextRun (zoneClock newYork) 1710046800000 ⟨[30],[3],[],[3],[],false,false⟩ = some t ∧
      localTime newYork t = springTime 4 (by decide) := by
  refine ⟨⟨1710055800000,?_⟩,?_,instantOf newYork (springTime 3 (by decide)),?_,?_⟩ <;> decide +kernel

end NewYork

end StructureAi.Jobs

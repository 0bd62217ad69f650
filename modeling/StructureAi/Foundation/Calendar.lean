import Mathlib

/-! # The proleptic Gregorian calendar

Days are numbered from 1 January 1970. The number of a date counts its year from March, so that a
leap day is the last day of its year; every number is that of one date.
-/
namespace StructureAi.Foundation

def IsLeapYear (year : ℤ) : Prop := year % 4 = 0 ∧ (year % 100 ≠ 0 ∨ year % 400 = 0)

instance : DecidablePred IsLeapYear := fun _ => inferInstanceAs (Decidable (_ ∧ _))

def daysInMonth (year : ℤ) (month : ℕ) : ℕ :=
  if month = 2 then if IsLeapYear year then 29 else 28
  else if month = 4 ∨ month = 6 ∨ month = 9 ∨ month = 11 then 30
  else 31

theorem daysInMonth_ge (year : ℤ) (month : ℕ) : 28 ≤ daysInMonth year month := by
  unfold daysInMonth
  split_ifs <;> omega

@[ext]
structure CivilDate where
  year : ℤ
  month : ℕ
  day : ℕ
  month_range : 1 ≤ month ∧ month ≤ 12
  day_range : 1 ≤ day ∧ day ≤ daysInMonth year month
deriving DecidableEq

/-- Days from 1 March of the year 0 to 1 March of a year. -/
def daysToMarch (year : ℤ) : ℤ := 365 * year + year / 4 - year / 100 + year / 400

def marchYear (year : ℤ) (month : ℕ) : ℤ := if month ≤ 2 then year - 1 else year

def marchMonth (month : ℕ) : ℕ := if month ≤ 2 then month + 9 else month - 3

/-- Days from the last 1 March to a month and a day. -/
def daysSinceMarch (month day : ℕ) : ℤ := (153 * marchMonth month + 2) / 5 + day - 1

/-- The number of a date; a day beyond its month counts into the next one. -/
def dayNumber (year : ℤ) (month day : ℕ) : ℤ :=
  daysToMarch (marchYear year month) + daysSinceMarch month day - 719468

section Years
variable {year year' : ℤ}

theorem daysToMarch_succ : daysToMarch (year + 1) = daysToMarch year + if IsLeapYear (year + 1) then 366 else 365 := by
  by_cases hleap : IsLeapYear (year + 1)
  · rw [if_pos hleap]
    unfold IsLeapYear at hleap
    unfold daysToMarch
    omega
  · rw [if_neg hleap]
    unfold IsLeapYear at hleap
    unfold daysToMarch
    omega

theorem daysToMarch_bounds (year : ℤ) : daysToMarch year + 365 ≤ daysToMarch (year + 1) ∧
    daysToMarch (year + 1) ≤ daysToMarch year + 366 := by
  rw [daysToMarch_succ]
  split <;> omega

theorem daysToMarch_mono (h : year ≤ year') : daysToMarch year ≤ daysToMarch year' := by
  induction year', h using Int.leInduction with
  | base => exact le_rfl
  | succ year' _ ih =>
    have hstep := (daysToMarch_bounds year').1
    omega

theorem dayNumber_ge (h : year ≤ year') {month day : ℕ} (hmonth : 1 ≤ month) (hday : 1 ≤ day) :
    dayNumber year 1 1 ≤ dayNumber year' month day := by
  have hstart : daysSinceMarch 1 1 = 306 := by decide
  have hyear : marchYear year 1 = year - 1 := if_pos (by decide)
  unfold dayNumber
  rw [hstart,hyear]
  unfold daysSinceMarch marchYear marchMonth
  by_cases hearly : month ≤ 2
  · rw [if_pos hearly,if_pos hearly]
    have hmono := daysToMarch_mono (show year - 1 ≤ year' - 1 by omega)
    push_cast
    omega
  · rw [if_neg hearly,if_neg hearly]
    have hmono := daysToMarch_mono (show year - 1 + 1 ≤ year' by omega)
    have hstep := (daysToMarch_bounds (year - 1)).1
    omega

end Years

namespace CivilDate

def toDays (date : CivilDate) : ℤ := dayNumber date.year date.month date.day

theorem day_le (date : CivilDate) : date.day ≤ 31 ∧ (date.month = 2 → date.day ≤ 29) ∧
    (date.month = 4 ∨ date.month = 6 ∨ date.month = 9 ∨ date.month = 11 → date.day ≤ 30) := by
  have hhigh := date.day_range.2
  unfold daysInMonth at hhigh
  split_ifs at hhigh <;> omega

theorem daysSinceMarch_range (date : CivilDate) : 0 ≤ daysSinceMarch date.month date.day ∧
    daysSinceMarch date.month date.day <
      daysToMarch (marchYear date.year date.month + 1) - daysToMarch (marchYear date.year date.month) := by
  obtain ⟨year,month,day,⟨hone,htwelve⟩,hday⟩ := date
  simp only
  rw [daysToMarch_succ]
  unfold daysInMonth at hday
  unfold daysSinceMarch marchMonth marchYear
  interval_cases month <;> simp at hday ⊢ <;> split_ifs at hday ⊢ <;> omega

theorem marchMonth_eq (date : CivilDate) : (5 * daysSinceMarch date.month date.day + 2) / 153 = marchMonth date.month := by
  have hlast := date.day_le
  obtain ⟨year,month,day,⟨hone,htwelve⟩,hlow,hhigh⟩ := date
  simp only at hlast ⊢
  unfold daysSinceMarch marchMonth
  interval_cases month <;> simp at hlast ⊢ <;> omega

theorem ext_march {date date' : CivilDate} (hyear : marchYear date.year date.month = marchYear date'.year date'.month)
    (hday : daysSinceMarch date.month date.day = daysSinceMarch date'.month date'.day) : date = date' := by
  have hmarch : marchMonth date.month = marchMonth date'.month := by
    have heq := date.marchMonth_eq
    rw [hday,date'.marchMonth_eq] at heq
    exact_mod_cast heq.symm
  have hmonth : date.month = date'.month := by
    have hrange := date.month_range
    have hrange' := date'.month_range
    unfold marchMonth at hmarch
    split_ifs at hmarch <;> omega
  have hyears : date.year = date'.year := by
    unfold marchYear at hyear
    rw [hmonth] at hyear
    split_ifs at hyear <;> omega
  have hdays : date.day = date'.day := by
    unfold daysSinceMarch at hday
    rw [hmonth] at hday
    omega
  exact CivilDate.ext hyears hmonth hdays

theorem toDays_injective : Function.Injective toDays := by
  intro date date' h
  have hrange := date.daysSinceMarch_range
  have hrange' := date'.daysSinceMarch_range
  have hmarch : marchYear date.year date.month = marchYear date'.year date'.month := by
    unfold toDays dayNumber at h
    rcases lt_trichotomy (marchYear date.year date.month) (marchYear date'.year date'.month) with hlt | heq | hlt
    · have hmono := daysToMarch_mono (Int.add_one_le_iff.mpr hlt)
      omega
    · exact heq
    · have hmono := daysToMarch_mono (Int.add_one_le_iff.mpr hlt)
      omega
  refine ext_march hmarch ?_
  unfold toDays dayNumber at h
  rw [hmarch] at h
  omega

end CivilDate

/-- The year from March on and the day in it, by centuries and by four years. -/
structure MarchDate where
  year : ℤ
  day : ℤ
deriving DecidableEq

/-- The months before a day of the year from March on. -/
def MarchDate.month (march : MarchDate) : ℕ := ((5 * march.day + 2) / 153).toNat

def marchDate (days : ℤ) : MarchDate :=
  let shifted := days + 719468
  let dayOfEra := shifted % 146097
  let century := min 3 (dayOfEra / 36524)
  let dayOfCentury := dayOfEra - 36524 * century
  let fourYears := dayOfCentury / 1461
  let dayOfFour := dayOfCentury - 1461 * fourYears
  let oneYear := min 3 (dayOfFour / 365)
  ⟨400 * (shifted / 146097) + 100 * century + 4 * fourYears + oneYear,dayOfFour - 365 * oneYear⟩

theorem marchDate_spec (days : ℤ) : daysToMarch (marchDate days).year + (marchDate days).day = days + 719468 ∧
    0 ≤ (marchDate days).day ∧ (marchDate days).day < daysToMarch ((marchDate days).year + 1) - daysToMarch
      (marchDate days).year := by
  unfold marchDate
  dsimp only
  set shifted := days + 719468 with hshifted
  obtain ⟨era,hera⟩ : ∃ era, era = shifted / 146097 := ⟨_,rfl⟩
  obtain ⟨dayOfEra,hdayOfEra⟩ : ∃ dayOfEra, dayOfEra = shifted % 146097 := ⟨_,rfl⟩
  have hsplit : shifted = 146097 * era + dayOfEra ∧ 0 ≤ dayOfEra ∧ dayOfEra < 146097 := by omega
  rw [← hera,← hdayOfEra]
  obtain ⟨century,hcentury⟩ : ∃ century, century = min 3 (dayOfEra / 36524) := ⟨_,rfl⟩
  rw [← hcentury]
  obtain ⟨dayOfCentury,hdayOfCentury⟩ : ∃ dayOfCentury, dayOfCentury = dayOfEra - 36524 * century := ⟨_,rfl⟩
  rw [← hdayOfCentury]
  have hcenturies : 0 ≤ century ∧ century ≤ 3 ∧ 0 ≤ dayOfCentury ∧ dayOfCentury < 36525 ∧
      (century < 3 → dayOfCentury < 36524) := by omega
  obtain ⟨fourYears,hfourYears⟩ : ∃ fourYears, fourYears = dayOfCentury / 1461 := ⟨_,rfl⟩
  rw [← hfourYears]
  obtain ⟨dayOfFour,hdayOfFour⟩ : ∃ dayOfFour, dayOfFour = dayOfCentury - 1461 * fourYears := ⟨_,rfl⟩
  rw [← hdayOfFour]
  have hfours : 0 ≤ fourYears ∧ fourYears ≤ 24 ∧ 0 ≤ dayOfFour ∧ dayOfFour < 1461 ∧
      (century < 3 → fourYears = 24 → dayOfFour < 1460) := by omega
  obtain ⟨oneYear,honeYear⟩ : ∃ oneYear, oneYear = min 3 (dayOfFour / 365) := ⟨_,rfl⟩
  rw [← honeYear]
  have hyears : 0 ≤ oneYear ∧ oneYear ≤ 3 ∧ 0 ≤ dayOfFour - 365 * oneYear ∧ dayOfFour - 365 * oneYear < 366 ∧
      (oneYear < 3 → dayOfFour - 365 * oneYear < 365) := by omega
  obtain ⟨year,hyear⟩ : ∃ year, year = 400 * era + 100 * century + 4 * fourYears + oneYear := ⟨_,rfl⟩
  rw [← hyear]
  have hfour : year / 4 = 100 * era + 25 * century + fourYears := by omega
  have hhundred : year / 100 = 4 * era + century := by omega
  have hera400 : year / 400 = era := by omega
  refine ⟨?_,hyears.2.2.1,?_⟩
  · unfold daysToMarch
    rw [hfour,hhundred,hera400]
    omega
  · rw [daysToMarch_succ]
    split_ifs with hleap
    · omega
    · unfold IsLeapYear at hleap
      by_cases hthree : oneYear < 3
      · omega
      · have hlast : fourYears = 24 ∧ century < 3 := by omega
        omega

theorem marchDate_month (days : ℤ) : (marchDate days).month ≤ 11 ∧
    (5 * (marchDate days).day + 2) / 153 = (marchDate days).month := by
  have hspec := marchDate_spec days
  have hbounds := (daysToMarch_bounds ((marchDate days).year)).2
  unfold MarchDate.month
  omega

def calendarMonth (months : ℕ) : ℕ := if months < 10 then months + 3 else months - 9

def calendarYear (year : ℤ) (months : ℕ) : ℤ := if months < 10 then year else year + 1

section Months
variable {year : ℤ} {months : ℕ}

theorem calendarMonth_range (h : months ≤ 11) : 1 ≤ calendarMonth months ∧ calendarMonth months ≤ 12 := by
  unfold calendarMonth
  split_ifs <;> omega

theorem marchMonth_calendar (h : months ≤ 11) : marchMonth (calendarMonth months) = months := by
  unfold marchMonth calendarMonth
  split_ifs <;> omega

theorem marchYear_calendar (h : months ≤ 11) : marchYear (calendarYear year months) (calendarMonth months) = year := by
  unfold marchYear calendarYear calendarMonth
  split_ifs <;> omega

theorem daysSinceMarch_calendar {day : ℤ} (h : months ≤ 11 ∧ (5 * day + 2) / 153 = months) :
    1 ≤ (day - (153 * months + 2) / 5 + 1).toNat ∧
      daysSinceMarch (calendarMonth months) (day - (153 * months + 2) / 5 + 1).toNat = day := by
  obtain ⟨hmonths,hday⟩ := h
  unfold daysSinceMarch
  rw [marchMonth_calendar hmonths]
  omega

end Months

theorem day_le_daysInMonth {year : ℤ} {month day : ℕ} (hday : daysSinceMarch month day < daysToMarch (marchYear year month + 1) -
    daysToMarch (marchYear year month)) (hmonth : (5 * daysSinceMarch month day + 2) / 153 = marchMonth month)
    (hrange : 1 ≤ month ∧ month ≤ 12) : day ≤ daysInMonth year month := by
  rw [daysToMarch_succ] at hday
  unfold daysSinceMarch marchMonth marchYear at hday
  unfold daysSinceMarch marchMonth at hmonth
  unfold daysInMonth
  obtain ⟨hone,htwelve⟩ := hrange
  interval_cases month <;> simp at hday hmonth ⊢ <;> (try split_ifs at hday ⊢) <;> omega

namespace CivilDate

def ofDays (days : ℤ) : CivilDate where
  year := calendarYear (marchDate days).year (marchDate days).month
  month := calendarMonth (marchDate days).month
  day := ((marchDate days).day - (153 * (marchDate days).month + 2) / 5 + 1).toNat
  month_range := calendarMonth_range (marchDate_month days).1
  day_range := by
    have hspec := marchDate_spec days
    have hday := daysSinceMarch_calendar (marchDate_month days)
    refine ⟨hday.1,day_le_daysInMonth ?_ ?_ (calendarMonth_range (marchDate_month days).1)⟩
    · rw [hday.2,marchYear_calendar (marchDate_month days).1]
      exact hspec.2.2
    · rw [hday.2,marchMonth_calendar (marchDate_month days).1]
      exact (marchDate_month days).2

theorem toDays_ofDays (days : ℤ) : (ofDays days).toDays = days := by
  have hspec := marchDate_spec days
  have hday := (daysSinceMarch_calendar (marchDate_month days)).2
  unfold toDays dayNumber ofDays
  dsimp only
  rw [hday,marchYear_calendar (marchDate_month days).1]
  omega

theorem ofDays_toDays (date : CivilDate) : ofDays date.toDays = date :=
  toDays_injective (toDays_ofDays date.toDays)

def dayEquiv : CivilDate ≃ ℤ := ⟨toDays,ofDays,ofDays_toDays,toDays_ofDays⟩

example : (ofDays 19782).year = 2024 ∧ (ofDays 19782).month = 2 ∧ (ofDays 19782).day = 29 := by decide

theorem year_le_of_toDays {year : ℤ} (date : CivilDate) (h : dayNumber year 1 1 ≤ date.toDays) : year ≤ date.year := by
  by_contra hlt
  have hrange := date.daysSinceMarch_range
  have hmarch := date.marchMonth_eq
  have hmonth := date.month_range
  unfold toDays dayNumber at h
  have hstart : daysSinceMarch 1 1 = 306 := by decide
  have hyear : marchYear year 1 = year - 1 := if_pos (by decide)
  rw [hstart,hyear] at h
  by_cases hearly : date.month ≤ 2
  · -- January and February belong to the year before
    have hdate : marchYear date.year date.month = date.year - 1 := if_pos hearly
    rw [hdate] at h hrange
    have hmono := daysToMarch_mono (show date.year - 1 + 1 ≤ year - 1 by omega)
    omega
  · have hdate : marchYear date.year date.month = date.year := if_neg hearly
    have hmonths : marchMonth date.month = date.month - 3 := if_neg hearly
    rw [hdate] at h
    rw [hmonths] at hmarch
    have hmono := daysToMarch_mono (show date.year ≤ year - 1 by omega)
    omega

theorem exists_date_after (days : ℤ) {month : ℕ} (day : ℕ) (hmonth : 1 ≤ month ∧ month ≤ 12)
    (hday : ∀ year, 1 ≤ day ∧ day ≤ daysInMonth year month) :
    ∃ k : ℕ, 1 ≤ k ∧ k ≤ 366 ∧ ∃ date : CivilDate, ofDays (days + k) = date ∧ date.month = month ∧ date.day = day := by
  obtain ⟨hsum,hlow,hhigh⟩ := marchDate_spec days
  have hbounds := daysToMarch_bounds ((marchDate days).year)
  -- the day lies in this year of March or in the next one
  have hnext : ∀ march, ∃ date : CivilDate, date.month = month ∧ date.day = day ∧
      date.toDays = daysToMarch march + daysSinceMarch month day - 719468 := by
    intro march
    refine ⟨⟨if month ≤ 2 then march + 1 else march,month,day,hmonth,hday _⟩,rfl,rfl,?_⟩
    have hmarch : marchYear (if month ≤ 2 then march + 1 else march) month = march := by
      unfold marchYear
      split_ifs <;> omega
    unfold toDays dayNumber
    dsimp only
    rw [hmarch]
  have hrange : 0 ≤ daysSinceMarch month day ∧ daysSinceMarch month day ≤ 365 := by
    obtain ⟨date,rfl,rfl,_⟩ := hnext 0
    have hdate := date.daysSinceMarch_range
    have hyear := daysToMarch_bounds (marchYear date.year date.month)
    omega
  by_cases hpassed : daysSinceMarch month day ≤ (marchDate days).day
  · obtain ⟨date,hm,hd,hdate⟩ := hnext ((marchDate days).year + 1)
    obtain ⟨k,hk⟩ := Int.eq_ofNat_of_zero_le (show 0 ≤ date.toDays - days by omega)
    refine ⟨k,by omega,by omega,date,?_,hm,hd⟩
    rw [← hk,add_sub_cancel,ofDays_toDays]
  · obtain ⟨date,hm,hd,hdate⟩ := hnext (marchDate days).year
    obtain ⟨k,hk⟩ := Int.eq_ofNat_of_zero_le (show 0 ≤ date.toDays - days by omega)
    refine ⟨k,by omega,by omega,date,?_,hm,hd⟩
    rw [← hk,add_sub_cancel,ofDays_toDays]

theorem exists_weekday_after (days : ℤ) {month : ℕ} (hmonth : 1 ≤ month ∧ month ≤ 12) (offset : ℤ) {weekday : ℕ}
    (hweekday : weekday < 7) :
    ∃ k : ℕ, 1 ≤ k ∧ k ≤ 372 ∧ (ofDays (days + k)).month = month ∧ (days + k + offset) % 7 = weekday := by
  obtain ⟨first,hfirst,hfirst366,date,hdate,hm,hd⟩ := exists_date_after days 1 hmonth
    fun year => ⟨le_rfl,by have := daysInMonth_ge year month; omega⟩
  obtain ⟨k,hk,hk7⟩ : ∃ k : ℕ, (days + first + k + offset) % 7 = weekday ∧ k < 7 :=
    ⟨((weekday - (days + first + offset)) % 7).toNat,by omega,by omega⟩
  have hlater : (⟨date.year,date.month,1 + k,date.month_range,by omega,
      by have := daysInMonth_ge date.year date.month; omega⟩ : CivilDate).toDays = days + first + k := by
    have hstart : date.toDays = days + first := by rw [← hdate,toDays_ofDays]
    unfold toDays dayNumber daysSinceMarch at hstart ⊢
    dsimp only
    rw [hd] at hstart
    push_cast at hstart ⊢
    omega
  refine ⟨first + k,by omega,by omega,?_,?_⟩
  · rw [Nat.cast_add,← add_assoc,← hlater,ofDays_toDays]
    exact hm
  · rw [← hk]
    congr 1
    push_cast
    ring

end CivilDate

end StructureAi.Foundation

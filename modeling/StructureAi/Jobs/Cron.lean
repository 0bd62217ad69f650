import StructureAi.Foundation.Text

/-! # Cron expressions

`parseCron` reads five fields, each a list of steps over ranges, and `nextRun`
walks whole days for the first wall-clock time that matches. What a time zone makes
of an instant is `Intl.DateTimeFormat`'s business and a parameter.
-/
namespace StructureAi.Jobs
open StructureAi.Foundation

structure InvalidCronExpression where
  expression : String
  problems : List String
deriving DecidableEq

/-- A 5-field cron schedule: minute hour day-of-month month day-of-week. -/
structure CronFields where
  minutes : List ℕ
  hours : List ℕ
  daysOfMonth : List ℕ
  months : List ℕ
  daysOfWeek : List ℕ
  domRestricted : Bool
  dowRestricted : Bool
deriving DecidableEq

/-- Name, minimum and maximum of a field. -/
structure FieldRange where
  name : String
  min : ℕ
  max : ℕ

def minuteRange : FieldRange := ⟨"minute",0,59⟩
def hourRange : FieldRange := ⟨"hour",0,23⟩
def dayOfMonthRange : FieldRange := ⟨"day-of-month",1,31⟩
def monthRange : FieldRange := ⟨"month",1,12⟩
def dayOfWeekRange : FieldRange := ⟨"day-of-week",0,6⟩

/-- `RANGES`. -/
def ranges : List FieldRange := [minuteRange,hourRange,dayOfMonthRange,monthRange,dayOfWeekRange]

/-- `DAY_NAMES`, with the digit each name is replaced by. -/
def dayNames : List (List Char × Char) :=
  [(['s','u','n'],'0'),(['m','o','n'],'1'),(['t','u','e'],'2'),(['w','e','d'],'3'),(['t','h','u'],'4'),
    (['f','r','i'],'5'),(['s','a','t'],'6')]

/-- The base of a part of a field: a star, a range or a number. -/
def isRangePart (cs : List Char) : Bool :=
  cs = ['*'] || isDigits cs ||
    match cs.splitOn '-' with
    | [first,last] => isDigits first && isDigits last
    | _ => false

/-- The groups of `/^(\*|\d+-\d+|\d+)(?:\/(\d+))?$/u`. -/
def stepMatch (part : List Char) : Option (List Char × Option (List Char)) :=
  match part.splitOn '/' with
  | [rangePart] => if isRangePart rangePart then some (rangePart,none) else none
  | [rangePart,step] => if isRangePart rangePart && isDigits step then some (rangePart,some step) else none
  | _ => none

/-- `value, value + step, …` as long as it is at most `last`; the fuel bounds the number of steps. -/
def progression (step last : ℕ) : ℕ → ℕ → List ℕ
  | 0,_ => []
  | fuel + 1,value => if value ≤ last then value :: progression step last fuel (value + step) else []

variable (range : FieldRange)

def bounds (rangePart : List Char) : Option ℕ × Option ℕ :=
  if rangePart = ['*'] then (some range.min,some range.max)
  else if '-' ∈ rangePart then
    match rangePart.splitOn '-' with
    | rawFrom :: rawTo :: _ => (number rawFrom,number rawTo)
    | _ => (none,none)
  -- the step is in a group of its own, so a part with a step ends where it begins
  else (number rangePart,if '/' ∈ rangePart then some range.max else number rangePart)

def parsePart (part : List Char) : Except String (List ℕ) :=
  match stepMatch (trim part) with
  | none => .error (range.name ++ ": cannot parse \"" ++ String.ofList part ++ "\"")
  | some (rangePart,rawStep) =>
    match (rawStep.map number).getD (some 1) with
    | none | some 0 => .error (range.name ++ ": step must be a positive integer")
    | some step =>
      match bounds range rangePart with
      | (some first,some last) =>
        if first < range.min ∨ last > range.max ∨ first > last then
          .error (range.name ++ ": values must be within " ++ toString range.min ++ "-" ++ toString range.max)
        else .ok (progression step last (last + 1) first)
      | _ => .error
          (range.name ++ ": values must be within " ++ toString range.min ++ "-" ++ toString range.max)

def parseField (field : List Char) : Except String (List ℕ) := do
  let values ← (field.splitOn ',').mapM (parsePart range)
  return values.flatten.dedup.insertionSort (· ≤ ·)

/-- `\w` of a case-insensitive Unicode pattern, between which `\b` stands. -/
def isWordChar (c : Char) : Bool := c.isAlphanum || c = '_' || c = '\u017f' || c = '\u212a'

/-- A whole word that names a day becomes its number. -/
def replaceDayName (word : List Char) : List Char :=
  match dayNames.lookup (word.map Char.toLower) with
  | some digit => [digit]
  | none => word

/-- The rewriting of `7` and of day names, in every field alike. -/
def normalizeField (part : List Char) : List Char :=
  replaceRuns isWordChar replaceDayName [] (if part = ['7'] then ['0'] else part)

/-- `expression.trim().split(/\s+/u)`. -/
def splitExpression (expression : List Char) : List (List Char) :=
  match wordsOf isWhiteSpace expression with
  | [] => [[]]
  | parts => parts

def problemOf : Except String (List ℕ) → Option String
  | .error problem => some problem
  | .ok _ => none

def parseCron (expression : String) : Except InvalidCronExpression CronFields :=
  match splitExpression expression.toList with
  | [minute,hour,dayOfMonth,month,dayOfWeek] =>
    match parseField minuteRange (normalizeField minute),parseField hourRange (normalizeField hour),
      parseField dayOfMonthRange (normalizeField dayOfMonth),parseField monthRange (normalizeField month),
      parseField dayOfWeekRange (normalizeField dayOfWeek) with
    | .ok minutes,.ok hours,.ok daysOfMonth,.ok months,.ok daysOfWeek =>
      .ok ⟨minutes,hours,daysOfMonth,months,daysOfWeek,daysOfMonth.length ≠ 31,daysOfWeek.length ≠ 7⟩
    | minutes,hours,daysOfMonth,months,daysOfWeek =>
      .error ⟨expression,[minutes,hours,daysOfMonth,months,daysOfWeek].filterMap problemOf⟩
  | parts => .error ⟨expression,
      ["expected 5 fields (minute hour day-of-month month day-of-week), got " ++ toString parts.length]⟩

example : (parseCron "30 2 1 1,7 *").map CronFields.months = .ok [1,7] := by decide +kernel

/-- What a time zone shows at an instant; Sunday is 0. -/
structure WallClock where
  year : ℤ
  month : ℕ
  day : ℕ
  hour : ℕ
  minute : ℕ
  weekday : ℕ

/-- Days from the epoch to a date of the proleptic Gregorian calendar, by 400-year eras. -/
def daysFromCivil (year : ℤ) (month day : ℕ) : ℤ :=
  let y := if month ≤ 2 then year - 1 else year
  let era := y / 400
  let yearOfEra := y - era * 400
  let dayOfYear : ℤ := (153 * (if month > 2 then month - 3 else month + 9) + 2) / 5 + day - 1
  era * 146097 + (yearOfEra * 365 + yearOfEra / 4 - yearOfEra / 100 + dayOfYear) - 719468

/-- `Date.UTC(year, month - 1, day, hour, minute, 0, 0)`, which adds 1900 to a two-digit year. -/
def dateUTC (year : ℤ) (month day hour minute : ℕ) : ℤ :=
  let year := if 0 ≤ year ∧ year ≤ 99 then year + 1900 else year
  ((daysFromCivil year month day * 24 + hour) * 60 + minute) * 60000

variable (wallClockOf : ℤ → WallClock)

def instantFromWallClock (year : ℤ) (month day hour minute : ℕ) : ℤ :=
  let guess := dateUTC year month day hour minute
  let wallAtGuess := wallClockOf guess
  let wallAsUtc := dateUTC wallAtGuess.year wallAtGuess.month wallAtGuess.day wallAtGuess.hour
    wallAtGuess.minute
  guess - (wallAsUtc - guess)

/-- POSIX cron: when both day fields are restricted, either may match. -/
def dayMatches (clock : WallClock) (fields : CronFields) : Bool :=
  if clock.month ∉ fields.months then false
  else
    let domOk := decide (clock.day ∈ fields.daysOfMonth)
    let dowOk := decide (clock.weekday ∈ fields.daysOfWeek)
    if fields.domRestricted && fields.dowRestricted then domOk || dowOk
    else if fields.domRestricted then domOk
    else if fields.dowRestricted then dowOk
    else true

/-- `SEARCH_LIMIT_DAYS`. -/
def searchLimitDays : ℕ := 400

/-- The first matching time of one day after `after`. -/
def nextOnDay (after : ℤ) (fields : CronFields) (clock : WallClock) : Option ℤ :=
  (fields.hours.flatMap fun hour => fields.minutes.map fun minute =>
    instantFromWallClock wallClockOf clock.year clock.month clock.day hour minute).find? fun candidate =>
      candidate > after

/-- The next fire time strictly after `after`. -/
def nextRun (after : ℤ) (fields : CronFields) : Option ℤ :=
  let start := wallClockOf after
  let base := instantFromWallClock wallClockOf start.year start.month start.day 0 0
  (List.range (searchLimitDays + 1)).findSome? fun dayOffset =>
    let dayClock := wallClockOf (base + dayOffset * 86400000)
    if dayMatches dayClock fields then nextOnDay wallClockOf after fields dayClock else none

end StructureAi.Jobs

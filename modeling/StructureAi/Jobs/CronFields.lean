import StructureAi.Jobs.Cron

/-! # What cron fields are documented to mean

An expression is five lists of items, written with digits or day names and with any
whitespace between the fields. Its documented value sets are compared with those
`parseCron` finds in its text.
-/
namespace StructureAi.Jobs
open StructureAi.Foundation

inductive FieldKind where
  | minute
  | hour
  | dayOfMonth
  | month
  | dayOfWeek
deriving DecidableEq

namespace FieldKind

def range : FieldKind → FieldRange
  | minute => minuteRange
  | hour => hourRange
  | dayOfMonth => dayOfMonthRange
  | month => monthRange
  | dayOfWeek => dayOfWeekRange

/-- The greatest number that may be written in the field. -/
def top : FieldKind → ℕ
  | dayOfWeek => 7
  | kind => kind.range.max

/-- What a written number stands for: 7 is Sunday in the day-of-week field. -/
def sunday : FieldKind → ℕ → ℕ
  | dayOfWeek,7 => 0
  | _,n => n

end FieldKind

def CronFields.get (fields : CronFields) : FieldKind → List ℕ
  | .minute => fields.minutes
  | .hour => fields.hours
  | .dayOfMonth => fields.daysOfMonth
  | .month => fields.months
  | .dayOfWeek => fields.daysOfWeek

/-- A number as it is written. -/
structure Numeral where
  digits : List Char
  isDigits : isDigits digits = true

def Numeral.number (n : Numeral) : ℕ := Nat.ofDigitChars 10 n.digits 0

/-- A number or the name of a day in any case. -/
inductive Value where
  | numeral (n : Numeral)
  | day (name : List Char) (digit : Char) (named : dayNames.lookup (name.map Char.toLower) = some digit)

namespace Value

def text : Value → List Char
  | numeral n => n.digits
  | day name _ _ => name

def digits : Value → List Char
  | numeral n => n.digits
  | day _ digit _ => [digit]

def number (v : Value) : ℕ := Nat.ofDigitChars 10 v.digits 0

end Value

inductive Base where
  | all
  | one (v : Value)
  | range (first last : Value)

structure Item where
  base : Base
  step : Option Numeral

namespace Item

/-- The item with its values written in a given way. -/
def write (f : Value → List Char) (item : Item) : List Char :=
  (match item.base with
    | .all => ['*']
    | .one v => f v
    | .range first last => f first ++ '-' :: f last) ++
  (item.step.map fun s => '/' :: s.digits).getD []

def values (item : Item) : List Value :=
  match item.base with
  | .all => []
  | .one v => [v]
  | .range first last => [first,last]

def stepNumber (item : Item) : ℕ := (item.step.map Numeral.number).getD 1

variable (kind : FieldKind)

/-- The step is positive and the values are in range; a range that runs backwards has none. -/
def Valid (item : Item) : Prop :=
  1 ≤ item.stepNumber ∧
    match item.base with
    | .all => True
    | .one v => kind.range.min ≤ v.number ∧ v.number ≤ kind.top
    | .range first last => kind.range.min ≤ first.number ∧ first.number ≤ last.number ∧
        last.number ≤ kind.top

def Gives (item : Item) (w : ℕ) : Prop :=
  match item.base,item.step with
  | .all,_ => ∃ k, w = kind.range.min + k * item.stepNumber ∧ w ≤ kind.range.max
  | .one v,none => w = kind.sunday v.number
  | .one v,some s => ∃ k, w = kind.sunday v.number + k * s.number ∧ w ≤ kind.range.max
  | .range first last,_ => ∃ k, first.number + k * item.stepNumber ≤ last.number ∧
      w = kind.sunday (first.number + k * item.stepNumber)

/-- The documented values of the item without the step of a single value. -/
def GivesUnstepped (item : Item) (w : ℕ) : Prop :=
  match item.base with
  | .one v => w = kind.sunday v.number
  | _ => item.Gives kind w

end Item

structure Field where
  items : List Item
  nonempty : items ≠ []

namespace Field

def write (f : Value → List Char) (field : Field) : List Char :=
  [','].intercalate (field.items.map (Item.write f))

def text (field : Field) : List Char := field.write Value.text

def Numeric (field : Field) : Prop :=
  ∀ item ∈ field.items, ∀ v ∈ item.values, ∃ n, v = .numeral n

variable (kind : FieldKind) (field : Field)

def Valid : Prop := ∀ item ∈ field.items, item.Valid kind

def Gives (w : ℕ) : Prop := ∃ item ∈ field.items, item.Gives kind w

/-- The source of a field reads as documented: 7 is written alone and only for Sunday, steps are
finite as numbers, and a step after a single value adds nothing. -/
structure AsDocumented : Prop where
  seven : field.text = ['7'] → kind = .dayOfWeek
  sunday : kind = .dayOfWeek → field.text ≠ ['7'] →
    ∀ item ∈ field.items, ∀ v ∈ item.values, v.number ≠ 7
  finite : ∀ item ∈ field.items, item.stepNumber < numberLimit
  unstepped : ∀ w, field.Gives kind w → ∃ item ∈ field.items, item.GivesUnstepped kind w

end Field

/-- Whitespace between two fields. -/
structure Gap where
  chars : List Char
  nonempty : chars ≠ []
  space : ∀ c ∈ chars, isWhiteSpace c = true

/-- Five fields with whitespace between and around them; days are named in the last one only. -/
structure Expression where
  field : FieldKind → Field
  numeric : ∀ kind, kind ≠ .dayOfWeek → (field kind).Numeric
  before : List Char
  gap : Fin 4 → Gap
  after : List Char
  space : ∀ c ∈ before ++ after, isWhiteSpace c = true

namespace Expression
variable (e : Expression)

def text : String := String.ofList (e.before ++ ((e.field .minute).text ++ ((e.gap 0).chars ++
  ((e.field .hour).text ++ ((e.gap 1).chars ++ ((e.field .dayOfMonth).text ++ ((e.gap 2).chars ++
  ((e.field .month).text ++ ((e.gap 3).chars ++ ((e.field .dayOfWeek).text ++ e.after))))))))))

def Valid : Prop := ∀ kind, (e.field kind).Valid kind

/-- `parseCron` accepts exactly the valid expressions, with their documented sets. -/
def Meets : Prop :=
  match parseCron e.text with
  | .ok fields => e.Valid ∧ ∀ kind w, w ∈ fields.get kind ↔ (e.field kind).Gives kind w
  | .error _ => ¬ e.Valid

end Expression

section Lists

theorem mem_progression {step last : ℕ} (hs : 1 ≤ step) (w : ℕ) {fuel value : ℕ}
    (hf : last < fuel + value) :
    w ∈ progression step last fuel value ↔ ∃ k, w = value + k * step ∧ w ≤ last := by
  induction fuel generalizing value with
  | zero =>
    rw [progression]
    constructor
    · intro hw
      cases hw
    · rintro ⟨k,rfl,hle⟩
      omega
  | succ fuel ih =>
    rw [progression]
    by_cases hv : value ≤ last
    · rw [if_pos hv,List.mem_cons,ih (by omega)]
      constructor
      · rintro (rfl | ⟨k,rfl,hle⟩)
        · exact ⟨0,by omega,hv⟩
        · exact ⟨k + 1,by ring,hle⟩
      · rintro ⟨k,rfl,hle⟩
        cases k with
        | zero =>
          left
          omega
        | succ k =>
          right
          exact ⟨k,by ring,hle⟩
    · rw [if_neg hv]
      constructor
      · intro hw
        cases hw
      · rintro ⟨k,rfl,hle⟩
        omega

variable {α β ε : Type} {f : α → Except ε β} {xs : List α}

theorem mapM_ok (h : ∀ x ∈ xs, ∃ y, f x = .ok y) :
    ∃ ys, xs.mapM f = .ok ys ∧ ∀ y, y ∈ ys ↔ ∃ x ∈ xs, f x = .ok y := by
  induction xs with
  | nil => exact ⟨[],rfl,by simp⟩
  | cons x xs ih =>
    obtain ⟨y,hy⟩ := h x List.mem_cons_self
    obtain ⟨ys,hys,hmem⟩ := ih fun x' hx' => h x' (List.mem_cons_of_mem x hx')
    refine ⟨y :: ys,?_,?_⟩
    · rw [List.mapM_cons,hy,hys]
      rfl
    · intro z
      simp only [List.mem_cons,hmem,exists_eq_or_imp,hy,Except.ok.injEq]
      exact or_congr_left eq_comm

theorem mapM_error {x : α} {e : ε} (hx : x ∈ xs) (he : f x = .error e) : ∃ e', xs.mapM f = .error e' := by
  induction xs with
  | nil => cases hx
  | cons x' xs ih =>
    rw [List.mapM_cons]
    cases hx' : f x' with
    | error e' => exact ⟨e',rfl⟩
    | ok y =>
      rcases List.mem_cons.mp hx with rfl | hx
      · rw [he] at hx'
        cases hx'
      · obtain ⟨e',he'⟩ := ih hx
        rw [he']
        exact ⟨e',rfl⟩

end Lists

section Text
variable {kind : FieldKind}

theorem isDigits_iff {cs : List Char} : isDigits cs = true ↔ cs ≠ [] ∧ ∀ c ∈ cs, c.isDigit = true := by
  simp [isDigits]

theorem isWordChar_of_isDigit {c : Char} (h : c.isDigit = true) : isWordChar c = true := by
  simp [isWordChar,Char.isAlphanum,h]

theorem isWhiteSpace_of_toNat {c : Char}
    (h : (48 ≤ c.toNat ∧ c.toNat ≤ 122) ∨ c.toNat = 0x17f ∨ c.toNat = 0x212a) : isWhiteSpace c = false := by
  have hnot : ∀ d : Char, d.toNat < 48 ∨ (122 < d.toNat ∧ d.toNat ≠ 0x17f ∧ d.toNat ≠ 0x212a) → c ≠ d := by
    rintro d hd rfl
    omega
  simp only [isWhiteSpace,Bool.or_eq_false_iff,Bool.and_eq_false_iff,decide_eq_false_iff_not,List.mem_cons,
    List.not_mem_nil,or_false,not_or]
  constructor
  · refine ⟨?_,?_,?_,?_,?_,?_,?_,?_,?_,?_,?_,?_,?_,?_⟩ <;> exact hnot _ (by decide)
  · omega

theorem isWhiteSpace_of_isWordChar {c : Char} (h : isWordChar c = true) : isWhiteSpace c = false := by
  apply isWhiteSpace_of_toNat
  simp only [isWordChar,Char.isAlphanum,Char.isAlpha,Char.isUpper,Char.isLower,Char.isDigit,Bool.or_eq_true,
    Bool.and_eq_true,decide_eq_true_eq,UInt32.le_iff_toNat_le,ge_iff_le] at h
  rcases h with ((((⟨hlow,hhigh⟩ | ⟨hlow,hhigh⟩) | ⟨hlow,hhigh⟩) | rfl) | rfl) | rfl
  · have hlow : 65 ≤ c.toNat := hlow
    have hhigh : c.toNat ≤ 90 := hhigh
    omega
  · have hlow : 97 ≤ c.toNat := hlow
    have hhigh : c.toNat ≤ 122 := hhigh
    omega
  · have hlow : 48 ≤ c.toNat := hlow
    have hhigh : c.toNat ≤ 57 := hhigh
    omega
  · left
    decide
  · right
    left
    rfl
  · right
    right
    rfl

theorem isWhiteSpace_of_isDigit {c : Char} (h : c.isDigit = true) : isWhiteSpace c = false :=
  isWhiteSpace_of_isWordChar (isWordChar_of_isDigit h)

theorem isWordChar_of_toLower {c : Char} (h : c.toLower.isAlpha = true) : isWordChar c = true := by
  have halpha : c.isAlpha = true := by
    by_cases hu : c.isUpper = true
    · simp [Char.isAlpha,hu]
    · have hsame : c.toLower = c := by
        unfold Char.toLower
        rw [dif_neg]
        simpa [Char.isUpper] using hu
      rw [hsame] at h
      exact h
  simp [isWordChar,Char.isAlphanum,halpha]

theorem mem_dayNames {name : List Char} {digit : Char} (h : dayNames.lookup name = some digit) :
    (name,digit) ∈ dayNames := by
  obtain ⟨before,after,hl,-⟩ := List.lookup_eq_some_iff.mp h
  rw [hl]
  exact List.mem_append_right before List.mem_cons_self

namespace Value

theorem isDigits_digits (v : Value) : isDigits v.digits = true := by
  cases v with
  | numeral n => exact n.isDigits
  | day name digit named =>
    have hall : ∀ p ∈ dayNames, isDigits [p.2] = true := by decide
    exact hall _ (mem_dayNames named)

theorem text_word (v : Value) : ∀ c ∈ v.text, isWordChar c = true := by
  cases v with
  | numeral n =>
    intro c hc
    exact isWordChar_of_isDigit ((isDigits_iff.mp n.isDigits).2 c hc)
  | day name digit named =>
    have hall : ∀ p ∈ dayNames, ∀ c ∈ p.1, c.isAlpha = true := by simp [dayNames]
    intro c hc
    exact isWordChar_of_toLower (hall _ (mem_dayNames named) _ (List.mem_map_of_mem hc))

theorem replaceDayName_digits {cs : List Char} (h : isDigits cs = true) : replaceDayName cs = cs := by
  have hkeys : ∀ p ∈ dayNames, ∃ c ∈ p.1, c.isDigit = false := by simp [dayNames]
  have hnone : dayNames.lookup (cs.map Char.toLower) = none := by
    cases hl : dayNames.lookup (cs.map Char.toLower) with
    | none => rfl
    | some digit =>
      obtain ⟨c,hc,hdigit⟩ := hkeys _ (mem_dayNames hl)
      obtain ⟨d,hd,rfl⟩ := List.mem_map.mp hc
      have hlower : d.toLower = d := by
        have hdd := (isDigits_iff.mp h).2 d hd
        unfold Char.toLower
        rw [dif_neg]
        simp only [Char.isDigit,Bool.and_eq_true,decide_eq_true_eq] at hdd
        intro hup
        exact absurd (UInt32.le_trans hup.1 hdd.2) (by decide)
      rw [hlower,(isDigits_iff.mp h).2 d hd] at hdigit
      cases hdigit
  rw [replaceDayName,hnone]

theorem replaceDayName_text (v : Value) : replaceDayName v.text = v.digits := by
  cases v with
  | numeral n => exact replaceDayName_digits n.isDigits
  | day name digit named => simp only [replaceDayName,text,digits,named]

end Value

/-- What `parseField` splits at is not a digit. -/
theorem not_mem_digits {cs : List Char} (h : isDigits cs = true) {c : Char} (hc : c.isDigit = false) :
    c ∉ cs := by
  intro hmem
  rw [(isDigits_iff.mp h).2 c hmem] at hc
  cases hc

namespace Item

theorem replaceRuns_write (item : Item) {rest : List Char}
    (hrest : ∀ c ∈ rest.head?, isWordChar c = false) :
    replaceRuns isWordChar replaceDayName [] (item.write Value.text ++ rest) =
      item.write Value.digits ++ replaceRuns isWordChar replaceDayName [] rest := by
  have hslash : isWordChar '/' = false := by decide
  have hdash : isWordChar '-' = false := by decide
  have hstar : isWordChar '*' = false := by decide
  have hempty : replaceDayName [] = [] := by decide
  -- the step is a run of digits, which no name is
  have hstep : replaceRuns isWordChar replaceDayName []
      (((item.step.map fun s => '/' :: s.digits).getD []) ++ rest) =
        (item.step.map fun s => '/' :: s.digits).getD [] ++
          replaceRuns isWordChar replaceDayName [] rest := by
    cases item.step with
    | none => rfl
    | some s =>
      simp only [Option.map_some,Option.getD_some,List.cons_append]
      rw [replaceRuns_skip hempty hslash,replaceRuns_word hempty
        (fun c hc => isWordChar_of_isDigit ((isDigits_iff.mp s.isDigits).2 c hc)) hrest,
        Value.replaceDayName_digits s.isDigits]
  have hhead : ∀ c ∈ ((item.step.map fun s => '/' :: s.digits).getD [] ++ rest).head?,
      isWordChar c = false := by
    cases item.step with
    | none => exact hrest
    | some s =>
      intro c hc
      simp only [Option.map_some,Option.getD_some,List.cons_append,List.head?_cons,Option.mem_def,
        Option.some.injEq] at hc
      rw [← hc]
      exact hslash
  unfold write
  cases item.base with
  | all =>
    simp only [List.cons_append,List.nil_append]
    rw [replaceRuns_skip hempty hstar,hstep]
  | one v =>
    simp only [List.append_assoc]
    rw [replaceRuns_word hempty v.text_word hhead,v.replaceDayName_text,hstep]
  | range first last =>
    simp only [List.append_assoc,List.cons_append]
    rw [replaceRuns_word hempty first.text_word
        (fun c hc => by simp only [List.head?_cons,Option.mem_def,Option.some.injEq] at hc; rw [← hc]; exact hdash),
      first.replaceDayName_text,replaceRuns_skip hempty hdash,replaceRuns_word hempty last.text_word hhead,
      last.replaceDayName_text,hstep]

end Item

namespace Field

theorem normalizeField_text {field : Field} (h : field.text ≠ ['7']) :
    normalizeField field.text = field.write Value.digits := by
  have hcomma : isWordChar ',' = false := by decide
  have hempty : replaceDayName [] = [] := by decide
  have hlist : ∀ items : List Item, items ≠ [] → replaceRuns isWordChar replaceDayName []
      ([','].intercalate (items.map (Item.write Value.text))) =
        [','].intercalate (items.map (Item.write Value.digits)) := by
    intro items hne
    induction items with
    | nil => exact absurd rfl hne
    | cons item items ih =>
      cases items with
      | nil =>
        simp only [List.map_cons,List.map_nil,List.intercalate_singleton]
        have hitem : replaceRuns isWordChar replaceDayName [] (item.write Value.text ++ []) =
            item.write Value.digits ++ replaceRuns isWordChar replaceDayName [] [] :=
          item.replaceRuns_write (by simp)
        rwa [List.append_nil,replaceRuns,List.reverse_nil,hempty,List.append_nil] at hitem
      | cons item' items =>
        have hrest := ih (List.cons_ne_nil item' items)
        simp only [List.map_cons] at hrest
        simp only [List.map_cons,List.intercalate_cons_cons,List.append_assoc,List.singleton_append]
        rw [item.replaceRuns_write (by simpa using hcomma),replaceRuns_skip hempty hcomma,hrest]
  rw [normalizeField,if_neg h]
  exact hlist field.items field.nonempty

end Field
end Text

section Parsing
variable {kind : FieldKind}

namespace Item

def rangePart (item : Item) : List Char :=
  match item.base with
  | .all => ['*']
  | .one v => v.digits
  | .range first last => first.digits ++ '-' :: last.digits

def first (kind : FieldKind) (item : Item) : ℕ :=
  match item.base with
  | .all => kind.range.min
  | .one v => v.number
  | .range first _ => first.number

def last (kind : FieldKind) (item : Item) : ℕ :=
  match item.base with
  | .all => kind.range.max
  | .one v => v.number
  | .range _ last => last.number

/-- What `parsePart` accepts. -/
structure Accepted (kind : FieldKind) (item : Item) : Prop where
  positive : 1 ≤ item.stepNumber
  finite : item.stepNumber < numberLimit
  min_le : kind.range.min ≤ item.first kind
  first_le : item.first kind ≤ item.last kind
  le_max : item.last kind ≤ kind.range.max

variable (item : Item)

theorem write_digits : item.write Value.digits =
    item.rangePart ++ (item.step.map fun s => '/' :: s.digits).getD [] := rfl

theorem mem_rangePart {c : Char} (hc : c ∈ item.rangePart) : c.isDigit = true ∨ c = '*' ∨ c = '-' := by
  have hdigits : ∀ v : Value, ∀ d ∈ v.digits, d.isDigit = true :=
    fun v => (isDigits_iff.mp v.isDigits_digits).2
  unfold rangePart at hc
  split at hc
  · right
    left
    exact List.mem_singleton.mp hc
  · exact Or.inl (hdigits _ c hc)
  · rcases List.mem_append.mp hc with hc | hc
    · exact Or.inl (hdigits _ c hc)
    · rcases List.mem_cons.mp hc with hc | hc
      · exact Or.inr (Or.inr hc)
      · exact Or.inl (hdigits _ c hc)

theorem mem_write {c : Char} (hc : c ∈ item.write Value.digits) :
    c.isDigit = true ∨ c = '*' ∨ c = '-' ∨ c = '/' := by
  rw [write_digits] at hc
  rcases List.mem_append.mp hc with hc | hc
  · rcases item.mem_rangePart hc with h | h | h
    · exact Or.inl h
    · exact Or.inr (Or.inl h)
    · exact Or.inr (Or.inr (Or.inl h))
  · cases hs : item.step with
    | none =>
      rw [hs] at hc
      cases hc
    | some s =>
      rw [hs] at hc
      rcases List.mem_cons.mp hc with hc | hc
      · exact Or.inr (Or.inr (Or.inr hc))
      · exact Or.inl ((isDigits_iff.mp s.isDigits).2 c hc)

theorem splitOn_range (first last : Value) :
    (first.digits ++ '-' :: last.digits).splitOn '-' = [first.digits,last.digits] := by
  rw [List.splitOn_append_cons_self_of_not_mem (not_mem_digits first.isDigits_digits (by decide)),
    List.splitOn_eq_singleton (not_mem_digits last.isDigits_digits (by decide))]

theorem isRangePart_rangePart : isRangePart item.rangePart = true := by
  unfold rangePart
  cases item.base with
  | all => decide
  | one v =>
    dsimp only
    simp only [isRangePart,v.isDigits_digits,Bool.or_true,Bool.true_or]
  | range first last =>
    dsimp only
    rw [isRangePart,splitOn_range]
    simp only [first.isDigits_digits,last.isDigits_digits,Bool.and_self,Bool.or_true]

theorem trim_write : trim (item.write Value.digits) = item.write Value.digits := by
  apply trimOf_eq_self
  intro c hc
  rcases item.mem_write hc with h | rfl | rfl | rfl
  · exact isWhiteSpace_of_isDigit h
  · decide
  · decide
  · decide

theorem stepMatch_write : stepMatch (trim (item.write Value.digits)) =
    some (item.rangePart,item.step.map Numeral.digits) := by
  have hslash : '/' ∉ item.rangePart := by
    intro hmem
    have h := item.mem_rangePart hmem
    revert h
    decide
  rw [trim_write,write_digits,stepMatch]
  cases item.step with
  | none =>
    simp only [Option.map_none,Option.getD_none,List.append_nil,List.splitOn_eq_singleton hslash]
    rw [if_pos item.isRangePart_rangePart]
  | some s =>
    simp only [Option.map_some,Option.getD_some]
    rw [List.splitOn_append_cons_self_of_not_mem hslash,
      List.splitOn_eq_singleton (not_mem_digits s.isDigits (by decide))]
    dsimp only
    rw [item.isRangePart_rangePart,s.isDigits]
    rfl

theorem bounds_rangePart : bounds kind.range item.rangePart =
    match item.base with
    | .all => (some kind.range.min,some kind.range.max)
    | .one v => (Foundation.number v.digits,Foundation.number v.digits)
    | .range first last => (Foundation.number first.digits,Foundation.number last.digits) := by
  have hstar : ∀ v : Value, '*' ∉ v.digits := fun v => not_mem_digits v.isDigits_digits (by decide)
  unfold rangePart
  cases item.base with
  | all => rfl
  | one v =>
    have hne : v.digits ≠ ['*'] := by
      intro h
      apply hstar v
      rw [h]
      exact List.mem_singleton_self '*'
    dsimp only
    rw [bounds,if_neg hne,if_neg (not_mem_digits v.isDigits_digits (by decide)),
      if_neg (not_mem_digits v.isDigits_digits (by decide))]
  | range first last =>
    have hne : first.digits ++ '-' :: last.digits ≠ ['*'] := by
      intro h
      have hmem : '-' ∈ ['*'] := h ▸ List.mem_append_right first.digits List.mem_cons_self
      revert hmem
      decide
    dsimp only
    rw [bounds,if_neg hne,if_pos (List.mem_append_right first.digits List.mem_cons_self),splitOn_range]

theorem number_of_lt {v : List Char} {n : ℕ} (hv : Nat.ofDigitChars 10 v 0 = n) (h : n < numberLimit) :
    Foundation.number v = some n := by
  rw [Foundation.number,hv,if_pos h]

theorem max_lt (kind : FieldKind) : kind.range.max < numberLimit := by
  have hmax : kind.range.max < 64 := by cases kind <;> decide
  exact hmax.trans_le le_numberLimit

theorem step_eq : ((item.step.map Numeral.digits).map Foundation.number).getD (some 1) =
    if item.stepNumber < numberLimit then some item.stepNumber else none := by
  rw [stepNumber]
  cases item.step with
  | none =>
    have hone : 1 < numberLimit := le_trans (by decide) le_numberLimit
    simp only [Option.map_none,Option.getD_none]
    rw [if_pos hone]
  | some s => rfl

theorem parsePart_ok {item : Item} (h : item.Accepted kind) : ∃ vs,
    parsePart kind.range (item.write Value.digits) = .ok vs ∧
      ∀ w, w ∈ vs ↔ ∃ k, w = item.first kind + k * item.stepNumber ∧ w ≤ item.last kind := by
  have hbounds : bounds kind.range item.rangePart = (some (item.first kind),some (item.last kind)) := by
    have hlast := h.le_max.trans_lt (max_lt kind)
    have hfirst := h.first_le.trans_lt hlast
    rw [bounds_rangePart]
    unfold first at hfirst ⊢
    unfold last at hlast ⊢
    cases hb : item.base with
    | all => rfl
    | one v =>
      simp only [hb] at hfirst ⊢
      rw [number_of_lt rfl hfirst]
      rfl
    | range a b =>
      simp only [hb] at hfirst hlast ⊢
      rw [number_of_lt rfl hfirst,number_of_lt rfl hlast]
      rfl
  obtain ⟨s,hs⟩ : ∃ s, item.stepNumber = s + 1 := ⟨item.stepNumber - 1,by have := h.positive; omega⟩
  refine ⟨progression item.stepNumber (item.last kind) (item.last kind + 1) (item.first kind),?_,?_⟩
  · rw [parsePart,stepMatch_write]
    simp only [step_eq,if_pos h.finite]
    rw [hs]
    simp only [hbounds]
    rw [if_neg]
    intro hbad
    have h1 := h.min_le
    have h2 := h.first_le
    have h3 := h.le_max
    omega
  · intro w
    exact mem_progression h.positive w (by omega)

theorem parsePart_error {item : Item} (h : ¬ item.Accepted kind) : ∃ problem,
    parsePart kind.range (item.write Value.digits) = .error problem := by
  rw [parsePart,stepMatch_write]
  simp only [step_eq]
  by_cases hfin : item.stepNumber < numberLimit
  · rw [if_pos hfin]
    cases hs : item.stepNumber with
    | zero => exact ⟨_,rfl⟩
    | succ s =>
      have hbad : ∀ first last, bounds kind.range item.rangePart = (some first,some last) →
          first < kind.range.min ∨ last > kind.range.max ∨ first > last := by
        intro first' last' hb
        have hends : item.first kind = first' ∧ item.last kind = last' := by
          have hnumber : ∀ {cs : List Char} {n : ℕ}, Foundation.number cs = some n →
              Nat.ofDigitChars 10 cs 0 = n := by
            intro cs n hn
            simp only [Foundation.number] at hn
            split at hn
            · exact Option.some.inj hn
            · cases hn
          rw [bounds_rangePart] at hb
          unfold first last
          cases hbase : item.base with
          | all =>
            simp only [hbase,Prod.mk.injEq,Option.some.injEq] at hb
            exact hb
          | one v =>
            simp only [hbase,Prod.mk.injEq] at hb
            exact ⟨hnumber hb.1,hnumber hb.2⟩
          | range a b =>
            simp only [hbase,Prod.mk.injEq] at hb
            exact ⟨hnumber hb.1,hnumber hb.2⟩
        by_contra hgood
        apply h
        constructor <;> omega
      rcases hb : bounds kind.range item.rangePart with ⟨first' | first',last' | last'⟩
      · exact ⟨_,rfl⟩
      · exact ⟨_,rfl⟩
      · exact ⟨_,rfl⟩
      · exact ⟨_,if_pos (hbad first' last' hb)⟩
  · rw [if_neg hfin]
    exact ⟨_,rfl⟩

end Item

theorem splitOn_write (field : Field) :
    (field.write Value.digits).splitOn ',' = field.items.map (Item.write Value.digits) := by
  apply List.splitOn_intercalate
  · intro part hpart hmem
    obtain ⟨item,-,rfl⟩ := List.mem_map.mp hpart
    have h := item.mem_write hmem
    revert h
    decide
  · simpa using field.nonempty

variable {field : Field}

theorem parseField_ok (h : ∀ item ∈ field.items, item.Accepted kind) : ∃ vs,
    parseField kind.range (field.write Value.digits) = .ok vs ∧ ∀ w, w ∈ vs ↔
      ∃ item ∈ field.items, ∃ k, w = item.first kind + k * item.stepNumber ∧ w ≤ item.last kind := by
  have hall : ∀ part ∈ field.items.map (Item.write Value.digits), ∃ vs, parsePart kind.range part = .ok vs := by
    intro part hpart
    obtain ⟨item,hitem,rfl⟩ := List.mem_map.mp hpart
    obtain ⟨vs,hvs,-⟩ := Item.parsePart_ok (h item hitem)
    exact ⟨vs,hvs⟩
  obtain ⟨values,hvalues,hmem⟩ := mapM_ok hall
  refine ⟨values.flatten.dedup.insertionSort (· ≤ ·),?_,?_⟩
  · rw [parseField,splitOn_write,hvalues]
    rfl
  · intro w
    rw [List.mem_insertionSort,List.mem_dedup,List.mem_flatten]
    constructor
    · rintro ⟨vs,hvs,hw⟩
      obtain ⟨part,hpart,hok⟩ := (hmem vs).mp hvs
      obtain ⟨item,hitem,rfl⟩ := List.mem_map.mp hpart
      obtain ⟨vs',hvs',hvalue⟩ := Item.parsePart_ok (h item hitem)
      rw [hok] at hvs'
      obtain rfl := Except.ok.inj hvs'
      exact ⟨item,hitem,(hvalue w).mp hw⟩
    · rintro ⟨item,hitem,hw⟩
      obtain ⟨vs,hvs,hvalue⟩ := Item.parsePart_ok (h item hitem)
      exact ⟨vs,(hmem vs).mpr ⟨_,List.mem_map_of_mem hitem,hvs⟩,(hvalue w).mpr hw⟩

theorem parseField_error {item : Item} (hitem : item ∈ field.items) (h : ¬ item.Accepted kind) :
    ∃ problem, parseField kind.range (field.write Value.digits) = .error problem := by
  obtain ⟨problem,hproblem⟩ := Item.parsePart_error h
  obtain ⟨problem',hproblem'⟩ := mapM_error (List.mem_map_of_mem hitem) hproblem
  rw [parseField,splitOn_write,hproblem']
  exact ⟨problem',rfl⟩

end Parsing

section Meaning
variable {kind : FieldKind}

theorem FieldKind.sunday_of_le {n : ℕ} (h : n ≤ kind.range.max) : kind.sunday n = n := by
  unfold sunday
  split
  · exact absurd h (by decide)
  · rfl

theorem FieldKind.max_le_top : kind.range.max ≤ kind.top := by
  cases kind <;> decide

namespace Item
variable {item : Item}

theorem Accepted.valid (h : item.Accepted kind) : item.Valid kind := by
  have h1 := h.min_le
  have h2 := h.first_le
  have h3 := h.le_max.trans FieldKind.max_le_top
  unfold first at h1 h2
  unfold last at h2 h3
  constructor
  · exact h.positive
  · cases hb : item.base with
    | all => trivial
    | one v =>
      simp only [hb] at h1 h3
      exact ⟨h1,h3⟩
    | range a b =>
      simp only [hb] at h1 h2 h3
      exact ⟨h1,h2,h3⟩

theorem Accepted.number_le (h : item.Accepted kind) {v : Value} (hv : v ∈ item.values) :
    v.number ≤ kind.range.max := by
  have h2 := h.first_le
  have h3 := h.le_max
  unfold first at h2
  unfold last at h2 h3
  unfold values at hv
  cases hb : item.base with
  | all =>
    rw [hb] at hv
    cases hv
  | one v' =>
    simp only [hb,List.mem_singleton] at hv h3
    rw [hv]
    exact h3
  | range a b =>
    simp only [hb,List.mem_cons,List.not_mem_nil,or_false] at hv h2 h3
    rcases hv with rfl | rfl
    · exact h2.trans h3
    · exact h3

theorem accepted_of_valid (h : item.Valid kind) (hf : item.stepNumber < numberLimit)
    (hs : kind = .dayOfWeek → ∀ v ∈ item.values, v.number ≠ 7) : item.Accepted kind := by
  have hmax : ∀ v ∈ item.values, v.number ≤ kind.top → v.number ≤ kind.range.max := by
    intro v hv hle
    cases kind with
    | dayOfWeek =>
      have hne := hs rfl v hv
      change v.number ≤ 7 at hle
      change v.number ≤ 6
      omega
    | _ => exact hle
  obtain ⟨hpos,hbase⟩ := h
  unfold values at hmax
  cases hb : item.base with
  | all =>
    refine ⟨hpos,hf,?_,?_,?_⟩ <;> simp only [first,last,hb]
    · exact le_rfl
    · cases kind <;> decide
    · exact le_rfl
  | one v =>
    simp only [hb] at hbase hmax
    refine ⟨hpos,hf,?_,?_,?_⟩ <;> simp only [first,last,hb]
    · exact hbase.1
    · exact le_rfl
    · exact hmax v List.mem_cons_self hbase.2
  | range a b =>
    simp only [hb] at hbase hmax
    refine ⟨hpos,hf,?_,?_,?_⟩ <;> simp only [first,last,hb]
    · exact hbase.1
    · exact hbase.2.1
    · exact hmax b (by simp) hbase.2.2

/-- What `parsePart` finds is what the item gives without the step of a single value. -/
theorem Accepted.reach_iff (h : item.Accepted kind) (w : ℕ) :
    (∃ k, w = item.first kind + k * item.stepNumber ∧ w ≤ item.last kind) ↔
      item.GivesUnstepped kind w := by
  have hle := h.le_max
  unfold first GivesUnstepped
  unfold last at hle ⊢
  cases hb : item.base with
  | all => simp only [Gives,hb]
  | one v =>
    simp only [hb] at hle
    simp only [FieldKind.sunday_of_le hle]
    constructor
    · rintro ⟨k,hw,hlast⟩
      omega
    · rintro rfl
      exact ⟨0,by omega,le_rfl⟩
  | range a b =>
    simp only [hb] at hle
    simp only [Gives,hb]
    constructor
    · rintro ⟨k,rfl,hlast⟩
      exact ⟨k,hlast,(FieldKind.sunday_of_le (hlast.trans hle)).symm⟩
    · rintro ⟨k,hlast,rfl⟩
      rw [FieldKind.sunday_of_le (hlast.trans hle)]
      exact ⟨k,rfl,hlast⟩

theorem Accepted.gives (h : item.Accepted kind) {w : ℕ} (hw : item.GivesUnstepped kind w) :
    item.Gives kind w := by
  have hle := h.le_max
  unfold last at hle
  unfold GivesUnstepped at hw
  cases hb : item.base with
  | all =>
    simp only [hb] at hw
    exact hw
  | one v =>
    simp only [hb] at hw hle
    unfold Gives
    simp only [hb]
    cases item.step with
    | none => exact hw
    | some s =>
      refine ⟨0,by omega,?_⟩
      rw [hw,FieldKind.sunday_of_le hle]
      exact hle
  | range a b =>
    simp only [hb] at hw
    exact hw

end Item

namespace Field
variable {field : Field}

/-- The only field `/^7$/` matches. -/
theorem text_seven (h : field.text = ['7']) : ∃ v : Value, field.items = [⟨.one v,none⟩] ∧ v.number = 7 := by
  have hin : ∀ c ∈ field.text, c = '7' := by
    rw [h]
    exact fun c hc => List.mem_singleton.mp hc
  obtain ⟨items,hne⟩ := field
  cases items with
  | nil => exact absurd rfl hne
  | cons item items =>
    cases items with
    | cons item' items =>
      have hcomma := hin ',' (by simp [text,write,List.intercalate_cons_cons])
      exact absurd hcomma (by decide)
    | nil =>
      obtain ⟨base,step⟩ := item
      have hwrite : Item.write Value.text ⟨base,step⟩ = ['7'] := by
        simpa [text,write] using h
      cases step with
      | some s =>
        have hslash : '/' ∈ ['7'] := by
          rw [← hwrite]
          simp [Item.write]
        exact absurd hslash (by decide)
      | none =>
        cases base with
        | all =>
          have hstar : ['*'] = ['7'] := hwrite
          exact absurd hstar (by decide)
        | range a b =>
          have hdash : '-' ∈ ['7'] := by
            rw [← hwrite]
            simp [Item.write]
          exact absurd hdash (by decide)
        | one v =>
          have hv : v.text = ['7'] := by simpa [Item.write] using hwrite
          cases v with
          | numeral n =>
            refine ⟨_,rfl,?_⟩
            change n.digits = ['7'] at hv
            change Nat.ofDigitChars 10 n.digits 0 = 7
            rw [hv]
            rfl
          | day name digit named =>
            change name = ['7'] at hv
            have hnone : dayNames.lookup (['7'].map Char.toLower) = none := rfl
            rw [hv,hnone] at named
            cases named

theorem gives_seven {v : Value} (h : field.items = [⟨.one v,none⟩]) (hv : v.number = 7) (w : ℕ) :
    field.Gives kind w ↔ w = kind.sunday 7 := by
  simp only [Gives,h,List.mem_singleton,exists_eq_left,Item.Gives,hv]

theorem valid_seven {v : Value} (h : field.items = [⟨.one v,none⟩]) (hv : v.number = 7) :
    field.Valid kind ↔ kind.range.min ≤ 7 ∧ 7 ≤ kind.top := by
  simp only [Valid,h,List.mem_singleton,forall_eq,Item.Valid,hv]
  exact and_iff_right le_rfl

theorem asDocumented_seven {v : Value} (ht : field.text = ['7']) (h : field.items = [⟨.one v,none⟩])
    (hv : v.number = 7) : field.AsDocumented kind ↔ kind = .dayOfWeek := by
  constructor
  · exact fun hdoc => hdoc.seven ht
  · rintro rfl
    constructor
    · exact fun _ => rfl
    · exact fun _ hne => absurd ht hne
    · intro item hitem
      rw [h,List.mem_singleton] at hitem
      rw [hitem]
      change 1 < numberLimit
      exact lt_of_lt_of_le (by decide) le_numberLimit
    · intro w hw
      rw [gives_seven h hv] at hw
      refine ⟨⟨.one v,none⟩,by simp [h],?_⟩
      rw [hw,← hv]
      rfl

/-- An accepted field is valid, and has its documented set exactly when its source reads as documented. -/
theorem parseField_text_ok {vs : List ℕ} (h : parseField kind.range (normalizeField field.text) = .ok vs) :
    field.Valid kind ∧ ((∀ w, w ∈ vs ↔ field.Gives kind w) ↔ field.AsDocumented kind) := by
  by_cases ht : field.text = ['7']
  · obtain ⟨v,hitems,hv⟩ := text_seven ht
    have hvs : parseField kind.range ['0'] = .ok vs := by
      rw [ht] at h
      exact h
    rw [valid_seven hitems hv,asDocumented_seven ht hitems hv]
    simp only [gives_seven hitems hv]
    have hzero : ∀ k : FieldKind, k.range.min = 0 → parseField k.range ['0'] = .ok [0] := by
      intro k hk
      cases k with
      | minute | hour | dayOfWeek => decide +kernel
      | dayOfMonth | month => cases hk
    have hone : ∀ k : FieldKind, k.range.min = 1 → (parseField k.range ['0']).toOption = none := by
      intro k hk
      cases k with
      | minute | hour | dayOfWeek => cases hk
      | dayOfMonth | month => decide +kernel
    have hzero := hzero kind
    have hone := hone kind
    cases kind with
    | dayOfMonth | month =>
      have hnone := hone rfl
      rw [hvs] at hnone
      cases hnone
    | minute | hour =>
      rw [hzero rfl] at hvs
      obtain rfl := Except.ok.inj hvs
      refine ⟨by decide,⟨fun hall => ?_,fun hk => by cases hk⟩⟩
      have hmem := (hall 7).mpr rfl
      exact absurd hmem (by decide)
    | dayOfWeek =>
      rw [hzero rfl] at hvs
      obtain rfl := Except.ok.inj hvs
      refine ⟨by decide,⟨fun _ => rfl,fun _ w => List.mem_singleton⟩⟩
  · rw [normalizeField_text ht] at h
    have hacc : ∀ item ∈ field.items, item.Accepted kind := by
      intro item hitem
      by_contra hbad
      obtain ⟨problem,hproblem⟩ := parseField_error hitem hbad
      rw [hproblem] at h
      cases h
    obtain ⟨vs',hvs',hmem⟩ := parseField_ok hacc
    rw [hvs'] at h
    obtain rfl := Except.ok.inj h
    have hunstepped : ∀ w, w ∈ vs' ↔ ∃ item ∈ field.items, item.GivesUnstepped kind w := by
      intro w
      rw [hmem]
      constructor
      · rintro ⟨item,hitem,hw⟩
        exact ⟨item,hitem,((hacc item hitem).reach_iff w).mp hw⟩
      · rintro ⟨item,hitem,hw⟩
        exact ⟨item,hitem,((hacc item hitem).reach_iff w).mpr hw⟩
    constructor
    · exact fun item hitem => (hacc item hitem).valid
    · constructor
      · intro hall
        constructor
        · exact fun heq => absurd heq ht
        · rintro rfl - item hitem v hv hseven
          have hle := (hacc item hitem).number_le hv
          rw [hseven] at hle
          exact absurd hle (by decide)
        · exact fun item hitem => (hacc item hitem).finite
        · exact fun w hw => (hunstepped w).mp ((hall w).mpr hw)
      · intro hdoc w
        rw [hunstepped]
        constructor
        · rintro ⟨item,hitem,hw⟩
          exact ⟨item,hitem,(hacc item hitem).gives hw⟩
        · exact hdoc.unstepped w

theorem parseField_text_error {problem : String}
    (h : parseField kind.range (normalizeField field.text) = .error problem) (hvalid : field.Valid kind) :
    ¬ field.AsDocumented kind := by
  intro hdoc
  by_cases ht : field.text = ['7']
  · obtain rfl := hdoc.seven ht
    rw [ht] at h
    have hok : (parseField FieldKind.dayOfWeek.range (normalizeField ['7'])).toOption = some [0] := by
      decide +kernel
    rw [h] at hok
    cases hok
  · have hacc : ∀ item ∈ field.items, item.Accepted kind := fun item hitem =>
      Item.accepted_of_valid (hvalid item hitem) (hdoc.finite item hitem)
        fun hk => hdoc.sunday hk ht item hitem
    obtain ⟨vs,hvs,-⟩ := parseField_ok hacc
    rw [normalizeField_text ht,hvs] at h
    cases h

theorem text_ne_nil (field : Field) : field.text ≠ [] := by
  have hvalue : ∀ v : Value, v.text ≠ [] := by
    intro v
    cases v with
    | numeral n => exact (isDigits_iff.mp n.isDigits).1
    | day name digit named =>
      rintro rfl
      cases named
  have hitem : ∀ item : Item, item.write Value.text ≠ [] := by
    intro item h
    obtain ⟨base,step⟩ := item
    have hbase := (List.append_eq_nil_iff.mp h).1
    cases base with
    | all => cases hbase
    | one v => exact hvalue v hbase
    | range first last => exact hvalue first (List.append_eq_nil_iff.mp hbase).1
  obtain ⟨items,hne⟩ := field
  cases items with
  | nil => exact absurd rfl hne
  | cons item items =>
    cases items with
    | nil => simpa [text,write] using hitem item
    | cons item' items => simp [text,write,List.intercalate_cons_cons,hitem item]

theorem text_not_space (field : Field) : ∀ c ∈ field.text, isWhiteSpace c = false := by
  have hvalue : ∀ v : Value, ∀ c ∈ v.text, isWhiteSpace c = false :=
    fun v c hc => isWhiteSpace_of_isWordChar (v.text_word c hc)
  have hitem : ∀ item : Item, ∀ c ∈ item.write Value.text, isWhiteSpace c = false := by
    intro item c hc
    obtain ⟨base,step⟩ := item
    rcases List.mem_append.mp hc with hc | hc
    · cases base with
      | all =>
        rw [List.mem_singleton.mp hc]
        decide
      | one v => exact hvalue v c hc
      | range first last =>
        rcases List.mem_append.mp hc with hc | hc
        · exact hvalue first c hc
        · rcases List.mem_cons.mp hc with rfl | hc
          · decide
          · exact hvalue last c hc
    · cases step with
      | none => cases hc
      | some s =>
        rcases List.mem_cons.mp hc with rfl | hc
        · decide
        · exact isWhiteSpace_of_isDigit ((isDigits_iff.mp s.isDigits).2 c hc)
  have hlist : ∀ items : List Item, ∀ c ∈ [','].intercalate (items.map (Item.write Value.text)),
      isWhiteSpace c = false := by
    intro items
    induction items with
    | nil =>
      intro c hc
      cases hc
    | cons item items ih =>
      intro c hc
      cases items with
      | nil =>
        rw [List.map_cons,List.map_nil,List.intercalate_singleton] at hc
        exact hitem item c hc
      | cons item' items =>
        simp only [List.map_cons,List.intercalate_cons_cons,List.append_assoc,List.mem_append] at hc ih
        rcases hc with hc | hc | hc
        · exact hitem item c hc
        · rw [List.mem_singleton.mp hc]
          decide
        · exact ih c hc
  exact hlist field.items

end Field

namespace Expression
variable (e : Expression)

theorem splitExpression_text : splitExpression e.text.toList =
    [(e.field .minute).text,(e.field .hour).text,(e.field .dayOfMonth).text,(e.field .month).text,
      (e.field .dayOfWeek).text] := by
  have hbefore : ∀ c ∈ e.before, isWhiteSpace c = true :=
    fun c hc => e.space c (List.mem_append_left e.after hc)
  have hafter : ∀ c ∈ e.after, isWhiteSpace c = true :=
    fun c hc => e.space c (List.mem_append_right e.before hc)
  have hword : ∀ kind i rest, wordsOf isWhiteSpace ((e.field kind).text ++ ((e.gap i).chars ++ rest)) =
      (e.field kind).text :: wordsOf isWhiteSpace rest := fun kind i rest =>
    wordsOf_word (e.field kind).text_ne_nil (e.field kind).text_not_space (e.gap i).nonempty (e.gap i).space
  rw [splitExpression,text,String.toList_ofList,wordsOf_gap hbefore,hword,hword,hword,hword,
    wordsOf_last (e.field .dayOfWeek).text_ne_nil (e.field .dayOfWeek).text_not_space hafter]

/-- What `parseField` makes of a field. -/
def outcome (kind : FieldKind) : Except String (List ℕ) :=
  parseField kind.range (normalizeField (e.field kind).text)

theorem parseCron_text : parseCron e.text =
    match e.outcome .minute,e.outcome .hour,e.outcome .dayOfMonth,e.outcome .month,e.outcome .dayOfWeek with
    | .ok minutes,.ok hours,.ok daysOfMonth,.ok months,.ok daysOfWeek =>
      .ok ⟨minutes,hours,daysOfMonth,months,daysOfWeek,daysOfMonth.length ≠ 31,daysOfWeek.length ≠ 7⟩
    | minutes,hours,daysOfMonth,months,daysOfWeek =>
      .error ⟨e.text,[minutes,hours,daysOfMonth,months,daysOfWeek].filterMap problemOf⟩ := by
  rw [parseCron,splitExpression_text]
  rfl

theorem parseCron_ok {fields : CronFields} (h : parseCron e.text = .ok fields) (kind : FieldKind) :
    e.outcome kind = .ok (fields.get kind) := by
  rw [parseCron_text] at h
  split at h
  · rename_i h1 h2 h3 h4 h5
    obtain rfl := Except.ok.inj h
    cases kind with
    | minute => exact h1
    | hour => exact h2
    | dayOfMonth => exact h3
    | month => exact h4
    | dayOfWeek => exact h5
  · cases h

theorem parseCron_error {err : InvalidCronExpression} (h : parseCron e.text = .error err) :
    ∃ kind problem, e.outcome kind = .error problem := by
  by_contra hnone
  push Not at hnone
  have hok : ∀ kind, ∃ vs, e.outcome kind = .ok vs := by
    intro kind
    cases hk : e.outcome kind with
    | error problem => exact absurd hk (hnone kind problem)
    | ok vs => exact ⟨vs,rfl⟩
  obtain ⟨minutes,h1⟩ := hok .minute
  obtain ⟨hours,h2⟩ := hok .hour
  obtain ⟨daysOfMonth,h3⟩ := hok .dayOfMonth
  obtain ⟨months,h4⟩ := hok .month
  obtain ⟨daysOfWeek,h5⟩ := hok .dayOfWeek
  rw [parseCron_text,h1,h2,h3,h4,h5] at h
  cases h

/-- `parseCron` reads an expression as documented exactly when it is invalid anyway or all its
fields read as documented. -/
theorem meets_iff : e.Meets ↔
    (∃ kind, ¬ (e.field kind).Valid kind) ∨ ∀ kind, (e.field kind).AsDocumented kind := by
  unfold Meets
  cases h : parseCron e.text with
  | ok fields =>
    have hfield := fun kind => Field.parseField_text_ok (e.parseCron_ok h kind)
    have hvalid : e.Valid := fun kind => (hfield kind).1
    constructor
    · rintro ⟨-,hgives⟩
      exact Or.inr fun kind => (hfield kind).2.mp (hgives kind)
    · rintro (⟨kind,hbad⟩ | hdoc)
      · exact absurd (hvalid kind) hbad
      · exact ⟨hvalid,fun kind => (hfield kind).2.mpr (hdoc kind)⟩
  | error err =>
    obtain ⟨kind,problem,hproblem⟩ := e.parseCron_error h
    constructor
    · exact fun hbad => Or.inl (not_forall.mp hbad)
    · rintro (⟨k,hbad⟩ | hdoc) hvalid
      · exact hbad (hvalid k)
      · exact Field.parseField_text_error hproblem (hvalid kind) (hdoc kind)

/-- `0/10 * * * *`. -/
def everyTenthMinute : Expression where
  field
    | .minute => ⟨[⟨.one (.numeral ⟨['0'],by decide⟩),some ⟨['1','0'],by decide⟩⟩],by simp⟩
    | _ => ⟨[⟨.all,none⟩],by simp⟩
  numeric := by
    intro kind _ item hitem v hv
    cases kind <;> simp only [List.mem_singleton] at hitem <;> subst hitem <;> simp [Item.values] at hv
    exact ⟨_,hv⟩
  before := []
  gap := fun _ => ⟨[' '],by simp,by simp [isWhiteSpace]⟩
  after := []
  space := by simp

theorem everyTenthMinute_not_meets : ¬ ∀ e : Expression, e.Meets := by
  intro hall
  have hok : (parseCron everyTenthMinute.text).map CronFields.minutes = .ok [0] := by decide +kernel
  have hmeets := hall everyTenthMinute
  unfold Meets at hmeets
  cases h : parseCron everyTenthMinute.text with
  | error err =>
    rw [h] at hok
    cases hok
  | ok fields =>
    rw [h] at hok hmeets
    have hminutes : fields.minutes = [0] := Except.ok.inj hok
    have hten : 10 ∈ fields.minutes := (hmeets.2 .minute 10).mpr ⟨_,List.mem_singleton_self _,1,rfl,by decide⟩
    rw [hminutes] at hten
    exact absurd hten (by decide)

end Expression
end Meaning

end StructureAi.Jobs

import StructureAi.Foundation.Decimal

/-! # Printing and reading decimals

`Decimal.text` is the `Number::toString` layout of a mantissa of `k` digits and
a decimal point after digit `n`. `readDecimal` is the JSON number grammar. The
round trip goes through one lemma on the grammar's pieces, which each layout
instantiates with its own integer part, fraction and exponent.
-/
namespace StructureAi.Foundation

/-- The layouts of a positive number of digits `m`, for `n = k + exponent`. -/
def magnitudeText (m : ℕ) (exponent : ℤ) : List Char :=
  let ds := Nat.toDigits 10 m
  let n : ℤ := ds.length + exponent
  if 0 ≤ exponent ∧ n ≤ 21 then ds ++ List.replicate exponent.toNat '0'
  else if 0 < n ∧ n ≤ 21 then ds.take n.toNat ++ '.' :: ds.drop n.toNat
  else if -6 < n ∧ n ≤ 0 then '0' :: '.' :: (List.replicate (-n).toNat '0' ++ ds)
  else ds.take 1 ++ (if ds.length = 1 then [] else '.' :: ds.drop 1) ++
    'e' :: (if 0 < n - 1 then '+' else '-') :: Nat.toDigits 10 (n - 1).natAbs

def Decimal.text (d : Decimal) : List Char :=
  if d.mantissa = 0 then ['0'] else
    (if d.mantissa < 0 then ['-'] else []) ++ magnitudeText d.mantissa.natAbs d.exponent

/-- Optional fraction: the digits after the point and the remaining text. -/
def readFraction : List Char → Option (List Char × List Char)
  | '.' :: r => if r.takeWhile Char.isDigit = [] then none
      else some (r.takeWhile Char.isDigit,r.dropWhile Char.isDigit)
  | r => some ([],r)

def readExponentDigits (sign : ℤ) (r : List Char) : Option (ℤ × List Char) :=
  if r.takeWhile Char.isDigit = [] then none
  else some (sign * Nat.ofDigitChars 10 (r.takeWhile Char.isDigit) 0,r.dropWhile Char.isDigit)

/-- Optional exponent: its value and the remaining text. -/
def readExponent : List Char → Option (ℤ × List Char)
  | c :: r => if c = 'e' ∨ c = 'E' then
      match r with
      | '+' :: r' => readExponentDigits 1 r'
      | '-' :: r' => readExponentDigits (-1) r'
      | r' => readExponentDigits 1 r'
    else some (0,c :: r)
  | [] => some (0,[])

def IntegerPart (ip : List Char) : Prop := ip ≠ [] ∧ (ip.head? = some '0' → ip = ['0'])

instance (ip : List Char) : Decidable (IntegerPart ip) := by unfold IntegerPart; infer_instance

def readUnsigned (sign : ℤ) (r : List Char) : Option (Decimal × List Char) :=
  if IntegerPart (r.takeWhile Char.isDigit) then
    match readFraction (r.dropWhile Char.isDigit) with
    | none => none
    | some (fp,r₁) =>
      match readExponent r₁ with
      | none => none
      | some (e,r₂) => some (Decimal.ofScaled
          (sign * Nat.ofDigitChars 10 (r.takeWhile Char.isDigit ++ fp) 0) (e - fp.length),r₂)
  else none

def readDecimal : List Char → Option (Decimal × List Char)
  | '-' :: r => readUnsigned (-1) r
  | r => readUnsigned 1 r

def NumberEnd (rest : List Char) : Prop :=
  ∀ c ∈ rest.head?, c.isDigit = false ∧ c ≠ '.' ∧ c ≠ 'e' ∧ c ≠ 'E'

@[simp] theorem numberEnd_nil : NumberEnd [] := by simp [NumberEnd]

theorem NumberEnd.no_digit {rest : List Char} (h : NumberEnd rest) :
    rest.takeWhile Char.isDigit = [] ∧ rest.dropWhile Char.isDigit = rest := by
  cases rest with
  | nil => simp
  | cons c rest => simp [(h c rfl).1]

theorem takeWhile_digits {ds rest : List Char} (hd : ∀ c ∈ ds, c.isDigit = true)
    (hr : rest.takeWhile Char.isDigit = []) : (ds ++ rest).takeWhile Char.isDigit = ds := by
  rw [List.takeWhile_append_of_pos hd,hr,List.append_nil]

theorem dropWhile_digits {ds rest : List Char} (hd : ∀ c ∈ ds, c.isDigit = true)
    (hr : rest.dropWhile Char.isDigit = rest) : (ds ++ rest).dropWhile Char.isDigit = rest := by
  rw [List.dropWhile_append_of_pos hd,hr]

theorem isDigit_toDigits (n : ℕ) : ∀ c ∈ Nat.toDigits 10 n, c.isDigit = true :=
  fun _ h => Nat.isDigit_of_mem_toDigits (by decide) (by decide) h

/-- The exponent suffix as printed, absent for `none`. -/
def exponentText : Option ℤ → List Char
  | none => []
  | some e => 'e' :: (if 0 < e then '+' else '-') :: Nat.toDigits 10 e.natAbs

def fractionText (fp : List Char) : List Char := if fp = [] then [] else '.' :: fp

theorem readExponent_text (e : Option ℤ) {rest : List Char} (hr : NumberEnd rest) :
    readExponent (exponentText e ++ rest) = some (e.getD 0,rest) := by
  have hn := hr.no_digit
  cases e with
  | none =>
    cases rest with
    | nil => rfl
    | cons c rest =>
      obtain ⟨-,-,he,hE⟩ := hr c rfl
      simp [exponentText,readExponent,he,hE]
  | some e =>
    have ht := takeWhile_digits (isDigit_toDigits e.natAbs) hn.1
    have hd := dropWhile_digits (isDigit_toDigits e.natAbs) hn.2
    by_cases h : 0 < e
    · simp only [exponentText,if_pos h,List.cons_append,readExponent,readExponentDigits,ht,hd,
        Nat.toDigits_ne_nil,Nat.ofDigitChars_ten_toDigits]
      simp [abs_of_pos h]
    · simp only [exponentText,if_neg h,List.cons_append,readExponent,readExponentDigits,ht,hd,
        Nat.toDigits_ne_nil,Nat.ofDigitChars_ten_toDigits]
      simp [abs_of_nonpos (not_lt.mp h)]

theorem readExponent_text_no_digit (e : Option ℤ) {rest : List Char} (hr : NumberEnd rest) :
    (exponentText e ++ rest).takeWhile Char.isDigit = [] ∧
      (exponentText e ++ rest).dropWhile Char.isDigit = exponentText e ++ rest := by
  cases e with
  | none => exact hr.no_digit
  | some e => simp [exponentText]

theorem readFraction_text {fp : List Char} (hfp : ∀ c ∈ fp, c.isDigit = true) (e : Option ℤ)
    {rest : List Char} (hr : NumberEnd rest) :
    readFraction (fractionText fp ++ (exponentText e ++ rest)) = some (fp,exponentText e ++ rest) := by
  have hn := readExponent_text_no_digit e hr
  by_cases h : fp = []
  · subst h
    cases e with
    | some e => rfl
    | none =>
      cases rest with
      | nil => rfl
      | cons c rest =>
        have hc := (hr c rfl).2.1
        simp only [fractionText,exponentText,List.nil_append,if_true]
        unfold readFraction
        split
        · simp_all
        · rfl
  · simp only [fractionText,if_neg h,List.cons_append,readFraction,takeWhile_digits hfp hn.1,
      dropWhile_digits hfp hn.2]

theorem readUnsigned_text (sign : ℤ) {ip fp : List Char} (hip : ∀ c ∈ ip, c.isDigit = true)
    (hz : IntegerPart ip) (hfp : ∀ c ∈ fp, c.isDigit = true) (e : Option ℤ)
    {rest : List Char} (hr : NumberEnd rest) :
    readUnsigned sign (ip ++ (fractionText fp ++ (exponentText e ++ rest))) =
      some (Decimal.ofScaled (sign * Nat.ofDigitChars 10 (ip ++ fp) 0) (e.getD 0 - fp.length),
        rest) := by
  have hn : (fractionText fp ++ (exponentText e ++ rest)).takeWhile Char.isDigit = [] ∧
      (fractionText fp ++ (exponentText e ++ rest)).dropWhile Char.isDigit =
        fractionText fp ++ (exponentText e ++ rest) := by
    by_cases h : fp = []
    · simpa [fractionText,h] using readExponent_text_no_digit e hr
    · simp [fractionText,h]
  simp only [readUnsigned,takeWhile_digits hip hn.1,dropWhile_digits hip hn.2,if_pos hz,
    readFraction_text hfp e hr,readExponent_text e hr]

theorem toDigits_head_ne_zero {n : ℕ} (hn : n ≠ 0) : (Nat.toDigits 10 n).head? ≠ some '0' := by
  induction n using Nat.strong_induction_on with
  | _ n ih =>
    rcases Nat.lt_or_ge n 10 with h | h
    · rw [Nat.toDigits_of_lt_base h]
      interval_cases n <;> simp_all
    · rw [Nat.toDigits_of_base_le (by decide) h]
      have hq := ih (n / 10) (by omega) (by omega)
      cases hd : Nat.toDigits 10 (n / 10) with
      | nil => exact absurd hd Nat.toDigits_ne_nil
      | cons c r => simpa [hd] using hq

/-- Digits of a positive number, which no leading zero can precede. -/
structure LeadingDigits (ds : List Char) : Prop where
  ne_nil : ds ≠ []
  head_ne : ds.head? ≠ some '0'

theorem LeadingDigits.integerPart {ds : List Char} (h : LeadingDigits ds) : IntegerPart ds :=
  ⟨h.ne_nil,fun h' => absurd h' h.head_ne⟩

theorem LeadingDigits.append {ds : List Char} (h : LeadingDigits ds) (r : List Char) :
    LeadingDigits (ds ++ r) := by
  obtain ⟨hne,hz⟩ := h
  cases ds with
  | nil => exact absurd rfl hne
  | cons c ds => exact ⟨by simp,by simpa using hz⟩

theorem LeadingDigits.take {ds : List Char} (h : LeadingDigits ds) {n : ℕ} (hn : 0 < n) :
    LeadingDigits (ds.take n) := by
  obtain ⟨hne,hz⟩ := h
  obtain ⟨n,rfl⟩ : ∃ k, n = k + 1 := ⟨n - 1,by omega⟩
  cases ds with
  | nil => exact absurd rfl hne
  | cons c ds => exact ⟨by simp,by simpa using hz⟩

theorem isDigit_replicate (k : ℕ) : ∀ c ∈ List.replicate k '0', c.isDigit = true := by
  intro c hc
  rw [List.eq_of_mem_replicate hc]
  rfl

theorem forall_digit_nil : ∀ c ∈ ([] : List Char), c.isDigit = true := by simp

theorem isDigit_zero : ∀ c ∈ ['0'], c.isDigit = true := by simp

theorem forall_digit_append {xs ys : List Char} (hx : ∀ c ∈ xs, c.isDigit = true)
    (hy : ∀ c ∈ ys, c.isDigit = true) : ∀ c ∈ xs ++ ys, c.isDigit = true := by
  intro c hc
  rcases List.mem_append.mp hc with hc | hc
  · exact hx c hc
  · exact hy c hc

theorem readUnsigned_magnitudeText (sign : ℤ) {m : ℕ} (hm : m ≠ 0) (exponent : ℤ)
    {rest : List Char} (hr : NumberEnd rest) :
    readUnsigned sign (magnitudeText m exponent ++ rest) =
      some (Decimal.ofScaled (sign * m) exponent,rest) := by
  have hd := isDigit_toDigits m
  have hz : LeadingDigits (Nat.toDigits 10 m) := ⟨Nat.toDigits_ne_nil,toDigits_head_ne_zero hm⟩
  have hv : Nat.ofDigitChars 10 (Nat.toDigits 10 m) 0 = m := Nat.ofDigitChars_ten_toDigits
  simp only [magnitudeText]
  generalize Nat.toDigits 10 m = ds at hd hz hv
  have hlen : 0 < ds.length := List.length_pos_of_ne_nil hz.ne_nil
  split
  next h =>
    -- trailing zeros up to the point
    have ht := readUnsigned_text sign (forall_digit_append hd (isDigit_replicate exponent.toNat))
      (hz.append _).integerPart forall_digit_nil none hr
    have hs : sign * ((10 ^ exponent.toNat * m : ℕ) : ℤ) = sign * m * 10 ^ exponent.toNat := by
      push_cast
      ring
    have he : (none : Option ℤ).getD 0 - (([] : List Char).length : ℤ) + exponent.toNat = exponent := by
      simp [h.1]
    rw [List.append_nil,Nat.ofDigitChars_append,hv,Nat.ofDigitChars_replicate_zero,hs,
      Decimal.ofScaled_mul_pow,he] at ht
    exact ht
  next h1 =>
    split
    next h =>
      -- the point falls between two digits
      have hpos : 0 < (ds.length + exponent).toNat := by omega
      have hdrop : ds.drop (ds.length + exponent).toNat ≠ [] := by
        rw [Ne,List.drop_eq_nil_iff]
        omega
      have hdt : ∀ c ∈ ds.take (ds.length + exponent).toNat, c.isDigit = true :=
        fun c hc => hd c (List.mem_of_mem_take hc)
      have hdd : ∀ c ∈ ds.drop (ds.length + exponent).toNat, c.isDigit = true :=
        fun c hc => hd c (List.mem_of_mem_drop hc)
      have ht := readUnsigned_text sign hdt (hz.take hpos).integerPart hdd none hr
      have he : (none : Option ℤ).getD 0 - ((ds.drop (ds.length + exponent).toNat).length : ℤ) =
          exponent := by
        rw [List.length_drop,Option.getD_none]
        omega
      rw [List.take_append_drop,hv,he] at ht
      simpa only [fractionText,if_neg hdrop,exponentText,List.append_assoc,List.cons_append,
        List.nil_append] using ht
    next h2 =>
      split
      next h =>
        -- leading zeros after the point
        have hne : List.replicate (-(ds.length + exponent)).toNat '0' ++ ds ≠ [] := by
          simp [hz.ne_nil]
        have ht := readUnsigned_text sign isDigit_zero (by decide)
          (forall_digit_append (isDigit_replicate (-(ds.length + exponent)).toNat) hd) none hr
        have hvs : Nat.ofDigitChars 10 (['0'] ++
            (List.replicate (-(ds.length + exponent)).toNat '0' ++ ds)) 0 = m := by
          rw [List.singleton_append,Nat.ofDigitChars_cons,Nat.ofDigitChars_append]
          simpa using hv
        have he : (none : Option ℤ).getD 0 -
            ((List.replicate (-(ds.length + exponent)).toNat '0' ++ ds).length : ℤ) = exponent := by
          rw [List.length_append,List.length_replicate,Option.getD_none]
          omega
        rw [hvs,he] at ht
        simpa only [fractionText,if_neg hne,exponentText,List.append_assoc,List.cons_append,
          List.nil_append] using ht
      next h3 =>
        -- one digit before the point and an exponent
        have hdt : ∀ c ∈ ds.take 1, c.isDigit = true := fun c hc => hd c (List.mem_of_mem_take hc)
        have hdd : ∀ c ∈ ds.drop 1, c.isDigit = true := fun c hc => hd c (List.mem_of_mem_drop hc)
        have ht := readUnsigned_text sign hdt (hz.take one_pos).integerPart hdd
          (some (ds.length + exponent - 1)) hr
        have he : (some ((ds.length : ℤ) + exponent - 1)).getD 0 - ((ds.drop 1).length : ℤ) =
            exponent := by
          rw [List.length_drop,Option.getD_some]
          omega
        have hone : ds.drop 1 = [] ↔ ds.length = 1 := by
          rw [List.drop_eq_nil_iff]
          omega
        rw [List.take_append_drop,hv,he] at ht
        simpa only [fractionText,hone,exponentText,List.append_assoc,List.cons_append,
          List.nil_append] using ht

theorem magnitudeText_head (m : ℕ) (exponent : ℤ) :
    ∃ c r, magnitudeText m exponent = c :: r ∧ c.isDigit = true := by
  have hd := isDigit_toDigits m
  have hne : Nat.toDigits 10 m ≠ [] := Nat.toDigits_ne_nil
  simp only [magnitudeText]
  generalize Nat.toDigits 10 m = ds at hd hne
  obtain ⟨c,r,rfl⟩ := List.exists_cons_of_ne_nil hne
  have hc := hd c List.mem_cons_self
  split
  next => exact ⟨c,_,rfl,hc⟩
  next =>
    split
    next h =>
      obtain ⟨k,hk⟩ : ∃ k, (((c :: r).length : ℤ) + exponent).toNat = k + 1 :=
        ⟨(((c :: r).length : ℤ) + exponent).toNat - 1,by omega⟩
      exact ⟨c,_,by rw [hk]; rfl,hc⟩
    next =>
      split
      next => exact ⟨'0',_,rfl,rfl⟩
      next => exact ⟨c,_,rfl,hc⟩

theorem Decimal.text_head (d : Decimal) : ∃ c r, d.text = c :: r ∧ (c = '-' ∨ c.isDigit = true) := by
  by_cases h : d.mantissa = 0
  · exact ⟨'0',[],by simp [Decimal.text,h],Or.inr rfl⟩
  · obtain ⟨c,r,hc,hd⟩ := magnitudeText_head d.mantissa.natAbs d.exponent
    by_cases hneg : d.mantissa < 0
    · exact ⟨'-',c :: r,by simp [Decimal.text,h,hneg,hc],Or.inl rfl⟩
    · exact ⟨c,r,by simp [Decimal.text,h,hneg,hc],Or.inr hd⟩

theorem readDecimal_text (d : Decimal) {rest : List Char} (hr : NumberEnd rest) :
    readDecimal (d.text ++ rest) = some (d,rest) := by
  by_cases h : d.mantissa = 0
  · obtain ⟨m,e,hred⟩ := d
    obtain rfl : m = 0 := h
    obtain rfl : e = 0 := by simpa using hred
    have ht := readUnsigned_text 1 isDigit_zero (by decide) forall_digit_nil none hr
    simpa [Decimal.text,readDecimal,fractionText,exponentText,Nat.ofDigitChars_cons] using ht
  · have habs : d.mantissa.natAbs ≠ 0 := Int.natAbs_ne_zero.mpr h
    by_cases hneg : d.mantissa < 0
    · have hm : -1 * (d.mantissa.natAbs : ℤ) = d.mantissa := by omega
      simp only [Decimal.text,if_neg h,if_pos hneg,List.cons_append,List.nil_append,readDecimal,
        readUnsigned_magnitudeText (-1) habs d.exponent hr,hm,Decimal.ofScaled_self]
    · have hm : 1 * (d.mantissa.natAbs : ℤ) = d.mantissa := by omega
      have ht := readUnsigned_magnitudeText 1 habs d.exponent hr
      rw [hm,Decimal.ofScaled_self] at ht
      obtain ⟨c,r,hc,hd⟩ := magnitudeText_head d.mantissa.natAbs d.exponent
      have hc' : c ≠ '-' := by rintro rfl; exact absurd hd (by decide)
      simp only [Decimal.text,if_neg h,if_neg hneg,List.nil_append]
      rw [hc] at ht ⊢
      unfold readDecimal
      split
      · simp_all
      · exact ht

def IsNumberChar (c : Char) : Prop := c.isDigit = true ∨ c ∈ ['-','+','.','e']

theorem isNumberChar_magnitudeText (m : ℕ) (exponent : ℤ) :
    ∀ c ∈ magnitudeText m exponent, IsNumberChar c := by
  have digits : ∀ {ds : List Char}, (∀ c ∈ ds, c.isDigit = true) → ∀ c ∈ ds, IsNumberChar c :=
    fun h c hc => Or.inl (h c hc)
  have append : ∀ {xs ys : List Char}, (∀ c ∈ xs, IsNumberChar c) → (∀ c ∈ ys, IsNumberChar c) →
      ∀ c ∈ xs ++ ys, IsNumberChar c := by
    intro xs ys hx hy c hc
    rcases List.mem_append.mp hc with hc | hc
    · exact hx c hc
    · exact hy c hc
  have cons : ∀ {x : Char} {xs : List Char}, x.isDigit = true ∨ x ∈ ['-','+','.','e'] →
      (∀ c ∈ xs, IsNumberChar c) → ∀ c ∈ x :: xs, IsNumberChar c :=
    fun hx hxs => List.forall_mem_cons.mpr ⟨hx,hxs⟩
  have hd := isDigit_toDigits m
  simp only [magnitudeText]
  generalize Nat.toDigits 10 m = ds at hd
  have htake : ∀ n, ∀ c ∈ ds.take n, c.isDigit = true := fun n c hc => hd c (List.mem_of_mem_take hc)
  have hdrop : ∀ n, ∀ c ∈ ds.drop n, c.isDigit = true := fun n c hc => hd c (List.mem_of_mem_drop hc)
  split
  · exact append (digits hd) (digits (isDigit_replicate _))
  split
  · exact append (digits (htake _)) (cons (Or.inr (by simp)) (digits (hdrop _)))
  split
  · exact cons (Or.inl rfl) (cons (Or.inr (by simp)) (append (digits (isDigit_replicate _)) (digits hd)))
  · refine append (append (digits (htake _)) ?_)
      (cons (Or.inr (by simp)) (cons ?_ (digits (isDigit_toDigits _))))
    · split
      · exact digits forall_digit_nil
      · exact cons (Or.inr (by simp)) (digits (hdrop _))
    · right
      split <;> simp

theorem Decimal.isNumberChar_text (d : Decimal) : ∀ c ∈ d.text, IsNumberChar c := by
  intro c hc
  unfold Decimal.text at hc
  split at hc
  · exact Or.inl (isDigit_zero c hc)
  rcases List.mem_append.mp hc with hc | hc
  · right
    split at hc <;> simp_all
  · exact isNumberChar_magnitudeText _ _ c hc

end StructureAi.Foundation

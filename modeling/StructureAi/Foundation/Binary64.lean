import StructureAi.Foundation.Numeral

/-! # Numbers as they are kept

A number is rounded to the nearest one that binary64 has; what is beyond the largest is no finite number. Signed
zeros are one zero.
-/
namespace StructureAi.Foundation
variable {x : ℚ} {n e : ℤ}

/-- The exponent of the last place of a number. -/
def lastPlace (x : ℚ) : ℤ := max (Int.log 2 |x| - 52) (-1074)

/-- To the nearest integer, to the even one of two. -/
def roundEven (x : ℚ) : ℤ :=
  if x - ⌊x⌋ < 1 / 2 then ⌊x⌋
  else if 1 / 2 < x - ⌊x⌋ then ⌊x⌋ + 1
  else if ⌊x⌋ % 2 = 0 then ⌊x⌋
  else ⌊x⌋ + 1

/-- The number of so many places that is nearest. -/
def nearest (x : ℚ) : ℚ := roundEven (x / 2 ^ lastPlace x) * 2 ^ lastPlace x

/-- `none` is no finite number. -/
def binary64 (x : ℚ) : Option ℚ := if |nearest x| < 2 ^ 1024 then some (nearest x) else none

theorem roundEven_intCast (n : ℤ) : roundEven n = n := by
  unfold roundEven
  rw [Int.floor_intCast,sub_self,if_pos (by norm_num)]

theorem abs_roundEven_le (x : ℚ) : |(roundEven x : ℚ)| ≤ |x| + 1 := by
  have hfloor := Int.floor_le x
  have hnext := Int.lt_floor_add_one x
  have hlower : |(⌊x⌋ : ℚ)| ≤ |x| + 1 := by
    rw [abs_le]
    have hneg := neg_abs_le x
    have hpos := le_abs_self x
    constructor <;> linarith
  have hupper : |((⌊x⌋ + 1 : ℤ) : ℚ)| ≤ |x| + 1 := by
    push_cast
    rw [abs_le]
    have hneg := neg_abs_le x
    have hpos := le_abs_self x
    constructor <;> linarith
  unfold roundEven
  repeat' split
  all_goals assumption

theorem lastPlace_le {k : ℕ} (h : |x| < 2 ^ k) : lastPlace x ≤ (k : ℤ) - 53 ∨ lastPlace x ≤ -52 := by
  unfold lastPlace
  by_cases hzero : |x| ≤ 0
  · rw [Int.log_of_right_le_zero 2 hzero]
    omega
  · have hlog : Int.log 2 |x| < k := by
      apply (Int.lt_zpow_iff_log_lt (by decide) (not_le.mp hzero)).mp
      exact_mod_cast h
    omega

theorem abs_roundEven_le_pow {k : ℕ} (h : |x| < 2 ^ k) : |roundEven x| ≤ 2 ^ k := by
  obtain ⟨hlow,hhigh⟩ := abs_lt.mp h
  have hfloor : -2 ^ k ≤ ⌊x⌋ := by
    apply Int.le_floor.mpr
    push_cast
    exact hlow.le
  have hnext : ⌊x⌋ < 2 ^ k := by
    apply Int.floor_lt.mpr
    push_cast
    exact hhigh
  unfold roundEven
  rw [abs_le]
  repeat' split
  all_goals omega

theorem nearest_zero : nearest 0 = 0 := by
  have h := roundEven_intCast 0
  rw [Int.cast_zero] at h
  rw [nearest,zero_div,h,Int.cast_zero,zero_mul]

theorem nearest_of_lastPlace_le (h : lastPlace (n * 2 ^ e) ≤ e) : nearest (n * 2 ^ e) = n * 2 ^ e := by
  obtain ⟨k,hk⟩ := Int.eq_ofNat_of_zero_le (sub_nonneg.mpr h)
  have hscaled : (n * 2 ^ e : ℚ) / 2 ^ lastPlace (n * 2 ^ e) = ((n * 2 ^ k : ℤ) : ℚ) := by
    rw [mul_div_assoc,← zpow_sub₀ two_ne_zero,hk]
    push_cast
    rw [zpow_natCast]
  have hunit : (2 : ℚ) ^ lastPlace (n * 2 ^ e) ≠ 0 := zpow_ne_zero _ two_ne_zero
  rw [nearest,hscaled,roundEven_intCast,← hscaled,div_mul_cancel₀ _ hunit]

theorem nearest_of_lt (he : -1074 ≤ e) (h : |n| < 2 ^ 53) : nearest (n * 2 ^ e) = n * 2 ^ e := by
  rcases eq_or_ne n 0 with rfl | hn
  · rw [Int.cast_zero,zero_mul,nearest_zero]
  · apply nearest_of_lastPlace_le
    have hpos : 0 < |(n * 2 ^ e : ℚ)| := abs_pos.mpr (mul_ne_zero (Int.cast_ne_zero.mpr hn) (zpow_ne_zero e two_ne_zero))
    have hbound : |(n * 2 ^ e : ℚ)| < (2 : ℕ) ^ (53 + e) := by
      rw [abs_mul,abs_of_pos (zpow_pos (two_pos : (0 : ℚ) < 2) e),Nat.cast_two,zpow_add₀ two_ne_zero]
      gcongr
      exact_mod_cast h
    have hlog := (Int.lt_zpow_iff_log_lt (by decide) hpos).mp hbound
    unfold lastPlace
    omega

/-- Also the least magnitude that needs one place more is kept. -/
theorem nearest_of_le (he : -1074 ≤ e) (h : |n| ≤ 2 ^ 53) : nearest (n * 2 ^ e) = n * 2 ^ e := by
  rcases h.lt_or_eq with hlt | heq
  · exact nearest_of_lt he hlt
  · obtain ⟨m,rfl⟩ : (2 : ℤ) ∣ n := by
      rw [← dvd_abs,heq]
      exact dvd_pow_self 2 (by decide)
    have hcarry : ((2 * m : ℤ) : ℚ) * 2 ^ e = m * 2 ^ (e + 1) := by
      push_cast
      rw [zpow_add_one₀ two_ne_zero]
      ring
    rw [hcarry]
    rw [abs_mul,abs_two] at heq
    exact nearest_of_lt (by omega) (by omega)

theorem abs_lt_lastPlace (x : ℚ) : |x / 2 ^ lastPlace x| < 2 ^ 53 := by
  have hpos : (0 : ℚ) < 2 ^ lastPlace x := zpow_pos two_pos _
  have hself : |x| < (2 : ℕ) ^ (Int.log 2 |x| + 1) := Int.lt_zpow_succ_log_self (by decide) |x|
  have hle : (2 : ℚ) ^ (Int.log 2 |x| + 1) ≤ 2 ^ (53 + lastPlace x) := by
    apply zpow_le_zpow_right₀ one_le_two
    unfold lastPlace
    omega
  rw [abs_div,abs_of_pos hpos,div_lt_iff₀ hpos]
  calc |x| < 2 ^ (Int.log 2 |x| + 1) := by exact_mod_cast hself
    _ ≤ 2 ^ (53 + lastPlace x) := hle
    _ = 2 ^ 53 * 2 ^ lastPlace x := by
      rw [zpow_add₀ two_ne_zero]
      norm_num

theorem nearest_nearest (x : ℚ) : nearest (nearest x) = nearest x :=
  nearest_of_le (le_max_right _ _) (abs_roundEven_le_pow (abs_lt_lastPlace x))

theorem nearest_intCast {n : ℤ} (h : |n| < 2 ^ 53) : nearest n = n := by
  have hkept := nearest_of_lt (e := 0) (by decide) h
  rwa [zpow_zero,mul_one] at hkept

theorem binary64_of_lt (h : |x| < 2 ^ 64) : binary64 x = some (nearest x) := by
  apply if_pos
  have hplace : lastPlace x ≤ 11 := by
    rcases lastPlace_le h with hle | hle
    · omega
    · omega
  have hpos : (0 : ℚ) < 2 ^ lastPlace x := by positivity
  have hunit : (2 : ℚ) ^ lastPlace x ≤ 2 ^ 11 := by
    have hle := zpow_le_zpow_right₀ (a := (2 : ℚ)) (by norm_num) hplace
    exact_mod_cast hle
  have hround := abs_roundEven_le (x / 2 ^ lastPlace x)
  rw [abs_div,abs_of_pos hpos] at hround
  have hnearest : |nearest x| ≤ |x| + 2 ^ lastPlace x := by
    unfold nearest
    rw [abs_mul,abs_of_pos hpos]
    calc |(roundEven (x / 2 ^ lastPlace x) : ℚ)| * 2 ^ lastPlace x
        ≤ (|x| / 2 ^ lastPlace x + 1) * 2 ^ lastPlace x := by gcongr
      _ = |x| + 2 ^ lastPlace x := by field_simp
  have hlimit : (2 : ℚ) ^ 65 ≤ 2 ^ 1024 := pow_le_pow_right₀ (by norm_num) (by decide)
  have hsum : (2 : ℚ) ^ 64 + 2 ^ 11 < 2 ^ 65 := by norm_num
  exact (hnearest.trans_lt (add_lt_add_of_lt_of_le h hunit)).trans (hsum.trans_le hlimit)

theorem binary64_natCast {n : ℕ} (h : n < 2 ^ 53) : binary64 n = some (n : ℚ) := by
  have hn : |((n : ℤ) : ℚ)| < 2 ^ 64 := by
    have hle : (n : ℚ) < 2 ^ 53 := by exact_mod_cast h
    rw [Int.cast_natCast,abs_of_nonneg (by positivity)]
    exact hle.trans (by norm_num)
  have hexact : nearest ((n : ℤ) : ℚ) = ((n : ℤ) : ℚ) := by
    apply nearest_intCast
    rw [abs_of_nonneg (by positivity)]
    exact_mod_cast h
  have hkept := binary64_of_lt hn
  rw [hexact] at hkept
  exact_mod_cast hkept

section Doubles

/-- The finite numbers that are kept, without a largest one. -/
def Double : Type := {x : ℚ // nearest x = x}

namespace Double

/-- The number that an operation leaves of its exact result. -/
def round (x : ℚ) : Double := ⟨nearest x,nearest_nearest x⟩

instance : LinearOrder Double := inferInstanceAs (LinearOrder {x : ℚ // nearest x = x})
instance : Zero Double := ⟨round 0⟩
instance : One Double := ⟨round 1⟩
instance : NatCast Double := ⟨fun n => round n⟩
instance : Add Double := ⟨fun a b => round (a.val + b.val)⟩
instance : Sub Double := ⟨fun a b => round (a.val - b.val)⟩

end Double
end Doubles

section Text

def integerChars (n : ℤ) : List Char := if n < 0 then '-' :: Nat.toDigits 10 n.natAbs else Nat.toDigits 10 n.natAbs

theorem unsignedNumeral_digits (sign : ℤ) (n : ℕ) : unsignedNumeral sign (Nat.toDigits 10 n) = some (.ofInt (sign * n)) := by
  have htake : (Nat.toDigits 10 n).takeWhile Char.isDigit = Nat.toDigits 10 n :=
    List.takeWhile_eq_self_iff.mpr (isDigit_toDigits n)
  have hdrop : (Nat.toDigits 10 n).dropWhile Char.isDigit = [] := List.dropWhile_eq_nil_iff.mpr (isDigit_toDigits n)
  unfold unsignedNumeral
  simp only [htake,hdrop,numeralFraction,List.append_nil]
  rw [if_neg Nat.toDigits_ne_nil]
  simp only [readExponent,Nat.ofDigitChars_ten_toDigits,List.length_nil]
  rfl

theorem numberOf_integerChars (n : ℤ) : numberOf (String.ofList (integerChars n)) = some (.ofInt n) := by
  have hdigits := isDigit_toDigits n.natAbs
  unfold integerChars
  split
  · rename_i hneg
    have hchars : ∀ c ∈ '-' :: Nat.toDigits 10 n.natAbs, IsNumberChar c := by
      intro c hc
      rcases List.mem_cons.mp hc with rfl | hc
      · exact Or.inr (by decide)
      · exact Or.inl (hdigits c hc)
    have hread : numberOf (String.ofList ('-' :: Nat.toDigits 10 n.natAbs)) = unsignedNumeral (-1)
      (Nat.toDigits 10 n.natAbs) := by
      unfold numberOf
      rw [String.toList_ofList,trim_of_no_space fun c hc => (hchars c hc).no_space]
      rfl
    rw [hread,unsignedNumeral_digits,Int.ofNat_natAbs_of_nonpos hneg.le,neg_one_mul,neg_neg]
  · rename_i hpos
    obtain ⟨c,cs,hc⟩ := List.exists_cons_of_ne_nil (Nat.toDigits_ne_nil (b := 10) (n := n.natAbs))
    have hread := unsignedNumeral_digits 1 n.natAbs
    rw [hc] at hdigits hread ⊢
    rw [numberOf_unsigned (hdigits c List.mem_cons_self) fun d hd => Or.inl (hdigits d hd),hread,one_mul,
      Int.natAbs_of_nonneg (not_lt.mp hpos)]

end Text

end StructureAi.Foundation

import Mathlib

/-! # Decimal numbers and their JavaScript text

A number is kept as the decimal it prints as: a mantissa without trailing zeros
and a power of ten. The text follows the `Number::toString` layout, so exponents
appear only outside `1e-7 .. 1e21`, and the reader is the JSON number grammar.
Rounding to binary64 is not part of the representation.
-/
namespace StructureAi.Foundation

/-- `mantissa * 10 ^ exponent`, with the mantissa as short as possible. -/
structure Decimal where
  mantissa : ℤ
  exponent : ℤ
  reduced : mantissa % 10 ≠ 0 ∨ (mantissa = 0 ∧ exponent = 0)
deriving DecidableEq

namespace Decimal

/-- Moves trailing zeros of `n` into the exponent; the first argument is fuel. -/
def strip : ℕ → ℕ → ℤ → ℕ × ℤ
  | 0, n, e => (n,e)
  | fuel + 1, n, e => if n % 10 = 0 then strip fuel (n / 10) (e + 1) else (n,e)

theorem strip_of_mod_ne {n : ℕ} (fuel : ℕ) (e : ℤ) (h : n % 10 ≠ 0) : strip fuel n e = (n,e) := by
  cases fuel with
  | zero => rfl
  | succ fuel => simp only [strip,if_neg h]

/-- A fuel of `n` reaches the last nonzero digit of a nonzero `n`. -/
theorem strip_mod_ne {fuel n : ℕ} (e : ℤ) (hn : n ≠ 0) (hf : n ≤ fuel) :
    (strip fuel n e).1 % 10 ≠ 0 := by
  induction fuel generalizing n e with
  | zero => omega
  | succ fuel ih =>
    by_cases h : n % 10 = 0
    · rw [strip,if_pos h]
      exact ih (e + 1) (by omega) (by omega)
    · rwa [strip,if_neg h]

/-- Fuel beyond `n` changes nothing. -/
theorem strip_fuel {fuel n : ℕ} (e : ℤ) (hn : n ≠ 0) (hf : n ≤ fuel) :
    strip fuel n e = strip n n e := by
  induction n using Nat.strong_induction_on generalizing fuel e with
  | _ n ih =>
    by_cases h : n % 10 = 0
    · obtain ⟨fuel,rfl⟩ : ∃ k, fuel = k + 1 := ⟨fuel - 1,by omega⟩
      obtain ⟨k,rfl⟩ : ∃ k, n = k + 1 := ⟨n - 1,by omega⟩
      have hq : (k + 1) / 10 ≠ 0 := by omega
      have hl : (k + 1) / 10 < k + 1 := by omega
      have h1 : strip fuel ((k + 1) / 10) (e + 1) = _ := ih _ hl (e + 1) hq (by omega)
      have h2 : strip k ((k + 1) / 10) (e + 1) = _ := ih _ hl (e + 1) hq (by omega)
      rw [strip,if_pos h,h1,strip,if_pos h,h2]
    · rw [strip_of_mod_ne _ _ h,strip_of_mod_ne _ _ h]

theorem strip_mul_pow {fuel n : ℕ} (j : ℕ) (e : ℤ) (hn : n ≠ 0) (hf : n * 10 ^ j ≤ fuel) :
    strip fuel (n * 10 ^ j) e = strip n n (e + j) := by
  induction j generalizing fuel e with
  | zero => simpa using strip_fuel e hn (by simpa using hf)
  | succ j ih =>
    have hpos : 0 < n * 10 ^ (j + 1) := by positivity
    obtain ⟨fuel,rfl⟩ : ∃ k, fuel = k + 1 := ⟨fuel - 1,by omega⟩
    have hmul : n * 10 ^ (j + 1) = 10 * (n * 10 ^ j) := by ring
    have hdiv : n * 10 ^ (j + 1) / 10 = n * 10 ^ j := by rw [hmul]; omega
    rw [strip,if_pos (by rw [hmul]; omega),hdiv,ih (e + 1) (by omega)]
    congr 1
    push_cast
    ring

theorem strip_value (fuel n : ℕ) (e : ℤ) :
    ((strip fuel n e).1 : ℚ) * 10 ^ (strip fuel n e).2 = n * 10 ^ e := by
  induction fuel generalizing n e with
  | zero => rfl
  | succ fuel ih =>
    by_cases h : n % 10 = 0
    · rw [strip,if_pos h,ih,zpow_add_one₀ (by norm_num)]
      have hn : (n : ℚ) = (n / 10 : ℕ) * 10 := by
        exact_mod_cast (Nat.div_mul_cancel (Nat.dvd_of_mod_eq_zero h)).symm
      rw [hn]
      ring
    · rw [strip,if_neg h]

theorem sign_mul_mod_ne {m : ℤ} {r : ℕ} (hm : m ≠ 0) (hr : r % 10 ≠ 0) : (m.sign * r) % 10 ≠ 0 := by
  rcases lt_or_gt_of_ne hm with h | h
  · rw [Int.sign_eq_neg_one_of_neg h]; omega
  · rw [Int.sign_eq_one_of_pos h]; omega

/-- The decimal of value `m * 10 ^ e`. -/
def ofScaled (m e : ℤ) : Decimal :=
  if h : m = 0 then ⟨0,0,Or.inr ⟨rfl,rfl⟩⟩ else
    ⟨m.sign * (strip m.natAbs m.natAbs e).1,(strip m.natAbs m.natAbs e).2,
      Or.inl (sign_mul_mod_ne h (strip_mod_ne e (by omega) le_rfl))⟩

def ofInt (z : ℤ) : Decimal := ofScaled z 0

@[simp] theorem ofScaled_zero (e : ℤ) : ofScaled 0 e = ⟨0,0,Or.inr ⟨rfl,rfl⟩⟩ := by simp [ofScaled]

@[simp] theorem ofScaled_self (d : Decimal) : ofScaled d.mantissa d.exponent = d := by
  obtain ⟨m,e,h⟩ := d
  dsimp only
  rcases h with h | ⟨rfl,rfl⟩
  · have hm : m ≠ 0 := by rintro rfl; exact h rfl
    have hs := strip_of_mod_ne m.natAbs e (show m.natAbs % 10 ≠ 0 by omega)
    simp only [ofScaled,dif_neg hm,hs,Decimal.mk.injEq,and_true]
    exact Int.sign_mul_natAbs m
  · simp

theorem ofScaled_mul_pow (m : ℤ) (j : ℕ) (e : ℤ) : ofScaled (m * 10 ^ j) e = ofScaled m (e + j) := by
  by_cases hm : m = 0
  · simp [hm]
  · have hp : m * 10 ^ j ≠ 0 := by positivity
    have hsign : (m * 10 ^ j).sign = m.sign := by
      rw [Int.sign_mul,Int.sign_eq_one_of_pos (show (0 : ℤ) < 10 ^ j by positivity),mul_one]
    have habs : (m * 10 ^ j).natAbs = m.natAbs * 10 ^ j := by simp [Int.natAbs_mul,Int.natAbs_pow]
    have hs := strip_mul_pow j e (show m.natAbs ≠ 0 by omega) (le_refl (m.natAbs * 10 ^ j))
    simp only [ofScaled,dif_neg hm,dif_neg hp,hsign,habs,hs]

def value (d : Decimal) : ℚ := d.mantissa * 10 ^ d.exponent

@[simp] theorem value_ofScaled (m e : ℤ) : (ofScaled m e).value = m * 10 ^ e := by
  by_cases hm : m = 0
  · simp [hm,value]
  · simp only [value,ofScaled,dif_neg hm]
    have hs := strip_value m.natAbs m.natAbs e
    have hsign := congrArg (Int.cast : ℤ → ℚ) (Int.sign_mul_natAbs m)
    simp only [Int.cast_mul,Int.cast_natCast] at hsign ⊢
    rw [mul_assoc,hs,← mul_assoc,hsign]

end Decimal
end StructureAi.Foundation

import StructureAi.Foundation.Json
import StructureAi.Foundation.Text

/-! # Numbers read from text

`numberOf` is `Number(text)` for finite numbers, as exact decimals: the grammar of numeric
literals with a sign, with white space around it, and with the prefixes of other bases. A
printed number is read back, and what a JSON number reads as is what it is here.
-/
namespace StructureAi.Foundation

/-- The digits after a point, which may be none, and the text after them. -/
def numeralFraction : List Char → List Char × List Char
  | '.' :: r => (r.takeWhile Char.isDigit,r.dropWhile Char.isDigit)
  | r => ([],r)

/-- Digits and fraction, one of them not empty, and an exponent up to the end of the text. -/
def unsignedNumeral (sign : ℤ) (cs : List Char) : Option Decimal :=
  let digits := cs.takeWhile Char.isDigit
  let fraction := numeralFraction (cs.dropWhile Char.isDigit)
  if digits ++ fraction.1 = [] then none
  else match readExponent fraction.2 with
    | some (e,[]) => some (.ofScaled (sign * Nat.ofDigitChars 10 (digits ++ fraction.1) 0) (e - fraction.1.length))
    | _ => none

def radixNumeral (base : ℕ) (cs : List Char) : Option Decimal :=
  if cs = [] then none
  else (cs.mapM fun c => (Json.hexValue c).filter (· < base)).map fun digits =>
    .ofInt (digits.foldl (fun n digit => n * base + digit) 0 : ℕ)

/-- `Number(text)`; `none` is no finite number. -/
def numberOf (text : String) : Option Decimal :=
  match trim text.toList with
  | [] => some (Decimal.ofInt 0)
  | '0' :: 'x' :: r => radixNumeral 16 r
  | '0' :: 'X' :: r => radixNumeral 16 r
  | '0' :: 'o' :: r => radixNumeral 8 r
  | '0' :: 'O' :: r => radixNumeral 8 r
  | '0' :: 'b' :: r => radixNumeral 2 r
  | '0' :: 'B' :: r => radixNumeral 2 r
  | '-' :: r => unsignedNumeral (-1) r
  | '+' :: r => unsignedNumeral 1 r
  | r => unsignedNumeral 1 r

/-- `Number.isInteger(n)` and `n ≥ 1`, of a number below where they end in `Infinity`. -/
def Decimal.IsPositiveInteger (d : Decimal) : Prop :=
  0 < d.mantissa ∧ 0 ≤ d.exponent ∧ d.mantissa * 10 ^ d.exponent.toNat < numberLimit

instance (d : Decimal) : Decidable d.IsPositiveInteger := by unfold Decimal.IsPositiveInteger; infer_instance

section Printed

theorem trim_of_no_space {cs : List Char} (h : ∀ c ∈ cs, isWhiteSpace c = false) : trim cs = cs := trimOf_eq_self h

theorem IsNumberChar.no_space {c : Char} (h : IsNumberChar c) : isWhiteSpace c = false := by
  rcases h with hd | hin
  · have hrange : 48 ≤ c.toNat ∧ c.toNat ≤ 57 := by simpa [Char.isDigit,UInt32.le_iff_toNat_le] using hd
    rw [isWhiteSpace,Bool.or_eq_false_iff]
    constructor
    · apply decide_eq_false
      intro hc
      have hcode := List.mem_map_of_mem (f := Char.toNat) hc
      simp at hcode
      omega
    · simp only [Bool.and_eq_false_iff,decide_eq_false_iff_not]
      omega
  · rcases List.mem_cons.mp hin with rfl | hin
    · decide
    · fin_cases hin <;> decide

theorem numeralFraction_of_readFraction {cs rest fraction : List Char} (h : readFraction cs = some (fraction,rest)) :
    numeralFraction cs = (fraction,rest) := by
  unfold readFraction at h
  split at h
  · split at h
    · cases h
    · exact Option.some.inj h
  · rename_i hpoint
    rw [numeralFraction]
    · exact Option.some.inj h
    · exact hpoint

theorem unsignedNumeral_of_readUnsigned {sign : ℤ} {cs : List Char} {d : Decimal}
    (h : readUnsigned sign cs = some (d,[])) : unsignedNumeral sign cs = some d := by
  unfold readUnsigned at h
  split at h
  · rename_i hip
    split at h
    · cases h
    · rename_i fraction rest hfraction
      split at h
      · cases h
      · rename_i e rest' hexp
        cases h
        have hne : cs.takeWhile Char.isDigit ++ fraction ≠ [] := by simp [hip.1]
        unfold unsignedNumeral
        rw [numeralFraction_of_readFraction hfraction]
        simp only [if_neg hne,hexp]
  · cases h

theorem exponent_le_strip (fuel n : ℕ) (e : ℤ) : e ≤ (Decimal.strip fuel n e).2 := by
  induction fuel generalizing n e with
  | zero => exact le_refl e
  | succ fuel ih =>
    rw [Decimal.strip]
    split
    · have h := ih (n / 10) (e + 1)
      omega
    · exact le_refl e

theorem isPositiveInteger_ofInt {n : ℕ} (h0 : 0 < n) (h : n < numberLimit) : (Decimal.ofInt n).IsPositiveInteger := by
  have hexp : 0 ≤ (Decimal.ofInt n).exponent := by
    rw [Decimal.ofInt,Decimal.ofScaled,dif_neg (by omega)]
    exact exponent_le_strip _ _ 0
  have hvalue : (Decimal.ofInt n).mantissa * 10 ^ (Decimal.ofInt n).exponent.toNat = (n : ℤ) := by
    have hv : (Decimal.ofInt n).value = n := by simp [Decimal.ofInt]
    rw [Decimal.value,← Int.toNat_of_nonneg hexp,zpow_natCast] at hv
    exact_mod_cast hv
  constructor
  · have hn : (0 : ℤ) < n := by omega
    rw [← hvalue] at hn
    exact pos_of_mul_pos_left hn (by positivity)
  · constructor
    · exact hexp
    · rw [hvalue]
      exact_mod_cast h

theorem text_of_pos {d : Decimal} (h : 0 < d.mantissa) :
    (∃ c r, d.text = c :: r ∧ c.isDigit = true) ∧ unsignedNumeral 1 d.text = some d := by
  have htext : d.text = magnitudeText d.mantissa.natAbs d.exponent := by
    rw [Decimal.text,if_neg (by omega),if_neg (by omega),List.nil_append]
  obtain ⟨c,r,hc,hd⟩ := magnitudeText_head d.mantissa.natAbs d.exponent
  have hread := readDecimal_text d numberEnd_nil
  rw [List.append_nil,htext,hc] at hread
  rw [htext,hc]
  constructor
  · exact ⟨c,r,rfl,hd⟩
  · apply unsignedNumeral_of_readUnsigned
    unfold readDecimal at hread
    split at hread
    · rename_i he
      obtain ⟨rfl,-⟩ := List.cons.inj he
      exact absurd hd (by decide)
    · exact hread

/-- A text of number characters that begins with a digit has no sign and no other base. -/
theorem numberOf_unsigned {c : Char} {cs : List Char} (hd : c.isDigit = true) (hchar : ∀ d ∈ c :: cs, IsNumberChar d) :
    numberOf (String.ofList (c :: cs)) = unsignedNumeral 1 (c :: cs) := by
  -- no letter of another base is a character of a number
  have hletters : ∀ letter ∈ ['x','X','o','O','b','B'], ∀ r, c :: cs ≠ '0' :: letter :: r := by
    intro letter hl r he
    have hnum := hchar letter (he ▸ List.mem_cons_of_mem _ List.mem_cons_self)
    fin_cases hl <;> revert hnum <;> unfold IsNumberChar <;> decide
  unfold numberOf
  rw [String.toList_ofList,trim_of_no_space fun d hin => (hchar d hin).no_space]
  split
  · rename_i he
    cases he
  · rename_i he
    exact absurd he (hletters 'x' (by decide) _)
  · rename_i he
    exact absurd he (hletters 'X' (by decide) _)
  · rename_i he
    exact absurd he (hletters 'o' (by decide) _)
  · rename_i he
    exact absurd he (hletters 'O' (by decide) _)
  · rename_i he
    exact absurd he (hletters 'b' (by decide) _)
  · rename_i he
    exact absurd he (hletters 'B' (by decide) _)
  · rename_i he
    obtain ⟨rfl,-⟩ := List.cons.inj he
    exact absurd hd (by decide)
  · rename_i he
    obtain ⟨rfl,-⟩ := List.cons.inj he
    exact absurd hd (by decide)
  · rfl

theorem numberOf_text {d : Decimal} (h : 0 < d.mantissa) : numberOf (String.ofList d.text) = some d := by
  obtain ⟨⟨c,r,hc,hd⟩,hread⟩ := text_of_pos h
  have hchar := d.isNumberChar_text
  rw [hc] at hchar hread ⊢
  rw [numberOf_unsigned hd hchar,hread]

end Printed

end StructureAi.Foundation

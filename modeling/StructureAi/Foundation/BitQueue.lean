import Mathlib

/-! # Bits that wait in a machine word

Digits of one width are taken in at the low end of a word and digits of another are given out,
oldest bits first. What was given out is never cleared from the word and is pushed out at the high
end in time; only the low bits that still wait are meant.
-/
namespace StructureAi.Foundation
variable {w v : ℕ}

/-- The lowest bits of a word, the highest of them first. -/
def lowBits : ℕ → BitVec w → List Bool
  | 0,_ => []
  | n + 1,x => x.getLsbD n :: lowBits n x

@[simp] theorem length_lowBits (n : ℕ) (x : BitVec w) : (lowBits n x).length = n := by
  induction n with
  | zero => rfl
  | succ n ih => rw [lowBits,List.length_cons,ih]

theorem lowBits_congr {n : ℕ} {x : BitVec w} {y : BitVec v} (h : ∀ i < n, x.getLsbD i = y.getLsbD i) :
    lowBits n x = lowBits n y := by
  induction n with
  | zero => rfl
  | succ n ih => rw [lowBits,lowBits,h n (Nat.lt_succ_self n),ih fun i hi => h i (Nat.lt_succ_of_lt hi)]

theorem getLsbD_of_lowBits {n : ℕ} {x : BitVec w} {y : BitVec v} (h : lowBits n x = lowBits n y) :
    ∀ i < n, x.getLsbD i = y.getLsbD i := by
  induction n with
  | zero => exact fun i hi => absurd hi (Nat.not_lt_zero i)
  | succ n ih =>
    obtain ⟨hhead,htail⟩ := List.cons.inj h
    intro i hi
    rcases Nat.lt_succ_iff_lt_or_eq.mp hi with hi | rfl
    · exact ih htail i hi
    · exact hhead

theorem lowBits_inj {x y : BitVec w} (h : lowBits w x = lowBits w y) : x = y :=
  BitVec.eq_of_getLsbD_eq fun i hi => getLsbD_of_lowBits h i hi

theorem lowBits_add (m n : ℕ) (x : BitVec w) : lowBits (m + n) x = lowBits m (x >>> n) ++ lowBits n x := by
  induction m with
  | zero => rw [Nat.zero_add]; rfl
  | succ m ih =>
    rw [Nat.succ_add,lowBits,lowBits,ih,BitVec.getLsbD_ushiftRight,Nat.add_comm n m]
    rfl

theorem lowBits_take {n d : ℕ} {x y : BitVec w} (hroom : n + d ≤ w) (hy : y.toNat < 2 ^ d) :
    lowBits (n + d) (x <<< d ||| y) = lowBits n x ++ lowBits d y := by
  have hupper : lowBits n ((x <<< d ||| y) >>> d) = lowBits n x := by
    refine lowBits_congr fun i hi => ?_
    have hhigh : y.getLsbD (d + i) = false :=
      Nat.testBit_lt_two_pow (hy.trans_le (Nat.pow_le_pow_right (by decide) (Nat.le_add_right d i)))
    rw [BitVec.getLsbD_ushiftRight,BitVec.getLsbD_or,BitVec.getLsbD_shiftLeft,hhigh]
    simp only [Bool.or_false,Nat.add_sub_cancel_left]
    have hin : d + i < w := by omega
    simp [hin]
  have hlower : lowBits d (x <<< d ||| y) = lowBits d y := by
    refine lowBits_congr fun i hi => ?_
    rw [BitVec.getLsbD_or,BitVec.getLsbD_shiftLeft]
    simp [hi]
  rw [lowBits_add,hupper,hlower]

theorem lowBits_give (d n : ℕ) (x : BitVec w) :
    lowBits (d + n) x = lowBits d (x >>> n &&& BitVec.ofNat w (2 ^ d - 1)) ++ lowBits n x := by
  rw [lowBits_add]
  congr 1
  refine lowBits_congr fun i hi => ?_
  rw [BitVec.getLsbD_and,BitVec.getLsbD_ofNat,Nat.testBit_two_pow_sub_one]
  by_cases hin : i < w
  · simp [hin,hi]
  · rw [BitVec.getLsbD_of_ge _ _ (Nat.le_of_not_lt hin),Bool.false_and]

theorem lowBits_fill {n k : ℕ} (x : BitVec w) (hroom : n + k ≤ w) :
    lowBits (n + k) (x <<< k &&& BitVec.ofNat w (2 ^ (n + k) - 1)) = lowBits n x ++ List.replicate k false := by
  have hmask : lowBits (n + k) (x <<< k &&& BitVec.ofNat w (2 ^ (n + k) - 1)) = lowBits (n + k) (x <<< k ||| 0#w) := by
    refine lowBits_congr fun i hi => ?_
    rw [BitVec.getLsbD_and,BitVec.getLsbD_ofNat,Nat.testBit_two_pow_sub_one]
    have hin : i < w := hi.trans_le hroom
    simp [hin,hi]
  have hzeros : lowBits k (0#w) = List.replicate k false := by
    clear hroom hmask
    induction k with
    | zero => rfl
    | succ k ih =>
      rw [lowBits,ih,List.replicate_succ]
      congr 1
      exact BitVec.getLsbD_zero
  have hnone : (0#w).toNat < 2 ^ k := by
    rw [BitVec.toNat_ofNat,Nat.zero_mod]
    exact Nat.two_pow_pos k
  rw [hmask,lowBits_take hroom hnone,hzeros]

end StructureAi.Foundation

import StructureAi.Nisshi.RecordBatchRoundTrip

/-! # The range of signed varints

The zigzag value of a 32-bit number is taken as a signed one. From `2 ^ 30` on, and below its
opposite, it is negative, and the writer's loop does not end.
-/
namespace StructureAi.Nisshi
open StructureAi.Foundation

section Loop

/-- So many rounds of the loop of `uvarint`, over a signed number: `Math.floor(v / 128)` stays
negative, and `v & 0x7f` is taken in two's complement. -/
def Writer.uvarintLoop : ℕ → ℤ → Option (List UInt8)
  | 0,_ => none
  | rounds + 1,v =>
    if v / 128 ≠ 0 then (uvarintLoop rounds (v / 128)).map (Writer.byteOf (v % 128 + 128) :: ·)
    else some [Writer.byteOf (v % 128)]

/-- The loop of `varint` ends, and these are the bytes. -/
def Writer.Writes (value : ℤ) (bytes : List UInt8) : Prop := ∃ rounds, uvarintLoop rounds (zigzag value) = some bytes

theorem byteOf_nat (n : ℕ) (hn : n < 256) : Writer.byteOf n = UInt8.ofNat n := by
  have hmod : ((n : ℤ) % 256).toNat = n := by omega
  rw [Writer.byteOf,hmod]

theorem uvarintLoop_succ (rounds n : ℕ) : Writer.uvarintLoop (rounds + 1) n =
    if n < 128 then some [UInt8.ofNat n] else (Writer.uvarintLoop rounds (n / 128 : ℕ)).map
      (UInt8.ofNat (n % 128 + 128) :: ·) := by
  have hlow : (n : ℤ) % 128 = (n % 128 : ℕ) := by omega
  have hrest : (n : ℤ) / 128 = (n / 128 : ℕ) := by omega
  rw [Writer.uvarintLoop,hlow,hrest]
  by_cases hsmall : n < 128
  · have hzero : ((n / 128 : ℕ) : ℤ) = 0 := by omega
    rw [if_neg (not_not.mpr hzero),if_pos hsmall,Nat.mod_eq_of_lt hsmall,byteOf_nat n (by omega)]
  · have hmore : ((n / 128 : ℕ) : ℤ) ≠ 0 := by omega
    have hbyte : Writer.byteOf ((n % 128 : ℕ) + 128) = UInt8.ofNat (n % 128 + 128) :=
      byteOf_nat (n % 128 + 128) (by omega)
    rw [if_pos hmore,if_neg hsmall,hbyte]

theorem uvarintLoop_nat {rounds n : ℕ} (hn : n ≤ rounds) : Writer.uvarintLoop (rounds + 1) n = some (Writer.uvarint n) := by
  induction rounds generalizing n with
  | zero =>
    obtain rfl : n = 0 := by omega
    rw [uvarintLoop_succ,Writer.uvarint]
    rfl
  | succ rounds ih =>
    rw [uvarintLoop_succ,Writer.uvarint]
    by_cases hsmall : n < 128
    · rw [if_pos hsmall,if_pos hsmall]
    · rw [if_neg hsmall,if_neg hsmall,ih (by omega)]
      rfl

theorem uvarintLoop_eq {rounds n : ℕ} {bytes : List UInt8} (h : Writer.uvarintLoop rounds n = some bytes) : Writer.uvarint n =
    bytes := by
  induction rounds generalizing n bytes with
  | zero => cases h
  | succ rounds ih =>
    rw [uvarintLoop_succ] at h
    rw [Writer.uvarint]
    split at h
    next hsmall =>
      rw [if_pos hsmall]
      exact Option.some.inj h
    next hsmall =>
      obtain ⟨rest,hrest,rfl⟩ := Option.map_eq_some_iff.mp h
      rw [if_neg hsmall,ih hrest]

theorem uvarintLoop_negative {v : ℤ} (hv : v < 0) (rounds : ℕ) : Writer.uvarintLoop rounds v = none := by
  induction rounds generalizing v with
  | zero => rfl
  | succ rounds ih =>
    have hrest : v / 128 < 0 := by omega
    rw [Writer.uvarintLoop,if_pos hrest.ne,ih hrest]
    rfl

theorem uvarint_length {count n : ℕ} (hn : n < 128 ^ (count + 1)) : (Writer.uvarint n).length ≤ count + 1 := by
  induction count generalizing n with
  | zero =>
    rw [Writer.uvarint,if_pos (by omega)]
    exact Nat.le_refl 1
  | succ count ih =>
    rw [Writer.uvarint]
    split
    · exact Nat.le_add_left 1 _
    · have hquotient : n / 128 < 128 ^ (count + 1) := by
        rw [pow_succ] at hn
        exact Nat.div_lt_of_lt_mul (by rwa [mul_comm] at hn)
      exact Nat.succ_le_succ (ih hquotient)

theorem writes_iff {value : ℤ} {bytes : List UInt8} : Writer.Writes value bytes ↔ Writer.varint value = some bytes := by
  unfold Writer.varint
  constructor
  · rintro ⟨rounds,hloop⟩
    have hnonneg : 0 ≤ Writer.zigzag value := by
      by_contra hnegative
      rw [uvarintLoop_negative (not_le.mp hnegative)] at hloop
      cases hloop
    obtain ⟨n,hn⟩ := Int.eq_ofNat_of_zero_le hnonneg
    rw [hn] at hloop
    rw [if_pos hnonneg,hn]
    exact congrArg some (uvarintLoop_eq hloop)
  · intro hvarint
    split at hvarint
    next hnonneg =>
      obtain ⟨n,hn⟩ := Int.eq_ofNat_of_zero_le hnonneg
      rw [hn] at hvarint
      refine ⟨n + 1,?_⟩
      rw [hn,uvarintLoop_nat (Nat.le_refl n)]
      exact hvarint
    next => cases hvarint

end Loop

section Zigzag

theorem toNat_zigzag_msb {x : BitVec 32} (hx : 2 ^ 31 ≤ x.toNat) :
    (x <<< 1 ^^^ x.sshiftRight 31).toNat = 2 ^ 33 - 1 - 2 * x.toNat := by
  have hlt := x.isLt
  have hmsb : x.msb = true := by
    rw [BitVec.msb_eq_true_iff_two_mul_ge]
    omega
  have htop : x.sshiftRight 31 = BitVec.allOnes 32 := by
    rw [BitVec.sshiftRight_eq_of_msb_true hmsb]
    apply BitVec.eq_of_toNat_eq
    rw [BitVec.toNat_not,BitVec.toNat_ushiftRight,BitVec.toNat_not,Nat.shiftRight_eq_div_pow,Nat.div_eq_of_lt (by omega)]
    rfl
  rw [htop,BitVec.xor_allOnes,BitVec.toNat_not,BitVec.toNat_shiftLeft,Nat.shiftLeft_eq]
  omega

theorem toNat_zigzag_nonneg {x : BitVec 32} (hx : x.toNat < 2 ^ 31) : (x <<< 1 ^^^ x.sshiftRight 31).toNat = 2 * x.toNat := by
  have hmsb : x.msb = false := by
    rw [BitVec.msb_eq_false_iff_two_mul_lt]
    omega
  have htop : x.sshiftRight 31 = 0#32 := by
    rw [BitVec.sshiftRight_eq_of_msb_false hmsb]
    apply BitVec.eq_of_toNat_eq
    rw [BitVec.toNat_ushiftRight,Nat.shiftRight_eq_div_pow,Nat.div_eq_of_lt (by omega)]
    rfl
  rw [htop,BitVec.xor_zero,BitVec.toNat_shiftLeft,Nat.shiftLeft_eq]
  omega

theorem zigzag_nonneg_iff (v : BitVec 32) : 0 ≤ Writer.zigzag v.toInt ↔ -2 ^ 30 ≤ v.toInt ∧ v.toInt < 2 ^ 30 := by
  have hlt := v.isLt
  rw [Writer.zigzag,BitVec.ofInt_toInt]
  by_cases hv : v.toNat < 2 ^ 31
  · have hzigzag := toNat_zigzag_nonneg hv
    rw [BitVec.toInt_eq_toNat_cond,BitVec.toInt_eq_toNat_cond,hzigzag]
    split <;> split <;> omega
  · have hzigzag := toNat_zigzag_msb (not_lt.mp hv)
    rw [BitVec.toInt_eq_toNat_cond,BitVec.toInt_eq_toNat_cond,hzigzag]
    split <;> split <;> omega

theorem zigzag_negSucc {n : ℕ} (hn : n < 2 ^ 30) : Writer.zigzag (-(n + 1 : ℕ)) = (2 * n + 1 : ℕ) := by
  have hvalue : (BitVec.ofInt 32 (-(n + 1 : ℕ))).toNat = 2 ^ 32 - (n + 1) := by
    rw [BitVec.toNat_ofInt]
    omega
  have hzigzag := toNat_zigzag_msb (x := BitVec.ofInt 32 (-(n + 1 : ℕ))) (by omega)
  rw [Writer.zigzag,BitVec.toInt_eq_toNat_cond,hzigzag,hvalue]
  split <;> omega

theorem unzigzag_odd {n : ℕ} (hn : n < 2 ^ 30) : Reader.unzigzag (2 * n + 1) = -(n + 1 : ℕ) := by
  have hvalue : (BitVec.ofNat 32 (2 * n + 1)).toNat = 2 * n + 1 := by
    rw [BitVec.toNat_ofNat,Nat.mod_eq_of_lt (by omega)]
  have hlow : BitVec.ofNat 32 (2 * n + 1) &&& 1 = 1 := by
    apply BitVec.eq_of_toNat_eq
    rw [BitVec.toNat_and,hvalue]
    change (2 * n + 1) &&& 1 = 1
    rw [Nat.and_one_is_mod]
    omega
  have hnot : (BitVec.ofNat 32 (2 * n + 1) >>> 1 ^^^ -(1 : BitVec 32)).toNat = 2 ^ 32 - 1 - n := by
    change (BitVec.ofNat 32 (2 * n + 1) >>> 1 ^^^ BitVec.allOnes 32).toNat = _
    rw [BitVec.xor_allOnes,BitVec.toNat_not,BitVec.toNat_ushiftRight,hvalue,Nat.shiftRight_eq_div_pow]
    omega
  rw [Reader.unzigzag,hlow,BitVec.toInt_eq_toNat_cond,hnot]
  split <;> omega

end Zigzag

section Range

theorem varint_round_trip {v : ℤ} (hlow : -2 ^ 30 ≤ v) (hhigh : v < 2 ^ 30) :
    ∃ bytes, Writer.varint v = some bytes ∧ bytes.length ≤ 5 ∧ Reads Reader.varint bytes v := by
  rcases lt_or_ge v 0 with hneg | hnonneg
  · obtain ⟨n,rfl⟩ : ∃ n : ℕ, v = -(n + 1 : ℕ) := ⟨(-v - 1).toNat,by omega⟩
    have hn : n < 2 ^ 30 := by omega
    have hread := (uvarint_parses (show 2 * n + 1 < 2 ^ 31 by omega)).of_bind_pure (g := Reader.unzigzag)
    rw [unzigzag_odd hn] at hread
    refine ⟨Writer.uvarint (2 * n + 1),?_,uvarint_length (by omega),hread.toReads⟩
    rw [Writer.varint,zigzag_negSucc hn,if_pos (by omega)]
    rfl
  · obtain ⟨n,rfl⟩ := Int.eq_ofNat_of_zero_le hnonneg
    have hn : n < 2 ^ 30 := by omega
    obtain ⟨hwrite,hread⟩ := varint_nat hn
    exact ⟨_,hwrite,uvarint_length (by omega),hread.toReads⟩

/-- A signed varint ends, in at most five bytes that are read back, just for the numbers of 31 bits. -/
theorem varint_covers_iff (v : BitVec 32) :
    (∃ bytes, Writer.Writes v.toInt bytes ∧ bytes.length ≤ 5 ∧ Reads Reader.varint bytes v.toInt) ↔
      -2 ^ 30 ≤ v.toInt ∧ v.toInt < 2 ^ 30 := by
  constructor
  · rintro ⟨bytes,hwrites,-,-⟩
    rw [writes_iff,Writer.varint] at hwrites
    apply (zigzag_nonneg_iff v).mp
    by_contra hnegative
    rw [if_neg hnegative] at hwrites
    cases hwrites
  · rintro ⟨hlow,hhigh⟩
    obtain ⟨bytes,hwrite,hlength,hread⟩ := varint_round_trip hlow hhigh
    exact ⟨bytes,writes_iff.mpr hwrite,hlength,hread⟩

/-- On `2 ^ 30` the writer does not end. -/
theorem varint_endless : (BitVec.ofInt 32 (2 ^ 30)).toInt = 2 ^ 30 ∧
    ¬∃ bytes, Writer.Writes (BitVec.ofInt 32 (2 ^ 30)).toInt bytes := by
  have hvalue : (BitVec.ofInt 32 (2 ^ 30)).toInt = 2 ^ 30 := by decide
  refine ⟨hvalue,?_⟩
  rintro ⟨bytes,rounds,hloop⟩
  have hzigzag : Writer.zigzag (2 ^ 30) = -2 ^ 31 := by decide
  rw [hvalue,hzigzag,uvarintLoop_negative (by decide)] at hloop
  cases hloop

end Range
end StructureAi.Nisshi

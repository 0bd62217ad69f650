import StructureAi.Foundation.Bytes
import StructureAi.Nisshi.RecordBatch

/-! # Record batches come back

What the writer puts down, the reader takes up again, field after field; and of a batch that was
cut off it yields nothing, for the last thing it reads of a record is behind the value.
-/
namespace StructureAi.Nisshi
open StructureAi.Foundation

section Words
variable {count : ℕ} {bytes : List UInt8}

theorem length_bigEndian (count : ℕ) (value : ℤ) : (Writer.bigEndian count value).length = count := by
  induction count generalizing value with
  | zero => rfl
  | succ count ih => rw [Writer.bigEndian,List.length_append,ih,List.length_singleton]

theorem ofBytes_append (bytes : List UInt8) (byte : UInt8) : Reader.ofBytes (bytes ++ [byte]) =
    Reader.ofBytes bytes * 256 + byte.toNat :=
  List.foldl_append

theorem toNat_byteOf (value : ℤ) : ((Writer.byteOf value).toNat : ℤ) = value % 256 := by
  have hrange : (value % 256).toNat < 256 := by omega
  rw [Writer.byteOf,toNat_byte hrange,Int.toNat_of_nonneg (by omega)]

theorem emod_mul_byte (value : ℤ) {m : ℤ} (hm : 0 < m) : value / 256 % m * 256 + value % 256 = value % (m * 256) := by
  have hlow : 0 ≤ value / 256 % m ∧ value / 256 % m < m := ⟨Int.emod_nonneg _ hm.ne',Int.emod_lt_of_pos _ hm⟩
  have h256 := Int.mul_ediv_add_emod value 256
  have hdiv := Int.mul_ediv_add_emod (value / 256) m
  have hbyte : 0 ≤ value % 256 ∧ value % 256 < 256 := ⟨by omega,by omega⟩
  refine ((Int.ediv_emod_unique (a := value) (q := value / 256 / m) (by positivity)).mpr ⟨?_,?_,?_⟩).2.symm
  · linear_combination h256 + 256 * hdiv
  · omega
  · omega

theorem ofBytes_bigEndian (count : ℕ) (value : ℤ) : (Reader.ofBytes (Writer.bigEndian count value) : ℤ) =
    value % 256 ^ count := by
  induction count generalizing value with
  | zero => simp [Writer.bigEndian,Reader.ofBytes]
  | succ count ih =>
    rw [Writer.bigEndian,ofBytes_append,Nat.cast_add,Nat.cast_mul,ih,toNat_byteOf,pow_succ]
    exact emod_mul_byte value (by positivity)

theorem asInt_bigEndian {count : ℕ} (hcount : 0 < count) {value : ℤ} (hlow : -(2 ^ (8 * count - 1)) ≤ value)
    (hhigh : value < 2 ^ (8 * count - 1)) : Reader.asInt count (Reader.ofBytes (Writer.bigEndian count value)) = value := by
  have hbytes := ofBytes_bigEndian count value
  have hexp : 8 * count = 8 * count - 1 + 1 := by omega
  have hpow : (2 : ℤ) ^ (8 * count) = 2 * 2 ^ (8 * count - 1) := by
    conv_lhs => rw [hexp,pow_succ']
  rw [show (256 : ℤ) = 2 ^ 8 by norm_num,← pow_mul,hpow] at hbytes
  unfold Reader.asInt
  have hcond : Reader.ofBytes (Writer.bigEndian count value) < 2 ^ (8 * count - 1) ↔
      (Reader.ofBytes (Writer.bigEndian count value) : ℤ) < 2 ^ (8 * count - 1) := by exact_mod_cast Iff.rfl
  simp only [hcond,hpow,hbytes]
  generalize (2 : ℤ) ^ (8 * count - 1) = m at *
  by_cases hsign : 0 ≤ value
  · rw [Int.emod_eq_of_lt hsign (by omega),if_pos hhigh]
  · have hwrap : value % (2 * m) = value + 2 * m := by
      rw [← Int.add_emod_right,Int.emod_eq_of_lt (by omega) (by omega)]
    rw [hwrap,if_neg (by omega)]
    omega

end Words

section Readers
variable {bytes : List UInt8}

theorem need_ok {count : ℕ} {buf : List UInt8} {pos : ℤ} (h : pos + count ≤ buf.length) : Reader.need count buf pos =
    .ok ((),pos) :=
  if_neg (not_lt.mpr h)

theorem need_error {count : ℕ} {buf : List UInt8} {pos : ℤ} (h : pos + count > buf.length) : ∃ e, Reader.need count buf pos =
    .error e :=
  ⟨_,if_pos h⟩

theorem byteAt_ok (before : List UInt8) (byte : UInt8) (rest : List UInt8) (pos : ℤ) :
    Reader.byteAt before.length (before ++ byte :: rest) pos = .ok (byte,pos) := by
  have hindex : ¬ (before.length : ℤ) < 0 := by omega
  simp [Reader.byteAt,hindex]

theorem bytesFrom_ok (bytes before rest : List UInt8) (pos : ℤ) :
    Reader.bytesFrom bytes.length before.length (before ++ bytes ++ rest) pos = .ok (bytes,pos) := by
  induction bytes generalizing before with
  | nil => rfl
  | cons byte bytes ih =>
    have hhere := byteAt_ok before byte (bytes ++ rest) pos
    have hthere := ih (before ++ [byte])
    rw [List.length_append,List.length_singleton,Nat.cast_add,Nat.cast_one,List.append_assoc,List.append_assoc,
      List.singleton_append] at hthere
    rw [List.append_assoc,List.cons_append]
    change (Reader.byteAt before.length >>= fun b => Reader.bytesFrom bytes.length (before.length + 1) >>= fun bs =>
      pure (b :: bs)) _ _ = _
    rw [Cursor.bind_ok hhere,Cursor.bind_ok hthere]
    rfl

theorem word_parses (bytes : List UInt8) : Parses (Reader.word bytes.length) bytes (Reader.ofBytes bytes) := by
  constructor
  · constructor
    intro before rest
    unfold Reader.word
    have hneed : Reader.need bytes.length (before ++ bytes ++ rest) before.length = .ok ((),(before.length : ℤ)) := by
      apply need_ok
      simp only [List.length_append]
      omega
    rw [Cursor.bind_ok hneed,Cursor.bind_ok (show Cursor.position _ _ = _ from rfl),
      Cursor.bind_ok (bytesFrom_ok bytes before rest _),List.length_append,Nat.cast_add]
    rfl
  · intro before k hk
    have hshort : (before.length : ℤ) + bytes.length > (before ++ bytes.take k).length := by
      simp only [List.length_append,List.length_take]
      omega
    obtain ⟨e,he⟩ := need_error hshort
    exact ⟨e,Cursor.bind_error he⟩

theorem word_bigEndian (count : ℕ) (value : ℤ) : Parses (Reader.word count) (Writer.bigEndian count value)
    (Reader.ofBytes (Writer.bigEndian count value)) := by
  have h := word_parses (Writer.bigEndian count value)
  rwa [length_bigEndian] at h

theorem number_parses (count : ℕ) (hcount : 0 < count) {value : ℤ} (hlow : -(2 ^ (8 * count - 1)) ≤ value)
    (hhigh : value < 2 ^ (8 * count - 1)) :
    Parses (do return Reader.asInt count (← Reader.word count)) (Writer.bigEndian count value) value := by
  have h := (word_bigEndian count value).of_bind_pure (g := Reader.asInt count)
  rwa [asInt_bigEndian hcount hlow hhigh] at h

theorem anyNumber_parses (count : ℕ) (value : ℤ) : ∃ n,
    Parses (do return Reader.asInt count (← Reader.word count)) (Writer.bigEndian count value) n :=
  ⟨_,(word_bigEndian count value).of_bind_pure⟩

theorem nextByte_parses (byte : UInt8) : Parses Reader.nextByte [byte] byte := by
  constructor
  · constructor
    intro before rest
    have hneed : Reader.need 1 (before ++ [byte] ++ rest) before.length = .ok ((),(before.length : ℤ)) := by
      apply need_ok
      simp only [List.length_append,List.length_singleton]
      omega
    have hbyte : Reader.byteAt before.length (before ++ [byte] ++ rest) before.length = .ok (byte,(before.length : ℤ)) := by
      rw [List.append_assoc]
      exact byteAt_ok before byte rest before.length
    unfold Reader.nextByte
    rw [Cursor.bind_ok hneed,Cursor.bind_ok (show Cursor.position _ _ = _ from rfl),Cursor.bind_ok hbyte,List.length_append]
    rfl
  · intro before k hk
    have hshort : (before.length : ℤ) + (1 : ℕ) > (before ++ [byte].take k).length := by
      simp only [List.length_append,List.length_take,List.length_singleton] at hk ⊢
      omega
    obtain ⟨e,he⟩ := need_error hshort
    exact ⟨e,Cursor.bind_error he⟩

theorem nextByte_demands : Demands Reader.nextByte := by
  intro buf pos hpos
  obtain ⟨e,he⟩ := need_error (show pos + (1 : ℕ) > buf.length by omega)
  exact ⟨e,Cursor.bind_error he⟩

end Readers

section Varints

def shiftsFrom (shift : ℕ) : ℕ → List ℕ
  | 0 => []
  | count + 1 => shift :: shiftsFrom (shift + 7) count

theorem toNat_gather {v : BitVec 32} {group shift : ℕ} (hv : v.toNat < 2 ^ shift) (hgroup : group * 2 ^ shift < 2 ^ 32) :
    (v ||| (BitVec.ofNat 32 group <<< shift)).toNat = v.toNat + group * 2 ^ shift := by
  have hone : group < 2 ^ 32 := lt_of_le_of_lt (Nat.le_mul_of_pos_right group (by positivity)) hgroup
  rw [BitVec.toNat_or,BitVec.toNat_shiftLeft,BitVec.toNat_ofNat,Nat.mod_eq_of_lt hone,Nat.shiftLeft_eq,Nat.mod_eq_of_lt hgroup,
    Nat.lor_comm,mul_comm group,← Nat.two_pow_add_eq_or_of_lt hv,add_comm]

theorem uvarintFrom_parses {count shift n : ℕ} (hshift : shift + 7 * count = 28) {v : BitVec 32} (hv : v.toNat < 2 ^ shift)
    (hn : n * 2 ^ shift < 2 ^ 31) :
    Parses (Reader.uvarintFrom (shiftsFrom shift (count + 1)) v) (Writer.uvarint n) (v.toNat + n * 2 ^ shift) := by
  induction count generalizing shift n v with
  | zero =>
    obtain rfl : shift = 28 := by omega
    have hsmall : n < 128 := by omega
    have hbyte : (UInt8.ofNat n).toNat = n := toNat_byte (by omega)
    rw [Writer.uvarint,if_pos hsmall]
    have hlast : Parses (if (UInt8.ofNat n).toNat < 128 then
        pure (v ||| (BitVec.ofNat 32 ((UInt8.ofNat n).toNat % 128) <<< 28)).toNat
          else Reader.uvarintFrom [] (v ||| (BitVec.ofNat 32 ((UInt8.ofNat n).toNat % 128) <<< 28))) []
        (v.toNat + n * 2 ^ 28) := by
      rw [hbyte,if_pos hsmall,Nat.mod_eq_of_lt hsmall,toNat_gather hv (by omega)]
      exact Parses.pure _
    exact (nextByte_parses _).bind hlast
  | succ count ih =>
    rw [Writer.uvarint]
    by_cases hsmall : n < 128
    · have hbyte : (UInt8.ofNat n).toNat = n := toNat_byte (by omega)
      rw [if_pos hsmall]
      have hlast : Parses (if (UInt8.ofNat n).toNat < 128 then
          pure (v ||| (BitVec.ofNat 32 ((UInt8.ofNat n).toNat % 128) <<< shift)).toNat
            else Reader.uvarintFrom (shiftsFrom (shift + 7) (count + 1))
              (v ||| (BitVec.ofNat 32 ((UInt8.ofNat n).toNat % 128) <<< shift))) [] (v.toNat + n * 2 ^ shift) := by
        rw [hbyte,if_pos hsmall,Nat.mod_eq_of_lt hsmall,toNat_gather hv (by omega)]
        exact Parses.pure _
      exact (nextByte_parses _).bind hlast
    · have hbyte : (UInt8.ofNat (n % 128 + 128)).toNat = n % 128 + 128 := toNat_byte (by omega)
      have hgroup : (n % 128 + 128) % 128 = n % 128 := by omega
      have hpow : 2 ^ (shift + 7) = 2 ^ shift * 128 := by rw [pow_add]; rfl
      have hone : 1 ≤ 2 ^ shift := Nat.one_le_two_pow
      have hlow : n % 128 * 2 ^ shift < 2 ^ 32 := by
        have hle : n % 128 * 2 ^ shift ≤ n * 2 ^ shift := Nat.mul_le_mul_right _ (Nat.mod_le n 128)
        omega
      have hgathered := toNat_gather hv hlow
      have hsplit : n * 2 ^ shift = n % 128 * 2 ^ shift + n / 128 * 2 ^ (shift + 7) := by
        rw [hpow]
        nth_rewrite 1 [← Nat.mod_add_div n 128]
        ring
      have hrest : Parses (Reader.uvarintFrom (shiftsFrom (shift + 7) (count + 1))
          (v ||| (BitVec.ofNat 32 (n % 128) <<< shift))) (Writer.uvarint (n / 128)) (v.toNat + n * 2 ^ shift) := by
        have hfits : (v ||| (BitVec.ofNat 32 (n % 128) <<< shift)).toNat < 2 ^ (shift + 7) := by
          have hle : n % 128 * 2 ^ shift ≤ 127 * 2 ^ shift := Nat.mul_le_mul_right _ (by omega)
          omega
        have hih : Parses (Reader.uvarintFrom (shiftsFrom (shift + 7) (count + 1)) _) (Writer.uvarint (n / 128)) _ :=
          ih (by omega) hfits (by omega)
        rwa [hgathered,add_assoc,← hsplit] at hih
      have hnext : Parses (if (UInt8.ofNat (n % 128 + 128)).toNat < 128 then
          pure (v ||| (BitVec.ofNat 32 ((UInt8.ofNat (n % 128 + 128)).toNat % 128) <<< shift)).toNat
            else Reader.uvarintFrom (shiftsFrom (shift + 7) (count + 1))
              (v ||| (BitVec.ofNat 32 ((UInt8.ofNat (n % 128 + 128)).toNat % 128) <<< shift))) (Writer.uvarint (n / 128))
                (v.toNat + n * 2 ^ shift) := by
        rw [hbyte,if_neg (by omega),hgroup]
        exact hrest
      rw [if_neg hsmall]
      exact (nextByte_parses _).bind hnext

theorem uvarint_parses {n : ℕ} (hn : n < 2 ^ 31) : Parses Reader.uvarint (Writer.uvarint n) n := by
  have h : Parses (Reader.uvarintFrom (shiftsFrom 0 (4 + 1)) 0) (Writer.uvarint n) ((0 : BitVec 32).toNat + n * 2 ^ 0) :=
    uvarintFrom_parses (by omega) (by decide) (by omega)
  rwa [pow_zero,mul_one,show (0 : BitVec 32).toNat + n = n from Nat.zero_add n] at h

theorem unzigzag_even {n : ℕ} (hn : n < 2 ^ 30) : Reader.unzigzag (2 * n) = n := by
  have hlow : BitVec.ofNat 32 (2 * n) &&& 1 = 0 := by
    apply BitVec.eq_of_toNat_eq
    rw [BitVec.toNat_and,BitVec.toNat_ofNat,Nat.mod_eq_of_lt (by omega)]
    change 2 * n &&& 1 = 0
    rw [Nat.and_one_is_mod]
    omega
  have hhalf : (BitVec.ofNat 32 (2 * n) >>> 1).toNat = n := by
    rw [BitVec.toNat_ushiftRight,BitVec.toNat_ofNat,Nat.mod_eq_of_lt (by omega),Nat.shiftRight_eq_div_pow]
    omega
  have hvalue : BitVec.ofNat 32 (2 * n) >>> 1 ^^^ -(BitVec.ofNat 32 (2 * n) &&& (1 : BitVec 32)) =
      BitVec.ofNat 32 (2 * n) >>> 1 := by
    rw [hlow]
    exact BitVec.xor_zero
  rw [Reader.unzigzag,hvalue,BitVec.toInt_eq_toNat_of_lt,hhalf]
  rw [hhalf]
  omega

theorem zigzag_nat {n : ℕ} (hn : n < 2 ^ 30) : Writer.zigzag n = 2 * n := by
  have hvalue : (BitVec.ofInt 32 (n : ℤ)).toNat = n := by
    rw [BitVec.ofInt_natCast,BitVec.toNat_ofNat,Nat.mod_eq_of_lt (by omega)]
  have htop : (BitVec.ofInt 32 (n : ℤ)).sshiftRight 31 = 0 := by
    have hmsb : (BitVec.ofInt 32 (n : ℤ)).msb = false := by
      rw [BitVec.msb_eq_false_iff_two_mul_lt,hvalue]
      omega
    rw [BitVec.sshiftRight_eq_of_msb_false hmsb]
    apply BitVec.eq_of_toNat_eq
    rw [BitVec.toNat_ushiftRight,hvalue,Nat.shiftRight_eq_div_pow,Nat.div_eq_of_lt (by omega)]
    rfl
  have hdouble : (BitVec.ofInt 32 (n : ℤ) <<< 1 ^^^ (BitVec.ofInt 32 (n : ℤ)).sshiftRight 31).toNat = 2 * n := by
    rw [htop]
    change (BitVec.ofInt 32 (n : ℤ) <<< 1 ^^^ 0#32).toNat = _
    rw [BitVec.xor_zero,BitVec.toNat_shiftLeft,hvalue,Nat.shiftLeft_eq,Nat.mod_eq_of_lt (by omega)]
    omega
  rw [Writer.zigzag,BitVec.toInt_eq_toNat_of_lt,hdouble]
  · rfl
  · rw [hdouble]
    omega

theorem varint_nat {n : ℕ} (hn : n < 2 ^ 30) :
    Writer.varint n = some (Writer.uvarint (2 * n)) ∧ Parses Reader.varint (Writer.uvarint (2 * n)) n := by
  constructor
  · have hzigzag := zigzag_nat hn
    rw [Writer.varint,if_pos (by omega),hzigzag]
    rfl
  · have h := (uvarint_parses (show 2 * n < 2 ^ 31 by omega)).of_bind_pure (g := Reader.unzigzag)
    rwa [unzigzag_even hn] at h

theorem varint_null : Writer.varint (-1) = some [1] ∧ Parses Reader.varint [1] (-1) := by
  constructor
  · have hone : Writer.uvarint 1 = [1] := by
      rw [Writer.uvarint]
      rfl
    have hzigzag : Writer.zigzag (-1) = 1 := by decide
    rw [Writer.varint,hzigzag,if_pos (by decide)]
    exact congrArg some hone
  · have h := (uvarint_parses (show 1 < 2 ^ 31 by omega)).of_bind_pure (g := Reader.unzigzag)
    have hone : Writer.uvarint 1 = [1] := by
      rw [Writer.uvarint]
      rfl
    rw [hone] at h
    exact h

theorem varint_demands : Demands Reader.varint := Demands.bind (Demands.bind nextByte_demands)

end Varints

section Records

theorem slice_overruns (bytes : List UInt8) : Overruns (Reader.slice bytes.length) bytes bytes := by
  have hend : ∀ before : List UInt8, ((before ++ bytes).length : ℤ) = before.length + bytes.length := by
    intro before
    rw [List.length_append,Nat.cast_add]
  constructor
  · constructor
    intro before rest
    have hslice : Reader.subarray before.length (before.length + bytes.length) (before ++ bytes ++ rest) before.length =
        .ok (bytes,(before.length : ℤ)) := by
      have hfirst : Reader.relativeIndex (before ++ bytes ++ rest).length before.length = before.length := by
        simp [Reader.relativeIndex]
      have hlast : Reader.relativeIndex (before ++ bytes ++ rest).length (before.length + bytes.length) =
          (before ++ bytes).length := by
        have hpositive : ¬ (before.length : ℤ) + bytes.length < 0 := by omega
        rw [Reader.relativeIndex,if_neg hpositive,← hend,Int.toNat_natCast,min_eq_left]
        simp only [List.length_append]
        omega
      rw [Reader.subarray,hfirst,hlast,List.take_left,List.drop_left]
    unfold Reader.slice
    rw [Cursor.bind_ok (show Cursor.position _ _ = _ from rfl),Cursor.bind_ok hslice,hend]
    rfl
  · intro before k _
    have hslice : ∃ taken, Reader.subarray before.length (before.length + bytes.length) (before ++ bytes.take k) before.length =
        .ok (taken,(before.length : ℤ)) := ⟨_,rfl⟩
    obtain ⟨taken,htaken⟩ := hslice
    refine Or.inr ⟨taken,?_⟩
    unfold Reader.slice
    rw [Cursor.bind_ok (show Cursor.position _ _ = _ from rfl),Cursor.bind_ok htaken,hend]
    rfl

/-- Bytes of the varint of a length or a delta. -/
def varintSize (n : ℕ) : ℕ := (Writer.uvarint (2 * n)).length

def keySize : Option (List UInt8) → ℕ
  | none => 1
  | some key => varintSize key.length + key.length

def bodySize (i : ℕ) (record : RecordToProduce) : ℕ :=
  1 + varintSize 0 + varintSize i + keySize record.key + varintSize record.value.length + record.value.length + varintSize 0

def recordsSize : ℕ → List RecordToProduce → ℕ
  | _,[] => 0
  | i,record :: records => varintSize (bodySize i record) + bodySize i record + recordsSize (i + 1) records

def batchSize (records : List RecordToProduce) : ℕ := 61 + recordsSize 0 records

theorem encodeVarint_nat {n : ℕ} (hn : n < 2 ^ 30) : encodeVarint n = .ok (Writer.uvarint (2 * n)) := by
  rw [encodeVarint,(varint_nat hn).1]

theorem encodeKey_eq {key : Option (List UInt8)} (hsize : keySize key < 2 ^ 30) :
    ∃ bytes, encodeKey key = .ok bytes ∧ bytes.length = keySize key ∧ Overruns Reader.recordKey bytes key := by
  cases key with
  | none =>
    have hread : Parses Reader.recordKey ([1] ++ []) none := by
      unfold Reader.recordKey
      apply varint_null.2.bind
      rw [if_pos (by decide)]
      exact Parses.pure none
    refine ⟨[1],?_,rfl,hread.overruns⟩
    rw [encodeKey,encodeVarint,varint_null.1]
  | some key =>
    have hlength : key.length < 2 ^ 30 := lt_of_le_of_lt (Nat.le_add_left _ _) hsize
    refine ⟨Writer.uvarint (2 * key.length) ++ key,?_,List.length_append,?_⟩
    · rw [encodeKey,encodeVarint_nat hlength]
      rfl
    · unfold Reader.recordKey
      apply (varint_nat hlength).2.bind_overruns
      rw [if_neg (by omega)]
      exact (slice_overruns key).of_bind_pure (g := some)

theorem recordBody_parses (baseOffset : ℤ) {i : ℕ} {record : RecordToProduce} (hsize : bodySize i record < 2 ^ 30)
    (hi : i < 2 ^ 30)
    {key : List UInt8} (hkey : Overruns Reader.recordKey key record.key) :
    Parses (Reader.recordBody baseOffset)
      (Writer.i8 0 ++ (Writer.uvarint (2 * 0) ++ (Writer.uvarint (2 * i) ++ (key ++
        (Writer.uvarint (2 * record.value.length) ++ (record.value ++ Writer.uvarint (2 * 0)))))))
      ⟨baseOffset + i,record.key,record.value⟩ := by
  have hlength : record.value.length < 2 ^ 30 := by
    unfold bodySize at hsize
    omega
  have hzero : Parses Reader.varint (Writer.uvarint (2 * 0)) ((0 : ℕ) : ℤ) := (varint_nat (by omega)).2
  unfold Reader.recordBody
  apply (number_parses 1 (by omega) (by norm_num) (by norm_num)).bind
  apply hzero.bind
  apply (varint_nat hi).2.bind
  apply hkey.bind
  · apply (varint_nat hlength).2.bind
    apply (slice_overruns record.value).bind
    · rw [← List.append_nil (Writer.uvarint (2 * 0))]
      exact hzero.bind (Parses.pure _)
    · intro value
      exact Demands.bind varint_demands
  · intro key'
    exact Demands.bind varint_demands

theorem encodeRecord_eq {i : ℕ} {record : RecordToProduce} (hsize : bodySize i record < 2 ^ 30) (hi : i < 2 ^ 30) :
    ∃ bytes, encodeRecord i record = .ok bytes ∧ bytes.length = varintSize (bodySize i record) + bodySize i record ∧
      ∀ baseOffset, Parses (Reader.fetchedRecord baseOffset) bytes ⟨baseOffset + i,record.key,record.value⟩ := by
  have hparts : keySize record.key < 2 ^ 30 ∧ record.value.length < 2 ^ 30 := by
    unfold bodySize at hsize
    omega
  obtain ⟨key,hencode,hkeySize,hkey⟩ := encodeKey_eq hparts.1
  have hzero : encodeVarint 0 = .ok (Writer.uvarint (2 * 0)) := encodeVarint_nat (n := 0) (by omega)
  set body := Writer.i8 0 ++ (Writer.uvarint (2 * 0) ++ (Writer.uvarint (2 * i) ++ (key ++
    (Writer.uvarint (2 * record.value.length) ++ (record.value ++ Writer.uvarint (2 * 0)))))) with hbody
  have hlength : body.length = bodySize i record := by
    simp only [hbody,List.length_append,hkeySize,bodySize,varintSize,Writer.i8,length_bigEndian]
    omega
  refine ⟨Writer.uvarint (2 * body.length) ++ body,?_,?_,?_⟩
  · have hassoc : Writer.i8 0 ++ Writer.uvarint (2 * 0) ++ Writer.uvarint (2 * i) ++ key ++
        Writer.uvarint (2 * record.value.length) ++ record.value ++ Writer.uvarint (2 * 0) = body := by
      simp only [hbody,List.append_assoc]
    unfold encodeRecord
    rw [hzero,encodeVarint_nat hi,hencode,encodeVarint_nat hparts.2]
    change (do
      let bodyLength ← encodeVarint (Writer.i8 0 ++ Writer.uvarint (2 * 0) ++ Writer.uvarint (2 * i) ++ key ++
        Writer.uvarint (2 * record.value.length) ++ record.value ++ Writer.uvarint (2 * 0)).length
      return bodyLength ++ (Writer.i8 0 ++ Writer.uvarint (2 * 0) ++ Writer.uvarint (2 * i) ++ key ++
        Writer.uvarint (2 * record.value.length) ++ record.value ++ Writer.uvarint (2 * 0))) = _
    rw [hassoc,encodeVarint_nat (hlength ▸ hsize)]
    rfl
  · rw [List.length_append,hlength]
    rfl
  · intro baseOffset
    have hfields := recordBody_parses baseOffset hsize hi hkey
    exact (varint_nat (hlength ▸ hsize)).2.bind hfields.seek_end

theorem recordsSize_cons (i : ℕ) (record : RecordToProduce) (records : List RecordToProduce) :
    recordsSize i (record :: records) = varintSize (bodySize i record) + bodySize i record + recordsSize (i + 1) records := rfl

theorem length_le_recordsSize (i : ℕ) (records : List RecordToProduce) : records.length ≤ recordsSize i records := by
  induction records generalizing i with
  | nil => exact Nat.zero_le _
  | cons record records ih =>
    have hrest := ih (i + 1)
    rw [recordsSize_cons,List.length_cons]
    unfold bodySize
    omega

/-- What the records are read as, from an offset on. -/
def fetchedFrom (offset : ℤ) : List RecordToProduce → List FetchedRecord
  | [] => []
  | record :: records => ⟨offset,record.key,record.value⟩ :: fetchedFrom (offset + 1) records

theorem encodeRecords_eq {i : ℕ} {records : List RecordToProduce} (hsize : i + recordsSize i records < 2 ^ 30) :
    ∃ bytes, encodeRecords i records = .ok bytes ∧ bytes.length = recordsSize i records ∧
      ∀ baseOffset, Parses (Reader.fetchedRecords baseOffset records.length) bytes (fetchedFrom (baseOffset + i) records) := by
  induction records generalizing i with
  | nil => exact ⟨[],rfl,rfl,fun _ => Parses.pure []⟩
  | cons record records ih =>
    rw [recordsSize_cons] at hsize ⊢
    have hpositive : 1 ≤ bodySize i record := by
      unfold bodySize
      omega
    obtain ⟨first,hfirst,hfirstSize,hread⟩ := @encodeRecord_eq i record (by omega) (by omega)
    obtain ⟨rest,hrest,hrestSize,hreadRest⟩ := ih (i := i + 1) (by omega)
    refine ⟨first ++ rest,?_,?_,?_⟩
    · rw [encodeRecords,hfirst,hrest]
      rfl
    · rw [List.length_append,hfirstSize,hrestSize]
    · intro baseOffset
      have htail := hreadRest baseOffset
      rw [Nat.cast_add,Nat.cast_one,← add_assoc] at htail
      exact (hread baseOffset).bind htail.of_bind_pure

end Records

section Batch

theorem anyInteger_bind {count : ℕ} (value : ℤ) {α : Type} {f : ℤ → Reader α} {bytes : List UInt8} {a : α}
    (hf : ∀ n, Parses (f n) bytes a) :
    Parses ((do return Reader.asInt count (← Reader.word count)) >>= f) (Writer.bigEndian count value ++ bytes) a := by
  obtain ⟨n,hn⟩ := anyNumber_parses count value
  exact hn.bind (hf n)

/-- The batch as the broker stores it, with its base offset. -/
def withBaseOffset (baseOffset : ℤ) (batch : List UInt8) : List UInt8 := Writer.i64 baseOffset ++ batch.drop 8

theorem recordBatch_parses {records : List RecordToProduce} (hcount : records.length < 2 ^ 30) {encoded : List UInt8}
    (hencoded : ∀ baseOffset, Parses (Reader.fetchedRecords baseOffset records.length) encoded (fetchedFrom baseOffset records))
    (now length crc : ℤ) {baseOffset : ℤ} (hlow : -(2 ^ 63) ≤ baseOffset) (hhigh : baseOffset < 2 ^ 63) :
    Parses Reader.recordBatch (Writer.i64 baseOffset ++ (Writer.i32 length ++
      (Writer.i32 (-1) ++ (Writer.i8 2 ++ (Writer.i32 crc ++
      batchBody now records.length encoded))))) (fetchedFrom baseOffset records) := by
  unfold Reader.recordBatch batchBody
  simp only [List.append_assoc]
  apply (number_parses 8 (by omega) hlow hhigh).bind
  apply anyInteger_bind
  intro _
  apply anyInteger_bind
  intro _
  apply (number_parses 1 (by omega) (by norm_num) (by norm_num)).bind
  apply Parses.bind_still (fun _ _ => rfl)
  apply (word_bigEndian 4 crc).bind
  apply (number_parses 2 (by omega) (by norm_num) (by norm_num)).bind
  apply Parses.bind_still (fun _ _ => rfl)
  apply anyInteger_bind
  intro _
  apply anyInteger_bind
  intro _
  apply anyInteger_bind
  intro _
  apply anyInteger_bind
  intro _
  apply anyInteger_bind
  intro _
  apply anyInteger_bind
  intro _
  apply (number_parses 4 (by omega) (by omega) (by norm_num; omega)).bind
  rw [Int.toNat_natCast]
  exact hencoded baseOffset

theorem length_batchBody (now : ℤ) (count : ℕ) (encoded : List UInt8) : (batchBody now count encoded).length =
    40 + encoded.length := by
  simp only [batchBody,Writer.i16,Writer.i32,Writer.i64,List.length_append,length_bigEndian]

theorem encodeRecordBatch_eq (now : ℤ) {records : List RecordToProduce} (hne : records ≠ []) {encoded : List UInt8}
    (hencoded : encodeRecords 0 records = .ok encoded) : ∃ length crc : ℤ,
    encodeRecordBatch now records = .ok (Writer.i64 0 ++ (Writer.i32 length ++ (Writer.i32 (-1) ++ (Writer.i8 2 ++
      (Writer.i32 crc ++ batchBody now records.length encoded))))) := by
  refine ⟨4 + 1 + 4 + (batchBody now records.length encoded).length,(crc32c (batchBody now records.length encoded)).toNat,?_⟩
  unfold encodeRecordBatch
  rw [if_neg hne,hencoded]
  simp only [← List.append_assoc]
  rfl

/-- Record batches round-trip, and none is read from a piece of one. -/
theorem record_batches_round_trip (now : ℤ) (records : List RecordToProduce) (hne : records ≠ [])
    (hsize : batchSize records < 2 ^ 30) :
    ∃ batch, encodeRecordBatch now records = .ok batch ∧ batch.length = batchSize records ∧
      ∀ baseOffset : ℤ, -(2 ^ 63) ≤ baseOffset → baseOffset < 2 ^ 63 →
        decodeRecordBatch (withBaseOffset baseOffset batch) = .ok (fetchedFrom baseOffset records) ∧
        ∀ k, 0 < k → k < batch.length → ∃ e, decodeRecordBatch ((withBaseOffset baseOffset batch).take k) = .error e := by
  have hrecords : 0 + recordsSize 0 records < 2 ^ 30 := by
    unfold batchSize at hsize
    omega
  have hcount : records.length < 2 ^ 30 := by
    have hle := length_le_recordsSize 0 records
    omega
  obtain ⟨encoded,hencoded,hlength,hread⟩ := encodeRecords_eq hrecords
  obtain ⟨length,crc,hbatch⟩ := encodeRecordBatch_eq now hne hencoded
  have hsame : ∀ baseOffset, (Writer.i64 baseOffset).length = 8 := fun _ => length_bigEndian 8 _
  refine ⟨_,hbatch,?_,?_⟩
  · simp only [List.length_append,length_batchBody,hlength,Writer.i64,Writer.i32,Writer.i8,length_bigEndian,batchSize]
    omega
  intro baseOffset hlow hhigh
  have hparses : Parses Reader.recordBatch _ _ := @recordBatch_parses _ hcount encoded
    (fun b => by simpa using hread b) now length crc _ hlow hhigh
  have hcut : withBaseOffset baseOffset (Writer.i64 0 ++ (Writer.i32 length ++ (Writer.i32 (-1) ++ (Writer.i8 2 ++
      (Writer.i32 crc ++ batchBody now records.length encoded))))) = Writer.i64 baseOffset ++ (Writer.i32 length ++
        (Writer.i32 (-1) ++ (Writer.i8 2 ++ (Writer.i32 crc ++ batchBody now records.length encoded)))) := by
    rw [withBaseOffset,← hsame 0,List.drop_left]
  rw [hcut]
  constructor
  · have hfull := hparses.reads [] []
    rw [List.append_nil,List.nil_append] at hfull
    rw [decodeRecordBatch,if_neg]
    · rw [show (0 : ℤ) = ([] : List UInt8).length from rfl,hfull]
      rfl
    · intro hempty
      have hzero := congrArg List.length hempty
      rw [List.length_append,hsame] at hzero
      exact absurd hzero (by simp)
  · intro k hk hshort
    rw [List.length_append,hsame,← hsame baseOffset,← List.length_append] at hshort
    obtain ⟨e,he⟩ := hparses.refuses [] k hshort
    refine ⟨e,?_⟩
    rw [decodeRecordBatch,if_neg]
    · rw [show (0 : ℤ) = ([] : List UInt8).length from rfl,← List.nil_append (List.take k _),he]
      rfl
    · intro hempty
      have hzero := congrArg List.length hempty
      rw [List.length_take] at hzero
      simp only [List.length_nil] at hzero
      omega

def keyedRecords : List RecordToProduce := [⟨none,[1]⟩,⟨some [107,49],[2,3]⟩,⟨some [],[]⟩]

theorem record_batches_round_trip_keyed : keyedRecords ≠ [] ∧ batchSize keyedRecords < 2 ^ 30 ∧
    ∃ batch, encodeRecordBatch 0 keyedRecords = .ok batch ∧ batch.length = batchSize keyedRecords ∧
      ∀ baseOffset : ℤ, -(2 ^ 63) ≤ baseOffset → baseOffset < 2 ^ 63 →
        decodeRecordBatch (withBaseOffset baseOffset batch) = .ok (fetchedFrom baseOffset keyedRecords) ∧
        ∀ k, 0 < k → k < batch.length → ∃ e, decodeRecordBatch ((withBaseOffset baseOffset batch).take k) = .error e := by
  have hne : keyedRecords ≠ [] := List.cons_ne_nil _ _
  have hsize : batchSize keyedRecords < 2 ^ 30 := by decide +kernel
  exact ⟨hne,hsize,record_batches_round_trip 0 keyedRecords hne hsize⟩

end Batch
end StructureAi.Nisshi

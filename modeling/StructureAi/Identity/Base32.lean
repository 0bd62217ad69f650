import StructureAi.Foundation.BitQueue
import StructureAi.Foundation.Text
import StructureAi.Identity.SessionSlots

/-! # Base32 with a wrapping accumulator

The secret of the second factor is written in base32 without padding, and read back in any letter
case with `=` and white space skipped. Both directions shift their digits into a 32-bit integer
that is never masked.
-/
namespace StructureAi.Identity
open StructureAi.Foundation Slots

section Alphabet

def base32Alphabet : List Char := "ABCDEFGHIJKLMNOPQRSTUVWXYZ234567".toList

/-- The character of a digit, which the callers mask to five bits. -/
def base32Char (n : ℕ) : Char := base32Alphabet.getD n '='

end Alphabet

section Encode

structure Base32Encoding where
  bits : ℕ
  value : BitVec 32
  output : List Char

/-- The inner loop; the count has been lowered when the digit is read. -/
def drain (value : BitVec 32) : ℕ → List Char → ℕ × List Char
  | bits + 5,output => drain value bits (output ++ [base32Char (value >>> bits &&& 31#32).toNat])
  | bits,output => (bits,output)

def Base32Encoding.byte (s : Base32Encoding) (byte : UInt8) : Base32Encoding :=
  let value := s.value <<< 8 ||| byte.toBitVec.setWidth 32
  let (bits,output) := drain value (s.bits + 8) s.output
  ⟨bits,value,output⟩

def base32Encode (bytes : List UInt8) : String :=
  let s := bytes.foldl Base32Encoding.byte ⟨0,0,[]⟩
  String.ofList (if 0 < s.bits then s.output ++ [base32Char (s.value <<< (5 - s.bits) &&& 31#32).toNat] else s.output)

end Encode

section Decode
variable (toUpperCase : String → String)

structure Base32Decoding where
  bits : ℕ
  value : BitVec 32
  out : List UInt8

def Base32Decoding.digit (s : Base32Decoding) (index : ℕ) : Base32Decoding :=
  let value := s.value <<< 5 ||| BitVec.ofNat 32 index
  if 8 ≤ s.bits + 5 then
    ⟨s.bits + 5 - 8,value,s.out ++ [UInt8.ofNat (value >>> (s.bits + 5 - 8) &&& 0xff#32).toNat]⟩
  else ⟨s.bits + 5,value,s.out⟩

/-- `none` is the error thrown for a character outside the alphabet. -/
def Base32Decoding.character (s : Base32Decoding) (character : Char) : Option Base32Decoding :=
  (base32Alphabet.idxOf? character).map s.digit

def isSkipped (c : Char) : Bool := c = '=' || isWhiteSpace c

def base32Decode (input : String) : Except AuthValidationError (List UInt8) :=
  let cleaned := toUpperCase (String.ofList (input.toList.filter fun c => !isSkipped c))
  match cleaned.toList.foldlM Base32Decoding.character ⟨0,0,[]⟩ with
  | some s => .ok s.out
  | none => .error ⟨"secret","must be valid base32"⟩

end Decode

section Bits

def byteBits (bytes : List UInt8) : List Bool := bytes.flatMap fun b => lowBits 8 b.toBitVec

def textBits (cs : List Char) : List Bool := cs.flatMap fun c => lowBits 5 (BitVec.ofNat 32 (base32Alphabet.idxOf c))

theorem indexOf_base32Char : ∀ n < 32, base32Alphabet.idxOf (base32Char n) = n ∧ base32Char n ∈ base32Alphabet := by
  decide

theorem masked_lt {d : ℕ} (hd : d < 32) (x : BitVec 32) : (x &&& BitVec.ofNat 32 (2 ^ d - 1)).toNat < 2 ^ d := by
  have hpos := Nat.two_pow_pos d
  have hmask : (BitVec.ofNat 32 (2 ^ d - 1)).toNat = 2 ^ d - 1 := by
    have hlt : 2 ^ d < 2 ^ 32 := Nat.pow_lt_pow_right (by decide) hd
    rw [BitVec.toNat_ofNat,Nat.mod_eq_of_lt (by omega)]
  rw [BitVec.toNat_and,hmask]
  exact lt_of_le_of_lt Nat.and_le_right (Nat.sub_lt hpos (by decide))

/-- A digit that was given out is a character of the alphabet and stands for its bits. -/
theorem textBits_masked (x : BitVec 32) :
    textBits [base32Char (x &&& 31#32).toNat] = lowBits 5 (x &&& 31#32) := by
  have hindex := (indexOf_base32Char _ (masked_lt (d := 5) (by decide) x)).1
  rw [textBits,List.flatMap_singleton]
  simp only [Nat.reducePow,Nat.reduceSub] at hindex
  rw [hindex,BitVec.ofNat_toNat,BitVec.setWidth_eq]

theorem byteBits_append (xs ys : List UInt8) : byteBits (xs ++ ys) = byteBits xs ++ byteBits ys := List.flatMap_append

theorem textBits_append (xs ys : List Char) : textBits (xs ++ ys) = textBits xs ++ textBits ys := List.flatMap_append

theorem length_byteBits (bytes : List UInt8) : (byteBits bytes).length = 8 * bytes.length := by
  induction bytes with
  | nil => rfl
  | cons b bytes ih =>
    have hcons : byteBits (b :: bytes) = lowBits 8 b.toBitVec ++ byteBits bytes := rfl
    rw [hcons,List.length_append,length_lowBits,ih,List.length_cons]
    omega

theorem byteBits_inj {xs ys : List UInt8} (h : byteBits xs = byteBits ys) : xs = ys := by
  induction xs generalizing ys with
  | nil =>
    have hlength := congrArg List.length h
    rw [length_byteBits,length_byteBits] at hlength
    exact (List.length_eq_zero_iff.mp (by simpa using hlength.symm)).symm
  | cons x xs ih =>
    cases ys with
    | nil =>
      have hlength := congrArg List.length h
      rw [length_byteBits,length_byteBits] at hlength
      simp at hlength
    | cons y ys =>
      obtain ⟨hhead,htail⟩ := List.append_inj (show lowBits 8 x.toBitVec ++ byteBits xs = lowBits 8 y.toBitVec ++
        byteBits ys from h)
        (by rw [length_lowBits,length_lowBits])
      rw [UInt8.toBitVec_inj.mp (lowBits_inj hhead),ih htail]

end Bits

section Encoder

/-- What the encoder has seen so far: its output, then the bits that wait. -/
structure Base32Encoding.Holds (s : Base32Encoding) (seen : List UInt8) : Prop where
  few : s.bits < 5
  seen : textBits s.output ++ lowBits s.bits s.value = byteBits seen
  alphabet : ∀ c ∈ s.output, c ∈ base32Alphabet

theorem drain_spec (value : BitVec 32) (bits : ℕ) (output : List Char) :
    (drain value bits output).1 < 5 ∧
    textBits (drain value bits output).2 ++ lowBits (drain value bits output).1 value =
      textBits output ++ lowBits bits value ∧
    ((∀ c ∈ output, c ∈ base32Alphabet) → ∀ c ∈ (drain value bits output).2, c ∈ base32Alphabet) := by
  induction bits,output using drain.induct value with
  | case1 bits output ih =>
    obtain ⟨hfew,hbits,halphabet⟩ := ih
    refine ⟨hfew,?_,fun h => halphabet fun c hc => ?_⟩
    · have hgive : lowBits (5 + bits) value = lowBits 5 (value >>> bits &&& 31#32) ++ lowBits bits value :=
        lowBits_give 5 bits value
      refine hbits.trans ?_
      rw [textBits_append,textBits_masked,List.append_assoc,← hgive,Nat.add_comm 5 bits]
    · rcases List.mem_append.mp hc with hc | hc
      · exact h c hc
      · rw [List.mem_singleton.mp hc]
        exact (indexOf_base32Char _ (masked_lt (d := 5) (by decide) _)).2
  | case2 bits output hfew =>
    have hlt : bits < 5 := by
      by_contra hge
      exact hfew (bits - 5) (by omega)
    have hdrain : drain value bits output = (bits,output) := by
      rw [drain]
      exact fun n hn => hfew n hn
    rw [hdrain]
    exact ⟨hlt,rfl,id⟩

theorem Base32Encoding.Holds.byte {s : Base32Encoding} {seen : List UInt8} (h : s.Holds seen) (byte : UInt8) :
    (s.byte byte).Holds (seen ++ [byte]) := by
  obtain ⟨hfew,hbits,halphabet⟩ := drain_spec (s.value <<< 8 ||| byte.toBitVec.setWidth 32) (s.bits + 8) s.output
  refine ⟨hfew,hbits.trans ?_,halphabet h.alphabet⟩
  have hbyte : (byte.toBitVec.setWidth 32).toNat < 2 ^ 8 := by
    rw [BitVec.toNat_setWidth,Nat.mod_eq_of_lt (byte.toBitVec.isLt.trans (by decide))]
    exact byte.toBitVec.isLt
  have hsame : lowBits 8 (byte.toBitVec.setWidth 32) = byteBits [byte] := by
    rw [byteBits,List.flatMap_singleton]
    refine lowBits_congr fun i hi => ?_
    rw [BitVec.getLsbD_setWidth]
    simp [hi.trans (by decide : 8 < 32)]
  have hroom : s.bits + 8 ≤ 32 := by
    have := h.few
    omega
  rw [lowBits_take hroom hbyte,hsame,← List.append_assoc,h.seen,byteBits_append]

theorem Base32Encoding.Holds.bytes {s : Base32Encoding} {seen : List UInt8} (h : s.Holds seen) (bytes : List UInt8) :
    (bytes.foldl Base32Encoding.byte s).Holds (seen ++ bytes) := by
  induction bytes generalizing s seen with
  | nil => rwa [List.append_nil]
  | cons byte bytes ih =>
    have hrest := ih (h.byte byte)
    rwa [List.append_assoc,List.singleton_append] at hrest

theorem base32Encode_bits (bytes : List UInt8) :
    (∃ k < 5, textBits (base32Encode bytes).toList = byteBits bytes ++ List.replicate k false) ∧
    ∀ c ∈ (base32Encode bytes).toList, c ∈ base32Alphabet := by
  have hstart : Base32Encoding.Holds ⟨0,0,[]⟩ [] := ⟨by decide,rfl,fun _ h => nomatch h⟩
  have hend := hstart.bytes bytes
  rw [List.nil_append] at hend
  rw [base32Encode]
  set s := bytes.foldl Base32Encoding.byte ⟨0,0,[]⟩
  have hfew := hend.few
  simp only [String.toList_ofList]
  by_cases hwaits : 0 < s.bits
  · rw [if_pos hwaits]
    refine ⟨⟨5 - s.bits,by omega,?_⟩,fun c hc => ?_⟩
    · have hfill := lowBits_fill (n := s.bits) (k := 5 - s.bits) s.value (by omega)
      rw [Nat.add_sub_cancel' hfew.le] at hfill
      rw [textBits_append,textBits_masked,← hend.seen,List.append_assoc]
      exact congrArg _ hfill
    · rcases List.mem_append.mp hc with hc | hc
      · exact hend.alphabet c hc
      · rw [List.mem_singleton.mp hc]
        exact (indexOf_base32Char _ (masked_lt (d := 5) (by decide) _)).2
  · have hnone : s.bits = 0 := Nat.eq_zero_of_not_pos hwaits
    have hseen := hend.seen
    rw [hnone,lowBits,List.append_nil] at hseen
    rw [if_neg hwaits]
    exact ⟨⟨0,by decide,by rw [hseen,List.replicate_zero,List.append_nil]⟩,hend.alphabet⟩

end Encoder

section Decoder

/-- What the decoder has read so far: its bytes, then the bits that wait. -/
structure Base32Decoding.Holds (s : Base32Decoding) (seen : List Char) : Prop where
  few : s.bits < 8
  seen : byteBits s.out ++ lowBits s.bits s.value = textBits seen

theorem byteBits_masked (x : BitVec 32) : byteBits [UInt8.ofNat (x &&& 0xff#32).toNat] = lowBits 8 (x &&& 0xff#32) := by
  rw [byteBits,List.flatMap_singleton]
  refine lowBits_congr fun i hi => ?_
  rw [UInt8.toBitVec_ofNat',BitVec.ofNat_toNat,BitVec.getLsbD_setWidth]
  simp [hi]

theorem Base32Decoding.Holds.character {s : Base32Decoding} {seen : List Char} (h : s.Holds seen) {c : Char}
    (hc : c ∈ base32Alphabet) : ∃ s', s.character c = some s' ∧ s'.Holds (seen ++ [c]) := by
  have hindex : base32Alphabet.idxOf? c = some (base32Alphabet.idxOf c) := by
    obtain ⟨i,hi⟩ := Option.isSome_iff_exists.mp (List.isSome_idxOf?.mpr hc)
    rw [hi,List.idxOf_eq_getD_idxOf?,hi,Option.getD_some]
  refine ⟨s.digit (base32Alphabet.idxOf c),by rw [Base32Decoding.character,hindex]; rfl,?_⟩
  have hlt : base32Alphabet.idxOf c < 2 ^ 5 := List.idxOf_lt_length_iff.mpr hc
  have hdigit : (BitVec.ofNat 32 (base32Alphabet.idxOf c)).toNat < 2 ^ 5 := by
    rw [BitVec.toNat_ofNat,Nat.mod_eq_of_lt (hlt.trans (by decide))]
    exact hlt
  have hfew := h.few
  have htaken := lowBits_take (x := s.value) (n := s.bits) (by omega) hdigit
  have hseen : byteBits s.out ++ lowBits (s.bits + 5) (s.value <<< 5 ||| BitVec.ofNat 32 (base32Alphabet.idxOf c)) =
      textBits (seen ++ [c]) := by
    rw [htaken,← List.append_assoc,h.seen,textBits_append]
    rfl
  by_cases hfull : 8 ≤ s.bits + 5
  · rw [Base32Decoding.digit,if_pos hfull]
    refine ⟨by simp only; omega,?_⟩
    have hgive := lowBits_give 8 (s.bits + 5 - 8) (s.value <<< 5 ||| BitVec.ofNat 32 (base32Alphabet.idxOf c))
    rw [Nat.add_sub_cancel' hfull] at hgive
    rw [← hseen,hgive,byteBits_append,byteBits_masked,List.append_assoc]
    rfl
  · rw [Base32Decoding.digit,if_neg hfull]
    exact ⟨Nat.lt_of_not_le hfull,hseen⟩

theorem Base32Decoding.Holds.characters {s : Base32Decoding} {seen : List Char} (h : s.Holds seen) {cs : List Char}
    (hcs : ∀ c ∈ cs, c ∈ base32Alphabet) :
    ∃ s', cs.foldlM Base32Decoding.character s = some s' ∧ s'.Holds (seen ++ cs) := by
  induction cs generalizing s seen with
  | nil => exact ⟨s,rfl,by rwa [List.append_nil]⟩
  | cons c cs ih =>
    obtain ⟨s₁,hfirst,hs₁⟩ := h.character (hcs c List.mem_cons_self)
    obtain ⟨s₂,hrest,hs₂⟩ := ih hs₁ fun d hd => hcs d (List.mem_cons_of_mem _ hd)
    refine ⟨s₂,?_,by rwa [List.append_assoc,List.singleton_append] at hs₂⟩
    rw [List.foldlM_cons,hfirst]
    exact hrest

/-- The decoder gives the bytes back whose bits the text stands for, up to fewer than five zeros. -/
theorem decoded_bytes {cs : List Char} {bytes : List UInt8} {k : ℕ} (hcs : ∀ c ∈ cs, c ∈ base32Alphabet) (hk : k < 5)
    (hbits : textBits cs = byteBits bytes ++ List.replicate k false) :
    ∃ s, cs.foldlM Base32Decoding.character ⟨0,0,[]⟩ = some s ∧ s.out = bytes := by
  have hstart : Base32Decoding.Holds ⟨0,0,[]⟩ [] := ⟨by decide,rfl⟩
  obtain ⟨s,hrun,hs⟩ := hstart.characters hcs
  refine ⟨s,hrun,?_⟩
  have heq : byteBits s.out ++ lowBits s.bits s.value = byteBits bytes ++ List.replicate k false := hs.seen.trans hbits
  have hlength := congrArg List.length heq
  simp only [List.length_append,length_byteBits,length_lowBits,List.length_replicate] at hlength
  have hfew := hs.few
  refine byteBits_inj (List.append_inj heq ?_).1
  rw [length_byteBits,length_byteBits]
  omega

end Decoder

section RoundTrip

/-- White space and `=` inserted, letters in either case. -/
inductive Respelled : List Char → List Char → Prop where
  | nil : Respelled [] []
  | inserted {cs text : List Char} (c : Char) (skipped : isSkipped c = true) : Respelled cs text → Respelled cs (c :: text)
  | letter {cs text : List Char} (c d : Char) (same : d.toUpper = c.toUpper) : Respelled cs text →
    Respelled (c :: cs) (d :: text)

theorem Respelled.refl (cs : List Char) : Respelled cs cs := by
  induction cs with
  | nil => exact .nil
  | cons c cs ih => exact .letter c c rfl ih

theorem alphabet_ascii {c : Char} (hc : c ∈ base32Alphabet) : c.toNat < 0x80 := by
  have hall : base32Alphabet.all (fun c => decide (c.toNat < 0x80)) = true := by decide
  exact of_decide_eq_true (List.all_eq_true.mp hall c hc)

/-- A character that is a letter of the alphabet up to its case is neither skipped nor outside ASCII. -/
theorem letter_kind {d : Char} (hd : d.toUpper ∈ base32Alphabet) : d.toNat < 0x80 ∧ isSkipped d = false := by
  have hascii : ∀ n < 0x80, (Char.ofNat n).toUpper ∈ base32Alphabet → isSkipped (Char.ofNat n) = false := by
    decide +kernel
  by_cases hlow : d.toNat < 0x80
  · refine ⟨hlow,?_⟩
    have hkind := hascii d.toNat hlow
    rw [Char.ofNat_toNat] at hkind
    exact hkind hd
  · have hupper : d.toUpper = d := by
      rw [Char.toUpper,dif_neg]
      exact fun h => hlow (Nat.lt_of_le_of_lt h.2 (by decide))
    rw [hupper] at hd
    exact absurd (alphabet_ascii hd) hlow

theorem Respelled.cleaned {cs text : List Char} (h : Respelled cs text) (hcs : ∀ c ∈ cs, c ∈ base32Alphabet) :
    (∀ c ∈ text.filter (fun c => !isSkipped c), c.toNat < 0x80) ∧
    (text.filter fun c => !isSkipped c).map Char.toUpper = cs := by
  induction h with
  | nil => exact ⟨fun _ h => (nomatch h),rfl⟩
  | inserted c skipped _ ih =>
    rw [List.filter_cons_of_neg (by rw [skipped]; decide)]
    exact ih hcs
  | @letter cs text c d same _ ih =>
    obtain ⟨hrest,htext⟩ := ih fun c hc => hcs c (List.mem_cons_of_mem _ hc)
    have hc := hcs c List.mem_cons_self
    have hcupper : c.toUpper = c := of_decide_eq_true
      (List.all_eq_true.mp (by decide : base32Alphabet.all (fun c => decide (c.toUpper = c)) = true) c hc)
    obtain ⟨hlow,hkept⟩ := letter_kind (d := d) (by rw [same,hcupper]; exact hc)
    rw [List.filter_cons_of_pos (by rw [hkept]; decide)]
    refine ⟨fun e he => ?_,by rw [List.map_cons,htext,same,hcupper]⟩
    rcases List.mem_cons.mp he with rfl | he
    · exact hlow
    · exact hrest e he

variable {toUpperCase : String → String}

/-- Base32 round trip: whatever the length of the secret, the text written for it is read back as the
secret, and so is every other spelling of that text. -/
theorem base32_roundTrip
    (ascii_upper : ∀ text : String, (∀ c ∈ text.toList, c.toNat < 0x80) →
      toUpperCase text = String.ofList (text.toList.map Char.toUpper)) (bytes : List UInt8) :
    base32Decode toUpperCase (base32Encode bytes) = .ok bytes ∧
    ∀ text : String, Respelled (base32Encode bytes).toList text.toList → base32Decode toUpperCase text = .ok bytes := by
  obtain ⟨⟨k,hk,hbits⟩,halphabet⟩ := base32Encode_bits bytes
  have hread (text : String) (h : Respelled (base32Encode bytes).toList text.toList) :
      base32Decode toUpperCase text = .ok bytes := by
    obtain ⟨hascii,hletters⟩ := h.cleaned halphabet
    obtain ⟨s,hrun,hout⟩ := decoded_bytes halphabet hk hbits
    have hupper := ascii_upper (String.ofList (text.toList.filter fun c => !isSkipped c))
      (by rw [String.toList_ofList]; exact hascii)
    rw [String.toList_ofList,hletters] at hupper
    rw [base32Decode,hupper]
    simp only [String.toList_ofList]
    rw [hrun]
    exact congrArg Except.ok hout
  exact ⟨hread _ (Respelled.refl _),hread⟩

theorem base32_roundTrip_spaced :
    base32Encode [0x66,0x6f,0x6f,0x62] = "MZXW6YQ" ∧
    base32Decode (fun text => String.ofList (text.toList.map Char.toUpper)) "mzXW 6yq=" = .ok [0x66,0x6f,0x6f,0x62] := by
  refine ⟨by decide +kernel,(base32_roundTrip (fun _ _ => rfl) [0x66,0x6f,0x6f,0x62]).2 _ ?_⟩
  have htext : (base32Encode [0x66,0x6f,0x6f,0x62]).toList = ['M','Z','X','W','6','Y','Q'] := by decide +kernel
  rw [htext]
  exact .letter _ _ rfl (.letter _ _ rfl (.letter _ _ rfl (.letter _ _ rfl (.inserted ' ' rfl
    (.letter _ _ rfl (.letter _ _ rfl (.letter _ _ rfl (.inserted '=' rfl .nil))))))))

end RoundTrip

end StructureAi.Identity

import Mathlib

/-! # ECDSA signatures

A signature is two numbers of 32 bytes each: side by side in a JWS, and as two integers
in a sequence where DER is asked for. An integer has as few bytes as its sign allows.
-/
namespace StructureAi.Identity.Ecdsa

/-- Without leading zeros, up to the last byte. -/
def trim : List UInt8 → List UInt8
  | [] => []
  | [b] => [b]
  | b :: c :: bs => if b = 0 then trim (c :: bs) else b :: c :: bs

def leading (bytes : List UInt8) : Bool := bytes.head?.any fun b => 0x7f < b

def integerBytes (value : List UInt8) : List UInt8 :=
  if leading (trim value) then 0 :: trim value else trim value

/-- Raw JWS (r||s, 64 bytes) → DER-encoded ECDSA signature; a length is stored in one byte. -/
def jwsSignatureToDer (raw : List UInt8) : List UInt8 :=
  let half := raw.length / 2
  let r := integerBytes (raw.take half)
  let s := integerBytes (raw.drop half)
  0x30 :: UInt8.ofNat (2 + r.length + 2 + s.length) :: 0x02 :: UInt8.ofNat r.length :: (r ++
    0x02 :: UInt8.ofNat s.length :: s)

section Parsing
variable (signature : List UInt8)

/-- The content of the integer at an offset, and the offset behind it. -/
def readInteger (offset : ℕ) : Option (List UInt8 × ℕ) :=
  if signature[offset]? = some 0x02 then
    signature[offset + 1]?.map fun length =>
      ((signature.drop (offset + 2)).take length.toNat,offset + 2 + length.toNat)
  else none

/-- The length of the sequence and where its content begins, by the byte that declares it. -/
def readLength (declaredLength : UInt8) : Option (ℕ × ℕ) :=
  if 0x80 ≤ declaredLength then
    if declaredLength &&& 0x7f ≠ 1 then none
    else signature[2]?.map fun longLength => (longLength.toNat,3)
  else some (declaredLength.toNat,2)

/-- A number of at most 32 bytes, with leading zeros up to these. -/
def padded (value : List UInt8) : Option (List UInt8) :=
  if 32 < value.length then none else some (List.replicate (32 - value.length) 0 ++ value)

/-- The number of a positive integer of the fewest bytes. -/
def normalize : List UInt8 → Option (List UInt8)
  | [] => none
  | b :: bs =>
    if b &&& 0x80 ≠ 0 then none
    else if b = 0 ∧ (bs.head?.any fun c => c &&& 0x80 = 0) then none
    else if b = 0 then padded bs
    else padded (b :: bs)

def derEcdsaToRaw : Option (List UInt8) := do
  guard (signature[0]? = some 0x30)
  let declaredLength ← signature[1]?
  let (sequenceLength,offset) ← readLength signature declaredLength
  guard (offset + sequenceLength = signature.length)
  let (r,offset) ← readInteger signature offset
  let (s,offset) ← readInteger signature offset
  guard (offset = signature.length)
  let normalizedR ← normalize r
  let normalizedS ← normalize s
  return normalizedR ++ normalizedS

end Parsing

section Integers

theorem leading_iff {b : UInt8} : 0x7f < b ↔ b &&& 0x80 ≠ 0 := by
  revert b
  decide +kernel

theorem trim_replicate (n : ℕ) {value : List UInt8} (h : value ≠ []) : trim (List.replicate n 0 ++ value) = trim value := by
  induction n with
  | zero => rfl
  | succ n ih =>
    rw [List.replicate_succ,List.cons_append]
    cases hrest : List.replicate n (0 : UInt8) ++ value with
    | nil => exact absurd (List.append_eq_nil_iff.mp hrest).2 h
    | cons c cs =>
      rw [trim,if_pos rfl,← hrest,ih]

theorem trim_of_head {b : UInt8} (h : b ≠ 0) (bs : List UInt8) : trim (b :: bs) = b :: bs := by
  cases bs with
  | nil => rfl
  | cons c bs => rw [trim,if_neg h]

theorem exists_zeros (value : List UInt8) : ∃ n rest, value = List.replicate n 0 ++ rest ∧ rest.head? ≠ some 0 := by
  induction value with
  | nil => exact ⟨0,[],rfl,nofun⟩
  | cons b bs ih =>
    by_cases hb : b = 0
    · obtain ⟨n,rest,rfl,hrest⟩ := ih
      exact ⟨n + 1,rest,by rw [hb]; rfl,hrest⟩
    · exact ⟨0,b :: bs,rfl,by simpa using hb⟩

theorem padded_eq_some {value number : List UInt8} :
    padded value = some number ↔ value.length ≤ 32 ∧ number = List.replicate (32 - value.length) 0 ++ value := by
  unfold padded
  split
  · simp only [reduceCtorEq,false_iff,not_and]
    omega
  · rw [Option.some.injEq]
    exact ⟨fun h => ⟨by omega,h.symm⟩,fun h => h.2.symm⟩

theorem normalize_integerBytes {value : List UInt8} (h : value.length = 32) :
    normalize (integerBytes value) = some value ∧ (integerBytes value).length ≤ 33 := by
  obtain ⟨n,rest,rfl,hrest⟩ := exists_zeros value
  rw [List.length_append,List.length_replicate] at h
  cases rest with
  | nil =>
    have hn : n = 32 := by simpa using h
    subst hn
    decide +kernel
  | cons b bs =>
    have hb : b ≠ 0 := by simpa using hrest
    have htrim : trim (List.replicate n 0 ++ b :: bs) = b :: bs := by
      rw [trim_replicate n (List.cons_ne_nil b bs),trim_of_head hb]
    have hpadded : padded (b :: bs) = some (List.replicate n 0 ++ b :: bs) := by
      have hn : 32 - (b :: bs).length = n := by omega
      exact padded_eq_some.mpr ⟨by omega,by rw [hn]⟩
    unfold integerBytes
    rw [htrim]
    by_cases hsign : leading (b :: bs) = true
    · have hhigh : b &&& 0x80 ≠ 0 := leading_iff.mp (by simpa [leading] using hsign)
      rw [if_pos hsign]
      constructor
      · rw [normalize,if_neg (by decide),if_neg (by simpa using hhigh),if_pos rfl,hpadded]
      · rw [List.length_cons]
        omega
    · have hlow : b &&& 0x80 = 0 := by
        by_contra hhigh
        exact hsign (by simpa [leading] using leading_iff.mpr hhigh)
      rw [if_neg hsign]
      constructor
      · rw [normalize,if_neg (by simpa using hlow),if_neg (fun hboth => hb hboth.1),if_neg hb,hpadded]
      · omega

theorem integerBytes_of_normalize {integer value : List UInt8} (h : normalize integer = some value) :
    value.length = 32 ∧ integerBytes value = integer := by
  cases integer with
  | nil => cases h
  | cons b bs =>
    rw [normalize] at h
    split at h
    · cases h
    · rename_i hsign
      have hlow : b &&& 0x80 = 0 := not_not.mp hsign
      split at h
      · cases h
      · rename_i hminimal
        split at h
        · rename_i hb
          subst hb
          obtain ⟨hle,rfl⟩ := padded_eq_some.mp h
          refine ⟨by rw [List.length_append,List.length_replicate]; omega,?_⟩
          cases bs with
          | nil => decide +kernel
          | cons c cs =>
            -- a leading zero stands before a sign only
            have hc : c &&& 0x80 ≠ 0 := fun hc => hminimal ⟨rfl,by simpa using hc⟩
            have hne : c ≠ 0 := by
              rintro rfl
              exact hc (by decide)
            rw [integerBytes,trim_replicate _ (List.cons_ne_nil c cs),trim_of_head hne,if_pos]
            simpa [leading] using leading_iff.mpr hc
        · rename_i hb
          obtain ⟨hle,rfl⟩ := padded_eq_some.mp h
          refine ⟨by rw [List.length_append,List.length_replicate]; omega,?_⟩
          rw [integerBytes,trim_replicate _ (List.cons_ne_nil b bs),trim_of_head hb,if_neg]
          have hnot : ¬ 0x7f < b := fun hlt => leading_iff.mp hlt hlow
          simpa [leading] using hnot

theorem length_le_of_normalize {integer value : List UInt8} (h : normalize integer = some value) : integer.length ≤ 33 := by
  obtain ⟨hlength,heq⟩ := integerBytes_of_normalize h
  rw [← heq]
  exact (normalize_integerBytes hlength).2

end Integers

section Sequences
variable {signature before body after r s raw rawR rawS : List UInt8} {offset next : ℕ} {n : UInt8}

def contents (r s : List UInt8) : List UInt8 :=
  0x02 :: UInt8.ofNat r.length :: (r ++ 0x02 :: UInt8.ofNat s.length :: s)

theorem length_contents (r s : List UInt8) : (contents r s).length = 2 + r.length + 2 + s.length := by
  simp only [contents,List.length_cons,List.length_append]
  omega

theorem readInteger_append (before after : List UInt8) (hn : body.length = n.toNat) :
    readInteger (before ++ 0x02 :: n :: (body ++ after)) before.length =
    some (body,before.length + 2 + n.toNat) := by
  have hfirst : (before ++ 0x02 :: n :: (body ++ after))[before.length]? = some 0x02 := by
    rw [List.getElem?_append_right le_rfl,Nat.sub_self]
    rfl
  have hlength : (before ++ 0x02 :: n :: (body ++ after))[before.length + 1]? = some n := by
    rw [List.getElem?_append_right (Nat.le_add_right ..),Nat.add_sub_cancel_left]
    rfl
  have hdrop : (before ++ 0x02 :: n :: (body ++ after)).drop (before.length + 2) = body ++ after := by
    rw [← List.drop_drop,List.drop_left]
    rfl
  rw [readInteger,if_pos hfirst,hlength,Option.map_some,hdrop,← hn,List.take_left]

theorem of_readInteger (h : readInteger signature offset = some (body,next)) (hle : next ≤ signature.length) :
    signature.drop offset = 0x02 :: UInt8.ofNat body.length :: (body ++ signature.drop next) ∧
      next = offset + 2 + body.length := by
  unfold readInteger at h
  split at h
  · rename_i hfirst
    obtain ⟨n,hn,hbody⟩ := Option.map_eq_some_iff.mp h
    obtain ⟨rfl,rfl⟩ := Prod.mk.inj hbody
    have hlength : ((signature.drop (offset + 2)).take n.toNat).length = n.toNat := by
      rw [List.length_take,List.length_drop]
      omega
    have hdrop : signature.drop offset = 0x02 :: n :: signature.drop (offset + 2) := by
      obtain ⟨hlt,hfirst⟩ := List.getElem?_eq_some_iff.mp hfirst
      obtain ⟨hlt',hn⟩ := List.getElem?_eq_some_iff.mp hn
      rw [List.drop_eq_getElem_cons hlt,hfirst,List.drop_eq_getElem_cons hlt',hn]
    refine ⟨?_,by rw [hlength]⟩
    rw [hdrop,hlength,UInt8.ofNat_toNat,← List.drop_drop (i := n.toNat) (j := offset + 2),List.take_append_drop]
  · cases h

theorem readIntegers (before : List UInt8) (hr : r.length < 256) (hs : s.length < 256) :
    readInteger (before ++ contents r s) before.length = some (r,before.length + 2 + r.length) ∧
      readInteger (before ++ contents r s) (before.length + 2 + r.length) =
        some (s,(before ++ contents r s).length) := by
  have hr' : r.length = (UInt8.ofNat r.length).toNat := by
    rw [UInt8.toNat_ofNat',Nat.mod_eq_of_lt hr]
  have hs' : s.length = (UInt8.ofNat s.length).toNat := by
    rw [UInt8.toNat_ofNat',Nat.mod_eq_of_lt hs]
  constructor
  · have hfirst := readInteger_append before (0x02 :: UInt8.ofNat s.length :: s) hr'
    rw [← hr'] at hfirst
    exact hfirst
  · have hsecond := readInteger_append (before ++ 0x02 :: UInt8.ofNat r.length :: r) [] hs'
    have hlength : (before ++ 0x02 :: UInt8.ofNat r.length :: r).length = before.length + 2 + r.length := by
      simp only [List.length_append,List.length_cons]
      omega
    have hsame : before ++ 0x02 :: UInt8.ofNat r.length :: r ++ 0x02 :: UInt8.ofNat s.length :: (s ++ []) =
        before ++ contents r s := by
      simp [contents]
    rw [hsame,hlength,← hs'] at hsecond
    rw [hsecond,List.length_append,length_contents]
    congr 2
    omega

theorem derEcdsaToRaw_short (hr : normalize r = some rawR) (hs : normalize s = some rawS) :
    derEcdsaToRaw (0x30 :: UInt8.ofNat (contents r s).length :: contents r s) = some (rawR ++ rawS) := by
  have hrle := length_le_of_normalize hr
  have hsle := length_le_of_normalize hs
  have hle : (contents r s).length ≤ 70 := by
    rw [length_contents]
    omega
  have hbyte : (UInt8.ofNat (contents r s).length).toNat = (contents r s).length := by
    rw [UInt8.toNat_ofNat',Nat.mod_eq_of_lt (by omega)]
  have hshort : ¬ 0x80 ≤ UInt8.ofNat (contents r s).length := by
    rw [UInt8.le_iff_toNat_le,hbyte]
    have h80 : (0x80 : UInt8).toNat = 128 := rfl
    omega
  obtain ⟨hfirst,hsecond⟩ := readIntegers [0x30,UInt8.ofNat (contents r s).length]
    (show r.length < 256 by omega) (show s.length < 256 by omega)
  simp only [List.cons_append,List.nil_append,List.length_cons,List.length_nil,Nat.zero_add] at hfirst hsecond
  have hguard : 2 + (contents r s).length = (contents r s).length + 1 + 1 := by omega
  simp only [derEcdsaToRaw,List.getElem?_cons_zero,List.getElem?_cons_succ,guard,if_true,readLength,if_neg hshort,hbyte,
    List.length_cons,hguard,Option.bind_eq_bind,Option.bind_some,Option.pure_def,hfirst,hsecond,hr,hs]

theorem of_guard {p : Prop} [Decidable p] {u : Unit} (h : (guard p : Option Unit) = some u) : p := by
  unfold guard at h
  split at h
  · assumption
  · cases h

theorem longForm_byte {b : UInt8} : 0x80 ≤ b → b &&& 0x7f = 1 → b = 0x81 := by
  revert b
  decide +kernel

/-- What is read is a sequence of two integers, its length in one byte or behind another. -/
theorem of_derEcdsaToRaw (h : derEcdsaToRaw signature = some raw) : ∃ r s rawR rawS, normalize r = some rawR ∧
    normalize s = some rawS ∧ raw = rawR ++ rawS ∧
      (signature = 0x30 :: UInt8.ofNat (contents r s).length :: contents r s ∧ (contents r s).length < 128 ∨
        ∃ l, signature = 0x30 :: 0x81 :: l :: contents r s) := by
  unfold derEcdsaToRaw at h
  obtain ⟨_,hhead,h⟩ := Option.bind_eq_some_iff.mp h
  obtain ⟨d,hd,h⟩ := Option.bind_eq_some_iff.mp h
  obtain ⟨⟨sequenceLength,offset⟩,hlength,h⟩ := Option.bind_eq_some_iff.mp h
  obtain ⟨_,htotal,h⟩ := Option.bind_eq_some_iff.mp h
  obtain ⟨⟨r,next⟩,hr,h⟩ := Option.bind_eq_some_iff.mp h
  obtain ⟨⟨s,last⟩,hs,h⟩ := Option.bind_eq_some_iff.mp h
  obtain ⟨_,hlast,h⟩ := Option.bind_eq_some_iff.mp h
  obtain ⟨rawR,hR,h⟩ := Option.bind_eq_some_iff.mp h
  obtain ⟨rawS,hS,hraw⟩ := Option.bind_eq_some_iff.mp h
  have hlast : last = signature.length := of_guard hlast
  have htotal : offset + sequenceLength = signature.length := of_guard htotal
  subst hlast
  obtain ⟨hsdrop,hsnext⟩ := of_readInteger hs le_rfl
  obtain ⟨hrdrop,hrnext⟩ := of_readInteger hr (by omega)
  rw [hsdrop,List.drop_length,List.append_nil] at hrdrop
  have hcontents : signature.drop offset = contents r s := hrdrop
  refine ⟨r,s,rawR,rawS,hR,hS,(Option.some.inj hraw).symm,?_⟩
  have hlen : (contents r s).length = sequenceLength := by
    rw [← hcontents,List.length_drop]
    omega
  obtain ⟨b,bs,rfl⟩ := List.exists_cons_of_ne_nil (l := signature) (by rintro rfl; cases hd)
  have hb : some b = some 0x30 := of_guard hhead
  obtain rfl := Option.some.inj hb
  obtain ⟨c,cs,rfl⟩ := List.exists_cons_of_ne_nil (l := bs) (by rintro rfl; cases hd)
  obtain rfl : c = d := Option.some.inj hd
  unfold readLength at hlength
  split at hlength
  · rename_i hlong
    split at hlength
    · cases hlength
    · rename_i hcount
      obtain ⟨l,hl,hpair⟩ := Option.map_eq_some_iff.mp hlength
      obtain ⟨rfl,rfl⟩ := Prod.mk.inj hpair
      obtain ⟨e,es,rfl⟩ := List.exists_cons_of_ne_nil (l := cs) (by rintro rfl; cases hl)
      have hc : c = 0x81 := longForm_byte hlong (not_not.mp hcount)
      right
      refine ⟨e,?_⟩
      rw [← hcontents,hc]
      rfl
  · rename_i hshort
    obtain ⟨rfl,rfl⟩ := Prod.mk.inj (Option.some.inj hlength)
    left
    have hlt : c.toNat < 128 := by
      rw [UInt8.le_iff_toNat_le] at hshort
      have h80 : (0x80 : UInt8).toNat = 128 := rfl
      omega
    refine ⟨?_,by omega⟩
    rw [hlen,UInt8.ofNat_toNat,← hcontents]
    rfl

/-- The conversions are inverse, except for a length that stands behind the byte of a long one. -/
theorem conversions_inverse (raw signature : List UInt8) :
    (raw.length = 64 → derEcdsaToRaw (jwsSignatureToDer raw) = some raw) ∧
      (derEcdsaToRaw signature = some raw → (jwsSignatureToDer raw = signature ↔ signature[1]? ≠ some 0x81)) := by
  have hder : ∀ rawR rawS : List UInt8, rawR.length = 32 → rawS.length = 32 → jwsSignatureToDer (rawR ++ rawS) =
      0x30 :: UInt8.ofNat (contents (integerBytes rawR) (integerBytes rawS)).length ::
        contents (integerBytes rawR) (integerBytes rawS) := by
    intro rawR rawS hR hS
    have hhalf : (rawR ++ rawS).length / 2 = rawR.length := by
      rw [List.length_append]
      omega
    rw [length_contents]
    simp only [jwsSignatureToDer,hhalf,List.take_left,List.drop_left]
    rfl
  constructor
  · intro hlength
    have hR : (raw.take 32).length = 32 := by
      rw [List.length_take]
      omega
    have hS : (raw.drop 32).length = 32 := by
      rw [List.length_drop]
      omega
    have hraw := hder (raw.take 32) (raw.drop 32) hR hS
    rw [List.take_append_drop] at hraw
    rw [hraw,derEcdsaToRaw_short (normalize_integerBytes hR).1 (normalize_integerBytes hS).1,List.take_append_drop]
  · intro h
    obtain ⟨r,s,rawR,rawS,hr,hs,rfl,hform⟩ := of_derEcdsaToRaw h
    obtain ⟨hR,heqR⟩ := integerBytes_of_normalize hr
    obtain ⟨hS,heqS⟩ := integerBytes_of_normalize hs
    rw [hder rawR rawS hR hS,heqR,heqS]
    have hbyte : UInt8.ofNat (contents r s).length ≠ 0x81 := by
      have hrle := length_le_of_normalize hr
      have hsle := length_le_of_normalize hs
      rw [length_contents]
      intro heq
      have hnat := congrArg UInt8.toNat heq
      rw [UInt8.toNat_ofNat',Nat.mod_eq_of_lt (by omega)] at hnat
      have h81 : (0x81 : UInt8).toNat = 129 := rfl
      omega
    rcases hform with ⟨rfl,-⟩ | ⟨l,rfl⟩
    · apply iff_of_true rfl
      simpa using hbyte
    · apply iff_of_false
      · intro heq
        exact hbyte (List.cons.inj (List.cons.inj heq).2).1
      · simp

/-- One signature with its length in one byte and behind another. -/
theorem conversions_not_inverse : ¬ ∀ signature raw : List UInt8, derEcdsaToRaw signature = some raw →
    jwsSignatureToDer raw = signature := by
  intro h
  have hlong : derEcdsaToRaw [0x30,0x81,6,2,1,1,2,1,1] =
      some (List.replicate 31 0 ++ 1 :: (List.replicate 31 0 ++ [1])) := by decide +kernel
  have hsame := h _ _ hlong
  revert hsame
  decide +kernel

end Sequences

end StructureAi.Identity.Ecdsa

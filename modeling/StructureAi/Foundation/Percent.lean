import StructureAi.Foundation.TornUtf8

/-! # Percent-encoding

A byte is escaped as a percent sign and two hexadecimal digits. `decodeURIComponent` throws at a broken escape and at
bytes that are no UTF-8; the decoding of URLs lets both pass.
-/
namespace StructureAi.Foundation
variable {c : Char} {text rest : List Char} {bytes more : List UInt8} {keeps : Char → Bool}

section Definitions

def hexDigit (c : Char) : Option ℕ :=
  if '0' ≤ c ∧ c ≤ '9' then some (c.toNat - 48)
  else if 'a' ≤ c ∧ c ≤ 'f' then some (c.toNat - 87)
  else if 'A' ≤ c ∧ c ≤ 'F' then some (c.toNat - 55)
  else none

/-- The bytes of a text with escaped ones; `none` if an escape is broken. -/
def unescape : List Char → Option (List UInt8)
  | [] => some []
  | '%' :: a :: b :: rest => do return UInt8.ofNat ((← hexDigit a) * 16 + (← hexDigit b)) :: (← unescape rest)
  | '%' :: _ => none
  | c :: rest => (unescape rest).map fun bytes => String.utf8EncodeChar c ++ bytes

/-- `none` where it throws: at a broken escape and at bytes that are not UTF-8. -/
def decodeURIComponent (encoded : String) : Option (List Char) :=
  (unescape encoded.toList).bind fun bytes =>
    let decoded := decodeUtf8 bytes
    if encodeUtf8 decoded = bytes then some decoded else none

/-- The characters `encodeURIComponent` keeps. -/
def isUnreserved (c : Char) : Bool := c.isAlphanum || "-_.!~*'()".toList.contains c

def encodeURIComponent (text : String) : String :=
  String.ofList ((encodeUtf8 text.toList).flatMap fun b =>
    let c := Char.ofNat b.toNat
    if b.toNat < 128 && isUnreserved c then [c]
    else ['%',(Nat.digitChar (b.toNat / 16)).toUpper,(Nat.digitChar (b.toNat % 16)).toUpper])

def escapeByte (b : UInt8) : List Char :=
  ['%',(Nat.digitChar (b.toNat / 16)).toUpper,(Nat.digitChar (b.toNat % 16)).toUpper]

def escapeChar (keeps : Char → Bool) (c : Char) : List Char :=
  if keeps c then [c] else (String.utf8EncodeChar c).flatMap escapeByte

/-- UTF-8 percent-encoding, which keeps some characters. -/
def percentEncode (keeps : Char → Bool) (text : List Char) : List Char := text.flatMap (escapeChar keeps)

/-- Percent-decoding of a URL: a percent sign that begins no escape stands for itself. -/
def percentDecode : List Char → List UInt8
  | [] => []
  | '%' :: a :: b :: rest =>
    match hexDigit a,hexDigit b with
    | some high,some low => UInt8.ofNat (high * 16 + low) :: percentDecode rest
    | _,_ => 0x25 :: percentDecode (a :: b :: rest)
  | c :: rest => String.utf8EncodeChar c ++ percentDecode rest

/-- Bytes that are escaped one after another, in either case of the digits. -/
inductive Escapes : List UInt8 → List Char → Prop
  | nil : Escapes [] []
  | cons {a b : Char} {high low : ℕ} {bytes : List UInt8} {text : List Char} (ha : hexDigit a = some high)
      (hb : hexDigit b = some low)
      (h : Escapes bytes text) : Escapes (UInt8.ofNat (high * 16 + low) :: bytes) ('%' :: a :: b :: text)

/-- A text of characters that stand for themselves and of others that are escaped as a whole. -/
inductive WellEscaped : List Char → Prop
  | nil : WellEscaped []
  | plain {c : Char} {rest : List Char} (hc : c ≠ '%') (h : WellEscaped rest) : WellEscaped (c :: rest)
  | escaped {c : Char} {text rest : List Char} (hc : Escapes (String.utf8EncodeChar c) text) (h : WellEscaped rest) :
      WellEscaped (text ++ rest)

end Definitions

section Reading

theorem utf8EncodeChar_small (hc : c.toNat < 0x80) : String.utf8EncodeChar c = [UInt8.ofNat c.toNat] := by
  have hval : c.val.toNat = c.toNat := rfl
  unfold String.utf8EncodeChar
  rw [hval]
  dsimp only
  rw [if_pos (by omega)]

theorem utf8EncodeChar_large (hc : 0x80 ≤ c.toNat) : ∀ b ∈ String.utf8EncodeChar c, 0x80 ≤ b.toNat := by
  rcases utf8EncodeChar_cases c with ⟨hsmall,-⟩ | ⟨-,b,tail,hchar,hne,htail,hread⟩
  · omega
  · rw [hchar]
    refine List.forall_mem_cons.mpr ⟨?_,fun b' hb => (htail b' hb).1⟩
    by_contra hsmall
    have hone := hread [] tail rfl hne
    unfold decodeUtf8 at hone
    rw [Utf8Pending.decode,Utf8Pending.start,if_pos (by omega),Utf8Pending.decode,List.append_nil] at hone
    have hchars := congrArg Char.toNat (List.cons.inj hone).1
    rw [Char.toNat_ofNat,if_pos (Or.inl (by omega))] at hchars
    exact hsmall (hchars ▸ by decide)

theorem unescape_plain (hc : c ≠ '%') : unescape (c :: rest) = (unescape rest).map fun bytes => String.utf8EncodeChar c ++
    bytes := by
  rw [unescape.eq_def]
  split
  · rename_i h
    cases h
  · rename_i h
    exact absurd (List.cons.inj h).1 hc
  · rename_i h
    exact absurd (List.cons.inj h).1 hc
  · rename_i h
    obtain ⟨rfl,rfl⟩ := List.cons.inj h
    rfl

theorem unescape_escapes {bytes : List UInt8} (h : Escapes bytes text) (rest : List Char) :
    unescape (text ++ rest) = (unescape rest).map fun more => bytes ++ more := by
  induction h with
  | nil =>
    rw [List.nil_append]
    exact Option.map_id'.symm
  | @cons a b high low bytes text ha hb h ih =>
    rw [List.cons_append,List.cons_append,List.cons_append,unescape,ha,hb,ih]
    cases unescape rest <;> rfl

theorem unescape_percent (h : unescape ('%' :: rest) = some bytes) : ∃ a b after high low tail, rest = a :: b :: after ∧
    hexDigit a = some high ∧ hexDigit b = some low ∧ unescape after = some tail ∧
      bytes = UInt8.ofNat (high * 16 + low) :: tail := by
  rcases rest with _ | ⟨a,_ | ⟨b,after⟩⟩
  · cases h
  · cases h
  · rw [unescape] at h
    obtain ⟨high,ha,h⟩ := Option.bind_eq_some_iff.mp h
    obtain ⟨low,hb,h⟩ := Option.bind_eq_some_iff.mp h
    obtain ⟨tail,htail,h⟩ := Option.bind_eq_some_iff.mp h
    exact ⟨a,b,after,high,low,tail,rfl,ha,hb,htail,(Option.some.inj h).symm⟩

theorem not_continuation {b : UInt8} {tail : List UInt8} (h : String.utf8EncodeChar c = b :: tail) : ¬ IsContinuation b := by
  intro hb
  have hread : decodeUtf8 (b :: tail) = [c] := by
    have hone := decodeUtf8_encodeUtf8 [c]
    rwa [encodeUtf8,List.flatMap_singleton,h] at hone
  rw [decodeUtf8_continuation hb] at hread
  obtain ⟨rfl,-⟩ := List.cons.inj hread
  have hfirst : b = 0xEF := (List.cons.inj h).1.symm
  rw [hfirst] at hb
  exact absurd hb.2 (by decide)

theorem escapes_of_continuations {tail : List UInt8} (htail : ∀ b ∈ tail, IsContinuation b)
    (h : unescape text = some (tail ++ more)) :
    ∃ first after, text = first ++ after ∧ Escapes tail first ∧ unescape after = some more := by
  induction tail generalizing text with
  | nil => exact ⟨[],text,rfl,.nil,h⟩
  | cons byte tail ih =>
    cases text with
    | nil => cases h
    | cons c rest =>
      by_cases hc : c = '%'
      · obtain ⟨a,b,after,high,low,bytes,rfl,ha,hb,hafter,hbytes⟩ := unescape_percent (hc ▸ h)
        obtain ⟨rfl,rfl⟩ := List.cons.inj hbytes
        obtain ⟨first,left,rfl,hfirst,hleft⟩ := ih (fun b' hb' => htail b' (List.mem_cons_of_mem _ hb')) hafter
        exact ⟨'%' :: a :: b :: first,left,by rw [hc]; rfl,.cons ha hb hfirst,hleft⟩
      · -- a character that stands for itself begins with another byte
        rw [unescape_plain hc] at h
        obtain ⟨bytes,-,hbytes⟩ := Option.map_eq_some_iff.mp h
        obtain ⟨first,others,hchar⟩ := List.exists_cons_of_ne_nil (String.utf8EncodeChar_ne_nil (c := c))
        rw [hchar,List.cons_append] at hbytes
        exact absurd (htail byte List.mem_cons_self) ((List.cons.inj hbytes).1 ▸ not_continuation hchar)

def IsUtf8 (bytes : List UInt8) : Prop := encodeUtf8 (decodeUtf8 bytes) = bytes

theorem isUtf8_append (text : List Char) : IsUtf8 (encodeUtf8 text ++ more) ↔ IsUtf8 more := by
  unfold IsUtf8
  rw [decodeUtf8_append,encodeUtf8_append,List.append_cancel_left_eq]

theorem isUtf8_encodeUtf8 (text : List Char) : IsUtf8 (encodeUtf8 text) := congrArg encodeUtf8 (decodeUtf8_encodeUtf8 text)

theorem WellEscaped.unescape (h : WellEscaped text) : ∃ decoded, unescape text = some (encodeUtf8 decoded) := by
  induction h with
  | nil => exact ⟨[],rfl⟩
  | @plain c rest hc h ih =>
    obtain ⟨decoded,hdecoded⟩ := ih
    refine ⟨c :: decoded,?_⟩
    rw [unescape_plain hc,hdecoded]
    rfl
  | @escaped c text rest hc h ih =>
    obtain ⟨decoded,hdecoded⟩ := ih
    refine ⟨c :: decoded,?_⟩
    rw [unescape_escapes hc,hdecoded]
    rfl

theorem wellEscaped_of_unescape (h : unescape text = some bytes) (hutf8 : IsUtf8 bytes) : WellEscaped text := by
  induction hlength : text.length using Nat.strong_induction_on generalizing text bytes with
  | _ n ih =>
    cases text with
    | nil => exact .nil
    | cons c rest =>
      by_cases hc : c = '%'
      · subst hc
        obtain ⟨a,b,after,high,low,tail,rfl,ha,hb,hafter,rfl⟩ := unescape_percent h
        obtain ⟨d,decoded,hdecoded⟩ : ∃ d decoded, decodeUtf8 (UInt8.ofNat (high * 16 + low) :: tail) = d :: decoded := by
          refine List.exists_cons_of_ne_nil fun hnil => ?_
          rw [IsUtf8,hnil] at hutf8
          cases hutf8
        have hbytes := hutf8
        rw [IsUtf8,hdecoded,encodeUtf8_cons] at hbytes
        obtain ⟨first,others,hchar,hothers⟩ : ∃ first others, String.utf8EncodeChar d = first :: others ∧
          ∀ b ∈ others, IsContinuation b := by
          rcases utf8EncodeChar_cases d with ⟨-,first,hchar⟩ | ⟨-,first,others,hchar,-,hothers,-⟩
          · exact ⟨first,[],hchar,List.forall_mem_nil _⟩
          · exact ⟨first,others,hchar,hothers⟩
        rw [hchar,List.cons_append] at hbytes
        obtain ⟨hfirst,htail⟩ := List.cons.inj hbytes
        rw [← htail] at hafter
        obtain ⟨spelled,left,rfl,hspelled,hleft⟩ := escapes_of_continuations hothers hafter
        have hescapes : Escapes (String.utf8EncodeChar d) ('%' :: a :: b :: spelled) := by
          rw [hchar,hfirst]
          exact .cons ha hb hspelled
        have hrest : WellEscaped left := by
          refine ih left.length ?_ hleft (isUtf8_encodeUtf8 decoded) rfl
          simp only [List.length_cons,List.length_append] at hlength
          omega
        exact .escaped hescapes hrest
      · rw [unescape_plain hc] at h
        obtain ⟨left,hleft,rfl⟩ := Option.map_eq_some_iff.mp h
        have hone : String.utf8EncodeChar c ++ left = encodeUtf8 [c] ++ left := by rw [encodeUtf8,List.flatMap_singleton]
        rw [hone,isUtf8_append] at hutf8
        refine .plain hc (ih rest.length ?_ hleft hutf8 rfl)
        rw [List.length_cons] at hlength
        omega

/-- What `decodeURIComponent` does not throw at. -/
theorem isSome_decodeURIComponent (encoded : String) : (decodeURIComponent encoded).isSome ↔ WellEscaped encoded.toList := by
  unfold decodeURIComponent
  constructor
  · intro h
    obtain ⟨decoded,hdecoded⟩ := Option.isSome_iff_exists.mp h
    obtain ⟨bytes,hbytes,hread⟩ := Option.bind_eq_some_iff.mp hdecoded
    dsimp only at hread
    split at hread
    · rename_i hutf8
      exact wellEscaped_of_unescape hbytes hutf8
    · cases hread
  · intro h
    obtain ⟨decoded,hdecoded⟩ := h.unescape
    rw [hdecoded,Option.bind_some]
    dsimp only
    rw [decodeUtf8_encodeUtf8,if_pos rfl]
    rfl

theorem unescape_append_percent (h : unescape (text ++ '%' :: rest) = some bytes) :
    ∃ first second, unescape text = some first ∧ unescape ('%' :: rest) = some second ∧ bytes = first ++ second := by
  induction hlength : text.length using Nat.strong_induction_on generalizing text bytes with
  | _ n ih =>
    cases text with
    | nil => exact ⟨[],bytes,rfl,h,rfl⟩
    | cons c text =>
      by_cases hc : c = '%'
      · subst hc
        rw [List.cons_append] at h
        obtain ⟨a,b,after,high,low,tail,hsplit,ha,hb,hafter,rfl⟩ := unescape_percent h
        rcases text with _ | ⟨a',_ | ⟨b',text⟩⟩
        · simp only [List.nil_append,List.cons.injEq] at hsplit
          rw [← hsplit.1] at ha
          cases ha
        · simp only [List.cons_append,List.nil_append,List.cons.injEq] at hsplit
          rw [← hsplit.2.1] at hb
          cases hb
        · simp only [List.cons_append,List.cons.injEq] at hsplit
          obtain ⟨rfl,rfl,rfl⟩ := hsplit
          simp only [List.length_cons] at hlength
          obtain ⟨first,second,hfirst,hsecond,rfl⟩ := ih text.length (by omega) hafter rfl
          refine ⟨UInt8.ofNat (high * 16 + low) :: first,second,?_,hsecond,rfl⟩
          rw [unescape,ha,hb,hfirst]
          rfl
      · rw [List.cons_append,unescape_plain hc] at h
        obtain ⟨left,hleft,rfl⟩ := Option.map_eq_some_iff.mp h
        simp only [List.length_cons] at hlength
        obtain ⟨first,second,hfirst,hsecond,rfl⟩ := ih text.length (by omega) hleft rfl
        refine ⟨String.utf8EncodeChar c ++ first,second,?_,hsecond,(List.append_assoc _ _ _).symm⟩
        rw [unescape_plain hc,hfirst]
        rfl

theorem encodeUtf8_around {before after : List UInt8} (hc : c.toNat < 0x80)
    (h : before ++ UInt8.ofNat c.toNat :: after = encodeUtf8 text) :
    (∃ first, before = encodeUtf8 first) ∧ ∃ second, after = encodeUtf8 second := by
  have hsmall : (UInt8.ofNat c.toNat).toNat = c.toNat := toNat_byte (by omega)
  rcases encodeUtf8_split h with ⟨first,second,-,hfirst,hsecond⟩ | ⟨_,d,_,inside,left,-,-,hleft,hchar,hinside,hne⟩
  · refine ⟨⟨first,hfirst⟩,?_⟩
    cases second with
    | nil => cases hsecond
    | cons d second =>
      rw [encodeUtf8_cons] at hsecond
      rcases utf8EncodeChar_cases d with ⟨-,b,hd⟩ | ⟨hd,-⟩
      · rw [hd,List.singleton_append] at hsecond
        exact ⟨second,(List.cons.inj hsecond).2⟩
      · obtain ⟨b,tail,hbytes⟩ := List.exists_cons_of_ne_nil (String.utf8EncodeChar_ne_nil (c := d))
        have hlarge := utf8EncodeChar_large hd b (hbytes ▸ List.mem_cons_self)
        rw [hbytes,List.cons_append] at hsecond
        rw [← (List.cons.inj hsecond).1,hsmall] at hlarge
        omega
  · -- inside a character only bytes that go on with it follow
    obtain ⟨-,-,hcontinue⟩ := decodeUtf8_cut hchar hinside hne
    obtain ⟨b,tail,rfl⟩ := List.exists_cons_of_ne_nil hne
    rw [List.cons_append] at hleft
    have hlarge := (hcontinue b List.mem_cons_self).1
    rw [← (List.cons.inj hleft).1,hsmall] at hlarge
    omega

theorem WellEscaped.append (htext : WellEscaped text) (hrest : WellEscaped rest) : WellEscaped (text ++ rest) := by
  induction htext with
  | nil => exact hrest
  | plain hc _ ih => exact .plain hc ih
  | escaped hc _ ih =>
    rw [List.append_assoc]
    exact .escaped hc ih

theorem wellEscaped_at : WellEscaped (text ++ "%40".toList ++ rest) ↔ WellEscaped text ∧ WellEscaped rest := by
  have hform : text ++ "%40".toList ++ rest = text ++ '%' :: '4' :: '0' :: rest := by
    rw [List.append_assoc]
    rfl
  rw [hform]
  constructor
  · intro h
    obtain ⟨decoded,h⟩ := h.unescape
    obtain ⟨first,second,hfirst,hsecond,hbytes⟩ := unescape_append_percent h
    obtain ⟨a,b,after,high,low,tail,hsplit,ha,hb,hafter,rfl⟩ := unescape_percent hsecond
    simp only [List.cons.injEq] at hsplit
    obtain ⟨rfl,rfl,rfl⟩ := hsplit
    obtain rfl : 4 = high := Option.some.inj ha
    obtain rfl : 0 = low := Option.some.inj hb
    obtain ⟨⟨before,rfl⟩,⟨last,rfl⟩⟩ := encodeUtf8_around (c := '@') (by decide) hbytes.symm
    exact ⟨wellEscaped_of_unescape hfirst (isUtf8_encodeUtf8 before),wellEscaped_of_unescape hafter (isUtf8_encodeUtf8 last)⟩
  · rintro ⟨hfirst,hsecond⟩
    have hat : Escapes (String.utf8EncodeChar '@') ['%','4','0'] := .cons (a := '4') (b := '0') rfl rfl .nil
    exact hfirst.append (.escaped hat hsecond)

end Reading

section Writing

theorem escapeChar_kept (hc : keeps c = true) : escapeChar keeps c = [c] := if_pos hc

theorem escapeChar_escaped (hc : keeps c = false) : escapeChar keeps c = (String.utf8EncodeChar c).flatMap escapeByte := by
  rw [escapeChar,hc]
  rfl

theorem hexDigit_digitChar : ∀ n < 16, hexDigit (Nat.digitChar n).toUpper = some n := by decide

theorem isUnreserved_digitChar : ∀ n < 16, isUnreserved (Nat.digitChar n).toUpper = true := by decide

theorem escapes_flatMap (bytes : List UInt8) : Escapes bytes (bytes.flatMap escapeByte) := by
  induction bytes with
  | nil => exact .nil
  | cons b bytes ih =>
    have hb : b.toNat < 256 := b.toNat_lt
    have hescapes := Escapes.cons (hexDigit_digitChar (b.toNat / 16) (by omega))
      (hexDigit_digitChar (b.toNat % 16) (by omega)) ih
    rwa [Nat.div_add_mod',UInt8.ofNat_toNat] at hescapes

theorem escapes_escapeChar (hc : keeps c = false) : Escapes (String.utf8EncodeChar c) (escapeChar keeps c) := by
  rw [escapeChar,hc]
  exact escapes_flatMap _

theorem unescape_percentEncode (hkeeps : keeps '%' = false) (text : List Char) :
    unescape (percentEncode keeps text) = some (encodeUtf8 text) := by
  induction text with
  | nil => rfl
  | cons c text ih =>
    have htail : unescape (text.flatMap (escapeChar keeps)) = some (encodeUtf8 text) := ih
    rw [percentEncode,List.flatMap_cons]
    cases hc : keeps c with
    | true =>
      have hplain : c ≠ '%' := by
        rintro rfl
        rw [hc] at hkeeps
        cases hkeeps
      rw [escapeChar,hc,if_pos rfl,List.singleton_append,unescape_plain hplain,htail]
      rfl
    | false =>
      rw [unescape_escapes (escapes_escapeChar hc),htail]
      rfl

theorem percentDecode_plain (hc : c ≠ '%') : percentDecode (c :: rest) = String.utf8EncodeChar c ++ percentDecode rest := by
  rw [percentDecode.eq_def]
  split
  · rename_i h
    cases h
  · rename_i h
    exact absurd (List.cons.inj h).1 hc
  · rename_i h
    obtain ⟨rfl,rfl⟩ := List.cons.inj h
    rfl

theorem percentDecode_escapes (h : Escapes bytes text) (rest : List Char) : percentDecode (text ++ rest) = bytes ++
    percentDecode rest := by
  induction h with
  | nil => rfl
  | cons ha hb h ih =>
    rw [List.cons_append,List.cons_append,List.cons_append,percentDecode,ha,hb]
    exact congrArg _ ih

theorem percentDecode_percentEncode (hkeeps : keeps '%' = false) (text : List Char) :
    percentDecode (percentEncode keeps text) = encodeUtf8 text := by
  induction text with
  | nil => rfl
  | cons c text ih =>
    have htail : percentDecode (text.flatMap (escapeChar keeps)) = encodeUtf8 text := ih
    rw [percentEncode,List.flatMap_cons]
    cases hc : keeps c with
    | true =>
      have hplain : c ≠ '%' := by
        rintro rfl
        rw [hc] at hkeeps
        cases hkeeps
      rw [escapeChar,hc,if_pos rfl,List.singleton_append,percentDecode_plain hplain,htail]
      rfl
    | false =>
      rw [percentDecode_escapes (escapes_escapeChar hc),htail]
      rfl

theorem mem_escapeByte {b : UInt8} (h : c ∈ escapeByte b) : c = '%' ∨ ∃ n < 16, c = (Nat.digitChar n).toUpper := by
  have hb : b.toNat < 256 := b.toNat_lt
  simp only [escapeByte,List.mem_cons,List.not_mem_nil,or_false] at h
  rcases h with rfl | rfl | rfl
  · exact Or.inl rfl
  · exact Or.inr ⟨_,by omega,rfl⟩
  · exact Or.inr ⟨_,by omega,rfl⟩

theorem mem_percentEncode (h : c ∈ percentEncode keeps text) : keeps c = true ∨ c = '%' ∨
    ∃ n < 16, c = (Nat.digitChar n).toUpper := by
  obtain ⟨d,-,hd⟩ := List.mem_flatMap.mp h
  unfold escapeChar at hd
  split at hd
  · rename_i hkept
    exact Or.inl (List.mem_singleton.mp hd ▸ hkept)
  · obtain ⟨b,-,hb⟩ := List.mem_flatMap.mp hd
    exact Or.inr (mem_escapeByte hb)

theorem percentEncode_kept (h : ∀ c ∈ text, keeps c = true) : percentEncode keeps text = text := by
  induction text with
  | nil => rfl
  | cons c text ih =>
    rw [percentEncode,List.flatMap_cons,escapeChar,h c List.mem_cons_self,if_pos rfl,List.singleton_append]
    exact congrArg (c :: ·) (ih fun d hd => h d (List.mem_cons_of_mem c hd))

/-- Encoding what is encoded escapes what the first set keeps and the second does not. -/
theorem percentEncode_percentEncode {also : Char → Bool} (hpercent : also '%' = true)
    (hdigits : ∀ n < 16, also (Nat.digitChar n).toUpper = true) (text : List Char) :
    percentEncode also (percentEncode keeps text) = percentEncode (fun c => keeps c && also c) text := by
  unfold percentEncode
  rw [List.flatMap_assoc]
  refine List.flatMap_congr fun c _ => ?_
  cases hc : keeps c with
  | true =>
    have hone : [c].flatMap (escapeChar also) = escapeChar (fun c => keeps c && also c) c := by
      rw [List.flatMap_singleton]
      cases halso : also c with
      | true => rw [escapeChar_kept halso,escapeChar_kept (Bool.and_eq_true_iff.mpr ⟨hc,halso⟩)]
      | false => rw [escapeChar_escaped halso,escapeChar_escaped (Bool.and_eq_false_iff.mpr (Or.inr halso))]
    rw [escapeChar_kept hc,hone]
  | false =>
    have hkept : ∀ d ∈ (String.utf8EncodeChar c).flatMap escapeByte, also d = true := by
      intro d hd
      obtain ⟨b,-,hb⟩ := List.mem_flatMap.mp hd
      rcases mem_escapeByte hb with rfl | ⟨n,hn,rfl⟩
      · exact hpercent
      · exact hdigits n hn
    rw [escapeChar_escaped hc,escapeChar_escaped (Bool.and_eq_false_iff.mpr (Or.inl hc))]
    exact percentEncode_kept hkept

theorem isUnreserved_small (h : isUnreserved c = true) : c.toNat < 0x80 := by
  rw [isUnreserved,Bool.or_eq_true,List.contains_iff_mem] at h
  rcases h with h | h
  · have hval : c.val.toNat = c.toNat := rfl
    simp only [Char.isAlphanum,Char.isAlpha,Char.isUpper,Char.isLower,Char.isDigit,Bool.or_eq_true,Bool.and_eq_true,
      decide_eq_true_eq,
      UInt32.le_iff_toNat_le,ge_iff_le,hval] at h
    have hZ : 'Z'.val.toNat = 90 := rfl
    have hz : 'z'.val.toNat = 122 := rfl
    have hnine : '9'.val.toNat = 57 := rfl
    omega
  · have hall : ("-_.!~*'()".toList.all fun d => d.toNat < 0x80) = true := by decide
    exact of_decide_eq_true (List.all_eq_true.mp hall c h)

/-- Encoding byte by byte is encoding character by character, where no character of several bytes is kept. -/
theorem flatMap_bytes (hkeeps : ∀ c, keeps c = true → c.toNat < 0x80) (text : List Char) :
    ((encodeUtf8 text).flatMap fun b => if b.toNat < 128 &&
      keeps (Char.ofNat b.toNat) then [Char.ofNat b.toNat] else escapeByte b) =
      percentEncode keeps text := by
  unfold percentEncode encodeUtf8
  rw [List.flatMap_assoc]
  refine List.flatMap_congr fun c _ => ?_
  unfold escapeChar
  by_cases hc : c.toNat < 0x80
  · rw [utf8EncodeChar_small hc,List.flatMap_singleton,List.flatMap_singleton,toNat_byte (by omega),Char.ofNat_toNat,
      decide_eq_true hc,
      Bool.true_and]
  · rw [if_neg fun hkept => hc (hkeeps c hkept)]
    refine List.flatMap_congr fun b hb => if_neg fun hkept => ?_
    have hlarge := utf8EncodeChar_large (by omega) b hb
    have hsmall := of_decide_eq_true (Bool.and_eq_true_iff.mp hkept).1
    omega

theorem encodeURIComponent_eq (text : String) : encodeURIComponent text =
    String.ofList (percentEncode isUnreserved text.toList) :=
  congrArg String.ofList (flatMap_bytes (fun _ => isUnreserved_small) text.toList)

/-- What `encodeURIComponent` writes, `decodeURIComponent` reads. -/
theorem decodeURIComponent_encodeURIComponent (text : String) : decodeURIComponent (encodeURIComponent text) =
    some text.toList := by
  rw [encodeURIComponent_eq,decodeURIComponent,String.toList_ofList,unescape_percentEncode (by decide),Option.bind_some]
  dsimp only
  rw [decodeUtf8_encodeUtf8,if_pos rfl]

end Writing

end StructureAi.Foundation

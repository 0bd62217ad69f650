import Mathlib

/-! # Bytes, UTF-8 and base64

`decodeUtf8` replaces what is not well formed, as `TextDecoder` does; `atob` is the
forgiving decoder, which skips white space and takes the padding or leaves it.
-/
namespace StructureAi.Foundation

section Utf8

/-- `new TextEncoder().encode(text)`. -/
def encodeUtf8 (text : List Char) : List UInt8 := text.flatMap String.utf8EncodeChar

/-- What a sequence has come to, how many bytes it needs, and the range of the next one. -/
structure Utf8Pending where
  value : ℕ
  needed : ℕ
  lower : ℕ
  upper : ℕ

namespace Utf8Pending

/-- A byte that begins a sequence: the characters it decides, and what is pending. -/
def start (b : UInt8) : List Char × Option Utf8Pending :=
  if b.toNat < 0x80 then ([Char.ofNat b.toNat],none)
  else if b.toNat < 0xC2 then (['\uFFFD'],none)
  else if b.toNat < 0xE0 then ([],some ⟨b.toNat - 0xC0,1,0x80,0xBF⟩)
  else if b.toNat < 0xF0 then
    ([],some ⟨b.toNat - 0xE0,2,if b.toNat = 0xE0 then 0xA0 else 0x80,if b.toNat = 0xED then 0x9F else 0xBF⟩)
  else if b.toNat < 0xF5 then
    ([],some ⟨b.toNat - 0xF0,3,if b.toNat = 0xF0 then 0x90 else 0x80,if b.toNat = 0xF4 then 0x8F else 0xBF⟩)
  else (['\uFFFD'],none)

/-- A byte in a sequence; one that breaks it is read as a beginning. -/
def advance (p : Utf8Pending) (b : UInt8) : List Char × Option Utf8Pending :=
  if p.lower ≤ b.toNat ∧ b.toNat ≤ p.upper then
    if p.needed = 1 then ([Char.ofNat (p.value * 64 + (b.toNat - 0x80))],none)
    else ([],some ⟨p.value * 64 + (b.toNat - 0x80),p.needed - 1,0x80,0xBF⟩)
  else ('\uFFFD' :: (start b).1,(start b).2)

/-- The characters of the bytes after those that are pending. -/
def decode : Option Utf8Pending → List UInt8 → List Char
  | none,[] => []
  | some _,[] => ['\uFFFD']
  | none,b :: rest => (start b).1 ++ decode (start b).2 rest
  | some p,b :: rest => (p.advance b).1 ++ decode (p.advance b).2 rest

end Utf8Pending

def decodeUtf8 (bytes : List UInt8) : List Char := Utf8Pending.decode none bytes

/-- `new TextDecoder().decode(bytes)`, without the byte order mark. -/
def decodeText : List UInt8 → List Char
  | 0xEF :: 0xBB :: 0xBF :: bytes => decodeUtf8 bytes
  | bytes => decodeUtf8 bytes

theorem toNat_byte {n : ℕ} (h : n < 256) : (UInt8.ofNat n).toNat = n := by
  rw [UInt8.toNat_ofNat']
  exact Nat.mod_eq_of_lt h

namespace Utf8Pending

theorem advance_last {value lower upper n : ℕ} (hn : n < 64) (hl : lower ≤ n + 0x80) (hu : n + 0x80 ≤ upper) :
    Utf8Pending.advance ⟨value,1,lower,upper⟩ (UInt8.ofNat (n + 0x80)) =
      ([Char.ofNat (value * 64 + n)],none) := by
  unfold Utf8Pending.advance
  rw [toNat_byte (by omega),if_pos ⟨hl,hu⟩,if_pos rfl,Nat.add_sub_cancel]

theorem advance_more {value needed lower upper n : ℕ} (hn : n < 64) (hl : lower ≤ n + 0x80) (hu : n + 0x80 ≤ upper) :
    Utf8Pending.advance ⟨value,needed + 2,lower,upper⟩ (UInt8.ofNat (n + 0x80)) =
      ([],some ⟨value * 64 + n,needed + 1,0x80,0xBF⟩) := by
  unfold Utf8Pending.advance
  rw [toNat_byte (by omega),if_pos ⟨hl,hu⟩,if_neg (show ¬ needed + 2 = 1 by omega),Nat.add_sub_cancel]
  rfl

theorem decode_encodeChar (c : Char) (rest : List UInt8) :
    decode none (String.utf8EncodeChar c ++ rest) = c :: decode none rest := by
  have hvalid : c.toNat < 0xD800 ∨ 0xDFFF < c.toNat ∧ c.toNat < 0x110000 := c.valid
  have hchar : ∀ n, n = c.toNat → Char.ofNat n = c := fun n hn => hn ▸ Char.ofNat_toNat c
  have htoNat : c.val.toNat = c.toNat := rfl
  unfold String.utf8EncodeChar
  rw [htoNat]
  generalize hn : c.toNat = n at *
  dsimp only
  split
  · have hb : (UInt8.ofNat n).toNat = n := toNat_byte (by omega)
    rw [List.singleton_append,decode,start,hb,if_pos (by omega),hchar n rfl]
    rfl
  · split
    · have hb : (UInt8.ofNat (n / 64 % 32 + 192)).toNat = n / 64 + 192 := by
        rw [toNat_byte (by omega)]
        omega
      rw [List.cons_append,decode,start,hb,if_neg (by omega),if_neg (by omega),if_pos (by omega)]
      rw [List.nil_append,List.singleton_append,decode,advance_last (by omega) (by omega) (by omega)]
      rw [hchar _ (by omega)]
      rfl
    · split
      · have hb : (UInt8.ofNat (n / 4096 % 16 + 224)).toNat = n / 4096 + 224 := by
          rw [toNat_byte (by omega)]
          omega
        rw [List.cons_append,decode,start,hb,if_neg (by omega),if_neg (by omega),if_neg (by omega),if_pos (by omega)]
        rw [List.nil_append,List.cons_append,decode,
          advance_more (by omega) (by split <;> omega) (by split <;> omega)]
        rw [List.nil_append,List.singleton_append,decode,advance_last (by omega) (by omega) (by omega)]
        rw [hchar _ (by omega)]
        rfl
      · have hb : (UInt8.ofNat (n / 262144 % 8 + 240)).toNat = n / 262144 + 240 := by
          rw [toNat_byte (by omega)]
          omega
        rw [List.cons_append,decode,start,hb,if_neg (by omega),if_neg (by omega),if_neg (by omega),if_neg (by omega),
          if_pos (by omega)]
        rw [List.nil_append,List.cons_append,decode,
          advance_more (by omega) (by split <;> omega) (by split <;> omega)]
        rw [List.nil_append,List.cons_append,decode,advance_more (by omega) (by omega) (by omega)]
        rw [List.nil_append,List.singleton_append,decode,advance_last (by omega) (by omega) (by omega)]
        rw [hchar _ (by omega)]
        rfl

end Utf8Pending

theorem decodeUtf8_encodeUtf8 (text : List Char) : decodeUtf8 (encodeUtf8 text) = text := by
  unfold decodeUtf8 encodeUtf8
  induction text with
  | nil => rfl
  | cons c text ih => rw [List.flatMap_cons,Utf8Pending.decode_encodeChar,ih]

theorem encodeUtf8_injective : Function.Injective encodeUtf8 := Function.LeftInverse.injective decodeUtf8_encodeUtf8

theorem decodeText_encodeUtf8 {c : Char} {text : List Char} (hc : c.toNat < 0x80) :
    decodeText (encodeUtf8 (c :: text)) = c :: text := by
  have hfirst : ∃ rest, encodeUtf8 (c :: text) = UInt8.ofNat c.toNat :: rest := by
    have hval : c.val.toNat ≤ 0x7f := Nat.le_of_lt_succ hc
    refine ⟨encodeUtf8 text,?_⟩
    rw [encodeUtf8,List.flatMap_cons,String.utf8EncodeChar]
    simp only [if_pos hval]
    rfl
  obtain ⟨rest,hrest⟩ := hfirst
  have hne : UInt8.ofNat c.toNat ≠ 0xEF := by
    intro he
    have hn := congrArg UInt8.toNat he
    rw [toNat_byte (by omega)] at hn
    change c.toNat = 239 at hn
    omega
  rw [← decodeUtf8_encodeUtf8 (c :: text),hrest]
  unfold decodeText
  split
  · rename_i bytes he
    rw [← hrest,decodeUtf8_encodeUtf8,hrest] at he
    exact absurd (List.cons.inj he).1 hne
  · rw [← hrest,decodeUtf8_encodeUtf8]

end Utf8

section Base64

def base64Char (n : ℕ) : Char :=
  if n < 26 then Char.ofNat (n + 65)
  else if n < 52 then Char.ofNat (n + 71)
  else if n < 62 then Char.ofNat (n - 4)
  else if n = 62 then '+'
  else '/'

def base64Value (c : Char) : Option ℕ :=
  if 'A' ≤ c ∧ c ≤ 'Z' then some (c.toNat - 65)
  else if 'a' ≤ c ∧ c ≤ 'z' then some (c.toNat - 71)
  else if '0' ≤ c ∧ c ≤ '9' then some (c.toNat + 4)
  else if c = '+' then some 62
  else if c = '/' then some 63
  else none

def sextets : List UInt8 → List ℕ
  | [] => []
  | [a] => [a.toNat / 4,a.toNat % 4 * 16]
  | [a,b] => [a.toNat / 4,a.toNat % 4 * 16 + b.toNat / 16,b.toNat % 16 * 4]
  | a :: b :: c :: rest =>
    a.toNat / 4 :: (a.toNat % 4 * 16 + b.toNat / 16) :: (b.toNat % 16 * 4 + c.toNat / 64) :: c.toNat % 64 ::
      sextets rest

/-- The bytes of groups of six bits; bits that fill no byte are dropped. -/
def ofSextets : List ℕ → List UInt8
  | p :: q :: r :: s :: rest =>
    .ofNat (p * 4 + q / 16) :: .ofNat (q % 16 * 16 + r / 4) :: .ofNat (r % 4 * 64 + s) :: ofSextets rest
  | [p,q,r] => [.ofNat (p * 4 + q / 16),.ofNat (q % 16 * 16 + r / 4)]
  | [p,q] => [.ofNat (p * 4 + q / 16)]
  | _ => []

/-- `padEnd` to a multiple of four. -/
def padded (cs : List Char) : List Char := cs ++ List.replicate ((4 - cs.length % 4) % 4) '='

def btoa (bytes : List UInt8) : List Char := padded ((sextets bytes).map base64Char)

/-- Up to two `=` at the end are padding. -/
def withoutPadding (cs : List Char) : List Char :=
  match cs.reverse with
  | '=' :: '=' :: rest => rest.reverse
  | '=' :: rest => rest.reverse
  | _ => cs

def isAsciiSpace (c : Char) : Bool := c = ' ' || c = '\t' || c = '\n' || c = '\x0c' || c = '\r'

/-- `none` is a thrown `InvalidCharacterError`. -/
def atob (text : List Char) : Option (List UInt8) :=
  let cs := text.filter fun c => !isAsciiSpace c
  let cs := if cs.length % 4 = 0 then withoutPadding cs else cs
  if cs.length % 4 = 1 then none else (cs.mapM base64Value).map ofSextets

/-- From the alphabet of base64 to the one that URLs take. -/
def toUrlChar (c : Char) : Char := if c = '+' then '-' else if c = '/' then '_' else c

def ofUrlChar (c : Char) : Char := if c = '-' then '+' else if c = '_' then '/' else c

def encodeBase64Url (bytes : List UInt8) : String :=
  String.ofList (((btoa bytes).map toUrlChar).rdropWhile (· = '='))

def decodeBase64Url (text : String) : Option (List UInt8) := atob (padded (text.toList.map ofUrlChar))

theorem base64Value_char : ∀ n < 64, base64Value (base64Char n) = some n := by decide

theorem ofUrlChar_char : ∀ n < 64, ofUrlChar (toUrlChar (base64Char n)) = base64Char n := by decide

theorem char_kind : ∀ n < 64, base64Char n ≠ '=' ∧ isAsciiSpace (base64Char n) = false := by decide

theorem urlChar_kind : ∀ n < 64, toUrlChar (base64Char n) ≠ '=' ∧ toUrlChar (base64Char n) ≠ '.' ∧
    toUrlChar (base64Char n) ≠ '\x00' := by decide

theorem sextets_lt (bytes : List UInt8) : ∀ n ∈ sextets bytes, n < 64 := by
  induction bytes using sextets.induct with
  | case1 => simp [sextets]
  | case2 a =>
    have ha := a.toNat_lt
    simp only [sextets,List.mem_cons,List.not_mem_nil,or_false,forall_eq_or_imp,forall_eq]
    omega
  | case3 a b =>
    have ha := a.toNat_lt
    have hb := b.toNat_lt
    simp only [sextets,List.mem_cons,List.not_mem_nil,or_false,forall_eq_or_imp,forall_eq]
    omega
  | case4 a b c rest ih =>
    have ha := a.toNat_lt
    have hb := b.toNat_lt
    have hc := c.toNat_lt
    simp only [sextets,List.mem_cons,forall_eq_or_imp]
    refine ⟨?_,?_,?_,?_,ih⟩ <;> omega

theorem ofSextets_sextets (bytes : List UInt8) : ofSextets (sextets bytes) = bytes := by
  have hbyte : ∀ (a : UInt8) n, n = a.toNat → UInt8.ofNat n = a := by
    rintro a n rfl
    exact UInt8.ofNat_toNat
  induction bytes using sextets.induct with
  | case1 => rfl
  | case2 a =>
    have ha := a.toNat_lt
    rw [sextets,ofSextets,hbyte a _ (by omega)]
  | case3 a b =>
    have ha := a.toNat_lt
    have hb := b.toNat_lt
    rw [sextets,ofSextets,hbyte a _ (by omega),hbyte b _ (by omega)]
  | case4 a b c rest ih =>
    have ha := a.toNat_lt
    have hb := b.toNat_lt
    have hc := c.toNat_lt
    rw [sextets,ofSextets,ih,hbyte a _ (by omega),hbyte b _ (by omega),hbyte c _ (by omega)]

theorem length_sextets (bytes : List UInt8) : (sextets bytes).length % 4 ≠ 1 := by
  induction bytes using sextets.induct with
  | case1 => decide
  | case2 a => simp [sextets]
  | case3 a b => simp [sextets]
  | case4 a b c rest ih =>
    simp only [sextets,List.length_cons]
    omega

theorem encodeBase64Url_eq (bytes : List UInt8) :
    (encodeBase64Url bytes).toList = (sextets bytes).map fun n => toUrlChar (base64Char n) := by
  unfold encodeBase64Url btoa padded
  rw [String.toList_ofList,List.map_append,List.map_map,List.map_replicate]
  have hpad : ∀ (k : ℕ) (cs : List Char), (∀ c ∈ cs, c ≠ '=') →
      (cs ++ List.replicate k (toUrlChar '=')).rdropWhile (· = '=') = cs := by
    intro k cs hcs
    induction k with
    | zero =>
      rw [List.replicate_zero,List.append_nil]
      cases cs using List.reverseRecOn with
      | nil => rfl
      | append_singleton cs c =>
        apply List.rdropWhile_concat_neg
        simpa using hcs c (List.mem_append_right cs List.mem_cons_self)
    | succ k ih =>
      rw [List.replicate_succ',← List.append_assoc,List.rdropWhile_concat_pos _ _ _ (by decide),ih]
  apply hpad
  intro c hc
  obtain ⟨n,hn,rfl⟩ := List.mem_map.mp hc
  exact (urlChar_kind n (sextets_lt bytes n hn)).1

theorem not_mem_encodeBase64Url (bytes : List UInt8) :
    '.' ∉ (encodeBase64Url bytes).toList ∧ '\x00' ∉ (encodeBase64Url bytes).toList := by
  rw [encodeBase64Url_eq]
  constructor
  · intro hin
    obtain ⟨n,hn,he⟩ := List.mem_map.mp hin
    exact (urlChar_kind n (sextets_lt bytes n hn)).2.1 he
  · intro hin
    obtain ⟨n,hn,he⟩ := List.mem_map.mp hin
    exact (urlChar_kind n (sextets_lt bytes n hn)).2.2 he

theorem withoutPadding_padded {cs : List Char} (hcs : ∀ c ∈ cs, c ≠ '=') (hl : cs.length % 4 ≠ 1) :
    withoutPadding (padded cs) = cs := by
  have hk : (4 - cs.length % 4) % 4 = 0 ∨ (4 - cs.length % 4) % 4 = 1 ∨ (4 - cs.length % 4) % 4 = 2 := by omega
  have hhead : ∀ c rest, cs.reverse = c :: rest → c ≠ '=' := by
    intro c rest hr
    exact hcs c (List.mem_reverse.mp (hr ▸ List.mem_cons_self))
  unfold padded withoutPadding
  rcases hk with hk | hk | hk
  · rw [hk,List.replicate_zero,List.append_nil]
    split
    · rename_i rest hr
      exact absurd rfl (hhead _ _ hr)
    · rename_i rest hr
      exact absurd rfl (hhead _ _ hr)
    · rfl
  · rw [hk,List.reverse_append]
    change (match '=' :: cs.reverse with
      | '=' :: '=' :: rest => rest.reverse
      | '=' :: rest => rest.reverse
      | _ => cs ++ List.replicate 1 '=') = cs
    split
    · rename_i rest hr
      exact absurd rfl (hhead _ _ (List.cons.inj hr).2)
    · rename_i rest _ hr
      rw [← (List.cons.inj hr).2,List.reverse_reverse]
    · rename_i hne
      exact absurd rfl (hne _)
  · rw [hk,List.reverse_append]
    change (cs.reverse).reverse = cs
    exact List.reverse_reverse cs

theorem length_padded (cs : List Char) : (padded cs).length % 4 = 0 := by
  unfold padded
  rw [List.length_append,List.length_replicate]
  omega

theorem decodeBase64Url_encodeBase64Url (bytes : List UInt8) : decodeBase64Url (encodeBase64Url bytes) = some bytes := by
  have hlt := sextets_lt bytes
  have hback : (encodeBase64Url bytes).toList.map ofUrlChar = (sextets bytes).map base64Char := by
    rw [encodeBase64Url_eq,List.map_map]
    apply List.map_congr_left
    exact fun n hn => ofUrlChar_char n (hlt n hn)
  have hkind : ∀ c ∈ (sextets bytes).map base64Char, c ≠ '=' ∧ isAsciiSpace c = false := by
    intro c hc
    obtain ⟨n,hn,rfl⟩ := List.mem_map.mp hc
    exact char_kind n (hlt n hn)
  have hspace : (padded ((sextets bytes).map base64Char)).filter (fun c => !isAsciiSpace c) =
      padded ((sextets bytes).map base64Char) := by
    rw [List.filter_eq_self]
    intro c hc
    rcases List.mem_append.mp hc with hc | hc
    · rw [(hkind c hc).2]
      rfl
    · rw [List.eq_of_mem_replicate hc]
      decide
  have hvalues : ((sextets bytes).map base64Char).mapM base64Value = some (sextets bytes) := by
    generalize sextets bytes = ns at hlt
    induction ns with
    | nil => rfl
    | cons n ns ih =>
      rw [List.map_cons,List.mapM_cons,base64Value_char n (hlt n List.mem_cons_self),
        ih fun m hm => hlt m (List.mem_cons_of_mem n hm)]
      rfl
  unfold decodeBase64Url atob
  rw [hback,hspace]
  dsimp only
  rw [if_pos (length_padded _),withoutPadding_padded (fun c hc => (hkind c hc).1) (by
    rw [List.length_map]
    exact length_sextets bytes)]
  rw [if_neg (by
    rw [List.length_map]
    exact length_sextets bytes),hvalues,Option.map_some,ofSextets_sextets]

theorem encodeBase64Url_injective : Function.Injective encodeBase64Url := by
  intro a b h
  have hd := congrArg decodeBase64Url h
  rw [decodeBase64Url_encodeBase64Url,decodeBase64Url_encodeBase64Url] at hd
  exact Option.some.inj hd

end Base64

/-- Sequences of one length are equal where the differences of their elements come to nothing. -/
theorem foldl_differences {α β : Type} [Zero β] {collect : β → β → β} {differ : α → α → β}
    (hcollect : ∀ d e, collect d e = 0 ↔ d = 0 ∧ e = 0) (hdiffer : ∀ x y, differ x y = 0 ↔ x = y) (xs : List α) :
    ∀ (ys : List α) (d : β), xs.length = ys.length →
      ((xs.zip ys).foldl (fun d pair => collect d (differ pair.1 pair.2)) d = 0 ↔ d = 0 ∧ xs = ys) := by
  induction xs with
  | nil =>
    intro ys d hl
    obtain rfl := List.eq_nil_of_length_eq_zero hl.symm
    simp
  | cons x xs ih =>
    intro ys d hl
    cases ys with
    | nil => cases hl
    | cons y ys =>
      rw [List.zip_cons_cons,List.foldl_cons,ih ys _ (Nat.succ.inj hl),hcollect,hdiffer,List.cons.injEq,and_assoc]

end StructureAi.Foundation

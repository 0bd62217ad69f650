import StructureAi.Foundation.TornUtf8
import StructureAi.Identity.Cbor

/-! # What the CBOR decoder reads

The encodings of a value by the numbers of levels, with every width of a length. The decoder returns a value at an
offset exactly when an encoding of it stands there, and the offset just past it.
-/
namespace StructureAi.Identity.Cbor
open StructureAi.Foundation

/-! ### The encodings -/

/-- An argument as the low bits of a first byte and the bytes after it: the bits themselves, or one, two, four or eight
bytes. No argument is beyond the safe integers. -/
def Argument (additional n : ℕ) (tail : List UInt8) : Prop := (additional < 24 ∧ n = additional ∧ tail = []) ∨
  (additional,tail.length) ∈ [(24,1),(25,2),(26,4),(27,8)] ∧ n = Webauthn.bigEndian tail ∧ n < 2 ^ 53

/-- The first byte, with the kind in its three high bits, and the argument. -/
def Head (major n : ℕ) (code : List UInt8) : Prop := ∃ additional tail,
  Argument additional n tail ∧ code = UInt8.ofNat (major * 32 + additional) :: tail

/-- The bytes of a text, or those of the text after a byte order mark. -/
def TextCode (text : List Char) (code : List UInt8) : Prop :=
  (code = encodeUtf8 text ∧ text.head? ≠ some '\uFEFF') ∨ code = encodeUtf8 ('\uFEFF' :: text)

/-- The keys that a map compares by what they are. -/
def CborValue.Primitive : CborValue → Prop
  | .bytes _ | .array _ | .map _ => False
  | _ => True

abbrev Coded := CborValue × List UInt8

def entryOf (item : Coded × Coded) : CborValue × CborValue := (item.1.1,item.2.1)

def entryCode (item : Coded × Coded) : List UInt8 := item.1.2 ++ item.2.2

/-- An entry does not have the key of an earlier one, if that is compared by what it is. -/
def KeysDiffer (earlier later : CborValue × CborValue) : Prop := earlier.1.Primitive → earlier.1 ≠ later.1

/-- The encodings of a value over those of the values in it. -/
inductive Form (Item : CborValue → List UInt8 → Prop) : CborValue → List UInt8 → Prop
  | unsigned {n : ℕ} {code : List UInt8} (hhead : Head 0 n code) : Form Item (.number n) code
  | negative {n : ℕ} {code : List UInt8} (hhead : Head 1 n code) : Form Item (.number (-1 - n)) code
  | bytes {b code : List UInt8} (hhead : Head 2 b.length code) : Form Item (.bytes b) (code ++ b)
  | text {text : List Char} {b code : List UInt8} (hhead : Head 3 b.length code) (htext : TextCode text b) :
      Form Item (.text text) (code ++ b)
  | array {items : List Coded} {code : List UInt8} (hhead : Head 4 items.length code)
      (hitems : ∀ item ∈ items, Item item.1 item.2) :
      Form Item (.array (items.map Prod.fst)) (code ++ items.flatMap Prod.snd)
  | map {items : List (Coded × Coded)} {code : List UInt8} (hhead : Head 5 items.length code)
      (hitems : ∀ item ∈ items, Item item.1.1 item.1.2 ∧ Item item.2.1 item.2.2)
      (hkeys : (items.map entryOf).Pairwise KeysDiffer) : Form Item (.map (items.map entryOf)) (code ++ items.flatMap entryCode)
  | tag {n : ℕ} {v : CborValue} {code rest : List UInt8} (hhead : Head 6 n code) (hitem : Item v rest) :
      Form Item v (code ++ rest)
  | false : Form Item (.bool false) [0xF4]
  | true : Form Item (.bool true) [0xF5]
  | null : Form Item .null [0xF6]

/-- The encodings with so many levels of values at most. -/
def Encodes : ℕ → CborValue → List UInt8 → Prop
  | 0 => fun _ _ => False
  | levels + 1 => Form (Encodes levels)

/-! ### Bytes at an offset -/

/-- The bytes from an offset on begin with these. -/
def At (bytes : List UInt8) (start : ℕ) (code : List UInt8) : Prop := code <+: bytes.drop start

section Offsets
variable {bytes code rest : List UInt8} {start : ℕ}

theorem at_append : At bytes start (code ++ rest) ↔ At bytes start code ∧ At bytes (start + code.length) rest := by
  constructor
  · intro h
    refine ⟨(List.prefix_append code rest).trans h,?_⟩
    obtain ⟨after,hafter⟩ := h
    rw [At,← List.drop_drop,← hafter,List.append_assoc,List.drop_left]
    exact List.prefix_append rest after
  · rintro ⟨hcode,hrest⟩
    rw [At,← List.drop_drop] at hrest
    rw [At,← List.prefix_iff_eq_append.mp hcode]
    exact (List.prefix_append_right_inj code).mpr hrest

theorem at_nil : At bytes start [] := List.nil_prefix

theorem at_cons {b : UInt8} : At bytes start (b :: rest) ↔ bytes[start]? = some b ∧ At bytes (start + 1) rest := by
  rw [show b :: rest = [b] ++ rest from rfl,at_append]
  refine and_congr_left fun _ => ?_
  rw [At,← List.head?_drop]
  cases bytes.drop start <;> simp [eq_comm]

theorem at_take (bytes : List UInt8) (start : ℕ) {n : ℕ} (h : start + n ≤ bytes.length) :
    At bytes start ((bytes.drop start).take n) ∧
    ((bytes.drop start).take n).length = n := by
  refine ⟨List.take_prefix n _,?_⟩
  rw [List.length_take,List.length_drop]
  omega

theorem take_of_at (h : At bytes start code) : (bytes.drop start).take code.length = code := (List.prefix_iff_eq_take.mp h).symm

theorem length_of_at (h : At bytes start code) (hcode : code ≠ []) : start + code.length ≤ bytes.length := by
  have hlength := h.length_le
  have hpositive := List.length_pos_of_ne_nil hcode
  rw [List.length_drop] at hlength
  omega

theorem at_iff_split (hcode : code ≠ []) : At bytes start code ↔ ∃ before after, bytes = before ++ code ++ after ∧
    before.length = start := by
  constructor
  · intro h
    have hlength := length_of_at h hcode
    obtain ⟨after,hafter⟩ := h
    refine ⟨bytes.take start,after,?_,by rw [List.length_take]; omega⟩
    rw [List.append_assoc,hafter,List.take_append_drop]
  · rintro ⟨before,after,rfl,rfl⟩
    rw [At,List.append_assoc,List.drop_left]
    exact List.prefix_append code after

end Offsets

/-! ### Texts -/

theorem decodeText_bom (text : List Char) : decodeText (encodeUtf8 ('\uFEFF' :: text)) = text := decodeUtf8_encodeUtf8 text

theorem decodeText_of_no_bom {text : List Char} (h : text.head? ≠ some '\uFEFF') : decodeText (encodeUtf8 text) = text := by
  have hbytes (rest : List UInt8) : encodeUtf8 text ≠ 0xEF :: 0xBB :: 0xBF :: rest := by
    intro hrest
    -- read back, the bytes would begin with the mark
    have hread := decodeUtf8_append ['\uFEFF'] rest
    rw [show encodeUtf8 ['\uFEFF'] ++ rest = encodeUtf8 text from hrest.symm,decodeUtf8_encodeUtf8] at hread
    exact h (by rw [hread]; rfl)
  rw [decodeText]
  · exact decodeUtf8_encodeUtf8 text
  · exact hbytes

theorem fatalText_iff {code : List UInt8} {text : List Char} : Webauthn.fatalText code = some text ↔ TextCode text code := by
  rw [Webauthn.fatalText]
  constructor
  · intro h
    obtain ⟨hcode,htext⟩ := Option.ite_none_right_eq_some.mp h
    obtain rfl := Option.some.inj htext
    by_cases hbom : (decodeUtf8 code).head? = some '\uFEFF'
    · obtain ⟨rest,hrest⟩ := List.head?_eq_some_iff.mp hbom
      rw [hrest] at hcode
      exact .inr (by rw [← hcode,decodeText_bom])
    · have hread := decodeText_of_no_bom hbom
      rw [hcode] at hread
      rw [hread]
      exact .inl ⟨hcode.symm,hbom⟩
  · rintro (⟨rfl,hbom⟩ | rfl)
    · rw [decodeUtf8_encodeUtf8,if_pos rfl,decodeText_of_no_bom hbom]
    · rw [decodeUtf8_encodeUtf8,if_pos rfl,decodeText_bom]

/-! ### Lengths -/

theorem bigEndian_lt (tail : List UInt8) : Webauthn.bigEndian tail < 256 ^ tail.length := by
  induction tail using List.reverseRecOn with
  | nil => decide
  | append_singleton tail b ih =>
    have hb := b.toNat_lt
    rw [Webauthn.bigEndian,List.foldl_append,List.length_append,List.length_singleton,pow_succ]
    change Webauthn.bigEndian tail * 256 + b.toNat < _
    omega

section Lengths
variable {bytes code : List UInt8} {n next offset : ℕ}

theorem wideLength_iff {width : ℕ} (hwidth : 0 < width) : wideLength bytes width offset = .ok (n,next) ↔
    ∃ tail, tail.length = width ∧ n = Webauthn.bigEndian tail ∧ At bytes offset tail ∧ next = offset + width := by
  rw [wideLength]
  constructor
  · intro h
    split at h
    · cases h
    · obtain ⟨rfl,rfl⟩ := Prod.mk.inj (Except.ok.inj h)
      obtain ⟨hat,hlength⟩ := at_take bytes offset (n := width) (by omega)
      exact ⟨_,hlength,rfl,hat,rfl⟩
  · rintro ⟨tail,rfl,rfl,hat,rfl⟩
    have hlength := length_of_at hat (List.ne_nil_of_length_pos hwidth)
    rw [if_neg (by omega),take_of_at hat]

theorem wideLength_lt {width : ℕ} (hwidth : 0 < width) (h : wideLength bytes width offset = .ok (n,next)) : n < 256 ^ width := by
  obtain ⟨tail,rfl,rfl,-⟩ := (wideLength_iff hwidth).mp h
  exact bigEndian_lt tail

theorem lengthAt_byte : lengthAt bytes 24 offset = wideLength bytes 1 offset := by
  rw [lengthAt,if_neg (by decide),if_pos rfl]
  cases hvalue : bytes[offset]? with
  | none =>
    rw [wideLength,if_pos (Nat.lt_succ_of_le (List.getElem?_eq_none_iff.mp hvalue))]
  | some value =>
    obtain ⟨hlt,rfl⟩ := List.getElem?_eq_some_iff.mp hvalue
    rw [wideLength,if_neg (by omega),List.drop_eq_getElem_cons hlt,List.take_succ_cons,List.take_zero]
    simp only [Webauthn.bigEndian,List.foldl_cons,List.foldl_nil,Nat.zero_mul,Nat.zero_add]

theorem lengthAt_wide {additional width : ℕ} (h : (additional,width) ∈ [(24,1),(25,2),(26,4),(27,8)]) :
    lengthAt bytes additional offset = .ok (n,next) ↔ wideLength bytes width offset = .ok (n,next) ∧ n < 2 ^ 53 := by
  have hnarrow (hwidth : 0 < width) (hle : width ≤ 4) : wideLength bytes width offset = .ok (n,next) ↔
      wideLength bytes width offset = .ok (n,next) ∧ n < 2 ^ 53 :=
    (and_iff_left_of_imp fun hok => (wideLength_lt hwidth hok).trans
      ((Nat.pow_le_pow_right (by decide) hle).trans_lt (by decide))).symm
  simp only [List.mem_cons,Prod.mk.injEq,List.not_mem_nil,or_false] at h
  obtain ⟨rfl,rfl⟩ | ⟨rfl,rfl⟩ | ⟨rfl,rfl⟩ | ⟨rfl,rfl⟩ := h
  · rw [lengthAt_byte]
    exact hnarrow (by decide) (by decide)
  · exact hnarrow (by decide) (by decide)
  · exact hnarrow (by decide) (by decide)
  · rw [lengthAt,if_neg (by decide),if_neg (by decide),if_neg (by decide),if_neg (by decide),if_pos rfl]
    cases wideLength bytes 8 offset with
    | error e => exact ⟨fun h => (by cases h),fun h => (by cases h.1)⟩
    | ok read =>
      dsimp only
      split_ifs with hvalue <;> simp only [maxSafeInteger] at hvalue <;> grind

theorem lengthAt_iff {additional : ℕ} : lengthAt bytes additional offset = .ok (n,next) ↔
    ∃ tail, Argument additional n tail ∧ At bytes offset tail ∧ next = offset + tail.length := by
  constructor
  · intro h
    by_cases hdirect : additional < 24
    · rw [lengthAt,if_pos hdirect] at h
      obtain ⟨rfl,rfl⟩ := Prod.mk.inj (Except.ok.inj h)
      exact ⟨[],.inl ⟨hdirect,rfl,rfl⟩,at_nil,rfl⟩
    · by_cases hwide : additional ∈ [24,25,26,27]
      · obtain ⟨width,hwidth,hpositive⟩ : ∃ width, (additional,width) ∈ [(24,1),(25,2),(26,4),(27,8)] ∧ 0 < width := by
          simp only [List.mem_cons,List.not_mem_nil,or_false] at hwide
          obtain rfl | rfl | rfl | rfl := hwide <;> simp
        obtain ⟨hread,hn⟩ := (lengthAt_wide hwidth).mp h
        obtain ⟨tail,rfl,hvalue,hat,hnext⟩ := (wideLength_iff hpositive).mp hread
        exact ⟨tail,.inr ⟨hwidth,hvalue,hn⟩,hat,hnext⟩
      · -- the indefinite length and the reserved ones
        simp only [List.mem_cons,List.not_mem_nil,or_false,not_or] at hwide
        obtain ⟨h₁,h₂,h₃,h₄⟩ := hwide
        rw [lengthAt,if_neg hdirect,if_neg h₁,if_neg h₂,if_neg h₃,if_neg h₄] at h
        cases h
  · rintro ⟨tail,⟨hdirect,rfl,rfl⟩ | ⟨hwidth,hvalue,hn⟩,hat,rfl⟩
    · rw [lengthAt,if_pos hdirect]
    · have hpositive : 0 < tail.length := by
        simp only [List.mem_cons,Prod.mk.injEq,List.not_mem_nil,or_false] at hwidth
        omega
      exact (lengthAt_wide hwidth).mpr ⟨(wideLength_iff hpositive).mpr ⟨tail,rfl,hvalue,hat,rfl⟩,hn⟩

end Lengths

/-! ### Values in a row -/

/-- What a decoder of the values in a container returns, by their encodings. -/
def Reads (bytes : List UInt8) (decode : ℕ → Except String (CborValue × ℕ)) (Item : CborValue → List UInt8 → Prop) : Prop :=
  ∀ start v next, decode start = .ok (v,next) ↔ ∃ code, Item v code ∧ At bytes start code ∧ next = start + code.length

theorem sameKey_iff {a b : CborValue} : sameKey a b = false ↔ (a.Primitive → a ≠ b) := by
  cases a <;> cases b <;> simp [sameKey,CborValue.Primitive]

section Rows
variable {bytes : List UInt8} {decode : ℕ → Except String (CborValue × ℕ)} {Item : CborValue → List UInt8 → Prop}

theorem decodeValues_iff (h : Reads bytes decode Item) {count offset next : ℕ} {values : List CborValue} :
    decodeValues decode count offset = .ok (values,next) ↔ ∃ items : List Coded, items.length = count ∧
      (∀ item ∈ items, Item item.1 item.2) ∧ values = items.map Prod.fst ∧ At bytes offset (items.flatMap Prod.snd) ∧
      next = offset + (items.flatMap Prod.snd).length := by
  induction count generalizing offset values next with
  | zero =>
    constructor
    · intro hok
      obtain ⟨rfl,rfl⟩ := Prod.mk.inj (Except.ok.inj hok)
      exact ⟨[],rfl,nofun,rfl,at_nil,rfl⟩
    · rintro ⟨items,hlength,-,rfl,-,rfl⟩
      obtain rfl := List.eq_nil_of_length_eq_zero hlength
      rfl
  | succ count ih =>
    rw [decodeValues]
    constructor
    · intro hok
      split at hok
      · cases hok
      next value middle hfirst =>
        split at hok
        · cases hok
        next rest last hrest =>
          obtain ⟨rfl,rfl⟩ := Prod.mk.inj (Except.ok.inj hok)
          obtain ⟨code,hitem,hat,rfl⟩ := (h _ _ _).mp hfirst
          obtain ⟨items,rfl,hitems,rfl,hats,rfl⟩ := ih.mp hrest
          refine ⟨(value,code) :: items,rfl,List.forall_mem_cons.mpr ⟨hitem,hitems⟩,rfl,at_append.mpr ⟨hat,hats⟩,?_⟩
          rw [List.flatMap_cons,List.length_append,Nat.add_assoc]
    · rintro ⟨items,hlength,hitems,rfl,hat,rfl⟩
      obtain ⟨⟨value,code⟩,items,rfl⟩ := List.exists_cons_of_length_eq_add_one hlength
      obtain ⟨hitem,hitems⟩ := List.forall_mem_cons.mp hitems
      rw [List.flatMap_cons,at_append] at hat
      have hrest := ih.mpr ⟨items,Nat.succ.inj hlength,hitems,rfl,hat.2,rfl⟩
      rw [(h _ _ _).mpr ⟨code,hitem,hat.1,rfl⟩]
      dsimp only
      rw [hrest,List.flatMap_cons,List.length_append,Nat.add_assoc]
      rfl

theorem new_key_iff {entries : List (CborValue × CborValue)} (hentries : entries.Pairwise KeysDiffer) {key value : CborValue} :
    (entries ++ [(key,value)]).Pairwise KeysDiffer ↔ (entries.any fun entry => sameKey entry.1 key) = false := by
  rw [List.pairwise_append,and_iff_right hentries,and_iff_right (List.pairwise_singleton _ _),List.any_eq_false]
  refine forall₂_congr fun entry _ => ?_
  rw [List.forall_mem_singleton,Bool.not_eq_true]
  exact sameKey_iff.symm

theorem decodeEntries_iff (h : Reads bytes decode Item) {count offset next : ℕ} {entries result : List (CborValue × CborValue)}
    (hentries : entries.Pairwise KeysDiffer) : decodeEntries decode count entries offset = .ok (result,next) ↔
      ∃ items : List (Coded × Coded), items.length = count ∧ (∀ item ∈ items, Item item.1.1 item.1.2 ∧ Item item.2.1 item.2.2) ∧
      result = entries ++ items.map entryOf ∧ result.Pairwise KeysDiffer ∧ At bytes offset (items.flatMap entryCode) ∧
      next = offset + (items.flatMap entryCode).length := by
  induction count generalizing offset entries result next with
  | zero =>
    constructor
    · intro hok
      obtain ⟨rfl,rfl⟩ := Prod.mk.inj (Except.ok.inj hok)
      exact ⟨[],rfl,nofun,(List.append_nil _).symm,hentries,at_nil,rfl⟩
    · rintro ⟨items,hlength,-,rfl,-,-,rfl⟩
      obtain rfl := List.eq_nil_of_length_eq_zero hlength
      rw [decodeEntries,List.map_nil,List.append_nil]
      rfl
  | succ count ih =>
    rw [decodeEntries]
    constructor
    · intro hok
      split at hok
      · cases hok
      next key middle hkey =>
        split at hok
        · cases hok
        next value after hvalue =>
          split at hok
          · cases hok
          next hnew =>
            rw [Bool.not_eq_true] at hnew
            obtain ⟨keyCode,hkeyItem,hkeyAt,rfl⟩ := (h _ _ _).mp hkey
            obtain ⟨valueCode,hvalueItem,hvalueAt,rfl⟩ := (h _ _ _).mp hvalue
            obtain ⟨items,rfl,hitems,rfl,hpairs,hats,rfl⟩ := (ih ((new_key_iff hentries).mpr hnew)).mp hok
            refine ⟨((key,keyCode),(value,valueCode)) :: items,rfl,List.forall_mem_cons.mpr ⟨⟨hkeyItem,hvalueItem⟩,hitems⟩,
              List.append_cons .. |>.symm,hpairs,?_,?_⟩
            · rw [List.flatMap_cons,entryCode,at_append,at_append,List.length_append,← Nat.add_assoc]
              exact ⟨⟨hkeyAt,hvalueAt⟩,hats⟩
            · rw [List.flatMap_cons,entryCode,List.length_append,List.length_append,Nat.add_assoc,Nat.add_assoc,Nat.add_assoc]
    · rintro ⟨items,hlength,hitems,rfl,hpairs,hat,rfl⟩
      obtain ⟨⟨⟨key,keyCode⟩,value,valueCode⟩,items,rfl⟩ := List.exists_cons_of_length_eq_add_one hlength
      obtain ⟨⟨hkeyItem,hvalueItem⟩,hitems⟩ := List.forall_mem_cons.mp hitems
      rw [List.flatMap_cons,entryCode,at_append,at_append,List.length_append,← Nat.add_assoc] at hat
      rw [List.map_cons,List.append_cons] at hpairs ⊢
      have hfresh : (entries ++ [entryOf ((key,keyCode),(value,valueCode))]).Pairwise KeysDiffer :=
        (List.pairwise_append.mp hpairs).1
      have hrest := (ih hfresh).mpr ⟨items,Nat.succ.inj hlength,hitems,rfl,hpairs,hat.2,rfl⟩
      rw [(h _ _ _).mpr ⟨keyCode,hkeyItem,hat.1.1,rfl⟩]
      dsimp only
      rw [(h _ _ _).mpr ⟨valueCode,hvalueItem,hat.1.2,rfl⟩]
      dsimp only
      rw [(new_key_iff hentries).mp hfresh,if_neg Bool.false_ne_true]
      rw [List.flatMap_cons,entryCode,List.length_append,List.length_append,← Nat.add_assoc,← Nat.add_assoc]
      exact hrest

end Rows

/-! ### The decoder -/

section Decoder
variable {bytes : List UInt8} {start levels : ℕ}

theorem Head.ne_nil {major n : ℕ} {code : List UInt8} (h : Head major n code) : code ≠ [] := by
  obtain ⟨additional,tail,-,rfl⟩ := h
  exact List.cons_ne_nil _ _

theorem head_iff {major n next : ℕ} (hmajor : major < 8) : (∃ initial, bytes[start]? = some initial ∧
    initial.toNat / 32 = major ∧
    lengthAt bytes (initial.toNat % 32) (start + 1) = .ok (n,next)) ↔
      ∃ code, Head major n code ∧ At bytes start code ∧ next = start + code.length := by
  constructor
  · rintro ⟨initial,hinitial,rfl,hlength⟩
    obtain ⟨tail,hargument,hat,rfl⟩ := lengthAt_iff.mp hlength
    have hbyte : UInt8.ofNat (initial.toNat / 32 * 32 + initial.toNat % 32) = initial := by
      rw [Nat.div_add_mod',UInt8.ofNat_toNat]
    refine ⟨initial :: tail,⟨_,tail,hargument,by rw [hbyte]⟩,at_cons.mpr ⟨hinitial,hat⟩,?_⟩
    rw [List.length_cons]
    omega
  · rintro ⟨code,⟨additional,tail,hargument,rfl⟩,hat,rfl⟩
    have hadditional : additional < 32 := by
      simp only [Argument,List.mem_cons,Prod.mk.injEq,List.not_mem_nil,or_false] at hargument
      omega
    have hbyte : (UInt8.ofNat (major * 32 + additional)).toNat = major * 32 + additional := toNat_byte (by omega)
    obtain ⟨hinitial,hrest⟩ := at_cons.mp hat
    refine ⟨_,hinitial,by omega,?_⟩
    rw [hbyte,show (major * 32 + additional) % 32 = additional by omega]
    refine lengthAt_iff.mpr ⟨tail,hargument,hrest,?_⟩
    rw [List.length_cons]
    omega

/-- The bytes in a string and what the kind makes of them. -/
def StringOf (major : ℕ) (b : List UInt8) (v : CborValue) : Prop :=
  if major = 2 then v = .bytes b else ∃ text, TextCode text b ∧ v = .text text

theorem decodeString_iff {major length offset next : ℕ} {v : CborValue} (hoffset : offset ≤ bytes.length) :
    decodeString bytes major length offset = .ok (v,next) ↔
      ∃ b, b.length = length ∧ At bytes offset b ∧ StringOf major b v ∧ next = offset + length := by
  rw [decodeString]
  constructor
  · intro hok
    split at hok
    · cases hok
    next hfits =>
      obtain ⟨hat,hlength⟩ := at_take bytes offset (n := length) (by omega)
      refine ⟨_,hlength,hat,?_⟩
      rw [StringOf]
      split at hok
      next hmajor =>
        obtain ⟨rfl,rfl⟩ := Prod.mk.inj (Except.ok.inj hok)
        rw [if_pos hmajor]
        exact ⟨rfl,rfl⟩
      next hmajor =>
        rw [if_neg hmajor]
        split at hok
        · cases hok
        next text htext =>
          obtain ⟨rfl,rfl⟩ := Prod.mk.inj (Except.ok.inj hok)
          exact ⟨⟨text,fatalText_iff.mp htext,rfl⟩,rfl⟩
  · rintro ⟨b,rfl,hat,hstring,rfl⟩
    have hfits : ¬ offset + b.length > bytes.length := by
      have hlength := hat.length_le
      rw [List.length_drop] at hlength
      omega
    rw [if_neg hfits,take_of_at hat]
    rw [StringOf] at hstring
    split at hstring
    next hmajor =>
      rw [if_pos hmajor,hstring]
    next hmajor =>
      obtain ⟨text,htext,rfl⟩ := hstring
      rw [if_neg hmajor,fatalText_iff.mpr htext]

section Step
variable {Item : CborValue → List UInt8 → Prop} (h : Reads bytes (decodeLevels bytes levels) Item) {v : CborValue} {next : ℕ}
include h

theorem form_of_decodeLevels (hok : decodeLevels bytes (levels + 1) start = .ok (v,next)) :
    ∃ code, Form Item v code ∧ At bytes start code ∧ next = start + code.length := by
  rw [decodeLevels] at hok
  split at hok
  · cases hok
  next initial hinitial =>
    dsimp only at hok
    split at hok
    · cases hok
    next length offset hlength =>
      have hhead (major : ℕ) (hmajor : initial.toNat / 32 = major) (hlt : major < 8) :=
        (head_iff hlt).mp ⟨initial,hinitial,hmajor,hlength⟩
      have hsimple (value : UInt8) (hvalue : initial.toNat = value.toNat) : At bytes start [value] :=
        at_cons.mpr ⟨by rw [hinitial,UInt8.toNat_inj.mp hvalue],at_nil⟩
      have hbyte := initial.toNat_lt
      split_ifs at hok with h0 h1 hstring h4 h5 h6 h20 h21 h22
      · obtain ⟨rfl,rfl⟩ := Prod.mk.inj (Except.ok.inj hok)
        obtain ⟨code,hcode,hat,hnext⟩ := hhead 0 h0 (by decide)
        exact ⟨code,.unsigned hcode,hat,hnext⟩
      · obtain ⟨rfl,rfl⟩ := Prod.mk.inj (Except.ok.inj hok)
        obtain ⟨code,hcode,hat,hnext⟩ := hhead 1 h1 (by decide)
        exact ⟨code,.negative hcode,hat,hnext⟩
      · obtain ⟨code,hcode,hat,rfl⟩ := hhead _ rfl (by omega)
        obtain ⟨b,rfl,hrest,hv,rfl⟩ := (decodeString_iff (length_of_at hat hcode.ne_nil)).mp hok
        refine ⟨code ++ b,?_,at_append.mpr ⟨hat,hrest⟩,by rw [List.length_append,Nat.add_assoc]⟩
        obtain hmajor | hmajor := hstring <;> rw [hmajor] at hcode hv
        · obtain rfl : v = .bytes b := hv
          exact .bytes hcode
        · obtain ⟨text,htext,rfl⟩ : ∃ text, TextCode text b ∧ v = .text text := hv
          exact .text hcode htext
      · split at hok
        · cases hok
        next values last hvalues =>
          obtain ⟨rfl,rfl⟩ := Prod.mk.inj (Except.ok.inj hok)
          obtain ⟨code,hcode,hat,rfl⟩ := hhead 4 h4 (by decide)
          obtain ⟨items,rfl,hitems,rfl,hrest,rfl⟩ := (decodeValues_iff h).mp hvalues
          exact ⟨_,.array hcode hitems,at_append.mpr ⟨hat,hrest⟩,by rw [List.length_append,Nat.add_assoc]⟩
      · split at hok
        · cases hok
        next entries last hentries =>
          obtain ⟨rfl,rfl⟩ := Prod.mk.inj (Except.ok.inj hok)
          obtain ⟨code,hcode,hat,rfl⟩ := hhead 5 h5 (by decide)
          obtain ⟨items,rfl,hitems,rfl,hkeys,hrest,rfl⟩ := (decodeEntries_iff h List.Pairwise.nil).mp hentries
          exact ⟨_,.map hcode hitems hkeys,at_append.mpr ⟨hat,hrest⟩,by rw [List.length_append,Nat.add_assoc]⟩
      · obtain ⟨code,hcode,hat,rfl⟩ := hhead 6 h6 (by decide)
        obtain ⟨rest,hitem,hrest,rfl⟩ := (h _ _ _).mp hok
        exact ⟨_,.tag hcode hitem,at_append.mpr ⟨hat,hrest⟩,by rw [List.length_append,Nat.add_assoc]⟩
      · obtain ⟨rfl,rfl⟩ := Prod.mk.inj (Except.ok.inj hok)
        exact ⟨_,.false,hsimple 0xF4 (by change _ = 244; omega),rfl⟩
      · obtain ⟨rfl,rfl⟩ := Prod.mk.inj (Except.ok.inj hok)
        exact ⟨_,.true,hsimple 0xF5 (by change _ = 245; omega),rfl⟩
      · obtain ⟨rfl,rfl⟩ := Prod.mk.inj (Except.ok.inj hok)
        exact ⟨_,.null,hsimple 0xF6 (by change _ = 246; omega),rfl⟩

theorem decodeLevels_of_form {code : List UInt8} (hform : Form Item v code) (hat : At bytes start code) :
    decodeLevels bytes (levels + 1) start = .ok (v,start + code.length) := by
  cases hform with
  | unsigned hhead =>
    obtain ⟨initial,hinitial,hmajor,hlength⟩ := (head_iff (by decide)).mpr ⟨code,hhead,hat,rfl⟩
    simp [decodeLevels,hinitial,hmajor,hlength]
  | negative hhead =>
    obtain ⟨initial,hinitial,hmajor,hlength⟩ := (head_iff (by decide)).mpr ⟨code,hhead,hat,rfl⟩
    simp [decodeLevels,hinitial,hmajor,hlength]
  | @bytes b code hhead =>
    obtain ⟨hcode,hrest⟩ := at_append.mp hat
    obtain ⟨initial,hinitial,hmajor,hlength⟩ := (head_iff (by decide)).mpr ⟨code,hhead,hcode,rfl⟩
    have hkind : StringOf 2 b (.bytes b) := rfl
    have hstring := (decodeString_iff (length_of_at hcode hhead.ne_nil)).mpr ⟨b,rfl,hrest,hkind,rfl⟩
    simp [decodeLevels,hinitial,hmajor,hlength,hstring,Nat.add_assoc]
  | @text text b code hhead htext =>
    obtain ⟨hcode,hrest⟩ := at_append.mp hat
    obtain ⟨initial,hinitial,hmajor,hlength⟩ := (head_iff (by decide)).mpr ⟨code,hhead,hcode,rfl⟩
    have hkind : StringOf 3 b (.text text) := ⟨text,htext,rfl⟩
    have hstring := (decodeString_iff (length_of_at hcode hhead.ne_nil)).mpr ⟨b,rfl,hrest,hkind,rfl⟩
    simp [decodeLevels,hinitial,hmajor,hlength,hstring,Nat.add_assoc]
  | @array items code hhead hitems =>
    obtain ⟨hcode,hrest⟩ := at_append.mp hat
    obtain ⟨initial,hinitial,hmajor,hlength⟩ := (head_iff (by decide)).mpr ⟨code,hhead,hcode,rfl⟩
    have hvalues := (decodeValues_iff h).mpr ⟨items,rfl,hitems,rfl,hrest,rfl⟩
    simp [decodeLevels,hinitial,hmajor,hlength,hvalues,Nat.add_assoc]
  | @map items code hhead hitems hkeys =>
    obtain ⟨hcode,hrest⟩ := at_append.mp hat
    obtain ⟨initial,hinitial,hmajor,hlength⟩ := (head_iff (by decide)).mpr ⟨code,hhead,hcode,rfl⟩
    have hentries := (decodeEntries_iff h List.Pairwise.nil).mpr ⟨items,rfl,hitems,rfl,hkeys,hrest,rfl⟩
    simp [decodeLevels,hinitial,hmajor,hlength,hentries,Nat.add_assoc]
  | @tag n _ code rest hhead hitem =>
    obtain ⟨hcode,hrest⟩ := at_append.mp hat
    obtain ⟨initial,hinitial,hmajor,hlength⟩ := (head_iff (by decide)).mpr ⟨code,hhead,hcode,rfl⟩
    have hvalue := (h _ _ _).mpr ⟨rest,hitem,hrest,rfl⟩
    simp [decodeLevels,hinitial,hmajor,hlength,hvalue,Nat.add_assoc]
  | false =>
    obtain ⟨hinitial,-⟩ := at_cons.mp hat
    simp [decodeLevels,hinitial,lengthAt]
  | true =>
    obtain ⟨hinitial,-⟩ := at_cons.mp hat
    simp [decodeLevels,hinitial,lengthAt]
  | null =>
    obtain ⟨hinitial,-⟩ := at_cons.mp hat
    simp [decodeLevels,hinitial,lengthAt]

end Step

theorem decodeLevels_reads (bytes : List UInt8) (levels : ℕ) : Reads bytes (decodeLevels bytes levels) (Encodes levels) := by
  induction levels with
  | zero =>
    intro start v next
    exact ⟨fun hok => (by cases hok),fun ⟨code,hcode,_⟩ => hcode.elim⟩
  | succ levels ih =>
    intro start v next
    constructor
    · exact form_of_decodeLevels ih
    · rintro ⟨code,hform,hat,rfl⟩
      exact decodeLevels_of_form ih hform hat

theorem Encodes.ne_nil {v : CborValue} {code : List UInt8} (h : Encodes levels v code) : code ≠ [] := by
  cases levels with
  | zero => exact h.elim
  | succ levels =>
    cases h with
    | unsigned hhead => exact hhead.ne_nil
    | negative hhead => exact hhead.ne_nil
    | bytes hhead => exact List.append_ne_nil_of_left_ne_nil hhead.ne_nil _
    | text hhead htext => exact List.append_ne_nil_of_left_ne_nil hhead.ne_nil _
    | array hhead hitems => exact List.append_ne_nil_of_left_ne_nil hhead.ne_nil _
    | map hhead hitems hkeys => exact List.append_ne_nil_of_left_ne_nil hhead.ne_nil _
    | tag hhead hitem => exact List.append_ne_nil_of_left_ne_nil hhead.ne_nil _
    | false => exact List.cons_ne_nil _ _
    | true => exact List.cons_ne_nil _ _
    | null => exact List.cons_ne_nil _ _

end Decoder

/-- The decoder reads every encoding wherever it stands, and nothing but encodings. -/
theorem decodeCbor_exact :
    (∀ v before code after, Encodes 33 v code →
      decodeCbor (before ++ code ++ after) before.length 0 = .ok (v,before.length + code.length)) ∧
    ∀ bytes start v offset, decodeCbor bytes start 0 = .ok (v,offset) →
      ∃ before code after, bytes = before ++ code ++ after ∧ before.length = start ∧ Encodes 33 v code ∧
        offset = start + code.length ∧ start < offset ∧ offset ≤ bytes.length ∧
        ∀ before' after', decodeCbor (before' ++ code ++ after') before'.length 0 = .ok (v,before'.length + code.length) := by
  have hreads (v : CborValue) (before code after : List UInt8) (hcode : Encodes 33 v code) :
      decodeCbor (before ++ code ++ after) before.length 0 = .ok (v,before.length + code.length) :=
    (decodeLevels_reads _ 33 _ _ _).mpr ⟨code,hcode,(at_iff_split hcode.ne_nil).mpr ⟨before,after,rfl,rfl⟩,rfl⟩
  refine ⟨hreads,fun bytes start v offset hok => ?_⟩
  obtain ⟨code,hcode,hat,rfl⟩ := (decodeLevels_reads bytes 33 _ _ _).mp hok
  have hpositive := List.length_pos_of_ne_nil hcode.ne_nil
  obtain ⟨before,after,hbytes,hbefore⟩ := (at_iff_split hcode.ne_nil).mp hat
  exact ⟨before,code,after,hbytes,hbefore,hcode,rfl,Nat.lt_add_of_pos_right hpositive,length_of_at hat hcode.ne_nil,
    fun before' after' => hreads v before' code after' hcode⟩

/-- A number whose magnitude is not below 2^53, a boolean as a key and a byte order mark are read; a tag of 2^53 is not. -/
theorem decodeCbor_edges :
    decodeCbor [0x3B,0x00,0x1F,0xFF,0xFF,0xFF,0xFF,0xFF,0xFF] 0 0 = .ok (.number (-2 ^ 53),9) ∧ ¬ (-2 ^ 53 : ℤ).natAbs < 2 ^ 53 ∧
    decodeCbor [0xA1,0xF5,0x00] 0 0 = .ok (.map [(.bool true,.number 0)],3) ∧
    decodeCbor [0x64,0xEF,0xBB,0xBF,0x61] 0 0 = .ok (.text ['a'],5) ∧
    decodeCbor [0xDB,0x00,0x20,0x00,0x00,0x00,0x00,0x00,0x00,0xF6] 0 0 = .error "cbor length exceeds safe integer" := by
  refine ⟨?_,by decide,rfl,?_,?_⟩
  · simp [decodeCbor,decodeLevels,lengthAt,wideLength,Webauthn.bigEndian,maxSafeInteger]
  · have htext : Webauthn.fatalText [0xEF,0xBB,0xBF,0x61] = some ['a'] := by decide
    simp [decodeCbor,decodeLevels,lengthAt,decodeString,htext]
  · simp [decodeCbor,decodeLevels,lengthAt,wideLength,Webauthn.bigEndian,maxSafeInteger]

end StructureAi.Identity.Cbor

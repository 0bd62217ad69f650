import StructureAi.Foundation.TornUtf8
import StructureAi.Http.Redis

/-! # Replies in chunks

What the client makes of a reply does not depend on what follows it, so it does not depend on the chunks of the
text. The text does depend on the chunks of the bytes, and the length of a bulk string counts bytes.
-/
namespace StructureAi.Http.Redis
open StructureAi.Foundation
variable {input rest line payload s : JsString} {value : Value} {depth : ℕ}

section Stability

theorem splitLine_append (h : splitLine input = some (line,rest)) (more : JsString) :
    splitLine (input ++ more) = some (line,rest ++ more) := by
  induction input using splitLine.induct generalizing line with
  | case1 u v tail hend =>
    rw [splitLine,if_pos hend] at h
    obtain ⟨rfl,rfl⟩ := Prod.mk.inj (Option.some.inj h)
    exact if_pos hend
  | case2 u v tail hend ih =>
    rw [splitLine,if_neg hend] at h
    obtain ⟨⟨line',rest'⟩,hsplit,heq⟩ := Option.map_eq_some_iff.mp h
    obtain ⟨rfl,rfl⟩ := Prod.mk.inj heq
    rw [List.cons_append,List.cons_append,splitLine,if_neg hend,← List.cons_append,ih hsplit]
    rfl
  | case3 s hs =>
    cases s with
    | nil => cases h
    | cons u s =>
      cases s with
      | nil => cases h
      | cons v s => exact absurd rfl (hs u v s)

theorem bulkReply_append (h : bulkReply payload input = some (value,rest)) (more : JsString) :
    bulkReply payload (input ++ more) = some (value,rest ++ more) := by
  unfold bulkReply at h ⊢
  cases hnumber : number payload with
  | none =>
    rw [hnumber] at h
    obtain ⟨rfl,rfl⟩ := Prod.mk.inj (Option.some.inj h)
    rfl
  | some length =>
    rw [hnumber] at h
    simp only at h ⊢
    by_cases hneg : length < 0
    · rw [if_pos hneg] at h ⊢
      obtain ⟨rfl,rfl⟩ := Prod.mk.inj (Option.some.inj h)
      rfl
    · rw [if_neg hneg] at h ⊢
      by_cases hshort : (input.length : ℚ) < length + 2
      · rw [if_pos hshort] at h
        cases h
      · rw [if_neg hshort] at h
        obtain ⟨rfl,rfl⟩ := Prod.mk.inj (Option.some.inj h)
        have henough : ⌊length⌋₊ + 2 ≤ input.length := by
          have hfloor := Nat.floor_le (not_lt.mp hneg)
          have hsum : ((⌊length⌋₊ + 2 : ℕ) : ℚ) ≤ input.length := by
            push_cast
            linarith [not_lt.mp hshort]
          exact_mod_cast hsum
        have hlong : ¬ ((input ++ more).length : ℚ) < length + 2 := by
          rw [List.length_append,Nat.cast_add,not_lt]
          have hmore : (0 : ℚ) ≤ more.length := by positivity
          linarith [not_lt.mp hshort]
        rw [if_neg hlong,List.take_append_of_le_length (by omega),List.drop_append_of_le_length henough]

theorem parseItems_append {parse parse' : JsString → Option (Value × JsString)} {items : List Value} {count : ℕ}
    {more : JsString}
    (hparse : ∀ {s value rest}, parse s = some (value,rest) → parse' (s ++ more) = some (value,rest ++ more))
    (h : parseItems parse count input = some (items,rest)) : parseItems parse' count (input ++ more) =
      some (items,rest ++ more) := by
  induction count generalizing input items with
  | zero =>
    obtain ⟨rfl,rfl⟩ := Prod.mk.inj (Option.some.inj h)
    rfl
  | succ count ih =>
    rw [parseItems] at h ⊢
    cases hitem : parse input with
    | none =>
      rw [hitem] at h
      cases h
    | some first =>
      obtain ⟨item,remaining⟩ := first
      rw [hitem] at h
      obtain ⟨⟨items',rest'⟩,hitems,heq⟩ := Option.map_eq_some_iff.mp h
      obtain ⟨rfl,rfl⟩ := Prod.mk.inj heq
      rw [hparse hitem]
      simp only [ih hitems,Option.map_some]

theorem parseLine_append {parse parse' : JsString → Option (Value × JsString)} {more : JsString}
    (hparse : ∀ {s value rest}, parse s = some (value,rest) → parse' (s ++ more) = some (value,rest ++ more))
    (h : parseLine parse line input = some (value,rest)) : parseLine parse' line (input ++ more) =
      some (value,rest ++ more) := by
  have hdone : ∀ {v : Value}, some (v,input) = some (value,rest) → some (v,input ++ more) = some (value,rest ++ more) := by
    intro v h
    obtain ⟨rfl,rfl⟩ := Prod.mk.inj (Option.some.inj h)
    rfl
  unfold parseLine at h ⊢
  cases line with
  | nil => exact hdone h
  | cons type payload =>
    simp only at h ⊢
    split
    next htype =>
      rw [if_pos htype] at h
      exact hdone h
    next htype =>
      rw [if_neg htype] at h
      split
      next htype =>
        rw [if_pos htype] at h
        exact hdone h
      next htype =>
        rw [if_neg htype] at h
        split
        next htype =>
          rw [if_pos htype] at h
          exact hdone h
        next htype =>
          rw [if_neg htype] at h
          split
          next htype =>
            rw [if_pos htype] at h
            exact bulkReply_append h more
          next htype =>
            rw [if_neg htype] at h
            split
            next htype =>
              rw [if_pos htype] at h
              unfold arrayReply at h ⊢
              cases hnumber : number payload with
              | none =>
                rw [hnumber] at h
                exact hdone h
              | some count =>
                rw [hnumber] at h
                simp only at h ⊢
                by_cases hneg : count < 0
                · rw [if_pos hneg] at h ⊢
                  exact hdone h
                · rw [if_neg hneg] at h ⊢
                  obtain ⟨⟨items,remaining⟩,hitems,heq⟩ := Option.map_eq_some_iff.mp h
                  obtain ⟨rfl,rfl⟩ := Prod.mk.inj heq
                  rw [parseItems_append hparse hitems]
                  rfl
            next htype =>
              rw [if_neg htype] at h
              exact hdone h

theorem parseReply_append {deeper : ℕ} (h : parseReply depth input = some (value,rest)) (hle : depth ≤ deeper)
    (more : JsString) :
    parseReply deeper (input ++ more) = some (value,rest ++ more) := by
  induction depth generalizing deeper input value rest with
  | zero => cases h
  | succ depth ih =>
    obtain ⟨deeper,rfl⟩ := Nat.exists_eq_add_of_le' (Nat.one_le_of_lt hle)
    rw [parseReply] at h ⊢
    cases hline : splitLine input with
    | none =>
      rw [hline] at h
      cases h
    | some found =>
      obtain ⟨line,after⟩ := found
      rw [hline] at h
      rw [splitLine_append hline more]
      exact parseLine_append (fun hitem => ih hitem (Nat.le_of_succ_le_succ hle)) h

theorem replies_stable : replies.Stable := by
  intro buffer value rest h more
  apply parseReply_append h _ more
  rw [List.length_append]
  omega

end Stability

/-- What a server sends: a nil is a bulk string or an array that is not there. -/
inductive Reply
  | simple (text : List Char)
  | error (text : List Char)
  | integer (n : ℤ)
  | bulk (text : List Char)
  | nilBulk
  | nilArray
  | array (items : List Reply)

namespace Reply

/-- A type, what stands in its line, and the terminator. -/
def header (type : Char) (payload : List Char) : List Char := type :: (payload ++ ['\r','\n'])

mutual

/-- The text of a reply; the length of a bulk string counts bytes. -/
def wire : Reply → List Char
  | .simple text => header '+' text
  | .error text => header '-' text
  | .integer n => header ':' (integerChars n)
  | .bulk text => header '$' (integerChars (encodeUtf8 text).length) ++ (text ++ ['\r','\n'])
  | .nilBulk => header '$' (integerChars (-1))
  | .nilArray => header '*' (integerChars (-1))
  | .array items => header '*' (integerChars items.length) ++ wires items

def wires : List Reply → List Char
  | [] => []
  | reply :: replies => reply.wire ++ wires replies

end

mutual

def decoded : Reply → Value
  | .simple text => .text (ofText text)
  | .error text => fault "server error: " (ofText text)
  | .integer n => .number (nearest n)
  | .bulk text => .text (ofText text)
  | .nilBulk => .undefined
  | .nilArray => .undefined
  | .array items => .array (decodedAll items)

def decodedAll : List Reply → List Value
  | [] => []
  | reply :: replies => reply.decoded :: decodedAll replies

end

/-- The replies of the protocol: lines without line breaks, integers of 64 bits, and lengths that a number can be. -/
inductive Resp2 : Reply → Prop
  | simple {text : List Char} (h : '\r' ∉ text ∧ '\n' ∉ text) : Resp2 (.simple text)
  | error {text : List Char} (h : '\r' ∉ text ∧ '\n' ∉ text) : Resp2 (.error text)
  | integer {n : ℤ} (h : -2 ^ 63 ≤ n ∧ n < 2 ^ 63) : Resp2 (.integer n)
  | bulk {text : List Char} (h : (encodeUtf8 text).length < 2 ^ 53) : Resp2 (.bulk text)
  | nilBulk : Resp2 .nilBulk
  | nilArray : Resp2 .nilArray
  | array {items : List Reply} (hcount : items.length < 2 ^ 53) (h : ∀ item ∈ items, Resp2 item) : Resp2 (.array items)

/-- No bulk string has a character of more than one byte, at any depth. -/
inductive Plain : Reply → Prop
  | simple (text : List Char) : Plain (.simple text)
  | error (text : List Char) : Plain (.error text)
  | integer (n : ℤ) : Plain (.integer n)
  | bulk {text : List Char} (h : ∀ c ∈ text, c.toNat < 0x80) : Plain (.bulk text)
  | nilBulk : Plain .nilBulk
  | nilArray : Plain .nilArray
  | array {items : List Reply} (h : ∀ item ∈ items, Plain item) : Plain (.array items)

theorem wires_eq (replies : List Reply) : wires replies = replies.flatMap wire := by
  induction replies with
  | nil => rfl
  | cons reply replies ih => rw [wires,ih,List.flatMap_cons]

end Reply

open Reply

section Lines
variable {text p read more : List Char} {type : Char}

theorem splitLine_line (h : unit '\r' ∉ s) (rest : JsString) : splitLine (s ++ unit '\r' :: unit '\n' :: rest) =
    some (s,rest) := by
  induction s with
  | nil => exact if_pos ⟨rfl,rfl⟩
  | cons u s ih =>
    obtain ⟨hu,hs⟩ := not_or.mp (mt List.mem_cons.mpr h)
    have hmore := ih hs
    cases s with
    | nil =>
      rw [List.singleton_append,splitLine,if_neg fun hend => hu hend.1.symm]
      rw [List.nil_append] at hmore
      rw [hmore]
      rfl
    | cons v s =>
      rw [List.cons_append,List.cons_append,splitLine,if_neg fun hend => hu hend.1.symm,← List.cons_append,hmore]
      rfl

theorem parseReply_header (htype : type.toNat < 0x80) (hcr : type ≠ '\r') (hp : '\r' ∉ p) (rest : JsString) :
    parseReply (depth + 1) (ofText (header type p) ++ rest) = parseLine (parseReply depth) (unit type :: ofText p) rest := by
  have hline : ofText (header type p) ++ rest = unit type :: ofText p ++ unit '\r' :: unit '\n' :: rest := by
    have hend : ofText ['\r','\n'] = [unit '\r',unit '\n'] := rfl
    rw [header,ofText_cons,charUnits_ascii htype,ofText_append,hend,List.append_assoc,List.append_assoc]
    rfl
  have habsent : unit '\r' ∉ unit type :: ofText p := by
    intro hin
    rcases List.mem_cons.mp hin with hin | hin
    · have hr : '\r'.toNat < 0x80 := by decide
      exact hcr (unit_injective (by omega) (by omega) hin).symm
    · exact hp (mem_ofText (by decide) hin)
  rw [hline,parseReply,splitLine_line habsent]

theorem parseLine_simple (parse : JsString → Option (Value × JsString)) (payload rest : JsString) :
    parseLine parse (unit '+' :: payload) rest = some (.text payload,rest) := rfl

theorem parseLine_error (parse : JsString → Option (Value × JsString)) (payload rest : JsString) :
    parseLine parse (unit '-' :: payload) rest = some (fault "server error: " payload,rest) := rfl

theorem parseLine_integer {x : ℚ} (h : number payload = some x) (parse : JsString → Option (Value × JsString))
    (rest : JsString) :
    parseLine parse (unit ':' :: payload) rest = some (.number x,rest) := by
  have hcolon : unit ':' ≠ unit '+' ∧ unit ':' ≠ unit '-' := by decide
  unfold parseLine
  simp only [if_neg hcolon.1,if_neg hcolon.2,if_pos,h]

theorem parseLine_bulk (parse : JsString → Option (Value × JsString)) (payload rest : JsString) :
    parseLine parse (unit '$' :: payload) rest = bulkReply payload rest := rfl

theorem parseLine_array (parse : JsString → Option (Value × JsString)) (payload rest : JsString) :
    parseLine parse (unit '*' :: payload) rest = arrayReply parse payload rest := rfl

theorem crlf_ascii : ∀ c ∈ ['\r','\n'], c.toNat < 0x80 :=
  List.forall_mem_cons.mpr ⟨by decide,List.forall_mem_singleton.mpr (by decide)⟩

theorem integerChars_ascii (n : ℤ) : ∀ c ∈ integerChars n, c.toNat < 0x80 ∧ c ≠ '\r' := by
  have hdigit : ∀ c : Char, c.isDigit = true → c.toNat < 0x80 ∧ c ≠ '\r' := by
    intro c hc
    have hrange : 48 ≤ c.toNat ∧ c.toNat ≤ 57 := by simpa [Char.isDigit,UInt32.le_iff_toNat_le] using hc
    refine ⟨by omega,?_⟩
    rintro rfl
    have hr : '\r'.toNat = 13 := by decide
    omega
  intro c hc
  unfold integerChars at hc
  split at hc
  · rcases List.mem_cons.mp hc with rfl | hc
    · decide
    · exact hdigit c (isDigit_toDigits _ c hc)
  · exact hdigit c (isDigit_toDigits _ c hc)

theorem number_integerChars (n : ℤ) : number (ofText (integerChars n)) = binary64 n := by
  have hchars : (ofText (integerChars n)).map (fun u => Char.ofNat u.val) = integerChars n := by
    rw [ofText_ascii fun c hc => (integerChars_ascii n c hc).1,units,List.map_map]
    refine (List.map_congr_left fun c hc => ?_).trans (List.map_id _)
    have hc := (integerChars_ascii n c hc).1
    have hval : (unit c).val = c.toNat := Nat.mod_eq_of_lt (by omega)
    rw [Function.comp_apply,hval]
    exact Char.ofNat_toNat c
  have hvalue : (Decimal.ofInt n).value = n := by simp [Decimal.ofInt]
  unfold number
  rw [hchars,numberOf_integerChars,Option.bind_some,hvalue]

theorem number_length {n : ℕ} (h : n < 2 ^ 53) : number (ofText (integerChars n)) = some (n : ℚ) := by
  rw [number_integerChars,Int.cast_natCast,binary64_natCast h]

theorem bulkReply_length_text {n : ℕ} (h : n < 2 ^ 53) (rest : JsString) : bulkReply (ofText (integerChars n)) rest =
    if rest.length < n + 2 then none else some (.text (rest.take n),rest.drop (n + 2)) := by
  have hcount : (rest.length : ℚ) < (n : ℚ) + 2 ↔ rest.length < n + 2 := by exact_mod_cast Iff.rfl
  unfold bulkReply
  rw [number_length h]
  simp only [Nat.floor_natCast,hcount]
  rw [if_neg (not_lt.mpr (Nat.cast_nonneg n))]

theorem arrayReply_length_text {n : ℕ} (h : n < 2 ^ 53) (parse : JsString → Option (Value × JsString)) (rest : JsString) :
    arrayReply parse (ofText (integerChars n)) rest = (parseItems parse n rest).map fun (items,remaining) =>
      (.array items,remaining) := by
  unfold arrayReply
  rw [number_length h]
  simp only [Nat.ceil_natCast]
  rw [if_neg (not_lt.mpr (Nat.cast_nonneg n))]

theorem number_bits {n : ℤ} (h : -2 ^ 63 ≤ n ∧ n < 2 ^ 63) : number (ofText (integerChars n)) = some (nearest n) := by
  have hn : |(n : ℚ)| < 2 ^ 64 := by
    have habs : |n| < 2 ^ 64 := abs_lt.mpr ⟨by omega,by omega⟩
    exact_mod_cast habs
  rw [number_integerChars,binary64_of_lt hn]

theorem number_minusOne : number (ofText (integerChars (-1))) = some (-1) := by
  have hone : |((-1 : ℤ) : ℚ)| < 2 ^ 64 := by norm_num
  rw [number_integerChars,binary64_of_lt hone,nearest_intCast (by norm_num)]
  rfl

theorem bulkReply_minusOne (rest : JsString) : bulkReply (ofText (integerChars (-1))) rest = some (.undefined,rest) := by
  unfold bulkReply
  rw [number_minusOne]
  simp only
  rw [if_pos (by norm_num),if_pos trivial]

theorem arrayReply_minusOne (parse : JsString → Option (Value × JsString)) (rest : JsString) :
    arrayReply parse (ofText (integerChars (-1))) rest = some (.undefined,rest) := by
  unfold arrayReply
  rw [number_minusOne]
  simp only
  rw [if_pos (by norm_num)]

end Lines

section Whole

theorem parseItems_wires {items : List Reply} {parse : JsString → Option (Value × JsString)}
    (h : ∀ item ∈ items, ∀ rest, parse (ofText item.wire ++ rest) = some (item.decoded,rest)) (rest : JsString) :
    parseItems parse items.length (ofText (wires items) ++ rest) = some (decodedAll items,rest) := by
  induction items with
  | nil => rfl
  | cons item items ih =>
    rw [wires,ofText_append,List.append_assoc,List.length_cons,parseItems,h item List.mem_cons_self]
    simp only [ih fun i hi => h i (List.mem_cons_of_mem item hi),Option.map_some]
    rfl

theorem length_wire_le {items : List Reply} {item : Reply} (h : item ∈ items) :
    (ofText item.wire).length ≤ (ofText (wires items)).length := by
  induction items with
  | nil => exact absurd h List.not_mem_nil
  | cons first items ih =>
    rw [wires,ofText_append,List.length_append]
    rcases List.mem_cons.mp h with rfl | h
    · exact Nat.le_add_right _ _
    · exact (ih h).trans (Nat.le_add_left _ _)

theorem parseReply_wire {reply : Reply} (hreply : reply.Resp2) (hplain : reply.Plain)
    (hdepth : (ofText reply.wire).length ≤ depth)
    (rest : JsString) : parseReply depth (ofText reply.wire ++ rest) = some (reply.decoded,rest) := by
  have hinteger : ∀ n, '\r' ∉ integerChars n := fun n hin => (integerChars_ascii n _ hin).2 rfl
  induction hreply generalizing depth rest with
  | simple h =>
    obtain ⟨depth,rfl⟩ := Nat.exists_eq_add_of_le' (Nat.one_le_of_lt (Nat.lt_of_lt_of_le (Nat.zero_lt_succ _) hdepth))
    rw [wire,parseReply_header (by decide) (by decide) h.1,parseLine_simple,decoded]
  | error h =>
    obtain ⟨depth,rfl⟩ := Nat.exists_eq_add_of_le' (Nat.one_le_of_lt (Nat.lt_of_lt_of_le (Nat.zero_lt_succ _) hdepth))
    rw [wire,parseReply_header (by decide) (by decide) h.1,parseLine_error,decoded]
  | @integer n h =>
    obtain ⟨depth,rfl⟩ := Nat.exists_eq_add_of_le' (Nat.one_le_of_lt (Nat.lt_of_lt_of_le (Nat.zero_lt_succ _) hdepth))
    rw [wire,parseReply_header (by decide) (by decide) (hinteger n),parseLine_integer (number_bits h),decoded]
  | @bulk text h =>
    obtain ⟨depth,rfl⟩ := Nat.exists_eq_add_of_le' (Nat.one_le_of_lt (Nat.lt_of_lt_of_le (Nat.zero_lt_succ _) hdepth))
    cases hplain with
    | bulk hascii =>
      have hlength : (ofText text).length = (encodeUtf8 text).length := by
        rw [length_of_ascii hascii,ofText_ascii hascii]
        exact List.length_map _
      have hend : (ofText ['\r','\n']).length = 2 := rfl
      have hbody : (ofText (text ++ ['\r','\n']) ++ rest).take (encodeUtf8 text).length = ofText text := by
        rw [ofText_append,List.append_assoc,← hlength,List.take_left]
      have hafter : (ofText (text ++ ['\r','\n']) ++ rest).drop ((encodeUtf8 text).length + 2) = rest := by
        have hwhole : (encodeUtf8 text).length + 2 = (ofText (text ++ ['\r','\n'])).length := by
          rw [ofText_append,List.length_append,hend,hlength]
        rw [hwhole,List.drop_left]
      rw [wire,ofText_append,List.append_assoc,parseReply_header (by decide) (by decide) (hinteger _),parseLine_bulk,
        bulkReply_length_text h,if_neg (by rw [ofText_append,List.length_append,List.length_append,hlength,hend]; omega),
          hbody,hafter,
        decoded]
  | nilBulk =>
    obtain ⟨depth,rfl⟩ := Nat.exists_eq_add_of_le' (Nat.one_le_of_lt (Nat.lt_of_lt_of_le (Nat.zero_lt_succ _) hdepth))
    rw [wire,parseReply_header (by decide) (by decide) (hinteger _),parseLine_bulk,bulkReply_minusOne,decoded]
  | nilArray =>
    obtain ⟨depth,rfl⟩ := Nat.exists_eq_add_of_le' (Nat.one_le_of_lt (Nat.lt_of_lt_of_le (Nat.zero_lt_succ _) hdepth))
    rw [wire,parseReply_header (by decide) (by decide) (hinteger _),parseLine_array,arrayReply_minusOne,decoded]
  | @array items hcount _ ih =>
    obtain ⟨depth,rfl⟩ := Nat.exists_eq_add_of_le' (Nat.one_le_of_lt (Nat.lt_of_lt_of_le (Nat.zero_lt_succ _) hdepth))
    cases hplain with
    | array hplain =>
      have hitems : ∀ item ∈ items, ∀ rest, parseReply depth (ofText item.wire ++ rest) = some (item.decoded,rest) := by
        intro item hitem rest
        apply ih item hitem (hplain item hitem)
        have hle := length_wire_le hitem
        rw [wire,ofText_append,List.length_append,header,ofText_cons,List.length_append,charUnits_ascii (by decide),
          List.length_singleton] at hdepth
        omega
      rw [wire,ofText_append,List.append_assoc,parseReply_header (by decide) (by decide) (hinteger _),parseLine_array,
        arrayReply_length_text hcount,parseItems_wires hitems,Option.map_some,decoded]

end Whole

section Necessity
variable {type : Char} {p text read more : List Char}

theorem torn_header (htype : type.toNat < 0x80) (h : Torn (header type p ++ more) read) :
    ∃ p' rest, read = header type p' ++ rest ∧ Torn p p' ∧ Torn more rest := by
  obtain ⟨first,rest,rfl,hfirst,hrest⟩ := h.append_left
  have hfirst : Torn ((type :: p) ++ ['\r','\n']) first := hfirst
  obtain ⟨front,crlf,rfl,hfront,hcrlf⟩ := hfirst.append_left
  have hfront : Torn ([type] ++ p) front := hfront
  obtain ⟨one,p',rfl,hone,hp⟩ := hfront.append_left
  obtain rfl := hcrlf.eq_of_ascii crlf_ascii
  obtain rfl := hone.eq_of_ascii (by simpa using htype)
  exact ⟨p',rest,rfl,hp,hrest⟩

theorem cr_of_torn (h : Torn p read) (hp : '\r' ∉ p) : '\r' ∉ read := by
  intro hin
  rcases h.mem hin with hin | hin
  · exact hp hin
  · exact absurd hin (by decide +kernel)

theorem fault_injective {reason : String} {a b : JsString} (h : fault reason a = fault reason b) : a = b :=
  List.append_cancel_left (RedisError.mk.inj (Value.error.inj h))

/-- What the replies before it leave of a text, if they are read as they should be. -/
def Leaves (wire text more : List Char) (rest : JsString) : Prop := ∃ later, text = wire ++ later ∧ Torn more later ∧
    rest = ofText later

theorem parseItems_torn {items : List Reply} {parse : JsString → Option (Value × JsString)}
    (h : ∀ item ∈ items, ∀ {more read rest}, Torn (item.wire ++ more) read → parse (ofText read) = some (item.decoded,rest) →
      item.Plain ∧ Leaves item.wire read more rest)
    (htorn : Torn (wires items ++ more) read) (hread : parseItems parse items.length (ofText read) =
      some (decodedAll items,rest)) :
    (∀ item ∈ items, item.Plain) ∧ Leaves (wires items) read more rest := by
  induction items generalizing read with
  | nil =>
    obtain ⟨-,rfl⟩ := Prod.mk.inj (Option.some.inj hread)
    exact ⟨fun item hitem => absurd hitem List.not_mem_nil,read,rfl,htorn,rfl⟩
  | cons item items ih =>
    rw [wires,List.append_assoc] at htorn
    rw [List.length_cons,parseItems] at hread
    split at hread
    · cases hread
    · rename_i value after hitem
      obtain ⟨⟨values,rest'⟩,hitems,heq⟩ := Option.map_eq_some_iff.mp hread
      obtain ⟨hvalues,rfl⟩ := Prod.mk.inj heq
      obtain ⟨rfl,rfl⟩ := List.cons.inj hvalues
      obtain ⟨hplain,later,rfl,hlater,rfl⟩ := h item List.mem_cons_self htorn hitem
      obtain ⟨hplains,last,rfl,hlast,rfl⟩ := ih (fun i hi => h i (List.mem_cons_of_mem item hi)) hlater hitems
      refine ⟨List.forall_mem_cons.mpr ⟨hplain,hplains⟩,last,?_,hlast,rfl⟩
      rw [wires,List.append_assoc]

/-- A reply that is decoded as it should be was not cut, and its bulk strings are of single bytes. -/
theorem parseReply_torn {reply : Reply} (hreply : reply.Resp2) (htorn : Torn (reply.wire ++ more) read)
    (hread : parseReply depth (ofText read) = some (reply.decoded,rest)) : reply.Plain ∧ Leaves reply.wire read more rest := by
  have hinteger : ∀ n, '\r' ∉ integerChars n := fun n hin => (integerChars_ascii n _ hin).2 rfl
  have hascii : ∀ {n : ℤ} {p}, Torn (integerChars n) p → p = integerChars n :=
    fun {n p} h => h.eq_of_ascii fun c hc => (integerChars_ascii n c hc).1
  induction hreply generalizing depth more read rest with
  | simple h =>
    cases depth with
    | zero => cases hread
    | succ depth =>
      obtain ⟨p,later,rfl,hp,hlater⟩ := torn_header (by decide) htorn
      rw [ofText_append,parseReply_header (by decide) (by decide) (cr_of_torn hp h.1),parseLine_simple,decoded] at hread
      obtain ⟨hvalue,rfl⟩ := Prod.mk.inj (Option.some.inj hread)
      obtain rfl := ofText_injective (Value.text.inj hvalue)
      exact ⟨.simple _,later,rfl,hlater,rfl⟩
  | error h =>
    cases depth with
    | zero => cases hread
    | succ depth =>
      obtain ⟨p,later,rfl,hp,hlater⟩ := torn_header (by decide) htorn
      rw [ofText_append,parseReply_header (by decide) (by decide) (cr_of_torn hp h.1),parseLine_error,decoded] at hread
      obtain ⟨hvalue,rfl⟩ := Prod.mk.inj (Option.some.inj hread)
      obtain rfl := ofText_injective (fault_injective hvalue)
      exact ⟨.error _,later,rfl,hlater,rfl⟩
  | @integer n h =>
    cases depth with
    | zero => cases hread
    | succ depth =>
      obtain ⟨p,later,rfl,hp,hlater⟩ := torn_header (by decide) htorn
      obtain rfl := hascii hp
      rw [ofText_append,parseReply_header (by decide) (by decide) (hinteger n),parseLine_integer (number_bits h)] at hread
      obtain ⟨-,rfl⟩ := Prod.mk.inj (Option.some.inj hread)
      exact ⟨.integer n,later,rfl,hlater,rfl⟩
  | @bulk text h =>
    cases depth with
    | zero => cases hread
    | succ depth =>
      rw [wire,List.append_assoc] at htorn
      obtain ⟨p,later,rfl,hp,hlater⟩ := torn_header (by decide) htorn
      obtain rfl := hascii hp
      obtain ⟨body,after,rfl,hbody,hafter⟩ := hlater.append_left
      obtain ⟨inner,crlf,rfl,hinner,hcrlf⟩ := hbody.append_left
      obtain rfl := hcrlf.eq_of_ascii crlf_ascii
      rw [ofText_append,parseReply_header (by decide) (by decide) (hinteger _),parseLine_bulk,bulkReply_length_text h,
        decoded] at hread
      split at hread
      · cases hread
      · rename_i henough
        obtain ⟨hvalue,rfl⟩ := Prod.mk.inj (Option.some.inj hread)
        have hvalue := Value.text.inj hvalue
        have hlength : (ofText text).length = (encodeUtf8 text).length := by
          rw [← hvalue,List.length_take_of_le (by omega)]
        have hplain := ascii_of_length hlength
        obtain rfl := hinner.eq_of_ascii hplain
        refine ⟨.bulk hplain,after,?_,hafter,?_⟩
        · rw [wire]
          exact (List.append_assoc _ _ _).symm
        · have hend : (ofText ['\r','\n']).length = 2 := rfl
          have hwhole : (encodeUtf8 inner).length + 2 = (ofText (inner ++ ['\r','\n'])).length := by
            rw [ofText_append,List.length_append,hend,hlength]
          rw [hwhole,ofText_append (inner ++ ['\r','\n']),List.drop_left]
  | nilBulk =>
    cases depth with
    | zero => cases hread
    | succ depth =>
      obtain ⟨p,later,rfl,hp,hlater⟩ := torn_header (by decide) htorn
      obtain rfl := hascii hp
      rw [ofText_append,parseReply_header (by decide) (by decide) (hinteger _),parseLine_bulk,bulkReply_minusOne] at hread
      obtain ⟨-,rfl⟩ := Prod.mk.inj (Option.some.inj hread)
      exact ⟨.nilBulk,later,rfl,hlater,rfl⟩
  | nilArray =>
    cases depth with
    | zero => cases hread
    | succ depth =>
      obtain ⟨p,later,rfl,hp,hlater⟩ := torn_header (by decide) htorn
      obtain rfl := hascii hp
      rw [ofText_append,parseReply_header (by decide) (by decide) (hinteger _),parseLine_array,arrayReply_minusOne] at hread
      obtain ⟨-,rfl⟩ := Prod.mk.inj (Option.some.inj hread)
      exact ⟨.nilArray,later,rfl,hlater,rfl⟩
  | @array items hcount _ ih =>
    cases depth with
    | zero => cases hread
    | succ depth =>
      rw [wire,List.append_assoc] at htorn
      obtain ⟨p,later,rfl,hp,hlater⟩ := torn_header (by decide) htorn
      obtain rfl := hascii hp
      rw [ofText_append,parseReply_header (by decide) (by decide) (hinteger _),parseLine_array,arrayReply_length_text hcount,
        decoded] at hread
      obtain ⟨⟨values,rest'⟩,hitems,heq⟩ := Option.map_eq_some_iff.mp hread
      obtain ⟨hvalues,rfl⟩ := Prod.mk.inj heq
      obtain rfl := Value.array.inj hvalues
      obtain ⟨hplain,last,rfl,hlast,rfl⟩ := parseItems_torn (fun item hitem => ih item hitem) hlater hitems
      refine ⟨.array hplain,last,?_,hlast,rfl⟩
      rw [wire,List.append_assoc]

end Necessity

section Delivery
variable {rs : List Reply} {chunks : List (List UInt8)}

/-- What each reply is handed to: the waiters in turn, and then nobody. -/
def handing : List ℕ → List Value → List (Option ℕ × Except RedisError Value)
  | _,[] => []
  | pending,value :: values => (pending.head?,outcome value) :: handing pending.tail values

theorem outcome_injective : Function.Injective outcome := by
  intro a b h
  cases a <;> cases b <;> simp_all [outcome]

theorem handing_injective {pending : List ℕ} {a b : List Value} (h : handing pending a = handing pending b) : a = b := by
  induction a generalizing pending b with
  | nil =>
    cases b with
    | nil => rfl
    | cons v b => cases h
  | cons u a ih =>
    cases b with
    | nil => cases h
    | cons v b =>
      obtain ⟨hfirst,hrest⟩ := List.cons.inj h
      rw [outcome_injective (Prod.mk.inj hfirst).2,ih hrest]

theorem foldl_deliver (values : List Value) (client : Client) :
    values.foldl deliver client = ⟨client.pending.drop values.length,client.handed ++ handing client.pending values⟩ := by
  induction values generalizing client with
  | nil =>
    rw [List.foldl_nil,List.length_nil,List.drop_zero,handing,List.append_nil]
  | cons value values ih =>
    rw [List.foldl_cons,ih,deliver,handing,List.length_cons,List.append_assoc]
    simp only [List.drop_tail]
    rfl

theorem drain_torn {read : List Char} (hrs : ∀ r ∈ rs, r.Resp2) (htorn : Torn (wires rs) read)
    (h : replies.drain (ofText read) = (rs.map decoded,[])) : (∀ r ∈ rs, r.Plain) ∧ read = wires rs := by
  induction rs generalizing read with
  | nil =>
    cases htorn
    exact ⟨fun r hr => absurd hr List.not_mem_nil,rfl⟩
  | cons r rs ih =>
    cases hcut : replies.cut (ofText read) with
    | none =>
      rw [Cutter.drain_none hcut] at h
      cases h
    | some found =>
      obtain ⟨value,rest⟩ := found
      rw [Cutter.drain_some hcut,List.map_cons] at h
      obtain ⟨hvalues,hbuffer⟩ := Prod.mk.inj h
      obtain ⟨rfl,hlater⟩ := List.cons.inj hvalues
      obtain ⟨hplain,later,rfl,htorn,rfl⟩ := parseReply_torn (hrs r List.mem_cons_self) htorn hcut
      obtain ⟨hplains,rfl⟩ := ih (fun r' hr => hrs r' (List.mem_cons_of_mem r hr)) htorn (Prod.ext hlater hbuffer)
      exact ⟨List.forall_mem_cons.mpr ⟨hplain,hplains⟩,rfl⟩

theorem drain_plain (hrs : ∀ r ∈ rs, r.Resp2) (hplain : ∀ r ∈ rs, r.Plain) : replies.drain (ofText (wires rs)) =
    (rs.map decoded,[]) := by
  have hwires : ofText (wires rs) = rs.flatMap fun r => ofText r.wire := by
    unfold ofText
    rw [wires_eq,List.flatMap_assoc]
  rw [hwires]
  apply Cutter.drain_encoded
  intro r hr rest
  have hlength : (ofText r.wire).length ≤ (ofText r.wire ++ rest).length + 1 := by
    rw [List.length_append]
    omega
  exact parseReply_wire (hrs r hr) (hplain r hr) hlength rest

/-- The chunks of the replies give just the replies, in order and with nothing left over, where bulk strings are of
single bytes and no chunk ends inside a character. -/
theorem delivered_iff (hrs : ∀ r ∈ rs, r.Resp2) (h : chunks.flatten = encodeUtf8 (wires rs)) (pending : List ℕ) :
    chunks.foldl onData ([],⟨pending,[]⟩) = ([],⟨pending.drop rs.length,handing pending (rs.map decoded)⟩) ↔
      (∀ r ∈ rs, r.Plain) ∧ ∀ chunk ∈ chunks, ∃ text, chunk = encodeUtf8 text := by
  have htexts : (chunks.map chunkText).flatten = ofText (chunks.flatMap decodeUtf8) := by
    unfold ofText chunkText
    rw [List.flatMap_assoc,List.flatten_eq_flatMap,List.flatMap_map]
    rfl
  have hreceived : replies.receive (chunks.map chunkText) = replies.drain (ofText (chunks.flatMap decodeUtf8)) := by
    rw [replies_stable.receive_eq,htexts]
  have hstate : chunks.foldl onData ([],⟨pending,[]⟩) = ((replies.drain (ofText (chunks.flatMap decodeUtf8))).2,
      (replies.drain (ofText (chunks.flatMap decodeUtf8))).1.foldl deliver ⟨pending,[]⟩) := by
    have hprocess := Cutter.foldl_process (c := replies) deliver ⟨pending,[]⟩ (chunks.map chunkText)
    rw [List.foldl_map,hreceived] at hprocess
    exact hprocess
  have htorn := torn_of_chunks h
  rw [hstate,foldl_deliver]
  constructor
  · intro hall
    obtain ⟨hbuffer,hclient⟩ := Prod.mk.inj hall
    obtain ⟨-,hhanded⟩ := Client.mk.inj hclient
    have hvalues := handing_injective hhanded
    obtain ⟨hplain,hread⟩ := drain_torn hrs htorn (Prod.ext hvalues hbuffer)
    exact ⟨hplain,chunks_whole h (hread ▸ le_rfl)⟩
  · rintro ⟨hplain,hwhole⟩
    rw [read_of_whole h hwhole,drain_plain hrs hplain]
    simp only [List.length_map,List.nil_append]

/-- A status with a character of two bytes, an integer and an array, cut in a terminator, in a length and in a bulk string. -/
def mixedReplies : List Reply := [.simple ['\u00e9'],.integer (-12),.array [.bulk ['a','b'],.nilBulk,.nilArray]]

def mixedChunks : List (List UInt8) :=
  [[43],[195,169,13],[10,58,45],[49,50,13,10,42,51,13,10,36],[50,13,10,97],[98,13,10,36,45,49,13,10,42,45],[49,13],[10]]

theorem delivered_iff_mixed : mixedChunks.foldl onData ([],⟨[4,5],[]⟩) = ([],⟨[4,5].drop mixedReplies.length,
    handing [4,5] (mixedReplies.map decoded)⟩) ↔
      (∀ r ∈ mixedReplies, r.Plain) ∧ ∀ chunk ∈ mixedChunks, ∃ text, chunk = encodeUtf8 text := by
  have hitems : ∀ item ∈ [Reply.bulk ['a','b'],.nilBulk,.nilArray], item.Resp2 := by
    simp only [List.forall_mem_cons,List.not_mem_nil,false_imp_iff,implies_true,and_true]
    exact ⟨.bulk (by decide +kernel),.nilBulk,.nilArray⟩
  have hreplies : ∀ r ∈ mixedReplies, r.Resp2 := by
    unfold mixedReplies
    simp only [List.forall_mem_cons,List.not_mem_nil,false_imp_iff,implies_true,and_true]
    exact ⟨.simple (by decide),.integer (by decide),.array (by decide) hitems⟩
  have hwire : mixedChunks.flatten = encodeUtf8 (wires mixedReplies) := by decide +kernel
  exact delivered_iff hreplies hwire [4,5]

/-- A bulk string of one character of two bytes: the buffer is a unit short of what its length says, and stays so. -/
theorem bulk_never_delivered : ∃ (rs : List Reply) (chunks : List (List UInt8)), (∀ r ∈ rs, r.Resp2) ∧
    chunks.flatten = encodeUtf8 (wires rs) ∧ chunks.foldl onData ([],⟨[1],[]⟩) = (ofText (wires rs),⟨[1],[]⟩) ∧
      chunks.foldl onData ([],⟨[1],[]⟩) ≠ ([],⟨[1].drop rs.length,handing [1] (rs.map decoded)⟩) := by
  have hbytes : (encodeUtf8 ['\u00e9']).length = 2 := by decide +kernel
  have hwires : wires [.bulk ['\u00e9']] = header '$' (integerChars (2 : ℕ)) ++ ['\u00e9','\r','\n'] := by
    rw [wires,wire,hbytes,wires,List.append_nil]
    rfl
  have hcut : replies.cut (ofText (wires [.bulk ['\u00e9']])) = none := by
    have hparse : ∀ input, replies.cut input = parseReply (input.length + 1) input := fun _ => rfl
    rw [hparse,hwires,ofText_append,parseReply_header (by decide) (by decide) fun hin => (integerChars_ascii _ _ hin).2 rfl,
      parseLine_bulk,
      bulkReply_length_text (by norm_num)]
    exact if_pos (by decide)
  have hstuck : [encodeUtf8 (wires [.bulk ['\u00e9']])].foldl onData ([],⟨[1],[]⟩) =
    (ofText (wires [.bulk ['\u00e9']]),⟨[1],[]⟩) := by
    have hone : onData ([],⟨[1],[]⟩) (encodeUtf8 (wires [.bulk ['\u00e9']])) = (ofText (wires [.bulk ['\u00e9']]),⟨[1],[]⟩) := by
      unfold onData Cutter.process chunkText
      rw [decodeUtf8_encodeUtf8,List.nil_append,Cutter.drain_none hcut]
      rfl
    exact hone
  refine ⟨[.bulk ['\u00e9']],[encodeUtf8 (wires [.bulk ['\u00e9']])],?_,List.flatten_singleton,hstuck,?_⟩
  · rw [List.forall_mem_singleton]
    exact .bulk (by rw [hbytes]; norm_num)
  · rw [hstuck]
    intro h
    have hpending := congrArg Client.pending (Prod.mk.inj h).2
    cases hpending

end Delivery

end StructureAi.Http.Redis

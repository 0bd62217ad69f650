import StructureAi.Foundation.Transparency
import StructureAi.Foundation.Url

/-! # Dot-stuffing

What is written after the reply to `DATA`: the message with its line ends made pairs, a dot more in
front of every line that begins with one, and the end of the data. The server reads bytes.
-/
namespace StructureAi.Mailer
open StructureAi.Foundation Lines

section Stuffing

/-- `.replace(/\r?\n/gu, CRLF).split(CRLF)`, a dot where a line starts with one, and `.join(CRLF)`. -/
def stuffDots (message : JsString) : JsString :=
  let normalized := paired (unit '\r') (unit '\n') message
  joinLines (unit '\r') (unit '\n') ((linesOf (unit '\r') (unit '\n') normalized).map fun line =>
    if line.head? = some (unit '.') then unit '.' :: line else line)

/-- `writeRaw` sends UTF-8. -/
def utf8 (text : JsString) : List UInt8 := encodeUtf8 (scalarValues text)

/-- What `deliver` writes for a rendered message once `DATA` was answered. -/
def writtenData (rendered : JsString) : List UInt8 :=
  utf8 (stuffDots rendered ++ units ['\r','\n','.','\r','\n'])

/-- A message whose bare line feeds were turned into pairs. -/
def withoutBareFeeds (message : JsString) : JsString := bareEnded (unit '\r') (unit '\n') false message

end Stuffing

section Bytes
variable {u : CodeUnit} {text rest : JsString}

theorem unitChar_ascii (hu : u.val < 0x80) : Json.unitChar u.val = Char.ofNat u.val := by
  have hhigh : Json.isHigh u.val = false := by
    simp only [Json.isHigh,Bool.and_eq_false_iff,decide_eq_false_iff_not]
    omega
  have hlow : Json.isLow u.val = false := by
    simp only [Json.isLow,Bool.and_eq_false_iff,decide_eq_false_iff_not]
    omega
  rw [Json.unitChar,hhigh,hlow]
  rfl

theorem scalarValues_append (hu : u.val < 0x80) (text rest : JsString) :
    scalarValues (text ++ u :: rest) = scalarValues text ++ Char.ofNat u.val :: scalarValues rest := by
  have hhigh : Json.isHigh u.val = false := by
    simp only [Json.isHigh,Bool.and_eq_false_iff,decide_eq_false_iff_not]
    omega
  have hlow : Json.isLow u.val = false := by
    simp only [Json.isLow,Bool.and_eq_false_iff,decide_eq_false_iff_not]
    omega
  have hhere : scalarValues (u :: rest) = Char.ofNat u.val :: scalarValues rest := by
    rw [scalarValues_single hhigh,unitChar_ascii hu]
  induction text using scalarValues.induct with
  | case1 => exact hhere
  | case2 x =>
    have hno : ¬ (Json.isHigh x.val = true ∧ Json.isLow u.val = true) := fun h => by simp [hlow] at h
    have hcut : scalarValues (x :: u :: rest) = Json.unitChar x.val :: scalarValues (u :: rest) := if_neg hno
    rw [List.singleton_append,hcut,hhere]
    rfl
  | case3 x y others hpair ih =>
    rw [List.cons_append,List.cons_append,scalarValues,if_pos hpair,ih,scalarValues,if_pos hpair,List.cons_append]
  | case4 x y others hpair ih =>
    rw [List.cons_append,List.cons_append,scalarValues,if_neg hpair,← List.cons_append,ih,scalarValues,if_neg hpair,
      List.cons_append]

theorem unitChar_low (h : (Json.unitChar u.val).toNat < 0x80) : (Json.unitChar u.val).toNat = u.val := by
  rw [Json.unitChar] at h ⊢
  split at h
  · exact absurd h (by decide)
  · rename_i hkind
    rw [if_neg hkind]
    simp only [Json.isHigh,Json.isLow,Bool.or_eq_true,Bool.and_eq_true,decide_eq_true_eq,not_or,not_and,not_lt] at hkind
    have hunit := u.isLt
    refine toNat_charOfNat ?_
    unfold Nat.isValidChar
    omega

theorem pairChar_high {v : CodeUnit} (hpair : Json.isHigh u.val = true ∧ Json.isLow v.val = true) :
    ¬ (Json.pairChar u.val v.val).toNat < 0x80 := by
  rw [toNat_pairChar hpair]
  omega

theorem head_scalarValues (u : CodeUnit) (rest : JsString) :
    ∃ c cs, scalarValues (u :: rest) = c :: cs ∧ (c.toNat < 0x80 → c.toNat = u.val) := by
  cases rest with
  | nil => exact ⟨_,_,rfl,unitChar_low⟩
  | cons v rest =>
    rw [scalarValues]
    split
    · rename_i hpair
      exact ⟨_,_,rfl,fun h => absurd h (pairChar_high hpair)⟩
    · exact ⟨_,_,rfl,unitChar_low⟩

theorem mem_scalarValues {c : Char} (hc : c ∈ scalarValues text) (hlow : c.toNat < 0x80) : ∃ u ∈ text, u.val = c.toNat := by
  induction text using scalarValues.induct with
  | case1 => exact absurd hc List.not_mem_nil
  | case2 x =>
    obtain rfl : c = Json.unitChar x.val := List.mem_singleton.mp hc
    exact ⟨x,List.mem_cons_self,(unitChar_low hlow).symm⟩
  | case3 x y others hpair ih =>
    rw [scalarValues,if_pos hpair] at hc
    have hhigh := pairChar_high hpair
    rcases List.mem_cons.mp hc with hc | hc
    · rw [hc] at hlow
      exact absurd hlow hhigh
    · obtain ⟨u,hu,hval⟩ := ih hc
      exact ⟨u,List.mem_cons_of_mem x (List.mem_cons_of_mem y hu),hval⟩
  | case4 x y others hpair ih =>
    rw [scalarValues,if_neg hpair] at hc
    rcases List.mem_cons.mp hc with rfl | hc
    · exact ⟨x,List.mem_cons_self,(unitChar_low hlow).symm⟩
    · obtain ⟨u,hu,hval⟩ := ih hc
      exact ⟨u,List.mem_cons_of_mem x hu,hval⟩

theorem low_of_mem_encodeChar {c : Char} {b : UInt8} (hb : b ∈ String.utf8EncodeChar c) (hlow : b.toNat < 0x80) :
    c.toNat = b.toNat := by
  by_cases hc : c.toNat < 0x80
  · rw [utf8EncodeChar_small hc] at hb
    rw [List.mem_singleton.mp hb,toNat_byte (by omega)]
  · have hlarge := utf8EncodeChar_large (Nat.le_of_not_lt hc) b hb
    omega

theorem encodeChar_ascii {n : ℕ} (hn : n < 0x80) : String.utf8EncodeChar (Char.ofNat n) = [UInt8.ofNat n] := by
  have hchar : (Char.ofNat n).toNat = n := by
    refine toNat_charOfNat ?_
    unfold Nat.isValidChar
    omega
  rw [utf8EncodeChar_small (by omega),hchar]

theorem utf8_append (hu : u.val < 0x80) (text rest : JsString) : utf8 (text ++ u :: rest) = utf8 text ++
    UInt8.ofNat u.val :: utf8 rest := by
  rw [utf8,scalarValues_append hu,encodeUtf8,List.flatMap_append,List.flatMap_cons,encodeChar_ascii hu]
  rfl

theorem unit_mem_of_mem_utf8 {b : UInt8} (hb : b ∈ utf8 text) (hlow : b.toNat < 0x80) : ∃ u ∈ text, u.val = b.toNat := by
  obtain ⟨c,hc,hin⟩ := List.mem_flatMap.mp hb
  have hcb := low_of_mem_encodeChar hin hlow
  rw [← hcb] at hlow ⊢
  exact mem_scalarValues hc hlow

theorem head_utf8 (hu : u.val < 0x80) : (utf8 text).head? = some (UInt8.ofNat u.val) ↔ text.head? = some u := by
  cases text with
  | nil => exact ⟨fun h => (nomatch h),fun h => (nomatch h)⟩
  | cons x rest =>
    constructor
    · intro h
      obtain ⟨c,cs,hcs,hlow⟩ := head_scalarValues x rest
      have hmem : UInt8.ofNat u.val ∈ String.utf8EncodeChar c := by
        have hsplit : utf8 (x :: rest) = String.utf8EncodeChar c ++ encodeUtf8 cs := by
          rw [utf8,hcs]
          rfl
        obtain ⟨b,tail,hbytes⟩ := List.exists_cons_of_ne_nil (String.utf8EncodeChar_ne_nil (c := c))
        rw [hsplit,hbytes] at h
        rw [hbytes,← Option.some.inj h]
        exact List.mem_cons_self
      have hbyte : (UInt8.ofNat u.val).toNat = u.val := toNat_byte (by omega)
      have hcu := low_of_mem_encodeChar hmem (by rw [hbyte]; exact hu)
      rw [hbyte] at hcu
      exact congrArg some (Fin.ext ((hlow (by omega)).symm.trans hcu))
    · intro h
      obtain rfl : x = u := Option.some.inj h
      have hsplit := utf8_append hu [] rest
      rw [List.nil_append] at hsplit
      rw [hsplit]
      rfl

end Bytes

section Data
variable {lines : List JsString}

theorem utf8_joinLines (lines : List JsString) :
    utf8 (joinLines (unit '\r') (unit '\n') lines) = joinLines 13 10 (lines.map utf8) := by
  induction lines with
  | nil => rfl
  | cons line lines ih =>
    by_cases hlast : lines = []
    · rw [hlast,List.map_singleton,joinLines,joinLines,List.intercalate_singleton,List.intercalate_singleton]
    · have hfeed : utf8 (unit '\n' :: joinLines (unit '\r') (unit '\n') lines) =
          10 :: utf8 (joinLines (unit '\r') (unit '\n') lines) := utf8_append (u := unit '\n') (by decide) [] _
      rw [List.map_cons,joinLines_cons line hlast,joinLines_cons _ fun h => hlast (List.map_eq_nil_iff.mp h),
        utf8_append (u := unit '\r') (by decide),hfeed,ih]
      rfl

theorem utf8_stuff (line : JsString) : utf8 (stuff (unit '.') line) = stuff 46 (utf8 line) := by
  have hdot : (utf8 line).head? = some 46 ↔ line.head? = some (unit '.') := head_utf8 (u := unit '.') (by decide)
  rw [stuff,stuff]
  split
  · rename_i h
    rw [if_pos (hdot.mpr h)]
    exact utf8_append (u := unit '.') (by decide) [] line
  · rename_i h
    rw [if_neg fun hbytes => h (hdot.mp hbytes)]

theorem feed_not_mem_utf8 {line : JsString} (h : unit '\n' ∉ line) : (10 : UInt8) ∉ utf8 line := by
  intro hin
  obtain ⟨u,hu,hval⟩ := unit_mem_of_mem_utf8 hin (by decide)
  have hunit : u = unit '\n' := Fin.ext hval
  exact h (hunit ▸ hu)

/-- The bytes after `DATA` are the stuffed lines of the message, in bytes, and the mark. -/
theorem writtenData_eq (rendered : JsString) :
    writtenData rendered =
      joinLines 13 10 (((linesOf (unit '\r') (unit '\n') (withoutBareFeeds rendered)).map utf8).map (stuff 46)) ++
        endMark 13 10 46 := by
  have hmark : utf8 (stuffDots rendered ++ units ['\r','\n','.','\r','\n']) = utf8 (stuffDots rendered) ++ endMark 13 10 46 :=
    utf8_append (u := unit '\r') (by decide) (stuffDots rendered) (units ['\n','.','\r','\n'])
  have hlines : stuffDots rendered =
      joinLines (unit '\r') (unit '\n') ((linesOf (unit '\r') (unit '\n')
        (withoutBareFeeds rendered)).map (stuff (unit '.'))) := by
    rw [withoutBareFeeds,← paired_eq_bareEnded (by decide)]
    rfl
  rw [writtenData,hmark,hlines,utf8_joinLines,List.map_map,List.map_map]
  have hcomm : utf8 ∘ stuff (unit '.') = stuff 46 ∘ utf8 := funext utf8_stuff
  rw [hcomm]

/-- The end of the data occurs at the end of what is written only, also when the end of the line before is its first mark, and
who cuts there and takes one dot from each line that begins with one has the message, its bare line feeds made pairs. -/
theorem dotStuffing_transparent (rendered : JsString) :
    (∀ before after, writtenData rendered = before ++ [13,10,46,13,10] ++ after → after = []) ∧
    (∀ before after, 13 :: 10 :: writtenData rendered = before ++ [13,10,46,13,10] ++ after → after = []) ∧
    receive 13 10 46 (writtenData rendered) = some (utf8 (withoutBareFeeds rendered)) := by
  set lines := (linesOf (unit '\r') (unit '\n') (withoutBareFeeds rendered)).map utf8 with hdef
  have hne : lines ≠ [] := fun h => linesOf_ne_nil _ _ _ (List.map_eq_nil_iff.mp h)
  have hfeeds : ∀ line ∈ lines, (10 : UInt8) ∉ line := by
    intro line hline
    obtain ⟨text,htext,rfl⟩ := List.mem_map.mp hline
    rw [withoutBareFeeds,← paired_eq_bareEnded (by decide)] at htext
    exact feed_not_mem_utf8 (not_mem_linesOf_paired (by decide) rendered text htext)
  have hwritten : writtenData rendered = joinLines 13 10 (lines.map (stuff 46)) ++ endMark 13 10 46 := writtenData_eq rendered
  have hread : joinLines 13 10 lines = utf8 (withoutBareFeeds rendered) := by
    rw [hdef,← utf8_joinLines,joinLines_linesOf]
  -- the line before is one more line of the data
  have hbefore : 13 :: 10 :: writtenData rendered = joinLines 13 10 (([] :: lines).map (stuff 46)) ++ endMark 13 10 46 := by
    rw [hwritten,List.map_cons,joinLines_cons _ fun h => hne (List.map_eq_nil_iff.mp h)]
    rfl
  have hmarks : (13 : UInt8) ≠ 10 := by decide
  have hdot : (46 : UInt8) ≠ 10 := by decide
  have hplain := transparent hmarks hdot hne hfeeds
  have hended := transparent hmarks hdot (List.cons_ne_nil [] lines) (List.forall_mem_cons.mpr ⟨List.not_mem_nil,hfeeds⟩)
  refine ⟨?_,?_,?_⟩
  · rw [hwritten]
    exact hplain.1
  · rw [hbefore]
    exact hended.1
  · rw [hwritten,← hread]
    exact hplain.2

end Data

end StructureAi.Mailer

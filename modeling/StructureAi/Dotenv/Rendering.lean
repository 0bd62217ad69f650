import StructureAi.Dotenv.Document
import StructureAi.Foundation.Separated

/-! # Rendering an untouched document

A text is its normal form with every line break spelled as it was. A document spells the breaks within its items
as they are in the normal form, and all others alike, so that it renders to the text that was parsed just when the
text spells them so.
-/
namespace StructureAi.Dotenv
open StructureAi.Foundation

section Spelling
variable {t rest : JsString} {breaks breaks' : List Eol}

def lineBreaks : JsString → List Eol
  | [] => []
  | [u] => if u = unit '\n' then [.lf] else []
  | u :: v :: rest =>
    if u = unit '\r' ∧ v = unit '\n' then .crlf :: lineBreaks rest
    else if u = unit '\n' then .lf :: lineBreaks (v :: rest)
    else lineBreaks (v :: rest)

/-- A normal text with its line breaks spelled in turn. -/
def spell : List Eol → JsString → JsString
  | _,[] => []
  | [],rest => rest
  | b :: breaks,u :: rest => if u = unit '\n' then b.units ++ spell breaks rest else u :: spell (b :: breaks) rest

theorem spell_nil_left : spell [] t = t := by
  cases t <;> rfl

theorem spell_cons {u : CodeUnit} (h : u ≠ unit '\n') : spell breaks (u :: rest) = u :: spell breaks rest := by
  cases breaks with
  | nil => rw [spell_nil_left,spell_nil_left]
  | cons b breaks => rw [spell,if_neg h]

theorem spell_break (b : Eol) : spell (b :: breaks) (unit '\n' :: rest) = b.units ++ spell breaks rest := by
  rw [spell,if_pos rfl]

theorem cr_ne_lf : unit '\r' ≠ unit '\n' := by decide

theorem spell_lineBreaks (t : JsString) : spell (lineBreaks t) (normalize t) = t := by
  induction t using normalize.induct with
  | case1 => rfl
  | case2 u =>
    rw [lineBreaks,normalize]
    split
    · rename_i hu
      rw [hu]
      rfl
    · exact spell_nil_left
  | case3 u v rest hcrlf ih =>
    obtain ⟨rfl,rfl⟩ := hcrlf
    rw [lineBreaks,normalize,if_pos ⟨rfl,rfl⟩,if_pos ⟨rfl,rfl⟩,spell_break,ih]
    rfl
  | case4 u v rest hcrlf ih =>
    rw [lineBreaks,normalize,if_neg hcrlf,if_neg hcrlf]
    split
    · rename_i hu
      rw [hu,spell_break,ih]
      rfl
    · rename_i hu
      rw [spell_cons hu,ih]

theorem length_lineBreaks (t : JsString) : (lineBreaks t).length = (normalize t).count (unit '\n') := by
  induction t using normalize.induct with
  | case1 => rfl
  | case2 u =>
    rw [lineBreaks,normalize]
    split
    · rename_i hu
      rw [hu]
      rfl
    · rename_i hu
      rw [List.count_cons_of_ne hu]
      rfl
  | case3 u v rest hcrlf ih => rw [lineBreaks,normalize,if_pos hcrlf,if_pos hcrlf,List.length_cons,List.count_cons_self,ih]
  | case4 u v rest hcrlf ih =>
    rw [lineBreaks,normalize,if_neg hcrlf,if_neg hcrlf]
    split
    · rename_i hu
      rw [hu,List.length_cons,List.count_cons_self,ih]
    · rename_i hu
      rw [List.count_cons_of_ne hu,ih]

theorem spell_injective (h : breaks.length = t.count (unit '\n')) (h' : breaks'.length = t.count (unit '\n'))
    (heq : spell breaks t = spell breaks' t) : breaks = breaks' := by
  induction t generalizing breaks breaks' with
  | nil => rw [List.length_eq_zero_iff.mp h,List.length_eq_zero_iff.mp h']
  | cons u t ih =>
    by_cases hu : u = unit '\n'
    · subst hu
      rw [List.count_cons_self] at h h'
      obtain ⟨b,breaks,rfl⟩ := List.exists_cons_of_length_eq_add_one h
      obtain ⟨b',breaks',rfl⟩ := List.exists_cons_of_length_eq_add_one h'
      rw [spell_break,spell_break] at heq
      have hhead := congrArg List.head? heq
      cases b with
      | lf =>
        cases b' with
        | lf => rw [ih (Nat.succ.inj h) (Nat.succ.inj h') (List.cons.inj heq).2]
        | crlf => exact absurd (Option.some.inj hhead).symm cr_ne_lf
      | crlf =>
        cases b' with
        | lf => exact absurd (Option.some.inj hhead) cr_ne_lf
        | crlf => rw [ih (Nat.succ.inj h) (Nat.succ.inj h') (List.cons.inj (List.cons.inj heq).2).2]
    · rw [List.count_cons_of_ne hu] at h h'
      rw [spell_cons hu,spell_cons hu] at heq
      exact ih h h' (List.cons.inj heq).2

theorem spell_append (h : breaks.length = t.count (unit '\n')) : spell (breaks ++ breaks') (t ++ rest) = spell breaks t ++
    spell breaks' rest := by
  induction t generalizing breaks with
  | nil =>
    rw [List.length_eq_zero_iff.mp h]
    rfl
  | cons u t ih =>
    by_cases hu : u = unit '\n'
    · subst hu
      rw [List.count_cons_self] at h
      obtain ⟨b,breaks,rfl⟩ := List.exists_cons_of_length_eq_add_one h
      rw [List.cons_append,List.cons_append,spell_break,spell_break,ih (Nat.succ.inj h),List.append_assoc]
    · rw [List.count_cons_of_ne hu] at h
      rw [List.cons_append,spell_cons hu,spell_cons hu,ih h,List.cons_append]

theorem spell_lf (n : ℕ) (t : JsString) : spell (List.replicate n .lf) t = t := by
  induction t generalizing n with
  | nil =>
    cases n <;> rfl
  | cons u t ih =>
    cases n with
    | zero => rfl
    | succ n =>
      by_cases hu : u = unit '\n'
      · subst hu
        rw [List.replicate_succ,spell_break,ih n]
        rfl
      · rw [spell_cons hu,ih]

theorem normalize_of_not_includesCrlf (h : includesCrlf t = false) : normalize t = t := by
  induction t using normalize.induct with
  | case1 => rfl
  | case2 u => rfl
  | case3 u v rest hcrlf ih =>
    obtain ⟨rfl,rfl⟩ := hcrlf
    cases h
  | case4 u v rest hcrlf ih =>
    rw [includesCrlf,Bool.or_eq_false_iff] at h
    rw [normalize,if_neg hcrlf,ih h.2]

end Spelling

section Lines
variable {lines lines' : List JsString} {groups : List (List JsString)} {text : JsString}

theorem joinLines_cons (text : JsString) (lines : List JsString) :
    joinLines (text :: lines) = if lines = [] then text else text ++ unit '\n' :: joinLines lines := by
  unfold joinLines
  cases lines with
  | nil => exact List.intercalate_singleton
  | cons text' lines =>
    rw [if_neg (List.cons_ne_nil _ _),List.intercalate_cons_cons,List.append_assoc]
    rfl

theorem joinLines_append (h : lines ≠ []) (h' : lines' ≠ []) :
    joinLines (lines ++ lines') = joinLines lines ++ unit '\n' :: joinLines lines' := by
  induction lines with
  | nil => exact absurd rfl h
  | cons text lines ih =>
    rw [List.cons_append,joinLines_cons,joinLines_cons]
    by_cases hlines : lines = []
    · rw [if_pos hlines,hlines,List.nil_append,if_neg h']
    · rw [if_neg hlines,if_neg (List.append_ne_nil_of_left_ne_nil hlines _),ih hlines,List.append_assoc]
      rfl

theorem flatten_ne_nil (hgroups : groups ≠ []) (h : ∀ group ∈ groups, group ≠ []) : groups.flatten ≠ [] := by
  obtain ⟨group,groups,rfl⟩ := List.exists_cons_of_ne_nil hgroups
  rw [List.flatten_cons]
  exact List.append_ne_nil_of_left_ne_nil (h group List.mem_cons_self) _

theorem joinLines_groups (h : ∀ group ∈ groups, group ≠ []) : joinLines (groups.map joinLines) = joinLines groups.flatten := by
  induction groups with
  | nil => rfl
  | cons group groups ih =>
    have hgroup := h group List.mem_cons_self
    have hrest := fun g hg => h g (List.mem_cons_of_mem group hg)
    rw [List.map_cons,joinLines_cons,List.flatten_cons]
    by_cases hgroups : groups = []
    · rw [hgroups,List.map_nil,if_pos rfl,List.flatten_nil,List.append_nil]
    · rw [if_neg (fun hnil => hgroups (List.map_eq_nil_iff.mp hnil)),ih hrest,
        joinLines_append hgroup (flatten_ne_nil hgroups hrest)]

theorem count_joinLines (h : ∀ line ∈ lines, unit '\n' ∉ line) (hlines : lines ≠ []) :
    (joinLines lines).count (unit '\n') + 1 = lines.length := by
  induction lines with
  | nil => exact absurd rfl hlines
  | cons text lines ih =>
    have htext : text.count (unit '\n') = 0 := List.count_eq_zero.mpr (h text List.mem_cons_self)
    rw [joinLines_cons]
    by_cases hrest : lines = []
    · rw [if_pos hrest,htext,hrest]
      rfl
    · rw [if_neg hrest,List.count_append,htext,List.count_cons_self,List.length_cons,
        ← ih (fun line hline => h line (List.mem_cons_of_mem text hline)) hrest]
      omega

/-- The breaks of the groups: line feeds within, and CRLF between them. -/
def groupBreaks (groups : List (List JsString)) : List Eol :=
  List.intercalate [.crlf] (groups.map fun group => List.replicate (group.length - 1) .lf)

theorem spell_groupBreaks (hgroups : ∀ group ∈ groups, group ≠ []) (hlines : ∀ line ∈ groups.flatten, unit '\n' ∉ line) :
    (groupBreaks groups).length = (joinLines groups.flatten).count (unit '\n') ∧
      spell (groupBreaks groups) (joinLines groups.flatten) = List.intercalate Eol.crlf.units (groups.map joinLines) := by
  unfold groupBreaks
  induction groups with
  | nil => exact ⟨rfl,rfl⟩
  | cons group groups ih =>
    have hgroup := hgroups group List.mem_cons_self
    have hcount := count_joinLines (fun line hline => hlines line (List.mem_append_left _ hline)) hgroup
    have hlength : (List.replicate (group.length - 1) Eol.lf).length = (joinLines group).count (unit '\n') := by
      rw [List.length_replicate]
      omega
    by_cases hnil : groups = []
    · subst hnil
      rw [List.flatten_cons,List.flatten_nil,List.append_nil,List.map_cons,List.map_nil,List.map_cons,List.map_nil,
        List.intercalate_singleton,List.intercalate_singleton]
      exact ⟨hlength,spell_lf _ _⟩
    · have hrest := fun g hg => hgroups g (List.mem_cons_of_mem group hg)
      obtain ⟨hlength',hspell'⟩ := ih hrest fun line hline => hlines line (List.mem_append_right group hline)
      have hmap : ∀ f : List JsString → List Eol, groups.map f ≠ [] := fun f hf => hnil (List.map_eq_nil_iff.mp hf)
      have hmap' : groups.map joinLines ≠ [] := fun hf => hnil (List.map_eq_nil_iff.mp hf)
      rw [List.flatten_cons,joinLines_append hgroup (flatten_ne_nil hnil hrest),List.map_cons,List.map_cons,
        List.intercalate_cons_of_ne_nil (hmap _),List.intercalate_cons_of_ne_nil hmap',List.append_assoc,List.append_assoc]
      constructor
      · rw [List.length_append,hlength,List.length_append,hlength',List.count_append,List.count_cons_self,List.length_singleton]
        omega
      · rw [spell_append hlength,spell_lf,List.singleton_append,spell_break,hspell']

end Lines

section Groups
variable {lines : List JsString} {rounds index : ℕ}

/-- The number of lines that the first item takes: those of a quoted value up to the one where it is closed. -/
def valueLines (lines : List JsString) : ℕ :=
  match keyLine (lines.headD []) with
  | none => 1
  | some head =>
    match head.rest with
    | [] => 1
    | opening :: _ =>
      if (quoteStyle opening).isNone then 1
      else
        match findClosingQuote opening 0 ((lines.headD []).length - head.rest.length + 1) lines with
        | none => 1
        | some (line,col) => if endsValue ((lines.getD line []).drop (col + 1)) then line + 1 else 1

/-- The lines, those of a quoted value together. -/
def groupLines : ℕ → List JsString → List (List JsString)
  | 0,_ => []
  | _,[] => []
  | rounds + 1,text :: following =>
    (text :: following).take (valueLines (text :: following)) ::
      groupLines rounds ((text :: following).drop (valueLines (text :: following)))

theorem valueLines_pos (lines : List JsString) : 0 < valueLines lines := by
  unfold valueLines
  split
  · exact Nat.one_pos
  · split
    · exact Nat.one_pos
    · split
      · exact Nat.one_pos
      · split
        · exact Nat.one_pos
        · split
          · exact Nat.succ_pos _
          · exact Nat.one_pos

theorem quotedItem_lines (index : ℕ) {head : KeyLine} {text : JsString} (following : List JsString)
    (hhead : keyLine text = some head) :
    match quotedItem index head (text :: following) with
    | some (item,count) => count = valueLines (text :: following) ∧ item.text = joinLines ((text :: following).take count)
    | none => valueLines (text :: following) = 1 := by
  unfold quotedItem valueLines
  simp only [List.headD_cons,hhead]
  cases head.rest with
  | nil => rfl
  | cons opening rest =>
    simp only
    by_cases hquote : (quoteStyle opening).isNone = true
    · rw [if_pos hquote,if_pos hquote]
    · rw [if_neg hquote,if_neg hquote]
      cases findClosingQuote opening 0 (text.length - (opening :: rest).length + 1) (text :: following) with
      | none => rfl
      | some closing =>
        obtain ⟨line,col⟩ := closing
        simp only
        by_cases hends : endsValue (((text :: following).getD line []).drop (col + 1)) = true
        · rw [if_pos hends,if_pos hends]
          exact ⟨rfl,rfl⟩
        · rw [if_neg hends,if_neg hends]

theorem parseLines_texts (rounds index : ℕ) (lines : List JsString) :
    (parseLines rounds index lines).map Item.text = (groupLines rounds lines).map joinLines := by
  induction rounds generalizing index lines with
  | zero => rfl
  | succ rounds ih =>
    cases lines with
    | nil => rfl
    | cons text following =>
      have hone : ∀ item : Item, item.text = text → valueLines (text :: following) = 1 →
          (item :: parseLines rounds (index + 1) following).map Item.text =
            (groupLines (rounds + 1) (text :: following)).map joinLines := by
        intro item hitem hlines
        rw [groupLines,hlines,List.map_cons,ih,hitem,List.map_cons,List.take_succ_cons,List.take_zero,joinLines_cons,if_pos rfl]
        rfl
      rw [parseLines]
      cases hhead : keyLine text with
      | none =>
        apply hone _ rfl
        unfold valueLines
        simp only [List.headD_cons,hhead]
      | some head =>
        have hquoted := quotedItem_lines index following hhead
        simp only
        cases hitem : quotedItem index head (text :: following) with
        | none =>
          rw [hitem] at hquoted
          exact hone _ rfl hquoted
        | some found =>
          obtain ⟨item,count⟩ := found
          rw [hitem] at hquoted
          obtain ⟨rfl,htext⟩ := hquoted
          rw [groupLines,List.map_cons,List.map_cons,ih]
          exact congrArg (· :: _) htext

theorem groupLines_flatten (h : lines.length ≤ rounds) : (groupLines rounds lines).flatten = lines ∧
    ∀ group ∈ groupLines rounds lines, group ≠ [] := by
  induction rounds generalizing lines with
  | zero =>
    obtain rfl := List.length_eq_zero_iff.mp (Nat.le_zero.mp h)
    exact ⟨rfl,fun _ hg => absurd hg List.not_mem_nil⟩
  | succ rounds ih =>
    cases lines with
    | nil => exact ⟨rfl,fun _ hg => absurd hg List.not_mem_nil⟩
    | cons text following =>
      have hpos := valueLines_pos (text :: following)
      have hdrop : ((text :: following).drop (valueLines (text :: following))).length ≤ rounds := by
        rw [List.length_drop]
        omega
      obtain ⟨hflatten,hne⟩ := ih hdrop
      rw [groupLines]
      constructor
      · rw [List.flatten_cons,hflatten,List.take_append_drop]
      · intro group hgroup
        rcases List.mem_cons.mp hgroup with rfl | hgroup
        · obtain ⟨n,hn⟩ := Nat.exists_eq_add_of_le' hpos
          rw [hn,List.take_succ_cons]
          exact List.cons_ne_nil _ _
        · exact hne group hgroup

end Groups

section Documents
variable {t : JsString}

/-- The normal form of a text without its last line break. -/
def bodyOf (t : JsString) : JsString :=
  if (normalize t).getLast? = some (unit '\n') then (normalize t).dropLast else normalize t

/-- A line break within a quoted value is a line feed, and every other is CRLF. -/
def documentBreaks (t : JsString) : List Eol :=
  groupBreaks (groupLines (linesOf (bodyOf t)).length (linesOf (bodyOf t))) ++
    if (normalize t).getLast? = some (unit '\n') then [.crlf] else []

theorem bodyOf_append (t : JsString) :
    bodyOf t ++ (if (normalize t).getLast? = some (unit '\n') then [unit '\n'] else []) = normalize t := by
  unfold bodyOf
  split
  · exact List.dropLast_append_getLast? _ ‹_›
  · exact List.append_nil _

theorem joinLines_linesOf (body : JsString) : joinLines (linesOf body) = body := by
  unfold linesOf
  split
  · rename_i hbody
    rw [hbody]
    rfl
  · exact List.intercalate_splitOn (unit '\n')

theorem not_mem_linesOf {body line : JsString} (h : line ∈ linesOf body) : unit '\n' ∉ line := by
  unfold linesOf at h
  split at h
  · exact absurd h List.not_mem_nil
  · exact not_mem_of_mem_splitOn h

theorem parse_items (s : JsString) : (parse s).items =
    parseLines (linesOf (bodyOf (withoutBom s))).length 0 (linesOf (bodyOf (withoutBom s))) := by
  unfold parse bodyOf
  simp only [decide_eq_true_eq]

theorem render_parse (s : JsString) : (parse s).render =
    if includesCrlf (withoutBom s) then spell (documentBreaks (withoutBom s))
      (normalize (withoutBom s)) else normalize (withoutBom s) := by
  obtain ⟨hflatten,hne⟩ := groupLines_flatten (le_refl (linesOf (bodyOf (withoutBom s))).length)
  have htrailing : (parse s).trailingNewline = decide ((normalize (withoutBom s)).getLast? = some (unit '\n')) := rfl
  have hbody := bodyOf_append (withoutBom s)
  unfold Document.render
  rw [parse_items,parseLines_texts,htrailing]
  simp only [decide_eq_true_eq]
  by_cases hcrlf : includesCrlf (withoutBom s) = true
  · have heol : (parse s).eol = .crlf := if_pos hcrlf
    obtain ⟨hlength,hspell⟩ := spell_groupBreaks hne fun line hline => not_mem_linesOf (hflatten ▸ hline)
    rw [hflatten,joinLines_linesOf] at hlength hspell
    rw [if_pos hcrlf,heol,← hspell,← hbody,documentBreaks,spell_append hlength,hbody]
    split
    · rw [spell_break,spell_nil_left,List.append_nil]
    · rw [spell_nil_left,List.append_nil]
  · have heol : (parse s).eol = .lf := if_neg hcrlf
    have hjoin : List.intercalate Eol.lf.units ((groupLines _ (linesOf (bodyOf (withoutBom s)))).map joinLines) =
      bodyOf (withoutBom s) :=
      (joinLines_groups hne).trans (by rw [hflatten,joinLines_linesOf])
    rw [if_neg hcrlf,heol,hjoin]
    refine Eq.trans ?_ hbody
    split
    · rfl
    · exact (List.append_nil _).symm

theorem length_documentBreaks (t : JsString) : (documentBreaks t).length = (normalize t).count (unit '\n') := by
  obtain ⟨hflatten,hne⟩ := groupLines_flatten (le_refl (linesOf (bodyOf t)).length)
  obtain ⟨hlength,-⟩ := spell_groupBreaks hne fun line hline => not_mem_linesOf (hflatten ▸ hline)
  rw [hflatten,joinLines_linesOf] at hlength
  rw [← bodyOf_append t,documentBreaks,List.length_append,hlength,List.count_append]
  congr 1
  split
  · rfl
  · rfl

/-- An untouched document renders back byte for byte unless it has CRLF and does not have it everywhere but within
quoted values. -/
theorem render_parse_iff (s : JsString) : (parse s).render = withoutBom s ↔
    (includesCrlf (withoutBom s) = true → lineBreaks (withoutBom s) = documentBreaks (withoutBom s)) := by
  rw [render_parse]
  by_cases hcrlf : includesCrlf (withoutBom s) = true
  · have hspelled := spell_lineBreaks (withoutBom s)
    rw [if_pos hcrlf,imp_iff_right hcrlf]
    constructor
    · intro h
      exact spell_injective (length_lineBreaks _) (length_documentBreaks _) (hspelled.trans h.symm)
    · intro h
      rw [← h,hspelled]
  · rw [if_neg hcrlf]
    exact iff_of_true (normalize_of_not_includesCrlf (Bool.eq_false_iff.mpr hcrlf)) fun h => absurd h hcrlf

/-- A file whose one line ends in CRLF and whose other in a line feed comes back with CRLF twice. -/
theorem mixed_endings_rewritten : (parse (units "A=1\r\nB=2\n".toList)).render = units "A=1\r\nB=2\r\n".toList ∧
    (parse (units "A=1\r\nB=2\n".toList)).render ≠ withoutBom (units "A=1\r\nB=2\n".toList) := by
  decide +kernel

end Documents
end StructureAi.Dotenv

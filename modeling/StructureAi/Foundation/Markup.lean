import StructureAi.Foundation.Chunks
import StructureAi.Foundation.Text

/-! # Elements in a text

A text with elements is searched with expressions: for the text of the first element of a name, and for all the blocks
between a tag and the next closing one. What is written as elements is found again.
-/
namespace StructureAi.Foundation.Markup
open Foundation

def openTag (name : List Char) : List Char := '<' :: (name ++ ['>'])

def closeTag (name : List Char) : List Char := openTag ('/' :: name)

/-- `<name>([^<]*)</name>` at the head of a text. -/
def fieldHere (name text : List Char) : Option (List Char) :=
  if (openTag name).isPrefixOf text then
    let rest := text.drop (openTag name).length
    if (closeTag name).isPrefixOf (rest.dropWhile (· ≠ '<')) then some (rest.takeWhile (· ≠ '<')) else none
  else none

def fieldIn (name : List Char) : List Char → Option (List Char)
  | [] => none
  | c :: text => (fieldHere name (c :: text)).or (fieldIn name text)

/-- What is before the first occurrence of a pattern, and after it. -/
def splitAtFirst (pattern : List Char) : List Char → Option (List Char × List Char)
  | [] => none
  | c :: text =>
    if pattern.isPrefixOf (c :: text) then some ([],(c :: text).drop pattern.length)
    else (splitAtFirst pattern text).map fun p => (c :: p.1,p.2)

theorem splitAtFirst_eq {pattern text before after : List Char} (h : splitAtFirst pattern text = some (before,after)) :
    text = before ++ pattern ++ after := by
  induction text generalizing before with
  | nil => cases h
  | cons c text ih =>
    rw [splitAtFirst] at h
    split at h
    next hhere =>
      obtain ⟨rfl,rfl⟩ := Prod.mk.inj (Option.some.inj h)
      exact (List.prefix_iff_eq_append.mp (List.isPrefixOf_iff_prefix.mp hhere)).symm
    · obtain ⟨⟨before',after'⟩,hsplit,heq⟩ := Option.map_eq_some_iff.mp h
      obtain ⟨rfl,rfl⟩ := Prod.mk.inj heq
      rw [ih hsplit]
      rfl

/-- `<name>[\s\S]*?</name>`, the first match, and what is after it. -/
def blockCutter (name : List Char) : Cutter Char (List Char) where
  cut text := (splitAtFirst (openTag name) text).bind fun p => (splitAtFirst (closeTag name) p.2).map fun q =>
    (openTag name ++ q.1 ++ closeTag name,q.2)
  shorter := by
    intro text block rest h
    obtain ⟨⟨before,inside⟩,hopen,h⟩ := Option.bind_eq_some_iff.mp h
    obtain ⟨⟨inner,after⟩,hclose,heq⟩ := Option.map_eq_some_iff.mp h
    obtain ⟨-,rfl⟩ := Prod.mk.inj heq
    rw [splitAtFirst_eq hopen,show inside = _ from splitAtFirst_eq hclose]
    simp only [openTag,List.length_append,List.length_cons]
    omega

def blocksIn (name text : List Char) : List (List Char) := ((blockCutter name).drain text).1

/-- A name without the characters that make a tag. -/
def IsName (name : List Char) : Prop := (name.all fun c => c ≠ '<' && c ≠ '>' && c ≠ '/') = true

instance : DecidablePred IsName := fun _ => inferInstanceAs (Decidable (_ = true))

theorem IsName.plain {name : List Char} (h : IsName name) : '<' ∉ name ∧ '>' ∉ name ∧ '/' ∉ name := by
  have hchar := List.all_eq_true.mp h
  refine ⟨fun hc => ?_,fun hc => ?_,fun hc => ?_⟩ <;> cases hchar _ hc

/-- A name and a text that cannot be taken for a tag. -/
structure Field where
  name : List Char
  text : List Char
  name_plain : IsName name
  text_plain : '<' ∉ text

def element (name text : List Char) : List Char := openTag name ++ text ++ closeTag name

def elements (fields : List Field) : List Char := fields.flatMap fun f => element f.name f.text

section Tags
variable {name name' text rest : List Char}

theorem openTag_append : openTag name ++ rest = '<' :: (name ++ '>' :: rest) := by
  rw [openTag,List.cons_append,List.append_assoc]
  rfl

theorem eq_of_openTag (hname : '>' ∉ name) (hname' : '>' ∉ name') (h : openTag name <+: openTag name' ++ rest) :
    name = name' := by
  obtain ⟨after,hafter⟩ := h
  rw [openTag_append,openTag_append] at hafter
  exact (append_cons_cancel hname hname' (List.cons.inj hafter).2).1

theorem not_prefix_of_ne {pattern : List Char} {c : Char} (h : c ≠ '<') : ('<' :: pattern).isPrefixOf (c :: text) = false := by
  rw [Bool.eq_false_iff,ne_eq,List.isPrefixOf_iff_prefix,List.cons_prefix_cons]
  exact fun hpattern => h hpattern.1.symm

theorem fieldIn_text (h : '<' ∉ text) : fieldIn name (text ++ rest) = fieldIn name rest := by
  induction text with
  | nil => rfl
  | cons c text ih =>
    rw [List.cons_append,fieldIn,fieldHere,openTag,not_prefix_of_ne (List.ne_of_not_mem_cons h).symm]
    exact ih (List.not_mem_of_not_mem_cons h)

theorem fieldIn_tag (hname : '>' ∉ name) (hname' : '>' ∉ name') (hopen : '<' ∉ name') (hne : name ≠ name') :
    fieldIn name (openTag name' ++ rest) = fieldIn name rest := by
  have hnot : (openTag name).isPrefixOf ('<' :: (name' ++ ['>'] ++ rest)) = false := by
    rw [Bool.eq_false_iff,ne_eq,List.isPrefixOf_iff_prefix]
    exact fun h => hne (eq_of_openTag hname hname' h)
  have hbody : '<' ∉ name' ++ ['>'] := by
    rw [List.mem_append,List.mem_singleton]
    exact fun h => h.elim hopen nofun
  rw [openTag,List.cons_append,fieldIn,fieldHere,hnot]
  exact fieldIn_text hbody

theorem fieldIn_self (htext : '<' ∉ text) : fieldIn name (element name text ++ rest) = some text := by
  have htake : (text ++ (closeTag name ++ rest)).takeWhile (· ≠ '<') = text := by
    rw [List.takeWhile_append_of_pos fun c hc => decide_eq_true (ne_of_mem_of_not_mem hc htext)]
    exact List.append_nil text
  have hdrop : (text ++ (closeTag name ++ rest)).dropWhile (· ≠ '<') = closeTag name ++ rest := by
    rw [List.dropWhile_append_of_pos fun c hc => decide_eq_true (ne_of_mem_of_not_mem hc htext)]
    rfl
  have hhere : fieldHere name (openTag name ++ (text ++ (closeTag name ++ rest))) = some text := by
    rw [fieldHere,if_pos (List.isPrefixOf_iff_prefix.mpr (List.prefix_append _ _)),List.drop_left]
    dsimp only
    rw [hdrop,if_pos (List.isPrefixOf_iff_prefix.mpr (List.prefix_append _ _)),htake]
  rw [element,List.append_assoc,List.append_assoc,openTag,List.cons_append,fieldIn]
  rw [openTag,List.cons_append] at hhere
  rw [hhere]
  rfl

theorem fieldIn_elements (hname : IsName name) (fields : List Field) :
    fieldIn name (elements fields ++ rest) = ((fields.find? fun f => f.name = name).map Field.text).or (fieldIn name rest) := by
  induction fields with
  | nil => rfl
  | cons f fields ih =>
    rw [elements,List.flatMap_cons,List.append_assoc,List.find?_cons]
    by_cases hf : f.name = name
    · rw [decide_eq_true hf,hf,fieldIn_self f.text_plain]
      rfl
    · obtain ⟨-,hplain,hslash⟩ := hname.plain
      obtain ⟨hopen',hplain',-⟩ := f.name_plain.plain
      have hclose : name ≠ '/' :: f.name := fun h => hslash (h ▸ List.mem_cons_self)
      rw [decide_eq_false hf,element,List.append_assoc,List.append_assoc,fieldIn_tag hplain hplain' hopen' (Ne.symm hf),
        fieldIn_text f.text_plain,closeTag,fieldIn_tag hplain (List.not_mem_cons_of_ne_of_not_mem (by decide) hplain')
        (List.not_mem_cons_of_ne_of_not_mem (by decide) hopen') hclose]
      exact ih

theorem splitAtFirst_text (h : '<' ∉ text) : splitAtFirst (openTag name) (text ++ rest) =
    (splitAtFirst (openTag name) rest).map fun p => (text ++ p.1,p.2) := by
  induction text with
  | nil => exact Option.map_id'.symm
  | cons c text ih =>
    have hnot : (openTag name).isPrefixOf (c :: (text ++ rest)) = false := not_prefix_of_ne (List.ne_of_not_mem_cons h).symm
    rw [List.cons_append,splitAtFirst,hnot,if_neg Bool.false_ne_true,ih (List.not_mem_of_not_mem_cons h),Option.map_map]
    rfl

theorem splitAtFirst_tag (hname : '>' ∉ name) (hname' : '>' ∉ name') (hopen : '<' ∉ name') (hne : name ≠ name') :
    splitAtFirst (openTag name) (openTag name' ++ rest) =
      (splitAtFirst (openTag name) rest).map fun p => (openTag name' ++ p.1,p.2) := by
  have hnot : (openTag name).isPrefixOf ('<' :: (name' ++ ['>'] ++ rest)) = false := by
    rw [Bool.eq_false_iff,ne_eq,List.isPrefixOf_iff_prefix]
    exact fun h => hne (eq_of_openTag hname hname' h)
  have hbody : '<' ∉ name' ++ ['>'] := by
    rw [List.mem_append,List.mem_singleton]
    exact fun h => h.elim hopen nofun
  rw [show openTag name' ++ rest = '<' :: (name' ++ ['>'] ++ rest) from rfl,splitAtFirst,hnot,if_neg Bool.false_ne_true]
  rw [splitAtFirst_text hbody,Option.map_map]
  rfl

theorem splitAtFirst_here : splitAtFirst (openTag name) (openTag name ++ rest) = some ([],rest) := by
  have hhere : (openTag name).isPrefixOf ('<' :: (name ++ ['>'] ++ rest)) = true :=
    List.isPrefixOf_iff_prefix.mpr (List.prefix_append (openTag name) rest)
  rw [show openTag name ++ rest = '<' :: (name ++ ['>'] ++ rest) from rfl,splitAtFirst,if_pos hhere]
  have hdrop : (openTag name ++ rest).drop (openTag name).length = rest := List.drop_left
  exact congrArg (fun after => some ([],after)) hdrop

theorem splitAtFirst_elements {tag : List Char} (htag : '>' ∉ tag) (fields : List Field)
    (h : ∀ f ∈ fields, tag ≠ f.name ∧ tag ≠ '/' :: f.name) : splitAtFirst (openTag tag) (elements fields ++ rest) =
      (splitAtFirst (openTag tag) rest).map fun p => (elements fields ++ p.1,p.2) := by
  induction fields with
  | nil => exact Option.map_id'.symm
  | cons f fields ih =>
    obtain ⟨⟨hopen,hclose⟩,hfields⟩ := List.forall_mem_cons.mp h
    obtain ⟨hangle,hplain,-⟩ := f.name_plain.plain
    rw [elements,List.flatMap_cons,List.append_assoc,element,List.append_assoc,List.append_assoc,
      splitAtFirst_tag htag hplain hangle hopen,splitAtFirst_text f.text_plain,closeTag,
      splitAtFirst_tag htag (List.not_mem_cons_of_ne_of_not_mem (by decide) hplain)
        (List.not_mem_cons_of_ne_of_not_mem (by decide) hangle) hclose]
    rw [show List.flatMap (fun f => element f.name f.text) fields = elements fields from rfl,ih hfields,Option.map_map,
      Option.map_map,Option.map_map]
    refine congrArg (fun g => Option.map g _) (funext fun p => ?_)
    simp only [Function.comp_apply,List.append_assoc]

theorem blocksIn_skip (h : splitAtFirst (openTag name) (text ++ rest) =
    (splitAtFirst (openTag name) rest).map fun p => (text ++ p.1,p.2)) : blocksIn name (text ++ rest) = blocksIn name rest := by
  have hcut : (blockCutter name).cut (text ++ rest) = (blockCutter name).cut rest := by
    change (splitAtFirst (openTag name) (text ++ rest)).bind _ = (splitAtFirst (openTag name) rest).bind _
    rw [h]
    cases splitAtFirst (openTag name) rest <;> rfl
  rw [blocksIn,blocksIn]
  cases hrest : (blockCutter name).cut rest with
  | none => rw [Cutter.drain_none hrest,Cutter.drain_none (hcut.trans hrest)]
  | some p => rw [Cutter.drain_some hrest,Cutter.drain_some (hcut.trans hrest)]

theorem blocksIn_none (h : splitAtFirst (openTag name) text = none) : blocksIn name text = [] := by
  have hcut : (blockCutter name).cut text = none := by
    change (splitAtFirst (openTag name) text).bind _ = none
    rw [h]
    rfl
  rw [blocksIn,Cutter.drain_none hcut]

theorem blocksIn_element (hname : IsName name) (fields : List Field) (h : ∀ f ∈ fields, f.name ≠ name) :
    blocksIn name (element name (elements fields) ++ rest) = element name (elements fields) :: blocksIn name rest := by
  obtain ⟨-,hplain,-⟩ := hname.plain
  have hclosed : splitAtFirst (closeTag name) (elements fields ++ (closeTag name ++ rest)) = some (elements fields,rest) := by
    rw [closeTag,splitAtFirst_elements (List.not_mem_cons_of_ne_of_not_mem (by decide) hplain),splitAtFirst_here]
    · simp only [Option.map_some,List.append_nil]
    · refine fun f hf => ⟨fun heq => f.name_plain.plain.2.2 (heq ▸ List.mem_cons_self),fun heq => ?_⟩
      exact h f hf (List.cons.inj heq).2.symm
  have hcut : (blockCutter name).cut (element name (elements fields) ++ rest) = some (element name (elements fields),rest) := by
    change (splitAtFirst (openTag name) (element name (elements fields) ++ rest)).bind _ = _
    rw [element,List.append_assoc,List.append_assoc,splitAtFirst_here,Option.bind_some,hclosed,Option.map_some]
  rw [blocksIn,Cutter.drain_some hcut]
  rfl

end Tags

end StructureAi.Foundation.Markup

import Mathlib.Data.List.Basic

/-! # Lines that end with a pair of marks

A text is cut into lines at every carriage return that a line feed follows, and a line with nothing
but a dot ends it. A line that begins with a dot is sent with one more, so the text may have any lines.
-/
namespace StructureAi.Foundation.Lines
variable {α : Type _} [DecidableEq α]

section Definitions
variable (cr lf dot : α)

/-- Every line feed becomes the pair, with a carriage return right before it or without. -/
def paired : List α → List α
  | [] => []
  | x :: xs =>
    if x = lf then cr :: lf :: paired xs
    else if x = cr ∧ xs.head? = some lf then paired xs
    else x :: paired xs

/-- A carriage return is put before every line feed that has none. -/
def bareEnded (afterCr : Bool) : List α → List α
  | [] => []
  | x :: xs => if x = lf ∧ afterCr = false then cr :: lf :: bareEnded false xs else x :: bareEnded (decide (x = cr)) xs

def linesOf : List α → List (List α)
  | [] => [[]]
  | [x] => [[x]]
  | x :: y :: rest => if x = cr ∧ y = lf then [] :: linesOf rest else (linesOf (y :: rest)).modifyHead (x :: ·)

def joinLines (lines : List (List α)) : List α := [cr,lf].intercalate lines

def stuff (line : List α) : List α := if line.head? = some dot then dot :: line else line

def unstuff (line : List α) : List α := if line.head? = some dot then line.tail else line

/-- The line with nothing but a dot, with the ends of the line before it and of its own. -/
def endMark : List α := [cr,lf,dot,cr,lf]

/-- What stands before the first occurrence of a mark. -/
def beforeMark (mark : List α) : List α → Option (List α)
  | [] => if mark = [] then some [] else none
  | x :: xs => if mark <+: x :: xs then some [] else (beforeMark mark xs).map (x :: ·)

def receive (sent : List α) : Option (List α) :=
  (beforeMark (endMark cr lf dot) sent).map fun text => joinLines cr lf ((linesOf cr lf text).map (unstuff dot))

end Definitions

section Cutting
variable {cr lf : α}

theorem linesOf_ne_nil (cr lf : α) (text : List α) : linesOf cr lf text ≠ [] := by
  induction text using linesOf.induct cr lf with
  | case1 => exact List.cons_ne_nil _ _
  | case2 x => exact List.cons_ne_nil _ _
  | case3 x y rest hpair ih =>
    rw [linesOf,if_pos hpair]
    exact List.cons_ne_nil _ _
  | case4 x y rest hpair ih =>
    rw [linesOf,if_neg hpair]
    obtain ⟨first,others,hlines⟩ := List.exists_cons_of_ne_nil ih
    rw [hlines]
    exact List.cons_ne_nil _ _

omit [DecidableEq α] in
theorem joinLines_cons {lines : List (List α)} (line : List α) (hlines : lines ≠ []) :
    joinLines cr lf (line :: lines) = line ++ cr :: lf :: joinLines cr lf lines := by
  obtain ⟨other,others,rfl⟩ := List.exists_cons_of_ne_nil hlines
  rw [joinLines,List.intercalate_cons_cons,List.append_assoc]
  rfl

theorem joinLines_linesOf (cr lf : α) (text : List α) : joinLines cr lf (linesOf cr lf text) = text := by
  induction text using linesOf.induct cr lf with
  | case1 => rfl
  | case2 x => exact List.intercalate_singleton
  | case3 x y rest hpair ih =>
    rw [linesOf,if_pos hpair,joinLines_cons [] (linesOf_ne_nil cr lf rest),ih,hpair.1,hpair.2]
    rfl
  | case4 x y rest hpair ih =>
    obtain ⟨first,others,hlines⟩ := List.exists_cons_of_ne_nil (linesOf_ne_nil cr lf (y :: rest))
    rw [hlines] at ih
    rw [linesOf,if_neg hpair,hlines,List.modifyHead_cons,← ih]
    cases others with
    | nil => rw [joinLines,joinLines,List.intercalate_singleton,List.intercalate_singleton]
    | cons other others =>
      rw [joinLines_cons _ (List.cons_ne_nil _ _),joinLines_cons _ (List.cons_ne_nil _ _),List.cons_append]

theorem linesOf_append (hmarks : cr ≠ lf) (text rest : List α) :
    linesOf cr lf (text ++ cr :: lf :: rest) = linesOf cr lf text ++ linesOf cr lf rest := by
  have hhere : linesOf cr lf (cr :: lf :: rest) = [] :: linesOf cr lf rest := by rw [linesOf,if_pos ⟨rfl,rfl⟩]
  induction text using linesOf.induct cr lf with
  | case1 => exact hhere
  | case2 x =>
    have hno : ¬ (x = cr ∧ cr = lf) := fun h => hmarks h.2
    have hcut : linesOf cr lf (x :: cr :: lf :: rest) = (linesOf cr lf (cr :: lf :: rest)).modifyHead (x :: ·) := if_neg hno
    rw [List.singleton_append,hcut,hhere]
    rfl
  | case3 x y others hpair ih =>
    rw [List.cons_append,List.cons_append,linesOf,if_pos hpair,ih,linesOf,if_pos hpair,List.cons_append]
  | case4 x y others hpair ih =>
    rw [List.cons_append,List.cons_append,linesOf,if_neg hpair,← List.cons_append,ih,linesOf,if_neg hpair]
    obtain ⟨first,more,hlines⟩ := List.exists_cons_of_ne_nil (linesOf_ne_nil cr lf (y :: others))
    rw [hlines,List.cons_append,List.modifyHead_cons,List.modifyHead_cons,List.cons_append]

theorem linesOf_of_not_mem (cr : α) {line : List α} (h : lf ∉ line) : linesOf cr lf line = [line] := by
  induction line using linesOf.induct cr lf with
  | case1 => rfl
  | case2 x => rfl
  | case3 x y rest hpair ih => exact absurd (hpair.2 ▸ List.mem_cons_of_mem x List.mem_cons_self) h
  | case4 x y rest hpair ih =>
    rw [linesOf,if_neg hpair,ih fun hin => h (List.mem_cons_of_mem x hin)]
    rfl

theorem linesOf_joinLines (hmarks : cr ≠ lf) {lines : List (List α)} (hne : lines ≠ []) (hlines : ∀ line ∈ lines, lf ∉ line) :
    linesOf cr lf (joinLines cr lf lines) = lines := by
  induction lines with
  | nil => exact absurd rfl hne
  | cons line lines ih =>
    have hline := linesOf_of_not_mem cr (hlines line List.mem_cons_self)
    by_cases hlast : lines = []
    · rw [hlast,joinLines,List.intercalate_singleton]
      exact hline
    · rw [joinLines_cons line hlast,linesOf_append hmarks,hline,
        ih hlast fun other hother => hlines other (List.mem_cons_of_mem line hother)]
      rfl

end Cutting

section Pairing
variable {cr lf : α}

theorem head_paired (hmarks : cr ≠ lf) (text : List α) : (paired cr lf text).head? ≠ some lf := by
  induction text with
  | nil => exact fun h => nomatch h
  | cons x xs ih =>
    rw [paired]
    split
    · exact fun h => hmarks (Option.some.inj h)
    · split
      · exact ih
      · rename_i hx _
        exact fun h => hx (Option.some.inj h)

theorem not_mem_linesOf_paired (hmarks : cr ≠ lf) (text : List α) : ∀ line ∈ linesOf cr lf (paired cr lf text), lf ∉ line := by
  induction text with
  | nil =>
    intro line hline
    rw [List.mem_singleton.mp hline]
    exact List.not_mem_nil
  | cons x xs ih =>
    rw [paired]
    split
    · rw [linesOf,if_pos ⟨rfl,rfl⟩]
      intro line hline
      rcases List.mem_cons.mp hline with rfl | hline
      · exact List.not_mem_nil
      · exact ih line hline
    · split
      · exact ih
      · rename_i hx hcr
        have hhead := head_paired hmarks xs
        have hcut : linesOf cr lf (x :: paired cr lf xs) = (linesOf cr lf (paired cr lf xs)).modifyHead (x :: ·) := by
          cases hrest : paired cr lf xs with
          | nil => rfl
          | cons y rest =>
            rw [hrest] at hhead
            rw [linesOf,if_neg]
            exact fun h => hhead (congrArg some h.2)
        rw [hcut]
        obtain ⟨first,others,hlines⟩ := List.exists_cons_of_ne_nil (linesOf_ne_nil cr lf (paired cr lf xs))
        rw [hlines] at ih ⊢
        intro line hline hin
        rcases List.mem_cons.mp hline with rfl | hline
        · rcases List.mem_cons.mp hin with rfl | hin
          · exact hx rfl
          · exact ih first List.mem_cons_self hin
        · exact ih line (List.mem_cons_of_mem first hline) hin

theorem bareEnded_congr {text : List α} (h : text.head? ≠ some lf) (a b : Bool) : bareEnded cr lf a text =
    bareEnded cr lf b text := by
  cases text with
  | nil => rfl
  | cons x xs =>
    have hx : x ≠ lf := fun hx => h (congrArg some hx)
    rw [bareEnded,bareEnded,if_neg fun h => hx h.1,if_neg fun h => hx h.1]

theorem paired_eq_bareEnded (hmarks : cr ≠ lf) (text : List α) : paired cr lf text = bareEnded cr lf false text := by
  induction text with
  | nil => rfl
  | cons x xs ih =>
    rw [paired,bareEnded]
    by_cases hx : x = lf
    · rw [if_pos hx,if_pos ⟨hx,rfl⟩,ih]
    · rw [if_neg hx,if_neg (fun h : x = lf ∧ false = false => hx h.1)]
      by_cases hpair : x = cr ∧ xs.head? = some lf
      · obtain ⟨rfl,hhead⟩ := hpair
        cases xs with
        | nil => exact nomatch hhead
        | cons y rest =>
          obtain rfl : y = lf := Option.some.inj hhead
          have hafter : bareEnded x y true (y :: rest) = y :: bareEnded x y false rest := by
            rw [bareEnded,if_neg (fun h : y = y ∧ true = false => nomatch h.2),decide_eq_false (fun h : y = x => hx h.symm)]
          rw [if_pos ⟨rfl,rfl⟩,ih,bareEnded,if_pos ⟨rfl,rfl⟩,decide_eq_true (rfl : x = x),hafter]
      · rw [if_neg hpair,ih]
        by_cases hcr : x = cr
        · rw [bareEnded_congr (fun h => hpair ⟨hcr,h⟩) false (decide (x = cr))]
        · rw [decide_eq_false hcr]

end Pairing

section Stuffing
variable {cr lf dot : α} {lines : List (List α)}

theorem unstuff_stuff (line : List α) : unstuff dot (stuff dot line) = line := by
  rw [stuff]
  split
  · exact if_pos rfl
  · rename_i h
    rw [unstuff,if_neg h]

theorem stuff_ne_dot (line : List α) : stuff dot line ≠ [dot] := by
  rw [stuff]
  split
  · rename_i h
    intro heq
    rw [(List.cons.inj heq).2] at h
    exact nomatch h
  · rename_i h
    intro heq
    exact h (heq ▸ rfl)

theorem not_mem_stuff (hdot : dot ≠ lf) {line : List α} (h : lf ∉ line) : lf ∉ stuff dot line := by
  rw [stuff]
  split
  · intro hin
    rcases List.mem_cons.mp hin with heq | hin
    · exact hdot heq.symm
    · exact h hin
  · exact h

theorem linesOf_ended (hmarks : cr ≠ lf) (text rest : List α) :
    linesOf cr lf (text ++ endMark cr lf dot ++ rest) = linesOf cr lf text ++ [dot] :: linesOf cr lf rest := by
  have hmark : text ++ endMark cr lf dot ++ rest = text ++ cr :: lf :: ([dot] ++ cr :: lf :: rest) := by
    rw [List.append_assoc]
    rfl
  rw [hmark,linesOf_append hmarks,linesOf_append hmarks]
  rfl

theorem only_at_end (hmarks : cr ≠ lf) (hne : lines ≠ []) (hlf : ∀ line ∈ lines, lf ∉ line) (hdot : ∀ line ∈ lines, line ≠ [dot])
    {before after : List α} (h : joinLines cr lf lines ++ endMark cr lf dot = before ++ endMark cr lf dot ++ after) :
      after = [] := by
  have hlines := congrArg (linesOf cr lf) h
  rw [← List.append_nil (joinLines cr lf lines ++ endMark cr lf dot),linesOf_ended hmarks,linesOf_ended hmarks,
    linesOf_joinLines hmarks hne hlf] at hlines
  have hrest : linesOf cr lf after = linesOf cr lf [] := by
    rcases List.append_eq_append_iff.mp hlines with ⟨more,hbefore,hmore⟩ | ⟨more,hbefore,hmore⟩
    · cases more with
      | nil => exact (List.cons.inj hmore).2.symm
      | cons line more =>
        -- the last line is empty
        have htail := (List.cons.inj hmore).2
        cases more with
        | nil => exact nomatch (List.cons.inj htail).1
        | cons other more =>
          have hlength := congrArg List.length htail
          simp [linesOf] at hlength
    · cases more with
      | nil => exact (List.cons.inj hmore).2
      | cons line more =>
        have hline := (List.cons.inj hmore).1
        exact absurd hline.symm (hdot line (hbefore ▸ List.mem_append_right _ List.mem_cons_self))
  rw [← joinLines_linesOf cr lf after,hrest,joinLines_linesOf]

theorem beforeMark_append {mark text : List α} (h : ∀ before after, text ++ mark = before ++ mark ++ after → after = []) :
    beforeMark mark (text ++ mark) = some text := by
  induction text with
  | nil =>
    rw [List.nil_append]
    cases mark with
    | nil => rfl
    | cons x mark => rw [beforeMark,if_pos (List.prefix_refl _)]
  | cons x text ih =>
    have hno : ¬ mark <+: x :: (text ++ mark) := by
      rintro ⟨after,hafter⟩
      obtain rfl := h [] after hafter.symm
      have hlength := congrArg List.length hafter
      simp at hlength
      omega
    rw [List.cons_append,beforeMark,if_neg hno,ih fun before after heq => h (x :: before) after (congrArg (x :: ·) heq)]
    rfl

theorem transparent (hmarks : cr ≠ lf) (hlf : dot ≠ lf) (hne : lines ≠ []) (hlines : ∀ line ∈ lines, lf ∉ line) :
    (∀ before after, joinLines cr lf (lines.map (stuff dot)) ++ endMark cr lf dot = before ++ endMark cr lf dot ++ after →
      after = []) ∧
    receive cr lf dot (joinLines cr lf (lines.map (stuff dot)) ++ endMark cr lf dot) = some (joinLines cr lf lines) := by
  have hstuffed : ∀ line ∈ lines.map (stuff dot), lf ∉ line ∧ line ≠ [dot] := by
    intro line hline
    obtain ⟨plain,hplain,rfl⟩ := List.mem_map.mp hline
    exact ⟨not_mem_stuff hlf (hlines plain hplain),stuff_ne_dot plain⟩
  have hsome : lines.map (stuff dot) ≠ [] := fun h => hne (List.map_eq_nil_iff.mp h)
  have hend (before after : List α)
      (h : joinLines cr lf (lines.map (stuff dot)) ++ endMark cr lf dot = before ++ endMark cr lf dot ++ after) : after = [] :=
    only_at_end hmarks hsome (fun line hline => (hstuffed line hline).1) (fun line hline => (hstuffed line hline).2) h
  refine ⟨hend,?_⟩
  rw [receive,beforeMark_append hend,Option.map_some,linesOf_joinLines hmarks hsome fun line hline => (hstuffed line hline).1,
    List.map_map]
  have hid : unstuff dot ∘ stuff dot = id := funext unstuff_stuff
  rw [hid,List.map_id]

end Stuffing

end StructureAi.Foundation.Lines

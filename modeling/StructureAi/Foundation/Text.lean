import Mathlib

/-! # Text as JavaScript reads it

Strings are taken apart as lists of characters. Whitespace is that of `\s`, which
`trim` removes as well, and a run is a maximal part inside a class of characters.
-/
namespace StructureAi.Foundation

/-- The characters `\s` matches and `trim` removes. -/
def isWhiteSpace (c : Char) : Bool :=
  c ∈ ['\t','\n','\x0b','\x0c','\r',' ','\u00a0','\u1680','\u2028','\u2029','\u202f','\u205f',
    '\u3000','\ufeff'] || (0x2000 ≤ c.toNat && c.toNat ≤ 0x200a)

/-- The ends of a text are cut off as long as they are in the class. -/
def trimOf (cut : Char → Bool) (cs : List Char) : List Char :=
  ((cs.dropWhile cut).reverse.dropWhile cut).reverse

def trim (cs : List Char) : List Char := trimOf isWhiteSpace cs

section Trimming
variable {cut other : Char → Bool} {cs : List Char}

theorem dropWhile_eq_self (h : ∀ c ∈ cs.head?, cut c = false) : cs.dropWhile cut = cs := by
  cases cs with
  | nil => rfl
  | cons c cs =>
    refine List.dropWhile_cons_of_neg ?_
    rw [h c rfl]
    decide

theorem trimOf_eq_self (h : ∀ c ∈ cs, cut c = false) : trimOf cut cs = cs := by
  rw [trimOf,dropWhile_eq_self fun c hc => h c (List.mem_of_mem_head? hc),
    dropWhile_eq_self fun c hc => h c (List.mem_reverse.mp (List.mem_of_mem_head? hc)),List.reverse_reverse]

theorem trimOf_sublist (cut : Char → Bool) (cs : List Char) : (trimOf cut cs).Sublist cs := by
  have hinner : ((cs.dropWhile cut).reverse.dropWhile cut).Sublist (cs.dropWhile cut).reverse := List.dropWhile_sublist cut
  have hreversed := hinner.reverse
  rw [List.reverse_reverse] at hreversed
  exact hreversed.trans (List.dropWhile_sublist cut)

theorem head_dropWhile (ds : List Char) : ∀ c ∈ (ds.dropWhile cut).head?, cut c = false := by
  intro c hc
  have hkind := List.head?_dropWhile_not cut ds
  rw [Option.mem_def.mp hc] at hkind
  exact hkind

theorem head_trimOf (cut : Char → Bool) (cs : List Char) : ∀ c ∈ (trimOf cut cs).head?, cut c = false := by
  have hinner : (cs.dropWhile cut).reverse.dropWhile cut <:+ (cs.dropWhile cut).reverse := List.dropWhile_suffix cut
  obtain ⟨rest,hrest⟩ := List.reverse_prefix.mpr hinner
  intro c hc
  refine head_dropWhile cs c ?_
  rw [List.reverse_reverse] at hrest
  rw [← hrest]
  exact List.mem_head?_append_of_mem_head? hc

theorem last_trimOf (cut : Char → Bool) (cs : List Char) : ∀ c ∈ (trimOf cut cs).reverse.head?, cut c = false := by
  unfold trimOf
  rw [List.reverse_reverse]
  exact head_dropWhile _

theorem trimOf_surrounded {before after : List Char} (hbefore : ∀ c ∈ before, cut c = true)
    (hafter : ∀ c ∈ after, cut c = true) :
    trimOf cut (before ++ cs ++ after) = trimOf cut cs := by
  have hnothing : after.dropWhile cut = [] := List.dropWhile_eq_nil_iff.mpr hafter
  rw [trimOf,trimOf,List.append_assoc,List.dropWhile_append_of_pos hbefore,List.dropWhile_append]
  cases hleft : cs.dropWhile cut with
  | nil => rw [List.isEmpty_nil,if_pos rfl,hnothing]
  | cons c rest =>
    rw [List.isEmpty_cons,if_neg (by decide),List.reverse_append,
      List.dropWhile_append_of_pos fun d hd => hafter d (List.mem_reverse.mp hd)]

theorem trimOf_of_ends (hstart : ∀ c ∈ cs.head?, cut c = false) (hend : ∀ c ∈ cs.reverse.head?, cut c = false) :
    trimOf cut cs = cs := by
  rw [trimOf,dropWhile_eq_self hstart,dropWhile_eq_self hend,List.reverse_reverse]

theorem trimOf_split (cut : Char → Bool) (cs : List Char) :
    ∃ before after, cs = before ++ trimOf cut cs ++ after ∧ (∀ c ∈ before, cut c = true) ∧ ∀ c ∈ after, cut c = true := by
  refine ⟨cs.takeWhile cut,((cs.dropWhile cut).reverse.takeWhile cut).reverse,?_,fun c hc => List.mem_takeWhile_imp hc,
    fun c hc => List.mem_takeWhile_imp (List.mem_reverse.mp hc)⟩
  have hback : trimOf cut cs ++ ((cs.dropWhile cut).reverse.takeWhile cut).reverse = cs.dropWhile cut := by
    rw [trimOf,← List.reverse_append,List.takeWhile_append_dropWhile,List.reverse_reverse]
  rw [List.append_assoc,hback,List.takeWhile_append_dropWhile]

end Trimming

def wordsOf (sep : Char → Bool) (cs : List Char) : List (List Char) :=
  (cs.splitOnP sep).filter fun word => word ≠ []

section Words
variable {sep : Char → Bool} {word rest gap : List Char}

theorem wordsOf_sep {c : Char} (hc : sep c = true) : wordsOf sep (c :: rest) = wordsOf sep rest := by
  have hsplit := List.splitOnP_append_cons ([] : List Char) rest hc
  rw [List.nil_append,List.splitOnP_nil] at hsplit
  rw [wordsOf,hsplit]
  rfl

theorem wordsOf_gap (hg : ∀ c ∈ gap, sep c = true) : wordsOf sep (gap ++ rest) = wordsOf sep rest := by
  induction gap with
  | nil => rfl
  | cons c gap ih =>
    rw [List.cons_append,wordsOf_sep (hg c List.mem_cons_self)]
    exact ih fun d hd => hg d (List.mem_cons_of_mem c hd)

theorem wordsOf_nil : wordsOf sep [] = [] := by
  rw [wordsOf,List.splitOnP_nil]
  rfl

theorem wordsOf_word (hw : word ≠ []) (hword : ∀ c ∈ word, sep c = false) (hgap : gap ≠ [])
    (hg : ∀ c ∈ gap, sep c = true) : wordsOf sep (word ++ (gap ++ rest)) = word :: wordsOf sep rest := by
  cases gap with
  | nil => exact absurd rfl hgap
  | cons c gap =>
    rw [wordsOf,List.cons_append,List.splitOnP_append_cons_of_forall_mem hword c (hg c List.mem_cons_self),
      List.filter_cons_of_pos (by simpa using hw)]
    congr 1
    exact wordsOf_gap fun d hd => hg d (List.mem_cons_of_mem c hd)

theorem wordsOf_last (hw : word ≠ []) (hword : ∀ c ∈ word, sep c = false)
    (hg : ∀ c ∈ gap, sep c = true) : wordsOf sep (word ++ gap) = [word] := by
  by_cases hgap : gap = []
  · rw [hgap,List.append_nil,wordsOf,List.splitOnP_eq_singleton hword,
      List.filter_cons_of_pos (by simpa using hw)]
    rfl
  · have h : wordsOf sep (word ++ (gap ++ [])) = word :: wordsOf sep [] := wordsOf_word hw hword hgap hg
    rw [List.append_nil,wordsOf_nil] at h
    exact h

end Words

/-- Every run of the class is rewritten; the characters between the runs stay. -/
def replaceRuns (inRun : Char → Bool) (f : List Char → List Char) : List Char → List Char → List Char
  | run,[] => f run.reverse
  | run,c :: cs => if inRun c then replaceRuns inRun f (c :: run) cs
    else f run.reverse ++ c :: replaceRuns inRun f [] cs

section Runs
variable {inRun : Char → Bool} {f : List Char → List Char} {run rest : List Char}

theorem replaceRuns_run (hr : ∀ c ∈ run, inRun c = true) (before : List Char) :
    replaceRuns inRun f before (run ++ rest) = replaceRuns inRun f (run.reverse ++ before) rest := by
  induction run generalizing before with
  | nil => rfl
  | cons c run ih =>
    rw [List.cons_append,replaceRuns,if_pos (hr c List.mem_cons_self),
      ih (fun d hd => hr d (List.mem_cons_of_mem c hd)),List.reverse_cons,List.append_assoc]
    rfl

theorem replaceRuns_sep (hr : ∀ c ∈ run, inRun c = true) {c : Char} (hc : inRun c = false) :
    replaceRuns inRun f [] (run ++ c :: rest) = f run ++ c :: replaceRuns inRun f [] rest := by
  rw [replaceRuns_run hr,replaceRuns,if_neg (by simp [hc]),List.append_nil,List.reverse_reverse]

theorem replaceRuns_last (hr : ∀ c ∈ run, inRun c = true) : replaceRuns inRun f [] run = f run := by
  have h : replaceRuns inRun f [] (run ++ []) = replaceRuns inRun f (run.reverse ++ []) [] := replaceRuns_run hr []
  rw [List.append_nil,List.append_nil,replaceRuns,List.reverse_reverse] at h
  exact h

theorem replaceRuns_skip (hf : f [] = []) {c : Char} (hc : inRun c = false) :
    replaceRuns inRun f [] (c :: rest) = c :: replaceRuns inRun f [] rest := by
  rw [replaceRuns,if_neg (by simp [hc]),List.reverse_nil,hf,List.nil_append]

theorem replaceRuns_word (hf : f [] = []) (hr : ∀ c ∈ run, inRun c = true)
    (hrest : ∀ c ∈ rest.head?, inRun c = false) :
    replaceRuns inRun f [] (run ++ rest) = f run ++ replaceRuns inRun f [] rest := by
  cases rest with
  | nil => rw [List.append_nil,replaceRuns_last hr,replaceRuns,List.reverse_nil,hf,List.append_nil]
  | cons c rest =>
    have hc := hrest c rfl
    rw [replaceRuns_sep hr hc,replaceRuns_skip hf hc]

end Runs

def unitsOf (c : Char) : List ℕ :=
  if c.toNat < 0x10000 then [c.toNat]
  else [0xd800 + (c.toNat - 0x10000) / 0x400,0xdc00 + (c.toNat - 0x10000) % 0x400]

def codeUnits (s : String) : List ℕ := s.toList.flatMap unitsOf

/-- The order of `<` on strings and of `sort`, by code units. -/
def textLe (a b : String) : Prop := codeUnits a ≤ codeUnits b

instance : DecidableRel textLe := fun _ _ => inferInstanceAs (Decidable (_ ≤ _))

section CodeUnits

theorem unitsOf_cases (c : Char) :
    (unitsOf c = [c.toNat] ∧ (c.toNat < 0xd800 ∨ 0xdfff < c.toNat)) ∨
      ∃ n < 0x100000, c.toNat = 0x10000 + n ∧ unitsOf c = [0xd800 + n / 0x400,0xdc00 + n % 0x400] := by
  have hvalid := c.valid
  change c.toNat.isValidChar at hvalid
  unfold Nat.isValidChar at hvalid
  unfold unitsOf
  split
  · left
    refine ⟨rfl,?_⟩
    omega
  · right
    refine ⟨c.toNat - 0x10000,by omega,by omega,rfl⟩

theorem unitsOf_append_inj {c d : Char} {us vs : List ℕ} (h : unitsOf c ++ us = unitsOf d ++ vs) :
    c = d ∧ us = vs := by
  have hchar : c.toNat = d.toNat → c = d := by
    intro he
    exact Char.ext (UInt32.toNat_inj.mp he)
  rcases unitsOf_cases c with ⟨hc,hcn⟩ | ⟨n,hn,hcn,hc⟩ <;> rcases unitsOf_cases d with ⟨hd,hdn⟩ | ⟨m,hm,hdn,hd⟩
  · rw [hc,hd] at h
    obtain ⟨he,hrest⟩ := List.cons.inj h
    exact ⟨hchar he,hrest⟩
  · rw [hc,hd] at h
    have he := (List.cons.inj h).1
    omega
  · rw [hc,hd] at h
    have he := (List.cons.inj h).1
    omega
  · rw [hc,hd] at h
    obtain ⟨he,hrest⟩ := List.cons.inj h
    obtain ⟨he',hrest'⟩ := List.cons.inj hrest
    exact ⟨hchar (by omega),hrest'⟩

theorem codeUnits_injective : Function.Injective codeUnits := by
  have hlist : ∀ cs ds : List Char, cs.flatMap unitsOf = ds.flatMap unitsOf → cs = ds := by
    intro cs
    induction cs with
    | nil =>
      intro ds h
      cases ds with
      | nil => rfl
      | cons d ds =>
        rw [List.flatMap_nil,List.flatMap_cons] at h
        rcases unitsOf_cases d with ⟨hd,-⟩ | ⟨m,-,-,hd⟩
        · rw [hd] at h
          cases h
        · rw [hd] at h
          cases h
    | cons c cs ih =>
      intro ds h
      cases ds with
      | nil =>
        rw [List.flatMap_nil,List.flatMap_cons] at h
        rcases unitsOf_cases c with ⟨hc,-⟩ | ⟨m,-,-,hc⟩
        · rw [hc] at h
          cases h
        · rw [hc] at h
          cases h
      | cons d ds =>
        rw [List.flatMap_cons,List.flatMap_cons] at h
        obtain ⟨rfl,hrest⟩ := unitsOf_append_inj h
        rw [ih ds hrest]
  intro a b h
  exact String.toList_injective (hlist _ _ h)

instance : Std.Total textLe := ⟨fun a b => le_total (codeUnits a) (codeUnits b)⟩
instance : IsTrans String textLe := ⟨fun _ _ _ hab hbc => le_trans hab hbc⟩
instance : Std.Antisymm textLe := ⟨fun _ _ hab hba => codeUnits_injective (le_antisymm hab hba)⟩

end CodeUnits

/-- Half a unit above the largest binary64 number, where rounding ends in `Infinity`. -/
@[irreducible] def numberLimit : ℕ := 2 ^ 1024 - 2 ^ 970

theorem le_numberLimit : 64 ≤ numberLimit := by decide +kernel

/-- `Number(text)` of a text of decimal digits; `none` is `Infinity`. -/
def number (digits : List Char) : Option ℕ :=
  let n := Nat.ofDigitChars 10 digits 0
  if n < numberLimit then some n else none

def isDigits (cs : List Char) : Bool := cs ≠ [] && cs.all Char.isDigit

theorem append_cons_cancel {α : Type*} {sep : α} {xs ys us vs : List α} (hx : sep ∉ xs) (hy : sep ∉ ys)
    (h : xs ++ sep :: us = ys ++ sep :: vs) : xs = ys ∧ us = vs := by
  induction xs generalizing ys with
  | nil =>
    cases ys with
    | nil => exact ⟨rfl,(List.cons.inj h).2⟩
    | cons y ys =>
      obtain ⟨rfl,-⟩ := List.cons.inj h
      exact absurd List.mem_cons_self hy
  | cons x xs ih =>
    cases ys with
    | nil =>
      obtain ⟨rfl,-⟩ := List.cons.inj h
      exact absurd List.mem_cons_self hx
    | cons y ys =>
      obtain ⟨hxy,hrest⟩ := List.cons.inj h
      obtain ⟨rfl,rfl⟩ := ih (fun hm => hx (List.mem_cons_of_mem _ hm)) (fun hm => hy (List.mem_cons_of_mem _ hm)) hrest
      exact ⟨congrArg (· :: xs) hxy,rfl⟩

/-- Two texts on either side of U+0000, which one of them does not hold, can be told from the whole. -/
theorem separated_inj_left {a a' b b' : String} (h : '\x00' ∉ a.toList) (h' : '\x00' ∉ a'.toList)
    (he : a ++ "\x00" ++ b = a' ++ "\x00" ++ b') : a = a' ∧ b = b' := by
  have hlist : a.toList ++ '\x00' :: b.toList = a'.toList ++ '\x00' :: b'.toList := by
    have hl := congrArg String.toList he
    simpa using hl
  obtain ⟨ha,hb⟩ := append_cons_cancel h h' hlist
  exact ⟨String.toList_injective ha,String.toList_injective hb⟩

theorem separated_inj {a a' b b' : String} (h : '\x00' ∉ b.toList) (h' : '\x00' ∉ b'.toList)
    (he : a ++ "\x00" ++ b = a' ++ "\x00" ++ b') : a = a' ∧ b = b' := by
  have hlist : a.toList ++ '\x00' :: b.toList = a'.toList ++ '\x00' :: b'.toList := by
    have hl := congrArg String.toList he
    simpa using hl
  have hreverse := congrArg List.reverse hlist
  simp only [List.reverse_append,List.reverse_cons,List.append_assoc,List.singleton_append] at hreverse
  obtain ⟨hb,ha⟩ := append_cons_cancel (by simpa using h) (by simpa using h') hreverse
  exact ⟨String.toList_injective (List.reverse_injective ha),String.toList_injective (List.reverse_injective hb)⟩

end StructureAi.Foundation

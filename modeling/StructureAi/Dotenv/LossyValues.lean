import StructureAi.Dotenv.ValueRoundTrip

/-! # Values that do not come back

The weight of a text is the number of its units that are no backslash, no dollar and not the quote around it.
Whatever the reader makes of a document, a value weighs no more than what its assignment has besides the key.
-/
namespace StructureAi.Dotenv
open StructureAi.Foundation
variable {options : ExpandOptions} {q u letter unescaped : CodeUnit} {s t rest text key value formatted raw : JsString}

section Weight

def isPlain (q u : CodeUnit) : Bool := u ≠ unit '\\' && u ≠ unit '$' && u ≠ q

def weight (q : CodeUnit) (s : JsString) : ℕ := s.countP (isPlain q)

theorem weight_append (q : CodeUnit) (s t : JsString) : weight q (s ++ t) = weight q s + weight q t := List.countP_append

theorem weight_cons (q u : CodeUnit) (s : JsString) : weight q (u :: s) = weight q [u] + weight q s := weight_append q [u] s

theorem weight_le (h : s.Sublist t) (q : CodeUnit) : weight q s ≤ weight q t := h.countP_le

theorem weight_singleton_le (q u : CodeUnit) : weight q [u] ≤ 1 := List.countP_le_length

theorem weight_plain (h : isPlain q u = true) : weight q [u] = 1 := List.countP_singleton.trans (if_pos h)

theorem weight_quote (q : CodeUnit) : weight q [q] = 0 := by
  apply List.countP_eq_zero.mpr
  intro u hu
  rw [List.mem_singleton.mp hu]
  simp [isPlain]

theorem weight_unescape (h : isPlain q letter = true) (s : JsString) : weight q (unescape letter unescaped s) ≤ weight q s := by
  induction s using unescape.induct letter with
  | case1 => exact le_rfl
  | case2 u => exact le_rfl
  | case3 u v rest hescape ih =>
    rw [unescape,if_pos hescape,weight_cons,weight_cons q u,weight_cons q v,hescape.2,weight_plain h]
    have hone := weight_singleton_le q unescaped
    omega
  | case4 u v rest hescape ih =>
    rw [unescape,if_neg hescape,weight_cons q u (unescape _ _ _),weight_cons q u (v :: rest)]
    omega

theorem isPlain_letter (h : (quoteStyle q).isSome = true) (hu : quoteStyle u = none) (hplain : u ≠ unit '\\' ∧ u ≠ unit '$') :
    isPlain q u = true := by
  have hne : u ≠ q := Ne.symm (quote_ne h (by rw [hu]; rfl))
  simp [isPlain,hne,hplain.1,hplain.2]

theorem trimmed_sublist (s : JsString) : (trimmed s).Sublist s := by
  unfold trimmed
  have hends := (List.dropWhile_sublist isSpace (l := (s.dropWhile isSpace).reverse)).reverse
  rw [List.reverse_reverse] at hends
  exact hends.trans (List.dropWhile_sublist isSpace)

theorem weight_decodeValue (hq : (quoteStyle q).isSome = true) (raw : JsString) :
    weight q (decodeValue raw).1 ≤ weight q raw := by
  have hn : isPlain q (unit 'n') = true := isPlain_letter hq (by decide) (by decide)
  have hr : isPlain q (unit 'r') = true := isPlain_letter hq (by decide) (by decide)
  have hinner : ∀ quote : Option QuoteStyle, weight q (if quote.isSome then (trimmed raw).tail.dropLast else trimmed raw) ≤
    weight q raw := by
    intro quote
    split
    · exact weight_le ((List.dropLast_sublist _).trans ((List.tail_sublist _).trans (trimmed_sublist raw))) q
    · exact weight_le (trimmed_sublist raw) q
  unfold decodeValue
  simp only
  split
  · exact (weight_unescape hr _).trans ((weight_unescape hn _).trans (hinner _))
  · exact hinner _

theorem weight_escapeDollars (q : CodeUnit) (s : JsString) : weight q (escapeDollars s) = weight q s := by
  induction s with
  | nil => rfl
  | cons u s ih =>
    rw [escapeDollars_cons,weight_append,ih,weight_cons q u]
    split
    · rename_i hu
      rw [hu]
      have hbackslash : weight q [unit '\\'] = 0 := by simp [weight,isPlain]
      rw [weight_cons,hbackslash,Nat.zero_add]
    · rfl

theorem keyAndSeparator_weight (h : keyAndSeparator s = some (key,rest)) (hq : (quoteStyle q).isSome = true) :
    ∃ before, s = before ++ rest ∧ weight q key + 1 ≤ weight q before := by
  have hequals : isPlain q (unit '=') = true := isPlain_letter hq (by decide) (by decide)
  have hcolon : isPlain q (unit ':') = true := isPlain_letter hq (by decide) (by decide)
  have hkey : s = s.takeWhile isKeyUnit ++ s.dropWhile isKeyUnit := List.takeWhile_append_dropWhile.symm
  unfold keyAndSeparator at h
  simp only at h
  split at h
  · cases h
  · split at h
    · rename_i hsep
      obtain ⟨rfl,rfl⟩ := Prod.mk.inj (Option.some.inj h)
      have hafter : (s.dropWhile isKeyUnit).dropWhile isSpace = unit '=' :: ((s.dropWhile isKeyUnit).dropWhile isSpace).tail :=
        (List.cons_head?_tail hsep).symm
      refine ⟨s.takeWhile isKeyUnit ++ ((s.dropWhile isKeyUnit).takeWhile isSpace ++ (unit '=' ::
        ((s.dropWhile isKeyUnit).dropWhile isSpace).tail.takeWhile isSpace)),?_,?_⟩
      · rw [List.append_assoc,List.append_assoc,List.cons_append,List.takeWhile_append_dropWhile,← hafter,
          List.takeWhile_append_dropWhile,List.takeWhile_append_dropWhile]
      · rw [weight_append,weight_append,weight_cons,weight_plain hequals]
        omega
    · split at h
      · rename_i hsep
        obtain ⟨rfl,rfl⟩ := Prod.mk.inj (Option.some.inj h)
        have hafter : s.dropWhile isKeyUnit = unit ':' :: (s.dropWhile isKeyUnit).tail := (List.cons_head?_tail hsep.1).symm
        refine ⟨s.takeWhile isKeyUnit ++ (unit ':' :: (s.dropWhile isKeyUnit).tail.takeWhile isSpace),?_,?_⟩
        · rw [List.append_assoc,List.cons_append,List.takeWhile_append_dropWhile,← hafter,List.takeWhile_append_dropWhile]
        · rw [weight_append,weight_cons,weight_plain hcolon]
          omega
      · cases h

theorem keyLine_weight {head : KeyLine} (h : keyLine text = some head) (hq : (quoteStyle q).isSome = true) :
    ∃ before, text = before ++ head.rest ∧ weight q head.key + 1 ≤ weight q before := by
  have hskip : text = text.takeWhile isSpace ++ text.dropWhile isSpace := List.takeWhile_append_dropWhile.symm
  unfold keyLine at h
  simp only at h
  split at h
  · rename_i key rest hexported
    obtain rfl := Option.some.inj h
    obtain ⟨after,hafter,hkey⟩ := Option.bind_eq_some_iff.mp hexported
    obtain ⟨before,hbefore,hweight⟩ := keyAndSeparator_weight hkey hq
    have hexport : ∃ skipped, text.dropWhile isSpace = skipped ++ after := by
      unfold afterExport at hafter
      simp only at hafter
      split at hafter
      · obtain rfl := Option.some.inj hafter
        refine ⟨(text.dropWhile isSpace).take 6 ++ ((text.dropWhile isSpace).drop 6).takeWhile isSpace,?_⟩
        rw [List.append_assoc,List.takeWhile_append_dropWhile,List.take_append_drop]
      · cases hafter
    obtain ⟨skipped,hskipped⟩ := hexport
    refine ⟨text.takeWhile isSpace ++ (skipped ++ before),?_,?_⟩
    · rw [List.append_assoc,List.append_assoc,← hbefore,← hskipped,List.takeWhile_append_dropWhile]
    · rw [weight_append,weight_append]
      simp only
      omega
  · obtain ⟨⟨key,rest⟩,hkey,rfl⟩ := Option.map_eq_some_iff.mp h
    obtain ⟨before,hbefore,hweight⟩ := keyAndSeparator_weight hkey hq
    refine ⟨text.takeWhile isSpace ++ before,?_,?_⟩
    · rw [List.append_assoc,← hbefore,List.takeWhile_append_dropWhile]
    · rw [weight_append]
      simp only
      omega

theorem weight_joinLines {line : JsString} {lines : List JsString} (h : line ∈ lines) (q : CodeUnit) :
    weight q line ≤ weight q (joinLines lines) := by
  induction lines with
  | nil => exact absurd h List.not_mem_nil
  | cons first lines ih =>
    rw [joinLines_cons]
    rcases List.mem_cons.mp h with rfl | h
    · split
      · exact le_rfl
      · rw [weight_append]
        exact Nat.le_add_right _ _
    · rw [if_neg (List.ne_nil_of_mem h),weight_append,weight_cons]
      have hrest := ih h
      omega

theorem findClosingQuote_lt {line col closing found : ℕ} {lines : List JsString}
    (h : findClosingQuote q line col lines = some (closing,found)) : closing < line + lines.length := by
  induction lines generalizing line col with
  | nil => cases h
  | cons text lines ih =>
    rw [findClosingQuote] at h
    rw [List.length_cons]
    split at h
    · obtain ⟨rfl,-⟩ := Prod.mk.inj (Option.some.inj h)
      omega
    · have hlater := ih h
      omega

/-- What an assignment has besides its key weighs no less than its value. -/
def Heavy (q : CodeUnit) (a : Assignment) : Prop := weight q a.value + weight q a.key + 1 ≤ weight q a.text

theorem heavy_unquotedItem {head : KeyLine} (h : keyLine text = some head) (hq : (quoteStyle q).isSome = true) (index : ℕ) :
    Heavy q (unquotedItem index head text) := by
  obtain ⟨before,htext,hweight⟩ := keyLine_weight h hq
  have hraw : weight q (decodeValue (head.rest.takeWhile (· ≠ unit '#'))).1 ≤ weight q head.rest :=
    (weight_decodeValue hq _).trans (weight_le (List.takeWhile_sublist _) q)
  have hitem : (unquotedItem index head text).value = (decodeValue (head.rest.takeWhile (· ≠ unit '#'))).1 := rfl
  have hkey : (unquotedItem index head text).key = head.key := rfl
  have hwhole : (unquotedItem index head text).text = text := rfl
  unfold Heavy
  rw [hitem,hkey,hwhole,htext,weight_append]
  omega

theorem weight_quotedText {following : List JsString} {line : ℕ} (text rest : JsString) (h : line < following.length + 1)
    (n m : ℕ) (q : CodeUnit) :
    weight q (if line = 0 then rest.take m
      else joinLines (rest :: (((text :: following).take line).drop 1 ++ [((text :: following).getD line []).take n]))) ≤
        weight q (joinLines (rest :: following.take line)) := by
  cases line with
  | zero =>
    rw [if_pos rfl,List.take_zero,joinLines_cons,if_pos rfl]
    exact weight_le (List.take_sublist _ _) q
  | succ k =>
    have hk : k < following.length := Nat.lt_of_succ_lt_succ h
    have hline : (text :: following).getD (k + 1) [] = following[k] := by
      rw [List.getD_cons_succ,List.getD_eq_getElem _ _ hk]
    have hjoin : joinLines (rest :: following.take (k + 1)) =
        joinLines (rest :: (following.take k ++ [following[k].take n])) ++ following[k].drop n := by
      have hsuffix := joinLines_append_last (rest :: following.take k) (following[k].take n) (following[k].drop n)
      rw [List.take_append_drop,List.cons_append,List.cons_append] at hsuffix
      rw [← hsuffix,List.take_succ_eq_append_getElem hk]
    rw [if_neg (Nat.succ_ne_zero k),hline,List.take_succ_cons,List.drop_succ_cons,List.drop_zero,hjoin,weight_append]
    exact Nat.le_add_right _ _

theorem heavy_quotedItem {head : KeyLine} {following : List JsString} {item : Assignment} {index count : ℕ}
    (h : keyLine text = some head) (hq : (quoteStyle q).isSome = true)
    (hitem : quotedItem index head (text :: following) = some (item,count)) : Heavy q item := by
  obtain ⟨before,htext,hweight⟩ := keyLine_weight h hq
  unfold quotedItem at hitem
  simp only [List.headD_cons] at hitem
  split at hitem
  · cases hitem
  · rename_i opening more hrest
    split at hitem
    · cases hitem
    · split at hitem
      · cases hitem
      · rename_i line col hclosing
        split at hitem
        · obtain ⟨rfl,-⟩ := Prod.mk.inj (Option.some.inj hitem)
          have hline := findClosingQuote_lt hclosing
          rw [List.length_cons] at hline
          have hraw := weight_quotedText text head.rest (Nat.lt_of_lt_of_eq hline (Nat.zero_add _)) (col + 1)
            (col + 1 - (text.length - head.rest.length)) q
          have hwhole : joinLines ((text :: following).take (line + 1)) = before ++
            joinLines (head.rest :: following.take line) := by
            rw [List.take_succ_cons,htext,joinLines_prepend]
          unfold Heavy
          simp only [hwhole,weight_append]
          have hdecode := weight_decodeValue hq (if line = 0 then head.rest.take (col + 1 - (text.length - head.rest.length))
            else joinLines (head.rest :: (((text :: following).take line).drop 1 ++
              [((text :: following).getD line []).take (col + 1)])))
          omega
        · cases hitem

theorem heavy_parseLines (hq : (quoteStyle q).isSome = true) (rounds index : ℕ) (lines : List JsString) {a : Assignment}
    (h : Item.assignment a ∈ parseLines rounds index lines) : Heavy q a := by
  induction rounds generalizing index lines with
  | zero => exact absurd h List.not_mem_nil
  | succ rounds ih =>
    cases lines with
    | nil => exact absurd h List.not_mem_nil
    | cons text following =>
      rw [parseLines] at h
      split at h
      · rcases List.mem_cons.mp h with h | h
        · cases h
        · exact ih _ _ h
      · rename_i head hhead
        split at h
        · rename_i item count hitem
          rcases List.mem_cons.mp h with h | h
          · obtain rfl := Item.assignment.inj h
            exact heavy_quotedItem hhead hq hitem
          · exact ih _ _ h
        · rcases List.mem_cons.mp h with h | h
          · obtain rfl := Item.assignment.inj h
            exact heavy_unquotedItem hhead hq index
          · exact ih _ _ h

theorem weight_item {lines : List JsString} {item : Item} (index : ℕ) (h : item ∈ parseLines lines.length index lines)
    (q : CodeUnit) :
    weight q item.text ≤ weight q (joinLines lines) := by
  obtain ⟨hflatten,hne⟩ := groupLines_flatten (le_refl lines.length)
  have htexts := parseLines_texts lines.length index lines
  have hin : item.text ∈ (parseLines lines.length index lines).map Item.text := List.mem_map_of_mem h
  rw [htexts] at hin
  have hle := weight_joinLines hin q
  rwa [joinLines_groups hne,hflatten] at hle

end Weight

section Expansion
variable {override : Bool} {find : JsString → Except JsString (Option JsString)}

def Fragment.source : Fragment → JsString
  | .literal u => [u]
  | .escapedDollar => []
  | .reference _ _ fallback => fallback

theorem takeFallback_sublist {inGroup : Bool} {held : JsString} (h : takeFallback inGroup s = some (held,rest)) :
    (held ++ rest).Sublist s := by
  induction s generalizing inGroup held with
  | nil => cases h
  | cons u s ih =>
    have hmore : ∀ {group held},
        (takeFallback group s).map (fun taken => (u :: taken.1,taken.2)) = some (held,rest) →
          (held ++ rest).Sublist (u :: s) := by
      intro group held h
      obtain ⟨⟨held',rest'⟩,htake,heq⟩ := Option.map_eq_some_iff.mp h
      obtain ⟨rfl,rfl⟩ := Prod.mk.inj heq
      exact (ih htake).cons_cons u
    unfold takeFallback at h
    by_cases hclose : u = unit '\x7d'
    · rw [if_pos hclose] at h
      cases inGroup with
      | true => exact hmore h
      | false =>
        obtain ⟨rfl,rfl⟩ := Prod.mk.inj (Option.some.inj h)
        exact List.sublist_cons_self u s
    · rw [if_neg hclose] at h
      by_cases hopen : u = unit '\x7b'
      · rw [if_pos hopen] at h
        cases inGroup with
        | true => cases h
        | false => exact hmore h
      · rw [if_neg hopen] at h
        exact hmore h

theorem takeName_sublist {name : JsString} (h : takeName s = some (name,rest)) : rest.Sublist s := by
  unfold takeName at h
  split at h
  · obtain ⟨rfl,rfl⟩ := Prod.mk.inj (Option.some.inj h)
    exact List.dropWhile_sublist _
  · cases h

theorem takeOperator_sublist {operator : Operator} (h : takeOperator s = some (operator,rest)) : rest.Sublist s := by
  unfold takeOperator at h
  split at h
  · repeat' split at h
    all_goals cases h
    · exact (List.sublist_cons_self _ _).trans (List.sublist_cons_self _ _)
    · exact (List.sublist_cons_self _ _).trans (List.sublist_cons_self _ _)
    · exact List.sublist_cons_self _ _
    · exact List.sublist_cons_self _ _
  · cases h

theorem takeBraced_sublist {fragment : Fragment} (h : takeBraced s = some (fragment,rest)) :
    (fragment.source ++ rest).Sublist s := by
  obtain ⟨⟨name,afterName⟩,hname,h⟩ := Option.bind_eq_some_iff.mp h
  have hafter := takeName_sublist hname
  simp only at h
  by_cases hclose : afterName.head? = some (unit '\x7d')
  · rw [if_pos hclose] at h
    obtain ⟨rfl,rfl⟩ := Prod.mk.inj (Option.some.inj h)
    exact (List.tail_sublist _).trans hafter
  · rw [if_neg hclose] at h
    obtain ⟨⟨operator,afterOperator⟩,hoperator,h⟩ := Option.bind_eq_some_iff.mp h
    obtain ⟨⟨fallback,afterFallback⟩,hfallback,h⟩ := Option.bind_eq_some_iff.mp h
    obtain ⟨rfl,rfl⟩ := Prod.mk.inj (Option.some.inj h)
    exact (takeFallback_sublist hfallback).trans ((takeOperator_sublist hoperator).trans hafter)

theorem takeReference_sublist {fragment : Fragment} (h : takeReference s = some (fragment,rest)) :
    (fragment.source ++ rest).Sublist s := by
  unfold takeReference at h
  split at h
  · rename_i u v tail
    have htail : tail.Sublist (u :: v :: tail) := (List.sublist_cons_self _ _).trans (List.sublist_cons_self _ _)
    split at h
    · obtain ⟨rfl,rfl⟩ := Prod.mk.inj (Option.some.inj h)
      exact htail
    · split at h
      · split at h
        · exact (takeBraced_sublist h).trans htail
        · obtain ⟨⟨name,afterName⟩,hname,heq⟩ := Option.map_eq_some_iff.mp h
          obtain ⟨rfl,rfl⟩ := Prod.mk.inj heq
          exact (takeName_sublist hname).trans (List.sublist_cons_self _ _)
      · cases h
  · cases h

theorem takeFragment_sublist {fragment : Fragment} (h : takeFragment s = some (fragment,rest)) :
    (fragment.source ++ rest).Sublist s := by
  cases s with
  | nil => cases h
  | cons u s =>
    have h : some ((takeReference (u :: s)).getD (.literal u,s)) = some (fragment,rest) := h
    cases hreference : takeReference (u :: s) with
    | none =>
      rw [hreference,Option.getD_none] at h
      obtain ⟨rfl,rfl⟩ := Prod.mk.inj (Option.some.inj h)
      exact List.Sublist.refl _
    | some found =>
      rw [hreference,Option.getD_some] at h
      obtain rfl := Option.some.inj h
      exact takeReference_sublist hreference

/-- What the fragments of a text are replaced by weighs no more than the text, if each does. -/
theorem weight_replaceFragments {interpolate : JsString → Query JsString JsString JsString} {expanded : JsString}
    (hfragment : ∀ fragment ∈ fragments text, ∀ replaced, (replacement options interpolate fragment).interpret find =
      .ok replaced →
      weight q replaced ≤ weight q fragment.source)
    (h : (replaceFragments options interpolate (fragments text)).interpret find = .ok expanded) :
      weight q expanded ≤ weight q text := by
  unfold fragments at h hfragment
  induction hn : text.length using Nat.strong_induction_on generalizing text expanded with
  | _ n ih =>
    cases hcut : fragmentCutter.cut text with
    | none =>
      rw [Cutter.drain_none hcut] at h
      obtain rfl := Except.ok.inj h
      exact Nat.zero_le _
    | some cutting =>
      obtain ⟨fragment,rest⟩ := cutting
      have hshorter := fragmentCutter.shorter hcut
      have hsource := weight_le (takeFragment_sublist hcut) q
      rw [weight_append] at hsource
      rw [Cutter.drain_some hcut] at h hfragment
      rw [replaceFragments,Program.interpret_bind] at h
      cases hreplaced : (replacement options interpolate fragment).interpret find with
      | error e =>
        rw [hreplaced] at h
        cases h
      | ok replaced =>
        have hfirst := hfragment fragment List.mem_cons_self replaced hreplaced
        rw [hreplaced] at h
        have h : ((replaceFragments options interpolate (fragmentCutter.drain rest).1) >>= fun more =>
            pure (replaced ++ more)).interpret find = .ok expanded := h
        rw [Program.interpret_bind] at h
        cases hmore : (replaceFragments options interpolate (fragmentCutter.drain rest).1).interpret find with
        | error e =>
          rw [hmore] at h
          cases h
        | ok more =>
          have hrest := ih rest.length (by omega) (fun later hlater =>
            hfragment later (List.mem_cons_of_mem fragment hlater)) hmore rfl
          rw [hmore] at h
          obtain rfl : replaced ++ more = expanded := Except.ok.inj h
          rw [weight_append]
          omega

theorem weight_interpolate (hfind : ∀ name value, find name = .ok value → value = none) {expanded : JsString}
    (h : (interpolate ⟨fun _ => none,override⟩ text).interpret find = .ok expanded) : weight q expanded ≤ weight q text := by
  induction hn : text.length using Nat.strong_induction_on generalizing text expanded with
  | _ n ih =>
    subst hn
    have hlookup : ∀ name value, (lookup ⟨fun _ => none,override⟩ name).interpret find = .ok value → value = none := by
      intro name value hvalue
      have hfrom : (fromEntries name).interpret find = find name := bind_pure (find name)
      unfold lookup at hvalue
      cases override with
      | true =>
        simp only [if_true,Program.interpret_bind,hfrom] at hvalue
        cases hfound : find name with
        | error e =>
          rw [hfound] at hvalue
          cases hvalue
        | ok found =>
          obtain rfl := hfind name found hfound
          rw [hfound] at hvalue
          exact (Except.ok.inj hvalue).symm
      | false =>
        simp only [Bool.false_eq_true,if_false,hfrom] at hvalue
        exact hfind name value hvalue
    have hfragment : ∀ fragment ∈ fragments text, ∀ replaced,
        (replacement ⟨fun _ => none,override⟩ (interpolate ⟨fun _ => none,override⟩) fragment).interpret find = .ok replaced →
          weight q replaced ≤ weight q fragment.source := by
      intro fragment hin replaced hreplaced
      have hshorter := fragments_fallback hin
      cases fragment with
      | literal u =>
        obtain rfl := Except.ok.inj hreplaced
        exact le_rfl
      | escapedDollar =>
        obtain rfl := Except.ok.inj hreplaced
        have hdollar : weight q [unit '$'] = 0 := by simp [weight,isPlain]
        exact hdollar.le.trans (Nat.zero_le _)
      | reference name operator fallback =>
        unfold replacement at hreplaced
        rw [Program.interpret_bind] at hreplaced
        cases hvalue : (lookup ⟨fun _ => none,override⟩ name).interpret find with
        | error e =>
          rw [hvalue] at hreplaced
          cases hreplaced
        | ok value =>
          obtain rfl := hlookup name value hvalue
          rw [hvalue] at hreplaced
          have hnothing : ∀ replaced, (.ok [] : Except JsString JsString) = .ok replaced →
            weight q replaced ≤ weight q fallback := by
            intro replaced h
            obtain rfl := Except.ok.inj h
            exact Nat.zero_le _
          have hheld : ∀ replaced, (interpolate ⟨fun _ => none,override⟩ fallback).interpret find = .ok replaced →
              weight q replaced ≤ weight q fallback := fun replaced h => ih fallback.length hshorter h rfl
          cases operator with
          | none => exact hnothing replaced hreplaced
          | some operator =>
            cases operator with
            | colonMinus => exact hheld replaced hreplaced
            | minus => exact hheld replaced hreplaced
            | colonPlus => exact hnothing replaced hreplaced
            | plus => exact hnothing replaced hreplaced
    rw [interpolate_eq] at h
    exact weight_replaceFragments hfragment h

theorem collect_found {entries : List Expandable} {out values : List (JsString × JsString)}
    (h : (collect entries out).interpret find = .ok values) :
    (∀ entry ∈ entries, ∃ value, find entry.key = .ok value ∧ valueAt entry.key values = some (value.getD [])) ∧
      ∀ k, k ∉ entries.map Expandable.key → valueAt k values = valueAt k out := by
  induction entries generalizing out with
  | nil =>
    obtain rfl := Except.ok.inj h
    exact ⟨fun entry hentry => absurd hentry List.not_mem_nil,fun _ _ => rfl⟩
  | cons entry entries ih =>
    have h : (find entry.key >>= fun value => (collect entries (put entry.key (value.getD []) out)).interpret find) =
      .ok values := h
    cases hfound : find entry.key with
    | error e =>
      rw [hfound] at h
      cases h
    | ok value =>
      rw [hfound] at h
      obtain ⟨hlater,hothers⟩ := ih h
      have hput : ∀ k, valueAt k (put entry.key (value.getD []) out) = if k =
        entry.key then some (value.getD []) else valueAt k out :=
        fun k => lookup_put _ _ _ k
      constructor
      · intro e he
        rcases List.mem_cons.mp he with rfl | he
        · refine ⟨value,hfound,?_⟩
          by_cases hagain : e.key ∈ entries.map Expandable.key
          · obtain ⟨later,hin,hkey⟩ := List.mem_map.mp hagain
            obtain ⟨value',hfound',hvalue'⟩ := hlater later hin
            rw [hkey,hfound] at hfound'
            rw [← hkey,hvalue',Except.ok.inj hfound']
          · rw [hothers _ hagain,hput,if_pos rfl]
        · exact hlater e he
      · intro k hk
        obtain ⟨hne,hrest⟩ := not_or.mp (mt List.mem_cons.mpr hk)
        rw [hothers k hrest,hput,if_neg hne]

/-- Entries that expand to one key alone have it from an entry that weighs no less than the value. -/
theorem weight_expand {entries : List Expandable} {fuel : ℕ} (hfuel : entries.length < fuel)
    (h : expand fuel entries ⟨fun _ => none,override⟩ = some (.ok [(key,value)])) :
    ∃ entry ∈ entries, entry.key = key ∧ weight q value ≤ weight q entry.value := by
  rw [expand_eq hfuel] at h
  cases hcollected : (collect entries []).interpret ((expansions entries ⟨fun _ => none,override⟩).evaluate []) with
  | error e =>
    rw [hcollected] at h
    cases Option.some.inj h
  | ok values =>
    rw [hcollected] at h
    obtain rfl : values = [(key,value)] := Except.ok.inj (Option.some.inj h)
    obtain ⟨hfound,hothers⟩ := collect_found hcollected
    have hkeys : ∀ entry ∈ entries, entry.key = key := by
      intro entry hentry
      obtain ⟨found,-,hvalue⟩ := hfound entry hentry
      unfold valueAt at hvalue
      rw [lookup_cons] at hvalue
      split at hvalue
      · assumption
      · cases hvalue
    have hone : valueAt key [(key,value)] = some value := by
      unfold valueAt
      rw [lookup_cons,if_pos rfl]
    have hin : key ∈ entries.map Expandable.key := by
      by_contra hout
      rw [hothers key hout] at hone
      cases hone
    obtain ⟨witness,hwitness,hkey⟩ := List.mem_map.mp hin
    obtain ⟨found,hevaluate,hvalue⟩ := hfound witness hwitness
    rw [hkey] at hevaluate hvalue
    rw [hone] at hvalue
    have hnames : ∀ name, name ≠ key → (expansions entries ⟨fun _ => none,override⟩).define name = none := by
      intro name hne
      apply Option.map_eq_none_iff.mpr
      cases hraw : valueAt name (rawEntries entries) with
      | none => rfl
      | some entry =>
        obtain ⟨hentry,rfl⟩ := mem_of_rawEntries hraw
        exact absurd (hkeys entry hentry) hne
    obtain ⟨query,hdefine⟩ : ∃ query, (expansions entries ⟨fun _ => none,override⟩).define key = some query :=
      hkey ▸ define_of_mem hwitness
    have hself : ∀ name value, (expansions entries ⟨fun _ => none,override⟩).evaluate [key] name = .ok value → value = none := by
      intro name value hname
      by_cases hsame : name = key
      · rw [hsame,Definitions.evaluate_cycle hdefine List.mem_cons_self] at hname
        cases hname
      · rw [Definitions.evaluate_undefined (hnames name hsame)] at hname
        exact (Except.ok.inj hname).symm
    obtain ⟨entry,hraw,hquery⟩ := Option.map_eq_some_iff.mp hdefine
    obtain ⟨hentry,hentryKey⟩ := mem_of_rawEntries hraw
    refine ⟨entry,hentry,hentryKey,?_⟩
    rw [Definitions.evaluate_run hdefine List.not_mem_nil] at hevaluate
    cases hrun : query.interpret ((expansions entries ⟨fun _ => none,override⟩).evaluate [key]) with
    | error e =>
      rw [hrun] at hevaluate
      cases hevaluate
    | ok expanded =>
      rw [hrun] at hevaluate
      obtain rfl : some expanded = found := Except.ok.inj hevaluate
      obtain rfl : value = expanded := Option.some.inj hvalue
      rw [← hquery] at hrun
      unfold resolution at hrun
      split at hrun
      · obtain rfl : entry.value = value := Except.ok.inj hrun
        exact le_rfl
      · exact weight_interpolate hself hrun

end Expansion

section Lossy
variable {style : QuoteStyle} {override : Bool}

theorem weight_writtenIn (q : CodeUnit) (style : QuoteStyle) (value : JsString) : weight q (writtenIn style value) =
    weight q value := by
  unfold writtenIn
  split
  · rfl
  · exact weight_escapeDollars q value

theorem weight_written (hequals : isPlain q (unit '=') = true) (key s : JsString) :
    weight q (key ++ unit '=' :: q :: (s ++ [q])) = weight q key + 1 + weight q s := by
  rw [weight_append,weight_cons,weight_plain hequals,weight_cons,weight_quote,weight_append,weight_quote]
  omega

theorem unquotedItem_lt {head : KeyLine} (h : keyLine text = some head) (hq : (quoteStyle q).isSome = true)
    (hhash : unit '#' ∈ head.rest)
    (index : ℕ) : weight q (unquotedItem index head text).value + weight q head.key + 1 < weight q text := by
  have hplain : isPlain q (unit '#') = true := isPlain_letter hq (by decide) (by decide)
  obtain ⟨before,htext,hweight⟩ := keyLine_weight h hq
  have hvalue : (unquotedItem index head text).value = (decodeValue (head.rest.takeWhile (· ≠ unit '#'))).1 := rfl
  have hdecode := weight_decodeValue hq (head.rest.takeWhile (· ≠ unit '#'))
  have hsplit : head.rest = head.rest.takeWhile (· ≠ unit '#') ++ head.rest.dropWhile (· ≠ unit '#') :=
    List.takeWhile_append_dropWhile.symm
  have hcut : 0 < weight q (head.rest.dropWhile (· ≠ unit '#')) := by
    apply List.countP_pos_iff.mpr
    refine ⟨unit '#',?_,hplain⟩
    rw [hsplit] at hhash
    rcases List.mem_append.mp hhash with hin | hin
    · have hne : unit '#' ≠ unit '#' := of_decide_eq_true (List.mem_takeWhile_imp (p := (· ≠ unit '#')) hin)
      exact absurd rfl hne
    · exact hin
  have hrest := congrArg (weight q) hsplit
  rw [weight_append] at hrest
  rw [hvalue,htext,weight_append]
  omega

theorem ReadsBack.assignment (h : ReadsBack key value formatted override) (q : CodeUnit) :
    ∃ a, Item.assignment a ∈ (parse (key ++ unit '=' :: formatted)).items ∧ a.key = key ∧ weight q value ≤ weight q a.value := by
  obtain ⟨entry,hentry,hkey,hweight⟩ := weight_expand (q := q) (Nat.lt_succ_self _) (h _ (Nat.lt_succ_self _))
  obtain ⟨a,ha,rfl⟩ := List.mem_map.mp hentry
  obtain ⟨item,hitem,hsome⟩ := List.mem_filterMap.mp ha
  cases item with
  | other line text => cases hsome
  | assignment b =>
    obtain rfl := Option.some.inj hsome
    exact ⟨b,hitem,hkey,hweight⟩

theorem not_readsBack_of_crlf (hkey : IsKey key) (hq : quoteStyle q = some style) (hcrlf : includesCrlf value = true) :
    ¬ ReadsBack key value (q :: (writtenIn style value ++ [q])) override := by
  intro h
  have hsome : (quoteStyle q).isSome = true := by rw [hq]; rfl
  have hequals : isPlain q (unit '=') = true := isPlain_letter hsome (by decide) (by decide)
  have hcr : isPlain q (unit '\r') = true := isPlain_letter hsome (by decide) (by decide)
  have hlast : (q :: (writtenIn style value ++ [q])).getLast? ≠ some (unit '\n') := by
    rw [← List.cons_append,List.getLast?_concat]
    exact fun h => quote_ne hsome (by decide) (Option.some.inj h)
  obtain ⟨a,hitem,rfl,hvalue⟩ := h.assignment q
  rw [parse_written hkey hlast] at hitem
  have hheavy : Heavy q a := heavy_parseLines hsome _ _ _ hitem
  have hjoin : ∀ s : JsString, joinLines (s.splitOn (unit '\n')) = s := fun _ => List.intercalate_splitOn (unit '\n')
  have htext : weight q a.text ≤ _ := weight_item 0 hitem q
  rw [hjoin,normalize_cons (quote_ne hsome (by decide)),normalize_concat (quote_ne hsome (by decide)),
    weight_written hequals] at htext
  have hloss := (countP_normalize (isPlain q) hcr (writtenIn style value)).2 (by rwa [includesCrlf_writtenIn])
  have hloss : weight q (normalize (writtenIn style value)) < weight q (writtenIn style value) := hloss
  rw [weight_writtenIn] at hloss
  unfold Heavy at hheavy
  omega

/-- Where the closing quote is taken for an escaped one, the value ends with its line or at a hash. -/
theorem not_readsBack_of_cut (hkey : IsKey key) (hq : quoteStyle q = some style) (habsent : q ∉ value)
    (hcrlf : includesCrlf value = false)
    (hlast : value.getLast? = some (unit '\\')) (hcut : unit '#' ∈ value ∨ unit '\n' ∈ value) :
    ¬ ReadsBack key value (q :: (writtenIn style value ++ [q])) override := by
  intro h
  have hsome : (quoteStyle q).isSome = true := by rw [hq]; rfl
  have hequals : isPlain q (unit '=') = true := isPlain_letter hsome (by decide) (by decide)
  have hbreak : isPlain q (unit '\n') = true := isPlain_letter hsome (by decide) (by decide)
  have hspace : isSpace q = false := quote_all hsome (by decide)
  have hwritten : q ∉ writtenIn style value := by rwa [mem_writtenIn (quote_ne hsome (by decide))]
  have hend : (q :: (writtenIn style value ++ [q])).getLast? ≠ some (unit '\n') := by
    rw [← List.cons_append,List.getLast?_concat]
    exact fun h => quote_ne hsome (by decide) (Option.some.inj h)
  have hnormal : normalize (q :: (writtenIn style value ++ [q])) = q :: (writtenIn style value ++ [q]) := by
    rw [normalize_cons (quote_ne hsome (by decide)),normalize_concat (quote_ne hsome (by decide)),
      normalize_of_not_includesCrlf (by rwa [includesCrlf_writtenIn])]
  obtain ⟨first,following,hlines,hone,hfirst,hitem⟩ := written_lines hkey hq hwritten
  rw [getLast?_writtenIn,if_pos hlast] at hitem
  have hhead : keyLine (key ++ unit '=' :: q :: first) = some ⟨false,key,q :: first⟩ := by
    rw [keyLine_assign hkey,List.dropWhile_cons_of_neg (by rw [hspace]; exact Bool.false_ne_true)]
  obtain ⟨a,hin,hakey,hvalue⟩ := h.assignment q
  rw [parse_written hkey hend,hnormal,hlines,List.length_cons,parseLines_unquoted hhead hitem] at hin
  have hjoin : joinLines ((key ++ unit '=' :: q :: first) :: following) = key ++
    unit '=' :: q :: (writtenIn style value ++ [q]) := by
    rw [← hlines]
    exact List.intercalate_splitOn (unit '\n')
  have hwhole := weight_written hequals key (writtenIn style value)
  rw [← hjoin,weight_writtenIn] at hwhole
  rcases List.mem_cons.mp hin with hin | hin
  · obtain rfl := Item.assignment.inj hin
    by_cases hmore : following = []
    · have hnone : unit '\n' ∉ value := by
        have hplain : unit '\n' ∈ writtenIn style value ↔ unit '\n' ∈ value := mem_writtenIn (by decide)
        rw [← hplain]
        exact hone.mp hmore
      have hhash : unit '#' ∈ q :: first := by
        apply List.mem_cons_of_mem
        rw [hfirst hmore]
        exact List.mem_append_left [q] ((mem_writtenIn (by decide)).mpr (hcut.resolve_right hnone))
      have hless := unquotedItem_lt hhead hsome hhash 0
      rw [joinLines_cons,if_pos hmore] at hwhole
      simp only at hless
      omega
    · have hheavy := heavy_unquotedItem hhead hsome 0
      rw [joinLines_cons,if_neg hmore,weight_append,weight_cons,weight_plain hbreak] at hwhole
      unfold Heavy at hheavy
      rw [hakey] at hheavy
      have htext : (unquotedItem 0 ⟨false,key,q :: first⟩ (key ++ unit '=' :: q :: first)).text = key ++
        unit '=' :: q :: first := rfl
      rw [htext] at hheavy
      omega
  · have hheavy : Heavy q a := heavy_parseLines hsome _ _ _ hin
    have htext : weight q a.text ≤ _ := weight_item 1 hin q
    have hmore : following ≠ [] := by
      rintro rfl
      exact absurd hin List.not_mem_nil
    rw [joinLines_cons,if_neg hmore,weight_append,weight_cons,weight_plain hbreak,weight_append,weight_cons,
      weight_plain hequals] at hwhole
    unfold Heavy at hheavy
    rw [hakey] at hheavy
    omega

theorem not_lossy_of_readsBack (hkey : IsKey key) (h : formatValue value = some formatted)
    (hback : ReadsBack key value formatted override) :
    ¬ Lossy value := by
  intro hlossy
  rcases formatValue_cases h with ⟨rfl,hbare⟩ | ⟨q,style,hq,habsent,rfl,-⟩
  · rcases hlossy with hcrlf | ⟨hlast,-⟩
    · have hspace := (hbare _ (mem_of_includesCrlf hcrlf)).1
      revert hspace
      decide
    · exact (hbare _ (List.mem_of_getLast? hlast)).2 (by decide)
  · cases hcrlf : includesCrlf value with
    | true => exact not_readsBack_of_crlf hkey hq hcrlf hback
    | false =>
      obtain ⟨hlast,hcut⟩ := hlossy.resolve_left (by rw [hcrlf]; exact Bool.false_ne_true)
      exact not_readsBack_of_cut hkey hq habsent hcrlf hlast hcut hback

end Lossy

/-- What the writer makes of a value is read back as the value just where the value is not lossy. -/
theorem readsBack_iff (hkey : IsKey key) (h : formatValue value = some formatted) (override : Bool) :
    ReadsBack key value formatted override ↔ ¬ Lossy value :=
  ⟨not_lossy_of_readsBack hkey h,fun hvalue => readsBack_of_not_lossy hkey h hvalue override⟩

/-- A value with a space, both of the common quotes and a dollar. -/
theorem readsBack_iff_backtick :
    formatValue (units ['\'','"',' ','$']) = some (units ['\x60','\'','"',' ','\\','$','\x60']) ∧
      (ReadsBack (units ['K']) (units ['\'','"',' ','$']) (units ['\x60','\'','"',' ','\\','$','\x60']) false ↔
        ¬ Lossy (units ['\'','"',' ','$'])) := by
  have hformat : formatValue (units ['\'','"',' ','$']) = some (units ['\x60','\'','"',' ','\\','$','\x60']) := by decide +kernel
  have hkey : IsKey (units ['K']) := isKey_singleton (by decide)
  exact ⟨hformat,readsBack_iff hkey hformat false⟩

/-- The backslash of a hash and a backslash hides the quote that closes them, and the hash cuts the value off. -/
theorem hash_backslash_lost : ∃ key value formatted : JsString, IsKey key ∧ formatValue value = some formatted ∧
    expand 2 (parse (key ++ unit '=' :: formatted)).expandables ⟨fun _ => none,false⟩ = some (.ok [(key,units ['\''])]) ∧
      ¬ ReadsBack key value formatted false := by
  have hparse : (parse (units ['K'] ++ unit '=' :: units ['\'','#','\\','\''])).expandables =
    [⟨units ['K'],units ['\''],.none⟩] := by
    rfl
  have hresolution : resolution ⟨fun _ => none,false⟩ ⟨units ['K'],units ['\''],.none⟩ = Program.done (units ['\'']) :=
    interpolate_escapeDollars ⟨fun _ => none,false⟩ (units ['\''])
  have hexpand : expand 2 [⟨units ['K'],units ['\''],.none⟩] ⟨fun _ => none,false⟩ = some (.ok [(units ['K'],units ['\''])]) :=
    expand_single hresolution (by decide)
  refine ⟨units ['K'],units ['#','\\'],units ['\'','#','\\','\''],isKey_singleton (by decide),by decide +kernel,?_,?_⟩
  · rw [hparse]
    exact hexpand
  · intro h
    have hread := h 2 (by rw [hparse]; decide)
    rw [hparse,hexpand] at hread
    have hlists := Except.ok.inj (Option.some.inj hread)
    revert hlists
    decide +kernel

end StructureAi.Dotenv

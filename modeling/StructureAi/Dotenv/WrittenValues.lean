import StructureAi.Dotenv.Rendering

/-! # Values as they are written

What the reader makes of the line that the writer produces: the key and its separator, the quote that closes the
value, and the escapes within it.
-/
namespace StructureAi.Dotenv
open StructureAi.Foundation
variable {u q letter replacement : CodeUnit} {s t rest key value : JsString} {n : ℕ}

section Keys

theorem between_iff {first last : Char} : between first last u = true ↔ (unit first).val ≤ u.val ∧ u.val ≤ (unit last).val := by
  unfold between
  rw [Bool.and_eq_true,decide_eq_true_eq,decide_eq_true_eq]
  exact Iff.rfl

theorem val_lt_of_isKeyUnit (h : isKeyUnit u = true) : u.val < 128 := by
  unfold isKeyUnit isWord at h
  simp only [Bool.or_eq_true,between_iff,decide_eq_true_eq] at h
  have hz : (unit 'z').val = 122 := by decide
  have hZ : (unit 'Z').val = 90 := by decide
  have hnine : (unit '9').val = 57 := by decide
  rcases h with (((⟨-,h⟩ | ⟨-,h⟩) | ⟨-,h⟩) | rfl) | rfl | rfl
  · omega
  · omega
  · omega
  · decide
  · decide
  · decide

theorem not_isSpace_of_isKeyUnit (h : isKeyUnit u = true) : isSpace u = false := by
  rw [Bool.eq_false_iff]
  intro hspace
  rcases Bool.or_eq_true_iff.mp hspace with hspace | hspace
  · have hnone : (units ['\t','\n','\x0b','\x0c','\r',' ','\u00a0','\u1680','\u2028','\u2029','\u202f','\u205f','\u3000',
        '\ufeff']).all (fun u => ! isKeyUnit u) = true := by decide +kernel
    have hu := List.all_eq_true.mp hnone u (of_decide_eq_true hspace)
    rw [h] at hu
    cases hu
  · obtain ⟨hlow,-⟩ := between_iff.mp hspace
    have hval := val_lt_of_isKeyUnit h
    have hbound : (unit '\u2000').val = 8192 := by decide +kernel
    omega

theorem ne_of_isKeyUnit (h : isKeyUnit u = true) (hq : isKeyUnit q = false) : u ≠ q := by
  rintro rfl
  rw [h] at hq
  cases hq

/-- What a key may be: `[\w.-]+`. -/
structure IsKey (key : JsString) : Prop where
  nonempty : key ≠ []
  units : ∀ u ∈ key, isKeyUnit u = true

theorem isKey_singleton (h : isKeyUnit u = true) : IsKey [u] := ⟨List.cons_ne_nil _ _,fun _ hv => List.mem_singleton.mp hv ▸ h⟩

theorem IsKey.not_mem (h : IsKey key) (hq : isKeyUnit q = false) : q ∉ key := fun hin => ne_of_isKeyUnit (h.units q hin) hq rfl

theorem keyAndSeparator_assign (h : IsKey key) (rest : JsString) :
    keyAndSeparator (key ++ unit '=' :: rest) = some (key,rest.dropWhile isSpace) := by
  have hequals : isKeyUnit (unit '=') = false := by decide
  have hspace : isSpace (unit '=') = false := by decide
  have htake : (key ++ unit '=' :: rest).takeWhile isKeyUnit = key := by
    rw [List.takeWhile_append_of_pos h.units,List.takeWhile_cons_of_neg (by rw [hequals]; exact Bool.false_ne_true),
      List.append_nil]
  have hdrop : (key ++ unit '=' :: rest).dropWhile isKeyUnit = unit '=' :: rest := by
    rw [List.dropWhile_append_of_pos h.units,List.dropWhile_cons_of_neg (by rw [hequals]; exact Bool.false_ne_true)]
  have hskip : (unit '=' :: rest).dropWhile isSpace = unit '=' :: rest :=
    List.dropWhile_cons_of_neg (by rw [hspace]; exact Bool.false_ne_true)
  unfold keyAndSeparator
  simp only [htake,hdrop,hskip]
  rw [if_neg h.nonempty]
  exact if_pos rfl

theorem afterExport_assign (h : IsKey key) (rest : JsString) : afterExport (key ++ unit '=' :: rest) = none := by
  unfold afterExport
  simp only
  apply if_neg
  rintro ⟨htake,hspace⟩
  by_cases hlong : 6 ≤ key.length
  · rw [List.drop_append_of_le_length hlong] at hspace
    cases hdrop : key.drop 6 with
    | nil =>
      rw [hdrop] at hspace
      have hspace : isSpace (unit '=') = true := hspace
      revert hspace
      decide
    | cons u more =>
      have hu : isSpace u = false := not_isSpace_of_isKeyUnit (h.units u (List.mem_of_mem_drop (hdrop ▸ List.mem_cons_self)))
      rw [hdrop] at hspace
      have hspace : isSpace u = true := hspace
      rw [hu] at hspace
      cases hspace
  · have hin : unit '=' ∈ (key ++ unit '=' :: rest).take 6 := by
      rw [List.take_append,List.mem_append]
      right
      obtain ⟨k,hk⟩ := Nat.exists_eq_add_of_lt (not_le.mp hlong)
      rw [show 6 - key.length = k + 1 by omega,List.take_succ_cons]
      exact List.mem_cons_self
    rw [htake] at hin
    revert hin
    decide

theorem keyLine_assign (h : IsKey key) (rest : JsString) :
    keyLine (key ++ unit '=' :: rest) = some ⟨false,key,rest.dropWhile isSpace⟩ := by
  obtain ⟨u,more,rfl⟩ := List.exists_cons_of_ne_nil h.nonempty
  have hu := not_isSpace_of_isKeyUnit (h.units u List.mem_cons_self)
  have hskip : (u :: more ++ unit '=' :: rest).dropWhile isSpace = u :: more ++ unit '=' :: rest :=
    List.dropWhile_cons_of_neg (by rw [hu]; exact Bool.false_ne_true)
  unfold keyLine
  simp only [hskip]
  rw [afterExport_assign h,Option.bind_none,keyAndSeparator_assign h]
  rfl

end Keys

section Normal

theorem normalize_cons (h : u ≠ unit '\r') (s : JsString) : normalize (u :: s) = u :: normalize s := by
  cases s with
  | nil => rfl
  | cons v s => rw [normalize,if_neg fun hcrlf => h hcrlf.1]

theorem normalize_append (h : unit '\r' ∉ s) (t : JsString) : normalize (s ++ t) = s ++ normalize t := by
  induction s with
  | nil => rfl
  | cons u s ih =>
    obtain ⟨hu,hs⟩ := not_or.mp (mt List.mem_cons.mpr h)
    rw [List.cons_append,normalize_cons (Ne.symm hu),ih hs,List.cons_append]

theorem normalize_concat (h : q ≠ unit '\n') (s : JsString) : normalize (s ++ [q]) = normalize s ++ [q] := by
  induction s using normalize.induct with
  | case1 => rfl
  | case2 u =>
    exact if_neg fun hcrlf => h hcrlf.2
  | case3 u v rest hcrlf ih => rw [List.cons_append,List.cons_append,normalize,normalize,if_pos hcrlf,if_pos hcrlf,ih,
      List.cons_append]
  | case4 u v rest hcrlf ih =>
    rw [List.cons_append,List.cons_append,normalize,normalize,if_neg hcrlf,if_neg hcrlf,← List.cons_append,ih,List.cons_append]

theorem normalize_eq_nil : normalize s = [] ↔ s = [] := by
  constructor
  · intro h
    induction s using normalize.induct with
    | case1 => rfl
    | case2 u => cases h
    | case3 u v rest hcrlf ih =>
      rw [normalize,if_pos hcrlf] at h
      cases h
    | case4 u v rest hcrlf ih =>
      rw [normalize,if_neg hcrlf] at h
      cases h
  · rintro rfl
    rfl

theorem getLast?_normalize (s : JsString) : (normalize s).getLast? = s.getLast? := by
  induction s using normalize.induct with
  | case1 => rfl
  | case2 u => rfl
  | case3 u v rest hcrlf ih =>
    rw [normalize,if_pos hcrlf]
    cases rest with
    | nil =>
      rw [hcrlf.2]
      rfl
    | cons w rest =>
      obtain ⟨x,more,hmore⟩ := List.exists_cons_of_ne_nil fun h => List.cons_ne_nil w rest (normalize_eq_nil.mp h)
      rw [hmore] at ih ⊢
      rw [List.getLast?_cons_cons,ih,List.getLast?_cons_cons,List.getLast?_cons_cons]
  | case4 u v rest hcrlf ih =>
    rw [normalize,if_neg hcrlf]
    obtain ⟨x,more,hmore⟩ := List.exists_cons_of_ne_nil fun h => List.cons_ne_nil v rest (normalize_eq_nil.mp h)
    rw [hmore] at ih ⊢
    rw [List.getLast?_cons_cons,ih,List.getLast?_cons_cons]

theorem countP_normalize (p : CodeUnit → Bool) (hcr : p (unit '\r') = true) (s : JsString) :
    (normalize s).countP p ≤ s.countP p ∧ (includesCrlf s = true → (normalize s).countP p < s.countP p) := by
  induction s using normalize.induct with
  | case1 => exact ⟨le_rfl,fun h => by cases h⟩
  | case2 u => exact ⟨le_rfl,fun h => by cases h⟩
  | case3 u v rest hcrlf ih =>
    obtain ⟨rfl,rfl⟩ := hcrlf
    rw [normalize,if_pos ⟨rfl,rfl⟩,List.countP_cons_of_pos hcr,List.countP_cons,List.countP_cons]
    obtain ⟨hle,-⟩ := ih
    exact ⟨by omega,fun _ => by omega⟩
  | case4 u v rest hcrlf ih =>
    rw [normalize,if_neg hcrlf,List.countP_cons,List.countP_cons]
    obtain ⟨hle,hlt⟩ := ih
    refine ⟨by omega,?_⟩
    intro hincludes
    have hrest : includesCrlf (v :: rest) = true := by
      rw [includesCrlf,Bool.or_eq_true,Bool.and_eq_true,decide_eq_true_eq,decide_eq_true_eq] at hincludes
      exact hincludes.resolve_left hcrlf
    have := hlt hrest
    omega

end Normal

section Quotes

theorem quote_cases (h : (quoteStyle q).isSome = true) : q = unit '"' ∨ q = unit '\'' ∨ q = unit '\x60' := by
  unfold quoteStyle at h
  split at h
  · exact Or.inl ‹_›
  · split at h
    · exact Or.inr (Or.inl ‹_›)
    · split at h
      · exact Or.inr (Or.inr ‹_›)
      · cases h

theorem quote_all {p : CodeUnit → Bool} (h : (quoteStyle q).isSome = true)
    (hp : p (unit '"') = false ∧ p (unit '\'') = false ∧ p (unit '\x60') = false) : p q = false := by
  rcases quote_cases h with rfl | rfl | rfl
  · exact hp.1
  · exact hp.2.1
  · exact hp.2.2

theorem quote_ne (h : (quoteStyle q).isSome = true) (hu : (quoteStyle u).isSome = false) : q ≠ u := by
  rintro rfl
  rw [h] at hu
  cases hu

theorem findQuote_absent (h : q ∉ s) (col : ℕ) : findQuote q col s = none := by
  induction s generalizing col with
  | nil => rfl
  | cons u s ih =>
    obtain ⟨hu,hs⟩ := not_or.mp (mt List.mem_cons.mpr h)
    cases s with
    | nil => exact if_neg (Ne.symm hu)
    | cons v s =>
      obtain ⟨hv,-⟩ := not_or.mp (mt List.mem_cons.mpr hs)
      rw [findQuote,if_neg fun h => hv h.2.symm,if_neg (Ne.symm hu)]
      exact ih hs (col + 1)

theorem findQuote_concat (h : q ∉ s) (col : ℕ) :
    findQuote q col (s ++ [q]) = if s.getLast? = some (unit '\\') then none else some (col + s.length) := by
  induction s generalizing col with
  | nil => exact if_pos rfl
  | cons u s ih =>
    obtain ⟨hu,hs⟩ := not_or.mp (mt List.mem_cons.mpr h)
    cases s with
    | nil =>
      rw [List.singleton_append,findQuote,List.getLast?_singleton]
      by_cases hescape : u = unit '\\'
      · rw [if_pos ⟨hescape,rfl⟩,hescape]
        rfl
      · rw [if_neg fun h => hescape h.1,if_neg (Ne.symm hu),if_neg fun h => hescape (Option.some.inj h)]
        exact if_pos rfl
    | cons v s =>
      obtain ⟨hv,-⟩ := not_or.mp (mt List.mem_cons.mpr hs)
      rw [List.cons_append,List.cons_append,findQuote,if_neg fun h => hv h.2.symm,if_neg (Ne.symm hu),← List.cons_append,ih hs,
        List.getLast?_cons_cons,Nat.add_assoc,Nat.add_comm 1]
      rfl

theorem findClosingQuote_same (h : q ∉ s) {text : JsString} {col : ℕ} (hdrop : text.drop col = s ++ [q]) (line : ℕ) :
    findClosingQuote q line col [text] = if s.getLast? = some (unit '\\') then none else some (line,col + s.length) := by
  rw [findClosingQuote,hdrop,findQuote_concat h]
  by_cases hescape : s.getLast? = some (unit '\\')
  · rw [if_pos hescape,if_pos hescape]
    rfl
  · rw [if_neg hescape,if_neg hescape]

theorem findClosingQuote_later {text last : JsString} {mids : List JsString} {col : ℕ} (hfirst : q ∉ text.drop col)
    (hmids : ∀ mid ∈ mids, q ∉ mid) (hlast : q ∉ last) (line : ℕ) :
    findClosingQuote q line col (text :: (mids ++ [last ++ [q]])) =
      if last.getLast? = some (unit '\\') then none else some (line + mids.length + 1,last.length) := by
  rw [findClosingQuote,findQuote_absent hfirst]
  induction mids generalizing line with
  | nil =>
    rw [List.nil_append,findClosingQuote_same hlast (List.drop_zero ..),Nat.zero_add]
    rfl
  | cons mid mids ih =>
    have hmid : q ∉ mid := hmids mid List.mem_cons_self
    rw [List.cons_append,findClosingQuote,List.drop_zero,findQuote_absent hmid,
      List.length_cons,show line + (mids.length + 1) + 1 = line + 1 + mids.length + 1 by omega]
    exact ih (fun m hm => hmids m (List.mem_cons_of_mem mid hm)) (line + 1)

end Quotes

section Decoding

theorem trimmed_eq {u w : CodeUnit} (hu : isSpace u = false) (hw : isSpace w = false) (s : JsString) :
    trimmed (u :: (s ++ [w])) = u :: (s ++ [w]) := by
  have hfirst : (u :: (s ++ [w])).dropWhile isSpace = u :: (s ++ [w]) :=
    List.dropWhile_cons_of_neg (by rw [hu]; exact Bool.false_ne_true)
  have hlast : (u :: (s ++ [w])).reverse = w :: (u :: s).reverse := by
    rw [← List.cons_append,List.reverse_append]
    rfl
  unfold trimmed
  rw [hfirst,hlast,List.dropWhile_cons_of_neg (by rw [hw]; exact Bool.false_ne_true),← hlast,List.reverse_reverse]

theorem decodeValue_quoted {style : QuoteStyle} (h : quoteStyle q = some style) (s : JsString) : decodeValue (q :: (s ++ [q])) =
    (if q = unit '"' then unescape (unit 'r') (unit '\r') (unescape (unit 'n') (unit '\n') s) else s,style) := by
  have hsome : (quoteStyle q).isSome = true := by rw [h]; rfl
  have hspace : isSpace q = false := quote_all hsome (by decide)
  have htrimmed := trimmed_eq hspace hspace s
  have houter : outerQuote (q :: (s ++ [q])) = some style := by
    obtain ⟨v,more,hmore⟩ := List.exists_cons_of_ne_nil (List.concat_ne_nil q s)
    have hlast : (v :: more).getLast? = some q := by rw [← hmore,List.getLast?_concat]
    rw [hmore,outerQuote,if_pos hlast,h]
  unfold decodeValue
  simp only [htrimmed,houter,Option.isSome_some,if_true,List.tail_cons,List.dropLast_concat,List.head?_cons,Option.some.injEq,
    Option.getD_some]

theorem unescape_cons (h : ¬ (u = unit '\\' ∧ s.head? = some letter)) :
    unescape letter replacement (u :: s) = u :: unescape letter replacement s := by
  cases s with
  | nil => rfl
  | cons v s =>
    rw [unescape,if_neg]
    exact fun hescape => h ⟨hescape.1,congrArg some hescape.2⟩

theorem escapeDollars_cons (u : CodeUnit) (s : JsString) :
    escapeDollars (u :: s) = (if u = unit '$' then [unit '\\',unit '$'] else [u]) ++ escapeDollars s := rfl

theorem head?_escapeDollars (hu : u ≠ unit '\\') (h : (escapeDollars s).head? = some u) : s.head? = some u := by
  cases s with
  | nil => cases h
  | cons v s =>
    rw [escapeDollars_cons] at h
    split at h
    · exact absurd (Option.some.inj h).symm hu
    · exact h

theorem unescape_escapeDollars (hletter : letter ∈ units ['n','r']) (h : isDoubleUnsafe s = false) :
    unescape letter replacement (escapeDollars s) = escapeDollars s := by
  have hbackslash : letter ≠ unit '\\' ∧ letter ≠ unit '$' ∧ letter ∈ units ['n','r','$'] := by
    revert hletter
    unfold units
    simp only [List.map_cons,List.map_nil,List.mem_cons,List.not_mem_nil,or_false]
    rintro (rfl | rfl)
    · decide
    · decide
  induction s with
  | nil => rfl
  | cons u s ih =>
    have hs : isDoubleUnsafe s = false := by
      cases s with
      | nil => rfl
      | cons v s => exact (Bool.or_eq_false_iff.mp h).2
    rw [escapeDollars_cons]
    split
    · have hdollar : ∀ rest : JsString, (unit '$' :: rest).head? ≠ some letter := fun rest heq =>
        hbackslash.2.1 (Option.some.inj heq).symm
      rw [List.cons_append,List.singleton_append,unescape_cons fun hescape => hdollar _ hescape.2,
        unescape_cons fun hescape => absurd hescape.1 (by decide),ih hs]
    · rw [List.singleton_append,unescape_cons,ih hs]
      rintro ⟨rfl,hhead⟩
      have hhead := head?_escapeDollars hbackslash.1 hhead
      cases s with
      | nil => cases hhead
      | cons v s =>
        obtain rfl := Option.some.inj hhead
        have hunsafe := (Bool.or_eq_false_iff.mp h).1
        rw [Bool.and_eq_false_iff] at hunsafe
        rcases hunsafe with hunsafe | hunsafe
        · exact absurd rfl (of_decide_eq_false hunsafe)
        · exact absurd hbackslash.2.2 (of_decide_eq_false hunsafe)

theorem mem_escapeDollars (hu : u ≠ unit '\\') : u ∈ escapeDollars s ↔ u ∈ s := by
  induction s with
  | nil => exact Iff.rfl
  | cons v s ih =>
    rw [escapeDollars_cons,List.mem_append,ih,List.mem_cons]
    split
    · rename_i hv
      rw [hv,List.mem_cons,List.mem_singleton]
      exact or_congr_left ⟨fun h => h.resolve_left hu,Or.inr⟩
    · rw [List.mem_singleton]

theorem getLast?_escapeDollars (s : JsString) : (escapeDollars s).getLast? = s.getLast? := by
  rcases List.eq_nil_or_concat s with rfl | ⟨s,u,rfl⟩
  · rfl
  · rw [List.concat_eq_append,List.getLast?_concat]
    unfold escapeDollars
    rw [List.flatMap_append,List.flatMap_singleton,List.getLast?_append]
    split
    · rename_i hu
      rw [hu]
      rfl
    · rfl

theorem includesCrlf_cons (u : CodeUnit) (s : JsString) :
    includesCrlf (u :: s) = (decide (u = unit '\r' ∧ s.head? = some (unit '\n')) || includesCrlf s) := by
  cases s with
  | nil =>
    rw [decide_eq_false fun h => by cases h.2]
    rfl
  | cons v s =>
    rw [includesCrlf]
    simp only [List.head?_cons,Option.some.injEq,Bool.decide_and]

theorem mem_of_includesCrlf (h : includesCrlf s = true) : unit '\r' ∈ s := by
  induction s with
  | nil => cases h
  | cons u s ih =>
    rw [includesCrlf_cons,Bool.or_eq_true,decide_eq_true_eq] at h
    rcases h with ⟨rfl,-⟩ | h
    · exact List.mem_cons_self
    · exact List.mem_cons_of_mem u (ih h)

theorem includesCrlf_escapeDollars (s : JsString) : includesCrlf (escapeDollars s) = includesCrlf s := by
  induction s with
  | nil => rfl
  | cons u s ih =>
    rw [escapeDollars_cons,includesCrlf_cons]
    split
    · rename_i hu
      have hdollar : unit '$' ≠ unit '\r' := by decide
      have hbackslash : unit '\\' ≠ unit '\r' := by decide
      rw [List.cons_append,List.singleton_append,includesCrlf_cons,includesCrlf_cons,ih,hu]
      simp only [hdollar,hbackslash,false_and,decide_false,Bool.false_or]
    · have hhead : (escapeDollars s).head? = some (unit '\n') ↔ s.head? = some (unit '\n') := by
        constructor
        · exact head?_escapeDollars (by decide)
        · intro h
          cases s with
          | nil => cases h
          | cons v s =>
            obtain rfl := Option.some.inj h
            rfl
      rw [List.singleton_append,includesCrlf_cons,ih]
      simp only [hhead]

end Decoding
end StructureAi.Dotenv

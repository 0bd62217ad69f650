import StructureAi.Dotenv.ExpansionOrder
import StructureAi.Dotenv.WrittenValues

/-! # Values come back

What the writer makes of a value is read back as that value, but for values with CRLF, which the reader makes a
line feed, and for values that end in a backslash, which the reader takes for an escape of the closing quote.
-/
namespace StructureAi.Dotenv
open StructureAi.Foundation
variable {options : ExpandOptions} {q : CodeUnit} {s key value formatted : JsString}

section Reading

theorem mem_joinLines {lines : List JsString} {line : JsString} {u : CodeUnit} (h : line ∈ lines) (hu : u ∈ line) :
    u ∈ joinLines lines := by
  induction lines with
  | nil => exact absurd h List.not_mem_nil
  | cons text lines ih =>
    rw [joinLines_cons]
    rcases List.mem_cons.mp h with rfl | h
    · split
      · exact hu
      · exact List.mem_append_left _ hu
    · rw [if_neg (List.ne_nil_of_mem h)]
      exact List.mem_append_right text (List.mem_cons_of_mem _ (ih h))

/-- The entries that a document is expanded from. -/
def Document.expandables (document : Document) : List Expandable := document.assignments.map fun a => ⟨a.key,a.value,a.quote⟩

def escapedFragment (u : CodeUnit) : Fragment := if u = unit '$' then .escapedDollar else .literal u

theorem takeFragment_escaped (u : CodeUnit) (s : JsString) :
    takeFragment (escapeDollars (u :: s)) = some (escapedFragment u,escapeDollars s) := by
  rw [escapeDollars_cons]
  unfold escapedFragment
  by_cases hu : u = unit '$'
  · rw [if_pos hu,if_pos hu]
    rfl
  · rw [if_neg hu,if_neg hu,List.singleton_append,takeFragment]
    have hnone : takeReference (u :: escapeDollars s) = none := by
      cases hs : escapeDollars s with
      | nil => rfl
      | cons v rest =>
        have hv : v ≠ unit '$' := by
          rintro rfl
          have hhead : (escapeDollars s).head? = some (unit '$') := by rw [hs]; rfl
          have hdollar := head?_escapeDollars (by decide) hhead
          obtain ⟨w,more,rfl⟩ := List.exists_cons_of_ne_nil fun hnil : s = [] => by rw [hnil] at hdollar; cases hdollar
          obtain rfl := Option.some.inj hdollar
          cases hs
        rw [takeReference,if_neg fun h => hv h.2,if_neg hu]
    rw [hnone]
    rfl

theorem fragments_escapeDollars (s : JsString) : fragments (escapeDollars s) = s.map escapedFragment := by
  unfold fragments
  induction s with
  | nil => rfl
  | cons u s ih => rw [Cutter.drain_some (takeFragment_escaped u s),ih,List.map_cons]

theorem interpolate_escapeDollars (options : ExpandOptions) (s : JsString) : interpolate options (escapeDollars s) =
    Program.done s := by
  rw [interpolate_eq,fragments_escapeDollars]
  induction s with
  | nil => rfl
  | cons u s ih =>
    have hfirst : ∀ interpolate, replacement options interpolate (escapedFragment u) = Program.done [u] := by
      intro interpolate
      unfold escapedFragment
      split
      · rename_i hu
        rw [hu]
        rfl
      · rfl
    rw [List.map_cons,replaceFragments,hfirst,Program.done_bind,ih]
    rfl

theorem expand_single {entry : Expandable} (h : resolution options entry = Program.done value) {fuel : ℕ} (hfuel : 1 < fuel) :
    expand fuel [entry] options = some (.ok [(entry.key,value)]) := by
  have hdefine : (expansions [entry] options).define entry.key = some (Program.done value) := by
    change (valueAt entry.key (rawEntries ([] ++ [entry]))).map (resolution options) = _
    rw [rawEntries_concat,if_pos rfl,Option.map_some,h]
  have hevaluate : (expansions [entry] options).evaluate [] entry.key = .ok (some value) := by
    rw [Definitions.evaluate_run hdefine List.not_mem_nil]
    rfl
  rw [expand_eq hfuel]
  have hcollect : (collect [entry] []).interpret ((expansions [entry] options).evaluate []) =
      (expansions [entry] options).evaluate [] entry.key >>= fun found => .ok [(entry.key,found.getD [])] := rfl
  rw [hcollect,hevaluate]
  rfl

end Reading

theorem takeWhile_ne {u : CodeUnit} (h : u ∉ s) : s.takeWhile (· ≠ u) = s := by
  apply List.takeWhile_eq_self_iff.mpr
  intro v hv
  exact decide_eq_true fun heq => h (heq ▸ hv)

section Lines
variable {head : KeyLine} {text : JsString} {item : Assignment}

theorem parseLines_quoted {following : List JsString} (hhead : keyLine text = some head)
    (h : quotedItem 0 head (text :: following) = some (item,following.length + 1)) :
    parseLines (text :: following).length 0 (text :: following) = [.assignment item] := by
  rw [List.length_cons,parseLines]
  simp only [hhead,h,List.drop_succ_cons,List.drop_length]
  cases following.length <;> rfl

theorem parseLines_unquoted {following : List JsString} (hhead : keyLine text = some head)
    (h : quotedItem 0 head (text :: following) = none)
    (rounds : ℕ) : parseLines (rounds + 1) 0 (text :: following) =
      .assignment (unquotedItem 0 head text) :: parseLines rounds 1 following := by
  rw [parseLines]
  simp only [hhead,h]

theorem parse_written (hkey : IsKey key) (hlast : formatted.getLast? ≠ some (unit '\n')) :
    (parse (key ++ unit '=' :: formatted)).items = parseLines ((key ++
      unit '=' :: normalize formatted).splitOn (unit '\n')).length 0
      ((key ++ unit '=' :: normalize formatted).splitOn (unit '\n')) := by
  have hbom : withoutBom (key ++ unit '=' :: formatted) = key ++ unit '=' :: formatted := by
    obtain ⟨u,more,rfl⟩ := List.exists_cons_of_ne_nil hkey.nonempty
    have hu : u ≠ unit '\ufeff' := ne_of_isKeyUnit (hkey.units u List.mem_cons_self) (by decide +kernel)
    exact if_neg fun h => hu (Option.some.inj h)
  have hnormal : normalize (key ++ unit '=' :: formatted) = key ++ unit '=' :: normalize formatted := by
    rw [normalize_append (hkey.not_mem (by decide)),normalize_cons (by decide)]
  have hend : (key ++ unit '=' :: normalize formatted).getLast? ≠ some (unit '\n') := by
    rw [List.getLast?_append]
    cases hformatted : normalize formatted with
    | nil => exact fun h => absurd (Option.some.inj h) (by decide)
    | cons u more =>
      rw [List.getLast?_cons_cons,← hformatted,getLast?_normalize]
      cases hfound : formatted.getLast? with
      | none =>
        rw [List.getLast?_eq_none_iff.mp hfound] at hformatted
        cases hformatted
      | some w =>
        rw [hfound] at hlast
        exact hlast
  have hbody : bodyOf (key ++ unit '=' :: formatted) = key ++ unit '=' :: normalize formatted := by
    unfold bodyOf
    rw [hnormal]
    exact if_neg hend
  rw [parse_items,hbom,hbody]
  have hlines : linesOf (key ++ unit '=' :: normalize formatted) =
    (key ++ unit '=' :: normalize formatted).splitOn (unit '\n') :=
    if_neg (List.append_ne_nil_of_left_ne_nil hkey.nonempty _)
  rw [hlines]

end Lines

section Quoted
variable {style : QuoteStyle} {first last : JsString} {mids : List JsString}

theorem joinLines_prepend (s line : JsString) (lines : List JsString) : joinLines ((s ++ line) :: lines) = s ++
    joinLines (line :: lines) := by
  rw [joinLines_cons,joinLines_cons]
  split
  · rfl
  · rw [List.append_assoc]

theorem joinLines_append_last (lines : List JsString) (line s : JsString) : joinLines (lines ++ [line ++ s]) =
    joinLines (lines ++ [line]) ++ s := by
  by_cases h : lines = []
  · rw [h,List.nil_append,List.nil_append,joinLines_cons,joinLines_cons,if_pos rfl,if_pos rfl]
  · rw [joinLines_append h (List.cons_ne_nil _ _),joinLines_append h (List.cons_ne_nil _ _),joinLines_cons,joinLines_cons,
      if_pos rfl,
      if_pos rfl,List.append_assoc]
    rfl

theorem exists_lines (h : unit '\n' ∈ s) : ∃ first mids last, s = joinLines (first :: (mids ++ [last])) ∧
    ∀ line ∈ first :: (mids ++ [last]), unit '\n' ∉ line ∧ ∀ u ∈ line, u ∈ s := by
  have hjoin : joinLines (s.splitOn (unit '\n')) = s := List.intercalate_splitOn (unit '\n')
  have hlines : ∀ line ∈ s.splitOn (unit '\n'), unit '\n' ∉ line := fun line hline => not_mem_of_mem_splitOn hline
  obtain ⟨first,more,hmore⟩ := List.exists_cons_of_ne_nil (List.splitOn_ne_nil (unit '\n') s)
  rcases List.eq_nil_or_concat more with rfl | ⟨mids,last,rfl⟩
  · rw [hmore,joinLines_cons,if_pos rfl] at hjoin
    exact absurd (hjoin ▸ h) (hlines first (hmore ▸ List.mem_cons_self))
  · rw [hmore,List.concat_eq_append] at hjoin hlines
    refine ⟨first,mids,last,hjoin.symm,?_⟩
    intro line hline
    refine ⟨hlines line hline,?_⟩
    intro u hu
    rw [← hjoin]
    exact mem_joinLines hline hu

theorem quotedItem_same (hq : quoteStyle q = some style) (hs : q ∉ s) :
    quotedItem 0 ⟨false,key,q :: (s ++ [q])⟩ [key ++ unit '=' :: q :: (s ++ [q])] =
      if s.getLast? = some (unit '\\') then none
      else some (⟨key,(decodeValue (q :: (s ++ [q]))).1,(decodeValue (q :: (s ++ [q]))).2,false,1,none,
        key ++ unit '=' :: q :: (s ++ [q])⟩,1) := by
  have hlengths : (key ++ unit '=' :: q :: (s ++ [q])).length - (q :: (s ++ [q])).length = key.length + 1 := by
    rw [List.length_append,List.length_cons]
    omega
  have hdrop : (key ++ unit '=' :: q :: (s ++ [q])).drop (key.length + 1 + 1) = s ++ [q] := by
    rw [List.drop_append,List.drop_eq_nil_of_le (by omega),show key.length + 1 + 1 - key.length = 2 by omega]
    rfl
  have hafter : (key ++ unit '=' :: q :: (s ++ [q])).drop (key.length + 1 + 1 + s.length + 1) = [] := by
    apply List.drop_eq_nil_of_le
    rw [List.length_append,List.length_cons,List.length_cons,List.length_append,List.length_singleton]
    omega
  have hraw : (q :: (s ++ [q])).take (key.length + 1 + 1 + s.length + 1 - (key.length + 1)) = q :: (s ++ [q]) := by
    apply List.take_of_length_le
    rw [List.length_cons,List.length_append,List.length_singleton]
    omega
  have hsome : ¬ (quoteStyle q).isNone = true := by rw [hq]; exact Bool.false_ne_true
  unfold quotedItem
  simp only [List.headD_cons,hlengths,if_neg hsome,findClosingQuote_same hs hdrop]
  by_cases hescape : s.getLast? = some (unit '\\')
  · rw [if_pos hescape,if_pos hescape]
  · rw [if_neg hescape,if_neg hescape]
    have hends : endsValue [] = true := rfl
    simp only [List.getD_cons_zero,hafter,hraw,hends,if_true,List.take_succ_cons,List.take_zero,joinLines_cons,Nat.zero_add]
    rfl

theorem quotedItem_later (hq : quoteStyle q = some style) (hfirst : q ∉ first) (hmids : ∀ mid ∈ mids, q ∉ mid) (hlast : q ∉ last)
    (hs : s = joinLines (first :: (mids ++ [last]))) :
    quotedItem 0 ⟨false,key,q :: first⟩ ((key ++ unit '=' :: q :: first) :: (mids ++ [last ++ [q]])) =
      if last.getLast? = some (unit '\\') then none
      else some (⟨key,(decodeValue (q :: (s ++ [q]))).1,(decodeValue (q :: (s ++ [q]))).2,false,1,none,
        key ++ unit '=' :: q :: (s ++ [q])⟩,mids.length + 2) := by
  have hlengths : (key ++ unit '=' :: q :: first).length - (q :: first).length = key.length + 1 := by
    rw [List.length_append,List.length_cons]
    omega
  have hdrop : (key ++ unit '=' :: q :: first).drop (key.length + 1 + 1) = first := by
    rw [List.drop_append,List.drop_eq_nil_of_le (by omega),show key.length + 1 + 1 - key.length = 2 by omega]
    rfl
  have hclosing : ((key ++ unit '=' :: q :: first) :: (mids ++ [last ++ [q]])).getD (mids.length + 1) [] = last ++ [q] := by
    rw [List.getD_cons_succ,List.getD_append_right _ _ _ _ le_rfl,Nat.sub_self]
    rfl
  have hafter : (last ++ [q]).drop (last.length + 1) = [] := by
    apply List.drop_eq_nil_of_le
    rw [List.length_append,List.length_singleton]
  have hwhole : (last ++ [q]).take (last.length + 1) = last ++ [q] := by
    apply List.take_of_length_le
    rw [List.length_append,List.length_singleton]
  have hmiddle : (((key ++ unit '=' :: q :: first) :: (mids ++ [last ++ [q]])).take (mids.length + 1)).drop 1 = mids := by
    rw [List.take_succ_cons,List.drop_succ_cons,List.drop_zero,List.take_left]
  have hall : ((key ++ unit '=' :: q :: first) :: (mids ++ [last ++ [q]])).take (mids.length + 1 + 1) =
      (key ++ unit '=' :: q :: first) :: (mids ++ [last ++ [q]]) := by
    apply List.take_of_length_le
    rw [List.length_cons,List.length_append,List.length_singleton]
  have hjoined : joinLines ((q :: first) :: (mids ++ [last ++ [q]])) = q :: (s ++ [q]) := by
    rw [hs]
    exact (joinLines_prepend [q] first _).trans (congrArg (q :: ·) (joinLines_append_last (first :: mids) last [q]))
  have htext : joinLines ((key ++ unit '=' :: q :: first) :: (mids ++ [last ++ [q]])) = key ++ unit '=' :: q :: (s ++ [q]) := by
    have hsplit : key ++ unit '=' :: q :: first = (key ++ [unit '=']) ++ (q :: first) := by
      rw [List.append_assoc]
      rfl
    rw [hsplit,joinLines_prepend,hjoined,List.append_assoc]
    rfl
  have hsome : ¬ (quoteStyle q).isNone = true := by rw [hq]; exact Bool.false_ne_true
  have hopen : q ∉ (key ++ unit '=' :: q :: first).drop (key.length + 1 + 1) := by rwa [hdrop]
  unfold quotedItem
  simp only [List.headD_cons,hlengths,if_neg hsome,findClosingQuote_later hopen hmids hlast]
  by_cases hescape : last.getLast? = some (unit '\\')
  · rw [if_pos hescape,if_pos hescape]
  · have hends : endsValue [] = true := rfl
    rw [if_neg hescape,if_neg hescape]
    simp only [Nat.zero_add,hclosing,hafter,hends,if_true,hmiddle,hwhole,hjoined,hall,htext,Nat.succ_ne_zero,if_false]
    rfl

theorem written_lines (hkey : IsKey key) (hq : quoteStyle q = some style) (hs : q ∉ s) : ∃ first following,
    (key ++ unit '=' :: q :: (s ++ [q])).splitOn (unit '\n') = (key ++ unit '=' :: q :: first) :: following ∧
    (following = [] ↔ unit '\n' ∉ s) ∧ (following = [] → first = s ++ [q]) ∧
    quotedItem 0 ⟨false,key,q :: first⟩ ((key ++ unit '=' :: q :: first) :: following) =
      if s.getLast? = some (unit '\\') then none
      else some (⟨key,(decodeValue (q :: (s ++ [q]))).1,(decodeValue (q :: (s ++ [q]))).2,false,1,none,
        key ++ unit '=' :: q :: (s ++ [q])⟩,following.length + 1) := by
  have hsome : (quoteStyle q).isSome = true := by rw [hq]; rfl
  have hqn : unit '\n' ≠ q := Ne.symm (quote_ne hsome (by decide))
  have hhead : ∀ line : JsString, unit '\n' ∉ line → unit '\n' ∉ key ++ unit '=' :: q :: line := by
    intro line hline hin
    rcases List.mem_append.mp hin with hin | hin
    · exact hkey.not_mem (by decide) hin
    · rcases List.mem_cons.mp hin with hin | hin
      · exact absurd hin (by decide)
      · rcases List.mem_cons.mp hin with hin | hin
        · exact hqn hin
        · exact hline hin
  have htail : ∀ line : JsString, unit '\n' ∉ line → unit '\n' ∉ line ++ [q] := by
    intro line hline hin
    rcases List.mem_append.mp hin with hin | hin
    · exact hline hin
    · exact hqn (List.mem_singleton.mp hin)
  by_cases hbreak : unit '\n' ∈ s
  · obtain ⟨first,mids,last,hjoin,hparts⟩ := exists_lines hbreak
    have habsent : ∀ line ∈ first :: (mids ++ [last]), q ∉ line := fun line hline hin => hs ((hparts line hline).2 q hin)
    have hlastIn : last ∈ first :: (mids ++ [last]) := List.mem_cons_of_mem first (List.mem_append_right mids List.mem_cons_self)
    have hmidIn : ∀ mid ∈ mids, mid ∈ first :: (mids ++ [last]) :=
      fun mid hmid => List.mem_cons_of_mem first (List.mem_append_left [last] hmid)
    have htext : joinLines ((key ++ unit '=' :: q :: first) :: (mids ++ [last ++ [q]])) = key ++
      unit '=' :: q :: (s ++ [q]) := by
      have hsplit : ∀ line : JsString, key ++ unit '=' :: q :: line = (key ++ [unit '=',q]) ++ line := by
        intro line
        rw [List.append_assoc]
        rfl
      have hsuffix : joinLines (first :: (mids ++ [last ++ [q]])) = s ++ [q] := by
        rw [hjoin]
        exact joinLines_append_last (first :: mids) last [q]
      rw [hsplit first,hsplit (s ++ [q]),joinLines_prepend,hsuffix]
    have hend : last.getLast? = some (unit '\\') ↔ s.getLast? = some (unit '\\') := by
      have hone : joinLines [last] = last := List.intercalate_singleton
      rw [hjoin,← List.cons_append,joinLines_append (List.cons_ne_nil _ _) (List.cons_ne_nil _ _),hone,List.getLast?_append]
      cases last with
      | nil => exact iff_of_false (fun h => by cases h) fun h => absurd (Option.some.inj h) (by decide)
      | cons u more =>
        rw [List.getLast?_cons_cons]
        cases hmore : (u :: more).getLast? with
        | none => cases List.getLast?_eq_none_iff.mp hmore
        | some w => exact Iff.rfl
    have hne : mids ++ [last ++ [q]] ≠ [] := List.append_ne_nil_of_right_ne_nil mids (List.cons_ne_nil _ _)
    refine ⟨first,mids ++ [last ++ [q]],?_,iff_of_false hne (not_not.mpr hbreak),fun hnil => absurd hnil hne,?_⟩
    · rw [← htext]
      apply List.splitOn_intercalate _ _ (List.cons_ne_nil _ _)
      intro line hline
      rcases List.mem_cons.mp hline with rfl | hline
      · exact hhead first (hparts first List.mem_cons_self).1
      · rcases List.mem_append.mp hline with hline | hline
        · exact (hparts line (hmidIn line hline)).1
        · rw [List.mem_singleton.mp hline]
          exact htail last (hparts last hlastIn).1
    · rw [quotedItem_later hq (habsent first List.mem_cons_self) (fun mid hmid => habsent mid (hmidIn mid hmid))
        (habsent last hlastIn) hjoin,
        List.length_append,List.length_singleton]
      simp only [hend]
  · refine ⟨s ++ [q],[],?_,iff_of_true rfl hbreak,fun _ => rfl,quotedItem_same hq hs⟩
    exact List.splitOn_eq_singleton (hhead _ (htail s hbreak))

/-- A quoted text without CRLF is read whole where its closing quote is found, and where its line has nothing to cut off. -/
theorem expandables_quoted (hkey : IsKey key) (hq : quoteStyle q = some style) (hs : q ∉ s) (hcrlf : includesCrlf s = false)
    (hend : s.getLast? = some (unit '\\') → unit '#' ∉ s ∧ unit '\n' ∉ s) :
    (parse (key ++ unit '=' :: q :: (s ++ [q]))).expandables = [⟨key,(decodeValue (q :: (s ++ [q]))).1,style⟩] := by
  have hsome : (quoteStyle q).isSome = true := by rw [hq]; rfl
  have hnormal : normalize (q :: (s ++ [q])) = q :: (s ++ [q]) := by
    rw [normalize_cons (quote_ne hsome (by decide)),normalize_concat (quote_ne hsome (by decide)),
      normalize_of_not_includesCrlf hcrlf]
  have hlast : (q :: (s ++ [q])).getLast? ≠ some (unit '\n') := by
    rw [← List.cons_append,List.getLast?_concat]
    exact fun h => quote_ne hsome (by decide) (Option.some.inj h)
  have hitems := parse_written hkey hlast
  rw [hnormal] at hitems
  have hstyle : (decodeValue (q :: (s ++ [q]))).2 = style := by rw [decodeValue_quoted hq]
  have hspace : isSpace q = false := quote_all hsome (by decide)
  obtain ⟨first,following,hlines,hone,hfirst,hitem⟩ := written_lines hkey hq hs
  have hhead : ∀ rest : JsString, keyLine (key ++ unit '=' :: q :: rest) = some ⟨false,key,q :: rest⟩ := by
    intro rest
    rw [keyLine_assign hkey,List.dropWhile_cons_of_neg (by rw [hspace]; exact Bool.false_ne_true)]
  have hread : ∀ a : Assignment, a.key = key → a.value = (decodeValue (q :: (s ++ [q]))).1 →
      a.quote = (decodeValue (q :: (s ++ [q]))).2 →
      (parse (key ++ unit '=' :: q :: (s ++ [q]))).items = [.assignment a] →
        (parse (key ++ unit '=' :: q :: (s ++ [q]))).expandables = [⟨key,(decodeValue (q :: (s ++ [q]))).1,style⟩] := by
    intro a ha hvalue hquote hitems
    unfold Document.expandables Document.assignments
    rw [hitems]
    simp only [List.filterMap_cons,List.filterMap_nil,List.map_cons,List.map_nil,ha,hvalue,hquote,hstyle]
  rw [hlines] at hitems
  by_cases hescape : s.getLast? = some (unit '\\')
  · obtain ⟨hhash,hbreak⟩ := hend hescape
    obtain rfl := hone.mpr hbreak
    obtain rfl := hfirst rfl
    rw [if_pos hescape] at hitem
    rw [List.length_singleton,parseLines_unquoted (hhead _) hitem] at hitems
    have hnohash : unit '#' ∉ q :: (s ++ [q]) := by
      have hqhash : unit '#' ≠ q := Ne.symm (quote_ne hsome (by decide))
      intro hin
      rcases List.mem_cons.mp hin with hin | hin
      · exact hqhash hin
      · rcases List.mem_append.mp hin with hin | hin
        · exact hhash hin
        · exact hqhash (List.mem_singleton.mp hin)
    have hraw : (q :: (s ++ [q])).takeWhile (· ≠ unit '#') = q :: (s ++ [q]) := takeWhile_ne hnohash
    have hdecoded : decodeValue ((q :: (s ++ [q])).takeWhile (· ≠ unit '#')) = decodeValue (q :: (s ++ [q])) := by rw [hraw]
    exact hread _ rfl (congrArg Prod.fst hdecoded) (congrArg Prod.snd hdecoded) hitems
  · rw [if_neg hescape] at hitem
    rw [parseLines_quoted (hhead first) hitem] at hitems
    exact hread _ rfl rfl rfl hitems

theorem expandables_plain (hkey : IsKey key) (hs : ∀ u ∈ s, isSpace u = false ∧ u ≠ unit '#' ∧ quoteStyle u = none) :
    (parse (key ++ unit '=' :: s)).expandables = [⟨key,s,.none⟩] := by
  have habsent : ∀ u, isSpace u = true → u ∉ s := fun u hu hin => by
    rw [(hs u hin).1] at hu
    cases hu
  have hbreak : unit '\n' ∉ s := habsent _ (by decide)
  have hcr : unit '\r' ∉ s := habsent _ (by decide)
  have hnormal : normalize s = s := by
    have happend := normalize_append hcr []
    rwa [List.append_nil,normalize,List.append_nil] at happend
  have hlast : s.getLast? ≠ some (unit '\n') := fun h => hbreak (List.mem_of_getLast? h)
  have hitems := parse_written hkey hlast
  have hline : unit '\n' ∉ key ++ unit '=' :: s := by
    intro hin
    rcases List.mem_append.mp hin with hin | hin
    · exact hkey.not_mem (by decide) hin
    · rcases List.mem_cons.mp hin with hin | hin
      · exact absurd hin (by decide)
      · exact hbreak hin
  rw [hnormal,List.splitOn_eq_singleton hline] at hitems
  have hrest : s.dropWhile isSpace = s := by
    cases s with
    | nil => rfl
    | cons u s => exact List.dropWhile_cons_of_neg (by rw [(hs u List.mem_cons_self).1]; exact Bool.false_ne_true)
  have hhead := keyLine_assign hkey s
  rw [hrest] at hhead
  have hquoted : quotedItem 0 ⟨false,key,s⟩ [key ++ unit '=' :: s] = none := by
    unfold quotedItem
    cases s with
    | nil => rfl
    | cons u s =>
      have hu : (quoteStyle u).isNone = true := by rw [(hs u List.mem_cons_self).2.2]; rfl
      exact if_pos hu
  rw [List.length_singleton,parseLines_unquoted hhead hquoted] at hitems
  have hraw : s.takeWhile (· ≠ unit '#') = s := takeWhile_ne fun hin => (hs _ hin).2.1 rfl
  have hdecoded : decodeValue (s.takeWhile (· ≠ unit '#')) = (s,.none) := by
    have htrimmed : trimmed s = s := by
      have hreverse : s.reverse.dropWhile isSpace = s.reverse := by
        cases hr : s.reverse with
        | nil => rfl
        | cons w more =>
          have hw := (hs w (List.mem_reverse.mp (hr ▸ List.mem_cons_self))).1
          exact List.dropWhile_cons_of_neg (by rw [hw]; exact Bool.false_ne_true)
      unfold trimmed
      rw [hrest,hreverse,List.reverse_reverse]
    have houter : outerQuote s = none := by
      unfold outerQuote
      split
      · rw [(hs _ List.mem_cons_self).2.2,ite_self]
      · rfl
    have hdouble : s.head? ≠ some (unit '"') := by
      intro h
      have hnone := (hs _ (List.mem_of_head? h)).2.2
      revert hnone
      decide
    rw [hraw]
    unfold decodeValue
    simp only [htrimmed,houter,if_neg hdouble]
    rfl
  unfold Document.expandables Document.assignments
  rw [hitems]
  unfold unquotedItem
  simp only [hdecoded]
  rfl

end Quoted
section Writing
variable {style : QuoteStyle}

def writtenIn (style : QuoteStyle) (value : JsString) : JsString := if style = .single then value else escapeDollars value

/-- The reader makes its CRLF a line feed, or takes its last backslash for an escape of the closing quote and cuts it off. -/
def Lossy (value : JsString) : Prop :=
  includesCrlf value = true ∨ (value.getLast? = some (unit '\\') ∧ (unit '#' ∈ value ∨ unit '\n' ∈ value))

theorem formatValue_cases (h : formatValue value = some formatted) :
    (formatted = value ∧ ∀ u ∈ value, isSpace u = false ∧ u ∉ units ['#','\'','"','\x60','\\','$']) ∨
    ∃ q style, quoteStyle q = some style ∧ q ∉ value ∧ formatted = q :: (writtenIn style value ++ [q]) ∧
      (style ≠ .single → isDoubleUnsafe value = false) := by
  unfold formatValue at h
  split at h
  · rename_i hnil
    obtain rfl := Option.some.inj h
    rw [hnil]
    exact Or.inl ⟨rfl,fun u hu => absurd hu List.not_mem_nil⟩
  · split at h
    · rename_i hbare
      obtain rfl := Option.some.inj h
      refine Or.inl ⟨rfl,?_⟩
      intro u hu
      unfold isBare at hbare
      rw [Bool.and_eq_true,List.all_eq_true] at hbare
      have hclass := hbare.2 u hu
      rw [Bool.and_eq_true,decide_eq_true_eq,decide_eq_true_eq] at hclass
      exact ⟨Bool.eq_false_iff.mpr hclass.1,hclass.2⟩
    · right
      split at h
      · rename_i hsingle
        exact ⟨unit '\'',.single,by decide,hsingle,(Option.some.inj h).symm,fun hne => absurd rfl hne⟩
      · split at h
        · rename_i hdouble
          exact ⟨unit '"',.double,by decide,hdouble.1,(Option.some.inj h).symm,fun _ => Bool.eq_false_iff.mpr hdouble.2⟩
        · split at h
          · rename_i hbacktick
            exact ⟨unit '\x60',.backtick,by decide,hbacktick.1,(Option.some.inj h).symm,fun _ =>
              Bool.eq_false_iff.mpr hbacktick.2⟩
          · cases h

theorem mem_writtenIn {u : CodeUnit} (hu : u ≠ unit '\\') : u ∈ writtenIn style value ↔ u ∈ value := by
  unfold writtenIn
  split
  · exact Iff.rfl
  · exact mem_escapeDollars hu

theorem getLast?_writtenIn : (writtenIn style value).getLast? = value.getLast? := by
  unfold writtenIn
  split
  · rfl
  · exact getLast?_escapeDollars value

theorem includesCrlf_writtenIn : includesCrlf (writtenIn style value) = includesCrlf value := by
  unfold writtenIn
  split
  · rfl
  · exact includesCrlf_escapeDollars value

theorem resolution_written (hq : quoteStyle q = some style) (hsafe : style ≠ .single → isDoubleUnsafe value = false) :
    resolution options ⟨key,(decodeValue (q :: (writtenIn style value ++ [q]))).1,style⟩ = Program.done value := by
  rw [decodeValue_quoted hq]
  unfold resolution writtenIn
  by_cases hsingle : style = .single
  · have hdouble : q ≠ unit '"' := by
      rintro rfl
      rw [hsingle] at hq
      exact absurd hq (by decide)
    simp only [if_pos hsingle,if_neg hdouble]
    rfl
  · have hread : (if q = unit '"' then unescape (unit 'r') (unit '\r') (unescape (unit 'n') (unit '\n') (escapeDollars value))
        else escapeDollars value) = escapeDollars value := by
      split
      · rw [unescape_escapeDollars (by decide) (hsafe hsingle),unescape_escapeDollars (by decide) (hsafe hsingle)]
      · rfl
    simp only [if_neg hsingle,hread]
    exact interpolate_escapeDollars options value

end Writing

/-- The line that is written for a key is read and expanded to just the key and its value. -/
def ReadsBack (key value formatted : JsString) (override : Bool) : Prop :=
  ∀ fuel, (parse (key ++ unit '=' :: formatted)).expandables.length < fuel →
    expand fuel (parse (key ++ unit '=' :: formatted)).expandables ⟨fun _ => none,override⟩ = some (.ok [(key,value)])

theorem readsBack_of_not_lossy (hkey : IsKey key) (h : formatValue value = some formatted) (hvalue : ¬ Lossy value)
    (override : Bool) :
    ReadsBack key value formatted override := by
  obtain ⟨hcrlf,hend⟩ := not_or.mp hvalue
  unfold ReadsBack
  rcases formatValue_cases h with ⟨rfl,hbare⟩ | ⟨q,style,hq,hvalue,rfl,hsafe⟩
  · have hplain : ∀ u ∈ formatted, isSpace u = false ∧ u ≠ unit '#' ∧ quoteStyle u = none := by
      intro u hu
      obtain ⟨hspace,hclass⟩ := hbare u hu
      refine ⟨hspace,?_,?_⟩
      · rintro rfl
        exact hclass (by decide)
      · rw [← Option.isNone_iff_eq_none,← Option.not_isSome,Bool.not_eq_true',Bool.eq_false_iff]
        intro hquote
        rcases quote_cases hquote with rfl | rfl | rfl
        · exact hclass (by decide)
        · exact hclass (by decide)
        · exact hclass (by decide)
    rw [expandables_plain hkey hplain]
    intro fuel hfuel
    apply expand_single _ hfuel
    have hdollars : escapeDollars formatted = formatted := by
      unfold escapeDollars
      have hsame : ∀ u ∈ formatted, (if u = unit '$' then [unit '\\',unit '$'] else [u]) = [u] := by
        intro u hu
        apply if_neg
        rintro rfl
        exact (hbare _ hu).2 (by decide)
      rw [List.flatMap_congr hsame,List.flatMap_singleton']
    have hexpand := interpolate_escapeDollars ⟨fun _ => none,override⟩ formatted
    rwa [hdollars] at hexpand
  · have hsome : (quoteStyle q).isSome = true := by rw [hq]; rfl
    have habsent : q ∉ writtenIn style value := by rwa [mem_writtenIn (quote_ne hsome (by decide))]
    rw [expandables_quoted hkey hq habsent (by rw [includesCrlf_writtenIn]; exact Bool.eq_false_iff.mpr hcrlf)]
    · intro fuel hfuel
      exact expand_single (resolution_written hq hsafe) hfuel
    · rw [getLast?_writtenIn,mem_writtenIn (by decide),mem_writtenIn (by decide)]
      intro hlast
      exact not_or.mp fun hcut => hend ⟨hlast,hcut⟩

end StructureAi.Dotenv

import StructureAi.Foundation.Separated
import StructureAi.Storage.SigV4

/-! # What is encoded once

A path of encoded segments and a query of encoded values pass through a URL as they are, and the canonical request decodes
and encodes them back to what they were.
-/
namespace StructureAi.Storage.SigV4
open StructureAi.Foundation

section Encoding
variable {c : Char} {value : List Char}

theorem isUriChar_small (h : isUriChar c = true) : c.toNat < 0x80 := by
  rw [isUriChar,Bool.or_eq_true] at h
  rcases h with h | h
  · exact isUnreserved_small (Bool.or_eq_true_iff.mpr (Or.inl h))
  · have hall : ((['-','.','_','~'] : List Char).all fun d => d.toNat < 0x80) = true := by decide
    exact of_decide_eq_true (List.all_eq_true.mp hall c (of_decide_eq_true h))

theorem uriEncode_true (value : List Char) : uriEncode value true = percentEncode isUriChar value := by
  rw [← flatMap_bytes (fun _ => isUriChar_small)]
  refine List.flatMap_congr fun byte _ => ?_
  split
  · rfl
  · exact if_neg fun h => nomatch h.2

theorem slash_of_byte (h : 0x2f ∈ encodeUtf8 value) : '/' ∈ value := by
  obtain ⟨c,hc,hbyte⟩ := List.mem_flatMap.mp h
  by_cases hsmall : c.toNat < 0x80
  · rw [utf8EncodeChar_small hsmall,List.mem_singleton] at hbyte
    have hval := congrArg UInt8.toNat hbyte
    rw [toNat_byte (by omega)] at hval
    obtain rfl : '/' = c := Char.toNat_inj.mp hval
    exact hc
  · exact absurd (utf8EncodeChar_large (by omega) _ hbyte) (by decide)

theorem uriEncode_false (h : '/' ∉ value) : uriEncode value false = percentEncode isUriChar value := by
  rw [← uriEncode_true]
  refine List.flatMap_congr fun byte hbyte => ?_
  have hne : byte ≠ 0x2f := by
    rintro rfl
    exact h (slash_of_byte hbyte)
  split
  · rfl
  · rw [if_neg fun hslash => hne hslash.1,if_neg fun hslash => hne hslash.1]

/-- The characters of an encoded segment stand in a path, a query and the credentials as they are. -/
theorem mem_encoded (h : c ∈ percentEncode isUriChar value) :
    keepsPath c = true ∧ keepsSpecialQuery c = true ∧ c ≠ '/' ∧ c ≠ '&' ∧ c ≠ '+' ∧ c ≠ '\\' ∧ isTabOrNewline c = false := by
  have hall : ∀ n < 0x80, isUriChar (Char.ofNat n) = true ∨ Char.ofNat n = '%' → keepsPath (Char.ofNat n) = true ∧
      keepsSpecialQuery (Char.ofNat n) = true ∧ Char.ofNat n ≠ '/' ∧ Char.ofNat n ≠ '&' ∧ Char.ofNat n ≠ '+' ∧
        Char.ofNat n ≠ '\\' ∧
      isTabOrNewline (Char.ofNat n) = false := by decide
  have hdigits : ∀ n < 16, isUriChar (Nat.digitChar n).toUpper = true := by decide
  have hkind : isUriChar c = true ∨ c = '%' := by
    rcases mem_percentEncode h with h | rfl | ⟨n,hn,rfl⟩
    · exact Or.inl h
    · exact Or.inr rfl
    · exact Or.inl (hdigits n hn)
  have hsmall : c.toNat < 0x80 := by
    rcases hkind with h | rfl
    · exact isUriChar_small h
    · decide
  have hone := hall c.toNat hsmall
  rw [Char.ofNat_toNat] at hone
  exact hone hkind

end Encoding

section Paths
variable {segments : List (List Char)}

/-- A segment that is no part of a path by itself. -/
def IsDot (segment : List Char) : Prop := segment = ['.'] ∨ segment = ['.','.']

def IsPath (segments : List (List Char)) : Prop := segments ≠ [] ∧ ∀ segment ∈ segments, '/' ∉ segment ∧ ¬ IsDot segment

def encodedPath (segments : List (List Char)) : List Char :=
    segments.flatMap fun segment => '/' :: percentEncode isUriChar segment

theorem toLower_small {c : Char} (h : c.toLower.toNat < 0x80) : c.toNat < 0x80 := by
  unfold Char.toLower at h
  split at h
  · rename_i hupper
    have hZ : 'Z'.val.toNat = 90 := rfl
    have hval : c.val.toNat = c.toNat := rfl
    have hle := hupper.2
    rw [UInt32.le_iff_toNat_le] at hle
    omega
  · exact h

theorem of_toLower {c : Char} : (c.toLower = '.' → c = '.') ∧ (c.toLower = '%' → c = '%') ∧ (c.toLower = '2' → c = '2') ∧
    (c.toLower = 'e' → c = 'e' ∨ c = 'E') := by
  have hall : ∀ n < 0x80, ((Char.ofNat n).toLower = '.' → Char.ofNat n = '.') ∧
    ((Char.ofNat n).toLower = '%' → Char.ofNat n = '%') ∧
      ((Char.ofNat n).toLower = '2' → Char.ofNat n = '2') ∧ ((Char.ofNat n).toLower = 'e' → Char.ofNat n = 'e' ∨
        Char.ofNat n = 'E') := by
    decide
  by_cases hsmall : c.toNat < 0x80
  · have hone := hall c.toNat hsmall
    rwa [Char.ofNat_toNat] at hone
  · have hlarge : ∀ d : Char, d.toNat < 0x80 → c.toLower ≠ d := fun d hd h => hsmall (toLower_small (h ▸ hd))
    exact ⟨fun h => absurd h (hlarge _ (by decide)),fun h => absurd h (hlarge _ (by decide)),fun h =>
      absurd h (hlarge _ (by decide)),
      fun h => absurd h (hlarge _ (by decide))⟩

theorem map_toLower_cons {text rest : List Char} {d : Char} (h : text.map Char.toLower = d :: rest) :
    ∃ c tail, text = c :: tail ∧ c.toLower = d ∧ tail.map Char.toLower = rest := by
  cases text with
  | nil => cases h
  | cons c tail => exact ⟨c,tail,rfl,(List.cons.inj h).1,(List.cons.inj h).2⟩

theorem unescape_dot {text rest : List Char} (h : text.map Char.toLower = '.' :: rest ∨
    text.map Char.toLower = "%2e".toList ++ rest) :
    ∃ tail, tail.map Char.toLower = rest ∧ ∀ bytes, unescape tail = some bytes → unescape text = some (0x2e :: bytes) := by
  rcases h with h | h
  · obtain ⟨c,tail,rfl,hc,htail⟩ := map_toLower_cons h
    obtain rfl := of_toLower.1 hc
    refine ⟨tail,htail,fun bytes hbytes => ?_⟩
    rw [unescape_plain (by decide),hbytes]
    rfl
  · obtain ⟨a,text₁,rfl,ha,h₁⟩ := map_toLower_cons h
    obtain ⟨b,text₂,rfl,hb,h₂⟩ := map_toLower_cons h₁
    obtain ⟨c,tail,rfl,hc,htail⟩ := map_toLower_cons h₂
    obtain rfl := of_toLower.2.1 ha
    obtain rfl := of_toLower.2.2.1 hb
    have hdigit : hexDigit c = some 14 := by
      rcases of_toLower.2.2.2 hc with rfl | rfl <;> rfl
    refine ⟨tail,htail,fun bytes hbytes => ?_⟩
    have hescapes : Escapes [0x2e] ['%','2',c] := Escapes.cons (a := '2') (b := c) rfl hdigit .nil
    have hread := unescape_escapes hescapes tail
    rw [hbytes] at hread
    exact hread

theorem map_toLower_nil {text : List Char} (h : text.map Char.toLower = []) : unescape text = some [] := by
  rw [List.map_eq_nil_iff.mp h]
  rfl

theorem isDot_of_encoded {segment : List Char}
    (h : isSingleDot (percentEncode isUriChar segment) = true ∨ isDoubleDot (percentEncode isUriChar segment) = true) :
      IsDot segment := by
  have hread : unescape (percentEncode isUriChar segment) = some (encodeUtf8 segment) :=
    unescape_percentEncode (by decide) segment
  generalize percentEncode isUriChar segment = text at *
  rcases h with h | h
  · have hform : text.map Char.toLower = '.' :: [] ∨ text.map Char.toLower = "%2e".toList ++ [] := by
      simpa [isSingleDot] using h
    obtain ⟨tail,htail,hdot⟩ := unescape_dot hform
    rw [hdot [] (map_toLower_nil htail)] at hread
    exact Or.inl (encodeUtf8_injective (Option.some.inj hread).symm)
  · have hform : ∃ rest, (text.map Char.toLower = '.' :: rest ∨ text.map Char.toLower = "%2e".toList ++ rest) ∧
        (rest = '.' :: [] ∨ rest = "%2e".toList ++ []) := by
      simp only [isDoubleDot,List.mem_cons,List.not_mem_nil,or_false,decide_eq_true_eq] at h
      rcases h with h | h | h | h
      · exact ⟨_,Or.inl h,Or.inl rfl⟩
      · exact ⟨_,Or.inl h,Or.inr rfl⟩
      · exact ⟨_,Or.inr h,Or.inl rfl⟩
      · exact ⟨_,Or.inr h,Or.inr rfl⟩
    obtain ⟨rest,hfirst,hsecond⟩ := hform
    obtain ⟨tail,htail,hdot⟩ := unescape_dot hfirst
    rw [← htail] at hsecond
    obtain ⟨tail',htail',hdot'⟩ := unescape_dot hsecond
    rw [hdot _ (hdot' [] (map_toLower_nil htail'))] at hread
    exact Or.inr (encodeUtf8_injective (Option.some.inj hread).symm)

theorem resolveSegments_plain {path encoded : List (List Char)}
    (h : ∀ segment ∈ encoded, isSingleDot segment = false ∧ isDoubleDot segment = false ∧ ∀ c ∈ segment, keepsPath c = true) :
    resolveSegments path encoded = path ++ encoded := by
  induction encoded generalizing path with
  | nil => rw [resolveSegments,List.append_nil]
  | cons segment encoded ih =>
    obtain ⟨hsingle,hdouble,hkept⟩ := h segment List.mem_cons_self
    rw [resolveSegments,hsingle,hdouble,if_neg (by decide),ih fun other hother => h other (List.mem_cons_of_mem segment hother),
      percentEncode_kept hkept,List.append_assoc]
    rfl

theorem encodedPath_cons (segment : List Char) (rest : List (List Char)) :
    encodedPath (segment :: rest) =
      '/' :: (percentEncode isUriChar segment ++ (rest.map (percentEncode isUriChar)).flatMap fun other => '/' :: other) := by
  rw [encodedPath,List.flatMap_cons,List.flatMap_map]
  rfl

theorem parsePath_encoded (h : IsPath segments) : parsePath true (encodedPath segments) = encodedPath segments := by
  obtain ⟨hne,hsegments⟩ := h
  obtain ⟨segment,rest,rfl⟩ := List.exists_cons_of_ne_nil hne
  have hplain : ∀ encoded ∈ (segment :: rest).map (percentEncode isUriChar), isSingleDot encoded = false ∧
    isDoubleDot encoded = false ∧
      ∀ c ∈ encoded, keepsPath c = true := by
    intro encoded hin
    obtain ⟨other,hother,rfl⟩ := List.mem_map.mp hin
    have hdot := (hsegments other hother).2
    exact ⟨Bool.eq_false_iff.mpr fun h => hdot (isDot_of_encoded (Or.inl h)),Bool.eq_false_iff.mpr fun h =>
      hdot (isDot_of_encoded (Or.inr h)),
      fun c hc => (mem_encoded hc).1⟩
  have hseparator : ∀ other : List Char, ∀ c ∈ percentEncode isUriChar other, isPathSeparator true c = false := by
    intro other c hc
    obtain ⟨-,-,hslash,-,-,hbackslash,-⟩ := mem_encoded hc
    unfold isPathSeparator
    rw [decide_eq_false hslash,decide_eq_false hbackslash]
    rfl
  have hsplit : ((encodedPath (segment :: rest)).drop 1).splitOnP (isPathSeparator true) =
    (segment :: rest).map (percentEncode isUriChar) := by
    rw [encodedPath_cons,List.drop_succ_cons,List.drop_zero,List.map_cons]
    refine splitOnP_pieces rfl (hseparator segment) fun encoded hin => ?_
    obtain ⟨other,-,rfl⟩ := List.mem_map.mp hin
    exact hseparator other
  unfold parsePath
  rw [if_neg (fun hempty => nomatch hempty.2),hsplit,resolveSegments_plain hplain,List.nil_append,List.flatMap_map]
  rfl

theorem canonicalUri_encoded (h : IsPath segments) : canonicalUri (encodedPath segments) = some (encodedPath segments) := by
  have hsplit : (encodedPath segments).splitOn '/' = [] :: segments.map (percentEncode isUriChar) := by
    have hform : encodedPath segments = [] ++ (segments.map (percentEncode isUriChar)).flatMap fun other => '/' :: other := by
      rw [List.nil_append,List.flatMap_map]
      rfl
    rw [hform,List.splitOn_eq_splitOnP]
    refine splitOnP_pieces (by decide) (List.forall_mem_nil _) fun encoded hin c hc => ?_
    obtain ⟨other,-,rfl⟩ := List.mem_map.mp hin
    exact beq_eq_false_iff_ne.mpr (mem_encoded hc).2.2.1
  have hone : ∀ segment ∈ segments, (decodeURIComponent (String.ofList (percentEncode isUriChar segment))).map (fun decoded =>
    uriEncode decoded false) =
      some (percentEncode isUriChar segment) := by
    intro segment hsegment
    have hdecode : decodeURIComponent (String.ofList (percentEncode isUriChar segment)) = some segment := by
      rw [decodeURIComponent,String.toList_ofList,unescape_percentEncode (by decide),Option.bind_some]
      dsimp only
      rw [decodeUtf8_encodeUtf8,if_pos rfl]
    rw [hdecode,Option.map_some,uriEncode_false (h.2 segment hsegment).1]
  have hall : (segments.map (percentEncode isUriChar)).mapM (fun segment =>
    (decodeURIComponent (String.ofList segment)).map fun decoded => uriEncode decoded false) =
      some (segments.map (percentEncode isUriChar)) := by
    clear hsplit h
    induction segments with
    | nil => rfl
    | cons segment rest ih =>
      rw [List.map_cons,List.mapM_cons,hone segment List.mem_cons_self,ih fun other hother =>
        hone other (List.mem_cons_of_mem segment hother)]
      rfl
  have hempty : (decodeURIComponent (String.ofList [])).map (fun decoded => uriEncode decoded false) = some [] := rfl
  unfold canonicalUri
  rw [hsplit,List.mapM_cons,hempty,hall]
  dsimp only [Option.bind_eq_bind,Option.bind_some,Option.pure_def,Option.map_some]
  rw [intercalate_cons,List.nil_append,List.flatMap_map]
  rfl

end Paths

section Queries
variable {keeps : Char → Bool} {pairs : List (List Char × List Char)}

def encodedPair (keeps : Char → Bool) (pair : List Char × List Char) : List Char × List Char :=
  (percentEncode keeps pair.1,percentEncode keeps pair.2)

def queryText (keeps : Char → Bool) (pairs : List (List Char × List Char)) : List Char :=
  List.intercalate ['&'] ((pairs.map (encodedPair keeps)).map pairText)

/-- A set that escapes what has a meaning in a query. -/
structure IsQuerySet (keeps : Char → Bool) : Prop where
  percent : keeps '%' = false
  plus : keeps '+' = false
  ampersand : keeps '&' = false
  equals : keeps '=' = false

theorem mem_percentEncode_ne {c : Char} {text : List Char} (hkeeps : keeps c = false) (hpercent : c ≠ '%')
    (hdigits : ∀ n < 16, c ≠ (Nat.digitChar n).toUpper) : c ∉ percentEncode keeps text := by
  intro hin
  rcases mem_percentEncode hin with h | h | ⟨n,hn,h⟩
  · rw [hkeeps] at h
    cases h
  · exact hpercent h
  · exact hdigits n hn h

theorem ampersand_notMem (hkeeps : IsQuerySet keeps) (pair : List Char × List Char) :
    '&' ∉ pairText (encodedPair keeps pair) := by
  have hnot : ∀ text, '&' ∉ percentEncode keeps text := fun text => mem_percentEncode_ne hkeeps.ampersand (by decide) (by decide)
  intro hin
  rcases List.mem_append.mp hin with hin | hin
  · exact hnot _ hin
  · rcases List.mem_cons.mp hin with h | hin
    · cases h
    · exact hnot _ hin

theorem cut_pairText (hkeeps : IsQuerySet keeps) (pair : List Char × List Char) :
    cut (· = '=') (pairText (encodedPair keeps pair)) = (percentEncode keeps pair.1,some (percentEncode keeps pair.2)) := by
  refine cut_append (fun c hc => decide_eq_false ?_) (decide_eq_true rfl)
  rintro rfl
  exact mem_percentEncode_ne hkeeps.equals (by decide) (by decide) hc

theorem decode_encoded (hkeeps : IsQuerySet keeps) (text : List Char) :
    decodeUtf8 (percentDecode (percentEncode keeps text)) = text ∧ decodeForm (percentEncode keeps text) = text := by
  have hdecode : decodeUtf8 (percentDecode (percentEncode keeps text)) = text := by
    rw [percentDecode_percentEncode hkeeps.percent,decodeUtf8_encodeUtf8]
  have hplus : (percentEncode keeps text).map (fun c => if c = '+' then ' ' else c) = percentEncode keeps text := by
    refine (List.map_congr_left fun c hc => if_neg ?_).trans (List.map_id _)
    rintro rfl
    exact mem_percentEncode_ne hkeeps.plus (by decide) (by decide) hc
  refine ⟨hdecode,?_⟩
  rw [decodeForm,hplus,hdecode]

theorem pieces_joined (h : ∀ pair ∈ pairs, '&' ∉ pairText pair) :
    ((List.intercalate ['&'] (pairs.map pairText)).splitOn '&').filter (fun piece => piece ≠ []) = pairs.map pairText := by
  cases pairs with
  | nil => rfl
  | cons pair rest =>
    have hsplit : (List.intercalate ['&'] ((pair :: rest).map pairText)).splitOn '&' = (pair :: rest).map pairText := by
      refine List.splitOn_intercalate '&' (fun piece hpiece => ?_) (List.cons_ne_nil _ _)
      obtain ⟨other,hother,rfl⟩ := List.mem_map.mp hpiece
      exact h other hother
    rw [hsplit,List.filter_eq_self]
    intro piece hpiece
    obtain ⟨other,-,rfl⟩ := List.mem_map.mp hpiece
    exact decide_eq_true (List.append_ne_nil_of_right_ne_nil _ (List.cons_ne_nil _ _))

theorem pieces_queryText (hkeeps : IsQuerySet keeps) (pairs : List (List Char × List Char)) :
    ((queryText keeps pairs).splitOn '&').filter (fun piece => piece ≠ []) = (pairs.map (encodedPair keeps)).map pairText := by
  refine pieces_joined fun pair hpair => ?_
  obtain ⟨other,-,rfl⟩ := List.mem_map.mp hpair
  exact ampersand_notMem hkeeps other

theorem searchParams_queryText (hkeeps : IsQuerySet keeps) (pairs : List (List Char × List Char)) :
    searchParams (queryText keeps pairs) = pairs := by
  unfold searchParams
  rw [pieces_queryText hkeeps,List.map_map,List.map_map]
  refine (List.map_congr_left fun pair _ => ?_).trans (List.map_id pairs)
  rw [Function.comp_apply,Function.comp_apply,cut_pairText hkeeps]
  dsimp only [Option.getD_some]
  rw [(decode_encoded hkeeps _).2,(decode_encoded hkeeps _).2]
  rfl

theorem percentEncode_queryText (also : Char → Bool) (hpercent : also '%' = true)
    (hdigits : ∀ n < 16, also (Nat.digitChar n).toUpper = true)
    (hmarks : also '&' = true ∧ also '=' = true) (pairs : List (List Char × List Char)) :
    percentEncode also (queryText keeps pairs) = queryText (fun c => keeps c && also c) pairs := by
  have happend : ∀ text more, percentEncode also (text ++ more) = percentEncode also text ++ percentEncode also more :=
    fun text more => List.flatMap_append
  have hcons : ∀ c rest, also c = true → percentEncode also (c :: rest) = c :: percentEncode also rest := by
    intro c rest hc
    rw [percentEncode,List.flatMap_cons,escapeChar_kept hc]
    rfl
  have hpair : ∀ pair, percentEncode also (pairText (encodedPair keeps pair)) =
    pairText (encodedPair (fun c => keeps c && also c) pair) := by
    intro pair
    unfold pairText encodedPair
    dsimp only
    rw [happend,hcons _ _ hmarks.2,percentEncode_percentEncode hpercent hdigits,percentEncode_percentEncode hpercent hdigits]
  cases pairs with
  | nil => rfl
  | cons pair rest =>
    unfold queryText
    rw [List.map_cons,List.map_cons,List.map_cons,List.map_cons,intercalate_cons,intercalate_cons,happend,hpair]
    refine congrArg _ ?_
    induction rest with
    | nil => rfl
    | cons other rest ih =>
      rw [List.map_cons,List.map_cons,List.map_cons,List.map_cons,List.flatMap_cons,List.flatMap_cons,happend,hcons _ _ hmarks.1,
        hpair,ih]

end Queries

end StructureAi.Storage.SigV4

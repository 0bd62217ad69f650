import StructureAi.Storage.S3Requests

/-! # The values of signed headers

What is signed of a value is the value without the white space around it. On the wire it is the value without spaces, tabs and
line ends around it, and its canonical form has no two spaces in a row.
-/
namespace StructureAi.Storage.S3
open StructureAi.Foundation

section Values
variable {cs : List Char}

theorem head_collapseSpaces (cs : List Char) : (collapseSpaces cs).head? = cs.head? := by
  induction cs using collapseSpaces.induct with
  | case1 => rfl
  | case2 c => rfl
  | case3 c d rest hspaces ih =>
    rw [collapseSpaces,if_pos hspaces,ih,hspaces.1,hspaces.2]
    rfl
  | case4 c d rest hspaces ih =>
    rw [collapseSpaces,if_neg hspaces]
    rfl

theorem last_collapseSpaces (cs : List Char) : (collapseSpaces cs).getLast? = cs.getLast? := by
  induction cs using collapseSpaces.induct with
  | case1 => rfl
  | case2 c => rfl
  | case3 c d rest hspaces ih => rw [collapseSpaces,if_pos hspaces,ih,List.getLast?_cons_cons]
  | case4 c d rest hspaces ih =>
    have hne : collapseSpaces (d :: rest) ≠ [] := by
      intro h
      have hhead := head_collapseSpaces (d :: rest)
      rw [h] at hhead
      exact nomatch hhead
    obtain ⟨e,more,hmore⟩ := List.exists_cons_of_ne_nil hne
    rw [collapseSpaces,if_neg hspaces,hmore,List.getLast?_cons_cons,← hmore,ih,List.getLast?_cons_cons]

theorem length_collapseSpaces_le (cs : List Char) : (collapseSpaces cs).length ≤ cs.length := by
  induction cs using collapseSpaces.induct with
  | case1 => exact le_rfl
  | case2 c => exact le_rfl
  | case3 c d rest hspaces ih =>
    rw [collapseSpaces,if_pos hspaces]
    exact ih.trans (Nat.le_succ _)
  | case4 c d rest hspaces ih =>
    rw [collapseSpaces,if_neg hspaces]
    exact Nat.succ_le_succ ih

theorem mem_collapseSpaces {c : Char} (h : c ∈ collapseSpaces cs) : c ∈ cs := by
  induction cs using collapseSpaces.induct with
  | case1 => exact h
  | case2 d => exact h
  | case3 d e rest hspaces ih =>
    rw [collapseSpaces,if_pos hspaces] at h
    exact List.mem_cons_of_mem d (ih h)
  | case4 d e rest hspaces ih =>
    rw [collapseSpaces,if_neg hspaces] at h
    rcases List.mem_cons.mp h with rfl | h
    · exact List.mem_cons_self
    · exact List.mem_cons_of_mem d (ih h)

theorem collapseSpaces_eq_self : collapseSpaces cs = cs ↔ ¬ [' ',' '] <:+: cs := by
  induction cs using collapseSpaces.induct with
  | case1 => exact ⟨fun _ h => absurd (List.IsInfix.length_le h) (by decide),fun _ => rfl⟩
  | case2 c => exact ⟨fun _ h => absurd (List.IsInfix.length_le h) (by simp),fun _ => rfl⟩
  | case3 c d rest hspaces ih =>
    rw [collapseSpaces,if_pos hspaces]
    constructor
    · intro h
      have hlength := length_collapseSpaces_le (d :: rest)
      rw [h] at hlength
      simp at hlength
    · intro h
      exact absurd ⟨[],rest,by rw [hspaces.1,hspaces.2]; rfl⟩ h
  | case4 c d rest hspaces ih =>
    rw [collapseSpaces,if_neg hspaces,List.cons_inj_right,ih]
    refine not_congr (Iff.symm (List.infix_cons_iff.trans (or_iff_right ?_)))
    intro hstart
    obtain ⟨hc,hrest⟩ := List.cons_prefix_cons.mp hstart
    exact hspaces ⟨hc.symm,(List.cons_prefix_cons.mp hrest).1.symm⟩

/-- White space is cut off around the value as HTTP cuts it off, and no two spaces stand in a row inside. -/
structure Clean (value : String) : Prop where
  ends : trim value.toList = sentValue value
  single : ¬ [' ',' '] <:+: trim value.toList

theorem isWhiteSpace_of_http {c : Char} (h : isHttpWhiteSpace c = true) : isWhiteSpace c = true := by
  simp only [isHttpWhiteSpace,Bool.or_eq_true,decide_eq_true_eq] at h
  rcases h with ((rfl | rfl) | rfl) | rfl <;> rfl

theorem not_space_of_http {c : Char} (h : isHttpWhiteSpace c = false) : decide (c = ' ') = false := by
  simp only [isHttpWhiteSpace,Bool.or_eq_false_iff] at h
  exact h.2

theorem trim_sentValue (value : String) : trim (sentValue value) = trim value.toList := by
  obtain ⟨before,after,hsplit,hbefore,hafter⟩ := trimOf_split isHttpWhiteSpace value.toList
  have hsurrounded : trim (before ++ sentValue value ++ after) = trim (sentValue value) :=
    trimOf_surrounded (fun c hc => isWhiteSpace_of_http (hbefore c hc)) fun c hc => isWhiteSpace_of_http (hafter c hc)
  exact hsurrounded.symm.trans (congrArg trim hsplit.symm)

theorem trimOf_sentValue (value : String) : trimOf (· = ' ') (sentValue value) = sentValue value :=
  trimOf_of_ends (fun c hc => not_space_of_http (head_trimOf _ _ c hc)) fun c hc => not_space_of_http (last_trimOf _ _ c hc)

/-- The canonical form of the value on the wire is what is signed of it just where it is clean. -/
theorem clean_iff (value : String) :
    trim value.toList = collapseSpaces (trimOf (· = ' ') (sentValue value)) ↔ Clean value := by
  rw [trimOf_sentValue]
  constructor
  · intro h
    have hends : trim value.toList = sentValue value := by
      have hstart : ∀ c ∈ (sentValue value).head?, isWhiteSpace c = false := by
        rw [← head_collapseSpaces,← h]
        exact head_trimOf _ _
      have hend : ∀ c ∈ (sentValue value).reverse.head?, isWhiteSpace c = false := by
        rw [List.head?_reverse,← last_collapseSpaces,← h,← List.head?_reverse]
        exact last_trimOf _ _
      exact (trim_sentValue value).symm.trans (trimOf_of_ends hstart hend)
    refine ⟨hends,?_⟩
    rw [hends] at h ⊢
    exact collapseSpaces_eq_self.mp h.symm
  · rintro ⟨hends,hsingle⟩
    rw [hends] at hsingle ⊢
    exact (collapseSpaces_eq_self.mpr hsingle).symm

theorem clean_of_visible {value : String} (h : ∀ c ∈ value.toList, isWhiteSpace c = false) : Clean value ∧
    sentValue value = value.toList := by
  have hhttp : ∀ c ∈ value.toList, isHttpWhiteSpace c = false := fun c hc =>
    Bool.eq_false_iff.mpr fun hc' => absurd (isWhiteSpace_of_http hc') (by rw [h c hc]; decide)
  have htrim : trim value.toList = value.toList := trimOf_eq_self h
  have hsent : sentValue value = value.toList := trimOf_eq_self hhttp
  refine ⟨⟨htrim.trans hsent.symm,?_⟩,hsent⟩
  rw [htrim]
  intro hspaces
  exact absurd (h ' ' (hspaces.subset List.mem_cons_self)) (by decide)

end Values

section Names

/-- A name in lower case, as the driver writes it. -/
structure IsName (name : String) : Prop where
  nonempty : name.toList ≠ []
  chars : ∀ c ∈ name.toList, isNameChar c = true

theorem isNameChar_kind {c : Char} (h : isNameChar c = true) :
    c.toNat < 0x80 ∧ c.isUpper = false ∧ c.toLower = c ∧ isWhiteSpace c = false ∧ c ≠ ':' ∧ c ≠ '\n' := by
  have hall : ∀ n < 0x80, isNameChar (Char.ofNat n) = true → (Char.ofNat n).isUpper = false ∧
    (Char.ofNat n).toLower = Char.ofNat n ∧
      isWhiteSpace (Char.ofNat n) = false ∧ Char.ofNat n ≠ ':' ∧ Char.ofNat n ≠ '\n' := by decide +kernel
  have hlow : c.toNat < 0x80 := by
    have hval : c.val.toNat = c.toNat := rfl
    have hz : 'z'.val.toNat = 122 := rfl
    have hnine : '9'.val.toNat = 57 := rfl
    have hdash : '-'.toNat = 45 := rfl
    simp only [isNameChar,Bool.or_eq_true,Bool.and_eq_true,decide_eq_true_eq,Char.le_def,UInt32.le_iff_toNat_le] at h
    rcases h with (⟨-,h⟩ | ⟨-,h⟩) | rfl
    · omega
    · omega
    · omega
  have hone := hall c.toNat hlow
  rw [Char.ofNat_toNat] at hone
  exact ⟨hlow,hone h⟩

theorem IsName.trim {name : String} (h : IsName name) : Foundation.trim name.toList = name.toList :=
  trimOf_eq_self fun c hc => (isNameChar_kind (h.chars c hc)).2.2.2.1

theorem IsName.lowered {name : String} (h : IsName name) : name.toList.map Char.toLower = name.toList :=
  (List.map_congr_left fun c hc => (isNameChar_kind (h.chars c hc)).2.2.1).trans (List.map_id _)

theorem IsName.toLowerCase {name : String} (h : IsName name) (platform : SigV4.Platform) : platform.toLowerCase name = name :=
  platform.toLowerCase_lower name fun c hc => ⟨(isNameChar_kind (h.chars c hc)).1,(isNameChar_kind (h.chars c hc)).2.1⟩

def signingNames : List String := ["host","x-amz-content-sha256","x-amz-date","authorization"]

/-- Headers that signing can be added to. -/
structure Signable (headers : Headers) : Prop where
  names : ∀ name ∈ headers.map Prod.fst, IsName name ∧ name ∉ signingNames
  distinct : (headers.map Prod.fst).Nodup

theorem Signable.nil : Signable [] := ⟨fun _ h => absurd h List.not_mem_nil,List.nodup_nil⟩

theorem Signable.put {headers : Headers} (h : Signable headers) {name : String} (hname : IsName name ∧ name ∉ signingNames)
    (value : String) :
    Signable (Foundation.put name value headers) where
  names other hother := by
    rcases mem_keys_put.mp hother with rfl | hother
    · exact hname
    · exact h.names other hother
  distinct := nodup_put h.distinct

theorem isName_contentType : IsName "content-type" ∧ "content-type" ∉ signingNames :=
  ⟨⟨by decide,fun c hc => List.all_eq_true.mp (by decide : "content-type".toList.all isNameChar = true) c hc⟩,by decide⟩

theorem isName_meta (name : String) (h : ∀ c ∈ name.toList, isNameChar c = true) :
    IsName (metaPrefix ++ name) ∧ metaPrefix ++ name ∉ signingNames := by
  have htext : (metaPrefix ++ name).toList = metaPrefix.toList ++ name.toList := String.toList_append
  refine ⟨⟨?_,fun c hc => ?_⟩,fun hin => ?_⟩
  · rw [htext]
    exact List.append_ne_nil_of_left_ne_nil (by decide) _
  · rw [htext] at hc
    rcases List.mem_append.mp hc with hc | hc
    · exact List.all_eq_true.mp (by decide : metaPrefix.toList.all isNameChar = true) c hc
    · exact h c hc
  · have hstart : metaPrefix.toList <+: (metaPrefix ++ name).toList := htext ▸ List.prefix_append _ _
    have hnone : ∀ other ∈ signingNames, ¬ metaPrefix.toList <+: other.toList := by decide
    exact hnone _ hin hstart

theorem metadataHeaderName_chars {toLowerCase : String → String} {name header : String}
    (h : metadataHeaderName toLowerCase name = some header) :
    ∀ c ∈ header.toList, isNameChar c = true := by
  rw [metadataHeaderName] at h
  split at h
  · cases h
  · obtain rfl := Option.some.inj h
    intro c hc
    rw [String.toList_ofList] at hc
    obtain ⟨d,-,rfl⟩ := List.mem_map.mp hc
    by_cases hd : isNameChar d = true
    · rw [if_pos hd]
      exact hd
    · rw [if_neg hd]
      rfl

theorem signable_metaHeaders (toLowerCase : String → String) (input : PutInput) : Signable (metaHeaders toLowerCase input) := by
  have hstart : Signable [("content-type",input.contentType),("x-amz-meta-disposition",input.declared)] := by
    have hdisposition := isName_meta "disposition" fun c hc =>
      List.all_eq_true.mp (by decide : "disposition".toList.all isNameChar = true) c hc
    exact (Signable.nil.put isName_contentType input.contentType).put hdisposition input.declared
  rw [metaHeaders]
  generalize [("content-type",input.contentType),("x-amz-meta-disposition",input.declared)] = headers at hstart
  induction input.metadata.getD [] generalizing headers with
  | nil => exact hstart
  | cons entry entries ih =>
    refine ih _ ?_
    rw [setMetadata]
    cases hname : metadataHeaderName toLowerCase entry.1 with
    | none => exact hstart
    | some header => exact hstart.put (isName_meta header (metadataHeaderName_chars hname)) _

theorem signable_completeHeaders (toLowerCase : String → String) (input : PutInput) :
    Signable (completeHeaders (metaHeaders toLowerCase input)) :=
  (signable_metaHeaders toLowerCase input).put isName_contentType _

end Names

section Rows
variable {headers : Headers}

theorem put_of_not_mem {name value : String} (h : name ∉ headers.map Prod.fst) : Foundation.put name value headers = headers ++
    [(name,value)] := by
  induction headers with
  | nil => rfl
  | cons header headers ih =>
    rw [List.map_cons,List.mem_cons,not_or] at h
    rw [Foundation.put,if_neg (Ne.symm h.1),ih h.2,List.cons_append]

theorem foldl_put {start : Headers} (hn : (headers.map Prod.fst).Nodup)
    (hfresh : ∀ name ∈ headers.map Prod.fst, name ∉ start.map Prod.fst) :
    headers.foldl (fun headers header => Foundation.put header.1 header.2 headers) start = start ++ headers := by
  induction headers generalizing start with
  | nil => exact (List.append_nil start).symm
  | cons header headers ih =>
    rw [List.map_cons,List.nodup_cons] at hn
    rw [List.foldl_cons,put_of_not_mem (hfresh header.1 List.mem_cons_self)]
    refine (ih hn.2 fun name hname => ?_).trans (List.append_assoc _ _ _)
    rw [List.map_append,List.mem_append,not_or]
    refine ⟨hfresh name (List.mem_cons_of_mem _ hname),fun hin => hn.1 ?_⟩
    rw [List.map_singleton,List.mem_singleton] at hin
    exact hin ▸ hname

/-- What signing adds before the headers of the request. -/
def signingHeaders (options : SigV4.Options) : Headers :=
  [("host",options.url.host),("x-amz-content-sha256",options.payloadHash),("x-amz-date",String.ofList (SigV4.amzDate options))]

theorem isName_signing : ∀ name ∈ ["host","x-amz-content-sha256","x-amz-date"], IsName name := by
  intro name hname
  have hall : ["host","x-amz-content-sha256","x-amz-date"].all (fun name => name.toList ≠ [] && name.toList.all isNameChar) =
    true := by decide
  have hone := List.all_eq_true.mp hall name hname
  rw [Bool.and_eq_true,decide_eq_true_eq] at hone
  exact ⟨hone.1,fun c hc => List.all_eq_true.mp hone.2 c hc⟩

theorem allHeaders_eq (options : SigV4.Options) (h : Signable options.headers) :
    SigV4.allHeaders options = signingHeaders options ++ options.headers := by
  refine foldl_put h.distinct fun name hname hin => (h.names name hname).2 ?_
  have hsub : ∀ other ∈ ["host","x-amz-content-sha256","x-amz-date"], other ∈ signingNames := by decide
  exact hsub name hin

theorem names_allHeaders (options : SigV4.Options) (h : Signable options.headers) :
    (∀ name ∈ (SigV4.allHeaders options).map Prod.fst, IsName name ∧ name ≠ "authorization") ∧
    ((SigV4.allHeaders options).map Prod.fst).Nodup := by
  have hsigning : ∀ name ∈ (signingHeaders options).map Prod.fst, name ∈ signingNames ∧ name ≠ "authorization" := by
    have hall : ∀ name ∈ ["host","x-amz-content-sha256","x-amz-date"], name ∈ signingNames ∧ name ≠ "authorization" := by decide
    exact hall
  have hdistinct : ((signingHeaders options).map Prod.fst).Nodup :=
    (by decide : ["host","x-amz-content-sha256","x-amz-date"].Nodup)
  rw [allHeaders_eq options h,List.map_append]
  refine ⟨fun name hname => ?_,List.nodup_append.mpr ⟨hdistinct,h.distinct,?_⟩⟩
  · rcases List.mem_append.mp hname with hin | hin
    · exact ⟨isName_signing name hin,(hsigning name hin).2⟩
    · obtain ⟨hkind,hother⟩ := h.names name hin
      refine ⟨hkind,?_⟩
      rintro rfl
      exact hother (by decide)
  · intro name hin other hother heq
    exact (h.names other hother).2 (heq ▸ (hsigning name hin).1)

def signedRows (headers : Headers) : List (List Char × List Char) :=
    headers.map fun header => (header.1.toList,trim header.2.toList)

def formRows (headers : Headers) : List (List Char × List Char) :=
  headers.map fun header => (header.1.toList,collapseSpaces (trimOf (· = ' ') (sentValue header.2)))

theorem canonicalHeaders_eq (platform : SigV4.Platform) (h : ∀ name ∈ headers.map Prod.fst, IsName name) :
    SigV4.canonicalHeaders platform headers =
      (((signedRows headers).mergeSort fun a b => (platform.localeCompare a.1 b.1).isLE).flatMap SigV4.headerText,
        List.intercalate [';'] (((signedRows headers).mergeSort fun a b =>
          (platform.localeCompare a.1 b.1).isLE).map Prod.fst)) := by
  have hrows : (headers.map fun header => ((platform.toLowerCase (String.ofList (trim header.1.toList))).toList,
    trim header.2.toList)) =
      signedRows headers := by
    refine List.map_congr_left fun header hheader => ?_
    have hname := h header.1 (List.mem_map_of_mem hheader)
    rw [hname.trim,String.ofList_toList,hname.toLowerCase]
  rw [SigV4.canonicalHeaders,hrows]

theorem formHeaders_eq {authorization : String} (h : ∀ name ∈ headers.map Prod.fst, IsName name ∧ name ≠ "authorization") :
    formHeaders ((headers ++ [("authorization",authorization)]).map fun header =>
      (header.1,String.ofList (sentValue header.2))) =
      (formRows headers).mergeSort fun a b => byteLe a.1 b.1 := by
  have hkept : (headers.map fun header => (header.1,String.ofList (sentValue header.2))).filter (fun header =>
    header.1 ≠ "authorization") =
      headers.map fun header => (header.1,String.ofList (sentValue header.2)) := by
    refine List.filter_eq_self.mpr fun header hheader => ?_
    obtain ⟨other,hother,rfl⟩ := List.mem_map.mp hheader
    exact decide_eq_true (h other.1 (List.mem_map_of_mem hother)).2
  have hdropped : ([("authorization",authorization)].map fun header => (header.1,String.ofList (sentValue header.2))).filter
      (fun header => header.1 ≠ "authorization") = [] := rfl
  rw [formHeaders,List.map_append,List.filter_append,hkept,hdropped,List.append_nil,List.map_map]
  congr 1
  refine List.map_congr_left fun header hheader => ?_
  rw [Function.comp_apply,(h header.1 (List.mem_map_of_mem hheader)).1.lowered,String.toList_ofList]

theorem rows_eq_iff (headers : Headers) : signedRows headers = formRows headers ↔ ∀ header ∈ headers, Clean header.2 := by
  refine List.map_inj_left.trans (forall₂_congr fun header _ => ?_)
  rw [Prod.mk.injEq,and_iff_right rfl]
  exact clean_iff header.2

end Rows

end StructureAi.Storage.S3

import StructureAi.Storage.SignedAsSent

/-! # What is hashed and what is sent

The canonical request that is hashed is the canonical form of the request that is sent just where no value of a header has two
spaces in a row, and the platform sorts the names of the headers and the keys of the query as their bytes are.
-/
namespace StructureAi.Storage.S3
open StructureAi.Foundation

section Sorting
variable (platform : SigV4.Platform)

/-- The comparison of the platform sorts the texts as their bytes are. -/
def SameOrder (texts : List (List Char)) : Prop :=
  texts.mergeSort (fun a b => (platform.localeCompare a b).isLE) = texts.mergeSort byteLe

variable {platform}

theorem sameOrder_of_byteLe (h : ∀ a b, (platform.localeCompare a b).isLE = byteLe a b) (texts : List (List Char)) :
    SameOrder platform texts :=
  congrArg (fun le => texts.mergeSort le) (funext fun a => funext fun b => h a b)

theorem byteLe_self (text : List Char) : byteLe text text = true := decide_eq_true le_rfl

variable (platform) {rows : List (List Char × List Char)}

theorem comparePairs_eq (hn : (rows.map Prod.fst).Nodup) :
    ∀ a ∈ rows, ∀ b ∈ rows, SigV4.comparePairs platform a b = (platform.localeCompare a.1 b.1).isLE := by
  intro a ha b hb
  rw [SigV4.comparePairs]
  by_cases hkey : a.1 = b.1
  · obtain rfl := List.inj_on_of_nodup_map hn ha hb hkey
    rw [if_pos rfl,platform.localeCompare_self,platform.localeCompare_self]
  · rw [if_neg hkey]

theorem bytePairs_eq (hn : (rows.map Prod.fst).Nodup) :
    ∀ a ∈ rows, ∀ b ∈ rows, (if a.1 = b.1 then byteLe a.2 b.2 else byteLe a.1 b.1) = byteLe a.1 b.1 := by
  intro a ha b hb
  by_cases hkey : a.1 = b.1
  · obtain rfl := List.inj_on_of_nodup_map hn ha hb hkey
    rw [if_pos rfl,byteLe_self,byteLe_self]
  · rw [if_neg hkey]

end Sorting

section Queries
variable (platform : SigV4.Platform) {pairs : List (List Char × List Char)}

theorem isQuerySet_isUriChar : SigV4.IsQuerySet SigV4.isUriChar := ⟨rfl,rfl,rfl,rfl⟩

theorem isQuerySet_keepsSent : SigV4.IsQuerySet keepsSent := ⟨rfl,rfl,rfl,rfl⟩

def queryRows (pairs : List (List Char × List Char)) : List (List Char × List Char) :=
    pairs.map (SigV4.encodedPair SigV4.isUriChar)

theorem canonicalQuery_eq (pairs : List (List Char × List Char)) :
    SigV4.canonicalQuery platform (SigV4.queryText keepsSent pairs) =
      List.intercalate ['&'] (((queryRows pairs).mergeSort (SigV4.comparePairs platform)).map SigV4.pairText) := by
  have hrows : pairs.map (fun pair => (SigV4.uriEncode pair.1 true,SigV4.uriEncode pair.2 true)) = queryRows pairs := by
    refine List.map_congr_left fun pair _ => ?_
    rw [SigV4.uriEncode_true,SigV4.uriEncode_true]
    rfl
  rw [SigV4.canonicalQuery,SigV4.searchParams_queryText isQuerySet_keepsSent,hrows]

theorem formQuery_eq (pairs : List (List Char × List Char)) :
    formQuery (SigV4.queryText keepsSent pairs) =
      (queryRows pairs).mergeSort fun a b => if a.1 = b.1 then byteLe a.2 b.2 else byteLe a.1 b.1 := by
  have hrows : ((pairs.map (SigV4.encodedPair keepsSent)).map SigV4.pairText).map (fun piece =>
      (percentEncode SigV4.isUriChar (decodeUtf8 (percentDecode (cut (· = '=') piece).1)),
        percentEncode SigV4.isUriChar (decodeUtf8 (percentDecode ((cut (· = '=') piece).2.getD []))))) = queryRows pairs := by
    rw [List.map_map,List.map_map]
    refine List.map_congr_left fun pair _ => ?_
    rw [Function.comp_apply,Function.comp_apply,SigV4.cut_pairText isQuerySet_keepsSent]
    dsimp only [Option.getD_some]
    rw [(SigV4.decode_encoded isQuerySet_keepsSent pair.1).1,(SigV4.decode_encoded isQuerySet_keepsSent pair.2).1]
    rfl
  rw [formQuery,SigV4.pieces_queryText isQuerySet_keepsSent,hrows]

theorem isPair_queryRows : ∀ row ∈ queryRows pairs, IsPair row ∧ '\n' ∉ SigV4.pairText row := by
  intro row hrow
  obtain ⟨pair,-,rfl⟩ := List.mem_map.mp hrow
  refine ⟨⟨SigV4.ampersand_notMem isQuerySet_isUriChar pair,SigV4.mem_percentEncode_ne rfl (by decide) (by decide)⟩,
    fun hin => ?_⟩
  have hnot : ∀ text, '\n' ∉ percentEncode SigV4.isUriChar text :=
    fun text => SigV4.mem_percentEncode_ne rfl (by decide) (by decide)
  rcases List.mem_append.mp hin with hin | hin
  · exact hnot _ hin
  · rcases List.mem_cons.mp hin with h | hin
    · cases h
    · exact hnot _ hin

theorem keys_queryRows (hkeys : ∀ pair ∈ pairs, ∀ c ∈ pair.1, SigV4.isUriChar c = true) : (queryRows pairs).map Prod.fst =
    pairs.map Prod.fst := by
  rw [queryRows,List.map_map]
  exact List.map_congr_left fun pair hpair => percentEncode_kept (hkeys pair hpair)

/-- The query that is hashed is that of the wire just where its keys are sorted as their bytes are. -/
theorem canonicalQuery_iff (hkeys : ∀ pair ∈ pairs, ∀ c ∈ pair.1, SigV4.isUriChar c = true) (hn : (pairs.map Prod.fst).Nodup) :
    SigV4.canonicalQuery platform (SigV4.queryText keepsSent pairs) =
        List.intercalate ['&'] ((formQuery (SigV4.queryText keepsSent pairs)).map SigV4.pairText) ↔
      SameOrder platform (pairs.map Prod.fst) := by
  have hrowKeys := keys_queryRows hkeys
  have hrowNodup : ((queryRows pairs).map Prod.fst).Nodup := hrowKeys.symm ▸ hn
  have hpairs : ∀ le : List Char × List Char → List Char × List Char → Bool, ∀ row ∈ (queryRows pairs).mergeSort le,
    IsPair row :=
    fun le row hrow => (isPair_queryRows row (List.mem_mergeSort.mp hrow)).1
  rw [canonicalQuery_eq,formQuery_eq]
  have hsorted : (queryRows pairs).mergeSort (SigV4.comparePairs platform) =
      (queryRows pairs).mergeSort (fun a b => if a.1 = b.1 then byteLe a.2 b.2 else byteLe a.1 b.1) ↔
        SameOrder platform (pairs.map Prod.fst) := by
    have hiff := sorted_eq_iff (fun a b => (platform.localeCompare a b).isLE) byteLe (comparePairs_eq platform hrowNodup)
      (bytePairs_eq hrowNodup)
      rfl hrowNodup
    rwa [and_iff_left rfl,hrowKeys] at hiff
  exact ⟨fun h => hsorted.mp (joinedPairs_inj (hpairs _) (hpairs _) h),fun h => congrArg _ (congrArg _ (hsorted.mpr h))⟩

end Queries

section Headers
variable (platform : SigV4.Platform) {headers : Headers}

theorem newline_sent {value : String} (h : isSendable (sentValue value) = true) : '\n' ∉ sentValue value := fun hin => by
  have hone := List.all_eq_true.mp h '\n' hin
  exact absurd hone (by decide)

theorem isName_line {name : String} (h : IsName name) : name.toList ≠ [] ∧ ':' ∉ name.toList ∧ '\n' ∉ name.toList :=
  ⟨h.nonempty,fun hin => (isNameChar_kind (h.chars ':' hin)).2.2.2.2.1 rfl,fun hin =>
    (isNameChar_kind (h.chars '\n' hin)).2.2.2.2.2 rfl⟩

theorem isLine_rows (hnames : ∀ name ∈ headers.map Prod.fst, IsName name)
    (hsent : ∀ header ∈ headers, isSendable (sentValue header.2) = true) :
    (∀ row ∈ signedRows headers, IsLine row) ∧ ∀ row ∈ formRows headers, IsLine row := by
  constructor
  · intro row hrow
    obtain ⟨header,hheader,rfl⟩ := List.mem_map.mp hrow
    refine ⟨isName_line (hnames header.1 (List.mem_map_of_mem hheader)),fun hin => newline_sent (hsent header hheader) ?_⟩
    rw [← trim_sentValue] at hin
    exact (trimOf_sublist _ _).subset hin
  · intro row hrow
    obtain ⟨header,hheader,rfl⟩ := List.mem_map.mp hrow
    refine ⟨isName_line (hnames header.1 (List.mem_map_of_mem hheader)),fun hin => newline_sent (hsent header hheader) ?_⟩
    exact (trimOf_sublist _ _).subset (mem_collapseSpaces hin)

/-- The headers that are hashed are those of the wire just where the names are sorted as their bytes are and the values are
  clean. -/
theorem sortedRows_iff (hn : (headers.map Prod.fst).Nodup) :
    ((signedRows headers).mergeSort fun a b => (platform.localeCompare a.1 b.1).isLE) =
      ((formRows headers).mergeSort fun a b => byteLe a.1 b.1) ↔
      SameOrder platform (headers.map fun header => header.1.toList) ∧ ∀ header ∈ headers, Clean header.2 := by
  have hsigned : (signedRows headers).map Prod.fst = headers.map fun header => header.1.toList := List.map_map
  have hform : (formRows headers).map Prod.fst = headers.map fun header => header.1.toList := List.map_map
  have hdistinct : ((signedRows headers).map Prod.fst).Nodup := by
    have hmap := hn.map fun _ _ => String.toList_inj.mp
    rw [List.map_map] at hmap
    exact hsigned ▸ hmap
  rw [sorted_eq_iff (fun a b => (platform.localeCompare a b).isLE) byteLe (fun _ _ _ _ => rfl) (fun _ _ _ _ => rfl)
    (hsigned.trans hform.symm) hdistinct,
    rows_eq_iff,hsigned]
  rfl

end Headers

section Lines
variable {method path query query' payload : List Char} {rows rows' : List (List Char × List Char)}

/-- The text of a request, of its query and the rows of its headers. -/
def requestText (method path query : List Char) (rows : List (List Char × List Char)) (payload : List Char) : List Char :=
  SigV4.lines [method,path,query,rows.flatMap SigV4.headerText,List.intercalate [';'] (rows.map Prod.fst),payload]

theorem requestText_inj (hquery : '\n' ∉ query) (hquery' : '\n' ∉ query') (hrows : ∀ row ∈ rows, IsLine row)
    (hrows' : ∀ row ∈ rows', IsLine row) :
    requestText method path query rows payload = requestText method path query' rows' payload ↔ query = query' ∧
      rows = rows' := by
  have hform : ∀ query rows, requestText method path query rows payload = method ++ '\n' :: (path ++ '\n' :: (query ++ '\n' ::
      (rows.flatMap SigV4.headerText ++ '\n' :: (List.intercalate [';'] (rows.map Prod.fst) ++ '\n' :: payload)))) := by
    intro query rows
    rw [requestText,SigV4.lines,intercalate_cons]
    simp only [List.flatMap_cons,List.flatMap_nil,List.append_nil,List.cons_append]
  constructor
  · intro h
    rw [hform,hform] at h
    have hafter := (List.cons.inj (List.append_cancel_left (List.cons.inj (List.append_cancel_left h)).2)).2
    obtain ⟨hsame,hlines⟩ := append_cons_cancel hquery hquery' hafter
    exact ⟨hsame,(headerLines_inj hrows hrows' hlines).1⟩
  · rintro ⟨rfl,rfl⟩
    rfl

end Lines

section Visible

theorem visible_hexDigest (bytes : List UInt8) : ∀ c ∈ (SigV4.hexDigest bytes).toList, isWhiteSpace c = false := by
  have hall : ∀ n < 16, isWhiteSpace (Nat.digitChar n) = false := by decide
  intro c hc
  rw [SigV4.hexDigest,String.toList_ofList] at hc
  obtain ⟨byte,-,hin⟩ := List.mem_flatMap.mp hc
  have hbyte := byte.toNat_lt
  rcases List.mem_pair.mp hin with rfl | rfl
  · exact hall _ (by omega)
  · exact hall _ (by omega)

theorem mem_compactTime {c : Char} {cs : List Char} (h : c ∈ SigV4.compactTime cs) : c ∈ cs := by
  induction cs using SigV4.compactTime.induct with
  | case1 a b d rest hdigits ih =>
    rw [SigV4.compactTime,if_pos hdigits] at h
    exact List.mem_append_right ['.',a,b,d] (ih h)
  | case2 a b d rest hdigits ih =>
    rw [SigV4.compactTime,if_neg hdigits] at h
    rcases List.mem_cons.mp h with rfl | h
    · exact List.mem_cons_self
    · exact List.mem_cons_of_mem '.' (ih h)
  | case3 d rest hnot hmark ih =>
    rw [SigV4.compactTime,if_pos hmark] at h
    · exact List.mem_cons_of_mem d (ih h)
    · exact hnot
  | case4 d rest hnot hmark ih =>
    rw [SigV4.compactTime,if_neg hmark] at h
    · rcases List.mem_cons.mp h with rfl | h
      · exact List.mem_cons_self
      · exact List.mem_cons_of_mem d (ih h)
    · exact hnot
  | case5 => exact h

end Visible

section Result
variable {options : S3StorageOptions} {platform : SigV4.Platform} (placed : Placed options platform.urls) (now : String)
    (operation : Operation)

def Placed.signing : SigV4.Options :=
  ⟨operation.method,placed.url operation,operation.headers,SigV4.sha256Hex platform operation.payload,now⟩

def Operation.signedNames (operation : Operation) : List (List Char) :=
  (["host","x-amz-content-sha256","x-amz-date"] ++ operation.headers.map Prod.fst).map String.toList

variable {placed now operation}

theorem keys_pairs (options : S3StorageOptions) (operation : Operation) :
    (∀ pair ∈ operation.pairs options, ∀ c ∈ pair.1, SigV4.isUriChar c = true) ∧
      ((operation.pairs options).map Prod.fst).Nodup := by
  have hkind : ∃ keys ∈ [[],["uploads"],["partNumber","uploadId"],["uploadId"],["list-type","prefix"]],
      (operation.pairs options).map Prod.fst = keys.map String.toList := by
    cases operation with
    | get key => exact ⟨[],by decide,rfl⟩
    | head key => exact ⟨[],by decide,rfl⟩
    | delete key => exact ⟨[],by decide,rfl⟩
    | list searched => exact ⟨["list-type","prefix"],by decide,rfl⟩
    | object key request =>
      cases request with
      | put headers body => exact ⟨[],by decide,rfl⟩
      | initiate headers => exact ⟨["uploads"],by decide,rfl⟩
      | part uploadId number headers body => exact ⟨["partNumber","uploadId"],by decide,rfl⟩
      | complete uploadId headers body => exact ⟨["uploadId"],by decide,rfl⟩
      | abort uploadId => exact ⟨["uploadId"],by decide,rfl⟩
  have hall : ∀ keys ∈ [[],["uploads"],["partNumber","uploadId"],["uploadId"],["list-type","prefix"]],
      (∀ key ∈ keys.map String.toList, key.all SigV4.isUriChar = true) ∧ (keys.map String.toList).Nodup := by decide
  obtain ⟨keys,hkeys,heq⟩ := hkind
  obtain ⟨hplain,hdistinct⟩ := hall keys hkeys
  rw [← heq] at hplain hdistinct
  exact ⟨fun pair hpair c hc => List.all_eq_true.mp (hplain pair.1 (List.mem_map_of_mem hpair)) c hc,hdistinct⟩

theorem clean_signing (hnow : ∀ c ∈ now.toList, isWhiteSpace c = false) :
    ∀ header ∈ signingHeaders (placed.signing now operation), Clean header.2 ∧ sentValue header.2 = header.2.toList := by
  have hhost : ∀ c ∈ (placed.url operation).host.toList, isWhiteSpace c = false := by
    intro c hc
    rw [Url.host,String.toList_ofList,Placed.url,String.toList_ofList] at hc
    exact (placed.host_marks.2 c hc).2
  have hdate : ∀ c ∈ (String.ofList (SigV4.amzDate (placed.signing now operation))).toList, isWhiteSpace c = false := by
    intro c hc
    rw [String.toList_ofList] at hc
    exact hnow c (mem_compactTime hc)
  intro header hheader
  rcases List.mem_cons.mp hheader with rfl | hheader
  · exact clean_of_visible hhost
  · rcases List.mem_pair.mp hheader with rfl | rfl
    · exact clean_of_visible (visible_hexDigest _)
    · exact clean_of_visible hdate

theorem signing_placed (hpath : SigV4.IsPath (placed.parts operation)) : operation.signing options platform now =
    some (placed.signing now operation) := by
  rw [Operation.signing,url_placed platform placed hpath]
  rfl

theorem canonicalRequest_placed (hpath : SigV4.IsPath (placed.parts operation)) (h : Signable operation.headers) :
    SigV4.canonicalRequest platform (placed.signing now operation) =
      some (requestText operation.method.toList (SigV4.encodedPath (placed.parts operation))
        (SigV4.canonicalQuery platform (SigV4.queryText keepsSent (operation.pairs options)))
        ((signedRows (SigV4.allHeaders (placed.signing now operation))).mergeSort fun a b =>
          (platform.localeCompare a.1 b.1).isLE)
        (placed.signing now operation).payloadHash.toList) := by
  have hnames := (names_allHeaders (placed.signing now operation) h).1
  have huri : SigV4.canonicalUri (placed.signing now operation).url.pathname.toList =
    some (SigV4.encodedPath (placed.parts operation)) := by
    have htext : (placed.signing now operation).url.pathname.toList = SigV4.encodedPath (placed.parts operation) :=
      String.toList_ofList
    rw [htext,SigV4.canonicalUri_encoded hpath]
  rw [SigV4.canonicalRequest,huri,canonicalHeaders_eq platform fun name hname => (hnames name hname).1]
  rfl

theorem isSendable_append (text more : List Char) : isSendable (text ++ more) = (isSendable text && isSendable more) :=
    List.all_append

theorem isSendable_sentValue {value : String} (h : isSendable value.toList = true) : isSendable (sentValue value) = true :=
  List.all_eq_true.mpr fun c hc => List.all_eq_true.mp h c ((trimOf_sublist _ _).subset hc)

theorem isSendable_hexDigest (bytes : List UInt8) : isSendable (SigV4.hexDigest bytes).toList = true := by
  have hall : ∀ n < 16, isSendable [Nat.digitChar n] = true := by decide
  rw [SigV4.hexDigest,String.toList_ofList,isSendable,List.all_flatMap]
  refine List.all_eq_true.mpr fun byte _ => ?_
  have hbyte := byte.toNat_lt
  have hfirst := hall (byte.toNat / 16) (by omega)
  have hsecond := hall (byte.toNat % 16) (by omega)
  exact (isSendable_append [_] [_]).trans (Bool.and_eq_true_iff.mpr ⟨hfirst,hsecond⟩)

theorem isSendable_names {names : List (List Char)} (h : ∀ name ∈ names, ∀ c ∈ name, isNameChar c = true) :
    isSendable (List.intercalate [';'] names) = true := by
  refine List.all_eq_true.mpr fun c hc => ?_
  rcases mem_intercalate hc with rfl | ⟨name,hname,hin⟩
  · decide
  · have hkind := h name hname c hin
    have hall : ∀ n < 0x80, isNameChar (Char.ofNat n) = true → isSendable [Char.ofNat n] = true := by decide +kernel
    have hone := hall c.toNat (isNameChar_kind hkind).1
    rw [Char.ofNat_toNat] at hone
    exact (Bool.and_true _).symm.trans (hone hkind)

/-- Credentials and a date that can stand in a header. -/
structure Printed (credentials : SigV4.Credentials) (now : String) : Prop where
  accessKeyId : isSendable credentials.accessKeyId.toList = true
  region : isSendable credentials.region.toList = true
  service : isSendable credentials.service.toList = true
  now : isSendable now.toList = true

theorem signRequest_placed (credentials : SigV4.Credentials) (hpath : SigV4.IsPath (placed.parts operation))
    (h : Signable operation.headers) :
    ∃ authorization, SigV4.signRequest platform (placed.signing now operation) credentials =
      some ⟨(placed.url operation).href,operation.method,SigV4.allHeaders (placed.signing now operation) ++
        [("authorization",authorization)]⟩ ∧
      (Printed credentials now → isSendable authorization.toList = true) := by
  have hnames := (names_allHeaders (placed.signing now operation) h).1
  rw [SigV4.signRequest,canonicalRequest_placed hpath h,Option.map_some]
  dsimp only
  rw [put_of_not_mem fun hin => (hnames _ hin).2 rfl]
  refine ⟨_,rfl,fun hprinted => ?_⟩
  have hdate : isSendable ((SigV4.amzDate (placed.signing now operation)).take 8) = true :=
    List.all_eq_true.mpr fun c hc => List.all_eq_true.mp hprinted.now c (mem_compactTime (List.mem_of_mem_take hc))
  have hsigned : isSendable (SigV4.canonicalHeaders platform (SigV4.allHeaders (placed.signing now operation))).2 = true := by
    rw [canonicalHeaders_eq platform fun name hname => (hnames name hname).1]
    refine isSendable_names fun name hname => ?_
    obtain ⟨row,hrow,rfl⟩ := List.mem_map.mp hname
    obtain ⟨header,hheader,rfl⟩ := List.mem_map.mp (List.mem_mergeSort.mp hrow)
    exact (hnames header.1 (List.mem_map_of_mem hheader)).1.chars
  have hcons : ∀ text, isSendable ('/' :: text) = isSendable text := fun text => rfl
  simp only [String.toList_ofList,isSendable_append,hcons,hprinted.accessKeyId,hprinted.region,hprinted.service,hdate,hsigned,
    isSendable_hexDigest,Bool.and_true]
  decide

theorem send_placed {headers : Headers} {wire : WireRequest} (hpath : SigV4.IsPath (placed.parts operation))
    (h : send platform ⟨(placed.url operation).href,operation.method,headers⟩ = some wire) :
    (∀ header ∈ headers, isSendable (sentValue header.2) = true) ∧
    wire = ⟨operation.method,SigV4.encodedPath (placed.parts operation),SigV4.queryText keepsSent (operation.pairs options),
      headers.map fun header => (header.1,String.ofList (sentValue header.2))⟩ := by
  rw [send,parseUrl_href hpath] at h
  split at h
  · rename_i hall
    refine ⟨List.all_eq_true.mp hall,(Option.some.inj h).symm.trans ?_⟩
    have hpathname : (placed.url operation).pathname.toList = SigV4.encodedPath (placed.parts operation) := String.toList_ofList
    dsimp only
    rw [hpathname]
    rfl
  · cases h

theorem send_of_sendable {headers : Headers} (hpath : SigV4.IsPath (placed.parts operation))
    (h : ∀ header ∈ headers, isSendable header.2.toList = true) :
    ∃ wire, send platform ⟨(placed.url operation).href,operation.method,headers⟩ = some wire := by
  rw [send,parseUrl_href hpath,if_pos (List.all_eq_true.mpr fun header hheader => isSendable_sentValue (h header hheader))]
  exact ⟨_,rfl⟩

theorem signed_sent {authorization : String} (hpath : SigV4.IsPath (placed.parts operation))
    (hheaders : Signable operation.headers)
    (hprinted : Printed options.credentials now) (hauthorization : isSendable authorization.toList = true)
    (hhost : isSendable (hostText placed.hostname placed.port) = true)
      (hvalues : ∀ header ∈ operation.headers, isSendable header.2.toList = true) :
    ∃ wire, send platform ⟨(placed.url operation).href,operation.method,
      SigV4.allHeaders (placed.signing now operation) ++ [("authorization",authorization)]⟩ = some wire := by
  have hsigning : ∀ header ∈ signingHeaders (placed.signing now operation), isSendable header.2.toList = true := by
    intro header hheader
    rcases List.mem_cons.mp hheader with rfl | hheader
    · have hname : (placed.url operation).host.toList = hostText placed.hostname placed.port := by
        rw [Url.host,String.toList_ofList,Placed.url,String.toList_ofList]
      exact hname ▸ hhost
    · rcases List.mem_pair.mp hheader with rfl | rfl
      · exact isSendable_hexDigest _
      · refine List.all_eq_true.mpr fun c hc => List.all_eq_true.mp hprinted.now c (mem_compactTime ?_)
        rwa [String.toList_ofList] at hc
  refine send_of_sendable hpath fun header hheader => ?_
  rw [allHeaders_eq _ hheaders] at hheader
  rcases List.mem_append.mp hheader with hin | hin
  · rcases List.mem_append.mp hin with hin | hin
    · exact hsigning header hin
    · exact hvalues header hin
  · rw [List.mem_singleton.mp hin]
    exact hauthorization

theorem canonicalForm_placed {authorization : String} (hnow : ∀ c ∈ now.toList, isWhiteSpace c = false)
    (h : Signable operation.headers) :
    canonicalForm ⟨operation.method,SigV4.encodedPath (placed.parts operation),
      SigV4.queryText keepsSent (operation.pairs options),
        (SigV4.allHeaders (placed.signing now operation) ++ [("authorization",authorization)]).map
          fun header => (header.1,String.ofList (sentValue header.2))⟩ =
      requestText operation.method.toList (SigV4.encodedPath (placed.parts operation))
        (List.intercalate ['&'] ((formQuery (SigV4.queryText keepsSent (operation.pairs options))).map SigV4.pairText))
        ((formRows (SigV4.allHeaders (placed.signing now operation))).mergeSort fun a b => byteLe a.1 b.1)
        (placed.signing now operation).payloadHash.toList := by
  have hhash : ("x-amz-content-sha256",(placed.signing now operation).payloadHash) ∈ signingHeaders
    (placed.signing now operation) :=
    List.mem_cons_of_mem _ List.mem_cons_self
  have hlookup : (((SigV4.allHeaders (placed.signing now operation) ++ [("authorization",authorization)]).map
      fun header => (header.1,String.ofList (sentValue header.2))).lookup "x-amz-content-sha256").getD "" =
        (placed.signing now operation).payloadHash := by
    rw [allHeaders_eq _ h]
    refine Eq.trans (b := String.ofList (sentValue (placed.signing now operation).payloadHash)) rfl ?_
    rw [(clean_signing hnow _ hhash).2,String.ofList_toList]
  rw [canonicalForm]
  dsimp only
  rw [formHeaders_eq (names_allHeaders _ h).1,hlookup]
  rfl

/-- Of signed headers that are sent, what is hashed and what is sent agree on the values and on both orders, or not at all. -/
theorem hashed_iff {authorization : String} {wire : WireRequest} (hnow : ∀ c ∈ now.toList, isWhiteSpace c = false)
    (hpath : SigV4.IsPath (placed.parts operation)) (hheaders : Signable operation.headers)
    (hsend : send platform ⟨(placed.url operation).href,operation.method,
      SigV4.allHeaders (placed.signing now operation) ++ [("authorization",authorization)]⟩ = some wire) :
    SigV4.canonicalRequest platform (placed.signing now operation) = some (canonicalForm wire) ↔
      (∀ header ∈ operation.headers, Clean header.2) ∧ SameOrder platform operation.signedNames ∧
        SameOrder platform ((operation.pairs options).map Prod.fst) := by
  obtain ⟨hsendable,rfl⟩ := send_placed hpath hsend
  have hnames := names_allHeaders (placed.signing now operation) hheaders
  have hlines := isLine_rows (fun name hname => (hnames.1 name hname).1) fun header hheader =>
    hsendable header (List.mem_append_left _ hheader)
  obtain ⟨hplain,hdistinct⟩ := keys_pairs options operation
  have hquery : ∀ le, '\n' ∉ List.intercalate ['&'] (((queryRows (operation.pairs options)).mergeSort le).map
    SigV4.pairText) := by
    intro le hin
    rcases mem_intercalate hin with hmark | ⟨piece,hpiece,hin⟩
    · cases hmark
    · obtain ⟨row,hrow,rfl⟩ := List.mem_map.mp hpiece
      exact (isPair_queryRows row (List.mem_mergeSort.mp hrow)).2 hin
  have hclean : (∀ header ∈ SigV4.allHeaders (placed.signing now operation), Clean header.2) ↔
    ∀ header ∈ operation.headers, Clean header.2 := by
    rw [allHeaders_eq _ hheaders,List.forall_mem_append]
    exact and_iff_right fun header hheader => (clean_signing hnow header hheader).1
  have hsignedNames : (SigV4.allHeaders (placed.signing now operation)).map (fun header => header.1.toList) =
    operation.signedNames := by
    rw [allHeaders_eq _ hheaders,Operation.signedNames,List.map_append,List.map_append,List.map_map]
    rfl
  rw [canonicalRequest_placed hpath hheaders,canonicalForm_placed hnow hheaders,Option.some_inj,
    requestText_inj (canonicalQuery_eq platform _ ▸ hquery _) (formQuery_eq _ ▸ hquery _)
      (fun row hrow => hlines.1 row (List.mem_mergeSort.mp hrow)) (fun row hrow => hlines.2 row (List.mem_mergeSort.mp hrow)),
    canonicalQuery_iff platform hplain hdistinct,sortedRows_iff platform hnames.2,hclean,hsignedNames]
  tauto

/-- What is hashed is the canonical form of what is sent, whose path is the path that is hashed, just where no value of a header
has other white space at its ends than HTTP cuts off or two spaces in a row, and the names of the headers and the keys of the
query are sorted as their bytes are. -/
theorem signedAsSent_iff (placed : Placed options platform.urls)
    (hdots : ∀ above, options.keyPrefix = some above → ∀ segment ∈ above.toList.splitOn '/', ¬ SigV4.IsDot segment)
    (hnow : ∀ c ∈ now.toList, isWhiteSpace c = false) (h : Driven platform.toLowerCase operation) :
    ∃ request signed, operation.signing options platform now = some request ∧
      SigV4.signRequest platform request options.credentials = some signed ∧
      ∀ wire, send platform signed = some wire →
        wire.path = SigV4.encodedPath (placed.parts operation) ∧
        (SigV4.canonicalRequest platform request = some (canonicalForm wire) ↔
          (∀ header ∈ operation.headers, Clean header.2) ∧ SameOrder platform operation.signedNames ∧
          SameOrder platform ((operation.pairs options).map Prod.fst)) := by
  have hpath : SigV4.IsPath (placed.parts operation) := isPath_placed hdots h
  have hheaders := signable_headers h
  obtain ⟨authorization,hsigned,-⟩ := signRequest_placed options.credentials hpath hheaders
  refine ⟨placed.signing now operation,_,signing_placed hpath,hsigned,fun wire hsend =>
    ⟨?_,hashed_iff hnow hpath hheaders hsend⟩⟩
  rw [(send_placed hpath hsend).2]

theorem hashed_sent (hpath : SigV4.IsPath (placed.parts operation)) (hheaders : Signable operation.headers)
    (hnow : ∀ c ∈ now.toList, isWhiteSpace c = false)
    (hprinted : Printed options.credentials now) (hhost : isSendable (hostText placed.hostname placed.port) = true)
    (hvalues : ∀ header ∈ operation.headers, isSendable header.2.toList = true) :
    ∃ signed wire, operation.signing options platform now = some (placed.signing now operation) ∧
      SigV4.signRequest platform (placed.signing now operation) options.credentials = some signed ∧
        send platform signed = some wire ∧
      (SigV4.canonicalRequest platform (placed.signing now operation) = some (canonicalForm wire) ↔
        (∀ header ∈ operation.headers, Clean header.2) ∧ SameOrder platform operation.signedNames ∧
          SameOrder platform ((operation.pairs options).map Prod.fst)) := by
  obtain ⟨authorization,hsigned,hauthorization⟩ := signRequest_placed options.credentials hpath hheaders
  obtain ⟨wire,hwire⟩ := signed_sent hpath hheaders hprinted (hauthorization hprinted) hhost hvalues
  exact ⟨_,wire,signing_placed hpath,hsigned,hwire,hashed_iff hnow hpath hheaders hwire⟩

end Result

section Recorded

def digestBytes : List Char → List UInt8
  | a :: b :: rest => UInt8.ofNat ((hexDigit a).getD 0 * 16 + (hexDigit b).getD 0) :: digestBytes rest
  | _ => []

def recorded (digests : List (String × String)) (data : List UInt8) : List UInt8 :=
  ((digests.find? fun digest => encodeUtf8 digest.1.toList = data).map fun digest => digestBytes digest.2.toList).getD []

/-- One upload whose metadata is a note, with the digest of what is hashed of it and its signature. -/
structure Recording where
  note : String
  hashed : String
  signature : String

variable (run : Recording)

/-- A platform that compares bytes, with the digests of one upload. -/
def recordedPlatform : SigV4.Platform where
  urls := ⟨fun _ => none,some,fun _ => none⟩
  toLowerCase text := String.ofList (text.toList.map Char.toLower)
  toLowerCase_lower text h := by
    have hall : ∀ n < 0x80, (Char.ofNat n).isUpper = false → (Char.ofNat n).toLower = Char.ofNat n := by decide
    have hsame : text.toList.map Char.toLower = text.toList := by
      refine (List.map_congr_left fun c hc => ?_).trans (List.map_id _)
      have hone := hall c.toNat (h c hc).1
      rw [Char.ofNat_toNat] at hone
      exact hone (h c hc).2
    rw [hsame,String.ofList_toList]
  localeCompare a b := if byteLe a b then if byteLe b a then .eq else .lt else .gt
  localeCompare_self text := by rw [if_pos (byteLe_self text),if_pos (byteLe_self text)]
  sha256 := recorded [("","e3b0c44298fc1c149afbf4c8996fb92427ae41e4649b934ca495991b7852b855"),
    ("PUT\n/bucket/one.bin\n\ncontent-type:text/plain\nhost:minio\n" ++
      "x-amz-content-sha256:e3b0c44298fc1c149afbf4c8996fb92427ae41e4649b934ca495991b7852b855\nx-amz-date:20240102T030405Z\n" ++
      "x-amz-meta-disposition:attachment\nx-amz-meta-note:" ++ run.note ++
      "\n\ncontent-type;host;x-amz-content-sha256;x-amz-date;x-amz-meta-disposition;x-amz-meta-note\n" ++
      "e3b0c44298fc1c149afbf4c8996fb92427ae41e4649b934ca495991b7852b855",run.hashed)]
  hmac _ := recorded [("20240102","1d79f5bd1f07d7b6502c03af1e495560525256dd508aa75282d778eff1806a31"),
    ("us-east-1","058b30a211ab69812e0d11b6ad07f99ad21f1229fcbe2cfdbe37d38aa433ba56"),
    ("s3","1656a6c882aaa40c4601256d59b9a496ae38c7c4b47ccf858e3f1ac0289aed7d"),
    ("aws4_request","8e4ffb88ce8dc8bde383f355dee24a5d5b04fa4a241d3e63ac18332e7f42081e"),
    ("AWS4-HMAC-SHA256\n20240102T030405Z\n20240102/us-east-1/s3/aws4_request\n" ++ run.hashed,run.signature)]

theorem sameOrder_recorded (texts : List (List Char)) : SameOrder (recordedPlatform run) texts := by
  refine sameOrder_of_byteLe (fun a b => ?_) texts
  rw [recordedPlatform]
  dsimp only
  split
  · rename_i hle
    rw [hle]
    split <;> rfl
  · rename_i hle
    rw [Bool.eq_false_iff.mpr hle]
    rfl

def recordedOptions : S3StorageOptions := ⟨"bucket",⟨"access","secret","us-east-1","s3"⟩,some "http://minio",none⟩

def recordedPlace : Placed recordedOptions (recordedPlatform run).urls where
  scheme := "http".toList
  authority := ['m','i','n','i','o']
  above := []
  hostname := ['m','i','n','i','o']
  port := none
  web := Or.inl rfl
  base := by decide
  authority_marks := ⟨by decide,by simp [isTabOrNewline]⟩
  read := rfl
  host_marks := ⟨by decide,by simp [hostText,isWhiteSpace]⟩
  reread := rfl
  plain := List.forall_mem_nil _
  bucket := ⟨fun c hc => List.all_eq_true.mp (by decide : "bucket".toList.all SigV4.isUriChar = true) c hc,
    fun h => by rcases h with h | h <;> exact absurd h (by decide)⟩

def recordedTime : String := "2024-01-02T03:04:05.000Z"

theorem recorded_time : (∀ c ∈ recordedTime.toList, isWhiteSpace c = false) ∧
    Printed recordedOptions.credentials recordedTime := by
  have hall : recordedTime.toList.all (fun c => !isWhiteSpace c) = true := by decide +kernel
  refine ⟨fun c hc => ?_,⟨by decide,by decide,by decide,by decide +kernel⟩⟩
  exact (Bool.not_eq_true' _).mp (List.all_eq_true.mp hall c hc)

def recordedInput : PutInput := ⟨"one.bin",.bytes [],"text/plain",none,some [("note",run.note)]⟩

def recordedPut : Operation := .object "one.bin" (.put (metaHeaders (recordedPlatform run).toLowerCase (recordedInput run)) [])

variable {run}

theorem driven_recorded : Driven (recordedPlatform run).toLowerCase (recordedPut run) := by
  have hvalid : isValidKey "one.bin" = true := by decide +kernel
  exact .put (recordedInput run) [] hvalid

theorem headers_recorded (hlength : run.note.toList.length ≤ 1024) :
    (recordedPut run).headers = [("content-type","text/plain"),("x-amz-meta-disposition","attachment"),
      ("x-amz-meta-note",run.note)] := by
  have hlower : metadataHeaderName (fun text => String.ofList (text.toList.map Char.toLower)) "note" =
    some "note" := by decide +kernel
  have hname : metadataHeaderName (recordedPlatform run).toLowerCase "note" = some "note" := hlower
  rw [recordedPut,Operation.headers,metaHeaders,recordedInput]
  dsimp only [Option.getD_some,List.foldl_cons,List.foldl_nil]
  rw [setMetadata,hname]
  dsimp only
  rw [List.take_of_length_le hlength,String.ofList_toList]
  rfl

theorem clean_recorded (hlength : run.note.toList.length ≤ 1024) : (∀ header ∈ (recordedPut run).headers, Clean header.2) ↔
    Clean run.note := by
  have hplain : Clean "text/plain" ∧ Clean "attachment" := ⟨⟨by decide,by decide⟩,⟨by decide,by decide⟩⟩
  rw [headers_recorded hlength]
  simp [hplain]

theorem recorded_sent (hlength : run.note.toList.length ≤ 1024) (hnote : isSendable run.note.toList = true) :
    ∃ request signed wire,
      (recordedPut run).signing recordedOptions (recordedPlatform run) recordedTime = some request ∧
      SigV4.signRequest (recordedPlatform run) request recordedOptions.credentials = some signed ∧
      send (recordedPlatform run) signed = some wire ∧
      (SigV4.canonicalRequest (recordedPlatform run) request = some (canonicalForm wire) ↔ Clean run.note) := by
  have hpath : SigV4.IsPath ((recordedPlace run).parts (recordedPut run)) :=
    isPath_placed (fun _ habove => nomatch habove) driven_recorded
  have hhost : isSendable (hostText ['m','i','n','i','o'] none) = true := by decide
  have hvalues : ∀ header ∈ (recordedPut run).headers, isSendable header.2.toList = true := by
    have hplain : isSendable "text/plain".toList = true ∧ isSendable "attachment".toList = true := ⟨by decide,by decide⟩
    rw [headers_recorded hlength,List.forall_mem_cons,List.forall_mem_cons,List.forall_mem_singleton]
    exact ⟨hplain.1,hplain.2,hnote⟩
  obtain ⟨signed,wire,hsigning,hsigned,hwire,hiff⟩ :=
    hashed_sent hpath (signable_headers driven_recorded) recorded_time.1 recorded_time.2 hhost hvalues
  refine ⟨_,signed,wire,hsigning,hsigned,hwire,hiff.trans ?_⟩
  rw [clean_recorded hlength,and_iff_left ⟨sameOrder_recorded run _,sameOrder_recorded run _⟩]

def spacedNote : Recording where
  note := "a b"
  hashed := "18827cf11abf9122df6ed4426caf6e56366485460a84c49ee3c1c8a469856a5c"
  signature := "77fcdc55182263f47fcdeaae39578cdb82a2c4b55e9e2ce69587c6ac0aeb46cd"

/-- A note with one space between its words is signed as it is sent. -/
theorem note_signedAsSent : ∃ request signed wire,
    (recordedPut spacedNote).signing recordedOptions (recordedPlatform spacedNote) recordedTime = some request ∧
    SigV4.signRequest (recordedPlatform spacedNote) request recordedOptions.credentials = some signed ∧
    send (recordedPlatform spacedNote) signed = some wire ∧
    SigV4.canonicalRequest (recordedPlatform spacedNote) request = some (canonicalForm wire) := by
  have hlength : spacedNote.note.toList.length ≤ 1024 := by decide
  obtain ⟨request,signed,hrequest,hsigned,hmatch⟩ :=
    signedAsSent_iff (recordedPlace spacedNote) (fun _ habove => nomatch habove) recorded_time.1 driven_recorded
  obtain ⟨other,same,wire,hother,hsame,hwire,-⟩ := recorded_sent hlength (by decide)
  obtain rfl : other = request := Option.some.inj (hother.symm.trans hrequest)
  obtain rfl : same = signed := Option.some.inj (hsame.symm.trans hsigned)
  refine ⟨other,same,wire,hrequest,hsigned,hwire,(hmatch wire hwire).2.mpr ⟨(clean_recorded hlength).mpr ?_,?_⟩⟩
  · exact ⟨by decide,by decide⟩
  · exact ⟨sameOrder_recorded spacedNote _,sameOrder_recorded spacedNote _⟩

def doubledNote : Recording where
  note := "a  b"
  hashed := "1c96b4024e27ada28a435c112b275c941f85e028195af57116c3e189add38969"
  signature := "ce37d15304c77d2d5ab96212cf7359a054dd40b5883c945382911a1f50521bf7"

/-- A note with two spaces in a row is signed with both, and one is left in its canonical form. -/
theorem note_not_signedAsSent : ∃ request signed wire,
    (∀ c ∈ doubledNote.note.toList, 0x20 ≤ c.toNat ∧ c.toNat ≤ 0x7e) ∧
    (recordedPut doubledNote).signing recordedOptions (recordedPlatform doubledNote) recordedTime = some request ∧
    SigV4.signRequest (recordedPlatform doubledNote) request recordedOptions.credentials = some signed ∧
    send (recordedPlatform doubledNote) signed = some wire ∧
    SigV4.canonicalRequest (recordedPlatform doubledNote) request ≠ some (canonicalForm wire) := by
  have hprintable : ∀ c ∈ doubledNote.note.toList, 0x20 ≤ c.toNat ∧ c.toNat ≤ 0x7e := by simp [doubledNote]
  have hlength : doubledNote.note.toList.length ≤ 1024 := by decide
  obtain ⟨request,signed,wire,hrequest,hsigned,hwire,hiff⟩ := recorded_sent hlength (by decide)
  refine ⟨request,signed,wire,hprintable,hrequest,hsigned,hwire,fun hmatch => ?_⟩
  exact absurd (hiff.mp hmatch).single (by decide)

end Recorded

end StructureAi.Storage.S3

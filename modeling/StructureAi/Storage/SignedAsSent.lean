import StructureAi.Foundation.DecimalText
import StructureAi.Storage.SigV4Encoding
import StructureAi.Storage.SignedHeaders

/-! # Requests are signed as they are sent

What is hashed of a request is the canonical form of what is sent of it: the paths and the queries are one, and the headers
are, as long as no value of them has two spaces in a row and the platform sorts their names as their bytes are.
-/
namespace StructureAi.Storage.S3
open StructureAi.Foundation

section Orders
variable {α β : Type*} {rows others : List (α × β)}

theorem rows_eq (hn : (rows.map Prod.fst).Nodup) (hperm : rows.Perm others) (hkeys : rows.map Prod.fst = others.map Prod.fst) :
    rows = others := by
  induction rows generalizing others with
  | nil => exact (List.nil_perm.mp hperm).symm
  | cons row rows ih =>
    cases others with
    | nil => cases hkeys
    | cons other others =>
      obtain ⟨hkey,hrest⟩ := List.cons.inj hkeys
      obtain ⟨hnot,hn⟩ := List.nodup_cons.mp hn
      obtain rfl : row = other := by
        rcases List.mem_cons.mp (hperm.subset List.mem_cons_self) with h | h
        · exact h
        · refine absurd ?_ hnot
          rw [hrest]
          exact List.mem_map_of_mem h
      rw [ih hn (List.perm_cons row |>.mp hperm) hrest]

variable {le le' : α × β → α × β → Bool} (keyLe keyLe' : α → α → Bool)

/-- Rows of the same keys are sorted alike just where their keys are, and where they are the same. -/
theorem sorted_eq_iff (hle : ∀ a ∈ rows, ∀ b ∈ rows, le a b = keyLe a.1 b.1)
    (hle' : ∀ a ∈ others, ∀ b ∈ others, le' a b = keyLe' a.1 b.1)
    (hkeys : rows.map Prod.fst = others.map Prod.fst) (hn : (rows.map Prod.fst).Nodup) :
    rows.mergeSort le = others.mergeSort le' ↔
      (rows.map Prod.fst).mergeSort keyLe = (rows.map Prod.fst).mergeSort keyLe' ∧ rows = others := by
  have hsorted : (rows.mergeSort le).map Prod.fst = (rows.map Prod.fst).mergeSort keyLe := List.map_mergeSort hle
  have hsorted' : (others.mergeSort le').map Prod.fst = (rows.map Prod.fst).mergeSort keyLe' := by
    rw [hkeys]
    exact List.map_mergeSort hle'
  constructor
  · intro h
    refine ⟨by rw [← hsorted,h,hsorted'],rows_eq hn ?_ hkeys⟩
    exact (List.mergeSort_perm rows le).symm.trans (h ▸ List.mergeSort_perm others le')
  · rintro ⟨horder,rfl⟩
    have hperm := List.mergeSort_perm rows le
    refine rows_eq ((hperm.map Prod.fst).nodup_iff.mpr hn) (hperm.trans (List.mergeSort_perm rows le').symm) ?_
    rw [hsorted,hsorted',horder]

end Orders

section Texts
variable {pairs others : List (List Char × List Char)} {rest rest' : List Char}

/-- A header whose line ends where it ends. -/
structure IsLine (header : List Char × List Char) : Prop where
  name : header.1 ≠ [] ∧ ':' ∉ header.1 ∧ '\n' ∉ header.1
  value : '\n' ∉ header.2

theorem headerLines_inj (hpairs : ∀ header ∈ pairs, IsLine header) (hothers : ∀ header ∈ others, IsLine header)
    (h : pairs.flatMap SigV4.headerText ++ '\n' :: rest = others.flatMap SigV4.headerText ++ '\n' :: rest') : pairs = others ∧
      rest = rest' := by
  have hfirst : ∀ header tail more, IsLine header → '\n' :: tail ≠ SigV4.headerText header ++ more := by
    intro header tail more hheader heq
    obtain ⟨c,name,hname⟩ := List.exists_cons_of_ne_nil hheader.name.1
    rw [SigV4.headerText,hname] at heq
    exact hheader.name.2.2 (hname ▸ (List.cons.inj heq).1 ▸ List.mem_cons_self)
  induction pairs generalizing others with
  | nil =>
    cases others with
    | nil => exact ⟨rfl,(List.cons.inj h).2⟩
    | cons other others =>
      rw [List.flatMap_cons,List.append_assoc] at h
      exact absurd h (hfirst other _ _ (hothers other List.mem_cons_self))
  | cons pair pairs ih =>
    cases others with
    | nil =>
      rw [List.flatMap_cons,List.append_assoc] at h
      exact absurd h.symm (hfirst pair _ _ (hpairs pair List.mem_cons_self))
    | cons other others =>
      have hpair := hpairs pair List.mem_cons_self
      have hother := hothers other List.mem_cons_self
      rw [List.flatMap_cons,List.flatMap_cons,SigV4.headerText,SigV4.headerText] at h
      simp only [List.append_assoc,List.cons_append,List.nil_append] at h
      obtain ⟨hname,h⟩ := append_cons_cancel hpair.name.2.1 hother.name.2.1 h
      obtain ⟨hvalue,h⟩ := append_cons_cancel hpair.value hother.value h
      obtain ⟨rfl,hrest⟩ := ih (fun header hin => hpairs header (List.mem_cons_of_mem pair hin))
        (fun header hin => hothers header (List.mem_cons_of_mem other hin)) h
      exact ⟨congrArg (· :: pairs) (Prod.ext hname hvalue),hrest⟩

/-- A pair whose text is taken apart again. -/
structure IsPair (pair : List Char × List Char) : Prop where
  ampersand : '&' ∉ SigV4.pairText pair
  equals : '=' ∉ pair.1

theorem joinedPairs_inj (hpairs : ∀ pair ∈ pairs, IsPair pair) (hothers : ∀ pair ∈ others, IsPair pair)
    (h : List.intercalate ['&'] (pairs.map SigV4.pairText) = List.intercalate ['&'] (others.map SigV4.pairText)) :
      pairs = others := by
  have hpieces : ∀ rows : List (List Char × List Char), (∀ pair ∈ rows, IsPair pair) →
      ((List.intercalate ['&'] (rows.map SigV4.pairText)).splitOn '&').filter (fun piece => piece ≠ []) =
        rows.map SigV4.pairText :=
    fun rows hrows => SigV4.pieces_joined fun pair hpair => (hrows pair hpair).ampersand
  have htexts : pairs.map SigV4.pairText = others.map SigV4.pairText := by rw [← hpieces pairs hpairs,h,hpieces others hothers]
  clear h hpieces
  induction pairs generalizing others with
  | nil => exact (List.map_eq_nil_iff.mp htexts.symm).symm
  | cons pair pairs ih =>
    cases others with
    | nil => cases htexts
    | cons other others =>
      obtain ⟨hone,hrest⟩ := List.cons.inj htexts
      obtain ⟨hkey,hvalue⟩ := append_cons_cancel (hpairs pair List.mem_cons_self).equals
        (hothers other List.mem_cons_self).equals hone
      rw [Prod.ext hkey hvalue,ih (fun row hin => hpairs row (List.mem_cons_of_mem pair hin))
        (fun row hin => hothers row (List.mem_cons_of_mem other hin)) hrest]

end Texts

section Operations
variable (options : S3StorageOptions) (toLowerCase : String → String)

/-- The operations of the driver, on valid keys and with the headers that it makes. -/
inductive Driven : Operation → Prop
  | put (input : PutInput) (body : List UInt8) (valid : isValidKey input.key = true) :
    Driven (.object input.key (.put (metaHeaders toLowerCase input) body))
  | initiate (input : PutInput) (valid : isValidKey input.key = true) :
      Driven (.object input.key (.initiate (metaHeaders toLowerCase input)))
  | part (input : PutInput) (uploadId : String) (number : ℕ) (body : List UInt8) (valid : isValidKey input.key = true) :
    Driven (.object input.key (.part uploadId number (metaHeaders toLowerCase input) body))
  | complete (input : PutInput) (uploadId body : String) (valid : isValidKey input.key = true) :
    Driven (.object input.key (.complete uploadId (completeHeaders (metaHeaders toLowerCase input)) body))
  | abort (key uploadId : String) (valid : isValidKey key = true) : Driven (.object key (.abort uploadId))
  | get (key : String) (valid : isValidKey key = true) : Driven (.get key)
  | head (key : String) (valid : isValidKey key = true) : Driven (.head key)
  | delete (key : String) (valid : isValidKey key = true) : Driven (.delete key)
  | list (searched : String) : Driven (.list searched)

def Operation.segments : Operation → List (List Char)
  | .object key _ => (options.prefixed key).toList.splitOn '/'
  | .get key => (options.prefixed key).toList.splitOn '/'
  | .head key => (options.prefixed key).toList.splitOn '/'
  | .delete key => (options.prefixed key).toList.splitOn '/'
  | .list _ => []

def Operation.pairs : Operation → List (List Char × List Char)
  | .object _ (.initiate _) => [("uploads".toList,[])]
  | .object _ (.part uploadId number _ _) => [("partNumber".toList,Nat.toDigits 10 number),("uploadId".toList,uploadId.toList)]
  | .object _ (.complete uploadId _ _) => [("uploadId".toList,uploadId.toList)]
  | .object _ (.abort uploadId) => [("uploadId".toList,uploadId.toList)]
  | .list searched => [("list-type".toList,"2".toList),("prefix".toList,(options.prefixed searched).toList)]
  | _ => []

/-- The search of encoded pairs, if there are any. -/
def searchOf (keeps : Char → Bool) (pairs : List (List Char × List Char)) : Option (List Char) :=
  if pairs = [] then none else some (SigV4.queryText keeps pairs)

variable {options toLowerCase} {operation : Operation}

theorem signable_headers (h : Driven toLowerCase operation) : Signable operation.headers := by
  cases h with
  | put input body valid => exact signable_metaHeaders toLowerCase input
  | initiate input valid => exact signable_metaHeaders toLowerCase input
  | part input uploadId number body valid => exact signable_metaHeaders toLowerCase input
  | complete input uploadId body valid => exact signable_completeHeaders toLowerCase input
  | abort key uploadId valid => exact .nil
  | get key valid => exact .nil
  | head key valid => exact .nil
  | delete key valid => exact .nil
  | list searched => exact .nil

theorem search_eq (operation : Operation) : operation.search options = searchOf isUnreserved (operation.pairs options) := by
  have hplain (text : List Char) (h : text.all isUnreserved = true) : percentEncode isUnreserved text = text :=
    percentEncode_kept fun c hc => List.all_eq_true.mp h c hc
  have hid (uploadId : String) : (encodeURIComponent uploadId).toList = percentEncode isUnreserved uploadId.toList := by
    rw [encodeURIComponent_eq,String.toList_ofList]
  have hpair (name value : List Char) (h : name.all isUnreserved = true) :
      SigV4.pairText (SigV4.encodedPair isUnreserved (name,value)) = name ++ '=' :: percentEncode isUnreserved value := by
    rw [SigV4.encodedPair,SigV4.pairText,hplain name h]
  have hdigits (number : ℕ) : percentEncode isUnreserved (Nat.toDigits 10 number) = Nat.toDigits 10 number := by
    refine percentEncode_kept fun c hc => ?_
    have hdigit := isDigit_toDigits number c hc
    rw [isUnreserved,Char.isAlphanum,hdigit,Bool.or_true,Bool.true_or]
  have hone (name value : List Char) (h : name.all isUnreserved = true) :
      searchOf isUnreserved [(name,value)] = some (name ++ '=' :: percentEncode isUnreserved value) := by
    rw [searchOf,if_neg (List.cons_ne_nil _ _),SigV4.queryText,List.map_singleton,List.map_singleton,List.intercalate_singleton,
      hpair name value h]
  have htwo (name value other more : List Char) (h : name.all isUnreserved = true) (h' : other.all isUnreserved = true) :
      searchOf isUnreserved [(name,value),(other,more)] =
        some (name ++ '=' :: (percentEncode isUnreserved value ++
          '&' :: (other ++ '=' :: percentEncode isUnreserved more))) := by
    rw [searchOf,if_neg (List.cons_ne_nil _ _),SigV4.queryText,List.map_cons,List.map_singleton,List.map_cons,List.map_singleton,
      intercalate_cons,List.flatMap_singleton,hpair name value h,hpair other more h',List.append_assoc]
    rfl
  cases operation with
  | get key => rfl
  | head key => rfl
  | delete key => rfl
  | list searched =>
    refine Eq.trans ?_ (htwo "list-type".toList "2".toList "prefix".toList _ rfl rfl).symm
    rw [Operation.search,hid]
    rfl
  | object key request =>
    cases request with
    | put headers body => rfl
    | initiate headers => exact (hone "uploads".toList [] rfl).symm
    | part uploadId number headers body =>
      refine Eq.trans ?_ (htwo "partNumber".toList _ "uploadId".toList _ rfl rfl).symm
      rw [Operation.search,hid,hdigits]
      simp only [List.append_assoc]
      rfl
    | complete uploadId headers body =>
      refine Eq.trans ?_ (hone "uploadId".toList _ rfl).symm
      rw [Operation.search,hid]
      rfl
    | abort uploadId =>
      refine Eq.trans ?_ (hone "uploadId".toList _ rfl).symm
      rw [Operation.search,hid]
      rfl

theorem path_eq (hbucket : ∀ c ∈ options.bucket.toList, SigV4.isUriChar c = true) (operation : Operation) :
    operation.path options = SigV4.encodedPath (options.bucket.toList :: operation.segments options) := by
  have hencoded : percentEncode SigV4.isUriChar options.bucket.toList = options.bucket.toList := percentEncode_kept hbucket
  have hobject (key : String) : '/' :: (options.bucket.toList ++ '/' :: objectPath options key) =
      SigV4.encodedPath (options.bucket.toList :: (options.prefixed key).toList.splitOn '/') := by
    have hpath : objectPath options key =
        List.intercalate ['/'] (((options.prefixed key).toList.splitOn '/').map (percentEncode SigV4.isUriChar)) := by
      rw [objectPath]
      exact congrArg _ (List.map_congr_left fun segment _ => SigV4.uriEncode_true segment)
    obtain ⟨first,rest,hsegments⟩ := List.exists_cons_of_ne_nil (List.splitOn_ne_nil '/' (options.prefixed key).toList)
    rw [hpath,hsegments,SigV4.encodedPath_cons,hencoded,List.map_cons,intercalate_cons,List.flatMap_cons]
    rfl
  cases operation with
  | object key request => exact hobject key
  | get key => exact hobject key
  | head key => exact hobject key
  | delete key => exact hobject key
  | list searched =>
    rw [Operation.path,Operation.segments,SigV4.encodedPath_cons,hencoded,List.map_nil,List.flatMap_nil,List.append_nil]

theorem not_isDot_of_valid {key : String} (h : isValidKey key = true) : ∀ segment ∈ key.toList.splitOn '/',
    ¬ SigV4.IsDot segment := by
  have hall : (key.toList.splitOn '/').all isKeySegment = true := by
    rw [isValidKey] at h
    split at h
    · cases h
    · split at h
      · cases h
      · split at h
        · cases h
        · exact h
  intro segment hsegment hdot
  have hone := List.all_eq_true.mp hall segment hsegment
  rcases hdot with rfl | rfl <;> exact absurd hone (by decide)

theorem isPath_segments (hdots : ∀ above, options.keyPrefix = some above → ∀ segment ∈ above.toList.splitOn '/',
    ¬ SigV4.IsDot segment)
    (h : Driven toLowerCase operation) : ∀ segment ∈ operation.segments options, '/' ∉ segment ∧ ¬ SigV4.IsDot segment := by
  have hobject (key : String) (hkey : isValidKey key = true) :
      ∀ segment ∈ (options.prefixed key).toList.splitOn '/', '/' ∉ segment ∧ ¬ SigV4.IsDot segment := by
    intro segment hsegment
    refine ⟨not_mem_of_mem_splitOn hsegment,?_⟩
    rw [S3StorageOptions.prefixed] at hsegment
    cases habove : options.keyPrefix with
    | none =>
      rw [habove] at hsegment
      exact not_isDot_of_valid hkey segment hsegment
    | some above =>
      have htext : (above ++ "/" ++ key).toList = above.toList ++ '/' :: key.toList := by
        rw [String.toList_append,String.toList_append,List.append_assoc]
        rfl
      rw [habove] at hsegment
      dsimp only at hsegment
      rw [htext,List.splitOn_append_cons_self] at hsegment
      rcases List.mem_append.mp hsegment with hin | hin
      · exact hdots above habove segment hin
      · exact not_isDot_of_valid hkey segment hin
  cases h with
  | put input body valid => exact hobject _ valid
  | initiate input valid => exact hobject _ valid
  | part input uploadId number body valid => exact hobject _ valid
  | complete input uploadId body valid => exact hobject _ valid
  | abort key uploadId valid => exact hobject _ valid
  | get key valid => exact hobject _ valid
  | head key valid => exact hobject _ valid
  | delete key valid => exact hobject _ valid
  | list searched => exact fun segment hsegment => absurd hsegment List.not_mem_nil

end Operations

section Urls

/-- Where the requests go: an endpoint with a path of plain segments,
  and a bucket. A host that was read is read again as it is. -/
structure Placed (options : S3StorageOptions) (platform : UrlPlatform) where
  scheme : List Char
  authority : List Char
  above : List (List Char)
  hostname : List Char
  port : Option ℕ
  web : scheme = "http".toList ∨ scheme = "https".toList
  base : options.base = scheme ++ ':' :: '/' :: '/' :: (authority ++ SigV4.encodedPath above)
  authority_marks : authority ≠ [] ∧ ∀ c ∈ authority, c ∉ ['/','\\','?','#'] ∧ isTabOrNewline c = false
  read : parseAuthority platform (String.ofList scheme) authority = some (("",""),hostname,port)
  host_marks : hostText hostname port ≠ [] ∧ ∀ c ∈ hostText hostname port, c ∉ ['/','\\','?','#'] ∧ isWhiteSpace c = false
  reread : parseAuthority platform (String.ofList scheme) (hostText hostname port) = some (("",""),hostname,port)
  plain : ∀ segment ∈ above, '/' ∉ segment ∧ ¬ SigV4.IsDot segment
  bucket : (∀ c ∈ options.bucket.toList, SigV4.isUriChar c = true) ∧ ¬ SigV4.IsDot options.bucket.toList

/-- A character that ends no part of a URL and is not cut off it. -/
def IsPlainChar (c : Char) : Prop := c ≠ '#' ∧ isTabOrNewline c = false ∧ isControlOrSpace c = false

theorem isPlainChar_encodedPath {segments : List (List Char)} {c : Char} (h : c ∈ SigV4.encodedPath segments) : c ≠ '?' ∧
    IsPlainChar c := by
  have hall : ∀ n < 0x80, keepsPath (Char.ofNat n) = true → Char.ofNat n ≠ '?' ∧ Char.ofNat n ≠ '#' ∧
      isTabOrNewline (Char.ofNat n) = false ∧ isControlOrSpace (Char.ofNat n) = false := by decide +kernel
  obtain ⟨segment,-,hin⟩ := List.mem_flatMap.mp h
  rcases List.mem_cons.mp hin with rfl | hin
  · exact ⟨by decide,by decide,rfl,by decide⟩
  · have hkept := (SigV4.mem_encoded hin).1
    have hlow : c.toNat < 0x80 := by
      simp only [keepsPath,keepsQuery,keepsControl,Bool.and_eq_true,decide_eq_true_eq] at hkept
      omega
    have hone := hall c.toNat hlow
    rw [Char.ofNat_toNat] at hone
    exact hone hkept

theorem isPlainChar_queryText {keeps : Char → Bool} (hkeeps : ∀ c, keeps c = true → isUnreserved c = true)
    {pairs : List (List Char × List Char)} {c : Char} (h : c ∈ SigV4.queryText keeps pairs) : IsPlainChar c := by
  have hall : ∀ n < 0x80, isUnreserved (Char.ofNat n) = true ∨ Char.ofNat n ∈ ['%','&','='] → Char.ofNat n ≠ '#' ∧
      isTabOrNewline (Char.ofNat n) = false ∧ isControlOrSpace (Char.ofNat n) = false := by decide +kernel
  have hkind {d : Char} (hd : isUnreserved d = true ∨ d ∈ ['%','&','=']) : IsPlainChar d := by
    have hlow : d.toNat < 0x80 := by
      rcases hd with hd | hd
      · exact isUnreserved_small hd
      · have hmarks : (['%','&','='] : List Char).all (fun c => c.toNat < 0x80) = true := by decide
        exact of_decide_eq_true (List.all_eq_true.mp hmarks d hd)
    have hone := hall d.toNat hlow
    rw [Char.ofNat_toNat] at hone
    exact hone hd
  have hencoded {text : List Char} (hc : c ∈ percentEncode keeps text) : IsPlainChar c := by
    rcases mem_percentEncode hc with hc | rfl | ⟨n,hn,rfl⟩
    · exact hkind (Or.inl (hkeeps c hc))
    · exact hkind (Or.inr List.mem_cons_self)
    · exact hkind (Or.inl (isUnreserved_digitChar n hn))
  have hpiece {pair : List Char × List Char} (hc : c ∈ SigV4.pairText (SigV4.encodedPair keeps pair)) : IsPlainChar c := by
    rcases List.mem_append.mp hc with hc | hc
    · exact hencoded hc
    · rcases List.mem_cons.mp hc with rfl | hc
      · exact hkind (Or.inr (by decide))
      · exact hencoded hc
  rcases mem_intercalate h with rfl | ⟨piece,hmem,hin⟩
  · exact hkind (Or.inr (by decide))
  · obtain ⟨row,hrow,rfl⟩ := List.mem_map.mp hmem
    obtain ⟨pair,-,rfl⟩ := List.mem_map.mp hrow
    exact hpiece hin

variable {options : S3StorageOptions} {platform : UrlPlatform} {segments : List (List Char)}

theorem getD_searchOf (keeps : Char → Bool) (pairs : List (List Char × List Char)) : (searchOf keeps pairs).getD [] =
    SigV4.queryText keeps pairs := by
  rw [searchOf]
  split
  · rename_i h
    rw [h]
    rfl
  · rfl

/-- What is kept in a query after a URL was read. -/
def keepsSent (c : Char) : Bool := isUnreserved c && keepsSpecialQuery c

/-- An encoded path and an encoded query pass through the reading of a URL, but for an apostrophe, which is escaped. -/
theorem parseUrl_encoded (placed : Placed options platform) {authority : List Char} (pairs : List (List Char × List Char))
    {keeps : Char → Bool}
    (hmarks : authority ≠ [] ∧ ∀ c ∈ authority, c ∉ ['/','\\','?','#'] ∧ isTabOrNewline c = false)
    (hread : parseAuthority platform (String.ofList placed.scheme) authority = some (("",""),placed.hostname,placed.port))
    (hsegments : SigV4.IsPath segments) (hkeeps : ∀ c, keeps c = true → isUnreserved c = true) :
    parseUrl platform (placed.scheme ++ ':' :: '/' :: '/' :: (authority ++ SigV4.encodedPath segments ++
      searchText (searchOf keeps pairs))) =
      some ⟨String.ofList placed.scheme ++ ":","","",String.ofList placed.hostname,placed.port,
        String.ofList (SigV4.encodedPath segments),
        SigV4.queryText (fun c => keeps c && keepsSpecialQuery c) pairs⟩ := by
  have hscheme : IsScheme placed.scheme ∧ String.ofList placed.scheme ≠ "file" ∧ isSpecial (String.ofList placed.scheme) =
    true := by
    rcases placed.web with h | h <;> rw [h]
    · exact ⟨⟨⟨'h',"ttp".toList,rfl,rfl⟩,fun c hc => List.all_eq_true.mp (by decide : "http".toList.all isSchemeChar =
        true) c hc,rfl⟩,
        by decide,rfl⟩
    · exact ⟨⟨⟨'h',"ttps".toList,rfl,rfl⟩,fun c hc => List.all_eq_true.mp (by decide : "https".toList.all isSchemeChar =
        true) c hc,rfl⟩,
        by decide,rfl⟩
  have hpath : ∀ c ∈ (SigV4.encodedPath segments).head?, c = '/' := by
    obtain ⟨segment,rest,rfl⟩ := List.exists_cons_of_ne_nil hsegments.1
    intro c hc
    exact (Option.some.inj hc).symm
  have hsearch : ∀ c ∈ (searchOf keeps pairs).getD [], IsPlainChar c := by
    rw [getD_searchOf]
    exact fun c hc => isPlainChar_queryText hkeeps hc
  have hrest : ∀ c ∈ SigV4.encodedPath segments ++ searchText (searchOf keeps pairs), isControlOrSpace c = false := by
    intro c hc
    rcases List.mem_append.mp hc with hc | hc
    · exact (isPlainChar_encodedPath hc).2.2.2
    · rcases mem_searchText hc with rfl | hc
      · decide
      · exact (hsearch c hc).2.2
  have hne : SigV4.encodedPath segments ++ searchText (searchOf keeps pairs) ≠ [] := by
    obtain ⟨segment,rest,rfl⟩ := List.exists_cons_of_ne_nil hsegments.1
    exact List.cons_ne_nil _ _
  have hlast : authority ++ SigV4.encodedPath segments ++ searchText (searchOf keeps pairs) =
      (authority ++ (SigV4.encodedPath segments ++ searchText (searchOf keeps pairs)).dropLast) ++
        [(SigV4.encodedPath segments ++ searchText (searchOf keeps pairs)).getLast hne] := by
    rw [List.append_assoc,List.append_assoc,List.dropLast_append_getLast hne]
  have hclean : ∀ c ∈ authority ++ SigV4.encodedPath segments ++ (searchOf keeps pairs).getD [], isTabOrNewline c = false := by
    intro c hc
    rcases List.mem_append.mp hc with hc | hc
    · rcases List.mem_append.mp hc with hc | hc
      · exact (hmarks.2 c hc).2
      · exact (isPlainChar_encodedPath hc).2.2.1
    · exact (hsearch c hc).2.1
  rw [parseUrl_composed hscheme.1 hscheme.2.1 hmarks.1 (fun c hc => (hmarks.2 c hc).1) hpath
    (fun c hc => ⟨(isPlainChar_encodedPath hc).1,(isPlainChar_encodedPath hc).2.1⟩) (fun c hc => (hsearch c hc).1) hclean hlast
    (hrest _ (List.getLast_mem hne)),hread,hscheme.2.2,SigV4.parsePath_encoded hsegments,getD_searchOf,if_pos rfl,
    SigV4.percentEncode_queryText keepsSpecialQuery rfl (by decide) ⟨rfl,rfl⟩]
  rfl

variable (placed : Placed options platform) (operation : Operation)

/-- The segments of a request: those of the endpoint, the bucket and what comes below it. -/
def Placed.parts : List (List Char) := placed.above ++ options.bucket.toList :: operation.segments options

def Placed.url : Url :=
  ⟨String.ofList placed.scheme ++ ":","","",String.ofList placed.hostname,placed.port,
    String.ofList (SigV4.encodedPath (placed.parts operation)),
    SigV4.queryText keepsSent (operation.pairs options)⟩

variable {placed operation} {toLowerCase : String → String}

theorem isPath_placed (hdots : ∀ above, options.keyPrefix = some above → ∀ segment ∈ above.toList.splitOn '/',
    ¬ SigV4.IsDot segment)
    (h : Driven toLowerCase operation) : SigV4.IsPath (placed.parts operation) := by
  refine ⟨List.append_ne_nil_of_right_ne_nil _ (List.cons_ne_nil _ _),fun segment hsegment => ?_⟩
  rcases List.mem_append.mp hsegment with hin | hin
  · exact placed.plain segment hin
  · rcases List.mem_cons.mp hin with rfl | hin
    · exact ⟨fun hslash => absurd (placed.bucket.1 '/' hslash) (by decide),placed.bucket.2⟩
    · exact isPath_segments hdots h segment hin

theorem url_placed (platform : SigV4.Platform) (placed : Placed options platform.urls)
    (hpath : SigV4.IsPath (placed.parts operation)) :
    operation.url options platform = some (placed.url operation) := by
  have htext : options.base ++ operation.path options ++ searchText (operation.search options) = placed.scheme ++
    ':' :: '/' :: '/' ::
      (placed.authority ++ SigV4.encodedPath (placed.parts operation) ++
        searchText (searchOf isUnreserved (operation.pairs options))) := by
    have hsegments : SigV4.encodedPath (placed.parts operation) =
        SigV4.encodedPath placed.above ++ SigV4.encodedPath (options.bucket.toList :: operation.segments options) :=
          List.flatMap_append
    rw [placed.base,path_eq placed.bucket.1,search_eq,hsegments]
    simp only [List.append_assoc,List.cons_append]
  rw [Operation.url,htext]
  exact parseUrl_encoded placed (operation.pairs options) placed.authority_marks placed.read hpath fun _ h => h

theorem queryText_eq_nil (keeps : Char → Bool) (pairs : List (List Char × List Char)) : SigV4.queryText keeps pairs = [] ↔
    pairs = [] := by
  cases pairs with
  | nil => exact ⟨fun _ => rfl,fun _ => rfl⟩
  | cons pair rest =>
    refine ⟨fun h => absurd h ?_,fun h => nomatch h⟩
    rw [SigV4.queryText,List.map_cons,List.map_cons,intercalate_cons,SigV4.pairText]
    simp

theorem parseUrl_href (hpath : SigV4.IsPath (placed.parts operation)) : parseUrl platform (placed.url operation).href =
    some (placed.url operation) := by
  have hhref : (placed.url operation).href = placed.scheme ++ ':' :: '/' :: '/' :: (hostText placed.hostname placed.port ++
      SigV4.encodedPath (placed.parts operation) ++ searchText (searchOf keepsSent (operation.pairs options))) := by
    have hsearch : (if SigV4.queryText keepsSent (operation.pairs options) =
      [] then [] else '?' :: SigV4.queryText keepsSent (operation.pairs options)) =
        searchText (searchOf keepsSent (operation.pairs options)) := by
      rw [searchOf]
      by_cases hpairs : operation.pairs options = []
      · rw [if_pos ((queryText_eq_nil _ _).mpr hpairs),if_pos hpairs]
        rfl
      · rw [if_neg fun h => hpairs ((queryText_eq_nil _ _).mp h),if_neg hpairs]
        rfl
    have huserinfo : (placed.url operation).userinfo = [] := rfl
    rw [Url.href,huserinfo,Placed.url]
    dsimp only
    rw [hsearch,String.toList_append,String.toList_ofList,String.toList_ofList,String.toList_ofList,List.nil_append]
    simp only [List.append_assoc,String.toList_ofList]
    rfl
  have hmarks : hostText placed.hostname placed.port ≠ [] ∧
      ∀ c ∈ hostText placed.hostname placed.port, c ∉ ['/','\\','?','#'] ∧ isTabOrNewline c = false := by
    refine ⟨placed.host_marks.1,fun c hc => ⟨(placed.host_marks.2 c hc).1,Bool.eq_false_iff.mpr fun htab => ?_⟩⟩
    have hspace := (placed.host_marks.2 c hc).2
    simp only [isTabOrNewline,Bool.or_eq_true,decide_eq_true_eq] at htab
    rcases htab with (rfl | rfl) | rfl <;> exact absurd hspace (by decide)
  have hsame : (fun c => keepsSent c && keepsSpecialQuery c) = keepsSent := funext fun c => by
    rw [keepsSent,Bool.and_assoc,Bool.and_self]
  have hkept : ∀ c, keepsSent c = true → isUnreserved c = true := fun c hc => (Bool.and_eq_true_iff.mp hc).1
  have hread := parseUrl_encoded placed (operation.pairs options) hmarks placed.reread hpath hkept
  rw [hsame] at hread
  rw [hhref]
  exact hread

end Urls

end StructureAi.Storage.S3

import StructureAi.Foundation.Percent
import StructureAi.Foundation.Separated
import StructureAi.Foundation.TextUnits

/-! # URLs

`new URL(text)` as the URL standard has it, without a base. A text is taken apart at the marks that end its parts: the
scheme, the authority with its credentials, host and port, the path and the query. Domains, IPv6 addresses and `file` URLs
are read by the platform.
-/
namespace StructureAi.Foundation

/-- What can be read of a URL, but for its fragment. -/
structure Url where
  protocol : String
  username : String
  password : String
  /-- Empty where there is no host. -/
  hostname : String
  port : Option ℕ
  pathname : String
  /-- The search without its question mark. -/
  query : List Char

/-- A host name and the port that is not the default one. -/
def hostText (hostname : List Char) (port : Option ℕ) : List Char :=
    hostname ++ port.elim [] fun port => ':' :: Nat.toDigits 10 port

def Url.host (url : Url) : String := String.ofList (hostText url.hostname.toList url.port)

def Url.userinfo (url : Url) : List Char :=
  if url.username = "" ∧ url.password = "" then []
  else url.username.toList ++ (if url.password = "" then [] else ':' :: url.password.toList) ++ ['@']

/-- `url.toString()`, of a URL with a host, without a fragment or an empty search. -/
def Url.href (url : Url) : List Char :=
  url.protocol.toList ++ '/' :: '/' :: (url.userinfo ++ hostText url.hostname.toList url.port ++ url.pathname.toList ++
    if url.query = [] then [] else '?' :: url.query)

structure UrlPlatform where
  ipv6 : List Char → Option (List Char)
  /-- A host of a special scheme that stands in no brackets. -/
  domain : List Char → Option (List Char)
  /-- What follows `file:`. -/
  file : List Char → Option Url

section Sets

/-- What the C0 control percent-encode set leaves out. -/
def keepsControl (c : Char) : Bool := 0x20 ≤ c.toNat && c.toNat ≤ 0x7E

def keepsQuery (c : Char) : Bool := keepsControl c && c ∉ [' ','"','#','<','>']

def keepsSpecialQuery (c : Char) : Bool := keepsQuery c && c ≠ '\''

def keepsPath (c : Char) : Bool := keepsQuery c && c ∉ ['?','^','\x60','\x7b','\x7d']

def keepsUserinfo (c : Char) : Bool := keepsPath c && c ∉ ['/',':',';','=','@','[','\\',']','|']

def isForbiddenHost (c : Char) : Bool :=
  c ∈ ['\x00','\t','\n','\r',' ','#','/',':','<','>','?','@','[','\\',']','^','|']

end Sets

section Parts

/-- What stands before the first mark, and after it if there is one. -/
def cut (mark : Char → Bool) : List Char → List Char × Option (List Char)
  | [] => ([],none)
  | c :: rest => if mark c then ([],some rest) else (c :: (cut mark rest).1,(cut mark rest).2)

/-- What stands before and after the last mark. -/
def cutLast (mark : Char) : List Char → Option (List Char × List Char)
  | [] => none
  | c :: rest =>
    match cutLast mark rest with
    | some (before,after) => some (c :: before,after)
    | none => if c = mark then some ([],rest) else none

/-- A host and what follows the colon after it; a colon between brackets belongs to the host. -/
def cutPort (inside : Bool) : List Char → List Char × Option (List Char)
  | [] => ([],none)
  | c :: rest =>
    if c = ':' ∧ inside = false then ([],some rest)
    else
      let now := if c = '[' then true else if c = ']' then false else inside
      (c :: (cutPort now rest).1,(cutPort now rest).2)

def isControlOrSpace (c : Char) : Bool := c.toNat ≤ 0x20

def isTabOrNewline (c : Char) : Bool := c = '\t' || c = '\n' || c = '\r'

def isSchemeChar (c : Char) : Bool := c.isAlphanum || c = '+' || c = '-' || c = '.'

/-- The scheme, lower-cased, and what follows its colon. -/
def readScheme (text : List Char) : Option (String × List Char) :=
  match text.head?,cut (· = ':') text with
  | some c,(scheme,some rest) =>
    if c.isAlpha && scheme.all isSchemeChar then some (String.ofList (scheme.map Char.toLower),rest) else none
  | _,_ => none

def specialPorts : List (String × Option ℕ) :=
  [("ftp",some 21),("file",none),("http",some 80),("https",some 443),("ws",some 80),("wss",some 443)]

def isSpecial (scheme : String) : Bool := (specialPorts.lookup scheme).isSome

def defaultPort (scheme : String) : Option ℕ := (specialPorts.lookup scheme).join

def readUserinfo (userinfo : List Char) : String × String :=
  let (username,password) := cut (· = ':') userinfo
  (String.ofList (percentEncode keepsUserinfo username),String.ofList (percentEncode keepsUserinfo (password.getD [])))

def parseHost (platform : UrlPlatform) (special : Bool) (text : List Char) : Option (List Char) :=
  match text with
  | '[' :: rest =>
    if rest.getLast? = some ']' then (platform.ipv6 rest.dropLast).map fun address => '[' :: (address ++ [']']) else none
  | _ =>
    if special then platform.domain text
    else if text.any isForbiddenHost then none
    else some (percentEncode keepsControl text)

/-- `none` fails; a port that the scheme has by default is left out. -/
def parsePort (scheme : String) (digits : List Char) : Option (Option ℕ) :=
  if digits.all Char.isDigit then
    if digits = [] then some none
    else
      let port := Nat.ofDigitChars 10 digits 0
      if 65535 < port then none
      else some (if defaultPort scheme = some port then none else some port)
  else none

def parseAuthority (platform : UrlPlatform) (scheme : String) (authority : List Char) :
    Option ((String × String) × List Char × Option ℕ) :=
  let (userinfo,hostAndPort) := (cutLast '@' authority).getD ([],authority)
  if (cutLast '@' authority).isSome ∧ hostAndPort = [] then none
  else
    let (host,digits) := cutPort false hostAndPort
    if host = [] ∧ (digits.isSome ∨ isSpecial scheme) then none
    else do
      let hostname ← parseHost platform (isSpecial scheme) host
      let port ← (digits.map (parsePort scheme)).getD (some none)
      return (readUserinfo userinfo,hostname,port)

def isSingleDot (segment : List Char) : Bool := segment.map Char.toLower ∈ [".".toList,"%2e".toList]

def isDoubleDot (segment : List Char) : Bool :=
  segment.map Char.toLower ∈ ["..".toList,".%2e".toList,"%2e.".toList,"%2e%2e".toList]

/-- Dot segments are resolved; at the end of a path they leave an empty one. -/
def resolveSegments (path : List (List Char)) : List (List Char) → List (List Char)
  | [] => path
  | segment :: rest =>
    let shortened := if isDoubleDot segment then path.dropLast else path
    if isDoubleDot segment || isSingleDot segment then
      if rest = [] then shortened ++ [[]] else resolveSegments shortened rest
    else resolveSegments (path ++ [percentEncode keepsPath segment]) rest

def isPathSeparator (special : Bool) (c : Char) : Bool := c = '/' || (special && c = '\\')

/-- A path that begins with its separator, or is empty. -/
def parsePath (special : Bool) (path : List Char) : List Char :=
  if path = [] ∧ special = false then []
  else (resolveSegments [] ((path.drop 1).splitOnP (isPathSeparator special))).flatMap fun segment => '/' :: segment

/-- A path without a host; a space at its end is escaped before what follows it. -/
def opaquePath (path : List Char) (followed : Bool) : List Char :=
  if followed ∧ path.getLast? = some ' ' then percentEncode keepsControl path.dropLast ++ "%20".toList
  else percentEncode keepsControl path

end Parts

section Parser
variable (platform : UrlPlatform)

/-- A URL with an authority, after its slashes. -/
def parseHierarchical (scheme : String) (body query : List Char) : Option Url := do
  let authority := body.takeWhile fun c => !isPathSeparator (isSpecial scheme) c
  let path := body.dropWhile fun c => !isPathSeparator (isSpecial scheme) c
  let ((username,password),hostname,port) ← parseAuthority platform scheme authority
  return ⟨scheme ++ ":",username,password,String.ofList hostname,port,String.ofList (parsePath (isSpecial scheme) path),query⟩

def parseRest (scheme : String) (rest : List Char) : Option Url :=
  let (unfragmented,fragment) := cut (· = '#') rest
  let (body,search) := cut (· = '?') unfragmented
  let query := percentEncode (if isSpecial scheme then keepsSpecialQuery else keepsQuery) (search.getD [])
  if scheme = "file" then (platform.file rest).map fun url => { url with protocol := scheme ++ ":" }
  else if isSpecial scheme then parseHierarchical platform scheme (body.dropWhile (isPathSeparator true)) query
  else
    match body with
    | '/' :: '/' :: body => parseHierarchical platform scheme body query
    | '/' :: _ => some ⟨scheme ++ ":","","","",none,String.ofList (parsePath false body),query⟩
    | _ => some ⟨scheme ++ ":","","","",none,String.ofList (opaquePath body (search.isSome || fragment.isSome)),query⟩

/-- `new URL(text)`; `none` where it throws. -/
def parseUrl (text : List Char) : Option Url :=
  (readScheme ((trimOf isControlOrSpace text).filter fun c => !isTabOrNewline c)).bind fun (scheme,rest) =>
    parseRest platform scheme rest

end Parser

section Search

def decodeForm (text : List Char) : List Char := decodeUtf8 (percentDecode (text.map fun c => if c = '+' then ' ' else c))

/-- `new URLSearchParams(query)`, in order. -/
def searchParams (query : List Char) : List (List Char × List Char) :=
  ((query.splitOn '&').filter fun piece => piece ≠ []).map fun piece =>
    (decodeForm (cut (· = '=') piece).1,decodeForm ((cut (· = '=') piece).2.getD []))

/-- `searchParams.get(name)`. -/
def Url.get (url : Url) (name : String) : Option String := ((searchParams url.query).lookup name.toList).map String.ofList

end Search

section Cuts
variable {mark : Char → Bool} {m c : Char} {before after text : List Char}

theorem cut_none (h : ∀ c ∈ text, mark c = false) : cut mark text = (text,none) := by
  induction text with
  | nil => rfl
  | cons c text ih =>
    rw [cut,h c List.mem_cons_self,ih fun d hd => h d (List.mem_cons_of_mem c hd)]
    rfl

theorem cut_append (h : ∀ c ∈ before, mark c = false) (hm : mark m = true) : cut mark (before ++ m :: after) =
    (before,some after) := by
  induction before with
  | nil => rw [List.nil_append,cut,if_pos hm]
  | cons c before ih =>
    rw [List.cons_append,cut,h c List.mem_cons_self,ih fun d hd => h d (List.mem_cons_of_mem c hd)]
    rfl

theorem cutLast_none (h : m ∉ text) : cutLast m text = none := by
  induction text with
  | nil => rfl
  | cons c text ih =>
    rw [cutLast,ih fun hm => h (List.mem_cons_of_mem c hm)]
    exact if_neg fun hc : c = m => h (hc ▸ List.mem_cons_self)

theorem cutLast_append (h : m ∉ after) : cutLast m (before ++ m :: after) = some (before,after) := by
  induction before with
  | nil =>
    rw [List.nil_append,cutLast,cutLast_none h]
    exact if_pos rfl
  | cons c before ih => rw [List.cons_append,cutLast,ih]

theorem cutPort_plain (h : ∀ c ∈ before, c ≠ ':' ∧ c ≠ '[') : cutPort false (before ++ ':' :: after) = (before,some after) := by
  induction before with
  | nil => rfl
  | cons c before ih =>
    obtain ⟨hcolon,hbracket⟩ := h c List.mem_cons_self
    have hnow : (if c = '[' then true else if c = ']' then false else false) = false := by
      rw [if_neg hbracket,ite_self]
    rw [List.cons_append,cutPort,if_neg fun hc => hcolon hc.1,hnow]
    dsimp only
    rw [ih fun d hd => h d (List.mem_cons_of_mem c hd)]

theorem cutPort_inside (h : ']' ∉ before) : cutPort true (before ++ ']' :: ':' :: after) = (before ++ [']'],some after) := by
  induction before with
  | nil => rfl
  | cons c before ih =>
    have hnow : (if c = '[' then true else if c = ']' then false else true) = true := by
      rw [if_neg fun hc => h (List.mem_cons.mpr (Or.inl (Eq.symm hc))),ite_self]
    rw [List.cons_append,cutPort,if_neg (fun hc => nomatch hc.2),hnow]
    dsimp only
    rw [ih fun hb => h (List.mem_cons_of_mem c hb)]
    rfl

theorem cutPort_brackets (h : ']' ∉ before) : cutPort false ('[' :: (before ++ [']']) ++ ':' :: after) =
    ('[' :: (before ++ [']']),some after) := by
  rw [List.cons_append,List.append_assoc,List.singleton_append,cutPort,if_neg (by decide)]
  dsimp only
  rw [if_pos rfl,cutPort_inside h]

end Cuts

section Composed
variable {platform : UrlPlatform} {scheme authority path : List Char} {search : Option (List Char)}

/-- A scheme as it is written in lower case. -/
structure IsScheme (scheme : List Char) : Prop where
  alpha : ∃ c rest, scheme = c :: rest ∧ c.isAlpha = true
  chars : ∀ c ∈ scheme, isSchemeChar c = true
  lower : scheme.map Char.toLower = scheme

def searchText (search : Option (List Char)) : List Char := search.elim [] fun query => '?' :: query

theorem trimOf_ends {cutOff : Char → Bool} {first last : Char} {middle : List Char} (hfirst : cutOff first = false)
    (hlast : cutOff last = false) :
    trimOf cutOff (first :: (middle ++ [last])) = first :: (middle ++ [last]) := by
  unfold trimOf
  rw [List.dropWhile_cons_of_neg (by rw [hfirst]; decide),← List.cons_append,List.reverse_append,List.reverse_singleton,
    List.singleton_append,
    List.dropWhile_cons_of_neg (by rw [hlast]; decide),List.reverse_cons,List.reverse_reverse]

theorem isSchemeChar_kind {c : Char} (h : isSchemeChar c = true) : c ≠ ':' ∧ c ≠ '/' := by
  refine ⟨?_,?_⟩
  · rintro rfl
    exact absurd h (by decide)
  · rintro rfl
    exact absurd h (by decide)

theorem readScheme_append (hscheme : IsScheme scheme) (rest : List Char) :
    readScheme (scheme ++ ':' :: rest) = some (String.ofList scheme,rest) := by
  obtain ⟨c,tail,htext,hc⟩ := hscheme.alpha
  have hcut : cut (· = ':') (scheme ++ ':' :: rest) = (scheme,some rest) :=
    cut_append (fun d hd => decide_eq_false (isSchemeChar_kind (hscheme.chars d hd)).1) (decide_eq_true rfl)
  have hhead : (scheme ++ ':' :: rest).head? = some c := by rw [htext]; rfl
  have hall : scheme.all isSchemeChar = true := List.all_eq_true.mpr hscheme.chars
  unfold readScheme
  rw [hhead,hcut]
  dsimp only
  rw [hc,hall,hscheme.lower]
  rfl

theorem isControlOrSpace_alpha {c : Char} (h : c.isAlpha = true) : isControlOrSpace c = false := by
  have hval : c.val.toNat = c.toNat := rfl
  have hA : 'A'.val.toNat = 65 := rfl
  have ha : 'a'.val.toNat = 97 := rfl
  simp only [Char.isAlpha,Char.isUpper,Char.isLower,Bool.or_eq_true,Bool.and_eq_true,decide_eq_true_eq,UInt32.le_iff_toNat_le,
    ge_iff_le,
    hval] at h
  exact decide_eq_false (by omega)

theorem isTabOrNewline_scheme {c : Char} (h : isSchemeChar c = true) : isTabOrNewline c = false := by
  rw [Bool.eq_false_iff]
  intro hc
  simp only [isTabOrNewline,Bool.or_eq_true,decide_eq_true_eq] at hc
  rcases hc with (rfl | rfl) | rfl <;> exact absurd h (by decide)

theorem mem_searchText {c : Char} (h : c ∈ searchText search) : c = '?' ∨ c ∈ search.getD [] := by
  cases search with
  | none => cases h
  | some query => exact List.mem_cons.mp h

theorem isPathSeparator_false {special : Bool} {c : Char} (h : c ∉ ['/','\\','?','#']) : isPathSeparator special c = false := by
  simp only [List.mem_cons,List.not_mem_nil,or_false,not_or] at h
  unfold isPathSeparator
  rw [decide_eq_false h.1,decide_eq_false h.2.1,Bool.and_false]
  rfl

theorem parseRest_composed {scheme : String} (hfile : scheme ≠ "file") (hauthority : authority ≠ [])
    (hmarks : ∀ c ∈ authority, c ∉ ['/','\\','?','#']) (hpathMarks : ∀ c ∈ path, c ≠ '?' ∧ c ≠ '#')
    (hsearch : ∀ c ∈ search.getD [], c ≠ '#') :
    parseRest platform scheme ('/' :: '/' :: (authority ++ path ++ searchText search)) =
      parseHierarchical platform scheme (authority ++ path)
        (percentEncode (if isSpecial scheme then keepsSpecialQuery else keepsQuery) (search.getD [])) := by
  have hauthorityMark : ∀ c ∈ authority, c ≠ '?' ∧ c ≠ '#' := by
    intro c hc
    have hnot := hmarks c hc
    simp only [List.mem_cons,List.not_mem_nil,or_false,not_or] at hnot
    exact hnot.2.2
  have hbody : ∀ c ∈ '/' :: '/' :: (authority ++ path), c ≠ '?' ∧ c ≠ '#' := by
    intro c hc
    rw [List.mem_cons,List.mem_cons,List.mem_append] at hc
    rcases hc with rfl | rfl | hc | hc
    · decide
    · decide
    · exact hauthorityMark c hc
    · exact hpathMarks c hc
  have hfragment : cut (· = '#') ('/' :: '/' :: (authority ++ path ++ searchText search)) =
      ('/' :: '/' :: (authority ++ path ++ searchText search),none) := by
    refine cut_none fun c hc => decide_eq_false fun hhash => ?_
    have hsplit : c ∈ '/' :: '/' :: (authority ++ path) ++ searchText search := hc
    rcases List.mem_append.mp hsplit with hc | hc
    · exact (hbody c hc).2 hhash
    · rcases mem_searchText hc with rfl | hc
      · exact absurd hhash (by decide)
      · exact hsearch c hc hhash
  have hquery : cut (· = '?') ('/' :: '/' :: (authority ++ path ++ searchText search)) =
    ('/' :: '/' :: (authority ++ path),search) := by
    have hno : ∀ c ∈ '/' :: '/' :: (authority ++ path), decide (c = '?') = false := fun c hc => decide_eq_false (hbody c hc).1
    cases search with
    | none =>
      rw [searchText,Option.elim_none,List.append_nil]
      exact cut_none hno
    | some query => exact cut_append hno (decide_eq_true rfl)
  unfold parseRest
  rw [hfragment]
  dsimp only
  rw [hquery]
  dsimp only
  rw [if_neg hfile]
  split
  · -- all the slashes are skipped
    congr 1
    obtain ⟨c,rest,rfl⟩ := List.exists_cons_of_ne_nil hauthority
    have hc : ¬ isPathSeparator true c = true := by
      rw [isPathSeparator_false (hmarks c List.mem_cons_self)]
      decide
    rw [List.dropWhile_cons_of_pos (by decide),List.dropWhile_cons_of_pos (by decide),List.cons_append,
      List.dropWhile_cons_of_neg hc]
  · rfl

/-- A URL of a scheme other than `file`, composed of its parts. -/
theorem parseUrl_composed {last : Char} {most : List Char} (hscheme : IsScheme scheme) (hfile : String.ofList scheme ≠ "file")
    (hauthority : authority ≠ []) (hmarks : ∀ c ∈ authority, c ∉ ['/','\\','?','#'])
    (hpath : ∀ c ∈ path.head?, c = '/') (hpathMarks : ∀ c ∈ path, c ≠ '?' ∧ c ≠ '#') (hsearch : ∀ c ∈ search.getD [], c ≠ '#')
    (hclean : ∀ c ∈ authority ++ path ++ search.getD [], isTabOrNewline c = false)
    (hlast : authority ++ path ++ searchText search = most ++ [last]) (hends : isControlOrSpace last = false) :
    parseUrl platform (scheme ++ ':' :: '/' :: '/' :: (authority ++ path ++ searchText search)) =
      (parseAuthority platform (String.ofList scheme) authority).map fun ((username,password),hostname,port) =>
        ⟨String.ofList scheme ++ ":",username,password,String.ofList hostname,port,
          String.ofList (parsePath (isSpecial (String.ofList scheme)) path),
          percentEncode (if isSpecial (String.ofList scheme) then keepsSpecialQuery else keepsQuery) (search.getD [])⟩ := by
  obtain ⟨first,tail,htext,hfirst⟩ := hscheme.alpha
  have htrim : trimOf isControlOrSpace (scheme ++ ':' :: '/' :: '/' :: (authority ++ path ++ searchText search)) =
      scheme ++ ':' :: '/' :: '/' :: (authority ++ path ++ searchText search) := by
    have hform : scheme ++ ':' :: '/' :: '/' :: (authority ++ path ++ searchText search) =
        first :: ((tail ++ ':' :: '/' :: '/' :: most) ++ [last]) := by
      rw [hlast,htext]
      simp only [List.cons_append,List.append_assoc]
    rw [hform]
    exact trimOf_ends (isControlOrSpace_alpha hfirst) hends
  have hfilter : (scheme ++ ':' :: '/' :: '/' :: (authority ++ path ++ searchText search)).filter (fun c => !isTabOrNewline c) =
      scheme ++ ':' :: '/' :: '/' :: (authority ++ path ++ searchText search) := by
    refine List.filter_eq_self.mpr fun c hc => ?_
    have hkind : isTabOrNewline c = false := by
      simp only [List.mem_append,List.mem_cons] at hc
      rcases hc with hc | rfl | rfl | rfl | (hc | hc) | hc
      · exact isTabOrNewline_scheme (hscheme.chars c hc)
      · rfl
      · rfl
      · rfl
      · exact hclean c (List.mem_append_left _ (List.mem_append_left _ hc))
      · exact hclean c (List.mem_append_left _ (List.mem_append_right _ hc))
      · rcases mem_searchText hc with rfl | hc
        · rfl
        · exact hclean c (List.mem_append_right _ hc)
    rw [hkind]
    rfl
  have hsplit : (authority ++ path).takeWhile (fun c => !isPathSeparator (isSpecial (String.ofList scheme)) c) = authority ∧
      (authority ++ path).dropWhile (fun c => !isPathSeparator (isSpecial (String.ofList scheme)) c) = path := by
    refine takeWhile_stop (fun c hc => ?_) (fun c hc => ?_)
    · rw [isPathSeparator_false (hmarks c hc)]
      rfl
    · rw [hpath c hc]
      rfl
  unfold parseUrl
  rw [htrim,hfilter,readScheme_append hscheme,Option.bind_some]
  dsimp only
  rw [parseRest_composed hfile hauthority hmarks hpathMarks hsearch]
  unfold parseHierarchical
  dsimp only
  rw [hsplit.1,hsplit.2]
  cases parseAuthority platform (String.ofList scheme) authority <;> rfl

theorem parseAuthority_credentials {user password host digits : List Char} (scheme : String)
    (huser : ∀ c ∈ user, keepsUserinfo c = true)
    (hpassword : ∀ c ∈ password, keepsUserinfo c = true) (hne : host ≠ []) (hat : '@' ∉ host ++ ':' :: digits)
    (hcut : cutPort false (host ++ ':' :: digits) = (host,some digits)) :
    parseAuthority platform scheme (user ++ ':' :: password ++ '@' :: (host ++ ':' :: digits)) =
      (parseHost platform (isSpecial scheme) host).bind fun hostname => (parsePort scheme digits).map fun port =>
        ((String.ofList user,String.ofList password),hostname,port) := by
  have huserinfo : readUserinfo (user ++ ':' :: password) = (String.ofList user,String.ofList password) := by
    have hcolon : cut (· = ':') (user ++ ':' :: password) = (user,some password) := by
      refine cut_append (fun c hc => decide_eq_false ?_) (decide_eq_true rfl)
      rintro rfl
      exact absurd (huser _ hc) (by decide)
    unfold readUserinfo
    rw [hcolon]
    dsimp only
    rw [percentEncode_kept huser,Option.getD_some,percentEncode_kept hpassword]
  unfold parseAuthority
  rw [cutLast_append hat]
  dsimp only [Option.getD_some]
  rw [if_neg fun hempty => absurd (List.append_eq_nil_iff.mp hempty.2).2 (List.cons_ne_nil _ _),hcut]
  dsimp only
  rw [if_neg fun hempty => hne hempty.1,huserinfo]
  cases parseHost platform (isSpecial scheme) host with
  | none => rfl
  | some hostname =>
    rw [Option.map_some,Option.getD_some]
    cases parsePort scheme digits <;> rfl

end Composed

end StructureAi.Foundation

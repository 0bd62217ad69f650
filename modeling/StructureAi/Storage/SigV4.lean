import StructureAi.Foundation.Entries
import StructureAi.Foundation.Url

/-! # Signature Version 4

`signRequest`: the canonical request of a method, a URL and headers is hashed, and its hash is signed with a key derived
from the date, the region and the service. Hashes, the comparison of a locale and the case of letters are the platform's.
-/
namespace StructureAi.Storage.SigV4
open StructureAi.Foundation

structure Platform where
  urls : UrlPlatform
  toLowerCase : String → String
  toLowerCase_lower : ∀ text : String, (∀ c ∈ text.toList, c.toNat < 0x80 ∧ c.isUpper = false) → toLowerCase text = text
  localeCompare : List Char → List Char → Ordering
  localeCompare_self : ∀ text, localeCompare text text = .eq
  /-- `createHash("sha256").update(data).digest()` -/
  sha256 : List UInt8 → List UInt8
  /-- `createHmac("sha256", key).update(data).digest()` -/
  hmac : List UInt8 → List UInt8 → List UInt8

structure Credentials where
  accessKeyId : String
  secretAccessKey : String
  region : String
  service : String

abbrev Headers := List (String × String)

/-- What is signed, but for its body. -/
structure Options where
  method : String
  url : Url
  headers : Headers
  payloadHash : String
  /-- `now.toISOString()` -/
  now : String

structure SignedRequest where
  url : List Char
  method : String
  headers : Headers

def hexDigest (bytes : List UInt8) : String :=
  String.ofList (bytes.flatMap fun b => [Nat.digitChar (b.toNat / 16),Nat.digitChar (b.toNat % 16)])

section Encoding

def isUriChar (c : Char) : Bool := c.isAlphanum || c ∈ ['-','.','_','~']

/-- `/` is kept where `encodeSlash` is false. -/
def uriEncode (value : List Char) (encodeSlash : Bool) : List Char :=
  (encodeUtf8 value).flatMap fun byte =>
    if byte.toNat < 128 && isUriChar (Char.ofNat byte.toNat) then [Char.ofNat byte.toNat]
    else if byte = 0x2f ∧ encodeSlash = false then ['/']
    else escapeByte byte

/-- `none` where a segment cannot be decoded. -/
def canonicalUri (pathName : List Char) : Option (List Char) :=
  ((pathName.splitOn '/').mapM fun segment => (decodeURIComponent (String.ofList segment)).map fun decoded =>
    uriEncode decoded false).map
    (List.intercalate ['/'])

end Encoding

section Signing
variable (platform : Platform)

def sha256Hex (data : List UInt8) : String := hexDigest (platform.sha256 data)

def comparePairs (a b : List Char × List Char) : Bool :=
  if a.1 = b.1 then (platform.localeCompare a.2 b.2).isLE else (platform.localeCompare a.1 b.1).isLE

def pairText (pair : List Char × List Char) : List Char := pair.1 ++ '=' :: pair.2

def canonicalQuery (query : List Char) : List Char :=
  let pairs := (searchParams query).map fun pair => (uriEncode pair.1 true,uriEncode pair.2 true)
  List.intercalate ['&'] ((pairs.mergeSort (comparePairs platform)).map pairText)

def headerText (header : List Char × List Char) : List Char := header.1 ++ ':' :: (header.2 ++ ['\n'])

/-- The lines of the headers, and the names that are signed. -/
def canonicalHeaders (headers : Headers) : List Char × List Char :=
  let lowered := (headers.map fun header => ((platform.toLowerCase (String.ofList (trim header.1.toList))).toList,
    trim header.2.toList)).mergeSort
    fun a b => (platform.localeCompare a.1 b.1).isLE
  (lowered.flatMap headerText,List.intercalate [';'] (lowered.map Prod.fst))

/-- `replace(/[:-]|\.\d{3}/gu, "")` -/
def compactTime : List Char → List Char
  | '.' :: a :: b :: c :: rest =>
    if a.isDigit && b.isDigit && c.isDigit then compactTime rest else '.' :: compactTime (a :: b :: c :: rest)
  | c :: rest => if c = ':' ∨ c = '-' then compactTime rest else c :: compactTime rest
  | [] => []

variable (options : Options)

def amzDate : List Char := compactTime options.now.toList

/-- What is always signed, and over it the headers of the request. -/
def allHeaders : Headers :=
  options.headers.foldl (fun headers header => Foundation.put header.1 header.2 headers)
    [("host",options.url.host),("x-amz-content-sha256",options.payloadHash),("x-amz-date",String.ofList (amzDate options))]

def lines (parts : List (List Char)) : List Char := List.intercalate ['\n'] parts

def canonicalRequest : Option (List Char) :=
  (canonicalUri options.url.pathname.toList).map fun uri =>
    let (canonical,signed) := canonicalHeaders platform (allHeaders options)
    lines [options.method.toList,uri,canonicalQuery platform options.url.query,canonical,signed,options.payloadHash.toList]

def signingKey (credentials : Credentials) (dateStamp : List Char) : List UInt8 :=
  let seed := encodeUtf8 ("AWS4".toList ++ credentials.secretAccessKey.toList)
  platform.hmac (platform.hmac (platform.hmac (platform.hmac seed (encodeUtf8 dateStamp)) (encodeUtf8 credentials.region.toList))
    (encodeUtf8 credentials.service.toList)) (encodeUtf8 "aws4_request".toList)

/-- `none` where it throws. -/
def signRequest (credentials : Credentials) : Option SignedRequest :=
  (canonicalRequest platform options).map fun canonicalRequest =>
    let dateStamp := (amzDate options).take 8
    let scope := dateStamp ++ '/' :: credentials.region.toList ++ '/' :: credentials.service.toList ++ "/aws4_request".toList
    let stringToSign := lines ["AWS4-HMAC-SHA256".toList,amzDate options,scope,
      (sha256Hex platform (encodeUtf8 canonicalRequest)).toList]
    let signature := hexDigest (platform.hmac (signingKey platform credentials dateStamp) (encodeUtf8 stringToSign))
    let authorization := "AWS4-HMAC-SHA256 Credential=".toList ++ credentials.accessKeyId.toList ++ '/' :: scope ++
      ", SignedHeaders=".toList ++ (canonicalHeaders platform (allHeaders options)).2 ++ ", Signature=".toList ++
        signature.toList
    ⟨options.url.href,options.method,Foundation.put "authorization" (String.ofList authorization) (allHeaders options)⟩

end Signing

end StructureAi.Storage.SigV4

import StructureAi.Storage.S3
import StructureAi.Storage.SigV4

/-! # The requests of the S3 driver

Every request is made of a method, the URL of an object or of a listing, headers and the hash of its body; it is signed,
and sent by `fetch`, which reads the URL again and cuts off the white space around the values of the headers.
-/
namespace StructureAi.Storage.S3
open StructureAi.Foundation

section Keys

def isKeyChar (c : Char) : Bool := c.isAlphanum || c ∈ ['.','_','-']

/-- `/^[A-Za-z0-9][A-Za-z0-9._-]{0,255}$/` -/
def isKeySegment : List Char → Bool
  | [] => false
  | c :: rest => c.isAlphanum && rest.length ≤ 255 && rest.all isKeyChar

def isValidKey (raw : String) : Bool :=
  let text := raw.toList
  if text.length = 0 ∨ (codeUnits raw).length > 1024 then false
  else if text.head? = some '/' ∨ text.getLast? = some '/' then false
  else if '\\' ∈ text then false
  else (text.splitOn '/').all isKeySegment

end Keys

structure S3StorageOptions where
  bucket : String
  credentials : SigV4.Credentials
  endpoint : Option String
  keyPrefix : Option String

/-- What the driver asks for: the requests of a put, and the others. -/
inductive Operation
  | object (key : String) (request : Request)
  | get (key : String)
  | head (key : String)
  | delete (key : String)
  | list (searched : String)

section Requests
variable (options : S3StorageOptions)

/-- `endpoint`, or that of the region, without the slashes at its end. -/
def S3StorageOptions.base : List Char :=
  let endpoint := options.endpoint.getD ("https://s3." ++ options.credentials.region ++ ".amazonaws.com")
  (endpoint.toList.reverse.dropWhile (· = '/')).reverse

/-- A key or a prefix, below the prefix of the keys. -/
def S3StorageOptions.prefixed (key : String) : String :=
  match options.keyPrefix with
  | none => key
  | some above => above ++ "/" ++ key

def objectPath (key : String) : List Char :=
  List.intercalate ['/'] (((options.prefixed key).toList.splitOn '/').map fun segment => SigV4.uriEncode segment true)

def Operation.method : Operation → String
  | .object _ (.put ..) => "PUT"
  | .object _ (.initiate ..) => "POST"
  | .object _ (.part ..) => "PUT"
  | .object _ (.complete ..) => "POST"
  | .object _ (.abort ..) => "DELETE"
  | .get _ => "GET"
  | .head _ => "HEAD"
  | .delete _ => "DELETE"
  | .list _ => "GET"

/-- What follows the question mark, if there is one. -/
def Operation.search : Operation → Option (List Char)
  | .object _ (.initiate _) => some "uploads=".toList
  | .object _ (.part uploadId number _ _) =>
    some ("partNumber=".toList ++ Nat.toDigits 10 number ++ "&uploadId=".toList ++ (encodeURIComponent uploadId).toList)
  | .object _ (.complete uploadId _ _) => some ("uploadId=".toList ++ (encodeURIComponent uploadId).toList)
  | .object _ (.abort uploadId) => some ("uploadId=".toList ++ (encodeURIComponent uploadId).toList)
  | .list searched => some ("list-type=2&prefix=".toList ++ (encodeURIComponent (options.prefixed searched)).toList)
  | _ => none

def Operation.headers : Operation → Headers
  | .object _ (.put headers _) => headers
  | .object _ (.initiate headers) => headers
  | .object _ (.part _ _ headers _) => headers
  | .object _ (.complete _ headers _) => headers
  | _ => []

def Operation.payload : Operation → List UInt8
  | .object _ (.put _ body) => body
  | .object _ (.part _ _ _ body) => body
  | .object _ (.complete _ _ body) => encodeUtf8 body.toList
  | _ => []

/-- `/<bucket>`, and the path of an object below it. -/
def Operation.path : Operation → List Char
  | .object key _ => '/' :: (options.bucket.toList ++ '/' :: objectPath options key)
  | .get key => '/' :: (options.bucket.toList ++ '/' :: objectPath options key)
  | .head key => '/' :: (options.bucket.toList ++ '/' :: objectPath options key)
  | .delete key => '/' :: (options.bucket.toList ++ '/' :: objectPath options key)
  | .list _ => '/' :: options.bucket.toList

variable (platform : SigV4.Platform)

/-- `new URL(…)` of a request. -/
def Operation.url (operation : Operation) : Option Url :=
  parseUrl platform.urls (options.base ++ operation.path options ++ searchText (operation.search options))

def Operation.signing (now : String) (operation : Operation) : Option SigV4.Options :=
  (operation.url options platform).map fun url =>
    ⟨operation.method,url,operation.headers,SigV4.sha256Hex platform operation.payload,now⟩

/-- A request on the wire. -/
structure WireRequest where
  method : String
  path : List Char
  query : List Char
  headers : Headers

def isHttpWhiteSpace (c : Char) : Bool := c = '\t' || c = '\n' || c = '\r' || c = ' '

def sentValue (value : String) : List Char := trimOf isHttpWhiteSpace value.toList

/-- A value of a header that `fetch` takes. -/
def isSendable (value : List Char) : Bool := value.all fun c => c ≠ '\x00' && c ≠ '\n' && c ≠ '\r' && c.toNat ≤ 0xff

/-- What `fetch` sends of a signed request, unless it throws. -/
def send (signed : SigV4.SignedRequest) : Option WireRequest :=
  if signed.headers.all fun header => isSendable (sentValue header.2) then
    (parseUrl platform.urls signed.url).map fun url =>
      ⟨signed.method,url.pathname.toList,url.query,signed.headers.map fun header =>
        (header.1,String.ofList (sentValue header.2))⟩
  else none

end Requests

section Forms

def byteLe (a b : List Char) : Bool := (encodeUtf8 a).map UInt8.toNat ≤ (encodeUtf8 b).map UInt8.toNat

def collapseSpaces : List Char → List Char
  | [] => []
  | [c] => [c]
  | c :: d :: rest => if c = ' ' ∧ d = ' ' then collapseSpaces (d :: rest) else c :: collapseSpaces (d :: rest)

def formHeaders (headers : Headers) : List (List Char × List Char) :=
  (((headers.filter fun header => header.1 ≠ "authorization").map fun header =>
    (header.1.toList.map Char.toLower,collapseSpaces (trimOf (· = ' ') header.2.toList))).mergeSort fun a b => byteLe a.1 b.1)

/-- The pairs of a query as they are read from the wire, encoded and in the order of their bytes. -/
def formQuery (query : List Char) : List (List Char × List Char) :=
  (((query.splitOn '&').filter fun piece => piece ≠ []).map fun piece =>
    (percentEncode SigV4.isUriChar (decodeUtf8 (percentDecode (cut (· = '=') piece).1)),
      percentEncode SigV4.isUriChar (decodeUtf8 (percentDecode ((cut (· = '=') piece).2.getD []))))).mergeSort
    fun a b => if a.1 = b.1 then byteLe a.2 b.2 else byteLe a.1 b.1

/-- The canonical form of a request, whose path is taken as it was sent. -/
def canonicalForm (wire : WireRequest) : List Char :=
  let headers := formHeaders wire.headers
  SigV4.lines [wire.method.toList,wire.path,List.intercalate ['&'] ((formQuery wire.query).map SigV4.pairText),
    headers.flatMap SigV4.headerText,List.intercalate [';'] (headers.map Prod.fst),
    ((wire.headers.lookup "x-amz-content-sha256").getD "").toList]

end Forms

end StructureAi.Storage.S3

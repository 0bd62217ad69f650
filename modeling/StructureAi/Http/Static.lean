import StructureAi.Foundation.FileSystem
import StructureAi.Foundation.Percent
import StructureAi.Foundation.Text

/-! # Static serving

A request path is decoded and split, located below the real root or replaced by the fallback, and
the file found is sent, or its precompressed sibling. Paths are lists of names, so that a separator
stands between two of them and before the first.
-/
namespace StructureAi.Http
open StructureAi.Foundation

section Options

structure StaticOptions where
  directory : String
  servedUnder : Option String := none
  spaFallback : Option String := none
  cacheControl : Option (String → String) := none

/-- `prefix`, which is the root by default. -/
def StaticOptions.mount (options : StaticOptions) : String := options.servedUnder.getD "/"

structure StaticRequest where
  method : String
  accept : Option String := none
  acceptEncoding : Option String := none
  ifNoneMatch : Option String := none

/-- Control bytes (including NUL), DEL and backslashes. -/
def hasForbiddenChar (value : List Char) : Bool := value.any fun c => c.toNat < 0x20 || c.toNat = 0x7f || c.toNat = 0x5c

def unsafeSegment (segment : String) : Bool := segment = "." || segment = ".." || segment.toList.head? = some '.'

/-- The parts of a decoded path between its separators. -/
def segmentsOf (decoded : List Char) : List String :=
  ((decoded.splitOn '/').filter fun segment => segment ≠ []).map String.ofList

def safeSegments (encodedPath : String) : Option (List String) :=
  (decodeURIComponent encodedPath).bind fun decoded =>
    if hasForbiddenChar decoded then none
    else if (segmentsOf decoded).any unsafeSegment then none
    else some (segmentsOf decoded)

def validateOptions (options : StaticOptions) : List String :=
  let directory := if options.directory = "" then ["directory must not be empty"] else []
  let start := if options.mount.toList.head? ≠ some '/' then ["prefix \"" ++ options.mount ++ "\" must start with \"/\""] else []
  let slash := if 1 < options.mount.length ∧ options.mount.toList.getLast? = some '/' then
      ["prefix \"" ++ options.mount ++ "\" must not end with \"/\""] else []
  let query := if '?' ∈ options.mount.toList ∨ '#' ∈ options.mount.toList then
      ["prefix \"" ++ options.mount ++ "\" must not contain a query or fragment"] else []
  let fallback := match options.spaFallback with
    | none => []
    | some path =>
      match safeSegments path with
      | none | some [] => ["spaFallback \"" ++ path ++ "\" must be a safe relative file path"]
      | some _ => []
  directory ++ start ++ slash ++ query ++ fallback

end Options

section Headers

def lower (cs : List Char) : List Char := cs.map Char.toLower

/-- The name of a header member, without its parameters. -/
def memberName (token : List Char) : List Char := lower (trim (((trim token).splitOn ';').headD []))

def tokens (header : Option String) : List (List Char) :=
  match header with
  | none => []
  | some value => value.toList.splitOn ','

/-- Comma-separated header members without their parameters, lower-cased. -/
def members (header : Option String) : List (List Char) := (tokens header).map memberName

inductive Encoding where
  | br
  | gzip
deriving DecidableEq

def Encoding.name : Encoding → String
  | br => "br"
  | gzip => "gzip"

def Encoding.suffix : Encoding → String
  | br => ".br"
  | gzip => ".gz"

local instance lawful_headers : LawfulBEq (List Char) := inferInstance

def acceptsEncoding (header : Option String) (encoding : Encoding) : Bool := encoding.name.toList ∈ members header

def acceptsHtml (header : Option String) : Bool := "text/html".toList ∈ members header

def etagMatches (header : Option String) (etag : String) : Bool :=
  ((header.getD "").toList.splitOn ',').any fun token => trim token = ['*'] || trim token = etag.toList

end Headers

section Serving

/-- What `stat` tells of a file: its size and the time of its last change in milliseconds. -/
structure FileInfo where
  size : ℕ
  mtime : ℤ

structure Located where
  file : Path
  relative : String

structure Variant where
  file : Path
  encoding : Option Encoding
  info : FileInfo

def hexText (z : ℤ) : String :=
  (if z < 0 then "-" else "") ++ String.ofList (Nat.toDigits 16 z.natAbs)

def weakEtag (variant : Variant) : String :=
  "W/\"" ++ hexText variant.info.size ++ "-" ++ hexText variant.info.mtime ++ "\""

/-- `candidate === root || candidate.startsWith(root + sep)`; no path starts with two separators. -/
def isInside (root candidate : Path) : Bool := candidate = root || (root ≠ [] && root.isPrefixOf candidate)

/-- The path with a suffix after its last name. -/
def withSuffix (path : Path) (suffix : String) : Path :=
  match path.getLast? with
  | none => [suffix]
  | some name => path.dropLast ++ [name ++ suffix]

/-- `resolve(directory)` in a working directory. -/
def resolve (cwd : Path) (directory : String) : Path :=
  let start := if directory.toList.head? = some '/' then [] else cwd
  ((directory.toList.splitOn '/').map String.ofList).foldl (fun path name =>
    if name = "" ∨ name = "." then path else if name = ".." then path.dropLast else path ++ [name]) start

variable (fs : FileSystem FileInfo)

def missingFile : FsError → Bool
  | .notFound | .notDirectory => true
  | .tooManyLinks => false

def unlessMissing {A : Type} (r : Except FsError A) : Except FsError (Option A) :=
  match r with
  | .ok a => .ok (some a)
  | .error e => if missingFile e then .ok none else .error e

def fileStat (path : Path) : Except FsError (Option FileInfo) := do
  match ← unlessMissing (fs.stat path) with
  | some (some (.file info)) => return some info
  | _ => return none

def isDirectory (path : Path) : Except FsError Bool := do
  match ← unlessMissing (fs.stat path) with
  | some (some .directory) => return true
  | _ => return false

/-- Locates a regular file for the given safe segments, or nothing. -/
def locate (rootPath : Path) (segments : List String) : Except FsError (Option Located) := do
  let candidate := rootPath ++ segments
  if !isInside rootPath candidate then return none
  let candidate := if ← isDirectory fs candidate then candidate ++ ["index.html"] else candidate
  match ← fileStat fs candidate with
  | none => return none
  | some _ =>
    match ← unlessMissing (fs.realpath candidate) with
    | none => return none
    | some real =>
      if !isInside rootPath real then return none
      return some ⟨real,"/" ++ "/".intercalate (real.drop rootPath.length)⟩

/-- The first of the encodings that the client accepts and the file has a sibling for. -/
def pickEncoded (located : Located) (acceptEncoding : Option String) : List Encoding → Except FsError (Option Variant)
  | [] => return none
  | encoding :: rest => do
    if !acceptsEncoding acceptEncoding encoding then pickEncoded located acceptEncoding rest
    else match ← fileStat fs (withSuffix located.file encoding.suffix) with
      | some info => return some ⟨withSuffix located.file encoding.suffix,some encoding,info⟩
      | none => pickEncoded located acceptEncoding rest

/-- Picks the precompressed sibling the client accepts, else the file itself. -/
def pickVariant (located : Located) (acceptEncoding : Option String) : Except FsError (Option Variant) := do
  match ← pickEncoded fs located acceptEncoding [.br,.gzip] with
  | some variant => return some variant
  | none => return (← fileStat fs located.file).map fun info => ⟨located.file,none,info⟩

/-- Whether `path` is the prefix itself or lies below it on a segment boundary. -/
def underPrefix (mount path : String) : Bool := mount = "/" || path = mount || (mount ++ "/").toList.isPrefixOf path.toList

variable (cwd : Path) (options : StaticOptions)

/-- The path below the prefix of a request that may be served. -/
def requestedPath (request : StaticRequest) (path : String) : Option String :=
  if request.method ≠ "GET" ∧ request.method ≠ "HEAD" then none
  else if !underPrefix options.mount path then none
  else some (if options.mount = "/" then path else String.ofList (path.toList.drop options.mount.length))

/-- The file located for the segments of the path, or for those of the fallback. -/
def locateRequested (rootPath : Path) (request : StaticRequest) (segments : List String) : Except FsError (Option Located) := do
  match ← locate fs rootPath segments with
  | some located => return some located
  | none =>
    match options.spaFallback.bind safeSegments with
    | none => return none
    | some fallback => if acceptsHtml request.accept then locate fs rootPath fallback else return none

def serve (request : StaticRequest) (path : String) : Except FsError (Option (Located × Variant)) := do
  match (requestedPath options request path).bind safeSegments with
  | none => return none
  | some segments =>
    match ← unlessMissing (fs.realpath (resolve cwd options.directory)) with
    | none => return none
    | some rootPath =>
      match ← locateRequested fs options rootPath request segments with
      | none => return none
      | some located => return (← pickVariant fs located request.acceptEncoding).map fun variant => (located,variant)

inductive StaticResponse where
  | notModified (headers : List (String × String))
  | file (path : Path) (headers : List (String × String))
  /-- The response to a failure of the file system. -/
  | failed

/-- What the response takes from the platform: the media type of a file and the text of a date. -/
structure Rendering where
  mediaType : Path → String
  utc : ℤ → String

variable (rendering : Rendering)

def respond (request : StaticRequest) (located : Located) (variant : Variant) : StaticResponse :=
  let etag := weakEtag variant
  let headers := [("x-content-type-options","nosniff"),("cache-control",
    (options.cacheControl.getD fun _ => "no-cache") located.relative),
    ("vary","accept-encoding"),("etag",etag),("last-modified",rendering.utc variant.info.mtime)]
  if etagMatches request.ifNoneMatch etag then .notModified headers
  else .file variant.file (headers ++ [("content-type",rendering.mediaType located.file),
    ("content-length",toString variant.info.size)] ++
    (variant.encoding.map fun encoding => ("content-encoding",encoding.name)).toList)

/-- The response of the static server, if the request is for it. -/
def staticResponse (request : StaticRequest) (path : String) : Option StaticResponse :=
  match serve fs cwd options request path with
  | .ok none => none
  | .ok (some (located,variant)) => some (respond options rendering request located variant)
  | .error _ => some .failed

end Serving
end StructureAi.Http

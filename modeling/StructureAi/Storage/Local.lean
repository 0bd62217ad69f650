import StructureAi.Foundation.Retries
import StructureAi.Foundation.Text

/-! # The local driver

An object is two files: its data, and a sidecar with what else is known of it. Each step of `put` may fail, and
what a failing step leaves in its file is anything up to the whole. Times are milliseconds.
-/
namespace StructureAi.Storage
open StructureAi.Foundation

inductive Disposition
  | attachment
  | inlineIfIsolated
deriving DecidableEq

structure MetaFile where
  contentType : String
  disposition : Disposition
  etag : String
  size : ℕ
  lastModified : ℤ
  metadata : Option (List (String × String))
deriving DecidableEq

/-- The text of a sidecar: all of it, or a beginning of it, which is no JSON. -/
inductive Sidecar
  | whole (file : MetaFile)
  | cut
deriving DecidableEq

/-- The two files of a key. -/
structure Files where
  data : Option (List UInt8)
  sidecar : Option Sidecar

/-- Fixed bytes, or a stream: its chunks, and what it fails with after them. A stream with a reader is locked. -/
inductive Body
  | bytes (content : List UInt8)
  | stream (chunks : List (List UInt8)) (failure : Option String)
  | locked

structure PutInput where
  key : String
  body : Body
  contentType : String
  disposition : Option Disposition
  metadata : Option (List (String × String))

structure StoredObject where
  key : String
  contentType : String
  size : ℕ
  etag : String
  lastModified : ℤ
  disposition : Disposition
  metadata : Option (List (String × String))
deriving DecidableEq

structure RetrievedObject where
  object : StoredObject
  body : List UInt8
deriving DecidableEq

inductive StorageError
  | objectNotFound (key : String)
  | unavailable (operation reason : String)
  | validation (field reason : String)
deriving DecidableEq

/-- What `once` the file is open comes of a write: the code of its error, and how much a failing one leaves. -/
structure FileWrite where
  opened : Bool
  fault : Option String
  reached : ℕ

/-- What the file system does in one attempt, and the id and the time that it draws. -/
structure Attempt where
  mkdir : Option String
  data : FileWrite
  sidecar : FileWrite
  etag : String
  now : ℤ

section ContentTypes

/-- A character of a media type, or of the name of its parameter. -/
def isTypeChar (c : Char) : Bool :=
  c.isAlphanum || c ∈ ['!','#','$','%','&','\'','*','+','.','^','_','\x60','|','~','/','-']

def isParameter (cs : List Char) : Bool :=
  match cs.dropWhile isWhiteSpace with
  | ';' :: rest =>
    let name := (rest.dropWhile isWhiteSpace).takeWhile isTypeChar
    match (rest.dropWhile isWhiteSpace).dropWhile isTypeChar with
    | '=' :: value => name ≠ [] && value.length ≤ 255 && value.all fun c => c ∉ ['\r','\n',';']
    | _ => false
  | _ => false

def validContentType (contentType : String) : Bool :=
  (codeUnits contentType).length ≤ 255 && contentType.toList.takeWhile isTypeChar ≠ [] &&
    (contentType.toList.dropWhile isTypeChar = [] || isParameter (contentType.toList.dropWhile isTypeChar))

end ContentTypes

def Body.content : Body → List UInt8
  | .bytes content => content
  | .stream chunks _ => chunks.flatten
  | .locked => []

/-- What a body fails with while it is read: a locked stream gives no reader. -/
def Body.failure : Body → Option String
  | .bytes _ => none
  | .stream _ failure => failure
  | .locked => some "ERR_INVALID_STATE"

def Body.taken : Body → Body
  | .bytes content => .bytes content
  | .stream _ _ => .locked
  | .locked => .locked

def FileWrite.failure (w : FileWrite) : Option String := if w.opened then w.fault else some (w.fault.getD "error")

/-- `pump`, and `writeFile` of fixed bytes: the file is emptied when it is opened. -/
def writeData (w : FileWrite) (body : Body) (data : Option (List UInt8)) : Except String ℕ × Option (List UInt8) :=
  match body.failure.or w.failure with
  | none => (.ok body.content.length,some body.content)
  | some code => (.error code,if w.opened then some (body.content.take w.reached) else data)

/-- `writeFile` of the sidecar, of so many characters. -/
def writeSidecar (w : FileWrite) (file : MetaFile) (textLength : ℕ) (sidecar : Option Sidecar) :
    Except String Unit × Option Sidecar :=
  match w.failure with
  | none => (.ok (),some (.whole file))
  | some code => (.error code,if w.opened then some (if textLength ≤ w.reached then .whole file else .cut) else sidecar)

/-- `StorageUnavailable` of a failing step. -/
def unavailable (operation code : String) : StorageError := .unavailable operation ("local-fs-" ++ code)

/-- The description that a put draws up after the data is written. -/
def metaFile (input : PutInput) (attempt : Attempt) (written : ℕ) : MetaFile :=
  ⟨input.contentType,input.disposition.getD .attachment,attempt.etag,written,attempt.now,input.metadata⟩

section Driver
variable (textLength : MetaFile → ℕ)

/-- One attempt of `put`: the directory, the data and then the sidecar. -/
def attemptPut (input : PutInput) (attempts : ℕ → Attempt) (index : ℕ) (state : Body × Files) :
    Except StorageError MetaFile × (Body × Files) :=
  match (attempts index).mkdir with
  | some code => (.error (unavailable "put" code),state)
  | none =>
    match writeData (attempts index).data state.1 state.2.data with
    | (.error code,data) => (.error (unavailable "put" code),(state.1.taken,⟨data,state.2.sidecar⟩))
    | (.ok written,data) =>
      let file := metaFile input (attempts index) written
      match writeSidecar (attempts index).sidecar file (textLength file) state.2.sidecar with
      | (.error code,sidecar) => (.error (unavailable "put" code),(state.1.taken,⟨data,sidecar⟩))
      | (.ok _,sidecar) => (.ok file,(state.1.taken,⟨data,sidecar⟩))

def StorageError.isUnavailable : StorageError → Bool
  | .unavailable _ _ => true
  | _ => false

def toStored (key : String) (file : MetaFile) : StoredObject :=
  ⟨key,file.contentType,file.size,file.etag,file.lastModified,file.disposition,file.metadata⟩

/-- `put`: up to three attempts. -/
def put (input : PutInput) (attempts : ℕ → Attempt) (files : Files) : Except StorageError StoredObject × Files :=
  if validContentType input.contentType then
    let (result,_,files) := retrying StorageError.isUnavailable (attemptPut textLength input attempts) 2 0 (input.body,files)
    (result.map (toStored input.key),files)
  else (.error (.validation "contentType" "is not a valid media type"),files)

end Driver

/-- `get`, where nothing fails: the sidecar is read first, and parsed when the data is known to be there. -/
def get (key : String) (files : Files) : Except StorageError RetrievedObject :=
  match files.sidecar with
  | none => .error (.objectNotFound key)
  | some raw =>
    match files.data with
    | none => .error (.objectNotFound key)
    | some content =>
      match raw with
      | .cut => .error (unavailable "get" "error")
      | .whole file => .ok ⟨toStored key file,content⟩

end StructureAi.Storage

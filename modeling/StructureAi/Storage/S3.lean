import StructureAi.Foundation.Entries
import StructureAi.Storage.Local

/-! # The S3 driver

Fixed bytes go out as one request, a stream in parts of one size, unless it ends within the first of them. The replies
are given by the number of the request. Dates are left as texts, and `toLowerCase` as the platform has it.
-/
namespace StructureAi.Storage.S3
open StructureAi.Foundation

/-- `StorageError` -/
inductive Failure
  | objectNotFound (key : String)
  | rejected (operation reason : String)
  | unavailable (operation reason : String)
  | validation (field reason : String)
deriving DecidableEq

/-- What is thrown inside a put: a storage error, or anything else. -/
inductive Thrown
  | storage (failure : Failure)
  | other
deriving DecidableEq

abbrev Headers := List (String × String)

structure Response where
  status : ℕ
  headers : Headers
  /-- What `readText` comes to. -/
  text : Except Thrown String

abbrev Reply := Except Thrown Response

/-- The requests of a put, all to the URL of the object. -/
inductive Request
  | put (headers : Headers) (body : List UInt8)
  | initiate (headers : Headers)
  | part (uploadId : String) (number : ℕ) (headers : Headers) (body : List UInt8)
  | complete (uploadId : String) (headers : Headers) (body : String)
  | abort (uploadId : String)
deriving DecidableEq

/-- How the reads of a stream end, if they do. -/
inductive Ending
  | done
  | failed (thrown : Thrown)
  | pending

structure ByteStream where
  locked : Bool
  chunks : List (List UInt8)
  ending : Ending

inductive Body
  | bytes (content : List UInt8)
  | stream (stream : ByteStream)

structure PutInput where
  key : String
  body : Body
  contentType : String
  disposition : Option Disposition
  metadata : Option (List (String × String))

structure StoredObject where
  key : String
  contentType : String
  size : ℕ
  etag : Option String
  lastModified : Option String
  disposition : String
  metadata : Option (List (String × String))
deriving DecidableEq

def dispositionText : Disposition → String
  | .attachment => "attachment"
  | .inlineIfIsolated => "inline-if-isolated"

/-- `input.disposition ?? "attachment"` -/
def PutInput.declared (input : PutInput) : String := dispositionText (input.disposition.getD .attachment)

def failure (operation : String) (status : ℕ) (key : String) : Failure :=
  if status = 404 then .objectNotFound key
  else if status = 429 ∨ status = 408 ∨ 500 ≤ status then .unavailable operation ("s3-" ++ toString status)
  else .rejected operation ("s3-" ++ toString status)

section Metadata
variable (toLowerCase : String → String)

def isNameChar (c : Char) : Bool := ('a' ≤ c && c ≤ 'z') || ('0' ≤ c && c ≤ '9') || c = '-'

def metadataHeaderName (name : String) : Option String :=
  let cleaned := (toLowerCase (String.ofList (trim name.toList))).toList.map fun c => if isNameChar c then c else '-'
  if cleaned.length = 0 ∨ cleaned.length > 64 then none else some (String.ofList cleaned)

def metaPrefix : String := "x-amz-meta-"

/-- One entry of the metadata becomes a header. -/
def setMetadata (headers : Headers) (entry : String × String) : Headers :=
  match metadataHeaderName toLowerCase entry.1 with
  | none => headers
  | some header => Foundation.put (metaPrefix ++ header) (String.ofList (entry.2.toList.take 1024)) headers

def metaHeaders (input : PutInput) : Headers :=
  (input.metadata.getD []).foldl (setMetadata toLowerCase)
    [("content-type",input.contentType),("x-amz-meta-disposition",input.declared)]

end Metadata

def fromHeaders (key : String) (headers : Headers) (size : ℕ) : StoredObject where
  key := key
  contentType := (headers.lookup "content-type").getD "application/octet-stream"
  size := size
  etag := headers.lookup "etag"
  lastModified := headers.lookup "last-modified"
  disposition := (headers.lookup "x-amz-meta-disposition").getD "attachment"
  metadata :=
    let metadata := (headers.filter fun h => metaPrefix.toList.isPrefixOf h.1.toList && h.1 ≠ "x-amz-meta-disposition").map
      fun h => (String.ofList (h.1.toList.drop metaPrefix.length),h.2)
    if metadata = [] then none else some metadata

/-- What the caller is told of a put, with the headers of the reply. -/
def storedFromPut (input : PutInput) (headers : Headers) (size : ℕ) : StoredObject :=
  ⟨input.key,input.contentType,size,headers.lookup "etag",headers.lookup "last-modified",input.declared,input.metadata⟩

section UploadIds

/-- `<UploadId>([^<]+)</UploadId>` at the head of a text. -/
def uploadIdHere (text : List Char) : Option (List Char) :=
  if "<UploadId>".toList.isPrefixOf text then
    let rest := text.drop 10
    if rest.takeWhile (· ≠ '<') ≠ [] ∧ "</UploadId>".toList.isPrefixOf (rest.dropWhile (· ≠ '<')) then
      some (rest.takeWhile (· ≠ '<'))
    else none
  else none

def uploadIdIn : List Char → Option (List Char)
  | [] => none
  | c :: text => (uploadIdHere (c :: text)).or (uploadIdIn text)

end UploadIds

section PutStream
variable (partSize : ℕ+) (key : String) (headers : Headers) (reply : ℕ → Reply)

/-- What the requests of an upload share, with the requests that are sent. -/
structure Upload where
  uploadId : Option String
  partTags : List String
  sent : List Request

/-- A request is sent. Its reply is the one of its number. -/
def Upload.sending (upload : Upload) (request : Request) : Upload := {upload with sent := upload.sent ++ [request]}

/-- The reply to the next request that is sent. -/
def Upload.answer (upload : Upload) : Reply := reply upload.sent.length

def expectOk (operation : String) : Reply → Except Thrown Response
  | .error e => .error e
  | .ok response => if response.status = 200 then .ok response else .error (.storage (failure operation response.status key))

/-- The id in the reply to the start of an upload. -/
def uploadIdOf (reply : Reply) : Except Thrown String :=
  match expectOk key "put-multipart-initiate" reply with
  | .error e => .error e
  | .ok response =>
    match response.text with
    | .error e => .error e
    | .ok text =>
      match uploadIdIn text.toList with
      | none => .error (.storage (.unavailable "put-multipart-initiate" "s3-missing-upload-id"))
      | some id => .ok (String.ofList id)

/-- `uploadId ??= await initiate()` -/
def ensureInitiated (upload : Upload) : Except Thrown String × Upload :=
  match upload.uploadId with
  | some id => (.ok id,upload)
  | none =>
    match uploadIdOf key (upload.answer reply) with
    | .error e => (.error e,upload.sending (.initiate headers))
    | .ok id => (.ok id,{upload.sending (.initiate headers) with uploadId := some id})

def uploadPart (part : List UInt8) (upload : Upload) : Except Thrown Unit × Upload :=
  match ensureInitiated key headers reply upload with
  | (.error e,upload) => (.error e,upload)
  | (.ok id,upload) =>
    let partNumber := upload.partTags.length + 1
    let sending := upload.sending (.part id partNumber headers part)
    match expectOk key "put-part" (upload.answer reply) with
    | .error e => (.error e,sending)
    | .ok response =>
      let tag := (response.headers.lookup "etag").getD ("part-" ++ toString partNumber)
      (.ok (),{sending with partTags := sending.partTags ++ [tag]})

/-- Parts are cut off the buffer while it holds one. -/
def uploadParts (buffered : List UInt8) (upload : Upload) : Except Thrown (List UInt8) × Upload :=
  if partSize ≤ buffered.length then
    match uploadPart key headers reply (buffered.take partSize) upload with
    | (.error e,upload) => (.error e,upload)
    | (.ok _,upload) => uploadParts (buffered.drop partSize) upload
  else (.ok buffered,upload)
termination_by buffered.length
decreasing_by
  have hpositive := partSize.pos
  rw [List.length_drop]
  omega

/-- The chunks of the stream in turn: what is left in the buffer and how much was read. -/
def readChunks : List (List UInt8) → List UInt8 → ℕ → Upload → Except Thrown (List UInt8 × ℕ) × Upload
  | [],buffered,total,upload => (.ok (buffered,total),upload)
  | chunk :: chunks,buffered,total,upload =>
    match uploadParts partSize key headers reply (buffered ++ chunk) upload with
    | (.error e,upload) => (.error e,upload)
    | (.ok buffered,upload) => readChunks chunks buffered (total + chunk.length) upload

def partText (index : ℕ) (etag : String) : String :=
  "<Part><PartNumber>" ++ toString (index + 1) ++ "</PartNumber><ETag>" ++ etag ++ "</ETag></Part>"

def completeBody (partTags : List String) : String :=
  "<CompleteMultipartUpload>" ++ String.join (partTags.mapIdx partText) ++ "</CompleteMultipartUpload>"

/-- `{ ...headers, "content-type": "application/xml" }` -/
def completeHeaders : Headers := Foundation.put "content-type" "application/xml" headers

end PutStream

section Put
variable (partSize : ℕ+) (toLowerCase : String → String) (reply : ℕ → Reply)

/-- After the last chunk: one request if nothing was uploaded yet, else the last part and the completion. -/
def finish (input : PutInput) (headers : Headers) (buffered : List UInt8) (total : ℕ) (upload : Upload) :
    Except Thrown StoredObject × Upload :=
  match upload.uploadId with
  | none => ((expectOk input.key "put" (upload.answer reply)).map fun single => storedFromPut input single.headers total,
      upload.sending (.put headers buffered))
  | some id =>
    match (if buffered.length > 0 then uploadPart input.key headers reply buffered upload else (.ok (),upload)) with
    | (.error e,upload) => (.error e,upload)
    | (.ok _,upload) => ((expectOk input.key "put-multipart-complete" (upload.answer reply)).map fun _ =>
        storedFromPut input [] total,
        upload.sending (.complete id (completeHeaders headers) (completeBody upload.partTags)))

/-- `catch`: an upload that has an id is aborted, whatever comes of that. -/
def abortUpload (upload : Upload) : Upload :=
  match upload.uploadId with
  | none => upload
  | some id => upload.sending (.abort id)

def Thrown.toFailure : Thrown → Failure
  | .storage failure => failure
  | .other => .unavailable "put-stream" "s3-stream"

/-- The reads, and what follows them if they end. -/
def runUpload (input : PutInput) (stream : ByteStream) (headers : Headers) : Option (Except Thrown StoredObject) × Upload :=
  match readChunks partSize input.key headers reply stream.chunks [] 0 ⟨none,[],[]⟩ with
  | (.error e,upload) => (some (.error e),upload)
  | (.ok (buffered,total),upload) =>
    match stream.ending with
    | .pending => (none,upload)
    | .failed thrown => (some (.error thrown),upload)
    | .done =>
      let (result,upload) := finish reply input headers buffered total upload
      (some result,upload)

/-- A put of a stream and the requests that it sends. A read that is never answered leaves it without a result. -/
def putStream (input : PutInput) (stream : ByteStream) (headers : Headers) :
    Option (Except Failure StoredObject) × List Request :=
  if stream.locked then (some (.error (Thrown.toFailure .other)),[])
  else
    match runUpload partSize reply input stream headers with
    | (none,upload) => (none,upload.sent)
    | (some (.ok stored),upload) => (some (.ok stored),upload.sent)
    | (some (.error thrown),upload) => (some (.error thrown.toFailure),(abortUpload upload).sent)

def putBytes (input : PutInput) (content : List UInt8) (headers : Headers) : Except Failure StoredObject × List Request :=
  (match reply 0 with
    | .error _ => .error (.unavailable "put" "s3-network")
    | .ok response =>
      if response.status = 200 then .ok (storedFromPut input response.headers content.length)
      else .error (failure "put" response.status input.key),
    [.put headers content])

def put (input : PutInput) : Option (Except Failure StoredObject) × List Request :=
  if validContentType input.contentType then
    match input.body with
    | .bytes content =>
      let (result,sent) := putBytes reply input content (metaHeaders toLowerCase input)
      (some result,sent)
    | .stream stream => putStream partSize reply input stream (metaHeaders toLowerCase input)
  else (some (.error (.validation "contentType" "is not a valid media type")),[])

end Put

end StructureAi.Storage.S3

import StructureAi.Nisshi.Primitives

/-! # Record batches

One uncompressed batch of message format v2. Offsets inside a batch are `0..n-1` deltas; the
broker assigns the base offset, and the reader takes the lengths of a batch on trust.
-/
namespace StructureAi.Nisshi
open StructureAi.Foundation

structure RecordToProduce where
  key : Option (List UInt8)
  value : List UInt8
deriving DecidableEq

structure FetchedRecord where
  offset : ℤ
  key : Option (List UInt8)
  value : List UInt8
deriving DecidableEq

/-- Why there is no batch: it would be empty, or a varint in it would not end. -/
inductive EncodeFailure
  | emptyBatch
  | endless
deriving DecidableEq

def encodeVarint (value : ℤ) : Except EncodeFailure (List UInt8) :=
  match Writer.varint value with
  | none => .error .endless
  | some bytes => .ok bytes

def encodeKey : Option (List UInt8) → Except EncodeFailure (List UInt8)
  | none => encodeVarint (-1)
  | some key => do
    let length ← encodeVarint key.length
    return length ++ key

/-- One record behind its length; `i` is its offset delta. -/
def encodeRecord (i : ℕ) (record : RecordToProduce) : Except EncodeFailure (List UInt8) := do
  let timestampDelta ← encodeVarint 0
  let offsetDelta ← encodeVarint i
  let key ← encodeKey record.key
  let valueLength ← encodeVarint record.value.length
  let headers ← encodeVarint 0
  let body := Writer.i8 0 ++ timestampDelta ++ offsetDelta ++ key ++ valueLength ++ record.value ++ headers
  let bodyLength ← encodeVarint body.length
  return bodyLength ++ body

def encodeRecords : ℕ → List RecordToProduce → Except EncodeFailure (List UInt8)
  | _,[] => .ok []
  | i,record :: records => do
    let encoded ← encodeRecord i record
    let rest ← encodeRecords (i + 1) records
    return encoded ++ rest

/-- From the attributes on: what the checksum covers. -/
def batchBody (now : ℤ) (count : ℕ) (encoded : List UInt8) : List UInt8 :=
  Writer.i16 0 ++ Writer.i32 (count - 1) ++ Writer.i64 now ++ Writer.i64 now ++ Writer.i64 (-1) ++ Writer.i16 (-1) ++
    Writer.i32 (-1) ++ Writer.i32 count ++ encoded

/-- The batch, at the time `now`. -/
def encodeRecordBatch (now : ℤ) (records : List RecordToProduce) : Except EncodeFailure (List UInt8) := do
  if records = [] then throw .emptyBatch
  let encoded ← encodeRecords 0 records
  let body := batchBody now records.length encoded
  return Writer.i64 0 ++ Writer.i32 (4 + 1 + 4 + body.length) ++ Writer.i32 (-1) ++ Writer.i8 2 ++
    Writer.i32 (crc32c body).toNat ++ body

namespace Reader

/-- The next bytes, or as many of them as there are; the cursor goes on as if all were there. -/
def slice (length : ℤ) : Reader (List UInt8) := do
  let pos ← Cursor.position
  let bytes ← subarray pos (pos + length)
  Cursor.seek (pos + length)
  return bytes

def skip (length : ℤ) : Reader Unit := do
  let pos ← Cursor.position
  Cursor.seek (pos + length)

def recordKey : Reader (Option (List UInt8)) := do
  let keyLength ← varint
  if keyLength < 0 then return none
  else
    let key ← slice keyLength
    return some key

def header : Reader Unit := do
  let headerKeyLength ← varint
  skip headerKeyLength
  let headerValueLength ← varint
  if headerValueLength ≥ 0 then skip headerValueLength else return ()

def headers : ℕ → Reader Unit
  | 0 => return ()
  | count + 1 => do
    header
    headers count

def recordBody (baseOffset : ℤ) : Reader FetchedRecord := do
  let _ ← i8
  let _ ← varint
  let offsetDelta ← varint
  let key ← recordKey
  let valueLength ← varint
  let value ← slice valueLength
  let count ← varint
  headers count.toNat
  return ⟨baseOffset + offsetDelta,key,value⟩

/-- A record; the next one starts where its length says. -/
def fetchedRecord (baseOffset : ℤ) : Reader FetchedRecord := do
  let bodyLength ← varint
  let pos ← Cursor.position
  let fetched ← recordBody baseOffset
  Cursor.seek (pos + bodyLength)
  return fetched

def fetchedRecords (baseOffset : ℤ) : ℕ → Reader (List FetchedRecord)
  | 0 => return []
  | count + 1 => do
    let fetched ← fetchedRecord baseOffset
    let rest ← fetchedRecords baseOffset count
    return fetched :: rest

def checkMagic (magic : ℤ) : Reader Unit :=
  if magic ≠ 2 then fail ("kafka protocol: unsupported record batch magic " ++ toString magic) else return ()

def checkAttributes (attributes : ℤ) : Reader Unit :=
  if attributes % 8 ≠ 0 then fail "kafka protocol: compressed record batches are not supported" else return ()

def recordBatch : Reader (List FetchedRecord) := do
  let baseOffset ← i64
  let _ ← i32
  let _ ← i32
  let magic ← i8
  checkMagic magic
  let _ ← u32
  let attributes ← i16
  checkAttributes attributes
  let _ ← i32
  let _ ← i64
  let _ ← i64
  let _ ← i64
  let _ ← i16
  let _ ← i32
  let count ← i32
  fetchedRecords baseOffset count.toNat

end Reader

def decodeRecordBatch (buf : List UInt8) : Except String (List FetchedRecord) :=
  if buf = [] then .ok [] else Prod.fst <$> Reader.recordBatch buf 0

end StructureAi.Nisshi

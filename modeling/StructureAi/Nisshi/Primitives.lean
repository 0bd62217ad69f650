import StructureAi.Foundation.Cursor

/-! # Wire-protocol primitives

A big-endian writer and reader, zigzag varints and CRC32-Castagnoli. A negative zigzag value has
no varint: the writer's loop does not end on it.
-/
namespace StructureAi.Nisshi
open StructureAi.Foundation

namespace Writer

/-- The lowest byte of a number, in two's complement. -/
def byteOf (value : ℤ) : UInt8 := UInt8.ofNat (value % 256).toNat

/-- `count` bytes of a number, the highest first. -/
def bigEndian : ℕ → ℤ → List UInt8
  | 0,_ => []
  | count + 1,value => bigEndian count (value / 256) ++ [byteOf value]

def i8 (value : ℤ) : List UInt8 := bigEndian 1 value

def i16 (value : ℤ) : List UInt8 := bigEndian 2 value

def i32 (value : ℤ) : List UInt8 := bigEndian 4 value

def i64 (value : ℤ) : List UInt8 := bigEndian 8 value

/-- Unsigned varint: seven bits a byte, the lowest first, each but the last with its high bit set. -/
def uvarint (v : ℕ) : List UInt8 :=
  if v < 128 then [UInt8.ofNat v] else UInt8.ofNat (v % 128 + 128) :: uvarint (v / 128)
termination_by v
decreasing_by omega

/-- `(value << 1) ^ (value >> 31)`. -/
def zigzag (value : ℤ) : ℤ := ((BitVec.ofInt 32 value <<< 1) ^^^ (BitVec.ofInt 32 value).sshiftRight 31).toInt

/-- Signed zigzag varint, if the loop over it ends. -/
def varint (value : ℤ) : Option (List UInt8) := if 0 ≤ zigzag value then some (uvarint (zigzag value).toNat) else none

end Writer

abbrev Reader (α : Type) := Cursor String α

namespace Reader

def fail {α : Type} (message : String) : Reader α := fun _ _ => .error message

def need (count : ℕ) : Reader Unit := fun buf pos =>
  if pos + count > buf.length then
    .error ("kafka protocol: truncated response (need " ++ toString count ++ " bytes at " ++ toString pos ++ ", have " ++
      toString (buf.length - pos) ++ ")")
  else .ok ((),pos)

/-- Indexed byte access that refuses to yield what is not there. -/
def byteAt (index : ℤ) : Reader UInt8 := fun buf pos =>
  match if index < 0 then none else buf[index.toNat]? with
  | none => .error ("kafka protocol: byte read at " ++ toString index ++ " out of bounds")
  | some byte => .ok (byte,pos)

def bytesFrom : ℕ → ℤ → Reader (List UInt8)
  | 0,_ => pure []
  | count + 1,index => do
    let byte ← byteAt index
    let bytes ← bytesFrom count (index + 1)
    return byte :: bytes

/-- The number that the bytes make up, the highest first. -/
def ofBytes (bytes : List UInt8) : ℕ := bytes.foldl (fun n byte => n * 256 + byte.toNat) 0

def word (count : ℕ) : Reader ℕ := do
  need count
  let pos ← Cursor.position
  let bytes ← bytesFrom count pos
  Cursor.seek (pos + count)
  return ofBytes bytes

/-- A number of so many bytes, read in two's complement. -/
def asInt (count value : ℕ) : ℤ := if value < 2 ^ (8 * count - 1) then value else value - 2 ^ (8 * count)

def i8 : Reader ℤ := do return asInt 1 (← word 1)

def i16 : Reader ℤ := do return asInt 2 (← word 2)

def i32 : Reader ℤ := do return asInt 4 (← word 4)

def i64 : Reader ℤ := do return asInt 8 (← word 8)

def u32 : Reader ℕ := word 4

def nextByte : Reader UInt8 := do
  need 1
  let pos ← Cursor.position
  let byte ← byteAt pos
  Cursor.seek (pos + 1)
  return byte

/-- The groups of seven bits, each at its shift, into the bits gathered so far. -/
def uvarintFrom : List ℕ → BitVec 32 → Reader ℕ
  | [],_ => fail "kafka protocol: varint overflow"
  | shift :: shifts,v => do
    let byte ← nextByte
    let gathered := v ||| (BitVec.ofNat 32 (byte.toNat % 128) <<< shift)
    if byte.toNat < 128 then return gathered.toNat
    else uvarintFrom shifts gathered

/-- A fifth byte ends the number: the shift after it is beyond 31. -/
def uvarint : Reader ℕ := uvarintFrom [0,7,14,21,28] 0

/-- `(v >>> 1) ^ -(v & 1)`. -/
def unzigzag (v : ℕ) : ℤ := ((BitVec.ofNat 32 v >>> 1) ^^^ (-(BitVec.ofNat 32 v &&& 1))).toInt

def varint : Reader ℤ := do return unzigzag (← uvarint)

/-- An index of a subarray, counted from the end if it is negative. -/
def relativeIndex (length : ℕ) (index : ℤ) : ℕ := if index < 0 then (length + index).toNat else min index.toNat length

/-- `buf.subarray(begin, end)`: no more than is there. -/
def subarray (first last : ℤ) : Reader (List UInt8) := fun buf pos =>
  .ok ((buf.take (relativeIndex buf.length last)).drop (relativeIndex buf.length first),pos)

end Reader

def crc32cEntry (i : ℕ) : BitVec 32 :=
  (List.range 8).foldl (fun c _ => if c.getLsbD 0 then 0x82f63b78 ^^^ (c >>> 1) else c >>> 1) (BitVec.ofNat 32 i)

def crc32c (value : List UInt8) : BitVec 32 :=
  value.foldl (fun c byte => crc32cEntry ((c ^^^ BitVec.ofNat 32 byte.toNat).toNat % 256) ^^^
    (c >>> 8)) 0xffffffff ^^^ 0xffffffff

end StructureAi.Nisshi

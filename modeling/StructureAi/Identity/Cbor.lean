import StructureAi.Identity.Webauthn

/-! # CBOR

The decoder of attestation objects and public keys: definite lengths only, 33 levels at most, and no number beyond
the safe integers but one. A map takes a key for one it has if both are the same primitive.
-/
namespace StructureAi.Identity.Cbor
open StructureAi.Foundation

inductive CborValue
  | bool (b : Bool)
  | null
  | number (n : ℤ)
  | text (s : List Char)
  | bytes (b : List UInt8)
  | array (values : List CborValue)
  | map (entries : List (CborValue × CborValue))

/-- `Number.MAX_SAFE_INTEGER` -/
def maxSafeInteger : ℕ := 2 ^ 53 - 1

/-- The number in so many bytes, and the offset after them. -/
def wideLength (bytes : List UInt8) (width offset : ℕ) : Except String (ℕ × ℕ) :=
  if offset + width > bytes.length then .error "truncated cbor length"
  else .ok (Webauthn.bigEndian ((bytes.drop offset).take width),offset + width)

def lengthAt (bytes : List UInt8) (additional offset : ℕ) : Except String (ℕ × ℕ) :=
  if additional < 24 then .ok (additional,offset)
  else if additional = 24 then
    match bytes[offset]? with
    | none => .error "truncated cbor length"
    | some value => .ok (value.toNat,offset + 1)
  else if additional = 25 then wideLength bytes 2 offset
  else if additional = 26 then wideLength bytes 4 offset
  else if additional = 27 then
    match wideLength bytes 8 offset with
    | .error e => .error e
    | .ok (value,offset) => if value > maxSafeInteger then .error "cbor length exceeds safe integer" else .ok (value,offset)
  else .error "indefinite or reserved cbor lengths are unsupported"

/-- `values.has`: an object is the same as no other. -/
def sameKey : CborValue → CborValue → Bool
  | .bool a,.bool b => a = b
  | .null,.null => true
  | .number a,.number b => a = b
  | .text a,.text b => a = b
  | _,_ => false

section Containers
variable (decode : ℕ → Except String (CborValue × ℕ))

def decodeValues : ℕ → ℕ → Except String (List CborValue × ℕ)
  | 0,offset => .ok ([],offset)
  | count + 1,offset =>
    match decode offset with
    | .error e => .error e
    | .ok (value,offset) =>
      match decodeValues count offset with
      | .error e => .error e
      | .ok (values,offset) => .ok (value :: values,offset)

/-- So many entries from an offset on, after those that the map has. -/
def decodeEntries : ℕ → List (CborValue × CborValue) → ℕ → Except String (List (CborValue × CborValue) × ℕ)
  | 0,entries,offset => .ok (entries,offset)
  | count + 1,entries,offset =>
    match decode offset with
    | .error e => .error e
    | .ok (key,offset) =>
      match decode offset with
      | .error e => .error e
      | .ok (value,offset) =>
        if entries.any fun entry => sameKey entry.1 key then .error "duplicate cbor map key"
        else decodeEntries count (entries ++ [(key,value)]) offset

end Containers

def decodeString (bytes : List UInt8) (major length offset : ℕ) : Except String (CborValue × ℕ) :=
  if offset + length > bytes.length then .error "truncated cbor bytes"
  else if major = 2 then .ok (.bytes ((bytes.drop offset).take length),offset + length)
  else match Webauthn.fatalText ((bytes.drop offset).take length) with
    | none => .error "The encoded data was not valid for encoding utf-8"
    | some text => .ok (.text text,offset + length)

/-- `decodeCbor` with so many levels left. -/
def decodeLevels (bytes : List UInt8) : ℕ → ℕ → Except String (CborValue × ℕ)
  | 0,_ => .error "cbor nesting limit exceeded"
  | levels + 1,start =>
    match bytes[start]? with
    | none => .error "truncated cbor value"
    | some initial =>
      let major := initial.toNat / 32
      let additional := initial.toNat % 32
      match lengthAt bytes additional (start + 1) with
      | .error e => .error e
      | .ok (length,offset) =>
        if major = 0 then .ok (.number length,offset)
        else if major = 1 then .ok (.number (-1 - length),offset)
        else if major = 2 ∨ major = 3 then decodeString bytes major length offset
        else if major = 4 then
          match decodeValues (decodeLevels bytes levels) length offset with
          | .error e => .error e
          | .ok (values,offset) => .ok (.array values,offset)
        else if major = 5 then
          match decodeEntries (decodeLevels bytes levels) length [] offset with
          | .error e => .error e
          | .ok (entries,offset) => .ok (.map entries,offset)
        else if major = 6 then decodeLevels bytes levels offset
        else if additional = 20 then .ok (.bool false,start + 1)
        else if additional = 21 then .ok (.bool true,start + 1)
        else if additional = 22 then .ok (.null,start + 1)
        else .error "unsupported cbor value"

def decodeCbor (bytes : List UInt8) (start depth : ℕ) : Except String (CborValue × ℕ) := decodeLevels bytes (33 - depth) start

end StructureAi.Identity.Cbor

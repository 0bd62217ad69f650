import StructureAi.Foundation.DecimalText

/-! # JSON values and their text

A value keeps the members of an object in enumeration order; a lookup takes the
last member of a name, as `JSON.parse` does. `stringify` is `JSON.stringify`
without spacing and `parse` accepts the whole JSON grammar. A lone surrogate
escape, which a Lean string cannot hold, reads as U+FFFD.
-/
namespace StructureAi.Foundation

inductive Json where
  | null
  | bool (b : Bool)
  | num (d : Decimal)
  | str (s : String)
  | arr (items : List Json)
  | obj (members : List (String × Json))

namespace Json

/-- The member `name` of an object; `none` is JavaScript's `undefined`. -/
def get : Json → String → Option Json
  | obj ms,name => ((ms.reverse.find? (fun m => m.1 = name))).map Prod.snd
  | _,_ => none

def hexDigits (n : ℕ) : List Char :=
  [Nat.digitChar (n / 4096 % 16),Nat.digitChar (n / 256 % 16),
    Nat.digitChar (n / 16 % 16),Nat.digitChar (n % 16)]

def escapeChar (c : Char) : List Char :=
  if c = '"' then ['\\','"']
  else if c = '\\' then ['\\','\\']
  else if c = '\x08' then ['\\','b']
  else if c = '\x0c' then ['\\','f']
  else if c = '\n' then ['\\','n']
  else if c = '\r' then ['\\','r']
  else if c = '\t' then ['\\','t']
  else if c.toNat < 32 then '\\' :: 'u' :: hexDigits c.toNat
  else [c]

def quote (s : String) : List Char := '"' :: (s.toList.flatMap escapeChar ++ ['"'])

mutual
/-- `JSON.stringify(value)`. -/
def write : Json → List Char
  | null => ['n','u','l','l']
  | bool b => if b then ['t','r','u','e'] else ['f','a','l','s','e']
  | num d => d.text
  | str s => quote s
  | arr [] => ['[',']']
  | arr (v :: vs) => '[' :: (write v ++ writeItems vs)
  | obj [] => ['{','}']
  | obj ((k,v) :: ms) => '{' :: (quote k ++ ':' :: (write v ++ writeMembers ms))
/-- The items after the first one, up to the closing bracket. -/
def writeItems : List Json → List Char
  | [] => [']']
  | v :: vs => ',' :: (write v ++ writeItems vs)
def writeMembers : List (String × Json) → List Char
  | [] => ['}']
  | (k,v) :: ms => ',' :: (quote k ++ ':' :: (write v ++ writeMembers ms))
end

mutual
/-- How many arrays and objects stand around the innermost value. -/
def depth : Json → ℕ
  | arr items => depthItems items + 1
  | obj members => depthMembers members + 1
  | _ => 0
def depthItems : List Json → ℕ
  | [] => 0
  | v :: vs => max (depth v) (depthItems vs)
def depthMembers : List (String × Json) → ℕ
  | [] => 0
  | (_,v) :: ms => max (depth v) (depthMembers ms)
end

def stringify (v : Json) : String := String.ofList v.write

def isSpace (c : Char) : Bool := c = ' ' || c = '\t' || c = '\n' || c = '\r'

def skipSpace (cs : List Char) : List Char := cs.dropWhile isSpace

def hexValue (c : Char) : Option ℕ :=
  if '0' ≤ c ∧ c ≤ '9' then some (c.toNat - 48)
  else if 'a' ≤ c ∧ c ≤ 'f' then some (c.toNat - 87)
  else if 'A' ≤ c ∧ c ≤ 'F' then some (c.toNat - 55)
  else none

def hexUnit (a b c d : Char) : Option ℕ := do
  return (← hexValue a) * 4096 + (← hexValue b) * 256 + (← hexValue c) * 16 + (← hexValue d)

def isHigh (u : ℕ) : Bool := 0xD800 ≤ u && u < 0xDC00

def isLow (u : ℕ) : Bool := 0xDC00 ≤ u && u < 0xE000

/-- The character of a code unit that is not part of a surrogate pair. -/
def unitChar (u : ℕ) : Char := if isHigh u || isLow u then '\uFFFD' else Char.ofNat u

def pairChar (u v : ℕ) : Char := Char.ofNat (0x10000 + (u - 0xD800) * 0x400 + (v - 0xDC00))

def simpleEscape (c : Char) : Option Char :=
  if c = '"' then some '"'
  else if c = '\\' then some '\\'
  else if c = '/' then some '/'
  else if c = 'b' then some '\x08'
  else if c = 'f' then some '\x0c'
  else if c = 'n' then some '\n'
  else if c = 'r' then some '\r'
  else if c = 't' then some '\t'
  else none

/-- The low surrogate escape that completes a high one, with the text after it. -/
def lowEscape : List Char → Option (ℕ × List Char)
  | '\\' :: 'u' :: a :: b :: c :: d :: r =>
    (hexUnit a b c d).bind fun v => if isLow v then some (v,r) else none
  | _ => none

/-- The characters of a string literal after its opening quote; `fuel` bounds their number. -/
def readChars : ℕ → List Char → Option (List Char × List Char)
  | 0,_ => none
  | fuel + 1,cs =>
    match cs with
    | '"' :: r => some ([],r)
    | '\\' :: 'u' :: a :: b :: c :: d :: r =>
      (hexUnit a b c d).bind fun u =>
        match (if isHigh u then lowEscape r else none) with
        | some (v,r') => (readChars fuel r').map fun p => (pairChar u v :: p.1,p.2)
        | none => (readChars fuel r).map fun p => (unitChar u :: p.1,p.2)
    | '\\' :: c :: r => (simpleEscape c).bind fun c' => (readChars fuel r).map fun p => (c' :: p.1,p.2)
    | c :: r => if c.toNat < 32 then none else (readChars fuel r).map fun p => (c :: p.1,p.2)
    | [] => none

def readString : List Char → Option (String × List Char)
  | '"' :: r => (readChars (r.length + 1) r).map fun p => (String.ofList p.1,p.2)
  | _ => none

mutual
def readValue : ℕ → List Char → Option (Json × List Char)
  | 0,_ => none
  | fuel + 1,cs =>
    match skipSpace cs with
    | 'n' :: 'u' :: 'l' :: 'l' :: r => some (null,r)
    | 't' :: 'r' :: 'u' :: 'e' :: r => some (bool true,r)
    | 'f' :: 'a' :: 'l' :: 's' :: 'e' :: r => some (bool false,r)
    | '"' :: r => (readString ('"' :: r)).map fun p => (str p.1,p.2)
    | '[' :: r =>
      match skipSpace r with
      | ']' :: r' => some (arr [],r')
      | _ => (readItems fuel r).map fun p => (arr p.1,p.2)
    | '{' :: r =>
      match skipSpace r with
      | '}' :: r' => some (obj [],r')
      | _ => (readMembers fuel r).map fun p => (obj p.1,p.2)
    | r => (readDecimal r).map fun p => (num p.1,p.2)
/-- One item and what follows it up to the closing bracket. -/
def readItems : ℕ → List Char → Option (List Json × List Char)
  | 0,_ => none
  | fuel + 1,cs =>
    (readValue fuel cs).bind fun p =>
      match skipSpace p.2 with
      | ',' :: r => (readItems fuel r).map fun q => (p.1 :: q.1,q.2)
      | ']' :: r => some ([p.1],r)
      | _ => none
def readMembers : ℕ → List Char → Option (List (String × Json) × List Char)
  | 0,_ => none
  | fuel + 1,cs =>
    (readString (skipSpace cs)).bind fun k =>
      match skipSpace k.2 with
      | ':' :: r₀ =>
        (readValue fuel r₀).bind fun p =>
          match skipSpace p.2 with
          | ',' :: r => (readMembers fuel r).map fun q => ((k.1,p.1) :: q.1,q.2)
          | '}' :: r => some ([(k.1,p.1)],r)
          | _ => none
      | _ => none
end

/-- `JSON.parse(text)`; `none` is a thrown `SyntaxError`. -/
def parse (text : String) : Option Json :=
  match readValue (text.toList.length + 1) text.toList with
  | some (v,r) => if skipSpace r = [] then some v else none
  | none => none

end Json
end StructureAi.Foundation

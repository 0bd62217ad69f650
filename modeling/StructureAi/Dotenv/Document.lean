import StructureAi.Foundation.CodeUnits

/-! # Dotenv documents

A file is taken apart into items that remember their source text. A key may be followed by a quoted value that
goes on over several lines; any line that is no assignment is kept as it is. Strings are lists of code units.
-/
namespace StructureAi.Dotenv
open StructureAi.Foundation

/-- How a value was quoted. -/
inductive QuoteStyle
  | none
  | single
  | double
  | backtick
deriving DecidableEq

structure Assignment where
  key : JsString
  value : JsString
  quote : QuoteStyle
  exported : Bool
  line : ℕ
  comment : Option JsString
  text : JsString
deriving DecidableEq

inductive Item
  | assignment (a : Assignment)
  | other (line : ℕ) (text : JsString)
deriving DecidableEq

def Item.text : Item → JsString
  | .assignment a => a.text
  | .other _ text => text

inductive Eol
  | lf
  | crlf
deriving DecidableEq

def Eol.units : Eol → JsString
  | .lf => [unit '\n']
  | .crlf => [unit '\r',unit '\n']

structure Document where
  items : List Item
  eol : Eol
  trailingNewline : Bool
deriving DecidableEq

section Classes

def between (first last : Char) (u : CodeUnit) : Bool := unit first ≤ u && u ≤ unit last

/-- `\s` -/
def isSpace (u : CodeUnit) : Bool :=
  u ∈ units ['\t','\n','\x0b','\x0c','\r',' ','\u00a0','\u1680','\u2028','\u2029','\u202f','\u205f','\u3000','\ufeff'] ||
    between '\u2000' '\u200a' u

/-- What `.` does not match. -/
def isLineTerminator (u : CodeUnit) : Bool := u ∈ units ['\n','\r','\u2028','\u2029']

/-- `\w` -/
def isWord (u : CodeUnit) : Bool := between 'a' 'z' u || between 'A' 'Z' u || between '0' '9' u || u = unit '_'

/-- `[\w.-]` -/
def isKeyUnit (u : CodeUnit) : Bool := isWord u || u = unit '.' || u = unit '-'

def quoteStyle (u : CodeUnit) : Option QuoteStyle :=
  if u = unit '"' then some .double
  else if u = unit '\'' then some .single
  else if u = unit '\x60' then some .backtick
  else none

end Classes

/-- `trim` -/
def trimmed (s : JsString) : JsString := ((s.dropWhile isSpace).reverse.dropWhile isSpace).reverse

/-- A letter after a backslash becomes the unit that it stands for. -/
def unescape (letter replacement : CodeUnit) : JsString → JsString
  | [] => []
  | [u] => [u]
  | u :: v :: rest =>
    if u = unit '\\' ∧ v = letter then replacement :: unescape letter replacement rest
    else u :: unescape letter replacement (v :: rest)

def outerQuote (s : JsString) : Option QuoteStyle :=
  match s with
  | u :: v :: rest => if (v :: rest).getLast? = some u then quoteStyle u else none
  | _ => none

def decodeValue (raw : JsString) : JsString × QuoteStyle :=
  let trimmed := trimmed raw
  let quote := outerQuote trimmed
  let value := if quote.isSome then trimmed.tail.dropLast else trimmed
  let value := if trimmed.head? = some (unit '"') then
    unescape (unit 'r') (unit '\r') (unescape (unit 'n') (unit '\n') value) else value
  (value,quote.getD .none)

/-- The column of the first quote that no backslash escapes. -/
def findQuote (quote : CodeUnit) : ℕ → JsString → Option ℕ
  | _,[] => none
  | col,[u] => if u = quote then some col else none
  | col,u :: v :: rest =>
    if u = unit '\\' ∧ v = quote then findQuote quote (col + 2) rest
    else if u = quote then some col
    else findQuote quote (col + 1) (v :: rest)

/-- The line and the column of the closing quote of a value that opened before the column of the first line. -/
def findClosingQuote (quote : CodeUnit) : ℕ → ℕ → List JsString → Option (ℕ × ℕ)
  | _,_,[] => none
  | line,col,text :: following =>
    match findQuote quote col (text.drop col) with
    | some col => some (line,col)
    | none => findClosingQuote quote (line + 1) 0 following

/-- What `KEY_LINE` finds, with what follows the separator. -/
structure KeyLine where
  exported : Bool
  key : JsString
  rest : JsString
deriving DecidableEq

/-- `([\w.-]+)(\s*=\s*|:\s+)` -/
def keyAndSeparator (s : JsString) : Option (JsString × JsString) :=
  let key := s.takeWhile isKeyUnit
  let after := s.dropWhile isKeyUnit
  if key = [] then none
  else if (after.dropWhile isSpace).head? = some (unit '=') then some (key,(after.dropWhile isSpace).tail.dropWhile isSpace)
  else if after.head? = some (unit ':') ∧ after.tail.head?.any isSpace then some (key,after.tail.dropWhile isSpace)
  else none

/-- `export\s+` -/
def afterExport (s : JsString) : Option JsString :=
  let after := s.drop 6
  if s.take 6 = units ['e','x','p','o','r','t'] ∧ after.head?.any isSpace then some (after.dropWhile isSpace) else none

/-- `KEY_LINE`: a key that could be the prefix is one only where the rest is no key. -/
def keyLine (text : JsString) : Option KeyLine :=
  let s := text.dropWhile isSpace
  match (afterExport s).bind keyAndSeparator with
  | some (key,rest) => some ⟨true,key,rest⟩
  | none => (keyAndSeparator s).map fun (key,rest) => ⟨false,key,rest⟩

/-- After a quoted value there is nothing but a comment. -/
def endsValue (after : JsString) : Bool :=
  match after.dropWhile isSpace with
  | [] => true
  | u :: comment => u = unit '#' && comment.all fun c => ¬ isLineTerminator c

def joinLines (lines : List JsString) : JsString := List.intercalate [unit '\n'] lines

/-- The item of a quoted value that begins on the first of the lines, and the number of its lines. -/
def quotedItem (index : ℕ) (head : KeyLine) (lines : List JsString) : Option (Assignment × ℕ) :=
  let text := lines.headD []
  let prefixLength := text.length - head.rest.length
  match head.rest with
  | [] => none
  | opening :: _ =>
    if (quoteStyle opening).isNone then none
    else
      match findClosingQuote opening 0 (prefixLength + 1) lines with
      | none => none
      | some (line,col) =>
        let closingText := lines.getD line []
        let after := closingText.drop (col + 1)
        if endsValue after then
          let raw := if line = 0 then head.rest.take (col + 1 - prefixLength)
            else joinLines (head.rest :: ((lines.take line).drop 1 ++ [closingText.take (col + 1)]))
          let (value,quote) := decodeValue raw
          let comment := trimmed after
          some (⟨head.key,value,quote,head.exported,index + 1,if comment = [] then none else some comment,
            joinLines (lines.take (line + 1))⟩,line + 1)
        else none

/-- The item of a value that ends with its line, or at the first hash. -/
def unquotedItem (index : ℕ) (head : KeyLine) (text : JsString) : Assignment :=
  let raw := head.rest.takeWhile (· ≠ unit '#')
  let commentText := head.rest.dropWhile (· ≠ unit '#')
  let keepComment := commentText ≠ [] ∧ (raw = [] ∨ raw.getLast?.any isSpace)
  let (value,quote) := decodeValue raw
  ⟨head.key,value,quote,head.exported,index + 1,if keepComment then some commentText else none,text⟩

/-- The items of the lines from an index on, in so many rounds. -/
def parseLines : ℕ → ℕ → List JsString → List Item
  | 0,_,_ => []
  | _,_,[] => []
  | rounds + 1,index,text :: following =>
    match keyLine text with
    | none => .other (index + 1) text :: parseLines rounds (index + 1) following
    | some head =>
      match quotedItem index head (text :: following) with
      | some (item,count) => .assignment item :: parseLines rounds (index + count) ((text :: following).drop count)
      | none => .assignment (unquotedItem index head text) :: parseLines rounds (index + 1) following

/-- `replace(/\r\n/g, "\n")` -/
def normalize : JsString → JsString
  | [] => []
  | [u] => [u]
  | u :: v :: rest =>
    if u = unit '\r' ∧ v = unit '\n' then unit '\n' :: normalize rest else u :: normalize (v :: rest)

def includesCrlf : JsString → Bool
  | u :: v :: rest => (u = unit '\r' && v = unit '\n') || includesCrlf (v :: rest)
  | _ => false

def withoutBom (content : JsString) : JsString :=
  if content.head? = some (unit '\ufeff') then content.tail else content

/-- The lines of a text whose last line break was noted. -/
def linesOf (body : JsString) : List JsString := if body = [] then [] else body.splitOn (unit '\n')

def parse (content : JsString) : Document :=
  let content := withoutBom content
  let eol := if includesCrlf content then Eol.crlf else Eol.lf
  let normalized := normalize content
  let trailingNewline : Bool := normalized.getLast? = some (unit '\n')
  let lines := linesOf (if trailingNewline then normalized.dropLast else normalized)
  ⟨parseLines lines.length 0 lines,eol,trailingNewline⟩

namespace Document

/-- The assignments of a document, in source order. -/
def assignments (document : Document) : List Assignment :=
  document.items.filterMap fun item => match item with
    | .assignment a => some a
    | .other _ _ => none

def render (document : Document) : JsString :=
  let body := List.intercalate document.eol.units (document.items.map Item.text)
  if document.trailingNewline then body ++ document.eol.units else body

end Document

/-- `BARE_VALUE` -/
def isBare (value : JsString) : Bool :=
  value ≠ [] && value.all fun u => ¬ isSpace u && u ∉ units ['#','\'','"','\x60','\\','$']

/-- `DOUBLE_UNSAFE` -/
def isDoubleUnsafe : JsString → Bool
  | u :: v :: rest => (u = unit '\\' && v ∈ units ['n','r','$']) || isDoubleUnsafe (v :: rest)
  | _ => false

def escapeDollars (value : JsString) : JsString :=
  value.flatMap fun u => if u = unit '$' then [unit '\\',unit '$'] else [u]

/-- What `formatValue` writes, unless no quoting is lossless. -/
def formatValue (value : JsString) : Option JsString :=
  if value = [] then some []
  else if isBare value then some value
  else if unit '\'' ∉ value then some (unit '\'' :: (value ++ [unit '\'']))
  else if unit '"' ∉ value ∧ ¬ isDoubleUnsafe value then some (unit '"' :: (escapeDollars value ++ [unit '"']))
  else if unit '\x60' ∉ value ∧ ¬ isDoubleUnsafe value then some (unit '\x60' :: (escapeDollars value ++ [unit '\x60']))
  else none

end StructureAi.Dotenv

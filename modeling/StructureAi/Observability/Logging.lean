import StructureAi.Foundation.StableJson

/-! # The JSON logger

What is logged are values over a heap, in which objects are shared and may lead back to themselves. The
serializer makes trees of them,
bounded in strings, keys, items and depth, and tests each key before it looks at what is stored there.
-/
namespace StructureAi.Observability
open StructureAi.Foundation

section Values

inductive Number
  | finite (d : Decimal)
  | nan
  | infinite (negative : Bool)
deriving DecidableEq

/-- A value, with the address of an object. -/
inductive Value (α : Type)
  | undefined
  | null
  | bool (b : Bool)
  | number (n : Number)
  | bigint (z : ℤ)
  | text (s : JsString)
  | symbol (description : JsString)
  | function (source : JsString)
  | object (address : α)
deriving DecidableEq

inductive Object (α : Type)
  | redacted (secret : Value α)
  /-- The ISO text, if the date is valid, and the text of the date. -/
  | date (iso : Option JsString) (text : JsString)
  | error (name message : Value α) (fields : List (JsString × Value α))
  | array (items : List (Value α))
  | set (items : List (Value α))
  | map (entries : List (Value α × Value α))
  /-- An object with a `toJSON`; what that returns, if it does not throw, and the text of the object. -/
  | json (result : Option (Value α)) (text : Option JsString)
  /-- An object with a `toString` of its own. -/
  | custom (text : Option JsString)
  /-- Any other object, with `Object.prototype` or without a prototype. -/
  | plain (bare : Bool) (fields : List (JsString × Value α))

abbrev Heap (α : Type) := α → Object α

def ofString (s : String) : JsString := units s.toList

def Number.text : Number → JsString
  | finite d => units d.text
  | nan => ofString "NaN"
  | infinite negative => ofString (if negative then "-Infinity" else "Infinity")

end Values

section Texts
variable {α : Type}

def joined (separator : JsString) : List JsString → JsString
  | [] => []
  | s :: rest => rest.foldl (fun text part => text ++ separator ++ part) s

/-- `Error.prototype.toString`, from the texts of a name and a message that are there. -/
def errorText (name message : Option JsString) : JsString :=
  let name := name.getD (ofString "Error")
  let message := message.getD []
  if name = [] then message else if message = [] then name else name ++ ofString ": " ++ message

/-- The text of a name or a message, `none` where it is not there. -/
def present (toText : Value α → Option JsString) : Value α → Option (Option JsString)
  | .undefined => some none
  | v => (toText v).map some

def element (toText : Value α → Option JsString) : Value α → Option JsString
  | .undefined | .null => some []
  | v => toText v

def hasToString (fields : List (JsString × Value α)) : Bool := fields.any fun field => field.1 = ofString "toString"

variable [DecidableEq α] (heap : Heap α)

/-- `ToString`, with so many calls left, among arrays that are being joined; `none` is an exception. -/
def toText : ℕ → List α → Value α → Option JsString
  | _,_,.undefined => some (ofString "undefined")
  | _,_,.null => some (ofString "null")
  | _,_,.bool b => some (ofString (if b then "true" else "false"))
  | _,_,.number n => some n.text
  | _,_,.bigint z => some (units (integerText z))
  | _,_,.text s => some s
  | _,_,.symbol _ => none
  | _,_,.function source => some source
  | 0,_,.object _ => none
  | calls + 1,joining,.object a =>
    match heap a with
    | .redacted _ => some (ofString "<redacted>")
    | .date _ text => some text
    | .error name message fields =>
      if hasToString fields then none
      else
        (present (toText calls joining) name).bind fun name =>
          (present (toText calls joining) message).map fun message => errorText name message
    | .array items =>
      -- an array inside of its own join is empty there
      if a ∈ joining then some []
      else (items.mapM (element (toText calls (a :: joining)))).map (joined (ofString ","))
    | .set _ => some (ofString "[object Set]")
    | .map _ => some (ofString "[object Map]")
    | .json _ text => text
    | .custom text => text
    | .plain bare fields => if bare || hasToString fields then none else some (ofString "[object Object]")

/-- `String(value)` -/
def stringOf (calls : ℕ) : Value α → Option JsString
  | .symbol description => some (ofString "Symbol(" ++ description ++ ofString ")")
  | v => toText heap (calls + 1) [] v

end Texts

section Serializer

def MAX_STRING : ℕ := 2048

def MAX_KEYS : ℕ := 64

def MAX_ITEMS : ℕ := 128

def MAX_DEPTH : ℕ := 8

def KEYS_TRUNCATED : JsString := ofString "…[truncated]"

def DEPTH_TRUNCATED : JsString := ofString "[truncated: depth]"

def CIRCULAR : JsString := ofString "[circular]"

def REDACTED_VALUE : JsString := ofString "<redacted>"

def REDACTED_KEY : JsString := ofString "[redacted]"

def truncate (s : JsString) : JsString := if MAX_STRING < s.length then s.take MAX_STRING ++ ofString "…[truncated]" else s

def text (s : JsString) : JsValue := .leaf (.str s)

/-- `out[key] = value` -/
def assign (out : List Member) (key : JsString) (value : JsValue) : List Member :=
  if key = protoKey then out
  else if key ∈ out.map Prod.fst then out.map fun m => if m.1 = key then (key,value) else m
  else place out (key,value)

/-- What serializes at a place: its options, and the engine's calls that are left. -/
structure Platform where
  toLowerCase : JsString → JsString
  redactKeys : List JsString
  calls : ℕ

def Platform.isRedactedKey (platform : Platform) (key : JsString) : Bool :=
  platform.toLowerCase key ∈ platform.redactKeys.map platform.toLowerCase

variable {α : Type} [DecidableEq α] (platform : Platform) (heap : Heap α)

/-- The entries of a source, from what renders a value. -/
def entries (render : Value α → JsValue) (source : List (JsString × Value α)) : JsValue :=
  let out := (source.take MAX_KEYS).foldl
    (fun out e => assign out e.1 (if platform.isRedactedKey e.1 then text REDACTED_KEY else render e.2)) []
  let dropped := source.length - MAX_KEYS
  .obj (if 0 < dropped then assign out KEYS_TRUNCATED (.leaf (.num (Decimal.ofInt dropped))) else out)

def items (render : Value α → JsValue) (source : List (Value α)) : JsValue :=
  let out := (source.take MAX_ITEMS).map render
  let dropped := source.length - MAX_ITEMS
  .arr (if 0 < dropped then out ++ [text (ofString "…[truncated: " ++ units (Nat.toDigits 10 dropped) ++ ofString "]")] else out)

def errorEntries (name message : Value α) (fields : List (JsString × Value α)) : List (JsString × Value α) :=
  (ofString "name",name) :: (ofString "message",message) :: fields.filter fun field => field.1 ≠ ofString "stack"

/-- The rendering of a value, with what is left of the depth. Numbers that are not finite are written as `null`. -/
def go : ℕ → List α → Value α → JsValue
  | _,_,.undefined => .leaf .undefined
  | _,_,.null => .leaf .null
  | _,_,.bool b => .leaf (.bool b)
  | _,_,.number (.finite d) => .leaf (.num d)
  | _,_,.number _ => .leaf .null
  | _,_,.bigint z => text (units (integerText z))
  | _,_,.text s => text (truncate s)
  | _,_,.symbol description => text (truncate (ofString "Symbol(" ++ description ++ ofString ")"))
  | _,_,.function _ => text (ofString "[function]")
  | depth,seen,.object a =>
    match heap a with
    | .redacted _ => text REDACTED_VALUE
    | .date iso _ => text (iso.getD (ofString "[invalid date]"))
    | object =>
      if a ∈ seen then text CIRCULAR
      else
        match depth with
        | 0 => text DEPTH_TRUNCATED
        | depth + 1 =>
          let render := go depth (a :: seen)
          let unserializable := text (ofString "[unserializable]")
          match object with
          | .redacted _ => text REDACTED_VALUE
          | .date iso _ => text (iso.getD (ofString "[invalid date]"))
          | .error name message fields => entries platform render (errorEntries name message fields)
          | .array source => items render source
          | .set source => items render source
          | .map source =>
            match source.mapM fun e => (stringOf heap platform.calls e.1).map fun key => (key,e.2) with
            | some source => entries platform render source
            | none => unserializable
          | .json (some result) _ => render result
          | .json none _ => unserializable
          | .custom (some s) => text (truncate s)
          | .custom none => unserializable
          | .plain _ fields => entries platform render fields

def serialize (value : Value α) : JsValue := go platform heap MAX_DEPTH [] value

end Serializer

section Logger

mutual
/-- The value without the members that `JSON.stringify` leaves out. -/
def defined : JsValue → JsValue
  | .leaf s => .leaf s
  | .arr vs => .arr (definedItems vs)
  | .obj ms => .obj (definedMembers ms)
def definedItems : List JsValue → List JsValue
  | [] => []
  | v :: vs => defined v :: definedItems vs
def definedMembers : List Member → List Member
  | [] => []
  | (k,v) :: ms => if v.isUndefined then definedMembers ms else (k,defined v) :: definedMembers ms
end

/-- `JSON.stringify(value)`, for values without `bigint`s. -/
def jsonStringify (value : JsValue) : Option JsString := if value.isUndefined then none else some (defined value).write

structure Service where
  name : JsString
  version : JsString
  instanceId : JsString

/-- A log call: its time and its cause by their texts, no text for an empty cause. -/
structure LogCall (α : Type) where
  heap : Heap α
  ts : JsString
  level : JsString
  messages : List (Value α)
  annotations : List (JsString × Value α)
  spans : List JsString
  cause : Option JsString

variable {α : Type} [DecidableEq α] (platform : Platform) (service : Service)

def Value.text? : Value α → Option JsString
  | .text s => some s
  | _ => none

def structured (call : LogCall α) : List JsValue := (call.messages.filter fun m => m.text? =
    none).map (serialize platform call.heap)

def event (call : LogCall α) : JsString :=
  let texts := (call.messages.filterMap Value.text?).map truncate
  if texts ≠ [] then joined (ofString " ") texts
  else truncate (joined (ofString " ") ((structured platform call).map fun s => (jsonStringify s).getD (ofString "undefined")))

def record (call : LogCall α) : JsValue :=
  let data : List Member :=
    match structured platform call with
    | [] => []
    | [value] => [(ofString "data",value)]
    | values => [(ofString "data",.arr values)]
  let error : List Member := call.cause.toList.map fun cause => (ofString "error",text (truncate cause))
  .obj ((ofString "ts",text call.ts) :: (ofString "level",text call.level) :: (ofString "event",text (event platform call)) ::
    (ofString "service",.obj [(ofString "name",text service.name),(ofString "version",text service.version),
      (ofString "instance",text service.instanceId)]) ::
    (ofString "annotations",entries platform (serialize platform call.heap) call.annotations) ::
    (ofString "spans",.arr (call.spans.map text)) :: (data ++ error))

def makeJsonLogger (call : LogCall α) : List JsString := [(defined (record platform service call)).write]

end Logger

end StructureAi.Observability

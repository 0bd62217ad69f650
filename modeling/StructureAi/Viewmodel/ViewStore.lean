import StructureAi.Viewmodel.ViewModel

/-! # View stores

The rows of a store are objects of the language. What is assigned to `__proto__` makes no member, and a name
that is not a member is
looked up in `Object.prototype`.
-/
namespace StructureAi.Viewmodel
open StructureAi.Foundation

section Objects

/-- What a property can hold. -/
inductive Raw
  | undefined
  | value (v : Json)
  /-- `NaN` or an infinity. -/
  | notFinite
  /-- What `Object.prototype` has under a name. -/
  | inherited (name : String)
deriving DecidableEq

inductive Kind
  | undefined
  | null
  | text
  | number
  | boolean
  | object
deriving DecidableEq

def Raw.kind : Raw → Kind
  | undefined => .undefined
  | value .null => .null
  | value (.str _) => .text
  | value (.num _) => .number
  | value (.bool _) => .boolean
  | value (.arr _) => .object
  | value (.obj _) => .object
  | notFinite => .number
  | inherited _ => .object

def protoName : String := "__proto__"

def prototypeNames : List String :=
  ["constructor","__defineGetter__","__defineSetter__","hasOwnProperty","__lookupGetter__","__lookupSetter__","isPrototypeOf",
    "propertyIsEnumerable","toString","valueOf",protoName,"toLocaleString"]

/-- `object[name] = value` -/
def assign (object : List (String × Raw)) (name : String) (value : Raw) : List (String × Raw) :=
  if name = protoName then object else put name value object

def present (names : List String) (held : List (Option Raw)) : List (String × Raw) :=
  (names.zip held).filterMap fun e => e.2.map fun raw => (e.1,raw)

def assignAll (members : List (String × Raw)) : List (String × Raw) := members.foldl (fun object m => assign object m.1 m.2) []

end Objects

section Schemas
variable {V : Type}

/-- A field with its schema over the values of the language: what is encoded is read back,
  and from scalars of one type. A field is
not both optional and nullable. -/
structure Field (V : Type) extends FieldAst where
  Member : V → Prop
  encode : V → Json
  decode : Raw → Option V
  accepts : ∀ v, Member v → ast.Accepts (encode v)
  decode_encode : ∀ v, Member v → decode (.value (encode v)) = some v
  kind_eq : ∀ r v, decode r = some v → r.kind = (Raw.value (encode v)).kind
  not_null : optional = true → ∀ v, Member v → encode v ≠ .null

/-- `Schema.encodeSync` of a struct. -/
def encode (fields : List (Field V)) (values : List (Option V)) : List (String × Raw) :=
  assignAll (present (fields.map fun field => field.name)
    (List.zipWith (fun field x => x.map fun v => Raw.value (field.encode v)) fields values))

def decodeField (field : Field V) (member : Option Raw) : Option (Option V) :=
  match member with
  | some raw => (field.decode raw).map some
  | none => if field.optional then some none else none

/-- `Schema.decodeUnknownSync` of a struct. -/
def decode (fields : List (Field V)) (record : List (String × Raw)) : Option (List (Option V)) :=
  fields.mapM fun field => decodeField field (record.lookup field.name)

end Schemas

section Conversion

/-- The texts of what is no scalar. -/
structure Texts where
  ofFunction : String → String
  ofObject : Json → String

variable (texts : Texts)

/-- `String(raw)` -/
def stringOf : Raw → String
  | .undefined => "undefined"
  | .value .null => "null"
  | .value (.str s) => s
  | .value (.num d) => String.ofList d.text
  | .value (.bool b) => if b then "true" else "false"
  | .value v => texts.ofObject v
  | .notFinite => "NaN"
  | .inherited name => if name = protoName then "[object Object]" else texts.ofFunction name

/-- `JSON.stringify(raw)` -/
def jsonStringify : Raw → Raw
  | .undefined => .undefined
  | .value v => .value (.str v.stringify)
  | .notFinite => .value (.str "null")
  | .inherited name => if name = protoName then .value (.str "{}") else .undefined

def toColumnValue (column : ColumnSpec) (raw : Raw) : Raw :=
  match raw with
  | .undefined | .value .null => .value .null
  | raw =>
    if column.json then jsonStringify raw
    else
      match raw with
      | .value (.str _) | .value (.num _) | .value (.bool _) | .notFinite => raw
      | raw => .value (.str (stringOf texts raw))

local instance lawful_numerals : LawfulBEq (List Char) := inferInstance

/-- `Number(text)`, `none` for `NaN`. -/
def readNumber (text : String) : Option Raw :=
  match numberOf text with
  | some d => some (.value (.num d))
  | none => if trim text.toList ∈ ["Infinity".toList,"+Infinity".toList,"-Infinity".toList] then some .notFinite else none

def coerceBoolean : Raw → Raw
  | .value (.num d) => .value (.bool (d.mantissa ≠ 0))
  | .value (.str s) =>
    if s ∈ ["true","t","1"] then .value (.bool true)
    else if s ∈ ["false","f","0"] then .value (.bool false)
    else .value (.str s)
  | .notFinite => .value (.bool true)
  | raw => raw

def coerceNumber : Raw → Raw
  | .value (.str s) => if trim s.toList = [] then .value (.str s) else (readNumber s).getD (.value (.str s))
  | raw => raw

/-- `none` is an exception of `JSON.parse`. -/
def normalize (column : ColumnSpec) (raw : Raw) : Option Raw :=
  if column.json then (Json.parse (stringOf texts raw)).map .value
  else
    match column.sqlType with
    | .boolean => some (coerceBoolean raw)
    | .integer | .double => some (coerceNumber raw)
    | .text => some raw

variable {V : Type} (fields : List (Field V)) (columns : List ColumnSpec)

/-- What a column gives to the record, if anything; `none` is an exception. -/
def receive (column : ColumnSpec) : Raw → Option (Option Raw)
  | .undefined | .value .null => if column.optional then some none else some (some (.value .null))
  | raw => (normalize texts column raw).map some

end Conversion

section Drivers

/-- What a driver returns for what was stored. -/
inductive Returns : Raw → Raw → Prop
  | same (raw : Raw) : Returns raw raw
  | absent : Returns .undefined (.value .null)
  | bit (b : Bool) : Returns (.value (.bool b)) (.value (.num (Decimal.ofInt (if b then 1 else 0))))
  | numeral {d : Decimal} {s : String} (hblank : trim s.toList ≠ []) (h : numberOf s = some d) :
      Returns (.value (.num d)) (.value (.str s))

end Drivers

end StructureAi.Viewmodel

import StructureAi.Foundation.JsonRoundTrip
import StructureAi.Foundation.Numeral
import StructureAi.Foundation.Entries

/-! # View models

A view model has fields, each with a schema; a column is derived from each. Its storage class is found by a walk over the tree of
the schema, its name is the name of the field in snake case. Schemas are of scalars: what they encode are texts, numbers,
booleans and `null`.
-/
namespace StructureAi.Viewmodel
open StructureAi.Foundation

section Schemas

inductive StorageClass
  | text
  | integer
  | double
  | boolean
deriving DecidableEq

inductive Literal
  | null
  | text (s : String)
  | number (d : Decimal)
  | boolean (b : Bool)
deriving DecidableEq

inductive EnumValue
  | text (s : String)
  | number (d : Decimal)
deriving DecidableEq

/-- The tree of a schema. A transformation has the tree of its encoded side. -/
inductive Ast
  | string
  | templateLiteral
  | number
  | boolean
  | undefined
  | literal (literal : Literal)
  | enums (values : List EnumValue)
  | union (types : List Ast)
  | refinement (int : Bool) (source : Ast)
  | transformation (encoded : Ast)

def Literal.json : Literal → Json
  | null => .null
  | text s => .str s
  | number d => .num d
  | boolean b => .bool b

def EnumValue.json : EnumValue → Json
  | text s => .str s
  | number d => .num d

mutual
/-- What the encoded side of a schema can be, but for the predicates of its refinements. -/
def Ast.Accepts : Ast → Json → Prop
  | .string,v | .templateLiteral,v => ∃ s, v = .str s
  | .number,v => ∃ d, v = .num d
  | .boolean,v => ∃ b, v = .bool b
  | .undefined,_ => False
  | .literal literal,v => v = literal.json
  | .enums values,v => ∃ value ∈ values, v = value.json
  | .union types,v => AnyAccepts types v
  | .refinement _ source,v => source.Accepts v
  | .transformation encoded,v => encoded.Accepts v
def AnyAccepts : List Ast → Json → Prop
  | [],_ => False
  | ast :: types,v => ast.Accepts v ∨ AnyAccepts types v
end

structure Classified where
  sqlType : StorageClass
  json : Bool
  nullable : Bool
deriving DecidableEq

def TEXT : Classified := ⟨.text,false,false⟩

def DOUBLE : Classified := ⟨.double,false,false⟩

def INTEGER : Classified := ⟨.integer,false,false⟩

def BOOLEAN : Classified := ⟨.boolean,false,false⟩

def JSON_TEXT : Classified := ⟨.text,true,false⟩

def isNullish : Ast → Bool
  | .undefined | .literal .null => true
  | _ => false

def isTextLiteral : Ast → Bool
  | .literal (.text _) => true
  | _ => false

/-- `Number.isInteger` -/
def isInteger (d : Decimal) : Bool := d.mantissa = 0 || 0 ≤ d.exponent

mutual
def classify : Ast → Classified
  | .refinement int source => if int then INTEGER else classify source
  | .transformation encoded => classify encoded
  | .union types =>
    let members := types.filter fun member => !isNullish member
    let nullable : Bool := members.length ≠ types.length
    if members.length = 1 then
      let inner := classifyFirst types
      {inner with nullable := nullable || inner.nullable}
    else if 1 < members.length ∧ members.all isTextLiteral = true then {TEXT with nullable := nullable}
    else {JSON_TEXT with nullable := nullable}
  | .string | .templateLiteral => TEXT
  | .number => DOUBLE
  | .boolean => BOOLEAN
  | .literal (.text _) => TEXT
  | .literal (.number d) => if isInteger d then INTEGER else DOUBLE
  | .literal (.boolean _) => BOOLEAN
  | .literal .null => {JSON_TEXT with nullable := true}
  | .enums values =>
    if values.all (fun value => value matches .text _) then TEXT
    else if values.all (fun value => value matches .number _) then DOUBLE
    else JSON_TEXT
  | .undefined => JSON_TEXT
def classifyFirst : List Ast → Classified
  | [] => JSON_TEXT
  | ast :: types => if isNullish ast then classifyFirst types else classify ast
end

end Schemas

section Names

def isUpper (c : Char) : Bool := 'A' ≤ c && c ≤ 'Z'

def isLower (c : Char) : Bool := 'a' ≤ c && c ≤ 'z'

/-- `name.replace(/([A-Z]+)([A-Z][a-z])/g, "$1_$2")` -/
def splitRuns : List Char → List Char
  | a :: b :: c :: rest =>
    if isUpper a && isUpper b && isLower c then a :: '_' :: splitRuns (b :: c :: rest) else a :: splitRuns (b :: c :: rest)
  | cs => cs

/-- `name.replace(/([a-z0-9])([A-Z])/g, "$1_$2")` -/
def splitHumps : List Char → List Char
  | a :: b :: rest =>
    if (isLower a || a.isDigit) && isUpper b then a :: '_' :: splitHumps (b :: rest) else a :: splitHumps (b :: rest)
  | cs => cs

def snakeCase (toLowerCase : String → String) (name : String) : String :=
  toLowerCase (String.ofList (splitHumps (splitRuns name.toList)))

def columnName (toLowerCase : String → String) (field : String) : String := snakeCase toLowerCase field

example : columnName String.toLower "occurredAt" = "occurred_at" := by decide +kernel

end Names

section Define

/-- What a field has of its schema for the storage: whether its key may be absent, and the tree of its encoded side. -/
structure FieldAst where
  name : String
  ast : Ast
  optional : Bool

structure ColumnSpec where
  field : String
  column : String
  sqlType : StorageClass
  json : Bool
  nullable : Bool
  optional : Bool

structure ViewModelDef where
  name : String
  table : String
  idField : String
  idColumn : String
  columns : List ColumnSpec

variable (toLowerCase : String → String)

def columnOf (field : FieldAst) : ColumnSpec :=
  let classified := classify field.ast
  ⟨field.name,columnName toLowerCase field.name,classified.sqlType,classified.json,classified.nullable || field.optional,
    field.optional⟩

/-- The clashes of columns, with the columns that were seen before. -/
def clashes : List (String × String) → List FieldAst → List String
  | _,[] => []
  | seen,field :: fields =>
    let column := columnName toLowerCase field.name
    let rest := clashes (put column field.name seen) fields
    match seen.lookup column with
    | some clash => ("fields \"" ++ clash ++ "\" and \"" ++ field.name ++ "\" both map to column \"" ++ column ++ "\"") :: rest
    | none => rest

/-- `define`, with the problems of a definition that is thrown at. -/
def define (name : String) (table idField : Option String) (fields : List FieldAst) : Except (List String) ViewModelDef :=
  let idField := idField.getD "id"
  let names := fields.map FieldAst.name
  let listed := ", ".intercalate names
  let missing :=
    if idField ∈ names then []
    else ["id field \"" ++ idField ++ "\" is not one of the fields (" ++ (if listed = "" then "none" else listed) ++ ")"]
  let problems := missing ++ clashes toLowerCase [] fields
  if problems = [] then
    .ok ⟨name,table.getD (snakeCase toLowerCase name),idField,columnName toLowerCase idField,fields.map (columnOf toLowerCase)⟩
  else .error problems

end Define

end StructureAi.Viewmodel

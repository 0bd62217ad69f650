import StructureAi.Viewmodel.ViewStore

/-! # The round trip of rows

Field by field: what a column holds of a field is read back as what was encoded. It is not where a name means something to the
language, and where an integer column holds what is no number.
-/
namespace StructureAi.Viewmodel
open StructureAi.Foundation
variable {V : Type} {texts : Texts} {toLowerCase : String → String}

section Objects
variable {names : List String} {held : List (Option Raw)} {members object : List (String × Raw)} {name : String}

end Objects

section Rows
variable {fields : List (Field V)} {values : List (Option V)} {field : Field V} {x : Option V}

/-- The field with the column that is derived from it. -/
def Field.column (toLowerCase : String → String) (field : Field V) : ColumnSpec := columnOf toLowerCase field.toFieldAst

/-- What the encoded struct has under the name of a field. -/
def encodedProperty (field : Field V) (x : Option V) : Raw :=
  match (if field.name = protoName then none else x.map fun v => Raw.value (field.encode v)) with
  | some raw => raw
  | none => if field.name ∈ prototypeNames then .inherited field.name else .undefined

def stored (texts : Texts) (toLowerCase : String → String) (field : Field V) (x : Option V) : Raw :=
  toColumnValue texts (field.column toLowerCase) (encodedProperty field x)

def Arrives (texts : Texts) (toLowerCase : String → String) (field : Field V) (x : Option V) (raw : Raw) : Prop :=
  if (field.column toLowerCase).column = protoName then raw =
    .inherited protoName else Returns (stored texts toLowerCase field x) raw

end Rows

section Classes
variable {ast : Ast} {types : List Ast} {v : Json}

/-- What is in a column of a class, apart from `null`. -/
def Holds : StorageClass → Json → Prop
  | .text,v => ∃ s, v = .str s
  | .double,v => ∃ d, v = .num d
  | .boolean,v => ∃ b, v = .bool b
  | .integer,_ => True

theorem null_of_nullish (hast : isNullish ast = true) (h : ast.Accepts v) : v = .null := by
  cases ast with
  | undefined =>
    rw [Ast.Accepts] at h
    cases h
  | literal l =>
    cases l with
    | null =>
      rw [Ast.Accepts] at h
      exact h
    | _ => cases hast
  | _ => cases hast

theorem exists_of_any (h : AnyAccepts types v) : ∃ ast ∈ types, ast.Accepts v := by
  induction types with
  | nil =>
    rw [AnyAccepts] at h
    cases h
  | cons ast types ih =>
    rw [AnyAccepts] at h
    obtain h | h := h
    · exact ⟨ast,List.mem_cons_self,h⟩
    · obtain ⟨member,hmember,h⟩ := ih h
      exact ⟨member,List.mem_cons_of_mem _ hmember,h⟩

theorem null_or_member (h : AnyAccepts types v) : v = .null ∨ ∃ ast ∈ types.filter (fun member => !isNullish member),
    ast.Accepts v := by
  obtain ⟨ast,hast,h⟩ := exists_of_any h
  cases hnullish : isNullish ast with
  | true => exact Or.inl (null_of_nullish hnullish h)
  | false => exact Or.inr ⟨ast,List.mem_filter.mpr ⟨hast,by rw [hnullish]; rfl⟩,h⟩

theorem text_of_literal (hast : isTextLiteral ast = true) (h : ast.Accepts v) : ∃ s, v = .str s := by
  cases ast with
  | literal l =>
    cases l with
    | text s =>
      rw [Ast.Accepts] at h
      exact ⟨s,h⟩
    | _ => cases hast
  | _ => cases hast

mutual
theorem accepts_classify : ∀ (ast : Ast) (v : Json), ast.Accepts v → (classify ast).json = false →
    v = .null ∨ Holds (classify ast).sqlType v
  | .string,v,h,hjson => Or.inr (by rwa [Ast.Accepts] at h)
  | .templateLiteral,v,h,hjson => Or.inr (by rwa [Ast.Accepts] at h)
  | .number,v,h,hjson => Or.inr (by rwa [Ast.Accepts] at h)
  | .boolean,v,h,hjson => Or.inr (by rwa [Ast.Accepts] at h)
  | .undefined,v,h,hjson => by
    rw [Ast.Accepts] at h
    cases h
  | .literal .null,v,h,hjson => Or.inl (by rwa [Ast.Accepts] at h)
  | .literal (.text s),v,h,hjson => Or.inr ⟨s,by rwa [Ast.Accepts] at h⟩
  | .literal (.boolean b),v,h,hjson => Or.inr ⟨b,by rwa [Ast.Accepts] at h⟩
  | .literal (.number d),v,h,hjson => by
    rw [Ast.Accepts] at h
    rw [classify]
    split
    · exact Or.inr trivial
    · exact Or.inr ⟨d,h⟩
  | .enums values,v,h,hjson => by
    rw [Ast.Accepts] at h
    obtain ⟨value,hvalue,rfl⟩ := h
    rw [classify] at hjson ⊢
    split
    · rename_i htexts
      have htext := List.all_eq_true.mp htexts value hvalue
      cases value with
      | text s => exact Or.inr ⟨s,rfl⟩
      | number d => cases htext
    · rename_i htexts
      rw [if_neg htexts] at hjson
      split
      · rename_i hnumbers
        have hnumber := List.all_eq_true.mp hnumbers value hvalue
        cases value with
        | text s => cases hnumber
        | number d => exact Or.inr ⟨d,rfl⟩
      · rename_i hnumbers
        rw [if_neg hnumbers] at hjson
        cases hjson
  | .union types,v,h,hjson => by
    rw [Ast.Accepts] at h
    rw [classify] at hjson ⊢
    dsimp only at hjson ⊢
    split
    · rename_i hone
      rw [if_pos hone] at hjson
      exact accepts_first types v h (Nat.le_of_eq hone) hjson
    · rename_i hone
      rw [if_neg hone] at hjson
      split
      · rename_i htexts
        obtain hnull | ⟨ast,hast,h⟩ := null_or_member h
        · exact Or.inl hnull
        · exact Or.inr (text_of_literal (List.all_eq_true.mp htexts.2 ast hast) h)
      · rename_i htexts
        rw [if_neg htexts] at hjson
        cases hjson
  | .refinement int source,v,h,hjson => by
    rw [Ast.Accepts] at h
    cases int with
    | true =>
      rw [classify]
      exact Or.inr trivial
    | false =>
      rw [classify] at hjson ⊢
      exact accepts_classify source v h hjson
  | .transformation encoded,v,h,hjson => by
    rw [Ast.Accepts] at h
    rw [classify] at hjson ⊢
    exact accepts_classify encoded v h hjson
theorem accepts_first : ∀ (types : List Ast) (v : Json), AnyAccepts types v →
    (types.filter fun member => !isNullish member).length ≤ 1 →
    (classifyFirst types).json = false → v = .null ∨ Holds (classifyFirst types).sqlType v
  | [],v,h,hone,hjson => by
    rw [AnyAccepts] at h
    cases h
  | ast :: types,v,h,hone,hjson => by
    rw [AnyAccepts] at h
    rw [classifyFirst] at hjson ⊢
    cases hnullish : isNullish ast with
    | true =>
      rw [hnullish,if_pos rfl] at hjson
      rw [if_pos rfl]
      rw [List.filter_cons,hnullish] at hone
      obtain h | h := h
      · exact Or.inl (null_of_nullish hnullish h)
      · exact accepts_first types v h hone hjson
    | false =>
      rw [hnullish] at hjson
      rw [List.filter_cons,hnullish] at hone
      obtain h | h := h
      · exact accepts_classify ast v h hjson
      · obtain hnull | ⟨member,hmember,-⟩ := null_or_member h
        · exact Or.inl hnull
        · have hpos := List.length_pos_of_mem hmember
          simp only [Bool.not_false,if_true,List.length_cons] at hone
          omega
end

mutual
theorem accepts_scalar : ∀ (ast : Ast) (v : Json), ast.Accepts v → (Raw.value v).kind ≠ .object
  | .string,v,h => by
    rw [Ast.Accepts] at h
    obtain ⟨s,rfl⟩ := h
    exact nofun
  | .templateLiteral,v,h => by
    rw [Ast.Accepts] at h
    obtain ⟨s,rfl⟩ := h
    exact nofun
  | .number,v,h => by
    rw [Ast.Accepts] at h
    obtain ⟨d,rfl⟩ := h
    exact nofun
  | .boolean,v,h => by
    rw [Ast.Accepts] at h
    obtain ⟨b,rfl⟩ := h
    exact nofun
  | .undefined,v,h => by
    rw [Ast.Accepts] at h
    cases h
  | .literal l,v,h => by
    rw [Ast.Accepts] at h
    subst h
    cases l with
    | _ => exact nofun
  | .enums values,v,h => by
    rw [Ast.Accepts] at h
    obtain ⟨value,-,rfl⟩ := h
    cases value with
    | _ => exact nofun
  | .union types,v,h => by
    rw [Ast.Accepts] at h
    exact any_scalar types v h
  | .refinement _ source,v,h => by
    rw [Ast.Accepts] at h
    exact accepts_scalar source v h
  | .transformation encoded,v,h => by
    rw [Ast.Accepts] at h
    exact accepts_scalar encoded v h
theorem any_scalar : ∀ (types : List Ast) (v : Json), AnyAccepts types v → (Raw.value v).kind ≠ .object
  | [],v,h => by
    rw [AnyAccepts] at h
    cases h
  | ast :: types,v,h => by
    rw [AnyAccepts] at h
    obtain h | h := h
    · exact accepts_scalar ast v h
    · exact any_scalar types v h
end

end Classes

section Fields
variable {field : Field V} {column : ColumnSpec} {v : V} {raw r : Raw} {m : Option Raw} {s : String}

/-- What an integer column gives back as another type. -/
def Misread (v : Json) : Prop := (∃ b, v = .bool b) ∨ ∃ s, v = .str s ∧ trim s.toList ≠ [] ∧ readNumber s ≠ none

def Keeps (toLowerCase : String → String) (field : Field V) : Option V → Prop
  | some v => (field.column toLowerCase).column ≠ protoName ∧ field.name ≠ protoName ∧
      ((field.column toLowerCase).json = false → (field.column toLowerCase).sqlType = .integer → ¬ Misread (field.encode v))
  | none =>
    if (field.column toLowerCase).column = protoName then field.name = protoName ∧ (field.column toLowerCase).json = false
    else field.name ∈ prototypeNames → (field.column toLowerCase).json = true ∨ field.name = protoName

def normalized (sqlType : StorageClass) (raw : Raw) : Raw :=
  match sqlType with
  | .boolean => coerceBoolean raw
  | .integer | .double => coerceNumber raw
  | .text => raw

end Fields

section Accepted
variable {fields : List (Field V)} {values : List (Option V)} {d : ViewModelDef} {name : String} {table idField : Option String}

end Accepted

section Instances

def isText : Json → Bool
  | .str _ => true
  | _ => false

end Instances

end StructureAi.Viewmodel

import StructureAi.Foundation.JsonRoundTrip
import StructureAi.Foundation.Entries

/-! # Strings as code units

A JavaScript string is any list of UTF-16 code units. `JSON.stringify` writes surrogates that
stand alone as escapes, and a quoted string can be told apart from what follows it.
-/
namespace StructureAi.Foundation

abbrev CodeUnit := Fin 65536
abbrev JsString := List CodeUnit

/-- The unit of a character of the basic plane. -/
def unit (c : Char) : CodeUnit := Fin.ofNat 65536 c.toNat

def units (cs : List Char) : JsString := cs.map unit

def shortEscapes : List (CodeUnit × CodeUnit) :=
  [(unit '"',unit '"'),(unit '\\',unit '\\'),(unit '\x08',unit 'b'),(unit '\x0c',unit 'f'),(unit '\n',unit 'n'),
    (unit '\r',unit 'r'),(unit '\t',unit 't')]

/-- A unit by itself: surrogates and control characters are escaped. -/
def quoteUnit (u : CodeUnit) : JsString :=
  match shortEscapes.lookup u with
  | some escape => [unit '\\',escape]
  | none =>
    if u.val < 32 ∨ Json.isHigh u.val ∨ Json.isLow u.val then unit '\\' :: unit 'u' :: units (Json.hexDigits u.val)
    else [u]

/-- The inside of a quoted string; a pair of surrogates is one code point and stays. -/
def quoteBody : JsString → JsString
  | [] => []
  | [u] => quoteUnit u
  | u :: v :: rest =>
    if Json.isHigh u.val ∧ Json.isLow v.val then u :: v :: quoteBody rest
    else quoteUnit u ++ quoteBody (v :: rest)

/-- `QuoteJSONString`. -/
def quoteString (s : JsString) : JsString := unit '"' :: (quoteBody s ++ [unit '"'])

/-- What stands for one unit inside of a quoted string. -/
inductive Piece : CodeUnit → JsString → Prop
  | raw {u : CodeUnit} (hquote : u ≠ unit '"') (hescape : u ≠ unit '\\') : Piece u [u]
  | short {u escape : CodeUnit} (h : (u,escape) ∈ shortEscapes) : Piece u [unit '\\',escape]
  | long (u : CodeUnit) : Piece u (unit '\\' :: unit 'u' :: units (Json.hexDigits u.val))

/-- A string written piece by piece. -/
inductive Quoted : JsString → JsString → Prop
  | nil : Quoted [] []
  | cons {u : CodeUnit} {piece s text : JsString} (h : Piece u piece) (hs : Quoted s text) : Quoted (u :: s) (piece ++ text)

section Pieces
variable {u v : CodeUnit} {s t piece piece' text text' r r' : JsString}

theorem unit_injective {a b : Char} (ha : a.toNat < 65536) (hb : b.toNat < 65536) (h : unit a = unit b) : a = b := by
  have hval : a.toNat % 65536 = b.toNat % 65536 := congrArg Fin.val h
  rw [Nat.mod_eq_of_lt ha,Nat.mod_eq_of_lt hb] at hval
  exact Char.toNat_inj.mp hval

theorem units_injective {as bs : List Char} (ha : ∀ c ∈ as, c.toNat < 65536) (hb : ∀ c ∈ bs, c.toNat < 65536)
    (h : units as = units bs) : as = bs := by
  induction as generalizing bs with
  | nil =>
    cases bs with
    | nil => rfl
    | cons b bs => cases h
  | cons a as ih =>
    cases bs with
    | nil => cases h
    | cons b bs =>
      obtain ⟨hhead,htail⟩ := List.cons.inj h
      rw [unit_injective (ha a List.mem_cons_self) (hb b List.mem_cons_self) hhead,
        ih (fun c hc => ha c (List.mem_cons_of_mem a hc)) (fun c hc => hb c (List.mem_cons_of_mem b hc)) htail]

theorem toNat_digitChar : ∀ d < 16, (Nat.digitChar d).toNat < 65536 := by decide

theorem hexDigits_small (n : ℕ) : ∀ c ∈ Json.hexDigits n, c.toNat < 65536 := by
  have hdigit := toNat_digitChar
  simp only [Json.hexDigits,List.forall_mem_cons,List.not_mem_nil,false_imp_iff,implies_true,and_true]
  exact ⟨hdigit _ (by omega),hdigit _ (by omega),hdigit _ (by omega),hdigit _ (by omega)⟩

theorem hexDigits_injective (h : Json.hexDigits u.val = Json.hexDigits v.val) : u = v := by
  have hu := Json.hexUnit_hexDigits u.isLt
  have hv := Json.hexUnit_hexDigits v.isLt
  unfold Json.hexDigits at h
  simp only [List.cons.injEq,and_true] at h
  rw [h.1,h.2.1,h.2.2.1,h.2.2.2,hv] at hu
  exact Fin.ext (Option.some.inj hu.symm)

theorem shortEscapes_unique {escape : CodeUnit} (hu : (u,escape) ∈ shortEscapes) (hv : (v,escape) ∈ shortEscapes) : u = v := by
  have hall : (shortEscapes.all fun a => shortEscapes.all fun b => a.2 ≠ b.2 || a.1 = b.1) = true := by decide
  have hone := List.all_eq_true.mp (List.all_eq_true.mp hall _ hu) _ hv
  simpa using hone

theorem not_short (h : (u,unit 'u') ∈ shortEscapes) : False := by
  have hall : (shortEscapes.all fun a => a.2 ≠ unit 'u') = true := by decide
  have hone := List.all_eq_true.mp hall _ h
  simp at hone

theorem Piece.unique (hu : Piece u piece) (hv : Piece v piece') (h : piece ++ r = piece' ++ r') : u = v ∧ r = r' := by
  cases hu with
  | raw hquote hescape =>
    cases hv with
    | raw => exact List.cons.inj h
    | short => exact absurd (List.cons.inj h).1 hescape
    | long => exact absurd (List.cons.inj h).1 hescape
  | short hin =>
    cases hv with
    | raw _ hescape => exact absurd (List.cons.inj h).1.symm hescape
    | short hin' =>
      obtain ⟨hescape,hrest⟩ := List.cons.inj (List.cons.inj h).2
      exact ⟨shortEscapes_unique hin (hescape ▸ hin'),hrest⟩
    | long => exact (not_short ((List.cons.inj (List.cons.inj h).2).1 ▸ hin)).elim
  | long =>
    cases hv with
    | raw _ hescape => exact absurd (List.cons.inj h).1.symm hescape
    | short hin => exact (not_short ((List.cons.inj (List.cons.inj h).2).1 ▸ hin)).elim
    | long =>
      obtain ⟨hdigits,hrest⟩ := List.append_inj (List.cons.inj (List.cons.inj h).2).2 rfl
      exact ⟨hexDigits_injective (units_injective (hexDigits_small _) (hexDigits_small _) hdigits),hrest⟩

theorem Piece.ne_end (hu : Piece u piece) (h : piece ++ r = unit '"' :: r') : False := by
  have hbackslash : unit '\\' ≠ unit '"' := by decide
  cases hu with
  | raw hquote => exact hquote (List.cons.inj h).1
  | short => exact hbackslash (List.cons.inj h).1
  | long => exact hbackslash (List.cons.inj h).1

theorem Quoted.unique (hs : Quoted s text) (ht : Quoted t text') (h : text ++ unit '"' :: r = text' ++ unit '"' :: r') :
    s = t ∧ r = r' := by
  induction hs generalizing t text' with
  | nil =>
    cases ht with
    | nil => exact ⟨rfl,(List.cons.inj h).2⟩
    | cons hpiece _ =>
      rw [List.append_assoc] at h
      exact (hpiece.ne_end h.symm).elim
  | cons hpiece _ ih =>
    rw [List.append_assoc] at h
    cases ht with
    | nil => exact (hpiece.ne_end h).elim
    | cons hpiece' ht =>
      rw [List.append_assoc] at h
      obtain ⟨rfl,hrest⟩ := hpiece.unique hpiece' h
      obtain ⟨rfl,hr⟩ := ih ht hrest
      exact ⟨rfl,hr⟩

theorem quoteUnit_piece (u : CodeUnit) : Piece u (quoteUnit u) := by
  unfold quoteUnit
  split
  · rename_i escape hlookup
    exact .short (mem_of_lookup hlookup)
  · rename_i hlookup
    split
    · exact .long u
    · refine .raw ?_ ?_
      · rintro rfl
        cases hlookup
      · rintro rfl
        cases hlookup

theorem raw_piece (h : 0xD800 ≤ u.val) : Piece u [u] := by
  refine .raw ?_ ?_
  · rintro rfl
    exact absurd h (by decide)
  · rintro rfl
    exact absurd h (by decide)

theorem quoteBody_quoted (s : JsString) : Quoted s (quoteBody s) := by
  induction s using quoteBody.induct with
  | case1 => exact .nil
  | case2 u =>
    have hone := Quoted.cons (quoteUnit_piece u) .nil
    rwa [List.append_nil] at hone
  | case3 u v rest hpair ih =>
    rw [quoteBody,if_pos hpair]
    simp only [Json.isHigh,Json.isLow,Bool.and_eq_true,decide_eq_true_eq] at hpair
    exact .cons (raw_piece hpair.1.1) (.cons (raw_piece (by omega)) ih)
  | case4 u v rest hpair ih =>
    rw [quoteBody,if_neg hpair]
    exact .cons (quoteUnit_piece u) ih

theorem quoteString_append_inj (h : quoteString s ++ r = quoteString t ++ r') : s = t ∧ r = r' := by
  unfold quoteString at h
  rw [List.cons_append,List.cons_append,List.append_assoc,List.append_assoc] at h
  exact (quoteBody_quoted s).unique (quoteBody_quoted t) (List.cons.inj h).2

end Pieces

end StructureAi.Foundation

import StructureAi.Foundation.Bytes
import StructureAi.Foundation.CodeUnits
import StructureAi.Foundation.Text

/-! # Text as code units

The code units of a text, against its characters and its bytes.
-/
namespace StructureAi.Foundation
variable {c d : Char} {text more : List Char}

local instance codeUnits_neZero : NeZero 65536 := ⟨by decide⟩

def charUnits (c : Char) : JsString := (unitsOf c).map (Fin.ofNat 65536)

def ofText (text : List Char) : JsString := text.flatMap charUnits

theorem ofText_cons (c : Char) (text : List Char) : ofText (c :: text) = charUnits c ++ ofText text := rfl

theorem ofText_append (text more : List Char) : ofText (text ++ more) = ofText text ++ ofText more := List.flatMap_append

theorem unitsOf_lt (c : Char) : ∀ u ∈ unitsOf c, u < 65536 := by
  have hvalid : c.toNat < 0xD800 ∨ 0xDFFF < c.toNat ∧ c.toNat < 0x110000 := c.valid
  unfold unitsOf
  split
  · simp only [List.mem_singleton,forall_eq]
    assumption
  · simp only [List.mem_cons,List.not_mem_nil,or_false,forall_eq_or_imp,forall_eq]
    omega

theorem val_charUnits (c : Char) : (charUnits c).map Fin.val = unitsOf c := by
  unfold charUnits
  rw [List.map_map]
  exact List.map_congr_left (fun u hu => Nat.mod_eq_of_lt (unitsOf_lt c u hu)) |>.trans (List.map_id _)

theorem ofText_injective : Function.Injective ofText := by
  intro text more h
  have hvals : ∀ text, (ofText text).map Fin.val = codeUnits (String.ofList text) := by
    intro text
    unfold ofText codeUnits
    rw [List.map_flatMap,String.toList_ofList]
    exact List.flatMap_congr fun c _ => val_charUnits c
  have hunits := congrArg (List.map Fin.val) h
  rw [hvals,hvals] at hunits
  have htexts := congrArg String.toList (codeUnits_injective hunits)
  rwa [String.toList_ofList,String.toList_ofList] at htexts

theorem charUnits_ascii (h : c.toNat < 0x80) : charUnits c = [unit c] := by
  unfold charUnits unitsOf
  rw [if_pos (by omega)]
  rfl

theorem ofText_ascii (h : ∀ c ∈ text, c.toNat < 0x80) : ofText text = units text := by
  induction text with
  | nil => rfl
  | cons c text ih =>
    rw [ofText_cons,charUnits_ascii (h c List.mem_cons_self),ih fun d hd => h d (List.mem_cons_of_mem c hd)]
    rfl

theorem mem_charUnits (hd : d.toNat < 0x80) (h : unit d ∈ charUnits c) : c = d := by
  have hval : d.toNat ∈ unitsOf c := by
    rw [← val_charUnits]
    have hin := List.mem_map_of_mem (f := Fin.val) h
    have hunit : (unit d).val = d.toNat := Nat.mod_eq_of_lt (by omega)
    rwa [hunit] at hin
  rcases unitsOf_cases c with ⟨hc,-⟩ | ⟨n,hn,-,hc⟩
  · rw [hc,List.mem_singleton] at hval
    exact Char.toNat_inj.mp hval.symm
  · rw [hc,List.mem_cons,List.mem_singleton] at hval
    omega

theorem mem_ofText (hd : d.toNat < 0x80) (h : unit d ∈ ofText text) : d ∈ text := by
  obtain ⟨c,hc,hunit⟩ := List.mem_flatMap.mp h
  exact mem_charUnits hd hunit ▸ hc

theorem length_charUnits (c : Char) :
    (charUnits c).length ≤ (String.utf8EncodeChar c).length ∧
      ((charUnits c).length = (String.utf8EncodeChar c).length → c.toNat < 0x80) := by
  have htoNat : c.val.toNat = c.toNat := rfl
  unfold charUnits unitsOf String.utf8EncodeChar
  rw [htoNat,List.length_map]
  generalize c.toNat = n
  dsimp only
  split
  · split
    · exact ⟨le_rfl,fun _ => by omega⟩
    · split
      · exact ⟨by simp,fun h => by simp at h⟩
      · split
        · exact ⟨by simp,fun h => by simp at h⟩
        · omega
  · rw [if_neg (by omega),if_neg (by omega),if_neg (by omega)]
    exact ⟨by simp,fun h => by simp at h⟩

theorem length_ofText_le (text : List Char) : (ofText text).length ≤ (encodeUtf8 text).length := by
  induction text with
  | nil => exact le_rfl
  | cons c text ih =>
    rw [ofText_cons,encodeUtf8,List.flatMap_cons,List.length_append,List.length_append]
    exact Nat.add_le_add (length_charUnits c).1 ih

theorem ascii_of_length (h : (ofText text).length = (encodeUtf8 text).length) : ∀ c ∈ text, c.toNat < 0x80 := by
  induction text with
  | nil => exact fun c hc => absurd hc List.not_mem_nil
  | cons c text ih =>
    rw [ofText_cons,encodeUtf8,List.flatMap_cons,List.length_append,List.length_append] at h
    obtain ⟨hle,hascii⟩ := length_charUnits c
    have hrest := length_ofText_le text
    unfold encodeUtf8 at hrest
    intro d hd
    rcases List.mem_cons.mp hd with rfl | hd
    · exact hascii (by omega)
    · exact ih (by unfold encodeUtf8; omega) d hd

theorem length_of_ascii (h : ∀ c ∈ text, c.toNat < 0x80) : (encodeUtf8 text).length = text.length := by
  induction text with
  | nil => rfl
  | cons c text ih =>
    have hone : (String.utf8EncodeChar c).length = 1 := by
      have hc : c.val.toNat ≤ 0x7f := Nat.le_of_lt_succ (h c List.mem_cons_self)
      unfold String.utf8EncodeChar
      simp only [if_pos hc,List.length_singleton]
    rw [encodeUtf8,List.flatMap_cons,List.length_append,hone,← encodeUtf8,ih fun d hd => h d (List.mem_cons_of_mem c hd),
      List.length_cons,
      Nat.add_comm]

section Scalars
variable {u v : CodeUnit} {s : JsString}

/-- The scalar values of a string; a surrogate that stands alone is replaced. -/
def scalarValues : JsString → List Char
  | [] => []
  | [u] => [Json.unitChar u.val]
  | u :: v :: rest =>
    if Json.isHigh u.val ∧ Json.isLow v.val then Json.pairChar u.val v.val :: scalarValues rest
    else Json.unitChar u.val :: scalarValues (v :: rest)

theorem scalarValues_single {u : CodeUnit} (hu : Json.isHigh u.val = false) (rest : JsString) :
    scalarValues (u :: rest) = Json.unitChar u.val :: scalarValues rest := by
  cases rest with
  | nil => rfl
  | cons v rest => rw [scalarValues,if_neg fun h => by rw [hu] at h; exact absurd h.1 (by decide)]

theorem scalarValues_charUnits (c : Char) (rest : JsString) : scalarValues (charUnits c ++ rest) = c :: scalarValues rest := by
  have hval : ∀ n < 65536, (Fin.ofNat 65536 n).val = n := fun n hn => Nat.mod_eq_of_lt hn
  unfold charUnits
  rcases unitsOf_cases c with ⟨hc,hrange⟩ | ⟨n,hn,hcn,hc⟩
  · have hlt : c.toNat < 65536 := unitsOf_lt c c.toNat (hc ▸ List.mem_singleton_self _)
    have hhigh : Json.isHigh c.toNat = false := by
      simp only [Json.isHigh,Bool.and_eq_false_iff,decide_eq_false_iff_not]
      omega
    have hlow : Json.isLow c.toNat = false := by
      simp only [Json.isLow,Bool.and_eq_false_iff,decide_eq_false_iff_not]
      omega
    rw [hc,List.map_singleton,List.singleton_append,scalarValues_single (by rw [hval _ hlt]; exact hhigh),hval _ hlt,
      Json.unitChar,hhigh,hlow]
    exact congrArg (· :: scalarValues rest) (Char.ofNat_toNat c)
  · have hhigh : Json.isHigh (0xd800 + n / 0x400) = true := by
      simp only [Json.isHigh,Bool.and_eq_true,decide_eq_true_eq]
      omega
    have hlow : Json.isLow (0xdc00 + n % 0x400) = true := by
      simp only [Json.isLow,Bool.and_eq_true,decide_eq_true_eq]
      omega
    have hpair : Json.pairChar (0xd800 + n / 0x400) (0xdc00 + n % 0x400) = c := by
      unfold Json.pairChar
      rw [show 0x10000 + (0xd800 + n / 0x400 - 0xD800) * 0x400 + (0xdc00 + n % 0x400 - 0xDC00) = c.toNat by omega]
      exact Char.ofNat_toNat c
    rw [hc,List.map_cons,List.map_singleton,List.cons_append,List.singleton_append,scalarValues,hval _ (by omega),
      hval _ (by omega),
      if_pos ⟨hhigh,hlow⟩,hpair]

theorem scalarValues_ofText (text : List Char) : scalarValues (ofText text) = text := by
  induction text with
  | nil => rfl
  | cons c text ih => rw [ofText_cons,scalarValues_charUnits,ih]

theorem toNat_charOfNat {n : ℕ} (hn : n.isValidChar) : (Char.ofNat n).toNat = n := by
  rw [Char.ofNat,dif_pos hn]
  rfl

theorem charUnits_unitChar (h : Json.unitChar u.val ≠ '\uFFFD') : charUnits (Json.unitChar u.val) = [u] := by
  unfold Json.unitChar at h ⊢
  by_cases hsurrogate : (Json.isHigh u.val || Json.isLow u.val) = true
  · rw [if_pos hsurrogate] at h
    exact absurd rfl h
  · rw [if_neg hsurrogate]
    simp only [Json.isHigh,Json.isLow,Bool.or_eq_true,Bool.and_eq_true,decide_eq_true_eq,not_or,not_and_or,not_le,not_lt]
      at hsurrogate
    have hlt := u.isLt
    have hvalid : u.val.isValidChar := by
      unfold Nat.isValidChar
      omega
    have hval : (Char.ofNat u.val).toNat = u.val := toNat_charOfNat hvalid
    unfold charUnits unitsOf
    rw [hval,if_pos hlt,List.map_singleton]
    exact congrArg (fun w => [w]) (Fin.ofNat_val_eq_self u)

theorem toNat_pairChar (hpair : Json.isHigh u.val ∧ Json.isLow v.val) :
    (Json.pairChar u.val v.val).toNat = 0x10000 + (u.val - 0xD800) * 0x400 + (v.val - 0xDC00) := by
  simp only [Json.isHigh,Json.isLow,Bool.and_eq_true,decide_eq_true_eq] at hpair
  apply toNat_charOfNat
  unfold Nat.isValidChar
  omega

theorem charUnits_pairChar (hpair : Json.isHigh u.val ∧ Json.isLow v.val) : charUnits (Json.pairChar u.val v.val) = [u,v] := by
  have hval := toNat_pairChar hpair
  simp only [Json.isHigh,Json.isLow,Bool.and_eq_true,decide_eq_true_eq] at hpair
  have hu : 0xd800 + (0x10000 + (u.val - 0xD800) * 0x400 + (v.val - 0xDC00) - 0x10000) / 0x400 = u.val := by omega
  have hv : 0xdc00 + (0x10000 + (u.val - 0xD800) * 0x400 + (v.val - 0xDC00) - 0x10000) % 0x400 = v.val := by omega
  unfold charUnits unitsOf
  rw [hval,if_neg (by omega),hu,hv,List.map_cons,List.map_singleton]
  exact congrArg₂ (fun a b => [a,b]) (Fin.ofNat_val_eq_self u) (Fin.ofNat_val_eq_self v)

/-- A string from which no unit was replaced is that of its scalar values. -/
theorem ofText_scalarValues (h : '\uFFFD' ∉ scalarValues s) : ofText (scalarValues s) = s := by
  induction s using scalarValues.induct with
  | case1 => rfl
  | case2 u => exact (List.append_nil _).trans (charUnits_unitChar fun heq => h (heq ▸ List.mem_singleton_self _))
  | case3 u v rest hpair ih =>
    rw [scalarValues,if_pos hpair] at h ⊢
    rw [ofText_cons,charUnits_pairChar hpair,ih fun hin => h (List.mem_cons_of_mem _ hin)]
    rfl
  | case4 u v rest hpair ih =>
    rw [scalarValues,if_neg hpair] at h ⊢
    rw [ofText_cons,ih fun hin => h (List.mem_cons_of_mem _ hin),
      charUnits_unitChar fun heq => h (heq ▸ List.mem_cons_self)]
    rfl

/-- What stands for a replaced unit was written by another one, or by itself. -/
theorem scalarValues_shared (h : '\uFFFD' ∈ scalarValues s) : ∃ t, t ≠ s ∧ scalarValues t = scalarValues s := by
  -- either of two units that no pair begins with
  have hreplaced : ∀ (u : CodeUnit) (rest : JsString), Json.unitChar u.val = '\uFFFD' →
      ∃ w, w ≠ u ∧ scalarValues (w :: rest) = '\uFFFD' :: scalarValues rest := by
    intro u rest hu
    by_cases hself : u = 0xFFFD
    · exact ⟨0xDC00,by rw [hself]; decide,scalarValues_single (by decide) rest⟩
    · exact ⟨0xFFFD,Ne.symm hself,scalarValues_single (by decide) rest⟩
  induction s using scalarValues.induct with
  | case1 => exact absurd h List.not_mem_nil
  | case2 u =>
    have hu : Json.unitChar u.val = '\uFFFD' := (List.mem_singleton.mp h).symm
    obtain ⟨w,hw,hsame⟩ := hreplaced u [] hu
    exact ⟨[w],fun heq => hw (List.cons.inj heq).1,hsame.trans (congrArg (fun c => [c]) hu.symm)⟩
  | case3 u v rest hpair ih =>
    rw [scalarValues,if_pos hpair] at h ⊢
    have hne : Json.pairChar u.val v.val ≠ '\uFFFD' := by
      intro heq
      have hunits := charUnits_pairChar hpair
      rw [heq] at hunits
      cases congrArg List.length hunits
    obtain ⟨t,ht,hsame⟩ := ih ((List.mem_cons.mp h).resolve_left hne.symm)
    refine ⟨u :: v :: t,fun heq => ht (List.cons.inj (List.cons.inj heq).2).2,?_⟩
    rw [scalarValues,if_pos hpair,hsame]
  | case4 u v rest hpair ih =>
    rw [scalarValues,if_neg hpair] at h ⊢
    by_cases hu : Json.unitChar u.val = '\uFFFD'
    · obtain ⟨w,hw,hsame⟩ := hreplaced u (v :: rest) hu
      exact ⟨w :: v :: rest,fun heq => hw (List.cons.inj heq).1,hsame.trans (by rw [hu])⟩
    · have hhigh : Json.isHigh u.val = false := by
        rw [Bool.eq_false_iff]
        intro hhigh
        exact hu (by rw [Json.unitChar,hhigh]; rfl)
      obtain ⟨t,ht,hsame⟩ := ih ((List.mem_cons.mp h).resolve_left (Ne.symm hu))
      refine ⟨u :: t,fun heq => ht (List.cons.inj heq).2,?_⟩
      rw [scalarValues_single hhigh,hsame]

end Scalars

end StructureAi.Foundation

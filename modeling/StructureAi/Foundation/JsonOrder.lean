import StructureAi.Foundation.JsonFields

/-! # Member order

`canonical` lists the members of every object in the order an object whose keys
were assigned sorted is enumerated: array indices first, then code unit order.
Two values with the same canonical form differ in member order only, and their
members can be looked up alike.
-/
namespace StructureAi.Foundation

def utf16Units (c : Char) : List ℕ :=
  if c.toNat < 0x10000 then [c.toNat]
  else [0xD800 + (c.toNat - 0x10000) / 0x400,0xDC00 + (c.toNat - 0x10000) % 0x400]

def utf16 (s : String) : List ℕ := s.toList.flatMap utf16Units

/-- `s.length` of a JavaScript string. -/
def utf16Length (s : String) : ℕ := (utf16 s).length

namespace Json

/-- The array index a property key spells, if it spells one. -/
def arrayIndex (key : String) : Option ℕ :=
  let n := Nat.ofDigitChars 10 key.toList 0
  if key.toList = Nat.toDigits 10 n ∧ n < 4294967295 then some n else none

/-- The enumeration order of keys assigned in sorted order. -/
def keyLe (a b : String) : Prop :=
  match arrayIndex a,arrayIndex b with
  | some i,some j => i ≤ j
  | some _,none => True
  | none,some _ => False
  | none,none => utf16 a ≤ utf16 b

instance (a b : String) : Decidable (keyLe a b) := by unfold keyLe; split <;> infer_instance

def memberLe (a b : String × Json) : Prop := keyLe a.1 b.1

instance (a b : String × Json) : Decidable (memberLe a b) := by unfold memberLe; infer_instance

mutual
def canonical : Json → Json
  | null => null
  | bool b => bool b
  | num d => num d
  | str s => str s
  | arr vs => arr (canonicalItems vs)
  | obj ms => obj ((canonicalMembers ms).insertionSort memberLe)
def canonicalItems : List Json → List Json
  | [] => []
  | v :: vs => canonical v :: canonicalItems vs
def canonicalMembers : List (String × Json) → List (String × Json)
  | [] => []
  | (k,v) :: ms => (k,canonical v) :: canonicalMembers ms
end

mutual
/-- The value without the members that an assignment cannot make: assigning to `__proto__` sets the
prototype of the new object. -/
def withoutProto : Json → Json
  | null => null
  | bool b => bool b
  | num d => num d
  | str s => str s
  | arr vs => arr (withoutProtoItems vs)
  | obj ms => obj (withoutProtoMembers ms)
def withoutProtoItems : List Json → List Json
  | [] => []
  | v :: vs => withoutProto v :: withoutProtoItems vs
def withoutProtoMembers : List (String × Json) → List (String × Json)
  | [] => []
  | (k,v) :: ms => if k = "__proto__" then withoutProtoMembers ms else (k,withoutProto v) :: withoutProtoMembers ms
end

/-- The text of a value that does not depend on the order of its members. -/
def stableJson (v : Json) : String := stringify v.withoutProto.canonical

mutual
/-- No object names a member twice, as in every JavaScript object. -/
def WellFormed : Json → Prop
  | null | bool _ | num _ | str _ => True
  | arr vs => WellFormedItems vs
  | obj ms => (ms.map Prod.fst).Nodup ∧ WellFormedMembers ms
def WellFormedItems : List Json → Prop
  | [] => True
  | v :: vs => WellFormed v ∧ WellFormedItems vs
def WellFormedMembers : List (String × Json) → Prop
  | [] => True
  | (_,v) :: ms => WellFormed v ∧ WellFormedMembers ms
end

mutual
def NulFree : Json → Prop
  | null | bool _ | num _ => True
  | str s => '\x00' ∉ s.toList
  | arr vs => NulFreeItems vs
  | obj ms => NulFreeMembers ms
def NulFreeItems : List Json → Prop
  | [] => True
  | v :: vs => NulFree v ∧ NulFreeItems vs
def NulFreeMembers : List (String × Json) → Prop
  | [] => True
  | (k,v) :: ms => '\x00' ∉ k.toList ∧ NulFree v ∧ NulFreeMembers ms
end

theorem canonicalMembers_eq (ms : List (String × Json)) :
    canonicalMembers ms = ms.map fun m => (m.1,canonical m.2) := by
  induction ms with
  | nil => rfl
  | cons m ms ih => rw [canonicalMembers,ih]; rfl

theorem get_obj_of_mem {ms : List (String × Json)} (hn : (ms.map Prod.fst).Nodup) {k : String}
    {v : Json} (h : (k,v) ∈ ms) : (obj ms).get k = some v := by
  have hf : (ofFields (ms.map fun m => (m.1,some m.2))).get k = some v :=
    get_ofFields (by simpa [List.map_map,Function.comp_def] using hn) (List.mem_map.mpr ⟨(k,v),h,rfl⟩)
  simpa [ofFields,List.filterMap_map,Function.comp_def] using hf

theorem get_obj_eq_none {ms : List (String × Json)} {k : String} (h : k ∉ ms.map Prod.fst) :
    (obj ms).get k = none := by
  simp only [get,Option.map_eq_none_iff,List.find?_eq_none,List.mem_reverse,decide_eq_true_eq]
  rintro m hm rfl
  exact h (List.mem_map_of_mem hm)

theorem get_obj_eq_some_iff {ms : List (String × Json)} (hn : (ms.map Prod.fst).Nodup) {k : String}
    {v : Json} : (obj ms).get k = some v ↔ (k,v) ∈ ms := by
  constructor
  · intro h
    by_cases hk : k ∈ ms.map Prod.fst
    · obtain ⟨⟨k',w⟩,hm,rfl⟩ := List.mem_map.mp hk
      rw [get_obj_of_mem hn hm,Option.some.injEq] at h
      exact h ▸ hm
    · rw [get_obj_eq_none hk] at h
      cases h
  · exact get_obj_of_mem hn

theorem get_perm {ms ns : List (String × Json)} (h : ms.Perm ns) (hn : (ms.map Prod.fst).Nodup)
    (k : String) : (obj ms).get k = (obj ns).get k := by
  have hn' : (ns.map Prod.fst).Nodup := (h.map Prod.fst).nodup_iff.mp hn
  refine Option.ext fun v => ?_
  rw [get_obj_eq_some_iff hn,get_obj_eq_some_iff hn']
  exact h.mem_iff

theorem get_canonicalMembers (ms : List (String × Json)) (k : String) :
    (obj (canonicalMembers ms)).get k = ((obj ms).get k).map canonical := by
  rw [canonicalMembers_eq]
  simp only [get,← List.map_reverse,List.find?_map,Option.map_map]
  rfl

theorem map_fst_canonicalMembers (ms : List (String × Json)) :
    (canonicalMembers ms).map Prod.fst = ms.map Prod.fst := by
  rw [canonicalMembers_eq,List.map_map]
  rfl

theorem get_canonical {v : Json} (hv : v.WellFormed) (k : String) :
    v.canonical.get k = (v.get k).map canonical := by
  cases v with
  | obj ms =>
    have hp := List.perm_insertionSort memberLe (canonicalMembers ms)
    have hn : ((canonicalMembers ms).map Prod.fst).Nodup := by
      rw [map_fst_canonicalMembers]
      exact hv.1
    rw [canonical,← get_perm hp.symm hn,get_canonicalMembers]
  | null => rfl
  | bool b => rfl
  | num d => rfl
  | str s => rfl
  | arr vs => rfl

theorem WellFormedMembers.of_mem {ms : List (String × Json)} (h : WellFormedMembers ms) {k : String}
    {v : Json} (hm : (k,v) ∈ ms) : v.WellFormed := by
  induction ms with
  | nil => cases hm
  | cons m ms ih =>
    obtain ⟨k',w⟩ := m
    rcases List.mem_cons.mp hm with heq | hm
    · obtain ⟨-,rfl⟩ := Prod.mk.inj heq
      exact h.1
    · exact ih h.2 hm

theorem WellFormed.get {v : Json} (hv : v.WellFormed) {k : String} {w : Json} (h : v.get k = some w) :
    w.WellFormed := by
  cases v with
  | obj ms => exact hv.2.of_mem ((get_obj_eq_some_iff hv.1).mp h)
  | null => cases h
  | bool b => cases h
  | num d => cases h
  | str s => cases h
  | arr vs => cases h

@[simp] theorem asString_canonical (v : Json) : asString v.canonical = asString v := by
  cases v <;> rfl

@[simp] theorem asNumber_canonical (v : Json) : asNumber v.canonical = asNumber v := by
  cases v <;> rfl

end Json
end StructureAi.Foundation

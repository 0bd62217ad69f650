import StructureAi.Foundation.ValueText

/-! # Stable JSON text

`canonical` assigns the members of an object to a new one in the order of their keys. Assigning to
`__proto__` sets the prototype and makes no member, so such a member is lost; apart from that the text
of the new value tells values apart up to the order of members.
-/
namespace StructureAi.Foundation

/-- The key whose assignment makes no own member. -/
def protoKey : JsString := units ['_','_','p','r','o','t','o','_','_']

/-- The array index a key spells, if it spells one. -/
def indexOf (key : JsString) : Option ℕ :=
  let n := key.foldl (fun n u => 10 * n + (u.val - 48)) 0
  if key = units (Nat.toDigits 10 n) ∧ n < 4294967295 then some n else none

abbrev Member := JsString × JsValue

def before (i : ℕ) (m : Member) : Bool :=
  match indexOf m.1 with
  | some j => j < i
  | none => false

/-- A new own member: array indices are enumerated first and in order, other keys as they are created. -/
def place (sorted : List Member) (m : Member) : List Member :=
  match indexOf m.1 with
  | some i => sorted.takeWhile (before i) ++ m :: sorted.dropWhile (before i)
  | none => sorted ++ [m]

namespace JsValue

def isUndefined : JsValue → Bool
  | leaf .undefined => true
  | _ => false

/-- A member that `canonical` keeps. -/
def kept (m : Member) : Bool := m.1 ≠ protoKey && !m.2.isUndefined

/-- `sorted[key] = …`, where the member is not `undefined`. -/
def assign (sorted : List Member) (m : Member) : List Member :=
  if kept m then place sorted m else sorted

/-- The order of `Object.keys(source).sort()`. -/
def keyLe (m n : Member) : Prop := m.1 ≤ n.1

instance : DecidableRel keyLe := fun m n => inferInstanceAs (Decidable (m.1 ≤ n.1))

mutual
def canonical : JsValue → JsValue
  | leaf s => leaf s
  | arr vs => arr (canonicalItems vs)
  | obj ms => obj (((canonicalMembers ms).insertionSort keyLe).foldl assign [])
def canonicalItems : List JsValue → List JsValue
  | [] => []
  | v :: vs => canonical v :: canonicalItems vs
def canonicalMembers : List Member → List Member
  | [] => []
  | (k,v) :: ms => (k,canonical v) :: canonicalMembers ms
end

/-- `stableJson`. -/
def stableJson (v : JsValue) : JsString := v.canonical.write

mutual
def WellFormed : JsValue → Prop
  | leaf _ => True
  | arr vs => WellFormedItems vs
  | obj ms => (ms.map Prod.fst).Nodup ∧ WellFormedMembers ms
def WellFormedItems : List JsValue → Prop
  | [] => True
  | v :: vs => WellFormed v ∧ WellFormedItems vs
def WellFormedMembers : List Member → Prop
  | [] => True
  | (_,v) :: ms => WellFormed v ∧ WellFormedMembers ms
end

mutual
def Holds (p : Scalar → Prop) : JsValue → Prop
  | leaf s => p s
  | arr vs => HoldsItems p vs
  | obj ms => HoldsMembers p ms
def HoldsItems (p : Scalar → Prop) : List JsValue → Prop
  | [] => True
  | v :: vs => Holds p v ∧ HoldsItems p vs
def HoldsMembers (p : Scalar → Prop) : List Member → Prop
  | [] => True
  | (_,v) :: ms => Holds p v ∧ HoldsMembers p ms
end

/-- JSON has neither `undefined` nor `bigint`s. -/
def IsJson (v : JsValue) : Prop := v.WellFormed ∧ v.Holds fun s => s ≠ .undefined ∧ ∀ z, s ≠ .bigint z

mutual
/-- Equal up to the order of the members of objects. -/
def Same : JsValue → JsValue → Prop
  | leaf s, w => w = leaf s
  | arr vs, w => ∃ ws, w = arr ws ∧ SameItems vs ws
  | obj ms, w => ∃ ns, w = obj ns ∧ ms.length = ns.length ∧ SameMembers ms ns
def SameItems : List JsValue → List JsValue → Prop
  | [], ws => ws = []
  | v :: vs, ws => ∃ w ws', ws = w :: ws' ∧ Same v w ∧ SameItems vs ws'
def SameMembers : List Member → List Member → Prop
  | [], _ => True
  | (k,v) :: ms, ns => (∃ w, (k,w) ∈ ns ∧ Same v w) ∧ SameMembers ms ns
end

mutual
/-- The value without the members that `canonical` loses. -/
def stripped : JsValue → JsValue
  | leaf s => leaf s
  | arr vs => arr (strippedItems vs)
  | obj ms => obj (strippedMembers ms)
def strippedItems : List JsValue → List JsValue
  | [] => []
  | v :: vs => stripped v :: strippedItems vs
def strippedMembers : List Member → List Member
  | [] => []
  | (k,v) :: ms => if kept (k,v) then (k,stripped v) :: strippedMembers ms else strippedMembers ms
end

section Members
variable {v w : JsValue} {vs ws : List JsValue} {ms ns : List Member} {k : JsString} {p : Scalar → Prop}

theorem canonicalItems_eq (vs : List JsValue) : canonicalItems vs = vs.map canonical := by
  induction vs with
  | nil => rfl
  | cons v vs ih => rw [canonicalItems,ih,List.map_cons]

theorem canonicalMembers_eq (ms : List Member) : canonicalMembers ms = ms.map fun m => (m.1,canonical m.2) := by
  induction ms with
  | nil => rfl
  | cons m ms ih => rw [canonicalMembers,ih,List.map_cons]

theorem strippedItems_eq (vs : List JsValue) : strippedItems vs = vs.map stripped := by
  induction vs with
  | nil => rfl
  | cons v vs ih => rw [strippedItems,ih,List.map_cons]

theorem strippedMembers_eq (ms : List Member) : strippedMembers ms = (ms.filter kept).map fun m => (m.1,stripped m.2) := by
  induction ms with
  | nil => rfl
  | cons m ms ih =>
    obtain ⟨k,v⟩ := m
    rw [strippedMembers,ih]
    by_cases hkept : kept (k,v) = true
    · rw [if_pos hkept,List.filter_cons_of_pos hkept,List.map_cons]
    · rw [if_neg hkept,List.filter_cons_of_neg hkept]

theorem wellFormedItems_iff : WellFormedItems vs ↔ ∀ v ∈ vs, v.WellFormed := by
  induction vs with
  | nil => exact iff_of_true trivial (List.forall_mem_nil _)
  | cons v vs ih => rw [WellFormedItems,ih,List.forall_mem_cons]

theorem wellFormedMembers_iff : WellFormedMembers ms ↔ ∀ m ∈ ms, m.2.WellFormed := by
  induction ms with
  | nil => exact iff_of_true trivial (List.forall_mem_nil _)
  | cons m ms ih => rw [WellFormedMembers,ih,List.forall_mem_cons]

theorem holdsItems_iff : HoldsItems p vs ↔ ∀ v ∈ vs, v.Holds p := by
  induction vs with
  | nil => exact iff_of_true trivial (List.forall_mem_nil _)
  | cons v vs ih => rw [HoldsItems,ih,List.forall_mem_cons]

theorem holdsMembers_iff : HoldsMembers p ms ↔ ∀ m ∈ ms, m.2.Holds p := by
  induction ms with
  | nil => exact iff_of_true trivial (List.forall_mem_nil _)
  | cons m ms ih => rw [HoldsMembers,ih,List.forall_mem_cons]

theorem sameItems_iff : SameItems vs ws ↔ List.Forall₂ Same vs ws := by
  induction vs generalizing ws with
  | nil => rw [SameItems,List.forall₂_nil_left_iff]
  | cons v vs ih =>
    rw [SameItems,List.forall₂_cons_left_iff]
    constructor
    · rintro ⟨w,ws',rfl,hsame,hitems⟩
      exact ⟨w,ws',hsame,ih.mp hitems,rfl⟩
    · rintro ⟨w,ws',hsame,hitems,rfl⟩
      exact ⟨w,ws',rfl,hsame,ih.mpr hitems⟩

theorem sameMembers_iff : SameMembers ms ns ↔ ∀ m ∈ ms, ∃ w, (m.1,w) ∈ ns ∧ Same m.2 w := by
  induction ms with
  | nil => exact iff_of_true trivial (List.forall_mem_nil _)
  | cons m ms ih => rw [SameMembers,ih,List.forall_mem_cons]

theorem isUndefined_canonical (v : JsValue) : v.canonical.isUndefined = v.isUndefined := by
  cases v with
  | leaf s => rfl
  | arr vs => rfl
  | obj ms => rfl

end Members

section Sorting
variable {l l' : List Member} {m : Member}

theorem place_perm (sorted : List Member) (m : Member) : (place sorted m).Perm (m :: sorted) := by
  unfold place
  split
  · rename_i i _
    have hmiddle : (sorted.takeWhile (before i) ++ m :: sorted.dropWhile (before i)).Perm _ := List.perm_middle
    rwa [List.takeWhile_append_dropWhile] at hmiddle
  · exact List.perm_append_singleton m sorted

theorem foldl_place_perm (sorted l : List Member) : (l.foldl place sorted).Perm (l ++ sorted) := by
  induction l generalizing sorted with
  | nil => exact List.Perm.refl _
  | cons m l ih =>
    refine (ih (place sorted m)).trans ?_
    refine ((place_perm sorted m).append_left l).trans ?_
    exact List.perm_middle

theorem foldl_assign (sorted l : List Member) : l.foldl assign sorted = (l.filter kept).foldl place sorted := by
  rw [List.foldl_filter]
  rfl

theorem insertionSort_sorted (l : List Member) : (l.insertionSort keyLe).Pairwise keyLe := by
  have htotal : Std.Total keyLe := ⟨fun m n => le_total m.1 n.1⟩
  have htrans : IsTrans Member keyLe := ⟨fun _ _ _ => le_trans⟩
  exact List.pairwise_insertionSort keyLe l

/-- What the new object keeps, in order, is determined up to the order it was given in. -/
theorem sorted_unique (hnodup : ((l.filter kept).map Prod.fst).Nodup) (h : (l.filter kept).Perm (l'.filter kept)) :
    (l.insertionSort keyLe).filter kept = (l'.insertionSort keyLe).filter kept := by
  have hperm := (List.perm_insertionSort keyLe l).filter kept
  have hperm' := (List.perm_insertionSort keyLe l').filter kept
  refine List.Perm.eq_of_pairwise ?_ ((insertionSort_sorted l).filter kept) ((insertionSort_sorted l').filter kept)
    (hperm.trans (h.trans hperm'.symm))
  intro a b ha hb hab hba
  have hkey : a.1 = b.1 := le_antisymm hab hba
  exact List.inj_on_of_nodup_map hnodup (hperm.mem_iff.mp ha) (h.mem_iff.mpr (hperm'.mem_iff.mp hb)) hkey

theorem assigned_eq_iff (hnodup : ((l.filter kept).map Prod.fst).Nodup) :
    (l.insertionSort keyLe).foldl assign [] = (l'.insertionSort keyLe).foldl assign [] ↔
      (l.filter kept).Perm (l'.filter kept) := by
  rw [foldl_assign,foldl_assign]
  constructor
  · intro h
    have hplaced := foldl_place_perm [] ((l.insertionSort keyLe).filter kept)
    have hplaced' := foldl_place_perm [] ((l'.insertionSort keyLe).filter kept)
    rw [List.append_nil] at hplaced hplaced'
    rw [← h] at hplaced'
    exact (((List.perm_insertionSort keyLe l).filter kept).symm.trans (hplaced.symm.trans hplaced')).trans
      ((List.perm_insertionSort keyLe l').filter kept)
  · intro h
    rw [sorted_unique hnodup h]

end Sorting

section Canonical
variable {v w : JsValue} {ms ns : List Member}

theorem kept_canonical (m : Member) : kept (m.1,m.2.canonical) = kept m := by
  unfold kept
  rw [isUndefined_canonical]

theorem filter_canonicalMembers (ms : List Member) :
    (canonicalMembers ms).filter kept = (ms.filter kept).map fun m => (m.1,canonical m.2) := by
  rw [canonicalMembers_eq,List.filter_map]
  congr 1
  exact List.filter_congr fun m _ => kept_canonical m

/-- Members with distinct names correspond just where there are as many and each has its counterpart. -/
theorem members_perm_iff {f : JsValue → JsValue} (hms : (ms.map Prod.fst).Nodup) :
    (ms.map fun m => (m.1,f m.2)).Perm (ns.map fun n => (n.1,f n.2)) ↔
      ms.length = ns.length ∧ ∀ m ∈ ms, ∃ n ∈ ns, n.1 = m.1 ∧ f m.2 = f n.2 := by
  constructor
  · intro h
    refine ⟨by simpa using h.length_eq,?_⟩
    intro m hm
    obtain ⟨n,hn,heq⟩ := List.mem_map.mp (h.mem_iff.mp (List.mem_map_of_mem hm))
    obtain ⟨hkey,hvalue⟩ := Prod.mk.inj heq
    exact ⟨n,hn,hkey,hvalue.symm⟩
  · rintro ⟨hlength,hall⟩
    have hnodup : (ms.map fun m => (m.1,f m.2)).Nodup := by
      refine List.Nodup.of_map Prod.fst ?_
      rw [List.map_map]
      exact hms
    refine (List.subperm_of_subset hnodup ?_).perm_of_length_le (by simp [hlength])
    intro a ha
    obtain ⟨m,hm,rfl⟩ := List.mem_map.mp ha
    obtain ⟨n,hn,hkey,hvalue⟩ := hall m hm
    exact List.mem_map.mpr ⟨n,hn,Prod.ext hkey hvalue.symm⟩

theorem forall₂_imp_mem {α : Type} {P Q : α → α → Prop} {l l' : List α} (hl : List.Forall₂ P l l')
    (h : ∀ a ∈ l, ∀ b ∈ l', P a b → Q a b) : List.Forall₂ Q l l' := by
  induction hl with
  | nil => exact .nil
  | cons hab _ ih =>
    exact .cons (h _ List.mem_cons_self _ List.mem_cons_self hab)
      (ih fun c hc d hd => h c (List.mem_cons_of_mem _ hc) d (List.mem_cons_of_mem _ hd))

theorem forall₂_congr {α : Type} {P Q : α → α → Prop} {l l' : List α} (h : ∀ a ∈ l, ∀ b ∈ l', P a b ↔ Q a b) :
    List.Forall₂ P l l' ↔ List.Forall₂ Q l l' :=
  ⟨fun hl => forall₂_imp_mem hl fun a ha b hb => (h a ha b hb).mp,fun hl => forall₂_imp_mem hl fun a ha b hb =>
    (h a ha b hb).mpr⟩

theorem map_eq_iff_forall₂ {α β : Type} {f : α → β} {l l' : List α} :
    l.map f = l'.map f ↔ List.Forall₂ (fun a b => f a = f b) l l' := by
  rw [← List.forall₂_map_right_iff,← List.forall₂_map_left_iff,List.forall₂_eq_eq_eq]

/-- The canonical forms are equal just where the values without the lost members are the same. -/
theorem canonical_eq_iff (v : JsValue) : ∀ w : JsValue, v.WellFormed → w.WellFormed →
    (v.canonical = w.canonical ↔ Same v.stripped w.stripped) := by
  induction v using induct with
  | hleaf s =>
    intro w _ _
    rw [stripped,Same,canonical]
    cases w with
    | leaf s' => rw [canonical,stripped,eq_comm]
    | arr ws => rw [canonical,stripped]; exact iff_of_false nofun nofun
    | obj ns => rw [canonical,stripped]; exact iff_of_false nofun nofun
  | harr vs ih =>
    intro w hv hw
    rw [stripped,Same,canonical]
    cases w with
    | leaf s' =>
      rw [canonical,stripped]
      exact iff_of_false nofun (by rintro ⟨_,⟨⟩,_⟩)
    | obj ns =>
      rw [canonical,stripped]
      exact iff_of_false nofun (by rintro ⟨_,⟨⟩,_⟩)
    | arr ws =>
      rw [WellFormed,wellFormedItems_iff] at hv hw
      have hitems : canonicalItems vs = canonicalItems ws ↔ SameItems (strippedItems vs) (strippedItems ws) := by
        rw [canonicalItems_eq,canonicalItems_eq,map_eq_iff_forall₂,sameItems_iff,strippedItems_eq,strippedItems_eq,
          List.forall₂_map_left_iff,List.forall₂_map_right_iff]
        exact forall₂_congr fun v hin w hin' => ih v hin w (hv v hin) (hw w hin')
      rw [canonical,stripped,JsValue.arr.injEq,hitems]
      constructor
      · exact fun h => ⟨_,rfl,h⟩
      · rintro ⟨_,heq,h⟩
        cases heq
        exact h
  | hobj ms ih =>
    intro w hv hw
    rw [stripped,Same,canonical]
    cases w with
    | leaf s' =>
      rw [canonical,stripped]
      exact iff_of_false nofun (by rintro ⟨_,⟨⟩,_⟩)
    | arr ws =>
      rw [canonical,stripped]
      exact iff_of_false nofun (by rintro ⟨_,⟨⟩,_⟩)
    | obj ns =>
      obtain ⟨hnodup,hms⟩ := hv
      obtain ⟨_,hns⟩ := hw
      rw [wellFormedMembers_iff] at hms hns
      have hdistinct : ((ms.filter kept).map Prod.fst).Nodup := hnodup.sublist (List.filter_sublist.map Prod.fst)
      have hkeys : (((canonicalMembers ms).filter kept).map Prod.fst).Nodup := by
        rw [filter_canonicalMembers,List.map_map]
        exact hdistinct
      rw [canonical,stripped,JsValue.obj.injEq,assigned_eq_iff hkeys,filter_canonicalMembers,filter_canonicalMembers,
        members_perm_iff hdistinct]
      have hmembers : SameMembers (strippedMembers ms) (strippedMembers ns) ↔
          ∀ m ∈ ms.filter kept, ∃ n ∈ ns.filter kept, n.1 = m.1 ∧ canonical m.2 = canonical n.2 := by
        rw [sameMembers_iff,strippedMembers_eq,strippedMembers_eq,List.forall_mem_map]
        have hvalues : ∀ m ∈ ms.filter kept, ∀ n ∈ ns.filter kept, canonical m.2 = canonical n.2 ↔
          Same (stripped m.2) (stripped n.2) :=
          fun m hm n hn => ih m (List.mem_of_mem_filter hm) n.2 (hms m (List.mem_of_mem_filter hm))
            (hns n (List.mem_of_mem_filter hn))
        constructor
        · intro h m hm
          obtain ⟨_,hin,hsame⟩ := h m hm
          obtain ⟨n,hn,heq⟩ := List.mem_map.mp hin
          obtain ⟨hkey,rfl⟩ := Prod.mk.inj heq
          exact ⟨n,hn,hkey,(hvalues m hm n hn).mpr hsame⟩
        · intro h m hm
          obtain ⟨n,hn,hkey,hcanonical⟩ := h m hm
          exact ⟨stripped n.2,List.mem_map.mpr ⟨n,hn,Prod.ext hkey rfl⟩,(hvalues m hm n hn).mp hcanonical⟩
      constructor
      · rintro ⟨hlength,hall⟩
        refine ⟨_,rfl,?_,hmembers.mpr hall⟩
        rw [strippedMembers_eq,strippedMembers_eq,List.length_map,List.length_map,hlength]
      · rintro ⟨_,heq,hlength,hall⟩
        cases heq
        rw [strippedMembers_eq,strippedMembers_eq,List.length_map,List.length_map] at hlength
        exact ⟨hlength,hmembers.mp hall⟩

end Canonical

section Textual
variable {v w : JsValue} {ms ns : List Member}

/-- A member with its scalars as they are written. -/
def writtenMember (m : Member) : Member := (m.1,m.2.textual)

theorem place_written (sorted : List Member) (m : Member) :
    place (sorted.map writtenMember) (writtenMember m) = (place sorted m).map writtenMember := by
  have hindex : indexOf (writtenMember m).1 = indexOf m.1 := rfl
  unfold place
  rw [hindex]
  split
  · rename_i i _
    have hbefore : before i ∘ writtenMember = before i := rfl
    rw [List.takeWhile_map,List.dropWhile_map,hbefore,List.map_append,List.map_cons]
  · rw [List.map_append,List.map_singleton]

theorem isUndefined_textual (v : JsValue) (h : v.isUndefined = false) : v.textual.isUndefined = false := by
  cases v with
  | leaf s =>
    cases s with
    | undefined => cases h
    | null | bool | num | bigint | str => rfl
  | arr vs => rfl
  | obj ms => rfl

theorem foldl_written (sorted l : List Member) (h : ∀ m ∈ l, m.2.isUndefined = false) :
    (l.map writtenMember).foldl assign (sorted.map writtenMember) = (l.foldl assign sorted).map writtenMember := by
  induction l generalizing sorted with
  | nil => rfl
  | cons m l ih =>
    obtain ⟨hm,hl⟩ := List.forall_mem_cons.mp h
    have hkept : kept (writtenMember m) = kept m := by
      have hwritten : (writtenMember m).2.isUndefined = false := isUndefined_textual m.2 hm
      unfold kept
      rw [hwritten,hm]
      rfl
    have hassign : assign (sorted.map writtenMember) (writtenMember m) = (assign sorted m).map writtenMember := by
      unfold assign
      rw [hkept]
      split
      · exact place_written sorted m
      · rfl
    rw [List.map_cons,List.foldl_cons,List.foldl_cons,hassign,ih _ hl]

theorem isUndefined_of_holds (h : v.Holds (· ≠ .undefined)) : v.isUndefined = false := by
  cases v with
  | leaf s =>
    rw [Holds] at h
    cases s with
    | undefined => exact absurd rfl h
    | null | bool | num | bigint | str => rfl
  | arr vs => rfl
  | obj ms => rfl

theorem canonical_textual (v : JsValue) (h : v.Holds (· ≠ .undefined)) : v.textual.canonical = v.canonical.textual := by
  induction v using induct with
  | hleaf s => rfl
  | harr vs ih =>
    rw [Holds,holdsItems_iff] at h
    unfold textual at ih ⊢
    rw [mapScalars,canonical,canonical,mapScalars,mapItems_eq,canonicalItems_eq,canonicalItems_eq,mapItems_eq,List.map_map,
      List.map_map]
    exact congrArg arr (List.map_congr_left fun v hv => ih v hv (h v hv))
  | hobj ms ih =>
    rw [Holds,holdsMembers_iff] at h
    have hmembers : canonicalMembers (ms.map writtenMember) = (canonicalMembers ms).map writtenMember := by
      rw [canonicalMembers_eq,canonicalMembers_eq,List.map_map,List.map_map]
      exact List.map_congr_left fun m hm => Prod.ext rfl (ih m hm (h m hm))
    have hsort : ((canonicalMembers ms).insertionSort keyLe).map writtenMember =
        ((canonicalMembers ms).map writtenMember).insertionSort keyLe :=
      List.map_insertionSort keyLe keyLe writtenMember _ fun _ _ _ _ => Iff.rfl
    have hdefined : ∀ m ∈ (canonicalMembers ms).insertionSort keyLe, m.2.isUndefined = false := by
      intro m hm
      rw [List.mem_insertionSort,canonicalMembers_eq] at hm
      obtain ⟨n,hn,rfl⟩ := List.mem_map.mp hm
      exact (isUndefined_canonical n.2).trans (isUndefined_of_holds (h n hn))
    have hfold := foldl_written [] ((canonicalMembers ms).insertionSort keyLe) hdefined
    have htextual : ∀ ms : List Member, (obj ms).textual = obj (ms.map writtenMember) := by
      intro ms
      rw [textual,mapScalars,mapMembers_eq]
      rfl
    rw [htextual,canonical,canonical,htextual,hmembers,← hsort,← hfold]
    rfl

theorem wellFormed_textual (h : v.WellFormed) : v.textual.WellFormed := by
  induction v using induct with
  | hleaf s => trivial
  | harr vs ih =>
    unfold textual at ih ⊢
    rw [WellFormed,wellFormedItems_iff] at h
    rw [mapScalars,WellFormed,wellFormedItems_iff,mapItems_eq,List.forall_mem_map]
    exact fun v hv => ih v hv (h v hv)
  | hobj ms ih =>
    unfold textual at ih ⊢
    obtain ⟨hnodup,hms⟩ := h
    rw [wellFormedMembers_iff] at hms
    rw [mapScalars,WellFormed,wellFormedMembers_iff,mapMembers_eq,List.forall_mem_map,List.map_map]
    exact ⟨hnodup,fun m hm => ih m hm (hms m hm)⟩

/-- Two values have one stable text just where, without the lost members, they are written alike. -/
theorem stableJson_eq_iff (hv : v.WellFormed) (hw : w.WellFormed) (hv' : v.Holds (· ≠ .undefined))
    (hw' : w.Holds (· ≠ .undefined)) :
    v.stableJson = w.stableJson ↔ Same v.textual.stripped w.textual.stripped := by
  rw [stableJson,stableJson,write_eq_iff,← canonical_textual v hv',← canonical_textual w hw',
    canonical_eq_iff _ _ (wellFormed_textual hv) (wellFormed_textual hw)]

end Textual

section Json
variable {v w : JsValue} {ms ns : List Member}

theorem textual_of_holds (v : JsValue) (h : v.Holds fun s => s ≠ .undefined ∧ ∀ z, s ≠ .bigint z) : v.textual = v := by
  induction v using induct with
  | hleaf s =>
    rw [Holds] at h
    cases s with
    | undefined => exact absurd rfl h.1
    | bigint z => exact absurd rfl (h.2 z)
    | null | bool | num | str => rfl
  | harr vs ih =>
    rw [Holds,holdsItems_iff] at h
    unfold textual at ih ⊢
    rw [mapScalars,mapItems_eq]
    have hitems : vs.map (mapScalars Scalar.textual) = vs.map id := List.map_congr_left fun v hv => ih v hv (h v hv)
    rw [hitems,List.map_id]
  | hobj ms ih =>
    rw [Holds,holdsMembers_iff] at h
    unfold textual at ih ⊢
    rw [mapScalars,mapMembers_eq]
    have hmembers : (ms.map fun m => (m.1,mapScalars Scalar.textual m.2)) = ms.map id :=
      List.map_congr_left fun m hm => Prod.ext rfl (ih m hm (h m hm))
    rw [hmembers,List.map_id]

theorem holds_imp {p q : Scalar → Prop} (hpq : ∀ s, p s → q s) (h : v.Holds p) : v.Holds q := by
  induction v using induct with
  | hleaf s => exact hpq s h
  | harr vs ih =>
    rw [Holds,holdsItems_iff] at h ⊢
    exact fun v hv => ih v hv (h v hv)
  | hobj ms ih =>
    rw [Holds,holdsMembers_iff] at h ⊢
    exact fun m hm => ih m hm (h m hm)

theorem IsJson.defined (h : v.IsJson) : v.Holds (· ≠ .undefined) := holds_imp (fun _ hs => hs.1) h.2

theorem IsJson.textual_eq (h : v.IsJson) : v.textual = v := textual_of_holds v h.2

theorem Same.isUndefined_eq (h : Same v w) : v.isUndefined = w.isUndefined := by
  cases v with
  | leaf s =>
    rw [Same] at h
    rw [h]
  | arr vs =>
    rw [Same] at h
    obtain ⟨ws,rfl,_⟩ := h
    rfl
  | obj ms =>
    rw [Same] at h
    obtain ⟨ns,rfl,_⟩ := h
    rfl

/-- As many members, with distinct names, each with its counterpart: so has each of the others. -/
theorem exists_counterpart (hms : (ms.map Prod.fst).Nodup) (hns : (ns.map Prod.fst).Nodup) (hlength : ms.length = ns.length)
    (hall : ∀ m ∈ ms, ∃ w, (m.1,w) ∈ ns ∧ Same m.2 w) : ∀ n ∈ ns, ∃ m ∈ ms, m.1 = n.1 ∧ Same m.2 n.2 := by
  intro n hn
  have hsub : ms.map Prod.fst ⊆ ns.map Prod.fst := by
    intro k hk
    obtain ⟨m,hm,rfl⟩ := List.mem_map.mp hk
    obtain ⟨w,hw,_⟩ := hall m hm
    exact List.mem_map.mpr ⟨(m.1,w),hw,rfl⟩
  have hperm := (List.subperm_of_subset hms hsub).perm_of_length_le (by simp [hlength])
  obtain ⟨m,hm,hkey⟩ := List.mem_map.mp (hperm.mem_iff.mpr (List.mem_map_of_mem hn))
  obtain ⟨w,hw,hsame⟩ := hall m hm
  have heq : (m.1,w) = n := List.inj_on_of_nodup_map hns hw hn hkey
  exact ⟨m,hm,hkey,heq ▸ hsame⟩

theorem same_stripped (v : JsValue) : ∀ w : JsValue, v.WellFormed → w.WellFormed → Same v w → Same v.stripped w.stripped := by
  induction v using induct with
  | hleaf s =>
    intro w _ _ h
    rw [Same] at h
    rw [h,stripped,Same]
  | harr vs ih =>
    intro w hv hw h
    rw [Same] at h
    obtain ⟨ws,rfl,hitems⟩ := h
    rw [WellFormed,wellFormedItems_iff] at hv hw
    rw [stripped,stripped,Same,strippedItems_eq,strippedItems_eq]
    refine ⟨_,rfl,?_⟩
    rw [sameItems_iff] at hitems ⊢
    rw [List.forall₂_map_left_iff,List.forall₂_map_right_iff]
    exact forall₂_imp_mem hitems fun v hin w hin' => ih v hin w (hv v hin) (hw w hin')
  | hobj ms ih =>
    intro w hv hw h
    rw [Same] at h
    obtain ⟨ns,rfl,hlength,hall⟩ := h
    obtain ⟨hms,hmembers⟩ := hv
    obtain ⟨hns,hmembers'⟩ := hw
    rw [wellFormedMembers_iff] at hmembers hmembers'
    rw [sameMembers_iff] at hall
    have hback := exists_counterpart hms hns hlength hall
    have hkept : ∀ m n : Member, m.1 = n.1 → Same m.2 n.2 → kept m = kept n := by
      intro m n hkey hsame
      unfold kept
      rw [hkey,hsame.isUndefined_eq]
    have hperm : ((ms.filter kept).map Prod.fst).Perm ((ns.filter kept).map Prod.fst) := by
      rw [List.perm_ext_iff_of_nodup (hms.sublist (List.filter_sublist.map _)) (hns.sublist (List.filter_sublist.map _))]
      intro k
      constructor
      · intro hk
        obtain ⟨m,hm,rfl⟩ := List.mem_map.mp hk
        obtain ⟨hin,hkeep⟩ := List.mem_filter.mp hm
        obtain ⟨w,hw,hsame⟩ := hall m hin
        exact List.mem_map.mpr ⟨(m.1,w),List.mem_filter.mpr ⟨hw,(hkept m (m.1,w) rfl hsame) ▸ hkeep⟩,rfl⟩
      · intro hk
        obtain ⟨n,hn,rfl⟩ := List.mem_map.mp hk
        obtain ⟨hin,hkeep⟩ := List.mem_filter.mp hn
        obtain ⟨m,hm,hkey,hsame⟩ := hback n hin
        exact List.mem_map.mpr ⟨m,List.mem_filter.mpr ⟨hm,(hkept m n hkey hsame).symm ▸ hkeep⟩,hkey⟩
    rw [stripped,stripped,Same,strippedMembers_eq,strippedMembers_eq]
    refine ⟨_,rfl,?_,?_⟩
    · simpa using hperm.length_eq
    · rw [sameMembers_iff,List.forall_mem_map]
      intro m hm
      obtain ⟨hin,hkeep⟩ := List.mem_filter.mp hm
      obtain ⟨w,hw,hsame⟩ := hall m hin
      have hw' : (m.1,w) ∈ ns.filter kept := List.mem_filter.mpr ⟨hw,(hkept m (m.1,w) rfl hsame) ▸ hkeep⟩
      exact ⟨stripped w,List.mem_map.mpr ⟨(m.1,w),hw',rfl⟩,ih m hin w (hmembers m hin) (hmembers' _ hw) hsame⟩

/-- The stable text is injective up to the order of members just where the lost members tell nothing apart. -/
theorem stableJson_json (hv : v.IsJson) (hw : w.IsJson) : v.stableJson = w.stableJson ↔ Same v.stripped w.stripped := by
  rw [stableJson_eq_iff hv.1 hw.1 hv.defined hw.defined,hv.textual_eq,hw.textual_eq]

end Json

section Records
variable {keys : List JsString} {vs ws : List JsValue}

theorem key_of_mem_zip {k : JsString} {v : JsValue} (h : (k,v) ∈ keys.zip vs) : k ∈ keys := (List.of_mem_zip h).1

theorem sameMembers_zip (hnodup : keys.Nodup) (hvs : vs.length = keys.length) (hws : ws.length = keys.length) :
    SameMembers (keys.zip vs) (keys.zip ws) ↔ List.Forall₂ Same vs ws := by
  induction keys generalizing vs ws with
  | nil =>
    rw [List.length_eq_zero_iff.mp hvs,List.length_eq_zero_iff.mp hws]
    exact iff_of_true trivial .nil
  | cons k keys ih =>
    obtain ⟨v,vs,rfl⟩ := List.exists_cons_of_length_eq_add_one hvs
    obtain ⟨w,ws,rfl⟩ := List.exists_cons_of_length_eq_add_one hws
    obtain ⟨hfresh,hkeys⟩ := List.nodup_cons.mp hnodup
    rw [List.zip_cons_cons,List.zip_cons_cons,SameMembers,List.forall₂_cons]
    refine and_congr ?_ ?_
    · constructor
      · rintro ⟨w',hin,hsame⟩
        rcases List.mem_cons.mp hin with heq | hin
        · rwa [(Prod.mk.inj heq).2] at hsame
        · exact absurd (key_of_mem_zip hin) hfresh
      · exact fun hsame => ⟨w,List.mem_cons_self,hsame⟩
    · rw [← ih hkeys (Nat.succ.inj hvs) (Nat.succ.inj hws),sameMembers_iff,sameMembers_iff]
      constructor
      · intro h m hm
        obtain ⟨w',hin,hsame⟩ := h m hm
        rcases List.mem_cons.mp hin with heq | hin
        · exact absurd ((Prod.mk.inj heq).1 ▸ key_of_mem_zip hm) hfresh
        · exact ⟨w',hin,hsame⟩
      · intro h m hm
        obtain ⟨w',hin,hsame⟩ := h m hm
        exact ⟨w',List.mem_cons_of_mem _ hin,hsame⟩

theorem textual_items (vs : List JsValue) : (arr vs).textual = arr (vs.map textual) := by
  rw [textual,mapScalars,mapItems_eq]
  rfl

theorem textual_record (keys : List JsString) (vs : List JsValue) :
    (obj (keys.zip vs)).textual = obj (keys.zip (vs.map textual)) := by
  rw [textual,mapScalars,mapMembers_eq,List.zip_map_right]
  rfl

theorem stripped_record (hkeys : ∀ k ∈ keys, k ≠ protoKey) (hvs : ∀ v ∈ vs, v.isUndefined = false) :
    (obj (keys.zip vs)).stripped = obj (keys.zip (vs.map stripped)) := by
  have hkept : ∀ m ∈ keys.zip vs, kept m = true := by
    intro m hm
    obtain ⟨hkey,hvalue⟩ := List.of_mem_zip (show (m.1,m.2) ∈ keys.zip vs from hm)
    unfold kept
    rw [hvs m.2 hvalue,decide_eq_true (hkeys m.1 hkey)]
    rfl
  rw [stripped,strippedMembers_eq,List.filter_eq_self.mpr hkept,List.zip_map_right]
  rfl

theorem wellFormed_record (hnodup : keys.Nodup) (hlength : keys.length ≤ vs.length) (hvs : ∀ v ∈ vs, v.WellFormed) :
    (obj (keys.zip vs)).WellFormed := by
  rw [WellFormed,wellFormedMembers_iff,List.map_fst_zip hlength]
  exact ⟨hnodup,fun m hm => hvs m.2 (List.of_mem_zip (show (m.1,m.2) ∈ keys.zip vs from hm)).2⟩

theorem holds_record {p : Scalar → Prop} (hvs : ∀ v ∈ vs, v.Holds p) : (obj (keys.zip vs)).Holds p := by
  rw [Holds,holdsMembers_iff]
  exact fun m hm => hvs m.2 (List.of_mem_zip (show (m.1,m.2) ∈ keys.zip vs from hm)).2

end Records

end JsValue
end StructureAi.Foundation

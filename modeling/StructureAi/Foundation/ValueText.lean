import StructureAi.Foundation.CodeUnits

/-! # Values and their JSON text

A value holds scalars in arrays and objects, strings as code units and `bigint`s among them. The
text of a value is that of `JSON.stringify` with `bigint`s replaced by their digits, and it
determines the value but for what is written alike.
-/
namespace StructureAi.Foundation

inductive Scalar where
  | undefined
  | null
  | bool (b : Bool)
  | num (d : Decimal)
  | bigint (z : ℤ)
  | str (s : JsString)
deriving DecidableEq

inductive JsValue where
  | leaf (s : Scalar)
  | arr (items : List JsValue)
  /-- The own members in the order of enumeration. -/
  | obj (members : List (JsString × JsValue))

/-- `z.toString()` of a `bigint`. -/
def integerText (z : ℤ) : List Char := if z < 0 then '-' :: Nat.toDigits 10 z.natAbs else Nat.toDigits 10 z.natAbs

/-- What a scalar is written as: a `bigint` as a string, and `undefined`, where it is written, as `null`. -/
def Scalar.textual : Scalar → Scalar
  | undefined => null
  | bigint z => str (units (integerText z))
  | s => s

def Scalar.write : Scalar → JsString
  | undefined | null => units ['n','u','l','l']
  | bool b => if b then units ['t','r','u','e'] else units ['f','a','l','s','e']
  | num d => units d.text
  | bigint z => quoteString (units (integerText z))
  | str s => quoteString s

/-- The parts after the first one, up to the closing bracket. -/
def following (close : Char) (parts : List JsString) : JsString :=
  parts.foldr (fun part text => unit ',' :: (part ++ text)) [unit close]

def enclosed (close : Char) : List JsString → JsString
  | [] => [unit close]
  | part :: parts => part ++ following close parts

def writeMember (member : JsString × JsString) : JsString := quoteString member.1 ++ unit ':' :: member.2

namespace JsValue

mutual
def write : JsValue → JsString
  | leaf s => s.write
  | arr vs => unit '[' :: enclosed ']' (writeItems vs)
  | obj ms => unit '{' :: enclosed '}' ((writeMembers ms).map writeMember)
def writeItems : List JsValue → List JsString
  | [] => []
  | v :: vs => write v :: writeItems vs
def writeMembers : List (JsString × JsValue) → List (JsString × JsString)
  | [] => []
  | (k,v) :: ms => (k,write v) :: writeMembers ms
end

mutual
def mapScalars (f : Scalar → Scalar) : JsValue → JsValue
  | leaf s => leaf (f s)
  | arr vs => arr (mapItems f vs)
  | obj ms => obj (mapMembers f ms)
def mapItems (f : Scalar → Scalar) : List JsValue → List JsValue
  | [] => []
  | v :: vs => mapScalars f v :: mapItems f vs
def mapMembers (f : Scalar → Scalar) : List (JsString × JsValue) → List (JsString × JsValue)
  | [] => []
  | (k,v) :: ms => (k,mapScalars f v) :: mapMembers f ms
end

def textual (v : JsValue) : JsValue := v.mapScalars Scalar.textual

mutual
theorem induct {P : JsValue → Prop} (hleaf : ∀ s, P (leaf s)) (harr : ∀ vs, (∀ v ∈ vs, P v) → P (arr vs))
    (hobj : ∀ ms, (∀ m ∈ ms, P m.2) → P (obj ms)) : ∀ v, P v
  | leaf s => hleaf s
  | arr vs => harr vs (induct_items hleaf harr hobj vs)
  | obj ms => hobj ms (induct_members hleaf harr hobj ms)
theorem induct_items {P : JsValue → Prop} (hleaf : ∀ s, P (leaf s)) (harr : ∀ vs, (∀ v ∈ vs, P v) → P (arr vs))
    (hobj : ∀ ms, (∀ m ∈ ms, P m.2) → P (obj ms)) : ∀ vs : List JsValue, ∀ v ∈ vs, P v
  | [] => List.forall_mem_nil _
  | v :: vs => List.forall_mem_cons.mpr ⟨induct hleaf harr hobj v,induct_items hleaf harr hobj vs⟩
theorem induct_members {P : JsValue → Prop} (hleaf : ∀ s, P (leaf s)) (harr : ∀ vs, (∀ v ∈ vs, P v) → P (arr vs))
    (hobj : ∀ ms, (∀ m ∈ ms, P m.2) → P (obj ms)) : ∀ ms : List (JsString × JsValue), ∀ m ∈ ms, P m.2
  | [] => List.forall_mem_nil _
  | (_,v) :: ms => List.forall_mem_cons.mpr ⟨induct hleaf harr hobj v,induct_members hleaf harr hobj ms⟩
end

theorem writeItems_eq (vs : List JsValue) : writeItems vs = vs.map write := by
  induction vs with
  | nil => rfl
  | cons v vs ih => rw [writeItems,ih,List.map_cons]

theorem writeMembers_eq (ms : List (JsString × JsValue)) : writeMembers ms = ms.map fun m => (m.1,write m.2) := by
  induction ms with
  | nil => rfl
  | cons m ms ih => rw [writeMembers,ih,List.map_cons]

theorem mapItems_eq (f : Scalar → Scalar) (vs : List JsValue) : mapItems f vs = vs.map (mapScalars f) := by
  induction vs with
  | nil => rfl
  | cons v vs ih => rw [mapItems,ih,List.map_cons]

theorem mapMembers_eq (f : Scalar → Scalar) (ms : List (JsString × JsValue)) :
    mapMembers f ms = ms.map fun m => (m.1,mapScalars f m.2) := by
  induction ms with
  | nil => rfl
  | cons m ms ih => rw [mapMembers,ih,List.map_cons]

end JsValue

def Ends (r : JsString) : Prop := ∀ u ∈ r.head?, u = unit ',' ∨ u = unit ']' ∨ u = unit '}'

def isNumberUnit (u : CodeUnit) : Bool := (48 ≤ u.val && u.val ≤ 57) || u = unit '-' || u = unit '+' || u =
    unit '.' || u = unit 'e'

section Numbers
variable {r r' : JsString}

theorem stretch_append_inj {p : CodeUnit → Bool} {a b : JsString} (ha : ∀ u ∈ a, p u = true) (hb : ∀ u ∈ b, p u = true)
    (hr : ∀ u ∈ r.head?, p u = false) (hr' : ∀ u ∈ r'.head?, p u = false) (h : a ++ r = b ++ r') : a = b ∧ r = r' := by
  induction a generalizing b with
  | nil =>
    cases b with
    | nil => exact ⟨rfl,h⟩
    | cons u b =>
      rw [List.nil_append] at h
      have hfalse := hr u (by rw [h]; rfl)
      rw [hb u List.mem_cons_self] at hfalse
      cases hfalse
  | cons u a ih =>
    cases b with
    | nil =>
      rw [List.nil_append] at h
      have hfalse := hr' u (by rw [← h]; rfl)
      rw [ha u List.mem_cons_self] at hfalse
      cases hfalse
    | cons v b =>
      obtain ⟨rfl,hrest⟩ := List.cons.inj h
      obtain ⟨rfl,hr⟩ := ih (fun w hw => ha w (List.mem_cons_of_mem _ hw)) (fun w hw => hb w (List.mem_cons_of_mem _ hw)) hrest
      exact ⟨rfl,hr⟩

theorem unit_val {c : Char} (h : c.toNat < 65536) : (unit c).val = c.toNat := Nat.mod_eq_of_lt h

theorem isDigit_range {c : Char} (h : c.isDigit = true) : 48 ≤ c.toNat ∧ c.toNat ≤ 57 := by
  simp only [Char.isDigit,Bool.and_eq_true,decide_eq_true_eq] at h
  exact h

theorem numberChar_unit {c : Char} (h : IsNumberChar c) : c.toNat < 65536 ∧ isNumberUnit (unit c) = true := by
  rcases h with hdigit | hin
  · have hrange := isDigit_range hdigit
    have hval := unit_val (c := c) (by omega)
    refine ⟨by omega,?_⟩
    unfold isNumberUnit
    rw [hval]
    simp [hrange]
  · fin_cases hin <;> exact ⟨by decide,by decide⟩

theorem number_append_inj {d d' : Decimal} (hr : Ends r) (hr' : Ends r') (h : units d.text ++ r = units d'.text ++ r') :
    d = d' ∧ r = r' := by
  have hunits : ∀ d : Decimal, ∀ u ∈ units d.text, isNumberUnit u = true := by
    intro d u hu
    obtain ⟨c,hc,rfl⟩ := List.mem_map.mp hu
    exact (numberChar_unit (d.isNumberChar_text c hc)).2
  have hends : ∀ r, Ends r → ∀ u ∈ r.head?, isNumberUnit u = false := by
    intro r hr u hu
    rcases hr u hu with rfl | rfl | rfl <;> decide
  obtain ⟨htext,hrest⟩ := stretch_append_inj (hunits d) (hunits d') (hends r hr) (hends r' hr') h
  have hsmall : ∀ d : Decimal, ∀ c ∈ d.text, c.toNat < 65536 := fun d c hc => (numberChar_unit (d.isNumberChar_text c hc)).1
  have hread := readDecimal_text d numberEnd_nil
  rw [List.append_nil,units_injective (hsmall d) (hsmall d') htext,← List.append_nil d'.text,
    readDecimal_text d' numberEnd_nil] at hread
  exact ⟨(Prod.mk.inj (Option.some.inj hread)).1.symm,hrest⟩

end Numbers

/-- What a text begins with. -/
inductive Kind where
  | null | yes | no | text | list | members | other
deriving DecidableEq

def headKind (u : CodeUnit) : Kind :=
  if u = unit 'n' then .null else if u = unit 't' then .yes else if u = unit 'f' then .no
  else if u = unit '"' then .text else if u = unit '[' then .list else if u = unit '{' then .members else .other

def Scalar.kind : Scalar → Kind
  | undefined | null => .null
  | bool b => if b then .yes else .no
  | num _ => .other
  | bigint _ | str _ => .text

theorem Scalar.kind_ne (s : Scalar) : s.kind ≠ .list ∧ s.kind ≠ .members := by
  cases s with
  | bool b => cases b <;> decide
  | undefined | null | num | bigint | str => exact ⟨Kind.noConfusion,Kind.noConfusion⟩

def JsValue.kind : JsValue → Kind
  | leaf s => s.kind
  | arr _ => .list
  | obj _ => .members

section Heads
variable {r r' : JsString}

theorem headKind_number {c : Char} (h : c = '-' ∨ c.isDigit = true) : headKind (unit c) = .other := by
  rcases h with rfl | hdigit
  · decide
  · have hrange := isDigit_range hdigit
    have hne : ∀ b : Char, 57 < b.toNat → b.toNat < 65536 → unit c ≠ unit b := by
      intro b hlow hhigh heq
      rw [unit_injective (by omega) hhigh heq] at hrange
      omega
    have hquote : unit c ≠ unit '"' := by
      intro heq
      rw [unit_injective (by omega) (by decide) heq] at hrange
      exact absurd hrange.1 (by decide)
    unfold headKind
    rw [if_neg (hne 'n' (by decide) (by decide)),if_neg (hne 't' (by decide) (by decide)),if_neg (hne 'f' (by decide)
      (by decide)),
      if_neg hquote,if_neg (hne '[' (by decide) (by decide)),if_neg (hne '\x7b' (by decide) (by decide))]

theorem Scalar.write_head (s : Scalar) : ∃ u text, s.write = u :: text ∧ headKind u = s.kind ∧ u ≠ unit ']' := by
  cases s with
  | undefined => exact ⟨_,_,rfl,by decide,by decide⟩
  | null => exact ⟨_,_,rfl,by decide,by decide⟩
  | bool b =>
    cases b with
    | true => exact ⟨_,_,rfl,by decide,by decide⟩
    | false => exact ⟨_,_,rfl,by decide,by decide⟩
  | bigint z => exact ⟨_,_,rfl,show headKind (unit '"') = .text by decide,by decide⟩
  | str s => exact ⟨_,_,rfl,show headKind (unit '"') = .text by decide,by decide⟩
  | num d =>
    obtain ⟨c,text,htext,hc⟩ := d.text_head
    refine ⟨unit c,units text,?_,headKind_number hc,?_⟩
    · rw [write,htext]
      rfl
    · rcases hc with rfl | hdigit
      · decide
      · intro heq
        have hrange := isDigit_range hdigit
        rw [unit_injective (by omega) (by decide) heq] at hrange
        exact absurd hrange.2 (by decide)

theorem JsValue.write_head (v : JsValue) : ∃ u text, v.write = u :: text ∧ headKind u = v.kind ∧ u ≠ unit ']' := by
  cases v with
  | leaf s =>
    rw [write]
    exact s.write_head
  | arr vs => exact ⟨_,_,by rw [write],show headKind (unit '[') = .list by decide,by decide⟩
  | obj ms => exact ⟨_,_,by rw [write],show headKind (unit '\x7b') = .members by decide,by decide⟩

theorem JsValue.kind_eq {v w : JsValue} (h : v.write ++ r = w.write ++ r') : v.kind = w.kind := by
  obtain ⟨u,text,hv,hkind,_⟩ := v.write_head
  obtain ⟨u',text',hw,hkind',_⟩ := w.write_head
  rw [hv,hw] at h
  rw [← hkind,← hkind',(List.cons.inj h).1]

theorem integerText_small (z : ℤ) : ∀ c ∈ integerText z, c.toNat < 65536 := by
  have hdigits : ∀ c ∈ Nat.toDigits 10 z.natAbs, c.toNat < 65536 := by
    intro c hc
    have hrange := isDigit_range (isDigit_toDigits _ c hc)
    omega
  unfold integerText
  split
  · exact List.forall_mem_cons.mpr ⟨by decide,hdigits⟩
  · exact hdigits

/-- A `bigint` is known from its digits. -/
theorem integerText_injective {a b : ℤ} (h : integerText a = integerText b) : a = b := by
  have hsign : ∀ n, ¬ '-' ∈ Nat.toDigits 10 n := fun n hin => absurd (isDigit_toDigits n _ hin) (by decide)
  have hvalue : ∀ n m, Nat.toDigits 10 n = Nat.toDigits 10 m → n = m := by
    intro n m heq
    have hn := @Nat.ofDigitChars_ten_toDigits n
    rwa [heq,Nat.ofDigitChars_ten_toDigits,eq_comm] at hn
  unfold integerText at h
  split at h <;> split at h
  · have habs := hvalue _ _ (List.cons.inj h).2
    omega
  · exact absurd (h ▸ List.mem_cons_self) (hsign b.natAbs)
  · exact absurd (h ▸ List.mem_cons_self) (hsign a.natAbs)
  · have habs := hvalue _ _ h
    omega

theorem Scalar.write_textual (s : Scalar) : s.textual.write = s.write := by
  cases s <;> rfl

theorem Scalar.write_append_inj {s s' : Scalar} (hr : Ends r) (hr' : Ends r') (hkind : s.kind = s'.kind)
    (h : s.write ++ r = s'.write ++ r') : s.textual = s'.textual ∧ r = r' := by
  have hquoted : ∀ {a b : JsString}, quoteString a ++ r = quoteString b ++ r' → Scalar.str a = Scalar.str b ∧ r = r' := by
    intro a b heq
    obtain ⟨rfl,hrest⟩ := quoteString_append_inj heq
    exact ⟨rfl,hrest⟩
  cases s with
  | undefined | null =>
    cases s' with
    | undefined | null => exact ⟨rfl,List.append_cancel_left h⟩
    | bool b => cases b <;> cases hkind
    | num | bigint | str => cases hkind
  | bool b =>
    cases s' with
    | bool b' =>
      obtain rfl : b = b' := by cases b <;> cases b' <;> first | rfl | cases hkind
      exact ⟨rfl,List.append_cancel_left h⟩
    | undefined | null | num | bigint | str => cases b <;> cases hkind
  | num d =>
    cases s' with
    | num d' =>
      obtain ⟨rfl,hrest⟩ := number_append_inj hr hr' h
      exact ⟨rfl,hrest⟩
    | bool b => cases b <;> cases hkind
    | undefined | null | bigint | str => cases hkind
  | bigint z =>
    cases s' with
    | bigint | str => exact hquoted h
    | bool b => cases b <;> cases hkind
    | undefined | null | num => cases hkind
  | str s =>
    cases s' with
    | bigint | str => exact hquoted h
    | bool b => cases b <;> cases hkind
    | undefined | null | num => cases hkind

theorem following_ends (close : Char) (hclose : close = ']' ∨ close = '\x7d') (parts : List JsString) (r : JsString) :
    Ends (following close parts ++ r) := by
  intro u hu
  cases parts with
  | nil =>
    cases hu
    rcases hclose with rfl | rfl
    · exact Or.inr (Or.inl rfl)
    · exact Or.inr (Or.inr rfl)
  | cons part parts =>
    cases hu
    exact Or.inl rfl

variable {α : Type} {f : α → JsString} {Q : α → α → Prop} {close : Char}

/-- Parts that can be told apart from what follows them can be told apart in a sequence. -/
theorem following_append_inj (hclose : close = ']' ∨ close = '\x7d') {l l' : List α}
    (hpart : ∀ a ∈ l, ∀ b, ∀ r r', Ends r → Ends r' → f a ++ r = f b ++ r' → Q a b ∧ r = r')
    (h : following close (l.map f) ++ r = following close (l'.map f) ++ r') : List.Forall₂ Q l l' ∧ r = r' := by
  have hcomma : unit close ≠ unit ',' := by rcases hclose with rfl | rfl <;> decide
  induction l generalizing l' with
  | nil =>
    cases l' with
    | nil => exact ⟨.nil,(List.cons.inj h).2⟩
    | cons b l' => exact absurd (List.cons.inj h).1 hcomma
  | cons a l ih =>
    cases l' with
    | nil => exact absurd (List.cons.inj h).1.symm hcomma
    | cons b l' =>
      have hrest : f a ++ (following close (l.map f) ++ r) = f b ++ (following close (l'.map f) ++ r') := by
        rw [← List.append_assoc,← List.append_assoc]
        exact (List.cons.inj h).2
      obtain ⟨hq,hlater⟩ := hpart a List.mem_cons_self b _ _ (following_ends close hclose _ r)
        (following_ends close hclose _ r') hrest
      obtain ⟨hall,hr⟩ := ih (fun c hc => hpart c (List.mem_cons_of_mem a hc)) hlater
      exact ⟨.cons hq hall,hr⟩

theorem enclosed_append_inj (hclose : close = ']' ∨ close = '\x7d') {l l' : List α}
    (hhead : ∀ a, ∃ u text, f a = u :: text ∧ u ≠ unit close)
    (hpart : ∀ a ∈ l, ∀ b, ∀ r r', Ends r → Ends r' → f a ++ r = f b ++ r' → Q a b ∧ r = r')
    (h : enclosed close (l.map f) ++ r = enclosed close (l'.map f) ++ r') : List.Forall₂ Q l l' ∧ r = r' := by
  cases l with
  | nil =>
    cases l' with
    | nil => exact ⟨.nil,(List.cons.inj h).2⟩
    | cons b l' =>
      obtain ⟨u,text,hb,hne⟩ := hhead b
      rw [List.map_cons,enclosed,hb] at h
      exact absurd (List.cons.inj h).1.symm hne
  | cons a l =>
    cases l' with
    | nil =>
      obtain ⟨u,text,ha,hne⟩ := hhead a
      rw [List.map_cons,enclosed,ha] at h
      exact absurd (List.cons.inj h).1 hne
    | cons b l' =>
      rw [List.map_cons,List.map_cons,enclosed,enclosed,List.append_assoc,List.append_assoc] at h
      obtain ⟨hq,hlater⟩ := hpart a List.mem_cons_self b _ _ (following_ends close hclose _ r)
        (following_ends close hclose _ r') h
      obtain ⟨hall,hr⟩ := following_append_inj hclose (fun c hc => hpart c (List.mem_cons_of_mem a hc)) hlater
      exact ⟨.cons hq hall,hr⟩

end Heads

theorem map_eq_of_forall₂ {α β : Type} {f : α → β} {l l' : List α} (h : List.Forall₂ (fun a b => f a = f b) l l') :
    l.map f = l'.map f := by
  induction h with
  | nil => rfl
  | cons hab _ ih => rw [List.map_cons,List.map_cons,hab,ih]

namespace JsValue

/-- The text of a value tells it apart from every other one, but for what is written alike. -/
theorem write_append_inj (v : JsValue) : ∀ (w : JsValue) (r r' : JsString), Ends r → Ends r' →
    v.write ++ r = w.write ++ r' → v.textual = w.textual ∧ r = r' := by
  induction v using induct with
  | hleaf s =>
    intro w r r' hr hr' h
    have hkind := kind_eq h
    cases w with
    | leaf s' =>
      rw [write,write] at h
      obtain ⟨hs,hrest⟩ := Scalar.write_append_inj hr hr' hkind h
      exact ⟨congrArg leaf hs,hrest⟩
    | arr ws => exact absurd hkind s.kind_ne.1
    | obj ns => exact absurd hkind s.kind_ne.2
  | harr vs ih =>
    intro w r r' hr hr' h
    have hkind := kind_eq h
    cases w with
    | leaf s => exact absurd hkind.symm s.kind_ne.1
    | obj ns => cases hkind
    | arr ws =>
      rw [write,write,writeItems_eq,writeItems_eq] at h
      have hhead : ∀ v : JsValue, ∃ u text, v.write = u :: text ∧ u ≠ unit ']' := by
        intro v
        obtain ⟨u,text,hv,_,hne⟩ := v.write_head
        exact ⟨u,text,hv,hne⟩
      obtain ⟨hall,hrest⟩ := enclosed_append_inj (Or.inl rfl) hhead ih (List.cons.inj h).2
      refine ⟨?_,hrest⟩
      unfold textual
      rw [mapScalars,mapScalars,mapItems_eq,mapItems_eq]
      exact congrArg arr (map_eq_of_forall₂ hall)
  | hobj ms ih =>
    intro w r r' hr hr' h
    have hkind := kind_eq h
    cases w with
    | leaf s => exact absurd hkind.symm s.kind_ne.2
    | arr ws => cases hkind
    | obj ns =>
      rw [write,write,writeMembers_eq,writeMembers_eq,List.map_map,List.map_map] at h
      have hhead : ∀ m : JsString × JsValue, ∃ u text, writeMember (m.1,m.2.write) = u :: text ∧ u ≠ unit '\x7d' :=
        fun m => ⟨_,_,rfl,by decide⟩
      have hpart : ∀ m ∈ ms, ∀ n : JsString × JsValue, ∀ r r', Ends r → Ends r' →
          writeMember (m.1,m.2.write) ++ r = writeMember (n.1,n.2.write) ++ r' →
            (m.1,m.2.textual) = (n.1,n.2.textual) ∧ r = r' := by
        intro m hm n r r' hr hr' hmember
        unfold writeMember at hmember
        rw [List.append_assoc,List.append_assoc] at hmember
        obtain ⟨hkey,hvalue⟩ := quoteString_append_inj hmember
        obtain ⟨htextual,hrest⟩ := ih m hm n.2 r r' hr hr' (List.cons.inj hvalue).2
        exact ⟨by rw [hkey,htextual],hrest⟩
      obtain ⟨hall,hrest⟩ := enclosed_append_inj (Or.inr rfl) hhead hpart (List.cons.inj h).2
      refine ⟨?_,hrest⟩
      unfold textual
      rw [mapScalars,mapScalars,mapMembers_eq,mapMembers_eq]
      exact congrArg obj (map_eq_of_forall₂ hall)

theorem write_textual (v : JsValue) : v.textual.write = v.write := by
  induction v using induct with
  | hleaf s => exact s.write_textual
  | harr vs ih =>
    unfold textual at ih ⊢
    rw [mapScalars,write,write,mapItems_eq,writeItems_eq,writeItems_eq,List.map_map]
    exact congrArg (fun parts => unit '[' :: enclosed ']' parts) (List.map_congr_left ih)
  | hobj ms ih =>
    unfold textual at ih ⊢
    have hmembers : (ms.map fun m => (m.1,mapScalars Scalar.textual m.2)).map (fun m => (m.1,write m.2)) =
        ms.map fun m => (m.1,write m.2) := by
      rw [List.map_map]
      exact List.map_congr_left fun m hm => Prod.ext rfl (ih m hm)
    rw [mapScalars,write,write,mapMembers_eq,writeMembers_eq,writeMembers_eq,hmembers]

theorem write_eq_iff {v w : JsValue} : v.write = w.write ↔ v.textual = w.textual := by
  constructor
  · intro h
    have hnil : Ends [] := fun u hu => by cases hu
    exact (write_append_inj v w [] [] hnil hnil (by rw [h])).1
  · intro h
    rw [← write_textual v,h,write_textual]

end JsValue

end StructureAi.Foundation

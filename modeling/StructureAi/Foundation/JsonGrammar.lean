import StructureAi.Foundation.ValueText

/-! # The grammar of JSON text

JSON without white space and with small exponents, over code units. The text of every value is in it, and all
its units are printable:
it is one line.
-/
namespace StructureAi.Foundation

/-- The units that may stand after a backslash by themselves. -/
def escapeUnits : JsString := units ['"','\\','/','b','f','n','r','t']

def IsHexUnit (u : CodeUnit) : Prop := ∃ d < 16, u = unit (Nat.digitChar d)

/-- The inside of a string. -/
inductive StringBody : JsString → Prop
  | nil : StringBody []
  | raw {u : CodeUnit} {text : JsString} (hprintable : 32 ≤ u.val) (hquote : u ≠ unit '"') (hescape : u ≠ unit '\\')
      (h : StringBody text) : StringBody (u :: text)
  | short {u : CodeUnit} {text : JsString} (hu : u ∈ escapeUnits) (h : StringBody text) : StringBody (unit '\\' :: u :: text)
  | long {a b c d : CodeUnit} {text : JsString} (ha : IsHexUnit a) (hb : IsHexUnit b) (hc : IsHexUnit c) (hd : IsHexUnit d)
      (h : StringBody text) : StringBody (unit '\\' :: unit 'u' :: a :: b :: c :: d :: text)

def quotedText (body : JsString) : JsString := unit '"' :: (body ++ [unit '"'])

inductive JsonText : JsString → Prop
  | literal {cs : List Char} (h : cs ∈ [['n','u','l','l'],['t','r','u','e'],['f','a','l','s','e']]) : JsonText (units cs)
  | number {cs : List Char} {d : Decimal} (h : readDecimal cs = some (d,[])) (hascii : ∀ c ∈ cs, IsNumberChar c) :
      JsonText (units cs)
  | string {body : JsString} (h : StringBody body) : JsonText (quotedText body)
  | array {items : List JsString} (h : ∀ text ∈ items, JsonText text) : JsonText (unit '[' :: enclosed ']' items)
  | object {members : List (JsString × JsString)} (hkeys : ∀ m ∈ members, StringBody m.1) (h : ∀ m ∈ members, JsonText m.2) :
      JsonText (unit '{' :: enclosed '}' (members.map fun m => quotedText m.1 ++ unit ':' :: m.2))

section Strings
variable {u : CodeUnit} {s text : JsString}

theorem StringBody.append (h : StringBody s) (ht : StringBody text) : StringBody (s ++ text) := by
  induction h with
  | nil => exact ht
  | raw hprintable hquote hescape _ ih => exact .raw hprintable hquote hescape ih
  | short hu _ ih => exact .short hu ih
  | long ha hb hc hd _ ih => exact .long ha hb hc hd ih

theorem isHexUnit_digit (n : ℕ) : IsHexUnit (unit (Nat.digitChar (n % 16))) := ⟨n % 16,Nat.mod_lt n (by decide),rfl⟩

theorem quoteUnit_body (u : CodeUnit) : StringBody (quoteUnit u) := by
  unfold quoteUnit
  split
  · rename_i escape hescape
    have hmem := mem_of_lookup hescape
    refine .short ?_ .nil
    have hall : (shortEscapes.all fun e => escapeUnits.contains e.2) = true := by decide
    exact List.contains_iff_mem.mp (List.all_eq_true.mp hall _ hmem)
  · rename_i hnone
    split
    · exact .long (isHexUnit_digit _) (isHexUnit_digit _) (isHexUnit_digit _) (isHexUnit_digit _) .nil
    · rename_i hplain
      refine .raw (by omega) ?_ ?_ .nil
      · rintro rfl
        cases hnone
      · rintro rfl
        cases hnone

theorem raw_body (h : 0xD800 ≤ u.val) (hs : StringBody s) : StringBody (u :: s) := by
  refine .raw (by omega) ?_ ?_ hs
  · rintro rfl
    exact absurd h (by decide)
  · rintro rfl
    exact absurd h (by decide)

theorem quoteBody_body (s : JsString) : StringBody (quoteBody s) := by
  induction s using quoteBody.induct with
  | case1 => exact .nil
  | case2 u => exact quoteUnit_body u
  | case3 u v rest h ih =>
    rw [quoteBody,if_pos h]
    obtain ⟨hu,hv⟩ := h
    simp only [Json.isHigh,Json.isLow,Bool.and_eq_true,decide_eq_true_eq] at hu hv
    exact raw_body (by omega) (raw_body (by omega) ih)
  | case4 u v rest h ih =>
    rw [quoteBody,if_neg h]
    exact (quoteUnit_body u).append ih

end Strings

section Values

theorem Scalar.write_json (s : Scalar) : JsonText s.write := by
  cases s with
  | undefined => exact .literal (by decide)
  | null => exact .literal (by decide)
  | bool b =>
    cases b with
    | false => exact .literal (by decide)
    | true => exact .literal (by decide)
  | num d =>
    refine .number (d := d) ?_ (fun c hc => ?_)
    · have hread := readDecimal_text d numberEnd_nil
      rwa [List.append_nil] at hread
    · exact d.isNumberChar_text c hc
  | bigint z => exact .string (quoteBody_body _)
  | str s => exact .string (quoteBody_body s)

theorem JsValue.write_json (v : JsValue) : JsonText v.write := by
  refine JsValue.induct (P := fun v => JsonText v.write) (fun s => ?_) (fun vs ih => ?_) (fun ms ih => ?_) v
  · rw [JsValue.write]
    exact s.write_json
  · rw [JsValue.write,JsValue.writeItems_eq]
    refine .array fun text htext => ?_
    obtain ⟨v,hv,rfl⟩ := List.mem_map.mp htext
    exact ih v hv
  · rw [JsValue.write,JsValue.writeMembers_eq,List.map_map]
    have hkeys : ∀ m ∈ ms.map fun m => (quoteBody m.1,m.2.write), StringBody m.1 := by
      intro m hm
      obtain ⟨member,-,rfl⟩ := List.mem_map.mp hm
      exact quoteBody_body member.1
    have hvalues : ∀ m ∈ ms.map fun m => (quoteBody m.1,m.2.write), JsonText m.2 := by
      intro m hm
      obtain ⟨member,hmember,rfl⟩ := List.mem_map.mp hm
      exact ih member hmember
    have hobject := JsonText.object hkeys hvalues
    rw [List.map_map] at hobject
    exact hobject

end Values

section Printable
variable {text : JsString}

theorem printable_of_all (h : (text.all fun u => 32 ≤ u.val) = true) : ∀ u ∈ text, 32 ≤ u.val :=
  fun u hu => of_decide_eq_true (List.all_eq_true.mp h u hu)

theorem StringBody.printable (h : StringBody text) : ∀ u ∈ text, 32 ≤ u.val := by
  have hhex : ∀ d < 16, 32 ≤ (unit (Nat.digitChar d)).val := by decide
  have hhex' : ∀ u, IsHexUnit u → 32 ≤ u.val := by
    rintro u ⟨d,hd,rfl⟩
    exact hhex d hd
  induction h with
  | nil => exact List.forall_mem_nil _
  | raw hprintable _ _ _ ih => exact List.forall_mem_cons.mpr ⟨hprintable,ih⟩
  | short hu _ ih =>
    exact List.forall_mem_cons.mpr ⟨by decide,List.forall_mem_cons.mpr ⟨printable_of_all (by decide) _ hu,ih⟩⟩
  | long ha hb hc hd _ ih =>
    simp only [List.forall_mem_cons]
    exact ⟨by decide,by decide,hhex' _ ha,hhex' _ hb,hhex' _ hc,hhex' _ hd,ih⟩

theorem quotedText_printable (h : StringBody text) : ∀ u ∈ quotedText text, 32 ≤ u.val := by
  unfold quotedText
  rw [List.forall_mem_cons,List.forall_mem_append]
  exact ⟨by decide,h.printable,printable_of_all (by decide)⟩

theorem enclosed_printable {close : Char} (hclose : 32 ≤ (unit close).val) {parts : List JsString}
    (h : ∀ part ∈ parts, ∀ u ∈ part, 32 ≤ u.val) : ∀ u ∈ enclosed close parts, 32 ≤ u.val := by
  have hfollowing : ∀ parts : List JsString, (∀ part ∈ parts, ∀ u ∈ part, 32 ≤ u.val) →
    ∀ u ∈ following close parts, 32 ≤ u.val := by
    intro parts h
    induction parts with
    | nil => exact List.forall_mem_singleton.mpr hclose
    | cons part parts ih =>
      obtain ⟨hpart,hparts⟩ := List.forall_mem_cons.mp h
      exact List.forall_mem_cons.mpr ⟨by decide,List.forall_mem_append.mpr ⟨hpart,ih hparts⟩⟩
  cases parts with
  | nil => exact List.forall_mem_singleton.mpr hclose
  | cons part parts =>
    obtain ⟨hpart,hparts⟩ := List.forall_mem_cons.mp h
    exact List.forall_mem_append.mpr ⟨hpart,hfollowing parts hparts⟩

theorem JsonText.printable (h : JsonText text) : ∀ u ∈ text, 32 ≤ u.val := by
  induction h with
  | literal h =>
    have hall : ([['n','u','l','l'],['t','r','u','e'],['f','a','l','s','e']].all fun cs => (units cs).all fun u => 32 ≤ u.val) =
      true := by
      decide
    exact printable_of_all (List.all_eq_true.mp hall _ h)
  | number h hascii =>
    intro u hu
    obtain ⟨c,hc,rfl⟩ := List.mem_map.mp hu
    obtain hdigit | hmark := hascii c hc
    · have hrange := isDigit_range hdigit
      rw [unit_val (by omega)]
      omega
    · fin_cases hmark
      all_goals decide
  | string h => exact quotedText_printable h
  | array h ih => exact List.forall_mem_cons.mpr ⟨by decide,enclosed_printable (by decide) ih⟩
  | object hkeys h ih =>
    refine List.forall_mem_cons.mpr ⟨by decide,enclosed_printable (by decide) fun part hpart => ?_⟩
    obtain ⟨m,hm,rfl⟩ := List.mem_map.mp hpart
    rw [List.forall_mem_append,List.forall_mem_cons]
    exact ⟨quotedText_printable (hkeys m hm),by decide,ih m hm⟩

end Printable

end StructureAi.Foundation

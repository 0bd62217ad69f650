import StructureAi.Foundation.JsonRoundTrip

/-! # Records as JSON objects

A record is written as the list of its members, some of which may be absent, and
read back member by member.
-/
namespace StructureAi.Foundation.Json

/-- An object with the given members, absent ones left out as `JSON.stringify` does. -/
def ofFields (fields : List (String × Option Json)) : Json :=
  .obj (fields.filterMap fun f => f.2.map fun v => (f.1,v))

theorem find?_fields_of_not_mem {fields : List (String × Option Json)} {k : String}
    (hk : k ∉ fields.map Prod.fst) :
    (fields.filterMap fun f => f.2.map fun v => (f.1,v)).reverse.find? (fun m => m.1 = k) = none := by
  rw [List.find?_eq_none]
  intro m hm
  obtain ⟨f,hf,hv⟩ := List.mem_filterMap.mp (List.mem_reverse.mp hm)
  obtain ⟨v,-,rfl⟩ := Option.map_eq_some_iff.mp hv
  simp only [decide_eq_true_eq]
  rintro rfl
  exact hk (List.mem_map_of_mem hf)

theorem get_ofFields {fields : List (String × Option Json)} (hn : (fields.map Prod.fst).Nodup)
    {k : String} {v : Option Json} (hk : (k,v) ∈ fields) : (ofFields fields).get k = v := by
  induction fields with
  | nil => cases hk
  | cons f fields ih =>
    obtain ⟨hf,hnd⟩ := List.nodup_cons.mp hn
    simp only [ofFields,get,List.filterMap_cons] at ih ⊢
    rcases List.mem_cons.mp hk with rfl | hm
    · cases v with
      | none => simp only [Option.map_none,find?_fields_of_not_mem hf]
      | some v =>
        simp only [Option.map_some,List.reverse_cons,List.find?_append,find?_fields_of_not_mem hf,
          Option.none_or,List.find?_singleton,decide_true,if_true]
    · have hne : f.1 ≠ k := by
        intro h
        exact hf (List.mem_map.mpr ⟨_,hm,h.symm⟩)
      obtain ⟨k',v'⟩ := f
      cases v' with
      | none => exact ih hnd hm
      | some v' =>
        have hne' : ¬ k' = k := hne
        simp only [Option.map_some,List.reverse_cons,List.find?_append,List.find?_singleton,hne',
          decide_false,Bool.false_eq_true,if_false,Option.or_none]
        exact ih hnd hm

/-- The string a JSON value holds, if it is one. -/
def asString : Json → Option String
  | .str s => some s
  | _ => none

def asNumber : Json → Option Decimal
  | .num d => some d
  | _ => none

def asMembers : Json → Option (List (String × Json))
  | .obj ms => some ms
  | _ => none

/-- An absent member is `none`; a present one must decode. -/
def optionalMember {α : Type} (decode : Json → Option α) : Option Json → Option (Option α)
  | none => some none
  | some v => (decode v).map some

@[simp] theorem optionalMember_str (s : Option String) :
    optionalMember asString (s.map .str) = some s := by
  cases s <;> rfl

end StructureAi.Foundation.Json

import StructureAi.EventSourcing.EventLog

/-! # Events up to the order of object members

A `jsonb` column keeps the members of an object but not their order. Two events
are the same for that purpose when their canonical forms are equal: the payload
and the application's extensions with members in canonical order.
-/
namespace StructureAi.EventSourcing
open StructureAi.Foundation

def canonicalExtensions (ms : List (String × Json)) : List (String × Json) :=
  (Json.canonicalMembers ms).insertionSort Json.memberLe

def StoredEventMetadata.canonical (m : StoredEventMetadata) : StoredEventMetadata :=
  {m with extensions := m.extensions.map canonicalExtensions}

def StoredEvent.canonical (e : StoredEvent) : StoredEvent :=
  {e with payload := e.payload.canonical, metadata := e.metadata.canonical}

def StoreAnswer.canonical : StoreAnswer → StoreAnswer
  | .events (.ok log) => .events (.ok (log.map StoredEvent.canonical))
  | answer => answer

@[simp] theorem bind_asString_canonical (o : Option Json) :
    (o.map Json.canonical).bind Json.asString = o.bind Json.asString := by
  cases o with
  | none => rfl
  | some v => exact Json.asString_canonical v

@[simp] theorem bind_asNumber_canonical (o : Option Json) :
    (o.map Json.canonical).bind Json.asNumber = o.bind Json.asNumber := by
  cases o with
  | none => rfl
  | some v => exact Json.asNumber_canonical v

@[simp] theorem optionalString_canonical (o : Option Json) :
    Json.optionalMember Json.asString (o.map Json.canonical) = Json.optionalMember Json.asString o := by
  cases o with
  | none => rfl
  | some v => exact congrArg (Option.map some) (Json.asString_canonical v)

theorem optionalMembers_canonical (o : Option Json) :
    Json.optionalMember Json.asMembers (o.map Json.canonical) =
      (Json.optionalMember Json.asMembers o).map fun ms => ms.map canonicalExtensions := by
  cases o with
  | none => rfl
  | some v => cases v <;> rfl

theorem EventOrigin.ofJson_canonical {v : Json} (hv : v.WellFormed) : ofJson v.canonical = ofJson v := by
  simp only [ofJson,Json.get_canonical hv,bind_asString_canonical]

theorem optionalOrigin_canonical {o : Option Json} (ho : ∀ v, o = some v → v.WellFormed) :
    Json.optionalMember EventOrigin.ofJson (o.map Json.canonical) =
      Json.optionalMember EventOrigin.ofJson o := by
  cases o with
  | none => rfl
  | some v => exact congrArg (Option.map some) (EventOrigin.ofJson_canonical (ho v rfl))

theorem map_canonical_bind {α : Type} (o : Option α) (f g : α → Option StoredEventMetadata)
    (h : ∀ a, g a = (f a).map StoredEventMetadata.canonical) :
    o.bind g = (o.bind f).map StoredEventMetadata.canonical := by
  cases o with
  | none => rfl
  | some a => exact h a

theorem StoredEventMetadata.ofJson_canonical {v : Json} (hv : v.WellFormed) :
    ofJson v.canonical = (ofJson v).map canonical := by
  have ho := optionalOrigin_canonical fun w (hw : v.get "origin" = some w) => hv.get hw
  simp only [ofJson,Json.get_canonical hv,bind_asString_canonical,bind_asNumber_canonical,
    optionalString_canonical,ho,optionalMembers_canonical]
  -- one member after the other, down to the extensions
  iterate 10 refine map_canonical_bind _ _ _ fun _ => ?_
  cases Json.optionalMember Json.asMembers (v.get "extensions") <;> rfl

theorem StoredEventMetadata.ofJson_congr {v w : Json} (hv : v.WellFormed) (hw : w.WellFormed)
    (h : v.canonical = w.canonical) : (ofJson v).map canonical = (ofJson w).map canonical := by
  rw [← ofJson_canonical hv,← ofJson_canonical hw,h]

end StructureAi.EventSourcing

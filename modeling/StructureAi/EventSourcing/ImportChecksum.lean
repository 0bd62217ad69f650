import StructureAi.Foundation.StableJson

/-! # What checksums and payload hashes tell apart

The import of a history hashes the stable text of its events, and the command bus that of an encoded
payload. Both texts lose the members named `__proto__`.
-/
namespace StructureAi.Cqrs.PayloadHash
open StructureAi.Foundation

/-- `stableJson` of the bus, whose text is hashed with an idempotency key. -/
def stableJson (value : JsValue) : JsString := value.stableJson

end StructureAi.Cqrs.PayloadHash

namespace StructureAi.EventSourcing.ImportChecksum
open StructureAi.Foundation JsValue

def stableJson (value : JsValue) : JsString := value.stableJson

/-- A stored event as an import hands it over; its payload and its metadata are any values. -/
structure ImportEvent where
  position : ℤ
  streamName : JsString
  version : Decimal
  type : JsString
  schemaVersion : Decimal
  payload : JsValue
  metadata : JsValue

def fieldNames : List JsString :=
  [units ['p','o','s','i','t','i','o','n'],units ['s','t','r','e','a','m','N','a','m','e'],units ['v','e','r','s','i','o','n'],
    units ['t','y','p','e'],units ['s','c','h','e','m','a','V','e','r','s','i','o','n'],units ['p','a','y','l','o','a','d'],
    units ['m','e','t','a','d','a','t','a']]

namespace ImportEvent

def fields (e : ImportEvent) : List JsValue :=
  [leaf (.bigint e.position),leaf (.str e.streamName),leaf (.num e.version),leaf (.str e.type),leaf (.num e.schemaVersion),
    e.payload,e.metadata]

def value (e : ImportEvent) : JsValue := obj (fieldNames.zip e.fields)

def IsJson (e : ImportEvent) : Prop := e.payload.IsJson ∧ e.metadata.IsJson

/-- Equal, the payload and the metadata up to the order of members. -/
structure Same (e e' : ImportEvent) : Prop where
  position : e.position = e'.position
  streamName : e.streamName = e'.streamName
  version : e.version = e'.version
  type : e.type = e'.type
  schemaVersion : e.schemaVersion = e'.schemaVersion
  payload : JsValue.Same e.payload e'.payload
  metadata : JsValue.Same e.metadata e'.metadata

/-- The event without the members that the text loses. -/
def stripped (e : ImportEvent) : ImportEvent := {e with payload := e.payload.stripped, metadata := e.metadata.stripped}

end ImportEvent

/-- The text that `checksum` hashes. -/
def checksumText (events : List ImportEvent) : JsString := stableJson (arr (events.map ImportEvent.value))

section Events
variable {e e' : ImportEvent} {es es' : List ImportEvent}

theorem fieldNames_nodup : fieldNames.Nodup := by decide

theorem fieldNames_kept : ∀ k ∈ fieldNames, k ≠ protoKey := by decide

theorem fields_wellFormed (h : e.IsJson) : ∀ v ∈ e.fields, v.WellFormed := by
  intro v hv
  simp only [ImportEvent.fields,List.mem_cons,List.not_mem_nil,or_false] at hv
  rcases hv with rfl | rfl | rfl | rfl | rfl | rfl | rfl
  · trivial
  · trivial
  · trivial
  · trivial
  · trivial
  · exact h.1.1
  · exact h.2.1

theorem fields_defined (h : e.IsJson) : ∀ v ∈ e.fields, v.Holds (· ≠ .undefined) := by
  intro v hv
  simp only [ImportEvent.fields,List.mem_cons,List.not_mem_nil,or_false] at hv
  rcases hv with rfl | rfl | rfl | rfl | rfl | rfl | rfl
  · exact Scalar.noConfusion
  · exact Scalar.noConfusion
  · exact Scalar.noConfusion
  · exact Scalar.noConfusion
  · exact Scalar.noConfusion
  · exact h.1.defined
  · exact h.2.defined

theorem value_stripped (h : e.IsJson) : e.value.textual.stripped =
    obj (fieldNames.zip (e.fields.map fun v => v.textual.stripped)) := by
  have hdefined : ∀ v ∈ e.fields.map textual, v.isUndefined = false := by
    intro v hv
    obtain ⟨w,hw,rfl⟩ := List.mem_map.mp hv
    exact isUndefined_textual w (isUndefined_of_holds (fields_defined h w hw))
  rw [ImportEvent.value,textual_record,stripped_record fieldNames_kept hdefined,List.map_map]
  rfl

theorem same_leaf {s s' : Scalar} : JsValue.Same (leaf s) (leaf s') ↔ s = s' := by
  rw [JsValue.Same,leaf.injEq,eq_comm]

theorem position_of_text {z z' : ℤ} (h : units (integerText z) = units (integerText z')) : z = z' :=
  integerText_injective (units_injective (integerText_small z) (integerText_small z') h)

theorem value_same_iff (h : e.IsJson) (h' : e'.IsJson) :
    JsValue.Same e.value.textual.stripped e'.value.textual.stripped ↔ e.stripped.Same e'.stripped := by
  rw [value_stripped h,value_stripped h',JsValue.Same]
  have hfields : SameMembers (fieldNames.zip (e.fields.map fun v => v.textual.stripped))
      (fieldNames.zip (e'.fields.map fun v => v.textual.stripped)) ↔ e.stripped.Same e'.stripped := by
    rw [sameMembers_zip fieldNames_nodup rfl rfl]
    simp only [ImportEvent.fields,List.map_cons,List.map_nil,List.forall₂_cons,List.Forall₂.nil,and_true,textual,mapScalars,
      JsValue.stripped,same_leaf,Scalar.textual,Scalar.str.injEq,Scalar.num.injEq]
    have hpayload : mapScalars Scalar.textual e.payload = e.payload := h.1.textual_eq
    have hmetadata : mapScalars Scalar.textual e.metadata = e.metadata := h.2.textual_eq
    have hpayload' : mapScalars Scalar.textual e'.payload = e'.payload := h'.1.textual_eq
    have hmetadata' : mapScalars Scalar.textual e'.metadata = e'.metadata := h'.2.textual_eq
    rw [hpayload,hmetadata,hpayload',hmetadata']
    constructor
    · rintro ⟨hposition,hname,hversion,htype,hschema,hp,hm⟩
      exact ⟨position_of_text hposition,hname,hversion,htype,hschema,hp,hm⟩
    · rintro ⟨hposition,hname,hversion,htype,hschema,hp,hm⟩
      exact ⟨congrArg (fun z => units (integerText z)) hposition,hname,hversion,htype,hschema,hp,hm⟩
  constructor
  · rintro ⟨_,heq,_,hall⟩
    cases heq
    exact hfields.mp hall
  · exact fun hsame => ⟨_,rfl,rfl,hfields.mpr hsame⟩

theorem value_wellFormed (h : e.IsJson) : e.value.WellFormed :=
  wellFormed_record fieldNames_nodup (Nat.le_refl 7) (fields_wellFormed h)

theorem value_defined (h : e.IsJson) : e.value.Holds (· ≠ .undefined) := holds_record (fields_defined h)

theorem checksumText_eq_iff (h : ∀ e ∈ es, e.IsJson) (h' : ∀ e ∈ es', e.IsJson) :
    checksumText es = checksumText es' ↔ List.Forall₂ (fun e e' => e.stripped.Same e'.stripped) es es' := by
  have hwell : ∀ {es : List ImportEvent}, (∀ e ∈ es, e.IsJson) → (arr (es.map ImportEvent.value)).WellFormed := by
    intro es h
    rw [WellFormed,wellFormedItems_iff,List.forall_mem_map]
    exact fun e he => value_wellFormed (h e he)
  have hdefined : ∀ {es : List ImportEvent}, (∀ e ∈ es, e.IsJson) → (arr (es.map ImportEvent.value)).Holds (· ≠ .undefined) := by
    intro es h
    rw [Holds,holdsItems_iff,List.forall_mem_map]
    exact fun e he => value_defined (h e he)
  have hitems : Same (arr (es.map ImportEvent.value)).textual.stripped (arr (es'.map ImportEvent.value)).textual.stripped ↔
      List.Forall₂ (fun e e' => JsValue.Same e.value.textual.stripped e'.value.textual.stripped) es es' := by
    rw [textual_items,textual_items,JsValue.stripped,JsValue.stripped,Same,strippedItems_eq,strippedItems_eq,List.map_map,
      List.map_map,
      List.map_map,List.map_map]
    constructor
    · rintro ⟨ws,hws,hall⟩
      rw [← arr.inj hws,sameItems_iff,List.forall₂_map_left_iff,List.forall₂_map_right_iff] at hall
      exact hall
    · intro hall
      refine ⟨_,rfl,?_⟩
      rw [sameItems_iff,List.forall₂_map_left_iff,List.forall₂_map_right_iff]
      exact hall
  rw [checksumText,checksumText,stableJson,stableJson,stableJson_eq_iff (hwell h) (hwell h') (hdefined h) (hdefined h'),hitems]
  exact JsValue.forall₂_congr fun e he e' he' => value_same_iff (h e he) (h' e' he')

theorem stripped_same (h : e.IsJson) (h' : e'.IsJson) (hsame : e.Same e') : e.stripped.Same e'.stripped where
  position := hsame.position
  streamName := hsame.streamName
  version := hsame.version
  type := hsame.type
  schemaVersion := hsame.schemaVersion
  payload := same_stripped _ _ h.1.1 h'.1.1 hsame.payload
  metadata := same_stripped _ _ h.2.1 h'.2.1 hsame.metadata

theorem exact_iff {text equal lost : Prop} (htext : text ↔ lost) (hequal : equal → lost) : (text ↔ equal) ↔ (lost → equal) :=
  ⟨fun h hl => h.mp (htext.mpr hl),fun h => ⟨fun ht => h (htext.mp ht),fun he => htext.mpr (hequal he)⟩⟩

/-- A stable text stands for its value, and a checksum text for its events, just where members named
`__proto__` are not all that tells two values apart. -/
theorem stable_text_iff {v w : JsValue} (hv : v.IsJson) (hw : w.IsJson) (hes : ∀ e ∈ es, e.IsJson) (hes' : ∀ e ∈ es', e.IsJson) :
    ((stableJson v = stableJson w ↔ v.Same w) ↔ (v.stripped.Same w.stripped → v.Same w)) ∧
      ((Cqrs.PayloadHash.stableJson v = Cqrs.PayloadHash.stableJson w ↔ v.Same w) ↔ (v.stripped.Same w.stripped → v.Same w)) ∧
      ((checksumText es = checksumText es' ↔ List.Forall₂ ImportEvent.Same es es') ↔
        (List.Forall₂ (fun e e' => e.stripped.Same e'.stripped) es es' → List.Forall₂ ImportEvent.Same es es')) := by
  have hvalue : (v.stableJson = w.stableJson ↔ v.Same w) ↔ (v.stripped.Same w.stripped → v.Same w) :=
    exact_iff (stableJson_json hv hw) (same_stripped v w hv.1 hw.1)
  refine ⟨hvalue,hvalue,exact_iff (checksumText_eq_iff hes hes') ?_⟩
  exact fun hall => forall₂_imp_mem hall fun e he e' he' hsame => stripped_same (hes e he) (hes' e' he') hsame

end Events

def one : Decimal := ⟨1,0,.inl (by decide)⟩

def imported (payload : JsValue) : ImportEvent :=
  {position := 1, streamName := units ['s'], version := one, type := units ['t'], schemaVersion :=
    one, payload, metadata := obj []}

theorem imported_isJson {v : JsValue} (h : v.IsJson) : ∀ e ∈ [imported v], e.IsJson := by
  intro e he
  rw [List.mem_singleton.mp he]
  exact ⟨h,⟨⟨List.nodup_nil,trivial⟩,trivial⟩⟩

theorem imported_same {v w : JsValue} (h : v.Same w) : (imported v).Same (imported w) where
  position := rfl
  streamName := rfl
  version := rfl
  type := rfl
  schemaVersion := rfl
  payload := h
  metadata := ⟨_,rfl,rfl,trivial⟩

/-- Objects that differ in the order of their members only. -/
theorem stable_text_iff_reordered :
    ∃ v w : JsValue, v = obj [(units ['a'],leaf (.num one)),(units ['b'],arr [leaf .null])] ∧
      w = obj [(units ['b'],arr [leaf .null]),(units ['a'],leaf (.num one))] ∧ v.Same w ∧
      (stableJson v = stableJson w ↔ v.Same w) ∧ (Cqrs.PayloadHash.stableJson v = Cqrs.PayloadHash.stableJson w ↔ v.Same w) ∧
      (checksumText [imported v] = checksumText [imported w] ↔ List.Forall₂ ImportEvent.Same [imported v] [imported w]) := by
  refine ⟨_,_,rfl,rfl,?_⟩
  have hv : (obj [(units ['a'],leaf (.num one)),(units ['b'],arr [leaf .null])]).IsJson := by
    refine ⟨⟨by decide,trivial,⟨trivial,trivial⟩,trivial⟩,?_,⟨?_,trivial⟩,trivial⟩
    · exact ⟨Scalar.noConfusion,fun _ => Scalar.noConfusion⟩
    · exact ⟨Scalar.noConfusion,fun _ => Scalar.noConfusion⟩
  have hw : (obj [(units ['b'],arr [leaf .null]),(units ['a'],leaf (.num one))]).IsJson := by
    refine ⟨⟨by decide,⟨trivial,trivial⟩,trivial,trivial⟩,⟨?_,trivial⟩,?_,trivial⟩
    · exact ⟨Scalar.noConfusion,fun _ => Scalar.noConfusion⟩
    · exact ⟨Scalar.noConfusion,fun _ => Scalar.noConfusion⟩
  have hsame : (obj [(units ['a'],leaf (.num one)),(units ['b'],arr [leaf .null])]).Same
      (obj [(units ['b'],arr [leaf .null]),(units ['a'],leaf (.num one))]) := by
    refine ⟨_,rfl,rfl,⟨leaf (.num one),?_,rfl⟩,⟨arr [leaf .null],?_,⟨_,rfl,⟨_,_,rfl,rfl,rfl⟩⟩⟩,trivial⟩
    · exact List.mem_cons_of_mem _ List.mem_cons_self
    · exact List.mem_cons_self
  obtain ⟨h,h',hbatch⟩ := stable_text_iff hv hw (imported_isJson hv) (imported_isJson hw)
  exact ⟨hsame,h.mpr fun _ => hsame,h'.mpr fun _ => hsame,hbatch.mpr fun _ => .cons (imported_same hsame) .nil⟩

/-- A payload with a member `__proto__` is written as one without. -/
theorem proto_lost :
    ∃ v w : JsValue, v = obj [(protoKey,leaf (.num one))] ∧ w = obj [] ∧ v.IsJson ∧ w.IsJson ∧ ¬v.Same w ∧
      stableJson v = stableJson w ∧ Cqrs.PayloadHash.stableJson v = Cqrs.PayloadHash.stableJson w ∧
      (∀ e ∈ [imported v,imported w], e.IsJson) ∧ ¬List.Forall₂ ImportEvent.Same [imported v] [imported w] ∧
      checksumText [imported v] = checksumText [imported w] := by
  refine ⟨_,_,rfl,rfl,?_⟩
  have hv : (obj [(protoKey,leaf (.num one))]).IsJson :=
    ⟨⟨by decide,trivial,trivial⟩,⟨Scalar.noConfusion,fun _ => Scalar.noConfusion⟩,trivial⟩
  have hw : (obj []).IsJson := ⟨⟨List.nodup_nil,trivial⟩,trivial⟩
  have hdiffer : ¬(obj [(protoKey,leaf (.num one))]).Same (obj []) := by
    rintro ⟨ns,heq,hlength,_⟩
    rw [← obj.inj heq] at hlength
    exact absurd hlength (by decide)
  have hstripped : (obj [(protoKey,leaf (.num one))]).stripped.Same (obj []).stripped := ⟨_,rfl,rfl,trivial⟩
  have htext := (stableJson_json hv hw).mpr hstripped
  have hbatch : List.Forall₂ (fun e e' => ImportEvent.Same e.stripped e'.stripped)
      [imported (obj [(protoKey,leaf (.num one))])] [imported (obj [])] :=
    .cons (imported_same hstripped) .nil
  refine ⟨hv,hw,hdiffer,htext,htext,?_,?_,(checksumText_eq_iff (imported_isJson hv) (imported_isJson hw)).mpr hbatch⟩
  · exact List.forall_mem_cons.mpr ⟨imported_isJson hv _ List.mem_cons_self,imported_isJson hw⟩
  · intro hall
    exact hdiffer (List.forall₂_cons.mp hall).1.payload

end StructureAi.EventSourcing.ImportChecksum

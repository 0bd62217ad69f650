import StructureAi.EventSourcing.Events

/-! # The event registry

A stored payload is brought to the version its schema writes by the upcasters between the two
versions, and the schema decodes the result. A payload is `unknown`, so its type is a parameter.
-/
namespace StructureAi.EventSourcing.Codec

inductive Literal where
  | text (literal : String)
  | other
deriving DecidableEq

/-- The syntax of a schema, as far as the tag of an event is read from it. -/
inductive AST where
  | typeLiteral (propertySignatures : List (String × AST))
  | literal (literal : Literal)
  | other

structure Schema (Payload Event : Type) where
  ast : AST
  encodeSync : Event → Option Payload
  decodeUnknown : Payload → Except String Event

structure EventRegistryEntry (Payload Event : Type) where
  schema : Schema Payload Event
  schemaVersion : ℤ
  upcasters : Option (ℤ → Option (Payload → Except String Payload)) := none

variable {Payload Event : Type}

/-- The string a property gives an event type as its tag. -/
def literalTag : String × AST → Option String
  | ("_tag",.literal (.text literal)) => some literal
  | _ => none

def tagOf (schema : Schema Payload Event) : Except String String :=
  let tag := match schema.ast with
    | .typeLiteral propertySignatures => propertySignatures.findSome? literalTag
    | _ => none
  match tag with
  | some tag => .ok tag
  | none => .error "event schema must be a TaggedStruct with a literal string _tag"

/-- `byTag`. -/
abbrev Registry (Payload Event : Type) := List (String × EventRegistryEntry Payload Event)

def register (byTag : Registry Payload Event) (entry : EventRegistryEntry Payload Event) :
    Except String (Registry Payload Event) := do
  let tag ← tagOf entry.schema
  if (byTag.lookup tag).isSome then
    .error ("duplicate event type \"" ++ tag ++ "\" in registry")
  else .ok ((tag,entry) :: byTag)

/-- The entry that compiles an event type, or the error that `make` throws. -/
def make (entries : List (EventRegistryEntry Payload Event)) : Except String (Registry Payload Event) :=
  entries.foldlM register []

def EventRegistryEntry.upcaster (entry : EventRegistryEntry Payload Event) (version : ℤ) :
    Option (Payload → Except String Payload) := do
  (← entry.upcasters) version

/-- The loop over the versions below the registered one; its error is the reason of the decode error. -/
def upcasts (entry : EventRegistryEntry Payload Event) : ℕ → ℤ → Payload → Except String Payload
  | 0, _, payload => .ok payload
  | remaining + 1, version, payload =>
    match entry.upcaster version with
    | none => .error ("no upcaster from schema version " ++ toString version)
    | some upcast =>
      match upcast payload with
      | .error error => .error ("upcaster from version " ++ toString version ++ " threw: " ++ error)
      | .ok payload => upcasts entry remaining (version + 1) payload

def decodePayload (tag : String) (entry : EventRegistryEntry Payload Event) (payload : Payload) :
    Except EventDecodeError Event :=
  match entry.schema.decodeUnknown payload with
  | .error reason => .error ⟨tag,entry.schemaVersion,reason⟩
  | .ok event => .ok event

namespace Registry
variable (byTag : Registry Payload Event)

def decode (type : String) (schemaVersion : ℤ) (payload : Payload) : Except EventDecodeError Event :=
  match byTag.lookup type with
  | none => .error ⟨type,schemaVersion,"unknown event type"⟩
  | some entry =>
    let current := entry.schemaVersion
    if schemaVersion > current then
      .error ⟨type,schemaVersion,"stored schema version is newer than the registered version " ++ toString current⟩
    else
      match upcasts entry (current - schemaVersion).toNat schemaVersion payload with
      | .error reason => .error ⟨type,schemaVersion,reason⟩
      | .ok payload => decodePayload type entry payload

/-- `encode` of an event with this `_tag`; where it throws, there is no answer. -/
def encode (tag : String) (event : Event) : Option (String × ℤ × Payload) := do
  let entry ← byTag.lookup tag
  return (tag,entry.schemaVersion,← entry.schema.encodeSync event)

def has (type : String) : Bool := (byTag.lookup type).isSome

end Registry

/-- The registry as the stores use it: its payloads are JSON. -/
def Registry.service (byTag : Registry Foundation.Json Event) (tag : Event → String) : EventRegistry Event where
  encode event := (byTag.encode (tag event) event).map fun e => ⟨e.1,e.2.1,e.2.2⟩
  decode stored := byTag.decode stored.type stored.schemaVersion stored.payload
  has := byTag.has

/-- The payloads on the way through `steps` upcasters from a version on: each is used once, in increasing order. -/
def Composed (entry : EventRegistryEntry Payload Event) (version : ℤ) (steps : ℕ) (p q : Payload) : Prop :=
  ∃ payload : ℕ → Payload, payload 0 = p ∧ payload steps = q ∧
    ∀ i < steps, ∃ upcast, entry.upcaster (version + i) = some upcast ∧ upcast (payload i) = .ok (payload (i + 1))

section Make
variable {entries : List (EventRegistryEntry Payload Event)} {byTag byTag' : Registry Payload Event}
  {entry : EventRegistryEntry Payload Event} {type : String}

theorem register_ok (h : register byTag entry = .ok byTag') :
    ∃ tag, tagOf entry.schema = .ok tag ∧ byTag.lookup tag = none ∧ byTag' = (tag,entry) :: byTag := by
  unfold register at h
  cases htag : tagOf entry.schema with
  | error reason => simp [htag,bind,Except.bind] at h
  | ok tag =>
    simp only [htag,bind,Except.bind] at h
    split at h
    · cases h
    · rename_i hfresh
      exact ⟨tag,rfl,Option.not_isSome_iff_eq_none.mp hfresh,(Except.ok.inj h).symm⟩

theorem register_lookup (h : register byTag entry = .ok byTag') {found : EventRegistryEntry Payload Event}
    (hfound : byTag.lookup type = some found) : byTag'.lookup type = some found := by
  obtain ⟨tag,_,hfresh,rfl⟩ := register_ok h
  have hne : (type == tag) = false := by
    rw [beq_eq_false_iff_ne]
    rintro rfl
    rw [hfresh] at hfound
    cases hfound
  rw [List.lookup_cons,hne]
  exact hfound

theorem foldlM_cons_ok (h : (entry :: entries).foldlM register byTag = .ok byTag') :
    ∃ next, register byTag entry = .ok next ∧ entries.foldlM register next = .ok byTag' := by
  rw [List.foldlM_cons] at h
  cases hregister : register byTag entry with
  | error reason => simp [hregister,bind,Except.bind] at h
  | ok next =>
    rw [hregister] at h
    exact ⟨next,rfl,h⟩

theorem foldlM_lookup (h : entries.foldlM register byTag = .ok byTag') {found : EventRegistryEntry Payload Event}
    (hfound : byTag.lookup type = some found) : byTag'.lookup type = some found := by
  induction entries generalizing byTag with
  | nil =>
    cases h
    exact hfound
  | cons entry entries ih =>
    obtain ⟨next,hregister,hlater⟩ := foldlM_cons_ok h
    exact ih hlater (register_lookup hregister hfound)

theorem foldlM_registered (h : entries.foldlM register byTag = .ok byTag') (hentry : entry ∈ entries)
    (htype : tagOf entry.schema = .ok type) : byTag'.lookup type = some entry := by
  induction entries generalizing byTag with
  | nil => cases hentry
  | cons head entries ih =>
    obtain ⟨next,hregister,hlater⟩ := foldlM_cons_ok h
    rcases List.mem_cons.mp hentry with rfl | hentry
    · obtain ⟨tag,htag,_,rfl⟩ := register_ok hregister
      rw [htype] at htag
      cases htag
      exact foldlM_lookup hlater (by rw [List.lookup_cons,beq_self_eq_true])
    · exact ih hlater hentry

theorem foldlM_known (h : entries.foldlM register byTag = .ok byTag') (hfound : byTag'.lookup type = some entry) :
    byTag.lookup type = some entry ∨ entry ∈ entries ∧ tagOf entry.schema = .ok type := by
  induction entries generalizing byTag with
  | nil =>
    cases h
    exact Or.inl hfound
  | cons head entries ih =>
    obtain ⟨next,hregister,hlater⟩ := foldlM_cons_ok h
    rcases ih hlater with hnext | ⟨hentry,htag⟩
    · obtain ⟨tag,htag,_,rfl⟩ := register_ok hregister
      rw [List.lookup_cons] at hnext
      cases heq : type == tag with
      | true =>
        rw [heq] at hnext
        cases hnext
        rw [beq_iff_eq.mp heq]
        exact Or.inr ⟨List.mem_cons_self,htag⟩
      | false =>
        rw [heq] at hnext
        exact Or.inl hnext
    · exact Or.inr ⟨List.mem_cons_of_mem _ hentry,htag⟩

theorem make_registered (h : make entries = .ok byTag) (hentry : entry ∈ entries)
    (htype : tagOf entry.schema = .ok type) : byTag.lookup type = some entry :=
  foldlM_registered h hentry htype

theorem make_unknown (h : make entries = .ok byTag) (htype : ∀ entry ∈ entries, tagOf entry.schema ≠ .ok type) :
    byTag.lookup type = none := by
  cases hfound : byTag.lookup type with
  | none => rfl
  | some entry =>
    rcases foldlM_known h hfound with hnone | ⟨hentry,htag⟩
    · cases hnone
    · exact absurd htag (htype entry hentry)

end Make

section Upcasts
variable {entry : EventRegistryEntry Payload Event} {version : ℤ} {steps : ℕ} {p q : Payload}
  {upcast : Payload → Except String Payload}

theorem upcasts_succ (hupcast : entry.upcaster version = some upcast) (h : upcast p = .ok q) :
    upcasts entry (steps + 1) version p = upcasts entry steps (version + 1) q := by
  rw [upcasts,hupcast]
  dsimp only
  rw [h]

theorem upcasts_succ_ok {r : Payload} (h : upcasts entry (steps + 1) version p = .ok r) :
    ∃ upcast q, entry.upcaster version = some upcast ∧ upcast p = .ok q ∧ upcasts entry steps (version + 1) q = .ok r := by
  cases hupcast : entry.upcaster version with
  | none => simp [upcasts,hupcast] at h
  | some upcast =>
    cases hstep : upcast p with
    | error error => simp [upcasts,hupcast,hstep] at h
    | ok q => exact ⟨upcast,q,rfl,hstep,by rw [← upcasts_succ hupcast hstep,h]⟩

theorem Composed.cons (hupcast : entry.upcaster version = some upcast) {r : Payload} (h : upcast p = .ok q)
    (hlater : Composed entry (version + 1) steps q r) : Composed entry version (steps + 1) p r := by
  obtain ⟨payload,hfirst,hlast,hsteps⟩ := hlater
  refine ⟨fun i => i.casesOn p payload,rfl,hlast,?_⟩
  intro i hi
  cases i with
  | zero =>
    refine ⟨upcast,?_,?_⟩
    · rw [Nat.cast_zero,add_zero]
      exact hupcast
    · change upcast p = .ok (payload 0)
      rw [h,hfirst]
  | succ i =>
    obtain ⟨later,hlater,hpayload⟩ := hsteps i (by omega)
    refine ⟨later,?_,hpayload⟩
    rw [← hlater]
    congr 1
    push_cast
    ring

theorem upcasts_ok_iff : upcasts entry steps version p = .ok q ↔ Composed entry version steps p q := by
  constructor
  · intro h
    induction steps generalizing version p with
    | zero =>
      cases h
      exact ⟨fun _ => q,rfl,rfl,fun i hi => absurd hi (Nat.not_lt_zero i)⟩
    | succ steps ih =>
      obtain ⟨upcast,r,hupcast,hstep,hlater⟩ := upcasts_succ_ok h
      exact (ih hlater).cons hupcast hstep
  · intro h
    induction steps generalizing version p with
    | zero =>
      obtain ⟨payload,hfirst,hlast,_⟩ := h
      rw [upcasts,← hfirst,hlast]
    | succ steps ih =>
      obtain ⟨payload,hfirst,hlast,hsteps⟩ := h
      obtain ⟨upcast,hupcast,hstep⟩ := hsteps 0 (Nat.succ_pos steps)
      rw [Nat.cast_zero,add_zero] at hupcast
      rw [hfirst] at hstep
      rw [upcasts_succ hupcast hstep]
      refine ih ⟨fun i => payload (i + 1),rfl,hlast,?_⟩
      intro i hi
      obtain ⟨later,hlater,hpayload⟩ := hsteps (i + 1) (by omega)
      refine ⟨later,?_,hpayload⟩
      rw [← hlater]
      congr 1
      push_cast
      ring

end Upcasts

section Decode
variable {byTag : Registry Payload Event} {entry : EventRegistryEntry Payload Event} {type : String}
  {version : ℤ} {p q : Payload}

theorem decodePayload_ok_iff {event : Event} :
    decodePayload type entry p = .ok event ↔ entry.schema.decodeUnknown p = .ok event := by
  unfold decodePayload
  cases entry.schema.decodeUnknown p with
  | error reason => simp
  | ok decoded => simp

theorem decode_unknown (h : byTag.lookup type = none) :
    byTag.decode type version p = .error ⟨type,version,"unknown event type"⟩ := by
  rw [Registry.decode,h]

theorem decode_newer (h : byTag.lookup type = some entry) (hversion : entry.schemaVersion < version) :
    ∃ reason, byTag.decode type version p = .error ⟨type,version,reason⟩ := by
  rw [Registry.decode,h]
  exact ⟨_,if_pos hversion⟩

theorem decode_known (h : byTag.lookup type = some entry) (hversion : version ≤ entry.schemaVersion) :
    byTag.decode type version p =
      match upcasts entry (entry.schemaVersion - version).toNat version p with
      | .error reason => .error ⟨type,version,reason⟩
      | .ok payload => decodePayload type entry payload := by
  rw [Registry.decode,h]
  exact if_neg (not_lt.mpr hversion)

theorem decode_ok_iff (h : byTag.lookup type = some entry) (hversion : version ≤ entry.schemaVersion) {event : Event} :
    byTag.decode type version p = .ok event ↔
      ∃ q, Composed entry version (entry.schemaVersion - version).toNat p q ∧ entry.schema.decodeUnknown q = .ok event := by
  rw [decode_known h hversion]
  cases hupcasts : upcasts entry (entry.schemaVersion - version).toNat version p with
  | error reason =>
    constructor
    · intro hevent
      cases hevent
    · rintro ⟨q,hcomposed,_⟩
      rw [upcasts_ok_iff.mpr hcomposed] at hupcasts
      cases hupcasts
  | ok payload =>
    constructor
    · exact fun hevent => ⟨payload,upcasts_ok_iff.mp hupcasts,decodePayload_ok_iff.mp hevent⟩
    · rintro ⟨q,hcomposed,hevent⟩
      rw [upcasts_ok_iff.mpr hcomposed] at hupcasts
      cases hupcasts
      exact decodePayload_ok_iff.mpr hevent

theorem decode_upcast (h : byTag.lookup type = some entry) (hversion : version < entry.schemaVersion)
    {upcast : Payload → Except String Payload} (hupcast : entry.upcaster version = some upcast) (hstep : upcast p = .ok q)
    {event : Event} : byTag.decode type version p = .ok event ↔ byTag.decode type (version + 1) q = .ok event := by
  have hsteps : (entry.schemaVersion - version).toNat = (entry.schemaVersion - (version + 1)).toNat + 1 := by omega
  rw [decode_known h hversion.le,decode_known h (Int.add_one_le_iff.mpr hversion),hsteps,upcasts_succ hupcast hstep]
  cases upcasts entry (entry.schemaVersion - (version + 1)).toNat (version + 1) q with
  | error reason => simp
  | ok payload => rfl

/-- What `encode` writes `decode` reads back, where the schema does so. -/
theorem decode_encode {tag : String} {event : Event} {payload : Payload}
    (h : byTag.encode tag event = some (type,version,payload))
    (hschema : ∀ entry ∈ byTag.lookup tag, ∀ payload ∈ entry.schema.encodeSync event,
      entry.schema.decodeUnknown payload = .ok event) : byTag.decode type version payload = .ok event := by
  cases hfound : byTag.lookup tag with
  | none => simp [Registry.encode,hfound] at h
  | some entry =>
    cases hencoded : entry.schema.encodeSync event with
    | none => simp [Registry.encode,hfound,hencoded] at h
    | some encoded =>
      simp only [Registry.encode,hfound,hencoded,bind,Option.bind,pure,Option.some.injEq,Prod.mk.injEq] at h
      obtain ⟨rfl,rfl,rfl⟩ := h
      rw [decode_known hfound le_rfl,sub_self,Int.toNat_zero,upcasts]
      exact decodePayload_ok_iff.mpr (hschema entry hfound encoded hencoded)

end Decode

/-- Decoding does not depend on how far a payload has been brought already: an event of a version up to the current
one decodes to what the schema reads from the composition of the steps between, also when its first step is
taken beforehand; unknown types and newer versions fail. -/
theorem decode_path_independent {entries : List (EventRegistryEntry Payload Event)} {byTag : Registry Payload Event}
    (hmake : make entries = .ok byTag) :
    (∀ entry ∈ entries, ∀ type, tagOf entry.schema = .ok type → ∀ version p,
      (version ≤ entry.schemaVersion → ∀ event, byTag.decode type version p = .ok event ↔
        ∃ q, Composed entry version (entry.schemaVersion - version).toNat p q ∧ entry.schema.decodeUnknown q = .ok event) ∧
      (version < entry.schemaVersion → ∀ upcast q, entry.upcaster version = some upcast → upcast p = .ok q →
        ∀ event, byTag.decode type version p = .ok event ↔ byTag.decode type (version + 1) q = .ok event) ∧
      (entry.schemaVersion < version → ∃ reason, byTag.decode type version p = .error ⟨type,version,reason⟩)) ∧
    ∀ type, (∀ entry ∈ entries, tagOf entry.schema ≠ .ok type) → ∀ version p,
      byTag.decode type version p = .error ⟨type,version,"unknown event type"⟩ := by
  constructor
  · intro entry hentry type htype version p
    have hfound := make_registered hmake hentry htype
    refine ⟨?_,?_,?_⟩
    · exact fun hversion event => decode_ok_iff hfound hversion
    · exact fun hversion upcast q hupcast hstep event => decode_upcast hfound hversion hupcast hstep
    · exact decode_newer hfound
  · intro type htype version p
    exact decode_unknown (make_unknown hmake htype)

section UserRenamed

/-- An event type of version 1 whose next upcaster is registered already. -/
def userRenamed : EventRegistryEntry String String where
  schema :=
    { ast := .typeLiteral [("_tag",.literal (.text "UserRenamed"))]
      encodeSync := some
      decodeUnknown := .ok }
  schemaVersion := 1
  upcasters := some fun version => if version = 0 ∨ version = 1 then some (fun payload => .ok (payload ++ "!")) else none

theorem decode_path_independent_user : ∃ byTag, make [userRenamed] = .ok byTag ∧
    byTag.decode "UserRenamed" 0 "Ada" = .ok "Ada!" ∧
    (byTag.decode "UserRenamed" 0 "Ada" = .ok "Ada!" ↔ byTag.decode "UserRenamed" 1 "Ada!" = .ok "Ada!") := by
  refine ⟨[("UserRenamed",userRenamed)],rfl,rfl,?_⟩
  have hmake : make [userRenamed] = .ok [("UserRenamed",userRenamed)] := rfl
  exact ((decode_path_independent hmake).1 userRenamed List.mem_cons_self "UserRenamed" rfl 0 "Ada").2.1
    (by decide) _ "Ada!" rfl rfl "Ada!"

/-- The upcaster of the current version is not used by `decode`, which refuses what it answers. -/
theorem decode_path_dependent : ¬ ∀ (entries : List (EventRegistryEntry String String)) byTag, make entries = .ok byTag →
    ∀ entry ∈ entries, ∀ type, tagOf entry.schema = .ok type → ∀ version p, version ≤ entry.schemaVersion →
      ∀ upcast q, entry.upcaster version = some upcast → upcast p = .ok q →
        ∀ event, byTag.decode type version p = .ok event ↔ byTag.decode type (version + 1) q = .ok event := by
  intro h
  have hiff := h [userRenamed] [("UserRenamed",userRenamed)] rfl userRenamed List.mem_cons_self "UserRenamed" rfl 1 "Ada"
    le_rfl _ "Ada!" rfl rfl "Ada"
  have hdecoded := hiff.mp rfl
  cases hdecoded

end UserRenamed

end StructureAi.EventSourcing.Codec

import StructureAi.Observability.Logging
import StructureAi.Foundation.JsonGrammar

/-! # Redaction

Two calls that differ in what is stored under redacted keys are related by the addresses of the objects that
both can reach. Rendering
goes through related values alike. What is left are the keys of maps: the text of an error that is one holds
its name and its message,
whether these are redacted or not.
-/
namespace StructureAi.Observability
open StructureAi.Foundation
variable {α β : Type} {platform : Platform} {rel : α → β → Prop}

section Relation

inductive AlikeValue (rel : α → β → Prop) : Value α → Value β → Prop
  | undefined : AlikeValue rel .undefined .undefined
  | null : AlikeValue rel .null .null
  | bool (b : Bool) : AlikeValue rel (.bool b) (.bool b)
  | number (n : Number) : AlikeValue rel (.number n) (.number n)
  | bigint (z : ℤ) : AlikeValue rel (.bigint z) (.bigint z)
  | text (s : JsString) : AlikeValue rel (.text s) (.text s)
  | symbol (description : JsString) : AlikeValue rel (.symbol description) (.symbol description)
  | function (source : JsString) : AlikeValue rel (.function source) (.function source)
  | object {a : α} {b : β} (h : rel a b) : AlikeValue rel (.object a) (.object b)

/-- The same keys, and the same values but for what is under a redacted key. -/
def AlikeFields (platform : Platform) (rel : α → β → Prop) : List (JsString × Value α) → List (JsString × Value β) → Prop :=
  List.Forall₂ fun e e' => e.1 = e'.1 ∧ (platform.isRedactedKey e.1 = true ∨ AlikeValue rel e.2 e'.2)

variable [DecidableEq α] [DecidableEq β]

def RedactedMapKey (platform : Platform) (heap : Heap α) (key : Value α) : Prop :=
  ∃ s, stringOf heap platform.calls key = some s ∧ platform.isRedactedKey s = true

inductive AlikeObject (platform : Platform) (heap : Heap α) (heap' : Heap β) (rel : α → β → Prop) : Object α → Object β → Prop
  | redacted (secret : Value α) (secret' : Value β) : AlikeObject platform heap heap' rel (.redacted secret) (.redacted secret')
  | date (iso : Option JsString) (text : JsString) : AlikeObject platform heap heap' rel (.date iso text) (.date iso text)
  | error {name message : Value α} {name' message' : Value β} {fields : List (JsString × Value α)}
      {fields' : List (JsString × Value β)}
      (hname : platform.isRedactedKey (ofString "name") = true ∨ AlikeValue rel name name')
      (hmessage : platform.isRedactedKey (ofString "message") = true ∨ AlikeValue rel message message')
      (hfields : AlikeFields platform rel fields fields') :
      AlikeObject platform heap heap' rel (.error name message fields) (.error name' message' fields')
  | array {items : List (Value α)} {items' : List (Value β)} (h : List.Forall₂ (AlikeValue rel) items items') :
      AlikeObject platform heap heap' rel (.array items) (.array items')
  | set {items : List (Value α)} {items' : List (Value β)} (h : List.Forall₂ (AlikeValue rel) items items') :
      AlikeObject platform heap heap' rel (.set items) (.set items')
  | map {entries : List (Value α × Value α)} {entries' : List (Value β × Value β)}
      (h : List.Forall₂ (fun e e' => AlikeValue rel e.1 e'.1 ∧
        (RedactedMapKey platform heap e.1 ∧ RedactedMapKey platform heap' e'.1 ∨ AlikeValue rel e.2 e'.2)) entries entries') :
      AlikeObject platform heap heap' rel (.map entries) (.map entries')
  | json {result : Option (Value α)} {result' : Option (Value β)} (text : Option JsString)
      (h : Option.Rel (AlikeValue rel) result result') :
      AlikeObject platform heap heap' rel (.json result text) (.json result' text)
  | custom (text : Option JsString) : AlikeObject platform heap heap' rel (.custom text) (.custom text)
  | plain (bare : Bool) {fields : List (JsString × Value α)} {fields' : List (JsString × Value β)}
      (h : AlikeFields platform rel fields fields') : AlikeObject platform heap heap' rel (.plain bare fields)
        (.plain bare fields')

/-- Two heaps that differ in values under redacted keys and in redacted values only. -/
structure AlikeHeaps (platform : Platform) (heap : Heap α) (heap' : Heap β) (rel : α → β → Prop) : Prop where
  unique : Relator.BiUnique rel
  objects : ∀ a b, rel a b → AlikeObject platform heap heap' rel (heap a) (heap' b)

structure AlikeCalls (platform : Platform) (rel : α → β → Prop) (call : LogCall α) (call' : LogCall β) : Prop where
  heaps : AlikeHeaps platform call.heap call'.heap rel
  ts : call.ts = call'.ts
  level : call.level = call'.level
  messages : List.Forall₂ (AlikeValue rel) call.messages call'.messages
  annotations : AlikeFields platform rel call.annotations call'.annotations
  spans : call.spans = call'.spans
  cause : call.cause = call'.cause

/-- The keys of related maps have the same texts. -/
def SameMapKeys (platform : Platform) (heap : Heap α) (heap' : Heap β) (rel : α → β → Prop) : Prop :=
  ∀ a b, rel a b → ∀ entries entries', heap a = .map entries → heap' b = .map entries' →
    List.Forall₂ (fun e e' => stringOf heap platform.calls e.1 = stringOf heap' platform.calls e'.1) entries entries'

end Relation

section Lists
variable {γ γ' δ δ' : Type}

theorem map_eq_of_related {R : γ → γ' → Prop} {f : γ → δ} {g : γ' → δ} (hfg : ∀ a b, R a b → f a = g b) {l : List γ}
    {l' : List γ'}
    (h : List.Forall₂ R l l') : l.map f = l'.map g := by
  induction h with
  | nil => rfl
  | cons hab _ ih => rw [List.map_cons,List.map_cons,hfg _ _ hab,ih]

theorem mapM_related {R : γ → γ' → Prop} {S : δ → δ' → Prop} {f : γ → Option δ} {g : γ' → Option δ'}
    (hfg : ∀ a b, R a b → Option.Rel S (f a) (g b)) {l : List γ} {l' : List γ'} (h : List.Forall₂ R l l') :
    Option.Rel (List.Forall₂ S) (l.mapM f) (l'.mapM g) := by
  induction h with
  | nil => exact .some .nil
  | @cons a b l l' hab _ ih =>
    rw [List.mapM_cons,List.mapM_cons]
    have hhead := hfg a b hab
    revert hhead
    generalize f a = x
    generalize g b = y
    rintro (⟨hxy⟩ | _)
    · revert ih
      generalize l.mapM f = xs
      generalize l'.mapM g = ys
      rintro (⟨hxs⟩ | _)
      · exact .some (.cons hxy hxs)
      · exact .none
    · exact .none

theorem mapM_eq_of_related {R : γ → γ' → Prop} {f : γ → Option δ} {g : γ' → Option δ} (hfg : ∀ a b, R a b → f a = g b)
    {l : List γ}
    {l' : List γ'} (h : List.Forall₂ R l l') : l.mapM f = l'.mapM g := by
  induction h with
  | nil => rfl
  | cons hab _ ih => rw [List.mapM_cons,List.mapM_cons,hfg _ _ hab,ih]

theorem forall₂_and {R S : γ → γ' → Prop} {l : List γ} {l' : List γ'} (hR : List.Forall₂ R l l') (hS : List.Forall₂ S l l') :
    List.Forall₂ (fun a b => R a b ∧ S a b) l l' := by
  induction hR with
  | nil => exact .nil
  | cons hab _ ih =>
    obtain ⟨hab',hrest⟩ := List.forall₂_cons.mp hS
    exact .cons ⟨hab,hab'⟩ (ih hrest)

end Lists

section Rendering
variable {render : Value α → JsValue} {render' : Value β → JsValue}

theorem entries_alike (hrender : ∀ v v', AlikeValue rel v v' → render v = render' v') {source : List (JsString × Value α)}
    {source' : List (JsString × Value β)} (h : AlikeFields platform rel source source') :
    entries platform render source = entries platform render' source' := by
  have hmap : (source.map fun e => (e.1,if platform.isRedactedKey e.1 then text REDACTED_KEY else render e.2)) =
      source'.map fun e => (e.1,if platform.isRedactedKey e.1 then text REDACTED_KEY else render' e.2) := by
    refine map_eq_of_related ?_ h
    rintro ⟨key,v⟩ ⟨key',v'⟩ ⟨rfl,hv⟩
    dsimp only
    split
    · rfl
    · rename_i hkey
      rw [hrender v v' (hv.resolve_left hkey)]
  have hfold : ∀ {γ : Type} (value : JsString × γ → JsValue) (l : List (JsString × γ)),
      (l.take MAX_KEYS).foldl (fun out e => assign out e.1 (value e)) [] =
        ((l.map fun e => (e.1,value e)).take MAX_KEYS).foldl (fun out m => assign out m.1 m.2) [] := by
    intro γ value l
    rw [← List.map_take,List.foldl_map]
  unfold entries
  rw [hfold (fun e => if platform.isRedactedKey e.1 then text REDACTED_KEY else render e.2) source,
    hfold (fun e => if platform.isRedactedKey e.1 then text REDACTED_KEY else render' e.2) source',hmap,List.Forall₂.length_eq h]

theorem items_alike (hrender : ∀ v v', AlikeValue rel v v' → render v = render' v') {source : List (Value α)}
    {source' : List (Value β)}
    (h : List.Forall₂ (AlikeValue rel) source source') : items render source = items render' source' := by
  unfold items
  rw [List.map_take,List.map_take,map_eq_of_related hrender h,h.length_eq]

theorem errorEntries_alike {name message : Value α} {name' message' : Value β} {fields : List (JsString × Value α)}
    {fields' : List (JsString × Value β)} (hname : platform.isRedactedKey (ofString "name") = true ∨ AlikeValue rel name name')
    (hmessage : platform.isRedactedKey (ofString "message") = true ∨ AlikeValue rel message message')
    (hfields : AlikeFields platform rel fields fields') :
    AlikeFields platform rel (errorEntries name message fields) (errorEntries name' message' fields') := by
  refine .cons ⟨rfl,hname⟩ (.cons ⟨rfl,hmessage⟩ ?_)
  induction hfields with
  | nil => exact .nil
  | @cons e e' l l' he _ ih =>
    rw [List.filter_cons,List.filter_cons,← he.1]
    split
    · exact .cons he ih
    · exact ih

variable [DecidableEq α] [DecidableEq β] {heap : Heap α} {heap' : Heap β}

theorem go_primitive {depth : ℕ} {seen : List α} {seen' : List β} {v : Value α} {v' : Value β} (hv : AlikeValue rel v v')
    (hobject : ∀ a b, rel a b → go platform heap depth seen (.object a) = go platform heap' depth seen' (.object b)) :
    go platform heap depth seen v = go platform heap' depth seen' v' := by
  cases hv with
  | object h => exact hobject _ _ h
  | number n =>
    cases n with
    | finite d => rw [go,go]
    | nan => simp only [go]
    | infinite negative => simp only [go]
  | _ => rw [go,go]

theorem sources_alike {entries : List (Value α × Value α)} {entries' : List (Value β × Value β)}
    (h : List.Forall₂ (fun e e' => AlikeValue rel e.1 e'.1 ∧
      (RedactedMapKey platform heap e.1 ∧ RedactedMapKey platform heap' e'.1 ∨ AlikeValue rel e.2 e'.2)) entries entries')
    (hkeys : List.Forall₂ (fun e e' => stringOf heap platform.calls e.1 = stringOf heap' platform.calls e'.1) entries entries') :
    Option.Rel (AlikeFields platform rel) (entries.mapM fun e => (stringOf heap platform.calls e.1).map fun key => (key,e.2))
      (entries'.mapM fun e => (stringOf heap' platform.calls e.1).map fun key => (key,e.2)) := by
  refine mapM_related ?_ (forall₂_and h hkeys)
  rintro ⟨key,v⟩ ⟨key',v'⟩ ⟨⟨-,hv⟩,hkey⟩
  dsimp only at hkey hv ⊢
  rw [← hkey]
  cases htext : stringOf heap platform.calls key with
  | none => exact .none
  | some s =>
    refine .some ⟨rfl,?_⟩
    obtain ⟨⟨s',hs',hredacted⟩,-⟩ | hv := hv
    · rw [htext] at hs'
      obtain rfl := Option.some.inj hs'
      exact Or.inl hredacted
    · exact Or.inr hv

theorem go_alike (h : AlikeHeaps platform heap heap' rel) (hkeys : SameMapKeys platform heap heap' rel) (depth : ℕ)
    {seen : List α}
    {seen' : List β} (hseen : List.Forall₂ rel seen seen') {v : Value α} {v' : Value β} (hv : AlikeValue rel v v') :
    go platform heap depth seen v = go platform heap' depth seen' v' := by
  induction depth generalizing seen seen' v v' with
  | zero =>
    refine go_primitive hv fun a b hab => ?_
    have hobject := h.objects a b hab
    have hmem := List.rel_mem h.unique hab hseen
    unfold go
    generalize heap a = object at hobject
    generalize heap' b = object' at hobject
    cases hobject with
    | redacted secret secret' => rfl
    | date iso text => rfl
    | _ =>
      dsimp only
      simp only [hmem]
  | succ depth ih =>
    refine go_primitive hv fun a b hab => ?_
    have hobject := h.objects a b hab
    have hmem := List.rel_mem h.unique hab hseen
    have hkeys := hkeys a b hab
    have hrender : ∀ v v', AlikeValue rel v v' → go platform heap depth (a :: seen) v =
      go platform heap' depth (b :: seen') v' :=
      fun v v' hv => ih (.cons hab hseen) hv
    unfold go
    generalize heap a = object at hobject hkeys
    generalize heap' b = object' at hobject hkeys
    cases hobject with
    | redacted secret secret' => rfl
    | date iso text => rfl
    | error hname hmessage hfields =>
      dsimp only
      rw [entries_alike hrender (errorEntries_alike hname hmessage hfields)]
      simp only [hmem]
    | array hitems =>
      dsimp only
      rw [items_alike hrender hitems]
      simp only [hmem]
    | set hitems =>
      dsimp only
      rw [items_alike hrender hitems]
      simp only [hmem]
    | @map source source' hsource =>
      have hsources := sources_alike hsource (hkeys source source' rfl rfl)
      dsimp only
      revert hsources
      generalize source.mapM (fun e => (stringOf heap platform.calls e.1).map fun key => (key,e.2)) = x
      generalize source'.mapM (fun e => (stringOf heap' platform.calls e.1).map fun key => (key,e.2)) = y
      rintro (⟨hfields⟩ | _)
      · dsimp only
        rw [entries_alike hrender hfields]
        simp only [hmem]
      · simp only [hmem]
    | json text hresult =>
      obtain ⟨hresult⟩ | _ := hresult
      · dsimp only
        rw [hrender _ _ hresult]
        simp only [hmem]
      · simp only [hmem]
    | custom text =>
      cases text with
      | none => simp only [hmem]
      | some s => simp only [hmem]
    | plain bare hfields =>
      dsimp only
      rw [entries_alike hrender hfields]
      simp only [hmem]

end Rendering

section Texts

theorem hasToString_alike {fields : List (JsString × Value α)} {fields' : List (JsString × Value β)}
    (h : AlikeFields platform rel fields fields') :
    hasToString fields = hasToString fields' := by
  induction h with
  | nil => rfl
  | @cons e e' l l' he _ ih =>
    simp only [hasToString,List.any_cons] at ih ⊢
    rw [he.1,ih]

theorem present_alike {toText : Value α → Option JsString} {toText' : Value β → Option JsString}
    (h : ∀ v v', AlikeValue rel v v' → toText v = toText' v') {v : Value α} {v' : Value β} (hv : AlikeValue rel v v') :
    present toText v = present toText' v' := by
  have htext := h v v' hv
  cases hv with
  | undefined => rfl
  | _ => exact congrArg (Option.map some) htext

theorem element_alike {toText : Value α → Option JsString} {toText' : Value β → Option JsString}
    (h : ∀ v v', AlikeValue rel v v' → toText v = toText' v') {v : Value α} {v' : Value β} (hv : AlikeValue rel v v') :
    element toText v = element toText' v' := by
  have htext := h v v' hv
  cases hv with
  | undefined => rfl
  | null => rfl
  | _ => exact htext

variable [DecidableEq α] [DecidableEq β] {heap : Heap α} {heap' : Heap β}

theorem toText_alike (h : AlikeHeaps platform heap heap' rel) (hname : platform.isRedactedKey (ofString "name") = false)
    (hmessage : platform.isRedactedKey (ofString "message") = false) (calls : ℕ) {joining : List α} {joining' : List β}
    (hjoining : List.Forall₂ rel joining joining') {v : Value α} {v' : Value β} (hv : AlikeValue rel v v') :
    toText heap calls joining v = toText heap' calls joining' v' := by
  induction calls generalizing joining joining' v v' with
  | zero =>
    cases hv with
    | _ => rw [toText,toText]
  | succ calls ih =>
    cases hv with
    | @object a b hab =>
      have hobject := h.objects a b hab
      have hmem := List.rel_mem h.unique hab hjoining
      unfold toText
      generalize heap a = object at hobject
      generalize heap' b = object' at hobject
      cases hobject with
      | error hname' hmessage' hfields =>
        have hn := hname'.resolve_left (by rw [hname]; decide)
        have hm := hmessage'.resolve_left (by rw [hmessage]; decide)
        have htexts : ∀ v v', AlikeValue rel v v' → toText heap calls joining v = toText heap' calls joining' v' :=
          fun _ _ => ih hjoining
        dsimp only
        rw [hasToString_alike hfields,present_alike htexts hn,present_alike htexts hm]
      | array hitems =>
        have htexts : ∀ v v', AlikeValue rel v v' → toText heap calls (a :: joining) v = toText heap' calls (b :: joining') v' :=
          fun _ _ => ih (.cons hab hjoining)
        have hmap := mapM_eq_of_related (fun v v' (hv : AlikeValue rel v v') => element_alike htexts hv) hitems
        dsimp only
        rw [hmap]
        simp only [hmem]
      | plain bare hfields =>
        dsimp only
        rw [hasToString_alike hfields]
      | _ => rfl
    | _ => rw [toText,toText]

theorem stringOf_alike (h : AlikeHeaps platform heap heap' rel) (hname : platform.isRedactedKey (ofString "name") = false)
    (hmessage : platform.isRedactedKey (ofString "message") = false) {v : Value α} {v' : Value β} (hv : AlikeValue rel v v') :
    stringOf heap platform.calls v = stringOf heap' platform.calls v' := by
  have htext := toText_alike h hname hmessage (platform.calls + 1) .nil hv
  cases hv with
  | symbol description => rfl
  | _ => exact htext

theorem sameMapKeys_of_alike (h : AlikeHeaps platform heap heap' rel) (hname : platform.isRedactedKey (ofString "name") = false)
    (hmessage : platform.isRedactedKey (ofString "message") = false) : SameMapKeys platform heap heap' rel := by
  intro a b hab entries entries' ha hb
  have hobject := h.objects a b hab
  rw [ha,hb] at hobject
  cases hobject with
  | map hentries => exact hentries.imp fun e e' he => stringOf_alike h hname hmessage he.1

end Texts

section Lines

theorem AlikeValue.text?_eq {v : Value α} {v' : Value β} (h : AlikeValue rel v v') : v.text? = v'.text? := by
  cases h with
  | _ => rfl

variable [DecidableEq α] [DecidableEq β] {call : LogCall α} {call' : LogCall β}

theorem lines_alike (service : Service) (h : AlikeCalls platform rel call call')
    (hkeys : SameMapKeys platform call.heap call'.heap rel) :
    makeJsonLogger platform service call = makeJsonLogger platform service call' := by
  have hserialize : ∀ v v', AlikeValue rel v v' → serialize platform call.heap v = serialize platform call'.heap v' :=
    fun v v' hv => go_alike h.heaps hkeys MAX_DEPTH .nil hv
  have htexts : call.messages.filterMap Value.text? = call'.messages.filterMap Value.text? := by
    have hmessages := h.messages
    generalize call.messages = messages at hmessages
    generalize call'.messages = messages' at hmessages
    induction hmessages with
    | nil => rfl
    | cons hv _ ih => rw [List.filterMap_cons,List.filterMap_cons,hv.text?_eq,ih]
  have hstructured : structured platform call = structured platform call' := by
    unfold structured
    have hmessages := h.messages
    generalize call.messages = messages at hmessages
    generalize call'.messages = messages' at hmessages
    induction hmessages with
    | nil => rfl
    | cons hv _ ih =>
      rw [List.filter_cons,List.filter_cons,hv.text?_eq]
      split
      · rw [List.map_cons,List.map_cons,hserialize _ _ hv,ih]
      · exact ih
  unfold makeJsonLogger record event
  rw [htexts,hstructured,entries_alike hserialize h.annotations,h.ts,h.level,h.spans,h.cause]

theorem line_json (service : Service) (call : LogCall α) :
    ∃ line, makeJsonLogger platform service call = [line] ∧ JsonText line ∧ ∀ u ∈ line, u ≠ unit '\n' := by
  have hjson := JsValue.write_json (defined (record platform service call))
  refine ⟨_,rfl,hjson,fun u hu hline => ?_⟩
  have hprintable := hjson.printable u hu
  rw [hline] at hprintable
  revert hprintable
  decide

theorem event_eq_of_lines (service : Service) (h : makeJsonLogger platform service call =
    makeJsonLogger platform service call') :
    event platform call = event platform call' := by
  have htextual := JsValue.write_eq_iff.mp (List.cons.inj h).1
  have hmembers := JsValue.obj.inj htextual
  have hevent := (Prod.mk.inj (List.cons.inj (List.cons.inj (List.cons.inj hmembers).2).2).1).2
  exact Scalar.str.inj (JsValue.leaf.inj hevent)

end Lines

section Leaks

def keyedByError (name message : CodeUnit) : LogCall Bool where
  heap := fun a => if a then .error (.text [name]) (.text [message]) [] else .map [(.object true,.text REDACTED_KEY)]
  ts := []
  level := []
  messages := [.object false]
  annotations := []
  spans := []
  cause := none

theorem alike_keyedByError {name message name' message' : CodeUnit}
    (hname : platform.isRedactedKey (ofString "name") = true ∨ name = name')
    (hmessage : platform.isRedactedKey (ofString "message") = true ∨ message = message') :
    AlikeCalls platform Eq (keyedByError name message) (keyedByError name' message') where
  heaps := by
    refine ⟨⟨fun a b c h h' => h.trans h'.symm,fun a b c h h' => h.symm.trans h'⟩,?_⟩
    rintro a _ rfl
    cases a with
    | false => exact .map (.cons ⟨.object rfl,Or.inr (.text _)⟩ .nil)
    | true =>
      refine .error (hname.imp id ?_) (hmessage.imp id ?_) .nil
      · rintro rfl
        exact .text _
      · rintro rfl
        exact .text _
  ts := rfl
  level := rfl
  messages := .cons (.object rfl) .nil
  annotations := .nil
  spans := rfl
  cause := rfl

theorem place_nil (m : Member) : place [] m = [m] := by
  unfold place
  split
  · rfl
  · rfl

theorem stringOf_keyedByError (name message : CodeUnit) (calls : ℕ) :
    stringOf (keyedByError name message).heap calls (.object true) = some ([name] ++ ofString ": " ++ [message]) := by
  unfold stringOf toText
  dsimp only [keyedByError]
  rw [if_pos rfl]
  dsimp only
  rw [if_neg (by decide),present,present,toText,toText]
  · rfl
  · exact nofun
  · exact nofun

theorem serialize_keyedByError (name message : CodeUnit) :
    serialize platform (keyedByError name message).heap (.object false) =
      .obj [([name] ++ ofString ": " ++ [message],text REDACTED_KEY)] := by
  have hproto : [name] ++ ofString ": " ++ [message] ≠ protoKey :=
    fun h => absurd (congrArg List.length h) (by simp [ofString,units,protoKey])
  have hsource : ([(.object true,.text REDACTED_KEY)] : List (Value Bool × Value Bool)).mapM
      (fun e => (stringOf (keyedByError name message).heap platform.calls e.1).map fun key => (key,e.2)) =
      some [([name] ++ ofString ": " ++ [message],.text REDACTED_KEY)] := by
    rw [List.mapM_cons,stringOf_keyedByError]
    rfl
  have hvalue : truncate REDACTED_KEY = REDACTED_KEY := by decide
  unfold serialize MAX_DEPTH go
  have hheap : (keyedByError name message).heap false = .map [(.object true,.text REDACTED_KEY)] := rfl
  rw [hheap]
  dsimp only
  rw [if_neg List.not_mem_nil,hsource]
  dsimp only
  unfold entries
  simp only [List.take,MAX_KEYS,List.foldl,go,hvalue,ite_self,assign,if_neg hproto,place_nil]
  rfl

/-- Where names or messages are redacted, the text of an error that is a key of a map still tells them. -/
theorem keyedByError_leaks (service : Service)
    (h : platform.isRedactedKey (ofString "name") = true ∨ platform.isRedactedKey (ofString "message") = true) :
    ∃ call call' : LogCall Bool, AlikeCalls platform Eq call call' ∧
      makeJsonLogger platform service call ≠ makeJsonLogger platform service call' := by
  have hevent : ∀ name message, event platform (keyedByError name message) =
      truncate (JsValue.obj [([name] ++ ofString ": " ++ [message],text REDACTED_KEY)]).write := by
    intro name message
    have hstructured : structured platform (keyedByError name message) =
      [.obj [([name] ++ ofString ": " ++ [message],text REDACTED_KEY)]] := by
      rw [← serialize_keyedByError]
      rfl
    unfold event
    rw [hstructured]
    rfl
  obtain hname | hmessage := h
  · refine ⟨keyedByError (unit 'a') (unit 'b'),keyedByError (unit 'c') (unit 'b'),alike_keyedByError (Or.inl hname)
      (Or.inr rfl),fun hlines => ?_⟩
    have hevents := event_eq_of_lines service hlines
    rw [hevent,hevent] at hevents
    revert hevents
    decide
  · refine ⟨keyedByError (unit 'a') (unit 'b'),keyedByError (unit 'a') (unit 'c'),alike_keyedByError (Or.inr rfl)
      (Or.inl hmessage),fun hlines => ?_⟩
    have hevents := event_eq_of_lines service hlines
    rw [hevent,hevent] at hevents
    revert hevents
    decide

/-- Each call writes one line of JSON. Related calls write the same line where the keys of their maps have the same texts;
  they always
do so if neither names nor messages of errors are redacted, and otherwise not always. -/
theorem redaction_complete_iff (platform : Platform) (service : Service) :
    (∀ (α : Type) [DecidableEq α] (call : LogCall α),
      ∃ line, makeJsonLogger platform service call = [line] ∧ JsonText line ∧ ∀ u ∈ line, u ≠ unit '\n') ∧
    (∀ (α β : Type) [DecidableEq α] [DecidableEq β] (rel : α → β → Prop) (call : LogCall α) (call' : LogCall β),
      AlikeCalls platform rel call call' → SameMapKeys platform call.heap call'.heap rel →
        makeJsonLogger platform service call = makeJsonLogger platform service call') ∧
    ((∀ (α β : Type) [DecidableEq α] [DecidableEq β] (rel : α → β → Prop) (call : LogCall α) (call' : LogCall β),
      AlikeCalls platform rel call call' → makeJsonLogger platform service call = makeJsonLogger platform service call') ↔
        platform.isRedactedKey (ofString "name") = false ∧ platform.isRedactedKey (ofString "message") = false) := by
  refine ⟨fun _ _ call => line_json service call,fun _ _ _ _ _ _ _ h hkeys => lines_alike service h hkeys,?_⟩
  constructor
  · intro hlines
    by_contra hredacted
    have hleak : platform.isRedactedKey (ofString "name") = true ∨ platform.isRedactedKey (ofString "message") = true := by
      rw [not_and_or,Bool.not_eq_false,Bool.not_eq_false] at hredacted
      exact hredacted
    obtain ⟨call,call',halike,hne⟩ := keyedByError_leaks service hleak
    exact hne (hlines Bool Bool Eq call call' halike)
  · rintro ⟨hname,hmessage⟩ _ _ _ _ _ _ _ h
    exact lines_alike service h (sameMapKeys_of_alike h.heaps hname hmessage)

/-- `redactKeys: ["message"]`, and a map whose key is an error. -/
theorem errorKey_leaks :
    ¬ ∀ (platform : Platform) (call call' : LogCall Bool), AlikeCalls platform Eq call call' →
      makeJsonLogger platform ⟨[],[],[]⟩ call = makeJsonLogger platform ⟨[],[],[]⟩ call' := by
  intro h
  have hredacted : (⟨id,[ofString "message"],1000⟩ : Platform).isRedactedKey (ofString "message") = true := by decide
  obtain ⟨call,call',halike,hne⟩ := keyedByError_leaks ⟨[],[],[]⟩ (Or.inr hredacted)
  exact hne (h _ call call' halike)

end Leaks

end StructureAi.Observability

import StructureAi.EventSourcing.Events
import StructureAi.Foundation.Fibers
import StructureAi.Foundation.Run

/-! # The inbox and its deduplication

A call of `dedupe` looks the message up, runs its effect and marks the message,
in three separate steps. Any number of calls, for any consumers and messages,
interleave over one inbox.
-/
namespace StructureAi.EventSourcing
open StructureAi.Foundation

/-- The answers of the inbox port over a state; failures are chosen by the environment. -/
structure InboxService (S : Type) where
  init : S
  seen : S → String → String → Bool
  markProcessed : S → String → String → S

/-- The key the in-memory inbox remembers a message by. -/
def inboxKey (consumerId messageId : String) : String := consumerId ++ "\x00" ++ messageId

def inMemoryInbox : InboxService (Finset String) where
  init := ∅
  seen keys consumerId messageId := inboxKey consumerId messageId ∈ keys
  markProcessed keys consumerId messageId := insert (inboxKey consumerId messageId) keys

structure InboxRow where
  consumerId : String
  messageId : String
deriving DecidableEq

/-- The PostgreSQL inbox table; the insert does nothing on a conflict. -/
def pgInbox : InboxService (List InboxRow) where
  init := []
  seen rows consumerId messageId :=
    (rows.filter fun r => r.consumerId = consumerId ∧ r.messageId = messageId).length > 0
  markProcessed rows consumerId messageId :=
    if rows.any (fun r => r.consumerId = consumerId ∧ r.messageId = messageId) then rows
    else rows ++ [⟨consumerId,messageId⟩]

/-- Marking makes exactly the messages of the marked key seen. -/
structure InboxService.Marks {S K : Type} (svc : InboxService S) (key : String → String → K) : Prop where
  init : ∀ consumerId messageId, svc.seen svc.init consumerId messageId = false
  markProcessed : ∀ s consumerId messageId consumerId' messageId',
    svc.seen (svc.markProcessed s consumerId messageId) consumerId' messageId' = true ↔
      svc.seen s consumerId' messageId' = true ∨ key consumerId messageId = key consumerId' messageId'

theorem inMemoryInbox_marks : inMemoryInbox.Marks inboxKey where
  init _ _ := rfl
  markProcessed keys consumerId messageId consumerId' messageId' := by
    simp only [inMemoryInbox,decide_eq_true_eq,Finset.mem_insert]
    constructor
    · rintro (h | h)
      · exact Or.inr h.symm
      · exact Or.inl h
    · rintro (h | h)
      · exact Or.inr h
      · exact Or.inl h.symm

theorem pgInbox_seen (rows : List InboxRow) (consumerId messageId : String) :
    pgInbox.seen rows consumerId messageId = true ↔ ⟨consumerId,messageId⟩ ∈ rows := by
  simp only [pgInbox,gt_iff_lt,decide_eq_true_eq,List.length_pos_iff_exists_mem,List.mem_filter]
  constructor
  · rintro ⟨r,hr,rfl,rfl⟩
    exact hr
  · intro h
    exact ⟨_,h,rfl,rfl⟩

theorem pgInbox_marks : pgInbox.Marks Prod.mk where
  init _ _ := rfl
  markProcessed rows consumerId messageId consumerId' messageId' := by
    rw [pgInbox_seen,pgInbox_seen]
    have hany : rows.any (fun r => r.consumerId = consumerId ∧ r.messageId = messageId) = true ↔
        ⟨consumerId,messageId⟩ ∈ rows := by
      rw [List.any_eq_true]
      constructor
      · rintro ⟨r,hr,hc⟩
        obtain ⟨rfl,rfl⟩ := of_decide_eq_true hc
        exact hr
      · intro h
        exact ⟨_,h,by simp⟩
    simp only [pgInbox,hany,Prod.mk.injEq]
    split
    next hm =>
      constructor
      · exact Or.inl
      · rintro (h | ⟨rfl,rfl⟩)
        · exact h
        · exact hm
    next =>
      simp only [List.mem_append,List.mem_singleton,InboxRow.mk.injEq]
      constructor
      · rintro (h | ⟨rfl,rfl⟩)
        · exact Or.inl h
        · exact Or.inr ⟨rfl,rfl⟩
      · rintro (h | ⟨rfl,rfl⟩)
        · exact Or.inl h
        · exact Or.inr ⟨rfl,rfl⟩

/-- How a call ends: `Option.none`, `Option.some`, a failure or an interruption, which may come
before the lookup. -/
inductive DedupeExit (A E : Type) where
  | none
  | some (result : A)
  | effectFailed (e : E)
  | persistenceFailed
  | interrupted (lookedUp : Bool)

inductive DedupePhase (A E : Type) where
  | seen
  | effect
  | markProcessed (result : A)
  | ended (exit : DedupeExit A E)

/-- A call of `dedupe`; `succeeded` records whether its effect ran to success. -/
structure DedupeCall (A E : Type) where
  consumerId : String
  messageId : String
  phase : DedupePhase A E
  succeeded : Bool

/-- What becomes of a mark: a failure reaches the caller before or after the write. -/
inductive MarkOutcome where
  | ok
  | failedBefore
  | failedAfter

structure Deliveries (S A E : Type) where
  inbox : S
  calls : Fibers (DedupeCall A E)

namespace Deliveries

inductive Label (A E : Type) where
  | dedupe (call : ℕ) (consumerId messageId : String)
  | seen (call : ℕ) (fails : Bool)
  | effect (call : ℕ) (outcome : Except E A)
  | markProcessed (call : ℕ) (outcome : MarkOutcome)
  | interrupt (call : ℕ)

variable {S A E : Type} (svc : InboxService S)

def step (s : Deliveries S A E) : Label A E → Option (Deliveries S A E)
  | .dedupe call consumerId messageId =>
    match s.calls call with
    | some _ => none
    | none => some {s with calls := s.calls.set call ⟨consumerId,messageId,.seen,false⟩}
  | .seen call fails =>
    match s.calls call with
    | some ⟨consumerId,messageId,.seen,succeeded⟩ => some {s with
        calls := s.calls.set call ⟨consumerId,messageId,
          if fails then .ended .persistenceFailed
          else if svc.seen s.inbox consumerId messageId then .ended .none else .effect,succeeded⟩}
    | _ => none
  | .effect call outcome =>
    match s.calls call with
    | some ⟨consumerId,messageId,.effect,succeeded⟩ => some {s with
        calls := s.calls.set call (match outcome with
          | .ok result => ⟨consumerId,messageId,.markProcessed result,true⟩
          | .error e => ⟨consumerId,messageId,.ended (.effectFailed e),succeeded⟩)}
    | _ => none
  | .markProcessed call outcome =>
    match s.calls call with
    | some ⟨consumerId,messageId,.markProcessed result,succeeded⟩ => some {
        inbox := match outcome with
          | .failedBefore => s.inbox
          | _ => svc.markProcessed s.inbox consumerId messageId
        calls := s.calls.set call ⟨consumerId,messageId,.ended (match outcome with
          | .ok => .some result
          | _ => .persistenceFailed),succeeded⟩}
    | _ => none
  | .interrupt call =>
    match s.calls call with
    | none | some ⟨_,_,.ended _,_⟩ => none
    | some ⟨consumerId,messageId,.seen,succeeded⟩ => some {s with
        calls := s.calls.set call ⟨consumerId,messageId,.ended (.interrupted false),succeeded⟩}
    | some c => some {s with calls := s.calls.set call {c with phase := .ended (.interrupted true)}}

def deliveries (svc : InboxService S) : System (Deliveries S A E) (Label A E) :=
  ⟨⟨svc.init,Fibers.empty⟩,step svc⟩

end Deliveries

namespace DedupeCall
variable {A E : Type}

def SameMessage (x y : DedupeCall A E) : Prop :=
  x.consumerId = y.consumerId ∧ x.messageId = y.messageId

def Begun (x : DedupeCall A E) : Prop :=
  match x.phase with
  | .seen | .ended (.interrupted false) => False
  | _ => True

/-- The call is between its lookup and its end, or its effect has succeeded. -/
def Active (x : DedupeCall A E) : Prop :=
  match x.phase with
  | .effect | .markProcessed _ => True
  | _ => x.succeeded = true

/-- Only a call whose effect has succeeded marks its message or answers its result. -/
def Sound (x : DedupeCall A E) : Prop :=
  match x.phase with
  | .seen | .ended (.interrupted false) => x.succeeded = false
  | .markProcessed _ | .ended (.some _) => x.succeeded = true
  | _ => True

theorem Sound.begun {x : DedupeCall A E} (h : x.Sound) (ha : x.Active) : x.Begun := by
  unfold Begun Active Sound at *
  split
  next hp =>
    rw [hp] at h ha
    exact Bool.false_ne_true (h.symm.trans ha)
  next hp =>
    rw [hp] at h ha
    exact Bool.false_ne_true (h.symm.trans ha)
  · trivial

theorem active_of_succeeded {x : DedupeCall A E} (h : x.succeeded = true) : x.Active := by
  unfold Active
  split
  · trivial
  · trivial
  · exact h

end DedupeCall

namespace Deliveries
variable {S A E K : Type} (svc : InboxService S) (key : String → String → K)

/-- A call looks its message up where no call for another message has its key and, unless the
message is marked, no other call for it is active. -/
def Alone (s : Deliveries S A E) : Label A E → Prop
  | .seen call _ => ∀ x, s.calls call = some x → ∀ other y, other ≠ call → s.calls other = some y →
    y.Begun → key y.consumerId y.messageId = key x.consumerId x.messageId →
    y.SameMessage x ∧ (svc.seen s.inbox x.consumerId x.messageId = false → ¬ y.Active)
  | _ => True

/-- For every message the effect runs to success in at most one call and the others answer none or
fail; only a success lets calls be skipped; without one the message stays unmarked and the next
lookup starts the effect. -/
structure Deduplicated (s : Deliveries S A E) : Prop where
  once : ∀ i j x y, s.calls i = some x → s.calls j = some y → x.SameMessage y →
    x.succeeded = true → y.succeeded = true → i = j
  others : ∀ i j x y, s.calls i = some x → s.calls j = some y → x.SameMessage y →
    x.succeeded = true → i ≠ j → ∀ result, y.phase ≠ .ended (.some result)
  unaffected : ∀ i x, s.calls i = some x → x.phase = .ended .none →
    ∃ j y, s.calls j = some y ∧ y.SameMessage x ∧ y.succeeded = true
  redelivered : ∀ i x, s.calls i = some x → x.Begun →
    (∀ j y, s.calls j = some y → y.SameMessage x → y.succeeded = false) →
    svc.seen s.inbox x.consumerId x.messageId = false ∧
      ∀ j y, s.calls j = some y → y.SameMessage x → y.phase = .seen →
        ∃ s', step svc s (.seen j false) = some s' ∧ s'.calls j = some {y with phase := .effect}

structure Inv (s : Deliveries S A E) : Prop where
  sound : s.calls.All DedupeCall.Sound
  sameKey : s.calls.Pairwise fun x y => x.Begun → y.Begun →
    key x.consumerId x.messageId = key y.consumerId y.messageId → x.SameMessage y
  alone : s.calls.Pairwise fun x y =>
    key x.consumerId x.messageId = key y.consumerId y.messageId → ¬ (x.Active ∧ y.Active)
  marked : ∀ consumerId messageId, svc.seen s.inbox consumerId messageId = true →
    ∃ i x, s.calls i = some x ∧ key x.consumerId x.messageId = key consumerId messageId ∧
      x.succeeded = true
  skipped : s.calls.All fun x => x.phase = .ended .none →
    ∃ j y, s.calls j = some y ∧ y.SameMessage x ∧ y.succeeded = true

variable {svc key} {s : Deliveries S A E} {i : ℕ} {x x' : DedupeCall A E}

/-- Every step but the first of a call writes its entry, which keeps the invariant if the new entry
is no more active than the old one or no other call for its key is. -/
theorem Inv.set (h : Inv svc key s) (hx : s.calls i = some x) (hsame : x'.SameMessage x)
    (hsucc : x.succeeded = true → x'.succeeded = true) (hsound : x'.Sound)
    (hbegun : x'.Begun → x.Begun ∨ ∀ j y, j ≠ i → s.calls j = some y → y.Begun →
      key y.consumerId y.messageId = key x.consumerId x.messageId → y.SameMessage x)
    (hactive : x'.Active → x.Active ∨ ∀ j y, j ≠ i → s.calls j = some y →
      key y.consumerId y.messageId = key x.consumerId x.messageId → ¬ y.Active)
    (hskip : x'.phase = .ended .none → x.phase = .ended .none ∨
      ∃ j y, s.calls j = some y ∧ y.SameMessage x ∧ y.succeeded = true)
    {inbox : S} (hinbox : ∀ consumerId messageId, svc.seen inbox consumerId messageId = true →
      svc.seen s.inbox consumerId messageId = true ∨
        x'.succeeded = true ∧ key x.consumerId x.messageId = key consumerId messageId) :
    Inv svc key (⟨inbox,s.calls.set i x'⟩ : Deliveries S A E) := by
  obtain ⟨hc,hm⟩ := hsame
  -- a succeeded call of before is found after the write
  have hkeep : ∀ j y, s.calls j = some y → y.succeeded = true → ∃ j' y',
      (s.calls.set i x') j' = some y' ∧ y'.SameMessage y ∧ y'.succeeded = true := by
    intro j y hy hys
    by_cases hn : j = i
    · subst hn
      obtain rfl := Option.some.inj (hx.symm.trans hy)
      exact ⟨j,x',Fibers.set_self ..,⟨hc,hm⟩,hsucc hys⟩
    · exact ⟨j,y,by rwa [Fibers.set_of_ne _ _ hn],⟨rfl,rfl⟩,hys⟩
  refine ⟨h.sound.set hsound,?_,?_,?_,?_⟩
  · refine h.sameKey.set ?_ ?_
    · intro f g hfg hg hf hk
      obtain ⟨h1,h2⟩ := hfg hf hg hk.symm
      exact ⟨h1.symm,h2.symm⟩
    · intro j y hj hy hxb hyb hk
      rw [hc,hm] at hk
      rcases hbegun hxb with hb | hb
      · obtain ⟨h1,h2⟩ := h.sameKey i j x y (Ne.symm hj) hx hy hb hyb hk
        exact ⟨hc.trans h1,hm.trans h2⟩
      · obtain ⟨h1,h2⟩ := hb j y hj hy hyb hk.symm
        exact ⟨hc.trans h1.symm,hm.trans h2.symm⟩
  · refine h.alone.set ?_ ?_
    · intro f g hfg hk ha
      exact hfg hk.symm ⟨ha.2,ha.1⟩
    · rintro j y hj hy hk ⟨ha,hya⟩
      rw [hc,hm] at hk
      rcases hactive ha with hxa | hno
      · exact h.alone i j x y (Ne.symm hj) hx hy hk ⟨hxa,hya⟩
      · exact hno j y hj hy hk.symm hya
  · intro consumerId messageId hs
    rcases hinbox consumerId messageId hs with hold | ⟨hxs,hk⟩
    · obtain ⟨j,y,hy,hyk,hys⟩ := h.marked consumerId messageId hold
      obtain ⟨j',y',hy',⟨h1,h2⟩,hys'⟩ := hkeep j y hy hys
      exact ⟨j',y',hy',by rwa [h1,h2],hys'⟩
    · exact ⟨i,x',Fibers.set_self ..,by rwa [hc,hm],hxs⟩
  · have hold : ∀ z : DedupeCall A E,
        (∃ j y, s.calls j = some y ∧ y.SameMessage z ∧ y.succeeded = true) →
        ∃ j y, (s.calls.set i x') j = some y ∧ y.SameMessage z ∧ y.succeeded = true := by
      rintro z ⟨j,y,hy,⟨h1,h2⟩,hys⟩
      obtain ⟨j',y',hy',⟨h3,h4⟩,hys'⟩ := hkeep j y hy hys
      exact ⟨j',y',hy',⟨h3.trans h1,h4.trans h2⟩,hys'⟩
    intro j z hz hphase
    rcases Fibers.set_cases hz with ⟨rfl,rfl⟩ | ⟨-,hz'⟩
    · refine hold z ?_
      rcases hskip hphase with hp | ⟨j',y,hy,⟨h1,h2⟩,hys⟩
      · obtain ⟨j',y,hy,⟨h1,h2⟩,hys⟩ := h.skipped j x hx hp
        exact ⟨j',y,hy,⟨h1.trans hc.symm,h2.trans hm.symm⟩,hys⟩
      · exact ⟨j',y,hy,⟨h1.trans hc.symm,h2.trans hm.symm⟩,hys⟩
    · exact hold z (h.skipped j z hz' hphase)

theorem Inv.dedupe (h : Inv svc key s) (hi : s.calls i = none) (consumerId messageId : String) :
    Inv svc key {s with calls := s.calls.set i ⟨consumerId,messageId,.seen,false⟩} := by
  have hkeep : ∀ j y, s.calls j = some y →
      (s.calls.set i ⟨consumerId,messageId,.seen,false⟩) j = some y := by
    intro j y hy
    have hn : j ≠ i := by
      rintro rfl
      rw [hi] at hy
      cases hy
    rwa [Fibers.set_of_ne _ _ hn]
  refine ⟨h.sound.set rfl,?_,?_,?_,?_⟩
  · refine h.sameKey.set ?_ ?_
    · intro f g hfg hg hf hk
      obtain ⟨h1,h2⟩ := hfg hf hg hk.symm
      exact ⟨h1.symm,h2.symm⟩
    · exact fun j y _ _ hb => hb.elim
  · refine h.alone.set ?_ ?_
    · intro f g hfg hk ha
      exact hfg hk.symm ⟨ha.2,ha.1⟩
    · exact fun j y _ _ _ ha => Bool.false_ne_true ha.1
  · intro consumerId' messageId' hs
    obtain ⟨j,y,hy,hk,hys⟩ := h.marked consumerId' messageId' hs
    exact ⟨j,y,hkeep j y hy,hk,hys⟩
  · intro j z hz hphase
    rcases Fibers.set_cases hz with ⟨rfl,rfl⟩ | ⟨-,hz'⟩
    · cases hphase
    · obtain ⟨j',y,hy,hsame,hys⟩ := h.skipped j z hz' hphase
      exact ⟨j',y,hkeep j' y hy,hsame,hys⟩

theorem Inv.step (hm : svc.Marks key) (h : Inv svc key s) {label : Label A E} {s' : Deliveries S A E}
    (ha : Alone svc key s label) (hs : step svc s label = some s') : Inv svc key s' := by
  cases label with
  | dedupe call consumerId messageId =>
    simp only [Deliveries.step] at hs
    split at hs
    · cases hs
    next hc =>
      obtain rfl := Option.some.inj hs
      exact h.dedupe hc consumerId messageId
  | seen call fails =>
    simp only [Deliveries.step] at hs
    split at hs
    next consumerId messageId succeeded hc =>
      obtain rfl := Option.some.inj hs
      have hfresh : succeeded = false := h.sound call _ hc
      subst hfresh
      refine h.set hc ?_ ?_ ?_ (fun _ => Or.inr ?_) ?_ ?_ fun _ _ hold => Or.inl hold
      · exact ⟨rfl,rfl⟩
      · exact id
      · unfold DedupeCall.Sound
        cases fails with
        | true => trivial
        | false => cases svc.seen s.inbox consumerId messageId <;> trivial
      · intro j y hj hy hb hk
        exact (ha _ hc j y hj hy hb hk).1
      · intro hact
        right
        intro j y hj hy hk hya
        have hyb := (h.sound j y hy).begun hya
        refine (ha _ hc j y hj hy hyb hk).2 ?_ hya
        by_contra hseen
        rw [Bool.not_eq_false] at hseen
        rw [hseen] at hact
        cases fails <;> exact Bool.false_ne_true hact
      · intro hphase
        right
        have hseen : svc.seen s.inbox consumerId messageId = true := by
          by_contra hseen
          rw [Bool.not_eq_true] at hseen
          simp only [hseen] at hphase
          split at hphase <;> cases hphase
        obtain ⟨j,y,hy,hk,hys⟩ := h.marked consumerId messageId hseen
        have hj : j ≠ call := by
          rintro rfl
          obtain rfl := Option.some.inj (hc.symm.trans hy)
          cases hys
        have hyb := (h.sound j y hy).begun (DedupeCall.active_of_succeeded hys)
        exact ⟨j,y,hy,(ha _ hc j y hj hy hyb hk).1,hys⟩
    · cases hs
  | effect call outcome =>
    simp only [Deliveries.step] at hs
    split at hs
    next consumerId messageId succeeded hc =>
      obtain rfl := Option.some.inj hs
      have hb : DedupeCall.Begun (⟨consumerId,messageId,.effect,succeeded⟩ : DedupeCall A E) := trivial
      cases outcome with
      | ok result =>
        refine h.set hc ?_ ?_ ?_ (fun _ => Or.inl hb) (fun _ => Or.inl trivial) ?_ fun _ _ hold => Or.inl hold
        · exact ⟨rfl,rfl⟩
        · exact fun _ => rfl
        · exact rfl
        · exact fun hp => by cases hp
      | error e =>
        refine h.set hc ?_ ?_ ?_ (fun _ => Or.inl hb) (fun _ => Or.inl trivial) ?_ fun _ _ hold => Or.inl hold
        · exact ⟨rfl,rfl⟩
        · exact id
        · trivial
        · exact fun hp => by cases hp
    · cases hs
  | markProcessed call outcome =>
    simp only [Deliveries.step] at hs
    split at hs
    next consumerId messageId result succeeded hc =>
      obtain rfl := Option.some.inj hs
      have hsucc : succeeded = true := h.sound call _ hc
      subst hsucc
      have hb : DedupeCall.Begun
          (⟨consumerId,messageId,.markProcessed result,true⟩ : DedupeCall A E) := trivial
      refine h.set hc ?_ ?_ ?_ (fun _ => Or.inl hb) (fun _ => Or.inl trivial) ?_ ?_
      · exact ⟨rfl,rfl⟩
      · exact fun _ => rfl
      · cases outcome <;> trivial
      · intro hp
        cases outcome <;> cases hp
      · intro consumerId' messageId' hold
        cases outcome with
        | failedBefore => exact Or.inl hold
        | ok | failedAfter =>
          rcases (hm.markProcessed _ _ _ _ _).mp hold with hold | hk
          · exact Or.inl hold
          · exact Or.inr ⟨rfl,hk⟩
    · cases hs
  | interrupt call =>
    simp only [Deliveries.step] at hs
    split at hs
    · cases hs
    · cases hs
    next consumerId messageId succeeded hc =>
      obtain rfl := Option.some.inj hs
      have hfresh : succeeded = false := h.sound call _ hc
      refine h.set hc ?_ ?_ ?_ ?_ ?_ ?_ fun _ _ hold => Or.inl hold
      · exact ⟨rfl,rfl⟩
      · exact id
      · exact hfresh
      · exact fun hb => hb.elim
      · exact fun hact => Or.inl hact
      · exact fun hp => by cases hp
    next c hended hseen hc =>
      obtain rfl := Option.some.inj hs
      have hb : c.Begun := by
        obtain ⟨consumerId,messageId,phase,succeeded⟩ := c
        cases phase with
        | seen => exact absurd rfl (hseen consumerId messageId succeeded)
        | ended exit => exact absurd rfl (hended consumerId messageId exit succeeded)
        | effect => trivial
        | markProcessed result => trivial
      refine h.set hc ?_ ?_ ?_ (fun _ => Or.inl hb) ?_ ?_ fun _ _ hold => Or.inl hold
      · exact ⟨rfl,rfl⟩
      · exact id
      · trivial
      · exact fun hact => Or.inl (DedupeCall.active_of_succeeded hact)
      · exact fun hp => by cases hp

theorem inv_init (hm : svc.Marks key) : Inv svc key (deliveries (A := A) (E := E) svc).init := by
  refine ⟨Fibers.all_empty _,Fibers.pairwise_empty _,Fibers.pairwise_empty _,?_,Fibers.all_empty _⟩
  intro consumerId messageId hs
  exact absurd ((hm.init consumerId messageId).symm.trans hs) Bool.false_ne_true

theorem Inv.deduplicated (h : Inv svc key s) : Deduplicated svc s where
  once := by
    intro i j x y hx hy hsame hxs hys
    by_contra hne
    have hk : key x.consumerId x.messageId = key y.consumerId y.messageId := by
      rw [hsame.1,hsame.2]
    exact h.alone i j x y hne hx hy hk
      ⟨DedupeCall.active_of_succeeded hxs,DedupeCall.active_of_succeeded hys⟩
  others := by
    intro i j x y hx hy hsame hxs hne result hphase
    have hk : key x.consumerId x.messageId = key y.consumerId y.messageId := by
      rw [hsame.1,hsame.2]
    have hys : y.succeeded = true := by
      have hsound := h.sound j y hy
      unfold DedupeCall.Sound at hsound
      rwa [hphase] at hsound
    exact h.alone i j x y hne hx hy hk
      ⟨DedupeCall.active_of_succeeded hxs,DedupeCall.active_of_succeeded hys⟩
  unaffected := h.skipped
  redelivered := by
    intro i x hx hb hno
    have hseen : svc.seen s.inbox x.consumerId x.messageId = false := by
      by_contra hc
      rw [Bool.not_eq_false] at hc
      obtain ⟨j,y,hy,hk,hys⟩ := h.marked _ _ hc
      have hyb := (h.sound j y hy).begun (DedupeCall.active_of_succeeded hys)
      have hsame : y.SameMessage x := by
        by_cases hn : j = i
        · subst hn
          obtain rfl := Option.some.inj (hx.symm.trans hy)
          exact ⟨rfl,rfl⟩
        · exact h.sameKey j i y x hn hy hx hyb hb hk
      rw [hno j y hy hsame] at hys
      cases hys
    refine ⟨hseen,?_⟩
    intro j y hy hsame hphase
    obtain ⟨consumerId,messageId,phase,succeeded⟩ := y
    obtain ⟨rfl,rfl⟩ := hsame
    obtain rfl : phase = .seen := hphase
    refine ⟨_,by rw [Deliveries.step,hy],?_⟩
    simp only [Fibers.set_self,Bool.false_eq_true,if_false,hseen]

/-- In the runs whose lookups are alone with their message, deliveries are deduplicated. -/
theorem deduplicated_of_reaches (hm : svc.Marks key)
    (h : (deliveries svc).Reaches (Alone svc key) s) : Deduplicated svc s := by
  have hi : Inv svc key s := by
    refine h.invariant (Inv svc key) (inv_init hm) ?_
    intro a label b ha hl hs
    exact ha.step hm hl hs
  exact hi.deduplicated

/-- Over either inbox, for calls of any consumers and messages with any effects. -/
theorem inbox_deduplicates :
    (∀ s : Deliveries (Finset String) A E,
      (deliveries inMemoryInbox).Reaches (Alone inMemoryInbox inboxKey) s →
        Deduplicated inMemoryInbox s) ∧
    ∀ s : Deliveries (List InboxRow) A E,
      (deliveries pgInbox).Reaches (Alone pgInbox Prod.mk) s → Deduplicated pgInbox s :=
  ⟨fun _ h => deduplicated_of_reaches inMemoryInbox_marks h,
    fun _ h => deduplicated_of_reaches pgInbox_marks h⟩

/-- A message delivered twice, the second time after the first call has ended. -/
def deliverTwice : List (Label Unit Empty) :=
  [.dedupe 0 "billing" "m1",.seen 0 false,.effect 0 (.ok ()),.markProcessed 0 .ok,
    .dedupe 1 "billing" "m1",.seen 1 false]

theorem inbox_deduplicates_twice :
    ∃ s, (deliveries pgInbox).run deliverTwice = some s ∧ Deduplicated pgInbox s := by
  have r0 : (deliveries pgInbox).Reaches (Alone pgInbox Prod.mk)
      (deliveries (A := Unit) (E := Empty) pgInbox).init := Relation.ReflTransGen.refl
  have r1 := r0.step (l := .dedupe 0 "billing" "m1") (by exact trivial) rfl
  have r2 := r1.step (l := .seen 0 false) (by
    intro x _ other y hne hy
    rcases Fibers.set_cases hy with ⟨rfl,-⟩ | ⟨-,hy⟩
    · exact absurd rfl hne
    · cases hy) rfl
  have r3 := r2.step (l := .effect 0 (.ok ())) (by exact trivial) rfl
  have r4 := r3.step (l := .markProcessed 0 .ok) (by exact trivial) rfl
  have r5 := r4.step (l := .dedupe 1 "billing" "m1") (by exact trivial) rfl
  have r6 := r5.step (l := .seen 1 false) (by
    intro x hx other y hne hy _ hk
    refine ⟨Prod.mk.inj hk,?_⟩
    intro hseen
    obtain rfl := Option.some.inj hx
    exact absurd hseen (by decide)) rfl
  exact ⟨_,rfl,inbox_deduplicates.2 _ r6⟩

/-- Two overlapping calls both find the message unseen, and the effect succeeds in both. -/
def deliverOverlapping : List (Label Unit Empty) :=
  [.dedupe 0 "billing" "m1",.dedupe 1 "billing" "m1",.seen 0 false,.seen 1 false,
    .effect 0 (.ok ()),.effect 1 (.ok ())]

theorem overlapping_deliveries_both_run :
    ¬ ((∀ s : Deliveries (Finset String) Unit Empty,
        (deliveries inMemoryInbox).Reachable s → Deduplicated inMemoryInbox s) ∧
      ∀ s : Deliveries (List InboxRow) Unit Empty,
        (deliveries pgInbox).Reachable s → Deduplicated pgInbox s) := by
  rintro ⟨-,h⟩
  have hr := System.run_reachable
    (show (deliveries pgInbox).run deliverOverlapping = some _ from rfl)
  exact absurd ((h _ hr).once 0 1 _ _ rfl rfl ⟨rfl,rfl⟩ rfl rfl) (by decide)

end Deliveries
end StructureAi.EventSourcing

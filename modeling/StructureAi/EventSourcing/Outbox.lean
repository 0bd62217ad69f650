import StructureAi.EventSourcing.Events
import StructureAi.Foundation.Run
import StructureAi.Foundation.Table

/-! # The outbox port

Messages are staged, claimed under a lease and settled. An outbox is read as a
list of slots in enqueue order, each an entry with the claim it is under; the
operations act on the slots, and an adapter decides which of them a settlement
reaches.
-/
namespace StructureAi.EventSourcing
open StructureAi.Foundation

/-- Times are epoch milliseconds. -/
structure OutboxMessage where
  id : String
  topic : String
  payload : Json
  metadata : Json
  availableAt : Option ℚ := none
deriving DecidableEq

inductive OutboxStatus where
  | pending
  | published
  | dead
deriving DecidableEq

structure OutboxEntry where
  message : OutboxMessage
  status : OutboxStatus
  attempts : ℤ
  lastError : Option String := none
  availableAt : Option ℚ := none
deriving DecidableEq

/-- A duration in milliseconds; `Duration.toMillis` is never negative. -/
structure Duration where
  millis : ℚ
  nonneg : 0 ≤ millis

theorem thirtySeconds_nonneg : (0 : ℚ) ≤ 30000 := by norm_num

/-- Delivery ownership: the token of a claim and when its lease lapses. -/
structure ClaimState (τ : Type) where
  token : τ
  leaseUntil : ℚ
deriving DecidableEq

/-- What `claim` answers. -/
structure OutboxClaim (τ : Type) where
  entries : List OutboxEntry
  token : τ
  leaseUntil : ℚ
deriving DecidableEq

/-- A call of the port under the clock reading `now`; a claim token is given where the caller
passes one, and `uuid` is what `randomUUID` answers. -/
inductive OutboxCall (τ : Type) where
  | enqueue (messages : List OutboxMessage)
  | pending (limit : ℕ) (now : ℚ)
  | claim (limit : ℕ) (lease : Duration) (now : ℚ) (uuid : String)
  | markPublished (ids : List String) (claim : Option τ)
  | markFailed (id : String) (error : String) (attempts : ℤ) (retryAt : Option ℚ) (claim : Option τ)
  | markDead (id : String) (error : String) (claim : Option τ)
  | replay (ids : List String)
  | deadLetters

inductive OutboxAnswer (τ : Type) where
  | done
  | entries (answer : Except PersistenceError (List OutboxEntry))
  | claimed (answer : Except PersistenceError (OutboxClaim τ))
  | applied (answer : Bool)

namespace OutboxEntry

def id (e : OutboxEntry) : String := e.message.id

/-- A message as `enqueue` stages it. -/
def staged (message : OutboxMessage) : OutboxEntry where
  message := message
  status := .pending
  attempts := 0
  availableAt := message.availableAt

def due (e : OutboxEntry) (now : ℚ) : Bool :=
  match e.availableAt with
  | none => true
  | some availableAt => availableAt ≤ now

def publish (e : OutboxEntry) : OutboxEntry := {e with status := .published}

def fail (error : String) (attempts : ℤ) (retryAt : Option ℚ) (e : OutboxEntry) : OutboxEntry :=
  {e with attempts := attempts, lastError := some error, availableAt := retryAt}

def bury (error : String) (e : OutboxEntry) : OutboxEntry :=
  {e with status := .dead, lastError := some error}

def requeue (e : OutboxEntry) : OutboxEntry :=
  {e with status := .pending, attempts := 0, lastError := none, availableAt := none}

/-- An entry without the schedule its message was enqueued with. -/
def unscheduled (e : OutboxEntry) : OutboxEntry := {e with message := {e.message with availableAt := none}}

@[simp] theorem id_publish (e : OutboxEntry) : e.publish.id = e.id := rfl

@[simp] theorem id_fail (error : String) (attempts : ℤ) (retryAt : Option ℚ) (e : OutboxEntry) :
    (e.fail error attempts retryAt).id = e.id := rfl

@[simp] theorem id_bury (error : String) (e : OutboxEntry) : (e.bury error).id = e.id := rfl

@[simp] theorem id_requeue (e : OutboxEntry) : e.requeue.id = e.id := rfl

@[simp] theorem id_staged (message : OutboxMessage) : (staged message).id = message.id := rfl

end OutboxEntry

/-- Whether a claim no longer keeps an entry from being delivered. -/
def leaseLapsed {τ : Type} (claim : Option (ClaimState τ)) (now : ℚ) : Bool :=
  match claim with
  | none => true
  | some claim => claim.leaseUntil ≤ now

/-- An entry and the claim it is under. -/
structure OutboxSlot (τ : Type) where
  entry : OutboxEntry
  claim : Option (ClaimState τ) := none
deriving DecidableEq

namespace OutboxSlot
variable {τ : Type}

def id (x : OutboxSlot τ) : String := x.entry.id

@[simp] theorem id_mk (e : OutboxEntry) (c : Option (ClaimState τ)) : (⟨e,c⟩ : OutboxSlot τ).id = e.id := rfl

def claimable (now : ℚ) (x : OutboxSlot τ) : Bool :=
  x.entry.status = .pending && x.entry.due now && leaseLapsed x.claim now

theorem pending_of_claimable {now : ℚ} {x : OutboxSlot τ} (h : x.claimable now = true) :
    x.entry.status = .pending := by
  simp only [claimable,Bool.and_eq_true,decide_eq_true_eq] at h
  exact h.1.1

def claimedAs (token : τ) (leaseUntil : ℚ) (x : OutboxSlot τ) : OutboxSlot τ :=
  {x with claim := some ⟨token,leaseUntil⟩}

/-- Held under the token, whether or not its lease has lapsed. -/
def heldUnder [DecidableEq τ] (token : τ) (x : OutboxSlot τ) : Bool :=
  match x.claim with
  | none => false
  | some c => c.token = token

/-- Whether a settlement with this token, or without one, may reach the slot. -/
def ownedBy [DecidableEq τ] (claim : Option τ) (x : OutboxSlot τ) : Bool :=
  match claim with
  | none => true
  | some token => x.heldUnder token

def publish (x : OutboxSlot τ) : OutboxSlot τ := ⟨x.entry.publish,none⟩

def fail (error : String) (attempts : ℤ) (retryAt : Option ℚ) (x : OutboxSlot τ) : OutboxSlot τ :=
  {x with entry := x.entry.fail error attempts retryAt}

def bury (error : String) (x : OutboxSlot τ) : OutboxSlot τ := ⟨x.entry.bury error,none⟩

def requeue (x : OutboxSlot τ) : OutboxSlot τ := ⟨x.entry.requeue,none⟩

end OutboxSlot

abbrev OutboxSlots (τ : Type) := List (OutboxSlot τ)

namespace OutboxSlots
variable {τ : Type} (slots : OutboxSlots τ)

def enqueue (messages : List OutboxMessage) : OutboxSlots τ :=
  messages.foldl (fun slots message =>
    if slots.any (fun x => x.id = message.id) then slots else slots ++ [⟨.staged message,none⟩]) slots

def pending (limit : ℕ) (now : ℚ) : List OutboxEntry :=
  ((slots.filter fun x => x.claimable now).take limit).map OutboxSlot.entry

def claim (limit : ℕ) (now : ℚ) (token : τ) (leaseUntil : ℚ) : OutboxSlots τ :=
  updateFirst limit (fun x => x.claimable now) (fun x => x.claimedAs token leaseUntil) slots

def deadLetters : List OutboxEntry :=
  (slots.filter fun x => x.entry.status = .dead).map OutboxSlot.entry

/-- Ids are unique and only pending entries are claimed. -/
structure WellFormed : Prop where
  ids : (slots.map OutboxSlot.id).Nodup
  claimed : ∀ x ∈ slots, x.claim ≠ none → x.entry.status = .pending

variable {slots}

theorem WellFormed.updateWhere {p : OutboxSlot τ → Bool} {f : OutboxSlot τ → OutboxSlot τ}
    (h : slots.WellFormed) (hid : ∀ x, (f x).id = x.id)
    (hf : ∀ x ∈ slots, p x = true → (f x).claim ≠ none → (f x).entry.status = .pending) :
    WellFormed (updateWhere p f slots) := by
  constructor
  · have hids : (Foundation.updateWhere p f slots).map OutboxSlot.id = slots.map OutboxSlot.id := by
      rw [Foundation.updateWhere,List.map_map]
      refine List.map_congr_left fun x _ => ?_
      rw [Function.comp_apply]
      split
      · exact hid x
      · rfl
    rw [hids]
    exact h.ids
  · intro x hx hc
    obtain ⟨y,hy,rfl⟩ := List.mem_map.mp hx
    by_cases hp : p y = true
    · rw [if_pos hp] at hc ⊢
      exact hf y hy hp hc
    · rw [if_neg hp] at hc ⊢
      exact h.claimed y hy hc

theorem WellFormed.enqueue (h : slots.WellFormed) (messages : List OutboxMessage) :
    (slots.enqueue messages).WellFormed := by
  unfold OutboxSlots.enqueue
  induction messages generalizing slots with
  | nil => exact h
  | cons message messages ih =>
    rw [List.foldl_cons]
    refine ih ?_
    split
    · exact h
    next hnew =>
      have hnew' : ∀ x ∈ slots, ¬ x.id = message.id := by simpa using hnew
      constructor
      · rw [List.map_append,List.nodup_append]
        refine ⟨h.ids,List.nodup_singleton _,?_⟩
        rintro a ha b hb rfl
        obtain ⟨x,hx,rfl⟩ := List.mem_map.mp ha
        exact hnew' x hx (List.mem_singleton.mp hb)
      · intro x hx hc
        rcases List.mem_append.mp hx with hx | hx
        · exact h.claimed x hx hc
        · rw [List.mem_singleton.mp hx] at hc
          exact absurd rfl hc

theorem mem_enqueue {messages : List OutboxMessage} {x : OutboxSlot τ} (h : x ∈ slots.enqueue messages) :
    x ∈ slots ∨ x.claim = none := by
  unfold OutboxSlots.enqueue at h
  induction messages generalizing slots with
  | nil => exact Or.inl h
  | cons message messages ih =>
    rw [List.foldl_cons] at h
    rcases ih h with h | h
    · split at h
      · exact Or.inl h
      · rcases List.mem_append.mp h with h | h
        · exact Or.inl h
        · rw [List.mem_singleton.mp h]
          exact Or.inr rfl
    · exact Or.inr h

theorem claim_ids (slots : OutboxSlots τ) (limit : ℕ) (now : ℚ) (token : τ) (leaseUntil : ℚ) :
    (slots.claim limit now token leaseUntil).map OutboxSlot.id = slots.map OutboxSlot.id := by
  unfold OutboxSlots.claim
  induction slots generalizing limit with
  | nil => cases limit <;> rfl
  | cons x slots ih =>
    cases limit with
    | zero => rfl
    | succ limit =>
      rw [updateFirst]
      split <;> rw [List.map_cons,List.map_cons,ih]
      rfl

theorem mem_claim {limit : ℕ} {now : ℚ} {token : τ} {leaseUntil : ℚ} {x : OutboxSlot τ}
    (h : x ∈ slots.claim limit now token leaseUntil) :
    x ∈ slots ∨ ∃ y ∈ (slots.filter fun x => x.claimable now).take limit,
      x = y.claimedAs token leaseUntil :=
  mem_updateFirst h

theorem WellFormed.claim (h : slots.WellFormed) (limit : ℕ) (now : ℚ) (token : τ) (leaseUntil : ℚ) :
    (slots.claim limit now token leaseUntil).WellFormed := by
  constructor
  · rw [claim_ids]
    exact h.ids
  · intro x hx hc
    rcases mem_claim hx with hx | ⟨y,hy,rfl⟩
    · exact h.claimed x hx hc
    · have hp := OutboxSlot.pending_of_claimable (List.mem_filter.mp (List.mem_of_mem_take hy)).2
      exact hp

def HeldAs (slots : OutboxSlots τ) (id : String) (c : ClaimState τ) : Prop :=
  ∃ y ∈ slots, y.id = id ∧ y.claim = some c

def PublishedIn (slots : OutboxSlots τ) (id : String) : Prop :=
  ∃ y ∈ slots, y.id = id ∧ y.entry.status = .published

theorem subset_enqueue (messages : List OutboxMessage) {y : OutboxSlot τ} (hy : y ∈ slots) :
    y ∈ slots.enqueue messages := by
  unfold OutboxSlots.enqueue
  induction messages generalizing slots with
  | nil => exact hy
  | cons message messages ih =>
    rw [List.foldl_cons]
    refine ih ?_
    split
    · exact hy
    · exact List.mem_append_left _ hy

theorem mem_claim_of_not_claimable {limit : ℕ} {now : ℚ} {token : τ} {leaseUntil : ℚ}
    {y : OutboxSlot τ} (hy : y ∈ slots) (hc : y.claimable now = false) :
    y ∈ slots.claim limit now token leaseUntil := by
  unfold OutboxSlots.claim
  induction slots generalizing limit with
  | nil => cases hy
  | cons z slots ih =>
    cases limit with
    | zero => exact hy
    | succ limit =>
      rw [updateFirst]
      rcases List.mem_cons.mp hy with rfl | hy
      · rw [if_neg (by rw [hc]; exact Bool.false_ne_true)]
        exact List.mem_cons_self
      · split <;> exact List.mem_cons_of_mem _ (ih hy)

theorem heldAs_of_claimed {limit : ℕ} {now : ℚ} (token : τ) (leaseUntil : ℚ) {e : OutboxEntry}
    (he : e ∈ slots.pending limit now) :
    (slots.claim limit now token leaseUntil).HeldAs e.id ⟨token,leaseUntil⟩ := by
  obtain ⟨y,hy,rfl⟩ := List.mem_map.mp he
  clear he
  unfold OutboxSlots.claim
  induction slots generalizing limit with
  | nil => cases limit <;> cases hy
  | cons z slots ih =>
    cases limit with
    | zero => cases hy
    | succ limit =>
      rw [updateFirst]
      split
      next hc =>
        rw [List.filter_cons_of_pos hc,List.take_succ_cons] at hy
        rcases List.mem_cons.mp hy with rfl | hy
        · exact ⟨_,List.mem_cons_self,rfl,rfl⟩
        · obtain ⟨u,hu,hh⟩ := ih hy
          exact ⟨u,List.mem_cons_of_mem _ hu,hh⟩
      next hc =>
        rw [List.filter_cons_of_neg hc] at hy
        obtain ⟨u,hu,hh⟩ := ih hy
        exact ⟨u,List.mem_cons_of_mem _ hu,hh⟩

theorem WellFormed.pending_ids (h : slots.WellFormed) (limit : ℕ) (now : ℚ) :
    ((slots.pending limit now).map OutboxEntry.id).Nodup := by
  have hsub : ((slots.pending limit now).map OutboxEntry.id).Sublist (slots.map OutboxSlot.id) := by
    rw [pending,List.map_map]
    exact ((List.take_sublist _ _).trans List.filter_sublist).map OutboxSlot.id
  exact hsub.nodup h.ids

/-- A claim hands out what a `pending` call at the same time answers. -/
theorem claimed_entries [DecidableEq τ] {token : τ} (hfresh : ∀ x ∈ slots, x.heldUnder token = false)
    (limit : ℕ) (now leaseUntil : ℚ) :
    ((slots.claim limit now token leaseUntil).filter fun x => x.heldUnder token).map OutboxSlot.entry =
      slots.pending limit now := by
  unfold OutboxSlots.claim OutboxSlots.pending
  induction slots generalizing limit with
  | nil => cases limit <;> rfl
  | cons x slots ih =>
    obtain ⟨hx,hslots⟩ := List.forall_mem_cons.mp hfresh
    have hskip : (x :: slots).filter (fun x => x.heldUnder token) =
        slots.filter fun x => x.heldUnder token := List.filter_cons_of_neg (by rw [hx]; simp)
    cases limit with
    | zero =>
      rw [updateFirst,hskip,List.filter_eq_nil_iff.mpr fun y hy => by rw [hslots y hy]; simp]
      rfl
    | succ limit =>
      rw [updateFirst]
      split
      next hc =>
        have hheld : (x.claimedAs token leaseUntil).heldUnder token = true := decide_eq_true rfl
        rw [List.filter_cons_of_pos hheld,List.filter_cons_of_pos hc,List.take_succ_cons,List.map_cons,
          List.map_cons,ih hslots limit]
        rfl
      next hc =>
        rw [List.filter_cons_of_neg (by rw [hx]; simp),List.filter_cons_of_neg hc]
        exact ih hslots (limit + 1)

end OutboxSlots

section MapToken
variable {σ τ : Type} (f : σ → τ)

def OutboxSlot.mapToken (x : OutboxSlot σ) : OutboxSlot τ :=
  ⟨x.entry,x.claim.map fun c => ⟨f c.token,c.leaseUntil⟩⟩

def OutboxSlots.mapToken (slots : OutboxSlots σ) : OutboxSlots τ := slots.map (OutboxSlot.mapToken f)

variable {f} {slots : OutboxSlots σ}

theorem OutboxSlot.claimable_mapToken (now : ℚ) (x : OutboxSlot σ) :
    (x.mapToken f).claimable now = x.claimable now := by
  unfold claimable mapToken
  cases x.claim <;> rfl

theorem OutboxSlots.enqueue_mapToken (messages : List OutboxMessage) :
    (slots.mapToken f).enqueue messages = (slots.enqueue messages).mapToken f := by
  unfold OutboxSlots.enqueue
  induction messages generalizing slots with
  | nil => rfl
  | cons message messages ih =>
    rw [List.foldl_cons,List.foldl_cons]
    have hany : (slots.mapToken f).any (fun x => x.id = message.id) =
        slots.any fun x => x.id = message.id := by
      rw [mapToken,List.any_map]
      rfl
    rw [hany]
    split
    next => exact ih
    next =>
      have happ : slots.mapToken f ++ [⟨.staged message,none⟩] =
          OutboxSlots.mapToken f (slots ++ [⟨.staged message,none⟩]) := by
        rw [mapToken,mapToken,List.map_append]
        rfl
      rw [happ]
      exact ih

theorem OutboxSlots.pending_mapToken (limit : ℕ) (now : ℚ) :
    (slots.mapToken f).pending limit now = slots.pending limit now := by
  have hp : (fun x : OutboxSlot τ => x.claimable now) ∘ OutboxSlot.mapToken f =
      fun x : OutboxSlot σ => x.claimable now := funext fun x => OutboxSlot.claimable_mapToken now x
  rw [pending,mapToken,List.filter_map,hp,← List.map_take,List.map_map]
  rfl

theorem OutboxSlots.deadLetters_mapToken : (slots.mapToken f).deadLetters = slots.deadLetters := by
  rw [deadLetters,mapToken,List.filter_map,List.map_map]
  rfl

theorem OutboxSlots.claim_mapToken (slots : OutboxSlots σ) (limit : ℕ) (now : ℚ) (token : σ)
    (leaseUntil : ℚ) :
    (slots.mapToken f).claim limit now (f token) leaseUntil =
      (slots.claim limit now token leaseUntil).mapToken f := by
  refine (map_updateFirst limit (fun x _ => OutboxSlot.claimable_mapToken now x) fun x _ _ => ?_).symm
  rfl

theorem OutboxSlots.mapToken_congr {g : σ → τ}
    (h : ∀ x ∈ slots, ∀ c, x.claim = some c → f c.token = g c.token) :
    slots.mapToken f = slots.mapToken g := by
  refine List.map_congr_left fun x hx => ?_
  unfold OutboxSlot.mapToken
  cases hc : x.claim with
  | none => rfl
  | some c => rw [Option.map_some,Option.map_some,h x hx c hc]

theorem OutboxSlot.heldUnder_mapToken [DecidableEq σ] [DecidableEq τ] {token : σ} {x : OutboxSlot σ}
    (h : ∀ c, x.claim = some c → f c.token = f token → c.token = token) :
    (x.mapToken f).heldUnder (f token) = x.heldUnder token := by
  unfold heldUnder mapToken
  cases hc : x.claim with
  | none => rfl
  | some c =>
    simp only [Option.map_some,decide_eq_decide]
    exact ⟨h c hc,congrArg f⟩

end MapToken
end StructureAi.EventSourcing

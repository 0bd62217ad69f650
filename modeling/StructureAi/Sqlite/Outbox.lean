import StructureAi.EventSourcing.Outbox

/-! # The SQLite outbox

The table is the list of its rows in `rowid` order. Payload and metadata are
JSON text; a message's own schedule is kept only as the entry's availability.
-/
namespace StructureAi.Sqlite
open StructureAi.Foundation StructureAi.EventSourcing

structure OutboxRow where
  id : String
  topic : String
  payload : String
  metadata : String
  status : OutboxStatus
  attempts : ℤ
  lastError : Option String
  availableAt : Option ℚ
  claimToken : Option String
  leaseUntil : Option ℚ
deriving DecidableEq

namespace OutboxRow

def decodeEntry (row : OutboxRow) : Option OutboxEntry := do
  return {
    message := {
      id := row.id
      topic := row.topic
      payload := ← Json.parse row.payload
      metadata := ← Json.parse row.metadata }
    status := row.status
    attempts := row.attempts
    lastError := row.lastError
    availableAt := row.availableAt }

def ofMessage (message : OutboxMessage) : OutboxRow where
  id := message.id
  topic := message.topic
  payload := message.payload.stringify
  metadata := message.metadata.stringify
  status := .pending
  attempts := 0
  lastError := none
  availableAt := message.availableAt
  claimToken := none
  leaseUntil := none

/-- The condition of `pending` and of the subselect of `claim`. -/
def claimable (now : ℚ) (row : OutboxRow) : Bool :=
  row.status = .pending && (match row.availableAt with
      | none => true
      | some availableAt => availableAt ≤ now) &&
    (row.claimToken = none || match row.leaseUntil with
      | none => true
      | some leaseUntil => leaseUntil ≤ now)

/-- The condition of the settlements, for the rows of some ids. -/
def settles (ids : List String) (claim : Option String) (row : OutboxRow) : Bool :=
  row.id ∈ ids && row.status = .pending && match claim with
    | none => true
    | some claim => row.claimToken = some claim

end OutboxRow

abbrev OutboxTable := List OutboxRow

namespace OutboxTable
variable (rows : OutboxTable)

def enqueue (messages : List OutboxMessage) : OutboxTable :=
  messages.foldl (fun rows message =>
    if rows.any (fun r => r.id = message.id) then rows else rows ++ [.ofMessage message]) rows

/-- The entries of selected rows, or the failure to decode one. -/
def decoded (rows : List OutboxRow) : Except PersistenceError (List OutboxEntry) :=
  match rows.mapM OutboxRow.decodeEntry with
  | none => .error ⟨"outbox.decode"⟩
  | some entries => .ok entries

def pending (limit : ℕ) (now : ℚ) : Except PersistenceError (List OutboxEntry) :=
  decoded ((rows.filter (OutboxRow.claimable now)).take limit)

/-- The update of `claim` and the select that follows it. -/
def claim (limit : ℕ) (lease : Duration) (now : ℚ) (token : String) :
    OutboxTable × Except PersistenceError (OutboxClaim String) :=
  let leaseUntil := now + lease.millis
  let claimed := (rows.filter (OutboxRow.claimable now)).take limit
  let rows' := updateFirst limit (OutboxRow.claimable now)
    (fun r => {r with claimToken := some token, leaseUntil := some leaseUntil}) rows
  (rows',if claimed.length = 0 then .ok ⟨[],token,leaseUntil⟩
    else (decoded (rows'.filter fun r => r.claimToken = some token)).map fun entries =>
      ⟨entries,token,leaseUntil⟩)

def publish (row : OutboxRow) : OutboxRow :=
  {row with status := .published, claimToken := none, leaseUntil := none}

def fail (error : String) (attempts : ℤ) (retryAt : Option ℚ) (row : OutboxRow) : OutboxRow :=
  {row with attempts := attempts, lastError := some error, availableAt := retryAt}

def bury (error : String) (row : OutboxRow) : OutboxRow :=
  {row with status := .dead, lastError := some error, claimToken := none, leaseUntil := none}

def requeue (row : OutboxRow) : OutboxRow :=
  {row with status := .pending, attempts := 0, lastError := none, availableAt := none
            claimToken := none, leaseUntil := none}

/-- An `UPDATE … RETURNING id` and whether it returned any row. -/
def settle (p : OutboxRow → Bool) (f : OutboxRow → OutboxRow) : Bool × OutboxTable :=
  ((rows.filter p).length > 0,updateWhere p f rows)

def markPublished (ids : List String) (claim : Option String) : Bool × OutboxTable :=
  if ids.length = 0 then (false,rows) else settle rows (OutboxRow.settles ids claim) publish

def markFailed (id error : String) (attempts : ℤ) (retryAt : Option ℚ) (claim : Option String) :
    Bool × OutboxTable :=
  settle rows (OutboxRow.settles [id] claim) (fail error attempts retryAt)

def markDead (id error : String) (claim : Option String) : Bool × OutboxTable :=
  settle rows (OutboxRow.settles [id] claim) (bury error)

def replay (ids : List String) : OutboxTable :=
  if ids.length = 0 then rows
  else updateWhere (fun r => r.id ∈ ids && r.status = .dead) requeue rows

def deadLetters : Except PersistenceError (List OutboxEntry) :=
  decoded (rows.filter fun r => r.status = .dead)

def apply : OutboxCall String → OutboxTable × OutboxAnswer String
  | .enqueue messages => (enqueue rows messages,.done)
  | .pending limit now => (rows,.entries (pending rows limit now))
  | .claim limit lease now uuid =>
    ((claim rows limit lease now uuid).1,.claimed (claim rows limit lease now uuid).2)
  | .markPublished ids claim => ((markPublished rows ids claim).2,.applied (markPublished rows ids claim).1)
  | .markFailed id error attempts retryAt claim =>
    ((markFailed rows id error attempts retryAt claim).2,
      .applied (markFailed rows id error attempts retryAt claim).1)
  | .markDead id error claim => ((markDead rows id error claim).2,.applied (markDead rows id error claim).1)
  | .replay ids => (replay rows ids,.done)
  | .deadLetters => (rows,.entries (deadLetters rows))

end OutboxTable

def OutboxRow.ofSlot (x : OutboxSlot String) : OutboxRow where
  id := x.entry.message.id
  topic := x.entry.message.topic
  payload := x.entry.message.payload.stringify
  metadata := x.entry.message.metadata.stringify
  status := x.entry.status
  attempts := x.entry.attempts
  lastError := x.entry.lastError
  availableAt := x.entry.availableAt
  claimToken := x.claim.map ClaimState.token
  leaseUntil := x.claim.map ClaimState.leaseUntil

namespace OutboxRow

theorem decodeEntry_ofSlot (x : OutboxSlot String) : (ofSlot x).decodeEntry = some x.entry.unscheduled := by
  simp only [decodeEntry,ofSlot,Json.parse_stringify,Option.bind_eq_bind,Option.bind_some,Option.pure_def]
  rfl

theorem claimable_ofSlot (now : ℚ) (x : OutboxSlot String) :
    (ofSlot x).claimable now = x.claimable now := by
  cases hc : x.claim <;> cases ha : x.entry.availableAt <;>
    simp [claimable,ofSlot,OutboxSlot.claimable,hc,ha,leaseLapsed,OutboxEntry.due]

theorem claimToken_ofSlot (token : String) (x : OutboxSlot String) :
    decide ((ofSlot x).claimToken = some token) = x.heldUnder token := by
  cases hc : x.claim <;> simp [ofSlot,OutboxSlot.heldUnder,hc]

theorem settles_ofSlot (ids : List String) (claim : Option String) (x : OutboxSlot String) :
    (ofSlot x).settles ids claim =
      (decide (x.id ∈ ids) && decide (x.entry.status = .pending) && x.ownedBy claim) := by
  cases claim with
  | none => rfl
  | some token => exact congrArg _ (claimToken_ofSlot token x)

end OutboxRow

namespace OutboxTable

def ofSlots (slots : OutboxSlots String) : OutboxTable := slots.map OutboxRow.ofSlot

theorem decoded_ofSlots (slots : List (OutboxSlot String)) :
    decoded (slots.map OutboxRow.ofSlot) = .ok (slots.map fun x => x.entry.unscheduled) := by
  have h : (slots.map OutboxRow.ofSlot).mapM OutboxRow.decodeEntry =
      some (slots.map fun x => x.entry.unscheduled) := by
    induction slots with
    | nil => rfl
    | cons x slots ih =>
      rw [List.map_cons,List.mapM_cons,OutboxRow.decodeEntry_ofSlot,ih]
      rfl
  rw [decoded,h]

theorem filter_ofSlots (slots : OutboxSlots String) {p : OutboxRow → Bool} {q : OutboxSlot String → Bool}
    (h : ∀ x, p (OutboxRow.ofSlot x) = q x) :
    (ofSlots slots).filter p = (slots.filter q).map OutboxRow.ofSlot := by
  rw [ofSlots,List.filter_map]
  exact congrArg _ (List.filter_congr fun x _ => h x)

theorem enqueue_ofSlots (slots : OutboxSlots String) (messages : List OutboxMessage) :
    enqueue (ofSlots slots) messages = ofSlots (slots.enqueue messages) := by
  unfold enqueue OutboxSlots.enqueue
  induction messages generalizing slots with
  | nil => rfl
  | cons message messages ih =>
    rw [List.foldl_cons,List.foldl_cons]
    have hany : (ofSlots slots).any (fun r => r.id = message.id) =
        slots.any fun x => x.id = message.id := by
      rw [ofSlots,List.any_map]
      rfl
    rw [hany]
    split
    next => exact ih slots
    next =>
      have happ : ofSlots slots ++ [OutboxRow.ofMessage message] =
          ofSlots (slots ++ [⟨.staged message,none⟩]) := by
        rw [ofSlots,ofSlots,List.map_append]
        rfl
      rw [happ]
      exact ih _

theorem pending_ofSlots (slots : OutboxSlots String) (limit : ℕ) (now : ℚ) :
    pending (ofSlots slots) limit now = .ok ((slots.pending limit now).map OutboxEntry.unscheduled) := by
  rw [pending,filter_ofSlots slots (OutboxRow.claimable_ofSlot now),← List.map_take,decoded_ofSlots,
    OutboxSlots.pending,List.map_map]
  rfl

theorem deadLetters_ofSlots (slots : OutboxSlots String) :
    deadLetters (ofSlots slots) = .ok (slots.deadLetters.map OutboxEntry.unscheduled) := by
  rw [deadLetters,filter_ofSlots (q := fun x => x.entry.status = .dead) slots (fun x => rfl),
    decoded_ofSlots,OutboxSlots.deadLetters,List.map_map]
  rfl

theorem claim_ofSlots (slots : OutboxSlots String) (limit : ℕ) (lease : Duration) (now : ℚ)
    (token : String) : (claim (ofSlots slots) limit lease now token).1 =
      ofSlots (slots.claim limit now token (now + lease.millis)) := by
  refine (map_updateFirst limit (fun x _ => OutboxRow.claimable_ofSlot now x) fun x _ _ => ?_).symm
  rfl

/-- Under a new token, the select of `claim` finds the rows its update took. -/
theorem claim_answer {slots : OutboxSlots String} {token : String}
    (hfresh : ∀ x ∈ slots, x.heldUnder token = false) (limit : ℕ) (lease : Duration) (now : ℚ) :
    (claim (ofSlots slots) limit lease now token).2 =
      .ok ⟨(slots.pending limit now).map OutboxEntry.unscheduled,token,now + lease.millis⟩ := by
  have hrows := claim_ofSlots slots limit lease now token
  unfold claim at hrows ⊢
  dsimp only at hrows ⊢
  split
  next hz =>
    rw [filter_ofSlots slots (OutboxRow.claimable_ofSlot now),← List.map_take,List.length_map,
      List.length_eq_zero_iff] at hz
    rw [OutboxSlots.pending,hz]
    rfl
  next =>
    rw [hrows,filter_ofSlots _ (OutboxRow.claimToken_ofSlot token),decoded_ofSlots,
      ← OutboxSlots.claimed_entries hfresh limit now (now + lease.millis),List.map_map]
    rfl

theorem settle_eq (rows : OutboxTable) (p : OutboxRow → Bool) (f : OutboxRow → OutboxRow) :
    settle rows p f = (rows.any p,updateWhere p f rows) := by
  refine Prod.ext ?_ rfl
  rw [settle,Bool.eq_iff_iff,decide_eq_true_eq,List.any_eq_true,gt_iff_lt,
    List.length_pos_iff_exists_mem]
  simp only [List.mem_filter]

theorem settle_ofSlots (slots : OutboxSlots String) (ids : List String) (claim : Option String)
    {f : OutboxRow → OutboxRow} {g : OutboxSlot String → OutboxSlot String}
    (hf : ∀ x, OutboxRow.ofSlot (g x) = f (OutboxRow.ofSlot x)) :
    settle (ofSlots slots) (OutboxRow.settles ids claim) f =
      (slots.any (fun x => decide (x.id ∈ ids) && decide (x.entry.status = .pending) && x.ownedBy claim),
        ofSlots (updateWhere
          (fun x => decide (x.id ∈ ids) && decide (x.entry.status = .pending) && x.ownedBy claim) g
          slots)) := by
  rw [settle_eq]
  refine Prod.ext ?_ ?_
  · simp only [ofSlots,List.any_map]
    exact congrArg _ (funext fun x => OutboxRow.settles_ofSlot ids claim x)
  · exact (map_updateWhere (fun x _ => OutboxRow.settles_ofSlot ids claim x) fun x _ _ => hf x).symm

theorem markPublished_eq (rows : OutboxTable) (ids : List String) (claim : Option String) :
    markPublished rows ids claim = settle rows (OutboxRow.settles ids claim) publish := by
  unfold markPublished
  split
  next hz =>
    obtain rfl := List.eq_nil_of_length_eq_zero hz
    rw [settle_eq]
    simp [updateWhere,OutboxRow.settles]
  next => rfl

theorem markPublished_ofSlots (slots : OutboxSlots String) (ids : List String) (claim : Option String) :
    markPublished (ofSlots slots) ids claim =
      (slots.any (fun x => decide (x.id ∈ ids) && decide (x.entry.status = .pending) && x.ownedBy claim),
        ofSlots (updateWhere
          (fun x => decide (x.id ∈ ids) && decide (x.entry.status = .pending) && x.ownedBy claim)
          OutboxSlot.publish slots)) := by
  rw [markPublished_eq]
  exact settle_ofSlots slots ids claim fun x => rfl

theorem replay_ofSlots (slots : OutboxSlots String) (ids : List String) :
    replay (ofSlots slots) ids = ofSlots (updateWhere
      (fun x => decide (x.id ∈ ids) && decide (x.entry.status = .dead)) OutboxSlot.requeue slots) := by
  unfold replay
  split
  next hz =>
    obtain rfl := List.eq_nil_of_length_eq_zero hz
    simp [updateWhere]
  next =>
    have hrow : ∀ x : OutboxSlot String, OutboxRow.ofSlot x.requeue = requeue (OutboxRow.ofSlot x) :=
      fun x => rfl
    exact (map_updateWhere (fun x _ => rfl) fun x _ _ => hrow x).symm

theorem apply_ofSlots {slots : OutboxSlots String} (h : slots.WellFormed) (call : OutboxCall String) :
    ∃ slots' : OutboxSlots String, (apply (ofSlots slots) call).1 = ofSlots slots' ∧ slots'.WellFormed := by
  cases call with
  | enqueue messages => exact ⟨_,enqueue_ofSlots slots messages,h.enqueue messages⟩
  | pending limit now => exact ⟨slots,rfl,h⟩
  | claim limit lease now uuid => exact ⟨_,claim_ofSlots slots limit lease now uuid,h.claim limit now _ _⟩
  | markPublished ids claim =>
    refine ⟨_,congrArg Prod.snd (markPublished_ofSlots slots ids claim),?_⟩
    exact h.updateWhere (fun x => rfl) fun x _ _ hc => absurd rfl hc
  | markFailed id error attempts retryAt claim =>
    refine ⟨_,congrArg Prod.snd (settle_ofSlots slots [id] claim
      (g := OutboxSlot.fail error attempts retryAt) fun x => rfl),?_⟩
    exact h.updateWhere (fun x => rfl) fun x hx _ hc => h.claimed x hx hc
  | markDead id error claim =>
    refine ⟨_,congrArg Prod.snd (settle_ofSlots slots [id] claim
      (g := OutboxSlot.bury error) fun x => rfl),?_⟩
    exact h.updateWhere (fun x => rfl) fun x _ _ hc => absurd rfl hc
  | replay ids =>
    refine ⟨_,replay_ofSlots slots ids,?_⟩
    exact h.updateWhere (fun x => rfl) fun x _ _ hc => absurd rfl hc
  | deadLetters => exact ⟨slots,rfl,h⟩

end OutboxTable
end StructureAi.Sqlite

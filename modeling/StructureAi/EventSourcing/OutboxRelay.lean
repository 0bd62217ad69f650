import StructureAi.EventSourcing.OutboxMemory
import StructureAi.Foundation.Fibers

/-! # Relays draining one outbox

A relay claims a batch and publishes its entries one after the other, with retries,
settling each under the token of the claim. It never looks at the end of its lease
again, so the tail of a slow batch is published after another relay took it over.
A publish call that starts within the lease has the entry to itself.
-/
namespace StructureAi.EventSourcing
open StructureAi.Foundation

/-- The options of `drain`, apart from the transport. -/
structure OutboxRelayOptions where
  maxAttempts : Option ℤ := none
  backoffBase : Option Duration := none
  batchSize : Option ℕ := none
  backoffJitter : Option ℚ := none
  lease : Option Duration := none

namespace OutboxRelayOptions
variable (options : OutboxRelayOptions)

def attemptsAllowed : ℤ := options.maxAttempts.getD 5

def leaseTaken : Duration := options.lease.getD ⟨30000,thirtySeconds_nonneg⟩

def spread : ℚ :=
  match options.backoffJitter with
  | none => 1 / 5
  | some backoffJitter => max 0 backoffJitter

/-- What `Random.nextRange` may answer. -/
def Factor (factor : ℚ) : Prop := 1 - options.spread ≤ factor ∧ factor < 1 + options.spread

instance (factor : ℚ) : Decidable (options.Factor factor) :=
  inferInstanceAs (Decidable (1 - options.spread ≤ factor ∧ factor < 1 + options.spread))

/-- The delay after an attempt, at most a day before jitter. -/
def backoffDelay (attempt : ℤ) (factor : ℚ) : ℚ :=
  let base := (options.backoffBase.map Duration.millis).getD 100
  let bounded := min (base * 2 ^ (attempt - 1)) 86400000
  if options.spread = 0 then bounded else bounded * factor

end OutboxRelayOptions

/-- The entry at hand, the rest of the batch and the claim they are under. -/
structure RelayBatch where
  entry : OutboxEntry
  rest : List OutboxEntry
  token : String
  /-- Answered by `claim`, and not kept by `drain`. -/
  leaseUntil : ℚ

def RelayBatch.entries (b : RelayBatch) : List OutboxEntry := b.entry :: b.rest

def RelayBatch.claim (b : RelayBatch) : ClaimState String := ⟨b.token,b.leaseUntil⟩

/-- What a relay does next. -/
inductive RelayPhase where
  | claiming
  | publishing (b : RelayBatch) (attempts : ℤ)
  /-- The call of `publish` is running. -/
  | inFlight (b : RelayBatch) (attempts : ℤ) (since : ℚ)
  | markingPublished (b : RelayBatch)
  | markingFailed (b : RelayBatch) (text : String) (attempts : ℤ) (retryAt delayMillis : ℚ)
  /-- Records the last attempt before giving up. -/
  | exhausted (b : RelayBatch) (text : String) (attempts : ℤ)
  | markingDead (b : RelayBatch) (lastError : String)
  | sleeping (b : RelayBatch) (attempts : ℤ) (wakeAt : ℚ)

def RelayPhase.batch : RelayPhase → Option RelayBatch
  | claiming => none
  | publishing b _ | inFlight b _ _ | markingPublished b | markingFailed b _ _ _ _ | exhausted b _ _
  | markingDead b _ | sleeping b _ _ => some b

structure Relay where
  options : OutboxRelayOptions
  phase : RelayPhase

namespace Relay

/-- The loop over the entries of a claim, and the start of `publishEntry`. -/
def forEntries (options : OutboxRelayOptions) (claim : ClaimState String) : List OutboxEntry → RelayPhase
  | [] => .claiming
  | entry :: rest =>
    let b := ⟨entry,rest,claim.token,claim.leaseUntil⟩
    if entry.attempts ≥ options.attemptsAllowed then
      .markingDead b (entry.lastError.getD "exhausted attempts before this pass")
    else .publishing b entry.attempts

/-- A failed publish: give up, or a schedule for the next attempt. -/
def failed (options : OutboxRelayOptions) (b : RelayBatch) (attempts : ℤ) (text : String) (factor now : ℚ) :
    RelayPhase :=
  if attempts + 1 ≥ options.attemptsAllowed then .exhausted b text (attempts + 1)
  else
    let delayMillis := options.backoffDelay (attempts + 1) factor
    .markingFailed b text (attempts + 1) (now + delayMillis) delayMillis

/-- The settlement a relay is about to ask for, and how it goes on. -/
def settle (r : Relay) (s : OutboxState) (now : ℚ) : Option (OutboxState × RelayPhase) :=
  match r.phase with
  | .markingPublished b =>
    some ((s.markPublished [b.entry.id] (some b.token)).2,forEntries r.options b.claim b.rest)
  | .markingFailed b text attempts retryAt delayMillis =>
    let settled := s.markFailed b.entry.id text attempts (some retryAt) (some b.token)
    some (settled.2,if settled.1 then .sleeping b attempts (now + max 0 delayMillis)
      else forEntries r.options b.claim b.rest)
  | .exhausted b text attempts =>
    some ((s.markFailed b.entry.id text attempts none (some b.token)).2,.markingDead b text)
  | .markingDead b lastError =>
    some ((s.markDead b.entry.id lastError (some b.token)).2,forEntries r.options b.claim b.rest)
  | .claiming | .publishing _ _ | .inFlight _ _ _ | .sleeping _ _ _ => none

/-- The entry a settlement of the relay marks as published. -/
def publishes (r : Relay) (s : OutboxState) : List String :=
  match r.phase with
  | .markingPublished b =>
    if (s.markPublished [b.entry.id] (some b.token)).1 then [b.entry.id] else []
  | _ => []

end Relay

/-- Relays over one in-memory outbox under one clock. -/
structure Relays where
  outbox : OutboxState
  now : ℚ
  relays : Fibers Relay
  /-- The relay of every claim that handed something out, in order. -/
  claimants : List ℕ
  /-- The entries settled as published, and by which relay. -/
  published : List (String × ℕ)

inductive RelayStep where
  | enqueue (messages : List OutboxMessage)
  | tick (now : ℚ)
  | start (relay : ℕ) (options : OutboxRelayOptions)
  | claim (relay : ℕ)
  | publish (relay : ℕ)
  | succeed (relay : ℕ)
  | fail (relay : ℕ) (text : String) (factor : ℚ)
  | settle (relay : ℕ)
  | wake (relay : ℕ)
  /-- A defect of `publish`, an interruption or a crash, at any point. -/
  | interrupt (relay : ℕ)

namespace Relays
variable (x : Relays)

def claim (i : ℕ) (options : OutboxRelayOptions) : Relays :=
  let r := x.outbox.claim (options.batchSize.getD 32) options.leaseTaken x.now
  if r.2.entries.length = 0 then {x with outbox := r.1, relays := x.relays.remove i}
  else {x with
    outbox := r.1
    relays := x.relays.set i ⟨options,Relay.forEntries options ⟨r.2.token,r.2.leaseUntil⟩ r.2.entries⟩
    claimants := x.claimants ++ [i]}

def move (i : ℕ) (r : Relay) (phase : RelayPhase) : Relays :=
  {x with relays := x.relays.set i {r with phase := phase}}

/-- One step of relay `i`. -/
def stepRelay (i : ℕ) (r : Relay) (label : RelayStep) : Option Relays :=
  match label,r.phase with
  | .claim _,.claiming => some (x.claim i r.options)
  | .publish _,.publishing b attempts => some (x.move i r (.inFlight b attempts x.now))
  | .succeed _,.inFlight b _ since =>
    if x.now < since + r.options.leaseTaken.millis then some (x.move i r (.markingPublished b)) else none
  | .fail _ text factor,.inFlight b attempts since =>
    if x.now < since + r.options.leaseTaken.millis ∧ r.options.Factor factor then
      some (x.move i r (Relay.failed r.options b attempts text factor x.now))
    else none
  | .settle _,_ => (r.settle x.outbox x.now).map fun t => {x with
      outbox := t.1
      relays := x.relays.set i {r with phase := t.2}
      published := x.published ++ (r.publishes x.outbox).map fun id => (id,i)}
  | .wake _,.sleeping b attempts wakeAt =>
    if wakeAt ≤ x.now then some (x.move i r (.publishing b attempts)) else none
  | _,_ => none

def step (label : RelayStep) : Option Relays :=
  match label with
  | .enqueue messages => some {x with outbox := x.outbox.enqueue messages}
  | .tick now => if x.now ≤ now then some {x with now := now} else none
  | .start i options =>
    if x.relays i = none then some {x with relays := x.relays.set i ⟨options,.claiming⟩} else none
  | .interrupt i => some {x with relays := x.relays.remove i}
  | .claim i | .publish i | .succeed i | .fail i _ _ | .settle i | .wake i =>
    (x.relays i).bind fun r => x.stepRelay i r label

/-- Relays start, stop and take turns in any order, over an outbox that starts empty; a call of
`publish` takes less than the relay's lease. -/
def runs : System Relays RelayStep := ⟨⟨OutboxState.empty,0,Fibers.empty,[],[]⟩,step⟩

/-- The batch of a relay that is about to call `publish`. -/
def aboutToPublish (i : ℕ) : Option RelayBatch :=
  match x.relays i with
  | some ⟨_,.publishing b _⟩ => some b
  | _ => none

/-- Relay `j` holds an unexpired claim on the entry. -/
def Holds (j : ℕ) (id : String) : Prop :=
  ∃ (n : ℕ) (claim : ClaimState String), x.claimants[n]? = some j ∧ x.outbox.claims.lookup id = some claim ∧
    claim.token = "mem-" ++ toString n ∧ x.now < claim.leaseUntil

/-- A relay that calls `publish` shares the entry with no other. -/
def PublishesOwned : RelayStep → Prop
  | .publish i => ∀ b, x.aboutToPublish i = some b → ∀ j, j ≠ i →
    ¬ x.Holds j b.entry.id ∧ (b.entry.id,j) ∉ x.published
  | _ => True

/-- The relay calls `publish` before the end of its lease. -/
def WithinLease : RelayStep → Prop
  | .publish i => ∀ b, x.aboutToPublish i = some b → x.now < b.leaseUntil
  | _ => True

end Relays

/-- What a settlement under a token does to the outbox. -/
structure Settles (s t : OutboxState) (id token : String) (f : OutboxSlot String → OutboxSlot String) :
    Prop where
  consistent : t.Consistent
  slots : t.slots = updateWhere (fun y => decide (y.id ∈ [id]) && y.ownedBy (some token)) f s.slots
  nextToken : t.nextToken = s.nextToken
  ids : ∀ y, (f y).id = y.id

namespace Settles
variable {s t : OutboxState} {id token : String} {f : OutboxSlot String → OutboxSlot String}

theorem mem_of_not_held (h : Settles s t id token f) {y : OutboxSlot String} (hy : y ∈ s.slots)
    (hn : y.id ≠ id ∨ y.heldUnder token = false) : y ∈ t.slots := by
  have hp : (decide (y.id ∈ [id]) && y.ownedBy (some token)) = false := by
    rcases hn with hid | hheld
    · rw [decide_eq_false (by simpa using hid)]
      rfl
    · rw [OutboxSlot.ownedBy,hheld,Bool.and_false]
  rw [h.slots]
  exact List.mem_map.mpr ⟨y,hy,if_neg fun ht => Bool.false_ne_true (hp.symm.trans ht)⟩

theorem publishedIn (h : Settles s t id token f) (hs : s.Consistent) {other : String}
    (hp : s.slots.PublishedIn other) : t.slots.PublishedIn other := by
  obtain ⟨y,hy,hid,hst⟩ := hp
  refine ⟨y,h.mem_of_not_held hy (Or.inr ?_),hid,hst⟩
  have hnone : y.claim = none := by
    by_contra hc
    rw [hs.wellFormed.claimed y hy hc] at hst
    cases hst
  rw [OutboxSlot.heldUnder,hnone]

theorem heldAs (h : Settles s t id token f) {other : String} {c : ClaimState String}
    (hh : s.slots.HeldAs other c) (hn : other ≠ id ∨ c.token ≠ token) : t.slots.HeldAs other c := by
  obtain ⟨y,hy,rfl,hc⟩ := hh
  refine ⟨y,h.mem_of_not_held hy (hn.imp_right fun hne => ?_),rfl,hc⟩
  rw [OutboxSlot.heldUnder,hc]
  exact decide_eq_false hne

theorem heldAs_of_keeps (h : Settles s t id token f) (hf : ∀ y, (f y).claim = y.claim) {other : String}
    {c : ClaimState String} (hh : s.slots.HeldAs other c) : t.slots.HeldAs other c := by
  obtain ⟨y,hy,hid,hc⟩ := hh
  rw [h.slots]
  refine ⟨_,List.mem_map_of_mem hy,?_⟩
  split
  · exact ⟨(h.ids y).trans hid,(hf y).trans hc⟩
  · exact ⟨hid,hc⟩

end Settles

namespace OutboxState
variable {s : OutboxState}

theorem Consistent.settles_published (h : s.Consistent) (id token : String) :
    Settles s (s.markPublished [id] (some token)).2 id token OutboxSlot.publish :=
  ⟨h.markPublished [id] (some token),h.markPublished_slots [id] (some token),
    (h.markPublished_published [id] (some token)).nextToken,fun _ => rfl⟩

theorem Consistent.settles_failed (h : s.Consistent) (id error : String) (attempts : ℤ)
    (retryAt : Option ℚ) (token : String) :
    Settles s (s.markFailed id error attempts retryAt (some token)).2 id token
      (OutboxSlot.fail error attempts retryAt) :=
  ⟨h.markFailed id error attempts retryAt (some token),
    (h.markFailed_refines id error attempts retryAt (some token)).1,
    s.markFailed_nextToken id error attempts retryAt (some token),fun _ => rfl⟩

theorem Consistent.settles_dead (h : s.Consistent) (id error token : String) :
    Settles s (s.markDead id error (some token)).2 id token (OutboxSlot.bury error) :=
  ⟨h.markDead id error (some token),(h.markDead_refines id error (some token)).1,
    s.markDead_nextToken id error (some token),fun _ => rfl⟩

theorem Consistent.publishedIn_of_applied (h : s.Consistent) {id token : String}
    (ha : (s.markPublished [id] (some token)).1 = true) :
    (s.markPublished [id] (some token)).2.slots.PublishedIn id := by
  rw [h.markPublished_applied,List.any_eq_true] at ha
  obtain ⟨y,hy,hp⟩ := ha
  rw [h.markPublished_slots]
  refine ⟨_,List.mem_map_of_mem hy,?_⟩
  rw [if_pos hp]
  rw [Bool.and_eq_true,decide_eq_true_eq,List.mem_singleton] at hp
  exact ⟨hp.1,rfl⟩

end OutboxState

namespace Relays
variable {x : Relays} {i : ℕ}

/-- Relay `i` made the claim that answered the token. -/
def Claimed (claimants : List ℕ) (i : ℕ) (token : String) : Prop :=
  ∃ n : ℕ, claimants[n]? = some i ∧ token = "mem-" ++ toString n

theorem Claimed.eq {claimants : List ℕ} {j : ℕ} {token : String} (hi : Claimed claimants i token)
    (hj : Claimed claimants j token) : i = j := by
  obtain ⟨m,hm,ht⟩ := hi
  obtain ⟨n,hn,ht'⟩ := hj
  obtain rfl := OutboxState.token_injective (ht.symm.trans ht')
  exact Option.some.inj (hm.symm.trans hn)

/-- The entries a relay has not settled yet are held under its claim until the lease ends. -/
structure BatchHeld (outbox : OutboxState) (now : ℚ) (claimants : List ℕ) (i : ℕ) (b : RelayBatch) :
    Prop where
  claimed : Claimed claimants i b.token
  ids : (b.entries.map OutboxEntry.id).Nodup
  held : now < b.leaseUntil → ∀ e ∈ b.entries, outbox.slots.HeldAs e.id b.claim

structure Inv (x : Relays) : Prop where
  consistent : x.outbox.Consistent
  claimants : x.claimants.length = x.outbox.nextToken
  published : ∀ p ∈ x.published, x.outbox.slots.PublishedIn p.1
  batches : ∀ i r b, x.relays i = some r → r.phase.batch = some b →
    BatchHeld x.outbox x.now x.claimants i b

theorem inv_init : runs.init.Inv := by
  constructor
  · exact OutboxState.consistent_empty
  · rfl
  · intro p hp
    cases hp
  · intro i r b hr
    cases hr

theorem BatchHeld.imp {outbox outbox' : OutboxState} {now now' : ℚ} {claimants : List ℕ} {b : RelayBatch}
    (h : BatchHeld outbox now claimants i b) (hnow : now ≤ now')
    (hheld : now' < b.leaseUntil → ∀ e ∈ b.entries, outbox.slots.HeldAs e.id b.claim →
      outbox'.slots.HeldAs e.id b.claim) : BatchHeld outbox' now' claimants i b :=
  ⟨h.claimed,h.ids,fun hlt e he => hheld hlt e he (h.held (hnow.trans_lt hlt) e he)⟩

theorem BatchHeld.forEntries {outbox : OutboxState} {now : ℚ} {claimants : List ℕ} {claim : ClaimState String}
    {entries : List OutboxEntry} (hclaimed : Claimed claimants i claim.token)
    (hids : (entries.map OutboxEntry.id).Nodup)
    (hheld : now < claim.leaseUntil → ∀ e ∈ entries, outbox.slots.HeldAs e.id claim)
    (options : OutboxRelayOptions) {b : RelayBatch}
    (hb : (Relay.forEntries options claim entries).batch = some b) :
    BatchHeld outbox now claimants i b := by
  cases entries with
  | nil => cases hb
  | cons entry rest =>
    rw [Relay.forEntries] at hb
    split at hb
    · obtain rfl := Option.some.inj hb
      exact ⟨hclaimed,hids,hheld⟩
    · obtain rfl := Option.some.inj hb
      exact ⟨hclaimed,hids,hheld⟩

theorem Inv.enqueue (h : x.Inv) (messages : List OutboxMessage) :
    Inv {x with outbox := x.outbox.enqueue messages} := by
  obtain ⟨hslots,hcons⟩ := h.consistent.enqueue_slots messages
  refine ⟨hcons,h.claimants,fun p hp => ?_,fun j r b hr hb => (h.batches j r b hr hb).imp le_rfl ?_⟩
  · obtain ⟨y,hy,hid⟩ := h.published p hp
    exact ⟨y,hslots ▸ OutboxSlots.subset_enqueue messages hy,hid⟩
  · rintro - e - ⟨y,hy,hid⟩
    exact ⟨y,hslots ▸ OutboxSlots.subset_enqueue messages hy,hid⟩

theorem Inv.tick (h : x.Inv) {now : ℚ} (hnow : x.now ≤ now) : Inv {x with now := now} :=
  {h with batches := fun j r b hr hb => (h.batches j r b hr hb).imp hnow fun _ _ _ hh => hh}

theorem Inv.write (h : x.Inv) {r : Relay}
    (hb : ∀ b, r.phase.batch = some b → BatchHeld x.outbox x.now x.claimants i b) :
    Inv {x with relays := x.relays.set i r} := by
  refine {h with batches := fun j r' b hr hb' => ?_}
  rcases Fibers.set_cases hr with ⟨rfl,rfl⟩ | ⟨-,hr⟩
  · exact hb b hb'
  · exact h.batches j r' b hr hb'

theorem Inv.remove (h : x.Inv) (i : ℕ) : Inv {x with relays := x.relays.remove i} :=
  {h with batches := fun j r b hr hb => h.batches j r b (Fibers.remove_cases hr).2 hb}

theorem Inv.move (h : x.Inv) {r : Relay} {b : RelayBatch} (hr : x.relays i = some r)
    (hrb : r.phase.batch = some b) {phase : RelayPhase} (hphase : phase.batch = some b) :
    (x.move i r phase).Inv := by
  refine h.write fun b' hb' => ?_
  obtain rfl := Option.some.inj (hphase.symm.trans hb')
  exact h.batches i r b hr hrb

theorem heldAs_claim {slots : OutboxSlots String} {id : String} {c : ClaimState String} {now : ℚ}
    (hh : slots.HeldAs id c) (hlt : now < c.leaseUntil) (limit : ℕ) (token : String) (leaseUntil : ℚ) :
    (slots.claim limit now token leaseUntil).HeldAs id c := by
  obtain ⟨y,hy,hid,hc⟩ := hh
  refine ⟨y,OutboxSlots.mem_claim_of_not_claimable hy ?_,hid,hc⟩
  rw [OutboxSlot.claimable,hc,leaseLapsed,decide_eq_false (not_le.mpr hlt),Bool.and_false]

theorem publishedIn_claim {slots : OutboxSlots String} {id : String} (hp : slots.PublishedIn id) (limit : ℕ)
    (now : ℚ) (token : String) (leaseUntil : ℚ) :
    (slots.claim limit now token leaseUntil).PublishedIn id := by
  obtain ⟨y,hy,hid,hst⟩ := hp
  refine ⟨y,OutboxSlots.mem_claim_of_not_claimable hy ?_,hid,hst⟩
  rw [OutboxSlot.claimable,hst]
  rfl

theorem Claimed.append {claimants : List ℕ} {token : String} (h : Claimed claimants i token) (j : ℕ) :
    Claimed (claimants ++ [j]) i token := by
  obtain ⟨n,hn,ht⟩ := h
  exact ⟨n,(List.getElem?_append_left (List.getElem?_eq_some_iff.mp hn).1).trans hn,ht⟩

theorem Inv.claim (h : x.Inv) (i : ℕ) (options : OutboxRelayOptions) : (x.claim i options).Inv := by
  have hcons := h.consistent.claim (options.batchSize.getD 32) options.leaseTaken x.now
  have hslots := h.consistent.claim_slots (options.batchSize.getD 32) options.leaseTaken x.now
  have hnext := x.outbox.claim_nextToken (options.batchSize.getD 32) options.leaseTaken x.now
  have hentries := x.outbox.claim_entries (options.batchSize.getD 32) options.leaseTaken x.now
  have hpublished : ∀ p ∈ x.published,
      (x.outbox.claim (options.batchSize.getD 32) options.leaseTaken x.now).1.slots.PublishedIn p.1 :=
    fun p hp => hslots ▸ publishedIn_claim (h.published p hp) _ _ _ _
  have hbatches : ∀ j r b, x.relays j = some r → r.phase.batch = some b →
      BatchHeld (x.outbox.claim (options.batchSize.getD 32) options.leaseTaken x.now).1 x.now x.claimants
        j b :=
    fun j r b hr hb => (h.batches j r b hr hb).imp le_rfl fun hlt e _ hh =>
      hslots ▸ heldAs_claim hh hlt _ _ _
  unfold Relays.claim
  dsimp only
  split
  next hz =>
    rw [hz,if_neg (lt_irrefl 0)] at hnext
    exact ⟨hcons,h.claimants.trans hnext.symm,hpublished,
      fun j r b hr hb => hbatches j r b (Fibers.remove_cases hr).2 hb⟩
  next hz =>
    rw [if_pos (Nat.pos_of_ne_zero hz)] at hnext
    refine ⟨hcons,?_,hpublished,fun j r b hr hb => ?_⟩
    · rw [List.length_append,h.claimants,hnext]
      rfl
    · rcases Fibers.set_cases hr with ⟨rfl,rfl⟩ | ⟨-,hr⟩
      · refine BatchHeld.forEntries ⟨x.outbox.nextToken,?_,rfl⟩ ?_ (fun _ e he => ?_) options hb
        · rw [← h.claimants,List.getElem?_append_right le_rfl,Nat.sub_self]
          rfl
        · rw [hentries]
          exact h.consistent.wellFormed.pending_ids _ _
        · rw [hentries] at he
          rw [hslots]
          exact OutboxSlots.heldAs_of_claimed _ _ he
      · have hb' := hbatches j r b hr hb
        exact ⟨hb'.claimed.append i,hb'.ids,hb'.held⟩

theorem BatchHeld.next {claimants : List ℕ} {b : RelayBatch} {t : OutboxState}
    {f : OutboxSlot String → OutboxSlot String} (h : BatchHeld x.outbox x.now claimants i b)
    (hs : Settles x.outbox t b.entry.id b.token f) (options : OutboxRelayOptions) {b' : RelayBatch}
    (hb : (Relay.forEntries options b.claim b.rest).batch = some b') :
    BatchHeld t x.now claimants i b' := by
  have hids : (b.entry.id :: b.rest.map OutboxEntry.id).Nodup := h.ids
  refine BatchHeld.forEntries h.claimed (List.nodup_cons.mp hids).2 (fun hlt e he => ?_) options hb
  refine hs.heldAs (h.held hlt e (List.mem_cons_of_mem _ he)) (Or.inl fun heq => ?_)
  exact (List.nodup_cons.mp hids).1 (heq ▸ List.mem_map_of_mem he)

theorem BatchHeld.keep {claimants : List ℕ} {b : RelayBatch} {t : OutboxState}
    {f : OutboxSlot String → OutboxSlot String} (h : BatchHeld x.outbox x.now claimants i b)
    (hs : Settles x.outbox t b.entry.id b.token f) (hf : ∀ y, (f y).claim = y.claim) :
    BatchHeld t x.now claimants i b :=
  h.imp le_rfl fun _ _ _ hh => hs.heldAs_of_keeps hf hh

theorem Inv.settled (h : x.Inv) {r : Relay} {b : RelayBatch} (hr : x.relays i = some r)
    (hrb : r.phase.batch = some b) {t : OutboxState} {f : OutboxSlot String → OutboxSlot String}
    (hs : Settles x.outbox t b.entry.id b.token f) {phase : RelayPhase}
    (hphase : ∀ b', phase.batch = some b' → BatchHeld t x.now x.claimants i b')
    {published : List (String × ℕ)} (hpub : ∀ p ∈ published, t.slots.PublishedIn p.1) :
    Inv {x with
      outbox := t, relays := x.relays.set i {r with phase := phase}
      published := x.published ++ published} := by
  refine ⟨hs.consistent,h.claimants.trans hs.nextToken.symm,fun p hp => ?_,fun j r' b' hr' hb' => ?_⟩
  · rcases List.mem_append.mp hp with hp | hp
    · exact hs.publishedIn h.consistent (h.published p hp)
    · exact hpub p hp
  · rcases Fibers.set_cases hr' with ⟨rfl,rfl⟩ | ⟨hne,hr'⟩
    · exact hphase b' hb'
    · have hother := h.batches j r' b' hr' hb'
      have htoken : b'.token ≠ b.token := by
        intro heq
        exact hne (hother.claimed.eq (heq ▸ (h.batches i r b hr hrb).claimed))
      exact hother.imp le_rfl fun _ e _ hh => hs.heldAs hh (Or.inr htoken)

theorem Inv.settle (h : x.Inv) {r : Relay} (hr : x.relays i = some r) {t : OutboxState × RelayPhase}
    (ht : r.settle x.outbox x.now = some t) :
    Inv {x with
      outbox := t.1, relays := x.relays.set i {r with phase := t.2}
      published := x.published ++ (r.publishes x.outbox).map fun id => (id,i)} := by
  obtain ⟨options,phase⟩ := r
  cases phase with
  | markingPublished b =>
    obtain rfl := Option.some.inj ht
    have hb := h.batches i _ b hr rfl
    refine h.settled hr rfl (h.consistent.settles_published b.entry.id b.token)
      (fun b' hb' => hb.next (h.consistent.settles_published b.entry.id b.token) options hb') ?_
    intro p hp
    obtain ⟨id,hid,rfl⟩ := List.mem_map.mp hp
    dsimp only [Relay.publishes] at hid
    split at hid
    next ha =>
      rw [List.mem_singleton.mp hid]
      exact h.consistent.publishedIn_of_applied ha
    next => cases hid
  | markingFailed b text attempts retryAt delayMillis =>
    obtain rfl := Option.some.inj ht
    have hb := h.batches i _ b hr rfl
    have hs := h.consistent.settles_failed b.entry.id text attempts (some retryAt) b.token
    refine h.settled hr rfl hs (fun b' hb' => ?_) fun p hp => by cases hp
    dsimp only at hb'
    split at hb'
    · obtain rfl := Option.some.inj hb'
      exact hb.keep hs fun _ => rfl
    · exact hb.next hs options hb'
  | exhausted b text attempts =>
    obtain rfl := Option.some.inj ht
    have hb := h.batches i _ b hr rfl
    have hs := h.consistent.settles_failed b.entry.id text attempts none b.token
    refine h.settled hr rfl hs (fun b' hb' => ?_) fun p hp => by cases hp
    obtain rfl := Option.some.inj hb'
    exact hb.keep hs fun _ => rfl
  | markingDead b lastError =>
    obtain rfl := Option.some.inj ht
    have hb := h.batches i _ b hr rfl
    have hs := h.consistent.settles_dead b.entry.id lastError b.token
    exact h.settled hr rfl hs (fun b' hb' => hb.next hs options hb') fun p hp => by cases hp
  | claiming => cases ht
  | publishing b attempts => cases ht
  | inFlight b attempts since => cases ht
  | sleeping b attempts wakeAt => cases ht

theorem batch_failed (options : OutboxRelayOptions) (b : RelayBatch) (attempts : ℤ) (text : String)
    (factor now : ℚ) : (Relay.failed options b attempts text factor now).batch = some b := by
  unfold Relay.failed
  split <;> rfl

theorem Inv.stepRelay (h : x.Inv) {r : Relay} (hr : x.relays i = some r) {label : RelayStep} {x' : Relays}
    (hs : x.stepRelay i r label = some x') : x'.Inv := by
  unfold Relays.stepRelay at hs
  split at hs
  next =>
    obtain rfl := Option.some.inj hs
    exact h.claim i r.options
  next b attempts hp =>
    obtain rfl := Option.some.inj hs
    exact h.move hr (congrArg RelayPhase.batch hp) rfl
  next b attempts since hp =>
    split at hs
    · obtain rfl := Option.some.inj hs
      exact h.move hr (congrArg RelayPhase.batch hp) rfl
    · cases hs
  next b attempts since hp =>
    split at hs
    · obtain rfl := Option.some.inj hs
      exact h.move hr (congrArg RelayPhase.batch hp) (batch_failed ..)
    · cases hs
  next =>
    obtain ⟨t,ht,rfl⟩ := Option.map_eq_some_iff.mp hs
    exact h.settle hr ht
  next b attempts wakeAt hp =>
    split at hs
    · obtain rfl := Option.some.inj hs
      exact h.move hr (congrArg RelayPhase.batch hp) rfl
    · cases hs
  next => cases hs

theorem Inv.step (h : x.Inv) {label : RelayStep} {x' : Relays} (hs : x.step label = some x') : x'.Inv := by
  cases label with
  | enqueue messages =>
    obtain rfl := Option.some.inj hs
    exact h.enqueue messages
  | tick now =>
    simp only [Relays.step] at hs
    split at hs
    next hnow =>
      obtain rfl := Option.some.inj hs
      exact h.tick hnow
    next => cases hs
  | start i options =>
    simp only [Relays.step] at hs
    split at hs
    · obtain rfl := Option.some.inj hs
      exact h.write fun b hb => by cases hb
    · cases hs
  | interrupt i =>
    obtain rfl := Option.some.inj hs
    exact h.remove i
  | claim i | publish i | succeed i | fail i text factor | settle i | wake i =>
    obtain ⟨r,hr,hs⟩ := Option.bind_eq_some_iff.mp hs
    exact h.stepRelay hr hs

theorem inv_of_reachable (hr : runs.Reachable x) : x.Inv :=
  hr.invariant Inv inv_init fun _ _ _ h _ hs => h.step hs

/-- Until its lease ends, a relay has the entries it is about to publish to itself. -/
theorem publishes_owned (hr : runs.Reachable x) {label : RelayStep} (hlease : x.WithinLease label) :
    x.PublishesOwned label := by
  have h := inv_of_reachable hr
  cases label with
  | publish i =>
    intro b hb j hj
    have hlt := hlease b hb
    unfold aboutToPublish at hb
    split at hb
    next options b attempts hrelay =>
      obtain rfl := Option.some.inj hb
      have hbatch := h.batches i _ b hrelay rfl
      obtain ⟨y,hy,hid,hc⟩ := hbatch.held hlt b.entry List.mem_cons_self
      constructor
      · rintro ⟨n,claim,hn,hlookup,htoken,-⟩
        obtain ⟨e,he,rfl⟩ := OutboxState.mem_slots.mp hy
        have hsame : x.outbox.claims.lookup b.entry.id = some b.claim := hid ▸ hc
        obtain rfl := Option.some.inj (hsame.symm.trans hlookup)
        exact hj (Claimed.eq ⟨n,hn,htoken⟩ hbatch.claimed)
      · intro hp
        obtain ⟨z,hz,hzid,hst⟩ := h.published _ hp
        have hyz : y = z := List.inj_on_of_nodup_map h.consistent.wellFormed.ids hy hz
          (hid.trans hzid.symm)
        subst hyz
        have hpending := h.consistent.wellFormed.claimed y hy fun hnone => by
          rw [hnone] at hc
          cases hc
        rw [hpending] at hst
        cases hst
    next => cases hb
  | _ => trivial

def shipment (id : String) : OutboxMessage := ⟨id,"shipments",.null,.obj [],none⟩

/-- A relay with the default options claims two messages. -/
def firstBatch : List RelayStep :=
  [.enqueue [shipment "m1",shipment "m2",shipment "m3"],.start 0 {},.claim 0]

def atHand (x : Relays) (i : ℕ) : Option String := (x.aboutToPublish i).map fun b => b.entry.id

def leaseRuns (x : Relays) (i : ℕ) : Bool := (x.aboutToPublish i).all fun b => x.now < b.leaseUntil

theorem withinLease_of_leaseRuns (h : leaseRuns x i = true) : x.WithinLease (.publish i) := by
  intro b hb
  rw [leaseRuns,hb] at h
  exact of_decide_eq_true h

/-- Beside it a second relay gets a message that comes later, and what the first has left when it stops. -/
def secondRelay : List RelayStep := firstBatch ++ ([.enqueue [shipment "m4"],.start 1 {},.claim 1] : List RelayStep)

def afterStop : List RelayStep := secondRelay ++
  ([.publish 0,.succeed 0,.settle 0,.interrupt 0,.publish 1,.succeed 1,.settle 1,.tick 31000,.claim 1] : List RelayStep)

theorem secondRelay_run : (runs.run secondRelay).map (fun x => (atHand x 0,leaseRuns x 0,atHand x 1,leaseRuns x 1)) =
    some (some "m1",true,some "m4",true) := by
  decide +kernel

theorem afterStop_run : (runs.run afterStop).map (fun x => (atHand x 1,leaseRuns x 1)) = some (some "m2",true) := by
  decide +kernel

theorem publishes_owned_first :
    (∃ x, runs.run secondRelay = some x ∧ (atHand x 0,atHand x 1) = (some "m1",some "m4") ∧
      x.PublishesOwned (.publish 0) ∧ x.PublishesOwned (.publish 1)) ∧
    ∃ x, runs.run afterStop = some x ∧ atHand x 1 = some "m2" ∧ x.PublishesOwned (.publish 1) := by
  obtain ⟨x,hx,hbatches⟩ := Option.map_eq_some_iff.mp secondRelay_run
  obtain ⟨y,hy,hlast⟩ := Option.map_eq_some_iff.mp afterStop_run
  obtain ⟨hfirst,hbatches⟩ := Prod.mk.inj hbatches
  obtain ⟨hleased,hbatches⟩ := Prod.mk.inj hbatches
  obtain ⟨hsecond,hleased'⟩ := Prod.mk.inj hbatches
  obtain ⟨hthird,hleased''⟩ := Prod.mk.inj hlast
  refine ⟨⟨x,hx,Prod.ext hfirst hsecond,?_,?_⟩,y,hy,hthird,?_⟩
  · exact publishes_owned (System.run_reachable hx) (withinLease_of_leaseRuns hleased)
  · exact publishes_owned (System.run_reachable hx) (withinLease_of_leaseRuns hleased')
  · exact publishes_owned (System.run_reachable hy) (withinLease_of_leaseRuns hleased'')

/-- Each publish takes twenty seconds; the second relay claims after thirty-one. -/
def slowBatch : List RelayStep := firstBatch ++
  ([.publish 0,.tick 20000,.succeed 0,.settle 0,.publish 0,.tick 31000,.start 1 {},.claim 1,
    .tick 40000,.succeed 0,.settle 0] : List RelayStep)

/-- At forty seconds the first relay is about to publish what the second has claimed. -/
theorem slow_batch_overlaps :
    ¬ ∀ x, runs.Reachable x → ∀ label, x.PublishesOwned label := by
  intro h
  have hrun : ((runs.run slowBatch).bind fun x => (x.aboutToPublish 0).bind fun b =>
      (x.outbox.claims.lookup b.entry.id).map fun c =>
        (x.claimants[1]?,c.token,decide (x.now < c.leaseUntil))) = some (some 1,"mem-1",true) := by
    decide +kernel
  obtain ⟨x,hx,hrun⟩ := Option.bind_eq_some_iff.mp hrun
  obtain ⟨b,hb,hrun⟩ := Option.bind_eq_some_iff.mp hrun
  obtain ⟨c,hc,hrun⟩ := Option.map_eq_some_iff.mp hrun
  obtain ⟨hn,htoken,hlt⟩ := Prod.ext_iff.mp hrun |>.imp_right Prod.ext_iff.mp
  have hown := (h x (System.run_reachable hx) (.publish 0) b hb 1 (by decide)).1
  exact hown ⟨1,c,hn,hc,htoken,of_decide_eq_true hlt⟩

end Relays
end StructureAi.EventSourcing

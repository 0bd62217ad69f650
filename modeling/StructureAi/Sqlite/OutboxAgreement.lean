import StructureAi.Sqlite.OutboxSettlement

/-! # The in-memory and the SQLite outbox side by side

Both adapters take the same calls under the same clock; a claim token is named by
the number of the claim call that returned it. The states stay those of one outbox
whose claims carry these numbers, as long as no call does what the adapters treat
differently.
-/
namespace StructureAi.Sqlite
open StructureAi.Foundation StructureAi.EventSourcing

/-- A claim call, with the token each adapter returned. -/
structure ClaimCall where
  memory : String
  sqlite : String
  handedOut : Bool
deriving DecidableEq

structure Outboxes where
  memory : OutboxState
  rows : OutboxTable
  /-- The claim calls so far, in order. -/
  claims : List ClaimCall

def givenToken (token : ℕ → Option String) : Option ℕ → Option (Option String)
  | none => some none
  | some k => (token k).map some

def withToken (token : ℕ → Option String) : OutboxCall ℕ → Option (OutboxCall String)
  | .enqueue messages => some (.enqueue messages)
  | .pending limit now => some (.pending limit now)
  | .claim limit lease now uuid => some (.claim limit lease now uuid)
  | .markPublished ids claim => (givenToken token claim).map fun claim => .markPublished ids claim
  | .markFailed id error attempts retryAt claim =>
    (givenToken token claim).map fun claim => .markFailed id error attempts retryAt claim
  | .markDead id error claim => (givenToken token claim).map fun claim => .markDead id error claim
  | .replay ids => some (.replay ids)
  | .deadLetters => some .deadLetters

namespace Outboxes
variable (x : Outboxes)

def memoryToken (k : ℕ) : Option String := x.claims[k]?.map ClaimCall.memory

def sqliteToken (k : ℕ) : Option String := x.claims[k]?.map ClaimCall.sqlite

/-- `randomUUID` answers a new one every time. -/
def Fresh : OutboxCall ℕ → Prop
  | .claim _ _ _ uuid => uuid ∉ x.claims.map ClaimCall.sqlite
  | _ => True

instance (call : OutboxCall ℕ) : Decidable (x.Fresh call) :=
  match call with
  | .claim _ _ _ uuid => inferInstanceAs (Decidable (uuid ∉ x.claims.map ClaimCall.sqlite))
  | .enqueue _ | .pending _ _ | .markPublished _ _ | .markFailed _ _ _ _ _ | .markDead _ _ _
  | .replay _ | .deadLetters => isTrue trivial

/-- What each adapter is called with; no call carries a token that no claim call returned. -/
def calls (call : OutboxCall ℕ) : Option (OutboxCall String × OutboxCall String) :=
  if x.Fresh call then do
    return (← withToken x.memoryToken call,← withToken x.sqliteToken call)
  else none

def record : OutboxCall ℕ → List ClaimCall
  | .claim limit lease now uuid =>
    let claim := (x.memory.claim limit lease now).2
    x.claims ++ [⟨claim.token,uuid,claim.entries.length > 0⟩]
  | _ => x.claims

def step (call : OutboxCall ℕ) : Option Outboxes :=
  (x.calls call).map fun c => ⟨(x.memory.apply c.1).1,(OutboxTable.apply x.rows c.2).1,x.record call⟩

def runs : System Outboxes (OutboxCall ℕ) := ⟨⟨OutboxState.empty,[],[]⟩,step⟩

/-- The same entries in the same order, and the same booleans. An entry is compared with its
status, attempts, availability and last error. -/
def Alike : OutboxAnswer String → OutboxAnswer String → Prop
  | .done,.done => True
  | .entries (.ok entries),.entries (.ok entries') => entries' = entries.map OutboxEntry.unscheduled
  | .claimed (.ok claim),.claimed (.ok claim') =>
    claim'.entries = claim.entries.map OutboxEntry.unscheduled ∧ claim'.leaseUntil = claim.leaseUntil
  | .applied answer,.applied answer' => answer = answer'
  | _,_ => False

instance (answer answer' : OutboxAnswer String) : Decidable (Alike answer answer') := by
  unfold Alike
  split <;> infer_instance

def AnswersAlike (call : OutboxCall ℕ) : Prop :=
  ∀ c, x.calls call = some c → Alike (x.memory.apply c.1).2 (OutboxTable.apply x.rows c.2).2

/-- A settlement without a token names pending entries only, and one with a token names a claim
call that handed something out, or no entry held under its in-memory token. -/
def Settleable (ids : List String) : Option ℕ → Prop
  | none => ∀ e ∈ x.memory.entries, e.id ∈ ids → e.status = .pending
  | some k => ∀ call, x.claims[k]? = some call → call.handedOut = true ∨
    ∀ id ∈ ids, ∀ held, x.memory.claims.lookup id = some held → held.token ≠ call.memory

/-- `markPublished` without a token may name published entries beside a pending one. -/
def Publishable (ids : List String) (claim : Option ℕ) : Prop :=
  x.Settleable ids claim ∨ claim = none ∧ (∃ e ∈ x.memory.entries, e.id ∈ ids ∧ e.status = .pending) ∧
    ∀ e ∈ x.memory.entries, e.id ∈ ids → e.status ≠ .dead

/-- A replay names no claimed entry, and settlements name what they can settle. -/
def Agreeable : OutboxCall ℕ → Prop
  | .replay ids => ∀ id ∈ ids, x.memory.claims.lookup id = none
  | .markPublished ids claim => x.Publishable ids claim
  | .markFailed id _ _ _ claim => x.Settleable [id] claim
  | .markDead id _ claim => x.Settleable [id] claim
  | _ => True

def settles {τ : Type} [DecidableEq τ] (ids : List String) (claim : Option τ) (y : OutboxSlot τ) : Bool :=
  y.id ∈ ids && y.entry.status = .pending && y.ownedBy claim

/-- How many of some claim calls handed anything out. -/
def taken (claims : List ClaimCall) : ℕ := claims.countP ClaimCall.handedOut

/-- Both states are the one outbox, whose claims carry the numbers of the claim calls. -/
structure Common (slots : OutboxSlots ℕ) : Prop where
  consistent : x.memory.Consistent
  memory : x.memory.slots = slots.mapToken fun k => (x.memoryToken k).getD ""
  sqlite : x.rows = OutboxTable.ofSlots (slots.mapToken fun k => (x.sqliteToken k).getD "")
  held : ∀ y ∈ slots, ∀ c, y.claim = some c → ∃ call, x.claims[c.token]? = some call ∧ call.handedOut = true
  fresh : (x.claims.map ClaimCall.sqlite).Nodup
  /-- The in-memory token counts the claim calls before it that handed anything out. -/
  numbered : ∀ k call, x.claims[k]? = some call → call.memory = "mem-" ++ toString (taken (x.claims.take k))
  next : x.memory.nextToken = taken x.claims

variable {x} {slots : OutboxSlots ℕ}

theorem taken_take_lt {claims : List ClaimCall} {j k : ℕ} {call : ClaimCall} (hjk : j < k)
    (hj : claims[j]? = some call) (hh : call.handedOut = true) :
    taken (claims.take j) < taken (claims.take k) := by
  have hsplit : claims.take (j + 1) = claims.take j ++ [call] := by
    rw [List.take_add_one,hj]
    rfl
  have hle : taken (claims.take (j + 1)) ≤ taken (claims.take k) :=
    (List.take_sublist_take_left (by omega)).countP_le
  have hsucc : taken (claims.take (j + 1)) = taken (claims.take j) + 1 := by
    rw [hsplit,taken,List.countP_append,List.countP_singleton,if_pos hh]
    rfl
  omega

theorem Common.memoryToken_inj (h : Common x slots) {k : ℕ} {call : ClaimCall}
    (hk : x.claims[k]? = some call) (hout : call.handedOut = true) {y : OutboxSlot ℕ} (hy : y ∈ slots)
    {c : ClaimState ℕ} (hc : y.claim = some c)
    (ht : (x.memoryToken c.token).getD "" = (x.memoryToken k).getD "") : c.token = k := by
  obtain ⟨other,hj,hh⟩ := h.held y hy c hc
  simp only [memoryToken,hj,hk,Option.map_some,Option.getD_some] at ht
  have hn : taken (x.claims.take c.token) = taken (x.claims.take k) :=
    OutboxState.token_injective ((h.numbered _ _ hj).symm.trans (ht.trans (h.numbered _ _ hk)))
  rcases lt_trichotomy c.token k with hlt | heq | hgt
  · exact absurd hn (taken_take_lt hlt hj hh).ne
  · exact heq
  · exact absurd hn (taken_take_lt hgt hk hout).ne'

theorem Common.not_held_empty (h : Common x slots) {k : ℕ} {call : ClaimCall}
    (hk : x.claims[k]? = some call) (hout : call.handedOut ≠ true) {y : OutboxSlot ℕ} (hy : y ∈ slots) :
    y.heldUnder k = false := by
  unfold OutboxSlot.heldUnder
  cases hc : y.claim with
  | none => rfl
  | some c =>
    obtain ⟨other,hj,hh⟩ := h.held y hy c hc
    refine decide_eq_false fun heq => ?_
    rw [heq,hk] at hj
    exact hout (Option.some.inj hj ▸ hh)

theorem Common.sqliteToken_inj (h : Common x slots) {k : ℕ} {call : ClaimCall}
    (hk : x.claims[k]? = some call) {y : OutboxSlot ℕ} (hy : y ∈ slots) {c : ClaimState ℕ}
    (hc : y.claim = some c) (ht : (x.sqliteToken c.token).getD "" = (x.sqliteToken k).getD "") :
    c.token = k := by
  obtain ⟨other,hj,-⟩ := h.held y hy c hc
  simp only [sqliteToken,hj,hk,Option.map_some,Option.getD_some] at ht
  refine (List.getElem?_inj (l := x.claims.map ClaimCall.sqlite) ?_ h.fresh).mp ?_
  · rw [List.length_map]
    exact (List.getElem?_eq_some_iff.mp hj).1
  · rw [List.getElem?_map,List.getElem?_map,hj,hk,Option.map_some,Option.map_some,ht]

theorem Common.memory_slot (h : Common x slots) {y : OutboxSlot ℕ} (hy : y ∈ slots) :
    y.mapToken (fun k => (x.memoryToken k).getD "") ∈ x.memory.slots := by
  rw [h.memory]
  exact List.mem_map_of_mem hy

theorem Common.memory_held (h : Common x slots) {ids : List String} {k : ℕ} {call : ClaimCall}
    (hk : x.claims[k]? = some call) (ha : x.Settleable ids (some k)) {y : OutboxSlot ℕ} (hy : y ∈ slots)
    (hid : y.id ∈ ids) :
    (y.mapToken fun k => (x.memoryToken k).getD "").heldUnder call.memory = y.heldUnder k := by
  have htoken : call.memory = (x.memoryToken k).getD "" := by rw [memoryToken,hk]; rfl
  by_cases hout : call.handedOut = true
  · rw [htoken]
    exact OutboxSlot.heldUnder_mapToken fun c hc => h.memoryToken_inj hk hout hy hc
  · rw [h.not_held_empty hk hout hy]
    have hnone := (ha call hk).resolve_left hout
    obtain ⟨e,-,hye⟩ := OutboxState.mem_slots.mp (h.memory_slot hy)
    have hlookup : (y.mapToken fun k => (x.memoryToken k).getD "").claim = x.memory.claims.lookup y.id := by
      have hentry : y.entry = e := congrArg OutboxSlot.entry hye
      rw [hye,OutboxSlot.id,hentry]
    rw [OutboxSlot.heldUnder,hlookup]
    cases hl : x.memory.claims.lookup y.id with
    | none => rfl
    | some held => exact decide_eq_false (hnone _ hid held hl)

theorem Common.memory_guard (h : Common x slots) {ids : List String} {claim : Option ℕ}
    (ha : x.Settleable ids claim ∨ claim = none) {given : Option String}
    (hg : givenToken x.memoryToken claim = some given) {y : OutboxSlot ℕ} (hy : y ∈ slots) :
    settles ids given (y.mapToken fun k => (x.memoryToken k).getD "") = settles ids claim y := by
  cases claim with
  | none =>
    obtain rfl := Option.some.inj hg
    rfl
  | some k =>
    obtain ⟨token,ht,rfl⟩ := Option.map_eq_some_iff.mp hg
    obtain ⟨call,hk,rfl⟩ := Option.map_eq_some_iff.mp ht
    have ha := ha.resolve_right fun hnone => by cases hnone
    by_cases hid : y.id ∈ ids
    · exact congrArg _ (h.memory_held hk ha hy hid)
    · have hid' : (y.mapToken fun k => (x.memoryToken k).getD "").id ∉ ids := hid
      rw [settles,settles,decide_eq_false hid,decide_eq_false hid']
      rfl

theorem Common.sqlite_guard (h : Common x slots) {ids : List String} {claim : Option ℕ}
    {given : Option String} (hg : givenToken x.sqliteToken claim = some given) {y : OutboxSlot ℕ}
    (hy : y ∈ slots) :
    settles ids given (y.mapToken fun k => (x.sqliteToken k).getD "") = settles ids claim y := by
  cases claim with
  | none =>
    obtain rfl := Option.some.inj hg
    rfl
  | some k =>
    obtain ⟨token,ht,rfl⟩ := Option.map_eq_some_iff.mp hg
    obtain ⟨call,hk,rfl⟩ := Option.map_eq_some_iff.mp ht
    have htoken : call.sqlite = (x.sqliteToken k).getD "" := by rw [sqliteToken,hk]; rfl
    have hheld : (y.mapToken fun k => (x.sqliteToken k).getD "").heldUnder call.sqlite = y.heldUnder k := by
      rw [htoken]
      exact OutboxSlot.heldUnder_mapToken fun c hc => h.sqliteToken_inj hk hy hc
    exact congrArg (decide (y.id ∈ ids) && decide (y.entry.status = .pending) && ·) hheld

theorem Common.settles_eq (h : Common x slots) {ids : List String} {claim : Option ℕ}
    (ha : x.Settleable ids claim) {given : Option String}
    (hg : givenToken x.memoryToken claim = some given) {y : OutboxSlot String} (hy : y ∈ x.memory.slots) :
    (decide (y.id ∈ ids) && y.ownedBy given) = settles ids given y := by
  have hp : y.id ∈ ids → y.ownedBy given = true → y.entry.status = .pending := by
    intro hid ho
    cases claim with
    | none =>
      obtain ⟨e,he,rfl⟩ := OutboxState.mem_slots.mp hy
      exact ha e he hid
    | some k =>
      obtain ⟨token,-,rfl⟩ := Option.map_eq_some_iff.mp hg
      refine h.consistent.wellFormed.claimed y hy fun hnone => ?_
      rw [OutboxSlot.ownedBy,OutboxSlot.heldUnder,hnone] at ho
      cases ho
  rw [settles,Bool.eq_iff_iff]
  simp only [Bool.and_eq_true,decide_eq_true_eq]
  constructor
  · rintro ⟨hid,ho⟩
    exact ⟨⟨hid,hp hid ho⟩,ho⟩
  · rintro ⟨⟨hid,-⟩,ho⟩
    exact ⟨hid,ho⟩

/-- Both adapters update the slots of the common outbox that a guard selects, each in its way. -/
theorem Common.update (h : Common x slots) {m : OutboxState} {rows : OutboxTable} {p : OutboxSlot ℕ → Bool}
    {f : OutboxSlot ℕ → OutboxSlot ℕ} {pm ps : OutboxSlot String → Bool}
    {fs : OutboxSlot String → OutboxSlot String} (hm : m.Consistent)
    (hmemory : m.slots = updateWhere pm fs x.memory.slots) (hnext : m.nextToken = x.memory.nextToken)
    (hrows : ∀ s : OutboxSlots String, x.rows = OutboxTable.ofSlots s →
      rows = OutboxTable.ofSlots (updateWhere ps fs s))
    (hpm : ∀ y ∈ slots, pm (y.mapToken fun k => (x.memoryToken k).getD "") = p y)
    (hps : ∀ y ∈ slots, ps (y.mapToken fun k => (x.sqliteToken k).getD "") = p y)
    (hf : ∀ (g : ℕ → String) y, (f y).mapToken g = fs (y.mapToken g))
    (hkeep : ∀ y c, (f y).claim = some c → y.claim = some c) :
    Common ⟨m,rows,x.claims⟩ (updateWhere p f slots) where
  consistent := hm
  memory := by
    rw [hmemory,h.memory]
    exact (map_updateWhere hpm fun y _ _ => hf _ y).symm
  sqlite := by
    rw [hrows _ h.sqlite]
    exact congrArg _ (map_updateWhere hps fun y _ _ => hf _ y).symm
  held := by
    intro y hy c hc
    obtain ⟨z,hz,rfl⟩ := List.mem_map.mp hy
    split at hc
    · exact h.held z hz c (hkeep z c hc)
    · exact h.held z hz c hc
  fresh := h.fresh
  numbered := h.numbered
  next := hnext.trans h.next

theorem Common.settle (h : Common x slots) {ids : List String} {claim : Option ℕ}
    (ha : x.Settleable ids claim ∨ claim = none) {mc sc : Option String}
    (hmc : givenToken x.memoryToken claim = some mc) (hsc : givenToken x.sqliteToken claim = some sc)
    {f : OutboxSlot ℕ → OutboxSlot ℕ} {fs : OutboxSlot String → OutboxSlot String}
    {fr : OutboxRow → OutboxRow} {m : Bool × OutboxState} (hm : m.2.Consistent)
    (hmemory : m.2.slots = updateWhere (settles ids mc) fs x.memory.slots)
    (hanswer : m.1 = x.memory.slots.any (settles ids mc)) (hnext : m.2.nextToken = x.memory.nextToken)
    (hfr : ∀ y, OutboxRow.ofSlot (fs y) = fr (OutboxRow.ofSlot y))
    (hf : ∀ (g : ℕ → String) y, (f y).mapToken g = fs (y.mapToken g))
    (hkeep : ∀ y c, (f y).claim = some c → y.claim = some c) :
    m.1 = (OutboxTable.settle x.rows (OutboxRow.settles ids sc) fr).1 ∧
      Common ⟨m.2,(OutboxTable.settle x.rows (OutboxRow.settles ids sc) fr).2,x.claims⟩
        (updateWhere (settles ids claim) f slots) := by
  have hsettle : ∀ s : OutboxSlots String, x.rows = OutboxTable.ofSlots s →
      OutboxTable.settle x.rows (OutboxRow.settles ids sc) fr =
        (s.any (settles ids sc),OutboxTable.ofSlots (updateWhere (settles ids sc) fs s)) :=
    fun s hs => hs ▸ OutboxTable.settle_ofSlots s ids sc hfr
  constructor
  · rw [hanswer,hsettle _ h.sqlite,h.memory]
    simp only [OutboxSlots.mapToken,List.any_map]
    have hleft : (slots.any fun y => settles ids mc (y.mapToken fun k => (x.memoryToken k).getD "")) =
        slots.any (settles ids claim) := any_congr_mem fun y hy => h.memory_guard ha hmc hy
    exact hleft.trans (any_congr_mem fun y hy => h.sqlite_guard hsc hy).symm
  · exact h.update hm hmemory hnext (fun s hs => congrArg Prod.snd (hsettle s hs))
      (fun y hy => h.memory_guard ha hmc hy) (fun y hy => h.sqlite_guard hsc hy) hf hkeep

theorem Common.settle_memory (h : Common x slots) {ids : List String} {claim : Option ℕ}
    (ha : x.Settleable ids claim) {mc : Option String} (hmc : givenToken x.memoryToken claim = some mc)
    {fs : OutboxSlot String → OutboxSlot String} {m : Bool × OutboxState}
    (hmemory : m.2.slots = updateWhere (fun y => decide (y.id ∈ ids) && y.ownedBy mc) fs x.memory.slots)
    (hanswer : m.1 = x.memory.slots.any fun y => decide (y.id ∈ ids) && y.ownedBy mc) :
    m.2.slots = updateWhere (settles ids mc) fs x.memory.slots ∧
      m.1 = x.memory.slots.any (settles ids mc) := by
  constructor
  · exact hmemory.trans (updateWhere_congr (fun y hy => h.settles_eq ha hmc hy) fun y _ _ => rfl)
  · exact hanswer.trans (any_congr_mem fun y hy => h.settles_eq ha hmc hy)

theorem Common.publish_memory (h : Common x slots) {ids : List String} {claim : Option ℕ}
    (ha : x.Publishable ids claim) {mc : Option String} (hmc : givenToken x.memoryToken claim = some mc) :
    (x.memory.markPublished ids mc).2.slots =
        updateWhere (settles ids mc) OutboxSlot.publish x.memory.slots ∧
      (x.memory.markPublished ids mc).1 = x.memory.slots.any (settles ids mc) := by
  have hmemory := h.consistent.markPublished_slots ids mc
  have hanswer := h.consistent.markPublished_applied ids mc
  rcases ha with ha | ⟨rfl,⟨e,he,hid,hp⟩,hdead⟩
  · exact h.settle_memory ha hmc hmemory hanswer
  · obtain rfl := Option.some.inj hmc
    have hslot := OutboxState.mem_slots.mpr ⟨e,he,rfl⟩
    constructor
    · refine hmemory.trans (updateWhere_narrow (fun y hy hg => ?_) fun y hy hg hn => ?_)
      · rw [settles,Bool.and_eq_true,Bool.and_eq_true] at hg
        rw [hg.1.1,hg.2]
        rfl
      · obtain ⟨e,he,rfl⟩ := OutboxState.mem_slots.mp hy
        rw [Bool.and_eq_true,decide_eq_true_eq] at hg
        have hnp : e.status ≠ .pending := by
          intro hp
          rw [settles,decide_eq_true hg.1,decide_eq_true hp,hg.2] at hn
          cases hn
        have hpub : e.status = .published := by
          cases hs : e.status with
          | pending => exact absurd hs hnp
          | published => rfl
          | dead => exact absurd hs (hdead e he hg.1)
        have hnone : x.memory.claims.lookup e.id = none :=
          not_not.mp fun hc => hnp (h.consistent.wellFormed.claimed _ hy hc)
        rw [OutboxSlot.publish,OutboxEntry.publish,hnone]
        dsimp only
        rw [← hpub]
    · rw [hanswer,List.any_eq_true.mpr ⟨_,hslot,by simp [hid,OutboxSlot.ownedBy]⟩,
        List.any_eq_true.mpr ⟨_,hslot,by simp [settles,hid,hp,OutboxSlot.ownedBy]⟩]

theorem Common.enqueue (h : Common x slots) (messages : List OutboxMessage) :
    Common ⟨x.memory.enqueue messages,OutboxTable.enqueue x.rows messages,x.claims⟩
      (slots.enqueue messages) := by
  obtain ⟨hslots,hcons⟩ := h.consistent.enqueue_slots messages
  refine ⟨hcons,?_,?_,?_,h.fresh,h.numbered,h.next⟩
  · exact hslots.trans (h.memory ▸ OutboxSlots.enqueue_mapToken messages)
  · have hrows := OutboxTable.enqueue_ofSlots (slots.mapToken fun k => (x.sqliteToken k).getD "") messages
    rw [OutboxSlots.enqueue_mapToken,← h.sqlite] at hrows
    exact hrows
  · intro y hy c hc
    rcases OutboxSlots.mem_enqueue hy with hy | hnone
    · exact h.held y hy c hc
    · rw [hnone] at hc
      cases hc

theorem Common.not_held (h : Common x slots) {uuid : String} (hu : uuid ∉ x.claims.map ClaimCall.sqlite) :
    ∀ y ∈ slots.mapToken (fun k => (x.sqliteToken k).getD ""), y.heldUnder uuid = false := by
  intro y hy
  obtain ⟨z,hz,rfl⟩ := List.mem_map.mp hy
  cases hc : z.claim with
  | none => simp [OutboxSlot.heldUnder,OutboxSlot.mapToken,hc]
  | some c =>
    obtain ⟨call,hcall,-⟩ := h.held z hz c hc
    have hm := List.mem_map_of_mem (f := ClaimCall.sqlite) (List.mem_of_getElem? hcall)
    have hne : call.sqlite ≠ uuid := fun he => hu (he ▸ hm)
    simp [OutboxSlot.heldUnder,OutboxSlot.mapToken,hc,sqliteToken,hcall,hne]

theorem Common.claim (h : Common x slots) (limit : ℕ) (lease : Duration) (now : ℚ) {uuid : String}
    (hu : uuid ∉ x.claims.map ClaimCall.sqlite) :
    Common ⟨(x.memory.claim limit lease now).1,(OutboxTable.claim x.rows limit lease now uuid).1,
        x.record (.claim limit lease now uuid)⟩
      (slots.claim limit now x.claims.length (now + lease.millis)) := by
  let call : ClaimCall := ⟨x.memory.token,uuid,(x.memory.claim limit lease now).2.entries.length > 0⟩
  have hlt : ∀ y ∈ slots, ∀ c, y.claim = some c → c.token < x.claims.length := by
    intro y hy c hc
    obtain ⟨other,hj,-⟩ := h.held y hy c hc
    exact (List.getElem?_eq_some_iff.mp hj).1
  have htokens : ∀ (pick : ClaimCall → String), slots.mapToken (fun k => (x.claims[k]?.map pick).getD "") =
      slots.mapToken fun k => ((x.claims ++ [call])[k]?.map pick).getD "" := by
    intro pick
    refine OutboxSlots.mapToken_congr fun y hy c hc => ?_
    rw [List.getElem?_append_left (hlt y hy c hc)]
  have hnew : (x.claims ++ [call])[x.claims.length]? = some call := by simp
  constructor
  · exact h.consistent.claim limit lease now
  · refine (h.consistent.claim_slots limit lease now).trans ?_
    rw [h.memory]
    have hmap := slots.claim_mapToken limit now x.claims.length (now + lease.millis)
      (f := fun k => ((x.claims ++ [call])[k]?.map ClaimCall.memory).getD "")
    rw [← htokens,hnew] at hmap
    exact hmap
  · have hrows := OutboxTable.claim_ofSlots (slots.mapToken fun k => (x.sqliteToken k).getD "") limit lease
      now uuid
    rw [← h.sqlite] at hrows
    have hmap := slots.claim_mapToken limit now x.claims.length (now + lease.millis)
      (f := fun k => ((x.claims ++ [call])[k]?.map ClaimCall.sqlite).getD "")
    rw [← htokens,hnew] at hmap
    exact hrows.trans (congrArg OutboxTable.ofSlots hmap)
  · intro y hy c hc
    rcases OutboxSlots.mem_claim hy with hy | ⟨z,hz,rfl⟩
    · obtain ⟨other,hj,hh⟩ := h.held y hy c hc
      exact ⟨other,(List.getElem?_append_left (hlt y hy c hc)).trans hj,hh⟩
    · obtain rfl := Option.some.inj hc
      refine ⟨call,hnew,decide_eq_true ?_⟩
      rw [OutboxState.claim_entries,h.memory,OutboxSlots.pending_mapToken,OutboxSlots.pending,
        List.length_map]
      exact List.length_pos_of_mem hz
  · have hmap : (x.claims ++ [call]).map ClaimCall.sqlite = x.claims.map ClaimCall.sqlite ++ [uuid] := by
      rw [List.map_append]
      rfl
    refine hmap ▸ List.nodup_append.mpr ⟨h.fresh,List.nodup_singleton uuid,?_⟩
    rintro a ha b hb rfl
    exact hu (List.mem_singleton.mp hb ▸ ha)
  · intro k other hk
    rcases lt_or_ge k x.claims.length with hlt' | hge
    · have hk' : x.claims[k]? = some other := (List.getElem?_append_left hlt').symm.trans hk
      have htake : (x.claims ++ [call]).take k = x.claims.take k :=
        List.take_append_of_le_length hlt'.le
      exact (h.numbered k other hk').trans (congrArg (fun l => "mem-" ++ toString (taken l)) htake.symm)
    · have hk' : k = x.claims.length := by
        have hb : k < (x.claims ++ [call]).length := (List.getElem?_eq_some_iff.mp hk).1
        rw [List.length_append,List.length_singleton] at hb
        omega
      subst hk'
      obtain rfl := Option.some.inj (hnew.symm.trans hk)
      have htake : (x.claims ++ [call]).take x.claims.length = x.claims := List.take_left
      have hnumber : call.memory = "mem-" ++ toString (taken x.claims) := by
        rw [← h.next]
        rfl
      exact hnumber.trans (congrArg (fun l => "mem-" ++ toString (taken l)) htake.symm)
  · have hn := OutboxState.claim_nextToken x.memory limit lease now
    rw [h.next] at hn
    refine hn.trans ?_
    have hone : taken [call] =
        if 0 < (x.memory.claim limit lease now).2.entries.length then 1 else 0 := by
      rw [taken,List.countP_singleton]
      simp only [call,decide_eq_true_eq,gt_iff_lt]
    have htaken : taken (x.claims ++ [call]) = taken x.claims + taken [call] := List.countP_append
    refine Eq.trans ?_ htaken.symm
    rw [hone]

/-- A call that both adapters agree about: the answers are alike and the states stay in common. -/
theorem Common.step (h : Common x slots) {call : OutboxCall ℕ} (ha : x.Agreeable call)
    {c : OutboxCall String × OutboxCall String} (hc : x.calls call = some c) :
    Alike (x.memory.apply c.1).2 (OutboxTable.apply x.rows c.2).2 ∧
      ∃ slots', Common ⟨(x.memory.apply c.1).1,(OutboxTable.apply x.rows c.2).1,x.record call⟩ slots' := by
  unfold calls at hc
  split at hc
  next hfresh =>
    obtain ⟨mc,hmc,hc⟩ := Option.bind_eq_some_iff.mp hc
    obtain ⟨sc,hsc,hc⟩ := Option.bind_eq_some_iff.mp hc
    obtain rfl := Option.some.inj hc
    cases call with
    | enqueue messages =>
      obtain rfl := Option.some.inj hmc
      obtain rfl := Option.some.inj hsc
      exact ⟨trivial,_,h.enqueue messages⟩
    | pending limit now =>
      obtain rfl := Option.some.inj hmc
      obtain rfl := Option.some.inj hsc
      refine ⟨?_,slots,h⟩
      simp only [OutboxState.apply,OutboxTable.apply,OutboxState.pending_eq,h.memory,h.sqlite,
        OutboxTable.pending_ofSlots,OutboxSlots.pending_mapToken,Alike]
    | claim limit lease now uuid =>
      obtain rfl := Option.some.inj hmc
      obtain rfl := Option.some.inj hsc
      refine ⟨?_,_,h.claim limit lease now hfresh⟩
      have hanswer := OutboxTable.claim_answer (h.not_held hfresh) limit lease now
      rw [← h.sqlite,OutboxSlots.pending_mapToken] at hanswer
      have hentries := OutboxState.claim_entries x.memory limit lease now
      rw [h.memory,OutboxSlots.pending_mapToken] at hentries
      simp only [OutboxState.apply,OutboxTable.apply,hanswer,Alike,hentries]
      exact ⟨trivial,rfl⟩
    | markPublished ids claim =>
      obtain ⟨m,hm,rfl⟩ := Option.map_eq_some_iff.mp hmc
      obtain ⟨s,hs,rfl⟩ := Option.map_eq_some_iff.mp hsc
      have hrow : ∀ y, OutboxRow.ofSlot (OutboxSlot.publish y) = OutboxTable.publish (.ofSlot y) :=
        fun y => rfl
      obtain ⟨hr,hb⟩ := h.publish_memory ha hm
      obtain ⟨ha,hc⟩ := h.settle (ha.imp_right And.left) hm hs (f := OutboxSlot.publish)
        (m := x.memory.markPublished ids m) (h.consistent.markPublished ids m) hr hb
        (h.consistent.markPublished_published ids m).nextToken hrow (fun g y => rfl)
        fun y c hc => by cases hc
      rw [← OutboxTable.markPublished_eq] at ha hc
      exact ⟨ha,_,hc⟩
    | markFailed id error attempts retryAt claim =>
      obtain ⟨m,hm,rfl⟩ := Option.map_eq_some_iff.mp hmc
      obtain ⟨s,hs,rfl⟩ := Option.map_eq_some_iff.mp hsc
      obtain ⟨hr,hb⟩ := h.consistent.markFailed_refines id error attempts retryAt m
      obtain ⟨hr,hb⟩ := h.settle_memory ha hm hr hb
      have hrow : ∀ y, OutboxRow.ofSlot (OutboxSlot.fail error attempts retryAt y) =
          OutboxTable.fail error attempts retryAt (.ofSlot y) := fun y => rfl
      obtain ⟨ha,hc⟩ := h.settle (.inl ha) hm hs (f := OutboxSlot.fail error attempts retryAt)
        (m := x.memory.markFailed id error attempts retryAt m)
        (h.consistent.markFailed id error attempts retryAt m) hr hb
        (x.memory.markFailed_nextToken id error attempts retryAt m) hrow (fun g y => rfl)
        fun y c hc => hc
      exact ⟨ha,_,hc⟩
    | markDead id error claim =>
      obtain ⟨m,hm,rfl⟩ := Option.map_eq_some_iff.mp hmc
      obtain ⟨s,hs,rfl⟩ := Option.map_eq_some_iff.mp hsc
      obtain ⟨hr,hb⟩ := h.consistent.markDead_refines id error m
      obtain ⟨hr,hb⟩ := h.settle_memory ha hm hr hb
      have hrow : ∀ y, OutboxRow.ofSlot (OutboxSlot.bury error y) = OutboxTable.bury error (.ofSlot y) :=
        fun y => rfl
      obtain ⟨ha,hc⟩ := h.settle (.inl ha) hm hs (f := OutboxSlot.bury error)
        (m := x.memory.markDead id error m) (h.consistent.markDead id error m) hr hb
        (x.memory.markDead_nextToken id error m) hrow (fun g y => rfl)
        fun y c hc => by cases hc
      exact ⟨ha,_,hc⟩
    | replay ids =>
      obtain rfl := Option.some.inj hmc
      obtain rfl := Option.some.inj hsc
      refine ⟨trivial,_,h.update (f := OutboxSlot.requeue) (h.consistent.replay_refines ids).2
        (h.consistent.replay_unclaimed ha) (x.memory.replay_nextToken ids)
        (fun s hs => (congrArg (OutboxTable.replay · ids) hs).trans (OutboxTable.replay_ofSlots s ids))
        (fun y hy => rfl) (fun y hy => rfl) (fun g y => rfl) fun y c hc => by cases hc⟩
    | deadLetters =>
      obtain rfl := Option.some.inj hmc
      obtain rfl := Option.some.inj hsc
      refine ⟨?_,slots,h⟩
      simp only [OutboxState.apply,OutboxTable.apply,OutboxState.deadLetters_eq,h.memory,h.sqlite,
        OutboxTable.deadLetters_ofSlots,OutboxSlots.deadLetters_mapToken,Alike]
  next => cases hc

theorem common_init : Common runs.init [] := by
  constructor
  · exact OutboxState.consistent_empty
  · rfl
  · rfl
  · intro y hy
    cases hy
  · exact List.nodup_nil
  · intro k call hk
    cases hk
  · rfl

theorem common_of_reaches (hr : runs.Reaches Agreeable x) : ∃ slots, Common x slots := by
  refine hr.invariant (fun x => ∃ slots, Common x slots) ⟨[],common_init⟩ ?_
  rintro a call b ⟨slots,h⟩ ha hs
  obtain ⟨c,hc,rfl⟩ := Option.map_eq_some_iff.mp hs
  exact (h.step ha hc).2

/-- The adapters answer alike for as long as no call asks for what they do differently. -/
theorem outboxes_agree (hr : runs.Reaches Agreeable x) {call : OutboxCall ℕ} (ha : x.Agreeable call) :
    x.AnswersAlike call := by
  obtain ⟨slots,h⟩ := common_of_reaches hr
  exact fun c hc => (h.step ha hc).1

def halfMinute : Duration := ⟨30000,thirtySeconds_nonneg⟩

/-- A claim, a settlement under it and a look at what is left. -/
theorem outboxes_agree_invoices :
    ∃ x, runs.run [.enqueue [invoice "m1",invoice "m2"],.claim 10 halfMinute 0 "u1"] = some x ∧
      x.calls (.markPublished ["m1","m1","m3"] (some 0)) ≠ none ∧
      x.AnswersAlike (.markPublished ["m1","m1","m3"] (some 0)) := by
  have r0 : runs.Reaches Agreeable runs.init := Relation.ReflTransGen.refl
  have r1 := r0.step (l := .enqueue [invoice "m1",invoice "m2"]) (by exact trivial) rfl
  have r2 := r1.step (l := .claim 10 halfMinute 0 "u1") (by exact trivial) rfl
  refine ⟨_,rfl,by decide +kernel,outboxes_agree r2 (Or.inl fun call hk => Or.inl ?_)⟩
  obtain rfl := Option.some.inj hk
  rfl

/-- Calls after which the adapters answer one more call differently: a replay of a claimed
entry, a settlement without a token of a published one, and a settlement under the token of
a claim that found nothing. -/
def drifts : List (List (OutboxCall ℕ) × OutboxCall ℕ) :=
  [([.enqueue [invoice "m1"],.claim 10 halfMinute 0 "u1",.replay ["m1"]],.pending 10 1),
    ([.enqueue [invoice "m1"],.markPublished ["m1"] none],.markPublished ["m1"] none),
    ([.claim 10 halfMinute 0 "u1",.enqueue [invoice "m1"],.claim 10 halfMinute 1 "u2"],
      .markPublished ["m1"] (some 0))]

theorem outboxes_drift :
    (∀ d ∈ drifts, ∃ x, runs.run d.1 = some x ∧ ¬ x.AnswersAlike d.2) ∧
      ¬ ∀ x, runs.Reachable x → ∀ call, x.AnswersAlike call := by
  have hdrift : ∀ d ∈ drifts, ∃ x, runs.run d.1 = some x ∧ ¬ x.AnswersAlike d.2 := by
    intro d hd
    simp only [drifts,List.mem_cons,List.not_mem_nil,or_false] at hd
    obtain rfl | rfl | rfl := hd
    · exact ⟨_,rfl,fun h => absurd (h _ rfl) (by decide +kernel)⟩
    · exact ⟨_,rfl,fun h => absurd (h _ rfl) (by decide +kernel)⟩
    · exact ⟨_,rfl,fun h => absurd (h _ rfl) (by decide +kernel)⟩
  refine ⟨hdrift,fun h => ?_⟩
  obtain ⟨x,hx,hn⟩ := hdrift _ List.mem_cons_self
  exact hn (h x (System.run_reachable hx) _)

end Outboxes
end StructureAi.Sqlite

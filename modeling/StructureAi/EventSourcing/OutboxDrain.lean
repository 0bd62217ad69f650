import StructureAi.EventSourcing.OutboxRelay

/-! # One drain by the only relay

`drain` claims a batch, publishes its entries with their retries and goes on until a
claim hands nothing out. An entry that is claimed leaves `publishEntry` published or
dead, so every turn of the loop has fewer pending entries before it than the last one.
-/
namespace StructureAi.EventSourcing
open StructureAi.Foundation

/-- What a drain is told from outside: the clock by the number of readings made before, and the
outcome of `publish` and the jitter by the number of its calls. A failure is its text. -/
structure DrainOracle where
  clock : ℕ → ℚ
  publish : ℕ → OutboxEntry → Except String Unit
  factor : ℕ → ℚ

/-- A call of `publish`, with the outbox it was made over. -/
structure Publication where
  entry : OutboxEntry
  outbox : OutboxState
  outcome : Except String Unit

namespace Publication

def error (p : Publication) : Option String :=
  match p.outcome with
  | .ok _ => none
  | .error text => some text

/-- The entry was neither published nor dead when the call was made. -/
def Pending (p : Publication) : Prop :=
  ∃ e ∈ p.outbox.entries, e.id = p.entry.id ∧ e.status = .pending

end Publication

/-- A drain under way: the outbox, the clock readings and the calls of `publish` made so far. -/
structure Drain where
  outbox : OutboxState
  readings : ℕ
  publications : List Publication

namespace Drain

def start (outbox : OutboxState) : Drain := ⟨outbox,0,[]⟩

/-- The calls of `publish` for an entry. -/
def callsOf (publications : List Publication) (id : String) : List Publication :=
  publications.filter fun p => p.entry.id = id

section Code
variable (oracle : DrainOracle) (options : OutboxRelayOptions)

/-- The loop of `publishEntry`. Time passes in its sleep, which the next reading shows. -/
def publishLoop (entry : OutboxEntry) (token : String) : ℕ → ℤ → Drain → Option (Bool × Drain)
  | 0,_,_ => none
  | fuel + 1,attempts,x =>
    let outcome := oracle.publish x.publications.length entry
    let called := x.publications ++ [⟨entry,x.outbox,outcome⟩]
    match outcome with
    | .ok _ =>
      let settled := x.outbox.markPublished [entry.id] (some token)
      some (settled.1,⟨settled.2,x.readings,called⟩)
    | .error text =>
      if attempts + 1 ≥ options.attemptsAllowed then
        let failed := x.outbox.markFailed entry.id text (attempts + 1) none (some token)
        let settled := failed.2.markDead entry.id text (some token)
        some (settled.1,⟨settled.2,x.readings,called⟩)
      else
        let delayMillis := options.backoffDelay (attempts + 1) (oracle.factor x.publications.length)
        let retryAt := oracle.clock x.readings + delayMillis
        let held := x.outbox.markFailed entry.id text (attempts + 1) (some retryAt) (some token)
        let next : Drain := ⟨held.2,x.readings + 1,called⟩
        if held.1 then publishLoop entry token fuel (attempts + 1) next else some (false,next)

def publishEntry (fuel : ℕ) (entry : OutboxEntry) (token : String) (x : Drain) : Option (Bool × Drain) :=
  if entry.attempts ≥ options.attemptsAllowed then
    let settled := x.outbox.markDead entry.id
      (entry.lastError.getD "exhausted attempts before this pass") (some token)
    some (settled.1,{x with outbox := settled.2})
  else publishLoop oracle options entry token fuel entry.attempts x

def publishEach (fuel : ℕ) (token : String) : List OutboxEntry → Drain → Option Drain
  | [],x => some x
  | entry :: rest,x =>
    (publishEntry oracle options fuel entry token x).bind fun r => publishEach fuel token rest r.2

/-- The claim at the head of the loop of `drain`. -/
def claimed (x : Drain) : OutboxState × OutboxClaim String :=
  x.outbox.claim (options.batchSize.getD 32) options.leaseTaken (oracle.clock x.readings)

/-- `drain`, for as many turns of its two loops as there is fuel. -/
def drain : ℕ → Drain → Option Drain
  | 0,_ => none
  | fuel + 1,x =>
    let r := claimed oracle options x
    let next : Drain := ⟨r.1,x.readings + 1,x.publications⟩
    if r.2.entries.length = 0 then some next
    else (publishEach oracle options fuel r.2.token r.2.entries next).bind (drain fuel)

end Code

/-- The error an entry dies with: the last one of its calls, else the one it came with. -/
def lastError (entry : OutboxEntry) (calls : List Publication) : String :=
  (calls.filterMap Publication.error).getLast?.getD
    (entry.lastError.getD "exhausted attempts before this pass")

/-- An entry that was claimed, after its calls of `publish`. -/
structure Ended (allowed : ℤ) (entry : OutboxEntry) (calls : List Publication) (final : OutboxEntry) :
    Prop where
  id : final.id = entry.id
  bounded : (calls.length : ℤ) ≤ max 0 (allowed - entry.attempts)
  settled : final.status = .published ∨ final.status = .dead ∧
    final.attempts = entry.attempts + calls.length ∧ final.lastError = some (lastError entry calls)

/-- What a drain of `s` that ended as `x` has done. -/
structure Drained (options : OutboxRelayOptions) (oracle : DrainOracle) (s : OutboxState) (x : Drain) :
    Prop where
  settled : ∀ e ∈ s.entries, s.claimable (oracle.clock 0) e = true → ∃ final ∈ x.outbox.entries,
    final.id = e.id ∧ (final.status = .published ∨ final.status = .dead)
  bounded : ∀ e ∈ s.entries,
    ((callsOf x.publications e.id).length : ℤ) ≤ max 0 (options.attemptsAllowed - e.attempts)
  died : ∀ e ∈ s.entries, e.status ≠ .dead → ∀ final ∈ x.outbox.entries, final.id = e.id →
    final.status = .dead → final.attempts = e.attempts + (callsOf x.publications e.id).length ∧
      final.lastError = some (lastError e (callsOf x.publications e.id))
  once : ∀ p ∈ x.publications, p.Pending

/-- One slot has changed to `z`, and no other. -/
structure Moves (s t : OutboxState) (id : String) (z : OutboxSlot String) : Prop where
  consistent : t.Consistent
  ids : t.slots.map OutboxSlot.id = s.slots.map OutboxSlot.id
  others : ∀ w ∈ s.slots, w.id ≠ id → w ∈ t.slots
  mem : z ∈ t.slots

theorem Moves.trans {s t u : OutboxState} {id : String} {z w : OutboxSlot String} (h : Moves s t id z)
    (h' : Moves t u id w) : Moves s u id w :=
  ⟨h'.consistent,h'.ids.trans h.ids,fun v hv hid => h'.others v (h.others v hv hid) hid,h'.mem⟩

theorem moves_of_settles {s t : OutboxState} {id token : String}
    {f : OutboxSlot String → OutboxSlot String} {y : OutboxSlot String} (h : Settles s t id token f)
    (hy : y ∈ s.slots) (hid : y.id = id) (hheld : y.heldUnder token = true) : Moves s t id (f y) := by
  refine ⟨h.consistent,?_,fun w hw hne => h.mem_of_not_held hw (Or.inl hne),?_⟩
  · rw [h.slots,updateWhere,List.map_map]
    refine List.map_congr_left fun w _ => ?_
    rw [Function.comp_apply]
    split
    · exact h.ids w
    · rfl
  · have hp : (decide (y.id ∈ [id]) && y.ownedBy (some token)) = true := by
      rw [OutboxSlot.ownedBy,hheld,hid]
      simp
    rw [h.slots]
    exact List.mem_map.mpr ⟨y,hy,if_pos hp⟩

theorem pending_of_held {s : OutboxState} (h : s.Consistent) {token : String} {y : OutboxSlot String}
    (hy : y ∈ s.slots) (hheld : y.heldUnder token = true) : y.entry.status = .pending := by
  refine h.wellFormed.claimed y hy fun hnone => ?_
  rw [OutboxSlot.heldUnder,hnone] at hheld
  cases hheld

/-- What the loop of `publishEntry` does for an entry held under the token. -/
structure Looped (allowed : ℤ) (entry : OutboxEntry) (attempts : ℤ) (x t : Drain)
    (calls : List Publication) (final : OutboxEntry) : Prop where
  moves : Moves x.outbox t.outbox entry.id ⟨final,none⟩
  publications : t.publications = x.publications ++ calls
  pending : ∀ p ∈ calls, p.entry = entry ∧ p.Pending
  id : final.id = entry.id
  bounded : (calls.length : ℤ) ≤ allowed - attempts
  settled : final.status = .published ∨ final.status = .dead ∧
    final.attempts = attempts + calls.length ∧
    ∃ text, (calls.filterMap Publication.error).getLast? = some text ∧ final.lastError = some text

section Loop
variable (oracle : DrainOracle) {options : OutboxRelayOptions} {entry : OutboxEntry} {token : String}

theorem publishLoop_ends (fuel : ℕ) (attempts : ℤ) (x : Drain) (y : OutboxSlot String)
    (hc : x.outbox.Consistent) (hy : y ∈ x.outbox.slots) (hid : y.id = entry.id)
    (hheld : y.heldUnder token = true) (hleft : attempts < options.attemptsAllowed)
    (hfuel : options.attemptsAllowed - attempts ≤ fuel) : ∃ t calls final,
      publishLoop oracle options entry token fuel attempts x = some (true,t) ∧
      Looped options.attemptsAllowed entry attempts x t calls final := by
  induction fuel generalizing attempts x y with
  | zero =>
    have : options.attemptsAllowed - attempts ≤ 0 := by exact_mod_cast hfuel
    omega
  | succ fuel ih =>
    have hpending : ∀ outcome, Publication.Pending ⟨entry,x.outbox,outcome⟩ := by
      intro outcome
      obtain ⟨e,he,rfl⟩ := OutboxState.mem_slots.mp hy
      exact ⟨e,he,hid,pending_of_held hc hy hheld⟩
    rw [publishLoop]
    dsimp only
    cases houtcome : oracle.publish x.publications.length entry with
    | ok _ =>
      have hsettles := hc.settles_published entry.id token
      have happlied : (x.outbox.markPublished [entry.id] (some token)).1 = true := by
        rw [hc.markPublished_applied,List.any_eq_true]
        exact ⟨y,hy,by rw [OutboxSlot.ownedBy,hheld,hid]; simp⟩
      refine ⟨_,[⟨entry,x.outbox,.ok ()⟩],y.entry.publish,by rw [happlied],
        moves_of_settles hsettles hy hid hheld,rfl,?_,hid,?_,Or.inl rfl⟩
      · intro p hp
        obtain rfl := List.mem_singleton.mp hp
        exact ⟨rfl,hpending _⟩
      · rw [List.length_singleton]
        push_cast
        omega
    | error text =>
      dsimp only
      have hfirst : ∀ p ∈ [(⟨entry,x.outbox,.error text⟩ : Publication)],
          p.entry = entry ∧ p.Pending := by
        intro p hp
        obtain rfl := List.mem_singleton.mp hp
        exact ⟨rfl,hpending _⟩
      have howned : ∀ retryAt,
          (x.outbox.markFailed entry.id text (attempts + 1) retryAt (some token)).1 = true := by
        intro retryAt
        rw [(hc.markFailed_refines _ _ _ _ _).2,List.any_eq_true]
        exact ⟨y,hy,by rw [OutboxSlot.ownedBy,hheld,hid]; simp⟩
      have hfailed : ∀ retryAt, Moves x.outbox
          (x.outbox.markFailed entry.id text (attempts + 1) retryAt (some token)).2 entry.id
          (y.fail text (attempts + 1) retryAt) := fun retryAt =>
        moves_of_settles (hc.settles_failed entry.id text (attempts + 1) retryAt token) hy hid hheld
      split
      next hspent =>
        have hmoved := hfailed none
        have hdead := hmoved.consistent.settles_dead entry.id text token
        have happlied : ((x.outbox.markFailed entry.id text (attempts + 1) none (some token)).2.markDead
            entry.id text (some token)).1 = true := by
          rw [(hmoved.consistent.markDead_refines _ _ _).2,List.any_eq_true]
          refine ⟨_,hmoved.mem,?_⟩
          rw [OutboxSlot.ownedBy,show (y.fail text (attempts + 1) none).heldUnder token = true from hheld,
            show (y.fail text (attempts + 1) none).id = entry.id from hid]
          simp
        refine ⟨_,[⟨entry,x.outbox,.error text⟩],(y.entry.fail text (attempts + 1) none).bury text,
          by rw [happlied],hmoved.trans (moves_of_settles hdead hmoved.mem hid hheld),rfl,hfirst,hid,?_,
          Or.inr ⟨rfl,?_,text,rfl,rfl⟩⟩
        · rw [List.length_singleton]
          push_cast
          omega
        · rw [List.length_singleton]
          rfl
      next hmore =>
        rw [if_pos (howned _)]
        have hmoved := hfailed (some (oracle.clock x.readings +
          options.backoffDelay (attempts + 1) (oracle.factor x.publications.length)))
        obtain ⟨t,calls,final,hrun,hlooped⟩ := ih (attempts + 1)
          ⟨_,x.readings + 1,x.publications ++ [⟨entry,x.outbox,.error text⟩]⟩ _ hmoved.consistent
          hmoved.mem hid hheld (by omega) (by push_cast at hfuel; omega)
        refine ⟨t,⟨entry,x.outbox,.error text⟩ :: calls,final,hrun,hmoved.trans hlooped.moves,?_,?_,
          hlooped.id,?_,hlooped.settled.imp_right ?_⟩
        · rw [hlooped.publications,List.append_assoc]
          rfl
        · intro p hp
          rcases List.mem_cons.mp hp with rfl | hp
          · exact hfirst _ List.mem_cons_self
          · exact hlooped.pending p hp
        · have hb := hlooped.bounded
          rw [List.length_cons]
          push_cast
          omega
        · rintro ⟨hdead,hattempts,last,hlast,hcarried⟩
          refine ⟨hdead,?_,last,?_,hcarried⟩
          · rw [hattempts,List.length_cons]
            push_cast
            ring
          · change (text :: calls.filterMap Publication.error).getLast? = some last
            rw [List.getLast?_cons,hlast]
            rfl

end Loop

/-- What publishing a batch does to a drain. -/
structure Passed (allowed : ℤ) (batch : List OutboxEntry) (x t : Drain) (calls : List Publication) :
    Prop where
  consistent : t.outbox.Consistent
  ids : t.outbox.slots.map OutboxSlot.id = x.outbox.slots.map OutboxSlot.id
  others : ∀ w ∈ x.outbox.slots, w.id ∉ batch.map OutboxEntry.id → w ∈ t.outbox.slots
  publications : t.publications = x.publications ++ calls
  pending : ∀ p ∈ calls, p.entry ∈ batch ∧ p.Pending
  ended : ∀ e ∈ batch, ∃ final, (⟨final,none⟩ : OutboxSlot String) ∈ t.outbox.slots ∧
    Ended allowed e (callsOf calls e.id) final

section Batch
variable (oracle : DrainOracle) {options : OutboxRelayOptions}

/-- The fuel that is enough to publish an entry. -/
def attemptsLeft (options : OutboxRelayOptions) (e : OutboxEntry) : ℕ :=
  (options.attemptsAllowed - e.attempts).toNat

theorem callsOf_self {entry : OutboxEntry} {calls : List Publication}
    (h : ∀ p ∈ calls, p.entry = entry) : callsOf calls entry.id = calls :=
  List.filter_eq_self.mpr fun p hp => decide_eq_true (congrArg OutboxEntry.id (h p hp))

theorem callsOf_none {id : String} {calls : List Publication} (h : ∀ p ∈ calls, p.entry.id ≠ id) :
    callsOf calls id = [] :=
  List.filter_eq_nil_iff.mpr fun p hp => by simpa using h p hp

theorem callsOf_append (xs ys : List Publication) (id : String) :
    callsOf (xs ++ ys) id = callsOf xs id ++ callsOf ys id :=
  List.filter_append _ _

/-- A claimed entry leaves `publishEntry` published or dead. -/
theorem publishEntry_ends {entry : OutboxEntry} {token : String} (fuel : ℕ) (x : Drain)
    (hc : x.outbox.Consistent) {c : Option (ClaimState String)} (hy : ⟨entry,c⟩ ∈ x.outbox.slots)
    (hheld : (⟨entry,c⟩ : OutboxSlot String).heldUnder token = true)
    (hfuel : attemptsLeft options entry ≤ fuel) : ∃ t calls,
      publishEntry oracle options fuel entry token x = some (true,t) ∧
      Passed options.attemptsAllowed [entry] x t calls := by
  rw [publishEntry]
  dsimp only
  split
  next hspent =>
    have hsettles := hc.settles_dead entry.id
      (entry.lastError.getD "exhausted attempts before this pass") token
    have hmoved := moves_of_settles hsettles hy rfl hheld
    have happlied : (x.outbox.markDead entry.id
        (entry.lastError.getD "exhausted attempts before this pass") (some token)).1 = true := by
      rw [(hc.markDead_refines _ _ _).2,List.any_eq_true]
      exact ⟨_,hy,by rw [OutboxSlot.ownedBy,hheld]; simp⟩
    refine ⟨{x with outbox := _},[],by rw [happlied],hmoved.consistent,hmoved.ids,?_,(List.append_nil _).symm,
      fun p hp => absurd hp List.not_mem_nil,?_⟩
    · intro w hw hne
      exact hmoved.others w hw (by simpa using hne)
    · intro e he
      obtain rfl := List.mem_singleton.mp he
      refine ⟨_,hmoved.mem,rfl,by simp [callsOf],Or.inr ⟨rfl,?_,rfl⟩⟩
      simp [callsOf,OutboxEntry.bury]
  next hleft =>
    obtain ⟨t,calls,final,hrun,hl⟩ := publishLoop_ends oracle fuel entry.attempts x _ hc hy rfl
      hheld (not_le.mp hleft) (by unfold attemptsLeft at hfuel; omega)
    refine ⟨t,calls,hrun,hl.moves.consistent,hl.moves.ids,?_,hl.publications,?_,?_⟩
    · intro w hw hne
      exact hl.moves.others w hw (by simpa using hne)
    · intro p hp
      obtain ⟨he,hpend⟩ := hl.pending p hp
      exact ⟨he ▸ List.mem_singleton.mpr rfl,hpend⟩
    · intro e he
      obtain rfl := List.mem_singleton.mp he
      rw [callsOf_self fun p hp => (hl.pending p hp).1]
      refine ⟨final,hl.moves.mem,hl.id,le_max_of_le_right hl.bounded,hl.settled.imp_right ?_⟩
      rintro ⟨hdead,hattempts,text,hlast,hcarried⟩
      exact ⟨hdead,hattempts,by rw [hcarried,lastError,hlast]; rfl⟩

theorem Passed.cons {allowed : ℤ} {entry : OutboxEntry} {rest : List OutboxEntry} {x t u : Drain}
    {calls more : List Publication} (hne : entry.id ∉ rest.map OutboxEntry.id)
    (h : Passed allowed [entry] x t calls) (h' : Passed allowed rest t u more) :
    Passed allowed (entry :: rest) x u (calls ++ more) := by
  have hcalls : ∀ p ∈ calls, p.entry = entry := fun p hp => List.mem_singleton.mp (h.pending p hp).1
  have hmore : ∀ p ∈ more, p.entry.id ≠ entry.id := fun p hp hid =>
    hne (hid ▸ List.mem_map_of_mem (h'.pending p hp).1)
  refine ⟨h'.consistent,h'.ids.trans h.ids,?_,?_,?_,?_⟩
  · intro w hw hid
    rw [List.map_cons,List.mem_cons,not_or] at hid
    exact h'.others w (h.others w hw (by simpa using hid.1)) hid.2
  · rw [h'.publications,h.publications,List.append_assoc]
  · intro p hp
    rcases List.mem_append.mp hp with hp | hp
    · exact ⟨hcalls p hp ▸ List.mem_cons_self,(h.pending p hp).2⟩
    · exact ⟨List.mem_cons_of_mem _ (h'.pending p hp).1,(h'.pending p hp).2⟩
  · intro e he
    rcases List.mem_cons.mp he with rfl | he
    · obtain ⟨final,hmem,hend⟩ := h.ended e (List.mem_singleton.mpr rfl)
      rw [callsOf_append,callsOf_none hmore,List.append_nil]
      refine ⟨final,h'.others _ hmem ?_,hend⟩
      rw [OutboxSlot.id_mk,hend.id]
      exact hne
    · obtain ⟨final,hmem,hend⟩ := h'.ended e he
      have hother : ∀ p ∈ calls, p.entry.id ≠ e.id := fun p hp hid =>
        hne (hcalls p hp ▸ hid ▸ List.mem_map_of_mem he)
      rw [callsOf_append,callsOf_none hother,List.nil_append]
      exact ⟨final,hmem,hend⟩

theorem publishEach_ends {token : String} (fuel : ℕ) (batch : List OutboxEntry) (x : Drain)
    (hc : x.outbox.Consistent) (hids : (batch.map OutboxEntry.id).Nodup)
    (hheld : ∀ e ∈ batch, ∃ c, (⟨e,c⟩ : OutboxSlot String) ∈ x.outbox.slots ∧
      (⟨e,c⟩ : OutboxSlot String).heldUnder token = true)
    (hfuel : ∀ e ∈ batch, attemptsLeft options e ≤ fuel) : ∃ t calls,
      publishEach oracle options fuel token batch x = some t ∧
      Passed options.attemptsAllowed batch x t calls := by
  induction batch generalizing x with
  | nil =>
    refine ⟨x,[],rfl,hc,rfl,fun w hw _ => hw,(List.append_nil _).symm,?_,?_⟩
    · exact fun p hp => absurd hp List.not_mem_nil
    · exact fun e he => absurd he List.not_mem_nil
  | cons entry rest ih =>
    rw [List.map_cons,List.nodup_cons] at hids
    obtain ⟨c,hy,hown⟩ := hheld entry List.mem_cons_self
    obtain ⟨t,calls,hrun,hp⟩ := publishEntry_ends oracle fuel x hc hy hown
      (hfuel entry List.mem_cons_self)
    have hrest : ∀ e ∈ rest, ∃ c, (⟨e,c⟩ : OutboxSlot String) ∈ t.outbox.slots ∧
        (⟨e,c⟩ : OutboxSlot String).heldUnder token = true := by
      intro e he
      obtain ⟨c,hmem,hown⟩ := hheld e (List.mem_cons_of_mem _ he)
      refine ⟨c,hp.others _ hmem fun hid => hids.1 ?_,hown⟩
      rw [← List.mem_singleton.mp hid]
      exact List.mem_map_of_mem he
    obtain ⟨u,more,hrun',hp'⟩ := ih t hp.consistent hids.2 hrest
      fun e he => hfuel e (List.mem_cons_of_mem _ he)
    refine ⟨u,calls ++ more,?_,hp.cons hids.1 hp'⟩
    rw [publishEach,hrun]
    exact hrun'

end Batch

section Turns
variable {oracle : DrainOracle} {options : OutboxRelayOptions} {s : OutboxState} {x : Drain}

/-- Every entry is as it was at the start of the drain, or has been claimed and settled. -/
structure Progress (options : OutboxRelayOptions) (s : OutboxState) (x : Drain) : Prop where
  consistent : x.outbox.Consistent
  ids : x.outbox.slots.map OutboxSlot.id = s.slots.map OutboxSlot.id
  slots : ∀ y ∈ s.slots, y ∈ x.outbox.slots ∧ callsOf x.publications y.id = [] ∨
    ∃ final, (⟨final,none⟩ : OutboxSlot String) ∈ x.outbox.slots ∧
      Ended options.attemptsAllowed y.entry (callsOf x.publications y.id) final
  pending : ∀ p ∈ x.publications, p.Pending

theorem progress_start (h : s.Consistent) : Progress options s (start s) :=
  ⟨h,rfl,fun _ hy => Or.inl ⟨hy,rfl⟩,fun _ hp => absurd hp List.not_mem_nil⟩

theorem Ended.not_pending {allowed : ℤ} {entry final : OutboxEntry} {calls : List Publication}
    (h : Ended allowed entry calls final) : final.status ≠ .pending := by
  rcases h.settled with hs | ⟨hs,_⟩ <;> rw [hs] <;> decide

theorem slot_eq_of_id {s : OutboxState} (h : s.Consistent) {y z : OutboxSlot String} (hy : y ∈ s.slots)
    (hz : z ∈ s.slots) (hid : y.id = z.id) : y = z :=
  List.inj_on_of_nodup_map h.wellFormed.ids hy hz hid

section Claim
variable (limit : ℕ) (lease : Duration) (now : ℚ)

theorem mem_claim_of_not_taken {s : OutboxState} {y : OutboxSlot String} (hy : y ∈ s.slots)
    (hid : y.id ∉ (s.claim limit lease now).2.entries.map OutboxEntry.id) :
    y ∈ (s.claim limit lease now).1.slots := by
  obtain ⟨e,he,rfl⟩ := OutboxState.mem_slots.mp hy
  rw [OutboxState.claim_entries,← OutboxState.pending_eq,OutboxSlot.id_mk] at hid
  refine OutboxState.mem_slots.mpr ⟨e,by rwa [OutboxState.claim_maps],?_⟩
  rw [OutboxState.claim_lookup,if_neg hid]

theorem mem_of_mem_claim {s : OutboxState} {y : OutboxSlot String}
    (hy : y ∈ (s.claim limit lease now).1.slots) : ∃ c, ⟨y.entry,c⟩ ∈ s.slots := by
  obtain ⟨e,he,rfl⟩ := OutboxState.mem_slots.mp hy
  rw [OutboxState.claim_maps] at he
  exact ⟨_,OutboxState.mem_slots.mpr ⟨e,he,rfl⟩⟩

theorem claim_slots_ids (s : OutboxState) : (s.claim limit lease now).1.slots.map OutboxSlot.id =
    s.slots.map OutboxSlot.id := by
  rw [OutboxState.slots_ids,OutboxState.slots_ids,OutboxState.claim_maps]

theorem claim_none {s : OutboxState} (h : (s.claim limit lease now).2.entries = []) :
    (s.claim limit lease now).1 = s := by
  unfold OutboxState.claim at h ⊢
  dsimp only at h ⊢
  rw [h]
  rfl

theorem taken_held {s : OutboxState} {e : OutboxEntry} (he : e ∈ (s.claim limit lease now).2.entries) :
    (∃ c, (⟨e,c⟩ : OutboxSlot String) ∈ (s.claim limit lease now).1.slots ∧
      (⟨e,c⟩ : OutboxSlot String).heldUnder (s.claim limit lease now).2.token = true) ∧
    e ∈ s.entries ∧ s.claimable now e = true := by
  rw [OutboxState.claim_entries,← OutboxState.pending_eq] at he
  obtain ⟨hmem,hclaimable⟩ := List.mem_filter.mp (List.mem_of_mem_take he)
  refine ⟨⟨some ⟨s.token,now + lease.millis⟩,?_,decide_eq_true rfl⟩,hmem,hclaimable⟩
  refine OutboxState.mem_slots.mpr ⟨e,by rwa [OutboxState.claim_maps],?_⟩
  rw [OutboxState.claim_lookup,if_pos (List.mem_map_of_mem he)]

end Claim

theorem Progress.taken (h : Progress options s x) {e : OutboxEntry}
    (he : e ∈ (claimed oracle options x).2.entries) : ∃ y ∈ s.slots, y ∈ x.outbox.slots ∧ y.entry = e ∧
      callsOf x.publications e.id = [] := by
  obtain ⟨_,hmem,hclaimable⟩ := taken_held _ _ _ he
  have hx : (⟨e,x.outbox.claims.lookup e.id⟩ : OutboxSlot String) ∈ x.outbox.slots :=
    OutboxState.mem_slots.mpr ⟨e,hmem,rfl⟩
  have hid : e.id ∈ s.slots.map OutboxSlot.id := h.ids ▸ List.mem_map_of_mem hx
  obtain ⟨y,hy,hye⟩ := List.mem_map.mp hid
  rcases h.slots y hy with ⟨hyx,hcalls⟩ | ⟨final,hfinal,hend⟩
  · have heq := slot_eq_of_id h.consistent hyx hx hye
    exact ⟨y,hy,hyx,by rw [heq],hye ▸ hcalls⟩
  · have heq := slot_eq_of_id h.consistent hfinal hx (hend.id.trans hye)
    refine absurd (OutboxSlot.pending_of_claimable (x := ⟨e,_⟩) hclaimable) ?_
    rw [← congrArg OutboxSlot.entry heq]
    exact hend.not_pending

/-- The entries that are neither published nor dead. -/
def pendingIds (x : Drain) : Finset String :=
  ((x.outbox.slots.filter fun y => y.entry.status = .pending).map OutboxSlot.id).toFinset

theorem mem_pendingIds {id : String} : id ∈ pendingIds x ↔
    ∃ y ∈ x.outbox.slots, y.entry.status = .pending ∧ y.id = id := by
  simp [pendingIds,and_assoc]

section Turn
variable {t : Drain} {calls : List Publication}

/-- One turn of `drain` keeps the drain's progress. -/
theorem Progress.turn (h : Progress options s x)
    (hp : Passed options.attemptsAllowed (claimed oracle options x).2.entries
      ⟨(claimed oracle options x).1,x.readings + 1,x.publications⟩ t calls) : Progress options s t := by
  refine ⟨hp.consistent,?_,fun y hy => ?_,fun p hpub => ?_⟩
  · exact hp.ids.trans ((claim_slots_ids _ _ _ _).trans h.ids)
  · rw [hp.publications,callsOf_append]
    by_cases hid : y.id ∈ (claimed oracle options x).2.entries.map OutboxEntry.id
    · obtain ⟨e,he,heid⟩ := List.mem_map.mp hid
      obtain ⟨z,hz,_,rfl,hcalls⟩ := h.taken he
      obtain rfl := List.inj_on_of_nodup_map (h.ids ▸ h.consistent.wellFormed.ids) hz hy heid
      obtain ⟨final,hmem,hend⟩ := hp.ended _ he
      right
      exact ⟨final,hmem,by rw [show z.id = z.entry.id from rfl,hcalls]; exact hend⟩
    · have hnone : callsOf calls y.id = [] := callsOf_none fun p hpc heq =>
        hid (heq ▸ List.mem_map_of_mem (hp.pending p hpc).1)
      rw [hnone,List.append_nil]
      rcases h.slots y hy with ⟨hyx,hcalls⟩ | ⟨final,hfinal,hend⟩
      · exact Or.inl ⟨hp.others y (mem_claim_of_not_taken _ _ _ hyx hid) hid,hcalls⟩
      · have hid' : (⟨final,none⟩ : OutboxSlot String).id ∉
            (claimed oracle options x).2.entries.map OutboxEntry.id := by
          rw [OutboxSlot.id_mk,hend.id]
          exact hid
        exact Or.inr ⟨final,hp.others _ (mem_claim_of_not_taken _ _ _ hfinal hid') hid',hend⟩
  · rw [hp.publications] at hpub
    rcases List.mem_append.mp hpub with hpub | hpub
    · exact h.pending p hpub
    · exact (hp.pending p hpub).2

theorem pendingIds_lt (hp : Passed options.attemptsAllowed (claimed oracle options x).2.entries
    ⟨(claimed oracle options x).1,x.readings + 1,x.publications⟩ t calls)
    (hsome : (claimed oracle options x).2.entries ≠ []) : (pendingIds t).card < (pendingIds x).card := by
  have hnot : ∀ e ∈ (claimed oracle options x).2.entries, e.id ∉ pendingIds t := by
    intro e he hmem
    obtain ⟨y,hy,hpending,hid⟩ := mem_pendingIds.mp hmem
    obtain ⟨final,hfinal,hend⟩ := hp.ended e he
    have heq := slot_eq_of_id hp.consistent hy hfinal (hid.trans hend.id.symm)
    rw [heq] at hpending
    exact hend.not_pending hpending
  refine Finset.card_lt_card (Finset.ssubset_iff_subset_ne.mpr ⟨fun id hid => ?_,fun heq => ?_⟩)
  · obtain ⟨y,hy,hpending,rfl⟩ := mem_pendingIds.mp hid
    have hmem : y.id ∈ (claimed oracle options x).1.slots.map OutboxSlot.id := by
      rw [← show _ = _ from hp.ids]
      exact List.mem_map_of_mem hy
    obtain ⟨z,hz,hzid⟩ := List.mem_map.mp hmem
    have hout : z.id ∉ (claimed oracle options x).2.entries.map OutboxEntry.id := by
      intro hin
      obtain ⟨e,he,heid⟩ := List.mem_map.mp hin
      exact hnot e he (heid.trans hzid ▸ hid)
    have heq := slot_eq_of_id hp.consistent hy (hp.others z hz hout) hzid.symm
    obtain ⟨c,hc⟩ := mem_of_mem_claim _ _ _ hz
    refine mem_pendingIds.mpr ⟨_,hc,?_,hzid⟩
    rw [← heq]
    exact hpending
  · obtain ⟨e,he⟩ := List.exists_mem_of_ne_nil _ hsome
    obtain ⟨_,hmem,hclaimable⟩ := taken_held _ _ _ he
    refine hnot e he (heq ▸ mem_pendingIds.mpr ⟨_,OutboxState.mem_slots.mpr ⟨e,hmem,rfl⟩,?_,rfl⟩)
    exact OutboxSlot.pending_of_claimable hclaimable

end Turn

/-- Enough fuel is one turn for each pending entry and the attempts that any of them has left. -/
theorem drain_ends (oracle : DrainOracle) (attempts : ℕ) (hattempts : ∀ e ∈ s.entries, attemptsLeft options e ≤ attempts)
    (fuel : ℕ) (x : Drain) (h : Progress options s x) (hfuel : (pendingIds x).card + attempts < fuel) :
    ∃ t n, drain oracle options fuel x = some t ∧ Progress options s t ∧
      t.outbox.pending (options.batchSize.getD 32) (oracle.clock n) = [] := by
  induction fuel generalizing x with
  | zero => omega
  | succ fuel ih =>
    have hc : (claimed oracle options x).1.Consistent := h.consistent.claim _ _ _
    rw [drain]
    split
    next hnone =>
      have hnil : (claimed oracle options x).2.entries = [] := List.eq_nil_of_length_eq_zero hnone
      have hpass : Passed options.attemptsAllowed (claimed oracle options x).2.entries
          ⟨(claimed oracle options x).1,x.readings + 1,x.publications⟩
          ⟨(claimed oracle options x).1,x.readings + 1,x.publications⟩ [] := by
        rw [hnil]
        refine ⟨hc,rfl,fun w hw _ => hw,(List.append_nil _).symm,?_,?_⟩
        · exact fun p hp => absurd hp List.not_mem_nil
        · exact fun e he => absurd he List.not_mem_nil
      refine ⟨_,x.readings,rfl,h.turn hpass,?_⟩
      have hsame : (claimed oracle options x).1 = x.outbox := claim_none _ _ _ hnil
      change (claimed oracle options x).1.pending _ _ = []
      rw [hsame,OutboxState.pending_eq,← OutboxState.claim_entries _ _ options.leaseTaken]
      exact hnil
    next hsome =>
      have hne : (claimed oracle options x).2.entries ≠ [] := fun hnil =>
        hsome (List.length_eq_zero_iff.mpr hnil)
      have hids : ((claimed oracle options x).2.entries.map OutboxEntry.id).Nodup := by
        rw [claimed,OutboxState.claim_entries]
        exact h.consistent.wellFormed.pending_ids _ _
      have hheld : ∀ e ∈ (claimed oracle options x).2.entries,
          ∃ c, (⟨e,c⟩ : OutboxSlot String) ∈ (claimed oracle options x).1.slots ∧
            (⟨e,c⟩ : OutboxSlot String).heldUnder (claimed oracle options x).2.token = true :=
        fun e he => (taken_held _ _ _ he).1
      have hleft : ∀ e ∈ (claimed oracle options x).2.entries, attemptsLeft options e ≤ fuel := by
        intro e he
        obtain ⟨y,hy,_,rfl,_⟩ := h.taken he
        obtain ⟨e,hmem,rfl⟩ := OutboxState.mem_slots.mp hy
        exact (hattempts e hmem).trans (by omega)
      obtain ⟨t,calls,hrun,hp⟩ := publishEach_ends oracle fuel (claimed oracle options x).2.entries
        ⟨(claimed oracle options x).1,x.readings + 1,x.publications⟩ hc hids hheld hleft
      have hlt := pendingIds_lt hp hne
      obtain ⟨u,n,hdrain,hfinal⟩ := ih t (h.turn hp) (by omega)
      refine ⟨u,n,?_,hfinal⟩
      rw [hrun]
      exact hdrain

end Turns

section Fuel
variable {oracle : DrainOracle} {options : OutboxRelayOptions}

theorem publishLoop_more {entry : OutboxEntry} {token : String} (fuel : ℕ) (attempts : ℤ) (x : Drain)
    {r : Bool × Drain} (h : publishLoop oracle options entry token fuel attempts x = some r) :
    publishLoop oracle options entry token (fuel + 1) attempts x = some r := by
  induction fuel generalizing attempts x with
  | zero => cases h
  | succ fuel ih =>
    rw [publishLoop] at h ⊢
    dsimp only at h ⊢
    cases houtcome : oracle.publish x.publications.length entry with
    | ok _ =>
      rw [houtcome] at h
      exact h
    | error text =>
      rw [houtcome] at h
      dsimp only at h ⊢
      split
      next hspent => rwa [if_pos hspent] at h
      next hmore =>
        rw [if_neg hmore] at h
        split
        next hheld =>
          rw [if_pos hheld] at h
          exact ih _ _ h
        next hlost => rwa [if_neg hlost] at h

theorem publishEach_more {token : String} (fuel : ℕ) (batch : List OutboxEntry) (x : Drain) {t : Drain}
    (h : publishEach oracle options fuel token batch x = some t) :
    publishEach oracle options (fuel + 1) token batch x = some t := by
  induction batch generalizing x with
  | nil => exact h
  | cons entry rest ih =>
    rw [publishEach,Option.bind_eq_some_iff] at h ⊢
    obtain ⟨r,hentry,hrest⟩ := h
    refine ⟨r,?_,ih _ hrest⟩
    unfold publishEntry at hentry ⊢
    dsimp only at hentry ⊢
    split
    next hspent => rwa [if_pos hspent] at hentry
    next hleft =>
      rw [if_neg hleft] at hentry
      exact publishLoop_more _ _ _ hentry

theorem drain_more (fuel : ℕ) (x : Drain) {t : Drain} (h : drain oracle options fuel x = some t) :
    drain oracle options (fuel + 1) x = some t := by
  induction fuel generalizing x with
  | zero => cases h
  | succ fuel ih =>
    rw [drain] at h ⊢
    split
    next hnone => rwa [if_pos hnone] at h
    next hsome =>
      rw [if_neg hsome,Option.bind_eq_some_iff] at h
      obtain ⟨y,hbatch,hrest⟩ := h
      exact Option.bind_eq_some_iff.mpr ⟨y,publishEach_more _ _ _ hbatch,ih _ hrest⟩

theorem drain_of_le {fuel more : ℕ} (hle : fuel ≤ more) {x t : Drain}
    (h : drain oracle options fuel x = some t) : drain oracle options more x = some t := by
  induction hle with
  | refl => exact h
  | step _ ih => exact drain_more _ _ ih

end Fuel

theorem claimable_mono {y : OutboxSlot String} {now later : ℚ} (hle : now ≤ later)
    (h : y.claimable now = true) : y.claimable later = true := by
  simp only [OutboxSlot.claimable,Bool.and_eq_true] at h ⊢
  obtain ⟨⟨hpending,hdue⟩,hlapsed⟩ := h
  refine ⟨⟨hpending,?_⟩,?_⟩
  · unfold OutboxEntry.due at hdue ⊢
    split
    next => rfl
    next availableAt heq =>
      rw [heq] at hdue
      exact decide_eq_true ((of_decide_eq_true hdue).trans hle)
  · unfold leaseLapsed at hlapsed ⊢
    split
    next => rfl
    next claim heq =>
      rw [heq] at hlapsed
      exact decide_eq_true ((of_decide_eq_true hlapsed).trans hle)

/-- An in-memory outbox after any calls of the port. -/
def afterCalls (calls : List (OutboxCall String)) : OutboxState :=
  calls.foldl (fun s call => (s.apply call).1) .empty

theorem consistent_afterCalls (calls : List (OutboxCall String)) : (afterCalls calls).Consistent := by
  induction calls using List.reverseRecOn with
  | nil => exact OutboxState.consistent_empty
  | append_singleton calls call ih =>
    rw [afterCalls,List.foldl_concat]
    exact ih.apply call

theorem Progress.drained {options : OutboxRelayOptions} {oracle : DrainOracle} {s : OutboxState}
    {x : Drain} (h : Progress options s x) (hclock : Monotone oracle.clock)
    (hsize : 0 < options.batchSize.getD 32) {n : ℕ}
    (hnone : x.outbox.pending (options.batchSize.getD 32) (oracle.clock n) = []) :
    Drained options oracle s x := by
  have hfinal : ∀ y ∈ s.slots, y.claimable (oracle.clock 0) = true → y ∉ x.outbox.slots := by
    intro y hy hclaimable hyx
    have hlater := claimable_mono (hclock n.zero_le) hclaimable
    rw [OutboxState.pending_eq,OutboxSlots.pending,List.map_eq_nil_iff,List.take_eq_nil_iff] at hnone
    rcases hnone with hzero | hnil
    · omega
    · exact List.not_mem_nil (hnil ▸ List.mem_filter.mpr ⟨hyx,hlater⟩)
  refine ⟨?_,?_,?_,h.pending⟩
  · intro e he hclaimable
    have hy : (⟨e,s.claims.lookup e.id⟩ : OutboxSlot String) ∈ s.slots :=
      OutboxState.mem_slots.mpr ⟨e,he,rfl⟩
    rcases h.slots _ hy with ⟨hyx,_⟩ | ⟨final,hmem,hend⟩
    · exact absurd hyx (hfinal _ hy hclaimable)
    · obtain ⟨f,hf,heq⟩ := OutboxState.mem_slots.mp hmem
      obtain rfl := congrArg OutboxSlot.entry heq
      exact ⟨_,hf,hend.id,hend.settled.imp_right And.left⟩
  · intro e he
    have hy : (⟨e,s.claims.lookup e.id⟩ : OutboxSlot String) ∈ s.slots :=
      OutboxState.mem_slots.mpr ⟨e,he,rfl⟩
    rcases h.slots _ hy with ⟨_,hcalls⟩ | ⟨final,_,hend⟩
    · rw [show callsOf x.publications e.id = [] from hcalls]
      exact le_max_left _ _
    · exact hend.bounded
  · intro e he halive final hmem hid hdead
    have hy : (⟨e,s.claims.lookup e.id⟩ : OutboxSlot String) ∈ s.slots :=
      OutboxState.mem_slots.mpr ⟨e,he,rfl⟩
    have hx : (⟨final,x.outbox.claims.lookup final.id⟩ : OutboxSlot String) ∈ x.outbox.slots :=
      OutboxState.mem_slots.mpr ⟨final,hmem,rfl⟩
    rcases h.slots _ hy with ⟨hyx,_⟩ | ⟨f,hf,hend⟩
    · have heq := congrArg OutboxSlot.entry (slot_eq_of_id h.consistent hx hyx hid)
      exact absurd ((congrArg OutboxEntry.status heq).symm.trans hdead) halive
    · obtain rfl := congrArg OutboxSlot.entry
        (slot_eq_of_id h.consistent hx hf (hid.trans hend.id.symm))
      rcases hend.settled with hpub | ⟨_,hrest⟩
      · rw [hdead] at hpub
        cases hpub
      · exact hrest

/-- A drain ends, with every entry it could claim at its start published or dead. -/
theorem drain_settles (calls : List (OutboxCall String)) (options : OutboxRelayOptions)
    (oracle : DrainOracle) (hclock : Monotone oracle.clock) (hsize : 0 < options.batchSize.getD 32) :
    ∃ fuel x, (∀ more, fuel ≤ more → drain oracle options more (start (afterCalls calls)) = some x) ∧
      Drained options oracle (afterCalls calls) x := by
  have hs := consistent_afterCalls calls
  obtain ⟨attempts,hattempts⟩ :
      ∃ attempts, ∀ e ∈ (afterCalls calls).entries, attemptsLeft options e ≤ attempts :=
    ⟨((afterCalls calls).entries.map (attemptsLeft options)).sum,fun e he =>
      List.le_sum_of_mem (List.mem_map_of_mem he)⟩
  obtain ⟨x,n,hrun,hprogress,hnone⟩ := drain_ends oracle attempts hattempts _
    (start (afterCalls calls)) (progress_start hs) (Nat.lt_succ_self _)
  exact ⟨_,x,fun more hle => drain_of_le hle hrun,hprogress.drained hclock hsize hnone⟩

def orderPlaced (id : String) : OutboxMessage := ⟨id,"orders",.null,.null,none⟩

/-- Three messages, the first two of which another relay took and left. -/
def leftBehind : List (OutboxCall String) :=
  [.enqueue [orderPlaced "m-1",orderPlaced "m-2",orderPlaced "m-3"],.claim 2 ⟨30000,thirtySeconds_nonneg⟩ 0 "u"]

/-- A minute later `m-1` goes through, `m-2` never, and `m-3` from the ninth call on. -/
def flaky : DrainOracle where
  clock n := 60000 + 1000 * n
  publish n entry :=
    if entry.id = "m-1" ∨ entry.id = "m-3" ∧ 8 ≤ n then .ok () else .error ("down " ++ toString n)
  factor _ := 1

theorem flaky_monotone : Monotone flaky.clock := by
  intro n m hle
  have hcast : (n : ℚ) ≤ m := Nat.cast_le.mpr hle
  change 60000 + 1000 * (n : ℚ) ≤ 60000 + 1000 * m
  linarith

def settledAs (x : Drain) : List (String × OutboxStatus × ℕ × Option String) :=
  x.outbox.entries.map fun e => (e.id,e.status,(callsOf x.publications e.id).length,e.lastError)

/-- In batches of two, with the default number of attempts. -/
theorem drain_settles_failing : ∃ fuel x,
    (∀ more, fuel ≤ more → drain flaky {batchSize := some 2} more (start (afterCalls leftBehind)) = some x) ∧
      Drained {batchSize := some 2} flaky (afterCalls leftBehind) x ∧
      settledAs x = [("m-1",.published,1,none),("m-2",.dead,5,some "down 5"),("m-3",.published,3,some "down 7")] := by
  obtain ⟨fuel,x,hrun,hdrained⟩ := drain_settles leftBehind {batchSize := some 2} flaky flaky_monotone (by decide)
  have hends : (drain flaky {batchSize := some 2} 10 (start (afterCalls leftBehind))).map settledAs =
      some [("m-1",.published,1,none),("m-2",.dead,5,some "down 5"),("m-3",.published,3,some "down 7")] := by
    decide +kernel
  obtain ⟨y,hy,hsettled⟩ := Option.map_eq_some_iff.mp hends
  have hsame : y = x :=
    Option.some.inj ((drain_of_le (Nat.le_max_right fuel 10) hy).symm.trans (hrun _ (Nat.le_max_left fuel 10)))
  exact ⟨fuel,x,hrun,hdrained,hsame ▸ hsettled⟩

/-- Every call of `publish` fails, under a clock that stands still. -/
def failing : DrainOracle := ⟨fun _ => 0,fun _ _ => .error "down",fun _ => 1⟩

/-- A drain of empty batches returns at once and leaves a due entry pending. -/
theorem drain_stalls : ¬ ∀ (calls : List (OutboxCall String)) (options : OutboxRelayOptions)
    (oracle : DrainOracle), Monotone oracle.clock →
      ∃ fuel x, drain oracle options fuel (start (afterCalls calls)) = some x ∧
        Drained options oracle (afterCalls calls) x := by
  intro h
  obtain ⟨fuel,x,hrun,hdrained⟩ :=
    h [.enqueue [orderPlaced "m-1"]] {batchSize := some 0} failing monotone_const
  have hsame : x.outbox = afterCalls [.enqueue [orderPlaced "m-1"]] := by
    cases fuel with
    | zero => cases hrun
    | succ fuel => exact congrArg Drain.outbox (Option.some.inj hrun).symm
  obtain ⟨final,hmem,_,hsettled⟩ := hdrained.settled (.staged (orderPlaced "m-1")) List.mem_cons_self rfl
  rw [hsame] at hmem
  obtain rfl := List.mem_singleton.mp hmem
  rcases hsettled with hs | hs <;> cases hs

end Drain
end StructureAi.EventSourcing

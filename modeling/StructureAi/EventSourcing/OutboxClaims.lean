import StructureAi.EventSourcing.OutboxMemory

/-! # Claims of the in-memory outbox are exclusive

Every entry a claim hands out is remembered with the claim's lease, so that a run
tells which of them may not be handed out again yet. A replay drops the claim of
every entry it names, dead or not; the runs whose replays spare claimed entries
respect every lease.
-/
namespace StructureAi.EventSourcing
open StructureAi.Foundation

/-- An entry handed out by a claim, and what happened to it since. -/
structure HandOut where
  id : String
  claim : ClaimState String
  /-- Published or buried under the token of the claim. -/
  settled : Bool
  /-- Requeued by a replay that found it dead. -/
  replayed : Bool

structure ClaimRun where
  outbox : OutboxState
  handOuts : List HandOut

namespace ClaimRun

/-- What a call does to a hand-out of the state before it. -/
def follow (s : OutboxState) (call : OutboxCall String) (h : HandOut) : HandOut :=
  match call with
  | .markPublished ids (some token) =>
    {h with settled := h.settled || (h.id ∈ ids && h.claim.token = token && s.owns h.id (some token))}
  | .markDead id _ (some token) =>
    {h with settled := h.settled || (h.id = id && h.claim.token = token && s.owns h.id (some token))}
  | .replay ids =>
    {h with replayed := h.replayed ||
      (h.id ∈ ids && s.entries.any fun e => e.id = h.id && e.status = .dead)}
  | _ => h

def handsOut (s : OutboxState) : OutboxCall String → List HandOut
  | .claim limit lease now _ =>
    let claim := (s.claim limit lease now).2
    claim.entries.map fun e => ⟨e.id,⟨claim.token,claim.leaseUntil⟩,false,false⟩
  | _ => []

def step (x : ClaimRun) (call : OutboxCall String) : Option ClaimRun :=
  some ⟨(x.outbox.apply call).1,x.handOuts.map (follow x.outbox call) ++ handsOut x.outbox call⟩

/-- Any calls under any clock on an outbox that starts empty. -/
def runs : System ClaimRun (OutboxCall String) := ⟨⟨OutboxState.empty,[]⟩,step⟩

/-- No unsettled hand-out of the entry has a lease that ends after `now`. -/
def Free (x : ClaimRun) (id : String) (now : ℚ) : Prop :=
  ∀ h ∈ x.handOuts, h.id = id → now < h.claim.leaseUntil → h.settled = true

/-- What `pending` and `claim` hand out is free. -/
def LeasesRespected (x : ClaimRun) : OutboxCall String → Prop
  | .pending limit now => ∀ e ∈ x.outbox.pending limit now, x.Free e.id now
  | .claim limit lease now _ => ∀ e ∈ (x.outbox.claim limit lease now).2.entries, x.Free e.id now
  | _ => True

/-- A replay changes dead entries only, and releases no claim. -/
def ReplayHarmless (x : ClaimRun) : OutboxCall String → Prop
  | .replay ids => (x.outbox.replay ids).slots = updateWhere
      (fun y => y.id ∈ ids && y.entry.status = .dead) OutboxSlot.requeue x.outbox.slots
  | _ => True

/-- A replay names no claimed entry, and no entry is looked at before the end of a lease it was
handed out under if a replay has named it since, unless it was settled under that claim. -/
def SparesClaims (x : ClaimRun) : OutboxCall String → Prop
  | .replay ids => ∀ id ∈ ids, x.outbox.claims.lookup id = none
  | .pending _ now => ∀ h ∈ x.handOuts, h.replayed = true → h.settled = true ∨ h.claim.leaseUntil ≤ now
  | .claim _ _ now _ => ∀ h ∈ x.handOuts, h.replayed = true → h.settled = true ∨ h.claim.leaseUntil ≤ now
  | _ => True

end ClaimRun

/-- Not deliverable before `leaseUntil`. -/
def OutboxSlot.BlockedUntil {τ : Type} (leaseUntil : ℚ) (x : OutboxSlot τ) : Prop :=
  x.entry.status ≠ .pending ∨ ∃ c, x.claim = some c ∧ leaseUntil ≤ c.leaseUntil

theorem OutboxSlot.BlockedUntil.le_of_claimable {τ : Type} {leaseUntil now : ℚ} {x : OutboxSlot τ}
    (h : x.BlockedUntil leaseUntil) (hc : x.claimable now = true) : leaseUntil ≤ now := by
  rcases h with hs | ⟨c,hx,hle⟩
  · exact absurd (OutboxSlot.pending_of_claimable hc) hs
  · simp only [OutboxSlot.claimable,hx,leaseLapsed,Bool.and_eq_true,decide_eq_true_eq] at hc
    exact hle.trans hc.2

def OutboxSlots.BlockedUntil {τ : Type} (slots : OutboxSlots τ) (id : String) (leaseUntil : ℚ) : Prop :=
  ∃ x ∈ slots, x.id = id ∧ x.BlockedUntil leaseUntil

namespace OutboxSlots
variable {τ : Type} {slots : OutboxSlots τ} {id : String} {leaseUntil : ℚ}

theorem BlockedUntil.enqueue (h : slots.BlockedUntil id leaseUntil) (messages : List OutboxMessage) :
    (slots.enqueue messages).BlockedUntil id leaseUntil := by
  obtain ⟨x,hx,hb⟩ := h
  exact ⟨x,subset_enqueue messages hx,hb⟩

theorem BlockedUntil.updateWhere {p : OutboxSlot τ → Bool} {f : OutboxSlot τ → OutboxSlot τ}
    (h : slots.BlockedUntil id leaseUntil) (hid : ∀ x, (f x).id = x.id)
    (hf : ∀ x ∈ slots, p x = true → x.id = id → x.BlockedUntil leaseUntil → (f x).BlockedUntil leaseUntil) :
    BlockedUntil (updateWhere p f slots) id leaseUntil := by
  obtain ⟨x,hx,hxid,hb⟩ := h
  refine ⟨_,List.mem_map_of_mem hx,?_⟩
  split
  next hp => exact ⟨(hid x).trans hxid,hf x hx hp hxid hb⟩
  next => exact ⟨hxid,hb⟩

theorem BlockedUntil.claim (h : slots.BlockedUntil id leaseUntil) (limit : ℕ) {now newLease : ℚ}
    (hnow : now ≤ newLease) (token : τ) :
    (slots.claim limit now token newLease).BlockedUntil id leaseUntil := by
  obtain ⟨x,hx,hid,hb⟩ := h
  unfold OutboxSlots.claim
  induction slots generalizing limit with
  | nil => cases hx
  | cons y slots ih =>
    cases limit with
    | zero => exact ⟨x,hx,hid,hb⟩
    | succ limit =>
      rw [updateFirst]
      rcases List.mem_cons.mp hx with rfl | hx
      · split
        next hc =>
          refine ⟨_,List.mem_cons_self,hid,Or.inr ⟨_,rfl,?_⟩⟩
          exact (hb.le_of_claimable hc).trans hnow
        next => exact ⟨x,List.mem_cons_self,hid,hb⟩
      · split
        · obtain ⟨z,hz,hzb⟩ := ih limit hx
          exact ⟨z,List.mem_cons_of_mem _ hz,hzb⟩
        · obtain ⟨z,hz,hzb⟩ := ih (limit + 1) hx
          exact ⟨z,List.mem_cons_of_mem _ hz,hzb⟩

theorem blockedUntil_of_claimed {limit : ℕ} {now : ℚ} (token : τ) (newLease : ℚ) {e : OutboxEntry}
    (he : e ∈ slots.pending limit now) :
    (slots.claim limit now token newLease).BlockedUntil e.id newLease := by
  obtain ⟨x,hx,hid,hc⟩ := heldAs_of_claimed token newLease he
  exact ⟨x,hx,hid,Or.inr ⟨_,hc,le_rfl⟩⟩

theorem claimable_of_pending {limit : ℕ} {now : ℚ} {e : OutboxEntry}
    (h : e ∈ slots.pending limit now) : ∃ x ∈ slots, x.entry = e ∧ x.claimable now = true := by
  obtain ⟨x,hx,rfl⟩ := List.mem_map.mp h
  obtain ⟨hm,hc⟩ := List.mem_filter.mp (List.mem_of_mem_take hx)
  exact ⟨x,hm,rfl,hc⟩

end OutboxSlots

namespace ClaimRun
variable {x x' : ClaimRun}

/-- Every unsettled hand-out that was not replayed is still blocked until its lease ends. -/
structure Inv (x : ClaimRun) : Prop where
  consistent : x.outbox.Consistent
  blocked : ∀ h ∈ x.handOuts, h.settled = false → h.replayed = false →
    x.outbox.slots.BlockedUntil h.id h.claim.leaseUntil

theorem Inv.free (hx : x.Inv) {now : ℚ}
    (hr : ∀ h ∈ x.handOuts, h.replayed = true → h.settled = true ∨ h.claim.leaseUntil ≤ now)
    {limit : ℕ} {e : OutboxEntry} (he : e ∈ x.outbox.slots.pending limit now) : x.Free e.id now := by
  intro h hh hid hlt
  by_contra hs
  have hs' : h.settled = false := by simpa using hs
  cases hrep : h.replayed with
  | true =>
    rcases hr h hh hrep with hset | hle
    · exact hs hset
    · exact absurd hlt (not_lt.mpr hle)
  | false =>
    obtain ⟨y,hy,rfl,hc⟩ := OutboxSlots.claimable_of_pending he
    obtain ⟨z,hz,hzid,hb⟩ := hx.blocked h hh hs' hrep
    have hyz : y = z := List.inj_on_of_nodup_map hx.consistent.wellFormed.ids hy hz
      (hid.symm.trans hzid.symm)
    subst hyz
    exact absurd hlt (not_lt.mpr (hb.le_of_claimable hc))

theorem follow_id (s : OutboxState) (call : OutboxCall String) (h : HandOut) :
    (follow s call h).id = h.id ∧ (follow s call h).claim = h.claim := by
  unfold follow
  split <;> exact ⟨rfl,rfl⟩

theorem follow_open {s : OutboxState} {call : OutboxCall String} {h : HandOut}
    (hs : (follow s call h).settled = false) (hr : (follow s call h).replayed = false) :
    h.settled = false ∧ h.replayed = false := by
  revert hs hr
  unfold follow
  split <;> intro hs hr
  · exact ⟨(Bool.or_eq_false_iff.mp hs).1,hr⟩
  · exact ⟨(Bool.or_eq_false_iff.mp hs).1,hr⟩
  · exact ⟨hs,(Bool.or_eq_false_iff.mp hr).1⟩
  · exact ⟨hs,hr⟩

/-- A call that spares the claims keeps a hand-out blocked unless it settles or replays it. -/
theorem Inv.stays_blocked (hx : x.Inv) {call : OutboxCall String} (ha : x.SparesClaims call)
    {h : HandOut} (hh : h ∈ x.handOuts) (hs : (follow x.outbox call h).settled = false)
    (hr : (follow x.outbox call h).replayed = false) :
    (x.outbox.apply call).1.slots.BlockedUntil h.id h.claim.leaseUntil := by
  obtain ⟨hs',hr'⟩ := follow_open hs hr
  have hb := hx.blocked h hh hs' hr'
  have hc := hx.consistent
  cases call with
  | enqueue messages =>
    have hslots := (hc.enqueue_slots messages).1
    exact hslots ▸ hb.enqueue messages
  | pending limit now => exact hb
  | claim limit lease now uuid =>
    have hslots := hc.claim_slots limit lease now
    have hle : now ≤ now + lease.millis := le_add_of_nonneg_right lease.nonneg
    exact hslots ▸ hb.claim limit hle _
  | markPublished ids claim =>
    have hslots := hc.markPublished_slots ids claim
    refine hslots ▸ hb.updateWhere (fun y => rfl) fun y _ _ _ _ => Or.inl ?_
    intro hp
    cases hp
  | markFailed id error attempts retryAt claim =>
    have hslots := (hc.markFailed_refines id error attempts retryAt claim).1
    exact hslots ▸ hb.updateWhere (fun y => rfl) fun y _ _ _ hy => hy
  | markDead id error claim =>
    have hslots := (hc.markDead_refines id error claim).1
    refine hslots ▸ hb.updateWhere (fun y => rfl) fun y _ _ _ _ => Or.inl ?_
    intro hp
    cases hp
  | replay ids =>
    have hslots := (hc.replay_refines ids).1
    refine hslots ▸ hb.updateWhere OutboxState.id_replayed fun y hy hid hyh hyb => Or.inl ?_
    obtain ⟨e,he,rfl⟩ := OutboxState.mem_slots.mp hy
    have hid' : e.id ∈ ids := of_decide_eq_true hid
    have hlookup := ha e.id hid'
    have hdead : ¬ e.status = .dead := by
      intro hd
      have hany : x.outbox.entries.any (fun e => e.id = h.id && e.status = .dead) = true :=
        List.any_eq_true.mpr ⟨e,he,by simpa using ⟨hyh,hd⟩⟩
      have hm : h.id ∈ ids := hyh ▸ hid'
      simp only [follow,hm,hany,decide_true,Bool.and_true,Bool.or_true] at hr
      cases hr
    rcases hyb with hst | ⟨c,hclaim,-⟩
    · simpa only [OutboxState.replayed,if_pos hdead] using hst
    · rw [hlookup] at hclaim
      cases hclaim
  | deadLetters => exact hb

theorem Inv.step (hx : x.Inv) {call : OutboxCall String} (ha : x.SparesClaims call)
    (hs : x.step call = some x') : x'.Inv := by
  obtain rfl := Option.some.inj hs
  refine ⟨hx.consistent.apply call,fun h hh hset hrep => ?_⟩
  rcases List.mem_append.mp hh with hh | hh
  · obtain ⟨h0,hh0,rfl⟩ := List.mem_map.mp hh
    obtain ⟨hid,hclaim⟩ := follow_id x.outbox call h0
    rw [hid,hclaim]
    exact hx.stays_blocked ha hh0 hset hrep
  · cases call with
    | claim limit lease now uuid =>
      obtain ⟨e,he,rfl⟩ := List.mem_map.mp hh
      rw [OutboxState.claim_entries] at he
      have hslots := hx.consistent.claim_slots limit lease now
      have hb := OutboxSlots.blockedUntil_of_claimed x.outbox.token (now + lease.millis) he
      exact hslots ▸ hb
    | _ => cases hh

theorem inv_of_reaches (h : runs.Reaches SparesClaims x) : x.Inv := by
  refine h.invariant Inv ?_ fun a call b ha hal hs => ha.step hal hs
  exact ⟨OutboxState.consistent_empty,fun h hh => by cases hh⟩

theorem Inv.leasesRespected (hx : x.Inv) {call : OutboxCall String} (ha : x.SparesClaims call) :
    x.LeasesRespected call := by
  cases call with
  | pending limit now =>
    intro e he
    rw [OutboxState.pending_eq] at he
    exact hx.free ha he
  | claim limit lease now uuid =>
    intro e he
    rw [OutboxState.claim_entries] at he
    exact hx.free ha he
  | _ => trivial

theorem Inv.replayHarmless (hx : x.Inv) {call : OutboxCall String} (ha : x.SparesClaims call) :
    x.ReplayHarmless call := by
  cases call with
  | replay ids => exact hx.consistent.replay_unclaimed ha
  | _ => trivial

/-- Where replays spare the claims, no lease is violated and a replay changes only dead entries. -/
theorem claims_exclusive (h : runs.Reaches SparesClaims x) {call : OutboxCall String}
    (ha : x.SparesClaims call) : x.LeasesRespected call ∧ x.ReplayHarmless call :=
  ⟨(inv_of_reaches h).leasesRespected ha,(inv_of_reaches h).replayHarmless ha⟩

def invoiceMessage (id : String) : OutboxMessage where
  id := id
  topic := "invoices"
  payload := .obj [("hello",.str "world")]
  metadata := .obj [("correlationId",.str "corr-1")]

def thirtySeconds : Duration := ⟨30000,by norm_num⟩

theorem claims_exclusive_invoice :
    ∃ x, runs.run [.enqueue [invoiceMessage "m1"],.claim 10 thirtySeconds 0 "u1"] = some x ∧
      x.handOuts.length = 1 ∧ x.LeasesRespected (.pending 10 1) ∧ x.ReplayHarmless (.pending 10 1) := by
  have r0 : runs.Reaches SparesClaims runs.init := Relation.ReflTransGen.refl
  have r1 := r0.step (l := .enqueue [invoiceMessage "m1"]) (by exact trivial) rfl
  have r2 := r1.step (l := .claim 10 thirtySeconds 0 "u1") (fun h hh => by cases hh) rfl
  refine ⟨_,rfl,rfl,claims_exclusive r2 ?_⟩
  intro h hh hr
  rw [List.mem_singleton.mp hh] at hr
  cases hr

def replayInFlight : List (OutboxCall String) :=
  [.enqueue [invoiceMessage "m1"],.claim 10 thirtySeconds 0 "u1",.replay ["m1"]]

theorem replay_releases_claim :
    ¬ ∀ x, runs.Reachable x → ∀ call, x.LeasesRespected call ∧ x.ReplayHarmless call := by
  intro h
  have hr := System.run_reachable (show runs.run replayInFlight = some _ from rfl)
  have hl := (h _ hr (.pending 10 1)).1
  have hfree := hl _ List.mem_cons_self _ List.mem_cons_self rfl (by decide +kernel)
  cases hfree

end ClaimRun
end StructureAi.EventSourcing

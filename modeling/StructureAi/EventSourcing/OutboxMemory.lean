import StructureAi.EventSourcing.HistoryImport
import StructureAi.EventSourcing.Outbox

/-! # The in-memory outbox

Entries and claims are kept in two maps. The entries map enumerates its values
in insertion order, so it is the list of its values; setting a known id keeps its
place.
-/
namespace StructureAi.EventSourcing
open StructureAi.Foundation

structure OutboxState where
  entries : List OutboxEntry
  /-- Live claims by entry id. -/
  claims : JsMap (ClaimState String)
  nextToken : ℕ

namespace OutboxState

def empty : OutboxState := ⟨[],∅,0⟩

variable (s : OutboxState)

def get (id : String) : Option OutboxEntry := s.entries.find? fun e => e.id = id

/-- Whether `id` may be settled under `claim`; without a token it always may. -/
def owns (id : String) (claim : Option String) : Bool :=
  match claim with
  | none => true
  | some claim =>
    match s.claims.lookup id with
    | none => false
    | some held => held.token = claim

def withoutClaim (claims : JsMap (ClaimState String)) (id : String) : JsMap (ClaimState String) :=
  claims.erase id

def update (id : String) (patch : OutboxEntry → OutboxEntry) : OutboxState :=
  match s.get id with
  | none => s
  | some entry => {s with
      entries := upsert OutboxEntry.id (patch entry) s.entries
      claims := withoutClaim s.claims id}

def enqueue (messages : List OutboxMessage) : OutboxState := {s with
  entries := messages.foldl (fun next message =>
    if next.any (fun e => e.id = message.id) then next else next ++ [.staged message]) s.entries}

def claimable (now : ℚ) (entry : OutboxEntry) : Bool :=
  entry.status = .pending && entry.due now && leaseLapsed (s.claims.lookup entry.id) now

def pending (limit : ℕ) (now : ℚ) : List OutboxEntry := (s.entries.filter (s.claimable now)).take limit

/-- One turn of the loop of `claim`. -/
def claimNext (limit : ℕ) (now : ℚ) (claim : ClaimState String)
    (acc : List OutboxEntry × JsMap (ClaimState String)) (entry : OutboxEntry) :
    List OutboxEntry × JsMap (ClaimState String) :=
  if acc.1.length ≥ limit then acc
  else if s.claimable now entry then (acc.1 ++ [entry],acc.2.insert entry.id claim)
  else acc

def token : String := "mem-" ++ toString s.nextToken

def claim (limit : ℕ) (lease : Duration) (now : ℚ) : OutboxState × OutboxClaim String :=
  let leaseUntil := now + lease.millis
  let r := s.entries.foldl (s.claimNext limit now ⟨s.token,leaseUntil⟩) ([],s.claims)
  (if r.1.length > 0 then {s with claims := r.2, nextToken := s.nextToken + 1} else s,
    ⟨r.1,s.token,leaseUntil⟩)

/-- One turn of the loop of `markPublished`, which looks entries and claims up in `s`. -/
def publishNext (claim : Option String) (acc : Bool × OutboxState) (id : String) : Bool × OutboxState :=
  match s.get id with
  | none => acc
  | some entry =>
    if s.owns id claim then (true,{acc.2 with
      entries := upsert OutboxEntry.id entry.publish acc.2.entries
      claims := withoutClaim acc.2.claims id})
    else acc

def markPublished (ids : List String) (claim : Option String) : Bool × OutboxState :=
  ids.foldl (s.publishNext claim) (false,s)

def markFailed (id error : String) (attempts : ℤ) (retryAt : Option ℚ) (claim : Option String) :
    Bool × OutboxState :=
  match s.get id with
  | none => (false,s)
  | some entry =>
    if s.owns id claim then
      (true,{s with entries := upsert OutboxEntry.id (entry.fail error attempts retryAt) s.entries})
    else (false,s)

def markDead (id error : String) (claim : Option String) : Bool × OutboxState :=
  match s.get id with
  | none => (false,s)
  | some entry =>
    if s.owns id claim then
      (true,{s with
        entries := upsert OutboxEntry.id (entry.bury error) s.entries
        claims := withoutClaim s.claims id})
    else (false,s)

def replay (ids : List String) : OutboxState :=
  ids.foldl (fun s id => s.update id fun entry =>
    if entry.status ≠ .dead then entry else entry.requeue) s

def deadLetters : List OutboxEntry := s.entries.filter fun e => e.status = .dead

def apply : OutboxCall String → OutboxState × OutboxAnswer String
  | .enqueue messages => (s.enqueue messages,.done)
  | .pending limit now => (s,.entries (.ok (s.pending limit now)))
  | .claim limit lease now _ => ((s.claim limit lease now).1,.claimed (.ok (s.claim limit lease now).2))
  | .markPublished ids claim => ((s.markPublished ids claim).2,.applied (s.markPublished ids claim).1)
  | .markFailed id error attempts retryAt claim =>
    ((s.markFailed id error attempts retryAt claim).2,
      .applied (s.markFailed id error attempts retryAt claim).1)
  | .markDead id error claim => ((s.markDead id error claim).2,.applied (s.markDead id error claim).1)
  | .replay ids => (s.replay ids,.done)
  | .deadLetters => (s,.entries (.ok s.deadLetters))

def slots : OutboxSlots String := s.entries.map fun e => ⟨e,s.claims.lookup e.id⟩

/-- The two maps are in step. -/
structure Consistent : Prop where
  wellFormed : s.slots.WellFormed
  known : ∀ id, s.claims.lookup id ≠ none → ∃ e ∈ s.entries, e.id = id

variable {s}

theorem slots_ids (s : OutboxState) : s.slots.map OutboxSlot.id = s.entries.map OutboxEntry.id := by
  rw [slots,List.map_map]
  rfl

theorem Consistent.ids (h : s.Consistent) : (s.entries.map OutboxEntry.id).Nodup := by
  rw [← slots_ids]
  exact h.wellFormed.ids

theorem Consistent.eq_of_get (h : s.Consistent) {id : String} {entry e : OutboxEntry}
    (hg : s.get id = some entry) (he : e ∈ s.entries) (hid : e.id = id) : e = entry := by
  have hentry := List.mem_of_find?_eq_some hg
  have hid' : entry.id = id := by simpa using List.find?_some hg
  exact List.inj_on_of_nodup_map h.ids he hentry (hid.trans hid'.symm)

/-- `updateWhere` on the slots, written on the two maps. -/
theorem slots_eq_updateWhere {t : OutboxState} {p : OutboxEntry → Bool} {f : OutboxEntry → OutboxEntry}
    {q : OutboxSlot String → Bool} {g : OutboxSlot String → OutboxSlot String}
    (hentries : t.entries = s.entries.map fun e => if p e then f e else e)
    (hq : ∀ e ∈ s.entries, q ⟨e,s.claims.lookup e.id⟩ = p e)
    (hg : ∀ e ∈ s.entries, p e = true → g ⟨e,s.claims.lookup e.id⟩ = ⟨f e,t.claims.lookup (f e).id⟩)
    (hclaims : ∀ e ∈ s.entries, p e = false → t.claims.lookup e.id = s.claims.lookup e.id) :
    t.slots = updateWhere q g s.slots := by
  rw [slots,hentries,slots,updateWhere,List.map_map,List.map_map]
  refine List.map_congr_left fun e he => ?_
  simp only [Function.comp_apply,hq e he]
  by_cases hp : p e = true
  · rw [if_pos hp,if_pos hp,hg e he hp]
  · rw [if_neg hp,if_neg hp,hclaims e he (by simpa using hp)]

theorem Consistent.upsert_get (h : s.Consistent) {id : String} {entry : OutboxEntry}
    {f : OutboxEntry → OutboxEntry} (hg : s.get id = some entry) (hf : ∀ e, (f e).id = e.id) :
    upsert OutboxEntry.id (f entry) s.entries =
      s.entries.map fun e => if decide (e.id = id) then f e else e := by
  have hentry := List.mem_of_find?_eq_some hg
  have hid : entry.id = id := by simpa using List.find?_some hg
  have hany : s.entries.any (fun e => e.id = (f entry).id) = true :=
    List.any_eq_true.mpr ⟨entry,hentry,decide_eq_true (hf entry).symm⟩
  rw [upsert,if_pos hany,updateWhere]
  refine List.map_congr_left fun e he => ?_
  rw [hf,hid]
  by_cases heq : e.id = id
  · rw [h.eq_of_get hg he heq]
  · rw [if_neg (by simpa using heq),if_neg (by simpa using heq)]

theorem Consistent.slots_set (h : s.Consistent) {id : String} {entry : OutboxEntry}
    {f : OutboxEntry → OutboxEntry} (claims : JsMap (ClaimState String)) (n : ℕ)
    (hg : s.get id = some entry) (hf : ∀ e, (f e).id = e.id)
    (hclaims : ∀ k, k ≠ id → claims.lookup k = s.claims.lookup k) :
    slots ⟨upsert OutboxEntry.id (f entry) s.entries,claims,n⟩ =
      updateWhere (fun x => x.id = id) (fun x => ⟨f x.entry,claims.lookup id⟩) s.slots := by
  refine slots_eq_updateWhere (p := fun e => e.id = id) (f := f) ?_ (fun e _ => rfl) ?_ ?_
  · exact h.upsert_get hg hf
  · intro e _ hid
    rw [hf,of_decide_eq_true hid]
  · intro e _ hid
    exact hclaims _ (of_decide_eq_false hid)

theorem mem_slots {x : OutboxSlot String} :
    x ∈ s.slots ↔ ∃ e ∈ s.entries, x = ⟨e,s.claims.lookup e.id⟩ := by
  simp only [slots,List.mem_map,eq_comm]

theorem ne_of_get_none {id : String} (hg : s.get id = none) {x : OutboxSlot String} (hx : x ∈ s.slots) :
    x.id ≠ id := by
  obtain ⟨e,he,rfl⟩ := mem_slots.mp hx
  have hnone : ∀ e ∈ s.entries, ¬ e.id = id := by simpa [get] using hg
  exact hnone e he

theorem Consistent.slots_update (h : s.Consistent) (id : String) {patch : OutboxEntry → OutboxEntry}
    (hf : ∀ e, (patch e).id = e.id) : (s.update id patch).slots =
      updateWhere (fun x => x.id = id) (fun x => ⟨patch x.entry,none⟩) s.slots := by
  unfold update
  split
  next hg =>
    refine (updateWhere_eq_self fun x hx hid => ?_).symm
    exact absurd (of_decide_eq_true hid) (ne_of_get_none hg hx)
  next entry hg =>
    have hlookup : (withoutClaim s.claims id).lookup id = none := AList.lookup_erase _ _
    have hset := h.slots_set (withoutClaim s.claims id) s.nextToken hg hf
      (fun k hk => AList.lookup_erase_ne hk)
    rw [hlookup] at hset
    exact hset

theorem get_eq_none_iff {id : String} : s.get id = none ↔ ∀ e ∈ s.entries, e.id ≠ id := by
  simp [get]

/-- What the loop of `markPublished` has done after the first ids. -/
structure Published (s : OutboxState) (claim : Option String) (ids : List String)
    (r : Bool × OutboxState) : Prop where
  applied : r.1 = true ↔ ∃ e ∈ s.entries, e.id ∈ ids ∧ s.owns e.id claim = true
  entries : r.2.entries =
    s.entries.map fun e => if decide (e.id ∈ ids) && s.owns e.id claim then e.publish else e
  claims : ∀ e ∈ s.entries, r.2.claims.lookup e.id =
    if decide (e.id ∈ ids) && s.owns e.id claim then none else s.claims.lookup e.id
  others : ∀ id, r.2.claims.lookup id ≠ none → s.claims.lookup id ≠ none
  nextToken : r.2.nextToken = s.nextToken

theorem Published.skip {claim : Option String} {ids : List String} {r : Bool × OutboxState} {id : String}
    (hp : Published s claim ids r) (hno : ∀ e ∈ s.entries, e.id = id → s.owns e.id claim = false) :
    Published s claim (ids ++ [id]) r := by
  have hsame : ∀ e ∈ s.entries, (decide (e.id ∈ ids ++ [id]) && s.owns e.id claim) =
      (decide (e.id ∈ ids) && s.owns e.id claim) := by
    intro e he
    by_cases hid : e.id = id
    · rw [hno e he hid,Bool.and_false,Bool.and_false]
    · simp [hid]
  refine ⟨hp.applied.trans ?_,?_,?_,hp.others,hp.nextToken⟩
  · refine exists_congr fun e => and_congr_right fun he => ?_
    simpa using congrArg (· = true) (hsame e he).symm
  · rw [hp.entries]
    exact List.map_congr_left fun e he => by rw [hsame e he]
  · intro e he
    rw [hp.claims e he,hsame e he]

theorem Published.next (h : s.Consistent) {claim : Option String} {ids : List String}
    {r : Bool × OutboxState} (hp : Published s claim ids r) (id : String) :
    Published s claim (ids ++ [id]) (s.publishNext claim r id) := by
  unfold publishNext
  split
  next hg =>
    refine hp.skip fun e he hid => ?_
    exact absurd hid (get_eq_none_iff.mp hg e he)
  next entry hg =>
    have hentry := List.mem_of_find?_eq_some hg
    have hid : entry.id = id := by simpa using List.find?_some hg
    split
    next howns =>
      refine ⟨iff_of_true rfl ⟨entry,hentry,by simp [hid],hid ▸ howns⟩,?_,?_,?_,hp.nextToken⟩
      · have hkey : ∀ e : OutboxEntry,
            (if decide (e.id ∈ ids) && s.owns e.id claim then e.publish else e).id = e.id := by
          intro e
          split <;> rfl
        have hany : r.2.entries.any (fun e => e.id = entry.publish.id) = true := by
          rw [hp.entries,List.any_map]
          exact List.any_eq_true.mpr ⟨entry,hentry,decide_eq_true (hkey entry)⟩
        rw [upsert,if_pos hany,hp.entries,updateWhere,List.map_map]
        refine List.map_congr_left fun e he => ?_
        rw [Function.comp_apply,hkey,OutboxEntry.id_publish,hid]
        by_cases heq : e.id = id
        · obtain rfl := h.eq_of_get hg he heq
          rw [if_pos (decide_eq_true heq),if_pos (by simp [heq,howns])]
        · rw [if_neg (by simpa using heq)]
          simp [heq]
      · intro e he
        by_cases heq : e.id = id
        · rw [heq,withoutClaim,AList.lookup_erase,if_pos (by simp [howns])]
        · rw [withoutClaim,AList.lookup_erase_ne heq,hp.claims e he]
          simp [heq]
      · intro k hk
        by_cases heq : k = id
        · rw [heq,withoutClaim,AList.lookup_erase] at hk
          exact absurd rfl hk
        · rw [withoutClaim,AList.lookup_erase_ne heq] at hk
          exact hp.others k hk
    next howns =>
      refine hp.skip fun e he hid' => ?_
      rw [hid']
      simpa using howns

theorem Consistent.markPublished_published (h : s.Consistent) (ids : List String)
    (claim : Option String) : Published s claim ids (s.markPublished ids claim) := by
  unfold markPublished
  induction ids using List.reverseRecOn with
  | nil =>
    refine ⟨?_,?_,?_,fun id hid => hid,rfl⟩
    · simp
    · simp
    · intro e _
      simp
  | append_singleton ids id ih =>
    rw [List.foldl_concat]
    exact ih.next h id

theorem owns_eq (s : OutboxState) (e : OutboxEntry) (claim : Option String) :
    s.owns e.id claim = (⟨e,s.claims.lookup e.id⟩ : OutboxSlot String).ownedBy claim := by
  cases claim with
  | none => rfl
  | some token =>
    simp only [owns,OutboxSlot.ownedBy,OutboxSlot.heldUnder]
    cases s.claims.lookup e.id <;> rfl

/-- The two maps stay in step where the slots do and no claim without an entry appears. -/
theorem Consistent.of_slots {t : OutboxState} (h : s.Consistent) (hw : t.slots.WellFormed)
    (hids : t.entries.map OutboxEntry.id = s.entries.map OutboxEntry.id)
    (hclaims : ∀ id, t.claims.lookup id ≠ none → s.claims.lookup id ≠ none) : t.Consistent := by
  refine ⟨hw,fun id hid => ?_⟩
  obtain ⟨e,he,hk⟩ := h.known id (hclaims id hid)
  have hm : id ∈ t.entries.map OutboxEntry.id := hids ▸ hk ▸ List.mem_map_of_mem he
  exact List.mem_map.mp hm

theorem ids_of_slots {t : OutboxState} {p : OutboxSlot String → Bool}
    {f : OutboxSlot String → OutboxSlot String} (ht : t.slots = updateWhere p f s.slots)
    (hf : ∀ x, (f x).id = x.id) : t.entries.map OutboxEntry.id = s.entries.map OutboxEntry.id := by
  rw [← slots_ids,← slots_ids,ht,updateWhere,List.map_map]
  refine List.map_congr_left fun x _ => ?_
  rw [Function.comp_apply]
  split
  · exact hf x
  · rfl

theorem lookup_erase_of_ne_none {claims : JsMap (ClaimState String)} {id k : String}
    (h : (withoutClaim claims id).lookup k ≠ none) : claims.lookup k ≠ none := by
  by_cases hk : k = id
  · rw [hk,withoutClaim,AList.lookup_erase] at h
    exact absurd rfl h
  · rwa [withoutClaim,AList.lookup_erase_ne hk] at h

section MarkPublished
variable (ids : List String) (claim : Option String)

theorem Consistent.markPublished_slots (h : s.Consistent) : (s.markPublished ids claim).2.slots =
    updateWhere (fun x => decide (x.id ∈ ids) && x.ownedBy claim) OutboxSlot.publish s.slots := by
  have hp := h.markPublished_published ids claim
  refine slots_eq_updateWhere hp.entries ?_ ?_ ?_
  · intro e _
    rw [owns_eq,OutboxSlot.id_mk]
  · intro e he ho
    rw [OutboxEntry.id_publish,hp.claims e he,if_pos ho]
    rfl
  · intro e he ho
    rw [hp.claims e he,if_neg (by simpa using ho)]

theorem Consistent.markPublished_applied (h : s.Consistent) : (s.markPublished ids claim).1 =
    s.slots.any fun x => decide (x.id ∈ ids) && x.ownedBy claim := by
  rw [Bool.eq_iff_iff,(h.markPublished_published ids claim).applied,List.any_eq_true]
  constructor
  · rintro ⟨e,he,hid,ho⟩
    refine ⟨_,mem_slots.mpr ⟨e,he,rfl⟩,?_⟩
    rw [← owns_eq,OutboxSlot.id_mk,ho,decide_eq_true hid]
    rfl
  · rintro ⟨x,hx,hp⟩
    obtain ⟨e,he,rfl⟩ := mem_slots.mp hx
    rw [← owns_eq,OutboxSlot.id_mk,Bool.and_eq_true,decide_eq_true_eq] at hp
    exact ⟨e,he,hp⟩

theorem Consistent.markPublished (h : s.Consistent) : (s.markPublished ids claim).2.Consistent := by
  have hs := h.markPublished_slots ids claim
  refine h.of_slots ?_ (ids_of_slots hs fun x => rfl) (h.markPublished_published ids claim).others
  rw [hs]
  exact h.wellFormed.updateWhere (fun x => rfl) fun x _ _ hc => absurd rfl hc

end MarkPublished

theorem Consistent.slots_settle (h : s.Consistent) {id : String} {entry : OutboxEntry}
    {claim : Option String} {f : OutboxEntry → OutboxEntry} {g : OutboxSlot String → OutboxSlot String}
    {claims : JsMap (ClaimState String)} {n : ℕ} (hg : s.get id = some entry)
    (ho : s.owns id claim = true) (hf : ∀ e, (f e).id = e.id)
    (hclaims : ∀ k, k ≠ id → claims.lookup k = s.claims.lookup k)
    (hslot : ∀ e, e.id = id → g ⟨e,s.claims.lookup id⟩ = ⟨f e,claims.lookup id⟩) :
    slots ⟨upsert OutboxEntry.id (f entry) s.entries,claims,n⟩ =
      updateWhere (fun x => decide (x.id ∈ [id]) && x.ownedBy claim) g s.slots := by
  rw [h.slots_set claims n hg hf hclaims]
  refine updateWhere_congr ?_ ?_
  · intro x hx
    obtain ⟨e,he,rfl⟩ := mem_slots.mp hx
    by_cases hid : e.id = id
    · rw [← owns_eq,OutboxSlot.id_mk,hid,ho]
      simp
    · simp [hid]
  · intro x hx hid
    obtain ⟨e,he,rfl⟩ := mem_slots.mp hx
    have hid' : e.id = id := of_decide_eq_true hid
    rw [hid',hslot e hid']

theorem updateWhere_not_owned {id : String} {claim : Option String}
    (g : OutboxSlot String → OutboxSlot String) (hno : s.get id = none ∨ s.owns id claim = false) :
    updateWhere (fun x => decide (x.id ∈ [id]) && x.ownedBy claim) g s.slots = s.slots ∧
      s.slots.any (fun x => decide (x.id ∈ [id]) && x.ownedBy claim) = false := by
  have hfalse : ∀ x ∈ s.slots, (decide (x.id ∈ [id]) && x.ownedBy claim) = false := by
    intro x hx
    rw [Bool.and_eq_false_imp]
    intro hid
    have hid' : x.id = id := by simpa using hid
    rcases hno with hg | ho
    · exact absurd hid' (ne_of_get_none hg hx)
    · obtain ⟨e,he,rfl⟩ := mem_slots.mp hx
      rw [OutboxSlot.id_mk] at hid'
      rwa [← owns_eq,hid']
  constructor
  · refine updateWhere_eq_self fun x hx hp => ?_
    rw [hfalse x hx] at hp
    cases hp
  · rw [List.any_eq_false]
    intro x hx
    rw [hfalse x hx]
    exact Bool.false_ne_true

theorem owned_of_owns {id : String} {entry : OutboxEntry} {claim : Option String}
    (hg : s.get id = some entry) (ho : s.owns id claim = true) :
    s.slots.any (fun x => decide (x.id ∈ [id]) && x.ownedBy claim) = true := by
  have hentry := List.mem_of_find?_eq_some hg
  have hid : entry.id = id := by simpa using List.find?_some hg
  refine List.any_eq_true.mpr ⟨_,mem_slots.mpr ⟨entry,hentry,rfl⟩,?_⟩
  rw [← owns_eq,OutboxSlot.id_mk,hid,ho]
  simp

section MarkFailed
variable (id error : String) (attempts : ℤ) (retryAt : Option ℚ) (claim : Option String)

theorem Consistent.markFailed_refines (h : s.Consistent) :
    (s.markFailed id error attempts retryAt claim).2.slots =
      updateWhere (fun x => decide (x.id ∈ [id]) && x.ownedBy claim)
        (OutboxSlot.fail error attempts retryAt) s.slots ∧
    (s.markFailed id error attempts retryAt claim).1 =
      s.slots.any fun x => decide (x.id ∈ [id]) && x.ownedBy claim := by
  unfold OutboxState.markFailed
  split
  next hg =>
    obtain ⟨hs,ha⟩ := updateWhere_not_owned
      (OutboxSlot.fail error attempts retryAt) (Or.inl hg)
    exact ⟨hs.symm,ha.symm⟩
  next entry hg =>
    split
    next ho =>
      refine ⟨?_,(owned_of_owns hg ho).symm⟩
      exact h.slots_settle hg ho (fun e => rfl) (fun k _ => rfl) fun e _ => rfl
    next ho =>
      obtain ⟨hs,ha⟩ := updateWhere_not_owned
        (OutboxSlot.fail error attempts retryAt) (Or.inr (by simpa using ho))
      exact ⟨hs.symm,ha.symm⟩

theorem Consistent.markFailed (h : s.Consistent) :
    (s.markFailed id error attempts retryAt claim).2.Consistent := by
  have hs := (h.markFailed_refines id error attempts retryAt claim).1
  refine h.of_slots ?_ (ids_of_slots hs fun x => rfl) fun k hk => ?_
  · rw [hs]
    exact h.wellFormed.updateWhere (fun x => rfl) fun x hx _ hc => h.wellFormed.claimed x hx hc
  · unfold OutboxState.markFailed at hk
    split at hk
    · exact hk
    · split at hk <;> exact hk

end MarkFailed

section MarkDead
variable (id error : String) (claim : Option String)

theorem Consistent.markDead_refines (h : s.Consistent) :
    (s.markDead id error claim).2.slots =
      updateWhere (fun x => decide (x.id ∈ [id]) && x.ownedBy claim) (OutboxSlot.bury error) s.slots ∧
    (s.markDead id error claim).1 =
      s.slots.any fun x => decide (x.id ∈ [id]) && x.ownedBy claim := by
  unfold OutboxState.markDead
  split
  next hg =>
    obtain ⟨hs,ha⟩ := updateWhere_not_owned (OutboxSlot.bury error)
      (Or.inl hg)
    exact ⟨hs.symm,ha.symm⟩
  next entry hg =>
    split
    next ho =>
      refine ⟨?_,(owned_of_owns hg ho).symm⟩
      refine h.slots_settle hg ho (fun e => rfl) (fun k hk => AList.lookup_erase_ne hk) fun e _ => ?_
      rw [withoutClaim,AList.lookup_erase]
      rfl
    next ho =>
      obtain ⟨hs,ha⟩ := updateWhere_not_owned (OutboxSlot.bury error)
        (Or.inr (by simpa using ho))
      exact ⟨hs.symm,ha.symm⟩

theorem Consistent.markDead (h : s.Consistent) : (s.markDead id error claim).2.Consistent := by
  have hs := (h.markDead_refines id error claim).1
  refine h.of_slots ?_ (ids_of_slots hs fun x => rfl) fun k hk => ?_
  · rw [hs]
    exact h.wellFormed.updateWhere (fun x => rfl) fun x _ _ hc => absurd rfl hc
  · unfold OutboxState.markDead at hk
    split at hk
    · exact hk
    · split at hk
      · exact lookup_erase_of_ne_none hk
      · exact hk

end MarkDead

theorem Consistent.update (h : s.Consistent) (id : String) {patch : OutboxEntry → OutboxEntry}
    (hf : ∀ e, (patch e).id = e.id) : (s.update id patch).Consistent := by
  have hs := h.slots_update id hf
  refine h.of_slots ?_ (ids_of_slots hs fun x => hf x.entry) fun k hk => ?_
  · rw [hs]
    exact h.wellFormed.updateWhere (fun x => hf x.entry) fun x _ _ hc => absurd rfl hc
  · unfold OutboxState.update at hk
    split at hk
    · exact hk
    · exact lookup_erase_of_ne_none hk

/-- What `replay` does to every slot it names: it drops the claim even of one that is not dead. -/
def replayed (x : OutboxSlot String) : OutboxSlot String :=
  ⟨if x.entry.status ≠ .dead then x.entry else x.entry.requeue,none⟩

theorem id_replayed (x : OutboxSlot String) : (replayed x).id = x.id := by
  unfold replayed
  split <;> rfl

theorem replayed_replayed (x : OutboxSlot String) : replayed (replayed x) = replayed x := by
  unfold replayed
  by_cases h : x.entry.status = .dead <;> simp [h,OutboxEntry.requeue]

theorem Consistent.replay_refines (h : s.Consistent) (ids : List String) :
    (s.replay ids).slots = updateWhere (fun x => x.id ∈ ids) replayed s.slots ∧
      (s.replay ids).Consistent := by
  have hf : ∀ e : OutboxEntry, (if e.status ≠ .dead then e else e.requeue).id = e.id := by
    intro e
    split <;> rfl
  rw [← foldl_updateWhere id_replayed replayed_replayed]
  unfold replay
  induction ids generalizing s with
  | nil => exact ⟨rfl,h⟩
  | cons id ids ih =>
    rw [List.foldl_cons,List.foldl_cons]
    obtain ⟨hs,hc⟩ := ih (h.update id hf)
    refine ⟨hs.trans ?_,hc⟩
    rw [h.slots_update id hf]
    rfl

/-- A replay that names no claimed entry requeues the dead ones and changes nothing else. -/
theorem Consistent.replay_unclaimed (h : s.Consistent) {ids : List String}
    (hids : ∀ id ∈ ids, s.claims.lookup id = none) : (s.replay ids).slots =
      updateWhere (fun x => x.id ∈ ids && x.entry.status = .dead) OutboxSlot.requeue s.slots := by
  refine (h.replay_refines ids).1.trans ?_
  refine List.map_congr_left fun x hx => ?_
  obtain ⟨e,he,rfl⟩ := mem_slots.mp hx
  by_cases hid : e.id ∈ ids
  · by_cases hd : e.status = .dead
    · simp [hid,hd,replayed,OutboxSlot.requeue]
    · simp [hid,hd,replayed,hids e.id hid]
  · simp [hid]

theorem pending_eq (s : OutboxState) (limit : ℕ) (now : ℚ) :
    s.pending limit now = s.slots.pending limit now := by
  rw [pending,OutboxSlots.pending,slots,List.filter_map,← List.map_take,List.map_map]
  exact (List.map_id _).symm

theorem deadLetters_eq (s : OutboxState) : s.deadLetters = s.slots.deadLetters := by
  rw [deadLetters,OutboxSlots.deadLetters,slots,List.filter_map,List.map_map]
  exact (List.map_id _).symm

/-- The loop of `claim` takes the first claimable entries and claims each of them. -/
theorem foldl_claimNext (s : OutboxState) (limit : ℕ) (now : ℚ) (claim : ClaimState String)
    (entries : List OutboxEntry) (acc : List OutboxEntry × JsMap (ClaimState String)) :
    (entries.foldl (s.claimNext limit now claim) acc).1 =
        acc.1 ++ (entries.filter (s.claimable now)).take (limit - acc.1.length) ∧
      ∀ k, (entries.foldl (s.claimNext limit now claim) acc).2.lookup k =
        if k ∈ ((entries.filter (s.claimable now)).take (limit - acc.1.length)).map OutboxEntry.id
          then some claim else acc.2.lookup k := by
  induction entries generalizing acc with
  | nil => simp
  | cons e entries ih =>
    rw [List.foldl_cons]
    by_cases hl : acc.1.length ≥ limit
    · have hnext : s.claimNext limit now claim acc e = acc := if_pos hl
      have hz : limit - acc.1.length = 0 := by omega
      have h := ih acc
      rw [hz] at h ⊢
      rw [hnext]
      exact h
    · by_cases hc : s.claimable now e = true
      · have hnext : s.claimNext limit now claim acc e =
            (acc.1 ++ [e],acc.2.insert e.id claim) := by
          rw [claimNext,if_neg hl,if_pos hc]
        have hsucc : limit - acc.1.length = (limit - (acc.1.length + 1)) + 1 := by omega
        obtain ⟨h1,h2⟩ := ih (acc.1 ++ [e],acc.2.insert e.id claim)
        simp only [List.length_append,List.length_singleton] at h1 h2
        rw [hnext,List.filter_cons_of_pos hc,hsucc,List.take_succ_cons]
        refine ⟨?_,fun k => ?_⟩
        · rw [h1,List.append_assoc]
          rfl
        · rw [h2,List.map_cons]
          by_cases hk : k = e.id
          · rw [hk,AList.lookup_insert,ite_self,if_pos List.mem_cons_self]
          · simp only [AList.lookup_insert_ne hk,List.mem_cons,hk,false_or]
      · have hnext : s.claimNext limit now claim acc e = acc := by
          rw [claimNext,if_neg hl,if_neg hc]
        rw [hnext,List.filter_cons_of_neg hc]
        exact ih acc

section Claim
variable (s) (limit : ℕ) (lease : Duration) (now : ℚ)

theorem claim_entries : (s.claim limit lease now).2.entries = s.slots.pending limit now := by
  rw [← pending_eq]
  exact (s.foldl_claimNext limit now _ s.entries ([],s.claims)).1

theorem claim_lookup (k : String) : (s.claim limit lease now).1.claims.lookup k =
    if k ∈ (s.pending limit now).map OutboxEntry.id then some ⟨s.token,now + lease.millis⟩
      else s.claims.lookup k := by
  obtain ⟨h1,h2⟩ := s.foldl_claimNext limit now ⟨s.token,now + lease.millis⟩ s.entries ([],s.claims)
  have hp : (s.entries.foldl (s.claimNext limit now ⟨s.token,now + lease.millis⟩) ([],s.claims)).1 =
      s.pending limit now := h1
  unfold OutboxState.claim
  dsimp only
  split
  next => exact h2 k
  next hnone =>
    rw [hp] at hnone
    have hnil : s.pending limit now = [] := List.eq_nil_of_length_eq_zero (by omega)
    rw [hnil]
    rfl

theorem claim_maps : (s.claim limit lease now).1.entries = s.entries := by
  unfold OutboxState.claim
  dsimp only
  split <;> rfl

variable {s}

theorem Consistent.claim_slots (h : s.Consistent) : (s.claim limit lease now).1.slots =
    s.slots.claim limit now s.token (now + lease.millis) := by
  have hmem : (((s.slots.filter fun x => x.claimable now).take limit).map OutboxSlot.id) =
      (s.pending limit now).map OutboxEntry.id := by
    rw [pending_eq,OutboxSlots.pending,List.map_map]
    rfl
  rw [OutboxSlots.claim,updateFirst_eq_map limit h.wellFormed.ids,hmem,slots,claim_maps,slots,
    List.map_map]
  refine List.map_congr_left fun e he => ?_
  rw [Function.comp_apply,OutboxSlot.id_mk,claim_lookup]
  split <;> rfl

theorem Consistent.claim (h : s.Consistent) : (s.claim limit lease now).1.Consistent := by
  refine ⟨?_,fun id hid => ?_⟩
  · rw [h.claim_slots]
    exact h.wellFormed.claim limit now _ _
  · rw [claim_maps]
    rw [claim_lookup] at hid
    split at hid
    next hm =>
      obtain ⟨e,he,rfl⟩ := List.mem_map.mp hm
      exact ⟨e,(List.mem_filter.mp (List.mem_of_mem_take he)).1,rfl⟩
    next => exact h.known id hid

end Claim

theorem Consistent.enqueue_slots (h : s.Consistent) (messages : List OutboxMessage) :
    (s.enqueue messages).slots = s.slots.enqueue messages ∧ (s.enqueue messages).Consistent := by
  unfold enqueue OutboxSlots.enqueue
  induction messages generalizing s with
  | nil => exact ⟨rfl,h⟩
  | cons message messages ih =>
    rw [List.foldl_cons,List.foldl_cons]
    have hany : s.slots.any (fun x => x.id = message.id) = s.entries.any fun e => e.id = message.id := by
      rw [slots,List.any_map]
      rfl
    rw [hany]
    split
    next => exact ih h
    next hnew =>
      have hnew' : ∀ e ∈ s.entries, ¬ e.id = message.id := by simpa using hnew
      have hlookup : s.claims.lookup message.id = none := by
        by_contra hc
        obtain ⟨e,he,hid⟩ := h.known message.id hc
        exact hnew' e he hid
      have hslots : slots {s with entries := s.entries ++ [.staged message]} =
          s.slots ++ [⟨.staged message,none⟩] := by
        rw [slots,List.map_append,List.map_singleton,OutboxEntry.id_staged,hlookup]
        rfl
      have hnext : Consistent {s with entries := s.entries ++ [.staged message]} := by
        refine ⟨?_,fun id hid => ?_⟩
        · have hw := h.wellFormed.enqueue [message]
          rw [hslots]
          unfold OutboxSlots.enqueue at hw
          rwa [List.foldl_cons,List.foldl_nil,hany,if_neg hnew] at hw
        · obtain ⟨e,he,hk⟩ := h.known id hid
          exact ⟨e,List.mem_append_left _ he,hk⟩
      have hfinal := ih hnext
      rw [hslots] at hfinal
      exact hfinal

theorem consistent_empty : empty.Consistent := by
  refine ⟨⟨List.nodup_nil,fun x hx => by cases hx⟩,fun id hid => absurd rfl hid⟩

section NextToken
variable (s)

theorem token_injective {m n : ℕ} (h : "mem-" ++ toString m = "mem-" ++ toString n) : m = n := by
  have hl := congrArg String.toList h
  rw [String.toList_append,String.toList_append] at hl
  exact Nat.repr_injective (String.toList_injective (List.append_cancel_left hl))

theorem markFailed_nextToken (id error : String) (attempts : ℤ) (retryAt : Option ℚ)
    (claim : Option String) :
    (s.markFailed id error attempts retryAt claim).2.nextToken = s.nextToken := by
  unfold OutboxState.markFailed
  split
  · rfl
  · split <;> rfl

theorem markDead_nextToken (id error : String) (claim : Option String) :
    (s.markDead id error claim).2.nextToken = s.nextToken := by
  unfold OutboxState.markDead
  split
  · rfl
  · split <;> rfl

theorem replay_nextToken (ids : List String) : (s.replay ids).nextToken = s.nextToken := by
  unfold replay
  induction ids generalizing s with
  | nil => rfl
  | cons id ids ih =>
    rw [List.foldl_cons,ih]
    unfold OutboxState.update
    split <;> rfl

theorem claim_nextToken (limit : ℕ) (lease : Duration) (now : ℚ) :
    (s.claim limit lease now).1.nextToken =
      s.nextToken + if (s.claim limit lease now).2.entries.length > 0 then 1 else 0 := by
  unfold OutboxState.claim
  dsimp only
  split <;> rfl

end NextToken

theorem Consistent.apply (h : s.Consistent) (call : OutboxCall String) : (s.apply call).1.Consistent := by
  cases call with
  | enqueue messages => exact (h.enqueue_slots messages).2
  | pending limit now => exact h
  | claim limit lease now uuid => exact h.claim limit lease now
  | markPublished ids claim => exact h.markPublished ids claim
  | markFailed id error attempts retryAt claim => exact h.markFailed id error attempts retryAt claim
  | markDead id error claim => exact h.markDead id error claim
  | replay ids => exact (h.replay_refines ids).2
  | deadLetters => exact h

end OutboxState
end StructureAi.EventSourcing

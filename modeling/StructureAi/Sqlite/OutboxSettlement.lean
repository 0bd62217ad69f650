import StructureAi.EventSourcing.OutboxMemory
import StructureAi.Sqlite.Outbox

/-! # Settling under a claim

A settlement with a token is meant to reach exactly the pending entries held
under it whose lease has not lapsed, and to answer whether it reached all of
them. Both adapters compare the token only, and answer whether they reached any.
-/
namespace StructureAi.Sqlite
open StructureAi.Foundation StructureAi.EventSourcing

inductive Settlement where
  | published (ids : List String)
  | failed (id error : String) (attempts : ℤ) (retryAt : Option ℚ)
  | dead (id error : String)

namespace Settlement

def ids : Settlement → List String
  | published ids => ids
  | failed id _ _ _ => [id]
  | dead id _ => [id]

def call (token : String) : Settlement → OutboxCall String
  | published ids => .markPublished ids (some token)
  | failed id error attempts retryAt => .markFailed id error attempts retryAt (some token)
  | dead id error => .markDead id error (some token)

/-- What a settlement does to a slot it reaches. -/
def onSlot : Settlement → OutboxSlot String → OutboxSlot String
  | published _ => OutboxSlot.publish
  | failed _ error attempts retryAt => OutboxSlot.fail error attempts retryAt
  | dead _ error => OutboxSlot.bury error

/-- What a settlement does to a row it reaches. -/
def onRow : Settlement → OutboxRow → OutboxRow
  | published _ => OutboxTable.publish
  | failed _ error attempts retryAt => OutboxTable.fail error attempts retryAt
  | dead _ error => OutboxTable.bury error

end Settlement

def applied : OutboxAnswer String → Bool
  | .applied answer => answer
  | _ => false

def inMemoryOutbox : Machine OutboxState (OutboxCall String) (OutboxAnswer String) :=
  ⟨OutboxState.empty,OutboxState.apply⟩

def sqliteOutbox : Machine OutboxTable (OutboxCall String) (OutboxAnswer String) :=
  ⟨[],OutboxTable.apply⟩

/-- How entries are stored, as far as a settlement under one token at one time can tell. -/
structure SettlementView (α : Type) where
  id : α → String
  /-- Pending and held under the token. -/
  held : α → Bool
  /-- Held with a lease that has not lapsed. -/
  live : α → Bool

def slotView (token : String) (now : ℚ) : SettlementView (OutboxSlot String) where
  id := OutboxSlot.id
  held x := x.entry.status = .pending && x.heldUnder token
  live x := x.entry.status = .pending && x.heldUnder token && !leaseLapsed x.claim now

def rowView (token : String) (now : ℚ) : SettlementView OutboxRow where
  id := OutboxRow.id
  held r := r.status = .pending && r.claimToken = some token
  live r := r.status = .pending && r.claimToken = some token && r.leaseUntil.any fun l => now < l

namespace SettlementView
variable {α : Type} (v : SettlementView α)

/-- Exactly the live entries of the ids changed, and the answer is whether all ids were live. -/
def SettlesExactly (ids : List String) (f : α → α) (before after : List α) (answer : Bool) : Prop :=
  after = updateWhere (fun x => decide (v.id x ∈ ids) && v.live x) f before ∧
    (answer = true ↔ ∀ id ∈ ids, ∃ x ∈ before, v.id x = id ∧ v.live x = true)

/-- No named entry is held past its lease, and the ids, of which there are some, are all held or
none of them is. -/
def Uniform (ids : List String) (before : List α) : Prop :=
  (∀ x ∈ before, v.id x ∈ ids → v.held x = true → v.live x = true) ∧ ids ≠ [] ∧
    ((∀ id ∈ ids, ∃ x ∈ before, v.id x = id ∧ v.held x = true) ∨
      ∀ x ∈ before, v.id x ∈ ids → v.held x = false)

instance [DecidableEq α] (ids : List String) (f : α → α) (before after : List α) (answer : Bool) :
    Decidable (v.SettlesExactly ids f before after answer) :=
  inferInstanceAs (Decidable (_ ∧ _))

instance (ids : List String) (before : List α) : Decidable (v.Uniform ids before) :=
  inferInstanceAs (Decidable (_ ∧ _ ∧ _))

variable {v} {ids : List String} {f : α → α} {before : List α}

theorem settlesExactly_iff (hn : (before.map v.id).Nodup) (hlive : ∀ x, v.live x = true → v.held x = true) :
    v.SettlesExactly ids f before (updateWhere (fun x => decide (v.id x ∈ ids) && v.held x) f before)
        (before.any fun x => decide (v.id x ∈ ids) && v.held x) ↔
      v.Uniform ids before := by
  constructor
  · rintro ⟨-,hanswer⟩
    rw [List.any_eq_true] at hanswer
    have hall : ∀ x ∈ before, v.id x ∈ ids → v.held x = true →
        ∀ id ∈ ids, ∃ x ∈ before, v.id x = id ∧ v.live x = true := by
      intro x hx hid hheld
      exact hanswer.mp ⟨x,hx,by rw [hheld,decide_eq_true hid]; rfl⟩
    refine ⟨fun x hx hid hheld => ?_,?_,?_⟩
    · obtain ⟨y,hy,hyid,hylive⟩ := hall x hx hid hheld _ hid
      obtain rfl := List.inj_on_of_nodup_map hn hy hx hyid
      exact hylive
    · rintro rfl
      obtain ⟨x,-,hx⟩ := hanswer.mpr fun id hid => by cases hid
      simp at hx
    · by_cases hsome : ∃ x ∈ before, v.id x ∈ ids ∧ v.held x = true
      · obtain ⟨x,hx,hid,hheld⟩ := hsome
        refine Or.inl fun id hid' => ?_
        obtain ⟨y,hy,hyid,hylive⟩ := hall x hx hid hheld id hid'
        exact ⟨y,hy,hyid,hlive y hylive⟩
      · refine Or.inr fun x hx hid => ?_
        by_contra hheld
        exact hsome ⟨x,hx,hid,by simpa using hheld⟩
  · rintro ⟨hheld,hne,hall⟩
    have hguard : ∀ x ∈ before, (decide (v.id x ∈ ids) && v.held x) =
        (decide (v.id x ∈ ids) && v.live x) := by
      intro x hx
      by_cases hid : v.id x ∈ ids
      · rw [decide_eq_true hid,Bool.true_and,Bool.true_and,Bool.eq_iff_iff]
        exact ⟨hheld x hx hid,hlive x⟩
      · rw [decide_eq_false hid,Bool.false_and,Bool.false_and]
    refine ⟨updateWhere_congr hguard fun x _ _ => rfl,?_⟩
    obtain ⟨i,hi⟩ := List.exists_mem_of_ne_nil ids hne
    rw [List.any_eq_true]
    rcases hall with hall | hnone
    · refine iff_of_true ?_ fun id hid => ?_
      · obtain ⟨x,hx,rfl,hxheld⟩ := hall i hi
        exact ⟨x,hx,by rw [hxheld,decide_eq_true hi]; rfl⟩
      · obtain ⟨x,hx,rfl,hxheld⟩ := hall id hid
        exact ⟨x,hx,rfl,hheld x hx hid hxheld⟩
    · refine iff_of_false ?_ fun hlives => ?_
      · rintro ⟨x,hx,hp⟩
        rw [Bool.and_eq_true,decide_eq_true_eq] at hp
        rw [hnone x hx hp.1] at hp
        cases hp.2
      · obtain ⟨x,hx,rfl,hxlive⟩ := hlives i hi
        have hheld' := hlive x hxlive
        rw [hnone x hx hi] at hheld'
        cases hheld'

end SettlementView

theorem slotView_live (token : String) (now : ℚ) (x : OutboxSlot String)
    (h : (slotView token now).live x = true) : (slotView token now).held x = true := by
  simp only [slotView,Bool.and_eq_true] at h ⊢
  exact h.1

theorem rowView_live (token : String) (now : ℚ) (r : OutboxRow)
    (h : (rowView token now).live r = true) : (rowView token now).held r = true := by
  simp only [rowView,Bool.and_eq_true] at h ⊢
  exact h.1

theorem consistent_of_reachable {s : OutboxState} (h : inMemoryOutbox.toSystem.Reachable s) :
    s.Consistent := by
  refine h.invariant OutboxState.Consistent OutboxState.consistent_empty ?_
  rintro a call b ha - hs
  obtain rfl := Option.some.inj hs
  exact ha.apply call

theorem memory_settles {s : OutboxState} (h : s.Consistent) (k : Settlement) (token : String) (now : ℚ) :
    (s.apply (k.call token)).1.slots = updateWhere
        (fun x => decide ((slotView token now).id x ∈ k.ids) && (slotView token now).held x) k.onSlot s.slots ∧
      applied (s.apply (k.call token)).2 = s.slots.any fun x =>
        decide ((slotView token now).id x ∈ k.ids) && (slotView token now).held x := by
  have hguard : ∀ (ids : List String), ∀ x ∈ s.slots,
      (decide (x.id ∈ ids) && x.ownedBy (some token)) =
        (decide ((slotView token now).id x ∈ ids) && (slotView token now).held x) := by
    intro ids x hx
    simp only [slotView,OutboxSlot.ownedBy]
    by_cases hheld : x.heldUnder token = true
    · have hc : x.claim ≠ none := by
        intro hnone
        rw [OutboxSlot.heldUnder,hnone] at hheld
        cases hheld
      rw [decide_eq_true (h.wellFormed.claimed x hx hc),Bool.true_and]
      rfl
    · rw [Bool.not_eq_true] at hheld
      rw [hheld,Bool.and_false,Bool.and_false,Bool.and_false]
  have hany : ∀ (ids : List String), (s.slots.any fun x => decide (x.id ∈ ids) && x.ownedBy (some token)) =
      s.slots.any fun x => decide ((slotView token now).id x ∈ ids) && (slotView token now).held x :=
    fun ids => any_congr_mem (hguard ids)
  have hupdate : ∀ (ids : List String) (f : OutboxSlot String → OutboxSlot String),
      updateWhere (fun x => decide (x.id ∈ ids) && x.ownedBy (some token)) f s.slots =
        updateWhere (fun x => decide ((slotView token now).id x ∈ ids) && (slotView token now).held x) f
          s.slots :=
    fun ids f => updateWhere_congr (hguard ids) fun x _ _ => rfl
  cases k with
  | published ids =>
    exact ⟨(h.markPublished_slots ids (some token)).trans (hupdate ids _),
      (h.markPublished_applied ids (some token)).trans (hany ids)⟩
  | failed id error attempts retryAt =>
    obtain ⟨hs,ha⟩ := h.markFailed_refines id error attempts retryAt (some token)
    exact ⟨hs.trans (hupdate [id] _),ha.trans (hany [id])⟩
  | dead id error =>
    obtain ⟨hs,ha⟩ := h.markDead_refines id error (some token)
    exact ⟨hs.trans (hupdate [id] _),ha.trans (hany [id])⟩

theorem sqlite_settles (rows : OutboxTable) (k : Settlement) (token : String) (now : ℚ) :
    (OutboxTable.apply rows (k.call token)).1 = updateWhere
        (fun r => decide ((rowView token now).id r ∈ k.ids) && (rowView token now).held r) k.onRow rows ∧
      applied (OutboxTable.apply rows (k.call token)).2 = rows.any fun r =>
        decide ((rowView token now).id r ∈ k.ids) && (rowView token now).held r := by
  have hguard : ∀ (ids : List String), OutboxRow.settles ids (some token) = fun r =>
      decide ((rowView token now).id r ∈ ids) && (rowView token now).held r := by
    intro ids
    funext r
    exact Bool.and_assoc ..
  have hsettle : ∀ (ids : List String) (f : OutboxRow → OutboxRow),
      OutboxTable.settle rows (OutboxRow.settles ids (some token)) f =
        (rows.any fun r => decide ((rowView token now).id r ∈ ids) && (rowView token now).held r,
          updateWhere (fun r => decide ((rowView token now).id r ∈ ids) && (rowView token now).held r) f
            rows) := by
    intro ids f
    rw [OutboxTable.settle_eq,hguard]
  cases k with
  | published ids =>
    have h := (OutboxTable.markPublished_eq rows ids (some token)).trans (hsettle ids _)
    exact ⟨congrArg Prod.snd h,congrArg Prod.fst h⟩
  | failed id error attempts retryAt =>
    have h := hsettle [id] (OutboxTable.fail error attempts retryAt)
    exact ⟨congrArg Prod.snd h,congrArg Prod.fst h⟩
  | dead id error =>
    have h := hsettle [id] (OutboxTable.bury error)
    exact ⟨congrArg Prod.snd h,congrArg Prod.fst h⟩

theorem rows_of_reachable {rows : OutboxTable} (h : sqliteOutbox.toSystem.Reachable rows) :
    ∃ slots : OutboxSlots String, rows = OutboxTable.ofSlots slots ∧ slots.WellFormed := by
  refine h.invariant (fun rows => ∃ slots : OutboxSlots String,
    rows = OutboxTable.ofSlots slots ∧ slots.WellFormed) ?_ ?_
  · exact ⟨[],rfl,List.nodup_nil,fun x hx => by cases hx⟩
  · rintro a call b ⟨slots,rfl,hw⟩ - hs
    obtain rfl := Option.some.inj hs
    exact OutboxTable.apply_ofSlots hw call

/-- In every reachable outbox of either adapter, a settlement keeps the contract just when none of
its entries is held past its lease and its ids are all held under the token or all not. -/
theorem settlement_contract (k : Settlement) (token : String) (now : ℚ) :
    (∀ s, inMemoryOutbox.toSystem.Reachable s →
      ((slotView token now).SettlesExactly k.ids k.onSlot s.slots (s.apply (k.call token)).1.slots
          (applied (s.apply (k.call token)).2) ↔ (slotView token now).Uniform k.ids s.slots)) ∧
    ∀ rows, sqliteOutbox.toSystem.Reachable rows →
      ((rowView token now).SettlesExactly k.ids k.onRow rows (OutboxTable.apply rows (k.call token)).1
          (applied (OutboxTable.apply rows (k.call token)).2) ↔ (rowView token now).Uniform k.ids rows) := by
  constructor
  · intro s hs
    have hc := consistent_of_reachable hs
    obtain ⟨hslots,hanswer⟩ := memory_settles hc k token now
    rw [hslots,hanswer]
    exact SettlementView.settlesExactly_iff hc.wellFormed.ids (slotView_live token now)
  · intro rows hr
    obtain ⟨slots,rfl,hw⟩ := rows_of_reachable hr
    obtain ⟨hrows,hanswer⟩ := sqlite_settles (OutboxTable.ofSlots slots) k token now
    rw [hrows,hanswer]
    refine SettlementView.settlesExactly_iff ?_ (rowView_live token now)
    rw [OutboxTable.ofSlots,List.map_map]
    exact hw.ids

def invoice (id : String) : OutboxMessage := ⟨id,"invoices",.null,.obj [],none⟩

def invoicesClaimed : List (OutboxCall String) :=
  [.enqueue [invoice "m1",invoice "m2"],.claim 10 ⟨30000,thirtySeconds_nonneg⟩ 0 "u1"]

theorem settlement_contract_invoices :
    (∃ s, inMemoryOutbox.toSystem.run invoicesClaimed = some s ∧
      (slotView "mem-0" 1).SettlesExactly ["m1","m2"] OutboxSlot.publish s.slots
        (s.apply (.markPublished ["m1","m2"] (some "mem-0"))).1.slots true) ∧
    ∃ rows, sqliteOutbox.toSystem.run invoicesClaimed = some rows ∧
      (rowView "u1" 1).SettlesExactly ["m1","m2"] OutboxTable.publish rows
        (OutboxTable.apply rows (.markPublished ["m1","m2"] (some "u1"))).1 true := by
  have hm := System.run_reachable
    (show inMemoryOutbox.toSystem.run invoicesClaimed = some _ from rfl)
  have hs := System.run_reachable
    (show sqliteOutbox.toSystem.run invoicesClaimed = some _ from rfl)
  constructor
  · exact ⟨_,rfl,((settlement_contract (.published ["m1","m2"]) "mem-0" 1).1 _ hm).mpr (by decide +kernel)⟩
  · exact ⟨_,rfl,((settlement_contract (.published ["m1","m2"]) "u1" 1).2 _ hs).mpr (by decide +kernel)⟩

/-- A minute after the claim the token still settles, and one settled id answers for two. -/
theorem late_settlement_applies :
    (¬ ∀ (k : Settlement) token now s, inMemoryOutbox.toSystem.Reachable s →
      (slotView token now).SettlesExactly k.ids k.onSlot s.slots (s.apply (k.call token)).1.slots
        (applied (s.apply (k.call token)).2)) ∧
    (¬ ∀ (k : Settlement) token now rows, sqliteOutbox.toSystem.Reachable rows →
      (rowView token now).SettlesExactly k.ids k.onRow rows (OutboxTable.apply rows (k.call token)).1
        (applied (OutboxTable.apply rows (k.call token)).2)) ∧
    ¬ ∀ (k : Settlement) token s, inMemoryOutbox.toSystem.Reachable s →
      (slotView token 1).SettlesExactly k.ids k.onSlot s.slots (s.apply (k.call token)).1.slots
        (applied (s.apply (k.call token)).2) := by
  have hm := System.run_reachable
    (show inMemoryOutbox.toSystem.run invoicesClaimed = some _ from rfl)
  have hs := System.run_reachable
    (show sqliteOutbox.toSystem.run invoicesClaimed = some _ from rfl)
  refine ⟨fun h => ?_,fun h => ?_,fun h => ?_⟩
  · exact absurd (h (.published ["m1"]) "mem-0" 60000 _ hm) (by decide +kernel)
  · exact absurd (h (.published ["m1"]) "u1" 60000 _ hs) (by decide +kernel)
  · exact absurd (h (.published ["m1","m3"]) "mem-0" _ hm) (by decide +kernel)

end StructureAi.Sqlite

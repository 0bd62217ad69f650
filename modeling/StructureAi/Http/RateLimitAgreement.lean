import StructureAi.Http.RateLimitKeys
import StructureAi.Http.RateLimitRedis

/-! # The two stores agree

Both stores keep a limiter for each key: the map prunes and sweeps it, Redis prunes a sorted set
and lets it expire. What is kept of a key is alike either way.
-/
namespace StructureAi.Http
open StructureAi.Foundation RedisScript

section SortedSet
variable {es : List (ℤ × String)} {e : ℤ × String}

theorem insertMember_scores (h : es.Pairwise fun a b => a.1 ≤ b.1) (hle : ∀ a ∈ es, a.1 ≤ e.1) :
    (insertMember e es).map Prod.fst = es.map Prod.fst ++ [e.1] := by
  induction es with
  | nil => rfl
  | cons x es ih =>
    obtain ⟨hx,hes⟩ := List.pairwise_cons.mp h
    rw [insertMember]
    split
    · rename_i hbefore
      have hsame : x.1 = e.1 := le_antisymm (hle x List.mem_cons_self) (hbefore.elim le_of_lt fun h => h.1.le)
      have hconst : ∀ a ∈ x :: es, a.1 = e.1 := by
        intro a ha
        refine le_antisymm (hle a ha) ?_
        rcases List.mem_cons.mp ha with rfl | ha
        · exact hsame.ge
        · exact hsame ▸ hx a ha
      have hreplicate : (x :: es).map Prod.fst = List.replicate (x :: es).length e.1 := by
        rw [List.eq_replicate_iff,List.length_map]
        refine ⟨rfl,?_⟩
        intro n hn
        obtain ⟨a,ha,rfl⟩ := List.mem_map.mp hn
        exact hconst a ha
      rw [List.map_cons,hreplicate,← List.replicate_succ,List.replicate_succ']
    · rw [List.map_cons,ih hes fun a ha => hle a (List.mem_cons_of_mem x ha)]
      rfl

theorem mem_insertMember {a : ℤ × String} : a ∈ insertMember e es ↔ a = e ∨ a ∈ es := by
  induction es with
  | nil => simp [insertMember]
  | cons x es ih =>
    rw [insertMember]
    split
    · rw [List.mem_cons]
    · rw [List.mem_cons,ih,List.mem_cons]
      tauto

end SortedSet

section Slots
variable {expiry : Expiry} {keyPrefix : Option String} {used : List String} {last now : ℤ} {db : Keyspace} {key : String}
  {rule : RateLimitRule ℤ}

def membersOf : Option RedisSlot → List (ℤ × String)
  | some ⟨.zset members,_⟩ => members
  | _ => []

def numberOf : Option RedisSlot → ℤ
  | some ⟨.number n,_⟩ => n
  | _ => 0

/-- A slot of hits: in their order, from members that were used, and with a deadline after the last left its window. -/
structure HoldsHits (window last : ℤ) (used : List String) (slot : Option RedisSlot) : Prop where
  typed : ∀ s ∈ slot, s.value = .zset (membersOf slot) ∧ ∃ deadline, s.expireAt = some deadline ∧
    ∀ e ∈ membersOf slot, e.1 + window ≤ deadline
  ordered : (membersOf slot).Pairwise fun a b => a.1 ≤ b.1
  bounded : ∀ e ∈ membersOf slot, 0 ≤ e.1 ∧ e.1 ≤ last ∧ e.2 ∈ used

def HoldsBlock (slot : Option RedisSlot) : Prop := ∀ s ∈ slot, s = ⟨.number (numberOf slot),some (numberOf slot)⟩

def redisEntry (keyPrefix : Option String) (db : Keyspace) (key : String) : MemoryEntry ℤ :=
  ⟨(membersOf (db (windowKeyOf keyPrefix key))).map Prod.fst,numberOf (db (blockKeyOf keyPrefix key))⟩

/-- A set of hits after those out of the window went. -/
def slotOf (members : List (ℤ × String)) (expireAt : Option ℤ) : Option RedisSlot :=
  if members = [] then none else some ⟨.zset members,expireAt⟩

/-- The hits of a slot that are still in the window. -/
def liveMembers (window now : ℤ) (slot : Option RedisSlot) : List (ℤ × String) :=
  (membersOf slot).filter fun e => now - window < e.1

theorem bind_ok {α β : Type} {x : RedisScript α} {f : α → RedisScript β} {db db' : Keyspace} {a : α}
    (h : x db = .ok (a,db')) : (x >>= f) db = f a db' := by
  change Except.bind (x db) _ = _
  rw [h]
  rfl

theorem members_eq {es : List (ℤ × String)} {expireAt : Option ℤ} (h : slot expiry now db key = slotOf es expireAt) :
    ∃ expireAt', members expiry now key db = .ok ((es,expireAt'),db) := by
  unfold members
  rw [h,slotOf]
  by_cases hnone : es = []
  · exact ⟨none,by rw [if_pos hnone,hnone]⟩
  · exact ⟨expireAt,by rw [if_neg hnone]⟩

/-- A deadline for the hits that are left: they are there until the last of them left its window. -/
def Lasts (expiry : Expiry) (window now : ℤ) (es : List (ℤ × String)) (expireAt : Option ℤ) : Prop :=
  es ≠ [] → ∃ deadline, expireAt = some deadline ∧ expiry.gone deadline now = false ∧ ∀ e ∈ es, e.1 + window ≤ deadline

theorem Lasts.members {window : ℤ} {es : List (ℤ × String)} {expireAt : Option ℤ} (h : Lasts expiry window now es expireAt)
    (hslot : slot expiry now db key = slotOf es expireAt) :
    ∃ expireAt', RedisScript.members expiry now key db = .ok ((es,expireAt'),db) ∧
      (expireAt'.any fun deadline => expiry.gone deadline now) = false := by
  unfold RedisScript.members
  rw [hslot,slotOf]
  by_cases hnone : es = []
  · exact ⟨none,by rw [if_pos hnone,hnone],rfl⟩
  · obtain ⟨deadline,rfl,hlive,-⟩ := h hnone
    exact ⟨some deadline,by rw [if_neg hnone],hlive⟩

theorem zcard_eq {es : List (ℤ × String)} {expireAt : Option ℤ} (h : slot expiry now db key = slotOf es expireAt) :
    zcard expiry now key db = .ok (es.length,db) := by
  obtain ⟨expireAt',hmembers⟩ := members_eq h
  exact bind_ok hmembers

theorem zrangeFirst_eq {es : List (ℤ × String)} {expireAt : Option ℤ} (h : slot expiry now db key = slotOf es expireAt) :
    zrangeFirst expiry now key db = .ok ((es.map Prod.fst).head?,db) := by
  obtain ⟨expireAt',hmembers⟩ := members_eq h
  exact bind_ok hmembers

theorem zrangeLast_eq {es : List (ℤ × String)} {expireAt : Option ℤ} (h : slot expiry now db key = slotOf es expireAt) :
    zrangeLast expiry now key db = .ok ((es.map Prod.fst).getLast?,db) := by
  obtain ⟨expireAt',hmembers⟩ := members_eq h
  exact bind_ok hmembers

theorem liveMembers_expired {slot : Option RedisSlot} {window deadline : ℤ} (hgone : expiry.gone deadline now = true)
    (hdeadline : ∀ e ∈ membersOf slot, e.1 + window ≤ deadline) : liveMembers window now slot = [] := by
  have hle : deadline ≤ now := by
    by_contra hlt
    rw [expiry.live deadline now (not_le.mp hlt)] at hgone
    cases hgone
  rw [liveMembers,List.filter_eq_nil_iff]
  intro e he
  have hout := hdeadline e he
  rw [decide_eq_true_eq]
  omega

variable (expiry now) in
theorem HoldsHits.prune (h : HoldsHits rule.windowMillis last used (db key)) :
    ∃ expireAt, zremrangebyscore expiry now key 0 (now - rule.windowMillis) db =
      .ok ((),Function.update db key (slotOf (liveMembers rule.windowMillis now (db key)) expireAt)) ∧
      Lasts expiry rule.windowMillis now (liveMembers rule.windowMillis now (db key)) expireAt := by
  have hout : ∀ s ∈ db key, ∀ deadline, s.expireAt = some deadline → expiry.gone deadline now = true →
      liveMembers rule.windowMillis now (db key) = [] := by
    intro s hs deadline hexpire hgone
    obtain ⟨-,deadline',hexpire',hdeadline⟩ := h.typed s hs
    obtain rfl := Option.some.inj (hexpire.symm.trans hexpire')
    exact liveMembers_expired hgone hdeadline
  have hmembers : ∃ es expireAt, members expiry now key db = .ok ((es,expireAt),db) ∧
      (es.filter fun e => ¬ (0 ≤ e.1 ∧ e.1 ≤ now - rule.windowMillis)) = liveMembers rule.windowMillis now (db key) ∧
      Lasts expiry rule.windowMillis now (liveMembers rule.windowMillis now (db key)) expireAt := by
    unfold members RedisScript.slot
    cases hslot : db key with
    | none => exact ⟨[],none,rfl,rfl,fun hne => absurd rfl hne⟩
    | some s =>
      obtain ⟨hvalue,deadline,hexpire,hdeadline⟩ := h.typed s hslot
      obtain ⟨value,expireAt⟩ := s
      simp only at hvalue hexpire
      subst hvalue hexpire
      by_cases hgone : expiry.gone deadline now = true
      · have hnone := hout _ hslot deadline rfl hgone
        rw [hslot] at hnone
        rw [hnone]
        exact ⟨[],none,by simp [hgone,Option.filter],rfl,fun hne => absurd rfl hne⟩
      · refine ⟨membersOf (db key),some deadline,by simp [hgone,Option.filter],?_,fun _ =>
          ⟨deadline,rfl,by simpa using hgone,?_⟩⟩
        · rw [← hslot]
          apply List.filter_congr
          intro e he
          obtain ⟨hzero,-⟩ := h.bounded e he
          rw [decide_eq_decide]
          omega
        · intro e he
          rw [← hslot] at he
          exact hdeadline e (List.mem_of_mem_filter he)
  obtain ⟨es,expireAt,hes,hfilter,hlasts⟩ := hmembers
  refine ⟨expireAt,?_,hlasts⟩
  unfold zremrangebyscore
  rw [bind_ok hes]
  simp only [store,hfilter]
  rfl

theorem Lasts.slot {window : ℤ} {es : List (ℤ × String)} {expireAt : Option ℤ} (h : Lasts expiry window now es expireAt)
    (hdb : db key = slotOf es expireAt) : RedisScript.slot expiry now db key = slotOf es expireAt := by
  unfold RedisScript.slot
  rw [hdb,slotOf]
  by_cases hnone : es = []
  · rw [if_pos hnone]
    rfl
  · obtain ⟨deadline,rfl,hlive,-⟩ := h hnone
    rw [if_neg hnone]
    simp [hlive,Option.filter]

theorem membersOf_slotOf (es : List (ℤ × String)) (expireAt : Option ℤ) : membersOf (slotOf es expireAt) = es := by
  unfold slotOf
  split
  · rename_i h
    exact h.symm
  · rfl

theorem holdsHits_slotOf {window : ℤ} {es : List (ℤ × String)} {expireAt : Option ℤ}
    (hexpire : es ≠ [] → ∃ deadline, expireAt = some deadline ∧ ∀ e ∈ es, e.1 + window ≤ deadline)
    (hordered : es.Pairwise fun a b => a.1 ≤ b.1) (hbounded : ∀ e ∈ es, 0 ≤ e.1 ∧ e.1 ≤ now ∧ e.2 ∈ used) :
    HoldsHits window now used (slotOf es expireAt) := by
  refine ⟨?_,?_,?_⟩
  · intro s hs
    rw [membersOf_slotOf]
    unfold slotOf at hs
    split at hs
    · cases hs
    · rename_i hne
      obtain ⟨deadline,hdeadline⟩ := hexpire hne
      obtain rfl := Option.some.inj hs
      exact ⟨rfl,deadline,hdeadline⟩
  · rw [membersOf_slotOf]
    exact hordered
  · rw [membersOf_slotOf]
    exact hbounded

theorem HoldsHits.later (h : HoldsHits rule.windowMillis last used (db key)) (hnow : last ≤ now) {used' : List String}
    (hused : used ⊆ used') : HoldsHits rule.windowMillis now used' (db key) := by
  refine ⟨h.typed,h.ordered,?_⟩
  intro e he
  obtain ⟨hzero,hlast,hmember⟩ := h.bounded e he
  exact ⟨hzero,hlast.trans hnow,hused hmember⟩

theorem HoldsHits.live (h : HoldsHits rule.windowMillis last used (db key)) (hnow : last ≤ now) :
    (liveMembers rule.windowMillis now (db key)).Pairwise (fun a b => a.1 ≤ b.1) ∧
      ∀ e ∈ liveMembers rule.windowMillis now (db key), 0 ≤ e.1 ∧ e.1 ≤ now ∧ e.2 ∈ used := by
  refine ⟨h.ordered.sublist List.filter_sublist,?_⟩
  intro e he
  obtain ⟨hzero,hlast,hmember⟩ := h.bounded e (List.mem_of_mem_filter he)
  exact ⟨hzero,hlast.trans hnow,hmember⟩

variable (expiry) in
/-- A block that runs is read; one that is over reads as none or as over. -/
theorem HoldsBlock.get (h : HoldsBlock (db key)) (hnow : 0 ≤ now) : ∃ o, RedisScript.get expiry now key db = .ok (o,db) ∧
    (o.getD 0 > now ↔ numberOf (db key) > now) ∧ (numberOf (db key) > now → o.getD 0 = numberOf (db key)) := by
  unfold RedisScript.get RedisScript.slot
  cases hslot : db key with
  | none => exact ⟨none,rfl,Iff.rfl,fun _ => rfl⟩
  | some s =>
    have hs := h s hslot
    rw [hslot] at hs
    generalize numberOf (some s) = n at hs ⊢
    subst hs
    by_cases hgone : expiry.gone n now = true
    · have hle : n ≤ now := by
        by_contra hlt
        rw [expiry.live n now (not_le.mp hlt)] at hgone
        cases hgone
      refine ⟨none,by simp [hgone,Option.filter],?_,fun hgt => absurd hle (not_le.mpr hgt)⟩
      simp only [Option.getD_none]
      omega
    · exact ⟨some n,by simp [hgone,Option.filter],Iff.rfl,fun _ => rfl⟩

end Slots

section Keys
variable {keyPrefix : Option String}

theorem windowKeyOf_injective : Function.Injective (windowKeyOf keyPrefix) := by
  intro k k' h
  simpa [windowKeyOf,String.ext_iff] using h

theorem blockKeyOf_injective : Function.Injective (blockKeyOf keyPrefix) := by
  intro k k' h
  simpa [blockKeyOf,String.ext_iff] using h

theorem windowKeyOf_ne (k k' : String) : windowKeyOf keyPrefix k ≠ blockKeyOf keyPrefix k' := by
  intro h
  simp [windowKeyOf,blockKeyOf,String.ext_iff,List.append_assoc] at h

end Keys

section Simulation
variable {expiry : Expiry} {keyPrefix : Option String} {rules : String → RateLimitRule ℤ} {used : List String} {last now : ℤ}
  {db : Keyspace} {call : RateLimitCall ℤ} {limiters : String → MemoryEntry ℤ}

/-- What Redis keeps of every key. -/
structure RedisHolds (keyPrefix : Option String) (rules : String → RateLimitRule ℤ) (used : List String) (last : ℤ)
    (db : Keyspace) : Prop where
  hits : ∀ k, HoldsHits (rules k).windowMillis last used (db (windowKeyOf keyPrefix k))
  blocks : ∀ k, HoldsBlock (db (blockKeyOf keyPrefix k))

/-- The keyspace after a call: the slots of its key, the others as they were. -/
def withSlots (keyPrefix : Option String) (key : String) (window block : Option RedisSlot) (db : Keyspace) : Keyspace :=
  Function.update (Function.update db (windowKeyOf keyPrefix key) window) (blockKeyOf keyPrefix key) block

theorem withSlots_window (key k : String) (window block : Option RedisSlot) :
    withSlots keyPrefix key window block db (windowKeyOf keyPrefix k) =
      if k = key then window else db (windowKeyOf keyPrefix k) := by
  unfold withSlots
  rw [Function.update_of_ne (windowKeyOf_ne k key)]
  split
  · rename_i h
    rw [h,Function.update_self]
  · rename_i h
    rw [Function.update_of_ne (windowKeyOf_injective.ne h)]

theorem withSlots_block (key k : String) (window block : Option RedisSlot) :
    withSlots keyPrefix key window block db (blockKeyOf keyPrefix k) =
      if k = key then block else db (blockKeyOf keyPrefix k) := by
  unfold withSlots
  split
  · rename_i h
    rw [h,Function.update_self]
  · rename_i h
    rw [Function.update_of_ne (blockKeyOf_injective.ne h),Function.update_of_ne (windowKeyOf_ne key k).symm]

theorem withSlots_eq (key : String) (window : Option RedisSlot) :
    withSlots keyPrefix key window (db (blockKeyOf keyPrefix key)) db =
      Function.update db (windowKeyOf keyPrefix key) window := by
  apply Function.update_eq_iff.mpr
  refine ⟨?_,fun _ _ => rfl⟩
  rw [Function.update_of_ne (windowKeyOf_ne key key).symm]

variable (expiry) in
theorem RedisHolds.prelude (h : RedisHolds keyPrefix rules used last db) (key : String) (hnow : 0 ≤ now) :
    ∃ expireAt o, zremrangebyscore expiry now (windowKeyOf keyPrefix key) 0 (now - (rules key).windowMillis) db =
        .ok ((),Function.update db (windowKeyOf keyPrefix key)
          (slotOf (liveMembers (rules key).windowMillis now (db (windowKeyOf keyPrefix key))) expireAt)) ∧
      Lasts expiry (rules key).windowMillis now (liveMembers (rules key).windowMillis now (db (windowKeyOf keyPrefix key)))
        expireAt ∧
      (∀ window, get expiry now (blockKeyOf keyPrefix key) (Function.update db (windowKeyOf keyPrefix key) window) =
        .ok (o,Function.update db (windowKeyOf keyPrefix key) window)) ∧
      (o.getD 0 > now ↔ numberOf (db (blockKeyOf keyPrefix key)) > now) ∧
      (numberOf (db (blockKeyOf keyPrefix key)) > now → o.getD 0 = numberOf (db (blockKeyOf keyPrefix key))) := by
  obtain ⟨expireAt,hprune,hlasts⟩ := (h.hits key).prune expiry now
  obtain ⟨o,hget,hiff,hvalue⟩ := (h.blocks key).get expiry hnow
  refine ⟨expireAt,o,hprune,hlasts,?_,hiff,hvalue⟩
  intro window
  unfold RedisScript.get RedisScript.slot at hget ⊢
  rw [Function.update_of_ne (windowKeyOf_ne key key).symm]
  split at hget <;> cases hget <;> rfl

theorem windowReset_eq (hits : List ℤ) (rule : RateLimitRule ℤ) (now : ℤ) :
    windowReset hits rule now = hits.getLast?.elim 0 fun score => score + rule.windowMillis - now := by
  unfold windowReset
  split
  · rename_i h
    rw [h,Option.elim_none]
  · rename_i h
    rw [h,Option.elim_some]

theorem liveMembers_recent (window now : ℤ) (slot : Option RedisSlot) :
    ∀ hit ∈ (liveMembers window now slot).map Prod.fst, now - window < hit := by
  intro hit hhit
  obtain ⟨e,he,rfl⟩ := List.mem_map.mp hhit
  exact of_decide_eq_true (List.mem_filter.mp he).2

theorem windowReset_nonneg {hits : List ℤ} (rule : RateLimitRule ℤ) (h : ∀ hit ∈ hits, now - rule.windowMillis < hit) :
    0 ≤ windowReset hits rule now := by
  unfold windowReset
  split
  · exact le_rfl
  · rename_i newest hlast
    have hnewest := h newest (List.mem_of_getLast? hlast)
    omega

theorem untilOldestLeaves_eq (hits : List ℤ) (rule : RateLimitRule ℤ) (now : ℤ) :
    untilOldestLeaves hits rule now = hits.head?.elim rule.windowMillis fun score => score + rule.windowMillis - now := by
  unfold untilOldestLeaves
  split
  · rename_i h
    rw [h,Option.elim_none]
  · rename_i h
    rw [h,Option.elim_some]

/-- What a script leaves of its key is alike what the limiter of the key has. -/
structure Leaves (rules : String → RateLimitRule ℤ) (keyPrefix : Option String) (key : String) (used : List String) (now : ℤ)
    (db db' : Keyspace) (entry : MemoryEntry ℤ) : Prop where
  slots : ∃ window block, db' = withSlots keyPrefix key window block db ∧
    HoldsHits (rules key).windowMillis now used window ∧ HoldsBlock block ∧
    MemoryEntry.Alike (rules key).windowMillis now ⟨(membersOf window).map Prod.fst,numberOf block⟩ entry

theorem redisEntry_inWindow (key : String) (rule : RateLimitRule ℤ) : (redisEntry keyPrefix db key).inWindow rule now =
    ⟨(liveMembers rule.windowMillis now (db (windowKeyOf keyPrefix key))).map Prod.fst,
      numberOf (db (blockKeyOf keyPrefix key))⟩ := by
  unfold MemoryEntry.inWindow redisEntry recent liveMembers
  rw [List.filter_map]
  rfl

theorem leaves_pruned (h : RedisHolds keyPrefix rules used last db) (key : String) (hlast : last ≤ now) {expireAt : Option ℤ}
    (hlasts : Lasts expiry (rules key).windowMillis now
      (liveMembers (rules key).windowMillis now (db (windowKeyOf keyPrefix key))) expireAt) :
    Leaves rules keyPrefix key used now db (Function.update db (windowKeyOf keyPrefix key)
      (slotOf (liveMembers (rules key).windowMillis now (db (windowKeyOf keyPrefix key))) expireAt))
      ((redisEntry keyPrefix db key).inWindow (rules key) now) := by
  obtain ⟨hordered,hbounded⟩ := (h.hits key).live hlast
  refine ⟨_,_,(withSlots_eq key _).symm,?_,h.blocks key,?_⟩
  · apply holdsHits_slotOf _ hordered hbounded
    intro hne
    obtain ⟨deadline,hexpire,-,hdeadline⟩ := hlasts hne
    exact ⟨deadline,hexpire,hdeadline⟩
  · rw [membersOf_slotOf,redisEntry_inWindow]
    exact MemoryEntry.Alike.refl _ _ _

theorem Leaves.alike {key : String} {db' : Keyspace} {e e' : MemoryEntry ℤ} (h : Leaves rules keyPrefix key used now db db' e)
    (halike : MemoryEntry.Alike (rules key).windowMillis now e e') : Leaves rules keyPrefix key used now db db' e' := by
  obtain ⟨window,block,hdb,hhits,hblock,hsame⟩ := h.slots
  exact ⟨window,block,hdb,hhits,hblock,hsame.trans halike⟩

theorem Leaves.more {key : String} {db' : Keyspace} {e : MemoryEntry ℤ} (h : Leaves rules keyPrefix key used now db db' e)
    (member : String) : Leaves rules keyPrefix key (member :: used) now db db' e := by
  obtain ⟨window,block,hdb,hhits,hblock,hsame⟩ := h.slots
  refine ⟨window,block,hdb,⟨hhits.typed,hhits.ordered,?_⟩,hblock,hsame⟩
  intro e he
  obtain ⟨hzero,hle,hused⟩ := hhits.bounded e he
  exact ⟨hzero,hle,List.mem_cons_of_mem member hused⟩

theorem inWindow_alike (e : MemoryEntry ℤ) (rule : RateLimitRule ℤ) :
    MemoryEntry.Alike rule.windowMillis now (e.inWindow rule now) e :=
  ⟨recent_recent le_rfl e.hits,Or.inl rfl⟩

variable (expiry) in
theorem peekScript_eq (h : RedisHolds keyPrefix rules used last db) (key : String) (hnow : 0 ≤ now) (hlast : last ≤ now) :
    ∃ reply db', peekScript expiry now (windowKeyOf keyPrefix key) (blockKeyOf keyPrefix key) (rules key).points
        (rules key).windowMillis db = .ok (reply,db') ∧
      decodeReply (rules key) reply =
        .ok (((redisEntry keyPrefix db key).inWindow (rules key) now).peek (rules key) now) ∧
      Leaves rules keyPrefix key used now db db' (redisEntry keyPrefix db key) := by
  obtain ⟨expireAt,o,hprune,hlasts,hget,hiff,hvalue⟩ := h.prelude expiry key hnow
  have hleaves := (leaves_pruned h key hlast hlasts).alike (inWindow_alike _ (rules key))
  have hslot := hlasts.slot (Function.update_self (windowKeyOf keyPrefix key) _ db)
  rw [redisEntry_inWindow]
  unfold peekScript MemoryEntry.peek
  rw [bind_ok hprune,bind_ok (zcard_eq hslot),bind_ok (zrangeLast_eq hslot),bind_ok (hget _)]
  simp only [← windowReset_eq,List.length_map,hiff,gt_iff_lt]
  have hreset := windowReset_nonneg (rules key) (liveMembers_recent (rules key).windowMillis now
    (db (windowKeyOf keyPrefix key)))
  generalize hes : liveMembers (rules key).windowMillis now (db (windowKeyOf keyPrefix key)) = es at *
  generalize hb : numberOf (db (blockKeyOf keyPrefix key)) = b at *
  by_cases hblocked : now < b
  · simp only [if_pos hblocked,hvalue hblocked]
    refine ⟨_,_,rfl,?_,hleaves⟩
    simp only [decodeReply,denied,resetOf]
    congr 2
    omega
  · simp only [if_neg hblocked]
    have hunblocked : resetOf (es.map Prod.fst) b (rules key) now = _ := MemoryEntry.resetOf_unblocked _ _ (not_lt.mp hblocked)
    by_cases hfull : (rules key).points ≤ es.length
    · simp only [ge_iff_le,Nat.cast_le,if_pos hfull]
      rw [bind_ok (zrangeFirst_eq hslot),← untilOldestLeaves_eq]
      refine ⟨_,_,rfl,?_,hleaves⟩
      simp only [decodeReply,denied,hunblocked]
      congr 2
      omega
    · simp only [ge_iff_le,Nat.cast_le,if_neg hfull]
      refine ⟨_,_,rfl,?_,hleaves⟩
      simp only [decodeReply,hunblocked]
      congr 2
      omega

theorem addHit_eq (h : RedisHolds keyPrefix rules used last db) (key : String) (hnow : 0 ≤ now) (hlast : last ≤ now)
    (hwindow : 0 < (rules key).windowMillis) {member : String} (hmember : member ∉ used) {expireAt : Option ℤ}
    (hlasts : Lasts expiry (rules key).windowMillis now
      (liveMembers (rules key).windowMillis now (db (windowKeyOf keyPrefix key))) expireAt) :
    ∃ db', (do zadd expiry now (windowKeyOf keyPrefix key) now member
               pexpire expiry now (windowKeyOf keyPrefix key) (rules key).windowMillis : RedisScript Unit)
        (Function.update db (windowKeyOf keyPrefix key)
          (slotOf (liveMembers (rules key).windowMillis now (db (windowKeyOf keyPrefix key))) expireAt)) = .ok ((),db') ∧
      ∃ window, db' = withSlots keyPrefix key window (db (blockKeyOf keyPrefix key)) db ∧
        HoldsHits (rules key).windowMillis now (member :: used) window ∧
        (membersOf window).map Prod.fst =
          (liveMembers (rules key).windowMillis now (db (windowKeyOf keyPrefix key))).map Prod.fst ++ [now] := by
  obtain ⟨hordered,hbounded⟩ := (h.hits key).live hlast
  have hslot := hlasts.slot (Function.update_self (windowKeyOf keyPrefix key) _ db)
  generalize liveMembers (rules key).windowMillis now (db (windowKeyOf keyPrefix key)) = es at *
  have hnew : (es.filter fun e => e.2 ≠ member) = es := by
    apply List.filter_eq_self.mpr
    intro e he
    apply decide_eq_true
    rintro rfl
    exact hmember (hbounded e he).2.2
  have hscores := insertMember_scores (e := (now,member)) hordered fun e he => (hbounded e he).2.1
  have hne : insertMember (now,member) es ≠ [] := List.ne_nil_of_mem (mem_insertMember.mpr (Or.inl rfl))
  obtain ⟨expireAt',hmembers,hlive⟩ := hlasts.members hslot
  have hadd : zadd expiry now (windowKeyOf keyPrefix key) now member
      (Function.update db (windowKeyOf keyPrefix key) (slotOf es expireAt)) =
        .ok ((),Function.update db (windowKeyOf keyPrefix key) (some ⟨.zset (insertMember (now,member) es),expireAt'⟩)) := by
    unfold zadd
    rw [bind_ok hmembers]
    simp only [store,hnew,if_neg hne,Function.update_idem]
  have hexpire : pexpire expiry now (windowKeyOf keyPrefix key) (rules key).windowMillis
      (Function.update db (windowKeyOf keyPrefix key) (some ⟨.zset (insertMember (now,member) es),expireAt'⟩)) =
        .ok ((),Function.update db (windowKeyOf keyPrefix key)
          (some ⟨.zset (insertMember (now,member) es),some (now + (rules key).windowMillis)⟩)) := by
    have hthere : RedisScript.slot expiry now (Function.update db (windowKeyOf keyPrefix key)
        (some ⟨.zset (insertMember (now,member) es),expireAt'⟩)) (windowKeyOf keyPrefix key) =
          some ⟨.zset (insertMember (now,member) es),expireAt'⟩ := by
      unfold RedisScript.slot
      rw [Function.update_self,Option.filter_some,if_pos]
      rw [hlive]
      rfl
    unfold pexpire
    simp only [hthere,if_neg (not_le.mpr hwindow),Function.update_idem]
  refine ⟨_,(bind_ok hadd).trans hexpire,_,(withSlots_eq key _).symm,?_,hscores⟩
  have hslotOf : (some ⟨.zset (insertMember (now,member) es),some (now + (rules key).windowMillis)⟩ : Option RedisSlot) =
      slotOf (insertMember (now,member) es) (some (now + (rules key).windowMillis)) := (if_neg hne).symm
  have hbounds : ∀ e ∈ insertMember (now,member) es, 0 ≤ e.1 ∧ e.1 ≤ now ∧ e.2 ∈ member :: used := by
    intro e he
    rcases mem_insertMember.mp he with rfl | he
    · exact ⟨hnow,le_rfl,List.mem_cons_self⟩
    · obtain ⟨hzero,hle,hused⟩ := hbounded e he
      exact ⟨hzero,hle,List.mem_cons_of_mem member hused⟩
  rw [hslotOf]
  apply holdsHits_slotOf _ _ hbounds
  · intro _
    refine ⟨_,rfl,?_⟩
    intro e he
    have hle := (hbounds e he).2.1
    omega
  · rw [← List.pairwise_map,hscores]
    refine List.pairwise_append.mpr ⟨List.pairwise_map.mpr hordered,List.pairwise_singleton _ _,?_⟩
    intro n hn m hm
    obtain ⟨e,he,rfl⟩ := List.mem_map.mp hn
    obtain rfl := List.mem_singleton.mp hm
    exact (hbounded e he).2.1

theorem setPx_eq {value millis : ℤ} (h : 0 < millis) {key : String} :
    setPx now key value millis db = .ok ((),Function.update db key (some ⟨.number value,some (now + millis)⟩)) :=
  if_neg (not_le.mpr h)

variable (expiry) in
theorem consumeScript_eq (h : RedisHolds keyPrefix rules used last db) (key : String) (hnow : 0 ≤ now) (hlast : last ≤ now)
    (hwindow : 0 < (rules key).windowMillis) {member : String} (hmember : member ∉ used) :
    ∃ reply db', consumeScript expiry now (windowKeyOf keyPrefix key) (blockKeyOf keyPrefix key) (rules key).points
        (rules key).windowMillis (rules key).blockMillis member db = .ok (reply,db') ∧
      decodeReply (rules key) reply =
        .ok (((redisEntry keyPrefix db key).inWindow (rules key) now).consume (rules key) now).1 ∧
      Leaves rules keyPrefix key (member :: used) now db db'
        (((redisEntry keyPrefix db key).inWindow (rules key) now).consume (rules key) now).2 := by
  obtain ⟨expireAt,o,hprune,hlasts,hget,hiff,hvalue⟩ := h.prelude expiry key hnow
  have hleaves := (leaves_pruned h key hlast hlasts).more member
  obtain ⟨dbHit,hadd,window,hdb,hhits,hscores⟩ := addHit_eq h key hnow hlast hwindow hmember hlasts
  have hslot := hlasts.slot (Function.update_self (windowKeyOf keyPrefix key) _ db)
  rw [redisEntry_inWindow] at hleaves ⊢
  unfold consumeScript MemoryEntry.consume
  rw [bind_ok hprune,bind_ok (zcard_eq hslot),bind_ok (zrangeLast_eq hslot),bind_ok (hget _)]
  simp only [← windowReset_eq,List.length_map,hiff,gt_iff_lt]
  have hreset := windowReset_nonneg (rules key) (liveMembers_recent (rules key).windowMillis now
    (db (windowKeyOf keyPrefix key)))
  generalize hes : liveMembers (rules key).windowMillis now (db (windowKeyOf keyPrefix key)) = es at *
  generalize hb : numberOf (db (blockKeyOf keyPrefix key)) = b at *
  by_cases hblocked : now < b
  · simp only [if_pos hblocked,hvalue hblocked]
    refine ⟨_,_,rfl,?_,hleaves⟩
    simp only [decodeReply,denied,resetOf]
    congr 2
    omega
  · simp only [if_neg hblocked]
    by_cases hfull : (rules key).points ≤ es.length
    · simp only [ge_iff_le,Nat.cast_le,if_pos hfull]
      rw [bind_ok (zrangeFirst_eq hslot),← untilOldestLeaves_eq]
      by_cases hblock : 0 < (rules key).blockMillis
      · simp only [if_pos hblock]
        rw [bind_ok (setPx_eq hblock)]
        refine ⟨_,_,rfl,?_,⟨slotOf es expireAt,_,rfl,?_,?_,?_⟩⟩
        · simp only [decodeReply,denied,resetOf]
          congr 2
          omega
        · obtain ⟨hordered,hbounded⟩ := (h.hits key).live hlast
          rw [hes] at hordered hbounded
          apply holdsHits_slotOf _ hordered
          · intro e he
            obtain ⟨hzero,hle,hused⟩ := hbounded e he
            exact ⟨hzero,hle,List.mem_cons_of_mem member hused⟩
          · intro hne
            obtain ⟨deadline,hexpire,-,hdeadline⟩ := hlasts hne
            exact ⟨deadline,hexpire,hdeadline⟩
        · intro s hs
          obtain rfl := Option.some.inj hs
          rfl
        · rw [membersOf_slotOf]
          exact MemoryEntry.Alike.refl _ _ _
      · simp only [if_neg hblock]
        refine ⟨_,_,rfl,?_,hleaves.alike ⟨rfl,Or.inr ⟨not_lt.mp hblocked,?_⟩⟩⟩
        · simp only [decodeReply,denied,resetOf]
          congr 2
          omega
        · change now + (rules key).blockMillis ≤ now
          omega
    · simp only [ge_iff_le,Nat.cast_le,if_neg hfull]
      rw [← bind_assoc,bind_ok hadd]
      refine ⟨_,_,rfl,?_,⟨window,_,hdb,hhits,h.blocks key,?_⟩⟩
      · simp only [decodeReply]
        congr 2
        omega
      · rw [hscores,hb]
        exact ⟨rfl,Or.inr ⟨not_lt.mp hblocked,hnow⟩⟩

/-- Redis keeps the limiters of its keys. -/
structure RedisFollows (keyPrefix : Option String) (rules : String → RateLimitRule ℤ) (used : List String) (last : ℤ)
    (db : Keyspace) (limiters : String → MemoryEntry ℤ) : Prop extends RedisHolds keyPrefix rules used last db where
  alike : ∀ k, MemoryEntry.Alike (rules k).windowMillis last (redisEntry keyPrefix db k) (limiters k)

theorem redisFollows_empty (last : ℤ) : RedisFollows keyPrefix rules [] last (fun _ => none) (keyLimiters rules).init := by
  refine ⟨⟨?_,?_⟩,?_⟩
  · exact fun k => ⟨fun _ hs => (Option.not_mem_none _ hs).elim,List.Pairwise.nil,fun _ he => (List.not_mem_nil he).elim⟩
  · exact fun k _ hs => (Option.not_mem_none _ hs).elim
  · exact fun k => MemoryEntry.Alike.refl _ _ _

theorem RedisFollows.leaves (h : RedisFollows keyPrefix rules used last db limiters) {key : String} {used' : List String}
    (hused : used ⊆ used') (hlast : last ≤ now) {db' : Keyspace} {entry entry' : MemoryEntry ℤ}
    (hleaves : Leaves rules keyPrefix key used' now db db' entry)
    (halike : MemoryEntry.Alike (rules key).windowMillis now entry entry') :
    RedisFollows keyPrefix rules used' now db' (Function.update limiters key entry') := by
  obtain ⟨window,block,rfl,hhits,hblock,hsame⟩ := hleaves.slots
  refine ⟨⟨?_,?_⟩,?_⟩
  · intro k
    rw [withSlots_window]
    split
    · rename_i hk
      rw [hk]
      exact hhits
    · exact (h.hits k).later hlast hused
  · intro k
    rw [withSlots_block]
    split
    · exact hblock
    · exact h.blocks k
  · intro k
    unfold redisEntry
    rw [withSlots_window,withSlots_block]
    by_cases hk : k = key
    · subst hk
      rw [if_pos rfl,if_pos rfl,Function.update_self]
      exact hsame.trans halike
    · rw [if_neg hk,if_neg hk,Function.update_of_ne hk]
      exact (h.alike k).later hlast

/-- The members that the calls use for their hits. -/
def hitMembers (calls : List (RateLimitCall ℤ)) : List String :=
  (calls.filter fun call => call.operation = .consume).map RateLimitCall.member

variable (expiry) in
theorem RedisFollows.step (h : RedisFollows keyPrefix rules used last db limiters) (hnow : 0 ≤ call.now)
    (hlast : last ≤ call.now)
    (hwindow : 0 < (rules call.key).windowMillis) (hmember : ∀ member ∈ hitMembers [call], member ∉ used) :
    RedisFollows keyPrefix rules (hitMembers [call] ++ used) call.now (redisPerform keyPrefix expiry rules db call).1
        ((keyLimiters rules).apply limiters call).1 ∧
      (redisPerform keyPrefix expiry rules db call).2 = .ok ((keyLimiters rules).apply limiters call).2 := by
  obtain ⟨hanswer,halike⟩ := ((h.alike call.key).later hlast).perform call
  have hlimiters : ((keyLimiters rules).apply limiters call).1 =
      Function.update limiters call.key ((limiters call.key).perform (rules call.key) call).1 := rfl
  have hdecision : ((keyLimiters rules).apply limiters call).2 =
      ((limiters call.key).perform (rules call.key) call).2 := rfl
  rw [hlimiters,hdecision,← hanswer]
  unfold redisPerform redisScript
  cases hop : call.operation with
  | consume =>
    have hhit : hitMembers [call] = [call.member] := by simp [hitMembers,hop]
    have hnew : call.member ∉ used := hmember call.member (by simp [hhit])
    obtain ⟨reply,db',hscript,hreply,hleaves⟩ := consumeScript_eq expiry h.toRedisHolds call.key hnow hlast hwindow hnew
    have hperform : (redisEntry keyPrefix db call.key).perform (rules call.key) call = _ := MemoryEntry.perform_of_consume hop
    rw [hperform] at halike ⊢
    simp only [hscript,hhit]
    exact ⟨h.leaves (List.subset_cons_self _ _) hlast hleaves halike,hreply⟩
  | peek =>
    have hhit : hitMembers [call] = [] := by simp [hitMembers,hop]
    obtain ⟨reply,db',hscript,hreply,hleaves⟩ := peekScript_eq expiry h.toRedisHolds call.key hnow hlast
    have hperform : (redisEntry keyPrefix db call.key).perform (rules call.key) call = _ := MemoryEntry.perform_of_peek hop
    rw [hperform] at halike ⊢
    simp only [hscript,hhit]
    exact ⟨h.leaves (List.Subset.refl _) hlast hleaves halike,hreply⟩

theorem RedisFollows.outputsFrom {calls : List (RateLimitCall ℤ)} (h : RedisFollows keyPrefix rules used last db limiters)
    (hwindow : ∀ key, 0 < (rules key).windowMillis) (hclock : Clocked calls) (hcalls : ∀ call ∈ calls, 0 ≤ call.now ∧
      last ≤ call.now)
    (hdistinct : (hitMembers calls).Nodup) (hnew : ∀ member ∈ hitMembers calls, member ∉ used) :
    (redisLimiter keyPrefix expiry rules).outputsFrom db calls = ((keyLimiters rules).outputsFrom limiters calls).map .ok := by
  induction calls generalizing db limiters used last with
  | nil => rfl
  | cons call calls ih =>
    obtain ⟨hnow,hlast⟩ := hcalls call List.mem_cons_self
    obtain ⟨hlater,hrest⟩ := List.pairwise_cons.mp hclock
    have hsplit : hitMembers (call :: calls) = hitMembers [call] ++ hitMembers calls := by
      rw [hitMembers,← List.singleton_append,List.filter_append,List.map_append]
      rfl
    rw [hsplit] at hdistinct hnew
    obtain ⟨-,hrestDistinct,hapart⟩ := List.nodup_append.mp hdistinct
    obtain ⟨hfollows,hanswer⟩ := h.step expiry hnow hlast (hwindow call.key)
      fun member hm => hnew member (List.mem_append_left _ hm)
    have htail := ih hfollows hrest (fun c hc => ⟨(hcalls c (List.mem_cons_of_mem call hc)).1,hlater c hc⟩) hrestDistinct
      (by
        intro member hm hused
        rcases List.mem_append.mp hused with hfirst | hused
        · exact hapart member hfirst member hm rfl
        · exact hnew member (List.mem_append_right _ hm) hused)
    exact congrArg₂ List.cons hanswer htail

/-- The in-memory rate limiter answers like the Redis one. -/
theorem limiters_agree (expiry : Expiry) (keyPrefix : Option String) (options : MemoryOptions ℤ)
    (rules : String → RateLimitRule ℤ)
    (hwindow : ∀ key, 0 < (rules key).windowMillis) (calls : List (RateLimitCall ℤ)) (hclock : Clocked calls)
    (hstart : ∀ call ∈ calls, 0 ≤ call.now) (hfit : (calledKeys calls).card ≤ options.keyCap)
    (hmembers : (hitMembers calls).Nodup) :
    (redisLimiter keyPrefix expiry rules).outputs calls = ((memoryLimiter options rules).outputs calls).map .ok := by
  rw [memory_outputs hclock hfit]
  cases calls with
  | nil => rfl
  | cons call calls =>
    apply (redisFollows_empty call.now).outputsFrom hwindow hclock _ hmembers (fun _ _ hin => (List.not_mem_nil hin).elim)
    intro c hc
    refine ⟨hstart c hc,?_⟩
    rcases List.mem_cons.mp hc with rfl | hc
    · exact le_rfl
    · exact (List.pairwise_cons.mp hclock).1 c hc

/-- The key is there at its deadline, and gone right after it. -/
def plainExpiry : Expiry where
  gone deadline now := deadline < now
  live _ _ h := decide_eq_false (not_lt.mpr h.le)
  past _ _ h := decide_eq_true h

/-- Of a key that takes its point, is refused and blocked, and comes back at the end of its window. -/
theorem limiters_agree_blocked : ∃ calls : List (RateLimitCall ℤ),
    ((memoryLimiter ⟨none,none⟩ fun _ => ⟨1,10,5⟩).outputs calls).map RateLimitDecision.allowed = [true,false,true] ∧
      (redisLimiter none plainExpiry fun _ => ⟨1,10,5⟩).outputs calls =
        ((memoryLimiter ⟨none,none⟩ fun _ => ⟨1,10,5⟩).outputs calls).map .ok := by
  refine ⟨[⟨.consume,"k",0,"a"⟩,⟨.consume,"k",5,"b"⟩,⟨.consume,"k",10,"c"⟩],by decide,?_⟩
  exact limiters_agree plainExpiry none ⟨none,none⟩ (fun _ => ⟨1,10,5⟩) (fun _ => by decide) _ (by unfold Clocked; decide)
    (by decide) (by decide) (by decide)

end Simulation
end StructureAi.Http

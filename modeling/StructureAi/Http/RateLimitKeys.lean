import StructureAi.Http.RateLimit

/-! # One limiter for each key

What a store owes its callers: a limiter for each key that nothing else touches. A store answers
like it when the entry it reads for each key is alike the limiter's, from the last call on.
-/
namespace StructureAi.Http
open StructureAi.Foundation
variable {T : Type} [CommRing T] [LinearOrder T]

namespace MemoryEntry

/-- What a call of the key does to its limiter. -/
def perform (rule : RateLimitRule T) (entry : MemoryEntry T) (call : RateLimitCall T) : MemoryEntry T × RateLimitDecision T :=
  let pruned := entry.inWindow rule call.now
  match call.operation with
  | .consume => ((pruned.consume rule call.now).2,(pruned.consume rule call.now).1)
  | .peek => (entry,pruned.peek rule call.now)

theorem perform_of_consume {rule : RateLimitRule T} {entry : MemoryEntry T} {call : RateLimitCall T}
    (h : call.operation = .consume) :
    entry.perform rule call = ((((entry.inWindow rule call.now).consume rule call.now).2),
      ((entry.inWindow rule call.now).consume rule call.now).1) := by
  unfold MemoryEntry.perform
  rw [h]

theorem perform_of_peek {rule : RateLimitRule T} {entry : MemoryEntry T} {call : RateLimitCall T} (h : call.operation = .peek) :
    entry.perform rule call = (entry,(entry.inWindow rule call.now).peek rule call.now) := by
  unfold MemoryEntry.perform
  rw [h]

/-- No later call can tell the entries apart. -/
structure Alike (window last : T) (e e' : MemoryEntry T) : Prop where
  hits : recent window last e.hits = recent window last e'.hits
  blocked : e.blockedUntil = e'.blockedUntil ∨ e.blockedUntil ≤ last ∧ e'.blockedUntil ≤ last

variable {window last now : T} {e e' e'' : MemoryEntry T} {rule : RateLimitRule T}

theorem Alike.refl (window last : T) (e : MemoryEntry T) : Alike window last e e := ⟨rfl,Or.inl rfl⟩

theorem Alike.trans (h : Alike window last e e') (h' : Alike window last e' e'') : Alike window last e e'' := by
  refine ⟨h.hits.trans h'.hits,?_⟩
  rcases h.blocked with heq | ⟨hle,hle'⟩
  · rw [heq]
    exact h'.blocked
  · rcases h'.blocked with heq | ⟨-,hle''⟩
    · exact Or.inr ⟨hle,heq ▸ hle'⟩
    · exact Or.inr ⟨hle,hle''⟩

theorem resetOf_unblocked (rule : RateLimitRule T) (hits : List T) {blockedUntil timestamp : T} (h : blockedUntil ≤ timestamp)
    [IsOrderedAddMonoid T] :
    resetOf hits blockedUntil rule timestamp = max 0 (windowReset hits rule timestamp) := by
  apply max_eq_left
  exact (sub_nonpos.mpr h).trans (le_max_left _ _)

variable [IsOrderedAddMonoid T]

theorem Alike.later (h : Alike window last e e') (hnow : last ≤ now) : Alike window now e e' := by
  refine ⟨recent_of_recent_eq hnow h.hits,?_⟩
  rcases h.blocked with heq | ⟨hle,hle'⟩
  · exact Or.inl heq
  · exact Or.inr ⟨hle.trans hnow,hle'.trans hnow⟩

theorem Alike.perform (call : RateLimitCall T) (h : Alike rule.windowMillis call.now e e') :
    (e.perform rule call).2 = (e'.perform rule call).2 ∧
      Alike rule.windowMillis call.now (e.perform rule call).1 (e'.perform rule call).1 := by
  obtain ⟨hits,blockedUntil⟩ := e
  obtain ⟨hits',blockedUntil'⟩ := e'
  obtain ⟨hhits,hblocked⟩ := h
  simp only at hhits hblocked
  rcases hblocked with rfl | ⟨hle,hle'⟩
  · unfold MemoryEntry.perform inWindow
    simp only [hhits]
    cases call.operation with
    | consume => exact ⟨rfl,Alike.refl _ _ _⟩
    | peek => exact ⟨rfl,hhits,Or.inl rfl⟩
  · have hreset := resetOf_unblocked rule (recent rule.windowMillis call.now hits') hle
    have hreset' := resetOf_unblocked rule (recent rule.windowMillis call.now hits') hle'
    unfold MemoryEntry.perform inWindow
    simp only [hhits]
    cases call.operation with
    | consume =>
      simp only [MemoryEntry.consume,if_neg (not_lt.mpr hle),if_neg (not_lt.mpr hle'),gt_iff_lt]
      split <;> exact ⟨trivial,Alike.refl _ _ _⟩
    | peek =>
      simp only [MemoryEntry.peek,if_neg (not_lt.mpr hle),if_neg (not_lt.mpr hle'),gt_iff_lt,hreset,hreset']
      exact ⟨trivial,hhits,Or.inr ⟨hle,hle'⟩⟩

omit [IsOrderedAddMonoid T] in
theorem consume_blockedUntil (h : 0 ≤ e.blockedUntil ∨ 0 ≤ now) : 0 ≤ (e.consume rule now).2.blockedUntil ∨ 0 ≤ now := by
  obtain ⟨hits,blockedUntil⟩ := e
  simp only [MemoryEntry.consume]
  by_cases hblocked : blockedUntil > now
  · rw [if_pos hblocked]
    exact h
  · rw [if_neg hblocked]
    split
    · exact Or.inr (h.elim (fun h => h.trans (not_lt.mp hblocked)) id)
    · exact Or.inl le_rfl

end MemoryEntry

def keyLimiters (rules : String → RateLimitRule T) : Machine (String → MemoryEntry T) (RateLimitCall T)
    (RateLimitDecision T) where
  init := fun _ => .fresh
  apply limiters call :=
    let answered := (limiters call.key).perform (rules call.key) call
    (Function.update limiters call.key answered.1,answered.2)

namespace MemoryStore
variable {options : MemoryOptions T} {rules : String → RateLimitRule T} {s : MemoryStore T} {keys : Finset String} {last now : T}
  {key : String} {entry : MemoryEntry T}

/-- The bookkeeping of the map, for the keys that were consumed. -/
structure Ordered (rules : String → RateLimitRule T) (keys : Finset String) (last : T) (s : MemoryStore T) : Prop where
  distinct : (s.entries.map Prod.fst).Nodup
  consumed : ∀ e ∈ s.entries, e.1 ∈ keys
  longest : ∀ e ∈ s.entries, (rules e.1).windowMillis ≤ s.longestWindow
  started : ∀ e ∈ s.entries, 0 ≤ e.2.blockedUntil ∨ 0 ≤ last

theorem Ordered.entryOf_started (h : s.Ordered rules keys last) (key : String) : 0 ≤ (s.entryOf key).blockedUntil ∨
    0 ≤ last := by
  unfold entryOf
  cases hlookup : s.entries.lookup key with
  | none => exact Or.inl le_rfl
  | some entry => exact h.started _ (mem_of_lookup hlookup)

theorem Ordered.later (h : s.Ordered rules keys last) (hnow : last ≤ now) : s.Ordered rules keys now :=
  ⟨h.distinct,h.consumed,h.longest,fun e he => (h.started e he).imp id fun hlast => hlast.trans hnow⟩

theorem ordered_new : (newStore : MemoryStore T).Ordered rules keys last :=
  ⟨List.nodup_nil,fun _ h => (List.not_mem_nil h).elim,fun _ h => (List.not_mem_nil h).elim,fun _ h => (List.not_mem_nil h).elim⟩

theorem Ordered.length_others (h : s.Ordered rules keys last) (hkey : key ∈ keys)
    (hothers : (s.entries.filter fun e => e.1 ≠ key).length = s.entries.length) : s.entries.length < keys.card := by
  have hsame : (s.entries.filter fun e => e.1 ≠ key) = s.entries := List.filter_sublist.eq_of_length hothers
  have hmissing : key ∉ (s.entries.map Prod.fst).toFinset := by
    rw [List.mem_toFinset,List.mem_map]
    rintro ⟨e,he,rfl⟩
    rw [← hsame,List.mem_filter] at he
    exact absurd rfl (of_decide_eq_true he.2)
  have hsub : (s.entries.map Prod.fst).toFinset ⊂ keys := by
    refine Finset.ssubset_iff_subset_ne.mpr ⟨?_,?_⟩
    · intro k hk
      obtain ⟨e,he,rfl⟩ := List.mem_map.mp (List.mem_toFinset.mp hk)
      exact h.consumed e he
    · rintro rfl
      exact hmissing hkey
  have hcard := Finset.card_lt_card hsub
  rwa [List.toFinset_card_of_nodup h.distinct,List.length_map] at hcard

theorem Ordered.remember (h : s.Ordered rules keys last) (entry : MemoryEntry T) (hkey : key ∈ keys)
    (hcap : keys.card ≤ options.keyCap) :
    (s.remember options key entry).entries = (s.entries.filter fun e => e.1 ≠ key) ++ [(key,entry)] := by
  unfold MemoryStore.remember
  simp only [List.append_cancel_right_eq]
  apply if_neg
  rintro ⟨hothers,hfull⟩
  have hlength := h.length_others hkey hothers
  omega

omit [CommRing T] [LinearOrder T] in
theorem lookup_filter_key {es : List (String × MemoryEntry T)} {p : String × MemoryEntry T → Bool}
    (hn : (es.map Prod.fst).Nodup) : (es.filter p).lookup key = (es.lookup key).filter fun entry => p (key,entry) := by
  have hsub : ((es.filter p).map Prod.fst).Nodup := hn.sublist (List.filter_sublist.map Prod.fst)
  ext entry
  rw [lookup_eq_some_iff hsub,List.mem_filter,Option.filter_eq_some_iff,lookup_eq_some_iff hn]

variable [IsOrderedAddMonoid T]

theorem Ordered.alike_sweep (h : s.Ordered rules keys last) (hnow : last ≤ now) (key : String) :
    MemoryEntry.Alike (rules key).windowMillis now ((s.sweep now).entryOf key) (s.entryOf key) := by
  unfold entryOf MemoryStore.sweep
  rw [lookup_filter_key h.distinct]
  cases hlookup : s.entries.lookup key with
  | none => exact MemoryEntry.Alike.refl _ _ _
  | some entry =>
    by_cases hstale : isStale now (now - s.longestWindow) entry = true
    · have hin := (lookup_eq_some_iff h.distinct).mp hlookup
      unfold isStale at hstale
      rw [Bool.and_eq_true,decide_eq_true_eq,List.all_eq_true] at hstale
      obtain ⟨hover,hold⟩ := hstale
      have hzero : (0 : T) ≤ now := (h.started _ hin).elim (fun h => h.trans hover) (fun h => h.trans hnow)
      have hnone : recent (rules key).windowMillis now entry.hits = [] := by
        apply recent_eq_nil
        intro hit hhit
        exact (of_decide_eq_true (hold hit hhit)).trans (sub_le_sub_left (h.longest _ hin) now)
      simp only [Option.filter_some,isStale,hover,decide_true,Bool.true_and,List.all_eq_true.mpr hold,not_true_eq_false,
        decide_false]
      exact ⟨hnone.symm,Or.inr ⟨hzero,hover⟩⟩
    · simp only [Option.filter_some,hstale,Bool.false_eq_true,not_false_eq_true,decide_true,if_true]
      exact MemoryEntry.Alike.refl _ _ _

omit [IsOrderedAddMonoid T] in
theorem Ordered.swept (h : s.Ordered rules keys last) (hnow : last ≤ now) :
    (s.swept options (rules key) now).Ordered rules keys now ∧
      (rules key).windowMillis ≤ (s.swept options (rules key) now).longestWindow := by
  have hmeasured : Ordered rules keys now {s with longestWindow := max s.longestWindow (rules key).windowMillis} := by
    refine ⟨h.distinct,h.consumed,?_,?_⟩
    · intro e he
      exact (h.longest e he).trans (le_max_left _ _)
    · intro e he
      exact (h.started e he).imp id fun hlast => hlast.trans hnow
  unfold MemoryStore.swept
  simp only
  split
  · refine ⟨⟨?_,?_,?_,?_⟩,le_max_right _ _⟩
    · exact hmeasured.distinct.sublist (List.filter_sublist.map Prod.fst)
    · intro e he
      exact hmeasured.consumed e (List.mem_of_mem_filter he)
    · intro e he
      exact hmeasured.longest e (List.mem_of_mem_filter he)
    · intro e he
      exact hmeasured.started e (List.mem_of_mem_filter he)
  · exact ⟨hmeasured,le_max_right _ _⟩

theorem Ordered.alike_swept (h : s.Ordered rules keys last) (hnow : last ≤ now) (options : MemoryOptions T) (key k : String) :
    MemoryEntry.Alike (rules k).windowMillis now ((s.swept options (rules key) now).entryOf k) (s.entryOf k) := by
  unfold MemoryStore.swept
  simp only
  split
  · have hmeasured : Ordered rules keys last {s with longestWindow := max s.longestWindow (rules key).windowMillis} :=
      ⟨h.distinct,h.consumed,fun e he => (h.longest e he).trans (le_max_left _ _),h.started⟩
    exact hmeasured.alike_sweep hnow k
  · exact MemoryEntry.Alike.refl _ _ _

omit [IsOrderedAddMonoid T] in
/-- The map after a consume: its key last, the entries of other keys as the sweep left them. -/
theorem Ordered.consume (h : s.Ordered rules keys last) (hkey : key ∈ keys) (hcap : keys.card ≤ options.keyCap)
    (hnow : last ≤ now) : (s.consume options key (rules key) now).1.Ordered rules keys now ∧
      ∀ k, (s.consume options key (rules key) now).1.entryOf k = if k = key then
        (((s.swept options (rules key) now).windowOf key (rules key) now).consume (rules key) now).2
          else (s.swept options (rules key) now).entryOf k := by
  obtain ⟨hswept,hlongest⟩ := h.swept hnow
  unfold MemoryStore.consume
  generalize s.swept options (rules key) now = swept at hswept hlongest
  have hentries := hswept.remember ((swept.windowOf key (rules key) now).consume (rules key) now).2 hkey hcap
  have hfresh : key ∉ (swept.entries.filter fun e => e.1 ≠ key).map Prod.fst := by
    rw [List.mem_map]
    rintro ⟨e,he,rfl⟩
    exact absurd rfl (of_decide_eq_true (List.mem_filter.mp he).2)
  constructor
  · constructor
    · simp only
      rw [hentries,List.map_append]
      apply List.Nodup.append (hswept.distinct.sublist (List.filter_sublist.map Prod.fst)) (List.nodup_singleton _)
      intro k hk hk'
      obtain rfl := List.mem_singleton.mp hk'
      exact hfresh hk
    · intro e he
      simp only at he
      rw [hentries,List.mem_append,List.mem_singleton] at he
      rcases he with he | rfl
      · exact hswept.consumed e (List.mem_of_mem_filter he)
      · exact hkey
    · intro e he
      simp only at he
      rw [hentries,List.mem_append,List.mem_singleton] at he
      rcases he with he | rfl
      · exact hswept.longest e (List.mem_of_mem_filter he)
      · exact hlongest
    · intro e he
      simp only at he
      rw [hentries,List.mem_append,List.mem_singleton] at he
      rcases he with he | rfl
      · exact hswept.started e (List.mem_of_mem_filter he)
      · apply MemoryEntry.consume_blockedUntil
        exact hswept.entryOf_started key
  · intro k
    simp only [entryOf]
    rw [hentries,List.lookup_append]
    by_cases hk : k = key
    · subst hk
      rw [lookup_eq_none.mpr hfresh,if_pos rfl,lookup_cons,if_pos rfl]
      rfl
    · rw [if_neg hk,lookup_cons,if_neg hk,lookup_filter_key hswept.distinct]
      cases swept.entries.lookup k with
      | none => rfl
      | some entry => simp [Option.filter,hk]

/-- The map keeps the limiters of its keys, and the sweep and the order of its entries never show. -/
structure Follows (rules : String → RateLimitRule T) (keys : Finset String) (last : T) (s : MemoryStore T)
    (limiters : String → MemoryEntry T) : Prop extends s.Ordered rules keys last where
  alike : ∀ k, MemoryEntry.Alike (rules k).windowMillis last (s.entryOf k) (limiters k)

theorem Follows.step {limiters : String → MemoryEntry T} (h : s.Follows rules keys last limiters) (call : RateLimitCall T)
    (hkey : call.key ∈ keys) (hcap : keys.card ≤ options.keyCap) (hnow : last ≤ call.now) :
    (s.perform options rules call).1.Follows rules keys call.now ((keyLimiters rules).apply limiters call).1 ∧
      (s.perform options rules call).2 = ((keyLimiters rules).apply limiters call).2 := by
  unfold MemoryStore.perform keyLimiters
  cases hop : call.operation with
  | consume =>
    obtain ⟨hordered,hentries⟩ := h.toOrdered.consume hkey hcap hnow
    have hread := (h.toOrdered.alike_swept hnow options call.key call.key).trans
      ((h.alike call.key).later hnow)
    obtain ⟨hanswer,halike⟩ := hread.perform call
    unfold MemoryEntry.perform at hanswer halike
    simp only [hop] at hanswer halike
    refine ⟨⟨hordered,?_⟩,?_⟩
    · intro k
      rw [hentries k]
      by_cases hk : k = call.key
      · subst hk
        simp only [MemoryEntry.perform,hop,Function.update_self,if_pos]
        exact halike
      · simp only [if_neg hk,Function.update_of_ne hk]
        exact (h.toOrdered.alike_swept hnow options call.key k).trans ((h.alike k).later hnow)
    · simp only [MemoryEntry.perform,hop]
      exact hanswer
  | peek =>
    have hread := (h.alike call.key).later hnow
    obtain ⟨hanswer,-⟩ := hread.perform call
    unfold MemoryEntry.perform at hanswer
    simp only [hop] at hanswer
    refine ⟨⟨h.toOrdered.later hnow,?_⟩,?_⟩
    · intro k
      simp only [MemoryEntry.perform,hop,Function.update_eq_self]
      exact (h.alike k).later hnow
    · simp only [MemoryEntry.perform,hop]
      exact hanswer

omit [IsOrderedAddMonoid T] in
theorem follows_new (keys : Finset String) (last : T) :
    (newStore : MemoryStore T).Follows rules keys last (keyLimiters rules).init :=
  ⟨ordered_new,fun _ => MemoryEntry.Alike.refl _ _ _⟩

end MemoryStore

def Clocked (calls : List (RateLimitCall T)) : Prop := calls.Pairwise fun earlier later => earlier.now ≤ later.now

def calledKeys (calls : List (RateLimitCall T)) : Finset String := (calls.map RateLimitCall.key).toFinset

section Runs
variable [IsOrderedAddMonoid T] {options : MemoryOptions T} {rules : String → RateLimitRule T} {calls : List (RateLimitCall T)}

theorem MemoryStore.Follows.outputsFrom {s : MemoryStore T} {limiters : String → MemoryEntry T} {keys : Finset String} {last : T}
    (h : s.Follows rules keys last limiters) (hcap : keys.card ≤ options.keyCap) (hclock : Clocked calls)
    (hcalls : ∀ call ∈ calls, call.key ∈ keys ∧ last ≤ call.now) :
    (memoryLimiter options rules).outputsFrom s calls = (keyLimiters rules).outputsFrom limiters calls := by
  induction calls generalizing s limiters last with
  | nil => rfl
  | cons call calls ih =>
    obtain ⟨hkey,hnow⟩ := hcalls call List.mem_cons_self
    obtain ⟨hlater,hrest⟩ := List.pairwise_cons.mp hclock
    obtain ⟨hfollows,hanswer⟩ := h.step call hkey hcap hnow
    have htail := ih hfollows hrest fun c hc => ⟨(hcalls c (List.mem_cons_of_mem call hc)).1,hlater c hc⟩
    exact congrArg₂ List.cons hanswer htail

theorem MemoryStore.Follows.afterFrom {s : MemoryStore T} {limiters : String → MemoryEntry T} {keys : Finset String}
    {last now : T}
    (h : s.Follows rules keys last limiters) (hcap : keys.card ≤ options.keyCap) (hclock : Clocked calls)
    (hcalls : ∀ call ∈ calls, call.key ∈ keys ∧ last ≤ call.now ∧ call.now ≤ now) (hnow : last ≤ now) :
    ((memoryLimiter options rules).afterFrom s calls).Follows rules keys now ((keyLimiters rules).afterFrom limiters calls) := by
  induction calls generalizing s limiters last with
  | nil => exact ⟨h.toOrdered.later hnow,fun k => (h.alike k).later hnow⟩
  | cons call calls ih =>
    obtain ⟨hkey,hlast,hle⟩ := hcalls call List.mem_cons_self
    obtain ⟨hlater,hrest⟩ := List.pairwise_cons.mp hclock
    obtain ⟨hfollows,-⟩ := h.step call hkey hcap hlast
    apply ih hfollows hrest _ hle
    intro c hc
    obtain ⟨hkey',-,hle'⟩ := hcalls c (List.mem_cons_of_mem call hc)
    exact ⟨hkey',hlater c hc,hle'⟩

theorem memory_outputs (hclock : Clocked calls) (hkeys : (calledKeys calls).card ≤ options.keyCap) :
    (memoryLimiter options rules).outputs calls = (keyLimiters rules).outputs calls := by
  cases calls with
  | nil => rfl
  | cons call calls =>
    apply (MemoryStore.follows_new (calledKeys (call :: calls)) call.now).outputsFrom hkeys hclock
    intro c hc
    refine ⟨List.mem_toFinset.mpr (List.mem_map_of_mem hc),?_⟩
    rcases List.mem_cons.mp hc with rfl | hc
    · exact le_rfl
    · exact (List.pairwise_cons.mp hclock).1 c hc

end Runs
end StructureAi.Http

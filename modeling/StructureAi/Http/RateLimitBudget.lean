import StructureAi.Foundation.Binary64
import StructureAi.Http.RateLimitKeys

/-! # The budget of a key

Whatever else is called, a key is allowed no more hits in a window than its points, is refused
while its block runs, and is told when to come back.
-/
namespace StructureAi.Http
open StructureAi.Foundation
variable {T : Type} [CommRing T] [LinearOrder T]

/-- Of the calls that went before, those that a call of the key can notice. -/
def consumesOf (key : String) (calls : List (RateLimitCall T)) : List (RateLimitCall T) :=
  calls.filter fun call => call.operation = .consume ∧ call.key = key

/-- The time of a consume of the key, if it was allowed. -/
def allowedTime (key : String) (answered : RateLimitCall T × RateLimitDecision T) : Option T :=
  if answered.1.operation = .consume ∧ answered.1.key = key ∧ answered.2.allowed = true then some answered.1.now else none

def allowedTimes (key : String) (trace : List (RateLimitCall T × RateLimitDecision T)) : List T :=
  trace.filterMap (allowedTime key)

/-- The consume finds the window full while no block runs, and installs one. -/
def installsBlock (options : MemoryOptions T) (rules : String → RateLimitRule T) (before : List (RateLimitCall T))
    (call : RateLimitCall T) : Prop :=
  call.operation = .consume ∧ ((memoryLimiter options rules).answer before call).allowed = false ∧
    (((memoryLimiter options rules).after before).entryOf call.key).blockedUntil ≤ call.now

section Limiters
variable {rules : String → RateLimitRule T} {calls : List (RateLimitCall T)} {rule : RateLimitRule T} {entry : MemoryEntry T}
  {now : T} {limiters : String → MemoryEntry T} {key : String}

theorem consume_allowed_iff : (entry.consume rule now).1.allowed = true ↔
    entry.blockedUntil ≤ now ∧ entry.hits.length < rule.points := by
  obtain ⟨hits,blockedUntil⟩ := entry
  simp only [MemoryEntry.consume]
  by_cases hblocked : blockedUntil > now
  · rw [if_pos hblocked]
    simp [denied,hblocked]
  · rw [if_neg hblocked]
    by_cases hfull : hits.length ≥ rule.points
    · rw [if_pos hfull]
      simp [denied,hfull]
    · rw [if_neg hfull]
      simpa using ⟨not_lt.mp hblocked,not_le.mp hfull⟩

theorem peek_allowed_iff : (entry.peek rule now).allowed = true ↔
    entry.blockedUntil ≤ now ∧ entry.hits.length < rule.points := by
  obtain ⟨hits,blockedUntil⟩ := entry
  simp only [MemoryEntry.peek]
  by_cases hblocked : blockedUntil > now
  · rw [if_pos hblocked]
    simp [denied,hblocked]
  · rw [if_neg hblocked]
    by_cases hfull : hits.length ≥ rule.points
    · rw [if_pos hfull]
      simp [denied,hfull]
    · rw [if_neg hfull]
      simpa using ⟨not_lt.mp hblocked,not_le.mp hfull⟩

theorem consume_allowed (h : (entry.consume rule now).1.allowed = true) :
    (entry.consume rule now).2 = ⟨entry.hits ++ [now],0⟩ := by
  obtain ⟨hblocked,hroom⟩ := consume_allowed_iff.mp h
  obtain ⟨hits,blockedUntil⟩ := entry
  simp only [MemoryEntry.consume,if_neg (not_lt.mpr hblocked),if_neg (not_le.mpr hroom),gt_iff_lt,ge_iff_le]

theorem consume_denied (h : (entry.consume rule now).1.allowed = false) :
    (entry.consume rule now).2.hits = entry.hits ∧ (entry.consume rule now).2.blockedUntil =
      if entry.blockedUntil > now then entry.blockedUntil else now + rule.blockMillis := by
  obtain ⟨hits,blockedUntil⟩ := entry
  simp only [MemoryEntry.consume] at h ⊢
  by_cases hblocked : blockedUntil > now
  · simp only [if_pos hblocked,and_self]
  · simp only [if_neg hblocked] at h ⊢
    by_cases hfull : hits.length ≥ rule.points
    · simp only [if_pos hfull,and_self]
    · simp [if_neg hfull] at h

theorem after_concat (calls : List (RateLimitCall T)) (call : RateLimitCall T) (key : String) :
    (keyLimiters rules).after (calls ++ [call]) key = if call.key = key then
      (((keyLimiters rules).after calls key).perform (rules key) call).1 else (keyLimiters rules).after calls key := by
  rw [Machine.after_append]
  change Function.update ((keyLimiters rules).after calls) call.key _ key = _
  by_cases hkey : call.key = key
  · subst hkey
    rw [Function.update_self,if_pos rfl]
  · rw [Function.update_of_ne (Ne.symm hkey),if_neg hkey]

theorem after_concat_consume {call : RateLimitCall T} (h : call.operation = .consume) :
    (keyLimiters rules).after (calls ++ [call]) call.key =
      ((((keyLimiters rules).after calls call.key).inWindow (rules call.key) call.now).consume (rules call.key) call.now).2 := by
  rw [after_concat,if_pos rfl,MemoryEntry.perform_of_consume h]

theorem after_concat_of_not {call : RateLimitCall T} (h : ¬ (call.operation = .consume ∧ call.key = key)) :
    (keyLimiters rules).after (calls ++ [call]) key = (keyLimiters rules).after calls key := by
  rw [after_concat]
  split
  · rename_i hkey
    cases hop : call.operation with
    | consume => exact absurd ⟨hop,hkey⟩ h
    | peek => rw [MemoryEntry.perform_of_peek hop]
  · rfl

theorem answer_consume {call : RateLimitCall T} (h : call.operation = .consume) : (keyLimiters rules).answer calls call =
    ((((keyLimiters rules).after calls call.key).inWindow (rules call.key) call.now).consume (rules call.key) call.now).1 := by
  change (MemoryEntry.perform (rules call.key) ((keyLimiters rules).after calls call.key) call).2 = _
  rw [MemoryEntry.perform_of_consume h]

theorem answer_peek {call : RateLimitCall T} (h : call.operation = .peek) : (keyLimiters rules).answer calls call =
    (((keyLimiters rules).after calls call.key).inWindow (rules call.key) call.now).peek (rules call.key) call.now := by
  change (MemoryEntry.perform (rules call.key) ((keyLimiters rules).after calls call.key) call).2 = _
  rw [MemoryEntry.perform_of_peek h]

omit [CommRing T] [LinearOrder T] in
theorem allowedTimes_concat (key : String) (trace : List (RateLimitCall T × RateLimitDecision T))
    (answered : RateLimitCall T × RateLimitDecision T) :
    allowedTimes key (trace ++ [answered]) = allowedTimes key trace ++ (allowedTime key answered).toList := by
  rw [allowedTimes,List.filterMap_append]
  rfl

omit [CommRing T] [LinearOrder T] in
theorem consumesOf_concat (key : String) (calls : List (RateLimitCall T)) (call : RateLimitCall T) :
    consumesOf key (calls ++ [call]) =
      consumesOf key calls ++ if call.operation = .consume ∧ call.key = key then [call] else [] := by
  rw [consumesOf,List.filter_append]
  by_cases hcall : call.operation = .consume ∧ call.key = key
  · rw [if_pos hcall,List.filter_cons_of_pos (by simpa using hcall)]
    rfl
  · rw [if_neg hcall,List.filter_cons_of_neg (by simpa using hcall)]
    rfl

theorem after_consumesOf (key : String) (calls : List (RateLimitCall T)) :
    (keyLimiters rules).after (consumesOf key calls) key = (keyLimiters rules).after calls key := by
  induction calls using List.reverseRecOn with
  | nil => rfl
  | append_singleton calls call ih =>
    rw [consumesOf_concat]
    by_cases hcall : call.operation = .consume ∧ call.key = key
    · obtain ⟨hop,rfl⟩ := hcall
      rw [if_pos ⟨hop,rfl⟩,after_concat_consume hop,after_concat_consume hop,ih]
    · rw [if_neg hcall,List.append_nil,after_concat_of_not hcall,ih]

variable [IsOrderedAddMonoid T]

variable (rules) in
/-- The hits that the limiter of a key still has in the window are those it allowed, and each found room. -/
theorem allowedTimes_kept (key : String) (calls : List (RateLimitCall T)) (hclock : Clocked calls) :
    (∀ now, (∀ call ∈ calls, call.now ≤ now) →
      recent (rules key).windowMillis now ((keyLimiters rules).after calls key).hits =
        recent (rules key).windowMillis now (allowedTimes key ((keyLimiters rules).trace calls))) ∧
    Budgeted (rules key).windowMillis (rules key).points (allowedTimes key ((keyLimiters rules).trace calls)).reverse := by
  induction calls using List.reverseRecOn with
  | nil => exact ⟨fun _ _ => rfl,trivial⟩
  | append_singleton calls call ih =>
    obtain ⟨hclock,-,hlast⟩ := List.pairwise_append.mp hclock
    have hlast : ∀ c ∈ calls, c.now ≤ call.now := fun c hc => hlast c hc call List.mem_cons_self
    obtain ⟨hhits,hbudget⟩ := ih hclock
    have hnow := hhits call.now hlast
    rw [Machine.trace_concat,allowedTimes_concat]
    have hpast : ∀ now, (∀ c ∈ calls ++ [call], c.now ≤ now) → call.now ≤ now ∧ ∀ c ∈ calls, c.now ≤ now := fun now hle =>
      ⟨hle call (List.mem_append_right calls List.mem_cons_self),fun c hc => hle c (List.mem_append_left [call] hc)⟩
    by_cases hcall : call.operation = .consume ∧ call.key = key
    · obtain ⟨hop,rfl⟩ := hcall
      rw [after_concat_consume hop,answer_consume hop]
      by_cases hallowed : ((((keyLimiters rules).after calls call.key).inWindow (rules call.key) call.now).consume
          (rules call.key) call.now).1.allowed = true
      · rw [allowedTime,if_pos ⟨hop,rfl,hallowed⟩,consume_allowed hallowed]
        constructor
        · intro now hle
          obtain ⟨hcall,hle⟩ := hpast now hle
          rw [recent_append,recent_append]
          congr 1
          change recent _ now (recent _ call.now _) = _
          rw [recent_recent hcall,hhits now hle]
        · obtain ⟨-,hroom⟩ := consume_allowed_iff.mp hallowed
          rw [Option.toList_some,List.reverse_append,List.reverse_singleton,List.singleton_append]
          refine ⟨?_,hbudget⟩
          rw [recent_reverse,List.length_reverse,← hnow]
          exact hroom
      · have hdenied := Bool.eq_false_iff.mpr hallowed
        rw [allowedTime,if_neg fun h => hallowed h.2.2,Option.toList_none,List.append_nil]
        refine ⟨?_,hbudget⟩
        intro now hle
        obtain ⟨hcall,hle⟩ := hpast now hle
        rw [(consume_denied hdenied).1]
        change recent _ now (recent _ call.now _) = _
        rw [recent_recent hcall,hhits now hle]
    · rw [allowedTime,if_neg fun h => hcall ⟨h.1,h.2.1⟩,Option.toList_none,List.append_nil,after_concat_of_not hcall]
      refine ⟨?_,hbudget⟩
      intro now hle
      exact hhits now (hpast now hle).2

omit [IsOrderedAddMonoid T] in
theorem blockedUntil_kept {before middle : List (RateLimitCall T)}
    (h : ∀ call ∈ middle, call.now < ((keyLimiters rules).after before key).blockedUntil) :
    ((keyLimiters rules).after (before ++ middle) key).blockedUntil = ((keyLimiters rules).after before key).blockedUntil := by
  induction middle using List.reverseRecOn with
  | nil => rw [List.append_nil]
  | append_singleton middle call ih =>
    have hkept := ih fun c hc => h c (List.mem_append_left [call] hc)
    have hcall := h call (List.mem_append_right middle List.mem_cons_self)
    rw [← List.append_assoc]
    by_cases hconsume : call.operation = .consume ∧ call.key = key
    · obtain ⟨hop,rfl⟩ := hconsume
      have hblocked : call.now < ((keyLimiters rules).after (before ++ middle) call.key).blockedUntil := hkept ▸ hcall
      have hdenied : ((((keyLimiters rules).after (before ++ middle) call.key).inWindow (rules call.key) call.now).consume
          (rules call.key) call.now).1.allowed = false :=
        Bool.eq_false_iff.mpr fun hallowed => absurd (consume_allowed_iff.mp hallowed).1 (not_le.mpr hblocked)
      rw [after_concat_consume hop,(consume_denied hdenied).2]
      exact (if_pos hblocked).trans hkept
    · rw [after_concat_of_not hconsume,hkept]

end Limiters

section Results
variable [IsStrictOrderedRing T] {options : MemoryOptions T} {rules : String → RateLimitRule T} {calls : List (RateLimitCall T)}
  {rule : RateLimitRule T} {entry : MemoryEntry T} {now : T}

theorem consume_denial (h : (entry.consume rule now).1.allowed = false) :
    0 < (entry.consume rule now).1.retryAfterMillis ∧
      (entry.consume rule now).1.retryAfterMillis ≤ (entry.consume rule now).1.resetMillis := by
  obtain ⟨hits,blockedUntil⟩ := entry
  simp only [MemoryEntry.consume] at h ⊢
  by_cases hblocked : blockedUntil > now
  · simp only [if_pos hblocked]
    exact ⟨sub_pos.mpr hblocked,le_max_right _ _⟩
  · simp only [if_neg hblocked] at h ⊢
    by_cases hfull : hits.length ≥ rule.points
    · simp only [if_pos hfull]
      refine ⟨?_,le_max_left _ _⟩
      simp only [denied]
      split
      · assumption
      · exact lt_of_lt_of_le one_pos (le_max_left _ _)
    · simp [if_neg hfull] at h

theorem peek_denial (h : (entry.peek rule now).allowed = false) :
    0 < (entry.peek rule now).retryAfterMillis ∧ (entry.peek rule now).retryAfterMillis ≤ (entry.peek rule now).resetMillis := by
  obtain ⟨hits,blockedUntil⟩ := entry
  simp only [MemoryEntry.peek] at h ⊢
  by_cases hblocked : blockedUntil > now
  · simp only [if_pos hblocked]
    exact ⟨sub_pos.mpr hblocked,le_max_right _ _⟩
  · simp only [if_neg hblocked] at h ⊢
    by_cases hfull : hits.length ≥ rule.points
    · simp only [if_pos hfull]
      exact ⟨lt_of_lt_of_le one_pos (le_max_left _ _),le_max_left _ _⟩
    · simp [if_neg hfull] at h

/-- The calls keep to what the store is made for: its clock does not go back, and their keys fit. -/
structure Orderly (options : MemoryOptions T) (calls : List (RateLimitCall T)) : Prop where
  clock : Clocked calls
  fit : (calledKeys calls).card ≤ options.keyCap

omit [CommRing T] [LinearOrder T] [IsStrictOrderedRing T] in
theorem calledKeys_mono {calls' : List (RateLimitCall T)} (h : ∀ call ∈ calls', call.key ∈ calledKeys calls) :
    calledKeys calls' ⊆ calledKeys calls := by
  intro k hk
  obtain ⟨c,hc,rfl⟩ := List.mem_map.mp (List.mem_toFinset.mp hk)
  exact h c hc

omit [CommRing T] [LinearOrder T] [IsStrictOrderedRing T] in
theorem mem_calledKeys {call : RateLimitCall T} (h : call ∈ calls) : call.key ∈ calledKeys calls :=
  List.mem_toFinset.mpr (List.mem_map_of_mem h)

variable (rules) in
theorem Orderly.answer {before after : List (RateLimitCall T)} {call : RateLimitCall T}
    (h : Orderly options (before ++ call :: after))
    {before' : List (RateLimitCall T)} (hsub : before'.Sublist before) (call' : RateLimitCall T) (hkey : call'.key = call.key)
    (hnow : call'.now = call.now) :
    (memoryLimiter options rules).answer before' call' = (keyLimiters rules).answer before' call' := by
  have hclock : Clocked (before' ++ [call']) := by
    obtain ⟨hbefore,-,hlast⟩ := List.pairwise_append.mp h.clock
    refine List.pairwise_append.mpr ⟨hbefore.sublist hsub,List.pairwise_singleton _ _,?_⟩
    intro c hc c' hc'
    obtain rfl := List.mem_singleton.mp hc'
    rw [hnow]
    exact hlast c (hsub.subset hc) call List.mem_cons_self
  have hfit : (calledKeys (before' ++ [call'])).card ≤ options.keyCap := by
    refine (Finset.card_le_card (calledKeys_mono ?_)).trans h.fit
    intro c hc
    rcases List.mem_append.mp hc with hc | hc
    · exact mem_calledKeys (List.mem_append_left _ (hsub.subset hc))
    · obtain rfl := List.mem_singleton.mp hc
      rw [hkey]
      exact mem_calledKeys (List.mem_append_right before List.mem_cons_self)
  have houtputs : (memoryLimiter options rules).outputs (before' ++ [call']) = _ := memory_outputs hclock hfit
  rw [Machine.outputs_concat,Machine.outputs_concat] at houtputs
  exact List.singleton_inj.mp (List.append_inj_right' houtputs rfl)

theorem Orderly.follows {before after : List (RateLimitCall T)} {call : RateLimitCall T}
    (h : Orderly options (before ++ call :: after)) :
    ((memoryLimiter options rules).after before).Follows rules (calledKeys (before ++ call :: after)) call.now
      ((keyLimiters rules).after before) := by
  have hkeys : ∀ c ∈ before, c.key ∈ calledKeys (before ++ call :: after) :=
    fun c hc => mem_calledKeys (List.mem_append_left _ hc)
  obtain ⟨hbefore,-,hlast⟩ := List.pairwise_append.mp h.clock
  cases before with
  | nil => exact MemoryStore.follows_new _ _
  | cons first before =>
    apply (MemoryStore.follows_new _ first.now).afterFrom h.fit hbefore _
      (hlast first List.mem_cons_self call List.mem_cons_self)
    intro c hc
    refine ⟨hkeys c hc,?_,hlast c hc call List.mem_cons_self⟩
    rcases List.mem_cons.mp hc with rfl | hc
    · exact le_rfl
    · exact (List.pairwise_cons.mp hbefore).1 c hc

/-- While the block that a consume installs is running, no consume of the key is allowed. -/
theorem Orderly.blocked {before middle after : List (RateLimitCall T)} {call later : RateLimitCall T}
    (h : Orderly options (before ++ call :: (middle ++ later :: after))) (hinstalls : installsBlock options rules before call)
    (hlater : later.operation = .consume ∧ later.key = call.key)
    (hnow : later.now < call.now + (rules call.key).blockMillis) :
    ((memoryLimiter options rules).answer (before ++ call :: middle) later).allowed = false := by
  obtain ⟨hop,hdenied,hfree⟩ := hinstalls
  have hfollows : ((keyLimiters rules).after before call.key).blockedUntil ≤ call.now := by
    rcases (h.follows.alike call.key).blocked with heq | ⟨-,hle⟩
    · exact heq ▸ hfree
    · exact hle
  rw [h.answer rules (List.Sublist.refl before) call rfl rfl,answer_consume hop] at hdenied
  have hblock : ((keyLimiters rules).after (before ++ [call]) call.key).blockedUntil =
    call.now + (rules call.key).blockMillis := by
    rw [after_concat_consume hop,(consume_denied hdenied).2]
    exact if_neg (not_lt.mpr hfollows)
  have hsplit : before ++ call :: (middle ++ later :: after) = (before ++ call :: middle) ++ later :: after := by simp
  have horder : ∀ c ∈ middle, c.now ≤ later.now := by
    have hclock := h.clock
    rw [hsplit] at hclock
    intro c hc
    exact (List.pairwise_append.mp hclock).2.2 c (List.mem_append_right before (List.mem_cons_of_mem call hc)) later
      List.mem_cons_self
  have hkept : ((keyLimiters rules).after (before ++ call :: middle) call.key).blockedUntil =
      call.now + (rules call.key).blockMillis := by
    rw [List.append_cons,← hblock]
    apply blockedUntil_kept
    intro c hc
    rw [hblock]
    exact (horder c hc).trans_lt hnow
  have hlast : Orderly options ((before ++ call :: middle) ++ later :: after) := hsplit ▸ h
  rw [hlast.answer rules (List.Sublist.refl _) later rfl rfl,answer_consume hlater.1,hlater.2,Bool.eq_false_iff]
  intro hallowed
  obtain ⟨hover,-⟩ := consume_allowed_iff.mp hallowed
  exact absurd (hkept.symm.le.trans hover) (not_le.mpr hnow)

/-- The rate limiter keeps its budget, with times in whole milliseconds. -/
theorem rate_limiter_keeps_budget (options : MemoryOptions ℤ) (rules : String → RateLimitRule ℤ) (calls : List (RateLimitCall ℤ))
    (h : Orderly options calls) :
    (∀ key a, (allowedTimes key ((memoryLimiter options rules).trace calls)).countP
          (fun t => a < t ∧ t ≤ a + (rules key).windowMillis) ≤ (rules key).points ∧
        (allowedTimes key ((memoryLimiter options rules).trace calls)).countP
          (fun t => a ≤ t ∧ t < a + (rules key).windowMillis) ≤ (rules key).points) ∧
    (∀ before call middle later after, calls = before ++ call :: (middle ++ later :: after) →
      installsBlock options rules before call → later.operation = .consume ∧ later.key = call.key →
      later.now < call.now + (rules call.key).blockMillis →
      ((memoryLimiter options rules).answer (before ++ call :: middle) later).allowed = false) ∧
    (∀ before call after, calls = before ++ call :: after →
      ((memoryLimiter options rules).answer before {call with operation := .peek}).allowed =
        ((memoryLimiter options rules).answer before {call with operation := .consume}).allowed) ∧
    (∀ before call after, calls = before ++ call :: after →
      (memoryLimiter options rules).answer before call =
        (memoryLimiter options rules).answer (consumesOf call.key before) call) ∧
    ∀ call decision, (call,decision) ∈ (memoryLimiter options rules).trace calls → decision.allowed = false →
      0 < decision.retryAfterMillis ∧ decision.retryAfterMillis ≤ decision.resetMillis := by
  have htrace : (memoryLimiter options rules).trace calls = (keyLimiters rules).trace calls :=
    congrArg (List.zip calls) (memory_outputs h.clock h.fit)
  rw [htrace]
  refine ⟨?_,?_,?_,?_,?_⟩
  · intro key a
    have hbudget := (allowedTimes_kept rules key calls h.clock).2.countP_interval_le a
    rwa [List.countP_reverse,List.countP_reverse] at hbudget
  · rintro before call middle later after rfl hinstalls hlater hnow
    exact h.blocked hinstalls hlater hnow
  · rintro before call after rfl
    have hpeek := h.answer rules (List.Sublist.refl before) {call with operation := .peek} rfl rfl
    have hconsume := h.answer rules (List.Sublist.refl before) {call with operation := .consume} rfl rfl
    have hdecision : (keyLimiters rules).answer before {call with operation := .consume} = _ := answer_consume rfl
    have hlook : (keyLimiters rules).answer before {call with operation := .peek} = _ := answer_peek rfl
    rw [hpeek,hconsume,hdecision,hlook,Bool.eq_iff_iff,consume_allowed_iff,peek_allowed_iff]
  · rintro before call after rfl
    have hsub : (consumesOf call.key before).Sublist before := List.filter_sublist
    rw [h.answer rules (List.Sublist.refl before) call rfl rfl,h.answer rules hsub call rfl rfl]
    change (MemoryEntry.perform (rules call.key) ((keyLimiters rules).after before call.key) call).2 =
      (MemoryEntry.perform (rules call.key) ((keyLimiters rules).after (consumesOf call.key before) call.key) call).2
    rw [after_consumesOf]
  · intro call decision hin hdenied
    obtain ⟨before,after,rfl,rfl⟩ := Machine.mem_trace hin
    cases hop : call.operation with
    | consume =>
      rw [answer_consume hop] at hdenied ⊢
      exact consume_denial hdenied
    | peek =>
      rw [answer_peek hop] at hdenied ⊢
      exact peek_denial hdenied

/-- Of a key that takes its one point, is refused, and comes back while it is blocked. -/
theorem rate_limiter_keeps_budget_blocked : ∃ calls : List (RateLimitCall ℤ),
    (allowedTimes "k" ((memoryLimiter ⟨none,none⟩ fun _ => ⟨1,10,5⟩).trace calls)).countP (fun t => 0 ≤ t ∧ t < 0 + 10) = 1 ∧
    (allowedTimes "k" ((memoryLimiter ⟨none,none⟩ fun _ => ⟨1,10,5⟩).trace calls)).countP (fun t => 0 ≤ t ∧ t < 0 + 10) ≤ 1 := by
  refine ⟨[⟨.consume,"k",0,""⟩,⟨.consume,"k",9,""⟩,⟨.consume,"k",12,""⟩,⟨.consume,"k",14,""⟩],by decide,?_⟩
  exact ((rate_limiter_keeps_budget ⟨none,none⟩ (fun _ => ⟨1,10,5⟩) _ ⟨by unfold Clocked; decide,by decide⟩).1 "k" 0).2

end Results

/-- A third of a second after the first hit, short of 81 nanoseconds, the difference is rounded to the first hit. -/
theorem doubles_overspend : ∃ (rule : RateLimitRule Double) (calls : List (RateLimitCall Double)) (a : Double),
    Orderly ⟨none,none⟩ calls ∧ rule.points < (allowedTimes "k" ((memoryLimiter ⟨none,none⟩ fun _ => rule).trace calls)).countP
      (fun t => a.val ≤ t.val ∧ t.val < a.val + rule.windowMillis.val) := by
  refine ⟨⟨1,.round (1000 / 3),0⟩,[⟨.consume,"k",.round (1700000000000 + 1 / 4),""⟩,
    ⟨.consume,"k",.round (1700000000000 + 1 / 4 + 1365333 / 2 ^ 12),""⟩],.round (1700000000000 + 1 / 4),⟨?_,by decide⟩,?_⟩
  · unfold Clocked
    decide +kernel
  · decide +kernel

end StructureAi.Http

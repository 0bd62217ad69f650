import StructureAi.Http.RateLimitBudget

/-! # When a refused caller may come back

A refusal reports what is left of the block, the length of the one it installs, or, without one, the time until
the oldest hit leaves. A caller that comes back then finds the block over; whether it finds room is up to the
hits that outlasted the block.
-/
namespace StructureAi.Http
open StructureAi.Foundation
variable {T : Type} [CommRing T] [LinearOrder T]

namespace MemoryEntry
variable {rule : RateLimitRule T} {entry : MemoryEntry T} {now later : T}

/-- By the end of the block that a refusal reports, fewer hits than the budget are still in the window. -/
def BlockFreesAPoint (rule : RateLimitRule T) (now : T) (entry : MemoryEntry T) : Prop :=
  if entry.blockedUntil > now then (recent rule.windowMillis entry.blockedUntil entry.hits).length < rule.points
  else rule.blockMillis > 0 → (recent rule.windowMillis (now + rule.blockMillis) entry.hits).length < rule.points

instance : Decidable (entry.BlockFreesAPoint rule now) :=
  inferInstanceAs (Decidable (if entry.blockedUntil > now then _ else rule.blockMillis > 0 → _))

theorem consume_retryAfterMillis (h : (entry.consume rule now).1.allowed = false) : (entry.consume rule now).1.retryAfterMillis =
    if entry.blockedUntil > now then entry.blockedUntil - now
    else if rule.blockMillis > 0 then rule.blockMillis else max 1 (untilOldestLeaves entry.hits rule now) := by
  obtain ⟨hits,blockedUntil⟩ := entry
  simp only [MemoryEntry.consume] at h ⊢
  by_cases hblocked : blockedUntil > now
  · simp only [if_pos hblocked]
    rfl
  · simp only [if_neg hblocked] at h ⊢
    by_cases hfull : hits.length ≥ rule.points
    · simp only [if_pos hfull]
      rfl
    · simp [if_neg hfull] at h

theorem full_of_denied (h : (entry.consume rule now).1.allowed = false) (hfree : ¬ entry.blockedUntil > now) :
    rule.points ≤ entry.hits.length := by
  by_contra hroom
  rw [consume_allowed_iff.mpr ⟨not_lt.mp hfree,not_le.mp hroom⟩] at h
  cases h

variable [IsStrictOrderedRing T]

theorem room_untilOldestLeaves (hpoints : 0 < rule.points) (hfull : entry.hits.length = rule.points)
    (hlater : now + max 1 (untilOldestLeaves entry.hits rule now) ≤ later) :
    (recent rule.windowMillis later entry.hits).length < rule.points := by
  obtain ⟨hits,blockedUntil⟩ := entry
  cases hits with
  | nil => exact absurd hfull hpoints.ne
  | cons oldest hits =>
    rw [← hfull]
    apply List.length_filter_lt_length_iff_exists.mpr
    refine ⟨oldest,List.mem_cons_self,?_⟩
    rw [decide_eq_true_eq,not_lt]
    have hleft : now + (oldest + rule.windowMillis - now) ≤ later := (add_le_add_right (le_max_right _ _) now).trans hlater
    rw [add_sub_cancel] at hleft
    exact le_sub_iff_add_le.mpr hleft

/-- A caller that comes back when it was told to is let in unless too many hits outlasted the block. -/
theorem comeback_allowed_iff (hpoints : 0 < rule.points) (hbudget : entry.hits.length ≤ rule.points)
    (hdenied : (entry.consume rule now).1.allowed = false)
    (hlater : later = now + (entry.consume rule now).1.retryAfterMillis) :
    (((entry.consume rule now).2.inWindow rule later).consume rule later).1.allowed = true ↔
      entry.BlockFreesAPoint rule now := by
  obtain ⟨hhits,hblock⟩ := consume_denied hdenied
  have hread : ((entry.consume rule now).2.inWindow rule later).hits = recent rule.windowMillis later entry.hits :=
    congrArg (recent rule.windowMillis later) hhits
  have huntil : ((entry.consume rule now).2.inWindow rule later).blockedUntil = _ := hblock
  rw [consume_allowed_iff,hread,huntil,BlockFreesAPoint]
  rw [consume_retryAfterMillis hdenied] at hlater
  by_cases hblocked : entry.blockedUntil > now
  · simp only [if_pos hblocked,add_sub_cancel] at hlater ⊢
    rw [hlater]
    exact and_iff_right le_rfl
  · have hfull := le_antisymm hbudget (full_of_denied hdenied hblocked)
    simp only [if_neg hblocked] at hlater ⊢
    by_cases hlasting : rule.blockMillis > 0
    · rw [if_pos hlasting] at hlater
      rw [hlater,imp_iff_right hlasting]
      exact and_iff_right le_rfl
    · rw [if_neg hlasting] at hlater
      have hover : now + rule.blockMillis ≤ later := by
        rw [hlater]
        exact add_le_add_right ((not_lt.mp hlasting).trans (zero_le_one.trans (le_max_left _ _))) now
      exact iff_of_true ⟨hover,room_untilOldestLeaves hpoints hfull hlater.ge⟩ fun hlasts => absurd hlasts hlasting

end MemoryEntry

namespace MemoryStore
variable {options : MemoryOptions T} {rules : String → RateLimitRule T} {s : MemoryStore T} {key : String} {now : T}

def entryRead (options : MemoryOptions T) (rules : String → RateLimitRule T) (s : MemoryStore T) (key : String) (now : T) :
    MemoryEntry T :=
  (s.swept options (rules key) now).windowOf key (rules key) now

/-- The map still has the key when a consume reads it. -/
def Remembers (options : MemoryOptions T) (rules : String → RateLimitRule T) (s : MemoryStore T) (key : String)
    (now : T) : Prop :=
  ((s.swept options (rules key) now).entries.lookup key).isSome

/-- Every key has one entry, and no more hits in it than its points. -/
structure WithinPoints (rules : String → RateLimitRule T) (s : MemoryStore T) : Prop where
  distinct : (s.entries.map Prod.fst).Nodup
  within : ∀ e ∈ s.entries, e.2.hits.length ≤ (rules e.1).points

theorem swept_sublist (options : MemoryOptions T) (rule : RateLimitRule T) (now : T) (s : MemoryStore T) :
    (s.swept options rule now).entries.Sublist s.entries := by
  unfold swept
  simp only
  split
  · exact List.filter_sublist
  · exact List.Sublist.refl _

omit [CommRing T] [LinearOrder T] in
theorem remember_entries (options : MemoryOptions T) (key : String) (entry : MemoryEntry T) (s : MemoryStore T) :
    ∃ kept, (s.remember options key entry).entries = kept ++ [(key,entry)] ∧ kept.Sublist s.entries ∧
      key ∉ kept.map Prod.fst := by
  have hothers : (s.entries.filter fun e => e.1 ≠ key).Sublist s.entries := List.filter_sublist
  have hkept : ∀ kept : List (String × MemoryEntry T), kept.Sublist (s.entries.filter fun e => e.1 ≠ key) →
    kept.Sublist s.entries ∧ key ∉ kept.map Prod.fst := by
    intro kept hsub
    refine ⟨hsub.trans hothers,?_⟩
    rw [List.mem_map]
    rintro ⟨e,he,rfl⟩
    exact absurd rfl (of_decide_eq_true (List.mem_filter.mp (hsub.subset he)).2)
  refine ⟨_,rfl,?_⟩
  apply hkept
  split
  · exact List.tail_sublist _
  · exact List.Sublist.refl _

omit [CommRing T] [LinearOrder T] in
theorem WithinPoints.sublist {s' : MemoryStore T} (h : s.WithinPoints rules) (hsub : s'.entries.Sublist s.entries) :
    s'.WithinPoints rules := ⟨h.distinct.sublist (hsub.map Prod.fst),fun e he => h.within e (hsub.subset he)⟩

omit [LinearOrder T] in
theorem WithinPoints.entryOf (h : s.WithinPoints rules) (key : String) : (s.entryOf key).hits.length ≤ (rules key).points := by
  unfold MemoryStore.entryOf
  cases hlookup : s.entries.lookup key with
  | none => exact Nat.zero_le _
  | some entry => exact h.within _ (mem_of_lookup hlookup)

theorem WithinPoints.entryRead (h : s.WithinPoints rules) (options : MemoryOptions T) (key : String) (now : T) :
    (s.entryRead options rules key now).hits.length ≤ (rules key).points :=
  (List.length_filter_le _ _).trans ((h.sublist (swept_sublist options _ now s)).entryOf key)

theorem WithinPoints.consume (h : s.WithinPoints rules) (options : MemoryOptions T) (key : String) (now : T) :
    (s.consume options key (rules key) now).1.WithinPoints rules := by
  have hread := h.entryRead options key now
  obtain ⟨kept,hentries,hsub,hfresh⟩ := remember_entries options key
    ((s.entryRead options rules key now).consume (rules key) now).2 (s.swept options (rules key) now)
  have hkept := hsub.trans (swept_sublist options (rules key) now s)
  have hentries : (s.consume options key (rules key) now).1.entries = _ := hentries
  constructor
  · rw [hentries,List.map_append]
    apply List.Nodup.append (h.distinct.sublist (hkept.map Prod.fst)) (List.nodup_singleton _)
    intro k hk hk'
    obtain rfl := List.mem_singleton.mp hk'
    exact hfresh hk
  · intro e he
    rw [hentries,List.mem_append,List.mem_singleton] at he
    rcases he with he | rfl
    · exact h.within e (hkept.subset he)
    · cases hallowed : ((s.entryRead options rules key now).consume (rules key) now).1.allowed with
      | true =>
        rw [consume_allowed hallowed,List.length_append]
        exact (consume_allowed_iff.mp hallowed).2
      | false =>
        rw [(consume_denied hallowed).1]
        exact hread

theorem withinPoints (options : MemoryOptions T) (rules : String → RateLimitRule T) (calls : List (RateLimitCall T)) :
    ((memoryLimiter options rules).after calls).WithinPoints rules := by
  induction calls using List.reverseRecOn with
  | nil => exact ⟨List.nodup_nil,fun e he => absurd he List.not_mem_nil⟩
  | append_singleton calls call ih =>
    rw [Machine.after_append]
    change (MemoryStore.perform options rules _ call).1.WithinPoints rules
    unfold MemoryStore.perform
    cases call.operation with
    | consume => exact ih.consume options call.key call.now
    | peek => exact ih

theorem lookup_consume (options : MemoryOptions T) (rules : String → RateLimitRule T) (s : MemoryStore T) (key : String)
    (now : T) :
    (s.consume options key (rules key) now).1.entries.lookup key =
      some ((s.entryRead options rules key now).consume (rules key) now).2 := by
  obtain ⟨kept,hentries,-,hfresh⟩ := remember_entries options key
    ((s.entryRead options rules key now).consume (rules key) now).2 (s.swept options (rules key) now)
  have hentries : (s.consume options key (rules key) now).1.entries = _ := hentries
  rw [hentries,List.lookup_append,lookup_eq_none.mpr hfresh,Option.none_or,lookup_cons,if_pos rfl]

theorem WithinPoints.lookup_other {call : RateLimitCall T} {entry : MemoryEntry T} (h : s.WithinPoints rules)
    (hkey : call.key ≠ key)
    (hlookup : (s.perform options rules call).1.entries.lookup key = some entry) : s.entries.lookup key = some entry := by
  unfold MemoryStore.perform at hlookup
  cases hop : call.operation with
  | consume =>
    rw [hop] at hlookup
    obtain ⟨kept,hentries,hsub,-⟩ := remember_entries options call.key
      ((s.entryRead options rules call.key call.now).consume (rules call.key) call.now).2
        (s.swept options (rules call.key) call.now)
    have hin := mem_of_lookup hlookup
    have hentries : (s.consume options call.key (rules call.key) call.now).1.entries = _ := hentries
    simp only [hentries,List.mem_append,List.mem_singleton] at hin
    rcases hin with hin | heq
    · exact (lookup_eq_some_iff h.distinct).mpr ((swept_sublist options _ call.now s).subset (hsub.subset hin))
    · exact absurd (congrArg Prod.fst heq).symm hkey
  | peek =>
    rw [hop] at hlookup
    exact hlookup

theorem lookup_others (before between : List (RateLimitCall T)) (hkey : ∀ c ∈ between, c.key ≠ key) {entry : MemoryEntry T}
    (hlookup : ((memoryLimiter options rules).after (before ++ between)).entries.lookup key = some entry) :
    ((memoryLimiter options rules).after before).entries.lookup key = some entry := by
  induction between using List.reverseRecOn with
  | nil => rwa [List.append_nil] at hlookup
  | append_singleton between call ih =>
    rw [← List.append_assoc,Machine.after_append] at hlookup
    have hother := hkey call (List.mem_append_right between List.mem_cons_self)
    apply ih fun c hc => hkey c (List.mem_append_left [call] hc)
    exact (withinPoints options rules (before ++ between)).lookup_other hother hlookup

theorem entryRead_of_remembers {before between : List (RateLimitCall T)} {call : RateLimitCall T}
    (hop : call.operation = .consume)
    (hkey : ∀ c ∈ between, c.key ≠ call.key)
    (h : ((memoryLimiter options rules).after (before ++ call :: between)).Remembers options rules call.key now) :
    ((memoryLimiter options rules).after (before ++ call :: between)).entryRead options rules call.key now =
      ((((memoryLimiter options rules).after before).entryRead options rules call.key call.now).consume (rules call.key)
        call.now).2.inWindow (rules call.key) now := by
  obtain ⟨entry,hentry⟩ := Option.isSome_iff_exists.mp h
  have hswept : (((memoryLimiter options rules).after (before ++ call :: between)).swept options (rules call.key) now).entryOf
      call.key = entry := by
    unfold MemoryStore.entryOf
    rw [hentry]
    rfl
  have hwithin := withinPoints options rules (before ++ call :: between)
  have hlater := (lookup_eq_some_iff hwithin.distinct).mpr ((swept_sublist options (rules call.key) now _).subset
    (mem_of_lookup hentry))
  rw [List.append_cons] at hlater
  have hconsumed := lookup_others (before ++ [call]) between hkey hlater
  rw [Machine.after_append] at hconsumed
  change (MemoryStore.perform options rules _ call).1.entries.lookup call.key = some entry at hconsumed
  unfold MemoryStore.perform at hconsumed
  simp only [hop] at hconsumed
  rw [lookup_consume] at hconsumed
  unfold entryRead windowOf
  rw [hswept,← Option.some.inj hconsumed]
  rfl

end MemoryStore

section Results
variable [IsStrictOrderedRing T] {options : MemoryOptions T} {rules : String → RateLimitRule T}

omit [IsStrictOrderedRing T] in
theorem memory_answer_consume {before : List (RateLimitCall T)} {call : RateLimitCall T} (h : call.operation = .consume) :
    (memoryLimiter options rules).answer before call =
      ((((memoryLimiter options rules).after before).entryRead options rules call.key call.now).consume
        (rules call.key) call.now).1 := by
  change (MemoryStore.perform options rules _ call).2 = _
  unfold MemoryStore.perform
  rw [h]
  rfl

/-- A caller that comes back when it was told to is let in just when the block outlasts enough hits, or when the map
forgot its key in between. -/
theorem retry_after_honest_iff (options : MemoryOptions ℤ) (rules : String → RateLimitRule ℤ)
    (before between : List (RateLimitCall ℤ))
    (call later : RateLimitCall ℤ) (hpoints : 0 < (rules call.key).points)
    (hdenied : call.operation = .consume ∧ ((memoryLimiter options rules).answer before call).allowed = false)
    (hbetween : ∀ c ∈ between, c.key ≠ call.key)
    (hlater : later.operation = .consume ∧ later.key = call.key ∧
      later.now = call.now + ((memoryLimiter options rules).answer before call).retryAfterMillis) :
    ((memoryLimiter options rules).answer (before ++ call :: between) later).allowed = true ↔
      (((memoryLimiter options rules).after (before ++ call :: between)).Remembers options rules call.key later.now →
        (((memoryLimiter options rules).after before).entryRead options rules call.key call.now).BlockFreesAPoint
          (rules call.key) call.now) ∧
      (¬ ((memoryLimiter options rules).after (before ++ call :: between)).Remembers options rules call.key later.now →
        0 ≤ later.now) := by
  obtain ⟨hop,hdenied⟩ := hdenied
  obtain ⟨hlaterOp,hlaterKey,hnow⟩ := hlater
  rw [memory_answer_consume hlaterOp,hlaterKey]
  rw [memory_answer_consume hop] at hdenied hnow
  by_cases hremembers : ((memoryLimiter options rules).after (before ++
    call :: between)).Remembers options rules call.key later.now
  · have hread := MemoryStore.entryRead_of_remembers hop hbetween hremembers
    have hwithin := (MemoryStore.withinPoints options rules before).entryRead options call.key call.now
    rw [hread,MemoryEntry.comeback_allowed_iff hpoints hwithin hdenied hnow]
    exact ⟨fun hfrees => ⟨fun _ => hfrees,fun hforgot => absurd hremembers hforgot⟩,fun h => h.1 hremembers⟩
  · have hnone := Option.not_isSome_iff_eq_none.mp hremembers
    have hfresh : ((memoryLimiter options rules).after (before ++ call :: between)).entryRead options rules call.key later.now =
        MemoryEntry.fresh := by
      unfold MemoryStore.entryRead MemoryStore.windowOf MemoryStore.entryOf
      rw [hnone]
      rfl
    rw [hfresh,consume_allowed_iff]
    constructor
    · rintro ⟨hstarted,-⟩
      exact ⟨fun h => absurd h hremembers,fun _ => hstarted⟩
    · rintro ⟨-,hstarted⟩
      exact ⟨hstarted hremembers,hpoints⟩

/-- Of a caller that comes back when the first of its two hits has left and the second has not. -/
theorem retry_after_honest_iff_block :
    ((memoryLimiter ⟨none,none⟩ fun _ => (⟨2,10,5⟩ : RateLimitRule ℤ)).answer
      [⟨.consume,"k",0,""⟩,⟨.consume,"k",4,""⟩,⟨.consume,"k",7,""⟩,⟨.consume,"other",9,""⟩] ⟨.consume,"k",
        12,""⟩).allowed = true :=
  (retry_after_honest_iff ⟨none,none⟩ (fun _ => (⟨2,10,5⟩ : RateLimitRule ℤ)) [⟨.consume,"k",0,""⟩,⟨.consume,"k",4,""⟩]
    [⟨.consume,"other",9,""⟩] ⟨.consume,"k",7,""⟩ ⟨.consume,"k",12,""⟩ (by decide) (by decide) (by decide) (by decide)).mpr
    ⟨fun _ => by decide,fun _ => by decide⟩

/-- A block that is shorter than the window sends the caller back into the same full window. -/
theorem short_block_refuses_again : ∃ (rules : String → RateLimitRule ℤ) (before : List (RateLimitCall ℤ))
    (call later : RateLimitCall ℤ),
    0 < (rules call.key).points ∧
    ((memoryLimiter ⟨none,none⟩ rules).answer before call).allowed = false ∧
    later.now = call.now + ((memoryLimiter ⟨none,none⟩ rules).answer before call).retryAfterMillis ∧
    later.operation = .consume ∧ later.key = call.key ∧
    ((memoryLimiter ⟨none,none⟩ rules).answer (before ++ [call]) later).allowed = false :=
  ⟨fun _ => ⟨1,1000,100⟩,[⟨.consume,"k",0,""⟩],⟨.consume,"k",10,""⟩,⟨.consume,"k",110,""⟩,by decide⟩

end Results
end StructureAi.Http

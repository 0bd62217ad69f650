import StructureAi.Runtime.Shutdown

/-! # The drain of a shutdown

A shutdown is unmarked, or has one caller that is to fork the drain, or the one drain, or nobody:
the last if the caller was interrupted first. The acts of the drain are those of the finalizers it
has left behind.
-/
namespace StructureAi.Runtime
open StructureAi.Foundation

variable {F : Type}

namespace Coordinator

/-- How far the shutdown is: with a caller that is to fork the drain, with a drain, or without both. -/
inductive Stage (F : Type) where
  | unmarked
  | starting (caller : ℕ)
  | draining (caller : ℕ) (drain : Drain F)
  | abandoned

/-- The acts of a drain, by what it still has to do. -/
def Acted (s : Coordinator F) : Drain F → Prop
  | .setUnready => s.acts = [] ∧ s.drained = false
  | .read => s.acts = [.turnedUnready] ∧ s.drained = false
  | .next rest => ∃ registered before, s.Registered registered ∧ registered.reverse = before ++ rest ∧
      s.acts = .turnedUnready :: (before.flatMap fun r => [.started r,.finished r]) ∧ s.drained = false
  | .run r rest => ∃ registered before, s.Registered registered ∧ registered.reverse = before ++ r :: rest ∧
      s.acts = .turnedUnready :: (before.flatMap fun r => [.started r,.finished r]) ++ [.started r] ∧ s.drained = false
  | .ended => s.Drained

/-- The state of a shutdown that is so far. -/
structure At (s : Coordinator F) (stage : Stage F) : Prop where
  starter : ∀ caller phase, s.callers caller = some phase → starting phase = true → stage = .starting caller
  drain : ∀ caller drain, s.drains caller = some drain → stage = .draining caller drain
  marked : s.started = true → ∃ first, s.first = some first ∧ first <+: s.finalizers
  now : match stage with
    | .unmarked => s.started = false ∧ s.acts = [] ∧ s.drained = false
    | .starting caller => s.started = true ∧ s.acts = [] ∧ s.drained = false ∧
        ∃ phase, s.callers caller = some phase ∧ starting phase = true ∧ (phase = .fork → s.reason.isSome = true)
    | .draining caller drain => s.started = true ∧ s.Acted drain ∧ s.drains caller = some drain ∧ s.reason.isSome = true
    | .abandoned => s.started = true ∧ s.acts = [] ∧ s.drained = false

variable {finalizerTimeout : ℕ} {s s' : Coordinator F} {stage : Stage F} {i : ℕ}

theorem at_make : (make : Coordinator F).At .unmarked where
  starter := by
    intro caller phase h
    cases h
  drain := by
    intro caller drain h
    cases h
  marked := by
    intro h
    cases h
  now := ⟨rfl,rfl,rfl⟩

theorem Registered.mono {registered : List (RegisteredFinalizer F)} (h : s.Registered registered) (hfirst : s'.first = s.first)
    (hf : s.finalizers <+: s'.finalizers) : s'.Registered registered := by
  obtain ⟨first,h1,h2,h3⟩ := h
  exact ⟨first,hfirst.trans h1,h2,h3.trans hf⟩

theorem Acted.mono {drain : Drain F} (h : s.Acted drain) (hfirst : s'.first = s.first)
    (hf : s.finalizers <+: s'.finalizers) (hacts : s'.acts = s.acts) (hdrained : s'.drained = s.drained) : s'.Acted drain := by
  cases drain with
  | setUnready | read =>
    rw [Acted,hacts,hdrained]
    exact h
  | next rest | run r rest =>
    obtain ⟨registered,before,hr,h⟩ := h
    rw [Acted,hacts,hdrained]
    exact ⟨registered,before,hr.mono hfirst hf,h⟩
  | ended =>
    obtain ⟨hd,registered,hr,ha⟩ := h
    exact ⟨hdrained.trans hd,registered,hr.mono hfirst hf,hacts.trans ha⟩

theorem At.onShutdown (h : s.At stage) (registered : RegisteredFinalizer F) :
    At {s with finalizers := s.finalizers ++ [registered]} stage where
  starter := h.starter
  drain := h.drain
  marked := by
    intro hs
    obtain ⟨first,h1,h2⟩ := h.marked hs
    exact ⟨first,h1,h2.trans (List.prefix_append ..)⟩
  now := by
    have hnow := h.now
    cases stage with
    | unmarked | starting caller | abandoned => exact hnow
    | draining caller drain =>
      obtain ⟨h1,h2,h3⟩ := hnow
      exact ⟨h1,h2.mono rfl (List.prefix_append ..) rfl rfl,h3⟩

theorem At.setCaller (h : s.At stage) {phase : Caller} (hold : ∀ old, s.callers i = some old → starting old = false)
    (hphase : starting phase = false) : At {s with callers := s.callers.set i phase} stage where
  starter := by
    intro caller phase' hc hs
    rcases Fibers.set_cases hc with ⟨-,rfl⟩ | ⟨-,hc⟩
    · rw [hphase] at hs
      cases hs
    · exact h.starter caller phase' hc hs
  drain := h.drain
  marked := h.marked
  now := by
    have hnow := h.now
    cases stage with
    | unmarked | abandoned => exact hnow
    | starting caller =>
      obtain ⟨h1,h2,h3,phase',hc,hs,hf⟩ := hnow
      have hne : caller ≠ i := by
        rintro rfl
        rw [hold phase' hc] at hs
        cases hs
      exact ⟨h1,h2,h3,phase',(Fibers.set_of_ne _ _ hne).trans hc,hs,hf⟩
    | draining caller drain =>
      obtain ⟨h1,h2,h3⟩ := hnow
      exact ⟨h1,h2.mono rfl List.prefix_rfl rfl rfl,h3⟩

theorem At.begin (h : s.At stage) {phase : Caller} (hphase : starting phase = false) (hs : s.begin i phase = some s') :
    s'.At stage := by
  unfold Coordinator.begin at hs
  split at hs
  next hc =>
    obtain rfl := Option.some.inj hs
    apply h.setCaller _ hphase
    intro old hold
    rw [hc] at hold
    cases hold
  next => cases hs

/-- An interruption abandons the shutdown if it takes away the caller that is about to fork the drain. -/
theorem At.interrupt (h : s.At stage) (hs : s.interrupt i = some s') :
    ((∀ phase, s.callers i = some phase → starting phase = false) ∧ s'.At stage) ∨
      (∃ phase, s.callers i = some phase ∧ starting phase = true) ∧ s'.At .abandoned := by
  obtain ⟨phase,hphase,rfl⟩ : ∃ phase, s.callers i = some phase ∧ s' = {s with callers := s.callers.set i .interrupted} := by
    unfold Coordinator.interrupt at hs
    split at hs
    next => cases hs
    next => cases hs
    next => cases hs
    next => cases hs
    next phase _ _ _ hc => exact ⟨phase,hc,(Option.some.inj hs).symm⟩
  cases hstarting : starting phase with
  | false =>
    have hold : ∀ old, s.callers i = some old → starting old = false := by
      intro old hold
      rw [hphase] at hold
      rw [← Option.some.inj hold,hstarting]
    exact Or.inl ⟨hold,h.setCaller hold rfl⟩
  | true =>
    right
    refine ⟨⟨phase,hphase,hstarting⟩,?_⟩
    obtain rfl := h.starter i phase hphase hstarting
    obtain ⟨h1,h2,h3,-⟩ := h.now
    refine ⟨?_,?_,h.marked,h1,h2,h3⟩
    · intro caller phase' hc hs
      rcases Fibers.set_cases hc with ⟨-,rfl⟩ | ⟨hne,hc⟩
      · cases hs
      · cases h.starter caller phase' hc hs
        exact absurd rfl hne
    · intro caller drain hd
      cases h.drain caller drain hd

theorem At.mark (h : s.At stage) {reason : String} (hphase : s.callers i = some (.mark reason)) :
    ∃ stage', At {s with
      started := true
      first := if s.started then s.first else some s.finalizers
      callers := s.callers.set i (if s.started then .awaitDrained else .publish reason)} stage' ∧
      (stage = .abandoned ↔ stage' = .abandoned) := by
  cases hstarted : s.started with
  | true =>
    have hold : ∀ old, s.callers i = some old → starting old = false := by
      intro old hold
      rw [hphase] at hold
      rw [← Option.some.inj hold]
      rfl
    refine ⟨stage,?_,Iff.rfl⟩
    have hset := @setCaller _ _ _ _ h .awaitDrained hold rfl
    rw [hstarted] at hset
    exact hset
  | false =>
    obtain rfl : stage = .unmarked := by
      have hnow := h.now
      cases stage with
      | unmarked => rfl
      | starting caller | draining caller drain | abandoned =>
        rw [hstarted] at hnow
        cases hnow.1
    obtain ⟨-,hacts,hdrained⟩ := h.now
    refine ⟨.starting i,⟨?_,?_,?_,?_⟩,by simp⟩
    · intro caller phase hc hs
      rcases Fibers.set_cases hc with ⟨rfl,-⟩ | ⟨-,hc⟩
      · rfl
      · cases h.starter caller phase hc hs
    · intro caller drain hd
      cases h.drain caller drain hd
    · intro _
      exact ⟨s.finalizers,rfl,List.prefix_rfl⟩
    · exact ⟨rfl,hacts,hdrained,.publish reason,Fibers.set_self ..,rfl,fun hf => by cases hf⟩

theorem At.publish (h : s.At stage) {reason : String} (hphase : s.callers i = some (.publish reason)) :
    ∃ stage', At {s with
      reason := s.reason.or (some reason)
      callers := s.callers.set i .fork} stage' ∧ (stage = .abandoned ↔ stage' = .abandoned) := by
  obtain rfl := h.starter i _ hphase rfl
  obtain ⟨hstarted,hacts,hdrained,-⟩ := h.now
  refine ⟨.starting i,⟨?_,?_,h.marked,?_⟩,Iff.rfl⟩
  · intro caller phase hc hs
    rcases Fibers.set_cases hc with ⟨rfl,-⟩ | ⟨-,hc⟩
    · rfl
    · exact h.starter caller phase hc hs
  · intro caller drain hd
    cases h.drain caller drain hd
  · refine ⟨hstarted,hacts,hdrained,.fork,Fibers.set_self ..,rfl,fun _ => ?_⟩
    cases s.reason <;> rfl

theorem At.fork (h : s.At stage) (hphase : s.callers i = some .fork) :
    ∃ stage', At {s with
      drains := s.drains.set i .setUnready
      callers := s.callers.set i .awaitDrained} stage' ∧ (stage = .abandoned ↔ stage' = .abandoned) := by
  obtain rfl := h.starter i _ hphase rfl
  obtain ⟨hstarted,hacts,hdrained,phase,hphase',-,hreason⟩ := h.now
  obtain rfl : phase = .fork := Option.some.inj (hphase'.symm.trans hphase)
  refine ⟨.draining i .setUnready,⟨?_,?_,h.marked,?_⟩,by simp⟩
  · intro caller phase hc hs
    rcases Fibers.set_cases hc with ⟨-,rfl⟩ | ⟨hne,hc⟩
    · cases hs
    · cases h.starter caller phase hc hs
      exact absurd rfl hne
  · intro caller drain hd
    rcases Fibers.set_cases hd with ⟨rfl,rfl⟩ | ⟨-,hd⟩
    · rfl
    · cases h.drain caller drain hd
  · exact ⟨hstarted,⟨hacts,hdrained⟩,Fibers.set_self ..,hreason rfl⟩

theorem At.callerStep (h : s.At stage) (hs : s.callerStep i = some s') :
    ∃ stage', s'.At stage' ∧ (stage = .abandoned ↔ stage' = .abandoned) := by
  have hquiet : ∀ {old phase}, s.callers i = some old → starting old = false → starting phase = false →
      ∃ stage', At {s with callers := s.callers.set i phase} stage' ∧ (stage = .abandoned ↔ stage' = .abandoned) := by
    intro old phase hc hold hphase
    refine ⟨stage,h.setCaller ?_ hphase,Iff.rfl⟩
    intro old' hold'
    rw [hc] at hold'
    rwa [← Option.some.inj hold']
  unfold Coordinator.callerStep at hs
  split at hs
  next reason hc =>
    obtain rfl := Option.some.inj hs
    exact h.mark hc
  next reason hc =>
    obtain rfl := Option.some.inj hs
    exact h.publish hc
  next hc =>
    obtain rfl := Option.some.inj hs
    exact h.fork hc
  next hc =>
    split at hs
    · obtain rfl := Option.some.inj hs
      exact hquiet hc rfl rfl
    · cases hs
  next hc =>
    split at hs
    · obtain rfl := Option.some.inj hs
      exact hquiet hc rfl rfl
    · cases hs
  next hc =>
    obtain ⟨reason,-,rfl⟩ := Option.map_eq_some_iff.mp hs
    exact hquiet hc rfl rfl
  next => cases hs

theorem At.setDrain {drain drain' : Drain F} (h : s.At (.draining i drain)) {t : Coordinator F}
    (hstarted : t.started = s.started)
    (hcallers : t.callers = s.callers) (hreason : t.reason = s.reason) (hfirst : t.first = s.first)
      (hfinalizers : t.finalizers = s.finalizers)
    (hdrains : t.drains = s.drains.set i drain') (hacted : t.Acted drain') : t.At (.draining i drain') where
  starter := by
    intro caller phase hc hs
    rw [hcallers] at hc
    cases h.starter caller phase hc hs
  drain := by
    intro caller d hd
    rw [hdrains] at hd
    rcases Fibers.set_cases hd with ⟨rfl,rfl⟩ | ⟨hne,hd⟩
    · rfl
    · cases h.drain caller d hd
      exact absurd rfl hne
  marked := by
    rw [hstarted,hfirst,hfinalizers]
    exact h.marked
  now := by
    obtain ⟨h1,-,-,h4⟩ := h.now
    refine ⟨hstarted.trans h1,hacted,?_,hreason ▸ h4⟩
    rw [hdrains]
    exact Fibers.set_self ..

theorem At.drainStep (h : s.At stage) {ending : Ending} (hs : s.drainStep finalizerTimeout i ending = some s') :
    ∃ drain drain', stage = .draining i drain ∧ s'.At (.draining i drain') := by
  unfold Coordinator.drainStep at hs
  split at hs
  next hd =>
    obtain rfl := Option.some.inj hs
    obtain rfl := h.drain i _ hd
    obtain ⟨-,⟨hacts,hdrained⟩,-,-⟩ := h.now
    refine ⟨_,.read,rfl,h.setDrain rfl rfl rfl rfl rfl rfl ⟨?_,hdrained⟩⟩
    simp only [hacts,List.nil_append]
  next hd =>
    obtain rfl := Option.some.inj hs
    obtain rfl := h.drain i _ hd
    obtain ⟨hstarted,⟨hacts,hdrained⟩,-,-⟩ := h.now
    obtain ⟨first,hfirst,hf⟩ := h.marked hstarted
    exact ⟨_,_,rfl,h.setDrain rfl rfl rfl rfl rfl rfl
      ⟨s.finalizers,[],⟨first,hfirst,hf,List.prefix_rfl⟩,rfl,hacts,hdrained⟩⟩
  next r rest hd =>
    obtain rfl := Option.some.inj hs
    obtain rfl := h.drain i _ hd
    obtain ⟨-,⟨registered,before,hr,hrest,hacts,hdrained⟩,-,-⟩ := h.now
    refine ⟨_,.run r rest,rfl,h.setDrain rfl rfl rfl rfl rfl rfl ⟨registered,before,hr,hrest,?_,hdrained⟩⟩
    simp only [hacts]
  next r rest hd =>
    obtain rfl := Option.some.inj hs
    obtain rfl := h.drain i _ hd
    obtain ⟨-,⟨registered,before,hr,hrest,hacts,hdrained⟩,-,-⟩ := h.now
    refine ⟨_,.next rest,rfl,h.setDrain rfl rfl rfl rfl rfl rfl
      ⟨registered,before ++ [r],hr,?_,?_,hdrained⟩⟩
    · rw [hrest,List.append_assoc]
      rfl
    · simp only [hacts,List.flatMap_append,List.flatMap_singleton,List.cons_append,List.append_assoc,List.nil_append]
  next hd =>
    obtain rfl := Option.some.inj hs
    obtain rfl := h.drain i _ hd
    obtain ⟨-,⟨registered,before,hr,hrest,hacts,-⟩,-,-⟩ := h.now
    refine ⟨_,.ended,rfl,h.setDrain rfl rfl rfl rfl rfl rfl ⟨rfl,registered,hr,?_⟩⟩
    rw [drainActs,hrest,List.append_nil]
    exact hacts
  next => cases hs

/-- A step leads on to a stage, an abandoned one just from an abandoned one or by an interruption. -/
theorem At.step (h : s.At stage) {l : Label F} (hs : s.step finalizerTimeout l = some s') :
    ∃ stage', s'.At stage' ∧ (stage' = .abandoned ↔ stage = .abandoned ∨ ¬ s.Unbroken l) := by
  have hother : (∀ caller, l ≠ .interrupt caller) → ∀ stage' : Stage F, (stage = .abandoned ↔ stage' = .abandoned) →
      (stage' = .abandoned ↔ stage = .abandoned ∨ ¬ s.Unbroken l) := by
    intro hl stage' hstage
    have hu : s.Unbroken l := fun caller _ hc => absurd hc (hl caller)
    rw [hstage,or_iff_left (not_not.mpr hu)]
  cases l with
  | onShutdown name finalizer =>
    obtain rfl := Option.some.inj hs
    exact ⟨stage,h.onShutdown _,hother (fun _ hl => by cases hl) _ Iff.rfl⟩
  | trigger caller reason => exact ⟨stage,h.begin rfl hs,hother (fun _ hl => by cases hl) _ Iff.rfl⟩
  | awaitShutdown caller => exact ⟨stage,h.begin rfl hs,hother (fun _ hl => by cases hl) _ Iff.rfl⟩
  | setReady =>
    obtain rfl := Option.some.inj hs
    refine ⟨stage,⟨h.starter,h.drain,h.marked,?_⟩,hother (fun _ hl => by cases hl) _ Iff.rfl⟩
    have hnow := h.now
    cases stage with
    | unmarked | starting caller | abandoned => exact hnow
    | draining caller drain =>
      obtain ⟨h1,h2,h3⟩ := hnow
      exact ⟨h1,h2.mono rfl List.prefix_rfl rfl rfl,h3⟩
  | interrupt caller =>
    rcases h.interrupt hs with ⟨hquiet,hs'⟩ | ⟨⟨phase,hphase,hstarting⟩,hs'⟩
    · have hu : s.Unbroken (.interrupt caller) := by
        rintro _ phase ⟨⟩ hphase
        exact hquiet phase hphase
      exact ⟨stage,hs',by rw [or_iff_left (not_not.mpr hu)]⟩
    · refine ⟨.abandoned,hs',iff_of_true rfl (Or.inr ?_)⟩
      intro hu
      rw [hu caller phase rfl hphase] at hstarting
      cases hstarting
  | caller caller =>
    obtain ⟨stage',hs',hstage⟩ := h.callerStep hs
    exact ⟨stage',hs',hother (fun _ hl => by cases hl) _ hstage⟩
  | drain caller ending =>
    obtain ⟨drain,drain',rfl,hs'⟩ := h.drainStep hs
    exact ⟨_,hs',hother (fun _ hl => by cases hl) _ (by simp)⟩

/-- Nobody has returned from a trigger before the drain has ended. -/
def Returns (s : Coordinator F) : Prop := ∀ caller, s.callers caller = some .returned → s.drained = true

theorem Returns.set (h : s.Returns) {phase : Caller} (hphase : phase = .returned → s.drained = true)
    {t : Coordinator F} (hcallers : t.callers = s.callers.set i phase) (hdrained : t.drained = s.drained) : t.Returns := by
  intro caller hc
  rw [hcallers] at hc
  rw [hdrained]
  rcases Fibers.set_cases hc with ⟨-,hphase'⟩ | ⟨-,hc⟩
  · exact hphase hphase'.symm
  · exact h caller hc

theorem Returns.begin (h : s.Returns) {phase : Caller} (hphase : phase ≠ .returned) (hs : s.begin i phase = some s') :
    s'.Returns := by
  unfold Coordinator.begin at hs
  split at hs
  next =>
    obtain rfl := Option.some.inj hs
    exact h.set (fun hp => absurd hp hphase) rfl rfl
  next => cases hs

theorem Returns.step (h : s.Returns) {l : Label F} (hs : s.step finalizerTimeout l = some s') : s'.Returns := by
  cases l with
  | onShutdown name finalizer | setReady =>
    obtain rfl := Option.some.inj hs
    exact h
  | trigger caller reason => exact h.begin (by simp) hs
  | awaitShutdown caller => exact h.begin (by simp) hs
  | interrupt caller =>
    change s.interrupt caller = some s' at hs
    unfold Coordinator.interrupt at hs
    split at hs
    next => cases hs
    next => cases hs
    next => cases hs
    next => cases hs
    next =>
      obtain rfl := Option.some.inj hs
      exact h.set (fun hp => by cases hp) rfl rfl
  | caller caller =>
    change s.callerStep caller = some s' at hs
    unfold callerStep at hs
    split at hs
    next reason hc =>
      obtain rfl := Option.some.inj hs
      refine h.set ?_ rfl rfl
      split
      · intro hp
        cases hp
      · intro hp
        cases hp
    next reason hc =>
      obtain rfl := Option.some.inj hs
      exact h.set (fun hp => by cases hp) rfl rfl
    next hc =>
      obtain rfl := Option.some.inj hs
      exact h.set (fun hp => by cases hp) rfl rfl
    next hc =>
      split at hs
      next hdrained =>
        obtain rfl := Option.some.inj hs
        exact h.set (fun _ => hdrained) rfl rfl
      next => cases hs
    next hc =>
      split at hs
      · obtain rfl := Option.some.inj hs
        exact h.set (fun hp => by cases hp) rfl rfl
      · cases hs
    next hc =>
      obtain ⟨reason,-,rfl⟩ := Option.map_eq_some_iff.mp hs
      exact h.set (fun hp => by cases hp) rfl rfl
    next => cases hs
  | drain caller ending =>
    change s.drainStep finalizerTimeout caller ending = some s' at hs
    unfold drainStep at hs
    split at hs
    next =>
      obtain rfl := Option.some.inj hs
      exact h
    next =>
      obtain rfl := Option.some.inj hs
      exact h
    next =>
      obtain rfl := Option.some.inj hs
      exact h
    next =>
      obtain rfl := Option.some.inj hs
      exact h
    next =>
      obtain rfl := Option.some.inj hs
      exact fun _ _ => rfl
    next => cases hs

theorem At.inOrder (h : s.At stage) : s.InOrder := by
  intro hacts
  have hnow := h.now
  cases stage with
  | unmarked => exact absurd hnow.2.1 hacts
  | starting caller => exact absurd hnow.2.1 hacts
  | abandoned => exact absurd hnow.2.1 hacts
  | draining caller drain =>
    obtain ⟨hstarted,hacted,-,-⟩ := hnow
    cases drain with
    | setUnready => exact absurd hacted.1 hacts
    | read =>
      obtain ⟨first,hfirst,hf⟩ := h.marked hstarted
      refine ⟨s.finalizers,⟨first,hfirst,hf,List.prefix_rfl⟩,?_⟩
      rw [hacted.1,drainActs]
      exact ⟨_,rfl⟩
    | next rest =>
      obtain ⟨registered,before,hr,hrest,hacts,-⟩ := hacted
      refine ⟨registered,hr,?_⟩
      rw [hacts,drainActs,hrest,List.flatMap_append]
      exact ⟨_,rfl⟩
    | run r rest =>
      obtain ⟨registered,before,hr,hrest,hacts,-⟩ := hacted
      refine ⟨registered,hr,?_⟩
      rw [hacts,drainActs,hrest,List.flatMap_append,List.flatMap_cons]
      exact ⟨.finished r :: rest.flatMap fun r => [.started r,.finished r],by simp⟩
    | ended =>
      obtain ⟨-,registered,hr,hacts⟩ := hacted
      exact ⟨registered,hr,by rw [hacts]⟩

theorem At.drained (h : s.At stage) (hd : s.drained = true) : s.Drained := by
  have hnow := h.now
  have hno : s.drained ≠ false := by simp [hd]
  cases stage with
  | unmarked => exact absurd hnow.2.2 hno
  | starting caller => exact absurd hnow.2.2.1 hno
  | abandoned => exact absurd hnow.2.2 hno
  | draining caller drain =>
    obtain ⟨-,hacted,-,-⟩ := hnow
    cases drain with
    | setUnready | read => exact absurd hacted.2 hno
    | next rest | run r rest =>
      obtain ⟨_,_,-,-,-,hacted⟩ := hacted
      exact absurd hacted hno
    | ended => exact hacted

theorem callerStep_isSome {phase : Caller} (hd : s.drained = true) (hr : s.reason.isSome = true) (hc : s.callers i = some phase)
    (hphase : gone phase = false) : (s.callerStep i).isSome = true := by
  unfold callerStep
  rw [hc]
  cases phase with
  | mark reason | publish reason | fork => rfl
  | awaitDrained | awaitShutdown => simp only [hd,if_true,Option.isSome_some]
  | awaitReason => simpa only [Option.isSome_map] using hr
  | returned | resolved reason | interrupted => cases hphase

theorem At.completes (h : s.At stage) (hstage : stage ≠ .abandoned) (hstarted : s.started = true)
    (hstuck : s.Stuck finalizerTimeout) : s.Drained ∧ ∀ caller phase, s.callers caller = some phase → gone phase = true := by
  have hnow := h.now
  cases stage with
  | unmarked =>
    rw [hstarted] at hnow
    cases hnow.1
  | abandoned => exact absurd rfl hstage
  | starting caller =>
    obtain ⟨-,-,-,phase,hc,hphase,-⟩ := hnow
    have hnone := hstuck.1 caller
    unfold Coordinator.callerStep at hnone
    rw [hc] at hnone
    cases phase with
    | publish reason | fork => cases hnone
    | mark reason | awaitDrained | awaitShutdown | awaitReason | returned | resolved reason | interrupted => cases hphase
  | draining caller drain =>
    obtain ⟨-,hacted,hdrain,hreason⟩ := hnow
    have hnone := hstuck.2 caller .completed
    unfold Coordinator.drainStep at hnone
    rw [hdrain] at hnone
    have hdone : s.Drained := by
      cases drain with
      | setUnready | read | run r rest => cases hnone
      | next rest => cases rest <;> cases hnone
      | ended => exact hacted
    refine ⟨hdone,?_⟩
    intro i phase hc
    cases hphase : gone phase with
    | true => rfl
    | false =>
      have hsome := callerStep_isSome hdone.1 hreason hc hphase
      rw [hstuck.1 i] at hsome
      cases hsome

/-- Shutdown drains once as long as nobody is interrupted between marking it and forking the drain, and never again
after somebody was. -/
theorem drains_once (h : (shutdowns F finalizerTimeout).Reaches Unbroken s) : s.DrainsOnce finalizerTimeout ∧
    ∀ l s', ¬ s.Unbroken l → s.step finalizerTimeout l = some s' →
      ∀ t, (shutdowns F finalizerTimeout).Leads (fun _ _ => True) s' t → t.started = true ∧ t.drained = false := by
  obtain ⟨⟨stage,hat,hstage⟩,hreturns⟩ := h.invariant (fun s => (∃ stage, s.At stage ∧ stage ≠ .abandoned) ∧ s.Returns)
    ⟨⟨.unmarked,at_make,by simp⟩,fun caller hc => by cases hc⟩ (by
      rintro a l b ⟨⟨stage,hat,hstage⟩,hreturns⟩ hl hb
      obtain ⟨stage',hat',hstage'⟩ := hat.step hb
      refine ⟨⟨stage',hat',?_⟩,hreturns.step hb⟩
      rw [ne_eq,hstage']
      rintro (hstage'' | hl')
      · exact hstage hstage''
      · exact hl' hl)
  refine ⟨⟨hat.inOrder,fun caller hc => hat.drained (hreturns caller hc),hat.completes hstage⟩,?_⟩
  intro l s' hl hs t ht
  obtain ⟨stage',hat',hstage'⟩ := hat.step hs
  obtain rfl := hstage'.mpr (Or.inr hl)
  have hend : t.At .abandoned := ht.invariant (fun s => s.At .abandoned) hat' (by
    intro a l b ha _ hb
    obtain ⟨stage,hb',hstage⟩ := ha.step hb
    rwa [← hstage.mpr (Or.inl rfl)])
  exact ⟨hend.now.1,hend.now.2.2⟩

def unbroken (s : Coordinator F) : Label F → Bool
  | .interrupt caller => (s.callers caller).all fun phase => !starting phase
  | _ => true

theorem unbroken_of (s : Coordinator F) (l : Label F) (h : s.unbroken l = true) : s.Unbroken l := by
  rintro caller phase rfl hphase
  change ((s.callers caller).all fun phase => !starting phase) = true at h
  rw [hphase] at h
  simpa using h

/-- A finalizer runs into its timeout; the second caller joins the drain of the first. -/
def joinedRun : List (Label Unit) := [.onShutdown "http" (),.onShutdown "db" (),.trigger 0 "SIGTERM",.caller 0,
    .trigger 1 "SIGINT",
  .caller 0,.caller 1,.caller 0,.drain 0 .completed,.interrupt 0,.drain 0 .completed,.drain 0 .completed,.drain 0 .overran,
  .drain 0 .completed,.drain 0 .failed,.drain 0 .completed,.caller 1]

def joined : Coordinator Unit := (((shutdowns Unit 5000).run joinedRun)).getD make

/-- The first caller is interrupted while it waits, with the drain already forked. -/
theorem drains_once_joined : joined.started = true ∧ joined.log =
      [.error "shutdown finalizer \"db\" exceeded its 5000 ms budget and was cut",
        .warning "shutdown finalizer \"http\" failed; skipping"] ∧ joined.DrainsOnce 5000 := by
  have hrun : ((shutdowns Unit 5000).guard unbroken).run joinedRun = some joined := rfl
  exact ⟨rfl,rfl,(drains_once (System.guard_run_reaches unbroken_of hrun)).1⟩

/-- The first caller is interrupted before it forks the drain, and the second waits. -/
def abandonedRun : List (Label Unit) := [.onShutdown "db" (),.trigger 0 "SIGTERM",.caller 0,.interrupt 0,.trigger 1 "SIGINT",
    .caller 1]

def abandoned : Coordinator Unit := ((shutdowns Unit 5000).run abandonedRun).getD make

/-- Everybody waits for a drain that nobody has forked. -/
theorem drains_once_abandoned : (shutdowns Unit 5000).run abandonedRun = some abandoned ∧ abandoned.started = true ∧
    abandoned.Stuck 5000 ∧ abandoned.callers 1 = some .awaitDrained ∧ ¬ abandoned.DrainsOnce 5000 := by
  have hstuck : abandoned.Stuck 5000 := by
    refine ⟨?_,fun caller ending => rfl⟩
    intro caller
    match caller with
    | 0 => rfl
    | 1 => rfl
    | caller + 2 => rfl
  refine ⟨rfl,rfl,hstuck,rfl,?_⟩
  intro h
  have hdrained : abandoned.drained = true := (h.completes rfl hstuck).1.1
  cases hdrained

end Coordinator
end StructureAi.Runtime

import StructureAi.Grpc.Server

/-! # Answers of a unary call

A value of the handler answers the call while its operation goes on, and a failure of the operation answers it again. A call is
answered once where its operation does not fail after a value was given and gives no second value, unless the call is cancelled.
-/
namespace StructureAi.Grpc
open StructureAi.Foundation
variable {E V : Type} {config : Config E} {call after : Call E V} {move : Move E V}

section Statement

def Stage.isOver : Stage E → Bool
  | reported | finished => true
  | _ => false

def Stage.isFailed : Stage E → Bool
  | failed _ => true
  | _ => false

def Stage.isReported : Stage E → Bool
  | reported => true
  | _ => false

theorem Stage.eq_finished {stage : Stage E} (hover : stage.isOver = true) (hreported : stage.isReported = false) :
    stage = .finished := by
  cases stage with
  | finished => rfl
  | reported => cases hreported
  | _ => cases hover

/-- What is promised of a call: one answer at most, one when it is over and was never cancelled, no error with a success. -/
structure AnsweredOnce (call : Call E V) : Prop where
  atMost : call.replies.length ≤ 1
  exactly : call.stage.isOver = true → call.cancelled = false → call.replies.length = 1
  success : (∃ r ∈ call.replies, r.isSuccess = true) → ∀ r ∈ call.replies, r.isSuccess = true

/-- A value is given once, and not when a failure has been answered or will be. After it the operation does not fail and does not
pass the deadline. A hook succeeds with a value only. Where the call is cancelled failures do not count. -/
def Settled (call : Call E V) : Move E V → Prop
  | .handle (.ok _) => call.given = [] ∧ call.stage.isReported = false ∧
      (call.expired = true ∨ call.stage.isFailed = true → call.cancelled = true)
  | .hookEnd (.ok _) => call.given ≠ [] ∨ call.expired = true ∨ call.cancelled = true
  | .hookEnd (.error _) => call.given ≠ [] → call.cancelled = true
  | .expire => call.given ≠ [] → call.cancelled = true
  | _ => True

end Statement

section Invariant

structure Answering (call : Call E V) : Prop where
  unhooked : call.hooked = false → call.running = 0 ∧ call.given = []
  hooked : call.hooked = true → call.stage ≠ .entering ∧ call.stage ≠ .verifying
  interrupted : call.interrupted = true → call.cancelled = true
  given : call.given.length ≤ 1
  reported : call.stage.isReported = true → call.given = [] ∧ call.replies.length = 1
  replies : call.stage.isReported = false → call.replies.length = call.given.length ∧ ∀ r ∈ call.replies, r.isSuccess = true
  failing : call.given ≠ [] → call.expired = true ∨ call.stage.isFailed = true → call.cancelled = true
  finished : call.stage = .finished → call.given ≠ [] ∨ call.cancelled = true

theorem answering_init : Answering (invoke config : System (Call E V) (Move E V)).init where
  unhooked := fun _ => ⟨rfl,rfl⟩
  hooked := by simp [invoke]
  interrupted := by simp [invoke]
  given := by simp [invoke]
  reported := by simp [invoke,Stage.isReported]
  replies := by simp [invoke]
  failing := by simp [invoke]
  finished := by simp [invoke]

theorem Answering.conclude {exit : Except (Cause E) Unit} (h : Answering call) (hreported : call.stage.isReported = false)
    (herror : ∀ cause, exit = .error cause → call.given ≠ [] → call.cancelled = true)
    (hok : ∀ u, exit = .ok u → call.given ≠ [] ∨ call.expired = true ∨ call.cancelled = true) :
      Answering (call.conclude exit) := by
  have hfailing : call.given ≠ [] → call.expired = true → call.cancelled = true := fun hgiven he => h.failing hgiven (Or.inl he)
  refine ⟨h.unhooked,fun _ => ?_,h.interrupted,h.given,?_,fun _ => h.replies hreported,?_,?_⟩
  all_goals unfold Call.conclude; dsimp only
  · split
    · exact ⟨nofun,nofun⟩
    · split
      · exact ⟨nofun,nofun⟩
      · split
        · exact ⟨nofun,nofun⟩
        · exact ⟨nofun,nofun⟩
  · split
    · exact nofun
    · split
      · exact nofun
      · split
        · exact nofun
        · exact nofun
  · intro hgiven
    split
    · rename_i hinterrupted
      exact fun _ => h.interrupted hinterrupted
    · split
      · rename_i hexpired
        exact fun _ => hfailing hgiven hexpired
      · split
        · rintro (he | he)
          · exact hfailing hgiven he
          · cases he
        · exact fun _ => herror _ rfl hgiven
  · split
    · rename_i hinterrupted
      exact fun _ => Or.inr (h.interrupted hinterrupted)
    · split
      · exact nofun
      · rename_i hexpired
        split
        · intro _
          obtain hgiven | he | hcancelled := hok _ rfl
          · exact Or.inl hgiven
          · cases hexpired he
          · exact Or.inr hcancelled
        · exact nofun

/-- What `sendHeaders` leaves alone. -/
theorem sendHeaders_eq (metadata : Metadata) :
    call.sendHeaders config metadata = {call with headers := (call.sendHeaders config metadata).headers} := by
  unfold Call.sendHeaders
  split
  · rfl
  · rfl

theorem Answering.sendHeaders (h : Answering call) (metadata : Metadata) : Answering (call.sendHeaders config metadata) := by
  rw [sendHeaders_eq]
  exact {h with}

theorem Answering.report {cause : Cause E} (h : Answering call) (hstage : call.stage = .failed cause) :
    Answering (call.report config cause) := by
  have hreplies := (h.replies (by rw [hstage]; rfl)).1
  unfold Call.report
  dsimp only
  split
  · rename_i hcancelled
    exact ⟨h.unhooked,fun _ => ⟨nofun,nofun⟩,h.interrupted,h.given,nofun,fun _ => h.replies (by rw [hstage]; rfl),fun _ _ =>
      hcancelled,
      fun _ => Or.inr hcancelled⟩
  · rename_i hcancelled
    have hgiven : call.given = [] := by
      by_contra hgiven
      exact hcancelled (h.failing hgiven (Or.inr (by rw [hstage]; rfl)))
    rw [hgiven] at hreplies
    rw [Call.sendDefault,sendHeaders_eq]
    refine ⟨h.unhooked,fun _ => ⟨nofun,nofun⟩,h.interrupted,h.given,fun _ => ⟨hgiven,?_⟩,nofun,fun hg => absurd hgiven hg,nofun⟩
    rw [List.length_append,hreplies]
    rfl

theorem Answering.give {value : V} (h : Answering call) (hrunning : call.running ≠ 0) (hgiven : call.given = [])
    (hreported : call.stage.isReported = false) (hcancelled : call.expired = true ∨ call.stage.isFailed = true →
      call.cancelled = true) :
    Answering {call.sendDefault config with running := call.running - 1, given := call.given ++ [value],
                                            replies := call.replies ++ [.success value call.trailers]} := by
  obtain ⟨hlength,hsuccess⟩ := h.replies hreported
  have hhooked : call.hooked = true := by
    by_contra hhooked
    exact hrunning (h.unhooked (Bool.not_eq_true _ ▸ hhooked)).1
  rw [Call.sendDefault,sendHeaders_eq,hgiven]
  refine ⟨fun hunhooked => ?_,h.hooked,h.interrupted,Nat.le_refl _,fun hr => ?_,fun _ => ⟨?_,?_⟩,fun _ => hcancelled,fun _ =>
    Or.inl (by simp)⟩
  · cases hhooked.symm.trans hunhooked
  · cases hreported.symm.trans hr
  · rw [List.length_append,hlength,hgiven]
    rfl
  · intro r hr
    obtain hr | hr := List.mem_append.mp hr
    · exact hsuccess r hr
    · obtain rfl := List.mem_singleton.mp hr
      rfl

theorem Answering.given_nil (h : Answering call) (hstage : call.stage = .entering ∨ call.stage = .verifying) :
    call.hooked = false ∧ call.given = [] := by
  have hhooked : call.hooked = false := by
    by_contra hhooked
    obtain ⟨hentering,hverifying⟩ := h.hooked (Bool.not_eq_false _ ▸ hhooked)
    obtain hstage | hstage := hstage
    · exact hentering hstage
    · exact hverifying hstage
  exact ⟨hhooked,(h.unhooked hhooked).2⟩

theorem Answering.conclude_early {cause : Cause E} (h : Answering call) (hstage : call.stage = .entering ∨
    call.stage = .verifying) :
    Answering (call.conclude (.error cause)) := by
  refine h.conclude ?_ (fun _ _ hgiven => absurd (h.given_nil hstage).2 hgiven) nofun
  obtain hstage | hstage := hstage
  · rw [hstage]
    rfl
  · rw [hstage]
    rfl

theorem answering_step (h : Answering call) (hsettled : Settled call move) (hstep : step config call move = some after) :
    Answering after := by
  cases move with
  | enter =>
    dsimp only [step] at hstep
    split at hstep
    · rename_i hstage
      obtain ⟨hhooked,hgiven⟩ := h.given_nil (Or.inl hstage)
      split at hstep
      · obtain rfl := Option.some.inj hstep
        exact h.conclude_early (Or.inl hstage)
      · split at hstep
        · obtain rfl := Option.some.inj hstep
          exact h.conclude_early (Or.inl hstage)
        · obtain rfl := Option.some.inj hstep
          exact ⟨h.unhooked,fun hh => (by cases hhooked.symm.trans hh),h.interrupted,h.given,nofun,fun _ =>
            h.replies (by rw [hstage]; rfl),
            fun hg => absurd hgiven hg,nofun⟩
    · cases hstep
  | verify exit =>
    dsimp only [step] at hstep
    split at hstep
    · rename_i cause hstage
      obtain rfl := Option.some.inj hstep
      exact h.conclude_early (Or.inr hstage)
    · rename_i hstage
      split at hstep
      · obtain rfl := Option.some.inj hstep
        exact h.conclude_early (Or.inr hstage)
      · obtain rfl := Option.some.inj hstep
        obtain ⟨hhooked,hgiven⟩ := h.given_nil (Or.inr hstage)
        exact ⟨nofun,fun _ => ⟨nofun,nofun⟩,h.interrupted,h.given,nofun,fun _ => h.replies (by rw [hstage]; rfl),
          fun hg => absurd hgiven hg,nofun⟩
    · cases hstep
  | runWork =>
    dsimp only [step] at hstep
    split at hstep
    · rename_i hhooked
      obtain rfl := Option.some.inj hstep
      exact {h with unhooked := fun hunhooked => by cases hhooked.symm.trans hunhooked}
    · cases hstep
  | handle exit =>
    dsimp only [step] at hstep
    split at hstep
    · cases hstep
    · rename_i hrunning
      split at hstep
      · obtain rfl := Option.some.inj hstep
        exact {h with unhooked := fun hunhooked => absurd (h.unhooked hunhooked).1 hrunning}
      · obtain rfl := Option.some.inj hstep
        obtain ⟨hgiven,hreported,hcancelled⟩ := hsettled
        exact h.give hrunning hgiven hreported hcancelled
  | setTrailers metadata =>
    dsimp only [step] at hstep
    split at hstep
    · obtain rfl := Option.some.inj hstep
      exact {h with}
    · cases hstep
  | sendHeaders metadata =>
    dsimp only [step] at hstep
    split at hstep
    · obtain rfl := Option.some.inj hstep
      exact h.sendHeaders metadata
    · cases hstep
  | hookEnd exit =>
    dsimp only [step] at hstep
    split at hstep
    · rename_i hstage
      obtain rfl := Option.some.inj hstep
      refine h.conclude (by rw [hstage]; rfl) (fun cause he => ?_) (fun u he => ?_)
      · subst he
        exact hsettled
      · subst he
        exact hsettled
    · cases hstep
  | expire =>
    dsimp only [step] at hstep
    split at hstep
    · cases hstep
    · split at hstep
      · obtain rfl := Option.some.inj hstep
        exact {h with failing := fun hgiven _ => hsettled hgiven}
      · obtain rfl := Option.some.inj hstep
        exact {h with failing := fun hgiven _ => hsettled hgiven}
      · obtain rfl := Option.some.inj hstep
        exact {h with failing := fun hgiven _ => hsettled hgiven}
      · cases hstep
  | report =>
    dsimp only [step] at hstep
    split at hstep
    · rename_i cause hstage
      split at hstep
      · rename_i hinterrupted
        obtain rfl := Option.some.inj hstep
        have hcancelled := h.interrupted hinterrupted
        exact ⟨h.unhooked,fun _ => ⟨nofun,nofun⟩,h.interrupted,h.given,nofun,fun _ => h.replies (by rw [hstage]; rfl),fun _ _ =>
          hcancelled,
          fun _ => Or.inr hcancelled⟩
      · obtain rfl := Option.some.inj hstep
        exact h.report hstage
    · cases hstep
  | close =>
    obtain rfl := Option.some.inj hstep
    exact {h with}
  | forceShutdown =>
    dsimp only [step] at hstep
    split at hstep
    · cases hstep
    · obtain rfl := Option.some.inj hstep
      exact {h with interrupted := fun _ => rfl, failing := fun _ _ => rfl, finished := fun _ => Or.inr rfl}
  | cancel =>
    obtain rfl := Option.some.inj hstep
    exact {h with interrupted := fun _ => rfl, failing := fun _ _ => rfl, finished := fun _ => Or.inr rfl}
  | interrupt =>
    dsimp only [step] at hstep
    split at hstep
    · rename_i hcancelled
      obtain rfl := Option.some.inj hstep
      exact {h with interrupted := fun _ => hcancelled}
    · cases hstep

theorem reaches_answering (h : (invoke config).Reaches Settled call) : Answering call :=
  h.invariant Answering answering_init fun _ _ _ ha hsettled hstep => answering_step ha hsettled hstep

theorem Answering.once (h : Answering call) : AnsweredOnce call := by
  cases hreported : call.stage.isReported with
  | true =>
    obtain ⟨-,hlength⟩ := h.reported hreported
    obtain ⟨r,hr⟩ := List.length_eq_one_iff.mp hlength
    refine ⟨Nat.le_of_eq hlength,fun _ _ => hlength,?_⟩
    rw [hr]
    rintro ⟨r',hr',hsuccess⟩ r'' hr''
    obtain rfl := List.mem_singleton.mp hr'
    obtain rfl := List.mem_singleton.mp hr''
    exact hsuccess
  | false =>
    obtain ⟨hlength,hsuccess⟩ := h.replies hreported
    refine ⟨hlength ▸ h.given,fun hover hcancelled => ?_,fun _ => hsuccess⟩
    have hfinished := Stage.eq_finished hover hreported
    have hgiven : call.given ≠ [] := by
      obtain hgiven | hcancelled' := h.finished hfinished
      · exact hgiven
      · cases hcancelled.symm.trans hcancelled'
    have hpos := List.length_pos_iff.mpr hgiven
    have hle := h.given
    omega

end Invariant

section Broken

/-- The promise can still be broken, whatever else happens. -/
def Breaks (config : Config E) (call : Call E V) : Prop :=
  ∃ last, (invoke config).Leads (fun _ _ => True) call last ∧ ¬ AnsweredOnce last

theorem breaks_of_replies (h : 2 ≤ call.replies.length) : Breaks config call :=
  ⟨call,.refl,fun hanswered => absurd hanswered.atMost (by omega)⟩

theorem Breaks.step (h : Breaks config after) (hstep : step config call move = some after) : Breaks config call := by
  obtain ⟨last,hleads,hlast⟩ := h
  exact ⟨last,hleads.head ⟨move,trivial,hstep⟩,hlast⟩

theorem breaks_of_failed (hstage : call.stage.isFailed = true) (hcancelled : call.cancelled = false)
    (hinterrupted : call.interrupted = false)
    (hreplies : call.replies ≠ []) : Breaks config call := by
  cases hs : call.stage with
  | failed cause =>
    have hstep : step config call .report = some (call.report config cause) := by
      simp [step,hs,hinterrupted]
    refine (breaks_of_replies ?_).step hstep
    have hpos := List.length_pos_iff.mpr hreplies
    simp only [Call.report,hcancelled,Bool.false_eq_true,if_false,List.length_append,List.length_singleton]
    omega
  | _ =>
    rw [hs] at hstage
    cases hstage

theorem breaks_of_expired (hstage : call.stage = .working) (hexpired : call.expired = true) (hcancelled : call.cancelled = false)
    (hinterrupted : call.interrupted = false) (hreplies : call.replies ≠ []) : Breaks config call := by
  have hstep : step config call (.hookEnd (.error .interrupt)) = some (call.conclude (.error .interrupt)) := by
    simp [step,hstage]
  have hbreaks : Breaks config (call.conclude (.error .interrupt)) := by
    refine breaks_of_failed ?_ hcancelled hinterrupted hreplies
    simp [Call.conclude,hinterrupted,hexpired,Stage.isFailed]
  exact hbreaks.step hstep

theorem Answering.not_interrupted (h : Answering call) (hcancelled : call.cancelled = false) : call.interrupted = false := by
  by_contra hinterrupted
  rw [h.interrupted (Bool.not_eq_false _ ▸ hinterrupted)] at hcancelled
  cases hcancelled

theorem Answering.replies_ne_nil (h : Answering call) (hgiven : call.given ≠ []) : call.replies ≠ [] := by
  cases hreported : call.stage.isReported with
  | true => cases hgiven (h.reported hreported).1
  | false =>
    obtain ⟨hlength,-⟩ := h.replies hreported
    rw [← List.length_pos_iff,hlength]
    exact List.length_pos_iff.mpr hgiven

theorem breaks_of_give {value : V} (h : Answering call) (hsettled : ¬ Settled call (.handle (.ok value)))
    (hstep : step config call (.handle (.ok value)) = some after) : Breaks config after := by
  dsimp only [Grpc.step] at hstep
  split at hstep
  · cases hstep
  rename_i hrunning
  obtain rfl := Option.some.inj hstep
  rw [Call.sendDefault,sendHeaders_eq]
  by_cases hreplies : call.replies = []
  · have hreported : call.stage.isReported = false := by
      by_contra hreported
      have hlength := (h.reported (Bool.not_eq_false _ ▸ hreported)).2
      rw [hreplies] at hlength
      cases hlength
    have hgiven : call.given = [] := by
      have hlength := (h.replies hreported).1
      rw [hreplies] at hlength
      exact List.length_eq_zero_iff.mp hlength.symm
    have hlate : (call.expired = true ∨ call.stage.isFailed = true) ∧ call.cancelled = false := by
      by_contra hlate
      refine hsettled ⟨hgiven,hreported,fun hl => ?_⟩
      by_contra hcancelled
      exact hlate ⟨hl,Bool.not_eq_true _ ▸ hcancelled⟩
    obtain ⟨hlate,hcancelled⟩ := hlate
    have hinterrupted := h.not_interrupted hcancelled
    cases hfailed : call.stage.isFailed with
    | true => exact breaks_of_failed hfailed hcancelled hinterrupted (by simp)
    | false =>
      have hhooked : call.hooked = true := by
        by_contra hhooked
        exact hrunning (h.unhooked (Bool.not_eq_true _ ▸ hhooked)).1
      have hstage : call.stage = .working := by
        cases hs : call.stage with
        | working => rfl
        | entering => cases (h.hooked hhooked).1 hs
        | verifying => cases (h.hooked hhooked).2 hs
        | failed cause =>
          rw [hs] at hfailed
          cases hfailed
        | reported =>
          rw [hs] at hreported
          cases hreported
        | finished =>
          obtain hg | hc := h.finished hs
          · cases hg hgiven
          · cases hcancelled.symm.trans hc
      obtain hexpired | hf := hlate
      · exact breaks_of_expired hstage hexpired hcancelled hinterrupted (by simp)
      · cases hfailed.symm.trans hf
  · apply breaks_of_replies
    have hpos := List.length_pos_iff.mpr hreplies
    simp only [List.length_append,List.length_singleton]
    omega

theorem breaks_of_unsettled (h : Answering call) (hsettled : ¬ Settled call move) (hstep : step config call move = some after) :
    Breaks config after := by
  cases move with
  | handle exit =>
    cases exit with
    | error cause => cases hsettled trivial
    | ok value => exact breaks_of_give h hsettled hstep
  | hookEnd exit =>
    dsimp only [Grpc.step] at hstep
    split at hstep
    swap
    · cases hstep
    obtain rfl := Option.some.inj hstep
    cases exit with
    | error cause =>
      obtain ⟨hgiven,hcancelled⟩ := Classical.not_imp.mp hsettled
      rw [Bool.not_eq_true] at hcancelled
      have hinterrupted := h.not_interrupted hcancelled
      have hexpired : call.expired = false := by
        by_contra hexpired
        rw [h.failing hgiven (Or.inl (Bool.not_eq_false _ ▸ hexpired))] at hcancelled
        cases hcancelled
      refine breaks_of_failed ?_ hcancelled hinterrupted (h.replies_ne_nil hgiven)
      simp [Call.conclude,hinterrupted,hexpired,Stage.isFailed]
    | ok u =>
      rename_i hstage
      obtain ⟨hgiven,hlate⟩ := not_or.mp hsettled
      obtain ⟨hexpired,hcancelled⟩ := not_or.mp hlate
      rw [Bool.not_eq_true] at hcancelled
      have hinterrupted := h.not_interrupted hcancelled
      refine ⟨_,.refl,fun hanswered => ?_⟩
      have hone := hanswered.exactly (by simp [Call.conclude,hinterrupted,hexpired,Stage.isOver]) hcancelled
      have hlength : call.replies.length = call.given.length := (h.replies (by rw [hstage]; rfl)).1
      rw [not_not.mp hgiven] at hlength
      exact absurd (hlength.symm.trans hone) (by simp)
  | expire =>
    obtain ⟨hgiven,hcancelled⟩ := Classical.not_imp.mp hsettled
    rw [Bool.not_eq_true] at hcancelled
    have hnil := fun hs => hgiven (h.given_nil hs).2
    dsimp only [Grpc.step] at hstep
    split at hstep
    · cases hstep
    split at hstep
    · rename_i hstage
      cases hnil (Or.inl hstage)
    · rename_i hstage
      cases hnil (Or.inr hstage)
    · rename_i hstage
      obtain rfl := Option.some.inj hstep
      exact breaks_of_expired hstage rfl hcancelled (h.not_interrupted hcancelled) (h.replies_ne_nil hgiven)
    · cases hstep
  | _ => cases hsettled trivial

end Broken

/-- In runs of settled steps a call is answered once, and a step that is not settled leads, in such a run,
  to a call that is not. -/
theorem answeredOnce_settled (config : Config E) :
    (∀ call : Call E V, (invoke config).Reaches Settled call → AnsweredOnce call) ∧
    ∀ (call after : Call E V) (move : Move E V), (invoke config).Reaches Settled call → step config call move = some after →
      ¬ Settled call move → ∃ last, (invoke config).Leads (fun _ _ => True) after last ∧ ¬ AnsweredOnce last :=
  ⟨fun _ h => (reaches_answering h).once,fun _ _ _ h hstep hsettled => breaks_of_unsettled (reaches_answering h) hsettled hstep⟩

/-- The hook fails after the work, say at a commit. -/
theorem answered_twice : ¬ ∀ call : Call Unit Unit, (invoke ⟨"id",false,false,fun _ => none⟩).Reachable call →
    AnsweredOnce call := by
  intro h
  have hrun : ((invoke ⟨"id",false,false,fun _ => none⟩).run
      [.enter,.verify (.ok ()),.runWork,.handle (.ok ()),.hookEnd (.error (.fail (.other ()))),.report] :
        Option (Call Unit Unit)).isSome :=
    rfl
  obtain ⟨call,hcall⟩ := Option.isSome_iff_exists.mp hrun
  have honce := (h call (System.run_reachable hcall)).atMost
  have hcalls := Option.some.inj (hcall.symm.trans rfl)
  rw [hcalls] at honce
  exact absurd honce (by decide)

end StructureAi.Grpc

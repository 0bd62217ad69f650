import StructureAi.Foundation.Program

/-! # Calls and the log of their answers

Whatever a program is answered, it asks only for what rests on its own past; the calls of a
service follow their rules along every run, and take nothing twice. Where the world keeps a log
of all that was answered, the past of every call stands in the log, in its order, and the log is
shared out among the calls: what is answered once is in one past.
-/
namespace StructureAi.Foundation
variable {Op : Type} {Reply : Op → Type} {α β ε : Type}

namespace Program

/-- Whatever it is answered, the program asks only for what rests on its past, and ends as asked. -/
def Follows (may : List (Answered Op Reply) → Op → Prop) (ends : List (Answered Op Reply) → α → Prop) :
    Program Op Reply α → List (Answered Op Reply) → Prop
  | done a,past => ends past a
  | ask op next,past => may past op ∧ ∀ reply, Follows may ends (next reply) (⟨op,reply⟩ :: past)

variable {may : List (Answered Op Reply) → Op → Prop} {past : List (Answered Op Reply)}

theorem Follows.mono {ends ends' : List (Answered Op Reply) → α → Prop} (h : ∀ past a, ends past a → ends' past a)
    {p : Program Op Reply α} (hp : Follows may ends p past) : Follows may ends' p past := by
  induction p generalizing past with
  | done a => exact h past a hp
  | ask op next ih => exact ⟨hp.1,fun reply => ih reply (hp.2 reply)⟩

theorem Follows.bind {ends : List (Answered Op Reply) → β → Prop} {p : Program Op Reply α} {f : α → Program Op Reply β}
    (hp : Follows may (fun past a => Follows may ends (f a) past) p past) : Follows may ends (p >>= f) past := by
  induction p generalizing past with
  | done a => exact hp
  | ask op next ih => exact ⟨hp.1,fun reply => ih reply (hp.2 reply)⟩

/-- `Follows`, for a program that may fail: what holds when it returns. -/
def Yields (may : List (Answered Op Reply) → Op → Prop) (ok : List (Answered Op Reply) → α → Prop)
    (x : ExceptT ε (Program Op Reply) α) (past : List (Answered Op Reply)) : Prop :=
  Follows may (fun past r => ∀ a, r = Except.ok a → ok past a) x past

section Failing
variable {ok ok' : List (Answered Op Reply) → α → Prop}

theorem Yields.pure {a : α} (h : ok past a) : Yields may ok (Pure.pure a : ExceptT ε (Program Op Reply) α) past := by
  intro b hb
  cases hb
  exact h

theorem Yields.throw {e : ε} : Yields may ok (MonadExcept.throw e : ExceptT ε (Program Op Reply) α) past := by
  intro b hb
  cases hb

theorem Yields.bind {ok : List (Answered Op Reply) → β → Prop} {x : ExceptT ε (Program Op Reply) α}
    {f : α → ExceptT ε (Program Op Reply) β} (h : Yields may (fun past a => Yields may ok (f a) past) x past) :
    Yields may ok (x >>= f) past := by
  apply Follows.bind
  refine Follows.mono ?_ h
  intro past r hr
  cases r with
  | ok a => exact hr a rfl
  | error e =>
    intro b hb
    cases hb

theorem Yields.mono {x : ExceptT ε (Program Op Reply) α} (h : Yields may ok x past)
    (hok : ∀ past a, ok past a → ok' past a) : Yields may ok' x past := by
  refine Follows.mono ?_ h
  intro past r hr a ha
  exact hok past a (hr a ha)

theorem Yields.map {ok : List (Answered Op Reply) → β → Prop} {x : ExceptT ε (Program Op Reply) α} {f : α → β}
    (h : Yields may (fun past a => ok past (f a)) x past) : Yields may ok (f <$> x) past := by
  apply Follows.bind
  refine Follows.mono ?_ h
  intro past r hr
  cases r with
  | ok a =>
    intro b hb
    cases hb
    exact hr a rfl
  | error e =>
    intro b hb
    cases hb

theorem Yields.lift {op : Op} {ok : List (Answered Op Reply) → Reply op → Prop} (hmay : may past op)
    (h : ∀ reply, ok (⟨op,reply⟩ :: past) reply) :
    Yields may ok (ExceptT.lift (perform op) : ExceptT ε (Program Op Reply) (Reply op)) past := by
  refine ⟨hmay,fun reply a ha => ?_⟩
  cases ha
  exact h reply

end Failing

section Settling
variable {ok ok' : List (Answered Op Reply) → α → Prop} {error error' : List (Answered Op Reply) → ε → Prop}

/-- What holds when a program that may fail returns, and when it fails. -/
def Outcome (ok : List (Answered Op Reply) → α → Prop) (error : List (Answered Op Reply) → ε → Prop)
    (past : List (Answered Op Reply)) : Except ε α → Prop
  | .ok a => ok past a
  | .error e => error past e

/-- `Follows`, for a program that may fail. -/
def Settles (may : List (Answered Op Reply) → Op → Prop) (ok : List (Answered Op Reply) → α → Prop)
    (error : List (Answered Op Reply) → ε → Prop) (x : ExceptT ε (Program Op Reply) α)
      (past : List (Answered Op Reply)) : Prop :=
  Follows may (Outcome ok error) x past

theorem Settles.pure {a : α} (h : ok past a) : Settles may ok error (Pure.pure a : ExceptT ε (Program Op Reply) α) past := h

theorem Settles.throw {e : ε} (h : error past e) :
    Settles may ok error (MonadExcept.throw e : ExceptT ε (Program Op Reply) α) past := h

theorem Settles.bind {ok : List (Answered Op Reply) → β → Prop} {x : ExceptT ε (Program Op Reply) α}
    {f : α → ExceptT ε (Program Op Reply) β} (h : Settles may (fun past a => Settles may ok error (f a) past) error x past) :
    Settles may ok error (x >>= f) past := by
  apply Follows.bind
  refine Follows.mono ?_ h
  intro past r hr
  cases r with
  | ok a => exact hr
  | error e => exact hr

theorem Settles.map {ok : List (Answered Op Reply) → β → Prop} {x : ExceptT ε (Program Op Reply) α} {f : α → β}
    (h : Settles may (fun past a => ok past (f a)) error x past) : Settles may ok error (f <$> x) past := by
  rw [map_eq_pure_bind]
  apply Settles.bind
  exact h

theorem Settles.tryCatch {x : ExceptT ε (Program Op Reply) α} {f : ε → ExceptT ε (Program Op Reply) α}
    (h : Settles may ok (fun past e => Settles may ok error (f e) past) x past) : Settles may ok error (tryCatch x f) past := by
  apply Follows.bind
  refine Follows.mono ?_ h
  intro past r hr
  cases r with
  | ok a => exact hr
  | error e => exact hr

theorem Settles.ite {c : Prop} [Decidable c] {x y : ExceptT ε (Program Op Reply) α} (hx : c → Settles may ok error x past)
    (hy : ¬c → Settles may ok error y past) : Settles may ok error (if c then x else y) past := by
  by_cases hc : c
  · rw [if_pos hc]
    exact hx hc
  · rw [if_neg hc]
    exact hy hc

theorem Settles.mono {x : ExceptT ε (Program Op Reply) α} (h : Settles may ok error x past)
    (hok : ∀ past a, ok past a → ok' past a) (herror : ∀ past e, error past e → error' past e) :
      Settles may ok' error' x past := by
  refine Follows.mono ?_ h
  intro past r hr
  cases r with
  | ok a => exact hok past a hr
  | error e => exact herror past e hr

theorem Settles.lift {op : Op} {ok : List (Answered Op Reply) → Reply op → Prop} (hmay : may past op)
    (h : ∀ reply, ok (⟨op,reply⟩ :: past) reply) :
    Settles may ok error (ExceptT.lift (perform op) : ExceptT ε (Program Op Reply) (Reply op)) past := ⟨hmay,h⟩

end Settling

/-- Every operation of the past was asked for as the rules say. -/
def Lawful (may : List (Answered Op Reply) → Op → Prop) : List (Answered Op Reply) → Prop
  | [] => True
  | a :: past => may past a.op ∧ Lawful may past

theorem Lawful.suffix {past' : List (Answered Op Reply)} (h : Lawful may past) (hs : past' <:+ past) : Lawful may past' := by
  induction past with
  | nil => exact List.suffix_nil.mp hs ▸ h
  | cons a past ih =>
    rcases List.suffix_cons_iff.mp hs with rfl | hs
    · exact h
    · exact ih h.2 hs

theorem Lawful.asked {a : Answered Op Reply} (h : Lawful may past) (ha : a ∈ past) : ∃ earlier, a :: earlier <:+ past ∧
    may earlier a.op := by
  obtain ⟨later,earlier,rfl⟩ := List.append_of_mem ha
  exact ⟨earlier,List.suffix_append _ _,(h.suffix (List.suffix_append later _)).1⟩

end Program

section Ruling
variable {Call A W E : Type} {service : Service Op Reply Call A W E} (may : Call → List (Answered Op Reply) → Op → Prop)
  (ends : Call → List (Answered Op Reply) → A → Prop)

/-- The calls followed their rules so far, those in flight go on to, and those that are done ended as asked. -/
structure Ruled (s : Pool Op Reply Call A W) : Prop where
  lawful : ∀ call past, s.Was call past → Program.Lawful (may call) past
  fibers : ∀ i f, s.fibers i = some f → Program.Follows (may f.call) (ends f.call) (.ask f.op f.next) f.past
  ended : ∀ e ∈ s.ended, ends e.call e.past e.answer

variable {may ends} {s s' : Pool Op Reply Call A W} {turn : Turn Call E}

theorem ruled_start (w : W) : Ruled may ends (.start w : Pool Op Reply Call A W) := by
  constructor
  · rintro call past (⟨i,f,hf,-⟩ | ⟨e,he,-⟩)
    · cases hf
    · cases he
  · intro i f hf
    cases hf
  · intro e he
    cases he

theorem Ruled.asks (h : Ruled may ends s) {i : ℕ} {f : Running Op Reply Call A} (hf : s.fibers i = some f) :
    may f.call f.past f.op := (h.fibers i f hf).1

theorem Ruled.place (h : Ruled may ends s) {w : W} {i : ℕ} {call : Call} {past : List (Answered Op Reply)}
    {p : Program Op Reply A}
    (hp : Program.Follows (may call) (ends call) p past) (hl : Program.Lawful (may call) past) :
    Ruled may ends (Pool.place {s with world := w} i call past p) := by
  constructor
  · intro call' past' hwas
    rcases Pool.was_place hwas with ⟨rfl,rfl⟩ | hold
    · exact hl
    · exact h.lawful call' past' hold
  · intro j f hf
    rcases Pool.place_fibers hf with ⟨-,op,next,rfl,rfl⟩ | ⟨-,hold⟩
    · exact hp
    · exact h.fibers j f hold
  · intro e he
    rcases Pool.place_ended he with ⟨a,rfl,rfl⟩ | hold
    · exact hp
    · exact h.ended e hold

theorem Ruled.step (hprogram : ∀ call, Program.Follows (may call) (ends call) (service.program call) []) (h : Ruled may ends s)
    (hs : service.step s turn = some s') : Ruled may ends s' := by
  rcases Service.step_cases hs with ⟨i,call,rfl,-,rfl⟩ | ⟨i,f,rfl,hf,rfl⟩ | ⟨e,rfl,rfl⟩
  · exact h.place (hprogram call) trivial
  · have hfollows := h.fibers i f hf
    exact h.place (hfollows.2 _) ⟨hfollows.1,h.lawful _ _ (Or.inl ⟨i,f,hf,rfl,rfl⟩)⟩
  · exact ⟨h.lawful,h.fibers,h.ended⟩

theorem ruled_of_reaches (hprogram : ∀ call, Program.Follows (may call) (ends call) (service.program call) [])
    {allow : Pool Op Reply Call A W → Turn Call E → Prop} {init : W} (hr : (service.system init).Reaches allow s) :
      Ruled may ends s := by
  apply hr.invariant (Ruled may ends) (ruled_start init)
  intro a turn b h _ hs
  exact h.step hprogram hs

end Ruling

section Drawing
variable {Call A W E T : Type} {service : Service Op Reply Call A W E}

/-- A discipline that asks nothing of the programs; what is given of the turns is all. -/
def looseDiscipline (service : Service Op Reply Call A W E) (given : Op → W → Prop) : Discipline service where
  inv _ := True
  rely _ _ _ := True
  given _ _ _ op w := given op w
  may _ _ _ _ _ := True
  refl _ _ := trivial
  trans _ _ _ _ _ _ := trivial
  keeps _ _ _ _ _ _ _ _ := trivial
  frames _ _ _ _ _ _ _ _ _ _ := trivial
  outside_inv _ _ _ := trivial
  outside_rely _ _ _ _ := trivial

variable {given : Op → W → Prop}

theorem along_loose (i : ℕ) (call : Call) (p : Program Op Reply α) (past : List (Answered Op Reply)) (w : W) :
    (looseDiscipline service given).Along i call (fun _ _ _ => True) p past w := by
  induction p generalizing past w with
  | done a => trivial
  | ask op next ih => exact fun w' _ _ _ => ⟨trivial,ih _ _ _⟩

variable {K : (looseDiscipline service given).Taking T} {s s' : Pool Op Reply Call A W} {turn : Turn Call E}

theorem kept_loose : (looseDiscipline service given).Kept (fun _ _ _ _ _ => True) s :=
  ⟨trivial,fun i f _ => along_loose i f.call _ f.past s.world⟩

/-- What is taken is taken by one call, and once. -/
structure Apart (K : (looseDiscipline service given).Taking T) (s : Pool Op Reply Call A W) : Prop where
  exclusive : K.Exclusive s
  once : ∀ call past, s.Was call past → (K.taken call past).Nodup

theorem apart_start (w : W) : Apart K (.start w) := by
  refine ⟨Discipline.Taking.exclusive_start w,?_⟩
  rintro call past (⟨i,f,hf,-⟩ | ⟨e,he,-⟩)
  · cases hf
  · cases he

theorem Apart.step (h : Apart K s) (hgiven : (looseDiscipline service given).Given s turn) (hs : service.step s turn = some s') :
    Apart K s' := by
  refine ⟨h.exclusive.step kept_loose hgiven hs,?_⟩
  intro call past hwas
  rcases Service.was_step hs hwas with rfl | hold | ⟨i,f,rfl,hf,rfl,rfl⟩
  · exact List.nodup_nil
  · exact h.once call past hold
  · have hself : s.Was f.call f.past := Or.inl ⟨i,f,hf,rfl,rfl⟩
    have hold := h.once _ _ hself
    unfold Discipline.Taking.taken at hold ⊢
    rw [List.filterMap_cons]
    cases ht : K.takes f.call ⟨f.op,(service.handle i f.call f.op s.world).1⟩ with
    | none => exact hold
    | some t =>
      have hfresh := (K.fresh i f.call f.past f.op s.world t trivial (hgiven i f rfl hf) trivial ht).1
      exact List.nodup_cons.mpr ⟨fun hin => hfresh (h.exclusive.spent _ _ hself t hin),hold⟩

theorem apart_of_reaches (K : (looseDiscipline service given).Taking T) {allow : Pool Op Reply Call A W → Turn Call E → Prop}
    (hallow : ∀ s turn, allow s turn → (looseDiscipline service given).Given s turn) {init : W}
    (hr : (service.system init).Reaches allow s) : Apart K s := by
  apply hr.invariant (Apart K) (apart_start init)
  intro a turn b h hl hs
  exact h.step (hallow a turn hl) hs

theorem Apart.countP_le_one (h : Apart K s) {t : T} {P : Ended Op Reply Call A → Bool}
    (hP : ∀ e ∈ s.ended, P e = true → t ∈ K.taken e.call e.past) : s.ended.countP P ≤ 1 := by
  have hpairwise := h.exclusive.ended
  generalize s.ended = es at hP hpairwise
  induction es with
  | nil => exact Nat.zero_le 1
  | cons e es ih =>
    obtain ⟨hhead,htail⟩ := List.pairwise_cons.mp hpairwise
    by_cases he : P e = true
    · have hnone : es.countP P = 0 := by
        rw [List.countP_eq_zero]
        intro e' hin hP'
        exact hhead e' hin (hP e List.mem_cons_self he) (hP e' (List.mem_cons_of_mem _ hin) hP')
      rw [List.countP_cons_of_pos he,hnone]
    · rw [List.countP_cons_of_neg he]
      exact ih (fun e' hin => hP e' (List.mem_cons_of_mem _ hin)) htail

theorem runFrom_free {turns : List (Turn Call E)} {i : ℕ} {init : W} (hi : ∀ call, .arrive i call ∉ turns)
    (hfree : s.fibers i = none)
    (h : (service.system init).runFrom s turns = some s') : s'.fibers i = none := by
  induction turns generalizing s with
  | nil =>
    obtain rfl : s = s' := Option.some.inj h
    exact hfree
  | cons turn turns ih =>
    obtain ⟨t,ht,hrest⟩ := Option.bind_eq_some_iff.mp h
    refine ih (fun call hin => hi call (List.mem_cons_of_mem _ hin)) ?_ hrest
    rcases Service.step_cases ht with ⟨j,call,rfl,-,rfl⟩ | ⟨j,f,rfl,hf,rfl⟩ | ⟨e,rfl,rfl⟩
    · have hne : i ≠ j := by
        rintro rfl
        exact hi call List.mem_cons_self
      rw [Pool.place_of_ne hne]
      exact hfree
    · have hne : i ≠ j := by
        rintro rfl
        rw [hfree] at hf
        cases hf
      exact (Pool.place_of_ne hne).trans hfree
    · exact hfree

theorem quiet_of_run {turns : List (Turn Call E)} {n : ℕ} {init : W} (hplaces : ∀ i call, .arrive i call ∈ turns → i < n)
    (h : (service.system init).run turns = some s) (hfree : ∀ i < n, s.fibers i = none) : s.Quiet := by
  intro i
  by_cases hi : i < n
  · exact hfree i hi
  · exact runFrom_free (fun call hin => hi (hplaces i call hin)) rfl h

end Drawing

section Logs
variable {Call A W E : Type}

/-- What an operation of a call was answered. -/
structure Entry (Op : Type) (Reply : Op → Type) (Call : Type) where
  call : Call
  answered : Answered Op Reply

/-- A state, and what was answered so far, the latest first. -/
structure Logged (Op : Type) (Reply : Op → Type) (Call W : Type) where
  state : W
  log : List (Entry Op Reply Call)

def entriesOf (call : Call) (past : List (Answered Op Reply)) : List (Entry Op Reply Call) := past.map fun a => ⟨call,a⟩

/-- The past of a call stands in the log, in its order. -/
def Recorded (call : Call) (past : List (Answered Op Reply)) (log : List (Entry Op Reply Call)) : Prop :=
  (entriesOf call past).Sublist log

theorem Recorded.mem {call : Call} {past : List (Answered Op Reply)} {log : List (Entry Op Reply Call)}
    (h : Recorded call past log) {a : Answered Op Reply} (ha : a ∈ past) : ⟨call,a⟩ ∈ log :=
  h.subset (List.mem_map.mpr ⟨a,ha,rfl⟩)

/-- Programs over a state, and the log of what they are answered. -/
def loggedService (program : Call → Program Op Reply A) (answer : ℕ → (op : Op) → W → Reply op × W) (outside : E → W → W) :
    Service Op Reply Call A (Logged Op Reply Call W) E where
  program := program
  handle _ call op w :=
    let answered := answer w.log.length op w.state
    (answered.1,⟨answered.2,⟨call,⟨op,answered.1⟩⟩ :: w.log⟩)
  outside e w := {w with state := outside e w.state}

variable {program : Call → Program Op Reply A} {answer : ℕ → (op : Op) → W → Reply op × W} {outside : E → W → W}
  {s s' : Pool Op Reply Call A (Logged Op Reply Call W)} {turn : Turn Call E}

abbrev Logged.after (w : Logged Op Reply Call W) (answer : ℕ → (op : Op) → W → Reply op × W) (call : Call) (op : Op) :
    Logged Op Reply Call W :=
  ⟨(answer w.log.length op w.state).2,⟨call,⟨op,(answer w.log.length op w.state).1⟩⟩ :: w.log⟩

section Rules
variable (may : Call → List (Answered Op Reply) → Op → Prop) (ends : Call → List (Answered Op Reply) → A → Prop)

/-- The calls in flight follow their rules, those that are done ended as asked, and the log has their pasts. -/
structure Historic (s : Pool Op Reply Call A (Logged Op Reply Call W)) : Prop where
  fibers : ∀ i f, s.fibers i = some f → Program.Follows (may f.call) (ends f.call) (.ask f.op f.next) f.past ∧
    Recorded f.call f.past s.world.log
  ended : ∀ e ∈ s.ended, ends e.call e.past e.answer ∧ Recorded e.call e.past s.world.log

variable {may ends}

theorem historic_start (w : Logged Op Reply Call W) : Historic may ends (.start w : Pool Op Reply Call A _) := by
  constructor
  · intro i f hf
    cases hf
  · intro e he
    cases he

theorem Historic.place (h : Historic may ends s) {w : Logged Op Reply Call W} (hlog : s.world.log <:+ w.log) {i : ℕ}
    {call : Call} {past : List (Answered Op Reply)} {p : Program Op Reply A}
    (hp : Program.Follows (may call) (ends call) p past) (hr : Recorded call past w.log) :
    Historic may ends (Pool.place {s with world := w} i call past p) := by
  constructor
  · intro j f hf
    rw [Pool.place_world]
    rcases Pool.place_fibers hf with ⟨-,op,next,rfl,rfl⟩ | ⟨-,hold⟩
    · exact ⟨hp,hr⟩
    · obtain ⟨hfollows,hrec⟩ := h.fibers j f hold
      exact ⟨hfollows,hrec.trans hlog.sublist⟩
  · intro e he
    rw [Pool.place_world]
    rcases Pool.place_ended he with ⟨a,rfl,rfl⟩ | hold
    · exact ⟨hp,hr⟩
    · obtain ⟨hends,hrec⟩ := h.ended e hold
      exact ⟨hends,hrec.trans hlog.sublist⟩

theorem Historic.step (hprogram : ∀ call, Program.Follows (may call) (ends call) (program call) [])
    (h : Historic may ends s) (hs : (loggedService program answer outside).step s turn = some s') :
    Historic may ends s' := by
  rcases Service.step_cases hs with ⟨i,call,rfl,-,rfl⟩ | ⟨i,f,rfl,hf,rfl⟩ | ⟨e,rfl,rfl⟩
  · exact h.place (List.suffix_refl _) (hprogram call) (List.nil_sublist _)
  · obtain ⟨hfollows,hrec⟩ := h.fibers i f hf
    exact h.place (List.suffix_cons _ _) (hfollows.2 _) (hrec.cons_cons _)
  · exact ⟨h.fibers,h.ended⟩

/-- What is given of a turn, of the operation it performs. -/
def GivenTurn (given : Call → Op → Logged Op Reply Call W → Prop) (s : Pool Op Reply Call A (Logged Op Reply Call W))
    (turn : Turn Call E) : Prop :=
  ∀ i f, turn = .resume i → s.fibers i = some f → given f.call f.op s.world

theorem historic_invariant (hprogram : ∀ call, Program.Follows (may call) (ends call) (program call) [])
    {allow : Pool Op Reply Call A (Logged Op Reply Call W) → Turn Call E → Prop}
    {given : Call → Op → Logged Op Reply Call W → Prop} (hallow : ∀ s turn, allow s turn → GivenTurn given s turn)
    {J : Logged Op Reply Call W → Prop} {init : Logged Op Reply Call W} (hinit : J init)
    (houtside : ∀ e w, J w → J {w with state := outside e w.state})
    (hop : ∀ call past op w, J w → Recorded call past w.log → may call past op → given call op w → J (w.after answer call op))
    (hr : ((loggedService program answer outside).system init).Reaches allow s) : J s.world ∧ Historic may ends s := by
  apply hr.invariant (fun s => J s.world ∧ Historic may ends s) ⟨hinit,historic_start init⟩
  rintro a turn b ⟨hJ,hh⟩ hl hs
  refine ⟨?_,hh.step hprogram hs⟩
  rcases Service.step_cases hs with ⟨i,call,rfl,-,rfl⟩ | ⟨i,f,rfl,hf,rfl⟩ | ⟨e,rfl,rfl⟩
  · rw [Pool.place_world]
    exact hJ
  · obtain ⟨hfollows,hrec⟩ := hh.fibers i f hf
    rw [Service.resumed_world]
    exact hop f.call f.past f.op a.world hJ hrec hfollows.1 (hallow a _ hl i f rfl hf)
  · exact houtside e a.world hJ

end Rules

section Sharing

/-- The log is shared out among the calls: those that are done have their pasts of it, those in flight the rest. -/
def Shared (s : Pool Op Reply Call A (Logged Op Reply Call W)) (rest : List (ℕ × Entry Op Reply Call)) : Prop :=
  s.world.log.Perm (s.ended.flatMap (fun e => entriesOf e.call e.past) ++ rest.map Prod.snd) ∧
    ∀ i, (rest.filter fun r => r.1 = i).map Prod.snd = (s.fibers i).elim [] fun f => entriesOf f.call f.past

theorem Shared.place (rest : List (ℕ × Entry Op Reply Call)) {w : Logged Op Reply Call W} {i : ℕ} {call : Call}
    {past : List (Answered Op Reply)} {p : Program Op Reply A}
    (hperm : w.log.Perm (s.ended.flatMap (fun e => entriesOf e.call e.past) ++ rest.map Prod.snd))
    (hself : (rest.filter fun r => r.1 = i).map Prod.snd = entriesOf call past)
    (hothers : ∀ j, j ≠ i → (rest.filter fun r => r.1 = j).map Prod.snd = (s.fibers j).elim [] fun f =>
      entriesOf f.call f.past) :
    ∃ rest', Shared (Pool.place {s with world := w} i call past p) rest' := by
  cases p with
  | done a =>
    refine ⟨rest.filter fun r => ¬ r.1 = i,?_,?_⟩
    · refine hperm.trans ?_
      have hsplit := (List.filter_append_perm (fun r : ℕ × Entry Op Reply Call => decide (r.1 = i)) rest).symm.map Prod.snd
      rw [List.map_append,hself] at hsplit
      have hall := hsplit.append_left (s.ended.flatMap fun e => entriesOf e.call e.past)
      refine hall.trans ?_
      simp only [Pool.place,List.flatMap_cons,← List.append_assoc,← decide_not]
      exact List.perm_append_comm.append_right _
    · intro j
      rw [List.filter_filter]
      by_cases hj : j = i
      · subst hj
        have hnone : (Pool.place {s with world := w} j call past (.done a)).fibers j = none := by
          simp [Pool.place,Fibers.remove]
        rw [hnone]
        simp
      · rw [Pool.place_of_ne hj,← hothers j hj]
        congr 1
        apply List.filter_congr
        intro r _
        by_cases hr : r.1 = j
        · simp [hr,hj]
        · simp [hr]
  | ask op next =>
    refine ⟨rest,hperm,?_⟩
    intro j
    by_cases hj : j = i
    · subst hj
      rw [hself]
      simp [Pool.place]
    · rw [Pool.place_of_ne hj]
      exact hothers j hj

theorem Shared.step {rest : List (ℕ × Entry Op Reply Call)} (h : Shared s rest)
    (hs : (loggedService program answer outside).step s turn = some s') : ∃ rest', Shared s' rest' := by
  rcases Service.step_cases hs with ⟨i,call,rfl,hi,rfl⟩ | ⟨i,f,rfl,hf,rfl⟩ | ⟨e,rfl,rfl⟩
  · apply Shared.place _ h.1
    · rw [h.2 i,hi]
      rfl
    · exact fun j _ => h.2 j
  · have hfi := h.2 i
    rw [hf] at hfi
    apply Shared.place ((i,⟨f.call,⟨f.op,(answer s.world.log.length f.op s.world.state).1⟩⟩) :: rest)
    · refine (h.1.cons _).trans ?_
      exact List.perm_middle.symm
    · rw [List.filter_cons_of_pos (by simp),List.map_cons,hfi]
      rfl
    · intro j hj
      rw [List.filter_cons_of_neg (by simpa using Ne.symm hj),h.2 j]
  · exact ⟨rest,h⟩

theorem shared {allow : Pool Op Reply Call A (Logged Op Reply Call W) → Turn Call E → Prop} {w : W}
    (hr : ((loggedService program answer outside).system ⟨w,[]⟩).Reaches allow s) : ∃ rest, Shared s rest := by
  apply hr.invariant (fun s => ∃ rest, Shared s rest)
  · refine ⟨[],List.Perm.refl _,?_⟩
    intro i
    rfl
  · rintro a turn b ⟨rest,h⟩ _ hs
    exact h.step hs

theorem countP_ended {P : Ended Op Reply Call A → Bool} {q : Entry Op Reply Call → Bool} {es : List (Ended Op Reply Call A)}
    (h : ∀ e ∈ es, P e = true → ∃ a ∈ e.past, q ⟨e.call,a⟩ = true) :
    es.countP P ≤ (es.flatMap fun e => entriesOf e.call e.past).countP q := by
  induction es with
  | nil => exact Nat.le_refl 0
  | cons e es ih =>
    have hrest := ih fun e' he' => h e' (List.mem_cons_of_mem _ he')
    rw [List.flatMap_cons,List.countP_append,List.countP_cons]
    by_cases hP : P e = true
    · obtain ⟨a,ha,hq⟩ := h e List.mem_cons_self hP
      have hpos : 0 < (entriesOf e.call e.past).countP q :=
        List.countP_pos_iff.mpr ⟨_,List.mem_map.mpr ⟨a,ha,rfl⟩,hq⟩
      rw [if_pos hP]
      omega
    · rw [if_neg hP]
      omega

/-- Calls that are done on the ground of an answer of a kind are no more than the answers of that kind. -/
theorem ended_le_answered {allow : Pool Op Reply Call A (Logged Op Reply Call W) → Turn Call E → Prop} {w : W}
    (hr : ((loggedService program answer outside).system ⟨w,[]⟩).Reaches allow s)
    {P : Ended Op Reply Call A → Bool} {q : Entry Op Reply Call → Bool}
    (h : ∀ e ∈ s.ended, P e = true → ∃ a ∈ e.past, q ⟨e.call,a⟩ = true) : s.ended.countP P ≤ s.world.log.countP q := by
  obtain ⟨rest,hperm,-⟩ := shared hr
  have hle := countP_ended h
  rw [hperm.countP_eq q,List.countP_append]
  omega

end Sharing
end Logs
end StructureAi.Foundation

import StructureAi.Foundation.Fibers
import StructureAi.Foundation.Run

/-! # Programs over operations

A program asks for operations, one at a time, and goes on with their replies. Run alone it
asks a handler until it is done; in a pool, any number of them take turns, one operation a
turn, and each carries what it was answered so far. A discipline says what a turn may ask for
and what the others leave alone meanwhile; programs that keep it on their own keep it in the
pool. What is taken from the world, and can be taken once, is taken by one call at most.
-/
namespace StructureAi.Foundation

inductive Program (Op : Type) (Reply : Op → Type) (α : Type) where
  | done (a : α)
  | ask (op : Op) (next : Reply op → Program Op Reply α)

namespace Program
variable {Op : Type} {Reply : Op → Type} {α β γ : Type}

def bind : Program Op Reply α → (α → Program Op Reply β) → Program Op Reply β
  | done a,f => f a
  | ask op next,f => ask op fun r => bind (next r) f

instance : Monad (Program Op Reply) where
  pure := done
  bind := bind

def perform (op : Op) : Program Op Reply (Reply op) := ask op done

@[simp] theorem pure_eq (a : α) : (pure a : Program Op Reply α) = done a := rfl

@[simp] theorem done_bind (a : α) (f : α → Program Op Reply β) : (done a >>= f) = f a := rfl

@[simp] theorem ask_bind (op : Op) (next : Reply op → Program Op Reply α) (f : α → Program Op Reply β) :
    (ask op next >>= f) = ask op fun r => next r >>= f := rfl

@[simp] theorem perform_bind (op : Op) (f : Reply op → Program Op Reply β) :
    (perform op >>= f) = ask op f := rfl

theorem bind_done (p : Program Op Reply α) : p >>= done = p := by
  induction p with
  | done a => rfl
  | ask op next ih =>
    rw [ask_bind]
    congr 1
    funext r
    exact ih r

theorem bind_assoc (p : Program Op Reply α) (f : α → Program Op Reply β) (g : β → Program Op Reply γ) :
    p >>= f >>= g = p >>= fun a => f a >>= g := by
  induction p with
  | done a => rfl
  | ask op next ih =>
    simp only [ask_bind]
    congr 1
    funext r
    exact ih r

instance : LawfulMonad (Program Op Reply) :=
  LawfulMonad.mk' _ bind_done (fun _ _ => rfl) bind_assoc

section Running
variable {W V : Type}

abbrev Handler (Op : Type) (Reply : Op → Type) (W : Type) := (op : Op) → W → Reply op × W

def run (h : Handler Op Reply W) : Program Op Reply α → W → α × W
  | done a,w => (a,w)
  | ask op next,w => run h (next (h op w).1) (h op w).2

variable {h : Handler Op Reply W} {k : Handler Op Reply V}

@[simp] theorem run_done (a : α) (w : W) : run h (done a) w = (a,w) := rfl

@[simp] theorem run_ask (op : Op) (next : Reply op → Program Op Reply α) (w : W) :
    run h (ask op next) w = run h (next (h op w).1) (h op w).2 := rfl

@[simp] theorem run_bind (p : Program Op Reply α) (f : α → Program Op Reply β) (w : W) :
    run h (p >>= f) w = run h (f (run h p w).1) (run h p w).2 := by
  induction p generalizing w with
  | done a => rfl
  | ask op next ih =>
    rw [ask_bind,run_ask,run_ask,ih]

end Running
end Program

variable {Op : Type} {Reply : Op → Type} {α β : Type}

section Pools
variable {W Call A E : Type}

/-- An operation and the reply it got. -/
structure Answered (Op : Type) (Reply : Op → Type) where
  op : Op
  reply : Reply op

/-- A call in flight: what it was answered so far, the latest first, and what it asks for next. -/
structure Running (Op : Type) (Reply : Op → Type) (Call A : Type) where
  call : Call
  past : List (Answered Op Reply)
  op : Op
  next : Reply op → Program Op Reply A

/-- A call that is done. -/
structure Ended (Op : Type) (Reply : Op → Type) (Call A : Type) where
  call : Call
  past : List (Answered Op Reply)
  answer : A

structure Pool (Op : Type) (Reply : Op → Type) (Call A W : Type) where
  world : W
  fibers : Fibers (Running Op Reply Call A)
  ended : List (Ended Op Reply Call A)

/-- A call arrives at a free place, the program at a place takes its turn, or the environment acts. -/
inductive Turn (Call E : Type) where
  | arrive (i : ℕ) (call : Call)
  | resume (i : ℕ)
  | outside (e : E)

/-- What a pool runs: the program of every call, and the handler at every place. -/
structure Service (Op : Type) (Reply : Op → Type) (Call A W E : Type) where
  program : Call → Program Op Reply A
  handle : ℕ → Call → Program.Handler Op Reply W
  outside : E → W → W

namespace Pool
variable {s : Pool Op Reply Call A W} {i j : ℕ} {call : Call} {past : List (Answered Op Reply)} {p : Program Op Reply A}

def start (w : W) : Pool Op Reply Call A W := ⟨w,Fibers.empty,[]⟩

def place (s : Pool Op Reply Call A W) (i : ℕ) (call : Call) (past : List (Answered Op Reply)) :
    Program Op Reply A → Pool Op Reply Call A W
  | .done a => {s with fibers := s.fibers.remove i, ended := ⟨call,past,a⟩ :: s.ended}
  | .ask op next => {s with fibers := s.fibers.set i ⟨call,past,op,next⟩}

def Quiet (s : Pool Op Reply Call A W) : Prop := ∀ i, s.fibers i = none

/-- A call, in flight or done, was answered so. -/
def Was (s : Pool Op Reply Call A W) (call : Call) (past : List (Answered Op Reply)) : Prop :=
  (∃ i f, s.fibers i = some f ∧ f.call = call ∧ f.past = past) ∨ ∃ e ∈ s.ended, e.call = call ∧ e.past = past

@[simp] theorem place_world : (s.place i call past p).world = s.world := by
  cases p <;> rfl

theorem place_fibers {f : Running Op Reply Call A} (h : (s.place i call past p).fibers j = some f) :
    (j = i ∧ ∃ op next, p = .ask op next ∧ f = ⟨call,past,op,next⟩) ∨ (j ≠ i ∧ s.fibers j = some f) := by
  cases p with
  | done a => exact Or.inr (Fibers.remove_cases h)
  | ask op next =>
    rcases Fibers.set_cases h with ⟨hj,hf⟩ | hold
    · exact Or.inl ⟨hj,op,next,rfl,hf⟩
    · exact Or.inr hold

theorem place_ended {e : Ended Op Reply Call A} (h : e ∈ (s.place i call past p).ended) :
    (∃ a, p = .done a ∧ e = ⟨call,past,a⟩) ∨ e ∈ s.ended := by
  cases p with
  | done a =>
    rcases List.mem_cons.mp h with rfl | hold
    · exact Or.inl ⟨a,rfl,rfl⟩
    · exact Or.inr hold
  | ask op next => exact Or.inr h

theorem mem_place_ended {e : Ended Op Reply Call A} (h : e ∈ s.ended) : e ∈ (s.place i call past p).ended := by
  cases p with
  | done a => exact List.mem_cons_of_mem _ h
  | ask op next => exact h

theorem place_was : (s.place i call past p).Was call past := by
  cases p with
  | done a => exact Or.inr ⟨_,List.mem_cons_self,rfl,rfl⟩
  | ask op next => exact Or.inl ⟨i,_,Fibers.set_self _ _ _,rfl,rfl⟩

theorem was_place {call' : Call} {past' : List (Answered Op Reply)} {w : W}
    (h : (Pool.place {s with world := w} i call past p).Was call' past') :
    (call' = call ∧ past' = past) ∨ s.Was call' past' := by
  rcases h with ⟨j,f,hf,rfl,rfl⟩ | ⟨e,he,rfl,rfl⟩
  · rcases place_fibers hf with ⟨-,op,next,-,rfl⟩ | ⟨-,hold⟩
    · exact Or.inl ⟨rfl,rfl⟩
    · exact Or.inr (Or.inl ⟨j,f,hold,rfl,rfl⟩)
  · rcases place_ended he with ⟨a,-,rfl⟩ | hold
    · exact Or.inl ⟨rfl,rfl⟩
    · exact Or.inr (Or.inr ⟨e,hold,rfl,rfl⟩)

theorem place_of_ne (h : j ≠ i) : (s.place i call past p).fibers j = s.fibers j := by
  cases p with
  | done a => exact Fibers.remove_of_ne _ h
  | ask op next => exact Fibers.set_of_ne _ _ h

end Pool

namespace Service
variable (service : Service Op Reply Call A W E)

/-- The world and the program of a call after its turn. -/
def resumed (s : Pool Op Reply Call A W) (i : ℕ) (f : Running Op Reply Call A) : Pool Op Reply Call A W :=
  let answered := service.handle i f.call f.op s.world
  Pool.place {s with world := answered.2} i f.call (⟨f.op,answered.1⟩ :: f.past) (f.next answered.1)

def step (s : Pool Op Reply Call A W) : Turn Call E → Option (Pool Op Reply Call A W)
  | .arrive i call => if (s.fibers i).isNone then some (s.place i call [] (service.program call)) else none
  | .resume i => (s.fibers i).map (service.resumed s i)
  | .outside e => some {s with world := service.outside e s.world}

def system (w : W) : System (Pool Op Reply Call A W) (Turn Call E) := ⟨.start w,service.step⟩

variable {service} {s s' : Pool Op Reply Call A W} {turn : Turn Call E}

theorem step_cases (h : service.step s turn = some s') :
    (∃ i call, turn = .arrive i call ∧ s.fibers i = none ∧ s' = s.place i call [] (service.program call)) ∨
    (∃ i f, turn = .resume i ∧ s.fibers i = some f ∧ s' = service.resumed s i f) ∨
    ∃ e, turn = .outside e ∧ s' = {s with world := service.outside e s.world} := by
  cases turn with
  | arrive i call =>
    simp only [step] at h
    split at h
    · rename_i hfree
      exact Or.inl ⟨i,call,rfl,Option.isNone_iff_eq_none.mp hfree,(Option.some.inj h).symm⟩
    · cases h
  | resume i =>
    obtain ⟨f,hf,hs⟩ := Option.map_eq_some_iff.mp h
    exact Or.inr (Or.inl ⟨i,f,rfl,hf,hs.symm⟩)
  | outside e => exact Or.inr (Or.inr ⟨e,rfl,(Option.some.inj h).symm⟩)

theorem was_step (h : service.step s turn = some s') {call : Call} {past : List (Answered Op Reply)}
    (hwas : s'.Was call past) : past = [] ∨ s.Was call past ∨
      ∃ i f, turn = .resume i ∧ s.fibers i = some f ∧ call = f.call ∧
        past = ⟨f.op,(service.handle i f.call f.op s.world).1⟩ :: f.past := by
  rcases step_cases h with ⟨i,call₀,rfl,-,rfl⟩ | ⟨i,f,rfl,hf,rfl⟩ | ⟨e,rfl,rfl⟩
  · rcases Pool.was_place hwas with ⟨-,rfl⟩ | hold
    · exact Or.inl rfl
    · exact Or.inr (Or.inl hold)
  · rcases Pool.was_place hwas with ⟨rfl,rfl⟩ | hold
    · exact Or.inr (Or.inr ⟨i,f,rfl,hf,rfl,rfl⟩)
    · exact Or.inr (Or.inl hold)
  · exact Or.inr (Or.inl hwas)

theorem was_mono (h : service.step s turn = some s') {call : Call} {past : List (Answered Op Reply)}
    (hwas : s.Was call past) : ∃ past', s'.Was call past' ∧ past <:+ past' := by
  have hkeep : ∀ {i : ℕ} {call' : Call} {past' : List (Answered Op Reply)} {p : Program Op Reply A} {w : W},
      (∀ f, s.fibers i = some f → ¬ (f.call = call ∧ f.past = past)) →
        (Pool.place {s with world := w} i call' past' p).Was call past := by
    rintro i call' past' p w hi
    rcases hwas with ⟨j,f,hf,hc,hp⟩ | ⟨e,he,hc,hp⟩
    · have hj : j ≠ i := by
        rintro rfl
        exact hi f hf ⟨hc,hp⟩
      exact Or.inl ⟨j,f,(Pool.place_of_ne hj).trans hf,hc,hp⟩
    · exact Or.inr ⟨e,Pool.mem_place_ended he,hc,hp⟩
  rcases step_cases h with ⟨i,call₀,rfl,hi,rfl⟩ | ⟨i,f,rfl,hf,rfl⟩ | ⟨e,rfl,rfl⟩
  · refine ⟨past,hkeep ?_,List.suffix_refl past⟩
    intro f hf
    rw [hi] at hf
    cases hf
  · by_cases hself : f.call = call ∧ f.past = past
    · obtain ⟨rfl,rfl⟩ := hself
      exact ⟨_,Pool.place_was,List.suffix_cons _ _⟩
    · refine ⟨past,hkeep ?_,List.suffix_refl past⟩
      intro g hg
      rw [hf] at hg
      cases hg
      exact hself
  · exact ⟨past,hwas,List.suffix_refl past⟩

theorem was_next (h : service.step s turn = some s') {call : Call} {past : List (Answered Op Reply)} (hwas : s.Was call past) :
    s'.Was call past ∨ ∃ i f, turn = .resume i ∧ s.fibers i = some f ∧ f.call = call ∧ f.past = past := by
  rcases hwas with ⟨j,f,hf,hc,hp⟩ | ⟨e,he,hc,hp⟩
  · rcases step_cases h with ⟨i,call₀,rfl,hi,rfl⟩ | ⟨i,g,rfl,hg,rfl⟩ | ⟨e,rfl,rfl⟩
    · have hj : j ≠ i := by
        rintro rfl
        rw [hi] at hf
        cases hf
      exact Or.inl (Or.inl ⟨j,f,(Pool.place_of_ne hj).trans hf,hc,hp⟩)
    · by_cases hj : j = i
      · subst hj
        exact Or.inr ⟨j,f,rfl,hf,hc,hp⟩
      · exact Or.inl (Or.inl ⟨j,f,(Pool.place_of_ne hj).trans hf,hc,hp⟩)
    · exact Or.inl (Or.inl ⟨j,f,hf,hc,hp⟩)
  · left
    right
    rcases step_cases h with ⟨i,call₀,rfl,-,rfl⟩ | ⟨i,g,rfl,-,rfl⟩ | ⟨o,rfl,rfl⟩
    · exact ⟨e,Pool.mem_place_ended he,hc,hp⟩
    · exact ⟨e,Pool.mem_place_ended he,hc,hp⟩
    · exact ⟨e,he,hc,hp⟩

@[simp] theorem resumed_world (i : ℕ) (f : Running Op Reply Call A) :
    (service.resumed s i f).world = (service.handle i f.call f.op s.world).2 := Pool.place_world

end Service

/-- What the turns of a service keep: an invariant of the world, what the others leave alone
meanwhile, what is given of a turn, and what a call may ask for then. -/
structure Discipline (service : Service Op Reply Call A W E) where
  inv : W → Prop
  rely : ℕ → W → W → Prop
  given : ℕ → Call → List (Answered Op Reply) → Op → W → Prop
  may : ℕ → Call → List (Answered Op Reply) → Op → W → Prop
  refl : ∀ i w, rely i w w
  trans : ∀ i u v w, rely i u v → rely i v w → rely i u w
  keeps : ∀ i call past op w, inv w → given i call past op w → may i call past op w →
    inv (service.handle i call op w).2
  frames : ∀ i j call past op w, inv w → given i call past op w → may i call past op w → j ≠ i →
    rely j w (service.handle i call op w).2
  outside_inv : ∀ e w, inv w → inv (service.outside e w)
  outside_rely : ∀ i e w, inv w → rely i w (service.outside e w)

namespace Discipline
variable {service : Service Op Reply Call A W E} (D : Discipline service) (i : ℕ) (call : Call)

/-- The program asks only for what it may, and ends as asked. -/
def Along (Q : List (Answered Op Reply) → α → W → Prop) :
    Program Op Reply α → List (Answered Op Reply) → W → Prop
  | .done a,past,w => Q past a w
  | .ask op next,past,w => ∀ w', D.rely i w w' → D.inv w' → D.given i call past op w' →
    D.may i call past op w' ∧
      Along Q (next (service.handle i call op w').1) (⟨op,(service.handle i call op w').1⟩ :: past)
        (service.handle i call op w').2

variable {D i call} {Q : List (Answered Op Reply) → α → W → Prop} {past : List (Answered Op Reply)} {w w' : W}

theorem Along.of_rely {op : Op} {next : Reply op → Program Op Reply α} (hr : D.rely i w w')
    (hp : D.Along i call Q (.ask op next) past w) : D.Along i call Q (.ask op next) past w' :=
  fun w'' hr' => hp w'' (D.trans i _ _ _ hr hr')

theorem Along.bind {Q : List (Answered Op Reply) → β → W → Prop} {p : Program Op Reply α} {f : α → Program Op Reply β}
    (hp : D.Along i call (fun past a => D.Along i call Q (f a) past) p past w) : D.Along i call Q (p >>= f) past w := by
  induction p generalizing past w with
  | done a => exact hp
  | ask op next ih =>
    intro w' hr hinv hgiven
    obtain ⟨hmay,hnext⟩ := hp w' hr hinv hgiven
    exact ⟨hmay,ih _ hnext⟩

theorem Along.mono {Q Q' : List (Answered Op Reply) → α → W → Prop} (hQ : ∀ past a w, Q past a w → Q' past a w)
    {p : Program Op Reply α} (hp : D.Along i call Q p past w) : D.Along i call Q' p past w := by
  induction p generalizing past w with
  | done a => exact hQ past a w hp
  | ask op next ih =>
    intro w' hr hinv hgiven
    obtain ⟨hmay,hnext⟩ := hp w' hr hinv hgiven
    exact ⟨hmay,ih _ hnext⟩

section Failing
variable {ε : Type} {ok ok' : List (Answered Op Reply) → α → W → Prop} {error error' : List (Answered Op Reply) → ε → W → Prop}

/-- What holds of a program that may fail, when it returns and when it fails. -/
def Outcome (ok : List (Answered Op Reply) → α → W → Prop) (error : List (Answered Op Reply) → ε → W → Prop)
    (past : List (Answered Op Reply)) : Except ε α → W → Prop
  | .ok a,w => ok past a w
  | .error e,w => error past e w

variable (D i call) in
/-- `Along`, for a program that may fail. -/
def Returns (ok : List (Answered Op Reply) → α → W → Prop) (error : List (Answered Op Reply) → ε → W → Prop)
    (x : ExceptT ε (Program Op Reply) α) (past : List (Answered Op Reply)) (w : W) : Prop :=
  D.Along i call (Outcome ok error) x past w

theorem Returns.pure {a : α} (h : ok past a w) :
    D.Returns i call ok error (Pure.pure a : ExceptT ε (Program Op Reply) α) past w := h

theorem Returns.throw {e : ε} (h : error past e w) :
    D.Returns i call ok error (MonadExcept.throw e : ExceptT ε (Program Op Reply) α) past w := h

theorem Returns.bind {ok : List (Answered Op Reply) → β → W → Prop} {x : ExceptT ε (Program Op Reply) α}
    {f : α → ExceptT ε (Program Op Reply) β}
    (h : D.Returns i call (fun past a => D.Returns i call ok error (f a) past) error x past w) :
    D.Returns i call ok error (x >>= f) past w := by
  apply Along.bind
  refine Along.mono ?_ h
  intro past r w hr
  cases r with
  | ok a => exact hr
  | error e => exact hr

theorem Returns.ite {c : Prop} [Decidable c] {x y : ExceptT ε (Program Op Reply) α} (hx : c → D.Returns i call ok error x past w)
    (hy : ¬c → D.Returns i call ok error y past w) : D.Returns i call ok error (if c then x else y) past w := by
  by_cases hc : c
  · rw [if_pos hc]
    exact hx hc
  · rw [if_neg hc]
    exact hy hc

theorem Returns.mono (hok : ∀ past a w, ok past a w → ok' past a w) (herror : ∀ past e w, error past e w → error' past e w)
    {x : ExceptT ε (Program Op Reply) α} (h : D.Returns i call ok error x past w) : D.Returns i call ok' error' x past w := by
  refine Along.mono ?_ h
  intro past r w hr
  cases r with
  | ok a => exact hok past a w hr
  | error e => exact herror past e w hr

theorem Returns.lift {op : Op} {ok : List (Answered Op Reply) → Reply op → W → Prop}
    (h : ∀ w', D.rely i w w' → D.inv w' → D.given i call past op w' → D.may i call past op w' ∧
      ok (⟨op,(service.handle i call op w').1⟩ :: past) (service.handle i call op w').1 (service.handle i call op w').2) :
    D.Returns i call ok error (ExceptT.lift (Program.perform op)) past w := h

end Failing

variable (D)

def Given (s : Pool Op Reply Call A W) (turn : Turn Call E) : Prop :=
  ∀ i f, turn = .resume i → s.fibers i = some f → D.given i f.call f.past f.op s.world

/-- The programs keep the discipline from the start, and end as asked. -/
def Starts (ends : ℕ → Call → List (Answered Op Reply) → A → W → Prop) : Prop :=
  ∀ i call w, D.inv w → D.Along i call (ends i call) (service.program call) [] w

/-- The programs in flight keep the discipline. -/
structure Kept (ends : ℕ → Call → List (Answered Op Reply) → A → W → Prop) (s : Pool Op Reply Call A W) : Prop where
  inv : D.inv s.world
  along : ∀ i f, s.fibers i = some f → D.Along i f.call (ends i f.call) (.ask f.op f.next) f.past s.world

variable {D} {ends : ℕ → Call → List (Answered Op Reply) → A → W → Prop} {s s' : Pool Op Reply Call A W}
  {turn : Turn Call E}

theorem kept_start {w : W} (h : D.inv w) : D.Kept ends (.start w) := by
  constructor
  · exact h
  · intro i f hf
    cases hf

theorem Kept.asks (h : D.Kept ends s) {f : Running Op Reply Call A} (hf : s.fibers i = some f)
    (hgiven : D.given i f.call f.past f.op s.world) :
    D.may i f.call f.past f.op s.world ∧
      D.Along i f.call (ends i f.call) (f.next (service.handle i f.call f.op s.world).1)
        (⟨f.op,(service.handle i f.call f.op s.world).1⟩ :: f.past) (service.handle i f.call f.op s.world).2 :=
  h.along i f hf s.world (D.refl i _) h.inv hgiven

theorem Kept.place (h : D.Kept ends s) {p : Program Op Reply A} {w : W} (hinv : D.inv w)
    (hrely : ∀ j, j ≠ i → D.rely j s.world w) (hp : D.Along i call (ends i call) p past w) :
    D.Kept ends (Pool.place {s with world := w} i call past p) := by
  constructor
  · rw [Pool.place_world]
    exact hinv
  · intro j f hf
    rw [Pool.place_world]
    rcases Pool.place_fibers hf with ⟨rfl,op,next,rfl,rfl⟩ | ⟨hj,hold⟩
    · exact hp
    · exact (h.along j f hold).of_rely (hrely j hj)

theorem Kept.step (hstarts : D.Starts ends) (h : D.Kept ends s) (hgiven : D.Given s turn)
    (hs : service.step s turn = some s') : D.Kept ends s' := by
  rcases Service.step_cases hs with ⟨i,call,rfl,-,rfl⟩ | ⟨i,f,rfl,hf,rfl⟩ | ⟨e,rfl,rfl⟩
  · exact h.place h.inv (fun j _ => D.refl j _) (hstarts i call s.world h.inv)
  · have hg := hgiven i f rfl hf
    obtain ⟨hmay,hnext⟩ := h.asks hf hg
    exact h.place (D.keeps _ _ _ _ _ h.inv hg hmay) (fun j hj => D.frames _ _ _ _ _ _ h.inv hg hmay hj) hnext
  · constructor
    · exact D.outside_inv e _ h.inv
    · intro i f hf
      exact (h.along i f hf).of_rely (D.outside_rely i e _ h.inv)

theorem Kept.leads (hstarts : D.Starts ends) {allow : Pool Op Reply Call A W → Turn Call E → Prop}
    (hallow : ∀ s turn, allow s turn → D.Given s turn) {J : Pool Op Reply Call A W → Prop}
    (hJ : ∀ s turn s', D.Kept ends s → allow s turn → service.step s turn = some s' → J s → J s')
    {init : W} (hr : (service.system init).Leads allow s s') (h : D.Kept ends s) (hs : J s) :
    D.Kept ends s' ∧ J s' := by
  apply hr.invariant (fun s => D.Kept ends s ∧ J s) ⟨h,hs⟩
  rintro a turn b ⟨ha,hJa⟩ hl hstep
  exact ⟨ha.step hstarts (hallow a turn hl) hstep,hJ a turn b ha hl hstep hJa⟩

theorem Kept.place_ended (h : ∀ e ∈ s.ended, ∃ i w, ends i e.call e.past e.answer w) {p : Program Op Reply A} {w : W}
    (hp : D.Along i call (ends i call) p past w) :
    ∀ e ∈ (Pool.place {s with world := w} i call past p).ended, ∃ i w, ends i e.call e.past e.answer w := by
  intro e he
  rcases Pool.place_ended he with ⟨a,rfl,rfl⟩ | hold
  · exact ⟨i,w,hp⟩
  · exact h e hold

theorem Starts.ended (hstarts : D.Starts ends) {allow : Pool Op Reply Call A W → Turn Call E → Prop}
    (hallow : ∀ s turn, allow s turn → D.Given s turn) {init : W} (hinit : D.inv init)
    (hr : (service.system init).Reaches allow s) : ∀ e ∈ s.ended, ∃ i w, ends i e.call e.past e.answer w := by
  refine (Kept.leads hstarts hallow (J := fun s => ∀ e ∈ s.ended, ∃ i w, ends i e.call e.past e.answer w) ?_ hr
    (kept_start hinit) ?_).2
  · intro s turn s' hkept hl hstep hJ
    rcases Service.step_cases hstep with ⟨i,call,rfl,-,rfl⟩ | ⟨i,f,rfl,hf,rfl⟩ | ⟨e,rfl,rfl⟩
    · exact Kept.place_ended hJ (hstarts i call s.world hkept.inv)
    · exact Kept.place_ended hJ (hkept.asks hf (hallow s _ hl i f rfl hf)).2
    · exact hJ
  · intro e he
    cases he

section Takings
variable (D) {T : Type}

/-- What an answered operation takes from the world; what is spent can not be taken, and stays spent. -/
structure Taking (T : Type) where
  takes : Call → Answered Op Reply → Option T
  spent : T → W → Prop
  fresh : ∀ i call past op w t, D.inv w → D.given i call past op w → D.may i call past op w →
    takes call ⟨op,(service.handle i call op w).1⟩ = some t → ¬ spent t w ∧ spent t (service.handle i call op w).2
  lasts : ∀ i call past op w t, D.inv w → D.given i call past op w → D.may i call past op w →
    spent t w → spent t (service.handle i call op w).2
  outside : ∀ e w t, D.inv w → spent t w → spent t (service.outside e w)

variable {D} (K : Taking D T)

def Taking.taken (call : Call) (past : List (Answered Op Reply)) : List T := past.filterMap (K.takes call)

/-- What was taken is spent, and no two calls took the same. -/
structure Taking.Exclusive (s : Pool Op Reply Call A W) : Prop where
  spent : ∀ call past, s.Was call past → ∀ t ∈ K.taken call past, K.spent t s.world
  fibers : s.fibers.Pairwise fun f g => (K.taken f.call f.past).Disjoint (K.taken g.call g.past)
  across : ∀ i f, s.fibers i = some f → ∀ e ∈ s.ended, (K.taken f.call f.past).Disjoint (K.taken e.call e.past)
  ended : s.ended.Pairwise fun e e' => (K.taken e.call e.past).Disjoint (K.taken e'.call e'.past)

variable {K}

theorem Taking.exclusive_start (w : W) : K.Exclusive (.start w) := by
  constructor
  · rintro call past (⟨i,f,hf,-⟩ | ⟨e,he,-⟩)
    · cases hf
    · cases he
  · exact Fibers.pairwise_empty _
  · intro i f hf
    cases hf
  · exact List.Pairwise.nil

theorem Taking.Exclusive.place (h : K.Exclusive s) {w : W} {p : Program Op Reply A}
    (hlasts : ∀ t, K.spent t s.world → K.spent t w) (hspent : ∀ t ∈ K.taken call past, K.spent t w)
    (hfibers : ∀ j f, j ≠ i → s.fibers j = some f → (K.taken call past).Disjoint (K.taken f.call f.past))
    (hended : ∀ e ∈ s.ended, (K.taken call past).Disjoint (K.taken e.call e.past)) :
    K.Exclusive (Pool.place {s with world := w} i call past p) := by
  constructor
  · intro call' past' hwas t ht
    rw [Pool.place_world]
    rcases hwas with ⟨j,f,hf,rfl,rfl⟩ | ⟨e,he,rfl,rfl⟩
    · rcases Pool.place_fibers hf with ⟨-,op,next,-,rfl⟩ | ⟨-,hold⟩
      · exact hspent t ht
      · exact hlasts t (h.spent _ _ (Or.inl ⟨j,f,hold,rfl,rfl⟩) t ht)
    · rcases Pool.place_ended he with ⟨a,-,rfl⟩ | hold
      · exact hspent t ht
      · exact hlasts t (h.spent _ _ (Or.inr ⟨e,hold,rfl,rfl⟩) t ht)
  · cases p with
    | done a => exact h.fibers.remove
    | ask op next => exact h.fibers.set (fun _ _ hd => hd.symm) fun j g hj hg => hfibers j g hj hg
  · intro j f hf e he
    rcases Pool.place_fibers hf with ⟨-,op,next,rfl,rfl⟩ | ⟨hj,hold⟩
    · exact hended e he
    · rcases Pool.place_ended he with ⟨a,-,rfl⟩ | hold'
      · exact (hfibers j f hj hold).symm
      · exact h.across j f hold e hold'
  · cases p with
    | done a => exact List.pairwise_cons.mpr ⟨hended,h.ended⟩
    | ask op next => exact h.ended

theorem Taking.Exclusive.step (h : K.Exclusive s) (hkept : D.Kept ends s) (hgiven : D.Given s turn)
    (hs : service.step s turn = some s') : K.Exclusive s' := by
  rcases Service.step_cases hs with ⟨i,call,rfl,-,rfl⟩ | ⟨i,f,rfl,hf,rfl⟩ | ⟨e,rfl,rfl⟩
  · have hnone : K.taken call [] = [] := rfl
    apply h.place
    · exact fun _ ht => ht
    · simp [hnone]
    · simp [hnone]
    · simp [hnone]
  · have hg := hgiven i f rfl hf
    have hmay := (hkept.asks hf hg).1
    have hlasts : ∀ t, K.spent t s.world → K.spent t (service.handle i f.call f.op s.world).2 :=
      fun t => K.lasts _ _ _ _ _ t hkept.inv hg hmay
    have hself : ∀ t ∈ K.taken f.call f.past, K.spent t s.world := h.spent _ _ (Or.inl ⟨i,f,hf,rfl,rfl⟩)
    -- what this turn takes was not spent before, so nobody has it
    have hcases : ∀ t ∈ K.taken f.call (⟨f.op,(service.handle i f.call f.op s.world).1⟩ :: f.past),
        (¬ K.spent t s.world ∧ K.spent t (service.handle i f.call f.op s.world).2) ∨ t ∈ K.taken f.call f.past := by
      intro t ht
      obtain ⟨a,ha,hta⟩ := List.mem_filterMap.mp ht
      rcases List.mem_cons.mp ha with rfl | hold
      · exact Or.inl (K.fresh _ _ _ _ _ t hkept.inv hg hmay hta)
      · exact Or.inr (List.mem_filterMap.mpr ⟨a,hold,hta⟩)
    apply h.place
    · exact hlasts
    · intro t ht
      rcases hcases t ht with ⟨-,hnew⟩ | hold
      · exact hnew
      · exact hlasts t (hself t hold)
    · intro j g hj hg' t ht ht'
      rcases hcases t ht with ⟨hnot,-⟩ | hold
      · exact hnot (h.spent _ _ (Or.inl ⟨j,g,hg',rfl,rfl⟩) t ht')
      · exact h.fibers i j f g (Ne.symm hj) hf hg' hold ht'
    · intro e he t ht ht'
      rcases hcases t ht with ⟨hnot,-⟩ | hold
      · exact hnot (h.spent _ _ (Or.inr ⟨e,he,rfl,rfl⟩) t ht')
      · exact h.across i f hf e he hold ht'
  · constructor
    · exact fun call past hwas t ht => K.outside e _ t hkept.inv (h.spent call past hwas t ht)
    · exact h.fibers
    · exact h.across
    · exact h.ended

theorem Taking.Exclusive.same (h : K.Exclusive s) {call call' : Call} {past past' : List (Answered Op Reply)}
    (hw : s.Was call past) (hw' : s.Was call' past') {t : T} (ht : t ∈ K.taken call past)
    (ht' : t ∈ K.taken call' past') : call = call' ∧ past = past' := by
  rcases hw with ⟨i,f,hf,rfl,rfl⟩ | ⟨e,he,rfl,rfl⟩
  · rcases hw' with ⟨j,g,hg,rfl,rfl⟩ | ⟨e',he',rfl,rfl⟩
    · by_cases hij : i = j
      · subst hij
        obtain rfl := Option.some.inj (hf.symm.trans hg)
        exact ⟨rfl,rfl⟩
      · exact absurd ht' (h.fibers i j f g hij hf hg ht)
    · exact absurd ht' (h.across i f hf e' he' ht)
  · rcases hw' with ⟨j,g,hg,rfl,rfl⟩ | ⟨e',he',rfl,rfl⟩
    · exact absurd ht (h.across j g hg e he ht')
    · by_cases hee : e = e'
      · subst hee
        exact ⟨rfl,rfl⟩
      · have hsymm : Std.Symm fun e e' : Ended Op Reply Call A =>
            (K.taken e.call e.past).Disjoint (K.taken e'.call e'.past) := ⟨fun _ _ hd => hd.symm⟩
        exact absurd ht' (h.ended.forall he he' hee ht)

end Takings
end Discipline
end Pools
end StructureAi.Foundation

import StructureAi.Foundation.Entries
import StructureAi.Foundation.Program

/-! # Names defined by programs

A name may be defined by a program that asks for the values of other names. Evaluation runs the program of a
name whenever the name is asked for, and fails where it comes back to a name that it is in the middle of. With
a memo every program is run once at most, and the values that are kept are never those of an evaluation that
was cut short.
-/
namespace StructureAi.Foundation

namespace Program
variable {Op : Type} {Reply : Op → Type} {α : Type} {m : Type → Type} [Monad m]

/-- The program with every operation carried out in a monad. -/
def interpret (answer : (op : Op) → m (Reply op)) : Program Op Reply α → m α
  | done a => pure a
  | ask op next => answer op >>= fun reply => interpret answer (next reply)

@[simp] theorem interpret_done (answer : (op : Op) → m (Reply op)) (a : α) : interpret answer (done a) = pure a := rfl

@[simp] theorem interpret_ask (answer : (op : Op) → m (Reply op)) (op : Op) (next : Reply op → Program Op Reply α) :
    interpret answer (ask op next) = answer op >>= fun reply => interpret answer (next reply) := rfl

theorem interpret_bind {β : Type} [LawfulMonad m] (answer : (op : Op) → m (Reply op)) (program : Program Op Reply α)
    (next : α → Program Op Reply β) :
    (program >>= next).interpret answer = program.interpret answer >>= fun a => (next a).interpret answer := by
  induction program with
  | done a => rw [done_bind,interpret_done,pure_bind]
  | ask op after ih =>
    rw [ask_bind,interpret_ask,interpret_ask,LawfulMonad.bind_assoc (m := m)]
    congr 1
    funext reply
    exact ih reply

section Failures
variable {E : Type} {answer : (op : Op) → Except E (Reply op)} {e : E}

/-- The program comes to an operation, after others that were answered. -/
inductive ComesTo (answer : (op : Op) → Except E (Reply op)) : Program Op Reply α → Op → Prop
  | now (op : Op) (next : Reply op → Program Op Reply α) : ComesTo answer (ask op next) op
  | later {op op' : Op} {next : Reply op → Program Op Reply α} {reply : Reply op} (hanswer : answer op = .ok reply)
      (h : ComesTo answer (next reply) op') : ComesTo answer (ask op next) op'

theorem interpret_error_iff {program : Program Op Reply α} :
    program.interpret answer = .error e ↔ ∃ op, program.ComesTo answer op ∧ answer op = .error e := by
  induction program with
  | done a =>
    refine iff_of_false (fun h => by cases h) ?_
    rintro ⟨op,hcomes,-⟩
    cases hcomes
  | ask op next ih =>
    rw [interpret_ask]
    cases hanswer : answer op with
    | error e' =>
      constructor
      · intro h
        exact ⟨op,.now op next,hanswer.trans (congrArg Except.error (Except.error.inj h))⟩
      · rintro ⟨op',hcomes,hfails⟩
        cases hcomes with
        | now => exact congrArg Except.error (Except.error.inj (hanswer.symm.trans hfails))
        | later hanswer' _ =>
          rw [hanswer] at hanswer'
          cases hanswer'
    | ok reply =>
      refine (ih reply).trans ?_
      constructor
      · rintro ⟨op',hcomes,hfails⟩
        exact ⟨op',.later hanswer hcomes,hfails⟩
      · rintro ⟨op',hcomes,hfails⟩
        cases hcomes with
        | now =>
          rw [hanswer] at hfails
          cases hfails
        | later hanswer' hcomes =>
          obtain rfl := Except.ok.inj (hanswer.symm.trans hanswer')
          exact ⟨op',hcomes,hfails⟩

end Failures
end Program

/-- `map.get(k)`, by the equality of the keys. -/
def valueAt {κ ν : Type} [DecidableEq κ] (k : κ) (es : List (κ × ν)) : Option ν := es.lookup k

theorem keys_put_new {κ ν : Type} [DecidableEq κ] {k : κ} {v : ν} {es : List (κ × ν)} (h : valueAt k es = none) :
    (put k v es).map Prod.fst = es.map Prod.fst ++ [k] := by
  unfold valueAt at h
  induction es with
  | nil => rfl
  | cons e es ih =>
    rw [lookup_cons] at h
    split at h
    · cases h
    · rename_i hne
      rw [put,if_neg (Ne.symm hne),List.map_cons,ih h]
      rfl

/-- A program that asks for the values of names; a name without a definition has none. -/
abbrev Query (N V α : Type) : Type := Program N (fun _ => Option V) α

structure Definitions (N V : Type) where
  names : List N
  define : N → Option (Query N V V)
  covers : ∀ {n query}, define n = some query → n ∈ names

/-- What runs on a state may fail, and may be out of fuel. -/
abbrev Attempt (S E α : Type) : Type := StateT S (ExceptT E Option) α

namespace Attempt
variable {S E α β : Type} {attempt : Attempt S E α} {s : S}

def outOfFuel : Attempt S E α := fun _ => none

def runOn (attempt : Attempt S E α) (s : S) : Option (Except E (α × S)) := attempt s

def valueOn (attempt : Attempt S E α) (s : S) : Option (Except E α) := (attempt.runOn s).map (Except.map Prod.fst)

/-- The attempt is not out of fuel, and its value and state, or its failure, are so. -/
def Ends (attempt : Attempt S E α) (s : S) (value : α → S → Prop) (failure : E → Prop) : Prop :=
  match attempt.runOn s with
  | none => False
  | some (.ok (a,s')) => value a s'
  | some (.error e) => failure e

variable {value : α → S → Prop} {failure : E → Prop}

theorem Ends.mono {value' : α → S → Prop} {failure' : E → Prop} (h : attempt.Ends s value failure)
    (hvalue : ∀ a s', value a s' → value' a s') (hfailure : ∀ e, failure e → failure' e) : attempt.Ends s value' failure' := by
  unfold Ends at h ⊢
  cases hrun : attempt.runOn s with
  | none =>
    rw [hrun] at h
    exact h
  | some outcome =>
    rw [hrun] at h
    cases outcome with
    | error e => exact hfailure e h
    | ok result => exact hvalue result.1 result.2 h

theorem Ends.pure {a : α} (h : value a s) : (Pure.pure a : Attempt S E α).Ends s value failure := h

theorem Ends.bind {next : α → Attempt S E β} {value' : β → S → Prop} (h : attempt.Ends s value failure)
    (hnext : ∀ a s', value a s' → (next a).Ends s' value' failure) : (attempt >>= next).Ends s value' failure := by
  unfold Ends at h
  have hbind : (attempt >>= next).runOn s = (attempt.runOn s).bind fun outcome => match outcome with
      | .ok (a,s') => (next a).runOn s'
      | .error e => some (.error e) := by
    change (attempt.runOn s).bind _ = _
    congr 1
    funext outcome
    cases outcome <;> rfl
  cases hrun : attempt.runOn s with
  | none =>
    rw [hrun] at h
    exact h.elim
  | some outcome =>
    rw [hrun] at h
    unfold Ends
    rw [hbind,hrun]
    cases outcome with
    | error e => exact h
    | ok result => exact hnext result.1 result.2 h

theorem Ends.get_bind {next : S → Attempt S E α} (h : (next s).Ends s value failure) : (get >>= next).Ends s value failure := h

theorem Ends.set_bind {s' : S} {next : PUnit → Attempt S E α} (h : (next ⟨⟩).Ends s' value failure) :
    (set s' >>= next).Ends s value failure := h

theorem Ends.modify_bind {f : S → S} {next : PUnit → Attempt S E α} (h : (next ⟨⟩).Ends (f s) value failure) :
    (modify f >>= next).Ends s value failure := h

theorem Ends.throw {e : E} (h : failure e) : (MonadExcept.throw e : Attempt S E α).Ends s value failure := h

end Attempt

/-- The values that were found, and the names whose programs are running. -/
structure Memo (N V : Type) where
  resolved : List (N × V)
  resolving : List N

namespace Definitions
variable {N V α : Type} [DecidableEq N] (d : Definitions N V)

def idle (path : List N) : List N := d.names.filter fun n => n ∉ path

variable {d} in
theorem idle_cons_lt {path : List N} {n : N} {query : Query N V V} (hdefine : d.define n = some query) (hn : n ∉ path) :
    (d.idle (n :: path)).length < (d.idle path).length := by
  have hfilter : d.idle (n :: path) = (d.idle path).filter fun m => m ≠ n := by
    unfold idle
    rw [List.filter_filter]
    apply List.filter_congr
    intro m _
    simp [List.mem_cons]
  rw [hfilter]
  apply List.length_filter_lt_length_iff_exists.mpr
  refine ⟨n,List.mem_filter.mpr ⟨d.covers hdefine,by simpa using hn⟩,by simp⟩

/-- The value of a name that is asked for by the names of the path. -/
def evaluate (path : List N) (n : N) : Except N (Option V) :=
  match _ : d.define n with
  | none => .ok none
  | some query =>
    if _ : n ∈ path then .error n
    else (query.interpret fun asked => evaluate (n :: path) asked).map some
termination_by (d.idle path).length
decreasing_by exact idle_cons_lt ‹_› ‹_›

/-- The value of a name, from the memo or by its program. -/
def fetch : ℕ → N → Attempt (Memo N V) N (Option V)
  | 0,_ => Attempt.outOfFuel
  | fuel + 1,n =>
    match d.define n with
    | none => pure none
    | some query => do
      let memo ← get
      match memo.resolved.lookup n with
      | some value => pure (some value)
      | none =>
        if n ∈ memo.resolving then throw n
        else
          set {memo with resolving := n :: memo.resolving}
          let value ← query.interpret (fetch fuel)
          modify fun memo => ⟨put n value memo.resolved,memo.resolving.erase n⟩
          pure (some value)

section Evaluation
variable {d} {path : List N} {n : N} {query : Query N V V}

theorem evaluate_undefined (h : d.define n = none) : d.evaluate path n = .ok none := by
  rw [evaluate]
  split
  · rfl
  · rename_i h'
    rw [h] at h'
    cases h'

theorem evaluate_cycle (h : d.define n = some query) (hn : n ∈ path) : d.evaluate path n = .error n := by
  rw [evaluate]
  split
  · rename_i h'
    rw [h] at h'
    cases h'
  · rw [dif_pos hn]

theorem evaluate_run (h : d.define n = some query) (hn : n ∉ path) :
    d.evaluate path n = (query.interpret (d.evaluate (n :: path))).map some := by
  rw [evaluate]
  split
  · rename_i h'
    rw [h] at h'
    cases h'
  · rename_i query' h'
    obtain rfl := Option.some.inj (h.symm.trans h')
    rw [dif_neg hn]

theorem evaluate_defined {value : Option V} (h : d.define n = some query) (hvalue : d.evaluate path n = .ok value) :
    ∃ v, value = some v := by
  by_cases hn : n ∈ path
  · rw [evaluate_cycle h hn] at hvalue
    cases hvalue
  · rw [evaluate_run h hn] at hvalue
    cases hrun : query.interpret (d.evaluate (n :: path)) with
    | error e =>
      rw [hrun] at hvalue
      cases hvalue
    | ok v =>
      rw [hrun] at hvalue
      exact ⟨v,(Except.ok.inj hvalue).symm⟩

theorem evaluate_congr {d' : Definitions N V} (h : ∀ n, d.define n = d'.define n) (path : List N) (n : N) :
    d.evaluate path n = d'.evaluate path n := by
  induction hidle : (d.idle path).length using Nat.strong_induction_on generalizing path n with
  | _ k ih =>
    cases hdefine : d.define n with
    | none => rw [evaluate_undefined hdefine,evaluate_undefined (h n ▸ hdefine)]
    | some query =>
      have hdefine' := h n ▸ hdefine
      by_cases hn : n ∈ path
      · rw [evaluate_cycle hdefine hn,evaluate_cycle hdefine' hn]
      · have hless := idle_cons_lt hdefine hn
        have hsame : d.evaluate (n :: path) = d'.evaluate (n :: path) := by
          funext asked
          exact ih _ (by omega) (n :: path) asked rfl
        rw [evaluate_run hdefine hn,evaluate_run hdefine' hn,hsame]

/-- The value of a name that the path asks for is found by way of one whose program is running. -/
inductive ReachesBack (d : Definitions N V) : List N → N → N → Prop
  | back {path : List N} {n : N} {query : Query N V V} (hdefine : d.define n = some query) (hn : n ∈ path) :
      ReachesBack d path n n
  | through {path : List N} {n asked m : N} {query : Query N V V} (hdefine : d.define n = some query) (hn : n ∉ path)
      (hasked : query.ComesTo (d.evaluate (n :: path)) asked) (h : ReachesBack d (n :: path) asked m) : ReachesBack d path n m

theorem evaluate_error_iff {m : N} : d.evaluate path n = .error m ↔ d.ReachesBack path n m := by
  constructor
  · intro h
    induction hidle : (d.idle path).length using Nat.strong_induction_on generalizing path n with
    | _ k ih =>
      cases hdefine : d.define n with
      | none =>
        rw [evaluate_undefined hdefine] at h
        cases h
      | some query =>
        by_cases hn : n ∈ path
        · rw [evaluate_cycle hdefine hn] at h
          obtain rfl := Except.error.inj h
          exact .back hdefine hn
        · have hless := idle_cons_lt hdefine hn
          rw [evaluate_run hdefine hn] at h
          cases hrun : query.interpret (d.evaluate (n :: path)) with
          | ok v =>
            rw [hrun] at h
            cases h
          | error e =>
            rw [hrun] at h
            obtain rfl := Except.error.inj h
            obtain ⟨asked,hasked,hfails⟩ := Program.interpret_error_iff.mp hrun
            exact .through hdefine hn hasked (ih _ (by omega) hfails rfl)
  · intro h
    induction h with
    | back hdefine hn => exact evaluate_cycle hdefine hn
    | through hdefine hn hasked _ ih =>
      rw [evaluate_run hdefine hn,Program.interpret_error_iff.mpr ⟨_,hasked,ih⟩]
      rfl

end Evaluation

end Definitions

section Memos
variable {N V α : Type} [DecidableEq N] {d : Definitions N V} {memo memo' : Memo N V} {path : List N} {n : N}

/-- No value was found yet for the names of the path. -/
def Memo.Clear (memo : Memo N V) (path : List N) : Prop := ∀ n ∈ path, memo.resolved.lookup n = none

/-- The values of the memo are those of any evaluation that is not about one of them. -/
structure Memo.Sound (d : Definitions N V) (memo : Memo N V) : Prop where
  apart : memo.Clear memo.resolving
  values : ∀ n v, memo.resolved.lookup n = some v → ∀ path, memo.Clear path → d.evaluate path n = .ok (some v)

/-- The attempt ends as the evaluation does, which finds the same value from any names that have none yet. -/
def Memo.Follows (d : Definitions N V) (memo : Memo N V) (attempt : Attempt (Memo N V) N α)
    (evaluation : List N → Except N α) : Prop :=
  attempt.Ends memo
    (fun a memo' => memo'.Sound d ∧ memo'.resolving = memo.resolving ∧
      (∀ n, memo'.resolved.lookup n = none → memo.resolved.lookup n = none) ∧ ∀ path, memo'.Clear path → evaluation path = .ok a)
    fun e => evaluation memo.resolving = .error e

/-- A program that asks a memo finds what it finds by evaluation, if each name that it asks for does. -/
theorem Memo.Follows.interpret {ask : N → Attempt (Memo N V) N (Option V)} {resolving : List N}
    (hask : ∀ (n : N) (memo : Memo N V), memo.Sound d → memo.resolving = resolving →
      memo.Follows d (ask n) fun path => d.evaluate path n)
    (query : Query N V α) (hsound : memo.Sound d) (hresolving : memo.resolving = resolving) :
    memo.Follows d (query.interpret ask) fun path => query.interpret (d.evaluate path) := by
  induction query generalizing memo with
  | done a => exact ⟨hsound,rfl,fun _ h => h,fun _ _ => rfl⟩
  | ask n next ih =>
    have hfound := hask n memo hsound hresolving
    have hstep : ∀ reply path, d.evaluate path n = .ok reply →
        (Program.ask n next : Query N V α).interpret (d.evaluate path) = (next reply).interpret (d.evaluate path) := by
      intro reply path heval
      rw [Program.interpret_ask,heval]
      rfl
    refine Attempt.Ends.bind (hfound.mono (fun _ _ h => h) ?_) ?_
    · intro e he
      have he : d.evaluate memo.resolving n = .error e := he
      change (d.evaluate memo.resolving n >>= _) = _
      rw [he]
      rfl
    · rintro reply memo' ⟨hsound',hresolving',hmore,hvalue⟩
      have hclear : memo'.Clear memo.resolving := hresolving' ▸ hsound'.apart
      apply (ih reply hsound' (hresolving'.trans hresolving)).mono
      · rintro a memo'' ⟨hsound'',hresolving'',hmore',hvalue'⟩
        refine ⟨hsound'',hresolving''.trans hresolving',fun m hm => hmore m (hmore' m hm),?_⟩
        intro path hpath
        exact (hstep reply path (hvalue path fun m hm => hmore' m (hpath m hm))).trans (hvalue' path hpath)
      · intro e he
        rw [hresolving'] at he
        exact (hstep reply memo.resolving (hvalue _ hclear)).trans he

/-- With fuel for the names that are not being resolved, a name is found in the memo or evaluated. -/
theorem Definitions.fetch_follows (d : Definitions N V) {fuel : ℕ} (n : N) (hsound : memo.Sound d)
    (hfuel : (d.idle memo.resolving).length < fuel) :
    memo.Follows d (d.fetch fuel n) fun path => d.evaluate path n := by
  induction fuel generalizing memo n with
  | zero => exact absurd hfuel (Nat.not_lt_zero _)
  | succ fuel ih =>
    rw [fetch]
    cases hdefine : d.define n with
    | none => exact ⟨hsound,rfl,fun _ h => h,fun _ _ => evaluate_undefined hdefine⟩
    | some query =>
      apply Attempt.Ends.get_bind
      cases hlookup : memo.resolved.lookup n with
      | some v => exact ⟨hsound,rfl,fun _ h => h,fun path hpath => hsound.values n v hlookup path hpath⟩
      | none =>
        by_cases hcycle : n ∈ memo.resolving
        · simp only [if_pos hcycle]
          exact Attempt.Ends.throw (evaluate_cycle hdefine hcycle)
        · simp only [if_neg hcycle]
          apply Attempt.Ends.set_bind
          have hidle := idle_cons_lt hdefine hcycle
          have hentered : Memo.Sound d {memo with resolving := n :: memo.resolving} := by
            refine ⟨?_,hsound.values⟩
            intro m hm
            rcases List.mem_cons.mp hm with rfl | hm
            · exact hlookup
            · exact hsound.apart m hm
          have hrun := Memo.Follows.interpret (fun m memo' hsound' (hresolving' : memo'.resolving = n :: memo.resolving) =>
            ih m hsound' (by rw [hresolving']; omega)) query hentered rfl
          refine Attempt.Ends.bind (hrun.mono (fun _ _ h => h) ?_) ?_
          · intro e he
            exact (evaluate_run hdefine hcycle).trans (congrArg (Except.map some) he)
          · rintro v memo' ⟨hsound',hresolving',hmore,hvalue⟩
            have hresolving' : memo'.resolving = n :: memo.resolving := hresolving'
            apply Attempt.Ends.modify_bind
            have hleft : memo'.resolving.erase n = memo.resolving := by
              rw [hresolving']
              exact List.erase_cons_head n memo.resolving
            have hunresolved : memo'.Clear (n :: memo.resolving) := hresolving' ▸ hsound'.apart
            have hold : ∀ m, (put n v memo'.resolved).lookup m = none → m ≠ n ∧ memo'.resolved.lookup m = none := by
              intro m hm
              rw [lookup_put] at hm
              split at hm
              · cases hm
              · exact ⟨‹_›,hm⟩
            have hnew : ∀ path, (∀ m ∈ path, (put n v memo'.resolved).lookup m = none) → d.evaluate path n = .ok (some v) := by
              intro path hpath
              have hn : n ∉ path := fun hin => (hold n (hpath n hin)).1 rfl
              rw [evaluate_run hdefine hn]
              refine congrArg (Except.map some) (hvalue (n :: path) ?_)
              intro m hm
              rcases List.mem_cons.mp hm with rfl | hm
              · exact hunresolved m List.mem_cons_self
              · exact (hold m (hpath m hm)).2
            refine Attempt.Ends.pure ⟨⟨?_,?_⟩,hleft,?_,hnew⟩
            · intro m hm
              simp only [hleft] at hm
              have hne : m ≠ n := fun heq => hcycle (heq ▸ hm)
              simp only [lookup_put_of_ne hne]
              exact hunresolved m (List.mem_cons_of_mem n hm)
            · intro m w hm path hpath
              simp only [lookup_put] at hm
              split at hm
              · rename_i heq
                obtain rfl := Option.some.inj hm
                exact heq ▸ hnew path hpath
              · exact hsound'.values m w hm path fun k hk => (hold k (hpath k hk)).2
            · intro m hm
              exact hmore m (hold m hm).2

/-- Without a value to begin with, a program finds with a memo what it finds by evaluation. -/
theorem Definitions.interpret_fetch (d : Definitions N V) (query : Query N V α) {fuel : ℕ} (hfuel : d.names.length < fuel) :
    (query.interpret (d.fetch fuel)).valueOn ⟨[],[]⟩ = some (query.interpret (d.evaluate [])) := by
  have hsound : Memo.Sound d ⟨[],[]⟩ := ⟨fun _ hm => absurd hm List.not_mem_nil,fun _ _ h => by cases h⟩
  have hask : ∀ (n : N) (memo : Memo N V), memo.Sound d → memo.resolving = [] → memo.Follows d (d.fetch fuel n) fun path =>
    d.evaluate path n := by
    intro n memo hsound hresolving
    apply d.fetch_follows n hsound
    exact (List.length_filter_le _ _).trans_lt hfuel
  have hfollows := Memo.Follows.interpret hask query hsound rfl
  unfold Memo.Follows Attempt.Ends at hfollows
  unfold Attempt.valueOn
  cases hrun : (query.interpret (d.fetch fuel)).runOn ⟨[],[]⟩ with
  | none =>
    rw [hrun] at hfollows
    exact hfollows.elim
  | some outcome =>
    rw [hrun] at hfollows
    cases outcome with
    | error e => exact congrArg some hfollows.symm
    | ok result => exact congrArg some (hfollows.2.2.2 [] fun _ hm => absurd hm List.not_mem_nil).symm

end Memos
end StructureAi.Foundation

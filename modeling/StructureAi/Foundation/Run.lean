import Mathlib

/-! # Labelled systems, their runs and invariants

A step is a partial function of the state and a label, and every choice of the
environment is in the label. `Leads allow` keeps the steps whose state and label
meet a condition, so that a property can be proved for the runs that respect it
and refuted on a run given by its labels.
-/
namespace StructureAi.Foundation

structure System (S L : Type*) where
  init : S
  step : S → L → Option S

namespace System
variable {S L : Type*} (sys : System S L) {allow allow' : S → L → Prop}

/-- One step under a label the condition allows. -/
def Next (allow : S → L → Prop) (s s' : S) : Prop := ∃ l, allow s l ∧ sys.step s l = some s'

def Leads (allow : S → L → Prop) : S → S → Prop := Relation.ReflTransGen (sys.Next allow)

def Reaches (allow : S → L → Prop) (s : S) : Prop := sys.Leads allow sys.init s

abbrev Reachable (s : S) : Prop := sys.Reaches (fun _ _ => True) s

variable {sys}

theorem Leads.mono (h : ∀ s l, allow s l → allow' s l) {s s' : S} (hr : sys.Leads allow s s') :
    sys.Leads allow' s s' := by
  refine Relation.ReflTransGen.mono ?_ _ _ hr
  rintro a b ⟨l,hl,hs⟩
  exact ⟨l,h a l hl,hs⟩

theorem Reaches.step {s s' : S} {l : L} (hr : sys.Reaches allow s) (hl : allow s l)
    (hs : sys.step s l = some s') : sys.Reaches allow s' :=
  Relation.ReflTransGen.tail hr ⟨l,hl,hs⟩

theorem Leads.invariant {s s' : S} (hr : sys.Leads allow s s') (inv : S → Prop) (h0 : inv s)
    (hstep : ∀ a l b, inv a → allow a l → sys.step a l = some b → inv b) : inv s' := by
  induction hr with
  | refl => exact h0
  | tail _ hn ih =>
    obtain ⟨l,hl,hs⟩ := hn
    exact hstep _ l _ ih hl hs

theorem Reaches.invariant {s : S} (hr : sys.Reaches allow s) (inv : S → Prop) (h0 : inv sys.init)
    (hstep : ∀ a l b, inv a → allow a l → sys.step a l = some b → inv b) : inv s :=
  Leads.invariant hr inv h0 hstep

theorem Reaches.strengthen {s : S} (hr : sys.Reaches allow s) (inv : S → Prop) (h0 : inv sys.init)
    (hstep : ∀ a l b, inv a → allow a l → sys.step a l = some b → inv b) (h : ∀ a l, inv a → allow a l → allow' a l) :
    sys.Reaches allow' s := by
  apply (hr.invariant (fun s => inv s ∧ sys.Reaches allow' s) ⟨h0,Relation.ReflTransGen.refl⟩ _).2
  rintro a l b ⟨hinv,hreach⟩ hl hs
  exact ⟨hstep a l b hinv hl hs,hreach.step (h a l hinv hl) hs⟩

variable (sys)

/-- The state after a list of labels, if each of them is enabled in turn. -/
def runFrom : S → List L → Option S
  | s,[] => some s
  | s,l :: ls => (sys.step s l).bind fun s' => runFrom s' ls

def run (ls : List L) : Option S := sys.runFrom sys.init ls

variable {sys}

theorem runFrom_leads {ls : List L} (hl : ∀ l ∈ ls, ∀ s, allow s l) {s s' : S}
    (h : sys.runFrom s ls = some s') : sys.Leads allow s s' := by
  induction ls generalizing s with
  | nil =>
    obtain rfl : s = s' := by simpa [runFrom] using h
    exact Relation.ReflTransGen.refl
  | cons l ls ih =>
    obtain ⟨t,ht,hls⟩ := Option.bind_eq_some_iff.mp h
    have hrest := ih (fun l' hl' => hl l' (List.mem_cons_of_mem l hl')) hls
    exact Relation.ReflTransGen.head ⟨l,hl l List.mem_cons_self s,ht⟩ hrest

theorem run_reaches {ls : List L} (hl : ∀ l ∈ ls, ∀ s, allow s l) {s : S} (h : sys.run ls = some s) :
    sys.Reaches allow s := runFrom_leads hl h

theorem run_reachable {ls : List L} {s : S} (h : sys.run ls = some s) : sys.Reachable s :=
  run_reaches (fun _ _ _ => trivial) h

variable (sys) in
def guard (check : S → L → Bool) : System S L := ⟨sys.init,fun s l => if check s l then sys.step s l else none⟩

theorem guard_run_reaches {check : S → L → Bool} (hc : ∀ s l, check s l = true → allow s l) {ls : List L} {s : S}
    (h : (sys.guard check).run ls = some s) : sys.Reaches allow s := by
  apply (run_reachable h).invariant (fun s => sys.Reaches allow s) Relation.ReflTransGen.refl
  intro a l b ha _ hstep
  change (if check a l then sys.step a l else none) = some b at hstep
  split at hstep
  · rename_i hl
    exact ha.step (hc a l hl) hstep
  · cases hstep

/-- A property that just the steps failing a check lose, and that is never regained, holds after a run if every
step of the run passed the check. -/
theorem runFrom_guard_iff {check : S → L → Bool} {inv P : S → Prop} (hinv : ∀ a l b, inv a → sys.step a l = some b → inv b)
    (hstep : ∀ a l b, inv a → sys.step a l = some b → (P b ↔ P a ∧ check a l = true)) {ls : List L} {s t : S}
    (h0 : inv s) (hP : P s) (h : sys.runFrom s ls = some t) : P t ↔ (sys.guard check).runFrom s ls = some t := by
  have hlost : ∀ {ls a}, inv a → ¬ P a → sys.runFrom a ls = some t → ¬ P t := by
    intro ls
    induction ls with
    | nil =>
      intro a _ hP h
      obtain rfl : a = t := Option.some.inj h
      exact hP
    | cons l ls ih =>
      intro a ha hP h
      obtain ⟨b,hb,h⟩ := Option.bind_eq_some_iff.mp h
      exact ih (hinv a l b ha hb) (fun hPb => hP ((hstep a l b ha hb).mp hPb).1) h
  induction ls generalizing s with
  | nil =>
    obtain rfl : s = t := Option.some.inj h
    exact iff_of_true hP rfl
  | cons l ls ih =>
    obtain ⟨b,hb,h⟩ := Option.bind_eq_some_iff.mp h
    have hb0 := hinv s l b h0 hb
    have hguard : (sys.guard check).step s l = if check s l then some b else none := by
      rw [← hb]
      rfl
    rw [runFrom,hguard]
    cases hc : check s l with
    | true => exact ih hb0 ((hstep s l b h0 hb).mpr ⟨hP,hc⟩) h
    | false =>
      apply iff_of_false
      · apply hlost hb0 _ h
        intro hPb
        rw [((hstep s l b h0 hb).mp hPb).2] at hc
        cases hc
      · intro hnone
        cases hnone

end System

/-- A deterministic component: every input is answered. -/
structure Machine (S I O : Type*) where
  init : S
  apply : S → I → S × O

namespace Machine
variable {S T I J O P : Type*}

def toSystem (m : Machine S I O) : System S I := ⟨m.init,fun s i => some (m.apply s i).1⟩

/-- The component behind an encoding of its inputs. -/
def comap (m : Machine S I O) (f : J → I) : Machine S J O := ⟨m.init,fun s j => m.apply s (f j)⟩

def outputsFrom (m : Machine S I O) : S → List I → List O
  | _,[] => []
  | s,i :: is => (m.apply s i).2 :: m.outputsFrom (m.apply s i).1 is

def outputs (m : Machine S I O) (is : List I) : List O := m.outputsFrom m.init is

def afterFrom (m : Machine S I O) (s : S) (is : List I) : S := is.foldl (fun s i => (m.apply s i).1) s

def after (m : Machine S I O) (is : List I) : S := m.afterFrom m.init is

def answer (m : Machine S I O) (is : List I) (i : I) : O := (m.apply (m.after is) i).2

def trace (m : Machine S I O) (is : List I) : List (I × O) := is.zip (m.outputs is)

theorem afterFrom_append (m : Machine S I O) (s : S) (is is' : List I) :
    m.afterFrom s (is ++ is') = m.afterFrom (m.afterFrom s is) is' := List.foldl_append

theorem after_append (m : Machine S I O) (is is' : List I) : m.after (is ++ is') = m.afterFrom (m.after is) is' :=
  m.afterFrom_append m.init is is'

theorem outputsFrom_append (m : Machine S I O) (s : S) (is is' : List I) :
    m.outputsFrom s (is ++ is') = m.outputsFrom s is ++ m.outputsFrom (m.afterFrom s is) is' := by
  induction is generalizing s with
  | nil => rfl
  | cons i is ih =>
    rw [List.cons_append,outputsFrom,outputsFrom,ih,List.cons_append]
    rfl

theorem length_outputsFrom (m : Machine S I O) (s : S) (is : List I) : (m.outputsFrom s is).length = is.length := by
  induction is generalizing s with
  | nil => rfl
  | cons i is ih => rw [outputsFrom,List.length_cons,List.length_cons,ih]

theorem outputs_concat (m : Machine S I O) (is : List I) (i : I) : m.outputs (is ++ [i]) = m.outputs is ++ [m.answer is i] :=
  m.outputsFrom_append m.init is [i]

theorem trace_concat (m : Machine S I O) (is : List I) (i : I) : m.trace (is ++ [i]) = m.trace is ++ [(i,m.answer is i)] := by
  have hlength : is.length = (m.outputs is).length := (m.length_outputsFrom m.init is).symm
  rw [trace,outputs_concat,List.zip_append hlength]
  rfl

theorem mem_trace {m : Machine S I O} {is : List I} {i : I} {o : O} (h : (i,o) ∈ m.trace is) :
    ∃ before after', is = before ++ i :: after' ∧ o = m.answer before i := by
  induction is using List.reverseRecOn with
  | nil => cases h
  | append_singleton is j ih =>
    rw [trace_concat,List.mem_append,List.mem_singleton] at h
    rcases h with h | h
    · obtain ⟨before,after',rfl,ho⟩ := ih h
      exact ⟨before,after' ++ [j],by simp,ho⟩
    · cases h
      exact ⟨is,[],rfl,rfl⟩

theorem outputs_related {m : Machine S I O} {n : Machine T I P} {R : S → T → Prop}
    {alike : O → P → Prop} {valid : I → Prop} (h0 : R m.init n.init)
    (hstep : ∀ s t i, R s t → valid i →
      R (m.apply s i).1 (n.apply t i).1 ∧ alike (m.apply s i).2 (n.apply t i).2)
    (is : List I) (hv : ∀ i ∈ is, valid i) : List.Forall₂ alike (m.outputs is) (n.outputs is) := by
  have key : ∀ (is : List I) (s : S) (t : T), R s t → (∀ i ∈ is, valid i) →
      List.Forall₂ alike (m.outputsFrom s is) (n.outputsFrom t is) := by
    intro is
    induction is with
    | nil => intro s t _ _; exact List.Forall₂.nil
    | cons i is ih =>
      intro s t hr hv
      obtain ⟨hr',ha⟩ := hstep s t i hr (hv i List.mem_cons_self)
      exact List.Forall₂.cons ha (ih _ _ hr' fun j hj => hv j (List.mem_cons_of_mem i hj))
  exact key is _ _ h0 hv

end Machine
end StructureAi.Foundation

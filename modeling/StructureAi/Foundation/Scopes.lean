import StructureAi.Foundation.Run

/-! # Inputs that do not interfere

Inputs of a kind are isolated where their answers do not depend on the other inputs between them. A
machine with a record for every key isolates the inputs of a key.
-/
namespace StructureAi.Foundation.Machine
variable {S I O K R : Type*}

/-- The answers to the inputs of a kind, in turn. -/
def answersTo (m : Machine S I O) (p : I → Bool) (is : List I) : List O := ((m.trace is).filter fun io => p io.1).map Prod.snd

/-- The answers to the inputs of a kind do not depend on the other inputs. -/
def Isolates (m : Machine S I O) (p : I → Bool) : Prop :=
  ∀ is js : List I, is.filter p = js.filter p → m.answersTo p is = m.answersTo p js

def replay (act : I → Option R → O × Option R) : Option R → List I → List O
  | _,[] => []
  | r,i :: is => (act i r).1 :: replay act (act i r).2 is

variable [DecidableEq K]

/-- Every input reads and writes the record of its key. -/
def keyed (key : I → K) (act : I → Option R → O × Option R) : Machine (K → Option R) I O where
  init _ := none
  apply records i := (Function.update records (key i) (act i (records (key i))).2,(act i (records (key i))).1)

variable {key : I → K} {act : I → Option R → O × Option R} {p : I → Bool} {k : K}

theorem answersFrom_keyed (hp : ∀ i, p i = true ↔ key i = k) (records : K → Option R) (is : List I) :
    ((is.zip ((keyed key act).outputsFrom records is)).filter fun io => p io.1).map Prod.snd =
      replay act (records k) (is.filter p) := by
  induction is generalizing records with
  | nil => rfl
  | cons i is ih =>
    have hnext := ih ((keyed key act).apply records i).1
    rw [outputsFrom,List.zip_cons_cons]
    by_cases hi : p i = true
    · have hkey := (hp i).mp hi
      have hrecord : ((keyed key act).apply records i).1 k = (act i (records k)).2 := by
        change Function.update records (key i) (act i (records (key i))).2 k = _
        rw [hkey,Function.update_self]
      rw [List.filter_cons_of_pos (by exact hi),List.filter_cons_of_pos hi,List.map_cons,replay,hnext,hrecord]
      change (act i (records (key i))).1 :: _ = _
      rw [hkey]
    · have hkey : k ≠ key i := fun h => hi ((hp i).mpr h.symm)
      have hrecord : ((keyed key act).apply records i).1 k = records k := Function.update_of_ne hkey _ _
      rw [List.filter_cons_of_neg (by exact hi),List.filter_cons_of_neg hi,hnext,hrecord]

theorem keyed_isolates (hp : ∀ i, p i = true ↔ key i = k) : (keyed key act).Isolates p := by
  intro is js h
  have his : (keyed key act).answersTo p is = replay act none (is.filter p) := answersFrom_keyed hp _ is
  have hjs : (keyed key act).answersTo p js = replay act none (js.filter p) := answersFrom_keyed hp _ js
  rw [his,hjs,h]

theorem keyed_isolates_of_answers (answer : I → O) (h : ∀ i, p i = true → ∀ r, (act i r).1 = answer i) :
    (keyed key act).Isolates p := by
  have key' : ∀ (is : List I) (records : K → Option R),
      ((is.zip ((keyed key act).outputsFrom records is)).filter fun io => p io.1).map Prod.snd = (is.filter p).map answer := by
    intro is
    induction is with
    | nil => exact fun _ => rfl
    | cons i is ih =>
      intro records
      have hnext := ih ((keyed key act).apply records i).1
      rw [outputsFrom,List.zip_cons_cons]
      by_cases hi : p i = true
      · rw [List.filter_cons_of_pos (by exact hi),List.filter_cons_of_pos hi,List.map_cons,List.map_cons,hnext]
        exact congrArg (· :: _) (h i hi _)
      · rw [List.filter_cons_of_neg (by exact hi),List.filter_cons_of_neg hi,hnext]
  intro is js hfilter
  have his : (keyed key act).answersTo p is = (is.filter p).map answer := key' is _
  have hjs : (keyed key act).answersTo p js = (js.filter p).map answer := key' js _
  rw [his,hjs,hfilter]

/-- Inputs are not isolated from another one that shares their record and changes what they are answered. -/
theorem not_isolates {i j : I} (hi : p i = false) (hj : p j = true) (hkey : key i = key j)
    (hanswer : (act j (act i none).2).1 ≠ (act j none).1) : ¬(keyed key act).Isolates p := by
  intro h
  have hfilter : [i,j].filter p = [j].filter p := by
    rw [List.filter_cons_of_neg (by rw [hi]; exact Bool.false_ne_true)]
  have hanswers := h [i,j] [j] hfilter
  have hnone : (keyed key act).answersTo p [j] = [(act j none).1] := by
    simp [answersTo,trace,outputs,outputsFrom,keyed,hj]
  have hshared : (keyed key act).answersTo p [i,j] = [(act j (act i none).2).1] := by
    simp [answersTo,trace,outputs,outputsFrom,keyed,hi,hj,hkey]
  rw [hnone,hshared] at hanswers
  exact hanswer (List.cons.inj hanswers).1

end StructureAi.Foundation.Machine

import StructureAi.Cqrs.MemoryIdempotency
import StructureAi.Foundation.Scopes
import StructureAi.Foundation.TextUnits

/-! # Scopes of idempotency keys

A scope is a command, an actor or none, and a key, which are any JavaScript strings. The in-memory
store writes the three into one string, between separators that they may hold themselves, and no
actor as the empty one.
-/
namespace StructureAi.Cqrs
open StructureAi.Foundation

structure IdempotencyScope where
  tag : JsString
  actor : Option JsString
  key : JsString
deriving DecidableEq

/-- An `IdempotencyContext` in which surrogates may stand alone. -/
structure ScopedContext where
  scope : IdempotencyScope
  payloadHash : String

inductive IdempotencyCall where
  | begin (context : ScopedContext)
  | complete (context : ScopedContext) (result : Json)
  | release (context : ScopedContext)

inductive IdempotencyReply where
  | begun (outcome : BeginOutcome)
  | done
  | persistenceError
deriving DecidableEq

def IdempotencyCall.context : IdempotencyCall → ScopedContext
  | begin context => context
  | complete context _ => context
  | release context => context

def ofScope (scope : IdempotencyScope) (call : IdempotencyCall) : Bool := call.context.scope = scope

def nul : CodeUnit := unit '\x00'

def IdempotencyScope.compositeKey (scope : IdempotencyScope) : JsString :=
  scope.tag ++ nul :: (scope.actor.getD [] ++ nul :: scope.key)

/-- `IdempotencyStore.inMemory`, call by call. -/
def memoryCalls : Machine (JsString → Option MemoryRecord) IdempotencyCall IdempotencyReply where
  init _ := none
  apply records
    | .begin context =>
      match records context.scope.compositeKey with
      | none => (Function.update records context.scope.compositeKey (some (.claimed context.payloadHash)),.begun .claimed)
      | some existing => (records,.begun (MemoryRecords.found context.payloadHash existing))
    | .complete context result =>
      (Function.update records context.scope.compositeKey (some (.completed context.payloadHash result)),.done)
    | .release context =>
      match records context.scope.compositeKey with
      | some (.claimed _) => (Function.update records context.scope.compositeKey none,.done)
      | _ => (records,.done)

section Records

def MemoryRecord.act : IdempotencyCall → Option MemoryRecord → IdempotencyReply × Option MemoryRecord
  | .begin context,none => (.begun .claimed,some (.claimed context.payloadHash))
  | .begin context,some existing => (.begun (MemoryRecords.found context.payloadHash existing),some existing)
  | .complete context result,_ => (.done,some (.completed context.payloadHash result))
  | .release _,some (.claimed _) => (.done,none)
  | .release _,record => (.done,record)

theorem memoryCalls_keyed :
    memoryCalls = Machine.keyed (fun call => call.context.scope.compositeKey) MemoryRecord.act := by
  refine congrArg (Machine.mk _) (funext fun records => funext fun call => ?_)
  -- a call that leaves its record as it is leaves the map as it is
  have hsame := Function.update_eq_self call.context.scope.compositeKey records
  cases call with
  | begin context =>
    simp only [IdempotencyCall.context] at hsame ⊢
    cases hrecord : records context.scope.compositeKey with
    | none => rfl
    | some existing =>
      rw [hrecord] at hsame
      simp only [MemoryRecord.act,hsame]
  | complete context result => rfl
  | release context =>
    simp only [IdempotencyCall.context] at hsame ⊢
    cases hrecord : records context.scope.compositeKey with
    | none =>
      rw [hrecord] at hsame
      simp only [MemoryRecord.act,hsame]
    | some existing =>
      rw [hrecord] at hsame
      cases existing with
      | claimed payloadHash => rfl
      | completed payloadHash result => simp only [MemoryRecord.act,hsame]

end Records

section Separators
variable {scope : IdempotencyScope}

/-- No part of the scope holds the separator, and its actor shows in the key. -/
def IdempotencyScope.Plain (scope : IdempotencyScope) : Prop :=
  (∃ actor, scope.actor = some actor ∧ actor ≠ [] ∧ nul ∉ actor) ∧ nul ∉ scope.tag ∧ nul ∉ scope.key

theorem compositeKey_unique (h : scope.Plain) {other : IdempotencyScope} (heq : other.compositeKey = scope.compositeKey) :
    other = scope := by
  obtain ⟨⟨actor,hactor,hne,hactor0⟩,htag,hkey⟩ := h
  unfold IdempotencyScope.compositeKey at heq
  rw [hactor,Option.getD_some] at heq
  have hcount := congrArg (List.count nul) heq
  simp only [List.count_append,List.count_cons_self,List.count_eq_zero_of_not_mem htag,List.count_eq_zero_of_not_mem hactor0,
    List.count_eq_zero_of_not_mem hkey] at hcount
  have htag' : nul ∉ other.tag := List.count_eq_zero.mp (by omega)
  have hactor' : nul ∉ other.actor.getD [] := List.count_eq_zero.mp (by omega)
  obtain ⟨htags,hrest⟩ := append_cons_cancel htag' htag heq
  obtain ⟨hactors,hkeys⟩ := append_cons_cancel hactor' hactor0 hrest
  have hshown : other.actor = some actor := by
    cases hother : other.actor with
    | none =>
      rw [hother] at hactors
      exact absurd hactors.symm hne
    | some actor' =>
      rw [hother] at hactors
      exact congrArg some hactors
  obtain ⟨tag,actor',key⟩ := other
  obtain ⟨tag',actor'',key'⟩ := scope
  dsimp only at *
  rw [htags,hshown,hactor,hkeys]

theorem compositeKey_shared (h : ¬scope.Plain) :
    ∃ other : IdempotencyScope, other ≠ scope ∧ other.compositeKey = scope.compositeKey := by
  obtain ⟨tag,actor,key⟩ := scope
  by_cases htag : nul ∈ tag
  · -- the tag ends at its own separator
    obtain ⟨a,b,rfl⟩ := List.append_of_mem htag
    refine ⟨⟨a,some b,actor.getD [] ++ nul :: key⟩,?_,?_⟩
    · intro heq
      simpa using congrArg IdempotencyScope.tag heq
    · simp [IdempotencyScope.compositeKey]
  by_cases hkey : nul ∈ key
  · -- the actor goes to the tag
    obtain ⟨a,b,rfl⟩ := List.append_of_mem hkey
    refine ⟨⟨tag ++ nul :: actor.getD [],some a,b⟩,?_,?_⟩
    · intro heq
      simpa using congrArg IdempotencyScope.tag heq
    · simp [IdempotencyScope.compositeKey]
  cases actor with
  | none =>
    refine ⟨⟨tag,some [],key⟩,?_,rfl⟩
    intro heq
    cases congrArg IdempotencyScope.actor heq
  | some actor =>
    by_cases hempty : actor = []
    · subst hempty
      refine ⟨⟨tag,none,key⟩,?_,rfl⟩
      intro heq
      cases congrArg IdempotencyScope.actor heq
    · have hactor : nul ∈ actor := by
        by_contra hactor
        exact h ⟨⟨actor,rfl,hempty,hactor⟩,htag,hkey⟩
      obtain ⟨a,b,rfl⟩ := List.append_of_mem hactor
      refine ⟨⟨tag,some a,b ++ nul :: key⟩,?_,?_⟩
      · intro heq
        simpa using Option.some.inj (congrArg IdempotencyScope.actor heq)
      · simp [IdempotencyScope.compositeKey]

end Separators

section Isolation

theorem ofScope_iff {scope : IdempotencyScope} {call : IdempotencyCall} :
    ofScope scope call = true ↔ call.context.scope = scope := decide_eq_true_iff

theorem memory_isolates_iff (scope : IdempotencyScope) : memoryCalls.Isolates (ofScope scope) ↔ scope.Plain := by
  rw [memoryCalls_keyed]
  constructor
  · intro h
    by_contra hplain
    obtain ⟨other,hne,hshared⟩ := compositeKey_shared hplain
    refine Machine.not_isolates (i := .begin ⟨other,"h"⟩) (j := .begin ⟨scope,"h"⟩) ?_ ?_ hshared ?_ h
    · exact decide_eq_false hne
    · exact decide_eq_true rfl
    · simp [MemoryRecord.act,MemoryRecords.found,MemoryRecord.payloadHash]
  · intro hplain
    refine Machine.keyed_isolates (k := scope.compositeKey) fun call => ?_
    rw [ofScope_iff]
    constructor
    · intro hscope
      rw [hscope]
    · exact fun hkey => compositeKey_unique hplain hkey

end Isolation
end StructureAi.Cqrs

import StructureAi.Cqrs.IdempotencyScopes

/-! # The PostgreSQL idempotency store

One row for each `(tag, actor, key)`, where no actor is stored as the empty one. Strings are sent as
UTF-8, with U+FFFD for a surrogate that stands alone. Records do not expire here. The text form of
a `jsonb` value is a parameter, and text that holds U+0000 fails the statement.
-/
namespace StructureAi.Postgres
open StructureAi.Foundation StructureAi.Cqrs

inductive IdempotencyStatus where
  | claimed
  | completed
deriving DecidableEq

structure IdempotencyRow where
  status : IdempotencyStatus
  payloadHash : String
  /-- The text form of the `jsonb` value. -/
  result : Option String

abbrev IdempotencyKey := String × String × String

abbrev IdempotencyTable := IdempotencyKey → Option IdempotencyRow

/-- Anonymous dispatches share one scope, stored as the empty actor. -/
def actorColumn (context : IdempotencyContext) : String := context.actor.getD ""

def rowKey (context : IdempotencyContext) : IdempotencyKey := (context.tag,actorColumn context,context.key)

def isText (s : String) : Bool := '\x00' ∉ s.toList

def sendsKey (context : IdempotencyContext) : Bool := isText context.tag && isText (actorColumn context) && isText context.key

variable (jsonb : String → Option String)

namespace IdempotencyTable
variable (table : IdempotencyTable) (context : IdempotencyContext)

def claim : Bool × IdempotencyTable :=
  match table (rowKey context) with
  | some _ => (false,table)
  | none => (true,Function.update table (rowKey context) (some ⟨.claimed,context.payloadHash,none⟩))

def existing (row : IdempotencyRow) : IdempotencyReply :=
  if row.payloadHash ≠ context.payloadHash then .begun .mismatch
  else match row.status with
    | .claimed => .begun .inFlight
    | .completed =>
      match row.result with
      | none => .begun (.completed .null)
      | some text =>
        match Json.parse text with
        | some result => .begun (.completed result)
        | none => .persistenceError

def begin : IdempotencyReply × IdempotencyTable :=
  if sendsKey context && isText context.payloadHash then
    match table.claim context with
    | (true,claimed) => (.begun .claimed,claimed)
    | (false,_) =>
      match table (rowKey context) with
      | some row => (existing context row,table)
      | none => (.begun .inFlight,table)
  else (.persistenceError,table)

def complete (result : Json) : IdempotencyReply × IdempotencyTable :=
  match jsonb (Json.stringify result) with
  | some text =>
    if sendsKey context then
      (.done,Function.update table (rowKey context) ((table (rowKey context)).map fun row =>
        {row with status := .completed, result := some text}))
    else (.persistenceError,table)
  | none => (.persistenceError,table)

def release : IdempotencyReply × IdempotencyTable :=
  if sendsKey context then
    (.done,Function.update table (rowKey context) ((table (rowKey context)).filter fun row => row.status ≠ .claimed))
  else (.persistenceError,table)

end IdempotencyTable

/-- What the driver writes of a string. -/
def sentText (s : JsString) : String := String.ofList (scalarValues s)

def sentContext (context : ScopedContext) : IdempotencyContext :=
  ⟨sentText context.scope.key,sentText context.scope.tag,context.scope.actor.map sentText,context.payloadHash⟩

/-- `idempotencyStoreLayer`, call by call. -/
def tableCalls : Machine IdempotencyTable IdempotencyCall IdempotencyReply where
  init _ := none
  apply table
    | .begin context => ((table.begin (sentContext context)).2,(table.begin (sentContext context)).1)
    | .complete context result =>
      ((table.complete jsonb (sentContext context) result).2,(table.complete jsonb (sentContext context) result).1)
    | .release context => ((table.release (sentContext context)).2,(table.release (sentContext context)).1)

section Rows

/-- What a call does to the row of its key. -/
def IdempotencyRow.act : IdempotencyCall → Option IdempotencyRow → IdempotencyReply × Option IdempotencyRow
  | .begin context,row =>
    if sendsKey (sentContext context) && isText (sentContext context).payloadHash then
      match row with
      | none => (.begun .claimed,some ⟨.claimed,(sentContext context).payloadHash,none⟩)
      | some row => (IdempotencyTable.existing (sentContext context) row,some row)
    else (.persistenceError,row)
  | .complete context result,row =>
    match jsonb (Json.stringify result) with
    | some text =>
      if sendsKey (sentContext context) then
        (.done,row.map fun row => {row with status := .completed, result := some text})
      else (.persistenceError,row)
    | none => (.persistenceError,row)
  | .release context,row =>
    if sendsKey (sentContext context) then (.done,row.filter fun row => row.status ≠ .claimed)
    else (.persistenceError,row)

variable {jsonb}

theorem tableCalls_keyed :
    tableCalls jsonb = Machine.keyed (fun call => rowKey (sentContext call.context)) (IdempotencyRow.act jsonb) := by
  refine congrArg (Machine.mk _) (funext fun table => funext fun call => ?_)
  -- a call that leaves its row as it is leaves the table as it is
  have hsame := Function.update_eq_self (rowKey (sentContext call.context)) table
  cases call with
  | begin context =>
    simp only [IdempotencyCall.context,IdempotencyRow.act,IdempotencyTable.begin,IdempotencyTable.claim] at hsame ⊢
    by_cases hsends : (sendsKey (sentContext context) && isText (sentContext context).payloadHash) = true
    · cases hrow : table (rowKey (sentContext context)) with
      | none => simp only [if_pos hsends]
      | some row =>
        rw [hrow] at hsame
        simp only [if_pos hsends,hsame]
    · simp only [if_neg hsends,hsame]
  | complete context result =>
    simp only [IdempotencyCall.context,IdempotencyRow.act,IdempotencyTable.complete] at hsame ⊢
    cases htext : jsonb (Json.stringify result) with
    | none => simp only [hsame]
    | some text =>
      by_cases hsends : sendsKey (sentContext context) = true
      · simp only [if_pos hsends]
      · simp only [if_neg hsends,hsame]
  | release context =>
    simp only [IdempotencyCall.context,IdempotencyRow.act,IdempotencyTable.release] at hsame ⊢
    by_cases hsends : sendsKey (sentContext context) = true
    · simp only [if_pos hsends]
    · simp only [if_neg hsends,hsame]

end Rows

section Texts
variable {s t : JsString}

/-- The driver replaces no unit, and the string holds no replacement of its own. -/
def SentWhole (s : JsString) : Prop := '\uFFFD' ∉ scalarValues s

theorem SentWhole.unique (h : SentWhole s) (hsent : sentText t = sentText s) : t = s := by
  have hsame : scalarValues t = scalarValues s := String.ofList_injective hsent
  have ht : SentWhole t := by
    unfold SentWhole
    rw [hsame]
    exact h
  rw [← ofText_scalarValues ht,hsame,ofText_scalarValues h]

theorem sentText_shared (h : ¬SentWhole s) : ∃ t, t ≠ s ∧ sentText t = sentText s := by
  obtain ⟨t,hne,hsame⟩ := scalarValues_shared (not_not.mp h)
  exact ⟨t,hne,congrArg String.ofList hsame⟩

end Texts

section Isolation
variable (jsonb : String → Option String) (scope : IdempotencyScope)

def sendsScope (scope : IdempotencyScope) : Bool := sendsKey (sentContext ⟨scope,""⟩)

/-- The row of the scope tells which scope it is of. -/
def ScopeShows (scope : IdempotencyScope) : Prop :=
  ∃ actor, scope.actor = some actor ∧ actor ≠ [] ∧ SentWhole scope.tag ∧ SentWhole actor ∧ SentWhole scope.key

variable {scope}

theorem rowKey_unique (h : ScopeShows scope) {context : ScopedContext}
    (hkey : rowKey (sentContext context) = rowKey (sentContext ⟨scope,""⟩)) : context.scope = scope := by
  obtain ⟨actor,hactor,hne,htag,hwhole,hkeyWhole⟩ := h
  obtain ⟨htags,hrest⟩ := Prod.mk.inj hkey
  obtain ⟨hactors,hkeys⟩ := Prod.mk.inj hrest
  have hshown : context.scope.actor = some actor := by
    have hcolumn : (context.scope.actor.map sentText).getD "" = (scope.actor.map sentText).getD "" := hactors
    rw [hactor,Option.map_some,Option.getD_some] at hcolumn
    cases hother : context.scope.actor with
    | none =>
      rw [hother] at hcolumn
      exact absurd (hwhole.unique (t := []) hcolumn).symm hne
    | some actor' =>
      rw [hother] at hcolumn
      exact congrArg some (hwhole.unique hcolumn)
  have htag' : context.scope.tag = scope.tag := htag.unique htags
  have hkey' : context.scope.key = scope.key := hkeyWhole.unique hkeys
  obtain ⟨⟨tag,actor',key⟩,payloadHash⟩ := context
  obtain ⟨tag',actor'',key'⟩ := scope
  dsimp only at htag' hshown hactor hkey' ⊢
  rw [htag',hshown,hactor,hkey']

theorem rowKey_shared (h : ¬ScopeShows scope) : ∃ other : IdempotencyScope, other ≠ scope ∧
    ∀ payloadHash, rowKey (sentContext ⟨other,payloadHash⟩) = rowKey (sentContext ⟨scope,payloadHash⟩) := by
  obtain ⟨tag,actor,key⟩ := scope
  cases actor with
  | none =>
    refine ⟨⟨tag,some [],key⟩,?_,fun _ => rfl⟩
    intro heq
    cases congrArg IdempotencyScope.actor heq
  | some actor =>
    by_cases hempty : actor = []
    · subst hempty
      refine ⟨⟨tag,none,key⟩,?_,fun _ => rfl⟩
      intro heq
      cases congrArg IdempotencyScope.actor heq
    by_cases htag : SentWhole tag
    · by_cases hactor : SentWhole actor
      · have hkey : ¬SentWhole key := fun hkey => h ⟨actor,rfl,hempty,htag,hactor,hkey⟩
        obtain ⟨key',hne,hsent⟩ := sentText_shared hkey
        refine ⟨⟨tag,some actor,key'⟩,fun heq => hne (congrArg IdempotencyScope.key heq),fun _ => ?_⟩
        simp only [rowKey,sentContext,actorColumn,hsent]
      · obtain ⟨actor',hne,hsent⟩ := sentText_shared hactor
        refine ⟨⟨tag,some actor',key⟩,fun heq => hne (Option.some.inj (congrArg IdempotencyScope.actor heq)),fun _ => ?_⟩
        simp only [rowKey,sentContext,actorColumn,Option.map_some,hsent]
    · obtain ⟨tag',hne,hsent⟩ := sentText_shared htag
      refine ⟨⟨tag',some actor,key⟩,fun heq => hne (congrArg IdempotencyScope.tag heq),fun _ => ?_⟩
      simp only [rowKey,sentContext,actorColumn,hsent]

variable (scope)

/-- The table isolates the scopes that their rows show, and those that it never takes. -/
theorem table_isolates_iff : (tableCalls jsonb).Isolates (ofScope scope) ↔
    ScopeShows scope ∨ sendsScope scope = false := by
  rw [tableCalls_keyed]
  constructor
  · intro h
    by_contra hshared
    rw [not_or,Bool.not_eq_false] at hshared
    obtain ⟨hshows,hsends⟩ := hshared
    obtain ⟨other,hne,hkey⟩ := rowKey_shared hshows
    have hother : sendsKey (sentContext ⟨other,"h"⟩) = true := by
      rw [← hsends]
      obtain ⟨htag,hrest⟩ := Prod.mk.inj (hkey "h")
      obtain ⟨hactor',hkey'⟩ := Prod.mk.inj hrest
      rw [sendsKey,htag,hactor',hkey']
      rfl
    refine Machine.not_isolates (i := .begin ⟨other,"h"⟩) (j := .begin ⟨scope,"h"⟩) ?_ ?_ (hkey "h") ?_ h
    · exact decide_eq_false hne
    · exact decide_eq_true rfl
    · have hletter : isText "h" = true := by decide
      have hclaims : ∀ scope : IdempotencyScope, sendsKey (sentContext ⟨scope,"h"⟩) = true →
          IdempotencyRow.act jsonb (.begin ⟨scope,"h"⟩) none = (.begun .claimed,some ⟨.claimed,"h",none⟩) := by
        intro scope hsends
        exact if_pos (Bool.and_eq_true_iff.mpr ⟨hsends,hletter⟩)
      have hfinds : IdempotencyRow.act jsonb (.begin ⟨scope,"h"⟩) (some ⟨.claimed,"h",none⟩) =
          (.begun .inFlight,some ⟨.claimed,"h",none⟩) := by
        refine (if_pos (Bool.and_eq_true_iff.mpr ⟨hsends,hletter⟩)).trans ?_
        simp [IdempotencyTable.existing,sentContext]
      rw [hclaims other hother,hclaims scope hsends,hfinds]
      exact fun heq => by cases heq
  · rintro (hshows | hsends)
    · refine Machine.keyed_isolates (k := rowKey (sentContext ⟨scope,""⟩)) fun call => ?_
      rw [ofScope_iff]
      constructor
      · intro hscope
        rw [← hscope]
        rfl
      · exact fun hkey => rowKey_unique hshows hkey
    · refine Machine.keyed_isolates_of_answers (fun _ => .persistenceError) ?_
      intro call hcall row
      have hnot : sendsKey (sentContext call.context) = false := by
        rw [← hsends,← ofScope_iff.mp hcall]
        rfl
      cases call with
      | begin context =>
        have hcontext : sendsKey (sentContext context) = false := hnot
        simp [IdempotencyRow.act,hcontext]
      | complete context result =>
        have hcontext : sendsKey (sentContext context) = false := hnot
        cases htext : jsonb (Json.stringify result) with
        | none => simp [IdempotencyRow.act,htext]
        | some text => simp [IdempotencyRow.act,htext,hcontext]
      | release context =>
        have hcontext : sendsKey (sentContext context) = false := hnot
        simp [IdempotencyRow.act,hcontext]

/-- Which scopes are answered whatever the calls of others: in memory those with an actor that shows and no
separator inside, and in the table those that their rows show, or that it never takes. -/
theorem scopes_isolated_iff : (memoryCalls.Isolates (ofScope scope) ↔ scope.Plain) ∧
    ((tableCalls jsonb).Isolates (ofScope scope) ↔ ScopeShows scope ∨ sendsScope scope = false) :=
  ⟨memory_isolates_iff scope,table_isolates_iff jsonb scope⟩

end Isolation

def placeOrder (actor : Option JsString) : IdempotencyScope := ⟨ofText "PlaceOrder".toList,actor,ofText "k".toList⟩

def beginOrder (actor : Option JsString) : IdempotencyCall := .begin ⟨placeOrder actor,"h"⟩

/-- An anonymous dispatch finds the claim of the actor with the empty name, and in the table an actor that of another
whose name ends with a surrogate. -/
theorem anonymous_shares_claim :
    [beginOrder (some []),beginOrder none].filter (ofScope (placeOrder none)) =
      [beginOrder none].filter (ofScope (placeOrder none)) ∧
    memoryCalls.answersTo (ofScope (placeOrder none)) [beginOrder none] = [.begun .claimed] ∧
    memoryCalls.answersTo (ofScope (placeOrder none)) [beginOrder (some []),beginOrder none] = [.begun .inFlight] ∧
    (tableCalls some).answersTo (ofScope (placeOrder none)) [beginOrder none] = [.begun .claimed] ∧
    (tableCalls some).answersTo (ofScope (placeOrder none)) [beginOrder (some []),beginOrder none] = [.begun .inFlight] ∧
    (tableCalls some).answersTo (ofScope (placeOrder (some [97,0xD800]))) [beginOrder (some [97,0xD800])] =
      [.begun .claimed] ∧
    (tableCalls some).answersTo (ofScope (placeOrder (some [97,0xD800])))
      [beginOrder (some [97,0xFFFD]),beginOrder (some [97,0xD800])] = [.begun .inFlight] :=
  ⟨rfl,rfl,rfl,rfl,rfl,rfl,by decide +kernel⟩

end StructureAi.Postgres

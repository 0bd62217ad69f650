import StructureAi.Authorization.Policy

/-! # Who a dispatch is authorized for

A fiber carries a principal and, beside it, the correlation context with the id of an actor. The
bus asks for the actor, the message rules for the principal, and where there is none they may look
one up for the actor. Taking the principal away leaves the actor there.
-/
namespace StructureAi.Authorization

variable {α P : Type}

section Fibers

structure CorrelationContext where
  correlationId : Option String
  causationId : Option String
  requestId : Option String
  actor : Option String

def definedEntry (value : Option String) : Option String := value.filter fun text => text ≠ ""

/-- The context with the identifiers of another one merged into it. -/
def CorrelationContext.merge (parent context : CorrelationContext) : CorrelationContext where
  correlationId := (definedEntry context.correlationId).or parent.correlationId
  causationId := (definedEntry context.causationId).or parent.causationId
  requestId := (definedEntry context.requestId).or parent.requestId
  actor := (definedEntry context.actor).or parent.actor

/-- The fiber-local values. -/
structure FiberRefs (α : Type) where
  principal : Option (Principal α)
  correlation : CorrelationContext

def FiberRefs.within (refs : FiberRefs α) (principal : Principal α) : FiberRefs α :=
  ⟨some principal,refs.correlation.merge ⟨none,none,none,some principal.id⟩⟩

def FiberRefs.withoutPrincipal (refs : FiberRefs α) : FiberRefs α := {refs with principal := none}

end Fibers

section Rules

/-- What a message requires; `everyone` stands for `open`. -/
inductive Requirement (α : Type) where
  | everyone
  | permission (permission : String) (scope : Option String) (attributes : Option (List (String × α)))

inductive MessageRule (α P : Type) where
  | permission (permission : String)
  | everyone
  | ofPayload (requirement : P → Requirement α)

def resolveRequirement : MessageRule α P → P → Requirement α
  | .permission permission,_ => .permission permission none none
  | .everyone,_ => .everyone
  | .ofPayload requirement,payload => requirement payload

structure AuthorizationRequest (P : Type) where
  tag : String
  payload : P
  actor : Option String

structure Unauthorized where
  tag : String
  reason : String
  actor : Option String

/-- How a dispatch is stopped. -/
inductive Refusal where
  | unauthorized (error : Unauthorized)
  /-- A condition of the policy throws. -/
  | defect

structure CqrsAuthorizationRules (α P : Type) where
  /-- The `decide` of the policy, unless it throws. -/
  decide : Principal α → String → CheckOptions α → Option Decision
  rules : List (String × MessageRule α P)
  allowUnmapped : Bool
  resolvePrincipal : Option (String → Option (Principal α))

def isAnonymous (principal : Principal α) : Bool :=
  match principal.kind with
  | some .anonymous => true
  | _ => false

namespace CqrsAuthorizationRules
variable (rules : CqrsAuthorizationRules α P)

/-- Who is looked up for the actor of the request. -/
def resolved (request : AuthorizationRequest P) : Option (Principal α) :=
  request.actor.bind fun actor => rules.resolvePrincipal.bind fun resolvePrincipal => resolvePrincipal actor

def principalFor (attached : Option (Principal α)) (request : AuthorizationRequest P) : Option (Principal α) :=
  match attached with
  | some principal => some principal
  | none => rules.resolved request

def deny (request : AuthorizationRequest P) (reason : String) : Except Refusal Unit :=
  .error (.unauthorized ⟨request.tag,reason,request.actor⟩)

/-- What the rules and the policy give a caller. -/
def authorizeAs (caller : Option (Principal α)) (request : AuthorizationRequest P) : Except Refusal Unit :=
  match rules.rules.lookup request.tag with
  | none =>
    if rules.allowUnmapped then .ok () else deny request ("no authorization rule for \"" ++ request.tag ++ "\"")
  | some rule =>
    match resolveRequirement rule request.payload,caller with
    | .everyone,_ => .ok ()
    | .permission _ _ _,none => deny request "unauthenticated: no principal attached"
    | .permission permission scope attributes,some principal =>
      match rules.decide principal permission ⟨scope,attributes⟩ with
      | none => .error .defect
      | some decision =>
        if decision.allowed then .ok ()
        else deny request (if isAnonymous principal then "unauthenticated: " ++ decision.reason else decision.reason)

/-- `authorize`, on a fiber with the given principal. -/
def authorize (attached : Option (Principal α)) (request : AuthorizationRequest P) : Except Refusal Unit :=
  rules.authorizeAs (rules.principalFor attached request) request

end CqrsAuthorizationRules
end Rules

section Scopes

/-- What runs on a fiber, first to last: a part on behalf of a principal, a part on behalf of none,
or the dispatch of a message, whose handler runs if the dispatch is authorized. -/
inductive Work (α P : Type) where
  | done
  | within (principal : Principal α) (body next : Work α P)
  | withoutPrincipal (body next : Work α P)
  | dispatch (tag : String) (payload : P) (correlationId messageId : String) (handler next : Work α P)

/-- The innermost enclosing `within` or `without`. -/
inductive Enclosing (α : Type) where
  | neither
  | within (principal : Principal α)
  | withoutPrincipal

/-- A dispatch that was authorized or not, and where it stood. -/
structure Dispatched (α P : Type) where
  enclosing : Enclosing α
  request : AuthorizationRequest P
  outcome : Except Refusal Unit

/-- The fiber of a handler names the message as the cause. -/
def FiberRefs.handling (refs : FiberRefs α) (correlationId messageId : String) (actor : Option String) : FiberRefs α :=
  {refs with correlation := refs.correlation.merge ⟨some (refs.correlation.correlationId.getD correlationId),some messageId,
    none,actor⟩}

/-- Every dispatch of the work, none with an actor of its own, and how it was authorized. -/
def dispatches (rules : CqrsAuthorizationRules α P) (enclosing : Enclosing α) (refs : FiberRefs α) : Work α P →
    List (Dispatched α P)
  | .done => []
  | .within principal body next =>
    dispatches rules (.within principal) (refs.within principal) body ++ dispatches rules enclosing refs next
  | .withoutPrincipal body next =>
    dispatches rules .withoutPrincipal refs.withoutPrincipal body ++ dispatches rules enclosing refs next
  | .dispatch tag payload correlationId messageId handler next =>
    let actor := refs.correlation.actor
    let request : AuthorizationRequest P := ⟨tag,payload,actor⟩
    let outcome := rules.authorize refs.principal request
    let handled := match outcome with
      | .ok () => dispatches rules enclosing (refs.handling correlationId messageId actor) handler
      | .error _ => []
    ⟨enclosing,request,outcome⟩ :: (handled ++ dispatches rules enclosing refs next)

/-- Whom a dispatch is for, by where it stands. -/
def Enclosing.caller : Enclosing α → Option (Option (Principal α))
  | neither => none
  | within principal => some (some principal)
  | withoutPrincipal => some none

def Authorized (outcome : Except Refusal Unit) : Prop := outcome.toBool = true

instance (outcome : Except Refusal Unit) : Decidable (Authorized outcome) :=
  inferInstanceAs (Decidable (outcome.toBool = true))

/-- The dispatch is authorized as the policy says of whom it is for. -/
def Dispatched.Lexical (rules : CqrsAuthorizationRules α P) (x : Dispatched α P) : Prop :=
  ∀ caller, x.enclosing.caller = some caller → (Authorized x.outcome ↔ Authorized (rules.authorizeAs caller x.request))

/-- Nobody is looked up for a dispatch without a principal who could do more than nobody can. -/
def Dispatched.Lowered (rules : CqrsAuthorizationRules α P) (x : Dispatched α P) : Prop :=
  x.enclosing = .withoutPrincipal → ∀ principal, rules.resolved x.request = some principal →
    Authorized (rules.authorizeAs (some principal) x.request) → Authorized (rules.authorizeAs none x.request)

variable {rules : CqrsAuthorizationRules α P} {enclosing : Enclosing α} {refs : FiberRefs α}

/-- The fiber carries the principal of the innermost `within`, or none. -/
def FiberRefs.Stands (refs : FiberRefs α) (enclosing : Enclosing α) : Prop :=
  ∀ caller, enclosing.caller = some caller → refs.principal = caller

theorem CqrsAuthorizationRules.authorized_of_nobody (rules : CqrsAuthorizationRules α P) (caller : Option (Principal α))
    {request : AuthorizationRequest P} (h : Authorized (rules.authorizeAs none request)) :
      Authorized (rules.authorizeAs caller request) := by
  unfold CqrsAuthorizationRules.authorizeAs at h ⊢
  cases hrule : rules.rules.lookup request.tag with
  | none =>
    rw [hrule] at h
    exact h
  | some rule =>
    rw [hrule] at h
    cases hrequirement : resolveRequirement rule request.payload with
    | everyone =>
      simp only [hrequirement]
      rfl
    | permission permission scope attributes =>
      simp only [hrequirement] at h
      cases h

theorem outcome_of_mem (hs : refs.Stands enclosing) {work : Work α P} {x : Dispatched α P}
    (hx : x ∈ dispatches rules enclosing refs work) :
    ∀ caller, x.enclosing.caller = some caller → x.outcome = rules.authorize caller x.request := by
  induction work generalizing enclosing refs with
  | done => cases hx
  | within principal body next ihbody ihnext =>
    rcases List.mem_append.mp hx with hbody | hnext
    · apply ihbody _ hbody
      intro caller hcaller
      exact Option.some.inj hcaller
    · exact ihnext hs hnext
  | withoutPrincipal body next ihbody ihnext =>
    rcases List.mem_append.mp hx with hbody | hnext
    · apply ihbody _ hbody
      intro caller hcaller
      exact Option.some.inj hcaller
    · exact ihnext hs hnext
  | dispatch tag payload correlationId messageId handler next ihhandler ihnext =>
    rcases List.mem_cons.mp hx with rfl | hlater
    · intro caller hcaller
      rw [hs caller hcaller]
    · rcases List.mem_append.mp hlater with hhandled | hnext
      · have hs' : (refs.handling correlationId messageId refs.correlation.actor).Stands enclosing := hs
        split at hhandled
        · exact ihhandler hs' hhandled
        · cases hhandled
      · exact ihnext hs hnext

/-- Authority is lexical just where no dispatch gets more by its actor than nobody gets. -/
theorem authority_lexical (rules : CqrsAuthorizationRules α P) (refs : FiberRefs α) (work : Work α P) :
    ∀ x ∈ dispatches rules .neither refs work, x.Lexical rules ↔ x.Lowered rules := by
  intro x hx
  have hstands : refs.Stands .neither := by
    intro caller hcaller
    cases hcaller
  have houtcome := outcome_of_mem hstands hx
  constructor
  · intro hlexical henclosing principal hresolved hallowed
    have hcaller : x.enclosing.caller = some none := by rw [henclosing]; rfl
    apply (hlexical none hcaller).mp
    rw [houtcome none hcaller,CqrsAuthorizationRules.authorize,CqrsAuthorizationRules.principalFor,hresolved]
    exact hallowed
  · intro hlowered caller hcaller
    rw [houtcome caller hcaller,CqrsAuthorizationRules.authorize]
    cases caller with
    | some principal => rfl
    | none =>
      have henclosing : x.enclosing = .withoutPrincipal := by
        cases hx : x.enclosing with
        | withoutPrincipal => rfl
        | neither =>
          rw [hx] at hcaller
          cases hcaller
        | within principal =>
          rw [hx] at hcaller
          cases hcaller
      cases hresolved : rules.resolved x.request with
      | none => simp only [CqrsAuthorizationRules.principalFor,hresolved]
      | some principal =>
        simp only [CqrsAuthorizationRules.principalFor,hresolved]
        constructor
        · exact hlowered henclosing principal hresolved
        · exact CqrsAuthorizationRules.authorized_of_nobody rules (some principal)

def invoicing : PolicyDefinition where
  resources := [("invoice",["approve"])]
  roles := [("admin",⟨none,some [.always "invoice:approve"]⟩)]
  resourceKeys := by decide
  roleKeys := by decide

def ada : Principal Unit := ⟨"ada",[.everywhere "admin"],none,none,none⟩

def invoicingPolicy : Policy Unit := ⟨invoicing,[],[("admin",[("invoice:approve",none)])]⟩

/-- The rules of the bus, with a directory that knows one user. -/
def invoicingRules : CqrsAuthorizationRules Unit Unit where
  decide principal permission options := some (invoicingPolicy.decide principal permission (some options))
  rules := [("ApproveInvoice",.permission "invoice:approve")]
  allowUnmapped := false
  resolvePrincipal := some fun actor => if actor = "ada" then some ada else none

def approval : Work Unit Unit := .dispatch "ApproveInvoice" () "c-1" "m-1" .done .done

theorem authority_lexical_within : ∃ x ∈ dispatches invoicingRules .neither ⟨none,
    ⟨none,none,none,none⟩⟩ (.within ada approval .done),
    x.enclosing.caller = some (some ada) ∧ (x.Lexical invoicingRules ↔ x.Lowered invoicingRules) :=
  ⟨_,List.mem_cons_self,rfl,authority_lexical invoicingRules _ (.within ada approval .done) _ List.mem_cons_self⟩

/-- The dispatch that the user takes her principal away from. -/
def loweredApproval : Work Unit Unit := .within ada (.withoutPrincipal approval .done) .done

/-- The dispatch is authorized, though it is for nobody and nobody may approve. -/
theorem authority_lexical_left_behind : make invoicing ([] : ConditionMap Unit) = some (.ok invoicingPolicy) ∧
    ∃ x ∈ dispatches invoicingRules .neither ⟨none,⟨none,none,none,none⟩⟩ loweredApproval,
      x.enclosing.caller = some none ∧ Authorized x.outcome ∧ ¬ x.Lexical invoicingRules := by
  have hnobody : ¬ Authorized (invoicingRules.authorizeAs none ⟨"ApproveInvoice",(),some "ada"⟩) := by decide +kernel
  have hada : Authorized (invoicingRules.authorize none ⟨"ApproveInvoice",(),some "ada"⟩) := by decide +kernel
  refine ⟨rfl,_,List.mem_cons_self,rfl,hada,?_⟩
  intro hlexical
  exact hnobody ((hlexical none rfl).mp hada)

end Scopes
end StructureAi.Authorization

import StructureAi.Foundation.Expression
import StructureAi.Foundation.Separated

/-! # Route labels

The template that telemetry books a request under. The templates of an api and those mounted next to
it are compiled to anchored expressions, which are tried one after another. The router, which is the
platform's, takes a path segment by segment.
-/
namespace StructureAi.Http.Routes
open StructureAi.Foundation

section Templates

inductive HttpMethod where
  | get
  | post
  | put
  | patch
  | delete
  | head
  | options
deriving DecidableEq

inductive Segment where
  | literal (text : List Char)
  | param (name : List Char) (constraint : Option (List Char))
  | wildcard
deriving DecidableEq

def Segment.text : Segment → List Char
  | .literal text => text
  | .param name none => ':' :: name
  | .param name (some constraint) => ':' :: (name ++ '(' :: (constraint ++ [')']))
  | .wildcard => ['*']

/-- `[A-Za-z0-9_]`. -/
def isWordChar (c : Char) : Bool := c.isAlphanum || c = '_'

/-- A literal has none of the marks of the syntax, and a name is a word. -/
def Segment.WellFormed : Segment → Prop
  | .literal text => ∀ c ∈ text, c ≠ '/' ∧ c ≠ ':' ∧ c ≠ '*'
  | .param name _ => name ≠ [] ∧ ∀ c ∈ name, isWordChar c = true
  | .wildcard => True

instance : (s : Segment) → Decidable s.WellFormed
  | .literal text => List.decidableBAll (fun c => c ≠ '/' ∧ c ≠ ':' ∧ c ≠ '*') text
  | .param name _ => @instDecidableAnd (name ≠ []) (∀ c ∈ name, isWordChar c = true) inferInstance (List.decidableBAll _ name)
  | .wildcard => inferInstanceAs (Decidable True)

structure Template where
  segments : List Segment
  nonempty : segments ≠ []
  wellFormed : ∀ s ∈ segments, s.WellFormed
  wildcard_last : ∀ s ∈ segments.dropLast, s ≠ .wildcard

def Template.text (template : Template) : List Char := template.segments.flatMap fun s => '/' :: s.text

structure Endpoint where
  method : HttpMethod
  template : Template

end Templates

section Compiling

/-- What `.` does not match. -/
def isLineTerminator (c : Char) : Bool := c = '\n' || c = '\r' || c = '\u2028' || c = '\u2029'

/-- `[^/]+`. -/
def anySegment : Atom Char := .plus fun c => c ≠ '/'

/-- `.*`. -/
def anyRest : Atom Char := .star fun c => !isLineTerminator c

/-- How much of what follows a colon is the name of a parameter and its constraint,
  which ends at the first parenthesis that closes. -/
def paramLength (rest : List Char) : ℕ :=
  let name := rest.takeWhile isWordChar
  let constraint := match rest.dropWhile isWordChar with
    | '(' :: inside => if ')' ∈ inside then (inside.takeWhile (· ≠ ')')).length + 2 else 0
    | _ => 0
  name.length + constraint

/-- The tokens of a segment; the first argument counts the characters left of the token before. -/
def tokens : ℕ → List Char → List (Atom Char)
  | _,[] => []
  | left + 1,_ :: rest => tokens left rest
  | 0,c :: rest =>
    if c = ':' ∧ rest.head?.any isWordChar = true then anySegment :: tokens (paramLength rest) rest
    else .one c :: tokens 0 rest

def compileSegment (segment : List Char) : List (Atom Char) := if segment = ['*'] then [anyRest] else tokens 0 segment

def compileTemplate (template : List Char) : List (Atom Char) :=
  [Atom.one '/'].intercalate ((template.splitOn '/').map compileSegment)

end Compiling

section Labels

/-- `UNMATCHED_ROUTE`. -/
def unmatchedRoute : List Char := "(unmatched)".toList

/-- The pattern of a template; one without a method stands for all. -/
structure RoutePattern where
  method : Option HttpMethod
  template : List Char

def Template.pattern (method : Option HttpMethod) (template : Template) : RoutePattern := ⟨method,template.text⟩

def RoutePattern.test (pattern : RoutePattern) (path : List Char) : Bool := Atom.matchAll (compileTemplate pattern.template) path

def matchRoute (patterns : List RoutePattern) (method : HttpMethod) (path : List Char) : List Char :=
  let candidates := patterns.filter (fun p => p.method = some method) ++ patterns.filter (fun p => p.method = none)
  match candidates.find? fun candidate => candidate.test path with
  | some candidate => candidate.template
  | none => unmatchedRoute

def routeLabel (endpoints : List Endpoint) (extra : List Template) : HttpMethod → List Char → List Char :=
  matchRoute (endpoints.map (fun e => e.template.pattern (some e.method)) ++ extra.map (Template.pattern none))

/-- The label is resolved for the part of the url before its query. -/
def withRouteLabel (resolve : HttpMethod → List Char → List Char) (method : HttpMethod) (url : List Char) : List Char :=
  resolve method (url.takeWhile (· ≠ '?'))

end Labels

section Routing
variable (admits : List Char → List Char → Bool)

/-- A segment of a template takes a segment of a path. -/
def Segment.accepts : Segment → List Char → Bool
  | .literal text,part => part = text
  | .param _ none,part => !part.isEmpty
  | .param _ (some constraint),part => !part.isEmpty && admits constraint part
  | .wildcard,_ => true

/-- A template takes a path, given by its segments. -/
def takes : List Segment → List (List Char) → Bool
  | [],[] => true
  | s :: segments,part :: parts => s = .wildcard || (s.accepts admits part && takes segments parts)
  | _,_ => false

def Segment.rank : Segment → ℕ
  | .literal _ => 0
  | .param _ (some _) => 1
  | .param _ none => 2
  | .wildcard => 3

/-- Two segments are the same to the router, which does not mind the names. -/
def Segment.Same : Segment → Segment → Prop
  | .literal text,.literal other => text = other
  | .param _ constraint,.param _ other => constraint = other
  | .wildcard,.wildcard => True
  | _,_ => False

/-- Where the two part first, the one is the more specific. -/
def Preferred : List Segment → List Segment → Prop
  | s :: segments,t :: others => s.rank < t.rank ∨ s.Same t ∧ Preferred segments others
  | _,_ => False

/-- A request without percent-escapes, as the router answers it. -/
structure Request where
  method : HttpMethod
  parts : List (List Char)
  query : List Char
  served : method = .get ∨ method = .post
  nonempty : parts ≠ []
  plain : ∀ part ∈ parts, ∀ c ∈ part, c ≠ '/' ∧ c ≠ '?' ∧ c ≠ '%' ∧ isLineTerminator c = false
  query_marked : query = [] ∨ query.head? = some '?'

def Request.path (request : Request) : List Char := request.parts.flatMap ('/' :: ·)

def Request.url (request : Request) : List Char := request.path ++ request.query

/-- The router of the platform. -/
structure Router where
  dispatch : List Endpoint → Request → Option Endpoint
  sound : ∀ endpoints request e, dispatch endpoints request = some e →
    e ∈ endpoints ∧ e.method = request.method ∧ takes admits e.template.segments request.parts = true
  complete : ∀ endpoints request e, e ∈ endpoints → e.method = request.method →
    takes admits e.template.segments request.parts = true → (dispatch endpoints request).isSome = true
  prefers : ∀ endpoints request e, dispatch endpoints request = some e → ∀ other ∈ endpoints, other.method = request.method →
    takes admits other.template.segments request.parts = true → ¬ Preferred other.template.segments e.template.segments

/-- An api and the templates mounted next to it, which take none of its paths. -/
structure Api where
  endpoints : List Endpoint
  extra : List Template
  distinct : (endpoints.map fun e => (e.method,e.template.text)).Nodup
  apart : ∀ e ∈ endpoints, ∀ t ∈ extra, ∀ parts,
    ¬ (takes admits e.template.segments parts = true ∧ takes admits t.segments parts = true)

variable {admits} (router : Router admits) (api : Api admits) (request : Request)

def Api.label : List Char := withRouteLabel (routeLabel api.endpoints api.extra) request.method request.url

/-- The label is the template served, and no label says that nothing takes the request. -/
def LabelExact : Prop :=
  (∀ e, router.dispatch api.endpoints request = some e → api.label request = e.template.text) ∧
  (api.label request = unmatchedRoute ↔
    router.dispatch api.endpoints request = none ∧ ∀ t ∈ api.extra, takes admits t.segments request.parts = false)

end Routing

end StructureAi.Http.Routes

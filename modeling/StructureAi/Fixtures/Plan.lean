import StructureAi.Foundation.Entries

/-! # Fixtures

Fixtures are objects that name others as their dependencies. They are put in an order by a search that goes down from
the roots, and created one after the other. Calls are nested no deeper than there are fixtures.
-/
namespace StructureAi.Fixtures
open StructureAi.Foundation

/-- The key of each fixture and its dependencies, by their names. -/
structure Graph (α : Type*) where
  key : α → String
  dependencies : α → List (String × α)

inductive Reason
  | disabled
  | definition
  | execution
deriving DecidableEq

structure FixtureError (ε : Type*) where
  reason : Reason
  detail : String
  completed : List String
  step : String
  cause : Option ε

section Keys

def isKeyChar (c : Char) : Bool := c.isAlphanum || c = '/' || c = '_' || c = '-'

/-- `keyPattern` -/
def isKey (key : String) : Bool :=
  match key.toList with
  | [] => false
  | c :: cs => c.isAlphanum && cs.length ≤ 127 && cs.all isKeyChar

end Keys

section Plan
variable {α ε : Type*} [DecidableEq α] (graph : Graph α)

def invalid (detail : String) : FixtureError ε := ⟨.definition,detail,[],"",none⟩

structure Search (α : Type*) where
  seen : List (String × α)
  visiting : List String
  nodes : List α

def visit : ℕ → α → Search α → Except (FixtureError ε) (Search α)
  | 0,_,_ => .error (invalid "Invalid fixture graph")
  | depth + 1,node,search =>
    if isKey (graph.key node) then
      let existing := search.seen.lookup (graph.key node)
      if existing ≠ none ∧ existing ≠ some node then
        .error (invalid ("Conflicting fixture definitions for " ++
          graph.key node ++ "; share one object or choose distinct keys"))
      else if graph.key node ∈ search.visiting then .error (invalid ("Fixture dependency cycle at " ++ graph.key node))
      else if existing ≠ none then .ok search
      else
        let entered : Search α := ⟨put (graph.key node) node search.seen,graph.key node :: search.visiting,search.nodes⟩
        match (graph.dependencies node).foldlM (fun search dependency => visit depth dependency.2 search) entered with
        | .error e => .error e
        | .ok left => .ok ⟨left.seen,left.visiting.erase (graph.key node),left.nodes ++ [node]⟩
    else .error (invalid "Fixture keys must use 1-128 letters, digits, /, _ or -, starting with a letter or digit")

/-- Roots, by their names, and the order that a catalog keeps for them. -/
structure Selection (α : Type*) where
  entries : List (String × α)
  rootOrder : Option (List α)

def Selection.roots (fixtures : Selection α) : List α := fixtures.rootOrder.getD (fixtures.entries.map Prod.snd)

variable [Fintype α]

def ordered (fixtures : Selection α) : Except (FixtureError ε) (List α) :=
  (fixtures.roots.foldlM (fun search root => visit graph (Fintype.card α + 1) root search)
    (⟨[],[],[]⟩ : Search α)).map Search.nodes

def plan (fixtures : Selection α) : Except (FixtureError ε) (List String) :=
    (ordered graph fixtures).map fun nodes => nodes.map graph.key

end Plan

section Run
variable {α ε V : Type*} [DecidableEq α] (graph : Graph α)

/-- What a run has done: the values by key, the keys that are completed, and each fixture that was created with what it
was handed. -/
structure Progress (α V : Type*) where
  values : List (String × V)
  completed : List String
  created : List (α × List (String × Option V))

/-- What is handed to a fixture: for each of its dependencies the value that is there. -/
def inputs (values : List (String × V)) (node : α) : List (String × Option V) :=
  (graph.dependencies node).map fun dependency => (dependency.1,values.lookup (graph.key dependency.2))

variable (progress : ℕ → Except ε Unit) (create : ℕ → α → List (String × Option V) → Except ε V)

/-- The fixtures in turn, each after a report of progress. What stops the run (a failure, a defect, the deadline) is given by the
number of the report or of the creation. -/
def execute : List α → Progress α V → Except ε Unit × Progress α V
  | [],done => (.ok (),done)
  | node :: nodes,done =>
    match progress (done.created.length + 1) with
    | .error cause => (.error cause,done)
    | .ok _ =>
      let handed := inputs graph done.values node
      let calling : Progress α V := {done with created := done.created ++ [(node,handed)]}
      match create done.created.length node handed with
      | .error cause => (.error cause,calling)
      | .ok value => execute nodes {calling with values := put (graph.key node) value done.values,
                                                 completed := done.completed ++ [graph.key node]}

structure RunOptions (α ε : Type*) where
  fixtures : Selection α
  enabled : Option Bool
  /-- `none` is no finite number. -/
  timeoutMs : Option ℚ
  ready : Except ε Unit

structure RunReport (V : Type*) where
  completed : List String
  values : List (String × Option V)

variable [Fintype α]

def run (options : RunOptions α ε) : Except (FixtureError ε) (RunReport V) × Progress α V :=
  let start : Progress α V := ⟨[],[],[]⟩
  if options.enabled = some true then
    if ∃ t ∈ options.timeoutMs, 0 < t then
      match ordered graph options.fixtures with
      | .error e => (.error e,start)
      | .ok nodes =>
        let failed (step : String) (cause : ε) (done : Progress α V) : FixtureError ε :=
          ⟨.execution,"Fixture run failed; partial data remains",done.completed,step,some cause⟩
        match progress 0 with
        | .error cause => (.error (failed "start" cause start),start)
        | .ok _ =>
          match execute graph progress create nodes start with
          | (.error cause,done) => (.error (failed ((nodes.map graph.key).getD done.completed.length "") cause done),done)
          | (.ok _,done) =>
            match progress (nodes.length + 1),options.ready with
            | .error cause,_ => (.error (failed "ready" cause done),done)
            | .ok _,.error cause => (.error (failed "ready" cause done),done)
            | .ok _,.ok _ => (.ok ⟨done.completed,options.fixtures.entries.map fun e =>
                (e.1,done.values.lookup (graph.key e.2))⟩,done)
    else (.error (invalid "timeoutMs must be a finite positive number"),start)
  else (.error ⟨.disabled,"Fixtures are disabled for this application target",[],"",none⟩,start)

end Run

end StructureAi.Fixtures

import WeaveGraph.Core.Federation
import WeaveGraph.Parse.Resolve

/-!
# Migration plans

`weave plan-migration`: which repositories call a symbol of another one, and in which order they can
stop doing so.  `survey` numbers the affected repositories and the provider by their labels, takes
every reference between them as a dependency, and asks `kahn` for an order.
-/

namespace WeaveGraph.Migration

open Lib

/-! ## Kahn's algorithm -/

/-- `ready` is used as a stack and has its last entry first. -/
structure KahnState where
  indegree : List Nat
  ready : List Nat
  order : List Nat

def indegrees (nodeCount : Nat) (edges : List (Nat × Nat)) : List Nat :=
  edges.foldl (fun indegree edge => indegree.modify edge.2 (· + 1)) (List.replicate nodeCount 0)

/-- `dependents[from]`: the targets of the edges out of a node, in their order. -/
def dependents (edges : List (Nat × Nat)) (source : Nat) : List Nat := bucket source edges

def releaseDependent (st : KahnState) (dep : Nat) : KahnState :=
  let indegree := st.indegree.modify dep (· - 1)
  if indegree.getD dep 0 = 0 then ⟨indegree, dep :: st.ready, st.order⟩
  else ⟨indegree, st.ready, st.order⟩

/-- `while let Some(next) = ready.pop()`. -/
def kahnLoop (edges : List (Nat × Nat)) : Nat → KahnState → KahnState
  | 0, st => st
  | fuel + 1, st =>
    match st.ready with
    | [] => st
    | next :: ready => kahnLoop edges fuel
        ((dependents edges next).foldl releaseDependent ⟨st.indegree, ready, st.order ++ [next]⟩)

def kahnStart (nodeCount : Nat) (edges : List (Nat × Nat)) : KahnState :=
  let indegree := indegrees nodeCount edges
  ⟨indegree, ((List.range nodeCount).filter fun n => indegree.getD n 0 = 0).reverse, []⟩

def kahn (nodeCount : Nat) (edges : List (Nat × Nat)) : Option (List Nat) :=
  let order := (kahnLoop edges nodeCount (kahnStart nodeCount edges)).order
  if order.length = nodeCount then some order else none

/-! ## The survey -/

structure RepoGraph where
  label : String
  nodes : List Node
  projectIndex : ProjectIndex
  parsedFiles : List (String × ParsedFile)

structure AffectedRepo where
  label : String
  callerFiles : List String
deriving Repr, DecidableEq

structure Survey where
  provider : String
  affected : List AffectedRepo
  order : Option (List String)
  nodeLabels : List String
  orderingEdges : List (Nat × Nat)
deriving Repr, DecidableEq

def splitMoniker (m : String) : String × String := (Text.splitOnce '#' m).getD ("", m)

structure CrossRef where
  caller : String
  target : String
  sourceFile : String
  targetSymbol : String
deriving Repr, DecidableEq

def pairReferences (langExtended : Bool) (caller provider : RepoGraph) : List CrossRef :=
  caller.parsedFiles.flatMap fun file =>
    (caller.projectIndex.resolveCrossRepo langExtended file.2 provider.projectIndex).map fun edge =>
      ⟨caller.label, provider.label, file.1, (splitMoniker edge.targetMoniker).2⟩

def crossReferences (langExtended : Bool) (repos : List RepoGraph) : List CrossRef :=
  repos.zipIdx.flatMap fun caller =>
    repos.zipIdx.flatMap fun provider =>
      if caller.2 = provider.2 then [] else pairReferences langExtended caller.1 provider.1

inductive SurveyError where
  | noProvider (symbol : String)
  | noCallers (symbol : String)
deriving Repr, DecidableEq

/-- The error texts; `debug` is the quoted form `{:?}` of a text. -/
def SurveyError.message (debug : String → String) : SurveyError → String
  | .noProvider symbol => "no linked repo defines a symbol named " ++ debug symbol
  | .noCallers symbol => "no cross-repo callers of " ++ debug symbol ++
      " found in the linked repos — nothing to plan"

/-- The references to the symbol of the provider, from other repositories. -/
def callerRefs (refs : List CrossRef) (provider symbol : String) : List CrossRef :=
  refs.filter fun r => r.target = provider ∧ r.targetSymbol = symbol ∧ r.caller ≠ provider

/-- The affected repositories by label, each with its files in increasing order. -/
def affectedRepos (callers : List CrossRef) : List AffectedRepo :=
  (Text.sortedSet (callers.map CrossRef.caller)).map fun label =>
    ⟨label, Text.sortedSet ((callers.filter fun r => r.caller = label).map CrossRef.sourceFile)⟩

def orderingEdges (labels : List String) (refs : List CrossRef) : List (Nat × Nat) :=
  (refs.filter fun r => r.caller ∈ labels ∧ r.target ∈ labels).map fun r =>
    (labels.idxOf r.caller, labels.idxOf r.target)

def surveyOf (refs : List CrossRef) (provider : String) (affected : List AffectedRepo) : Survey :=
  let labels := Text.sortedSet (affected.map AffectedRepo.label ++ [provider])
  let edges := orderingEdges labels refs
  { provider := provider
    affected := affected
    order := (kahn labels.length edges).map fun seq => seq.map fun i => labels.getD i ""
    nodeLabels := labels
    orderingEdges := edges }

def survey (langExtended : Bool) (repos : List RepoGraph) (symbol : String) :
    Except SurveyError Survey :=
  match repos.find? fun g => g.nodes.any fun n => n.symbol = symbol with
  | none => .error (.noProvider symbol)
  | some provider =>
    let refs := crossReferences langExtended repos
    let affected := affectedRepos (callerRefs refs provider.label symbol)
    if affected.isEmpty then .error (.noCallers symbol)
    else .ok (surveyOf refs provider.label affected)

/-! ## The command -/

def cycleMessage (s : Survey) : String :=
  let cycles := (tarjanScc (List.range s.nodeLabels.length) s.orderingEdges).filter fun c =>
    c.length > 1
  let names := cycles.map fun c => " -> ".intercalate (c.map fun i => s.nodeLabels.getD i "")
  "cross-repo dependency cycle detected (" ++ " | ".intercalate names ++
    ") — refusing to pick an arbitrary migration order; break the cycle first"

inductive PlanError where
  | sameLabel
  | survey (e : SurveyError)
  | cycle (message : String)
deriving Repr, DecidableEq

def PlanError.message (debug : String → String) : PlanError → String
  | .sameLabel =>
    "two configured repos resolve to the same label — federation needs distinguishable repos"
  | .survey e => e.message debug
  | .cycle message => message

/-- `cmd_plan_migration` up to the rendering of the plan. -/
def planMigration (langExtended : Bool) (repos : List RepoGraph) (symbol : String) :
    Except PlanError (Survey × List String) :=
  if (Text.sortedSet (repos.map RepoGraph.label)).length ≠ repos.length then .error .sameLabel
  else
    match survey langExtended repos symbol with
    | .error e => .error (.survey e)
    | .ok s =>
      match s.order with
      | none => .error (.cycle (cycleMessage s))
      | some order => .ok (s, order)

example : kahn 4 [(0, 1), (1, 3), (2, 3), (0, 1)] = some [2, 0, 1, 3] ∧
    kahn 3 [(0, 1), (1, 2), (2, 1)] = none := by decide

end WeaveGraph.Migration

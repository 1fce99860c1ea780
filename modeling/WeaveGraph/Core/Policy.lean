import Mathlib.Data.List.Rotate
import WeaveGraph.Core.Rbac
import WeaveGraph.Lib.Dict

/-!
# Boundary rules, and dependency cycles between files

`policy.rs`.  `lint_scoped` checks a graph against rules about the edges that cross from one module
into another: a `disallow` rule is broken by an edge that crosses, a `require` rule by the lack of
one.  `find_cycles` is a depth-first search over the files of a graph that cuts a ring out of its
stack at every back edge.  Maps and sets that iterate in the order of their keys are sorted lists.
-/

namespace WeaveGraph.Policy

open Lib

/-- `file_of.get(&id)`: of several nodes with one id the last counts. -/
def fileOf (nodes : List Node) (id : NodeId) : Option String :=
  lookupLast id (nodes.map fun n => (n.id, n.path))

/-! ## Boundary rules -/

structure Boundary where
  fromModule : String
  toModule : String
  allowedRoles : List String
  ownerRole : Option String
deriving Repr, DecidableEq

inductive BoundaryRule where
  | disallow (boundary : Boundary)
  | require (boundary : Boundary)
deriving Repr, DecidableEq

def BoundaryRule.boundary : BoundaryRule → Boundary
  | .disallow b => b
  | .require b => b

structure Violation where
  kind : String
  fromModule : String
  toModule : String
  examples : List String
  ownerRole : Option String
deriving Repr, DecidableEq

/-- What a violation is sorted by and told apart by. -/
def Violation.key (v : Violation) : String × String × String := (v.kind, v.fromModule, v.toModule)

/-- One shared role is enough. -/
def Boundary.exempts (b : Boundary) (currentRoles : List String) : Bool :=
  !b.allowedRoles.isEmpty && b.allowedRoles.any fun role => currentRoles.contains role

/-- `rbac.rs` has a copy of its own. -/
def inModule (path pre : String) : Bool :=
  path == pre || pre == "" || Text.startsWith path (pre ++ "/")

/-- `path_of` is the map `file_of` of the cycle search. -/
def Boundary.crosses (b : Boundary) (nodes : List Node) (edge : Edge) : Bool :=
  match fileOf nodes edge.sourceId, fileOf nodes edge.targetId with
  | some src, some dst => inModule src b.fromModule && inModule dst b.toModule
  | _, _ => false

def Boundary.crossing (b : Boundary) (nodes : List Node) (edges : List Edge) :
    List (NodeId × NodeId) :=
  (edges.filter (b.crosses nodes)).map fun e => (e.sourceId, e.targetId)

/-- The kind of the violation, if the rule is broken. -/
def BoundaryRule.broken (crossing : List (NodeId × NodeId)) : BoundaryRule → Option String
  | .disallow _ => if crossing.isEmpty then none else some "disallow"
  | .require _ => if crossing.isEmpty then some "require" else none

def nodeById (nodes : List Node) (id : NodeId) : Option Node := nodes.find? fun n => n.id == id

def crossingText (nodes : List Node) (ends : NodeId × NodeId) : Option String := do
  let a ← nodeById nodes ends.1
  let b ← nodeById nodes ends.2
  pure (a.symbol ++ " (" ++ a.path ++ ") -> " ++ b.symbol ++ " (" ++ b.path ++ ")")

/-- The violation as it is reported, with at most five of the edges that cross. -/
def Boundary.violation (b : Boundary) (nodes : List Node) (edges : List Edge) (kind : String) :
    Violation where
  kind := kind
  fromModule := b.fromModule
  toModule := b.toModule
  examples := ((b.crossing nodes edges).take 5).filterMap (crossingText nodes)
  ownerRole := b.ownerRole

def lintRule (nodes : List Node) (edges : List Edge) (currentRoles : List String)
    (rule : BoundaryRule) : Option Violation :=
  if rule.boundary.exempts currentRoles then none
  else (rule.broken (rule.boundary.crossing nodes edges)).map (rule.boundary.violation nodes edges)

/-- Sorted by kind, then by the two modules. -/
def Violation.le (a b : Violation) : Bool :=
  a.kind < b.kind || (a.kind == b.kind &&
    (a.fromModule < b.fromModule || (a.fromModule == b.fromModule && a.toModule ≤ b.toModule)))

def lintScoped (nodes : List Node) (edges : List Edge) (rules : List BoundaryRule)
    (currentRoles : List String) : List Violation :=
  (rules.filterMap (lintRule nodes edges currentRoles)).insertionSort fun a b => a.le b

def lint (nodes : List Node) (edges : List Edge) (rules : List BoundaryRule) : List Violation :=
  lintScoped nodes edges rules []

/-- A rule that is broken is reported, unless a role of the caller exempts from it. -/
theorem mem_lintScoped_key {nodes : List Node} {edges : List Edge} {rules : List BoundaryRule}
    {currentRoles : List String} {key : String × String × String} :
    (∃ v ∈ lintScoped nodes edges rules currentRoles, v.key = key) ↔
      ∃ rule ∈ rules, rule.boundary.exempts currentRoles = false ∧
        rule.broken (rule.boundary.crossing nodes edges) = some key.1 ∧
        rule.boundary.fromModule = key.2.1 ∧ rule.boundary.toModule = key.2.2 := by
  obtain ⟨kind, src, dst⟩ := key
  simp only [lintScoped, List.mem_insertionSort, List.mem_filterMap, lintRule]
  constructor
  · rintro ⟨v, ⟨rule, hrule, hv⟩, hkey⟩
    split at hv
    · cases hv
    · rename_i hex
      obtain ⟨k, hk, rfl⟩ := Option.map_eq_some_iff.mp hv
      simp only [Violation.key, Boundary.violation, Prod.mk.injEq] at hkey
      exact ⟨rule, hrule, by simpa using hex, by rw [hk, hkey.1], hkey.2⟩
  · rintro ⟨rule, hrule, hex, hk, rfl, rfl⟩
    refine ⟨rule.boundary.violation nodes edges kind, ⟨rule, hrule, ?_⟩, rfl⟩
    rw [if_neg (by simp [hex]), hk, Option.map_some]

/-! ## Cycles -/

/-- What an edge inserts into the adjacency map. -/
def fileDep (nodes : List Node) (edge : Edge) : Option (String × String) :=
  match fileOf nodes edge.sourceId, fileOf nodes edge.targetId with
  | some a, some b => if a ≠ b then some (a, b) else none
  | _, _ => none

/-- `BTreeMap<&str, BTreeSet<&str>>`, as the pairs that are inserted into it. -/
structure FileGraph where
  pairs : List (String × String)

namespace FileGraph

def ofEdges (nodes : List Node) (edges : List Edge) : FileGraph :=
  ⟨edges.filterMap (fileDep nodes)⟩

def keys (g : FileGraph) : List String := Text.sortedSet (g.pairs.map Prod.fst)

def get (g : FileGraph) (file : String) : List String := Text.sortedSet (bucket file g.pairs)

end FileGraph

/-- The colors of `dfs_cycle`, but for `0`: a file that is not visited has no color. -/
inductive Color where
  | onStack
  | done
deriving Repr, DecidableEq

structure CycleSearch where
  color : FinMap String Color
  stack : List String
  found : List (List String)

namespace CycleSearch

def new : CycleSearch := ⟨.empty, [], []⟩

/-- `stack[start..]`, closed with the file it starts at. -/
def ring (stack : List String) (file : String) : List String :=
  stack.drop ((stack.idxOf? file).getD 0) ++ [file]

def insertRing (found : List (List String)) (ring : List String) : List (List String) :=
  if ring ∈ found then found else found.orderedInsert (· ≤ ·) ring

def enter (st : CycleSearch) (file : String) : CycleSearch :=
  ⟨st.color.insert file .onStack, st.stack ++ [file], st.found⟩

def leave (st : CycleSearch) (file : String) : CycleSearch :=
  ⟨st.color.insert file .done, st.stack.dropLast, st.found⟩

def dfsCycle (adjacency : FileGraph) : Nat → CycleSearch → String → CycleSearch
  | 0, st, _ => st
  | fuel + 1, st, file =>
    match st.color.get file with
    | some .onStack => { st with found := insertRing st.found (ring st.stack file) }
    | some .done => st
    | none => ((adjacency.get file).foldl (dfsCycle adjacency fuel) (st.enter file)).leave file

end CycleSearch

/-- `cycle.iter().enumerate().min_by_key`, which takes the first of several. -/
def minPos (cycle : List String) : Option Nat :=
  cycle.min?.map fun file => cycle.idxOf file

def rotateCanonical (cycle : List String) : List String :=
  match minPos cycle with
  | some pos => cycle.rotate pos
  | none => cycle

/-- The search never is deeper than there are files on its stack. -/
def searchCycles (nodes : List Node) (edges : List Edge) : CycleSearch :=
  (FileGraph.ofEdges nodes edges).keys.foldl
    (CycleSearch.dfsCycle (FileGraph.ofEdges nodes edges) (nodes.length + 1)) CycleSearch.new

def findCycles (nodes : List Node) (edges : List Edge) : List (List String) :=
  (searchCycles nodes edges).found.map rotateCanonical

end WeaveGraph.Policy

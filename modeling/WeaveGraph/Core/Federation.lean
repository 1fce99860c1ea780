import WeaveGraph.Lib.Dict

/-!
# Components of a federated graph

`tarjan_scc` of `federation.rs`: Tarjan's algorithm with an explicit work stack.  An entry of the
work stack is a vertex and the index of the neighbor to look at next; index `0` is a vertex that
has not been entered.
-/

namespace WeaveGraph

open Lib

/-- `u32::MAX`. -/
def u32Max : Nat := 4294967295

/-- Vectors used as stacks have their last entry first. -/
structure TarjanState where
  indexCounter : Nat
  index : FinMap Nat Nat
  lowlink : FinMap Nat Nat
  onStack : FinMap Nat Bool
  stack : List Nat
  result : List (List Nat)

namespace TarjanState

def new : TarjanState := ⟨0, .empty, .empty, .empty, [], []⟩

def indexOf (st : TarjanState) (v : Nat) : Nat := (st.index.get v).getD u32Max

def lowlinkOf (st : TarjanState) (v : Nat) : Nat := (st.lowlink.get v).getD u32Max

def visit (st : TarjanState) (v : Nat) : TarjanState where
  indexCounter := st.indexCounter + 1
  index := st.index.insert v st.indexCounter
  lowlink := st.lowlink.insert v st.indexCounter
  onStack := st.onStack.insert v true
  stack := v :: st.stack
  result := st.result

def lowerTo (st : TarjanState) (v n : Nat) : TarjanState :=
  { st with lowlink := st.lowlink.insert v (min (st.lowlinkOf v) n) }

/-- `for (i, &w) in neighbors.iter().enumerate().skip(neighbor_idx)`: the first neighbor that has
no index, with the place to resume at. -/
def scanNeighbors (v : Nat) : List Nat → Nat → TarjanState → Option (Nat × Nat) × TarjanState
  | [], _, st => (none, st)
  | w :: rest, i, st =>
    if st.index.get w = none then (some (w, i + 1), st)
    else if (st.onStack.get w).getD false then
      scanNeighbors v rest (i + 1) (st.lowerTo v (st.indexOf w))
    else scanNeighbors v rest (i + 1) st

/-- `if let Some(&(p, _)) = work.last()`. -/
def propagate (st : TarjanState) (v : Nat) : List (Nat × Nat) → TarjanState
  | [] => st
  | (p, _) :: _ => st.lowerTo p (st.lowlinkOf v)

/-- `while let Some(w) = self.stack.pop()`: the component, and what is left. -/
def popComponent (v : Nat) :
    List Nat → FinMap Nat Bool → List Nat × List Nat × FinMap Nat Bool
  | [], onStack => ([], [], onStack)
  | w :: stack, onStack =>
    if w = v then ([w], stack, onStack.insert w false)
    else
      match popComponent v stack (onStack.insert w false) with
      | (component, stack, onStack) => (w :: component, stack, onStack)

def closeComponent (st : TarjanState) (v : Nat) : TarjanState :=
  if st.lowlinkOf v = st.indexOf v then
    match popComponent v st.stack st.onStack with
    | (component, stack, onStack) =>
      { st with stack := stack, onStack := onStack, result := st.result ++ [component] }
  else st

/-- One round of the loop of `strong_connect`, for the vertex that was popped. -/
def connectStep (adjacency : Nat → List Nat) (v neighborIdx : Nat) (work : List (Nat × Nat))
    (st : TarjanState) : List (Nat × Nat) × TarjanState :=
  let entered := if neighborIdx = 0 then st.visit v else st
  match scanNeighbors v ((adjacency v).drop neighborIdx) neighborIdx entered with
  | (some (w, next), scanned) => ((w, 0) :: (v, next) :: work, scanned)
  | (none, scanned) => (work, (scanned.propagate v work).closeComponent v)

/-- `while let Some((v, neighbor_idx)) = work.pop()`; `none` when the fuel runs out first. -/
def connectLoop (adjacency : Nat → List Nat) :
    Nat → List (Nat × Nat) → TarjanState → Option TarjanState
  | _, [], st => some st
  | 0, _ :: _, _ => none
  | fuel + 1, (v, neighborIdx) :: work, st =>
    match connectStep adjacency v neighborIdx work st with
    | (work, st) => connectLoop adjacency fuel work st

def strongConnect (adjacency : Nat → List Nat) (fuel : Nat) (st : TarjanState) (start : Nat) :
    Option TarjanState :=
  connectLoop adjacency fuel [(start, 0)] st

def connectAll (adjacency : Nat → List Nat) (fuel : Nat) (st : TarjanState) (nodeIds : List Nat) :
    Option TarjanState :=
  nodeIds.foldlM
    (fun st id => if st.index.get id = none then strongConnect adjacency fuel st id else some st) st

end TarjanState

/-- `adjacency.get(&u)`: the targets of the edges out of `u`, in their order. -/
def adjacencyOf (edges : List (Nat × Nat)) (u : Nat) : List Nat := bucket u edges

def tarjanSccWith (fuel : Nat) (nodeIds : List Nat) (edges : List (Nat × Nat)) :
    Option (List (List Nat)) :=
  (TarjanState.connectAll (adjacencyOf edges) fuel TarjanState.new nodeIds).map TarjanState.result

/-- Every vertex takes a round when it is entered and at most one more when it is resumed, so this
fuel does not run out. -/
def tarjanScc (nodeIds : List Nat) (edges : List (Nat × Nat)) : List (List Nat) :=
  (tarjanSccWith (2 * (nodeIds.length + edges.length)) nodeIds edges).getD []

example : tarjanScc [1, 2, 3, 4] [(1, 2), (2, 3), (3, 1), (3, 4)] = [[4], [3, 2, 1]] := by
  decide +kernel

end WeaveGraph

import WeaveGraph.Core.Model
import WeaveGraph.Lib.Dict

/-!
# Louvain clustering

`louvain_communities` moves one node after the other into the neighbouring community with the
highest gain until a whole pass moves none.  Weights are of any type with the operations of `f64`.
Every hash map is read in an order of its own, and the map of candidates, which each call of
`move_to_best_community` builds anew, in a new one each time (`HashOrder`).
-/

namespace WeaveGraph.Cluster

open Lib

abbrev CommunityId := Nat

abbrev Adjacency (F : Type) := FinMap NodeId (List (NodeId × F))

/-- The orders in which one call reads `merged`, the values of `adjacency`, and the keys of
`weight_to_community` in each call of `move_to_best_community`. -/
structure HashOrder (F : Type) where
  merged : Shuffle ((NodeId × NodeId) × F)
  adjacency : Shuffle (NodeId × List (NodeId × F))
  candidates : Nat → Shuffle NodeId

variable {F : Type} [Zero F] [OfNat F 2] [Add F] [Sub F] [Mul F] [Div F] [LT F] [DecidableLT F]
  [LE F] [DecidableLE F]

/-! ## The graph -/

/-- Loops and edges without weight are skipped; both directions count as one pair. -/
def mergeEdge (merged : FinMap (NodeId × NodeId) F) : NodeId × NodeId × F →
    FinMap (NodeId × NodeId) F
  | (a, b, w) =>
    if a = b ∨ w ≤ 0 then merged
    else merged.addAt (if a ≤ b then (a, b) else (b, a)) w

def pushBoth (adjacency : Adjacency F) : (NodeId × NodeId) × F → Adjacency F
  | ((a, b), w) => (adjacency.pushAt a (b, w)).pushAt b (a, w)

def undirectedAdjacency (order : HashOrder F) (edges : List (NodeId × NodeId × F)) : Adjacency F :=
  (order.merged.read (edges.foldl mergeEdge .empty).entries).foldl pushBoth .empty

def sum (weights : List F) : F := weights.foldl (· + ·) 0

def totalWeight (order : HashOrder F) (adjacency : Adjacency F) : F :=
  sum (((order.adjacency.read adjacency.entries).flatMap Prod.snd).map Prod.snd) / 2

def degreeOf (adjacency : Adjacency F) (n : NodeId) : F :=
  ((adjacency.get n).map fun ns => sum (ns.map Prod.snd)).getD 0

/-- What the moves read and do not change. -/
structure Network (F : Type) where
  adjacency : Adjacency F
  degree : FinMap NodeId F
  twoM : F

/-! ## Moves -/

/-- `calls` counts the calls of `move_to_best_community`. -/
structure State (F : Type) where
  community : FinMap NodeId NodeId
  communityDegree : FinMap NodeId F
  calls : Nat

/-- `community.get(&n).copied().unwrap_or(n)`. -/
def labelOf (community : FinMap NodeId NodeId) (n : NodeId) : NodeId :=
  (community.get n).getD n

def weightToCommunity (adjacency : Adjacency F) (community : FinMap NodeId NodeId)
    (node : NodeId) : FinMap NodeId F :=
  ((adjacency.get node).getD []).foldl
    (fun m p => if p.1 = node then m else m.addAt (labelOf community p.1) p.2) .empty

def gainOf (weights communityDegree : FinMap NodeId F) (nodeDegree twoM : F)
    (candidate : NodeId) : F :=
  (weights.get candidate).getD 0 - (communityDegree.get candidate).getD 0 * nodeDegree / twoM

/-- One candidate against the best so far. -/
def tryCandidate (gain : NodeId → F) (current : NodeId) (best : NodeId × F) (candidate : NodeId) :
    NodeId × F :=
  if candidate = current then best
  else if best.2 < gain candidate then (candidate, gain candidate)
  else best

def moveToBestCommunity (order : HashOrder F) (net : Network F) (s : State F) (node : NodeId) :
    Bool × State F :=
  let nodeDegree := (net.degree.get node).getD 0
  let current := labelOf s.community node
  let weights := weightToCommunity net.adjacency s.community node
  let without := s.communityDegree.insert current
    ((s.communityDegree.get current).getD 0 - nodeDegree)
  let gain := gainOf weights without nodeDegree net.twoM
  let best := (((order.candidates s.calls).read (weights.entries.map Prod.fst)).foldl
    (tryCandidate gain current) (current, gain current)).1
  let communityDegree := without.addAt best nodeDegree
  if best ≠ current then
    (true, ⟨s.community.insert node best, communityDegree, s.calls + 1⟩)
  else
    (false, ⟨s.community, communityDegree, s.calls + 1⟩)

/-- The body of the `for` loop; the flag is `improved`. -/
def visit (order : HashOrder F) (net : Network F) (r : Bool × State F) (node : NodeId) :
    Bool × State F :=
  let moved := moveToBestCommunity order net r.2 node
  (r.1 || moved.1, moved.2)

/-- The `while` loop; `none` when the fuel is used up. -/
def improve (order : HashOrder F) (net : Network F) (nodes : List NodeId) :
    Nat → State F → Option (State F)
  | 0, _ => none
  | fuel + 1, s =>
    match nodes.foldl (visit order net) (false, s) with
    | (true, s) => improve order net nodes fuel s
    | (false, s) => some s

/-! ## Communities -/

/-- What `renumber` carries along: the numbers given so far, the next one, and the result. -/
structure Numbering where
  seen : FinMap NodeId CommunityId
  nextId : CommunityId
  result : FinMap NodeId CommunityId

def Numbering.add (community : FinMap NodeId NodeId) (r : Numbering) (node : NodeId) :
    Numbering :=
  let raw := labelOf community node
  match r.seen.get raw with
  | some id => { r with result := r.result.insert node id }
  | none => ⟨r.seen.insert raw r.nextId, r.nextId + 1, r.result.insert node r.nextId⟩

def renumber (nodes : List NodeId) (community : FinMap NodeId NodeId) : FinMap NodeId CommunityId :=
  (nodes.foldl (Numbering.add community) ⟨.empty, 0, .empty⟩).result

def louvainCommunities (order : HashOrder F) (fuel : Nat) (nodes : List NodeId)
    (edges : List (NodeId × NodeId × F)) : Option (FinMap NodeId CommunityId) :=
  if nodes.isEmpty then some .empty
  else
    let adjacency := undirectedAdjacency order edges
    let total := totalWeight order adjacency
    let own : FinMap NodeId NodeId := .ofList (nodes.map fun n => (n, n))
    if total ≤ 0 then some (renumber nodes own)
    else
      let degree : FinMap NodeId F := .ofList (nodes.map fun n => (n, degreeOf adjacency n))
      (improve order ⟨adjacency, degree, 2 * total⟩ nodes fuel ⟨own, degree, 0⟩).map fun s =>
        renumber nodes s.community

end WeaveGraph.Cluster

import WeaveGraph.Lib.Dict
import WeaveGraph.Lib.Runs
import WeaveGraph.Store.Backend

/-!
# The compact adjacency structure

`CsrGraph` renumbers the stored node ids to `0..n` and packs the edges into row offsets and
column indices.  It is rebuilt from the store on every load, from node ids and edge endpoints
alone (`load_congr`).
-/

namespace WeaveGraph

open List Lib

structure CompactCsr where
  rowOffsets : List Nat
  columnIndices : List Nat
deriving Repr, DecidableEq

structure CsrGraph where
  csr : CompactCsr
  indexToId : List NodeId
deriving Repr, DecidableEq

namespace CompactCsr

/-- `while current_node < target`: every row passed over starts at the current end. -/
def advance (columns : Nat) : Nat → Nat × List Nat → Nat × List Nat
  | 0, st => st
  | steps + 1, (current, offsets) =>
    advance columns steps (current + 1, offsets.set (current + 1) columns)

/-- The loop state is the current row, the row offsets and the column indices. -/
def addEdge (nodeCount : Nat) (st : (Nat × List Nat) × List Nat) (edge : Nat × Nat) :
    (Nat × List Nat) × List Nat :=
  if edge.1 ≥ nodeCount || edge.2 ≥ nodeCount then st
  else (advance st.2.length (edge.1 - st.1.1) st.1, st.2 ++ [edge.2])

def fromSortedEdges (edges : List (Nat × Nat)) (nodeCount : Nat) : CompactCsr :=
  let (rows, columns) := edges.foldl (addEdge nodeCount) ((0, List.replicate (nodeCount + 1) 0), [])
  ⟨(advance columns.length (nodeCount - rows.1) rows).2, columns⟩

def neighborsSlice (csr : CompactCsr) (u : Nat) : List Nat :=
  if u + 1 ≥ csr.rowOffsets.length then []
  else
    let start := csr.rowOffsets.getD u 0
    let stop := csr.rowOffsets.getD (u + 1) 0
    (csr.columnIndices.drop start).take (stop - start)

def new : CompactCsr := ⟨[0], []⟩

def nodeCount (csr : CompactCsr) : Nat := csr.rowOffsets.length - 1

def edgeCount (csr : CompactCsr) : Nat := csr.columnIndices.length

/-- `in_degrees[v] += 1` for each column index. -/
def inDegrees (csr : CompactCsr) : List Nat :=
  csr.columnIndices.foldl (fun degrees v => degrees.set v (degrees.getD v 0 + 1))
    (List.replicate csr.nodeCount 0)

/-- The running sums of the in-degrees, with their total last. -/
def reverseOffsets (csr : CompactCsr) : List Nat := csr.inDegrees.scanl (· + ·) 0

/-- The state is the next free position of each row, and the columns. -/
def placeEdge (st : List Nat × List Nat) (edge : Nat × Nat) : List Nat × List Nat :=
  let pos := st.1.getD edge.2 0
  (st.1.set edge.2 (pos + 1), st.2.set pos edge.1)

/-- The edges in the order of the loops of `build_reverse`. -/
def edgeList (csr : CompactCsr) : List (Nat × Nat) :=
  (List.range csr.nodeCount).flatMap fun u => (csr.neighborsSlice u).map fun v => (u, v)

def buildReverse (csr : CompactCsr) : CompactCsr where
  rowOffsets := csr.reverseOffsets
  columnIndices :=
    (csr.edgeList.foldl placeEdge (csr.reverseOffsets, List.replicate csr.edgeCount 0)).2

end CompactCsr

/-- A bitmap is the increasing list of its members. -/
def bitmapInsert (bitmap : List Nat) (i : Nat) : List Nat :=
  if i ∈ bitmap then bitmap else bitmap.orderedInsert (· ≤ ·) i

def visitNeighbor (st : List Nat × List Nat) (neighbor : Nat) : List Nat × List Nat :=
  if neighbor ∈ st.1 then st else (bitmapInsert st.1 neighbor, st.2 ++ [neighbor])

def bfsWithin (csr : CompactCsr) : Nat → List Nat → List Nat → List Nat
  | 0, reached, _ => reached
  | hops + 1, reached, frontier =>
    let (reached, next) :=
      (frontier.flatMap csr.neighborsSlice).foldl visitNeighbor (reached, [])
    if next.isEmpty then reached else bfsWithin csr hops reached next

namespace CsrGraph

/-- `index_to_id.binary_search(&id)` over a strictly increasing list. -/
def indexOf (g : CsrGraph) (id : NodeId) : Option Nat :=
  if id ∈ g.indexToId then some (g.indexToId.idxOf id) else none

def compactEdge (indexToId : List NodeId) (edge : NodeId × NodeId) : Option (Nat × Nat) :=
  if edge.1 ∈ indexToId ∧ edge.2 ∈ indexToId then
    some (indexToId.idxOf edge.1, indexToId.idxOf edge.2)
  else none

def sortAndDedupEdges (edges : List (Nat × Nat)) : List (Nat × Nat) :=
  Text.dedup (edges.insertionSort fun a b => a.1 < b.1 ∨ (a.1 = b.1 ∧ a.2 ≤ b.2))

def ofIdsAndEdges (ids : List NodeId) (edges : List (NodeId × NodeId)) : CsrGraph :=
  let indexToId := ids.insertionSort (· ≤ ·)
  let compactEdges := sortAndDedupEdges (edges.filterMap (compactEdge indexToId))
  ⟨CompactCsr.fromSortedEdges compactEdges indexToId.length, indexToId⟩

/-- Like `load`, but ids may repeat. -/
def fromNodesAndEdges (nodes : List NodeId) (edges : List (NodeId × NodeId)) : CsrGraph :=
  let indexToId := Text.dedup (nodes.insertionSort (· ≤ ·))
  let compactEdges := sortAndDedupEdges (edges.filterMap (compactEdge indexToId))
  ⟨CompactCsr.fromSortedEdges compactEdges indexToId.length, indexToId⟩

def empty : CsrGraph := ⟨CompactCsr.new, []⟩

def load (s : SqliteStorage) : CsrGraph :=
  ofIdsAndEdges (s.allNodes.map Node.id) (s.allEdges.map fun e => (e.sourceId, e.targetId))

def idOfIndex (g : CsrGraph) (index : Nat) : Option NodeId := g.indexToId[index]?

def outbound (g : CsrGraph) (id : NodeId) : List NodeId :=
  match g.indexOf id with
  | none => []
  | some index => (g.csr.neighborsSlice index).map fun n => g.indexToId.getD n 0

def reachableWithin (g : CsrGraph) (source : NodeId) (maxHops : Nat) : List Nat :=
  match g.indexOf source with
  | none => []
  | some index => bfsWithin g.csr maxHops [index] [index]

def callersWithin (g : CsrGraph) (source : NodeId) (maxHops : Nat) : List Nat :=
  match g.indexOf source with
  | none => []
  | some index => bfsWithin g.csr.buildReverse maxHops [index] [index]

def reachableNodes (g : CsrGraph) (source : NodeId) (maxHops : Nat) : List NodeId :=
  (g.reachableWithin source maxHops).filterMap g.idOfIndex

structure PathState where
  visited : List Nat
  predecessor : List (Nat × Nat)

/-- The predecessors from `cur` back to `source`, last first. -/
def traceBack (predecessor : List (Nat × Nat)) (source : Nat) : Nat → Nat → List Nat
  | 0, _ => []
  | fuel + 1, cur =>
    if cur = source then [source]
    else cur :: traceBack predecessor source fuel ((lookupLast cur predecessor).getD source)

/-- The neighbors of one node in `query_path`: the path once the target is among the new ones, else
the new ones, which go to the end of the queue. -/
def expandPath (source target current : Nat) :
    List Nat → PathState → Option (List Nat) ⊕ (List Nat × PathState)
  | [], st => .inr ([], st)
  | neighbor :: rest, st =>
    if neighbor ∈ st.visited then expandPath source target current rest st
    else
      let predecessor := st.predecessor ++ [(neighbor, current)]
      if neighbor = target then
        .inl (some (target :: traceBack predecessor source predecessor.length current).reverse)
      else
        match expandPath source target current rest ⟨bitmapInsert st.visited neighbor, predecessor⟩ with
        | .inl path => .inl path
        | .inr (next, st) => .inr (neighbor :: next, st)

/-- One round of the loop of `query_path`, for the node at the front of the queue. -/
def pathRound (csr : CompactCsr) (source target : Nat) (st : PathState) (current : Nat) :
    Option (List Nat) ⊕ (List Nat × PathState) :=
  expandPath source target current (csr.neighborsSlice current) st

def pathLoop (csr : CompactCsr) (source target fuel : Nat) : Option (List Nat) :=
  worklist (pathRound csr source target) (fun _ => none) fuel [source] ⟨[source], []⟩

def queryPath (g : CsrGraph) (source target : NodeId) : Option (List NodeId) :=
  match g.indexOf source, g.indexOf target with
  | some sourceIndex, some targetIndex =>
    if sourceIndex = targetIndex then some [source]
    else
      (pathLoop g.csr sourceIndex targetIndex (g.csr.columnIndices.length + 1)).map fun path =>
        path.filterMap g.idOfIndex
  | _, _ => none

theorem mem_bitmapInsert {bitmap : List Nat} {i j : Nat} :
    j ∈ bitmapInsert bitmap i ↔ j = i ∨ j ∈ bitmap := by
  unfold bitmapInsert
  split
  · rename_i h
    exact ⟨.inr, fun hj => hj.elim (fun he => he ▸ h) id⟩
  · exact mem_orderedInsert _

theorem mem_neighborsSlice {csr : CompactCsr} {u v : Nat} (h : v ∈ csr.neighborsSlice u) :
    v ∈ csr.columnIndices := by
  unfold CompactCsr.neighborsSlice at h
  split at h
  · cases h
  · exact mem_of_mem_drop (mem_of_mem_take h)

theorem expandPath_unseen {source target current : Nat} {columns : List Nat} :
    ∀ {neighbors next : List Nat} {st st' : PathState}, (∀ v ∈ neighbors, v ∈ columns) →
      expandPath source target current neighbors st = .inr (next, st') →
      next.length + unseen columns st'.visited ≤ unseen columns st.visited := by
  intro neighbors
  induction neighbors with
  | nil =>
    intro next st st' _ h
    cases h
    simp
  | cons neighbor rest ih =>
    intro next st st' hmem h
    have hrest : ∀ v ∈ rest, v ∈ columns := fun v hv => hmem v (mem_cons_of_mem _ hv)
    unfold expandPath at h
    split at h
    · exact ih hrest h
    · rename_i hnew
      split at h
      · cases h
      · dsimp only at h
        split at h
        · cases h
        · rename_i next' st'' heq
          cases h
          have h1 := ih hrest heq
          dsimp only at h1
          have h2 := unseen_insert (hmem _ mem_cons_self) hnew fun _ => mem_bitmapInsert
          rw [length_cons]
          omega

/-- A node enters the queue only when its bit is set, so the loop of `query_path` ends. -/
theorem pathRound_ends (csr : CompactCsr) (source target : Nat) :
    Ends (pathRound csr source target) (csr.columnIndices.length + 1) [source] ⟨[source], []⟩ := by
  refine ends_of_measure (μ := fun st => unseen csr.columnIndices st.visited) ?_ ?_
  · intro st current next st' h
    exact expandPath_unseen (fun v => mem_neighborsSlice) h
  · have := length_filter_le (fun a => a ∉ [source]) csr.columnIndices
    simp only [unseen, length_singleton]
    omega

theorem load_congr {s s' : SqliteStorage}
    (hn : s.nodes.rows.map Node.id = s'.nodes.rows.map Node.id)
    (he : s.edges = s'.edges) : load s = load s' := by
  unfold load SqliteStorage.allNodes SqliteStorage.allEdges
  rw [hn, he]

example :
    let g := ofIdsAndEdges [3, 7, 9, 12] [(3, 7), (7, 9), (3, 7), (9, 3), (7, 5)]
    g.reachableWithin 3 1 = [0, 1] ∧ g.queryPath 3 9 = some [3, 7, 9] ∧ g.queryPath 3 12 = none := by
  decide

end CsrGraph

end WeaveGraph

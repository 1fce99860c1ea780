import WeaveGraph.Core.Reach
import WeaveGraph.Lib.Search

/-!
# Shortest paths

`query_path` is a breadth-first search over the compact arrays: its bitmap holds the nodes seen so
far, and its predecessors are the parents of the search tree (`pathLoop_eq_bfs`).  Read through
`index_to_id`, the path it finds is a shortest path of the graph (`queryPath_shortest`).
-/

namespace WeaveGraph

open List Lib
open Lib (IsPath Walk)

namespace CsrGraph

/-! ## The loop is a breadth-first search -/

section search

variable {source target current : Nat} {st : PathState} {parents : List (Nat × Nat)}

/-- The bitmap holds the nodes that the predecessors have seen. -/
def Tracks (source : Nat) (st : PathState) (parents : List (Nat × Nat)) : Prop :=
  st.predecessor = parents ∧ ∀ v, v ∈ st.visited ↔ Seen source parents v

theorem traceBack_eq_chain : ∀ {fuel cur : Nat},
    traceBack parents source fuel cur = chain parents source fuel cur := by
  intro fuel
  induction fuel with
  | zero => exact fun {_} => rfl
  | succ fuel ih =>
    intro cur
    rw [traceBack, chain, ih]

theorem Tracks.insert (h : Tracks source st parents) (v : Nat) :
    Tracks source ⟨bitmapInsert st.visited v, st.predecessor ++ [(v, current)]⟩
      (parents ++ [(v, current)]) := by
  refine ⟨by rw [h.1], fun w => ?_⟩
  rw [mem_bitmapInsert, h.2, seen_append_singleton, or_comm]

theorem expandPath_cons {v : Nat} {rest : List Nat} :
    expandPath source target current (v :: rest) st =
      if v ∈ st.visited then expandPath source target current rest st
      else if v = target then
        .inl (some (target :: traceBack (st.predecessor ++ [(v, current)]) source
          (st.predecessor ++ [(v, current)]).length current).reverse)
      else (expandPath source target current rest
        ⟨bitmapInsert st.visited v, st.predecessor ++ [(v, current)]⟩).map id
          fun x => (v :: x.1, x.2) := by
  rw [expandPath]
  dsimp only
  cases expandPath source target current rest
    ⟨bitmapInsert st.visited v, st.predecessor ++ [(v, current)]⟩ with
  | inl path => rfl
  | inr x => rfl

theorem pathLoop_eq_bfs {csr : CompactCsr} {fuel : Nat} :
    pathLoop csr source target fuel = bfs csr.neighborsSlice source target fuel := by
  refine worklist_congr (R := Tracks source) (fun _ _ _ => rfl) ?_ ?_
  · intro st parents current h
    refine expand_congr (fun st v => v ∈ st.visited)
      (fun st v => ⟨bitmapInsert st.visited v, st.predecessor ++ [(v, current)]⟩)
      (fun st => some (target :: traceBack st.predecessor source st.predecessor.length
        current).reverse)
      (fun _ => rfl) (fun _ _ _ => expandPath_cons) ?_ ?_ ?_ h
    · exact fun st parents v h => h.2 v
    · exact fun st parents v h => h.insert v
    · intro st parents h
      rw [pathVia, ← traceBack_eq_chain, h.1]
  · exact ⟨rfl, fun v => by simp [Seen]⟩

end search

/-! ## From indices to nodes -/

section nodes

variable {ids : List NodeId} {edges : List (NodeId × NodeId)} {a b : NodeId} {i j : Nat}

theorem isPath_compact (hids : ids.Pairwise (· < ·)) : ∀ {path : List Nat} {a : NodeId} {i : Nat},
    (compact ids edges).indexOf a = some i →
    IsPath (compact ids edges).csr.Adj i j path →
    ∃ b, (compact ids edges).indexOf b = some j ∧
      IsPath (compact ids edges).Edge a b (path.filterMap (compact ids edges).idOfIndex) ∧
      (path.filterMap (compact ids edges).idOfIndex).length = path.length := by
  intro path
  induction path with
  | nil => exact fun _ hp => absurd rfl hp.ne_nil
  | cons x path ih =>
    intro a i ha hp
    obtain rfl : x = i := Option.some.inj hp.head
    have hid : (compact ids edges).idOfIndex x = some a := (indexOf_eq_some hids).mp ha
    rw [filterMap_cons_some hid]
    cases path with
    | nil =>
      obtain rfl := isPath_singleton.mp hp
      exact ⟨a, ha, isPath_singleton.mpr rfl, rfl⟩
    | cons y path =>
      obtain ⟨hadj, hsteps⟩ := isChain_cons_cons.mp hp.steps
      obtain ⟨c, -, hc⟩ := (mem_row_compact hids ha).mp hadj
      have hlast := hp.last
      obtain ⟨b, hb, hpath, hlen⟩ := ih hc ⟨rfl, hlast, hsteps⟩
      have hedge := (edge_compact hids).mpr ⟨x, y, ha, hc, hadj⟩
      exact ⟨b, hb, .cons hedge hpath, congrArg (· + 1) hlen⟩

section

variable (hids : ids.Pairwise (· < ·)) (ha : (compact ids edges).indexOf a = some i)
  (hb : (compact ids edges).indexOf b = some j)

include hids ha hb

theorem walk_iff_compact {n : Nat} :
    Walk (compact ids edges).csr.Adj n i j ↔ Walk (compact ids edges).Edge n a b := by
  rw [walk_compact hids ha]
  constructor
  · rintro ⟨c, hc, hw⟩
    rwa [@indexOf_inj (compact ids edges) _ _ _ hids hb hc]
  · exact fun hw => ⟨b, hb, hw⟩

theorem answer_compact {answer : Option (List Nat)}
    (h : Answer (compact ids edges).csr.Adj i j answer) :
    Answer (compact ids edges).Edge a b
      (answer.map fun path => path.filterMap (compact ids edges).idOfIndex) := by
  cases answer with
  | none =>
    rintro hreach
    obtain ⟨n, hw⟩ := exists_walk_iff.mpr hreach
    exact h (exists_walk_iff.mp ⟨n, (walk_iff_compact hids ha hb).mpr hw⟩)
  | some path =>
    obtain ⟨hpath, hmin⟩ := h
    obtain ⟨n, hn, -⟩ := hpath.walk
    have hdist := (hpath.dist_iff hn).mpr hmin
    obtain ⟨c, hc, hpath', hlen⟩ := isPath_compact hids ha hpath
    obtain rfl := @indexOf_inj (compact ids edges) _ _ _ hids hb hc
    refine ⟨hpath', (hpath'.dist_iff (hlen.trans hn)).mp ?_⟩
    simpa only [Lib.Dist, walk_iff_compact hids ha hb] using hdist

end

end nodes

/-- What `query_path` answers: nothing when one of the ids is unknown or there is no path, else a
path of minimal length. -/
structure ShortestPath (g : CsrGraph) (a b : NodeId) : Prop where
  none_iff : g.queryPath a b = none ↔
    ¬ (a ∈ g.indexToId ∧ b ∈ g.indexToId ∧ Relation.ReflTransGen g.Edge a b)
  path : ∀ path, g.queryPath a b = some path → IsPath g.Edge a b path ∧
    ∀ path', IsPath g.Edge a b path' → path.length ≤ path'.length
  /-- Within the fuel that the loop gets, it finds the target or empties its queue. -/
  terminates : ∀ i j, Ends (pathRound g.csr i j) (g.csr.columnIndices.length + 1) [i] ⟨[i], []⟩

theorem answer_queryPath {ids : List NodeId} {edges : List (NodeId × NodeId)} {a b : NodeId}
    (hids : ids.Pairwise (· < ·)) (ha : a ∈ ids) (hb : b ∈ ids) :
    Answer (compact ids edges).Edge a b ((compact ids edges).queryPath a b) := by
  obtain ⟨i, hi⟩ := (@exists_indexOf (compact ids edges) a).mpr ha
  obtain ⟨j, hj⟩ := (@exists_indexOf (compact ids edges) b).mpr hb
  unfold queryPath
  rw [hi, hj]
  dsimp only
  by_cases hij : i = j
  · subst hij
    obtain rfl := @indexOf_inj (compact ids edges) _ _ _ hids hi hj
    rw [if_pos rfl]
    exact ⟨isPath_singleton.mpr rfl, fun path' hp => length_pos_of_ne_nil hp.ne_nil⟩
  · rw [if_neg hij, pathLoop_eq_bfs]
    refine answer_compact hids hi hj ?_
    exact bfs_spec (fun u v => mem_neighborsSlice) (Ne.symm hij) le_rfl

theorem queryPath_unknown {g : CsrGraph} {a b : NodeId}
    (h : ¬ (a ∈ g.indexToId ∧ b ∈ g.indexToId)) : g.queryPath a b = none := by
  unfold queryPath
  cases ha : g.indexOf a with
  | none => rfl
  | some i =>
    cases hb : g.indexOf b with
    | none => rfl
    | some j => exact absurd ⟨exists_indexOf.mp ⟨i, ha⟩, exists_indexOf.mp ⟨j, hb⟩⟩ h

/-- **`query_path` finds a shortest path** of every graph, whenever there is a path. -/
theorem queryPath_shortest {g : CsrGraph} (hg : Built g) (a b : NodeId) : ShortestPath g a b := by
  obtain ⟨ids, edges, hids, rfl⟩ := hg.exists_compact
  by_cases hnodes : a ∈ (compact ids edges).indexToId ∧ b ∈ (compact ids edges).indexToId
  · have hanswer : Answer (compact ids edges).Edge a b ((compact ids edges).queryPath a b) :=
      answer_queryPath hids hnodes.1 hnodes.2
    refine ⟨?_, fun path hpath => ?_, pathRound_ends _⟩
    · rw [hanswer.eq_none_iff]
      exact not_congr ⟨fun hr => ⟨hnodes.1, hnodes.2, hr⟩, fun hr => hr.2.2⟩
    · rw [hpath] at hanswer
      exact hanswer
  · have hnone := queryPath_unknown hnodes
    refine ⟨?_, fun path hpath => ?_, pathRound_ends _⟩
    · exact ⟨fun _ hr => hnodes ⟨hr.1, hr.2.1⟩, fun _ => hnone⟩
    · rw [hnone] at hpath
      cases hpath

theorem queryPath_shortest_ring :
    ShortestPath (fromNodesAndEdges [3, 7, 9] [(3, 7), (7, 9), (9, 3), (7, 7)]) 3 9 :=
  queryPath_shortest (.fromNodesAndEdges _ _) 3 9

/-- **`query_path` and `reachable_nodes` agree**: a path of at most `hops` edges is found exactly
if its end is among the nodes within `hops`. -/
theorem queryPath_short_iff {g : CsrGraph} (hg : Built g) (a b : NodeId) (hops : Nat) :
    (∃ path, g.queryPath a b = some path ∧ path.length ≤ hops + 1) ↔
      b ∈ g.reachableNodes a hops := by
  obtain ⟨ids, edges, hids, rfl⟩ := hg.exists_compact
  unfold reachableNodes
  rw [mem_filterMap]
  constructor
  · rintro ⟨path, hpath, hlen⟩
    have hnodes : a ∈ ids ∧ b ∈ ids := by
      by_contra hunknown
      rw [queryPath_unknown hunknown] at hpath
      cases hpath
    obtain ⟨i, hi⟩ := (@exists_indexOf (compact ids edges) a).mpr hnodes.1
    obtain ⟨j, hj⟩ := (@exists_indexOf (compact ids edges) b).mpr hnodes.2
    obtain ⟨n, hn, hw⟩ :=
      ((answer_queryPath hids hnodes.1 hnodes.2).exists_short_iff hops).mp ⟨path, hpath, hlen⟩
    refine ⟨j, (mem_reachableWithin hi).mpr ⟨n, hn, ?_⟩, (indexOf_eq_some hids).mp hj⟩
    exact (walk_iff_compact hids hi hj).mpr hw
  · rintro ⟨j, hreach, hj⟩
    have hj := (indexOf_eq_some (g := compact ids edges) hids).mpr hj
    cases hi : (compact ids edges).indexOf a with
    | none =>
      rw [reachableWithin, hi] at hreach
      cases hreach
    | some i =>
      obtain ⟨n, hn, hw⟩ := (mem_reachableWithin hi).mp hreach
      refine ((answer_queryPath hids (exists_indexOf.mp ⟨i, hi⟩)
        (exists_indexOf.mp ⟨j, hj⟩)).exists_short_iff hops).mpr ⟨n, hn, ?_⟩
      exact (walk_iff_compact hids hi hj).mp hw

theorem queryPath_short_iff_ring :
    let g := fromNodesAndEdges [3, 7, 9] [(3, 7), (7, 9), (9, 3), (7, 7)]
    (∃ path, g.queryPath 3 9 = some path ∧ path.length ≤ 3) ↔ 9 ∈ g.reachableNodes 3 2 :=
  queryPath_short_iff (.fromNodesAndEdges _ _) 3 9 2

end CsrGraph

end WeaveGraph

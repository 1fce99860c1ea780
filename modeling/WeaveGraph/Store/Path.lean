import WeaveGraph.Core.Path
import WeaveGraph.Cli.Dangling

/-!
# Paths in the store

`SqliteStorage::query_path` asks the database for the edges of one node after another.  It is the
same breadth-first search as that of the graph (`queryPath_eq_bfs`), over rows in the order of the
table and with every parallel edge.  Where no edge dangles the two graphs have the same edges, so
the two searches find paths of the same length (`queryPath_agrees`).
-/

namespace WeaveGraph

open List Lib
open Lib (IsPath)

namespace SqliteStorage

/-- The targets of one node in `query_path`.  `predecessor` also holds the first node, as its own
predecessor, which the way back to it does not need. -/
def expandPath (source target current : NodeId) : List NodeId → List (NodeId × NodeId) →
    Option (List NodeId) ⊕ (List NodeId × List (NodeId × NodeId))
  | [], predecessor => .inr ([], predecessor)
  | targetId :: rest, predecessor =>
    if targetId ∈ predecessor.map Prod.fst then expandPath source target current rest predecessor
    else
      let predecessor := predecessor ++ [(targetId, current)]
      if targetId = target then
        .inl (some (target ::
          CsrGraph.traceBack predecessor source (predecessor.length - 1) current).reverse)
      else
        (expandPath source target current rest predecessor).map id fun x => (targetId :: x.1, x.2)

/-- `while let Some(current) = queue.pop_front()`. -/
def pathLoop (s : SqliteStorage) (source target : NodeId) (fuel : Nat) : Option (List NodeId) :=
  worklist (fun predecessor current =>
      expandPath source target current ((s.getEdges current).map Edge.targetId) predecessor)
    (fun _ => none) fuel [source] [(source, source)]

def queryPath (s : SqliteStorage) (source target : NodeId) : Option (List NodeId) :=
  if source = target then some [source]
  else s.pathLoop source target (s.edges.rows.length + 1)

def StoredEdge (s : SqliteStorage) (a b : NodeId) : Prop :=
  ∃ e ∈ s.edges.rows, e.sourceId = a ∧ e.targetId = b

variable {s : SqliteStorage} {source target a b : NodeId}

theorem traceBack_cons {parents : List (NodeId × NodeId)} : ∀ {fuel : Nat} {cur : NodeId},
    CsrGraph.traceBack ((source, source) :: parents) source fuel cur =
      chain parents source fuel cur := by
  intro fuel
  induction fuel with
  | zero => exact fun {_} => rfl
  | succ fuel ih =>
    intro cur
    rw [CsrGraph.traceBack, chain, ih]
    by_cases hcur : cur = source
    · rw [if_pos hcur, if_pos hcur]
    · rw [if_neg hcur, if_neg hcur, lookupLast_cons_of_ne (Ne.symm hcur)]

/-- The first node is recorded as its own predecessor. -/
def Records (source : NodeId) (predecessor parents : List (NodeId × NodeId)) : Prop :=
  predecessor = (source, source) :: parents

theorem pathLoop_eq_bfs {fuel : Nat} : s.pathLoop source target fuel =
    bfs (fun id => (s.getEdges id).map Edge.targetId) source target fuel := by
  refine worklist_congr (R := Records source) (fun _ _ _ => rfl) ?_ rfl
  intro predecessor parents current h
  refine expand_congr (fun predecessor v => v ∈ predecessor.map Prod.fst)
    (fun predecessor v => predecessor ++ [(v, current)])
    (fun predecessor => some (target ::
      CsrGraph.traceBack predecessor source (predecessor.length - 1) current).reverse)
    ?_ ?_ ?_ ?_ ?_ h
  · exact fun _ => rfl
  · exact fun _ _ _ => rfl
  · rintro _ parents v rfl
    exact mem_cons
  · rintro _ parents v rfl
    rfl
  · rintro _ parents rfl
    rw [traceBack_cons]
    rfl

theorem mem_getEdges_target {id v : NodeId} :
    v ∈ (s.getEdges id).map Edge.targetId ↔ s.StoredEdge id v := by
  simp only [getEdges, StoredEdge, mem_map, mem_filter, beq_iff_eq]
  constructor
  · rintro ⟨e, ⟨he, hs⟩, ht⟩
    exact ⟨e, he, hs, ht⟩
  · rintro ⟨e, he, hs, ht⟩
    exact ⟨e, ⟨he, hs⟩, ht⟩

theorem answer_queryPath : Answer s.StoredEdge source target (s.queryPath source target) := by
  unfold queryPath
  by_cases h : source = target
  · subst h
    rw [if_pos rfl]
    exact ⟨isPath_singleton.mpr rfl, fun path' hp => length_pos_of_ne_nil hp.ne_nil⟩
  · rw [if_neg h, pathLoop_eq_bfs]
    have hrel : s.StoredEdge = fun u v => v ∈ (s.getEdges u).map Edge.targetId := by
      funext u v
      exact propext mem_getEdges_target.symm
    rw [hrel]
    refine bfs_spec (l := s.edges.rows.map Edge.targetId) ?_ (Ne.symm h) (by simp)
    intro u v hv
    obtain ⟨e, he, -, ht⟩ := mem_getEdges_target.mp hv
    exact mem_map.mpr ⟨e, he, ht⟩

theorem mem_allEdges_pair :
    (a, b) ∈ s.allEdges.map (fun e => (e.sourceId, e.targetId)) ↔ s.StoredEdge a b := by
  simp only [allEdges, StoredEdge, mem_map, mem_insertionSort, Prod.mk.injEq]

theorem edge_load (hs : Indexer.NoDangling s) : (CsrGraph.load s).Edge a b ↔ s.StoredEdge a b := by
  have hids := CsrGraph.insertionSort_increasing s.nodes.pk_nodup
  refine ((CsrGraph.holds_compact hids).mem_outbound a b).trans ?_
  rw [mem_allEdges_pair, mem_insertionSort, mem_insertionSort]
  constructor
  · exact fun h => h.1
  · rintro ⟨e, he, rfl, rfl⟩
    exact ⟨⟨e, he, rfl, rfl⟩, hs e he⟩

/-- **The two searches agree**: neither finds a path, or both find one of the same length along
stored edges. -/
theorem queryPath_agrees (hs : Indexer.NoDangling s) (ha : a ∈ s.nodes.rows.map Node.id)
    (hb : b ∈ s.nodes.rows.map Node.id) :
    (s.queryPath a b = none ∧ (CsrGraph.load s).queryPath a b = none) ∨
      ∃ p q, s.queryPath a b = some p ∧ (CsrGraph.load s).queryPath a b = some q ∧
        p.length = q.length ∧ IsPath s.StoredEdge a b p ∧ IsPath s.StoredEdge a b q := by
  have hids := CsrGraph.insertionSort_increasing s.nodes.pk_nodup
  have hedge : (CsrGraph.load s).Edge = s.StoredEdge := by
    funext u v
    exact propext (edge_load hs)
  have hload : Answer (CsrGraph.load s).Edge a b ((CsrGraph.load s).queryPath a b) :=
    CsrGraph.answer_queryPath hids ((mem_insertionSort _).mpr ha) ((mem_insertionSort _).mpr hb)
  rw [hedge] at hload
  exact answer_queryPath.agree hload

/-- Four functions; the first reaches the last over the second and over the third. -/
def diamondStore : SqliteStorage :=
  { openFresh with
    nodes := (insertFreshNodes Table.empty (["a", "b", "c", "d"].map fun symbol =>
      ⟨0, "repo", "src/lib.rs", symbol, "function", 1, 1, ""⟩)).2
    edges := upsertEdges Table.empty ([(1, 3), (1, 2), (3, 4), (2, 4), (4, 1)].map fun e =>
      ⟨0, e.1, e.2, "calls", none, none⟩) }

theorem queryPath_agrees_diamond :
    diamondStore.queryPath 1 4 = some [1, 3, 4] ∧
      (CsrGraph.load diamondStore).queryPath 1 4 = some [1, 2, 4] ∧
      ∃ p q, diamondStore.queryPath 1 4 = some p ∧
        (CsrGraph.load diamondStore).queryPath 1 4 = some q ∧ p.length = q.length := by
  have hstore : diamondStore.queryPath 1 4 = some [1, 3, 4] := by decide +kernel
  have hgraph : (CsrGraph.load diamondStore).queryPath 1 4 = some [1, 2, 4] := by decide +kernel
  refine ⟨hstore, hgraph, ?_⟩
  rcases queryPath_agrees (s := diamondStore) (a := 1) (b := 4) (by decide +kernel)
    (by decide +kernel) (by decide +kernel) with h | ⟨p, q, hp, hq, hlen, -⟩
  · cases h.1
  · exact ⟨p, q, hp, hq, hlen⟩

end SqliteStorage

end WeaveGraph

import WeaveGraph.Lib.Text

/-!
# The graph's data model

Nodes, edges, trace spans and storage errors, as `weave-graph-core` declares them.  Ids are
natural numbers (the `u32` of the source, which the row ids of a store stay far below); an
edge's weight is left out, since every writer sets it to `1.0` and no reader modelled here
looks at it.
-/

namespace WeaveGraph

abbrev NodeId := Nat

abbrev EdgeId := Nat

structure Node where
  id : NodeId
  repoId : String
  path : String
  symbol : String
  kind : String
  lineStart : Nat
  lineEnd : Nat
  signature : String
deriving Repr, DecidableEq

/-- The columns of `idx_nodes_natural_key`. -/
def Node.naturalKey (n : Node) : String × String × String × Nat :=
  (n.repoId, n.path, n.symbol, n.lineStart)

/-- The last `::`-separated part of a symbol, `symbol.rsplit("::").next()`. -/
def shortName (symbol : String) : String := Lib.Text.afterLast "::" symbol

/-- A node without its id: what two stores that number their rows differently can share. -/
structure NodeData where
  repoId : String
  path : String
  symbol : String
  kind : String
  lineStart : Nat
  lineEnd : Nat
  signature : String
deriving Repr, DecidableEq

def Node.data (n : Node) : NodeData :=
  ⟨n.repoId, n.path, n.symbol, n.kind, n.lineStart, n.lineEnd, n.signature⟩

structure Edge where
  id : EdgeId
  sourceId : NodeId
  targetId : NodeId
  kind : String
  extractor : Option String
  resolutionKind : Option String
deriving Repr, DecidableEq

/-- The columns of `idx_edges_natural_key`. -/
def Edge.naturalKey (e : Edge) : NodeId × NodeId × String := (e.sourceId, e.targetId, e.kind)

inductive Confidence where
  | exact
  | heuristic
deriving Repr, DecidableEq

def ambiguousHeuristic : String := "AMBIGUOUS_HEURISTIC"

/-- The resolution kind decides; an edge without one is classified by its kind alone. -/
def edgeConfidence (kind : String) (resolutionKind : Option String) : Confidence :=
  match resolutionKind with
  | some r => if r = ambiguousHeuristic then .heuristic else .exact
  | none => if kind = "CALLS_DYNAMIC" then .heuristic else .exact

structure TraceSpan where
  id : Nat
  traceId : String
  spanId : String
  parentSpanId : Option String
  service : Option String
  name : String
  symbol : Option String
  path : Option String
  startUs : Int
  durationUs : Int
  statusCode : String
deriving Repr, DecidableEq

/-- The columns of `idx_trace_spans_natural_key`. -/
def TraceSpan.naturalKey (s : TraceSpan) : String × String := (s.traceId, s.spanId)

/-- The files of a community, labelled by the directory most of them are in. -/
structure Module where
  id : Nat
  label : String
  files : List String
deriving Repr, DecidableEq

inductive StorageError where
  | backend (message : String)
deriving Repr, DecidableEq

theorem Node.naturalKey_of_data {a b : Node} (h : a.data = b.data) :
    a.naturalKey = b.naturalKey := by
  simp only [Node.data, NodeData.mk.injEq] at h
  simp [Node.naturalKey, h]

end WeaveGraph

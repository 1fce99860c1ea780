import WeaveGraph.Lib.Table
import WeaveGraph.Core.Model

/-!
# The SQLite store

The tables of `weave-graph-store-sqlite` and the statements `SqliteStorage` runs on them.
Each table carries the uniqueness of its primary key and of its natural key index
(`Lib.Table`), so a statement that would break one of them is an error and never a state.

Rows come back in row id order, except where a statement orders them or is served by another
index: the candidate lookup of `upsert_nodes` is a prefix of `idx_nodes_natural_key`, so its
rows come back by `line_start`.
-/

namespace WeaveGraph

open Lib

abbrev NodeTable := Table Node.id Node.naturalKey

abbrev EdgeTable := Table Edge.id Edge.naturalKey

abbrev SpanTable := Table TraceSpan.id TraceSpan.naturalKey

structure UnresolvedRef where
  repoId : String
  path : String
  shortName : String
deriving Repr, DecidableEq

structure ContractRow where
  serviceA : String
  serviceB : String
  contractHash : Option String
  sourceCommitSha : String
  entriesBlob : Option String
deriving Repr, DecidableEq

structure SqliteStorage where
  nodes : NodeTable
  edges : EdgeTable
  unresolvedRefs : List UnresolvedRef
  contracts : List ContractRow
  traceSpans : SpanTable

namespace SqliteStorage

def openFresh : SqliteStorage :=
  ⟨Table.empty, Table.empty, [], [], Table.empty⟩

/-! ## Nodes -/

/-- `INSERT INTO nodes ... ON CONFLICT(repo_id, path, symbol, line_start) DO UPDATE`. -/
def insertFreshNode (t : NodeTable) (node : Node) : NodeTable :=
  t.upsert (fun id => { node with id := id })
    (fun r => { r with kind := node.kind, lineEnd := node.lineEnd, signature := node.signature })
    (fun _ => rfl) (fun _ => rfl) (fun _ => rfl)

def insertFreshNodes (t : NodeTable) : List Node → List NodeId × NodeTable
  | [] => ([], t)
  | node :: nodes =>
    let id := t.upsertId node.naturalKey
    let (ids, t') := insertFreshNodes (insertFreshNode t node) nodes
    (id :: ids, t')

/-- Same file, symbol and kind: the key the candidate lookup of `upsert_nodes` matches on. -/
def sameSymbol (a b : Node) : Bool :=
  a.repoId == b.repoId && a.path == b.path && a.symbol == b.symbol && a.kind == b.kind

/-- `SELECT id, signature, line_start FROM nodes WHERE repo_id = ? AND path = ? AND symbol = ?
AND kind = ?`. -/
def candidates (rows : List Node) (node : Node) : List Node :=
  (rows.filter fun r => sameSymbol r node).insertionSort fun a b => a.lineStart ≤ b.lineStart

/-- The candidate an upserted node takes over: the first with its signature, else the one at
its line. -/
def existing (rows : List Node) (node : Node) : Option Node :=
  (rows.find? fun r => r.signature == node.signature).or
    (rows.find? fun r => r.lineStart == node.lineStart)

def uniqueNodes : StorageError :=
  .backend "UNIQUE constraint failed: nodes.repo_id, nodes.path, nodes.symbol, nodes.line_start"

/-- One node of the batch of `upsert_nodes`. -/
def upsertBatchNode (t : NodeTable) (node : Node) : Except StorageError (NodeId × NodeTable) :=
  match existing (candidates t.rows node) node with
  | some row =>
    match t.update row.id (fun r => { r with
        lineStart := node.lineStart, lineEnd := node.lineEnd, signature := node.signature })
        (fun _ => rfl) with
    | some t' => .ok (row.id, t')
    | none => .error uniqueNodes
  | none =>
    match t.insert (fun id => { node with id := id }) (fun _ => rfl) with
    | some t' => .ok (t.nextId, t')
    | none => .error uniqueNodes

def upsertNodes (t : NodeTable) : List Node → Except StorageError (List NodeId × NodeTable)
  | [] => .ok ([], t)
  | node :: nodes =>
    match upsertBatchNode t node with
    | .error e => .error e
    | .ok (id, t1) =>
      match upsertNodes t1 nodes with
      | .error e => .error e
      | .ok (ids, t2) => .ok (id :: ids, t2)

def fileNodeIds (s : SqliteStorage) (repoId path : String) : List NodeId :=
  (s.nodes.rows.filter fun r => r.repoId == repoId && r.path == path).map Node.id

/-- `DELETE FROM nodes WHERE id = ?`, for every row of the file that is not retained. -/
def purgeFileNodesExcept (s : SqliteStorage) (repoId path : String) (retained : List NodeId) :
    SqliteStorage :=
  let stale := (s.fileNodeIds repoId path).filter fun id => !retained.contains id
  { s with nodes := s.nodes.delete fun r => stale.contains r.id }

/-- Nodes of `kind` without an inbound edge. -/
def purgeOrphanedNodesByKind (s : SqliteStorage) (kind : String) : SqliteStorage :=
  { s with nodes := s.nodes.delete fun r =>
      r.kind == kind && !(s.edges.rows.map Edge.targetId).contains r.id }

def allNodes (s : SqliteStorage) : List Node := s.nodes.rows

def getNode (s : SqliteStorage) (id : NodeId) : Option Node := s.nodes.rows.find? fun r => r.id == id

theorem getNode_eq {s : SqliteStorage} {n : Node} (hn : n ∈ s.nodes.rows) :
    s.getNode n.id = some n := by
  unfold getNode
  cases h : s.nodes.rows.find? fun r => r.id == n.id with
  | none => simpa using List.find?_eq_none.mp h n hn
  | some r =>
    have hid : r.id = n.id := by simpa using List.find?_some h
    rw [s.nodes.pk_inj (List.mem_of_find?_eq_some h) hn hid]

/-- `LIMIT 1`, served by `idx_nodes_symbol`: the first row by id. -/
def getNodeBySymbol (s : SqliteStorage) (symbol : String) : Option Node :=
  s.nodes.rows.find? fun r => r.symbol == symbol

/-! ## Edges -/

/-- `INSERT INTO edges ... ON CONFLICT(source_id, target_id, kind) DO UPDATE`. -/
def upsertEdge (t : EdgeTable) (edge : Edge) : EdgeTable :=
  t.upsert (fun id => { edge with id := id })
    (fun r => { r with extractor := edge.extractor, resolutionKind := edge.resolutionKind })
    (fun _ => rfl) (fun _ => rfl) (fun _ => rfl)

def upsertEdges (t : EdgeTable) (edges : List Edge) : EdgeTable := edges.foldl upsertEdge t

/-- Both directions: edges out of the file and edges into it. -/
def purgeFileEdges (s : SqliteStorage) (repoId path : String) : SqliteStorage :=
  let ids := s.fileNodeIds repoId path
  { s with edges := s.edges.delete fun e => ids.contains e.sourceId || ids.contains e.targetId }

def getEdges (s : SqliteStorage) (id : NodeId) : List Edge :=
  s.edges.rows.filter fun e => e.sourceId == id

def getCallers (s : SqliteStorage) (id : NodeId) : List Edge :=
  s.edges.rows.filter fun e => e.targetId == id

/-- `ORDER BY source_id, target_id`. -/
def allEdges (s : SqliteStorage) : List Edge :=
  s.edges.rows.insertionSort fun a b =>
    a.sourceId < b.sourceId ∨ (a.sourceId = b.sourceId ∧ a.targetId ≤ b.targetId)

/-- Files with an edge into one of `paths`. -/
def sourcePathsForTargetPaths (s : SqliteStorage) (repoId : String) (paths : List String) :
    List String :=
  paths.flatMap fun path => s.edges.rows.flatMap fun e =>
    (s.nodes.rows.filter fun source => source.id == e.sourceId).flatMap fun source =>
      (s.nodes.rows.filter fun target =>
        target.id == e.targetId && target.repoId == repoId && target.path == path).map fun _ =>
          source.path

/-! ## Names, unresolved references -/

def shortSymbolNamesForPaths (s : SqliteStorage) (repoId : String) (paths : List String) :
    List String :=
  paths.flatMap fun path =>
    (s.nodes.rows.filter fun r => r.repoId == repoId && r.path == path).map fun r =>
      shortName r.symbol

def upsertUnresolvedRefs (s : SqliteStorage) (repoId path : String) (refs : List String) :
    SqliteStorage :=
  { s with unresolvedRefs := s.unresolvedRefs ++ refs.map fun r => ⟨repoId, path, r⟩ }

def purgeFileUnresolvedRefs (s : SqliteStorage) (repoId path : String) : SqliteStorage :=
  { s with
    unresolvedRefs := s.unresolvedRefs.filter fun u => !(u.repoId == repoId && u.path == path) }

def getUnresolvedRefsForPath (s : SqliteStorage) (repoId path : String) : List String :=
  (s.unresolvedRefs.filter fun u => u.repoId == repoId && u.path == path).map
    UnresolvedRef.shortName

def getFilesWithUnresolvedRefs (s : SqliteStorage) (repoId shortName : String) : List String :=
  (s.unresolvedRefs.filter fun u => u.repoId == repoId && u.shortName == shortName).map
    UnresolvedRef.path

/-! ## Contracts, trace spans -/

/-- The table has no unique key: replacing a row is a delete and an insert. -/
def upsertContract (s : SqliteStorage) (serviceA serviceB contractHash sourceCommitSha
    entriesBlob : String) : SqliteStorage :=
  { s with contracts :=
      (s.contracts.filter fun c => !(c.serviceA == serviceA && c.serviceB == serviceB)) ++
        [⟨serviceA, serviceB, some contractHash, sourceCommitSha, some entriesBlob⟩] }

/-- `(provider, expected hash, provider commit, entries)` of every expectation of `serviceA`. -/
def contractExpectations (s : SqliteStorage) (serviceA : String) :
    List (String × String × String × String) :=
  s.contracts.filterMap fun c =>
    if c.serviceA = serviceA then
      c.contractHash.map fun hash => (c.serviceB, hash, c.sourceCommitSha, c.entriesBlob.getD "")
    else none

def upsertTraceSpan (t : SpanTable) (span : TraceSpan) : SpanTable :=
  t.upsert (fun id => { span with id := id }) (fun r => { r with
      parentSpanId := span.parentSpanId, service := span.service, name := span.name,
      symbol := span.symbol, path := span.path, startUs := span.startUs,
      durationUs := span.durationUs, statusCode := span.statusCode })
    (fun _ => rfl) (fun _ => rfl) (fun _ => rfl)

/-- `ORDER BY start_us, id`: the rows are in id order and the sort is stable. -/
def allTraceSpans (s : SqliteStorage) : List TraceSpan :=
  s.traceSpans.rows.insertionSort fun a b => a.startUs ≤ b.startUs

end SqliteStorage

end WeaveGraph

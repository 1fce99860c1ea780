import WeaveGraph.Cli.Query
import WeaveGraph.Store.Search

/-!
# The graph tools of the MCP server

`weave_repo_map`, `weave_trace_calls` and `weave_impact_radius`.  With a mask each of them masks
the whole node list first and works on that and on the adjacency, so none can tell two stores
apart that differ in hidden nodes only (`graphTools_masked_congr`).

The module level of the map, which folds files into communities, is a parameter over the nodes and
edges it is given; so is that of the impact summary, which `moduleSummary` of `Mcp.FastPath` fills.
-/

namespace WeaveGraph.Mcp

open Lib
open SqliteStorage (usizeMax)

/-! ## Token budgets -/

/-- A word count, no real tokenizer. -/
def estimateTokens (text : String) : Nat := (Text.splitWhitespace text).length

def underBudget (text : String) (maxTokens : Option Nat) : Bool :=
  maxTokens.all fun max => estimateTokens text ≤ max

def joinLines (lines : List String) : String := String.intercalate "\n" lines

/-! ## Repository map -/

structure RepoMapArgs where
  maxFiles : Nat
  module : Option Bool
  maxTokens : Option Nat
deriving Repr, DecidableEq

structure FileTotals where
  path : String
  degree : Nat
  symbols : Nat
deriving Repr, DecidableEq

/-- `*file_degree.entry(path).or_insert(0) += degree`, and one more symbol. -/
def addToFile (path : String) (degree : Nat) : List FileTotals → List FileTotals
  | [] => [⟨path, degree, 1⟩]
  | f :: files =>
    if f.path = path then ⟨path, f.degree + degree, f.symbols + 1⟩ :: files
    else f :: addToFile path degree files

/-- Hub files first, then by path. -/
def FileTotals.before (a b : FileTotals) : Prop :=
  b.degree < a.degree ∨ (a.degree = b.degree ∧ a.path ≤ b.path)

instance : DecidableRel FileTotals.before := fun a b =>
  inferInstanceAs (Decidable (b.degree < a.degree ∨ (a.degree = b.degree ∧ a.path ≤ b.path)))

def fileTotals (csr : CsrGraph) (nodes : List Node) : List FileTotals :=
  (nodes.foldl (fun files n => addToFile n.path (csr.outbound n.id).length files) []).insertionSort
    FileTotals.before

def FileTotals.line (f : FileTotals) : String :=
  "  " ++ f.path ++ "  [" ++ toString f.symbols ++ " symbols, " ++ toString f.degree ++ " edges]"

def repoMapHeader (files total : Nat) : String :=
  "repo map (" ++ toString files ++ " files, " ++ toString total ++ " total):"

/-- Lines are kept while the whole response, header included, fits. -/
def keepLines (maxFiles max total : Nat) : List String → List String → List String
  | kept, [] => kept
  | kept, line :: lines =>
    if maxFiles ≤ kept.length then kept
    else if max < estimateTokens (repoMapHeader (kept.length + 1) total ++ "\n" ++
        joinLines (kept ++ [line])) then kept
    else keepLines maxFiles max total (kept ++ [line]) lines

variable (moduleMap : List Node → List Edge → String)

def weaveRepoMap (s : SqliteStorage) (csr : CsrGraph) (args : RepoMapArgs)
    (mask : Option (Node → Node)) : String :=
  let nodes := match mask with
    | some m => s.allNodes.map m
    | none => s.allNodes
  if args.module.getD false then moduleMap nodes s.allEdges
  else
    let files := fileTotals csr nodes
    match args.maxTokens with
    | some max =>
      let kept := keepLines args.maxFiles max files.length [] (files.map FileTotals.line)
      repoMapHeader kept.length files.length ++ "\n" ++ joinLines kept
    | none =>
      joinLines (repoMapHeader (min files.length args.maxFiles) files.length ::
        (files.take args.maxFiles).map FileTotals.line)

/-! ## Call traces -/

structure TraceCallsArgs where
  symbol : String
  depth : Nat
  maxTokens : Option Nat
  preciseOnly : Bool
deriving Repr, DecidableEq

def describe (n : Node) : String :=
  n.symbol ++ " (" ++ n.path ++ ":" ++ toString n.lineStart ++ ")"

section chains

variable (lookup : NodeId → Option Node)

def outgoingChain (csr : CsrGraph) (root : NodeId) (depth : Nat) : List String :=
  ((((csr.reachableWithin root depth).filterMap csr.idOfIndex).filter fun id => id != root).filterMap
    lookup).map describe

structure IncomingState where
  visited : List NodeId
  lines : List String

/-- The callers of one node, `hop` hops away.  A caller the filter drops is still followed. -/
def visitCallers (preciseOnly : Bool) (hop : Nat) :
    List Edge → IncomingState → List (NodeId × Nat) × IncomingState
  | [], st => ([], st)
  | edge :: rest, st =>
    if edge.sourceId ∈ st.visited then visitCallers preciseOnly hop rest st
    else
      let visited := edge.sourceId :: st.visited
      match lookup edge.sourceId with
      | none => visitCallers preciseOnly hop rest ⟨visited, st.lines⟩
      | some node =>
        let confidence := edgeConfidence edge.kind edge.resolutionKind
        let suffix := match confidence with
          | .heuristic => " [heuristic]"
          | .exact => ""
        let lines :=
          if preciseOnly && confidence == .heuristic then st.lines
          else st.lines ++ [describe node ++ suffix]
        let (next, st) := visitCallers preciseOnly hop rest ⟨visited, lines⟩
        ((edge.sourceId, hop + 1) :: next, st)

/-- `while let Some((current, hop)) = queue.pop_front()`. -/
def incomingLoop (s : SqliteStorage) (root : NodeId) (depth : Nat) (preciseOnly : Bool)
    (fuel : Nat) : List String :=
  worklist (fun st current =>
      if depth ≤ current.2 then .inr ([], st)
      else .inr (visitCallers lookup preciseOnly current.2 (s.getCallers current.1) st))
    IncomingState.lines fuel [(root, 0)] ⟨[root], []⟩

def incomingChain (s : SqliteStorage) (root : NodeId) (depth : Nat) (preciseOnly : Bool) :
    List String :=
  incomingLoop lookup s root depth preciseOnly (s.edges.rows.length + 1)

end chains

/-- One chain, its first `perChain` hops and how many more there are. -/
def chainLines (label : String) (chain : List String) (perChain : Nat) : List String :=
  let hidden := chain.length - perChain
  ("  " ++ label ++ " (" ++ toString chain.length ++ "):") ::
    ((chain.take perChain).map ("    → " ++ ·)) ++
    if 0 < hidden then ["    … and " ++ toString hidden ++ " more"] else []

def renderChains (symbol : String) (outgoing incoming : List String) (perChain : Nat) : String :=
  joinLines (("trace_calls: " ++ symbol) ::
    chainLines "outgoing" outgoing perChain ++ chainLines "incoming" incoming perChain)

/-- The most hops per chain, fewer than `perChain`, that fit; none when nothing does. -/
def shrinkChains (render : Nat → String) (max : Nat) : Nat → String
  | 0 => render 0
  | perChain + 1 =>
    if estimateTokens (render perChain) ≤ max then render perChain
    else shrinkChains render max perChain

def renderTrace (args : TraceCallsArgs) (outgoing incoming : List String) : String :=
  let render := renderChains args.symbol outgoing incoming
  if underBudget (render usizeMax) args.maxTokens then render usizeMax
  else shrinkChains render (args.maxTokens.getD 0) (max outgoing.length incoming.length)

def nodeIn (nodes : List Node) (id : NodeId) : Option Node := nodes.find? fun n => n.id == id

/-- Both chains of a root and their text. -/
def traceFrom (lookup : NodeId → Option Node) (s : SqliteStorage) (csr : CsrGraph)
    (args : TraceCallsArgs) (root : NodeId) : String :=
  renderTrace args (outgoingChain lookup csr root args.depth)
    (incomingChain lookup s root args.depth args.preciseOnly)

def weaveTraceCallsMasked (s : SqliteStorage) (csr : CsrGraph) (args : TraceCallsArgs)
    (mask : Node → Node) : String :=
  let nodes := s.allNodes.map mask
  match resolveSymbol nodes args.symbol with
  | .ok root => traceFrom (nodeIn nodes) s csr args root
  | .error suggestions => formatNotFound args.symbol suggestions

/-- The exact match first; all nodes only for the suggestions. -/
def resolveUnmasked (s : SqliteStorage) (symbol : String) : Except (List String) NodeId :=
  match s.getNodeBySymbol symbol with
  | some node => .ok node.id
  | none => resolveSymbol s.allNodes symbol

def weaveTraceCallsUnmasked (s : SqliteStorage) (csr : CsrGraph) (args : TraceCallsArgs) : String :=
  match resolveUnmasked s args.symbol with
  | .ok root => traceFrom s.getNode s csr args root
  | .error suggestions => formatNotFound args.symbol suggestions

def weaveTraceCalls (s : SqliteStorage) (csr : CsrGraph) (args : TraceCallsArgs)
    (mask : Option (Node → Node)) : String :=
  match mask with
  | some m => weaveTraceCallsMasked s csr args m
  | none => weaveTraceCallsUnmasked s csr args

/-! ## Impact radius -/

structure ImpactRadiusArgs where
  symbol : String
  maxTokens : Option Nat
deriving Repr, DecidableEq

structure ImpactRadiusResult where
  symbolCount : Nat
  text : String
deriving Repr, DecidableEq

/-- The first twenty symbols and how many more there are. -/
def impactFull (symbol : String) (impacted : List Node) : String :=
  let count := impacted.length
  joinLines (("impact_radius: " ++ symbol ++ " (" ++ toString count ++ " symbols affected)") ::
    ((impacted.take 20).map fun n => "  " ++ describe n) ++
    if 20 < count then ["  ... and " ++ toString (count - 20) ++ " more"] else [])

/-- One line per file, in the order of the paths. -/
def impactFiles (symbol : String) (impacted : List Node) : String :=
  joinLines (("impact_radius: " ++ symbol ++ " (" ++ toString impacted.length ++
      " symbols affected — shed to file summary)") ::
    (Text.sortedSet (impacted.map Node.path)).map fun path =>
      "  " ++ path ++ ": " ++ toString (impacted.filter fun n => n.path == path).length ++
        " symbols")

variable (moduleSummary : String → List Node → List Node → List Edge → Option String)

/-- The tiers, largest first; only the last reads the whole graph.  It has no result where the
clustering does not end. -/
def renderImpact (args : ImpactRadiusArgs) (impacted nodes : List Node) (edges : List Edge) :
    Option ImpactRadiusResult :=
  let full := impactFull args.symbol impacted
  let files := impactFiles args.symbol impacted
  (if underBudget full args.maxTokens then some full
    else if underBudget files args.maxTokens then some files
    else moduleSummary args.symbol impacted nodes edges).map (⟨impacted.length, ·⟩)

/-- `u32::MAX`. -/
def unboundedHops : Nat := 2 ^ 32 - 1

/-- The reached indices are positions in the node list, which is in id order. -/
def weaveImpactRadiusMasked (s : SqliteStorage) (csr : CsrGraph) (args : ImpactRadiusArgs)
    (mask : Node → Node) : Option ImpactRadiusResult :=
  let nodes := s.allNodes.map mask
  match resolveSymbol nodes args.symbol with
  | .ok root =>
    let impacted := ((csr.reachableWithin root unboundedHops).filterMap fun i => nodes[i]?).filter
      fun n => n.id != root
    renderImpact moduleSummary args impacted nodes s.allEdges
  | .error suggestions => some ⟨0, formatNotFound args.symbol suggestions⟩

def weaveImpactRadiusUnmasked (s : SqliteStorage) (csr : CsrGraph) (args : ImpactRadiusArgs) :
    Option ImpactRadiusResult :=
  match resolveUnmasked s args.symbol with
  | .ok root =>
    let impacted := (((csr.reachableWithin root unboundedHops).filterMap csr.idOfIndex).filter
      fun id => id != root).filterMap s.getNode
    renderImpact moduleSummary args impacted s.allNodes s.allEdges
  | .error suggestions => some ⟨0, formatNotFound args.symbol suggestions⟩

def weaveImpactRadius (s : SqliteStorage) (csr : CsrGraph) (args : ImpactRadiusArgs)
    (mask : Option (Node → Node)) : Option ImpactRadiusResult :=
  match mask with
  | some m => weaveImpactRadiusMasked moduleSummary s csr args m
  | none => weaveImpactRadiusUnmasked moduleSummary s csr args

/-! ## The caller walk is a breadth-first search -/

section incoming

variable (lookup : NodeId → Option Node) (depth : Nat) (preciseOnly : Bool)

/-- What `depth` and `precise_only` ask of a listing of callers. -/
def incomingListing : Callers.Listing where
  within k := decide (k < depth)
  passes kind resolutionKind :=
    !(preciseOnly && edgeConfidence kind resolutionKind == .heuristic)
  shows _ := true
  within_le hjk h := decide_eq_true (Nat.lt_of_le_of_lt hjk (of_decide_eq_true h))

def heuristicSuffix (e : Edge) : String :=
  match edgeConfidence e.kind e.resolutionKind with
  | .heuristic => " [heuristic]"
  | .exact => ""

def incomingLines (found : List Edge) : List String :=
  (found.filterMap ((incomingListing depth preciseOnly).entry lookup)).map fun p =>
    describe p.2 ++ heuristicSuffix p.1

/-- The walk has marked what the search has, and shows what the listing has of what it found. -/
def Mirrors (st : IncomingState) (t : Bfs.State NodeId Edge) : Prop :=
  st.visited = t.visited ∧ st.lines = incomingLines lookup depth preciseOnly t.found

theorem visitCallers_follows (s : SqliteStorage) (hop : Nat) :
    Bfs.Follows (Callers.graph lookup s) (visitCallers lookup preciseOnly hop)
      (fun b => (b, hop + 1)) (Mirrors lookup depth preciseOnly) := by
  refine (incomingListing depth preciseOnly).follows _ IncomingState.mk (fun _ _ => ⟨rfl, rfl⟩)
    (fun _ => rfl) fun e rest st => ?_
  rw [visitCallers, Callers.Listing.entry]
  cases lookup e.sourceId with
  | none => rfl
  | some node =>
    have hshown : ((incomingListing depth preciseOnly).passesEdge e &&
        (incomingListing depth preciseOnly).shows node) = !(preciseOnly &&
          edgeConfidence e.kind e.resolutionKind == .heuristic) := Bool.and_true _
    dsimp only
    rw [Option.bind_some, hshown]
    cases preciseOnly && edgeConfidence e.kind e.resolutionKind == .heuristic <;>
      simp [Prod.map, heuristicSuffix]

theorem incomingLoop_eq (s : SqliteStorage) (root : NodeId) (fuel : Nat) :
    incomingLoop lookup s root depth preciseOnly fuel = incomingLines lookup depth preciseOnly
      (Bfs.search (Callers.graph lookup s) (incomingListing depth preciseOnly).within root
        fuel) := by
  have hstart : Mirrors lookup depth preciseOnly ⟨[root], []⟩ (Bfs.init root) := ⟨rfl, rfl⟩
  refine worklist_rel (Q := fun lines found => lines = incomingLines lookup depth preciseOnly found)
    id (fun st t h => h.2) ?_ [(root, 0)] hstart
  rintro st t ⟨current, hop⟩ h
  obtain ⟨hnext, hrest⟩ :=
    (visitCallers_follows lookup depth preciseOnly s hop).scan (s.getCallers current) h
  by_cases hdeep : depth ≤ hop
  · have hbound : ¬ (incomingListing depth preciseOnly).within hop = true := by
      simpa [incomingListing] using hdeep
    rw [id, if_pos hdeep, Bfs.expand, if_neg hbound]
    exact Sum.liftRel_inr_inr.mpr ⟨rfl, h⟩
  · have hbound : (incomingListing depth preciseOnly).within hop = true := by
      simpa [incomingListing] using hdeep
    rw [id, if_neg hdeep, Bfs.expand, if_pos hbound]
    refine Sum.liftRel_inr_inr.mpr ⟨?_, hrest⟩
    rw [hnext, List.map_id]
    rfl

theorem incomingLoop_fuel (s : SqliteStorage) (root : NodeId) {m : Nat}
    (hm : s.edges.rows.length + 1 ≤ m) :
    incomingLoop lookup s root depth preciseOnly m =
      incomingChain lookup s root depth preciseOnly := by
  rw [incomingChain, incomingLoop_eq, incomingLoop_eq, Callers.search_fuel lookup s _ root hm]

end incoming

/-! ## What the tools read -/

/-- Two stores with the same ids, repositories and edges that differ in hidden nodes only. -/
structure LowEquivalent (g : RbacGuard) (s s' : SqliteStorage) : Prop where
  nodes : List.Forall₂ g.Indistinguishable s.nodes.rows s'.nodes.rows
  edges : s.edges = s'.edges

variable {g : RbacGuard} {s s' : SqliteStorage}

theorem LowEquivalent.masked (h : LowEquivalent g s s') :
    s.allNodes.map g.maskNode = s'.allNodes.map g.maskNode := RbacGuard.map_maskNode_congr h.nodes

theorem LowEquivalent.allEdges (h : LowEquivalent g s s') : s.allEdges = s'.allEdges := by
  unfold SqliteStorage.allEdges
  rw [h.edges]

theorem LowEquivalent.load (h : LowEquivalent g s s') : CsrGraph.load s = CsrGraph.load s' :=
  CsrGraph.load_congr (RbacGuard.map_id_congr h.nodes) h.edges

theorem traceFrom_congr (h : s.edges = s'.edges) (lookup : NodeId → Option Node) (csr : CsrGraph)
    (args : TraceCallsArgs) (root : NodeId) :
    traceFrom lookup s csr args root = traceFrom lookup s' csr args root := by
  unfold traceFrom incomingChain incomingLoop SqliteStorage.getCallers
  rw [h]

section

variable (h : LowEquivalent g s s') (csr : CsrGraph)

include h

theorem repoMap_congr (args : RepoMapArgs) : weaveRepoMap moduleMap s csr args (some g.maskNode) =
      weaveRepoMap moduleMap s' csr args (some g.maskNode) := by
  unfold weaveRepoMap
  simp only [h.masked, h.allEdges]

theorem traceCalls_congr (args : TraceCallsArgs) : weaveTraceCalls s csr args (some g.maskNode) =
      weaveTraceCalls s' csr args (some g.maskNode) := by
  simp only [weaveTraceCalls, weaveTraceCallsMasked, h.masked, traceFrom_congr h.edges]

theorem impactRadius_congr (args : ImpactRadiusArgs) :
    weaveImpactRadius moduleSummary s csr args (some g.maskNode) =
      weaveImpactRadius moduleSummary s' csr args (some g.maskNode) := by
  simp only [weaveImpactRadius, weaveImpactRadiusMasked, h.masked, h.allEdges]

end

/-- **No graph tool tells two stores apart that differ in hidden nodes only.** -/
theorem graphTools_masked_congr {g : RbacGuard} {s s' : SqliteStorage} (h : LowEquivalent g s s')
    (moduleMap : List Node → List Edge → String)
    (moduleSummary : String → List Node → List Node → List Edge → Option String) :
    (∀ args, weaveRepoMap moduleMap s (CsrGraph.load s) args (some g.maskNode) =
      weaveRepoMap moduleMap s' (CsrGraph.load s') args (some g.maskNode)) ∧
    (∀ args, weaveTraceCalls s (CsrGraph.load s) args (some g.maskNode) =
      weaveTraceCalls s' (CsrGraph.load s') args (some g.maskNode)) ∧
    ∀ args, weaveImpactRadius moduleSummary s (CsrGraph.load s) args (some g.maskNode) =
      weaveImpactRadius moduleSummary s' (CsrGraph.load s') args (some g.maskNode) := by
  rw [h.load]
  exact ⟨repoMap_congr moduleMap h _, traceCalls_congr h _, impactRadius_congr moduleSummary h _⟩

/-- The private caller is renamed; the traces of its callee differ, but not under a mask. -/
theorem graphTools_masked_renamed :
    let s := Query.withCaller "audit" "fn audit()"
    let s' := Query.withCaller "backdoor" "fn backdoor(key: &Key)"
    let mask := (Query.guardFor ⟨false, false⟩ .anonymous).maskNode
    let args : TraceCallsArgs := ⟨"open", 2, none, false⟩
    weaveTraceCalls s (CsrGraph.load s) args none ≠ weaveTraceCalls s' (CsrGraph.load s') args none ∧
      weaveTraceCalls s (CsrGraph.load s) args (some mask) =
        weaveTraceCalls s' (CsrGraph.load s') args (some mask) :=
  ⟨by decide +kernel, (graphTools_masked_congr
    ⟨Query.lowEquivalent_renamed.nodes, Query.lowEquivalent_renamed.edges⟩
    (fun _ _ => "") (fun _ _ _ _ => none)).2.1 _⟩

end WeaveGraph.Mcp

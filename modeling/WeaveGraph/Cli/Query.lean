import WeaveGraph.Core.Callers
import WeaveGraph.Core.Csr
import WeaveGraph.Core.Rbac
import WeaveGraph.Core.Resolve
import WeaveGraph.Parse.Contract

/-!
# The query language

`weave query`: `callers`, `callees`, `impact`, `path` and `latency` over the indexed graph, with
optional filters.  With a mask every node is masked before the first name is resolved; the main
result is that nothing a mask hides can be told apart by a query (`run_masked_congr`).
-/

namespace WeaveGraph

open Lib Lib.Text

/-! ## Trace statistics -/

def TraceSpan.isError (s : TraceSpan) : Bool := eqIgnoreAsciiCase s.statusCode "error"

structure SpanStats where
  count : Nat
  errorCount : Nat
  totalUs : Int
  minUs : Int
  maxUs : Int
  p50Us : Int
  p95Us : Int
  p99Us : Int
deriving Repr, DecidableEq

/-- The rank is computed in floating point, as in the source. -/
def nearestRank (sorted : List Int) (percentile : Float) : Int :=
  if sorted.isEmpty then 0
  else
    let rank := (percentile / 100.0 * sorted.length.toFloat).ceil.toUInt64.toNat
    sorted.getD (min (max rank 1 - 1) (sorted.length - 1)) 0

def aggregate (spans : List TraceSpan) : SpanStats :=
  let durations := (spans.map TraceSpan.durationUs).insertionSort (· ≤ ·)
  { count := durations.length
    errorCount := (spans.filter TraceSpan.isError).length
    totalUs := durations.foldl (· + ·) 0
    minUs := durations.head?.getD 0
    maxUs := durations.getLast?.getD 0
    p50Us := nearestRank durations 50.0
    p95Us := nearestRank durations 95.0
    p99Us := nearestRank durations 99.0 }

def latencyText (s : SqliteStorage) (symbol : String) : String :=
  let spans := s.allTraceSpans.filter fun span => span.symbol == some symbol
  if spans.isEmpty then "no trace spans matched to symbol " ++ symbol
  else
    let stats := aggregate spans
    symbol ++ ": " ++ toString stats.count ++ " span(s), " ++ toString stats.errorCount ++
      " error(s)\n  p50 " ++ toString stats.p50Us ++ "µs · p95 " ++ toString stats.p95Us ++
      "µs · p99 " ++ toString stats.p99Us ++ "µs · total " ++ toString stats.totalUs ++
      "µs (min " ++ toString stats.minUs ++ "µs, max " ++ toString stats.maxUs ++ "µs)"

namespace Query

/-! ## Expressions -/

def usage : String :=
  "Supported forms: callers(<symbol>), callees(<symbol>), impact(<symbol>), path(<a>,<b>), " ++
  "latency(<symbol>), each optionally followed by space-separated " ++
  "path:/lang:/kind:/visibility:/edge: filters (path:!<prefix> excludes instead of requiring)"

def parseCall (expr : String) : Option (String × List String) :=
  match splitOnce '(' expr with
  | none => none
  | some (name, rest) =>
    if endsWith expr ")" then
      let inner := String.ofList rest.toList.dropLast
      let args :=
        if trim inner = "" then [] else (splitChar ',' inner).map trim
      some (trim name, args)
    else none

structure QueryFilters where
  path : Option String
  pathExclude : Option String
  lang : Option String
  kind : Option String
  visibility : Option String
  edge : Option String
  precise : Option Bool
deriving Repr, DecidableEq

namespace QueryFilters

def default : QueryFilters := ⟨none, none, none, none, none, none, none⟩

def setPrecise (f : QueryFilters) (value : String) : Except String QueryFilters :=
  if value = "true" then .ok { f with precise := some true }
  else if value = "false" then .ok { f with precise := some false }
  else .error ("invalid precise:" ++ value ++ " — expected 'true' or 'false'")

def setVisibility (f : QueryFilters) (value : String) : Except String QueryFilters :=
  if eqIgnoreAsciiCase value "public" || eqIgnoreAsciiCase value "private" then
    .ok { f with visibility := some value }
  else .error ("invalid visibility:" ++ value ++ " — expected 'public' or 'private'")

def setPath (f : QueryFilters) (value : String) : QueryFilters :=
  match stripPrefix value "!" with
  | some excluded => { f with pathExclude := some excluded }
  | none => { f with path := some value }

/-- One `key:value` token. -/
def parseToken (f : QueryFilters) (token : String) : Except String QueryFilters :=
  match splitOnce ':' token with
  | none =>
    .error ("invalid filter '" ++ token ++ "': expected key:value (path/lang/kind/visibility/edge)")
  | some (key, value) =>
    if key = "path" then .ok (f.setPath value)
    else if key = "lang" then .ok { f with lang := some value }
    else if key = "kind" then .ok { f with kind := some value }
    else if key = "visibility" then f.setVisibility value
    else if key = "edge" then .ok { f with edge := some value }
    else if key = "precise" then f.setPrecise value
    else
      .error ("unknown filter '" ++ key ++ ":' — supported: path, lang, kind, visibility, edge")

def parse (rest : String) : Except String QueryFilters :=
  (splitWhitespace rest).foldlM parseToken default

def isEmpty (f : QueryFilters) : Bool :=
  f.path.isNone && f.pathExclude.isNone && f.lang.isNone && f.kind.isNone &&
    f.visibility.isNone && f.edge.isNone && f.precise.isNone

/-- A file of no known language counts as public here. -/
def isPublic (langExtended : Bool) (n : Node) : Bool :=
  match Language.fromPath langExtended n.path with
  | some lang =>
    Contract.visibilityRule lang (trim n.signature) (Contract.shortName n.symbol)
  | none => true

/-- The filters on nodes; `edge` and `precise` are for `callersText` alone. -/
def matchesNode (langExtended : Bool) (f : QueryFilters) (n : Node) : Bool :=
  (f.path.all fun p => startsWith n.path p) &&
  (f.pathExclude.all fun p => !startsWith n.path p) &&
  (f.kind.all fun k => n.kind == k) &&
  (f.lang.all fun lang => (Language.fromPath langExtended n.path).any fun l =>
    eqIgnoreAsciiCase l.debugName lang) &&
  (f.visibility.all fun v =>
    isPublic langExtended n == eqIgnoreAsciiCase v "public")

def matchesEdge (f : QueryFilters) (e : Edge) : Bool :=
  (f.edge.all fun k => e.kind == k) &&
    (f.precise != some true || edgeConfidence e.kind e.resolutionKind == .exact)

end QueryFilters

def singleArg : List String → Except String String
  | [a] => .ok a
  | args =>
    .error ("expected exactly one argument, got " ++ toString args.length ++ ". " ++ usage)

def pairArgs : List String → Except String (String × String)
  | [a, b] => .ok (a, b)
  | args =>
    .error ("expected exactly two arguments, got " ++ toString args.length ++ ". " ++ usage)

/-! ## Answers -/

/-- The features the binary was built with. -/
structure Features where
  langExtended : Bool
  otel : Bool

def describe (n : Node) : String :=
  n.symbol ++ " (" ++ n.path ++ ":" ++ toString n.lineStart ++ ")"

def resolve (nodes : List Node) (symbol : String) : Except String NodeId :=
  (resolveSymbol nodes symbol).mapError (formatNotFound symbol)

def resultText (lines : List String) : String :=
  if lines.isEmpty then "no results" else String.intercalate "\n" lines

structure CallersState where
  visited : List NodeId
  lines : List String

variable (feat : Features) (lookup : NodeId → Option Node) (filters : QueryFilters)

/-- One pass over the edges into a node.  A caller the filters reject is not shown, but its own
callers still count. -/
def visitCallers : List Edge → CallersState → List NodeId × CallersState
  | [], st => ([], st)
  | edge :: rest, st =>
    if edge.sourceId ∈ st.visited then visitCallers rest st
    else
      let visited := edge.sourceId :: st.visited
      match lookup edge.sourceId with
      | none => visitCallers rest ⟨visited, st.lines⟩
      | some node =>
        let shown := filters.matchesEdge edge && filters.matchesNode feat.langExtended node
        let lines := if shown then st.lines ++ [describe node] else st.lines
        let (next, st) := visitCallers rest ⟨visited, lines⟩
        (edge.sourceId :: next, st)

def callersLoop (s : SqliteStorage) (root : NodeId) (fuel : Nat) : List String :=
  worklist (fun st current => .inr (visitCallers feat lookup filters (s.getCallers current) st))
    CallersState.lines fuel [root] ⟨[root], []⟩

def callersText (s : SqliteStorage) (root : NodeId) : String :=
  resultText (callersLoop feat lookup filters s root (s.edges.rows.length + 1))

def reachableText (csr : CsrGraph) (root : NodeId) (maxHops : Nat) : String :=
  let ids := ((csr.reachableWithin root maxHops).filterMap csr.idOfIndex).filter fun id => id != root
  let nodes := (ids.filterMap lookup).filter (filters.matchesNode feat.langExtended)
  resultText (nodes.map describe)

def pathText (csr : CsrGraph) (source target : NodeId) : String :=
  match csr.queryPath source target with
  | some path => String.intercalate " → " ((path.filterMap lookup).map Node.symbol)
  | none => "no path found"

def noOtel : String := "latency() requires the `otel` feature; rebuild with `--features otel`"

def unknownFunction (name : String) : String := "unknown query function '" ++ name ++ "'. " ++ usage

def maxHops : Nat := 2 ^ 32 - 1

/-- The functions of the query language, over a way to resolve names and a way to look up nodes. -/
def answer (s : SqliteStorage) (resolveName : String → Except String NodeId) (name : String)
    (args : List String) : Except String String :=
  if name = "callers" then do
    let root ← resolveName (← singleArg args)
    return callersText feat lookup filters s root
  else if name = "callees" then do
    let root ← resolveName (← singleArg args)
    return reachableText feat lookup filters (CsrGraph.load s) root 1
  else if name = "impact" then do
    let root ← resolveName (← singleArg args)
    return reachableText feat lookup filters (CsrGraph.load s) root maxHops
  else if name = "path" then do
    let (a, b) ← pairArgs args
    let source ← resolveName a
    let target ← resolveName b
    return pathText lookup (CsrGraph.load s) source target
  else if name = "latency" then
    if feat.otel then do
      let id ← resolveName (← singleArg args)
      match lookup id with
      | some node => return latencyText s node.symbol
      | none => throw ("Symbol " ++ toString id ++ " not found")
    else throw noOtel
  else throw (unknownFunction name)

/-! ## Masked and unmasked runs -/

def maskedNodes (s : SqliteStorage) (mask : Node → Node) : List Node := s.allNodes.map mask

def runMasked (s : SqliteStorage) (name : String) (args : List String) (mask : Node → Node) :
    Except String String :=
  let nodes := maskedNodes s mask
  answer feat (fun id => nodes.find? fun n => n.id == id) filters s (resolve nodes) name args

/-- The exact match first; all nodes only for the suggestions. -/
def resolveFast (s : SqliteStorage) (symbol : String) : Except String NodeId :=
  match s.getNodeBySymbol symbol with
  | some node => .ok node.id
  | none => resolve s.allNodes symbol

def runUnmasked (s : SqliteStorage) (name : String) (args : List String) : Except String String :=
  answer feat s.getNode filters s (resolveFast s) name args

def checkFilters (name : String) : Except String Unit :=
  if (name = "path" ∨ name = "latency") ∧ !filters.isEmpty then
    .error ("filters are not supported for " ++ name ++
      "() — only callers()/callees()/impact() accept path:/lang:/kind:/visibility: filters, " ++
      "and edge: is callers()-only")
  else if name ≠ "callers" ∧ filters.edge.isSome then
    .error "edge: filter is only supported for callers()"
  else if name ≠ "callers" ∧ filters.precise.isSome then
    .error "precise: filter is only supported for callers()"
  else .ok ()

def unrecognized (expr : String) : String := "unrecognized query: " ++ expr ++ ". " ++ usage

/-- Function name, arguments and filters of an expression. -/
def parseExpression (expression : String) : Except String (String × List String × QueryFilters) :=
  let expr := trim expression
  match splitOnce ')' expr with
  | none => .error (unrecognized expr)
  | some (call, rest) =>
    match parseCall (call ++ ")") with
    | none => .error (unrecognized expr)
    | some (name, args) => do
      let filters ← QueryFilters.parse (trim rest)
      checkFilters filters name
      return (name, args, filters)

def run (s : SqliteStorage) (expression : String) (mask : Option (Node → Node)) :
    Except String String := do
  let (name, args, filters) ← parseExpression expression
  match mask with
  | some m => runMasked feat filters s name args m
  | none => runUnmasked feat filters s name args

/-! ## The guard of the command line -/

/-- Unlike the `visibility` filter, a file of no known language hides everything. -/
def guardIsPublic (langExtended : Bool) (n : Node) : Bool :=
  match Language.fromPath langExtended n.path with
  | some lang =>
    Contract.visibilityRule lang (trim n.signature) (Contract.shortName n.symbol)
  | none => false

def guardFor (identity : Identity) : RbacGuard := ⟨identity, guardIsPublic feat.langExtended⟩

/-! ## The callers loop is a breadth-first search -/

/-- What the filters ask of a listing of callers, without a bound on the distance. -/
def callersListing : Callers.Listing where
  within _ := true
  passes kind resolutionKind := (filters.edge.all fun k => kind == k) &&
    (filters.precise != some true || edgeConfidence kind resolutionKind == .exact)
  shows := filters.matchesNode feat.langExtended
  within_le _ h := h

def callersLines (found : List Edge) : List String :=
  (found.filterMap ((callersListing feat filters).entry lookup)).map fun p => describe p.2

/-- The loop has marked what the search has, and shows what the listing has of what it found. -/
def Mirrors (st : CallersState) (t : Bfs.State NodeId Edge) : Prop :=
  st.visited = t.visited ∧ st.lines = callersLines feat lookup filters t.found

theorem visitCallers_follows (s : SqliteStorage) :
    Bfs.Follows (Callers.graph lookup s) (visitCallers feat lookup filters) id
      (Mirrors feat lookup filters) := by
  refine (callersListing feat filters).follows _ CallersState.mk (fun _ _ => ⟨rfl, rfl⟩)
    (fun _ => rfl) fun e rest st => ?_
  rw [visitCallers, Callers.Listing.entry]
  cases lookup e.sourceId with
  | none => rfl
  | some node =>
    have hshown : ((callersListing feat filters).passesEdge e &&
        (callersListing feat filters).shows node) = (filters.matchesEdge e &&
          filters.matchesNode feat.langExtended node) := rfl
    dsimp only
    rw [Option.bind_some, hshown]
    cases filters.matchesEdge e && filters.matchesNode feat.langExtended node <;>
      simp [Prod.map]

theorem callersLoop_eq (s : SqliteStorage) (root : NodeId) (fuel : Nat) :
    callersLoop feat lookup filters s root fuel = callersLines feat lookup filters
      (Bfs.search (Callers.graph lookup s) (fun _ => true) root fuel) := by
  have hstart : Mirrors feat lookup filters ⟨[root], []⟩ (Bfs.init root) := ⟨rfl, rfl⟩
  refine worklist_rel (Q := fun lines found => lines = callersLines feat lookup filters found)
    Prod.fst (fun st t h => h.2) ?_ [(root, 0)] hstart
  rintro st t ⟨current, hop⟩ h
  obtain ⟨hnext, hrest⟩ :=
    (visitCallers_follows feat lookup filters s).scan (s.getCallers current) h
  refine Sum.liftRel_inr_inr.mpr ⟨?_, hrest⟩
  rw [hnext, List.map_map]
  rfl

theorem callersLoop_fuel (s : SqliteStorage) (root : NodeId) {m : Nat}
    (hm : s.edges.rows.length + 1 ≤ m) :
    callersLoop feat lookup filters s root m =
      callersLoop feat lookup filters s root (s.edges.rows.length + 1) := by
  rw [callersLoop_eq, callersLoop_eq, Callers.search_fuel lookup s _ root hm]

/-! ## What a query reads -/

variable {s s' : SqliteStorage}

theorem answer_congr (hids : s.nodes.rows.map Node.id = s'.nodes.rows.map Node.id)
    (hedges : s.edges = s'.edges) (hspans : s.traceSpans = s'.traceSpans)
    (resolveName : String → Except String NodeId) (name : String) (args : List String) :
    answer feat lookup filters s resolveName name args =
      answer feat lookup filters s' resolveName name args := by
  have hcallers : ∀ root, callersText feat lookup filters s root =
      callersText feat lookup filters s' root := by
    intro root
    unfold callersText callersLoop SqliteStorage.getCallers
    rw [hedges]
  have hlatency : ∀ symbol, latencyText s symbol = latencyText s' symbol := by
    intro symbol
    unfold latencyText SqliteStorage.allTraceSpans
    rw [hspans]
  unfold answer
  rw [CsrGraph.load_congr hids hedges]
  simp only [hcallers, hlatency]

/-- Two stores that differ in nothing a guard lets through. -/
structure LowEquivalent (g : RbacGuard) (s s' : SqliteStorage) : Prop where
  nodes : List.Forall₂ g.Indistinguishable s.nodes.rows s'.nodes.rows
  edges : s.edges = s'.edges
  traceSpans : s.traceSpans = s'.traceSpans

theorem maskedNodes_congr {g : RbacGuard} (h : LowEquivalent g s s') :
    maskedNodes s g.maskNode = maskedNodes s' g.maskNode := RbacGuard.map_maskNode_congr h.nodes

/-- No query can tell two stores apart that differ in hidden nodes only. -/
theorem run_masked_congr {g : RbacGuard} {s s' : SqliteStorage} (h : LowEquivalent g s s')
    (expression : String) :
    run feat s expression (some g.maskNode) = run feat s' expression (some g.maskNode) := by
  unfold run runMasked
  simp only [maskedNodes_congr h,
    answer_congr feat _ _ (RbacGuard.map_id_congr h.nodes) h.edges h.traceSpans]

/-- A public function and a private one that calls it. -/
def withCaller (symbol signature : String) : SqliteStorage :=
  let (_, nodes) := SqliteStorage.insertFreshNodes Table.empty
    [⟨0, "app", "src/lib.rs", "open", "Function", 1, 3, "pub fn open()"⟩,
     ⟨0, "app", "src/lib.rs", symbol, "Function", 5, 9, signature⟩]
  { SqliteStorage.openFresh with
    nodes := nodes
    edges := SqliteStorage.upsertEdges Table.empty
      [⟨0, 2, 1, "CALLS_EXACT", some "rust", some "EXACT_MATCH"⟩] }

theorem lowEquivalent_renamed :
    LowEquivalent (guardFor ⟨false, false⟩ .anonymous) (withCaller "audit" "fn audit()")
      (withCaller "backdoor" "fn backdoor(key: &Key)") :=
  ⟨.cons (.inl rfl) (.cons (.inr ⟨rfl, rfl, by decide +kernel, by decide +kernel⟩) .nil), rfl, rfl⟩

theorem run_masked_congr_renamed :
    let feat : Features := ⟨false, false⟩
    let s := withCaller "audit" "fn audit()"
    let s' := withCaller "backdoor" "fn backdoor(key: &Key)"
    let mask := (guardFor feat .anonymous).maskNode
    run feat s "callers(open)" none ≠ run feat s' "callers(open)" none ∧
    run feat s "callers(open)" (some mask) = .ok "<rbac: hidden> (<rbac: hidden>:0)" ∧
    run feat s "callers(open)" (some mask) = run feat s' "callers(open)" (some mask) :=
  ⟨by decide +kernel, by decide +kernel, run_masked_congr _ lowEquivalent_renamed _⟩

end Query

end WeaveGraph

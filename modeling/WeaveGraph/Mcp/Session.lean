import WeaveGraph.Store.Text
import WeaveGraph.Cli.Notes
import WeaveGraph.Mcp.Handler
import WeaveGraph.Mcp.Tools

/-!
# The other tools of a guarded MCP session

`weave_find_all` and `weave_file_api` look for real bodies and real paths before they mask what they
found; `weave_verify`, `weave_recall_notes` and `weave_pin_note` are not given the guard.  So what
they answer depends on hidden content:

    no tool tells two stores apart that differ in hidden content only
      ↔  the guard hides nothing                                              (noLeak_iff)

The full text index is a parameter: what its `MATCH` finds in a row, of which only that a search
for a word finds it in a body is used.
-/

namespace WeaveGraph.Mcp

open List Lib Lib.Json SqliteStorage Lib.Text

/-! ## The store of a session -/

structure SessionStore extends NotedStorage where
  fts : List FtsRow

/-! ## Searching bodies -/

def synonymGroups : List (List String) :=
  [["auth", "authentication", "login", "jwt", "token", "credential"],
    ["ttl", "expiry", "expiration", "timeout", "lifetime", "deadline"],
    ["calc", "calculate", "compute", "eval", "score"],
    ["db", "database", "store", "repository", "sql", "storage"],
    ["msg", "message", "payload", "event", "packet"]]

def quoted (term : String) : String := "\"" ++ term ++ "\""

/-- `replace('"', "\"\"")`. -/
def doubleQuotes (s : String) : String :=
  String.ofList (s.toList.flatMap fun c => if c = '"' then ['"', '"'] else [c])

/-- One word of a query: itself, or any word of its group. -/
def expandWord (word : String) : String :=
  let lower := toAsciiLowercase word
  match synonymGroups.find? fun group => group.contains lower with
  | some group => "(" ++ String.intercalate " OR " (group.map quoted) ++ ")"
  | none => quoted (doubleQuotes lower)

def expandQuery (query : String) : String :=
  String.intercalate " AND " ((splitWhitespace query).map expandWord)

/-- What `MATCH` finds; a malformed expression is an error. -/
structure Fts where
  search : String → Except StorageError (FtsRow → Bool)
  finds : ∃ found, search (expandQuery "zebra") = .ok found ∧
    ∀ id, found ⟨id, "", "", "zebra", ""⟩ = true ∧ found ⟨id, "", "", "", ""⟩ = false

/-- `ORDER BY n.path, n.line_start`. -/
def findAllSymbols (fts : Fts) (s : SessionStore) (expr : String) :
    Except StorageError (List Node) :=
  (fts.search expr).map fun found =>
    ((s.fts.filter found).filterMap fun row => s.storage.getNode row.rowid).insertionSort
      fun a b => a.path < b.path ∨ (a.path = b.path ∧ a.lineStart ≤ b.lineStart)

structure FindAllArgs where
  pattern : String
  path : Option String
  language : Option String
  kind : Option String
  limit : Nat
  maxTokens : Option Nat
deriving Repr, DecidableEq

def languageForPath (path : String) : Option String :=
  let ext := afterLast "." path
  if ext = "rs" then some "rust"
  else if ext = "py" then some "python"
  else if ext ∈ ["js", "jsx", "mjs", "cjs"] then some "javascript"
  else if ext ∈ ["ts", "tsx"] then some "typescript"
  else if ext = "go" then some "go"
  else if ext = "java" then some "java"
  else if ext ∈ ["c", "h"] then some "c"
  else if ext ∈ ["cpp", "cc", "cxx", "hpp", "hh", "hxx"] then some "cpp"
  else none

def FindAllArgs.keeps (args : FindAllArgs) (n : Node) : Bool :=
  (args.path.all fun p => startsWith n.path p) &&
  (args.kind.all fun k => n.kind == k) &&
  (args.language.all fun lang =>
    (languageForPath n.path).any fun l => eqIgnoreAsciiCase l lang)

def renderMatches (shown : List Node) (totalMatches : Nat) : String :=
  if shown.isEmpty then
    if totalMatches = 0 then "no matches"
    else toString totalMatches ++ " match(es) found, none fit the requested budget"
  else
    let omitted := totalMatches - shown.length
    joinLines ((shown.map fun n =>
        n.path ++ ":" ++ toString n.lineStart ++ "-" ++ toString n.lineEnd ++ " " ++ n.symbol ++
          " (" ++ n.kind ++ ")") ++
      if 0 < omitted then
        ["... and " ++ toString omitted ++ " more (raise `limit`/`max_tokens` to see them)"]
      else [])

/-- The most matches that fit; none when nothing does. -/
def shrinkMatches (found : List Node) (maxTokens : Option Nat) : Nat → String
  | 0 => renderMatches [] found.length
  | shown + 1 =>
    let text := renderMatches (found.take (shown + 1)) found.length
    if underBudget text maxTokens then text else shrinkMatches found maxTokens shown

def weaveFindAll (fts : Fts) (errorText : StorageError → String) (s : SessionStore)
    (args : FindAllArgs) (mask : Option (Node → Node)) : String :=
  match findAllSymbols fts s (expandQuery args.pattern) with
  | .error e => "error: " ++ errorText e
  | .ok all =>
    let masked := match mask with
      | some m => all.map m
      | none => all
    let found := masked.filter args.keeps
    shrinkMatches found args.maxTokens (min found.length (max args.limit 1))

/-! ## Wiring cards -/

structure SymbolEntry where
  kind : String
  symbol : String
  span : String
  signature : String
deriving Repr, DecidableEq

def SymbolEntry.fromNode (n : Node) : SymbolEntry :=
  ⟨n.kind, n.symbol, "L" ++ toString n.lineStart ++ "-" ++ toString n.lineEnd, n.signature⟩

structure WiringCard where
  path : String
  symbols : List SymbolEntry
deriving Repr, DecidableEq

/-- The path is matched before the mask is applied. -/
def weaveFileApi (s : SqliteStorage) (paths : List String) (mask : Option (Node → Node)) :
    List WiringCard :=
  paths.map fun path =>
    ⟨path, (((s.allNodes.filter fun n => n.path == path).map fun n =>
      SymbolEntry.fromNode (mask.elim n fun m => m n)).insertionSort fun a b => a.span ≤ b.span)⟩

def renderCards (cards : List WiringCard) (maxTokens : Option Nat) : String :=
  let full := String.join (cards.map fun card => card.path ++ ":\n" ++
    String.join (card.symbols.map fun sym =>
      "  " ++ sym.symbol ++ " [" ++ sym.kind ++ "] " ++ sym.span ++ "\n"))
  let names := String.join (cards.map fun card =>
    card.path ++ ": " ++ String.intercalate ", " (card.symbols.map SymbolEntry.symbol) ++ "\n")
  let counts := String.join (cards.map fun card =>
    card.path ++ ": " ++ toString card.symbols.length ++ " symbols\n")
  match maxTokens with
  | none => full
  | some max =>
    if estimateTokens full ≤ max then full
    else if estimateTokens names ≤ max then names
    else counts

/-! ## Unresolved references, notes -/

/-- `get_unresolved_refs_for_path("local", file)`. -/
def unresolvedRefsForPath (s : SqliteStorage) (file : String) : List String :=
  (s.unresolvedRefs.filter fun u => u.repoId == "local" && u.path == file).map
    UnresolvedRef.shortName

def weaveVerify (s : SqliteStorage) (file : String) (range : Option (Nat × Nat)) : String :=
  let unresolved := unresolvedRefsForPath s file
  let target := match range with
    | some (start, stop) => file ++ ":" ++ toString start ++ "-" ++ toString stop
    | none => file
  if unresolved.isEmpty then "✅ pass: " ++ target ++ " — no phantom symbols found"
  else
    "❌ fail: " ++ target ++ " — " ++ toString unresolved.length ++ " unresolved reference(s):" ++
      String.join (unresolved.map fun name =>
        "\n  phantom_symbols: unresolved reference to `" ++ name ++ "`")

/-- `WHERE tier = 'crystallized' OR expires_at > now ORDER BY created_at DESC, id`. -/
def recallNotes (t : NoteTable) (now : Int) : List Note :=
  (t.rows.filter fun n => n.tier == .crystallized || n.expiresAt.any (now < ·)).insertionSort
    fun a b => b.createdAt < a.createdAt ∨ (a.createdAt = b.createdAt ∧ a.id ≤ b.id)

def tierText : NoteTier → String
  | .ephemeral => "ephemeral"
  | .crystallized => "crystallized"

def noteLine (note : Note) : String :=
  let tags := [tierText note.tier] ++ (if note.stale then ["stale"] else []) ++
    (if note.targetNodeId.isNone then ["orphaned"] else [])
  "#" ++ toString note.id ++ " [" ++ String.intercalate ", " tags ++ "] " ++ note.moniker ++ ": " ++
    note.content

def weaveRecallNotes (t : NoteTable) (now : Int) : String :=
  match recallNotes t now with
  | [] => "No notes."
  | notes => joinLines (notes.map noteLine)

/-! ## Dispatch -/

structure CallToolResult where
  content : List String
  isError : Bool
deriving Repr, DecidableEq

def CallToolResult.ok (text : String) : CallToolResult := ⟨[text], false⟩

def CallToolResult.err (text : String) : CallToolResult := ⟨[text], true⟩

/-- What a session has beside its store: the text index, the working tree with its hash, the clock,
the warnings of the watcher, and the tools that are not modelled here. -/
structure ToolEnv where
  fts : Fts
  errorText : StorageError → String
  hash : String → String
  root : Tree
  now : Int
  staleness : List String
  otherTool : SessionStore → ToolsCall → CallToolResult

section dispatch

variable (env : ToolEnv) (s : SessionStore) (guard : Option RbacGuard) (args : Value)

def strArg (key : String) : Option String := (args.get key).bind Value.asStr

def natArg (key : String) : Option Nat := (args.get key).bind Value.asU64

def callFindAll : CallToolResult :=
  match strArg args "pattern" with
  | none => .err "Missing 'pattern' parameter"
  | some pattern => .ok (weaveFindAll env.fts env.errorText s
      ⟨pattern, strArg args "path", strArg args "language", strArg args "kind",
        (natArg args "limit").getD 50, natArg args "max_tokens"⟩
      (guard.map RbacGuard.maskNode))

def callFileApi : CallToolResult :=
  let paths := (((args.get "paths").bind Value.asArray).getD []).filterMap Value.asStr
  .ok (renderCards (weaveFileApi s.storage paths (guard.map RbacGuard.maskNode))
    (natArg args "max_tokens"))

/-- The first two items of `range`, when both are numbers. -/
def rangeArg : Option (Nat × Nat) :=
  match (args.get "range").bind Value.asArray with
  | some (start :: stop :: _) =>
    match start.asU64, stop.asU64 with
    | some a, some b => some (a % 2 ^ 32, b % 2 ^ 32)
    | _, _ => none
  | _ => none

def callVerify : CallToolResult :=
  match strArg args "file" with
  | none => .err "Missing 'file' parameter"
  | some file => .ok (weaveVerify s.storage file (rangeArg args))

def callPinNote : CallToolResult :=
  match strArg args "symbol", strArg args "text" with
  | none, _ => .err "Missing 'symbol' parameter"
  | some _, none => .err "Missing 'text' parameter"
  | some symbol, some text =>
    let tier := strArg args "tier"
    match s.toNotedStorage.weavePinNote env.hash env.root symbol text tier
        (strArg args "kind") env.now with
    | .ok (id, _) => .ok ("Pinned note #" ++ toString id ++ " to " ++ symbol ++ " (" ++
        tierText (if tier = some "crystallized" then .crystallized else .ephemeral) ++ ")")
    | .error message => .ok message

end dispatch

/-- The tools of this module. -/
inductive Tool where
  | findAll
  | fileApi
  | verify
  | recallNotes
  | pinNote
deriving Repr, DecidableEq

def Tool.name : Tool → String
  | .findAll => "weave_find_all"
  | .fileApi => "weave_file_api"
  | .verify => "weave_verify"
  | .recallNotes => "weave_recall_notes"
  | .pinNote => "weave_pin_note"

/-- The `match name` of `handle_tools_call`, with the warnings of the watcher. -/
def runTool (env : ToolEnv) (s : SessionStore) (call : ToolsCall) : CallToolResult :=
  let result :=
    if call.name = "weave_file_api" then callFileApi s call.guard call.args
    else if call.name = "weave_find_all" then callFindAll env s call.guard call.args
    else if call.name = "weave_pin_note" then callPinNote env s call.args
    else if call.name = "weave_recall_notes" then .ok (weaveRecallNotes s.notes env.now)
    else if call.name = "weave_verify" then callVerify s call.args
    else env.otherTool s call
  { result with content := result.content ++ env.staleness }

/-- The response to `tools/call`: an error of the handler, or what the tool returned. -/
def toolsCallResponse (env : ToolEnv) (h : McpHandler) (s : SessionStore)
    (id params : Option Value) : Reply ⊕ (Option Value × CallToolResult) :=
  match h.handleToolsCall id params with
  | .call id call => .inr (id, runTool env s call)
  | reply => .inl reply

/-! ## Hidden content -/

/-- The id of a node the guard hides. -/
def HiddenNode (g : RbacGuard) (s : SessionStore) (id : NodeId) : Prop :=
  ∃ n ∈ s.storage.nodes.rows, n.id = id ∧ g.visible n = false
deriving Decidable

/-- A file with nodes, all of them hidden. -/
def HiddenFile (g : RbacGuard) (s : SessionStore) (path : String) : Prop :=
  (∃ n ∈ s.storage.nodes.rows, n.path = path) ∧
    ∀ n ∈ s.storage.nodes.rows, n.path = path → g.visible n = false
deriving Decidable

/-- Two stores that agree on everything but the content, the notes, the index rows and the
unresolved references of hidden nodes and files. -/
structure SameVisible (g : RbacGuard) (s s' : SessionStore) : Prop where
  nodes : List.Forall₂ g.Indistinguishable s.storage.nodes.rows s'.storage.nodes.rows
  edges : s.storage.edges = s'.storage.edges
  contracts : s.storage.contracts = s'.storage.contracts
  traceSpans : s.storage.traceSpans = s'.storage.traceSpans
  unresolvedRefs : (s.storage.unresolvedRefs.filter fun u => ¬ HiddenFile g s u.path) =
    s'.storage.unresolvedRefs.filter fun u => ¬ HiddenFile g s' u.path
  notes : (s.notes.rows.filter fun n => ¬ n.targetNodeId.any fun id => HiddenNode g s id) =
    s'.notes.rows.filter fun n => ¬ n.targetNodeId.any fun id => HiddenNode g s' id
  fts : (s.fts.filter fun r => ¬ HiddenNode g s r.rowid) =
    s'.fts.filter fun r => ¬ HiddenNode g s' r.rowid

/-- `with_identity`: a session with a guard. -/
def sessionHandler (g : RbacGuard) : McpHandler := ⟨some g, none, false⟩

/-- No call of the tool tells two such stores apart. -/
def NoLeak (env : ToolEnv) (g : RbacGuard) (tool : Tool) : Prop :=
  ∀ s s', SameVisible g s s' → ∀ id params, callName params = some tool.name →
    toolsCallResponse env (sessionHandler g) s id (some params) =
      toolsCallResponse env (sessionHandler g) s' id (some params)

theorem response_eq (env : ToolEnv) (g : RbacGuard) (s : SessionStore) (id : Option Value)
    {params : Value} {name : String} (h : callName params = some name) :
    toolsCallResponse env (sessionHandler g) s id (some params) =
      .inr (id, runTool env s ⟨some g, name, removeMeta (callArguments params)⟩) := by
  have hcall : (sessionHandler g).handleToolsCall id (some params) =
      .call id ⟨some g, name, removeMeta (callArguments params)⟩ := by
    simp only [McpHandler.handleToolsCall, h]
    cases metaToken (callArguments params) <;> rfl
  unfold toolsCallResponse
  rw [hcall]

def request (tool : Tool) (args : List (String × Value)) : Value :=
  .obj [("arguments", .obj args), ("name", .str tool.name)]

/-- The arm of the dispatch a tool has. -/
def Tool.run (env : ToolEnv) (s : SessionStore) (guard : Option RbacGuard) (args : Value) :
    Tool → CallToolResult
  | .findAll => callFindAll env s guard args
  | .fileApi => callFileApi s guard args
  | .verify => callVerify s args
  | .recallNotes => .ok (weaveRecallNotes s.notes env.now)
  | .pinNote => callPinNote env s args

theorem runTool_eq (env : ToolEnv) (s : SessionStore) (guard : Option RbacGuard) (args : Value)
    (tool : Tool) : runTool env s ⟨guard, tool.name, args⟩ =
      { tool.run env s guard args with
        content := (tool.run env s guard args).content ++ env.staleness } := by
  cases tool <;> rfl

theorem NoLeak.content_eq {env : ToolEnv} {g : RbacGuard} {tool : Tool} (h : NoLeak env g tool)
    {s s' : SessionStore} (hs : SameVisible g s s') (args : List (String × Value))
    (hargs : (args.filter fun f => f.1 ≠ "_meta") = args) :
    (tool.run env s (some g) (.obj args)).content =
      (tool.run env s' (some g) (.obj args)).content := by
  have hname : callName (request tool args) = some tool.name := by
    simp [callName, request, Value.get, lookup_cons, Value.asStr]
  have hargs' : removeMeta (callArguments (request tool args)) = .obj args := by
    simp only [callArguments, request, Value.get, lookup_cons, beq_self_eq_true, Option.getD_some,
      removeMeta, hargs]
  have hresp := h s s' hs none (request tool args) hname
  rw [response_eq _ _ _ _ hname, response_eq _ _ _ _ hname, hargs', runTool_eq, runTool_eq] at hresp
  exact append_cancel_right (congrArg (fun r => r.2.content) (Sum.inr.inj hresp))

/-! ## A store with one hidden node -/

section hidden

variable {env : ToolEnv} {g : RbacGuard}

def oneNode (n : Node) : NodeTable := ⟨[n], pairwise_singleton _ _, by simp⟩

def storeOf (n : Node) (refs : List UnresolvedRef) (notes : NoteTable) (fts : List FtsRow) :
    SessionStore :=
  ⟨⟨{ openFresh with nodes := oneNode n, unresolvedRefs := refs }, notes⟩, fts⟩

/-- Nothing but what belongs to the hidden node. -/
structure Belongs (n : Node) (refs : List UnresolvedRef) (notes : NoteTable) (fts : List FtsRow) :
    Prop where
  refs : ∀ u ∈ refs, u.path = n.path
  notes : ∀ t ∈ notes.rows, t.targetNodeId = some n.id
  fts : ∀ r ∈ fts, r.rowid = n.id

theorem belongs_nil (n : Node) : Belongs n [] Table.empty [] :=
  ⟨by simp, fun t ht => (by cases ht), by simp⟩

/-- Whatever belongs to hidden nodes may differ. -/
theorem sameVisible_storeOf {a b : Node} (ha : g.visible a = false) (hb : g.visible b = false)
    (hid : a.id = b.id) (hrepo : a.repoId = b.repoId) {refs refs' : List UnresolvedRef}
    {notes notes' : NoteTable} {fts fts' : List FtsRow} (h : Belongs a refs notes fts)
    (h' : Belongs b refs' notes' fts') :
    SameVisible g (storeOf a refs notes fts) (storeOf b refs' notes' fts') := by
  have hnode : ∀ {n : Node} {r t f}, g.visible n = false → HiddenNode g (storeOf n r t f) n.id :=
    fun {n} _ _ _ hn => ⟨n, mem_singleton.mpr rfl, rfl, hn⟩
  have hfile : ∀ {n : Node} {r t f}, g.visible n = false →
      HiddenFile g (storeOf n r t f) n.path := fun {n} _ _ _ hn =>
    ⟨⟨n, mem_singleton.mpr rfl, rfl⟩, fun m hm _ => by rw [mem_singleton.mp hm, hn]⟩
  have hnil : ∀ {α : Type} {p : α → Bool} {l : List α}, (∀ x ∈ l, p x = false) →
      l.filter p = [] := fun hp => filter_eq_nil_iff.mpr fun x hx => by simp [hp x hx]
  refine ⟨.cons (.inr ⟨hid, hrepo, ha, hb⟩) .nil, rfl, rfl, rfl, ?_, ?_, ?_⟩
  · rw [hnil fun u hu => by simp [h.refs u hu, hfile ha],
      hnil fun u hu => by simp [h'.refs u hu, hfile hb]]
  · rw [hnil fun t ht => by simp [h.notes t ht, hnode ha],
      hnil fun t ht => by simp [h'.notes t ht, hnode hb]]
  · rw [hnil fun r hr => by simp [h.fts r hr, hnode ha],
      hnil fun r hr => by simp [h'.fts r hr, hnode hb]]

theorem sameVisible_self {n : Node} (hn : g.visible n = false) {refs : List UnresolvedRef}
    {notes : NoteTable} {fts : List FtsRow} (h : Belongs n refs notes fts) :
    SameVisible g (storeOf n refs notes fts) (storeOf n [] Table.empty []) :=
  sameVisible_storeOf hn hn rfl rfl h (belongs_nil n)

/-! ## What each tool leaks -/

def noteOn (n : Node) : NoteTable :=
  pinNote Table.empty ⟨0, some n.id, "", "note", .crystallized, "agent", "", none, false, none, 0⟩

theorem belongs_noteOn (n : Node) : Belongs n [] (noteOn n) [] :=
  ⟨by simp, fun t ht => by rw [mem_singleton.mp ht], by simp⟩

theorem ne_of_head {a b : String} {c d : Char} (ha : a.toList.head? = some c)
    (hb : b.toList.head? = some d) (h : c ≠ d) : a ≠ b := by
  rintro rfl
  exact h (Option.some.inj (ha.symm.trans hb))

theorem visible_of_recallNotes (h : NoLeak env g .recallNotes) (n : Node) : g.visible n = true := by
  by_contra hn
  have hs := h.content_eq (sameVisible_self (by simpa using hn) (belongs_noteOn n)) [] rfl
  have htexts : weaveRecallNotes (noteOn n) env.now = "No notes." :=
    (List.cons.inj hs).1
  refine ne_of_head (c := '#') (d := 'N') ?_ (by decide) (by decide) htexts
  have hline : weaveRecallNotes (noteOn n) env.now = joinLines ((noteOn n).rows.map noteLine) := rfl
  rw [hline]
  simp [joinLines, noteOn, pinNote, Table.append, Table.empty, noteLine, String.toList_append]

theorem weaveVerify_head (s : SqliteStorage) (file : String) (range : Option (Nat × Nat)) :
    (weaveVerify s file range).toList.head? =
      some (if unresolvedRefsForPath s file = [] then '✅' else '❌') := by
  unfold weaveVerify
  cases hu : unresolvedRefsForPath s file with
  | nil => simp [String.toList_append]
  | cons r refs => simp [String.toList_append]

theorem visible_of_verify (h : NoLeak env g .verify) (n : Node) : g.visible n = true := by
  by_contra hn
  have hb : Belongs n [⟨"local", n.path, "secret"⟩] Table.empty [] :=
    ⟨by simp, fun t ht => (by cases ht), by simp⟩
  have hs := h.content_eq (sameVisible_self (by simpa using hn) hb) [("file", .str n.path)] rfl
  have htexts : weaveVerify (storeOf n [⟨"local", n.path, "secret"⟩] Table.empty []).storage
      n.path none = weaveVerify (storeOf n [] Table.empty []).storage n.path none :=
    (List.cons.inj hs).1
  refine ne_of_head (weaveVerify_head _ _ _) (weaveVerify_head _ _ _) ?_ htexts
  simp [unresolvedRefsForPath, storeOf, openFresh]

theorem callPinNote_content (env : ToolEnv) (n : Node) (notes : NoteTable) :
    (callPinNote env (storeOf n [] notes [])
      (.obj [("symbol", .str n.symbol), ("text", .str "")])).content =
      ["Pinned note #" ++ toString notes.nextId ++ " to " ++ n.symbol ++ " (" ++ "ephemeral" ++
        ")"] := by
  have hfind : NotedStorage.resolveSymbol (storeOf n [] notes []).storage n.symbol = some n := by
    simp [NotedStorage.resolveSymbol, storeOf, allNodes, oneNode]
  simp only [callPinNote, strArg, Value.get, NotedStorage.weavePinNote, NotedStorage.pin]
  simp [lookup_cons, Value.asStr, hfind, CallToolResult.ok, tierText]
  rfl

theorem visible_of_pinNote (h : NoLeak env g .pinNote) (n : Node) : g.visible n = true := by
  by_contra hn
  have hs := h.content_eq (sameVisible_self (by simpa using hn) (belongs_noteOn n))
    [("symbol", .str n.symbol), ("text", .str "")] rfl
  simp only [Tool.run, callPinNote_content, List.cons.injEq, String.append_left_inj,
    String.append_right_inj] at hs
  have hids : toString (2 : Nat) = toString (1 : Nat) := hs.1
  exact absurd hids (by decide)

theorem weaveFindAll_storeOf {n : Node} {body : String} {found : FtsRow → Bool}
    (h : env.fts.search (expandQuery "zebra") = .ok found) :
    weaveFindAll env.fts env.errorText (storeOf n [] Table.empty [⟨n.id, "", "", body, ""⟩])
      ⟨"zebra", none, none, none, 50, none⟩ (some g.maskNode) =
      if found ⟨n.id, "", "", body, ""⟩ = true then renderMatches [g.maskNode n] 1
      else "no matches" := by
  have hget : (storeOf n [] Table.empty [⟨n.id, "", "", body, ""⟩]).storage.getNode n.id =
      some n := by
    simp [getNode, storeOf, oneNode]
  simp only [weaveFindAll, findAllSymbols, h, Except.map]
  cases hf : found ⟨n.id, "", "", body, ""⟩ with
  | true =>
    have hfts : (storeOf n [] Table.empty [⟨n.id, "", "", body, ""⟩]).fts.filter found =
        [⟨n.id, "", "", body, ""⟩] := by simp [storeOf, hf]
    rw [hfts]
    simp only [filterMap_cons, hget, filterMap_nil]
    rfl
  | false =>
    have hfts : (storeOf n [] Table.empty [⟨n.id, "", "", body, ""⟩]).fts.filter found =
        [] := by simp [storeOf, hf]
    rw [hfts]
    rfl

theorem visible_of_findAll (h : NoLeak env g .findAll) (n : Node) : g.visible n = true := by
  by_contra hn
  have hhidden : g.visible n = false := by simpa using hn
  obtain ⟨found, hfound, hrows⟩ := env.fts.finds
  obtain ⟨htrue, hfalse⟩ := hrows n.id
  have hb : ∀ body, Belongs n [] Table.empty [⟨n.id, "", "", body, ""⟩] :=
    fun body => ⟨by simp, fun t ht => (by cases ht), by simp⟩
  have hs := h.content_eq (sameVisible_storeOf hhidden hhidden rfl rfl (hb "zebra") (hb ""))
    [("pattern", .str "zebra")] rfl
  have htexts : weaveFindAll env.fts env.errorText (storeOf n [] Table.empty
      [⟨n.id, "", "", "zebra", ""⟩]) ⟨"zebra", none, none, none, 50, none⟩ (some g.maskNode) =
      weaveFindAll env.fts env.errorText (storeOf n [] Table.empty [⟨n.id, "", "", "", ""⟩])
        ⟨"zebra", none, none, none, 50, none⟩ (some g.maskNode) := (List.cons.inj hs).1
  rw [weaveFindAll_storeOf hfound, weaveFindAll_storeOf hfound, if_pos htrue,
    if_neg (by simp [hfalse])] at htexts
  refine ne_of_head (c := '<') (d := 'n') ?_ (by decide) (by decide) htexts
  simp [renderMatches, joinLines, RbacGuard.maskNode, hhidden, hiddenMarker, String.toList_append]

/-- Hidden nodes with one id stand in one file. -/
def OnePath (g : RbacGuard) : Prop :=
  ∀ a b : Node, a.id = b.id → a.repoId = b.repoId → g.visible a = false → g.visible b = false →
    a.path = b.path

theorem onePath_of_fileApi (h : NoLeak env g .fileApi) : OnePath g := by
  intro a b hid hrepo ha hb
  by_contra hpath
  have hs := h.content_eq (sameVisible_storeOf ha hb hid hrepo (belongs_nil a) (belongs_nil b))
    [("paths", .arr [.str a.path])] rfl
  have htexts : renderCards (weaveFileApi (storeOf a [] Table.empty []).storage [a.path]
      (some g.maskNode)) none = renderCards (weaveFileApi
        (storeOf b [] Table.empty []).storage [a.path] (some g.maskNode)) none :=
    (List.cons.inj hs).1
  have hcards : ∀ m : Node, renderCards (weaveFileApi (storeOf m [] Table.empty []).storage
      [a.path] (some g.maskNode)) none = a.path ++ ":\n" ++ String.join
        ((if m.path = a.path then [SymbolEntry.fromNode (g.maskNode m)] else []).map fun sym =>
          "  " ++ sym.symbol ++ " [" ++ sym.kind ++ "] " ++ sym.span ++ "\n") := by
    intro m
    by_cases hm : m.path = a.path
    · simp [renderCards, weaveFileApi, storeOf, allNodes, oneNode, hm]
    · simp [renderCards, weaveFileApi, storeOf, allNodes, oneNode, hm]
  rw [hcards, hcards, if_pos rfl, if_neg (Ne.symm hpath), String.append_right_inj] at htexts
  have := congrArg String.toList htexts
  simp [String.toList_append] at this

/-! ## Guards that hide nothing -/

theorem eq_of_sameVisible (hg : ∀ n, g.visible n = true) {s s' : SessionStore}
    (h : SameVisible g s s') : s = s' := by
  have hnode : ∀ (s : SessionStore) id, ¬ HiddenNode g s id := by
    rintro s id ⟨n, -, -, hn⟩
    rw [hg n] at hn
    cases hn
  have hfile : ∀ (s : SessionStore) path, ¬ HiddenFile g s path := by
    rintro s path ⟨⟨n, hn, hp⟩, hall⟩
    have := hall n hn hp
    rw [hg n] at this
    cases this
  have hrows : s.storage.nodes.rows = s'.storage.nodes.rows := by
    refine forall₂_eq_eq_eq ▸ (h.nodes.imp fun a b hab => ?_)
    rcases hab with rfl | ⟨-, -, ha, -⟩
    · rfl
    · rw [hg a] at ha
      cases ha
  have hrefs := h.unresolvedRefs
  have hnotes := h.notes
  have hfts := h.fts
  simp only [hnode, hfile, not_false_eq_true, decide_true, filter_true, decide_false,
    Option.any_false, Bool.false_eq_true] at hrefs hnotes hfts
  obtain ⟨⟨⟨nodes, edges, refs, contracts, spans⟩, notes⟩, fts⟩ := s
  obtain ⟨⟨⟨nodes', edges', refs', contracts', spans'⟩, notes'⟩, fts'⟩ := s'
  have hedges := h.edges
  have hcontracts := h.contracts
  have hspans := h.traceSpans
  obtain rfl : nodes = nodes' := Table.ext hrows
  obtain rfl : notes = notes' := Table.ext hnotes
  subst hedges hcontracts hspans hrefs hfts
  rfl

/-- The tools whose answers tell hidden content apart, whatever is hidden; a wiring card tells only
the file of a hidden node. -/
def Harmless (g : RbacGuard) : Tool → Prop
  | .fileApi => OnePath g
  | _ => ∀ n, g.visible n = true

theorem fileApi_congr (hg : OnePath g) {s s' : SqliteStorage}
    (h : List.Forall₂ g.Indistinguishable s.nodes.rows s'.nodes.rows) (paths : List String) :
    weaveFileApi s paths (some g.maskNode) = weaveFileApi s' paths (some g.maskNode) := by
  have hentries : ∀ path, ((s.allNodes.filter fun n => n.path == path).map fun n =>
      SymbolEntry.fromNode (g.maskNode n)) =
      (s'.allNodes.filter fun n => n.path == path).map fun n =>
        SymbolEntry.fromNode (g.maskNode n) := by
    intro path
    unfold allNodes
    generalize s.nodes.rows = rows, s'.nodes.rows = rows' at h
    induction h with
    | nil => rfl
    | @cons a b l l' hab hl ih =>
      have hpath : a.path = b.path := by
        rcases hab with rfl | ⟨hid, hrepo, ha, hb⟩
        · rfl
        · exact hg a b hid hrepo ha hb
      rw [filter_cons, filter_cons, hpath]
      split
      · rw [map_cons, map_cons, ih, RbacGuard.maskNode_congr hab]
      · exact ih
  refine map_congr_left fun path _ => ?_
  simp only [Option.elim_some, hentries path]

theorem noLeak_tool_iff (env : ToolEnv) (g : RbacGuard) (tool : Tool) :
    NoLeak env g tool ↔ Harmless g tool := by
  have hnothing : (∀ n, g.visible n = true) → NoLeak env g tool := by
    intro hg s s' hs id params _
    rw [eq_of_sameVisible hg hs]
  cases tool with
  | findAll => exact ⟨visible_of_findAll, hnothing⟩
  | verify => exact ⟨visible_of_verify, hnothing⟩
  | recallNotes => exact ⟨visible_of_recallNotes, hnothing⟩
  | pinNote => exact ⟨visible_of_pinNote, hnothing⟩
  | fileApi =>
    refine ⟨onePath_of_fileApi, fun hg s s' hs id params hname => ?_⟩
    rw [response_eq _ _ _ _ hname, response_eq _ _ _ _ hname, runTool_eq, runTool_eq]
    simp only [Tool.run, callFileApi, Option.map_some, fileApi_congr hg hs.nodes]

end hidden

/-- **The other tools of a session leak nothing exactly if its guard hides nothing.** -/
theorem noLeak_iff (env : ToolEnv) (g : RbacGuard) :
    (∀ tool, NoLeak env g tool) ↔ ∀ n, g.visible n = true := by
  simp only [noLeak_tool_iff]
  constructor
  · exact fun h => h .recallNotes
  · intro hg tool
    cases tool with
    | fileApi =>
      intro a b _ _ ha _
      rw [hg a] at ha
      cases ha
    | _ => exact hg

def substringFts : Fts where
  search := fun _ => .ok fun row => contains row.body "zebra"
  finds := ⟨fun row => contains row.body "zebra", rfl, fun _ =>
    ⟨show contains "zebra" "zebra" = true by decide, show contains "" "zebra" = false by decide⟩⟩

def plainEnv : ToolEnv where
  fts := substringFts
  errorText := fun _ => ""
  hash := id
  root := ⟨[], .nil⟩
  now := 0
  staleness := []
  otherTool := fun _ _ => .ok ""

/-- An anonymous session is told about the unresolved references of a private function. -/
theorem verify_leaks : ¬ NoLeak plainEnv (Query.guardFor ⟨false, false⟩ .anonymous) .verify := by
  intro h
  have := visible_of_verify h ⟨1, "local", "src/lib.rs", "audit", "Function", 5, 9, "fn audit()"⟩
  revert this
  decide +kernel

end WeaveGraph.Mcp

import WeaveGraph.Lib.Runs
import WeaveGraph.Store.Backend
import WeaveGraph.Parse.Resolve

/-!
# Reindexing

`full_reindex` builds a fresh database from every file of a tree; `incremental_reindex` updates a
copy of the active one for a list of changed files.  Both write into a staging file and swap it
in at the end, so a run that fails leaves the active database as it was.

A tree is the list of discovered files with their text.  The extractors and the Markdown parser
are parameters of the `Indexer`, together with the features the build was compiled with; files
are parsed in parallel but folded in order, which `parseFilesBounded` says directly.
-/

namespace WeaveGraph

open Lib

structure Wikilink where
  target : String
  «section» : Option String
deriving Repr, DecidableEq

structure ParsedMarkdown where
  tags : List String
  aliases : List String
  links : List Wikilink
  headings : List String
  codeRefs : List String
deriving Repr, DecidableEq

structure SourceFile where
  rel : String
  source : String
deriving Repr, DecidableEq

/-- Compiled features, the extractors (`none`: no language for the path, or a parse error) and
the Markdown parser. -/
structure Indexer where
  langExtended : Bool
  docs : Bool
  otel : Bool
  extract : String → String → Option Extraction
  parseMarkdown : String → ParsedMarkdown

structure IndexStats where
  files : Nat
  symbols : Nat
  edges : Nat
deriving Repr, DecidableEq

namespace Indexer

open SqliteStorage

def parseFile (ix : Indexer) (file : SourceFile) : Option ParsedFile :=
  (ix.extract file.rel file.source).map fun x => x.parsed file.rel

/-- Files that do not parse are skipped; the first failing `fold` ends the loop. -/
def parseFilesBounded {σ : Type} (ix : Indexer) (files : List SourceFile)
    (fold : σ → String → ParsedFile → Except StorageError σ) (s : σ) : Except StorageError σ :=
  files.foldlM (fun s file =>
    match ix.parseFile file with
    | some parsed => fold s file.rel parsed
    | none => .ok s) s

def localRepo : String := "local"

def fileNodes (rel : String) (parsed : ParsedFile) : List Node :=
  parsed.symbols.map fun symbol =>
    ⟨0, localRepo, rel, symbol.symbol, symbol.kind.asStr, symbol.lineStart, symbol.lineEnd,
      symbol.signature⟩

/-! ## Resolving edges -/

def addNode (acc : ProjectIndex × List (Nat × NodeId)) (node : Node) :
    ProjectIndex × List (Nat × NodeId) :=
  let (monikerId, index) := acc.1.addSymbol node.moniker (shortName node.symbol)
  (index, acc.2 ++ [(monikerId, node.id)])

def buildProjectIndexFromStorage (s : SqliteStorage) : ProjectIndex × List (Nat × NodeId) :=
  s.allNodes.foldl addNode (ProjectIndex.new, [])

/-- An edge between monikers as an edge between the nodes they are mapped to. -/
def storageEdge (monikerIdToNode : List (Nat × NodeId)) (edge : ResolvedEdgeIds) : Option Edge :=
  (lookupLast edge.sourceId monikerIdToNode).bind fun sourceId =>
    (lookupLast edge.targetId monikerIdToNode).map fun targetId =>
      ⟨0, sourceId, targetId, edge.kind, edge.extractor, some edge.resolutionKind.asStr⟩

def upsertFileEdges (ix : Indexer) (index : ProjectIndex × List (Nat × NodeId))
    (s : SqliteStorage) (rel : String) (parsed : ParsedFile) : SqliteStorage :=
  let (edges, unresolved) := index.1.resolveIds ix.langExtended parsed
  let s := { s with edges := upsertEdges s.edges (edges.filterMap (storageEdge index.2)) }
  (s.purgeFileUnresolvedRefs localRepo rel).upsertUnresolvedRefs localRepo rel unresolved

def upsertAllEdges (ix : Indexer) (index : ProjectIndex × List (Nat × NodeId))
    (files : List SourceFile) (s : SqliteStorage) : Except StorageError SqliteStorage :=
  ix.parseFilesBounded files (fun s rel parsed => .ok (ix.upsertFileEdges index s rel parsed)) s

/-! ## Documentation -/

def docNoteKind : String := "doc_note"

def docTopicKind : String := "doc_topic"

def docSectionKind : String := "doc_section"

def isMarkdown (path : String) : Bool :=
  match Text.extension path with
  | some "md" => true
  | some "markdown" => true
  | _ => false

def stem (rel : String) : String := (Text.fileStem rel).getD rel

def parseMarkdownFiles (ix : Indexer) (files : List SourceFile) : List (String × ParsedMarkdown) :=
  (files.filter fun f => isMarkdown f.rel).map fun f => (f.rel, ix.parseMarkdown f.source)

def docNode (path symbol kind : String) : Node := ⟨0, localRepo, path, symbol, kind, 0, 0, ""⟩

/-- `upsert_node`: a batch of one. -/
def upsertNode (s : SqliteStorage) (node : Node) : Except StorageError (NodeId × SqliteStorage) :=
  match upsertBatchNode s.nodes node with
  | .ok (id, nodes) => .ok (id, { s with nodes := nodes })
  | .error e => .error e

def upsertDocNodes (s : SqliteStorage) (parsed : List (String × ParsedMarkdown)) :
    Except StorageError SqliteStorage :=
  parsed.foldlM (fun s (rel, doc) => do
    let (_, s) ← upsertNode s (docNode rel (stem rel) docNoteKind)
    (doc.tags ++ doc.aliases).foldlM (fun s tag => do
      let (_, s) ← upsertNode s (docNode "" tag docTopicKind)
      pure s) s) s

/-- The `(id, path)` of every code symbol, under the names a reference may use. -/
def codeSymbolIds (s : SqliteStorage) (key : Node → String) : List (String × NodeId × String) :=
  (s.allNodes.filter fun n =>
    n.kind != docNoteKind && n.kind != docTopicKind && n.kind != docSectionKind).map
      fun n => (key n, n.id, n.path)

def normalizeCodeRef (raw : String) : String :=
  let trimmed := Text.trim raw
  let withoutCall := (Text.stripSuffix trimmed "()").getD trimmed
  String.intercalate "::" (Text.splitChar '.' withoutCall)

def dirOf (path : String) : String := (Text.parent path).getD ""

def disambiguate (candidates : List (NodeId × String)) (noteDir : String) : List NodeId :=
  match candidates.filter fun c => dirOf c.2 == noteDir with
  | [(id, _)] => [id]
  | _ => candidates.map Prod.fst

def resolveCodeRef (raw : String) (byFull byShort : List (String × NodeId × String))
    (noteDir : String) : Option (List NodeId) :=
  let normalized := normalizeCodeRef raw
  match bucket normalized byFull with
  | [] =>
    match bucket (shortName normalized) byShort with
    | [] => none
    | candidates => some (disambiguate candidates noteDir)
  | candidates => some (disambiguate candidates noteDir)

/-- A heading of the target note becomes a node of its own; anything else falls back to the
note. -/
def sectionTarget (s : SqliteStorage) (noteId : NodeId) (notePath «section» : String)
    (headings : List String) : Except StorageError (NodeId × SqliteStorage) :=
  if headings.any fun h => Text.eqIgnoreAsciiCase h «section» then
    upsertNode s (docNode notePath (stem notePath ++ "#" ++ «section») docSectionKind)
  else .ok (noteId, s)

def docEdge (sourceId targetId : NodeId) (kind : String) : Edge :=
  ⟨0, sourceId, targetId, kind, none, none⟩

def addDocEdge (s : SqliteStorage) (sourceId targetId : NodeId) (kind : String) : SqliteStorage :=
  { s with edges := upsertEdge s.edges (docEdge sourceId targetId kind) }

/-- What `upsert_doc_edges` reads from the store before it writes. -/
structure DocMaps where
  noteIdByPath : List (String × NodeId)
  noteIdsByTitle : List (String × NodeId × String)
  codeByFull : List (String × NodeId × String)
  codeByShort : List (String × NodeId × String)
  topicIds : List (String × NodeId)
  headingsByPath : List (String × List String)

def docMaps (s : SqliteStorage) (allParsed : List (String × ParsedMarkdown)) : DocMaps :=
  let notes := s.allNodes.filter fun n => n.kind == docNoteKind
  { noteIdByPath := notes.map fun n => (n.path, n.id)
    noteIdsByTitle := notes.map fun n => (n.symbol, n.id, n.path)
    codeByFull := codeSymbolIds s Node.symbol
    codeByShort := codeSymbolIds s fun n => shortName n.symbol
    topicIds := (s.allNodes.filter fun n => n.kind == docTopicKind).map fun n => (n.symbol, n.id)
    headingsByPath := allParsed.map fun p => (p.1, p.2.headings) }

/-- The node a link into the note `(targetId, targetPath)` points at. -/
def linkTarget (maps : DocMaps) (s : SqliteStorage) (link : Wikilink) (targetId : NodeId)
    (targetPath : String) : Except StorageError (NodeId × SqliteStorage) :=
  match link.«section» with
  | some anchor =>
    sectionTarget s targetId targetPath anchor ((lookupLast targetPath maps.headingsByPath).getD [])
  | none => .ok (targetId, s)

def upsertLinkEdges (maps : DocMaps) (sourceId : NodeId) (s : SqliteStorage) (link : Wikilink) :
    Except StorageError SqliteStorage :=
  (bucket link.target maps.noteIdsByTitle).foldlM (fun s (targetId, targetPath) =>
    if targetId = sourceId then .ok s
    else do
      let (target, s) ← linkTarget maps s link targetId targetPath
      pure (addDocEdge s sourceId target "LINKS_TO")) s

def addTagEdge (maps : DocMaps) (sourceId : NodeId) (s : SqliteStorage) (tag : String) :
    SqliteStorage :=
  match lookupLast tag maps.topicIds with
  | some topicId => addDocEdge s sourceId topicId "TAGGED"
  | none => s

def addCodeRefEdges (maps : DocMaps) (noteDir : String) (sourceId : NodeId) (s : SqliteStorage)
    (codeRef : String) : SqliteStorage :=
  ((resolveCodeRef codeRef maps.codeByFull maps.codeByShort noteDir).getD []).foldl
    (fun s targetId => addDocEdge s sourceId targetId "EXPLAINS_RATIONALE") s

def upsertNoteEdges (maps : DocMaps) (s : SqliteStorage) (note : String × ParsedMarkdown) :
    Except StorageError SqliteStorage :=
  match lookupLast note.1 maps.noteIdByPath with
  | none => .ok s
  | some sourceId => do
    let s := (note.2.tags ++ note.2.aliases).foldl (addTagEdge maps sourceId) s
    let s ← note.2.links.foldlM (upsertLinkEdges maps sourceId) s
    pure (note.2.codeRefs.foldl (addCodeRefEdges maps (dirOf note.1) sourceId) s)

def upsertDocEdges (s : SqliteStorage) (allParsed : List (String × ParsedMarkdown)) :
    Except StorageError SqliteStorage :=
  allParsed.foldlM (upsertNoteEdges (docMaps s allParsed)) s

def gcOrphanedDocTopics (s : SqliteStorage) : SqliteStorage :=
  s.purgeOrphanedNodesByKind docTopicKind

/-- The documentation pass: nodes of `changed` notes, edges of all of them. -/
def indexDocs (ix : Indexer) (s : SqliteStorage) (files changed : List SourceFile) :
    Except StorageError SqliteStorage :=
  if ix.docs then do
    let s ← upsertDocNodes s (ix.parseMarkdownFiles changed)
    let s ← upsertDocEdges s (ix.parseMarkdownFiles files)
    pure (gcOrphanedDocTopics s)
  else .ok s

/-! ## The two reindex paths -/

/-- Copies the imported trace spans of the database that is being replaced. -/
def carryOverSpans (ix : Indexer) (active : SqliteStorage) (s : SqliteStorage) : SqliteStorage :=
  if ix.otel then
    { s with traceSpans := active.allTraceSpans.foldl upsertTraceSpan s.traceSpans }
  else s

def insertAllNodes (ix : Indexer) (files : List SourceFile) (s : SqliteStorage) :
    Except StorageError (SqliteStorage × Nat) :=
  ix.parseFilesBounded files (fun (s, total) rel parsed =>
    let (ids, nodes) := insertFreshNodes s.nodes (fileNodes rel parsed)
    .ok ({ s with nodes := nodes }, total + ids.length)) (s, 0)

/-- The result is the database that replaces `active`. -/
def fullReindex (ix : Indexer) (active : SqliteStorage) (files : List SourceFile) :
    Except StorageError (IndexStats × SqliteStorage) := do
  let (s, totalSymbols) ← ix.insertAllNodes files openFresh
  let s ← ix.upsertAllEdges (buildProjectIndexFromStorage s) files s
  let totalEdges := s.edges.rows.length
  let s ← ix.indexDocs s files files
  let s := ix.carryOverSpans active s
  pure (⟨files.length, totalSymbols, totalEdges⟩, s)

/-- Files whose edges an incremental run resolves again: the changed ones, those with an edge into
one of them, and those with an unresolved reference to a name a changed file declares, before
or after the change. -/
def affectedFiles (ix : Indexer) (s : SqliteStorage) (files : List SourceFile)
    (changed : List String) : List String :=
  let changedFiles := files.filter fun f => changed.contains f.rel
  let shortNames := s.shortSymbolNamesForPaths localRepo changed ++
    (changedFiles.filterMap ix.parseFile).flatMap fun parsed =>
      parsed.symbols.map fun symbol => shortName symbol.symbol
  let affected := changed ++ s.sourcePathsForTargetPaths localRepo changed ++
    shortNames.flatMap (s.getFilesWithUnresolvedRefs localRepo)
  Text.dedup (affected.insertionSort (· ≤ ·))

def purgeChanged (s : SqliteStorage) (changed : List String) : SqliteStorage :=
  changed.foldl (fun s rel =>
    (s.purgeFileEdges localRepo rel).purgeFileUnresolvedRefs localRepo rel) s

def upsertAllNodes (ix : Indexer) (files : List SourceFile) (s : SqliteStorage) :
    Except StorageError (SqliteStorage × List (String × NodeId)) :=
  ix.parseFilesBounded files (fun (s, ids) rel parsed => do
    let (nodeIds, nodes) ← upsertNodes s.nodes (fileNodes rel parsed)
    pure ({ s with nodes := nodes }, ids ++ nodeIds.map fun id => (rel, id))) (s, [])

def purgeStaleNodes (s : SqliteStorage) (changed : List String)
    (changedNodes : List (String × NodeId)) : SqliteStorage :=
  changed.foldl (fun s rel =>
    s.purgeFileNodesExcept localRepo rel (bucket rel changedNodes)) s

def incrementalReindex (ix : Indexer) (active : SqliteStorage) (files : List SourceFile)
    (changed : List String) : Except StorageError (IndexStats × SqliteStorage) :=
  if changed.isEmpty then
    .ok (⟨files.length, active.allNodes.length, active.edges.rows.length⟩, active)
  else do
    let affected := ix.affectedFiles active files changed
    let changedFiles := files.filter fun f => changed.contains f.rel
    let s := purgeChanged active changed
    let (s, changedNodes) ← ix.upsertAllNodes changedFiles s
    let s := purgeStaleNodes s changed changedNodes
    let s ← ix.upsertAllEdges (buildProjectIndexFromStorage s)
      (files.filter fun f => affected.contains f.rel) s
    let totalEdges := s.edges.rows.length
    let s ← ix.indexDocs s files changedFiles
    pure (⟨files.length, s.allNodes.length, totalEdges⟩, s)

inductive Command where
  | full (files : List SourceFile)
  | incremental (files : List SourceFile) (changed : List String)
deriving Repr, DecidableEq

/-- The active database after a command; a command that fails is not swapped in. -/
def reindex (ix : Indexer) (active : SqliteStorage) : Command → SqliteStorage
  | .full files =>
    match ix.fullReindex active files with
    | .ok (_, s) => s
    | .error _ => active
  | .incremental files changed =>
    match ix.incrementalReindex active files changed with
    | .ok (_, s) => s
    | .error _ => active

end Indexer

end WeaveGraph

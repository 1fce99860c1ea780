import WeaveGraph.Core.Csr
import WeaveGraph.Cli.Edit

/-!
# `weave index`, its shortcuts and the freshness check

`weave index` records the commit it indexed, and keeps a snapshot of the database for each commit
it indexed on a clean tree.  A later run may then stop at once, restore a snapshot, or reindex only
what changed since the recorded commit.  The watcher reindexes the files it saw change and records
the commit too; `check_freshness` looks at nothing but that record and the state of the tree.

A workspace is a working tree, a git repository and the `.weave` directory, which git ignores.  Git
reports the head, the differences to a commit and a clean tree exactly.  Trees list the files that
no ignore rule hides.
-/

namespace WeaveGraph

open Lib SqliteStorage Indexer

/-! ## Working tree and repository -/

/-- Files in the order a walk lists them. -/
structure Tree where
  files : List SourceFile
  distinct : (files.map SourceFile.rel).Nodup
deriving DecidableEq

/-- Commits are trees under their ids; there is no head before the first commit. -/
structure Repo where
  commits : String → Option Tree
  head : Option String

/-! ## Discovery -/

def shouldSkipDir (entryName : String) : Bool :=
  [".git", "target", "node_modules", ".weave", ".claude", "dist", "build", "graft"].contains
    entryName

def dependencyMarkers : List String := ["pyvenv.cfg", "conda-meta"]

/-- A marker is a file of the directory, or a directory with a file in it. -/
def hasDependencyMarker (tree : Tree) (dir : List String) : Bool :=
  dependencyMarkers.any fun marker =>
    tree.files.any fun f => (dir ++ [marker]).isPrefixOf (Text.components f.rel)

/-- The walk enters every directory on the way to the file. -/
def isReached (tree : Tree) (rel : String) : Bool :=
  (Text.components rel).dropLast.inits.tail.all fun dir =>
    !(dir.getLast?.any shouldSkipDir || hasDependencyMarker tree dir)

namespace Indexer

def isDocsIndexable (ix : Indexer) (path : String) : Bool := ix.docs && isMarkdown path

def isIndexable (ix : Indexer) (path : String) : Bool :=
  if (Text.fileName path).any fun name => Text.startsWith name "." then false
  else (Language.fromPath ix.langExtended path).isSome || ix.isDocsIndexable path

def discoverFiles (ix : Indexer) (tree : Tree) : List SourceFile :=
  tree.files.filter fun f => isReached tree f.rel && ix.isIndexable f.rel

end Indexer

/-! ## The `.weave` directory -/

def currentExtractorVersion : Nat := 1

structure WeaveDir where
  activeDb : Option SqliteStorage
  lastIndexedSha : Option String
  extractorVersion : Option Nat
  snapshots : String → Option SqliteStorage

namespace WeaveDir

def empty : WeaveDir := ⟨none, none, none, fun _ => none⟩

def extractorVersionMatches (d : WeaveDir) : Bool :=
  d.extractorVersion = some currentExtractorVersion

def writeLastIndexedSha (d : WeaveDir) (sha : String) : WeaveDir :=
  { d with lastIndexedSha := some sha }

def clearSnapshotCache (d : WeaveDir) : WeaveDir := { d with snapshots := fun _ => none }

/-- `none` when there is no snapshot of the commit. -/
def restoreSnapshot (d : WeaveDir) (sha : String) : Option WeaveDir :=
  (d.snapshots sha).map fun snapshot => { d with activeDb := some snapshot }

def saveSnapshot (d : WeaveDir) (sha : String) : WeaveDir :=
  { d with snapshots := Function.update d.snapshots sha d.activeDb }

end WeaveDir

structure Workspace where
  repo : Repo
  tree : Tree
  weave : WeaveDir

/-! ## Indexing -/

/-- What `weave index` prints when it returns without an error. -/
inductive IndexReport where
  | alreadyUpToDate (sha : String)
  | restored (sha : String)
  | noFiles
  | indexed (stats : IndexStats)
deriving Repr, DecidableEq

structure ReindexConfig where
  bailoutFloor : Nat := 100
  /-- The share of the indexed files, one in `bailoutShare`. -/
  bailoutShare : Nat := 10

def shouldBailOut (changed totalIndexed : Nat) (cfg : ReindexConfig) : Bool :=
  changed > max cfg.bailoutFloor (totalIndexed / cfg.bailoutShare)

def indexedFileCount (s : SqliteStorage) : Nat := (s.allNodes.map Node.path).dedup.length

namespace Workspace

variable (ix : Indexer) (w : Workspace)

def currentSha : Option String := w.repo.head

def isWorkingTreeClean : Bool := w.currentSha.bind w.repo.commits = some w.tree

/-- Files added, edited or removed since the commit, tracked or not; `none` for an unknown
commit. -/
def changedSince (sha : String) : Option (List String) :=
  (w.repo.commits sha).map fun committed =>
    Text.sortedSet (((committed.files ++ w.tree.files).map SourceFile.rel).filter fun rel =>
      textAt committed.files rel != textAt w.tree.files rel)

def tryFastPath : Option (IndexReport × WeaveDir) :=
  match w.currentSha with
  | none => none
  | some cur =>
    if w.weave.lastIndexedSha = some cur ∧ w.weave.activeDb.isSome then
      some (.alreadyUpToDate cur, w.weave)
    else
      (w.weave.restoreSnapshot cur).map fun weave => (.restored cur, weave.writeLastIndexedSha cur)

/-- The database and the changed files of an incremental run; `none` when the run has to be a full
one. -/
def incrementalChange (incremental : Bool) : Option (SqliteStorage × List String) :=
  if incremental && w.weave.extractorVersionMatches then
    match w.weave.activeDb, w.weave.lastIndexedSha.bind w.changedSince with
    | some active, some changed =>
      let changed := changed.filter ix.isIndexable
      if shouldBailOut changed.length (indexedFileCount active) {} then none
      else some (active, changed)
    | _, _ => none
  else none

def reindex (files : List SourceFile) (incremental : Bool) :
    Except StorageError (IndexStats × WeaveDir) := do
  let (stats, db) ←
    match w.incrementalChange ix incremental with
    | some (active, changed) => ix.incrementalReindex active files changed
    | none => ix.fullReindex (w.weave.activeDb.getD openFresh) files
  pure (stats, { w.weave with
    activeDb := some db, extractorVersion := some currentExtractorVersion })

/-- After a reindex: the commit is recorded, and the database kept for it if the tree is clean. -/
def recordCommit (weave : WeaveDir) : WeaveDir :=
  match w.currentSha with
  | none => weave
  | some cur =>
    let weave := weave.writeLastIndexedSha cur
    if w.isWorkingTreeClean then weave.saveSnapshot cur else weave

def cmdIndex (incremental : Bool) : Except StorageError IndexReport × Workspace :=
  let extractorOk := w.weave.extractorVersionMatches
  let w := { w with weave := if extractorOk then w.weave else w.weave.clearSnapshotCache }
  match if extractorOk then w.tryFastPath else none with
  | some (report, weave) => (.ok report, { w with weave := weave })
  | none =>
    let files := ix.discoverFiles w.tree
    if files.isEmpty then (.ok .noFiles, w)
    else
      match w.reindex ix files incremental with
      | .error e => (.error e, w)
      | .ok (stats, weave) => (.ok (.indexed stats), { w with weave := w.recordCommit weave })

/-! ## Watching -/

def blastRadius (s : SqliteStorage) (csr : CsrGraph) (changedFiles : List String) : Nat :=
  let seeds := (s.allNodes.filter fun n => changedFiles.contains n.path).map Node.id
  (seeds.flatMap fun id => csr.reachableWithin id (2 ^ 32 - 1)).dedup.length

/-- Opening the database creates it if it is not there. -/
def openActive : SqliteStorage := w.weave.activeDb.getD openFresh

/-- So much hangs on the files that they are left to `weave index`. -/
def isDeferred (ceiling : Nat) (changed : List String) : Bool :=
  blastRadius w.openActive (CsrGraph.load w.openActive) changed ≥ ceiling

/-- One attempt of the watcher at the files it saw change; `false` when it is deferred. -/
def watchTick (ceiling : Nat) (changed : List String) : Except StorageError Bool × Workspace :=
  let changed := Text.sortedSet changed
  let active := w.openActive
  let w := { w with weave := { w.weave with activeDb := some active } }
  if w.isDeferred ceiling changed then (.ok false, w)
  else
    match ix.incrementalReindex active (ix.discoverFiles w.tree) changed with
    | .error e => (.error e, w)
    | .ok (_, db) =>
      let weave := { w.weave with activeDb := some db }
      let weave := match w.currentSha with
        | some cur => weave.writeLastIndexedSha cur
        | none => weave
      (.ok true, { w with weave := weave })

/-! ## Freshness -/

inductive Freshness where
  | fresh
  | behind (indexedSha : Option String) (headSha : String)
  | dirty
  | unknown
deriving Repr, DecidableEq

def checkFreshness : Freshness :=
  match w.currentSha with
  | none => .unknown
  | some headSha =>
    if w.weave.lastIndexedSha ≠ some headSha then .behind w.weave.lastIndexedSha headSha
    else if w.isWorkingTreeClean then .fresh
    else .dirty

/-! ## Histories -/

/-- One step of a history.  A commit stores what was staged, which need not be the working tree; a
checkout that keeps local edits is a checkout and an edit. -/
inductive Event where
  | edit (tree : Tree)
  | commit (sha : String) (staged : Tree)
  | checkout (sha : String)
  | index (incremental : Bool)
  | watch (ceiling : Nat) (changed : List String)

/-- Commit ids are not reused, and only known commits are checked out. -/
def step (w : Workspace) : Event → Option Workspace
  | .edit tree => some { w with tree := tree }
  | .commit sha staged =>
    if (w.repo.commits sha).isSome then none
    else some { w with repo := ⟨Function.update w.repo.commits sha (some staged), some sha⟩ }
  | .checkout sha =>
    (w.repo.commits sha).map fun tree =>
      { w with repo := { w.repo with head := some sha }, tree := tree }
  | .index incremental => some (w.cmdIndex ix incremental).2
  | .watch ceiling changed => some (w.watchTick ix ceiling changed).2

end Workspace

end WeaveGraph

import WeaveGraph.Store.Notes
import WeaveGraph.Cli.Cache
import WeaveGraph.Cli.Incremental

/-!
# Notes across a reindex

A note is pinned to the first node of a symbol.  A reindex attaches every note anew by its moniker:
a full run copies the notes into the database it builds, an incremental run updates them in the one
it works on.  Both take the last node of the moniker, and hash the lines of the last symbol the tree
declares under it.

Over a store that holds the tree (`HoldsTree`, which `holdsTree_fullReindex` gives for the outcome
of a full run) a reindex should change no note.  It does not exactly when every note that has not
expired is `Steady`: pinned where the last symbol of its moniker is declared.
-/

namespace WeaveGraph

open List Lib SqliteStorage Indexer Lib.Text

structure NotedStorage where
  storage : SqliteStorage
  notes : NoteTable

/-- Where a node is declared. -/
def Node.place (n : Node) : String × String × Nat := (n.path, n.symbol, n.lineStart)

def monikerTarget (index : ProjectIndex × List (Nat × NodeId)) (moniker : String) : Option NodeId :=
  (index.1.interner.getId moniker).bind fun id => lookupLast id index.2

namespace NotedStorage

/-! ## Pinning -/

section pinning

variable (hash : String → String) (root : Tree)

/-- The lowest id wins. -/
def resolveSymbol (s : SqliteStorage) (symbol : String) : Option Node :=
  s.allNodes.find? fun n => n.symbol == symbol

/-- What both ways to pin a note do. -/
def pin (db : NotedStorage) (symbol text kind author : String) (tier : NoteTier) (now : Int) :
    Except String (Nat × NotedStorage) :=
  match resolveSymbol db.storage symbol with
  | none => .error ("symbol not found: " ++ symbol)
  | some node =>
    let contentHash := (textAt root.files node.path).map fun source =>
      hashSpan hash source node.lineStart node.lineEnd
    let note : Note := ⟨0, some node.id, buildMoniker node.path node.symbol, kind, tier, author,
      text, contentHash, false,
      if tier = .ephemeral then some (now + ephemeralTtlSecs) else none, now⟩
    .ok (db.notes.nextId, { db with notes := pinNote db.notes note })

def cmdNotePin (db : NotedStorage) (symbol text : String) (keep : Bool) (kind : String)
    (now : Int) : Except String (Nat × NotedStorage) :=
  db.pin hash root symbol text kind "human" (if keep then .crystallized else .ephemeral) now

def weavePinNote (db : NotedStorage) (symbol text : String) (tier kind : Option String)
    (now : Int) : Except String (Nat × NotedStorage) :=
  db.pin hash root symbol text (kind.getD "note") "agent"
    (if tier = some "crystallized" then .crystallized else .ephemeral) now

inductive PinCall where
  | cli (symbol text : String) (keep : Bool) (kind : String) (now : Int)
  | mcp (symbol text : String) (tier kind : Option String) (now : Int)
deriving Repr, DecidableEq

/-- A call that fails pins nothing. -/
def runPin (db : NotedStorage) (call : PinCall) : NotedStorage :=
  let result := match call with
    | .cli symbol text keep kind now => db.cmdNotePin hash root symbol text keep kind now
    | .mcp symbol text tier kind now => db.weavePinNote hash root symbol text tier kind now
  match result with
  | .ok (_, db') => db'
  | .error _ => db

def pinned (s : SqliteStorage) (calls : List PinCall) : NotedStorage :=
  calls.foldl (runPin hash root) ⟨s, Table.empty⟩

end pinning

/-! ## The reindex hooks -/

/-- The lines of every symbol; the last one under a moniker counts. -/
def monikerSpanMap (ix : Indexer) (files : List SourceFile) : List (String × Nat × Nat) :=
  (ix.parsedFiles files).flatMap fun p => p.2.symbols.map fun symbol =>
    (buildMoniker p.1 symbol.symbol, symbol.lineStart, symbol.lineEnd)

section hooks

variable (ix : Indexer) (hash : String → String) (root : Tree) (files : List SourceFile)

def fileSource (file : String) : Option String := textAt root.files file

/-- Staleness is only looked at again for a crystallized note that is attached. -/
def staleAfter (note : Note) (target : Option NodeId) : Bool :=
  match note.tier, note.contentHash, target with
  | .crystallized, some oldHash, some _ =>
    (match lookupLast note.moniker (monikerSpanMap ix files),
        (splitOnce '#' note.moniker).map Prod.fst with
    | some (lineStart, lineEnd), some file =>
      (fileSource root file).map fun source => hashSpan hash source lineStart lineEnd != oldHash
    | _, _ => none).getD note.stale
  | _, _, _ => note.stale

variable (index : ProjectIndex × List (Nat × NodeId)) (now : Int)

def reattachAndPrune (t : NoteTable) : NoteTable :=
  deleteExpiredNotes ((allNotes t).foldl (fun t note =>
    let target := monikerTarget index note.moniker
    reattachNote t note.id target (staleAfter ix hash root files note target)) t) now

/-- Into the new, empty table. -/
def carryOverAndPrune (old : NoteTable) : NoteTable :=
  deleteExpiredNotes ((allNotes old).foldl (fun t note =>
    let target := monikerTarget index note.moniker
    pinNote t { note with
      id := 0, targetNodeId := target, stale := staleAfter ix hash root files note target })
    Table.empty) now

end hooks

/-! ## The two reindex paths -/

/-- The node pass of an incremental run, up to where the index of the nodes is built. -/
def stageNodes (ix : Indexer) (active : SqliteStorage) (files : List SourceFile)
    (changed : List String) : Except StorageError SqliteStorage := do
  let (s, changedNodes) ← ix.upsertAllNodes (files.filter fun f => changed.contains f.rel)
    (purgeChanged active changed)
  pure (purgeStaleNodes s changed changedNodes)

section reindex

variable (ix : Indexer) (hash : String → String) (root : Tree) (files : List SourceFile) (now : Int)

/-- The hook uses the index of the nodes that `full_reindex` resolved the edges with. -/
def fullReindex (db : NotedStorage) : Except StorageError (IndexStats × NotedStorage) := do
  let (nodes, _) ← ix.insertAllNodes files openFresh
  let (stats, s) ← ix.fullReindex db.storage files
  pure (stats, ⟨s, carryOverAndPrune ix hash root files (buildProjectIndexFromStorage nodes) now
    db.notes⟩)

def incrementalReindex (db : NotedStorage) (changed : List String) :
    Except StorageError (IndexStats × NotedStorage) :=
  if changed.isEmpty then do
    let (stats, s) ← ix.incrementalReindex db.storage files changed
    pure (stats, ⟨s, db.notes⟩)
  else do
    let nodes ← stageNodes ix db.storage files changed
    let (stats, s) ← ix.incrementalReindex db.storage files changed
    pure (stats, ⟨s, reattachAndPrune ix hash root files (buildProjectIndexFromStorage nodes) now
      db.notes⟩)

def swapped (db : NotedStorage) : Except StorageError (IndexStats × NotedStorage) → NotedStorage
  | .ok (_, db') => db'
  | .error _ => db

end reindex

/-! ## What a reader sees of the notes -/

/-- A note and where it is attached, ids aside. -/
def view (s : SqliteStorage) (note : Note) : Note × Option (String × String × Nat) :=
  ({ note with id := 0, targetNodeId := none }, (note.targetNodeId.bind s.getNode).map Node.place)

def liveViews (db : NotedStorage) (now : Int) : List (Note × Option (String × String × Nat)) :=
  (db.notes.rows.filter fun note => !note.isExpired now).map (view db.storage)

/-- The notes that have not expired are the same, with the same places. -/
def Survive (now : Int) (db db' : NotedStorage) : Prop :=
  (db'.liveViews now).Perm (db.liveViews now)
deriving Decidable

/-- Whatever route a reindex of the tree takes, and whatever files it is told have changed, the
notes survive. -/
def SurviveReindex (ix : Indexer) (hash : String → String) (root : Tree) (now : Int)
    (db : NotedStorage) : Prop :=
  Survive now db (db.swapped (db.fullReindex ix hash root (ix.discoverFiles root) now)) ∧
    ∀ changed, Survive now db
      (db.swapped (db.incrementalReindex ix hash root (ix.discoverFiles root) now changed))

/-! ## What the hooks write -/

section hooks

variable (ix : Indexer) (hash : String → String) (root : Tree) (files : List SourceFile)

/-- A note as the hooks leave it. -/
def reattached (index : ProjectIndex × List (Nat × NodeId)) (note : Note) : Note :=
  let target := monikerTarget index note.moniker
  { note with targetNodeId := target, stale := staleAfter ix hash root files note target }

variable {ix hash root files} {index : ProjectIndex × List (Nat × NodeId)}

theorem monikerTarget_eq {nodes : List Node} (h : Indexed index nodes) (m : String) :
    monikerTarget index m = (lastOf nodes m).map Node.id :=
  (ProjectIndex.lookup_target h.ids m).trans (lookupLast_nodeIds nodes m)

theorem allNotes_perm (t : NoteTable) : (allNotes t).Perm t.rows := perm_insertionSort _ _

theorem foldl_reattachNote {t : NoteTable} : ∀ {l : List Note}, (∀ note ∈ l, note ∈ t.rows) →
    (l.foldl (fun t note => reattachNote t note.id (monikerTarget index note.moniker)
      (staleAfter ix hash root files note (monikerTarget index note.moniker))) t).rows =
      t.rows.map fun r =>
        if r ∈ l then reattached ix hash root files index r else r := by
  intro l
  induction l using List.reverseRecOn with
  | nil =>
    simp
  | append_singleton l note ih =>
    intro hl
    have hnote : note ∈ t.rows := hl note (by simp)
    rw [foldl_append, foldl_cons, foldl_nil]
    show ((l.foldl _ t).rows.map fun r => _) = _
    rw [ih fun n hn => hl n (mem_append_left _ hn), map_map]
    refine map_congr_left fun r hr => ?_
    have hid : (if r ∈ l then reattached ix hash root files index r else r).id = r.id := by
      split <;> rfl
    simp only [Function.comp_apply, hid, mem_append, mem_singleton]
    by_cases hr' : r = note
    · subst hr'
      rw [if_pos rfl, if_pos (Or.inr rfl)]
      split <;> rfl
    · have hne : r.id ≠ note.id := fun he => hr' (t.pk_inj hr hnote he)
      rw [if_neg hne]
      simp only [hr', or_false]

theorem reattachAndPrune_rows (t : NoteTable) (now : Int) :
    (reattachAndPrune ix hash root files index now t).rows =
      (t.rows.map (reattached ix hash root files index)).filter fun note => !note.isExpired now := by
  have hmem : ∀ note ∈ allNotes t, note ∈ t.rows := fun note => (allNotes_perm t).mem_iff.mp
  show (List.filter _ (List.foldl _ t (allNotes t)).rows) = _
  rw [foldl_reattachNote hmem]
  congr 1
  refine map_congr_left fun r hr => ?_
  rw [if_pos ((allNotes_perm t).mem_iff.mpr hr)]

theorem foldl_pinNote (f : Note → Note) (l : List Note) : ∀ t : NoteTable,
    ((l.foldl (fun t note => pinNote t (f note)) t).rows.map fun r => { r with id := 0 }) =
      (t.rows.map fun r => { r with id := 0 }) ++ l.map fun note => { f note with id := 0 } := by
  induction l with
  | nil => exact fun t => (append_nil _).symm
  | cons note l ih =>
    intro t
    rw [foldl_cons, ih, map_cons]
    show ((t.rows ++ [_]).map _) ++ _ = _
    rw [map_append, append_assoc]
    rfl

end hooks

section views

variable {ix : Indexer} {hash : String → String} {root : Tree} {files : List SourceFile}
  {index : ProjectIndex × List (Nat × NodeId)} {s : SqliteStorage}

theorem isExpired_reattached (now : Int) (note : Note) :
    (reattached ix hash root files index note).isExpired now = note.isExpired now := rfl

variable (ix hash root files index s) in
/-- The notes after either hook, as they were before, attached anew. -/
def viewsAnew (t : NoteTable) (now : Int) : List (Note × Option (String × String × Nat)) :=
  (t.rows.filter fun note => !note.isExpired now).map fun note =>
    view s (reattached ix hash root files index note)

theorem liveViews_reattach (t : NoteTable) (now : Int) :
    liveViews ⟨s, reattachAndPrune ix hash root files index now t⟩ now =
      viewsAnew ix hash root files index s t now := by
  unfold liveViews viewsAnew
  rw [reattachAndPrune_rows, filter_filter, filter_map, map_map]
  congr 1
  refine filter_congr fun note _ => ?_
  simp [isExpired_reattached]

theorem liveViews_eq (t : NoteTable) (now : Int) : liveViews ⟨s, t⟩ now =
    ((t.rows.map fun r => { r with id := 0 }).filter fun note => !note.isExpired now).map
      (view s) := by
  rw [filter_map, map_map]
  rfl

theorem liveViews_carryOver (t : NoteTable) (now : Int) :
    (liveViews ⟨s, carryOverAndPrune ix hash root files index now t⟩ now).Perm
      (viewsAnew ix hash root files index s t now) := by
  have hprune : liveViews ⟨s, carryOverAndPrune ix hash root files index now t⟩ now =
      liveViews ⟨s, (allNotes t).foldl (fun t note => pinNote t
        { reattached ix hash root files index note with id := 0 }) Table.empty⟩ now := by
    show List.map _ (List.filter _ (List.filter _ _)) = _
    rw [filter_filter]
    congr 1
    exact filter_congr fun note _ => Bool.and_self _
  rw [hprune, liveViews_eq, foldl_pinNote]
  show List.Perm (List.map _ (List.filter _ (List.map _ _))) _
  rw [filter_map, map_map]
  exact ((allNotes_perm t).filter _).map _

end views

/-! ## The rows of code -/

/-- The rows that are not documentation. -/
def codeRows (rows : List Node) : List Node := rows.filter fun n => !isDocKind n.kind

theorem mem_codeRows {rows : List Node} {n : Node} :
    n ∈ codeRows rows ↔ n ∈ rows ∧ isDocKind n.kind = false := by
  simp [codeRows]

theorem codeRows_map {rows : List Node} {f : Node → Node}
    (hsame : ∀ r ∈ rows, f r = r ∨ isDocKind r.kind = true ∧ isDocKind (f r).kind = true) :
    codeRows (rows.map f) = codeRows rows := by
  induction rows with
  | nil => rfl
  | cons r rows ih =>
    have ih := ih fun r hr => hsame r (mem_cons_of_mem _ hr)
    unfold codeRows at ih ⊢
    rw [map_cons]
    rcases hsame r mem_cons_self with he | ⟨hk, hk'⟩
    · rw [he, filter_cons, filter_cons, ih]
    · rw [filter_cons_of_neg (by simp [hk']), filter_cons_of_neg (by simp [hk]), ih]

variable {s s' : SqliteStorage} {ix : Indexer}

theorem upsertNode_codeRows {n : Node} {id : NodeId} (hkind : isDocKind n.kind = true)
    (h : upsertNode s n = .ok (id, s')) : codeRows s'.nodes.rows = codeRows s.nodes.rows := by
  obtain ⟨t, hu, rfl⟩ := upsertNode_ok h
  rcases (upsertBatchNode_ok hu).2 with ⟨row, hrow, -, hs, rfl, hrows⟩ | ⟨-, -, hrows⟩
  · refine (congrArg codeRows hrows).trans (codeRows_map fun r hr => ?_)
    by_cases hid : r.id = row.id
    · rw [if_pos hid, s.nodes.pk_inj hr hrow hid, (sameSymbol_iff.mp hs).2.2.2]
      exact Or.inr ⟨hkind, hkind⟩
    · exact Or.inl (if_neg hid)
  · unfold codeRows
    rw [hrows, filter_append, filter_cons_of_neg (by simp [hkind])]
    exact append_nil _

theorem gcOrphanedDocTopics_codeRows (s : SqliteStorage) :
    codeRows (gcOrphanedDocTopics s).nodes.rows = codeRows s.nodes.rows := by
  show List.filter _ (List.filter _ s.nodes.rows) = List.filter _ s.nodes.rows
  rw [filter_filter]
  refine filter_congr fun r _ => ?_
  by_cases hk : r.kind = docTopicKind
  · have : isDocKind r.kind = true := by rw [hk]; decide
    simp [this]
  · simp [hk]

/-- **The documentation pass leaves the rows of code alone.** -/
theorem indexDocs_codeRows {files changed : List SourceFile}
    (h : ix.indexDocs s files changed = .ok s') :
    codeRows s'.nodes.rows = codeRows s.nodes.rows := by
  have hP : DocInvariant (fun _ kind => isDocKind kind = true)
      fun x => codeRows x.nodes.rows = codeRows s.nodes.rows :=
    ⟨fun hkind hx hok => (upsertNode_codeRows hkind hok).trans hx, fun _ _ _ => by decide,
      fun _ _ _ _ hx => hx⟩
  exact indexDocs_invariant hP (by decide) (fun _ _ _ => by decide)
    (fun hx => (gcOrphanedDocTopics_codeRows _).trans hx) rfl h

/-! ## A store of the tree -/

/-- The code nodes of the store are those of the files, which a full run can index; no
documentation node has the moniker of a code node. -/
structure HoldsTree (ix : Indexer) (files : List SourceFile) (s : SqliteStorage) : Prop where
  full : ∃ active stats s₁, ix.fullReindex active files = .ok (stats, s₁)
  rows : SameRows (codeRows s.nodes.rows) (ix.codeNodes files).rows
  apart : ∀ d ∈ s.nodes.rows, isDocKind d.kind = true →
    ∀ n ∈ (ix.codeNodes files).rows, d.moniker ≠ n.moniker

section routes

variable {ix : Indexer} {files : List SourceFile} {s s' : SqliteStorage}

variable {n : Node} {nodes : SqliteStorage} {stats : IndexStats} {changed : List String}
  {file : String × ParsedFile}

theorem codeRows_codeNodes : codeRows (ix.codeNodes files).rows = (ix.codeNodes files).rows :=
  filter_eq_self.mpr fun n hn => by simp [codeNodes_isCode hn]

theorem upsertAllEdges_nodes
    (h : ix.upsertAllEdges (buildProjectIndexFromStorage nodes) files s = .ok s') :
    s'.nodes = s.nodes := by
  rw [upsertAllEdges_eq] at h
  cases h
  exact (foldl_upsertFileEdges ix (indexed_build nodes) _ s).1

theorem fullReindex_codeRows {active : SqliteStorage}
    (h : ix.fullReindex active files = .ok (stats, s)) :
    codeRows s.nodes.rows = (ix.codeNodes files).rows := by
  obtain ⟨s₃, h₃, rfl⟩ := fullReindex_docs h
  rw [carryOverSpans_nodes, indexDocs_codeRows h₃, codeGraph_nodes]
  exact codeRows_codeNodes

theorem incrementalReindex_stage (hne : changed ≠ [])
    (h : ix.incrementalReindex s files changed = .ok (stats, s')) :
    ∃ nodes, stageNodes ix s files changed = .ok nodes ∧
      codeRows s'.nodes.rows = codeRows nodes.nodes.rows := by
  unfold Indexer.incrementalReindex at h
  rw [if_neg (by simpa using hne)] at h
  obtain ⟨⟨s₁, changedNodes⟩, h₁, h⟩ := bind_eq_ok.mp h
  obtain ⟨s₂, h₂, h⟩ := bind_eq_ok.mp h
  obtain ⟨s₃, h₃, h⟩ := bind_eq_ok.mp h
  cases h
  refine ⟨purgeStaleNodes s₁ changed changedNodes, bind_eq_ok.mpr ⟨_, h₁, rfl⟩, ?_⟩
  rw [indexDocs_codeRows h₃, upsertAllEdges_nodes h₂]

/-! ## A file that did not change is written over itself -/

section

variable (hs : HoldsTree ix files s)

include hs

theorem HoldsTree.mem_iff {d : NodeData} :
    d ∈ (codeRows s.nodes.rows).map Node.data ↔ d ∈ (ix.codeNodes files).rows.map Node.data :=
  SameGroups.mem_iff hs.rows

theorem HoldsTree.exists_codeRow (hf : file ∈ ix.parsedFiles files)
    (hn : n ∈ fileNodes file.1 file.2) :
    ∃ r ∈ codeRows s.nodes.rows, r.naturalKey = n.naturalKey := by
  have hdecl : n ∈ ix.declared files := mem_flatMap.mpr ⟨file, hf, hn⟩
  have hkey : n.naturalKey ∈ (ix.codeNodes files).rows.map Node.naturalKey := by
    unfold codeNodes
    rw [insertFresh_keys, mem_eraseDups]
    exact mem_map_of_mem hdecl
  obtain ⟨c, hc, hck⟩ := mem_map.mp hkey
  obtain ⟨r, hr, hrd⟩ := mem_map.mp (hs.mem_iff.mpr (mem_map_of_mem hc))
  exact ⟨r, hr, (Node.naturalKey_of_data hrd).trans hck⟩

theorem upsertFileNodes_self (hnd : (files.map SourceFile.rel).Nodup)
    {x y : SqliteStorage × List (String × NodeId)} (hf : file ∈ ix.parsedFiles files)
    (hx : x.1.nodes = s.nodes) (h : upsertFileNodes x file = .ok y) :
    y.1.nodes = s.nodes ∧ (∀ p ∈ x.2, p ∈ y.2) ∧
      ∀ r ∈ codeRows s.nodes.rows, r.path = file.1 → (file.1, r.id) ∈ y.2 := by
  obtain ⟨⟨ids, t⟩, hu, hy⟩ := bind_eq_ok.mp h
  cases hy
  rw [hx] at hu
  have hkeys : ∀ n ∈ fileNodes file.1 file.2, n.naturalKey ∈ s.nodes.rows.map Node.naturalKey := by
    intro n hn
    obtain ⟨r, hr, hk⟩ := hs.exists_codeRow hf hn
    exact mem_map.mpr ⟨r, (mem_codeRows.mp hr).1, hk⟩
  -- the code rows of the file are what it declares
  have hfile : ∀ r ∈ codeRows s.nodes.rows, r.path = file.1 →
      r.data ∈ (freshNodes (fileNodes file.1 file.2)).rows.map Node.data := by
    intro r hr hpath
    obtain ⟨c, hc, hcd⟩ := mem_map.mp (hs.mem_iff.mp (mem_map_of_mem hr))
    have hcpath : c.path = file.1 := (congrArg NodeData.path hcd).trans hpath
    rw [← ix.nodesAt_eq hnd hf, ← codeNodes_rowsAt, ← hcd]
    exact mem_map_of_mem (mem_rowsAt.mpr ⟨hc, hcpath⟩)
  have hself : ∀ r ∈ s.nodes.rows, r.naturalKey ∈ (fileNodes file.1 file.2).map Node.naturalKey →
      r.data ∈ (freshNodes (fileNodes file.1 file.2)).rows.map Node.data := by
    intro r hr hk
    obtain ⟨n, hn, hnk⟩ := mem_map.mp hk
    obtain ⟨c, hc, hck⟩ := hs.exists_codeRow hf hn
    obtain rfl := s.nodes.uk_inj (mem_codeRows.mp hc).1 hr (hck.trans hnk)
    refine hfile c hc ?_
    have hpath := congrArg (fun k => k.2.1) hck
    exact hpath.trans (path_of_mem_fileNodes hn).2
  obtain ⟨ht, hids⟩ := upsertNodes_self hkeys hself hu
  refine ⟨ht, fun p hp => mem_append_left _ hp, fun r hr hpath => ?_⟩
  refine mem_append_right _ (mem_map_of_mem (hids r (mem_codeRows.mp hr).1 ?_))
  obtain ⟨n, hn, hnd'⟩ := mem_map.mp (hfile r hr hpath)
  obtain ⟨m, hm, hmd⟩ := exists_of_mem_freshNodes hn
  exact mem_map.mpr ⟨m, hm, Node.naturalKey_of_data (hmd.trans hnd')⟩

theorem foldlM_upsertFileNodes_self (hnd : (files.map SourceFile.rel).Nodup) :
    ∀ {l : List (String × ParsedFile)},
    (∀ file ∈ l, file ∈ ix.parsedFiles files) →
    ∀ {x y : SqliteStorage × List (String × NodeId)}, x.1.nodes = s.nodes →
    l.foldlM upsertFileNodes x = .ok y → y.1.nodes = s.nodes ∧ (∀ p ∈ x.2, p ∈ y.2) ∧
      ∀ file ∈ l, ∀ r ∈ codeRows s.nodes.rows, r.path = file.1 → (file.1, r.id) ∈ y.2 := by
  intro l
  induction l with
  | nil =>
    intro _ x y hx h
    cases h
    exact ⟨hx, fun _ hp => hp, fun _ hf => by cases hf⟩
  | cons file l ih =>
    intro hl x y hx h
    obtain ⟨z, hz, h⟩ := bind_eq_ok.mp h
    obtain ⟨hzn, hzold, hznew⟩ := upsertFileNodes_self hs hnd (hl file mem_cons_self) hx hz
    obtain ⟨hyn, hyold, hynew⟩ := ih (fun f hf => hl f (mem_cons_of_mem _ hf)) hzn h
    refine ⟨hyn, fun p hp => hyold p (hzold p hp), fun f hf r hr hpath => ?_⟩
    rcases mem_cons.mp hf with rfl | hf
    · exact hyold _ (hznew r hr hpath)
    · exact hynew f hf r hr hpath

/-- **Reindexing files that did not change keeps the rows of code**, and adds no row. -/
theorem stageNodes_self (hnd : (files.map SourceFile.rel).Nodup)
    (h : stageNodes ix s files changed = .ok nodes) :
    codeRows nodes.nodes.rows = codeRows s.nodes.rows ∧
      ∀ r ∈ nodes.nodes.rows, r ∈ s.nodes.rows := by
  obtain ⟨⟨s₁, written⟩, hw, h⟩ := bind_eq_ok.mp h
  cases h
  rw [upsertAllNodes_eq, parsedFiles_filter] at hw
  obtain ⟨hnodes, -, hids⟩ := foldlM_upsertFileNodes_self hs hnd
    (fun file hf => (mem_filter.mp hf).1) (purgeChanged_eq changed s).1 hw
  have hrows := (purgeStaleNodes_eq changed written s₁).1
  rw [hnodes] at hrows
  rw [hrows]
  refine ⟨?_, fun r hr => (mem_filter.mp hr).1⟩
  unfold codeRows
  rw [filter_filter]
  refine filter_congr fun r hr => ?_
  by_cases hk : isDocKind r.kind = true
  · simp [hk]
  · have hcode : r ∈ codeRows s.nodes.rows := mem_codeRows.mpr ⟨hr, by simpa using hk⟩
    by_cases hc : r.path ∈ changed
    · obtain ⟨c, hc', hcd⟩ := mem_map.mp (hs.mem_iff.mp (mem_map_of_mem hcode))
      obtain ⟨m, hm, hmd⟩ := exists_of_mem_freshNodes hc'
      obtain ⟨file, hf, hm⟩ := mem_flatMap.mp hm
      have hpath : r.path = file.1 :=
        (congrArg NodeData.path (hmd.trans hcd)).symm.trans (path_of_mem_fileNodes hm).2
      have hid := hids file (mem_filter.mpr ⟨hf, by simpa [← hpath] using hc⟩) r hcode hpath
      have hbucket : r.id ∈ bucket r.path written := mem_bucket.mpr (hpath ▸ hid)
      simp [hbucket]
    · simp [hc]

end

/-! ## Documentation and code are apart -/

theorem mem_upsertNode {n d : Node} {id : NodeId} (h : upsertNode s n = .ok (id, s'))
    (hd : d ∈ s'.nodes.rows) : d ∈ s.nodes.rows ∨ ∃ i, d = { n with id := i } := by
  obtain ⟨t, hu, rfl⟩ := upsertNode_ok h
  rcases (upsertBatchNode_ok hu).2 with ⟨row, -, -, -, -, hrows⟩ | ⟨-, -, hrows⟩
  · obtain ⟨r, hr, rfl⟩ := mem_map.mp (hrows ▸ hd)
    split
    · exact Or.inr ⟨_, rfl⟩
    · exact Or.inl hr
  · rcases mem_append.mp (hrows ▸ hd) with hd | hd
    · exact Or.inl hd
    · exact Or.inr ⟨_, mem_singleton.mp hd⟩

/-- Documentation nodes are topics, without a path, or belong to Markdown files. -/
theorem indexDocs_paths {changed : List SourceFile} (h : ix.indexDocs s files changed = .ok s')
    (hs : ∀ d ∈ s.nodes.rows, isDocKind d.kind = false) {d : Node} (hd : d ∈ s'.nodes.rows)
    (hkind : isDocKind d.kind = true) :
    d.path = "" ∨ ∃ f ∈ changed, isMarkdown f.rel = true ∧ d.path = f.rel := by
  have hP : DocInvariant
      (fun path _ => path = "" ∨ ∃ f ∈ changed, isMarkdown f.rel = true ∧ path = f.rel)
      (fun x => ∀ d ∈ x.nodes.rows, isDocKind d.kind = true →
        d.path = "" ∨ ∃ f ∈ changed, isMarkdown f.rel = true ∧ d.path = f.rel) := by
    refine ⟨fun hpath hx hok d hd hk => ?_, fun hx hn hk => hx _ hn (by rw [hk]; decide),
      fun _ _ _ _ hx => hx⟩
    rcases mem_upsertNode hok hd with hd | ⟨i, rfl⟩
    · exact hx d hd hk
    · exact hpath
  refine indexDocs_invariant hP (Or.inl rfl) (fun f hf hmd => Or.inr ⟨f, hf, hmd, rfl⟩)
    (fun hx d hd => hx d (mem_filter.mp hd).1) ?_ h d hd hkind
  intro d hd hk
  rw [hs d hd] at hk
  cases hk

theorem fromPath_markdown {langExtended : Bool} {path : String} (hmd : isMarkdown path = true)
    (hname : ¬ ((fileName path).any fun name => startsWith name ".") = true) :
    Language.fromPath langExtended path = none := by
  have henv : ¬ ((fileName path).any fun name =>
      startsWith name ".env") = true := by
    cases hf : fileName path with
    | none => simp
    | some name =>
      rw [hf] at hname
      simp only [Option.any_some, startsWith, isPrefixOf_iff_prefix] at hname ⊢
      exact fun h => hname (List.IsPrefix.trans (by decide) h)
  have hext : extension path = some "md" ∨ extension path = some "markdown" := by
    unfold isMarkdown at hmd
    split at hmd
    · exact Or.inl ‹_›
    · exact Or.inr ‹_›
    · cases hmd
  unfold Language.fromPath
  rw [if_neg (by simp [henv])]
  rcases hext with hext | hext
  · rw [hext]
    cases langExtended <;> decide
  · rw [hext]
    cases langExtended <;> decide

theorem extract_of_mem_codeNodes (hn : n ∈ (ix.codeNodes files).rows) :
    ∃ source, ⟨n.path, source⟩ ∈ files ∧ (ix.extract n.path source).isSome := by
  obtain ⟨c, hc, hcd⟩ := exists_of_mem_freshNodes hn
  obtain ⟨⟨rel, parsed⟩, hf, hc⟩ := mem_flatMap.mp hc
  obtain ⟨source, hmem, hparse⟩ := ix.mem_parsedFiles.mp hf
  obtain rfl : n.path = rel :=
    (congrArg NodeData.path hcd).symm.trans (path_of_mem_fileNodes hc).2
  refine ⟨source, hmem, ?_⟩
  obtain ⟨x, hx, -⟩ := Option.map_eq_some_iff.mp hparse
  exact Option.isSome_iff_exists.mpr ⟨x, hx⟩

end routes

theorem fromPath_of_doc {root : Tree} {langExtended : Bool} {path : String}
    (h : path = "" ∨ ∃ f ∈ ix.discoverFiles root, isMarkdown f.rel = true ∧ path = f.rel) :
    Language.fromPath langExtended path = none := by
  rcases h with rfl | ⟨f, hf, hmd, rfl⟩
  · cases langExtended <;> decide
  · refine fromPath_markdown hmd fun hdot => ?_
    have hindexable := (mem_filter.mp hf).2
    simp only [Bool.and_eq_true, isIndexable, hdot, if_true, Bool.false_eq_true, and_false]
      at hindexable

/-- **A full run leaves a store of the tree.**  In a build with documentation extractors have to go
by the language of the path, and no path may contain the separator of monikers. -/
theorem holdsTree_fullReindex {root : Tree} {active : SqliteStorage} {stats : IndexStats}
    (hlang : ix.docs = true → ∀ rel source, (ix.extract rel source).isSome →
      (Language.fromPath ix.langExtended rel).isSome)
    (hfree : ix.docs = true → ∀ f ∈ ix.discoverFiles root, '#' ∉ f.rel.toList)
    (h : ix.fullReindex active (ix.discoverFiles root) = .ok (stats, s)) :
    HoldsTree ix (ix.discoverFiles root) s := by
  have hcode := fullReindex_codeRows h
  refine ⟨⟨active, stats, s, h⟩, ?_, fun d hd hkind n hn hm => ?_⟩
  · rw [hcode]
    exact .refl _ _
  obtain ⟨s₁, total, s₂, s₃, h₁, h₂, h₃, rfl⟩ := fullReindex_stages h
  obtain ⟨total', ht⟩ := insertAllNodes_eq ix (ix.discoverFiles root) openFresh
  rw [ht] at h₁
  cases h₁
  rw [carryOverSpans_nodes] at hd
  have hs₂ : ∀ d ∈ s₂.nodes.rows, isDocKind d.kind = false := by
    intro d hd
    rw [upsertAllEdges_nodes h₂] at hd
    exact codeNodes_isCode hd
  cases hdocs : ix.docs with
  | false =>
    unfold indexDocs at h₃
    rw [hdocs] at h₃
    cases h₃
    rw [hs₂ d hd] at hkind
    cases hkind
  | true =>
    have hpath := indexDocs_paths h₃ hs₂ hd hkind
    have hdfree : '#' ∉ d.path.toList := by
      rcases hpath with hpath | ⟨f, hf, -, hpath⟩
      · rw [hpath]
        decide
      · exact hpath ▸ hfree hdocs f hf
    obtain ⟨source, hmem, hextract⟩ := extract_of_mem_codeNodes hn
    -- equal monikers are those of one file, which cannot be both
    have hsame : d.path = n.path := path_of_buildMoniker hdfree (hfree hdocs _ hmem) hm
    have hlanguage := hlang hdocs _ _ hextract
    rw [← hsame, fromPath_of_doc hpath] at hlanguage
    cases hlanguage

/-! ## Notes that stay as they are -/

section survive

variable (ix : Indexer) (hash : String → String) (root : Tree) (files : List SourceFile)

/-- The note's node is where the tree declares the last symbol of its moniker, and a crystallized
note was pinned to lines that hash as those of that symbol do. -/
structure Steady (s : SqliteStorage) (note : Note) : Prop where
  place : (lastOf (ix.codeNodes files).rows note.moniker).map Node.place =
    (note.targetNodeId.bind s.getNode).map Node.place
  text : note.tier = .crystallized → ∀ oldHash ∈ note.contentHash,
    ∀ span ∈ lookupLast note.moniker (monikerSpanMap ix files),
    ∀ file ∈ (splitOnce '#' note.moniker).map Prod.fst, ∀ source ∈ fileSource root file,
      hashSpan hash source span.1 span.2 = oldHash

instance (s : SqliteStorage) (note : Note) : Decidable (Steady ix hash root files s note) :=
  decidable_of_iff (_ ∧ _) ⟨fun h => ⟨h.1, h.2⟩, fun h => ⟨h.place, h.text⟩⟩

/-- What a note looks like once it is attached to the last symbol of its moniker. -/
def settledView (note : Note) : Note × Option (String × String × Nat) :=
  let last := lastOf (ix.codeNodes files).rows note.moniker
  ({ note with
      id := 0, targetNodeId := none,
      stale := staleAfter ix hash root files note (last.map Node.id) }, last.map Node.place)

variable {ix hash root files} {s s' : SqliteStorage} {note : Note}

variable {target : Option NodeId} {t : NoteTable} {now : Int}

theorem staleAfter_congr {target' : Option NodeId} (h : target.isSome = target'.isSome) :
    staleAfter ix hash root files note target = staleAfter ix hash root files note target' := by
  unfold staleAfter
  cases target with
  | none => cases target' with
    | none => rfl
    | some id' => cases h
  | some id => cases target' with
    | none => cases h
    | some id' => cases note.tier <;> cases note.contentHash <;> rfl

theorem staleAfter_eq_false (hstale : note.stale = false) (htarget : target.isSome) :
    staleAfter ix hash root files note target = false ↔
      (note.tier = .crystallized → ∀ oldHash ∈ note.contentHash,
        ∀ span ∈ lookupLast note.moniker (monikerSpanMap ix files),
        ∀ file ∈ (splitOnce '#' note.moniker).map Prod.fst,
        ∀ source ∈ fileSource root file, hashSpan hash source span.1 span.2 = oldHash) := by
  obtain ⟨id, rfl⟩ := Option.isSome_iff_exists.mp htarget
  unfold staleAfter
  cases note.tier with
  | ephemeral => simp [hstale]
  | crystallized =>
    cases note.contentHash with
    | none => simp [hstale]
    | some oldHash =>
      cases lookupLast note.moniker (monikerSpanMap ix files) with
      | none => simp [hstale]
      | some span =>
        cases (splitOnce '#' note.moniker).map Prod.fst with
        | none => simp [hstale]
        | some file => cases hsource : fileSource root file <;> simp [hstale, hsource]

theorem steady_iff (hstale : note.stale = false)
    (hnode : (note.targetNodeId.bind s.getNode).isSome) :
    settledView ix hash root files note = view s note ↔ Steady ix hash root files s note := by
  have hview : settledView ix hash root files note = view s note ↔
      staleAfter ix hash root files note
        ((lastOf (ix.codeNodes files).rows note.moniker).map Node.id) = false ∧
      (lastOf (ix.codeNodes files).rows note.moniker).map Node.place =
        (note.targetNodeId.bind s.getNode).map Node.place := by
    unfold settledView view
    rw [Prod.mk.injEq]
    refine and_congr_left fun _ => ?_
    rw [← hstale]
    simp
  have hattached : (lastOf (ix.codeNodes files).rows note.moniker).map Node.place =
      (note.targetNodeId.bind s.getNode).map Node.place →
      ((lastOf (ix.codeNodes files).rows note.moniker).map Node.id).isSome := by
    intro hplace
    have hsome := congrArg Option.isSome hplace
    rw [Option.isSome_map, Option.isSome_map, hnode] at hsome
    rw [Option.isSome_map]
    exact hsome
  rw [hview]
  constructor
  · rintro ⟨hfresh, hplace⟩
    exact ⟨hplace, (staleAfter_eq_false hstale (hattached hplace)).mp hfresh⟩
  · rintro ⟨hplace, htext⟩
    exact ⟨(staleAfter_eq_false hstale (hattached hplace)).mpr htext, hplace⟩

/-- Attached by an index in which the last node of the moniker is that of the tree. -/
theorem view_reattached {index : ProjectIndex × List (Nat × NodeId)} {nodes : List Node}
    (hindex : Indexed index nodes)
    (hlast : (lastOf nodes note.moniker).map Node.data =
      (lastOf (ix.codeNodes files).rows note.moniker).map Node.data)
    (hmem : ∀ n, lastOf nodes note.moniker = some n → n ∈ s'.nodes.rows) :
    view s' (reattached ix hash root files index note) = settledView ix hash root files note := by
  have htarget := monikerTarget_eq hindex note.moniker
  have hsome : (lastOf nodes note.moniker).isSome =
      (lastOf (ix.codeNodes files).rows note.moniker).isSome := by
    simpa using congrArg Option.isSome hlast
  have hstale : staleAfter ix hash root files note (monikerTarget index note.moniker) =
      staleAfter ix hash root files note
        ((lastOf (ix.codeNodes files).rows note.moniker).map Node.id) := by
    refine staleAfter_congr ?_
    rw [htarget]
    simpa using hsome
  have hplace : ((monikerTarget index note.moniker).bind s'.getNode).map Node.place =
      (lastOf (ix.codeNodes files).rows note.moniker).map Node.place := by
    have hdata : ∀ o : Option Node, o.map Node.place =
        (o.map Node.data).map fun d => (d.path, d.symbol, d.lineStart) := by
      intro o
      rw [Option.map_map]
      rfl
    rw [htarget, hdata (lastOf (ix.codeNodes files).rows note.moniker), ← hlast, ← hdata]
    cases hn : lastOf nodes note.moniker with
    | none => rfl
    | some n =>
      rw [Option.map_some, Option.bind_some, getNode_eq (hmem n hn)]
  unfold view reattached settledView
  dsimp only
  rw [hstale]
  exact congrArg _ hplace

/-- A note as `pin` leaves it: attached to a node of the store, and not stale. -/
structure Pinned (s : SqliteStorage) (note : Note) : Prop where
  stale : note.stale = false
  node : (note.targetNodeId.bind s.getNode).isSome

theorem pinned_runPin {db : NotedStorage} (call : PinCall)
    (h : ∀ note ∈ db.notes.rows, Pinned db.storage note) :
    (runPin hash root db call).storage = db.storage ∧
      ∀ note ∈ (runPin hash root db call).notes.rows, Pinned db.storage note := by
  have hpin : ∀ {symbol text kind author : String} {tier : NoteTier} {now : Int}
      {x : Nat × NotedStorage}, db.pin hash root symbol text kind author tier now = .ok x →
      x.2.storage = db.storage ∧ ∀ note ∈ x.2.notes.rows, Pinned db.storage note := by
    intro symbol text kind author tier now x hok
    unfold pin at hok
    split at hok
    · cases hok
    · rename_i node hnode
      cases hok
      refine ⟨rfl, fun note hnote => ?_⟩
      rcases mem_append.mp hnote with hnote | hnote
      · exact h note hnote
      · rw [mem_singleton.mp hnote]
        refine ⟨rfl, ?_⟩
        rw [Option.bind_some, getNode_eq (mem_of_find?_eq_some hnode)]
        rfl
  unfold runPin
  cases call with
  | cli symbol text keep kind now =>
    dsimp only
    split
    · rename_i hok
      exact hpin hok
    · exact ⟨rfl, h⟩
  | mcp symbol text tier kind now =>
    dsimp only
    split
    · rename_i hok
      exact hpin hok
    · exact ⟨rfl, h⟩

theorem pinned_spec (hash : String → String) (root : Tree) (s : SqliteStorage)
    (calls : List PinCall) : (pinned hash root s calls).storage = s ∧
      ∀ note ∈ (pinned hash root s calls).notes.rows, Pinned s note := by
  refine foldl_invariant (P := fun db : NotedStorage =>
    db.storage = s ∧ ∀ note ∈ db.notes.rows, Pinned s note) (fun call _ db hdb => ?_)
    ⟨rfl, fun note hnote => by cases hnote⟩
  obtain ⟨rfl, hpinned⟩ := hdb
  exact pinned_runPin call hpinned

/-- The places of notes after a run that attached them to the last symbols of their monikers. -/
theorem perm_settledView_iff (hpinned : ∀ note ∈ t.rows, Pinned s note) :
    ((t.rows.filter fun note => !note.isExpired now).map
        (settledView ix hash root files)).Perm (liveViews ⟨s, t⟩ now) ↔
      ∀ note ∈ t.rows, note.isExpired now = false → Steady ix hash root files s note := by
  have hlive : ∀ note ∈ t.rows.filter fun note => !note.isExpired now, Pinned s note :=
    fun note hnote => hpinned note (mem_filter.mp hnote).1
  -- notes that agree in all else have the same moniker, tier and hash
  have hkey : ∀ a ∈ t.rows.filter fun note => !note.isExpired now,
      ∀ b ∈ t.rows.filter fun note => !note.isExpired now,
      ({ (settledView ix hash root files a).1 with stale := false } : Note) =
        { (settledView ix hash root files b).1 with stale := false } →
      settledView ix hash root files a = settledView ix hash root files b := by
    intro a ha b hb hkey
    have hstale : a.stale = b.stale := (hlive a ha).stale.trans (hlive b hb).stale.symm
    cases a
    obtain ⟨-, -, rfl, rfl, rfl, rfl, rfl, rfl, -, rfl, rfl⟩ := hkey
    subst hstale
    rfl
  have hperm := perm_map_iff (f := settledView ix hash root files) (g := view s)
    (fun x => { x.1 with stale := false }) (fun _ _ => rfl) hkey
  refine hperm.trans ?_
  simp only [mem_filter, Bool.not_eq_eq_eq_not, Bool.not_true, and_imp]
  refine forall₃_congr fun note hnote _ => ?_
  exact steady_iff (hpinned note hnote).stale (hpinned note hnote).node

theorem survive_full_iff (hs : HoldsTree ix files s) :
    Survive now ⟨s, t⟩ (swapped ⟨s, t⟩ (fullReindex ix hash root files now ⟨s, t⟩)) ↔
      ((t.rows.filter fun note => !note.isExpired now).map
        (settledView ix hash root files)).Perm (liveViews ⟨s, t⟩ now) := by
  obtain ⟨active, stats, s₁, hok⟩ := hs.full
  obtain ⟨s', hok', -⟩ := fullReindex_graph hok s
  obtain ⟨total, ht⟩ := insertAllNodes_eq ix files openFresh
  have hrun : fullReindex ix hash root files now ⟨s, t⟩ = .ok (stats, ⟨s', carryOverAndPrune ix hash
      root files (buildProjectIndexFromStorage { openFresh with nodes := ix.codeNodes files }) now
      t⟩) := by
    unfold fullReindex
    rw [ht]
    exact bind_eq_ok.mpr ⟨_, rfl, bind_eq_ok.mpr ⟨_, hok', rfl⟩⟩
  have hindex := indexed_build { openFresh with nodes := ix.codeNodes files }
  have hviews : viewsAnew ix hash root files
      (buildProjectIndexFromStorage { openFresh with nodes := ix.codeNodes files }) s' t now =
      (t.rows.filter fun note => !note.isExpired now).map (settledView ix hash root files) := by
    refine map_congr_left fun note _ => view_reattached hindex rfl fun n hn => ?_
    have hmem := (mem_of_lastOf hn).1
    rw [← fullReindex_codeRows hok'] at hmem
    exact (mem_codeRows.mp hmem).1
  rw [hrun]
  have hnew := hviews ▸ liveViews_carryOver t now
  exact ⟨hnew.symm.trans, hnew.trans⟩

theorem lastOf_codeRows {rows : List Node} {m : String}
    (h : ∀ d ∈ rows, isDocKind d.kind = true → d.moniker ≠ m) :
    lastOf (codeRows rows) m = lastOf rows m := by
  unfold lastOf codeRows
  rw [filter_filter]
  congr 1
  refine filter_congr fun r hr => ?_
  cases hk : isDocKind r.kind with
  | false => simp
  | true => simp [h r hr hk]

theorem lastOf_stageNodes (hs : HoldsTree ix files s) (hnd : (files.map SourceFile.rel).Nodup)
    {changed : List String} {nodes : SqliteStorage}
    (h : stageNodes ix s files changed = .ok nodes) {m : String}
    (hm : (lastOf (ix.codeNodes files).rows m).isSome) :
    lastOf nodes.nodes.rows m = lastOf (codeRows s.nodes.rows) m ∧
      (lastOf nodes.nodes.rows m).map Node.data =
        (lastOf (ix.codeNodes files).rows m).map Node.data := by
  obtain ⟨hcode, hsub⟩ := stageNodes_self hs hnd h
  obtain ⟨c, hc⟩ := Option.isSome_iff_exists.mp hm
  obtain ⟨hmem, rfl⟩ := mem_of_lastOf hc
  have hlast : lastOf nodes.nodes.rows c.moniker = lastOf (codeRows s.nodes.rows) c.moniker := by
    rw [← hcode]
    exact (lastOf_codeRows fun d hd hk => hs.apart d (hsub d hd) hk c hmem).symm
  refine ⟨hlast, ?_⟩
  rw [hlast, lastOf_data, lastOf_data]
  exact lastIn_sameGroups hs.rows c.moniker

theorem survive_incremental (hs : HoldsTree ix files s) (hnd : (files.map SourceFile.rel).Nodup)
    (hpinned : ∀ note ∈ t.rows, Pinned s note)
    (hsteady : ∀ note ∈ t.rows, note.isExpired now = false → Steady ix hash root files s note)
    (changed : List String) : Survive now ⟨s, t⟩
      (swapped ⟨s, t⟩ (incrementalReindex ix hash root files now ⟨s, t⟩ changed)) := by
  cases hrun : incrementalReindex ix hash root files now ⟨s, t⟩ changed with
  | error e => exact .refl _
  | ok x =>
    unfold incrementalReindex at hrun
    by_cases hempty : changed = []
    · subst hempty
      cases hrun
      exact .refl _
    · rw [if_neg (by simpa using hempty)] at hrun
      obtain ⟨nodes, hnodes, hrun⟩ := bind_eq_ok.mp hrun
      obtain ⟨⟨stats, s'⟩, hok, hrun⟩ := bind_eq_ok.mp hrun
      cases hrun
      obtain ⟨nodes', hnodes', hcode⟩ := incrementalReindex_stage hempty hok
      obtain rfl : nodes = nodes' := Except.ok.inj (hnodes.symm.trans hnodes')
      have hviews : viewsAnew ix hash root files (buildProjectIndexFromStorage nodes) s' t now =
          (t.rows.filter fun note => !note.isExpired now).map (settledView ix hash root files) := by
        refine map_congr_left fun note hnote => ?_
        obtain ⟨hnote, hlive⟩ := mem_filter.mp hnote
        have hplace := (hsteady note hnote (by simpa using hlive)).place
        have hsome := congrArg Option.isSome hplace
        rw [Option.isSome_map, Option.isSome_map, (hpinned note hnote).node] at hsome
        obtain ⟨hlast, hdata⟩ := lastOf_stageNodes hs hnd hnodes hsome
        refine view_reattached (indexed_build nodes) hdata fun n hn => ?_
        have hmem := (mem_of_lastOf (hlast.symm.trans hn)).1
        rw [← (stageNodes_self hs hnd hnodes).1, ← hcode] at hmem
        exact (mem_codeRows.mp hmem).1
      unfold Survive swapped
      rw [liveViews_reattach, hviews]
      exact (perm_settledView_iff hpinned).mpr hsteady

end survive

theorem discoverFiles_nodup (ix : Indexer) (root : Tree) :
    ((ix.discoverFiles root).map SourceFile.rel).Nodup :=
  (filter_sublist.map SourceFile.rel).nodup root.distinct

/-- **Notes survive a reindex that changes nothing**, by either route, exactly when each note that
has not expired is pinned to the last symbol of its moniker. -/
theorem pinned_survive_iff (ix : Indexer) (hash : String → String) (root : Tree)
    {s : SqliteStorage} (hs : HoldsTree ix (ix.discoverFiles root) s) (calls : List PinCall)
    (now : Int) : SurviveReindex ix hash root now (pinned hash root s calls) ↔
      ∀ note ∈ (pinned hash root s calls).notes.rows, note.isExpired now = false →
        Steady ix hash root (ix.discoverFiles root) s note := by
  obtain ⟨hstorage, hpinned⟩ := pinned_spec hash root s calls
  generalize pinned hash root s calls = db at hstorage hpinned
  subst hstorage
  constructor
  · rintro ⟨hfull, -⟩
    exact (perm_settledView_iff hpinned).mp ((survive_full_iff hs).mp hfull)
  · intro hsteady
    exact ⟨(survive_full_iff hs).mpr ((perm_settledView_iff hpinned).mpr hsteady),
      survive_incremental hs (discoverFiles_nodup ix root) hpinned hsteady⟩

/-- Every file declares `go`, one of them twice. -/
def overloadIndexer : Indexer where
  langExtended := true
  docs := true
  otel := false
  extract rel source :=
    if (Language.fromPath true rel).isSome then
      if source = "void go(int x) {}\nvoid go() {}" then
        some ⟨[⟨"go", .method, 1, 1, "void go(int x)"⟩, ⟨"go", .method, 2, 2, "void go()"⟩], [], []⟩
      else some ⟨[⟨"go", .method, 1, 1, "void go()"⟩], [], []⟩
    else none
  parseMarkdown _ := ⟨["go"], [], [], [], []⟩

theorem overloadIndexer_language (rel source : String)
    (h : (overloadIndexer.extract rel source).isSome) :
    (Language.fromPath overloadIndexer.langExtended rel).isSome := by
  unfold overloadIndexer at h
  dsimp only at h
  split at h
  · assumption
  · cases h

/-- Two files declare `go`, one note is tagged with it. -/
def twoFilesTree : Tree where
  files := [⟨"a.java", "void go() {}"⟩, ⟨"b.java", "void go() {}"⟩, ⟨"n.md", "#go"⟩]
  distinct := by decide

/-- `go` is declared twice in one file. -/
def overloadTree : Tree where
  files := [⟨"a.java", "void go(int x) {}\nvoid go() {}"⟩]
  distinct := by decide

/-- One note of each tier. -/
def pinCalls : List PinCall :=
  [.cli "go" "entry point" true "note" 0, .mcp "go" "called from a thread" none none 0]

theorem pinned_survive_twoFiles : ∃ s,
    HoldsTree overloadIndexer (overloadIndexer.discoverFiles twoFilesTree) s ∧
    SurviveReindex overloadIndexer id twoFilesTree 1 (pinned id twoFilesTree s pinCalls) := by
  obtain ⟨⟨stats, s⟩, hok, hsteady⟩ : ∃ x : IndexStats × SqliteStorage,
      overloadIndexer.fullReindex openFresh (overloadIndexer.discoverFiles twoFilesTree) = .ok x ∧
      ∀ note ∈ (pinned id twoFilesTree x.2 pinCalls).notes.rows, note.isExpired 1 = false →
        Steady overloadIndexer id twoFilesTree (overloadIndexer.discoverFiles twoFilesTree) x.2
          note :=
    exists_ok (by decide +kernel)
  have hs := holdsTree_fullReindex (fun _ => overloadIndexer_language) (fun _ => by decide) hok
  exact ⟨s, hs, (pinned_survive_iff overloadIndexer id twoFilesTree hs pinCalls 1).mpr hsteady⟩

/-- The notes are pinned to the first overload and move to the second. -/
theorem pinned_move_to_overload : ∃ s,
    HoldsTree overloadIndexer (overloadIndexer.discoverFiles overloadTree) s ∧
    ¬ SurviveReindex overloadIndexer id overloadTree 1 (pinned id overloadTree s pinCalls) := by
  obtain ⟨⟨stats, s⟩, hok, hmove⟩ : ∃ x : IndexStats × SqliteStorage,
      overloadIndexer.fullReindex openFresh (overloadIndexer.discoverFiles overloadTree) = .ok x ∧
      ¬ Survive 1 (pinned id overloadTree x.2 pinCalls)
        ((pinned id overloadTree x.2 pinCalls).swapped
          ((pinned id overloadTree x.2 pinCalls).fullReindex overloadIndexer id overloadTree
            (overloadIndexer.discoverFiles overloadTree) 1)) :=
    exists_ok (by decide +kernel)
  have hs := holdsTree_fullReindex (fun _ => overloadIndexer_language) (fun _ => by decide) hok
  exact ⟨s, hs, fun h => hmove h.1⟩

end NotedStorage

end WeaveGraph

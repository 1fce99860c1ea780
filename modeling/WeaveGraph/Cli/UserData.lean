import WeaveGraph.Cli.Notes
import WeaveGraph.Cli.History

/-!
# User data across `weave index`

Notes and imported trace spans are the only rows of the database that no run can make again from
the tree.  An incremental run works on a copy of the database, and a full run carries them over
into the one it builds.  The run that restores the snapshot of a commit does neither: what was
pinned or imported since the snapshot was saved is gone, so

    the run keeps the user data
      ↔  a snapshot it restores already has it, and a full run is of a build that carries spans
                                                              (cmdIndex_keptIn_iff)

Databases here are those of `Cli.Cache` with their notes.
-/

namespace WeaveGraph

open List Lib SqliteStorage Indexer

/-! ## A workspace with notes -/

structure NotedDir where
  activeDb : Option NotedStorage
  lastIndexedSha : Option String
  extractorVersion : Option Nat
  snapshots : String → Option NotedStorage

structure NotedWorkspace where
  repo : Repo
  tree : Tree
  weave : NotedDir

namespace NotedDir

def forget (d : NotedDir) : WeaveDir :=
  ⟨d.activeDb.map NotedStorage.storage, d.lastIndexedSha, d.extractorVersion,
    fun sha => (d.snapshots sha).map NotedStorage.storage⟩

def extractorVersionMatches (d : NotedDir) : Bool := d.forget.extractorVersionMatches

def clearSnapshotCache (d : NotedDir) : NotedDir := { d with snapshots := fun _ => none }

def writeLastIndexedSha (d : NotedDir) (sha : String) : NotedDir :=
  { d with lastIndexedSha := some sha }

def restoreSnapshot (d : NotedDir) (sha : String) : Option NotedDir :=
  (d.snapshots sha).map fun snapshot => { d with activeDb := some snapshot }

def saveSnapshot (d : NotedDir) (sha : String) : NotedDir :=
  { d with snapshots := Function.update d.snapshots sha d.activeDb }

end NotedDir

namespace NotedWorkspace

/-- The workspace without its notes. -/
def forget (w : NotedWorkspace) : Workspace := ⟨w.repo, w.tree, w.weave.forget⟩

section index

variable (ix : Indexer) (hash : String → String) (now : Int) (w : NotedWorkspace)

/-- Opening the database creates it if it is not there. -/
def openActive : NotedStorage := w.weave.activeDb.getD ⟨openFresh, Table.empty⟩

def tryFastPath : Option (IndexReport × NotedDir) :=
  match w.forget.currentSha with
  | none => none
  | some cur =>
    if w.weave.lastIndexedSha = some cur ∧ w.weave.activeDb.isSome then
      some (.alreadyUpToDate cur, w.weave)
    else
      (w.weave.restoreSnapshot cur).map fun weave => (.restored cur, weave.writeLastIndexedSha cur)

def reindex (files : List SourceFile) (incremental : Bool) :
    Except StorageError (IndexStats × NotedDir) := do
  let (stats, db) ←
    match w.forget.incrementalChange ix incremental with
    | some (_, changed) => w.openActive.incrementalReindex ix hash w.tree files now changed
    | none => w.openActive.fullReindex ix hash w.tree files now
  pure (stats, { w.weave with
    activeDb := some db, extractorVersion := some currentExtractorVersion })

def recordCommit (weave : NotedDir) : NotedDir :=
  match w.forget.currentSha with
  | none => weave
  | some cur =>
    let weave := weave.writeLastIndexedSha cur
    if w.forget.isWorkingTreeClean then weave.saveSnapshot cur else weave

def cmdIndex (incremental : Bool) : Except StorageError IndexReport × NotedWorkspace :=
  let extractorOk := w.weave.extractorVersionMatches
  let w := { w with weave := if extractorOk then w.weave else w.weave.clearSnapshotCache }
  match if extractorOk then w.tryFastPath else none with
  | some (report, weave) => (.ok report, { w with weave := weave })
  | none =>
    let files := ix.discoverFiles w.tree
    if files.isEmpty then (.ok .noFiles, w)
    else
      match w.reindex ix hash now files incremental with
      | .error e => (.error e, w)
      | .ok (stats, weave) => (.ok (.indexed stats), { w with weave := w.recordCommit weave })

/-! ## The routes of a run -/

def isUpToDate : Bool :=
  w.weave.extractorVersionMatches && w.repo.head.any fun cur =>
    w.weave.lastIndexedSha == some cur && w.weave.activeDb.isSome

def restorable : Option NotedStorage :=
  if w.weave.extractorVersionMatches && !w.isUpToDate then w.repo.head.bind w.weave.snapshots
  else none

def isFullRun (incremental : Bool) : Bool :=
  !w.isUpToDate && w.restorable.isNone && !(ix.discoverFiles w.tree).isEmpty &&
    (w.forget.incrementalChange ix incremental).isNone

/-- What is left of the command once no shortcut applies. -/
def slowRun (incremental : Bool) : Except StorageError IndexReport × NotedWorkspace :=
  if (ix.discoverFiles w.tree).isEmpty then (.ok .noFiles, w)
  else
    match w.reindex ix hash now (ix.discoverFiles w.tree) incremental with
    | .error e => (.error e, w)
    | .ok (stats, weave) => (.ok (.indexed stats), { w with weave := w.recordCommit weave })

/-- Snapshots of another extractor are dropped. -/
def usable : NotedWorkspace :=
  { w with weave :=
      if w.weave.extractorVersionMatches then w.weave else w.weave.clearSnapshotCache }

end index

end NotedWorkspace

/-! ## User data -/

/-- A note without what a reindex finds anew. -/
def Note.kept (note : Note) : Note := { note with id := 0, targetNodeId := none, stale := false }

def TraceSpan.kept (span : TraceSpan) : TraceSpan := { span with id := 0 }

/-- The monikers of a note file: its title and its headings. -/
def docMonikers (note : String × ParsedMarkdown) : List String :=
  buildMoniker note.1 (stem note.1) ::
    note.2.headings.map fun heading => buildMoniker note.1 (stem note.1 ++ "#" ++ heading)

def symbolExists (ix : Indexer) (tree : Tree) (moniker : String) : Bool :=
  ((ix.declared tree.files).map Node.moniker).contains moniker ||
    (ix.docs && ((ix.parseMarkdownFiles tree.files).flatMap docMonikers).contains moniker)

namespace NotedStorage

/-- The spans, and the notes that are still of use, are in the other database too; notes as often
as before. -/
structure KeptIn (ix : Indexer) (tree : Tree) (now : Int) (before after : NotedStorage) : Prop where
  spans : before.storage.traceSpans.rows.map TraceSpan.kept ⊆
    after.storage.traceSpans.rows.map TraceSpan.kept
  notes : ((before.notes.rows.filter fun note =>
    !note.isExpired now && symbolExists ix tree note.moniker).map Note.kept).Subperm
      (after.notes.rows.map Note.kept)

instance (ix : Indexer) (tree : Tree) (now : Int) (before after : NotedStorage) :
    Decidable (KeptIn ix tree now before after) :=
  decidable_of_iff (_ ∧ _) ⟨fun h => ⟨h.1, h.2⟩, fun h => ⟨h.spans, h.notes⟩⟩

section kept

variable {ix : Indexer} {hash : String → String} {tree root : Tree} {now : Int}
  {db db' : NotedStorage} {files : List SourceFile}

theorem KeptIn.refl (ix : Indexer) (tree : Tree) (now : Int) (db : NotedStorage) :
    KeptIn ix tree now db db :=
  ⟨List.Subset.refl _, (filter_sublist.map _).subperm⟩

/-- The notes that have not expired, as a reindex has to keep them. -/
def live (now : Int) (t : NoteTable) : List Note :=
  (t.rows.filter fun note => !note.isExpired now).map Note.kept

theorem notes_of_perm (h : (live now db'.notes).Perm (live now db.notes)) :
    ((db.notes.rows.filter fun note =>
      !note.isExpired now && symbolExists ix tree note.moniker).map Note.kept).Subperm
        (db'.notes.rows.map Note.kept) := by
  have hfewer : ((db.notes.rows.filter fun note =>
      !note.isExpired now && symbolExists ix tree note.moniker).map Note.kept).Sublist
        (live now db.notes) :=
    (monotone_filter_right _ fun note hnote => (Bool.and_eq_true _ _ ▸ hnote).1).map _
  have hmore : (live now db'.notes).Sublist (db'.notes.rows.map Note.kept) :=
    filter_sublist.map _
  exact (hfewer.subperm.trans h.symm.subperm).trans hmore.subperm

theorem live_eq (s : SqliteStorage) (t : NoteTable) :
    live now t = (liveViews ⟨s, t⟩ now).map fun v => { v.1 with stale := false } := by
  unfold live liveViews
  rw [map_map]
  rfl

theorem live_eq_anew (s : SqliteStorage) (index : ProjectIndex × List (Nat × NodeId))
    (t : NoteTable) : live now t =
      (viewsAnew ix hash root files index s t now).map fun v => { v.1 with stale := false } := by
  unfold live viewsAnew
  rw [map_map]
  rfl

theorem live_carryOver (index : ProjectIndex × List (Nat × NodeId)) (t : NoteTable) :
    (live now (carryOverAndPrune ix hash root files index now t)).Perm (live now t) := by
  rw [live_eq openFresh, live_eq_anew openFresh index t]
  exact (liveViews_carryOver t now).map _

theorem live_reattach (index : ProjectIndex × List (Nat × NodeId)) (t : NoteTable) :
    live now (reattachAndPrune ix hash root files index now t) = live now t := by
  rw [live_eq openFresh, liveViews_reattach, ← live_eq_anew openFresh index t]

theorem kept_mem_foldl_upsert {spans : List TraceSpan}
    (hnd : (spans.map TraceSpan.naturalKey).Nodup) (t : SpanTable)
    (hfresh : ∀ span ∈ spans, span.naturalKey ∉ t.rows.map TraceSpan.naturalKey) {k : TraceSpan} :
    k ∈ (spans.foldl upsertTraceSpan t).rows.map TraceSpan.kept ↔
      k ∈ t.rows.map TraceSpan.kept ∨ k ∈ spans.map TraceSpan.kept := by
  induction spans generalizing t with
  | nil => simp
  | cons span spans ih =>
    obtain ⟨hspan, hnd⟩ := nodup_cons.mp hnd
    have hrows : (upsertTraceSpan t span).rows = t.rows ++ [{ span with id := t.nextId }] :=
      Table.upsert_fresh t _ _ _ _ _ (hfresh span mem_cons_self)
    rw [foldl_cons, ih hnd]
    · rw [hrows, map_append, map_singleton, mem_append, mem_singleton, map_cons, mem_cons, or_assoc]
      exact Iff.rfl
    · intro other hother
      rw [hrows, map_append, mem_append, not_or]
      refine ⟨hfresh other (mem_cons_of_mem _ hother), fun hmem => ?_⟩
      rw [map_singleton, mem_singleton] at hmem
      exact hspan (hmem ▸ mem_map_of_mem hother)

variable {active s : SqliteStorage} {stats : IndexStats} {changed : List String}

/-- A full run has the spans of the database it replaces, if the build carries them over. -/
theorem fullReindex_spans (h : ix.fullReindex active files = .ok (stats, s)) {k : TraceSpan} :
    k ∈ s.traceSpans.rows.map TraceSpan.kept ↔
      ix.otel = true ∧ k ∈ active.traceSpans.rows.map TraceSpan.kept := by
  obtain ⟨fresh, hspans, rfl⟩ := fullReindex_frame (f := SqliteStorage.traceSpans)
    (fun _ _ => rfl) (fun _ _ => rfl) (fun _ _ => rfl) h
  have hperm : active.allTraceSpans.Perm active.traceSpans.rows := perm_insertionSort _ _
  have hnd : (active.allTraceSpans.map TraceSpan.naturalKey).Nodup :=
    (hperm.map _).nodup_iff.mpr active.traceSpans.unique
  unfold carryOverSpans
  cases ix.otel with
  | false => simp [hspans, openFresh, Table.empty]
  | true =>
    simp only [if_true, true_and]
    rw [kept_mem_foldl_upsert hnd, hspans, (hperm.map _).mem_iff]
    · simp [openFresh, Table.empty]
    · rw [hspans]
      exact fun _ _ => not_mem_nil

theorem keptIn_full_iff (h : db.fullReindex ix hash root files now = .ok (stats, db')) :
    KeptIn ix tree now db db' ↔ ix.otel = true ∨ db.storage.traceSpans.rows = [] := by
  obtain ⟨⟨nodes, total⟩, -, h⟩ := bind_eq_ok.mp h
  obtain ⟨⟨stats', s⟩, hrun, h⟩ := bind_eq_ok.mp h
  cases h
  have hspans : db.storage.traceSpans.rows.map TraceSpan.kept ⊆
      s.traceSpans.rows.map TraceSpan.kept ↔ ix.otel = true ∨ db.storage.traceSpans.rows = [] := by
    cases hotel : ix.otel with
    | true =>
      exact iff_of_true (fun k hk => (fullReindex_spans hrun).mpr ⟨hotel, hk⟩) (.inl rfl)
    | false =>
      have hnone : s.traceSpans.rows.map TraceSpan.kept = [] :=
        eq_nil_iff_forall_not_mem.mpr fun k hk => by
          simpa [hotel] using (fullReindex_spans hrun).mp hk
      rw [hnone, subset_nil, map_eq_nil_iff]
      simp
  exact ⟨fun hkept => hspans.mp hkept.spans,
    fun hcase => ⟨hspans.mpr hcase, notes_of_perm (live_carryOver _ _)⟩⟩

theorem incrementalReindex_spans (h : ix.incrementalReindex active files changed = .ok (stats, s)) :
    s.traceSpans = active.traceSpans :=
  incrementalReindex_frame (f := SqliteStorage.traceSpans) (fun _ _ => rfl) (fun _ _ => rfl)
    (fun _ _ => rfl) h

theorem keptIn_incremental
    (h : db.incrementalReindex ix hash root files now changed = .ok (stats, db')) :
    KeptIn ix tree now db db' := by
  unfold incrementalReindex at h
  split at h
  · obtain ⟨⟨stats', s⟩, hrun, h⟩ := bind_eq_ok.mp h
    cases h
    refine ⟨?_, notes_of_perm (List.Perm.refl _)⟩
    rw [incrementalReindex_spans hrun]
    exact List.Subset.refl _
  · obtain ⟨nodes, -, h⟩ := bind_eq_ok.mp h
    obtain ⟨⟨stats', s⟩, hrun, h⟩ := bind_eq_ok.mp h
    cases h
    refine ⟨?_, notes_of_perm (List.Perm.of_eq (live_reattach _ _))⟩
    rw [incrementalReindex_spans hrun]
    exact List.Subset.refl _

end kept

end NotedStorage

/-! ## A run and what it keeps -/

namespace NotedWorkspace

variable {ix : Indexer} {hash : String → String} {now : Int} {w : NotedWorkspace}
  {incremental : Bool}

theorem recordCommit_activeDb (w : NotedWorkspace) (weave : NotedDir) :
    (w.recordCommit weave).activeDb = weave.activeDb := by
  unfold recordCommit
  split
  · rfl
  · split <;> rfl

theorem reindex_eq_ok {files : List SourceFile} {stats : IndexStats} {weave : NotedDir}
    (h : w.reindex ix hash now files incremental = .ok (stats, weave)) :
    ∃ db, (match w.forget.incrementalChange ix incremental with
      | some (_, changed) => w.openActive.incrementalReindex ix hash w.tree files now changed
      | none => w.openActive.fullReindex ix hash w.tree files now) = .ok (stats, db) ∧
      weave.activeDb = some db := by
  unfold reindex at h
  cases hchange : w.forget.incrementalChange ix incremental with
  | some change =>
    rw [hchange] at h
    obtain ⟨⟨stats', db⟩, hdb, h⟩ := bind_eq_ok.mp h
    cases h
    exact ⟨db, hdb, rfl⟩
  | none =>
    rw [hchange] at h
    obtain ⟨⟨stats', db⟩, hdb, h⟩ := bind_eq_ok.mp h
    cases h
    exact ⟨db, hdb, rfl⟩

theorem openActive_usable (w : NotedWorkspace) : w.usable.openActive = w.openActive := by
  unfold usable
  split <;> rfl

theorem incrementalChange_usable (w : NotedWorkspace) : w.usable.forget.incrementalChange ix
    incremental = w.forget.incrementalChange ix incremental := by
  unfold usable
  split <;> rfl

theorem cmdIndex_eq (w : NotedWorkspace) : w.cmdIndex ix hash now incremental =
    if w.isUpToDate then (.ok (.alreadyUpToDate (w.repo.head.getD "")), w)
    else
      match w.restorable with
      | some snapshot => (.ok (.restored (w.repo.head.getD "")), { w with
          weave := { w.weave with activeDb := some snapshot, lastIndexedSha := w.repo.head } })
      | none => w.usable.slowRun ix hash now incremental := by
  unfold cmdIndex restorable isUpToDate
  cases hok : w.weave.extractorVersionMatches with
  | false => simp [slowRun, usable, hok]
  | true =>
    simp only [if_true, Bool.true_and]
    unfold tryFastPath NotedDir.restoreSnapshot
    have hsha : w.forget.currentSha = w.repo.head := rfl
    cases hcur : w.repo.head with
    | none => simp [hsha, hcur, slowRun, usable, hok]
    | some cur =>
      by_cases hlast : w.weave.lastIndexedSha = some cur ∧ w.weave.activeDb.isSome
      · simp [forget, Workspace.currentSha, hcur, hlast.1, hlast.2]
      · have hnot : (w.weave.lastIndexedSha == some cur && w.weave.activeDb.isSome) = false := by
          simpa using hlast
        simp only [forget, Workspace.currentSha, hcur, if_neg hlast, Option.any_some, hnot]
        cases hsnap : w.weave.snapshots cur with
        | some snapshot => simp [NotedDir.writeLastIndexedSha, hsnap]
        | none => simp [slowRun, usable, hok, hsnap]

theorem cmdIndex_cases {report : IndexReport}
    (h : (w.cmdIndex ix hash now incremental).1 = .ok report) :
    (w.restorable = none ∧ w.isFullRun ix incremental = false ∧
      (w.cmdIndex ix hash now incremental).2.openActive = w.openActive) ∨
    (w.isFullRun ix incremental = false ∧
      w.restorable = some (w.cmdIndex ix hash now incremental).2.openActive) ∨
    (w.restorable = none ∧ w.isFullRun ix incremental = false ∧ ∃ changed stats,
      w.openActive.incrementalReindex ix hash w.tree (ix.discoverFiles w.tree) now changed =
        .ok (stats, (w.cmdIndex ix hash now incremental).2.openActive)) ∨
    (w.restorable = none ∧ w.isFullRun ix incremental = true ∧ ∃ stats,
      w.openActive.fullReindex ix hash w.tree (ix.discoverFiles w.tree) now =
        .ok (stats, (w.cmdIndex ix hash now incremental).2.openActive)) := by
  rw [cmdIndex_eq] at h ⊢
  by_cases hup : w.isUpToDate = true
  · rw [if_pos hup]
    refine .inl ⟨?_, ?_, rfl⟩
    · simp [restorable, hup]
    · simp [isFullRun, hup]
  · rw [if_neg hup] at h ⊢
    cases hrest : w.restorable with
    | some snapshot =>
      refine .inr (.inl ⟨?_, rfl⟩)
      simp [isFullRun, hrest]
    | none =>
      rw [hrest] at h
      unfold slowRun at h ⊢
      have htree : w.usable.tree = w.tree := rfl
      rw [htree] at h ⊢
      by_cases hempty : (ix.discoverFiles w.tree).isEmpty = true
      · rw [if_pos hempty]
        refine .inl ⟨rfl, ?_, openActive_usable w⟩
        simp [isFullRun, hempty]
      · rw [if_neg hempty] at h ⊢
        cases hrun : w.usable.reindex ix hash now (ix.discoverFiles w.tree) incremental with
        | error e =>
          rw [hrun] at h
          cases h
        | ok x =>
          obtain ⟨stats, weave⟩ := x
          obtain ⟨db, hdb, hactive⟩ := reindex_eq_ok hrun
          have hopen : openActive ⟨w.usable.repo, w.tree, w.usable.recordCommit weave⟩ = db := by
            unfold openActive
            rw [recordCommit_activeDb, hactive]
            rfl
          rw [hopen]
          rw [incrementalChange_usable, openActive_usable] at hdb
          cases hchange : w.forget.incrementalChange ix incremental with
          | some change =>
            rw [hchange] at hdb
            refine .inr (.inr (.inl ⟨rfl, ?_, change.2, stats, hdb⟩))
            simp [isFullRun, hchange]
          | none =>
            rw [hchange] at hdb
            refine .inr (.inr (.inr ⟨rfl, ?_, stats, hdb⟩))
            simp [isFullRun, hchange, hup, hrest, hempty]

/-- **What `weave index` keeps.**  A run that succeeds keeps the user data exactly if the snapshot
it restores, if it restores one, has it, and no full run of a build that does not carry them over
meets a span. -/
theorem cmdIndex_keptIn_iff (ix : Indexer) (hash : String → String) (now : Int)
    (w : NotedWorkspace) (incremental : Bool) {report : IndexReport}
    (h : (w.cmdIndex ix hash now incremental).1 = .ok report) :
    NotedStorage.KeptIn ix w.tree now w.openActive
        (w.cmdIndex ix hash now incremental).2.openActive ↔
      (∀ snapshot ∈ w.restorable, NotedStorage.KeptIn ix w.tree now w.openActive snapshot) ∧
      (w.isFullRun ix incremental = true → ix.otel = true ∨
        w.openActive.storage.traceSpans.rows = []) := by
  rcases cmdIndex_cases h with ⟨hrest, hfull, hsame⟩ | ⟨hfull, hrest⟩ |
    ⟨hrest, hfull, changed, stats, hrun⟩ | ⟨hrest, hfull, stats, hrun⟩
  · rw [hsame, hrest, hfull]
    simp [NotedStorage.KeptIn.refl]
  · rw [hrest, hfull]
    simp
  · rw [hrest, hfull]
    simp [NotedStorage.keptIn_incremental hrun]
  · rw [NotedStorage.keptIn_full_iff hrun, hrest, hfull]
    simp

/-! ## A note pinned after the snapshot -/

def goIndexer : Indexer where
  langExtended := true
  docs := false
  otel := true
  extract _ _ := some ⟨[⟨"go", .function, 1, 1, "fn go()"⟩], [], []⟩
  parseMarkdown _ := ⟨[], [], [], [], []⟩

def goTree (source : String) : Tree := ⟨[⟨"go.rs", source⟩], nodup_singleton _⟩

def goRepo (head : String) : Repo where
  commits sha := if sha = "c1" then some (goTree "fn go() {}")
    else if sha = "c2" then some (goTree "fn go() { 1 }") else none
  head := some head

def goCheckout (w : NotedWorkspace) (sha source : String) : NotedWorkspace :=
  { w with repo := goRepo sha, tree := goTree source }

/-- A note pinned once the first commit is indexed, with the second checked out. -/
def notedSecond : NotedWorkspace :=
  let w : NotedWorkspace := ⟨goRepo "c1", goTree "fn go() {}", ⟨none, none, none, fun _ => none⟩⟩
  let w := (w.cmdIndex goIndexer id 0 false).2
  let db := w.openActive.runPin id w.tree (.cli "go" "entry point" true "note" 1)
  goCheckout { w with weave := { w.weave with activeDb := some db } } "c2" "fn go() { 1 }"

def notedBack : NotedWorkspace :=
  goCheckout (notedSecond.cmdIndex goIndexer id 2 true).2 "c1" "fn go() {}"

theorem cmdIndex_keeps_second :
    (notedSecond.cmdIndex goIndexer id 2 true).1 = .ok (.indexed ⟨1, 1, 0⟩) ∧
    notedSecond.openActive.notes.rows.length = 1 ∧
    NotedStorage.KeptIn goIndexer notedSecond.tree 2 notedSecond.openActive
      (notedSecond.cmdIndex goIndexer id 2 true).2.openActive := by
  have hok : (notedSecond.cmdIndex goIndexer id 2 true).1 = .ok (.indexed ⟨1, 1, 0⟩) := by rfl
  refine ⟨hok, by decide +kernel, (cmdIndex_keptIn_iff goIndexer id 2 notedSecond true hok).mpr ?_⟩
  exact ⟨by decide +kernel, fun _ => .inl rfl⟩

theorem cmdIndex_restore_loses_note :
    (notedBack.cmdIndex goIndexer id 3 false).1 = .ok (.restored "c1") ∧
    notedBack.openActive.notes.rows.map Note.content = ["entry point"] ∧
    symbolExists goIndexer notedBack.tree "go.rs#go" = true ∧
    (notedBack.cmdIndex goIndexer id 3 false).2.openActive.notes.rows = [] ∧
    ¬ NotedStorage.KeptIn goIndexer notedBack.tree 3 notedBack.openActive
      (notedBack.cmdIndex goIndexer id 3 false).2.openActive := by
  refine ⟨rfl, ?_⟩
  decide +kernel

end NotedWorkspace

end WeaveGraph

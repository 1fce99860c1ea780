import WeaveGraph.Cli.Cache
import WeaveGraph.Cli.Incremental

/-!
# What a history leaves in the active graph

The shortcuts of `weave index` go by commit ids, while the graph may have been built from a tree
that no commit holds.  A `Session` is a workspace together with the files its active graph was last
built from; along a history the active graph stays that of these files, and each snapshot that of
its commit (`Kept`), as long as incremental runs start from the files their changes are relative to.

* A run of `weave index` takes one of five routes (`cmdIndex_eq`).  It leaves the graph of the
  working tree if the route fits the tree (`Covered`, `exec_index_current`).
* `Fresh` is right if the runs that record the head index what the head holds (`Recorded`,
  `exec_fresh_current`).

Without these conditions both go wrong after a run on uncommitted edits (`exec_index_stale`,
`exec_fresh_stale`).
-/

namespace WeaveGraph

open Lib SqliteStorage Indexer Lib.Text Workspace

/-! ## Graphs and the files they are built from -/

namespace Indexer

/-- The database holds the graph of the files, and in a form that incremental runs can go on
from. -/
structure BuiltFrom (ix : Indexer) (files : List SourceFile) (s : SqliteStorage) : Prop where
  graph : ∃ active stats s₁, ix.fullReindex active files = .ok (stats, s₁) ∧ SameGraph s s₁
  mirrors : ix.Undocumented files → OneFileEach ((ix.codeNodes files).rows.map owner) →
    Mirrors ix files s

section builtFrom

variable {ix : Indexer}

variable {s t : SqliteStorage} {stats : IndexStats}

theorem builtFrom_full {files : List SourceFile} {active : SqliteStorage}
    (h : ix.fullReindex active files = .ok (stats, s)) : BuiltFrom ix files s where
  graph := ⟨active, stats, s, h, fun _ => Iff.rfl, fun _ => Iff.rfl, fun _ => Iff.rfl⟩
  mirrors hdocs hone := by
    obtain ⟨stats', hok⟩ := fullReindex_eq ix active files hdocs
    rw [hok] at h
    cases h
    exact (fullRun_carryOverSpans ix files active).mirrors hone

theorem builtFrom_nil (ix : Indexer) : BuiltFrom ix [] openFresh := by
  have h : ix.fullReindex openFresh [] = .ok (⟨0, 0, 0⟩, openFresh) := by
    unfold fullReindex indexDocs carryOverSpans
    cases ix.docs <;> cases ix.otel <;> rfl
  exact builtFrom_full h

section edit

variable {e : Edit} (h : BuiltFrom ix e.before s) (hbefore : ix.Undocumented e.before)
  (hafter : ix.Undocumented e.after)
  (hrun : ix.incrementalReindex s e.after e.changed = .ok (stats, t))

include h hbefore hafter hrun

/-- An incremental run for exactly what differs builds what a full run builds if the edit is
settled. -/
theorem BuiltFrom.sameGraph_incremental (hapart : e.Apart ix) :
    ∃ stats₁ s₁, ix.fullReindex openFresh e.after = .ok (stats₁, s₁) ∧
      (SameGraph t s₁ ↔ e.Settled ix) := by
  have hs := h.mirrors hbefore (oneFileEach_rows hapart Edit.owned_before)
  obtain ⟨y, hy, rfl⟩ := (incrementalReindex_eq hs hafter t).mp ⟨stats, hrun⟩
  obtain ⟨stats₁, hok⟩ := fullReindex_eq ix openFresh e.after hafter
  have hs₁ := fullRun_carryOverSpans ix e.after openFresh
  exact ⟨stats₁, _, hok, sameGraph_relinked_iff hapart hs hs₁ hy⟩

/-- **An incremental run for a settled edit goes on from the graph of the tree before it.** -/
theorem BuiltFrom.incremental (hset : e.SettledInOrder ix) : BuiltFrom ix e.after t := by
  obtain ⟨stats₁, s₁, hok, hsame⟩ := h.sameGraph_incremental hbefore hafter hrun hset.apart
  refine ⟨⟨openFresh, stats₁, s₁, hok, hsame.mpr hset.settled⟩, fun _ _ => ?_⟩
  have hs := h.mirrors hbefore (oneFileEach_rows hset.apart Edit.owned_before)
  obtain ⟨y, hy, rfl⟩ := (incrementalReindex_eq hs hafter t).mp ⟨stats, hrun⟩
  exact mirrors_relinked hs hset hy

end edit

end builtFrom

/-- The list names exactly the files that differ. -/
structure Separates (before after : List SourceFile) (changed : List String) : Prop where
  before_nodup : (before.map SourceFile.rel).Nodup
  after_nodup : (after.map SourceFile.rel).Nodup
  exact : ∀ rel ∈ changed ++ before.map SourceFile.rel ++ after.map SourceFile.rel,
    rel ∈ changed ↔ textAt before rel ≠ textAt after rel

instance (before after : List SourceFile) (changed : List String) :
    Decidable (Separates before after changed) :=
  decidable_of_iff (_ ∧ _ ∧ _)
    ⟨fun h => ⟨h.1, h.2.1, h.2.2⟩, fun h => ⟨h.before_nodup, h.after_nodup, h.exact⟩⟩

def Separates.edit {before after : List SourceFile} {changed : List String}
    (h : Separates before after changed) : Edit where
  before := before
  after := after
  changed := changed
  before_nodup := h.before_nodup
  after_nodup := h.after_nodup
  exact := exact_of_mem h.exact

/-- A run for the changed files turns the graph of `before` into that of `after`: they are all that
changed, none of the two trees is documented, and what changed is settled. -/
def Carries (ix : Indexer) (before after : List SourceFile) (changed : List String) : Prop :=
  (changed = [] ∧ before = after) ∨ ((ix.Undocumented before ∧ ix.Undocumented after) ∧
      ∃ h : Separates before after changed, h.edit.SettledInOrder ix)

instance (ix : Indexer) (before after : List SourceFile) (changed : List String) :
    Decidable (Carries ix before after changed) :=
  inferInstanceAs (Decidable (_ ∨ _ ∧ ∃ _ : _, _))

theorem Carries.builtFrom {ix : Indexer} {before after : List SourceFile} {changed : List String}
    {s t : SqliteStorage} {stats : IndexStats} (h : Carries ix before after changed)
    (hs : BuiltFrom ix before s) (hrun : ix.incrementalReindex s after changed = .ok (stats, t)) :
    BuiltFrom ix after t := by
  rcases h with ⟨rfl, rfl⟩ | ⟨⟨hbefore, hafter⟩, hsep, hset⟩
  · cases hrun
    exact hs
  · exact BuiltFrom.incremental (e := hsep.edit) hs hbefore hafter hrun hset

end Indexer

namespace Workspace

/-! ## The routes of a run -/

variable (ix : Indexer) (w : Workspace)

/-- How `weave index` gets at its result. -/
inductive Route where
  | upToDate (sha : String)
  | restore (sha : String) (snapshot : SqliteStorage)
  | noFiles
  | incremental (active : SqliteStorage) (changed : List String)
  | full

def slowRoute (incremental : Bool) : Route :=
  if (ix.discoverFiles w.tree).isEmpty then .noFiles
  else
    match w.incrementalChange ix incremental with
    | some (active, changed) => .incremental active changed
    | none => .full

def route (incremental : Bool) : Route :=
  match w.currentSha with
  | none => w.slowRoute ix incremental
  | some cur =>
    if w.weave.extractorVersionMatches then
      if w.weave.lastIndexedSha = some cur ∧ w.weave.activeDb.isSome then .upToDate cur
      else
        match w.weave.snapshots cur with
        | some snapshot => .restore cur snapshot
        | none => w.slowRoute ix incremental
    else w.slowRoute ix incremental

/-- Snapshots of another extractor are dropped. -/
def usable : WeaveDir :=
  if w.weave.extractorVersionMatches then w.weave else w.weave.clearSnapshotCache

def finish : Except StorageError (IndexStats × SqliteStorage) →
    Except StorageError IndexReport × Workspace
  | .error e => (.error e, { w with weave := w.usable })
  | .ok (stats, db) => (.ok (.indexed stats), { w with
      weave := w.recordCommit { w.usable with
        activeDb := some db, extractorVersion := some currentExtractorVersion } })

theorem incrementalChange_usable (incremental : Bool) :
    { w with weave := w.usable }.incrementalChange ix incremental =
      w.incrementalChange ix incremental := by
  unfold usable
  split <;> rfl

theorem openActive_usable : w.usable.activeDb.getD openFresh = w.openActive := by
  unfold usable
  split <;> rfl

def outcome : Route → Except StorageError IndexReport × Workspace
  | .upToDate sha => (.ok (.alreadyUpToDate sha), w)
  | .restore sha snapshot => (.ok (.restored sha), { w with
      weave := { w.weave with activeDb := some snapshot, lastIndexedSha := some sha } })
  | .noFiles => (.ok .noFiles, { w with weave := w.usable })
  | .incremental active changed =>
    w.finish (ix.incrementalReindex active (ix.discoverFiles w.tree) changed)
  | .full => w.finish (ix.fullReindex w.openActive (ix.discoverFiles w.tree))

theorem outcome_slowRoute (incremental : Bool) :
    (if (ix.discoverFiles w.tree).isEmpty then (.ok .noFiles, { w with weave := w.usable })
    else
      match { w with weave := w.usable }.reindex ix (ix.discoverFiles w.tree) incremental with
      | .error e => (.error e, { w with weave := w.usable })
      | .ok (stats, weave) =>
        (.ok (.indexed stats), { w with weave := w.recordCommit weave })) =
      w.outcome ix (w.slowRoute ix incremental) := by
  unfold slowRoute reindex
  rw [incrementalChange_usable]
  rw [openActive_usable]
  split
  · rfl
  · cases hchange : w.incrementalChange ix incremental with
    | some x =>
      unfold outcome finish
      dsimp only
      cases ix.incrementalReindex x.1 (ix.discoverFiles w.tree) x.2 <;> rfl
    | none =>
      unfold outcome finish
      cases ix.fullReindex w.openActive (ix.discoverFiles w.tree) <;> rfl

theorem cmdIndex_eq (incremental : Bool) :
    w.cmdIndex ix incremental = w.outcome ix (w.route ix incremental) := by
  have hslow := w.outcome_slowRoute ix incremental
  unfold usable at hslow
  unfold cmdIndex route
  cases hok : w.weave.extractorVersionMatches with
  | false =>
    simp only [hok, Bool.false_eq_true, if_false] at hslow ⊢
    cases w.currentSha <;> exact hslow
  | true =>
    simp only [hok, if_true] at hslow ⊢
    unfold tryFastPath
    cases hcur : w.currentSha with
    | none => exact hslow
    | some cur =>
      by_cases hlast : w.weave.lastIndexedSha = some cur ∧ w.weave.activeDb.isSome
      · simp only [if_pos hlast]
        rfl
      · simp only [if_neg hlast]
        unfold WeaveDir.restoreSnapshot
        cases w.weave.snapshots cur with
        | some snapshot => rfl
        | none => exact hslow

variable {ix w} in
theorem activeDb_of_incrementalChange {incremental : Bool} {x : SqliteStorage × List String}
    (h : w.incrementalChange ix incremental = some x) : w.weave.activeDb = some x.1 := by
  unfold incrementalChange at h
  split at h
  · cases hactive : w.weave.activeDb with
    | none => simp [hactive] at h
    | some active =>
      cases hsince : w.weave.lastIndexedSha.bind w.changedSince with
      | none => simp [hactive, hsince] at h
      | some changed =>
        simp only [hactive, hsince] at h
        split at h
        · cases h
        · cases h
          rfl
  · cases h

/-- What the choice of a route rests on. -/
def Grounds : Route → Prop
  | .upToDate sha => w.currentSha = some sha ∧ w.weave.lastIndexedSha = some sha
  | .restore sha snapshot => w.currentSha = some sha ∧ w.weave.snapshots sha = some snapshot
  | .noFiles => ix.discoverFiles w.tree = []
  | .incremental active _ => w.weave.activeDb = some active
  | .full => True

theorem grounds_slowRoute (incremental : Bool) : w.Grounds ix (w.slowRoute ix incremental) := by
  unfold slowRoute
  by_cases hempty : (ix.discoverFiles w.tree).isEmpty
  · rw [if_pos hempty]
    exact List.isEmpty_iff.mp hempty
  · rw [if_neg hempty]
    cases hchange : w.incrementalChange ix incremental with
    | none => trivial
    | some x => exact activeDb_of_incrementalChange hchange

theorem grounds_route (incremental : Bool) : w.Grounds ix (w.route ix incremental) := by
  have hslow := w.grounds_slowRoute ix incremental
  unfold route
  cases hcur : w.currentSha with
  | none => exact hslow
  | some cur =>
    dsimp only
    by_cases hok : w.weave.extractorVersionMatches
    · rw [if_pos hok]
      by_cases hlast : w.weave.lastIndexedSha = some cur ∧ w.weave.activeDb.isSome
      · rw [if_pos hlast]
        exact ⟨hcur, hlast.1⟩
      · rw [if_neg hlast]
        cases hsnap : w.weave.snapshots cur with
        | some snapshot => exact ⟨hcur, hsnap⟩
        | none => exact hslow
    · rw [if_neg hok]
      exact hslow

def finishWatch : Except StorageError (IndexStats × SqliteStorage) →
    Except StorageError Bool × Workspace
  | .error e => (.error e, { w with weave := { w.weave with activeDb := some w.openActive } })
  | .ok (_, db) => (.ok true, { w with
      weave := { w.weave with
        activeDb := some db, lastIndexedSha := w.currentSha.or w.weave.lastIndexedSha } })

theorem watchTick_eq (ceiling : Nat) (changed : List String) :
    w.watchTick ix ceiling changed =
      if w.isDeferred ceiling (sortedSet changed) then
        (.ok false, { w with weave := { w.weave with activeDb := some w.openActive } })
      else w.finishWatch (ix.incrementalReindex w.openActive (ix.discoverFiles w.tree)
        (sortedSet changed)) := by
  have hopen : { w with weave := { w.weave with activeDb := some w.openActive } }.isDeferred
      ceiling (sortedSet changed) = w.isDeferred ceiling (sortedSet changed) := rfl
  unfold watchTick
  dsimp only
  rw [hopen]
  split
  · rfl
  · unfold finishWatch currentSha
    cases ix.incrementalReindex w.openActive (ix.discoverFiles w.tree) (sortedSet changed) with
    | error e => rfl
    | ok x => cases w.repo.head <;> rfl

/-- The active graph has the nodes and edges a full run would build from the working tree. -/
def Current : Prop :=
  ∃ stats s, ix.fullReindex w.openActive (ix.discoverFiles w.tree) = .ok (stats, s) ∧
    (∀ d, d ∈ w.openActive.nodes.rows.map Node.data ↔ d ∈ s.nodes.rows.map Node.data) ∧
    ∀ x, x ∈ edgeView w.openActive ↔ x ∈ edgeView s

instance : Decidable (w.Current ix) :=
  match h : ix.fullReindex w.openActive (ix.discoverFiles w.tree) with
  | .error _ => isFalse fun ⟨_, _, hok, _⟩ => by
    rw [h] at hok
    cases hok
  | .ok (stats, s) =>
    decidable_of_iff
      (((∀ d ∈ w.openActive.nodes.rows.map Node.data, d ∈ s.nodes.rows.map Node.data) ∧
          ∀ d ∈ s.nodes.rows.map Node.data, d ∈ w.openActive.nodes.rows.map Node.data) ∧
        (∀ x ∈ edgeView w.openActive, x ∈ edgeView s) ∧
          ∀ x ∈ edgeView s, x ∈ edgeView w.openActive) <| by
      constructor
      · rintro ⟨⟨hn, hn'⟩, he, he'⟩
        exact ⟨stats, s, h, fun d => ⟨hn d, hn' d⟩, fun x => ⟨he x, he' x⟩⟩
      · rintro ⟨_, _, hok, hn, he⟩
        rw [h] at hok
        cases hok
        exact ⟨⟨fun d => (hn d).mp, fun d => (hn d).mpr⟩, fun x => (he x).mp, fun x => (he x).mpr⟩

variable {ix w} in
theorem current_of_builtFrom (h : BuiltFrom ix (ix.discoverFiles w.tree) w.openActive) :
    w.Current ix := by
  obtain ⟨active, stats, s₁, hrun, hsame⟩ := h.graph
  obtain ⟨s, hs, hnodes, hedges, -⟩ := fullReindex_graph hrun w.openActive
  have hview : edgeView s = edgeView s₁ := by
    unfold edgeView getNode
    rw [hnodes, hedges]
  refine ⟨stats, s, hs, fun d => ?_, fun x => ?_⟩
  · rw [hnodes]
    exact hsame.nodes d
  · rw [hview]
    exact hsame.edges x

def commitFiles (sha : String) : Option (List SourceFile) :=
  (w.repo.commits sha).map ix.discoverFiles

variable {w}

variable {sha : String} {db : SqliteStorage}

theorem commits_of_clean (hcur : w.currentSha = some sha) (hclean : w.isWorkingTreeClean = true) :
    w.repo.commits sha = some w.tree := by
  unfold isWorkingTreeClean at hclean
  rw [hcur, Option.bind_some] at hclean
  exact of_decide_eq_true hclean

theorem snapshots_usable (h : w.usable.snapshots sha = some db) :
    w.weave.snapshots sha = some db := by
  unfold usable at h
  split at h
  · exact h
  · cases h

variable (w) in
theorem recordCommit_activeDb (weave : WeaveDir) :
    (w.recordCommit weave).activeDb = weave.activeDb := by
  unfold recordCommit
  split
  · rfl
  · split <;> rfl

variable (w) in
theorem recordCommit_lastIndexedSha (weave : WeaveDir) :
    (w.recordCommit weave).lastIndexedSha = w.currentSha.or weave.lastIndexedSha := by
  unfold recordCommit
  split <;> rename_i hcur
  · rw [hcur]
    rfl
  · rw [hcur]
    split <;> rfl

theorem snapshots_recordCommit {weave : WeaveDir}
    (h : (w.recordCommit weave).snapshots sha = some db) : weave.snapshots sha = some db ∨
      (w.repo.commits sha = some w.tree ∧ weave.activeDb = some db) := by
  unfold recordCommit at h
  split at h
  · exact Or.inl h
  · rename_i cur hcur
    split at h
    · rename_i hclean
      by_cases hsha : sha = cur
      · subst hsha
        rw [WeaveDir.saveSnapshot] at h
        exact Or.inr ⟨commits_of_clean hcur hclean, by simpa [WeaveDir.writeLastIndexedSha] using h⟩
      · rw [WeaveDir.saveSnapshot] at h
        exact Or.inl (by simpa [Function.update_of_ne hsha, WeaveDir.writeLastIndexedSha] using h)
    · exact Or.inl h

end Workspace

/-! ## Sessions -/

/-- A workspace, and the files its active graph was last built from. -/
structure Session where
  workspace : Workspace
  indexed : List SourceFile

namespace Session

variable (ix : Indexer)

def start (repo : Repo) (tree : Tree) : Session := ⟨⟨repo, tree, .empty⟩, []⟩

def files (s : Session) : List SourceFile := ix.discoverFiles s.workspace.tree

/-- The files the active graph stands for after `weave index` returned. -/
def afterIndex (s : Session) : Except StorageError IndexReport → List SourceFile
  | .ok (.restored sha) => (s.workspace.commitFiles ix sha).getD s.indexed
  | .ok (.indexed _) => s.files ix
  | _ => s.indexed

def afterWatch (s : Session) : Except StorageError Bool → List SourceFile
  | .ok true => s.files ix
  | _ => s.indexed

def indexedAfter (s : Session) : Workspace.Event → List SourceFile
  | .index incremental => s.afterIndex ix (s.workspace.cmdIndex ix incremental).1
  | .watch ceiling changed => s.afterWatch ix (s.workspace.watchTick ix ceiling changed).1
  | _ => s.indexed

def step (s : Session) (event : Workspace.Event) : Option Session :=
  (s.workspace.step ix event).map fun w => ⟨w, s.indexedAfter ix event⟩

/-- An incremental run starts from the graph of the files that its changed files lead on from. -/
def Incremental (s : Session) : Workspace.Event → Prop
  | .index incremental =>
    match s.workspace.route ix incremental with
    | .incremental _ changed => Carries ix s.indexed (s.files ix) changed
    | _ => True
  | .watch ceiling changed =>
    s.workspace.isDeferred ceiling (sortedSet changed) = true ∨
      Carries ix s.indexed (s.files ix) (sortedSet changed)
  | _ => True

/-- The active graph is that of the files last indexed, each snapshot that of its commit. -/
structure Kept (s : Session) : Prop where
  graph : BuiltFrom ix s.indexed s.workspace.openActive
  snapshots : ∀ sha db, s.workspace.weave.snapshots sha = some db →
    ∃ files, s.workspace.commitFiles ix sha = some files ∧ BuiltFrom ix files db

variable {ix}

theorem kept_start (repo : Repo) (tree : Tree) : Kept ix (start repo tree) where
  graph := builtFrom_nil ix
  snapshots _ _ h := by cases h

variable {s : Session} {w : Workspace} {changed : List String} {event : Workspace.Event}

theorem Kept.snapshots_usable (h : Kept ix s) {sha : String} {db : SqliteStorage}
    (hdb : s.workspace.usable.snapshots sha = some db) :
    ∃ files, s.workspace.commitFiles ix sha = some files ∧ BuiltFrom ix files db :=
  h.snapshots sha db (Workspace.snapshots_usable hdb)

theorem Kept.usable (h : Kept ix s) :
    Kept ix ⟨{ s.workspace with weave := s.workspace.usable }, s.indexed⟩ where
  graph := by
    unfold Workspace.openActive
    rw [openActive_usable]
    exact h.graph
  snapshots _ _ hdb := h.snapshots_usable hdb

/-- A reindex that succeeds leaves the graph of the tree, one that fails leaves things alone. -/
theorem Kept.finish {s : Session} (h : Kept ix s)
    {result : Except StorageError (IndexStats × SqliteStorage)}
    (hresult : ∀ stats db, result = .ok (stats, db) → BuiltFrom ix (s.files ix) db) :
    Kept ix ⟨(s.workspace.finish result).2, s.afterIndex ix (s.workspace.finish result).1⟩ := by
  cases result with
  | error e => exact h.usable
  | ok x =>
    have hdb := hresult x.1 x.2 rfl
    refine ⟨?_, fun sha db hsnap => ?_⟩
    · unfold Workspace.openActive Workspace.finish
      rw [recordCommit_activeDb]
      exact hdb
    · rcases snapshots_recordCommit hsnap with hold | ⟨htree, hnew⟩
      · exact h.snapshots_usable hold
      · cases hnew
        exact ⟨s.files ix, congrArg (Option.map ix.discoverFiles) htree, hdb⟩

theorem commitFiles_commit {sha sha' : String} {staged : Tree} {files : List SourceFile}
    (hnew : ¬ (w.repo.commits sha).isSome) (h : w.commitFiles ix sha' = some files) :
    { w with repo := ⟨Function.update w.repo.commits sha (some staged), some sha⟩ }.commitFiles ix
      sha' = some files := by
  unfold Workspace.commitFiles at h ⊢
  obtain ⟨tree, htree, -⟩ := Option.map_eq_some_iff.mp h
  have hne : sha' ≠ sha := by
    rintro rfl
    exact hnew (by rw [htree]; rfl)
  dsimp only
  rw [Function.update_of_ne hne]
  exact h

theorem kept_index (h : Kept ix s) {incremental : Bool}
    (hinc : s.Incremental ix (.index incremental)) :
    Kept ix ⟨(s.workspace.cmdIndex ix incremental).2,
      s.afterIndex ix (s.workspace.cmdIndex ix incremental).1⟩ := by
  have hspec := s.workspace.grounds_route ix incremental
  rw [cmdIndex_eq]
  cases hroute : s.workspace.route ix incremental with
  | upToDate sha => exact h
  | restore sha snapshot =>
    rw [hroute] at hspec
    obtain ⟨files, hfiles, hbuilt⟩ := h.snapshots sha snapshot hspec.2
    refine ⟨?_, h.snapshots⟩
    show BuiltFrom ix ((s.workspace.commitFiles ix sha).getD s.indexed) snapshot
    rw [hfiles]
    exact hbuilt
  | noFiles => exact h.usable
  | incremental active changed =>
    rw [hroute] at hspec
    simp only [Incremental, hroute] at hinc
    have hactive : s.workspace.openActive = active := by
      unfold Workspace.openActive
      rw [hspec]
      rfl
    exact h.finish fun _ _ hrun => hinc.builtFrom (hactive ▸ h.graph) hrun
  | full => exact h.finish fun _ _ hrun => builtFrom_full hrun

theorem kept_watch (h : Kept ix s) {ceiling : Nat}
    (hinc : s.Incremental ix (.watch ceiling changed)) :
    Kept ix ⟨(s.workspace.watchTick ix ceiling changed).2,
      s.afterWatch ix (s.workspace.watchTick ix ceiling changed).1⟩ := by
  rw [watchTick_eq]
  split
  · exact ⟨h.graph, h.snapshots⟩
  · rename_i hdefer
    have hcarries := hinc.resolve_left hdefer
    cases hrun : ix.incrementalReindex s.workspace.openActive (ix.discoverFiles s.workspace.tree)
        (sortedSet changed) with
    | error e => exact ⟨h.graph, h.snapshots⟩
    | ok x =>
      have hbuilt := hcarries.builtFrom h.graph hrun
      cases s.workspace.currentSha with
      | none => exact ⟨hbuilt, h.snapshots⟩
      | some cur => exact ⟨hbuilt, h.snapshots⟩

theorem kept_step {t : Session} (h : Kept ix s) (hinc : s.Incremental ix event)
    (hstep : s.step ix event = some t) : Kept ix t := by
  obtain ⟨w, hw, rfl⟩ := Option.map_eq_some_iff.mp hstep
  cases event with
  | edit tree =>
    cases hw
    exact ⟨h.graph, h.snapshots⟩
  | commit sha staged =>
    simp only [Workspace.step] at hw
    split at hw
    · cases hw
    · rename_i hnew
      cases hw
      refine ⟨h.graph, fun sha' db hdb => ?_⟩
      obtain ⟨files, hfiles, hbuilt⟩ := h.snapshots sha' db hdb
      exact ⟨files, commitFiles_commit hnew hfiles, hbuilt⟩
  | checkout sha =>
    obtain ⟨tree, htree, rfl⟩ := Option.map_eq_some_iff.mp hw
    exact ⟨h.graph, h.snapshots⟩
  | index incremental =>
    cases hw
    exact kept_index h hinc
  | watch ceiling changed =>
    cases hw
    exact kept_watch h hinc

/-! ## The result of `weave index` -/

variable (ix) in
/-- The shortcut a run takes fits the tree it is taken on: what was indexed last, what the restored
snapshot was taken of, or what the changed files lead to. -/
def Fits (s : Session) : Workspace.Route → Prop
  | .upToDate _ => s.indexed = s.files ix
  | .restore sha _ => s.workspace.commitFiles ix sha = some (s.files ix)
  | .noFiles => s.indexed = []
  | .incremental _ changed => Carries ix s.indexed (s.files ix) changed
  | .full => True

variable (ix) in
def Covered (s : Session) : Workspace.Event → Prop
  | .index incremental => s.Fits ix (s.workspace.route ix incremental)
  | event => s.Incremental ix event

theorem incremental_index {incremental : Bool}
    (h : ∀ active changed, s.workspace.route ix incremental = .incremental active changed →
      Carries ix s.indexed (s.files ix) changed) : s.Incremental ix (.index incremental) := by
  unfold Incremental
  dsimp only
  split
  · exact h _ _ ‹_›
  · trivial

theorem Covered.incremental (h : s.Covered ix event) : s.Incremental ix event := by
  cases event with
  | index incremental =>
    refine incremental_index fun active changed hroute => ?_
    unfold Covered at h
    dsimp only at h
    rw [hroute] at h
    exact h
  | edit tree => exact h
  | commit sha staged => exact h
  | checkout sha => exact h
  | watch ceiling changed => exact h

theorem Covered.afterIndex {incremental : Bool} {report : IndexReport}
    (h : s.Covered ix (.index incremental))
    (hok : s.workspace.cmdIndex ix incremental = (.ok report, w)) :
    s.afterIndex ix (.ok report) = s.files ix := by
  have hspec := s.workspace.grounds_route ix incremental
  unfold Covered at h
  dsimp only at h
  rw [cmdIndex_eq] at hok
  have hfinish : ∀ {result}, s.workspace.finish result = (.ok report, w) →
      s.afterIndex ix (.ok report) = s.files ix := by
    intro result hresult
    cases result with
    | error e => cases hresult
    | ok x =>
      cases hresult
      rfl
  cases hroute : s.workspace.route ix incremental with
  | upToDate sha =>
    rw [hroute] at h hok
    cases hok
    exact h
  | restore sha snapshot =>
    rw [hroute] at h hok
    cases hok
    show (s.workspace.commitFiles ix sha).getD s.indexed = s.files ix
    rw [show s.workspace.commitFiles ix sha = some (s.files ix) from h]
    rfl
  | noFiles =>
    rw [hroute] at h hok hspec
    cases hok
    exact Eq.trans h (Eq.symm hspec)
  | incremental active changed =>
    rw [hroute] at hok
    exact hfinish hok
  | full =>
    rw [hroute] at hok
    exact hfinish hok

theorem cmdIndex_tree (w : Workspace) (incremental : Bool) :
    (w.cmdIndex ix incremental).2.tree = w.tree ∧ (w.cmdIndex ix incremental).2.repo = w.repo := by
  have hfinish : ∀ result,
      (w.finish result).2.tree = w.tree ∧ (w.finish result).2.repo = w.repo := by
    intro result
    cases result <;> exact ⟨rfl, rfl⟩
  rw [cmdIndex_eq]
  cases w.route ix incremental with
  | incremental active changed => exact hfinish _
  | full => exact hfinish _
  | upToDate sha => exact ⟨rfl, rfl⟩
  | restore sha snapshot => exact ⟨rfl, rfl⟩
  | noFiles => exact ⟨rfl, rfl⟩

theorem exec_kept {guard : Session → Workspace.Event → Prop}
    (hguard : ∀ s event, guard s event → s.Incremental ix event) {repo : Repo} {tree : Tree}
    {l : List Workspace.Event} (hg : Guarded (step ix) guard (start repo tree) l)
    (hrun : exec (step ix) (start repo tree) l = some s) : Kept ix s :=
  exec_invariant (fun s event _ h hg hstep => kept_step h (hguard s event hg) hstep) l
    (kept_start repo tree) hg hrun

/-- **`weave index` leaves the graph of the working tree**, after any history whose runs fit the
tree they are made on. -/
theorem exec_index_current (ix : Indexer) (repo : Repo) (tree : Tree) {l : List Workspace.Event}
    {incremental : Bool} {s : Session} {report : IndexReport} {w : Workspace}
    (hrun : exec (step ix) (start repo tree) l = some s)
    (hg : Guarded (step ix) (Covered ix) (start repo tree) l)
    (hcov : s.Covered ix (.index incremental))
    (hok : s.workspace.cmdIndex ix incremental = (.ok report, w)) : w.Current ix := by
  have hkept := kept_index (exec_kept (fun _ _ => Covered.incremental) hg hrun) hcov.incremental
  have htree := (@cmdIndex_tree ix s.workspace incremental).1
  rw [hok] at hkept htree
  refine current_of_builtFrom ?_
  have hfiles : ix.discoverFiles w.tree = s.files ix := congrArg ix.discoverFiles htree
  rw [hfiles, ← hcov.afterIndex hok]
  exact hkept.graph

instance (s : Session) (route : Workspace.Route) : Decidable (s.Fits ix route) := by
  unfold Fits
  split <;> infer_instance

instance (s : Session) (event : Workspace.Event) : Decidable (s.Incremental ix event) := by
  unfold Incremental
  split
  · split <;> infer_instance
  · infer_instance
  · infer_instance

instance (s : Session) (event : Workspace.Event) : Decidable (s.Covered ix event) := by
  unfold Covered
  split <;> infer_instance

def oneCommit (tree : Tree) : Repo := ⟨fun sha => if sha = "c1" then some tree else none, some "c1"⟩

def helperTree : Tree where
  files := [⟨"a.rs", "main"⟩, ⟨"b.rs", "helper"⟩, ⟨"c.rs", "other"⟩]
  distinct := helperMoved.before_nodup

def movedTree : Tree where
  files := [⟨"a.rs", "main"⟩, ⟨"b.rs", "other"⟩, ⟨"c.rs", "helper"⟩]
  distinct := helperMoved.after_nodup

def movedHistory : List Workspace.Event :=
  [.index false, .edit movedTree, .commit "c2" movedTree]

/-- The next run reindexes what the commit changed. -/
theorem exec_index_current_moved : ∃ s report w,
    exec (step helperIndexer) (start (oneCommit helperTree) helperTree) movedHistory = some s ∧
    s.workspace.cmdIndex helperIndexer true = (.ok report, w) ∧ w.Current helperIndexer := by
  have hg : Guarded (step helperIndexer) (Covered helperIndexer)
      (start (oneCommit helperTree) helperTree) movedHistory := by decide +kernel
  obtain ⟨s, hs, hcov, hok⟩ : ∃ s, exec (step helperIndexer)
      (start (oneCommit helperTree) helperTree) movedHistory = some s ∧
      s.Covered helperIndexer (.index true) ∧
      (s.workspace.cmdIndex helperIndexer true).1.toOption = some (.indexed ⟨3, 3, 1⟩) :=
    exists_exec (by decide +kernel)
  cases hrun : s.workspace.cmdIndex helperIndexer true with
  | mk result w =>
    cases result with
    | error e =>
      rw [hrun] at hok
      cases hok
    | ok report =>
      exact ⟨s, report, w, hs, hrun, exec_index_current _ _ _ hs hg hcov hrun⟩

def editedHistory : List Workspace.Event := [.index false, .edit movedTree]

/-- The next run is on the recorded commit and stops. -/
theorem exec_index_stale : ∃ s,
    exec (step helperIndexer) (start (oneCommit helperTree) helperTree) editedHistory = some s ∧
    (s.workspace.cmdIndex helperIndexer true).1.toOption = some (.alreadyUpToDate "c1") ∧
    ¬ (s.workspace.cmdIndex helperIndexer true).2.Current helperIndexer :=
  exists_exec (by decide +kernel)

/-! ## The freshness check -/

variable (ix) in
/-- The head, if there is one, holds the files of the working tree. -/
def AtHead (s : Session) : Prop :=
  ∀ sha ∈ s.workspace.currentSha, s.workspace.commitFiles ix sha = some (s.files ix)
deriving Decidable

variable (ix) in
/-- A run that records the head indexes what the head holds. -/
def Recorded (s : Session) : Workspace.Event → Prop
  | .index incremental =>
    match s.workspace.route ix incremental with
    | .incremental _ changed => Carries ix s.indexed (s.files ix) changed ∧ s.AtHead ix
    | .full => s.AtHead ix
    | _ => True
  | .watch ceiling changed =>
    s.workspace.isDeferred ceiling (sortedSet changed) = true ∨
      (Carries ix s.indexed (s.files ix) (sortedSet changed) ∧ s.AtHead ix)
  | _ => True

theorem Recorded.incremental (h : s.Recorded ix event) : s.Incremental ix event := by
  cases event with
  | index incremental =>
    refine incremental_index fun active changed hroute => ?_
    unfold Recorded at h
    dsimp only at h
    rw [hroute] at h
    exact h.1
  | watch ceiling changed => exact h.imp_right And.left
  | edit tree => trivial
  | commit sha staged => trivial
  | checkout sha => trivial

variable (ix) in
/-- The recorded commit is the one whose files were indexed last; nothing is recorded before the
first commit. -/
structure RecordKept (s : Session) : Prop where
  files : ∀ sha, s.workspace.weave.lastIndexedSha = some sha →
    s.workspace.commitFiles ix sha = some s.indexed
  headless : s.workspace.currentSha = none → s.workspace.weave.lastIndexedSha = none

theorem recordKept_start (repo : Repo) (tree : Tree) : RecordKept ix (start repo tree) where
  files _ h := by cases h
  headless _ := rfl

theorem RecordKept.reindexed (h : RecordKept ix s) (hhead : s.AtHead ix)
    (hrepo : w.repo = s.workspace.repo)
    (hlast : w.weave.lastIndexedSha = s.workspace.currentSha.or s.workspace.weave.lastIndexedSha) :
    RecordKept ix ⟨w, s.files ix⟩ := by
  have hcommit : ∀ sha, w.commitFiles ix sha = s.workspace.commitFiles ix sha := by
    intro sha
    unfold Workspace.commitFiles
    rw [hrepo]
  refine ⟨fun sha hsha => ?_, fun hnone => ?_⟩
  · rw [hcommit]
    rw [hlast] at hsha
    cases hcur : s.workspace.currentSha with
    | none =>
      rw [hcur, Option.none_or, h.headless hcur] at hsha
      cases hsha
    | some cur =>
      rw [hcur, Option.some_or] at hsha
      exact hhead sha (by rw [hcur]; exact hsha)
  · have hcur : s.workspace.currentSha = none := by
      unfold Workspace.currentSha at hnone ⊢
      rw [← hrepo]
      exact hnone
    rw [hlast, hcur, Option.none_or, h.headless hcur]

theorem usable_lastIndexedSha (w : Workspace) :
    w.usable.lastIndexedSha = w.weave.lastIndexedSha := by
  unfold Workspace.usable
  split <;> rfl

theorem RecordKept.usable (h : RecordKept ix s) :
    RecordKept ix ⟨{ s.workspace with weave := s.workspace.usable }, s.indexed⟩ where
  files sha hsha := h.files sha ((usable_lastIndexedSha s.workspace).symm.trans hsha)
  headless hnone := (usable_lastIndexedSha s.workspace).trans (h.headless hnone)

theorem RecordKept.finish {s : Session} (h : RecordKept ix s) (hhead : s.AtHead ix)
    (result : Except StorageError (IndexStats × SqliteStorage)) :
    RecordKept ix ⟨(s.workspace.finish result).2,
      s.afterIndex ix (s.workspace.finish result).1⟩ := by
  cases result with
  | error e => exact h.usable
  | ok x =>
    refine h.reindexed hhead rfl ?_
    unfold Workspace.finish
    rw [recordCommit_lastIndexedSha]
    exact congrArg _ (usable_lastIndexedSha s.workspace)

theorem recordKept_index (h : RecordKept ix s) (hkept : Kept ix s) {incremental : Bool}
    (hrec : s.Recorded ix (.index incremental)) :
    RecordKept ix ⟨(s.workspace.cmdIndex ix incremental).2,
      s.afterIndex ix (s.workspace.cmdIndex ix incremental).1⟩ := by
  have hspec := s.workspace.grounds_route ix incremental
  unfold Recorded at hrec
  dsimp only at hrec
  rw [cmdIndex_eq]
  cases hroute : s.workspace.route ix incremental with
  | upToDate sha => exact h
  | restore sha snapshot =>
    rw [hroute] at hspec
    obtain ⟨files, hfiles, -⟩ := hkept.snapshots sha snapshot hspec.2
    refine ⟨fun sha' hsha' => ?_, fun hnone => ?_⟩
    · cases hsha'
      show s.workspace.commitFiles ix sha = some ((s.workspace.commitFiles ix sha).getD s.indexed)
      rw [hfiles]
      rfl
    · exact absurd (hspec.1.symm.trans hnone) (Option.some_ne_none sha)
  | noFiles => exact h.usable
  | incremental active changed =>
    rw [hroute] at hrec
    exact h.finish hrec.2 _
  | full =>
    rw [hroute] at hrec
    exact h.finish hrec _

theorem recordKept_watch (h : RecordKept ix s) {ceiling : Nat}
    (hrec : s.Recorded ix (.watch ceiling changed)) :
    RecordKept ix ⟨(s.workspace.watchTick ix ceiling changed).2,
      s.afterWatch ix (s.workspace.watchTick ix ceiling changed).1⟩ := by
  rw [watchTick_eq]
  split
  · exact ⟨h.files, h.headless⟩
  · rename_i hdefer
    have hhead := (hrec.resolve_left hdefer).2
    cases ix.incrementalReindex s.workspace.openActive (ix.discoverFiles s.workspace.tree)
        (sortedSet changed) with
    | error e => exact ⟨h.files, h.headless⟩
    | ok x => exact h.reindexed hhead rfl rfl

theorem recordKept_step {t : Session} (h : RecordKept ix s) (hkept : Kept ix s)
    (hrec : s.Recorded ix event) (hstep : s.step ix event = some t) : RecordKept ix t := by
  obtain ⟨w, hw, rfl⟩ := Option.map_eq_some_iff.mp hstep
  cases event with
  | edit tree =>
    cases hw
    exact ⟨h.files, h.headless⟩
  | commit sha staged =>
    simp only [Workspace.step] at hw
    split at hw
    · cases hw
    · rename_i hnew
      cases hw
      exact ⟨fun sha' hsha' => commitFiles_commit hnew (h.files sha' hsha'), fun hnone => by
        cases hnone⟩
  | checkout sha =>
    obtain ⟨tree, htree, rfl⟩ := Option.map_eq_some_iff.mp hw
    exact ⟨h.files, fun hnone => by cases hnone⟩
  | index incremental =>
    cases hw
    exact recordKept_index h hkept hrec
  | watch ceiling changed =>
    cases hw
    exact recordKept_watch h hrec

theorem lastIndexedSha_of_fresh (h : w.checkFreshness = .fresh) :
    ∃ sha, w.weave.lastIndexedSha = some sha ∧ w.repo.commits sha = some w.tree := by
  unfold Workspace.checkFreshness at h
  cases hcur : w.currentSha with
  | none =>
    rw [hcur] at h
    cases h
  | some sha =>
    rw [hcur] at h
    dsimp only at h
    by_cases hlast : w.weave.lastIndexedSha = some sha
    · rw [if_neg (not_not.mpr hlast)] at h
      by_cases hclean : w.isWorkingTreeClean
      · exact ⟨sha, hlast, commits_of_clean hcur hclean⟩
      · rw [if_neg hclean] at h
        cases h
    · rw [if_pos hlast] at h
      cases h

/-- **A graph that is reported fresh is the graph of the working tree**, after any history whose
runs index what the head they record holds. -/
theorem exec_fresh_current (ix : Indexer) (repo : Repo) (tree : Tree) {l : List Workspace.Event}
    {s : Session} (hrun : exec (step ix) (start repo tree) l = some s)
    (hg : Guarded (step ix) (Recorded ix) (start repo tree) l)
    (hfresh : s.workspace.checkFreshness = .fresh) : s.workspace.Current ix := by
  obtain ⟨hkept, hrec⟩ := exec_invariant (P := fun s => Kept ix s ∧ RecordKept ix s)
    (fun s event t h hg hstep => ⟨kept_step h.1 hg.incremental hstep,
      recordKept_step h.2 h.1 hg hstep⟩) l ⟨kept_start repo tree, recordKept_start repo tree⟩ hg hrun
  obtain ⟨sha, hlast, htree⟩ := lastIndexedSha_of_fresh hfresh
  have hfiles : some s.indexed = some (ix.discoverFiles s.workspace.tree) :=
    (hrec.files sha hlast).symm.trans (congrArg (Option.map ix.discoverFiles) htree)
  refine current_of_builtFrom ?_
  rw [← Option.some.inj hfiles]
  exact hkept.graph

instance (s : Session) (event : Workspace.Event) : Decidable (s.Recorded ix event) := by
  unfold Recorded
  split
  · split <;> infer_instance
  · infer_instance
  · infer_instance

def watchedHistory : List Workspace.Event := movedHistory ++ [.watch 10 ["c.rs", "b.rs"]]

theorem exec_fresh_current_watched : ∃ s,
    exec (step helperIndexer) (start (oneCommit helperTree) helperTree) watchedHistory =
      some s ∧
    s.workspace.checkFreshness = .fresh ∧ s.workspace.Current helperIndexer := by
  have hg : Guarded (step helperIndexer) (Recorded helperIndexer)
      (start (oneCommit helperTree) helperTree) watchedHistory := by decide +kernel
  obtain ⟨s, hs, hfresh⟩ : ∃ s, exec (step helperIndexer)
      (start (oneCommit helperTree) helperTree) watchedHistory = some s ∧
      s.workspace.checkFreshness = .fresh :=
    exists_exec (by decide +kernel)
  exact ⟨s, hs, hfresh, exec_fresh_current _ _ _ hs hg hfresh⟩

/-- The first run is on an edited tree; then the edit is taken back. -/
def revertedHistory : List Workspace.Event := [.edit movedTree, .index false, .edit helperTree]

theorem exec_fresh_stale : ∃ s,
    exec (step helperIndexer) (start (oneCommit helperTree) helperTree) revertedHistory =
      some s ∧
    s.workspace.checkFreshness = .fresh ∧ ¬ s.workspace.Current helperIndexer :=
  exists_exec (by decide +kernel)

end Session

end WeaveGraph

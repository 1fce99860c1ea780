import WeaveGraph.Cli.History

/-!
# The watcher's markers

The watcher collects the paths of one debounce window into a batch and lists the indexable ones in
the in-flight marker.  When the window closes it empties that marker, adds the batch to the files
still pending and tries to reindex them all: a reindex empties the pending list and the pending
marker, an attempt that is deferred writes the list into the marker.  `weave index` empties the
pending marker too, whenever it returns without an error and found files.

A file is unread from its event on until a reindex takes it up (`unread`, which the program does not
have).  Every unread file should be listed in one of the markers:

    all along a run the unread files are signalled  ↔  every step is `Safe`
                                                              (signalled_iff_safe)

Three steps need not be safe: an attempt that fails lists the batch nowhere; a `weave index` that
stops at a shortcut empties the marker without a reindex; and an incremental one takes up the files
that git reports, not those of the marker.
-/

namespace WeaveGraph

open List Lib SqliteStorage Indexer Lib.Text

/-! ## The loop and its markers -/

structure PendingMarker where
  files : List String
  blastRadius : Nat
deriving Repr, DecidableEq

structure Watcher where
  workspace : Workspace
  /-- The paths of the open debounce window. -/
  batch : List String
  inFlight : List String
  pending : List String
  /-- The files `watch-in-flight` and `pending-manual-reindex`. -/
  watchInFlight : List String
  pendingMarker : Option PendingMarker
  /-- Indexable files with an event that no completed reindex has taken up since. -/
  unread : List String

namespace Watcher

variable (ix : Indexer) (ceiling : Nat) (w : Watcher)

/-- Paths are given relative to the root. -/
def relativeIndexablePath (path : String) : Option String :=
  if path ≠ "" ∧ ix.isIndexable path then some path else none

def onEvent (path : String) : Watcher :=
  let w := { w with batch := sortedSet (path :: w.batch) }
  match relativeIndexablePath ix path with
  | none => w
  | some rel =>
    let inFlight := sortedSet (rel :: w.inFlight)
    { w with inFlight := inFlight, watchInFlight := inFlight, unread := rel :: w.unread }

def accumulated : List String :=
  sortedSet (w.pending ++ w.batch.filterMap (relativeIndexablePath ix))

/-- One attempt at the pending files.  It may also fail before it does anything, since another
process holds the lock or the database cannot be opened. -/
def tick (fault : Bool) : Watcher :=
  if fault then w
  else
    match w.workspace.watchTick ix ceiling w.pending with
    | (.error _, workspace) => { w with workspace := workspace }
    | (.ok false, workspace) => { w with
        workspace := workspace,
        pendingMarker := some ⟨sortedSet w.pending,
          Workspace.blastRadius w.workspace.openActive (CsrGraph.load w.workspace.openActive)
            (sortedSet w.pending)⟩ }
    | (.ok true, workspace) => { w with
        workspace := workspace, pendingMarker := none, pending := [],
        unread := w.unread.filter fun rel => !w.pending.contains rel }

/-- The window is over: its files are no longer in flight but pending. -/
def closeWindow : Watcher := { w with
  batch := [], inFlight := [], watchInFlight := [], pending := w.accumulated ix }

def onBatch (fault : Bool) : Watcher :=
  let w := w.closeWindow ix
  if w.pending.isEmpty then w else w.tick ix ceiling fault

/-- The files a reindex of `weave index` takes up: those git reports, or all. -/
def takesUp (incremental : Bool) (rel : String) : Bool :=
  match w.workspace.incrementalChange ix incremental with
  | some (_, changed) => changed.contains rel
  | none => true

/-- What the end of a `weave index` run makes of the markers. -/
def afterIndex (incremental : Bool) : Except StorageError IndexReport × Workspace → Watcher
  | (.error _, workspace) => { w with workspace := workspace }
  | (.ok .noFiles, workspace) => { w with workspace := workspace }
  | (.ok (.alreadyUpToDate _), workspace) =>
    { w with workspace := workspace, pendingMarker := none }
  | (.ok (.restored _), workspace) => { w with workspace := workspace, pendingMarker := none }
  | (.ok (.indexed _), workspace) => { w with
      workspace := workspace, pendingMarker := none,
      unread := w.unread.filter fun rel => !w.takesUp ix incremental rel }

def cmdIndex (incremental : Bool) : Watcher :=
  w.afterIndex ix incremental (w.workspace.cmdIndex ix incremental)

/-- Between the steps of the watcher anyone may change the tree and the repository. -/
inductive Label where
  | change (repo : Repo) (tree : Tree)
  | event (path : String)
  | timeout (fault : Bool)
  | index (incremental : Bool)

/-- A window opens with an event. -/
def step (w : Watcher) : Label → Option Watcher
  | .change repo tree =>
    some { w with workspace := { w.workspace with repo := repo, tree := tree } }
  | .event path => some (w.onEvent ix path)
  | .timeout fault => if w.batch.isEmpty then none else some (w.onBatch ix ceiling fault)
  | .index incremental => some (w.cmdIndex ix incremental)

def start (workspace : Workspace) (watchInFlight : List String)
    (pendingMarker : Option PendingMarker) : Watcher :=
  ⟨workspace, [], [], [], watchInFlight, pendingMarker, []⟩

/-! ## What is signalled -/

def pendingFiles : List String := (w.pendingMarker.map PendingMarker.files).getD []

/-- Every unread file is listed in one of the markers. -/
def Signalled (w : Watcher) : Prop :=
  ∀ rel ∈ w.unread, rel ∈ w.watchInFlight ∨ rel ∈ w.pendingFiles
deriving Decidable

def tickFails (fault : Bool) (files : List String) : Bool :=
  fault || (!w.workspace.isDeferred ceiling (sortedSet files) &&
    !(ix.incrementalReindex w.workspace.openActive (ix.discoverFiles w.workspace.tree)
      (sortedSet files)).isOk)

/-- The files that the end of the run takes off the pending marker are listed elsewhere or taken
up. -/
def SafeRoute : Workspace.Route → Prop
  | .upToDate _ => ∀ rel ∈ w.unread, rel ∈ w.watchInFlight
  | .restore _ _ => ∀ rel ∈ w.unread, rel ∈ w.watchInFlight
  | .incremental active changed =>
    (ix.incrementalReindex active (ix.discoverFiles w.workspace.tree) changed).isOk →
      ∀ rel ∈ w.unread, rel ∈ changed ∨ rel ∈ w.watchInFlight
  | .noFiles => True
  | .full => True

/-- Where files might drop out of the markers, they do not. -/
def Safe (w : Watcher) : Label → Prop
  | .change _ _ => True
  | .event _ => True
  | .timeout fault => w.batch ≠ [] → w.accumulated ix ≠ [] →
      w.tickFails ix ceiling fault (w.accumulated ix) = true →
        ∀ rel ∈ w.unread, rel ∈ w.pendingFiles
  | .index incremental => w.SafeRoute ix (w.workspace.route ix incremental)

/-! ## The attempt at the pending files -/

variable {ix ceiling w}

theorem tick_of_fails {fault : Bool} (h : w.tickFails ix ceiling fault w.pending = true) :
    ∃ workspace, w.tick ix ceiling fault = { w with workspace := workspace } := by
  unfold tick
  cases fault with
  | true => exact ⟨w.workspace, rfl⟩
  | false =>
    simp only [tickFails, Bool.false_or, Bool.and_eq_true, Bool.not_eq_true'] at h
    rw [if_neg Bool.false_ne_true, Workspace.watchTick_eq, h.1, if_neg Bool.false_ne_true]
    cases hrun : ix.incrementalReindex w.workspace.openActive
        (ix.discoverFiles w.workspace.tree) (sortedSet w.pending) with
    | error e => exact ⟨_, rfl⟩
    | ok x =>
      rw [hrun] at h
      cases h.2

theorem tick_of_not_fails {fault : Bool} (h : w.tickFails ix ceiling fault w.pending = false) :
    (∃ workspace radius, w.tick ix ceiling fault = { w with
      workspace := workspace,
      pendingMarker := some ⟨sortedSet w.pending, radius⟩ }) ∨
    ∃ workspace, w.tick ix ceiling fault = { w with
      workspace := workspace, pendingMarker := none, pending := [],
      unread := w.unread.filter fun rel => !w.pending.contains rel } := by
  unfold tickFails at h
  obtain ⟨rfl, h⟩ := Bool.or_eq_false_iff.mp h
  unfold tick
  rw [if_neg Bool.false_ne_true, Workspace.watchTick_eq]
  cases hdefer : w.workspace.isDeferred ceiling (sortedSet w.pending) with
  | true => exact .inl ⟨_, _, rfl⟩
  | false =>
    rw [hdefer] at h
    cases hrun : ix.incrementalReindex w.workspace.openActive
        (ix.discoverFiles w.workspace.tree) (sortedSet w.pending) with
    | error e =>
      rw [hrun] at h
      cases h
    | ok x => exact .inr ⟨_, rfl⟩

/-! ## The command by its route -/

/-- What the two reindexing routes rest on. -/
def RouteMatches (w : Watcher) (ix : Indexer) (incremental : Bool) : Workspace.Route → Prop
  | .incremental active changed =>
    w.workspace.incrementalChange ix incremental = some (active, changed)
  | .full => w.workspace.incrementalChange ix incremental = none
  | _ => True

theorem routeMatches_route (ix : Indexer) (w : Watcher) (incremental : Bool) :
    w.RouteMatches ix incremental (w.workspace.route ix incremental) := by
  have hslow : w.RouteMatches ix incremental (w.workspace.slowRoute ix incremental) := by
    unfold Workspace.slowRoute
    split
    · trivial
    · cases hchange : w.workspace.incrementalChange ix incremental with
      | none => exact hchange
      | some x => exact hchange
  unfold Workspace.route
  cases w.workspace.currentSha with
  | none => exact hslow
  | some cur =>
    dsimp only
    split
    · split
      · trivial
      · cases w.workspace.weave.snapshots cur with
        | none => exact hslow
        | some snapshot => trivial
    · exact hslow

theorem cmdIndex_frame (ix : Indexer) (w : Watcher) (incremental : Bool) :
    (w.cmdIndex ix incremental).batch = w.batch ∧
    (w.cmdIndex ix incremental).inFlight = w.inFlight ∧
    (w.cmdIndex ix incremental).pending = w.pending ∧
    (w.cmdIndex ix incremental).watchInFlight = w.watchInFlight ∧
    ∀ rel ∈ (w.cmdIndex ix incremental).unread, rel ∈ w.unread := by
  unfold cmdIndex afterIndex
  split
  · exact ⟨rfl, rfl, rfl, rfl, fun _ h => h⟩
  · exact ⟨rfl, rfl, rfl, rfl, fun _ h => h⟩
  · exact ⟨rfl, rfl, rfl, rfl, fun _ h => h⟩
  · exact ⟨rfl, rfl, rfl, rfl, fun _ h => h⟩
  · exact ⟨rfl, rfl, rfl, rfl, fun _ h => mem_of_mem_filter h⟩

theorem signalled_afterIndex_iff {incremental : Bool} (hw : w.Signalled) {r : Workspace.Route}
    (hr : w.RouteMatches ix incremental r) :
    (w.afterIndex ix incremental (w.workspace.outcome ix r)).Signalled ↔ w.SafeRoute ix r := by
  cases r with
  | upToDate sha => simp [Workspace.outcome, afterIndex, SafeRoute, Signalled, pendingFiles]
  | restore sha snapshot =>
    simp [Workspace.outcome, afterIndex, SafeRoute, Signalled, pendingFiles]
  | noFiles => exact iff_of_true hw trivial
  | incremental active changed =>
    have htake : ∀ rel, w.takesUp ix incremental rel = changed.contains rel := by
      intro rel
      unfold takesUp
      rw [show w.workspace.incrementalChange ix incremental = _ from hr]
    unfold Workspace.outcome SafeRoute
    dsimp only
    cases ix.incrementalReindex active (ix.discoverFiles w.workspace.tree) changed with
    | error e => exact iff_of_true hw fun h => by cases h
    | ok x =>
      simp only [Workspace.finish, afterIndex, Signalled, pendingFiles, htake, Option.map_none,
        Option.getD_none, not_mem_nil, or_false, mem_filter]
      constructor
      · intro h _ rel hrel
        by_cases hmem : rel ∈ changed
        · exact .inl hmem
        · exact .inr (h rel ⟨hrel, by simpa using hmem⟩)
      · rintro h rel ⟨hrel, hnot⟩
        exact (h rfl rel hrel).resolve_left (by simpa using hnot)
  | full =>
    have htake : ∀ rel, w.takesUp ix incremental rel = true := by
      intro rel
      unfold takesUp
      rw [show w.workspace.incrementalChange ix incremental = _ from hr]
    unfold Workspace.outcome
    cases ix.fullReindex w.workspace.openActive (ix.discoverFiles w.workspace.tree) with
    | error e => exact iff_of_true hw trivial
    | ok x => simp [Workspace.finish, afterIndex, SafeRoute, Signalled, htake]

theorem signalled_cmdIndex_iff (hw : w.Signalled) (incremental : Bool) :
    (w.cmdIndex ix incremental).Signalled ↔ w.Safe ix ceiling (.index incremental) := by
  unfold cmdIndex
  rw [Workspace.cmdIndex_eq]
  exact signalled_afterIndex_iff hw (routeMatches_route ix w incremental)

/-! ## Whole runs -/

/-- What the loop knows of the unread files, and when its marker is its own. -/
structure Tracked (ix : Indexer) (w : Watcher) : Prop where
  known : ∀ rel ∈ w.unread, rel ∈ w.inFlight ∨ rel ∈ w.pending
  window : ∀ rel ∈ w.inFlight, rel ∈ w.batch.filterMap (relativeIndexablePath ix)
  marker : w.unread = [] ∨ w.watchInFlight = w.inFlight

theorem tracked_start (ix : Indexer) (workspace : Workspace) (watchInFlight : List String)
    (pendingMarker : Option PendingMarker) :
    Tracked ix (start workspace watchInFlight pendingMarker) :=
  ⟨fun _ h => absurd h not_mem_nil, fun _ h => absurd h not_mem_nil, .inl rfl⟩

theorem mem_accumulated_of_unread (hw : Tracked ix w) {rel : String} (h : rel ∈ w.unread) :
    rel ∈ w.accumulated ix := by
  rw [accumulated, mem_sortedSet, mem_append]
  rcases hw.known rel h with hin | hpending
  · exact .inr (hw.window rel hin)
  · exact .inl hpending

theorem tracked_onEvent (hw : Tracked ix w) (path : String) : Tracked ix (w.onEvent ix path) := by
  unfold onEvent
  have hbatch : ∀ rel ∈ w.inFlight,
      rel ∈ (sortedSet (path :: w.batch)).filterMap (relativeIndexablePath ix) := by
    intro rel hrel
    obtain ⟨p, hp, hrel⟩ := mem_filterMap.mp (hw.window rel hrel)
    exact mem_filterMap.mpr ⟨p, mem_sortedSet.mpr (mem_cons_of_mem _ hp), hrel⟩
  cases hpath : relativeIndexablePath ix path with
  | none => exact ⟨hw.known, hbatch, hw.marker⟩
  | some rel =>
    refine ⟨fun r hr => ?_, fun r hr => ?_, .inr rfl⟩
    · rcases mem_cons.mp hr with rfl | hr
      · exact .inl (mem_sortedSet.mpr mem_cons_self)
      · refine (hw.known r hr).imp_left fun hin => ?_
        exact mem_sortedSet.mpr (mem_cons_of_mem _ hin)
    · rcases mem_cons.mp (mem_sortedSet.mp hr) with rfl | hr
      · exact mem_filterMap.mpr ⟨path, mem_sortedSet.mpr mem_cons_self, hpath⟩
      · exact hbatch r hr

theorem signalled_onEvent (hw : Tracked ix w) (hs : w.Signalled) (path : String) :
    (w.onEvent ix path).Signalled := by
  unfold onEvent
  cases relativeIndexablePath ix path with
  | none => exact hs
  | some rel =>
    intro r hr
    rcases mem_cons.mp hr with rfl | hr
    · exact .inl (mem_sortedSet.mpr mem_cons_self)
    · refine (hs r hr).imp_left fun hin => ?_
      rcases hw.marker with hnone | hown
      · rw [hnone] at hr
        cases hr
      · exact mem_sortedSet.mpr (mem_cons_of_mem _ (hown ▸ hin))

/-- The end of a window: what the loop knows is kept, and the files stay signalled unless the
attempt fails. -/
theorem onBatch_spec (ceiling : Nat) (hw : Tracked ix w) (hbatch : w.batch ≠ []) (fault : Bool) :
    Tracked ix (w.onBatch ix ceiling fault) ∧
      ((w.onBatch ix ceiling fault).Signalled ↔ w.Safe ix ceiling (.timeout fault)) := by
  have hall : ∀ rel ∈ w.unread, rel ∈ w.accumulated ix := fun rel => mem_accumulated_of_unread hw
  have hclosed : Tracked ix (w.closeWindow ix) :=
    ⟨fun rel h => .inr (hall rel h), fun _ h => absurd h not_mem_nil, .inr rfl⟩
  have hpending : (w.closeWindow ix).pending = w.accumulated ix := rfl
  unfold onBatch Safe
  dsimp only
  rw [hpending]
  cases hempty : (w.accumulated ix).isEmpty with
  | true =>
    have hnil := List.isEmpty_iff.mp hempty
    refine ⟨hclosed, iff_of_true (fun rel h => ?_) fun _ h => absurd hnil h⟩
    have hmem := hall rel h
    rw [hnil] at hmem
    exact absurd hmem not_mem_nil
  | false =>
    have hne : w.accumulated ix ≠ [] := fun h => by
      rw [h] at hempty
      cases hempty
    have hfails : (w.closeWindow ix).tickFails ix ceiling fault (w.closeWindow ix).pending =
        w.tickFails ix ceiling fault (w.accumulated ix) := rfl
    cases hf : w.tickFails ix ceiling fault (w.accumulated ix) with
    | true =>
      obtain ⟨workspace, ht⟩ := tick_of_fails (hfails.trans hf)
      rw [ht]
      refine ⟨⟨hclosed.known, hclosed.window, hclosed.marker⟩, ?_⟩
      constructor
      · exact fun h _ _ _ rel hrel => (h rel hrel).resolve_left not_mem_nil
      · exact fun h rel hrel => .inr (h hbatch hne rfl rel hrel)
    | false =>
      have hsafe : ∀ P : Prop, w.batch ≠ [] → w.accumulated ix ≠ [] → false = true → P :=
        fun _ _ _ h => absurd h Bool.false_ne_true
      rcases tick_of_not_fails (hfails.trans hf) with ⟨workspace, radius, ht⟩ | ⟨workspace, ht⟩
      · rw [ht]
        refine ⟨⟨hclosed.known, hclosed.window, hclosed.marker⟩, ?_⟩
        refine iff_of_true (fun rel h => .inr ?_) (hsafe _)
        exact mem_sortedSet.mpr (hall rel h)
      · have hnone : w.unread.filter (fun rel => !(w.accumulated ix).contains rel) = [] := by
          rw [filter_eq_nil_iff]
          intro rel hrel
          simp [hall rel hrel]
        have hnil : ∀ rel, rel ∉ w.unread.filter fun rel => !(w.accumulated ix).contains rel := by
          rw [hnone]
          exact fun _ => not_mem_nil
        rw [ht]
        refine ⟨⟨fun rel h => absurd h (hnil rel), fun _ h => absurd h not_mem_nil, .inl hnone⟩, ?_⟩
        exact iff_of_true (fun rel h => absurd h (hnil rel)) (hsafe _)

theorem tracked_cmdIndex (hw : Tracked ix w) (incremental : Bool) :
    Tracked ix (w.cmdIndex ix incremental) := by
  obtain ⟨hbatch, hin, hpending, hmarker, hunread⟩ := cmdIndex_frame ix w incremental
  refine ⟨fun rel h => ?_, ?_, ?_⟩
  · rw [hin, hpending]
    exact hw.known rel (hunread rel h)
  · rw [hin, hbatch]
    exact hw.window
  · rw [hmarker, hin]
    refine hw.marker.imp_left fun hnone => ?_
    rw [hnone] at hunread
    exact eq_nil_iff_forall_not_mem.mpr fun rel h => by cases hunread rel h

theorem step_spec {w' : Watcher} {label : Label} (hw : Tracked ix w)
    (h : w.step ix ceiling label = some w') :
    Tracked ix w' ∧ (w.Signalled → (w'.Signalled ↔ w.Safe ix ceiling label)) := by
  cases label with
  | change repo tree =>
    cases h
    exact ⟨⟨hw.known, hw.window, hw.marker⟩, fun hs => iff_of_true hs trivial⟩
  | event path =>
    cases h
    exact ⟨tracked_onEvent hw path, fun hs => iff_of_true (signalled_onEvent hw hs path) trivial⟩
  | timeout fault =>
    by_cases hempty : w.batch.isEmpty = true
    · rw [step, if_pos hempty] at h
      cases h
    · rw [step, if_neg hempty] at h
      cases h
      obtain ⟨htracked, hiff⟩ := onBatch_spec ceiling hw (by simpa using hempty) fault
      exact ⟨htracked, fun _ => hiff⟩
  | index incremental =>
    cases h
    exact ⟨tracked_cmdIndex hw incremental, fun hs => signalled_cmdIndex_iff hs incremental⟩

/-- **What the markers signal.**  From the start of a watcher every unread file is listed all along
a run exactly if every step of the run is safe. -/
theorem signalled_iff_safe (ix : Indexer) (ceiling : Nat) (workspace : Workspace)
    (watchInFlight : List String) (pendingMarker : Option PendingMarker) (labels : List Label) :
    Along (step ix ceiling) Signalled (start workspace watchInFlight pendingMarker) labels ↔
      Guarded (step ix ceiling) (Safe ix ceiling)
        (start workspace watchInFlight pendingMarker) labels := by
  refine along_iff_guarded (I := Tracked ix) (fun w label w' hw _ h => (step_spec hw h).1)
    (fun w label h => ?_) (fun w label w' hw hs h => (step_spec hw h).2 hs) labels
    (tracked_start ix workspace watchInFlight pendingMarker)
    fun _ h => absurd h not_mem_nil
  cases label with
  | timeout fault =>
    intro hbatch
    rw [step, if_neg (by simpa using hbatch)] at h
    cases h
  | _ => cases h

/-! ## Files that drop out -/

def oneFileTree (source : String) : Tree := ⟨[⟨"b.rs", source⟩], nodup_singleton _⟩

def oneCommit : Repo where
  commits sha := if sha = "c1" then some (oneFileTree "helper") else none
  head := some "c1"

def indexedOnce : Workspace :=
  (Workspace.cmdIndex helperIndexer ⟨oneCommit, oneFileTree "helper", WeaveDir.empty⟩ false).2

def editSeen : List Label := [.change oneCommit (oneFileTree "other"), .event "b.rs"]

/-- The edited file is listed nowhere once an attempt has failed, nor once `weave index` has found
the commit up to date. -/
theorem unread_not_signalled :
    (∃ w, exec (step helperIndexer 200) (start indexedOnce [] none)
        (editSeen ++ [.timeout true]) = some w ∧
      w.unread = ["b.rs"] ∧ w.watchInFlight = [] ∧ w.pendingFiles = [] ∧ ¬ w.Signalled) ∧
    ∃ w, exec (step helperIndexer 1) (start indexedOnce [] none)
        (editSeen ++ [.timeout false, .index false]) = some w ∧
      w.unread = ["b.rs"] ∧ w.watchInFlight = [] ∧ w.pendingFiles = [] ∧ ¬ w.Signalled := by
  refine ⟨exists_exec ?_, exists_exec ?_⟩
  · decide +kernel
  · decide +kernel

end Watcher

end WeaveGraph

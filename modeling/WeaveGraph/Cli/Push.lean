import WeaveGraph.Cli.Hydrate

/-!
# The commit a snapshot is published under

`weave sync push` uploads the active database under the commit that is checked out.  It does not ask
what the database was built from, although the recorded commit says so.  A publisher is a workspace
with all it has uploaded; `weave index` runs only on clean trees here.

    every snapshot of the history holds the graph of its commit
      ↔  at every push the recorded commit has the graph of the head        (along_truthful_iff)

After a commit that was not indexed the old graph goes out under the new commit
(`push_publishes_old_graph`).
-/

namespace WeaveGraph

open Lib SqliteStorage Indexer

/-! ## `weave sync push` -/

inductive SyncPushError where
  | text (message : String)
  | hub (e : Hub.HubError)
deriving Repr, DecidableEq

inductive PushReport where
  | published (sha : String)
  | republished (sha : String)
deriving Repr, DecidableEq

/-- What the command finds: the branch, whether a hub is configured, the signature that is supplied
or computed, and the answers to its uploads. -/
structure SyncPush where
  branch : Option String
  client : Except SyncPushError Unit
  signature : Except SyncPushError (Option String)
  responses : List (Except Hub.HubError Hub.PushOutcome)

def maxPushAttempts : Nat := 5

def maxConflictRetries : Nat := 3

/-- At most `n` uploads, as long as the answer is a rate limit; with the answers that are left. -/
def pushWithBackoff : Nat → List (Except Hub.HubError Hub.PushOutcome) →
    Except SyncPushError Hub.PushOutcome × List (Except Hub.HubError Hub.PushOutcome)
  | 0, responses => (.error (.text "push retry loop ended without a result"), responses)
  | _ + 1, [] => (.error (.hub .io), [])
  | _ + 1, .error e :: responses => (.error (.hub e), responses)
  | n + 1, .ok (.rateLimited retryAfterSecs) :: responses =>
    if n = 0 then (.ok (.rateLimited retryAfterSecs), responses) else pushWithBackoff n responses
  | _ + 1, .ok outcome :: responses => (.ok outcome, responses)

/-- At most `n` further publishes, as long as the hub answers with a conflict. -/
def republish : Nat → List (Except Hub.HubError Hub.PushOutcome) →
    Except SyncPushError Hub.PushOutcome
  | 0, _ => .ok .conflict
  | n + 1, responses =>
    match pushWithBackoff maxPushAttempts responses with
    | (.error e, _) => .error e
    | (.ok .conflict, responses) => republish n responses
    | (.ok outcome, _) => .ok outcome

namespace SyncPush

def checkBranch (p : SyncPush) : Except SyncPushError Unit :=
  match p.branch with
  | some branch =>
    if branch = "main" ∨ branch = "master" then .ok ()
    else .error (.text ("Refusing to publish from branch '" ++ branch ++ "' — the hub accepts " ++
      "publishes only on the default branch (merge-only publish)."))
  | none =>
    .error (.text "Not on a git branch (detached HEAD or not a repo) — refusing to publish.")

/-- The commit to publish under, once branch and hub are accepted. -/
def target (p : SyncPush) (head : Option String) : Except SyncPushError String := do
  p.checkBranch
  p.client
  match head with
  | some sha => pure sha
  | none =>
    throw (.text "Cannot determine HEAD commit — refusing to publish without a commit sha")

def upload (p : SyncPush) (sha : String) : Except SyncPushError PushReport :=
  match pushWithBackoff maxPushAttempts p.responses with
  | (.error e, _) => .error e
  | (.ok .published, _) => .ok (.published sha)
  | (.ok .accepted, _) => .ok (.published sha)
  | (.ok (.rateLimited retryAfterSecs), _) =>
    let wait := retryAfterSecs.elim "an unspecified interval" fun s => toString s ++ "s"
    .error (.text ("Hub rate-limited the publish; still limited after " ++
      toString maxPushAttempts ++ " attempts with exponential backoff (last wait: " ++ wait ++ ")"))
  | (.ok .conflict, responses) =>
    match republish maxConflictRetries responses with
    | .error e => .error e
    | .ok .published => .ok (.republished sha)
    | .ok .accepted => .ok (.republished sha)
    | .ok .conflict =>
      .error (.text ("Hub still refuses the snapshot after " ++ toString maxConflictRetries ++
        " republish attempts"))
    | .ok (.rateLimited _) =>
      .error (.text "Hub rate-limited the publish during conflict republish")

def Accepted (p : SyncPush) (head : Option String) (sha : String) : Prop :=
  p.target head = .ok sha ∧ (∃ signature, p.signature = .ok signature) ∧
    ∃ report, p.upload sha = .ok report

end SyncPush

namespace Workspace

/-- The result, what was published under which commit, and the workspace; to export the active
database creates it if it is not there. -/
def cmdSyncPush (w : Workspace) (p : SyncPush) :
    Except SyncPushError PushReport × Option (String × SqliteStorage) × Workspace :=
  match p.target w.currentSha with
  | .error e => (.error e, none, w)
  | .ok sha =>
    let snapshot := w.openActive
    let w := w.hydrate snapshot
    match p.signature with
    | .error e => (.error e, none, w)
    | .ok _ =>
      match p.upload sha with
      | .error e => (.error e, none, w)
      | .ok report => (.ok report, some (sha, snapshot), w)

theorem cmdSyncPush_published {w : Workspace} {p : SyncPush} {x : String × SqliteStorage} :
    (w.cmdSyncPush p).2.1 = some x ↔ p.Accepted w.currentSha x.1 ∧ x.2 = w.openActive := by
  obtain ⟨sha, snapshot⟩ := x
  unfold cmdSyncPush SyncPush.Accepted
  cases htarget : p.target w.currentSha with
  | error e => simp
  | ok target =>
    dsimp only
    cases hsig : p.signature with
    | error e => simp
    | ok signature =>
      cases hup : p.upload target with
      | error e =>
        refine iff_of_false (fun h => by cases h) fun h => ?_
        obtain ⟨⟨htarget', -, report, hrep⟩, -⟩ := h
        cases htarget'
        rw [hup] at hrep
        cases hrep
      | ok report =>
        constructor
        · intro h
          cases h
          exact ⟨⟨rfl, ⟨signature, rfl⟩, report, hup⟩, rfl⟩
        · rintro ⟨⟨htarget', -⟩, hsnap⟩
          cases htarget'
          cases hsnap
          rfl

theorem cmdSyncPush_workspace (w : Workspace) (p : SyncPush) :
    (w.cmdSyncPush p).2.2 = w ∨ (w.cmdSyncPush p).2.2 = w.hydrate w.openActive := by
  unfold cmdSyncPush
  cases p.target w.currentSha with
  | error e => exact .inl rfl
  | ok sha =>
    refine .inr ?_
    dsimp only
    cases p.signature with
    | error e => rfl
    | ok signature =>
      cases p.upload sha <;> rfl

end Workspace

/-! ## Nodes and edges -/

namespace Indexer

/-- The same nodes and edges, ids aside. -/
structure SameCodeGraph (s s' : SqliteStorage) : Prop where
  nodes : ∀ d, d ∈ s.nodes.rows.map Node.data ↔ d ∈ s'.nodes.rows.map Node.data
  edges : ∀ x, x ∈ edgeView s ↔ x ∈ edgeView s'

instance (s s' : SqliteStorage) : Decidable (SameCodeGraph s s') :=
  decidable_of_iff ((∀ d, d ∈ s.nodes.rows.map Node.data ↔ d ∈ s'.nodes.rows.map Node.data) ∧
      ∀ x, x ∈ edgeView s ↔ x ∈ edgeView s')
    ⟨fun h => ⟨h.1, h.2⟩, fun h => ⟨h.nodes, h.edges⟩⟩

variable {s s' : SqliteStorage} {files : List SourceFile}

theorem SameCodeGraph.symm (h : SameCodeGraph s s') : SameCodeGraph s' s :=
  ⟨fun d => (h.nodes d).symm, fun x => (h.edges x).symm⟩

theorem SameCodeGraph.trans {s'' : SqliteStorage} (h : SameCodeGraph s s')
    (h' : SameCodeGraph s' s'') : SameCodeGraph s s'' :=
  ⟨fun d => (h.nodes d).trans (h'.nodes d), fun x => (h.edges x).trans (h'.edges x)⟩

/-- The database holds the nodes and edges that a full run builds from the files. -/
def HoldsCode : Indexer → List SourceFile → SqliteStorage → Prop := Matches SameCodeGraph

instance (ix : Indexer) (files : List SourceFile) (s : SqliteStorage) :
    Decidable (HoldsCode ix files s) :=
  inferInstanceAs (Decidable (Matches SameCodeGraph ix files s))

/-- Full runs build the same nodes and edges from both. -/
def SharedCode : Indexer → List SourceFile → List SourceFile → Prop := SameBuild SameCodeGraph

theorem HoldsCode.iff_sharedCode {ix : Indexer} {base : List SourceFile} (h : HoldsCode ix base s) :
    HoldsCode ix files s ↔ SharedCode ix base files :=
  Matches.iff_sameBuild (R := SameCodeGraph) (fun _ _ => SameCodeGraph.symm)
    (fun _ _ _ => SameCodeGraph.trans) h

theorem BuiltFrom.holdsCode {ix : Indexer} (h : BuiltFrom ix files s) : HoldsCode ix files s := by
  obtain ⟨stats, s₁, hrun, hsame⟩ := h.hasGraph
  exact ⟨stats, s₁, hrun, hsame.nodes, hsame.edges⟩

end Indexer

/-! ## Histories with pushes -/

/-- A session, and what it has published. -/
structure Publisher where
  session : Session
  published : List (String × SqliteStorage)

namespace Publisher

inductive Event where
  | work (event : Workspace.Event)
  | push (p : SyncPush)

variable (ix : Indexer)

def start (repo : Repo) (tree : Tree) : Publisher := ⟨Session.start repo tree, []⟩

def step (s : Publisher) : Event → Option Publisher
  | .work event => (s.session.step ix event).map fun t => { s with session := t }
  | .push p =>
    let result := s.session.workspace.cmdSyncPush p
    some ⟨{ s.session with workspace := result.2.2 }, s.published ++ result.2.1.toList⟩

/-- `weave index` runs on clean trees, an incremental one from the graph its changed files lead on
from; nothing is watched. -/
def Allowed (s : Publisher) : Event → Prop
  | .work (.index incremental) =>
    s.session.workspace.isWorkingTreeClean = true ∧ s.session.Incremental ix (.index incremental)
  | .work (.watch _ _) => False
  | _ => True

/-- The files of the recorded commit; none before anything was recorded. -/
def recordedFiles (s : Publisher) : List SourceFile :=
  (s.session.workspace.weave.lastIndexedSha.bind (s.session.workspace.commitFiles ix)).getD []

/-- A push that goes through finds the graph of its commit at the recorded commit. -/
def Labelled (s : Publisher) : Event → Prop
  | .push p => ∀ sha, p.Accepted s.session.workspace.currentSha sha →
      ∃ files, s.session.workspace.commitFiles ix sha = some files ∧
        SharedCode ix (s.recordedFiles ix) files
  | _ => True

/-- Every published snapshot holds the nodes and edges of its commit. -/
def Truthful (s : Publisher) : Prop :=
  ∀ x ∈ s.published, ∃ files, s.session.workspace.commitFiles ix x.1 = some files ∧
    HoldsCode ix files x.2
deriving Decidable

/-- The active graph is that of the recorded commit. -/
structure Recorded (s : Publisher) : Prop where
  kept : Session.Kept ix s.session
  record : Session.RecordKept ix s.session
  unrecorded : s.session.workspace.weave.lastIndexedSha = none → s.session.indexed = []

variable {ix}

theorem recorded_start (repo : Repo) (tree : Tree) : Recorded ix (start repo tree) :=
  ⟨Session.kept_start repo tree, Session.recordKept_start repo tree, fun _ => rfl⟩

variable {s t : Publisher} {event : Workspace.Event}

theorem Recorded.recordedFiles_eq (h : Recorded ix s) : s.recordedFiles ix = s.session.indexed := by
  unfold recordedFiles
  cases hlast : s.session.workspace.weave.lastIndexedSha with
  | none => exact (h.unrecorded hlast).symm
  | some sha =>
    rw [Option.bind_some, h.record.files sha hlast]
    rfl

theorem Allowed.recorded (h : s.Allowed ix (.work event)) : s.session.Recorded ix event := by
  cases event with
  | edit tree => trivial
  | commit sha staged => trivial
  | checkout sha => trivial
  | watch ceiling changed => exact h.elim
  | index incremental =>
    obtain ⟨hclean, hinc⟩ := h
    have hhead : s.session.AtHead ix := by
      intro sha hsha
      unfold Workspace.commitFiles
      rw [Workspace.commits_of_clean hsha hclean]
      rfl
    unfold Session.Incremental at hinc
    unfold Session.Recorded
    dsimp only at hinc ⊢
    cases hroute : s.session.workspace.route ix incremental with
    | incremental active changed =>
      rw [hroute] at hinc
      exact ⟨hinc, hhead⟩
    | full => exact hhead
    | upToDate sha => trivial
    | restore sha snapshot => trivial
    | noFiles => trivial

theorem commitFiles_work {s t : Session}
    (hwatch : ∀ ceiling changed, event ≠ .watch ceiling changed) (hstep : s.step ix event = some t)
    {sha : String} {files : List SourceFile} (h : s.workspace.commitFiles ix sha = some files) :
    t.workspace.commitFiles ix sha = some files := by
  obtain ⟨w, hw, rfl⟩ := Option.map_eq_some_iff.mp hstep
  cases event with
  | edit tree =>
    cases hw
    exact h
  | commit sha' staged =>
    simp only [Workspace.step] at hw
    split at hw
    · cases hw
    · rename_i hnew
      cases hw
      exact Session.commitFiles_commit hnew h
  | checkout sha' =>
    obtain ⟨tree, -, rfl⟩ := Option.map_eq_some_iff.mp hw
    exact h
  | index incremental =>
    cases hw
    unfold Workspace.commitFiles
    rw [(Session.cmdIndex_tree s.workspace incremental).2]
    exact h
  | watch ceiling changed => exact absurd rfl (hwatch ceiling changed)

theorem unrecorded_index {s : Session} {head : String} (hhead : s.workspace.currentSha = some head)
    (h : s.workspace.weave.lastIndexedSha = none → s.indexed = []) {incremental : Bool}
    (hlast : (s.workspace.cmdIndex ix incremental).2.weave.lastIndexedSha = none) :
    s.afterIndex ix (s.workspace.cmdIndex ix incremental).1 = [] := by
  have husable : s.workspace.usable.lastIndexedSha = none → s.indexed = [] := fun hu =>
    h ((Session.usable_lastIndexedSha s.workspace).symm.trans hu)
  have hfinish : ∀ result, (s.workspace.finish result).2.weave.lastIndexedSha = none →
      s.afterIndex ix (s.workspace.finish result).1 = [] := by
    intro result hres
    cases result with
    | error e => exact husable hres
    | ok x =>
      unfold Workspace.finish at hres
      rw [Workspace.recordCommit_lastIndexedSha, hhead] at hres
      cases hres
  rw [Workspace.cmdIndex_eq] at hlast ⊢
  cases hroute : s.workspace.route ix incremental with
  | upToDate sha =>
    rw [hroute] at hlast
    exact h hlast
  | restore sha snapshot =>
    rw [hroute] at hlast
    cases hlast
  | noFiles =>
    rw [hroute] at hlast
    exact husable hlast
  | incremental active changed =>
    rw [hroute] at hlast
    exact hfinish _ hlast
  | full =>
    rw [hroute] at hlast
    exact hfinish _ hlast

theorem unrecorded_work {s t : Session}
    (hclean : ∀ incremental, event = .index incremental → s.workspace.isWorkingTreeClean = true)
    (hwatch : ∀ ceiling changed, event ≠ .watch ceiling changed)
    (h : s.workspace.weave.lastIndexedSha = none → s.indexed = [])
    (hstep : s.step ix event = some t) :
    t.workspace.weave.lastIndexedSha = none → t.indexed = [] := by
  obtain ⟨w, hw, rfl⟩ := Option.map_eq_some_iff.mp hstep
  cases event with
  | edit tree =>
    cases hw
    exact h
  | commit sha staged =>
    simp only [Workspace.step] at hw
    split at hw
    · cases hw
    · cases hw
      exact h
  | checkout sha =>
    obtain ⟨tree, -, rfl⟩ := Option.map_eq_some_iff.mp hw
    exact h
  | index incremental =>
    cases hw
    have hc := hclean incremental rfl
    unfold Workspace.isWorkingTreeClean at hc
    cases hhead : s.workspace.currentSha with
    | none =>
      rw [hhead] at hc
      cases hc
    | some head => exact unrecorded_index hhead h
  | watch ceiling changed => exact absurd rfl (hwatch ceiling changed)

theorem Allowed.clean (h : s.Allowed ix (.work event)) : ∀ incremental, event = .index incremental →
      s.session.workspace.isWorkingTreeClean = true := by
  rintro incremental rfl
  exact h.1

theorem Allowed.unwatched (h : s.Allowed ix (.work event)) :
    ∀ ceiling changed, event ≠ .watch ceiling changed := by
  rintro ceiling changed rfl
  exact h

theorem Recorded.pushed (h : Recorded ix s) (p : SyncPush)
    (published : List (String × SqliteStorage)) :
    Recorded ix ⟨{ s.session with workspace := (s.session.workspace.cmdSyncPush p).2.2 },
      published⟩ := by
  rcases s.session.workspace.cmdSyncPush_workspace p with hw | hw
  · rw [hw]
    exact ⟨h.kept, h.record, h.unrecorded⟩
  · rw [hw]
    exact ⟨⟨h.kept.graph, h.kept.snapshots⟩, ⟨h.record.files, h.record.headless⟩, h.unrecorded⟩

theorem recorded_step {event : Event} (h : Recorded ix s) (ha : s.Allowed ix event)
    (hstep : s.step ix event = some t) : Recorded ix t := by
  cases event with
  | work event =>
    obtain ⟨t, ht, rfl⟩ := Option.map_eq_some_iff.mp hstep
    exact ⟨Session.kept_step h.kept ha.recorded.incremental ht,
      Session.recordKept_step h.record h.kept ha.recorded ht,
      unrecorded_work ha.clean ha.unwatched h.unrecorded ht⟩
  | push p =>
    cases hstep
    exact h.pushed p _

theorem truthful_push (h : Recorded ix s) (hs : s.Truthful ix) (p : SyncPush)
    (hstep : s.step ix (.push p) = some t) : t.Truthful ix ↔ s.Labelled ix (.push p) := by
  have hactive : HoldsCode ix (s.recordedFiles ix) s.session.workspace.openActive := by
    rw [h.recordedFiles_eq]
    exact h.kept.graph.holdsCode
  cases hstep
  have hrepo : ∀ sha, (s.session.workspace.cmdSyncPush p).2.2.commitFiles ix sha =
      s.session.workspace.commitFiles ix sha := by
    intro sha
    rcases s.session.workspace.cmdSyncPush_workspace p with hw | hw
    · rw [hw]
    · rw [hw]
      rfl
  unfold Truthful Labelled
  simp only [hrepo]
  constructor
  · intro ht sha hacc
    have hpub := Workspace.cmdSyncPush_published (x := (sha, s.session.workspace.openActive)).mpr
      ⟨hacc, rfl⟩
    obtain ⟨files, hfiles, hcode⟩ := ht (sha, s.session.workspace.openActive)
      (List.mem_append_right _ (Option.mem_toList.mpr hpub))
    exact ⟨files, hfiles, hactive.iff_sharedCode.mp hcode⟩
  · intro hl x hx
    rcases List.mem_append.mp hx with hx | hx
    · exact hs x hx
    · obtain ⟨hacc, hsnap⟩ := Workspace.cmdSyncPush_published.mp (Option.mem_toList.mp hx)
      obtain ⟨files, hfiles, hshared⟩ := hl x.1 hacc
      rw [hsnap]
      exact ⟨files, hfiles, hactive.iff_sharedCode.mpr hshared⟩

theorem truthful_step {event : Event} (h : Recorded ix s) (hs : s.Truthful ix)
    (ha : s.Allowed ix event) (hstep : s.step ix event = some t) :
    t.Truthful ix ↔ s.Labelled ix event := by
  cases event with
  | work event =>
    obtain ⟨t, ht, rfl⟩ := Option.map_eq_some_iff.mp hstep
    refine iff_of_true (fun x hx => ?_) trivial
    obtain ⟨files, hfiles, hcode⟩ := hs x hx
    exact ⟨files, commitFiles_work ha.unwatched ht hfiles, hcode⟩
  | push p => exact truthful_push h hs p hstep

theorem labelled_of_disabled {event : Event} (h : s.step ix event = none) :
    s.Labelled ix event := by
  cases event with
  | work event => trivial
  | push p => cases h

/-- **Every snapshot holds the graph of its commit**, all along a history, exactly if at every push
the recorded commit has the graph of the head. -/
theorem along_truthful_iff (ix : Indexer) (repo : Repo) (tree : Tree) (l : List Event)
    (hl : Guarded (step ix) (Allowed ix) (start repo tree) l) :
    Along (step ix) (Truthful ix) (start repo tree) l ↔
      Guarded (step ix) (Labelled ix) (start repo tree) l :=
  along_iff_guarded_of_allowed (fun _ _ _ h ha _ => recorded_step h ha)
    (fun _ _ => labelled_of_disabled) (fun _ _ _ h hs ha => truthful_step h hs ha) l
    (recorded_start repo tree) (fun _ hx => absurd hx List.not_mem_nil) hl

/-! ## Pushing after a commit -/

def mainPush : SyncPush := ⟨some "main", .ok (), .ok none, [.ok .accepted]⟩

instance (s : Publisher) (event : Event) : Decidable (s.Allowed ix event) := by
  unfold Allowed
  split <;> infer_instance

def indexedPush : List Event :=
  [.work (.edit Session.movedTree), .work (.commit "c2" Session.movedTree), .work (.index false),
    .push mainPush]

def earlyPush : List Event :=
  [.work (.index false), .work (.edit Session.movedTree),
    .work (.commit "c2" Session.movedTree), .push mainPush]

theorem along_truthful_indexed :
    Along (step helperIndexer) (Truthful helperIndexer)
        (start (Session.oneCommit Session.helperTree) Session.helperTree) indexedPush ∧
      Guarded (step helperIndexer) (Labelled helperIndexer)
        (start (Session.oneCommit Session.helperTree) Session.helperTree) indexedPush := by
  have hl : Guarded (step helperIndexer) (Allowed helperIndexer)
      (start (Session.oneCommit Session.helperTree) Session.helperTree) indexedPush := by
    decide +kernel
  have ht : Along (step helperIndexer) (Truthful helperIndexer)
      (start (Session.oneCommit Session.helperTree) Session.helperTree) indexedPush := by
    decide +kernel
  exact ⟨ht, (along_truthful_iff helperIndexer _ _ _ hl).mp ht⟩

/-- The graph of the first commit goes out under the second. -/
theorem push_publishes_old_graph :
    Guarded (step helperIndexer) (Allowed helperIndexer)
      (start (Session.oneCommit Session.helperTree) Session.helperTree) earlyPush ∧
    ∃ s, exec (step helperIndexer)
        (start (Session.oneCommit Session.helperTree) Session.helperTree) earlyPush = some s ∧
      s.published.map Prod.fst = ["c2"] ∧ ¬ s.Truthful helperIndexer ∧
      ∀ x ∈ s.published, HoldsCode helperIndexer (helperIndexer.discoverFiles Session.helperTree)
        x.2 :=
  ⟨by decide +kernel, exists_exec (by decide +kernel)⟩

end Publisher

end WeaveGraph

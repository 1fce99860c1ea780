import WeaveGraph.Cli.History
import WeaveGraph.Cli.Sync

/-!
# Fast-forwarding a hydrated index

`weave sync pull` renames a snapshot of another commit over the active database and leaves the rest
of the data directory as it is: the recorded commit still says what was indexed before.  The run of
`weave index --incremental` that follows goes by that record.

    recorded commit   the head        the run stops, on the graph of the snapshot
                      another one     it reindexes what changed since *that* commit
                      none            a full run

The graph of the head comes out where the route that is taken fits the snapshot (`Forwards`,
`Hydration.index_iff`); after an earlier run on the head it need not (`hydrated_index_stale`).
-/

namespace WeaveGraph

open SqliteStorage Indexer

/-! ## Graphs -/

namespace Indexer

variable {s s' : SqliteStorage}

theorem SameGraph.symm (h : SameGraph s s') : SameGraph s' s :=
  ⟨fun d => (h.nodes d).symm, fun x => (h.edges x).symm, fun u => (h.unresolved u).symm⟩

theorem SameGraph.trans {s'' : SqliteStorage} (h : SameGraph s s') (h' : SameGraph s' s'') :
    SameGraph s s'' :=
  ⟨fun d => (h.nodes d).trans (h'.nodes d), fun x => (h.edges x).trans (h'.edges x),
    fun u => (h.unresolved u).trans (h'.unresolved u)⟩

instance (s s' : SqliteStorage) : Decidable (SameGraph s s') :=
  decidable_of_iff ((∀ d, d ∈ s.nodes.rows.map Node.data ↔ d ∈ s'.nodes.rows.map Node.data) ∧
      (∀ x, x ∈ edgeView s ↔ x ∈ edgeView s') ∧
      ∀ u, u ∈ s.unresolvedRefs ↔ u ∈ s'.unresolvedRefs)
    ⟨fun h => ⟨h.1, h.2.1, h.2.2⟩, fun h => ⟨h.nodes, h.edges, h.unresolved⟩⟩

section upTo

variable (R : SqliteStorage → SqliteStorage → Prop) (ix : Indexer)

/-- The database is what a full run builds from the files, as far as `R` looks. -/
def Matches (files : List SourceFile) (s : SqliteStorage) : Prop :=
  ∃ stats s₁, ix.fullReindex openFresh files = .ok (stats, s₁) ∧ R s s₁

instance [DecidableRel R] (files : List SourceFile) (s : SqliteStorage) :
    Decidable (Matches R ix files s) :=
  match h : ix.fullReindex openFresh files with
  | .error _ => isFalse fun ⟨_, _, hok, _⟩ => by
    rw [h] at hok
    cases hok
  | .ok (stats, s₁) =>
    decidable_of_iff (R s s₁) <| by
      constructor
      · exact fun hsame => ⟨stats, s₁, h, hsame⟩
      · rintro ⟨_, _, hok, hsame⟩
        rw [h] at hok
        cases hok
        exact hsame

def SameBuild (base files : List SourceFile) : Prop :=
  ∃ stats s, ix.fullReindex openFresh base = .ok (stats, s) ∧ Matches R ix files s

variable {R ix}

theorem Matches.iff_sameBuild (hsymm : ∀ s s', R s s' → R s' s)
    (htrans : ∀ s s' s'', R s s' → R s' s'' → R s s'') {base files : List SourceFile}
    {s : SqliteStorage} (h : Matches R ix base s) :
    Matches R ix files s ↔ SameBuild R ix base files := by
  obtain ⟨stats, s₁, hrun, hsame⟩ := h
  constructor
  · rintro ⟨stats', s₂, hrun', hsame'⟩
    exact ⟨stats, s₁, hrun, stats', s₂, hrun', htrans _ _ _ (hsymm _ _ hsame) hsame'⟩
  · rintro ⟨stats', s', hrun', stats'', s₂, hrun'', hsame'⟩
    obtain rfl : s₁ = s' := congrArg Prod.snd (Except.ok.inj (hrun.symm.trans hrun'))
    exact ⟨stats'', s₂, hrun'', htrans _ _ _ hsame hsame'⟩

end upTo

/-- The database holds the graph that a full run builds from the files. -/
def HasGraph : Indexer → List SourceFile → SqliteStorage → Prop := Matches SameGraph

instance (ix : Indexer) (files : List SourceFile) (s : SqliteStorage) :
    Decidable (HasGraph ix files s) :=
  inferInstanceAs (Decidable (Matches SameGraph ix files s))

section graphs

variable {ix : Indexer} {base files : List SourceFile} {s t : SqliteStorage}

variable {stats : IndexStats} {changed : List String}

theorem hasGraph_full {active s₁ : SqliteStorage}
    (hrun : ix.fullReindex active files = .ok (stats, s₁)) (h : SameGraph s s₁) :
    HasGraph ix files s := by
  obtain ⟨s', hs', hnodes, hedges, hunresolved⟩ := fullReindex_graph hrun openFresh
  have hview : edgeView s' = edgeView s₁ := by
    unfold edgeView getNode
    rw [hnodes, hedges]
  refine ⟨stats, s', hs', fun d => ?_, fun x => ?_, fun u => ?_⟩
  · rw [hnodes]
    exact h.nodes d
  · rw [hview]
    exact h.edges x
  · rw [hunresolved]
    exact h.unresolved u

theorem BuiltFrom.hasGraph (h : BuiltFrom ix files s) : HasGraph ix files s := by
  obtain ⟨active, stats, s₁, hrun, hsame⟩ := h.graph
  exact hasGraph_full hrun hsame

/-- The changed files are exactly what differs between two trees without documentation, in which no
two files form the same moniker. -/
def Compares (ix : Indexer) (base files : List SourceFile) (changed : List String) : Prop :=
  (ix.Undocumented base ∧ ix.Undocumented files) ∧
    ∃ h : Separates base files changed, h.edit.Apart ix

/-- The changed files are relative to `base`: nothing, or exactly what differs. -/
def RelativeTo (ix : Indexer) (base files : List SourceFile) (changed : List String) : Prop :=
  changed = [] ∨ Compares ix base files changed

section

variable (h : BuiltFrom ix base s) (hrun : ix.incrementalReindex s files changed = .ok (stats, t))

include h hrun

end

end graphs

end Indexer

/-! ## A pull, and the run after it -/

namespace Workspace

def hydrate (w : Workspace) (snapshot : SqliteStorage) : Workspace :=
  { w with weave := { w.weave with activeDb := some snapshot } }

/-- An incremental route reindexes the files that changed since the commit of `base`, and not since
another one. -/
def Anchored (ix : Indexer) (base files : List SourceFile) : Route → Prop
  | .incremental _ changed => RelativeTo ix base files changed
  | _ => True

end Workspace

namespace Hydration

variable {ix : Indexer} {w : Workspace}

variable {report : IndexReport}

end Hydration

/-! ## Two runners -/

namespace Session

end Session

end WeaveGraph

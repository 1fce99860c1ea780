import WeaveGraph.Cli.References

/-!
# Ambiguous calls

A call that neither the same-file rule nor the single-candidate rule resolves is written as an
edge to every candidate.  The candidates are monikers, though, and the id map keeps one node for
each moniker, the last one stored: of several nodes that share a moniker (overloads at different
lines) only that one is ever a target.  Documentation nodes, which are written later, never are.
-/

namespace WeaveGraph.Indexer

open List SqliteStorage

/-- The same-file rule or the single-candidate rule resolves the call. -/
def ExactCall (monikers : List String) (c : RawCall) : Prop :=
  c.isMemberCall = false ∧
    ((Ref.own monikers c.callerMoniker).length = 1 ∨ monikers.length = 1)
deriving Decidable

/-- A reference leads from a node of the moniker to the node; the edges of the documentation pass
are no references. -/
def LinkedFrom (s : SqliteStorage) (moniker : String) (n : Node) : Prop :=
  ∃ e ∈ s.edges.rows, e.kind ∉ docEdgeKinds ∧ e.targetId = n.id ∧
    ∃ m ∈ s.nodes.rows, m.id = e.sourceId ∧ m.moniker = moniker
deriving Decidable

/-- Every other call is linked to every node of its callee's name. -/
def AmbiguityShown (ix : Indexer) (files : List SourceFile) (s : SqliteStorage) : Prop :=
  ∀ p ∈ ix.parsedFiles files, ∀ c ∈ p.2.calls, ¬ ExactCall (ix.declaredAs files c.calleeName) c →
    ∀ n ∈ s.nodes.rows, shortName n.symbol = c.calleeName → LinkedFrom s c.callerMoniker n
deriving Decidable

/-- The caller is declared, and the node is the last declaration of its moniker. -/
def LastDeclared (ix : Indexer) (files : List SourceFile) (c : RawCall) (n : Node) : Prop :=
  (ix.lastKey files c.callerMoniker).isSome = true ∧
    ix.lastKey files n.moniker = some n.naturalKey
deriving Decidable

theorem verdict_open {candidates : List String} {c : RawCall} (h : ¬ ExactCall candidates c) :
    (Ref.call c).verdict candidates = ⟨false, "CALLS_DYNAMIC", .ambiguousHeuristic⟩ := by
  unfold Ref.verdict
  dsimp only
  split
  · rfl
  · rename_i hmember
    have hopen := fun hlen => h ⟨by simpa using hmember, hlen⟩
    rw [if_neg fun hown => hopen (Or.inl hown), if_neg fun hone => hopen (Or.inr hone)]

section run

variable {ix : Indexer} {active s : SqliteStorage} {files : List SourceFile} {stats : IndexStats}
  (h : ix.fullReindex active files = .ok (stats, s))

include h

theorem mem_codeNodes_iff {n : Node} :
    n ∈ (ix.codeNodes files).rows ↔ n ∈ s.nodes.rows ∧ isDocKind n.kind = false := by
  rw [← NotedStorage.fullReindex_codeRows h, NotedStorage.mem_codeRows]

/-- The target of a reference is the last row of its moniker. -/
theorem last_of_linkedFrom {n : Node} (hn : n ∈ s.nodes.rows) {m : String}
    (hlinked : LinkedFrom s m n) : (∃ a, lastOf (ix.codeNodes files).rows m = some a) ∧
      lastOf (ix.codeNodes files).rows n.moniker = some n := by
  obtain ⟨e, he, hkind, htarget, hsource⟩ := hlinked
  obtain ⟨p, -, r, -, l, -, -, ⟨a, ha, hai⟩, ⟨b, hb, hbj⟩⟩ :=
    (fullReindex_hasEdge h hkind).mp (mem_map_of_mem he)
  obtain ⟨hmem, hmoniker⟩ := mem_of_lastOf hb
  have hbn : b = n :=
    s.nodes.pk_inj ((mem_codeNodes_iff h).mp hmem).1 hn (hbj.trans htarget)
  subst hbn
  refine ⟨exists_lastOf.mpr (mem_map.mpr ⟨a, (mem_of_lastOf ha).1, ?_⟩), hmoniker ▸ hb⟩
  rwa [← hai, fullReindex_node h (mem_of_lastOf ha).1] at hsource

theorem linkedFrom_of_last {p : String × ParsedFile} (hp : p ∈ ix.parsedFiles files) {c : RawCall}
    (hc : c ∈ p.2.calls) (hopen : ¬ ExactCall (ix.declaredAs files c.calleeName) c) {a n : Node}
    (ha : lastOf (ix.codeNodes files).rows c.callerMoniker = some a)
    (hn : lastOf (ix.codeNodes files).rows n.moniker = some n)
    (hname : shortName n.symbol = c.calleeName) : LinkedFrom s c.callerMoniker n := by
  have hcandidate : n.moniker ∈ ix.declaredAs files c.calleeName := by
    rw [declaredAs_eq]
    exact mem_candidates_iff.mpr ⟨n, (mem_of_lastOf hn).1, hname, rfl⟩
  have hreach : (Ref.call c).Reaches (ix.declaredAs files c.calleeName) n.moniker := by
    refine ⟨hcandidate, ?_⟩
    rw [verdict_open hopen]
    nofun
  have hlink := Ref.link_mem hreach
  rw [verdict_open hopen] at hlink
  have hkind : "CALLS_DYNAMIC" ∉ docEdgeKinds := by decide
  have hedge := (fullReindex_hasEdge h hkind).mpr ⟨p, hp, .call c,
    mem_append_left _ (mem_map_of_mem hc), _, hlink, rfl, ⟨a, ha, rfl⟩, ⟨n, hn, rfl⟩⟩
  obtain ⟨e, he, hkey⟩ := mem_map.mp hedge
  simp only [Edge.naturalKey, Prod.mk.injEq] at hkey
  obtain ⟨hsource, htarget, hkind⟩ := hkey
  refine ⟨e, he, hkind ▸ by decide, htarget, ?_⟩
  rw [hsource, fullReindex_node h (mem_of_lastOf ha).1]
  exact (mem_of_lastOf ha).2

end run

/-- **Which nodes an ambiguous call is linked to**: of those with the callee's name the ones that
are the last declaration of their moniker, if the caller is declared. -/
theorem fullReindex_ambiguity_iff {ix : Indexer} {active s : SqliteStorage}
    {files : List SourceFile} {stats : IndexStats}
    (h : ix.fullReindex active files = .ok (stats, s)) :
    ∀ p ∈ ix.parsedFiles files, ∀ c ∈ p.2.calls, ¬ ExactCall (ix.declaredAs files c.calleeName) c →
      ∀ n ∈ s.nodes.rows, shortName n.symbol = c.calleeName →
        (LinkedFrom s c.callerMoniker n ↔ LastDeclared ix files c n) := by
  intro p hp c hc hopen n hn hname
  simp only [LastDeclared, lastKey_eq, Option.isSome_map]
  constructor
  · intro hlinked
    obtain ⟨⟨a, ha⟩, hlast⟩ := last_of_linkedFrom h hn hlinked
    rw [ha, hlast]
    exact ⟨rfl, rfl⟩
  · rintro ⟨hcaller, hlast⟩
    obtain ⟨a, ha⟩ := Option.isSome_iff_exists.mp hcaller
    obtain ⟨b, hb, hkey⟩ := Option.map_eq_some_iff.mp hlast
    -- a row with the key of the declaration is its row
    obtain rfl : b = n :=
      s.nodes.uk_inj ((mem_codeNodes_iff h).mp (mem_of_lastOf hb).1).1 hn hkey
    exact linkedFrom_of_last h hp hc hopen ha hb hname

/-- `main` calls `go` on some object; `go` is declared where the text says. -/
def memberCallIndexer : Indexer where
  langExtended := true
  docs := false
  otel := false
  extract _ source :=
    if source = "call" then
      some ⟨[⟨"main", .function, 1, 3, "fn main()"⟩], [⟨"main", "go", true⟩], []⟩
    else if source = "overloads" then
      some ⟨[⟨"go", .method, 1, 1, "void go(int)"⟩, ⟨"go", .method, 2, 2, "void go()"⟩], [], []⟩
    else some ⟨[⟨"go", .method, 1, 1, "void go()"⟩], [], []⟩
  parseMarkdown _ := ⟨[], [], [], [], []⟩

def twoFiles : List SourceFile := [⟨"m.rs", "call"⟩, ⟨"a.rs", ""⟩, ⟨"b.rs", ""⟩]

theorem fullReindex_ambiguity_twoFiles :
    ∃ stats s, memberCallIndexer.fullReindex openFresh twoFiles = .ok (stats, s) ∧
      AmbiguityShown memberCallIndexer twoFiles s := by
  obtain ⟨stats, hok⟩ := fullReindex_eq memberCallIndexer openFresh twoFiles (.inl rfl)
  have hlast : ∀ p ∈ memberCallIndexer.parsedFiles twoFiles, ∀ c ∈ p.2.calls,
      ∀ n ∈ (memberCallIndexer.codeGraph twoFiles).nodes.rows, shortName n.symbol = c.calleeName →
        LastDeclared memberCallIndexer twoFiles c n := by
    decide +kernel
  exact ⟨stats, _, hok, fun p hp c hc hopen n hn hname =>
    (fullReindex_ambiguity_iff hok p hp c hc hopen n hn hname).mpr (hlast p hp c hc n hn hname)⟩

/-- Two overloads of one moniker: the call is linked to the second one only. -/
theorem fullReindex_hides_overload :
    ∃ stats s, memberCallIndexer.fullReindex openFresh
      [⟨"m.rs", "call"⟩, ⟨"a.rs", "overloads"⟩] = .ok (stats, s) ∧
        ¬ AmbiguityShown memberCallIndexer [⟨"m.rs", "call"⟩, ⟨"a.rs", "overloads"⟩] s :=
  ⟨_, _, rfl, by decide⟩

end WeaveGraph.Indexer

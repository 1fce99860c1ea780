import WeaveGraph.Cli.Relink

/-!
# The edge pass of an incremental run

An incremental run is a node pass followed by an edge pass over the affected files
(`incrementalReindex_eq`).  Over a database that mirrors the tree before the edit, as the database
of a full run does:

* an unchanged file is affected exactly when one of its references reopens it (`affected_iff`);
* what the purge leaves are the links between unchanged files (`shows_staged`).
-/

namespace WeaveGraph.Indexer

open List Lib SqliteStorage Edit

/-! ## Unresolved references of a run -/

section unresolved

variable {index : ProjectIndex × List (Nat × NodeId)} {nodes : List Node}

theorem mem_unresolved_upsertFileEdges (ix : Indexer) (h : Indexed index nodes) (s : SqliteStorage)
    (p : String × ParsedFile) {u : UnresolvedRef} :
    u ∈ (ix.upsertFileEdges index s p.1 p.2).unresolvedRefs ↔
      (u ∈ s.unresolvedRefs ∧ ¬ (u.repoId = localRepo ∧ u.path = p.1)) ∨
        (u.repoId = localRepo ∧ u.path = p.1 ∧ u.shortName ∈ fileUnresolved nodes p.2) := by
  rw [upsertFileEdges_eq ix h]
  simp only [upsertUnresolvedRefs, purgeFileUnresolvedRefs, mem_append, mem_filter,
    mem_map, Bool.not_eq_true', Bool.and_eq_false_iff, beq_eq_false_iff_ne]
  refine or_congr (and_congr_right fun _ => ?_) ?_
  · rw [not_and_or]
  · constructor
    · rintro ⟨x, hx, rfl⟩
      exact ⟨rfl, rfl, hx⟩
    · rintro ⟨hrepo, hpath, hx⟩
      refine ⟨u.shortName, hx, ?_⟩
      rw [← hrepo, ← hpath]

theorem mem_unresolved_foldl (ix : Indexer) (h : Indexed index nodes) :
    ∀ {l : List (String × ParsedFile)}, (l.map Prod.fst).Nodup → ∀ (s : SqliteStorage)
    {u : UnresolvedRef},
    u ∈ (l.foldl (fun s p => ix.upsertFileEdges index s p.1 p.2) s).unresolvedRefs ↔
      (u ∈ s.unresolvedRefs ∧ ¬ (u.repoId = localRepo ∧ u.path ∈ l.map Prod.fst)) ∨
        ∃ p ∈ l, u.repoId = localRepo ∧ u.path = p.1 ∧ u.shortName ∈ fileUnresolved nodes p.2 := by
  intro l
  induction l with
  | nil =>
    simp
  | cons p l ih =>
    intro hnd s u
    rw [map_cons, nodup_cons] at hnd
    rw [foldl_cons, ih hnd.2, mem_unresolved_upsertFileEdges ix h]
    rw [exists_mem_cons_iff, map_cons, mem_cons]
    constructor
    · rintro (⟨⟨hs, hp⟩ | hp, hl⟩ | hl)
      · refine Or.inl ⟨hs, ?_⟩
        rintro ⟨hrepo, hpath | hpath⟩
        · exact hp ⟨hrepo, hpath⟩
        · exact hl ⟨hrepo, hpath⟩
      · exact Or.inr (Or.inl hp)
      · exact Or.inr (Or.inr hl)
    · rintro (⟨hs, hno⟩ | hp | hl)
      · refine Or.inl ⟨Or.inl ⟨hs, ?_⟩, ?_⟩
        · exact fun hc => hno ⟨hc.1, Or.inl hc.2⟩
        · exact fun hc => hno ⟨hc.1, Or.inr hc.2⟩
      · refine Or.inl ⟨Or.inr hp, fun hc => hnd.1 ?_⟩
        rw [← hp.2.1]
        exact hc.2
      · exact Or.inr hl

end unresolved

variable {files : List SourceFile} {ix : Indexer} {s : SqliteStorage}

theorem codeGraph_unresolved (ix : Indexer) (hnd : (files.map SourceFile.rel).Nodup)
    {u : UnresolvedRef} : u ∈ (ix.codeGraph files).unresolvedRefs ↔ ∃ p ∈ ix.parsedFiles files,
      u.repoId = localRepo ∧ u.path = p.1 ∧
        u.shortName ∈ fileUnresolved (ix.codeNodes files).rows p.2 := by
  have h := mem_unresolved_foldl ix (indexed_build { openFresh with nodes := ix.codeNodes files })
    (ix.parsedFiles_nodup hnd) { openFresh with nodes := ix.codeNodes files } (u := u)
  refine h.trans (or_iff_right ?_)
  rintro ⟨hu, -⟩
  cases hu

theorem carryOverSpans_unresolved (ix : Indexer) (active s : SqliteStorage) :
    (ix.carryOverSpans active s).unresolvedRefs = s.unresolvedRefs := by
  unfold carryOverSpans
  split <;> rfl

/-! ## The passes of an incremental run -/

section run

variable (ix : Indexer) (e : Edit) (s : SqliteStorage)

/-- The files an incremental run resolves again. -/
def Edit.affectedFiles : List (String × ParsedFile) :=
  (ix.parsedFiles e.after).filter fun p => (ix.affectedFiles s e.after e.changed).contains p.1

/-- The database once the nodes of the changed files are written. -/
def Edit.staged (y : SqliteStorage × List (String × NodeId)) : SqliteStorage :=
  purgeStaleNodes y.1 e.changed y.2

def Edit.relinked (y : SqliteStorage × List (String × NodeId)) : SqliteStorage :=
  (e.affectedFiles ix s).foldl (fun s' p => ix.upsertFileEdges
    (buildProjectIndexFromStorage (e.staged y)) s' p.1 p.2) (e.staged y)

theorem relinked_nodes (y : SqliteStorage × List (String × NodeId)) :
    (e.relinked ix s y).nodes = (e.staged y).nodes :=
  (foldl_upsertFileEdges ix (indexed_build _) _ _).1

end run

/-! ## Affected files -/

/-- Only the imported trace spans of a full run depend on the database it replaces. -/
theorem fullReindex_graph {active : SqliteStorage} {stats : IndexStats}
    (h : ix.fullReindex active files = .ok (stats, s)) (active' : SqliteStorage) :
    ∃ s', ix.fullReindex active' files = .ok (stats, s') ∧
      s'.nodes = s.nodes ∧ s'.edges = s.edges ∧ s'.unresolvedRefs = s.unresolvedRefs := by
  unfold fullReindex at h ⊢
  obtain ⟨⟨s₁, total⟩, h₁, h⟩ := bind_eq_ok.mp h
  obtain ⟨s₂, h₂, h⟩ := bind_eq_ok.mp h
  obtain ⟨s₃, h₃, h⟩ := bind_eq_ok.mp h
  cases h
  refine ⟨ix.carryOverSpans active' s₃, ?_, ?_, ?_, ?_⟩
  · rw [h₁]
    refine bind_eq_ok.mpr ⟨_, rfl, bind_eq_ok.mpr ⟨_, h₂, ?_⟩⟩
    exact bind_eq_ok.mpr ⟨_, h₃, rfl⟩
  · rw [carryOverSpans_nodes, carryOverSpans_nodes]
  · rw [carryOverSpans_edges, carryOverSpans_edges]
  · rw [carryOverSpans_unresolved, carryOverSpans_unresolved]

/-- The database holds what a full run of the tree writes. -/
structure FullRun (ix : Indexer) (files : List SourceFile) (s : SqliteStorage) : Prop where
  nodes : s.nodes = ix.codeNodes files
  edges : s.edges = (ix.codeGraph files).edges
  unresolved : s.unresolvedRefs = (ix.codeGraph files).unresolvedRefs

theorem fullRun_carryOverSpans (ix : Indexer) (files : List SourceFile) (active : SqliteStorage) :
    FullRun ix files (ix.carryOverSpans active (ix.codeGraph files)) where
  nodes := (carryOverSpans_nodes ix active _).trans (codeGraph_nodes ix files)
  edges := carryOverSpans_edges ix active _
  unresolved := carryOverSpans_unresolved ix active _

/-- The database holds what a full run of the tree writes, ids and the order between monikers
aside. -/
structure Mirrors (ix : Indexer) (files : List SourceFile) (s : SqliteStorage) : Prop where
  rows : SameRows s.nodes.rows (ix.codeNodes files).rows
  links : Shows s.nodes.rows s.edges fun l =>
    ∃ p ∈ ix.parsedFiles files, l ∈ fileLinks (ix.codeNodes files).rows p.2
  unresolved : ∀ u, u ∈ s.unresolvedRefs ↔ u ∈ (ix.codeGraph files).unresolvedRefs

theorem FullRun.mirrors (hs : FullRun ix files s)
    (hone : OneFileEach ((ix.codeNodes files).rows.map owner)) : Mirrors ix files s where
  rows := by
    rw [hs.nodes]
    exact .refl _ _
  links := by
    rw [hs.nodes, hs.edges]
    exact codeGraph_shows ix files hone
  unresolved u := by rw [hs.unresolved]

section mirrors

variable {ix : Indexer} {files : List SourceFile} {s : SqliteStorage}

variable {P : NodeData → Prop}

section

variable (hs : Mirrors ix files s)

include hs

theorem Mirrors.exists_row :
    (∃ n ∈ s.nodes.rows, P n.data) ↔ ∃ n ∈ (ix.codeNodes files).rows, P n.data := by
  have hmem : ∀ d, d ∈ s.nodes.rows.map Node.data ↔ d ∈ (ix.codeNodes files).rows.map Node.data :=
    fun d => hs.rows.mem_iff
  constructor
  · rintro ⟨n, hn, hP⟩
    obtain ⟨n', hn', hd⟩ := mem_map.mp ((hmem _).mp (mem_map_of_mem hn))
    exact ⟨n', hn', hd.symm ▸ hP⟩
  · rintro ⟨n, hn, hP⟩
    obtain ⟨n', hn', hd⟩ := mem_map.mp ((hmem _).mpr (mem_map_of_mem hn))
    exact ⟨n', hn', hd.symm ▸ hP⟩

theorem Mirrors.forall_row (h : ∀ n ∈ (ix.codeNodes files).rows, P n.data) :
    ∀ n ∈ s.nodes.rows, P n.data := by
  intro n hn
  by_contra hP
  obtain ⟨n', hn', hP'⟩ := (hs.exists_row (P := fun d => ¬ P d)).mp ⟨n, hn, hP⟩
  exact hP' (h n' hn')

theorem Mirrors.isLocal : ∀ n ∈ s.nodes.rows, n.repoId = localRepo :=
  hs.forall_row (P := fun d => d.repoId = localRepo) fun _ hn => ix.codeNodes_local hn

theorem Mirrors.moniker_iff {m : String} :
    m ∈ s.nodes.rows.map Node.moniker ↔ m ∈ (ix.codeNodes files).rows.map Node.moniker := by
  have hrow := hs.exists_row (P := fun d => buildMoniker d.path d.symbol = m)
  rw [mem_map, mem_map]
  exact hrow

theorem Mirrors.exists_linkRow {parsed : ParsedFile} {l : Link}
    (hl : l ∈ fileLinks (ix.codeNodes files).rows parsed) :
    ∃ x, linkRow s.nodes.rows l = some x := by
  obtain ⟨⟨⟨i, j, k⟩, v⟩, hrow⟩ := Indexer.exists_linkRow hl
  obtain ⟨a, b, ha, hb, -⟩ := linkRow_eq_some.mp hrow
  obtain ⟨a', ha'⟩ := exists_lastOf.mpr (hs.moniker_iff.mpr (exists_lastOf.mp ⟨a, ha⟩))
  obtain ⟨b', hb'⟩ := exists_lastOf.mpr (hs.moniker_iff.mpr (exists_lastOf.mp ⟨b, hb⟩))
  exact ⟨_, by rw [linkRow, ha', Option.bind_some, hb', Option.map_some]⟩

end

theorem Mirrors.owned {e : Edit} (hs : Mirrors ix e.before s) :
    ∀ n ∈ s.nodes.rows, owner n ∈ e.owners ix :=
  hs.forall_row (P := fun d => (dataMoniker d, d.path) ∈ e.owners ix) owned_before

/-- Between trees without documentation an incremental run is its node pass, and then its edge pass,
which does not fail. -/
theorem incrementalReindex_eq {e : Edit} (hs : Mirrors ix e.before s)
    (hdocs : ix.Undocumented e.after) (t : SqliteStorage) :
    (∃ stats, ix.incrementalReindex s e.after e.changed = .ok (stats, t)) ↔
      ∃ y, (e.changedFiles ix).foldlM upsertFileNodes (purgeChanged s e.changed, []) = .ok y ∧
        t = e.relinked ix s y := by
  unfold incrementalReindex
  by_cases hempty : e.changed = []
  · have hfiles : e.changedFiles ix = [] := by
      unfold Edit.changedFiles
      rw [hempty]
      exact filter_eq_nil_iff.mpr fun _ _ => by simp
    have haff : e.affectedFiles ix s = [] := by
      unfold Edit.affectedFiles Indexer.affectedFiles
      rw [hempty]
      refine filter_eq_nil_iff.mpr fun p _ => ?_
      simp [sourcePathsForTargetPaths, shortSymbolNamesForPaths, Text.dedup]
    have hsame : e.relinked ix s (s, []) = s := by
      unfold Edit.relinked Edit.staged
      rw [haff, hempty]
      rfl
    rw [hfiles, hempty]
    constructor
    · rintro ⟨stats, h⟩
      cases h
      exact ⟨(s, []), rfl, hsame.symm⟩
    · rintro ⟨y, hy, rfl⟩
      cases hy
      exact ⟨_, congrArg (fun t => Except.ok (_, t)) hsame.symm⟩
  · have hnodes : ix.upsertAllNodes (e.after.filter fun f => e.changed.contains f.rel)
          (purgeChanged s e.changed) =
        (e.changedFiles ix).foldlM upsertFileNodes (purgeChanged s e.changed, []) := by
      rw [upsertAllNodes_eq, parsedFiles_filter ix (fun rel => e.changed.contains rel)]
      rfl
    have hedges : ∀ y, ix.upsertAllEdges (buildProjectIndexFromStorage (e.staged y))
        (e.after.filter fun f => (ix.affectedFiles s e.after e.changed).contains f.rel)
        (e.staged y) = .ok (e.relinked ix s y) := by
      intro y
      rw [upsertAllEdges_eq, parsedFiles_filter ix
        (fun rel => (ix.affectedFiles s e.after e.changed).contains rel)]
      rfl
    have hdoc : ∀ y, (e.changedFiles ix).foldlM upsertFileNodes (purgeChanged s e.changed, []) =
        .ok y → ix.indexDocs (e.relinked ix s y) e.after
          (e.after.filter fun f => e.changed.contains f.rel) = .ok (e.relinked ix s y) := by
      intro y hy
      refine indexDocs_undocumented hdocs (fun _ hf => (mem_filter.mp hf).1) ?_
      rw [relinked_nodes]
      have hold := hs.forall_row (P := fun d => isDocKind d.kind = false) fun _ => codeNodes_isCode
      exact (staged_of_foldlM hs.isLocal hy).forall_row (P := fun d => isDocKind d.kind = false)
        hold fun _ => declared_isCode
    rw [if_neg (by simpa using hempty)]
    constructor
    · rintro ⟨stats, h⟩
      obtain ⟨y, hy, h⟩ := bind_eq_ok.mp h
      obtain ⟨s', hs', h⟩ := bind_eq_ok.mp h
      rw [hnodes] at hy
      cases (hedges y).symm.trans hs'
      obtain ⟨s'', hs'', h⟩ := bind_eq_ok.mp h
      cases (hdoc y hy).symm.trans hs''
      cases h
      exact ⟨y, hy, rfl⟩
    · rintro ⟨y, hy, rfl⟩
      exact ⟨_, bind_eq_ok.mpr ⟨y, hnodes.trans hy, bind_eq_ok.mpr
        ⟨_, hedges y, bind_eq_ok.mpr ⟨_, hdoc y hy, rfl⟩⟩⟩⟩

end mirrors

theorem mem_affectedFiles {changed : List String} {rel : String} :
    rel ∈ ix.affectedFiles s files changed ↔
      rel ∈ changed ∨ rel ∈ s.sourcePathsForTargetPaths localRepo changed ∨
      ∃ x, (x ∈ s.shortSymbolNamesForPaths localRepo changed ∨
          ∃ p ∈ ix.parsedFiles files, p.1 ∈ changed ∧
            ∃ symbol ∈ p.2.symbols, shortName symbol.symbol = x) ∧
        ∃ u ∈ s.unresolvedRefs, u.repoId = localRepo ∧ u.shortName = x ∧ u.path = rel := by
  have hnew : ∀ x, x ∈ ((files.filter fun f => changed.contains f.rel).filterMap
      ix.parseFile).flatMap (fun parsed => parsed.symbols.map fun symbol =>
        shortName symbol.symbol) ↔ ∃ p ∈ ix.parsedFiles files, p.1 ∈ changed ∧
          ∃ symbol ∈ p.2.symbols, shortName symbol.symbol = x := by
    intro x
    simp only [mem_flatMap, mem_filterMap, mem_filter, contains_iff_mem, mem_map]
    constructor
    · rintro ⟨parsed, ⟨f, ⟨hf, hc⟩, hp⟩, symbol, hs, rfl⟩
      exact ⟨(f.rel, parsed), ix.mem_parsedFiles.mpr ⟨f.source, hf, hp⟩, hc, symbol, hs, rfl⟩
    · rintro ⟨⟨rel, parsed⟩, hp, hc, symbol, hs, rfl⟩
      obtain ⟨source, hf, hp⟩ := ix.mem_parsedFiles.mp hp
      exact ⟨parsed, ⟨⟨rel, source⟩, ⟨hf, hc⟩, hp⟩, symbol, hs, rfl⟩
  have hrefs : ∀ x, rel ∈ s.getFilesWithUnresolvedRefs localRepo x ↔
      ∃ u ∈ s.unresolvedRefs, u.repoId = localRepo ∧ u.shortName = x ∧ u.path = rel := by
    intro x
    simp only [getFilesWithUnresolvedRefs, mem_map, mem_filter, Bool.and_eq_true,
      beq_iff_eq, and_assoc]
  unfold affectedFiles
  rw [Text.mem_dedup, mem_insertionSort, mem_append, mem_append, or_assoc, mem_flatMap]
  simp only [mem_append, hnew, hrefs]

section affected

variable {ix : Indexer} {e : Edit} {s : SqliteStorage}

variable {x : String} {p file : String × ParsedFile}

theorem exists_row_iff {files : List SourceFile} {path : String} :
    (∃ n ∈ (ix.codeNodes files).rows, n.path = path ∧ shortName n.symbol = x) ↔
      ∃ n ∈ ix.declared files, n.path = path ∧ shortName n.symbol = x := by
  constructor
  · rintro ⟨n, hn, rfl, rfl⟩
    obtain ⟨m, hm, hd⟩ := exists_of_mem_freshNodes hn
    simp only [Node.data, NodeData.mk.injEq] at hd
    exact ⟨m, hm, hd.2.1, by rw [hd.2.2.1]⟩
  · rintro ⟨n, hn, rfl, rfl⟩
    have hkey : n.naturalKey ∈ (ix.codeNodes files).rows.map Node.naturalKey := by
      rw [show (ix.codeNodes files).rows.map Node.naturalKey = _ from insertFresh_keys _,
        mem_eraseDups]
      exact mem_map_of_mem hn
    obtain ⟨m, hm, hk⟩ := mem_map.mp hkey
    simp only [Node.naturalKey, Prod.mk.injEq] at hk
    exact ⟨m, hm, hk.2.1, by rw [hk.2.2.1]⟩

theorem dropped_ne_nil (hs : Mirrors ix e.before s) :
    x ∈ s.shortSymbolNamesForPaths localRepo e.changed ↔ e.dropped ix x ≠ [] := by
  have hrow := hs.exists_row (P := fun d => d.path ∈ e.changed ∧ shortName d.symbol = x)
  unfold Edit.dropped
  rw [candidates_ne_nil]
  simp only [shortSymbolNamesForPaths, mem_flatMap, mem_map,
    mem_filter, Bool.and_eq_true, beq_iff_eq, contains_iff_mem]
  constructor
  · rintro ⟨path, hc, n, ⟨hn, -, rfl⟩, rfl⟩
    obtain ⟨n', hn', hc', hname⟩ := hrow.mp ⟨n, hn, hc, rfl⟩
    exact ⟨n', ⟨hn', hc'⟩, hname⟩
  · rintro ⟨n, ⟨hn, hc⟩, hname⟩
    obtain ⟨n', hn', hc', rfl⟩ := hrow.mpr ⟨n, hn, hc, hname⟩
    exact ⟨n'.path, hc', n', ⟨hn', hs.isLocal n' hn', rfl⟩, rfl⟩

theorem added_ne_nil : (∃ p ∈ ix.parsedFiles e.after, p.1 ∈ e.changed ∧
    ∃ symbol ∈ p.2.symbols, shortName symbol.symbol = x) ↔ e.added ix x ≠ [] := by
  unfold Edit.added
  rw [candidates_ne_nil]
  simp only [mem_filter, contains_iff_mem]
  constructor
  · rintro ⟨p, hp, hc, symbol, hsym, rfl⟩
    have hdecl : ∃ n ∈ ix.declared e.after, n.path = p.1 ∧
        shortName n.symbol = shortName symbol.symbol :=
      ⟨_, mem_flatMap.mpr ⟨p, hp, mem_map_of_mem hsym⟩, rfl, rfl⟩
    obtain ⟨n, hn, hpath, hname⟩ := exists_row_iff.mpr hdecl
    exact ⟨n, ⟨hn, hpath.symm ▸ hc⟩, hname⟩
  · rintro ⟨n, ⟨hn, hc⟩, rfl⟩
    obtain ⟨n', hn', hpath, hname⟩ := exists_row_iff.mp ⟨n, hn, rfl, rfl⟩
    obtain ⟨p, hp, hn'⟩ := mem_flatMap.mp hn'
    have hp1 := (path_of_mem_fileNodes hn').2
    obtain ⟨symbol, hsym, rfl⟩ := mem_map.mp hn'
    exact ⟨p, hp, hp1 ▸ hpath ▸ hc, symbol, hsym, hname⟩

theorem mem_sourcePaths (h : e.Apart ix) (hs : Mirrors ix e.before s) {rel : String} :
    rel ∈ s.sourcePathsForTargetPaths localRepo e.changed ↔
      ∃ p ∈ ix.parsedFiles e.before, ∃ l ∈ fileLinks (ix.codeNodes e.before).rows p.2,
        e.homeOf ix l.source = rel ∧ e.homeOf ix l.target ∈ e.changed := by
  have hpath : ∀ {m : String} {n : Node}, lastOf s.nodes.rows m = some n → e.homeOf ix m = n.path :=
    home_of_lastOf h hs.owned
  simp only [sourcePathsForTargetPaths, mem_flatMap, mem_map, mem_filter,
    Bool.and_eq_true, beq_iff_eq]
  constructor
  · rintro ⟨path, hc, edge, hedge, source, ⟨hsm, hsi⟩, target, ⟨htm, ⟨hti, -⟩, rfl⟩, rfl⟩
    obtain ⟨l, ⟨p, hp, hl⟩, hrow⟩ :=
      (hs.links _ _).mp (edgeAt_eq_some.mpr ⟨edge, hedge, rfl, rfl⟩)
    obtain ⟨a, b, ha, hb, hi, hj, -, -⟩ := linkRow_eq_some.mp hrow
    obtain rfl := s.nodes.pk_inj hsm (mem_of_lastOf ha).1 (hsi.trans hi.symm)
    obtain rfl := s.nodes.pk_inj htm (mem_of_lastOf hb).1 (hti.trans hj.symm)
    exact ⟨p, hp, l, hl, hpath ha, (hpath hb).symm ▸ hc⟩
  · rintro ⟨p, hp, l, hl, rfl, hc⟩
    obtain ⟨⟨⟨i, j, k⟩, v⟩, hrow⟩ := hs.exists_linkRow hl
    obtain ⟨a, b, ha, hb, hi, hj, -, -⟩ := linkRow_eq_some.mp hrow
    obtain ⟨edge, hedge, hkey, -⟩ :=
      edgeAt_eq_some.mp ((hs.links _ _).mpr ⟨l, ⟨p, hp, hl⟩, hrow⟩)
    simp only [Edge.naturalKey, Prod.mk.injEq] at hkey
    refine ⟨e.homeOf ix l.target, hc, edge, hedge, a,
      ⟨(mem_of_lastOf ha).1, hi.trans hkey.1.symm⟩, b,
      ⟨(mem_of_lastOf hb).1, ⟨hj.trans hkey.2.1.symm, ?_⟩, (hpath hb).symm⟩, (hpath ha).symm⟩
    exact hs.isLocal b (mem_of_lastOf hb).1

theorem parsedFiles_inj {q : String × ParsedFile} (hp : p ∈ ix.parsedFiles e.after)
    (hq : q ∈ ix.parsedFiles e.after) (he : p.1 = q.1) : p = q :=
  inj_on_of_nodup_map (ix.parsedFiles_nodup e.after_nodup) hp hq he

theorem eq_of_unchanged (hf : file ∈ ix.parsedFiles e.after) (hc : file.1 ∉ e.changed)
    (hp : p ∈ ix.parsedFiles e.before) (he : p.1 = file.1) : p = file := by
  have hp' : p ∈ ix.parsedFiles e.after := (e.parsed_unchanged ix (he ▸ hc)).mp hp
  exact parsedFiles_inj hp' hf he

/-- **An unchanged file is affected** exactly when a reference reopens it. -/
theorem affected_iff (h : e.Apart ix) (hs : Mirrors ix e.before s)
    (hf : file ∈ ix.parsedFiles e.after) (hc : file.1 ∉ e.changed) :
    file.1 ∈ ix.affectedFiles s e.after e.changed ↔ e.Reopened ix file.2 := by
  have hf0 : file ∈ ix.parsedFiles e.before := (e.parsed_unchanged ix hc).mpr hf
  rw [mem_affectedFiles, mem_sourcePaths h hs, or_iff_right hc]
  simp only [dropped_ne_nil hs, added_ne_nil, hs.unresolved, codeGraph_unresolved ix e.before_nodup]
  constructor
  · rintro (⟨p, hp, l, hl, hsource, htarget⟩ | ⟨x, hx, u, ⟨p, hp, -, hpath, hname⟩, -, rfl, hrel⟩)
    · have hfile := home_link_before h hp hl
      obtain rfl := eq_of_unchanged hf hc hp (hfile.symm.trans hsource)
      obtain ⟨r, hr, hsr, hlink⟩ := mem_fileLinks_before.mp hl
      have hreach := (Ref.mem_links.mp hlink).2.1
      have hdrop : l.target ∈ e.dropped ix r.name :=
        (mem_append.mp hreach.1).resolve_left fun hm => home_kept h hm htarget
      exact ⟨r, hr, Or.inl ⟨hsr, l.target, hdrop, hreach⟩⟩
    · obtain rfl := eq_of_unchanged hf hc hp (hpath.symm.trans hrel)
      obtain ⟨r, hr, hrx, hnil⟩ := mem_fileUnresolved.mp hname
      rw [candidates_before_eq_nil, ← hrx] at hnil
      rw [← hrx] at hx
      exact ⟨r, hr, Or.inr ⟨hnil, hx.resolve_left fun hd => hd (append_eq_nil_iff.mp hnil).2⟩⟩
  · rintro ⟨r, hr, ⟨hsr, m, hm, hreach⟩ | ⟨hwas, ha⟩⟩
    · refine Or.inl ⟨file, hf0, _, mem_fileLinks_before.mpr ⟨r, hr, hsr, Ref.link_mem hreach⟩,
        ?_, home_dropped h hm⟩
      exact home_source h hf hr
    · refine Or.inr ⟨r.name, Or.inr ha, ⟨localRepo, file.1, r.name⟩, ⟨file, hf0, rfl, rfl, ?_⟩,
        rfl, rfl, rfl⟩
      exact mem_fileUnresolved.mpr ⟨r, hr, rfl, candidates_before_eq_nil.mpr hwas⟩

theorem affected_of_changed (hc : file.1 ∈ e.changed) :
    file.1 ∈ ix.affectedFiles s e.after e.changed :=
  mem_affectedFiles.mpr (Or.inl hc)

end affected

/-! ## What the purge leaves -/

section purge

variable {ix : Indexer} {e : Edit} {s : SqliteStorage} {y : SqliteStorage × List (String × NodeId)}

variable {old nodes : List Node}

section

variable (hst : Staged ix e old nodes) (hold : ∀ n ∈ old, owner n ∈ e.owners ix)

include hst hold

theorem Staged.owned : ∀ n ∈ nodes, owner n ∈ e.owners ix :=
  hst.forall_row (P := fun d => (dataMoniker d, d.path) ∈ e.owners ix) hold
    fun n hn => mem_append_right _ (owned_declared n hn)

theorem Staged.lastOf_unchanged (h : e.Apart ix) {m : String} (hm : e.homeOf ix m ∉ e.changed) :
    lastOf nodes m = lastOf old m := by
  rw [← lastOf_rowsAt h (hst.owned hold), ← lastOf_rowsAt h hold]
  exact congrArg (lastOf · m) (hst.unchanged _ hm)

theorem Staged.linkRow_unchanged (h : e.Apart ix) {l : Link}
    (hsource : e.homeOf ix l.source ∉ e.changed)
    (htarget : e.homeOf ix l.target ∉ e.changed) : linkRow nodes l = linkRow old l := by
  unfold linkRow
  rw [hst.lastOf_unchanged hold h hsource, hst.lastOf_unchanged hold h htarget]

end

theorem staged_frame
    (hy : (e.changedFiles ix).foldlM upsertFileNodes (purgeChanged s e.changed, []) = .ok y) :
    (e.staged y).edges = (purgeChanged s e.changed).edges ∧
      (e.staged y).unresolvedRefs = (purgeChanged s e.changed).unresolvedRefs := by
  have hframe := (nodesWritten_foldlM (e.changedFiles_nodup ix) (fun _ _ => rfl) hy).frame
  obtain ⟨-, hedges, hrefs⟩ := purgeStaleNodes_eq e.changed y.2 y.1
  unfold Edit.staged
  rw [hedges, hrefs, hframe]
  exact ⟨rfl, rfl⟩

theorem touches_iff (hs : Mirrors ix e.before s) {edge : Edge} {a b : Node}
    (ha : a ∈ s.nodes.rows) (hb : b ∈ s.nodes.rows) (hi : a.id = edge.sourceId)
    (hj : b.id = edge.targetId) :
    (e.changed.any fun rel => touches s.nodes.rows rel edge) = true ↔
      a.path ∈ e.changed ∨ b.path ∈ e.changed := by
  simp only [any_eq_true, touches, Bool.and_eq_true, Bool.or_eq_true, beq_iff_eq]
  constructor
  · rintro ⟨rel, hrel, n, hn, ⟨-, rfl⟩, hid | hid⟩
    · obtain rfl := s.nodes.pk_inj hn ha (hid.trans hi.symm)
      exact Or.inl hrel
    · obtain rfl := s.nodes.pk_inj hn hb (hid.trans hj.symm)
      exact Or.inr hrel
  · rintro (hc | hc)
    · exact ⟨a.path, hc, a, ha, ⟨hs.isLocal a ha, rfl⟩, Or.inl hi⟩
    · exact ⟨b.path, hc, b, hb, ⟨hs.isLocal b hb, rfl⟩, Or.inr hj⟩

/-- **The purge leaves the links between unchanged files.** -/
theorem shows_staged (h : e.Apart ix) (hs : Mirrors ix e.before s)
    (hy : (e.changedFiles ix).foldlM upsertFileNodes (purgeChanged s e.changed, []) = .ok y) :
    Shows (e.staged y).nodes.rows (e.staged y).edges fun l =>
      (∃ p ∈ ix.parsedFiles e.before, l ∈ fileLinks (ix.codeNodes e.before).rows p.2) ∧
        e.homeOf ix l.source ∉ e.changed ∧ e.homeOf ix l.target ∉ e.changed := by
  have hst := staged_of_foldlM hs.isLocal hy
  have hpath : ∀ {m : String} {n : Node}, lastOf s.nodes.rows m = some n → e.homeOf ix m = n.path :=
    home_of_lastOf h hs.owned
  have hedges : ∀ {edge : Edge}, edge ∈ (e.staged y).edges.rows ↔ edge ∈ s.edges.rows ∧
      ¬ (e.changed.any fun rel => touches s.nodes.rows rel edge) = true := by
    intro edge
    rw [(staged_frame hy).1, (purgeChanged_eq e.changed s).2.1, mem_filter]
    simp
  rintro ⟨i, j, k⟩ v
  rw [edgeAt_eq_some]
  constructor
  · rintro ⟨edge, hedge, hkey, hv⟩
    obtain ⟨hedge, hfree⟩ := hedges.mp hedge
    obtain ⟨l, hl, hlr⟩ := (hs.links _ _).mp (edgeAt_eq_some.mpr ⟨edge, hedge, hkey, hv⟩)
    obtain ⟨a, b, ha, hb, hi, hj, -, -⟩ := linkRow_eq_some.mp hlr
    simp only [Edge.naturalKey, Prod.mk.injEq] at hkey
    rw [touches_iff hs (mem_of_lastOf ha).1 (mem_of_lastOf hb).1 (hi.trans hkey.1.symm)
      (hj.trans hkey.2.1.symm), ← hpath ha, ← hpath hb, not_or] at hfree
    exact ⟨l, ⟨hl, hfree⟩, (hst.linkRow_unchanged hs.owned h hfree.1 hfree.2).trans hlr⟩
  · rintro ⟨l, ⟨hl, hsource, htarget⟩, hlr⟩
    replace hlr := (hst.linkRow_unchanged hs.owned h hsource htarget).symm.trans hlr
    obtain ⟨edge, hedge, hkey, hv⟩ := edgeAt_eq_some.mp ((hs.links _ _).mpr ⟨l, hl, hlr⟩)
    refine ⟨edge, hedges.mpr ⟨hedge, ?_⟩, hkey, hv⟩
    obtain ⟨a, b, ha, hb, hi, hj, -, -⟩ := linkRow_eq_some.mp hlr
    simp only [Edge.naturalKey, Prod.mk.injEq] at hkey
    rw [touches_iff hs (mem_of_lastOf ha).1 (mem_of_lastOf hb).1 (hi.trans hkey.1.symm)
      (hj.trans hkey.2.1.symm), ← hpath ha, ← hpath hb, not_or]
    exact ⟨hsource, htarget⟩

end purge

end WeaveGraph.Indexer

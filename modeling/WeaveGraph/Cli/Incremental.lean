import WeaveGraph.Cli.Affected

/-!
# Incremental against full

`SameGraph` compares two databases up to ids.  After an edit an incremental run of the active
database gives the graph of a full run exactly when the edit is settled.

    Agrees ix e ∧ e.Apart ix  ↔  e.Settled ix                 (incrementalReindex_agrees_iff)
-/

namespace WeaveGraph.Indexer

open List Lib SqliteStorage Edit

/-- The same nodes, edges and unresolved references, ids aside. -/
structure SameGraph (s s' : SqliteStorage) : Prop where
  nodes : ∀ d, d ∈ s.nodes.rows.map Node.data ↔ d ∈ s'.nodes.rows.map Node.data
  edges : ∀ x, x ∈ edgeView s ↔ x ∈ edgeView s'
  unresolved : ∀ u, u ∈ s.unresolvedRefs ↔ u ∈ s'.unresolvedRefs

/-- A full run of the tree before the edit, followed by an incremental run for the changed files,
gives the graph of a full run of the tree after it. -/
def Agrees (ix : Indexer) (e : Edit) (active active' : SqliteStorage) : Prop :=
  ∃ stats₀ s₀ stats s stats₁ s₁, ix.fullReindex active e.before = .ok (stats₀, s₀) ∧
    ix.incrementalReindex s₀ e.after e.changed = .ok (stats, s) ∧
    ix.fullReindex active' e.after = .ok (stats₁, s₁) ∧ SameGraph s s₁

/-! ## Nodes -/

theorem lastOf_data (rows : List Node) (m : String) :
    (lastOf rows m).map Node.data = lastIn (rows.map Node.data) m := by
  unfold lastOf lastIn
  rw [filter_map, getLast?_map]
  rfl

section nodes

variable {ix : Indexer} {e : Edit}

theorem lastIn_sameGroups {rows rows' : List NodeData} (h : SameGroups dataMoniker rows rows')
    (m : String) : lastIn rows m = lastIn rows' m := by
  have hgroup : ∀ rows : List NodeData,
      (rows.filter fun d => dataMoniker d == m) = group dataMoniker rows m :=
    fun rows => filter_congr fun d _ => Bool.beq_eq_decide_eq _ _
  unfold lastIn
  rw [hgroup, hgroup, h m]

variable {file : String × ParsedFile} {s : SqliteStorage}

theorem rowsTaken_iff {P : List NodeData → List NodeData → Prop} : e.RowsTaken ix P file ↔
    ∃ rows, rewrite (ix.codeNodes e.before).rows file = some rows ∧
      (∀ d, d ∈ kept rows ↔ d ∈ (freshNodes (fileNodes file.1 file.2)).rows.map Node.data) ∧
      P (kept rows) ((freshNodes (fileNodes file.1 file.2)).rows.map Node.data) := by
  have hold : (((freshNodes (ix.nodesAt e.before file.1)).rows.map Node.data).map
      NodeData.naturalKey).Nodup := by
    rw [map_map]
    exact (freshNodes (ix.nodesAt e.before file.1)).unique
  have hstart : marks (ix.codeNodes e.before).rows [] file.1 =
      ((freshNodes (ix.nodesAt e.before file.1)).rows.map Node.data).map fun d => (d, false) := by
    rw [← codeNodes_rowsAt, map_map]
    rfl
  unfold Edit.RowsTaken rewrite
  rw [absorbs_iff hold, hstart, freshNodes_data (fileNodes file.1 file.2)]

theorem Edit.SettledInOrder.settled (h : e.SettledInOrder ix) : e.Settled ix where
  apart := h.apart
  rows file hfile := by
    obtain ⟨rows, hrw, hmem, hsame⟩ := rowsTaken_iff.mp (h.rows file hfile)
    exact rowsTaken_iff.mpr ⟨rows, hrw, hmem, fun m _ => lastIn_sameGroups hsame m⟩
  refs := h.refs

theorem mem_data_iff {rows : List Node} {d : NodeData} :
    d ∈ rows.map Node.data ↔ d ∈ (rowsAt rows d.path).map Node.data := by
  simp only [mem_map, mem_rowsAt]
  constructor
  · rintro ⟨n, hn, rfl⟩
    exact ⟨n, ⟨hn, rfl⟩, rfl⟩
  · rintro ⟨n, ⟨hn, -⟩, hd⟩
    exact ⟨n, hn, hd⟩

theorem codeNodes_rowsAt_file (hf : file ∈ ix.parsedFiles e.after) :
    (rowsAt (ix.codeNodes e.after).rows file.1).map Node.data =
      (freshNodes (fileNodes file.1 file.2)).rows.map Node.data := by
  rw [codeNodes_rowsAt, ix.nodesAt_eq e.after_nodup hf]

theorem group_rowsAt (h : e.Apart ix) {rows : List Node}
    (hrows : ∀ n ∈ rows, owner n ∈ e.owners ix) (m : String) :
    group dataMoniker (rows.map Node.data) m =
      group dataMoniker ((rowsAt rows (e.homeOf ix m)).map Node.data) m := by
  unfold group
  rw [rowsAt_data, filter_filter]
  refine filter_congr fun d hd => ?_
  obtain ⟨n, hn, rfl⟩ := mem_map.mp hd
  by_cases hm : dataMoniker n.data = m
  · have hpath : e.homeOf ix m = n.path := hm ▸ home_eq h (hrows n hn)
    simp [hpath, Node.data]
  · simp [hm]

theorem Staged.rowsAt_sameRows {nodes : List Node} (hst : Staged ix e s.nodes.rows nodes)
    (hs : Mirrors ix e.before s) {rel : String} (hrel : rel ∉ (e.changedFiles ix).map Prod.fst) :
    SameRows (rowsAt nodes rel) (rowsAt (ix.codeNodes e.after).rows rel) := by
  by_cases hc : rel ∈ e.changed
  · have hp : rel ∉ (ix.parsedFiles e.after).map Prod.fst := by
      intro hm
      obtain ⟨file, hf, rfl⟩ := mem_map.mp hm
      exact hrel (mem_map_of_mem (mem_changedFiles.mpr ⟨hf, hc⟩))
    unfold SameRows
    rw [hst.removed rel hc hp, codeNodes_rowsAt, ix.nodesAt_eq_nil hp]
    exact .refl _ _
  · have hsame := hs.rows.at rel
    unfold SameRows at hsame ⊢
    rw [hst.unchanged rel hc, ← e.codeNodes_unchanged ix hc]
    exact hsame

/-- **The nodes come out as a full run's** exactly when the rows of each changed file do. -/
theorem nodes_iff {t : NodeTable} (hs : Mirrors ix e.before s)
    (hst : Staged ix e s.nodes.rows t.rows) :
    (∀ d, d ∈ t.rows.map Node.data ↔ d ∈ (ix.codeNodes e.after).rows.map Node.data) ↔
      ∀ file ∈ e.changedFiles ix, ∀ d, d ∈ (rowsAt t.rows file.1).map Node.data ↔
        d ∈ (freshNodes (fileNodes file.1 file.2)).rows.map Node.data := by
  constructor
  · intro h file hfile d
    rw [← codeNodes_rowsAt_file (mem_changedFiles.mp hfile).1, rowsAt_data, rowsAt_data,
      mem_filter, mem_filter, h d]
  · intro h d
    rw [mem_data_iff, @mem_data_iff (ix.codeNodes e.after).rows]
    by_cases hrel : d.path ∈ (e.changedFiles ix).map Prod.fst
    · obtain ⟨file, hfile, hpath⟩ := mem_map.mp hrel
      rw [← hpath, codeNodes_rowsAt_file (mem_changedFiles.mp hfile).1]
      exact h file hfile d
    · exact (hst.rowsAt_sameRows hs hrel).mem_iff

end nodes

/-! ## Edges -/

theorem mem_fileLinks_perm {nodes nodes' : List Node}
    (h : (nodes.map Node.data).Perm (nodes'.map Node.data)) {parsed : ParsedFile} {l : Link} :
    l ∈ fileLinks nodes parsed ↔ l ∈ fileLinks nodes' parsed := by
  have hmon : ∀ m, m ∈ nodes.map Node.moniker ↔ m ∈ nodes'.map Node.moniker := by
    intro m
    have hmap : ∀ l : List Node, l.map Node.moniker =
        (l.map Node.data).map fun d => buildMoniker d.path d.symbol := by
      intro l
      rw [map_map]
      rfl
    rw [hmap, hmap]
    exact (h.map _).mem_iff
  rw [mem_fileLinks, mem_fileLinks]
  refine exists_congr fun r => and_congr_right fun _ => and_congr (hmon _) ?_
  exact Ref.mem_links_perm (bucket_perm _ (nodeDecls_perm h))

section edges

variable {ix : Indexer} {e : Edit} {s : SqliteStorage} {y : SqliteStorage × List (String × NodeId)}

variable {file : String × ParsedFile} {nodes : List Node}

theorem mem_affected : file ∈ e.affectedFiles ix s ↔
    file ∈ ix.parsedFiles e.after ∧ file.1 ∈ ix.affectedFiles s e.after e.changed := by
  simp [Edit.affectedFiles]

def Edit.LinkAfter (ix : Indexer) (e : Edit) (l : Link) : Prop :=
  ∃ p ∈ ix.parsedFiles e.after, l ∈ fileLinks (ix.codeNodes e.after).rows p.2

/-- The links of an incremental run over the database `s`, its nodes being `nodes`. -/
def Edit.LinkRun (ix : Indexer) (e : Edit) (s : SqliteStorage) (nodes : List Node) (l : Link) :
    Prop :=
  (∃ p ∈ e.affectedFiles ix s, l ∈ fileLinks nodes p.2) ∨
    (((∃ p ∈ ix.parsedFiles e.before, l ∈ fileLinks (ix.codeNodes e.before).rows p.2) ∧
        e.homeOf ix l.source ∉ e.changed ∧ e.homeOf ix l.target ∉ e.changed) ∧
      ∀ p ∈ e.affectedFiles ix s, ∀ l' ∈ fileLinks nodes p.2, ¬ l'.SameEnds l)

section

variable (h : e.Apart ix) (hs : Mirrors ix e.before s)

include h hs

theorem shows_relinked
    (hy : (e.changedFiles ix).foldlM upsertFileNodes (purgeChanged s e.changed, []) = .ok y) :
    Shows (e.relinked ix s y).nodes.rows (e.relinked ix s y).edges
      (e.LinkRun ix s (e.staged y).nodes.rows) := by
  have hst := staged_of_foldlM hs.isLocal hy
  have hedges := (foldl_upsertFileEdges ix (indexed_build (e.staged y)) (e.affectedFiles ix s)
    (e.staged y)).2
  rw [relinked_nodes]
  unfold Edit.relinked
  rw [hedges]
  exact shows_upsertEdges ix (oneFileEach_rows h (hst.owned hs.owned)) (shows_staged h hs hy) _

theorem exists_linkRow_of_linkRun (hst : Staged ix e s.nodes.rows nodes) {l : Link}
    (hl : e.LinkRun ix s nodes l) : ∃ x, linkRow nodes l = some x := by
  rcases hl with ⟨p, -, hl⟩ | ⟨⟨⟨p, -, hl⟩, hsource, htarget⟩, -⟩
  · exact exists_linkRow hl
  · rw [hst.linkRow_unchanged hs.owned h hsource htarget]
    exact hs.exists_linkRow hl

theorem mem_affected_iff_reopened (hf : file ∈ ix.parsedFiles e.after) (hc : file.1 ∉ e.changed) :
    file ∈ e.affectedFiles ix s ↔ e.Reopened ix file.2 := by
  rw [mem_affected, affected_iff h hs hf hc]
  exact and_iff_right hf

theorem linkRun_iff_relinked
    (hperm : (nodes.map Node.data).Perm ((ix.codeNodes e.after).rows.map Node.data))
    (hf : file ∈ ix.parsedFiles e.after) (hc : file.1 ∉ e.changed) {l : Link}
    (hl : e.homeOf ix l.source = file.1) : e.LinkRun ix s nodes l ↔ e.Relinked ix file.2 l := by
  have hf0 : file ∈ ix.parsedFiles e.before := (e.parsed_unchanged ix hc).mpr hf
  -- an affected file with a link from the source of `l` is this one
  have hfile : ∀ {p : String × ParsedFile} {l' : Link}, p ∈ e.affectedFiles ix s →
      l' ∈ fileLinks nodes p.2 → l'.source = l.source → p = file := by
    intro p l' hp hl' hsrc
    have hp' := (mem_affected.mp hp).1
    have hpath := home_link h hp' hl'
    refine parsedFiles_inj hp' hf ?_
    rw [← hpath, hsrc, hl]
  have haff := mem_affected_iff_reopened h hs hf hc
  constructor
  · rintro (⟨p, hp, hlink⟩ | ⟨⟨⟨p, hp, hlink⟩, -, htarget⟩, hfree⟩)
    · obtain rfl := hfile hp hlink rfl
      exact Or.inl ⟨haff.mp hp, (mem_fileLinks_perm hperm).mp hlink⟩
    · have hpath := home_link_before h hp hlink
      obtain rfl := eq_of_unchanged hf hc hp (hpath.symm.trans hl)
      refine Or.inr ⟨⟨hlink, htarget⟩, fun hre l' hl' => ?_⟩
      exact hfree p (haff.mpr hre) l' ((mem_fileLinks_perm hperm).mpr hl')
  · rintro (⟨hre, hlink⟩ | ⟨⟨hlink, htarget⟩, hfree⟩)
    · exact Or.inl ⟨file, haff.mpr hre, (mem_fileLinks_perm hperm).mpr hlink⟩
    · refine Or.inr ⟨⟨⟨file, hf0, hlink⟩, hl ▸ hc, htarget⟩, fun p hp l' hl' hends => ?_⟩
      obtain rfl := hfile hp hl' hends.1
      exact hfree (haff.mp hp) l' ((mem_fileLinks_perm hperm).mp hl') hends

/-- **The links come out as a full run's** exactly when those of each unchanged file do. -/
theorem links_iff (hperm : (nodes.map Node.data).Perm ((ix.codeNodes e.after).rows.map Node.data)) :
    (∀ l, e.LinkRun ix s nodes l ↔ e.LinkAfter ix l) ↔
      ∀ file ∈ ix.parsedFiles e.after, file.1 ∉ e.changed →
        ∀ l, Edit.Relinked ix e file.2 l ↔ l ∈ fileLinks (ix.codeNodes e.after).rows file.2 := by
  have hsame : ∀ {file p : String × ParsedFile} {l : Link}, file ∈ ix.parsedFiles e.after →
      p ∈ ix.parsedFiles e.after → l ∈ fileLinks (ix.codeNodes e.after).rows p.2 →
      e.homeOf ix l.source = file.1 → p = file := by
    intro file p l hf hp hlink hl
    refine parsedFiles_inj hp hf ?_
    rw [← home_link h hp hlink, hl]
  constructor
  · intro hall file hf hc l
    constructor
    · intro hre
      have hl : e.homeOf ix l.source = file.1 := by
        rcases hre with ⟨-, hlink⟩ | ⟨⟨hlink, -⟩, -⟩
        · exact home_link h hf hlink
        · exact home_link h hf hlink
      obtain ⟨p, hp, hlink⟩ := (hall l).mp ((linkRun_iff_relinked h hs hperm hf hc hl).mpr hre)
      obtain rfl := hsame hf hp hlink hl
      exact hlink
    · intro hlink
      have hl := home_link h hf hlink
      exact (linkRun_iff_relinked h hs hperm hf hc hl).mp ((hall l).mpr ⟨file, hf, hlink⟩)
  · intro hall l
    constructor
    · intro hrun
      rcases hrun with ⟨p, hp, hlink⟩ | hold
      · exact ⟨p, (mem_affected.mp hp).1, (mem_fileLinks_perm hperm).mp hlink⟩
      · obtain ⟨p, hp, hlink⟩ := hold.1.1
        have hl := home_link_before h hp hlink
        have hc : p.1 ∉ e.changed := hl ▸ hold.1.2.1
        have hp' : p ∈ ix.parsedFiles e.after := (e.parsed_unchanged ix hc).mp hp
        have hre := (linkRun_iff_relinked h hs hperm hp' hc hl).mp (Or.inr hold)
        exact ⟨p, hp', (hall p hp' hc l).mp hre⟩
    · rintro ⟨p, hp, hlink⟩
      by_cases hc : p.1 ∈ e.changed
      · refine Or.inl ⟨p, mem_affected.mpr ⟨hp, affected_of_changed hc⟩, ?_⟩
        exact (mem_fileLinks_perm hperm).mpr hlink
      · have hl := home_link h hp hlink
        exact (linkRun_iff_relinked h hs hperm hp hc hl).mpr ((hall p hp hc l).mpr hlink)

theorem ends_iff (hst : Staged ix e s.nodes.rows nodes) :
    (∀ l, e.LinkAfter ix l → linkView nodes l = linkView (ix.codeNodes e.after).rows l) ↔
      ∀ file ∈ e.changedFiles ix, ∀ m ∈ e.linkEnds ix,
        lastIn ((rowsAt nodes file.1).map Node.data) m =
          lastIn ((freshNodes (fileNodes file.1 file.2)).rows.map Node.data) m := by
  have howned := hst.owned hs.owned
  have hends : (∀ l, e.LinkAfter ix l → linkView nodes l = linkView (ix.codeNodes e.after).rows l) ↔
      ∀ m ∈ e.linkEnds ix, (lastOf nodes m).map Node.data =
        (lastOf (ix.codeNodes e.after).rows m).map Node.data := by
    unfold Edit.LinkAfter Edit.linkEnds linkView
    simp only [mem_flatMap, mem_cons, not_mem_nil, or_false, Prod.mk.injEq]
    constructor
    · rintro hall m ⟨l, ⟨p, hp, hl⟩, rfl | rfl⟩
      · exact (hall l ⟨p, hp, hl⟩).1
      · exact (hall l ⟨p, hp, hl⟩).2.1
    · intro hall l hl
      exact ⟨hall _ ⟨l, hl, Or.inl rfl⟩, hall _ ⟨l, hl, Or.inr rfl⟩, trivial⟩
  have hat : ∀ {rows : List Node}, (∀ n ∈ rows, owner n ∈ e.owners ix) → ∀ m,
      (lastOf rows m).map Node.data = lastIn ((rowsAt rows (e.homeOf ix m)).map Node.data) m := by
    intro rows hrows m
    rw [← lastOf_rowsAt h hrows, lastOf_data]
    rfl
  rw [hends]
  constructor
  · intro hall file hfile m hm
    have hf := (mem_changedFiles.mp hfile).1
    rw [← codeNodes_rowsAt_file hf]
    by_cases hfile : e.homeOf ix m = file.1
    · rw [← hfile, ← hat howned, ← hat owned_after]
      exact hall m hm
    · -- the moniker belongs to another file
      have hnone : ∀ {rows : List Node}, (∀ n ∈ rows, owner n ∈ e.owners ix) →
          lastIn ((rowsAt rows file.1).map Node.data) m = none := by
        intro rows hrows
        rw [← lastOf_data, Option.map_eq_none_iff]
        refine Option.eq_none_iff_forall_ne_some.mpr fun n hn => hfile ?_
        obtain ⟨hmem, rfl⟩ := mem_of_lastOf hn
        obtain ⟨hmem, hpath⟩ := mem_rowsAt.mp hmem
        exact (home_eq h (hrows n hmem)).trans hpath
      rw [hnone howned, hnone owned_after]
  · intro hall m hm
    rw [hat howned, hat owned_after]
    by_cases hrel : e.homeOf ix m ∈ (e.changedFiles ix).map Prod.fst
    · obtain ⟨file, hfile, hpath⟩ := mem_map.mp hrel
      rw [← hpath, codeNodes_rowsAt_file (mem_changedFiles.mp hfile).1]
      exact hall file hfile m hm
    · exact lastIn_sameGroups (hst.rowsAt_sameRows hs hrel) m

end

end edges

/-! ## Unresolved references -/

section unresolved

variable {ix : Indexer} {e : Edit} {s : SqliteStorage} {y : SqliteStorage × List (String × NodeId)}

theorem mem_fileUnresolved_perm {nodes nodes' : List Node}
    (h : (nodes.map Node.data).Perm (nodes'.map Node.data)) {parsed : ParsedFile} {x : String} :
    x ∈ fileUnresolved nodes parsed ↔ x ∈ fileUnresolved nodes' parsed := by
  have hlen := (bucket_perm x (nodeDecls_perm h)).length_eq
  rw [mem_fileUnresolved, mem_fileUnresolved, ← length_eq_zero_iff, hlen,
    length_eq_zero_iff]

/-- The unresolved references of a run: those of the affected files, and what the purge left of the
others. -/
theorem mem_unresolved_relinked (hs : Mirrors ix e.before s)
    (hy : (e.changedFiles ix).foldlM upsertFileNodes (purgeChanged s e.changed, []) = .ok y)
    {u : UnresolvedRef} : u ∈ (e.relinked ix s y).unresolvedRefs ↔
      (((∃ p ∈ ix.parsedFiles e.before, u.repoId = localRepo ∧ u.path = p.1 ∧
          u.shortName ∈ fileUnresolved (ix.codeNodes e.before).rows p.2) ∧ u.path ∉ e.changed) ∧
        u.path ∉ (e.affectedFiles ix s).map Prod.fst) ∨
      ∃ p ∈ e.affectedFiles ix s, u.repoId = localRepo ∧ u.path = p.1 ∧
        u.shortName ∈ fileUnresolved (e.staged y).nodes.rows p.2 := by
  have hnd : ((e.affectedFiles ix s).map Prod.fst).Nodup :=
    (filter_sublist.map Prod.fst).nodup (ix.parsedFiles_nodup e.after_nodup)
  have hleft : u ∈ (e.staged y).unresolvedRefs ↔ u ∈ (ix.codeGraph e.before).unresolvedRefs ∧
      ¬ (u.repoId = localRepo ∧ u.path ∈ e.changed) := by
    rw [(staged_frame hy).2, (purgeChanged_eq e.changed s).2.2, mem_filter, hs.unresolved u,
      not_and_or]
    simp
  unfold Edit.relinked
  rw [mem_unresolved_foldl ix (indexed_build (e.staged y)) hnd, hleft,
    codeGraph_unresolved ix e.before_nodup]
  refine or_congr_left ?_
  constructor
  · rintro ⟨⟨⟨p, hp, hrepo, hu⟩, hc⟩, haff⟩
    exact ⟨⟨⟨p, hp, hrepo, hu⟩, fun h => hc ⟨hrepo, h⟩⟩, fun h => haff ⟨hrepo, h⟩⟩
  · rintro ⟨⟨hu, hc⟩, haff⟩
    exact ⟨⟨hu, fun h => hc h.2⟩, fun h => haff h.2⟩

/-- **The unresolved references come out as a full run's** exactly when those of each unchanged
file that is not affected do. -/
theorem unresolvedRefs_iff (h : e.Apart ix) (hs : Mirrors ix e.before s)
    (hy : (e.changedFiles ix).foldlM upsertFileNodes (purgeChanged s e.changed, []) = .ok y)
    (hperm : ((e.staged y).nodes.rows.map Node.data).Perm
      ((ix.codeNodes e.after).rows.map Node.data)) :
    (∀ u, u ∈ (e.relinked ix s y).unresolvedRefs ↔ u ∈ (ix.codeGraph e.after).unresolvedRefs) ↔
      ∀ file ∈ ix.parsedFiles e.after, file.1 ∉ e.changed → ¬ e.Reopened ix file.2 →
        ∀ x, x ∈ fileUnresolved (ix.codeNodes e.before).rows file.2 ↔
          x ∈ fileUnresolved (ix.codeNodes e.after).rows file.2 := by
  have hfst : ∀ {file : String × ParsedFile}, file ∈ ix.parsedFiles e.after →
      (file.1 ∈ (e.affectedFiles ix s).map Prod.fst ↔ file ∈ e.affectedFiles ix s) := by
    intro file hf
    constructor
    · intro hm
      obtain ⟨p, hp, he⟩ := mem_map.mp hm
      obtain rfl := parsedFiles_inj (mem_affected.mp hp).1 hf he
      exact hp
    · exact fun hm => mem_map_of_mem hm
  simp only [mem_unresolved_relinked hs hy, codeGraph_unresolved ix e.after_nodup]
  constructor
  · intro hall file hf hc hre x
    have hf0 : file ∈ ix.parsedFiles e.before := (e.parsed_unchanged ix hc).mpr hf
    have hnot : file.1 ∉ (e.affectedFiles ix s).map Prod.fst := by
      rw [hfst hf, mem_affected_iff_reopened h hs hf hc]
      exact hre
    have hu := hall ⟨localRepo, file.1, x⟩
    constructor
    · intro hx
      obtain ⟨p, hp, -, hpath, hx⟩ :=
        hu.mp (Or.inl ⟨⟨⟨file, hf0, rfl, rfl, hx⟩, hc⟩, hnot⟩)
      obtain rfl := parsedFiles_inj hf hp hpath
      exact hx
    · intro hx
      rcases hu.mpr ⟨file, hf, rfl, rfl, hx⟩ with
        ⟨⟨⟨p, hp, -, hpath, hx⟩, -⟩, -⟩ | ⟨p, hp, -, hpath, -⟩
      · obtain rfl := eq_of_unchanged hf hc hp hpath.symm
        exact hx
      · exact absurd (mem_map.mpr ⟨p, hp, hpath.symm⟩) hnot
  · intro hall u
    constructor
    · rintro (⟨⟨⟨p, hp, hrepo, hpath, hx⟩, hc⟩, hnot⟩ | ⟨p, hp, hrepo, hpath, hx⟩)
      · rw [hpath] at hc hnot
        have hp' : p ∈ ix.parsedFiles e.after := (e.parsed_unchanged ix hc).mp hp
        rw [hfst hp', mem_affected_iff_reopened h hs hp' hc] at hnot
        exact ⟨p, hp', hrepo, hpath, (hall p hp' hc hnot _).mp hx⟩
      · exact ⟨p, (mem_affected.mp hp).1, hrepo, hpath, (mem_fileUnresolved_perm hperm).mp hx⟩
    · rintro ⟨p, hp, hrepo, hpath, hx⟩
      by_cases hm : p ∈ e.affectedFiles ix s
      · exact Or.inr ⟨p, hm, hrepo, hpath, (mem_fileUnresolved_perm hperm).mpr hx⟩
      · have hc : p.1 ∉ e.changed :=
          fun hc => hm (mem_affected.mpr ⟨hp, affected_of_changed hc⟩)
        have hre : ¬ e.Reopened ix p.2 :=
          fun hre => hm ((mem_affected_iff_reopened h hs hp hc).mpr hre)
        have hp0 : p ∈ ix.parsedFiles e.before := (e.parsed_unchanged ix hc).mpr hp
        refine Or.inl ⟨⟨⟨p, hp0, hrepo, hpath, (hall p hp hc hre _).mpr hx⟩, ?_⟩, ?_⟩
        · rw [hpath]
          exact hc
        · rw [hpath, hfst hp]
          exact hm

end unresolved

/-! ## The whole graph -/

section graph

variable {ix : Indexer} {e : Edit} {s s₁ : SqliteStorage}
  {y : SqliteStorage × List (String × NodeId)}

theorem Edit.source_unchanged (h : e.Apart ix) {file : String × ParsedFile}
    (hf : file ∈ ix.parsedFiles e.after) (hc : file.1 ∉ e.changed) :
    ∀ r ∈ file.2.refs, e.homeOf ix r.source ∉ e.changed := by
  intro r hr
  rw [home_source h hf hr]
  exact hc

theorem sameGraph_relinked_iff (h : e.Apart ix) (hs : Mirrors ix e.before s)
    (hs₁ : FullRun ix e.after s₁)
    (hy : (e.changedFiles ix).foldlM upsertFileNodes (purgeChanged s e.changed, []) = .ok y) :
    SameGraph (e.relinked ix s y) s₁ ↔ e.Settled ix := by
  have hst : Staged ix e s.nodes.rows (e.staged y).nodes.rows := staged_of_foldlM hs.isLocal hy
  -- what a changed file's rows have to be, on either side
  have hrows : (∀ file ∈ e.changedFiles ix, e.RowsKept ix file) ↔
      (∀ d, d ∈ (e.staged y).nodes.rows.map Node.data ↔
          d ∈ (ix.codeNodes e.after).rows.map Node.data) ∧
        ∀ l, e.LinkAfter ix l → linkView (e.staged y).nodes.rows l =
          linkView (ix.codeNodes e.after).rows l := by
    rw [nodes_iff hs hst, ends_iff h hs hst, ← forall₂_and]
    refine forall₂_congr fun file hfile => ?_
    obtain ⟨rows, hrw, hdata⟩ := hst.rewritten file hfile
    obtain ⟨rows', hrw', hsame⟩ := rewrite_sameRows hs.rows hrw
    rw [Edit.RowsKept, rowsTaken_iff, hrw', hdata]
    simp only [Option.some.injEq, exists_eq_left', lastIn_sameGroups hsame, hsame.mem_iff]
  have hshow := shows_relinked h hs hy
  have hshow₁ : Shows s₁.nodes.rows s₁.edges (e.LinkAfter ix) := by
    rw [hs₁.nodes, hs₁.edges]
    exact codeGraph_shows ix e.after (oneFileEach_rows h owned_after)
  have hedges := edgeView_iff hshow
    (fun l hl => (relinked_nodes ix e s y) ▸ exists_linkRow_of_linkRun h hs hst hl) hshow₁
    (fun l ⟨p, hp, hl⟩ => hs₁.nodes ▸ exists_linkRow hl)
  rw [relinked_nodes, hs₁.nodes] at hedges
  constructor
  · rintro ⟨hn, he, hu⟩
    rw [relinked_nodes, hs₁.nodes] at hn
    have hperm := (perm_ext_iff_of_nodup (data_nodup _) (data_nodup _)).mpr hn
    obtain ⟨hlinks, hends⟩ := hedges.mp he
    rw [hs₁.unresolved, unresolvedRefs_iff h hs hy hperm] at hu
    have hsettled := (links_iff h hs hperm).mp hlinks
    refine ⟨h, hrows.mpr ⟨hn, fun l hl => hends l ((hlinks l).mpr hl)⟩, fun file hf hc r hr => ?_⟩
    obtain ⟨hgains, hstays⟩ :=
      (relink_iff h (source_unchanged h hf hc)).mp (hsettled file hf hc) r hr
    exact ⟨hgains, hstays, unresolved_iff.mp (hu file hf hc) r hr⟩
  · rintro ⟨-, hkept, hset⟩
    obtain ⟨hn, hends⟩ := hrows.mp hkept
    have hperm := (perm_ext_iff_of_nodup (data_nodup _) (data_nodup _)).mpr hn
    have hlinks := (links_iff h hs hperm).mpr fun file hf hc =>
      (relink_iff h (source_unchanged h hf hc)).mpr fun r hr =>
        ⟨(hset file hf hc r hr).gains, (hset file hf hc r hr).stays⟩
    refine ⟨?_, hedges.mpr ⟨hlinks, fun l hl => hends l ((hlinks l).mp hl)⟩, ?_⟩
    · rw [relinked_nodes, hs₁.nodes]
      exact hn
    · rw [hs₁.unresolved, unresolvedRefs_iff h hs hy hperm]
      exact fun file hf hc => unresolved_iff.mpr fun r hr => (hset file hf hc r hr).outside

/-- **After an edit that is settled in order the database mirrors the tree again.** -/
theorem mirrors_relinked (hs : Mirrors ix e.before s) (hset : e.SettledInOrder ix)
    (hy : (e.changedFiles ix).foldlM upsertFileNodes (purgeChanged s e.changed, []) = .ok y) :
    Mirrors ix e.after (e.relinked ix s y) := by
  have h := hset.apart
  have hst : Staged ix e s.nodes.rows (e.staged y).nodes.rows := staged_of_foldlM hs.isLocal hy
  have hat : ∀ rel, SameRows (rowsAt (e.staged y).nodes.rows rel)
      (rowsAt (ix.codeNodes e.after).rows rel) := by
    intro rel
    by_cases hrel : rel ∈ (e.changedFiles ix).map Prod.fst
    · obtain ⟨file, hfile, rfl⟩ := mem_map.mp hrel
      obtain ⟨rows, hrw, hdata⟩ := hst.rewritten file hfile
      obtain ⟨rows', hrw', hsame⟩ := rewrite_sameRows hs.rows hrw
      obtain ⟨rows'', hrw'', -, horder⟩ := rowsTaken_iff.mp (hset.rows file hfile)
      obtain rfl : rows' = rows'' := Option.some.inj (hrw'.symm.trans hrw'')
      unfold SameRows
      rw [hdata, codeNodes_rowsAt_file (mem_changedFiles.mp hfile).1]
      exact hsame.trans horder
    · exact hst.rowsAt_sameRows hs hrel
  have hrows : SameRows (e.staged y).nodes.rows (ix.codeNodes e.after).rows := by
    intro m
    rw [group_rowsAt h (hst.owned hs.owned), group_rowsAt h owned_after]
    exact hat (e.homeOf ix m) m
  have hperm := hrows.perm
  have hlinks := (links_iff h hs hperm).mpr fun file hf hc =>
    (relink_iff h (source_unchanged h hf hc)).mpr fun r hr =>
      ⟨(hset.refs file hf hc r hr).gains, (hset.refs file hf hc r hr).stays⟩
  refine ⟨?_, ?_, ?_⟩
  · rw [relinked_nodes]
    exact hrows
  · exact shows_congr hlinks (shows_relinked h hs hy)
  · exact (unresolvedRefs_iff h hs hy hperm).mpr fun file hf hc =>
      unresolved_iff.mpr fun r hr => (hset.refs file hf hc r hr).outside

end graph

/-- `main` calls `helper`; files are given by what they declare. -/
def helperIndexer : Indexer where
  langExtended := true
  docs := false
  otel := false
  extract _ source :=
    if source = "main" then
      some ⟨[⟨"main", .function, 1, 3, "fn main()"⟩], [⟨"main", "helper", false⟩], []⟩
    else if source = "helper" then some ⟨[⟨"helper", .function, 1, 1, "fn helper()"⟩], [], []⟩
    else some ⟨[⟨"other", .function, 1, 1, "fn other()"⟩], [], []⟩
  parseMarkdown _ := ⟨[], [], [], [], []⟩

def helperMoved : Edit where
  before := [⟨"a.rs", "main"⟩, ⟨"b.rs", "helper"⟩, ⟨"c.rs", "other"⟩]
  after := [⟨"a.rs", "main"⟩, ⟨"b.rs", "other"⟩, ⟨"c.rs", "helper"⟩]
  changed := ["b.rs", "c.rs"]
  before_nodup := by decide
  after_nodup := by decide
  exact := exact_of_mem (by decide)

end WeaveGraph.Indexer

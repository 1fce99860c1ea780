import WeaveGraph.Parse.Links
import WeaveGraph.Store.Rows
import WeaveGraph.Cli.Passes

/-!
# The edges of a store as links

The rows of the edge table are keyed by node ids, and ids are what two databases of the same tree
need not share.  Seen as links between monikers they are comparable: `Shows nodes edges L` says that
the table holds exactly the links `L`, each between the last rows that have its two monikers.

* A full run shows the links of the references of its tree (`codeGraph_shows`).
* Upserting the edges of some files adds their links, and replaces the resolution of a link that
  was already there (`shows_upsertEdges`).
* Two stores show the same edges when they show the same links between the same rows
  (`edgeView_iff`).
-/

namespace WeaveGraph

open List Lib

theorem ResolutionKind.asStr_inj {a b : ResolutionKind} (h : a.asStr = b.asStr) : a = b := by
  revert h
  cases a <;> cases b <;> decide

namespace Indexer

open SqliteStorage

/-! ## Rows under a moniker -/

/-- The node the id map gives a moniker. -/
def lastOf (nodes : List Node) (m : String) : Option Node :=
  (nodes.filter fun n => n.moniker == m).getLast?

theorem lookupLast_nodeIds (nodes : List Node) (m : String) :
    lookupLast m (nodeIds nodes) = (lastOf nodes m).map Node.id := by
  simp [lookupLast, bucket, nodeIds, lastOf, filter_map, Function.comp_def, Bool.beq_eq_decide_eq]

variable {nodes : List Node} {m : String} {parsed : ParsedFile} {l : Link} {v : Option String}
  {k : NodeId × NodeId × String} {L : Link → Prop}

theorem mem_of_lastOf {n : Node} (h : lastOf nodes m = some n) : n ∈ nodes ∧ n.moniker = m := by
  have hn := mem_filter.mp (mem_of_getLast? h)
  exact ⟨hn.1, by simpa using hn.2⟩

theorem exists_lastOf : (∃ n, lastOf nodes m = some n) ↔ m ∈ nodes.map Node.moniker := by
  constructor
  · rintro ⟨n, hn⟩
    obtain ⟨hmem, hm⟩ := mem_of_lastOf hn
    exact mem_map.mpr ⟨n, hmem, hm⟩
  · intro hm
    obtain ⟨n, hn, rfl⟩ := mem_map.mp hm
    cases h : lastOf nodes n.moniker with
    | some a => exact ⟨a, rfl⟩
    | none =>
      have hnil := getLast?_eq_none_iff.mp h
      have := filter_eq_nil_iff.mp hnil n hn
      simp at this

theorem mem_candidates_iff {name : String} : m ∈ bucket name (nodeDecls nodes) ↔
      ∃ n ∈ nodes, shortName n.symbol = name ∧ n.moniker = m := by
  rw [mem_bucket, nodeDecls, mem_map]
  simp only [Prod.mk.injEq]

theorem candidates_ne_nil {name : String} :
    bucket name (nodeDecls nodes) ≠ [] ↔ ∃ n ∈ nodes, shortName n.symbol = name := by
  constructor
  · intro h
    obtain ⟨m, hm⟩ := exists_mem_of_ne_nil _ h
    obtain ⟨n, hn, hname, -⟩ := mem_candidates_iff.mp hm
    exact ⟨n, hn, hname⟩
  · rintro ⟨n, hn, hname⟩
    exact ne_nil_of_mem (mem_candidates_iff.mpr ⟨n, hn, hname, rfl⟩)

/-! ## The files of monikers -/

/-- The moniker of a node with its file. -/
def owner (n : Node) : String × String := (n.moniker, n.path)

/-- The monikers of a tree with their files: those of the declarations, and those of the code that
references stand in. -/
def owners (ix : Indexer) (files : List SourceFile) : List (String × String) :=
  (ix.declared files).map owner ++
    (ix.parsedFiles files).flatMap fun p => p.2.refs.map fun r => (r.source, p.1)

theorem owned_declared {ix : Indexer} {files : List SourceFile} :
    ∀ n ∈ ix.declared files, owner n ∈ ix.owners files :=
  fun _ hn => mem_append_left _ (mem_map_of_mem hn)

theorem owned_row {ix : Indexer} {files : List SourceFile} :
    ∀ n ∈ (ix.codeNodes files).rows, owner n ∈ ix.owners files := by
  intro n hn
  obtain ⟨m, hm, hd⟩ := exists_of_mem_freshNodes hn
  simp only [Node.data, NodeData.mk.injEq] at hd
  have howner : owner n = owner m := by
    unfold owner Node.moniker
    rw [hd.2.1, hd.2.2.1]
  exact howner ▸ owned_declared m hm

theorem owned_source {ix : Indexer} {files : List SourceFile} {p : String × ParsedFile}
    (hp : p ∈ ix.parsedFiles files) {r : Ref} (hr : r ∈ p.2.refs) :
    (r.source, p.1) ∈ ix.owners files :=
  mem_append_right _ (mem_flatMap.mpr ⟨p, hp, mem_map_of_mem hr⟩)

theorem oneFileEach_rows {owners : List (String × String)} (h : OneFileEach owners)
    (hnodes : ∀ n ∈ nodes, owner n ∈ owners) : OneFileEach (nodes.map owner) := by
  refine h.mono fun o ho => ?_
  obtain ⟨n, hn, rfl⟩ := mem_map.mp ho
  exact hnodes n hn

theorem home_of_lastOf {owners : List (String × String)} (h : OneFileEach owners)
    (hnodes : ∀ n ∈ nodes, owner n ∈ owners) {n : Node} (hn : lastOf nodes m = some n) :
    home owners m = n.path := by
  rw [← (mem_of_lastOf hn).2]
  exact home_eq h (hnodes n (mem_of_lastOf hn).1)

theorem lastOf_rowsAt {owners : List (String × String)} (h : OneFileEach owners)
    (hnodes : ∀ n ∈ nodes, owner n ∈ owners) (m : String) :
    lastOf (rowsAt nodes (home owners m)) m = lastOf nodes m := by
  unfold lastOf rowsAt
  rw [filter_filter]
  congr 1
  refine filter_congr fun n hn => ?_
  by_cases hm : n.moniker = m
  · simp [← hm, home_eq h (hnodes n hn)]
  · simp [hm]

/-! ## The links of a file -/

def fileLinks (nodes : List Node) (parsed : ParsedFile) : List Link :=
  (parsed.refs.filter fun r => (nodes.map Node.moniker).contains r.source).flatMap fun r =>
    r.links (bucket r.name (nodeDecls nodes))

theorem mem_fileLinks :
    l ∈ fileLinks nodes parsed ↔ ∃ r ∈ parsed.refs, r.source ∈ nodes.map Node.moniker ∧
      l ∈ r.links (bucket r.name (nodeDecls nodes)) := by
  simp only [fileLinks, mem_flatMap, mem_filter, contains_iff_mem, and_assoc]

/-- The key and the resolution of the row of a link. -/
def linkRow (nodes : List Node) (l : Link) : Option ((NodeId × NodeId × String) × Option String) :=
  (lastOf nodes l.source).bind fun a =>
    (lastOf nodes l.target).map fun b => ((a.id, b.id, l.kind), some l.resolution.asStr)

theorem linkRow_eq_some {i j : NodeId} {k : String} : linkRow nodes l = some ((i, j, k), v) ↔
      ∃ a b, lastOf nodes l.source = some a ∧ lastOf nodes l.target = some b ∧ a.id = i ∧ b.id = j ∧
        l.kind = k ∧ some l.resolution.asStr = v := by
  unfold linkRow
  simp only [Option.bind_eq_some_iff, Option.map_eq_some_iff, Prod.mk.injEq]
  constructor
  · rintro ⟨a, ha, b, hb, ⟨hi, hj, hk⟩, hv⟩
    exact ⟨a, b, ha, hb, hi, hj, hk, hv⟩
  · rintro ⟨a, b, ha, hb, hi, hj, hk, hv⟩
    exact ⟨a, ha, b, hb, ⟨hi, hj, hk⟩, hv⟩

theorem exists_linkRow (h : l ∈ fileLinks nodes parsed) : ∃ x, linkRow nodes l = some x := by
  obtain ⟨r, -, hsource, hl⟩ := mem_fileLinks.mp h
  obtain ⟨hs, ht, -⟩ := Ref.mem_links.mp hl
  obtain ⟨n, hn, -, hm⟩ := mem_candidates_iff.mp ht.1
  obtain ⟨a, ha⟩ := exists_lastOf.mpr (hs ▸ hsource)
  obtain ⟨b, hb⟩ := exists_lastOf.mpr (mem_map.mpr ⟨n, hn, hm⟩)
  exact ⟨_, by rw [linkRow, ha, Option.bind_some, hb, Option.map_some]⟩

theorem mem_fileEdges_iff (ix : Indexer) {x : (NodeId × NodeId × String) × Option String} :
    x ∈ (ix.fileEdges nodes parsed).map (fun e => (e.naturalKey, e.resolutionKind)) ↔
      ∃ l ∈ fileLinks nodes parsed, linkRow nodes l = some x := by
  obtain ⟨⟨i, j, k⟩, v⟩ := x
  unfold fileEdges resolvedEdges
  simp only [mem_map, mem_flatMap, mem_filterMap, Prod.mk.injEq]
  constructor
  · rintro ⟨e, ⟨r, hr, t, ht, he⟩, hk, hv⟩
    unfold edgeTo at he
    simp only [lookupLast_nodeIds, Option.bind_eq_some_iff, Option.map_eq_some_iff] at he
    obtain ⟨i', ⟨a, ha, rfl⟩, j', ⟨b, hb, rfl⟩, rfl⟩ := he
    obtain ⟨rfl, rfl, rfl⟩ := hk
    refine ⟨⟨r.source, t.1, t.2.1, t.2.2⟩, mem_fileLinks.mpr ⟨r, hr, ?_, ?_⟩, ?_⟩
    · exact exists_lastOf.mp ⟨a, ha⟩
    · exact mem_map.mpr ⟨t, ht, rfl⟩
    · exact linkRow_eq_some.mpr ⟨a, b, ha, hb, rfl, rfl, rfl, hv⟩
  · rintro ⟨l, hl, hrow⟩
    obtain ⟨a, b, ha, hb, rfl, rfl, rfl, rfl⟩ := linkRow_eq_some.mp hrow
    obtain ⟨r, hr, -, hl⟩ := mem_fileLinks.mp hl
    obtain ⟨t, ht, rfl⟩ := mem_map.mp hl
    refine ⟨⟨0, a.id, b.id, t.2.1, extractorOf ix.langExtended r.source, some t.2.2.asStr⟩,
      ⟨r, hr, t, ht, ?_⟩, rfl, rfl⟩
    simp [edgeTo, lookupLast_nodeIds, ha, hb]

/-! ## Edge tables -/

def edgeAt (t : EdgeTable) (k : NodeId × NodeId × String) : Option (Option String) :=
  (t.get k).map Edge.resolutionKind

theorem edgeAt_eq_some {t : EdgeTable} :
    edgeAt t k = some v ↔ ∃ e ∈ t.rows, e.naturalKey = k ∧ e.resolutionKind = v := by
  unfold edgeAt
  simp only [Option.map_eq_some_iff, Table.get_eq_some, and_assoc]

theorem edgeAt_upsertEdge (t : EdgeTable) (e : Edge) (k : NodeId × NodeId × String) :
    edgeAt (upsertEdge t e) k = if e.naturalKey = k then some e.resolutionKind else edgeAt t k := by
  have h := Table.get_upsert t (fun id => { e with id := id })
    (fun r => { r with extractor := e.extractor, resolutionKind := e.resolutionKind })
    (fun _ => rfl) (fun _ => rfl) (fun _ => rfl) k
  unfold edgeAt
  rw [show (upsertEdge t e).get k = _ from h]
  show Option.map Edge.resolutionKind (if e.naturalKey = k then _ else t.get k) = _
  by_cases hk : e.naturalKey = k
  · rw [if_pos hk, if_pos hk]
    cases t.get k <;> rfl
  · rw [if_neg hk, if_neg hk]

theorem edgeAt_upsertEdges (es : List Edge) : ∀ (t : EdgeTable) (k : NodeId × NodeId × String),
    edgeAt (upsertEdges t es) k =
      (lookupLast k (es.map fun e => (e.naturalKey, e.resolutionKind))).or (edgeAt t k) := by
  induction es using List.reverseRecOn with
  | nil => intro t k; rfl
  | append_singleton es e ih =>
    intro t k
    have happ : upsertEdges t (es ++ [e]) = upsertEdge (upsertEdges t es) e := by
      unfold upsertEdges
      rw [foldl_append]
      rfl
    rw [happ, edgeAt_upsertEdge, ih, map_append, map_cons, map_nil, lookupLast_append_singleton]
    by_cases hk : e.naturalKey = k
    · rw [if_pos hk, if_pos hk]
      rfl
    · rw [if_neg hk, if_neg hk]

def Shows (nodes : List Node) (t : EdgeTable) (L : Link → Prop) : Prop :=
  ∀ k v, edgeAt t k = some v ↔ ∃ l, L l ∧ linkRow nodes l = some (k, v)

theorem shows_congr {t : EdgeTable} {L' : Link → Prop} (hL : ∀ l, L l ↔ L' l) (h : Shows nodes t L)
    : Shows nodes t L' := by
  intro k v
  rw [h k v]
  exact exists_congr fun l => and_congr_left fun _ => hL l

section owned

variable {t : NodeTable} (hone : OneFileEach (t.rows.map owner))

include hone

theorem name_of_candidate {m x x' : String} (h : m ∈ bucket x (nodeDecls t.rows))
    (h' : m ∈ bucket x' (nodeDecls t.rows)) : x = x' := by
  obtain ⟨n, hn, rfl, hm⟩ := mem_candidates_iff.mp h
  obtain ⟨n', hn', rfl, hm'⟩ := mem_candidates_iff.mp h'
  have hsame : buildMoniker n.path n.symbol = buildMoniker n'.path n'.symbol := hm.trans hm'.symm
  have hpath : n.path = n'.path :=
    hone _ (mem_map_of_mem hn) _ (mem_map_of_mem hn') hsame
  rw [hpath] at hsame
  rw [symbol_of_buildMoniker hsame]

theorem link_eq {parsed parsed' : ParsedFile} {l l' : Link} (hl : l ∈ fileLinks t.rows parsed)
    (hl' : l' ∈ fileLinks t.rows parsed') (h : l.SameEnds l') : l = l' := by
  obtain ⟨hs, ht, hk⟩ := h
  obtain ⟨r, -, -, hr⟩ := mem_fileLinks.mp hl
  obtain ⟨r', -, -, hr'⟩ := mem_fileLinks.mp hl'
  obtain ⟨hrs, hrt, -⟩ := Ref.mem_links.mp hr
  obtain ⟨hrs', hrt', -⟩ := Ref.mem_links.mp hr'
  have hname : r.name = r'.name := name_of_candidate hone (ht ▸ hrt.1) hrt'.1
  rw [hname] at hr
  have hres := Ref.resolution_eq hr hr' (hrs.symm.trans (hs.trans hrs')) hk
  cases l
  cases l'
  simp_all

end owned

theorem ends_of_linkRow {t : NodeTable} {l' : Link} {v' : Option String}
    (h : linkRow t.rows l = some (k, v)) (h' : linkRow t.rows l' = some (k, v')) :
    l.SameEnds l' := by
  obtain ⟨i, j, kind⟩ := k
  obtain ⟨a, b, ha, hb, rfl, rfl, rfl, -⟩ := linkRow_eq_some.mp h
  obtain ⟨a', b', ha', hb', hi, hj, hk, -⟩ := linkRow_eq_some.mp h'
  obtain ⟨ham, has⟩ := mem_of_lastOf ha
  obtain ⟨hbm, hbs⟩ := mem_of_lastOf hb
  obtain ⟨ham', has'⟩ := mem_of_lastOf ha'
  obtain ⟨hbm', hbs'⟩ := mem_of_lastOf hb'
  refine ⟨?_, ?_, hk.symm⟩
  · rw [← has, ← has', t.pk_inj ham' ham hi]
  · rw [← hbs, ← hbs', t.pk_inj hbm' hbm hj]

/-- **Writing the edges of some files** adds their links; of the links that were there, those under
other keys stay. -/
theorem shows_upsertEdges (ix : Indexer) {t : NodeTable}
    (hone : OneFileEach (t.rows.map owner)) {edges : EdgeTable} (h : Shows t.rows edges L)
    (files : List (String × ParsedFile)) :
    Shows t.rows (upsertEdges edges (files.flatMap fun p => ix.fileEdges t.rows p.2)) fun l =>
      (∃ p ∈ files, l ∈ fileLinks t.rows p.2) ∨
        (L l ∧ ∀ p ∈ files, ∀ l' ∈ fileLinks t.rows p.2, ¬ l'.SameEnds l) := by
  have hnew : ∀ x : (NodeId × NodeId × String) × Option String,
      x ∈ (files.flatMap fun p => ix.fileEdges t.rows p.2).map
        (fun e => (e.naturalKey, e.resolutionKind)) ↔
      ∃ l, (∃ p ∈ files, l ∈ fileLinks t.rows p.2) ∧ linkRow t.rows l = some x := by
    intro x
    rw [map_flatMap, mem_flatMap]
    simp only [mem_fileEdges_iff]
    constructor
    · rintro ⟨p, hp, l, hl, hrow⟩
      exact ⟨l, ⟨p, hp, hl⟩, hrow⟩
    · rintro ⟨l, ⟨p, hp, hl⟩, hrow⟩
      exact ⟨p, hp, l, hl, hrow⟩
  -- the new edges agree on the resolution under each key
  have hagree : ∀ k v v', (k, v) ∈ (files.flatMap fun p => ix.fileEdges t.rows p.2).map
        (fun e => (e.naturalKey, e.resolutionKind)) →
      (k, v') ∈ (files.flatMap fun p => ix.fileEdges t.rows p.2).map
        (fun e => (e.naturalKey, e.resolutionKind)) → v = v' := by
    intro k v v' hv hv'
    obtain ⟨l, ⟨p, hp, hl⟩, hrow⟩ := (hnew _).mp hv
    obtain ⟨l', ⟨p', hp', hl'⟩, hrow'⟩ := (hnew _).mp hv'
    rw [link_eq hone hl hl' (ends_of_linkRow hrow hrow'), hrow'] at hrow
    simp only [Option.some.injEq, Prod.mk.injEq, true_and] at hrow
    exact hrow.symm
  intro k v
  rw [edgeAt_upsertEdges, Option.or_eq_some_iff, lookupLast_eq_some_iff (hagree k),
    lookupLast_eq_none_iff, hnew, h k v]
  constructor
  · rintro (⟨l, hl, hrow⟩ | ⟨hfree, l, hl, hrow⟩)
    · exact ⟨l, Or.inl hl, hrow⟩
    · refine ⟨l, Or.inr ⟨hl, fun p hp l' hl' hends => ?_⟩, hrow⟩
      obtain ⟨hs, ht, hk⟩ := hends
      have hrow' : linkRow t.rows l' = some (k, some l'.resolution.asStr) := by
        obtain ⟨a, b, ha, hb, hi, hj, hkind, -⟩ := linkRow_eq_some.mp hrow
        exact linkRow_eq_some.mpr ⟨a, b, hs ▸ ha, ht ▸ hb, hi, hj, hk.trans hkind, rfl⟩
      exact hfree _ ((hnew _).mpr ⟨l', ⟨p, hp, hl'⟩, hrow'⟩)
  · rintro ⟨l, hl | ⟨hl, hfree⟩, hrow⟩
    · exact Or.inl ⟨l, hl, hrow⟩
    · refine Or.inr ⟨fun v' hv' => ?_, l, hl, hrow⟩
      obtain ⟨l', ⟨p, hp, hl'⟩, hrow'⟩ := (hnew _).mp hv'
      exact hfree p hp l' hl' (ends_of_linkRow hrow' hrow)

theorem codeGraph_shows (ix : Indexer) (files : List SourceFile)
    (hone : OneFileEach ((ix.codeNodes files).rows.map owner)) :
    Shows (ix.codeNodes files).rows (ix.codeGraph files).edges fun l =>
      ∃ p ∈ ix.parsedFiles files, l ∈ fileLinks (ix.codeNodes files).rows p.2 := by
  have hempty : Shows (ix.codeNodes files).rows Table.empty fun _ => False := by
    intro k v
    constructor
    · intro h
      obtain ⟨e, he, -⟩ := edgeAt_eq_some.mp h
      cases he
    · rintro ⟨l, hl, -⟩
      cases hl
  have h := shows_upsertEdges ix hone hempty (ix.parsedFiles files)
  rw [codeGraph_edges]
  simpa only [false_and, or_false] using h

/-! ## What a reader sees of the edges -/

/-- The edges with the nodes at their ends, ids aside. -/
def edgeView (s : SqliteStorage) :
    List (Option NodeData × Option NodeData × String × Option String) :=
  s.edges.rows.map fun e => ((s.getNode e.sourceId).map Node.data,
    (s.getNode e.targetId).map Node.data, e.kind, e.resolutionKind)

def linkView (nodes : List Node) (l : Link) :
    Option NodeData × Option NodeData × String × Option String :=
  ((lastOf nodes l.source).map Node.data, (lastOf nodes l.target).map Node.data, l.kind,
    some l.resolution.asStr)

theorem moniker_of_data {a b : Node} (h : a.data = b.data) : a.moniker = b.moniker := by
  simp only [Node.data, NodeData.mk.injEq] at h
  simp [Node.moniker, h]

section view

variable {s s' : SqliteStorage} {L L' : Link → Prop}

theorem mem_edgeView (h : Shows s.nodes.rows s.edges L)
    (hrow : ∀ l, L l → ∃ x, linkRow s.nodes.rows l = some x)
    {x : Option NodeData × Option NodeData × String × Option String} :
    x ∈ edgeView s ↔ ∃ l, L l ∧ linkView s.nodes.rows l = x := by
  have hview : ∀ {l : Link} {i j : NodeId} {k : String} {v : Option String},
      linkRow s.nodes.rows l = some ((i, j, k), v) → linkView s.nodes.rows l =
        ((s.getNode i).map Node.data, (s.getNode j).map Node.data, k, v) := by
    intro l i j k v hl
    obtain ⟨a, b, ha, hb, rfl, rfl, rfl, rfl⟩ := linkRow_eq_some.mp hl
    rw [linkView, ha, hb, getNode_eq (mem_of_lastOf ha).1, getNode_eq (mem_of_lastOf hb).1]
  unfold edgeView
  rw [mem_map]
  constructor
  · rintro ⟨e, he, rfl⟩
    obtain ⟨l, hl, hr⟩ :=
      (h e.naturalKey e.resolutionKind).mp (edgeAt_eq_some.mpr ⟨e, he, rfl, rfl⟩)
    exact ⟨l, hl, hview hr⟩
  · rintro ⟨l, hl, rfl⟩
    obtain ⟨⟨k, v⟩, hr⟩ := hrow l hl
    obtain ⟨e, he, rfl, rfl⟩ := edgeAt_eq_some.mp ((h k v).mpr ⟨l, hl, hr⟩)
    exact ⟨e, he, (hview hr).symm⟩

theorem linkView_inj {nodes nodes' : List Node} {l l' : Link}
    (hl : ∃ x, linkRow nodes l = some x) (hl' : ∃ x, linkRow nodes' l' = some x)
    (h : linkView nodes l = linkView nodes' l') : l = l' := by
  obtain ⟨⟨⟨i, j, k⟩, v⟩, hl⟩ := hl
  obtain ⟨⟨⟨i', j', k'⟩, v'⟩, hl'⟩ := hl'
  obtain ⟨a, b, ha, hb, -⟩ := linkRow_eq_some.mp hl
  obtain ⟨a', b', ha', hb', -⟩ := linkRow_eq_some.mp hl'
  simp only [linkView, ha, hb, ha', hb', Option.map_some, Prod.mk.injEq, Option.some.injEq] at h
  obtain ⟨hda, hdb, hkind, hres⟩ := h
  have hs := ((mem_of_lastOf ha).2.symm.trans (moniker_of_data hda)).trans (mem_of_lastOf ha').2
  have ht := ((mem_of_lastOf hb).2.symm.trans (moniker_of_data hdb)).trans (mem_of_lastOf hb').2
  cases l
  simp only at hs ht hkind hres
  rw [hs, ht, hkind, ResolutionKind.asStr_inj hres]

/-- **Two stores show the same edges** exactly when they show the same links between rows with the
same columns. -/
theorem edgeView_iff (h : Shows s.nodes.rows s.edges L)
    (hrow : ∀ l, L l → ∃ x, linkRow s.nodes.rows l = some x)
    (h' : Shows s'.nodes.rows s'.edges L')
    (hrow' : ∀ l, L' l → ∃ x, linkRow s'.nodes.rows l = some x) :
    (∀ x, x ∈ edgeView s ↔ x ∈ edgeView s') ↔
      (∀ l, L l ↔ L' l) ∧ ∀ l, L l → linkView s.nodes.rows l = linkView s'.nodes.rows l := by
  simp only [mem_edgeView h hrow, mem_edgeView h' hrow']
  constructor
  · intro hall
    have hto : ∀ l, L l → L' l ∧ linkView s.nodes.rows l = linkView s'.nodes.rows l := by
      intro l hl
      obtain ⟨l', hl', hv⟩ := (hall (linkView s.nodes.rows l)).mp ⟨l, hl, rfl⟩
      obtain rfl := linkView_inj (hrow' l' hl') (hrow l hl) hv
      exact ⟨hl', hv.symm⟩
    have hof : ∀ l, L' l → L l := by
      intro l hl
      obtain ⟨l', hl', hv⟩ := (hall (linkView s'.nodes.rows l)).mpr ⟨l, hl, rfl⟩
      obtain rfl := linkView_inj (hrow l' hl') (hrow' l hl) hv
      exact hl'
    exact ⟨fun l => ⟨fun hl => (hto l hl).1, hof l⟩, fun l hl => (hto l hl).2⟩
  · rintro ⟨hL, hview⟩ x
    constructor
    · rintro ⟨l, hl, rfl⟩
      exact ⟨l, (hL l).mp hl, (hview l hl).symm⟩
    · rintro ⟨l, hl, rfl⟩
      exact ⟨l, (hL l).mpr hl, hview l ((hL l).mpr hl)⟩

end view

end Indexer

end WeaveGraph

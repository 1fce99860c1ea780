import WeaveGraph.Store.Upsert
import WeaveGraph.Cli.Passes

/-!
# No edge is left dangling

Every edge of the store joins two stored nodes, in every database a history of reindex runs can
reach.  An incremental run purges the edges of the changed files before it drops their nodes, so
the nodes it drops have no edge left; the orphan sweep of the documentation pass is the one
other place a node goes away, and it looks at inbound edges only.  So the invariant also says
that a topic is never the source of an edge (`Linked`).

A topic can become a source in one way: its moniker `#tag` is the moniker of a caller, which takes
a source file whose path starts with `#`.  `TopicSourceFree` is the condition that it is not.
-/

namespace WeaveGraph.Indexer

open List Lib SqliteStorage

def NoDangling (s : SqliteStorage) : Prop :=
  ∀ e ∈ s.edges.rows, e.sourceId ∈ s.nodes.rows.map Node.id ∧ e.targetId ∈ s.nodes.rows.map Node.id
deriving Decidable

/-- No topic among `nodes` has the moniker of a caller or source in the tree. -/
def SourcesAnchored (ix : Indexer) (files : List SourceFile) (nodes : List Node) : Prop :=
  ix.docs = true → ∀ p ∈ files.filterMap ix.parseFile, ∀ r ∈ p.refs,
    ∀ n ∈ nodes, n.kind = docTopicKind → n.moniker ≠ r.source

instance (ix : Indexer) (files : List SourceFile) (nodes : List Node) :
    Decidable (SourcesAnchored ix files nodes) := by
  unfold SourcesAnchored
  infer_instance

/-- The condition on a command, in the database it is run on. -/
def TopicSourceFree (ix : Indexer) (s : SqliteStorage) : Command → Prop
  | .full _ => True
  | .incremental files _ => SourcesAnchored ix files s.nodes.rows

instance (ix : Indexer) (s : SqliteStorage) (c : Command) : Decidable (TopicSourceFree ix s c) := by
  unfold TopicSourceFree
  split <;> infer_instance

/-! ## The invariant -/

/-- A node that no sweep removes. -/
def Anchored (docs : Bool) (t : NodeTable) (id : NodeId) : Prop :=
  ∃ n ∈ t.rows, n.id = id ∧ (docs = true → n.kind ≠ docTopicKind)

/-- Every edge goes from a node no sweep removes to a stored node. -/
def Linked (docs : Bool) (s : SqliteStorage) : Prop :=
  ∀ e ∈ s.edges.rows, Anchored docs s.nodes e.sourceId ∧ e.targetId ∈ s.nodes.rows.map Node.id

variable {docs : Bool} {s s' active : SqliteStorage} {parsed : ParsedFile} {ix : Indexer}
  {files : List SourceFile} {changed : List String} {stats : IndexStats}

theorem Linked.noDangling (h : Linked docs s) : NoDangling s := by
  intro e he
  obtain ⟨⟨n, hn, hid, -⟩, ht⟩ := h e he
  exact ⟨mem_map.mpr ⟨n, hn, hid⟩, ht⟩

section grows

variable {new : String → Prop} {t t' : NodeTable} {id : NodeId}

theorem Grows.anchored (h : Grows new t t') {docs : Bool} (ha : Anchored docs t id) :
    Anchored docs t' id := by
  obtain ⟨n, hn, hid, hk⟩ := ha
  obtain ⟨n', hn', hid', hk'⟩ := h.keeps n hn
  exact ⟨n', hn', hid'.trans hid, fun hd => hk' ▸ hk hd⟩

theorem Grows.linked {docs : Bool} {s s' : SqliteStorage} (h : Grows new s.nodes s'.nodes)
    (he : s'.edges = s.edges) (hl : Linked docs s) : Linked docs s' := by
  intro e hmem
  rw [he] at hmem
  exact ⟨h.anchored (hl e hmem).1, h.mem_ids (hl e hmem).2⟩

theorem upsertNodes_grows (batch : List Node) : ∀ {t t' : NodeTable} {ids : List NodeId},
    (∀ n ∈ batch, new n.kind) → upsertNodes t batch = .ok (ids, t') → Grows new t t' := by
  induction batch with
  | nil =>
    intro t t' ids _ h
    cases h
    exact Grows.refl t
  | cons n batch ih =>
    intro t t' ids hnew h
    obtain ⟨id, t1, ids1, h1, h2, rfl⟩ := upsertNodes_cons_ok h
    exact (upsertBatchNode_grows (hnew n mem_cons_self) h1).1.trans
      (ih (fun m hm => hnew m (mem_cons_of_mem _ hm)) h2)

end grows

theorem fileNodes_kind {rel : String} {n : Node} (h : n ∈ fileNodes rel parsed) :
    n.kind ≠ docTopicKind := by
  obtain ⟨symbol, -, rfl⟩ := mem_map.mp h
  show symbol.kind.asStr ≠ docTopicKind
  cases symbol.kind <;> decide

theorem upsertAllNodes_grows {ids : List (String × NodeId)}
    (h : ix.upsertAllNodes files s = .ok (s', ids)) :
    Grows (· ≠ docTopicKind) s.nodes s'.nodes ∧ s'.edges = s.edges := by
  refine foldlM_invariant (P := fun x : SqliteStorage × List (String × NodeId) =>
    Grows (· ≠ docTopicKind) s.nodes x.1.nodes ∧ x.1.edges = s.edges) ?_ ⟨Grows.refl _, rfl⟩ h
  rintro f - ⟨s1, ids1⟩ ⟨s2, ids2⟩ ⟨hg, he⟩ hf
  split at hf
  · obtain ⟨⟨nodeIds, nodes⟩, hu, hp⟩ := bind_eq_ok.mp hf
    cases hp
    exact ⟨hg.trans (upsertNodes_grows _ (fun n hn => fileNodes_kind hn) hu), he⟩
  · cases hf
    exact ⟨hg, he⟩

/-! ## Edge writes -/

theorem linked_upsertEdges {docs : Bool} {s : SqliteStorage} {es : List Edge} (hl : Linked docs s)
    (hes : ∀ e ∈ es, Anchored docs s.nodes e.sourceId ∧ e.targetId ∈ s.nodes.rows.map Node.id) :
    Linked docs { s with edges := upsertEdges s.edges es } := by
  intro e he
  have hk := (upsertEdges_keys es s.edges).mp (mem_map_of_mem he)
  -- both ends of an edge are part of its natural key
  have hends : ∀ e' : Edge, e'.naturalKey = e.naturalKey →
      e'.sourceId = e.sourceId ∧ e'.targetId = e.targetId := by
    intro e' h
    simp only [Edge.naturalKey, Prod.mk.injEq] at h
    exact ⟨h.1, h.2.1⟩
  rcases hk with hk | hk
  · obtain ⟨e', he', hkey⟩ := mem_map.mp hk
    obtain ⟨hs, ht⟩ := hends e' hkey
    exact hs ▸ ht ▸ hl e' he'
  · obtain ⟨e', he', hkey⟩ := mem_map.mp hk
    obtain ⟨hs, ht⟩ := hends e' hkey
    exact hs ▸ ht ▸ hes e' he'

theorem mem_lookup_nodeIds {nodes : List Node} {m : String} {id : NodeId}
    (h : lookupLast m (nodeIds nodes) = some id) : ∃ n ∈ nodes, n.moniker = m ∧ n.id = id := by
  obtain ⟨n, hn, he⟩ := mem_map.mp (mem_of_lookupLast h)
  simp only [Prod.mk.injEq] at he
  exact ⟨n, hn, he.1, he.2⟩

/-- The ends of a file's edge: the node of one of its sources, and a stored node. -/
theorem ends_of_mem_fileEdges {nodes : List Node} {e : Edge} (h : e ∈ ix.fileEdges nodes parsed) :
    ∃ r ∈ parsed.refs, (∃ n ∈ nodes, n.moniker = r.source ∧ n.id = e.sourceId) ∧
      e.targetId ∈ nodes.map Node.id := by
  obtain ⟨r, hr, he⟩ := mem_flatMap.mp h
  obtain ⟨t, -, ht⟩ := mem_filterMap.mp he
  obtain ⟨sid, hs, hmap⟩ := Option.bind_eq_some_iff.mp ht
  obtain ⟨tid, htid, rfl⟩ := Option.map_eq_some_iff.mp hmap
  obtain ⟨n, hn, -, hid⟩ := mem_lookup_nodeIds htid
  exact ⟨r, hr, mem_lookup_nodeIds hs, mem_map.mpr ⟨n, hn, hid⟩⟩

theorem linked_upsertAllEdges (hl : Linked ix.docs s) (hsrc : SourcesAnchored ix files s.nodes.rows)
    (h : ix.upsertAllEdges (buildProjectIndexFromStorage s) files s = .ok s') :
    Linked ix.docs s' ∧ s'.nodes = s.nodes := by
  refine foldlM_invariant (P := fun x : SqliteStorage =>
    Linked ix.docs x ∧ x.nodes = s.nodes) ?_ ⟨hl, rfl⟩ h
  rintro f hf s1 s2 ⟨hl1, hn1⟩ hok
  cases hp : ix.parseFile f with
  | none =>
    simp only [hp] at hok
    cases hok
    exact ⟨hl1, hn1⟩
  | some parsed =>
    simp only [hp] at hok
    cases hok
    rw [upsertFileEdges_eq ix (indexed_build s)]
    refine ⟨linked_upsertEdges (s := s1) hl1 fun e he => ?_, hn1⟩
    obtain ⟨r, hr, ⟨n, hn, hm, hid⟩, ht⟩ := ends_of_mem_fileEdges he
    rw [hn1]
    refine ⟨⟨n, hn, hid, fun hd hk => ?_⟩, ht⟩
    exact hsrc hd parsed (mem_filterMap.mpr ⟨f, hf, hp⟩) r hr n hn hk hm

/-! ## Dropping the nodes of changed files -/

/-- No edge touches a node of a changed file. -/
def Untouched (s : SqliteStorage) (changed : List String) : Prop :=
  ∀ e ∈ s.edges.rows, ∀ n ∈ s.nodes.rows, n.repoId = localRepo → n.path ∈ changed →
    n.id ≠ e.sourceId ∧ n.id ≠ e.targetId

theorem untouched_purgeChanged (s : SqliteStorage) (changed : List String) :
    Untouched (purgeChanged s changed) changed := by
  obtain ⟨hn, he, -⟩ := purgeChanged_eq changed s
  intro e hmem n hmemn hr hp
  rw [he, mem_filter] at hmem
  rw [hn] at hmemn
  by_contra hcon
  have ht : touches s.nodes.rows n.path e = true := by
    rw [touches, any_eq_true]
    refine ⟨n, hmemn, ?_⟩
    simp only [hr, beq_self_eq_true, Bool.true_and, Bool.or_eq_true, beq_iff_eq]
    by_contra h
    exact hcon (not_or.mp h)
  have hany : (changed.any fun rel => touches s.nodes.rows rel e) = true :=
    any_eq_true.mpr ⟨n.path, hp, ht⟩
  simp [hany] at hmem

theorem linked_purgeChanged (hl : Linked docs s) (changed : List String) :
    Linked docs (purgeChanged s changed) := by
  obtain ⟨hn, he, -⟩ := purgeChanged_eq changed s
  intro e hmem
  rw [he, mem_filter] at hmem
  rw [hn]
  exact hl e hmem.1

theorem Grows.untouched {new : String → Prop} (hg : Grows new s.nodes s'.nodes)
    (he : s'.edges = s.edges) (hl : Linked docs s) (hu : Untouched s changed) :
    Untouched s' changed := by
  intro e hmem n' hn' hr hp
  rw [he] at hmem
  by_cases hid : n'.id ∈ s.nodes.rows.map Node.id
  · obtain ⟨n, hn, hid', hs⟩ := hg.traces n' hn' hid
    obtain ⟨hr', hp', -⟩ := sameSymbol_iff.mp hs
    have := hu e hmem n hn (hr'.trans hr) (hp' ▸ hp)
    rwa [hid'] at this
  · obtain ⟨⟨n, hn, hs, -⟩, ht⟩ := hl e hmem
    constructor
    · rintro h
      exact hid (h ▸ hs ▸ mem_map_of_mem hn)
    · rintro h
      exact hid (h ▸ ht)

theorem linked_purgeStaleNodes (hl : Linked docs s) (hu : Untouched s changed)
    (written : List (String × NodeId)) : Linked docs (purgeStaleNodes s changed written) := by
  obtain ⟨hn, he, -⟩ := purgeStaleNodes_eq changed written s
  -- a node at an end of an edge is not in a changed file, so it stays
  have hstay : ∀ e ∈ s.edges.rows, ∀ n ∈ s.nodes.rows, n.id = e.sourceId ∨ n.id = e.targetId →
        n ∈ (purgeStaleNodes s changed written).nodes.rows := by
    intro e hmem n hmemn hend
    rw [hn, mem_filter]
    refine ⟨hmemn, ?_⟩
    simp only [Bool.not_eq_true', Bool.and_eq_false_iff, beq_eq_false_iff_ne]
    by_contra hcon
    simp only [not_or, not_not, Bool.not_eq_false, contains_eq_mem, decide_eq_true_eq] at hcon
    obtain ⟨h1, h2⟩ := hu e hmem n hmemn hcon.1.1 hcon.1.2
    exact hend.elim h1 h2
  intro e hmem
  rw [he] at hmem
  obtain ⟨⟨n, hmemn, hs, hk⟩, ht⟩ := hl e hmem
  obtain ⟨m, hmemm, hm⟩ := mem_map.mp ht
  exact ⟨⟨n, hstay e hmem n hmemn (Or.inl hs), hs, hk⟩,
    mem_map.mpr ⟨m, hstay e hmem m hmemm (Or.inr hm), hm⟩⟩

/-! ## The documentation pass -/

theorem linked_gcOrphanedDocTopics (hl : Linked true s) : Linked true (gcOrphanedDocTopics s) := by
  intro e he
  obtain ⟨⟨n, hn, hs, hk⟩, ht⟩ := hl e he
  obtain ⟨m, hm, hmid⟩ := mem_map.mp ht
  have hin : e.targetId ∈ s.edges.rows.map Edge.targetId := mem_map_of_mem he
  constructor
  · refine ⟨n, mem_filter.mpr ⟨hn, ?_⟩, hs, hk⟩
    simp [hk rfl]
  · refine mem_map.mpr ⟨m, mem_filter.mpr ⟨hm, ?_⟩, hmid⟩
    simp only [hmid, contains_eq_mem, hin, decide_true, Bool.not_true, Bool.and_false,
      Bool.not_false]

theorem linked_indexDocs {changed : List SourceFile} (hl : Linked ix.docs s)
    (h : ix.indexDocs s files changed = .ok s') : Linked ix.docs s' := by
  cases hdocs : ix.docs with
  | false =>
    unfold indexDocs at h
    rw [hdocs] at h hl
    cases h
    exact hl
  | true =>
    have hP : DocInvariant (fun _ _ => True) (Linked true) := by
      refine ⟨fun _ hx hok => ?_, fun _ _ _ => trivial,
        fun {s kind note targetId} _ hn hk ht hx => ?_⟩
      · obtain ⟨hg, he, -⟩ := upsertNode_grows hok
        exact hg.linked he hx
      · have hlink := @linked_upsertEdges true s [docEdge note.id targetId kind] hx
        refine hlink fun e he => ?_
        rw [mem_singleton.mp he]
        refine ⟨⟨_, hn, rfl, fun _ htopic => ?_⟩, ht⟩
        exact absurd (hk.symm.trans htopic) (by decide)
    rw [hdocs] at hl
    exact indexDocs_invariant hP trivial (fun _ _ _ => trivial) linked_gcOrphanedDocTopics hl h

/-! ## Whole runs -/

theorem insertFreshNodes_kind (l : List Node) : ∀ {t : NodeTable},
    (∀ n ∈ l, n.kind ≠ docTopicKind) → (∀ n ∈ t.rows, n.kind ≠ docTopicKind) →
    ∀ n ∈ (insertFreshNodes t l).2.rows, n.kind ≠ docTopicKind := by
  induction l with
  | nil => exact fun _ ht => ht
  | cons m l ih =>
    intro t hl ht
    refine ih (fun n hn => hl n (mem_cons_of_mem _ hn)) fun n hn => ?_
    have hm := hl m mem_cons_self
    rcases (Table.mem_upsert ..).mp hn with ⟨hn, -⟩ | ⟨r, -, -, rfl⟩ | ⟨-, rfl⟩
    · exact ht n hn
    · exact hm
    · exact hm

theorem insertAllNodes_spec {n : Nat} (h : ix.insertAllNodes files openFresh = .ok (s, n)) :
    s.edges.rows = [] ∧ ∀ n ∈ s.nodes.rows, n.kind ≠ docTopicKind := by
  refine foldlM_invariant (P := fun x : SqliteStorage × Nat =>
    x.1.edges.rows = [] ∧ ∀ n ∈ x.1.nodes.rows, n.kind ≠ docTopicKind) ?_ ?_ h
  · rintro f - ⟨s1, n1⟩ ⟨s2, n2⟩ ⟨he, hk⟩ hf
    split at hf
    · cases hf
      exact ⟨he, insertFreshNodes_kind _ (fun n hn => fileNodes_kind hn) hk⟩
    · cases hf
      exact ⟨he, hk⟩
  · exact ⟨rfl, fun n hn => by cases hn⟩

theorem linked_fullReindex (h : ix.fullReindex active files = .ok (stats, s)) :
    Linked ix.docs s := by
  obtain ⟨s1, total, s2, s3, h1, h2, h3, rfl⟩ := fullReindex_stages h
  obtain ⟨he, hk⟩ := insertAllNodes_spec h1
  have hl1 : Linked ix.docs s1 := fun e hmem => by
    rw [he] at hmem
    cases hmem
  have hl2 := linked_upsertAllEdges hl1 (fun _ _ _ _ _ n hn hkind => absurd hkind (hk n hn)) h2
  have hl3 := linked_indexDocs hl2.1 h3
  unfold carryOverSpans
  split
  · exact hl3
  · exact hl3

theorem linked_incrementalReindex (hl : Linked ix.docs active)
    (hsrc : SourcesAnchored ix files active.nodes.rows)
    (h : ix.incrementalReindex active files changed = .ok (stats, s)) : Linked ix.docs s := by
  unfold incrementalReindex at h
  split at h
  · cases h
    exact hl
  · obtain ⟨⟨s1, written⟩, h1, h⟩ := bind_eq_ok.mp h
    obtain ⟨s2, h2, h⟩ := bind_eq_ok.mp h
    obtain ⟨s3, h3, h⟩ := bind_eq_ok.mp h
    cases h
    obtain ⟨hg, he⟩ := upsertAllNodes_grows h1
    have hl0 := linked_purgeChanged hl changed
    have hl1 := hg.linked he hl0
    have hu1 := hg.untouched he hl0 (untouched_purgeChanged active changed)
    have hl2 := linked_purgeStaleNodes hl1 hu1 written
    -- a topic that is left was there before the run
    have hsrc2 : SourcesAnchored ix (files.filter fun f =>
        (ix.affectedFiles active files changed).contains f.rel)
        (purgeStaleNodes s1 changed written).nodes.rows := by
      intro hd p hp r hr n hn hkind
      rw [(purgeStaleNodes_eq changed written s1).1, mem_filter] at hn
      have hid : n.id ∈ (purgeChanged active changed).nodes.rows.map Node.id := by
        by_contra hid
        exact hg.adds n hn.1 hid hkind
      obtain ⟨m, hm, -, hs⟩ := hg.traces n hn.1 hid
      obtain ⟨-, hpath, hsym, hk⟩ := sameSymbol_iff.mp hs
      rw [(purgeChanged_eq changed active).1] at hm
      obtain ⟨f, hf, hpf⟩ := mem_filterMap.mp hp
      have := hsrc hd p (mem_filterMap.mpr ⟨f, (mem_filter.mp hf).1, hpf⟩) r hr m hm
        (hk.trans hkind)
      simpa [Node.moniker, hpath, hsym] using this
    exact linked_indexDocs (linked_upsertAllEdges hl2 hsrc2 h2).1 h3

/-- **No edge dangles** in any database reached by reindex runs none of whose topics is taken for
a caller. -/
theorem reindex_noDangling (ix : Indexer) (commands : List Command) (s : SqliteStorage)
    (hfree : Guarded (fun s c => some (ix.reindex s c)) (TopicSourceFree ix) openFresh commands)
    (hrun : exec (fun s c => some (ix.reindex s c)) openFresh commands = some s) :
    NoDangling s := by
  have hstart : Linked ix.docs openFresh := fun e he => by cases he
  refine (exec_invariant (P := Linked ix.docs) ?_ commands hstart hfree hrun).noDangling
  intro s c t hl hg ht
  cases ht
  cases c with
  | full files =>
    simp only [reindex]
    split
    · rename_i stats s' h
      exact linked_fullReindex h
    · exact hl
  | incremental files changed =>
    simp only [reindex]
    split
    · rename_i stats s' h
      exact linked_incrementalReindex hl hg h
    · exact hl

/-! ## A topic taken for a caller -/

/-- One Rust file with `bar` calling `baz`, and a note that is tagged when its text is `tagged`. -/
def taggedIndexer : Indexer where
  langExtended := true
  docs := true
  otel := false
  extract rel _ :=
    if isMarkdown rel then none
    else some ⟨[⟨"bar", .function, 1, 1, "fn bar()"⟩, ⟨"baz", .function, 2, 2, "fn baz()"⟩],
      [⟨"bar", "baz", false⟩], []⟩
  parseMarkdown source := ⟨if source = "tagged" then ["foo.rs#bar"] else [], [], [], [], []⟩

/-- Index the tree, touch the source file, then remove the tag from the note. -/
def tagHistory (rel : String) : List Command :=
  [.full [⟨rel, ""⟩, ⟨"n.md", "tagged"⟩], .incremental [⟨rel, ""⟩, ⟨"n.md", "tagged"⟩] [rel],
    .incremental [⟨rel, ""⟩, ⟨"n.md", ""⟩] ["n.md"]]

theorem reindex_noDangling_src : ∃ s,
    exec (fun s c => some (taggedIndexer.reindex s c)) openFresh (tagHistory "src.rs") = some s ∧
    NoDangling s := by
  refine ⟨_, rfl, reindex_noDangling taggedIndexer (tagHistory "src.rs") _ ?_ rfl⟩
  refine ⟨?_, ?_, ?_, trivial⟩ <;> decide

/-- In `#foo.rs` the topic `foo.rs#bar` has the moniker of `bar`: it becomes the source of the
call, and the sweep that removes the topic leaves the call behind. -/
theorem reindex_dangling_topic : ∃ s,
    exec (fun s c => some (taggedIndexer.reindex s c)) openFresh (tagHistory "#foo.rs") = some s ∧
    ¬ NoDangling s :=
  ⟨_, rfl, by decide⟩

end WeaveGraph.Indexer

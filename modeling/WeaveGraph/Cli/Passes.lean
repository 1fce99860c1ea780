import Mathlib.Data.List.Induction
import WeaveGraph.Store.Rows
import WeaveGraph.Store.Upsert
import WeaveGraph.Cli.Index

/-!
# The passes of a reindex run

* Declaring: the passes of a full run never fail (`insertAllNodes_eq`, `upsertAllEdges_eq`), and
  the node pass leaves one row for each natural key a file declares, in the order the keys
  are first declared (`insertFresh_keys`).
* Resolving: the index that `build_project_index_from_storage` builds declares exactly the stored
  nodes, and its id map sends a moniker to the last stored node that has it (`indexed_build`).
  So the rows `upsert_all_edges` writes for a file are the edges its references have over the
  plain list of stored nodes (`upsertFileEdges_eq`).
* Purging: an incremental run first drops every edge that touches a changed file and every
  unresolved reference of one (`purgeChanged_eq`), and later the nodes of changed files that
  were not written again (`purgeStaleNodes_eq`).
* Documenting: what writing documentation nodes and edges preserves, the documentation pass
  preserves (`indexDocs_invariant`).
-/

namespace WeaveGraph.Indexer

open List Lib SqliteStorage ProjectIndex

/-! ## Declaring -/

def parsedFiles (ix : Indexer) (files : List SourceFile) : List (String × ParsedFile) :=
  files.filterMap fun f => (ix.parseFile f).map fun p => (f.rel, p)

def declared (ix : Indexer) (files : List SourceFile) : List Node :=
  (ix.parsedFiles files).flatMap fun p => fileNodes p.1 p.2

theorem parseFilesBounded_eq {σ : Type} (ix : Indexer) (files : List SourceFile)
    (fold : σ → String → ParsedFile → Except StorageError σ) : ∀ s : σ,
    ix.parseFilesBounded files fold s =
      (ix.parsedFiles files).foldlM (fun s p => fold s p.1 p.2) s := by
  induction files with
  | nil => intro s; rfl
  | cons f files ih =>
    intro s
    unfold parseFilesBounded parsedFiles at ih ⊢
    rw [foldlM_cons, filterMap_cons]
    cases ix.parseFile f with
    | none => exact ih s
    | some p =>
      congr 1
      funext s'
      exact ih s'

theorem foldlM_ok {ε σ α : Type} (g : σ → α → σ) (l : List α) : ∀ s : σ,
    l.foldlM (fun s a => (.ok (g s a) : Except ε σ)) s = .ok (l.foldl g s) := by
  induction l with
  | nil => intro s; rfl
  | cons a l ih => intro s; exact ih (g s a)

theorem insertFreshNodes_eq (l : List Node) : ∀ t : NodeTable,
    (insertFreshNodes t l).2 = l.foldl insertFreshNode t := by
  induction l with
  | nil => intro t; rfl
  | cons n l ih => intro t; exact ih (insertFreshNode t n)

theorem insertAllNodes_eq (ix : Indexer) (files : List SourceFile) (s : SqliteStorage) :
    ∃ total, ix.insertAllNodes files s =
      .ok ({ s with nodes := (ix.declared files).foldl insertFreshNode s.nodes }, total) := by
  have h : ∀ (l : List (String × ParsedFile)) (s : SqliteStorage) (n : Nat), ∃ total,
      l.foldlM (fun (x : SqliteStorage × Nat) p =>
        let written := insertFreshNodes x.1.nodes (fileNodes p.1 p.2)
        (.ok ({ x.1 with nodes := written.2 }, x.2 + written.1.length) :
          Except StorageError _)) (s, n) =
      .ok ({ s with nodes :=
        (l.flatMap fun p => fileNodes p.1 p.2).foldl insertFreshNode s.nodes }, total) := by
    intro l
    induction l with
    | nil => exact fun s n => ⟨n, rfl⟩
    | cons p l ih =>
      intro s n
      obtain ⟨total, ht⟩ := ih { s with nodes := (insertFreshNodes s.nodes (fileNodes p.1 p.2)).2 }
        (n + (insertFreshNodes s.nodes (fileNodes p.1 p.2)).1.length)
      refine ⟨total, ht.trans ?_⟩
      simp only [flatMap_cons, foldl_append, insertFreshNodes_eq]
  obtain ⟨total, ht⟩ := h (ix.parsedFiles files) s 0
  exact ⟨total, (parseFilesBounded_eq ix files _ (s, 0)).trans ht⟩

theorem upsertAllEdges_eq (ix : Indexer) (index : ProjectIndex × List (Nat × NodeId))
    (files : List SourceFile) (s : SqliteStorage) : ix.upsertAllEdges index files s =
      .ok ((ix.parsedFiles files).foldl (fun s p => ix.upsertFileEdges index s p.1 p.2) s) :=
  (parseFilesBounded_eq ix files _ s).trans (foldlM_ok _ _ s)

theorem insertFreshNode_keys (t : NodeTable) (n : Node) :
    (insertFreshNode t n).rows.map Node.naturalKey =
      if n.naturalKey ∈ t.rows.map Node.naturalKey then t.rows.map Node.naturalKey
      else t.rows.map Node.naturalKey ++ [n.naturalKey] := by
  split
  · rename_i h
    refine (congrArg (List.map Node.naturalKey) (Table.upsert_conflict t
      (fun id => { n with id := id }) _ _ _ _ h)).trans ?_
    rw [map_map]
    refine map_congr_left fun r _ => ?_
    simp only [Function.comp_apply]
    split <;> rfl
  · rename_i h
    refine (congrArg (List.map Node.naturalKey) (Table.upsert_fresh t
      (fun id => { n with id := id }) _ _ _ _ h)).trans ?_
    simp [Node.naturalKey]

theorem insertFresh_keys (l : List Node) :
    (l.foldl insertFreshNode Table.empty).rows.map Node.naturalKey =
      (l.map Node.naturalKey).eraseDups := by
  induction l using List.reverseRecOn with
  | nil => rfl
  | append_singleton l n ih =>
    rw [foldl_append, foldl_cons, foldl_nil, insertFreshNode_keys, ih, map_append, eraseDups_append]
    by_cases h : n.naturalKey ∈ l.map Node.naturalKey
    · simp [List.removeAll, mem_map.mp h]
    · simp only [mem_eraseDups, h, if_false]
      congr 1
      simp only [map_cons, map_nil, List.removeAll]
      rw [filter_cons_of_pos (by simpa using h)]
      rfl

/-! ## Resolving -/

/-- `(short name, moniker)` of every node. -/
def nodeDecls (nodes : List Node) : List (String × String) :=
  nodes.map fun n => (shortName n.symbol, n.moniker)

def nodeIds (nodes : List Node) : List (String × NodeId) := nodes.map fun n => (n.moniker, n.id)

def fileEdges (ix : Indexer) (nodes : List Node) (parsed : ParsedFile) : List Edge :=
  resolvedEdges ix.langExtended (nodeDecls nodes) (nodeIds nodes) parsed

def fileUnresolved (nodes : List Node) (parsed : ParsedFile) : List String :=
  unresolvedNames (nodeDecls nodes) parsed

/-! ## The index of the stored nodes -/

/-- The index and the id map were built from `nodes`. -/
structure Indexed (index : ProjectIndex × List (Nat × NodeId)) (nodes : List Node) : Prop where
  declares : index.1.Declares (nodeDecls nodes)
  ids : (index.2.map fun q => (index.1.interner.resolve q.1, q.2)) =
    (nodeIds nodes).map fun q => (some q.1, q.2)

theorem indexed_addNode {index : ProjectIndex × List (Nat × NodeId)} {nodes : List Node}
    (h : Indexed index nodes) (n : Node) : Indexed (addNode index n) (nodes ++ [n]) := by
  constructor
  · have := declares_addSymbol h.declares n.moniker (shortName n.symbol)
    simpa [nodeDecls, addNode] using this
  · have hold : ∀ q ∈ index.2, ((addNode index n).1.interner.resolve q.1, q.2) =
        (index.1.interner.resolve q.1, q.2) := by
      intro q hq
      have hmem := h.ids ▸ mem_map_of_mem hq
      obtain ⟨d, -, hd⟩ := mem_map.mp hmem
      simp only [Prod.mk.injEq] at hd
      rw [← hd.1]
      exact congrArg (·, q.2) (resolve_addSymbol _ _ hd.1.symm)
    have hnew := resolve_addSymbol_id index.1 n.moniker (shortName n.symbol)
    show ((index.2 ++ [(_, n.id)]).map _) = _
    rw [map_append, map_congr_left hold, h.ids]
    simp only [nodeIds, map_append, map_cons, map_nil]
    congr 2
    exact congrArg (·, n.id) hnew

theorem indexed_foldl (l : List Node) : ∀ {index : ProjectIndex × List (Nat × NodeId)}
    {nodes : List Node}, Indexed index nodes → Indexed (l.foldl addNode index) (nodes ++ l) := by
  induction l with
  | nil => intro index nodes h; simpa using h
  | cons n l ih =>
    intro index nodes h
    have := ih (indexed_addNode h n)
    simpa using this

theorem indexed_build (s : SqliteStorage) :
    Indexed (buildProjectIndexFromStorage s) s.nodes.rows := by
  have h : Indexed (ProjectIndex.new, []) [] := ⟨declares_new, rfl⟩
  exact indexed_foldl s.allNodes h

/-! ## The rows of a file -/

section rows

variable {index : ProjectIndex × List (Nat × NodeId)} {nodes : List Node}

section

variable (ix : Indexer) (h : Indexed index nodes)

include h

theorem callEdges_eq (c : RawCall) :
    (index.1.callEdges ix.langExtended c).filterMap (storageEdge index.2) =
      ((Ref.call c).targets (bucket c.calleeName (nodeDecls nodes))).filterMap
        (edgeTo ix.langExtended (nodeIds nodes) c.callerMoniker) := by
  unfold ProjectIndex.callEdges
  rw [resolveOne_eq h.declares, filterMap_filterMap]
  refine filterMap_congr fun t _ => ?_
  obtain ⟨target, kind, rk⟩ := t
  have hs := lookup_target h.ids c.callerMoniker
  have ht := lookup_target h.ids target
  unfold edgeTo
  rw [← hs, ← ht]
  cases hi : index.1.interner.getId c.callerMoniker with
  | none => rfl
  | some i =>
    cases hj : index.1.interner.getId target with
    | none => cases h : lookupLast i index.2 <;> simp [hj, h]
    | some j => simp [hj, storageEdge]

theorem structuralEdges_eq (e : RawStructuralEdge) :
    (index.1.structuralEdgeIds ix.langExtended e).filterMap (storageEdge index.2) =
      ((Ref.structural e).targets (bucket e.targetName (nodeDecls nodes))).filterMap
        (edgeTo ix.langExtended (nodeIds nodes) e.sourceMoniker) := by
  have hres := candidates_resolve h.declares e.targetName
  have hid := candidates_resolveId h.declares e.targetName
  have hlen : (bucket e.targetName (nodeDecls nodes)).length =
      (index.1.candidates e.targetName).length := by
    rw [← hid, length_map]
  unfold ProjectIndex.structuralEdgeIds Ref.targets
  dsimp only
  rw [filterMap_filterMap, hlen, ← hid, map_map, filterMap_map]
  refine filterMap_congr fun i hi => ?_
  -- a candidate id is the id of the moniker it resolves to
  have hmem := hres ▸ mem_map_of_mem hi
  obtain ⟨m, -, hm⟩ := mem_map.mp hmem
  have hname : index.1.resolveId i = m := by simp [ProjectIndex.resolveId, ← hm]
  have hs := lookup_target h.ids e.sourceMoniker
  have ht := lookup_target h.ids m
  rw [Interner.getId_eq_some.mpr hm.symm] at ht
  simp only [Function.comp_apply, edgeTo, hname]
  rw [← hs, ← ht]
  cases index.1.interner.getId e.sourceMoniker with
  | none => rfl
  | some j => rfl

theorem resolveIds_edges (parsed : ParsedFile) :
    (index.1.resolveIds ix.langExtended parsed).1.filterMap (storageEdge index.2) =
      ix.fileEdges nodes parsed := by
  unfold ProjectIndex.resolveIds fileEdges resolvedEdges ParsedFile.refs
  simp only [filterMap_append, flatMap_append, flatMap_map, filterMap_flatMap]
  congr 1
  · exact flatMap_congr fun c _ => callEdges_eq ix h c
  · exact flatMap_congr fun e _ => structuralEdges_eq ix h e

theorem resolveIds_unresolved (parsed : ParsedFile) :
    (index.1.resolveIds ix.langExtended parsed).2 = fileUnresolved nodes parsed :=
  ProjectIndex.resolveIds_unresolved h.declares ix.langExtended parsed

theorem upsertFileEdges_eq (s : SqliteStorage) (rel : String) (parsed : ParsedFile) :
    ix.upsertFileEdges index s rel parsed =
      (({ s with edges := upsertEdges s.edges (ix.fileEdges nodes parsed) }
        ).purgeFileUnresolvedRefs localRepo rel).upsertUnresolvedRefs localRepo rel
          (fileUnresolved nodes parsed) := by
  unfold upsertFileEdges
  rw [← resolveIds_edges ix h parsed, ← resolveIds_unresolved ix h parsed]

end

theorem upsertEdges_keys (es : List Edge) : ∀ (t : EdgeTable) {k : NodeId × NodeId × String},
    k ∈ (upsertEdges t es).rows.map Edge.naturalKey ↔
      k ∈ t.rows.map Edge.naturalKey ∨ k ∈ es.map Edge.naturalKey := by
  induction es with
  | nil => intro t k; simp [upsertEdges]
  | cons e es ih =>
    intro t k
    have h := Table.uk_mem_upsert t (fun id => { e with id := id })
      (fun r => { r with extractor := e.extractor, resolutionKind := e.resolutionKind })
      (fun _ => rfl) (fun _ => rfl) (fun _ => rfl) (k := k)
    show k ∈ (upsertEdges (upsertEdge t e) es).rows.map Edge.naturalKey ↔ _
    rw [ih (upsertEdge t e), map_cons, mem_cons, ← or_assoc]
    exact or_congr_left h

theorem foldl_upsertFileEdges (ix : Indexer) (h : Indexed index nodes)
    (l : List (String × ParsedFile)) : ∀ s : SqliteStorage,
    (l.foldl (fun s p => ix.upsertFileEdges index s p.1 p.2) s).nodes = s.nodes ∧
    (l.foldl (fun s p => ix.upsertFileEdges index s p.1 p.2) s).edges =
      upsertEdges s.edges (l.flatMap fun p => ix.fileEdges nodes p.2) := by
  induction l with
  | nil => exact fun s => ⟨rfl, rfl⟩
  | cons p l ih =>
    intro s
    obtain ⟨hn, he⟩ := ih (ix.upsertFileEdges index s p.1 p.2)
    rw [upsertFileEdges_eq ix h] at hn he
    rw [foldl_cons, upsertFileEdges_eq ix h]
    refine ⟨hn, he.trans ?_⟩
    rw [flatMap_cons]
    unfold upsertEdges
    rw [foldl_append]
    rfl

end rows

/-! ## The code graph of a tree -/

def codeNodes (ix : Indexer) (files : List SourceFile) : NodeTable :=
  (ix.declared files).foldl insertFreshNode Table.empty

/-- What a full run writes for the source files of a tree. -/
def codeGraph (ix : Indexer) (files : List SourceFile) : SqliteStorage :=
  let s0 := { openFresh with nodes := ix.codeNodes files }
  let index := buildProjectIndexFromStorage s0
  (ix.parsedFiles files).foldl (fun s p => ix.upsertFileEdges index s p.1 p.2) s0

theorem codeGraph_nodes (ix : Indexer) (files : List SourceFile) :
    (ix.codeGraph files).nodes = ix.codeNodes files :=
  (foldl_upsertFileEdges ix (indexed_build _) _ _).1

theorem codeGraph_edges (ix : Indexer) (files : List SourceFile) :
    (ix.codeGraph files).edges = upsertEdges Table.empty
      ((ix.parsedFiles files).flatMap fun p => ix.fileEdges (ix.codeNodes files).rows p.2) :=
  (foldl_upsertFileEdges ix (indexed_build _) _ _).2

theorem carryOverSpans_nodes (ix : Indexer) (active s : SqliteStorage) :
    (ix.carryOverSpans active s).nodes = s.nodes := by
  unfold carryOverSpans
  split <;> rfl

theorem carryOverSpans_edges (ix : Indexer) (active s : SqliteStorage) :
    (ix.carryOverSpans active s).edges = s.edges := by
  unfold carryOverSpans
  split <;> rfl

/-! ## Purging -/

def touches (nodes : List Node) (rel : String) (e : Edge) : Bool :=
  nodes.any fun n => n.repoId == localRepo && n.path == rel &&
    (n.id == e.sourceId || n.id == e.targetId)

theorem purgeFileEdges_rows (s : SqliteStorage) (rel : String) :
    (s.purgeFileEdges localRepo rel).edges.rows =
      s.edges.rows.filter fun e => !touches s.nodes.rows rel e := by
  refine filter_congr fun e _ => ?_
  congr 1
  rw [Bool.eq_iff_iff]
  simp only [fileNodeIds, touches, Bool.or_eq_true, contains_iff_mem, mem_map,
    mem_filter, any_eq_true, Bool.and_eq_true, beq_iff_eq]
  grind

theorem purgeChanged_eq (changed : List String) : ∀ s : SqliteStorage,
    (purgeChanged s changed).nodes = s.nodes ∧
    (purgeChanged s changed).edges.rows = s.edges.rows.filter (fun e =>
      !changed.any fun rel => touches s.nodes.rows rel e) ∧
    (purgeChanged s changed).unresolvedRefs = s.unresolvedRefs.filter (fun u =>
      !(u.repoId == localRepo && changed.contains u.path)) := by
  induction changed with
  | nil => intro s; simp [purgeChanged]
  | cons rel changed ih =>
    intro s
    obtain ⟨hn, he, hu⟩ :=
      ih ((s.purgeFileEdges localRepo rel).purgeFileUnresolvedRefs localRepo rel)
    refine ⟨hn, ?_, ?_⟩
    · refine he.trans ?_
      show ((s.purgeFileEdges localRepo rel).edges.rows.filter fun e =>
        !changed.any fun rel => touches s.nodes.rows rel e) = _
      rw [purgeFileEdges_rows, filter_filter]
      refine filter_congr fun e _ => ?_
      simp [Bool.and_comm]
    · refine hu.trans ?_
      show ((s.unresolvedRefs.filter fun u => !(u.repoId == localRepo && u.path == rel)).filter
        fun u => !(u.repoId == localRepo && changed.contains u.path)) = _
      rw [filter_filter]
      refine filter_congr fun u _ => ?_
      simp only [contains_cons]
      cases u.repoId == localRepo <;> cases u.path == rel <;> simp

theorem purgeFileNodesExcept_rows (s : SqliteStorage) (rel : String) (retained : List NodeId) :
    (s.purgeFileNodesExcept localRepo rel retained).nodes.rows = s.nodes.rows.filter fun n =>
      !(n.repoId == localRepo && n.path == rel && !retained.contains n.id) := by
  refine filter_congr fun n hn => ?_
  congr 1
  rw [Bool.eq_iff_iff]
  simp only [fileNodeIds, contains_eq_mem, decide_eq_true_eq, mem_filter, mem_map,
    Bool.and_eq_true, beq_iff_eq, Bool.not_eq_true', decide_eq_false_iff_not]
  constructor
  · rintro ⟨⟨m, ⟨hm, hr, hp⟩, hid⟩, hret⟩
    obtain rfl := s.nodes.pk_inj hm hn hid
    exact ⟨⟨hr, hp⟩, hret⟩
  · rintro ⟨⟨hr, hp⟩, hret⟩
    exact ⟨⟨n, ⟨hn, hr, hp⟩, rfl⟩, hret⟩

/-- What the purge of stale nodes leaves: nodes of other files, and nodes that were written. -/
theorem purgeStaleNodes_eq (changed : List String) (written : List (String × NodeId)) :
    ∀ s : SqliteStorage,
    (purgeStaleNodes s changed written).nodes.rows = s.nodes.rows.filter (fun n =>
      !(n.repoId == localRepo && changed.contains n.path &&
        !(bucket n.path written).contains n.id)) ∧
    (purgeStaleNodes s changed written).edges = s.edges ∧
    (purgeStaleNodes s changed written).unresolvedRefs = s.unresolvedRefs := by
  induction changed with
  | nil => intro s; simp [purgeStaleNodes]
  | cons rel changed ih =>
    intro s
    obtain ⟨hn, he, hu⟩ := ih (s.purgeFileNodesExcept localRepo rel (bucket rel written))
    refine ⟨?_, he, hu⟩
    refine hn.trans ?_
    rw [purgeFileNodesExcept_rows, filter_filter]
    refine filter_congr fun n _ => ?_
    rw [contains_cons]
    by_cases hp : n.path = rel
    · subst hp
      rw [beq_self_eq_true]
      cases n.repoId == localRepo <;> cases changed.contains n.path <;>
        cases (bucket n.path written).contains n.id <;> rfl
    · have hf : (n.path == rel) = false := by simpa using hp
      rw [hf]
      cases n.repoId == localRepo <;> simp

/-! ## Node writes keep ids, kinds and files -/

/-- Every row stays under its id and kind, a row under an old id is the symbol it was, and the
kinds of new rows satisfy `new`. -/
structure Grows (new : String → Prop) (t t' : NodeTable) : Prop where
  keeps : ∀ n ∈ t.rows, ∃ n' ∈ t'.rows, n'.id = n.id ∧ n'.kind = n.kind
  traces : ∀ n' ∈ t'.rows, n'.id ∈ t.rows.map Node.id →
    ∃ n ∈ t.rows, n.id = n'.id ∧ sameSymbol n n' = true
  adds : ∀ n' ∈ t'.rows, n'.id ∉ t.rows.map Node.id → new n'.kind

section grows

variable {new : String → Prop}

theorem Grows.refl (t : NodeTable) : Grows new t t where
  keeps n hn := ⟨n, hn, rfl, rfl⟩
  traces n hn _ := ⟨n, hn, rfl, by simp [sameSymbol]⟩
  adds n hn hid := absurd (mem_map_of_mem hn) hid

variable {t t' : NodeTable} {id : NodeId}

theorem Grows.mem_ids (h : Grows new t t') (hid : id ∈ t.rows.map Node.id) :
    id ∈ t'.rows.map Node.id := by
  obtain ⟨n, hn, rfl⟩ := mem_map.mp hid
  obtain ⟨n', hn', hid', -⟩ := h.keeps n hn
  exact mem_map.mpr ⟨n', hn', hid'⟩

theorem Grows.trans {t'' : NodeTable} (h : Grows new t t') (h' : Grows new t' t'') :
    Grows new t t'' where
  keeps n hn := by
    obtain ⟨n', hn', hid, hk⟩ := h.keeps n hn
    obtain ⟨n'', hn'', hid', hk'⟩ := h'.keeps n' hn'
    exact ⟨n'', hn'', hid'.trans hid, hk'.trans hk⟩
  traces n'' hn'' hid := by
    obtain ⟨n', hn', hid', hs'⟩ := h'.traces n'' hn'' (h.mem_ids hid)
    obtain ⟨n, hn, hid'', hs⟩ := h.traces n' hn' (hid' ▸ hid)
    refine ⟨n, hn, hid''.trans hid', ?_⟩
    simp_all [sameSymbol]
  adds n'' hn'' hid := by
    by_cases hid' : n''.id ∈ t'.rows.map Node.id
    · obtain ⟨n', hn', he, hs⟩ := h'.traces n'' hn'' hid'
      have hk : n'.kind = n''.kind := (sameSymbol_iff.mp hs).2.2.2
      exact hk ▸ h.adds n' hn' (he ▸ hid)
    · exact h'.adds n'' hn'' hid'

theorem upsertBatchNode_grows {n : Node} (hnew : new n.kind)
    (h : upsertBatchNode t n = .ok (id, t')) : Grows new t t' ∧ id ∈ t'.rows.map Node.id := by
  rcases (upsertBatchNode_ok h).2 with ⟨row, hrow, -, hs, rfl, hrows⟩ | ⟨-, rfl, hrows⟩
  · have hsame : ∀ m ∈ t.rows, sameSymbol m
        (if m.id = row.id then { n with id := row.id } else m) = true := by
      intro m hm
      split
      · rename_i hid
        rw [t.pk_inj hm hrow hid]
        exact hs
      · simp [sameSymbol]
    have hback : ∀ m' ∈ t'.rows, ∃ m ∈ t.rows, m.id = m'.id ∧ sameSymbol m m' = true := by
      intro m' hm'
      rw [hrows] at hm'
      obtain ⟨m, hm, rfl⟩ := mem_map.mp hm'
      refine ⟨m, hm, ?_, hsame m hm⟩
      split <;> simp_all
    refine ⟨⟨fun m hm => ?_, fun m' hm' _ => hback m' hm', fun m' hm' hid => ?_⟩, ?_⟩
    · refine ⟨_, hrows ▸ mem_map_of_mem hm, ?_, ((sameSymbol_iff.mp (hsame m hm)).2.2.2).symm⟩
      split <;> simp_all
    · obtain ⟨m, hm, he, -⟩ := hback m' hm'
      exact absurd (he ▸ mem_map_of_mem hm) hid
    · rw [hrows, map_map]
      refine mem_map.mpr ⟨row, hrow, ?_⟩
      simp
  · have hcases : ∀ m' ∈ t'.rows, m' ∈ t.rows ∨ m' = { n with id := t.nextId } := by
      intro m' hm'
      rw [hrows] at hm'
      exact (mem_append.mp hm').imp_right mem_singleton.mp
    refine ⟨⟨fun m hm => ⟨m, ?_, rfl, rfl⟩, fun m' hm' hid => ?_, fun m' hm' hid => ?_⟩, ?_⟩
    · rw [hrows]
      exact mem_append_left _ hm
    · rcases hcases m' hm' with hm' | rfl
      · exact ⟨m', hm', rfl, by simp [sameSymbol]⟩
      · obtain ⟨m, hm, he⟩ := mem_map.mp hid
        exact absurd he (Nat.ne_of_lt (t.pk_lt_nextId hm))
    · rcases hcases m' hm' with hm' | rfl
      · exact absurd (mem_map_of_mem hm') hid
      · exact hnew
    · rw [hrows, map_append]
      exact mem_append_right _ (mem_singleton.mpr rfl)

end grows

/-! ## The documentation pass -/

def docEdgeKinds : List String := ["TAGGED", "LINKS_TO", "EXPLAINS_RATIONALE"]

def isDocKind (kind : String) : Bool :=
  kind == docNoteKind || kind == docTopicKind || kind == docSectionKind

section ids

variable {s s' s0 : SqliteStorage} {id : NodeId} {key : Node → String}
  {allParsed : List (String × ParsedMarkdown)}

theorem upsertNode_ok {n : Node} (h : upsertNode s n = .ok (id, s')) :
    ∃ t, upsertBatchNode s.nodes n = .ok (id, t) ∧ s' = { s with nodes := t } := by
  unfold upsertNode at h
  split at h
  · rename_i id' t hu
    cases h
    exact ⟨t, hu, rfl⟩
  · cases h

theorem upsertNode_grows {n : Node} (h : upsertNode s n = .ok (id, s')) :
    Grows (fun _ => True) s.nodes s'.nodes ∧ s'.edges = s.edges ∧
      id ∈ s'.nodes.rows.map Node.id := by
  obtain ⟨t', hu, rfl⟩ := upsertNode_ok h
  obtain ⟨hgrows, hid⟩ : Grows (fun _ => True) s.nodes t' ∧ id ∈ t'.rows.map Node.id :=
    upsertBatchNode_grows trivial hu
  exact ⟨hgrows, rfl, hid⟩

theorem noteIdByPath_note {rel : String}
    (h : lookupLast rel (docMaps s0 allParsed).noteIdByPath = some id) :
    ∃ n ∈ s0.nodes.rows, n.kind = docNoteKind ∧ n.id = id := by
  obtain ⟨n, hn, he⟩ := mem_map.mp (mem_of_lookupLast h)
  obtain ⟨hn, hk⟩ := mem_filter.mp hn
  exact ⟨n, hn, by simpa using hk, congrArg Prod.snd he⟩

theorem topicIds_mem {tag : String} (h : lookupLast tag (docMaps s0 allParsed).topicIds = some id) :
    id ∈ s0.nodes.rows.map Node.id := by
  obtain ⟨n, hn, he⟩ := mem_map.mp (mem_of_lookupLast h)
  simp only [Prod.mk.injEq] at he
  exact he.2 ▸ mem_map_of_mem (mem_filter.mp hn).1

theorem noteIdsByTitle_note {title path : String}
    (h : (id, path) ∈ bucket title (docMaps s0 allParsed).noteIdsByTitle) :
    ∃ n ∈ s0.nodes.rows, n.kind = docNoteKind ∧ n.id = id ∧ n.path = path := by
  obtain ⟨n, hn, he⟩ := mem_map.mp (mem_bucket.mp h)
  simp only [Prod.mk.injEq] at he
  obtain ⟨hn, hk⟩ := mem_filter.mp hn
  exact ⟨n, hn, by simpa using hk, he.2⟩

theorem disambiguate_mem {candidates : List (NodeId × String)} {dir : String}
    (h : id ∈ disambiguate candidates dir) : ∃ path, (id, path) ∈ candidates := by
  unfold disambiguate at h
  split at h
  · rename_i id' path' hf
    rw [mem_singleton.mp h]
    have : (id', path') ∈ candidates.filter fun c => dirOf c.2 == dir := by simp [hf]
    exact ⟨path', (mem_filter.mp this).1⟩
  · obtain ⟨⟨id', path'⟩, hm, rfl⟩ := mem_map.mp h
    exact ⟨path', hm⟩

theorem codeSymbolIds_mem {k path : String} (h : (id, path) ∈ bucket k (codeSymbolIds s0 key)) :
    id ∈ s0.nodes.rows.map Node.id := by
  obtain ⟨n, hn, he⟩ := mem_map.mp (mem_bucket.mp h)
  simp only [Prod.mk.injEq] at he
  exact he.2.1 ▸ mem_map_of_mem (mem_filter.mp hn).1

theorem resolveCodeRef_mem {raw dir : String} {key' : Node → String}
    (h : id ∈ (resolveCodeRef raw (codeSymbolIds s0 key) (codeSymbolIds s0 key') dir).getD []) :
    id ∈ s0.nodes.rows.map Node.id := by
  unfold resolveCodeRef at h
  dsimp only at h
  split at h
  · split at h
    · cases h
    · obtain ⟨path, hm⟩ := disambiguate_mem h
      exact codeSymbolIds_mem hm
  · obtain ⟨path, hm⟩ := disambiguate_mem h
    exact codeSymbolIds_mem hm

end ids

/-- What the pass preserves, writing documentation nodes whose path and kind are in `Q`, and edges
from notes to stored nodes. -/
structure DocInvariant (Q : String → String → Prop) (P : SqliteStorage → Prop) : Prop where
  node : ∀ {s s' : SqliteStorage} {path symbol kind : String} {id : NodeId}, Q path kind →
    P s → upsertNode s (docNode path symbol kind) = .ok (id, s') → P s'
  notePath : ∀ {s : SqliteStorage} {n : Node}, P s → n ∈ s.nodes.rows → n.kind = docNoteKind →
    Q n.path docSectionKind
  edge : ∀ {s : SqliteStorage} {kind : String} {note : Node} {targetId : NodeId},
    kind ∈ docEdgeKinds → note ∈ s.nodes.rows → note.kind = docNoteKind →
      targetId ∈ s.nodes.rows.map Node.id → P s → P (addDocEdge s note.id targetId kind)

/-- The invariant so far, over a store that only grew. -/
def DocState (P : SqliteStorage → Prop) (s0 s : SqliteStorage) : Prop :=
  P s ∧ Grows (fun _ => True) s0.nodes s.nodes

section docInvariant

variable {Q : String → String → Prop} {P : SqliteStorage → Prop} (hP : DocInvariant Q P)

include hP

variable {s s' : SqliteStorage}

theorem upsertDocNodes_invariant (htopic : Q "" docTopicKind)
    {parsed : List (String × ParsedMarkdown)} (hparsed : ∀ p ∈ parsed, Q p.1 docNoteKind) (hs : P s)
    (h : upsertDocNodes s parsed = .ok s') : P s' := by
  refine foldlM_invariant (P := P) ?_ hs h
  rintro ⟨rel, doc⟩ hmem s₁ s₂ h₁ hok
  obtain ⟨⟨id, s₃⟩, h₃, h₄⟩ := bind_eq_ok.mp hok
  refine foldlM_invariant (P := P) ?_ (hP.node (hparsed _ hmem) h₁ h₃) h₄
  rintro tag - s₄ s₅ h₅ hok₅
  obtain ⟨⟨id', s₆⟩, h₆, h₇⟩ := bind_eq_ok.mp hok₅
  cases h₇
  exact hP.node htopic h₅ h₆

section edges

variable {s0 : SqliteStorage} {allParsed : List (String × ParsedMarkdown)} {note : Node}
  (hnote : note ∈ s0.nodes.rows) (hkind : note.kind = docNoteKind)

theorem linkTarget_invariant {maps : DocMaps} {link : Wikilink} {id : NodeId}
    (hpath : Q note.path docSectionKind) (h : DocState P s0 s) (hnote : note ∈ s0.nodes.rows)
    (hok : linkTarget maps s link note.id note.path = .ok (id, s')) :
    DocState P s0 s' ∧ id ∈ s'.nodes.rows.map Node.id := by
  have hsame : DocState P s0 s ∧ note.id ∈ s.nodes.rows.map Node.id :=
    ⟨h, h.2.mem_ids (mem_map_of_mem hnote)⟩
  unfold linkTarget at hok
  split at hok
  · unfold sectionTarget at hok
    split at hok
    · obtain ⟨hg, -, hid⟩ := upsertNode_grows hok
      exact ⟨⟨hP.node hpath h.1 hok, h.2.trans hg⟩, hid⟩
    · cases hok
      exact hsame
  · cases hok
    exact hsame

include hnote hkind

theorem addDocEdge_invariant {kind : String} {targetId : NodeId} (hedge : kind ∈ docEdgeKinds)
    (ht : targetId ∈ s.nodes.rows.map Node.id) (h : DocState P s0 s) :
    DocState P s0 (addDocEdge s note.id targetId kind) := by
  obtain ⟨n, hn, hid, hk⟩ := h.2.keeps note hnote
  rw [← hid]
  exact ⟨hP.edge hedge hn (hk.trans hkind) ht h.1, h.2⟩

theorem upsertLinkEdges_invariant {link : Wikilink} (hs : P s0) (h : DocState P s0 s)
    (hok : upsertLinkEdges (docMaps s0 allParsed) note.id s link = .ok s') : DocState P s0 s' := by
  refine foldlM_invariant (P := DocState P s0) ?_ h hok
  rintro ⟨targetId, targetPath⟩ hmem x y hx hy
  dsimp only at hy
  split at hy
  · cases hy
    exact hx
  · obtain ⟨⟨target, z⟩, hl, hpure⟩ := bind_eq_ok.mp hy
    cases hpure
    obtain ⟨n, hn, hk, rfl, rfl⟩ := noteIdsByTitle_note hmem
    obtain ⟨hz, hid⟩ := linkTarget_invariant hP (hP.notePath hs hn hk) hx hn hl
    exact addDocEdge_invariant hP hnote hkind (by decide) hid hz

end edges

theorem upsertNoteEdges_invariant {s0 : SqliteStorage} {allParsed : List (String × ParsedMarkdown)}
    {note : String × ParsedMarkdown} (hs : P s0) (h : DocState P s0 s)
    (hok : upsertNoteEdges (docMaps s0 allParsed) s note = .ok s') : DocState P s0 s' := by
  unfold upsertNoteEdges at hok
  split at hok
  · cases hok
    exact h
  · rename_i sourceId hsource
    obtain ⟨n, hn, hk, rfl⟩ := noteIdByPath_note hsource
    obtain ⟨s₁, hlinks, hpure⟩ := bind_eq_ok.mp hok
    cases hpure
    have h₁ : DocState P s0 s₁ := by
      refine foldlM_invariant (P := DocState P s0)
        (fun link _ x y hx hy => upsertLinkEdges_invariant hP hn hk hs hx hy) ?_ hlinks
      refine foldl_invariant (P := DocState P s0) (fun tag _ x hx => ?_) h
      unfold addTagEdge
      split
      · rename_i topicId htopic
        exact addDocEdge_invariant hP hn hk (by decide) (hx.2.mem_ids (topicIds_mem htopic)) hx
      · exact hx
    refine foldl_invariant (P := DocState P s0) (fun codeRef _ x hx => ?_) h₁
    refine foldl_invariant (P := DocState P s0) (fun targetId hmem y hy => ?_) hx
    exact addDocEdge_invariant hP hn hk (by decide) (hy.2.mem_ids (resolveCodeRef_mem hmem)) hy

theorem upsertDocEdges_invariant {notes : List (String × ParsedMarkdown)} (hs : P s)
    (h : upsertDocEdges s notes = .ok s') : P s' :=
  (foldlM_invariant (P := DocState P s)
    (fun _ _ _ _ hx hy => upsertNoteEdges_invariant hP hs hx hy) ⟨hs, Grows.refl _⟩ h).1

theorem indexDocs_invariant (htopic : Q "" docTopicKind) {ix : Indexer}
    {files changed : List SourceFile}
    (hmd : ∀ f ∈ changed, isMarkdown f.rel = true → Q f.rel docNoteKind)
    (hsweep : ∀ {s : SqliteStorage}, P s → P (gcOrphanedDocTopics s)) (hs : P s)
    (h : ix.indexDocs s files changed = .ok s') : P s' := by
  unfold indexDocs at h
  split at h
  · obtain ⟨s₁, h₁, h⟩ := bind_eq_ok.mp h
    obtain ⟨s₂, h₂, h⟩ := bind_eq_ok.mp h
    cases h
    refine hsweep (upsertDocEdges_invariant hP ?_ h₂)
    refine upsertDocNodes_invariant hP htopic (fun p hp => ?_) hs h₁
    obtain ⟨f, hf, rfl⟩ := mem_map.mp hp
    obtain ⟨hf, hf'⟩ := mem_filter.mp hf
    exact hmd f hf hf'
  · cases h
    exact hs

end docInvariant

variable {s s' active : SqliteStorage} {ix : Indexer} {files : List SourceFile} {stats : IndexStats}

theorem indexDocs_frame {β : Type} {f : SqliteStorage → β}
    (hnodes : ∀ s t, f { s with nodes := t } = f s) (hedges : ∀ s t, f { s with edges := t } = f s)
    {changed : List SourceFile} (h : ix.indexDocs s files changed = .ok s') : f s' = f s := by
  have hP : DocInvariant (fun _ _ => True) fun x => f x = f s := by
    refine ⟨fun _ hs hok => ?_, fun _ _ _ => trivial, fun _ _ _ _ hs => (hedges _ _).trans hs⟩
    obtain ⟨t, -, rfl⟩ := upsertNode_ok hok
    exact (hnodes _ t).trans hs
  exact indexDocs_invariant hP trivial (fun _ _ _ => trivial) (fun hs => (hnodes _ _).trans hs) rfl h

theorem fullReindex_stages (h : ix.fullReindex active files = .ok (stats, s)) :
    ∃ s1 total s2 s3, ix.insertAllNodes files openFresh = .ok (s1, total) ∧
      ix.upsertAllEdges (buildProjectIndexFromStorage s1) files s1 = .ok s2 ∧
      ix.indexDocs s2 files files = .ok s3 ∧ s = ix.carryOverSpans active s3 := by
  obtain ⟨⟨s1, total⟩, h1, h⟩ := bind_eq_ok.mp h
  obtain ⟨s2, h2, h⟩ := bind_eq_ok.mp h
  obtain ⟨s3, h3, h⟩ := bind_eq_ok.mp h
  cases h
  exact ⟨s1, total, s2, s3, h1, h2, h3, rfl⟩

theorem fullReindex_docs (h : ix.fullReindex active files = .ok (stats, s)) :
    ∃ s₃, ix.indexDocs (ix.codeGraph files) files files = .ok s₃ ∧
      s = ix.carryOverSpans active s₃ := by
  obtain ⟨s₁, total, s₂, s₃, h₁, h₂, h₃, rfl⟩ := fullReindex_stages h
  obtain ⟨total', ht⟩ := insertAllNodes_eq ix files openFresh
  rw [ht] at h₁
  cases h₁
  rw [upsertAllEdges_eq] at h₂
  obtain rfl : ix.codeGraph files = s₂ := Except.ok.inj h₂
  exact ⟨s₃, h₃, rfl⟩

section frame

variable {β : Type} {f : SqliteStorage → β} (hnodes : ∀ s t, f { s with nodes := t } = f s)
  (hedges : ∀ s t, f { s with edges := t } = f s)
  (hrefs : ∀ s t, f { s with unresolvedRefs := t } = f s)
  {ix : Indexer} {s s' : SqliteStorage} {files : List SourceFile}

include hedges hrefs in
theorem upsertAllEdges_frame {index : ProjectIndex × List (Nat × NodeId)}
    (h : ix.upsertAllEdges index files s = .ok s') : f s' = f s := by
  rw [upsertAllEdges_eq] at h
  cases h
  refine foldl_invariant (P := fun x => f x = f s) (fun p _ x hx => ?_) rfl
  exact ((hrefs _ _).trans ((hrefs _ _).trans (hedges _ _))).trans hx

include hnodes hedges hrefs

variable {stats : IndexStats}

/-- Before the spans are carried over, a full run has what an empty database has. -/
theorem fullReindex_frame {active : SqliteStorage}
    (h : ix.fullReindex active files = .ok (stats, s)) :
    ∃ fresh, f fresh = f openFresh ∧ s = ix.carryOverSpans active fresh := by
  obtain ⟨s₃, h₃, rfl⟩ := fullReindex_docs h
  have hcode : f (ix.codeGraph files) = f { openFresh with nodes := ix.codeNodes files } :=
    upsertAllEdges_frame hedges hrefs (upsertAllEdges_eq ix _ files _)
  exact ⟨s₃, by rw [indexDocs_frame hnodes hedges h₃, hcode, hnodes], rfl⟩

theorem incrementalReindex_frame {changed : List String}
    (h : ix.incrementalReindex s files changed = .ok (stats, s')) : f s' = f s := by
  unfold incrementalReindex at h
  split at h
  · cases h
    rfl
  · obtain ⟨⟨s₁, changedNodes⟩, h₁, h⟩ := bind_eq_ok.mp h
    obtain ⟨s₂, h₂, h⟩ := bind_eq_ok.mp h
    obtain ⟨s₃, h₃, h⟩ := bind_eq_ok.mp h
    cases h
    have hpurged : f (purgeChanged s changed) = f s :=
      foldl_invariant (P := fun x => f x = f s)
        (fun rel _ x hx => ((hrefs _ _).trans (hedges _ _)).trans hx) rfl
    have hnew : f s₁ = f s := by
      unfold upsertAllNodes at h₁
      rw [parseFilesBounded_eq] at h₁
      refine foldlM_invariant (P := fun x : SqliteStorage × List (String × NodeId) =>
        f x.1 = f s) (fun p _ x y hx hy => ?_) hpurged h₁
      obtain ⟨z, -, hy⟩ := bind_eq_ok.mp hy
      cases hy
      exact (hnodes _ _).trans hx
    have hstale : f (purgeStaleNodes s₁ changed changedNodes) = f s :=
      foldl_invariant (P := fun x => f x = f s) (fun rel _ x hx => (hnodes _ _).trans hx) hnew
    rw [indexDocs_frame hnodes hedges h₃, upsertAllEdges_frame hedges hrefs h₂, hstale]

end frame

/-! ## Trees without documentation -/

/-- There is nothing to document: the pass is off, or no file is Markdown. -/
def Undocumented (ix : Indexer) (files : List SourceFile) : Prop :=
  ix.docs = false ∨ ∀ f ∈ files, isMarkdown f.rel = false

instance (ix : Indexer) (files : List SourceFile) : Decidable (ix.Undocumented files) :=
  inferInstanceAs (Decidable (_ ∨ _))

theorem isDocKind_asStr (kind : SymbolKind) : isDocKind kind.asStr = false := by
  cases kind <;> decide

theorem declared_isCode {n : Node} (hn : n ∈ ix.declared files) : isDocKind n.kind = false := by
  obtain ⟨p, -, hn⟩ := mem_flatMap.mp hn
  obtain ⟨symbol, -, rfl⟩ := mem_map.mp hn
  exact isDocKind_asStr symbol.kind

theorem codeNodes_isCode {n : Node} (hn : n ∈ (ix.codeNodes files).rows) :
    isDocKind n.kind = false := by
  obtain ⟨m, hm, hd⟩ := exists_of_mem_freshNodes hn
  simp only [Node.data, NodeData.mk.injEq] at hd
  rw [← hd.2.2.2.1]
  exact declared_isCode hm

/-- The pass then leaves a database without documentation as it is. -/
theorem indexDocs_undocumented (h : ix.Undocumented files) {changed : List SourceFile}
    (hsub : ∀ f ∈ changed, f ∈ files) (hs : ∀ n ∈ s.nodes.rows, isDocKind n.kind = false) :
    ix.indexDocs s files changed = .ok s := by
  unfold indexDocs
  split
  · rename_i hdocs
    have hmd := h.resolve_left (by simp [hdocs])
    have hnone : ∀ l : List SourceFile, (∀ f ∈ l, f ∈ files) → ix.parseMarkdownFiles l = [] := by
      intro l hl
      unfold parseMarkdownFiles
      rw [filter_eq_nil_iff.mpr fun f hf => by simp [hmd f (hl f hf)]]
      rfl
    have hsweep : gcOrphanedDocTopics s = s := by
      have hrows : s.nodes.delete (fun r => r.kind == docTopicKind &&
          !(s.edges.rows.map Edge.targetId).contains r.id) = s.nodes := by
        refine Table.ext (filter_eq_self.mpr fun n hn => ?_)
        have hkind := hs n hn
        simp only [isDocKind, Bool.or_eq_false_iff] at hkind
        simp [hkind.1.2]
      unfold gcOrphanedDocTopics purgeOrphanedNodesByKind
      rw [hrows]
    rw [hnone changed hsub, hnone files fun _ hf => hf]
    show Except.ok (gcOrphanedDocTopics s) = .ok s
    rw [hsweep]
  · rfl

/-- A full run of a tree without documentation never fails. -/
theorem fullReindex_eq (ix : Indexer) (active : SqliteStorage) (files : List SourceFile)
    (hdocs : ix.Undocumented files) : ∃ stats, ix.fullReindex active files =
      .ok (stats, ix.carryOverSpans active (ix.codeGraph files)) := by
  obtain ⟨total, ht⟩ := insertAllNodes_eq ix files openFresh
  have hdoc : ix.indexDocs (ix.codeGraph files) files files = .ok (ix.codeGraph files) := by
    refine indexDocs_undocumented hdocs (fun _ hf => hf) fun n hn => ?_
    rw [codeGraph_nodes] at hn
    exact codeNodes_isCode hn
  refine ⟨⟨files.length, total, (ix.codeGraph files).edges.rows.length⟩, ?_⟩
  unfold fullReindex
  refine bind_eq_ok.mpr ⟨_, ht, bind_eq_ok.mpr ⟨_, upsertAllEdges_eq .., ?_⟩⟩
  exact bind_eq_ok.mpr ⟨_, hdoc, rfl⟩

end WeaveGraph.Indexer

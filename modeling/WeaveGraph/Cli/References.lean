import WeaveGraph.Cli.Dangling
import WeaveGraph.Cli.Notes

/-!
# What becomes of a reference

On its way into the graph a reference passes three filters: the symbols declared under its name,
the moniker of its source, and the node each moniker is mapped to.  Only the first one records the
name it drops, so

    after a full run every reference is unresolved or shown by an edge
      ↔  every reference to a declared name is carried            (fullReindex_accounted_iff)

Imports have the source `<module>`, which no file declares: an import of a declared name is dropped
by the second filter.
-/

namespace WeaveGraph

open List Lib

/-- The kinds of the edges a reference can become. -/
def Ref.hasKind : Ref → String → Bool
  | .call _, kind => kind == "CALLS_EXACT" || kind == "CALLS_DYNAMIC"
  | .structural e, kind => kind == e.kind.asStr

/-- A route of a framework, as against a call, an import, an inheritance or an implementation. -/
def Ref.isRoute : Ref → Bool
  | .call _ => false
  | .structural e => decide (e.kind = .handles)

/-- Two calls, or two structural references of one kind. -/
def Ref.sameKind : Ref → Ref → Bool
  | .call _, .call _ => true
  | .structural e, .structural e' => decide (e.kind = e'.kind)
  | _, _ => false

theorem StructuralEdgeKind.asStr_inj {a b : StructuralEdgeKind} : a.asStr = b.asStr ↔ a = b := by
  cases a <;> cases b <;> decide

theorem StructuralEdgeKind.asStr_not_call (a : StructuralEdgeKind) :
    a.asStr ≠ "CALLS_EXACT" ∧ a.asStr ≠ "CALLS_DYNAMIC" := by
  cases a <;> decide

namespace Ref

variable {r : Ref} {candidates : List String}

theorem not_docEdge {kind : String} (h : r.hasKind kind = true) : kind ∉ Indexer.docEdgeKinds := by
  cases r with
  | call c =>
    simp only [hasKind, Bool.or_eq_true, beq_iff_eq] at h
    rcases h with rfl | rfl <;> decide
  | structural e =>
    simp only [hasKind, beq_iff_eq] at h
    rw [h]
    cases e.kind <;> decide

theorem links_ne_nil (h : candidates ≠ []) : r.links candidates ≠ [] := by
  unfold links
  rw [ne_eq, map_eq_nil_iff]
  cases r with
  | call c => exact callTargets_ne_nil h _ _
  | structural e => simpa [targets] using h

theorem call_kind (c : RawCall) (candidates : List String) :
    ((Ref.call c).verdict candidates).kind = "CALLS_EXACT" ∨
      ((Ref.call c).verdict candidates).kind = "CALLS_DYNAMIC" := by
  unfold verdict
  dsimp only
  split
  · exact Or.inr rfl
  · split
    · exact Or.inl rfl
    · split
      · exact Or.inl rfl
      · exact Or.inr rfl

theorem hasKind_link {r' : Ref} {l : Link} (hl : l ∈ r'.links candidates) :
    r.hasKind l.kind = r.sameKind r' := by
  rw [(mem_links.mp hl).2.2.1]
  cases r' with
  | call c =>
    cases r with
    | call c' => rcases call_kind c candidates with h | h <;> rw [h] <;> rfl
    | structural e =>
      obtain ⟨hexact, hdynamic⟩ := e.kind.asStr_not_call
      rcases call_kind c candidates with h | h <;> rw [h]
      · simp [hasKind, sameKind, hexact.symm]
      · simp [hasKind, sameKind, hdynamic.symm]
  | structural e =>
    cases r with
    | call c => simp [hasKind, sameKind, verdict, e.kind.asStr_not_call]
    | structural e' =>
      simp [hasKind, sameKind, verdict, StructuralEdgeKind.asStr_inj, Bool.beq_eq_decide_eq, eq_comm]

end Ref

namespace Indexer

open SqliteStorage

/-! ## References in the store -/

/-- An edge of the reference's kind leads from a node of the file to a node of its name. -/
def Represented (s : SqliteStorage) (rel : String) (r : Ref) : Prop :=
  ∃ e ∈ s.edges.rows, r.hasKind e.kind = true ∧
    (∃ n ∈ s.nodes.rows, n.id = e.sourceId ∧ n.path = rel) ∧
    ∃ n ∈ s.nodes.rows, n.id = e.targetId ∧ shortName n.symbol = r.name
deriving Decidable

def Accounted (s : SqliteStorage) (rel : String) (r : Ref) : Prop :=
  ⟨localRepo, rel, r.name⟩ ∈ s.unresolvedRefs ∨ Represented s rel r
deriving Decidable

def NoneLost (ix : Indexer) (files : List SourceFile) (s : SqliteStorage) : Prop :=
  ∀ p ∈ ix.parsedFiles files, ∀ r ∈ p.2.refs, r.isRoute = false → Accounted s p.1 r
deriving Decidable

/-! ## References in the tree -/

def keyMoniker (k : String × String × String × Nat) : String := buildMoniker k.2.1 k.2.2.1

def keyName (k : String × String × String × Nat) : String := shortName k.2.2.1

/-- The natural keys a tree declares, in the order they are first declared. -/
def symbolKeys (ix : Indexer) (files : List SourceFile) : List (String × String × String × Nat) :=
  ((ix.declared files).map Node.naturalKey).eraseDups

theorem codeNodes_keys (ix : Indexer) (files : List SourceFile) :
    (ix.codeNodes files).rows.map Node.naturalKey = ix.symbolKeys files :=
  insertFresh_keys _

theorem nodeDecls_eq (nodes : List Node) : nodeDecls nodes =
    (nodes.map Node.naturalKey).map fun k => (keyName k, keyMoniker k) := by
  rw [map_map]
  rfl

section tree

variable (ix : Indexer) (files : List SourceFile)

def declaredAs (name : String) : List String :=
  bucket name ((ix.symbolKeys files).map fun k => (keyName k, keyMoniker k))

def lastKey (m : String) : Option (String × String × String × Nat) :=
  ((ix.symbolKeys files).filter fun k => keyMoniker k = m).getLast?

/-- A reference of the same kind resolves from a symbol last declared in the file to one last
declared under the name. -/
def Carried (rel : String) (r : Ref) : Prop :=
  ∃ p ∈ ix.parsedFiles files, ∃ r' ∈ p.2.refs, ∃ l ∈ r'.links (ix.declaredAs files r'.name),
    r.hasKind l.kind = true ∧ (∃ k ∈ ix.lastKey files l.source, k.2.1 = rel) ∧
    ∃ k ∈ ix.lastKey files l.target, keyName k = r.name
deriving Decidable

theorem declaredAs_eq (name : String) :
    ix.declaredAs files name = bucket name (nodeDecls (ix.codeNodes files).rows) := by
  rw [declaredAs, ← codeNodes_keys, nodeDecls_eq]

theorem lastKey_eq (m : String) :
    ix.lastKey files m = (lastOf (ix.codeNodes files).rows m).map Node.naturalKey := by
  rw [lastKey, ← codeNodes_keys, filter_map, getLast?_map, lastOf]
  congr 2

theorem exists_lastKey {m : String} {P : String × String × String × Nat → Prop} :
    (∃ k ∈ ix.lastKey files m, P k) ↔
      ∃ n, lastOf (ix.codeNodes files).rows m = some n ∧ P n.naturalKey := by
  rw [lastKey_eq]
  simp only [Option.mem_def, Option.map_eq_some_iff]
  constructor
  · rintro ⟨k, ⟨n, hn, rfl⟩, hP⟩
    exact ⟨n, hn, hP⟩
  · rintro ⟨n, hn, hP⟩
    exact ⟨n.naturalKey, ⟨n, hn, rfl⟩, hP⟩

end tree

/-! ## The edges of the documentation pass -/

def HasEdge (k : NodeId × NodeId × String) (s : SqliteStorage) : Prop :=
  k ∈ s.edges.rows.map Edge.naturalKey

/-- The documentation pass leaves the edges of the other kinds alone. -/
theorem hasEdge_indexDocs {k : NodeId × NodeId × String} (hk : k.2.2 ∉ docEdgeKinds) {ix : Indexer}
    {s s' : SqliteStorage} {files changed : List SourceFile}
    (h : ix.indexDocs s files changed = .ok s') : HasEdge k s' ↔ HasEdge k s := by
  have hP : DocInvariant (fun _ _ => True) fun x => HasEdge k x ↔ HasEdge k s := by
    refine ⟨fun _ hx hok => ?_, fun _ _ _ => trivial, fun hkind _ _ _ hx => ?_⟩
    · rwa [HasEdge, (upsertNode_grows hok).2.1]
    · refine (upsertEdges_keys [docEdge _ _ _] _).trans ((or_iff_left ?_).trans hx)
      rw [map_singleton, mem_singleton]
      rintro rfl
      exact hk hkind
  exact indexDocs_invariant hP trivial (fun _ _ _ => trivial) (fun hx => hx) Iff.rfl h

/-! ## What a full run stores -/

section run

variable {ix : Indexer} {active s : SqliteStorage} {files : List SourceFile} {stats : IndexStats}

/-- The code edges are those of the references: from the last row of the source to the last row of
the target. -/
theorem codeGraph_hasEdge {i j : NodeId} {kind : String} :
    HasEdge (i, j, kind) (ix.codeGraph files) ↔ ∃ p ∈ ix.parsedFiles files, ∃ r ∈ p.2.refs,
      ∃ l ∈ r.links (ix.declaredAs files r.name), l.kind = kind ∧
        (∃ a, lastOf (ix.codeNodes files).rows l.source = some a ∧ a.id = i) ∧
        ∃ b, lastOf (ix.codeNodes files).rows l.target = some b ∧ b.id = j := by
  rw [HasEdge, codeGraph_edges, upsertEdges_keys]
  constructor
  · rintro (hk | hk)
    · cases hk
    obtain ⟨e, he, hkey⟩ := mem_map.mp hk
    obtain ⟨p, hp, he⟩ := mem_flatMap.mp he
    obtain ⟨l, hl, hrow⟩ := (mem_fileEdges_iff ix).mp (mem_map_of_mem he)
    rw [hkey] at hrow
    obtain ⟨a, b, ha, hb, hai, hbj, hlk, -⟩ := linkRow_eq_some.mp hrow
    obtain ⟨r, hr, -, hl⟩ := mem_fileLinks.mp hl
    refine ⟨p, hp, r, hr, l, ?_, hlk, ⟨a, ha, hai⟩, ⟨b, hb, hbj⟩⟩
    rwa [declaredAs_eq]
  · rintro ⟨p, hp, r, hr, l, hl, rfl, ⟨a, ha, rfl⟩, ⟨b, hb, rfl⟩⟩
    rw [declaredAs_eq] at hl
    have hsource : r.source ∈ (ix.codeNodes files).rows.map Node.moniker := by
      rw [← (Ref.mem_links.mp hl).1]
      exact exists_lastOf.mp ⟨a, ha⟩
    have hx := (mem_fileEdges_iff ix).mpr ⟨l, mem_fileLinks.mpr ⟨r, hr, hsource, hl⟩,
      linkRow_eq_some.mpr ⟨a, b, ha, hb, rfl, rfl, rfl, rfl⟩⟩
    obtain ⟨e, he, hkey⟩ := mem_map.mp hx
    exact Or.inr (mem_map.mpr ⟨e, mem_flatMap.mpr ⟨p, hp, he⟩, congrArg Prod.fst hkey⟩)

section

variable (h : ix.fullReindex active files = .ok (stats, s))

include h

theorem fullReindex_hasEdge {i j : NodeId} {kind : String} (hkind : kind ∉ docEdgeKinds) :
    HasEdge (i, j, kind) s ↔ ∃ p ∈ ix.parsedFiles files, ∃ r ∈ p.2.refs,
      ∃ l ∈ r.links (ix.declaredAs files r.name), l.kind = kind ∧
        (∃ a, lastOf (ix.codeNodes files).rows l.source = some a ∧ a.id = i) ∧
        ∃ b, lastOf (ix.codeNodes files).rows l.target = some b ∧ b.id = j := by
  obtain ⟨s₃, h₃, rfl⟩ := fullReindex_docs h
  rw [HasEdge, carryOverSpans_edges]
  exact (hasEdge_indexDocs hkind h₃).trans codeGraph_hasEdge

theorem fullReindex_node {a : Node} (ha : a ∈ (ix.codeNodes files).rows) {P : Node → Prop} :
    (∃ n ∈ s.nodes.rows, n.id = a.id ∧ P n) ↔ P a := by
  rw [← NotedStorage.fullReindex_codeRows h] at ha
  have hmem := (NotedStorage.mem_codeRows.mp ha).1
  constructor
  · rintro ⟨n, hn, hid, hP⟩
    rwa [← s.nodes.pk_inj hn hmem hid]
  · exact fun hP => ⟨a, hmem, rfl, hP⟩

theorem fullReindex_represented_iff (rel : String) (r : Ref) :
    Represented s rel r ↔ ix.Carried files rel r := by
  unfold Represented Carried
  simp only [exists_lastKey]
  constructor
  · rintro ⟨e, he, hkind, hsource, htarget⟩
    obtain ⟨p, hp, r', hr', l, hl, hlk, ⟨a, ha, hai⟩, ⟨b, hb, hbj⟩⟩ :=
      (fullReindex_hasEdge h (Ref.not_docEdge hkind)).mp (mem_map_of_mem he)
    rw [← hai, fullReindex_node h (mem_of_lastOf ha).1] at hsource
    rw [← hbj, fullReindex_node h (mem_of_lastOf hb).1] at htarget
    exact ⟨p, hp, r', hr', l, hl, hlk ▸ hkind, ⟨a, ha, hsource⟩, ⟨b, hb, htarget⟩⟩
  · rintro ⟨p, hp, r', hr', l, hl, hkind, ⟨a, ha, hsource⟩, ⟨b, hb, htarget⟩⟩
    have hedge := (fullReindex_hasEdge h (Ref.not_docEdge hkind)).mpr
      ⟨p, hp, r', hr', l, hl, rfl, ⟨a, ha, rfl⟩, ⟨b, hb, rfl⟩⟩
    obtain ⟨e, he, hkey⟩ := mem_map.mp hedge
    simp only [Edge.naturalKey, Prod.mk.injEq] at hkey
    obtain ⟨hsid, htid, hek⟩ := hkey
    refine ⟨e, he, hek ▸ hkind, ?_, ?_⟩
    · rw [hsid]
      exact (fullReindex_node h (mem_of_lastOf ha).1).mpr hsource
    · rw [htid]
      exact (fullReindex_node h (mem_of_lastOf hb).1).mpr htarget

end

theorem fullReindex_unresolved_iff (hnd : (files.map SourceFile.rel).Nodup)
    (h : ix.fullReindex active files = .ok (stats, s)) {p : String × ParsedFile}
    (hp : p ∈ ix.parsedFiles files) {r : Ref} (hr : r ∈ p.2.refs) :
    ⟨localRepo, p.1, r.name⟩ ∈ s.unresolvedRefs ↔ ix.declaredAs files r.name = [] := by
  obtain ⟨s₃, h₃, rfl⟩ := fullReindex_docs h
  have hframe : s₃.unresolvedRefs = (ix.codeGraph files).unresolvedRefs :=
    indexDocs_frame (fun _ _ => rfl) (fun _ _ => rfl) h₃
  rw [carryOverSpans_unresolved, hframe, codeGraph_unresolved ix hnd, declaredAs_eq]
  simp only [Edit.mem_fileUnresolved]
  constructor
  · rintro ⟨q, -, -, -, r', -, -, hnil⟩
    exact hnil
  · exact fun hnil => ⟨p, hp, trivial, rfl, r, hr, rfl, hnil⟩

end run

/-! ## Trees in which a moniker belongs to one file -/

/-- Then a reference of the same file, name and kind has a declared source. -/
theorem carried_iff {ix : Indexer} {files : List SourceFile}
    (hone : OneFileEach (ix.owners files)) (hnd : (files.map SourceFile.rel).Nodup)
    {p : String × ParsedFile} (hp : p ∈ ix.parsedFiles files) {r : Ref}
    (hname : ix.declaredAs files r.name ≠ []) :
    ix.Carried files p.1 r ↔ ∃ r' ∈ p.2.refs, r.sameKind r' = true ∧ r'.name = r.name ∧
      (ix.lastKey files r'.source).isSome = true := by
  have hrows : OneFileEach ((ix.codeNodes files).rows.map owner) :=
    oneFileEach_rows hone owned_row
  unfold Carried
  simp only [exists_lastKey]
  constructor
  · rintro ⟨q, hq, r', hr', l, hl, hkind, ⟨a, ha, hpath⟩, ⟨b, hb, htarget⟩⟩
    obtain ⟨hs, ht, -⟩ := Ref.mem_links.mp hl
    have hfile : q.1 = p.1 := by
      rw [← home_eq hone (owned_source hq hr'), ← hs, home_of_lastOf hone owned_row ha]
      exact hpath
    obtain rfl : q = p :=
      inj_on_of_nodup_map (ix.parsedFiles_nodup hnd) hq hp hfile
    refine ⟨r', hr', by rwa [← Ref.hasKind_link hl], ?_, ?_⟩
    · rw [declaredAs_eq] at ht
      have hb' : l.target ∈ bucket r.name (nodeDecls (ix.codeNodes files).rows) :=
        mem_candidates_iff.mpr ⟨b, (mem_of_lastOf hb).1, htarget, (mem_of_lastOf hb).2⟩
      exact name_of_candidate hrows ht.1 hb'
    · rw [lastKey_eq, ← hs, ha]
      rfl
  · rintro ⟨r', hr', hkind, hr'name, hsource⟩
    rw [← hr'name] at hname ⊢
    obtain ⟨l, hl⟩ := exists_mem_of_ne_nil _ (Ref.links_ne_nil hname)
    obtain ⟨hs, ht, -⟩ := Ref.mem_links.mp hl
    rw [lastKey_eq, Option.isSome_map, ← hs] at hsource
    obtain ⟨a, ha⟩ := Option.isSome_iff_exists.mp hsource
    rw [declaredAs_eq] at ht
    obtain ⟨n, hn, -, hm⟩ := mem_candidates_iff.mp ht.1
    obtain ⟨b, hb⟩ := exists_lastOf.mpr (mem_map.mpr ⟨n, hn, hm⟩)
    have hb' : l.target ∈ bucket (shortName b.symbol) (nodeDecls (ix.codeNodes files).rows) :=
      mem_candidates_iff.mpr ⟨b, (mem_of_lastOf hb).1, rfl, (mem_of_lastOf hb).2⟩
    refine ⟨p, hp, r', hr', l, hl, by rwa [Ref.hasKind_link hl], ⟨a, ha, ?_⟩, ⟨b, hb, ?_⟩⟩
    · show a.path = p.1
      rw [← home_of_lastOf hone owned_row ha, hs, home_eq hone (owned_source hp hr')]
    · exact name_of_candidate hrows hb' ht.1

/-- **What becomes of a reference.**  After a full run none is lost exactly if every reference to a
declared name is carried. -/
theorem fullReindex_accounted_iff (ix : Indexer) (active : SqliteStorage) (root : Tree)
    {stats : IndexStats} {s : SqliteStorage}
    (h : ix.fullReindex active root.files = .ok (stats, s)) :
    NoneLost ix root.files s ↔ ∀ p ∈ ix.parsedFiles root.files, ∀ r ∈ p.2.refs,
      r.isRoute = false → ix.declaredAs root.files r.name ≠ [] → ix.Carried root.files p.1 r := by
  refine forall₂_congr fun p hp => forall₂_congr fun r hr => forall_congr' fun _ => ?_
  rw [Accounted, fullReindex_unresolved_iff root.distinct h hp hr, fullReindex_represented_iff h,
    or_iff_not_imp_left]

/-- As long as no two files form the same moniker, no reference is lost exactly if every reference
to a declared name has, in its file, one of its name and kind from a declared source. -/
theorem fullReindex_noneLost_iff (ix : Indexer) (active : SqliteStorage) (root : Tree)
    (hone : OneFileEach (ix.owners root.files)) {stats : IndexStats} {s : SqliteStorage}
    (h : ix.fullReindex active root.files = .ok (stats, s)) :
    NoneLost ix root.files s ↔ ∀ p ∈ ix.parsedFiles root.files, ∀ r ∈ p.2.refs,
      r.isRoute = false → ix.declaredAs root.files r.name ≠ [] →
        ∃ r' ∈ p.2.refs, r.sameKind r' = true ∧ r'.name = r.name ∧
          (ix.lastKey root.files r'.source).isSome = true := by
  refine forall₂_congr fun p hp => forall₂_congr fun r hr => forall_congr' fun _ => ?_
  rw [Accounted, fullReindex_unresolved_iff root.distinct h hp hr, fullReindex_represented_iff h,
    or_iff_not_imp_left]
  exact forall_congr' fun hname => carried_iff hone root.distinct hp hname

/-- `main` of one file refers to `helper` of another, by a call or by an import. -/
def referringIndexer : Indexer where
  langExtended := true
  docs := false
  otel := false
  extract _ source :=
    if source = "fn helper() {}" then some ⟨[⟨"helper", .function, 1, 1, "fn helper()"⟩], [], []⟩
    else if source = "use helpers::helper;" then some ⟨[], [], [⟨"<module>", "helper", .imports⟩]⟩
    else some ⟨[⟨"main", .function, 1, 1, "fn main()"⟩],
      [⟨"main", "helper", false⟩, ⟨"main", "println", false⟩], []⟩
  parseMarkdown _ := ⟨[], [], [], [], []⟩

def referringTree (source : String) : Tree :=
  ⟨[⟨"helpers.rs", "fn helper() {}"⟩, ⟨"main.rs", source⟩],
    (by decide : ["helpers.rs", "main.rs"].Nodup)⟩

theorem fullReindex_accounted_call : ∃ stats s,
    referringIndexer.fullReindex openFresh (referringTree "fn main() { helper() }").files =
      .ok (stats, s) ∧
    NoneLost referringIndexer (referringTree "fn main() { helper() }").files s := by
  obtain ⟨stats, hok⟩ := fullReindex_eq referringIndexer openFresh
    (referringTree "fn main() { helper() }").files (.inl rfl)
  refine ⟨stats, _, hok, ?_⟩
  exact (fullReindex_accounted_iff referringIndexer openFresh _ hok).mpr (by decide)

/-- The call of `helper` is an edge, and that of a name nothing declares is kept as unresolved. -/
theorem fullReindex_noneLost_main : ∃ stats s,
    referringIndexer.fullReindex openFresh (referringTree "fn main() { helper() }").files =
      .ok (stats, s) ∧
    s.edges.rows.length = 1 ∧ s.unresolvedRefs = [⟨localRepo, "main.rs", "println"⟩] ∧
    NoneLost referringIndexer (referringTree "fn main() { helper() }").files s := by
  obtain ⟨stats, hok⟩ := fullReindex_eq referringIndexer openFresh
    (referringTree "fn main() { helper() }").files (.inl rfl)
  refine ⟨stats, _, hok, by decide, by decide, ?_⟩
  exact (fullReindex_noneLost_iff referringIndexer openFresh _ (by decide) hok).mpr (by decide)

/-- An import of a declared name is neither unresolved nor an edge. -/
theorem fullReindex_loses_import : ∃ stats s,
    referringIndexer.fullReindex openFresh (referringTree "use helpers::helper;").files =
      .ok (stats, s) ∧ s.edges.rows = [] ∧
    ¬ NoneLost referringIndexer (referringTree "use helpers::helper;").files s := by
  obtain ⟨stats, hok⟩ := fullReindex_eq referringIndexer openFresh
    (referringTree "use helpers::helper;").files (.inl rfl)
  exact ⟨stats, _, hok, by decide, by decide⟩

end Indexer

end WeaveGraph

import WeaveGraph.Store.Text
import WeaveGraph.Cli.Notes

/-!
# Publishing a snapshot

Two indexing passes read source files: one writes the embedding of every node into `vec_chunks`, the
other its body and doc comment into `symbol_fts`.  Both skip the paths the exclude list names at
that time.  `snapshot_for_push` reads the list again and removes vector rows, but no text, so

    the snapshot has nothing of an excluded path
      ↔  the database had no text of a path that is excluded now     (snapshotForPush_clean_iff)

and what a full run wrote under an earlier list stays (`fullReindex_noText_iff`).
-/

namespace WeaveGraph

open List Lib.Text

/-! ## Excluded paths -/

def pathIsExcluded (path pre : String) : Bool :=
  pre == "" || path == pre || (stripPrefix path pre).any fun suffix => startsWith suffix "/"

def isExcluded (excludedPaths : List String) (path : String) : Bool :=
  excludedPaths.any (pathIsExcluded path)

theorem pathIsExcluded_iff {path pre : String} : pathIsExcluded path pre = true ↔
    pre = "" ∨ path = pre ∨ ∃ rest, path = pre ++ "/" ++ rest := by
  have hbelow : ((stripPrefix path pre).any fun suffix =>
      startsWith suffix "/") = true ↔ ∃ rest, path = pre ++ "/" ++ rest := by
    rw [Option.any_eq_true]
    constructor
    · rintro ⟨suffix, hsuffix, hslash⟩
      obtain ⟨rest, rfl⟩ := startsWith_iff.mp hslash
      rw [eq_of_stripPrefix hsuffix, ← String.append_assoc]
      exact ⟨rest, rfl⟩
    · rintro ⟨rest, rfl⟩
      rw [String.append_assoc, stripPrefix_append]
      exact ⟨"/" ++ rest, rfl, startsWith_iff.mpr ⟨rest, rfl⟩⟩
  simp only [pathIsExcluded, Bool.or_eq_true, beq_iff_eq, hbelow, or_assoc]

theorem isPurged_of_excluded {n : Node} {pre : String} (h : pathIsExcluded n.path pre = true) :
    TextStore.isPurged pre n = true := by
  rcases pathIsExcluded_iff.mp h with hnil | heq | ⟨rest, hpath⟩
  · simp [TextStore.isPurged, hnil]
  · simp [TextStore.isPurged, heq]
  · exact TextStore.isPurged_of_below hpath

/-! ## Source text -/

/-- The offsets right after the line ends. -/
def lineStartsFrom : Nat → List Char → List Nat
  | _, [] => []
  | i, c :: cs =>
    if c = '\n' then (i + 1) :: lineStartsFrom (i + 1) cs else lineStartsFrom (i + 1) cs

def sourceLineStarts (source : String) : List Nat := 0 :: lineStartsFrom 0 source.toList

def slice (source : String) (start stop : Nat) : String :=
  String.ofList ((source.toList.take stop).drop start)

def sourceSpan (source : String) (lineStart lineEnd : Nat) : Option String :=
  ((sourceLineStarts source)[lineStart - 1]?).bind fun start =>
    let stop := ((sourceLineStarts source)[lineEnd]?).getD source.toList.length
    if start < stop then some (slice source start stop) else none

def commentMarkers : List String := ["///", "//!", "//", "#", "/*", "*", "--"]

/-- Line `idx`, counted from 0, without its line end. -/
def nthLine (source : String) (idx : Nat) : Option String :=
  ((sourceLineStarts source)[idx]?).map fun start =>
    let stop := ((sourceLineStarts source)[idx + 1]?).getD source.toList.length
    String.ofList
      ((slice source start stop).toList.reverse.dropWhile fun c => c = '\n' || c = '\r').reverse

/-- The comment lines right above line `idx`, the nearest one first. -/
def commentLines (source : String) : Nat → List String
  | 0 => []
  | idx + 1 =>
    match (nthLine source idx).map trim with
    | none => []
    | some line =>
      if line = "" || !commentMarkers.any (startsWith line) then []
      else line :: commentLines source idx

def docCommentAbove (source : String) (lineStart : Nat) : String :=
  String.intercalate " " (commentLines source (lineStart - 1)).reverse

/-! ## The indexing passes -/

/-- The words of a symbol's name, and the embedding of a text. -/
structure TextEnv where
  splitIdentifier : String → String
  embed : String → List UInt8

namespace TextStore

section passes

variable (env : TextEnv) (root : Tree) (excludedPaths : List String)

/-- A file that cannot be read counts as empty. -/
def readSource (path : String) : String := (Indexer.textAt root.files path).getD ""

def bodyOf (n : Node) : String :=
  (sourceSpan (readSource root n.path) n.lineStart n.lineEnd).getD n.symbol

def docCommentOf (n : Node) : String := docCommentAbove (readSource root n.path) n.lineStart

/-- `ORDER BY path, line_start, id`. -/
def nodesByPath (s : SqliteStorage) : List Node :=
  s.allNodes.insertionSort fun a b =>
    a.path < b.path ∨ (a.path = b.path ∧ (a.lineStart < b.lineStart ∨
      (a.lineStart = b.lineStart ∧ a.id ≤ b.id)))

def streamVectorChunks (nodes : List Node) : List VecChunk :=
  (nodes.filter fun n => !isExcluded excludedPaths n.path).map fun n =>
    ⟨n.id, env.embed (bodyOf root n)⟩

def streamFtsNode (t : TextStore) (n : Node) : TextStore :=
  if isExcluded excludedPaths n.path then t
  else t.upsertFtsText n.id (bodyOf root n) (docCommentOf root n)

def streamFtsText (nodes : List Node) (t : TextStore) : TextStore :=
  nodes.foldl (streamFtsNode root excludedPaths) t

def rebuildVectorIndex (t : TextStore) : TextStore :=
  { t with vecChunks := streamVectorChunks env root excludedPaths (nodesByPath t.storage) }

def rebuildFtsText (t : TextStore) : TextStore :=
  streamFtsText root excludedPaths (nodesByPath t.storage) t

/-- The row of a node as writing the node leaves it. -/
def replaceRow (n : Node) : FtsRow := ⟨n.id, env.splitIdentifier n.symbol, n.signature, "", ""⟩

/-- A full run in a build with both tables. -/
def fullReindex (ix : Indexer) (active : TextStore) :
    Except StorageError (IndexStats × TextStore) := do
  let (stats, s) ← ix.fullReindex active.storage (ix.discoverFiles root)
  let t := rebuildVectorIndex env root excludedPaths ⟨s, s.allNodes.map (replaceRow env), []⟩
  pure (stats, rebuildFtsText root excludedPaths t)

end passes

/-- The file that is uploaded. -/
def snapshotForPush (excludedPaths : List String) (t : TextStore) : TextStore :=
  if excludedPaths.isEmpty then t else t.purgeVectorPaths excludedPaths

/-! ## What is published -/

/-- No vector row of a node whose path is excluded. -/
def NoVectors (excludedPaths : List String) (t : TextStore) : Prop :=
  ∀ n ∈ t.storage.nodes.rows, isExcluded excludedPaths n.path = true →
    ∀ v ∈ t.vecChunks, v.rowid ≠ n.id

/-- No body and no doc comment of a node whose path is excluded. -/
def NoText (excludedPaths : List String) (t : TextStore) : Prop :=
  ∀ n ∈ t.storage.nodes.rows, isExcluded excludedPaths n.path = true →
    ∀ r ∈ t.fts, r.rowid = n.id → r.body = "" ∧ r.docComment = ""
deriving Decidable

theorem snapshotForPush_noVectors (excludedPaths : List String) (t : TextStore) :
    NoVectors excludedPaths (snapshotForPush excludedPaths t) := by
  cases excludedPaths with
  | nil =>
    intro n _ hx
    cases hx
  | cons p ps =>
    obtain ⟨hs, -, hv⟩ := purgeVectorPaths_spec (p :: ps) t
    intro n hn hx v hmem
    obtain ⟨pre, hpre, hx⟩ := any_eq_true.mp hx
    have hn : n ∈ t.storage.nodes.rows := hs ▸ hn
    exact (hv v hmem).2 pre hpre n hn (isPurged_of_excluded hx)

theorem snapshotForPush_noText_iff (excludedPaths : List String) (t : TextStore) :
    NoText excludedPaths (snapshotForPush excludedPaths t) ↔ NoText excludedPaths t := by
  cases excludedPaths with
  | nil => rfl
  | cons p ps =>
    obtain ⟨hs, hf, -⟩ := purgeVectorPaths_spec (p :: ps) t
    show NoText (p :: ps) (t.purgeVectorPaths (p :: ps)) ↔ _
    unfold NoText
    rw [hs, hf]

/-- **What a push publishes.**  No vector of an excluded path, and text of one exactly if the
database has it. -/
theorem snapshotForPush_clean_iff (excludedPaths : List String) (t : TextStore) :
    NoVectors excludedPaths (snapshotForPush excludedPaths t) ∧
        NoText excludedPaths (snapshotForPush excludedPaths t) ↔
      NoText excludedPaths t := by
  rw [and_iff_right (snapshotForPush_noVectors excludedPaths t), snapshotForPush_noText_iff]

/-! ## What a full run leaves to publish -/

def HasTexts (t : TextStore) (id : NodeId) (body docComment : String) : Prop :=
  (∃ r ∈ t.fts, r.rowid = id) ∧
    ∀ r ∈ t.fts, r.rowid = id → r.body = body ∧ r.docComment = docComment

section full

variable {root : Tree} {excludedPaths : List String}

variable {t active : TextStore} {id : NodeId} {b d : String} {env : TextEnv} {ix : Indexer}
  {stats : IndexStats}

theorem hasTexts_upsertFtsText (body doc : String) (h : HasTexts t id b d) :
    HasTexts (t.upsertFtsText id body doc) id body doc := by
  obtain ⟨⟨r, hr, hid⟩, -⟩ := h
  refine ⟨⟨_, mem_map_of_mem hr, by simp [hid]⟩, fun r' hr' hid' => ?_⟩
  obtain ⟨r₀, -, rfl⟩ := mem_map.mp hr'
  by_cases h₀ : r₀.rowid = id
  · simp [h₀]
  · simp [h₀] at hid'

theorem hasTexts_upsertFtsText_of_ne {id' : NodeId} (body doc : String) (hne : id' ≠ id)
    (h : HasTexts t id b d) : HasTexts (t.upsertFtsText id' body doc) id b d := by
  obtain ⟨⟨r, hr, hid⟩, hall⟩ := h
  refine ⟨⟨_, mem_map_of_mem hr, ?_⟩, fun r' hr' hid' => ?_⟩
  · split <;> exact hid
  · obtain ⟨r₀, hr₀, rfl⟩ := mem_map.mp hr'
    by_cases h₀ : r₀.rowid = id'
    · simp only [h₀, if_true] at hid'
      exact absurd hid' hne
    · simp only [h₀, if_false] at hid' ⊢
      exact hall r₀ hr₀ hid'

theorem streamFtsNode_storage (t : TextStore) (n : Node) :
    (streamFtsNode root excludedPaths t n).storage = t.storage := by
  unfold streamFtsNode
  split <;> rfl

theorem streamFtsText_storage (nodes : List Node) (t : TextStore) :
    (streamFtsText root excludedPaths nodes t).storage = t.storage := by
  induction nodes generalizing t with
  | nil => rfl
  | cons n ns ih => exact (ih _).trans (streamFtsNode_storage t n)

theorem hasTexts_streamFtsText_of_ne {nodes : List Node} (hne : ∀ n ∈ nodes, n.id ≠ id)
    (h : HasTexts t id b d) : HasTexts (streamFtsText root excludedPaths nodes t) id b d := by
  refine Lib.foldl_invariant (P := fun t => HasTexts t id b d) (fun n hn t ht => ?_) h
  unfold streamFtsNode
  split
  · exact ht
  · exact hasTexts_upsertFtsText_of_ne _ _ (hne n hn) ht

theorem hasTexts_streamFtsText {nodes : List Node} (hnd : (nodes.map Node.id).Nodup) {n : Node}
    (hn : n ∈ nodes) (h : HasTexts t n.id b d) :
    HasTexts (streamFtsText root excludedPaths nodes t) n.id
      (if isExcluded excludedPaths n.path then b else bodyOf root n)
      (if isExcluded excludedPaths n.path then d else docCommentOf root n) := by
  obtain ⟨l₁, l₂, rfl⟩ := append_of_mem hn
  rw [map_append, map_cons, nodup_append, nodup_cons] at hnd
  obtain ⟨-, ⟨hafter, -⟩, hbefore⟩ := hnd
  have h₁ : HasTexts (streamFtsText root excludedPaths l₁ t) n.id b d :=
    hasTexts_streamFtsText_of_ne (fun m hm => hbefore _ (mem_map_of_mem hm) _ mem_cons_self) h
  unfold streamFtsText at h₁ ⊢
  rw [foldl_append, foldl_cons]
  refine hasTexts_streamFtsText_of_ne (fun m hm he => hafter (he ▸ mem_map_of_mem hm)) ?_
  unfold streamFtsNode
  split
  · exact h₁
  · exact hasTexts_upsertFtsText _ _ h₁

section

variable (h : fullReindex env root excludedPaths ix active = .ok (stats, t))

include h

theorem fullReindex_storage :
    ∃ s, ix.fullReindex active.storage (ix.discoverFiles root) = .ok (stats, s) ∧
      t = rebuildFtsText root excludedPaths (rebuildVectorIndex env root excludedPaths
        ⟨s, s.allNodes.map (replaceRow env), []⟩) := by
  obtain ⟨⟨stats', s⟩, hs, hrest⟩ := Lib.bind_eq_ok.mp h
  cases hrest
  exact ⟨s, hs, rfl⟩

/-- After a full run every node has the texts of its source, or none if its path was excluded. -/
theorem fullReindex_hasTexts {n : Node} (hn : n ∈ t.storage.nodes.rows) :
    HasTexts t n.id (if isExcluded excludedPaths n.path then "" else bodyOf root n)
      (if isExcluded excludedPaths n.path then "" else docCommentOf root n) := by
  obtain ⟨s, -, rfl⟩ := fullReindex_storage h
  have hn : n ∈ s.nodes.rows := by rwa [rebuildFtsText, streamFtsText_storage] at hn
  have hperm := perm_insertionSort (fun a b : Node =>
    a.path < b.path ∨ (a.path = b.path ∧ (a.lineStart < b.lineStart ∨
      (a.lineStart = b.lineStart ∧ a.id ≤ b.id)))) s.allNodes
  refine hasTexts_streamFtsText ((hperm.map Node.id).nodup_iff.mpr s.nodes.pk_nodup)
    (hperm.mem_iff.mpr hn) ⟨⟨_, mem_map_of_mem hn, rfl⟩, fun r hr _ => ?_⟩
  obtain ⟨m, -, rfl⟩ := mem_map.mp hr
  exact ⟨rfl, rfl⟩

/-- A full run under one list is clean for another exactly if it covers the other, up to nodes
that have no text. -/
theorem fullReindex_noText_iff (now : List String) :
    NoText now t ↔ ∀ n ∈ t.storage.nodes.rows, isExcluded now n.path = true →
      isExcluded excludedPaths n.path = true ∨ (bodyOf root n = "" ∧ docCommentOf root n = "") := by
  refine forall₂_congr fun n hn => forall_congr' fun _ => ?_
  obtain ⟨⟨r, hr, hid⟩, hall⟩ := fullReindex_hasTexts h hn
  constructor
  · intro hclean
    obtain ⟨hb, hd⟩ := hall r hr hid
    rw [(hclean r hr hid).1] at hb
    rw [(hclean r hr hid).2] at hd
    by_cases hx : isExcluded excludedPaths n.path = true
    · exact .inl hx
    · rw [if_neg hx] at hb hd
      exact .inr ⟨hb.symm, hd.symm⟩
  · intro hcase r' hr' hid'
    obtain ⟨hb, hd⟩ := hall r' hr' hid'
    rcases hcase with hx | ⟨hbody, hdoc⟩
    · rw [if_pos hx] at hb hd
      exact ⟨hb, hd⟩
    · rw [hbody, ite_self] at hb
      rw [hdoc, ite_self] at hd
      exact ⟨hb, hd⟩

end

end full

/-! ## A path excluded after it was indexed -/

def keyIndexer : Indexer where
  langExtended := true
  docs := false
  otel := false
  extract _ _ := some ⟨[⟨"key", .function, 2, 2, "fn key()"⟩], [], []⟩
  parseMarkdown _ := ⟨[], [], [], [], []⟩

def keyTree : Tree :=
  ⟨[⟨"secret/key.rs", "// the old key\nfn key() { 42 }"⟩], nodup_singleton _⟩

def plainText : TextEnv := ⟨id, fun text => text.toList.map fun c => c.toNat.toUInt8⟩

theorem fullReindex_noText_iff_key : ∃ stats t,
    fullReindex plainText keyTree ["secret"] keyIndexer ⟨SqliteStorage.openFresh, [], []⟩ =
      .ok (stats, t) ∧ NoText ["secret"] t := by
  have hok : fullReindex plainText keyTree ["secret"] keyIndexer ⟨SqliteStorage.openFresh, [], []⟩ =
    .ok (_, _) := rfl
  exact ⟨_, _, hok, (fullReindex_noText_iff hok _).mpr fun _ _ h => .inl h⟩

/-- Indexed under an empty list, pushed once `secret` is excluded. -/
theorem snapshotForPush_publishes : ∃ stats t,
    fullReindex plainText keyTree [] keyIndexer ⟨SqliteStorage.openFresh, [], []⟩ =
      .ok (stats, t) ∧
    (snapshotForPush ["secret"] t).vecChunks = [] ∧
    (snapshotForPush ["secret"] t).fts =
      [⟨1, "key", "fn key()", "fn key() { 42 }", "// the old key"⟩] ∧
    ¬ NoText ["secret"] (snapshotForPush ["secret"] t) := by
  refine ⟨_, _, rfl, ?_⟩
  decide +kernel

end TextStore

end WeaveGraph

import WeaveGraph.Store.Rows
import WeaveGraph.Store.Search
import WeaveGraph.Store.Text

/-!
# Semantic search

`search` takes the nearest rows by the binary column, as many as `oversample` pages hold, ranks them
again by the other column, drops what the caller may not see and cuts to the page.  The window is
taken once: hidden rows in it are not made up for, so

    the page holds as many visible nodes as there are, up to its size
      ↔  the window holds that many visible ones                      (searchVector_fills_iff)
-/

namespace WeaveGraph

open List Lib

/-- `EmbeddingProvider`; a component of an embedding is an opaque `f32`. -/
structure EmbeddingProvider where
  embedQuery : String → Except String (List UInt32)
  dimensions : Nat
  modelId : String

def EmbeddingProvider.fingerprint (p : EmbeddingProvider) : String :=
  p.modelId ++ ":" ++ toString p.dimensions ++ "d"

/-- The width `vec_chunks` is created with. -/
def vectorDimensions : Nat := 384

/-- What the two columns say about a query: the rows by their distance in the binary column, and
the dot product with the other one, as the integer `total_cmp` compares. -/
structure Quantized where
  byDistance : List UInt32 → List VecChunk → List VecChunk
  perm : ∀ query rows, (byDistance query rows).Perm rows
  dot : List UInt32 → VecChunk → Int

/-- The tables with vectors; `rowid` is the primary key of `vec_chunks`. -/
structure VectorStore extends TextStore where
  modelId : Option String
  rowids : (vecChunks.map VecChunk.rowid).Nodup

namespace VectorStore

open SqliteStorage (candidateLimit)

def validateDimensions (embedder : EmbeddingProvider) : Except StorageError Unit :=
  if embedder.dimensions = vectorDimensions then .ok ()
  else .error (.backend ("vector dimensions " ++ toString embedder.dimensions ++
    " do not match index dimensions " ++ toString vectorDimensions))

def validateModelId (s : VectorStore) (embedder : EmbeddingProvider) : Except StorageError Unit :=
  match s.modelId with
  | some modelId =>
    if modelId = embedder.fingerprint then .ok ()
    else .error (.backend ("vector index was built with " ++ modelId ++ "; rebuild it with " ++
      embedder.fingerprint))
  | none => .error (.backend "vector index has no model identity; run a full reindex")

section search

variable (quantized : Quantized) (s : VectorStore) (embedder : EmbeddingProvider)
  (queryText : String) (limit oversample : Nat)

/-- `ORDER BY distance LIMIT candidate_limit`. -/
def window (query : List UInt32) : List VecChunk :=
  (quantized.byDistance query s.vecChunks).take (candidateLimit limit oversample)

/-- The rows of the window in table order, those `visible` lets through, best first. -/
def reranked (query : List UInt32) (visible : Option (NodeId → Bool)) : List VecChunk :=
  let candidates := (s.window quantized limit oversample query).map VecChunk.rowid
  let scored := s.vecChunks.filter fun v => candidates.contains v.rowid
  let shown := scored.filter fun v => visible.all fun f => f v.rowid
  shown.insertionSort fun a b => quantized.dot query b ≤ quantized.dot query a

def search (visible : Option (NodeId → Bool)) : Except StorageError (List NodeId) := do
  validateDimensions embedder
  if s.vecChunks.isEmpty then
    return []
  s.validateModelId embedder
  let query ← (embedder.embedQuery queryText).mapError StorageError.backend
  if (s.window quantized limit oversample query).isEmpty then
    return []
  return ((s.reranked quantized limit oversample query visible).take limit).map VecChunk.rowid

/-- A row whose node is gone is not visible. -/
def nodeVisible (visible : Node → Bool) (id : NodeId) : Bool :=
  match s.storage.getNode id with
  | some node => visible node
  | none => false

def searchVector (visible : Option (Node → Bool)) : Except StorageError (List NodeId) :=
  s.search quantized embedder queryText limit oversample (visible.map s.nodeVisible)

end search

/-! ## How full a page is -/

def visibleAmong (s : VectorStore) (visible : Node → Bool) (rows : List VecChunk) : List VecChunk :=
  rows.filter fun v => s.nodeVisible visible v.rowid

/-- The page holds as many visible nodes as it has room for, each once. -/
def Fills (s : VectorStore) (visible : Node → Bool) (limit : Nat) (ids : List NodeId) : Prop :=
  ids.length = min limit (s.visibleAmong visible s.vecChunks).length ∧ ids.Nodup ∧
    ∀ id ∈ ids, s.nodeVisible visible id = true

section page

variable {quantized : Quantized} {s : VectorStore} {embedder : EmbeddingProvider}
  {queryText : String} {limit oversample : Nat} {query : List UInt32} {visible : Node → Bool}

theorem window_subset : s.window quantized limit oversample query ⊆ s.vecChunks := by
  intro v hv
  exact (quantized.perm query s.vecChunks).mem_iff.mp (mem_of_mem_take hv)

theorem window_nodup : ((s.window quantized limit oversample query).map VecChunk.rowid).Nodup := by
  have h : ((quantized.byDistance query s.vecChunks).map VecChunk.rowid).Nodup :=
    ((quantized.perm query s.vecChunks).map _).nodup_iff.mpr s.rowids
  exact ((take_sublist _ _).map _).nodup h

theorem filter_window_perm :
    (s.vecChunks.filter fun v =>
      ((s.window quantized limit oversample query).map VecChunk.rowid).contains v.rowid).Perm
        (s.window quantized limit oversample query) := by
  refine (perm_ext_iff_of_nodup (s.rowids.of_map.filter _) window_nodup.of_map).mpr ?_
  intro v
  rw [mem_filter, contains_iff_mem]
  constructor
  · rintro ⟨hv, hin⟩
    obtain ⟨w, hw, he⟩ := mem_map.mp hin
    rw [← inj_on_of_nodup_map s.rowids (window_subset hw) hv he]
    exact hw
  · intro hv
    exact ⟨window_subset hv, mem_map_of_mem hv⟩

theorem reranked_perm :
    (s.reranked quantized limit oversample query (some (s.nodeVisible visible))).Perm
      (s.visibleAmong visible (s.window quantized limit oversample query)) :=
  (perm_insertionSort _ _).trans (filter_window_perm.filter _)

def shownPage (quantized : Quantized) (s : VectorStore) (limit oversample : Nat)
    (query : List UInt32) (visible : Node → Bool) : List NodeId :=
  ((s.reranked quantized limit oversample query (some (s.nodeVisible visible))).take limit).map
    VecChunk.rowid

theorem length_shownPage :
    (shownPage quantized s limit oversample query visible).length =
      min limit (s.visibleAmong visible (s.window quantized limit oversample query)).length := by
  rw [shownPage, length_map, length_take, reranked_perm.length_eq]

theorem shownPage_visible :
    (shownPage quantized s limit oversample query visible).Nodup ∧
      ∀ id ∈ shownPage quantized s limit oversample query visible,
        s.nodeVisible visible id = true := by
  have hperm : (s.reranked quantized limit oversample query (some (s.nodeVisible visible))).Perm
      (s.visibleAmong visible (s.window quantized limit oversample query)) := reranked_perm
  have hsub := (take_sublist limit
    (s.reranked quantized limit oversample query (some (s.nodeVisible visible)))).map VecChunk.rowid
  constructor
  · refine hsub.nodup ((hperm.map VecChunk.rowid).nodup_iff.mpr ?_)
    exact (filter_sublist.map _).nodup window_nodup
  · intro id hid
    obtain ⟨v, hv, rfl⟩ := mem_map.mp (hsub.subset hid)
    exact (mem_filter.mp (hperm.mem_iff.mp hv)).2

theorem validateModelId_ok :
    s.validateModelId embedder = .ok () ↔ s.modelId = some embedder.fingerprint := by
  unfold validateModelId
  cases s.modelId with
  | none => simp
  | some modelId => by_cases h : modelId = embedder.fingerprint <;> simp [h]

theorem shownPage_of_window (hw : s.window quantized limit oversample query = []) :
    shownPage quantized s limit oversample query visible = [] := by
  rw [← length_eq_zero_iff, length_shownPage, hw]
  simp [visibleAmong]

theorem searchVector_eq_ok {ids : List NodeId} :
    s.searchVector quantized embedder queryText limit oversample (some visible) = .ok ids ↔
      embedder.dimensions = vectorDimensions ∧ (s.vecChunks = [] ∧ ids = [] ∨ s.vecChunks ≠ [] ∧
          s.modelId = some embedder.fingerprint ∧
          ∃ query, embedder.embedQuery queryText = .ok query ∧
            ids = shownPage quantized s limit oversample query visible) := by
  unfold searchVector search
  rw [bind_eq_ok]
  have hdims : (∃ a, validateDimensions embedder = .ok a) ↔
      embedder.dimensions = vectorDimensions := by
    unfold validateDimensions
    by_cases h : embedder.dimensions = vectorDimensions <;> simp [h]
  rw [exists_and_right, hdims]
  refine and_congr_right fun _ => ?_
  by_cases hrows : s.vecChunks = []
  · simp [hrows, pure, Except.pure, eq_comm]
  · have hne : s.vecChunks.isEmpty = false := by simpa using hrows
    simp only [hne, hrows, Bool.false_eq_true, if_false, false_and, false_or, ne_eq,
      not_false_eq_true, true_and]
    rw [bind_eq_ok, exists_and_right]
    have hmodel : (∃ a, s.validateModelId embedder = .ok a) ↔
        s.modelId = some embedder.fingerprint := by
      rw [← validateModelId_ok]
      exact ⟨fun ⟨_, h⟩ => h, fun h => ⟨_, h⟩⟩
    rw [hmodel]
    refine and_congr_right fun _ => ?_
    rw [bind_eq_ok]
    refine exists_congr fun query => and_congr ?_ ?_
    · cases embedder.embedQuery queryText <;> simp [Except.mapError]
    · by_cases hw : s.window quantized limit oversample query = []
      · simp [hw, shownPage_of_window hw, pure, Except.pure, eq_comm]
      · have hwin : (s.window quantized limit oversample query).isEmpty = false := by simpa using hw
        simp [hwin, shownPage, pure, Except.pure, eq_comm]

end page

/-- **A page of visible nodes** is as full as it can be exactly where the window holds enough of
them. -/
theorem searchVector_fills_iff (quantized : Quantized) (s : VectorStore)
    (embedder : EmbeddingProvider) (queryText : String) (limit oversample : Nat)
    (visible : Node → Bool) :
    (∃ ids, s.searchVector quantized embedder queryText limit oversample (some visible) = .ok ids ∧
        s.Fills visible limit ids) ↔
      embedder.dimensions = vectorDimensions ∧
        (s.vecChunks = [] ∨ s.modelId = some embedder.fingerprint ∧
          ∃ query, embedder.embedQuery queryText = .ok query ∧
            min limit (s.visibleAmong visible s.vecChunks).length ≤
              (s.visibleAmong visible (s.window quantized limit oversample query)).length) := by
  -- the window holds no more visible rows than the table
  have hle : ∀ query, (s.visibleAmong visible (s.window quantized limit oversample query)).length ≤
      (s.visibleAmong visible s.vecChunks).length := by
    intro query
    have hsub := (take_sublist (SqliteStorage.candidateLimit limit oversample)
      (quantized.byDistance query s.vecChunks)).filter fun v => s.nodeVisible visible v.rowid
    have hperm := (quantized.perm query s.vecChunks).filter fun v => s.nodeVisible visible v.rowid
    exact hsub.length_le.trans_eq hperm.length_eq
  constructor
  · rintro ⟨ids, hok, hlen, -⟩
    obtain ⟨hdim, ⟨hrows, -⟩ | ⟨-, hmodel, query, hquery, rfl⟩⟩ := searchVector_eq_ok.mp hok
    · exact ⟨hdim, .inl hrows⟩
    · rw [length_shownPage] at hlen
      exact ⟨hdim, .inr ⟨hmodel, query, hquery, by omega⟩⟩
  · rintro ⟨hdim, hcond⟩
    by_cases hrows : s.vecChunks = []
    · refine ⟨[], searchVector_eq_ok.mpr ⟨hdim, .inl ⟨hrows, rfl⟩⟩, ?_, nodup_nil, ?_⟩
      · simp [hrows, visibleAmong]
      · intro id hid
        cases hid
    · obtain ⟨hmodel, query, hquery, henough⟩ := hcond.resolve_left hrows
      refine ⟨_, searchVector_eq_ok.mpr ⟨hdim, .inr ⟨hrows, hmodel, query, hquery, rfl⟩⟩, ?_,
        shownPage_visible⟩
      have := hle query
      rw [length_shownPage]
      omega

/-! ## A window of hidden rows -/

/-- The rows are as near as they are old. -/
def byAge : Quantized := ⟨fun _ rows => rows, fun _ _ => List.Perm.refl _, fun _ _ => 0⟩

def mockProvider : EmbeddingProvider := ⟨fun _ => .ok [], 384, "mock"⟩

def fiveChunks : List VecChunk := [⟨1, []⟩, ⟨2, []⟩, ⟨3, []⟩, ⟨4, []⟩, ⟨5, []⟩]

theorem fiveChunks_rowids : (fiveChunks.map VecChunk.rowid).Nodup := by
  decide

/-- Five nodes with vectors; the first four lie under `secret/`. -/
def mostlySecret : VectorStore where
  storage := { SqliteStorage.openFresh with
    nodes := SqliteStorage.freshNodes [⟨0, "local", "secret/a.rs", "a", "function", 1, 2, "fn a()"⟩,
       ⟨0, "local", "secret/b.rs", "b", "function", 1, 2, "fn b()"⟩,
       ⟨0, "local", "secret/c.rs", "c", "function", 1, 2, "fn c()"⟩,
       ⟨0, "local", "secret/d.rs", "d", "function", 1, 2, "fn d()"⟩,
       ⟨0, "local", "src/e.rs", "e", "function", 1, 2, "fn e()"⟩] }
  fts := []
  vecChunks := fiveChunks
  modelId := some "mock:384d"
  rowids := fiveChunks_rowids

def notSecret (n : Node) : Bool := !Text.startsWith n.path "secret/"

/-- A page of one with four pages of candidates comes back empty; node 5 is visible and has a
vector. -/
theorem searchVector_starved :
    mostlySecret.searchVector byAge mockProvider "parse a file" 1 4 (some notSecret) = .ok [] ∧
      ¬ ∃ ids, mostlySecret.searchVector byAge mockProvider "parse a file" 1 4
          (some notSecret) = .ok ids ∧ mostlySecret.Fills notSecret 1 ids := by
  have hempty : mostlySecret.searchVector byAge mockProvider "parse a file" 1 4
      (some notSecret) = .ok [] := by decide +kernel
  refine ⟨hempty, ?_⟩
  rintro ⟨ids, hok, hlen, -⟩
  cases hok
  cases hlen

end VectorStore

end WeaveGraph

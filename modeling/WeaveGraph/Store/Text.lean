import WeaveGraph.Lib.Like
import WeaveGraph.Store.Backend

/-!
# Text derived from source

Two tables hold text taken from source files under the ids of nodes: `symbol_fts`, with the body and
the doc comment of each node, and `vec_chunks`, with the embedding of its body.  Writing a node
leaves a row with empty texts; the indexing passes fill them in.

`purge_excluded_paths` deletes from `vec_chunks` by a `LIKE` pattern of its own, which takes in at
least the paths below the prefix (`isPurged_of_below`).
-/

namespace WeaveGraph

open List

/-- A row of `symbol_fts`. -/
structure FtsRow where
  rowid : NodeId
  symbolName : String
  signature : String
  body : String
  docComment : String
deriving Repr, DecidableEq

/-- A row of `vec_chunks`; the two quantized columns are made from one embedding. -/
structure VecChunk where
  rowid : NodeId
  embedding : List UInt8
deriving Repr, DecidableEq

structure TextStore where
  storage : SqliteStorage
  fts : List FtsRow
  vecChunks : List VecChunk

namespace TextStore

/-- `fts::upsert_text`. -/
def upsertFtsText (t : TextStore) (id : NodeId) (body docComment : String) : TextStore :=
  { t with fts := t.fts.map fun r =>
      if r.rowid = id then { r with body := body, docComment := docComment } else r }

/-- The rows of `nodes` a prefix selects. -/
def isPurged (pre : String) (n : Node) : Bool :=
  n.path == pre || pre == "" || Lib.Like.likePlain n.path (pre ++ "/%")

def purgeVectorPath (t : TextStore) (pre : String) : TextStore :=
  { t with vecChunks := t.vecChunks.filter fun v =>
      !((t.storage.nodes.rows.filter (isPurged pre)).map Node.id).contains v.rowid }

def purgeVectorPaths (t : TextStore) (excludedPaths : List String) : TextStore :=
  excludedPaths.foldl purgeVectorPath t

theorem isPurged_of_below {pre rest : String} {n : Node} (h : n.path = pre ++ "/" ++ rest) :
    isPurged pre n = true := by
  have hpattern : pre ++ "/%" = pre ++ "/" ++ "%" := by
    rw [String.append_assoc]
    rfl
  have hlike : Lib.Like.likePlain n.path (pre ++ "/%") = true := by
    rw [h, hpattern]
    exact Lib.Like.likePlain_append (pre ++ "/") rest
  simp [isPurged, hlike]

theorem purgeVectorPaths_spec (excludedPaths : List String) : ∀ t : TextStore,
    (t.purgeVectorPaths excludedPaths).storage = t.storage ∧
    (t.purgeVectorPaths excludedPaths).fts = t.fts ∧
    ∀ v ∈ (t.purgeVectorPaths excludedPaths).vecChunks, v ∈ t.vecChunks ∧
      ∀ pre ∈ excludedPaths, ∀ n ∈ t.storage.nodes.rows, isPurged pre n = true →
        v.rowid ≠ n.id := by
  induction excludedPaths with
  | nil => exact fun t => ⟨rfl, rfl, fun v hv => ⟨hv, by simp⟩⟩
  | cons p ps ih =>
    intro t
    obtain ⟨hs, hf, hv⟩ := ih (t.purgeVectorPath p)
    refine ⟨hs, hf, fun v hmem => ?_⟩
    obtain ⟨hmem, hrest⟩ := hv v hmem
    obtain ⟨hmem, hnot⟩ := mem_filter.mp hmem
    refine ⟨hmem, fun pre hpre n hn hp hid => ?_⟩
    rcases mem_cons.mp hpre with rfl | hpre
    · have hin : v.rowid ∈ (t.storage.nodes.rows.filter (isPurged pre)).map Node.id :=
        mem_map.mpr ⟨n, mem_filter.mpr ⟨hn, hp⟩, hid.symm⟩
      simp [hin] at hnot
    · exact hrest pre hpre n hn hp hid

end TextStore

end WeaveGraph

import WeaveGraph.Cli.Publish
import WeaveGraph.Core.Policy

/-!
# Excluded paths, twice

`path_is_excluded` decides in Rust which paths an exclude list names, as `in_module` does for rules
and scopes (`prefixTests_agree`); `purge_excluded_paths` decides it again, in SQL.  There the prefix
is part of a `LIKE` pattern, so its `_` and `%` stand for other characters and its letters for
letters of either case:

    the purge deletes the vectors of excluded paths and no others
      ↔  no vector lies below a directory that only looks like a listed prefix
                                                             (purgeVectorPaths_exact_iff)
-/

namespace WeaveGraph

open List Lib

/-- **One rule, written three times**: for exclusion, for the linter and for the guard. -/
theorem prefixTests_agree (path pre : String) :
    pathIsExcluded path pre = Policy.inModule path pre ∧
      Policy.inModule path pre = inModule path pre := by
  refine ⟨?_, rfl⟩
  rw [Bool.eq_iff_iff, pathIsExcluded_iff]
  simp only [Policy.inModule, Bool.or_eq_true, beq_iff_eq, Text.startsWith_iff, or_assoc,
    or_left_comm]

namespace TextStore

/-- A row of a node that some prefix of the list selects. -/
def hasNode (t : TextStore) (selects : Node → Bool) (v : VecChunk) : Bool :=
  t.storage.nodes.rows.any fun n => n.id == v.rowid && selects n

theorem hasNode_iff {t : TextStore} {selects : Node → Bool} {v : VecChunk} :
    t.hasNode selects v = true ↔ ∃ n ∈ t.storage.nodes.rows, n.id = v.rowid ∧ selects n = true := by
  simp [hasNode]

theorem vecChunks_purgeVectorPaths (excludedPaths : List String) : ∀ t : TextStore,
    (t.purgeVectorPaths excludedPaths).vecChunks =
      t.vecChunks.filter fun v =>
        !t.hasNode (fun n => excludedPaths.any fun pre => isPurged pre n) v := by
  induction excludedPaths with
  | nil =>
    intro t
    have hkeep : ∀ v ∈ t.vecChunks, (!t.hasNode (fun _ => false) v) = true := by simp [hasNode]
    exact (filter_eq_self.mpr hkeep).symm
  | cons pre rest ih =>
    intro t
    rw [purgeVectorPaths, foldl_cons, ← purgeVectorPaths, ih, purgeVectorPath, filter_filter]
    refine filter_congr fun v _ => ?_
    rw [Bool.eq_iff_iff]
    simp only [hasNode, Bool.and_eq_true, Bool.not_eq_true', any_eq_false, any_cons,
      contains_eq_mem, decide_eq_false_iff_not, mem_map, mem_filter]
    grind

/-- Exactly the vectors of excluded paths are deleted. -/
def PurgesExactly (excludedPaths : List String) (t : TextStore) : Prop :=
  (t.purgeVectorPaths excludedPaths).vecChunks =
    t.vecChunks.filter fun v => !t.hasNode (fun n => isExcluded excludedPaths n.path) v

/-- What the statement selects: what the list excludes, and what lies below a directory that
matches a prefix as a pattern. -/
theorem isPurged_any_iff (excludedPaths : List String) (n : Node) :
    (excludedPaths.any fun pre => isPurged pre n) = true ↔
      isExcluded excludedPaths n.path = true ∨
        ∃ pre ∈ excludedPaths, ∃ dir rest, n.path = dir ++ "/" ++ rest ∧
          Like.likePlain dir pre = true := by
  constructor
  · intro h
    obtain ⟨pre, hpre, hp⟩ := any_eq_true.mp h
    simp only [isPurged, Bool.or_eq_true, beq_iff_eq, Like.likePlain_below] at hp
    rcases hp with (heq | hnil) | hbelow
    · exact .inl (any_eq_true.mpr ⟨pre, hpre, by simp [pathIsExcluded, heq]⟩)
    · exact .inl (any_eq_true.mpr ⟨pre, hpre, by simp [pathIsExcluded, hnil]⟩)
    · exact .inr ⟨pre, hpre, hbelow⟩
  · rintro (h | ⟨pre, hpre, hbelow⟩)
    · obtain ⟨pre, hpre, hx⟩ := any_eq_true.mp h
      exact any_eq_true.mpr ⟨pre, hpre, isPurged_of_excluded hx⟩
    · refine any_eq_true.mpr ⟨pre, hpre, ?_⟩
      simp [isPurged, (Like.likePlain_below n.path pre).mpr hbelow]

/-- **One rule, written twice.**  The two agree on a store exactly where no node with a vector lies
below a directory that matches a prefix only as a pattern. -/
theorem purgeVectorPaths_exact_iff (excludedPaths : List String) (t : TextStore) :
    PurgesExactly excludedPaths t ↔
      ∀ v ∈ t.vecChunks, ∀ n ∈ t.storage.nodes.rows, n.id = v.rowid →
        ∀ pre ∈ excludedPaths, ∀ dir rest, n.path = dir ++ "/" ++ rest →
          Like.likePlain dir pre = true → isExcluded excludedPaths n.path = true := by
  unfold PurgesExactly
  rw [vecChunks_purgeVectorPaths]
  constructor
  · intro h v hv n hn hid pre hpre dir rest hpath hlike
    have hsel : t.hasNode (fun n => excludedPaths.any fun pre => isPurged pre n) v = true :=
      hasNode_iff.mpr ⟨n, hn, hid,
        (isPurged_any_iff excludedPaths n).mpr (.inr ⟨pre, hpre, dir, rest, hpath, hlike⟩)⟩
    have hgone : v ∉ t.vecChunks.filter fun v =>
        !t.hasNode (fun n => isExcluded excludedPaths n.path) v := by
      rw [← h, mem_filter]
      simp [hsel]
    have hnode : t.hasNode (fun n => isExcluded excludedPaths n.path) v = true := by
      by_contra hne
      exact hgone (mem_filter.mpr ⟨hv, by simpa using hne⟩)
    obtain ⟨m, hm, hmid, hmx⟩ := hasNode_iff.mp hnode
    rwa [t.storage.nodes.pk_inj hn hm (hid.trans hmid.symm)]
  · intro h
    refine filter_congr fun v hv => congrArg (!·) ?_
    rw [Bool.eq_iff_iff, hasNode_iff, hasNode_iff]
    refine exists_congr fun n => and_congr_right fun hn => and_congr_right fun hid => ?_
    rw [isPurged_any_iff]
    refine or_iff_left_of_imp ?_
    rintro ⟨pre, hpre, dir, rest, hpath, hlike⟩
    exact h v hv n hn hid pre hpre dir rest hpath hlike

def besideExcluded : TextStore where
  storage := { SqliteStorage.openFresh with
    nodes := SqliteStorage.freshNodes
      [⟨0, "local", "my-lib/run.rs", "run", "function", 1, 2, "fn run()"⟩] }
  fts := []
  vecChunks := [⟨1, []⟩]

/-- Excluding `my_lib` deletes the vector of a file below `my-lib`, and so does excluding
`MY-LIB`. -/
theorem purgeVectorPaths_deletes_more :
    isExcluded ["my_lib"] "my-lib/run.rs" = false ∧
      (besideExcluded.purgeVectorPaths ["my_lib"]).vecChunks = [] ∧
      (besideExcluded.purgeVectorPaths ["MY-LIB"]).vecChunks = [] ∧
      ¬ PurgesExactly ["my_lib"] besideExcluded := by
  refine ⟨by decide +kernel, by decide +kernel, by decide +kernel, fun h => ?_⟩
  have hkept : (besideExcluded.vecChunks.filter fun v =>
      !besideExcluded.hasNode (fun n => isExcluded ["my_lib"] n.path) v).length = 1 := by
    decide +kernel
  unfold PurgesExactly at h
  rw [← h] at hkept
  cases hkept

end TextStore

end WeaveGraph

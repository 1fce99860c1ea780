import WeaveGraph.Lib.Bfs
import WeaveGraph.Store.Backend

/-!
# Filtered listings of callers

The callers of a symbol are searched breadth first, and a caller is listed if the edge it was found
by passes the edge filter.  Its other edges are never looked at.

* `listed_right`: what is listed has an edge that passes.
* `exact_iff_clear`: a listing has every such caller, in whatever order the edges are stored,
  exactly when none of them has an edge that is filtered out to one of its nearest targets.
-/

namespace WeaveGraph.Callers

open List Lib.Bfs

/-- Callers against the direction of the edges; an edge from a node that cannot be looked up is not
followed. -/
def graph (lookup : NodeId → Option Node) (s : SqliteStorage) : Lib.Bfs.Graph NodeId Edge where
  into := s.getCallers
  src := Edge.sourceId
  known id := (lookup id).isSome

/-- How far a listing looks, which edges it lets pass and which nodes it shows. -/
structure Listing where
  within : Nat → Bool
  passes : String → Option String → Bool
  shows : Node → Bool
  within_le : ∀ {j k}, j ≤ k → within k = true → within j = true

def Listing.passesEdge (q : Listing) (e : Edge) : Bool := q.passes e.kind e.resolutionKind

/-- The edge a caller was found by, with the caller, if it is listed. -/
def Listing.entry (q : Listing) (lookup : NodeId → Option Node) (e : Edge) : Option (Edge × Node) :=
  (lookup e.sourceId).bind fun n => if q.passesEdge e && q.shows n then some (e, n) else none

/-- What is listed, in the order it is found. -/
def Listing.entries (q : Listing) (lookup : NodeId → Option Node) (s : SqliteStorage)
    (root : NodeId) : List (Edge × Node) :=
  (search (graph lookup s) q.within root (s.edges.rows.length + 1)).filterMap (q.entry lookup)

section listing

variable {q : Listing} {lookup : NodeId → Option Node} {s s' s'' : SqliteStorage} {root x : NodeId}

/-- A pass over edges that marks their sources, and adds the text of what is listed of them. -/
theorem Listing.follows {σ ν : Type} {visit : List Edge → σ → List ν × σ} {node : NodeId → ν}
    {visited : σ → List NodeId} {lines : σ → List String} (q : Listing)
    (text : Edge × Node → String) (state : List NodeId → List String → σ)
    (hstate : ∀ v l, visited (state v l) = v ∧ lines (state v l) = l)
    (hnil : ∀ st, visit [] st = ([], st))
    (hcons : ∀ e rest st, visit (e :: rest) st =
      if e.sourceId ∈ visited st then visit rest st
      else (lookup e.sourceId).elim (visit rest (state (e.sourceId :: visited st) (lines st)))
        fun _ => (visit rest (state (e.sourceId :: visited st)
          (lines st ++ ((q.entry lookup e).map text).toList))).map (node e.sourceId :: ·) id) :
    Follows (graph lookup s) visit node fun st t =>
      visited st = t.visited ∧ lines st = (t.found.filterMap (q.entry lookup)).map text where
  nil := hnil
  seen {st t} h e rest hseen := by
    rw [← h.1] at hseen
    rw [hcons]
    exact if_pos hseen
  unknown {st t} h e rest hseen hknown := by
    rw [← h.1] at hseen ⊢
    have hnew : e.sourceId ∉ visited st := hseen
    have hlookup : lookup e.sourceId = none := Option.not_isSome_iff_eq_none.mp
      (Bool.eq_false_iff.mp hknown)
    refine ⟨state (e.sourceId :: visited st) (lines st), ?_, ?_⟩
    · rw [(hstate _ _).1, (hstate _ _).2]
      exact ⟨rfl, h.2⟩
    · rw [hcons, if_neg hnew, hlookup]
      rfl
  known {st t} h e rest hseen hknown := by
    rw [← h.1] at hseen ⊢
    have hnew : e.sourceId ∉ visited st := hseen
    obtain ⟨n, hlookup⟩ : ∃ n, lookup e.sourceId = some n := Option.isSome_iff_exists.mp hknown
    refine ⟨state (e.sourceId :: visited st)
      (lines st ++ ((q.entry lookup e).map text).toList), ?_, ?_⟩
    · rw [(hstate _ _).1, (hstate _ _).2, filterMap_append, map_append, ← h.2]
      refine ⟨rfl, congrArg (lines st ++ ·) ?_⟩
      cases hentry : q.entry lookup e <;> simp [hentry]
    · rw [hcons, if_neg hnew, hlookup]
      rfl

variable {e : Edge} {y : NodeId} {k : Nat}

theorem mem_getCallers : e ∈ s.getCallers y ↔ e ∈ s.edges.rows ∧ e.targetId = y := by
  rw [SqliteStorage.getCallers, mem_filter, beq_iff_eq]

theorem source_mem (b : NodeId) :
    ∀ e ∈ (graph lookup s).into b, (graph lookup s).src e ∈ s.edges.rows.map Edge.sourceId :=
  fun _ he => mem_map_of_mem (mem_getCallers.mp he).1

theorem search_fuel (lookup : NodeId → Option Node) (s : SqliteStorage) (bound : Nat → Bool)
    (root : NodeId) {m : Nat} (hm : s.edges.rows.length + 1 ≤ m) :
    search (graph lookup s) bound root m =
      search (graph lookup s) bound root (s.edges.rows.length + 1) :=
  Lib.Bfs.search_fuel source_mem (by rw [length_map]) hm

/-! ## What a listing is for -/

def Listed (q : Listing) (lookup : NodeId → Option Node) (s : SqliteStorage) (root x : NodeId) :
    Prop :=
  x ∈ (q.entries lookup s root).map fun p => p.1.sourceId

/-- The node is shown, and one of its edges that pass leads to the root or to a caller of it that
the listing looks at. -/
def Right (q : Listing) (lookup : NodeId → Option Node) (s : SqliteStorage) (root x : NodeId) :
    Prop :=
  (∃ n, lookup x = some n ∧ q.shows n = true) ∧
  ∃ e ∈ s.edges.rows, e.sourceId = x ∧ q.passesEdge e = true ∧
    ∃ k, q.within k = true ∧ Walk (graph lookup s) root k e.targetId

/-- The edge without its number. -/
def stored (e : Edge) : Edge := { e with id := 0 }

/-- The same nodes, and the same edges stored in another order. -/
def Reordered (s s' : SqliteStorage) : Prop :=
  s'.nodes = s.nodes ∧ (s'.edges.rows.map stored).Perm (s.edges.rows.map stored)

/-- Whatever the order of the edges, exactly the right nodes are listed. -/
def Exact (q : Listing) (lookup : NodeId → Option Node) (s : SqliteStorage) (root : NodeId) :
    Prop :=
  ∀ s', Reordered s s' → ∀ x, x ≠ root → (Listed q lookup s' root x ↔ Right q lookup s' root x)

/-- A node that should be listed has no edge that is filtered out to a target as near as the
nearest. -/
def Clear (q : Listing) (lookup : NodeId → Option Node) (s : SqliteStorage) (root : NodeId) :
    Prop :=
  ∀ x, x ≠ root → Right q lookup s root x → ∀ e ∈ s.edges.rows, e.sourceId = x →
    ∀ k, Dist (graph lookup s) root k e.targetId → Dist (graph lookup s) root (k + 1) x →
      q.passesEdge e = true

/-! ## Listed nodes -/

theorem entry_eq_some {f : Edge} {n : Node} : q.entry lookup e = some (f, n) ↔
    lookup e.sourceId = some n ∧ q.passesEdge e = true ∧ q.shows n = true ∧ e = f := by
  unfold Listing.entry
  cases hlookup : lookup e.sourceId with
  | none => simp
  | some m =>
    simp only [Option.bind_some, Option.ite_none_right_eq_some, Bool.and_eq_true,
      Option.some.injEq, Prod.mk.injEq]
    constructor
    · rintro ⟨⟨hpass, hshow⟩, rfl, rfl⟩
      exact ⟨rfl, hpass, hshow, rfl⟩
    · rintro ⟨rfl, hpass, hshow, rfl⟩
      exact ⟨⟨hpass, hshow⟩, rfl, rfl⟩

theorem listed_iff : Listed q lookup s root x ↔
    (∃ n, lookup x = some n ∧ q.shows n = true) ∧
    ∃ k, (∀ j < k, q.within j = true) ∧ ∃ e ∈ (level (graph lookup s) root k).2.found,
      e.sourceId = x ∧ q.passesEdge e = true := by
  unfold Listed Listing.entries
  simp only [mem_map, mem_filterMap, Prod.exists, entry_eq_some]
  constructor
  · rintro ⟨f, n, ⟨e, he, hlookup, hpass, hshow, rfl⟩, rfl⟩
    obtain ⟨k, hk, he⟩ := (mem_search_iff source_mem (by rw [length_map])).mp he
    exact ⟨⟨n, hlookup, hshow⟩, k, hk, e, he, rfl, hpass⟩
  · rintro ⟨⟨n, hlookup, hshow⟩, k, hk, e, he, rfl, hpass⟩
    have hsearch := (mem_search_iff source_mem (by rw [length_map])).mpr ⟨k, hk, he⟩
    exact ⟨e, n, ⟨e, hsearch, hlookup, hpass, hshow, rfl⟩, rfl⟩

theorem dist_of_found (he : e ∈ (level (graph lookup s) root k).2.found) :
    e ∈ s.edges.rows ∧ ∃ j < k, Dist (graph lookup s) root j e.targetId ∧
      Dist (graph lookup s) root (j + 1) e.sourceId := by
  obtain ⟨j, hj, hdist, hfind⟩ := mem_found_iff.mp he
  obtain ⟨y, hy, hinto⟩ := mem_flatMap.mp (mem_of_find?_eq_some hfind)
  obtain ⟨hrow, rfl⟩ := mem_getCallers.mp hinto
  exact ⟨hrow, j, hj, mem_level_iff.mp hy, hdist⟩

theorem listed_right (h : Listed q lookup s root x) : Right q lookup s root x := by
  obtain ⟨hnode, k, hk, e, he, hx, hpass⟩ := listed_iff.mp h
  obtain ⟨hrow, j, hj, hdist, -⟩ := dist_of_found he
  exact ⟨hnode, e, hrow, hx, hpass, j, hk j hj, hdist.1⟩

theorem exists_found_of_right (hx : x ≠ root) (h : Right q lookup s root x) :
    ∃ k, (∀ j < k, q.within j = true) ∧
      ∃ e ∈ (level (graph lookup s) root k).2.found, e.sourceId = x := by
  obtain ⟨⟨n, hlookup, -⟩, e, he, hsource, -, k, hk, hwalk⟩ := h
  have hwalk : Walk (graph lookup s) root (k + 1) x :=
    .snoc hwalk ⟨by simp [graph, hlookup], e, mem_getCallers.mpr ⟨he, rfl⟩, hsource⟩
  obtain ⟨i, hi, hdist⟩ := hwalk.exists_dist
  cases i with
  | zero => exact absurd (Lib.dist_zero.mp hdist).symm hx
  | succ i =>
    refine ⟨i + 1, fun j hj => q.within_le (by omega) hk, ?_⟩
    exact exists_found (Nat.lt_succ_self i) hdist

theorem listed_of_clear (hclear : Clear q lookup s root) (hx : x ≠ root)
    (h : Right q lookup s root x) : Listed q lookup s root x := by
  obtain ⟨k, hk, e, he, hsource⟩ := exists_found_of_right hx h
  obtain ⟨hrow, j, hj, hdist, hnext⟩ := dist_of_found he
  rw [hsource] at hnext
  exact listed_iff.mpr ⟨h.1, k, hk, e, he, hsource, hclear x hx h e hrow hsource j hdist hnext⟩

/-! ## Reordering edges -/

theorem Reordered.refl (s : SqliteStorage) : Reordered s s := ⟨rfl, .refl _⟩

theorem Reordered.symm (h : Reordered s s') : Reordered s' s := ⟨h.1.symm, h.2.symm⟩

theorem Reordered.trans (h : Reordered s s') (h' : Reordered s' s'') : Reordered s s'' :=
  ⟨h'.1.trans h.1, h'.2.trans h.2⟩

theorem Reordered.exists_edge (h : Reordered s s') (he : e ∈ s.edges.rows) :
    ∃ e' ∈ s'.edges.rows, stored e' = stored e :=
  mem_map.mp (h.2.mem_iff.mpr (mem_map_of_mem he))

theorem stored_ends {e' : Edge} (h : stored e' = stored e) :
    e'.sourceId = e.sourceId ∧ e'.targetId = e.targetId := by
  simp only [stored, Edge.mk.injEq] at h
  exact ⟨h.2.1, h.2.2.1⟩

theorem stored_passes (q : Listing) {e' : Edge} (h : stored e' = stored e) :
    q.passesEdge e' = q.passesEdge e := by
  simp only [stored, Edge.mk.injEq] at h
  rw [Listing.passesEdge, Listing.passesEdge, h.2.2.2.1, h.2.2.2.2.2]

theorem Reordered.walk (h : Reordered s s') (hwalk : Walk (graph lookup s) root k x) :
    Walk (graph lookup s') root k x := by
  induction hwalk with
  | nil => exact .nil _
  | snoc _ hstep ih =>
    obtain ⟨hknown, e, he, rfl⟩ := hstep
    obtain ⟨hrow, rfl⟩ := mem_getCallers.mp he
    obtain ⟨e', he', hstored⟩ := h.exists_edge hrow
    obtain ⟨hs, ht⟩ := stored_ends hstored
    exact .snoc ih ⟨hknown, e', mem_getCallers.mpr ⟨he', ht⟩, hs⟩

theorem Reordered.dist (h : Reordered s s') (hdist : Dist (graph lookup s) root k x) :
    Dist (graph lookup s') root k x :=
  ⟨h.walk hdist.1, fun j hwalk => hdist.2 j (h.symm.walk hwalk)⟩

theorem Reordered.right (h : Reordered s s') (hright : Right q lookup s root x) :
    Right q lookup s' root x := by
  obtain ⟨hnode, e, he, hsource, hpass, k, hk, hwalk⟩ := hright
  obtain ⟨e', he', hstored⟩ := h.exists_edge he
  obtain ⟨hs, ht⟩ := stored_ends hstored
  exact ⟨hnode, e', he', hs.trans hsource, (stored_passes q hstored).trans hpass, k, hk,
    ht ▸ h.walk hwalk⟩

theorem Reordered.clear (h : Reordered s s') (hclear : Clear q lookup s root) :
    Clear q lookup s' root := by
  intro x hx hright e he hsource k hdist hnext
  obtain ⟨e', he', hstored⟩ := h.symm.exists_edge he
  obtain ⟨hs, ht⟩ := stored_ends hstored
  rw [← stored_passes q hstored]
  exact hclear x hx (h.symm.right hright) e' he' (hs.trans hsource) k (ht ▸ h.symm.dist hdist)
    (h.symm.dist hnext)

/-! ## Moving an edge to the front -/

def bump (e : Edge) : Edge := { e with id := e.id + 1 }

/-- The store with the edge as its first row. -/
def moveFront (s : SqliteStorage) (e : Edge) (he : e ∈ s.edges.rows) : SqliteStorage :=
  { s with edges := {
      rows := stored e :: (s.edges.rows.erase e).map bump
      ordered := by
        refine pairwise_cons.mpr ⟨fun f hf => ?_, pairwise_map.mpr ?_⟩
        · obtain ⟨g, -, rfl⟩ := mem_map.mp hf
          exact Nat.succ_pos g.id
        · exact (s.edges.ordered.sublist erase_sublist).imp Nat.succ_lt_succ
      unique := by
        have hperm := (perm_cons_erase he).map Edge.naturalKey
        rw [map_cons, map_map]
        exact hperm.nodup_iff.mp s.edges.unique } }

section

variable (he : e ∈ s.edges.rows)

include he

theorem reordered_moveFront : Reordered s (moveFront s e he) := by
  refine ⟨rfl, ?_⟩
  show (stored (stored e) :: ((s.edges.rows.erase e).map bump).map stored).Perm _
  rw [map_map]
  exact ((perm_cons_erase he).map stored).symm

theorem getCallers_moveFront : (moveFront s e he).getCallers e.targetId =
      stored e :: ((s.edges.rows.erase e).map bump).filter fun f => f.targetId == e.targetId :=
  filter_cons_of_pos (beq_self_eq_true _)

theorem getCallers_moveFront_of_ne (hy : y ≠ e.targetId) :
    (moveFront s e he).getCallers y = (s.getCallers y).map bump := by
  have herase : (s.edges.rows.erase e).filter (fun f => f.targetId == y) = s.getCallers y := by
    rw [← erase_filter]
    exact erase_of_not_mem fun hmem => hy (mem_getCallers.mp hmem).2.symm
  show (stored e :: (s.edges.rows.erase e).map bump).filter (fun f => f.targetId == y) = _
  rw [filter_cons_of_neg (by simpa [stored] using hy.symm), filter_map, ← herase]
  rfl

/-- A node that is reached over first edges still is when an edge into a node as far, or farther,
is moved. -/
theorem front_moveFront {m : Nat} (hm : Dist (graph lookup s) root m e.targetId)
    (h : Front (graph lookup s) root k y) (hkm : k ≤ m) :
    Front (graph lookup (moveFront s e he)) root k y := by
  induction h with
  | root => exact .root
  | step hfront hinto hdist ih =>
    rename_i j y f rest
    have hne : y ≠ e.targetId := by
      rintro rfl
      have := hfront.dist.unique hm
      omega
    have hinto' : (graph lookup (moveFront s e he)).into y = bump f :: rest.map bump := by
      show (moveFront s e he).getCallers y = _
      rw [getCallers_moveFront_of_ne he hne]
      exact congrArg (List.map bump) hinto
    exact .step (e := bump f) (ih (by omega)) hinto' ((reordered_moveFront he).dist hdist)

theorem front_edge (h : Front (graph lookup s) root k e.targetId) :
    Front (graph lookup (moveFront s e he)) root k e.targetId ∧
      ∃ rest, (graph lookup (moveFront s e he)).into e.targetId = stored e :: rest :=
  ⟨front_moveFront he h.dist h le_rfl, _, getCallers_moveFront he⟩

end

theorem exists_reordered_edge (hs' : Reordered s s') (he : e ∈ s.edges.rows)
    (hfront : Front (graph lookup s') root k e.targetId)
    (hnext : Dist (graph lookup s) root (k + 1) e.sourceId) :
    ∃ s'' f rest, Reordered s s'' ∧ stored f = stored e ∧
      Front (graph lookup s'') root k f.targetId ∧
      (graph lookup s'').into f.targetId = f :: rest ∧
      Dist (graph lookup s'') root (k + 1) f.sourceId := by
  obtain ⟨f, hf, hstored⟩ := hs'.exists_edge he
  obtain ⟨hsource, htarget⟩ := stored_ends hstored
  rw [← htarget] at hfront
  obtain ⟨hfront, rest, hinto⟩ := front_edge hf hfront
  have hs'' := hs'.trans (reordered_moveFront hf)
  rw [← hsource] at hnext
  exact ⟨_, stored f, rest, hs'', hstored, hfront, hinto, hs''.dist hnext⟩

theorem exists_reordered_front (hy : Dist (graph lookup s) root k y) :
    ∃ s', Reordered s s' ∧ Front (graph lookup s') root k y := by
  induction k generalizing y with
  | zero =>
    obtain rfl := Lib.dist_zero.mp hy
    exact ⟨s, .refl s, .root⟩
  | succ k ih =>
    obtain ⟨⟨z, hdist, -, e, he, rfl⟩, -⟩ := Lib.dist_succ_iff_exists.mp hy
    obtain ⟨hrow, rfl⟩ := mem_getCallers.mp he
    obtain ⟨s', hs', hfront⟩ := ih hdist
    obtain ⟨s'', f, rest, hs'', hstored, hfront, hinto, hnext⟩ :=
      exists_reordered_edge hs' hrow hfront hy
    have hstep : Front (graph lookup s'') root (k + 1) f.sourceId := .step hfront hinto hnext
    rw [(stored_ends hstored).1] at hstep
    exact ⟨s'', hs'', hstep⟩

theorem exists_reordered_found (he : e ∈ s.edges.rows)
    (hdist : Dist (graph lookup s) root k e.targetId)
    (hnext : Dist (graph lookup s) root (k + 1) e.sourceId) : ∃ s', Reordered s s' ∧
      ∃ f ∈ (level (graph lookup s') root (k + 1)).2.found, stored f = stored e := by
  obtain ⟨s', hs', hfront⟩ := exists_reordered_front hdist
  obtain ⟨s'', f, rest, hs'', hstored, hfront, hinto, hnext⟩ :=
    exists_reordered_edge hs' he hfront hnext
  exact ⟨s'', hs'', f, hfront.found hinto hnext, hstored⟩

/-- A listing is right for every order of the edges exactly when no node that should be listed has
an edge that is filtered out to a nearest target. -/
theorem exact_iff_clear : Exact q lookup s root ↔ Clear q lookup s root := by
  constructor
  · intro hexact x hx hright e he hsource k hdist hnext
    rw [← hsource] at hnext
    obtain ⟨s', hs', f, hf, hstored⟩ := exists_reordered_found he hdist hnext
    obtain ⟨-, j, -, g, hg, hgx, hpass⟩ :=
      listed_iff.mp ((hexact s' hs' x hx).mpr (hs'.right hright))
    have hsame : g = f := by
      refine found_unique hg hf (hgx.trans ?_)
      exact hsource.symm.trans (stored_ends hstored).1.symm
    rw [← stored_passes q hstored, ← hsame]
    exact hpass
  · intro hclear s' hs' x hx
    exact ⟨listed_right, listed_of_clear (hs'.clear hclear) hx⟩

end listing

end WeaveGraph.Callers

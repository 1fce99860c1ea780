import WeaveGraph.Lib.Walks
import WeaveGraph.Core.Adjacency

/-!
# Neighborhoods

`bfs_within` goes level by level.  After `k` levels the bitmap holds the nodes within `k` steps, and
the frontier those whose neighbors are still to be looked at (`Level`).  `reachable_within` runs it
over the graph and `callers_within` over the reverse graph, so the one answers from the source what
the other answers from the target (`neighborhoods_exact`).
-/

namespace WeaveGraph

open List Lib
open Lib (Walk Within)

namespace CompactCsr

def Adj (csr : CompactCsr) (u v : Nat) : Prop := v ∈ csr.neighborsSlice u

/-! ## Levels -/

theorem mem_foldl_visitNeighbor (v : Nat) (l : List Nat) : ∀ st : List Nat × List Nat,
    (v ∈ (l.foldl visitNeighbor st).1 ↔ v ∈ st.1 ∨ v ∈ l) ∧
    (v ∈ (l.foldl visitNeighbor st).2 ↔ v ∈ st.2 ∨ (v ∈ l ∧ v ∉ st.1)) := by
  induction l with
  | nil => simp
  | cons w l ih =>
    intro st
    obtain ⟨hreached, hnext⟩ := ih (visitNeighbor st w)
    rw [foldl_cons, hreached, hnext]
    unfold visitNeighbor
    by_cases hw : w ∈ st.1
    · grind
    · rw [if_neg hw]
      simp only [CsrGraph.mem_bitmapInsert, mem_append, mem_singleton]
      grind

/-- The state of `bfs_within` after `k` levels. -/
structure Level (csr : CompactCsr) (source k : Nat) (reached frontier : List Nat) : Prop where
  reached_iff : ∀ v, v ∈ reached ↔ Within csr.Adj k source v
  frontier_reached : ∀ v ∈ frontier, v ∈ reached
  closed : ∀ u ∈ reached, u ∉ frontier → ∀ v, csr.Adj u v → v ∈ reached

theorem level_zero (csr : CompactCsr) (source : Nat) : Level csr source 0 [source] [source] where
  reached_iff v := by
    rw [within_zero, mem_singleton]
    exact eq_comm
  frontier_reached := fun _ hv => hv
  closed := fun _ hu hnot => absurd hu hnot

section levels

variable {csr : CompactCsr} {source k : Nat} {reached frontier : List Nat}

theorem Level.next (h : Level csr source k reached frontier) :
    Level csr source (k + 1)
      ((frontier.flatMap csr.neighborsSlice).foldl visitNeighbor (reached, [])).1
      ((frontier.flatMap csr.neighborsSlice).foldl visitNeighbor (reached, [])).2 := by
  have hmem : ∀ {v}, v ∈ frontier.flatMap csr.neighborsSlice ↔ ∃ u ∈ frontier, csr.Adj u v :=
    mem_flatMap
  have hfold := fun v =>
    mem_foldl_visitNeighbor v (frontier.flatMap csr.neighborsSlice) (reached, [])
  refine ⟨fun v => ?_, fun v hv => ?_, fun u hu hnot v hadj => ?_⟩
  · rw [(hfold v).1, hmem, within_succ, ← h.reached_iff]
    constructor
    · rintro (hv | ⟨u, hu, hadj⟩)
      · exact Or.inl hv
      · exact Or.inr ⟨u, (h.reached_iff u).mp (h.frontier_reached u hu), hadj⟩
    · rintro (hv | ⟨u, hu, hadj⟩)
      · exact Or.inl hv
      · by_cases hf : u ∈ frontier
        · exact Or.inr ⟨u, hf, hadj⟩
        · exact Or.inl (h.closed u ((h.reached_iff u).mpr hu) hf v hadj)
  · rw [(hfold v).2] at hv
    rw [(hfold v).1]
    rcases hv with hv | hv
    · cases hv
    · exact Or.inr hv.1
  · rw [(hfold u).2] at hnot
    rw [(hfold u).1] at hu
    rw [(hfold v).1]
    -- a node that is not new was reached before, and its neighbors are reached now
    have hold : u ∈ reached := by
      by_contra hold
      exact hnot (Or.inr ⟨hu.resolve_left hold, hold⟩)
    by_cases hf : u ∈ frontier
    · exact Or.inr (hmem.mpr ⟨u, hf, hadj⟩)
    · exact Or.inl (h.closed u hold hf v hadj)

theorem Level.stable (h : Level csr source k reached []) {v : Nat} (m : Nat) :
    Within csr.Adj (k + m) source v ↔ v ∈ reached := by
  induction m generalizing v with
  | zero => exact (h.reached_iff v).symm
  | succ m ih =>
    rw [← Nat.add_assoc, within_succ, ih]
    constructor
    · rintro (hv | ⟨u, hu, hadj⟩)
      · exact hv
      · exact h.closed u (ih.mp hu) not_mem_nil v hadj
    · exact Or.inl

/-- **`bfs_within` marks what is within reach.** -/
theorem mem_bfsWithin : ∀ {hops k : Nat} {reached frontier : List Nat},
    Level csr source k reached frontier → ∀ {v : Nat},
    v ∈ bfsWithin csr hops reached frontier ↔ Within csr.Adj (k + hops) source v := by
  intro hops
  induction hops with
  | zero =>
    intro k reached frontier h v
    exact h.reached_iff v
  | succ hops ih =>
    intro k reached frontier h v
    have hnext := h.next
    unfold bfsWithin
    generalize (frontier.flatMap csr.neighborsSlice).foldl visitNeighbor (reached, []) = st
      at hnext ⊢
    obtain ⟨reached', next⟩ := st
    dsimp only at hnext ⊢
    rw [show k + (hops + 1) = k + 1 + hops by omega]
    by_cases hempty : next = []
    · subst hempty
      exact (hnext.stable hops).symm
    · rw [if_neg (by simpa using hempty)]
      exact ih hnext

end levels

end CompactCsr

namespace CsrGraph

def Edge (g : CsrGraph) (a b : NodeId) : Prop := b ∈ g.outbound a

section compact

variable {ids : List NodeId} {edges : List (NodeId × NodeId)}

theorem edge_compact (hids : ids.Pairwise (· < ·)) {a b : NodeId} :
    (compact ids edges).Edge a b ↔ ∃ i j, (compact ids edges).indexOf a = some i ∧
      (compact ids edges).indexOf b = some j ∧ (compact ids edges).csr.Adj i j := by
  unfold Edge CompactCsr.Adj
  rw [(holds_compact hids).mem_outbound]
  constructor
  · rintro ⟨he, ha, hb⟩
    obtain ⟨i, hi⟩ := (@exists_indexOf (compact ids edges) a).mpr ha
    obtain ⟨j, hj⟩ := (@exists_indexOf (compact ids edges) b).mpr hb
    exact ⟨i, j, hi, hj, mem_neighborsSlice_compact.mpr ⟨a, b, he, hi, hj⟩⟩
  · rintro ⟨i, j, hi, hj, hadj⟩
    obtain ⟨target, he, ht⟩ := (mem_row_compact hids hi).mp hadj
    obtain rfl := @indexOf_inj (compact ids edges) _ _ _ hids hj ht
    exact ⟨he, (@exists_indexOf (compact ids edges) a).mp ⟨i, hi⟩,
      (@exists_indexOf (compact ids edges) b).mp ⟨j, hj⟩⟩

theorem walk_compact (hids : ids.Pairwise (· < ·)) {a : NodeId} {i : Nat}
    (ha : (compact ids edges).indexOf a = some i) : ∀ {n j : Nat},
    Walk (compact ids edges).csr.Adj n i j ↔
      ∃ b, (compact ids edges).indexOf b = some j ∧ Walk (compact ids edges).Edge n a b := by
  intro n
  induction n with
  | zero =>
    intro j
    simp only [walk_zero]
    constructor
    · rintro rfl
      exact ⟨a, ha, rfl⟩
    · rintro ⟨b, hb, rfl⟩
      exact Option.some.inj (ha.symm.trans hb)
  | succ n ih =>
    intro j
    simp only [walk_succ, ih]
    constructor
    · rintro ⟨k, ⟨b, hb, hw⟩, hadj⟩
      obtain ⟨c, he, hc⟩ := (mem_row_compact hids hb).mp hadj
      exact ⟨c, hc, b, hw, (edge_compact hids).mpr ⟨k, j, hb, hc, hadj⟩⟩
    · rintro ⟨c, hc, b, hw, he⟩
      obtain ⟨k, j', hk, hj', hadj⟩ := (edge_compact hids).mp he
      obtain rfl := Option.some.inj (hc.symm.trans hj')
      exact ⟨k, ⟨b, hk, hw⟩, hadj⟩

end compact

/-- The neighborhoods of a graph are its nodes at a bounded distance, and what one node can reach is
what the other can be reached from. -/
structure Neighborhoods (g : CsrGraph) (hops : Nat) : Prop where
  reachable : ∀ a ∈ g.indexToId, ∀ v, v ∈ g.reachableWithin a hops ↔
    ∃ b, g.indexOf b = some v ∧ Within g.Edge hops a b
  callers : ∀ a ∈ g.indexToId, ∀ v, v ∈ g.callersWithin a hops ↔
    ∃ b, g.indexOf b = some v ∧ Within g.Edge hops b a
  dual : ∀ a b i j, g.indexOf a = some i → g.indexOf b = some j →
    (j ∈ g.reachableWithin a hops ↔ i ∈ g.callersWithin b hops)

theorem mem_reachableWithin {g : CsrGraph} {a : NodeId} {i hops v : Nat}
    (ha : g.indexOf a = some i) : v ∈ g.reachableWithin a hops ↔ Within g.csr.Adj hops i v := by
  unfold reachableWithin
  rw [ha]
  exact (CompactCsr.mem_bfsWithin (CompactCsr.level_zero g.csr i)).trans (by rw [Nat.zero_add])

theorem mem_callersWithin {ids : List NodeId} {edges : List (NodeId × NodeId)} {a : NodeId}
    {i hops v : Nat} (ha : (compact ids edges).indexOf a = some i) :
    v ∈ (compact ids edges).callersWithin a hops ↔ Within (compact ids edges).csr.Adj hops v i := by
  have hadj : (compact ids edges).csr.buildReverse.Adj =
      fun x y => (compact ids edges).csr.Adj y x := by
    funext x y
    exact propext mem_neighborsSlice_reverse
  unfold callersWithin
  rw [ha]
  refine (CompactCsr.mem_bfsWithin (CompactCsr.level_zero _ i)).trans ?_
  rw [Nat.zero_add, hadj, within_swap]

/-- **The neighborhoods of every graph are exact**, forwards and backwards. -/
theorem neighborhoods_exact {g : CsrGraph} (hg : Built g) (hops : Nat) : Neighborhoods g hops := by
  obtain ⟨ids, edges, hids, rfl⟩ := hg.exists_compact
  have hwithin : ∀ {a i j}, (compact ids edges).indexOf a = some i →
      (Within (compact ids edges).csr.Adj hops i j ↔
        ∃ b, (compact ids edges).indexOf b = some j ∧
          Within (compact ids edges).Edge hops a b) := by
    intro a i j ha
    constructor
    · rintro ⟨n, hn, hw⟩
      obtain ⟨b, hb, hw⟩ := (walk_compact hids ha).mp hw
      exact ⟨b, hb, n, hn, hw⟩
    · rintro ⟨b, hb, n, hn, hw⟩
      exact ⟨n, hn, (walk_compact hids ha).mpr ⟨b, hb, hw⟩⟩
  refine ⟨fun a ha v => ?_, fun a ha v => ?_, fun a b i j hi hj => ?_⟩
  · obtain ⟨i, hi⟩ := exists_indexOf.mpr ha
    rw [mem_reachableWithin hi, hwithin hi]
  · obtain ⟨i, hi⟩ := exists_indexOf.mpr ha
    rw [mem_callersWithin hi]
    constructor
    · rintro ⟨n, hn, hwalk⟩
      obtain ⟨b, hb⟩ : ∃ b, (compact ids edges).indexOf b = some v := by
        rcases hwalk.eq_or_step with rfl | ⟨w, hadj⟩
        · exact ⟨a, hi⟩
        · obtain ⟨b, -, -, hb, -⟩ := mem_neighborsSlice_compact.mp hadj
          exact ⟨b, hb⟩
      obtain ⟨a', ha', hwithin⟩ := (hwithin hb).mp ⟨n, hn, hwalk⟩
      obtain rfl := @indexOf_inj (compact ids edges) _ _ _ hids hi ha'
      exact ⟨b, hb, hwithin⟩
    · rintro ⟨b, hb, hw⟩
      exact (hwithin hb).mpr ⟨a, hi, hw⟩
  · rw [mem_reachableWithin hi, mem_callersWithin hj]

theorem neighborhoods_exact_ring :
    Neighborhoods (fromNodesAndEdges [3, 7, 9] [(3, 7), (7, 9), (9, 3), (7, 7)]) 2 :=
  neighborhoods_exact (.fromNodesAndEdges _ _) 2

end CsrGraph

end WeaveGraph

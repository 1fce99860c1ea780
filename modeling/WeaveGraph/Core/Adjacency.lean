import WeaveGraph.Core.CsrRows

/-!
# What a graph holds

Every way to make a `CsrGraph` compacts a strictly increasing list of ids with a list of edges
(`Built.exists_compact`).  The graph then has the edges between known ids, and no others
(`mem_neighborsSlice_compact`), in rows that increase strictly.
-/

namespace WeaveGraph

open List Lib CompactCsr

namespace CsrGraph

def compact (indexToId : List NodeId) (edges : List (NodeId × NodeId)) : CsrGraph :=
  ⟨CompactCsr.fromSortedEdges (sortAndDedupEdges (edges.filterMap (compactEdge indexToId)))
    indexToId.length, indexToId⟩

/-! ## Indices -/

section indices

variable {g : CsrGraph} {a b : NodeId} {i j : Nat}

theorem indexOf_eq_some (hsorted : g.indexToId.Pairwise (· < ·)) :
    g.indexOf a = some i ↔ g.indexToId[i]? = some a := by
  exact position_eq_some (hsorted.imp Nat.ne_of_lt)

theorem exists_indexOf : (∃ i, g.indexOf a = some i) ↔ a ∈ g.indexToId := by
  unfold indexOf
  by_cases ha : a ∈ g.indexToId
  · simp [ha]
  · simp [ha]

theorem indexOf_lt (h : g.indexOf a = some i) : i < g.indexToId.length := by
  unfold indexOf at h
  split at h
  · rename_i ha
    cases h
    exact idxOf_lt_length_of_mem ha
  · cases h

theorem indexOf_inj (hsorted : g.indexToId.Pairwise (· < ·)) (ha : g.indexOf a = some i)
    (hb : g.indexOf b = some i) : a = b := by
  rw [indexOf_eq_some hsorted] at ha hb
  exact Option.some.inj (ha.symm.trans hb)

theorem indexOf_lt_iff (hsorted : g.indexToId.Pairwise (· < ·)) (ha : g.indexOf a = some i)
    (hb : g.indexOf b = some j) : a < b ↔ i < j := by
  rw [indexOf_eq_some hsorted] at ha hb
  obtain ⟨hi, rfl⟩ := List.getElem?_eq_some_iff.mp ha
  obtain ⟨hj, rfl⟩ := List.getElem?_eq_some_iff.mp hb
  rw [pairwise_iff_getElem] at hsorted
  constructor
  · intro hlt
    rcases Nat.lt_trichotomy i j with h | rfl | h
    · exact h
    · exact absurd hlt (Nat.lt_irrefl _)
    · exact absurd hlt (Nat.lt_asymm (hsorted j i hj hi h))
  · exact fun hlt => hsorted i j hi hj hlt

theorem indexToId_getD (hsorted : g.indexToId.Pairwise (· < ·)) (h : g.indexOf a = some i) :
    g.indexToId.getD i 0 = a := by
  rw [indexOf_eq_some hsorted] at h
  rw [getD_eq_getElem?_getD, h, Option.getD_some]

end indices

/-! ## Compact edges -/

/-- The order of the compact edges: by source, then by target. -/
def edgeLe (a b : Nat × Nat) : Prop := a.1 < b.1 ∨ (a.1 = b.1 ∧ a.2 ≤ b.2)

instance : DecidableRel edgeLe := fun _ _ => inferInstanceAs (Decidable (_ ∨ _))

theorem sortAndDedupEdges_pairwise (edges : List (Nat × Nat)) :
    (sortAndDedupEdges edges).Pairwise fun a b => edgeLe a b ∧ a ≠ b := by
  have : Std.Total edgeLe := ⟨fun a b => by
    unfold edgeLe
    omega⟩
  have : IsTrans (Nat × Nat) edgeLe := ⟨fun a b c => by
    unfold edgeLe
    omega⟩
  refine Text.dedup_pairwise ?_ (pairwise_insertionSort edgeLe edges)
  intro a b hab hba
  unfold edgeLe at hab hba
  exact Prod.ext (by omega) (by omega)

section compactEdges

variable {ids : List NodeId} {edges : List (NodeId × NodeId)}

variable {u v : Nat}

theorem mem_compactEdges : (u, v) ∈ sortAndDedupEdges (edges.filterMap (compactEdge ids)) ↔
      ∃ a b, (a, b) ∈ edges ∧ (compact ids edges).indexOf a = some u ∧
        (compact ids edges).indexOf b = some v := by
  unfold sortAndDedupEdges
  rw [Text.mem_dedup, mem_insertionSort, mem_filterMap]
  unfold compactEdge indexOf compact
  constructor
  · rintro ⟨⟨a, b⟩, he, h⟩
    split at h
    · rename_i hab
      cases h
      exact ⟨a, b, he, if_pos hab.1, if_pos hab.2⟩
    · cases h
  · rintro ⟨a, b, he, ha, hb⟩
    split at ha
    · rename_i hma
      split at hb
      · rename_i hmb
        cases ha
        cases hb
        exact ⟨(a, b), he, if_pos ⟨hma, hmb⟩⟩
      · cases hb
    · cases ha

theorem compactEdges_lt : ∀ e ∈ sortAndDedupEdges (edges.filterMap (compactEdge ids)),
    e.1 < ids.length ∧ e.2 < ids.length := by
  rintro ⟨u, v⟩ he
  obtain ⟨a, b, -, ha, hb⟩ := mem_compactEdges.mp he
  exact ⟨indexOf_lt ha, indexOf_lt hb⟩

theorem compactEdges_sorted :
    (sortAndDedupEdges (edges.filterMap (compactEdge ids))).Pairwise (·.1 ≤ ·.1) := by
  refine (sortAndDedupEdges_pairwise _).imp fun {a b} h => ?_
  unfold edgeLe at h
  omega

def rows (ids : List NodeId) (edges : List (NodeId × NodeId)) : List (List Nat) :=
  CompactCsr.targetRows ids.length (sortAndDedupEdges (edges.filterMap (compactEdge ids)))

theorem compact_csr : (compact ids edges).csr = CompactCsr.pack (rows ids edges) :=
  fromSortedEdges_eq compactEdges_sorted compactEdges_lt

theorem length_rows : (rows ids edges).length = ids.length := length_targetRows ..

theorem mem_rows : v ∈ (rows ids edges).getD u [] ↔
    (u, v) ∈ sortAndDedupEdges (edges.filterMap (compactEdge ids)) := by
  unfold rows CompactCsr.targetRows
  by_cases hu : u < ids.length
  · simp [getD_eq_getElem?_getD, hu]
  · rw [getD_eq_default _ _ (by simp; omega)]
    refine iff_of_false not_mem_nil fun he => hu ?_
    exact (compactEdges_lt _ he).1

theorem rows_lt : ∀ v ∈ (rows ids edges).flatten, v < (rows ids edges).length := by
  intro v hv
  rw [rows, flatten_targetRows compactEdges_sorted fun e he => (compactEdges_lt e he).1]
    at hv
  obtain ⟨e, he, rfl⟩ := mem_map.mp hv
  rw [length_rows]
  exact (compactEdges_lt e he).2

theorem row_pairwise (u : Nat) : ((rows ids edges).getD u []).Pairwise (· < ·) := by
  unfold rows CompactCsr.targetRows
  by_cases hu : u < ids.length
  · have hsorted := (sortAndDedupEdges_pairwise (edges.filterMap (compactEdge ids))).filter
      fun e => e.1 = u
    simp only [getD_eq_getElem?_getD, getElem?_map, getElem?_range hu,
      Option.map_some, Option.getD_some]
    refine pairwise_map.mpr (hsorted.imp_of_mem fun {a b} ha hb h => ?_)
    have ha : a.1 = u := by simpa using (mem_filter.mp ha).2
    have hb : b.1 = u := by simpa using (mem_filter.mp hb).2
    have hne : a.2 ≠ b.2 := fun he => h.2 (Prod.ext (ha.trans hb.symm) he)
    have hle := h.1
    unfold edgeLe at hle
    omega
  · rw [getD_eq_default _ _ (by simp; omega)]
    exact .nil

/-- **An edge of the graph** is a given edge between known ids. -/
theorem mem_neighborsSlice_compact : v ∈ (compact ids edges).csr.neighborsSlice u ↔
    ∃ a b, (a, b) ∈ edges ∧ (compact ids edges).indexOf a = some u ∧
      (compact ids edges).indexOf b = some v := by
  rw [compact_csr, neighborsSlice_pack, mem_rows, mem_compactEdges]

/-- **The reverse graph** has the same edges, the other way. -/
theorem mem_neighborsSlice_reverse : u ∈ (compact ids edges).csr.buildReverse.neighborsSlice v ↔
      v ∈ (compact ids edges).csr.neighborsSlice u := by
  rw [compact_csr, buildReverse_pack rows_lt, neighborsSlice_pack,
    neighborsSlice_pack, ← @mem_edgeList (rows ids edges)]
  by_cases hv : v < (rows ids edges).length
  · rw [sourceRows_getD hv]
    simp
  · rw [getD_eq_default _ _ (by rw [length_sourceRows]; omega)]
    refine iff_of_false not_mem_nil fun he => hv (rows_lt v ?_)
    rw [← edgeList_map_snd]
    exact mem_map_of_mem (f := Prod.snd) he

end compactEdges

/-! ## Bounds -/

/-- The offsets cut the columns into one row for each node, and every column is a node. -/
structure InBounds (g : CsrGraph) : Prop where
  offsets_length : g.csr.rowOffsets.length = g.indexToId.length + 1
  offsets_sorted : g.csr.rowOffsets.Pairwise (· ≤ ·)
  offsets_le : ∀ o ∈ g.csr.rowOffsets, o ≤ g.csr.columnIndices.length
  columns_lt : ∀ v ∈ g.csr.columnIndices, v < g.indexToId.length

/-- At each turn of the loop of `from_sorted_edges` the current row is at most `n`, and the offsets
have an entry for it. -/
def WritesInBounds (n : Nat) (edges : List (Nat × Nat)) : Prop :=
  ∀ added, added <+: edges →
    (added.foldl (CompactCsr.addEdge n) ((0, List.replicate (n + 1) 0), [])).1.1 ≤ n ∧
    (added.foldl (CompactCsr.addEdge n) ((0, List.replicate (n + 1) 0), [])).1.2.length = n + 1

theorem inBounds_compact (ids : List NodeId) (edges : List (NodeId × NodeId)) :
    InBounds (compact ids edges) := by
  refine ⟨?_, ?_, ?_, ?_⟩
  · rw [compact_csr]
    exact (offsets_length _).trans (by rw [length_rows]; rfl)
  · rw [compact_csr]
    exact offsets_pairwise _
  · rw [compact_csr]
    intro o ho
    obtain ⟨i, hi, rfl⟩ := mem_offsets.mp ho
    have hle := flatten_take_mono (rows ids edges) hi
    rwa [take_length] at hle
  · rw [compact_csr]
    intro v hv
    have := rows_lt v hv
    rwa [length_rows] at this

theorem writesInBounds_compact (ids : List NodeId) (edges : List (NodeId × NodeId)) :
    WritesInBounds ids.length (sortAndDedupEdges (edges.filterMap (compactEdge ids))) := by
  intro added hadded
  have h := filled_foldl (compactEdges_sorted.sublist hadded.sublist)
    fun e he => compactEdges_lt e (hadded.subset he)
  exact ⟨h.current_le, h.length⟩

/-! ## Outbound neighbors -/

/-- The rows and `outbound` list exactly the given edges between known ids, in increasing order. -/
structure Holds (g : CsrGraph) (ids : List NodeId) (edges : List (NodeId × NodeId)) : Prop where
  row_increasing : ∀ index, (g.csr.neighborsSlice index).Pairwise (· < ·)
  mem_row : ∀ id index, g.indexOf id = some index → ∀ v, v ∈ g.csr.neighborsSlice index ↔
    ∃ target, (id, target) ∈ edges ∧ g.indexOf target = some v
  outbound_increasing : ∀ id, (g.outbound id).Pairwise (· < ·)
  mem_outbound : ∀ id target, target ∈ g.outbound id ↔
    (id, target) ∈ edges ∧ id ∈ ids ∧ target ∈ ids

section outbound

variable {ids : List NodeId} {edges : List (NodeId × NodeId)}

theorem mem_row_compact (hids : ids.Pairwise (· < ·)) {id : NodeId} {index v : Nat}
    (hindex : (compact ids edges).indexOf id = some index) :
    v ∈ (compact ids edges).csr.neighborsSlice index ↔
      ∃ target, (id, target) ∈ edges ∧ (compact ids edges).indexOf target = some v := by
  rw [mem_neighborsSlice_compact]
  constructor
  · rintro ⟨a, b, he, ha, hb⟩
    obtain rfl := @indexOf_inj (compact ids edges) _ _ _ hids ha hindex
    exact ⟨b, he, hb⟩
  · rintro ⟨b, he, hb⟩
    exact ⟨id, b, he, hindex, hb⟩

theorem row_increasing_compact (index : Nat) :
    ((compact ids edges).csr.neighborsSlice index).Pairwise (· < ·) := by
  rw [compact_csr, neighborsSlice_pack]
  exact row_pairwise index

theorem holds_compact (hids : ids.Pairwise (· < ·)) : Holds (compact ids edges) ids edges where
  row_increasing := row_increasing_compact
  mem_row := fun _ _ hindex _ => mem_row_compact hids hindex
  outbound_increasing := by
    intro id
    unfold outbound
    split
    · exact .nil
    · rename_i index hindex
      refine pairwise_map.mpr ((row_increasing_compact index).imp_of_mem fun {v w} hv hw hlt => ?_)
      obtain ⟨a, -, ha⟩ := (mem_row_compact hids hindex).mp hv
      obtain ⟨b, -, hb⟩ := (mem_row_compact hids hindex).mp hw
      rw [@indexToId_getD (compact ids edges) _ _ hids ha,
        @indexToId_getD (compact ids edges) _ _ hids hb]
      exact (@indexOf_lt_iff (compact ids edges) _ _ _ _ hids ha hb).mpr hlt
  mem_outbound := by
    intro id target
    unfold outbound
    split
    · rename_i hnone
      refine iff_of_false not_mem_nil fun h => ?_
      obtain ⟨i, hi⟩ := (@exists_indexOf (compact ids edges) id).mpr h.2.1
      rw [hnone] at hi
      cases hi
    · rename_i index hindex
      have hid : id ∈ ids := (@exists_indexOf (compact ids edges) id).mp ⟨index, hindex⟩
      rw [mem_map]
      constructor
      · rintro ⟨v, hv, rfl⟩
        obtain ⟨b, he, hb⟩ := (mem_row_compact hids hindex).mp hv
        rw [@indexToId_getD (compact ids edges) _ _ hids hb]
        exact ⟨he, hid, (@exists_indexOf (compact ids edges) b).mp ⟨v, hb⟩⟩
      · rintro ⟨he, -, ht⟩
        obtain ⟨v, hv⟩ := (@exists_indexOf (compact ids edges) target).mpr ht
        refine ⟨v, (mem_row_compact hids hindex).mpr ⟨target, he, hv⟩, ?_⟩
        exact @indexToId_getD (compact ids edges) _ _ hids hv

end outbound

/-! ## The constructors -/

theorem insertionSort_increasing {ids : List NodeId} (hids : ids.Nodup) :
    (ids.insertionSort (· ≤ ·)).Pairwise (· < ·) := by
  have hnd : (ids.insertionSort (· ≤ ·)).Nodup :=
    (perm_insertionSort (· ≤ ·) ids).nodup_iff.mpr hids
  refine ((pairwise_insertionSort (· ≤ ·) ids).and hnd).imp fun h => ?_
  exact Nat.lt_of_le_of_ne h.1 h.2

theorem dedup_increasing (ids : List NodeId) :
    (Text.dedup (ids.insertionSort (· ≤ ·))).Pairwise (· < ·) := by
  refine (Text.dedup_pairwise ?_ (pairwise_insertionSort (· ≤ ·) ids)).imp fun h => ?_
  · exact fun hab hba => Nat.le_antisymm hab hba
  · exact Nat.lt_of_le_of_ne h.1 h.2

/-- **`outbound` lists exactly the edges between known nodes**, in increasing order, and nothing is
out of bounds, for a graph loaded from a store or made from slices. -/
theorem outbound_exact {ids : List NodeId} (hids : ids.Nodup) (edges : List (NodeId × NodeId))
    {g : CsrGraph} (hg : g = ofIdsAndEdges ids edges ∨ g = fromNodesAndEdges ids edges) :
    Holds g ids edges ∧ InBounds g ∧ WritesInBounds g.indexToId.length
      (sortAndDedupEdges (edges.filterMap (compactEdge g.indexToId))) := by
  obtain ⟨sorted, hsorted, hmem, rfl⟩ : ∃ sorted : List NodeId, sorted.Pairwise (· < ·) ∧
      (∀ id, id ∈ sorted ↔ id ∈ ids) ∧ g = compact sorted edges := by
    rcases hg with rfl | rfl
    · exact ⟨_, insertionSort_increasing hids, fun id => mem_insertionSort _, rfl⟩
    · refine ⟨_, dedup_increasing ids, fun id => ?_, rfl⟩
      rw [Text.mem_dedup, mem_insertionSort]
  have h := @holds_compact sorted edges hsorted
  refine ⟨⟨h.row_increasing, h.mem_row, h.outbound_increasing, fun id target => ?_⟩,
    inBounds_compact sorted edges, writesInBounds_compact sorted edges⟩
  rw [← hmem, ← hmem]
  exact h.mem_outbound id target

theorem outbound_exact_loop :
    Holds (ofIdsAndEdges [9, 3, 7] [(3, 7), (3, 3), (9, 3), (3, 7), (3, 5), (5, 7)]) [9, 3, 7]
      [(3, 7), (3, 3), (9, 3), (3, 7), (3, 5), (5, 7)] :=
  (outbound_exact (by decide) _ (Or.inl rfl)).1

/-- The graphs the program makes. -/
inductive Built : CsrGraph → Prop
  | empty : Built CsrGraph.empty
  | load (s : SqliteStorage) : Built (CsrGraph.load s)
  | fromNodesAndEdges (nodes : List NodeId) (edges : List (NodeId × NodeId)) :
      Built (CsrGraph.fromNodesAndEdges nodes edges)

theorem Built.exists_compact {g : CsrGraph} (hg : Built g) :
    ∃ ids edges, ids.Pairwise (· < ·) ∧ g = compact ids edges := by
  cases hg with
  | empty => exact ⟨[], [], .nil, rfl⟩
  | load s => exact ⟨_, _, insertionSort_increasing s.nodes.pk_nodup, rfl⟩
  | fromNodesAndEdges nodes edges => exact ⟨_, edges, dedup_increasing nodes, rfl⟩

end CsrGraph

end WeaveGraph
